import OrderbookEngine.Execution

/-!
# Failures and refusals

The only exception of the engine is that of an exhausted pool, raised by an
addition that passes every check while no slot is free. Cancellations,
modifications and messages never fail, and an addition that raises or is turned
away leaves the book as it was.
-/

namespace OrderbookEngine.Failures

open MarketTypes PoolBook FeedCalls ReferenceBook LayoutInvariant FokSimulation EngineSimulation
open RunRules BookState Additions

variable {n : ℕ} {s s' : Orderbook n} {e : RefEngine} {L : Layout n}

/-- Exact opposing quantity within a limit, by a scan of all live orders. -/
def withinReach (s : Orderbook n) (side : Side) (limit : Price) : ℕ :=
  ((s.orderMap.entries.filter fun e =>
    (s.pool e.2).side = side.opposite ∧ side.crosses limit (s.pool e.2).price).map fun e =>
      (s.pool e.2).quantity.toNat).sum

/-- The scan sums what FillOrKill can reach. -/
theorem withinReach_eq (h : Represents s e) (side : Side) (limit : Price) :
    withinReach s side limit = e.book.available side limit := by
  obtain ⟨⟨L, hw, hbook⟩, -, -⟩ := h
  have hperm : ((s.orderMap.entries.filter fun e =>
      (s.pool e.2).side = side.opposite ∧ side.crosses limit (s.pool e.2).price).map
        Prod.snd).Perm (reach L side limit) := by
    refine (List.perm_ext_iff_of_nodup ?_ ?_).mpr fun i => ?_
    · exact (hw.mapped_perm.nodup_iff.mpr hw.slots_nodup).sublist
        (List.filter_sublist.map Prod.snd)
    · exact (hw.side_nodup side.opposite).sublist (List.filter_sublist.map Prod.snd)
    · rw [List.mem_map, reach, List.mem_map]
      constructor
      · rintro ⟨⟨id, j⟩, he, rfl⟩
        obtain ⟨hmem, hat⟩ := List.mem_filter.mp he
        obtain ⟨hside, hcross⟩ := of_decide_eq_true hat
        have hj := (hw.indexed id j ((s.orderMap.find?_eq_some_iff _ _).mpr hmem)).2
        refine ⟨((s.pool j).price, j), List.mem_filter.mpr ⟨?_, by simpa using hcross⟩, rfl⟩
        rw [BookOf.mem_orders, ← hside]
        exact hj
      · rintro ⟨⟨price, j⟩, he, rfl⟩
        obtain ⟨hmem, hcross⟩ := List.mem_filter.mp he
        rw [BookOf.mem_orders] at hmem
        obtain ⟨hside, hprice, hm⟩ := hw.placed _ _ j hmem
        refine ⟨((s.pool j).orderId, j), List.mem_filter.mpr
          ⟨(s.orderMap.find?_eq_some_iff _ _).mp hm, ?_⟩, rfl⟩
        simpa [hside, hprice] using hcross
  rw [hbook, available_view, withinReach, ← (hperm.map fun i => (s.pool i).quantity.toNat).sum_eq,
    List.map_map]
  rfl

/-- What may fail in a state, and what is left when it does. -/
structure FailureContract (s : Orderbook n) : Prop where
  /-- The look-ups of cancellations and modifications never miss, also on a full pool. -/
  cancels : ∀ id, ∃ s', s.cancelOrder id = .ret () s'
  /-- A modification never raises. -/
  modifies : ∀ mod, ∃ ts s', s.modifyOrder mod = .ret ts s'
  /-- Nor does a cancellation of GoodForDay orders. -/
  cancelsGoodForDay : ∀ order, ∃ s', s.cancelGoodForDayOrders order = .ret () s'
  /-- No look-up of an addition misses, whatever call makes it. -/
  finds : ∀ call, ∀ a ∈ additions s call, ∀ s', a.outcome ≠ .raise .outOfRange s'
  /-- An addition raises when it passes the checks and every slot is live. -/
  raises_iff : ∀ type id side price qty, (s.addOrder type id side price qty).raises = true ↔
    checked s type id side price qty ≠ none ∧ s.size = slotCount n
  /-- Below 2^31 every slot of the pool can be live. -/
  capacity : n < 2 ^ 31 → slotCount n = s.poolCapacity
  /-- Every message is processed; only a raising new order is an error. -/
  processes : ∀ msg order, ∃ s', processMarketData s msg order = .ret true s' ∧
    s'.stats.errors = s.stats.errors + if newOrderRaises s msg then 1 else 0
  /-- A batch processes its messages one by one and counts all of them. -/
  batches : ∀ msgs, processMarketDataBatch msgs s = .ret msgs.length
    (after s (msgs.map fun m => .processMarketData m.1 m.2))
  /-- What raises is exhaustion, and it leaves the engine as it is. -/
  raised : ∀ type id side price qty x s', s.addOrder type id side price qty = .raise x s' →
    x = poolExhausted ∧ SameBook s s'
  /-- Without liquidity, invalid, or unmatched at once. -/
  refused : ∀ type id side price qty, checked s type id side price qty = none →
    ∃ s', s.addOrder type id side price qty = .ret [] s' ∧ SameBook s s'
  /-- FillOrKill without enough within its limit. -/
  killed : ∀ type id side price qty limit,
    checked s type id side price qty = some (.fillOrKill, limit) → s.freeList ≠ [] →
    withinReach s side limit < qty.toNat →
    ∃ s', s.addOrder type id side price qty = .ret [] s' ∧ SameBook s s'

/-- The free list is empty exactly when every slot of the constructor is live. -/
theorem freeList_eq_nil_iff_size (h : Represents s e) : s.freeList = [] ↔ s.size = slotCount n := by
  have hadd := h.free_add
  rw [Orderbook.poolFreeSlots] at hadd
  rw [h.size_eq, ← List.length_eq_zero_iff]
  omega

/-- An addition raises when it passes the checks on an exhausted pool, and then
at once. -/
theorem addOrder_raise_cases (h : Represents s e) (type : OrderType) (id : OrderId)
    (side : Side) (price : Price) (qty : Quantity) :
    (s.addOrder type id side price qty = .raise poolExhausted s ∧
        checked s type id side price qty ≠ none ∧ s.freeList = []) ∨
      (s.addOrder type id side price qty).raises = false ∧
        (checked s type id side price qty = none ∨ s.freeList ≠ []) := by
  cases hc : checked s type id side price qty with
  | none => exact Or.inr ⟨by rw [addOrder_refused hc]; rfl, Or.inl rfl⟩
  | some r =>
    obtain ⟨type', price'⟩ := r
    by_cases hf : s.freeList = []
    · exact Or.inl ⟨addOrder_exhausted hc hf, by simp, hf⟩
    · obtain ⟨s', hret, -⟩ := addOrder_placed h hc hf
      exact Or.inr ⟨by rw [hret]; rfl, Or.inr hf⟩

/-- Every represented state meets the contract. -/
theorem failureContract (h : Represents s e) : FailureContract s where
  cancels := fun id => by
    obtain ⟨s', hret, -⟩ := cancelOrder_agrees h id
    exact ⟨s', hret⟩
  modifies := fun mod => by
    obtain ⟨ts, s', -, hret, -⟩ := modifyOrder_returns h mod
    exact ⟨ts, s', hret⟩
  cancelsGoodForDay := fun order => by
    obtain ⟨s', hret, -⟩ := cancelGoodForDayOrders_agrees h order
    exact ⟨s', hret⟩
  finds := by
    intro call a ha s' hraise
    obtain ⟨e', hrep⟩ := additions_represent h call ha
    rw [Addition.outcome] at hraise
    rcases addOrder_raise_cases hrep a.type a.id a.side a.price a.qty with ⟨heq, -⟩ | ⟨hnot, -⟩
    · rw [heq] at hraise
      cases hraise
    · rw [hraise] at hnot
      cases hnot
  raises_iff := by
    intro type id side price qty
    rw [← freeList_eq_nil_iff_size h]
    rcases addOrder_raise_cases h type id side price qty with ⟨heq, hc, hf⟩ | ⟨hnot, hor⟩
    · exact iff_of_true (by rw [heq]; rfl) ⟨hc, hf⟩
    · refine iff_of_false (by simp [hnot]) ?_
      rintro ⟨hc, hf⟩
      rcases hor with hnone | hne
      · exact hc hnone
      · exact hne hf
  capacity := fun hn => slotCount_of_lt hn
  processes := fun msg order => by
    obtain ⟨s', hret, -, herr⟩ := processMarketData_simulates h msg order
    exact ⟨s', hret, herr⟩
  batches := fun msgs => processMarketDataBatch_reaches msgs h
  raised := by
    intro type id side price qty x s' hraise
    rcases addOrder_raise_cases h type id side price qty with ⟨heq, -⟩ | ⟨hnot, -⟩
    · rw [heq] at hraise
      cases hraise
      exact ⟨rfl, SameBook.refl s⟩
    · rw [hraise] at hnot
      cases hnot
  refused := fun type id side price qty hc => ⟨s, addOrder_refused hc, SameBook.refl s⟩
  killed := by
    intro type id side price qty limit hc hf hreach
    rw [withinReach_eq h] at hreach
    exact addOrder_killed h hc hf hreach

/-- A pool whose size cast to int32_t is negative. -/
def hugePool : ℕ := 2147483649

/-- An engine with a huge pool raises on its first order, at size 0. -/
theorem hugePool_raises : Reachable (create hugePool) ∧
    ¬(∀ type id side price qty,
      ((create hugePool).addOrder type id side price qty).raises = true ↔
        checked (create hugePool) type id side price qty ≠ none ∧
          (create hugePool).size = (create hugePool).poolCapacity) := by
  refine ⟨Reachable.create, fun hall => ?_⟩
  have hnone : slotCount hugePool = 0 := by decide
  have hfree : (create hugePool).freeList = [] := by
    rw [create, hnone, List.take_zero]
  have hchecked : checked (create hugePool) .goodTillCancel 1 .buy 100 1 =
      some (.goodTillCancel, 100) := by decide
  have hraises := addOrder_exhausted hchecked hfree
  have hsize := ((hall .goodTillCancel 1 .buy 100 1).mp (by rw [hraises]; rfl)).2
  have hzero : (create hugePool).size = 0 := rfl
  rw [hzero] at hsize
  exact absurd hsize (by decide)

/-- In every reachable state the only failure is pool exhaustion, and every
refusal leaves the book as it was. -/
theorem reachable_failureContract (h : Reachable s) : FailureContract s := by
  obtain ⟨e, hrep⟩ := reachable_represents h
  exact failureContract hrep

/-- A pool of one slot that is taken. -/
theorem reachable_failureContract_full :
    FailureContract (after (create 1) [.addOrder .goodTillCancel 1 .sell 100 5]) :=
  reachable_failureContract ⟨_, rfl⟩

end OrderbookEngine.Failures
