import OrderbookEngine.CancelSimulation
import OrderbookEngine.MatchSimulation

/-!
# The two phases of FillOrKill simulate a sweep

The plan of the first phase takes fills along the slots within reach of the
limit. The second phase executes the plan on a book that changes under it;
the rest of the plan stays the plan for the rest of the quantity, so that every
execution is one step of the reference sweep.
-/

namespace OrderbookEngine.FokSimulation

open SortedMap LinkedSlots StepRuns MarketTypes PoolBook ReferenceBook LayoutInvariant SlotSteps
open ReferenceSteps CancelSimulation MatchSimulation

variable {n : ℕ} {s s' : Orderbook n} {held : List (Fin n)} {holes : Side → Price → Prop}
  {L : Layout n}

/-- Price levels and queues of a side, paired in price order. -/
theorem levels_forall₂ (h : Wf s held noHoles L) (side : Side) :
    List.Forall₂ (fun e e' => e.1 = e'.1 ∧ LevelWf s.pool e.2 e'.2)
      (s.levels side).entries (L.side side).map.entries := by
  have hnil : ∀ price, L.queue side price = [] ↔ (L.side side).map.find? price = none :=
    fun price => Buckets.queue_eq_nil_iff _ _
  apply OrdMap.forall₂_entries
  · intro price
    rw [← hnil]
    constructor
    · intro hs
      have hl := h.level side price
      rw [Orderbook.level, hs] at hl
      exact levelWf_default hl
    · intro hq
      by_contra hs
      exact h.full side price hs hq
  · intro price lvl is hs hL
    have hl := h.level side price
    rw [Orderbook.level, hs, BookOf.queue, Buckets.queue, hL] at hl
    exact hl

section Plan

/-- The fills a quantity takes along a list of slots, and what is left of it. -/
def takeFills (pool : Pool n) : List (Fin n) → Quantity → List (FokMatch n) × Quantity
  | [], remaining => ([], remaining)
  | i :: is, remaining =>
    if remaining > 0 then
      let q := min remaining (pool i).quantity
      let later := takeFills pool is (remaining - q)
      (⟨i, q⟩ :: later.1, later.2)
    else ([], remaining)

variable {pool pool' : Pool n}

/-- Nothing is taken for nothing. -/
theorem takeFills_zero (pool : Pool n) (is : List (Fin n)) : takeFills pool is 0 = ([], 0) := by
  cases is <;> rfl

/-- Fills are taken from one list and then from the next. -/
theorem takeFills_append (pool : Pool n) (is js : List (Fin n)) (remaining : Quantity) :
    takeFills pool (is ++ js) remaining =
      ((takeFills pool is remaining).1 ++ (takeFills pool js (takeFills pool is remaining).2).1,
        (takeFills pool js (takeFills pool is remaining).2).2) := by
  induction is generalizing remaining with
  | nil => rfl
  | cons i is ih =>
    rw [List.cons_append, takeFills, takeFills]
    split_ifs with hpos
    · simp only [ih, List.cons_append]
    · have hz : remaining = 0 := by grind
      rw [hz, takeFills_zero]
      rfl

/-- A plan depends only on the quantities of its slots. -/
theorem takeFills_congr {is : List (Fin n)}
    (h : ∀ i ∈ is, (pool' i).quantity = (pool i).quantity) (remaining : Quantity) :
    takeFills pool' is remaining = takeFills pool is remaining := by
  induction is generalizing remaining with
  | nil => rfl
  | cons i is ih =>
    have hi := h i List.mem_cons_self
    have hrest := ih fun j hj => h j (List.mem_cons_of_mem _ hj)
    simp only [takeFills, hi, hrest]

/-- What is planned and what is left add up to the quantity. -/
theorem takeFills_sum (pool : Pool n) (is : List (Fin n)) (remaining : Quantity) :
    ((takeFills pool is remaining).1.map fun m => m.qty.toNat).sum +
      (takeFills pool is remaining).2.toNat = remaining.toNat := by
  induction is generalizing remaining with
  | nil => simp [takeFills]
  | cons i is ih =>
    rw [takeFills]
    split_ifs with hpos
    · have hmin := toNat_min remaining (pool i).quantity
      have hsub := toNat_sub_min_left remaining (pool i).quantity
      have hrest := ih (remaining - min remaining (pool i).quantity)
      simp only [List.map_cons, List.sum_cons]
      omega
    · simp

/-- What is left is what the slots do not cover. -/
theorem takeFills_left (pool : Pool n) (is : List (Fin n)) (remaining : Quantity) :
    (takeFills pool is remaining).2.toNat =
      remaining.toNat - (is.map fun i => (pool i).quantity.toNat).sum := by
  induction is generalizing remaining with
  | nil => simp [takeFills]
  | cons i is ih =>
    rw [takeFills]
    split_ifs with hpos
    · have hsub := toNat_sub_min_left remaining (pool i).quantity
      simp only [ih, List.map_cons, List.sum_cons]
      omega
    · have hz : remaining = 0 := by grind
      simp [hz]

/-- The plan's total reaches the quantity exactly when the slots cover it. -/
theorem takeFills_total (pool : Pool n) (is : List (Fin n)) (qty : Quantity) :
    (takeFills pool is qty).1.foldl (fun total m => total + m.qty) 0 < qty ↔
      (is.map fun i => (pool i).quantity.toNat).sum < qty.toNat := by
  have hfold : ∀ (ms : List (FokMatch n)) (total : Quantity),
      ms.foldl (fun total m => total + m.qty) total = total + wrapSum (ms.map FokMatch.qty) := by
    intro ms
    induction ms with
    | nil => simp
    | cons m ms ih =>
      intro total
      rw [List.foldl_cons, ih, List.map_cons, wrapSum_cons, UInt32.add_assoc]
  have hsum := takeFills_sum pool is qty
  have hleft := takeFills_left pool is qty
  have hlt := qty.toNat_lt
  rw [hfold, UInt32.zero_add, UInt32.lt_iff_toNat_lt, toNat_wrapSum, List.map_map]
  change ((takeFills pool is qty).1.map fun m => m.qty.toNat).sum % 2 ^ 32 < _ ↔ _
  omega

/-- The scan of one level is the plan along its slots. -/
theorem scanLevel_eq {start : Option (Fin n)} {is : List (Fin n)}
    (h : Walk (linksOf pool).next start is none) {fuel : ℕ} (hlen : is.length ≤ fuel)
    (remaining : Quantity) :
    Orderbook.scanLevel pool fuel start remaining = some (takeFills pool is remaining) := by
  induction is generalizing start fuel remaining with
  | nil =>
    obtain rfl : start = none := h
    rw [Orderbook.scanLevel]
    rfl
  | cons i is ih =>
    obtain ⟨rfl, hwalk⟩ := h
    cases fuel with
    | zero => simp at hlen
    | succ fuel =>
      rw [Orderbook.scanLevel, takeFills]
      split_ifs with hpos
      · have hnext := ih hwalk (by simpa using hlen)
          (remaining - min remaining (pool i).quantity)
        change (Orderbook.scanLevel pool fuel ((linksOf pool).next i) _).map _ = _
        rw [hnext]
        rfl
      · rfl

end Plan

section Reach

variable {side : Side} {limit : Price}

/-- Opposing slots within reach of a limit, in price and time order. -/
def reach (L : Layout n) (side : Side) (limit : Price) : List (Fin n) :=
  ((L.orders side.opposite).filter fun e => side.crosses limit e.1).map Prod.snd

/-- Slots within reach along a list of queues. -/
def reachAlong (side : Side) (limit : Price) (es : List (Price × List (Fin n))) :
    List (Fin n) :=
  es.flatMap fun e => if side.crosses limit e.1 then e.2 else []

/-- The slots in reach, level by level. -/
theorem reach_eq (L : Layout n) (side : Side) (limit : Price) :
    reach L side limit = reachAlong side limit (L.side side.opposite).map.entries := by
  rw [reach, reachAlong, BookOf.orders, Buckets.toList]
  induction (L.side side.opposite).map.entries with
  | nil => rfl
  | cons e es ih =>
    rw [List.flatMap_cons, List.flatMap_cons, List.filter_append, List.map_append, ih]
    congr 1
    split_ifs with hc
    · rw [List.filter_eq_self.mpr (by simp [hc]), List.map_map]
      exact List.map_id _
    · rw [List.filter_eq_nil_iff.mpr (by simp [hc]), List.map_nil]

/-- Behind a level out of reach every level is out of reach. -/
theorem reachAlong_eq_nil {e : Price × List (Fin n)} {es : List (Price × List (Fin n))}
    (hsorted : (e :: es).Pairwise fun x y => side.opposite.before x.1 y.1)
    (hc : ¬side.crosses limit e.1) : reachAlong side limit (e :: es) = [] := by
  rw [List.pairwise_cons] at hsorted
  rw [reachAlong, List.flatMap_eq_nil_iff]
  intro x hx
  refine if_neg fun hcx => hc ?_
  rcases List.mem_cons.mp hx with rfl | hx
  · exact hcx
  · exact Side.crosses_of_before hcx (hsorted.1 x hx)

/-- The scan of all levels is the plan along the slots within reach. -/
theorem scanLevels_eq {pool : Pool n} {es : List (Price × PriceLevel n)}
    {es' : List (Price × List (Fin n))}
    (h : List.Forall₂ (fun e e' => e.1 = e'.1 ∧ LevelWf pool e.2 e'.2) es es')
    (hsorted : es'.Pairwise fun x y => side.opposite.before x.1 y.1) (remaining : Quantity) :
    Orderbook.scanLevels pool side limit es remaining =
      some (takeFills pool (reachAlong side limit es') remaining).1 := by
  induction h generalizing remaining with
  | nil => rfl
  | @cons e e' es es' he _ ih =>
    obtain ⟨price, lvl⟩ := e
    obtain ⟨price', is⟩ := e'
    obtain ⟨rfl, hlvl⟩ := he
    have hout : ¬side.crosses limit price → some [] =
        some (takeFills pool (reachAlong side limit ((price, is) :: es')) remaining).1 := by
      intro hc
      rw [reachAlong_eq_nil hsorted hc]
      rfl
    rw [Orderbook.scanLevels]
    split_ifs with hbuy hsell
    · refine hout ?_
      rw [hbuy.1]
      exact Int32.not_le.mpr hbuy.2
    · refine hout ?_
      rw [hsell.1]
      exact Int32.not_le.mpr hsell.2
    · have hc : side.crosses limit price := by
        cases side with
        | buy => exact Int32.not_lt.mp fun hlt => hbuy ⟨rfl, hlt⟩
        | sell => exact Int32.not_lt.mp fun hlt => hsell ⟨rfl, hlt⟩
      have hlen : is.length ≤ n + 1 := by
        have hle : is.length ≤ n := length_le_of_nodup hlvl.list.nodup
        omega
      have hreach : reachAlong side limit ((price, is) :: es') =
          is ++ reachAlong side limit es' := by
        rw [reachAlong, List.flatMap_cons, if_pos hc]
        rfl
      have hscan : Orderbook.scanLevel pool (n + 1) lvl.head remaining =
          some (takeFills pool is remaining) := scanLevel_eq hlvl.list.forward hlen remaining
      rw [hscan, hreach, takeFills_append]
      dsimp only
      split_ifs with hz
      · rw [hz, takeFills_zero, List.append_nil]
      · rw [ih (List.pairwise_cons.mp hsorted).2, Option.map_some]

/-- The first phase of FillOrKill computes the plan. -/
theorem collectFOK_eq (h : Wf s held noHoles L) (side : Side) (limit : Price) (qty : Quantity) :
    s.collectFOK side limit qty = some (takeFills s.pool (reach L side limit) qty).1 := by
  have hscan : Orderbook.scanLevels s.pool side limit (s.levels side.opposite).entries qty = _ :=
    scanLevels_eq (levels_forall₂ h side.opposite) (L.side side.opposite).map.sorted qty
  rw [reach_eq, ← hscan]
  cases side <;> rfl

/-- What the slots within reach hold is what is available in view. -/
theorem available_view (s : Orderbook n) (L : Layout n) (side : Side) (limit : Price) :
    (view s L).available side limit =
      ((reach L side limit).map fun i => (s.pool i).quantity.toNat).sum := by
  rw [Book.available, reach, view, BookOf.orders_mapVal, List.filter_map, List.map_map,
    List.map_map]
  rfl

/-- A slot in reach is on the opposing side. -/
theorem mem_reach {i : Fin n} (hi : i ∈ reach L side limit) :
    ∃ price, i ∈ L.queue side.opposite price := by
  obtain ⟨⟨price, _⟩, he, rfl⟩ := List.mem_map.mp hi
  exact ⟨price, (L.mem_orders _ _ _).mp (List.mem_filter.mp he).1⟩

/-- The slots within reach start with the best opposing order. -/
theorem reach_cases (L : Layout n) (side : Side) (limit : Price) :
    reach L side limit = [] ∨ ∃ price i is, L.best? side.opposite = some (price, i, is) ∧
      side.crosses limit price ∧
      reach L side limit = i :: reach (L.setQueue side.opposite price is) side limit := by
  cases hb : L.best? side.opposite with
  | none =>
    left
    rw [BookOf.best?_eq_none_iff] at hb
    rw [reach, List.map_eq_nil_iff, List.filter_eq_nil_iff]
    rintro ⟨price, i⟩ hi
    rw [BookOf.mem_orders, hb] at hi
    cases hi
  | some r =>
    obtain ⟨price, i, is⟩ := r
    have horders := BookOf.orders_of_best? hb
    by_cases hc : side.crosses limit price
    · right
      refine ⟨price, i, is, rfl, hc, ?_⟩
      rw [reach, horders, List.filter_cons_of_pos (by simpa using hc), List.map_cons, reach]
    · left
      rw [reach, List.map_eq_nil_iff, List.filter_eq_nil_iff]
      rintro ⟨price', j⟩ hj hc'
      rw [BookOf.mem_orders] at hj
      have hbest := BookOf.before_of_best? hb price'
        (List.ne_nil_of_mem hj)
      rw [decide_eq_true_eq] at hc'
      rcases hbest with rfl | hlt
      · exact hc hc'
      · exact hc (Side.crosses_of_before hc' hlt)

end Reach

section Execute

variable {side : Side} {limit price : Price} {id : OrderId} {aggr i : Fin n} {is : List (Fin n)}

/-- Fills and totals are written independently. -/
theorem fillSlot_subTotal_comm (s : Orderbook n) (side : Side) (price : Price) (aggr i : Fin n)
    (qty : Quantity) : ((s.subTotal side price qty).fillSlot aggr qty).fillSlot i qty =
      ((s.fillSlot aggr qty).subTotal side price qty).fillSlot i qty := by
  cases side <;> rfl

/-- An order is removed under its own identifier. -/
theorem removeOrder_of_orderId {oid : OrderId} (side : Side) (price : Price)
    (hid : (s.pool i).orderId = oid) :
    (({ s with orderMap := s.orderMap.erase oid }.unlink side price i).eraseIfEmpty side
      price).free i = removeOrder s side price i := by
  subst hid
  cases side <;> rfl

/-- What one pass of the second phase does to a held aggressor and the first
order of a level. -/
theorem executeFokMatch_spec (h : Wf s (aggr :: held) noHoles L)
    (hq : L.queue side price = i :: is) (qty : Quantity) :
    ∃ s', Orderbook.executeFokMatch aggr ⟨i, qty⟩ s =
        .ret (Book.tradeOf (s.pool aggr).side (s.pool aggr).orderId (s.pool i).orderId price qty)
          s' ∧
      (let L' := if (s.pool i).quantity - qty = 0 then L.setQueue side price is else L
       Wf s' (aggr :: held) noHoles L' ∧
        view s' L' = (view s L).setQueue side price
          (Book.fillHead qty (resting (s.pool i)) (is.map fun j => resting (s.pool j)))) ∧
      (∀ j, j ≠ i → j ≠ aggr → unlinked (s'.pool j) = unlinked (s.pool j)) ∧
      (s'.pool aggr).orderId = (s.pool aggr).orderId ∧
      (s'.pool aggr).side = (s.pool aggr).side ∧ settings s' = settings s := by
  have hi : i ∈ L.queue side price := by simp [hq]
  have hq' : L.queue side price = [] ++ i :: is := hq
  obtain ⟨hside, hprice, hmap⟩ := h.placed side price i hi
  have haggr : aggr ∈ aggr :: held ++ s.freeList := by simp
  have hne : i ≠ aggr := fun he => h.not_spare hi (he ▸ haggr)
  have hpresent : (s.levels side).find? price = some (s.level side price) := h.present hi
  -- the aggressor is filled, then the resting order with its level
  let s₁ : Orderbook n := s.fillSlot aggr qty
  have hw₁ : Wf s₁ (aggr :: held) noHoles L := wf_write h haggr _
  have hv₁ : view s₁ L = view s L := view_write h haggr _
  have hp₁ : ∀ j, j ≠ aggr → s₁.pool j = s.pool j := fun j hj => Function.update_of_ne hj _ _
  let s₂ := setQuantity s₁ side price i ((s₁.pool i).quantity - qty)
  have hw₂ : Wf s₂ (aggr :: held) noHoles L := wf_setQuantity hw₁ hq' _
  have hv₂ := view_setQuantity hw₁ hq' ((s₁.pool i).quantity - qty)
  have hp₂ : ∀ j, j ≠ i → s₂.pool j = s₁.pool j := fun j hj => Function.update_of_ne hj _ _
  have hi₂ : s₂.pool i = { s.pool i with quantity := (s.pool i).quantity - qty } := by
    change Function.update s₁.pool i _ i = _
    rw [Function.update_self, hp₁ i hne]
  have hs₂ : ((s.subTotal side price qty).fillSlot aggr qty).fillSlot i qty = s₂ := by
    rw [fillSlot_subTotal_comm, fillSlot_subTotal]
  have haggr₂ : s₂.pool aggr = (s.pool aggr).fill qty := by
    rw [hp₂ aggr (Ne.symm hne)]
    exact Function.update_self _ _ _
  have hnodup := h.queue_nodup side price
  rw [hq, List.nodup_cons] at hnodup
  have hrest : ∀ j ∈ is, s₂.pool j = s.pool j := fun j hj => by
    rw [hp₂ j fun hji => hnodup.1 (hji ▸ hj), hp₁ j]
    rintro rfl
    exact h.not_spare (by rw [hq]; exact List.mem_cons_of_mem _ hj) haggr
  have hrests : (is.map fun j => resting (s₂.pool j)) = is.map fun j => resting (s.pool j) :=
    List.map_congr_left fun j hj => by rw [hrest j hj]
  have hrests₁ : (is.map fun j => resting (s₁.pool j)) = is.map fun j => resting (s.pool j) :=
    List.map_congr_left fun j hj => by
      rw [← hp₂ j fun hji => hnodup.1 (hji ▸ hj), hrest j hj]
  have hfilled : (s₂.pool i).isFilled = true ↔ (s.pool i).quantity - qty = 0 := by
    rw [PoolOrder.isFilled, hi₂, beq_iff_eq]
  have hret : Orderbook.executeFokMatch aggr ⟨i, qty⟩ s =
      .ret (Book.tradeOf (s.pool aggr).side (s.pool aggr).orderId (s.pool i).orderId price qty)
        (if (s₂.pool i).isFilled then removeOrder s₂ side price i else s₂) := by
    have hput : (s.putLevel side price { s.level side price with
        totalQty := (s.level side price).totalQty - qty }) = s.subTotal side price qty := rfl
    have hid₂ : (s₂.pool i).orderId = (s.pool i).orderId := by rw [hi₂]
    have hremove := removeOrder_of_orderId side price hid₂
    subst hside hprice
    rw [Orderbook.executeFokMatch]
    simp only [hpresent, hput, hs₂, hremove]
    cases (s.pool aggr).side <;> rfl
  have hkept : ∀ j, unlinked ((if (s₂.pool i).isFilled then removeOrder s₂ side price i
      else s₂).pool j) = unlinked (s₂.pool j) := by
    intro j
    split_ifs
    · exact removeOrder_unlinked _ _ _ _ _
    · rfl
  refine ⟨_, hret, ?_, ?_, ?_, ?_, ?_⟩
  · by_cases hz : (s.pool i).quantity - qty = 0
    · obtain ⟨hw, hv⟩ := removeOrder_spec hw₂ hq'
      simp only [if_pos (hfilled.mpr hz), if_pos hz]
      refine ⟨hw, hv.trans ?_⟩
      rw [hv₂, hv₁, BookOf.setQueue_setQueue, hrests, fillHead_filled _ _ _ hz]
      rfl
    · simp only [if_neg fun hf => hz (hfilled.mp hf), if_neg hz]
      refine ⟨hw₂, ?_⟩
      rw [hv₂, hv₁, hrests₁, hp₁ i hne, fillHead_partly _ _ _ hz]
      rfl
  · intro j hji hja
    rw [hkept, hp₂ j hji, hp₁ j hja]
  · exact (unlinked_eq_iff.mp (hkept aggr)).1.trans (by rw [haggr₂]; rfl)
  · exact (unlinked_eq_iff.mp (hkept aggr)).2.1.trans (by rw [haggr₂]; rfl)
  · have hset : settings s₂ = settings s := by
      simp only [s₂, s₁, settings_setQuantity, settings_fillSlot]
    split_ifs
    · rw [← hset]
      simp only [removeOrder, settings_free, settings_eraseIfEmpty, settings_detach]
    · exact hset

/-- A held aggressor with the plan for the quantity it has left. -/
structure Plans (aggr : Fin n) (side : Side) (id : OrderId) (limit : Price) (s : Orderbook n)
    (L : Layout n) (remaining : Quantity) (found : List (FokMatch n)) : Prop where
  /-- The layout, with the slot of the aggressor held. -/
  wf : Wf s [aggr] noHoles L
  /-- Side of the aggressor. -/
  aggrSide : (s.pool aggr).side = side
  /-- Its identifier. -/
  aggrId : (s.pool aggr).orderId = id
  /-- The fills that are found use up the quantity. -/
  plan : takeFills s.pool (reach L side limit) remaining = (found, 0)

variable {remaining : Quantity} {m : FokMatch n} {found : List (FokMatch n)}

/-- An empty plan is for nothing. -/
theorem Plans.done (h : Plans aggr side id limit s L remaining []) : remaining = 0 := by
  have hplan := h.plan
  cases hreach : reach L side limit with
  | nil =>
    rw [hreach] at hplan
    exact congrArg Prod.snd hplan
  | cons i is =>
    rw [hreach, takeFills] at hplan
    split_ifs at hplan
    · cases hplan
    · exact congrArg Prod.snd hplan

/-- One pass of the second phase is one step of the sweep, and the rest of the
plan is the plan for the rest of the quantity. -/
theorem Plans.pass (h : Plans aggr side id limit s L remaining (m :: found)) :
    ∃ t s' L' remaining', Orderbook.executeFokMatch aggr m s = .ret t s' ∧
      Book.sweepStep side id limit (remaining, view s L) = some (t, (remaining', view s' L')) ∧
      Plans aggr side id limit s' L' remaining' found ∧ settings s' = settings s := by
  obtain ⟨hw, hside, hid, hplan⟩ := h
  obtain hnil | ⟨price, i, is, hbest, hc, hreach⟩ := reach_cases L side limit
  · rw [hnil] at hplan
    cases hplan
  rw [hreach, takeFills] at hplan
  have hpos : remaining > 0 := by
    by_contra hnot
    rw [if_neg hnot] at hplan
    cases hplan
  rw [if_pos hpos] at hplan
  obtain ⟨qty, hqty⟩ : ∃ qty, qty = min remaining (s.pool i).quantity := ⟨_, rfl⟩
  rw [← hqty] at hplan
  simp only [Prod.mk.injEq, List.cons.injEq] at hplan
  obtain ⟨⟨rfl, hfound⟩, hleft⟩ := hplan
  have hq := BookOf.queue_of_best? hbest
  obtain ⟨s₁, hret, ⟨hw₁, hv₁⟩, hkept, hid₁, hside₁, hset₁⟩ := executeFokMatch_spec hw hq qty
  rw [hside, hid] at hret
  refine ⟨_, s₁, if (s.pool i).quantity - qty = 0 then L.setQueue side.opposite price is else L,
    remaining - qty, hret, ?_, ⟨hw₁, hside₁.trans hside, hid₁.trans hid, ?_⟩, hset₁⟩
  · have hbv : (view s L).best? side.opposite =
        some (price, resting (s.pool i), is.map fun j => resting (s.pool j)) := by
      rw [view, BookOf.best?_mapVal, hbest]
      rfl
    refine sweepStep_eq_some_iff.mpr ⟨price, _, _, by grind, hbv, hc, ?_, ?_, ?_⟩
    · rw [hqty]
      rfl
    · rw [hqty]
      rfl
    · rw [hv₁, hqty]
      rfl
  · by_cases hzero : remaining - qty = 0
    · rw [hzero, takeFills_zero] at hfound ⊢
      rw [← hfound]
    · have hdone : (s.pool i).quantity - qty = 0 := by
        rw [hqty] at hzero ⊢
        exact (sub_min_left_or_right _ _).resolve_left hzero
      simp only [if_pos hdone] at hw₁ ⊢
      have hsame : ∀ j ∈ reach (L.setQueue side.opposite price is) side limit,
          (s₁.pool j).quantity = (s.pool j).quantity := by
        intro j hj
        obtain ⟨price', hj⟩ := mem_reach hj
        have hja : j ≠ aggr := by
          rintro rfl
          exact hw₁.not_spare hj (by simp)
        have hq' : L.queue side.opposite price = [] ++ i :: is := hq
        have hji : j ≠ i := (hw.mem_without hq' hj).2
        exact (unlinked_eq_iff.mp (hkept j hji hja)).2.2.2.2
      rw [takeFills_congr hsame, ← hfound, ← hleft]

/-- The second phase executes the plan as a sweep that fills the quantity. -/
theorem executeFOK_simulates (h : Plans aggr side id limit s L remaining found) :
    ∃ ts s' L', Orderbook.executeFOK aggr found s = .ret ts s' ∧ Wf s' [] noHoles L' ∧
      Steps (Book.sweepStep side id limit) (remaining, view s L) ts (0, view s' L') ∧
      settings s' = settings s := by
  induction found generalizing s L remaining with
  | nil =>
    obtain rfl := h.done
    exact ⟨[], s.free aggr, L, rfl, wf_free h.wf, Steps.refl _, rfl⟩
  | cons m found ih =>
    obtain ⟨t, s₁, L₁, remaining', hret, hstep, h₁, hset₁⟩ := h.pass
    obtain ⟨ts, s', L', hex, hw', hsteps, hset'⟩ := ih h₁
    refine ⟨t :: ts, s', L', ?_, hw', Steps.head hstep hsteps, hset'.trans hset₁⟩
    rw [Orderbook.executeFOK, hret, Outcome.ret_bind, hex, Outcome.ret_bind]

end Execute

end OrderbookEngine.FokSimulation
