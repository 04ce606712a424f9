import OrderbookEngine.SnapshotDepth

/-!
# Pools of 2^31 slots and more

Slots have int32_t indices, and the constructor casts the pool size to int32_t
before it frees the slots. A pool of fewer than 2^31 slots can be filled up to
its capacity. Every larger one is exhausted while it still reports unused slots,
so that orders and snapshot levels within its capacity are lost.
-/

namespace OrderbookEngine.HugePools

open MarketTypes PoolBook FeedCalls ReferenceBook EngineSimulation RunRules BookState Additions
open Failures Snapshots SnapshotDepth

variable {n m : ℕ} {s : Orderbook n} {e : RefEngine}

/-- What may fail when every slot of the pool can be used. -/
structure CapacityContract (s : Orderbook n) : Prop extends FailureContract s where
  /-- An addition raises when it passes the checks and the pool is full. -/
  raises_iff_full : ∀ type id side price qty,
    (s.addOrder type id side price qty).raises = true ↔
      checked s type id side price qty ≠ none ∧ s.size = s.poolCapacity

/-- Snapshots of levels that do not cross, fit into the pool and stay below 2^32
units at each price are reproduced without any trade. -/
def ReproducesSnapshots (s : Orderbook n) : Prop :=
  ∀ msg order, Storable msg → SnapshotDepth.Apart s.exchangeRules msg →
    keptCount s.exchangeRules msg ≤ s.poolCapacity →
    (∀ side price, keptTotal s.exchangeRules (levelsOf msg side) price < 2 ^ 32) →
    ∃ s', processSnapshot s msg order = .ret () s' ∧ Reproduced s.exchangeRules msg s' ∧
      ∀ a ∈ snapshotAdditions s msg order, ∃ s'', a.outcome = .ret [] s''

section Filling

/-- A snapshot of some bids of one unit each. -/
def unitBids (m : ℕ) : BookSnapshotMessage := ⟨List.replicate m ⟨100, 1⟩, [], 1⟩

/-- Every bid is kept under the default rules. -/
theorem keptCount_unitBids (m : ℕ) : keptCount {} (unitBids m) = m := by
  have hkept : kept {} ⟨100, 1⟩ = true := by
    decide
  have hbids : (unitBids m).bids.filter (kept {}) = (unitBids m).bids :=
    List.filter_replicate_of_pos hkept
  have hlength : (unitBids m).bids.length = m := List.length_replicate
  have hasks : ((unitBids m).asks.filter (kept {})).length = 0 := rfl
  rw [keptCount, hbids, hlength, hasks, Nat.add_zero]

/-- Any number of bids that a vector holds can be stored. -/
theorem storable_unitBids (hm : m < 2 ^ 63) : Storable (unitBids m) := by
  intro side
  cases side with
  | buy => exact (List.length_replicate : (unitBids m).bids.length = m).trans_lt hm
  | sell => exact Nat.two_pow_pos 63

/-- Bids do not cross each other. -/
theorem apart_unitBids (m : ℕ) : SnapshotDepth.Apart {} (unitBids m) := by
  intro bid hbid ask hask
  cases hask

/-- Fewer than 2^32 units are asked for at the price. -/
theorem keptTotal_unitBids (hm : m < 2 ^ 32) (side : Side) (price : Price) :
    keptTotal {} (levelsOf (unitBids m) side) price < 2 ^ 32 := by
  refine Nat.lt_of_le_of_lt (keptTotal_le _ _ _) ?_
  cases side with
  | buy =>
    have hsum : ((unitBids m).bids.map fun level => level.quantity.toNat).sum = m := by
      rw [unitBids, List.map_replicate, List.sum_replicate]
      exact Nat.mul_one m
    exact hsum.trans_lt hm
  | sell => exact Nat.two_pow_pos 32

/-- Orders of a snapshot have synthetic identifiers, none of which is 0. -/
theorem hasOrder_zero (he : Represents s e) (hm : m < 2 ^ 63)
    (hrep : Reproduced {} (unitBids m) s) : s.hasOrder 0 = false := by
  obtain ⟨m', -, -, hle, hmem⟩ := nextId_eq (unitBids m).bids 0
  have hlength : (unitBids m).bids.length = m := List.length_replicate
  have hnone : e.book.find? 0 = none := by
    rw [ReferenceSteps.find?_eq_none_iff]
    intro side price o ho hid
    rw [← listing_eq he, hrep.listings] at ho
    obtain ⟨r, hr, rfl⟩ := List.mem_map.mp ho
    have hnumbered := List.mem_of_mem_filter (List.mem_of_mem_filter hr)
    cases side with
    | buy =>
      obtain ⟨k, -, hk, hrk⟩ := hmem r hnumbered
      have hfirst : firstSyntheticId.toNat = 2 ^ 63 := rfl
      have hnat := congrArg UInt64.toNat (hrk.symm.trans hid)
      rw [syntheticId, UInt64.toNat_add, UInt64.toNat_ofNat', hfirst, UInt64.toNat_zero] at hnat
      omega
    | sell => cases hnumbered
  rw [he.hasOrder_book, Book.hasOrder, hnone]
  rfl

/-- A fresh pool takes as many orders as it has free slots, and there is a valid
order that it has no slot for. -/
theorem exists_full (n : ℕ) : ∃ s : Orderbook n, Reachable s ∧
    s.validateOrder 0 100 1 = true ∧ s.size = slotCount n := by
  have hle := slotCount_le_max n
  obtain ⟨s', hret, hrep, -⟩ := snapshot_reproduced Reachable.create (unitBids (slotCount n))
    inKeyOrder (storable_unitBids (by omega)) (apart_unitBids _) (keptCount_unitBids _).le
    (keptTotal_unitBids (by omega))
  have hreach : Reachable (perform (create n)
      (.processMarketData (.bookSnapshot (unitBids (slotCount n))) inKeyOrder)).2 :=
    Reachable.create.perform _
  rw [perform, processMarketData, handleMessage, hret] at hreach
  refine ⟨_, hreach, ?_, hrep.size.trans (keptCount_unitBids _)⟩
  obtain ⟨s'', hret', hrep', -⟩ := processSnapshot_simulates (represents_create n)
    (unitBids (slotCount n)) inKeyOrder
  rw [hret] at hret'
  cases hret'
  have hrules : s'.exchangeRules = {} := by
    obtain ⟨b, hb⟩ := processSnapshot_keeps (RefEngine.create (slotCount n))
      (unitBids (slotCount n))
    rw [← hrep'.rules, hb]
    rfl
  obtain ⟨e, he⟩ := reachable_represents hreach
  have hid : s'.hasOrder 0 = false := hasOrder_zero hrep' (by omega) hrep
  rw [validateOrder_eq_meetsRules he]
  change (!s'.hasOrder 0 && meetsRules s'.exchangeRules 100 1) = true
  rw [hid, hrules]
  decide

end Filling

/-- A pool for which the loop of the constructor is defined fails only when it
is full, in every reachable state, exactly if it has fewer than 2^31 slots. -/
theorem capacityContract_iff (hdefined : LoopDefined n) :
    (∀ s : Orderbook n, Reachable s → CapacityContract s) ↔ n < 2 ^ 31 := by
  constructor
  · intro hall
    by_contra hlarge
    obtain ⟨s, hreach, hvalid, hsize⟩ := exists_full n
    have hchecked : checked s .goodTillCancel 0 .buy 100 1 ≠ none := by
      rw [checked_mayRest (Or.inl rfl), if_pos hvalid]
      simp
    have hraises := ((reachable_failureContract hreach).raises_iff _ _ _ _ _).mpr
      ⟨hchecked, hsize⟩
    -- the free slots are used up below the capacity
    have hfull := (((hall s hreach).raises_iff_full _ _ _ _ _).mp hraises).2
    have hlt := slotCount_lt hdefined
    rw [hsize, Orderbook.poolCapacity] at hfull
    omega
  · intro hsmall s hreach
    have hcontract := reachable_failureContract hreach
    refine { hcontract with raises_iff_full := fun type id side price qty => ?_ }
    rw [hcontract.raises_iff, hcontract.capacity hsmall]

/-- A pool of four slots, and the pool whose constructor frees no slot. -/
theorem capacityContract_iff_hugePool :
    (∀ s : Orderbook 4, Reachable s → CapacityContract s) ∧
      ¬∀ s : Orderbook hugePool, Reachable s → CapacityContract s :=
  ⟨(capacityContract_iff (by decide)).mpr (by decide),
    fun hall => absurd ((capacityContract_iff (by decide)).mp hall) (by decide)⟩

/-- A pool for which the loop of the constructor is defined reproduces every
snapshot within its capacity, in every reachable state, exactly if it has fewer
than 2^31 slots. -/
theorem reproducesSnapshots_iff (hdefined : LoopDefined n) :
    (∀ s : Orderbook n, Reachable s → ReproducesSnapshots s) ↔ n < 2 ^ 31 := by
  constructor
  · intro hall
    by_contra hlarge
    have hlt := slotCount_lt hdefined
    -- one level more than there are free slots
    obtain ⟨s', hret, hrep, -⟩ := hall (create n) Reachable.create (unitBids (slotCount n + 1))
      inKeyOrder (storable_unitBids (by omega)) (apart_unitBids _)
      ((keptCount_unitBids _).trans_le (by rw [Orderbook.poolCapacity]; omega))
      (keptTotal_unitBids (by omega))
    obtain ⟨s'', hret', hrep', -⟩ := processSnapshot_simulates (represents_create n)
      (unitBids (slotCount n + 1)) inKeyOrder
    rw [hret] at hret'
    cases hret'
    have hsize : s'.size = slotCount n + 1 := hrep.size.trans (keptCount_unitBids _)
    have hfree := hrep'.free_add
    rw [← hrep'.size_eq] at hfree
    omega
  · intro hsmall s hreach msg order hstorable hapart hroom hsum
    refine snapshot_reproduced hreach msg order hstorable hapart ?_ hsum
    rwa [slotCount_of_lt hsmall]

/-- A pool of four slots, and the pool whose constructor frees no slot. -/
theorem reproducesSnapshots_iff_hugePool :
    (∀ s : Orderbook 4, Reachable s → ReproducesSnapshots s) ∧
      ¬∀ s : Orderbook hugePool, Reachable s → ReproducesSnapshots s :=
  ⟨(reproducesSnapshots_iff (by decide)).mpr (by decide),
    fun hall => absurd ((reproducesSnapshots_iff (by decide)).mp hall) (by decide)⟩

end OrderbookEngine.HugePools
