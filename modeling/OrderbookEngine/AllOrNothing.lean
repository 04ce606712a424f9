import OrderbookEngine.GreedyWalk
import OrderbookEngine.Snapshots

/-!
# FillOrKill is all or nothing

The fills are planned on one state and executed on a state that changes under
the plan. What comes out is a walk along the opposing orders: it uses the
incoming order up if enough is within reach, and otherwise nothing happens.
-/

namespace OrderbookEngine.AllOrNothing

open SortedMap StepRuns MarketTypes PoolBook FeedCalls ReferenceBook LayoutInvariant SlotSteps
open ReferenceSteps EngineSimulation RunRules BookState Additions Failures SweepMatch FokAgreement
open Snapshots GreedyWalk

variable {n : ℕ} {s s' : Orderbook n} {e e' : RefEngine} {b b' : Book} {id : OrderId} {side : Side}
  {price : Price} {qty : Quantity} {ts : Trades} {k : ℕ}

/-- Prices and data of the live orders of a side in price and time order. -/
def priorityList (s : Orderbook n) (side : Side) : List (Price × Resting) :=
  (inPriority s side).map fun i => ((s.pool i).price, resting (s.pool i))

/-- A FillOrKill order took its quantity from the opposing side, and all else is
as before. -/
structure Executed (s s' : Orderbook n) (side : Side) (id : OrderId) (price : Price)
    (qty : Quantity) (ts : Trades) (filled : ℕ) : Prop where
  /-- The trades use up the opposing orders in priority order. -/
  consumed : Consumed side id price qty.toNat (priorityList s side.opposite) ts
    (priorityList s' side.opposite) filled
  /-- They add up to the quantity of the order. -/
  sum : (ts.map fun t => t.quantity.toNat).sum = qty.toNat
  /-- The own side is as before. -/
  own : ∀ p, listing s' side p = listing s side p
  /-- No level is empty, and count and cached total are those of the orders left. -/
  levels : ∀ side' p, levelData s' side' p =
    if listing s' side' p = [] then none
    else some (((listing s' side' p).length : ℤ),
      wrapSum ((listing s' side' p).map Resting.quantity))
  /-- Live are the orders that are listed. -/
  live : ∀ i, s'.hasOrder i = true ↔ ∃ side', ∃ x ∈ priorityList s' side', x.2.orderId = i
  /-- Every order that was filled frees its slot. -/
  free : s'.poolFreeSlots = s.poolFreeSlots + filled
  /-- Rules, counters and position are as before. -/
  settings : settings s' = settings s

section Lists

/-- The priority list of a side is that of its book. -/
theorem priorityList_eq (h : Represents s e) (side : Side) :
    priorityList s side = e.book.orders side := by
  obtain ⟨⟨L, hw, hbook⟩, -, -⟩ := h
  rw [hbook, orders_view hw, priorityList]

/-- The list of a side depends on its queues. -/
theorem orders_congr (h : ∀ p, b'.queue side p = b.queue side p) :
    b'.orders side = b.orders side := by
  rw [BookOf.orders, BookOf.orders, Buckets.ext_queue h]

/-- An identifier is live if it is listed on some side. -/
theorem hasOrder_iff_listed (h : Represents s e) (i : OrderId) :
    s.hasOrder i = true ↔ ∃ side, ∃ x ∈ priorityList s side, x.2.orderId = i := by
  rw [hasOrder_eq, ← order?_represents h, Option.isSome_iff_ne_none, ne_eq, find?_eq_none_iff]
  simp only [priorityList_eq h, Prod.exists, BookOf.mem_orders]
  grind

/-- Free slots count what a book has lost. -/
theorem poolFreeSlots_add (h : Represents s e) (h' : Represents s' e')
    (hsize : e.book.size = e'.book.size + k) : s'.poolFreeSlots = s.poolFreeSlots + k := by
  have hadd := h.free_add
  have hadd' := h'.free_add
  omega

end Lists

section Sweep

/-- With enough within reach, FillOrKill is the walk along the opposing orders,
which uses it up. -/
theorem fillOrKill_eq_walk (id : OrderId) (havail : ¬b.available side price < qty.toNat) :
    (walk side id price qty (b.orders side.opposite)).left = 0 ∧
      ∃ b', b.fillOrKill side id price qty =
          ((walk side id price qty (b.orders side.opposite)).trades, b') ∧
        Steps (Book.sweepStep side id price) (qty, b)
          (walk side id price qty (b.orders side.opposite)).trades (0, b') ∧
        b'.orders side.opposite = (walk side id price qty (b.orders side.opposite)).rest := by
  obtain ⟨b', hsteps, hhalt, horders⟩ := walk_sweepSteps id price qty
    (rfl : b.orders side.opposite = _)
  have hleft : (walk side id price qty (b.orders side.opposite)).left = 0 := by
    by_contra hne
    -- a walk that halts with quantity left has taken all that is within reach
    have hnone := available_of_sweep_halt hhalt hne
    have htaken := available_sweepSteps hsteps
    have hpos : (walk side id price qty (b.orders side.opposite)).left.toNat ≠ 0 :=
      fun h0 => hne ((eq_zero_iff_toNat _).mpr h0)
    dsimp only at htaken
    omega
  rw [hleft] at hsteps
  exact ⟨hleft, b', fillOrKill_eq havail hsteps, hsteps, horders⟩

end Sweep

/-- From every reachable engine, a FillOrKill order that passes validation and
finds a free slot executes exactly if its quantity is within reach. It takes its
quantity from the best opposing orders, or it leaves the book as it was; in both
cases it does not rest. -/
theorem fillOrKill_allOrNothing (h : Reachable s)
    (hvalid : s.validateOrder id price qty = true) (hfree : s.freeList ≠ []) (hqty : 0 < qty) :
    ∃ ts s', s.addOrder .fillOrKill id side price qty = .ret ts s' ∧
      (ts ≠ [] ↔ qty.toNat ≤ withinReach s side price) ∧
      (ts ≠ [] → ∃ filled, Executed s s' side id price qty ts filled) ∧
      (ts = [] → SameBook s s') ∧ order? s' id = none := by
  obtain ⟨e, hrep⟩ := reachable_represents h
  have hz : qty ≠ 0 := UInt32.pos_iff_ne_zero.mp hqty
  have hc := checked_fillOrKill side hvalid
  have hid := (checked_unused hrep hc).2
  have hreach := withinReach_eq hrep side price
  by_cases havail : e.book.available side price < qty.toNat
  · obtain ⟨s', hret, hsame⟩ := addOrder_killed hrep hc hfree havail
    refine ⟨[], s', hret, iff_of_false (by simp) (by omega), fun hne => absurd rfl hne,
      fun _ => hsame, ?_⟩
    rw [order?_represents hrep] at hid
    obtain ⟨⟨L, hw, -⟩, -, -⟩ := hrep
    rw [hsame.order?_eq hw, hid]
  · obtain ⟨s', hret, hrep', hsettings⟩ := addOrder_placed hrep hc hfree
    rw [show place e.book .fillOrKill id side price qty = e.book.fillOrKill side id price qty from
      if_pos rfl] at hret hrep'
    obtain ⟨hleft, b', hfok, hsteps, horders⟩ := fillOrKill_eq_walk id havail
    obtain ⟨k, hconsumed⟩ := walk_consumed hleft
    rw [hfok] at hret hrep'
    rw [← horders] at hconsumed
    have hown : ∀ p, b'.queue side p = e.book.queue side p := queue_sweepSteps hsteps
    have hsize : e.book.size = b'.size + k := by
      have hlen := hconsumed.length_eq
      have hsame := congrArg List.length (orders_congr hown)
      rw [BookOf.size_eq, BookOf.size_eq]
      cases side <;> simp only [Side.opposite] at hlen <;> omega
    refine ⟨_, s', hret, iff_of_true (canMatch_of_sweep hz hsteps).1 (by omega), fun _ => ⟨k, ?_⟩,
      fun hnil => absurd hnil (canMatch_of_sweep hz hsteps).1, ?_⟩
    · exact {
        consumed := by rw [priorityList_eq hrep, priorityList_eq hrep']; exact hconsumed
        sum := hconsumed.sum_trades
        own := fun p => by rw [listing_eq hrep, listing_eq hrep']; exact hown p
        levels := fun side' p => levelData_eq hrep' side' p
        live := hasOrder_iff_listed hrep'
        free := poolFreeSlots_add hrep hrep' hsize
        settings := hsettings }
    · rw [← order?_represents hrep']
      exact (shrinks_sweepSteps hsteps).find?_eq_none hid

/-- Two asks at one price and one above. -/
def threeAsks : List Call :=
  [.addOrder .goodTillCancel 1 .sell 100 5, .addOrder .goodTillCancel 2 .sell 100 7,
    .addOrder .goodTillCancel 3 .sell 101 4]

/-- A FillOrKill buy against three asks. -/
theorem fillOrKill_allOrNothing_threeAsks :
    ∃ ts s', (after (create 4) threeAsks).addOrder .fillOrKill 9 .buy 101 14 = .ret ts s' ∧
      (ts ≠ [] ↔ (14 : Quantity).toNat ≤ withinReach (after (create 4) threeAsks) .buy 101) ∧
      (ts ≠ [] → ∃ filled, Executed (after (create 4) threeAsks) s' .buy 9 101 14 ts filled) ∧
      (ts = [] → SameBook (after (create 4) threeAsks) s') ∧ order? s' 9 = none :=
  fillOrKill_allOrNothing ⟨_, rfl⟩ (by decide +kernel) (by decide +kernel) (by decide)

end OrderbookEngine.AllOrNothing
