import Mathlib.Algebra.Order.Group.Int
import OrderbookEngine.GreedyAllocation
import OrderbookEngine.PriceTimeSweep

/-!
# Best execution

The trades of an order are an allocation of what it takes over the opposing
orders. Price and time priority makes it the greedy one, so that no choice of
opposing orders would have been cheaper for the aggressor, and the quantity it
takes is all it can get within its limit.
-/

namespace OrderbookEngine.BestExecution

open MarketTypes PoolBook FeedCalls ReferenceBook ReferenceSteps EngineSimulation RunRules BookState
open Additions Failures SweepMatch GreedyWalk AllOrNothing PriceTimeSweep GreedyAllocation

variable {n : ℕ} {s : Orderbook n} {e : RefEngine} {id : OrderId} {side : Side}
  {price limit : Price} {type type' : OrderType} {qty : Quantity} {xs : List (Price × Resting)}

/-- Cost of a unit to the side that takes it; the proceeds of a sale are a
negative cost. -/
def unitCost : Side → Price → ℤ
  | .buy => fun price => price.toInt
  | .sell => fun price => -price.toInt

/-- Exact cost of some trades to a side. -/
def paid (side : Side) (ts : Trades) : ℤ :=
  (ts.map fun t => t.quantity.toNat • unitCost side t.price).sum

/-- Exact quantity of some trades. -/
def volume (ts : Trades) : ℕ := (ts.map fun t => t.quantity.toNat).sum

/-- The orders of a list as offers to the other side. -/
def offers (side : Side) (xs : List (Price × Resting)) : List (ℤ × ℕ) :=
  xs.map fun x => (unitCost side x.1, x.2.quantity.toNat)

/-- Trades with the opposing orders of a state that run from best to worst price
and are as cheap as any other choice of the same quantity. -/
structure Cheapest (s : Orderbook n) (side : Side) (ts : Trades) : Prop where
  /-- The best prices are traded first. -/
  ordered : ts.Pairwise fun t t' => ¬side.opposite.before t'.price t.price
  /-- No other choice of as much costs the aggressor less. -/
  cheapest : ∀ amounts, Fits amounts (offers side (priorityList s side.opposite)) →
    amounts.sum = volume ts →
    paid side ts ≤ cost (offers side (priorityList s side.opposite)) amounts

section Walks

/-- The price of a trade. -/
theorem tradeOf_price (side : Side) (id restingId : OrderId) (price : Price) (qty : Quantity) :
    (Book.tradeOf side id restingId price qty).price = price := by
  cases side <;> rfl

/-- Opposing orders from best to worst have costs that do not fall. -/
theorem offers_sorted (h : xs.Pairwise fun x y => ¬side.opposite.before y.1 x.1) :
    ((offers side xs).map Prod.fst).Pairwise (· ≤ ·) := by
  rw [offers, List.map_map, List.pairwise_map]
  refine h.imp fun hnot => ?_
  cases side with
  | buy => exact Int32.le_iff_toInt_le.mp (Int32.not_lt.mp hnot)
  | sell => exact Int.neg_le_neg (Int32.le_iff_toInt_le.mp (Int32.not_lt.mp hnot))

/-- What a walk trades and what it has left are the incoming quantity. -/
theorem volume_walk (side : Side) (id : OrderId) (limit : Price) (left : Quantity)
    (xs : List (Price × Resting)) :
    volume (walk side id limit left xs).trades + (walk side id limit left xs).left.toNat =
      left.toNat := by
  induction xs generalizing left with
  | nil => exact Nat.zero_add _
  | cons x xs ih =>
    by_cases hstop : left = 0 ∨ ¬side.crosses limit x.1
    · rw [walk_stops hstop]
      exact Nat.zero_add _
    · obtain ⟨hleft, hcross⟩ := not_or.mp hstop
      rw [walk_fills hleft (not_not.mp hcross)]
      have hrest := ih (left - min left x.2.quantity)
      have hsub := toNat_sub_min_left left x.2.quantity
      have hmin := toNat_min left x.2.quantity
      rw [volume, List.map_cons, List.sum_cons, tradeOf_quantity]
      rw [volume] at hrest
      dsimp only
      omega

/-- A walk takes the greedy allocation of what it trades. -/
theorem paid_walk (side : Side) (id : OrderId) (limit : Price) (left : Quantity)
    (xs : List (Price × Resting)) :
    paid side (walk side id limit left xs).trades = cost (offers side xs)
      (greedy (volume (walk side id limit left xs).trades) (offers side xs)) := by
  induction xs generalizing left with
  | nil => rfl
  | cons x xs ih =>
    by_cases hstop : left = 0 ∨ ¬side.crosses limit x.1
    · rw [walk_stops hstop]
      exact (cost_greedy_zero _).symm
    · obtain ⟨hleft, hcross⟩ := not_or.mp hstop
      rw [walk_fills hleft (not_not.mp hcross)]
      have hrest := ih (left - min left x.2.quantity)
      have hvolume := volume_walk side id limit (left - min left x.2.quantity) xs
      have hsub := toNat_sub_min_left left x.2.quantity
      have hmin := toNat_min left x.2.quantity
      generalize walk side id limit (left - min left x.2.quantity) xs = later at hrest hvolume ⊢
      -- an order that is not used up leaves nothing for those behind it
      have hfirst : min ((min left x.2.quantity).toNat + volume later.trades)
          x.2.quantity.toNat = (min left x.2.quantity).toNat := by
        omega
      have htotal : volume (Book.tradeOf side id x.2.orderId x.1 (min left x.2.quantity) ::
          later.trades) = (min left x.2.quantity).toNat + volume later.trades := by
        rw [volume, List.map_cons, List.sum_cons, tradeOf_quantity, volume]
      rw [htotal, offers, List.map_cons, greedy, cost_cons, hfirst, Nat.add_sub_cancel_left, paid,
        List.map_cons, List.sum_cons, tradeOf_quantity, tradeOf_price]
      rw [offers, paid] at hrest
      rw [hrest]

/-- The prices of a walk are those of the orders it takes, in their order. -/
theorem prices_walk (side : Side) (id : OrderId) (limit : Price) (left : Quantity)
    (xs : List (Price × Resting)) :
    ((walk side id limit left xs).trades.map Trade.price).Sublist (xs.map Prod.fst) := by
  induction xs generalizing left with
  | nil => exact List.Sublist.refl []
  | cons x xs ih =>
    by_cases hstop : left = 0 ∨ ¬side.crosses limit x.1
    · rw [walk_stops hstop]
      exact List.nil_sublist _
    · obtain ⟨hleft, hcross⟩ := not_or.mp hstop
      rw [walk_fills hleft (not_not.mp hcross), List.map_cons, List.map_cons, tradeOf_price]
      exact (ih _).cons_cons x.1

/-- The priority list is sorted by price. -/
theorem priorityList_sorted (h : Represents s e) (side : Side) :
    (priorityList s side).Pairwise fun x y => ¬side.before y.1 x.1 := by
  rw [priorityList_eq h]
  exact (e.book.side side).toList_sorted

/-- Ordered trades that cost what the greedy allocation does are the cheapest. -/
theorem cheapest_of_greedy (h : Represents s e) {ts : Trades}
    (hordered : ts.Pairwise fun t t' => ¬side.opposite.before t'.price t.price)
    (hpaid : paid side ts = cost (offers side (priorityList s side.opposite))
      (greedy (volume ts) (offers side (priorityList s side.opposite)))) :
    Cheapest s side ts where
  ordered := hordered
  cheapest := by
    intro amounts hfits hsum
    rw [hpaid, ← hsum]
    exact cost_greedy_le (offers_sorted (priorityList_sorted h side.opposite)) hfits

/-- Trading nothing is cheapest. -/
theorem cheapest_nil (h : Represents s e) (side : Side) : Cheapest s side [] :=
  cheapest_of_greedy h List.Pairwise.nil (cost_greedy_zero _).symm

/-- The trades of a walk are the cheapest. -/
theorem cheapest_walk (h : Represents s e) (id : OrderId) (limit : Price) (qty : Quantity) :
    Cheapest s side (walk side id limit qty (priorityList s side.opposite)).trades := by
  have hprices : ((priorityList s side.opposite).map Prod.fst).Pairwise
      fun p q => ¬side.opposite.before q p :=
    List.pairwise_map.mpr (priorityList_sorted h side.opposite)
  refine cheapest_of_greedy h ?_ (paid_walk side id limit qty _)
  exact List.pairwise_map.mp (hprices.sublist (prices_walk side id limit qty _))

/-- A walk along the opposing orders trades what is within reach, up to the
quantity of the order. -/
theorem volume_walk_eq (h : Represents s e) (id : OrderId) (limit : Price) (qty : Quantity) :
    volume (walk side id limit qty (priorityList s side.opposite)).trades =
      min qty.toNat (withinReach s side limit) := by
  have hvolume := volume_walk side id limit qty (priorityList s side.opposite)
  rw [priorityList_eq h] at hvolume ⊢
  obtain ⟨b', hsteps, hhalt, -⟩ := walk_sweepSteps id limit qty
    (rfl : e.book.orders side.opposite = _)
  have havail := available_sweepSteps hsteps
  rw [withinReach_eq h]
  dsimp only at havail
  by_cases hz : (walk side id limit qty (e.book.orders side.opposite)).left = 0
  · rw [hz] at hvolume havail
    rw [show (0 : Quantity).toNat = 0 from rfl] at hvolume havail
    omega
  · have hnone := available_of_sweep_halt hhalt hz
    omega

/-- Without market remainders a walk trades at the prices of the orders. -/
theorem atLimit_walk (id : OrderId) (limit : Price) (left : Quantity)
    (h : ∀ x ∈ xs, x.1 ≠ side.opposite.marketPrice) :
    (walk side id limit left xs).trades.map (atLimit side limit) =
      (walk side id limit left xs).trades := by
  conv_rhs => rw [← List.map_id (walk side id limit left xs).trades]
  refine List.map_congr_left fun t ht => ?_
  have hprice : t.price ∈ xs.map Prod.fst :=
    (prices_walk side id limit left xs).subset (List.mem_map_of_mem ht)
  obtain ⟨x, hx, heq⟩ := List.mem_map.mp hprice
  rw [atLimit, aggressorPrice, if_neg (heq ▸ h x hx)]
  rfl

end Walks

/-- From every reachable state an accepted FillOrKill order, and any other one
from a state whose best prices are apart and without opposing market remainders,
trades what it can within its limit, from best to worst price, and no choice of
opposing orders for the same quantity would have been cheaper. -/
theorem best_execution (h : Reachable s)
    (haccepted : accepted ⟨s, type, id, side, price, qty⟩ = some (type', limit))
    (hqty : 0 < qty)
    (hbook : type' = .fillOrKill ∨
      BestApart s ∧ ¬RestsAt s side.opposite side.opposite.marketPrice) :
    ∃ ts s', s.addOrder type id side price qty = .ret ts s' ∧
      volume ts = (if type' = .fillOrKill ∧ withinReach s side limit < qty.toNat then 0
        else min qty.toNat (withinReach s side limit)) ∧
      Cheapest s side ts := by
  obtain ⟨e, hrep⟩ := reachable_represents h
  obtain ⟨hfree, hc⟩ := accepted_eq_some_iff.mp haccepted
  by_cases hfok : type' = .fillOrKill
  · subst hfok
    by_cases havail : e.book.available side limit < qty.toNat
    · obtain ⟨s', hret, -⟩ := addOrder_killed hrep hc hfree havail
      rw [← withinReach_eq hrep] at havail
      exact ⟨[], s', hret, (if_pos ⟨rfl, havail⟩).symm, cheapest_nil hrep side⟩
    · obtain ⟨s', hret, -⟩ := addOrder_placed hrep hc hfree
      obtain ⟨-, b', hfill, -⟩ := fillOrKill_eq_walk id havail
      rw [place, if_pos rfl, hfill, ← priorityList_eq hrep] at hret
      rw [← withinReach_eq hrep] at havail
      refine ⟨_, s', hret, ?_, cheapest_walk hrep id limit qty⟩
      rw [if_neg fun hand => havail hand.2]
      exact volume_walk_eq hrep id limit qty
  · obtain ⟨hapart, hremainder⟩ := hbook.resolve_left hfok
    rw [restsAt_represents hrep, not_not] at hremainder
    obtain ⟨b', hplace, -⟩ := place_eq_walk ((bestApart_iff hrep).mp hapart)
      (fun _ => hremainder) (checked_unused hrep hc).2 hfok (UInt32.pos_iff_ne_zero.mp hqty)
    obtain ⟨s', hret, -⟩ := addOrder_placed hrep hc hfree
    have hreal : ∀ x ∈ e.book.orders side.opposite, x.1 ≠ side.opposite.marketPrice := by
      intro x hx hprice
      rw [BookOf.mem_orders, hprice, hremainder] at hx
      cases hx
    rw [hplace, atLimit_walk id limit qty hreal, ← priorityList_eq hrep] at hret
    refine ⟨_, s', hret, ?_, cheapest_walk hrep id limit qty⟩
    rw [if_neg fun hand => hfok hand.1]
    exact volume_walk_eq hrep id limit qty

/-- A buy against two levels of asks. -/
theorem best_execution_threeAsks :
    ∃ ts s', (after (create 4) threeAsks).addOrder .goodForDay 9 .buy 101 14 = .ret ts s' ∧
      volume ts = (if OrderType.goodForDay = .fillOrKill ∧
          withinReach (after (create 4) threeAsks) .buy 101 < (14 : Quantity).toNat then 0
        else min (14 : Quantity).toNat (withinReach (after (create 4) threeAsks) .buy 101)) ∧
      Cheapest (after (create 4) threeAsks) .buy ts := by
  refine best_execution ⟨_, rfl⟩ (by decide +kernel) (by decide) (Or.inr ⟨?_, by decide +kernel⟩)
  intro bid ask lvl lvl' hf
  have hnone : (after (create 4) threeAsks).bids.first?.map Prod.fst = none := by decide +kernel
  rw [hf] at hnone
  cases hnone

end OrderbookEngine.BestExecution
