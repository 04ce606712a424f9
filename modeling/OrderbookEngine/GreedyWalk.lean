import OrderbookEngine.SweepMatch

/-!
# Walking the opposing orders

The greedy fill of an incoming order along a list of resting orders, by plain
recursion on the list. Sweeping a book is walking its opposing orders in price
and time order. A walk that uses the incoming order up fills a first part of the
list completely and at most the next order in part.
-/

namespace OrderbookEngine.GreedyWalk

open StepRuns MarketTypes ReferenceBook ReferenceSteps

/-- Trades of an incoming order, what is left of it, and what is left of the
resting orders. -/
structure Walked where
  /-- Trades of the walk. -/
  trades : Trades
  /-- What is left of the order. -/
  left : Quantity
  /-- What is left of the opposing orders. -/
  rest : List (Price × Resting)
  deriving DecidableEq, Repr

/-- Fill an incoming order from resting orders, first to last, while it has
quantity left and the next price is within its limit. -/
def walk (side : Side) (id : OrderId) (limit : Price) :
    Quantity → List (Price × Resting) → Walked
  | left, [] => ⟨[], left, []⟩
  | left, x :: xs =>
    if left = 0 ∨ ¬side.crosses limit x.1 then ⟨[], left, x :: xs⟩
    else
      let qty := min left x.2.quantity
      let later := walk side id limit (left - qty) xs
      ⟨Book.tradeOf side id x.2.orderId x.1 qty :: later.trades, later.left,
        (Book.fillHead qty x.2 []).map (fun o => (x.1, o)) ++ later.rest⟩

/-- The trade that fills a resting order completely. -/
def fullTrade (side : Side) (id : OrderId) (x : Price × Resting) : Trade :=
  Book.tradeOf side id x.2.orderId x.1 x.2.quantity

/-- Some quantity is taken from the front of a list: the orders before and after,
the trades, and how many orders are filled completely. -/
inductive Consumed (side : Side) (id : OrderId) (limit : Price) :
    ℕ → List (Price × Resting) → Trades → List (Price × Resting) → ℕ → Prop where
  | whole (gone rest : List (Price × Resting)) (hcross : ∀ x ∈ gone, side.crosses limit x.1) :
    Consumed side id limit (gone.map fun x => x.2.quantity.toNat).sum (gone ++ rest)
      (gone.map (fullTrade side id)) rest gone.length
  /-- The order after the filled ones keeps its place with less. -/
  | partly (gone rest : List (Price × Resting)) (price : Price) (o : Resting) (fill : Quantity)
    (hcross : ∀ x ∈ gone, side.crosses limit x.1) (hlast : side.crosses limit price)
    (hpos : 0 < fill) (hlt : fill < o.quantity) :
    Consumed side id limit ((gone.map fun x => x.2.quantity.toNat).sum + fill.toNat)
      (gone ++ (price, o) :: rest)
      (gone.map (fullTrade side id) ++ [Book.tradeOf side id o.orderId price fill])
      ((price, { o with quantity := o.quantity - fill }) :: rest) gone.length

variable {b : Book} {side : Side} {id : OrderId} {limit : Price} {left : Quantity} {qty k : ℕ}
  {x : Price × Resting} {xs rest : List (Price × Resting)} {ts : Trades}

section Walk

/-- The walk stops when nothing is left or nothing is reached. -/
theorem walk_stops (h : left = 0 ∨ ¬side.crosses limit x.1) :
    walk side id limit left (x :: xs) = ⟨[], left, x :: xs⟩ := by
  rw [walk, if_pos h]

/-- Nothing is bought for nothing. -/
theorem walk_zero (xs : List (Price × Resting)) :
    walk side id limit 0 xs = ⟨[], 0, xs⟩ := by
  cases xs with
  | nil => rfl
  | cons x xs => exact walk_stops (Or.inl rfl)

/-- The walk fills the first order and goes on. -/
theorem walk_fills (hleft : left ≠ 0) (hcross : side.crosses limit x.1) :
    walk side id limit left (x :: xs) =
      ⟨Book.tradeOf side id x.2.orderId x.1 (min left x.2.quantity) ::
          (walk side id limit (left - min left x.2.quantity) xs).trades,
        (walk side id limit (left - min left x.2.quantity) xs).left,
        (Book.fillHead (min left x.2.quantity) x.2 []).map (fun o => (x.1, o)) ++
          (walk side id limit (left - min left x.2.quantity) xs).rest⟩ := by
  rw [walk, if_neg (by simp [hleft, hcross])]

end Walk

section Consumption

/-- One more order in front is used up. -/
theorem Consumed.cons (h : Consumed side id limit qty xs ts rest k)
    (hx : side.crosses limit x.1) :
    Consumed side id limit (x.2.quantity.toNat + qty) (x :: xs) (fullTrade side id x :: ts) rest
      (k + 1) := by
  cases h with
  | whole gone rest hcross =>
    exact Consumed.whole (x :: gone) rest (List.forall_mem_cons.mpr ⟨hx, hcross⟩)
  | partly gone rest price o fill hcross hlast hpos hlt =>
    have h := @Consumed.partly side id limit (x :: gone) rest price o fill
      (List.forall_mem_cons.mpr ⟨hx, hcross⟩) hlast hpos hlt
    rwa [List.map_cons, List.sum_cons, Nat.add_assoc] at h

/-- Orders that are used up and those that remain. -/
theorem Consumed.length_eq (h : Consumed side id limit qty xs ts rest k) :
    xs.length = rest.length + k := by
  cases h with
  | whole gone rest hcross =>
    rw [List.length_append]
    omega
  | partly gone rest price o fill hcross hlast hpos hlt =>
    rw [List.length_append, List.length_cons, List.length_cons]
    omega

/-- The quantity of a trade. -/
theorem tradeOf_quantity (side : Side) (id restingId : OrderId) (price : Price)
    (qty : Quantity) : (Book.tradeOf side id restingId price qty).quantity = qty := by
  cases side <;> rfl

/-- The trades sum to the quantity that is taken. -/
theorem Consumed.sum_trades (h : Consumed side id limit qty xs ts rest k) :
    (ts.map fun t => t.quantity.toNat).sum = qty := by
  have hfull : ∀ gone : List (Price × Resting),
      ((gone.map (fullTrade side id)).map fun t => t.quantity.toNat) =
        gone.map fun x => x.2.quantity.toNat := fun gone => by
    rw [List.map_map]
    exact List.map_congr_left fun x _ => by rw [Function.comp_apply, fullTrade, tradeOf_quantity]
  cases h with
  | whole gone rest hcross => rw [hfull]
  | partly gone rest price o fill hcross hlast hpos hlt =>
    rw [List.map_append, List.sum_append, hfull, List.map_singleton, List.sum_singleton,
      tradeOf_quantity]

/-- A walk that uses the incoming order up consumes its quantity. -/
theorem walk_consumed (h : (walk side id limit left xs).left = 0) :
    ∃ k, Consumed side id limit left.toNat xs (walk side id limit left xs).trades
      (walk side id limit left xs).rest k := by
  induction xs generalizing left with
  | nil =>
    obtain rfl : left = 0 := h
    exact ⟨0, Consumed.whole [] [] (by simp)⟩
  | cons x xs ih =>
    by_cases hstop : left = 0 ∨ ¬side.crosses limit x.1
    · rw [walk_stops hstop] at h ⊢
      obtain rfl : left = 0 := h
      exact ⟨0, Consumed.whole [] (x :: xs) (by simp)⟩
    · obtain ⟨hleft, hcross⟩ := not_or.mp hstop
      rw [not_not] at hcross
      rw [walk_fills hleft hcross] at h ⊢
      by_cases hfilled : x.2.quantity - min left x.2.quantity = 0
      · -- the first order is filled, and the rest of the quantity is taken from the others
        obtain ⟨k, hk⟩ := ih h
        have hmin := min_eq_right_of_filled hfilled
        have hqty : x.2.quantity.toNat + (left - min left x.2.quantity).toNat = left.toNat := by
          have hsub := toNat_sub_min_left left x.2.quantity
          have hle := toNat_min left x.2.quantity
          rw [hmin] at hle
          omega
        have hcons := hk.cons hcross
        rw [hqty] at hcons
        rw [fillHead_filled _ _ _ hfilled, List.map_nil, List.nil_append,
          show Book.tradeOf side id x.2.orderId x.1 (min left x.2.quantity) =
            fullTrade side id x by rw [hmin]; rfl]
        exact ⟨k + 1, hcons⟩
      · -- the first order is left with less, and the quantity is used up
        have hmin := min_eq_left_of_partly hfilled
        have hlt : left < x.2.quantity := by
          have hsub := toNat_sub_min_right left x.2.quantity
          rw [eq_zero_iff_toNat] at hfilled
          exact UInt32.lt_iff_toNat_lt.mpr (by omega)
        have hpart := @Consumed.partly side id limit [] xs x.1 x.2 left (by simp) hcross
          (UInt32.pos_iff_ne_zero.mpr hleft) hlt
        rw [List.map_nil, List.sum_nil, Nat.zero_add] at hpart
        rw [fillHead_partly _ _ _ hfilled, hmin, UInt32.sub_self, walk_zero]
        exact ⟨0, hpart⟩

end Consumption

section Sweep

/-- The first of the orders of a side is the best one. -/
theorem best?_of_orders (h : b.orders side = x :: xs) :
    ∃ os, b.best? side = some (x.1, x.2, os) ∧ (b.setQueue side x.1 os).orders side = xs := by
  cases hb : b.best? side with
  | none =>
    have hmem : (x.1, x.2) ∈ b.orders side := by rw [h]; exact List.mem_cons_self
    rw [BookOf.mem_orders, (BookOf.best?_eq_none_iff _ _).mp hb] at hmem
    cases hmem
  | some r =>
    obtain ⟨price, o, os⟩ := r
    have horders := BookOf.orders_of_best? hb
    rw [h] at horders
    obtain ⟨rfl, rfl⟩ := List.cons_eq_cons.mp horders
    exact ⟨os, rfl, rfl⟩

/-- Sweeping a book is walking its opposing orders. -/
theorem walk_sweepSteps (id : OrderId) (limit : Price) (left : Quantity)
    (h : b.orders side.opposite = xs) :
    ∃ b', Steps (Book.sweepStep side id limit) (left, b) (walk side id limit left xs).trades
        ((walk side id limit left xs).left, b') ∧
      Book.sweepStep side id limit ((walk side id limit left xs).left, b') = none ∧
      b'.orders side.opposite = (walk side id limit left xs).rest := by
  induction xs generalizing left b with
  | nil =>
    refine ⟨b, Steps.refl _, ?_, h⟩
    cases hstep : Book.sweepStep side id limit (left, b) with
    | none => exact hstep
    | some r =>
      obtain ⟨p, o, os, -, hbest, -⟩ := sweepStep_eq_some_iff.mp
        (show _ = some (r.1, (r.2.1, r.2.2)) from hstep)
      rw [BookOf.orders_of_best? hbest] at h
      cases h
  | cons x xs ih =>
    obtain ⟨os, hbest, hrest⟩ := best?_of_orders h
    by_cases hstop : left = 0 ∨ ¬side.crosses limit x.1
    · rw [walk_stops hstop]
      refine ⟨b, Steps.refl _, ?_, h⟩
      rcases hstop with rfl | hcross
      · rw [Book.sweepStep, if_pos rfl]
      · rw [Book.sweepStep, hbest]
        simp only [if_neg hcross, ite_self]
    · obtain ⟨hleft, hcross⟩ := not_or.mp hstop
      rw [not_not] at hcross
      have hstep : Book.sweepStep side id limit (left, b) =
          some (Book.tradeOf side id x.2.orderId x.1 (min left x.2.quantity),
            (left - min left x.2.quantity, b.setQueue side.opposite x.1
              (Book.fillHead (min left x.2.quantity) x.2 os))) :=
        sweepStep_eq_some_iff.mpr ⟨x.1, x.2, os, hleft, hbest, hcross, rfl, rfl, rfl⟩
      have horders := orders_fillHead hbest (min left x.2.quantity)
      rw [hrest] at horders
      rw [walk_fills hleft hcross]
      by_cases hfilled : x.2.quantity - min left x.2.quantity = 0
      · rw [fillHead_filled _ _ [] hfilled, List.map_nil, List.nil_append] at horders
        obtain ⟨b', hsteps, hhalt, hb'⟩ := ih (left - min left x.2.quantity) horders
        rw [fillHead_filled _ _ [] hfilled, List.map_nil, List.nil_append]
        exact ⟨b', Steps.head hstep hsteps, hhalt, hb'⟩
      · have hzero : left - min left x.2.quantity = 0 :=
          (sub_min_left_or_right left x.2.quantity).resolve_right hfilled
        rw [hzero] at hstep ⊢
        rw [walk_zero]
        exact ⟨_, Steps.head hstep (Steps.refl _), by rw [Book.sweepStep, if_pos rfl], horders⟩

end Sweep

end OrderbookEngine.GreedyWalk
