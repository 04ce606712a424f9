import OrderbookEngine.SweepMatch

/-!
# The two sides of the book are mirror images

Mirroring exchanges the sides and reverses the order of prices. Each operation
of the reference engine on the mirrored book is the mirror image of the same
operation on the other side: best queues, matching steps, sweeping steps, reach,
and with them whole runs.
-/

namespace OrderbookEngine.MirrorBook

open SortedMap MarketTypes PoolBook ReferenceBook ReferenceSteps SweepMatch

/-- Reverse the order of prices; the two market prices are exchanged. -/
def mirrorPrice (p : Price) : Price := -1 - p

/-- Exchange the two legs of a trade. -/
def mirrorTrade (t : Trade) : Trade :=
  ⟨t.askOrderId, t.bidOrderId, mirrorPrice t.price, t.quantity⟩

section Prices

/-- The mirror image of a price as an exact integer; it never wraps. -/
theorem toInt_mirrorPrice (p : Price) : (mirrorPrice p).toInt = -1 - p.toInt := by
  have hlow := p.le_toInt
  have hhigh := p.toInt_lt
  rw [mirrorPrice, Int32.toInt_sub, show (-1 : Int32).toInt = -1 from rfl]
  exact Int.bmod_eq_of_le (by omega) (by omega)

/-- The mirror image of the mirror image is the price. -/
@[simp] theorem mirrorPrice_mirrorPrice (p : Price) : mirrorPrice (mirrorPrice p) = p := by
  rw [← Int32.toInt_inj, toInt_mirrorPrice, toInt_mirrorPrice]
  omega

/-- Different prices have different images. -/
theorem mirrorPrice_injective : Function.Injective mirrorPrice := fun p q h => by
  rw [← mirrorPrice_mirrorPrice p, h, mirrorPrice_mirrorPrice]

/-- The mirror reverses the order of prices. -/
theorem mirrorPrice_lt (p q : Price) : mirrorPrice p < mirrorPrice q ↔ q < p := by
  rw [Int32.lt_iff_toInt_lt, Int32.lt_iff_toInt_lt, toInt_mirrorPrice, toInt_mirrorPrice]
  omega

/-- The mirror reverses the order of prices, also where they may be equal. -/
theorem mirrorPrice_le (p q : Price) : mirrorPrice p ≤ mirrorPrice q ↔ q ≤ p := by
  rw [Int32.le_iff_toInt_le, Int32.le_iff_toInt_le, toInt_mirrorPrice, toInt_mirrorPrice]
  omega

/-- The market price of a side is mirrored to that of the other side. -/
@[simp] theorem mirrorPrice_marketPrice (side : Side) :
    mirrorPrice side.marketPrice = side.opposite.marketPrice := by
  cases side <;> rfl

/-- Only market prices are mirrored to market prices. -/
theorem mirrorPrice_eq_marketPrice (side : Side) (p : Price) :
    mirrorPrice p = side.opposite.marketPrice ↔ p = side.marketPrice := by
  rw [← mirrorPrice_marketPrice, mirrorPrice_injective.eq_iff]

/-- What is better on a side is better on the other side in the mirror. -/
theorem before_mirrorPrice (side : Side) (p q : Price) :
    side.opposite.before (mirrorPrice p) (mirrorPrice q) ↔ side.before p q := by
  cases side <;> simp only [Side.opposite, Side.before, mirrorPrice_lt]

/-- Images keep the priority of prices. -/
theorem before_mirrorPrice_of (side : Side) (p q : Price) (h : side.before p q) :
    side.opposite.before (mirrorPrice p) (mirrorPrice q) := (before_mirrorPrice side p q).mpr h

/-- A limit reaches a price exactly if its image reaches that of the price. -/
theorem crosses_mirrorPrice (side : Side) (p q : Price) :
    side.opposite.crosses (mirrorPrice p) (mirrorPrice q) ↔ side.crosses p q := by
  cases side <;> simp only [Side.opposite, Side.crosses, mirrorPrice_le]

/-- In the mirror buyer and seller change places. -/
theorem mirrorTrade_tradeOf (side : Side) (id id' : OrderId) (price : Price) (qty : Quantity) :
    mirrorTrade (Book.tradeOf side id id' price qty) =
      Book.tradeOf side.opposite id id' (mirrorPrice price) qty := by
  cases side <;> rfl

/-- The aggressor's leg has the mirrored price. -/
theorem aggressorPrice_mirrorPrice (side : Side) (own opposing : Price) :
    aggressorPrice side.opposite (mirrorPrice own) (mirrorPrice opposing) =
      mirrorPrice (aggressorPrice side own opposing) := by
  simp only [aggressorPrice, mirrorPrice_eq_marketPrice]
  split_ifs <;> rfl

end Prices

section Books

variable {α : Type*} {b b' : BookOf α} {side : Side} {price : Price}

/-- Exchange the sides of a book and reverse its prices. -/
def mirrorBook (b : BookOf α) : BookOf α where
  bids := b.asks.mapKeys mirrorPrice (before_mirrorPrice_of .sell)
  asks := b.bids.mapKeys mirrorPrice (before_mirrorPrice_of .buy)

/-- A queue is found on the other side at the mirrored price. -/
@[simp] theorem queue_mirrorBook (b : BookOf α) (side : Side) (price : Price) :
    (mirrorBook b).queue side price = b.queue side.opposite (mirrorPrice price) := by
  conv_lhs => rw [← mirrorPrice_mirrorPrice price]
  cases side with
  | buy => exact Buckets.queue_mapKeys _ mirrorPrice_injective b.asks _
  | sell => exact Buckets.queue_mapKeys _ mirrorPrice_injective b.bids _

/-- The mirror image of the mirror image is the book. -/
theorem mirrorBook_mirrorBook (b : BookOf α) : mirrorBook (mirrorBook b) = b := by
  apply BookOf.ext_queue
  intro side price
  rw [queue_mirrorBook, queue_mirrorBook, Side.opposite_opposite, mirrorPrice_mirrorPrice]

/-- The orders of a side are those of the other side in the same priority. -/
theorem orders_mirrorBook (b : BookOf α) (side : Side) : (mirrorBook b).orders side.opposite =
    (b.orders side).map fun e => (mirrorPrice e.1, e.2) := by
  cases side with
  | buy => exact Buckets.toList_mapKeys _ b.bids
  | sell => exact Buckets.toList_mapKeys _ b.asks

/-- The mirror keeps the number of orders. -/
theorem size_mirrorBook (b : BookOf α) : (mirrorBook b).size = b.size := by
  have hbuy := congrArg List.length (orders_mirrorBook b .buy)
  have hsell := congrArg List.length (orders_mirrorBook b .sell)
  rw [List.length_map] at hbuy hsell
  rw [BookOf.size_eq, BookOf.size_eq, ← hbuy, ← hsell]
  simp only [Side.opposite]
  omega

/-- A queue may be replaced before or after mirroring. -/
theorem mirrorBook_setQueue (b : BookOf α) (side : Side) (price : Price) (os : List α) :
    mirrorBook (b.setQueue side price os) =
      (mirrorBook b).setQueue side.opposite (mirrorPrice price) os := by
  apply BookOf.ext_queue
  intro side' price'
  rw [queue_mirrorBook, BookOf.queue_setQueue, BookOf.queue_setQueue, queue_mirrorBook]
  have hside : side'.opposite = side ↔ side' = side.opposite := by
    cases side <;> cases side' <;> simp [Side.opposite]
  have hprice : mirrorPrice price' = price ↔ price' = mirrorPrice price := by
    rw [← mirrorPrice_injective.eq_iff, mirrorPrice_mirrorPrice]
  simp only [hside, hprice]

/-- Orders may be removed before or after mirroring. -/
theorem mirrorBook_filter (p : α → Bool) (b : BookOf α) :
    mirrorBook (b.filter p) = (mirrorBook b).filter p := by
  apply BookOf.ext_queue
  intro side price
  rw [queue_mirrorBook, BookOf.queue_filter, BookOf.queue_filter, queue_mirrorBook]

/-- The best order of a side is the best one of the other side in the mirror. -/
theorem best?_mirrorBook (b : BookOf α) (side : Side) : (mirrorBook b).best? side.opposite =
    (b.best? side).map fun r => (mirrorPrice r.1, r.2) := by
  cases h : b.best? side with
  | none =>
    rw [BookOf.best?_eq_none_iff] at h
    rw [Option.map_none, BookOf.best?_eq_none_iff]
    intro price
    rw [queue_mirrorBook, Side.opposite_opposite, h]
  | some r =>
    obtain ⟨price, o, os⟩ := r
    obtain ⟨hq, hbest⟩ := (BookOf.best?_eq_some_iff _ _ _ _ _).mp h
    rw [Option.map_some, BookOf.best?_eq_some_iff]
    refine ⟨by rw [queue_mirrorBook, Side.opposite_opposite, mirrorPrice_mirrorPrice, hq], ?_⟩
    intro p hp
    rw [queue_mirrorBook, Side.opposite_opposite] at hp
    rcases hbest _ hp with heq | hlt
    · exact Or.inl (by rw [← heq, mirrorPrice_mirrorPrice])
    · right
      rw [← mirrorPrice_mirrorPrice p, before_mirrorPrice]
      exact hlt

end Books

section Steps

variable {b b' : Book} {side : Side} {price limit : Price} {id : OrderId}
  {left left' qty : Quantity} {t : Trade} {ts : Trades}

/-- An order may be appended before or after mirroring. -/
theorem mirrorBook_append (b : Book) (side : Side) (price : Price) (o : Resting) :
    mirrorBook (b.append side price o) =
      Book.append (mirrorBook b) side.opposite (mirrorPrice price) o := by
  rw [Book.append, mirrorBook_setQueue, Book.append, queue_mirrorBook, Side.opposite_opposite,
    mirrorPrice_mirrorPrice]

/-- An order may be cancelled before or after mirroring. -/
theorem mirrorBook_cancel (b : Book) (id : OrderId) :
    mirrorBook (b.cancel id) = Book.cancel (mirrorBook b) id := mirrorBook_filter _ b

/-- A matching step on the mirrored book is the mirrored step. -/
theorem matchStep_mirrorBook (h : Book.matchStep side b = some (t, b')) :
    Book.matchStep side.opposite (mirrorBook b) = some (mirrorTrade t, mirrorBook b') := by
  obtain ⟨own, x, xs, opposing, y, ys, hown, hopp, hcross, hmarket, rfl, rfl⟩ :=
    matchStep_own_iff.mp h
  rw [matchStep_own_iff]
  refine ⟨mirrorPrice own, x, xs, mirrorPrice opposing, y, ys, ?_, ?_, ?_, ?_, ?_, ?_⟩
  · rw [best?_mirrorBook, hown, Option.map_some]
  · rw [best?_mirrorBook, hopp, Option.map_some]
  · exact (crosses_mirrorPrice side own opposing).mpr hcross
  · rintro ⟨hx, hy⟩
    exact hmarket ⟨(mirrorPrice_eq_marketPrice side own).mp hx,
      (mirrorPrice_eq_marketPrice side.opposite opposing).mp hy⟩
  · rw [mirrorTrade_tradeOf, aggressorPrice_mirrorPrice]
  · rw [mirrorBook_setQueue, mirrorBook_setQueue]

/-- In the mirror matching ends where it ends. -/
theorem matchStep_mirrorBook_none (h : Book.matchStep side b = none) :
    Book.matchStep side.opposite (mirrorBook b) = none := by
  cases hstep : Book.matchStep side.opposite (mirrorBook b) with
  | none => rfl
  | some r =>
    have hback := matchStep_mirrorBook (show _ = some (r.1, r.2) from hstep)
    rw [Side.opposite_opposite, mirrorBook_mirrorBook, h] at hback
    cases hback

/-- Matching the mirrored book is the mirrored run. -/
theorem matchBook_mirrorBook (side : Side) (b : Book) :
    Book.matchBook side.opposite (mirrorBook b) =
      ((b.matchBook side).1.map mirrorTrade, mirrorBook (b.matchBook side).2) :=
  matchBook_eq
    ((matchBook_steps side b).map (I := fun _ => True)
      (fun _ _ _ _ hstep => ⟨trivial, matchStep_mirrorBook hstep⟩) trivial)
    (matchStep_mirrorBook_none (matchBook_halts side b))

/-- A sweeping step on the mirrored book is the mirrored step. -/
theorem sweepStep_mirrorBook
    (h : Book.sweepStep side id limit (left, b) = some (t, (left', b'))) :
    Book.sweepStep side.opposite id (mirrorPrice limit) (left, mirrorBook b) =
      some (mirrorTrade t, (left', mirrorBook b')) := by
  obtain ⟨price, o, rest, hz, hbest, hcross, rfl, rfl, rfl⟩ := sweepStep_eq_some_iff.mp h
  rw [sweepStep_eq_some_iff]
  refine ⟨mirrorPrice price, o, rest, hz, ?_, (crosses_mirrorPrice side limit price).mpr hcross,
    mirrorTrade_tradeOf _ _ _ _ _, rfl, mirrorBook_setQueue _ _ _ _⟩
  rw [best?_mirrorBook, hbest, Option.map_some]

/-- What is available within a limit is available within its image. -/
theorem available_mirrorBook (b : Book) (side : Side) (limit : Price) :
    Book.available (mirrorBook b) side.opposite (mirrorPrice limit) = b.available side limit := by
  have hreach : (fun e : Price × Resting =>
      decide (side.opposite.crosses (mirrorPrice limit) e.1)) ∘
        (fun e : Price × Resting => (mirrorPrice e.1, e.2)) =
          fun e => decide (side.crosses limit e.1) := by
    funext e
    simp only [Function.comp_apply, crosses_mirrorPrice]
  rw [Book.available, Book.available, orders_mirrorBook, List.filter_map, hreach, List.map_map]
  rfl

/-- Something can match exactly if something can in the mirror. -/
theorem canMatch_mirrorBook (b : Book) (side : Side) (limit : Price) :
    Book.canMatch (mirrorBook b) side.opposite (mirrorPrice limit) = b.canMatch side limit := by
  rw [Book.canMatch, Book.canMatch, best?_mirrorBook]
  cases b.best? side.opposite with
  | none => rfl
  | some r => simp only [Option.map_some, crosses_mirrorPrice]

/-- FillOrKill on the mirrored book is the mirrored fill. -/
theorem fillOrKill_mirrorBook (b : Book) (side : Side) (id : OrderId) (limit : Price)
    (qty : Quantity) :
    Book.fillOrKill (mirrorBook b) side.opposite id (mirrorPrice limit) qty =
      ((b.fillOrKill side id limit qty).1.map mirrorTrade,
        mirrorBook (b.fillOrKill side id limit qty).2) := by
  have havail := available_mirrorBook b side limit
  by_cases hlt : b.available side limit < qty.toNat
  · rw [Book.fillOrKill, Book.fillOrKill, havail, if_pos hlt, if_pos hlt]
    rfl
  · refine fillOrKill_eq (by rw [havail]; exact hlt) ?_
    exact (fillOrKill_steps id hlt).map (I := fun _ => True)
      (f := fun c : Quantity × Book => (c.1, mirrorBook c.2))
      (fun _ _ _ _ hstep => ⟨trivial, sweepStep_mirrorBook hstep⟩) trivial

end Steps

section Engine

/-- The reference engine with its book mirrored. -/
def mirrorRef (e : RefEngine) : RefEngine := { e with book := mirrorBook e.book }

/-- Change value and state of an outcome. -/
def mapOutcome {σ τ α β : Type*} (f : α → β) (g : σ → τ) : Outcome σ α → Outcome τ β
  | .ret a s => .ret (f a) (g s)
  | .raise x s => .raise x (g s)
  | .diverge => .diverge

/-- Adding the mirrored order to the mirrored book is the mirror image of adding
the order. -/
theorem addValidated_mirrorRef (e : RefEngine) (type : OrderType) (id : OrderId) (side : Side)
    (price : Price) (qty : Quantity) :
    (mirrorRef e).addValidated type id side.opposite (mirrorPrice price) qty =
      mapOutcome (List.map mirrorTrade) mirrorRef (e.addValidated type id side price qty) := by
  rw [RefEngine.addValidated, RefEngine.addValidated, mirrorRef, canMatch_mirrorBook,
    size_mirrorBook, fillOrKill_mirrorBook, ← mirrorBook_append, matchBook_mirrorBook]
  dsimp only
  rw [← mirrorBook_cancel]
  split_ifs <;> rfl

end Engine

end OrderbookEngine.MirrorBook
