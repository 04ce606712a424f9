import OrderbookEngine.MirrorBook

/-!
# Relabelling the orders of a book

Matching compares prices and quantities and hands identifiers and types through.
A change of orders that keeps identifiers apart and leaves quantities as they
are therefore commutes with every operation of the reference book.
-/

namespace OrderbookEngine.RelabelledBook

open MarketTypes ReferenceBook ReferenceSteps

/-- A change of orders that keeps identifiers apart and does not read or change
quantities. -/
structure Relabelling where
  /-- What becomes of a resting order. -/
  order : Resting → Resting
  /-- What becomes of an identifier. -/
  id : OrderId → OrderId
  /-- An order gets its new identifier. -/
  orderId : ∀ o, (order o).orderId = id o.orderId
  /-- Quantities are carried along. -/
  requantified : ∀ (o : Resting) (qty : Quantity),
    order ⟨o.orderId, o.orderType, qty⟩ = ⟨(order o).orderId, (order o).orderType, qty⟩
  /-- Different identifiers stay different. -/
  injective : id.Injective

namespace Relabelling

variable (φ : Relabelling) {b b' : Book} {side : Side} {limit : Price} {id : OrderId}
  {left left' : Quantity} {t : Trade}

/-- The trade between the relabelled orders. -/
def trade (t : Trade) : Trade := ⟨φ.id t.bidOrderId, φ.id t.askOrderId, t.price, t.quantity⟩

/-- The book of the relabelled orders. -/
def book (b : Book) : Book := b.mapVal φ.order

section Reads

/-- Quantities stay. -/
theorem quantity (o : Resting) : (φ.order o).quantity = o.quantity := by
  have hsame : φ.order o = ⟨(φ.order o).orderId, (φ.order o).orderType, o.quantity⟩ :=
    φ.requantified o o.quantity
  rw [hsame]

/-- The number of orders stays. -/
theorem size_book (b : Book) : (φ.book b).size = b.size := b.size_mapVal φ.order

/-- Priorities stay. -/
theorem best?_book (b : Book) (side : Side) : (φ.book b).best? side =
    (b.best? side).map fun r => (r.1, φ.order r.2.1, r.2.2.map φ.order) :=
  b.best?_mapVal φ.order side

/-- A relabelled order is found under its new identifier. -/
theorem find?_book (b : Book) (id : OrderId) : (φ.book b).find? (φ.id id) =
    (b.find? id).map fun r => (r.1, r.2.1, φ.order r.2.2) := by
  have hsame : (fun e : Price × Resting => decide (e.2.orderId = φ.id id)) ∘
      (fun e : Price × Resting => (e.1, φ.order e.2)) = fun e => decide (e.2.orderId = id) := by
    funext e
    simp only [Function.comp_apply, φ.orderId, φ.injective.eq_iff]
  rw [Book.find?, Book.find?, book, BookOf.orders_mapVal, BookOf.orders_mapVal, List.find?_map,
    List.find?_map, hsame]
  cases (b.orders .buy).find? fun e => decide (e.2.orderId = id) with
  | some e => rfl
  | none => cases (b.orders .sell).find? fun e => decide (e.2.orderId = id) <;> rfl

/-- The order is live under its new identifier. -/
theorem hasOrder_book (b : Book) (id : OrderId) :
    (φ.book b).hasOrder (φ.id id) = b.hasOrder id := by
  rw [Book.hasOrder, find?_book, Option.isSome_map, Book.hasOrder]

/-- What can match stays. -/
theorem canMatch_book (b : Book) (side : Side) (limit : Price) :
    (φ.book b).canMatch side limit = b.canMatch side limit := by
  rw [Book.canMatch, Book.canMatch, best?_book]
  cases b.best? side.opposite <;> rfl

/-- What is available within a limit stays. -/
theorem available_book (b : Book) (side : Side) (limit : Price) :
    (φ.book b).available side limit = b.available side limit := by
  have hqty : (fun e : Price × Resting => e.2.quantity.toNat) ∘
      (fun e : Price × Resting => (e.1, φ.order e.2)) = fun e => e.2.quantity.toNat := by
    funext e
    rw [Function.comp_apply, φ.quantity]
  rw [Book.available, Book.available, book, BookOf.orders_mapVal, List.filter_map, List.map_map,
    hqty]
  rfl

/-- Depth depends on quantities only. -/
theorem depth_book (b : Book) (side : Side) : (φ.book b).depth side = b.depth side := by
  have hentries : ((φ.book b).side side).map.entries =
      (b.side side).map.entries.map fun e => (e.1, e.2.map φ.order) := by
    rw [book, BookOf.side_mapVal]
    rfl
  have hqty : ∀ os : List Resting,
      (os.map φ.order).map Resting.quantity = os.map Resting.quantity := fun os => by
    rw [List.map_map]
    exact List.map_congr_left fun o _ => φ.quantity o
  rw [Book.depth, Book.depth, hentries, List.filterMap_map]
  refine List.filterMap_congr fun e _ => ?_
  simp only [Function.comp_apply, hqty]

end Reads

section Changes

/-- Nothing changes in the empty book. -/
@[simp] theorem book_empty : φ.book BookOf.empty = BookOf.empty := by
  apply BookOf.ext_queue
  intro side price
  rw [book, BookOf.queue_mapVal, BookOf.queue_empty]
  rfl

/-- A queue may be replaced before or after the change. -/
theorem book_setQueue (b : Book) (side : Side) (price : Price) (os : List Resting) :
    φ.book (b.setQueue side price os) = (φ.book b).setQueue side price (os.map φ.order) :=
  BookOf.mapVal_setQueue φ.order b side price os

/-- An order may be appended before or after the change. -/
theorem book_append (b : Book) (side : Side) (price : Price) (o : Resting) :
    φ.book (b.append side price o) = Book.append (φ.book b) side price (φ.order o) := by
  rw [Book.append, book_setQueue, Book.append, book, BookOf.queue_mapVal, List.map_append,
    List.map_singleton]

/-- A test that gives the same before and after keeps the same orders. -/
theorem book_filter (b : Book) {p p' : Resting → Bool} (h : ∀ o, p' (φ.order o) = p o) :
    φ.book (b.filter p) = (φ.book b).filter p' := by
  apply BookOf.ext_queue
  intro side price
  have hcomp : p' ∘ φ.order = p := funext h
  rw [book, book, BookOf.queue_mapVal, BookOf.queue_filter, BookOf.queue_filter,
    BookOf.queue_mapVal, List.filter_map, hcomp]

/-- An order is cancelled under its new identifier. -/
theorem book_cancel (b : Book) (id : OrderId) :
    φ.book (b.cancel id) = (φ.book b).cancel (φ.id id) :=
  φ.book_filter b fun o => by simp only [φ.orderId, ne_eq, φ.injective.eq_iff]

/-- A quantity is changed under the new identifier. -/
theorem book_requantify (b : Book) (id : OrderId) (qty : Quantity) :
    φ.book (b.requantify id qty) = (φ.book b).requantify (φ.id id) qty := by
  apply BookOf.ext_queue
  intro side price
  rw [book, book, BookOf.queue_mapVal, Book.requantify, Book.requantify, BookOf.queue_mapVal,
    BookOf.queue_mapVal, BookOf.queue_mapVal, List.map_map, List.map_map]
  refine List.map_congr_left fun o _ => ?_
  rw [Function.comp_apply, Function.comp_apply]
  by_cases hid : o.orderId = id
  · rw [if_pos hid, if_pos (by rw [φ.orderId, hid])]
    exact φ.requantified o qty
  · rw [if_neg hid, if_neg (by rwa [φ.orderId, φ.injective.eq_iff])]

/-- The first order may be filled before or after the change. -/
theorem fillHead_map (qty : Quantity) (o : Resting) (rest : List Resting) :
    (Book.fillHead qty o rest).map φ.order =
      Book.fillHead qty (φ.order o) (rest.map φ.order) := by
  rw [Book.fillHead, Book.fillHead, φ.quantity]
  split_ifs
  · rfl
  · rw [List.map_cons, φ.requantified]

end Changes

section Matching

/-- A matching step on the relabelled book is the relabelled step. -/
theorem matchStep_book (h : Book.matchStep side b = some (t, b')) :
    Book.matchStep side (φ.book b) = some (φ.trade t, φ.book b') := by
  obtain ⟨bidPrice, bid, bids, askPrice, ask, asks, hb, ha, hcross, hmarket, rfl, rfl⟩ :=
    matchStep_eq_some_iff.mp h
  rw [matchStep_eq_some_iff]
  refine ⟨bidPrice, φ.order bid, bids.map φ.order, askPrice, φ.order ask, asks.map φ.order, ?_, ?_,
    hcross, hmarket, ?_, ?_⟩
  · rw [best?_book, hb, Option.map_some]
  · rw [best?_book, ha, Option.map_some]
  · rw [trade, φ.orderId, φ.orderId, φ.quantity, φ.quantity]
  · rw [book_setQueue, book_setQueue, fillHead_map, fillHead_map, φ.quantity, φ.quantity]

/-- Matching ends where it ends. -/
theorem matchStep_book_none (h : Book.matchStep side b = none) :
    Book.matchStep side (φ.book b) = none := by
  rw [matchStep_eq_none_iff] at h ⊢
  intro bidPrice bid bids askPrice ask asks hb ha
  rw [best?_book] at hb ha
  obtain ⟨r, hr, heq⟩ := Option.map_eq_some_iff.mp hb
  obtain ⟨r', hr', heq'⟩ := Option.map_eq_some_iff.mp ha
  cases heq
  cases heq'
  exact h _ _ _ _ _ _ hr hr'

/-- Matching the relabelled book is the relabelled run. -/
theorem matchBook_book (side : Side) (b : Book) :
    (φ.book b).matchBook side =
      ((b.matchBook side).1.map φ.trade, φ.book (b.matchBook side).2) :=
  matchBook_eq
    ((matchBook_steps side b).map (I := fun _ => True)
      (fun _ _ _ _ hstep => ⟨trivial, φ.matchStep_book hstep⟩) trivial)
    (φ.matchStep_book_none (matchBook_halts side b))

/-- A sweeping step on the relabelled book is the relabelled step. -/
theorem sweepStep_book (h : Book.sweepStep side id limit (left, b) = some (t, (left', b'))) :
    Book.sweepStep side (φ.id id) limit (left, φ.book b) =
      some (φ.trade t, (left', φ.book b')) := by
  obtain ⟨price, o, rest, hz, hbest, hcross, rfl, rfl, rfl⟩ := sweepStep_eq_some_iff.mp h
  rw [sweepStep_eq_some_iff]
  refine ⟨price, φ.order o, rest.map φ.order, hz, ?_, hcross, ?_, ?_, ?_⟩
  · rw [best?_book, hbest, Option.map_some]
  · rw [φ.quantity, φ.orderId]
    cases side <;> rfl
  · rw [φ.quantity]
  · rw [book_setQueue, fillHead_map, φ.quantity]

/-- FillOrKill on the relabelled book is the relabelled fill. -/
theorem fillOrKill_book (b : Book) (side : Side) (id : OrderId) (limit : Price) (qty : Quantity) :
    (φ.book b).fillOrKill side (φ.id id) limit qty =
      ((b.fillOrKill side id limit qty).1.map φ.trade,
        φ.book (b.fillOrKill side id limit qty).2) := by
  have havail := φ.available_book b side limit
  by_cases hlt : b.available side limit < qty.toNat
  · rw [Book.fillOrKill, Book.fillOrKill, havail, if_pos hlt, if_pos hlt]
    rfl
  · refine fillOrKill_eq (by rw [havail]; exact hlt) ?_
    exact (fillOrKill_steps id hlt).map (I := fun _ => True)
      (f := fun c : Quantity × Book => (c.1, φ.book c.2))
      (fun _ _ _ _ hstep => ⟨trivial, φ.sweepStep_book hstep⟩) trivial

end Matching

end Relabelling

end OrderbookEngine.RelabelledBook
