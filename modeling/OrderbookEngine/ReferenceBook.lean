import Mathlib.Algebra.BigOperators.Group.List.Basic
import Mathlib.Algebra.GroupWithZero.Nat
import OrderbookEngine.FeedCalls

/-!
# A reference engine on plain queues

Each side is a sorted map from prices to nonempty FIFO queues of identifier,
type and quantity. There is no pool, no link, no cached total and no identifier
map. Matching takes one fill at a time from the heads of the best queues, and
depth is the sum of each queue modulo 2^32.
-/

namespace OrderbookEngine.ReferenceBook

open SortedMap MarketTypes PoolBook FeedCalls

/-- Two sides of queues of arbitrary elements. -/
structure BookOf (α : Type*) where
  /-- Queues of bids, the highest price first. -/
  bids : Buckets Price α Side.buy.before
  /-- Queues of asks, the lowest price first. -/
  asks : Buckets Price α Side.sell.before

namespace BookOf

variable {α β : Type*}

/-- The book without orders. -/
def empty : BookOf α := ⟨Buckets.empty, Buckets.empty⟩

/-- The queues of one side. -/
def side (b : BookOf α) : (side : Side) → Buckets Price α side.before
  | .buy => b.bids
  | .sell => b.asks

/-- The queue at a price. -/
def queue (b : BookOf α) (side : Side) (price : Price) : List α := (b.side side).queue price

/-- Replace the queue at a price. -/
def setQueue (b : BookOf α) (side : Side) (price : Price) (os : List α) : BookOf α :=
  match side with
  | .buy => { b with bids := b.bids.setQueue price os }
  | .sell => { b with asks := b.asks.setQueue price os }

/-- Best price, its first element and the rest of its queue. -/
def best? (b : BookOf α) (side : Side) : Option (Price × α × List α) := (b.side side).best?

/-- All elements of a side in price and time order. -/
def orders (b : BookOf α) (side : Side) : List (Price × α) := (b.side side).toList

/-- Number of elements. -/
def size (b : BookOf α) : ℕ := b.bids.size + b.asks.size

/-- Change every element in place. -/
def mapVal (f : α → β) (b : BookOf α) : BookOf β := ⟨b.bids.mapVal f, b.asks.mapVal f⟩

/-- Keep the elements that satisfy a test. -/
def filter (p : α → Bool) (b : BookOf α) : BookOf α := ⟨b.bids.filter p, b.asks.filter p⟩

/-- Nothing rests in the empty book. -/
@[simp] theorem queue_empty (side : Side) (price : Price) :
    (empty : BookOf α).queue side price = [] := by
  cases side <;> rfl

/-- Books with the same queues are equal. -/
theorem ext_queue {b b' : BookOf α} (h : ∀ side price, b.queue side price = b'.queue side price) :
    b = b' := by
  have hbids : b.bids = b'.bids := Buckets.ext_queue (h .buy)
  have hasks : b.asks = b'.asks := Buckets.ext_queue (h .sell)
  cases b
  cases b'
  simp_all

/-- Only the side of the price is written. -/
theorem side_setQueue_self (b : BookOf α) (side : Side) (price : Price) (os : List α) :
    (b.setQueue side price os).side side = (b.side side).setQueue price os := by
  cases side <;> rfl

/-- The other side is left alone. -/
theorem side_setQueue_of_ne (b : BookOf α) {side side' : Side} (price : Price) (os : List α)
    (h : side' ≠ side) : (b.setQueue side price os).side side' = b.side side' := by
  cases side <;> cases side' <;> first | rfl | exact absurd rfl h

/-- The queues after one of them is replaced. -/
theorem queue_setQueue (b : BookOf α) (side side' : Side) (price price' : Price) (os : List α) :
    (b.setQueue side price os).queue side' price' =
      if side' = side ∧ price' = price then os else b.queue side' price' := by
  by_cases hs : side' = side
  · subst hs
    simp only [queue, side_setQueue_self, Buckets.queue_setQueue, true_and]
  · rw [queue, side_setQueue_of_ne b price os hs, if_neg fun h => hs h.1, queue]

/-- The new queue is found at its price. -/
@[simp] theorem queue_setQueue_self (b : BookOf α) (side : Side) (price : Price) (os : List α) :
    (b.setQueue side price os).queue side price = os := by
  rw [queue_setQueue, if_pos ⟨rfl, rfl⟩]

/-- A later queue at the same price replaces an earlier one. -/
theorem setQueue_setQueue (b : BookOf α) (side : Side) (price : Price) (os os' : List α) :
    (b.setQueue side price os).setQueue side price os' = b.setQueue side price os' := by
  cases side <;> simp only [setQueue, Buckets.setQueue_setQueue]

/-- Queues of different sides are replaced in any sequence. -/
theorem setQueue_comm (b : BookOf α) {side side' : Side} (price price' : Price) (os os' : List α)
    (h : side' ≠ side) : (b.setQueue side price os).setQueue side' price' os' =
      (b.setQueue side' price' os').setQueue side price os := by
  cases side <;> cases side' <;> first | rfl | exact absurd rfl h

/-- The best order of a side depends on that side alone. -/
theorem best?_setQueue_of_ne (b : BookOf α) {side side' : Side} (price : Price) (os : List α)
    (h : side' ≠ side) : (b.setQueue side price os).best? side' = b.best? side' := by
  rw [best?, side_setQueue_of_ne b price os h, best?]

/-- Writing back what is there changes nothing. -/
theorem setQueue_queue (b : BookOf α) (side : Side) (price : Price) :
    b.setQueue side price (b.queue side price) = b := by
  apply ext_queue
  intro side' price'
  rw [queue_setQueue]
  split_ifs with h
  · rw [h.1, h.2]
  · rfl

/-- Orders are changed side by side. -/
theorem side_mapVal (f : α → β) (b : BookOf α) (side : Side) :
    (b.mapVal f).side side = (b.side side).mapVal f := by
  cases side <;> rfl

/-- Orders are removed side by side. -/
theorem side_filter (p : α → Bool) (b : BookOf α) (side : Side) :
    (b.filter p).side side = (b.side side).filter p := by
  cases side <;> rfl

/-- Changing all orders changes each queue in place. -/
@[simp] theorem queue_mapVal (f : α → β) (b : BookOf α) (side : Side) (price : Price) :
    (b.mapVal f).queue side price = (b.queue side price).map f := by
  rw [queue, side_mapVal, Buckets.queue_mapVal, queue]

/-- Removing orders keeps those that remain in their sequence. -/
@[simp] theorem queue_filter (p : α → Bool) (b : BookOf α) (side : Side) (price : Price) :
    (b.filter p).queue side price = (b.queue side price).filter p := by
  rw [queue, side_filter, Buckets.queue_filter, queue]

/-- Orders may be changed before or after a queue is replaced. -/
theorem mapVal_setQueue (f : α → β) (b : BookOf α) (side : Side) (price : Price) (os : List α) :
    (b.setQueue side price os).mapVal f = (b.mapVal f).setQueue side price (os.map f) := by
  apply ext_queue
  intro side' price'
  rw [queue_mapVal, queue_setQueue, queue_setQueue, queue_mapVal]
  split_ifs <;> rfl

/-- Two removals are one. -/
theorem filter_filter (b : BookOf α) (p q : α → Bool) :
    (b.filter p).filter q = b.filter fun o => p o && q o := by
  apply ext_queue
  intro side price
  simp only [queue_filter, List.filter_filter]
  exact List.filter_congr fun o _ => Bool.and_comm _ _

/-- Two tests that agree on the elements of a book keep the same elements. -/
theorem filter_congr {b : BookOf α} {p q : α → Bool}
    (h : ∀ side price, ∀ o ∈ b.queue side price, p o = q o) : b.filter p = b.filter q := by
  apply ext_queue
  intro side price
  rw [queue_filter, queue_filter]
  exact List.filter_congr (h side price)

/-- The list of a side is changed order by order. -/
theorem orders_mapVal (f : α → β) (b : BookOf α) (side : Side) :
    (b.mapVal f).orders side = (b.orders side).map fun e => (e.1, f e.2) := by
  rw [orders, side_mapVal, Buckets.toList_mapVal, orders]

/-- The list of a side holds the orders of all its queues. -/
theorem mem_orders (b : BookOf α) (side : Side) (price : Price) (o : α) :
    (price, o) ∈ b.orders side ↔ o ∈ b.queue side price :=
  (b.side side).mem_toList price o

/-- Both sides count. -/
theorem size_eq (b : BookOf α) : b.size = (b.orders .buy).length + (b.orders .sell).length := rfl

/-- Changing orders keeps their number. -/
theorem size_mapVal (f : α → β) (b : BookOf α) : (b.mapVal f).size = b.size := by
  simp only [size, mapVal, Buckets.size_mapVal]

/-- Replacing a queue changes the number of orders by its length. -/
theorem size_setQueue (b : BookOf α) (side : Side) (price : Price) (os : List α) :
    (b.setQueue side price os).size + (b.queue side price).length = b.size + os.length := by
  cases side with
  | buy =>
    have h := b.bids.size_setQueue price os
    simp only [size, setQueue, queue, BookOf.side] at *
    omega
  | sell =>
    have h := b.asks.size_setQueue price os
    simp only [size, setQueue, queue, BookOf.side] at *
    omega

/-- The best order is first in the queue at the best price. -/
theorem best?_eq_some_iff (b : BookOf α) (side : Side) (price : Price) (o : α) (os : List α) :
    b.best? side = some (price, o, os) ↔
      b.queue side price = o :: os ∧
        ∀ price', b.queue side price' ≠ [] → price' = price ∨ side.before price price' :=
  (b.side side).best?_eq_some_iff price o os

/-- Where the best order rests. -/
theorem queue_of_best? {b : BookOf α} {side : Side} {price : Price} {o : α} {os : List α}
    (h : b.best? side = some (price, o, os)) : b.queue side price = o :: os :=
  ((b.best?_eq_some_iff side price o os).mp h).1

/-- No queue is before the best one. -/
theorem before_of_best? {b : BookOf α} {side : Side} {price : Price} {o : α} {os : List α}
    (h : b.best? side = some (price, o, os)) (price' : Price) (hne : b.queue side price' ≠ []) :
    price' = price ∨ side.before price price' :=
  ((b.best?_eq_some_iff side price o os).mp h).2 price' hne

/-- A side has no best order if nothing rests on it. -/
theorem best?_eq_none_iff (b : BookOf α) (side : Side) :
    b.best? side = none ↔ ∀ price, b.queue side price = [] :=
  (b.side side).best?_eq_none_iff

/-- The best order is first in the list of its side. -/
theorem orders_of_best? {b : BookOf α} {side : Side} {price : Price} {o : α} {os : List α}
    (h : b.best? side = some (price, o, os)) :
    b.orders side = (price, o) :: (b.setQueue side price os).orders side := by
  rw [orders, orders, side_setQueue_self]
  exact Buckets.toList_of_best? h

/-- The list of a side depends on that side alone. -/
theorem orders_setQueue_of_ne (b : BookOf α) {side side' : Side} (price : Price) (os : List α)
    (h : side' ≠ side) : (b.setQueue side price os).orders side' = b.orders side' := by
  rw [orders, side_setQueue_of_ne b price os h, orders]

/-- Changing orders changes no priority. -/
theorem best?_mapVal (f : α → β) (b : BookOf α) (side : Side) :
    (b.mapVal f).best? side = (b.best? side).map fun r => (r.1, f r.2.1, r.2.2.map f) := by
  cases h : b.best? side with
  | none =>
    rw [best?_eq_none_iff] at h
    simp only [Option.map_none, best?_eq_none_iff, queue_mapVal, h, List.map_nil, implies_true]
  | some r =>
    obtain ⟨price, o, os⟩ := r
    obtain ⟨hq, hbest⟩ := (best?_eq_some_iff _ _ _ _ _).mp h
    simp only [Option.map_some, best?_eq_some_iff, queue_mapVal, hq, List.map_cons, ne_eq,
      List.map_eq_nil_iff, true_and]
    exact hbest

end BookOf

/-- A resting order of the reference engine. -/
structure Resting where
  /-- Identifier of the order. -/
  orderId : OrderId
  /-- Its type. -/
  orderType : OrderType
  /-- What is left of it. -/
  quantity : Quantity
  deriving DecidableEq, Repr

/-- The book of the reference engine. -/
abbrev Book := BookOf Resting

/-- Sum of quantities modulo 2^32. -/
def wrapSum (qs : List Quantity) : Quantity := qs.foldr (· + ·) 0

/-- An empty total. -/
@[simp] theorem wrapSum_nil : wrapSum [] = 0 := rfl

/-- The total of a queue with one more order in front. -/
@[simp] theorem wrapSum_cons (q : Quantity) (qs : List Quantity) :
    wrapSum (q :: qs) = q + wrapSum qs := rfl

/-- Totals add up. -/
@[simp] theorem wrapSum_append (qs qs' : List Quantity) :
    wrapSum (qs ++ qs') = wrapSum qs + wrapSum qs' := by
  induction qs with
  | nil => simp
  | cons q qs ih => rw [List.cons_append, wrapSum_cons, wrapSum_cons, ih, UInt32.add_assoc]

/-- The wrapping sum is the exact sum modulo 2^32. -/
theorem toNat_wrapSum (qs : List Quantity) :
    (wrapSum qs).toNat = (qs.map UInt32.toNat).sum % 2 ^ 32 := by
  induction qs with
  | nil => rfl
  | cons q qs ih =>
    rw [wrapSum_cons, UInt32.toNat_add, ih, List.map_cons, List.sum_cons, Nat.add_mod_mod]

namespace Book

/-- The queue after its first order is filled by a quantity; an order left with
none leaves the queue. -/
def fillHead (qty : Quantity) (o : Resting) (rest : List Resting) : List Resting :=
  if o.quantity - qty = 0 then rest else { o with quantity := o.quantity - qty } :: rest

/-- One fill between the first orders of the best queues. -/
def matchStep (aggressorSide : Side) (b : Book) : Option (Trade × Book) :=
  match b.best? .buy, b.best? .sell with
  | some (bidPrice, bid, bids), some (askPrice, ask, asks) =>
    if bidPrice < askPrice then none
    else if bidPrice = Side.buy.marketPrice ∧ askPrice = Side.sell.marketPrice then none
    else
      let qty := min bid.quantity ask.quantity
      some (⟨bid.orderId, ask.orderId, tradePrice aggressorSide bidPrice askPrice, qty⟩,
        (b.setQueue .buy bidPrice (fillHead qty bid bids)).setQueue .sell askPrice
          (fillHead qty ask asks))
  | _, _ => none

/-- Match until the best queues do not cross. -/
def matchBook (aggressorSide : Side) (b : Book) : Trades × Book :=
  StepRuns.run (matchStep aggressorSide) b.size b

/-- The trade of an incoming order with a resting one. -/
def tradeOf (side : Side) (id restingId : OrderId) (price : Price) (qty : Quantity) : Trade :=
  match side with
  | .buy => ⟨id, restingId, price, qty⟩
  | .sell => ⟨restingId, id, price, qty⟩

/-- One fill of an incoming order by the first order of the best opposing queue. -/
def sweepStep (side : Side) (id : OrderId) (limit : Price) :
    Quantity × Book → Option (Trade × (Quantity × Book))
  | (remaining, b) =>
    if remaining = 0 then none
    else
      match b.best? side.opposite with
      | none => none
      | some (price, o, rest) =>
        if side.crosses limit price then
          let qty := min remaining o.quantity
          some (tradeOf side id o.orderId price qty,
            (remaining - qty, b.setQueue side.opposite price (fillHead qty o rest)))
        else none

/-- Exact quantity resting within reach of a limit. -/
def available (b : Book) (side : Side) (limit : Price) : ℕ :=
  (((b.orders side.opposite).filter fun e => side.crosses limit e.1).map
    fun e => e.2.quantity.toNat).sum

/-- Fill an incoming order completely from the opposing side, or not at all. -/
def fillOrKill (b : Book) (side : Side) (id : OrderId) (limit : Price) (qty : Quantity) :
    Trades × Book :=
  if b.available side limit < qty.toNat then ([], b)
  else
    let swept := StepRuns.run (sweepStep side id limit) b.size (qty, b)
    (swept.1, swept.2.2)

/-- A live order with its side and price. -/
def find? (b : Book) (id : OrderId) : Option (Side × Price × Resting) :=
  match (b.orders .buy).find? (fun e => e.2.orderId = id) with
  | some e => some (.buy, e)
  | none => ((b.orders .sell).find? fun e => e.2.orderId = id).map fun e => (.sell, e)

/-- Whether an order is live. -/
def hasOrder (b : Book) (id : OrderId) : Bool := (b.find? id).isSome

/-- Put an order at the end of the queue at its price. -/
def append (b : Book) (side : Side) (price : Price) (o : Resting) : Book :=
  b.setQueue side price (b.queue side price ++ [o])

/-- Remove an order from its queue. -/
def cancel (b : Book) (id : OrderId) : Book := b.filter fun o => o.orderId ≠ id

/-- Change the quantity of an order in its place. -/
def requantify (b : Book) (id : OrderId) (qty : Quantity) : Book :=
  b.mapVal fun o => if o.orderId = id then { o with quantity := qty } else o

/-- Whether a price reaches the best opposing queue. -/
def canMatch (b : Book) (side : Side) (limit : Price) : Bool :=
  match b.best? side.opposite with
  | none => false
  | some (price, _) => side.crosses limit price

/-- Depth of a side; a queue whose wrapped sum is zero is left out. -/
def depth (b : Book) (side : Side) : List LevelInfo :=
  (b.side side).map.entries.filterMap fun e =>
    let total := wrapSum (e.2.map Resting.quantity)
    if total > 0 then some ⟨e.1, total⟩ else none

/-- What is reported at a price is the sum of its queue, unless that vanishes. -/
theorem mem_depth (b : Book) (side : Side) (info : LevelInfo) : info ∈ b.depth side ↔
    0 < info.quantity ∧ wrapSum ((b.queue side info.price).map Resting.quantity) =
      info.quantity := by
  rw [depth, List.mem_filterMap]
  constructor
  · rintro ⟨entry, hentry, hinfo⟩
    obtain ⟨-, hqueue⟩ := ((b.side side).mem_entries_iff entry.1 entry.2).mp hentry
    dsimp only at hinfo
    split_ifs at hinfo with hpos
    cases hinfo
    refine ⟨hpos, ?_⟩
    rw [BookOf.queue, hqueue]
  · rintro ⟨hpos, hsum⟩
    have hne : b.queue side info.price ≠ [] := by
      intro hnil
      rw [hnil] at hsum
      rw [← hsum] at hpos
      exact absurd hpos (by decide)
    refine ⟨(info.price, b.queue side info.price),
      ((b.side side).mem_entries_iff _ _).mpr ⟨hne, rfl⟩, ?_⟩
    dsimp only
    rw [hsum, if_pos hpos]

/-- A reported level has orders. -/
theorem queue_ne_nil_of_mem_depth {b : Book} {side : Side} {info : LevelInfo}
    (h : info ∈ b.depth side) : b.queue side info.price ≠ [] := by
  obtain ⟨hpos, hsum⟩ := (b.mem_depth side info).mp h
  intro hnil
  rw [hnil] at hsum
  rw [← hsum] at hpos
  exact absurd hpos (by decide)

end Book

/-- The reference engine: a book, the installed rules and how many orders fit. -/
structure RefEngine where
  /-- Resting orders. -/
  book : Book
  /-- Rules in force. -/
  rules : ExchangeRules := {}
  /-- Greatest number of live orders. -/
  capacity : ℕ

namespace RefEngine

/-- Unused identifier, valid quantity, and a valid or sentinel price. -/
def validateOrder (e : RefEngine) (id : OrderId) (price : Price) (qty : Quantity) : Bool :=
  !e.book.hasOrder id && e.rules.isValidQuantity qty &&
    (price == Side.buy.marketPrice || price == Side.sell.marketPrice ||
      e.rules.isValidPrice price && e.rules.isValidNotional price qty)

/-- Market orders become GoodTillCancel orders at the market price of their
side, provided some opposing order rests. -/
def convertMarket (e : RefEngine) (type : OrderType) (side : Side) (price : Price) :
    Option (OrderType × Price) :=
  if type = .market then
    if (e.book.best? side.opposite).isSome then some (.goodTillCancel, side.marketPrice) else none
  else some (type, price)

/-- What `addOrder` does with an order that has passed validation. -/
def addValidated (e : RefEngine) (type : OrderType) (id : OrderId) (side : Side) (price : Price)
    (qty : Quantity) : Outcome RefEngine Trades :=
  if type = .immediateOrCancel ∧ ¬e.book.canMatch side price then .ret [] e
  else if e.capacity ≤ e.book.size then .raise poolExhausted e
  else if type = .fillOrKill then
    let filled := e.book.fillOrKill side id price qty
    .ret filled.1 { e with book := filled.2 }
  else
    let matched := (e.book.append side price ⟨id, type, qty⟩).matchBook side
    .ret matched.1 { e with
      book := if type = .immediateOrCancel then matched.2.cancel id else matched.2 }

/-- Add an order of any type. -/
def addOrder (e : RefEngine) (type : OrderType) (id : OrderId) (side : Side) (price : Price)
    (qty : Quantity) : Outcome RefEngine Trades :=
  match e.convertMarket type side price with
  | none => .ret [] e
  | some (type, price) =>
    if ¬e.validateOrder id price qty then .ret [] e
    else e.addValidated type id side price qty

/-- An order that passes validation, after conversion, is added. -/
theorem addOrder_of_valid {e : RefEngine} {type type' : OrderType} {id : OrderId} {side : Side}
    {price price' : Price} {qty : Quantity}
    (hconvert : e.convertMarket type side price = some (type', price'))
    (hvalid : e.validateOrder id price' qty = true) :
    e.addOrder type id side price qty = e.addValidated type' id side price' qty := by
  rw [addOrder, hconvert]
  exact if_neg (not_not.mpr hvalid)

/-- Cancel an order; nothing happens if it is not live. -/
def cancelOrder (e : RefEngine) (id : OrderId) : RefEngine := { e with book := e.book.cancel id }

/-- Change the quantity in place, or cancel and add again at another price. -/
def modifyOrder (e : RefEngine) (mod : OrderModify) : Outcome RefEngine Trades :=
  match e.book.find? mod.orderId with
  | none => .ret [] e
  | some (side, price, o) =>
    if mod.side ≠ side then .ret [] e
    else if mod.price = price then
      .ret [] { e with book := e.book.requantify mod.orderId mod.quantity }
    else (e.cancelOrder mod.orderId).addOrder o.orderType mod.orderId side mod.price mod.quantity

/-- Cancel all GoodForDay orders. -/
def cancelGoodForDayOrders (e : RefEngine) : RefEngine :=
  { e with book := e.book.filter fun o => o.orderType ≠ .goodForDay }

/-- Add the levels of one side of a snapshot; refusals and exhaustion are ignored. -/
def addSnapshotLevels (side : Side) : List SnapshotLevel → OrderId → RefEngine →
    OrderId × RefEngine
  | [], syntheticId, e => (syntheticId, e)
  | level :: rest, syntheticId, e =>
    if level.quantity = 0 then addSnapshotLevels side rest syntheticId e
    else addSnapshotLevels side rest (syntheticId + 1)
      (leaves e (e.addOrder .goodTillCancel syntheticId side level.price level.quantity))

/-- Replace the book by the levels of a snapshot. -/
def processSnapshot (e : RefEngine) (msg : BookSnapshotMessage) : RefEngine :=
  let bids := addSnapshotLevels .buy msg.bids firstSyntheticId { e with book := BookOf.empty }
  (addSnapshotLevels .sell msg.asks bids.1 bids.2).2

/-- The effect of a message on rules and book. -/
def processMarketData (e : RefEngine) : MarketDataMessage → RefEngine
  | .newOrder msg =>
    leaves e (e.addOrder msg.orderType msg.orderId msg.side msg.price msg.quantity)
  | .cancelOrder msg => e.cancelOrder msg.orderId
  | .modifyOrder msg =>
    leaves e (e.modifyOrder ⟨msg.orderId, msg.side, msg.newPrice, msg.newQuantity⟩)
  | .trade => e
  | .bookSnapshot msg => e.processSnapshot msg

/-- Execute one public call; the iteration orders of the hash map do not matter. -/
def perform (e : RefEngine) : Call → Reply × RefEngine
  | .setExchangeRules rules _ => (.done, { e with rules := rules })
  | .addOrder type id side price qty => settle .trades e (e.addOrder type id side price qty)
  | .cancelOrder id => (.done, e.cancelOrder id)
  | .modifyOrder mod => settle .trades e (e.modifyOrder mod)
  | .cancelGoodForDayOrders _ => (.done, e.cancelGoodForDayOrders)
  | .processMarketData msg _ => (.processed true, e.processMarketData msg)
  | .resetMarketDataStats => (.done, e)

end RefEngine

end OrderbookEngine.ReferenceBook
