import Mathlib.Data.Int.Notation
import OrderbookEngine.LinkedSlots
import OrderbookEngine.MarketTypes
import OrderbookEngine.StepRuns

/-!
# The matching engine over a pool of linked slots

Orders live in a fixed pool of slots. Each price level is a doubly linked list
of slots threaded through the pool, the levels of a side are a sorted map, and
a hash map leads from an order identifier to its slot. An int32_t slot index is
a bounded index and NULL_IDX is none. A reference into a price map is the key
it was taken at, read and written back through the map.
-/

namespace OrderbookEngine.PoolBook

open SortedMap MarketTypes

/-- Exceptions of the engine: its own one and that of std::map::at. -/
inductive Exn where
  | runtimeError (what : String)
  | outOfRange
  deriving DecidableEq

/-- The exception of an empty free list. -/
def poolExhausted : Exn := .runtimeError "Orderbook: pool exhausted — increase POOL_SIZE"

/-- How a member function ends. An exception keeps the writes made before it,
and a loop that outlives its fuel does not end. -/
inductive Outcome (σ α : Type*) where
  | ret (value : α) (state : σ)
  | raise (exn : Exn) (state : σ)
  | diverge

namespace Outcome

/-- Continue from a normal return. -/
def bind {σ α β : Type*} (x : Outcome σ α) (f : α → σ → Outcome σ β) : Outcome σ β :=
  match x with
  | ret a s => f a s
  | raise e s => raise e s
  | diverge => diverge

/-- Whether a member function ends with an exception. -/
def raises {σ α : Type*} : Outcome σ α → Bool
  | raise _ _ => true
  | _ => false

/-- A computation that returns is followed by the next one. -/
@[simp] theorem ret_bind {σ α β : Type*} (a : α) (s : σ) (f : α → σ → Outcome σ β) :
    (ret a s).bind f = f a s := rfl

/-- A computation that raises is the last one. -/
@[simp] theorem raise_bind {σ α β : Type*} (e : Exn) (s : σ) (f : α → σ → Outcome σ β) :
    (raise e s).bind f = raise e s := rfl

end Outcome

/-- One slot of the pool, with its links in a price level. -/
structure PoolOrder (n : ℕ) where
  /-- Identifier of the order. -/
  orderId : OrderId := 0
  /-- Its side. -/
  side : Side := .buy
  /-- Its price. -/
  price : Price := 0
  /-- Its type. -/
  orderType : OrderType := .goodTillCancel
  /-- What is left of it. -/
  quantity : Quantity := 0
  /-- Slot ahead in its level. -/
  prev : Option (Fin n) := none
  /-- Slot behind in its level. -/
  next : Option (Fin n) := none

namespace PoolOrder

variable {n : ℕ}

/-- Whether nothing is left of an order. -/
def isFilled (o : PoolOrder n) : Bool := o.quantity == 0

/-- Take a traded quantity off an order. -/
def fill (o : PoolOrder n) (q : Quantity) : PoolOrder n := { o with quantity := o.quantity - q }

end PoolOrder

/-- A price level; head is the oldest order and tail the newest. -/
structure PriceLevel (n : ℕ) where
  /-- First slot of the level. -/
  head : Option (Fin n) := none
  /-- Last slot of the level. -/
  tail : Option (Fin n) := none
  /-- Total quantity, kept incrementally. -/
  totalQty : Quantity := 0
  /-- Number of orders. -/
  orderCount : ℤ := 0

/-- Whether a level counts no order. -/
def PriceLevel.empty {n : ℕ} (lvl : PriceLevel n) : Bool := lvl.orderCount == 0

/-- The slots of a pool. -/
abbrev Pool (n : ℕ) := Fin n → PoolOrder n

/-- Write the link of a slot to its predecessor. -/
def setPrev {n : ℕ} (pool : Pool n) (idx : Fin n) (link : Option (Fin n)) : Pool n :=
  Function.update pool idx { pool idx with prev := link }

/-- Write the link of a slot to its successor. -/
def setNext {n : ℕ} (pool : Pool n) (idx : Fin n) (link : Option (Fin n)) : Pool n :=
  Function.update pool idx { pool idx with next := link }

/-- Append a slot to the tail of a level. -/
def dllAppend {n : ℕ} (pool : Pool n) (lvl : PriceLevel n) (idx : Fin n) :
    Pool n × PriceLevel n :=
  let pool := setPrev pool idx lvl.tail
  let pool := setNext pool idx none
  let (pool, lvl) :=
    match lvl.tail with
    | some t => (setNext pool t (some idx), lvl)
    | none => (pool, { lvl with head := some idx })
  (pool, { lvl with
    tail := some idx
    totalQty := lvl.totalQty + (pool idx).quantity
    orderCount := lvl.orderCount + 1 })

/-- Remove a slot from any position of a level by stitching its neighbours. -/
def dllRemove {n : ℕ} (pool : Pool n) (lvl : PriceLevel n) (idx : Fin n) :
    Pool n × PriceLevel n :=
  let (pool, lvl) :=
    match (pool idx).prev with
    | some p => (setNext pool p (pool idx).next, lvl)
    | none => (pool, { lvl with head := (pool idx).next })
  let (pool, lvl) :=
    match (pool idx).next with
    | some x => (setPrev pool x (pool idx).prev, lvl)
    | none => (pool, { lvl with tail := (pool idx).prev })
  let lvl := { lvl with
    totalQty := lvl.totalQty - (pool idx).quantity
    orderCount := lvl.orderCount - 1 }
  (setPrev (setNext pool idx none) idx none, lvl)

section Links

variable {n : ℕ} (pool : Pool n) (i j : Fin n) (link : Option (Fin n))

/-- Backward links after one of them is written. -/
@[simp] theorem setPrev_prev :
    (setPrev pool i link j).prev = if j = i then link else (pool j).prev := by
  rw [setPrev, Function.update_apply]
  split_ifs <;> rfl

/-- Forward links are left alone. -/
@[simp] theorem setPrev_next : (setPrev pool i link j).next = (pool j).next := by
  rw [setPrev, Function.update_apply]
  split_ifs with h
  · rw [h]
  · rfl

/-- So are quantities. -/
@[simp] theorem setPrev_quantity : (setPrev pool i link j).quantity = (pool j).quantity := by
  rw [setPrev, Function.update_apply]
  split_ifs with h
  · rw [h]
  · rfl

/-- Forward links after one of them is written. -/
@[simp] theorem setNext_next :
    (setNext pool i link j).next = if j = i then link else (pool j).next := by
  rw [setNext, Function.update_apply]
  split_ifs <;> rfl

/-- Backward links are left alone. -/
@[simp] theorem setNext_prev : (setNext pool i link j).prev = (pool j).prev := by
  rw [setNext, Function.update_apply]
  split_ifs with h
  · rw [h]
  · rfl

/-- So are quantities. -/
@[simp] theorem setNext_quantity : (setNext pool i link j).quantity = (pool j).quantity := by
  rw [setNext, Function.update_apply]
  split_ifs with h
  · rw [h]
  · rfl

variable {i j}

/-- Other slots are left alone. -/
theorem setPrev_of_ne (h : j ≠ i) : setPrev pool i link j = pool j := Function.update_of_ne h _ _

/-- Other slots are left alone. -/
theorem setNext_of_ne (h : j ≠ i) : setNext pool i link j = pool j := Function.update_of_ne h _ _

end Links

/-- The engine. The free list is a vector used as a stack, top first here. -/
structure Orderbook (n : ℕ) where
  /-- All slots. -/
  pool : Pool n
  /-- Slots to be taken next, the top first. -/
  freeList : List (Fin n)
  /-- Levels of bids, the highest first. -/
  bids : OrdMap Price (PriceLevel n) Side.buy.before
  /-- Levels of asks, the lowest first. -/
  asks : OrdMap Price (PriceLevel n) Side.sell.before
  /-- The hash map; the order it is iterated in is an input of the iteration. -/
  orderMap : OrdMap OrderId (Fin n) (· < ·)
  /-- Counters of the feed. -/
  stats : MarketDataStats := {}
  /-- Sequence number of the last snapshot. -/
  lastSequenceNumber : UInt64 := 0
  /-- Whether there was a snapshot. -/
  isInitialized : Bool := false
  /-- Rules in force. -/
  exchangeRules : ExchangeRules := {}

/-- An order in which a hash map may be iterated. -/
structure IterOrder where
  /-- The sequence in which given identifiers come. -/
  arrange : List OrderId → List OrderId
  /-- Each of them comes once. -/
  perm : ∀ ids, (arrange ids).Perm ids

/-- One planned fill of a FillOrKill order. -/
structure FokMatch (n : ℕ) where
  /-- Slot of the resting order. -/
  idx : Fin n
  /-- Quantity to be taken from it. -/
  qty : Quantity

/-- Resting (passive) side sets the price; a market price never does. -/
def tradePrice (aggressorSide : Side) (bidPrice askPrice : Price) : Price :=
  if bidPrice = Int32.maxValue then askPrice
  else if askPrice = Int32.minValue then bidPrice
  else if aggressorSide = .buy then askPrice
  else bidPrice

namespace Orderbook

variable {n : ℕ}

/-- The price map of a side. -/
def levels (s : Orderbook n) : (side : Side) → OrdMap Price (PriceLevel n) side.before
  | .buy => s.bids
  | .sell => s.asks

/-- Replace the price map of a side. -/
def setLevels (s : Orderbook n) : (side : Side) → OrdMap Price (PriceLevel n) side.before →
    Orderbook n
  | .buy, m => { s with bids := m }
  | .sell, m => { s with asks := m }

/-- Read through a level reference; operator[] creates an absent level empty. -/
def level (s : Orderbook n) (side : Side) (price : Price) : PriceLevel n :=
  ((s.levels side).find? price).getD {}

/-- Write through a level reference. -/
def putLevel (s : Orderbook n) (side : Side) (price : Price) (lvl : PriceLevel n) :
    Orderbook n :=
  s.setLevels side ((s.levels side).insert price lvl)

/-- Erase a level from its map. -/
def eraseLevel (s : Orderbook n) (side : Side) (price : Price) : Orderbook n :=
  s.setLevels side ((s.levels side).erase price)

section ReadsAfterWrites

variable (s : Orderbook n) (side : Side) (price : Price) (lvl : PriceLevel n)

/-- Writing levels leaves the pool alone. -/
@[simp] theorem setLevels_pool (m) : (s.setLevels side m).pool = s.pool := by cases side <;> rfl

/-- Writing levels leaves the free list alone. -/
@[simp] theorem setLevels_freeList (m) : (s.setLevels side m).freeList = s.freeList := by
  cases side <;> rfl

/-- Writing levels leaves the identifiers alone. -/
@[simp] theorem setLevels_orderMap (m) : (s.setLevels side m).orderMap = s.orderMap := by
  cases side <;> rfl

/-- The levels that were written. -/
@[simp] theorem levels_setLevels_self (m) : (s.setLevels side m).levels side = m := by
  cases side <;> rfl

/-- The levels of the other side are left alone. -/
theorem levels_setLevels_of_ne {side' : Side} (m) (h : side' ≠ side) :
    (s.setLevels side m).levels side' = s.levels side' := by
  cases side <;> cases side' <;> first | rfl | exact absurd rfl h

/-- Writing a level leaves the pool alone. -/
@[simp] theorem putLevel_pool : (s.putLevel side price lvl).pool = s.pool :=
  s.setLevels_pool side _

/-- Writing a level leaves the free list alone. -/
@[simp] theorem putLevel_freeList : (s.putLevel side price lvl).freeList = s.freeList :=
  s.setLevels_freeList side _

/-- Writing a level leaves the identifiers alone. -/
@[simp] theorem putLevel_orderMap : (s.putLevel side price lvl).orderMap = s.orderMap :=
  s.setLevels_orderMap side _

/-- The levels after one of them is written. -/
theorem find?_putLevel (side' : Side) (price' : Price) :
    ((s.putLevel side price lvl).levels side').find? price' =
      if side' = side ∧ price' = price then some lvl else (s.levels side').find? price' := by
  by_cases hs : side' = side
  · subst hs
    simp only [putLevel, levels_setLevels_self, OrdMap.find?_insert, true_and]
  · rw [putLevel, levels_setLevels_of_ne _ _ _ hs, if_neg fun h => hs h.1]

/-- The levels after one of them is erased. -/
theorem find?_eraseLevel (side' : Side) (price' : Price) :
    ((s.eraseLevel side price).levels side').find? price' =
      if side' = side ∧ price' = price then none else (s.levels side').find? price' := by
  by_cases hs : side' = side
  · subst hs
    simp only [eraseLevel, levels_setLevels_self, OrdMap.find?_erase, true_and]
  · rw [eraseLevel, levels_setLevels_of_ne _ _ _ hs, if_neg fun h => hs h.1]

/-- The data of all levels after one of them is written. -/
theorem level_putLevel (side' : Side) (price' : Price) :
    (s.putLevel side price lvl).level side' price' =
      if side' = side ∧ price' = price then lvl else s.level side' price' := by
  rw [level, find?_putLevel]
  split_ifs <;> rfl

/-- The data of all levels after one of them is erased. -/
theorem level_eraseLevel (side' : Side) (price' : Price) :
    (s.eraseLevel side price).level side' price' =
      if side' = side ∧ price' = price then {} else s.level side' price' := by
  rw [level, find?_eraseLevel]
  split_ifs <;> rfl

end ReadsAfterWrites

/-- Erase a level if its order count is zero. -/
def eraseIfEmpty (s : Orderbook n) (side : Side) (price : Price) : Orderbook n :=
  if (s.level side price).empty then s.eraseLevel side price else s

/-- Take a slot off the free list and reset it. -/
def alloc (s : Orderbook n) : Outcome (Orderbook n) (Fin n) :=
  match s.freeList with
  | [] => .raise poolExhausted s
  | idx :: rest => .ret idx { s with freeList := rest, pool := Function.update s.pool idx {} }

/-- Return a slot to the free list. -/
def free (s : Orderbook n) (idx : Fin n) : Orderbook n :=
  { s with freeList := idx :: s.freeList }

/-- `dllRemove` on a level in its map. -/
def unlink (s : Orderbook n) (side : Side) (price : Price) (idx : Fin n) : Orderbook n :=
  let removed := dllRemove s.pool (s.level side price) idx
  { s with pool := removed.1 }.putLevel side price removed.2

/-- Decrement the cached total of a level. -/
def subTotal (s : Orderbook n) (side : Side) (price : Price) (qty : Quantity) : Orderbook n :=
  let lvl := s.level side price
  s.putLevel side price { lvl with totalQty := lvl.totalQty - qty }

/-- Fill the order in a slot. -/
def fillSlot (s : Orderbook n) (idx : Fin n) (qty : Quantity) : Orderbook n :=
  { s with pool := Function.update s.pool idx ((s.pool idx).fill qty) }

/-- Forget a filled order of a level: hash map, list and slot. -/
def retire (s : Orderbook n) (side : Side) (price : Price) (idx : Fin n) : Orderbook n :=
  let s := { s with orderMap := s.orderMap.erase (s.pool idx).orderId }
  (s.unlink side price idx).free idx

/-- Whether a price reaches the best opposing level. -/
def canMatch (s : Orderbook n) (side : Side) (price : Price) : Bool :=
  match side with
  | .buy =>
    match s.asks.first? with
    | none => false
    | some (best, _) => price ≥ best
  | .sell =>
    match s.bids.first? with
    | none => false
    | some (best, _) => price ≤ best

/-- Refuse a live identifier and what the rules refuse; the two sentinel prices
skip the price and notional checks. -/
def validateOrder (s : Orderbook n) (id : OrderId) (price : Price) (qty : Quantity) : Bool :=
  let isSentinel := price = Int32.maxValue ∨ price = Int32.minValue
  if (s.orderMap.find? id).isSome then false
  else if ¬isSentinel ∧ ¬s.exchangeRules.isValidPrice price then false
  else if ¬s.exchangeRules.isValidQuantity qty then false
  else if ¬isSentinel ∧ ¬s.exchangeRules.isValidNotional price qty then false
  else true

/-- Append a slot to its level and enter it in the hash map. -/
def insertIntoBook (s : Orderbook n) (idx : Fin n) : Orderbook n :=
  let o := s.pool idx
  let appended := dllAppend s.pool (s.level o.side o.price) idx
  let s := { s with pool := appended.1 }.putLevel o.side o.price appended.2
  { s with orderMap := s.orderMap.insert o.orderId idx }

/-- Write the fields of a new order into its slot. -/
def writeOrder (s : Orderbook n) (idx : Fin n) (id : OrderId) (side : Side) (price : Price)
    (type : OrderType) (qty : Quantity) : Orderbook n :=
  { s with
    pool := Function.update s.pool idx
      { s.pool idx with
        orderId := id, side := side, price := price, orderType := type, quantity := qty } }

/-- The inner loop of `collectFOK` along one level, with the quantity left. -/
def scanLevel (pool : Pool n) : ℕ → Option (Fin n) → Quantity →
    Option (List (FokMatch n) × Quantity)
  | _, none, remaining => some ([], remaining)
  | 0, some _, remaining => if remaining > 0 then none else some ([], remaining)
  | fuel + 1, some cur, remaining =>
    if remaining > 0 then
      let q := min remaining (pool cur).quantity
      (scanLevel pool fuel (pool cur).next (remaining - q)).map fun r => (⟨cur, q⟩ :: r.1, r.2)
    else some ([], remaining)

/-- The outer loop of `collectFOK` over the opposing levels, best first. -/
def scanLevels (pool : Pool n) (side : Side) (aggrPrice : Price) :
    List (Price × PriceLevel n) → Quantity → Option (List (FokMatch n))
  | [], _ => some []
  | (price, lvl) :: rest, remaining =>
    if side = .buy ∧ price > aggrPrice then some []
    else if side = .sell ∧ price < aggrPrice then some []
    else
      match scanLevel pool (n + 1) lvl.head remaining with
      | none => none
      | some (found, remaining) =>
        if remaining = 0 then some found
        else (scanLevels pool side aggrPrice rest remaining).map fun later => found ++ later

/-- Phase one of FillOrKill: the fills that are there, without touching state. -/
def collectFOK (s : Orderbook n) (side : Side) (aggrPrice : Price) (remaining : Quantity) :
    Option (List (FokMatch n)) :=
  match side with
  | .buy => scanLevels s.pool side aggrPrice s.asks.entries remaining
  | .sell => scanLevels s.pool side aggrPrice s.bids.entries remaining

/-- One pass of the loop of `executeFOK`. -/
def executeFokMatch (aggrIdx : Fin n) (m : FokMatch n) (s : Orderbook n) :
    Outcome (Orderbook n) Trade :=
  let aggr := s.pool aggrIdx
  let mo := s.pool m.idx
  match (s.levels mo.side).find? mo.price with
  | none => .raise .outOfRange s
  | some matchLvl =>
    let s := s.putLevel mo.side mo.price { matchLvl with totalQty := matchLvl.totalQty - m.qty }
    let s := s.fillSlot aggrIdx m.qty
    let s := s.fillSlot m.idx m.qty
    let trade : Trade :=
      match aggr.side with
      | .buy => ⟨aggr.orderId, mo.orderId, mo.price, m.qty⟩
      | .sell => ⟨mo.orderId, aggr.orderId, mo.price, m.qty⟩
    let s :=
      if (s.pool m.idx).isFilled then
        let s := { s with orderMap := s.orderMap.erase mo.orderId }
        ((s.unlink mo.side mo.price m.idx).eraseIfEmpty mo.side mo.price).free m.idx
      else s
    .ret trade s

/-- Phase two of FillOrKill: execute the plan and return the aggressor's slot. -/
def executeFOK (aggrIdx : Fin n) : List (FokMatch n) → Orderbook n →
    Outcome (Orderbook n) Trades
  | [], s => .ret [] (s.free aggrIdx)
  | m :: rest, s =>
    (executeFokMatch aggrIdx m s).bind fun trade s =>
      (executeFOK aggrIdx rest s).bind fun trades s => .ret (trade :: trades) s

/-- Cancel an order if it is live. -/
def cancelOrder (s : Orderbook n) (id : OrderId) : Outcome (Orderbook n) Unit :=
  match s.orderMap.find? id with
  | none => .ret () s
  | some idx =>
    let o := s.pool idx
    match (s.levels o.side).find? o.price with
    | none => .raise .outOfRange s
    | some _ =>
      let s := ((s.unlink o.side o.price idx).eraseIfEmpty o.side o.price).free idx
      .ret () { s with orderMap := s.orderMap.erase id }

/-- One pass of the inner matching loop: cross the heads of two levels. -/
def crossStep (bidPrice askPrice price : Price) (s : Orderbook n) :
    Option (Trade × Orderbook n) :=
  match (s.level .buy bidPrice).head, (s.level .sell askPrice).head with
  | some bidIdx, some askIdx =>
    let bid := s.pool bidIdx
    let ask := s.pool askIdx
    let qty := min bid.quantity ask.quantity
    let trade : Trade := ⟨bid.orderId, ask.orderId, price, qty⟩
    let s := s.subTotal .buy bidPrice qty
    let s := s.subTotal .sell askPrice qty
    let s := s.fillSlot bidIdx qty
    let s := s.fillSlot askIdx qty
    let s := if (s.pool bidIdx).isFilled then s.retire .buy bidPrice bidIdx else s
    let s := if (s.pool askIdx).isFilled then s.retire .sell askPrice askIdx else s
    some (trade, s)
  | _, _ => none

/-- The outer matching loop: cross the best levels until none do, or both are
market remainders. None if the fuel runs out. -/
def matchLoop (aggressorSide : Side) : ℕ → Orderbook n → Option (Trades × Orderbook n)
  | 0, _ => none
  | fuel + 1, s =>
    match s.bids.first?, s.asks.first? with
    | some (bidPrice, _), some (askPrice, _) =>
      if bidPrice < askPrice then some ([], s)
      else if bidPrice = Int32.maxValue ∧ askPrice = Int32.minValue then some ([], s)
      else
        match StepRuns.run? (crossStep bidPrice askPrice
            (tradePrice aggressorSide bidPrice askPrice)) (n + 1) s with
        | none => none
        | some (trades, s) =>
          let s := (s.eraseIfEmpty .buy bidPrice).eraseIfEmpty .sell askPrice
          (matchLoop aggressorSide fuel s).map fun r => (trades ++ r.1, r.2)
    | _, _ => some ([], s)

/-- Match the book, then cancel what an ImmediateOrCancel order has left. -/
def matchOrders (s : Orderbook n) (aggressorSide : Side) (iocId : Option OrderId) :
    Outcome (Orderbook n) Trades :=
  match matchLoop aggressorSide (n + 1) s with
  | none => .diverge
  | some (trades, s) =>
    match iocId with
    | some id => (s.cancelOrder id).bind fun _ s => .ret trades s
    | none => .ret trades s

/-- The type and price an order is handled with; none for a market order that
meets no opposing order. -/
def convertMarket (s : Orderbook n) (type : OrderType) (side : Side) (price : Price) :
    Option (OrderType × Price) :=
  if type = .market then
    if side = .buy ∧ ¬s.asks.isEmpty then some (.goodTillCancel, Int32.maxValue)
    else if side = .sell ∧ ¬s.bids.isEmpty then some (.goodTillCancel, Int32.minValue)
    else none
  else some (type, price)

/-- What `addOrder` does with an order that has passed validation. -/
def addValidated (s : Orderbook n) (type : OrderType) (id : OrderId) (side : Side) (price : Price)
    (qty : Quantity) : Outcome (Orderbook n) Trades :=
  if type = .immediateOrCancel ∧ ¬s.canMatch side price then .ret [] s
  else if type = .fillOrKill then
    s.alloc.bind fun idx s =>
      let s := s.writeOrder idx id side price type qty
      match s.collectFOK side price qty with
      | none => .diverge
      | some found =>
        if found.foldl (fun total m => total + m.qty) 0 < qty then .ret [] (s.free idx)
        else executeFOK idx found s
  else
    s.alloc.bind fun idx s =>
      let s := (s.writeOrder idx id side price type qty).insertIntoBook idx
      s.matchOrders side (if type = .immediateOrCancel then some id else none)

/-- Add an order of any type. -/
def addOrder (s : Orderbook n) (type : OrderType) (id : OrderId) (side : Side) (price : Price)
    (qty : Quantity) : Outcome (Orderbook n) Trades :=
  match s.convertMarket type side price with
  | none => .ret [] s
  | some (type, price) =>
    if ¬s.validateOrder id price qty then .ret [] s
    else s.addValidated type id side price qty

/-- An order that passes validation, after conversion, is added. -/
theorem addOrder_of_valid {s : Orderbook n} {type type' : OrderType} {id : OrderId} {side : Side}
    {price price' : Price} {qty : Quantity}
    (hconvert : s.convertMarket type side price = some (type', price'))
    (hvalid : s.validateOrder id price' qty = true) :
    s.addOrder type id side price qty = s.addValidated type' id side price' qty := by
  rw [addOrder, hconvert]
  exact if_neg (not_not.mpr hvalid)

/-- Change the quantity in place, or cancel and add again at another price. -/
def modifyOrder (s : Orderbook n) (mod : OrderModify) : Outcome (Orderbook n) Trades :=
  match s.orderMap.find? mod.orderId with
  | none => .ret [] s
  | some idx =>
    let existing := s.pool idx
    if mod.side ≠ existing.side then .ret [] s
    else if mod.price = existing.price then
      match (s.levels existing.side).find? existing.price with
      | none => .raise .outOfRange s
      | some lvl =>
        let s := s.putLevel existing.side existing.price
          { lvl with totalQty := lvl.totalQty - existing.quantity + mod.quantity }
        .ret [] { s with
          pool := Function.update s.pool idx { s.pool idx with quantity := mod.quantity } }
    else
      (s.cancelOrder mod.orderId).bind fun _ s =>
        s.addOrder existing.orderType mod.orderId existing.side mod.price mod.quantity

/-- The entries of the hash map in an iteration order. -/
def iterate (s : Orderbook n) (order : IterOrder) : List (OrderId × Fin n) :=
  (order.arrange s.orderMap.keys).filterMap fun id =>
    (s.orderMap.find? id).map fun idx => (id, idx)

/-- Cancel a list of orders one by one. -/
def cancelEach : List OrderId → Orderbook n → Outcome (Orderbook n) Unit
  | [], s => .ret () s
  | id :: ids, s => (s.cancelOrder id).bind fun _ s => cancelEach ids s

/-- Cancel every GoodForDay order. -/
def cancelGoodForDayOrders (s : Orderbook n) (order : IterOrder) :
    Outcome (Orderbook n) Unit :=
  let toCancel := ((s.iterate order).filter fun e =>
    (s.pool e.2).orderType = .goodForDay).map Prod.fst
  cancelEach toCancel s

/-- Number of live orders. -/
def size (s : Orderbook n) : ℕ := s.orderMap.size

/-- Whether an order is live. -/
def hasOrder (s : Orderbook n) (id : OrderId) : Bool := (s.orderMap.find? id).isSome

/-- Reported levels of a price map; a level with a zero total is left out. -/
def levelInfos (entries : List (Price × PriceLevel n)) : List LevelInfo :=
  entries.filterMap fun e => if e.2.totalQty > 0 then some ⟨e.1, e.2.totalQty⟩ else none

/-- The depth report: levels of both sides, best first. -/
def getOrderInfos (s : Orderbook n) : OrderbookLevelInfos :=
  ⟨levelInfos s.bids.entries, levelInfos s.asks.entries⟩

/-- Install rules. -/
def setExchangeRules (s : Orderbook n) (rules : ExchangeRules) : Orderbook n :=
  { s with exchangeRules := rules }

/-- Number of slots of the pool. -/
def poolCapacity (_ : Orderbook n) : ℕ := n

/-- Number of free slots. -/
def poolFreeSlots (s : Orderbook n) : ℕ := s.freeList.length

/-- Number of slots that are not free. -/
def poolUsed (s : Orderbook n) : ℕ := s.poolCapacity - s.poolFreeSlots

end Orderbook

end OrderbookEngine.PoolBook
