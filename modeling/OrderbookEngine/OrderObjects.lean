import Mathlib.Data.List.Monad
import OrderbookEngine.TradeTape

/-!
# Order objects and the checks they make

An order object checks what the pool order of the engine does not: that it is
never created with or changed to quantity zero, never filled for more than it
has left, and converted only if it is a Market order. The tape of a run is
carried out on such objects, and the checks are shown to fail for a quantity of
zero only.
-/

namespace OrderbookEngine.OrderObjects

open MarketTypes FeedCalls ReferenceBook ReferenceSteps RunRules BookState Additions TradeTape

/-- What an order object throws, with its message. -/
inductive OrderError where
  | invalidArgument (what : String)
  | logicError (what : String)
  deriving DecidableEq

/-- One individual order. -/
structure Order where
  /-- Type of the order. -/
  orderType : OrderType
  /-- Its identifier. -/
  orderId : OrderId
  /-- Its side. -/
  side : Side
  /-- Its price. -/
  price : Price
  /-- What is left of it. -/
  quantity : Quantity
  deriving DecidableEq

/-- Price of an order that has none. -/
def invalidPrice : Price := Int32.minValue

namespace Order

/-- What the constructor throws. -/
def zeroQuantity : OrderError :=
  .invalidArgument "Order quantity must be greater than zero"

/-- What `fill` throws. -/
def overfilled (id : OrderId) : OrderError :=
  .logicError s!"Order ({id}) cannot be filled for more than its remaining quantity."

/-- What the conversion throws. -/
def notMarket : OrderError := .logicError "Cannot convert non-market order to GoodTillCancel"

/-- The constructor. -/
def create (type : OrderType) (id : OrderId) (side : Side) (price : Price) (qty : Quantity) :
    Except OrderError Order :=
  if qty = 0 then .error zeroQuantity else .ok ⟨type, id, side, price, qty⟩

/-- The constructor of Market orders. -/
def createMarket (id : OrderId) (side : Side) (qty : Quantity) : Except OrderError Order :=
  create .market id side invalidPrice qty

/-- Whether nothing is left of an order. -/
def isFilled (o : Order) : Bool := o.quantity == 0

/-- Fill a part of the order. -/
def fill (o : Order) (qty : Quantity) : Except OrderError Order :=
  if qty > o.quantity then .error (overfilled o.orderId)
  else .ok { o with quantity := o.quantity - qty }

/-- Give a Market order a price. -/
def toGoodTillCancel (o : Order) (price : Price) : Except OrderError Order :=
  if o.orderType ≠ .market then .error notMarket
  else .ok { o with price := price, orderType := .goodTillCancel }

/-- Change the remaining quantity in place. -/
def updateQuantity (o : Order) (qty : Quantity) : Except OrderError Order :=
  if qty = 0 then .error zeroQuantity else .ok { o with quantity := qty }

end Order

variable {b b' : Book} {event : Event} {events : List Event} {id : OrderId} {qty : Quantity}

section Objects

/-- Order objects by their identifiers. -/
abbrev Ledger := OrderId → Option Order

/-- The object of an entered order; a Market order is created without a price
and converted. -/
def enter (requested : OrderType) (side : Side) (price : Price) (o : Resting) :
    Except OrderError Order :=
  if requested = .market then
    (Order.createMarket o.orderId side o.quantity).bind fun order => order.toGoodTillCancel price
  else Order.create requested o.orderId side price o.quantity

/-- Fill an order; a filled one is removed. -/
def fillLeg (ledger : Ledger) (id : OrderId) (qty : Quantity) : Except OrderError Ledger :=
  match ledger id with
  | none => .ok ledger
  | some order => (order.fill qty).map fun order =>
      Function.update ledger id (if order.isFilled then none else some order)

/-- Carry out one line. -/
def applyLine (ledger : Ledger) : Event → Except OrderError Ledger
  | .entered requested side price o => (enter requested side price o).map fun order =>
      Function.update ledger order.orderId (some order)
  | .traded t => (fillLeg ledger t.bidOrderId t.quantity).bind fun ledger =>
      fillLeg ledger t.askOrderId t.quantity
  | .withdrawn id => .ok (Function.update ledger id none)
  | .resized id qty =>
    match ledger id with
    | none => .ok ledger
    | some order => (order.updateQuantity qty).map fun order =>
        Function.update ledger id (some order)

/-- Carry out lines until one throws. -/
def carryOut (ledger : Ledger) (events : List Event) : Except OrderError Ledger :=
  events.foldlM applyLine ledger

end Objects

section Agreement

/-- The object of a resting order. -/
def objectOf (r : Side × Price × Resting) : Order :=
  ⟨r.2.2.orderType, r.2.2.orderId, r.1, r.2.1, r.2.2.quantity⟩

/-- The objects of a book. -/
def ledgerOf (b : Book) : Ledger := fun id => (b.find? id).map objectOf

/-- A line that gives an order no quantity of zero. -/
def positive : Event → Bool
  | .entered _ _ _ o => o.quantity != 0
  | .resized _ qty => qty != 0
  | _ => true

/-- A fill of an object does what the reader does. -/
theorem fillLeg_eq (h : Distinct b) (hfits : Fits b id qty) :
    fillLeg (ledgerOf b) id qty = .ok (ledgerOf (reduce b id qty)) := by
  obtain ⟨r, hf, hqty⟩ := hfits
  have hid := (find?_mem hf).2
  have hle : ¬qty > (objectOf r).quantity := by
    rw [gt_iff_lt, UInt32.lt_iff_toNat_lt]
    exact Nat.not_lt.mpr hqty
  rw [fillLeg, ledgerOf, hf, Option.map_some]
  dsimp only
  rw [Order.fill, if_neg hle]
  refine congrArg Except.ok (funext fun i => ?_)
  dsimp only
  by_cases hi : i = id
  · rw [hi, Function.update_self, ledgerOf, find?_reduce h, hf, Option.bind_some, reduced,
      if_neg (not_not.mpr hid)]
    by_cases hz : r.2.2.quantity - qty = 0
    · rw [if_pos hz, if_pos (by simpa [Order.isFilled, objectOf] using hz)]
      rfl
    · rw [if_neg hz, if_neg (by simpa [Order.isFilled, objectOf] using hz)]
      rfl
  · rw [Function.update_of_ne hi]
    exact congrArg (Option.map objectOf) (find?_reduce_of_ne h hi).symm

/-- An object is created for every entered order that has a quantity. -/
theorem enter_eq {requested : OrderType} {o : Resting}
    (htype : o.orderType = if requested = .market then .goodTillCancel else requested)
    (side : Side) (price : Price) :
    enter requested side price o =
      if o.quantity = 0 then .error Order.zeroQuantity else .ok (objectOf (side, price, o)) := by
  rw [enter, objectOf, htype]
  split_ifs with hm hz hz
  · rw [Order.createMarket, Order.create, if_pos hz]
    rfl
  · rw [Order.createMarket, Order.create, if_neg hz]
    rfl
  · rw [Order.create, if_pos hz]
  · rw [Order.create, if_neg hz]

/-- A sound line throws exactly if it gives an order the quantity zero. -/
theorem applyLine_eq (h : Distinct b) (hsound : Sound b event) :
    applyLine (ledgerOf b) event =
      if positive event then .ok (ledgerOf (applyEvent b event))
      else .error Order.zeroQuantity := by
  cases event with
  | entered requested side price o =>
    obtain ⟨hid, htype⟩ := hsound
    rw [applyLine, enter_eq htype, positive]
    by_cases hz : o.quantity = 0
    · rw [if_pos hz, if_neg (by simpa using hz)]
      rfl
    · rw [if_neg hz, if_pos (by simpa using hz)]
      refine congrArg Except.ok (funext fun i => ?_)
      rw [ledgerOf, applyEvent, find?_append h hid]
      by_cases hi : i = o.orderId
      · rw [if_pos hi, hi]
        exact Function.update_self o.orderId _ _
      · rw [if_neg hi]
        exact Function.update_of_ne hi _ _
  | traded t =>
    rw [applyLine, fillLeg_eq h hsound.1]
    exact fillLeg_eq (distinct_reduce h) hsound.2
  | withdrawn id =>
    refine congrArg Except.ok (funext fun i => ?_)
    rw [ledgerOf, applyEvent, find?_cancel h]
    by_cases hi : i = id
    · rw [if_pos hi, hi, Function.update_self]
      rfl
    · rw [if_neg hi, Function.update_of_ne hi, ledgerOf]
  | resized id qty =>
    obtain ⟨r, hf⟩ := Option.isSome_iff_exists.mp hsound
    rw [applyLine, ledgerOf, hf, Option.map_some, positive]
    dsimp only
    by_cases hz : qty = 0
    · rw [Order.updateQuantity, if_pos hz, if_neg (by simpa using hz)]
      rfl
    · rw [Order.updateQuantity, if_neg hz, if_pos (by simpa using hz)]
      refine congrArg Except.ok (funext fun i => ?_)
      dsimp only
      rw [ledgerOf, applyEvent, find?_requantify h]
      by_cases hi : i = id
      · rw [hi, Function.update_self, hf, Option.map_some, if_pos (find?_mem hf).2]
        rfl
      · rw [Function.update_of_ne hi]
        cases hr : b.find? i with
        | none => simp [ledgerOf, hr]
        | some r' =>
          have hne : r'.2.2.orderId ≠ id := fun heq => hi ((find?_mem hr).2.symm.trans heq)
          simp [ledgerOf, hr, hne]

/-- Sound lines are carried out on objects as the reader does, up to the first
quantity of zero. -/
theorem carryOut_records (h : Distinct b) (hrecords : Records b events b') :
    carryOut (ledgerOf b) events =
      if events.all positive then .ok (ledgerOf b') else .error Order.zeroQuantity := by
  induction hrecords with
  | nil b => rfl
  | @cons b b' event events hsound _ ih =>
    rw [carryOut, List.foldlM_cons, applyLine_eq h hsound, List.all_cons]
    by_cases hp : positive event = true
    · rw [if_pos hp, hp, Bool.true_and]
      exact ih (distinct_applyEvent h hsound)
    · rw [if_neg hp, Bool.eq_false_of_not_eq_true hp, Bool.false_and]
      rfl

/-- Carried out on order objects, the tape of any run throws exactly if it gives
an order the quantity zero, and then for that reason: no object is ever filled
for more than it has left, and none but Market orders is converted. Otherwise
the objects are the live orders of the engine. -/
theorem tape_carriedOut (poolSize : ℕ) (calls : List Call) :
    carryOut (fun _ => none) (tape (create poolSize) calls) =
      if (tape (create poolSize) calls).all positive then
        .ok fun id => (order? (after (create poolSize) calls) id).map objectOf
      else .error Order.zeroQuantity := by
  have hrep := represents_create poolSize
  have hafter := represents_after hrep calls
  have hempty : (fun _ => none) = ledgerOf BookOf.empty := by
    funext id
    rw [ledgerOf, find?_eq_none_iff.mpr fun side price o ho => by
      rw [BookOf.queue_empty] at ho
      cases ho]
    rfl
  have hledger : (fun id => (order? (after (create poolSize) calls) id).map objectOf) =
      ledgerOf (afterRef (RefEngine.create (slotCount poolSize)) calls).book :=
    funext fun id => by rw [← order?_represents hafter, ledgerOf]
  rw [hempty, hledger]
  exact carryOut_records (distinct_represents hrep) (records_tape hrep calls)

end Agreement

end OrderbookEngine.OrderObjects
