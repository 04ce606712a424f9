import OrderbookEngine.SortedMap

/-!
# Prices, orders, exchange rules and feed messages

The value types of the engine with the widths of the source: prices are signed
32-bit, quantities unsigned 32-bit and order identifiers unsigned 64-bit words.
Each side of the book has its own strict order of prices, best price first.
-/

namespace OrderbookEngine

-- in the outer namespace, where it takes precedence over the order types of Mathlib
/-- Order types of the source. -/
inductive OrderType where
  | goodTillCancel
  | immediateOrCancel
  | market
  | goodForDay
  | fillOrKill
  deriving DecidableEq, Repr

end OrderbookEngine

namespace OrderbookEngine.MarketTypes


/-- std::int32_t, in cents. -/
abbrev Price := Int32

/-- std::uint32_t; sums of quantities wrap. -/
abbrev Quantity := UInt32

/-- std::uint64_t. -/
abbrev OrderId := UInt64

/-- The smaller quantity as a natural number. -/
theorem toNat_min (p q : Quantity) : (min p q).toNat = min p.toNat q.toNat := by
  change (if p ≤ q then p else q).toNat = _
  split_ifs with h
  · rw [UInt32.le_iff_toNat_le] at h
    omega
  · rw [UInt32.le_iff_toNat_le] at h
    omega

/-- Both orders of a fill see the same quantity. -/
theorem quantity_min_comm (p q : Quantity) : min p q = min q p := by
  rw [← UInt32.toNat_inj, toNat_min, toNat_min, Nat.min_comm]

/-- A fill uses up one of the two quantities. -/
theorem quantity_min_cases (p q : Quantity) : min p q = p ∨ min p q = q := by
  rw [← UInt32.toNat_inj, ← UInt32.toNat_inj, toNat_min]
  omega

/-- Subtracting a fill never wraps. -/
theorem toNat_sub_min_left (p q : Quantity) : (p - min p q).toNat = p.toNat - q.toNat := by
  have h := toNat_min p q
  rw [UInt32.toNat_sub_of_le _ _ (by rw [UInt32.le_iff_toNat_le]; omega)]
  omega

/-- What a fill leaves of the second quantity. -/
theorem toNat_sub_min_right (p q : Quantity) : (q - min p q).toNat = q.toNat - p.toNat := by
  have h := toNat_min p q
  rw [UInt32.toNat_sub_of_le _ _ (by rw [UInt32.le_iff_toNat_le]; omega)]
  omega

/-- A quantity is zero if its value is. -/
theorem eq_zero_iff_toNat (q : Quantity) : q = 0 ↔ q.toNat = 0 := by
  rw [← UInt32.toNat_inj]
  rfl

/-- A fill that leaves nothing of an order is its quantity. -/
theorem min_eq_right_of_filled {p q : Quantity} (h : q - min p q = 0) : min p q = q := by
  rw [eq_zero_iff_toNat, toNat_sub_min_right] at h
  rw [← UInt32.toNat_inj, toNat_min]
  omega

/-- A fill that leaves something of an order uses the other one up. -/
theorem min_eq_left_of_partly {p q : Quantity} (h : q - min p q ≠ 0) : min p q = p :=
  (quantity_min_cases p q).resolve_right fun he => h (by rw [he, UInt32.sub_self])

/-- Sides of the book. -/
inductive Side where
  | buy
  | sell
  deriving DecidableEq, Repr

namespace Side

/-- The side an order matches against. -/
def opposite : Side → Side
  | buy => sell
  | sell => buy

/-- No side is opposite to itself. -/
theorem opposite_ne (side : Side) : side.opposite ≠ side := by
  cases side <;> simp [opposite]

/-- The side opposite to the opposite one. -/
@[simp] theorem opposite_opposite (side : Side) : side.opposite.opposite = side := by
  cases side <;> rfl

/-- There are two sides. -/
theorem eq_or_eq_opposite (side side' : Side) : side' = side ∨ side' = side.opposite := by
  cases side <;> cases side' <;> simp [opposite]

/-- The map order of a side: std::greater for bids and std::less for asks. -/
def before : Side → Price → Price → Prop
  | buy => fun p q => q < p
  | sell => fun p q => p < q

instance (side : Side) : DecidableRel side.before := fun p q =>
  match side with
  | buy => inferInstanceAs (Decidable (q < p))
  | sell => inferInstanceAs (Decidable (p < q))

instance (side : Side) : IsStrictTotalOrder Price side.before where
  trichotomous := by
    intro p q
    cases side <;> simp only [before] <;> grind
  irrefl := by
    intro p
    cases side <;> simp only [before] <;> grind
  trans := by
    intro p q s
    cases side <;> simp only [before] <;> grind

/-- The price a market order is converted to: INT_MAX to buy, INT_MIN to sell. -/
def marketPrice : Side → Price
  | buy => Int32.maxValue
  | sell => Int32.minValue

/-- A limit price on this side reaches a resting price on the other. -/
def crosses : Side → Price → Price → Prop
  | buy => fun limit price => price ≤ limit
  | sell => fun limit price => limit ≤ price

instance (side : Side) : DecidableRel side.crosses := fun p q =>
  match side with
  | buy => inferInstanceAs (Decidable (q ≤ p))
  | sell => inferInstanceAs (Decidable (p ≤ q))

/-- A limit that reaches a price reaches every better price. -/
theorem crosses_of_before {side : Side} {limit p p' : Price} (h : side.crosses limit p')
    (hb : side.opposite.before p p') : side.crosses limit p := by
  cases side <;> simp only [crosses, opposite, before] at * <;> grind

/-- A better limit reaches whatever a limit reaches. -/
theorem crosses_of_before_limit {side : Side} {limit limit' p : Price}
    (h : side.crosses limit' p) (hb : side.before limit limit') : side.crosses limit p := by
  cases side <;> simp only [crosses, before] at * <;> grind

/-- No price is better than the market price. -/
theorem not_before_marketPrice (side : Side) (p : Price) : ¬side.before p side.marketPrice := by
  cases side <;> simp only [before, marketPrice] <;> grind

end Side

instance : IsStrictTotalOrder OrderId (· < ·) where
  trichotomous := by intro a b; grind
  irrefl := by intro a; grind
  trans := by intro a b c; grind

/-- Trade between a bid and an ask. -/
structure Trade where
  /-- Identifier of the buyer. -/
  bidOrderId : OrderId
  /-- Identifier of the seller. -/
  askOrderId : OrderId
  /-- Price of the trade. -/
  price : Price
  /-- Quantity of the trade. -/
  quantity : Quantity
  deriving DecidableEq, Repr

/-- std::vector of trades in the order they execute. -/
abbrev Trades := List Trade

/-- Price and total quantity of one reported level. -/
structure LevelInfo where
  /-- Price of the level. -/
  price : Price
  /-- Its total quantity. -/
  quantity : Quantity
  deriving DecidableEq, Repr

/-- Reported levels of both sides, best first. -/
structure OrderbookLevelInfos where
  /-- Levels of bids, best first. -/
  bids : List LevelInfo
  /-- Levels of asks, best first. -/
  asks : List LevelInfo
  deriving DecidableEq, Repr

/-- Request to change a resting order. -/
structure OrderModify where
  /-- Order to be modified. -/
  orderId : OrderId
  /-- Its side. -/
  side : Side
  /-- New price. -/
  price : Price
  /-- New quantity. -/
  quantity : Quantity
  deriving DecidableEq, Repr

/-- Exchange trading rules with the defaults of the source. -/
structure ExchangeRules where
  /-- Minimum price increment. -/
  tickSize : Price := 1
  /-- Minimum quantity increment. -/
  lotSize : Quantity := 1
  /-- Least quantity of an order. -/
  minQuantity : Quantity := 1
  /-- Greatest quantity of an order. -/
  maxQuantity : Quantity := 1000000
  /-- Minimum price times quantity. -/
  minNotional : Price := 0
  deriving DecidableEq, Repr

namespace ExchangeRules

/-- A positive multiple of the tick; the remainder truncates like that of C++. -/
def isValidPrice (rules : ExchangeRules) (price : Price) : Bool :=
  if price ≤ 0 then false else price % rules.tickSize == 0

/-- Within the size bounds and a multiple of the lot. -/
def isValidQuantity (rules : ExchangeRules) (quantity : Quantity) : Bool :=
  if quantity < rules.minQuantity ∨ quantity > rules.maxQuantity then false
  else quantity % rules.lotSize == 0

/-- The 64-bit product reaches the minimum. -/
def isValidNotional (rules : ExchangeRules) (price : Price) (quantity : Quantity) : Bool :=
  let notional : Int64 := price.toInt64 * quantity.toUInt64.toInt64
  notional ≥ rules.minNotional.toInt64

/-- All three checks. -/
def isValidOrder (rules : ExchangeRules) (price : Price) (quantity : Quantity) : Bool :=
  rules.isValidPrice price && rules.isValidQuantity quantity &&
    rules.isValidNotional price quantity

/-- The largest multiple of the tick towards zero. -/
def roundToTick (rules : ExchangeRules) (price : Price) : Price :=
  if rules.tickSize = 1 then price else price / rules.tickSize * rules.tickSize

/-- The largest multiple of the lot below a quantity. -/
def roundToLot (rules : ExchangeRules) (quantity : Quantity) : Quantity :=
  if rules.lotSize = 1 then quantity else quantity / rules.lotSize * rules.lotSize

/-- Set the tick, or throw with a message. -/
def setTickSize (rules : ExchangeRules) (t : Price) : Except String ExchangeRules :=
  if t ≤ 0 then .error "tickSize must be positive" else .ok { rules with tickSize := t }

/-- Set the lot, or throw with a message. -/
def setLotSize (rules : ExchangeRules) (l : Quantity) : Except String ExchangeRules :=
  if l = 0 then .error "lotSize must be positive" else .ok { rules with lotSize := l }

/-- Rules that keep the remainders of the checks defined. -/
def Usable (rules : ExchangeRules) : Prop := rules.tickSize ≠ 0 ∧ rules.lotSize ≠ 0

instance (rules : ExchangeRules) : Decidable rules.Usable :=
  inferInstanceAs (Decidable (_ ∧ _))

end ExchangeRules

/-- New order; the timestamp is not read by the engine. -/
structure NewOrderMessage where
  /-- Identifier of the order. -/
  orderId : OrderId
  /-- Its side. -/
  side : Side
  /-- Its limit. -/
  price : Price
  /-- Its quantity. -/
  quantity : Quantity
  /-- Its type. -/
  orderType : OrderType

/-- Cancellation of one order. -/
structure CancelOrderMessage where
  /-- Order to be cancelled. -/
  orderId : OrderId

/-- Change of one order. -/
structure ModifyOrderMessage where
  /-- Order to be modified. -/
  orderId : OrderId
  /-- Its side. -/
  side : Side
  /-- New price. -/
  newPrice : Price
  /-- New quantity. -/
  newQuantity : Quantity

/-- One level of a snapshot; its order count is not read by the engine. -/
structure SnapshotLevel where
  /-- Price of the level. -/
  price : Price
  /-- Its quantity. -/
  quantity : Quantity

/-- Full depth of both sides. -/
structure BookSnapshotMessage where
  /-- Levels of bids. -/
  bids : List SnapshotLevel
  /-- Levels of asks. -/
  asks : List SnapshotLevel
  /-- Position of the snapshot in the feed. -/
  sequenceNumber : UInt64

/-- Any market data message. A trade message is only counted, so that its
contents are left out. -/
inductive MarketDataMessage where
  | newOrder (msg : NewOrderMessage)
  | cancelOrder (msg : CancelOrderMessage)
  | modifyOrder (msg : ModifyOrderMessage)
  | trade
  | bookSnapshot (msg : BookSnapshotMessage)

/-- Counters of the feed, without those that depend on the clock. -/
structure MarketDataStats where
  /-- Messages that were processed without an exception. -/
  messagesProcessed : UInt64 := 0
  /-- New orders that were added without an exception. -/
  newOrders : UInt64 := 0
  /-- Cancellation messages. -/
  cancellations : UInt64 := 0
  /-- Modification messages. -/
  modifications : UInt64 := 0
  /-- Trade messages, and trades of new orders. -/
  trades : UInt64 := 0
  /-- Snapshots. -/
  snapshots : UInt64 := 0
  /-- Exceptions. -/
  errors : UInt64 := 0

end OrderbookEngine.MarketTypes
