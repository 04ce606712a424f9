import Mathlib.Algebra.Group.Int.Defs
import Mathlib.Algebra.Group.Nat.Defs
import OrderbookEngine.PoolBook

/-!
# Construction, feed handlers and runs of public calls

The feed handlers translate messages into order operations and keep counters.
A run is any list of public calls from a fresh engine. Calls that add orders do
so directly, by re-adding a re-priced order or by rebuilding from a snapshot;
the additions of a call are listed with the states they start from.
-/

namespace OrderbookEngine.FeedCalls

open SortedMap MarketTypes PoolBook

/-- Number of slots on a fresh free list: the loop of the constructor counts
down to 0 from one less than the pool size cast to int32_t. It is the pool size
itself below 2^31. The subtraction wraps here as in the compiled code; at 2^31
(modulo 2^32), where it overflows, the source leaves its meaning undefined. -/
def slotCount (poolSize : ℕ) : ℕ := ((Int32.ofNat poolSize - 1).toInt + 1).toNat

/-- Pool sizes for which the loop of the constructor starts without overflow. -/
def LoopDefined (poolSize : ℕ) : Prop := poolSize % 2 ^ 32 ≠ 2 ^ 31

instance (poolSize : ℕ) : Decidable (LoopDefined poolSize) :=
  inferInstanceAs (Decidable (poolSize % 2 ^ 32 ≠ 2 ^ 31))

/-- The number of slots as a wrapped integer. -/
theorem slotCount_eq (poolSize : ℕ) :
    slotCount poolSize = (((poolSize : ℤ) - 1).bmod (2 ^ 32) + 1).toNat := by
  rw [slotCount, Int32.toInt_sub, Int32.toInt_ofNat', show (1 : Int32).toInt = 1 from rfl,
    show (Int32.size : ℕ) = 2 ^ 32 from rfl, Int.bmod_sub_bmod]

/-- Every slot of a pool below 2^31 is free at first. -/
theorem slotCount_of_lt {poolSize : ℕ} (h : poolSize < 2 ^ 31) :
    slotCount poolSize = poolSize := by
  rw [slotCount_eq, Int.bmod]
  omega

/-- No more slots are freed than there are. -/
theorem slotCount_le (poolSize : ℕ) : slotCount poolSize ≤ poolSize := by
  rw [slotCount_eq, Int.bmod]
  omega

/-- No more slots are freed than there are nonnegative indices. -/
theorem slotCount_le_max (poolSize : ℕ) : slotCount poolSize ≤ 2 ^ 31 := by
  have hlt := (Int32.ofNat poolSize - 1).toInt_lt
  rw [slotCount]
  omega

/-- Without overflow the last index is never reached. -/
theorem slotCount_lt {poolSize : ℕ} (h : LoopDefined poolSize) : slotCount poolSize < 2 ^ 31 := by
  rw [LoopDefined] at h
  rw [slotCount_eq, Int.bmod]
  omega

/-- A fresh engine; slot 0 is on top of the free list. -/
def create (poolSize : ℕ) : Orderbook poolSize where
  pool := fun _ => {}
  freeList := (List.finRange poolSize).take (slotCount poolSize)
  bids := OrdMap.empty
  asks := OrdMap.empty
  orderMap := OrdMap.empty

variable {n : ℕ}

/-- Add the order of a message; an exception is only counted. -/
def processNewOrder (s : Orderbook n) (msg : NewOrderMessage) : Outcome (Orderbook n) Unit :=
  match s.addOrder msg.orderType msg.orderId msg.side msg.price msg.quantity with
  | .ret trades s =>
    .ret () { s with stats := { s.stats with
      newOrders := s.stats.newOrders + 1
      trades := s.stats.trades + UInt64.ofNat trades.length } }
  | .raise _ s => .ret () { s with stats := { s.stats with errors := s.stats.errors + 1 } }
  | .diverge => .diverge

/-- Cancel the order of a message. -/
def processCancel (s : Orderbook n) (msg : CancelOrderMessage) : Outcome (Orderbook n) Unit :=
  (s.cancelOrder msg.orderId).bind fun _ s =>
    .ret () { s with stats := { s.stats with cancellations := s.stats.cancellations + 1 } }

/-- The trades of the modification are dropped and not counted. -/
def processModify (s : Orderbook n) (msg : ModifyOrderMessage) : Outcome (Orderbook n) Unit :=
  (s.modifyOrder ⟨msg.orderId, msg.side, msg.newPrice, msg.newQuantity⟩).bind fun _ s =>
    .ret () { s with stats := { s.stats with modifications := s.stats.modifications + 1 } }

/-- Count a trade message. -/
def processTrade (s : Orderbook n) : Outcome (Orderbook n) Unit :=
  .ret () { s with stats := { s.stats with trades := s.stats.trades + 1 } }

/-- Synthetic identifiers start high. -/
def firstSyntheticId : OrderId := 0x8000000000000000

/-- Add the levels of one side of a snapshot. A level of quantity zero takes no
identifier, a refused one does. -/
def addSnapshotLevels (side : Side) : List SnapshotLevel → OrderId → Orderbook n →
    Outcome (Orderbook n) OrderId
  | [], syntheticId, s => .ret syntheticId s
  | level :: rest, syntheticId, s =>
    if level.quantity = 0 then addSnapshotLevels side rest syntheticId s
    else
      match s.addOrder .goodTillCancel syntheticId side level.price level.quantity with
      | .ret _ s => addSnapshotLevels side rest (syntheticId + 1) s
      | .raise _ s => addSnapshotLevels side rest (syntheticId + 1) s
      | .diverge => .diverge

/-- Cancel all live orders, then add the levels of both sides. -/
def processSnapshot (s : Orderbook n) (msg : BookSnapshotMessage) (order : IterOrder) :
    Outcome (Orderbook n) Unit :=
  (Orderbook.cancelEach ((s.iterate order).map Prod.fst) s).bind fun _ s =>
    (addSnapshotLevels .buy msg.bids firstSyntheticId s).bind fun syntheticId s =>
      (addSnapshotLevels .sell msg.asks syntheticId s).bind fun _ s =>
        .ret () { s with
          isInitialized := true
          lastSequenceNumber := msg.sequenceNumber
          stats := { s.stats with snapshots := s.stats.snapshots + 1 } }

/-- Dispatch a message to its handler. -/
def handleMessage (s : Orderbook n) (order : IterOrder) : MarketDataMessage →
    Outcome (Orderbook n) Unit
  | .newOrder msg => processNewOrder s msg
  | .cancelOrder msg => processCancel s msg
  | .modifyOrder msg => processModify s msg
  | .trade => processTrade s
  | .bookSnapshot msg => processSnapshot s msg order

/-- Process one message; an exception that reaches here is counted. -/
def processMarketData (s : Orderbook n) (msg : MarketDataMessage) (order : IterOrder) :
    Outcome (Orderbook n) Bool :=
  match handleMessage s order msg with
  | .ret _ s =>
    .ret true { s with stats := { s.stats with
      messagesProcessed := s.stats.messagesProcessed + 1 } }
  | .raise _ s => .ret false { s with stats := { s.stats with errors := s.stats.errors + 1 } }
  | .diverge => .diverge

/-- Process messages in order and count those that succeed. -/
def processMarketDataBatch : List (MarketDataMessage × IterOrder) → Orderbook n →
    Outcome (Orderbook n) ℕ
  | [], s => .ret 0 s
  | (msg, order) :: rest, s =>
    (processMarketData s msg order).bind fun ok s =>
      (processMarketDataBatch rest s).bind fun count s =>
        .ret (if ok then count + 1 else count) s

/-- Set all counters to zero. -/
def resetMarketDataStats (s : Orderbook n) : Orderbook n := { s with stats := {} }

/-- Public calls that change the engine. A batch of messages is a run of them. -/
inductive Call where
  | setExchangeRules (rules : ExchangeRules) (usable : rules.Usable)
  | addOrder (type : OrderType) (id : OrderId) (side : Side) (price : Price) (qty : Quantity)
  | cancelOrder (id : OrderId)
  | modifyOrder (mod : OrderModify)
  | cancelGoodForDayOrders (order : IterOrder)
  | processMarketData (msg : MarketDataMessage) (order : IterOrder)
  | resetMarketDataStats

/-- What a call gives back to its caller. -/
inductive Reply where
  | done
  | trades (trades : Trades)
  | processed (ok : Bool)
  | raised (exn : Exn)
  | stuck
  deriving DecidableEq

/-- The reply and the state of an outcome. A call that does not end leaves no
later state; the given one stands for it. -/
def settle {σ α : Type*} (reply : α → Reply) (s : σ) : Outcome σ α → Reply × σ
  | .ret value s' => (reply value, s')
  | .raise exn s' => (.raised exn, s')
  | .diverge => (.stuck, s)

/-- Execute one public call. -/
def perform (s : Orderbook n) : Call → Reply × Orderbook n
  | .setExchangeRules rules _ => (.done, s.setExchangeRules rules)
  | .addOrder type id side price qty =>
    settle .trades s (s.addOrder type id side price qty)
  | .cancelOrder id => settle (fun _ => .done) s (s.cancelOrder id)
  | .modifyOrder mod => settle .trades s (s.modifyOrder mod)
  | .cancelGoodForDayOrders order => settle (fun _ => .done) s (s.cancelGoodForDayOrders order)
  | .processMarketData msg order => settle .processed s (processMarketData s msg order)
  | .resetMarketDataStats => (.done, resetMarketDataStats s)

/-- The state after a list of calls. -/
def after (s : Orderbook n) (calls : List Call) : Orderbook n :=
  calls.foldl (fun s call => (perform s call).2) s

/-- No calls change nothing. -/
@[simp] theorem after_nil (s : Orderbook n) : after s [] = s := rfl

/-- The state after a call and later ones. -/
@[simp] theorem after_cons (s : Orderbook n) (call : Call) (calls : List Call) :
    after s (call :: calls) = after (perform s call).2 calls := rfl

/-- Runs are joined. -/
theorem after_append (s : Orderbook n) (calls calls' : List Call) :
    after s (calls ++ calls') = after (after s calls) calls' := by
  simp [after, List.foldl_append]

/-- States of runs of public calls on a fresh engine. -/
def Reachable (s : Orderbook n) : Prop := ∃ calls, after (create n) calls = s

/-- A fresh engine is reachable. -/
theorem Reachable.create : Reachable (create n) := ⟨[], rfl⟩

/-- Every call leads to a reachable state. -/
theorem Reachable.perform {s : Orderbook n} (h : Reachable s) (call : Call) :
    Reachable (perform s call).2 := by
  obtain ⟨calls, rfl⟩ := h
  exact ⟨calls ++ [call], by rw [after_append, after_cons, after_nil]⟩

/-- Arguments of one addition with the state it starts from. -/
structure Addition (n : ℕ) where
  /-- State before the addition. -/
  before : Orderbook n
  /-- Type that is asked for. -/
  type : OrderType
  /-- Identifier of the order. -/
  id : OrderId
  /-- Side of the order. -/
  side : Side
  /-- Its limit. -/
  price : Price
  /-- Its quantity. -/
  qty : Quantity

/-- The outcome of an addition. -/
def Addition.outcome (a : Addition n) : Outcome (Orderbook n) Trades :=
  a.before.addOrder a.type a.id a.side a.price a.qty

/-- The state an outcome leaves, or the given one if it does not end. -/
def leaves {σ α : Type*} (s : σ) : Outcome σ α → σ
  | .ret _ s' => s'
  | .raise _ s' => s'
  | .diverge => s

/-- The addition made by a modification: only a price change adds. -/
def modifyAdditions (s : Orderbook n) (mod : OrderModify) : List (Addition n) :=
  match s.orderMap.find? mod.orderId with
  | none => []
  | some idx =>
    let existing := s.pool idx
    if mod.side ≠ existing.side ∨ mod.price = existing.price then []
    else
      match s.cancelOrder mod.orderId with
      | .ret _ s => [⟨s, existing.orderType, mod.orderId, existing.side, mod.price, mod.quantity⟩]
      | _ => []

/-- The additions made for one side of a snapshot, with the identifier and the
state they leave. -/
def levelAdditions (side : Side) : List SnapshotLevel → OrderId → Orderbook n →
    List (Addition n) × OrderId × Orderbook n
  | [], syntheticId, s => ([], syntheticId, s)
  | level :: rest, syntheticId, s =>
    if level.quantity = 0 then levelAdditions side rest syntheticId s
    else
      let a : Addition n := ⟨s, .goodTillCancel, syntheticId, side, level.price, level.quantity⟩
      let later := levelAdditions side rest (syntheticId + 1) (leaves s a.outcome)
      (a :: later.1, later.2)

/-- The additions made by a snapshot. -/
def snapshotAdditions (s : Orderbook n) (msg : BookSnapshotMessage) (order : IterOrder) :
    List (Addition n) :=
  let s := leaves s (Orderbook.cancelEach ((s.iterate order).map Prod.fst) s)
  let bids := levelAdditions .buy msg.bids firstSyntheticId s
  bids.1 ++ (levelAdditions .sell msg.asks bids.2.1 bids.2.2).1

/-- The additions made by a public call. -/
def additions (s : Orderbook n) : Call → List (Addition n)
  | .addOrder type id side price qty => [⟨s, type, id, side, price, qty⟩]
  | .modifyOrder mod => modifyAdditions s mod
  | .processMarketData (.newOrder msg) _ =>
    [⟨s, msg.orderType, msg.orderId, msg.side, msg.price, msg.quantity⟩]
  | .processMarketData (.modifyOrder msg) _ =>
    modifyAdditions s ⟨msg.orderId, msg.side, msg.newPrice, msg.newQuantity⟩
  | .processMarketData (.bookSnapshot msg) order => snapshotAdditions s msg order
  | _ => []

/-- The additions made in a run of calls. -/
def runAdditions (s : Orderbook n) : List Call → List (Addition n)
  | [] => []
  | call :: calls => additions s call ++ runAdditions (perform s call).2 calls

/-- Additions of joined runs. -/
theorem runAdditions_append (s : Orderbook n) (calls calls' : List Call) :
    runAdditions s (calls ++ calls') =
      runAdditions s calls ++ runAdditions (after s calls) calls' := by
  induction calls generalizing s with
  | nil => rfl
  | cons call calls ih =>
    rw [List.cons_append, runAdditions, ih, runAdditions, List.append_assoc, after_cons]

end OrderbookEngine.FeedCalls
