import OrderbookEngine.TradeCounts

/-!
# The account of the feed

Operations on orders leave rules, counters and the position in the feed alone.
The counters are those of the messages since they were last reset; position and
rules are those of the last snapshot and of the last rules that were set.
-/

namespace OrderbookEngine.FeedCounters

open MarketTypes PoolBook FeedCalls ReferenceBook SlotSteps CancelSimulation EngineSimulation
open RunRules Snapshots TradeCounts

variable {n : ℕ} {s s' : Orderbook n} {e : RefEngine} {msg : MarketDataMessage}

/-- Kinds of messages. -/
inductive MessageType where
  | newOrder
  | cancelOrder
  | modifyOrder
  | trade
  | bookSnapshot
  deriving DecidableEq, Repr

/-- The kind of a message. -/
def messageType : MarketDataMessage → MessageType
  | .newOrder _ => .newOrder
  | .cancelOrder _ => .cancelOrder
  | .modifyOrder _ => .modifyOrder
  | .trade => .trade
  | .bookSnapshot _ => .bookSnapshot

/-- Messages, each with the state it is handled in. -/
abbrev Handled (n : ℕ) := List (Orderbook n × MarketDataMessage)

/-- The messages since the last reset, after one more call. -/
def noted (s : Orderbook n) (msgs : Handled n) : Call → Handled n
  | .processMarketData msg _ => msgs ++ [(s, msg)]
  | .resetMarketDataStats => []
  | _ => msgs

/-- The messages since the last reset, after more calls. -/
def notedRun (s : Orderbook n) (msgs : Handled n) : List Call → Handled n
  | [] => msgs
  | call :: calls => notedRun (perform s call).2 (noted s msgs call) calls

/-- Sequence numbers of the snapshots among some calls. -/
def sequenceNumbers (calls : List Call) : List UInt64 :=
  calls.filterMap fun
    | .processMarketData (.bookSnapshot msg) _ => some msg.sequenceNumber
    | _ => none

/-- Rules that some calls set. -/
def rulesSet (calls : List Call) : List ExchangeRules :=
  calls.filterMap fun
    | .setExchangeRules rules _ => some rules
    | _ => none

/-- The counters are those of some messages. -/
structure Accounts (s : Orderbook n) (msgs : Handled n) : Prop where
  /-- All messages. -/
  messagesProcessed : s.stats.messagesProcessed = UInt64.ofNat msgs.length
  /-- New orders that did not raise. -/
  newOrders : s.stats.newOrders = UInt64.ofNat
    (msgs.countP fun m => messageType m.2 = .newOrder ∧ newOrderRaises m.1 m.2 = false)
  /-- Cancellations, of live orders or not. -/
  cancellations : s.stats.cancellations =
    UInt64.ofNat (msgs.countP fun m => messageType m.2 = .cancelOrder)
  /-- Modifications, with an effect or not. -/
  modifications : s.stats.modifications =
    UInt64.ofNat (msgs.countP fun m => messageType m.2 = .modifyOrder)
  /-- Trades of new orders and trade messages. -/
  trades : s.stats.trades = UInt64.ofNat (msgs.map fun m => counted m.1 m.2).sum
  /-- Snapshots. -/
  snapshots : s.stats.snapshots =
    UInt64.ofNat (msgs.countP fun m => messageType m.2 = .bookSnapshot)
  /-- New orders that found no free slot. -/
  errors : s.stats.errors = UInt64.ofNat (msgs.countP fun m => newOrderRaises m.1 m.2)

section Calls

/-- The counters after a message. -/
def counters (s : Orderbook n) (msg : MarketDataMessage) : MarketDataStats where
  messagesProcessed := s.stats.messagesProcessed + 1
  newOrders := s.stats.newOrders + UInt64.ofNat
    (if messageType msg = .newOrder ∧ newOrderRaises s msg = false then 1 else 0)
  cancellations := s.stats.cancellations +
    UInt64.ofNat (if messageType msg = .cancelOrder then 1 else 0)
  modifications := s.stats.modifications +
    UInt64.ofNat (if messageType msg = .modifyOrder then 1 else 0)
  trades := s.stats.trades + UInt64.ofNat (counted s msg)
  snapshots := s.stats.snapshots +
    UInt64.ofNat (if messageType msg = .bookSnapshot then 1 else 0)
  errors := s.stats.errors + UInt64.ofNat (if newOrderRaises s msg then 1 else 0)

/-- The position in the feed after a message. -/
def position (s : Orderbook n) : MarketDataMessage → UInt64 × Bool
  | .bookSnapshot msg => (msg.sequenceNumber, true)
  | _ => (s.lastSequenceNumber, s.isInitialized)

/-- Rules, counters and position after a call. -/
def settingsAfter (s : Orderbook n) : Call → ExchangeRules × MarketDataStats × UInt64 × Bool
  | .setExchangeRules rules _ => (rules, s.stats, s.lastSequenceNumber, s.isInitialized)
  | .processMarketData msg _ => (s.exchangeRules, counters s msg, position s msg)
  | .resetMarketDataStats => (s.exchangeRules, {}, s.lastSequenceNumber, s.isInitialized)
  | _ => settings s

/-- A snapshot that returns has moved the position to its sequence number. -/
theorem position_processSnapshot {msg : BookSnapshotMessage} {order : IterOrder}
    {s' : Orderbook n} (h : processSnapshot s msg order = .ret () s') :
    s'.lastSequenceNumber = msg.sequenceNumber ∧ s'.isInitialized = true := by
  rw [processSnapshot] at h
  cases hcancel : Orderbook.cancelEach ((s.iterate order).map Prod.fst) s with
  | ret u s₁ =>
    rw [hcancel, Outcome.ret_bind] at h
    cases hbids : addSnapshotLevels .buy msg.bids firstSyntheticId s₁ with
    | ret i s₂ =>
      rw [hbids, Outcome.ret_bind] at h
      cases hasks : addSnapshotLevels .sell msg.asks i s₂ with
      | ret j s₃ =>
        rw [hasks, Outcome.ret_bind] at h
        cases h
        exact ⟨rfl, rfl⟩
      | _ => rw [hasks] at h; cases h
    | _ => rw [hbids] at h; cases h
  | _ => rw [hcancel] at h; cases h

/-- Adding levels changes no rules. -/
theorem rules_addSnapshotLevels (side : Side) (levels : List SnapshotLevel)
    (syntheticId : OrderId) (e : RefEngine) :
    (RefEngine.addSnapshotLevels side levels syntheticId e).2.rules = e.rules := by
  induction levels generalizing syntheticId e with
  | nil => rfl
  | cons level rest ih =>
    rw [RefEngine.addSnapshotLevels]
    split_ifs
    · exact ih syntheticId e
    · obtain ⟨b, hb⟩ := addOrder_keeps e .goodTillCancel syntheticId side level.price
        level.quantity
      rw [ih, hb]

/-- A snapshot changes no rules. -/
theorem rules_processSnapshot (e : RefEngine) (msg : BookSnapshotMessage) :
    (e.processSnapshot msg).rules = e.rules := by
  rw [RefEngine.processSnapshot, rules_addSnapshotLevels, rules_addSnapshotLevels]

/-- A message does to the settings what its kind and its outcome say. -/
theorem settings_message (h : Represents s e) (msg : MarketDataMessage) (order : IterOrder) :
    settings (perform s (.processMarketData msg order)).2 =
      settingsAfter s (.processMarketData msg order) := by
  cases msg with
  | newOrder msg =>
    have hadd := addOrder_simulates h msg.orderType msg.orderId msg.side msg.price msg.quantity
    rw [perform, processMarketData, handleMessage, processNewOrder, settingsAfter, counters]
    cases hout : s.addOrder msg.orderType msg.orderId msg.side msg.price msg.quantity with
    | ret ts s' =>
      rw [hout] at hadd
      obtain ⟨e', -, -, hset⟩ := hadd.of_ret
      simp only [settings, Prod.mk.injEq] at hset
      simp [settle, settings, messageType, newOrderRaises, counted, tradesOf, position,
        Addition.outcome, hout, Outcome.raises, hset]
    | raise x s' =>
      rw [hout] at hadd
      obtain ⟨e', -, -, hset⟩ := hadd.of_raise
      simp only [settings, Prod.mk.injEq] at hset
      simp [settle, settings, messageType, newOrderRaises, counted, tradesOf, position,
        Addition.outcome, hout, Outcome.raises, hset]
    | diverge =>
      rw [hout] at hadd
      exact hadd.elim
  | cancelOrder msg =>
    obtain ⟨s', hret, -, hset⟩ := cancelOrder_agrees h msg.orderId
    rw [perform, processMarketData, handleMessage, processCancel, hret, settingsAfter, counters]
    simp only [settings, Prod.mk.injEq] at hset
    simp [settle, settings, messageType, newOrderRaises, counted, position, Outcome.bind, hset]
  | modifyOrder msg =>
    obtain ⟨ts, s', e', hret, -, -, hset⟩ := modifyOrder_returns h
      ⟨msg.orderId, msg.side, msg.newPrice, msg.newQuantity⟩
    rw [perform, processMarketData, handleMessage, processModify, hret, settingsAfter, counters]
    simp only [settings, Prod.mk.injEq] at hset
    simp [settle, settings, messageType, newOrderRaises, counted, position, Outcome.bind, hset]
  | trade =>
    simp [perform, processMarketData, handleMessage, processTrade, settingsAfter, settle,
      settings, counters, messageType, newOrderRaises, counted, position]
  | bookSnapshot msg =>
    obtain ⟨s', hret, hrep, hstats⟩ := processSnapshot_simulates h msg order
    obtain ⟨hnumber, hinit⟩ := position_processSnapshot hret
    rw [perform, processMarketData, handleMessage, hret, settingsAfter, counters]
    have hrules : s'.exchangeRules = s.exchangeRules := by
      rw [← hrep.rules, ← h.rules, rules_processSnapshot]
    simp [settle, settings, messageType, newOrderRaises, counted, position, hstats, hnumber, hinit,
      hrules]

/-- What a call does to rules, counters and position. -/
theorem settings_perform (h : Represents s e) (call : Call) :
    settings (perform s call).2 = settingsAfter s call := by
  cases call with
  | setExchangeRules rules usable => rfl
  | addOrder type id side price qty =>
    rw [perform, settle_snd]
    exact ((addOrder_simulates h type id side price qty).leaves s e).2
  | cancelOrder id =>
    obtain ⟨s', hret, -, hset⟩ := cancelOrder_agrees h id
    rw [perform, hret]
    exact hset
  | modifyOrder mod =>
    rw [perform, settle_snd]
    exact ((modifyOrder_simulates h mod).leaves s e).2
  | cancelGoodForDayOrders order =>
    obtain ⟨s', hret, -, hset⟩ := cancelGoodForDayOrders_agrees h order
    rw [perform, hret]
    exact hset
  | processMarketData msg order => exact settings_message h msg order
  | resetMarketDataStats => rfl

end Calls

section Inseparability

/-- No caller can tell the two states apart, now or later, by whatever can be
called or read. -/
structure Inseparable (s s' : Orderbook n) : Prop extends Indistinguishable s s' where
  /-- Rules, statistics and position of the feed, also after any later calls. -/
  settings : ∀ calls calls', List.Forall₂ Alike calls calls' →
    settings (after s' calls') = settings (after s calls)

/-- Additions with the outcome of one addition to the reference engine make the
same trades. -/
theorem tradesOf_congr {a a' : Addition n} {R R' : Orderbook n → RefEngine → Prop}
    {x : Outcome RefEngine Trades} (h : Agree R a.outcome x) (h' : Agree R' a'.outcome x) :
    tradesOf a' = tradesOf a := by
  rw [tradesOf, tradesOf]
  cases hout : a.outcome with
  | ret ts s₁ =>
    rw [hout] at h
    obtain ⟨e₁, rfl, -⟩ := h.of_ret
    obtain ⟨s₁', hret, -⟩ := h'.eq_ret
    rw [hret]
  | raise y s₁ =>
    rw [hout] at h
    obtain ⟨e₁, rfl, -⟩ := h.of_raise
    cases hout' : a'.outcome with
    | ret ts s₁' =>
      rw [hout'] at h'
      exact h'.elim
    | _ => rfl
  | diverge =>
    rw [hout] at h
    exact h.elim

/-- Engines that store the same orders count the same trades and errors. -/
theorem counters_congr (h : Represents s e) (h' : Represents s' e) (hstats : s'.stats = s.stats)
    (msg : MarketDataMessage) : counters s' msg = counters s msg := by
  have hsame : newOrderRaises s' msg = newOrderRaises s msg ∧ counted s' msg = counted s msg := by
    cases msg with
    | newOrder msg =>
      have hadd := addOrder_simulates h msg.orderType msg.orderId msg.side msg.price msg.quantity
      have hadd' := addOrder_simulates h' msg.orderType msg.orderId msg.side msg.price msg.quantity
      exact ⟨hadd'.raises_eq.trans hadd.raises_eq.symm,
        congrArg List.length (tradesOf_congr (a := ⟨s, _, _, _, _, _⟩) hadd hadd')⟩
    | _ => exact ⟨rfl, rfl⟩
  rw [counters, counters, hsame.1, hsame.2, hstats]

/-- A call does the same to equal settings of engines that store the same orders. -/
theorem settings_congr (h : Represents s e) (h' : Represents s' e)
    (hset : settings s' = settings s) {call call' : Call} (halike : Alike call call') :
    settings (perform s' call').2 = settings (perform s call).2 := by
  rw [settings_perform h, settings_perform h']
  have hset' := hset
  simp only [settings, Prod.mk.injEq] at hset'
  obtain ⟨hrules, hstats, hnumber, hinit⟩ := hset'
  have hmessage : ∀ msg order order', settingsAfter s' (.processMarketData msg order') =
      settingsAfter s (.processMarketData msg order) := by
    intro msg order order'
    rw [settingsAfter, settingsAfter, counters_congr h h' hstats, hrules]
    cases msg <;> simp [position, hnumber, hinit]
  cases halike with
  | goodForDay order order' => exact hset
  | message msg order order' => exact hmessage msg order order'
  | same call =>
    cases call with
    | processMarketData msg order => exact hmessage msg order order
    | setExchangeRules rules usable => simp [settingsAfter, hstats, hnumber, hinit]
    | resetMarketDataStats => simp [settingsAfter, hrules, hnumber, hinit]
    | _ => exact hset

/-- States that store the same reference engine with the same settings are
inseparable. -/
theorem inseparable_of_represents (h : Represents s e) (h' : Represents s' e)
    (hset : settings s' = settings s) : Inseparable s s' where
  toIndistinguishable := indistinguishable_of_represents h h'
  settings := by
    intro calls calls' halike
    induction halike generalizing s s' e with
    | nil => exact hset
    | cons hcall _ ih =>
      obtain ⟨-, hrep⟩ := perform_simulates h _
      obtain ⟨-, hrep'⟩ := perform_simulates h' _
      rw [← perform_alike hcall] at hrep'
      exact ih hrep hrep' (settings_congr h h' hset hcall)

section Orders

variable {type : OrderType} {id : OrderId} {side : Side} {price : Price} {qty : Quantity}
  {ts : Trades}

/-- An addition that returns leaves the settings alone. -/
theorem settings_of_addOrder (h : Represents s e)
    (hret : s.addOrder type id side price qty = .ret ts s') : settings s' = settings s := by
  have hadd := addOrder_simulates h type id side price qty
  rw [hret] at hadd
  obtain ⟨e', -, -, hset⟩ := hadd.of_ret
  exact hset

/-- Cancellations leave the settings alone. -/
theorem settings_of_cancelEach {ids : List OrderId} (h : Represents s e)
    (hret : Orderbook.cancelEach ids s = .ret () s') : settings s' = settings s := by
  obtain ⟨⟨L, hw, -⟩, -, -⟩ := h
  obtain ⟨s₁, L₁, hret₁, -, -, hset⟩ := cancelEach_simulates ids hw
  rw [hret] at hret₁
  cases hret₁
  exact hset

end Orders

end Inseparability

section Runs

variable {msgs : Handled n}

/-- A counter goes up by one if the message counts. -/
theorem ofNat_countP_append (p : Orderbook n × MarketDataMessage → Bool) (msgs : Handled n)
    (m : Orderbook n × MarketDataMessage) :
    UInt64.ofNat ((msgs ++ [m]).countP p) =
      UInt64.ofNat (msgs.countP p) + UInt64.ofNat (if p m = true then 1 else 0) := by
  rw [List.countP_append, List.countP_singleton, UInt64.ofNat_add]

/-- A message is one more in the account. -/
theorem Accounts.message (h : Accounts s msgs) {s' : Orderbook n}
    (hstats : s'.stats = counters s msg) : Accounts s' (msgs ++ [(s, msg)]) where
  messagesProcessed := by
    rw [hstats, counters, List.length_append, List.length_singleton, UInt64.ofNat_add,
      ← h.messagesProcessed]
    rfl
  newOrders := by
    rw [hstats, counters, h.newOrders, ofNat_countP_append]
    simp only [decide_eq_true_eq]
  cancellations := by
    rw [hstats, counters, h.cancellations, ofNat_countP_append]
    simp only [decide_eq_true_eq]
  modifications := by
    rw [hstats, counters, h.modifications, ofNat_countP_append]
    simp only [decide_eq_true_eq]
  trades := by
    rw [hstats, counters, h.trades, List.map_append, List.sum_append, List.map_singleton,
      List.sum_singleton, UInt64.ofNat_add]
  snapshots := by
    rw [hstats, counters, h.snapshots, ofNat_countP_append]
    simp only [decide_eq_true_eq]
  errors := by
    rw [hstats, counters, h.errors, ofNat_countP_append]

/-- No message is in the account after a reset. -/
theorem Accounts.reset (h : s.stats = {}) : Accounts s [] := by
  constructor <;> rw [h] <;> rfl

/-- An account depends on the counters alone. -/
theorem Accounts.congr (h : Accounts s msgs) {s' : Orderbook n} (hstats : s'.stats = s.stats) :
    Accounts s' msgs := by
  obtain ⟨h₁, h₂, h₃, h₄, h₅, h₆, h₇⟩ := h
  constructor <;> rw [hstats] <;> assumption

/-- A call keeps the account. -/
theorem Accounts.perform (hrep : Represents s e) (h : Accounts s msgs) (call : Call) :
    Accounts (perform s call).2 (noted s msgs call) := by
  have hstats := congrArg (fun x => x.2.1) (settings_perform hrep call)
  cases call with
  | processMarketData msg order => exact h.message hstats
  | resetMarketDataStats => exact Accounts.reset hstats
  | _ => exact h.congr hstats

/-- A run keeps the account. -/
theorem Accounts.run (hrep : Represents s e) (h : Accounts s msgs) (calls : List Call) :
    Accounts (after s calls) (notedRun s msgs calls) := by
  induction calls generalizing s e msgs with
  | nil => exact h
  | cons call calls ih => exact ih (perform_simulates hrep call).2 (h.perform hrep call)

/-- Position and rules after a run. -/
theorem settings_run (hrep : Represents s e) (calls : List Call) :
    (after s calls).exchangeRules = (rulesSet calls).getLast?.getD s.exchangeRules ∧
      (after s calls).lastSequenceNumber =
        (sequenceNumbers calls).getLast?.getD s.lastSequenceNumber ∧
      ((after s calls).isInitialized ↔ s.isInitialized ∨ sequenceNumbers calls ≠ []) := by
  induction calls using List.reverseRecOn with
  | nil => simp [rulesSet, sequenceNumbers]
  | append_singleton calls call ih =>
    obtain ⟨hrules, hnumber, hinit⟩ := ih
    have hset := settings_perform (represents_after hrep calls) call
    rw [sequenceNumbers] at hnumber hinit
    rw [rulesSet] at hrules
    rw [after_append, after_cons, after_nil, sequenceNumbers, rulesSet, List.filterMap_append,
      List.filterMap_append]
    cases call with
    | processMarketData msg order =>
      cases msg <;> simp only [settings, settingsAfter, position, Prod.mk.injEq] at hset <;>
        simp [hset, hrules, hnumber, hinit]
    | _ =>
      simp only [settings, settingsAfter, Prod.mk.injEq] at hset
      simp [hset, hrules, hnumber, hinit]

end Runs

/-- After any calls every counter is that of the messages since the last reset,
calls that are no messages count for nothing, and rules and position are those
of the last rules that were set and of the last snapshot. -/
theorem feed_accounted (poolSize : ℕ) (calls : List Call) :
    let s := after (create poolSize) calls
    Accounts s (notedRun (create poolSize) [] calls) ∧
      s.exchangeRules = (rulesSet calls).getLast?.getD {} ∧
      s.lastSequenceNumber = (sequenceNumbers calls).getLast?.getD 0 ∧
      (s.isInitialized ↔ sequenceNumbers calls ≠ []) := by
  have hrep := represents_create poolSize
  obtain ⟨hrules, hnumber, hinit⟩ := settings_run hrep calls
  refine ⟨(Accounts.reset rfl).run hrep calls, hrules, hnumber, hinit.trans ?_⟩
  simp [create]

end OrderbookEngine.FeedCounters
