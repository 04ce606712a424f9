import OrderbookEngine.PriceRules
import OrderbookEngine.RepricedBook
import OrderbookEngine.Snapshots

/-!
# Runs with other prices

A run whose prices and rules are exchanged for ones in the same order has the
same replies at the new prices. A change of the currency unit is such an
exchange: ticks and minimum value are multiplied like the prices.
-/

namespace OrderbookEngine.RepricedRuns

open MarketTypes PoolBook FeedCalls ReferenceBook ReferenceSteps RunRules Refinement BookState
open Additions PriceRules Snapshots RepricedBook

variable {π : Repricing} {e e' : RefEngine} {p : Price} {side : Side} {type : OrderType}

/-- The second rules accept at the new prices what the first ones accept. -/
def Converts (π : Repricing) (rules rules' : ExchangeRules) : Prop :=
  ∀ p qty, π.Dom p → meetsRules rules' (π.price p) qty = meetsRules rules p qty

/-- The second engine is the first one at the new prices. -/
structure Converted (π : Repricing) (e e' : RefEngine) : Prop where
  /-- Corresponding books. -/
  book : Repriced π e.book e'.book
  /-- Rules under which the same orders are valid. -/
  rules : Converts π e.rules e'.rules
  /-- Same capacity. -/
  capacity : e'.capacity = e.capacity

/-- Outcomes with the same trades but for their prices. -/
def Corresponds (π : Repricing) : Outcome RefEngine Trades → Outcome RefEngine Trades → Prop
  | .ret ts e, .ret ts' e' => ts' = ts.map π.trade ∧ Converted π e e'
  | .raise x e, .raise x' e' => x' = x ∧ Converted π e e'
  | _, _ => False

/-- A snapshot level at the converted price. -/
def priced (π : Repricing) (level : SnapshotLevel) : SnapshotLevel :=
  { level with price := π.price level.price }

/-- A message at the new prices. -/
inductive MessageCounterpart (π : Repricing) : MarketDataMessage → MarketDataMessage → Prop
  | newOrder (msg : NewOrderMessage) : π.Dom msg.price →
    MessageCounterpart π (.newOrder msg) (.newOrder { msg with price := π.price msg.price })
  | cancelOrder (msg : CancelOrderMessage) :
    MessageCounterpart π (.cancelOrder msg) (.cancelOrder msg)
  | modifyOrder (msg : ModifyOrderMessage) : π.Dom msg.newPrice →
    MessageCounterpart π (.modifyOrder msg)
      (.modifyOrder { msg with newPrice := π.price msg.newPrice })
  | trade : MessageCounterpart π .trade .trade
  | bookSnapshot (msg : BookSnapshotMessage) : (∀ level ∈ msg.bids ++ msg.asks, π.Dom level.price) →
    MessageCounterpart π (.bookSnapshot msg)
      (.bookSnapshot ⟨msg.bids.map (priced π), msg.asks.map (priced π), msg.sequenceNumber⟩)

/-- A call at the new prices. -/
inductive Counterpart (π : Repricing) : Call → Call → Prop
  | setExchangeRules {rules rules' : ExchangeRules} (usable : rules.Usable)
      (usable' : rules'.Usable) : Converts π rules rules' →
    Counterpart π (.setExchangeRules rules usable) (.setExchangeRules rules' usable')
  | addOrder (type : OrderType) (id : OrderId) (side : Side) {p : Price} (qty : Quantity) :
    π.Dom p → Counterpart π (.addOrder type id side p qty) (.addOrder type id side (π.price p) qty)
  | cancelOrder (id : OrderId) : Counterpart π (.cancelOrder id) (.cancelOrder id)
  | modifyOrder (mod : OrderModify) : π.Dom mod.price →
    Counterpart π (.modifyOrder mod) (.modifyOrder { mod with price := π.price mod.price })
  | cancelGoodForDayOrders (order : IterOrder) :
    Counterpart π (.cancelGoodForDayOrders order) (.cancelGoodForDayOrders order)
  | processMarketData {msg msg' : MarketDataMessage} (order : IterOrder) :
    MessageCounterpart π msg msg' →
    Counterpart π (.processMarketData msg order) (.processMarketData msg' order)
  | resetMarketDataStats : Counterpart π .resetMarketDataStats .resetMarketDataStats

/-- The reply at the new prices. -/
def reply (π : Repricing) : Reply → Reply
  | .trades ts => .trades (ts.map π.trade)
  | r => r

/-- The observation at the new prices. -/
def observation (π : Repricing) (o : Observation) : Observation :=
  { o with orderInfos := ⟨o.orderInfos.bids.map π.level, o.orderInfos.asks.map π.level⟩ }

section Orders

/-- Empty books correspond under corresponding rules. -/
theorem Converted.empty (h : Converted π e e') :
    Converted π { e with book := BookOf.empty } { e' with book := BookOf.empty } :=
  ⟨Repriced.empty π, h.rules, h.capacity⟩

/-- Corresponding outcomes leave corresponding engines. -/
theorem Corresponds.leaves {x x' : Outcome RefEngine Trades} (h : Corresponds π x x') :
    Converted π (leaves e x) (leaves e' x') := by
  cases x with
  | ret ts e₁ => cases x' with
    | ret ts' e₁' => exact h.2
    | _ => exact h.elim
  | raise exn e₁ => cases x' with
    | raise exn' e₁' => exact h.2
    | _ => exact h.elim
  | diverge => cases x' <;> exact h.elim

/-- Corresponding outcomes have corresponding replies. -/
theorem Corresponds.settle {x x' : Outcome RefEngine Trades} (h : Corresponds π x x') :
    (settle .trades e' x').1 = reply π (settle .trades e x).1 := by
  cases x with
  | ret ts e₁ => cases x' with
    | ret ts' e₁' => exact congrArg Reply.trades h.1
    | _ => exact h.elim
  | raise exn e₁ => cases x' with
    | raise exn' e₁' => exact congrArg Reply.raised h.1
    | _ => exact h.elim
  | diverge => cases x' <;> exact h.elim

/-- Market orders are converted to corresponding limits. -/
theorem convertMarket_converted (h : Converted π e e') (type : OrderType) (side : Side)
    (p : Price) : e'.convertMarket type side (π.price p) =
      (e.convertMarket type side p).map fun r => (r.1, π.price r.2) := by
  rw [RefEngine.convertMarket, RefEngine.convertMarket, h.book.best?, Option.isSome_map]
  split_ifs
  · rw [Option.map_some, π.price_market]
  · rfl
  · rfl

/-- The price a converted order is handled with is in the domain. -/
theorem dom_convertMarket (hp : π.Dom p) {r : OrderType × Price}
    (h : e.convertMarket type side p = some r) : π.Dom r.2 := by
  rw [RefEngine.convertMarket] at h
  split_ifs at h
  · cases h
    exact π.dom_market side
  · cases h
    exact hp

/-- The same orders pass validation. -/
theorem validateOrder_converted (h : Converted π e e') (id : OrderId) (hp : π.Dom p)
    (qty : Quantity) : e'.validateOrder id (π.price p) qty = e.validateOrder id p qty := by
  have hrules := h.rules p qty hp
  rw [RefEngine.validateOrder, RefEngine.validateOrder, h.book.hasOrder, Bool.and_assoc,
    Bool.and_assoc]
  exact congrArg _ hrules

/-- Adding an order at the new price. -/
theorem addOrder_converted (h : Converted π e e') (type : OrderType) (id : OrderId) (side : Side)
    (hp : π.Dom p) (qty : Quantity) : Corresponds π (e.addOrder type id side p qty)
      (e'.addOrder type id side (π.price p) qty) := by
  rw [addOrder_eq_checks, addOrder_eq_checks, convertMarket_converted h]
  cases hconvert : e.convertMarket type side p with
  | none => exact ⟨rfl, h⟩
  | some r =>
    have hr := dom_convertMarket hp hconvert
    obtain ⟨htrades, hbook⟩ := h.book.place r.1 id side hr qty
    simp only [Option.map_some, validateOrder_converted h id hr qty, h.book.canMatch side hr,
      h.book.size, h.capacity]
    split_ifs
    · exact ⟨rfl, h⟩
    · exact ⟨rfl, h⟩
    · exact ⟨htrades, hbook, h.rules, rfl⟩
    · exact ⟨rfl, h⟩

/-- Cancellations correspond. -/
theorem cancelOrder_converted (h : Converted π e e') (id : OrderId) :
    Converted π (e.cancelOrder id) (e'.cancelOrder id) :=
  ⟨h.book.filter _, h.rules, h.capacity⟩

/-- Modifying an order at the new price. -/
theorem modifyOrder_converted (h : Converted π e e') (mod : OrderModify) (hp : π.Dom mod.price) :
    Corresponds π (e.modifyOrder mod)
      (e'.modifyOrder { mod with price := π.price mod.price }) := by
  rw [RefEngine.modifyOrder, RefEngine.modifyOrder, h.book.find?]
  cases hf : e.book.find? mod.orderId with
  | none => exact ⟨rfl, h⟩
  | some r =>
    obtain ⟨side, price, o⟩ := r
    have hd := h.book.dom side price (List.ne_nil_of_mem (find?_mem hf).1)
    simp only [Option.map_some, Repricing.eq_iff hp hd]
    split_ifs
    · exact ⟨rfl, h⟩
    · exact ⟨rfl, h.book.requantify _ _, h.rules, h.capacity⟩
    · exact addOrder_converted (cancelOrder_converted h mod.orderId) _ _ _ hp _

end Orders

section Calls

/-- The levels of a snapshot are added alike, under the same identifiers. -/
theorem addSnapshotLevels_converted (side : Side) (levels : List SnapshotLevel)
    (hdom : ∀ level ∈ levels, π.Dom level.price) (syntheticId : OrderId) (h : Converted π e e') :
    (RefEngine.addSnapshotLevels side (levels.map (priced π)) syntheticId e').1 =
        (RefEngine.addSnapshotLevels side levels syntheticId e).1 ∧
      Converted π (RefEngine.addSnapshotLevels side levels syntheticId e).2
        (RefEngine.addSnapshotLevels side (levels.map (priced π)) syntheticId e').2 := by
  induction levels generalizing e e' syntheticId with
  | nil => exact ⟨rfl, h⟩
  | cons level rest ih =>
    obtain ⟨hlevel, hrest⟩ := List.forall_mem_cons.mp hdom
    rw [List.map_cons, RefEngine.addSnapshotLevels, RefEngine.addSnapshotLevels]
    have hadd := addOrder_converted h .goodTillCancel syntheticId side hlevel level.quantity
    have hqty : (priced π level).quantity = level.quantity := rfl
    rw [hqty]
    split_ifs
    · exact ih hrest syntheticId h
    · exact ih hrest (syntheticId + 1) (hadd.leaves)

/-- Corresponding messages have corresponding effects. -/
theorem processMarketData_converted (h : Converted π e e') {msg msg' : MarketDataMessage}
    (hmsg : MessageCounterpart π msg msg') :
    Converted π (e.processMarketData msg) (e'.processMarketData msg') := by
  cases hmsg with
  | newOrder msg hp => exact (addOrder_converted h _ _ _ hp _).leaves
  | cancelOrder msg => exact cancelOrder_converted h _
  | modifyOrder msg hp =>
    exact (modifyOrder_converted h ⟨msg.orderId, msg.side, msg.newPrice, msg.newQuantity⟩ hp).leaves
  | trade => exact h
  | bookSnapshot msg hdom =>
    obtain ⟨hid, hbids⟩ := addSnapshotLevels_converted .buy msg.bids
      (fun level hl => hdom level (List.mem_append_left _ hl)) firstSyntheticId h.empty
    have hasks := (addSnapshotLevels_converted .sell msg.asks
      (fun level hl => hdom level (List.mem_append_right _ hl))
      (RefEngine.addSnapshotLevels .buy msg.bids firstSyntheticId
        { e with book := BookOf.empty }).1 hbids).2
    rw [← hid] at hasks
    rw [RefEngine.processMarketData, RefEngine.processMarketData, RefEngine.processSnapshot,
      RefEngine.processSnapshot, ← hid]
    exact hasks

/-- A call at the new prices has the same reply at them. -/
theorem perform_converted (h : Converted π e e') {c c' : Call} (hc : Counterpart π c c') :
    (e'.perform c').1 = reply π (e.perform c).1 ∧
      Converted π (e.perform c).2 (e'.perform c').2 := by
  cases hc with
  | setExchangeRules usable usable' hrules => exact ⟨rfl, h.book, hrules, h.capacity⟩
  | addOrder type id side qty hp =>
    have hadd := addOrder_converted h type id side hp qty
    simp only [RefEngine.perform, settle_snd]
    exact ⟨hadd.settle, hadd.leaves⟩
  | cancelOrder id => exact ⟨rfl, cancelOrder_converted h id⟩
  | modifyOrder mod hp =>
    have hmod := modifyOrder_converted h mod hp
    simp only [RefEngine.perform, settle_snd]
    exact ⟨hmod.settle, hmod.leaves⟩
  | cancelGoodForDayOrders order => exact ⟨rfl, h.book.filter _, h.rules, h.capacity⟩
  | processMarketData order hmsg => exact ⟨rfl, processMarketData_converted h hmsg⟩
  | resetMarketDataStats => exact ⟨rfl, h⟩

/-- Corresponding engines show corresponding depth. -/
theorem observeRef_converted (h : Converted π e e') :
    observeRef e' = observation π (observeRef e) := by
  have hlive : e'.book.hasOrder = e.book.hasOrder := funext h.book.hasOrder
  rw [observeRef, h.book.size, hlive, h.capacity, h.book.depth, h.book.depth]
  rfl

/-- Histories of corresponding runs correspond. -/
theorem history_converted (h : Converted π e e') {calls calls' : List Call}
    (hcalls : List.Forall₂ (Counterpart π) calls calls') :
    history RefEngine.perform observeRef e' calls' =
        (history RefEngine.perform observeRef e calls).map
          (fun r => (reply π r.1, observation π r.2)) ∧
      Converted π (afterRef e calls) (afterRef e' calls') := by
  induction hcalls generalizing e e' with
  | nil => exact ⟨rfl, h⟩
  | @cons c c' calls calls' hc _ ih =>
    obtain ⟨hreply, hnext⟩ := perform_converted h hc
    obtain ⟨hlater, hafter⟩ := ih hnext
    rw [history, history, List.map_cons, hreply, observeRef_converted hnext, hlater]
    exact ⟨rfl, hafter⟩

end Calls

section Units

variable {k : ℕ} {rules : ExchangeRules}

/-- The price has a multiple between the market prices. -/
def Scales (k : ℕ) (p : Price) : Prop := -2 ^ 31 < k * p.toInt ∧ k * p.toInt < 2 ^ 31 - 1

instance (k : ℕ) (p : Price) : Decidable (Scales k p) := inferInstanceAs (Decidable (_ ∧ _))

/-- A price is one of the two market prices. -/
def Sentinel (p : Price) : Prop := p = Side.buy.marketPrice ∨ p = Side.sell.marketPrice

instance (p : Price) : Decidable (Sentinel p) := inferInstanceAs (Decidable (_ ∨ _))

/-- The price in a unit that is smaller by a factor. -/
def scaledPrice (k : ℕ) (p : Price) : Price :=
  if Sentinel p then p else Int32.ofInt (k * p.toInt)

/-- The rules in a unit that is smaller by a factor. -/
def scaledRules (k : ℕ) (rules : ExchangeRules) : ExchangeRules :=
  { rules with
    tickSize := Int32.ofInt (k * rules.tickSize.toInt)
    minNotional := Int32.ofInt (k * rules.minNotional.toInt) }

/-- Tick and minimum value have such multiples. -/
def ScalesRules (k : ℕ) (rules : ExchangeRules) : Prop :=
  Scales k rules.tickSize ∧ Scales k rules.minNotional

instance (k : ℕ) (rules : ExchangeRules) : Decidable (ScalesRules k rules) :=
  inferInstanceAs (Decidable (_ ∧ _))

/-- A product that fits is exact. -/
theorem toInt_scales (h : Scales k p) : (Int32.ofInt (k * p.toInt)).toInt = k * p.toInt :=
  Int32.toInt_ofInt_of_le (Int.le_of_lt h.1) (by have := h.2; omega)

/-- A price that is no sentinel is multiplied exactly. -/
theorem toInt_scaledPrice (h : Scales k p) (hp : ¬Sentinel p) :
    (scaledPrice k p).toInt = k * p.toInt := by
  rw [scaledPrice, if_neg hp, toInt_scales h]

/-- Prices between the sentinels. -/
theorem bounds_of_not_sentinel (hp : ¬Sentinel p) :
    -2 ^ 31 < p.toInt ∧ p.toInt < 2 ^ 31 - 1 := by
  have hlow := p.le_toInt
  have hhigh := p.toInt_lt
  have hmax : p.toInt ≠ Side.buy.marketPrice.toInt := fun h => hp (.inl (Int32.toInt_inj.mp h))
  have hmin : p.toInt ≠ Side.sell.marketPrice.toInt := fun h => hp (.inr (Int32.toInt_inj.mp h))
  simp only [Side.marketPrice] at hmax hmin
  have hmaxValue : Int32.maxValue.toInt = 2 ^ 31 - 1 := rfl
  have hminValue : Int32.minValue.toInt = -2 ^ 31 := rfl
  omega

/-- Multiples lie between the market prices like the prices themselves. -/
theorem scaledPrice_lt_of_sentinel {q : Price} (hp : Sentinel p) (hq : Scales k q)
    (hqs : ¬Sentinel q) :
    (scaledPrice k p < scaledPrice k q ↔ p < q) ∧
      (scaledPrice k q < scaledPrice k p ↔ q < p) := by
  obtain ⟨hlow, hhigh⟩ := bounds_of_not_sentinel hqs
  obtain ⟨hlow', hhigh'⟩ := hq
  have hmax : Side.buy.marketPrice.toInt = 2 ^ 31 - 1 := rfl
  have hmin : Side.sell.marketPrice.toInt = -2 ^ 31 := rfl
  have hsame : scaledPrice k p = p := if_pos hp
  rw [hsame, Int32.lt_iff_toInt_lt, Int32.lt_iff_toInt_lt, Int32.lt_iff_toInt_lt,
    Int32.lt_iff_toInt_lt, toInt_scaledPrice ⟨hlow', hhigh'⟩ hqs]
  rcases hp with rfl | rfl
  · rw [hmax]
    omega
  · rw [hmin]
    omega

/-- A smaller currency unit. -/
def scaled (k : ℕ) (hk : 0 < k) : Repricing where
  Dom p := Sentinel p ∨ Scales k p
  price := scaledPrice k
  lt_iff := by
    intro p q hp hq
    by_cases hps : Sentinel p
    · by_cases hqs : Sentinel q
      · rw [scaledPrice, scaledPrice, if_pos hps, if_pos hqs]
      · exact (scaledPrice_lt_of_sentinel hps (hq.resolve_left hqs) hqs).1
    · by_cases hqs : Sentinel q
      · exact (scaledPrice_lt_of_sentinel hqs (hp.resolve_left hps) hps).2
      · rw [Int32.lt_iff_toInt_lt, Int32.lt_iff_toInt_lt,
          toInt_scaledPrice (hp.resolve_left hps) hps, toInt_scaledPrice (hq.resolve_left hqs) hqs]
        exact Int.mul_lt_mul_left (Int.natCast_pos.mpr hk)
  dom_market side := by cases side <;> exact Or.inl (by decide)
  price_market side := by cases side <;> rfl

instance (k : ℕ) (hk : 0 < k) (p : Price) : Decidable ((scaled k hk).Dom p) :=
  inferInstanceAs (Decidable (_ ∨ _))

/-- Rules convert if they do so for the prices between the market prices. -/
theorem converts_of_lawful {rules' : ExchangeRules} (hk : 0 < k)
    (h : ∀ p qty, Scales k p → ¬Sentinel p →
      (LawfulPrice rules' (scaledPrice k p) qty ↔ LawfulPrice rules p qty))
    (hquantity : rules'.isValidQuantity = rules.isValidQuantity) :
    Converts (scaled k hk) rules rules' := by
  intro p qty hp
  rw [Bool.eq_iff_iff, meetsRules_iff, meetsRules_iff, hquantity]
  refine and_congr Iff.rfl ?_
  by_cases hps : Sentinel p
  · have hsame : (scaled k hk).price p = p := if_pos hps
    rw [hsame]
    exact iff_of_true (Or.inl hps) (Or.inl hps)
  · have hscales := hp.resolve_left hps
    have hnot : ¬Sentinel (scaledPrice k p) := by
      have hscaled := toInt_scaledPrice hscales hps
      obtain ⟨hlow, hhigh⟩ := hscales
      have hmax : Side.buy.marketPrice.toInt = 2 ^ 31 - 1 := rfl
      have hmin : Side.sell.marketPrice.toInt = -2 ^ 31 := rfl
      rintro (he | he)
      · rw [he] at hscaled
        omega
      · rw [he] at hscaled
        omega
    exact or_congr (iff_of_false hnot hps) (h p qty hscales hps)

/-- A positive factor keeps the sign. -/
theorem pos_mul_iff (hk : 0 < k) (x : ℤ) : 0 < k * x ↔ 0 < x := by
  have hpos := Int.mul_lt_mul_left (b := 0) (c := x) (Int.natCast_pos.mpr hk)
  rwa [Int.mul_zero] at hpos

/-- Rules in the smaller unit accept the same orders. -/
theorem converts_scaled (hk : 0 < k) (h : ScalesRules k rules) :
    Converts (scaled k hk) rules (scaledRules k rules) := by
  refine converts_of_lawful hk (fun p qty hp hps => ?_) rfl
  have hk' : (0 : ℤ) < k := Int.natCast_pos.mpr hk
  have hprice := toInt_scaledPrice hp hps
  have htick : (scaledRules k rules).tickSize.toInt = k * rules.tickSize.toInt := toInt_scales h.1
  have hnotional : (scaledRules k rules).minNotional.toInt = k * rules.minNotional.toInt :=
    toInt_scales h.2
  have hdvd : k * rules.tickSize.toInt ∣ k * p.toInt ↔ rules.tickSize.toInt ∣ p.toInt :=
    Int.mul_dvd_mul_iff_left (by omega)
  have hle : k * rules.minNotional.toInt ≤ k * p.toInt * qty.toNat ↔
      rules.minNotional.toInt ≤ p.toInt * qty.toNat := by
    rw [Int.mul_assoc]
    exact Int.mul_le_mul_left hk'
  constructor
  · rintro ⟨hpos, htick', hnotional'⟩
    rw [hprice] at hpos
    rw [hprice, htick] at htick'
    rw [hprice, hnotional] at hnotional'
    exact ⟨(pos_mul_iff hk _).mp hpos, hdvd.mp htick', hle.mp hnotional'⟩
  · rintro ⟨hpos, htick', hnotional'⟩
    refine ⟨?_, ?_, ?_⟩
    · rw [hprice]
      exact (pos_mul_iff hk _).mpr hpos
    · rw [hprice, htick]
      exact hdvd.mpr htick'
    · rw [hprice, hnotional]
      exact hle.mpr hnotional'

/-- The rules of a fresh engine accept every positive price in any unit. -/
theorem converts_default (hk : 0 < k) : Converts (scaled k hk) {} {} := by
  have hlawful : ∀ (p : Price) (qty : Quantity), LawfulPrice {} p qty ↔ 0 < p.toInt := by
    refine fun p qty => ⟨fun h => h.pos, fun hpos => ⟨hpos, ?_, ?_⟩⟩
    · exact Int.one_dvd _
    · exact Int.mul_nonneg (Int.le_of_lt hpos) (Int.natCast_nonneg _)
  refine converts_of_lawful hk (fun p qty hp hps => ?_) rfl
  rw [hlawful, hlawful, toInt_scaledPrice hp hps]
  exact pos_mul_iff hk _

end Units

/-- A run at new prices in the same order has the same replies and observations at
them, and the same queues. -/
theorem run_repriced (n : ℕ) (hrules : Converts π {} {}) {calls calls' : List Call}
    (hcalls : List.Forall₂ (Counterpart π) calls calls') :
    history perform observe (create n) calls' =
        (history perform observe (create n) calls).map
          (fun r => (reply π r.1, observation π r.2)) ∧
      ∀ side p, π.Dom p →
        listing (after (create n) calls') side (π.price p) =
          listing (after (create n) calls) side p := by
  have hrep := represents_create n
  have hfresh : Converted π (RefEngine.create (slotCount n)) (RefEngine.create (slotCount n)) :=
    ⟨Repriced.empty π, hrules, rfl⟩
  obtain ⟨hhistory, hafter⟩ := history_converted hfresh hcalls
  refine ⟨by rw [history_eq hrep, history_eq hrep, hhistory], fun side p hp => ?_⟩
  rw [listing_eq (represents_after hrep _), listing_eq (represents_after hrep _),
    hafter.book.queue side p hp]

/-- A bid, a sell into it, a re-priced remainder, a market order and a snapshot. -/
def pricedCalls : List Call :=
  [.setExchangeRules { tickSize := 5, minNotional := 100 } (by decide),
    .addOrder .goodTillCancel 1 .buy 100 7, .addOrder .goodForDay 2 .sell 95 9,
    .modifyOrder ⟨2, .sell, 105, 3⟩, .addOrder .market 3 .buy 0 5,
    .processMarketData (.bookSnapshot ⟨[⟨90, 4⟩], [⟨103, 4⟩, ⟨110, 6⟩], 1⟩) inKeyOrder]

/-- The same calls in tenths of a cent. -/
def tenthCalls : List Call :=
  [.setExchangeRules (scaledRules 10 { tickSize := 5, minNotional := 100 }) (by decide),
    .addOrder .goodTillCancel 1 .buy 1000 7, .addOrder .goodForDay 2 .sell 950 9,
    .modifyOrder ⟨2, .sell, 1050, 3⟩, .addOrder .market 3 .buy 0 5,
    .processMarketData (.bookSnapshot ⟨[⟨900, 4⟩], [⟨1030, 4⟩, ⟨1100, 6⟩], 1⟩) inKeyOrder]

/-- A run at ten times the prices, with a market order and a snapshot. -/
theorem run_repriced_tenths :
    history perform observe (create 5) tenthCalls =
        (history perform observe (create 5) pricedCalls).map
          (fun r => (reply (scaled 10 (by decide)) r.1, observation (scaled 10 (by decide)) r.2)) ∧
      ∀ side p, (scaled 10 (by decide)).Dom p →
        listing (after (create 5) tenthCalls) side ((scaled 10 (by decide)).price p) =
          listing (after (create 5) pricedCalls) side p := by
  refine run_repriced 5 ?_ ?_
  · exact converts_default (by decide)
  · refine .cons (.setExchangeRules _ _ (converts_scaled _ (by decide))) ?_
    refine .cons (.addOrder _ _ _ _ (by decide)) (.cons (.addOrder _ _ _ _ (by decide)) ?_)
    refine .cons (.modifyOrder _ (by decide)) (.cons (.addOrder _ _ _ _ (by decide)) ?_)
    exact .cons (.processMarketData _ (.bookSnapshot _ (by decide))) .nil

end OrderbookEngine.RepricedRuns
