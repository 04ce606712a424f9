import OrderbookEngine.Crossing
import OrderbookEngine.Modifications
import OrderbookEngine.Snapshots

/-!
# The trade counter of the feed

The handler of new orders adds the trades it gets to the counter, and a trade
message counts as one. The handlers of modifications and snapshots drop the
trades of their additions, so that the counter is right exactly if none of these
crosses the book, and if the number of trades fits into the counter.
-/

namespace OrderbookEngine.TradeCounts

open StepRuns MarketTypes PoolBook FeedCalls ReferenceBook LayoutInvariant ReferenceSteps
open EngineSimulation RunRules BookState Additions Crossing Modifications Snapshots

variable {n : ℕ} {s s' : Orderbook n} {e : RefEngine} {a : Addition n} {b : Book}

/-- Messages, each with the iteration order a snapshot would see. -/
abbrev Feed := List (MarketDataMessage × IterOrder)

/-- The calls that process a feed. -/
def feedCalls (msgs : Feed) : List Call := msgs.map fun m => .processMarketData m.1 m.2

/-- Number of trade messages. -/
def tradeMessages (msgs : Feed) : ℕ :=
  msgs.countP fun m =>
    match m.1 with
    | .trade => true
    | _ => false

/-- The trades of an addition; one that raises has none. -/
def tradesOf (a : Addition n) : Trades :=
  match a.outcome with
  | .ret ts _ => ts
  | _ => []

/-- Number of trades of some additions. -/
def tradeCount (adds : List (Addition n)) : ℕ := (adds.map fun a => (tradesOf a).length).sum

/-- What a message adds to the counter. -/
def counted (s : Orderbook n) : MarketDataMessage → ℕ
  | .newOrder msg =>
    (tradesOf ⟨s, msg.orderType, msg.orderId, msg.side, msg.price, msg.quantity⟩).length
  | .trade => 1
  | _ => 0

/-- The additions of a message whose trades are dropped. -/
def uncounted (s : Orderbook n) : MarketDataMessage → IterOrder → List (Addition n)
  | .modifyOrder msg, _ =>
    modifyAdditions s ⟨msg.orderId, msg.side, msg.newPrice, msg.newQuantity⟩
  | .bookSnapshot msg, order => snapshotAdditions s msg order
  | _, _ => []

/-- The additions of a feed whose trades are dropped. -/
def feedUncounted (s : Orderbook n) : Feed → List (Addition n)
  | [] => []
  | (msg, order) :: rest =>
    uncounted s msg order ++ feedUncounted (perform s (.processMarketData msg order)).2 rest

/-- A price that is in the book once an order has joined it. -/
def Joins (a : Addition n) (side : Side) (price : Price) : Prop :=
  RestsAt a.before side price ∨ side = a.side ∧ price = a.price

/-- With the order in the book some bid reaches some ask, and no market
remainders stop matching. -/
structure Crosses (a : Addition n) : Prop where
  /-- The order is accepted. -/
  accepted : accepted a ≠ none
  /-- With it some bid reaches an ask. -/
  reached : ∃ bid ask, Joins a .buy bid ∧ Joins a .sell ask ∧ ask ≤ bid
  /-- The sentinel pair does not rest. -/
  unblocked : ¬(Joins a .buy Side.buy.marketPrice ∧ Joins a .sell Side.sell.marketPrice)

section Counter

/-- The counter after a message. -/
theorem trades_message (h : Represents s e) (msg : MarketDataMessage) (order : IterOrder) :
    (perform s (.processMarketData msg order)).2.stats.trades =
      s.stats.trades + UInt64.ofNat (counted s msg) := by
  have hsame : s.stats.trades = s.stats.trades + UInt64.ofNat 0 := (UInt64.add_zero _).symm
  cases msg with
  | newOrder msg =>
    have hadd := addOrder_simulates h msg.orderType msg.orderId msg.side msg.price msg.quantity
    rw [perform, processMarketData, handleMessage, processNewOrder, counted, tradesOf,
      Addition.outcome]
    dsimp only
    cases hret : s.addOrder msg.orderType msg.orderId msg.side msg.price msg.quantity with
    | ret ts s' =>
      rw [hret] at hadd
      obtain ⟨e', -, -, hset⟩ := hadd.of_ret
      change s'.stats.trades + UInt64.ofNat ts.length = _
      rw [stats_of_settings hset]
    | raise x s' =>
      rw [hret] at hadd
      obtain ⟨e', -, -, hset⟩ := hadd.of_raise
      change s'.stats.trades = _
      rw [stats_of_settings hset]
      exact hsame
    | diverge => exact hsame
  | cancelOrder msg =>
    obtain ⟨s', hret, -, hset⟩ := cancelOrder_agrees h msg.orderId
    rw [perform, processMarketData, handleMessage, processCancel, hret]
    change s'.stats.trades = _
    rw [stats_of_settings hset]
    exact hsame
  | modifyOrder msg =>
    obtain ⟨ts, s', e', hret, -, -, hset⟩ := modifyOrder_returns h
      ⟨msg.orderId, msg.side, msg.newPrice, msg.newQuantity⟩
    rw [perform, processMarketData, handleMessage, processModify, hret]
    change s'.stats.trades = _
    rw [stats_of_settings hset]
    exact hsame
  | trade => rfl
  | bookSnapshot msg =>
    obtain ⟨s', hret, -, hstats⟩ := processSnapshot_simulates h msg order
    rw [perform, processMarketData, handleMessage, hret]
    change s'.stats.trades = _
    rw [hstats]
    exact hsame

/-- Trades of joined additions add up. -/
theorem tradeCount_append (adds adds' : List (Addition n)) :
    tradeCount (adds ++ adds') = tradeCount adds + tradeCount adds' := by
  rw [tradeCount, List.map_append, List.sum_append, tradeCount, tradeCount]

/-- All that a message counts or drops is a trade message or a trade. -/
theorem counted_add_uncounted (s : Orderbook n) (msg : MarketDataMessage) (order : IterOrder) :
    counted s msg + tradeCount (uncounted s msg order) =
      tradeMessages [(msg, order)] + tradeCount (additions s (.processMarketData msg order)) := by
  cases msg <;> simp [counted, uncounted, additions, tradeCount, tradeMessages]

/-- The counter after a feed, with all that was counted. -/
theorem trades_feed (h : Represents s e) (msgs : Feed) :
    ∃ total, (after s (feedCalls msgs)).stats.trades = s.stats.trades + UInt64.ofNat total ∧
      total + tradeCount (feedUncounted s msgs) =
        tradeMessages msgs + tradeCount (runAdditions s (feedCalls msgs)) := by
  induction msgs generalizing s e with
  | nil => exact ⟨0, (UInt64.add_zero _).symm, rfl⟩
  | cons m msgs ih =>
    obtain ⟨msg, order⟩ := m
    obtain ⟨total, htrades, htotal⟩ := ih (perform_simulates h (.processMarketData msg order)).2
    refine ⟨counted s msg + total, ?_, ?_⟩
    · rw [feedCalls, List.map_cons, after_cons]
      refine htrades.trans ?_
      rw [trades_message h, UInt64.ofNat_add, UInt64.add_assoc]
    · have hone := counted_add_uncounted s msg order
      have hmsgs : tradeMessages ((msg, order) :: msgs) =
          tradeMessages [(msg, order)] + tradeMessages msgs := by
        rw [tradeMessages, tradeMessages, tradeMessages, ← List.countP_append]
        rfl
      rw [feedUncounted, tradeCount_append, hmsgs, feedCalls, List.map_cons, runAdditions,
        tradeCount_append]
      rw [feedCalls] at htotal
      dsimp only
      omega

end Counter

section Crossing

/-- A book matches if some bid reaches some ask and the market prices of both
sides are not taken. -/
theorem matchStep_ne_none_iff (aggressorSide : Side) :
    Book.matchStep aggressorSide b ≠ none ↔
      (∃ bid ask, b.queue .buy bid ≠ [] ∧ b.queue .sell ask ≠ [] ∧ ask ≤ bid) ∧
        ¬(b.queue .buy Side.buy.marketPrice ≠ [] ∧ b.queue .sell Side.sell.marketPrice ≠ []) := by
  constructor
  · intro hne
    obtain ⟨⟨t, b'⟩, hstep⟩ := Option.ne_none_iff_exists'.mp hne
    obtain ⟨bid, x, xs, ask, y, ys, hb, ha, hlt, -⟩ := matchStep_eq_some_iff.mp hstep
    refine ⟨⟨bid, ask, ?_, ?_, Int32.not_lt.mp hlt⟩, fun hmarket => ?_⟩
    · rw [BookOf.queue_of_best? hb]
      simp
    · rw [BookOf.queue_of_best? ha]
      simp
    · have hsentinels : Sentinels b := fun side => by
        cases side with
        | buy => exact hmarket.1
        | sell => exact hmarket.2
      exact hne hsentinels.matchStep_eq_none
  · rintro ⟨⟨bid, ask, hbid, hask, hle⟩, hmarket⟩ hnone
    have huncrossed : UncrossedBook b := by
      have hsentinels : ¬Sentinels b := fun h => hmarket ⟨h .buy, h .sell⟩
      have hsame := matchBook_eq (Steps.refl b) hnone
      have hmatched : UncrossedBook (b.matchBook aggressorSide).2 :=
        uncrossedBook_matchBook hsentinels
      rwa [hsame] at hmatched
    rcases huncrossed bid ask hbid hask with hlt | ⟨rfl, rfl⟩
    · exact absurd hlt (Int32.not_lt.mpr hle)
    · exact hmarket ⟨hbid, hask⟩

/-- Matching has trades if its first step has one. -/
theorem matchBook_ne_nil_iff (aggressorSide : Side) :
    (b.matchBook aggressorSide).1 ≠ [] ↔ Book.matchStep aggressorSide b ≠ none := by
  have hsteps := matchBook_steps aggressorSide b
  have hhalts := matchBook_halts aggressorSide b
  refine not_congr ⟨fun hnil => ?_, fun hnone => ?_⟩
  · rw [hnil] at hsteps
    generalize (b.matchBook aggressorSide).2 = b' at hsteps hhalts
    cases hsteps
    exact hhalts
  · rw [matchBook_eq (Steps.refl b) hnone]

/-- An addition that may rest trades exactly if it crosses. -/
theorem tradesOf_eq_nil_iff (h : Represents a.before e) (hrest : MayRest a.type) :
    tradesOf a = [] ↔ ¬Crosses a := by
  cases hacc : accepted a with
  | none =>
    refine iff_of_true ?_ fun hcross => hcross.accepted hacc
    rw [tradesOf]
    cases hret : a.outcome with
    | ret ts s' => exact (effect_not_accepted h hacc).2 ts s' hret
    | raise x s' => rfl
    | diverge => rfl
  | some r =>
    obtain ⟨type, price⟩ := r
    obtain ⟨s', hret⟩ := (effect_accepted h hacc).2
    have hc := (accepted_eq_some_iff.mp hacc).2
    have hmarket : a.type ≠ .market := by rcases hrest with he | he <;> simp [he]
    obtain ⟨rfl, rfl⟩ := (checked_type hc).2.1 hmarket
    have hfok : a.type ≠ .fillOrKill := by rcases hrest with he | he <;> simp [he]
    have hjoins : ∀ side price, Joins a side price ↔
        (e.book.append a.side a.price ⟨a.id, a.type, a.qty⟩).queue side price ≠ [] := by
      intro side price
      rw [queue_append_ne_nil, Joins, restsAt_represents h, or_comm]
    have htrades : tradesOf a =
        ((e.book.append a.side a.price ⟨a.id, a.type, a.qty⟩).matchBook a.side).1 := by
      rw [tradesOf, hret, place, if_neg hfok]
    rw [htrades, ← not_iff_not, not_not, ← ne_eq, matchBook_ne_nil_iff, matchStep_ne_none_iff]
    simp only [← hjoins]
    constructor
    · rintro ⟨hreached, hunblocked⟩
      exact ⟨by simp [hacc], hreached, hunblocked⟩
    · exact fun hcross => ⟨hcross.reached, hcross.unblocked⟩

end Crossing

section Dropped

/-- Snapshot levels are added as GoodTillCancel orders. -/
theorem levelAdditions_type {side : Side} {levels : List SnapshotLevel} {id : OrderId}
    (ha : a ∈ (levelAdditions side levels id s).1) : a.type = .goodTillCancel := by
  induction levels generalizing id s with
  | nil => cases ha
  | cons level rest ih =>
    rw [levelAdditions] at ha
    split_ifs at ha
    · exact ih ha
    · rcases List.mem_cons.mp ha with rfl | ha
      · rfl
      · exact ih ha

/-- The additions whose trades are dropped are of orders that may rest. -/
theorem uncounted_mayRest (h : Represents s e) (hrests : RestsOnly e.book)
    {msg : MarketDataMessage} {order : IterOrder} (ha : a ∈ uncounted s msg order) :
    MayRest a.type := by
  cases msg with
  | modifyOrder msg =>
    rw [uncounted, modifyAdditions] at ha
    cases hm : s.orderMap.find? msg.orderId with
    | none => simp [hm] at ha
    | some i =>
      have hfind : e.book.find? msg.orderId =
          some ((s.pool i).side, (s.pool i).price, resting (s.pool i)) := by
        rw [h.find?_book, hm, Option.map_some]
      have hmay := hrests _ _ _ ((find?_eq_some_iff (distinct_represents h)).mp hfind).1
      simp only [hm] at ha
      split_ifs at ha
      · cases ha
      · obtain ⟨s₁, hret, -⟩ := cancelOrder_agrees h msg.orderId
        rw [hret, List.mem_singleton] at ha
        rw [ha]
        exact hmay
  | bookSnapshot msg =>
    rcases List.mem_append.mp ha with ha | ha
    · exact Or.inl (levelAdditions_type ha)
    · exact Or.inl (levelAdditions_type ha)
  | newOrder msg => cases ha
  | cancelOrder msg => cases ha
  | trade => cases ha

/-- Dropped trades are trades of additions. -/
theorem uncounted_subset {msg : MarketDataMessage} {order : IterOrder}
    (ha : a ∈ uncounted s msg order) : a ∈ additions s (.processMarketData msg order) := by
  cases msg <;> first | exact ha | cases ha

/-- Along a feed every dropped addition trades exactly if it crosses. -/
theorem feedUncounted_trades (h : Represents s e) (horderly : Orderly e) {msgs : Feed}
    (ha : a ∈ feedUncounted s msgs) : tradesOf a = [] ↔ ¬Crosses a := by
  induction msgs generalizing s e with
  | nil => cases ha
  | cons m msgs ih =>
    obtain ⟨msg, order⟩ := m
    rcases List.mem_append.mp ha with ha | ha
    · obtain ⟨e', hrep⟩ := additions_represent h _ (uncounted_subset ha)
      exact tradesOf_eq_nil_iff hrep (uncounted_mayRest h horderly.rests ha)
    · have hnext : Covers _ [] _ _ := covers_call carries_orderly h horderly
        (.processMarketData msg order) trivial
      exact ih (perform_simulates h (.processMarketData msg order)).2 hnext.2 ha

/-- Without trades no addition has any. -/
theorem tradeCount_eq_zero_iff (adds : List (Addition n)) :
    tradeCount adds = 0 ↔ ∀ a ∈ adds, tradesOf a = [] := by
  rw [tradeCount, List.sum_eq_zero_iff_forall_eq_nat]
  simp

/-- The counter of a fresh engine accounts for every trade exactly if no order
added by a modification or a snapshot crosses, and the counter is wide enough. -/
theorem trades_accounted_iff (n : ℕ) (msgs : Feed) :
    (after (create n) (feedCalls msgs)).stats.trades.toNat =
      tradeMessages msgs + tradeCount (runAdditions (create n) (feedCalls msgs)) ↔
    (∀ a ∈ feedUncounted (create n) msgs, ¬Crosses a) ∧
      tradeMessages msgs + tradeCount (runAdditions (create n) (feedCalls msgs)) < 2 ^ 64 := by
  have hrep := represents_create n
  obtain ⟨total, htrades, htotal⟩ := trades_feed hrep msgs
  have hzero : (create n).stats.trades = 0 := rfl
  have hdropped : tradeCount (feedUncounted (create n) msgs) = 0 ↔
      ∀ a ∈ feedUncounted (create n) msgs, ¬Crosses a := by
    rw [tradeCount_eq_zero_iff]
    exact forall₂_congr fun a ha => feedUncounted_trades hrep (orderly_create _) ha
  rw [htrades, hzero, UInt64.zero_add, UInt64.toNat_ofNat', ← htotal, ← hdropped]
  have hle := Nat.mod_le total (2 ^ 64)
  have hlt := Nat.mod_lt total (show 0 < 2 ^ 64 by decide)
  constructor
  · intro heq
    exact ⟨by omega, by omega⟩
  · rintro ⟨hnone, hfits⟩
    rw [hnone, Nat.add_zero] at hfits ⊢
    exact Nat.mod_eq_of_lt hfits

/-- A buy is re-priced to a resting sell. -/
def movedToAsk : Feed :=
  [(.newOrder ⟨1, .sell, 100, 5, .goodTillCancel⟩, inKeyOrder),
    (.newOrder ⟨2, .buy, 90, 5, .goodTillCancel⟩, inKeyOrder),
    (.modifyOrder ⟨2, .buy, 100, 5⟩, inKeyOrder)]

/-- The trade of the modification is not counted. -/
theorem movedToAsk_uncounted :
    (after (create 2) (feedCalls movedToAsk)).stats.trades.toNat ≠
      tradeMessages movedToAsk +
        tradeCount (runAdditions (create 2) (feedCalls movedToAsk)) := by
  decide +kernel

end Dropped

end OrderbookEngine.TradeCounts
