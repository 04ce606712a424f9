import OrderbookEngine.Failures

/-!
# Prices of trades

Market remainders rest at the market price of their side. The matching loop
never trades at such a price, but the second phase of FillOrKill trades at the
price of every resting order, so that it reports a market price exactly when it
executes against a remainder.
-/

namespace OrderbookEngine.TradePrices

open StepRuns MarketTypes PoolBook FeedCalls ReferenceBook ReferenceSteps EngineSimulation RunRules
open BookState Additions Execution Failures

variable {n : ℕ} {s : Orderbook n} {e : RefEngine} {b b' : Book} {side aggressorSide : Side}
  {price : Price} {o : Resting} {t : Trade} {ts : Trades} {a : Addition n}

/-- A price that is not one of the sentinels. -/
def Real (price : Price) : Prop := 0 < price ∧ price < Int32.maxValue

instance (price : Price) : Decidable (Real price) := inferInstanceAs (Decidable (_ ∧ _))

/-- A call submits real prices, except with market orders. -/
def RealPriced : Call → Prop
  | .addOrder type _ _ price _ => type ≠ .market → Real price
  | .modifyOrder mod => Real mod.price
  | .processMarketData (.newOrder msg) _ => msg.orderType ≠ .market → Real msg.price
  | .processMarketData (.modifyOrder msg) _ => Real msg.newPrice
  | .processMarketData (.bookSnapshot msg) _ =>
    (∀ level ∈ msg.bids, Real level.price) ∧ ∀ level ∈ msg.asks, Real level.price
  | _ => True

instance : DecidablePred RealPriced
  | .addOrder type _ _ price _ => inferInstanceAs (Decidable (type ≠ .market → Real price))
  | .modifyOrder mod => inferInstanceAs (Decidable (Real mod.price))
  | .processMarketData (.newOrder msg) _ =>
    inferInstanceAs (Decidable (msg.orderType ≠ .market → Real msg.price))
  | .processMarketData (.modifyOrder msg) _ => inferInstanceAs (Decidable (Real msg.newPrice))
  | .processMarketData (.bookSnapshot msg) _ => inferInstanceAs (Decidable
      ((∀ level ∈ msg.bids, Real level.price) ∧ ∀ level ∈ msg.asks, Real level.price))
  | .setExchangeRules _ _ => isTrue trivial
  | .cancelOrder _ => isTrue trivial
  | .cancelGoodForDayOrders _ => isTrue trivial
  | .processMarketData (.cancelOrder _) _ => isTrue trivial
  | .processMarketData .trade _ => isTrue trivial
  | .resetMarketDataStats => isTrue trivial

/-- A trade of an addition has a real price, and with a market remainder the
limit of the other party. -/
def RealTrade (a : Addition n) (t : Trade) : Prop :=
  Real t.price ∧ ∃ bidLimit askLimit, Party a .buy t.bidOrderId bidLimit ∧
    Party a .sell t.askOrderId askLimit ∧
    (bidLimit = Side.buy.marketPrice → t.price = askLimit) ∧
    (askLimit = Side.sell.marketPrice → t.price = bidLimit)

/-- All trades of an addition are of this kind. -/
def RealTrades (a : Addition n) : Prop :=
  ∀ ts s', a.outcome = .ret ts s' → ∀ t ∈ ts, RealTrade a t

/-- A FillOrKill order for some quantity finds all of it, and a market remainder
among it. -/
def HitsRemainder (a : Addition n) : Prop :=
  ∃ price, accepted a = some (.fillOrKill, price) ∧ 0 < a.qty ∧
    RestsAt a.before a.side.opposite a.side.opposite.marketPrice ∧
    a.qty.toNat ≤ withinReach a.before a.side price

section Submitted

/-- The additions of a call submit the prices of the call. -/
theorem realPriced_additions {call : Call} (h : RealPriced call) :
    ∀ a ∈ additions s call, a.type ≠ .market → Real a.price := by
  have hmodify : ∀ mod : OrderModify, Real mod.price →
      ∀ a ∈ modifyAdditions s mod, Real a.price := by
    intro mod hmod a ha
    rw [modifyAdditions] at ha
    cases hm : s.orderMap.find? mod.orderId with
    | none => simp [hm] at ha
    | some i =>
      simp only [hm] at ha
      split_ifs at ha
      · cases ha
      · split at ha
        · rw [List.mem_singleton.mp ha]
          exact hmod
        · cases ha
  have hlevels : ∀ (side : Side) (levels : List SnapshotLevel) (id : OrderId) (s : Orderbook n),
      (∀ level ∈ levels, Real level.price) →
      ∀ a ∈ (levelAdditions side levels id s).1, Real a.price := by
    intro side levels
    induction levels with
    | nil => simp [levelAdditions]
    | cons level rest ih =>
      intro id s hreal a ha
      rw [List.forall_mem_cons] at hreal
      rw [levelAdditions] at ha
      split_ifs at ha
      · exact ih _ _ hreal.2 a ha
      · rcases List.mem_cons.mp ha with rfl | ha
        · exact hreal.1
        · exact ih _ _ hreal.2 a ha
  intro a ha hne
  cases call with
  | addOrder type id side price qty =>
    obtain rfl := List.mem_singleton.mp ha
    exact h hne
  | modifyOrder mod => exact hmodify mod h a ha
  | processMarketData msg order =>
    cases msg with
    | newOrder msg =>
      obtain rfl := List.mem_singleton.mp ha
      exact h hne
    | modifyOrder msg =>
      exact hmodify ⟨msg.orderId, msg.side, msg.newPrice, msg.newQuantity⟩ h a ha
    | bookSnapshot msg =>
      rcases List.mem_append.mp ha with ha | ha
      · exact hlevels _ _ _ _ h.1 a ha
      · exact hlevels _ _ _ _ h.2 a ha
    | cancelOrder msg => cases ha
    | trade => cases ha
  | setExchangeRules rules usable => cases ha
  | cancelOrder id => cases ha
  | cancelGoodForDayOrders order => cases ha
  | resetMarketDataStats => cases ha

/-- Calls at real prices make additions at real prices. -/
theorem realPriced_runAdditions {calls : List Call} (h : ∀ call ∈ calls, RealPriced call) :
    ∀ a ∈ runAdditions s calls, a.type ≠ .market → Real a.price := by
  induction calls generalizing s with
  | nil => simp [runAdditions]
  | cons call calls ih =>
    rw [List.forall_mem_cons] at h
    intro a ha
    rcases List.mem_append.mp ha with ha | ha
    · exact realPriced_additions h.1 a ha
    · exact ih h.2 a ha

/-- An accepted order is at a real price or at the market price of its side. -/
theorem accepted_price (hreal : a.type ≠ .market → Real a.price) {type : OrderType}
    (ha : accepted a = some (type, price)) : Real price ∨ price = a.side.marketPrice := by
  obtain ⟨-, hlimit, hmarket⟩ := checked_type (accepted_eq_some_iff.mp ha).2
  by_cases htype : a.type = .market
  · exact Or.inr (hmarket htype).2
  · rw [(hlimit htype).2]
    exact Or.inl (hreal htype)

end Submitted

section Prices

/-- The orders of a book are at real prices or market remainders. -/
def PricedBook (b : Book) : Prop :=
  ∀ side price, b.queue side price ≠ [] → Real price ∨ price = side.marketPrice

/-- The orders of a book are parties of an addition. -/
def PartiesOf (a : Addition n) (b : Book) : Prop :=
  ∀ side price, ∀ o ∈ b.queue side price, Party a side o.orderId price

/-- The price of a match is real unless both parties are market remainders. -/
theorem tradePrice_real (aggressorSide : Side) {bidPrice askPrice : Price}
    (hbid : Real bidPrice ∨ bidPrice = Side.buy.marketPrice)
    (hask : Real askPrice ∨ askPrice = Side.sell.marketPrice)
    (hmarket : ¬(bidPrice = Side.buy.marketPrice ∧ askPrice = Side.sell.marketPrice)) :
    Real (tradePrice aggressorSide bidPrice askPrice) ∧
      (bidPrice = Side.buy.marketPrice → tradePrice aggressorSide bidPrice askPrice = askPrice) ∧
      (askPrice = Side.sell.marketPrice →
        tradePrice aggressorSide bidPrice askPrice = bidPrice) := by
  simp only [Side.marketPrice, Real, tradePrice] at *
  split_ifs <;> grind

/-- A book that shrinks gets no other parties. -/
theorem PartiesOf.shrinks (h : PartiesOf a b) (hsub : Shrinks b b') : PartiesOf a b' := by
  intro side price o ho
  obtain ⟨x, hx, hxo⟩ := hsub.mem ho
  rw [← hxo]
  exact h side price x hx

/-- A book that shrinks gets no other prices. -/
theorem PricedBook.shrinks (h : PricedBook b) (hsub : Shrinks b b') : PricedBook b' :=
  fun side price hne => h side price (hsub.ne_nil hne)

/-- An order at a real or market price keeps a book priced. -/
theorem PricedBook.append (h : PricedBook b) (hprice : Real price ∨ price = side.marketPrice) :
    PricedBook (b.append side price o) := by
  intro side' price' hne
  rw [Book.append, BookOf.queue_setQueue] at hne
  split_ifs at hne with he
  · rwa [he.1, he.2]
  · exact h side' price' hne

/-- Before an accepted order is matched, everyone in the book is a party. -/
theorem partiesOf_append (h : Represents a.before e) {type : OrderType}
    (hacc : accepted a = some (type, price)) :
    PartiesOf a (e.book.append a.side price ⟨a.id, type, a.qty⟩) := by
  have hid := (checked_unused h (accepted_eq_some_iff.mp hacc).2).2
  intro side limit o ho
  refine party_of_find? (o := o) h hacc ?_
  rw [find?_eq_some_iff (distinct_append (distinct_represents h) hid)]
  exact ⟨ho, rfl⟩

/-- The parties of an addition rest or come with it. -/
theorem partiesOf_book (h : Represents a.before e) : PartiesOf a e.book := by
  intro side limit o ho
  refine Or.inl ⟨o, ?_⟩
  rw [← order?_represents h, find?_eq_some_iff (distinct_represents h)]
  exact ⟨ho, rfl⟩

/-- A matching step trades at a real price. -/
theorem realTrade_matchStep (hb : PartiesOf a b) (hp : PricedBook b)
    (h : Book.matchStep aggressorSide b = some (t, b')) : RealTrade a t := by
  obtain ⟨bidPrice, bid, bids, askPrice, ask, asks, hbid, hask, -, hmarket, rfl, -⟩ :=
    matchStep_eq_some_iff.mp h
  have hbq := BookOf.queue_of_best? hbid
  have haq := BookOf.queue_of_best? hask
  obtain ⟨hreal, hbuy, hsell⟩ := tradePrice_real aggressorSide
    (hp .buy bidPrice (by simp [hbq])) (hp .sell askPrice (by simp [haq])) hmarket
  exact ⟨hreal, bidPrice, askPrice, hb .buy bidPrice bid (by simp [hbq]),
    hb .sell askPrice ask (by simp [haq]), hbuy, hsell⟩

/-- A sweep that meets no market remainder trades at real prices. -/
theorem realTrade_sweepSteps (h : Represents a.before e) (hp : PricedBook e.book)
    (hacc : accepted a = some (.fillOrKill, price)) (hreal : Real price)
    (hno : e.book.queue a.side.opposite a.side.opposite.marketPrice = [])
    (hsteps : Steps (Book.sweepStep a.side a.id price) (a.qty, e.book) ts (0, b')) :
    ∀ t ∈ ts, RealTrade a t := by
  intro t ht
  obtain ⟨ts', c, c', hsteps', hstep⟩ := hsteps.mem ht
  have hsub := shrinks_sweepSteps hsteps'
  obtain ⟨left, b₁⟩ := c
  obtain ⟨left', b₂⟩ := c'
  obtain ⟨limit, o, rest, -, hbest, -, rfl, -, -⟩ := sweepStep_eq_some_iff.mp hstep
  have hq := BookOf.queue_of_best? hbest
  have hne : e.book.queue a.side.opposite limit ≠ [] := hsub.ne_nil (by simp [hq])
  have hlimit : Real limit :=
    (hp _ limit hne).resolve_right fun he => hne (he ▸ hno)
  have hresting : Party a a.side.opposite o.orderId limit :=
    (partiesOf_book h).shrinks hsub _ limit o (by simp [hq])
  have hincoming : Party a a.side a.id price := Or.inr ⟨rfl, rfl, _, hacc⟩
  revert hresting hincoming
  simp only [Real, RealTrade, Book.tradeOf, Side.marketPrice] at *
  cases a.side with
  | buy => exact fun hr hi => ⟨hlimit, price, limit, hi, hr, by grind, by grind⟩
  | sell => exact fun hr hi => ⟨hlimit, limit, price, hr, hi, by grind, by grind⟩

end Prices

/-- What a FillOrKill order executes has real prices unless it hits a remainder. -/
theorem realTrade_fillOrKill (h : Represents a.before e) (hp : PricedBook e.book)
    (hacc : accepted a = some (.fillOrKill, price)) (hsubmit : a.type ≠ .market → Real a.price)
    (hno : ¬HitsRemainder a)
    (hsteps : Steps (Book.sweepStep a.side a.id price) (a.qty, e.book) ts (0, b')) :
    ∀ t ∈ ts, RealTrade a t := by
  by_cases hz : a.qty = 0
  · rw [hz] at hsteps
    rw [(sweepSteps_zero hsteps).1]
    simp
  obtain ⟨-, hlimit, hmarket⟩ := checked_type (accepted_eq_some_iff.mp hacc).2
  have htype : a.type ≠ .market := fun he => by simpa using (hmarket he).1
  refine realTrade_sweepSteps h hp hacc ((hlimit htype).2 ▸ hsubmit htype) ?_ hsteps
  by_contra hrests
  refine hno ⟨price, hacc, by grind, ?_, ?_⟩
  · rwa [restsAt_represents h]
  · have havail := available_sweepSteps hsteps
    rw [withinReach_eq h]
    simpa using Nat.le.intro ((Nat.add_comm _ _).trans havail)

section Runs

/-- An addition that hits no remainder trades at real prices. -/
theorem realTrades_addition (h : Represents a.before e) (hp : PricedBook e.book)
    (hsubmit : a.type ≠ .market → Real a.price) (hno : ¬HitsRemainder a) :
    PricedBook (effect a e).book ∧ RealTrades a := by
  cases ha : accepted a with
  | none =>
    obtain ⟨heffect, hout⟩ := effect_not_accepted h ha
    rw [heffect]
    refine ⟨hp, fun ts s' hret t ht => ?_⟩
    rw [hout ts s' hret] at ht
    cases ht
  | some r =>
    obtain ⟨type, price⟩ := r
    obtain ⟨heffect, s', hret⟩ := effect_accepted h ha
    have hparties := partiesOf_append h ha
    have hplace : (PricedBook (place e.book type a.id a.side price a.qty).2 ∧
          PartiesOf a (place e.book type a.id a.side price a.qty).2) ∧
        ∀ t ∈ (place e.book type a.id a.side price a.qty).1, RealTrade a t := place_rule
      (I := fun b => PricedBook b ∧ PartiesOf a b)
      ⟨hp, partiesOf_book h⟩ (fun _ => ⟨hp.append (accepted_price hsubmit ha), hparties⟩)
      (fun b t b' hb hs => ⟨⟨hb.1.shrinks (matchStep_ids_sublist hs),
        hb.2.shrinks (matchStep_ids_sublist hs)⟩, realTrade_matchStep hb.2 hb.1 hs⟩)
      (fun b hb => ⟨hb.1.shrinks (shrinks_filter b _), hb.2.shrinks (shrinks_filter b _)⟩)
      (fun htype ts b' hsteps => by
        have hsub := shrinks_sweepSteps hsteps
        subst htype
        exact ⟨⟨hp.shrinks hsub, (partiesOf_book h).shrinks hsub⟩,
          realTrade_fillOrKill h hp ha hsubmit hno hsteps⟩)
    rw [heffect]
    refine ⟨hplace.1.1, fun ts s'' hret' => ?_⟩
    rw [hret] at hret'
    cases hret'
    exact hplace.2

/-- A FillOrKill order that executes against a market remainder trades at its price. -/
theorem not_realTrades_of_hitsRemainder (h : Represents a.before e) (hhits : HitsRemainder a) :
    ¬RealTrades a := by
  obtain ⟨price, ha, hpos, hrests, hreach⟩ := hhits
  obtain ⟨-, s', hret⟩ := effect_accepted h ha
  intro hall
  have havail : ¬e.book.available a.side price < a.qty.toNat := by
    rw [← withinReach_eq h]
    omega
  have hsteps := fillOrKill_steps a.id havail
  have hplace : place e.book .fillOrKill a.id a.side price a.qty =
      e.book.fillOrKill a.side a.id price a.qty := if_pos rfl
  rw [hplace] at hret
  have htrades := hall _ _ hret
  generalize hts : (e.book.fillOrKill a.side a.id price a.qty).1 = ts at hsteps htrades
  generalize (e.book.fillOrKill a.side a.id price a.qty).2 = b' at hsteps
  generalize hzero : (0 : Quantity) = left at hsteps
  cases hsteps with
  | refl => grind
  | head hstep =>
    obtain ⟨limit, o, rest, -, hbest, -, rfl, -⟩ := sweepStep_eq_some_iff.mp hstep
    rw [restsAt_represents h] at hrests
    have hlimit := BookOf.before_of_best? hbest _ hrests
    have hreal := (htrades _ List.mem_cons_self).1
    revert hlimit hreal
    simp only [Book.tradeOf, Real]
    cases a.side with
    | buy => simp only [Side.opposite, Side.before, Side.marketPrice]; grind
    | sell => simp only [Side.opposite, Side.before, Side.marketPrice]; grind

/-- Prices stay real as long as real prices are submitted and no remainder is hit. -/
theorem realTrades_carries : Carries (fun (_ : Orderbook n) _ => True) fun adds e =>
    (∀ a ∈ adds, (a.type ≠ .market → Real a.price) ∧ ¬HitsRemainder a) →
      PricedBook e.book ∧ ∀ a ∈ adds, RealTrades a where
  filter := fun _ _ p h hadds => ⟨(h hadds).1.shrinks (shrinks_filter _ p), (h hadds).2⟩
  change := fun _ _ _ _ _ _ _ h hadds =>
    ⟨(h hadds).1.shrinks (shrinks_requantify _ _ _), (h hadds).2⟩
  rules := fun _ _ _ _ _ _ h => h
  add := by
    intro adds a e hrep h hadds
    obtain ⟨hp, htrades⟩ := h fun x hx => hadds x (List.mem_append_left _ hx)
    obtain ⟨hsubmit, hno⟩ := hadds a (by simp)
    obtain ⟨hp', ha⟩ := realTrades_addition hrep hp hsubmit hno
    refine ⟨hp', fun x hx => ?_⟩
    rcases List.mem_append.mp hx with hx | hx
    · exact htrades x hx
    · rwa [List.mem_singleton.mp hx]

/-- A run that submits real prices trades at real prices exactly when no
FillOrKill order executes against a market remainder. -/
theorem realTrades_iff {calls : List Call} (hcalls : ∀ call ∈ calls, RealPriced call) :
    (∀ a ∈ runAdditions (create n) calls, RealTrades a) ↔
      ∀ a ∈ runAdditions (create n) calls, ¬HitsRemainder a := by
  constructor
  · intro hall a ha hhits
    obtain ⟨e, hrep⟩ := runAdditions_represent (represents_create n) calls ha
    exact not_realTrades_of_hitsRemainder hrep hhits (hall a ha)
  · intro hno
    have hstart : PricedBook (RefEngine.create (slotCount n)).book := by
      intro side price hne
      simp [RefEngine.create] at hne
    have hrun : Covers _ [] _ _ := covers_run realTrades_carries (represents_create n)
      (fun _ => ⟨hstart, by simp⟩) calls (along_of_forall (fun _ _ => trivial) calls)
    exact (hrun.2 fun a ha => ⟨realPriced_runAdditions hcalls a ha, hno a ha⟩).2

/-- A market sell leaves a remainder, which a limit order hits. -/
def remainderHit : List Call :=
  [.addOrder .goodTillCancel 1 .buy 100 5, .addOrder .market 2 .sell 0 10,
    .addOrder .goodTillCancel 3 .buy 100 5]

/-- A limit order may hit a remainder. -/
theorem realTrades_iff_remainderHit :
    (∀ a ∈ runAdditions (create 4) remainderHit, RealTrades a) ↔
      ∀ a ∈ runAdditions (create 4) remainderHit, ¬HitsRemainder a :=
  realTrades_iff (by decide)

/-- A market sell leaves a remainder. -/
def sellRemainder : List Call :=
  [.addOrder .goodTillCancel 1 .buy 100 5, .addOrder .market 2 .sell 0 10]

/-- A FillOrKill order that finds it. -/
def fillOrKillBuy : Call := .addOrder .fillOrKill 3 .buy 100 5

/-- The FillOrKill order trades at the smallest 32-bit price. -/
theorem fillOrKillBuy_trades :
    (∀ call ∈ sellRemainder ++ [fillOrKillBuy], RealPriced call) ∧
      (perform (after (create 4) sellRemainder) fillOrKillBuy).1 =
        .trades [⟨3, 2, Int32.minValue, 5⟩] ∧
      ¬∀ a ∈ runAdditions (create 4) (sellRemainder ++ [fillOrKillBuy]), RealTrades a := by
  have hreply : (perform (after (create 4) sellRemainder) fillOrKillBuy).1 =
      .trades [⟨3, 2, Int32.minValue, 5⟩] := by decide +kernel
  refine ⟨by decide, hreply, fun hall => ?_⟩
  rw [runAdditions_append] at hall
  have hlast := hall ⟨after (create 4) sellRemainder, .fillOrKill, 3, .buy, 100, 5⟩
    (List.mem_append_right _ List.mem_cons_self)
  obtain ⟨s', hret⟩ := ret_of_settle hreply
  exact absurd (hlast _ s' hret _ List.mem_cons_self).1 (by decide)

end Runs

end OrderbookEngine.TradePrices
