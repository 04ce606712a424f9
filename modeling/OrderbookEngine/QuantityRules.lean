import OrderbookEngine.Additions

/-!
# Quantities and the exchange rules

Validation admits lot multiples within the bounds, and fills take the minimum of
two quantities, so that only a change in place can let another quantity rest. A
run therefore obeys the rules exactly when all its changes in place do.
-/

namespace OrderbookEngine.QuantityRules

open StepRuns MarketTypes PoolBook FeedCalls ReferenceBook LayoutInvariant ReferenceSteps
open EngineSimulation RunRules BookState Additions

variable {n : ℕ} {s : Orderbook n} {e : RefEngine} {rules : ExchangeRules} {p q : Quantity}

/-- A quantity the rules let rest. -/
structure Lawful (rules : ExchangeRules) (q : Quantity) : Prop where
  /-- The quantity is positive. -/
  pos : 0 < q
  /-- It is not too large. -/
  le : q ≤ rules.maxQuantity
  /-- It is a multiple of the lot. -/
  lot : q % rules.lotSize = 0

/-- A quantity the rules let trade. -/
def LawfulTrade (rules : ExchangeRules) (t : Trade) : Prop :=
  0 < t.quantity ∧ t.quantity % rules.lotSize = 0

/-- Every live order has a lawful quantity. -/
def RestsLawfully (rules : ExchangeRules) (s : Orderbook n) : Prop :=
  ∀ id side price o, order? s id = some (side, price, o) → Lawful rules o.quantity

/-- Every trade of some additions has a lawful quantity. -/
def TradesLawfully (rules : ExchangeRules) (adds : List (Addition n)) : Prop :=
  ∀ a ∈ adds, ∀ ts s', a.outcome = .ret ts s' → ∀ t ∈ ts, LawfulTrade rules t

/-- The change in place of a call, if it makes one, is lawful. -/
def ChangesLawfully (rules : ExchangeRules) (s : Orderbook n) (call : Call) : Prop :=
  ∀ mod, inPlaceChange s call = some mod → Lawful rules mod.quantity

/-- A call that does not replace the rules. -/
def KeepsRules (call : Call) : Prop := ∀ rules usable, call ≠ .setExchangeRules rules usable

section Lots

/-- A quantity is in whole lots if the lot size divides it. -/
theorem lot_iff_dvd (lot q : Quantity) : q % lot = 0 ↔ lot.toNat ∣ q.toNat := by
  rw [eq_zero_iff_toNat, UInt32.toNat_mod, Nat.dvd_iff_mod_eq_zero]

/-- A fill of whole lots is in whole lots. -/
theorem lot_min {lot : Quantity} (hp : p % lot = 0) (hq : q % lot = 0) : min p q % lot = 0 := by
  rcases quantity_min_cases p q with h | h
  · rwa [h]
  · rwa [h]

/-- A fill of whole lots leaves whole lots. -/
theorem lot_sub_min_left {lot : Quantity} (hp : p % lot = 0) (hq : q % lot = 0) :
    (p - min p q) % lot = 0 := by
  rw [lot_iff_dvd] at *
  rw [toNat_sub_min_left]
  exact Nat.dvd_sub hp hq

/-- A fill of positive quantities is positive. -/
theorem min_pos (hp : 0 < p) (hq : 0 < q) : 0 < min p q := by
  rcases quantity_min_cases p q with h | h
  · rwa [h]
  · rwa [h]

/-- What a fill leaves of a lawful quantity is lawful, unless it is zero. -/
theorem Lawful.sub_min (hp : Lawful rules p) (hq : q % rules.lotSize = 0)
    (hne : p - min p q ≠ 0) : Lawful rules (p - min p q) where
  pos := by grind
  le := by
    have hle := hp.le
    have hsub := toNat_sub_min_left p q
    rw [UInt32.le_iff_toNat_le] at hle ⊢
    omega
  lot := lot_sub_min_left hp.lot hq

/-- A validated quantity is lawful if the rules ask for at least one unit. -/
theorem lawful_of_valid (hmin : 1 ≤ rules.minQuantity) (h : rules.isValidQuantity q = true) :
    Lawful rules q := by
  rw [ExchangeRules.isValidQuantity] at h
  split_ifs at h with hbounds
  rw [not_or] at hbounds
  exact ⟨by grind, by grind, by simpa using h⟩

/-- The quantity check on natural numbers. -/
theorem isValidQuantity_iff (rules : ExchangeRules) (q : Quantity) :
    rules.isValidQuantity q = true ↔ rules.minQuantity ≤ q ∧ q ≤ rules.maxQuantity ∧
      rules.lotSize.toNat ∣ q.toNat := by
  rw [ExchangeRules.isValidQuantity, ← lot_iff_dvd]
  split_ifs with hbounds
  · simp only [false_iff]
    rintro ⟨hmin, hmax, -⟩
    grind
  · rw [not_or] at hbounds
    rw [beq_iff_eq]
    exact ⟨fun h => ⟨by grind, by grind, h⟩, fun h => h.2.2⟩

end Lots

section Orders

/-- Every order of a book has a lawful quantity. -/
def LawfulBook (rules : ExchangeRules) (b : Book) : Prop :=
  ∀ side price, ∀ o ∈ b.queue side price, Lawful rules o.quantity

variable {b b' : Book} {side : Side} {price : Price} {o : Resting} {t : Trade}

/-- A lawful queue may be put in place of another. -/
theorem LawfulBook.setQueue (hb : LawfulBook rules b) {os : List Resting}
    (hos : ∀ o ∈ os, Lawful rules o.quantity) : LawfulBook rules (b.setQueue side price os) := by
  intro side' price' o ho
  rw [BookOf.queue_setQueue] at ho
  split_ifs at ho
  · exact hos o ho
  · exact hb side' price' o ho

/-- Removing orders keeps a book lawful. -/
theorem LawfulBook.filter (hb : LawfulBook rules b) (p : Resting → Bool) :
    LawfulBook rules (b.filter p) := by
  intro side price o ho
  rw [BookOf.queue_filter] at ho
  exact hb side price o (List.mem_filter.mp ho).1

/-- Appending a lawful order keeps a book lawful. -/
theorem LawfulBook.append (hb : LawfulBook rules b) (ho : Lawful rules o.quantity) :
    LawfulBook rules (b.append side price o) := by
  refine hb.setQueue fun x hx => ?_
  rcases List.mem_append.mp hx with hx | hx
  · exact hb side price x hx
  · rwa [List.mem_singleton.mp hx]

/-- A lawful change of quantity keeps a book lawful. -/
theorem LawfulBook.requantify (hb : LawfulBook rules b) (id : OrderId) (hq : Lawful rules q) :
    LawfulBook rules (b.requantify id q) := by
  intro side price o ho
  rw [Book.requantify, BookOf.queue_mapVal] at ho
  obtain ⟨x, hx, rfl⟩ := List.mem_map.mp ho
  split_ifs
  · exact hq
  · exact hb side price x hx

/-- A fill of the first order of a queue leaves lawful quantities. -/
theorem LawfulBook.fillHead (hb : LawfulBook rules b) {rest : List Resting}
    (hq : b.queue side price = o :: rest) (hlot : q % rules.lotSize = 0) :
    ∀ x ∈ Book.fillHead (min o.quantity q) o rest, Lawful rules x.quantity := by
  have hall : ∀ x ∈ o :: rest, Lawful rules x.quantity := by
    rw [← hq]
    exact hb side price
  intro x hx
  rw [Book.fillHead] at hx
  split_ifs at hx with hz
  · exact hall x (List.mem_cons_of_mem _ hx)
  · rcases List.mem_cons.mp hx with rfl | hx
    · exact (hall o List.mem_cons_self).sub_min hlot hz
    · exact hall x (List.mem_cons_of_mem _ hx)

/-- A matching step trades a lawful quantity and leaves lawful ones. -/
theorem lawful_matchStep (hb : LawfulBook rules b)
    (h : Book.matchStep side b = some (t, b')) : LawfulBook rules b' ∧ LawfulTrade rules t := by
  obtain ⟨bidPrice, bid, bids, askPrice, ask, asks, hbid, hask, -, -, rfl, rfl⟩ :=
    matchStep_eq_some_iff.mp h
  have hbq := BookOf.queue_of_best? hbid
  have haq := BookOf.queue_of_best? hask
  have hbl : Lawful rules bid.quantity :=
    hb .buy bidPrice bid (by rw [hbq]; exact List.mem_cons_self)
  have hal : Lawful rules ask.quantity :=
    hb .sell askPrice ask (by rw [haq]; exact List.mem_cons_self)
  have hfillAsk := hb.fillHead haq hbl.lot
  rw [quantity_min_comm] at hfillAsk
  exact ⟨(hb.setQueue (hb.fillHead hbq hal.lot)).setQueue hfillAsk, min_pos hbl.pos hal.pos,
    lot_min hbl.lot hal.lot⟩

/-- A sweep of a lot multiple trades lawful quantities and leaves lawful ones. -/
theorem lawful_sweepSteps {id : OrderId} {limit : Price} {c c' : Quantity × Book} {ts : Trades}
    (hb : LawfulBook rules c.2) (hlot : c.1 % rules.lotSize = 0)
    (h : Steps (Book.sweepStep side id limit) c ts c') :
    LawfulBook rules c'.2 ∧ ∀ t ∈ ts, LawfulTrade rules t := by
  have hstep : ∀ c t c', (LawfulBook rules c.2 ∧ c.1 % rules.lotSize = 0) →
      Book.sweepStep side id limit c = some (t, c') →
      (LawfulBook rules c'.2 ∧ c'.1 % rules.lotSize = 0) ∧ LawfulTrade rules t := by
    rintro ⟨left, b⟩ t ⟨left', b'⟩ ⟨hb, hlot⟩ hs
    obtain ⟨price, o, rest, hne, hbest, -, rfl, rfl, rfl⟩ := sweepStep_eq_some_iff.mp hs
    have hq := BookOf.queue_of_best? hbest
    have hol : Lawful rules o.quantity := hb _ price o (by rw [hq]; exact List.mem_cons_self)
    have hfill : ∀ x ∈ Book.fillHead (min o.quantity left) o rest, _ := hb.fillHead hq hlot
    rw [quantity_min_comm] at hfill
    have hpos : 0 < min left o.quantity := min_pos (by grind) hol.pos
    refine ⟨⟨hb.setQueue hfill, lot_sub_min_left hlot hol.lot⟩, ?_⟩
    cases side <;> exact ⟨hpos, lot_min hlot hol.lot⟩
  exact ⟨(h.invariant (fun c t c' hI hs => (hstep c t c' hI hs).1) ⟨hb, hlot⟩).1,
    h.forall_events hstep ⟨hb, hlot⟩⟩

end Orders

section Runs

/-- The rules are installed, and all quantities so far obey them. -/
structure Obeys (rules : ExchangeRules) (adds : List (Addition n)) (e : RefEngine) : Prop where
  /-- The rules are in force. -/
  installed : e.rules = rules
  /-- All resting orders are lawful. -/
  book : LawfulBook rules e.book
  /-- So are all trades so far. -/
  trades : TradesLawfully rules adds

/-- An addition obeys the rules. -/
theorem obeys_addition (hmin : 1 ≤ rules.minQuantity) {adds : List (Addition n)} {a : Addition n}
    (h : Represents a.before e) (hobeys : Obeys rules adds e) :
    Obeys rules (adds ++ [a]) (effect a e) := by
  have htrades : ∀ {ts₀ : Trades}, (∀ ts s', a.outcome = .ret ts s' → ts = ts₀) →
      (∀ t ∈ ts₀, LawfulTrade rules t) → TradesLawfully rules (adds ++ [a]) := by
    intro ts₀ hout hts₀ x hx ts s' hret
    rcases List.mem_append.mp hx with hx | hx
    · exact hobeys.trades x hx ts s' hret
    · rw [List.mem_singleton.mp hx] at hret
      rw [hout ts s' hret]
      exact hts₀
  cases ha : accepted a with
  | none =>
    obtain ⟨heffect, hout⟩ := effect_not_accepted h ha
    rw [heffect]
    exact ⟨hobeys.installed, hobeys.book, htrades hout (by simp)⟩
  | some r =>
    obtain ⟨type, price⟩ := r
    obtain ⟨heffect, s', hret⟩ := effect_accepted h ha
    have hlawful : Lawful rules a.qty := by
      have hvalid := (checked_eq_some_iff.mp (accepted_eq_some_iff.mp ha).2).2.1
      rw [validateOrder_eq h, RefEngine.validateOrder, hobeys.installed] at hvalid
      simp only [Bool.and_eq_true] at hvalid
      exact lawful_of_valid hmin hvalid.1.2
    have hplace : LawfulBook rules (place e.book type a.id a.side price a.qty).2 ∧
        ∀ t ∈ (place e.book type a.id a.side price a.qty).1, LawfulTrade rules t := place_rule
      hobeys.book
      (fun _ => hobeys.book.append hlawful) (fun _ _ _ hb hs => lawful_matchStep hb hs)
      (fun _ hb => hb.filter _)
      (fun _ _ _ hsteps => lawful_sweepSteps hobeys.book hlawful.lot hsteps)
    rw [heffect]
    refine ⟨hobeys.installed, hplace.1, htrades (fun ts s' hret' => ?_) hplace.2⟩
    rw [hret] at hret'
    cases hret'
    rfl

/-- Calls that keep the rules and change quantities lawfully carry the property. -/
theorem obeys_carries (hmin : 1 ≤ rules.minQuantity) :
    Carries (fun (s : Orderbook n) call => KeepsRules call ∧ ChangesLawfully rules s call)
      (Obeys rules) where
  filter := fun _ _ p h => ⟨h.installed, h.book.filter p, h.trades⟩
  change := fun _ _ mod hok hmod _ _ h =>
    ⟨h.installed, h.book.requantify mod.orderId (hok.2 mod hmod), h.trades⟩
  rules := fun _ new usable hok => absurd rfl (hok.1 new usable)
  add := fun _ _ _ hrep h => obeys_addition hmin hrep h

/-- The engine's orders are lawful if those of its book are. -/
theorem restsLawfully_iff (h : Represents s e) :
    RestsLawfully rules s ↔ LawfulBook rules e.book := by
  have hd := distinct_represents h
  constructor
  · intro hrests side price o ho
    refine hrests o.orderId side price o ?_
    rw [← order?_represents h, find?_eq_some_iff hd]
    exact ⟨ho, rfl⟩
  · intro hb id side price o ho
    rw [← order?_represents h, find?_eq_some_iff hd] at ho
    exact hb side price o ho.1

/-- A change in place leaves the quantity it asks for. -/
theorem order?_inPlaceModify {mod mod' : OrderModify} (h : Represents s e)
    (hmod : inPlaceModify s mod = some mod') : ∃ s', s.modifyOrder mod = .ret [] s' ∧
      ∃ o, order? s' mod'.orderId = some (mod'.side, mod'.price, o) ∧
        o.quantity = mod'.quantity := by
  obtain ⟨⟨L, hw, -⟩, -, -⟩ := h
  rw [inPlaceModify] at hmod
  rw [Orderbook.modifyOrder]
  cases hm : s.orderMap.find? mod.orderId with
  | none => simp [hm] at hmod
  | some i =>
    simp only [hm] at hmod ⊢
    split_ifs at hmod with hsame
    cases hmod
    have hpresent := hw.present (hw.indexed _ i hm).2
    rw [if_neg (not_not.mpr hsame.1), if_pos hsame.2, hpresent]
    refine ⟨_, rfl, resting { s.pool i with quantity := mod.quantity }, ?_, rfl⟩
    simp [order?, hm, hsame.1, hsame.2]

/-- A change in place stores the quantity asked for. -/
theorem order?_inPlaceChange {call : Call} {mod : OrderModify} (h : Represents s e)
    (hmod : inPlaceChange s call = some mod) : ∃ o,
      order? (perform s call).2 mod.orderId = some (mod.side, mod.price, o) ∧
        o.quantity = mod.quantity := by
  cases call with
  | modifyOrder m =>
    obtain ⟨s', hret, ho⟩ := order?_inPlaceModify h hmod
    rw [perform, hret]
    exact ho
  | processMarketData msg order =>
    cases msg with
    | modifyOrder m =>
      obtain ⟨s', hret, ho⟩ := order?_inPlaceModify h hmod
      rw [perform, processMarketData, handleMessage, processModify, hret]
      exact ho
    | newOrder m => simp [inPlaceChange] at hmod
    | cancelOrder m => simp [inPlaceChange] at hmod
    | trade => simp [inPlaceChange] at hmod
    | bookSnapshot m => simp [inPlaceChange] at hmod
  | setExchangeRules new usable => simp [inPlaceChange] at hmod
  | addOrder type id side price qty => simp [inPlaceChange] at hmod
  | cancelOrder id => simp [inPlaceChange] at hmod
  | cancelGoodForDayOrders order => simp [inPlaceChange] at hmod
  | resetMarketDataStats => simp [inPlaceChange] at hmod

/-- If every state of a run has lawful orders, all its changes in place were lawful. -/
theorem along_of_restsLawfully (h : Represents s e) {calls : List Call}
    (hrests : ∀ done, done <+: calls → RestsLawfully rules (after s done)) :
    Along (ChangesLawfully rules) s calls := by
  induction calls generalizing s e with
  | nil => trivial
  | cons call calls ih =>
    refine ⟨fun mod hmod => ?_, ih (perform_simulates h call).2 fun done hdone => ?_⟩
    · obtain ⟨o, ho, hq⟩ := order?_inPlaceChange h hmod
      rw [← hq]
      exact hrests [call] (by simp) _ _ _ o ho
    · exact hrests (call :: done) (List.cons_prefix_cons.mpr ⟨rfl, hdone⟩)

/-- A resting order is emptied in place and then hit. -/
def emptiedOrder : List Call :=
  [.setExchangeRules {} (by decide), .addOrder .goodTillCancel 1 .buy 100 10,
    .modifyOrder ⟨1, .buy, 100, 0⟩]

/-- The sell order that hits it. -/
def hittingSell : Call := .addOrder .goodTillCancel 2 .sell 100 5

/-- The emptied order rests and then trades a quantity of zero. -/
theorem emptiedOrder_trades : Reachable (create 2) ∧ (create 2).size = 0 ∧
    1 ≤ ({} : ExchangeRules).tickSize ∧ 1 ≤ ({} : ExchangeRules).lotSize ∧
    1 ≤ ({} : ExchangeRules).minQuantity ∧
    ¬RestsLawfully {} (after (create 2) emptiedOrder) ∧
    ¬TradesLawfully {} (runAdditions (create 2) (emptiedOrder ++ [hittingSell])) := by
  refine ⟨⟨[], rfl⟩, rfl, by decide, by decide, by decide, fun hrests => ?_, fun htrades => ?_⟩
  · have hzero : order? (after (create 2) emptiedOrder) 1 =
        some (.buy, 100, ⟨1, .goodTillCancel, 0⟩) := by decide +kernel
    exact absurd (hrests 1 .buy 100 _ hzero).pos (by decide)
  · have hreply : (perform (after (create 2) emptiedOrder) hittingSell).1 =
        .trades [⟨1, 2, 100, 0⟩] := by decide +kernel
    rw [runAdditions_append] at htrades
    have hlast := htrades ⟨after (create 2) emptiedOrder, .goodTillCancel, 2, .sell, 100, 5⟩
      (List.mem_append_right _ List.mem_cons_self)
    obtain ⟨s', hret⟩ := ret_of_settle hreply
    exact absurd (hlast _ s' hret _ List.mem_cons_self).1 (by decide)

/-- A run on an empty book obeys the rules, in every state it reaches and with
every trade, exactly when all its changes in place are lawful. -/
theorem quantities_lawful_iff (h : Reachable s) (hempty : s.size = 0) (usable : rules.Usable)
    (hmin : 1 ≤ rules.minQuantity) {calls : List Call} (hkeeps : ∀ call ∈ calls, KeepsRules call) :
    ((∀ done, done <+: calls →
        RestsLawfully rules (after s (.setExchangeRules rules usable :: done))) ∧
      TradesLawfully rules (runAdditions s (.setExchangeRules rules usable :: calls))) ↔
      Along (ChangesLawfully rules) (s.setExchangeRules rules) calls := by
  obtain ⟨e, hrep⟩ := reachable_represents h
  have hrep₁ := (perform_simulates hrep (.setExchangeRules rules usable)).2
  have hstart : Obeys (n := n) rules [] (e.perform (.setExchangeRules rules usable)).2 := by
    refine ⟨rfl, (restsLawfully_iff hrep).mp ?_, by simp [TradesLawfully]⟩
    intro id side price o ho
    obtain ⟨i, hi, -⟩ := Option.map_eq_some_iff.mp ho
    have hmem := (s.orderMap.find?_eq_some_iff _ _).mp hi
    rw [List.length_eq_zero_iff.mp hempty] at hmem
    cases hmem
  have hrun : ∀ done, done <+: calls →
      Along (ChangesLawfully rules) (s.setExchangeRules rules) calls →
      Obeys rules (runAdditions (s.setExchangeRules rules) done)
        (afterRef (e.perform (.setExchangeRules rules usable)).2 done) := by
    rintro done ⟨rest, rfl⟩ hok
    have hboth := (along_append.mp hok).1.and_mem fun call hcall =>
      hkeeps call (List.mem_append_left _ hcall)
    exact (covers_run (obeys_carries hmin) hrep₁ hstart done hboth).2
  constructor
  · exact fun hobeys => along_of_restsLawfully hrep₁ hobeys.1
  · intro hok
    refine ⟨fun done hdone => ?_, (hrun calls List.prefix_rfl hok).trades⟩
    exact (restsLawfully_iff (represents_after hrep₁ done)).mpr (hrun done hdone hok).book

/-- A resting order is reduced in place to another lot multiple and then hit. -/
def reducedOrder : List Call :=
  [.addOrder .goodTillCancel 1 .buy 100 10, .modifyOrder ⟨1, .buy, 100, 4⟩,
    .addOrder .goodTillCancel 2 .sell 100 2]

/-- Rules with lots of two units. -/
def pairLots : ExchangeRules := { lotSize := 2 }

/-- A run that reduces an order to whole lots. -/
theorem quantities_lawful_iff_reducedOrder :
    ((∀ done, done <+: reducedOrder →
        RestsLawfully pairLots
          (after (create 2) (.setExchangeRules pairLots (by decide) :: done))) ∧
      TradesLawfully pairLots
        (runAdditions (create 2) (.setExchangeRules pairLots (by decide) :: reducedOrder))) ↔
      Along (ChangesLawfully pairLots) ((create 2).setExchangeRules pairLots) reducedOrder :=
  quantities_lawful_iff ⟨[], rfl⟩ rfl (by decide) (by decide)
    (by simp [reducedOrder, KeepsRules])

end Runs

end OrderbookEngine.QuantityRules
