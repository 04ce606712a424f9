import OrderbookEngine.Additions

/-!
# Crossed books

Matching stops when the best queues are both market remainders, whatever rests
behind them. A book is therefore left crossed exactly by an addition that rests
while both remainders do and one of all the orders is not at a market price.
-/

namespace OrderbookEngine.Crossing

open StepRuns MarketTypes PoolBook FeedCalls ReferenceBook ReferenceSteps EngineSimulation RunRules
open BookState Additions

variable {n : ℕ} {s : Orderbook n} {e : RefEngine} {b b' : Book} {side aggressorSide : Side}
  {price : Price} {o : Resting} {t : Trade} {ts : Trades} {a : Addition n}

/-- Every live bid is below every live ask, or both are market remainders. -/
def Uncrossed (s : Orderbook n) : Prop :=
  ∀ id id' bid ask o o', order? s id = some (.buy, bid, o) → order? s id' = some (.sell, ask, o') →
    bid < ask ∨ bid = Side.buy.marketPrice ∧ ask = Side.sell.marketPrice

/-- An accepted addition rests a crossed order: the opposing market price is
taken, and so is the own one, but some order is at another price. -/
def LeavesCross (a : Addition n) : Prop :=
  ∃ type price, accepted a = some (type, price) ∧ type ≠ .immediateOrCancel ∧
    type ≠ .fillOrKill ∧ RestsAt a.before a.side.opposite a.side.opposite.marketPrice ∧
    ((RestsAt a.before a.side a.side.marketPrice ∧ price ≠ a.side.marketPrice) ∨
      price = a.side.marketPrice ∧
        ∃ p, p ≠ a.side.opposite.marketPrice ∧ RestsAt a.before a.side.opposite p)

section Sentinels

/-- Every bid is below every ask, or both are at their market prices. -/
def UncrossedBook (b : Book) : Prop :=
  ∀ bid ask, b.queue .buy bid ≠ [] → b.queue .sell ask ≠ [] →
    bid < ask ∨ bid = Side.buy.marketPrice ∧ ask = Side.sell.marketPrice

/-- Orders rest at the market prices of both sides. -/
def Sentinels (b : Book) : Prop := ∀ side : Side, b.queue side side.marketPrice ≠ []

/-- No order rests at another price. -/
def OnlySentinels (b : Book) : Prop :=
  ∀ side price, b.queue side price ≠ [] → price = side.marketPrice

/-- A book with the sentinel pair is uncrossed if nothing else rests. -/
theorem Sentinels.uncrossedBook_iff (h : Sentinels b) : UncrossedBook b ↔ OnlySentinels b := by
  constructor
  · intro hb side price hne
    cases side with
    | buy =>
      rcases hb price _ hne (h .sell) with hlt | ⟨heq, -⟩
      · exact absurd hlt (by simp only [Side.marketPrice]; grind)
      · exact heq
    | sell =>
      rcases hb _ price (h .buy) hne with hlt | ⟨-, heq⟩
      · exact absurd hlt (by simp only [Side.marketPrice]; grind)
      · exact heq
  · intro hb bid ask hbid hask
    exact Or.inr ⟨hb .buy bid hbid, hb .sell ask hask⟩

/-- Market remainders on both sides stop matching at once. -/
theorem Sentinels.matchStep_eq_none (h : Sentinels b) : Book.matchStep aggressorSide b = none := by
  refine matchStep_eq_none_iff.mpr fun bidPrice bid bids askPrice ask asks hbid hask => Or.inr ?_
  have hb := BookOf.before_of_best? hbid _ (h .buy)
  have ha := BookOf.before_of_best? hask _ (h .sell)
  simp only [Side.before, Side.marketPrice] at hb ha ⊢
  grind

/-- The sentinel pair stops matching. -/
theorem Sentinels.matchBook_eq (h : Sentinels b) : b.matchBook aggressorSide = ([], b) :=
  ReferenceSteps.matchBook_eq (Steps.refl b) h.matchStep_eq_none

/-- Without market remainders on both sides, matching uncrosses the book. -/
theorem uncrossedBook_matchBook (h : ¬Sentinels b) :
    UncrossedBook (b.matchBook aggressorSide).2 := by
  intro bid ask hbid hask
  have hsteps := matchBook_steps aggressorSide b
  have hhalt := matchStep_eq_none_iff.mp (matchBook_halts aggressorSide b)
  cases hbb : (b.matchBook aggressorSide).2.best? .buy with
  | none => exact absurd ((BookOf.best?_eq_none_iff _ _).mp hbb bid) hbid
  | some r =>
    obtain ⟨bidPrice, x, xs⟩ := r
    cases hba : (b.matchBook aggressorSide).2.best? .sell with
    | none => exact absurd ((BookOf.best?_eq_none_iff _ _).mp hba ask) hask
    | some r =>
      obtain ⟨askPrice, y, ys⟩ := r
      obtain ⟨hxq, hbestBid⟩ := (BookOf.best?_eq_some_iff _ _ _ _ _).mp hbb
      obtain ⟨hyq, hbestAsk⟩ := (BookOf.best?_eq_some_iff _ _ _ _ _).mp hba
      have hb := hbestBid bid hbid
      have ha := hbestAsk ask hask
      rcases hhalt _ _ _ _ _ _ hbb hba with hlt | ⟨rfl, rfl⟩
      · left
        simp only [Side.before] at hb ha
        grind
      · refine absurd (fun side => ?_) h
        cases side with
        | buy => exact (shrinks_matchSteps hsteps).ne_nil (by rw [hxq]; simp)
        | sell => exact (shrinks_matchSteps hsteps).ne_nil (by rw [hyq]; simp)

end Sentinels

section Additions

/-- The levels after an order has been appended. -/
theorem queue_append_ne_nil {side' : Side} {price' : Price} :
    (b.append side price o).queue side' price' ≠ [] ↔
      side' = side ∧ price' = price ∨ b.queue side' price' ≠ [] := by
  rw [Book.append, BookOf.queue_setQueue]
  split_ifs with he
  · simp [he]
  · simp [he]

/-- The addition of an order makes market remainders on both sides. -/
theorem sentinels_append : Sentinels (b.append side price o) ↔
    b.queue side.opposite side.opposite.marketPrice ≠ [] ∧
      (price = side.marketPrice ∨ b.queue side side.marketPrice ≠ []) := by
  simp only [Sentinels, queue_append_ne_nil]
  constructor
  · intro h
    refine ⟨(h side.opposite).resolve_left fun he => side.opposite_ne he.1, ?_⟩
    exact (h side).imp (fun he => he.2.symm) id
  · rintro ⟨hopp, hown⟩ side'
    rcases side.eq_or_eq_opposite side' with rfl | rfl
    · exact hown.imp (fun he => ⟨rfl, he.symm⟩) id
    · exact Or.inr hopp

/-- Only an order at its market price keeps a book of sentinels. -/
theorem onlySentinels_append : OnlySentinels (b.append side price o) ↔
    price = side.marketPrice ∧ OnlySentinels b := by
  simp only [OnlySentinels, queue_append_ne_nil]
  constructor
  · intro h
    exact ⟨h side price (Or.inl ⟨rfl, rfl⟩), fun side' price' hne => h side' price' (Or.inr hne)⟩
  · rintro ⟨rfl, h⟩ side' price' (⟨rfl, rfl⟩ | hne)
    · rfl
    · exact h side' price' hne

/-- The condition on an uncrossed book under which an order that may rest leaves
it crossed. -/
def CrossingPlace (b : Book) (side : Side) (price : Price) : Prop :=
  b.queue side.opposite side.opposite.marketPrice ≠ [] ∧
    ((b.queue side side.marketPrice ≠ [] ∧ price ≠ side.marketPrice) ∨
      price = side.marketPrice ∧
        ∃ p, p ≠ side.opposite.marketPrice ∧ b.queue side.opposite p ≠ [])

/-- Against a market remainder only market remainders are uncrossed. -/
theorem UncrossedBook.eq_marketPrice (h : UncrossedBook b)
    (hopp : b.queue side.opposite side.opposite.marketPrice ≠ []) (hne : b.queue side price ≠ []) :
    price = side.marketPrice := by
  cases side with
  | buy =>
    rcases h price _ hne hopp with hlt | ⟨heq, -⟩
    · exact absurd hlt (by simp only [Side.opposite, Side.marketPrice]; grind)
    · exact heq
  | sell =>
    rcases h _ price hopp hne with hlt | ⟨-, heq⟩
    · exact absurd hlt (by simp only [Side.opposite, Side.marketPrice]; grind)
    · exact heq

/-- Placing an order leaves a book uncrossed unless the pair is in the way. -/
theorem uncrossedBook_place_iff (h : UncrossedBook b) :
    UncrossedBook ((b.append side price o).matchBook side).2 ↔ ¬CrossingPlace b side price := by
  by_cases hs : Sentinels (b.append side price o)
  · rw [hs.matchBook_eq, hs.uncrossedBook_iff, onlySentinels_append]
    obtain ⟨hopp, hown⟩ := sentinels_append.mp hs
    constructor
    · rintro ⟨hprice, honly⟩ ⟨-, ⟨-, hne⟩ | ⟨-, p, hp, hq⟩⟩
      · exact hne hprice
      · exact hp (honly _ _ hq)
    · intro hnot
      have hprice : price = side.marketPrice := by
        by_contra hne
        exact hnot ⟨hopp, Or.inl ⟨hown.resolve_left hne, hne⟩⟩
      refine ⟨hprice, fun side' p hq => ?_⟩
      rcases side.eq_or_eq_opposite side' with rfl | rfl
      · exact h.eq_marketPrice hopp hq
      · by_contra hp
        exact hnot ⟨hopp, Or.inr ⟨hprice, p, hp, hq⟩⟩
  · refine iff_of_true (uncrossedBook_matchBook hs) ?_
    rintro ⟨hopp, hor⟩
    refine hs (sentinels_append.mpr ⟨hopp, ?_⟩)
    rcases hor with ⟨hown, -⟩ | ⟨hprice, -⟩
    · exact Or.inr hown
    · exact Or.inl hprice

/-- A book with fewer levels is not more crossed. -/
theorem UncrossedBook.of_subset (h : UncrossedBook b)
    (hsub : ∀ side price, b'.queue side price ≠ [] → b.queue side price ≠ []) : UncrossedBook b' :=
  fun bid ask hbid hask => h bid ask (hsub _ _ hbid) (hsub _ _ hask)

/-- An uncrossed book stays uncrossed when it shrinks. -/
theorem UncrossedBook.shrinks (h : UncrossedBook b) (hsub : Shrinks b b') : UncrossedBook b' :=
  h.of_subset fun _ _ => hsub.ne_nil

/-- An order that is cancelled at once has made no level. -/
theorem queue_cancel_append_ne_nil {side' : Side} {price' : Price}
    (hne : ((b.append side price o).cancel o.orderId).queue side' price' ≠ []) :
    b.queue side' price' ≠ [] := by
  rw [Book.cancel, BookOf.queue_filter, Book.append, BookOf.queue_setQueue] at hne
  split_ifs at hne with he
  · rw [he.1, he.2]
    intro hnil
    simp [hnil] at hne
  · intro hnil
    simp [hnil] at hne

end Additions

section Runs

/-- The engine is uncrossed if its book is. -/
theorem uncrossed_iff (h : Represents s e) : Uncrossed s ↔ UncrossedBook e.book := by
  have hd := distinct_represents h
  constructor
  · intro hs bid ask hbid hask
    obtain ⟨o, ho⟩ := List.exists_mem_of_ne_nil _ hbid
    obtain ⟨o', ho'⟩ := List.exists_mem_of_ne_nil _ hask
    refine hs o.orderId o'.orderId bid ask o o' ?_ ?_
    · rw [← order?_represents h, find?_eq_some_iff hd]
      exact ⟨ho, rfl⟩
    · rw [← order?_represents h, find?_eq_some_iff hd]
      exact ⟨ho', rfl⟩
  · intro hb id id' bid ask o o' ho ho'
    rw [← order?_represents h] at ho ho'
    exact hb bid ask (List.ne_nil_of_mem (find?_mem ho).1) (List.ne_nil_of_mem (find?_mem ho').1)

/-- When an addition leaves a crossed book. -/
theorem leavesCross_iff (h : Represents a.before e) : LeavesCross a ↔
    ∃ type price, accepted a = some (type, price) ∧ type ≠ .immediateOrCancel ∧
      type ≠ .fillOrKill ∧ CrossingPlace e.book a.side price := by
  simp only [LeavesCross, restsAt_represents h, CrossingPlace]

/-- An addition to an uncrossed book leaves it uncrossed exactly if it does not
rest a crossed order. -/
theorem uncrossedBook_effect_iff (h : Represents a.before e) (hb : UncrossedBook e.book) :
    UncrossedBook (effect a e).book ↔ ¬LeavesCross a := by
  rw [leavesCross_iff h]
  cases ha : accepted a with
  | none =>
    rw [(effect_not_accepted h ha).1]
    exact iff_of_true hb (by simp)
  | some r =>
    obtain ⟨type, price⟩ := r
    rw [(effect_accepted h ha).1, place]
    by_cases hfok : type = .fillOrKill
    · rw [if_pos hfok]
      refine iff_of_true ?_ (by simp_all)
      by_cases havail : e.book.available a.side price < a.qty.toNat
      · rw [Book.fillOrKill, if_pos havail]
        exact hb
      · have hsub := shrinks_sweepSteps (fillOrKill_steps a.id havail)
        exact hb.shrinks hsub
    rw [if_neg hfok]
    by_cases hioc : type = .immediateOrCancel
    · refine iff_of_true ?_ (by simp_all)
      simp only [if_pos hioc]
      by_cases hs : Sentinels (e.book.append a.side price ⟨a.id, type, a.qty⟩)
      · rw [hs.matchBook_eq]
        exact hb.of_subset fun _ _ => queue_cancel_append_ne_nil
      · exact (uncrossedBook_matchBook hs).shrinks (shrinks_filter _ _)
    · simp only [if_neg hioc, uncrossedBook_place_iff hb, Option.some.injEq, Prod.mk.injEq]
      constructor
      · rintro hnot ⟨type', price', ⟨rfl, rfl⟩, -, -, hplace⟩
        exact hnot hplace
      · exact fun hnot hplace => hnot ⟨type, price, ⟨rfl, rfl⟩, hioc, hfok, hplace⟩

/-- The book stays uncrossed as long as no addition rests a crossed order. -/
theorem uncrossed_carries : Carries (fun (_ : Orderbook n) _ => True) fun adds e =>
    (∀ a ∈ adds, ¬LeavesCross a) → UncrossedBook e.book where
  filter := fun _ _ p h hadds => (h hadds).shrinks (shrinks_filter _ p)
  change := fun _ _ mod _ _ _ _ h hadds => (h hadds).shrinks (shrinks_requantify _ _ _)
  rules := fun _ _ _ _ _ _ h => h
  add := by
    intro adds a e hrep h hadds
    have hbefore := h fun x hx => hadds x (List.mem_append_left _ hx)
    exact (uncrossedBook_effect_iff hrep hbefore).mpr (hadds a (by simp))

/-- A run whose additions all rest uncrossed is never left crossed. -/
theorem uncrossed_run {calls : List Call}
    (hadds : ∀ a ∈ runAdditions (create n) calls, ¬LeavesCross a) :
    ∀ done, done <+: calls → Uncrossed (after (create n) done) := by
  rintro done ⟨rest, rfl⟩
  have hstart : UncrossedBook (RefEngine.create (slotCount n)).book := by
    intro bid ask hbid
    simp [RefEngine.create] at hbid
  have hrun : Covers _ [] _ _ := covers_run uncrossed_carries (represents_create n)
    (fun _ => hstart) done (along_of_forall (fun _ _ => trivial) done)
  refine (uncrossed_iff (represents_after (represents_create n) done)).mpr (hrun.2 fun a ha => ?_)
  rw [runAdditions_append] at hadds
  exact hadds a (List.mem_append_left _ ha)

/-- A resting sell and a market buy that leaves a remainder. -/
def oneRemainder : List Call :=
  [.addOrder .goodTillCancel 1 .sell 100 5, .addOrder .market 2 .buy 0 8]

/-- A run with one market remainder. -/
theorem uncrossed_run_oneRemainder : Uncrossed (after (create 2) oneRemainder) := by
  refine uncrossed_run (fun a ha => ?_) oneRemainder (List.prefix_refl _)
  rintro ⟨type, price, -, -, -, hopp, -⟩
  rcases List.mem_cons.mp ha with rfl | ha
  · exact absurd hopp (by decide +kernel)
  · obtain rfl := List.mem_singleton.mp ha
    exact absurd hopp (by decide +kernel)

/-- A market remainder on each side, then a limit order on each side. -/
def behindRemainders : List Call :=
  [.addOrder .goodTillCancel 1 .sell 100 5, .addOrder .market 2 .buy 0 10,
    .addOrder .market 3 .sell 0 5, .addOrder .goodTillCancel 4 .buy 100 5,
    .addOrder .goodTillCancel 5 .sell 50 5]

/-- A bid at 100 and an ask at 50 both rest. -/
theorem behindRemainders_crossed : Reachable (after (create 8) behindRemainders) ∧
    ¬Uncrossed (after (create 8) behindRemainders) := by
  refine ⟨⟨_, rfl⟩, fun h => ?_⟩
  have hbid : order? (after (create 8) behindRemainders) 4 =
      some (.buy, 100, ⟨4, .goodTillCancel, 5⟩) := by decide +kernel
  have hask : order? (after (create 8) behindRemainders) 5 =
      some (.sell, 50, ⟨5, .goodTillCancel, 5⟩) := by decide +kernel
  rcases h _ _ _ _ _ _ hbid hask with hlt | ⟨heq, -⟩
  · exact absurd hlt (by decide)
  · exact absurd heq (by decide)

end Runs

end OrderbookEngine.Crossing
