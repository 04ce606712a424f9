import OrderbookEngine.AllOrNothing
import OrderbookEngine.Crossing

/-!
# Adding an order to an uncrossed book is the greedy sweep

The engine inserts the order first and then crosses whatever best levels it
finds. From a book whose best prices are apart only the new order can be a leg
of a cross, so that the matching is the walk along the opposing orders and stops
where the walk does.
-/

namespace OrderbookEngine.PriceTimeSweep

open StepRuns MarketTypes PoolBook FeedCalls ReferenceBook SlotSteps ReferenceSteps MatchSimulation
open EngineSimulation RunRules BookState Additions Crossing SweepMatch Snapshots GreedyWalk
open AllOrNothing

variable {n : ℕ} {s s' : Orderbook n} {e : RefEngine} {b b' : Book} {id : OrderId} {side : Side}
  {price limit : Price} {type type' : OrderType} {qty left : Quantity} {ts : Trades} {o : Resting}

/-- A side is empty or the best bid is below the best ask. -/
def BestApart (s : Orderbook n) : Prop :=
  ∀ bid ask lvl lvl', s.bids.first? = some (bid, lvl) → s.asks.first? = some (ask, lvl') →
    bid < ask

/-- An order has been swept against the opposing side; what a walk has left of
both is in the book, and all else is as before. -/
structure Swept (s s' : Orderbook n) (type : OrderType) (id : OrderId) (side : Side)
    (limit : Price) (w : Walked) : Prop where
  /-- What the walk leaves of the opposing side. -/
  opposing : priorityList s' side.opposite = w.rest
  /-- A remainder is last at its level, unless the order is ImmediateOrCancel. -/
  own : ∀ p, listing s' side p = listing s side p ++
    if p = limit ∧ type ≠ .immediateOrCancel ∧ w.left ≠ 0 then [⟨id, type, w.left⟩] else []
  /-- Counts and totals are those of the listings. -/
  levels : ∀ side' p, levelData s' side' p =
    if listing s' side' p = [] then none
    else some (((listing s' side' p).length : ℤ),
      wrapSum ((listing s' side' p).map Resting.quantity))
  /-- Live are the orders that are listed. -/
  live : ∀ i, s'.hasOrder i = true ↔ ∃ side', ∃ x ∈ priorityList s' side', x.2.orderId = i
  /-- The best prices are apart. -/
  apart : BestApart s'
  /-- Rules, counters and position are as before. -/
  settings : settings s' = settings s

section Apart

/-- No order of a book crosses one of the other side. -/
def ApartBook (b : Book) : Prop :=
  ∀ side own opposing, b.queue side own ≠ [] → b.queue side.opposite opposing ≠ [] →
    ¬side.crosses own opposing

/-- Two limits reach each other or neither does. -/
theorem crosses_opposite (side : Side) (p q : Price) :
    side.opposite.crosses p q ↔ side.crosses q p := by
  cases side <;> rfl

/-- Best prices that are apart stay apart when the book shrinks. -/
theorem ApartBook.shrinks (h : ApartBook b) (hsub : Shrinks b b') : ApartBook b' :=
  fun side own opposing hown hopp => h side own opposing (hsub.ne_nil hown) (hsub.ne_nil hopp)

/-- An order that crosses no opposing one keeps the sides apart. -/
theorem ApartBook.append (h : ApartBook b)
    (hnone : ∀ p, b.queue side.opposite p ≠ [] → ¬side.crosses price p) :
    ApartBook (b.append side price o) := by
  intro side' own opposing hown hopp
  rw [queue_append_ne_nil] at hown hopp
  rcases hown with ⟨rfl, rfl⟩ | hown
  · rcases hopp with ⟨he, -⟩ | hopp
    · exact absurd he side'.opposite_ne
    · exact hnone opposing hopp
  · rcases hopp with ⟨rfl, rfl⟩ | hopp
    · rw [← crosses_opposite]
      rw [Side.opposite_opposite] at hnone
      exact hnone own hown
    · exact h side' own opposing hown hopp

/-- An order that crosses an opposing one is before all others of its side. -/
theorem ApartBook.behind (h : ApartBook b) {p : Price} (hp : b.queue side.opposite p ≠ [])
    (hcross : side.crosses price p) : Behind b side price := by
  intro own hown
  have hnot := h side own p hown hp
  cases side <;> simp only [Side.crosses, Side.before] at * <;> grind

/-- Nothing matches while best prices are apart. -/
theorem ApartBook.matchStep_eq_none (h : ApartBook b) : Book.matchStep side b = none := by
  refine matchStep_own_none_iff.mpr fun own x xs opposing y ys hown hopp hcross => ?_
  refine absurd hcross (h side own opposing ?_ ?_)
  · rw [BookOf.queue_of_best? hown]
    simp
  · rw [BookOf.queue_of_best? hopp]
    simp

/-- The first price of a map of levels is the best price of its side. -/
theorem first?_best? (h : Represents s e) (side : Side) :
    (s.levels side).first?.map Prod.fst = (e.book.best? side).map Prod.fst := by
  obtain ⟨⟨L, hw, hbook⟩, -, -⟩ := h
  rw [hbook]
  cases hf : (s.levels side).first? with
  | none => rw [best_of_first_none side hw hf]; rfl
  | some r =>
    obtain ⟨-, i, is, -, hbest⟩ := best_of_first side hw (show _ = some (r.1, r.2) from hf)
    rw [hbest]
    rfl

/-- The best order is in the first level. -/
theorem first?_of_best? (h : Represents s e) {os : List Resting}
    (hbest : e.book.best? side = some (price, o, os)) :
    ∃ lvl, (s.levels side).first? = some (price, lvl) := by
  have hfirst := first?_best? h side
  rw [hbest, Option.map_some, Option.map_eq_some_iff] at hfirst
  obtain ⟨⟨p, lvl⟩, hf, rfl⟩ := hfirst
  exact ⟨lvl, hf⟩

/-- The first level has a best order. -/
theorem best?_of_first? (h : Represents s e) (side : Side) {lvl : PriceLevel n}
    (hf : (s.levels side).first? = some (price, lvl)) :
    ∃ o os, e.book.best? side = some (price, o, os) := by
  have hfirst := first?_best? h side
  rw [hf, Option.map_some, eq_comm, Option.map_eq_some_iff] at hfirst
  obtain ⟨⟨p, o, os⟩, hbest, rfl⟩ := hfirst
  exact ⟨o, os, hbest⟩

/-- If the best prices are apart, so are all others. -/
theorem bestApart_iff (h : Represents s e) : BestApart s ↔ ApartBook e.book := by
  constructor
  · intro hs
    have hall : ∀ bid ask, e.book.queue .buy bid ≠ [] → e.book.queue .sell ask ≠ [] →
        bid < ask := by
      intro bid ask hbid hask
      cases hb : e.book.best? .buy with
      | none => exact absurd ((BookOf.best?_eq_none_iff _ _).mp hb bid) hbid
      | some r =>
        cases ha : e.book.best? .sell with
        | none => exact absurd ((BookOf.best?_eq_none_iff _ _).mp ha ask) hask
        | some r' =>
          obtain ⟨p, x, xs⟩ := r
          obtain ⟨q, y, ys⟩ := r'
          obtain ⟨lvl, hf⟩ := first?_of_best? h hb
          obtain ⟨lvl', hf'⟩ := first?_of_best? h ha
          have hlt := hs p q lvl lvl' hf hf'
          have hbid' := BookOf.before_of_best? hb bid hbid
          have hask' := BookOf.before_of_best? ha ask hask
          simp only [Side.before] at hbid' hask'
          grind
    intro side own opposing hown hopp
    cases side with
    | buy => exact Int32.not_le.mpr (hall own opposing hown hopp)
    | sell => exact Int32.not_le.mpr (hall opposing own hopp hown)
  · intro hb bid ask lvl lvl' hf hf'
    obtain ⟨x, xs, hbest⟩ := best?_of_first? h .buy hf
    obtain ⟨y, ys, hbest'⟩ := best?_of_first? h .sell hf'
    refine Int32.not_le.mp (hb .buy bid ask ?_ ?_)
    · rw [BookOf.queue_of_best? hbest]
      simp
    · rw [Side.opposite, BookOf.queue_of_best? hbest']
      simp

end Apart

section Matching

/-- Sweeping with an order is matching it, as long as the others are apart. -/
theorem matchSteps_joined (type : OrderType) {c c' : Quantity × Book} (h : ApartBook c.2)
    (hpair : NoSentinelPair c.2 side price)
    (hsteps : Steps (Book.sweepStep side id price) c ts c') :
    Steps (Book.matchStep side) (joined c.2 side price id type c.1)
      (ts.map (atLimit side price)) (joined c'.2 side price id type c'.1) := by
  refine hsteps.map (I := fun c => ApartBook c.2 ∧ NoSentinelPair c.2 side price)
    (f := fun c => joined c.2 side price id type c.1) (fun c t c' hI hstep => ?_) ⟨h, hpair⟩
  obtain ⟨q, o, rest, -, hbest, hcross, -⟩ := sweepStep_eq_some_iff.mp hstep
  have hq := BookOf.queue_of_best? hbest
  have hbehind := hI.1.behind (by rw [hq]; simp) hcross
  have hsub := shrinks_sweepStep hstep
  exact ⟨⟨hI.1.shrinks hsub, hI.2.shrinks hsub⟩, matchStep_joined type hbehind hI.2 hstep⟩

/-- Where the sweep halts, what is left of the order crosses nothing. -/
theorem ApartBook.joined (type : OrderType) (h : ApartBook b)
    (hhalt : Book.sweepStep side id price (left, b) = none) :
    ApartBook (SweepMatch.joined b side price id type left) := by
  rw [SweepMatch.joined]
  split_ifs with hz
  · exact h
  · refine h.append fun p hne hcross => ?_
    rw [Book.sweepStep, if_neg hz] at hhalt
    cases hbest : b.best? side.opposite with
    | none => exact hne ((BookOf.best?_eq_none_iff _ _).mp hbest p)
    | some r =>
      obtain ⟨q, x, xs⟩ := r
      rw [hbest] at hhalt
      by_cases hq : side.crosses price q
      · simp only [if_pos hq] at hhalt
        cases hhalt
      · exact not_crosses_of_best? hbest hq p hne hcross

/-- Cancelling a remainder leaves the book without it. -/
theorem cancel_joined (hid : b.find? id = none) :
    (joined b side price id type left).cancel id = b := by
  rw [joined]
  split_ifs with hz
  · exact cancel_of_find?_none hid
  · rw [find?_eq_none_iff] at hid
    have hkeep : ∀ side' p, (b.queue side' p).filter (fun x => x.orderId ≠ id) =
        b.queue side' p := fun side' p =>
      List.filter_eq_self.mpr fun x hx => decide_eq_true (hid side' p x hx)
    apply BookOf.ext_queue
    intro side' p
    rw [Book.cancel, BookOf.queue_filter, Book.append, BookOf.queue_setQueue]
    split_ifs with he
    · rw [he.1, he.2, List.filter_append, hkeep]
      simp
    · exact hkeep side' p

/-- Placing an order in a book whose sides are apart is the walk along the
opposing orders. -/
theorem place_eq_walk (h : ApartBook b) (hpair : NoSentinelPair b side price)
    (hid : b.find? id = none) (htype : type ≠ .fillOrKill) (hqty : qty ≠ 0) :
    ∃ b', place b type id side price qty =
        ((walk side id price qty (b.orders side.opposite)).trades.map (atLimit side price), b') ∧
      ApartBook b' ∧
      b'.orders side.opposite = (walk side id price qty (b.orders side.opposite)).rest ∧
      ∀ p, b'.queue side p = b.queue side p ++
        if p = price ∧ type ≠ .immediateOrCancel ∧
            (walk side id price qty (b.orders side.opposite)).left ≠ 0 then
          [⟨id, type, (walk side id price qty (b.orders side.opposite)).left⟩]
        else [] := by
  obtain ⟨b₁, hsteps, hhalt, horders⟩ := walk_sweepSteps id price qty
    (rfl : b.orders side.opposite = _)
  generalize walk side id price qty (b.orders side.opposite) = w at hsteps hhalt horders ⊢
  have happart := (h.shrinks (shrinks_sweepSteps hsteps)).joined type hhalt
  have hown : ∀ p, b₁.queue side p = b.queue side p := queue_sweepSteps hsteps
  have hmatch := matchSteps_joined type h hpair hsteps
  rw [show joined b side price id type qty = b.append side price ⟨id, type, qty⟩ from
    if_neg hqty] at hmatch
  rw [place, if_neg htype]
  simp only [matchBook_eq hmatch happart.matchStep_eq_none]
  by_cases hioc : type = .immediateOrCancel
  · rw [if_pos hioc, cancel_joined ((shrinks_sweepSteps hsteps).find?_eq_none hid)]
    exact ⟨b₁, rfl, h.shrinks (shrinks_sweepSteps hsteps), horders, fun p => by simp [hown, hioc]⟩
  · rw [if_neg hioc]
    refine ⟨_, rfl, happart, ?_, fun p => ?_⟩
    · rw [joined]
      split_ifs with hz
      · exact horders
      · rw [Book.append, BookOf.orders_setQueue_of_ne _ _ _ side.opposite_ne, horders]
    · rw [joined, ← hown]
      split_ifs with hz hp hp
      · exact absurd hz hp.2.2
      · simp
      · rw [hp.1, Book.append, BookOf.queue_setQueue_self]
      · rw [Book.append, BookOf.queue_setQueue, if_neg fun he => hp ⟨he.2, hioc, hz⟩]
        simp

end Matching

/-- From every reachable engine whose best prices are apart, an accepted order
that is not FillOrKill trades as the walk along the opposing orders does. -/
theorem addOrder_sweeps (h : Reachable s) (hapart : BestApart s)
    (haccepted : accepted ⟨s, type, id, side, price, qty⟩ = some (type', limit))
    (htype : type' ≠ .fillOrKill) (hqty : 0 < qty)
    (hpair : ∀ best lvl, (s.levels side.opposite).first? = some (best, lvl) →
      ¬(limit = side.marketPrice ∧ best = side.opposite.marketPrice)) :
    ∃ s', s.addOrder type id side price qty =
        .ret ((walk side id limit qty (priorityList s side.opposite)).trades.map
          (atLimit side limit)) s' ∧
      Swept s s' type' id side limit (walk side id limit qty (priorityList s side.opposite)) := by
  obtain ⟨e, hrep⟩ := reachable_represents h
  obtain ⟨hfree, hc⟩ := accepted_eq_some_iff.mp haccepted
  have hnopair : NoSentinelPair e.book side limit := by
    intro hlimit
    by_contra hne
    cases hbest : e.book.best? side.opposite with
    | none => exact hne ((BookOf.best?_eq_none_iff _ _).mp hbest _)
    | some r =>
      obtain ⟨q, o, os⟩ := r
      obtain ⟨lvl, hf⟩ := first?_of_best? hrep hbest
      have hfirst := BookOf.before_of_best? hbest _ hne
      exact hpair q lvl hf ⟨hlimit, (hfirst.resolve_right
        (side.opposite.not_before_marketPrice q)).symm⟩
  obtain ⟨b', hplace, happart, hopposing, hown⟩ := place_eq_walk ((bestApart_iff hrep).mp hapart)
    hnopair (checked_unused hrep hc).2 htype (UInt32.pos_iff_ne_zero.mp hqty)
  obtain ⟨s', hret, hrep', hsettings⟩ := addOrder_placed hrep hc hfree
  rw [hplace] at hret hrep'
  rw [priorityList_eq hrep]
  exact ⟨s', hret, {
    opposing := by rw [priorityList_eq hrep']; exact hopposing
    own := fun p => by rw [listing_eq hrep, listing_eq hrep']; exact hown p
    levels := fun side' p => levelData_eq hrep' side' p
    live := hasOrder_iff_listed hrep'
    apart := (bestApart_iff hrep').mpr happart
    settings := hsettings }⟩

/-- A market buy against three asks and a bid below them. -/
def bidAndAsks : List Call := .addOrder .goodForDay 4 .buy 99 6 :: threeAsks

/-- A market order sweeps three asks. -/
theorem addOrder_sweeps_bidAndAsks :
    ∃ s', (after (create 5) bidAndAsks).addOrder .market 9 .buy 0 20 =
        .ret ((walk .buy 9 Int32.maxValue 20
          (priorityList (after (create 5) bidAndAsks) .sell)).trades.map
            (atLimit .buy Int32.maxValue)) s' ∧
      Swept (after (create 5) bidAndAsks) s' .goodTillCancel 9 .buy Int32.maxValue
        (walk .buy 9 Int32.maxValue 20 (priorityList (after (create 5) bidAndAsks) .sell)) := by
  refine addOrder_sweeps ⟨_, rfl⟩ ?_ (by decide +kernel) (by decide) (by decide) ?_
  · intro bid ask lvl lvl' hf hf'
    have hbid : (after (create 5) bidAndAsks).bids.first?.map Prod.fst = some 99 := by
      decide +kernel
    have hask : (after (create 5) bidAndAsks).asks.first?.map Prod.fst = some 100 := by
      decide +kernel
    rw [hf] at hbid
    rw [hf'] at hask
    cases hbid
    cases hask
    decide
  · intro best lvl hf
    have hask : (after (create 5) bidAndAsks).asks.first?.map Prod.fst = some 100 := by
      decide +kernel
    rw [show (after (create 5) bidAndAsks).asks.first? = some (best, lvl) from hf] at hask
    cases hask
    decide

end OrderbookEngine.PriceTimeSweep
