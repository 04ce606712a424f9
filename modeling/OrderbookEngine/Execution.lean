import OrderbookEngine.Additions

/-!
# Execution integrity of additions

Whatever call makes an addition, its trades are between a buyer and a seller at
a price within both limits. Every order that was live loses exactly what its
trades add up to, and the incoming order ends as its type demands.
-/

namespace OrderbookEngine.Execution

open StepRuns MarketTypes PoolBook FeedCalls ReferenceBook ReferenceSteps EngineSimulation RunRules
open BookState Fills Additions

variable {n : ℕ} {s s' : Orderbook n} {e : RefEngine} {ts : Trades} {a : Addition n}

/-- An order that takes part in an addition with the limit it trades under: one
that was live before, or the incoming one. -/
def Party (a : Addition n) (side : Side) (id : OrderId) (limit : Price) : Prop :=
  (∃ o, order? a.before id = some (side, limit, o)) ∨
    id = a.id ∧ side = a.side ∧ ∃ type, accepted a = some (type, limit)

/-- Trades and final state of an addition respect limits and quantities. -/
structure SoundExecution (a : Addition n) (ts : Trades) (s' : Orderbook n) : Prop where
  /-- Every trade is between a buyer and a seller within both limits. -/
  prices : ∀ t ∈ ts, ∃ bidLimit askLimit, Party a .buy t.bidOrderId bidLimit ∧
    Party a .sell t.askOrderId askLimit ∧ askLimit ≤ t.price ∧ t.price ≤ bidLimit
  /-- A live order loses what it is filled by, and leaves only when used up. -/
  resting : ∀ id side price o, order? a.before id = some (side, price, o) →
    fillsOf ts id ≤ o.quantity.toNat ∧
      ((order? s' id = none ∧ fillsOf ts id = o.quantity.toNat) ∨
        ∃ o', order? s' id = some (side, price, o') ∧
          o'.quantity.toNat = o.quantity.toNat - fillsOf ts id)
  /-- An order that may rest keeps what it was not filled by. -/
  mayRest : ∀ type price, accepted a = some (type, price) →
    type = .goodTillCancel ∨ type = .goodForDay →
    (∃ o, order? s' a.id = some (a.side, price, o) ∧
      o.quantity.toNat = a.qty.toNat - fillsOf ts a.id ∧ fillsOf ts a.id ≤ a.qty.toNat) ∨
      order? s' a.id = none ∧ fillsOf ts a.id = a.qty.toNat
  /-- Nothing rests of an immediate order. -/
  immediate : ∀ price, accepted a = some (.immediateOrCancel, price) →
    order? s' a.id = none ∧ fillsOf ts a.id ≤ a.qty.toNat
  /-- All of a FillOrKill order is filled, or nothing happens. -/
  allOrNone : ∀ price, accepted a = some (.fillOrKill, price) →
    order? s' a.id = none ∧
      (fillsOf ts a.id = a.qty.toNat ∨ ts = [] ∧ SameBook a.before s')

/-- An addition that does not trade and keeps the live orders is sound if it was
not accepted. -/
theorem soundExecution_refused {a : Addition n} (ha : accepted a = none) :
    SoundExecution a [] a.before where
  prices := by simp
  resting := fun id side price o ho =>
    ⟨Nat.zero_le _, Or.inr ⟨o, ho, (Nat.sub_zero _).symm⟩⟩
  mayRest := by simp [ha]
  immediate := by simp [ha]
  allOrNone := by simp [ha]

/-- An order that was live is not the incoming one. -/
theorem ne_incoming (h : Represents a.before e) (hid : e.book.find? a.id = none) {id : OrderId}
    {r : Side × Price × Resting} (ho : order? a.before id = some r) : id ≠ a.id := by
  rintro rfl
  rw [← order?_represents h, hid] at ho
  cases ho

section Matched

variable {type : OrderType} {price : Price}

/-- Whoever rests in the book on which the incoming order is matched is a party. -/
theorem party_of_find? (h : Represents a.before e) (hacc : accepted a = some (type, price))
    {side : Side} {id : OrderId} {limit : Price} {o : Resting}
    (ho : (e.book.append a.side price ⟨a.id, type, a.qty⟩).find? id = some (side, limit, o)) :
    Party a side id limit := by
  have hid := (checked_unused h (accepted_eq_some_iff.mp hacc).2).2
  rw [find?_append (distinct_represents h) hid] at ho
  split_ifs at ho with hi
  · cases ho
    exact Or.inr ⟨hi, rfl, type, hacc⟩
  · exact Or.inl ⟨o, by rw [← order?_represents h, ho]⟩

/-- The orders that an accepted order other than FillOrKill leaves. -/
theorem find?_place (price : Price) (hd : Distinct e.book) (hid : e.book.find? a.id = none)
    (htype : type ≠ .fillOrKill) :
    ∃ b', Steps (Book.matchStep a.side) (e.book.append a.side price ⟨a.id, type, a.qty⟩)
        (place e.book type a.id a.side price a.qty).1 b' ∧
      ∀ i, (place e.book type a.id a.side price a.qty).2.find? i =
        if type = .immediateOrCancel ∧ i = a.id then none else b'.find? i := by
  rw [place, if_neg htype]
  refine ⟨_, matchBook_steps _ _, fun i => ?_⟩
  have hd₁ : Distinct (e.book.append a.side price ⟨a.id, type, a.qty⟩) := distinct_append hd hid
  have hd' := matchSteps_distinct hd₁ (matchBook_steps a.side _)
  dsimp only
  by_cases hioc : type = .immediateOrCancel
  · rw [if_pos hioc, find?_cancel hd']
    simp only [hioc, true_and]
  · rw [if_neg hioc, if_neg fun hand => hioc hand.1]

/-- An order that is matched is executed soundly. -/
theorem soundExecution_matched (h : Represents a.before e)
    (hacc : accepted a = some (type, price)) (htype : type ≠ .fillOrKill)
    (h' : Represents s' { e with book := (place e.book type a.id a.side price a.qty).2 }) :
    SoundExecution a (place e.book type a.id a.side price a.qty).1 s' := by
  have hid := (checked_unused h (accepted_eq_some_iff.mp hacc).2).2
  have hd := distinct_represents h
  obtain ⟨b', hsteps, hfind'⟩ := find?_place price hd hid htype
  have hd₁ : Distinct (e.book.append a.side price ⟨a.id, type, a.qty⟩) := distinct_append hd hid
  have hfind₁ : ∀ i, (e.book.append a.side price ⟨a.id, type, a.qty⟩).find? i =
      if i = a.id then some (a.side, price, ⟨a.id, type, a.qty⟩) else e.book.find? i :=
    find?_append hd hid
  have hfilled := matchSteps_filledBy hd₁ hsteps
  have horder' : ∀ i, order? s' i =
      if type = .immediateOrCancel ∧ i = a.id then none else b'.find? i := fun i => by
    rw [← hfind', ← order?_represents h']
  have hself := hfilled.present a.id a.side price ⟨a.id, type, a.qty⟩ (by rw [hfind₁, if_pos rfl])
  constructor
  case prices =>
    intro t ht
    obtain ⟨ts', b₂, b₃, hsteps₂, hstep⟩ := hsteps.mem ht
    have hd₂ := matchSteps_distinct hd₁ hsteps₂
    have hfilled₂ := matchSteps_filledBy hd₁ hsteps₂
    obtain ⟨bidPrice, bid, bids, askPrice, ask, asks, hb, ha, hbid, hask, -, hlow, hhigh⟩ :=
      matchStep_legs hstep
    obtain ⟨x, hx, -⟩ := hfilled₂.find?_left (find?_of_best? hd₂ hb)
    obtain ⟨y, hy, -⟩ := hfilled₂.find?_left (find?_of_best? hd₂ ha)
    rw [← hbid, ← hask]
    exact ⟨bidPrice, askPrice, party_of_find? h hacc hx, party_of_find? h hacc hy, hlow, hhigh⟩
  case resting =>
    intro id side limit o ho
    have hne := ne_incoming h hid ho
    rw [horder', if_neg fun hand => hne hand.2]
    rw [← order?_represents h] at ho
    rcases hfilled.present id side limit o (by rw [hfind₁, if_neg hne, ho]) with
      ⟨hgone, hf⟩ | ⟨o', ho', -, hf⟩
    · exact ⟨by omega, Or.inl ⟨hgone, hf⟩⟩
    · exact ⟨by omega, Or.inr ⟨o', ho', by omega⟩⟩
  case mayRest =>
    intro type' price' hacc' hrest
    rw [hacc] at hacc'
    cases hacc'
    have hnot : ¬(type = .immediateOrCancel ∧ a.id = a.id) := by
      rintro ⟨rfl, -⟩
      simp at hrest
    rw [horder', if_neg hnot]
    rcases hself with ⟨hgone, hf⟩ | ⟨o', ho', -, hf⟩
    · exact Or.inr ⟨hgone, hf⟩
    · exact Or.inl ⟨o', ho', by dsimp only at hf; omega, by dsimp only at hf; omega⟩
  case immediate =>
    intro price' hacc'
    rw [hacc] at hacc'
    cases hacc'
    rw [horder', if_pos ⟨rfl, rfl⟩]
    refine ⟨rfl, ?_⟩
    rcases hself with ⟨-, hf⟩ | ⟨o', -, -, hf⟩
    · exact Nat.le_of_eq hf
    · dsimp only at hf
      omega
  case allOrNone =>
    intro price' hacc'
    rw [hacc] at hacc'
    cases hacc'
    exact absurd rfl htype

end Matched

section Swept

variable {price : Price}

/-- A FillOrKill order that is filled is executed soundly. -/
theorem soundExecution_swept (h : Represents a.before e)
    (hacc : accepted a = some (.fillOrKill, price))
    (havail : ¬e.book.available a.side price < a.qty.toNat)
    (h' : Represents s' { e with book := (e.book.fillOrKill a.side a.id price a.qty).2 }) :
    SoundExecution a (e.book.fillOrKill a.side a.id price a.qty).1 s' := by
  have hid := (checked_unused h (accepted_eq_some_iff.mp hacc).2).2
  have hd := distinct_represents h
  have hsteps := fillOrKill_steps a.id havail
  obtain ⟨hfilled, hqty⟩ := sweepSteps_filledBy hd hid hsteps
  have hgone : order? s' a.id = none := by
    rw [← order?_represents h']
    exact (hfilled.absent a.id hid).1
  have hwhole : fillsOf (e.book.fillOrKill a.side a.id price a.qty).1 a.id = a.qty.toNat := by
    simpa using hqty
  constructor
  case prices =>
    intro t ht
    obtain ⟨ts', ⟨r₂, b₂⟩, ⟨r₃, b₃⟩, hsteps₂, hstep⟩ := hsteps.mem ht
    have hfilled₂ := (sweepSteps_filledBy hd hid hsteps₂).1
    have hd₂ : Distinct b₂ := hd.of_sublist (shrinks_sweepSteps hsteps₂)
    obtain ⟨limit, o, rest, -, hb, hc, rfl, -, -⟩ := sweepStep_eq_some_iff.mp hstep
    obtain ⟨x, hx, -⟩ := hfilled₂.find?_left (find?_of_best? hd₂ hb)
    have hresting : Party a a.side.opposite o.orderId limit :=
      Or.inl ⟨x, by rw [← order?_represents h, hx]⟩
    have hincoming : Party a a.side a.id price := Or.inr ⟨rfl, rfl, _, hacc⟩
    revert hresting hincoming hc
    cases a.side with
    | buy => exact fun hc hr hi => ⟨price, limit, hi, hr, Int32.le_refl _, hc⟩
    | sell => exact fun hc hr hi => ⟨limit, price, hr, hi, hc, Int32.le_refl _⟩
  case resting =>
    intro id side limit o ho
    have hne := ne_incoming h hid ho
    rw [← order?_represents h] at ho
    rw [← order?_represents h']
    rcases hfilled.present id side limit o ho with ⟨hg, hf⟩ | ⟨o', ho', -, hf⟩
    · rw [if_neg hne] at hf
      exact ⟨by omega, Or.inl ⟨hg, hf⟩⟩
    · rw [if_neg hne] at hf
      exact ⟨by omega, Or.inr ⟨o', ho', by omega⟩⟩
  case mayRest =>
    intro type' price' hacc' hrest
    rw [hacc] at hacc'
    cases hacc'
    simp at hrest
  case immediate =>
    intro price' hacc'
    rw [hacc] at hacc'
    cases hacc'
  case allOrNone =>
    intro price' hacc'
    exact ⟨hgone, Or.inl hwhole⟩

/-- A FillOrKill order that is killed is executed soundly. -/
theorem soundExecution_killed (h : Represents a.before e)
    (hacc : accepted a = some (.fillOrKill, price)) (hsame : SameBook a.before s') :
    SoundExecution a [] s' := by
  have hid := (checked_unused h (accepted_eq_some_iff.mp hacc).2).2
  obtain ⟨L, hw, -⟩ := h.book
  have horder : ∀ id, order? s' id = order? a.before id := hsame.order?_eq hw
  constructor
  case prices =>
    simp
  case resting =>
    intro id side limit o ho
    exact ⟨Nat.zero_le _, Or.inr ⟨o, by rw [horder, ho], (Nat.sub_zero _).symm⟩⟩
  case mayRest =>
    intro type' price' hacc' hrest
    rw [hacc] at hacc'
    cases hacc'
    simp at hrest
  case immediate =>
    intro price' hacc'
    rw [hacc] at hacc'
    cases hacc'
  case allOrNone =>
    intro price' _
    exact ⟨by rw [horder, ← order?_represents h, hid], Or.inr ⟨rfl, hsame⟩⟩

end Swept

/-- An addition from an engine that represents a reference engine executes soundly. -/
theorem soundExecution (h : Represents a.before e) (hret : a.outcome = .ret ts s') :
    SoundExecution a ts s' := by
  rw [Addition.outcome] at hret
  cases hc : checked a.before a.type a.id a.side a.price a.qty with
  | none =>
    rw [addOrder_refused hc] at hret
    cases hret
    refine soundExecution_refused ?_
    rw [accepted, hc, ite_self]
  | some r =>
    obtain ⟨type, price⟩ := r
    by_cases hf : a.before.freeList = []
    · rw [addOrder_exhausted hc hf] at hret
      cases hret
    · have hacc : accepted a = some (type, price) := accepted_eq_some_iff.mpr ⟨hf, hc⟩
      by_cases htype : type = .fillOrKill
      · subst htype
        by_cases havail : e.book.available a.side price < a.qty.toNat
        · obtain ⟨s₁, hkill, hsame⟩ := addOrder_killed h hc hf havail
          rw [hkill] at hret
          cases hret
          exact soundExecution_killed h hacc hsame
        · obtain ⟨s₁, hplaced, hrep, -⟩ := addOrder_placed h hc hf
          rw [hplaced] at hret
          cases hret
          exact soundExecution_swept h hacc havail hrep
      · obtain ⟨s₁, hplaced, hrep, -⟩ := addOrder_placed h hc hf
        rw [hplaced] at hret
        cases hret
        exact soundExecution_matched h hacc htype hrep

/-- Every addition of every call from a reachable state executes soundly. -/
theorem additions_sound (h : Reachable s) (call : Call) (ha : a ∈ additions s call)
    (hret : a.outcome = .ret ts s') : SoundExecution a ts s' := by
  obtain ⟨e, hrep⟩ := reachable_represents h
  obtain ⟨e', hrep'⟩ := additions_represent hrep call ha
  exact soundExecution hrep' hret

/-- A resting sell of 5 units. -/
def restingSell : List Call := [.addOrder .goodTillCancel 1 .sell 100 5]

/-- A buy of 8 units that meets it. -/
def crossingBuy : Addition 2 :=
  ⟨after (create 2) restingSell, .goodTillCancel, 2, .buy, 101, 8⟩

/-- A buy that crosses. -/
theorem additions_sound_crossingBuy : ∃ ts s', crossingBuy.outcome = .ret ts s' ∧
    SoundExecution crossingBuy ts s' := by
  have hreach : Reachable (after (create 2) restingSell) := ⟨restingSell, rfl⟩
  obtain ⟨e, hrep⟩ := reachable_represents hreach
  have hchecked : checked (after (create 2) restingSell) .goodTillCancel 2 .buy 101 8 =
      some (.goodTillCancel, 101) := by decide +kernel
  obtain ⟨s', hret, -⟩ := addOrder_placed hrep hchecked (by decide +kernel)
  exact ⟨_, s', hret, additions_sound hreach (.addOrder .goodTillCancel 2 .buy 101 8)
    List.mem_cons_self hret⟩

end OrderbookEngine.Execution
