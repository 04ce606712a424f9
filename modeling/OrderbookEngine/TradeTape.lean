import OrderbookEngine.BulkCancels
import OrderbookEngine.TradeCounts

/-!
# The tape of a run

Every entry, trade, withdrawal and change of quantity is one line of a tape. A
reader of the tape that knows no matching rule, no price comparison and no
exchange rule puts entries at the end of their queue and takes trades off the
orders they name. It arrives at the orders of the engine, in their queues.
-/

namespace OrderbookEngine.TradeTape

open StepRuns MarketTypes PoolBook FeedCalls ReferenceBook ReferenceSteps EngineSimulation RunRules
open Refinement BookState Additions BulkCancels TradeCounts

/-- One line of the tape. -/
inductive Event where
  /-- An order that passed the checks, with the type it was requested with. -/
  | entered (requested : OrderType) (side : Side) (price : Price) (o : Resting)
  | traded (t : Trade)
  /-- A cancellation, or the end of an order that may not rest. -/
  | withdrawn (id : OrderId)
  | resized (id : OrderId) (qty : Quantity)
  deriving DecidableEq

/-- The trade of a line. -/
def Event.trade? : Event → Option Trade
  | .traded t => some t
  | _ => none

variable {n : ℕ} {s : Orderbook n} {e : RefEngine} {a : Addition n} {b b' b'' : Book}
  {event : Event} {events events' : List Event} {id i : OrderId} {qty left left' : Quantity}
  {side : Side} {price limit : Price} {o : Resting} {os os' : List Resting} {ts : Trades}
  {type requested : OrderType}

section Reader

/-- What a fill leaves of an order, if it is the named one. -/
def reduced (id : OrderId) (qty : Quantity) (o : Resting) : Option Resting :=
  if o.orderId ≠ id then some o
  else if o.quantity - qty = 0 then none
  else some { o with quantity := o.quantity - qty }

/-- Take a fill off the named order; an order left with nothing leaves its queue. -/
def reduce (b : Book) (id : OrderId) (qty : Quantity) : Book :=
  (b.mapVal fun o =>
      if o.orderId = id then { o with quantity := o.quantity - qty } else o).filter
    fun o => o.orderId ≠ id ∨ o.quantity ≠ 0

/-- Read one line. -/
def applyEvent (b : Book) : Event → Book
  | .entered _ side price o => b.append side price o
  | .traded t => reduce (reduce b t.bidOrderId t.quantity) t.askOrderId t.quantity
  | .withdrawn id => b.cancel id
  | .resized id qty => b.requantify id qty

/-- Read lines in their order. -/
def replay (b : Book) (events : List Event) : Book := events.foldl applyEvent b

/-- A fill names an order and does not exceed it. -/
def Fits (b : Book) (id : OrderId) (qty : Quantity) : Prop :=
  ∃ r, b.find? id = some r ∧ qty.toNat ≤ r.2.2.quantity.toNat

/-- A line that makes sense: entries have new identifiers and keep the requested
type unless it is Market, trades do not exceed their legs, and only live orders
are changed. -/
def Sound (b : Book) : Event → Prop
  | .entered requested _ _ o => b.find? o.orderId = none ∧
      o.orderType = if requested = .market then .goodTillCancel else requested
  | .traded t => Fits b t.bidOrderId t.quantity ∧
      Fits (reduce b t.bidOrderId t.quantity) t.askOrderId t.quantity
  | .withdrawn _ => True
  | .resized id _ => (b.find? id).isSome

/-- Sound lines that lead from one book to another. -/
inductive Records : Book → List Event → Book → Prop
  | nil (b : Book) : Records b [] b
  | cons {b b' : Book} {event : Event} {events : List Event} :
      Sound b event → Records (applyEvent b event) events b' → Records b (event :: events) b'

/-- Tapes of successive changes are joined. -/
theorem Records.append (h : Records b events b') (h' : Records b' events' b'') :
    Records b (events ++ events') b'' := by
  induction h with
  | nil b => exact h'
  | cons hsound _ ih => exact Records.cons hsound (ih h')

/-- A sound line records its own effect. -/
theorem Records.single (event : Event) (h : Sound b event) :
    Records b [event] (applyEvent b event) :=
  Records.cons h (Records.nil _)

/-- A tape that records a change replays to it. -/
theorem Records.replay_eq (h : Records b events b') : replay b events = b' := by
  induction h with
  | nil b => rfl
  | cons _ _ ih => exact ih

/-- The queues after an order has been reduced. -/
@[simp] theorem queue_reduce (b : Book) (id : OrderId) (qty : Quantity) (side : Side)
    (price : Price) :
    BookOf.queue (reduce b id qty) side price =
      (b.queue side price).filterMap (reduced id qty) := by
  rw [reduce, BookOf.queue_filter, BookOf.queue_mapVal]
  induction b.queue side price with
  | nil => rfl
  | cons o os ih =>
    rw [List.map_cons, List.filterMap_cons, reduced, ← ih]
    by_cases hid : o.orderId = id
    · by_cases hz : o.quantity - qty = 0
      · simp [hid, hz]
      · simp [hid, hz]
    · simp [hid]

/-- Other orders are not reduced. -/
theorem reduced_of_ne (h : o.orderId ≠ id) : reduced id qty o = some o := if_pos h

/-- What is left keeps its identifier. -/
theorem reduced_orderId {o' : Resting} (h : reduced id qty o = some o') :
    o'.orderId = o.orderId := by
  rw [reduced] at h
  split_ifs at h
  · cases h
    rfl
  · cases h
    rfl

/-- Orders with other identifiers are not reduced. -/
theorem filterMap_reduced_of_ne (h : ∀ o ∈ os, o.orderId ≠ id) :
    os.filterMap (reduced id qty) = os := by
  induction os with
  | nil => rfl
  | cons o os ih =>
    rw [List.filterMap_cons, reduced_of_ne (h o List.mem_cons_self),
      ih fun x hx => h x (List.mem_cons_of_mem _ hx)]

/-- Reducing an order shrinks the book. -/
theorem shrinks_reduce (b : Book) (id : OrderId) (qty : Quantity) :
    Shrinks b (reduce b id qty) := by
  intro side price
  rw [queue_reduce]
  induction b.queue side price with
  | nil => exact List.Sublist.refl _
  | cons o os ih =>
    rw [List.filterMap_cons]
    cases hr : reduced id qty o with
    | none => exact ih.cons _
    | some o' =>
      rw [List.map_cons, List.map_cons, reduced_orderId hr]
      exact ih.cons_cons _

/-- Reducing an order keeps identifiers distinct. -/
theorem distinct_reduce (h : Distinct b) : Distinct (reduce b id qty) :=
  h.of_sublist (shrinks_reduce b id qty)

/-- Look-up after a fill was taken off an order. -/
theorem find?_reduce (h : Distinct b) (i : OrderId) :
    (reduce b id qty).find? i =
      (b.find? i).bind fun r => (reduced id qty r.2.2).map fun o => (r.1, r.2.1, o) := by
  ext r
  obtain ⟨side, price, o⟩ := r
  rw [find?_eq_some_iff (distinct_reduce h), queue_reduce, List.mem_filterMap,
    Option.bind_eq_some_iff]
  constructor
  · rintro ⟨⟨x, hx, hr⟩, hid⟩
    refine ⟨(side, price, x), ?_, by rw [hr]; rfl⟩
    exact (find?_eq_some_iff h).mpr ⟨hx, (reduced_orderId hr).symm.trans hid⟩
  · rintro ⟨⟨side', price', x⟩, hf, hr⟩
    obtain ⟨hx, hid⟩ := find?_mem hf
    obtain ⟨o', hr', heq⟩ := Option.map_eq_some_iff.mp hr
    cases heq
    exact ⟨⟨x, hx, hr'⟩, (reduced_orderId hr').trans hid⟩

/-- Other orders are found as before. -/
theorem find?_reduce_of_ne (h : Distinct b) (hne : i ≠ id) :
    (reduce b id qty).find? i = b.find? i := by
  rw [find?_reduce h]
  cases hf : b.find? i with
  | none => rfl
  | some r =>
    rw [Option.bind_some, reduced_of_ne (fun hid => hne ((find?_mem hf).2.symm.trans hid))]
    rfl

/-- Taking a fill off a resting order in its place. -/
theorem reduce_eq_setQueue (h : Distinct b) (hq : b.queue side price = os ++ o :: os')
    (hid : o.orderId = id) :
    reduce b id qty = b.setQueue side price (os ++ Book.fillHead qty o os') := by
  have hother := h.ne_of_mem_split hq hid
  apply BookOf.ext_queue
  intro side' price'
  rw [queue_reduce, BookOf.queue_setQueue]
  split_ifs with he
  · rw [he.1, he.2, hq, List.filterMap_append, List.filterMap_cons,
      filterMap_reduced_of_ne fun x hx => hother x (List.mem_append_left _ hx),
      filterMap_reduced_of_ne fun x hx => hother x (List.mem_append_right _ hx), reduced,
      if_neg (not_not.mpr hid), Book.fillHead]
    split_ifs <;> rfl
  · exact filterMap_reduced_of_ne (h.ne_of_other_level (by simp [hq]) hid he)

/-- A fill of the first order of a queue. -/
theorem reduce_first (h : Distinct b) (hq : b.queue side price = o :: os') (hid : o.orderId = id) :
    reduce b id qty = b.setQueue side price (Book.fillHead qty o os') := by
  have hsplit : b.queue side price = [] ++ o :: os' := hq
  rw [reduce_eq_setQueue h hsplit hid, List.nil_append]

/-- A withdrawn order may as well not have been filled. -/
theorem cancel_reduce_self (b : Book) (id : OrderId) (qty : Quantity) :
    (reduce b id qty).cancel id = b.cancel id := by
  apply BookOf.ext_queue
  intro side price
  rw [Book.cancel, Book.cancel, BookOf.queue_filter, BookOf.queue_filter, queue_reduce]
  induction b.queue side price with
  | nil => rfl
  | cons o os ih =>
    rw [List.filterMap_cons, List.filter_cons, ← ih]
    by_cases hid : o.orderId = id
    · rw [if_neg (by simpa using hid)]
      cases hr : reduced id qty o with
      | none => rfl
      | some o' =>
        have hid' : o'.orderId = id := (reduced_orderId hr).trans hid
        exact List.filter_cons_of_neg (by simpa using hid')
    · rw [if_pos (by simpa using hid), reduced_of_ne hid]
      exact List.filter_cons_of_pos (by simpa using hid)

/-- One order may be reduced before or after another is cancelled. -/
theorem cancel_reduce_of_ne (b : Book) (qty : Quantity) (hne : i ≠ id) :
    (reduce b i qty).cancel id = reduce (b.cancel id) i qty := by
  apply BookOf.ext_queue
  intro side price
  rw [Book.cancel, Book.cancel, BookOf.queue_filter, queue_reduce, queue_reduce,
    BookOf.queue_filter, List.filter_filterMap, List.filterMap_filter]
  refine List.filterMap_congr fun o _ => ?_
  by_cases hid : o.orderId = id
  · rw [reduced_of_ne (fun h => hne (h.symm.trans hid))]
    simp [hid]
  · cases hr : reduced i qty o with
    | none => simp [hid]
    | some o' => simp [hid, reduced_orderId hr]

/-- A sound line keeps identifiers distinct. -/
theorem distinct_applyEvent (h : Distinct b) (hsound : Sound b event) :
    Distinct (applyEvent b event) := by
  cases event with
  | entered requested side price o => exact distinct_append h hsound.1
  | traded t => exact distinct_reduce (distinct_reduce h)
  | withdrawn id => exact distinct_filter h _
  | resized id qty => exact h.of_sublist (shrinks_requantify b id qty)

end Reader

section Matching

variable {aggressorSide : Side} {t : Trade}

/-- A quantity fits a live order that has as much left. -/
theorem fits_of_find? {r : Side × Price × Resting} (hf : b.find? id = some r)
    (hle : qty.toNat ≤ r.2.2.quantity.toNat) : Fits b id qty := ⟨r, hf, hle⟩

/-- A matching step is the line of its trade. -/
theorem sound_matchStep (h : Distinct b) (hstep : Book.matchStep aggressorSide b = some (t, b')) :
    Sound b (.traded t) ∧ applyEvent b (.traded t) = b' := by
  obtain ⟨bp, bid, bids, ap, ask, asks, hb, ha, -, -, rfl, rfl⟩ :=
    matchStep_eq_some_iff.mp hstep
  have hmin := toNat_min bid.quantity ask.quantity
  have hbq := BookOf.queue_of_best? hb
  have haq := BookOf.queue_of_best? ha
  have hbid : b.find? bid.orderId = some (.buy, bp, bid) :=
    (find?_eq_some_iff h).mpr ⟨by rw [hbq]; exact List.mem_cons_self, rfl⟩
  have hask : b.find? ask.orderId = some (.sell, ap, ask) :=
    (find?_eq_some_iff h).mpr ⟨by rw [haq]; exact List.mem_cons_self, rfl⟩
  have hne : ask.orderId ≠ bid.orderId := by
    intro heq
    rw [heq, hbid] at hask
    cases hask
  have hfirst : reduce b bid.orderId (min bid.quantity ask.quantity) =
      b.setQueue .buy bp (Book.fillHead (min bid.quantity ask.quantity) bid bids) :=
    reduce_first h hbq rfl
  refine ⟨⟨fits_of_find? hbid (by dsimp only; omega), ?_⟩, ?_⟩
  · refine fits_of_find? (r := (.sell, ap, ask)) ?_ (by dsimp only; omega)
    exact (find?_reduce_of_ne h hne).trans hask
  · have hd : Distinct (reduce b bid.orderId (min bid.quantity ask.quantity)) := distinct_reduce h
    have hsecond : (reduce b bid.orderId (min bid.quantity ask.quantity)).queue .sell ap =
        ask :: asks := by
      rw [hfirst, BookOf.queue_setQueue, if_neg (by simp), haq]
    rw [applyEvent, reduce_first hd hsecond rfl, hfirst]

/-- A match is its trades. -/
theorem records_matchSteps (h : Distinct b)
    (hsteps : Steps (Book.matchStep aggressorSide) b ts b') :
    Records b (ts.map .traded) b' := by
  induction hsteps with
  | refl b => exact Records.nil b
  | head hstep _ ih =>
    obtain ⟨hsound, happly⟩ := sound_matchStep h hstep
    exact Records.cons hsound (happly ▸ ih (h.matchStep hstep))

/-- What a reader knows of an order that is filled without resting: it is in the
reader's book, with the quantity that is left, beside the orders of the book. -/
structure Holds (id : OrderId) (left : Quantity) (b c : Book) : Prop where
  /-- Identifiers are distinct. -/
  distinct : Distinct c
  /-- Without the aggressor it is the book. -/
  others : c.cancel id = b
  /-- What is left of the aggressor rests. -/
  named : left ≠ 0 → ∃ r, c.find? id = some r ∧ r.2.2.quantity = left

/-- Other orders are found as without the aggressor. -/
theorem Holds.find?_other {c : Book} (h : Holds id left b c) (hne : i ≠ id) :
    c.find? i = b.find? i := by
  rw [← h.others, find?_cancel h.distinct, if_neg hne]

/-- The aggressor is no order of the book it comes to. -/
theorem Holds.find?_self {c : Book} (h : Holds id left b c) : b.find? id = none := by
  rw [← h.others, find?_cancel h.distinct, if_pos rfl]

/-- A fill of the incoming order and of a resting one, in either order. -/
theorem Holds.fill {c : Book} (h : Holds id left b c) (hne : i ≠ id)
    (hleft : left - qty ≠ 0 → left ≠ 0) :
    Holds id (left - qty) (reduce b i qty) (reduce (reduce c id qty) i qty) ∧
      Holds id (left - qty) (reduce b i qty) (reduce (reduce c i qty) id qty) := by
  have hnamed : left - qty ≠ 0 → ∃ r, (reduce c id qty).find? id = some r ∧
      r.2.2.quantity = left - qty := by
    intro hz
    obtain ⟨r, hr, hqty⟩ := h.named (hleft hz)
    rw [find?_reduce h.distinct, hr, Option.bind_some, reduced,
      if_neg (not_not.mpr (find?_mem hr).2), if_neg (by rw [hqty]; exact hz), hqty]
    exact ⟨_, rfl, rfl⟩
  constructor
  · refine ⟨distinct_reduce (distinct_reduce h.distinct), ?_, fun hz => ?_⟩
    · rw [cancel_reduce_of_ne _ _ hne, cancel_reduce_self, h.others]
    · rw [find?_reduce_of_ne (distinct_reduce h.distinct) hne.symm]
      exact hnamed hz
  · refine ⟨distinct_reduce (distinct_reduce h.distinct), ?_, fun hz => ?_⟩
    · rw [cancel_reduce_self, cancel_reduce_of_ne _ _ hne, h.others]
    · obtain ⟨r, hr, hqty⟩ := hnamed hz
      refine ⟨r, ?_, hqty⟩
      rw [find?_reduce (distinct_reduce h.distinct), find?_reduce_of_ne h.distinct hne.symm,
        ← find?_reduce h.distinct, hr]

/-- A sweeping step is the line of its trade, read with the incoming order in the book. -/
theorem sound_sweepStep {c : Book} (h : Holds id left b c)
    (hstep : Book.sweepStep side id limit (left, b) = some (t, (left', b'))) :
    Sound c (.traded t) ∧ Holds id left' b' (applyEvent c (.traded t)) := by
  obtain ⟨price, o, rest, hz, hbest, -, rfl, rfl, rfl⟩ := sweepStep_eq_some_iff.mp hstep
  have hmin := toNat_min left o.quantity
  have hq := BookOf.queue_of_best? hbest
  have hdb : Distinct b := h.others ▸ distinct_filter h.distinct _
  have hmem : o ∈ b.queue side.opposite price := hq ▸ List.mem_cons_self
  have ho : b.find? o.orderId = some (side.opposite, price, o) :=
    (find?_eq_some_iff hdb).mpr ⟨hmem, rfl⟩
  have hne : o.orderId ≠ id := by
    intro heq
    rw [heq, h.find?_self] at ho
    cases ho
  obtain ⟨r, hr, hqty⟩ := h.named hz
  have hoc : c.find? o.orderId = some (side.opposite, price, o) := (h.find?_other hne).trans ho
  have hbook : b.setQueue side.opposite price (Book.fillHead (min left o.quantity) o rest) =
      reduce b o.orderId (min left o.quantity) :=
    (reduce_first hdb hq rfl).symm
  obtain ⟨hnamedFirst, hotherFirst⟩ := h.fill hne
    (show left - min left o.quantity ≠ 0 → left ≠ 0 from fun _ => hz)
  have hfits : Fits c id (min left o.quantity) := fits_of_find? hr (by rw [hqty]; omega)
  have hfitsOther : Fits c o.orderId (min left o.quantity) :=
    fits_of_find? hoc (by dsimp only; omega)
  rw [hbook]
  cases side with
  | buy =>
    have hsecond : Fits (reduce c id (min left o.quantity)) o.orderId (min left o.quantity) :=
      fits_of_find? ((find?_reduce_of_ne h.distinct hne).trans hoc) (by dsimp only; omega)
    exact ⟨⟨hfits, hsecond⟩, hnamedFirst⟩
  | sell =>
    have hsecond : Fits (reduce c o.orderId (min left o.quantity)) id (min left o.quantity) :=
      fits_of_find? ((find?_reduce_of_ne h.distinct hne.symm).trans hr) (by rw [hqty]; omega)
    exact ⟨⟨hfitsOther, hsecond⟩, hotherFirst⟩

/-- A sweep is its trades. -/
theorem records_sweepSteps {c : Book} {p p' : Quantity × Book} (h : Holds id p.1 p.2 c)
    (hsteps : Steps (Book.sweepStep side id limit) p ts p') :
    ∃ c', Records c (ts.map .traded) c' ∧ Holds id p'.1 p'.2 c' := by
  induction hsteps generalizing c with
  | refl p => exact ⟨c, Records.nil c, h⟩
  | head hstep _ ih =>
    obtain ⟨hsound, hholds⟩ := sound_sweepStep h hstep
    obtain ⟨c', hrecords, hholds'⟩ := ih hholds
    exact ⟨c', Records.cons hsound hrecords, hholds'⟩

end Matching

section Additions

/-- The lines of a placed order. -/
def placeEvents (requested type : OrderType) (id : OrderId) (side : Side) (price : Price)
    (qty : Quantity) (ts : Trades) : List Event :=
  .entered requested side price ⟨id, type, qty⟩ :: (ts.map .traded ++
    if type = .immediateOrCancel ∨ type = .fillOrKill then [.withdrawn id] else [])

/-- A placed order is its lines. -/
theorem records_place (h : Distinct b) (hid : b.find? id = none)
    (htype : type = if requested = .market then .goodTillCancel else requested) :
    Records b (placeEvents requested type id side price qty (place b type id side price qty).1)
      (place b type id side price qty).2 := by
  have hentered : Sound b (.entered requested side price ⟨id, type, qty⟩) := ⟨hid, htype⟩
  have hd : Distinct (b.append side price ⟨id, type, qty⟩) := distinct_append h hid
  have hcancel : (b.append side price ⟨id, type, qty⟩).cancel id = b := cancel_append hid side price
  refine Records.cons hentered ?_
  rw [applyEvent, place]
  by_cases hfok : type = .fillOrKill
  · rw [if_pos hfok, if_pos (Or.inr hfok)]
    by_cases havail : b.available side price < qty.toNat
    · rw [Book.fillOrKill, if_pos havail]
      have hlast := Records.single (b := b.append side price ⟨id, type, qty⟩) (.withdrawn id)
        trivial
      rwa [applyEvent, hcancel] at hlast
    · have hholds : Holds id qty b (b.append side price ⟨id, type, qty⟩) :=
        ⟨hd, hcancel, fun _ => ⟨_, by rw [find?_append h hid, if_pos rfl], rfl⟩⟩
      obtain ⟨c', hrecords, hholds'⟩ := records_sweepSteps hholds (fillOrKill_steps id havail)
      have hlast := Records.single (b := c') (.withdrawn id) trivial
      rw [applyEvent, hholds'.others] at hlast
      exact hrecords.append hlast
  · have hmatch := records_matchSteps hd
      (matchBook_steps side (b.append side price ⟨id, type, qty⟩))
    rw [if_neg hfok]
    dsimp only
    by_cases hioc : type = .immediateOrCancel
    · rw [if_pos hioc, if_pos (Or.inl hioc)]
      exact hmatch.append (Records.single (.withdrawn id) trivial)
    · rw [if_neg hioc, if_neg (by simp [hioc, hfok]), List.append_nil]
      exact hmatch

/-- The lines of an addition; one that is refused or raises has none. -/
def additionEvents (a : Addition n) : List Event :=
  match accepted a with
  | none => []
  | some (type, price) => placeEvents a.type type a.id a.side price a.qty (tradesOf a)

/-- An addition is its lines. -/
theorem records_addition (h : Represents a.before e) :
    Records e.book (additionEvents a) (effect a e).book := by
  rw [additionEvents]
  cases ha : accepted a with
  | none =>
    rw [(effect_not_accepted h ha).1]
    exact Records.nil _
  | some r =>
    obtain ⟨type, price⟩ := r
    obtain ⟨heffect, s', hret⟩ := effect_accepted h ha
    have hchecked := (accepted_eq_some_iff.mp ha).2
    have htype : type = if a.type = .market then .goodTillCancel else a.type := by
      obtain ⟨-, hother, hmarket⟩ := checked_type hchecked
      split_ifs with hm
      · exact (hmarket hm).1
      · exact (hother hm).1
    have htrades : tradesOf a = (place e.book type a.id a.side price a.qty).1 := by
      rw [tradesOf, hret]
    rw [heffect, htrades]
    exact records_place (distinct_represents h) (checked_unused h hchecked).2 htype

/-- The lines of an addition hold its trades. -/
theorem trades_additionEvents (h : Represents a.before e) :
    (additionEvents a).filterMap Event.trade? = tradesOf a := by
  rw [additionEvents]
  cases ha : accepted a with
  | none =>
    have hnone := (effect_not_accepted h ha).2
    rw [tradesOf]
    cases hout : a.outcome with
    | ret ts s' => exact (hnone ts s' hout).symm
    | raise x s' => rfl
    | diverge => rfl
  | some r =>
    obtain ⟨type, price⟩ := r
    have hlast : (if type = .immediateOrCancel ∨ type = .fillOrKill then
        [Event.withdrawn a.id] else []).filterMap Event.trade? = [] := by
      split_ifs <;> rfl
    dsimp only
    rw [placeEvents, List.filterMap_cons, List.filterMap_append, hlast, List.append_nil,
      List.filterMap_map]
    exact List.filterMap_some

end Additions

section Engine

/-- The lines of a modification. -/
def modifyEvents (s : Orderbook n) (mod : OrderModify) : List Event :=
  match s.orderMap.find? mod.orderId with
  | none => []
  | some idx =>
    if mod.side ≠ (s.pool idx).side then []
    else if mod.price = (s.pool idx).price then [.resized mod.orderId mod.quantity]
    else .withdrawn mod.orderId :: (modifyAdditions s mod).flatMap additionEvents

/-- The line of a cancellation, if the order is live. -/
def cancelEvents (s : Orderbook n) (id : OrderId) : List Event :=
  if s.hasOrder id then [.withdrawn id] else []

/-- The lines of a public call. -/
def callEvents (s : Orderbook n) : Call → List Event
  | .addOrder type id side price qty => additionEvents ⟨s, type, id, side, price, qty⟩
  | .cancelOrder id => cancelEvents s id
  | .modifyOrder mod => modifyEvents s mod
  | .cancelGoodForDayOrders order =>
    (((s.iterate order).filter fun e =>
      (s.pool e.2).orderType = .goodForDay).map Prod.fst).map .withdrawn
  | .processMarketData (.newOrder msg) _ =>
    additionEvents ⟨s, msg.orderType, msg.orderId, msg.side, msg.price, msg.quantity⟩
  | .processMarketData (.cancelOrder msg) _ => cancelEvents s msg.orderId
  | .processMarketData (.modifyOrder msg) _ =>
    modifyEvents s ⟨msg.orderId, msg.side, msg.newPrice, msg.newQuantity⟩
  | .processMarketData (.bookSnapshot msg) order =>
    ((s.iterate order).map Prod.fst).map .withdrawn ++
      (snapshotAdditions s msg order).flatMap additionEvents
  | _ => []

/-- The lines of a run of calls. -/
def tape (s : Orderbook n) : List Call → List Event
  | [] => []
  | call :: calls => callEvents s call ++ tape (perform s call).2 calls

/-- Withdrawals, one line each, keep the other orders. -/
theorem records_withdrawn (b : Book) (ids : List OrderId) :
    Records b (ids.map .withdrawn) (b.filter fun o => o.orderId ∉ ids) := by
  induction ids generalizing b with
  | nil =>
    have hsame : b.filter (fun o => o.orderId ∉ []) = b := by
      apply BookOf.ext_queue
      intro side price
      simp
    rw [hsame]
    exact Records.nil b
  | cons id ids ih =>
    have hfilter : (b.cancel id).filter (fun o => o.orderId ∉ ids) =
        b.filter fun o => o.orderId ∉ id :: ids := by
      rw [Book.cancel, BookOf.filter_filter]
      refine BookOf.filter_congr fun side price o _ => ?_
      simp only [List.mem_cons, not_or, Bool.decide_and, ne_eq, decide_not]
    exact Records.cons trivial (hfilter ▸ ih (b.cancel id))

/-- The lines of a cancellation record it. -/
theorem records_cancel (h : Represents s e) (id : OrderId) :
    Records e.book (cancelEvents s id) (e.book.cancel id) := by
  rw [cancelEvents, h.hasOrder_book, Book.hasOrder]
  cases hf : e.book.find? id with
  | none =>
    rw [cancel_of_find?_none hf]
    exact Records.nil _
  | some r => exact Records.single (.withdrawn id) trivial

/-- The engine and the reader withdraw the same GoodForDay orders. -/
theorem records_goodForDay (h : Represents s e) (order : IterOrder) :
    Records e.book (callEvents s (.cancelGoodForDayOrders order))
      e.cancelGoodForDayOrders.book := by
  obtain ⟨s', hret, hrep, -⟩ := cancelGoodForDayOrders_agrees h order
  obtain ⟨s'', hret', hrep'⟩ := cancelEach_filters h
    (((s.iterate order).filter fun e => (s.pool e.2).orderType = .goodForDay).map Prod.fst)
  rw [Orderbook.cancelGoodForDayOrders, hret'] at hret
  cases hret
  rw [represents_unique hrep hrep']
  exact records_withdrawn _ _

/-- The additions of one side of a snapshot. -/
theorem records_levelAdditions (side : Side) (levels : List SnapshotLevel) (h : Represents s e)
    (syntheticId : OrderId) :
    Records e.book ((levelAdditions side levels syntheticId s).1.flatMap additionEvents)
      (RefEngine.addSnapshotLevels side levels syntheticId e).2.book := by
  induction levels generalizing s e syntheticId with
  | nil => exact Records.nil _
  | cons level rest ih =>
    rw [levelAdditions, RefEngine.addSnapshotLevels]
    split_ifs with hz
    · exact ih h syntheticId
    · let a : Addition n :=
        ⟨s, .goodTillCancel, syntheticId, side, level.price, level.quantity⟩
      have hfirst := records_addition (a := a) h
      exact hfirst.append (ih (effect_represents (a := a) h) (syntheticId + 1))

/-- The lines of a snapshot record it. -/
theorem records_snapshot (h : Represents s e) (msg : BookSnapshotMessage) (order : IterOrder) :
    Records e.book (callEvents s (.processMarketData (.bookSnapshot msg) order))
      (e.processSnapshot msg).book := by
  obtain ⟨s₁, hret, hrep⟩ := cleared_represents h order
  have hcleared : Records e.book (((s.iterate order).map Prod.fst).map .withdrawn)
      BookOf.empty := by
    obtain ⟨s', hret', hrep'⟩ := cancelEach_filters h ((s.iterate order).map Prod.fst)
    rw [hret] at hret'
    cases hret'
    have hempty := congrArg RefEngine.book (represents_unique hrep hrep')
    dsimp only at hempty
    rw [hempty]
    exact records_withdrawn _ _
  have hbids := records_levelAdditions .buy msg.bids hrep firstSyntheticId
  obtain ⟨hid, hrepBids⟩ := levelAdditions_represents .buy msg.bids hrep firstSyntheticId
  have hasks := records_levelAdditions .sell msg.asks hrepBids
    (RefEngine.addSnapshotLevels .buy msg.bids firstSyntheticId
      { e with book := BookOf.empty }).1
  rw [callEvents, snapshotAdditions, hret, leaves, List.flatMap_append, RefEngine.processSnapshot]
  rw [← hid] at hasks ⊢
  exact hcleared.append (hbids.append hasks)

/-- The lines of a modification record it. -/
theorem records_modify (h : Represents s e) (mod : OrderModify) :
    Records e.book (modifyEvents s mod) (leaves e (e.modifyOrder mod)).book := by
  rw [modifyEvents, RefEngine.modifyOrder, h.find?_book]
  cases hm : s.orderMap.find? mod.orderId with
  | none => exact Records.nil _
  | some i =>
    simp only [Option.map_some]
    split_ifs with hside hprice
    · exact Records.nil _
    · have hlive : (e.book.find? mod.orderId).isSome := by rw [h.find?_book, hm]; rfl
      exact Records.single (.resized mod.orderId mod.quantity) hlive
    · obtain ⟨s₁, hret, hrep, -⟩ := cancelOrder_agrees h mod.orderId
      have hadd := records_addition
        (a := ⟨s₁, (s.pool i).orderType, mod.orderId, (s.pool i).side, mod.price, mod.quantity⟩)
        hrep
      rw [modifyAdditions, hm]
      dsimp only
      rw [if_neg (by simp [hside, hprice]), hret, leaves_addOrder e, List.flatMap_singleton]
      exact Records.cons trivial hadd

/-- Every public call is its lines. -/
theorem records_call (h : Represents s e) (call : Call) :
    Records e.book (callEvents s call) (e.perform call).2.book := by
  cases call with
  | setExchangeRules rules usable => exact Records.nil _
  | addOrder type id side price qty =>
    rw [RefEngine.perform, settle_snd]
    exact records_addition (a := ⟨s, type, id, side, price, qty⟩) h
  | cancelOrder id => exact records_cancel h id
  | modifyOrder mod =>
    rw [RefEngine.perform, settle_snd]
    exact records_modify h mod
  | cancelGoodForDayOrders order => exact records_goodForDay h order
  | processMarketData msg order =>
    cases msg with
    | newOrder msg =>
      exact records_addition
        (a := ⟨s, msg.orderType, msg.orderId, msg.side, msg.price, msg.quantity⟩) h
    | cancelOrder msg => exact records_cancel h msg.orderId
    | modifyOrder msg => exact records_modify h _
    | trade => exact Records.nil _
    | bookSnapshot msg => exact records_snapshot h msg order
  | resetMarketDataStats => exact Records.nil _

/-- The tape leads from the book of a state to the book after the calls. -/
theorem records_tape (h : Represents s e) (calls : List Call) :
    Records e.book (tape s calls) (afterRef e calls).book := by
  induction calls generalizing s e with
  | nil => exact Records.nil _
  | cons call calls ih =>
    exact (records_call h call).append (ih (perform_simulates h call).2)

/-- Withdrawals are no trades. -/
theorem trades_withdrawn (ids : List OrderId) :
    (ids.map Event.withdrawn).filterMap Event.trade? = [] := by
  rw [List.filterMap_map, List.filterMap_eq_nil_iff]
  intro id _
  rfl

/-- The trade lines of some additions are their trades. -/
theorem trades_additions {adds : List (Addition n)}
    (h : ∀ a ∈ adds, ∃ e, Represents a.before e) :
    (adds.flatMap additionEvents).filterMap Event.trade? = adds.flatMap tradesOf := by
  induction adds with
  | nil => rfl
  | cons a adds ih =>
    obtain ⟨e, hrep⟩ := h a List.mem_cons_self
    rw [List.flatMap_cons, List.flatMap_cons, List.filterMap_append, trades_additionEvents hrep,
      ih fun x hx => h x (List.mem_cons_of_mem _ hx)]

/-- The trade lines of a modification are the trades of its addition. -/
theorem trades_modifyEvents (h : Represents s e) (mod : OrderModify) :
    (modifyEvents s mod).filterMap Event.trade? = (modifyAdditions s mod).flatMap tradesOf := by
  have hadds : ((modifyAdditions s mod).flatMap additionEvents).filterMap Event.trade? =
      (modifyAdditions s mod).flatMap tradesOf :=
    trades_additions fun a ha => additions_represent h (.modifyOrder mod) ha
  rw [modifyEvents]
  cases hm : s.orderMap.find? mod.orderId with
  | none =>
    rw [modifyAdditions, hm]
    rfl
  | some i =>
    by_cases hside : mod.side = (s.pool i).side
    · by_cases hprice : mod.price = (s.pool i).price
      · rw [modifyAdditions, hm]
        simp [hside, hprice, Event.trade?]
      · rw [← hadds]
        dsimp only
        rw [if_neg (not_not.mpr hside), if_neg hprice]
        rfl
    · rw [modifyAdditions, hm]
      simp [hside]

/-- A cancellation has no trade lines. -/
theorem trades_cancelEvents (s : Orderbook n) (id : OrderId) :
    (cancelEvents s id).filterMap Event.trade? = [] := by
  rw [cancelEvents]
  split_ifs <;> rfl

/-- The trades among the lines of a call are those of its additions. -/
theorem trades_callEvents (h : Represents s e) (call : Call) :
    (callEvents s call).filterMap Event.trade? = (additions s call).flatMap tradesOf := by
  have hall : ∀ a ∈ additions s call, ∃ e, Represents a.before e := fun a =>
    additions_represent h call
  have hadds := trades_additions hall
  cases call with
  | setExchangeRules rules usable => rfl
  | addOrder type id side price qty => simpa [additions, callEvents] using hadds
  | cancelOrder id => exact trades_cancelEvents s id
  | modifyOrder mod => exact trades_modifyEvents h mod
  | cancelGoodForDayOrders order => exact trades_withdrawn _
  | processMarketData msg order =>
    cases msg with
    | newOrder msg => simpa [additions, callEvents] using hadds
    | cancelOrder msg => exact trades_cancelEvents s msg.orderId
    | modifyOrder msg => exact trades_modifyEvents h _
    | trade => rfl
    | bookSnapshot msg =>
      rw [callEvents, List.filterMap_append, trades_withdrawn, List.nil_append]
      exact hadds
  | resetMarketDataStats => rfl

/-- The trade lines of a run are the trades of its additions. -/
theorem trades_tape (h : Represents s e) (calls : List Call) :
    (tape s calls).filterMap Event.trade? = (runAdditions s calls).flatMap tradesOf := by
  induction calls generalizing s e with
  | nil => rfl
  | cons call calls ih =>
    rw [tape, runAdditions, List.filterMap_append, List.flatMap_append, trades_callEvents h,
      ih (perform_simulates h call).2]

/-- Whatever the calls and the size of the pool, reading the tape from an empty
book gives every queue of the engine, every live order under its identifier, the
reported depth and the number of orders. The trades on the tape are the trades
that were made, in their order. -/
theorem tape_replays (poolSize : ℕ) (calls : List Call) :
    let s := after (create poolSize) calls
    let book := replay BookOf.empty (tape (create poolSize) calls)
    (∀ side price, listing s side price = book.queue side price) ∧
      (∀ id, order? s id = book.find? id) ∧ s.size = book.size ∧
      s.getOrderInfos = ⟨book.depth .buy, book.depth .sell⟩ ∧
      (tape (create poolSize) calls).filterMap Event.trade? =
        (runAdditions (create poolSize) calls).flatMap tradesOf := by
  have hrep := represents_create poolSize
  have hafter := represents_after hrep calls
  have hbook : (afterRef (RefEngine.create (slotCount poolSize)) calls).book =
      replay BookOf.empty (tape (create poolSize) calls) :=
    (records_tape hrep calls).replay_eq.symm
  refine ⟨fun side price => ?_, fun id => ?_, ?_, ?_, trades_tape hrep calls⟩
  · rw [listing_eq hafter, hbook]
  · rw [← order?_represents hafter, hbook]
  · rw [hafter.size_eq, hbook]
  · have hobserve := congrArg Observation.orderInfos (observe_eq hafter)
    rw [observe, observeRef, hbook] at hobserve
    exact hobserve

end Engine

end OrderbookEngine.TradeTape
