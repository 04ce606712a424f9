import OrderbookEngine.FeedCounters
import OrderbookEngine.PriceTimeSweep
import OrderbookEngine.RelabelledBook

/-!
# Laws between orders

An order that may rest and is cancelled at once is an ImmediateOrCancel order.
An order split in two, one sent after the other, takes from every resting order
what the whole order takes, and leaves the same book.
-/

namespace OrderbookEngine.OrderLaws

open SortedMap StepRuns MarketTypes PoolBook FeedCalls ReferenceBook ReferenceSteps EngineSimulation
open RunRules BookState Additions Failures Fills SweepMatch FokAgreement GreedyWalk AllOrNothing
open PriceTimeSweep RelabelledBook FeedCounters

variable {n : ℕ} {s s' : Orderbook n} {e : RefEngine} {b b' : Book} {id id₁ id₂ r : OrderId}
  {side : Side} {price limit : Price} {type : OrderType} {qty q₁ q₂ : Quantity} {ts : Trades}
  {x : Price × Resting}

section RestThenCancel

/-- One order with another type. -/
def retyped (id : OrderId) (type : OrderType) : Relabelling where
  order := fun o => if o.orderId = id then { o with orderType := type } else o
  id := fun i => i
  orderId := fun o => by split_ifs <;> rfl
  requantified := fun o qty => by dsimp only; split_ifs <;> rfl
  injective := fun _ _ h => h

/-- An order that is not there has no type to change. -/
theorem retyped_absent (h : b.find? id = none) (type : OrderType) :
    (retyped id type).book b = b := by
  rw [find?_eq_none_iff] at h
  apply BookOf.ext_queue
  intro side price
  rw [Relabelling.book, BookOf.queue_mapVal]
  conv_rhs => rw [← List.map_id (b.queue side price)]
  exact List.map_congr_left fun o ho => if_neg (h side price o ho)

/-- The type of a cancelled order does not matter. -/
theorem cancel_retyped (b : Book) (id : OrderId) (type : OrderType) :
    ((retyped id type).book b).cancel id = b.cancel id := by
  have hcancel := (retyped id type).book_cancel b id
  have habsent : (b.cancel id).find? id = none := by
    rw [find?_eq_none_iff]
    intro side price o ho
    rw [Book.cancel, BookOf.queue_filter] at ho
    simpa using (List.mem_filter.mp ho).2
  exact hcancel.symm.trans (retyped_absent habsent type)

/-- Matching does not depend on the type of the new order. -/
theorem matchBook_retyped (h : b.find? id = none) (side : Side) (price : Price)
    (type type' : OrderType) (qty : Quantity) :
    (b.append side price ⟨id, type', qty⟩).matchBook side =
      (((b.append side price ⟨id, type, qty⟩).matchBook side).1,
        (retyped id type').book ((b.append side price ⟨id, type, qty⟩).matchBook side).2) := by
  have horder : (retyped id type').order ⟨id, type, qty⟩ = ⟨id, type', qty⟩ := if_pos rfl
  have htrades : ∀ ts : Trades, ts.map (retyped id type').trade = ts := List.map_id
  have hmatch := (retyped id type').matchBook_book side (b.append side price ⟨id, type, qty⟩)
  rwa [Relabelling.book_append, retyped_absent h, horder, htrades] at hmatch

/-- Placing an order that may rest and cancelling it is placing an
ImmediateOrCancel order. -/
theorem place_then_cancel (h : b.find? id = none)
    (hrest : type = .goodTillCancel ∨ type = .goodForDay) (side : Side) (price : Price)
    (qty : Quantity) :
    place b .immediateOrCancel id side price qty =
      ((place b type id side price qty).1, (place b type id side price qty).2.cancel id) := by
  have hfok : type ≠ .fillOrKill := by rcases hrest with rfl | rfl <;> simp
  have hioc : type ≠ .immediateOrCancel := by rcases hrest with rfl | rfl <;> simp
  rw [place_immediateOrCancel, matchBook_retyped h side price type .immediateOrCancel qty,
    cancel_retyped, place, if_neg hfok]
  simp only [if_neg hioc]

/-- Without anything within reach nothing trades. -/
theorem place_resting (h : ApartBook b) (hmatch : ¬b.canMatch side price = true)
    (hrest : type = .goodTillCancel ∨ type = .goodForDay) (id : OrderId) (qty : Quantity) :
    place b type id side price qty = ([], b.append side price ⟨id, type, qty⟩) := by
  have hfok : type ≠ .fillOrKill := by rcases hrest with rfl | rfl <;> simp
  have hioc : type ≠ .immediateOrCancel := by rcases hrest with rfl | rfl <;> simp
  have hnone : ∀ p, b.queue side.opposite p ≠ [] → ¬side.crosses price p := by
    rw [Book.canMatch] at hmatch
    cases hbest : b.best? side.opposite with
    | none => exact fun p hne => absurd ((BookOf.best?_eq_none_iff _ _).mp hbest p) hne
    | some r =>
      rw [hbest] at hmatch
      exact not_crosses_of_best? hbest (by simpa using hmatch)
  have happart : ApartBook (b.append side price ⟨id, type, qty⟩) := h.append hnone
  rw [place, if_neg hfok, matchBook_eq (Steps.refl _) happart.matchStep_eq_none]
  simp only [if_neg hioc]

/-- From every reachable state in which the order can match or the best prices
are apart, an order that may rest, cancelled right after it was added, has the
trades of an ImmediateOrCancel order and leaves a state no caller can tell from
the one that order leaves. -/
theorem rest_then_cancel (h : Reachable s) (hrest : type = .goodTillCancel ∨ type = .goodForDay)
    (hvalid : s.validateOrder id price qty = true) (hfree : s.freeList ≠ [])
    (hbook : s.canMatch side price = true ∨ BestApart s) :
    ∃ ts s₁ s₂ s', s.addOrder type id side price qty = .ret ts s₁ ∧
      s₁.cancelOrder id = .ret () s₂ ∧
      s.addOrder .immediateOrCancel id side price qty = .ret ts s' ∧
      Inseparable s₂ s' := by
  obtain ⟨e, hrep⟩ := reachable_represents h
  have hc : checked s type id side price qty = some (type, price) := by
    rw [checked_mayRest hrest, if_pos hvalid]
  have hid := (checked_unused hrep hc).2
  obtain ⟨s₁, hret, hrep₁, hset₁⟩ := addOrder_placed hrep hc hfree
  obtain ⟨s₂, hcancel, hrep₂, hset₂⟩ := cancelOrder_agrees hrep₁ id
  by_cases hmatch : s.canMatch side price = true
  · have hc' := checked_immediateOrCancel side hvalid hmatch
    obtain ⟨s', hret', hrep', hset'⟩ := addOrder_placed hrep hc' hfree
    rw [place_then_cancel hid hrest side price qty] at hret' hrep'
    exact ⟨_, s₁, s₂, s', hret, hcancel, hret', inseparable_of_represents hrep₂ hrep'
      (hset'.trans (hset₂.trans hset₁).symm)⟩
  · have hapart := (bestApart_iff hrep).mp (hbook.resolve_left hmatch)
    have hnone : ¬e.book.canMatch side price = true := by
      obtain ⟨⟨L, hw, heq⟩, -, -⟩ := hrep
      rwa [heq, ← canMatch_eq hw]
    rw [place_resting hapart hnone hrest] at hret hrep₂
    have hcancelled : (e.book.append side price ⟨id, type, qty⟩).cancel id = e.book :=
      cancel_append hid side price
    rw [RefEngine.cancelOrder] at hrep₂
    dsimp only at hrep₂
    rw [hcancelled] at hrep₂
    exact ⟨[], s₁, s₂, s, hret, hcancel, addOrder_cannotMatch hmatch,
      inseparable_of_represents hrep₂ hrep (hset₂.trans hset₁).symm⟩

/-- A buy for the day against two levels of asks. -/
theorem rest_then_cancel_threeAsks :
    ∃ ts s₁ s₂ s', (after (create 4) threeAsks).addOrder .goodForDay 9 .buy 101 20 = .ret ts s₁ ∧
      s₁.cancelOrder 9 = .ret () s₂ ∧
      (after (create 4) threeAsks).addOrder .immediateOrCancel 9 .buy 101 20 = .ret ts s' ∧
      Inseparable s₂ s' :=
  rest_then_cancel ⟨_, rfl⟩ (Or.inr rfl) (by decide +kernel) (by decide +kernel)
    (Or.inl (by decide +kernel))

end RestThenCancel

section Walks

/-- A trade fills the resting order it names. -/
theorem fillsOf_tradeOf (hr : r ≠ id) (side : Side) (restingId : OrderId) (price : Price)
    (qty : Quantity) :
    fillsOf [Book.tradeOf side id restingId price qty] r =
      if restingId = r then qty.toNat else 0 := by
  cases side <;> simp [fillsOf_cons, Book.tradeOf, hr.symm]

/-- Fills of joined trades add up. -/
theorem fillsOf_append (ts ts' : Trades) (r : OrderId) :
    fillsOf (ts ++ ts') r = fillsOf ts r + fillsOf ts' r := by
  rw [fillsOf, fillsOf, fillsOf, List.map_append, List.sum_append]

/-- What a walk takes does not depend on the identifier it is made for. -/
theorem walk_ids (side : Side) (limit : Price) (id id₁ : OrderId) (left : Quantity)
    (xs : List (Price × Resting)) :
    (walk side id limit left xs).rest = (walk side id₁ limit left xs).rest ∧
      ∀ r, r ≠ id → r ≠ id₁ → fillsOf (walk side id limit left xs).trades r =
        fillsOf (walk side id₁ limit left xs).trades r := by
  induction xs generalizing left with
  | nil => exact ⟨rfl, fun _ _ _ => rfl⟩
  | cons x xs ih =>
    by_cases hstop : left = 0 ∨ ¬side.crosses limit x.1
    · rw [walk_stops hstop, walk_stops hstop]
      exact ⟨rfl, fun _ _ _ => rfl⟩
    · obtain ⟨hleft, hcross⟩ := not_or.mp hstop
      obtain ⟨hrest, hfills⟩ := ih (left - min left x.2.quantity)
      rw [walk_fills hleft (not_not.mp hcross), walk_fills hleft (not_not.mp hcross)]
      dsimp only
      refine ⟨by rw [hrest], fun r hr hr₁ => ?_⟩
      rw [fillsOf_first_add, fillsOf_tradeOf hr, hfills r hr hr₁,
        fillsOf_first_add _ (walk side id₁ limit _ xs).trades, fillsOf_tradeOf hr₁]

/-- A first walk that fills the first order leaves the others to the second. -/
theorem split_filled (hle : x.2.quantity.toNat ≤ q₁.toNat) (hsum : q₁.toNat + q₂.toNat < 2 ^ 32) :
    min q₁ x.2.quantity = x.2.quantity ∧ min (q₁ + q₂) x.2.quantity = x.2.quantity ∧
      q₁ + q₂ - x.2.quantity = q₁ - x.2.quantity + q₂ ∧
      (q₁ - x.2.quantity).toNat = q₁.toNat - x.2.quantity.toNat := by
  have hadd : (q₁ + q₂).toNat = q₁.toNat + q₂.toNat := by
    rw [UInt32.toNat_add, Nat.mod_eq_of_lt hsum]
  have hmin₁ := toNat_min q₁ x.2.quantity
  have hmin := toNat_min (q₁ + q₂) x.2.quantity
  refine ⟨?_, ?_, by grind, UInt32.toNat_sub_of_le _ _ (UInt32.le_iff_toNat_le.mpr hle)⟩ <;>
    rw [← UInt32.toNat_inj] <;> omega

/-- Where a first walk ends inside an order, a second one takes from that order
what one walk for both would take beyond the first. -/
theorem split_partly (hlt : q₁.toNat < x.2.quantity.toNat)
    (hsum : q₁.toNat + q₂.toNat < 2 ^ 32) :
    min (q₁ + q₂) x.2.quantity = q₁ + min q₂ (x.2.quantity - q₁) ∧
      (q₁ + min q₂ (x.2.quantity - q₁)).toNat =
        q₁.toNat + (min q₂ (x.2.quantity - q₁)).toNat ∧
      q₁ + q₂ - (q₁ + min q₂ (x.2.quantity - q₁)) = q₂ - min q₂ (x.2.quantity - q₁) ∧
      x.2.quantity - (q₁ + min q₂ (x.2.quantity - q₁)) =
        x.2.quantity - q₁ - min q₂ (x.2.quantity - q₁) := by
  have hadd : (q₁ + q₂).toNat = q₁.toNat + q₂.toNat := by
    rw [UInt32.toNat_add, Nat.mod_eq_of_lt hsum]
  have hremain : (x.2.quantity - q₁).toNat = x.2.quantity.toNat - q₁.toNat :=
    UInt32.toNat_sub_of_le _ _ (UInt32.le_iff_toNat_le.mpr hlt.le)
  have hmin := toNat_min (q₁ + q₂) x.2.quantity
  have hmin₂ := toNat_min q₂ (x.2.quantity - q₁)
  have htotal : (q₁ + min q₂ (x.2.quantity - q₁)).toNat =
      q₁.toNat + (min q₂ (x.2.quantity - q₁)).toNat := by
    rw [UInt32.toNat_add, Nat.mod_eq_of_lt (by omega)]
  refine ⟨?_, htotal, by grind, by grind⟩
  rw [← UInt32.toNat_inj, htotal]
  omega

/-- Two walks, one after the other, are one walk for both quantities. -/
theorem walk_split (side : Side) (limit : Price) (id id₁ id₂ : OrderId)
    (hsum : q₁.toNat + q₂.toNat < 2 ^ 32)
    (xs : List (Price × Resting)) :
    (walk side id limit (q₁ + q₂) xs).rest =
        (walk side id₂ limit q₂ (walk side id₁ limit q₁ xs).rest).rest ∧
      ∀ r, r ≠ id → r ≠ id₁ → r ≠ id₂ → fillsOf (walk side id limit (q₁ + q₂) xs).trades r =
        fillsOf (walk side id₁ limit q₁ xs).trades r +
          fillsOf (walk side id₂ limit q₂ (walk side id₁ limit q₁ xs).rest).trades r := by
  induction xs generalizing q₁ with
  | nil => exact ⟨rfl, fun _ _ _ _ => rfl⟩
  | cons x xs ih =>
    by_cases hcross : side.crosses limit x.1
    swap
    · rw [walk_stops (Or.inr hcross), walk_stops (Or.inr hcross), walk_stops (Or.inr hcross)]
      exact ⟨rfl, fun _ _ _ _ => rfl⟩
    by_cases hz : q₁ = 0
    · -- the first walk takes nothing
      obtain ⟨hrest, hfills⟩ := walk_ids side limit id id₂ q₂ (x :: xs)
      rw [hz, UInt32.zero_add, walk_zero]
      exact ⟨hrest, fun r hr _ hr₂ => by rw [hfills r hr hr₂, fillsOf_nil, Nat.zero_add]⟩
    have hz' : q₁ + q₂ ≠ 0 := by
      rw [eq_zero_iff_toNat] at hz
      rw [ne_eq, eq_zero_iff_toNat, UInt32.toNat_add, Nat.mod_eq_of_lt hsum]
      omega
    rcases Nat.lt_or_ge q₁.toNat x.2.quantity.toNat with hlt | hle
    · have hpart : min q₁ x.2.quantity = q₁ := by
        have hmin := toNat_min q₁ x.2.quantity
        rw [← UInt32.toNat_inj]
        omega
      have hpartly : x.2.quantity - q₁ ≠ 0 := by
        rw [ne_eq, eq_zero_iff_toNat,
          UInt32.toNat_sub_of_le _ _ (UInt32.le_iff_toNat_le.mpr hlt.le)]
        omega
      rw [walk_fills hz hcross, hpart, UInt32.sub_self, walk_zero, fillHead_partly _ _ _ hpartly,
        List.map_singleton, List.singleton_append]
      dsimp only
      by_cases hz₂ : q₂ = 0
      · rw [hz₂, UInt32.add_zero, walk_fills hz hcross, hpart, UInt32.sub_self, walk_zero,
          walk_zero, fillHead_partly _ _ _ hpartly]
        exact ⟨rfl, fun r hr hr₁ _ => by
          rw [fillsOf_tradeOf hr, fillsOf_tradeOf hr₁, fillsOf_nil, Nat.add_zero]⟩
      · -- the second walk goes on inside the order
        obtain ⟨hwhole, htotal, hleft, hremain⟩ := split_partly hlt hsum
        obtain ⟨hrest, hfills⟩ := walk_ids side limit id id₂
          (q₂ - min q₂ (x.2.quantity - q₁)) xs
        rw [walk_fills hz' hcross,
          walk_fills (x := (x.1, { x.2 with quantity := x.2.quantity - q₁ })) hz₂ hcross, hwhole,
          hleft]
        dsimp only
        refine ⟨by rw [Book.fillHead, Book.fillHead, hremain, hrest], fun r hr hr₁ hr₂ => ?_⟩
        rw [fillsOf_first_add, fillsOf_tradeOf hr, hfills r hr hr₂, fillsOf_tradeOf hr₁,
          fillsOf_first_add _ (walk side id₂ limit (q₂ - min q₂ (x.2.quantity - q₁)) xs).trades,
          fillsOf_tradeOf hr₂, htotal]
        split_ifs <;> omega
    · -- both the first walk and the whole one fill the order
      obtain ⟨hfull₁, hfull, hleft, hsub⟩ := split_filled hle hsum
      obtain ⟨hrest, hfills⟩ := ih (show (q₁ - x.2.quantity).toNat + q₂.toNat < 2 ^ 32 by omega)
      rw [walk_fills hz' hcross, walk_fills hz hcross, hfull, hfull₁,
        fillHead_filled _ _ _ (UInt32.sub_self _), List.map_nil, List.nil_append,
        List.nil_append, hleft]
      dsimp only
      refine ⟨hrest, fun r hr hr₁ hr₂ => ?_⟩
      rw [fillsOf_first_add, fillsOf_tradeOf hr, hfills r hr hr₁ hr₂,
        fillsOf_first_add _ (walk side id₁ limit _ xs).trades, fillsOf_tradeOf hr₁]
      omega

end Walks

section Splitting

/-- An order took from the opposing side what its walk takes, and does not rest. -/
structure Takes (e : RefEngine) (s' : Orderbook n) (side : Side) (id : OrderId) (price : Price)
    (qty : Quantity) (ts : Trades) (b' : Book) : Prop where
  /-- The book that is left. -/
  represents : Represents s' { e with book := b' }
  /-- The trades sweep the opposing side. -/
  steps : Steps (Book.sweepStep side id price) (qty, e.book)
    (walk side id price qty (e.book.orders side.opposite)).trades
    ((walk side id price qty (e.book.orders side.opposite)).left, b')
  /-- What the walk leaves of the opposing side. -/
  opposing : b'.orders side.opposite = (walk side id price qty (e.book.orders side.opposite)).rest
  /-- What the walk takes from every order. -/
  fills : ∀ r, fillsOf ts r =
    fillsOf (walk side id price qty (e.book.orders side.opposite)).trades r

/-- The own side stays as it was. -/
theorem Takes.own {b' : Book} (h : Takes e s' side id price qty ts b') (p : Price) :
    b'.queue side p = e.book.queue side p := queue_sweepSteps h.steps p

/-- A FillOrKill order with enough within reach, or an ImmediateOrCancel order on
a book whose sides are apart. -/
def TakesAtOnce (b : Book) (type : OrderType) (side : Side) (price : Price) (qty : ℕ) : Prop :=
  type = .fillOrKill ∧ qty ≤ b.available side price ∨
    type = .immediateOrCancel ∧ ApartBook b ∧ NoSentinelPair b side price

/-- A book is known by the orders of one side and the queues of the other. -/
theorem eq_of_sides (hopposing : b'.orders side.opposite = b.orders side.opposite)
    (hown : ∀ p, b'.queue side p = b.queue side p) : b' = b := by
  have hside : b'.side side.opposite = b.side side.opposite := Buckets.ext_toList hopposing
  apply BookOf.ext_queue
  intro side' p
  rcases side.eq_or_eq_opposite side' with rfl | rfl
  · exact hown p
  · rw [BookOf.queue, hside, BookOf.queue]

/-- The price of a trade does not matter for what it fills. -/
theorem fillsOf_atLimit (ts : Trades) (r : OrderId) :
    fillsOf (ts.map (atLimit side limit)) r = fillsOf ts r := by
  rw [fillsOf, fillsOf, List.map_map]
  rfl

/-- A walk out of reach takes nothing. -/
theorem walk_cannotMatch (h : ¬b.canMatch side price = true) (id : OrderId) (qty : Quantity) :
    walk side id price qty (b.orders side.opposite) = ⟨[], qty, b.orders side.opposite⟩ := by
  cases horders : b.orders side.opposite with
  | nil => rfl
  | cons x xs =>
    obtain ⟨os, hbest, -⟩ := best?_of_orders horders
    rw [Book.canMatch, hbest] at h
    exact walk_stops (Or.inr (by simpa using h))

/-- A FillOrKill order that can be filled takes what it can. -/
theorem takes_fillOrKill (h : Represents s e) (hvalid : s.validateOrder id price qty = true)
    (hfree : s.freeList ≠ []) (havail : qty.toNat ≤ e.book.available side price) :
    ∃ ts s' b', s.addOrder .fillOrKill id side price qty = .ret ts s' ∧
      Takes e s' side id price qty ts b' := by
  obtain ⟨s', hret, hrep, -⟩ := addOrder_placed h (checked_fillOrKill side hvalid) hfree
  obtain ⟨hleft, b', hfill, hsteps, horders⟩ := fillOrKill_eq_walk id (Nat.not_lt.mpr havail)
  rw [place, if_pos rfl, hfill] at hret hrep
  exact ⟨_, s', b', hret, hrep, by rw [hleft]; exact hsteps, horders, fun _ => rfl⟩

/-- An ImmediateOrCancel order takes what it can. -/
theorem takes_immediateOrCancel (h : Represents s e)
    (hvalid : s.validateOrder id price qty = true) (hfree : s.freeList ≠ []) (hqty : qty ≠ 0)
    (hapart : ApartBook e.book) (hpair : NoSentinelPair e.book side price) :
    ∃ ts s' b', s.addOrder .immediateOrCancel id side price qty = .ret ts s' ∧
      Takes e s' side id price qty ts b' := by
  by_cases hmatch : s.canMatch side price = true
  · have hc := checked_immediateOrCancel side hvalid hmatch
    obtain ⟨s', hret, hrep, -⟩ := addOrder_placed h hc hfree
    obtain ⟨b', hplace, -, horders, hown⟩ := place_eq_walk hapart hpair (checked_unused h hc).2
      (show OrderType.immediateOrCancel ≠ .fillOrKill by simp) hqty
    obtain ⟨b₁, hsteps, -, horders₁⟩ := walk_sweepSteps id price qty
      (rfl : e.book.orders side.opposite = _)
    have hsame : b' = b₁ := eq_of_sides (horders.trans horders₁.symm) fun p => by
      rw [hown p, queue_sweepSteps hsteps]
      simp
    rw [hplace] at hret hrep
    rw [hsame] at hrep horders
    exact ⟨_, s', b₁, hret, hrep, hsteps, horders, fun r => fillsOf_atLimit _ r⟩
  · have hnone : ¬e.book.canMatch side price = true := by
      obtain ⟨⟨L, hw, heq⟩, -, -⟩ := h
      rwa [heq, ← canMatch_eq hw]
    refine ⟨[], s, e.book, addOrder_cannotMatch hmatch, h, ?_, ?_, fun r => ?_⟩ <;>
      rw [walk_cannotMatch hnone]
    exact Steps.refl _

/-- Both kinds of orders take what they can. -/
theorem takes (h : Represents s e) (hvalid : s.validateOrder id price qty = true)
    (hfree : s.freeList ≠ []) (hqty : qty ≠ 0)
    (hkind : TakesAtOnce e.book type side price qty.toNat) :
    ∃ ts s' b', s.addOrder type id side price qty = .ret ts s' ∧
      Takes e s' side id price qty ts b' := by
  rcases hkind with ⟨rfl, havail⟩ | ⟨rfl, hapart, hpair⟩
  · exact takes_fillOrKill h hvalid hfree havail
  · exact takes_immediateOrCancel h hvalid hfree hqty hapart hpair

/-- A sweep leaves no more orders than there were. -/
theorem size_sweepSteps {c c' : Quantity × Book}
    (h : Steps (Book.sweepStep side id limit) c ts c') : c'.2.size ≤ c.2.size := by
  refine h.invariant (I := fun x => x.2.size ≤ c.2.size) (fun x t x' hx hstep => ?_) (Nat.le_refl _)
  have hcases := sweepStep_cases (show Book.sweepStep side id limit (x.1, x.2) =
    some (t, (x'.1, x'.2)) from hstep)
  omega

/-- An order that passes the checks has an unused identifier. -/
theorem find?_of_validateOrder (h : Represents s e)
    (hvalid : s.validateOrder id price qty = true) : e.book.find? id = none := by
  rw [validateOrder_eq h, RefEngine.validateOrder] at hvalid
  by_contra hne
  rw [Book.hasOrder, Option.isSome_iff_ne_none.mpr hne] at hvalid
  cases hvalid

/-- What passed the checks before an order still does after it. -/
theorem Takes.validateOrder {b' : Book} (h : Represents s e)
    (ht : Takes e s' side id₁ price q₁ ts b') (hvalid : s.validateOrder id₂ limit q₂ = true) :
    s'.validateOrder id₂ limit q₂ = true := by
  have hunused := find?_of_validateOrder h hvalid
  rw [validateOrder_eq h, RefEngine.validateOrder] at hvalid
  rw [validateOrder_eq ht.represents, RefEngine.validateOrder]
  have hunused' : b'.hasOrder id₂ = e.book.hasOrder id₂ := by
    rw [Book.hasOrder, Book.hasOrder, (shrinks_sweepSteps ht.steps).find?_eq_none hunused, hunused]
  rw [hunused']
  exact hvalid

/-- An order that takes at once gives its slot back. -/
theorem Takes.freeList_ne_nil {b' : Book} (h : Represents s e)
    (ht : Takes e s' side id₁ price q₁ ts b') (hfree : s.freeList ≠ []) : s'.freeList ≠ [] := by
  rw [ne_eq, freeList_eq_nil_iff h] at hfree
  rw [ne_eq, freeList_eq_nil_iff ht.represents]
  have hsize : b'.size ≤ e.book.size := size_sweepSteps ht.steps
  dsimp only
  omega

/-- The second part of an order can still be taken after the first. -/
theorem Takes.next {b' : Book} (ht : Takes e s' side id₁ price q₁ ts b')
    (hkind : TakesAtOnce e.book type side price (q₁.toNat + q₂.toNat)) :
    TakesAtOnce b' type side price q₂.toNat := by
  have hshrinks : Shrinks e.book b' := shrinks_sweepSteps ht.steps
  rcases hkind with ⟨hfok, havail⟩ | ⟨hioc, hapart, hpair⟩
  · have hsum := available_sweepSteps ht.steps
    dsimp only at hsum
    exact Or.inl ⟨hfok, by omega⟩
  · exact Or.inr ⟨hioc, hapart.shrinks hshrinks, hpair.shrinks hshrinks⟩

/-- An order with an unused identifier is none of the live ones. -/
theorem ne_of_validateOrder (h : Represents s e) (hvalid : s.validateOrder id price qty = true)
    (hlive : s.hasOrder r = true) : r ≠ id := by
  rintro rfl
  rw [validateOrder_eq_meetsRules h, hlive] at hvalid
  cases hvalid

/-- From every reachable state an executable FillOrKill order, and from a state
whose best prices are apart an ImmediateOrCancel order, may be split in two sent
one after the other: every resting order is filled by the same quantity, and no
caller can tell the states they leave from each other. -/
theorem split_orders (h : Reachable s) (hfree : s.freeList ≠ []) (hq₁ : 0 < q₁) (hq₂ : 0 < q₂)
    (hsum : q₁.toNat + q₂.toNat < 2 ^ 32)
    (hvalid₁ : s.validateOrder id₁ price q₁ = true)
    (hvalid₂ : s.validateOrder id₂ price q₂ = true)
    (hvalid : s.validateOrder id price (q₁ + q₂) = true)
    (hkind : type = .fillOrKill ∧ q₁.toNat + q₂.toNat ≤ withinReach s side price ∨
      type = .immediateOrCancel ∧ BestApart s ∧
        (price = side.marketPrice → ¬RestsAt s side.opposite side.opposite.marketPrice)) :
    ∃ ts₁ s₁ ts₂ s₂ ts s', s.addOrder type id₁ side price q₁ = .ret ts₁ s₁ ∧
      s₁.addOrder type id₂ side price q₂ = .ret ts₂ s₂ ∧
      s.addOrder type id side price (q₁ + q₂) = .ret ts s' ∧
      Inseparable s₂ s' ∧
      ∀ r, s.hasOrder r = true → fillsOf ts r = fillsOf ts₁ r + fillsOf ts₂ r := by
  obtain ⟨e, hrep⟩ := reachable_represents h
  have hadd : (q₁ + q₂).toNat = q₁.toNat + q₂.toNat := by
    rw [UInt32.toNat_add, Nat.mod_eq_of_lt hsum]
  have hz₁ : q₁ ≠ 0 := UInt32.pos_iff_ne_zero.mp hq₁
  have hz₂ : q₂ ≠ 0 := UInt32.pos_iff_ne_zero.mp hq₂
  have hz : q₁ + q₂ ≠ 0 := by
    rw [ne_eq, eq_zero_iff_toNat] at hz₁ ⊢
    omega
  have hatOnce : TakesAtOnce e.book type side price (q₁.toNat + q₂.toNat) := by
    rcases hkind with ⟨hfok, hreach⟩ | ⟨hioc, hapart, hremainder⟩
    · exact Or.inl ⟨hfok, by rwa [withinReach_eq hrep] at hreach⟩
    · refine Or.inr ⟨hioc, (bestApart_iff hrep).mp hapart, fun hprice => ?_⟩
      by_contra hne
      exact hremainder hprice ((restsAt_represents hrep _ _).mpr hne)
  have hfirst : TakesAtOnce e.book type side price q₁.toNat :=
    hatOnce.imp_left fun hfok => ⟨hfok.1, by omega⟩
  obtain ⟨ts₁, s₁, b₁, hret₁, ht₁⟩ := takes hrep hvalid₁ hfree hz₁ hfirst
  obtain ⟨ts₂, s₂, b₂, hret₂, ht₂⟩ := takes ht₁.represents (ht₁.validateOrder hrep hvalid₂)
    (ht₁.freeList_ne_nil hrep hfree) hz₂ (ht₁.next hatOnce)
  obtain ⟨ts, s', b', hret, ht⟩ := takes hrep hvalid hfree hz (by rw [hadd]; exact hatOnce)
  obtain ⟨hrest, hfills⟩ := walk_split side price id id₁ id₂ hsum
    (e.book.orders side.opposite)
  have hopposing := ht₂.opposing
  have htaken := ht₂.fills
  dsimp only at hopposing htaken
  rw [ht₁.opposing] at hopposing htaken
  have hsame : b' = b₂ :=
    eq_of_sides (ht.opposing.trans (hrest.trans hopposing.symm)) fun p => by
      rw [ht.own, ht₂.own, ht₁.own]
  refine ⟨ts₁, s₁, ts₂, s₂, ts, s', hret₁, hret₂, hret, ?_, fun r hr => ?_⟩
  · refine inseparable_of_represents ht₂.represents (hsame ▸ ht.represents) ?_
    rw [settings_of_addOrder hrep hret, settings_of_addOrder ht₁.represents hret₂,
      settings_of_addOrder hrep hret₁]
  · rw [ht.fills, ht₁.fills, htaken]
    exact hfills r (ne_of_validateOrder hrep hvalid hr) (ne_of_validateOrder hrep hvalid₁ hr)
      (ne_of_validateOrder hrep hvalid₂ hr)

/-- Six and eight instead of fourteen. -/
theorem split_orders_threeAsks :
    ∃ ts₁ s₁ ts₂ s₂ ts s',
      (after (create 4) threeAsks).addOrder .fillOrKill 8 .buy 101 6 = .ret ts₁ s₁ ∧
      s₁.addOrder .fillOrKill 9 .buy 101 8 = .ret ts₂ s₂ ∧
      (after (create 4) threeAsks).addOrder .fillOrKill 10 .buy 101 (6 + 8) = .ret ts s' ∧
      Inseparable s₂ s' ∧
      ∀ r, (after (create 4) threeAsks).hasOrder r = true →
        fillsOf ts r = fillsOf ts₁ r + fillsOf ts₂ r :=
  split_orders ⟨_, rfl⟩ (by decide +kernel) (by decide) (by decide) (by decide)
    (by decide +kernel) (by decide +kernel) (by decide +kernel)
    (Or.inl ⟨rfl, by decide +kernel⟩)

end Splitting

end OrderbookEngine.OrderLaws
