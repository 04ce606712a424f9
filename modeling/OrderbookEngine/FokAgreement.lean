import OrderbookEngine.Failures
import OrderbookEngine.SweepMatch

/-!
# FillOrKill against ImmediateOrCancel

The same order is added to the same engine as FillOrKill and as
ImmediateOrCancel. The two runs agree when the order is first on its side, meets
no market remainder and uses up all that the orders behind it cross; otherwise
the runs differ in their trades.
-/

namespace OrderbookEngine.FokAgreement

open SortedMap StepRuns MarketTypes PoolBook FeedCalls ReferenceBook LayoutInvariant ReferenceSteps
open FokSimulation EngineSimulation RunRules BookState Additions Fills Failures SweepMatch

variable {n : ℕ} {s s' : Orderbook n} {e e' : RefEngine} {L : Layout n} {id : OrderId}
  {side : Side} {price : Price} {qty : Quantity}

/-- The live orders of a side in price and time order. -/
def inPriority (s : Orderbook n) (side : Side) : List (Fin n) :=
  (s.levels side).entries.flatMap fun e => fifo s side e.1

/-- Two states list the same orders, identifiers and number of free slots. -/
structure SameListings (s s' : Orderbook n) : Prop where
  /-- Same orders in every level, in the same sequence. -/
  fifo : ∀ side price, (fifo s' side price).map (fun i => resting (s'.pool i)) =
    (BookState.fifo s side price).map fun i => resting (s.pool i)
  /-- Same identifiers. -/
  live : ∀ id, s'.hasOrder id = s.hasOrder id
  /-- As many free slots. -/
  free : s'.poolFreeSlots = s.poolFreeSlots

/-- An order is before all orders of its side, meets no opposing market
remainder, or is at the price of one itself, and leaves nothing of the opposing
orders that the orders of its side cross. -/
structure MatchesAlike (s : Orderbook n) (side : Side) (price : Price) (qty : Quantity) :
    Prop where
  /-- Own orders are behind the limit. -/
  behind : ∀ p, RestsAt s side p → side.before price p
  /-- An opposing market remainder changes no price. -/
  remainder : RestsAt s side.opposite side.opposite.marketPrice →
    price = side.opposite.marketPrice
  /-- Quantities add up exactly along the opposing orders ahead. -/
  used : ∀ own, RestsAt s side own → ∀ ahead i behind,
    inPriority s side.opposite = ahead ++ i :: behind → side.crosses own (s.pool i).price →
    (ahead.map fun j => (s.pool j).quantity.toNat).sum < qty.toNat ∧
      (ahead.map fun j => (s.pool j).quantity.toNat).sum + (s.pool i).quantity.toNat ≤ qty.toNat

section Listings

/-- Engines with the same book have the same listings. -/
theorem sameListings (h : Represents s e) (h' : Represents s' e') (hbook : e'.book = e.book) :
    SameListings s s' := by
  have hlive : ∀ id, s'.hasOrder id = s.hasOrder id := by
    intro id
    rw [hasOrder_eq, hasOrder_eq, ← order?_represents h, ← order?_represents h', hbook]
  refine ⟨fun side price => ?_, hlive, ?_⟩
  · have hlisting := listing_eq h' side price
    rw [hbook, ← listing_eq h side price] at hlisting
    exact hlisting
  · have hadd := h.free_add
    have hadd' := h'.free_add
    rw [hbook] at hadd'
    omega

/-- The orders in view are listed in price and time order. -/
theorem orders_view (h : Wf s [] noHoles L) (side : Side) : (view s L).orders side =
    (inPriority s side).map fun i => ((s.pool i).price, resting (s.pool i)) := by
  have hqueue : ∀ e ∈ (L.side side).map.entries, L.queue side e.1 = e.2 := fun e he =>
    ((Buckets.mem_entries_iff _ e.1 e.2).mp he).2
  have hpairs := levels_forall₂ h side
  rw [view, BookOf.orders_mapVal, BookOf.orders, Buckets.toList, inPriority, List.map_flatMap,
    List.map_flatMap]
  generalize (s.levels side).entries = es at hpairs
  generalize (L.side side).map.entries = es' at hpairs hqueue
  induction hpairs with
  | nil => rfl
  | @cons e e' es es' he _ ih =>
    rw [List.forall_mem_cons] at hqueue
    rw [List.flatMap_cons, List.flatMap_cons, ih hqueue.2, fifo_eq h, he.1, hqueue.1, List.map_map]
    congr 1
    refine List.map_congr_left fun i hi => ?_
    have hprice := (h.placed side e'.1 i (by rw [hqueue.1]; exact hi)).2.1
    rw [Function.comp_apply, hprice]

/-- The condition on the engine is that on its book. -/
theorem matchesAlike_iff (h : Represents s e) :
    MatchesAlike s side price qty ↔ SweepsAlike e.book side price qty := by
  have hrests := restsAt_represents h
  obtain ⟨⟨L, hw, heq⟩, -, -⟩ := h
  have horders := orders_view hw side.opposite
  rw [← heq] at horders
  have hsum : ∀ is : List (Fin n), ((is.map fun i => ((s.pool i).price, resting (s.pool i))).map
      fun e => e.2.quantity.toNat) = is.map fun i => (s.pool i).quantity.toNat := fun is => by
    rw [List.map_map]
    rfl
  constructor
  · rintro ⟨hbehind, hremainder, hused⟩
    refine ⟨fun p hp => hbehind p ((hrests _ _).mpr hp),
      fun hp => hremainder ((hrests _ _).mpr hp), fun own hown ahead x behind hx hcross => ?_⟩
    rw [horders, List.map_eq_append_iff] at hx
    obtain ⟨is, js, hsplit, rfl, hjs⟩ := hx
    obtain ⟨i, js, rfl, rfl, rfl⟩ := List.map_eq_cons_iff.mp hjs
    rw [hsum]
    exact hused own ((hrests _ _).mpr hown) is i js hsplit hcross
  · rintro ⟨hbehind, hremainder, hused⟩
    refine ⟨fun p hp => hbehind p ((hrests _ _).mp hp),
      fun hp => hremainder ((hrests _ _).mp hp), fun own hown ahead i behind hi hcross => ?_⟩
    rw [hi, List.map_append, List.map_cons] at horders
    have hresult := hused own ((hrests _ _).mp hown) _ _ _ horders hcross
    rwa [hsum] at hresult

end Listings

section Outcomes

/-- A valid FillOrKill order passes the checks. -/
theorem checked_fillOrKill (side : Side) (hvalid : s.validateOrder id price qty = true) :
    checked s .fillOrKill id side price qty = some (.fillOrKill, price) :=
  checked_eq_some_iff.mpr ⟨if_neg (by simp), hvalid, by simp⟩

/-- A valid ImmediateOrCancel order that can match passes the checks. -/
theorem checked_immediateOrCancel (side : Side) (hvalid : s.validateOrder id price qty = true)
    (hmatch : s.canMatch side price = true) :
    checked s .immediateOrCancel id side price qty = some (.immediateOrCancel, price) :=
  checked_eq_some_iff.mpr ⟨if_neg (by simp), hvalid, by simp [hmatch]⟩

/-- An ImmediateOrCancel order that cannot match is refused. -/
theorem addOrder_cannotMatch (hmatch : ¬s.canMatch side price = true) :
    s.addOrder .immediateOrCancel id side price qty = .ret [] s := by
  refine addOrder_refused ?_
  cases hc : checked s .immediateOrCancel id side price qty with
  | none => rfl
  | some r =>
    obtain ⟨type, price'⟩ := r
    obtain ⟨hconvert, -, hioc⟩ := checked_eq_some_iff.mp hc
    rw [Orderbook.convertMarket, if_neg (by simp)] at hconvert
    cases hconvert
    exact absurd ⟨rfl, hmatch⟩ hioc

/-- The book after ImmediateOrCancel. -/
theorem place_immediateOrCancel (b : Book) (id : OrderId) (side : Side) (price : Price)
    (qty : Quantity) : place b .immediateOrCancel id side price qty =
      (((b.append side price ⟨id, .immediateOrCancel, qty⟩).matchBook side).1,
        ((b.append side price ⟨id, .immediateOrCancel, qty⟩).matchBook side).2.cancel id) := by
  rw [place, if_neg (by simp)]
  simp only [if_true]

/-- An ImmediateOrCancel order is filled within its reach. -/
theorem fills_le_withinReach (h : Represents s e) (hvalid : s.validateOrder id price qty = true)
    (hfree : s.freeList ≠ []) {ts : Trades}
    (hret : s.addOrder .immediateOrCancel id side price qty = .ret ts s') :
    fillsOf ts id ≤ withinReach s side price := by
  by_cases hmatch : s.canMatch side price = true
  · have hc := checked_immediateOrCancel side hvalid hmatch
    have hid := (checked_unused h hc).2
    obtain ⟨s₁, hplaced, -⟩ := addOrder_placed h hc hfree
    rw [hplaced, place_immediateOrCancel] at hret
    cases hret
    rw [find?_eq_none_iff] at hid
    have hside : ∀ side' p, ∀ o ∈ BookOf.queue (e.book.append side price
        ⟨id, .immediateOrCancel, qty⟩) side' p, o.orderId = id → side' = side ∧ p = price := by
      intro side' p o ho hoid
      rw [Book.append, BookOf.queue_setQueue] at ho
      split_ifs at ho with he
      · exact he
      · exact absurd hoid (hid side' p o ho)
    have hle := fills_le_available hside (matchBook_steps side _)
    rw [Book.append, available_setQueue, ← Book.append] at hle
    rw [withinReach_eq h]
    exact Nat.le_trans (Nat.le_add_right _ _) hle
  · rw [addOrder_cannotMatch hmatch] at hret
    cases hret
    exact Nat.zero_le _

/-- A sweep of some quantity trades, and its first order can match. -/
theorem canMatch_of_sweep {b b' : Book} {ts : Trades} (hqty : qty ≠ 0)
    (h : Steps (Book.sweepStep side id price) (qty, b) ts (0, b')) :
    ts ≠ [] ∧ b.canMatch side price = true := by
  generalize hzero : (0 : Quantity) = left at h
  cases h with
  | refl => exact absurd hzero.symm hqty
  | head hstep _ =>
    obtain ⟨p, o, rest, -, hbest, hcross, -⟩ := sweepStep_eq_some_iff.mp hstep
    refine ⟨by simp, ?_⟩
    rw [Book.canMatch, hbest]
    simpa using hcross

end Outcomes

/-- From every reachable engine, a FillOrKill order that passes validation agrees
with the same order as ImmediateOrCancel exactly when it is killed or matches
alike. It executes exactly when its quantity is within reach. -/
theorem fok_agrees_iff (h : Reachable s) (hvalid : s.validateOrder id price qty = true)
    (hfree : s.freeList ≠ []) (hqty : 0 < qty) :
    ∃ ts s₁ ts' s₂, s.addOrder .fillOrKill id side price qty = .ret ts s₁ ∧
      s.addOrder .immediateOrCancel id side price qty = .ret ts' s₂ ∧
      (ts ≠ [] ↔ qty.toNat ≤ withinReach s side price) ∧
      (((ts ≠ [] → ts' = ts ∧ SameListings s₁ s₂) ∧ (fillsOf ts' id = qty.toNat → ts ≠ [])) ↔
        withinReach s side price < qty.toNat ∨ MatchesAlike s side price qty) := by
  obtain ⟨e, hrep⟩ := reachable_represents h
  have hz : qty ≠ 0 := by grind
  have hpos : qty.toNat ≠ 0 := fun h0 => hz ((eq_zero_iff_toNat qty).mpr h0)
  have hc := checked_fillOrKill side hvalid
  have hid := (checked_unused hrep hc).2
  obtain ⟨s₁, hfok, hrep₁, -⟩ := addOrder_placed hrep hc hfree
  rw [show place e.book .fillOrKill id side price qty = e.book.fillOrKill side id price qty from
    if_pos rfl] at hfok hrep₁
  have hreach := withinReach_eq hrep side price
  by_cases havail : withinReach s side price < qty.toNat
  · -- the FillOrKill order is killed, and the other one is not filled either
    have hkilled : e.book.fillOrKill side id price qty = ([], e.book) :=
      if_pos (by rw [← hreach]; exact havail)
    rw [hkilled] at hfok
    obtain ⟨ts', s₂, hioc⟩ : ∃ ts' s₂,
        s.addOrder .immediateOrCancel id side price qty = .ret ts' s₂ := by
      by_cases hmatch : s.canMatch side price = true
      · obtain ⟨s₂, hioc, -⟩ :=
          addOrder_placed hrep (checked_immediateOrCancel side hvalid hmatch) hfree
        exact ⟨_, s₂, hioc⟩
      · exact ⟨[], s, addOrder_cannotMatch hmatch⟩
    have hle := fills_le_withinReach hrep hvalid hfree hioc
    refine ⟨[], s₁, ts', s₂, hfok, hioc, iff_of_false (by simp) (by omega), ?_⟩
    exact iff_of_true ⟨fun hne => absurd rfl hne, fun heq => by omega⟩ (Or.inl havail)
  · -- the FillOrKill order executes
    have hsweep := fillOrKill_steps id (fun hlt => havail (by rw [hreach]; exact hlt))
    obtain ⟨hne, hmatch⟩ := canMatch_of_sweep hz hsweep
    have hmatch' : s.canMatch side price = true := by
      obtain ⟨⟨L, hw, heq⟩, -, -⟩ := hrep
      rw [canMatch_eq hw, ← heq]
      exact hmatch
    obtain ⟨s₂, hioc, hrep₂, -⟩ :=
      addOrder_placed hrep (checked_immediateOrCancel side hvalid hmatch') hfree
    rw [place_immediateOrCancel] at hioc hrep₂
    refine ⟨_, s₁, _, s₂, hfok, hioc, iff_of_true hne (by omega), ?_⟩
    rw [or_iff_right havail, matchesAlike_iff hrep]
    constructor
    · rintro ⟨hagree, -⟩
      exact sweepsAlike_of_trades hid hz hsweep (hagree hne).1
    · intro hs
      have hbook := hs.matchBook_eq hz hsweep
      have hgone : (e.book.fillOrKill side id price qty).2.find? id = none :=
        (shrinks_sweepSteps hsweep).find?_eq_none hid
      rw [hbook] at hrep₂ ⊢
      exact ⟨fun _ => ⟨rfl, sameListings hrep₁ hrep₂ (cancel_of_find?_none hgone)⟩, fun _ => hne⟩

/-- A resting sell of 8 units. -/
def oneSell : List Call := [.addOrder .goodTillCancel 1 .sell 100 8]

/-- A buy against one sell. -/
theorem fok_agrees_iff_oneSell :
    ∃ ts s₁ ts' s₂, (after (create 4) oneSell).addOrder .fillOrKill 2 .buy 101 5 = .ret ts s₁ ∧
      (after (create 4) oneSell).addOrder .immediateOrCancel 2 .buy 101 5 = .ret ts' s₂ ∧
      (ts ≠ [] ↔ (5 : Quantity).toNat ≤ withinReach (after (create 4) oneSell) .buy 101) ∧
      (((ts ≠ [] → ts' = ts ∧ SameListings s₁ s₂) ∧
          (fillsOf ts' 2 = (5 : Quantity).toNat → ts ≠ [])) ↔
        withinReach (after (create 4) oneSell) .buy 101 < (5 : Quantity).toNat ∨
          MatchesAlike (after (create 4) oneSell) .buy 101 5) :=
  fok_agrees_iff ⟨_, rfl⟩ (by decide +kernel) (by decide +kernel) (by decide)

/-- A market sell of which 5 units are left to rest. -/
def sellLeft : List Call :=
  [.addOrder .goodTillCancel 1 .buy 100 5, .addOrder .market 2 .sell 0 10]

/-- Against the remainder the two orders trade at different prices. -/
theorem sellLeft_disagrees : Reachable (after (create 4) sellLeft) ∧
    (after (create 4) sellLeft).validateOrder 3 100 5 = true ∧
    (after (create 4) sellLeft).freeList ≠ [] ∧
    (perform (after (create 4) sellLeft) (.addOrder .fillOrKill 3 .buy 100 5)).1 =
      .trades [⟨3, 2, Int32.minValue, 5⟩] ∧
    (perform (after (create 4) sellLeft) (.addOrder .immediateOrCancel 3 .buy 100 5)).1 =
      .trades [⟨3, 2, 100, 5⟩] ∧
    ¬∀ ts s₁ ts' s₂, (after (create 4) sellLeft).addOrder .fillOrKill 3 .buy 100 5 = .ret ts s₁ →
      (after (create 4) sellLeft).addOrder .immediateOrCancel 3 .buy 100 5 = .ret ts' s₂ →
      ts ≠ [] → ts' = ts := by
  have hfok : (perform (after (create 4) sellLeft) (.addOrder .fillOrKill 3 .buy 100 5)).1 =
      .trades [⟨3, 2, Int32.minValue, 5⟩] := by decide +kernel
  have hioc : (perform (after (create 4) sellLeft) (.addOrder .immediateOrCancel 3 .buy 100 5)).1 =
      .trades [⟨3, 2, 100, 5⟩] := by decide +kernel
  refine ⟨⟨_, rfl⟩, by decide +kernel, by decide +kernel, hfok, hioc, fun hall => ?_⟩
  obtain ⟨s₁, hret⟩ := ret_of_settle hfok
  obtain ⟨s₂, hret'⟩ := ret_of_settle hioc
  exact absurd (hall _ s₁ _ s₂ hret hret' (by simp)) (by decide)

end OrderbookEngine.FokAgreement
