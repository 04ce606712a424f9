import OrderbookEngine.OrderLaws

/-!
# Chased orders

What an ImmediateOrCancel order could not take may be sent again with a better
limit. A walk that goes on where another one stopped is one walk, so that the
two orders take together what a single one with the better limit takes.
-/

namespace OrderbookEngine.ChasedOrders

open MarketTypes PoolBook FeedCalls ReferenceBook SlotSteps ReferenceSteps RunRules BookState
open Additions Fills SweepMatch GreedyWalk AllOrNothing PriceTimeSweep FeedCounters OrderLaws

variable {n : ℕ} {s : Orderbook n} {id id₁ : OrderId} {side : Side} {limit limit' : Price}
  {xs : List (Price × Resting)}

section Walks

/-- A limit that reaches whatever another one reaches. -/
def Reaches (side : Side) (limit' limit : Price) : Prop :=
  ∀ p, side.crosses limit p → side.crosses limit' p

/-- A limit that is not better reaches no further. -/
theorem reaches_of_not_before (h : ¬side.before limit limit') : Reaches side limit' limit := by
  intro p hp
  cases side <;> simp only [Side.before, Side.crosses] at * <;> grind

/-- A walk that goes on where another one stopped. -/
def goOn (side : Side) (id : OrderId) (limit' : Price) (w : Walked) : Walked :=
  let later := walk side id limit' w.left w.rest
  ⟨w.trades ++ later.trades, later.left, later.rest⟩

/-- Going on with a better limit is the walk with that limit. -/
theorem goOn_walk (h : Reaches side limit' limit) (id : OrderId) (left : Quantity)
    (xs : List (Price × Resting)) :
    goOn side id limit' (walk side id limit left xs) = walk side id limit' left xs := by
  induction xs generalizing left with
  | nil => rfl
  | cons x xs ih =>
    by_cases hstop : left = 0 ∨ ¬side.crosses limit x.1
    · rw [walk_stops hstop, goOn, List.nil_append]
    · obtain ⟨hleft, hcross⟩ := not_or.mp hstop
      have hnext := ih (left - min left x.2.quantity)
      rw [walk_fills hleft (not_not.mp hcross), walk_fills hleft (h _ (not_not.mp hcross)),
        ← hnext, goOn, goOn]
      dsimp only
      rw [Book.fillHead]
      split_ifs with hz
      · rfl
      · -- an order that is left partly filled has used up the quantity
        have hdone : left - min left x.2.quantity = 0 := by
          rw [min_eq_left_of_partly hz, UInt32.sub_self]
        rw [hdone, walk_zero]
        simp only [walk_zero]
        rfl

/-- What a walk trades and what it leaves is the whole quantity. -/
theorem fillsOf_walk (side : Side) (hxs : ∀ x ∈ xs, x.2.orderId ≠ id) (limit : Price)
    (left : Quantity) :
    fillsOf (walk side id limit left xs).trades id + (walk side id limit left xs).left.toNat =
      left.toNat := by
  induction xs generalizing left with
  | nil => exact Nat.zero_add _
  | cons x xs ih =>
    rw [List.forall_mem_cons] at hxs
    by_cases hstop : left = 0 ∨ ¬side.crosses limit x.1
    · rw [walk_stops hstop]
      exact Nat.zero_add _
    · obtain ⟨hleft, hcross⟩ := not_or.mp hstop
      have hnext := ih hxs.2 (left - min left x.2.quantity)
      have hsub := toNat_sub_min_left left x.2.quantity
      have hmin := toNat_min left x.2.quantity
      have hown : fillsOf [Book.tradeOf side id x.2.orderId x.1 (min left x.2.quantity)] id =
          (min left x.2.quantity).toNat := by
        cases side <;> simp [fillsOf_cons, Book.tradeOf, hxs.1]
      rw [walk_fills hleft (not_not.mp hcross), fillsOf_first_add, hown]
      dsimp only
      omega

/-- Two walks one after the other leave what one walk leaves and fill what it
fills, whatever identifiers they are made for. -/
theorem walk_chased (h : Reaches side limit' limit) (id id₁ id₂ : OrderId) (left : Quantity)
    (xs : List (Price × Resting)) :
    let w := walk side id₁ limit left xs
    let later := walk side id₂ limit' w.left w.rest
    later.rest = (walk side id limit' left xs).rest ∧
      ∀ r, r ≠ id → r ≠ id₁ → r ≠ id₂ → fillsOf (walk side id limit' left xs).trades r =
        fillsOf w.trades r + fillsOf later.trades r := by
  intro w later
  have hgo := goOn_walk h id₁ left xs
  obtain ⟨hrest, hfills⟩ := walk_ids side limit' id id₁ left xs
  obtain ⟨hrest', hfills'⟩ := walk_ids side limit' id₂ id₁ w.left w.rest
  rw [← hgo] at hrest hfills
  refine ⟨hrest'.trans hrest.symm, fun r hr hr₁ hr₂ => ?_⟩
  rw [hfills r hr hr₁, hfills' r hr₂ hr₁, goOn, fillsOf_append]

end Walks

section Chasing

/-- A limit at least as good as a market price is that market price. -/
theorem noSentinelPair_worse {b : Book} (h : NoSentinelPair b side limit')
    (hbetter : ¬side.before limit limit') : NoSentinelPair b side limit := by
  intro hmarket
  refine h ?_
  rcases trichotomous_of side.before limit limit' with hlt | heq | hgt
  · exact absurd hlt hbetter
  · rw [← heq, hmarket]
  · rw [hmarket] at hgt
    exact absurd hgt (side.not_before_marketPrice limit')

end Chasing

/-- From every reachable state whose best prices are apart, an ImmediateOrCancel
order that was filled already does what the order with a better limit does.
Otherwise its remainder, sent again with the better limit, brings every resting
order and the book to where that order brings them. -/
theorem chase_orders {q : Quantity} (h : Reachable s) (hapart : BestApart s)
    (hfree : s.freeList ≠ []) (hq : 0 < q) (hbetter : ¬side.before limit limit')
    (hremainder : limit' = side.marketPrice → ¬RestsAt s side.opposite side.opposite.marketPrice)
    (hvalid₁ : s.validateOrder id₁ limit q = true) (hvalid : s.validateOrder id limit' q = true) :
    ∃ ts₁ s₁ ts s', s.addOrder .immediateOrCancel id₁ side limit q = .ret ts₁ s₁ ∧
      s.addOrder .immediateOrCancel id side limit' q = .ret ts s' ∧
      (fillsOf ts₁ id₁ = q.toNat → Inseparable s₁ s' ∧
        ∀ r, s.hasOrder r = true → fillsOf ts r = fillsOf ts₁ r) ∧
      ∀ id₂ q₂, 0 < q₂ → fillsOf ts₁ id₁ + q₂.toNat = q.toNat →
        s.validateOrder id₂ limit' q₂ = true →
        ∃ ts₂ s₂, s₁.addOrder .immediateOrCancel id₂ side limit' q₂ = .ret ts₂ s₂ ∧
          Inseparable s₂ s' ∧
          ∀ r, s.hasOrder r = true → fillsOf ts r = fillsOf ts₁ r + fillsOf ts₂ r := by
  obtain ⟨e, hrep⟩ := reachable_represents h
  have hbook := (bestApart_iff hrep).mp hapart
  have hpair : NoSentinelPair e.book side limit' := fun hprice => by
    by_contra hne
    exact hremainder hprice ((restsAt_represents hrep _ _).mpr hne)
  have hreaches := reaches_of_not_before hbetter
  have hz : q ≠ 0 := UInt32.pos_iff_ne_zero.mp hq
  obtain ⟨ts₁, s₁, b₁, hret₁, ht₁⟩ := takes_immediateOrCancel hrep hvalid₁ hfree hz hbook
    (noSentinelPair_worse hpair hbetter)
  obtain ⟨ts, s', b', hret, ht⟩ := takes_immediateOrCancel hrep hvalid hfree hz hbook hpair
  have hunused : ∀ x ∈ e.book.orders side.opposite, x.2.orderId ≠ id₁ := fun x hx =>
    find?_eq_none_iff.mp (find?_of_validateOrder hrep hvalid₁) side.opposite x.1 x.2
      ((BookOf.mem_orders _ _ _ _).mp hx)
  have hleft := fillsOf_walk side hunused limit q
  rw [← ht₁.fills] at hleft
  refine ⟨ts₁, s₁, ts, s', hret₁, hret, fun hall => ?_, fun id₂ q₂ hq₂ hrest hvalid₂ => ?_⟩
  · obtain ⟨hrest, hfills⟩ := walk_chased hreaches id id₁ id₁ q (e.book.orders side.opposite)
    have hzero : (walk side id₁ limit q (e.book.orders side.opposite)).left = 0 := by
      rw [eq_zero_iff_toNat]
      omega
    rw [hzero, walk_zero] at hrest hfills
    have hsame : b' = b₁ :=
      eq_of_sides (ht.opposing.trans (hrest.symm.trans ht₁.opposing.symm)) fun p => by
        rw [ht.own, ht₁.own]
    have hset : settings s' = settings s₁ := by
      rw [settings_of_addOrder hrep hret, settings_of_addOrder hrep hret₁]
    refine ⟨inseparable_of_represents ht₁.represents (hsame ▸ ht.represents) hset,
      fun r hr => ?_⟩
    have hr₁ := ne_of_validateOrder hrep hvalid₁ hr
    rw [ht.fills, ht₁.fills, hfills r (ne_of_validateOrder hrep hvalid hr) hr₁ hr₁, fillsOf_nil,
      Nat.add_zero]
  · have hshrinks : Shrinks e.book b₁ := shrinks_sweepSteps ht₁.steps
    have hkind : TakesAtOnce b₁ .immediateOrCancel side limit' q₂.toNat :=
      Or.inr ⟨rfl, hbook.shrinks hshrinks, hpair.shrinks hshrinks⟩
    obtain ⟨ts₂, s₂, b₂, hret₂, ht₂⟩ := takes ht₁.represents (ht₁.validateOrder hrep hvalid₂)
      (ht₁.freeList_ne_nil hrep hfree) (UInt32.pos_iff_ne_zero.mp hq₂) hkind
    obtain ⟨hchased, hfills⟩ := walk_chased hreaches id id₁ id₂ q (e.book.orders side.opposite)
    have hq₂left : (walk side id₁ limit q (e.book.orders side.opposite)).left = q₂ := by
      rw [← UInt32.toNat_inj]
      omega
    rw [hq₂left] at hchased hfills
    have hopposing := ht₂.opposing
    have htaken := ht₂.fills
    dsimp only at hopposing htaken
    rw [ht₁.opposing] at hopposing htaken
    have hsame : b' = b₂ :=
      eq_of_sides (ht.opposing.trans (hchased.symm.trans hopposing.symm)) fun p => by
        rw [ht.own, ht₂.own, ht₁.own]
    have hset : settings s' = settings s₂ := by
      rw [settings_of_addOrder hrep hret, settings_of_addOrder ht₁.represents hret₂,
        settings_of_addOrder hrep hret₁]
    refine ⟨ts₂, s₂, hret₂,
      inseparable_of_represents ht₂.represents (hsame ▸ ht.represents) hset, fun r hr => ?_⟩
    rw [ht.fills, ht₁.fills, htaken]
    exact hfills r (ne_of_validateOrder hrep hvalid hr) (ne_of_validateOrder hrep hvalid₁ hr)
      (ne_of_validateOrder hrep hvalid₂ hr)

/-- Fourteen at 100 take twelve, and the other two follow at 101. -/
theorem chase_orders_threeAsks : ∃ ts₁ s₁ ts₂ s₂ ts s',
    (after (create 4) threeAsks).addOrder .immediateOrCancel 8 .buy 100 14 = .ret ts₁ s₁ ∧
      s₁.addOrder .immediateOrCancel 9 .buy 101 2 = .ret ts₂ s₂ ∧
      (after (create 4) threeAsks).addOrder .immediateOrCancel 10 .buy 101 14 = .ret ts s' ∧
      Inseparable s₂ s' := by
  have hapart : BestApart (after (create 4) threeAsks) := by
    intro bid ask lvl lvl' hf
    have hnone : (after (create 4) threeAsks).bids.first?.map Prod.fst = none := by
      decide +kernel
    rw [hf] at hnone
    cases hnone
  have hremainder : (101 : Price) = Side.buy.marketPrice →
      ¬RestsAt (after (create 4) threeAsks) .sell Side.sell.marketPrice := by
    intro hprice
    exact absurd hprice (by decide)
  have hfirst : (after (create 4) threeAsks).validateOrder 8 100 14 = true := by
    decide +kernel
  have hwhole : (after (create 4) threeAsks).validateOrder 10 101 14 = true := by
    decide +kernel
  have hbetter : ¬Side.buy.before 100 101 := by
    decide
  obtain ⟨ts₁, s₁, ts, s', hret₁, hret, -, hchase⟩ := chase_orders ⟨_, rfl⟩ hapart
    (by decide +kernel) (by decide) hbetter hremainder hfirst hwhole
  have hreply : (perform (after (create 4) threeAsks)
      (.addOrder .immediateOrCancel 8 .buy 100 14)).1 =
        .trades [⟨8, 1, 100, 5⟩, ⟨8, 2, 100, 7⟩] := by
    decide +kernel
  rw [perform, hret₁] at hreply
  cases hreply
  have hremaining : (after (create 4) threeAsks).validateOrder 9 101 2 = true := by
    decide +kernel
  obtain ⟨ts₂, s₂, hret₂, hsame, -⟩ := hchase 9 2 (by decide) (by decide) hremaining
  exact ⟨_, s₁, ts₂, s₂, ts, s', hret₁, hret₂, hret, hsame⟩

end OrderbookEngine.ChasedOrders
