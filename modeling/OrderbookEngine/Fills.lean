import OrderbookEngine.ReferenceSteps

/-!
# What trades do to the orders of a book

A book is filled by given amounts if every order has lost its amount, and has
left the book only if it lost all of its quantity. One fill of a first order is
of this kind, and so are, by composition, all runs of matching and sweeping
steps with the amounts of the trades they emit.
-/

namespace OrderbookEngine.Fills

open StepRuns MarketTypes PoolBook ReferenceBook ReferenceSteps

variable {b b' b'' : Book} {f g : OrderId → ℕ} {id : OrderId} {side aggressorSide : Side}
  {price limit : Price} {o : Resting} {t : Trade} {ts : Trades}

/-- Exact quantity by which trades fill an order. -/
def fillsOf (ts : Trades) (id : OrderId) : ℕ :=
  (ts.map fun t => (if t.bidOrderId = id then t.quantity.toNat else 0) +
    if t.askOrderId = id then t.quantity.toNat else 0).sum

/-- Without trades nothing is filled. -/
@[simp] theorem fillsOf_nil (id : OrderId) : fillsOf [] id = 0 := rfl

/-- The fills of an order by one more trade. -/
theorem fillsOf_cons (t : Trade) (ts : Trades) (id : OrderId) :
    fillsOf (t :: ts) id = (if t.bidOrderId = id then t.quantity.toNat else 0) +
      (if t.askOrderId = id then t.quantity.toNat else 0) + fillsOf ts id := by
  rw [fillsOf, List.map_cons, List.sum_cons]
  rfl

/-- The first trade fills by itself, and the others add to it. -/
theorem fillsOf_first_add (t : Trade) (ts : Trades) (id : OrderId) :
    fillsOf (t :: ts) id = fillsOf [t] id + fillsOf ts id := by
  rw [fillsOf_cons, fillsOf_cons, fillsOf_nil, Nat.add_zero]

/-- Every order of the first book has lost its amount in the second. -/
structure FilledBy (f : OrderId → ℕ) (b b' : Book) : Prop where
  /-- No order appears, and absent orders are not filled. -/
  absent : ∀ id, b.find? id = none → b'.find? id = none ∧ f id = 0
  /-- An order keeps its place with what is left, or leaves when nothing is. -/
  present : ∀ id side price o, b.find? id = some (side, price, o) →
    (b'.find? id = none ∧ f id = o.quantity.toNat) ∨
      ∃ o', b'.find? id = some (side, price, o') ∧ o'.orderType = o.orderType ∧
        o'.quantity.toNat + f id = o.quantity.toNat

/-- A book is filled by nothing into itself. -/
theorem FilledBy.refl (b : Book) : FilledBy (fun _ => 0) b b where
  absent := fun _ h => ⟨h, rfl⟩
  present := fun _ _ _ o h => Or.inr ⟨o, h, rfl, rfl⟩

/-- Fills add up. -/
theorem FilledBy.trans (h : FilledBy f b b') (h' : FilledBy g b' b'') :
    FilledBy (fun id => f id + g id) b b'' where
  absent := by
    intro id hid
    obtain ⟨hid', hf⟩ := h.absent id hid
    obtain ⟨hid'', hg⟩ := h'.absent id hid'
    exact ⟨hid'', by rw [hf, hg]⟩
  present := by
    intro id side price o ho
    rcases h.present id side price o ho with ⟨hgone, hf⟩ | ⟨o', ho', htype, hf⟩
    · obtain ⟨hgone', hg⟩ := h'.absent id hgone
      exact Or.inl ⟨hgone', by rw [hf, hg, Nat.add_zero]⟩
    · rcases h'.present id side price o' ho' with ⟨hgone, hg⟩ | ⟨o'', ho'', htype', hg⟩
      · exact Or.inl ⟨hgone, by omega⟩
      · exact Or.inr ⟨o'', ho'', htype'.trans htype, by omega⟩

/-- Equal fills fill alike. -/
theorem FilledBy.congr (h : FilledBy f b b') (hfg : ∀ id, f id = g id) : FilledBy g b b' := by
  have heq : f = g := funext hfg
  exact heq ▸ h

/-- An order that is left was there, at the same place and with its type. -/
theorem FilledBy.find?_left (h : FilledBy f b b') (ho : b'.find? id = some (side, price, o)) :
    ∃ o', b.find? id = some (side, price, o') ∧ o.orderType = o'.orderType := by
  cases hb : b.find? id with
  | none =>
    rw [(h.absent id hb).1] at ho
    cases ho
  | some r =>
    obtain ⟨side', price', o'⟩ := r
    rcases h.present id side' price' o' hb with ⟨hgone, -⟩ | ⟨o'', ho'', htype, -⟩
    · rw [hgone] at ho
      cases ho
    · rw [ho''] at ho
      cases ho
      exact ⟨o', rfl, htype⟩

/-- Distinctness survives a fill. -/
theorem distinct_fillHead (hd : Distinct b) {rest : List Resting}
    (hq : b.queue side price = o :: rest) (qty : Quantity) :
    Distinct (b.setQueue side price (Book.fillHead qty o rest)) :=
  hd.of_sublist (shrinks_fillHead hq qty)

/-- Filling the first order of a queue changes what is found under its identifier
only; a filled order is found no more. -/
theorem find?_fillHead (hd : Distinct b) {rest : List Resting}
    (hq : b.queue side price = o :: rest) (qty : Quantity) (id : OrderId) :
    Book.find? (b.setQueue side price (Book.fillHead qty o rest)) id =
      if id = o.orderId then
        if o.quantity - qty = 0 then none
        else some (side, price, { o with quantity := o.quantity - qty })
      else b.find? id := by
  have hd' := distinct_fillHead hd hq qty
  have hq' : b.queue side price = [] ++ o :: rest := hq
  split_ifs with hid hz
  · -- a filled order leaves its queue as if it were cancelled
    rw [fillHead_filled qty o rest hz, find?_eq_none_iff, hid, ← List.nil_append rest,
      ← cancel_eq_setQueue hd hq' rfl]
    intro side' price' x hx
    rw [Book.cancel, BookOf.queue_filter] at hx
    simpa using (List.mem_filter.mp hx).2
  · rw [find?_eq_some_iff hd', fillHead_partly qty o rest hz, BookOf.queue_setQueue_self]
    exact ⟨List.mem_cons_self, hid.symm⟩
  · cases hx : b.find? id with
    | none => exact (shrinks_fillHead hq qty).find?_eq_none hx
    | some r =>
      obtain ⟨side', price', x⟩ := r
      obtain ⟨hmem, hxid⟩ := find?_mem hx
      rw [find?_eq_some_iff hd', BookOf.queue_setQueue]
      refine ⟨?_, hxid⟩
      split_ifs with he
      · rw [he.1, he.2, hq] at hmem
        rcases List.mem_cons.mp hmem with rfl | hrest
        · exact absurd hxid.symm hid
        · rw [Book.fillHead]
          split_ifs
          · exact hrest
          · exact List.mem_cons_of_mem _ hrest
      · exact hmem

/-- One fill of the first order of a queue. -/
theorem filledBy_fillHead (hd : Distinct b) {rest : List Resting}
    (hq : b.queue side price = o :: rest) {qty : Quantity}
    (hle : qty.toNat ≤ o.quantity.toNat) :
    FilledBy (fun id => if id = o.orderId then qty.toNat else 0) b
      (b.setQueue side price (Book.fillHead qty o rest)) := by
  have ho : b.find? o.orderId = some (side, price, o) := by
    rw [find?_eq_some_iff hd, hq]
    exact ⟨List.mem_cons_self, rfl⟩
  have hsub : (o.quantity - qty).toNat = o.quantity.toNat - qty.toNat :=
    UInt32.toNat_sub_of_le _ _ (UInt32.le_iff_toNat_le.mpr hle)
  constructor
  case absent =>
    intro id hid
    have hne : id ≠ o.orderId := by
      rintro rfl
      rw [ho] at hid
      cases hid
    rw [find?_fillHead hd hq, if_neg hne]
    exact ⟨hid, if_neg hne⟩
  case present =>
    intro id side' price' x hx
    rw [find?_fillHead hd hq]
    by_cases hid : id = o.orderId
    · rw [if_pos hid, if_pos hid]
      rw [hid, ho] at hx
      cases hx
      split_ifs with hz
      · rw [eq_zero_iff_toNat, hsub] at hz
        exact Or.inl ⟨rfl, by omega⟩
      · refine Or.inr ⟨_, rfl, rfl, ?_⟩
        change (o.quantity - qty).toNat + qty.toNat = _
        omega
    · rw [if_neg hid, if_neg hid]
      exact Or.inr ⟨x, hx, rfl, rfl⟩

section Match

/-- The two orders of a matching step, and its price between their limits. -/
theorem matchStep_legs (h : Book.matchStep aggressorSide b = some (t, b')) :
    ∃ bidPrice bid bids askPrice ask asks, b.best? .buy = some (bidPrice, bid, bids) ∧
      b.best? .sell = some (askPrice, ask, asks) ∧ bid.orderId = t.bidOrderId ∧
      ask.orderId = t.askOrderId ∧ t.quantity = min bid.quantity ask.quantity ∧
      askPrice ≤ t.price ∧ t.price ≤ bidPrice := by
  obtain ⟨bidPrice, bid, bids, askPrice, ask, asks, hb, ha, hcross, -, rfl, -⟩ :=
    matchStep_eq_some_iff.mp h
  refine ⟨bidPrice, bid, bids, askPrice, ask, asks, hb, ha, rfl, rfl, rfl, ?_, ?_⟩
  · simp only [tradePrice]
    split_ifs <;> grind
  · simp only [tradePrice]
    split_ifs <;> grind

/-- The best order is found under its identifier. -/
theorem find?_of_best? (hd : Distinct b) {rest : List Resting}
    (hb : b.best? side = some (price, o, rest)) : b.find? o.orderId = some (side, price, o) := by
  rw [find?_eq_some_iff hd, BookOf.queue_of_best? hb]
  exact ⟨List.mem_cons_self, rfl⟩

/-- A matching step fills its two orders by the quantity of its trade. -/
theorem matchStep_filledBy (hd : Distinct b)
    (h : Book.matchStep aggressorSide b = some (t, b')) : FilledBy (fillsOf [t]) b b' := by
  obtain ⟨bidPrice, bid, bids, askPrice, ask, asks, hb, ha, -, -, rfl, rfl⟩ :=
    matchStep_eq_some_iff.mp h
  have hbq := BookOf.queue_of_best? hb
  have haq := BookOf.queue_of_best? ha
  have hmin := toNat_min bid.quantity ask.quantity
  have haq' : (b.setQueue .buy bidPrice (Book.fillHead (min bid.quantity ask.quantity) bid
      bids)).queue .sell askPrice = ask :: asks := by
    rw [BookOf.queue_setQueue, if_neg (by simp), haq]
  have hbid : FilledBy _ b _ :=
    filledBy_fillHead hd hbq (show (min bid.quantity ask.quantity).toNat ≤ _ by omega)
  have hask : FilledBy _ _ _ := filledBy_fillHead (distinct_fillHead hd hbq _) haq'
    (show (min bid.quantity ask.quantity).toNat ≤ _ by omega)
  refine (hbid.trans hask).congr fun id => ?_
  simp only [fillsOf_cons, fillsOf_nil, Nat.add_zero, eq_comm]

/-- Matching steps fill the orders of a book by the trades they emit. -/
theorem matchSteps_filledBy (hd : Distinct b)
    (h : Steps (Book.matchStep aggressorSide) b ts b') : FilledBy (fillsOf ts) b b' := by
  induction h with
  | refl b => exact FilledBy.refl b
  | head hstep _ ih =>
    refine ((matchStep_filledBy hd hstep).trans (ih (hd.matchStep hstep))).congr fun id => ?_
    exact (fillsOf_first_add _ _ id).symm

/-- Matching keeps identifiers distinct. -/
theorem matchSteps_distinct (hd : Distinct b)
    (h : Steps (Book.matchStep aggressorSide) b ts b') : Distinct b' :=
  h.invariant (fun _ _ _ hd hstep => Distinct.matchStep hd hstep) hd

/-- Trades name an order and fill it by exactly a quantity. -/
def Exhausts (ts : Trades) (id : OrderId) (qty : ℕ) : Prop :=
  (∃ t ∈ ts, t.bidOrderId = id ∨ t.askOrderId = id) ∧ fillsOf ts id = qty

instance (ts : Trades) (id : OrderId) (qty : ℕ) : Decidable (Exhausts ts id qty) :=
  inferInstanceAs (Decidable (_ ∧ _))

/-- An order that is party to no trade is not filled. -/
theorem fillsOf_eq_zero (h : ¬∃ t ∈ ts, t.bidOrderId = id ∨ t.askOrderId = id) :
    fillsOf ts id = 0 := by
  induction ts with
  | nil => rfl
  | cons t ts ih =>
    have ht : ¬(t.bidOrderId = id ∨ t.askOrderId = id) := fun hn => h ⟨t, List.mem_cons_self, hn⟩
    rw [not_or] at ht
    rw [fillsOf_cons, if_neg ht.1, if_neg ht.2,
      ih fun ⟨t', hmem, hn⟩ => h ⟨t', List.mem_cons_of_mem _ hmem, hn⟩]

/-- An order leaves in a matching step exactly if the trade exhausts it. -/
theorem matchStep_gone_iff (hd : Distinct b) (h : Book.matchStep aggressorSide b = some (t, b'))
    (ho : b.find? id = some (side, price, o)) :
    b'.find? id = none ↔ Exhausts [t] id o.quantity.toNat := by
  obtain ⟨bidPrice, bid, bids, askPrice, ask, asks, hb, ha, -, -, rfl, rfl⟩ :=
    matchStep_eq_some_iff.mp h
  have hbq := BookOf.queue_of_best? hb
  have haq := BookOf.queue_of_best? ha
  have hfb := find?_of_best? hd hb
  have hfa := find?_of_best? hd ha
  have hne : bid.orderId ≠ ask.orderId := by
    intro he
    rw [he, hfa] at hfb
    cases hfb
  obtain ⟨qty, hqty⟩ : ∃ qty, qty = min bid.quantity ask.quantity := ⟨_, rfl⟩
  have hmin := toNat_min bid.quantity ask.quantity
  rw [← hqty] at hmin ⊢
  have haq' : (b.setQueue .buy bidPrice (Book.fillHead qty bid bids)).queue .sell askPrice =
      ask :: asks := by
    rw [BookOf.queue_setQueue, if_neg (by simp), haq]
  -- a party of the trade has a quantity of at least the traded one
  have hzero : ∀ q : Quantity, qty.toNat ≤ q.toNat → (q - qty = 0 ↔ qty.toNat = q.toNat) := by
    intro q hle
    rw [eq_zero_iff_toNat, UInt32.toNat_sub_of_le _ _ (UInt32.le_iff_toNat_le.mpr hle)]
    omega
  rw [find?_fillHead (distinct_fillHead hd hbq qty) haq', find?_fillHead hd hbq]
  simp only [Exhausts, fillsOf_cons, fillsOf_nil, List.mem_singleton, exists_eq_left, Nat.add_zero]
  by_cases hask : id = ask.orderId
  · rw [hask, hfa] at ho
    cases ho
    have hbid : bid.orderId ≠ id := by rwa [hask]
    have hz := hzero o.quantity (by omega)
    simp only [hask.symm, hbid, if_true, if_false, or_true, true_and, Nat.zero_add,
      ite_eq_left_iff, reduceCtorEq, imp_false, not_not, hz]
  · by_cases hbid : id = bid.orderId
    · rw [hbid, hfb] at ho
      cases ho
      have hz := hzero o.quantity (by omega)
      simp only [if_neg hask, hbid.symm, Ne.symm hask, if_true, if_false, true_or,
        true_and, Nat.add_zero, ite_eq_left_iff, reduceCtorEq, imp_false, not_not, hz]
    · simp [hask, hbid, ho, Ne.symm hask, Ne.symm hbid]

/-- An order leaves in matching steps exactly if their trades exhaust it. -/
theorem matchSteps_gone_iff (hd : Distinct b) (h : Steps (Book.matchStep aggressorSide) b ts b')
    (ho : b.find? id = some (side, price, o)) :
    b'.find? id = none ↔ Exhausts ts id o.quantity.toNat := by
  induction h generalizing o with
  | refl b => simp [ho, Exhausts]
  | @head b b₁ b' t ts hstep hsteps ih =>
    have hd₁ := hd.matchStep hstep
    have hgone := matchStep_gone_iff hd hstep ho
    have hlater := matchSteps_filledBy hd₁ hsteps
    have hfills := fillsOf_first_add t ts id
    have hnamed : (∃ t' ∈ t :: ts, t'.bidOrderId = id ∨ t'.askOrderId = id) ↔
        (∃ t' ∈ [t], t'.bidOrderId = id ∨ t'.askOrderId = id) ∨
          ∃ t' ∈ ts, t'.bidOrderId = id ∨ t'.askOrderId = id := by
      simp only [List.exists_mem_cons_iff, List.mem_singleton, exists_eq_left]
    rcases (matchStep_filledBy hd hstep).present id side price o ho with
      ⟨hnone, hf⟩ | ⟨o₁, ho₁, -, hf⟩
    · -- the first trade exhausts the order, and no later one names it
      obtain ⟨hnone', hzero⟩ := hlater.absent id hnone
      refine iff_of_true hnone' ⟨hnamed.mpr (Or.inl (hgone.mp hnone).1), ?_⟩
      omega
    · rw [ih hd₁ ho₁, Exhausts, Exhausts, hfills, hnamed]
      constructor
      · rintro ⟨hn, hq⟩
        exact ⟨Or.inr hn, by omega⟩
      · rintro ⟨hn, hq⟩
        refine ⟨?_, by omega⟩
        -- filled by the first trade alone the order would be gone
        by_contra hnot
        have hfirst : Exhausts [t] id o.quantity.toNat := by
          have hzero := fillsOf_eq_zero hnot
          exact ⟨hn.resolve_right hnot, by omega⟩
        rw [hgone.mpr hfirst] at ho₁
        cases ho₁

end Match

section Sweep

variable {remaining remaining' : Quantity}

/-- A sweeping step fills its resting order, and takes as much from the quantity
left of the incoming one. -/
theorem sweepStep_filledBy (hd : Distinct b) (hid : b.find? id = none)
    (h : Book.sweepStep side id limit (remaining, b) = some (t, (remaining', b'))) :
    FilledBy (fun i => if i = id then 0 else fillsOf [t] i) b b' ∧ Distinct b' ∧
      remaining'.toNat + fillsOf [t] id = remaining.toNat := by
  obtain ⟨price, o, rest, -, hb, -, rfl, rfl, rfl⟩ := sweepStep_eq_some_iff.mp h
  have hq := BookOf.queue_of_best? hb
  have hmin := toNat_min remaining o.quantity
  have hne : o.orderId ≠ id := by
    intro he
    have hfind := find?_of_best? hd hb
    rw [he, hid] at hfind
    cases hfind
  have hfills : ∀ i, fillsOf [Book.tradeOf side id o.orderId price (min remaining o.quantity)] i =
      (if id = i then (min remaining o.quantity).toNat else 0) +
        if o.orderId = i then (min remaining o.quantity).toNat else 0 := by
    intro i
    cases side with
    | buy => simp only [fillsOf_cons, fillsOf_nil, Book.tradeOf, Nat.add_zero]
    | sell =>
      simp only [fillsOf_cons, fillsOf_nil, Book.tradeOf, Nat.add_zero]
      exact Nat.add_comm _ _
  have hfilled : FilledBy _ b _ :=
    filledBy_fillHead hd hq (show (min remaining o.quantity).toNat ≤ _ by omega)
  refine ⟨hfilled.congr fun i => ?_, distinct_fillHead hd hq _, ?_⟩
  · rw [hfills]
    by_cases hi : i = id
    · rw [if_pos hi, if_neg (by rw [hi]; exact Ne.symm hne)]
    · rw [if_neg hi, if_neg (Ne.symm hi), Nat.zero_add]
      simp only [eq_comm]
  · rw [hfills, if_pos rfl, if_neg hne, toNat_sub_min_left]
    omega

/-- A sweep fills resting orders by its trades, and the incoming order by as much
as its quantity decreases. -/
theorem sweepSteps_filledBy {c c' : Quantity × Book} (hd : Distinct c.2)
    (hid : c.2.find? id = none) (h : Steps (Book.sweepStep side id limit) c ts c') :
    FilledBy (fun i => if i = id then 0 else fillsOf ts i) c.2 c'.2 ∧
      c'.1.toNat + fillsOf ts id = c.1.toNat := by
  induction h with
  | refl c =>
    refine ⟨(FilledBy.refl c.2).congr fun i => ?_, rfl⟩
    rw [fillsOf_nil, ite_self]
  | @head c c₁ c' t ts hstep _ ih =>
    obtain ⟨hfilled, hd₁, hqty⟩ := sweepStep_filledBy hd hid hstep
    obtain ⟨hfilled', hqty'⟩ := ih hd₁ (hfilled.absent id hid).1
    refine ⟨(hfilled.trans hfilled').congr fun i => ?_, ?_⟩
    · split_ifs
      · rfl
      · exact (fillsOf_first_add t ts i).symm
    · rw [fillsOf_first_add]
      omega

end Sweep

end OrderbookEngine.Fills
