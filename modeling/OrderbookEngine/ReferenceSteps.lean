import OrderbookEngine.ReferenceBook

/-!
# Steps of the reference matching rules

Identifiers of a book are distinct, so that an order is found by its identifier
exactly where it rests. One matching or sweeping step fills the first orders of
the best queues; both are inverted once here, and both shorten the book or end.
-/

namespace OrderbookEngine.ReferenceSteps

open MarketTypes PoolBook ReferenceBook

/-- No two resting orders share an identifier. -/
structure Distinct (b : Book) : Prop where
  /-- Orders with one identifier rest at one level. -/
  level : ∀ {side side' price price'} {o o' : Resting}, o ∈ b.queue side price →
    o' ∈ b.queue side' price' → o.orderId = o'.orderId → side' = side ∧ price' = price
  /-- A queue holds no identifier twice. -/
  nodup : ∀ side price, ((b.queue side price).map Resting.orderId).Nodup

section Find

variable {b : Book} {id : OrderId} {side : Side} {price : Price} {o : Resting}

/-- An identifier rests in one place only. -/
theorem Distinct.unique (h : Distinct b) {side' : Side} {price' : Price} {o' : Resting}
    (ho : o ∈ b.queue side price) (ho' : o' ∈ b.queue side' price')
    (hid : o.orderId = o'.orderId) : side' = side ∧ price' = price ∧ o' = o := by
  obtain ⟨rfl, rfl⟩ := h.level ho ho' hid
  exact ⟨rfl, rfl, List.inj_on_of_nodup_map (h.nodup side' price') ho' ho hid.symm⟩

/-- A book whose queues are made of orders of a distinct book is distinct. -/
theorem Distinct.of_sublist {b' : Book} (h : Distinct b)
    (hsub : ∀ side price, ((b'.queue side price).map Resting.orderId).Sublist
      ((b.queue side price).map Resting.orderId)) : Distinct b' where
  level := by
    intro side side' price price' o o' ho ho' hid
    obtain ⟨x, hx, hxo⟩ := List.mem_map.mp ((hsub side price).subset (List.mem_map_of_mem ho))
    obtain ⟨x', hx', hxo'⟩ := List.mem_map.mp ((hsub side' price').subset (List.mem_map_of_mem ho'))
    exact h.level hx hx' (hxo.trans (hid.trans hxo'.symm))
  nodup := fun side price => (h.nodup side price).sublist (hsub side price)

/-- A found order rests with the identifier it was looked up by. -/
theorem find?_mem (h : b.find? id = some (side, price, o)) :
    o ∈ b.queue side price ∧ o.orderId = id := by
  unfold Book.find? at h
  split at h
  · rename_i e he
    cases h
    exact ⟨(b.mem_orders .buy _ _).mp (List.mem_of_find?_eq_some he), by
      simpa using List.find?_some he⟩
  · obtain ⟨e, he, heq⟩ := Option.map_eq_some_iff.mp h
    cases heq
    exact ⟨(b.mem_orders .sell _ _).mp (List.mem_of_find?_eq_some he), by
      simpa using List.find?_some he⟩

/-- An order is not found if no resting order has its identifier. -/
theorem find?_eq_none_iff :
    b.find? id = none ↔ ∀ side price, ∀ o ∈ b.queue side price, o.orderId ≠ id := by
  constructor
  · intro h side price o ho
    unfold Book.find? at h
    split at h
    · cases h
    · rename_i hbuy
      rw [Option.map_eq_none_iff] at h
      cases side with
      | buy => simpa using List.find?_eq_none.mp hbuy _ ((b.mem_orders .buy price o).mpr ho)
      | sell => simpa using List.find?_eq_none.mp h _ ((b.mem_orders .sell price o).mpr ho)
  · intro h
    cases hf : b.find? id with
    | none => rfl
    | some r =>
      obtain ⟨side, price, o⟩ := r
      obtain ⟨ho, hid⟩ := find?_mem hf
      exact absurd hid (h side price o ho)

/-- An order is found where it rests. -/
theorem find?_eq_some_iff (h : Distinct b) :
    b.find? id = some (side, price, o) ↔ o ∈ b.queue side price ∧ o.orderId = id := by
  constructor
  · exact find?_mem
  · rintro ⟨ho, hid⟩
    cases hf : b.find? id with
    | none => exact absurd hid (find?_eq_none_iff.mp hf side price o ho)
    | some r =>
      obtain ⟨side', price', o'⟩ := r
      obtain ⟨ho', hid'⟩ := find?_mem hf
      obtain ⟨rfl, rfl, rfl⟩ := h.unique ho ho' (hid.trans hid'.symm)
      rfl

end Find

section OneOrder

variable {b : Book} {id : OrderId} {side : Side} {price : Price} {o : Resting}
  {os os' : List Resting}

/-- The other orders of a queue have other identifiers. -/
theorem Distinct.ne_of_mem_split (h : Distinct b) (hq : b.queue side price = os ++ o :: os')
    (hid : o.orderId = id) : ∀ x ∈ os ++ os', x.orderId ≠ id := by
  have hn := h.nodup side price
  rw [hq, List.map_append, List.map_cons, List.nodup_middle, List.nodup_cons, hid,
    ← List.map_append] at hn
  intro x hx hxid
  exact hn.1 (hxid ▸ List.mem_map_of_mem hx)

/-- Orders of other levels have other identifiers. -/
theorem Distinct.ne_of_other_level (h : Distinct b) (ho : o ∈ b.queue side price)
    (hid : o.orderId = id) {side' : Side} {price' : Price}
    (hne : ¬(side' = side ∧ price' = price)) : ∀ x ∈ b.queue side' price', x.orderId ≠ id :=
  fun _ hx hxid => hne (h.level ho hx (hid.trans hxid.symm))

/-- Cancelling a resting order removes it from its place. -/
theorem cancel_eq_setQueue (h : Distinct b) (hq : b.queue side price = os ++ o :: os')
    (hid : o.orderId = id) : b.cancel id = b.setQueue side price (os ++ os') := by
  have hother := h.ne_of_mem_split hq hid
  apply BookOf.ext_queue
  intro side' price'
  rw [Book.cancel, BookOf.queue_filter, BookOf.queue_setQueue]
  split_ifs with he
  · rw [he.1, he.2, hq, List.filter_append, List.filter_cons_of_neg (by simp [hid]),
      ← List.filter_append, List.filter_eq_self]
    simpa using hother
  · rw [List.filter_eq_self]
    simpa using h.ne_of_other_level (by simp [hq]) hid he

/-- Cancelling an unused identifier changes nothing. -/
theorem cancel_of_find?_none (h : b.find? id = none) : b.cancel id = b := by
  rw [find?_eq_none_iff] at h
  apply BookOf.ext_queue
  intro side' price'
  rw [Book.cancel, BookOf.queue_filter, List.filter_eq_self]
  simpa using h side' price'

/-- Changing the quantity of a resting order keeps it in its place. -/
theorem requantify_eq_setQueue (h : Distinct b) (hq : b.queue side price = os ++ o :: os')
    (hid : o.orderId = id) (qty : Quantity) : b.requantify id qty =
      b.setQueue side price (os ++ { o with quantity := qty } :: os') := by
  have hsame : ∀ xs : List Resting, (∀ x ∈ xs, x.orderId ≠ id) →
      (xs.map fun x => if x.orderId = id then { x with quantity := qty } else x) = xs := by
    intro xs hxs
    conv_rhs => rw [← List.map_id xs]
    exact List.map_congr_left fun x hx => if_neg (hxs x hx)
  have hother := h.ne_of_mem_split hq hid
  apply BookOf.ext_queue
  intro side' price'
  rw [Book.requantify, BookOf.queue_mapVal, BookOf.queue_setQueue]
  split_ifs with he
  · rw [he.1, he.2, hq, List.map_append, List.map_cons, if_pos hid,
      hsame os fun x hx => hother x (List.mem_append_left _ hx),
      hsame os' fun x hx => hother x (List.mem_append_right _ hx)]
  · exact hsame _ (h.ne_of_other_level (by simp [hq]) hid he)

/-- Appending an order with an unused identifier keeps identifiers distinct. -/
theorem distinct_append (h : Distinct b) (hid : b.find? o.orderId = none) :
    Distinct (b.append side price o) where
  level := by
    intro side₁ side₂ price₁ price₂ x y hx hy hxy
    rw [find?_eq_none_iff] at hid
    rw [Book.append, BookOf.queue_setQueue] at hx hy
    split_ifs at hx hy with hx' hy' hy'
    · exact ⟨hy'.1.trans hx'.1.symm, hy'.2.trans hx'.2.symm⟩
    · rcases List.mem_append.mp hx with hx | hx
      · rw [hx'.1, hx'.2]
        exact h.level hx hy hxy
      · rw [List.mem_singleton.mp hx] at hxy
        exact absurd hxy.symm (hid _ _ y hy)
    · rcases List.mem_append.mp hy with hy | hy
      · rw [hy'.1, hy'.2]
        exact h.level hx hy hxy
      · rw [List.mem_singleton.mp hy] at hxy
        exact absurd hxy (hid _ _ x hx)
    · exact h.level hx hy hxy
  nodup := by
    intro side₁ price₁
    rw [find?_eq_none_iff] at hid
    rw [Book.append, BookOf.queue_setQueue]
    split_ifs
    · rw [List.map_append, List.map_singleton, List.nodup_append]
      refine ⟨h.nodup side price, List.nodup_singleton _, ?_⟩
      intro x hx y hy
      obtain ⟨z, hz, rfl⟩ := List.mem_map.mp hx
      rw [List.mem_singleton.mp hy]
      exact hid _ _ z hz
    · exact h.nodup side₁ price₁

/-- What is found after a new order has been appended. -/
theorem find?_append (h : Distinct b) (hid : b.find? o.orderId = none) (i : OrderId) :
    (b.append side price o).find? i =
      if i = o.orderId then some (side, price, o) else b.find? i := by
  have hd : Distinct (b.append side price o) := distinct_append h hid
  split_ifs with hi
  · rw [find?_eq_some_iff hd, Book.append, BookOf.queue_setQueue_self]
    exact ⟨by simp, hi.symm⟩
  · cases hb : b.find? i with
    | none =>
      rw [find?_eq_none_iff] at hb ⊢
      intro side' price' x hx
      rw [Book.append, BookOf.queue_setQueue] at hx
      split_ifs at hx
      · rcases List.mem_append.mp hx with hx | hx
        · exact hb _ _ x hx
        · rw [List.mem_singleton.mp hx]
          exact Ne.symm hi
      · exact hb _ _ x hx
    | some r =>
      obtain ⟨side', price', x⟩ := r
      obtain ⟨hx, hxid⟩ := find?_mem hb
      rw [find?_eq_some_iff hd, Book.append, BookOf.queue_setQueue]
      refine ⟨?_, hxid⟩
      split_ifs with he
      · rw [he.1, he.2] at hx
        exact List.mem_append_left _ hx
      · exact hx

/-- Removing orders keeps identifiers distinct. -/
theorem distinct_filter (h : Distinct b) (p : Resting → Bool) : Distinct (b.filter p) :=
  h.of_sublist fun side price => by
    rw [BookOf.queue_filter]
    exact List.filter_sublist.map _

/-- What is found after an order has been cancelled. -/
theorem find?_cancel (h : Distinct b) (id i : OrderId) :
    (b.cancel id).find? i = if i = id then none else b.find? i := by
  split_ifs with hi
  · rw [hi, find?_eq_none_iff]
    intro side price x hx
    rw [Book.cancel, BookOf.queue_filter] at hx
    simpa using (List.mem_filter.mp hx).2
  · cases hb : b.find? i with
    | none =>
      rw [find?_eq_none_iff] at hb ⊢
      intro side price x hx
      rw [Book.cancel, BookOf.queue_filter] at hx
      exact hb side price x (List.mem_filter.mp hx).1
    | some r =>
      obtain ⟨side, price, x⟩ := r
      obtain ⟨hx, hxid⟩ := find?_mem hb
      rw [Book.cancel, find?_eq_some_iff (distinct_filter h _), BookOf.queue_filter,
        List.mem_filter]
      exact ⟨⟨hx, by simp [hxid, hi]⟩, hxid⟩

/-- Cancelling the order that was appended last. -/
theorem cancel_append (hid : b.find? o.orderId = none) (side : Side) (price : Price) :
    (b.append side price o).cancel o.orderId = b := by
  rw [find?_eq_none_iff] at hid
  apply BookOf.ext_queue
  intro side' price'
  have hself : (b.queue side' price').filter (fun x => x.orderId ≠ o.orderId) =
      b.queue side' price' :=
    List.filter_eq_self.mpr fun x hx => by simpa using hid side' price' x hx
  rw [Book.cancel, BookOf.queue_filter, Book.append, BookOf.queue_setQueue]
  split_ifs with he
  · rw [List.filter_append, List.filter_cons_of_neg (by simp), List.filter_nil,
      List.append_nil, ← he.1, ← he.2]
    exact hself
  · exact hself

end OneOrder

section FillHead

variable (qty : Quantity) (o : Resting) (rest : List Resting)

/-- A filled order leaves its queue. -/
theorem fillHead_filled (h : o.quantity - qty = 0) : Book.fillHead qty o rest = rest := if_pos h

/-- A partly filled order keeps its place. -/
theorem fillHead_partly (h : o.quantity - qty ≠ 0) :
    Book.fillHead qty o rest = { o with quantity := o.quantity - qty } :: rest := if_neg h

/-- A fill makes no queue longer. -/
theorem length_fillHead_le : (Book.fillHead qty o rest).length ≤ rest.length + 1 := by
  rw [Book.fillHead]
  split_ifs
  · omega
  · exact Nat.le_refl _

/-- Filling keeps the orders of a queue in their order. -/
theorem fillHead_ids_sublist : ((Book.fillHead qty o rest).map Resting.orderId).Sublist
    ((o :: rest).map Resting.orderId) := by
  rw [Book.fillHead]
  split_ifs
  · exact List.sublist_cons_self _ _
  · exact List.Sublist.refl _

end FillHead

/-- A fill uses up one of its two orders. -/
theorem sub_min_left_or_right (p q : Quantity) : p - min p q = 0 ∨ q - min p q = 0 := by
  change (p - if p ≤ q then p else q) = 0 ∨ (q - if p ≤ q then p else q) = 0
  split_ifs <;> simp

section MatchStep

variable {aggressorSide : Side} {b b' : Book} {t : Trade}

/-- What one matching step does. -/
theorem matchStep_eq_some_iff : Book.matchStep aggressorSide b = some (t, b') ↔
    ∃ bidPrice bid bids askPrice ask asks,
      b.best? .buy = some (bidPrice, bid, bids) ∧ b.best? .sell = some (askPrice, ask, asks) ∧
      ¬bidPrice < askPrice ∧
      ¬(bidPrice = Side.buy.marketPrice ∧ askPrice = Side.sell.marketPrice) ∧
      t = ⟨bid.orderId, ask.orderId, tradePrice aggressorSide bidPrice askPrice,
        min bid.quantity ask.quantity⟩ ∧
      b' = (b.setQueue .buy bidPrice
          (Book.fillHead (min bid.quantity ask.quantity) bid bids)).setQueue .sell askPrice
          (Book.fillHead (min bid.quantity ask.quantity) ask asks) := by
  unfold Book.matchStep
  cases hb : b.best? .buy with
  | none => simp
  | some r =>
    obtain ⟨bidPrice, bid, bids⟩ := r
    cases ha : b.best? .sell with
    | none => simp
    | some r =>
      obtain ⟨askPrice, ask, asks⟩ := r
      constructor
      · intro h
        dsimp only at h
        split_ifs at h with hlt hmarket
        cases h
        exact ⟨_, _, _, _, _, _, rfl, rfl, hlt, hmarket, rfl, rfl⟩
      · rintro ⟨_, _, _, _, _, _, hb', ha', hlt, hmarket, rfl, rfl⟩
        cases hb'
        cases ha'
        dsimp only
        rw [if_neg hlt, if_neg hmarket]

/-- When matching stops. -/
theorem matchStep_eq_none_iff : Book.matchStep aggressorSide b = none ↔
    ∀ bidPrice bid bids askPrice ask asks,
      b.best? .buy = some (bidPrice, bid, bids) → b.best? .sell = some (askPrice, ask, asks) →
      bidPrice < askPrice ∨
        bidPrice = Side.buy.marketPrice ∧ askPrice = Side.sell.marketPrice := by
  constructor
  · intro h bidPrice bid bids askPrice ask asks hb ha
    by_contra hcon
    rw [not_or] at hcon
    have hsome : ∃ r, Book.matchStep aggressorSide b = some r :=
      ⟨_, matchStep_eq_some_iff.mpr ⟨_, _, _, _, _, _, hb, ha, hcon.1, hcon.2, rfl, rfl⟩⟩
    rw [h] at hsome
    obtain ⟨r, hr⟩ := hsome
    cases hr
  · intro h
    cases hstep : Book.matchStep aggressorSide b with
    | none => rfl
    | some r =>
      obtain ⟨_, _, _, _, _, _, hb, ha, hlt, hmarket, -, -⟩ := matchStep_eq_some_iff.mp hstep
      rcases h _ _ _ _ _ _ hb ha with hlt' | hmarket'
      · exact absurd hlt' hlt
      · exact absurd hmarket' hmarket

/-- The queues after a matching step. -/
theorem queue_matchStep {bidPrice askPrice : Price} {bid ask : Resting} {bids asks : List Resting}
    (b : Book) (qty : Quantity) (side : Side) (price : Price) :
    BookOf.queue ((b.setQueue .buy bidPrice (Book.fillHead qty bid bids)).setQueue .sell askPrice
        (Book.fillHead qty ask asks)) side price =
      if side = .buy ∧ price = bidPrice then Book.fillHead qty bid bids
      else if side = .sell ∧ price = askPrice then Book.fillHead qty ask asks
      else b.queue side price := by
  rw [BookOf.queue_setQueue, BookOf.queue_setQueue]
  cases side <;> simp

/-- Every matching step removes an order. -/
theorem matchStep_size_lt (h : Book.matchStep aggressorSide b = some (t, b')) :
    b'.size < b.size := by
  obtain ⟨bp, bid, bids, ap, ask, asks, hb, ha, -, -, -, rfl⟩ := matchStep_eq_some_iff.mp h
  have hbq := BookOf.queue_of_best? hb
  have haq := BookOf.queue_of_best? ha
  obtain ⟨qty, hqty⟩ : ∃ qty, qty = min bid.quantity ask.quantity := ⟨_, rfl⟩
  rw [← hqty]
  have h₁ := b.size_setQueue .buy bp (Book.fillHead qty bid bids)
  have h₂ := (b.setQueue .buy bp (Book.fillHead qty bid bids)).size_setQueue .sell ap
    (Book.fillHead qty ask asks)
  have haq' : (b.setQueue .buy bp (Book.fillHead qty bid bids)).queue .sell ap = ask :: asks := by
    rw [BookOf.queue_setQueue, if_neg (by simp), haq]
  rw [hbq, List.length_cons] at h₁
  rw [haq', List.length_cons] at h₂
  have hbl := length_fillHead_le qty bid bids
  have hal := length_fillHead_le qty ask asks
  rcases hqty ▸ sub_min_left_or_right bid.quantity ask.quantity with hz | hz
  · have hl := congrArg List.length (fillHead_filled qty bid bids hz)
    omega
  · have hl := congrArg List.length (fillHead_filled qty ask asks hz)
    omega

/-- A matching step keeps the order of every queue. -/
theorem matchStep_ids_sublist (h : Book.matchStep aggressorSide b = some (t, b')) (side : Side)
    (price : Price) : ((b'.queue side price).map Resting.orderId).Sublist
      ((b.queue side price).map Resting.orderId) := by
  obtain ⟨bp, bid, bids, ap, ask, asks, hb, ha, -, -, -, rfl⟩ := matchStep_eq_some_iff.mp h
  have hbq := BookOf.queue_of_best? hb
  have haq := BookOf.queue_of_best? ha
  rw [queue_matchStep]
  split_ifs with h₁ h₂
  · rw [h₁.1, h₁.2, hbq]
    exact fillHead_ids_sublist _ _ _
  · rw [h₂.1, h₂.2, haq]
    exact fillHead_ids_sublist _ _ _
  · exact List.Sublist.refl _

/-- A matching step keeps identifiers distinct. -/
theorem Distinct.matchStep (hd : Distinct b)
    (h : Book.matchStep aggressorSide b = some (t, b')) : Distinct b' :=
  hd.of_sublist (matchStep_ids_sublist h)

/-- The reference match is the step sequence into a book that does not match. -/
theorem matchBook_eq {ts : Trades} (h : StepRuns.Steps (Book.matchStep aggressorSide) b ts b')
    (hhalt : Book.matchStep aggressorSide b' = none) : b.matchBook aggressorSide = (ts, b') :=
  h.run_eq_of_measure (fun _ _ _ hstep => matchStep_size_lt hstep) hhalt

/-- Matching is a run of matching steps. -/
theorem matchBook_steps (aggressorSide : Side) (b : Book) :
    StepRuns.Steps (Book.matchStep aggressorSide) b (b.matchBook aggressorSide).1
      (b.matchBook aggressorSide).2 :=
  StepRuns.steps_run _ _

/-- Matching ends where no step is possible. -/
theorem matchBook_halts (aggressorSide : Side) (b : Book) :
    Book.matchStep aggressorSide (b.matchBook aggressorSide).2 = none :=
  StepRuns.run_halts (fun _ _ _ hstep => matchStep_size_lt hstep) (Nat.le_refl b.size)

end MatchStep

section SweepStep

variable {side : Side} {id : OrderId} {limit : Price} {remaining remaining' : Quantity}
  {b b' : Book} {t : Trade}

/-- What one sweeping step does. -/
theorem sweepStep_eq_some_iff :
    Book.sweepStep side id limit (remaining, b) = some (t, (remaining', b')) ↔
      ∃ price o rest, remaining ≠ 0 ∧ b.best? side.opposite = some (price, o, rest) ∧
        side.crosses limit price ∧
        t = Book.tradeOf side id o.orderId price (min remaining o.quantity) ∧
        remaining' = remaining - min remaining o.quantity ∧
        b' = b.setQueue side.opposite price
          (Book.fillHead (min remaining o.quantity) o rest) := by
  unfold Book.sweepStep
  dsimp only
  split_ifs with hz
  · simp [hz]
  · cases hb : b.best? side.opposite with
    | none => simp
    | some r =>
      obtain ⟨price, o, rest⟩ := r
      constructor
      · intro h
        dsimp only at h
        split_ifs at h with hc
        cases h
        exact ⟨_, _, _, hz, rfl, hc, rfl, rfl, rfl⟩
      · rintro ⟨_, _, _, -, hb', hc, rfl, rfl, rfl⟩
        cases hb'
        dsimp only
        rw [if_pos hc]

/-- A sweeping step uses up an order or the incoming quantity. -/
theorem sweepStep_cases (h : Book.sweepStep side id limit (remaining, b) =
    some (t, (remaining', b'))) : b'.size + 1 = b.size ∨ remaining' = 0 ∧ b'.size = b.size := by
  obtain ⟨price, o, rest, -, hb, -, -, rfl, rfl⟩ := sweepStep_eq_some_iff.mp h
  have hq := BookOf.queue_of_best? hb
  have hs := b.size_setQueue side.opposite price
    (Book.fillHead (min remaining o.quantity) o rest)
  rw [hq, List.length_cons] at hs
  by_cases hz : o.quantity - min remaining o.quantity = 0
  · have hl := congrArg List.length (fillHead_filled _ _ rest hz)
    exact Or.inl (by omega)
  · have hl := congrArg List.length (fillHead_partly _ _ rest hz)
    rw [List.length_cons] at hl
    have hr := (sub_min_left_or_right remaining o.quantity).resolve_right hz
    exact Or.inr ⟨hr, by omega⟩

/-- Orders a sweep may still fill. -/
def sweepMeasure (c : Quantity × Book) : ℕ := if c.1 = 0 then 0 else c.2.size

/-- Every step of a sweep takes something from the measure. -/
theorem sweepMeasure_lt {c c' : Quantity × Book}
    (h : Book.sweepStep side id limit c = some (t, c')) : sweepMeasure c' < sweepMeasure c := by
  obtain ⟨price, o, rest, hz, hb, -⟩ := sweepStep_eq_some_iff.mp h
  have hpos : 0 < c.2.size := by
    have hs := c.2.size_setQueue side.opposite price []
    rw [BookOf.queue_of_best? hb, List.length_cons, List.length_nil] at hs
    omega
  rw [sweepMeasure, sweepMeasure, if_neg hz]
  rcases sweepStep_cases h with hlt | ⟨hzero, -⟩
  · split_ifs <;> omega
  · rw [if_pos hzero]
    exact hpos

/-- The opposing orders after the first one is filled. -/
theorem orders_fillHead {o : Resting} {rest : List Resting} {price : Price}
    (hb : b.best? side = some (price, o, rest)) (qty : Quantity) :
    (b.setQueue side price (Book.fillHead qty o rest)).orders side =
      (Book.fillHead qty o []).map (fun x => (price, x)) ++
        (b.setQueue side price rest).orders side := by
  rw [Book.fillHead, Book.fillHead]
  split_ifs with hz
  · rfl
  · have hbest := BookOf.before_of_best? hb
    have hb' : (b.setQueue side price ({ o with quantity := o.quantity - qty } :: rest)).best?
        side = some (price, { o with quantity := o.quantity - qty }, rest) := by
      rw [BookOf.best?_eq_some_iff, BookOf.queue_setQueue_self]
      refine ⟨rfl, fun price' hne => ?_⟩
      by_cases he : price' = price
      · exact Or.inl he
      · rw [BookOf.queue_setQueue, if_neg (by simp [he])] at hne
        exact hbest price' hne
    rw [BookOf.orders_of_best? hb', BookOf.setQueue_setQueue]
    rfl

/-- A sweep of nothing does nothing. -/
theorem sweepSteps_zero {c' : Quantity × Book} {ts : Trades}
    (h : StepRuns.Steps (Book.sweepStep side id limit) (0, b) ts c') : ts = [] ∧ c' = (0, b) := by
  cases h with
  | refl => exact ⟨rfl, rfl⟩
  | head hstep =>
    rw [Book.sweepStep, if_pos rfl] at hstep
    cases hstep

/-- What is filled at the best price is no longer available within reach of it. -/
theorem available_fillHead (limit : Price) {o : Resting} {rest : List Resting} {price : Price}
    {qty : Quantity} (hb : b.best? side.opposite = some (price, o, rest))
    (hle : qty.toNat ≤ o.quantity.toNat) :
    Book.available (b.setQueue side.opposite price (Book.fillHead qty o rest)) side limit +
        (if side.crosses limit price then qty.toNat else 0) = b.available side limit := by
  have hsub : (o.quantity - qty).toNat = o.quantity.toNat - qty.toNat :=
    UInt32.toNat_sub_of_le _ _ (UInt32.le_iff_toNat_le.mpr hle)
  rw [Book.available, Book.available, orders_fillHead hb, BookOf.orders_of_best? hb,
    List.filter_append, List.map_append, List.sum_append, Book.fillHead]
  by_cases hc : side.crosses limit price
  · rw [if_pos hc, List.filter_cons_of_pos (by simpa using hc), List.map_cons, List.sum_cons]
    split_ifs with hz
    · rw [eq_zero_iff_toNat, hsub] at hz
      simp only [List.map_nil, List.filter_nil, List.sum_nil]
      omega
    · rw [List.map_singleton, List.filter_cons_of_pos (by simpa using hc), List.filter_nil,
        List.map_singleton, List.sum_singleton]
      dsimp only
      omega
  · rw [if_neg hc, List.filter_cons_of_neg (by simpa using hc)]
    split_ifs with hz
    · simp
    · rw [List.map_singleton, List.filter_cons_of_neg (by simpa using hc)]
      simp

/-- What a sweeping step fills is no longer available. -/
theorem available_sweepStep
    (h : Book.sweepStep side id limit (remaining, b) = some (t, (remaining', b'))) :
    b'.available side limit + remaining.toNat = b.available side limit + remaining'.toNat := by
  obtain ⟨price, o, rest, -, hb, hc, -, rfl, rfl⟩ := sweepStep_eq_some_iff.mp h
  have hmin := toNat_min remaining o.quantity
  have hsub := toNat_sub_min_left remaining o.quantity
  have hfill := available_fillHead limit hb
    (show (min remaining o.quantity).toNat ≤ o.quantity.toNat by omega)
  rw [if_pos hc] at hfill
  omega

/-- A sweep takes from what is available what it takes off the order. -/
theorem available_sweepSteps {c c' : Quantity × Book} {ts : Trades}
    (h : StepRuns.Steps (Book.sweepStep side id limit) c ts c') :
    c'.2.available side limit + c.1.toNat = c.2.available side limit + c'.1.toNat := by
  refine h.invariant (I := fun x => x.2.available side limit + c.1.toNat =
    c.2.available side limit + x.1.toNat) (fun x t x' hx hstep => ?_) rfl
  have hmoved := available_sweepStep hstep
  omega

/-- A sweep that ends with quantity left has used up what was available. -/
theorem available_of_sweep_halt (h : Book.sweepStep side id limit (remaining, b) = none)
    (hz : remaining ≠ 0) : b.available side limit = 0 := by
  have hnone : ∀ e ∈ b.orders side.opposite, ¬side.crosses limit e.1 := by
    rintro ⟨price, o⟩ he hc
    rw [BookOf.mem_orders] at he
    rw [Book.sweepStep, if_neg hz] at h
    cases hb : b.best? side.opposite with
    | none =>
      rw [BookOf.best?_eq_none_iff] at hb
      rw [hb] at he
      cases he
    | some r =>
      obtain ⟨best, x, rest⟩ := r
      rw [hb] at h
      dsimp only at h
      split_ifs at h with hcross
      have hbest := BookOf.before_of_best? hb price (List.ne_nil_of_mem he)
      rcases hbest with rfl | hlt
      · exact hcross hc
      · exact hcross (Side.crosses_of_before hc hlt)
  rw [Book.available, List.filter_eq_nil_iff.mpr (by simpa using hnone)]
  rfl

/-- A sweep that fills the incoming quantity is what FillOrKill executes. -/
theorem fillOrKill_eq {qty : Quantity} {ts : Trades}
    (havail : ¬b.available side limit < qty.toNat)
    (h : StepRuns.Steps (Book.sweepStep side id limit) (qty, b) ts (0, b')) :
    b.fillOrKill side id limit qty = (ts, b') := by
  have hhalt : Book.sweepStep side id limit (0, b') = none := by
    rw [Book.sweepStep, if_pos rfl]
  have hlen := h.length_add_le (fun _ _ _ hstep => sweepMeasure_lt hstep)
  have hle : sweepMeasure (qty, b) ≤ b.size := by
    rw [sweepMeasure]
    split_ifs
    · exact Nat.zero_le _
    · exact Nat.le_refl _
  rw [Book.fillOrKill, if_neg havail, h.run_eq hhalt (show ts.length ≤ b.size by omega)]

/-- What FillOrKill executes is a sweep that fills the incoming quantity. -/
theorem fillOrKill_steps (id : OrderId) {qty : Quantity}
    (havail : ¬b.available side limit < qty.toNat) :
    StepRuns.Steps (Book.sweepStep side id limit) (qty, b) (b.fillOrKill side id limit qty).1
      (0, (b.fillOrKill side id limit qty).2) := by
  have hle : sweepMeasure (qty, b) ≤ b.size := by
    rw [sweepMeasure]
    split_ifs
    · exact Nat.zero_le _
    · exact Nat.le_refl _
  have hsteps : StepRuns.Steps (Book.sweepStep side id limit) (qty, b) _ _ :=
    StepRuns.steps_run b.size (qty, b)
  have hhalt : Book.sweepStep side id limit
      (StepRuns.run (Book.sweepStep side id limit) b.size (qty, b)).2 = none :=
    StepRuns.run_halts (fun _ _ _ hstep => sweepMeasure_lt hstep) hle
  have hsum := available_sweepSteps hsteps
  rw [Book.fillOrKill, if_neg havail]
  generalize hrun : StepRuns.run (Book.sweepStep side id limit) b.size (qty, b) = r at *
  obtain ⟨ts, left, b'⟩ := r
  have hzero : left = 0 := by
    by_contra hne
    have h₀ := available_of_sweep_halt hhalt hne
    have hpos : left.toNat ≠ 0 := fun h => hne ((eq_zero_iff_toNat left).mpr h)
    dsimp only at hsum
    omega
  rw [hzero] at hsteps
  exact hsteps

end SweepStep

section Shrinks

/-- A book has orders of another one only, each queue in the same order. -/
def Shrinks (b b' : Book) : Prop :=
  ∀ side price, ((b'.queue side price).map Resting.orderId).Sublist
    ((b.queue side price).map Resting.orderId)

variable {b b' b'' : Book} {side : Side} {price : Price} {o : Resting}

/-- A book shrinks to itself. -/
theorem Shrinks.refl (b : Book) : Shrinks b b := fun _ _ => List.Sublist.refl _

/-- Shrinking twice is shrinking. -/
theorem Shrinks.trans (h : Shrinks b b') (h' : Shrinks b' b'') : Shrinks b b'' :=
  fun side price => (h' side price).trans (h side price)

/-- An order that remains was there before. -/
theorem Shrinks.mem (h : Shrinks b b') (ho : o ∈ b'.queue side price) :
    ∃ x ∈ b.queue side price, x.orderId = o.orderId :=
  List.mem_map.mp ((h side price).subset (List.mem_map_of_mem ho))

/-- A level that remains was there before. -/
theorem Shrinks.ne_nil (h : Shrinks b b') (hne : b'.queue side price ≠ []) :
    b.queue side price ≠ [] := by
  obtain ⟨o, ho⟩ := List.exists_mem_of_ne_nil _ hne
  obtain ⟨x, hx, -⟩ := h.mem ho
  exact List.ne_nil_of_mem hx

/-- An unused identifier stays unused. -/
theorem Shrinks.find?_eq_none {id : OrderId} (h : Shrinks b b') (hid : b.find? id = none) :
    b'.find? id = none := by
  rw [find?_eq_none_iff] at hid ⊢
  intro side price o ho hoid
  obtain ⟨x, hx, hxo⟩ := h.mem ho
  exact hid side price x hx (hxo.trans hoid)

/-- Removing orders shrinks the book. -/
theorem shrinks_filter (b : Book) (p : Resting → Bool) : Shrinks b (b.filter p) := by
  intro side price
  rw [BookOf.queue_filter]
  exact List.filter_sublist.map _

/-- Changing a quantity keeps all orders where they are. -/
theorem shrinks_requantify (b : Book) (id : OrderId) (qty : Quantity) :
    Shrinks b (b.requantify id qty) := by
  intro side price
  have hids : (b.queue side price).map (fun o : Resting =>
      (if o.orderId = id then { o with quantity := qty } else o : Resting).orderId) =
        (b.queue side price).map Resting.orderId :=
    List.map_congr_left fun o _ => by split_ifs <;> rfl
  rw [Book.requantify, BookOf.queue_mapVal, List.map_map]
  exact hids ▸ List.Sublist.refl _

/-- Look-up after a change in place. -/
theorem find?_requantify (h : Distinct b) (id : OrderId) (qty : Quantity) (i : OrderId) :
    (b.requantify id qty).find? i = (b.find? i).map fun r =>
      (r.1, r.2.1, if r.2.2.orderId = id then { r.2.2 with quantity := qty } else r.2.2) := by
  have hd : Distinct (b.requantify id qty) := h.of_sublist (shrinks_requantify b id qty)
  ext r
  obtain ⟨side, price, o⟩ := r
  rw [find?_eq_some_iff hd, Book.requantify, BookOf.queue_mapVal, List.mem_map,
    Option.map_eq_some_iff]
  constructor
  · rintro ⟨⟨x, hx, rfl⟩, hid⟩
    have hxid : x.orderId = i := by
      rw [← hid]
      split_ifs <;> rfl
    exact ⟨(side, price, x), (find?_eq_some_iff h).mpr ⟨hx, hxid⟩, rfl⟩
  · rintro ⟨⟨side', price', x⟩, hf, heq⟩
    cases heq
    obtain ⟨hx, hxid⟩ := find?_mem hf
    refine ⟨⟨x, hx, rfl⟩, ?_⟩
    rw [← hxid]
    split_ifs <;> rfl

/-- Filling the first order of a queue shrinks the book. -/
theorem shrinks_fillHead {rest : List Resting} (hq : b.queue side price = o :: rest)
    (qty : Quantity) : Shrinks b (b.setQueue side price (Book.fillHead qty o rest)) := by
  intro side' price'
  rw [BookOf.queue_setQueue]
  split_ifs with he
  · rw [he.1, he.2, hq]
    exact fillHead_ids_sublist qty o rest
  · exact List.Sublist.refl _

/-- Matching steps shrink the book. -/
theorem shrinks_matchSteps {aggressorSide : Side} {ts : Trades}
    (h : StepRuns.Steps (Book.matchStep aggressorSide) b ts b') : Shrinks b b' :=
  h.invariant (I := Shrinks b)
    (fun _ _ _ hsub hstep => hsub.trans (matchStep_ids_sublist hstep)) (Shrinks.refl b)

/-- A step of a sweep shrinks the book. -/
theorem shrinks_sweepStep {id : OrderId} {limit : Price} {c c' : Quantity × Book} {t : Trade}
    (h : Book.sweepStep side id limit c = some (t, c')) : Shrinks c.2 c'.2 := by
  obtain ⟨left, b⟩ := c
  obtain ⟨left', b'⟩ := c'
  obtain ⟨price, o, rest, -, hbest, -, -, -, rfl⟩ := sweepStep_eq_some_iff.mp h
  exact shrinks_fillHead (BookOf.queue_of_best? hbest) _

/-- A sweep shrinks the book. -/
theorem shrinks_sweepSteps {id : OrderId} {limit : Price} {c c' : Quantity × Book} {ts : Trades}
    (h : StepRuns.Steps (Book.sweepStep side id limit) c ts c') : Shrinks c.2 c'.2 := by
  refine h.invariant (I := fun x => Shrinks c.2 x.2) ?_ (Shrinks.refl c.2)
  intro x t x' hsub hstep
  have hnext := shrinks_sweepStep hstep
  exact hsub.trans hnext

end Shrinks

end OrderbookEngine.ReferenceSteps
