import OrderbookEngine.ReferenceSteps
import OrderbookEngine.SlotSteps

/-!
# The matching loops simulate the reference matching steps

One pass of the inner loop is one reference step on the orders in view. The
inner loop leaves the two levels it works on as holes until both are checked
for erasure, so that the outer loop sees no empty level. Both loops end within
the fuel because every step removes an order.
-/

namespace OrderbookEngine.MatchSimulation

open SortedMap StepRuns MarketTypes PoolBook ReferenceBook LayoutInvariant SlotSteps ReferenceSteps

variable {n : ℕ} {s s' : Orderbook n} {held : List (Fin n)} {holes : Side → Price → Prop}
  {L : Layout n}

section Heads

variable {side : Side} {price : Price}

/-- The head of a level is the first slot of its queue. -/
theorem queue_of_head_some (h : Wf s held holes L) {i : Fin n}
    (hh : (s.level side price).head = some i) : ∃ is, L.queue side price = i :: is := by
  have hl := h.level side price
  cases hq : L.queue side price with
  | nil =>
    rw [hq] at hl
    rw [hl.head_none] at hh
    cases hh
  | cons j js =>
    rw [hq] at hl
    rw [hl.head_eq] at hh
    cases hh
    exact ⟨js, rfl⟩

/-- The first level of a price map is the best queue in view. -/
theorem best_of_first (side : Side) (h : Wf s held noHoles L) {lvl : PriceLevel n}
    (hf : (s.levels side).first? = some (price, lvl)) :
    s.level side price = lvl ∧ ∃ i is, L.queue side price = i :: is ∧
      (view s L).best? side =
        some (price, resting (s.pool i), is.map fun j => resting (s.pool j)) := by
  obtain ⟨hfind, hfirst⟩ := (OrdMap.first?_eq_some_iff _ _ _).mp hf
  refine ⟨by rw [Orderbook.level, hfind]; rfl, ?_⟩
  cases hq : L.queue side price with
  | nil => exact (h.full side price (by simp [hfind]) hq).elim
  | cons i is =>
    refine ⟨i, is, rfl, (BookOf.best?_eq_some_iff _ _ _ _ _).mpr ⟨by simp [hq], ?_⟩⟩
    intro price' hne
    rw [queue_view, ne_eq, List.map_eq_nil_iff] at hne
    obtain ⟨j, hj⟩ := List.exists_mem_of_ne_nil _ hne
    exact hfirst price' _ (h.present hj)

/-- Without levels no queue is in view. -/
theorem best_of_first_none (side : Side) (h : Wf s held holes L)
    (hf : (s.levels side).first? = none) :
    (view s L).best? side = none := by
  rw [BookOf.best?_eq_none_iff]
  intro price
  rw [queue_view, List.map_eq_nil_iff, List.eq_nil_iff_forall_not_mem]
  intro i hi
  have hpresent := h.present hi
  rw [(OrdMap.first?_eq_none_iff _).mp hf price] at hpresent
  cases hpresent

end Heads

section Fills

variable {side : Side} {price : Price} {i : Fin n} {is : List (Fin n)}

/-- Decrementing the total of a level and filling an order is a change of quantity. -/
theorem fillSlot_subTotal (s : Orderbook n) (side : Side) (price : Price) (i : Fin n)
    (qty : Quantity) : (s.subTotal side price qty).fillSlot i qty =
      setQuantity s side price i ((s.pool i).quantity - qty) := by
  have htotal : (s.level side price).totalQty - qty =
      (s.level side price).totalQty - (s.pool i).quantity + ((s.pool i).quantity - qty) := by
    grind
  simp only [Orderbook.fillSlot, Orderbook.subTotal, setQuantity, PoolOrder.fill,
    Orderbook.putLevel_pool, htotal]

/-- Retiring an order detaches and frees its slot. -/
theorem retire_eq (s : Orderbook n) (side : Side) (price : Price) (i : Fin n) :
    s.retire side price i = (detach s side price i).free i := by
  cases side <;> rfl

/-- Retire an order of a level if it is filled. -/
def dropFilled (s : Orderbook n) (side : Side) (price : Price) (i : Fin n) : Orderbook n :=
  if (s.pool i).isFilled then s.retire side price i else s

/-- A filled first order leaves its level, its slot and the hash map. -/
theorem dropFilled_spec (h : Wf s held holes L) (hq : L.queue side price = i :: is)
    (hhole : holes side price) :
    ∃ L', Wf (dropFilled s side price i) held holes L' ∧
      view (dropFilled s side price i) L' = (view s L).setQueue side price
        (if (s.pool i).quantity = 0 then is.map fun j => resting (s.pool j)
          else resting (s.pool i) :: is.map fun j => resting (s.pool j)) ∧
      (∀ side' price', ¬(side' = side ∧ price' = price) →
        L'.queue side' price' = L.queue side' price') ∧
      ∀ j, unlinked ((dropFilled s side price i).pool j) = unlinked (s.pool j) := by
  have hfilled : (s.pool i).isFilled = true ↔ (s.pool i).quantity = 0 := beq_iff_eq
  unfold dropFilled
  by_cases hz : (s.pool i).quantity = 0
  · rw [if_pos (hfilled.mpr hz), if_pos hz]
    have hwf : Wf (s.retire side price i) held
        (fun side' price' => holes side' price' ∨ side' = side ∧ price' = price)
        (L.setQueue side price ([] ++ is)) := by
      rw [retire_eq]
      exact wf_free (wf_detach h hq)
    refine ⟨_, hwf.mono ?_, ?_, ?_, ?_⟩
    · rintro side' price' (hold | ⟨rfl, rfl⟩)
      · exact hold
      · exact hhole
    · rw [retire_eq]
      exact view_detach
    · intro side' price' hne
      rw [BookOf.queue_setQueue, if_neg hne]
    · intro j
      rw [retire_eq]
      have hpool : ((detach s side price i).free i).pool =
          (dllRemove s.pool (s.level side price) i).1 := by
        simp [Orderbook.free, detach, Orderbook.unlink]
      rw [hpool]
      exact dllRemove_unlinked _ _ _ _
  · rw [if_neg (fun hf => hz (hfilled.mp hf)), if_neg hz]
    refine ⟨L, h, ?_, fun _ _ _ => rfl, fun _ => rfl⟩
    have hv : (view s L).queue side price =
        resting (s.pool i) :: is.map fun j => resting (s.pool j) := by
      rw [queue_view, hq, List.map_cons]
    rw [← hv, BookOf.setQueue_queue]

end Fills

section InnerLoop

variable {bidPrice askPrice price : Price} {aggressorSide : Side}

/-- The two levels the inner loop works on. -/
def crossing (bidPrice askPrice : Price) : Side → Price → Prop := fun side price =>
  side = .buy ∧ price = bidPrice ∨ side = .sell ∧ price = askPrice

/-- One pass fills the first orders of both levels. -/
theorem crossStep_spec (price : Price) (h : Wf s held (crossing bidPrice askPrice) L) {i j : Fin n}
    {is js : List (Fin n)} (hb : L.queue .buy bidPrice = i :: is)
    (ha : L.queue .sell askPrice = j :: js) :
    ∃ s' L', Orderbook.crossStep bidPrice askPrice price s =
        some (⟨(s.pool i).orderId, (s.pool j).orderId, price,
          min (s.pool i).quantity (s.pool j).quantity⟩, s') ∧
      Wf s' held (crossing bidPrice askPrice) L' ∧
      view s' L' = ((view s L).setQueue .buy bidPrice
        (Book.fillHead (min (s.pool i).quantity (s.pool j).quantity) (resting (s.pool i))
          (is.map fun k => resting (s.pool k)))).setQueue .sell askPrice
        (Book.fillHead (min (s.pool i).quantity (s.pool j).quantity) (resting (s.pool j))
          (js.map fun k => resting (s.pool k))) := by
  obtain ⟨qty, hqty⟩ : ∃ qty, qty = min (s.pool i).quantity (s.pool j).quantity := ⟨_, rfl⟩
  rw [← hqty]
  have hhb : (s.level .buy bidPrice).head = some i := by
    have hl := h.level .buy bidPrice
    rw [hb] at hl
    exact hl.head_eq
  have hha : (s.level .sell askPrice).head = some j := by
    have hl := h.level .sell askPrice
    rw [ha] at hl
    exact hl.head_eq
  -- the slots of the two levels are different, since they rest on different sides
  have hapart : ∀ k ∈ i :: is, ∀ l ∈ j :: js, l ≠ k := by
    intro k hk l hl
    rw [← hb] at hk
    rw [← ha] at hl
    exact h.ne_of_sides (by simp) hk hl
  have hij : j ≠ i := hapart i List.mem_cons_self j List.mem_cons_self
  have hnot : ∀ k ∈ js, k ≠ i := fun k hk =>
    hapart i List.mem_cons_self k (List.mem_cons_of_mem _ hk)
  have hnot' : ∀ k ∈ is, k ≠ j := fun k hk =>
    (hapart k (List.mem_cons_of_mem _ hk) j List.mem_cons_self).symm
  have hnodup := h.queue_nodup .buy bidPrice
  rw [hb, List.nodup_cons] at hnodup
  have hnodup' := h.queue_nodup .sell askPrice
  rw [ha, List.nodup_cons] at hnodup'
  -- the bid is filled, then the ask
  have hb' : L.queue .buy bidPrice = [] ++ i :: is := hb
  have ha' : L.queue .sell askPrice = [] ++ j :: js := ha
  let s₁ := setQuantity s .buy bidPrice i ((s.pool i).quantity - qty)
  have hw₁ : Wf s₁ held _ L := wf_setQuantity h hb' _
  have hv₁ := view_setQuantity h hb' ((s.pool i).quantity - qty)
  have hp₁ : ∀ k, k ≠ i → s₁.pool k = s.pool k := fun k hk => Function.update_of_ne hk _ _
  let s₂ := setQuantity s₁ .sell askPrice j ((s₁.pool j).quantity - qty)
  have hw₂ : Wf s₂ held _ L := wf_setQuantity hw₁ ha' _
  have hv₂ := view_setQuantity hw₁ ha' ((s₁.pool j).quantity - qty)
  have hp₂ : ∀ k, k ≠ j → s₂.pool k = s₁.pool k := fun k hk => Function.update_of_ne hk _ _
  have hs₂ : (((s.subTotal .buy bidPrice qty).subTotal .sell askPrice qty).fillSlot i
      qty).fillSlot j qty = s₂ := by
    change (((s.subTotal .buy bidPrice qty).fillSlot i qty).subTotal .sell askPrice qty).fillSlot
      j qty = s₂
    rw [fillSlot_subTotal, fillSlot_subTotal]
  -- filled orders are retired
  obtain ⟨L₃, hw₃, hv₃, hq₃, hp₃⟩ := dropFilled_spec hw₂ hb (Or.inl ⟨rfl, rfl⟩)
  have ha₃ : L₃.queue .sell askPrice = j :: js := by
    rw [hq₃ _ _ (by simp), ha]
  obtain ⟨L₄, hw₄, hv₄, -, -⟩ := dropFilled_spec hw₃ ha₃ (Or.inr ⟨rfl, rfl⟩)
  refine ⟨_, L₄, ?_, hw₄, ?_⟩
  · rw [Orderbook.crossStep, hhb, hha]
    simp only [← hqty, hs₂]
    rfl
  · have hbid : resting (s₂.pool i) =
        { resting (s.pool i) with quantity := (s.pool i).quantity - qty } := by
      rw [hp₂ i (Ne.symm hij)]
      simp [s₁, setQuantity, resting]
    have hask : resting ((dropFilled s₂ .buy bidPrice i).pool j) =
        { resting (s.pool j) with quantity := (s.pool j).quantity - qty } := by
      rw [resting_eq_of_unlinked (hp₃ j), ← hp₁ j hij]
      simp [s₂, setQuantity, resting]
    have hbids : (is.map fun k => resting (s₂.pool k)) = is.map fun k => resting (s.pool k) :=
      List.map_congr_left fun k hk => by
        rw [hp₂ k (hnot' k hk), hp₁ k fun hki => hnodup.1 (hki ▸ hk)]
    have hasks : (js.map fun k => resting ((dropFilled s₂ .buy bidPrice i).pool k)) =
        js.map fun k => resting (s.pool k) :=
      List.map_congr_left fun k hk => by
        rw [resting_eq_of_unlinked (hp₃ k), hp₂ k fun hkj => hnodup'.1 (hkj ▸ hk),
          hp₁ k (hnot k hk)]
    have hbq : (s₂.pool i).quantity = (s.pool i).quantity - qty := congrArg Resting.quantity hbid
    have haq : ((dropFilled s₂ .buy bidPrice i).pool j).quantity = (s.pool j).quantity - qty :=
      congrArg Resting.quantity hask
    rw [hv₄, hask, hasks, haq, hv₃, hbid, hbids, hbq, hv₂, hv₁, Book.fillHead, Book.fillHead]
    -- only the last change of each of the two queues counts
    rw [BookOf.setQueue_comm _ _ _ _ _ (show Side.buy ≠ .sell by simp), BookOf.setQueue_setQueue,
      BookOf.setQueue_setQueue]
    rfl

/-- The inner loop against the reference: the same orders are in view, and no
queue is better than the two it works on. -/
structure Crosses (bidPrice askPrice : Price) (s : Orderbook n) (b : Book) : Prop where
  /-- The layout, in which the two levels may be empty. -/
  wf : ∃ L, Wf s [] (crossing bidPrice askPrice) L ∧ view s L = b
  /-- No bid is better. -/
  bestBid : ∀ p, b.queue .buy p ≠ [] → p = bidPrice ∨ Side.buy.before bidPrice p
  /-- No ask is better. -/
  bestAsk : ∀ p, b.queue .sell p ≠ [] → p = askPrice ∨ Side.sell.before askPrice p

/-- One pass of the inner loop is one reference step. -/
theorem Crosses.step {b : Book} {t : Trade} (h : Crosses bidPrice askPrice s b)
    (hcross : ¬bidPrice < askPrice)
    (hmarket : ¬(bidPrice = Side.buy.marketPrice ∧ askPrice = Side.sell.marketPrice))
    (hstep : Orderbook.crossStep bidPrice askPrice (tradePrice aggressorSide bidPrice askPrice) s =
      some (t, s')) :
    ∃ b', Book.matchStep aggressorSide b = some (t, b') ∧ Crosses bidPrice askPrice s' b' := by
  obtain ⟨⟨L, hw, rfl⟩, hbestBid, hbestAsk⟩ := h
  cases hhb : (s.level .buy bidPrice).head with
  | none => simp [Orderbook.crossStep, hhb] at hstep
  | some i =>
    cases hha : (s.level .sell askPrice).head with
    | none => simp [Orderbook.crossStep, hhb, hha] at hstep
    | some j =>
      obtain ⟨is, hb⟩ := queue_of_head_some hw hhb
      obtain ⟨js, ha⟩ := queue_of_head_some hw hha
      obtain ⟨s₁, L₁, hs₁, hw₁, hv₁⟩ := crossStep_spec
        (tradePrice aggressorSide bidPrice askPrice) hw hb ha
      rw [hs₁] at hstep
      cases hstep
      have hbid : (view s L).best? .buy =
          some (bidPrice, resting (s.pool i), is.map fun k => resting (s.pool k)) :=
        (BookOf.best?_eq_some_iff _ _ _ _ _).mpr ⟨by simp [hb], hbestBid⟩
      have hask : (view s L).best? .sell =
          some (askPrice, resting (s.pool j), js.map fun k => resting (s.pool k)) :=
        (BookOf.best?_eq_some_iff _ _ _ _ _).mpr ⟨by simp [ha], hbestAsk⟩
      refine ⟨view s' L₁, matchStep_eq_some_iff.mpr
        ⟨_, _, _, _, _, _, hbid, hask, hcross, hmarket, rfl, hv₁⟩, ⟨L₁, hw₁, rfl⟩, ?_, ?_⟩
      · intro p hp
        by_cases he : p = bidPrice
        · exact Or.inl he
        · rw [hv₁, queue_matchStep, if_neg (by simp [he]), if_neg (by simp)] at hp
          exact hbestBid p hp
      · intro p hp
        by_cases he : p = askPrice
        · exact Or.inl he
        · rw [hv₁, queue_matchStep, if_neg (by simp), if_neg (by simp [he])] at hp
          exact hbestAsk p hp

/-- A halted inner loop has emptied one of its levels; erasing what is empty
leaves no hole. -/
theorem wf_eraseBoth (h : Wf s held (crossing bidPrice askPrice) L) :
    Wf ((s.eraseIfEmpty .buy bidPrice).eraseIfEmpty .sell askPrice) held noHoles L := by
  refine (wf_eraseIfEmpty (wf_eraseIfEmpty h)).mono ?_
  rintro side price ⟨⟨hbuy | hsell, hnot⟩, hnot'⟩
  · exact hnot hbuy
  · exact hnot' hsell

/-- Erasing empty levels changes no order. -/
theorem view_eraseBoth (s : Orderbook n) (bidPrice askPrice : Price) (L : Layout n) :
    view ((s.eraseIfEmpty .buy bidPrice).eraseIfEmpty .sell askPrice) L = view s L := by
  rw [view_eraseIfEmpty, view_eraseIfEmpty]

/-- The inner loop starts at the best levels. -/
theorem crosses_start (h : Wf s [] noHoles L) {bid ask : PriceLevel n}
    (hbid : s.bids.first? = some (bidPrice, bid)) (hask : s.asks.first? = some (askPrice, ask)) :
    Crosses bidPrice askPrice s (view s L) := by
  obtain ⟨-, i, is, -, hbb⟩ := best_of_first .buy h hbid
  obtain ⟨-, j, js, -, hba⟩ := best_of_first .sell h hask
  exact ⟨⟨L, h.mono fun _ _ hf => hf.elim, rfl⟩,
    BookOf.before_of_best? hbb,
    BookOf.before_of_best? hba⟩

/-- The best levels have orders to cross. -/
theorem crossStep_of_first (h : Wf s [] noHoles L) {bid ask : PriceLevel n}
    (hbid : s.bids.first? = some (bidPrice, bid)) (hask : s.asks.first? = some (askPrice, ask))
    (price : Price) : Orderbook.crossStep bidPrice askPrice price s ≠ none := by
  obtain ⟨-, i, is, hqb, -⟩ := best_of_first .buy h hbid
  obtain ⟨-, j, js, hqa, -⟩ := best_of_first .sell h hask
  obtain ⟨s₁, L₁, hs₁, -⟩ := crossStep_spec price (h.mono fun _ _ hf => hf.elim) hqb hqa
  rw [hs₁]
  exact Option.some_ne_none _

/-- The inner loop ends and simulates at least one reference step. -/
theorem innerLoop_simulates (aggressorSide : Side) (h : Wf s [] noHoles L) {bid ask : PriceLevel n}
    (hbid : s.bids.first? = some (bidPrice, bid)) (hask : s.asks.first? = some (askPrice, ask))
    (hcross : ¬bidPrice < askPrice)
    (hmarket : ¬(bidPrice = Side.buy.marketPrice ∧ askPrice = Side.sell.marketPrice)) :
    ∃ ts s' L', run? (Orderbook.crossStep bidPrice askPrice
        (tradePrice aggressorSide bidPrice askPrice)) (n + 1) s = some (ts, s') ∧
      Steps (Book.matchStep aggressorSide) (view s L) ts (view s' L') ∧
      Wf ((s'.eraseIfEmpty .buy bidPrice).eraseIfEmpty .sell askPrice) [] noHoles L' ∧
      (view s' L').size < (view s L).size := by
  have hR := crosses_start h hbid hask
  have hsize := h.size_le
  obtain ⟨ts, s', b', hrun, hhalt, hsteps, hR'⟩ := run?_simulates
    (fun _ _ _ hstep => matchStep_size_lt hstep)
    (fun _ _ _ _ hst hstep => Crosses.step hst hcross hmarket hstep) hR
    (show (view s L).size < n + 1 by omega)
  obtain ⟨L', hw', rfl⟩ := hR'.wf
  refine ⟨ts, s', L', hrun, hsteps, wf_eraseBoth hw', ?_⟩
  have hle := hsteps.length_add_le (fun _ _ _ hstep => matchStep_size_lt hstep)
  -- both levels had a head, so that the loop did not halt at once
  have hne : ts ≠ [] := by
    rintro rfl
    cases (steps_run? hrun).1
    exact crossStep_of_first h hbid hask _ hhalt
  have hpos := List.length_pos_of_ne_nil hne
  omega

end InnerLoop

section Settings

variable {bidPrice askPrice price : Price} {t : Trade}

/-- A step of the inner loop leaves the settings alone. -/
theorem settings_crossStep (h : Orderbook.crossStep bidPrice askPrice price s = some (t, s')) :
    settings s' = settings s := by
  rw [Orderbook.crossStep] at h
  split at h
  · cases h
    split_ifs <;> simp only [settings_retire, settings_fillSlot, settings_subTotal]
  · cases h

/-- The loops leave the settings alone. -/
theorem settings_matchLoop {aggressorSide : Side} {fuel : ℕ} {ts : Trades}
    (h : Orderbook.matchLoop aggressorSide fuel s = some (ts, s')) :
    settings s' = settings s := by
  induction fuel generalizing s ts with
  | zero => cases h
  | succ fuel ih =>
    rw [Orderbook.matchLoop] at h
    split at h
    · rename_i bidPrice _ askPrice _ _ _
      split_ifs at h
      · cases h
        rfl
      · cases h
        rfl
      · split at h
        · cases h
        · rename_i trades s₁ hrun
          obtain ⟨r, hr, heq⟩ := Option.map_eq_some_iff.mp h
          cases heq
          have hinner : settings s₁ = settings s := (steps_run? hrun).1.invariant
            (I := fun x => settings x = settings s)
            (fun _ _ _ hx hstep => (settings_crossStep hstep).trans hx) rfl
          rw [ih hr, settings_eraseIfEmpty, settings_eraseIfEmpty, hinner]
    · cases h
      rfl

end Settings

section OuterLoop

/-- Where the outer loop stops, no reference step applies. -/
theorem matchStep_of_stop (aggressorSide : Side) (h : Wf s [] noHoles L)
    (hstop : ∀ bidPrice bid askPrice ask, s.bids.first? = some (bidPrice, bid) →
      s.asks.first? = some (askPrice, ask) → bidPrice < askPrice ∨
        bidPrice = Side.buy.marketPrice ∧ askPrice = Side.sell.marketPrice) :
    Book.matchStep aggressorSide (view s L) = none := by
  refine matchStep_eq_none_iff.mpr fun p x xs q y ys hb ha => ?_
  cases hbid : s.bids.first? with
  | none =>
    rw [best_of_first_none .buy h hbid] at hb
    cases hb
  | some r =>
    obtain ⟨bidPrice, bid⟩ := r
    cases hask : s.asks.first? with
    | none =>
      rw [best_of_first_none .sell h hask] at ha
      cases ha
    | some r =>
      obtain ⟨askPrice, ask⟩ := r
      obtain ⟨-, i, is, -, hbb⟩ := best_of_first .buy h hbid
      obtain ⟨-, j, js, -, hba⟩ := best_of_first .sell h hask
      rw [hbb] at hb
      rw [hba] at ha
      cases hb
      cases ha
      exact hstop _ _ _ _ hbid hask

/-- The outer loop ends, and the trades and the final orders are those of the
reference steps run until none applies. -/
theorem matchLoop_simulates (aggressorSide : Side) {fuel : ℕ} (h : Wf s [] noHoles L)
    (hfuel : (view s L).size < fuel) :
    ∃ ts s' L', Orderbook.matchLoop aggressorSide fuel s = some (ts, s') ∧
      Steps (Book.matchStep aggressorSide) (view s L) ts (view s' L') ∧
      Book.matchStep aggressorSide (view s' L') = none ∧ Wf s' [] noHoles L' := by
  induction fuel generalizing s L with
  | zero => omega
  | succ fuel ih =>
    have hstop : Book.matchStep aggressorSide (view s L) = none →
        ∃ s' L', some (([] : Trades), s) = some ([], s') ∧
          Steps (Book.matchStep aggressorSide) (view s L) [] (view s' L') ∧
          Book.matchStep aggressorSide (view s' L') = none ∧ Wf s' [] noHoles L' :=
      fun hnone => ⟨s, L, rfl, Steps.refl _, hnone, h⟩
    rw [Orderbook.matchLoop]
    split
    · rename_i bidPrice bid askPrice ask hbid hask
      have hnone : bidPrice < askPrice ∨
          bidPrice = Side.buy.marketPrice ∧ askPrice = Side.sell.marketPrice →
            Book.matchStep aggressorSide (view s L) = none := by
        refine fun hor => matchStep_of_stop aggressorSide h fun _ _ _ _ hb ha => ?_
        rw [hbid] at hb
        rw [hask] at ha
        cases hb
        cases ha
        exact hor
      split_ifs with hcross hmarket
      · exact ⟨[], hstop (hnone (Or.inl hcross))⟩
      · exact ⟨[], hstop (hnone (Or.inr hmarket))⟩
      · obtain ⟨ts, s₁, L₁, hrun, hsteps, hw₁, hlt⟩ :=
          innerLoop_simulates aggressorSide h hbid hask hcross hmarket
        have hv₁ := view_eraseBoth s₁ bidPrice askPrice L₁
        obtain ⟨ts', s', L', hloop, hsteps', hhalt, hw'⟩ := ih hw₁ (by rw [hv₁]; omega)
        rw [hv₁] at hsteps'
        refine ⟨ts ++ ts', s', L', ?_, hsteps.trans hsteps', hhalt, hw'⟩
        rw [hrun]
        simp only [hloop, Option.map_some]
    · rename_i hnone
      exact ⟨[], hstop (matchStep_of_stop aggressorSide h fun _ _ _ _ hb ha =>
        (hnone _ _ _ _ hb ha).elim)⟩

end OuterLoop

end OrderbookEngine.MatchSimulation
