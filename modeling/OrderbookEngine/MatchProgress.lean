import OrderbookEngine.BookState
import OrderbookEngine.Fills

/-!
# Termination and progress of the matching loops

Every pass of the inner loop emits one trade and retires the orders that the
trade exhausts, and every pass of the outer loop that does not break erases a
best level. Live orders and levels are the measures of the two loops, so that
they bound the trades and the passes. A plan of FillOrKill lists live opposing
orders, each once.
-/

namespace OrderbookEngine.MatchProgress

open SortedMap StepRuns MarketTypes PoolBook FeedCalls ReferenceBook LayoutInvariant SlotSteps
open ReferenceSteps Fills CancelSimulation MatchSimulation FokSimulation EngineSimulation RunRules

variable {n k : ℕ} {s s₁ s' : Orderbook n} {held held' : List (Fin n)}
  {holes holes' : Side → Price → Prop} {L L' : Layout n} {side side' aggressorSide : Side}
  {price price' bidPrice askPrice : Price} {t : Trade} {ts : Trades} {id : OrderId}

section FilledOrders

/-- The live orders that some trades exhaust. -/
def filledOrders (s : Orderbook n) (ts : Trades) : List OrderId :=
  (s.orderMap.entries.filter fun e => Exhausts ts e.1 (s.pool e.2).quantity.toNat).map Prod.fst

/-- The orders that leave are those that the trades exhaust, and no order joins. -/
def Retires (s : Orderbook n) (ts : Trades) (s' : Orderbook n) : Prop :=
  (filledOrders s ts ++ s'.orderMap.keys).Perm s.orderMap.keys

/-- The orders that some trades fill. -/
theorem mem_filledOrders : id ∈ filledOrders s ts ↔
    ∃ i, s.orderMap.find? id = some i ∧ Exhausts ts id (s.pool i).quantity.toNat := by
  simp [filledOrders, OrdMap.find?_eq_some_iff]

/-- Each filled order is listed once. -/
theorem filledOrders_nodup (s : Orderbook n) (ts : Trades) : (filledOrders s ts).Nodup :=
  s.orderMap.keys_nodup.sublist (List.filter_sublist.map _)

/-- Live and filled orders add up. -/
theorem Retires.length_add (h : Retires s ts s') :
    (filledOrders s ts).length + s'.size = s.size := by
  have hlen := h.length_eq
  rwa [List.length_append, OrdMap.length_keys, OrdMap.length_keys] at hlen

/-- Reference matching steps between two views retire what their trades exhaust,
an order for every trade. -/
theorem retires_of_steps (h : Wf s held holes L) (h' : Wf s' held' holes' L')
    (hsteps : Steps (Book.matchStep aggressorSide) (view s L) ts (view s' L')) :
    Retires s ts s' ∧ ts.length ≤ (filledOrders s ts).length := by
  have hgone : ∀ id i, s.orderMap.find? id = some i →
      (s'.orderMap.find? id = none ↔ Exhausts ts id (s.pool i).quantity.toNat) := by
    intro id i hi
    rw [← find?_view_eq_none_iff h']
    exact matchSteps_gone_iff (distinct_view h) hsteps (find?_view_of_some h hi)
  have hretires : Retires s ts s' := by
    refine (List.perm_ext_iff_of_nodup ?_ s.orderMap.keys_nodup).mpr fun id => ?_
    · rw [List.nodup_append]
      refine ⟨filledOrders_nodup s ts, s'.orderMap.keys_nodup, ?_⟩
      rintro id hfilled _ hlive rfl
      obtain ⟨i, hi, hex⟩ := mem_filledOrders.mp hfilled
      exact (s'.orderMap.find?_eq_none_iff id).mp ((hgone id i hi).mpr hex) hlive
    · rw [List.mem_append, mem_filledOrders, ← OrdMap.find?_ne_none_iff, ← OrdMap.find?_ne_none_iff]
      cases hi : s.orderMap.find? id with
      | none =>
        have hnone : s'.orderMap.find? id = none := by
          rw [← find?_view_eq_none_iff h', (shrinks_matchSteps hsteps).find?_eq_none]
          exact (find?_view_eq_none_iff h id).mpr hi
        simp [hnone]
      | some i =>
        have hiff := hgone id i hi
        simp only [Option.some.injEq, exists_eq_left', ne_eq, reduceCtorEq, not_false_eq_true,
          iff_true, hiff]
        exact Classical.em _
  refine ⟨hretires, ?_⟩
  have hmeasure := hsteps.length_add_le fun _ _ _ hstep => matchStep_size_lt hstep
  rw [← h.size_eq, ← h'.size_eq] at hmeasure
  have hlen := hretires.length_add
  omega

end FilledOrders

section Passes

/-- Two best prices at which the outer loop does not break. -/
structure Crossed (s : Orderbook n) (bidPrice askPrice : Price) : Prop where
  /-- Best bid. -/
  bid : ∃ lvl, s.bids.first? = some (bidPrice, lvl)
  /-- Best ask. -/
  ask : ∃ lvl, s.asks.first? = some (askPrice, lvl)
  /-- The bid reaches the ask. -/
  crossed : ¬bidPrice < askPrice
  /-- They are not the sentinel pair. -/
  priced : ¬(bidPrice = Int32.maxValue ∧ askPrice = Int32.minValue)

/-- One pass of the inner loop at two best prices. -/
abbrev crossAt (aggressorSide : Side) (bidPrice askPrice : Price) :
    Orderbook n → Option (Trade × Orderbook n) :=
  Orderbook.crossStep bidPrice askPrice (tradePrice aggressorSide bidPrice askPrice)

/-- One pass of the outer loop that does not break: the inner loop runs until a
level has no head, and the levels it leaves empty are erased. -/
structure Pass (aggressorSide : Side) (bidPrice askPrice : Price) (s : Orderbook n) (ts : Trades)
    (s' : Orderbook n) : Prop where
  /-- The best levels before the pass. -/
  crossed : Crossed s bidPrice askPrice
  /-- The inner loop runs to its end. -/
  inner : ∃ s₁, Steps (crossAt aggressorSide bidPrice askPrice) s ts s₁ ∧
    crossAt aggressorSide bidPrice askPrice s₁ = none ∧
    s' = (s₁.eraseIfEmpty .buy bidPrice).eraseIfEmpty .sell askPrice

/-- Passes of the outer loop one after the other, with their number and trades. -/
inductive Passes (aggressorSide : Side) : Orderbook n → ℕ → Trades → Orderbook n → Prop
  | refl (s : Orderbook n) : Passes aggressorSide s 0 [] s
  | head {s s₁ s' : Orderbook n} {bidPrice askPrice : Price} {k : ℕ} {ts ts' : Trades} :
      Pass aggressorSide bidPrice askPrice s ts s₁ → Passes aggressorSide s₁ k ts' s' →
        Passes aggressorSide s (k + 1) (ts ++ ts') s'

/-- Whether the outer loop ends at its next test. -/
def Done (s : Orderbook n) : Prop := ∀ bidPrice askPrice, ¬Crossed s bidPrice askPrice

/-- Where the best prices cross, the outer loop makes a pass. -/
theorem exists_pass (aggressorSide : Side) (h : Wf s [] noHoles L)
    (hc : Crossed s bidPrice askPrice) :
    ∃ ts s', Pass aggressorSide bidPrice askPrice s ts s' := by
  obtain ⟨bid, hbid⟩ := hc.bid
  obtain ⟨ask, hask⟩ := hc.ask
  obtain ⟨ts, s₁, L', hrun, -⟩ :=
    innerLoop_simulates aggressorSide h hbid hask hc.crossed hc.priced
  obtain ⟨hsteps, hhalt⟩ := steps_run? hrun
  exact ⟨ts, _, hc, s₁, hsteps, hhalt, rfl⟩

/-- The states of the inner loop satisfy the invariant but for their two levels,
and their trades are those of reference steps. -/
theorem inner_simulates (h : Wf s [] noHoles L) (hc : Crossed s bidPrice askPrice)
    (hsteps : Steps (crossAt aggressorSide bidPrice askPrice) s ts s₁) :
    ∃ L₁, Wf s₁ [] (crossing bidPrice askPrice) L₁ ∧
      Steps (Book.matchStep aggressorSide) (view s L) ts (view s₁ L₁) ∧
      Crosses bidPrice askPrice s₁ (view s₁ L₁) := by
  obtain ⟨bid, hbid⟩ := hc.bid
  obtain ⟨ask, hask⟩ := hc.ask
  obtain ⟨b₁, hsteps₁, hcrosses⟩ := hsteps.simulates
    (fun _ _ _ _ hst hstep => Crosses.step hst hc.crossed hc.priced hstep)
    (crosses_start h hbid hask)
  obtain ⟨L₁, hw₁, rfl⟩ := hcrosses.wf
  exact ⟨L₁, hw₁, hsteps₁, hcrosses⟩

/-- The inner loop goes on while both levels have orders. -/
theorem queue_nil_of_halt (h : Wf s held (crossing bidPrice askPrice) L)
    (hhalt : crossAt aggressorSide bidPrice askPrice s = none) :
    L.queue .buy bidPrice = [] ∨ L.queue .sell askPrice = [] := by
  cases hb : L.queue .buy bidPrice with
  | nil => exact Or.inl rfl
  | cons i is =>
    cases ha : L.queue .sell askPrice with
    | nil => exact Or.inr rfl
    | cons j js =>
      obtain ⟨s', L', hstep, -⟩ :=
        crossStep_spec (tradePrice aggressorSide bidPrice askPrice) h hb ha
      rw [crossAt, hstep] at hhalt
      cases hhalt

/-- A pass restores the invariant, and its trades are those of reference steps. -/
theorem Pass.simulates (h : Wf s [] noHoles L)
    (hp : Pass aggressorSide bidPrice askPrice s ts s') :
    ∃ L', Wf s' [] noHoles L' ∧
      Steps (Book.matchStep aggressorSide) (view s L) ts (view s' L') ∧ ts ≠ [] := by
  obtain ⟨hc, s₁, hsteps, hhalt, rfl⟩ := hp
  obtain ⟨L₁, hw₁, hsteps₁, -⟩ := inner_simulates h hc hsteps
  refine ⟨L₁, wf_eraseBoth hw₁, ?_, ?_⟩
  · rw [view_eraseBoth]
    exact hsteps₁
  · rintro rfl
    cases hsteps
    obtain ⟨bid, hbid⟩ := hc.bid
    obtain ⟨ask, hask⟩ := hc.ask
    exact crossStep_of_first h hbid hask _ hhalt

/-- So do passes in a row, each with a trade at least. -/
theorem Passes.simulates (h : Wf s [] noHoles L) (hp : Passes aggressorSide s k ts s') :
    ∃ L', Wf s' [] noHoles L' ∧
      Steps (Book.matchStep aggressorSide) (view s L) ts (view s' L') ∧ k ≤ ts.length := by
  induction hp generalizing L with
  | refl s => exact ⟨L, h, Steps.refl _, Nat.le_refl 0⟩
  | @head s s₁ s' bidPrice askPrice k ts ts' hpass _ ih =>
    obtain ⟨L₁, hw₁, hsteps, hne⟩ := hpass.simulates h
    obtain ⟨L', hw', hsteps', hk⟩ := ih hw₁
    refine ⟨L', hw', hsteps.trans hsteps', ?_⟩
    have hpos := List.length_pos_of_ne_nil hne
    rw [List.length_append]
    omega

/-- The outer loop makes finitely many passes. -/
theorem exists_passes (aggressorSide : Side) (h : Wf s [] noHoles L) :
    ∃ k ts s', Passes aggressorSide s k ts s' ∧ Done s' := by
  induction hsize : s.size using Nat.strongRecOn generalizing s L with
  | ind size ih =>
    subst hsize
    by_cases hcrossed : ∃ bidPrice askPrice, Crossed s bidPrice askPrice
    · obtain ⟨bidPrice, askPrice, hc⟩ := hcrossed
      obtain ⟨ts, s₁, hpass⟩ := exists_pass aggressorSide h hc
      obtain ⟨L₁, hw₁, hsteps, hne⟩ := hpass.simulates h
      -- a pass has a trade, and every trade costs a live order
      have hlt : s₁.size < s.size := by
        have hmeasure := hsteps.length_add_le fun _ _ _ hstep => matchStep_size_lt hstep
        have hpos := List.length_pos_of_ne_nil hne
        rw [← h.size_eq, ← hw₁.size_eq] at hmeasure
        omega
      obtain ⟨k, ts', s', hpasses, hdone⟩ := ih s₁.size hlt hw₁ rfl
      exact ⟨k + 1, ts ++ ts', s', Passes.head hpass hpasses, hdone⟩
    · exact ⟨0, [], s, Passes.refl s, fun bidPrice askPrice hc => hcrossed ⟨bidPrice, askPrice, hc⟩⟩

end Passes

section Fuel

/-- Where the outer loop ends, any fuel finds the end. -/
theorem matchLoop_of_done (hdone : Done s) (fuel : ℕ) :
    Orderbook.matchLoop aggressorSide (fuel + 1) s = some ([], s) := by
  rw [Orderbook.matchLoop]
  split
  · rename_i bidPrice bid askPrice ask hbid hask
    have hnot := hdone bidPrice askPrice
    split_ifs with hlt hmarket
    · rfl
    · rfl
    · exact absurd ⟨⟨bid, hbid⟩, ⟨ask, hask⟩, hlt, hmarket⟩ hnot
  · rfl

/-- A pass takes one unit of fuel if the inner loop ends within its own. -/
theorem Pass.matchLoop_eq (hp : Pass aggressorSide bidPrice askPrice s ts s')
    (hlen : ts.length ≤ n) (fuel : ℕ) :
    Orderbook.matchLoop aggressorSide (fuel + 1) s =
      (Orderbook.matchLoop aggressorSide fuel s').map fun r => (ts ++ r.1, r.2) := by
  obtain ⟨⟨⟨bid, hbid⟩, ⟨ask, hask⟩, hlt, hmarket⟩, s₁, hsteps, hhalt, rfl⟩ := hp
  have hrun : run? (crossAt aggressorSide bidPrice askPrice) (n + 1) s = some (ts, s₁) :=
    hsteps.run?_eq hhalt (by omega)
  rw [Orderbook.matchLoop, hbid, hask]
  dsimp only
  rw [if_neg hlt, if_neg hmarket, hrun]

/-- Fuel that exceeds the number of passes finds the end of the outer loop. -/
theorem Passes.matchLoop_eq (hp : Passes aggressorSide s k ts s') (hdone : Done s')
    (hlen : ts.length ≤ n) {fuel : ℕ} (hfuel : k < fuel) :
    Orderbook.matchLoop aggressorSide fuel s = some (ts, s') := by
  induction hp generalizing fuel with
  | refl s =>
    cases fuel with
    | zero => omega
    | succ fuel => exact matchLoop_of_done hdone fuel
  | head hpass _ ih =>
    cases fuel with
    | zero => omega
    | succ fuel =>
      rw [List.length_append] at hlen
      rw [hpass.matchLoop_eq (by omega), ih hdone (by omega) (by omega), Option.map_some]

end Fuel

section Levels

/-- Number of price levels of both sides. -/
def levelCount (s : Orderbook n) : ℕ := s.bids.size + s.asks.size

/-- The best bid level, the best ask level or both are erased, and no other level
is touched. -/
structure ErasesLevel (bidPrice askPrice : Price) (s s' : Orderbook n) : Prop where
  /-- One of the two levels is gone. -/
  best : s'.bids.find? bidPrice = none ∨ s'.asks.find? askPrice = none
  /-- The other levels are as before. -/
  others : ∀ side price, ¬crossing bidPrice askPrice side price →
    (s'.levels side).find? price = (s.levels side).find? price
  /-- There are fewer levels. -/
  fewer : levelCount s' < levelCount s

/-- Writing a level leaves the others alone. -/
theorem find?_putLevel_of_ne (lvl : PriceLevel n) (hne : ¬(side' = side ∧ price' = price)) :
    ((s.putLevel side price lvl).levels side').find? price' = (s.levels side').find? price' := by
  rw [Orderbook.find?_putLevel, if_neg hne]

/-- Erasing a level leaves the others alone. -/
theorem find?_eraseIfEmpty_of_ne (hne : ¬(side' = side ∧ price' = price)) :
    ((s.eraseIfEmpty side price).levels side').find? price' =
      (s.levels side').find? price' := by
  rw [Orderbook.eraseIfEmpty]
  split_ifs
  · rw [Orderbook.find?_eraseLevel, if_neg hne]
  · rfl

/-- A level without orders is erased. -/
theorem find?_eraseIfEmpty_self (h : Wf s held holes L) (hnil : L.queue side price = []) :
    ((s.eraseIfEmpty side price).levels side).find? price = none := by
  have hempty : (s.level side price).empty = true := (h.level side price).empty_iff.mpr hnil
  rw [Orderbook.eraseIfEmpty, if_pos hempty, Orderbook.find?_eraseLevel, if_pos ⟨rfl, rfl⟩]

/-- Retiring an order leaves other levels alone. -/
theorem find?_retire_of_ne (i : Fin n) (hne : ¬(side' = side ∧ price' = price)) :
    ((s.retire side price i).levels side').find? price' = (s.levels side').find? price' := by
  have hput : (s.retire side price i).levels side' =
      (s.putLevel side price (dllRemove s.pool (s.level side price) i).2).levels side' := by
    cases side <;> cases side' <;> rfl
  rw [hput, find?_putLevel_of_ne _ hne]

/-- Filling an order leaves all levels alone. -/
@[simp] theorem levels_fillSlot (i : Fin n) (qty : Quantity) :
    (s.fillSlot i qty).levels side = s.levels side := by
  cases side <;> rfl

/-- The inner loop touches its two levels only. -/
theorem find?_crossStep (hne : ¬crossing bidPrice askPrice side price)
    (hstep : Orderbook.crossStep bidPrice askPrice price' s = some (t, s')) :
    (s'.levels side).find? price = (s.levels side).find? price := by
  have hbid : ¬(side = .buy ∧ price = bidPrice) := fun he => hne (Or.inl he)
  have hask : ¬(side = .sell ∧ price = askPrice) := fun he => hne (Or.inr he)
  rw [Orderbook.crossStep] at hstep
  split at hstep
  · cases hstep
    split_ifs <;> simp only [find?_retire_of_ne _ hbid, find?_retire_of_ne _ hask,
      levels_fillSlot, Orderbook.subTotal, find?_putLevel_of_ne _ hbid, find?_putLevel_of_ne _ hask]
  · cases hstep

/-- There are fewer levels once a best one is erased and no other is touched. -/
theorem levelCount_lt (hc : Crossed s bidPrice askPrice)
    (hbest : s'.bids.find? bidPrice = none ∨ s'.asks.find? askPrice = none)
    (hothers : ∀ side price, ¬crossing bidPrice askPrice side price →
      (s'.levels side).find? price = (s.levels side).find? price) :
    levelCount s' < levelCount s := by
  obtain ⟨bid, hbid⟩ := hc.bid
  obtain ⟨ask, hask⟩ := hc.ask
  have hbidLevel : s.bids.find? bidPrice ≠ none := by
    simp [((OrdMap.first?_eq_some_iff _ _ _).mp hbid).1]
  have haskLevel : s.asks.find? askPrice ≠ none := by
    simp [((OrdMap.first?_eq_some_iff _ _ _).mp hask).1]
  -- no level is new: the best ones were there, and the others are as before
  have hkept : ∀ side price, (s'.levels side).find? price ≠ none →
      (s.levels side).find? price ≠ none := by
    intro side price hne
    by_cases hcross : crossing bidPrice askPrice side price
    · rcases hcross with ⟨rfl, rfl⟩ | ⟨rfl, rfl⟩
      · exact hbidLevel
      · exact haskLevel
    · rwa [← hothers side price hcross]
  rw [levelCount, levelCount]
  rcases hbest with hgone | hgone
  · have hlt := OrdMap.size_lt_of_find? (hkept .buy) hbidLevel hgone
    have hle := OrdMap.size_le_of_find? (hkept .sell)
    exact Nat.add_lt_add_of_lt_of_le hlt hle
  · have hle := OrdMap.size_le_of_find? (hkept .buy)
    have hlt := OrdMap.size_lt_of_find? (hkept .sell) haskLevel hgone
    exact Nat.add_lt_add_of_le_of_lt hle hlt

/-- A pass of the outer loop erases a best level. -/
theorem Pass.erases (h : Wf s [] noHoles L) (hp : Pass aggressorSide bidPrice askPrice s ts s') :
    ErasesLevel bidPrice askPrice s s' := by
  obtain ⟨hc, s₁, hsteps, hhalt, rfl⟩ := hp
  obtain ⟨L₁, hw₁, -, -⟩ := inner_simulates h hc hsteps
  have hbest : ((s₁.eraseIfEmpty .buy bidPrice).eraseIfEmpty .sell askPrice).bids.find? bidPrice =
      none ∨ ((s₁.eraseIfEmpty .buy bidPrice).eraseIfEmpty .sell askPrice).asks.find? askPrice =
        none := by
    rcases queue_nil_of_halt hw₁ hhalt with hnil | hnil
    · left
      have hbid := find?_eraseIfEmpty_self hw₁ hnil
      have hother : ¬(Side.buy = .sell ∧ bidPrice = askPrice) := by simp
      rwa [← find?_eraseIfEmpty_of_ne hother] at hbid
    · exact Or.inr (find?_eraseIfEmpty_self (wf_eraseIfEmpty hw₁) hnil)
  have hothers : ∀ side price, ¬crossing bidPrice askPrice side price →
      (((s₁.eraseIfEmpty .buy bidPrice).eraseIfEmpty .sell askPrice).levels side).find? price =
        (s.levels side).find? price := by
    intro side price hne
    rw [find?_eraseIfEmpty_of_ne fun he => hne (Or.inr he),
      find?_eraseIfEmpty_of_ne fun he => hne (Or.inl he)]
    exact hsteps.invariant (I := fun x => (x.levels side).find? price = (s.levels side).find? price)
      (fun _ _ _ hx hstep => (find?_crossStep hne hstep).trans hx) rfl
  exact ⟨hbest, hothers, levelCount_lt hc hbest hothers⟩

/-- The levels bound the passes. -/
theorem Passes.levelCount_le (h : Wf s [] noHoles L) (hp : Passes aggressorSide s k ts s') :
    k + levelCount s' ≤ levelCount s := by
  induction hp generalizing L with
  | refl s => omega
  | head hpass _ ih =>
    obtain ⟨L₁, hw₁, -, -⟩ := hpass.simulates h
    have hfewer := (hpass.erases h).fewer
    have hle := ih hw₁
    omega

end Levels

section Plans

/-- The slots of the live orders of a side. -/
def liveSlots (s : Orderbook n) (side : Side) : List (Fin n) :=
  (s.orderMap.entries.map Prod.snd).filter fun i => (s.pool i).side = side

/-- The live slots of a side. -/
theorem mem_liveSlots {i : Fin n} : i ∈ liveSlots s side ↔
    (∃ id, s.orderMap.find? id = some i) ∧ (s.pool i).side = side := by
  simp [liveSlots, OrdMap.find?_eq_some_iff]

/-- Planned fills of live opposing orders, each planned once. -/
structure SoundPlan (s : Orderbook n) (side : Side) (found : List (FokMatch n)) : Prop where
  /-- No slot is planned twice. -/
  once : (found.map FokMatch.idx).Nodup
  /-- Planned slots hold opposing orders. -/
  live : ∀ m ∈ found, m.idx ∈ liveSlots s side.opposite
  /-- There are no more of them than such orders. -/
  length_le : found.length ≤ (liveSlots s side.opposite).length

/-- The first phase of FillOrKill ends with a sound plan, whatever is asked. -/
def CollectsPlans (s : Orderbook n) : Prop := ∀ side limit qty, ∃ found,
  s.collectFOK side limit qty = some found ∧ SoundPlan s side found

/-- A plan takes its slots in order. -/
theorem takeFills_sublist (pool : Pool n) (is : List (Fin n)) (remaining : Quantity) :
    ((takeFills pool is remaining).1.map FokMatch.idx).Sublist is := by
  induction is generalizing remaining with
  | nil => exact List.Sublist.refl []
  | cons i is ih =>
    rw [takeFills]
    split_ifs with hpos
    · exact (ih _).cons_cons i
    · exact List.nil_sublist _

/-- No slot is reached twice. -/
theorem reach_nodup (h : Wf s held holes L) (side : Side) (limit : Price) :
    (reach L side limit).Nodup :=
  (h.side_nodup side.opposite).sublist (List.filter_sublist.map Prod.snd)

/-- The first phase walks acyclic lists of live orders only. -/
theorem collectsPlans (h : Wf s held noHoles L) : CollectsPlans s := by
  intro side limit qty
  have hsub := takeFills_sublist s.pool (reach L side limit) qty
  have honce := (reach_nodup h side limit).sublist hsub
  have hlive : ∀ m ∈ (takeFills s.pool (reach L side limit) qty).1,
      m.idx ∈ liveSlots s side.opposite := by
    intro m hm
    obtain ⟨price, hi⟩ := mem_reach (hsub.subset (List.mem_map_of_mem hm))
    obtain ⟨hside, -, hid⟩ := h.placed _ _ _ hi
    exact mem_liveSlots.mpr ⟨⟨_, hid⟩, hside⟩
  have hsubset : (takeFills s.pool (reach L side limit) qty).1.map FokMatch.idx ⊆
      liveSlots s side.opposite := by
    intro i hi
    obtain ⟨m, hm, rfl⟩ := List.mem_map.mp hi
    exact hlive m hm
  have hle := (List.subperm_of_subset honce hsubset).length_le
  rw [List.length_map] at hle
  exact ⟨_, collectFOK_eq h side limit qty, honce, hlive, hle⟩

/-- So it does for a FillOrKill order that has got its slot. -/
theorem collectsPlans_written (h : Wf s [] noHoles L) {idx : Fin n}
    (halloc : s.alloc = .ret idx s') (id : OrderId) (side : Side) (price : Price)
    (type : OrderType) (qty : Quantity) :
    CollectsPlans (s'.writeOrder idx id side price type qty) := by
  cases hf : s.freeList with
  | nil =>
    rw [alloc_of_nil hf] at halloc
    cases halloc
  | cons i rest =>
    rw [alloc_of_cons hf] at halloc
    cases halloc
    exact collectsPlans (wf_written h hf).1

end Plans

section Progress

/-- What the loops do where the best prices cross. -/
structure Progresses (aggressorSide : Side) (bidPrice askPrice : Price) (s : Orderbook n) :
    Prop where
  /-- Every pass of the inner loop has one trade and retires one order at least. -/
  inner : ∀ ts s₁ t s₂, Steps (crossAt aggressorSide bidPrice askPrice) s ts s₁ →
    crossAt aggressorSide bidPrice askPrice s₁ = some (t, s₂) →
      Retires s₁ [t] s₂ ∧ filledOrders s₁ [t] ≠ []
  /-- The inner loop ends. -/
  ends : ∃ ts s', Pass aggressorSide bidPrice askPrice s ts s'
  /-- Every pass of the outer loop has a trade and erases a level. -/
  outer : ∀ ts s', Pass aggressorSide bidPrice askPrice s ts s' →
    ts ≠ [] ∧ ErasesLevel bidPrice askPrice s s'

/-- A crossed pair of levels makes progress. -/
theorem progresses (aggressorSide : Side) (h : Wf s [] noHoles L)
    (hc : Crossed s bidPrice askPrice) : Progresses aggressorSide bidPrice askPrice s where
  inner := by
    intro ts s₁ t s₂ hsteps hstep
    obtain ⟨L₁, hw₁, -, hcrosses⟩ := inner_simulates h hc hsteps
    obtain ⟨b₂, hstep₂, hcrosses₂⟩ := hcrosses.step hc.crossed hc.priced hstep
    obtain ⟨L₂, hw₂, rfl⟩ := hcrosses₂.wf
    obtain ⟨hretires, hle⟩ := retires_of_steps hw₁ hw₂ (Steps.head hstep₂ (Steps.refl _))
    exact ⟨hretires, List.ne_nil_of_length_pos hle⟩
  ends := exists_pass aggressorSide h hc
  outer := by
    intro ts s' hp
    obtain ⟨-, -, -, hne⟩ := hp.simulates h
    exact ⟨hne, hp.erases h⟩

/-- How the matching loops and the function around them end. -/
structure Ends (aggressorSide : Side) (iocId : Option OrderId) (s : Orderbook n) (ts : Trades)
    (s₁ s' : Orderbook n) : Prop where
  /-- The loops stop after passes that each cost a level. -/
  passes : ∃ k, Passes aggressorSide s k ts s₁ ∧ k + levelCount s₁ ≤ levelCount s
  /-- The outer loop has ended. -/
  done : Done s₁
  /-- Fuel for the live orders is enough. -/
  fuel : ∀ fuel, s.size < fuel → Orderbook.matchLoop aggressorSide fuel s = some (ts, s₁)
  /-- The orders that leave in the loops are filled, and there are no more trades. -/
  retires : Retires s ts s₁
  /-- Every trade fills an order. -/
  trades_le : ts.length ≤ (filledOrders s ts).length
  /-- Matching returns. -/
  returns : s.matchOrders aggressorSide iocId = .ret ts s'
  /-- An ImmediateOrCancel order is cancelled after the loops. -/
  cancels : ∀ id, s'.hasOrder id = true ↔ s₁.hasOrder id = true ∧ iocId ≠ some id

/-- The loops of a matching run are followed by the cancellation. -/
theorem matchOrders_of_loop (h : Wf s₁ [] noHoles L)
    (hloop : Orderbook.matchLoop aggressorSide (n + 1) s = some (ts, s₁))
    (iocId : Option OrderId) :
    ∃ s', s.matchOrders aggressorSide iocId = .ret ts s' ∧
      ∀ id, s'.hasOrder id = true ↔ s₁.hasOrder id = true ∧ iocId ≠ some id := by
  rw [Orderbook.matchOrders, hloop]
  cases iocId with
  | none => exact ⟨s₁, rfl, by simp⟩
  | some ioc =>
    obtain ⟨s', L', hret, hw', hv', -⟩ := cancelOrder_simulates h ioc
    refine ⟨s', ?_, fun id => ?_⟩
    · dsimp only
      rw [hret, Outcome.ret_bind]
    · rw [← hasOrder_view hw', ← hasOrder_view h, hv', Book.hasOrder, Book.hasOrder,
        find?_cancel (distinct_view h)]
      split_ifs with he
      · simp [he]
      · simp [Ne.symm he]

/-- Matching ends from every state with the invariant. -/
theorem ends (aggressorSide : Side) (iocId : Option OrderId) (h : Wf s [] noHoles L) :
    ∃ ts s₁ s', Ends aggressorSide iocId s ts s₁ s' := by
  obtain ⟨k, ts, s₁, hpasses, hdone⟩ := exists_passes aggressorSide h
  obtain ⟨L₁, hw₁, hsteps, hk⟩ := hpasses.simulates h
  obtain ⟨hretires, htrades⟩ := retires_of_steps h hw₁ hsteps
  have hadd := hretires.length_add
  have hsize := h.size_le
  rw [← h.size_eq] at hsize
  have hfuel : ∀ fuel, s.size < fuel →
      Orderbook.matchLoop aggressorSide fuel s = some (ts, s₁) := fun fuel hlt =>
    hpasses.matchLoop_eq hdone (by omega) (by omega)
  obtain ⟨s', hret, hcancel⟩ := matchOrders_of_loop hw₁ (hfuel (n + 1) (by omega)) iocId
  exact ⟨ts, s₁, s', ⟨k, hpasses, hpasses.levelCount_le h⟩, hdone, hfuel, hretires, htrades, hret,
    hcancel⟩

/-- From every state with the representation invariant the matching loops end
for either side. Each pass of the inner loop has one trade and retires an order,
each pass of the outer loop erases a level, and the trades are not more than the
filled orders. The first phase of FillOrKill ends with live opposing orders, each
once, before and after its order has got a slot. -/
theorem matching_terminates (h : Wf s [] noHoles L) (aggressorSide : Side)
    (iocId : Option OrderId) :
    (∀ k ts s₁ bidPrice askPrice, Passes aggressorSide s k ts s₁ →
      Crossed s₁ bidPrice askPrice → Progresses aggressorSide bidPrice askPrice s₁) ∧
    (∃ ts s₁ s', Ends aggressorSide iocId s ts s₁ s') ∧
    CollectsPlans s ∧
    ∀ idx s', s.alloc = .ret idx s' → ∀ id side price type qty,
      CollectsPlans (s'.writeOrder idx id side price type qty) := by
  refine ⟨?_, ends aggressorSide iocId h, collectsPlans h, ?_⟩
  · intro k ts s₁ bidPrice askPrice hpasses hc
    obtain ⟨L₁, hw₁, -, -⟩ := hpasses.simulates h
    exact progresses aggressorSide hw₁ hc
  · intro idx s' halloc id side price type qty
    exact collectsPlans_written h halloc id side price type qty

/-- A resting market sell is crossed by a bid that has been reduced to nothing,
once the market buy that stopped their match is cancelled. -/
def crossedBook : List Call :=
  [.addOrder .goodTillCancel 1 .sell 100 5, .addOrder .market 2 .buy 0 10,
    .addOrder .market 3 .sell 0 8, .addOrder .goodTillCancel 4 .buy 95 3, .cancelOrder 2,
    .modifyOrder ⟨4, .buy, 95, 0⟩]

/-- Both loops end in a crossed book. -/
theorem matching_terminates_crossedBook :
    Crossed (after (create 4) crossedBook) 95 Int32.minValue ∧
    (∀ k ts s₁ bidPrice askPrice, Passes .sell (after (create 4) crossedBook) k ts s₁ →
      Crossed s₁ bidPrice askPrice → Progresses .sell bidPrice askPrice s₁) ∧
    (∃ ts s₁ s', Ends .sell none (after (create 4) crossedBook) ts s₁ s') ∧
    CollectsPlans (after (create 4) crossedBook) ∧
    ∀ idx s', (after (create 4) crossedBook).alloc = .ret idx s' → ∀ id side price type qty,
      CollectsPlans (s'.writeOrder idx id side price type qty) := by
  obtain ⟨e, ⟨L, hw, -⟩, -, -⟩ := reachable_represents (s := after (create 4) crossedBook) ⟨_, rfl⟩
  have hbid : ((after (create 4) crossedBook).bids.first?.map Prod.fst) = some 95 := by
    decide +kernel
  have hask : ((after (create 4) crossedBook).asks.first?.map Prod.fst) = some Int32.minValue := by
    decide +kernel
  obtain ⟨⟨_, bid⟩, hb, rfl⟩ := Option.map_eq_some_iff.mp hbid
  obtain ⟨⟨_, ask⟩, ha, rfl⟩ := Option.map_eq_some_iff.mp hask
  exact ⟨⟨⟨bid, hb⟩, ⟨ask, ha⟩, by decide, by decide⟩, matching_terminates hw .sell none⟩

end Progress

end OrderbookEngine.MatchProgress
