import Mathlib.Algebra.Order.BigOperators.Group.List
import Mathlib.Algebra.Order.Group.Nat
import OrderbookEngine.Crossing
import OrderbookEngine.Snapshots

/-!
# The depth of a snapshot

A snapshot adds its levels one by one, with synthetic identifiers that refused
levels use up as well. If the levels that pass the checks do not cross and fit
into the pool, no addition trades, and the book holds those levels alone, in the
order of the message.
-/

namespace OrderbookEngine.SnapshotDepth

open MarketTypes PoolBook FeedCalls ReferenceBook ReferenceSteps CancelSimulation EngineSimulation
open RunRules Refinement BookState Additions Failures Crossing BulkCancels Snapshots

variable {n : ℕ} {s s' : Orderbook n} {e : RefEngine} {rules : ExchangeRules}

/-- A level with a quantity that passes every check but that of the identifier. -/
def kept (rules : ExchangeRules) (level : SnapshotLevel) : Bool :=
  level.quantity != 0 && meetsRules rules level.price level.quantity

/-- The levels of one side of a message. -/
def levelsOf (msg : BookSnapshotMessage) : Side → List SnapshotLevel
  | .buy => msg.bids
  | .sell => msg.asks

/-- Levels with the synthetic identifiers they take; a level of quantity zero
takes none. -/
def numbered : List SnapshotLevel → OrderId → List (OrderId × SnapshotLevel)
  | [], _ => []
  | level :: rest, id =>
    if level.quantity = 0 then numbered rest id else (id, level) :: numbered rest (id + 1)

/-- The identifier after those of a list of levels. -/
def nextId : List SnapshotLevel → OrderId → OrderId
  | [], id => id
  | level :: rest, id => if level.quantity = 0 then nextId rest id else nextId rest (id + 1)

/-- The first identifier of a side; asks follow bids. -/
def firstId (msg : BookSnapshotMessage) : Side → OrderId
  | .buy => firstSyntheticId
  | .sell => nextId msg.bids firstSyntheticId

/-- The kept levels with their identifiers, in the order of the message. -/
def keptLevels (rules : ExchangeRules) (levels : List SnapshotLevel) (id : OrderId) :
    List (OrderId × SnapshotLevel) :=
  (numbered levels id).filter fun r => kept rules r.2

/-- The order that a numbered level becomes. -/
def orderOf (r : OrderId × SnapshotLevel) : Resting := ⟨r.1, .goodTillCancel, r.2.quantity⟩

/-- Exact quantity of the kept levels at a price. -/
def keptTotal (rules : ExchangeRules) (levels : List SnapshotLevel) (price : Price) : ℕ :=
  ((levels.filter fun level => kept rules level && level.price == price).map
    fun level => level.quantity.toNat).sum

/-- Reported levels: the distinct prices of the kept levels, best first, each
with their exact quantity. -/
structure Depicts (rules : ExchangeRules) (side : Side) (levels : List SnapshotLevel)
    (infos : List LevelInfo) : Prop where
  /-- Levels come best first, each price once. -/
  sorted : infos.Pairwise fun a b => side.before a.price b.price
  /-- Reported are the prices of kept levels, with exact totals. -/
  exact : ∀ price q, (∃ info ∈ infos, info.price = price ∧ info.quantity.toNat = q) ↔
    (∃ level ∈ levels, kept rules level = true ∧ level.price = price) ∧
      keptTotal rules levels price = q

/-- The book holds the kept levels of a message and nothing else. -/
structure Reproduced (rules : ExchangeRules) (msg : BookSnapshotMessage) (s' : Orderbook n) :
    Prop where
  /-- Every level lists its kept quantities in the sequence of the message. -/
  listings : ∀ side price, listing s' side price =
    ((keptLevels rules (levelsOf msg side) (firstId msg side)).filter
      fun r => r.2.price = price).map orderOf
  /-- The depth of the bids. -/
  bids : Depicts rules .buy msg.bids s'.getOrderInfos.bids
  /-- The depth of the asks. -/
  asks : Depicts rules .sell msg.asks s'.getOrderInfos.asks
  /-- Every kept level is one order. -/
  size : s'.size =
    (msg.bids.filter (kept rules)).length + (msg.asks.filter (kept rules)).length

section Numbering

variable {levels : List SnapshotLevel} {id : OrderId}

/-- A kept level has a quantity. -/
theorem kept_ne_zero {level : SnapshotLevel} (h : kept rules level = true) :
    level.quantity ≠ 0 := by
  intro hz
  simp [kept, hz] at h

/-- A level of quantity zero takes no identifier. -/
theorem keptLevels_cons_zero {level : SnapshotLevel} (hz : level.quantity = 0)
    (rules : ExchangeRules) (rest : List SnapshotLevel) (id : OrderId) :
    keptLevels rules (level :: rest) id = keptLevels rules rest id := by
  rw [keptLevels, numbered, if_pos hz, keptLevels]

/-- Any other level takes one, kept or not. -/
theorem keptLevels_cons {level : SnapshotLevel} (hz : level.quantity ≠ 0)
    (rules : ExchangeRules) (rest : List SnapshotLevel) (id : OrderId) :
    keptLevels rules (level :: rest) id =
      if kept rules level = true then (id, level) :: keptLevels rules rest (id + 1)
      else keptLevels rules rest (id + 1) := by
  rw [keptLevels, numbered, if_neg hz, List.filter_cons]
  rfl

/-- Numbering keeps every level that has a quantity. -/
theorem map_keptLevels (rules : ExchangeRules) (levels : List SnapshotLevel) (id : OrderId) :
    (keptLevels rules levels id).map Prod.snd = levels.filter (kept rules) := by
  induction levels generalizing id with
  | nil => rfl
  | cons level rest ih =>
    by_cases hz : level.quantity = 0
    · have hdrop : ¬kept rules level = true := fun hk => kept_ne_zero hk hz
      rw [keptLevels_cons_zero hz, ih, List.filter_cons_of_neg hdrop]
    · rw [keptLevels_cons hz, List.filter_cons]
      split_ifs with hk
      · rw [List.map_cons, ih]
      · exact ih (id + 1)

/-- The synthetic identifier with a given number. -/
def syntheticId (k : ℕ) : OrderId := firstSyntheticId + UInt64.ofNat k

/-- Synthetic identifiers count up. -/
theorem syntheticId_succ (k : ℕ) : syntheticId k + 1 = syntheticId (k + 1) := by
  rw [syntheticId, syntheticId, UInt64.ofNat_add, UInt64.add_assoc]
  rfl

/-- Synthetic identifiers do not repeat below 2^64. -/
theorem syntheticId_inj {j k : ℕ} (hj : j < 2 ^ 64) (hk : k < 2 ^ 64)
    (h : syntheticId j = syntheticId k) : j = k := by
  have hof : UInt64.ofNat j = UInt64.ofNat k := by
    simpa [syntheticId] using h
  have hnat := congrArg UInt64.toNat hof
  rw [UInt64.toNat_ofNat', UInt64.toNat_ofNat'] at hnat
  rwa [Nat.mod_eq_of_lt hj, Nat.mod_eq_of_lt hk] at hnat

/-- The identifiers of a side are numbered on from its first one. -/
theorem nextId_eq (levels : List SnapshotLevel) (m : ℕ) :
    ∃ m', nextId levels (syntheticId m) = syntheticId m' ∧ m ≤ m' ∧ m' ≤ m + levels.length ∧
      ∀ r ∈ numbered levels (syntheticId m), ∃ k, m ≤ k ∧ k < m' ∧ r.1 = syntheticId k := by
  induction levels generalizing m with
  | nil => exact ⟨m, rfl, Nat.le_refl m, Nat.le_refl m, fun r hr => by cases hr⟩
  | cons level rest ih =>
    rw [nextId, numbered]
    split_ifs with hz
    · obtain ⟨m', hid, hge, hle, hmem⟩ := ih m
      exact ⟨m', hid, hge, by rw [List.length_cons]; omega, hmem⟩
    · rw [syntheticId_succ]
      obtain ⟨m', hid, hge, hle, hmem⟩ := ih (m + 1)
      refine ⟨m', hid, by omega, by rw [List.length_cons]; omega, fun r hr => ?_⟩
      rcases List.mem_cons.mp hr with rfl | hr
      · exact ⟨m, Nat.le_refl m, by omega, rfl⟩
      · obtain ⟨k, hmk, hkm, hk⟩ := hmem r hr
        exact ⟨k, by omega, hkm, hk⟩

end Numbering

section Stacking

/-- Put numbered levels into a book one after the other. -/
def stack (b : Book) (side : Side) (rs : List (OrderId × SnapshotLevel)) : Book :=
  rs.foldl (fun b r => b.append side r.2.price (orderOf r)) b

/-- The queues after levels have been stacked on a side. -/
theorem queue_stack (b : Book) (side side' : Side) (rs : List (OrderId × SnapshotLevel))
    (price : Price) : (stack b side rs).queue side' price =
      if side' = side then
        b.queue side price ++ (rs.filter fun r => r.2.price = price).map orderOf
      else b.queue side' price := by
  induction rs generalizing b with
  | nil =>
    split_ifs with hs
    · rw [hs, stack, List.foldl_nil, List.filter_nil, List.map_nil, List.append_nil]
    · rfl
  | cons r rs ih =>
    have hstack : stack b side (r :: rs) = stack (b.append side r.2.price (orderOf r)) side rs :=
      rfl
    rw [hstack, ih]
    split_ifs with hs
    · rw [Book.append, BookOf.queue_setQueue, List.filter_cons]
      by_cases hp : r.2.price = price
      · simp [hp]
      · rw [if_neg (fun h => hp h.2.symm), if_neg (by simpa using hp)]
    · rw [Book.append, BookOf.queue_setQueue, if_neg fun h => hs h.1]

/-- Every stacked level is one order. -/
theorem size_stack (b : Book) (side : Side) (rs : List (OrderId × SnapshotLevel)) :
    (stack b side rs).size = b.size + rs.length := by
  induction rs generalizing b with
  | nil => rfl
  | cons r rs ih =>
    have hstack : stack b side (r :: rs) = stack (b.append side r.2.price (orderOf r)) side rs :=
      rfl
    have happend := BookOf.size_setQueue b side r.2.price
      (b.queue side r.2.price ++ [orderOf r])
    rw [List.length_append, List.length_singleton] at happend
    rw [hstack, ih, Book.append, List.length_cons]
    omega

end Stacking

section Levels

variable {m : ℕ} {side : Side} {level : SnapshotLevel} {rest levels : List SnapshotLevel}

/-- The levels still to be added have unused identifiers, fit into the pool and
do not cross the other side. -/
structure Stackable (e : RefEngine) (m : ℕ) (side : Side) (levels : List SnapshotLevel) :
    Prop where
  /-- Only synthetic identifiers below the next one are in use. -/
  ids : ∀ side price, ∀ o ∈ e.book.queue side price, ∃ k < m, o.orderId = syntheticId k
  /-- There are enough of them. -/
  fresh : m + levels.length ≤ 2 ^ 64
  /-- There is a slot for every kept level. -/
  room : e.book.size + (levels.filter (kept e.rules)).length ≤ e.capacity
  /-- Nothing has crossed so far. -/
  uncrossed : UncrossedBook e.book
  /-- No level to come crosses. -/
  apart : ∀ level ∈ levels, kept e.rules level = true →
    ∀ price, e.book.queue side.opposite price ≠ [] → ¬side.crosses level.price price

/-- The next synthetic identifier is not in use. -/
theorem Stackable.unused (h : Stackable e m side (level :: rest)) :
    e.book.find? (syntheticId m) = none := by
  rw [find?_eq_none_iff]
  intro side price o ho hid
  obtain ⟨k, hk, hok⟩ := h.ids side price o ho
  have hfresh := h.fresh
  rw [List.length_cons] at hfresh
  have := syntheticId_inj (by omega) (by omega) (hok.symm.trans hid)
  omega

/-- The checks on a level with a quantity are those that keep it. -/
theorem Stackable.validateOrder_eq (h : Stackable e m side (level :: rest))
    (hz : level.quantity ≠ 0) :
    e.validateOrder (syntheticId m) level.price level.quantity = kept e.rules level := by
  have hpos : (level.quantity != 0) = true := bne_iff_ne.mpr hz
  rw [RefEngine.validateOrder, Book.hasOrder, h.unused, kept, hpos, Bool.true_and]
  rfl

/-- A level that is not kept may be skipped. -/
theorem Stackable.skip (h : Stackable e m side (level :: rest))
    (hk : ¬kept e.rules level = true) {m' : ℕ} (hm : m ≤ m') (hm' : m' ≤ m + 1) :
    Stackable e m' side rest where
  ids := fun side price o ho => by
    obtain ⟨k, hkm, hid⟩ := h.ids side price o ho
    exact ⟨k, by omega, hid⟩
  fresh := by
    have hfresh := h.fresh
    rw [List.length_cons] at hfresh
    omega
  room := by
    have hroom := h.room
    rwa [List.filter_cons_of_neg hk] at hroom
  uncrossed := h.uncrossed
  apart := fun l hl => h.apart l (List.mem_cons_of_mem _ hl)

/-- An order that crosses no opposing one leaves the book uncrossed. -/
theorem uncrossed_append {b : Book} (h : UncrossedBook b) {price : Price} {o : Resting}
    (hapart : ∀ p, b.queue side.opposite p ≠ [] → ¬side.crosses price p) :
    UncrossedBook (b.append side price o) := by
  intro bid ask hbid hask
  rw [Book.append, BookOf.queue_setQueue] at hbid hask
  cases side with
  | buy =>
    rw [if_neg (by simp)] at hask
    split_ifs at hbid with he
    · refine Or.inl ?_
      have hnot := hapart ask hask
      simp only [Side.crosses] at hnot
      rw [he.2]
      grind
    · exact h bid ask hbid hask
  | sell =>
    rw [if_neg (by simp)] at hbid
    split_ifs at hask with he
    · refine Or.inl ?_
      have hnot := hapart bid hbid
      simp only [Side.crosses] at hnot
      rw [he.2]
      grind
    · exact h bid ask hbid hask

/-- Matching an uncrossed book does nothing. -/
theorem matchBook_uncrossed {b : Book} (h : UncrossedBook b) (aggressorSide : Side) :
    b.matchBook aggressorSide = ([], b) := by
  refine matchBook_eq (.refl b) (matchStep_eq_none_iff.mpr ?_)
  intro bidPrice bid bids askPrice ask asks hb ha
  refine h bidPrice askPrice ?_ ?_
  · rw [BookOf.queue_of_best? hb]
    simp
  · rw [BookOf.queue_of_best? ha]
    simp

/-- A kept level may be appended. -/
theorem Stackable.append (h : Stackable e m side (level :: rest))
    (hk : kept e.rules level = true) :
    Stackable { e with
      book := e.book.append side level.price (orderOf (syntheticId m, level)) } (m + 1) side
      rest where
  ids := fun side' price o ho => by
    rw [Book.append, BookOf.queue_setQueue] at ho
    split_ifs at ho with he
    · rcases List.mem_append.mp ho with ho | ho
      · obtain ⟨k, hkm, hid⟩ := h.ids _ _ o ho
        exact ⟨k, by omega, hid⟩
      · rw [List.mem_singleton.mp ho]
        exact ⟨m, by omega, rfl⟩
    · obtain ⟨k, hkm, hid⟩ := h.ids _ _ o ho
      exact ⟨k, by omega, hid⟩
  fresh := by
    have hfresh := h.fresh
    rw [List.length_cons] at hfresh
    omega
  room := by
    have hroom := h.room
    have hsize := BookOf.size_setQueue e.book side level.price
      (e.book.queue side level.price ++ [orderOf (syntheticId m, level)])
    rw [List.filter_cons_of_pos hk, List.length_cons] at hroom
    rw [List.length_append, List.length_singleton, ← Book.append] at hsize
    dsimp only
    omega
  uncrossed := uncrossed_append h.uncrossed (h.apart level List.mem_cons_self hk)
  apart := fun l hl hkl price hne => by
    rw [Book.append, BookOf.queue_setQueue, if_neg fun he => side.opposite_ne he.1] at hne
    exact h.apart l (List.mem_cons_of_mem _ hl) hkl price hne

/-- The addition of a level never trades: a kept level is appended, any other is
refused. -/
theorem Stackable.addOrder (h : Stackable e m side (level :: rest)) (hz : level.quantity ≠ 0) :
    e.addOrder .goodTillCancel (syntheticId m) side level.price level.quantity =
      .ret [] (if kept e.rules level = true then
        { e with book := e.book.append side level.price (orderOf (syntheticId m, level)) }
        else e) := by
  have hvalid := h.validateOrder_eq hz
  rw [RefEngine.addOrder, RefEngine.convertMarket, if_neg (by simp)]
  dsimp only
  rw [hvalid]
  by_cases hk : kept e.rules level = true
  · have hroom := h.room
    rw [List.filter_cons_of_pos hk, List.length_cons] at hroom
    rw [if_neg (not_not.mpr hk), RefEngine.addValidated, if_neg (by simp), if_neg (by omega),
      if_neg (by simp), if_pos hk]
    have hbook := matchBook_uncrossed (uncrossed_append (o := orderOf (syntheticId m, level))
      h.uncrossed (h.apart level List.mem_cons_self hk)) side
    rw [orderOf] at hbook ⊢
    rw [hbook]
    dsimp only
    rw [if_neg (by simp)]
  · rw [if_pos hk, if_neg hk]

/-- Adding the levels of a side stacks the kept ones, without any trade. -/
theorem levels_stacked (h : Represents s e) (hs : Stackable e m side levels) :
    ∃ s', FeedCalls.addSnapshotLevels side levels (syntheticId m) s =
        .ret (nextId levels (syntheticId m)) s' ∧
      (levelAdditions side levels (syntheticId m) s).2 = (nextId levels (syntheticId m), s') ∧
      (∀ a ∈ (levelAdditions side levels (syntheticId m) s).1, ∃ s'', a.outcome = .ret [] s'') ∧
      Represents s' { e with
        book := stack e.book side (keptLevels e.rules levels (syntheticId m)) } := by
  induction levels generalizing s e m with
  | nil =>
    refine ⟨s, rfl, rfl, ?_, h⟩
    intro a ha
    cases ha
  | cons level rest ih =>
    rw [FeedCalls.addSnapshotLevels, levelAdditions, nextId]
    by_cases hz : level.quantity = 0
    · rw [if_pos hz, if_pos hz, if_pos hz, keptLevels_cons_zero hz]
      exact ih h (hs.skip (fun hk => kept_ne_zero hk hz) (Nat.le_refl m) (Nat.le_succ m))
    · have hadd := addOrder_simulates h .goodTillCancel (syntheticId m) side level.price
        level.quantity
      rw [hs.addOrder hz] at hadd
      rw [if_neg hz, if_neg hz, if_neg hz, keptLevels_cons hz, syntheticId_succ]
      obtain ⟨s₁, hout, hrep₁, -⟩ := hadd.eq_ret
      dsimp only [Addition.outcome]
      rw [hout]
      have hnext : ∃ s', FeedCalls.addSnapshotLevels side rest (syntheticId (m + 1)) s₁ =
          .ret (nextId rest (syntheticId (m + 1))) s' ∧
        (levelAdditions side rest (syntheticId (m + 1)) s₁).2 =
          (nextId rest (syntheticId (m + 1)), s') ∧
        (∀ a ∈ (levelAdditions side rest (syntheticId (m + 1)) s₁).1,
          ∃ s'', a.outcome = .ret [] s'') ∧
        Represents s' { e with
          book := stack e.book side
            (if kept e.rules level = true then
              (syntheticId m, level) :: keptLevels e.rules rest (syntheticId (m + 1))
            else keptLevels e.rules rest (syntheticId (m + 1))) } := by
        split_ifs at hrep₁ ⊢ with hk
        · exact ih hrep₁ (hs.append hk)
        · exact ih hrep₁ (hs.skip hk (Nat.le_succ m) (Nat.le_refl _))
      obtain ⟨s', hret, hlast, hsilent, hrep'⟩ := hnext
      refine ⟨s', hret, hlast, fun a ha => ?_, hrep'⟩
      rcases List.mem_cons.mp ha with rfl | ha
      · exact ⟨s₁, hout⟩
      · exact hsilent a ha

end Levels

section Depth

variable {levels : List SnapshotLevel} {id : OrderId} {price : Price}

/-- The scan of all live orders sums the FIFO list. -/
theorem scanTotal_listing (h : Represents s e) (side : Side) (price : Price) :
    scanTotal s side price = ((listing s side price).map fun o => o.quantity.toNat).sum := by
  obtain ⟨⟨L, hw, -⟩, -, -⟩ := h
  rw [scanTotal_eq hw, listing, fifo_eq hw, List.map_map]
  rfl

/-- Kept levels at a price, with and without their identifiers. -/
theorem map_keptLevels_filter (rules : ExchangeRules) (levels : List SnapshotLevel)
    (id : OrderId) (price : Price) :
    ((keptLevels rules levels id).filter fun r => r.2.price = price).map Prod.snd =
      levels.filter fun level => kept rules level && level.price == price := by
  have hfilter := List.filter_map (f := Prod.snd) (l := keptLevels rules levels id)
    (p := fun level : SnapshotLevel => decide (level.price = price))
  rw [map_keptLevels, List.filter_filter] at hfilter
  have hcomp : ((fun level : SnapshotLevel => decide (level.price = price)) ∘ Prod.snd) =
      fun r : OrderId × SnapshotLevel => decide (r.2.price = price) := rfl
  rw [hcomp] at hfilter
  rw [← hfilter]
  refine List.filter_congr fun level _ => ?_
  rw [Bool.and_comm, beq_eq_decide]

/-- The orders at a price sum to the total of the kept levels. -/
theorem sum_orders (rules : ExchangeRules) (levels : List SnapshotLevel) (id : OrderId)
    (price : Price) :
    ((((keptLevels rules levels id).filter fun r => r.2.price = price).map orderOf).map
      fun o => o.quantity.toNat).sum = keptTotal rules levels price := by
  rw [keptTotal, ← map_keptLevels_filter rules levels id price, List.map_map, List.map_map]
  rfl

/-- A price has orders if a kept level names it. -/
theorem orders_ne_nil_iff : ((keptLevels rules levels id).filter fun r => r.2.price = price) ≠ [] ↔
    ∃ level ∈ levels, kept rules level = true ∧ level.price = price := by
  rw [ne_eq, ← List.map_eq_nil_iff (f := Prod.snd), map_keptLevels_filter,
    List.filter_eq_nil_iff]
  simp

/-- Some kept level at a price has a positive total. -/
theorem keptTotal_pos (h : ∃ level ∈ levels, kept rules level = true ∧ level.price = price) :
    0 < keptTotal rules levels price := by
  obtain ⟨level, hmem, hk, hp⟩ := h
  rw [keptTotal, List.sum_pos_iff_exists_pos_nat]
  refine ⟨level.quantity.toNat, List.mem_map_of_mem (List.mem_filter.mpr ⟨hmem, ?_⟩), ?_⟩
  · simp [hk, hp]
  · have hz := kept_ne_zero hk
    rw [ne_eq, eq_zero_iff_toNat] at hz
    omega

/-- Kept levels at a price hold no more than all levels. -/
theorem keptTotal_le (rules : ExchangeRules) (levels : List SnapshotLevel) (price : Price) :
    keptTotal rules levels price ≤ (levels.map fun level => level.quantity.toNat).sum := by
  rw [keptTotal]
  exact (List.filter_sublist.map _).sum_le_sum fun _ _ => Nat.zero_le _

/-- A side that lists the kept levels reports them. -/
theorem depicts_of_listing (h : Represents s e) (side : Side)
    (hlist : ∀ price, listing s side price =
      ((keptLevels rules levels id).filter fun r => r.2.price = price).map orderOf)
    (hsum : ∀ price, keptTotal rules levels price < 2 ^ 32) :
    Depicts rules side levels (Orderbook.levelInfos (s.levels side).entries) := by
  have hrests : ∀ price, RestsAt s side price ↔
      ∃ level ∈ levels, kept rules level = true ∧ level.price = price := by
    intro price
    rw [restsAt_represents h, ← listing_eq h, hlist, ne_eq, List.map_eq_nil_iff]
    exact orders_ne_nil_iff
  have htotal : ∀ price, scanTotal s side price = keptTotal rules levels price := by
    intro price
    rw [scanTotal_listing h, hlist, sum_orders]
  have htrue : TrueDepth s side (Orderbook.levelInfos (s.levels side).entries) := by
    obtain ⟨⟨L, hw, -⟩, -, -⟩ := h
    refine (trueDepth_iff hw side).mpr fun price hr => ?_
    rw [htotal]
    exact ⟨keptTotal_pos ((hrests price).mp hr), hsum price⟩
  refine ⟨htrue.sorted, fun price q => ?_⟩
  rw [htrue.exact, hrests, htotal]

end Depth

/-- A std::vector holds fewer than 2^63 elements. -/
def Storable (msg : BookSnapshotMessage) : Prop :=
  ∀ side, (levelsOf msg side).length < 2 ^ 63

/-- Every kept bid is below every kept ask. -/
def Apart (rules : ExchangeRules) (msg : BookSnapshotMessage) : Prop :=
  ∀ bid ∈ msg.bids, ∀ ask ∈ msg.asks, kept rules bid = true → kept rules ask = true →
    bid.price < ask.price

/-- Number of kept levels of both sides. -/
def keptCount (rules : ExchangeRules) (msg : BookSnapshotMessage) : ℕ :=
  (msg.bids.filter (kept rules)).length + (msg.asks.filter (kept rules)).length

section Reproduction

variable {msg : BookSnapshotMessage}

/-- At first the bids can be stacked. -/
theorem stackable_bids (hlen : Storable msg)
    (hroom : keptCount rules msg ≤ slotCount n) :
    Stackable ⟨BookOf.empty, rules, slotCount n⟩ 0 .buy msg.bids where
  ids := fun side price o ho => by
    rw [BookOf.queue_empty] at ho
    cases ho
  fresh := by
    have hbids : msg.bids.length < 2 ^ 63 := hlen .buy
    omega
  room := by
    have hzero : (BookOf.empty : Book).size = 0 := rfl
    rw [keptCount] at hroom
    dsimp only
    omega
  uncrossed := fun bid ask hbid => absurd (BookOf.queue_empty _ _) hbid
  apart := fun level _ _ price hne => absurd (BookOf.queue_empty _ _) hne

/-- The asks still fit, and cross none of the bids that rest by then. -/
theorem stackable_asks {m : ℕ} (hlen : Storable msg) (hroom : keptCount rules msg ≤ slotCount n)
    (hapart : Apart rules msg) (hle : m ≤ msg.bids.length)
    (hmem : ∀ r ∈ numbered msg.bids (syntheticId 0), ∃ k, 0 ≤ k ∧ k < m ∧ r.1 = syntheticId k) :
    Stackable ⟨stack BookOf.empty .buy (keptLevels rules msg.bids (syntheticId 0)), rules,
      slotCount n⟩ m .sell msg.asks := by
  have hqueue : ∀ side price,
      (stack BookOf.empty .buy (keptLevels rules msg.bids (syntheticId 0))).queue side price =
        if side = .buy then
          ((keptLevels rules msg.bids (syntheticId 0)).filter fun r => r.2.price = price).map
            orderOf
        else [] := by
    intro side price
    rw [queue_stack, BookOf.queue_empty, BookOf.queue_empty, List.nil_append]
  exact
    { ids := fun side price o ho => by
        rw [hqueue] at ho
        split_ifs at ho
        · obtain ⟨r, hr, rfl⟩ := List.mem_map.mp ho
          obtain ⟨k, -, hk, hid⟩ := hmem r (List.mem_of_mem_filter (List.mem_of_mem_filter hr))
          exact ⟨k, hk, hid⟩
        · cases ho
      fresh := by
        have hbids : msg.bids.length < 2 ^ 63 := hlen .buy
        have hasks : msg.asks.length < 2 ^ 63 := hlen .sell
        omega
      room := by
        have hsize := size_stack BookOf.empty .buy (keptLevels rules msg.bids (syntheticId 0))
        have hkept := congrArg List.length (map_keptLevels rules msg.bids (syntheticId 0))
        have hzero : (BookOf.empty : Book).size = 0 := rfl
        rw [List.length_map] at hkept
        rw [keptCount] at hroom
        dsimp only
        omega
      uncrossed := fun bid ask _ hask => by
        rw [hqueue, if_neg (by simp)] at hask
        exact absurd rfl hask
      apart := fun ask hask hk price hne => by
        rw [Side.opposite, hqueue, if_pos rfl, ne_eq, List.map_eq_nil_iff] at hne
        obtain ⟨bid, hbid, hkb, rfl⟩ := orders_ne_nil_iff.mp hne
        have hlt := hapart bid hbid ask hask hkb hk
        simp only [Side.crosses]
        grind }

/-- A snapshot whose kept levels do not cross, fit into the pool and stay below
2^32 units at each price is reproduced level by level, without any trade. -/
theorem snapshot_reproduced (h : Reachable s) (msg : BookSnapshotMessage) (order : IterOrder)
    (hlen : Storable msg) (hapart : Apart s.exchangeRules msg)
    (hroom : keptCount s.exchangeRules msg ≤ slotCount n)
    (hsum : ∀ side price, keptTotal s.exchangeRules (levelsOf msg side) price < 2 ^ 32) :
    ∃ s', processSnapshot s msg order = .ret () s' ∧ Reproduced s.exchangeRules msg s' ∧
      ∀ a ∈ snapshotAdditions s msg order, ∃ s'', a.outcome = .ret [] s'' := by
  obtain ⟨e, ⟨L, hw, -⟩, hrules, hcap⟩ := reachable_represents h
  obtain ⟨s₁, L₁, hret₁, hw₁, hv₁, hset₁⟩ := cancelAll_simulates hw order
  have hrep₁ : Represents s₁ ⟨BookOf.empty, s.exchangeRules, slotCount n⟩ :=
    ⟨⟨L₁, hw₁, hv₁.symm⟩, (rules_of_settings hset₁).symm, rfl⟩
  obtain ⟨s₂, hret₂, hlast₂, hsilent₂, hrep₂⟩ :=
    levels_stacked hrep₁ (stackable_bids hlen hroom)
  obtain ⟨m, hid, -, hle, hmem⟩ := nextId_eq msg.bids 0
  rw [Nat.zero_add] at hle
  obtain ⟨s₃, hret₃, hlast₃, hsilent₃, hrep₃⟩ :=
    levels_stacked hrep₂ (stackable_asks hlen hroom hapart hle hmem)
  have hfirst : syntheticId 0 = firstSyntheticId := rfl
  rw [hfirst] at hret₂ hlast₂ hsilent₂ hid hrep₃
  rw [← hid] at hret₃ hsilent₃ hrep₃
  have hrep : Represents { s₃ with
      isInitialized := true
      lastSequenceNumber := msg.sequenceNumber
      stats := { s₃.stats with snapshots := s₃.stats.snapshots + 1 } } _ :=
    hrep₃.congr rfl rfl rfl rfl rfl rfl
  have hlist : ∀ side price, listing { s₃ with
      isInitialized := true
      lastSequenceNumber := msg.sequenceNumber
      stats := { s₃.stats with snapshots := s₃.stats.snapshots + 1 } } side price =
        ((keptLevels s.exchangeRules (levelsOf msg side) (firstId msg side)).filter
          fun r => r.2.price = price).map orderOf := by
    intro side price
    rw [listing_eq hrep]
    cases side <;> simp [queue_stack, levelsOf, firstId]
  refine ⟨_, ?_, ⟨hlist, ?_, ?_, ?_⟩, ?_⟩
  · rw [processSnapshot, hret₁, Outcome.ret_bind, hret₂, Outcome.ret_bind, hret₃,
      Outcome.ret_bind]
  · exact depicts_of_listing hrep .buy (hlist .buy) (hsum .buy)
  · exact depicts_of_listing hrep .sell (hlist .sell) (hsum .sell)
  · have hobs := congrArg Observation.size (observe_eq hrep)
    have hbids := congrArg List.length (map_keptLevels s.exchangeRules msg.bids firstSyntheticId)
    have hasks := congrArg List.length (map_keptLevels s.exchangeRules msg.asks
      (nextId msg.bids firstSyntheticId))
    rw [List.length_map] at hbids hasks
    refine hobs.trans ?_
    change (stack (stack BookOf.empty .buy _) .sell _).size = _
    rw [size_stack, size_stack, hbids, hasks]
    exact congrArg (· + _) (Nat.zero_add _)
  · intro a ha
    rw [snapshotAdditions, hret₁] at ha
    dsimp only [leaves] at ha
    rw [hlast₂] at ha
    rcases List.mem_append.mp ha with ha | ha
    · exact hsilent₂ a ha
    · exact hsilent₃ a ha

/-- Two bids at one price, a bid that breaks the price rules, and an ask. -/
def fourLevels : BookSnapshotMessage := ⟨[⟨99, 5⟩, ⟨0, 3⟩, ⟨99, 2⟩], [⟨103, 1⟩], 9⟩

/-- A snapshot of four levels replaces three orders. -/
theorem snapshot_reproduced_fourLevels :
    ∃ s', processSnapshot (after (create 4) threeOrders) fourLevels inKeyOrder = .ret () s' ∧
      Reproduced (after (create 4) threeOrders).exchangeRules fourLevels s' ∧
      ∀ a ∈ snapshotAdditions (after (create 4) threeOrders) fourLevels inKeyOrder,
        ∃ s'', a.outcome = .ret [] s'' :=
  snapshot_reproduced ⟨_, rfl⟩ fourLevels inKeyOrder (fun side => by cases side <;> decide)
    (by unfold Apart; simp [fourLevels]) (by decide +kernel)
    (fun side price => Nat.lt_of_le_of_lt (keptTotal_le _ _ _) (by cases side <;> decide))

/-- One bid. -/
def oneBid : BookSnapshotMessage := ⟨[⟨100, 5⟩], [], 1⟩

/-- A huge pool has no free slot for a level that is within its capacity. -/
theorem hugePool_dropsLevel : Reachable (create hugePool) ∧ Storable oneBid ∧
    Apart (create hugePool).exchangeRules oneBid ∧
    keptCount (create hugePool).exchangeRules oneBid ≤ (create hugePool).poolCapacity ∧
    (∀ side price,
      keptTotal (create hugePool).exchangeRules (levelsOf oneBid side) price < 2 ^ 32) ∧
    ∀ s', processSnapshot (create hugePool) oneBid inKeyOrder = .ret () s' →
      ¬Reproduced (create hugePool).exchangeRules oneBid s' := by
  refine ⟨Reachable.create, fun side => by cases side <;> decide, ?_, ?_, fun side price => ?_,
    fun s' hret hrep => ?_⟩
  · intro bid _ ask hask
    cases hask
  · change 1 ≤ hugePool
    decide
  · exact Nat.lt_of_le_of_lt (keptTotal_le _ _ _) (by cases side <;> decide)
  · have hcreate := represents_create hugePool
    rw [show slotCount hugePool = 0 by decide] at hcreate
    obtain ⟨s₁, hret₁, hrep₁, -⟩ := processSnapshot_simulates hcreate oneBid inKeyOrder
    rw [hret] at hret₁
    cases hret₁
    have hsize := congrArg Observation.size (observe_eq hrep₁)
    have hnone : ((RefEngine.create 0).processSnapshot oneBid).book.size = 0 := by decide +kernel
    have hkept : (oneBid.bids.filter (kept (create hugePool).exchangeRules)).length +
        (oneBid.asks.filter (kept (create hugePool).exchangeRules)).length = 1 := by
      change (oneBid.bids.filter (kept {})).length + (oneBid.asks.filter (kept {})).length = 1
      decide
    have hone := hrep.size.trans hkept
    change s'.size = ((RefEngine.create 0).processSnapshot oneBid).book.size at hsize
    omega

end Reproduction

end OrderbookEngine.SnapshotDepth
