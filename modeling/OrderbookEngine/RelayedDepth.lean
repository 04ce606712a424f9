import OrderbookEngine.SnapshotDepth
import OrderbookEngine.PriceTimeSweep

/-!
# Relayed depth

The depth one engine reports can be handed to another one as a snapshot. If the
levels pass the rules there and fit into its pool, the other engine reports the
same depth, and relaying its own depth back changes nothing that can be seen.
-/

namespace OrderbookEngine.RelayedDepth

open MarketTypes PoolBook FeedCalls ReferenceBook EngineSimulation RunRules Refinement Additions
open Snapshots SnapshotDepth PriceTimeSweep

variable {n k m : ℕ} {s : Orderbook n} {t : Orderbook k} {e : RefEngine} {b : Book} {side : Side}
  {infos : List LevelInfo}

section Lists

/-- Lists in one strict order are equal if they have the same members. -/
theorem eq_of_pairwise_mem {α : Type*} {r : α → α → Prop} (hasymm : ∀ a b, r a b → ¬r b a)
    {xs ys : List α} (hx : xs.Pairwise r) (hy : ys.Pairwise r) (h : ∀ a, a ∈ xs ↔ a ∈ ys) :
    xs = ys := by
  have hnodup : ∀ {zs : List α}, zs.Pairwise r → zs.Nodup := fun hz =>
    hz.imp fun {a c} (hac : r a c) (heq : a = c) => hasymm a c hac (by rwa [heq] at hac ⊢)
  exact List.Perm.eq_of_pairwise (fun a c _ _ hac hca => absurd hca (hasymm a c hac)) hx hy
    ((List.perm_ext_iff_of_nodup (hnodup hx) (hnodup hy)).mpr h)

end Lists

section Depth

/-- Reported levels in price order, none of them empty. -/
structure Report (side : Side) (infos : List LevelInfo) : Prop where
  /-- Levels come best first, each price once. -/
  sorted : infos.Pairwise fun i j => side.before i.price j.price
  /-- No level is empty. -/
  pos : ∀ info ∈ infos, 0 < info.quantity

/-- The depth of a book is a report. -/
theorem report_depth (b : Book) (side : Side) : Report side (b.depth side) where
  sorted := by
    refine List.Pairwise.filterMap _ ?_ (b.side side).map.sorted
    intro entry entry' hlt info hinfo info' hinfo'
    dsimp only at hinfo hinfo'
    split_ifs at hinfo hinfo'
    cases hinfo
    cases hinfo'
    exact hlt
  pos := fun info h => ((b.mem_depth side info).mp h).1

/-- A report lists at most one level at a price. -/
theorem Report.filter_price (h : Report side infos) {info : LevelInfo} (hmem : info ∈ infos) :
    (infos.filter fun i => i.price = info.price) = [info] := by
  have hne : ∀ {p q : Price}, side.before p q → p ≠ q := fun hlt heq =>
    irrefl_of side.before _ (heq ▸ hlt)
  have hdistinct : (infos.map LevelInfo.price).Nodup := List.pairwise_map.mpr (h.sorted.imp hne)
  refine eq_of_pairwise_mem (r := fun i j => side.before i.price j.price) ?_
    (h.sorted.sublist List.filter_sublist) (List.pairwise_singleton _ _) fun i => ?_
  · exact fun i j hij hji => irrefl_of side.before _ (trans_of side.before hij hji)
  · rw [List.mem_filter, List.mem_singleton, decide_eq_true_eq]
    constructor
    · rintro ⟨hi, hprice⟩
      exact List.inj_on_of_nodup_map hdistinct hi hmem hprice
    · rintro rfl
      exact ⟨hmem, rfl⟩

/-- A book reports some levels if it holds their sums. -/
theorem depth_eq (h : Report side infos) (hqueue : ∀ price,
    (b.queue side price).map Resting.quantity =
      (infos.filter fun i => i.price = price).map LevelInfo.quantity) :
    b.depth side = infos := by
  refine eq_of_pairwise_mem ?_ (report_depth b side).sorted h.sorted fun info => ?_
  · intro i j hij hji
    exact absurd (trans_of side.before hij hji) (irrefl_of side.before _)
  · rw [Book.mem_depth, hqueue]
    constructor
    · rintro ⟨hpos, hsum⟩
      have hne : (infos.filter fun i => i.price = info.price) ≠ [] := by
        intro hnil
        rw [hnil] at hsum
        rw [← hsum] at hpos
        exact absurd hpos (by decide)
      obtain ⟨other, hother⟩ := List.exists_mem_of_ne_nil _ hne
      obtain ⟨hmem, hprice⟩ := List.mem_filter.mp hother
      have hprice' : other.price = info.price := by simpa using hprice
      rw [← hprice', h.filter_price hmem] at hsum
      have hquantity : other.quantity = info.quantity := by
        simpa [wrapSum] using hsum
      have heq : other = info := by
        cases other
        cases info
        simp_all
      exact heq ▸ hmem
    · intro hmem
      rw [h.filter_price hmem]
      exact ⟨h.pos info hmem, by simp [wrapSum]⟩

end Depth

section Stacked

/-- In the reference engine too, the kept levels of a side are stacked. -/
theorem addSnapshotLevels_stacked {levels : List SnapshotLevel} (h : Stackable e m side levels) :
    RefEngine.addSnapshotLevels side levels (syntheticId m) e =
      (nextId levels (syntheticId m), { e with
        book := stack e.book side (keptLevels e.rules levels (syntheticId m)) }) := by
  induction levels generalizing e m with
  | nil => rfl
  | cons level rest ih =>
    rw [RefEngine.addSnapshotLevels, nextId]
    by_cases hz : level.quantity = 0
    · rw [if_pos hz, if_pos hz, keptLevels_cons_zero hz]
      exact ih (h.skip (fun hk => kept_ne_zero hk hz) (Nat.le_refl m) (Nat.le_succ m))
    · rw [if_neg hz, if_neg hz, h.addOrder hz, leaves, keptLevels_cons hz, syntheticId_succ]
      split_ifs with hk
      · exact ih (h.append hk)
      · exact ih (h.skip hk (Nat.le_succ m) (Nat.le_refl _))

/-- The book of a snapshot whose kept levels neither cross nor exceed the pool. -/
theorem processSnapshot_stacked (h : Represents t e) {msg : BookSnapshotMessage}
    (hlen : Storable msg) (hapart : SnapshotDepth.Apart t.exchangeRules msg)
    (hroom : keptCount t.exchangeRules msg ≤ slotCount k) :
    (e.processSnapshot msg).book =
      stack (stack BookOf.empty .buy (keptLevels t.exchangeRules msg.bids firstSyntheticId)) .sell
        (keptLevels t.exchangeRules msg.asks (nextId msg.bids firstSyntheticId)) := by
  have hbids := stackable_bids (n := k) hlen hroom
  obtain ⟨m, hid, -, hle, hmem⟩ := nextId_eq msg.bids 0
  rw [Nat.zero_add] at hle
  have hasks := stackable_asks hlen hroom hapart hle hmem
  have hfirst : syntheticId 0 = firstSyntheticId := rfl
  have hempty : ({ e with book := BookOf.empty } : RefEngine) =
      ⟨BookOf.empty, t.exchangeRules, slotCount k⟩ := by
    rw [← h.rules, ← h.capacity]
  rw [RefEngine.processSnapshot, hempty, ← hfirst, addSnapshotLevels_stacked hbids, hid,
    addSnapshotLevels_stacked hasks]

end Stacked

section Messages

variable {rules : ExchangeRules}

/-- Reported levels as the levels of a snapshot. -/
def levelsFrom (infos : List LevelInfo) : List SnapshotLevel :=
  infos.map fun i => ⟨i.price, i.quantity⟩

/-- A depth report as a snapshot. -/
def reportMessage (infos : OrderbookLevelInfos) (sequenceNumber : UInt64) : BookSnapshotMessage :=
  ⟨levelsFrom infos.bids, levelsFrom infos.asks, sequenceNumber⟩

/-- Rules under which every reported level is kept. -/
def Admits (rules : ExchangeRules) (infos : List LevelInfo) : Prop :=
  ∀ info ∈ infos, meetsRules rules info.price info.quantity = true

instance (rules : ExchangeRules) (infos : List LevelInfo) : Decidable (Admits rules infos) :=
  inferInstanceAs (Decidable (∀ info ∈ infos, meetsRules rules info.price info.quantity = true))

/-- Levels that are admitted are kept. -/
theorem kept_of_admits (h : Report side infos) (hrules : Admits rules infos) :
    ∀ level ∈ levelsFrom infos, kept rules level = true := by
  intro level hlevel
  obtain ⟨info, hmem, rfl⟩ := List.mem_map.mp hlevel
  have hpos := h.pos info hmem
  rw [kept, hrules info hmem, Bool.and_true, bne_iff_ne]
  grind

/-- None of them is skipped. -/
theorem filter_kept (h : Report side infos) (hrules : Admits rules infos) :
    (levelsFrom infos).filter (kept rules) = levelsFrom infos :=
  List.filter_eq_self.mpr (kept_of_admits h hrules)

/-- Stacked levels of a report hold its quantities. -/
theorem quantities_stacked (h : Report side infos) (hrules : Admits rules infos) (id : OrderId)
    (price : Price) :
    ((((keptLevels rules (levelsFrom infos) id).filter fun r => r.2.price = price).map
      orderOf).map Resting.quantity) =
        (infos.filter fun i => i.price = price).map LevelInfo.quantity := by
  have hkept := map_keptLevels_filter rules (levelsFrom infos) id price
  have hquantity : ∀ rs : List (OrderId × SnapshotLevel),
      (rs.map orderOf).map Resting.quantity = (rs.map Prod.snd).map SnapshotLevel.quantity := by
    intro rs
    rw [List.map_map, List.map_map]
    rfl
  have hfilter : (levelsFrom infos).filter (fun level => kept rules level && level.price == price) =
      levelsFrom (infos.filter fun i => i.price = price) := by
    rw [List.filter_congr fun level hlevel => by
      rw [kept_of_admits h hrules level hlevel, Bool.true_and], levelsFrom, List.filter_map]
    rfl
  rw [hquantity, hkept, hfilter, levelsFrom, List.map_map]
  rfl

/-- A snapshot of a report is reported as it is. -/
theorem depth_stacked (h : Report side infos) (hrules : Admits rules infos) (id : OrderId)
    (hb : ∀ price, b.queue side price =
      ((keptLevels rules (levelsFrom infos) id).filter fun r => r.2.price = price).map orderOf) :
    b.depth side = infos :=
  depth_eq h fun price => by rw [hb, quantities_stacked h hrules]

end Messages

/-- A report of an engine whose bids are below its asks, handed as a snapshot to
an engine that admits its levels and has room for them, is reported there as it
is. Relaying that report once more changes nothing that can be seen. -/
theorem depth_relayed (h : Reachable s) (h' : Reachable t) (hapart : BestApart s)
    (hbids : Admits t.exchangeRules s.getOrderInfos.bids)
    (hasks : Admits t.exchangeRules s.getOrderInfos.asks)
    (hroom : s.getOrderInfos.bids.length + s.getOrderInfos.asks.length ≤ slotCount k)
    (number : UInt64) (order : IterOrder) :
    ∃ t', processSnapshot t (reportMessage s.getOrderInfos number) order = .ret () t' ∧
      t'.getOrderInfos = s.getOrderInfos ∧
      t'.size = s.getOrderInfos.bids.length + s.getOrderInfos.asks.length ∧
      ∀ number' order', ∃ t'',
        processSnapshot t' (reportMessage t'.getOrderInfos number') order' = .ret () t'' ∧
          Indistinguishable t' t'' := by
  obtain ⟨e, hrep⟩ := reachable_represents h
  obtain ⟨e', hrep'⟩ := reachable_represents h'
  have hinfos : s.getOrderInfos = ⟨e.book.depth .buy, e.book.depth .sell⟩ :=
    congrArg Observation.orderInfos (observe_eq hrep)
  have hbid : Report .buy s.getOrderInfos.bids := by rw [hinfos]; exact report_depth e.book .buy
  have hask : Report .sell s.getOrderInfos.asks := by rw [hinfos]; exact report_depth e.book .sell
  have hlen := slotCount_le_max k
  have hstorable : Storable (reportMessage s.getOrderInfos number) := by
    intro side
    cases side <;> simp only [levelsOf, reportMessage, levelsFrom, List.length_map] <;> omega
  have hcount : keptCount t.exchangeRules (reportMessage s.getOrderInfos number) =
      s.getOrderInfos.bids.length + s.getOrderInfos.asks.length := by
    rw [keptCount, reportMessage, filter_kept hbid hbids, filter_kept hask hasks]
    simp only [levelsFrom, List.length_map]
  have hlevels : SnapshotDepth.Apart t.exchangeRules (reportMessage s.getOrderInfos number) := by
    intro bid hb ask ha _ _
    obtain ⟨i, hi, rfl⟩ := List.mem_map.mp hb
    obtain ⟨j, hj, rfl⟩ := List.mem_map.mp ha
    rw [hinfos] at hi hj
    have hnot := (bestApart_iff hrep).mp hapart .buy i.price j.price
      (Book.queue_ne_nil_of_mem_depth hi) (Book.queue_ne_nil_of_mem_depth hj)
    simpa only [Side.crosses, Int32.not_le] using hnot
  obtain ⟨t', hret, hrept, -⟩ :=
    processSnapshot_simulates hrep' (reportMessage s.getOrderInfos number) order
  have hbook := processSnapshot_stacked hrep' hstorable hlevels (hcount.trans_le hroom)
  have hreport : t'.getOrderInfos = s.getOrderInfos := by
    have hobserved := congrArg Observation.orderInfos (observe_eq hrept)
    rw [observeRef, hbook] at hobserved
    refine hobserved.trans ?_
    dsimp only
    rw [depth_stacked hbid hbids firstSyntheticId fun price => ?_,
      depth_stacked hask hasks (nextId (levelsFrom s.getOrderInfos.bids) firstSyntheticId)
        fun price => ?_]
    · rw [queue_stack, if_pos rfl, queue_stack, if_neg (by simp), BookOf.queue_empty,
        List.nil_append]
      rfl
    · rw [queue_stack, if_neg (by simp), queue_stack, if_pos rfl, BookOf.queue_empty,
        List.nil_append]
      rfl
  refine ⟨t', hret, hreport, ?_, fun number' order' => ?_⟩
  · have hkept : ∀ levels id, (keptLevels t.exchangeRules levels id).length =
        (levels.filter (kept t.exchangeRules)).length := fun levels id => by
      rw [← map_keptLevels t.exchangeRules levels id, List.length_map]
    have hzero : (BookOf.empty : Book).size = 0 := rfl
    rw [hrept.size_eq, hbook, size_stack, size_stack, hkept, hkept, hzero, Nat.zero_add]
    exact hcount
  · obtain ⟨t'', hret', hrept', -⟩ :=
      processSnapshot_simulates hrept (reportMessage t'.getOrderInfos number') order'
    refine ⟨t'', hret', indistinguishable_of_represents hrept ?_⟩
    rw [hreport] at hrept'
    -- the book does not depend on the number of the message
    have hsame : (e'.processSnapshot (reportMessage s.getOrderInfos number)).processSnapshot
        (reportMessage s.getOrderInfos number') =
          e'.processSnapshot (reportMessage s.getOrderInfos number) := by
      obtain ⟨b, hb⟩ := processSnapshot_keeps e' (reportMessage s.getOrderInfos number)
      conv_lhs => rw [hb]
      exact processSnapshot_forgets e' b (reportMessage s.getOrderInfos number')
    rwa [hsame] at hrept'

/-- The depth of four orders is relayed to a smaller engine as three levels. -/
theorem depth_relayed_bidAndAsks : ∃ t', processSnapshot (create 3)
      (reportMessage (after (create 4) bidAndAsks).getOrderInfos 7) inKeyOrder = .ret () t' ∧
    t'.getOrderInfos = (after (create 4) bidAndAsks).getOrderInfos := by
  have hapart : BestApart (after (create 4) bidAndAsks) := by
    intro bid ask lvl lvl' hf hf'
    have hbid : (after (create 4) bidAndAsks).bids.first?.map Prod.fst = some 99 := by
      decide +kernel
    have hask : (after (create 4) bidAndAsks).asks.first?.map Prod.fst = some 100 := by
      decide +kernel
    rw [hf] at hbid
    rw [hf'] at hask
    cases hbid
    cases hask
    decide
  obtain ⟨t', hret, hreport, -⟩ := depth_relayed (t := create 3) ⟨_, rfl⟩ Reachable.create hapart
    (by decide +kernel) (by decide +kernel) (by decide +kernel) 7 inKeyOrder
  exact ⟨t', hret, hreport⟩

end OrderbookEngine.RelayedDepth
