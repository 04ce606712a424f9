import Mathlib.Data.List.NodupEquivFin
import OrderbookEngine.BookState

/-!
# A book is its orders, up to renaming of slots

Which slots hold the orders depends on the history of the free list. Two engines
that store the same book differ by a permutation of the pool only: it carries
the free list, the identifier map, the levels and the links of one to those of
the other.
-/

namespace OrderbookEngine.SlotRenaming

open SortedMap LinkedSlots MarketTypes PoolBook FeedCalls ReferenceBook LayoutInvariant SlotSteps
open EngineSimulation

variable {n : ℕ} {s s' : Orderbook n} {L L' : Layout n} {e : RefEngine}

/-- A level with its ends renamed. -/
def renameLevel (σ : Equiv.Perm (Fin n)) (lvl : PriceLevel n) : PriceLevel n :=
  { lvl with head := lvl.head.map σ, tail := lvl.tail.map σ }

/-- An order with its links renamed. -/
def renameOrder (σ : Equiv.Perm (Fin n)) (o : PoolOrder n) : PoolOrder n :=
  { o with prev := o.prev.map σ, next := o.next.map σ }

/-- The second state is the first one with its slots renamed. What a free slot
holds does not matter. -/
structure Renamed (σ : Equiv.Perm (Fin n)) (s s' : Orderbook n) : Prop where
  /-- The free list is renamed. -/
  free : s'.freeList = s.freeList.map σ
  /-- The identifiers lead to renamed slots. -/
  orderMap : s'.orderMap = s.orderMap.mapVal σ
  /-- Heads and tails of levels are renamed. -/
  levels : ∀ side, s'.levels side = (s.levels side).mapVal (renameLevel σ)
  /-- Live orders are moved to renamed slots, with renamed links. -/
  orders : ∀ id i, s.orderMap.find? id = some i → s'.pool (σ i) = renameOrder σ (s.pool i)
  /-- Rules, counters and position are the same. -/
  settings : settings s' = settings s

section Permutations

/-- Two lists of all elements, each once, differ by a permutation. -/
theorem exists_perm_map {α : Type*} [DecidableEq α] {xs ys : List α} (hx : xs.Nodup)
    (hy : ys.Nodup) (hx' : ∀ a, a ∈ xs) (hy' : ∀ a, a ∈ ys) (hlen : xs.length = ys.length) :
    ∃ σ : Equiv.Perm α, xs.map σ = ys := by
  refine ⟨(hx.getEquivOfForallMemList xs hx').symm.trans
    ((finCongr hlen).trans (hy.getEquivOfForallMemList ys hy')), ?_⟩
  refine List.ext_getElem (by rw [List.length_map, hlen]) fun k hk hk' => ?_
  have hkx : k < xs.length := by rwa [List.length_map] at hk
  have hindex : (hx.getEquivOfForallMemList xs hx').symm xs[k] = ⟨k, hkx⟩ := by
    rw [Equiv.symm_apply_eq]
    rfl
  rw [List.getElem_map, Equiv.trans_apply, hindex]
  rfl

/-- Lists of pairs with the same components. -/
theorem pairs_ext {α β : Type*} {xs ys : List (α × β)} (hfst : xs.map Prod.fst = ys.map Prod.fst)
    (hsnd : xs.map Prod.snd = ys.map Prod.snd) : xs = ys :=
  (List.zip_of_prod hfst hsnd).trans (List.zip_of_prod rfl rfl).symm

end Permutations

section Layouts

/-- The same book lists its orders at the same prices. -/
theorem prices_of_view (hview : view s L = view s' L') (side : Side) :
    (L.orders side).map Prod.fst = (L'.orders side).map Prod.fst := by
  have horders := congrArg (fun b : Book => (b.orders side).map Prod.fst) hview
  simp only [view, BookOf.orders_mapVal, List.map_map] at horders
  exact horders

/-- Some permutation of the pool carries the free list and the layout of one
engine to those of another engine with the same book. -/
theorem exists_layout_perm (h : Wf s [] noHoles L) (h' : Wf s' [] noHoles L')
    (hview : view s L = view s' L') :
    ∃ σ : Equiv.Perm (Fin n), s'.freeList = s.freeList.map σ ∧ L' = L.mapVal σ := by
  have hall : ∀ {t : Orderbook n} {M : Layout n}, Wf t [] noHoles M →
      (slots M ++ t.freeList ++ (List.finRange n).drop (slotCount n)).Perm (List.finRange n) := by
    intro t M hw
    have hperm := hw.slots_perm.append_right ((List.finRange n).drop (slotCount n))
    rwa [List.take_append_drop, List.nil_append] at hperm
  have hmem : ∀ {xs : List (Fin n)}, xs.Perm (List.finRange n) → ∀ i, i ∈ xs :=
    fun hp i => hp.mem_iff.mpr (List.mem_finRange i)
  obtain ⟨σ, hσ⟩ := exists_perm_map ((hall h).nodup_iff.mpr (List.nodup_finRange n))
    ((hall h').nodup_iff.mpr (List.nodup_finRange n)) (hmem (hall h)) (hmem (hall h'))
    ((hall h).length_eq.trans (hall h').length_eq.symm)
  have hlength : ∀ side, (L.orders side).length = (L'.orders side).length := fun side => by
    have hlen := congrArg List.length (prices_of_view hview side)
    rwa [List.length_map, List.length_map] at hlen
  -- the parts of the two lists have the same lengths
  have hsize : (slots L).length = (slots L').length := by
    rw [length_slots, length_slots, BookOf.size_eq, BookOf.size_eq, hlength, hlength]
  rw [List.map_append, List.map_append, List.append_assoc, List.append_assoc] at hσ
  obtain ⟨hslots, hrest⟩ := List.append_inj hσ (by rw [List.length_map, hsize])
  have hfree : s.freeList.length = s'.freeList.length := by
    have hadd := h.size_add
    have hadd' := h'.size_add
    rw [hview] at hadd
    omega
  obtain ⟨hfreeList, -⟩ := List.append_inj hrest (by rw [List.length_map, hfree])
  refine ⟨σ, hfreeList.symm, ?_⟩
  rw [slots, slots, List.map_append, List.map_append, List.map_append] at hslots
  obtain ⟨hbuy, hsell⟩ := List.append_inj hslots
    (by rw [List.length_map, List.length_map, List.length_map, hlength])
  have hside : ∀ side, (L'.orders side).map Prod.snd = ((L.orders side).map Prod.snd).map σ := by
    intro side
    cases side
    · exact hbuy.symm
    · exact hsell.symm
  have horders : ∀ side, L'.orders side = (L.mapVal σ).orders side := by
    intro side
    rw [BookOf.orders_mapVal]
    refine pairs_ext ?_ ?_
    · rw [← prices_of_view hview, List.map_map]
      rfl
    · rw [hside, List.map_map, List.map_map]
      rfl
  apply BookOf.ext_queue
  intro side price
  have hbuckets := Buckets.ext_toList (horders side)
  rw [BookOf.queue, hbuckets, BookOf.queue]

/-- A renamed layout holds the order of a slot under its new name. -/
theorem resting_rename {σ : Equiv.Perm (Fin n)} (hview : view s L = view s' (L.mapVal σ))
    {side : Side} {price : Price} {i : Fin n} (hi : i ∈ L.queue side price) :
    resting (s'.pool (σ i)) = resting (s.pool i) := by
  have hqueue := congrArg (fun b : Book => b.queue side price) hview
  simp only [queue_view, BookOf.queue_mapVal, List.map_map] at hqueue
  exact (List.map_inj_left.mp hqueue i hi).symm

end Layouts

section Renaming

variable {σ : Equiv.Perm (Fin n)}

/-- The level of a renamed layout is the level renamed. -/
theorem level_rename (h : Wf s [] noHoles L) (h' : Wf s' [] noHoles (L.mapVal σ))
    (hview : view s L = view s' (L.mapVal σ)) (side : Side) (price : Price) :
    s'.level side price = renameLevel σ (s.level side price) := by
  have hl := h.level side price
  have hl' := h'.level side price
  rw [BookOf.queue_mapVal] at hl'
  have hhead : (s'.level side price).head = (s.level side price).head.map σ := by
    have heq : (s.level side price).head = (L.queue side price).head? := hl.list.head_eq
    rw [heq, ← List.head?_map]
    exact hl'.list.head_eq
  have htail : (s'.level side price).tail = (s.level side price).tail.map σ := by
    have heq : (s.level side price).tail = (L.queue side price).getLast? := hl.list.tail_eq
    rw [heq, ← List.getLast?_map]
    exact hl'.list.tail_eq
  have htotal : (s'.level side price).totalQty = (s.level side price).totalQty := by
    rw [hl.total, hl'.total, List.map_map]
    congr 1
    refine List.map_congr_left fun i hi => ?_
    exact congrArg Resting.quantity (resting_rename hview hi)
  have hcount : (s'.level side price).orderCount = (s.level side price).orderCount := by
    rw [hl.count, hl'.count, List.length_map]
  cases hlvl : s'.level side price
  simp_all [renameLevel]

/-- The links of a renamed slot are its links renamed. -/
theorem links_rename (h : Wf s [] noHoles L) (h' : Wf s' [] noHoles (L.mapVal σ)) {side : Side}
    {price : Price} {i : Fin n} (hi : i ∈ L.queue side price) :
    (s'.pool (σ i)).next = (s.pool i).next.map σ ∧
      (s'.pool (σ i)).prev = (s.pool i).prev.map σ := by
  obtain ⟨as, bs, hsplit⟩ := List.append_of_mem hi
  have hl := (h.level side price).list
  have hl' := (h'.level side price).list
  rw [BookOf.queue_mapVal, hsplit, List.map_append, List.map_cons] at hl'
  rw [hsplit] at hl
  obtain ⟨-, hnext, hprev⟩ := hl.neighbours
  obtain ⟨-, hnext', hprev'⟩ := hl'.neighbours
  rw [← List.map_reverse] at hprev'
  have hstart : ∀ {next : Fin n → Option (Fin n)} {start : Option (Fin n)} {is : List (Fin n)},
      Walk next start is none → start = is.head? := by
    intro next start is hw
    cases is with
    | nil => exact hw
    | cons j is => exact hw.head_eq
  constructor
  · have heq : (s.pool i).next = bs.head? := hstart hnext
    rw [heq, ← List.head?_map]
    exact hstart hnext'
  · have heq : (s.pool i).prev = as.reverse.head? := hstart hprev
    rw [heq, ← List.head?_map]
    exact hstart hprev'

/-- A slot's order is found in the renamed slot, with renamed links. -/
theorem order_rename (h : Wf s [] noHoles L) (h' : Wf s' [] noHoles (L.mapVal σ))
    (hview : view s L = view s' (L.mapVal σ)) {side : Side} {price : Price} {i : Fin n}
    (hi : i ∈ L.queue side price) : s'.pool (σ i) = renameOrder σ (s.pool i) := by
  have hi' : σ i ∈ (L.mapVal σ).queue side price := by
    rw [BookOf.queue_mapVal]
    exact List.mem_map_of_mem hi
  have hdata := resting_rename hview hi
  obtain ⟨hnext, hprev⟩ := links_rename h h' hi
  obtain ⟨hside, hprice, -⟩ := h.placed _ _ _ hi
  obtain ⟨hside', hprice', -⟩ := h'.placed _ _ _ hi'
  cases ho : s'.pool (σ i)
  simp_all [renameOrder, resting]

/-- The identifiers of a renamed layout are mapped to the renamed slots. -/
theorem orderMap_rename (h : Wf s [] noHoles L) (h' : Wf s' [] noHoles (L.mapVal σ))
    (hview : view s L = view s' (L.mapVal σ)) : s'.orderMap = s.orderMap.mapVal σ := by
  apply OrdMap.ext_find?
  intro id
  rw [OrdMap.find?_mapVal]
  cases hm : s.orderMap.find? id with
  | some i =>
    obtain ⟨hid, hi⟩ := h.indexed id i hm
    have hi' : σ i ∈ (L.mapVal σ).queue (s.pool i).side (s.pool i).price := by
      rw [BookOf.queue_mapVal]
      exact List.mem_map_of_mem hi
    have hmapped := (h'.placed _ _ _ hi').2.2
    have hsame : (s'.pool (σ i)).orderId = id :=
      (congrArg Resting.orderId (resting_rename hview hi)).trans hid
    rwa [hsame] at hmapped
  | none =>
    cases hm' : s'.orderMap.find? id with
    | none => rfl
    | some j =>
      obtain ⟨hid, hj⟩ := h'.indexed id j hm'
      rw [BookOf.queue_mapVal] at hj
      obtain ⟨i, hi, rfl⟩ := List.mem_map.mp hj
      have hmapped := (h.placed _ _ _ hi).2.2
      have hsame : (s.pool i).orderId = id :=
        (congrArg Resting.orderId (resting_rename hview hi)).symm.trans hid
      rw [hsame, hm] at hmapped
      cases hmapped

/-- The levels are those with renamed slots. -/
theorem levels_rename (h : Wf s [] noHoles L) (h' : Wf s' [] noHoles (L.mapVal σ))
    (hview : view s L = view s' (L.mapVal σ)) (side : Side) :
    s'.levels side = (s.levels side).mapVal (renameLevel σ) := by
  apply OrdMap.ext_find?
  intro price
  rw [OrdMap.find?_mapVal]
  have habsent : ∀ {t : Orderbook n} {M : Layout n}, Wf t [] noHoles M → M.queue side price = [] →
      (t.levels side).find? price = none := fun hw hq => by
    by_contra hne
    exact hw.full side price hne hq
  cases hq : L.queue side price with
  | nil =>
    rw [habsent h hq, habsent h' (by rw [BookOf.queue_mapVal, hq]; rfl)]
    rfl
  | cons i is =>
    have hi : i ∈ L.queue side price := by rw [hq]; exact List.mem_cons_self
    have hi' : σ i ∈ (L.mapVal σ).queue side price := by
      rw [BookOf.queue_mapVal]
      exact List.mem_map_of_mem hi
    rw [h.present hi, h'.present hi', level_rename h h' hview, Option.map_some]

/-- Engines that store the same book are renamings of each other. -/
theorem exists_renaming (h : Represents s e) (h' : Represents s' e)
    (hsettings : settings s' = settings s) : ∃ σ, Renamed σ s s' := by
  obtain ⟨⟨L, hw, hbook⟩, -, -⟩ := h
  obtain ⟨⟨L', hw', hbook'⟩, -, -⟩ := h'
  have hview : view s L = view s' L' := hbook.symm.trans hbook'
  obtain ⟨σ, hfree, rfl⟩ := exists_layout_perm hw hw' hview
  exact ⟨σ, {
    free := hfree
    orderMap := orderMap_rename hw hw' hview
    levels := levels_rename hw hw' hview
    orders := fun id i hm => order_rename hw hw' hview (hw.indexed id i hm).2
    settings := hsettings }⟩

end Renaming

end OrderbookEngine.SlotRenaming
