import Mathlib.Data.Fintype.Card
import OrderbookEngine.ReferenceBook

/-!
# The representation invariant and its primitive steps

A layout assigns each price level its sequence of slots. The invariant ties the
levels, the links, the hash map and the free list to one layout. It allows held
slots, which are neither free nor mapped, and holes, which are levels that may
be empty for the moment. Every operation is a composition of a few steps, and
each step has one lemma about the invariant and one about the orders in view.
-/

namespace OrderbookEngine.LayoutInvariant

open SortedMap LinkedSlots MarketTypes PoolBook FeedCalls ReferenceBook

variable {n : ℕ}

/-- The links of a pool. -/
def linksOf (pool : Pool n) : Links (Fin n) := ⟨fun i => (pool i).next, fun i => (pool i).prev⟩

/-- The ends of a price level. -/
def endsOf (lvl : PriceLevel n) : Ends (Fin n) := ⟨lvl.head, lvl.tail⟩

/-- An order without its links. -/
def unlinked (o : PoolOrder n) : PoolOrder n := { o with prev := none, next := none }

/-- The order of a slot as the reference engine keeps it. -/
def resting (o : PoolOrder n) : Resting := ⟨o.orderId, o.orderType, o.quantity⟩

/-- What is compared when links are left out. -/
theorem unlinked_eq_iff {o o' : PoolOrder n} :
    unlinked o = unlinked o' ↔ o.orderId = o'.orderId ∧ o.side = o'.side ∧ o.price = o'.price ∧
      o.orderType = o'.orderType ∧ o.quantity = o'.quantity := by
  simp [unlinked]

/-- The order in a slot does not depend on its links. -/
theorem resting_eq_of_unlinked {o o' : PoolOrder n} (h : unlinked o = unlinked o') :
    resting o = resting o' := by
  obtain ⟨hid, -, -, htype, hqty⟩ := unlinked_eq_iff.mp h
  simp only [resting, hid, htype, hqty]

/-- A level lists the given slots, with their number and wrapping total. -/
structure LevelWf (pool : Pool n) (lvl : PriceLevel n) (is : List (Fin n)) : Prop where
  /-- The links form the list. -/
  list : IsList (linksOf pool) (endsOf lvl) is
  /-- The count is its length. -/
  count : lvl.orderCount = is.length
  /-- The total is that of its quantities. -/
  total : lvl.totalQty = wrapSum (is.map fun i => (pool i).quantity)

/-- The head of a level is the first slot of its list. -/
theorem LevelWf.head_eq {pool : Pool n} {lvl : PriceLevel n} {i : Fin n} {is : List (Fin n)}
    (h : LevelWf pool lvl (i :: is)) : lvl.head = some i := h.list.forward.head_eq

/-- A level without slots has no head. -/
theorem LevelWf.head_none {pool : Pool n} {lvl : PriceLevel n}
    (h : LevelWf pool lvl []) : lvl.head = none := h.list.forward

/-- A level counts no order if it has no slots. -/
theorem LevelWf.empty_iff {pool : Pool n} {lvl : PriceLevel n} {is : List (Fin n)}
    (h : LevelWf pool lvl is) : lvl.empty = true ↔ is = [] := by
  rw [PriceLevel.empty, h.count, beq_iff_eq, Int.natCast_eq_zero, List.length_eq_zero_iff]

/-- A fresh level lists no slot. -/
theorem levelWf_nil (pool : Pool n) : LevelWf pool {} [] :=
  ⟨⟨rfl, rfl⟩, rfl, rfl⟩

/-- A fresh level lists no slot, whatever the pool. -/
theorem levelWf_default {pool : Pool n} {is : List (Fin n)} (h : LevelWf pool {} is) : is = [] :=
  h.empty_iff.mp rfl

/-- A level depends only on the slots it lists. -/
theorem LevelWf.congr {pool pool' : Pool n} {lvl : PriceLevel n} {is : List (Fin n)}
    (h : LevelWf pool lvl is) (heq : ∀ i ∈ is, pool' i = pool i) : LevelWf pool' lvl is where
  list := h.list.congr (fun i hi => by simp only [linksOf, heq i hi])
    (fun i hi => by simp only [linksOf, heq i hi])
  count := h.count
  total := by
    rw [h.total]
    congr 1
    exact List.map_congr_left fun i hi => by rw [heq i hi]

/-- Writing a backward link changes no order. -/
@[simp] theorem unlinked_setPrev (pool : Pool n) (i j : Fin n) (link : Option (Fin n)) :
    unlinked (setPrev pool i link j) = unlinked (pool j) := by
  rw [setPrev, Function.update_apply]
  split_ifs with h
  · rw [h]
    rfl
  · rfl

/-- Writing a forward link changes no order. -/
@[simp] theorem unlinked_setNext (pool : Pool n) (i j : Fin n) (link : Option (Fin n)) :
    unlinked (setNext pool i link j) = unlinked (pool j) := by
  rw [setNext, Function.update_apply]
  split_ifs with h
  · rw [h]
    rfl
  · rfl

section Lists

variable (pool : Pool n) (lvl : PriceLevel n) (i : Fin n)

/-- Appending to a level is appending to its linked list. -/
theorem dllAppend_links :
    linksOf (dllAppend pool lvl i).1 = (linksOf pool).append (endsOf lvl) i := by
  cases ht : lvl.tail with
  | none =>
    simp only [linksOf, dllAppend, Links.append, endsOf, ht, Links.mk.injEq]
    constructor <;> funext j <;> simp [Function.update_apply]
  | some t =>
    simp only [linksOf, dllAppend, Links.append, endsOf, ht, Links.mk.injEq]
    constructor <;> funext j <;> simp [Function.update_apply]

/-- Appending moves the tail of the list. -/
theorem dllAppend_ends : endsOf (dllAppend pool lvl i).2 = (endsOf lvl).append i := by
  cases ht : lvl.tail <;> simp [dllAppend, Ends.append, endsOf, ht]

/-- Appending changes no order. -/
@[simp] theorem dllAppend_unlinked (j : Fin n) :
    unlinked ((dllAppend pool lvl i).1 j) = unlinked (pool j) := by
  cases ht : lvl.tail <;> simp [dllAppend, ht]

/-- Appending writes only to the slot and to the tail of the level. -/
theorem dllAppend_frame {j : Fin n} (hji : j ≠ i) (hjt : lvl.tail ≠ some j) :
    (dllAppend pool lvl i).1 j = pool j := by
  cases ht : lvl.tail with
  | none => simp only [dllAppend, ht, setNext_of_ne _ _ hji, setPrev_of_ne _ _ hji]
  | some t =>
    have hne : j ≠ t := fun he => hjt (by rw [ht, he])
    simp only [dllAppend, ht, setNext_of_ne _ _ hne, setNext_of_ne _ _ hji,
      setPrev_of_ne _ _ hji]

/-- Appending counts one order more. -/
theorem dllAppend_count : (dllAppend pool lvl i).2.orderCount = lvl.orderCount + 1 := by
  cases ht : lvl.tail <;> simp [dllAppend, ht]

/-- Appending adds the quantity of the slot to the total. -/
theorem dllAppend_total :
    (dllAppend pool lvl i).2.totalQty = lvl.totalQty + (pool i).quantity := by
  cases ht : lvl.tail <;> simp [dllAppend, ht]

/-- Removing from a level is removing from its linked list. -/
theorem dllRemove_links : linksOf (dllRemove pool lvl i).1 = (linksOf pool).remove i := by
  cases hp : (pool i).prev <;> cases hx : (pool i).next <;>
    simp only [linksOf, dllRemove, Links.remove, hp, hx, setNext_next, setNext_prev, Links.mk.injEq]
  all_goals constructor <;> funext j <;> simp_all [Function.update_apply]

/-- Removing moves the ends of the list past the slot. -/
theorem dllRemove_ends :
    endsOf (dllRemove pool lvl i).2 = (endsOf lvl).remove (linksOf pool) i := by
  cases hp : (pool i).prev <;> cases hx : (pool i).next <;>
    simp [linksOf, dllRemove, Ends.remove, endsOf, hp, hx]

/-- Removing changes no order. -/
@[simp] theorem dllRemove_unlinked (j : Fin n) :
    unlinked ((dllRemove pool lvl i).1 j) = unlinked (pool j) := by
  cases hp : (pool i).prev <;> cases hx : (pool i).next <;> simp [dllRemove, hp, hx]

/-- Removal writes only to the slot and to its neighbours. -/
theorem dllRemove_frame {j : Fin n} (hji : j ≠ i) (hjp : (pool i).prev ≠ some j)
    (hjx : (pool i).next ≠ some j) : (dllRemove pool lvl i).1 j = pool j := by
  cases hp : (pool i).prev with
  | none =>
    cases hx : (pool i).next with
    | none => simp [dllRemove, hp, hx, setNext_of_ne _ _ hji, setPrev_of_ne _ _ hji]
    | some x =>
      have hne : j ≠ x := fun he => hjx (by rw [hx, he])
      simp [dllRemove, hp, hx, setNext_of_ne _ _ hji, setPrev_of_ne _ _ hji,
        setPrev_of_ne _ _ hne]
  | some p =>
    have hpne : j ≠ p := fun he => hjp (by rw [hp, he])
    cases hx : (pool i).next with
    | none =>
      simp [dllRemove, hp, hx, setNext_of_ne _ _ hji, setPrev_of_ne _ _ hji,
        setNext_of_ne _ _ hpne]
    | some x =>
      have hxne : j ≠ x := fun he => hjx (by rw [hx, he])
      simp [dllRemove, hp, hx, setNext_of_ne _ _ hji, setPrev_of_ne _ _ hji,
        setNext_of_ne _ _ hpne, setPrev_of_ne _ _ hxne]

/-- Removing counts one order less. -/
theorem dllRemove_count : (dllRemove pool lvl i).2.orderCount = lvl.orderCount - 1 := by
  cases hp : (pool i).prev <;> cases hx : (pool i).next <;> simp [dllRemove, hp, hx]

/-- Removing takes the quantity of the slot off the total. -/
theorem dllRemove_total :
    (dllRemove pool lvl i).2.totalQty = lvl.totalQty - (pool i).quantity := by
  cases hp : (pool i).prev <;> cases hx : (pool i).next <;> simp [dllRemove, hp, hx]

end Lists

section LevelSteps

variable {pool : Pool n} {lvl : PriceLevel n} {i j : Fin n} {is js : List (Fin n)}

/-- Appending a new slot lists it last. -/
theorem LevelWf.append (h : LevelWf pool lvl is) (hi : i ∉ is) :
    LevelWf (dllAppend pool lvl i).1 (dllAppend pool lvl i).2 (is ++ [i]) where
  list := by
    rw [dllAppend_links, dllAppend_ends]
    exact h.list.append hi
  count := by
    rw [dllAppend_count, h.count, List.length_append]
    rfl
  total := by
    have hq : ∀ k, ((dllAppend pool lvl i).1 k).quantity = (pool k).quantity := fun k =>
      (unlinked_eq_iff.mp (dllAppend_unlinked pool lvl i k)).2.2.2.2
    simp only [dllAppend_total, h.total, List.map_append, wrapSum_append, List.map_cons,
      List.map_nil, wrapSum_cons, wrapSum_nil, hq, UInt32.add_zero]

/-- Appending leaves slots of other levels alone. -/
theorem LevelWf.append_frame (h : LevelWf pool lvl is) (hji : j ≠ i) (hj : j ∉ is) :
    (dllAppend pool lvl i).1 j = pool j := by
  refine dllAppend_frame pool lvl i hji fun ht => hj ?_
  rcases h.list.tail_cases with ⟨hnone, -⟩ | ⟨ks, t, hsome, rfl⟩
  · rw [endsOf, ht] at hnone
    cases hnone
  · have htj : some t = some j := hsome.symm.trans ht
    cases htj
    simp

/-- Removing a slot drops it from the list. -/
theorem LevelWf.remove (h : LevelWf pool lvl (is ++ i :: js)) :
    LevelWf (dllRemove pool lvl i).1 (dllRemove pool lvl i).2 (is ++ js) where
  list := by
    rw [dllRemove_links, dllRemove_ends]
    exact h.list.remove
  count := by
    rw [dllRemove_count, h.count]
    simp only [List.length_append, List.length_cons]
    omega
  total := by
    have hq : ∀ k, ((dllRemove pool lvl i).1 k).quantity = (pool k).quantity := fun k =>
      (unlinked_eq_iff.mp (dllRemove_unlinked pool lvl i k)).2.2.2.2
    simp only [dllRemove_total, h.total, List.map_append, wrapSum_append, List.map_cons,
      wrapSum_cons, hq]
    grind

/-- Removing leaves slots of other levels alone. -/
theorem LevelWf.remove_frame (h : LevelWf pool lvl (is ++ i :: js)) (hj : j ∉ is ++ i :: js) :
    (dllRemove pool lvl i).1 j = pool j := by
  obtain ⟨-, hnext, hprev⟩ := h.list.neighbours
  refine dllRemove_frame pool lvl i ?_ ?_ ?_
  · rintro rfl
    exact hj (by simp)
  · intro hp
    have hmem : j ∈ is.reverse := by
      change Walk _ ((pool i).prev) _ _ at hprev
      rw [hp] at hprev
      exact hprev.start_mem
    exact hj (by simp [List.mem_reverse.mp hmem])
  · intro hx
    have hmem : j ∈ js := by
      change Walk _ ((pool i).next) _ _ at hnext
      rw [hx] at hnext
      exact hnext.start_mem
    exact hj (by simp [hmem])

/-- Rewriting the quantity of a slot moves the total by the difference. -/
theorem LevelWf.requantify (h : LevelWf pool lvl (is ++ i :: js)) (q : Quantity) :
    LevelWf (Function.update pool i { pool i with quantity := q })
      { lvl with totalQty := lvl.totalQty - (pool i).quantity + q } (is ++ i :: js) := by
  have hn := h.list.nodup
  rw [List.nodup_append, List.nodup_cons] at hn
  obtain ⟨-, ⟨hij, -⟩, hdis⟩ := hn
  have hi : i ∉ is := fun hm => hdis i hm i List.mem_cons_self rfl
  have hother : ∀ ks : List (Fin n), i ∉ ks →
      (ks.map fun k => (Function.update pool i { pool i with quantity := q } k).quantity) =
        ks.map fun k => (pool k).quantity := by
    intro ks hks
    refine List.map_congr_left fun k hk => ?_
    have hki : k ≠ i := fun he => hks (he ▸ hk)
    rw [Function.update_of_ne hki]
  constructor
  · refine h.list.congr (fun k _ => ?_) (fun k _ => ?_)
    · simp only [linksOf, Function.update_apply]
      split_ifs with hk
      · rw [hk]
      · rfl
    · simp only [linksOf, Function.update_apply]
      split_ifs with hk
      · rw [hk]
      · rfl
  · exact h.count
  · have ht := h.total
    simp only [List.map_append, List.map_cons, wrapSum_append, wrapSum_cons] at ht ⊢
    rw [hother is hi, hother js hij, Function.update_self, ht]
    grind

end LevelSteps

/-- A slot sequence for every price level. -/
abbrev Layout (n : ℕ) := BookOf (Fin n)

/-- The representation invariant for a layout. Held slots are neither free nor
mapped, and only a hole may be a level without orders. -/
structure Wf (s : Orderbook n) (held : List (Fin n)) (holes : Side → Price → Prop)
    (L : Layout n) : Prop where
  /-- Every level lists its slots; an absent level lists none. -/
  level : ∀ side price, LevelWf s.pool (s.level side price) (L.queue side price)
  /-- A level without orders is a hole. -/
  full : ∀ side price, (s.levels side).find? price ≠ none → L.queue side price = [] →
    holes side price
  /-- A listed slot has the side and price of its level and is mapped. -/
  placed : ∀ side price i, i ∈ L.queue side price →
    (s.pool i).side = side ∧ (s.pool i).price = price ∧
      s.orderMap.find? (s.pool i).orderId = some i
  /-- A mapped slot has its identifier and is listed. -/
  indexed : ∀ id i, s.orderMap.find? id = some i →
    (s.pool i).orderId = id ∧ i ∈ L.queue (s.pool i).side (s.pool i).price
  /-- No slot is spare twice. -/
  spare_nodup : (held ++ s.freeList).Nodup
  /-- The spare slots are the slots that are not mapped. -/
  spare_iff : ∀ i, i ∈ held ++ s.freeList ↔
    i.val < slotCount n ∧ ∀ id, s.orderMap.find? id ≠ some i
  /-- Mapped slots come from the free list of the constructor. -/
  bounded : ∀ id i, s.orderMap.find? id = some i → i.val < slotCount n

/-- No level is a hole. -/
def noHoles : Side → Price → Prop := fun _ _ => False

/-- The orders of a layout, as the reference engine keeps them. -/
def view (s : Orderbook n) (L : Layout n) : Book := L.mapVal fun i => resting (s.pool i)

section WfFacts

variable {s : Orderbook n} {held : List (Fin n)} {holes : Side → Price → Prop} {L : Layout n}

/-- A slot is in one level only. -/
theorem Wf.level_unique (h : Wf s held holes L) {side side' : Side} {price price' : Price}
    {i : Fin n} (hi : i ∈ L.queue side price) (hi' : i ∈ L.queue side' price') :
    side' = side ∧ price' = price := by
  obtain ⟨hs, hp, -⟩ := h.placed _ _ _ hi
  obtain ⟨hs', hp', -⟩ := h.placed _ _ _ hi'
  exact ⟨hs'.symm.trans hs, hp'.symm.trans hp⟩

/-- Slots of different sides are different. -/
theorem Wf.ne_of_sides (h : Wf s held holes L) {side side' : Side} {price price' : Price}
    {i j : Fin n} (hside : side' ≠ side) (hi : i ∈ L.queue side price)
    (hj : j ∈ L.queue side' price') : j ≠ i := by
  rintro rfl
  exact hside (h.level_unique hi hj).1

/-- A slot in a level is neither held nor free. -/
theorem Wf.not_spare (h : Wf s held holes L) {side : Side} {price : Price} {i : Fin n}
    (hi : i ∈ L.queue side price) : i ∉ held ++ s.freeList := fun hmem =>
  ((h.spare_iff i).mp hmem).2 _ (h.placed _ _ _ hi).2.2

/-- A slot has one identifier, and an identifier one slot. -/
theorem Wf.slot_unique (h : Wf s held holes L) {side side' : Side} {price price' : Price}
    {i j : Fin n} (hi : i ∈ L.queue side price) (hj : j ∈ L.queue side' price')
    (hid : (s.pool i).orderId = (s.pool j).orderId) : i = j := by
  have hmi := (h.placed _ _ _ hi).2.2
  have hmj := (h.placed _ _ _ hj).2.2
  rw [hid, hmj] at hmi
  exact (Option.some.inj hmi).symm

/-- No slot is twice in a level. -/
theorem Wf.queue_nodup (h : Wf s held holes L) (side : Side) (price : Price) :
    (L.queue side price).Nodup := (h.level side price).list.nodup

/-- Distinct slots are not more than the pool has. -/
theorem length_le_of_nodup {is : List (Fin n)} (h : is.Nodup) : is.length ≤ n := by
  simpa using h.length_le_card

/-- The slots left without one of them are the others. -/
theorem Wf.mem_without (h : Wf s held holes L) {side side' : Side} {price price' : Price}
    {i j : Fin n} {is js : List (Fin n)} (hq : L.queue side price = is ++ i :: js)
    (hj : j ∈ (L.setQueue side price (is ++ js)).queue side' price') :
    j ∈ L.queue side' price' ∧ j ≠ i := by
  have hnodup := h.queue_nodup side price
  rw [hq, List.nodup_append, List.nodup_cons] at hnodup
  obtain ⟨-, ⟨hij, -⟩, hdis⟩ := hnodup
  rw [BookOf.queue_setQueue] at hj
  split_ifs at hj with he
  · rw [he.1, he.2, hq]
    rcases List.mem_append.mp hj with hj | hj
    · exact ⟨by simp [hj], fun hji => hdis j hj i List.mem_cons_self hji⟩
    · exact ⟨by simp [hj], fun hji => hij (hji ▸ hj)⟩
  · refine ⟨hj, ?_⟩
    rintro rfl
    exact he (h.level_unique (by simp [hq]) hj)

/-- A level has no more slots than the pool. -/
theorem Wf.queue_length_le (h : Wf s held holes L) (side : Side) (price : Price) :
    (L.queue side price).length ≤ n := length_le_of_nodup (h.queue_nodup side price)

/-- A level with slots is in its map. -/
theorem Wf.present (h : Wf s held holes L) {side : Side} {price : Price} {i : Fin n}
    (hi : i ∈ L.queue side price) :
    (s.levels side).find? price = some (s.level side price) := by
  cases hf : (s.levels side).find? price with
  | some lvl => simp [Orderbook.level, hf]
  | none =>
    have hl := h.level side price
    rw [Orderbook.level, hf] at hl
    rw [levelWf_default hl] at hi
    cases hi

/-- More levels may be allowed to be empty. -/
theorem Wf.mono (h : Wf s held holes L) {holes' : Side → Price → Prop}
    (hholes : ∀ side price, holes side price → holes' side price) : Wf s held holes' L :=
  { h with full := fun side price hf hq => hholes _ _ (h.full side price hf hq) }

/-- The orders of a level are those in its slots. -/
@[simp] theorem queue_view (side : Side) (price : Price) :
    (view s L).queue side price = (L.queue side price).map fun i => resting (s.pool i) := by
  rw [view, BookOf.queue_mapVal]

/-- The view depends only on the orders in listed slots. -/
theorem view_congr {s' : Orderbook n}
    (h : ∀ side price, ∀ i ∈ L.queue side price, resting (s'.pool i) = resting (s.pool i)) :
    view s' L = view s L := by
  apply BookOf.ext_queue
  intro side price
  rw [queue_view, queue_view]
  exact List.map_congr_left (h side price)

end WfFacts

section Counting

/-- All slots of a layout. -/
def slots (L : Layout n) : List (Fin n) := (L.orders .buy ++ L.orders .sell).map Prod.snd

/-- The slots in use are those of all levels. -/
theorem mem_slots {L : Layout n} {i : Fin n} :
    i ∈ slots L ↔ ∃ side price, i ∈ L.queue side price := by
  rw [slots, List.mem_map]
  constructor
  · rintro ⟨⟨price, j⟩, hmem, rfl⟩
    rcases List.mem_append.mp hmem with hmem | hmem
    · exact ⟨.buy, price, (L.mem_orders .buy price j).mp hmem⟩
    · exact ⟨.sell, price, (L.mem_orders .sell price j).mp hmem⟩
  · rintro ⟨side, price, hi⟩
    refine ⟨(price, i), ?_, rfl⟩
    cases side with
    | buy => exact List.mem_append_left _ ((L.mem_orders .buy price i).mpr hi)
    | sell => exact List.mem_append_right _ ((L.mem_orders .sell price i).mpr hi)

/-- Number of slots in use. -/
theorem length_slots (L : Layout n) : (slots L).length = L.size := by
  rw [slots, List.length_map, List.length_append, BookOf.size_eq]

variable {s : Orderbook n} {held : List (Fin n)} {holes : Side → Price → Prop} {L : Layout n}

/-- A side lists no slot twice. -/
theorem Wf.side_nodup (h : Wf s held holes L) (side : Side) :
    ((L.orders side).map Prod.snd).Nodup := by
  have hqueue : ∀ e ∈ (L.side side).map.entries, L.queue side e.1 = e.2 := by
    intro e he
    exact ((L.side side).mem_entries_iff e.1 e.2 |>.mp he).2
  rw [BookOf.orders, Buckets.toList, List.map_flatMap, List.nodup_flatMap]
  constructor
  · intro e he
    have hn := h.queue_nodup side e.1
    rw [hqueue e he] at hn
    rw [List.map_map]
    exact (List.map_id e.2).symm ▸ hn
  · refine (L.side side).map.sorted.imp_of_mem fun {e e'} he he' hlt => ?_
    intro i hi hi'
    simp only [List.map_map, List.mem_map, Function.comp_apply, exists_eq_right] at hi hi'
    have hprice := (h.level_unique (hqueue e he ▸ hi) (hqueue e' he' ▸ hi')).2
    rw [hprice] at hlt
    exact irrefl_of side.before _ hlt

/-- No slot is listed twice. -/
theorem Wf.slots_nodup (h : Wf s held holes L) : (slots L).Nodup := by
  rw [slots, List.map_append, List.nodup_append]
  refine ⟨h.side_nodup .buy, h.side_nodup .sell, fun i hi j hj => ?_⟩
  obtain ⟨⟨price, _⟩, hb, rfl⟩ := List.mem_map.mp hi
  obtain ⟨⟨price', _⟩, ha, rfl⟩ := List.mem_map.mp hj
  exact (h.ne_of_sides (by simp) ((L.mem_orders _ _ _).mp hb)
    ((L.mem_orders _ _ _).mp ha)).symm

/-- The mapped slots are the listed ones. -/
theorem Wf.mem_slots_iff (h : Wf s held holes L) {i : Fin n} :
    i ∈ slots L ↔ ∃ id, s.orderMap.find? id = some i := by
  rw [mem_slots]
  constructor
  · rintro ⟨side, price, hi⟩
    exact ⟨_, (h.placed side price i hi).2.2⟩
  · rintro ⟨id, hid⟩
    exact ⟨_, _, (h.indexed id i hid).2⟩

/-- The hash map leads to every listed slot once. -/
theorem Wf.mapped_perm (h : Wf s held holes L) :
    (s.orderMap.entries.map Prod.snd).Perm (slots L) := by
  refine (List.perm_ext_iff_of_nodup ?_ h.slots_nodup).mpr fun i => ?_
  · refine List.Nodup.map_on ?_ s.orderMap.entries_nodup
    rintro ⟨id, i⟩ he ⟨id', i'⟩ he' heq
    cases heq
    have hid := (h.indexed id i ((s.orderMap.find?_eq_some_iff _ _).mpr he)).1
    have hid' := (h.indexed id' i ((s.orderMap.find?_eq_some_iff _ _).mpr he')).1
    rw [← hid, hid']
  · rw [h.mem_slots_iff, List.mem_map]
    constructor
    · rintro ⟨⟨id, _⟩, he, rfl⟩
      exact ⟨id, (s.orderMap.find?_eq_some_iff _ _).mpr he⟩
    · rintro ⟨id, hid⟩
      exact ⟨(id, i), (s.orderMap.find?_eq_some_iff _ _).mp hid, rfl⟩

/-- The number of live orders. -/
theorem Wf.size_eq (h : Wf s held holes L) : s.size = (view s L).size := by
  rw [view, BookOf.size_mapVal, ← length_slots, ← h.mapped_perm.length_eq, List.length_map]
  rfl

/-- The slots on a fresh free list. -/
theorem mem_take_finRange (k : ℕ) (i : Fin n) : i ∈ (List.finRange n).take k ↔ i.val < k := by
  rw [List.mem_take_iff_getElem]
  constructor
  · rintro ⟨j, hj, rfl⟩
    simp only [List.getElem_finRange, Fin.val_cast]
    omega
  · intro hi
    exact ⟨i.val, by rw [List.length_finRange]; omega, by simp⟩

/-- Listed, held and free slots are the slots of the constructor. -/
theorem Wf.slots_perm (h : Wf s held holes L) :
    (slots L ++ (held ++ s.freeList)).Perm ((List.finRange n).take (slotCount n)) := by
  refine (List.perm_ext_iff_of_nodup ?_ ((List.nodup_finRange n).sublist
    (List.take_sublist _ _))).mpr fun i => ?_
  · rw [List.nodup_append]
    refine ⟨h.slots_nodup, h.spare_nodup, ?_⟩
    rintro i hi j hj rfl
    obtain ⟨side, price, hi⟩ := mem_slots.mp hi
    exact h.not_spare hi hj
  · rw [List.mem_append, mem_take_finRange, h.spare_iff, h.mem_slots_iff]
    constructor
    · rintro (⟨id, hid⟩ | ⟨hlt, -⟩)
      · exact h.bounded id i hid
      · exact hlt
    · intro hlt
      by_cases hm : ∃ id, s.orderMap.find? id = some i
      · exact Or.inl hm
      · exact Or.inr ⟨hlt, fun id hid => hm ⟨id, hid⟩⟩

/-- Live orders, held slots and free slots add up. -/
theorem Wf.size_add (h : Wf s held holes L) :
    (view s L).size + held.length + s.freeList.length = slotCount n := by
  have hlen := h.slots_perm.length_eq
  have hle := slotCount_le n
  simp only [List.length_append, List.length_take, List.length_finRange, length_slots] at hlen
  rw [view, BookOf.size_mapVal]
  omega

/-- A book has no more orders than the pool has slots. -/
theorem Wf.size_le (h : Wf s held holes L) : (view s L).size ≤ n := by
  have := h.size_add
  have := slotCount_le n
  omega

end Counting

end OrderbookEngine.LayoutInvariant
