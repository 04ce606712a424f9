import OrderbookEngine.LayoutInvariant

/-!
# Steps on slots, levels and the hash map

Each operation of the engine is a composition of the steps here: taking and
returning a slot, writing a spare slot, entering and leaving a level, changing
a quantity in place and erasing an empty level. Each keeps the representation
invariant for a changed layout, and the orders in view change accordingly.
-/

namespace OrderbookEngine.SlotSteps

open SortedMap MarketTypes PoolBook ReferenceBook LayoutInvariant

variable {n : ℕ} {s : Orderbook n} {held : List (Fin n)} {holes : Side → Price → Prop}
  {L : Layout n}

section Settings

/-- The fields that no operation on orders writes. -/
def settings (s : Orderbook n) : ExchangeRules × MarketDataStats × UInt64 × Bool :=
  (s.exchangeRules, s.stats, s.lastSequenceNumber, s.isInitialized)

variable (s) (side : Side) (price : Price) (i : Fin n) (qty : Quantity)

/-- Writing levels leaves the settings alone. -/
@[simp] theorem settings_setLevels (m) : settings (s.setLevels side m) = settings s := by
  cases side <;> rfl

/-- Writing a level leaves the settings alone. -/
@[simp] theorem settings_putLevel (lvl : PriceLevel n) :
    settings (s.putLevel side price lvl) = settings s := settings_setLevels s side _

/-- Unlinking a slot leaves the settings alone. -/
@[simp] theorem settings_unlink : settings (s.unlink side price i) = settings s :=
  settings_putLevel _ side price _

/-- Erasing an empty level leaves the settings alone. -/
@[simp] theorem settings_eraseIfEmpty : settings (s.eraseIfEmpty side price) = settings s := by
  rw [Orderbook.eraseIfEmpty]
  split_ifs
  · exact settings_setLevels s side _
  · rfl

/-- Freeing a slot leaves the settings alone. -/
@[simp] theorem settings_free : settings (s.free i) = settings s := rfl

/-- Filling an order leaves the settings alone. -/
@[simp] theorem settings_fillSlot : settings (s.fillSlot i qty) = settings s := rfl

/-- Correcting a total leaves the settings alone. -/
@[simp] theorem settings_subTotal : settings (s.subTotal side price qty) = settings s :=
  settings_putLevel s side price _

/-- Retiring an order leaves the settings alone. -/
@[simp] theorem settings_retire : settings (s.retire side price i) = settings s :=
  settings_unlink _ side price i

/-- Inserting an order leaves the settings alone. -/
@[simp] theorem settings_insertIntoBook : settings (s.insertIntoBook i) = settings s :=
  settings_putLevel _ _ _ _

end Settings

/-- Taking the top of the free list holds the slot. -/
theorem wf_take (h : Wf s held holes L) {i : Fin n} {rest : List (Fin n)}
    (hf : s.freeList = i :: rest) : Wf { s with freeList := rest } (i :: held) holes L := by
  have hperm : (held ++ s.freeList).Perm (i :: held ++ rest) := by
    rw [hf]
    exact List.perm_middle
  exact { h with
    spare_nodup := hperm.nodup_iff.mp h.spare_nodup
    spare_iff := fun j => (hperm.mem_iff).symm.trans (h.spare_iff j) }

/-- Returning a held slot puts it on the free list. -/
theorem wf_free {i : Fin n} (h : Wf s (i :: held) holes L) : Wf (s.free i) held holes L := by
  have hperm : (i :: held ++ s.freeList).Perm (held ++ i :: s.freeList) := List.perm_middle.symm
  exact { h with
    spare_nodup := hperm.nodup_iff.mp h.spare_nodup
    spare_iff := fun j => (hperm.mem_iff).symm.trans (h.spare_iff j) }

/-- A spare slot may be overwritten. -/
theorem wf_write (h : Wf s held holes L) {i : Fin n} (hi : i ∈ held ++ s.freeList)
    (o : PoolOrder n) : Wf { s with pool := Function.update s.pool i o } held holes L := by
  have hne : ∀ side price j, j ∈ L.queue side price → j ≠ i := fun side price j hj he =>
    h.not_spare hj (he ▸ hi)
  have hmapped : ∀ id j, s.orderMap.find? id = some j → j ≠ i := fun id j hj =>
    hne _ _ j (h.indexed id j hj).2
  exact { h with
    level := fun side price => (h.level side price).congr fun j hj =>
      Function.update_of_ne (hne side price j hj) _ _
    placed := fun side price j hj => by
      have hp := h.placed side price j hj
      simpa only [Function.update_of_ne (hne side price j hj)] using hp
    indexed := fun id j hj => by
      have hx := h.indexed id j hj
      simpa only [Function.update_of_ne (hmapped id j hj)] using hx }

/-- Writing a slot that is not in use changes no order. -/
theorem view_write (h : Wf s held holes L) {i : Fin n} (hi : i ∈ held ++ s.freeList)
    (o : PoolOrder n) : view { s with pool := Function.update s.pool i o } L = view s L := by
  refine view_congr fun side price j hj => ?_
  have hji : j ≠ i := fun he => h.not_spare hj (he ▸ hi)
  exact congrArg resting (Function.update_of_ne hji _ _)

/-- Writing a quantity keeps identity, side, price and type. -/
theorem update_quantity (pool : Pool n) (i j : Fin n) (q : Quantity) :
    (Function.update pool i { pool i with quantity := q } j).orderId = (pool j).orderId ∧
      (Function.update pool i { pool i with quantity := q } j).side = (pool j).side ∧
      (Function.update pool i { pool i with quantity := q } j).price = (pool j).price ∧
      (Function.update pool i { pool i with quantity := q } j).orderType = (pool j).orderType := by
  rw [Function.update_apply]
  split_ifs with hj
  · rw [hj]
    exact ⟨rfl, rfl, rfl, rfl⟩
  · exact ⟨rfl, rfl, rfl, rfl⟩

section Requantify

variable {side : Side} {price : Price} {i : Fin n} {is js : List (Fin n)}

/-- Write a quantity into a listed slot and move the total of its level. -/
def setQuantity (s : Orderbook n) (side : Side) (price : Price) (i : Fin n) (q : Quantity) :
    Orderbook n :=
  { s.putLevel side price { s.level side price with
      totalQty := (s.level side price).totalQty - (s.pool i).quantity + q } with
    pool := Function.update s.pool i { s.pool i with quantity := q } }

/-- Changing a quantity together with the total keeps the layout. -/
theorem wf_setQuantity (h : Wf s held holes L) (hq : L.queue side price = is ++ i :: js)
    (q : Quantity) : Wf (setQuantity s side price i q) held holes L := by
  have hi : i ∈ L.queue side price := by simp [hq]
  refine { h with
    level := ?level
    full := ?full
    placed := ?placed
    indexed := ?indexed
    spare_nodup := ?spare_nodup
    spare_iff := ?spare_iff
    bounded := ?bounded }
  case level =>
    intro side' price'
    change LevelWf _ ((s.putLevel side price _).level side' price') _
    rw [Orderbook.level_putLevel]
    split_ifs with he
    · obtain ⟨rfl, rfl⟩ := he
      have hl := h.level side' price'
      rw [hq] at hl ⊢
      exact hl.requantify q
    · refine (h.level side' price').congr fun j hj => Function.update_of_ne ?_ _ _
      rintro rfl
      exact he (h.level_unique hi hj)
  case full =>
    intro side' price' hf
    change ((s.putLevel side price _).levels side').find? price' ≠ none at hf
    rw [Orderbook.find?_putLevel] at hf
    split_ifs at hf with he
    · obtain ⟨rfl, rfl⟩ := he
      intro hnil
      rw [hnil] at hi
      cases hi
    · exact h.full side' price' hf
  case placed =>
    intro side' price' j hj
    obtain ⟨hid, hside, hprice, -⟩ := update_quantity s.pool i j q
    simpa only [setQuantity, hid, hside, hprice, Orderbook.putLevel_orderMap] using
      h.placed side' price' j hj
  case indexed =>
    intro id j hj
    obtain ⟨hid, hside, hprice, -⟩ := update_quantity s.pool i j q
    simp only [setQuantity, Orderbook.putLevel_orderMap] at hj
    simpa only [setQuantity, hid, hside, hprice] using h.indexed id j hj
  case spare_nodup =>
    simpa only [setQuantity, Orderbook.putLevel_freeList] using h.spare_nodup
  case spare_iff =>
    simpa only [setQuantity, Orderbook.putLevel_freeList, Orderbook.putLevel_orderMap] using
      h.spare_iff
  case bounded =>
    simpa only [setQuantity, Orderbook.putLevel_orderMap] using h.bounded

/-- The order keeps its place in the queue with the new quantity. -/
theorem view_setQuantity (h : Wf s held holes L) (hq : L.queue side price = is ++ i :: js)
    (q : Quantity) : view (setQuantity s side price i q) L =
      (view s L).setQueue side price ((is.map fun j => resting (s.pool j)) ++
        { resting (s.pool i) with quantity := q } :: js.map fun j => resting (s.pool j)) := by
  have hi : i ∈ L.queue side price := by simp [hq]
  have hne : ∀ side' price', ∀ j ∈ L.queue side' price', j ≠ i →
      resting ((setQuantity s side price i q).pool j) = resting (s.pool j) := by
    intro side' price' j _ hj
    exact congrArg resting (Function.update_of_ne hj _ _)
  apply BookOf.ext_queue
  intro side' price'
  rw [queue_view, BookOf.queue_setQueue]
  split_ifs with he
  · obtain ⟨rfl, rfl⟩ := he
    have hn := h.queue_nodup side' price'
    rw [hq, List.nodup_append, List.nodup_cons] at hn
    obtain ⟨-, ⟨hij, -⟩, hdis⟩ := hn
    rw [hq, List.map_append, List.map_cons]
    congr 1
    · refine List.map_congr_left fun j hj => hne side' price' j (by simp [hq, hj]) ?_
      exact fun hji => hdis j hj i List.mem_cons_self hji
    · congr 1
      · simp [setQuantity, resting]
      · refine List.map_congr_left fun j hj => hne side' price' j (by simp [hq, hj]) ?_
        exact fun hji => hij (hji ▸ hj)
  · rw [queue_view]
    refine List.map_congr_left fun j hj => hne side' price' j hj ?_
    rintro rfl
    exact he (h.level_unique hi hj)

end Requantify

/-- Writes to the links of a pool keep the orders of its slots. -/
theorem view_unlinked {s' : Orderbook n} (hp : ∀ j, unlinked (s'.pool j) = unlinked (s.pool j)) :
    view s' L = view s L :=
  view_congr fun _ _ j _ => resting_eq_of_unlinked (hp j)

section Insert

/-- The pool after an order has been inserted. -/
theorem insertIntoBook_pool (s : Orderbook n) (i : Fin n) : (s.insertIntoBook i).pool =
    (dllAppend s.pool (s.level (s.pool i).side (s.pool i).price) i).1 := by
  simp [Orderbook.insertIntoBook]

/-- The identifiers after an order has been inserted. -/
theorem insertIntoBook_orderMap (s : Orderbook n) (i : Fin n) :
    (s.insertIntoBook i).orderMap = s.orderMap.insert (s.pool i).orderId i := by
  simp [Orderbook.insertIntoBook]

/-- Inserting a held slot with an unused identifier lists it last in its level. -/
theorem wf_insert {i : Fin n} (h : Wf s (i :: held) holes L)
    (hid : s.orderMap.find? (s.pool i).orderId = none) :
    Wf (s.insertIntoBook i) held holes (L.setQueue (s.pool i).side (s.pool i).price
      (L.queue (s.pool i).side (s.pool i).price ++ [i])) := by
  have hspare : i ∈ i :: held ++ s.freeList := by simp
  have hnot : ∀ side price, i ∉ L.queue side price := fun side price hi =>
    h.not_spare hi hspare
  have hfields := fun j => unlinked_eq_iff.mp
    (dllAppend_unlinked s.pool (s.level (s.pool i).side (s.pool i).price) i j)
  have hfree : (s.insertIntoBook i).freeList = s.freeList := by
    simp [Orderbook.insertIntoBook]
  have hnodup := h.spare_nodup
  rw [List.cons_append, List.nodup_cons] at hnodup
  -- the slots listed before stay mapped
  have hkept : ∀ side price j, j ∈ L.queue side price → (s.pool j).side = side ∧
      (s.pool j).price = price ∧
        (s.orderMap.insert (s.pool i).orderId i).find? (s.pool j).orderId = some j := by
    intro side price j hj
    obtain ⟨hs, hp, hm⟩ := h.placed side price j hj
    refine ⟨hs, hp, ?_⟩
    rw [OrdMap.find?_insert, if_neg, hm]
    intro hji
    rw [hji, hid] at hm
    cases hm
  constructor
  case level =>
    intro side price
    change LevelWf _ ((Orderbook.putLevel _ _ _ _).level side price) _
    rw [Orderbook.level_putLevel, BookOf.queue_setQueue, insertIntoBook_pool]
    split_ifs with he
    · exact (h.level _ _).append (hnot _ _)
    · refine (h.level side price).congr fun j hj => (h.level _ _).append_frame ?_ ?_
      · rintro rfl
        exact hnot _ _ hj
      · exact fun hj' => he (h.level_unique hj' hj)
  case full =>
    intro side price hf
    change ((Orderbook.putLevel _ _ _ _).levels side).find? price ≠ none at hf
    rw [Orderbook.find?_putLevel] at hf
    rw [BookOf.queue_setQueue]
    split_ifs at hf ⊢ with he
    · simp
    · exact h.full side price hf
  case placed =>
    intro side price j hj
    rw [BookOf.queue_setQueue] at hj
    rw [insertIntoBook_pool, (hfields j).1, (hfields j).2.1, (hfields j).2.2.1,
      insertIntoBook_orderMap]
    split_ifs at hj with he
    · rw [he.1, he.2]
      rcases List.mem_append.mp hj with hj | hj
      · exact hkept _ _ j hj
      · obtain rfl := List.mem_singleton.mp hj
        exact ⟨rfl, rfl, by rw [OrdMap.find?_insert, if_pos rfl]⟩
    · exact hkept side price j hj
  case indexed =>
    intro id j hj
    rw [insertIntoBook_orderMap, OrdMap.find?_insert] at hj
    rw [insertIntoBook_pool, (hfields j).1, (hfields j).2.1, (hfields j).2.2.1,
      BookOf.queue_setQueue]
    split_ifs at hj with hidi
    · obtain rfl := Option.some.inj hj
      exact ⟨hidi.symm, by simp⟩
    · obtain ⟨hjd, hjq⟩ := h.indexed id j hj
      refine ⟨hjd, ?_⟩
      split_ifs with he
      · rw [he.1, he.2] at hjq
        exact List.mem_append_left _ hjq
      · exact hjq
  case spare_nodup =>
    rw [hfree]
    exact hnodup.2
  case spare_iff =>
    intro j
    have hiff := h.spare_iff j
    rw [List.cons_append, List.mem_cons] at hiff
    rw [hfree, insertIntoBook_orderMap, OrdMap.insert_avoids_iff hid]
    constructor
    · intro hj
      obtain ⟨hlt, hm⟩ := hiff.mp (Or.inr hj)
      exact ⟨hlt, fun hji => hnodup.1 (hji ▸ hj), hm⟩
    · rintro ⟨hlt, hji, hm⟩
      exact (hiff.mpr ⟨hlt, hm⟩).resolve_left hji
  case bounded =>
    intro id j hj
    rw [insertIntoBook_orderMap, OrdMap.find?_insert] at hj
    split_ifs at hj
    · obtain rfl := Option.some.inj hj
      exact ((h.spare_iff _).mp hspare).1
    · exact h.bounded id j hj

/-- The inserted order joins the end of the queue at its price. -/
theorem view_insert {i : Fin n} : view (s.insertIntoBook i)
    (L.setQueue (s.pool i).side (s.pool i).price
      (L.queue (s.pool i).side (s.pool i).price ++ [i])) =
    (view s L).append (s.pool i).side (s.pool i).price (resting (s.pool i)) := by
  have hunlinked : ∀ j, unlinked ((s.insertIntoBook i).pool j) = unlinked (s.pool j) := by
    intro j
    rw [insertIntoBook_pool]
    exact dllAppend_unlinked _ _ _ _
  rw [view_unlinked hunlinked]
  apply BookOf.ext_queue
  intro side price
  rw [queue_view, Book.append, BookOf.queue_setQueue, BookOf.queue_setQueue, queue_view, queue_view]
  split_ifs <;> simp

end Insert

section Unlink

variable {side : Side} {price : Price} {i : Fin n} {is js : List (Fin n)}

/-- Remove a listed slot from its level and from the hash map. -/
def detach (s : Orderbook n) (side : Side) (price : Price) (i : Fin n) : Orderbook n :=
  { s.unlink side price i with orderMap := s.orderMap.erase (s.pool i).orderId }

/-- The pool after a slot has been detached. -/
theorem detach_pool (s : Orderbook n) (side : Side) (price : Price) (i : Fin n) :
    (detach s side price i).pool = (dllRemove s.pool (s.level side price) i).1 := by
  simp [detach, Orderbook.unlink]

/-- A detached slot is held, and its level may be left empty. -/
theorem wf_detach (h : Wf s held holes L) (hq : L.queue side price = is ++ i :: js) :
    Wf (detach s side price i) (i :: held)
      (fun side' price' => holes side' price' ∨ side' = side ∧ price' = price)
      (L.setQueue side price (is ++ js)) := by
  have hi : i ∈ L.queue side price := by simp [hq]
  have hmap : (detach s side price i).orderMap = s.orderMap.erase (s.pool i).orderId := rfl
  have hfree : (detach s side price i).freeList = s.freeList := by
    simp [detach, Orderbook.unlink]
  have hfields := fun j => unlinked_eq_iff.mp
    (dllRemove_unlinked s.pool (s.level side price) i j)
  have hmi := (h.placed side price i hi).2.2
  have hlevel := h.level side price
  rw [hq] at hlevel
  constructor
  case level =>
    intro side' price'
    change LevelWf _ ((Orderbook.putLevel _ _ _ _).level side' price') _
    rw [Orderbook.level_putLevel, BookOf.queue_setQueue, detach_pool]
    split_ifs with he
    · exact hlevel.remove
    · refine (h.level side' price').congr fun j hj => hlevel.remove_frame fun hj' => ?_
      exact he (h.level_unique (hq ▸ hj') hj)
  case full =>
    intro side' price' hf hnil
    by_cases he : side' = side ∧ price' = price
    · exact Or.inr he
    · change ((Orderbook.putLevel _ _ _ _).levels side').find? price' ≠ none at hf
      rw [Orderbook.find?_putLevel, if_neg he] at hf
      rw [BookOf.queue_setQueue, if_neg he] at hnil
      exact Or.inl (h.full side' price' hf hnil)
  case placed =>
    intro side' price' j hj
    obtain ⟨hj, hji⟩ := h.mem_without hq hj
    obtain ⟨hs, hp, hm⟩ := h.placed side' price' j hj
    rw [detach_pool, (hfields j).1, (hfields j).2.1, (hfields j).2.2.1, hmap, OrdMap.find?_erase]
    refine ⟨hs, hp, ?_⟩
    rw [if_neg, hm]
    exact fun hid => hji (h.slot_unique hj hi hid)
  case indexed =>
    intro id j hj
    rw [hmap, OrdMap.find?_erase] at hj
    split_ifs at hj with hid
    obtain ⟨hjd, hjq⟩ := h.indexed id j hj
    rw [detach_pool, (hfields j).1, (hfields j).2.1, (hfields j).2.2.1, BookOf.queue_setQueue]
    refine ⟨hjd, ?_⟩
    split_ifs with he
    · rw [he.1, he.2, hq] at hjq
      rcases List.mem_append.mp hjq with hjq | hjq
      · exact List.mem_append_left _ hjq
      · rcases List.mem_cons.mp hjq with rfl | hjq
        · exact absurd hjd.symm hid
        · exact List.mem_append_right _ hjq
    · exact hjq
  case spare_nodup =>
    rw [hfree, List.cons_append, List.nodup_cons]
    exact ⟨h.not_spare hi, h.spare_nodup⟩
  case spare_iff =>
    intro j
    have honly : ∀ id, s.orderMap.find? id = some i → id = (s.pool i).orderId := fun id hid =>
      (h.indexed id i hid).1.symm
    rw [hfree, List.cons_append, List.mem_cons, hmap, OrdMap.erase_avoids_iff hmi honly]
    constructor
    · rintro (rfl | hj)
      · exact ⟨h.bounded _ j hmi, Or.inl rfl⟩
      · obtain ⟨hlt, hm⟩ := (h.spare_iff j).mp hj
        exact ⟨hlt, Or.inr hm⟩
    · rintro ⟨hlt, rfl | hm⟩
      · exact Or.inl rfl
      · exact Or.inr ((h.spare_iff j).mpr ⟨hlt, hm⟩)
  case bounded =>
    intro id j hj
    rw [hmap, OrdMap.find?_erase] at hj
    split_ifs at hj
    exact h.bounded id j hj

/-- The detached order leaves its queue. -/
theorem view_detach :
    view (detach s side price i) (L.setQueue side price (is ++ js)) =
      (view s L).setQueue side price
        ((is.map fun j => resting (s.pool j)) ++ js.map fun j => resting (s.pool j)) := by
  have hunlinked : ∀ j, unlinked ((detach s side price i).pool j) = unlinked (s.pool j) := by
    intro j
    rw [detach_pool]
    exact dllRemove_unlinked _ _ _ _
  rw [view_unlinked hunlinked]
  apply BookOf.ext_queue
  intro side' price'
  rw [queue_view, BookOf.queue_setQueue, BookOf.queue_setQueue, queue_view]
  split_ifs <;> simp

/-- Erasing a level whose count is zero closes its hole. -/
theorem wf_eraseIfEmpty (h : Wf s held holes L) :
    Wf (s.eraseIfEmpty side price) held
      (fun side' price' => holes side' price' ∧ ¬(side' = side ∧ price' = price)) L := by
  rw [Orderbook.eraseIfEmpty]
  split_ifs with hempty
  · have hnil := (h.level side price).empty_iff.mp hempty
    refine { h with
      level := ?level
      full := ?full
      placed := ?placed
      indexed := ?indexed
      spare_nodup := ?spare_nodup
      spare_iff := ?spare_iff
      bounded := ?bounded }
    case level =>
      intro side' price'
      rw [Orderbook.level_eraseLevel]
      simp only [Orderbook.eraseLevel, Orderbook.setLevels_pool]
      split_ifs with he
      · rw [he.1, he.2, hnil]
        exact levelWf_nil _
      · exact h.level side' price'
    case full =>
      intro side' price' hf hq
      rw [Orderbook.find?_eraseLevel] at hf
      split_ifs at hf with he
      · exact absurd rfl hf
      · exact ⟨h.full side' price' hf hq, he⟩
    case placed =>
      simpa [Orderbook.eraseLevel] using h.placed
    case indexed =>
      simpa [Orderbook.eraseLevel] using h.indexed
    case spare_nodup =>
      simpa [Orderbook.eraseLevel] using h.spare_nodup
    case spare_iff =>
      simpa [Orderbook.eraseLevel] using h.spare_iff
    case bounded =>
      simpa [Orderbook.eraseLevel] using h.bounded
  · refine { h with full := fun side' price' hf hq => ⟨h.full side' price' hf hq, ?_⟩ }
    rintro ⟨rfl, rfl⟩
    exact hempty ((h.level side' price').empty_iff.mpr hq)

/-- Erasing an empty level leaves the pool alone. -/
@[simp] theorem eraseIfEmpty_pool (side : Side) (price : Price) :
    (s.eraseIfEmpty side price).pool = s.pool := by
  rw [Orderbook.eraseIfEmpty]
  split_ifs <;> simp [Orderbook.eraseLevel]

/-- Erasing an empty level changes no order. -/
theorem view_eraseIfEmpty : view (s.eraseIfEmpty side price) L = view s L :=
  view_congr fun _ _ j _ => by rw [eraseIfEmpty_pool]

end Unlink

end OrderbookEngine.SlotSteps
