import OrderbookEngine.ReferenceSteps
import OrderbookEngine.SlotSteps

/-!
# Look-up, cancellation and change in place

The hash map and the queues in view agree on every identifier. A cancellation
detaches one slot, erases its level if it was the last and frees the slot; it
is the removal of one order from its queue. A change in place is a change of
one quantity in its queue.
-/

namespace OrderbookEngine.CancelSimulation

open SortedMap MarketTypes PoolBook ReferenceBook LayoutInvariant SlotSteps ReferenceSteps

variable {n : ℕ} {s : Orderbook n} {held : List (Fin n)} {holes : Side → Price → Prop}
  {L : Layout n}

section Lookup

/-- The orders in view have distinct identifiers. -/
theorem distinct_view (h : Wf s held holes L) : Distinct (view s L) where
  level := by
    intro side side' price price' o o' ho ho' hid
    rw [queue_view] at ho ho'
    obtain ⟨i, hi, rfl⟩ := List.mem_map.mp ho
    obtain ⟨j, hj, rfl⟩ := List.mem_map.mp ho'
    obtain rfl := h.slot_unique hi hj hid
    exact h.level_unique hi hj
  nodup := by
    intro side price
    rw [queue_view, List.map_map]
    refine (h.queue_nodup side price).map_on fun i hi j hj hid => ?_
    exact h.slot_unique hi hj hid

/-- An order in view is kept in a mapped slot. -/
theorem slot_of_view (h : Wf s held holes L) {side : Side} {price : Price} {o : Resting}
    (ho : o ∈ (view s L).queue side price) :
    ∃ i, resting (s.pool i) = o ∧ s.orderMap.find? (s.pool i).orderId = some i := by
  rw [queue_view] at ho
  obtain ⟨i, hi, hio⟩ := List.mem_map.mp ho
  exact ⟨i, hio, (h.placed side price i hi).2.2⟩

/-- The order that an identifier is mapped to. -/
theorem find?_view_of_some (h : Wf s held holes L) {id : OrderId} {i : Fin n}
    (hi : s.orderMap.find? id = some i) :
    (view s L).find? id = some ((s.pool i).side, (s.pool i).price, resting (s.pool i)) := by
  obtain ⟨hid, hmem⟩ := h.indexed id i hi
  rw [find?_eq_some_iff (distinct_view h), queue_view]
  exact ⟨List.mem_map_of_mem hmem, hid⟩

/-- An identifier that is not mapped has no order. -/
theorem find?_view_of_none (h : Wf s held holes L) {id : OrderId}
    (hn : s.orderMap.find? id = none) : (view s L).find? id = none := by
  rw [find?_eq_none_iff]
  intro side price o ho hid
  obtain ⟨i, rfl, hm⟩ := slot_of_view h ho
  have hid' : (s.pool i).orderId = id := hid
  rw [hid', hn] at hm
  cases hm

/-- The hash map and the queues hold the same identifiers. -/
theorem hasOrder_view (h : Wf s held holes L) (id : OrderId) :
    (view s L).hasOrder id = s.hasOrder id := by
  rw [Book.hasOrder, Orderbook.hasOrder]
  cases hm : s.orderMap.find? id with
  | none => rw [find?_view_of_none h hm]; rfl
  | some i => rw [find?_view_of_some h hm]; rfl

/-- The hash map and the queues lack the same identifiers. -/
theorem find?_view_eq_none_iff (h : Wf s held holes L) (id : OrderId) :
    (view s L).find? id = none ↔ s.orderMap.find? id = none := by
  have hsame := hasOrder_view h id
  rw [Book.hasOrder, Orderbook.hasOrder] at hsame
  rw [← Option.not_isSome_iff_eq_none, ← Option.not_isSome_iff_eq_none, hsame]

end Lookup

section Cancel

/-- Detaching a slot leaves the settings alone. -/
@[simp] theorem settings_detach (s : Orderbook n) (side : Side) (price : Price) (i : Fin n) :
    settings (detach s side price i) = settings s :=
  settings_unlink s side price i

/-- The level of a mapped slot is in its price map. -/
theorem find?_level_of_mapped (h : Wf s held holes L) {id : OrderId} {i : Fin n}
    (hi : s.orderMap.find? id = some i) :
    (s.levels (s.pool i).side).find? (s.pool i).price =
      some (s.level (s.pool i).side (s.pool i).price) :=
  h.present (h.indexed id i hi).2

/-- Erasing a level does not depend on the identifiers. -/
theorem eraseIfEmpty_withMap (s : Orderbook n) (side : Side) (price : Price)
    (m : OrdMap OrderId (Fin n) (· < ·)) :
    { s with orderMap := m }.eraseIfEmpty side price =
      { s.eraseIfEmpty side price with orderMap := m } := by
  have hlevel : { s with orderMap := m }.level side price = s.level side price := by
    cases side <;> rfl
  rw [Orderbook.eraseIfEmpty, Orderbook.eraseIfEmpty, hlevel]
  split_ifs
  · cases side <;> rfl
  · rfl

/-- Erasing a level leaves the identifiers alone. -/
@[simp] theorem eraseIfEmpty_orderMap (s : Orderbook n) (side : Side) (price : Price) :
    (s.eraseIfEmpty side price).orderMap = s.orderMap := by
  rw [Orderbook.eraseIfEmpty]
  split_ifs <;> simp [Orderbook.eraseLevel]

/-- Leave the level, the hash map and the slot. -/
def removeOrder (s : Orderbook n) (side : Side) (price : Price) (i : Fin n) : Orderbook n :=
  ((detach s side price i).eraseIfEmpty side price).free i

/-- Removing an order takes its slot out of its level. -/
theorem removeOrder_spec (h : Wf s held noHoles L) {side : Side} {price : Price} {i : Fin n}
    {is js : List (Fin n)} (hq : L.queue side price = is ++ i :: js) :
    Wf (removeOrder s side price i) held noHoles (L.setQueue side price (is ++ js)) ∧
      view (removeOrder s side price i) (L.setQueue side price (is ++ js)) =
        (view s L).setQueue side price
          ((is.map fun j => resting (s.pool j)) ++ js.map fun j => resting (s.pool j)) := by
  constructor
  · refine (wf_free (wf_eraseIfEmpty (wf_detach h hq))).mono ?_
    rintro side' price' ⟨hf | he, hne⟩
    · exact hf.elim
    · exact hne he
  · rw [← view_detach]
    exact view_eraseIfEmpty

/-- Removing an order changes no other order. -/
theorem removeOrder_unlinked (s : Orderbook n) (side : Side) (price : Price) (i j : Fin n) :
    unlinked ((removeOrder s side price i).pool j) = unlinked (s.pool j) := by
  have hpool : (removeOrder s side price i).pool =
      (dllRemove s.pool (s.level side price) i).1 := by
    simp [removeOrder, Orderbook.free, detach, Orderbook.unlink]
  rw [hpool]
  exact dllRemove_unlinked _ _ _ _

/-- The slots of a queue around one slot, as the queue in view. -/
theorem queue_view_split {side : Side} {price : Price} {i : Fin n} {is js : List (Fin n)}
    (hq : L.queue side price = is ++ i :: js) : (view s L).queue side price =
      (is.map fun j => resting (s.pool j)) ++
        resting (s.pool i) :: js.map fun j => resting (s.pool j) := by
  rw [queue_view, hq, List.map_append, List.map_cons]

/-- A cancellation never fails and removes the order from its queue. -/
theorem cancelOrder_simulates (h : Wf s [] noHoles L) (id : OrderId) :
    ∃ s' L', s.cancelOrder id = .ret () s' ∧ Wf s' [] noHoles L' ∧
      view s' L' = (view s L).cancel id ∧ settings s' = settings s := by
  rw [Orderbook.cancelOrder]
  cases hm : s.orderMap.find? id with
  | none => exact ⟨s, L, rfl, h, (cancel_of_find?_none (find?_view_of_none h hm)).symm, rfl⟩
  | some i =>
    obtain ⟨hid, hmem⟩ := h.indexed id i hm
    obtain ⟨is, js, hq⟩ := List.append_of_mem hmem
    obtain ⟨hw, hv⟩ := removeOrder_spec h hq
    simp only [find?_level_of_mapped h hm]
    have heq : { ((s.unlink (s.pool i).side (s.pool i).price i).eraseIfEmpty (s.pool i).side
        (s.pool i).price).free i with orderMap := s.orderMap.erase id } =
        removeOrder s (s.pool i).side (s.pool i).price i := by
      have hswap := eraseIfEmpty_withMap (s.unlink (s.pool i).side (s.pool i).price i)
        (s.pool i).side (s.pool i).price (s.orderMap.erase id)
      rw [removeOrder, detach, hid, hswap]
      rfl
    have hcancel := cancel_eq_setQueue (distinct_view h) (queue_view_split hq) hid
    refine ⟨removeOrder s (s.pool i).side (s.pool i).price i, _, ?_, hw, hv.trans hcancel.symm, ?_⟩
    · rw [← heq]
      simp [Orderbook.free, Orderbook.unlink]
    · simp only [removeOrder, settings_free, settings_eraseIfEmpty, settings_detach]

end Cancel

section Requantify

/-- Writing the quantity of a mapped slot changes one quantity in view. -/
theorem setQuantity_simulates (h : Wf s held holes L) {id : OrderId} {i : Fin n}
    (hi : s.orderMap.find? id = some i) (qty : Quantity) :
    Wf (setQuantity s (s.pool i).side (s.pool i).price i qty) held holes L ∧
      view (setQuantity s (s.pool i).side (s.pool i).price i qty) L =
        (view s L).requantify id qty := by
  obtain ⟨hid, hmem⟩ := h.indexed id i hi
  obtain ⟨is, js, hq⟩ := List.append_of_mem hmem
  refine ⟨wf_setQuantity h hq qty, ?_⟩
  rw [requantify_eq_setQueue (distinct_view h) (queue_view_split hq) hid, view_setQuantity h hq]

/-- Changing a quantity leaves the settings alone. -/
@[simp] theorem settings_setQuantity (s : Orderbook n) (side : Side) (price : Price) (i : Fin n)
    (qty : Quantity) : settings (setQuantity s side price i qty) = settings s :=
  settings_putLevel s side price _

end Requantify

section CancelEach

/-- Cancelling one by one removes the orders with the given identifiers. -/
theorem cancelEach_simulates (ids : List OrderId) (h : Wf s [] noHoles L) :
    ∃ s' L', Orderbook.cancelEach ids s = .ret () s' ∧ Wf s' [] noHoles L' ∧
      view s' L' = (view s L).filter (fun o => o.orderId ∉ ids) ∧ settings s' = settings s := by
  induction ids generalizing s L with
  | nil =>
    refine ⟨s, L, rfl, h, ?_, rfl⟩
    apply BookOf.ext_queue
    intro side price
    simp
  | cons id ids ih =>
    obtain ⟨s₁, L₁, hret, hw, hv, hset⟩ := cancelOrder_simulates h id
    obtain ⟨s', L', hret', hw', hv', hset'⟩ := ih hw
    refine ⟨s', L', by rw [Orderbook.cancelEach, hret, Outcome.ret_bind, hret'], hw', ?_,
      hset'.trans hset⟩
    rw [hv', hv, Book.cancel, BookOf.filter_filter]
    refine BookOf.filter_congr fun side price o _ => ?_
    simp only [List.mem_cons, not_or, Bool.decide_and, ne_eq, decide_not]

/-- An iteration visits exactly the entries of the hash map. -/
theorem mem_iterate (s : Orderbook n) (order : IterOrder) (id : OrderId) (i : Fin n) :
    (id, i) ∈ s.iterate order ↔ s.orderMap.find? id = some i := by
  simp only [Orderbook.iterate, List.mem_filterMap, Option.map_eq_some_iff, Prod.mk.injEq]
  constructor
  · rintro ⟨_, _, _, hf, rfl, rfl⟩
    exact hf
  · intro hf
    refine ⟨id, ?_, i, hf, rfl, rfl⟩
    rw [(order.perm _).mem_iff, OrdMap.mem_keys_iff]
    exact ⟨i, hf⟩

/-- Cancelling the GoodForDay orders does not depend on the iteration order. -/
theorem cancelGoodForDayOrders_simulates (h : Wf s [] noHoles L) (order : IterOrder) :
    ∃ s' L', s.cancelGoodForDayOrders order = .ret () s' ∧ Wf s' [] noHoles L' ∧
      view s' L' = (view s L).filter (fun o => o.orderType ≠ .goodForDay) ∧
      settings s' = settings s := by
  obtain ⟨s', L', hret, hw, hv, hset⟩ := cancelEach_simulates
    (((s.iterate order).filter fun e => (s.pool e.2).orderType = .goodForDay).map Prod.fst) h
  refine ⟨s', L', hret, hw, hv.trans (BookOf.filter_congr fun side price o ho => ?_), hset⟩
  obtain ⟨i, rfl, hm⟩ := slot_of_view h ho
  rw [decide_eq_decide]
  change ¬(s.pool i).orderId ∈ _ ↔ ¬(s.pool i).orderType = _
  refine not_congr ?_
  rw [List.mem_map]
  constructor
  · rintro ⟨⟨id, j⟩, he, hid⟩
    obtain ⟨hit, htype⟩ := List.mem_filter.mp he
    rw [mem_iterate] at hit
    cases hid
    rw [hm] at hit
    cases hit
    simpa using htype
  · intro htype
    refine ⟨((s.pool i).orderId, i), List.mem_filter.mpr ⟨?_, by simpa using htype⟩, rfl⟩
    exact (mem_iterate s order _ i).mpr hm

/-- Cancelling every order leaves the empty book. -/
theorem cancelAll_simulates (h : Wf s [] noHoles L) (order : IterOrder) :
    ∃ s' L', Orderbook.cancelEach ((s.iterate order).map Prod.fst) s = .ret () s' ∧
      Wf s' [] noHoles L' ∧ view s' L' = BookOf.empty ∧ settings s' = settings s := by
  obtain ⟨s', L', hret, hw, hv, hset⟩ :=
    cancelEach_simulates ((s.iterate order).map Prod.fst) h
  refine ⟨s', L', hret, hw, hv.trans ?_, hset⟩
  apply BookOf.ext_queue
  intro side price
  rw [BookOf.queue_filter, BookOf.queue_empty, List.filter_eq_nil_iff]
  intro o ho
  obtain ⟨i, rfl, hm⟩ := slot_of_view h ho
  simp only [decide_eq_true_eq, not_not]
  exact List.mem_map.mpr ⟨((s.pool i).orderId, i), (mem_iterate s order _ i).mpr hm, rfl⟩

end CancelEach

end OrderbookEngine.CancelSimulation
