import Mathlib.Data.List.Dedup
import OrderbookEngine.FokAgreement

/-!
# Cancelling many orders filters every queue

Each cancellation relinks its neighbours and may erase its level, but a list of
them keeps of every queue the orders that are not named, in their order. The
result does not depend on the order of the list, nor on the iteration order of
the hash map when the GoodForDay orders are cancelled.
-/

namespace OrderbookEngine.BulkCancels

open SortedMap MarketTypes PoolBook FeedCalls ReferenceBook LayoutInvariant ReferenceSteps
open CancelSimulation EngineSimulation RunRules Refinement BookState Additions FokAgreement

variable {n : ℕ} {s s' : Orderbook n} {e : RefEngine} {keep : Resting → Bool}

/-- Live identifiers of orders that fail a test. -/
def removedIds (keep : Resting → Bool) (s : Orderbook n) : List OrderId :=
  s.orderMap.keys.filter fun id => (order? s id).any fun r => !keep r.2.2

/-- The second state holds the orders of the first one that pass a test. -/
structure Filtered (keep : Resting → Bool) (s s' : Orderbook n) : Prop where
  /-- Every FIFO list keeps those orders as they are, in their order. -/
  fifo : ∀ side price, listing s' side price = (listing s side price).filter keep
  /-- A level is in its map exactly if an order is left in it. -/
  present : ∀ side price, (s'.levels side).find? price ≠ none ↔ listing s' side price ≠ []
  /-- Count and cached total of a level are those of the orders left. -/
  levels : ∀ side price lvl, (s'.levels side).find? price = some lvl →
    lvl.orderCount = (listing s' side price).length ∧
      lvl.totalQty = wrapSum ((listing s' side price).map Resting.quantity)
  /-- Look-up by identifier. -/
  live : ∀ id, order? s' id = (order? s id).filter fun r => keep r.2.2
  /-- The book loses the removed orders. -/
  size : s'.size + (removedIds keep s).length = s.size
  /-- Their slots are free. -/
  free : s'.poolFreeSlots = s.poolFreeSlots + (removedIds keep s).length

/-- Levels in the maps of a represented state. -/
theorem level_listing (h : Represents s e) (side : Side) (price : Price) :
    ((s.levels side).find? price ≠ none ↔ listing s side price ≠ []) ∧
      ∀ lvl, (s.levels side).find? price = some lvl →
        lvl.orderCount = (listing s side price).length ∧
          lvl.totalQty = wrapSum ((listing s side price).map Resting.quantity) := by
  rw [listing_eq h]
  obtain ⟨⟨L, hw, hbook⟩, -, -⟩ := h
  rw [hbook, queue_view, ne_eq (List.map _ _), List.map_eq_nil_iff]
  constructor
  · constructor
    · exact fun hf hnil => hw.full side price hf hnil
    · intro hne hf
      obtain ⟨i, hi⟩ := List.exists_mem_of_ne_nil _ hne
      rw [hw.present hi] at hf
      cases hf
  · intro lvl hf
    have hl := hw.level side price
    rw [Orderbook.level, hf] at hl
    exact ⟨by rw [List.length_map]; exact hl.count, by rw [List.map_map]; exact hl.total⟩

/-- Look-up in a filtered book. -/
theorem find?_filter {b : Book} (h : Distinct b) (id : OrderId) :
    Book.find? (b.filter keep) id = (b.find? id).filter fun r => keep r.2.2 := by
  ext r
  obtain ⟨side, price, o⟩ := r
  rw [Option.filter_eq_some_iff, find?_eq_some_iff h, find?_eq_some_iff (distinct_filter h keep),
    BookOf.queue_filter, List.mem_filter]
  exact and_right_comm

/-- The live orders are those in the hash map. -/
theorem mem_keys_iff_hasOrder (s : Orderbook n) (id : OrderId) :
    id ∈ s.orderMap.keys ↔ s.hasOrder id = true := by
  rw [OrdMap.mem_keys_iff, Orderbook.hasOrder, Option.isSome_iff_exists]

/-- A state that represents the filtered book is filtered. -/
theorem filtered_of_represents (h : Represents s e)
    (h' : Represents s' { e with book := e.book.filter keep }) : Filtered keep s s' := by
  have hlive : ∀ id, order? s' id = (order? s id).filter fun r => keep r.2.2 := by
    intro id
    rw [← order?_represents h, ← order?_represents h', find?_filter (distinct_represents h)]
  have hkeys : s'.orderMap.keys.Perm
      (s.orderMap.keys.filter fun id => !(order? s id).any fun r => !keep r.2.2) := by
    refine (List.perm_ext_iff_of_nodup s'.orderMap.keys_nodup
      (s.orderMap.keys_nodup.filter _)).mpr fun id => ?_
    rw [List.mem_filter, mem_keys_iff_hasOrder, mem_keys_iff_hasOrder, hasOrder_eq, hasOrder_eq,
      hlive]
    cases order? s id with
    | none => simp
    | some r => cases hk : keep r.2.2 <;> simp [Option.filter, hk]
  have hsize : s'.size + (removedIds keep s).length = s.size := by
    have hsplit := List.length_eq_length_filter_add (l := s.orderMap.keys)
      fun id => (order? s id).any fun r => !keep r.2.2
    have hlen := hkeys.length_eq
    simp only [OrdMap.keys, List.length_map] at hsplit hlen
    rw [Orderbook.size, Orderbook.size, OrdMap.size, OrdMap.size, removedIds, OrdMap.keys]
    omega
  have hfree : s'.poolFreeSlots = s.poolFreeSlots + (removedIds keep s).length := by
    have hadd := h.free_add
    have hadd' := h'.free_add
    rw [← h.size_eq] at hadd
    rw [← h'.size_eq] at hadd'
    omega
  exact
    { fifo := fun side price => by rw [listing_eq h, listing_eq h', BookOf.queue_filter]
      present := fun side price => (level_listing h' side price).1
      levels := fun side price => (level_listing h' side price).2
      live := hlive
      size := hsize
      free := hfree }

/-- The removed identifiers of a list are its live ones, each once. -/
theorem length_removedIds (h : Represents s e) (ids : List OrderId) :
    (removedIds (fun o => o.orderId ∉ ids) s).length = (ids.dedup.filter s.hasOrder).length := by
  refine ((List.perm_ext_iff_of_nodup (s.orderMap.keys_nodup.filter _)
    (ids.nodup_dedup.filter _)).mpr fun id => ?_).length_eq
  rw [List.mem_filter, List.mem_filter, mem_keys_iff_hasOrder, List.mem_dedup, hasOrder_eq]
  cases ho : order? s id with
  | none => simp
  | some r =>
    rw [← order?_represents h] at ho
    obtain ⟨side, price, o⟩ := r
    have hid : o.orderId = id := (find?_mem ho).2
    simp [hid]

/-- Cancelling a list of orders one by one keeps the others. -/
theorem cancelEach_filters (h : Represents s e) (ids : List OrderId) :
    ∃ s', Orderbook.cancelEach ids s = .ret () s' ∧
      Represents s' { e with book := e.book.filter fun o => o.orderId ∉ ids } := by
  obtain ⟨⟨L, hw, hbook⟩, hrules, hcap⟩ := h
  obtain ⟨s', L', hret, hw', hv', hset⟩ := cancelEach_simulates ids hw
  exact ⟨s', hret, ⟨L', hw', by rw [hv', hbook]⟩, hrules.trans (rules_of_settings hset).symm, hcap⟩

/-- A list of cancellations is a run of public calls. -/
theorem after_cancels (h : Represents s e) (ids : List OrderId)
    (hret : Orderbook.cancelEach ids s = .ret () s') :
    after s (ids.map .cancelOrder) = s' := by
  induction ids generalizing s e with
  | nil =>
    cases hret
    rfl
  | cons id ids ih =>
    obtain ⟨s₁, hone, hrep, -⟩ := cancelOrder_agrees h id
    have hperform : perform s (.cancelOrder id) = (.done, s₁) := by
      rw [perform, hone]
      rfl
    rw [Orderbook.cancelEach, hone, Outcome.ret_bind] at hret
    rw [List.map_cons, after_cons, hperform]
    exact ih hrep hret

/-- Cancelling a list of identifiers, in whatever order and with repeats and
unknown ones, removes the named orders and keeps the rest of the book; the
cancellation of the GoodForDay orders does so in any iteration order. -/
theorem cancels_filter (h : Reachable s) :
    (∀ ids : List OrderId, ∃ s', Orderbook.cancelEach ids s = .ret () s' ∧
        after s (ids.map .cancelOrder) = s' ∧ Filtered (fun o => o.orderId ∉ ids) s s' ∧
        s'.size + (ids.dedup.filter s.hasOrder).length = s.size ∧
        s'.poolFreeSlots = s.poolFreeSlots + (ids.dedup.filter s.hasOrder).length ∧
        ∀ ids' : List OrderId, ids'.Perm ids →
          ∃ s'', Orderbook.cancelEach ids' s = .ret () s'' ∧ SameListings s' s'' ∧
            observe s'' = observe s') ∧
      ∀ order : IterOrder, ∃ s', s.cancelGoodForDayOrders order = .ret () s' ∧
        Filtered (fun o => o.orderType ≠ .goodForDay) s s' := by
  obtain ⟨e, hrep⟩ := reachable_represents h
  constructor
  · intro ids
    obtain ⟨s', hret, hrep'⟩ := cancelEach_filters hrep ids
    have hfiltered := filtered_of_represents hrep hrep'
    have hsize := hfiltered.size
    have hfree := hfiltered.free
    rw [length_removedIds hrep] at hsize hfree
    refine ⟨s', hret, after_cancels hrep ids hret, hfiltered, hsize, hfree, fun ids' hperm => ?_⟩
    obtain ⟨s'', hret', hrep''⟩ := cancelEach_filters hrep ids'
    have hsame : (fun o : Resting => decide (o.orderId ∉ ids')) =
        fun o => decide (o.orderId ∉ ids) := by
      funext o
      simp only [hperm.mem_iff]
    rw [hsame] at hrep''
    refine ⟨s'', hret', sameListings hrep' hrep'' rfl, ?_⟩
    rw [observe_eq hrep', observe_eq hrep'']
  · intro order
    obtain ⟨s', hret, hrep', -⟩ := cancelGoodForDayOrders_agrees hrep order
    exact ⟨s', hret, filtered_of_represents hrep hrep'⟩

/-- Two bids at one price, the first for the day, and an ask. -/
def threeOrders : List Call :=
  [.addOrder .goodForDay 1 .buy 100 5, .addOrder .goodTillCancel 2 .buy 100 7,
    .addOrder .goodForDay 3 .sell 105 4]

/-- Cancellations among three orders. -/
theorem cancels_filter_threeOrders :
    (∃ s', Orderbook.cancelEach [3, 9, 3, 1] (after (create 4) threeOrders) = .ret () s' ∧
        Filtered (fun o => o.orderId ∉ [3, 9, 3, 1]) (after (create 4) threeOrders) s') ∧
      ∀ order : IterOrder, ∃ s',
        (after (create 4) threeOrders).cancelGoodForDayOrders order = .ret () s' ∧
          Filtered (fun o => o.orderType ≠ .goodForDay) (after (create 4) threeOrders) s' := by
  have h := cancels_filter (s := after (create 4) threeOrders) ⟨_, rfl⟩
  obtain ⟨s', hret, -, hfiltered, -⟩ := h.1 [3, 9, 3, 1]
  exact ⟨⟨s', hret, hfiltered⟩, h.2⟩

end OrderbookEngine.BulkCancels
