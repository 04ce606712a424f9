import OrderbookEngine.Refinement

/-!
# What every reachable state looks like

The free list and the hash map split the pool, every level is a doubly linked
list of the orders at its price, and the lists together are the live orders.
The reported depth is compared with a scan of all live orders.
-/

namespace OrderbookEngine.BookState

open SortedMap LinkedSlots MarketTypes PoolBook FeedCalls ReferenceBook LayoutInvariant
open CancelSimulation EngineSimulation RunRules

variable {n : ℕ} {s : Orderbook n} {held : List (Fin n)} {holes : Side → Price → Prop}
  {L : Layout n}

section Invariant

/-- A level of a price map and the slots that walking it visits. -/
structure SoundLevel (s : Orderbook n) (side : Side) (price : Price) (lvl : PriceLevel n)
    (is : List (Fin n)) : Prop where
  /-- A level in the map has orders. -/
  nonempty : is ≠ []
  /-- No slot is listed twice. -/
  nodup : is.Nodup
  /-- Following next from the head. -/
  forward : Walk (fun i => (s.pool i).next) lvl.head is none
  /-- Following prev from the tail. -/
  backward : Walk (fun i => (s.pool i).prev) lvl.tail is.reverse none
  /-- The count is the number of slots. -/
  count : lvl.orderCount = is.length
  /-- The orders name the level they are in. -/
  placed : ∀ i ∈ is, (s.pool i).side = side ∧ (s.pool i).price = price
  /-- The cached total is the exact sum modulo 2^32. -/
  total : lvl.totalQty.toNat = (is.map fun i => (s.pool i).quantity.toNat).sum % 2 ^ 32

/-- The representation invariant of the engine for the slots of its levels. -/
structure RepInv (s : Orderbook n) (slotsAt : Side → Price → List (Fin n)) : Prop where
  /-- Free slots and mapped slots are the pool, each slot once. -/
  partition : (s.freeList ++ s.orderMap.entries.map Prod.snd).Perm (List.finRange n)
  /-- As many slots are used as orders are live. -/
  used : s.poolUsed = s.size
  /-- Every level in the map lists its slots. -/
  sound : ∀ side price lvl, (s.levels side).find? price = some lvl →
    SoundLevel s side price lvl (slotsAt side price)
  /-- A level that is not in the map lists none. -/
  absent : ∀ side price, (s.levels side).find? price = none → slotsAt side price = []
  /-- No slot is in two levels. -/
  disjoint : ∀ side side' price price' i, i ∈ slotsAt side price → i ∈ slotsAt side' price' →
    side' = side ∧ price' = price
  /-- The listed slots are the mapped slots. -/
  union : ∀ i, (∃ side price, i ∈ slotsAt side price) ↔ ∃ id, s.orderMap.find? id = some i
  /-- A listed slot is mapped under the identifier it holds. -/
  index : ∀ side price i, i ∈ slotsAt side price → s.orderMap.find? (s.pool i).orderId = some i
  /-- An identifier rests at most once. -/
  once : ∀ side side' price price' i j, i ∈ slotsAt side price → j ∈ slotsAt side' price' →
    (s.pool i).orderId = (s.pool j).orderId → i = j

/-- A cached total is the exact one modulo 2^32. -/
theorem toNat_wrapSum_slots (pool : Pool n) (is : List (Fin n)) :
    (wrapSum (is.map fun i => (pool i).quantity)).toNat =
      (is.map fun i => (pool i).quantity.toNat).sum % 2 ^ 32 := by
  rw [toNat_wrapSum, List.map_map]
  rfl

/-- A level in its map is sound. -/
theorem soundLevel (h : Wf s held noHoles L) {side : Side} {price : Price} {lvl : PriceLevel n}
    (hf : (s.levels side).find? price = some lvl) :
    SoundLevel s side price lvl (L.queue side price) := by
  have hl := h.level side price
  rw [Orderbook.level, hf] at hl
  exact {
    nonempty := fun hnil => h.full side price (by simp [hf]) hnil
    nodup := hl.list.nodup
    forward := hl.list.forward
    backward := hl.list.backward
    count := hl.count
    placed := fun i hi => ⟨(h.placed side price i hi).1, (h.placed side price i hi).2.1⟩
    total := by rw [← toNat_wrapSum_slots]; exact congrArg _ hl.total }

/-- A layout gives the invariant on the engine's own fields. -/
theorem repInv_of_wf (hn : n < 2 ^ 31) (h : Wf s [] noHoles L) : RepInv s L.queue := by
  have hperm : (s.freeList ++ s.orderMap.entries.map Prod.snd).Perm (List.finRange n) := by
    have hslots := h.slots_perm
    rw [List.nil_append, slotCount_of_lt hn, List.take_of_length_le (by simp)] at hslots
    exact (h.mapped_perm.append_left _).trans (List.perm_append_comm.trans hslots)
  have hused : s.poolUsed = s.size := by
    have hadd := h.size_add
    have hsize := h.size_eq
    rw [List.length_nil, slotCount_of_lt hn] at hadd
    rw [Orderbook.poolUsed, Orderbook.poolCapacity, Orderbook.poolFreeSlots]
    omega
  exact {
    partition := hperm
    used := hused
    sound := fun side price lvl hf => soundLevel h hf
    absent := fun side price hf => by
      have hl := h.level side price
      rw [Orderbook.level, hf] at hl
      exact levelWf_default hl
    disjoint := fun side side' price price' i hi hi' => h.level_unique hi hi'
    union := fun i => by rw [← mem_slots]; exact h.mem_slots_iff
    index := fun side price i hi => (h.placed side price i hi).2.2
    once := fun side side' price price' i j hi hj hid => h.slot_unique hi hj hid }

/-- Every reachable state satisfies the representation invariant. -/
theorem reachable_repInv (hn : n < 2 ^ 31) (h : Reachable s) : ∃ slotsAt, RepInv s slotsAt := by
  obtain ⟨e, ⟨L, hw, -⟩, -, -⟩ := reachable_represents h
  exact ⟨L.queue, repInv_of_wf hn hw⟩

/-- A full pool of two after a refused third order. -/
theorem reachable_repInv_full : ∃ slotsAt, RepInv (after (create 2)
    [.addOrder .goodTillCancel 1 .buy 100 5, .addOrder .goodForDay 2 .buy 100 7,
      .addOrder .goodTillCancel 3 .sell 105 1]) slotsAt :=
  reachable_repInv (by decide) ⟨_, rfl⟩

end Invariant

section Fifo

/-- The slots that following next from a link visits. -/
def follow (pool : Pool n) : ℕ → Option (Fin n) → List (Fin n)
  | 0, _ => []
  | _, none => []
  | fuel + 1, some i => i :: follow pool fuel (pool i).next

/-- The FIFO list of a level. -/
def fifo (s : Orderbook n) (side : Side) (price : Price) : List (Fin n) :=
  follow s.pool n (s.level side price).head

/-- Enough fuel walks a whole list. -/
theorem follow_eq {pool : Pool n} {start : Option (Fin n)} {is : List (Fin n)}
    (h : Walk (fun i => (pool i).next) start is none) {fuel : ℕ} (hlen : is.length ≤ fuel) :
    follow pool fuel start = is := by
  induction is generalizing start fuel with
  | nil =>
    obtain rfl : start = none := h
    cases fuel <;> rfl
  | cons i is ih =>
    obtain ⟨rfl, hwalk⟩ := h
    cases fuel with
    | zero => simp at hlen
    | succ fuel => rw [follow, ih hwalk (by simpa using hlen)]

/-- The FIFO lists are the queues of the layout. -/
theorem fifo_eq (h : Wf s held holes L) (side : Side) (price : Price) :
    fifo s side price = L.queue side price :=
  follow_eq (h.level side price).list.forward (h.queue_length_le side price)

/-- A live order with its side and price. -/
def order? (s : Orderbook n) (id : OrderId) : Option (Side × Price × Resting) :=
  (s.orderMap.find? id).map fun i => ((s.pool i).side, (s.pool i).price, resting (s.pool i))

/-- Look-up through the hash map finds the orders in view. -/
theorem find?_view (h : Wf s held holes L) (id : OrderId) : (view s L).find? id = order? s id := by
  rw [order?]
  cases hm : s.orderMap.find? id with
  | none => exact find?_view_of_none h hm
  | some i => exact find?_view_of_some h hm

/-- An order is live if it can be looked up. -/
theorem hasOrder_eq (s : Orderbook n) (id : OrderId) : s.hasOrder id = (order? s id).isSome := by
  rw [Orderbook.hasOrder, order?, Option.isSome_map]

/-- The slots of a sound level, found by walking it. -/
theorem SoundLevel.follow_eq {side : Side} {price : Price} {lvl : PriceLevel n}
    {is : List (Fin n)} (h : SoundLevel s side price lvl is) : follow s.pool n lvl.head = is :=
  BookState.follow_eq h.forward (length_le_of_nodup h.nodup)

/-- The layout that walking the levels of an engine finds. -/
def walkedSide {slotsAt : Side → Price → List (Fin n)} (h : RepInv s slotsAt) (side : Side) :
    Buckets Price (Fin n) side.before where
  map := (s.levels side).mapVal fun lvl => follow s.pool n lvl.head
  nonempty := by
    intro e he
    obtain ⟨⟨price, lvl⟩, hmem, rfl⟩ := List.mem_map.mp he
    have hsound := h.sound side price lvl ((OrdMap.find?_eq_some_iff _ _ _).mpr hmem)
    dsimp only
    rw [hsound.follow_eq]
    exact hsound.nonempty

/-- Both sides of that layout. -/
def walkedLayout {slotsAt : Side → Price → List (Fin n)} (h : RepInv s slotsAt) : Layout n :=
  ⟨walkedSide h .buy, walkedSide h .sell⟩

/-- The slots of a level are those found by walking it. -/
theorem queue_walkedLayout {slotsAt : Side → Price → List (Fin n)} (h : RepInv s slotsAt)
    (side : Side) (price : Price) : (walkedLayout h).queue side price = slotsAt side price := by
  have hside : (walkedLayout h).side side = walkedSide h side := by cases side <;> rfl
  rw [BookOf.queue, hside, Buckets.queue, walkedSide, OrdMap.find?_mapVal]
  cases hf : (s.levels side).find? price with
  | none => exact (h.absent side price hf).symm
  | some lvl => exact (h.sound side price lvl hf).follow_eq

/-- A slot is mapped under one identifier. -/
theorem RepInv.mapped_unique {slotsAt : Side → Price → List (Fin n)} (h : RepInv s slotsAt)
    {id id' : OrderId} {i : Fin n} (hid : s.orderMap.find? id = some i)
    (hid' : s.orderMap.find? id' = some i) : id = id' := by
  have hnodup := (h.partition.nodup_iff.mpr (List.nodup_finRange n)).sublist
    (List.sublist_append_right _ _)
  exact congrArg Prod.fst (List.inj_on_of_nodup_map hnodup
    ((s.orderMap.find?_eq_some_iff _ _).mp hid) ((s.orderMap.find?_eq_some_iff _ _).mp hid') rfl)

/-- The invariant on the engine's own fields gives a layout. -/
theorem RepInv.wf {slotsAt : Side → Price → List (Fin n)} (hn : n < 2 ^ 31)
    (h : RepInv s slotsAt) : Wf s [] noHoles (walkedLayout h) := by
  have hfind : ∀ {side price i}, i ∈ slotsAt side price →
      ∃ lvl, (s.levels side).find? price = some lvl := by
    intro side price i hi
    cases hf : (s.levels side).find? price with
    | none => rw [h.absent side price hf] at hi; cases hi
    | some lvl => exact ⟨lvl, rfl⟩
  have hmapped : ∀ i, i ∈ s.orderMap.entries.map Prod.snd ↔ ∃ id, s.orderMap.find? id = some i := by
    intro i
    simp only [List.mem_map, Prod.exists, OrdMap.find?_eq_some_iff, exists_eq_right]
  have hnodup := h.partition.nodup_iff.mpr (List.nodup_finRange n)
  rw [List.nodup_append] at hnodup
  exact {
    level := fun side price => by
      rw [queue_walkedLayout, Orderbook.level]
      cases hf : (s.levels side).find? price with
      | none =>
        rw [h.absent side price hf]
        exact levelWf_nil s.pool
      | some lvl =>
        have hsound := h.sound side price lvl hf
        refine ⟨⟨hsound.forward, hsound.backward⟩, hsound.count, ?_⟩
        rw [Option.getD_some, ← UInt32.toNat_inj, toNat_wrapSum_slots]
        exact hsound.total
    full := fun side price hf hq => by
      obtain ⟨lvl, hlvl⟩ := Option.ne_none_iff_exists'.mp hf
      rw [queue_walkedLayout] at hq
      exact absurd hq (h.sound side price lvl hlvl).nonempty
    placed := fun side price i hi => by
      rw [queue_walkedLayout] at hi
      obtain ⟨lvl, hlvl⟩ := hfind hi
      obtain ⟨hside, hprice⟩ := (h.sound side price lvl hlvl).placed i hi
      exact ⟨hside, hprice, h.index side price i hi⟩
    indexed := fun id i hm => by
      obtain ⟨side, price, hi⟩ := (h.union i).mpr ⟨id, hm⟩
      obtain ⟨lvl, hlvl⟩ := hfind hi
      obtain ⟨hside, hprice⟩ := (h.sound side price lvl hlvl).placed i hi
      rw [queue_walkedLayout, hside, hprice]
      exact ⟨h.mapped_unique (h.index side price i hi) hm, hi⟩
    spare_nodup := hnodup.1
    spare_iff := fun i => by
      rw [List.nil_append, slotCount_of_lt hn, ← not_exists, ← hmapped]
      constructor
      · exact fun hi => ⟨i.isLt, fun hi' => hnodup.2.2 i hi i hi' rfl⟩
      · rintro ⟨-, hi⟩
        have hmem := h.partition.mem_iff.mpr (List.mem_finRange i)
        exact (List.mem_append.mp hmem).resolve_right hi
    bounded := fun id i _ => by
      rw [slotCount_of_lt hn]
      exact i.isLt }

/-- The invariant read from the state and the invariant for a layout say the same. -/
theorem repInv_iff_wf (hn : n < 2 ^ 31) :
    (∃ slotsAt, RepInv s slotsAt) ↔ ∃ L, Wf s [] noHoles L :=
  ⟨fun ⟨_, h⟩ => ⟨_, h.wf hn⟩, fun ⟨_, h⟩ => ⟨_, repInv_of_wf hn h⟩⟩

/-- The orders of a level in FIFO order. -/
def listing (s : Orderbook n) (side : Side) (price : Price) : List Resting :=
  (fifo s side price).map fun i => resting (s.pool i)

/-- The listing of a level is the queue of the reference engine. -/
theorem listing_eq {e : RefEngine} (h : Represents s e) (side : Side) (price : Price) :
    listing s side price = e.book.queue side price := by
  obtain ⟨⟨L, hw, hbook⟩, -, -⟩ := h
  rw [listing, fifo_eq hw, hbook, queue_view]

/-- Two states with the same price maps, FIFO lists, identifiers and free slots. -/
structure SameBook (s s' : Orderbook n) : Prop where
  /-- Same levels of bids. -/
  bids : s'.bids = s.bids
  /-- Same levels of asks. -/
  asks : s'.asks = s.asks
  /-- Same identifiers with the same slots. -/
  orderMap : s'.orderMap = s.orderMap
  /-- Same free slots in the same sequence. -/
  freeList : s'.freeList = s.freeList
  /-- Same slots in every level. -/
  fifo : ∀ side price, fifo s' side price = fifo s side price
  /-- Every listed order is the same, its quantity and links included. -/
  orders : ∀ side price, ∀ i ∈ BookState.fifo s side price, s'.pool i = s.pool i

/-- A book is the same as itself. -/
theorem SameBook.refl (s : Orderbook n) : SameBook s s :=
  ⟨rfl, rfl, rfl, rfl, fun _ _ => rfl, fun _ _ _ _ => rfl⟩

/-- States with the same book have the same live orders. -/
theorem SameBook.order?_eq {s' : Orderbook n} (hsame : SameBook s s') (h : Wf s held holes L)
    (id : OrderId) : order? s' id = order? s id := by
  rw [order?, order?, hsame.orderMap]
  cases hm : s.orderMap.find? id with
  | none => rfl
  | some i =>
    have hi := (h.indexed id i hm).2
    rw [← fifo_eq h] at hi
    rw [Option.map_some, Option.map_some, hsame.orders _ _ i hi]

end Fifo

section Depth

/-- Some live order rests at a side and price. -/
def RestsAt (s : Orderbook n) (side : Side) (price : Price) : Prop :=
  ∃ id i, s.orderMap.find? id = some i ∧ (s.pool i).side = side ∧ (s.pool i).price = price

instance (s : Orderbook n) (side : Side) (price : Price) : Decidable (RestsAt s side price) :=
  decidable_of_iff (∃ e ∈ s.orderMap.entries, (s.pool e.2).side = side ∧ (s.pool e.2).price = price)
    ⟨fun ⟨e, he, hat⟩ => ⟨e.1, e.2, (s.orderMap.find?_eq_some_iff _ _).mpr he, hat⟩,
      fun ⟨id, i, hid, hat⟩ => ⟨(id, i), (s.orderMap.find?_eq_some_iff _ _).mp hid, hat⟩⟩

/-- Exact quantity at a side and price, by a scan of all live orders. -/
def scanTotal (s : Orderbook n) (side : Side) (price : Price) : ℕ :=
  ((s.orderMap.entries.filter fun e =>
    (s.pool e.2).side = side ∧ (s.pool e.2).price = price).map fun e =>
      (s.pool e.2).quantity.toNat).sum

/-- Reported levels in strict price order, one for each price with live orders,
with their exact quantity. -/
structure TrueDepth (s : Orderbook n) (side : Side) (infos : List LevelInfo) : Prop where
  /-- Levels come best first, each price once. -/
  sorted : infos.Pairwise fun a b => side.before a.price b.price
  /-- Reported are the levels where something rests, with exact totals. -/
  exact : ∀ price q, (∃ info ∈ infos, info.price = price ∧ info.quantity.toNat = q) ↔
    RestsAt s side price ∧ scanTotal s side price = q

/-- Something rests at a level that has slots. -/
theorem restsAt_iff (h : Wf s held holes L) (side : Side) (price : Price) :
    RestsAt s side price ↔ L.queue side price ≠ [] := by
  constructor
  · rintro ⟨id, i, hid, rfl, rfl⟩
    exact List.ne_nil_of_mem (h.indexed id i hid).2
  · intro hne
    obtain ⟨i, hi⟩ := List.exists_mem_of_ne_nil _ hne
    obtain ⟨hs, hp, hm⟩ := h.placed side price i hi
    exact ⟨_, i, hm, hs, hp⟩

/-- The scan sums the queue. -/
theorem scanTotal_eq (h : Wf s held holes L) (side : Side) (price : Price) :
    scanTotal s side price = ((L.queue side price).map fun i => (s.pool i).quantity.toNat).sum := by
  have hperm : ((s.orderMap.entries.filter fun e =>
      (s.pool e.2).side = side ∧ (s.pool e.2).price = price).map Prod.snd).Perm
        (L.queue side price) := by
    refine (List.perm_ext_iff_of_nodup ?_ (h.queue_nodup side price)).mpr fun i => ?_
    · exact (h.mapped_perm.nodup_iff.mpr h.slots_nodup).sublist
        ((List.filter_sublist).map Prod.snd)
    · rw [List.mem_map]
      constructor
      · rintro ⟨⟨id, j⟩, he, rfl⟩
        obtain ⟨hmem, hat⟩ := List.mem_filter.mp he
        obtain ⟨rfl, rfl⟩ := of_decide_eq_true hat
        exact (h.indexed id j ((s.orderMap.find?_eq_some_iff _ _).mpr hmem)).2
      · intro hi
        obtain ⟨hs, hp, hm⟩ := h.placed side price i hi
        refine ⟨((s.pool i).orderId, i), List.mem_filter.mpr ⟨?_, by simp [hs, hp]⟩, rfl⟩
        exact (s.orderMap.find?_eq_some_iff _ _).mp hm
  rw [scanTotal, ← (hperm.map fun i => (s.pool i).quantity.toNat).sum_eq, List.map_map]
  rfl

/-- The reported levels are those whose total does not vanish modulo 2^32. -/
theorem mem_levelInfos (h : Wf s held noHoles L) (side : Side) (info : LevelInfo) :
    info ∈ Orderbook.levelInfos (s.levels side).entries ↔
      RestsAt s side info.price ∧ 0 < info.quantity.toNat ∧
        info.quantity.toNat = scanTotal s side info.price % 2 ^ 32 := by
  rw [restsAt_iff h, scanTotal_eq h, Orderbook.levelInfos, List.mem_filterMap]
  constructor
  · rintro ⟨⟨price, lvl⟩, he, hif⟩
    have hf := ((s.levels side).find?_eq_some_iff price lvl).mpr he
    have hl := soundLevel h hf
    dsimp only at hif
    split_ifs at hif with hpos
    cases hif
    exact ⟨hl.nonempty, UInt32.lt_iff_toNat_lt.mp hpos, hl.total⟩
  · rintro ⟨hne, hpos, heq⟩
    obtain ⟨i, hi⟩ := List.exists_mem_of_ne_nil _ hne
    have hf := h.present hi
    have hl := soundLevel h hf
    have hq : (s.level side info.price).totalQty = info.quantity := by
      rw [← UInt32.toNat_inj, hl.total, heq]
    refine ⟨(info.price, s.level side info.price),
      ((s.levels side).find?_eq_some_iff _ _).mp hf, ?_⟩
    rw [hq, if_pos (show 0 < info.quantity from UInt32.lt_iff_toNat_lt.mpr hpos)]

/-- Levels are reported best first, each price once. -/
theorem levelInfos_sorted (s : Orderbook n) (side : Side) :
    (Orderbook.levelInfos (s.levels side).entries).Pairwise
      fun a b => side.before a.price b.price := by
  refine List.Pairwise.filterMap _ ?_ (s.levels side).sorted
  intro e e' hlt info hinfo info' hinfo'
  split_ifs at hinfo hinfo'
  cases hinfo
  cases hinfo'
  exact hlt

/-- One side of the reported depth is true exactly when no total of the side
vanishes or exceeds 32 bits. -/
theorem trueDepth_iff (h : Wf s held noHoles L) (side : Side) :
    TrueDepth s side (Orderbook.levelInfos (s.levels side).entries) ↔
      ∀ price, RestsAt s side price →
        0 < scanTotal s side price ∧ scanTotal s side price < 2 ^ 32 := by
  constructor
  · intro hd price hr
    obtain ⟨info, hmem, rfl, hq⟩ := (hd.exact price _).mpr ⟨hr, rfl⟩
    have hpos := ((mem_levelInfos h side info).mp hmem).2.1
    have hlt := info.quantity.toNat_lt
    omega
  · intro hall
    refine ⟨levelInfos_sorted s side, fun price q => ?_⟩
    constructor
    · rintro ⟨info, hmem, rfl, rfl⟩
      obtain ⟨hr, -, heq⟩ := (mem_levelInfos h side info).mp hmem
      have hlt := (hall _ hr).2
      exact ⟨hr, by omega⟩
    · rintro ⟨hr, rfl⟩
      obtain ⟨hpos, hlt⟩ := hall price hr
      refine ⟨⟨price, UInt32.ofNat (scanTotal s side price)⟩, ?_, rfl, ?_⟩
      · rw [mem_levelInfos h]
        rw [UInt32.toNat_ofNat']
        exact ⟨hr, by omega, rfl⟩
      · rw [UInt32.toNat_ofNat']
        exact Nat.mod_eq_of_lt hlt

/-- Rules without an upper bound on quantities. -/
def largeOrders : ExchangeRules := { maxQuantity := 0xFFFFFFFF }

/-- Two bids at one price with 2^32 units in total. -/
def wrappedLevel : List Call :=
  [.setExchangeRules largeOrders (by decide), .addOrder .goodTillCancel 1 .buy 100 0xFFFFFFFF,
    .addOrder .goodTillCancel 2 .buy 100 1]

/-- The level of 2^32 units is missing from the reported depth. -/
theorem wrappedLevel_dropped : Reachable (after (create 2) wrappedLevel) ∧
    ¬(TrueDepth (after (create 2) wrappedLevel) .buy
        (after (create 2) wrappedLevel).getOrderInfos.bids ∧
      TrueDepth (after (create 2) wrappedLevel) .sell
        (after (create 2) wrappedLevel).getOrderInfos.asks) := by
  refine ⟨⟨_, rfl⟩, fun ⟨hbids, _⟩ => ?_⟩
  have hrests : RestsAt (after (create 2) wrappedLevel) .buy 100 := ⟨1, 0, by decide +kernel⟩
  obtain ⟨info, hmem, -⟩ := (hbids.exact 100 _).mpr ⟨hrests, rfl⟩
  have hnone : (after (create 2) wrappedLevel).getOrderInfos.bids = [] := by decide +kernel
  rw [hnone] at hmem
  cases hmem

/-- The reported depth is true exactly when every price with live orders holds
between 1 and 2^32 - 1 units. -/
theorem depth_true_iff (h : Reachable s) :
    (TrueDepth s .buy s.getOrderInfos.bids ∧ TrueDepth s .sell s.getOrderInfos.asks) ↔
      ∀ side price, RestsAt s side price →
        0 < scanTotal s side price ∧ scanTotal s side price < 2 ^ 32 := by
  obtain ⟨e, ⟨L, hw, -⟩, -, -⟩ := reachable_represents h
  have hbids := trueDepth_iff hw .buy
  have hasks := trueDepth_iff hw .sell
  constructor
  · rintro ⟨hb, ha⟩ side price hr
    cases side with
    | buy => exact hbids.mp hb price hr
    | sell => exact hasks.mp ha price hr
  · exact fun hall => ⟨hbids.mpr (hall .buy), hasks.mpr (hall .sell)⟩

/-- Two bids at one price with twelve units in total. -/
def smallLevel : List Call :=
  [.addOrder .goodTillCancel 1 .buy 100 5, .addOrder .goodTillCancel 2 .buy 100 7]

/-- The depth of a small book is true. -/
theorem depth_true_iff_smallLevel :
    (TrueDepth (after (create 2) smallLevel) .buy
        (after (create 2) smallLevel).getOrderInfos.bids ∧
      TrueDepth (after (create 2) smallLevel) .sell
        (after (create 2) smallLevel).getOrderInfos.asks) ↔
      ∀ side price, RestsAt (after (create 2) smallLevel) side price →
        0 < scanTotal (after (create 2) smallLevel) side price ∧
        scanTotal (after (create 2) smallLevel) side price < 2 ^ 32 :=
  depth_true_iff ⟨_, rfl⟩

end Depth

end OrderbookEngine.BookState
