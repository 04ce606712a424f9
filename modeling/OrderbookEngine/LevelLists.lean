import OrderbookEngine.LayoutInvariant

/-!
# Append and removal on the lists of price levels

All price levels thread their lists through the one pool. For any family of
levels with disjoint lists, appending to one level and removing from one level
act on the sequence of that level alone. The levels of a book with its
representation invariant are such a family.
-/

namespace OrderbookEngine.LevelLists

open LinkedSlots MarketTypes PoolBook LayoutInvariant

variable {n : ℕ}

/-- The list of a level visits the given slots, with the ends and the count. -/
structure Threaded (pool : Pool n) (lvl : PriceLevel n) (is : List (Fin n)) : Prop where
  /-- Following next from the head. -/
  nextChain : Walk (fun i => (pool i).next) lvl.head is none
  /-- Following prev from the tail. -/
  prevChain : Walk (fun i => (pool i).prev) lvl.tail is.reverse none
  /-- The two chains undo each other. -/
  inverse : ∀ i j, (i ∈ is ∧ (pool i).next = some j) ↔ (j ∈ is ∧ (pool j).prev = some i)
  /-- The head is the first slot. -/
  head : lvl.head = is.head?
  /-- The tail is the last slot. -/
  tail : lvl.tail = is.getLast?
  /-- The count is the number of slots. -/
  count : lvl.orderCount = is.length

/-- Two walks and the count determine the rest. -/
theorem threaded_iff {pool : Pool n} {lvl : PriceLevel n} {is : List (Fin n)} :
    Threaded pool lvl is ↔
      IsList (linksOf pool) (endsOf lvl) is ∧ lvl.orderCount = is.length := by
  constructor
  · intro h
    exact ⟨⟨h.nextChain, h.prevChain⟩, h.count⟩
  · rintro ⟨hlist, hcount⟩
    exact
      { nextChain := hlist.forward
        prevChain := hlist.backward
        inverse := fun _ _ => hlist.inverse
        head := hlist.head_eq
        tail := hlist.tail_eq
        count := hcount }

/-- A family of price levels with pairwise disjoint lists. -/
structure Family {κ : Type*} (pool : Pool n) (level : κ → PriceLevel n)
    (sequence : κ → List (Fin n)) : Prop where
  /-- Every level lists its sequence. -/
  threaded : ∀ k, Threaded pool (level k) (sequence k)
  /-- The sequences share no slot. -/
  disjoint : ∀ k l, k ≠ l → (sequence k).Disjoint (sequence l)

section Operations

variable {κ : Type*} [DecidableEq κ] {pool : Pool n} {level : κ → PriceLevel n}
  {sequence : κ → List (Fin n)} {k : κ} {i : Fin n}

/-- A family after one level got a new list and every slot outside its old and
new list kept its links. -/
theorem Family.update (h : Family pool level sequence) {pool' : Pool n} {lvl : PriceLevel n}
    {is : List (Fin n)} (hthread : Threaded pool' lvl is)
    (hframe : ∀ l, l ≠ k → ∀ j ∈ sequence l, pool' j = pool j)
    (hfresh : ∀ l, l ≠ k → (sequence l).Disjoint is) :
    Family pool' (Function.update level k lvl) (Function.update sequence k is) := by
  constructor
  · intro l
    by_cases hl : l = k
    · subst hl
      rwa [Function.update_self, Function.update_self]
    · rw [Function.update_of_ne hl, Function.update_of_ne hl, threaded_iff]
      obtain ⟨hlist, hcount⟩ := threaded_iff.mp (h.threaded l)
      refine ⟨hlist.congr (fun j hj => ?_) (fun j hj => ?_), hcount⟩ <;>
        simp only [linksOf, hframe l hl j hj]
  · intro l m hne
    by_cases hl : l = k
    · subst hl
      rw [Function.update_self, Function.update_of_ne hne.symm]
      exact fun j hj hj' => hfresh m hne.symm hj' hj
    · rw [Function.update_of_ne hl]
      by_cases hm : m = k
      · subst hm
        rw [Function.update_self]
        exact hfresh l hl
      · rw [Function.update_of_ne hm]
        exact h.disjoint l m hne

/-- Outcome of a list operation on one level: the level has the new sequence,
the other levels have theirs, and every order is what it was. -/
structure Spliced (pool : Pool n) (level : κ → PriceLevel n) (sequence : κ → List (Fin n))
    (k : κ) (is : List (Fin n)) (total : Quantity) (r : Pool n × PriceLevel n) : Prop where
  /-- The family after the operation. -/
  family : Family r.1 (Function.update level k r.2) (Function.update sequence k is)
  /-- The cached total of the level. -/
  total : r.2.totalQty = total
  /-- Identity, side, price, type and quantity of every slot. -/
  orders : ∀ j, (r.1 j).orderId = (pool j).orderId ∧ (r.1 j).side = (pool j).side ∧
    (r.1 j).price = (pool j).price ∧ (r.1 j).orderType = (pool j).orderType ∧
    (r.1 j).quantity = (pool j).quantity
  /-- Slots outside the two lists of the level keep their links as well. -/
  frame : ∀ j, j ∉ sequence k → j ∉ is → r.1 j = pool j

/-- Appending a slot that is on no list. -/
theorem Family.append (h : Family pool level sequence) (hi : ∀ l, i ∉ sequence l) :
    Spliced pool level sequence k (sequence k ++ [i]) ((level k).totalQty + (pool i).quantity)
      (dllAppend pool (level k) i) := by
  obtain ⟨hlist, hcount⟩ := threaded_iff.mp (h.threaded k)
  have hframe : ∀ j, j ∉ sequence k → j ≠ i → (dllAppend pool (level k) i).1 j = pool j := by
    intro j hj hji
    refine dllAppend_frame pool (level k) i hji fun htail => hj ?_
    have hlast : (sequence k).getLast? = some j := (h.threaded k).tail.symm.trans htail
    exact List.mem_of_getLast? hlast
  refine ⟨h.update ?_ ?_ ?_, dllAppend_total _ _ _, fun j => ?_, fun j hj hj' => ?_⟩
  · refine threaded_iff.mpr ⟨?_, ?_⟩
    · rw [dllAppend_links, dllAppend_ends]
      exact hlist.append (hi k)
    · rw [dllAppend_count, hcount, List.length_append]
      rfl
  · intro l hl j hj
    refine hframe j (fun hk => h.disjoint l k hl hj hk) ?_
    rintro rfl
    exact hi l hj
  · intro l hl j hj hmem
    rcases List.mem_append.mp hmem with hk | hk
    · exact h.disjoint l k hl hj hk
    · rw [List.mem_singleton] at hk
      exact hi l (hk ▸ hj)
  · exact unlinked_eq_iff.mp (dllAppend_unlinked pool (level k) i j)
  · refine hframe j hj ?_
    rintro rfl
    exact hj' (by simp)

/-- Removing a slot from anywhere in the list of its level. -/
theorem Family.remove (h : Family pool level sequence) (hi : i ∈ sequence k) :
    Spliced pool level sequence k ((sequence k).erase i)
      ((level k).totalQty - (pool i).quantity) (dllRemove pool (level k) i) := by
  obtain ⟨hlist, hcount⟩ := threaded_iff.mp (h.threaded k)
  have hframe : ∀ j, j ∉ sequence k → (dllRemove pool (level k) i).1 j = pool j := by
    intro j hj
    refine dllRemove_frame pool (level k) i ?_ (fun hprev => ?_) (fun hnext => ?_)
    · rintro rfl
      exact hj hi
    · exact hj (((h.threaded k).inverse j i).mpr ⟨hi, hprev⟩).1
    · exact hj (((h.threaded k).inverse i j).mp ⟨hi, hnext⟩).1
  obtain ⟨before, later, hsplit⟩ := List.append_of_mem hi
  have herase : (sequence k).erase i = before ++ later := by
    have hnot : i ∉ before := by
      have hnodup := hlist.nodup
      rw [hsplit, List.nodup_append] at hnodup
      exact fun hmem => hnodup.2.2 i hmem i List.mem_cons_self rfl
    rw [hsplit, List.erase_append_right _ hnot, List.erase_cons_head]
  refine ⟨h.update ?_ ?_ ?_, dllRemove_total _ _ _, fun j => ?_, fun j hj _ => hframe j hj⟩
  · refine threaded_iff.mpr ⟨?_, ?_⟩
    · rw [dllRemove_links, dllRemove_ends, herase]
      exact (hsplit ▸ hlist).remove
    · rw [dllRemove_count, hcount, List.length_erase_of_mem hi]
      have := List.length_pos_of_mem hi
      omega
  · exact fun l hl j hj => hframe j fun hk => h.disjoint l k hl hj hk
  · exact fun l hl j hj hmem => h.disjoint l k hl hj (List.mem_of_mem_erase hmem)
  · exact unlinked_eq_iff.mp (dllRemove_unlinked pool (level k) i j)

end Operations

/-- The levels of a book, present or absent, are a family. -/
theorem wf_family {s : Orderbook n} {held : List (Fin n)} {holes : Side → Price → Prop}
    {L : Layout n} (h : Wf s held holes L) :
    Family s.pool (fun k : Side × Price => s.level k.1 k.2) (fun k => L.queue k.1 k.2) := by
  constructor
  · intro k
    have hlevel := h.level k.1 k.2
    exact threaded_iff.mpr ⟨hlevel.list, hlevel.count⟩
  · intro k l hne i hk hl
    obtain ⟨hside, hprice⟩ := h.level_unique hk hl
    exact hne (Prod.ext hside.symm hprice.symm)

/-- Append and removal on any family of levels: the sequence of the level is
changed as a list, with links, ends, count and total, and nothing else is. -/
theorem dll_operations {κ : Type*} [DecidableEq κ] (pool : Pool n) (level : κ → PriceLevel n)
    (sequence : κ → List (Fin n)) (h : Family pool level sequence) (k : κ) (i : Fin n) :
    ((∀ l, i ∉ sequence l) →
      Spliced pool level sequence k (sequence k ++ [i])
        ((level k).totalQty + (pool i).quantity) (dllAppend pool (level k) i)) ∧
      (i ∈ sequence k →
        Spliced pool level sequence k ((sequence k).erase i)
          ((level k).totalQty - (pool i).quantity) (dllRemove pool (level k) i)) :=
  ⟨h.append, h.remove⟩

/-- Three linked slots and a spare one. -/
def chainPool : Pool 4
  | 0 => { orderId := 1, quantity := 5, next := some 1 }
  | 1 => { orderId := 2, quantity := 6, prev := some 0, next := some 2 }
  | 2 => { orderId := 3, quantity := 7, prev := some 1 }
  | 3 => { orderId := 4, side := .sell, quantity := 8 }

/-- The chain on one side, and an empty level on the other. -/
def chainLevel : Side → PriceLevel 4
  | .buy => { head := some 0, tail := some 2, totalQty := 18, orderCount := 3 }
  | .sell => {}

/-- The sequences of the two levels. -/
def chainSequence : Side → List (Fin 4)
  | .buy => [0, 1, 2]
  | .sell => []

/-- The slots of the example form two levels. -/
theorem chain_family : Family chainPool chainLevel chainSequence := by
  constructor
  · intro k
    refine threaded_iff.mpr ?_
    cases k with
    | buy => exact ⟨⟨by simp [Walk, linksOf, endsOf, chainLevel, chainPool, chainSequence],
        by simp [Walk, linksOf, endsOf, chainLevel, chainPool, chainSequence]⟩, rfl⟩
    | sell => exact ⟨⟨rfl, rfl⟩, rfl⟩
  · intro k l hne
    cases k <;> cases l <;> simp_all [chainSequence]

/-- A slot joins the empty level, and the middle one leaves the chain. -/
theorem dll_operations_chain :
    Spliced chainPool chainLevel chainSequence .sell [3] 8
        (dllAppend chainPool (chainLevel .sell) 3) ∧
      Spliced chainPool chainLevel chainSequence .buy [0, 2] 12
        (dllRemove chainPool (chainLevel .buy) 1) :=
  ⟨(dll_operations chainPool chainLevel chainSequence chain_family .sell 3).1 fun l => by
      cases l <;> decide,
    (dll_operations chainPool chainLevel chainSequence chain_family .buy 1).2 (by decide)⟩

end OrderbookEngine.LevelLists
