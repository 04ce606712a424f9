import Mathlib.Data.List.Forall2
import Mathlib.Data.List.Nodup
import Mathlib.Data.List.Pairwise
import Mathlib.Data.List.Perm.Basic
import Mathlib.Order.Defs.Unbundled
import Mathlib.Tactic.Common

/-!
# Sorted finite maps and sorted maps of nonempty queues

A finite map is kept as its entries in strictly increasing key order for an
arbitrary strict total order, so that equal maps are equal values and the
first entry is the best key. A bucket map sends keys to nonempty queues; its
flattening lists every element in key order and, within a key, in queue order.
-/

namespace OrderbookEngine.SortedMap

/-- A finite map, kept as its entries in increasing key order. -/
structure OrdMap (K V : Type*) (r : K → K → Prop) where
  /-- Key and value pairs, best key first. -/
  entries : List (K × V)
  /-- Keys strictly increase, so that none occurs twice. -/
  sorted : entries.Pairwise (fun a b => r a.1 b.1)

/-- Put an entry at its place in a sorted list, replacing one with the same key. -/
def insertEntry {K V : Type*} (r : K → K → Prop) [DecidableRel r] [DecidableEq K]
    (k : K) (v : V) : List (K × V) → List (K × V)
  | [] => [(k, v)]
  | e :: es =>
    if r k e.1 then (k, v) :: e :: es
    else if k = e.1 then (k, v) :: es
    else e :: insertEntry r k v es

section Entries

variable {K V : Type*} {r : K → K → Prop} [DecidableRel r] [DecidableEq K] [IsStrictTotalOrder K r]

/-- Inserting an entry adds it and removes only entries with its key. -/
theorem mem_insertEntry (k : K) (v : V) {es : List (K × V)}
    (hs : es.Pairwise (fun a b => r a.1 b.1)) (e : K × V) :
    e ∈ insertEntry r k v es ↔ e = (k, v) ∨ e ∈ es ∧ e.1 ≠ k := by
  induction es with
  | nil => simp [insertEntry]
  | cons d ds ih =>
    obtain ⟨hd, hds⟩ := List.pairwise_cons.mp hs
    rw [insertEntry]
    split_ifs with hlt heq
    · have hne : ∀ x ∈ d :: ds, x.1 ≠ k := by
        intro x hx he
        rcases List.mem_cons.mp hx with rfl | hx
        · exact irrefl k (he ▸ hlt)
        · exact irrefl k (he ▸ IsTrans.trans _ _ _ hlt (hd x hx))
      constructor
      · intro h
        rcases List.mem_cons.mp h with h | h
        · exact Or.inl h
        · exact Or.inr ⟨h, hne e h⟩
      · rintro (h | ⟨h, -⟩)
        · exact h ▸ List.mem_cons_self
        · exact List.mem_cons_of_mem _ h
    · have hne : ∀ x ∈ ds, x.1 ≠ k := by
        intro x hx he
        have := hd x hx
        rw [he, heq] at this
        exact irrefl d.1 this
      constructor
      · intro h
        rcases List.mem_cons.mp h with h | h
        · exact Or.inl h
        · exact Or.inr ⟨List.mem_cons_of_mem _ h, hne e h⟩
      · rintro (h | ⟨h, hk⟩)
        · exact h ▸ List.mem_cons_self
        · rcases List.mem_cons.mp h with rfl | h
          · exact absurd heq.symm hk
          · exact List.mem_cons_of_mem _ h
    · rw [List.mem_cons, ih hds, List.mem_cons]
      constructor
      · rintro (rfl | h | ⟨h, hk⟩)
        · exact Or.inr ⟨Or.inl rfl, fun he => heq he.symm⟩
        · exact Or.inl h
        · exact Or.inr ⟨Or.inr h, hk⟩
      · rintro (h | ⟨rfl | h, hk⟩)
        · exact Or.inr (Or.inl h)
        · exact Or.inl rfl
        · exact Or.inr (Or.inr ⟨h, hk⟩)

/-- Inserting an entry keeps the keys in increasing order. -/
theorem insertEntry_sorted (k : K) (v : V) {es : List (K × V)}
    (hs : es.Pairwise (fun a b => r a.1 b.1)) :
    (insertEntry r k v es).Pairwise (fun a b => r a.1 b.1) := by
  induction es with
  | nil => simp [insertEntry]
  | cons d ds ih =>
    obtain ⟨hd, hds⟩ := List.pairwise_cons.mp hs
    rw [insertEntry]
    split_ifs with hlt heq
    · refine List.pairwise_cons.mpr ⟨?_, hs⟩
      intro x hx
      rcases List.mem_cons.mp hx with rfl | hx
      · exact hlt
      · exact IsTrans.trans _ _ _ hlt (hd x hx)
    · refine List.pairwise_cons.mpr ⟨?_, hds⟩
      intro x hx
      exact heq ▸ hd x hx
    · refine List.pairwise_cons.mpr ⟨?_, ih hds⟩
      intro x hx
      rcases (mem_insertEntry k v hds x).mp hx with rfl | ⟨hx, -⟩
      · rcases trichotomous (r := r) k d.1 with h | h | h
        · exact absurd h hlt
        · exact absurd h heq
        · exact h
      · exact hd x hx

end Entries

namespace OrdMap

variable {K V W : Type*} {r : K → K → Prop}

/-- The map with no entry. -/
def empty : OrdMap K V r := ⟨[], List.Pairwise.nil⟩

/-- Whether the map has no entry. -/
def isEmpty (m : OrdMap K V r) : Bool := m.entries.isEmpty

/-- Keys, best first. -/
def keys (m : OrdMap K V r) : List K := m.entries.map Prod.fst

/-- Number of entries. -/
def size (m : OrdMap K V r) : ℕ := m.entries.length

/-- The entry with the best key. -/
def first? (m : OrdMap K V r) : Option (K × V) := m.entries.head?

/-- The value at a key. -/
def find? [DecidableEq K] (m : OrdMap K V r) (k : K) : Option V :=
  (m.entries.find? fun e => e.1 = k).map Prod.snd

/-- Remove the entry at a key, if there is one. -/
def erase [DecidableEq K] (m : OrdMap K V r) (k : K) : OrdMap K V r where
  entries := m.entries.filter fun e => e.1 ≠ k
  sorted := m.sorted.filter _

/-- Set the value at a key. -/
def insert [DecidableRel r] [DecidableEq K] [IsStrictTotalOrder K r]
    (m : OrdMap K V r) (k : K) (v : V) : OrdMap K V r where
  entries := insertEntry r k v m.entries
  sorted := insertEntry_sorted k v m.sorted

/-- Change every value, keeping its key. -/
def mapVal (f : V → W) (m : OrdMap K V r) : OrdMap K W r where
  entries := m.entries.map fun e => (e.1, f e.2)
  sorted := List.pairwise_map.mpr m.sorted

/-- Change every key by a function that keeps the order. -/
def mapKeys {K' : Type*} {r' : K' → K' → Prop} (f : K → K') (hf : ∀ a b, r a b → r' (f a) (f b))
    (m : OrdMap K V r) : OrdMap K' V r' where
  entries := m.entries.map fun e => (f e.1, e.2)
  sorted := List.pairwise_map.mpr (m.sorted.imp fun h => hf _ _ h)

/-- A renamed key has the value of the key. -/
theorem find?_mapKeys {K' : Type*} {r' : K' → K' → Prop} [DecidableEq K] [DecidableEq K']
    {f : K → K'} (hf : ∀ a b, r a b → r' (f a) (f b)) (hinj : f.Injective) (m : OrdMap K V r)
    (k : K) : (m.mapKeys f hf).find? (f k) = m.find? k := by
  have hkey : ((fun e : K' × V => decide (e.1 = f k)) ∘ fun e : K × V => (f e.1, e.2)) =
      fun e => decide (e.1 = k) := by
    funext e
    simp only [Function.comp_apply, hinj.eq_iff]
  rw [find?, find?, mapKeys, List.find?_map, hkey, Option.map_map]
  rfl

/-- There are as many keys as entries. -/
theorem length_keys (m : OrdMap K V r) : m.keys.length = m.size := List.length_map _

/-- Changing values leaves the keys alone. -/
theorem keys_mapVal (f : V → W) (m : OrdMap K V r) : (m.mapVal f).keys = m.keys := by
  simp [keys, mapVal, Function.comp_def]

section Unique

variable [IsStrictTotalOrder K r]

/-- Two entries of a map with the same key are the same entry. -/
theorem entry_unique (m : OrdMap K V r) {e e' : K × V} (he : e ∈ m.entries)
    (he' : e' ∈ m.entries) (hk : e.1 = e'.1) : e = e' := by
  by_contra hne
  have hsorted : m.entries.Pairwise (fun a b => r a.1 b.1 ∨ r b.1 a.1) :=
    m.sorted.imp Or.inl
  have hsymm : Std.Symm (fun a b : K × V => r a.1 b.1 ∨ r b.1 a.1) := ⟨fun _ _ h => h.symm⟩
  rcases hsorted.forall he he' hne with h | h
  · exact irrefl e'.1 (hk ▸ h)
  · exact irrefl e'.1 (hk ▸ h)

/-- No entry is listed twice. -/
theorem entries_nodup (m : OrdMap K V r) : m.entries.Nodup := by
  have hirrefl : Std.Irrefl (fun a b : K × V => r a.1 b.1) := ⟨fun a => irrefl a.1⟩
  exact m.sorted.nodup

/-- No key is listed twice. -/
theorem keys_nodup (m : OrdMap K V r) : m.keys.Nodup := by
  have hirrefl : Std.Irrefl r := ⟨fun k => irrefl k⟩
  exact (List.pairwise_map.mpr m.sorted).nodup

end Unique

section Lookup

variable [DecidableEq K]

/-- The empty map has no value. -/
@[simp] theorem find?_empty (k : K) : (empty : OrdMap K V r).find? k = none := rfl

/-- Values are changed one by one. -/
theorem find?_mapVal (f : V → W) (m : OrdMap K V r) (k : K) :
    (m.mapVal f).find? k = (m.find? k).map f := by
  simp only [find?, mapVal, List.find?_map, Option.map_map]
  rfl

/-- A key without a value is not listed. -/
theorem find?_eq_none_iff (m : OrdMap K V r) (k : K) : m.find? k = none ↔ k ∉ m.keys := by
  rw [find?, Option.map_eq_none_iff, List.find?_eq_none]
  simp only [keys, List.mem_map, not_exists, not_and, decide_eq_true_eq]

/-- A key with a value is listed. -/
theorem find?_ne_none_iff (m : OrdMap K V r) (k : K) : m.find? k ≠ none ↔ k ∈ m.keys := by
  rw [ne_eq, find?_eq_none_iff, not_not]

/-- The keys are those that have a value. -/
theorem mem_keys_iff (m : OrdMap K V r) (k : K) : k ∈ m.keys ↔ ∃ v, m.find? k = some v := by
  rw [← Option.ne_none_iff_exists', ne_eq, find?_eq_none_iff, not_not]

variable [IsStrictTotalOrder K r]

/-- A lookup succeeds exactly with the entry stored at the key. -/
theorem find?_eq_some_iff (m : OrdMap K V r) (k : K) (v : V) :
    m.find? k = some v ↔ (k, v) ∈ m.entries := by
  constructor
  · intro h
    obtain ⟨e, he, rfl⟩ := Option.map_eq_some_iff.mp h
    have hk : e.1 = k := by simpa using List.find?_some he
    rw [← hk]
    exact List.mem_of_find?_eq_some he
  · intro h
    cases hf : m.entries.find? (fun e => e.1 = k) with
    | none => simpa using List.find?_eq_none.mp hf _ h
    | some e =>
      have hk : e.1 = k := by simpa using List.find?_some hf
      rw [find?, hf, m.entry_unique (List.mem_of_find?_eq_some hf) h hk]
      rfl

/-- Maps that agree on every lookup are equal. -/
theorem ext_find? {m m' : OrdMap K V r} (h : ∀ k, m.find? k = m'.find? k) : m = m' := by
  have hmem : ∀ e, e ∈ m.entries ↔ e ∈ m'.entries := by
    rintro ⟨k, v⟩
    rw [← find?_eq_some_iff, ← find?_eq_some_iff, h k]
  have hperm := (List.perm_ext_iff_of_nodup m.entries_nodup m'.entries_nodup).mpr hmem
  have heq : m.entries = m'.entries := by
    refine List.Perm.eq_of_pairwise ?_ m.sorted m'.sorted hperm
    intro a b _ _ hab hba
    exact absurd hba (asymm hab)
  cases m
  cases m'
  simpa using heq

/-- Maps with the same keys have the same key list. -/
theorem keys_eq_of_find? {m : OrdMap K V r} {m' : OrdMap K W r}
    (h : ∀ k, m.find? k = none ↔ m'.find? k = none) : m.keys = m'.keys := by
  rw [← keys_mapVal (fun _ => ()) m, ← keys_mapVal (fun _ => ()) m']
  congr 1
  apply ext_find?
  intro k
  rw [find?_mapVal, find?_mapVal]
  cases hm : m.find? k with
  | none => rw [(h k).mp hm]; rfl
  | some v =>
    cases hm' : m'.find? k with
    | none =>
      rw [(h k).mpr hm'] at hm
      cases hm
    | some w => rfl

/-- Maps with the same keys pair up entry by entry, with what relates their
values at every key. -/
theorem forall₂_entries {R : V → W → Prop} {m : OrdMap K V r} {m' : OrdMap K W r}
    (h : ∀ k, m.find? k = none ↔ m'.find? k = none)
    (hR : ∀ k v w, m.find? k = some v → m'.find? k = some w → R v w) :
    List.Forall₂ (fun e e' => e.1 = e'.1 ∧ R e.2 e'.2) m.entries m'.entries := by
  have hkeys : List.Forall₂ (· = ·) m.keys m'.keys := by
    rw [List.forall₂_eq_eq_eq]
    exact keys_eq_of_find? h
  rw [keys, keys, List.forall₂_map_left_iff, List.forall₂_map_right_iff] at hkeys
  have hleft := (List.forall₂_and_left _ _).mpr ⟨fun e (he : e ∈ m.entries) => he, hkeys⟩
  have hboth := (List.forall₂_and_left _ _).mpr
    ⟨fun e (he : e ∈ m'.entries) => he, hleft.flip⟩
  refine hboth.flip.imp fun e e' ⟨he', he, hk⟩ => ⟨hk, ?_⟩
  refine hR e.1 e.2 e'.2 ((m.find?_eq_some_iff _ _).mpr he) ((m'.find?_eq_some_iff _ _).mpr ?_)
  rw [hk]
  exact he'

/-- A map that has keys of another one only is not larger. -/
theorem size_le_of_find? {m : OrdMap K V r} {m' : OrdMap K W r}
    (h : ∀ k, m'.find? k ≠ none → m.find? k ≠ none) : m'.size ≤ m.size := by
  have hsub : m'.keys ⊆ m.keys := fun k hk =>
    (m.find?_ne_none_iff k).mp (h k ((m'.find?_ne_none_iff k).mpr hk))
  have hle := (List.subperm_of_subset m'.keys_nodup hsub).length_le
  rwa [length_keys, length_keys] at hle

/-- Without one of the keys it is smaller. -/
theorem size_lt_of_find? {m : OrdMap K V r} {m' : OrdMap K W r}
    (h : ∀ k, m'.find? k ≠ none → m.find? k ≠ none) {k : K} (hk : m.find? k ≠ none)
    (hk' : m'.find? k = none) : m'.size < m.size := by
  have hnodup : (k :: m'.keys).Nodup :=
    List.nodup_cons.mpr ⟨(m'.find?_eq_none_iff k).mp hk', m'.keys_nodup⟩
  have hsub : k :: m'.keys ⊆ m.keys := by
    intro k' hmem
    rcases List.mem_cons.mp hmem with rfl | hmem
    · exact (m.find?_ne_none_iff k').mp hk
    · exact (m.find?_ne_none_iff k').mp (h k' ((m'.find?_ne_none_iff k').mpr hmem))
  have hle := (List.subperm_of_subset hnodup hsub).length_le
  rw [List.length_cons, length_keys, length_keys] at hle
  omega

/-- The values after one key is erased. -/
theorem find?_erase (m : OrdMap K V r) (k k' : K) :
    (m.erase k).find? k' = if k' = k then none else m.find? k' := by
  ext v
  rw [find?_eq_some_iff]
  simp only [erase, List.mem_filter, ne_eq, decide_not, Bool.not_eq_eq_eq_not, Bool.not_true,
    decide_eq_false_iff_not]
  split_ifs with hk <;> simp [hk, find?_eq_some_iff]

/-- Erasing the only key of a value takes it from those of a map. -/
theorem erase_avoids_iff {m : OrdMap K V r} {k : K} {v w : V} (hk : m.find? k = some v)
    (honly : ∀ k', m.find? k' = some v → k' = k) :
    (∀ k', (m.erase k).find? k' ≠ some w) ↔ w = v ∨ ∀ k', m.find? k' ≠ some w := by
  constructor
  · intro h
    by_cases hwv : w = v
    · exact Or.inl hwv
    · refine Or.inr fun k' hk' => ?_
      have hne : k' ≠ k := by
        rintro rfl
        rw [hk] at hk'
        exact hwv (Option.some.inj hk').symm
      exact h k' (by rw [find?_erase, if_neg hne, hk'])
  · intro h k'
    rw [find?_erase]
    split_ifs with hkk
    · simp
    · rcases h with rfl | h
      · exact fun hk' => hkk (honly k' hk')
      · exact h k'

variable [DecidableRel r]

/-- The values after one key is inserted. -/
theorem find?_insert (m : OrdMap K V r) (k k' : K) (v : V) :
    (m.insert k v).find? k' = if k' = k then some v else m.find? k' := by
  ext w
  rw [find?_eq_some_iff, insert, mem_insertEntry k v m.sorted]
  split_ifs with hk
  · simp [hk, eq_comm]
  · simp [hk, find?_eq_some_iff]

/-- Inserting a new key adds its value to those of a map. -/
theorem insert_avoids_iff {m : OrdMap K V r} {k : K} {v w : V} (hk : m.find? k = none) :
    (∀ k', (m.insert k v).find? k' ≠ some w) ↔ w ≠ v ∧ ∀ k', m.find? k' ≠ some w := by
  constructor
  · intro h
    refine ⟨fun hwv => h k (by rw [find?_insert, if_pos rfl, hwv]), fun k' hk' => ?_⟩
    have hne : k' ≠ k := by
      rintro rfl
      rw [hk] at hk'
      cases hk'
    exact h k' (by rw [find?_insert, if_neg hne, hk'])
  · rintro ⟨hwv, h⟩ k'
    rw [find?_insert]
    split_ifs
    · exact fun heq => hwv (Option.some.inj heq).symm
    · exact h k'

omit [DecidableRel r] in
/-- The first entry is the entry of the best key. -/
theorem first?_eq_some_iff (m : OrdMap K V r) (k : K) (v : V) :
    m.first? = some (k, v) ↔
      m.find? k = some v ∧ ∀ k' v', m.find? k' = some v' → k' = k ∨ r k k' := by
  simp only [find?_eq_some_iff, first?]
  cases hes : m.entries with
  | nil => simp
  | cons e es =>
    obtain ⟨hhead, -⟩ := List.pairwise_cons.mp (hes ▸ m.sorted)
    constructor
    · intro h
      obtain rfl : e = (k, v) := by simpa using h
      refine ⟨List.mem_cons_self, ?_⟩
      intro k' v' hmem
      rcases List.mem_cons.mp hmem with h | h
      · exact Or.inl (congrArg Prod.fst h)
      · exact Or.inr (hhead _ h)
    · rintro ⟨hmem, hbest⟩
      rcases List.mem_cons.mp hmem with h | h
      · simp [h]
      · rcases hbest e.1 e.2 List.mem_cons_self with hk | hk
        · exact absurd (hhead _ h) (hk ▸ irrefl e.1)
        · exact absurd hk (asymm (hhead _ h))

omit [DecidableRel r] [IsStrictTotalOrder K r] in
/-- A map without a first entry is empty. -/
theorem first?_eq_none_iff (m : OrdMap K V r) : m.first? = none ↔ ∀ k, m.find? k = none := by
  simp only [first?, List.head?_eq_none_iff, find?_eq_none_iff, keys]
  constructor
  · intro h
    simp [h]
  · intro h
    cases hes : m.entries with
    | nil => rfl
    | cons e es => exact absurd (by simp [hes]) (h e.1)

end Lookup

end OrdMap

/-- A map from keys to nonempty queues. -/
structure Buckets (K V : Type*) (r : K → K → Prop) where
  /-- The underlying map. -/
  map : OrdMap K (List V) r
  /-- No key keeps an empty queue. -/
  nonempty : ∀ e ∈ map.entries, e.2 ≠ []

namespace Buckets

variable {K V W : Type*} {r : K → K → Prop}

/-- The bucket map with no key. -/
def empty : Buckets K V r := ⟨OrdMap.empty, by simp [OrdMap.empty]⟩

/-- All elements with their keys, in key order and then in queue order. -/
def toList (b : Buckets K V r) : List (K × V) :=
  b.map.entries.flatMap fun e => e.2.map fun v => (e.1, v)

/-- The best key, with its first element and the rest of its queue. -/
def best? (b : Buckets K V r) : Option (K × V × List V) :=
  match b.map.first? with
  | some (k, v :: vs) => some (k, v, vs)
  | _ => none

/-- Change every element in place. -/
def mapVal (f : V → W) (b : Buckets K V r) : Buckets K W r where
  map := b.map.mapVal (List.map f)
  nonempty := by
    intro e he
    obtain ⟨d, hd, rfl⟩ := List.mem_map.mp he
    simpa using b.nonempty d hd

/-- Keep the elements that satisfy a test, dropping keys left with none. -/
def filter (p : V → Bool) (b : Buckets K V r) : Buckets K V r where
  map := ⟨((b.map.mapVal (List.filter p)).entries.filter fun e => !e.2.isEmpty),
    (b.map.mapVal (List.filter p)).sorted.filter _⟩
  nonempty := by
    intro e he
    simpa using (List.mem_filter.mp he).2

/-- Change every key by a function that keeps the order. -/
def mapKeys {K' : Type*} {r' : K' → K' → Prop} (f : K → K') (hf : ∀ a b, r a b → r' (f a) (f b))
    (b : Buckets K V r) : Buckets K' V r' where
  map := b.map.mapKeys f hf
  nonempty := by
    intro e he
    obtain ⟨d, hd, rfl⟩ := List.mem_map.mp he
    exact b.nonempty d hd

/-- Renaming keys renames the keys of the list. -/
theorem toList_mapKeys {K' : Type*} {r' : K' → K' → Prop} {f : K → K'}
    (hf : ∀ a b, r a b → r' (f a) (f b)) (b : Buckets K V r) :
    (b.mapKeys f hf).toList = b.toList.map fun e => (f e.1, e.2) := by
  simp [toList, mapKeys, OrdMap.mapKeys, List.flatMap_map, List.map_flatMap, Function.comp_def]

/-- Changing values changes the list value by value. -/
theorem toList_mapVal (f : V → W) (b : Buckets K V r) :
    (b.mapVal f).toList = b.toList.map fun e => (e.1, f e.2) := by
  simp [toList, mapVal, OrdMap.mapVal, List.flatMap_map, List.map_flatMap, Function.comp_def]

/-- Number of queued elements. -/
def size (b : Buckets K V r) : ℕ := b.toList.length

/-- Changing values keeps their number. -/
theorem size_mapVal (f : V → W) (b : Buckets K V r) : (b.mapVal f).size = b.size := by
  rw [size, toList_mapVal, List.length_map, size]

/-- The flattening goes from best to worst key. -/
theorem toList_sorted [IsStrictTotalOrder K r] (b : Buckets K V r) :
    b.toList.Pairwise fun d e => ¬r e.1 d.1 := by
  have hsorted := b.map.sorted
  rw [toList]
  generalize b.map.entries = es at hsorted
  induction es with
  | nil => exact List.Pairwise.nil
  | cons e es ih =>
    obtain ⟨hhead, htail⟩ := List.pairwise_cons.mp hsorted
    rw [List.flatMap_cons, List.pairwise_append]
    refine ⟨?_, ih htail, ?_⟩
    · rw [List.pairwise_map]
      exact List.pairwise_of_forall fun _ _ => irrefl e.1
    · intro d hd d' hd'
      obtain ⟨v, -, rfl⟩ := List.mem_map.mp hd
      obtain ⟨e', he', hv'⟩ := List.mem_flatMap.mp hd'
      obtain ⟨v', -, rfl⟩ := List.mem_map.mp hv'
      exact asymm (hhead e' he')

section Queues

variable [DecidableEq K]

/-- The queue at a key, empty where the key is absent. -/
def queue (b : Buckets K V r) (k : K) : List V := (b.map.find? k).getD []

/-- The queues of the empty map. -/
@[simp] theorem queue_empty (k : K) : (empty : Buckets K V r).queue k = [] := rfl

/-- A queue that is not empty is stored. -/
theorem queue_eq_of_ne_nil (b : Buckets K V r) {k : K} {vs : List V} (hvs : vs ≠ []) :
    b.queue k = vs ↔ b.map.find? k = some vs := by
  cases h : b.map.find? k with
  | none => simpa [queue, h] using hvs.symm
  | some ws => simp [queue, h]

/-- Changing values changes each queue in place. -/
theorem queue_mapVal (f : V → W) (b : Buckets K V r) (k : K) :
    (b.mapVal f).queue k = (b.queue k).map f := by
  simp only [queue, mapVal, OrdMap.find?_mapVal]
  cases b.map.find? k <;> rfl

/-- A renamed key has the queue of the key. -/
theorem queue_mapKeys {K' : Type*} {r' : K' → K' → Prop} [DecidableEq K'] {f : K → K'}
    (hf : ∀ a b, r a b → r' (f a) (f b)) (hinj : f.Injective) (b : Buckets K V r) (k : K) :
    (b.mapKeys f hf).queue (f k) = b.queue k := by
  rw [queue, mapKeys, OrdMap.find?_mapKeys hf hinj, queue]

variable [IsStrictTotalOrder K r]

/-- An empty queue is not stored. -/
theorem queue_eq_nil_iff (b : Buckets K V r) (k : K) : b.queue k = [] ↔ b.map.find? k = none := by
  cases h : b.map.find? k with
  | none => simp [queue, h]
  | some vs => simpa [queue, h] using b.nonempty _ ((b.map.find?_eq_some_iff k vs).mp h)

/-- The entries are the queues that are not empty. -/
theorem mem_entries_iff (b : Buckets K V r) (k : K) (vs : List V) :
    (k, vs) ∈ b.map.entries ↔ vs ≠ [] ∧ b.queue k = vs := by
  rw [← OrdMap.find?_eq_some_iff]
  constructor
  · intro h
    have hvs := b.nonempty _ ((b.map.find?_eq_some_iff k vs).mp h)
    exact ⟨hvs, (b.queue_eq_of_ne_nil hvs).mpr h⟩
  · rintro ⟨hvs, h⟩
    exact (b.queue_eq_of_ne_nil hvs).mp h

/-- A bucket map whose queues are those of another one under keys in the same
order has the same entries under these keys. -/
theorem entries_eq_map {K' : Type*} {r' : K' → K' → Prop} [DecidableEq K']
    [IsStrictTotalOrder K' r'] {b : Buckets K V r} {b' : Buckets K' V r'} {f : K → K'}
    (hf : ∀ k l, b.queue k ≠ [] → b.queue l ≠ [] → r k l → r' (f k) (f l))
    (hq : ∀ k, b.queue k ≠ [] → b'.queue (f k) = b.queue k)
    (himage : ∀ k', b'.queue k' ≠ [] → ∃ k, b.queue k ≠ [] ∧ k' = f k) :
    b'.map.entries = b.map.entries.map fun e => (f e.1, e.2) := by
  have hqueue : ∀ e ∈ b.map.entries, b.queue e.1 ≠ [] := fun e he => by
    obtain ⟨hne, heq⟩ := (b.mem_entries_iff e.1 e.2).mp he
    exact heq ▸ hne
  have hsorted : (b.map.entries.map fun e => (f e.1, e.2)).Pairwise fun d e => r' d.1 e.1 := by
    refine List.pairwise_map.mpr (b.map.sorted.imp_of_mem fun hd he hlt => ?_)
    exact hf _ _ (hqueue _ hd) (hqueue _ he) hlt
  have hmem : ∀ e, e ∈ b'.map.entries ↔ e ∈ b.map.entries.map fun e => (f e.1, e.2) := by
    rintro ⟨k', vs⟩
    rw [mem_entries_iff, List.mem_map]
    constructor
    · rintro ⟨hne, heq⟩
      obtain ⟨k, hk, rfl⟩ := himage k' (by rwa [heq])
      exact ⟨(k, vs), (b.mem_entries_iff k vs).mpr ⟨hne, by rw [← hq k hk, heq]⟩, rfl⟩
    · rintro ⟨⟨k, ws⟩, he, heq⟩
      cases heq
      obtain ⟨hne, hk⟩ := (b.mem_entries_iff k ws).mp he
      exact ⟨hne, by rw [hq k (by rwa [hk]), hk]⟩
  have hnodup : (b.map.entries.map fun e => (f e.1, e.2)).Nodup := by
    refine List.Pairwise.imp ?_ hsorted
    rintro d _ hlt rfl
    exact irrefl _ hlt
  have hperm := (List.perm_ext_iff_of_nodup b'.map.entries_nodup hnodup).mpr hmem
  exact List.Perm.eq_of_pairwise (fun _ _ _ _ hab hba => absurd hba (asymm hab)) b'.map.sorted
    hsorted hperm

/-- Bucket maps with the same queues are equal. -/
theorem ext_queue {b b' : Buckets K V r} (h : ∀ k, b.queue k = b'.queue k) : b = b' := by
  have hmap : b.map = b'.map := by
    apply OrdMap.ext_find?
    intro k
    ext vs
    rw [OrdMap.find?_eq_some_iff, OrdMap.find?_eq_some_iff, mem_entries_iff, mem_entries_iff, h k]
  cases b
  cases b'
  simpa using hmap

/-- Removing values keeps those that remain in their sequence. -/
theorem queue_filter (p : V → Bool) (b : Buckets K V r) (k : K) :
    (b.filter p).queue k = (b.queue k).filter p := by
  have hmem : ∀ vs, (k, vs) ∈ (b.filter p).map.entries ↔
      vs ≠ [] ∧ (b.queue k).filter p = vs := by
    intro vs
    constructor
    · intro h
      obtain ⟨hmap, hvs⟩ := List.mem_filter.mp h
      obtain ⟨e, he, hev⟩ := List.mem_map.mp hmap
      obtain ⟨rfl, rfl⟩ := Prod.mk.inj hev
      exact ⟨by simpa using hvs, by rw [((b.mem_entries_iff e.1 e.2).mp he).2]⟩
    · rintro ⟨hvs, rfl⟩
      have hq : b.queue k ≠ [] := fun h => hvs (by rw [h]; rfl)
      refine List.mem_filter.mpr ⟨List.mem_map.mpr ⟨(k, b.queue k), ?_, rfl⟩, by simpa using hvs⟩
      exact (b.mem_entries_iff k _).mpr ⟨hq, rfl⟩
  by_cases hq : (b.queue k).filter p = []
  · rw [hq, queue_eq_nil_iff, OrdMap.find?_eq_none_iff]
    intro hk
    obtain ⟨vs, hvs⟩ := (OrdMap.mem_keys_iff _ k).mp hk
    obtain ⟨hne, h⟩ := (hmem vs).mp ((OrdMap.find?_eq_some_iff _ k vs).mp hvs)
    exact hne (h ▸ hq)
  · exact ((mem_entries_iff _ k _).mp ((hmem _).mpr ⟨hq, rfl⟩)).2

/-- The best key holds elements and is ahead of every other key that does. -/
theorem best?_eq_some_iff (b : Buckets K V r) (k : K) (v : V) (vs : List V) :
    b.best? = some (k, v, vs) ↔
      b.queue k = v :: vs ∧ ∀ k', b.queue k' ≠ [] → k' = k ∨ r k k' := by
  have hfirst : b.best? = some (k, v, vs) ↔ b.map.first? = some (k, v :: vs) := by
    unfold best?
    split
    · rename_i k' w ws h
      simp [h]
    · rename_i h
      constructor
      · intro h'
        cases h'
      · intro h'
        exact absurd h' (h k v vs)
  rw [hfirst, OrdMap.first?_eq_some_iff, b.queue_eq_of_ne_nil (List.cons_ne_nil v vs)]
  apply and_congr_right
  intro _
  constructor
  · intro h k' hk'
    obtain ⟨ws, hws⟩ := Option.ne_none_iff_exists'.mp (fun h => hk' ((b.queue_eq_nil_iff k').mpr h))
    exact h k' ws hws
  · intro h k' ws hws
    exact h k' (fun hn => by rw [(b.queue_eq_nil_iff k').mp hn] at hws; cases hws)

/-- Without a first value all queues are empty. -/
theorem best?_eq_none_iff (b : Buckets K V r) : b.best? = none ↔ ∀ k, b.queue k = [] := by
  simp only [queue_eq_nil_iff, ← OrdMap.first?_eq_none_iff]
  unfold best?
  cases h : b.map.first? with
  | none => simp
  | some e =>
    obtain ⟨k, vs⟩ := e
    have hmem := (b.map.find?_eq_some_iff k vs).mp ((b.map.first?_eq_some_iff k vs).mp h).1
    cases vs with
    | nil => exact absurd rfl (b.nonempty _ hmem)
    | cons v vs => simp

/-- The flattening holds exactly the queued elements under their keys. -/
theorem mem_toList (b : Buckets K V r) (k : K) (v : V) : (k, v) ∈ b.toList ↔ v ∈ b.queue k := by
  simp only [toList, List.mem_flatMap, List.mem_map, Prod.mk.injEq]
  constructor
  · rintro ⟨e, he, w, hw, rfl, rfl⟩
    rwa [((b.mem_entries_iff e.1 e.2).mp he).2]
  · intro h
    have hq : b.queue k ≠ [] := List.ne_nil_of_mem h
    exact ⟨(k, b.queue k), (b.mem_entries_iff k _).mpr ⟨hq, rfl⟩, v, h, rfl, rfl⟩

/-- A queue is what the flattening holds under its key. -/
theorem queue_eq_filter (b : Buckets K V r) (k : K) :
    b.queue k = (b.toList.filter fun e => e.1 = k).map Prod.snd := by
  have hsorted := b.map.sorted
  rw [queue, toList, OrdMap.find?]
  generalize b.map.entries = es at hsorted
  induction es with
  | nil => rfl
  | cons e es ih =>
    obtain ⟨hhead, htail⟩ := List.pairwise_cons.mp hsorted
    rw [List.flatMap_cons, List.filter_append, List.map_append, ← ih htail, List.find?_cons]
    by_cases hk : e.1 = k
    · -- the keys behind are worse, so that they hold nothing under this one
      have hnone : es.find? (fun d => decide (d.1 = k)) = none := by
        rw [List.find?_eq_none]
        intro d hd hdk
        have hlt := hhead d hd
        rw [hk, of_decide_eq_true hdk] at hlt
        exact irrefl k hlt
      have hall : (e.2.map fun v => (e.1, v)).filter (fun d => decide (d.1 = k)) =
          e.2.map fun v => (e.1, v) := by
        rw [List.filter_eq_self]
        simp [hk]
      rw [hnone, hall, List.map_map]
      simp [hk, Function.comp_def]
    · have hnil : (e.2.map fun v => (e.1, v)).filter (fun d => decide (d.1 = k)) = [] := by
        rw [List.filter_eq_nil_iff]
        simp [hk]
      rw [hnil]
      simp [hk]

omit [DecidableEq K] [IsStrictTotalOrder K r] in
/-- Removing values removes them from the list. -/
theorem toList_filter (p : V → Bool) (b : Buckets K V r) :
    (b.filter p).toList = b.toList.filter fun e => p e.2 := by
  simp only [toList, filter, OrdMap.mapVal]
  induction b.map.entries with
  | nil => rfl
  | cons e es ih =>
    have hqueue : (e.2.map fun v => (e.1, v)).filter (fun d => p d.2) =
        (e.2.filter p).map fun v => (e.1, v) := List.filter_map
    rw [List.flatMap_cons, List.filter_append, hqueue, ← ih, List.map_cons, List.filter_cons]
    split_ifs with h
    · rw [List.flatMap_cons]
    · have hnil : e.2.filter p = [] := by simpa using h
      rw [hnil, List.map_nil, List.nil_append]

/-- Bucket maps with the same flattening are equal. -/
theorem ext_toList {b b' : Buckets K V r} (h : b.toList = b'.toList) : b = b' :=
  ext_queue fun k => by rw [queue_eq_filter, queue_eq_filter, h]

variable [DecidableRel r]

/-- Replace the queue at a key; an empty queue removes the key. -/
def setQueue (b : Buckets K V r) (k : K) (vs : List V) : Buckets K V r :=
  if h : vs = [] then
    ⟨b.map.erase k, fun e he => b.nonempty e (List.mem_filter.mp he).1⟩
  else
    ⟨b.map.insert k vs, by
      intro e he
      rcases (mem_insertEntry k vs b.map.sorted e).mp he with rfl | ⟨he, -⟩
      · exact h
      · exact b.nonempty e he⟩

/-- The queues after one of them is replaced. -/
theorem queue_setQueue (b : Buckets K V r) (k k' : K) (vs : List V) :
    (b.setQueue k vs).queue k' = if k' = k then vs else b.queue k' := by
  by_cases hvs : vs = []
  · subst hvs
    rw [setQueue, dif_pos rfl]
    simp only [queue, OrdMap.find?_erase]
    split_ifs <;> rfl
  · rw [setQueue, dif_neg hvs]
    simp only [queue, OrdMap.find?_insert]
    split_ifs <;> rfl

/-- The new queue is found under its key. -/
@[simp] theorem queue_setQueue_self (b : Buckets K V r) (k : K) (vs : List V) :
    (b.setQueue k vs).queue k = vs := by
  rw [queue_setQueue, if_pos rfl]

/-- A later queue under the same key replaces an earlier one. -/
theorem setQueue_setQueue (b : Buckets K V r) (k : K) (vs ws : List V) :
    (b.setQueue k vs).setQueue k ws = b.setQueue k ws := by
  apply ext_queue
  intro k'
  simp only [queue_setQueue]
  split_ifs <;> rfl

/-- Writing back what is there changes nothing. -/
theorem setQueue_queue (b : Buckets K V r) (k : K) : b.setQueue k (b.queue k) = b := by
  apply ext_queue
  intro k'
  rw [queue_setQueue]
  split_ifs with h
  · rw [h]
  · rfl

/-- Replacing the queue of a key exchanges its part of the flattening. -/
theorem toList_setQueue_perm (b : Buckets K V r) (k : K) (vs : List V) :
    (b.setQueue k vs).toList.Perm
      (vs.map (fun v => (k, v)) ++ (b.setQueue k []).toList) := by
  by_cases hvs : vs = []
  · subst hvs
    exact List.Perm.refl _
  · have hentries : (b.map.insert k vs).entries.Perm ((k, vs) :: (b.map.erase k).entries) := by
      have hnot : (k, vs) ∉ (b.map.erase k).entries := by simp [OrdMap.erase]
      refine (List.perm_ext_iff_of_nodup (b.map.insert k vs).entries_nodup
        (List.nodup_cons.mpr ⟨hnot, (b.map.erase k).entries_nodup⟩)).mpr ?_
      intro e
      rw [OrdMap.insert, mem_insertEntry k vs b.map.sorted, List.mem_cons]
      simp [OrdMap.erase]
    have h := hentries.flatMap_right (fun e => e.2.map fun v => (e.1, v))
    rw [List.flatMap_cons] at h
    simpa only [toList, setQueue, dif_neg hvs, dif_pos] using h

/-- Replacing a queue changes the number of values by its length. -/
theorem size_setQueue (b : Buckets K V r) (k : K) (vs : List V) :
    (b.setQueue k vs).size + (b.queue k).length = b.size + vs.length := by
  have hnew := (b.toList_setQueue_perm k vs).length_eq
  have hold := (b.toList_setQueue_perm k (b.queue k)).length_eq
  rw [setQueue_queue] at hold
  simp only [List.length_append, List.length_map] at hnew hold
  simp only [size]
  omega

/-- The first value is first in the first entry. -/
theorem entries_of_best? {b : Buckets K V r} {k : K} {v : V} {vs : List V}
    (h : b.best? = some (k, v, vs)) :
    b.map.entries = (k, v :: vs) :: (b.setQueue k []).map.entries := by
  obtain ⟨hq, hbest⟩ := (b.best?_eq_some_iff k v vs).mp h
  have hne : b.queue k ≠ [] := by simp [hq]
  have hfirst : b.map.first? = some (k, v :: vs) := by
    refine (b.map.first?_eq_some_iff k _).mpr ⟨(b.queue_eq_of_ne_nil (by simp)).mp hq, ?_⟩
    intro k' ws hws
    refine hbest k' ?_
    rw [ne_eq, queue_eq_nil_iff, hws]
    simp
  rw [OrdMap.first?] at hfirst
  cases hes : b.map.entries with
  | nil => simp [hes] at hfirst
  | cons e es =>
    obtain rfl : e = (k, v :: vs) := by simpa [hes] using hfirst
    obtain ⟨hhead, -⟩ := List.pairwise_cons.mp (hes ▸ b.map.sorted)
    have hkeep : es.filter (fun e => e.1 ≠ k) = es := by
      refine List.filter_eq_self.mpr ?_
      intro e he
      have hke := hhead e he
      simp only [ne_eq, decide_not, Bool.not_eq_eq_eq_not, Bool.not_true, decide_eq_false_iff_not]
      intro hek
      exact irrefl k (hek ▸ hke)
    have herase : (b.setQueue k []).map.entries = es := by
      rw [setQueue, dif_pos rfl]
      change b.map.entries.filter (fun e => e.1 ≠ k) = es
      rw [hes, List.filter_cons]
      simpa using hkeep
    rw [herase]

/-- A queue set at a key ahead of all others heads the flattening. -/
theorem toList_setQueue_of_first (b : Buckets K V r) {k : K}
    (h : ∀ k', b.queue k' ≠ [] → k' = k ∨ r k k') (vs : List V) :
    (b.setQueue k vs).toList = vs.map (fun v => (k, v)) ++ (b.setQueue k []).toList := by
  cases vs with
  | nil => rfl
  | cons v vs =>
    have hbest : (b.setQueue k (v :: vs)).best? = some (k, v, vs) := by
      refine (best?_eq_some_iff _ k v vs).mpr ⟨queue_setQueue_self b k _, ?_⟩
      intro k' hk'
      rw [queue_setQueue] at hk'
      split_ifs at hk' with he
      · exact Or.inl he
      · exact h k' hk'
    have hentries := entries_of_best? hbest
    rw [setQueue_setQueue] at hentries
    rw [toList, hentries, List.flatMap_cons]
    rfl

/-- The best element heads the flattening. -/
theorem toList_of_best? {b : Buckets K V r} {k : K} {v : V} {vs : List V}
    (h : b.best? = some (k, v, vs)) : b.toList = (k, v) :: (b.setQueue k vs).toList := by
  obtain ⟨hq, hbest⟩ := (b.best?_eq_some_iff k v vs).mp h
  have hall := b.toList_setQueue_of_first hbest (v :: vs)
  rw [← hq, setQueue_queue, hq] at hall
  rw [hall, b.toList_setQueue_of_first hbest vs, List.map_cons, List.cons_append]

end Queues

end Buckets

end OrderbookEngine.SortedMap
