import Mathlib.Data.List.Nodup
import Mathlib.Logic.Function.Basic
import Mathlib.Tactic.Common

/-!
# Intrusive doubly linked lists over a shared array of links

Several lists thread through one pair of link functions. A list is described
by the sequence of slots that following next from its head visits, which is
the reverse of the sequence that following prev from its tail visits. Append
and removal act on the sequence and write only to slots of the same list.
-/

namespace OrderbookEngine.LinkedSlots

/-- Links of all slots in both directions. -/
structure Links (ι : Type*) where
  /-- Successor of a slot. -/
  next : ι → Option ι
  /-- Predecessor of a slot. -/
  prev : ι → Option ι

/-- Ends of one list. -/
structure Ends (ι : Type*) where
  /-- First slot. -/
  head : Option ι
  /-- Last slot. -/
  tail : Option ι

/-- Following the links from one optional slot visits exactly the listed
slots and arrives at the other. -/
def Walk {ι : Type*} (next : ι → Option ι) : Option ι → List ι → Option ι → Prop
  | start, [], stop => start = stop
  | start, i :: is, stop => start = some i ∧ Walk next (next i) is stop

section Walks

variable {ι : Type*} {next next' : ι → Option ι}

/-- A walk over a concatenation passes through the point between the parts. -/
theorem walk_append {start stop : Option ι} {is js : List ι} :
    Walk next start (is ++ js) stop ↔
      ∃ middle, Walk next start is middle ∧ Walk next middle js stop := by
  induction is generalizing start with
  | nil => simp [Walk]
  | cons i is ih =>
    simp only [List.cons_append, Walk, ih]
    constructor
    · rintro ⟨h, middle, hi, hj⟩
      exact ⟨middle, ⟨h, hi⟩, hj⟩
    · rintro ⟨middle, ⟨h, hi⟩, hj⟩
      exact ⟨h, middle, hi, hj⟩

/-- A walk depends only on the links of the slots it visits. -/
theorem Walk.congr {start stop : Option ι} {is : List ι} (h : Walk next start is stop)
    (hnext : ∀ i ∈ is, next' i = next i) : Walk next' start is stop := by
  induction is generalizing start with
  | nil => exact h
  | cons i is ih =>
    refine ⟨h.1, ?_⟩
    rw [hnext i List.mem_cons_self]
    exact ih h.2 fun j hj => hnext j (List.mem_cons_of_mem _ hj)

/-- The slots visited are determined by the links and the ends. -/
theorem Walk.unique {start : Option ι} {is js : List ι} (hi : Walk next start is none)
    (hj : Walk next start js none) : is = js := by
  induction is generalizing start js with
  | nil =>
    cases js with
    | nil => rfl
    | cons j js =>
      have h : start = none := hi
      have h' : start = some j := hj.1
      rw [h] at h'
      cases h'
  | cons i is ih =>
    cases js with
    | nil =>
      have h : start = some i := hi.1
      have h' : start = none := hj
      rw [h] at h'
      cases h'
    | cons j js =>
      have hij : some i = some j := hi.1.symm.trans hj.1
      cases hij
      rw [ih hi.2 hj.2]

/-- A walk that ends visits no slot twice. -/
theorem Walk.nodup {start : Option ι} {is : List ι} (h : Walk next start is none) :
    is.Nodup := by
  induction is generalizing start with
  | nil => exact List.nodup_nil
  | cons i is ih =>
    refine List.nodup_cons.mpr ⟨?_, ih h.2⟩
    intro hmem
    obtain ⟨js, ks, rfl⟩ := List.append_of_mem hmem
    obtain ⟨middle, -, hmiddle⟩ := walk_append.mp h.2
    have hlen := congrArg List.length (Walk.unique h.2 hmiddle.2)
    simp only [List.length_append, List.length_cons] at hlen
    omega

/-- A walk that ends visits the slot it starts from. -/
theorem Walk.start_mem {i : ι} {is : List ι} (h : Walk next (some i) is none) : i ∈ is := by
  cases is with
  | nil => cases h
  | cons j js =>
    have hij : some i = some j := h.1
    cases hij
    exact List.mem_cons_self

/-- A walk starts at its first member. -/
theorem Walk.head_eq {start stop : Option ι} {i : ι} {is : List ι}
    (h : Walk next start (i :: is) stop) : start = some i := h.1

end Walks

/-- The ends delimit a list that visits the listed slots in both directions. -/
structure IsList {ι : Type*} (links : Links ι) (ends : Ends ι) (is : List ι) : Prop where
  /-- Following next from the head. -/
  forward : Walk links.next ends.head is none
  /-- Following prev from the tail. -/
  backward : Walk links.prev ends.tail is.reverse none

/-- Exchange the two directions. -/
def Links.swap {ι : Type*} (links : Links ι) : Links ι := ⟨links.prev, links.next⟩

/-- Exchange the two ends. -/
def Ends.swap {ι : Type*} (ends : Ends ι) : Ends ι := ⟨ends.tail, ends.head⟩

/-- Read backwards a list is a list. -/
theorem IsList.swap {ι : Type*} {links : Links ι} {ends : Ends ι} {is : List ι}
    (h : IsList links ends is) : IsList links.swap ends.swap is.reverse :=
  ⟨h.backward, by simpa [Links.swap, Ends.swap] using h.forward⟩

/-- No member is twice in a list. -/
theorem IsList.nodup {ι : Type*} {links : Links ι} {ends : Ends ι} {is : List ι}
    (h : IsList links ends is) : is.Nodup := h.forward.nodup

/-- A list depends on the links of its members alone. -/
theorem IsList.congr {ι : Type*} {links links' : Links ι} {ends : Ends ι} {is : List ι}
    (h : IsList links ends is) (hnext : ∀ i ∈ is, links'.next i = links.next i)
    (hprev : ∀ i ∈ is, links'.prev i = links.prev i) : IsList links' ends is :=
  ⟨h.forward.congr hnext, h.backward.congr fun i hi => hprev i (List.mem_reverse.mp hi)⟩

/-- A list whose tail is absent is empty, and its tail is otherwise last. -/
theorem IsList.tail_cases {ι : Type*} {links : Links ι} {ends : Ends ι} {is : List ι}
    (h : IsList links ends is) :
    (ends.tail = none ∧ is = []) ∨ ∃ js t, ends.tail = some t ∧ is = js ++ [t] := by
  rcases List.eq_nil_or_concat is with rfl | ⟨js, t, rfl⟩
  · exact Or.inl ⟨h.backward, rfl⟩
  · refine Or.inr ⟨js, t, ?_, by simp⟩
    have hb := h.backward
    simp only [List.concat_eq_append, List.reverse_append, List.reverse_cons, List.reverse_nil,
      List.nil_append, List.cons_append] at hb
    exact hb.head_eq

section Chains

variable {ι : Type*} {links : Links ι} {ends : Ends ι} {is : List ι}

/-- The head of a list is its first member. -/
theorem IsList.head_eq (h : IsList links ends is) : ends.head = is.head? := by
  cases is with
  | nil => exact h.forward
  | cons i is => exact h.forward.head_eq

/-- The tail of a list is its last member. -/
theorem IsList.tail_eq (h : IsList links ends is) : ends.tail = is.getLast? := by
  rw [← List.head?_reverse]
  exact h.swap.head_eq

/-- The neighbours of a slot in the middle of a list. -/
theorem IsList.neighbours {js : List ι} {i : ι} (h : IsList links ends (is ++ i :: js)) :
    Walk links.next ends.head is (some i) ∧ Walk links.next (links.next i) js none ∧
      Walk links.prev (links.prev i) is.reverse none := by
  obtain ⟨middle, hleft, hright⟩ := walk_append.mp h.forward
  have hback := h.backward
  rw [List.reverse_append, List.reverse_cons, List.append_assoc] at hback
  obtain ⟨middle', -, hmid⟩ := walk_append.mp hback
  refine ⟨?_, hright.2, hmid.2⟩
  rw [← hright.head_eq]
  exact hleft

/-- The successor of a listed slot is listed and leads back to it. -/
theorem IsList.prev_of_next {i j : ι} (h : IsList links ends is) (hi : i ∈ is)
    (hnext : links.next i = some j) : j ∈ is ∧ links.prev j = some i := by
  obtain ⟨before, later, rfl⟩ := List.append_of_mem hi
  have hlater := h.neighbours.2.1
  rw [hnext] at hlater
  cases later with
  | nil => cases hlater
  | cons k later =>
    have hjk : some j = some k := hlater.head_eq
    cases hjk
    have hassoc : before ++ i :: j :: later = (before ++ [i]) ++ j :: later := by simp
    refine ⟨by simp, ?_⟩
    rw [hassoc] at h
    have hback := h.neighbours.2.2
    rw [List.reverse_append] at hback
    exact hback.head_eq

/-- Within a list the two directions undo each other. -/
theorem IsList.inverse {i j : ι} (h : IsList links ends is) :
    (i ∈ is ∧ links.next i = some j) ↔ (j ∈ is ∧ links.prev j = some i) := by
  constructor
  · rintro ⟨hi, hnext⟩
    exact h.prev_of_next hi hnext
  · rintro ⟨hj, hprev⟩
    obtain ⟨hi, hnext⟩ := h.swap.prev_of_next (List.mem_reverse.mpr hj) hprev
    exact ⟨List.mem_reverse.mp hi, hnext⟩

end Chains

section Updates

variable {ι : Type*} [DecidableEq ι]

/-- Write the links of a slot put after the tail. -/
def Links.append (links : Links ι) (ends : Ends ι) (i : ι) : Links ι where
  next :=
    match ends.tail with
    | some t => Function.update (Function.update links.next i none) t (some i)
    | none => Function.update links.next i none
  prev := Function.update links.prev i ends.tail

/-- Move the tail to an appended slot, and the head too if there was none. -/
def Ends.append (ends : Ends ι) (i : ι) : Ends ι where
  head :=
    match ends.tail with
    | some _ => ends.head
    | none => some i
  tail := some i

/-- Appending a slot that is not in the list puts it last. -/
theorem IsList.append {links : Links ι} {ends : Ends ι} {is : List ι} {i : ι}
    (h : IsList links ends is) (hi : i ∉ is) :
    IsList (links.append ends i) (ends.append i) (is ++ [i]) := by
  constructor
  · rcases h.tail_cases with ⟨htail, rfl⟩ | ⟨js, t, htail, rfl⟩
    · simp [Links.append, Ends.append, htail, Walk]
    · have hit : i ≠ t := by
        rintro rfl
        exact hi (by simp)
      have htj : t ∉ js := by
        have hn := h.nodup
        rw [List.nodup_append] at hn
        exact fun hmem => hn.2.2 t hmem t List.mem_cons_self rfl
      obtain ⟨middle, hjs, ht⟩ := walk_append.mp h.forward
      simp only [Links.append, Ends.append, htail]
      refine walk_append.mpr ⟨some i, walk_append.mpr ⟨middle, ?_, ?_⟩, ?_⟩
      · refine hjs.congr fun j hj => ?_
        have hjt : j ≠ t := fun he => htj (he ▸ hj)
        have hji : j ≠ i := fun he => hi (by simp [← he, hj])
        rw [Function.update_of_ne hjt, Function.update_of_ne hji]
      · exact ⟨ht.head_eq, by simp [Walk]⟩
      · exact ⟨rfl, by simp [Walk, hit]⟩
  · have hback : Walk (links.append ends i).prev ends.tail is.reverse none := by
      refine h.backward.congr fun j hj => ?_
      have hji : j ≠ i := fun he => hi (he ▸ List.mem_reverse.mp hj)
      exact Function.update_of_ne hji _ _
    rw [List.reverse_append]
    refine ⟨rfl, ?_⟩
    simpa [Links.append] using hback

/-- Stitch the neighbours of a slot together and clear its own links. -/
def Links.remove (links : Links ι) (i : ι) : Links ι where
  next :=
    match links.prev i with
    | some p => Function.update (Function.update links.next p (links.next i)) i none
    | none => Function.update links.next i none
  prev :=
    match links.next i with
    | some x => Function.update (Function.update links.prev x (links.prev i)) i none
    | none => Function.update links.prev i none

/-- Move the ends past a removed slot. -/
def Ends.remove (ends : Ends ι) (links : Links ι) (i : ι) : Ends ι where
  head :=
    match links.prev i with
    | some _ => ends.head
    | none => links.next i
  tail :=
    match links.next i with
    | some _ => ends.tail
    | none => links.prev i

/-- Removing a slot keeps the forward walk over the others. -/
theorem forward_remove {links : Links ι} {ends : Ends ι} {is js : List ι} {i : ι}
    (h : IsList links ends (is ++ i :: js)) :
    Walk (links.remove i).next (ends.remove links i).head (is ++ js) none := by
  obtain ⟨hleft, hright, hback⟩ := h.neighbours
  have hn := h.nodup
  rw [List.nodup_append, List.nodup_cons] at hn
  obtain ⟨hnis, ⟨hij, -⟩, hdis⟩ := hn
  have hiis : i ∉ is := fun hm => hdis i hm i List.mem_cons_self rfl
  rcases List.eq_nil_or_concat is with rfl | ⟨ks, p, rfl⟩
  · have hprev : links.prev i = none := hback
    simp only [Links.remove, Ends.remove, hprev, List.nil_append]
    refine hright.congr fun j hj => Function.update_of_ne ?_ _ _
    exact fun he => hij (he ▸ hj)
  · rw [List.concat_eq_append] at *
    have hprev : links.prev i = some p := by
      rw [List.reverse_append] at hback
      exact hback.head_eq
    have hpi : p ≠ i := by
      rintro rfl
      exact hiis (by simp)
    have hpk : p ∉ ks := by
      rw [List.nodup_append] at hnis
      exact fun hm => hnis.2.2 p hm p List.mem_cons_self rfl
    obtain ⟨middle, hks, hp⟩ := walk_append.mp hleft
    simp only [Links.remove, Ends.remove, hprev]
    refine walk_append.mpr ⟨links.next i, walk_append.mpr ⟨middle, ?_, ?_⟩, ?_⟩
    · refine hks.congr fun j hj => ?_
      have hji : j ≠ i := fun he => hiis (by simp [← he, hj])
      have hjp : j ≠ p := fun he => hpk (he ▸ hj)
      rw [Function.update_of_ne hji, Function.update_of_ne hjp]
    · exact ⟨hp.head_eq, by simp [Walk, hpi]⟩
    · refine hright.congr fun j hj => ?_
      have hji : j ≠ i := fun he => hij (he ▸ hj)
      have hjp : j ≠ p := fun he => hdis p (by simp) p (by simp [← he, hj]) rfl
      rw [Function.update_of_ne hji, Function.update_of_ne hjp]

omit [DecidableEq ι] in
/-- Removal may be read backwards, for the ends. -/
theorem Ends.swap_remove (ends : Ends ι) (links : Links ι) (i : ι) :
    (ends.remove links i).swap = ends.swap.remove links.swap i := by
  simp only [Ends.remove, Ends.swap, Links.swap]

/-- Removal may be read backwards, for the links. -/
theorem Links.swap_remove (links : Links ι) (i : ι) :
    (links.remove i).swap = links.swap.remove i := by
  simp only [Links.remove, Links.swap]

/-- Removing a slot anywhere in a list removes it from the sequence. The
backward half is the forward half of the exchanged directions. -/
theorem IsList.remove {links : Links ι} {ends : Ends ι} {is js : List ι} {i : ι}
    (h : IsList links ends (is ++ i :: js)) :
    IsList (links.remove i) (ends.remove links i) (is ++ js) := by
  refine ⟨forward_remove h, ?_⟩
  have hswap : IsList links.swap ends.swap (js.reverse ++ i :: is.reverse) := by
    have := h.swap
    rwa [List.reverse_append, List.reverse_cons, List.append_assoc] at this
  have hfwd := forward_remove hswap
  rw [← Links.swap_remove, ← Ends.swap_remove] at hfwd
  rw [List.reverse_append]
  exact hfwd

end Updates

end OrderbookEngine.LinkedSlots
