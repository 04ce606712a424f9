import Mathlib.Data.List.Perm.Basic

/-!
# Reorderings that keep what each resource sees

Letters of a word use resources. Two letters without a common resource may
change places. Two words in which every resource is used by the same letters in
the same order are related by such exchanges, and a state machine whose steps
commute on letters without a common resource cannot tell them apart.
-/

namespace OrderbookEngine.Reorderings

variable {ρ α σ : Type*}

/-- Some resource is used by both letters. -/
def Share (uses : ρ → α → Bool) (x y : α) : Prop := ∃ r, uses r x = true ∧ uses r y = true

/-- Exchanges of neighbours that share no resource. -/
inductive Reorders (uses : ρ → α → Bool) : List α → List α → Prop
  | nil : Reorders uses [] []
  | cons (x : α) {xs ys : List α} : Reorders uses xs ys → Reorders uses (x :: xs) (x :: ys)
  | swap {x y : α} (xs : List α) : ¬Share uses x y → Reorders uses (x :: y :: xs) (y :: x :: xs)
  | trans {xs ys zs : List α} : Reorders uses xs ys → Reorders uses ys zs → Reorders uses xs zs

section Words

variable {uses : ρ → α → Bool} {x : α} {xs ys front : List α}

/-- A word is a reordering of itself. -/
theorem Reorders.refl (xs : List α) : Reorders uses xs xs := by
  induction xs with
  | nil => exact Reorders.nil
  | cons x xs ih => exact Reorders.cons x ih

/-- Reorderings are permutations. -/
theorem Reorders.perm (h : Reorders uses xs ys) : xs.Perm ys := by
  induction h with
  | nil => exact List.Perm.refl []
  | cons x _ ih => exact ih.cons x
  | swap xs _ => exact List.Perm.swap _ _ _
  | trans _ _ ih ih' => exact ih.trans ih'

/-- A letter goes before letters with which it shares nothing. -/
theorem Reorders.move (h : ∀ y ∈ front, ¬Share uses x y) (rest : List α) :
    Reorders uses (x :: (front ++ rest)) (front ++ x :: rest) := by
  induction front with
  | nil => exact Reorders.refl _
  | cons y front ih =>
    rw [List.forall_mem_cons] at h
    exact Reorders.trans (Reorders.swap _ h.1) (Reorders.cons y (ih h.2))

/-- The first letter of a word is found in the other word behind letters with
which it shares nothing. -/
theorem exists_split (hsome : ∃ r, uses r x = true)
    (h : ∀ r, (x :: xs).filter (uses r) = ys.filter (uses r)) :
    ∃ front rest, ys = front ++ x :: rest ∧ (∀ y ∈ front, ¬Share uses x y) ∧
      ∀ r, xs.filter (uses r) = (front ++ rest).filter (uses r) := by
  obtain ⟨r₀, hr₀⟩ := hsome
  have hfirst := h r₀
  rw [List.filter_cons_of_pos hr₀] at hfirst
  obtain ⟨front, rest, rfl, hfront, -, -⟩ := List.filter_eq_cons_iff.mp hfirst.symm
  have hx : x ∉ front := fun hx => hfront x hx hr₀
  -- what another resource of the letter sees starts with the letter as well
  have hnone : ∀ r, uses r x = true → front.filter (uses r) = [] := by
    intro r hr
    have hword := h r
    rw [List.filter_cons_of_pos hr, List.filter_append] at hword
    cases hf : front.filter (uses r) with
    | nil => rfl
    | cons y ys =>
      rw [hf, List.cons_append, List.cons.injEq] at hword
      have hy : y ∈ front := (List.mem_filter.mp (hf ▸ List.mem_cons_self)).1
      exact absurd (hword.1 ▸ hy) hx
  refine ⟨front, rest, rfl, fun y hy hshare => ?_, fun r => ?_⟩
  · obtain ⟨r, hr, hry⟩ := hshare
    have hmem : y ∈ front.filter (uses r) := List.mem_filter.mpr ⟨hy, hry⟩
    rw [hnone r hr] at hmem
    cases hmem
  · have hword := h r
    rw [List.filter_append] at hword ⊢
    by_cases hr : uses r x = true
    · rw [List.filter_cons_of_pos hr, List.filter_cons_of_pos hr, hnone r hr, List.nil_append,
        List.cons.injEq] at hword
      rw [hnone r hr, List.nil_append, hword.2]
    · rw [List.filter_cons_of_neg hr, List.filter_cons_of_neg hr] at hword
      exact hword

/-- Words that every resource sees alike are reorderings of each other. -/
theorem reorders_of_seen (hxs : ∀ x ∈ xs, ∃ r, uses r x = true)
    (hys : ∀ y ∈ ys, ∃ r, uses r y = true)
    (h : ∀ r, xs.filter (uses r) = ys.filter (uses r)) : Reorders uses xs ys := by
  induction xs generalizing ys with
  | nil =>
    cases ys with
    | nil => exact Reorders.nil
    | cons y ys =>
      obtain ⟨r, hr⟩ := hys y List.mem_cons_self
      have hword := h r
      rw [List.filter_cons_of_pos hr] at hword
      cases hword
  | cons x xs ih =>
    obtain ⟨front, rest, rfl, hfront, hseen⟩ := exists_split (hxs x List.mem_cons_self) h
    have hrest : ∀ y ∈ front ++ rest, ∃ r, uses r y = true := fun y hy => by
      rcases List.mem_append.mp hy with hy | hy
      · exact hys y (List.mem_append_left _ hy)
      · exact hys y (List.mem_append_right _ (List.mem_cons_of_mem _ hy))
    have htail := ih (fun y hy => hxs y (List.mem_cons_of_mem _ hy)) hrest hseen
    exact Reorders.trans (Reorders.cons x htail) (Reorders.move hfront rest)

/-- Runs of a machine whose steps keep an invariant and commute under it. -/
theorem Reorders.foldl_eq {step : σ → α → σ} {inv : σ → Prop}
    (hstep : ∀ s x, inv s → inv (step s x))
    (hcomm : ∀ s x y, inv s → ¬Share uses x y → step (step s x) y = step (step s y) x)
    (h : Reorders uses xs ys) {s : σ} (hs : inv s) : xs.foldl step s = ys.foldl step s := by
  induction h generalizing s with
  | nil => rfl
  | cons x _ ih => exact ih (hstep s x hs)
  | swap xs hshare =>
    rw [List.foldl_cons, List.foldl_cons, List.foldl_cons, List.foldl_cons, hcomm s _ _ hs hshare]
  | trans _ _ ih ih' => exact (ih hs).trans (ih' hs)

end Words

end OrderbookEngine.Reorderings
