import Mathlib.Algebra.Order.BigOperators.Group.List
import Mathlib.Algebra.Order.Monoid.Unbundled.Pow
import Mathlib.Tactic.Abel

/-!
# Greedy allocations are cheapest

An amount is taken from a list of offers, each with a unit cost and a capacity.
The greedy allocation takes what it can from each offer in turn. If the unit
costs do not fall along the list, no other allocation of the same amount costs
less. Costs are in any ordered additive monoid.
-/

namespace OrderbookEngine.GreedyAllocation

variable {κ : Type*}

/-- Amounts of the greedy allocation, one for each offer. -/
def greedy : ℕ → List (κ × ℕ) → List ℕ
  | _, [] => []
  | amount, o :: os => min amount o.2 :: greedy (amount - min amount o.2) os

/-- Nothing is taken beyond the capacity of its offer. -/
def Fits (xs : List ℕ) (os : List (κ × ℕ)) : Prop := List.Forall₂ (fun x o => x ≤ o.2) xs os

/-- Capacity of all offers. -/
def capacity (os : List (κ × ℕ)) : ℕ := (os.map Prod.snd).sum

section Amounts

variable {xs : List ℕ} {os : List (κ × ℕ)} {o : κ × ℕ} {amount : ℕ}

/-- The capacity with one more offer in front. -/
@[simp] theorem capacity_cons (o : κ × ℕ) (os : List (κ × ℕ)) :
    capacity (o :: os) = o.2 + capacity os := by
  rw [capacity, List.map_cons, List.sum_cons, capacity]

/-- An offer that covers the amount is the only one used. -/
theorem greedy_covered (h : amount ≤ o.2) : greedy amount (o :: os) = amount :: greedy 0 os := by
  rw [greedy, min_eq_left h, Nat.sub_self]

/-- An offer that does not cover the amount is used up. -/
theorem greedy_usedUp (h : o.2 ≤ amount) :
    greedy amount (o :: os) = o.2 :: greedy (amount - o.2) os := by
  rw [greedy, min_eq_right h]

/-- What fits is within the capacity. -/
theorem Fits.sum_le (h : Fits xs os) : xs.sum ≤ capacity os := by
  induction h with
  | nil => exact Nat.le_refl 0
  | cons hle _ ih =>
    rw [List.sum_cons, capacity_cons]
    omega

end Amounts

section Costs

variable [AddCommMonoid κ]

/-- Cost of an allocation. -/
def cost (os : List (κ × ℕ)) (xs : List ℕ) : κ := (List.zipWith (fun o x => x • o.1) os xs).sum

/-- The cost with one more offer in front. -/
@[simp] theorem cost_cons (o : κ × ℕ) (os : List (κ × ℕ)) (x : ℕ) (xs : List ℕ) :
    cost (o :: os) (x :: xs) = x • o.1 + cost os xs := by
  rw [cost, List.zipWith_cons_cons, List.sum_cons, cost]

/-- Nothing costs nothing. -/
@[simp] theorem cost_greedy_zero (os : List (κ × ℕ)) : cost os (greedy 0 os) = 0 := by
  induction os with
  | nil => rfl
  | cons o os ih => rw [greedy_covered (Nat.zero_le _), cost_cons, ih, zero_nsmul, zero_add]

variable [PartialOrder κ] [IsOrderedAddMonoid κ] {os : List (κ × ℕ)} {p : κ}

/-- Some of an amount is paid at no more than the unit costs of the offers, the
rest greedily. -/
theorem nsmul_add_greedy_le (hp : ∀ o ∈ os, p ≤ o.1) {d amount : ℕ} (hd : d ≤ amount)
    (hcap : amount ≤ capacity os) :
    d • p + cost os (greedy (amount - d) os) ≤ cost os (greedy amount os) := by
  induction os generalizing d amount with
  | nil =>
    obtain rfl : amount = 0 := Nat.le_zero.mp hcap
    obtain rfl : d = 0 := Nat.le_zero.mp hd
    simp
  | cons o os ih =>
    obtain ⟨ho, hrest⟩ := List.forall_mem_cons.mp hp
    rw [capacity_cons] at hcap
    rcases le_total amount o.2 with hcover | hcover
    · -- the first offer covers the amount, with and without the part
      rw [greedy_covered hcover, greedy_covered (by omega : amount - d ≤ o.2), cost_cons,
        cost_cons, cost_greedy_zero, add_zero, add_zero]
      calc d • p + (amount - d) • o.1 ≤ d • o.1 + (amount - d) • o.1 := by
            gcongr
        _ = amount • o.1 := by rw [← add_nsmul, Nat.add_sub_cancel' hd]
    · rw [greedy_usedUp hcover, cost_cons]
      rcases le_total o.2 (amount - d) with hleft | hleft
      · -- the first offer is used up in both
        have hih := ih hrest (show d ≤ amount - o.2 by omega) (by omega)
        rw [greedy_usedUp hleft, cost_cons, add_left_comm,
          show amount - d - o.2 = amount - o.2 - d by omega]
        gcongr
      · -- the part takes all that comes after the first offer, and some of it
        have hih := ih hrest (le_refl (amount - o.2)) (by omega)
        rw [Nat.sub_self, cost_greedy_zero, add_zero] at hih
        rw [greedy_covered hleft, cost_cons, cost_greedy_zero, add_zero]
        calc d • p + (amount - d) • o.1
            = (o.2 - (amount - d)) • p + (amount - o.2) • p + (amount - d) • o.1 := by
              rw [← add_nsmul]
              congr 2
              omega
          _ ≤ (o.2 - (amount - d)) • o.1 + cost os (greedy (amount - o.2) os) +
                (amount - d) • o.1 := by
              gcongr
          _ = o.2 • o.1 + cost os (greedy (amount - o.2) os) := by
              rw [add_right_comm, ← add_nsmul, Nat.sub_add_cancel hleft]

/-- No allocation of an amount costs less than the greedy one. -/
theorem cost_greedy_le {xs : List ℕ} (hsorted : (os.map Prod.fst).Pairwise (· ≤ ·))
    (h : Fits xs os) : cost os (greedy xs.sum os) ≤ cost os xs := by
  induction h with
  | nil => exact le_refl _
  | @cons x o xs os hle hfits ih =>
    rw [List.map_cons, List.pairwise_cons] at hsorted
    have hp : ∀ o' ∈ os, o.1 ≤ o'.1 := fun o' ho' => hsorted.1 _ (List.mem_map_of_mem ho')
    have hih := ih hsorted.2
    have hcap := Fits.sum_le hfits
    rw [greedy, cost_cons, cost_cons, List.sum_cons]
    obtain ⟨d, hd⟩ : ∃ d, min (x + xs.sum) o.2 = x + d := ⟨min (x + xs.sum) o.2 - x, by omega⟩
    have hmove := nsmul_add_greedy_le hp (show d ≤ xs.sum by omega) hcap
    rw [hd, show x + xs.sum - (x + d) = xs.sum - d by omega, add_nsmul, add_assoc]
    gcongr
    exact hmove.trans hih

end Costs

end OrderbookEngine.GreedyAllocation
