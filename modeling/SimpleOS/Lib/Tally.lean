import Mathlib.Algebra.Group.Action.Defs
import Mathlib.Algebra.Order.BigOperators.Group.Finset

/-! # Counting over finitely many cells

A tally adds up a weight over the cells of a store. Changing one cell changes the tally by that cell
alone, and a tally of ones and zeros that is one singles out a cell.
-/

namespace SimpleOS.Lib

open Finset

variable {α β : Type*} [Fintype α] [DecidableEq α]

/-- The sum of a weight over all cells. -/
def tally (weight : β → ℕ) (cells : α → β) : ℕ := ∑ a, weight (cells a)

variable {weight : β → ℕ} {cells : α → β}

/-- One cell changes: what it weighed and what it weighs balance. -/
theorem tally_update (weight : β → ℕ) (cells : α → β) (a : α) (b : β) :
    tally weight (Function.update cells a b) + weight (cells a) = tally weight cells + weight b := by
  have rest : ∑ x ∈ univ.erase a, weight (Function.update cells a b x) =
      ∑ x ∈ univ.erase a, weight (cells x) :=
    sum_congr rfl fun x other => by rw [Function.update_of_ne (ne_of_mem_erase other)]
  rw [tally, tally, ← add_sum_erase univ _ (mem_univ a), ← add_sum_erase univ _ (mem_univ a), rest,
    Function.update_self]
  omega

/-- The same for two stores that differ in one cell. -/
theorem tally_of_others (weight : β → ℕ) {cells' : α → β} {a : α} (others : ∀ b, b ≠ a → cells' b = cells b) :
    tally weight cells' + weight (cells a) = tally weight cells + weight (cells' a) := by
  have one : cells' = Function.update cells a (cells' a) := by
    funext b
    by_cases here : b = a
    · rw [here, Function.update_self]
    · rw [Function.update_of_ne here, others b here]
  have balance := tally_update weight cells a (cells' a)
  rwa [← one] at balance

omit [DecidableEq α] in
theorem le_tally (weight : β → ℕ) (cells : α → β) (a : α) : weight (cells a) ≤ tally weight cells :=
  single_le_sum (f := fun x => weight (cells x)) (fun _ _ => Nat.zero_le _) (mem_univ a)

omit [DecidableEq α] in
theorem tally_eq_zero_iff : tally weight cells = 0 ↔ ∀ a, weight (cells a) = 0 := by
  simp [tally, sum_eq_zero_iff]

omit [DecidableEq α] in
/-- No tally is above the heaviest cell times their number. -/
theorem tally_le {bound : ℕ} (light : ∀ a, weight (cells a) ≤ bound) :
    tally weight cells ≤ Fintype.card α * bound := by
  have all := sum_le_card_nsmul univ (fun a => weight (cells a)) bound fun a _ => light a
  rwa [card_univ, smul_eq_mul] at all

/-- Two cells weigh no more than all. -/
theorem add_le_tally (weight : β → ℕ) (cells : α → β) {a b : α} (apart : a ≠ b) :
    weight (cells a) + weight (cells b) ≤ tally weight cells := by
  have below : weight (cells b) ≤ ∑ x ∈ univ.erase a, weight (cells x) :=
    single_le_sum (f := fun x => weight (cells x)) (fun _ _ => Nat.zero_le _)
      (mem_erase.mpr ⟨apart.symm, mem_univ b⟩)
  rw [tally, ← add_sum_erase univ _ (mem_univ a)]
  exact Nat.add_le_add_left below _

/-- When one summand changes, and something beside the sum with it, their balance is that of the sums. -/
theorem sum_add_le_of_others {γ : Type*} [AddCommMonoid γ] [PartialOrder γ] [IsOrderedAddMonoid γ] {f g : α → γ}
    {x y : γ} (a : α) (others : ∀ b, b ≠ a → f b = g b) (own : f a + x ≤ g a + y) : ∑ b, f b + x ≤ ∑ b, g b + y := by
  have rest : ∑ b ∈ univ.erase a, f b = ∑ b ∈ univ.erase a, g b :=
    sum_congr rfl fun b member => others b (ne_of_mem_erase member)
  calc ∑ b, f b + x = ∑ b ∈ univ.erase a, f b + (f a + x) := by
        rw [← sum_erase_add univ f (mem_univ a), add_assoc]
    _ ≤ ∑ b ∈ univ.erase a, g b + (g a + y) := by
        rw [rest]
        exact add_le_add_right own _
    _ = ∑ b, g b + y := by rw [← sum_erase_add univ g (mem_univ a), add_assoc]

omit [DecidableEq α] in
/-- Lists that cover a set have as many entries together. -/
theorem card_le_tally {γ : Type*} [DecidableEq γ] {lists : α → List γ} {S : Finset γ}
    (covered : ∀ x ∈ S, ∃ a, x ∈ lists a) : S.card ≤ tally List.length lists := by
  have inside : S ⊆ univ.biUnion fun a => (lists a).toFinset := by
    intro x member
    obtain ⟨a, there⟩ := covered x member
    exact mem_biUnion.mpr ⟨a, mem_univ a, List.mem_toFinset.mpr there⟩
  calc S.card ≤ (univ.biUnion fun a => (lists a).toFinset).card := card_le_card inside
    _ ≤ ∑ a, (lists a).toFinset.card := card_biUnion_le
    _ ≤ tally List.length lists := sum_le_sum fun a _ => List.toFinset_card_le _

/-- A tally that is one has exactly one cell with a weight. -/
theorem existsUnique_of_tally_eq_one (one : tally weight cells = 1) : ∃! a, 0 < weight (cells a) := by
  obtain ⟨a, positive⟩ : ∃ a, 0 < weight (cells a) := by
    apply not_forall_not.mp
    intro none
    have zero : tally weight cells = 0 :=
      tally_eq_zero_iff.mpr fun a => Nat.eq_zero_of_not_pos (none a)
    omega
  refine ⟨a, positive, fun b weighed => ?_⟩
  apply not_ne_iff.mp
  intro apart
  have both := add_le_tally weight cells apart
  omega

end SimpleOS.Lib
