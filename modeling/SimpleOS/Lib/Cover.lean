import Mathlib.Data.List.Basic

/-! # Lists of sets that share no point

The members of a list are pairwise disjoint exactly when no point lies in two of them, counted with
repetitions. A change of the list that keeps this count at every point keeps both the union and the
disjointness.
-/

namespace SimpleOS.Lib

variable {α β : Type*} {contains : α → β → Prop} [∀ a x, Decidable (contains a x)] {l m : List α}

/-- No point is in both. -/
def Apart (contains : α → β → Prop) (a b : α) : Prop := ∀ x, ¬(contains a x ∧ contains b x)

theorem pairwise_apart_iff :
    l.Pairwise (Apart contains) ↔ ∀ x, l.countP (fun a => contains a x) ≤ 1 := by
  induction l with
  | nil => simp
  | cons a l ih =>
    rw [List.pairwise_cons, ih]
    simp only [List.countP_cons, decide_eq_true_eq]
    constructor
    · rintro ⟨first, rest⟩ x
      split
      · rename_i here
        have none : l.countP (fun b => contains b x) = 0 := by
          apply List.countP_eq_zero.mpr
          intro b member there
          exact first b member x ⟨here, of_decide_eq_true there⟩
        omega
      · exact rest x
    · intro once
      refine ⟨?_, fun x => Nat.le_trans (Nat.le_add_right _ _) (once x)⟩
      rintro b member x ⟨here, there⟩
      have counted : 0 < l.countP (fun b => contains b x) :=
        List.countP_pos_iff.mpr ⟨b, member, decide_eq_true there⟩
      have bound := once x
      rw [if_pos here] at bound
      omega

theorem exists_contains_iff {x : β} : (∃ a ∈ l, contains a x) ↔ 0 < l.countP (fun a => contains a x) := by
  simp [List.countP_pos_iff]

end SimpleOS.Lib
