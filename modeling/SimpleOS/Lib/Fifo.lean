import SimpleOS.Lib.Run

/-! # Order of service

A buffer holds items by age, the oldest first. A step takes items in and hands items out; it keeps the order when
what it hands out and what remains are the contents before, followed by what it took in. A run keeps the order
when the same holds of all it took in and handed out together.
-/

namespace SimpleOS.Lib

variable {σ ε α : Type*}

/-- What a system shows of a buffer: its contents by age, and the items that a step takes in and hands out. -/
structure Buffer (σ ε α : Type*) where
  contents : σ → List α
  intake : ε → List α
  served : ε → List α

namespace Buffer

variable {buffer : Buffer σ ε α} {step : σ → ε → σ → Prop} {ok : σ → ε → Prop}
  {s now after : σ} {label : ε} {labels : List ε}

/-- First in, first out, over a sequence of steps. -/
def InOrder (buffer : Buffer σ ε α) (s : σ) (labels : List ε) (now : σ) : Prop :=
  labels.flatMap buffer.served ++ buffer.contents now = buffer.contents s ++ labels.flatMap buffer.intake

theorem inOrder_nil : buffer.InOrder s [] s := by simp [InOrder]

/-- After a run in order, the order is kept exactly by a step in order. -/
theorem InOrder.next_iff (earlier : buffer.InOrder s labels now) :
    buffer.InOrder s (labels ++ [label]) after ↔ buffer.InOrder now [label] after := by
  simp only [InOrder, List.flatMap_append, List.flatMap_singleton, ← List.append_assoc] at earlier ⊢
  rw [← earlier, List.append_assoc, List.append_assoc, List.append_cancel_left_eq]

/-- Steps in order make a run in order. -/
theorem inOrder_of_run (run : Run (guarded ok step) s labels now)
    (ordered : ∀ now label after, ok now label → step now label after → buffer.InOrder now [label] after) :
    buffer.InOrder s labels now := by
  induction run with
  | start => exact inOrder_nil
  | next _ taken ih => exact ih.next_iff.mpr (ordered _ _ _ taken.1 taken.2)

end Buffer

/-- An item in front of a list commutes with it exactly when the list repeats that item. -/
theorem cons_eq_concat_iff {a : α} {l : List α} : a :: l = l ++ [a] ↔ ∀ b ∈ l, b = a := by
  induction l with
  | nil => simp
  | cons b l ih =>
    constructor
    · intro same
      rw [List.cons_append, List.cons.injEq] at same
      obtain ⟨rfl, same⟩ := same
      rw [List.forall_mem_cons]
      exact ⟨rfl, ih.mp same⟩
    · intro same
      rw [List.forall_mem_cons] at same
      obtain ⟨rfl, same⟩ := same
      rw [List.cons_append, ← ih.mpr same]

end SimpleOS.Lib
