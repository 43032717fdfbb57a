import SimpleOS.Lib.Run

/-! # Clocks that do not stall

A system has a clock and a rank. Every step either lowers the rank, or advances the clock by one and leaves a rank
below a bound. Then only so many steps fit between two ticks, and a long run has a late end.
-/

namespace SimpleOS.Lib

variable {σ ε : Type*} {clock rank : σ → ℕ} {bound : ℕ} {step : σ → ε → σ → Prop} {s t : σ} {labels : List ε}

/-- A step that lowers the rank, or a tick. -/
inductive Ranked (clock rank : σ → ℕ) (bound : ℕ) (s t : σ) : Prop
  | lower (still : clock t = clock s) (less : rank t < rank s) : Ranked clock rank bound s t
  | tick (next : clock t = clock s + 1) (within : rank t ≤ bound) : Ranked clock rank bound s t

/-- A run takes at most the rank of its start, and `bound + 1` steps for each tick. -/
theorem Run.length_le (run : Run step s labels t)
    (ranked : ∀ before now label after, Run step s before now → step now label after →
      Ranked clock rank bound now after) :
    clock s ≤ clock t ∧ labels.length + rank t ≤ rank s + (bound + 1) * (clock t - clock s) := by
  induction run with
  | start => exact ⟨Nat.le_refl _, by simp⟩
  | @next labels now after label earlier taken ih =>
    obtain ⟨later, steps⟩ := ih
    rw [List.length_append, List.length_singleton]
    cases ranked _ _ _ _ earlier taken with
    | lower still less =>
      rw [still]
      exact ⟨later, by omega⟩
    | tick next within =>
      have ticks : clock after - clock s = clock now - clock s + 1 := by omega
      rw [ticks, Nat.mul_add, Nat.mul_one]
      exact ⟨by omega, by omega⟩

end SimpleOS.Lib
