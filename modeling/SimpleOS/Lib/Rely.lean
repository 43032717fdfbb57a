import SimpleOS.Lib.Run

/-! # One component among others

A component takes its own steps, and between them the others do whatever a relation on the states allows.
What holds in every such run holds whatever the others are. A run of a whole system is one when each of its
steps is a step of the component or keeps to the relation.
-/

namespace SimpleOS.Lib

variable {σ ε : Type*} {own rely : σ → σ → Prop} {s t : σ}

/-- A step of the component, with the label `true`, or of the others. -/
inductive Among (own rely : σ → σ → Prop) (s : σ) : Bool → σ → Prop
  | own {t : σ} (taken : own s t) : Among own rely s true t
  | rely {t : σ} (allowed : rely s t) : Among own rely s false t

/-- A run of a system whose steps split is a run of the component among the others. -/
theorem Run.among {step : σ → ε → σ → Prop} {labels : List ε} (run : Run step s labels t)
    (split : ∀ before now label after, Run step s before now → step now label after →
      own now after ∨ rely now after) : ∃ turns, Run (Among own rely) s turns t := by
  induction run with
  | start => exact ⟨[], .start⟩
  | next earlier taken ih =>
    obtain ⟨turns, now⟩ := ih
    obtain mine | others := split _ _ _ _ earlier taken
    · exact ⟨_, now.next (.own mine)⟩
    · exact ⟨_, now.next (.rely others)⟩

end SimpleOS.Lib
