import Mathlib.Data.List.Basic

/-! # Finite labeled runs of a step relation

`Run step s labels t` grows at its end: the last constructor adds the latest step. Induction on a
run therefore sees the state before the latest step together with everything that led there,
which is the shape every safety argument of this development has. `guarded ok step` keeps only
the steps that meet a condition on the state before them; its runs are the runs all of whose
steps meet `ok`.
-/

namespace SimpleOS.Lib

variable {σ ε : Type*}

/-- A finite run from `s`, with the labels of its steps in order. -/
inductive Run (step : σ → ε → σ → Prop) (s : σ) : List ε → σ → Prop
  | start : Run step s [] s
  | next {labels : List ε} {now after : σ} {label : ε} (earlier : Run step s labels now)
      (taken : step now label after) : Run step s (labels ++ [label]) after

/-- The steps whose source and label meet a condition. -/
def guarded (ok : σ → ε → Prop) (step : σ → ε → σ → Prop) (s : σ) (label : ε) (t : σ) : Prop :=
  ok s label ∧ step s label t

/-- Steps with a log of what they do, which they only add to. -/
def logged {α : Type*} (event : σ → ε → List α) (step : σ → ε → σ → Prop) (s : σ × List α) (label : ε)
    (t : σ × List α) : Prop :=
  step s.1 label t.1 ∧ t.2 = s.2 ++ event s.1 label

namespace Run

variable {step : σ → ε → σ → Prop} {s now t : σ} {label : ε} {before labels : List ε}

theorem one (taken : step s label t) : Run step s [label] t := Run.next .start taken

/-- Runs compose at their shared state. -/
theorem trans (earlier : Run step s before now) (later : Run step now labels t) :
    Run step s (before ++ labels) t := by
  induction later with
  | start => simpa using earlier
  | next _ taken ih => simpa only [List.append_assoc] using ih.next taken

/-- What every step keeps, every run keeps. -/
theorem keeps {Inv : σ → Prop} (run : Run step s labels t) (initial : Inv s)
    (preserved : ∀ now label after, Inv now → step now label after → Inv after) : Inv t := by
  induction run with
  | start => exact initial
  | next _ taken ih => exact preserved _ _ _ ih taken

/-- Every step of the larger relation keeps the run. -/
theorem mono {larger : σ → ε → σ → Prop} (run : Run step s labels t)
    (included : ∀ now label after, step now label after → larger now label after) :
    Run larger s labels t := by
  induction run with
  | start => exact .start
  | next _ taken ih => exact ih.next (included _ _ _ taken)

/-- A run of a step function, computed from its labels. -/
theorem of_foldlM {next : σ → ε → Option σ} {labels : List ε} {s t : σ}
    (computed : labels.foldlM next s = some t) :
    Run (fun now label after => next now label = some after) s labels t := by
  induction labels generalizing s with
  | nil =>
    cases computed
    exact .start
  | cons label labels ih =>
    obtain ⟨now, taken, rest⟩ := Option.bind_eq_some_iff.mp computed
    have first : Run (fun now label after => next now label = some after) s [label] now := .one taken
    exact first.trans (ih rest)

/-- A run of guarded steps, computed from its labels. -/
theorem of_guarded_foldlM {next : σ → ε → Option σ} {ok : σ → ε → Prop}
    [∀ now label, Decidable (ok now label)] {labels : List ε} {s t : σ}
    (computed : labels.foldlM (fun now label => if ok now label then next now label else none) s = some t) :
    Run (guarded ok fun now label after => next now label = some after) s labels t := by
  apply (of_foldlM computed).mono
  intro now label after taken
  split_ifs at taken with met
  exact ⟨met, taken⟩

/-- What follows from the log so far follows from the log after every step, so it does after a run. -/
theorem keeps_log {α : Type*} {event : σ → ε → List α} {initial last : σ} {log : List α} (Inv : σ → List α → Prop)
    (run : Run (logged event step) (initial, []) labels (last, log)) (first : Inv initial [])
    (preserved : ∀ before now past label after, Run step initial before now → Inv now past → step now label after →
      Inv after (past ++ event now label)) : Run step initial labels last ∧ Inv last log := by
  generalize state : (last, log) = after at run
  induction run generalizing last log with
  | start =>
    cases state
    exact ⟨.start, first⟩
  | next _ taken ih =>
    obtain ⟨earlier, kept⟩ := ih rfl
    obtain ⟨moved, appended⟩ := taken
    cases state
    refine ⟨earlier.next moved, ?_⟩
    rw [show log = _ from appended]
    exact preserved _ _ _ _ _ earlier kept moved

theorem of_guarded {ok : σ → ε → Prop} (run : Run (guarded ok step) s labels t) :
    Run step s labels t :=
  run.mono fun _ _ _ taken => taken.2

end Run

end SimpleOS.Lib
