import SimpleOS.Lib.Run
import Mathlib.Data.List.Basic
import Mathlib.Logic.Function.Iterate

/-! # Components that do not reach one another

A system of components where each step is the work of one of them: it does to the view of its component what the
component would do on its own, and the views of the others stay. Then every interleaving leaves each component
where its own steps lead.
-/

namespace SimpleOS.Lib

variable {σ ε ι κ : Type*} {step : σ → ε → σ → Prop} {s t : σ} {labels : List ε}

/-- A step is the work of one component, which changes its view by `act`; or of none. -/
structure Confines (view : ι → σ → κ) (owner : ε → Option ι) (act : ε → κ → κ) (s : σ) (e : ε) (t : σ) : Prop where
  own : ∀ i, owner e = some i → view i t = act e (view i s)
  others : ∀ i, owner e ≠ some i → view i t = view i s

/-- A component is where its own steps lead, whatever was in between. -/
theorem Run.view [DecidableEq ι] {view : ι → σ → κ} {owner : ε → Option ι} {act : ε → κ → κ}
    (run : Run step s labels t)
    (confined : ∀ before now label after, Run step s before now → step now label after →
      Confines view owner act now label after) (i : ι) :
    view i t = (labels.filter (owner · = some i)).foldl (fun now label => act label now) (view i s) := by
  induction run with
  | start => rfl
  | @next labels now after label earlier taken ih =>
    have confines := confined _ _ _ _ earlier taken
    rw [List.filter_append, List.foldl_append, ← ih]
    by_cases mine : owner label = some i
    · rw [confines.own i mine, List.filter_singleton, decide_eq_true mine]
      rfl
    · rw [confines.others i mine, List.filter_singleton, decide_eq_false mine]
      rfl

/-- When all steps of a component are alike, it is where that many steps lead. -/
theorem Run.view_iterate [DecidableEq ι] {view : ι → σ → κ} {owner : ε → Option ι} {next : κ → κ}
    (run : Run step s labels t)
    (confined : ∀ before now label after, Run step s before now → step now label after →
      Confines view owner (fun _ => next) now label after) (i : ι) :
    view i t = next^[labels.countP (owner · = some i)] (view i s) := by
  rw [run.view confined i, List.foldl_const, List.countP_eq_length_filter]

end SimpleOS.Lib
