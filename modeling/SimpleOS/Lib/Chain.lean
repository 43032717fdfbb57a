import Mathlib.Data.List.Nodup
import Mathlib.Logic.Function.Basic

/-! # Singly linked lists in a heap

A heap gives allocated pointers their nodes. `Chain heap head cells` says that the links from `head` lead
through exactly these cells, each a pointer with the data of its node, and end in the null pointer. A heap
has at most one chain from a pointer, so no cell occurs twice in it.
-/

namespace SimpleOS.Lib

variable {ℓ α : Type*}

/-- A node with its data and its link; `none` is the null pointer. -/
structure Node (ℓ α : Type*) where
  data : α
  next : Option ℓ

/-- The cells of the list that starts at a pointer. -/
inductive Chain (heap : ℓ → Option (Node ℓ α)) : Option ℓ → List (ℓ × α) → Prop
  | nil : Chain heap none []
  | cons {p : ℓ} {node : Node ℓ α} {rest : List (ℓ × α)} (here : heap p = some node)
      (tail : Chain heap node.next rest) : Chain heap (some p) ((p, node.data) :: rest)

namespace Chain

variable {heap heap' : ℓ → Option (Node ℓ α)} {head : Option ℓ} {cells cells' : List (ℓ × α)} {p : ℓ}

theorem nil_iff : Chain heap none cells ↔ cells = [] := by
  constructor
  · rintro ⟨⟩
    rfl
  · rintro rfl
    exact .nil

theorem unique (chain : Chain heap head cells) (chain' : Chain heap head cells') : cells = cells' := by
  induction chain generalizing cells' with
  | nil => exact (nil_iff.mp chain').symm
  | cons here tail ih =>
    cases chain' with
    | cons here' tail' =>
      obtain rfl := Option.some.inj (here.symm.trans here')
      rw [ih tail']

/-- The links from a cell lead through the cells behind it. -/
theorem suffix (chain : Chain heap head cells) (member : p ∈ cells.map Prod.fst) :
    ∃ before after, cells = before ++ after ∧ Chain heap (some p) after := by
  induction chain with
  | nil => cases member
  | @cons q node rest here tail ih =>
    rw [List.map_cons, List.mem_cons] at member
    obtain rfl | later := member
    · exact ⟨[], _, rfl, .cons here tail⟩
    · obtain ⟨before, after, rfl, found⟩ := ih later
      exact ⟨_ :: before, after, rfl, found⟩

/-- No cell occurs twice. -/
theorem nodup (chain : Chain heap head cells) : (cells.map Prod.fst).Nodup := by
  induction chain with
  | nil => exact .nil
  | @cons q node rest here tail ih =>
    rw [List.map_cons, List.nodup_cons]
    refine ⟨?_, ih⟩
    intro again
    obtain ⟨before, after, split, found⟩ := tail.suffix again
    have same := congrArg List.length (found.unique (.cons here tail))
    have longer := congrArg List.length split
    simp only [List.length_append, List.length_cons] at same longer
    omega

/-- A chain depends on its own cells only. -/
theorem congr (chain : Chain heap head cells) (kept : ∀ p ∈ cells.map Prod.fst, heap' p = heap p) :
    Chain heap' head cells := by
  induction chain with
  | nil => exact .nil
  | cons here tail ih =>
    refine .cons ?_ (ih fun p later => kept p (List.mem_cons_of_mem _ later))
    rw [kept _ List.mem_cons_self, here]

variable [DecidableEq ℓ]

/-- Writing a node that is no cell. -/
theorem set (chain : Chain heap head cells) (outside : p ∉ cells.map Prod.fst) (node : Option (Node ℓ α)) :
    Chain (Function.update heap p node) head cells := by
  apply chain.congr
  intro q member
  exact Function.update_of_ne (ne_of_mem_of_not_mem member outside) _ _

/-- Linking a new node in front. -/
theorem push (chain : Chain heap head cells) (outside : p ∉ cells.map Prod.fst) (data : α) :
    Chain (Function.update heap p (some ⟨data, head⟩)) (some p) ((p, data) :: cells) := by
  have linked : Function.update heap p (some ⟨data, head⟩) p = some ⟨data, head⟩ := Function.update_self ..
  exact .cons linked (chain.set outside _)

end Chain

end SimpleOS.Lib
