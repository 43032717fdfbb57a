import Mathlib.Data.List.Basic
import Mathlib.Data.Option.Basic
import Mathlib.Tactic.Common

/-! # Forests of linked frames

A slot is a place that may hold a link to a frame: a root cell outside the frames, or one of the
`w` cells of a frame. Following links from a root along a path of cell indices leads to a frame.
A forest of depth `depth` takes the frames on paths shorter than `depth` for tables; the frames at
that depth are leaves, and their contents are never followed.

`Relinks.frameAt` is the one law about change: storing a link to a fresh, empty table in an unused
slot, or any link in a slot of the last level, moves exactly one position of the forest. Paths are
kept with the deepest index first, so that a child position is `j :: path`.
-/

namespace SimpleOS.Lib

/-- A place for a link: a root cell or a cell of a frame. -/
inductive Slot (ρ : Type*) (w : ℕ)
  | root (r : ρ)
  | cell (frame : ℕ) (j : Fin w)
deriving DecidableEq

/-- The frame each slot links to, if any. -/
abbrev Links (ρ : Type*) (w : ℕ) := Slot ρ w → Option ℕ

namespace Links

variable {ρ : Type*} {w : ℕ} {links links' : Links ρ w} {depth : ℕ} {r : ρ} {p : List (Fin w)} {f : ℕ}

/-- The frame reached from root `r` along `path`, deepest index first. -/
def frameAt (links : Links ρ w) (r : ρ) : List (Fin w) → Option ℕ
  | [] => links (.root r)
  | j :: path => (links.frameAt r path).bind fun f => links (.cell f j)

/-- The slot whose link is the position `path` below `r`; it exists when its table does. -/
def slotAt (links : Links ρ w) (r : ρ) : List (Fin w) → Option (Slot ρ w)
  | [] => some (.root r)
  | j :: path => (links.frameAt r path).map fun f => .cell f j

/-- `f` stands at a position above `depth`. -/
def Uses (links : Links ρ w) (depth f : ℕ) : Prop :=
  ∃ r path, path.length < depth ∧ links.frameAt r path = some f

theorem Uses.mono {deeper : ℕ} (uses : links.Uses depth f) (below : depth ≤ deeper) :
    links.Uses deeper f := by
  obtain ⟨r, path, short, reached⟩ := uses
  exact ⟨r, path, Nat.lt_of_lt_of_le short below, reached⟩

/-- No frame stands at two positions above `depth`. -/
def Separated (links : Links ρ w) (depth : ℕ) : Prop :=
  ∀ r path r' path' f, path.length < depth → path'.length < depth →
    links.frameAt r path = some f → links.frameAt r' path' = some f → r = r' ∧ path = path'

theorem Separated.mono {shallower : ℕ} (separated : links.Separated depth)
    (above : shallower ≤ depth) : links.Separated shallower :=
  fun r path r' path' f short short' =>
    separated r path r' path' f (Nat.lt_of_lt_of_le short above) (Nat.lt_of_lt_of_le short' above)

/-- Slots that the forest reads: root cells and cells of its tables. -/
def Reads (links : Links ρ w) (depth : ℕ) : Slot ρ w → Prop
  | .root _ => True
  | .cell f _ => links.Uses depth f

/-- The same links in every slot that is read give the same forest. -/
theorem frameAt_congr (same : ∀ slot, links.Reads depth slot → links' slot = links slot)
    (r : ρ) (path : List (Fin w)) (short : path.length ≤ depth) :
    links'.frameAt r path = links.frameAt r path := by
  induction path with
  | nil => exact same (.root r) trivial
  | cons j path ih =>
    have shorter : path.length < depth := short
    simp only [frameAt, ih (Nat.le_of_lt shorter)]
    cases reached : links.frameAt r path with
    | none => rfl
    | some f => exact same (.cell f j) ⟨r, path, shorter, reached⟩

/-- `links'` stores a link to `g` at the position `path₀` below `r₀` and keeps every other slot that
the forest reads. Above the last level the position was empty and `g` holds no links yet. -/
structure Relinks (depth : ℕ) (links links' : Links ρ w) (r₀ : ρ) (path₀ : List (Fin w)) (g : ℕ) :
    Prop where
  slot : ∃ slot, links.slotAt r₀ path₀ = some slot ∧ links' slot = some g ∧
    ∀ other, other ≠ slot → links.Reads depth other → links' other = links other
  fresh : path₀.length < depth → links.frameAt r₀ path₀ = none ∧ ∀ j, links' (.cell g j) = none

variable {r₀ : ρ} {path₀ : List (Fin w)} {g : ℕ}

/-- Slots of distinct positions are distinct when no frame stands at two positions. -/
theorem Separated.slotAt_injective (separated : links.Separated depth) {slot : Slot ρ w}
    (short : p.length ≤ depth) (short₀ : path₀.length ≤ depth)
    (atP : links.slotAt r p = some slot) (at₀ : links.slotAt r₀ path₀ = some slot) :
    r = r₀ ∧ p = path₀ := by
  cases p with
  | nil =>
    cases path₀ with
    | nil =>
      simp only [slotAt, Option.some.injEq] at atP at₀
      cases atP.trans at₀.symm
      exact ⟨rfl, rfl⟩
    | cons j₀ path₀ =>
      obtain ⟨f, -, rfl⟩ := Option.map_eq_some_iff.mp at₀
      simp [slotAt] at atP
  | cons j path =>
    obtain ⟨f, reached, rfl⟩ := Option.map_eq_some_iff.mp atP
    cases path₀ with
    | nil => simp [slotAt] at at₀
    | cons j₀ path₀ =>
      obtain ⟨f₀, reached₀, same⟩ := Option.map_eq_some_iff.mp at₀
      cases same
      obtain ⟨rfl, rfl⟩ :=
        separated r path r₀ path₀ f short short₀ reached reached₀
      exact ⟨rfl, rfl⟩

/-- Storing one link moves exactly one position. -/
theorem Relinks.frameAt [DecidableEq ρ] (relinks : Relinks depth links links' r₀ path₀ g)
    (separated : links.Separated depth) (short₀ : path₀.length ≤ depth)
    (r : ρ) (path : List (Fin w)) (short : path.length ≤ depth) :
    links'.frameAt r path = if r = r₀ ∧ path = path₀ then some g else links.frameAt r path := by
  obtain ⟨slot₀, at₀, stored, kept⟩ := relinks.slot
  induction path with
  | nil =>
    by_cases here : r = r₀ ∧ [] = path₀
    · obtain ⟨rfl, rfl⟩ := here
      simp only [slotAt, Option.some.injEq] at at₀
      simpa only [and_self, if_true, Links.frameAt, at₀] using stored
    · rw [if_neg here]
      refine kept (.root r) ?_ trivial
      rintro rfl
      exact here (separated.slotAt_injective short short₀ rfl at₀)
  | cons j path ih =>
    have shorter : path.length < depth := short
    specialize ih (Nat.le_of_lt shorter)
    by_cases parent : r = r₀ ∧ path = path₀
    · -- below the new link: the new table is empty, and nothing was there before
      obtain ⟨rfl, rfl⟩ := parent
      obtain ⟨absent, empty⟩ := relinks.fresh shorter
      rw [if_neg (by simp), Links.frameAt, ih, if_pos ⟨rfl, rfl⟩, Option.bind_some, empty,
        Links.frameAt, absent, Option.bind_none]
    · rw [if_neg parent] at ih
      rw [Links.frameAt, Links.frameAt, ih]
      cases reached : links.frameAt r path with
      | none =>
        rw [Option.bind_none, Option.bind_none, if_neg]
        rintro ⟨rfl, rfl⟩
        simp [slotAt, reached] at at₀
      | some f =>
        have atHere : links.slotAt r (j :: path) = some (.cell f j) := by simp [slotAt, reached]
        by_cases here : r = r₀ ∧ j :: path = path₀
        · obtain ⟨rfl, rfl⟩ := here
          have same : slot₀ = .cell f j := Option.some.inj (at₀.symm.trans atHere)
          rw [if_pos ⟨rfl, rfl⟩, Option.bind_some, ← same, stored]
        · rw [if_neg here, Option.bind_some, Option.bind_some]
          refine kept (.cell f j) ?_ ⟨r, path, shorter, reached⟩
          rintro rfl
          exact here (separated.slotAt_injective short short₀ atHere at₀)

/-- Above `depth`, `links'` has `g` at a position that was empty and agrees with `links` elsewhere. -/
structure Plants (depth : ℕ) (links links' : Links ρ w) (r₀ : ρ) (path₀ : List (Fin w)) (g : ℕ) :
    Prop where
  short : path₀.length < depth
  absent : links.frameAt r₀ path₀ = none
  here : links'.frameAt r₀ path₀ = some g
  elsewhere : ∀ r path, path.length < depth → ¬(r = r₀ ∧ path = path₀) →
    links'.frameAt r path = links.frameAt r path

theorem Relinks.plants (relinks : Relinks depth links links' r₀ path₀ g)
    (separated : links.Separated depth) (short : path₀.length < depth) :
    Plants depth links links' r₀ path₀ g := by
  classical
  have moved := relinks.frameAt separated (Nat.le_of_lt short)
  refine ⟨short, (relinks.fresh short).1, ?_, ?_⟩
  · rw [moved r₀ path₀ (Nat.le_of_lt short), if_pos ⟨rfl, rfl⟩]
  · intro r path above other
    rw [moved r path (Nat.le_of_lt above), if_neg other]

/-- The same with the last level in view, whose new frame may hold anything. -/
theorem Relinks.plants_leaf (relinks : Relinks depth links links' r₀ path₀ g) (separated : links.Separated depth)
    (short : path₀.length ≤ depth) (absent : links.frameAt r₀ path₀ = none) :
    Plants (depth + 1) links links' r₀ path₀ g := by
  classical
  have moved := relinks.frameAt separated short
  refine ⟨Nat.lt_succ_of_le short, absent, ?_, ?_⟩
  · rw [moved r₀ path₀ short, if_pos ⟨rfl, rfl⟩]
  · intro r path above other
    rw [moved r path (Nat.le_of_lt_succ above), if_neg other]

namespace Plants

variable (plants : Plants depth links links' r₀ path₀ g)
include plants

theorem kept (short : p.length < depth) (reached : links.frameAt r p = some f) :
    links'.frameAt r p = some f := by
  rw [plants.elsewhere r p short, reached]
  rintro ⟨rfl, rfl⟩
  rw [plants.absent] at reached
  contradiction

theorem new (short : p.length < depth) (reached : links'.frameAt r p = some f) :
    (r = r₀ ∧ p = path₀ ∧ f = g) ∨ links.frameAt r p = some f := by
  by_cases here : r = r₀ ∧ p = path₀
  · obtain ⟨rfl, rfl⟩ := here
    rw [plants.here] at reached
    exact .inl ⟨rfl, rfl, (Option.some.inj reached).symm⟩
  · rw [plants.elsewhere r p short here] at reached
    exact .inr reached

theorem uses (used : links'.Uses depth f) : f = g ∨ links.Uses depth f := by
  obtain ⟨r, path, short, reached⟩ := used
  rcases plants.new short reached with ⟨-, -, same⟩ | before
  · exact .inl same
  · exact .inr ⟨r, path, short, before⟩

/-- A frame that stood nowhere keeps the forest separated. -/
theorem separated (apart : links.Separated depth) (unused : ¬links.Uses depth g) :
    links'.Separated depth := by
  intro r path r' path' f short short' reached reached'
  rcases plants.new short reached with ⟨rfl, rfl, rfl⟩ | before <;>
    rcases plants.new short' reached' with ⟨rfl, rfl, same⟩ | before'
  · exact ⟨rfl, rfl⟩
  · exact (unused ⟨r', path', short', before'⟩).elim
  · exact (unused ⟨r, path, short, same ▸ before⟩).elim
  · exact apart r path r' path' f short short' before before'

end Plants

/-- Above `depth`, `links'` has the frames of a filling at their positions below `r₀` and agrees with `links` at
all other positions. -/
structure Fills (depth : ℕ) (links links' : Links ρ w) (r₀ : ρ) (filling : List (List (Fin w) × ℕ)) : Prop where
  below : ∀ path, path.length < depth →
    links'.frameAt r₀ path = (filling.lookup path).or (links.frameAt r₀ path)
  elsewhere : ∀ r path, path.length < depth → r ≠ r₀ → links'.frameAt r path = links.frameAt r path

theorem Fills.nil (links : Links ρ w) : Fills depth links links r₀ [] := ⟨fun _ _ => rfl, fun _ _ _ _ => rfl⟩

/-- One more frame is planted before the others. -/
theorem Plants.fills {links₁ : Links ρ w} {filling : List (List (Fin w) × ℕ)}
    (plants : Plants depth links links₁ r₀ path₀ g) (fills : Fills depth links₁ links' r₀ filling)
    (once : filling.lookup path₀ = none) : Fills depth links links' r₀ ((path₀, g) :: filling) := by
  refine ⟨?_, ?_⟩
  · intro path short
    rw [fills.below path short, List.lookup_cons]
    by_cases here : path = path₀
    · subst here
      rw [once, plants.here, beq_self_eq_true]
      rfl
    · rw [plants.elsewhere r₀ path short fun same => here same.2]
      rw [beq_false_of_ne here]
  · intro r path short other
    rw [fills.elsewhere r path short other, plants.elsewhere r path short fun same => other same.1]

/-- One more frame is linked after the others. -/
theorem Fills.concat {links₁ : Links ρ w} {filling : List (List (Fin w) × ℕ)}
    (fills : Fills depth links links₁ r₀ filling) (fresh : path₀ ∉ filling.map Prod.fst)
    (here : links'.frameAt r₀ path₀ = some g)
    (elsewhere : ∀ r path, path.length < depth → ¬(r = r₀ ∧ path = path₀) →
      links'.frameAt r path = links₁.frameAt r path) :
    Fills depth links links' r₀ (filling ++ [(path₀, g)]) := by
  refine ⟨?_, ?_⟩
  · intro path short
    rw [List.lookup_append]
    by_cases last : path = path₀
    · subst last
      have unnamed : filling.lookup path = none := by
        rw [List.lookup_eq_none_iff]
        intro entry member
        rw [bne_iff_ne]
        rintro rfl
        exact fresh (List.mem_map_of_mem member)
      rw [here, unnamed]
      simp
    · rw [elsewhere r₀ path short fun same => last same.2, fills.below path short, List.lookup_cons,
        beq_false_of_ne last]
      simp
  · intro r path short other
    rw [elsewhere r path short fun same => other same.1, fills.elsewhere r path short other]

theorem mem_of_lookup {α : Type*} [BEq α] [LawfulBEq α] {entries : List (α × ℕ)} {key : α}
    (found : entries.lookup key = some f) : (key, f) ∈ entries := by
  obtain ⟨before, after, split, -⟩ := List.lookup_eq_some_iff.mp found
  rw [split]
  exact List.mem_append_right before List.mem_cons_self

/-- Different keys pair with their values in order. -/
theorem lookup_zip {α : Type*} [BEq α] [LawfulBEq α] {keys : List α} {frames : List ℕ} {key : α}
    (nodup : keys.Nodup) (member : (key, f) ∈ keys.zip frames) : (keys.zip frames).lookup key = some f := by
  induction keys generalizing frames with
  | nil => cases member
  | cons other keys ih =>
    cases frames with
    | nil => cases member
    | cons g frames =>
      rw [List.zip_cons_cons, List.mem_cons, Prod.mk.injEq] at member
      rw [List.zip_cons_cons, List.lookup_cons]
      obtain ⟨fresh, nodup⟩ := List.nodup_cons.mp nodup
      rcases member with ⟨rfl, rfl⟩ | later
      · rw [beq_self_eq_true]
      · have different : key ≠ other := by
          rintro rfl
          exact fresh (List.of_mem_zip later).1
        rw [beq_false_of_ne different]
        exact ih nodup later

/-- The keys that pair with a value, in order. -/
theorem keys_zip_sublist {α : Type*} (keys : List α) (frames : List ℕ) :
    ((keys.zip frames).map Prod.fst).Sublist keys := by
  induction keys generalizing frames with
  | nil => exact List.Sublist.refl []
  | cons key keys ih =>
    cases frames with
    | nil => exact List.nil_sublist _
    | cons g frames => exact (ih frames).cons_cons key

/-- A key behind the others pairs with a value only if there is a value for each. -/
theorem length_of_zip_last {α : Type*} {keys : List α} {frames : List ℕ} {key : α} (fresh : key ∉ keys)
    (member : (key, f) ∈ (keys ++ [key]).zip frames) : keys.length < frames.length := by
  induction keys generalizing frames with
  | nil => exact List.length_pos_of_mem (List.of_mem_zip member).2
  | cons other keys ih =>
    cases frames with
    | nil => cases member
    | cons g frames =>
      rw [List.cons_append, List.zip_cons_cons, List.mem_cons, Prod.mk.injEq] at member
      rw [List.length_cons, List.length_cons, Nat.succ_lt_succ_iff]
      rcases member with ⟨rfl, -⟩ | later
      · exact absurd List.mem_cons_self fresh
      · exact ih (fun within => fresh (List.mem_cons_of_mem other within)) later

/-- The positions of a list that are empty. -/
def missing (links : Links ρ w) (r : ρ) (paths : List (List (Fin w))) : List (List (Fin w)) :=
  paths.filter fun path => (links.frameAt r path).isNone

theorem missing_cons_some {paths : List (List (Fin w))} (reached : links.frameAt r p = some f) :
    links.missing r (p :: paths) = links.missing r paths := by
  simp [missing, reached]

theorem missing_cons_none {paths : List (List (Fin w))} (absent : links.frameAt r p = none) :
    links.missing r (p :: paths) = p :: links.missing r paths := by
  simp [missing, absent]

/-- A planted frame fills no position of a list that does not name it. -/
theorem Plants.missing {paths : List (List (Fin w))} (plants : Plants depth links links' r₀ path₀ g)
    (short : ∀ path ∈ paths, path.length < depth) (other : path₀ ∉ paths) :
    links'.missing r₀ paths = links.missing r₀ paths := by
  apply List.filter_congr
  intro path member
  rw [plants.elsewhere r₀ path (short path member)]
  rintro ⟨-, rfl⟩
  exact other member

/-- A filling takes its length from the empty positions of a list that names all its keys. -/
theorem Fills.missing_length {paths : List (List (Fin w))} {filling : List (List (Fin w) × ℕ)}
    (fills : Fills depth links links' r₀ filling) (short : ∀ path ∈ paths, path.length < depth) (nodup : paths.Nodup)
    (once : (filling.map Prod.fst).Nodup) (empty : ∀ entry ∈ filling, entry.1 ∈ links.missing r₀ paths) :
    (links.missing r₀ paths).length = filling.length + (links'.missing r₀ paths).length := by
  have left : (links'.missing r₀ paths) = (links.missing r₀ paths).filter (· ∉ filling.map Prod.fst) := by
    rw [Links.missing, Links.missing, List.filter_filter]
    apply List.filter_congr
    intro path member
    rw [fills.below path (short path member)]
    cases found : filling.lookup path with
    | none =>
      have unnamed : path ∉ filling.map Prod.fst := by
        rintro named
        obtain ⟨entry, member', rfl⟩ := List.mem_map.mp named
        exact absurd (List.lookup_eq_none_iff.mp found entry member') (by simp)
      simp [unnamed]
    | some g =>
      have named : path ∈ filling.map Prod.fst := List.mem_map_of_mem (mem_of_lookup found)
      simp [named]
  have taken : ((links.missing r₀ paths).filter (· ∈ filling.map Prod.fst)).length = filling.length := by
    have sizes : (filling.map Prod.fst).length = filling.length := List.length_map _
    rw [← sizes]
    apply List.Perm.length_eq
    have distinct : (links.missing r₀ paths).Nodup := nodup.filter _
    rw [List.perm_ext_iff_of_nodup (distinct.filter _) once]
    intro path
    rw [List.mem_filter, decide_eq_true_iff]
    refine ⟨And.right, fun named => ⟨?_, named⟩⟩
    obtain ⟨entry, member, rfl⟩ := List.mem_map.mp named
    exact empty entry member
  rw [left, ← taken]
  have split := List.length_eq_length_filter_add (l := links.missing r₀ paths) (· ∈ filling.map Prod.fst)
  simpa using split

end Links

end SimpleOS.Lib
