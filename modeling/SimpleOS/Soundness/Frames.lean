import SimpleOS.Proofs.Ownership

/-! # Every frame has one role

The roles of a frame are stated in the terms of the code: an entry of the free list, a table at one
position of one process's tree, or the frame of one present leaf entry as `pte_get_entry` reads it.
-/

namespace SimpleOS.Model

open Lib

variable {ι : Type} [DecidableEq ι] {m m' : Machine ι} {n : ℕ} {driver : Driver}
  {labels : List (Event ι)}

/-- The roles of a frame. A table is named by its process, the index in `pgd` and at most three
further indices, deepest first; a page by its process and its page number. -/
inductive Role (ι : Type)
  | free (index : ℕ)
  | table (P : ι) (pgd : Fin 512) (path : List (Fin 512))
  | page (P : ι) (pgn : BitVec 45)

/-- The frame that fills a role. -/
def Machine.frameOf (m : Machine ι) : Role ι → Option ℕ
  | .free index => m.mram.freeFpList[index]?
  | .table P pgd path => if path.length < 4 then m.links.frameAt (P, pgd) path else none
  | .page P pgn =>
    let pte := pteGetEntry (m.task P).krnl (pgn.setWidth 64)
    if pagingPtePresent pte then some (pagingPteFpn pte) else none

theorem Machine.Owned.frameOf_page (owned : m.Owned n) (P : ι) (pgn : BitVec 45) :
    m.frameOf (.page P pgn) =
      m.links.frameAt (pageRoot P (pgn.setWidth 64)) (pagePath (pgn.setWidth 64)) := by
  have frames : Frames 4 n ((m.task P).krnl.links m.roots P) (m.task P).krnl.mram [] := by
    rw [m.links_task]
    exact owned.frames.mono (by omega)
  rw [← m.links_task P, pageAt_eq frames]
  rfl

/-- The role of a position above depth 5. -/
private theorem Machine.Owned.role_of_used (owned : m.Owned n) {f : ℕ} (used : m.links.Uses 5 f) :
    ∃ role, m.frameOf role = some f := by
  obtain ⟨⟨P, pgd⟩, path, short, reached⟩ := used
  by_cases table : path.length < 4
  · exact ⟨.table P pgd path, by rw [Machine.frameOf, if_pos table, reached]⟩
  · obtain ⟨pt, pmd, pud, p4d, rfl⟩ : ∃ pt pmd pud p4d, path = [pt, pmd, pud, p4d] :=
      List.length_eq_four.mp (by omega)
    refine ⟨.page P (Pd.pageNumber ⟨pgd, p4d, pud, pmd, pt⟩), ?_⟩
    rw [owned.frameOf_page, pageRoot, pagePath, pdOf_pageNumber]
    exact reached

/-- A linked role is a position above depth 5, and the role is recovered from the position. -/
private theorem Machine.Owned.position (owned : m.Owned n) {f : ℕ} {role : Role ι}
    (fills : m.frameOf role = some f) :
    (∃ index, role = .free index ∧ m.mram.freeFpList[index]? = some f) ∨
    ∃ r path, path.length < 5 ∧ m.links.frameAt r path = some f ∧
      ((path.length < 4 ∧ role = .table r.1 r.2 path) ∨ ∃ pgn, role = .page r.1 pgn ∧
        r.2 = (pdOf (pgn.setWidth 64)).pgd ∧ path = pagePath (pgn.setWidth 64)) := by
  cases role with
  | free index => exact .inl ⟨index, rfl, fills⟩
  | table P pgd path =>
    rw [Machine.frameOf] at fills
    split_ifs at fills with short
    exact .inr ⟨(P, pgd), path, by omega, fills, .inl ⟨short, rfl⟩⟩
  | page P pgn =>
    rw [owned.frameOf_page] at fills
    have deep := pagePath_length (pgn.setWidth 64)
    exact .inr ⟨_, _, by omega, fills, .inr ⟨pgn, rfl, rfl, rfl⟩⟩

theorem Machine.Owned.role_unique (owned : m.Owned n) {f : ℕ} {role role' : Role ι}
    (fills : m.frameOf role = some f) (fills' : m.frameOf role' = some f) : role = role' := by
  have apart : ∀ {r path} {index : ℕ}, path.length < 5 → m.links.frameAt r path = some f →
      m.mram.freeFpList[index]? = some f → False := by
    intro r path index short reached listed
    exact owned.frames.used_free f ⟨r, path, short, reached⟩ (List.mem_of_getElem? listed)
  rcases owned.position fills with ⟨i, rfl, listed⟩ | ⟨r, path, short, reached, shape⟩ <;>
    rcases owned.position fills' with ⟨j, rfl, listed'⟩ | ⟨r', path', short', reached', shape'⟩
  · obtain ⟨bound, value⟩ := List.getElem?_eq_some_iff.mp listed
    obtain ⟨bound', value'⟩ := List.getElem?_eq_some_iff.mp listed'
    have nodup : m.mram.freeFpList.Nodup := owned.frames.nodup
    have same := nodup.getElem_inj_iff.mp (value.trans value'.symm)
    rw [same]
  · exact (apart short' reached' listed).elim
  · exact (apart short reached listed').elim
  · obtain ⟨rfl, rfl⟩ := owned.frames.separated r path r' path' f short short' reached reached'
    rcases shape with ⟨table, rfl⟩ | ⟨pgn, rfl, root, leaf⟩ <;>
      rcases shape' with ⟨table', rfl⟩ | ⟨pgn', rfl, root', leaf'⟩
    · rfl
    · rw [leaf', pagePath_length] at table
      omega
    · rw [leaf, pagePath_length] at table'
      omega
    · have digits := Pd.eq_of_position (root.symm.trans root') (leaf.symm.trans leaf')
      rw [pdOf_injective digits]

/-- In every reachable state each frame of RAM fills exactly one role, and no role is filled from
outside RAM. -/
theorem frame_has_one_role (initial : m.Initial n) (small : n ≤ 8192)
    (run : Run (Machine.Step driver) m labels m') :
    (∀ f < n, ∃! role, m'.frameOf role = some f) ∧ ∀ role f, m'.frameOf role = some f → f < n := by
  have owned : m'.Owned n := (initial.owned small).run run
  constructor
  · intro f bound
    obtain ⟨role, fills⟩ : ∃ role, m'.frameOf role = some f := by
      rcases owned.covered f bound with free | used
      · obtain ⟨index, listed⟩ := List.getElem?_of_mem free
        exact ⟨.free index, listed⟩
      · exact owned.role_of_used used
    exact ⟨role, fills, fun other fills' => owned.role_unique fills' fills⟩
  · intro role f fills
    rcases owned.position fills with ⟨index, -, listed⟩ | ⟨r, path, short, reached, -⟩
    · exact owned.frames.free_lt f (List.mem_of_getElem? listed)
    · exact owned.frames.used_lt f ⟨r, path, short, reached⟩

/-- A write of one of two processes on eight frames. -/
theorem frame_has_one_role_after_write :
    let m := Machine.boot 8 (fun P : Bool => if P then 1 else 2) fun _ => []
    let result := Libmem.write .head (m.task true).krnl 0 3 0 7
    result.2 = 0 ∧ ∀ f < 8, ∃! role, (m.put true ((m.task true).setKrnl result.1)).frameOf role = some f :=
  ⟨by decide +kernel,
    (frame_has_one_role (Machine.boot_initial 8 _ _) (by decide) (.one (Machine.step_write _ true 7 3 0))).1⟩

end SimpleOS.Model
