import SimpleOS.Proofs.Regions
import SimpleOS.Soundness.TableLaws

/-! # Frames taken for a path

`init_pte` refuses frame 0, and `ensure_pte_mapping` ignores its status. So a missing table that is to get frame 0
is not linked: the frame is off the free list and in no table, and the walk goes on with whatever frame number the
absent entry holds.
-/

namespace SimpleOS.Model

open Lib

namespace Krnl

/-- The missing tables of a path, each with the frame of the free list that it is to get. -/
def newTables (k : Krnl) (pd : Pd) : List (List (Fin 512) × ℕ) :=
  Model.newTables (fun _ _ => 0) () k ((), pd.pgd) pd.tablePaths

/-- What building a path promises: every frame taken is linked as a table, and a slot that is returned is the one
that `pte_get_entry` reads. -/
structure Lossless (k : Krnl) (pd : Pd) : Prop where
  linked : ∀ f ∈ k.mram.freeFpList, f ∉ (ensurePteMapping k pd).1.mram.freeFpList →
    (ensurePteMapping k pd).1.tree.Uses 4 f
  slot : ∀ table, (ensurePteMapping k pd).2 = some table → (ensurePteMapping k pd).1.ptTable pd = some table

variable {k k' : Krnl} {n g : ℕ} {flight rest : List ℕ} {pd : Pd} {path : List (Fin 512)}

/-- Frame 0 has left the free list and stands nowhere in the tree. -/
def Lost (n : ℕ) (k : Krnl) : Prop := ∃ flight, 0 ∈ flight ∧ Frames 4 n k.tree k.mram flight

private theorem Lost.not_used (lost : k.Lost n) : ¬k.tree.Uses 4 0 ∧ 0 ∉ k.mram.freeFpList := by
  obtain ⟨flight, member, frames⟩ := lost
  refine ⟨fun used => frames.used_free 0 used (List.mem_append_left _ member), ?_⟩
  exact List.disjoint_of_nodup_append frames.nodup member

/-- A frame is taken, and no table moves. -/
private theorem frames_unlinked (frames : Frames 4 n k.tree k.mram flight) (pop : k.mram.freeFpList = g :: rest)
    (maxsz : k'.mram.maxsz = k.mram.maxsz) (free : k'.mram.freeFpList = rest)
    (same : ∀ r path, path.length < 4 → k'.tree.frameAt r path = k.tree.frameAt r path) :
    Frames 4 n k'.tree k'.mram (g :: flight) := by
  have popped : Frames 4 n k.tree k'.mram (g :: flight) := by
    apply frames.reflight maxsz
    rw [free, pop]
    exact List.perm_middle.symm
  exact popped.congr rfl rfl same

/-- A refused entry is stored as it was, and a frame that is no table is cleared. -/
private theorem frameAt_refused (frames : Frames 4 n k.tree k.mram flight) (pop : k.mram.freeFpList = g :: rest)
    (pgd : k'.mm.pgd = k.mm.pgd) (entry : ∀ f j, f ≠ g → k'.mram.entry f j = k.mram.entry f j)
    (r : Root Unit) (path : List (Fin 512)) (short : path.length < 4) :
    k'.tree.frameAt r path = k.tree.frameAt r path := by
  have reads : ∀ slot, k.tree.Reads 4 slot → k'.tree slot = k.tree slot := by
    rintro (r | ⟨f, j⟩) reads
    · simp only [tree, tableLinks, rootsOf, pgd]
    · refine congrArg child (entry f j ?_)
      rintro rfl
      exact frames.used_free f reads (by simp [pop])
  exact Links.frameAt_congr reads r path (by omega)

theorem initPte_zero (pte : Addr) : (initPte pte true 0 false 0 0).1 = pte := rfl

private theorem setEntry_entry (mp : Memphy) (f f' : ℕ) (i j : Fin 512) :
    (mp.setEntry f i (mp.entry f i)).entry f' j = mp.entry f' j := by
  by_cases here : f' = f ∧ j = i
  · obtain ⟨rfl, rfl⟩ := here
    exact Memphy.entry_setEntry_same
  · apply Memphy.entry_setEntry_ne
    rw [not_and_or] at here
    exact here

/-- Where the first frame of the free list is frame 0, the first level takes it in vain. -/
private theorem ensurePgd_refused (frames : Frames 4 n k.tree k.mram flight) {i : Fin 512}
    (absent : pagingPtePresent (k.mm.pgd i) = false) (pop : k.mram.freeFpList = 0 :: rest) :
    Frames 4 n (ensurePgd k i).1.tree (ensurePgd k i).1.mram (0 :: flight) := by
  have result : (ensurePgd k i).1 = ⟨k.mm, ({ k.mram with freeFpList := rest } : Memphy).clearEntries 0 512⟩ := by
    simp only [ensurePgd, absent, Bool.false_eq_true, if_false, Memphy.getFreefp, pop, initPte_zero,
      Function.update_eq_self]
  rw [result]
  apply frames_unlinked frames pop
  · exact Memphy.clearEntries_maxsz
  · exact Memphy.clearEntries_freeFpList
  · exact frameAt_refused frames pop rfl fun f j other => Memphy.entry_clear_ne other

/-- The same below the first level, at any table. -/
private theorem ensureTable_refused (frames : Frames 4 n k.tree k.mram flight) {table : ℕ} {i : Fin 512}
    (absent : pagingPtePresent (k.mram.entry table i) = false) (pop : k.mram.freeFpList = 0 :: rest) :
    Frames 4 n (ensureTable k table i).1.tree (ensureTable k table i).1.mram (0 :: flight) := by
  let mram : Memphy := { k.mram with freeFpList := rest }
  have result : (ensureTable k table i).1 =
      ⟨k.mm, (mram.setEntry table i (mram.entry table i)).clearEntries 0 512⟩ := by
    simp only [ensureTable, absent, Bool.false_eq_true, if_false, Memphy.getFreefp, pop, initPte_zero, mram]
  rw [result]
  apply frames_unlinked frames pop
  · exact Memphy.clearEntries_maxsz
  · exact Memphy.clearEntries_freeFpList
  · exact frameAt_refused frames pop rfl fun f j other =>
      (Memphy.entry_clear_ne other).trans (setEntry_entry mram table f i j)

/-- A block at any table, linked or not, keeps the frames that are neither free nor linked. -/
private theorem ensureTable_frames (frames : Frames 4 n k.tree k.mram flight) (table : ℕ) (i : Fin 512) :
    ∃ flight', (∀ f ∈ flight, f ∈ flight') ∧
      Frames 4 n (ensureTable k table i).1.tree (ensureTable k table i).1.mram flight' := by
  cases present : pagingPtePresent (k.mram.entry table i) with
  | true =>
    refine ⟨flight, fun _ member => member, ?_⟩
    simp only [ensureTable, present, if_true]
    exact frames
  | false =>
    cases pop : k.mram.freeFpList with
    | nil =>
      refine ⟨flight, fun _ member => member, ?_⟩
      simp only [ensureTable, present, Bool.false_eq_true, if_false, Memphy.getFreefp, pop]
      exact frames
    | cons g rest =>
      rcases Nat.eq_zero_or_pos g with rfl | positive
      · exact ⟨0 :: flight, fun _ member => List.mem_cons_of_mem 0 member, ensureTable_refused frames present pop⟩
      · by_cases linked : ∃ r path, path.length < 3 ∧ k.tree.frameAt r path = some table
        · obtain ⟨r, path, short, atTable⟩ := linked
          refine ⟨flight, fun _ member => member, ?_⟩
          refine ((ensureTable_block frames rfl short atTable i ?_).ensured frames).frames
          intro _ rest' pop'
          rw [pop, List.cons.injEq] at pop'
          omega
        · -- the entry lies in no directory of the tree
          refine ⟨g :: flight, fun _ member => List.mem_cons_of_mem g member, ?_⟩
          let mram : Memphy := { k.mram with freeFpList := rest }
          let entry := (initPte (mram.entry table i) true g false 0 0).1
          let after : Krnl := ⟨k.mm, (mram.setEntry table i entry).clearEntries g 512⟩
          have result : (ensureTable k table i).1 = after := by
            simp only [ensureTable, present, Bool.false_eq_true, if_false, Memphy.getFreefp, pop, mram, entry, after]
          have reads : ∀ slot, k.tree.Reads 3 slot → after.tree slot = k.tree slot := by
            rintro (r | ⟨f, j⟩) reads
            · rfl
            · have directory : f ≠ table := by
                rintro rfl
                exact linked reads
              have notNew : f ≠ g := by
                rintro rfl
                exact frames.used_free f (Links.Uses.mono reads (by omega)) (by simp [pop])
              refine congrArg child ?_
              exact (Memphy.entry_clear_ne notNew).trans (Memphy.entry_setEntry_ne (.inl directory))
          rw [result]
          apply frames_unlinked frames pop
          · exact Memphy.clearEntries_maxsz
          · exact Memphy.clearEntries_freeFpList
          · intro r path short
            exact Links.frameAt_congr reads r path (by omega)

private theorem Lost.ensureTable (lost : k.Lost n) (table : ℕ) (i : Fin 512) : (ensureTable k table i).1.Lost n := by
  obtain ⟨flight, member, frames⟩ := lost
  obtain ⟨flight', kept, frames'⟩ := ensureTable_frames frames table i
  exact ⟨flight', kept 0 member, frames'⟩

private theorem Lost.then {result : Krnl × Option ℕ} {next : Krnl → ℕ → Krnl × Option ℕ} (lost : result.1.Lost n)
    (later : ∀ k' table, k'.Lost n → (next k' table).1.Lost n) : (thenTable result next).1.Lost n := by
  obtain ⟨k', _ | table⟩ := result
  · exact lost
  · exact later k' table lost

/-- A block on the way to a missing table that is to get frame 0. -/
private theorem Lost.block {r : Root Unit} {paths : List (List (Fin 512))} {p : List (Fin 512)}
    {result : Krnl × Option ℕ} {next : Krnl → ℕ → Krnl × Option ℕ} (frames : Frames 4 n k.tree k.mram [])
    (member : (p, 0) ∈ Model.newTables (fun _ _ => 0) () k r (path :: paths))
    (short : ∀ p ∈ paths, p.length < 4) (other : path ∉ paths)
    (refused : ∀ rest, k.tree.frameAt r path = none → k.mram.freeFpList = 0 :: rest → result.1.Lost n)
    (block : (k.tree.frameAt r path = none → ∀ rest, k.mram.freeFpList ≠ 0 :: rest) →
      Block k (k.tree.frameAt r path) (fun k' g => NewTable (fun _ _ => 0) () k k' r path g) result)
    (continued : ∀ k' table, Frames 4 n k'.tree k'.mram [] → k'.tree.frameAt r path = some table →
      (p, 0) ∈ Model.newTables (fun _ _ => 0) () k' r paths → (next k' table).1.Lost n)
    (later : ∀ k' table, k'.Lost n → (next k' table).1.Lost n) : (thenTable result next).1.Lost n := by
  by_cases zero : k.tree.frameAt r path = none ∧ ∃ rest, k.mram.freeFpList = 0 :: rest
  · obtain ⟨absent, rest, pop⟩ := zero
    exact (refused rest absent pop).then later
  · have taken := block fun absent rest pop => zero ⟨absent, rest, pop⟩
    have ensured := taken.ensured frames
    cases taken with
    | present here =>
      rw [newTables_present here] at member
      exact continued k _ frames here member
    | exhausted here empty =>
      rw [Model.newTables, empty, List.zip_nil_right] at member
      cases member
    | @fresh k' g here table =>
      rw [(table.planted frames).newTables short other, List.mem_cons, Prod.mk.injEq] at member
      rcases member with ⟨-, rfl⟩ | member
      · exact absurd ⟨here, _, table.free⟩ zero
      · exact continued k' g ensured.frames (ensured.reached g rfl) member

private theorem absent_entry {r : Root Unit} {table : ℕ} {i : Fin 512} (atTable : k.tree.frameAt r path = some table)
    (absent : k.tree.frameAt r (i :: path) = none) : pagingPtePresent (k.mram.entry table i) = false := by
  rw [tree, frameAt_cons, wordAt] at absent
  rw [tree] at atTable
  rw [atTable] at absent
  exact child_eq_none.mp absent

/-- A missing table that is to get frame 0 loses it. -/
private theorem ensurePteMapping_lost (frames : Frames 4 n k.tree k.mram []) {p : List (Fin 512)}
    (member : (p, 0) ∈ k.newTables pd) : (ensurePteMapping k pd).1.Lost n := by
  have lost {k' : Krnl} {flight : List ℕ} (frames' : Frames 4 n k'.tree k'.mram (0 :: flight)) : k'.Lost n :=
    ⟨_, List.mem_cons_self, frames'⟩
  refine Lost.block frames member (by simp [Pd.tablePath]) (by simp [Pd.tablePath])
    (fun _ absent pop => lost (ensurePgd_refused frames ?_ pop)) (ensurePgd_block frames pd.pgd) ?_ ?_
  · rw [tree, frameAt_root] at absent
    exact child_eq_none.mp absent
  · intro k₁ p4d frames₁ at₁ member₁
    refine Lost.block frames₁ member₁ (by simp [Pd.tablePath]) (by simp [Pd.tablePath])
      (fun _ absent pop => lost (ensureTable_refused frames₁ (absent_entry at₁ absent) pop))
      (ensureTable_block frames₁ rfl (by simp) at₁ pd.p4d) ?_ ?_
    · intro k₂ pud frames₂ at₂ member₂
      refine Lost.block frames₂ member₂ (by simp [Pd.tablePath]) (by simp [Pd.tablePath])
        (fun _ absent pop => lost (ensureTable_refused frames₂ (absent_entry at₂ absent) pop))
        (ensureTable_block frames₂ rfl (by simp) at₂ pd.pud) ?_ ?_
      · intro k₃ pmd frames₃ at₃ member₃
        have last : (thenTable (ensureTable k₃ pmd pd.pmd) fun k table => (k, some table)).1.Lost n :=
          Lost.block frames₃ member₃ (by simp) (by simp)
            (fun _ absent pop => lost (ensureTable_refused frames₃ (absent_entry at₃ absent) pop))
            (ensureTable_block frames₃ rfl (by simp) at₃ pd.pmd) (fun _ _ _ _ member => by cases member)
            fun _ _ lost' => lost'
        rwa [thenTable_some] at last
      · exact fun k' table lost' => lost'.ensureTable table pd.pmd
    · exact fun k' table lost' => (lost'.ensureTable table pd.pud).then fun k' table lost' =>
        lost'.ensureTable table pd.pmd
  · exact fun k' table lost' => (lost'.ensureTable table pd.p4d).then fun k' table lost' =>
      (lost'.ensureTable table pd.pud).then fun k' table lost' => lost'.ensureTable table pd.pmd

/-- Building a path promises nothing about frame 0 exactly where no missing table is to get it. -/
theorem ensurePteMapping_lossless_iff (formed : k.TreeFormed) (pd : Pd) :
    k.Lossless pd ↔ ∀ path, (path, 0) ∉ k.newTables pd := by
  have resized : Model.ensurePteMapping k.whole pd = _ := ensurePteMapping_resize k _ pd
  constructor
  · intro lossless path member
    have lost : (Model.ensurePteMapping k.whole pd).1.Lost _ := ensurePteMapping_lost formed.frames member
    rw [resized] at lost
    obtain ⟨unused, gone⟩ := lost.not_used
    exact unused (lossless.linked 0 (List.of_mem_zip member).2 gone)
  · intro usable
    have walk := ensurePteMapping_walk formed.frames pd usable
    rw [resized] at walk
    refine ⟨?_, ?_⟩
    · intro f free gone
      obtain ⟨taken, split, used⟩ := walk.ensured.grows.taken
      have member : f ∈ taken ++ (Model.ensurePteMapping k pd).1.mram.freeFpList := split ▸ free
      exact used f ((List.mem_append.mp member).resolve_right gone)
    · intro table returned
      rw [ptTable_eq_tree]
      · exact walk.ensured.reached table returned
      · intro f used
        have bound := walk.ensured.frames.used_lt f used
        rw [ensurePteMapping_maxsz]
        simp only [pagingPagesz] at *
        omega

theorem lossless_fresh : fresh.Lossless (pdOf 3) := by
  have formed : fresh.TreeFormed := .of_init (by decide) (by decide) (by decide)
  refine (ensurePteMapping_lossless_iff formed (pdOf 3)).mpr ?_
  intro path member
  exact absurd (List.of_mem_zip member).2 (by decide)

/-- With the free list `0, …, 7` the P4D table of page 1 is to get frame 0. A slot is returned, frame 0 is off the
list and in no table, and `pte_get_entry` finds no slot. -/
theorem loses_frame_zero : newborn.TreeFormed ∧ (Model.ensurePteMapping newborn (pdOf 1)).2 = some 3 ∧
    (Model.ensurePteMapping newborn (pdOf 1)).1.mram.freeFpList = [4, 5, 6, 7] ∧
    (Model.ensurePteMapping newborn (pdOf 1)).1.ptTable (pdOf 1) = none ∧ ¬newborn.Lossless (pdOf 1) := by
  have formed : newborn.TreeFormed := .of_init (by decide) (by decide) (by decide)
  refine ⟨formed, by decide +kernel, by decide +kernel, by decide +kernel, ?_⟩
  rw [ensurePteMapping_lossless_iff formed]
  exact fun usable => usable [] (by decide)

end Krnl

end SimpleOS.Model
