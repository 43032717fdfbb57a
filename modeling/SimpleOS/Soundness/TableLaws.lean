import SimpleOS.Proofs.Paging
import SimpleOS.Proofs.Unseen

/-! # Setting and reading entries of one page table

The tree of one process, with nothing else assumed about RAM: its tables are distinct frames of RAM
that are not free, and free frames may hold anything. `pte_set_fpn` either sets the entry of its page
and of no other, or fails and sets none; the tables it adds on the way keep the tree well formed.
-/

namespace SimpleOS.Model

open Lib

/-- The same memory with its size given anew. -/
def Memphy.resize (mp : Memphy) (maxsz : ℕ) : Memphy := { mp with maxsz }

namespace Krnl

variable {k : Krnl}

/-- The links of the process's own tables. -/
def tree (k : Krnl) : Links (Root Unit) 512 := k.links (fun _ _ => 0) ()

/-- The tables are distinct frames of RAM and not free; the free list names frames of RAM, each once. -/
structure TreeFormed (k : Krnl) : Prop where
  small : k.mram.maxsz / pagingPagesz ≤ 8192
  tables_distinct : k.tree.Separated 4
  tables_lt : ∀ f, k.tree.Uses 4 f → f < k.mram.maxsz / pagingPagesz
  tables_used : ∀ f, k.tree.Uses 4 f → f ∉ k.mram.freeFpList
  free_lt : ∀ f ∈ k.mram.freeFpList, f < k.mram.maxsz / pagingPagesz
  free_nodup : k.mram.freeFpList.Nodup

/-- The tables are distinct frames of RAM and not free; the free list names frames of RAM other than
frame 0, each once. -/
structure TreeWellFormed (k : Krnl) : Prop where
  small : k.mram.maxsz / pagingPagesz ≤ 8192
  tables_distinct : k.tree.Separated 4
  tables_lt : ∀ f, k.tree.Uses 4 f → f < k.mram.maxsz / pagingPagesz
  tables_used : ∀ f, k.tree.Uses 4 f → f ∉ k.mram.freeFpList
  free_lt : ∀ f ∈ k.mram.freeFpList, f < k.mram.maxsz / pagingPagesz
  free_nodup : k.mram.freeFpList.Nodup
  free_nonzero : 0 ∉ k.mram.freeFpList

def resize (k : Krnl) (maxsz : ℕ) : Krnl := { k with mram := k.mram.resize maxsz }

/-- The part of RAM that consists of whole frames. -/
def whole (k : Krnl) : Krnl := k.resize (k.mram.maxsz / pagingPagesz * pagingPagesz)

theorem TreeFormed.frames (formed : k.TreeFormed) :
    Frames 4 (k.mram.maxsz / pagingPagesz) (k.whole.links (fun _ _ => 0) ()) k.whole.mram [] where
  small := formed.small
  size := rfl
  nodup := formed.free_nodup
  free_lt := formed.free_lt
  used_lt := formed.tables_lt
  used_free := formed.tables_used
  separated := formed.tables_distinct

theorem TreeWellFormed.formed (wellFormed : k.TreeWellFormed) : k.TreeFormed where
  small := wellFormed.small
  tables_distinct := wellFormed.tables_distinct
  tables_lt := wellFormed.tables_lt
  tables_used := wellFormed.tables_used
  free_lt := wellFormed.free_lt
  free_nodup := wellFormed.free_nodup

end Krnl

namespace Memphy

variable {mp : Memphy} {maxsz fpn : ℕ}

private theorem clearEntries_resize {n : ℕ} :
    (mp.resize maxsz).clearEntries fpn n = (mp.clearEntries fpn n).resize maxsz := by
  induction n with
  | zero => rfl
  | succ n ih =>
    rw [clearEntries, clearEntries, ih]
    rfl

private theorem getFreefp_resize : (mp.resize maxsz).getFreefp =
    mp.getFreefp.map fun taken => (taken.1, taken.2.resize maxsz) := by
  cases free : mp.freeFpList with
  | nil => simp [getFreefp, resize, free]
  | cons fpn rest => simp [getFreefp, resize, free]

end Memphy

/-- Building a path does not look at the size of RAM. -/
theorem resize_unseen (maxsz : ℕ) : Unseen (Krnl.resize · maxsz) where
  pgd _ := rfl
  entry _ _ _ := rfl
  taken _ := Memphy.getFreefp_resize
  both _ _ _ := rfl
  clear _ _ _ := Memphy.clearEntries_resize
  set _ _ _ _ := rfl

theorem ensurePteMapping_resize (k : Krnl) (maxsz : ℕ) (pd : Pd) :
    ensurePteMapping (k.resize maxsz) pd =
      ((ensurePteMapping k pd).1.resize maxsz, (ensurePteMapping k pd).2) :=
  (resize_unseen maxsz).ensurePteMapping k pd

namespace Krnl

variable {k k' : Krnl} {p q : Addr} {fpn : ℕ}

/-- The walk of `pte_get_entry` is the descent in the tree of the process. -/
theorem ptTable_eq_tree (inRam : ∀ f, k.tree.Uses 4 f → f * pagingPagesz < k.mram.maxsz) (pd : Pd) :
    k.ptTable pd = k.tree.frameAt ((), pd.pgd) pd.tablePath :=
  ptTable_eq inRam pd

private theorem TreeWellFormed.pteGetEntry_eq (wellFormed : k.TreeWellFormed) (pgn : Addr) :
    pteGetEntry k pgn = (wordAt (rootsOf (fun _ _ => 0) () k) k.mram ((), (pdOf pgn).pgd)
      (pdOf pgn).tablePath (pdOf pgn).pt).setWidth 32 := by
  apply pteGetEntry_eq_wordAt
  intro f used
  have bound := wellFormed.tables_lt f used
  simp only [pagingPagesz] at *
  omega

/-- Well-formedness from the positions of the tables. -/
theorem TreeWellFormed.of_frames (wellFormed : k.TreeWellFormed) (maxsz : k'.mram.maxsz = k.mram.maxsz)
    (frames : Frames 4 (k.mram.maxsz / pagingPagesz) k'.tree k'.whole.mram [])
    (nonzero : 0 ∉ k'.mram.freeFpList) : k'.TreeWellFormed where
  small := maxsz ▸ wellFormed.small
  tables_distinct := frames.separated
  tables_lt := maxsz ▸ frames.used_lt
  tables_used := frames.used_free
  free_lt := maxsz ▸ frames.free_lt
  free_nodup := frames.nodup
  free_nonzero := nonzero

/-- Building the path of a page, seen from the whole frames of RAM. -/
theorem TreeWellFormed.ensured (wellFormed : k.TreeWellFormed) (pd : Pd) :
    Ensured (fun _ _ => 0) () (k.mram.maxsz / pagingPagesz) [] k.whole
      ((ensurePteMapping k pd).1.resize (k.mram.maxsz / pagingPagesz * pagingPagesz),
        (ensurePteMapping k pd).2) ((), pd.pgd) pd.tablePath := by
  rw [← ensurePteMapping_resize]
  exact ensurePteMapping_ensured wellFormed.formed.frames wellFormed.free_nonzero pd

theorem ensurePteMapping_maxsz (k : Krnl) (pd : Pd) : (ensurePteMapping k pd).1.mram.maxsz = k.mram.maxsz := by
  have same := ensurePteMapping_resize k k.mram.maxsz pd
  exact congrArg (fun result => result.1.mram.maxsz) same

/-- Building a path keeps the tree well formed and every entry as it is. -/
theorem TreeWellFormed.ensurePteMapping (wellFormed : k.TreeWellFormed) (pd : Pd) :
    (ensurePteMapping k pd).1.TreeWellFormed ∧
      ∀ q, pteGetEntry (ensurePteMapping k pd).1 q = pteGetEntry k q := by
  have ensured := wellFormed.ensured pd
  have after : (Model.ensurePteMapping k pd).1.TreeWellFormed := by
    apply wellFormed.of_frames (ensurePteMapping_maxsz k pd)
    · rw [Krnl.whole, ensurePteMapping_maxsz]
      exact ensured.frames
    · exact ensured.nonzero wellFormed.free_nonzero
  refine ⟨after, ?_⟩
  intro q
  rw [after.pteGetEntry_eq, wellFormed.pteGetEntry_eq]
  exact congrArg _ (ensured.grows.words ((), (pdOf q).pgd) (pdOf q).tablePath (pdOf q).pt rfl)

/-- A leaf entry stored in the table of its page keeps the tree well formed, is read back for its page and
leaves the other entries. -/
theorem TreeWellFormed.setLeaf (wellFormed : k.TreeWellFormed) {table : ℕ} {entry : Addr}
    (atTable : k.tree.frameAt ((), (pdOf p).pgd) (pdOf p).tablePath = some table)
    (present : pagingPtePresent entry = true)
    (after : k' = { k with mram := k.mram.setEntry table (pdOf p).pt entry }) :
    k'.TreeWellFormed ∧ pteGetEntry k' p = entry.setWidth 32 ∧
      ∀ q, pdOf q ≠ pdOf p → pteGetEntry k' q = pteGetEntry k q := by
  subst after
  have linked : child entry = some (pagingPteFpn entry) := child_eq_some.mpr ⟨present, rfl⟩
  have moved := wellFormed.formed.frames.leaf rfl atTable (pdOf p).pt linked
  have words := wellFormed.formed.frames.wordAt_leaf rfl atTable (pdOf p).pt linked
  have wellFormed' : TreeWellFormed { k with mram := k.mram.setEntry table (pdOf p).pt entry } := by
    refine wellFormed.of_frames rfl (wellFormed.formed.frames.congr rfl rfl ?_) wellFormed.free_nonzero
    intro r path short
    refine (moved r path (by omega)).trans (if_neg ?_)
    rintro ⟨-, rfl⟩
    simp [Pd.tablePath] at short
  refine ⟨wellFormed', ?_, ?_⟩
  · rw [wellFormed'.pteGetEntry_eq]
    exact congrArg _ ((words _ rfl _).trans (if_pos ⟨rfl, rfl, rfl⟩))
  · intro q other
    rw [wellFormed'.pteGetEntry_eq, wellFormed.pteGetEntry_eq]
    refine congrArg _ ((words _ rfl _).trans (if_neg ?_))
    rintro ⟨root, path, index⟩
    refine other (Pd.eq_of_position (congrArg Prod.snd root) ?_)
    rw [Pd.leafPath, Pd.leafPath, path, index]

theorem pdOf_ne {p q : Addr} (small : p.toNat < 2 ^ 45) (small' : q.toNat < 2 ^ 45) (other : q ≠ p) :
    pdOf q ≠ pdOf p := by
  intro same
  simp only [pdOf, Pd.mk.injEq, Fin.mk.injEq] at same
  apply other
  apply BitVec.eq_of_toNat_eq
  omega

/-- `pte_set_fpn` stores its entry for its page and no other, or fails and stores none; the tree stays well
formed. -/
theorem TreeWellFormed.setFpn (wellFormed : k.TreeWellFormed) (p : Addr) (fpn : ℕ) :
    (pteSetFpn k p fpn).1.TreeWellFormed ∧
    ((pteSetFpn k p fpn).2 = 0 → pteGetEntry (pteSetFpn k p fpn).1 p = (onlinePte fpn).setWidth 32 ∧
      ∀ q, pdOf q ≠ pdOf p → pteGetEntry (pteSetFpn k p fpn).1 q = pteGetEntry k q) ∧
    ((pteSetFpn k p fpn).2 ≠ 0 → (pteSetFpn k p fpn).2 = -1 ∧
      ∀ q, pteGetEntry (pteSetFpn k p fpn).1 q = pteGetEntry k q) := by
  obtain ⟨built, same⟩ := wellFormed.ensurePteMapping (pdOf p)
  have reached := (wellFormed.ensured (pdOf p)).reached
  rw [pteSetFpn, getPdFromPagenum_eq]
  dsimp only
  generalize Model.ensurePteMapping k (pdOf p) = result at built same reached
  obtain ⟨grown, _ | table⟩ := result
  · have failure : (-1 : Int) ≠ 0 := by decide
    exact ⟨built, fun succeeded => absurd succeeded failure, fun _ => ⟨rfl, same⟩⟩
  · obtain ⟨after, here, others⟩ :=
      built.setLeaf (reached table rfl) (onlinePte_present fpn) rfl
    refine ⟨after, fun _ => ⟨here, ?_⟩, fun failed => absurd rfl failed⟩
    intro q different
    rw [others q different, same]

/-- `pte_set_fpn` sets the entry of its page and no other, or fails and sets none; the tree stays well
formed. -/
theorem pteSetFpn_laws (wellFormed : k.TreeWellFormed) (small : p.toNat < 2 ^ 45) (fits : fpn < 2 ^ 13) :
    (pteSetFpn k p fpn).1.TreeWellFormed ∧
    ((pteSetFpn k p fpn).2 = 0 →
      pagingPtePresent (pteGetEntry (pteSetFpn k p fpn).1 p) = true ∧
      pteGetEntry (pteSetFpn k p fpn).1 p &&& pagingPteSwappedMask = 0 ∧
      pagingPteFpn (pteGetEntry (pteSetFpn k p fpn).1 p) = fpn ∧
      ∀ q, q.toNat < 2 ^ 45 → q ≠ p → pteGetEntry (pteSetFpn k p fpn).1 q = pteGetEntry k q) ∧
    ((pteSetFpn k p fpn).2 ≠ 0 → (pteSetFpn k p fpn).2 = -1 ∧
      ∀ q, q.toNat < 2 ^ 45 → pteGetEntry (pteSetFpn k p fpn).1 q = pteGetEntry k q) := by
  obtain ⟨after, succeeded, failed⟩ := wellFormed.setFpn p fpn
  refine ⟨after, ?_, ?_⟩
  · intro status
    obtain ⟨here, others⟩ := succeeded status
    refine ⟨?_, ?_, ?_, ?_⟩
    · rw [here, pagingPtePresent_setWidth, onlinePte_present]
    · rw [here]
      exact onlinePte_swapped fpn
    · rw [here, pagingPteFpn_setWidth, onlinePte_fpn fits]
    · intro q small' other
      exact others q (pdOf_ne small small' other)
  · intro status
    exact ⟨(failed status).1, fun q _ => (failed status).2 q⟩

/-- A process without tables. -/
theorem TreeFormed.of_init {heap : Malloc} {mram : Memphy} (small : mram.maxsz / pagingPagesz ≤ 8192)
    (free_lt : ∀ f ∈ mram.freeFpList, f < mram.maxsz / pagingPagesz) (nodup : mram.freeFpList.Nodup) :
    TreeFormed ⟨initMm heap, mram⟩ := by
  have empty : ∀ r path, (tree ⟨initMm heap, mram⟩).frameAt r path = none := by
    intro r path
    induction path with
    | nil => simp [tree, Links.frameAt, tableLinks, initMm]
    | cons j path ih => rw [Links.frameAt, ih, Option.bind_none]
  have unused : ∀ f, ¬(tree ⟨initMm heap, mram⟩).Uses 4 f := by
    rintro f ⟨r, path, -, reached⟩
    rw [empty] at reached
    cases reached
  refine ⟨small, ?_, fun f used => absurd used (unused f), fun f used => absurd used (unused f), free_lt, nodup⟩
  intro r path _ _ f short _ reached
  exact absurd ⟨r, path, short, reached⟩ (unused f)

theorem TreeFormed.wellFormed (formed : k.TreeFormed) (nonzero : 0 ∉ k.mram.freeFpList) : k.TreeWellFormed where
  small := formed.small
  tables_distinct := formed.tables_distinct
  tables_lt := formed.tables_lt
  tables_used := formed.tables_used
  free_lt := formed.free_lt
  free_nodup := formed.free_nodup
  free_nonzero := nonzero

/-- A fresh process on a RAM of eight frames whose free list is `1, …, 7`. -/
def fresh : Krnl := ⟨initMm ⟨fun _ => 0, [], fun _ => 0⟩, ⟨fun _ => 0, 0x8000, [1, 2, 3, 4, 5, 6, 7]⟩⟩

theorem fresh_wellFormed : fresh.TreeWellFormed :=
  (TreeFormed.of_init (by decide) (by decide) (by decide)).wellFormed (by decide)

theorem pteSetFpn_fresh : (pteSetFpn fresh 3 7).2 = 0 ∧ pagingPteFpn (pteGetEntry (pteSetFpn fresh 3 7).1 3) = 7 ∧
    pteGetEntry (pteSetFpn fresh 3 7).1 4 = pteGetEntry fresh 4 := by
  have laws := pteSetFpn_laws fresh_wellFormed (by decide : (3 : Addr).toNat < 2 ^ 45) (by decide : 7 < 2 ^ 13)
  have done : (pteSetFpn fresh 3 7).2 = 0 := by decide +kernel
  exact ⟨done, (laws.2.1 done).2.2.1, (laws.2.1 done).2.2.2 4 (by decide) (by decide)⟩

end Krnl

end SimpleOS.Model
