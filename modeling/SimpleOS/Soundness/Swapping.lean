import SimpleOS.Proofs.Swapping
import SimpleOS.Soundness.Paths

/-! # Swapped pages

`pte_set_swap` walks to its slot with a copy of the walk of `ensure_pte_mapping` that leaves new tables as they
are. The two agree when the frames on offer are clean: those for directories hold no present entry, and the one
for the PT table reads as zero outside the slot.
-/

namespace SimpleOS.Model

open Lib

namespace Krnl

variable {k k' : Krnl} {p q : Addr} {swptyp : BitVec 32} {swpoff : Addr}

/-- What `pte_set_swap` promises where it returns 0: its page is swapped to the given place, no other page
changes, and the tree is the one that `ensure_pte_mapping` builds. -/
structure SwapLaws (k : Krnl) (p : Addr) (swptyp : BitVec 32) (swpoff : Addr) : Prop where
  here : pagingPtePresent (pteGetEntry (pteSetSwap k p swptyp swpoff).1 p) = true ∧
    pagingPteSwapped (pteGetEntry (pteSetSwap k p swptyp swpoff).1 p) = true ∧
    pagingPteSwptyp (pteGetEntry (pteSetSwap k p swptyp swpoff).1 p) = swptyp ∧
    pagingPteSwp (pteGetEntry (pteSetSwap k p swptyp swpoff).1 p) = swpoff.setWidth 32
  others : ∀ q, q.toNat < 2 ^ 45 → q ≠ p →
    pteGetEntry (pteSetSwap k p swptyp swpoff).1 q = pteGetEntry k q
  built : (ensurePteMapping k (pdOf p)).2.isSome
  tree : ∀ r path, path.length < 4 → (pteSetSwap k p swptyp swpoff).1.tree.frameAt r path =
    (ensurePteMapping k (pdOf p)).1.tree.frameAt r path
  free : (pteSetSwap k p swptyp swpoff).1.mram.freeFpList = (ensurePteMapping k (pdOf p)).1.mram.freeFpList

/-- The frames for directories hold no present entry. -/
def CleanDirectories (k : Krnl) (pd : Pd) : Prop :=
  ∀ path f, (path, f) ∈ k.newTables pd → path.length < 3 → ∀ j, pagingPtePresent (k.mram.entry f j) = false

/-- The frame for the PT table reads as zero outside the slot of the page. -/
def CleanSlots (k : Krnl) (pd : Pd) : Prop :=
  ∀ path f, (path, f) ∈ k.newTables pd → path.length = 3 → ∀ j, j ≠ pd.pt → (k.mram.entry f j).setWidth 32 = 0#32

/-- There is a frame for every missing table; those for directories hold no present entry, and the one for the
PT table reads as zero outside the slot of the page. -/
structure TablesClean (k : Krnl) (pd : Pd) : Prop where
  enough : (k.tree.missing ((), pd.pgd) pd.tablePaths).length ≤ k.mram.freeFpList.length
  directories : k.CleanDirectories pd
  slots : k.CleanSlots pd

theorem TreeWellFormed.fits (wellFormed : k.TreeWellFormed) : ∀ f ∈ k.mram.freeFpList, f ≠ 0 ∧ f < 8192 := by
  intro f member
  have bound := wellFormed.free_lt f member
  have small := wellFormed.small
  refine ⟨?_, by omega⟩
  rintro rfl
  exact wellFormed.free_nonzero member

private theorem takePath_resize (k : Krnl) (maxsz : ℕ) (pd : Pd) :
    takePath (k.resize maxsz) pd = ((takePath k pd).1.resize maxsz, (takePath k pd).2) :=
  (resize_unseen maxsz).takePath k pd

/-- The walk of `pte_set_swap`, seen from the whole frames of RAM. -/
private theorem TreeWellFormed.taken (wellFormed : k.TreeWellFormed) {pd : Pd}
    (clean : k.CleanDirectories pd) :
    Taken (fun _ _ => 0) () (k.mram.maxsz / pagingPagesz) [] k.whole ((), pd.pgd) pd.tablePaths pd.tablePath
      ((takePath k pd).1.resize (k.mram.maxsz / pagingPagesz * pagingPagesz), (takePath k pd).2) := by
  rw [← takePath_resize]
  refine takePath_taken wellFormed.formed.frames pd (usable_of_nonzero wellFormed.free_nonzero) ?_
  rintro ⟨path, f⟩ member directory j
  exact child_eq_none.mpr (clean path f member directory j)

/-- The walk of `ensure_pte_mapping`, seen likewise. -/
theorem TreeWellFormed.walk (wellFormed : k.TreeWellFormed) (pd : Pd) :
    Walk (fun _ _ => 0) () (k.mram.maxsz / pagingPagesz) [] k.whole ((), pd.pgd) pd.tablePaths pd.tablePath
      ((Model.ensurePteMapping k pd).1.resize (k.mram.maxsz / pagingPagesz * pagingPagesz),
        (Model.ensurePteMapping k pd).2) := by
  rw [← ensurePteMapping_resize]
  exact ensurePteMapping_walk wellFormed.formed.frames pd (usable_of_nonzero wellFormed.free_nonzero)

private theorem TreeWellFormed.walk_fills (wellFormed : k.TreeWellFormed) (pd : Pd) :
    Links.Fills 4 k.tree (Model.ensurePteMapping k pd).1.tree ((), pd.pgd) (k.newTables pd) :=
  (wellFormed.walk pd).built.fills

private theorem TreeWellFormed.taken_fills (wellFormed : k.TreeWellFormed) {pd : Pd} (clean : k.CleanDirectories pd) :
    Links.Fills 4 k.tree (takePath k pd).1.tree ((), pd.pgd) (k.newTables pd) :=
  (wellFormed.taken clean).built.fills

private theorem takePath_maxsz (k : Krnl) (pd : Pd) : (takePath k pd).1.mram.maxsz = k.mram.maxsz :=
  congrArg (fun result => result.1.mram.maxsz) (takePath_resize k k.mram.maxsz pd)

end Krnl

/-- Two walks that fill the same positions with the same frames leave the same forest. -/
private theorem Built.unique {ι : Type} [DecidableEq ι] {others : ι → Fin 512 → Addr} {P : ι} {k : Krnl} {r : Root ι}
    {paths : List (List (Fin 512))} {goal goal' : List (Fin 512)} {result result' : Krnl × Option ℕ}
    (first : Built others P k r paths goal result) (second : Built others P k r paths goal' result') :
    (∀ r path, path.length < 4 →
      (result.1.links others P).frameAt r path = (result'.1.links others P).frameAt r path) ∧
    result.1.mram.freeFpList = result'.1.mram.freeFpList ∧ result.2.isSome = result'.2.isSome := by
  refine ⟨?_, first.free.trans second.free.symm, ?_⟩
  · intro r' path short
    by_cases here : r' = r
    · rw [here, first.fills.below path short, second.fills.below path short]
    · rw [first.fills.elsewhere r' path short here, second.fills.elsewhere r' path short here]
  · rw [Bool.eq_iff_iff, first.succeeds, second.succeeds]

namespace Krnl

variable {k k' : Krnl} {p q : Addr} {swptyp : BitVec 32} {swpoff : Addr} {pd : Pd}

private theorem TreeWellFormed.after_taken (wellFormed : k.TreeWellFormed) (clean : k.CleanDirectories pd) :
    (takePath k pd).1.TreeWellFormed := by
  have taken := wellFormed.taken clean
  apply wellFormed.of_frames (takePath_maxsz k pd)
  · rw [Krnl.whole, takePath_maxsz]
    exact taken.frames
  · have left : (takePath k pd).1.mram.freeFpList = _ := taken.built.free
    rw [left]
    exact fun member => wellFormed.free_nonzero (List.mem_of_mem_drop member)

/-- `pte_get_entry` by the position of the PT table. -/
private theorem TreeWellFormed.entry_eq (wellFormed : k.TreeWellFormed) (q : Addr) :
    pteGetEntry k q = (k.tree.frameAt ((), (pdOf q).pgd) (pdOf q).tablePath).elim 0
      fun f => (k.mram.entry f (pdOf q).pt).setWidth 32 := by
  rw [pteGetEntry_eq_ptTable, ptTable_eq_tree]
  · intro f used
    have bound := wellFormed.tables_lt f used
    simp only [pagingPagesz] at *
    omega

/-- After the walk every entry is read where it was before, in the table that its page has now. -/
private theorem TreeWellFormed.taken_entry (wellFormed : k.TreeWellFormed) (clean : k.CleanDirectories pd) (q : Addr) :
    pteGetEntry (takePath k pd).1 q =
      ((takePath k pd).1.tree.frameAt ((), (pdOf q).pgd) (pdOf q).tablePath).elim 0
        fun f => (k.mram.entry f (pdOf q).pt).setWidth 32 := by
  have taken := wellFormed.taken clean
  have after := wellFormed.after_taken clean
  rw [after.entry_eq]
  cases reached : (takePath k pd).1.tree.frameAt ((), (pdOf q).pgd) (pdOf q).tablePath with
  | none => rfl
  | some f =>
    have same : (takePath k pd).1.mram.entry f (pdOf q).pt = k.mram.entry f (pdOf q).pt := by
      refine taken.entries f (pdOf q).pt ?_
      intro path short reached'
      obtain ⟨-, rfl⟩ := after.tables_distinct _ _ _ _ f (by omega)
        (show (pdOf q).tablePath.length < 4 by simp [Pd.tablePath]) reached' reached
      exact absurd short (by simp [Pd.tablePath])
    rw [Option.elim_some, Option.elim_some, same]

/-- Where `pte_set_swap` returns 0 it has reached a table and stored its entry there. -/
private theorem pteSetSwap_returned (returned : (pteSetSwap k p swptyp swpoff).2 = 0) :
    ∃ table, (takePath k (pdOf p)).2 = some table ∧ (pteSetSwap k p swptyp swpoff).1 =
      { (takePath k (pdOf p)).1 with
        mram := (takePath k (pdOf p)).1.mram.setEntry table (pdOf p).pt
          (swappedPte ((takePath k (pdOf p)).1.mram.entry table (pdOf p).pt) swptyp swpoff) } := by
  simp only [pteSetSwap, getPdFromPagenum_eq] at returned ⊢
  generalize takePath k (pdOf p) = result at returned ⊢
  obtain ⟨k₁, _ | table⟩ := result
  · cases returned
  · exact ⟨table, rfl, rfl⟩

/-- Storing a leaf entry moves no table. -/
private theorem TreeWellFormed.frameAt_setLeaf (wellFormed : k.TreeWellFormed) {table : ℕ} {entry : Addr}
    (atTable : k.tree.frameAt ((), (pdOf p).pgd) (pdOf p).tablePath = some table)
    (present : pagingPtePresent entry = true) (r : Root Unit) (path : List (Fin 512)) (short : path.length < 4) :
    (Krnl.tree { k with mram := k.mram.setEntry table (pdOf p).pt entry }).frameAt r path =
      k.tree.frameAt r path := by
  have linked : child entry = some (pagingPteFpn entry) := child_eq_some.mpr ⟨present, rfl⟩
  refine (wellFormed.formed.frames.leaf rfl atTable (pdOf p).pt linked r path (by omega)).trans (if_neg ?_)
  rintro ⟨-, rfl⟩
  simp [Pd.tablePath] at short

/-- A swapped entry in clean tables: the tree and the entries afterwards. -/
private theorem TreeWellFormed.swapped (wellFormed : k.TreeWellFormed) (clean : k.CleanDirectories (pdOf p))
    (returned : (pteSetSwap k p swptyp swpoff).2 = 0) :
    (pteSetSwap k p swptyp swpoff).1.TreeWellFormed ∧
    (∃ pte, pteGetEntry (pteSetSwap k p swptyp swpoff).1 p = (swappedPte pte swptyp swpoff).setWidth 32) ∧
    (∀ q, pdOf q ≠ pdOf p →
      pteGetEntry (pteSetSwap k p swptyp swpoff).1 q = pteGetEntry (takePath k (pdOf p)).1 q) ∧
    ∀ r path, path.length < 4 →
      (pteSetSwap k p swptyp swpoff).1.tree.frameAt r path = (takePath k (pdOf p)).1.tree.frameAt r path := by
  obtain ⟨table, reached, result⟩ := pteSetSwap_returned returned
  have atTable : (takePath k (pdOf p)).1.tree.frameAt ((), (pdOf p).pgd) (pdOf p).tablePath = some table :=
    (wellFormed.taken clean).built.reached table reached
  have present := swappedPte_present ((takePath k (pdOf p)).1.mram.entry table (pdOf p).pt) swptyp swpoff
  have after := wellFormed.after_taken clean
  obtain ⟨wellFormed', here, others⟩ := after.setLeaf atTable present result
  refine ⟨wellFormed', ⟨_, here⟩, others, ?_⟩
  intro r path short
  rw [result]
  exact after.frameAt_setLeaf atTable present r path short

/-- The positions of the four tables are different, and above the leaves. -/
private theorem tablePaths_nodup (pd : Pd) : pd.tablePaths.Nodup := by
  simp [Pd.tablePaths, Pd.tablePath]

private theorem tablePaths_short (pd : Pd) : ∀ path ∈ pd.tablePaths, path.length < 4 := by
  simp [Pd.tablePaths, Pd.tablePath]

/-- A position offered a frame is empty and one of the four on the path. -/
private theorem offered_absent {path : List (Fin 512)} {f : ℕ} (offered : (path, f) ∈ k.newTables pd) :
    path ∈ pd.tablePaths ∧ k.tree.frameAt ((), pd.pgd) path = none := by
  obtain ⟨named, absent⟩ := List.mem_filter.mp (List.of_mem_zip offered).1
  exact ⟨named, Option.isNone_iff_eq_none.mp absent⟩

/-- A frame that is offered for a missing table stands there once the path is built. -/
private theorem TreeWellFormed.offered_at (wellFormed : k.TreeWellFormed) {path : List (Fin 512)} {f : ℕ}
    (offered : (path, f) ∈ k.newTables pd) :
    (Model.ensurePteMapping k pd).1.tree.frameAt ((), pd.pgd) path = some f := by
  have here : (k.newTables pd).lookup path = some f := Links.lookup_zip ((tablePaths_nodup pd).filter _) offered
  rw [(wellFormed.walk_fills pd).below path (tablePaths_short pd path (offered_absent offered).1), here, Option.some_or]

/-- A page whose table is not new, or whose slot in the new table is clean, reads as before. -/
private theorem TreeWellFormed.taken_other (wellFormed : k.TreeWellFormed) (directories : k.CleanDirectories (pdOf p))
    (slots : k.CleanSlots (pdOf p)) (different : pdOf q ≠ pdOf p) :
    pteGetEntry (takePath k (pdOf p)).1 q = pteGetEntry k q := by
  have short : (pdOf q).tablePath.length < 4 := by simp [Pd.tablePath]
  have fills := wellFormed.taken_fills directories
  rw [wellFormed.taken_entry directories, wellFormed.entry_eq]
  by_cases root : (pdOf q).pgd = (pdOf p).pgd
  · rw [root, fills.below _ short]
    cases new : (k.newTables (pdOf p)).lookup (pdOf q).tablePath with
    | none => rw [Option.none_or]
    | some f =>
      have offered : ((pdOf q).tablePath, f) ∈ k.newTables (pdOf p) := Links.mem_of_lookup new
      obtain ⟨named, absent⟩ := offered_absent offered
      have slot : (pdOf q).pt ≠ (pdOf p).pt := by
        intro same
        refine different (Pd.eq_of_position root ?_)
        have path : (pdOf q).tablePath = (pdOf p).tablePath := by
          simpa [Pd.tablePaths, Pd.tablePath] using named
        rw [Pd.leafPath, Pd.leafPath, path, same]
      rw [absent, Option.some_or, Option.elim_some, Option.elim_none]
      exact slots _ f offered rfl _ slot
  · rw [fills.elsewhere _ _ short fun same => root (congrArg Prod.snd same)]

/-- A walk that fails leaves every entry as it was: the PT table of its page is missing before and after. -/
private theorem TreeWellFormed.taken_failed (wellFormed : k.TreeWellFormed) (directories : k.CleanDirectories (pdOf p))
    (failed : (takePath k (pdOf p)).2 = none) (same : pdOf q = pdOf p) :
    pteGetEntry (takePath k (pdOf p)).1 q = pteGetEntry k q := by
  have built := (wellFormed.taken directories).built
  have few : ¬(k.tree.missing ((), (pdOf p).pgd) (pdOf p).tablePaths).length ≤ k.mram.freeFpList.length := by
    intro enough
    have ends := built.succeeds.mpr enough
    rw [failed] at ends
    cases ends
  have absent : k.tree.frameAt ((), (pdOf p).pgd) (pdOf p).tablePath = none := by
    rw [Option.eq_none_iff_forall_not_mem]
    intro f reached
    rw [missing_of_reached reached] at few
    exact few (Nat.zero_le _)
  have new : (k.newTables (pdOf p)).lookup (pdOf p).tablePath = none := by
    rw [Option.eq_none_iff_forall_not_mem]
    intro f found
    have offered : ((pdOf p).tablePath, f) ∈
        (k.tree.missing ((), (pdOf p).pgd) (pdOf p).tablePaths).zip k.mram.freeFpList := Links.mem_of_lookup found
    obtain ⟨upper, fresh, missing⟩ := missing_of_absent absent
    rw [missing] at offered
    have length := Links.length_of_zip_last fresh offered
    rw [missing, List.length_append, List.length_singleton] at few
    omega
  have after := (wellFormed.taken_fills directories).below _ (show (pdOf p).tablePath.length < 4 by simp [Pd.tablePath])
  rw [wellFormed.taken_entry directories, wellFormed.entry_eq, same, after, new, Option.none_or]

/-- `pte_get_entry` looks at the five indices of a page only. -/
theorem pteGetEntry_congr (same : pdOf q = pdOf p) : pteGetEntry k q = pteGetEntry k p := by
  rw [pteGetEntry_eq_ptTable, pteGetEntry_eq_ptTable, same]

/-- Over clean frames `pte_set_swap` stores its entry for its page and no other, or fails and stores none; the tree
stays well formed. -/
theorem TreeWellFormed.setSwap (wellFormed : k.TreeWellFormed) (directories : k.CleanDirectories (pdOf p))
    (slots : k.CleanSlots (pdOf p)) (swptyp : BitVec 32) (swpoff : Addr) :
    (pteSetSwap k p swptyp swpoff).1.TreeWellFormed ∧
    ((pteSetSwap k p swptyp swpoff).2 = 0 →
      (∃ pte, pteGetEntry (pteSetSwap k p swptyp swpoff).1 p = (swappedPte pte swptyp swpoff).setWidth 32) ∧
      ∀ q, pdOf q ≠ pdOf p → pteGetEntry (pteSetSwap k p swptyp swpoff).1 q = pteGetEntry k q) ∧
    ((pteSetSwap k p swptyp swpoff).2 ≠ 0 →
      ∀ q, pteGetEntry (pteSetSwap k p swptyp swpoff).1 q = pteGetEntry k q) := by
  have after := wellFormed.after_taken directories
  have same := fun q => wellFormed.taken_other (q := q) directories slots
  have here := fun failed q => wellFormed.taken_failed (q := q) directories failed
  have stored := @TreeWellFormed.swapped k p swptyp swpoff wellFormed directories
  simp only [pteSetSwap, getPdFromPagenum_eq] at stored ⊢
  generalize takePath k (pdOf p) = result at after same here stored
  obtain ⟨k₁, _ | table⟩ := result
  · have failure : (-1 : Int) ≠ 0 := by decide
    refine ⟨after, fun succeeded => absurd succeeded failure, fun _ q => ?_⟩
    by_cases own : pdOf q = pdOf p
    · exact here rfl q own
    · exact same q own
  · obtain ⟨wellFormed', entry, others, -⟩ := stored rfl
    refine ⟨wellFormed', fun _ => ⟨entry, ?_⟩, fun failed => absurd rfl failed⟩
    intro q different
    exact (others q different).trans (same q different)

/-- In clean tables `pte_set_swap` keeps its promise. -/
private theorem TablesClean.swapLaws (wellFormed : k.TreeWellFormed) (clean : k.TablesClean (pdOf p))
    (small : p.toNat < 2 ^ 45) (typ : swptyp.toNat < 32) (off : swpoff.toNat < 2 ^ 21)
    (returned : (pteSetSwap k p swptyp swpoff).2 = 0) : k.SwapLaws p swptyp swpoff := by
  obtain ⟨wellFormed', ⟨pte, here⟩, others, tree⟩ := wellFormed.swapped clean.directories returned
  obtain ⟨table, reached, result⟩ := pteSetSwap_returned returned
  obtain ⟨same, free, ends⟩ := (wellFormed.taken clean.directories).built.unique (wellFormed.walk (pdOf p)).built
  refine ⟨?_, ?_, ?_, ?_, ?_⟩
  · rw [here]
    refine ⟨?_, swappedPte_swapped _ _ _, swappedPte_swptyp _ _ typ, swappedPte_swp _ _ off⟩
    rw [pagingPtePresent_setWidth, swappedPte_present]
  · intro q small' other
    have different := pdOf_ne small small' other
    rw [others q different, wellFormed.taken_other clean.directories clean.slots different]
  · rw [← ends, reached]
    rfl
  · intro r path short
    exact (tree r path short).trans (same r path short)
  · rw [result]
    exact free

/-- The entry that `pte_set_swap` stores is present, and so are all that were. -/
private theorem pteSetSwap_fuller (wellFormed : k.TreeWellFormed) (returned : (pteSetSwap k p swptyp swpoff).2 = 0) :
    k.Fuller (pteSetSwap k p swptyp swpoff).1 := by
  obtain ⟨table, -, result⟩ := pteSetSwap_returned returned
  intro f j present
  have before := takePath_fuller wellFormed.fits (pdOf p) f j present
  rw [result]
  by_cases here : f = table ∧ j = (pdOf p).pt
  · obtain ⟨rfl, rfl⟩ := here
    dsimp only
    rw [Memphy.entry_setEntry_same]
    exact swappedPte_present _ _ _
  · rw [not_and_or] at here
    dsimp only
    rw [Memphy.entry_setEntry_ne here, before]

/-- A tree like that of `ensure_pte_mapping` needs clean directories: an entry that is present on the way saves a
frame, and one beside the way adds a table. -/
private theorem SwapLaws.cleanDirectories (wellFormed : k.TreeWellFormed)
    (returned : (pteSetSwap k p swptyp swpoff).2 = 0) (laws : k.SwapLaws p swptyp swpoff) :
    k.CleanDirectories (pdOf p) := by
  have walk := (wellFormed.walk (pdOf p)).built
  have enough := walk.succeeds.mp laws.built
  have all : k.mram.freeFpList.length = (takePath k (pdOf p)).1.mram.freeFpList.length +
      (k.tree.missing ((), (pdOf p).pgd) (pdOf p).tablePaths).length := by
    obtain ⟨table, -, result⟩ := pteSetSwap_returned returned
    have free := laws.free
    rw [result] at free
    have left : (Model.ensurePteMapping k (pdOf p)).1.mram.freeFpList = k.mram.freeFpList.drop
      (k.tree.missing ((), (pdOf p).pgd) (pdOf p).tablePaths).length := walk.free
    have length := congrArg List.length (free.trans left)
    rw [List.length_drop] at length
    change (takePath k (pdOf p)).1.mram.freeFpList.length = _ at length
    change (k.tree.missing ((), (pdOf p).pgd) (pdOf p).tablePaths).length ≤ k.mram.freeFpList.length at enough
    omega
  intro path f offered directory j
  by_contra present
  rw [Bool.not_eq_false] at present
  have stays := pteSetSwap_fuller wellFormed returned f j present
  have here := wellFormed.offered_at offered
  rw [← laws.tree _ path (by omega)] at here
  have linked : (pteSetSwap k p swptyp swpoff).1.tree.frameAt ((), (pdOf p).pgd) (j :: path) =
      child ((pteSetSwap k p swptyp swpoff).1.mram.entry f j) := by
    rw [Krnl.tree] at here
    rw [Krnl.tree, frameAt_cons, wordAt, here]
  have short : (j :: path).length < 4 := by
    rw [List.length_cons]
    omega
  obtain ⟨named, absent⟩ := offered_absent offered
  rw [laws.tree _ _ short, (wellFormed.walk_fills (pdOf p)).below _ short,
    child_eq_some.mpr ⟨stays, rfl⟩] at linked
  have nothing : k.tree.frameAt ((), (pdOf p).pgd) (j :: path) = none := by
    rw [Links.frameAt, absent, Option.bind_none]
  rw [nothing, Option.or_none] at linked
  have onPath : j :: path ∈ (pdOf p).tablePaths := (offered_absent (Links.mem_of_lookup linked)).1
  have vacant : pagingPtePresent (k.mram.entry f j) = false := takePath_offered wellFormed.fits all offered onPath
  rw [present] at vacant
  cases vacant

/-- Pages that share the new table read zero afterwards only if their slots held zero. -/
private theorem SwapLaws.tablesClean (wellFormed : k.TreeWellFormed)
    (returned : (pteSetSwap k p swptyp swpoff).2 = 0) (laws : k.SwapLaws p swptyp swpoff) :
    k.TablesClean (pdOf p) := by
  have directories := laws.cleanDirectories wellFormed returned
  refine ⟨(wellFormed.walk (pdOf p)).built.succeeds.mp laws.built, directories, ?_⟩
  intro path f offered deep j other
  obtain ⟨named, absent⟩ := offered_absent offered
  have onPath : path = (pdOf p).tablePath := by
    simp only [Pd.tablePaths, List.mem_cons, List.not_mem_nil, or_false] at named
    rcases named with rfl | rfl | rfl | rfl
    · simp at deep
    · simp at deep
    · simp at deep
    · rfl
  subst onPath
  let pd : Pd := { pdOf p with pt := j }
  have bound := pd.pageNumber.isLt
  have digits : pdOf (pd.pageNumber.setWidth 64) = pd := pdOf_pageNumber pd
  have different : pdOf (pd.pageNumber.setWidth 64) ≠ pdOf p := by
    rw [digits]
    intro same
    exact other (congrArg Pd.pt same)
  have unchanged := laws.others (pd.pageNumber.setWidth 64) (by rw [BitVec.toNat_setWidth]; omega)
    (by rintro same; exact different (congrArg pdOf same))
  obtain ⟨-, -, others, tree⟩ := wellFormed.swapped directories returned
  have there : (takePath k (pdOf p)).1.tree.frameAt ((), (pdOf p).pgd) (pdOf p).tablePath = some f := by
    rw [← tree _ _ (by omega), laws.tree _ _ (by omega), wellFormed.offered_at offered]
  rw [others _ different, wellFormed.taken_entry directories, wellFormed.entry_eq, digits] at unchanged
  change Option.elim (Links.frameAt _ ((), (pdOf p).pgd) (pdOf p).tablePath) _ _ =
    Option.elim (Links.frameAt _ ((), (pdOf p).pgd) (pdOf p).tablePath) _ _ at unchanged
  rw [there, absent, Option.elim_some, Option.elim_none] at unchanged
  exact unchanged

/-- Where `pte_set_swap` returns 0, it keeps its promise exactly when the frames on offer are clean. -/
theorem pteSetSwap_laws_iff (wellFormed : k.TreeWellFormed) (small : p.toNat < 2 ^ 45)
    (typ : swptyp.toNat < 32) (off : swpoff.toNat < 2 ^ 21) (returned : (pteSetSwap k p swptyp swpoff).2 = 0) :
    k.SwapLaws p swptyp swpoff ↔ k.TablesClean (pdOf p) :=
  ⟨fun laws => laws.tablesClean wellFormed returned,
    fun clean => clean.swapLaws wellFormed small typ off returned⟩

/-- The free frames of a zeroed RAM are clean. -/
theorem fresh_clean (pd : Pd) : fresh.CleanDirectories pd ∧ fresh.CleanSlots pd := by
  have zero : ∀ f j, fresh.mram.entry f j = 0#64 := by
    intro f j
    exact Bytes.readWord_of_zero fun _ _ => rfl
  refine ⟨?_, ?_⟩
  · intro path f _ _ j
    rw [zero, pagingPtePresent_zero]
  · intro path f _ _ j _
    rw [zero]
    rfl

theorem swapLaws_fresh : fresh.SwapLaws 3 5 9 := by
  have clean : fresh.TablesClean (pdOf 3) := ⟨by decide, (fresh_clean (pdOf 3)).1, (fresh_clean (pdOf 3)).2⟩
  exact (pteSetSwap_laws_iff fresh_wellFormed (by decide) (by decide) (by decide) (by decide +kernel)).mpr clean

/-- The same process on a RAM whose frame 4 has held data: its byte 43 is `0x80`. -/
def recycled : Krnl :=
  ⟨initMm ⟨fun _ => 0, [], fun _ => 0⟩, ⟨fun a => if a = 4 * 4096 + 43 then 0x80 else 0, 0x8000, [1, 2, 3, 4, 5, 6, 7]⟩⟩

/-- Page 3 is swapped, and page 5, whose slot lies in the new PT table, becomes present in frame 0. -/
theorem swap_maps_another : recycled.TreeWellFormed ∧ (pteSetSwap recycled 3 5 9).2 = 0 ∧
    pteGetEntry recycled 5 = 0 ∧ pteGetEntry (pteSetSwap recycled 3 5 9).1 5 = 0x80000000 ∧
    ¬recycled.SwapLaws 3 5 9 := by
  have before : pteGetEntry recycled 5 = 0 := by decide +kernel
  have after : pteGetEntry (pteSetSwap recycled 3 5 9).1 5 = 0x80000000 := by decide +kernel
  refine ⟨(TreeFormed.of_init (by decide) (by decide) (by decide)).wellFormed (by decide), by decide +kernel,
    before, after, ?_⟩
  intro laws
  have unchanged := laws.others 5 (by decide) (by decide)
  rw [after, before] at unchanged
  cases unchanged

end Krnl

end SimpleOS.Model
