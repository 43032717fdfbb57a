import SimpleOS.Lib.FrameForest
import SimpleOS.Proofs.Entries

/-! # The page tables of all processes as one forest

Tables of every process lie in one RAM. Root cells are the entries of the `pgd` arrays; the cells of
a frame are its 512 entries. Frames on paths of length 0 to 3 are the P4D, PUD, PMD and PT tables,
and a path of length 4 ends at the frame of a page.

`Frames d` says that the frames above depth `d` are in RAM, distinct and not free: with `d = 4` it
speaks of tables only, with `d = 5` of tables and pages. `Grows` is what completing a path may do
to the forest; it is reflexive and transitive, so the four blocks of `ensure_pte_mapping` chain.
-/

namespace SimpleOS.Model

open Lib

namespace Memphy

variable {mp mp' : Memphy} {fpn other n a : ℕ} {i j : Fin 512} {v : Addr}

@[simp] theorem setEntry_maxsz : (mp.setEntry fpn i v).maxsz = mp.maxsz := rfl

@[simp] theorem setEntry_freeFpList : (mp.setEntry fpn i v).freeFpList = mp.freeFpList := rfl

@[simp] theorem clearEntries_maxsz : (mp.clearEntries fpn n).maxsz = mp.maxsz := by
  induction n with
  | zero => rfl
  | succ n ih => exact ih

@[simp] theorem clearEntries_freeFpList : (mp.clearEntries fpn n).freeFpList = mp.freeFpList := by
  induction n with
  | zero => rfl
  | succ n ih => exact ih

theorem storage_setEntry (apart : a / pagingPagesz ≠ fpn) :
    (mp.setEntry fpn i v).storage a = mp.storage a := by
  have := i.isLt
  simp only [pagingPagesz] at apart
  exact Bytes.writeWord_outside (by simp only [pagingPagesz]; omega)

@[simp] theorem entry_setEntry_same : (mp.setEntry fpn i v).entry fpn i = v :=
  Bytes.readWord_writeWord

theorem entry_setEntry_ne (different : other ≠ fpn ∨ j ≠ i) :
    (mp.setEntry fpn i v).entry other j = mp.entry other j := by
  have := i.isLt
  have := j.isLt
  have apart : other ≠ fpn ∨ j.val ≠ i.val := different.imp id fun ne same => ne (Fin.ext same)
  exact Bytes.readWord_writeWord_outside (by simp only [pagingPagesz]; omega)

/-- An entry depends on the bytes of its own frame. -/
theorem entry_congr (same : ∀ a, a / pagingPagesz = fpn → mp'.storage a = mp.storage a) :
    mp'.entry fpn i = mp.entry fpn i := by
  have := i.isLt
  refine Bytes.readWord_congr fun b bound => same _ ?_
  simp only [pagingPagesz]
  omega

/-- The clearing loop zeroes the entries it has reached. -/
private theorem storage_clearEntries : (mp.clearEntries fpn n).storage a =
    if fpn * pagingPagesz ≤ a ∧ a < fpn * pagingPagesz + 8 * n then 0 else mp.storage a := by
  induction n with
  | zero => simp only [clearEntries]; rw [if_neg (by omega)]
  | succ n ih =>
    simp only [clearEntries, Bytes.writeWord]
    by_cases here : fpn * pagingPagesz + 8 * n ≤ a ∧ a < fpn * pagingPagesz + 8 * n + 8
    · rw [if_pos here, if_pos (by omega)]
      simp
    · rw [if_neg here, ih]
      by_cases inside : fpn * pagingPagesz ≤ a ∧ a < fpn * pagingPagesz + 8 * n
      · rw [if_pos inside, if_pos (by omega)]
      · rw [if_neg inside, if_neg (by omega)]

/-- The whole loop zeroes the frame and nothing else. -/
theorem storage_clear : (mp.clearEntries fpn 512).storage a =
    if a / pagingPagesz = fpn then 0 else mp.storage a := by
  rw [storage_clearEntries]
  by_cases inside : a / pagingPagesz = fpn
  · rw [if_pos inside, if_pos (by simp only [pagingPagesz] at *; omega)]
  · rw [if_neg inside, if_neg (by simp only [pagingPagesz] at *; omega)]

theorem entry_clear_same : (mp.clearEntries fpn 512).entry fpn i = 0 := by
  have := i.isLt
  apply Bytes.readWord_of_zero
  intro b bound
  rw [storage_clear, if_pos (by simp only [pagingPagesz]; omega)]

theorem entry_clear_ne (different : other ≠ fpn) :
    (mp.clearEntries fpn 512).entry other i = mp.entry other i :=
  entry_congr fun a inside => by rw [storage_clear, if_neg (by omega)]

end Memphy

/-- The frame an entry links to. -/
def child (entry : Addr) : Option ℕ :=
  if pagingPtePresent entry then some (pagingPteFpn entry) else none

@[simp] theorem child_zero : child 0#64 = none := by simp [child]

theorem child_eq_some {entry : Addr} {f : ℕ} :
    child entry = some f ↔ pagingPtePresent entry = true ∧ pagingPteFpn entry = f := by
  simp [child]

theorem child_eq_none {entry : Addr} : child entry = none ↔ pagingPtePresent entry = false := by
  simp [child]

/-- The root of one page table tree: a process and an index of its `pgd`. -/
abbrev Root (ι : Type) := ι × Fin 512

variable {ι : Type} [DecidableEq ι]

/-- The links of all processes' tables. -/
def tableLinks (roots : ι → Fin 512 → Addr) (mram : Memphy) : Links (Root ι) 512
  | .root r => child (roots r.1 r.2)
  | .cell f j => child (mram.entry f j)

/-- The entry `j` of the table at a position; zero where no table is. -/
def wordAt (roots : ι → Fin 512 → Addr) (mram : Memphy) (r : Root ι) (path : List (Fin 512))
    (j : Fin 512) : Addr :=
  match (tableLinks roots mram).frameAt r path with
  | none => 0
  | some f => mram.entry f j

omit [DecidableEq ι] in
theorem frameAt_cons (roots : ι → Fin 512 → Addr) (mram : Memphy) (r : Root ι)
    (path : List (Fin 512)) (j : Fin 512) :
    (tableLinks roots mram).frameAt r (j :: path) = child (wordAt roots mram r path j) := by
  rw [Links.frameAt, wordAt]
  cases (tableLinks roots mram).frameAt r path with
  | none => simp
  | some f => rfl

/-- The roots when process `P` runs with the directory `pgd`. -/
abbrev rootsOf (others : ι → Fin 512 → Addr) (P : ι) (k : Krnl) : ι → Fin 512 → Addr :=
  Function.update others P k.mm.pgd

/-- The links while process `P` runs in kernel state `k`. -/
abbrev Krnl.links (others : ι → Fin 512 → Addr) (P : ι) (k : Krnl) : Links (Root ι) 512 :=
  tableLinks (rootsOf others P k) k.mram

/-- Frames above depth `d` are in RAM, distinct and not free; free frames are in RAM and listed once.
The frames of `flight` are taken from the free list and not linked yet. -/
structure Frames (d n : ℕ) (links : Links (Root ι) 512) (mram : Memphy) (flight : List ℕ) : Prop where
  small : n ≤ 8192
  size : mram.maxsz = n * pagingPagesz
  nodup : (flight ++ mram.freeFpList).Nodup
  free_lt : ∀ f ∈ flight ++ mram.freeFpList, f < n
  used_lt : ∀ f, links.Uses d f → f < n
  used_free : ∀ f, links.Uses d f → f ∉ flight ++ mram.freeFpList
  separated : links.Separated d

omit [DecidableEq ι] in
theorem Frames.mono {d e n : ℕ} {links : Links (Root ι) 512} {mram : Memphy} {flight : List ℕ}
    (frames : Frames d n links mram flight) (above : e ≤ d) : Frames e n links mram flight where
  small := frames.small
  size := frames.size
  nodup := frames.nodup
  free_lt := frames.free_lt
  used_lt f uses := frames.used_lt f (uses.mono above)
  used_free f uses := frames.used_free f (uses.mono above)
  separated := frames.separated.mono above

omit [DecidableEq ι] in
theorem uses_congr {d : ℕ} {links links' : Links (Root ι) 512}
    (same : ∀ r path, path.length < d → links'.frameAt r path = links.frameAt r path) (f : ℕ) :
    links'.Uses d f ↔ links.Uses d f := by
  constructor
  · rintro ⟨r, path, short, reached⟩
    exact ⟨r, path, short, by rw [← same r path short, reached]⟩
  · rintro ⟨r, path, short, reached⟩
    exact ⟨r, path, short, by rw [same r path short, reached]⟩

omit [DecidableEq ι] in
/-- `Frames` depends on the positions of frames only. -/
theorem Frames.congr {d n : ℕ} {links links' : Links (Root ι) 512} {mram mram' : Memphy} {flight : List ℕ}
    (frames : Frames d n links mram flight) (maxsz : mram'.maxsz = mram.maxsz)
    (free : mram'.freeFpList = mram.freeFpList)
    (same : ∀ r path, path.length < d → links'.frameAt r path = links.frameAt r path) :
    Frames d n links' mram' flight where
  small := frames.small
  size := maxsz.trans frames.size
  nodup := by
    rw [free]
    exact frames.nodup
  free_lt := by
    rw [free]
    exact frames.free_lt
  used_lt f used := frames.used_lt f ((uses_congr same f).mp used)
  used_free f used := by
    rw [free]
    exact frames.used_free f ((uses_congr same f).mp used)
  separated r path r' path' f short short' reached reached' := by
    rw [same r path short] at reached
    rw [same r' path' short'] at reached'
    exact frames.separated r path r' path' f short short' reached reached'

omit [DecidableEq ι] in
/-- Frames move between the free list and the frames in flight. -/
theorem Frames.reflight {d n : ℕ} {links : Links (Root ι) 512} {mram mram' : Memphy}
    {flight flight' : List ℕ}
    (frames : Frames d n links mram flight) (maxsz : mram'.maxsz = mram.maxsz)
    (perm : (flight' ++ mram'.freeFpList).Perm (flight ++ mram.freeFpList)) :
    Frames d n links mram' flight' where
  small := frames.small
  size := maxsz.trans frames.size
  nodup := perm.nodup_iff.mpr frames.nodup
  free_lt f member := frames.free_lt f (perm.mem_iff.mp member)
  used_lt := frames.used_lt
  used_free f uses member := frames.used_free f uses (perm.mem_iff.mp member)
  separated := frames.separated

omit [DecidableEq ι] in
/-- A frame in flight is linked at an empty position. -/
theorem Frames.plant {d n g : ℕ} {links links' : Links (Root ι) 512} {mram mram' : Memphy}
    {flight : List ℕ} {r₀ : Root ι} {path₀ : List (Fin 512)}
    (frames : Frames d n links mram (g :: flight)) (plants : Links.Plants d links links' r₀ path₀ g)
    (maxsz : mram'.maxsz = mram.maxsz) (free : mram'.freeFpList = mram.freeFpList) :
    Frames d n links' mram' flight := by
  have nodup : (g :: (flight ++ mram.freeFpList)).Nodup := frames.nodup
  have unused : ¬links.Uses d g := fun uses => frames.used_free g uses (List.mem_cons_self ..)
  refine ⟨frames.small, maxsz.trans frames.size, ?_, ?_, ?_, ?_, plants.separated frames.separated unused⟩
  · rw [free]
    exact nodup.of_cons
  · rw [free]
    exact fun f member => frames.free_lt f (List.mem_cons_of_mem g member)
  · intro f uses
    rcases plants.uses uses with rfl | before
    · exact frames.free_lt f (List.mem_cons_self ..)
    · exact frames.used_lt f before
  · intro f uses
    rw [free]
    rcases plants.uses uses with rfl | before
    · exact (List.nodup_cons.mp nodup).1
    · exact fun member => frames.used_free f before (List.mem_cons_of_mem g member)

/-- What completing paths of process `P` may do: tables appear at empty positions of `P`, in frames
taken from the head of the free list; no entry of a PT table changes, and bytes change only in
tables of `P` and in the frames taken. -/
structure Grows (others : ι → Fin 512 → Addr) (P : ι) (k k' : Krnl) : Prop where
  maxsz : k'.mram.maxsz = k.mram.maxsz
  taken : ∃ taken, k.mram.freeFpList = taken ++ k'.mram.freeFpList ∧
    ∀ f ∈ taken, (k'.links others P).Uses 4 f
  kept : ∀ r path f, path.length < 4 → (k.links others P).frameAt r path = some f →
    (k'.links others P).frameAt r path = some f
  new : ∀ r path f, path.length < 4 → (k'.links others P).frameAt r path = some f →
    (k.links others P).frameAt r path = some f ∨ r.1 = P ∧ f ∈ k.mram.freeFpList
  words : ∀ r path j, path.length = 3 →
    wordAt (rootsOf others P k') k'.mram r path j = wordAt (rootsOf others P k) k.mram r path j
  bytes : ∀ a, a / pagingPagesz ∉ k.mram.freeFpList →
    (∀ i path, path.length < 4 → (k.links others P).frameAt (P, i) path ≠ some (a / pagingPagesz)) →
    k'.mram.storage a = k.mram.storage a

variable {others : ι → Fin 512 → Addr} {P : ι} {k k' k'' : Krnl}

theorem Grows.refl (others : ι → Fin 512 → Addr) (P : ι) (k : Krnl) : Grows others P k k where
  maxsz := rfl
  taken := ⟨[], rfl, by simp⟩
  kept _ _ _ _ reached := reached
  new _ _ _ _ reached := .inl reached
  words _ _ _ _ := rfl
  bytes _ _ _ := rfl

private theorem Grows.uses (grows : Grows others P k k') {f : ℕ} (uses : (k.links others P).Uses 4 f) :
    (k'.links others P).Uses 4 f := by
  obtain ⟨r, path, short, reached⟩ := uses
  exact ⟨r, path, short, grows.kept r path f short reached⟩

theorem Grows.mem_free (grows : Grows others P k k') {f : ℕ} (free : f ∈ k'.mram.freeFpList) :
    f ∈ k.mram.freeFpList := by
  obtain ⟨taken, split, -⟩ := grows.taken
  rw [split]
  exact List.mem_append_right _ free

theorem Grows.trans (first : Grows others P k k') (second : Grows others P k' k'') :
    Grows others P k k'' where
  maxsz := second.maxsz.trans first.maxsz
  taken := by
    obtain ⟨taken, split, used⟩ := first.taken
    obtain ⟨taken', split', used'⟩ := second.taken
    refine ⟨taken ++ taken', by rw [split, split', List.append_assoc], ?_⟩
    intro f member
    rcases List.mem_append.mp member with early | late
    · exact second.uses (used f early)
    · exact used' f late
  kept r path f short reached := second.kept r path f short (first.kept r path f short reached)
  new r path f short reached := by
    rcases second.new r path f short reached with early | ⟨root, free⟩
    · exact first.new r path f short early
    · exact .inr ⟨root, first.mem_free free⟩
  words r path j length := (second.words r path j length).trans (first.words r path j length)
  bytes a free table := by
    have kept := first.bytes a free table
    rw [← kept]
    refine second.bytes a (fun member => free (first.mem_free member)) ?_
    intro i path short reached
    rcases first.new (P, i) path _ short reached with early | ⟨-, member⟩
    · exact table i path short early
    · exact free member

end SimpleOS.Model
