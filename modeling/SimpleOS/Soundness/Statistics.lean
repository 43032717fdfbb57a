import SimpleOS.Soundness.Isolation
import SimpleOS.Soundness.Release

/-! # Memory statistics

`__sys_mmstats` takes the entries of the top-level directory for the pages of a process. Its counter runs to 1024,
twice the length of the array, and every page below `PAGING_MAX_PGN` lies under the first entry.
-/

namespace SimpleOS.Model

open Lib

variable {ι : Type} [DecidableEq ι] {m : Machine ι} {runningList : List ι} {regs : ScRegs} {target : ι}

/-- The page is present and not swapped. -/
def Krnl.InRam (k : Krnl) (pgn : Addr) : Prop :=
  pagingPtePresent (pteGetEntry k pgn) = true ∧ pagingPteSwapped (pteGetEntry k pgn) = false

instance (k : Krnl) (pgn : Addr) : Decidable (k.InRam pgn) := inferInstanceAs (Decidable (_ ∧ _))

/-- The pages below `PAGING_MAX_PGN` that are in RAM. -/
def Krnl.pagesInRam (k : Krnl) : Finset ℕ :=
  (Finset.range pagingMaxPgn).filter fun pgn => k.InRam (BitVec.ofNat 64 pgn)

/-- What a report on a process promises: the number of its pages in RAM, gathered inside the directories. -/
structure Machine.StatsRight (m : Machine ι) (runningList : List ι) (regs : ScRegs) (target : ι) : Prop where
  count : m.sysMmstats runningList regs = (m.task target).krnl.pagesInRam.card
  inside : ∀ read ∈ m.sysMmstatsReads runningList regs, read.2 < read.1.entries

omit [DecidableEq ι] in
/-- The reads outside a directory are those of `mm->pgd` from index 512 on. -/
private theorem Machine.sysMmstatsReads_outside (found : m.findPid runningList (regs.a1.setWidth 32) = some target)
    (dir : Machine.Directory) (i : ℕ) :
    (dir, i) ∈ m.sysMmstatsReads runningList regs ∧ dir.entries ≤ i ↔ dir = .pgd ∧ 512 ≤ i ∧ i < 1024 := by
  simp only [sysMmstatsReads, found, List.mem_append, List.mem_map, List.mem_range, Prod.mk.injEq,
    exists_eq_right_right]
  cases dir with
  | pgd =>
    simp [Machine.Directory.entries]
    omega
  | p4d => simp [Machine.Directory.entries]
  | pud => simp [Machine.Directory.entries]
  | pmd => simp [Machine.Directory.entries]

omit [DecidableEq ι] in
/-- With one entry used and zeros behind it, the number returned is 1, however many pages the entry holds. -/
private theorem Machine.sysMmstats_single (found : m.findPid runningList (regs.a1.setWidth 32) = some target)
    (used : Machine.pgdEntry (m.procs target).mm 0 ≠ 0)
    (zeros : ∀ i, 0 < i → i < 1024 → Machine.pgdEntry (m.procs target).mm i = 0) :
    m.sysMmstats runningList regs = 1 := by
  simp only [sysMmstats, found]
  have tail : ((List.range 1023).map Nat.succ).countP
      (fun i => decide (Machine.pgdEntry (m.procs target).mm i ≠ 0)) = 0 := by
    rw [List.countP_eq_zero]
    intro i member
    obtain ⟨j, below, rfl⟩ := List.mem_map.mp member
    have bound := List.mem_range.mp below
    simp [zeros (j + 1) (by omega) (by omega)]
  rw [List.range_succ_eq_map, List.countP_cons, tail, if_pos (decide_eq_true used)]
  rfl

omit [DecidableEq ι] in
/-- No report on a process keeps the promise: the loop over `mm->pgd` always leaves the array. Where only the first
entry is used and zeros lie behind it, also the number is right for a single page only. -/
theorem mmstats_never_right (m : Machine ι) (runningList : List ι) (regs : ScRegs) (target : ι)
    (found : m.findPid runningList (regs.a1.setWidth 32) = some target) :
    ¬m.StatsRight runningList regs target ∧
    (Machine.pgdEntry (m.procs target).mm 0 ≠ 0 →
      (∀ i, 0 < i → i < 1024 → Machine.pgdEntry (m.procs target).mm i = 0) →
      (m.sysMmstats runningList regs = (m.task target).krnl.pagesInRam.card ↔
        (m.task target).krnl.pagesInRam.card = 1)) := by
  refine ⟨?_, ?_⟩
  · intro right
    have outside := (m.sysMmstatsReads_outside found .pgd 512).mpr ⟨rfl, by omega, by omega⟩
    have inside := right.inside _ outside.1
    exact absurd inside (Nat.not_lt.mpr outside.2)
  · intro used zeros
    rw [m.sysMmstats_single found used zeros]
    omega

/-- `ALLOC 5000 1`, `WRITE 7 1 0` and `WRITE 8 1 4999`: a region that two pages hold. -/
def Inst.touchTwo : List Inst := [⟨.alloc, 5000, 1, 0, 0⟩, ⟨.write, 7, 1, 0, 0⟩, ⟨.write, 8, 1, 4999, 0⟩]

/-- A process after its instruction `WRITE data 1 offset`. -/
def Machine.afterWrite (m : Machine Unit) (data offset : Addr) : Machine Unit :=
  let t := (m.advance ()).task ()
  (m.advance ()).put () (t.setKrnl
    (Libmem.write .head t.krnl 0 ((1 : Addr).setWidth 32) offset (data.setWidth 8)).1)

private theorem Machine.exec_afterWrite {m : Machine Unit} {data offset : Addr}
    (next : (m.procs ()).text[(m.procs ()).pc]? = some ⟨.write, data, 1, offset, 0⟩) :
    Machine.Exec ⟨.head, fun _ => 0⟩ m ((), [()]) (m.afterWrite data offset) :=
  Machine.exec_write _ [()] next rfl

/-- A process after `Inst.touchTwo`. -/
def Machine.twoPages : Machine Unit :=
  let m := (Machine.boot 16 (fun _ : Unit => 1) fun _ => Inst.touchTwo).advance ()
  let reg : Fin 10 := (Fin.last 1).castAdd 8
  ((m.put () ((m.task ()).allocated reg 5000)).afterWrite 7 0).afterWrite 8 4999

private theorem Machine.run_twoPages : Run (Machine.Exec ⟨.head, fun _ => 0⟩)
    (Machine.boot 16 (fun _ : Unit => 1) fun _ => Inst.touchTwo)
    [((), [()]), ((), [()]), ((), [()])] Machine.twoPages := by
  let m := Machine.boot 16 (fun _ : Unit => 1) fun _ => Inst.touchTwo
  let m₁ := (m.advance ()).put () (((m.advance ()).task ()).allocated 1 5000)
  have first : Machine.Exec ⟨.head, fun _ => 0⟩ m ((), [()]) m₁ := by
    refine ⟨0, ?_⟩
    change (m.advance ()).execute ⟨.head, fun _ => 0⟩ [()] () (.allocReg 5000 1) = _
    apply Machine.execute_allocReg
    simp [m, Machine.advance, Machine.boot, loadProc, initMm, VmRg.Live]
  have second : Machine.Exec ⟨.head, fun _ => 0⟩ m₁ ((), [()]) (m₁.afterWrite 7 0) :=
    Machine.exec_afterWrite rfl
  have third : Machine.Exec ⟨.head, fun _ => 0⟩ (m₁.afterWrite 7 0) ((), [()]) Machine.twoPages :=
    Machine.exec_afterWrite rfl
  exact ((Run.one first).next second).next third

theorem mmstats_never_right_twoPages : ¬Machine.twoPages.StatsRight [()] ⟨1, 0, 0⟩ () :=
  (mmstats_never_right Machine.twoPages [()] ⟨1, 0, 0⟩ () rfl).1

private theorem Machine.twoPages_pages : Machine.twoPages.sysMmstats [()] ⟨1, 0, 0⟩ = 1 ∧
    (Machine.twoPages.task ()).krnl.InRam (BitVec.ofNat 64 1) ∧
    (Machine.twoPages.task ()).krnl.InRam (BitVec.ofNat 64 2) := by
  let m := (Machine.boot 16 (fun _ : Unit => 1) fun _ => Inst.touchTwo).advance ()
  let m₁ := (m.put () ((m.task ()).allocated ((Fin.last 1).castAdd 8) 5000)).advance ()
  have opened : (Libmem.target (m₁.task ()).krnl 0 ((1 : Addr).setWidth 32) 0).2 = some 4096 := by decide
  have first := Libmem.write_fresh (n := 16) ⟨fun _ => rfl, rfl⟩ (by decide) .head ((7 : Addr).setWidth 8) opened
  simp only [m₁, m] at first
  simp only [Machine.twoPages, Machine.afterWrite, first]
  decide +kernel

/-- Two pages are in RAM and zeros lie behind the array: the number returned is 1, after 512 reads outside. -/
theorem mmstats_miscounts : Run (Machine.Exec ⟨.head, fun _ => 0⟩)
      (Machine.boot 16 (fun _ : Unit => 1) fun _ => Inst.touchTwo)
      [((), [()]), ((), [()]), ((), [()])] Machine.twoPages ∧
    Machine.twoPages.findPid [()] 1 = some () ∧ Machine.twoPages.sysMmstats [()] ⟨1, 0, 0⟩ = 1 ∧
    1 < (Machine.twoPages.task ()).krnl.pagesInRam.card ∧
    (Machine.Directory.pgd, 512) ∈ Machine.twoPages.sysMmstatsReads [()] ⟨1, 0, 0⟩ ∧
    ¬Machine.twoPages.StatsRight [()] ⟨1, 0, 0⟩ () := by
  obtain ⟨count, one, two⟩ := Machine.twoPages_pages
  have several : 1 < (Machine.twoPages.task ()).krnl.pagesInRam.card := by
    have pages : ({1, 2} : Finset ℕ) ⊆ (Machine.twoPages.task ()).krnl.pagesInRam := by
      intro pgn member
      rw [Finset.mem_insert, Finset.mem_singleton] at member
      rw [Krnl.pagesInRam, Finset.mem_filter, Finset.mem_range, pagingMaxPgn_eq]
      obtain rfl | rfl := member
      · exact ⟨by omega, one⟩
      · exact ⟨by omega, two⟩
    exact Nat.lt_of_lt_of_le (by decide) (Finset.card_le_card pages)
  refine ⟨Machine.run_twoPages, rfl, count, several, ?_, ?_⟩
  · exact ((Machine.twoPages.sysMmstatsReads_outside rfl .pgd 512).mpr ⟨rfl, by omega, by omega⟩).1
  · intro right
    have equal := right.count
    rw [count] at equal
    omega

end SimpleOS.Model
