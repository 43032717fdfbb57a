import SimpleOS.Proofs.FirstPage
import SimpleOS.Proofs.Instructions

/-! # Isolation of processes over the instruction set

Every instruction of a process leaves the translations and the memory of the others alone, except
the request `SYSMEM_MAP_OP` of system call 17, which maps frames that it never took from the free list.
In a run without it, and without the requests for a raw access to RAM, ownership holds throughout and
isolation follows from it instruction by instruction.
-/

namespace SimpleOS.Model

open Lib

variable {ι : Type} [DecidableEq ι] {m m' : Machine ι} {n : ℕ} {env : Env} {P : ι} {ins : Inst}
  {runningList : List ι}

/-- The frame holds a table or a page of process `B`. -/
def Machine.Uses (m : Machine ι) (B : ι) (f : ℕ) : Prop :=
  ∃ pgd path, path.length < 5 ∧ m.links.frameAt (B, pgd) path = some f

/-- The registers an instruction names lie inside `proc->regs`. -/
def Inst.InRegs (ins : Inst) : Prop :=
  match ins.opcode with
  | .alloc => (ins.arg1.setWidth 32).toNat < 10
  | .free => (ins.arg0.setWidth 32).toNat < 10
  | .read => ins.arg2.toNat < 10
  | _ => True

/-- An instruction that completes on every machine: it names registers inside `proc->regs`, and asks for no raw access
to RAM. -/
structure Inst.Regular (ins : Inst) : Prop where
  inRegs : ins.InRegs
  noRawIo : ins.opcode = .syscall → (ins.arg0.setWidth 32).toNat = 17 →
    (ins.arg1.setWidth 32).toNat ≠ sysmemIoRead ∧ (ins.arg1.setWidth 32).toNat ≠ sysmemIoWrite

/-- A request of `__sys_memmap` that maps no pages from the fixed pattern and asks for no raw access to RAM. -/
structure ConfinedRequest (memop a3 : Addr) : Prop where
  map : (memop.setWidth 32).toNat = sysmemMapOp → (a3.setWidth 32).toInt ≤ 0
  read : (memop.setWidth 32).toNat ≠ sysmemIoRead
  write : (memop.setWidth 32).toNat ≠ sysmemIoWrite

/-- The next instruction of the process is confined to the registers and to its own memory. -/
def Machine.Confined (m : Machine ι) (label : ι × List ι) : Prop :=
  ∀ ins, (m.procs label.1).text[(m.procs label.1).pc]? = some ins → ins.InRegs ∧
    (ins.opcode = .syscall → (ins.arg0.setWidth 32).toNat = 17 →
      (m.findPid label.2 (m.procs label.1).pid).isSome →
      ConfinedRequest ins.arg1 ins.arg3)

/-- All frames and bytes of the processes other than `P` are as before. -/
structure Machine.Isolates (m : Machine ι) (P : ι) (m' : Machine ι) : Prop where
  frames : ∀ r path, r.1 ≠ P → path.length < 5 → m'.links.frameAt r path = m.links.frameAt r path
  bytes : ∀ r path a, r.1 ≠ P → path.length < 5 →
    m.links.frameAt r path = some (a / pagingPagesz) → m'.mram.storage a = m.mram.storage a

private theorem Machine.Isolates.of_spares {k : Krnl} (leaves : m.Leaves P k m')
    (spares : Spares m.roots P (m.task P).krnl k) : m.Isolates P m' := by
  refine ⟨fun r path other short => ?_, fun r path a other short reached => ?_⟩
  · rw [leaves.links, spares.foreign r path other short, m.links_task]
  · rw [leaves.mram]
    exact spares.bytes r path a other short (by rw [m.links_task, reached])

/-- Ownership after an instruction, and the memory of the others as before. -/
def Machine.Keeps (n : ℕ) (m : Machine ι) (P : ι) (m' : Machine ι) : Prop := m'.Owned n ∧ m.Isolates P m'

omit [DecidableEq ι] in
private theorem Machine.Keeps.of_same (owned : m.Owned n) (roots : m'.roots = m.roots)
    (mram : m'.mram = m.mram) : m.Keeps n P m' := by
  have links : m'.links = m.links := by rw [Machine.links, Machine.links, roots, mram]
  refine ⟨by rw [Machine.Owned, links, mram]; exact owned, ?_, ?_⟩
  · intro r path _ _
    rw [links]
  · intro r path a _ _ _
    rw [mram]

/-- A library call keeps ownership and the memory of the others. -/
theorem Machine.Keeps.of_call (owned : m.Owned n) {call : Call} {k : Krnl} {driver : Driver}
    (leaves : m.Leaves P k m')
    (stored : call.Stored driver (m.task P).krnl k) : m.Keeps n P m' := by
  rcases stored with rfl | ⟨-, rfl⟩
  · refine ⟨?_, .of_spares leaves (Call.kernel_spares (owned.krnl P) call)⟩
    rw [Machine.Owned, leaves.links, leaves.mram]
    exact Call.kernel_owned (owned.krnl P) call
  · refine ⟨?_, .of_spares leaves (Paged.refl _ _ _).spares⟩
    rw [Machine.Owned, leaves.links, leaves.mram]
    exact owned.krnl P

/-- Growing the area of any process moves no frame and no byte. -/
private theorem Machine.Keeps.of_inc (owned : m.Owned n) (Q : ι) (a2 a3 : Addr) :
    m.Keeps n P (m.put Q ((m.task Q).setKrnl (sysmemInc (m.task Q).krnl a2 a3).1)) := by
  obtain ⟨pgd, mram⟩ := sysmemInc_memory (m.task Q).krnl a2 a3
  refine .of_same owned ?_ mram
  funext R
  by_cases here : R = Q
  · subst here
    simp only [Machine.roots, Machine.put, Function.update_self]
    exact pgd
  · simp only [Machine.roots, Machine.put, Function.update_of_ne here]

/-- A count of zero or less maps nothing. -/
private theorem Machine.sysmemMap_nothing {a3 : Addr} (count : (a3.setWidth 32).toInt ≤ 0) (k : Krnl) (a2 : Addr) :
    Machine.sysmemMap k a2 a3 = k := by
  rw [Machine.sysmemMap, vmapPgdMemset, Int.toNat_of_nonpos count]
  rfl

private theorem Machine.Keeps.of_served (owned : m.Owned n) {nr : BitVec 32} {a1 a2 a3 : Addr}
    (confined : nr.toNat = 17 → (m.findPid runningList (m.procs P).pid).isSome → ConfinedRequest a1 a3)
    (served : Machine.Served env m runningList P nr a1 a2 a3 m') : m.Keeps n P m' := by
  cases served with
  | nothing => exact .of_same owned rfl rfl
  | mapped memmap found request =>
    rename_i caller
    have count := (confined memmap (by rw [found]; rfl)).map request
    refine .of_same owned ?_ (congrArg Krnl.mram (Machine.sysmemMap_nothing count (m.task caller).krnl a2))
    rw [Machine.sysmemMap_nothing count]
    funext Q
    by_cases here : Q = caller
    · subst here
      simp only [Machine.roots, Machine.put, Function.update_self]
      rfl
    · simp only [Machine.roots, Machine.put, Function.update_of_ne here]
  | grown memmap found request => exact .of_inc owned _ a2 a3
  | swapped memmap found request =>
    -- the swap device holds no table and no page
    refine .of_same owned ?_ Machine.mmSwapPage_mram
    funext Q
    rw [Machine.roots, Machine.mmSwapPage_procs]
    rfl

private theorem Inst.InRegs.safe (inRegs : ins.InRegs) (k : Krnl) : k.RegSafe env.driver ins := by
  obtain ⟨opcode, arg0, arg1, arg2, arg3⟩ := ins
  cases opcode with
  | «calc» => trivial
  | alloc => exact .inl inRegs
  | free => exact inRegs
  | read => exact .inl inRegs
  | write => trivial
  | syscall => trivial

/-- An instruction that names registers below 10 and asks for no raw access completes. -/
private theorem Machine.execute_completes (env : Env) (inRegs : ins.InRegs)
    (regular : ¬m.RawRequest runningList P ins) : ∃ after, m.execute env runningList P ins = .ok after :=
  (m.execute_ok_iff ins).mpr ⟨inRegs.safe _, regular⟩

theorem Inst.Regular.completes (env : Env) (runningList : List ι) (m : Machine ι) (P : ι) (regular : ins.Regular) :
    ∃ after, m.execute env runningList P ins = .ok after := by
  apply Machine.execute_completes env regular.inRegs
  rintro ⟨opcode, memmap, -, raw⟩
  obtain ⟨read, write⟩ := regular.noRawIo opcode memmap
  exact raw.elim read write

omit [DecidableEq ι] in
/-- A confined instruction asks for no raw access. -/
private theorem Machine.Confined.regular {label : ι × List ι} (confined : m.Confined label)
    (next : (m.procs label.1).text[(m.procs label.1).pc]? = some ins) : ¬m.RawRequest label.2 label.1 ins := by
  rintro ⟨opcode, memmap, found, raw⟩
  have request := (confined ins next).2 opcode memmap found
  rcases raw with read | write
  · exact request.read read
  · exact request.write write

/-- A completed instruction: its library call, or its system call. -/
private theorem Machine.execute_keeps {status : Int} (owned : m.Owned n)
    (confined : ins.opcode = .syscall → (ins.arg0.setWidth 32).toNat = 17 →
      (m.findPid runningList (m.procs P).pid).isSome → ConfinedRequest ins.arg1 ins.arg3)
    (completed : m.execute env runningList P ins = .ok (m', status)) : m.Keeps n P m' := by
  obtain ⟨-, rfl⟩ | ⟨call, t, -, rfl, stored⟩ | ⟨opcode, served⟩ := Machine.execute_cases completed
  · exact .of_same owned rfl rfl
  · exact .of_call owned (m.leaves_put P) stored
  · exact .of_served owned (confined opcode) served

/-- A confined instruction completes, keeps ownership and the memory of the others. -/
private theorem Machine.run_keeps (env : Env) (owned : m.Owned n) (confined : m.Confined (P, runningList)) :
    ∃ m' status, m.run env runningList P = .ok (m', status) ∧ m.Keeps n P m' := by
  rw [Machine.run]
  cases next : (m.procs P).text[(m.procs P).pc]? with
  | none => exact ⟨m, 1, rfl, .of_same owned rfl rfl⟩
  | some ins =>
    obtain ⟨inRegs, request⟩ := confined ins next
    have regular : ¬(m.advance P).RawRequest runningList P ins := by
      rw [m.advance_rawRequest]
      exact confined.regular next
    obtain ⟨⟨m', status⟩, completed⟩ := Machine.execute_completes env inRegs regular
    have found : (m.advance P).findPid runningList ((m.advance P).procs P).pid =
        m.findPid runningList (m.procs P).pid := by
      rw [m.advance_findPid, m.advance_pid]
    obtain ⟨keeps, isolates⟩ :=
      Machine.execute_keeps (owned.advance P) (fun opcode number present => request opcode number (found ▸ present))
        completed
    refine ⟨m', status, completed, keeps, ?_, ?_⟩
    · intro r path other short
      rw [isolates.frames r path other short, m.advance_links]
    · intro r path a other short reached
      exact isolates.bytes r path a other short (by rw [m.advance_links]; exact reached)

/-- Ownership before and after gives the same translations for the others. -/
private theorem Machine.Keeps.translation (owned : m.Owned n) (keeps : m.Keeps n P m') {B : ι} (other : B ≠ P)
    (p : Addr) : pteGetEntry (m'.task B).krnl p = pteGetEntry (m.task B).krnl p := by
  obtain ⟨owned', isolates⟩ := keeps
  rw [owned'.entry, owned.entry]
  have short : (pdOf p).tablePath.length < 5 := by simp [Pd.tablePath]
  rw [wordAt, wordAt]
  have same := isolates.frames (pageRoot B p) (pdOf p).tablePath other short
  rw [Machine.links, Machine.links] at same
  rw [same]
  cases reached : (tableLinks m.roots m.mram).frameAt (pageRoot B p) (pdOf p).tablePath with
  | none => rfl
  | some f =>
    refine congrArg (BitVec.setWidth 32) (Memphy.entry_congr fun a inside => ?_)
    exact isolates.bytes (pageRoot B p) (pdOf p).tablePath a other short (by rw [inside]; exact reached)

/-- In every run of confined instructions each further confined instruction completes, and neither
the translations of another process nor a byte in its tables and pages change. -/
theorem run_isolates {labels : List (ι × List ι)} {now : Machine ι} (initial : m.Initial n)
    (small : n ≤ 8192) (reached : Run (guarded Machine.Confined (Machine.Exec env)) m labels now) {A : ι}
    (confined : now.Confined (A, runningList)) :
    ∃ after status, now.run env runningList A = .ok (after, status) ∧ ∀ B, B ≠ A →
      (∀ p, pteGetEntry (after.task B).krnl p = pteGetEntry (now.task B).krnl p) ∧
      ∀ a, now.Uses B (a / pagingPagesz) → after.mram.storage a = now.mram.storage a := by
  have owned : now.Owned n := by
    refine reached.keeps (initial.owned small) ?_
    rintro before ⟨P, list⟩ after owned ⟨inside, status, completed⟩
    obtain ⟨m', status', completed', keeps⟩ := Machine.run_keeps env owned inside
    rw [completed] at completed'
    cases completed'
    exact keeps.1
  obtain ⟨after, status, completed, keeps⟩ := Machine.run_keeps env owned confined
  refine ⟨after, status, completed, fun B other => ⟨keeps.translation owned other, ?_⟩⟩
  rintro a ⟨pgd, path, short, used⟩
  exact keeps.2.bytes (B, pgd) path a other short used

theorem Machine.run_write (env : Env) (runningList : List ι) {arg0 arg1 arg2 arg3 : Addr}
    (next : (m.procs P).text[(m.procs P).pc]? = some ⟨.write, arg0, arg1, arg2, arg3⟩) :
    let t := (m.advance P).task P
    let result := Libmem.write env.driver t.krnl 0 (arg1.setWidth 32) arg2 (arg0.setWidth 8)
    m.run env runningList P = .ok ((m.advance P).put P (t.setKrnl result.1), result.2) := by
  intro t result
  rw [Machine.run, next]
  rfl

theorem Machine.exec_write (env : Env) (runningList : List ι) {arg0 arg1 arg2 arg3 : Addr} {result : Krnl × Int}
    (next : (m.procs P).text[(m.procs P).pc]? = some ⟨.write, arg0, arg1, arg2, arg3⟩)
    (written :
      Libmem.write env.driver ((m.advance P).task P).krnl 0 (arg1.setWidth 32) arg2 (arg0.setWidth 8) = result) :
    Machine.Exec env m (P, runningList) ((m.advance P).put P (((m.advance P).task P).setKrnl result.1)) := by
  subst written
  exact ⟨_, Machine.run_write env runningList next⟩

/-- Process `false` has one page; process `true` writes through a page of its own. -/
theorem run_isolates_writes :
    let env : Env := ⟨.head, fun _ => 0⟩
    let m := Machine.boot 16 (fun P : Bool => if P then 1 else 2) fun _ => [⟨.write, 7, 3, 0, 0⟩]
    let m₁ := m.advance false
    let result := Libmem.write .head (m₁.task false).krnl 0 ((3 : Addr).setWidth 32) 0 ((7 : Addr).setWidth 8)
    let now := m₁.put false ((m₁.task false).setKrnl result.1)
    Machine.Exec env m (false, [false, true]) now ∧ now.Uses false 0 ∧ ∃ after status,
      now.run env [false, true] true = .ok (after, status) ∧ after.mram.storage 0 = now.mram.storage 0 := by
  intro env m m₁ result now
  have confined : m.Confined (false, [false, true]) := by
    rintro ins ⟨⟩
    exact ⟨trivial, by rintro ⟨⟩⟩
  have first : Machine.Exec env m (false, [false, true]) now := Machine.exec_write env [false, true] rfl rfl
  have second : now.Confined (true, [false, true]) := by
    rintro ins ⟨⟩
    exact ⟨trivial, by rintro ⟨⟩⟩
  have opened : (Libmem.target (m₁.task false).krnl 0 ((3 : Addr).setWidth 32) 0).2 = some 4096 := by decide
  have written : result = _ := Libmem.write_fresh (n := 16) ⟨fun _ => rfl, rfl⟩ (by decide) .head _ opened
  have used : now.Uses false 0 := by
    refine ⟨0, [1, 0, 0, 0], by decide, ?_⟩
    simp only [now, written]
    decide +kernel
  have initial : m.Initial 16 := Machine.boot_initial 16 _ _
  obtain ⟨after, status, completed, isolated⟩ :=
    run_isolates initial (by decide) (.one ⟨confined, first⟩) second
  exact ⟨first, used, after, status, completed, (isolated false (by decide)).2 0 used⟩

end SimpleOS.Model
