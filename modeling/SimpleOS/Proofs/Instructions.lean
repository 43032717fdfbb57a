import SimpleOS.Proofs.Ownership
import SimpleOS.Proofs.SystemCalls

/-! # Instructions as library calls and system calls

Four of the instructions are a library call of the process, `SYSCALL` is a system call and `CALC` is
neither. `Machine.execute_cases` says once what a completed instruction leaves; what holds of every
instruction is derived from it.
-/

namespace SimpleOS.Model

variable {ι : Type} [DecidableEq ι] {m m' : Machine ι} {env : Env} {P : ι} {ins : Inst}
  {runningList : List ι} {status : Int}

/-- The library call of an instruction. -/
def Inst.call (ins : Inst) : Option Call :=
  match ins.opcode with
  | .alloc => some (.alloc ins.arg0 (ins.arg1.setWidth 32))
  | .free => some (.free (ins.arg0.setWidth 32))
  | .read => some (.read (ins.arg0.setWidth 32) ins.arg1)
  | .write => some (.write (ins.arg0.setWidth 8) (ins.arg1.setWidth 32) ins.arg2)
  | _ => none

theorem Machine.putResult_ok {result : Except Fault (Task × Int)}
    (completed : m.putResult P result = .ok (m', status)) :
    ∃ t, result = .ok (t, status) ∧ m' = m.put P t := by
  cases result with
  | error fault => cases completed
  | ok answer =>
    cases completed
    exact ⟨_, rfl, rfl⟩

/-- What the library call of an instruction leaves to be stored back; `libfree` may not reach its
kernel routine. -/
def Call.Stored (driver : Driver) (call : Call) (k k' : Krnl) : Prop :=
  k' = call.kernel driver k ∨ (∃ reg, call = .free reg) ∧ k' = k

/-- A completed instruction: nothing, a library call of the process, or a system call. -/
theorem Machine.execute_cases (completed : m.execute env runningList P ins = .ok (m', status)) :
    (ins.opcode = .calc ∧ m' = m) ∨
    (∃ call t, ins.call = some call ∧ m' = m.put P t ∧ call.Stored env.driver (m.task P).krnl t.krnl) ∨
    (ins.opcode = .syscall ∧
      Machine.Served env m runningList P (ins.arg0.setWidth 32) ins.arg1 ins.arg2 ins.arg3 m') := by
  obtain ⟨opcode, arg0, arg1, arg2, arg3⟩ := ins
  cases opcode with
  | «calc» =>
    cases completed
    exact .inl ⟨rfl, rfl⟩
  | alloc =>
    obtain ⟨t, allocated, rfl⟩ := Machine.putResult_ok completed
    have performed : Call.perform env.driver (m.task P) (.alloc arg0 (arg1.setWidth 32)) =
        .ok (t, ⟨status, none⟩) := by
      simp only [Call.perform, allocated]
      rfl
    exact .inr (.inl ⟨_, t, rfl, rfl, Call.perform_krnl performed⟩)
  | free =>
    obtain ⟨t, freed, rfl⟩ := Machine.putResult_ok completed
    have performed : Call.perform env.driver (m.task P) (.free (arg0.setWidth 32)) =
        .ok (t, ⟨status, none⟩) := by
      simp only [Call.perform, freed]
      rfl
    exact .inr (.inl ⟨_, t, rfl, rfl, Call.perform_krnl performed⟩)
  | read =>
    have routine : (libread env.driver (m.task P) (arg0.setWidth 32) arg1).1.krnl =
        Call.kernel env.driver (m.task P).krnl (.read (arg0.setWidth 32) arg1) := rfl
    simp only [Machine.execute] at completed
    generalize libread env.driver (m.task P) (arg0.setWidth 32) arg1 = answer at routine completed
    obtain ⟨t, _ | value⟩ := answer
    · cases completed
      exact .inr (.inl ⟨_, t, rfl, rfl, .inl routine⟩)
    · -- the register is outside what the kernel routine sees
      cases index : regIndex arg2.toNat with
      | error fault =>
        simp only [index] at completed
        cases completed
      | ok reg =>
        simp only [index] at completed
        cases completed
        exact .inr (.inl ⟨_, _, rfl, rfl, .inl routine⟩)
  | write =>
    cases completed
    exact .inr (.inl ⟨_, _, rfl, rfl, .inl rfl⟩)
  | syscall => exact .inr (.inr ⟨rfl, Machine.libsyscall_served completed⟩)

/-- An instruction whose register index is below 10, or whose request is refused before the register is
written: ALLOC of an unknown or taken symbol, READ that delivers nothing. -/
def Krnl.RegSafe (driver : Driver) (k : Krnl) (ins : Inst) : Prop :=
  match ins.opcode with
  | .alloc => (ins.arg1.setWidth 32).toNat < 10 ∨
      ∀ slot, symIndex (ins.arg1.setWidth 32) = some slot → (k.mm.symrgtbl slot).Live
  | .free => (ins.arg0.setWidth 32).toNat < 10
  | .read => ins.arg2.toNat < 10 ∨ (Libmem.read driver k 0 (ins.arg0.setWidth 32) ins.arg1).2 = none
  | _ => True

/-- The instruction is a system call that asks for a raw access to RAM. -/
def Machine.RawRequest (m : Machine ι) (runningList : List ι) (P : ι) (ins : Inst) : Prop :=
  ins.opcode = .syscall ∧ m.RawIo runningList P (ins.arg0.setWidth 32) ins.arg1

theorem regIndex_ok_iff (index : ℕ) : (∃ reg, regIndex index = .ok reg) ↔ index < 10 := by
  rw [regIndex]
  split
  · rename_i bound
    exact ⟨fun _ => bound, fun _ => ⟨_, rfl⟩⟩
  · rename_i beyond
    refine ⟨?_, fun bound => absurd bound beyond⟩
    rintro ⟨reg, ⟨⟩⟩

private theorem regIndex_error {index : ℕ} {fault : Fault} (failed : regIndex index = .error fault) :
    fault = .regs index := by
  rw [regIndex] at failed
  split at failed <;> cases failed
  rfl

private theorem liballoc_ok_iff (t : Task) (size : Addr) (reg : BitVec 32) :
    (∃ result, liballoc t size reg = .ok result) ↔
      reg.toNat < 10 ∨ ∀ slot, symIndex reg = some slot → (t.proc.mm.symrgtbl slot).Live := by
  rw [liballoc]
  obtain ⟨refused, live⟩ | ⟨slot, index, free, placed⟩ := Libmem.alloc_cases t.krnl reg size
  · rw [refused]
    exact ⟨fun _ => .inr live, fun _ => ⟨_, rfl⟩⟩
  · rw [placed]
    have open_slot : ¬∀ slot, symIndex reg = some slot → (t.proc.mm.symrgtbl slot).Live :=
      fun live => free (live slot index)
    simp only [open_slot, or_false, ← regIndex_ok_iff]
    cases regIndex reg.toNat with
    | error fault => constructor <;> rintro ⟨_, ⟨⟩⟩
    | ok reg => exact ⟨fun _ => ⟨reg, rfl⟩, fun _ => ⟨_, rfl⟩⟩

private theorem liballoc_error {t : Task} {size : Addr} {reg : BitVec 32} {fault : Fault}
    (failed : liballoc t size reg = .error fault) : fault = .regs reg.toNat := by
  rw [liballoc] at failed
  obtain ⟨refused, -⟩ | ⟨slot, -, -, placed⟩ := Libmem.alloc_cases t.krnl reg size
  · rw [refused] at failed
    cases failed
  · rw [placed] at failed
    cases index : regIndex reg.toNat with
    | error fault' =>
      rw [index] at failed
      cases failed
      exact regIndex_error index
    | ok slot' =>
      rw [index] at failed
      cases failed

private theorem libfree_ok_iff (t : Task) (reg : BitVec 32) :
    (∃ result, libfree t reg = .ok result) ↔ reg.toNat < 10 := by
  rw [← regIndex_ok_iff, libfree]
  cases regIndex reg.toNat with
  | error fault => constructor <;> rintro ⟨_, ⟨⟩⟩
  | ok slot =>
    refine ⟨fun _ => ⟨slot, rfl⟩, fun _ => ?_⟩
    change ∃ result, (if t.proc.regs slot = 0 then _ else _) = _
    split
    · exact ⟨_, rfl⟩
    · exact ⟨_, rfl⟩

private theorem libfree_error {t : Task} {reg : BitVec 32} {fault : Fault} (failed : libfree t reg = .error fault) :
    fault = .regs reg.toNat := by
  rw [libfree] at failed
  cases index : regIndex reg.toNat with
  | error fault' =>
    rw [index] at failed
    cases failed
    exact regIndex_error index
  | ok slot =>
    rw [index] at failed
    change (if t.proc.regs slot = 0 then _ else _) = _ at failed
    split at failed <;> cases failed

private theorem Machine.putResult_ok_iff (m : Machine ι) (P : ι) (result : Except Fault (Task × Int)) :
    (∃ after, m.putResult P result = .ok after) ↔ ∃ answer, result = .ok answer := by
  cases result with
  | error fault => constructor <;> rintro ⟨_, ⟨⟩⟩
  | ok answer => exact ⟨fun _ => ⟨answer, rfl⟩, fun _ => ⟨_, rfl⟩⟩

private theorem Machine.putResult_error {result : Except Fault (Task × Int)} {fault : Fault}
    (failed : m.putResult P result = .error fault) : result = .error fault := by
  cases result with
  | error fault' =>
    cases failed
    rfl
  | ok answer => cases failed

/-- An instruction completes exactly when it keeps to the register file and asks for no raw access. -/
theorem Machine.execute_ok_iff (m : Machine ι) (ins : Inst) :
    (∃ after, m.execute env runningList P ins = .ok after) ↔
      (m.task P).krnl.RegSafe env.driver ins ∧ ¬m.RawRequest runningList P ins := by
  obtain ⟨opcode, arg0, arg1, arg2, arg3⟩ := ins
  have calls (other : opcode ≠ .syscall) : ¬m.RawRequest runningList P ⟨opcode, arg0, arg1, arg2, arg3⟩ :=
    fun request => other request.1
  cases opcode with
  | «calc» => exact ⟨fun _ => ⟨trivial, calls (by decide)⟩, fun _ => ⟨_, rfl⟩⟩
  | alloc =>
    rw [and_iff_left (calls (by decide))]
    exact (m.putResult_ok_iff P _).trans (liballoc_ok_iff ..)
  | free =>
    rw [and_iff_left (calls (by decide))]
    exact (m.putResult_ok_iff P _).trans (libfree_ok_iff ..)
  | read =>
    have data : (libread env.driver (m.task P) (arg0.setWidth 32) arg1).2 =
        (Libmem.read env.driver (m.task P).krnl 0 (arg0.setWidth 32) arg1).2.map fun byte =>
          byte.signExtend 32 := rfl
    rw [and_iff_left (calls (by decide))]
    simp only [Machine.execute, Krnl.RegSafe]
    generalize libread env.driver (m.task P) (arg0.setWidth 32) arg1 = answer at data
    obtain ⟨t, _ | value⟩ := answer
    · have nothing := Option.map_eq_none_iff.mp data.symm
      exact ⟨fun _ => .inr nothing, fun _ => ⟨_, rfl⟩⟩
    · have delivered : (Libmem.read env.driver (m.task P).krnl 0 (arg0.setWidth 32) arg1).2 ≠ none := by
        intro nothing
        rw [nothing] at data
        cases data
      simp only [delivered, or_false, ← regIndex_ok_iff]
      cases regIndex arg2.toNat with
      | error fault => constructor <;> rintro ⟨_, ⟨⟩⟩
      | ok reg => exact ⟨fun _ => ⟨reg, rfl⟩, fun _ => ⟨_, rfl⟩⟩
  | write => exact ⟨fun _ => ⟨trivial, calls (by decide)⟩, fun _ => ⟨_, rfl⟩⟩
  | syscall =>
    have raw : m.RawRequest runningList P ⟨.syscall, arg0, arg1, arg2, arg3⟩ ↔
        m.RawIo runningList P (arg0.setWidth 32) arg1 := and_iff_right rfl
    rw [raw]
    exact Machine.libsyscall_ok_iff.trans (and_iff_right trivial).symm

/-- An instruction that does not complete leaves the register file or asks for a raw access. -/
private theorem Machine.execute_error {fault : Fault} (failed : m.execute env runningList P ins = .error fault) :
    (∃ index, fault = .regs index) ∧ ins.opcode ≠ .syscall ∨ fault = .krnl ∧ m.RawRequest runningList P ins := by
  obtain ⟨opcode, arg0, arg1, arg2, arg3⟩ := ins
  cases opcode with
  | «calc» => cases failed
  | alloc => exact .inl ⟨⟨_, liballoc_error (Machine.putResult_error failed)⟩, by rintro ⟨⟩⟩
  | free => exact .inl ⟨⟨_, libfree_error (Machine.putResult_error failed)⟩, by rintro ⟨⟩⟩
  | read =>
    simp only [Machine.execute] at failed
    generalize libread env.driver (m.task P) (arg0.setWidth 32) arg1 = answer at failed
    obtain ⟨t, _ | value⟩ := answer
    · cases failed
    · cases index : regIndex arg2.toNat with
      | error fault' =>
        simp only [index] at failed
        cases failed
        exact .inl ⟨⟨_, regIndex_error index⟩, by rintro ⟨⟩⟩
      | ok reg =>
        simp only [index] at failed
        cases failed
  | write => cases failed
  | syscall =>
    obtain ⟨krnl, raw⟩ := (Machine.libsyscall_error_iff fault).mp failed
    exact .inr ⟨krnl, rfl, raw⟩

/-- An instruction leaves the register file exactly when it is not safe. -/
theorem Machine.execute_regs_iff (m : Machine ι) (ins : Inst) :
    (∃ index, m.execute env runningList P ins = .error (.regs index)) ↔ ¬(m.task P).krnl.RegSafe env.driver ins := by
  have completes : (∃ after, m.execute env runningList P ins = .ok after) ↔ _ := m.execute_ok_iff ins
  constructor
  · rintro ⟨index, failed⟩ safe
    obtain ⟨-, other⟩ | ⟨⟨⟩, -⟩ := Machine.execute_error failed
    obtain ⟨after, answer⟩ := completes.mpr ⟨safe, fun raw => other raw.1⟩
    rw [failed] at answer
    cases answer
  · intro outside
    cases answer : m.execute env runningList P ins with
    | ok after => exact absurd (completes.mp ⟨after, answer⟩).1 outside
    | error fault =>
      obtain ⟨⟨index, rfl⟩, -⟩ | ⟨-, opcode, -⟩ := Machine.execute_error answer
      · exact ⟨index, rfl⟩
      · refine absurd ?_ outside
        rw [Krnl.RegSafe, opcode]
        trivial

/-- `run` does nothing without an instruction left, and otherwise executes one. -/
theorem Machine.run_cases (completed : m.run env runningList P = .ok (m', status)) :
    (m.procs P).text[(m.procs P).pc]? = none ∧ m' = m ∨
    ∃ ins, (m.procs P).text[(m.procs P).pc]? = some ins ∧
      (m.advance P).execute env runningList P ins = .ok (m', status) := by
  rw [Machine.run] at completed
  cases next : (m.procs P).text[(m.procs P).pc]? with
  | none =>
    rw [next] at completed
    cases completed
    exact .inl ⟨rfl, rfl⟩
  | some ins =>
    rw [next] at completed
    exact .inr ⟨ins, rfl, completed⟩

theorem Machine.advance_mm (m : Machine ι) (P Q : ι) : ((m.advance P).procs Q).mm = (m.procs Q).mm := by
  simp only [Machine.advance, Function.update_apply]
  split
  · rename_i here
    rw [here]
  · rfl

theorem Machine.advance_pid (m : Machine ι) (P Q : ι) : ((m.advance P).procs Q).pid = (m.procs Q).pid := by
  simp only [Machine.advance, Function.update_apply]
  split
  · rename_i here
    rw [here]
  · rfl

theorem Machine.advance_krnl (m : Machine ι) (P Q : ι) : ((m.advance P).task Q).krnl = (m.task Q).krnl :=
  congrArg (fun mm => Krnl.mk mm m.mram) (m.advance_mm P Q)

theorem Machine.advance_links (m : Machine ι) (P : ι) : (m.advance P).links = m.links := by
  have roots : (m.advance P).roots = m.roots := by
    funext Q
    exact congrArg MmStruct.pgd (m.advance_mm P Q)
  rw [Machine.links, Machine.links, roots]
  rfl

theorem Machine.advance_findPid (m : Machine ι) (P : ι) (runningList : List ι) (pid : BitVec 32) :
    (m.advance P).findPid runningList pid = m.findPid runningList pid := by
  simp only [Machine.findPid, m.advance_pid]

theorem Machine.advance_rawRequest (m : Machine ι) (P : ι) (runningList : List ι) (ins : Inst) :
    (m.advance P).RawRequest runningList P ins ↔ m.RawRequest runningList P ins := by
  rw [Machine.RawRequest, Machine.RawIo, m.advance_findPid, m.advance_pid]
  rfl

theorem Machine.Owned.advance {n : ℕ} (owned : m.Owned n) (P : ι) : (m.advance P).Owned n := by
  rw [Machine.Owned, m.advance_links]
  exact owned

end SimpleOS.Model
