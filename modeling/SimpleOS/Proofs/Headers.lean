import SimpleOS.Proofs.SystemCalls

/-! # What no instruction changes in a PCB

The scheduler depends on an instruction only through the program counter: every library and system call
leaves the identity, the program, the priority and the program counter of all processes alone, and `run`
advances one counter by one.
-/

namespace SimpleOS.Model

variable {ι : Type} [DecidableEq ι] {m m' : Machine ι} {P : ι} {t t' : Task} {status : Int} {ins : Inst}

/-- The fields of a PCB that only loading and `run` set. -/
structure Header where
  pid : BitVec 32
  text : List Inst
  prio : ℕ
  pc : ℕ

def Pcb.header (proc : Pcb) : Header := ⟨proc.pid, proc.text, proc.prio, proc.pc⟩

@[simp] theorem Task.setKrnl_header (t : Task) (k : Krnl) : (t.setKrnl k).proc.header = t.proc.header := rfl

private theorem liballoc_header {size : Addr} {reg : BitVec 32} (completed : liballoc t size reg = .ok (t', status)) :
    t'.proc.header = t.proc.header := by
  rw [liballoc] at completed
  split at completed
  · cases completed
    rfl
  · cases index : regIndex reg.toNat with
    | error fault =>
      rw [index] at completed
      cases completed
    | ok slot =>
      rw [index] at completed
      cases completed
      rfl

private theorem libfree_header {reg : BitVec 32} (completed : libfree t reg = .ok (t', status)) :
    t'.proc.header = t.proc.header := by
  rw [libfree] at completed
  cases index : regIndex reg.toNat with
  | error fault =>
    rw [index] at completed
    cases completed
  | ok slot =>
    rw [index] at completed
    change (if t.proc.regs slot = 0 then _ else _) = _ at completed
    split at completed
    · cases completed
      rfl
    · cases completed
      rfl

/-- All processes keep their headers. -/
def Machine.KeepsHeaders (m m' : Machine ι) : Prop := ∀ Q, (m'.procs Q).header = (m.procs Q).header

private theorem Machine.keepsHeaders_put (m : Machine ι) (kept : t.proc.header = (m.procs P).header) :
    m.KeepsHeaders (m.put P t) := by
  intro Q
  simp only [Machine.put, Function.update_apply]
  split
  · rename_i here
    rw [here, kept]
  · rfl

private theorem Machine.keepsHeaders_putResult {result : Except Fault (Task × Int)}
    (kept : ∀ t status, result = .ok (t, status) → t.proc.header = (m.procs P).header)
    (completed : m.putResult P result = .ok (m', status)) : m.KeepsHeaders m' := by
  cases result with
  | error fault => cases completed
  | ok answer =>
    obtain ⟨t, status⟩ := answer
    cases completed
    exact m.keepsHeaders_put (kept t status rfl)

private theorem Machine.Served.keepsHeaders {env : Env} {runningList : List ι} {nr : BitVec 32} {a1 a2 a3 : Addr}
    (served : Machine.Served env m runningList P nr a1 a2 a3 m') : m.KeepsHeaders m' := by
  cases served with
  | nothing => exact fun _ => rfl
  | mapped => exact m.keepsHeaders_put rfl
  | grown => exact m.keepsHeaders_put rfl
  | swapped => exact fun _ => rfl

private theorem Machine.execute_header {env : Env} {runningList : List ι}
    (completed : m.execute env runningList P ins = .ok (m', status)) : m.KeepsHeaders m' := by
  obtain ⟨opcode, arg0, arg1, arg2, arg3⟩ := ins
  cases opcode with
  | «calc» =>
    cases completed
    exact fun _ => rfl
  | alloc => exact m.keepsHeaders_putResult (fun _ _ answered => liballoc_header answered) completed
  | free => exact m.keepsHeaders_putResult (fun _ _ answered => libfree_header answered) completed
  | read =>
    have kept : (libread env.driver (m.task P) (arg0.setWidth 32) arg1).1.proc.header =
        (m.procs P).header := rfl
    simp only [Machine.execute] at completed
    generalize libread env.driver (m.task P) (arg0.setWidth 32) arg1 = answer at kept completed
    obtain ⟨t, data⟩ := answer
    cases data with
    | none =>
      cases completed
      exact m.keepsHeaders_put kept
    | some value =>
      cases index : regIndex arg2.toNat with
      | error fault =>
        simp only [index] at completed
        cases completed
      | ok slot =>
        simp only [index] at completed
        cases completed
        exact m.keepsHeaders_put kept
  | write =>
    cases completed
    exact m.keepsHeaders_put rfl
  | syscall => exact (Machine.libsyscall_served completed).keepsHeaders

private theorem Machine.advance_header (m : Machine ι) (P Q : ι) : ((m.advance P).procs Q).header =
    if Q = P then { (m.procs P).header with pc := (m.procs P).pc + 1 } else (m.procs Q).header := by
  simp only [Machine.advance, Function.update_apply]
  split <;> rfl

/-- `run` does nothing without an instruction left, and otherwise advances one program counter. -/
theorem Machine.run_header {env : Env} {runningList : List ι}
    (completed : m.run env runningList P = .ok (m', status)) :
    ((m.procs P).text[(m.procs P).pc]? = none ∧ m' = m) ∨
    ∃ ins, (m.procs P).text[(m.procs P).pc]? = some ins ∧ ∀ Q, (m'.procs Q).header =
      if Q = P then { (m.procs P).header with pc := (m.procs P).pc + 1 } else (m.procs Q).header := by
  rw [Machine.run] at completed
  cases next : (m.procs P).text[(m.procs P).pc]? with
  | none =>
    rw [next] at completed
    cases completed
    exact .inl ⟨rfl, rfl⟩
  | some ins =>
    rw [next] at completed
    exact .inr ⟨ins, rfl, fun Q => (Machine.execute_header completed Q).trans (m.advance_header P Q)⟩

end SimpleOS.Model
