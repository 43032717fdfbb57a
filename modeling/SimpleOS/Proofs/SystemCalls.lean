import SimpleOS.Model.Cpu

/-! # What a system call leaves

A system call that completes maps pages for its caller, grows its area, copies a page to the swap device or leaves
everything as it was. It does not complete when it asks for a raw access to RAM. What holds after every system call
is derived from these two facts.
-/

namespace SimpleOS.Model.Machine

variable {ι : Type} [DecidableEq ι] {env : Env} {m m' : Machine ι} {runningList : List ι} {P : ι} {nr : BitVec 32}
  {a1 a2 a3 : Addr} {status : Int}

omit [DecidableEq ι] in
@[simp] theorem mmSwapPage_procs : (m.mmSwapPage env a2 a3).procs = m.procs := by rw [mmSwapPage]

omit [DecidableEq ι] in
@[simp] theorem mmSwapPage_mram : (m.mmSwapPage env a2 a3).mram = m.mram := by rw [mmSwapPage]

/-- The machine after a system call of `P`. -/
inductive Served (env : Env) (m : Machine ι) (runningList : List ι) (P : ι) (nr : BitVec 32) (a1 a2 a3 : Addr) :
    Machine ι → Prop
  | nothing (other : nr.toNat = 17 → m.findPid runningList (m.procs P).pid ≠ none →
      (a1.setWidth 32).toNat ≠ sysmemMapOp ∧ (a1.setWidth 32).toNat ≠ sysmemIncOp ∧
        (a1.setWidth 32).toNat ≠ sysmemSwpOp) : Served env m runningList P nr a1 a2 a3 m
  | mapped {caller : ι} (memmap : nr.toNat = 17) (found : m.findPid runningList (m.procs P).pid = some caller)
      (request : (a1.setWidth 32).toNat = sysmemMapOp) : Served env m runningList P nr a1 a2 a3
        (m.put caller ((m.task caller).setKrnl (sysmemMap (m.task caller).krnl a2 a3)))
  | grown {caller : ι} (memmap : nr.toNat = 17) (found : m.findPid runningList (m.procs P).pid = some caller)
      (request : (a1.setWidth 32).toNat = sysmemIncOp) : Served env m runningList P nr a1 a2 a3
        (m.put caller ((m.task caller).setKrnl (sysmemInc (m.task caller).krnl a2 a3).1))
  | swapped {caller : ι} (memmap : nr.toNat = 17) (found : m.findPid runningList (m.procs P).pid = some caller)
      (request : (a1.setWidth 32).toNat = sysmemSwpOp) : Served env m runningList P nr a1 a2 a3 (m.mmSwapPage env a2 a3)

/-- System call 17 of `P` finds its caller and asks for a raw access to RAM. -/
def RawIo (m : Machine ι) (runningList : List ι) (P : ι) (nr : BitVec 32) (a1 : Addr) : Prop :=
  nr.toNat = 17 ∧ (m.findPid runningList (m.procs P).pid).isSome ∧
    ((a1.setWidth 32).toNat = sysmemIoRead ∨ (a1.setWidth 32).toNat = sysmemIoWrite)

theorem libsyscall_served (completed : m.libsyscall env runningList P nr a1 a2 a3 = .ok (m', status)) :
    Served env m runningList P nr a1 a2 a3 m' := by
  rw [libsyscall, Machine.syscall] at completed
  split_ifs at completed with memmap stats
  · rw [sysMemmap] at completed
    cases found : m.findPid runningList (m.procs P).pid with
    | none =>
      simp only [found] at completed
      cases completed
      exact .nothing fun _ known => absurd found known
    | some caller =>
      simp only [found] at completed
      split_ifs at completed with map inc swap <;> cases completed
      · exact .mapped memmap found map
      · exact .grown memmap found inc
      · exact .swapped memmap found swap
      · exact .nothing fun _ _ => ⟨map, inc, swap⟩
  · cases completed
    exact .nothing fun number => absurd number memmap
  · cases completed
    exact .nothing fun number => absurd number memmap

/-- The only system calls without a result are those that ask for a raw access. -/
theorem libsyscall_error_iff (fault : Fault) : m.libsyscall env runningList P nr a1 a2 a3 = .error fault ↔
    fault = .krnl ∧ m.RawIo runningList P nr a1 := by
  rw [libsyscall, Machine.syscall, RawIo]
  split_ifs with memmap stats
  · rw [sysMemmap]
    cases found : m.findPid runningList (m.procs P).pid with
    | none => simp
    | some caller =>
      simp only [memmap, Option.isSome_some, true_and]
      split_ifs with map inc swap read write
      · simp [map, sysmemMapOp, sysmemIoRead, sysmemIoWrite]
      · simp [inc, sysmemIncOp, sysmemIoRead, sysmemIoWrite]
      · simp [swap, sysmemSwpOp, sysmemIoRead, sysmemIoWrite]
      · simp [read, eq_comm]
      · simp [write, eq_comm]
      · refine iff_of_false (by rintro ⟨⟩) ?_
        rintro ⟨-, raw⟩
        exact not_or.mpr ⟨read, write⟩ raw
  · simp [memmap]
  · simp [memmap]

theorem libsyscall_ok_iff :
    (∃ after, m.libsyscall env runningList P nr a1 a2 a3 = .ok after) ↔ ¬m.RawIo runningList P nr a1 := by
  have failed (fault : Fault) : m.libsyscall env runningList P nr a1 a2 a3 = .error fault ↔ _ :=
    libsyscall_error_iff fault
  cases answer : m.libsyscall env runningList P nr a1 a2 a3 with
  | error fault =>
    obtain ⟨-, raw⟩ := (failed fault).mp answer
    exact iff_of_false (by rintro ⟨_, ⟨⟩⟩) (not_not_intro raw)
  | ok after =>
    refine iff_of_true ⟨after, rfl⟩ fun raw => ?_
    have refused := (failed .krnl).mpr ⟨rfl, raw⟩
    rw [answer] at refused
    cases refused

end SimpleOS.Model.Machine
