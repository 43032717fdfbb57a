import SimpleOS.Model.Machine

/-! # System calls and the instruction set

`libstd.c`, `syscall.c`, `sys_mem.c`, `sys_mmstats.c` and `run` of `cpu.c`. The kernel finds the
caller of a system call by its pid on `running_list`; the list is an argument here, since the
scheduler keeps it.

`sys_mem.c` includes `os-mm.h` before `MM64` is defined, so `addr_t` has 32 bits there. Arguments of
`__sys_memmap` that become an `addr_t` are narrowed, as in `sysmemInc`. And `caller->krnl`, which only
`SYSMEM_IO_READ` and `SYSMEM_IO_WRITE` use in that file, is read where the other files keep `regs[6]`: with these
requests the program goes on from a wild pointer, and they have no step.
-/

namespace SimpleOS.Model

variable {ι : Type} [DecidableEq ι]

/-- What a run takes from outside: the MEMPHY driver, and the bytes that `__swap_cp_page` stores when
a read fails and leaves its variable uninitialised. -/
structure Env where
  driver : Driver
  stale : ℕ → BitVec 8

/-- The first `n` rounds of `__swap_cp_page`. The statuses of both accesses are ignored. -/
def swapCpPage (env : Env) (mpsrc : Memphy) (srcfpn : ℕ) (mpdst : Memphy) (dstfpn : ℕ) : ℕ → Memphy
  | 0 => mpdst
  | cellidx + 1 =>
    let mpdst := swapCpPage env mpsrc srcfpn mpdst dstfpn cellidx
    let data := (mpsrc.read (srcfpn * pagingPagesz + cellidx)).getD (env.stale cellidx)
    (mpdst.write (dstfpn * pagingPagesz + cellidx) data).getD mpdst

/-- `struct sc_regs`: the three arguments that are set. -/
structure ScRegs where
  a1 : Addr
  a2 : Addr
  a3 : Addr

def sysmemMapOp : ℕ := 1
def sysmemIncOp : ℕ := 2
def sysmemSwpOp : ℕ := 3
def sysmemIoRead : ℕ := 4
def sysmemIoWrite : ℕ := 5

namespace Machine

/-- The first process of a list with a given pid. -/
def findPid (m : Machine ι) (runningList : List ι) (pid : BitVec 32) : Option ι :=
  runningList.find? fun P => (m.procs P).pid = pid

/-- `vmap_pgd_memset` as `__sys_memmap` calls it. -/
def sysmemMap (k : Krnl) (a2 a3 : Addr) : Krnl :=
  vmapPgdMemset k ((a2.setWidth 32).setWidth 64) (a3.setWidth 32).toInt

/-- `__mm_swap_page` as `__sys_memmap` calls it. -/
def mmSwapPage (env : Env) (m : Machine ι) (a2 a3 : Addr) : Machine ι :=
  let vicfpn := (a2.setWidth 32).toNat
  let swpfpn := (a3.setWidth 32).toNat
  { m with mswp := swapCpPage env m.mram vicfpn m.mswp swpfpn pagingPagesz }

/-- `__sys_memmap`. -/
def sysMemmap (env : Env) (m : Machine ι) (runningList : List ι) (pid : BitVec 32) (regs : ScRegs) :
    Except Fault (Machine ι × Int) :=
  match m.findPid runningList pid with
  | none => .ok (m, -1)
  | some caller =>
    let memop := (regs.a1.setWidth 32).toNat
    let t := m.task caller
    if memop = sysmemMapOp then .ok (m.put caller (t.setKrnl (sysmemMap t.krnl regs.a2 regs.a3)), 0)
    else if memop = sysmemIncOp then .ok (m.put caller (t.setKrnl (sysmemInc t.krnl regs.a2 regs.a3).1), 0)
    else if memop = sysmemSwpOp then .ok (m.mmSwapPage env regs.a2 regs.a3, 0)
    else if memop = sysmemIoRead then .error .krnl
    else if memop = sysmemIoWrite then .error .krnl
    else .ok (m, 0)

/-- The entry `mm->pgd[i]`, also behind the 512 entries of the array. -/
def pgdEntry (mm : MmStruct) (i : ℕ) : Addr :=
  if bound : i < 512 then mm.pgd ⟨i, bound⟩ else mm.pastPgd (i - 512)

/-- `__sys_mmstats`: the number of nonzero words among the first 1024 from `mm->pgd` on. -/
def sysMmstats (m : Machine ι) (runningList : List ι) (regs : ScRegs) : Int :=
  match m.findPid runningList (regs.a1.setWidth 32) with
  | none => -1
  | some caller => (List.range 1024).countP fun i => pgdEntry (m.procs caller).mm i ≠ 0

/-- The arrays `init_mm` allocates for the levels of a 64-bit table that `__sys_mmstats` walks. -/
inductive Directory
  | pgd | p4d | pud | pmd
deriving DecidableEq, Repr

/-- `PAGING64_PGD_ENTRIES` and its companions: the entries `init_mm` allocates. -/
def Directory.entries : Directory → ℕ
  | .pgd => 512
  | .p4d => 512
  | .pud => 512
  | .pmd => 512

/-- The array elements `__sys_mmstats` reads, in order: its counter runs to `max_entries` on `mm->pgd` and to
512 on the other three. -/
def sysMmstatsReads (m : Machine ι) (runningList : List ι) (regs : ScRegs) : List (Directory × ℕ) :=
  match m.findPid runningList (regs.a1.setWidth 32) with
  | none => []
  | some _ =>
    (List.range 1024).map (Directory.pgd, ·) ++ (List.range 512).map (Directory.p4d, ·) ++
      (List.range 512).map (Directory.pud, ·) ++ (List.range 512).map (Directory.pmd, ·)

/-- `syscall`. Numbers 0 (`listsyscall`) and those without an entry return 0. -/
def syscall (env : Env) (m : Machine ι) (runningList : List ι) (pid nr : BitVec 32) (regs : ScRegs) :
    Except Fault (Machine ι × Int) :=
  if nr.toNat = 17 then m.sysMemmap env runningList pid regs
  else if nr.toNat = 440 then .ok (m, m.sysMmstats runningList regs)
  else .ok (m, 0)

/-- `libsyscall`. -/
def libsyscall (env : Env) (m : Machine ι) (runningList : List ι) (P : ι) (syscallIdx : BitVec 32)
    (a1 a2 a3 : Addr) : Except Fault (Machine ι × Int) :=
  m.syscall env runningList (m.procs P).pid syscallIdx ⟨a1, a2, a3⟩

/-- Store back a call that may leave the register file. -/
def putResult (m : Machine ι) (P : ι) (result : Except Fault (Task × Int)) :
    Except Fault (Machine ι × Int) := do
  let (t, status) ← result
  return (m.put P t, status)

/-- The instruction `ins` of `P`, after its program counter has been advanced. -/
def execute (env : Env) (runningList : List ι) (m : Machine ι) (P : ι) (ins : Inst) :
    Except Fault (Machine ι × Int) :=
  let t := m.task P
  match ins.opcode with
  | .calc => .ok (m, 0)
  | .alloc => m.putResult P (liballoc t ins.arg0 (ins.arg1.setWidth 32))
  | .free => m.putResult P (libfree t (ins.arg0.setWidth 32))
  | .read =>
    match libread env.driver t (ins.arg0.setWidth 32) ins.arg1 with
    | (t, none) => .ok (m.put P t, -1)
    | (t, some value) => do
      let reg ← regIndex ins.arg2.toNat
      let regs := Function.update t.proc.regs reg (value.setWidth 64)
      return (m.put P { t with proc := { t.proc with regs } }, 0)
  | .write =>
    let (t, status) := libwrite env.driver t (ins.arg0.setWidth 8) (ins.arg1.setWidth 32) ins.arg2
    .ok (m.put P t, status)
  | .syscall => m.libsyscall env runningList P (ins.arg0.setWidth 32) ins.arg1 ins.arg2 ins.arg3

/-- Advance the program counter of `P`. -/
def advance (m : Machine ι) (P : ι) : Machine ι :=
  { m with procs := Function.update m.procs P { m.procs P with pc := (m.procs P).pc + 1 } }

/-- `run`: one instruction of `P`. -/
def run (env : Env) (runningList : List ι) (m : Machine ι) (P : ι) : Except Fault (Machine ι × Int) :=
  match (m.procs P).text[(m.procs P).pc]? with
  | none => .ok (m, 1)
  | some ins => (m.advance P).execute env runningList P ins

end Machine

/-- One call of `run` for a process, with the running list at that moment. -/
def Machine.Exec (env : Env) (m : Machine ι) (label : ι × List ι) (m' : Machine ι) : Prop :=
  ∃ status, m.run env label.2 label.1 = .ok (m', status)

end SimpleOS.Model
