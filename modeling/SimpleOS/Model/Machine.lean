import SimpleOS.Lib.Run
import SimpleOS.Model.Libmem

/-! # Processes that share the physical memory

`Machine.Step` is one whole library call, or one `SYSMEM_INC_OP` request, of one process. Every
interleaving of the calls of any number of processes is a run of it.

An index of 10 or more on `proc->regs` is undefined behaviour. Such a call is a step too, and the
register file is left alone: `__alloc` comes before the register is written, and what `libfree`
reads decides whether it goes on to `__free`.
-/

namespace SimpleOS.Model

variable {ι : Type} [DecidableEq ι]

/-- All processes, the RAM and the active swap device. -/
structure Machine (ι : Type) where
  procs : ι → Pcb
  mram : Memphy
  mswp : Memphy

namespace Machine

/-- What process `P` reaches. -/
def task (m : Machine ι) (P : ι) : Task := ⟨m.procs P, m.mram⟩

/-- Store back what a call of `P` leaves. -/
def put (m : Machine ι) (P : ι) (t : Task) : Machine ι :=
  { m with procs := Function.update m.procs P t.proc, mram := t.mram }

/-- Every process is freshly initialised, and the RAM has `n` free frames of arbitrary contents. -/
def Initial (n : ℕ) (m : Machine ι) : Prop :=
  (∃ contents, m.mram = initMemphy n contents) ∧ ∀ P, ∃ heap, (m.procs P).mm = initMm heap

/-- A machine of `n` frames with zeroed devices and the given programs, loaded in heaps of zeros. -/
def boot (n : ℕ) (pid : ι → BitVec 32) (text : ι → List Inst) : Machine ι where
  procs P := loadProc ⟨fun _ => 0, [], fun _ => 0⟩ (pid P) (text P) 0
  mram := initMemphy n fun _ => 0
  mswp := initMemphy n fun _ => 0

end Machine

/-- The requests of a process that touch its regions or its memory. `inc` is the request
`SYSMEM_INC_OP` of `__sys_memmap`. -/
inductive Call
  | alloc (size : Addr) (reg : BitVec 32)
  | free (reg : BitVec 32)
  | read (source : BitVec 32) (offset : Addr)
  | write (data : BitVec 8) (destination : BitVec 32) (offset : Addr)
  | inc (a2 a3 : Addr)
deriving DecidableEq, Repr

/-- The status a call returns and the value `libread` stores for its caller. -/
structure Reply where
  status : Int
  data : Option (BitVec 32)
deriving DecidableEq, Repr

/-- `inc_vma_limit` as `__sys_memmap` calls it: in `sys_mem.c` an `addr_t` has 32 bits, because
`os-mm.h` is included before `MM64` is defined. -/
def sysmemInc (k : Krnl) (a2 a3 : Addr) : Krnl × Int :=
  incVmaLimit k (a2.setWidth 32).toInt ((a3.setWidth 32).setWidth 64)

namespace Call

/-- The register or symbol index a call names. -/
def index : Call → Option (BitVec 32)
  | .alloc _ reg => some reg
  | .free reg => some reg
  | .read source _ => some source
  | .write _ destination _ => some destination
  | .inc _ _ => none

/-- The index of the call lies inside `proc->regs`. -/
def InRegs (call : Call) : Prop := ∀ reg, call.index = some reg → reg.toNat < 10

/-- One call. `__sys_memmap` returns 0 whatever `inc_vma_limit` reports. -/
def perform (driver : Driver) (t : Task) : Call → Except Fault (Task × Reply)
  | .alloc size reg => do
    let (t, status) ← liballoc t size reg
    return (t, ⟨status, none⟩)
  | .free reg => do
    let (t, status) ← libfree t reg
    return (t, ⟨status, none⟩)
  | .read source offset =>
    let (t, data) := libread driver t source offset
    .ok (t, ⟨if data.isSome then 0 else -1, data⟩)
  | .write data destination offset =>
    let (t, status) := libwrite driver t data destination offset
    .ok (t, ⟨status, none⟩)
  | .inc a2 a3 => .ok (t.setKrnl (sysmemInc t.krnl a2 a3).1, ⟨0, none⟩)

/-- The kernel routine of a call, apart from the register file. -/
def kernel (driver : Driver) (k : Krnl) : Call → Krnl
  | .alloc size reg => (Libmem.alloc k 0 reg size).1
  | .free reg => (Libmem.free k reg).1
  | .read source offset => (Libmem.read driver k 0 source offset).1
  | .write data destination offset => (Libmem.write driver k 0 destination offset data).1
  | .inc a2 a3 => (sysmemInc k a2 a3).1

/-- `size` rounded up to whole pages. -/
def rounded (size : ℕ) : ℕ := (size + pagingPagesz - 1) / pagingPagesz * pagingPagesz

/-- The bytes a call requests, rounded up to whole pages. A read or a write requests 100 bytes when
its symbol has no region. -/
def requested (mm : MmStruct) : Call → ℕ
  | .alloc size _ => rounded size.toNat
  | .free _ => 0
  | .read source _ => automatic source
  | .write _ destination _ => automatic destination
  | .inc _ a3 => rounded (a3.setWidth 32).toNat
where
  automatic (rgid : BitVec 32) : ℕ :=
    match symIndex rgid with
    | none => 0
    | some slot => if (mm.symrgtbl slot).Live then 0 else rounded 100

end Call

/-- One call as it was made and answered. `requested` are the rounded bytes it asked for; a call that
leaves `proc->regs` has no answer. -/
structure Event (ι : Type) where
  proc : ι
  call : Call
  requested : ℕ
  reply : Option Reply

/-- One whole call of one process. -/
inductive Machine.Step (driver : Driver) : Machine ι → Event ι → Machine ι → Prop
  | call {m : Machine ι} {P : ι} {call : Call} {t : Task} {reply : Reply}
      (performed : call.perform driver (m.task P) = .ok (t, reply)) :
      Step driver m ⟨P, call, call.requested (m.procs P).mm, some reply⟩ (m.put P t)
  | wild {m : Machine ι} {P : ι} {call : Call} {fault : Fault} {k : Krnl}
      (faulted : call.perform driver (m.task P) = .error fault)
      (routine : k = call.kernel driver (m.task P).krnl ∨
        (∃ reg, call = .free reg) ∧ k = (m.task P).krnl) :
      Step driver m ⟨P, call, call.requested (m.procs P).mm, none⟩ (m.put P ((m.task P).setKrnl k))

end SimpleOS.Model
