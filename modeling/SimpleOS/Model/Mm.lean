import SimpleOS.Model.Memphy

/-! # Memory management state of a process

The records of `os-mm.h` and `common.h` and their initialisation by `init_mm`. `init_mm` creates the
only memory area a process ever has, with `vm_next` NULL, so the area is a field and not a list.
Memory that `malloc` hands out uninitialised and that the code reads before writing is a parameter
of the initialisation (`Malloc`).
-/

namespace SimpleOS.Model

/-- `PAGING_MAX_SYMTBL_SZ`. -/
def pagingMaxSymtblSz : ℕ := 30

/-- `struct vm_rg_struct`. -/
structure VmRg where
  rgStart : Addr
  rgEnd : Addr
deriving DecidableEq, Repr

/-- A slot of the symbol table that holds a region: not both ends are zero. -/
def VmRg.Live (rg : VmRg) : Prop := ¬(rg.rgStart = 0 ∧ rg.rgEnd = 0)

instance (rg : VmRg) : Decidable rg.Live := inferInstanceAs (Decidable (¬_))

/-- `struct vm_area_struct`. -/
structure VmArea where
  vmStart : Addr
  vmEnd : Addr
  sbrk : Addr
  vmFreergList : List VmRg

/-- `struct mm_struct`. The arrays `p4d`, `pud`, `pmd` and `pt` are never written after `init_mm`
and are left out; `pastPgd` is what lies behind the 512 entries of `pgd` in the heap. -/
structure MmStruct where
  pgd : Fin 512 → Addr
  pastPgd : ℕ → Addr
  mmap : VmArea
  symrgtbl : Fin 30 → VmRg
  fifoPgn : List Addr

/-- Heap contents that `malloc` leaves uninitialised. -/
structure Malloc where
  regs : Fin 10 → Addr
  freergTail : List VmRg
  pastPgd : ℕ → Addr

/-- `init_vm_rg`. -/
def initVmRg (rgStart rgEnd : Addr) : VmRg := ⟨rgStart, rgEnd⟩

/-- `enlist_vm_rg_node`. -/
def enlistVmRgNode (rglist : List VmRg) (rgnode : VmRg) : List VmRg := rgnode :: rglist

/-- `enlist_pgn_node`. -/
def enlistPgnNode (plist : List Addr) (pgn : Addr) : List Addr := pgn :: plist

/-- `init_mm`, for allocations that succeed. The list head `vm_freerg_list` is read before it is
ever written. -/
def initMm (heap : Malloc) : MmStruct where
  pgd := fun _ => 0
  pastPgd := heap.pastPgd
  mmap :=
    { vmStart := 0
      vmEnd := 0x100000
      sbrk := BitVec.ofNat 64 pagingPagesz
      vmFreergList := enlistVmRgNode heap.freergTail (initVmRg 0 0x100000) }
  symrgtbl := fun _ => ⟨0, 0⟩
  fifoPgn := []

/-- What a kernel routine reaches through `caller->krnl`: the process's own `mm` and the shared RAM. -/
structure Krnl where
  mm : MmStruct
  mram : Memphy

/-- `enum ins_opcode_t`. -/
inductive Opcode
  | calc | alloc | free | read | write | syscall
deriving DecidableEq, Repr

/-- `struct inst_t`. -/
structure Inst where
  opcode : Opcode
  arg0 : Addr
  arg1 : Addr
  arg2 : Addr
  arg3 : Addr
deriving DecidableEq, Repr

/-- `struct pcb_t`: the fields that loading and execution use. `text` is `code->text`, its length
`code->size`. -/
structure Pcb where
  pid : BitVec 32
  text : List Inst
  regs : Fin 10 → Addr
  pc : ℕ
  prio : ℕ
  mm : MmStruct

/-- A process as `load` and `ld_routine` leave it before `add_proc`. -/
def loadProc (heap : Malloc) (pid : BitVec 32) (text : List Inst) (prio : ℕ) : Pcb where
  pid := pid
  text := text
  regs := heap.regs
  pc := 0
  prio := prio
  mm := initMm heap

end SimpleOS.Model
