import SimpleOS.Model.PageTable

/-! # Regions and paged access

`libmem.c` and the part of `mm-vm.c` it uses. Regions are carved from the top of the area at `sbrk`;
the area grows by whole pages. An access goes through the page of the address, which is mapped on
its first use. Routines return their state together with what they report: `none` stands for the
status -1, and a byte or an address for the status 0 with the value delivered.
-/

namespace SimpleOS.Model

/-- `get_vma_by_num`: the list of areas has exactly one node. -/
def getVmaByNum (mm : MmStruct) (vmaid : Int) : Option VmArea :=
  if vmaid ≤ 0 then some mm.mmap else none

/-- `rgid < 0 || rgid >= PAGING_MAX_SYMTBL_SZ` refuses an index; the others name a slot. -/
def symIndex (rgid : BitVec 32) : Option (Fin 30) :=
  if rgid.toInt < 0 ∨ (pagingMaxSymtblSz : Int) ≤ rgid.toInt then none
  else if bound : rgid.toNat < 30 then some ⟨rgid.toNat, bound⟩ else none

/-- `inc_vma_limit`. The mapping routine returns the unsigned value 0, so its test for a negative
result never fails. -/
def incVmaLimit (k : Krnl) (vmaid : Int) (incSz : Addr) : Krnl × Int :=
  match getVmaByNum k.mm vmaid with
  | none => (k, -1)
  | some curVma =>
    let mm64IncSz := (incSz + BitVec.ofNat 64 pagingPagesz - 1) &&& ~~~(BitVec.ofNat 64 pagingPagesz - 1)
    let oldLimit := curVma.vmEnd
    let newLimit := oldLimit + mm64IncSz
    let incnumpage := (mm64IncSz / BitVec.ofNat 64 pagingPagesz).setWidth 32
    let k := (vmMapRam k oldLimit incnumpage).1
    ({ k with mm := { k.mm with mmap := { k.mm.mmap with vmEnd := newLimit } } }, 0)

namespace Libmem

/-- The end of `__alloc`: record the region at `sbrk` and move `sbrk` behind it. -/
def placeRegion (k : Krnl) (slot : Fin 30) (size : Addr) : Krnl × Option Addr :=
  let allocStart :=
    if k.mm.mmap.sbrk = 0 then BitVec.ofNat 64 pagingPagesz else k.mm.mmap.sbrk
  let allocEnd := allocStart + size
  ({ k with mm :=
      { k.mm with
        symrgtbl := Function.update k.mm.symrgtbl slot ⟨allocStart, allocEnd⟩
        mmap := { k.mm.mmap with sbrk := allocEnd } } }, some allocStart)

/-- `__alloc`. -/
def alloc (k : Krnl) (vmaid : Int) (rgid : BitVec 32) (size : Addr) : Krnl × Option Addr :=
  match symIndex rgid with
  | none => (k, none)
  | some slot =>
    match getVmaByNum k.mm vmaid with
    | none => (k, none)
    | some curVma =>
      if (k.mm.symrgtbl slot).Live then (k, none)
      else
        let allocEnd := curVma.sbrk + size
        if curVma.vmEnd < allocEnd then
          let (k, status) := incVmaLimit k vmaid (allocEnd - curVma.sbrk)
          if status ≠ 0 then (k, none) else placeRegion k slot size
        else placeRegion k slot size

/-- `__free`. -/
def free (k : Krnl) (rgid : BitVec 32) : Krnl × Int :=
  match symIndex rgid with
  | none => (k, -1)
  | some slot =>
    let rgnode := k.mm.symrgtbl slot
    if ¬rgnode.Live then (k, -1)
    else if rgnode.rgEnd ≤ rgnode.rgStart then (k, -1)
    else
      ({ k with mm := { k.mm with symrgtbl := Function.update k.mm.symrgtbl slot ⟨0, 0⟩ } }, 0)

end Libmem

/-- `pg_getpage`: the frame of a page, mapped from the free list on first use. -/
def pgGetpage (driver : Driver) (k : Krnl) (pgn : BitVec 32) : Krnl × Option ℕ :=
  if pgn.toInt < 0 ∨ (pagingMaxPgn : Int) ≤ pgn.toInt then (k, none)
  else
    let pte := pteGetEntry k (pgn.signExtend 64)
    if pagingPtePresent pte then (k, some (pagingPteFpn pte))
    else
      match k.mram.getFreefp with
      | none => (k, none)
      | some (newFpn, mram) =>
        let (k, status) := pteSetFpn { k with mram } (pgn.signExtend 64) newFpn
        if status = 0 then
          ({ k with mm := { k.mm with fifoPgn := enlistPgnNode k.mm.fifoPgn (pgn.signExtend 64) } },
            some newFpn)
        else ({ k with mram := k.mram.putFreefp driver newFpn }, none)

/-- `pg_getval`; the address is narrowed to `int`. -/
def pgGetval (driver : Driver) (k : Krnl) (addr : BitVec 32) : Krnl × Option (BitVec 8) :=
  match pgGetpage driver k (pagingPgn addr) with
  | (k, none) => (k, none)
  | (k, some fpn) => (k, k.mram.read (fpn * pagingPagesz + (pagingOffst addr).toNat))

/-- `pg_setval`; the address is narrowed to `int`. -/
def pgSetval (driver : Driver) (k : Krnl) (addr : BitVec 32) (value : BitVec 8) : Krnl × Int :=
  match pgGetpage driver k (pagingPgn addr) with
  | (k, none) => (k, -1)
  | (k, some fpn) =>
    match k.mram.write (fpn * pagingPagesz + (pagingOffst addr).toNat) value with
    | none => (k, -1)
    | some mram => ({ k with mram }, 0)

namespace Libmem

/-- The check of `__read` and `__write` of an offset against a region. -/
def locate (k : Krnl) (slot : Fin 30) (offset : Addr) : Option Addr :=
  let currg := k.mm.symrgtbl slot
  if currg.rgEnd ≤ currg.rgStart then none
  else if currg.rgEnd - currg.rgStart ≤ offset then none
  else some (currg.rgStart + offset)

/-- The common opening of `__read` and `__write`: a symbol without a region gets one of 100 bytes.
The result is the address to access. -/
def target (k : Krnl) (vmaid : Int) (rgid : BitVec 32) (offset : Addr) : Krnl × Option Addr :=
  match symIndex rgid with
  | none => (k, none)
  | some slot =>
    if (k.mm.symrgtbl slot).Live then (k, locate k slot offset)
    else
      match alloc k vmaid rgid 100 with
      | (k, none) => (k, none)
      | (k, some _) => (k, locate k slot offset)

/-- `__read`. -/
def read (driver : Driver) (k : Krnl) (vmaid : Int) (rgid : BitVec 32) (offset : Addr) :
    Krnl × Option (BitVec 8) :=
  match target k vmaid rgid offset with
  | (k, none) => (k, none)
  | (k, some addr) => pgGetval driver k (addr.setWidth 32)

/-- `__write`. -/
def write (driver : Driver) (k : Krnl) (vmaid : Int) (rgid : BitVec 32) (offset : Addr)
    (value : BitVec 8) : Krnl × Int :=
  match target k vmaid rgid offset with
  | (k, none) => (k, -1)
  | (k, some addr) => pgSetval driver k (addr.setWidth 32) value

end Libmem

/-- `find_victim_page`: unlink the first node of the list and report its page. -/
def findVictimPage (mm : MmStruct) : MmStruct × Option Addr :=
  match mm.fifoPgn with
  | [] => (mm, none)
  | pg :: pgNext => ({ mm with fifoPgn := pgNext }, some pg)

/-- Undefined behaviour of the C program that a run can reach. -/
inductive Fault
  /-- An index of 10 or more on `proc->regs`. -/
  | regs (index : ℕ)
  /-- A pointer that is read where `sys_mem.c` takes `caller->krnl` to be. -/
  | krnl
deriving DecidableEq, Repr

/-- The register a C index selects; the array has ten entries. -/
def regIndex (index : ℕ) : Except Fault (Fin 10) :=
  if bound : index < 10 then .ok ⟨index, bound⟩ else .error (.regs index)

/-- A process together with the RAM it shares. -/
structure Task where
  proc : Pcb
  mram : Memphy

/-- What the kernel routines see of a task. -/
def Task.krnl (t : Task) : Krnl := ⟨t.proc.mm, t.mram⟩

/-- Store back what a kernel routine leaves. -/
def Task.setKrnl (t : Task) (k : Krnl) : Task := ⟨{ t.proc with mm := k.mm }, k.mram⟩

/-- `liballoc`. The register is written after the region is recorded. -/
def liballoc (t : Task) (size : Addr) (regIdx : BitVec 32) : Except Fault (Task × Int) :=
  match Libmem.alloc t.krnl 0 regIdx size with
  | (k, none) => .ok (t.setKrnl k, -1)
  | (k, some addr) => do
    let reg ← regIndex regIdx.toNat
    let t := t.setKrnl k
    return ({ t with proc := { t.proc with regs := Function.update t.proc.regs reg addr } }, 0)

/-- `libfree`. The register is read before the index is checked. -/
def libfree (t : Task) (regIdx : BitVec 32) : Except Fault (Task × Int) := do
  let reg ← regIndex regIdx.toNat
  if t.proc.regs reg = 0 then return (t, -1)
  else
    let (k, status) := Libmem.free t.krnl regIdx
    return (t.setKrnl k, status)

/-- `libread`: on success the BYTE is stored in a `uint32_t`, `char` being signed. -/
def libread (driver : Driver) (t : Task) (source : BitVec 32) (offset : Addr) :
    Task × Option (BitVec 32) :=
  let (k, data) := Libmem.read driver t.krnl 0 source offset
  (t.setKrnl k, data.map fun byte => byte.signExtend 32)

/-- `libwrite`. -/
def libwrite (driver : Driver) (t : Task) (data : BitVec 8) (destination : BitVec 32)
    (offset : Addr) : Task × Int :=
  let (k, status) := Libmem.write driver t.krnl 0 destination offset data
  (t.setKrnl k, status)

end SimpleOS.Model
