import SimpleOS.Model.Cpu
import SimpleOS.Proofs.Regions

/-! # A process on its own

What the memory engine is for: each process computes with its registers, its regions and 4 MiB of memory that is
zero at the start and that nobody else reaches. There are no frames, no page tables and no other processes here, and
no access runs out of memory.
-/

namespace SimpleOS.Model

/-- A program with its position, the registers, the regions and the memory of one process. An address keeps its
low 22 bits. -/
structure Process where
  text : List Inst
  pc : ℕ
  regs : Fin 10 → Addr
  regions : Regions
  bytes : BitVec 22 → BitVec 8

namespace Process

/-- A symbol without a region gets one of 100 bytes before an access. -/
def opening (R : Regions) (rgid : BitVec 32) : RegionAction :=
  match symIndex rgid with
  | none => .keep
  | some slot => if (R.symrgtbl slot).Live then .keep else .place slot 100

/-- A symbol gives up its region, unless that is empty. -/
def releasing (R : Regions) (rgid : BitVec 32) : RegionAction :=
  match symIndex rgid with
  | none => .keep
  | some slot => if (R.symrgtbl slot).rgStart < (R.symrgtbl slot).rgEnd then .release slot else .keep

/-- The address of an offset in the region of a symbol. -/
def address (R : Regions) (rgid : BitVec 32) (offset : Addr) : Option Addr :=
  match symIndex rgid with
  | none => none
  | some slot =>
    let rg := R.symrgtbl slot
    if rg.rgEnd ≤ rg.rgStart then none
    else if rg.rgEnd - rg.rgStart ≤ offset then none
    else some (rg.rgStart + offset)

/-- Write a register; there are ten. -/
def setReg (s : Process) (index : ℕ) (v : Addr) : Process :=
  if bound : index < 10 then { s with regs := Function.update s.regs ⟨index, bound⟩ v } else s

/-- A region of `size` bytes for a symbol that has none, and its start in the register. -/
def alloc (s : Process) (size : Addr) (reg : BitVec 32) : Process :=
  match symIndex reg with
  | none => s
  | some slot =>
    if (s.regions.symrgtbl slot).Live then s
    else { s with regions := s.regions.act (.place slot size) }.setReg reg.toNat s.regions.top

/-- The end of a region; a register that holds 0 is refused. -/
def free (s : Process) (reg : BitVec 32) : Process :=
  if bound : reg.toNat < 10 then
    if s.regs ⟨reg.toNat, bound⟩ = 0 then s
    else { s with regions := s.regions.act (releasing s.regions reg) }
  else s

/-- The symbol gets a region if it has none. -/
def opened (s : Process) (rgid : BitVec 32) : Process := { s with regions := s.regions.act (opening s.regions rgid) }

/-- A byte into a register, sign-extended to 32 bits. -/
def read (s : Process) (source : BitVec 32) (offset : Addr) (reg : ℕ) : Process :=
  match address (s.opened source).regions source offset with
  | none => s.opened source
  | some addr => (s.opened source).setReg reg (((s.bytes (addr.setWidth 22)).signExtend 32).setWidth 64)

def write (s : Process) (data : BitVec 8) (destination : BitVec 32) (offset : Addr) : Process :=
  match address (s.opened destination).regions destination offset with
  | none => s.opened destination
  | some addr => { s.opened destination with bytes := Function.update s.bytes (addr.setWidth 22) data }

section Access

variable {s : Process} {source destination : BitVec 32} {offset addr : Addr} {reg : ℕ} {data : BitVec 8}

theorem read_refused (refused : address (s.opened source).regions source offset = none) :
    s.read source offset reg = s.opened source := by
  simp only [read, refused]

theorem read_at (opened : address (s.opened source).regions source offset = some addr) :
    s.read source offset reg =
      (s.opened source).setReg reg (((s.bytes (addr.setWidth 22)).signExtend 32).setWidth 64) := by
  simp only [read, opened]

theorem write_refused (refused : address (s.opened destination).regions destination offset = none) :
    s.write data destination offset = s.opened destination := by
  simp only [write, refused]

theorem write_at (opened : address (s.opened destination).regions destination offset = some addr) :
    s.write data destination offset =
      { s.opened destination with bytes := Function.update s.bytes (addr.setWidth 22) data } := by
  simp only [write, opened]

end Access

/-- One instruction. System calls do not reach the process. -/
def exec (s : Process) (ins : Inst) : Process :=
  match ins.opcode with
  | .calc => s
  | .alloc => s.alloc ins.arg0 (ins.arg1.setWidth 32)
  | .free => s.free (ins.arg0.setWidth 32)
  | .read => s.read (ins.arg0.setWidth 32) ins.arg1 ins.arg2.toNat
  | .write => s.write (ins.arg0.setWidth 8) (ins.arg1.setWidth 32) ins.arg2
  | .syscall => s

/-- The next instruction of the program. -/
def next (s : Process) : Process :=
  match s.text[s.pc]? with
  | none => s
  | some ins => { s with pc := s.pc + 1 }.exec ins

/-- A process that has just been loaded. -/
def start (heap : Malloc) (text : List Inst) : Process := ⟨text, 0, heap.regs, (initMm heap).regions, fun _ => 0⟩

theorem setReg_stays (s : Process) (index : ℕ) (v : Addr) :
    (s.setReg index v).text = s.text ∧ (s.setReg index v).pc = s.pc := by
  rw [setReg]
  split <;> exact ⟨rfl, rfl⟩

/-- No instruction changes the program or jumps in it. -/
theorem exec_stays (s : Process) (ins : Inst) : (s.exec ins).text = s.text ∧ (s.exec ins).pc = s.pc := by
  obtain ⟨opcode, arg0, arg1, arg2, arg3⟩ := ins
  cases opcode with
  | alloc =>
    simp only [exec, alloc]
    split
    · exact ⟨rfl, rfl⟩
    · split
      · exact ⟨rfl, rfl⟩
      · exact setReg_stays _ _ _
  | free =>
    simp only [exec, free]
    split
    · split <;> exact ⟨rfl, rfl⟩
    · exact ⟨rfl, rfl⟩
  | read =>
    simp only [exec, read]
    split
    · exact ⟨rfl, rfl⟩
    · exact setReg_stays _ _ _
  | write =>
    simp only [exec, write]
    split <;> exact ⟨rfl, rfl⟩
  | _ => exact ⟨rfl, rfl⟩

theorem next_text (s : Process) : s.next.text = s.text := by
  rw [next]
  split
  · rfl
  · exact (exec_stays _ _).1

end Process

end SimpleOS.Model
