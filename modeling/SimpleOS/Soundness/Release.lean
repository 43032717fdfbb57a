import SimpleOS.Proofs.Instructions

/-! # Giving regions back

The state of a region is kept twice: in the symbol table, which decides whether ALLOC may use the
symbol, and in the register file, which `libfree` consults first. A region stays in the table until a
FREE of its register succeeds; whether one can succeed depends on the register and on the bounds of
the region, and neither is tied to the allocation.
-/

namespace SimpleOS.Model

open Lib

variable {ι : Type} [DecidableEq ι] {m m' : Machine ι} {env : Env} {P Q : ι} {ins : Inst}
  {runningList : List ι} {status : Int} {s : Fin 30}

theorem vmapPgdMemset_same (k : Krnl) (addr : Addr) (pgnum : Int) :
    k.SameRegions (vmapPgdMemset k addr pgnum) := by
  rw [vmapPgdMemset]
  induction pgnum.toNat with
  | zero => rfl
  | succ pgit ih => exact ih.trans (pteSetFpn_tables _ _ _).same

/-- A system call changes root directories, lists of mapped pages and ends of areas only. -/
theorem Machine.Served.kept {α : Type*} (field : MmStruct → α)
    (tables : ∀ mm pgd fifoPgn, field { mm with pgd, fifoPgn } = field mm)
    (limit : ∀ mm vmEnd, field { mm with mmap := { mm.mmap with vmEnd } } = field mm) {nr : BitVec 32}
    {a1 a2 a3 : Addr} (served : Machine.Served env m runningList P nr a1 a2 a3 m') (Q : ι) :
    field (m'.procs Q).mm = field (m.procs Q).mm := by
  have put : ∀ (caller : ι) (k : Krnl), field k.mm = field (m.procs caller).mm →
      field ((m.put caller ((m.task caller).setKrnl k)).procs Q).mm = field (m.procs Q).mm := by
    intro caller k same
    simp only [Machine.put, Function.update_apply]
    split
    · rename_i here
      rw [here]
      exact same
    · rfl
  cases served with
  | nothing => rfl
  | @mapped caller =>
    have same : (m.task caller).krnl.SameRegions (Machine.sysmemMap (m.task caller).krnl a2 a3) :=
      vmapPgdMemset_same _ _ _
    apply put caller
    rw [Krnl.SameRegions] at same
    rw [same]
    exact tables _ _ _
  | @grown caller =>
    apply put caller
    rw [sysmemInc, incVmaLimit_eq]
    split_ifs
    · exact limit _ _
    · rfl
  | swapped => rfl

/-- A system call touches no symbol table. -/
theorem Machine.Served.symrgtbl {nr : BitVec 32} {a1 a2 a3 : Addr}
    (served : Machine.Served env m runningList P nr a1 a2 a3 m') (Q : ι) :
    (m'.procs Q).mm.symrgtbl = (m.procs Q).mm.symrgtbl :=
  served.kept MmStruct.symrgtbl (fun _ _ _ => rfl) (fun _ _ => rfl) Q

/-- A call other than `libfree` keeps the regions in the table. -/
private theorem Machine.put_live {t : Task} {call : Call} (live : ((m.procs P).mm.symrgtbl s).Live)
    (routine : t.krnl = call.kernel env.driver (m.task Q).krnl) (other : ∀ reg, call ≠ .free reg) :
    ((m.put Q t).procs P).mm.symrgtbl s = (m.procs P).mm.symrgtbl s := by
  simp only [Machine.put, Function.update_apply]
  split
  · rename_i here
    subst here
    have acted := Call.kernel_regions env.driver (m.task P).krnl call
    rw [← routine] at acted
    refine (congrArg (fun R => R.symrgtbl s) acted).trans (Regions.act_symrgtbl ?_)
    intro touches
    obtain ⟨reg, freed, -⟩ := Call.action_slot live touches
    exact other reg freed
  · rfl

/-- A FREE keeps the regions in the table unless it returns 0. -/
private theorem Machine.put_free {t : Task} {reg : BitVec 32} (driver : Driver)
    (freed : libfree (m.task Q) reg = .ok (t, status)) :
    ((m.put Q t).procs P).mm.symrgtbl s = (m.procs P).mm.symrgtbl s ∨
      Q = P ∧ symIndex reg = some s ∧ status = 0 := by
  have performed : Call.perform driver (m.task Q) (.free reg) = .ok (t, ⟨status, none⟩) := by
    simp only [Call.perform, freed]
    rfl
  simp only [Machine.put, Function.update_apply]
  split
  · rename_i here
    subst here
    obtain rfl | ⟨rfl, reported⟩ := Call.perform_free performed
    · exact .inl rfl
    · obtain refused | ⟨slot, index, -, released⟩ := Libmem.free_cases (m.task P).krnl reg
      · rw [refused]
        exact .inl rfl
      · rw [released] at reported ⊢
        by_cases same : s = slot
        · subst same
          exact .inr ⟨rfl, index, congrArg Reply.status reported⟩
        · exact .inl (Function.update_of_ne same _ _)
  · exact .inl rfl

/-- An instruction that completes stores back what the kernel routine of its library call leaves. -/
private theorem Machine.execute_call {call : Call} (calls : ins.call = some call) (other : ∀ reg, call ≠ .free reg)
    (completed : m.execute env runningList Q ins = .ok (m', status)) :
    ∃ t, m' = m.put Q t ∧ t.krnl = call.kernel env.driver (m.task Q).krnl := by
  obtain ⟨opcode, -⟩ | ⟨_, t, calls', rfl, stored⟩ | ⟨opcode, -⟩ := Machine.execute_cases completed
  · rw [Inst.call, opcode] at calls
    cases calls
  · cases calls.symm.trans calls'
    obtain routine | ⟨⟨reg, freed⟩, -⟩ := stored
    · exact ⟨t, rfl, routine⟩
    · exact absurd freed (other reg)
  · rw [Inst.call, opcode] at calls
    cases calls

/-- A region in the table is untouched by everything but a FREE of its symbol that returns 0. -/
private theorem Machine.execute_live (live : ((m.procs P).mm.symrgtbl s).Live)
    (completed : m.execute env runningList Q ins = .ok (m', status)) :
    (m'.procs P).mm.symrgtbl s = (m.procs P).mm.symrgtbl s ∨
      Q = P ∧ ins.opcode = .free ∧ symIndex (ins.arg0.setWidth 32) = some s ∧ status = 0 := by
  have library : ∀ call, ins.call = some call → (∀ reg, call ≠ .free reg) →
      (m'.procs P).mm.symrgtbl s = (m.procs P).mm.symrgtbl s := by
    intro call calls other
    obtain ⟨t, rfl, routine⟩ := Machine.execute_call calls other completed
    exact Machine.put_live live routine other
  obtain ⟨opcode, arg0, arg1, arg2, arg3⟩ := ins
  cases opcode with
  | «calc» =>
    cases completed
    exact .inl rfl
  | alloc => exact .inl (library _ rfl (by rintro _ ⟨⟩))
  | free =>
    obtain ⟨t, freed, rfl⟩ := Machine.putResult_ok completed
    exact (Machine.put_free env.driver freed).imp_right fun ⟨here, index, zero⟩ => ⟨here, rfl, index, zero⟩
  | read => exact .inl (library _ rfl (by rintro _ ⟨⟩))
  | write => exact .inl (library _ rfl (by rintro _ ⟨⟩))
  | syscall => exact .inl (congrFun ((Machine.libsyscall_served completed).symrgtbl _) s)

/-- The symbol with the number of a register. -/
def symbol (reg : Fin 10) : Fin 30 := reg.castAdd 20

/-- The symbol that an instruction gives a region when it has none. -/
def Inst.opens (ins : Inst) : Option (BitVec 32) :=
  match ins.opcode with
  | .alloc => some (ins.arg1.setWidth 32)
  | .read => some (ins.arg0.setWidth 32)
  | .write => some (ins.arg1.setWidth 32)
  | _ => none

/-- The next step is an ALLOC into the register of `P`, or a READ or WRITE on it, and its symbol is free;
`__alloc` then succeeds. -/
def Machine.Allocates (m : Machine ι) (P : ι) (reg : Fin 10) (label : ι × List ι) : Prop :=
  label.1 = P ∧ ¬((m.procs P).mm.symrgtbl (symbol reg)).Live ∧
    ∃ ins, (m.procs P).text[(m.procs P).pc]? = some ins ∧ ins.opens = some (BitVec.ofNat 32 reg)

/-- The next step is a FREE of the register of `P` that returns 0. -/
def Machine.Releases (env : Env) (m : Machine ι) (P : ι) (reg : Fin 10) (label : ι × List ι) : Prop :=
  label.1 = P ∧ ∃ ins m', (m.procs P).text[(m.procs P).pc]? = some ins ∧ ins.opcode = .free ∧
    ins.arg0.setWidth 32 = BitVec.ofNat 32 reg ∧ m.run env label.2 P = .ok (m', 0)

/-- The states in which the register of `P` has been given a region and has not been freed since. -/
inductive Machine.Allocated (env : Env) (P : ι) (reg : Fin 10) : Machine ι → Prop
  | fresh {m m' : Machine ι} {label : ι × List ι} (allocates : m.Allocates P reg label)
      (step : Machine.Exec env m label m') : Allocated env P reg m'
  | kept {m m' : Machine ι} {label : ι × List ι} (earlier : Allocated env P reg m)
      (held : ¬m.Releases env P reg label) (step : Machine.Exec env m label m') : Allocated env P reg m'

theorem Regions.top_ne_zero (R : Regions) : R.top ≠ 0 := by
  rw [Regions.top]
  split
  · decide
  · assumption

/-- A placed region is in the table. -/
theorem Regions.place_live (R : Regions) (slot : Fin 30) (size : Addr) :
    ((R.act (.place slot size)).symrgtbl slot).Live := by
  simp only [Regions.act, Function.update_self]
  exact fun empty => R.top_ne_zero empty.1

private theorem Machine.put_placed {t : Task} {call : Call} {size : Addr}
    (routine : t.krnl = call.kernel env.driver (m.task P).krnl)
    (places : call.action (m.procs P).mm = .place s size) :
    (((m.put P t).procs P).mm.symrgtbl s).Live := by
  have acted := Call.kernel_regions env.driver (m.task P).krnl call
  rw [← routine] at acted
  have table : ((m.put P t).procs P).mm.symrgtbl = t.krnl.mm.regions.symrgtbl := by
    simp only [Machine.put, Function.update_self]
    rfl
  rw [table, acted]
  change (((m.procs P).mm.regions.act (call.action (m.procs P).mm)).symrgtbl s).Live
  rw [places]
  exact Regions.place_live _ _ _

/-- An instruction on a free symbol leaves a region in the table. -/
private theorem Machine.execute_places {reg : Fin 10} (free : ¬((m.procs P).mm.symrgtbl (symbol reg)).Live)
    (opens : ins.opens = some (BitVec.ofNat 32 reg))
    (completed : m.execute env runningList P ins = .ok (m', status)) :
    ((m'.procs P).mm.symrgtbl (symbol reg)).Live := by
  have index : symIndex (BitVec.ofNat 32 reg) = some (symbol reg) := symIndex_reg reg
  have library : ∀ call size, ins.call = some call → (∀ reg, call ≠ .free reg) →
      call.action (m.procs P).mm = .place (symbol reg) size → ((m'.procs P).mm.symrgtbl (symbol reg)).Live := by
    intro call size calls other places
    obtain ⟨t, rfl, routine⟩ := Machine.execute_call calls other completed
    exact Machine.put_placed routine places
  obtain ⟨opcode, arg0, arg1, arg2, arg3⟩ := ins
  cases opcode with
  | «calc» => cases opens
  | alloc =>
    refine library _ arg0 rfl (by rintro _ ⟨⟩) ?_
    simp only [Call.action, Option.some.inj opens, index, if_neg free]
  | free => cases opens
  | read =>
    refine library _ 100 rfl (by rintro _ ⟨⟩) ?_
    simp only [Call.action, Call.automatic, Option.some.inj opens, index, if_neg free]
  | write =>
    refine library _ 100 rfl (by rintro _ ⟨⟩) ?_
    simp only [Call.action, Call.automatic, Option.some.inj opens, index, if_neg free]
  | syscall => cases opens

/-- An allocated register has its region in the table. -/
private theorem Machine.Allocated.live {reg : Fin 10} (allocated : m.Allocated env P reg) :
    ((m.procs P).mm.symrgtbl (symbol reg)).Live := by
  induction allocated with
  | fresh allocates step =>
    obtain ⟨rfl, free, ins, next, opens⟩ := allocates
    obtain ⟨status, completed⟩ := step
    rw [Machine.run, next] at completed
    exact Machine.execute_places (by rwa [Machine.advance_mm]) opens completed
  | @kept m m' label _ held step ih =>
    obtain ⟨status, completed⟩ := step
    rw [Machine.run] at completed
    cases next : (m.procs label.1).text[(m.procs label.1).pc]? with
    | none =>
      rw [next] at completed
      cases completed
      exact ih
    | some ins =>
      rw [next] at completed
      have live : (((m.advance label.1).procs P).mm.symrgtbl (symbol reg)).Live := by
        rwa [Machine.advance_mm]
      obtain same | ⟨rfl, opcode, index, rfl⟩ := Machine.execute_live live completed
      · rw [same]
        exact live
      · refine absurd ⟨rfl, ins, m', next, opcode, symIndex_injective index (symIndex_reg reg), ?_⟩ held
        rw [Machine.run, next]
        exact completed

theorem Libmem.free_nonempty {k : Krnl} {rgid : BitVec 32} {slot : Fin 30} (index : symIndex rgid = some slot)
    (nonempty : (k.mm.symrgtbl slot).rgStart < (k.mm.symrgtbl slot).rgEnd) :
    Libmem.free k rgid = (k.released slot, 0) := by
  simp only [Libmem.free, index, VmRg.live_of_lt nonempty, BitVec.not_le.mpr nonempty, not_true_eq_false, if_false]
  rfl

/-- `FREE reg`. -/
def Inst.freeReg (reg : Fin 10) : Inst := ⟨.free, BitVec.ofNat 64 reg, 0, 0, 0⟩

/-- `ALLOC size reg`. -/
def Inst.allocReg (size : Addr) (reg : Fin 10) : Inst := ⟨.alloc, size, BitVec.ofNat 64 reg, 0, 0⟩

/-- FREE of the register returns 0 and empties its symbol, and a following ALLOC into it returns 0. -/
def Machine.Freeable (env : Env) (runningList : List ι) (m : Machine ι) (P : ι) (reg : Fin 10) : Prop :=
  ∃ m', m.execute env runningList P (.freeReg reg) = .ok (m', 0) ∧
    (m'.procs P).mm.symrgtbl (symbol reg) = ⟨0, 0⟩ ∧
    ∀ size, ∃ m'', m'.execute env runningList P (.allocReg size reg) = .ok (m'', 0)

private theorem setWidth_reg : ∀ reg : Fin 10, (BitVec.ofNat 64 reg).setWidth 32 = BitVec.ofNat 32 reg := by
  decide

/-- `libfree` on a register of the file. -/
theorem libfree_reg (t : Task) (reg : Fin 10) : libfree t (BitVec.ofNat 32 reg) =
    if t.proc.regs reg = 0 then .ok (t, -1)
    else .ok (t.setKrnl (Libmem.free t.krnl (BitVec.ofNat 32 reg)).1,
      (Libmem.free t.krnl (BitVec.ofNat 32 reg)).2) := by
  rw [libfree, regIndex_reg]
  change (if t.proc.regs reg = 0 then _ else _) = _
  split
  · rfl
  · rfl

theorem Machine.execute_allocReg {reg : Fin 10} (free : ¬((m.procs P).mm.symrgtbl (symbol reg)).Live)
    (size : Addr) : m.execute env runningList P (.allocReg size reg) =
      .ok (m.put P ((m.task P).allocated reg size), 0) := by
  simp only [Machine.execute, Inst.allocReg, setWidth_reg]
  rw [liballoc_free (t := m.task P) size free]
  rfl

private theorem Machine.execute_freeReg (m : Machine ι) (P : ι) (reg : Fin 10) :
    m.execute env runningList P (.freeReg reg) = m.putResult P (libfree (m.task P) (BitVec.ofNat 32 reg)) := by
  simp only [Machine.execute, Inst.freeReg, setWidth_reg]

/-- FREE succeeds exactly on a register that does not hold 0 with a region that is not empty. -/
private theorem Machine.freeable_iff (m : Machine ι) (P : ι) (reg : Fin 10) :
    m.Freeable env runningList P reg ↔ (m.procs P).regs reg ≠ 0 ∧
      ((m.procs P).mm.symrgtbl (symbol reg)).rgStart < ((m.procs P).mm.symrgtbl (symbol reg)).rgEnd := by
  have index : symIndex (BitVec.ofNat 32 reg) = some (symbol reg) := symIndex_reg reg
  rw [Machine.Freeable, Machine.execute_freeReg, libfree_reg]
  constructor
  · rintro ⟨m', completed, -, -⟩
    split at completed
    · cases completed
    · rename_i nonzero
      refine ⟨nonzero, ?_⟩
      obtain refused | ⟨slot, index', nonempty, -⟩ := Libmem.free_cases (m.task P).krnl (BitVec.ofNat 32 reg)
      · rw [refused] at completed
        cases completed
      · cases index.symm.trans index'
        exact nonempty
  · rintro ⟨nonzero, nonempty⟩
    have kept : (m.task P).proc.regs reg ≠ 0 := nonzero
    refine ⟨m.put P ((m.task P).setKrnl ((m.task P).krnl.released (symbol reg))), ?_, ?_, ?_⟩
    · rw [if_neg kept, Libmem.free_nonempty index nonempty]
      rfl
    · simp [Machine.put, Task.setKrnl, Krnl.released]
    · intro size
      refine ⟨_, Machine.execute_allocReg ?_ size⟩
      simp [Machine.put, Task.setKrnl, Krnl.released, VmRg.Live]

/-- An allocated register keeps its region, and FREE of it succeeds exactly when the register does not hold
0 and the region is not empty; without a region FREE fails. -/
theorem free_allocated_iff (m : Machine ι) (P : ι) (reg : Fin 10) :
    (m.Allocated env P reg → ((m.procs P).mm.symrgtbl (symbol reg)).Live ∧
      (m.Freeable env runningList P reg ↔ (m.procs P).regs reg ≠ 0 ∧
        ((m.procs P).mm.symrgtbl (symbol reg)).rgStart < ((m.procs P).mm.symrgtbl (symbol reg)).rgEnd)) ∧
    (¬((m.procs P).mm.symrgtbl (symbol reg)).Live →
      ∃ m', m.execute env runningList P (.freeReg reg) = .ok (m', -1)) := by
  refine ⟨fun allocated => ⟨allocated.live, m.freeable_iff P reg⟩, ?_⟩
  intro vacant
  rw [Machine.execute_freeReg, libfree_reg]
  split
  · exact ⟨_, rfl⟩
  · obtain refused | ⟨slot, index', nonempty, -⟩ := Libmem.free_cases (m.task P).krnl (BitVec.ofNat 32 reg)
    · rw [refused]
      exact ⟨_, rfl⟩
    · cases (symIndex_reg reg).symm.trans index'
      exact absurd (VmRg.live_of_lt nonempty) vacant

/-- A process after its first instruction `ALLOC size 1`. -/
def Machine.afterAlloc (size : Addr) : Machine Unit :=
  let m := (Machine.boot 16 (fun _ : Unit => 1) fun _ => [.allocReg size 1, .freeReg 1]).advance ()
  m.put () ((m.task ()).allocated 1 size)

theorem Machine.afterAlloc_exec (env : Env) (size : Addr) :
    Machine.Exec env (Machine.boot 16 (fun _ : Unit => 1) fun _ => [.allocReg size 1, .freeReg 1]) ((), [()])
      (Machine.afterAlloc size) := by
  let m := Machine.boot 16 (fun _ : Unit => 1) fun _ => [.allocReg size 1, .freeReg 1]
  have free : ¬(((m.advance ()).procs ()).mm.symrgtbl (symbol 1)).Live := by
    simp [m, Machine.advance, Machine.boot, loadProc, initMm, VmRg.Live]
  refine ⟨0, ?_⟩
  change (m.advance ()).execute env [()] () (.allocReg size 1) = _
  exact Machine.execute_allocReg free size

private theorem Machine.afterAlloc_allocated (env : Env) (size : Addr) :
    (Machine.afterAlloc size).Allocated env () 1 := by
  let m := Machine.boot 16 (fun _ : Unit => 1) fun _ => [.allocReg size 1, .freeReg 1]
  have allocates : m.Allocates () 1 ((), [()]) := by
    refine ⟨rfl, ?_, .allocReg size 1, rfl, rfl⟩
    simp [m, Machine.boot, loadProc, initMm, VmRg.Live]
  exact .fresh allocates (Machine.afterAlloc_exec env size)

theorem free_afterAlloc : let env : Env := ⟨.head, fun _ => 0⟩
    (Machine.afterAlloc 8).Allocated env () 1 ∧ (Machine.afterAlloc 8).Freeable env [()] () 1 := by
  intro env
  have allocated := Machine.afterAlloc_allocated env 8
  exact ⟨allocated, ((free_allocated_iff (Machine.afterAlloc 8) () 1).1 allocated).2.mpr (by decide +kernel)⟩

/-- `alloc 0 1` succeeds, and then `free 1` does not. -/
theorem empty_region_not_freeable : let env : Env := ⟨.head, fun _ => 0⟩
    ¬∀ m : Machine Unit, m.Allocated env () 1 → m.Freeable env [()] () 1 := by
  intro env freeable
  have freed := ((Machine.afterAlloc 0).freeable_iff () 1).mp
    (freeable _ (Machine.afterAlloc_allocated env 0))
  revert freed
  decide +kernel

end SimpleOS.Model
