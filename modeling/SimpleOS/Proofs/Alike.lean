import SimpleOS.Proofs.Instructions
import SimpleOS.Proofs.Unseen

/-! # Two runs that differ in uninitialised memory

Two machines are alike when they differ, for one process, in its registers, in arguments of its program and in
the words behind its `pgd` array only. No kernel routine reads any of these; `run` reads arguments, `libfree`
one register and `__sys_mmstats` the words. An instruction for which these reads agree keeps two machines
alike and returns the same status.
-/

namespace SimpleOS.Model

/-- The same kernel state with other words behind the `pgd` array. -/
def Krnl.withPast (past : ℕ → Addr) (k : Krnl) : Krnl := { k with mm := { k.mm with pastPgd := past } }

section Past

variable (past : ℕ → Addr) (k : Krnl)

@[simp] theorem withPast_pgd : (k.withPast past).mm.pgd = k.mm.pgd := rfl
@[simp] theorem withPast_symrgtbl : (k.withPast past).mm.symrgtbl = k.mm.symrgtbl := rfl
@[simp] theorem withPast_mmap : (k.withPast past).mm.mmap = k.mm.mmap := rfl
@[simp] theorem withPast_mram : (k.withPast past).mram = k.mram := rfl

private theorem withPast_unseen : Unseen (Krnl.withPast past) where
  pgd _ := rfl
  entry _ _ _ := rfl
  taken k := by
    rw [withPast_mram]
    exact Option.map_id'.symm
  both _ _ _ := rfl
  clear _ _ _ := rfl
  set _ _ _ _ := rfl

private theorem pgGetpage_withPast (driver : Driver) (pgn : BitVec 32) : pgGetpage driver (k.withPast past) pgn =
    ((pgGetpage driver k pgn).1.withPast past, (pgGetpage driver k pgn).2) := by
  have entry : pteGetEntry (k.withPast past) (pgn.signExtend 64) = pteGetEntry k (pgn.signExtend 64) := rfl
  simp only [pgGetpage, entry, withPast_mram]
  by_cases range : pgn.toInt < 0 ∨ (pagingMaxPgn : Int) ≤ pgn.toInt
  · simp only [range, if_true]
  by_cases present : pagingPtePresent (pteGetEntry k (pgn.signExtend 64)) = true
  · simp only [range, if_false, present, if_true]
  simp only [range, if_false, present, if_false]
  cases k.mram.getFreefp with
  | none => rfl
  | some popped =>
    obtain ⟨fpn, mram⟩ := popped
    have set : pteSetFpn { k.withPast past with mram } (pgn.signExtend 64) fpn = _ :=
      (withPast_unseen past).pteSetFpn { k with mram } (pgn.signExtend 64) fpn
    simp only [set]
    generalize pteSetFpn { k with mram } (pgn.signExtend 64) fpn = result
    obtain ⟨k', status⟩ := result
    by_cases mapped : status = 0
    · simp only [mapped, if_true]
      rfl
    · simp only [mapped, if_false]
      rfl

private theorem pgGetval_withPast (driver : Driver) (addr : BitVec 32) : pgGetval driver (k.withPast past) addr =
    ((pgGetval driver k addr).1.withPast past, (pgGetval driver k addr).2) := by
  simp only [pgGetval, pgGetpage_withPast]
  generalize pgGetpage driver k (pagingPgn addr) = result
  obtain ⟨k', _ | fpn⟩ := result <;> rfl

private theorem pgSetval_withPast (driver : Driver) (addr : BitVec 32) (value : BitVec 8) :
    pgSetval driver (k.withPast past) addr value =
      ((pgSetval driver k addr value).1.withPast past, (pgSetval driver k addr value).2) := by
  simp only [pgSetval, pgGetpage_withPast]
  generalize pgGetpage driver k (pagingPgn addr) = result
  obtain ⟨k', _ | fpn⟩ := result
  · rfl
  · simp only [withPast_mram]
    cases k'.mram.write (fpn * pagingPagesz + (pagingOffst addr).toNat) value <;> rfl

private theorem incVmaLimit_withPast (vmaid : Int) (incSz : Addr) : incVmaLimit (k.withPast past) vmaid incSz =
    ((incVmaLimit k vmaid incSz).1.withPast past, (incVmaLimit k vmaid incSz).2) := by
  rw [incVmaLimit_eq, incVmaLimit_eq]
  by_cases first : vmaid ≤ 0
  · simp only [first, if_true]
    rfl
  · simp only [first, if_false]

namespace Libmem

theorem placeRegion_withPast (slot : Fin 30) (size : Addr) : placeRegion (k.withPast past) slot size =
    ((placeRegion k slot size).1.withPast past, (placeRegion k slot size).2) := rfl

private theorem alloc_withPast (rgid : BitVec 32) (size : Addr) : alloc (k.withPast past) 0 rgid size =
    ((alloc k 0 rgid size).1.withPast past, (alloc k 0 rgid size).2) := by
  cases index : symIndex rgid with
  | none => simp only [alloc, index]
  | some slot =>
    by_cases live : (k.mm.symrgtbl slot).Live
    · simp only [alloc, index, getVmaByNum, withPast_symrgtbl, live, if_true, le_refl, if_true]
    · by_cases grows : k.mm.mmap.vmEnd < k.mm.mmap.sbrk + size
      · simp only [alloc, index, getVmaByNum, withPast_symrgtbl, withPast_mmap, live, if_false, le_refl, if_true,
          grows, if_true, incVmaLimit_withPast, placeRegion_withPast]
        generalize incVmaLimit k 0 (k.mm.mmap.sbrk + size - k.mm.mmap.sbrk) = result
        split_ifs
        · rfl
        · rfl
      · simp only [alloc, index, getVmaByNum, withPast_symrgtbl, withPast_mmap, live, if_false, le_refl, if_true,
          grows, if_false, placeRegion_withPast]

private theorem free_withPast (rgid : BitVec 32) :
    free (k.withPast past) rgid = ((free k rgid).1.withPast past, (free k rgid).2) := by
  cases index : symIndex rgid with
  | none => simp only [free, index]
  | some slot =>
    by_cases live : (k.mm.symrgtbl slot).Live
    · by_cases empty : (k.mm.symrgtbl slot).rgEnd ≤ (k.mm.symrgtbl slot).rgStart
      · simp only [free, index, withPast_symrgtbl, live, empty, not_true_eq_false, if_false, if_true]
      · simp only [free, index, withPast_symrgtbl, live, empty, not_true_eq_false, if_false]
        rfl
    · simp only [free, index, withPast_symrgtbl, live, not_false_eq_true, if_true]

theorem locate_withPast (slot : Fin 30) (offset : Addr) :
    locate (k.withPast past) slot offset = locate k slot offset := rfl

private theorem target_withPast (rgid : BitVec 32) (offset : Addr) : target (k.withPast past) 0 rgid offset =
    ((target k 0 rgid offset).1.withPast past, (target k 0 rgid offset).2) := by
  cases index : symIndex rgid with
  | none => simp only [target, index]
  | some slot =>
    by_cases live : (k.mm.symrgtbl slot).Live
    · simp only [target, index, withPast_symrgtbl, live, if_true, locate_withPast]
    · simp only [target, index, withPast_symrgtbl, live, if_false, alloc_withPast]
      generalize alloc k 0 rgid 100 = result
      obtain ⟨k', _ | addr⟩ := result <;> rfl

private theorem read_withPast (driver : Driver) (rgid : BitVec 32) (offset : Addr) :
    read driver (k.withPast past) 0 rgid offset =
      ((read driver k 0 rgid offset).1.withPast past, (read driver k 0 rgid offset).2) := by
  simp only [read, target_withPast]
  generalize target k 0 rgid offset = result
  obtain ⟨k', _ | addr⟩ := result
  · rfl
  · exact pgGetval_withPast past k' driver _

private theorem write_withPast (driver : Driver) (rgid : BitVec 32) (offset : Addr) (value : BitVec 8) :
    write driver (k.withPast past) 0 rgid offset value =
      ((write driver k 0 rgid offset value).1.withPast past, (write driver k 0 rgid offset value).2) := by
  simp only [write, target_withPast]
  generalize target k 0 rgid offset = result
  obtain ⟨k', _ | addr⟩ := result
  · rfl
  · exact pgSetval_withPast past k' driver _ value

end Libmem

private theorem vmapPgdMemsetLoop_withPast (addr : Addr) (pgnum : ℕ) :
    vmapPgdMemsetLoop addr (k.withPast past) pgnum = (vmapPgdMemsetLoop addr k pgnum).withPast past := by
  induction pgnum with
  | zero => rfl
  | succ pgit ih => simp only [vmapPgdMemsetLoop, ih, (withPast_unseen past).pteSetFpn]

end Past

variable {ι : Type} [DecidableEq ι] {m m' : Machine ι} {env : Env} {P : ι} {ins ins' : Inst}
  {runningList : List ι}

/-- Two control blocks that differ in registers, arguments and the words behind `pgd` at most. -/
structure Pcb.Alike (p q : Pcb) : Prop where
  pid : q.pid = p.pid
  pc : q.pc = p.pc
  size : q.text.length = p.text.length
  mm : q.mm = { p.mm with pastPgd := q.mm.pastPgd }

/-- Two machines whose processes other than `P` and whose devices are the same, with alike processes `P`. -/
structure Machine.Alike (P : ι) (m m' : Machine ι) : Prop where
  proc : (m.procs P).Alike (m'.procs P)
  others : ∀ Q, Q ≠ P → m'.procs Q = m.procs Q
  mram : m'.mram = m.mram
  mswp : m'.mswp = m.mswp

/-- Alike results: the same fault, or the same status and alike machines. -/
inductive Machine.AlikeResults (P : ι) :
    Except Fault (Machine ι × Int) → Except Fault (Machine ι × Int) → Prop
  | error (fault : Fault) : AlikeResults P (.error fault) (.error fault)
  | ok {m m' : Machine ι} (alike : m.Alike P m') (status : Int) :
      AlikeResults P (.ok (m, status)) (.ok (m', status))

private theorem Machine.put_task (m : Machine ι) (P : ι) : m.put P (m.task P) = m := by
  rw [Machine.put, Machine.task, Function.update_eq_self]

namespace Machine.Alike

omit [DecidableEq ι] in
private theorem krnl (alike : m.Alike P m') :
    (m'.task P).krnl = (m.task P).krnl.withPast (m'.procs P).mm.pastPgd := by
  have ram : (m'.task P).mram = (m.task P).mram := alike.mram
  rw [Task.krnl, ram, show (m'.task P).proc.mm = _ from alike.proc.mm]
  rfl

omit [DecidableEq ι] in
private theorem pid (alike : m.Alike P m') (Q : ι) [Decidable (Q = P)] : (m'.procs Q).pid = (m.procs Q).pid := by
  by_cases here : Q = P
  · rw [here]
    exact alike.proc.pid
  · rw [alike.others Q here]

private theorem findPid (alike : m.Alike P m') (runningList : List ι) (pid : BitVec 32) :
    m'.findPid runningList pid = m.findPid runningList pid := by
  simp only [Machine.findPid, alike.pid]

/-- Alike states of `P` are stored back, with any registers. -/
private theorem store (alike : m.Alike P m') (past : ℕ → Addr) (k : Krnl) (regs regs' : Fin 10 → Addr) :
    (m.put P ⟨{ m.procs P with mm := k.mm, regs }, k.mram⟩).Alike P
      (m'.put P ⟨{ m'.procs P with mm := (k.withPast past).mm, regs := regs' }, k.mram⟩) where
  proc := by
    simp only [Machine.put, Function.update_self]
    exact ⟨alike.proc.pid, alike.proc.pc, alike.proc.size, rfl⟩
  others Q other := by
    simp only [Machine.put, Function.update_of_ne other]
    exact alike.others Q other
  mram := rfl
  mswp := alike.mswp

/-- A kernel routine that does not read the words behind `pgd`, for any process. -/
private theorem call (alike : m.Alike P m') (Q : ι) (routine : Krnl → Krnl)
    (blind : ∀ past k, routine (k.withPast past) = (routine k).withPast past) :
    (m.put Q ((m.task Q).setKrnl (routine (m.task Q).krnl))).Alike P
      (m'.put Q ((m'.task Q).setKrnl (routine (m'.task Q).krnl))) := by
  by_cases here : Q = P
  · subst here
    rw [alike.krnl, blind]
    exact alike.store _ (routine (m.task Q).krnl) _ _
  · have same : m'.task Q = m.task Q := by rw [Machine.task, Machine.task, alike.others Q here, alike.mram]
    rw [same]
    refine ⟨?_, fun R other => ?_, rfl, alike.mswp⟩
    · simp only [Machine.put, Function.update_of_ne (Ne.symm here)]
      exact alike.proc
    · simp only [Machine.put, Function.update_apply]
      split
      · rfl
      · exact alike.others R other

private theorem advance (alike : m.Alike P m') : (m.advance P).Alike P (m'.advance P) where
  proc := by
    simp only [Machine.advance, Function.update_self]
    exact ⟨alike.proc.pid, congrArg (· + 1) alike.proc.pc, alike.proc.size, alike.proc.mm⟩
  others Q other := by
    simp only [Machine.advance, Function.update_of_ne other]
    exact alike.others Q other
  mram := alike.mram
  mswp := alike.mswp

end Machine.Alike

/-- The same instruction as far as its arguments are used. Raw accesses and unknown requests use none of the
last two. -/
def Inst.SameUse (a b : Inst) : Prop :=
  a.opcode = b.opcode ∧
  match a.opcode with
  | .calc => True
  | .alloc => a.arg0 = b.arg0 ∧ a.arg1 = b.arg1
  | .free => a.arg0 = b.arg0
  | .read => a.arg0 = b.arg0 ∧ a.arg1 = b.arg1 ∧ a.arg2 = b.arg2
  | .write => a.arg0 = b.arg0 ∧ a.arg1 = b.arg1 ∧ a.arg2 = b.arg2
  | .syscall => a.arg0 = b.arg0 ∧ ((a.arg0.setWidth 32).toNat = 440 → a.arg1 = b.arg1) ∧
      ((a.arg0.setWidth 32).toNat = 17 → a.arg1 = b.arg1 ∧
        ((a.arg1.setWidth 32).toNat ∈ [sysmemMapOp, sysmemIncOp, sysmemSwpOp] →
          a.arg2 = b.arg2 ∧ a.arg3 = b.arg3))

/-- The nonzero words that `__sys_mmstats` finds behind the `pgd` array. -/
def MmStruct.pastCount (mm : MmStruct) : ℕ := (List.range 512).countP fun i => mm.pastPgd i ≠ 0

/-- What two instructions read of uninitialised memory is the same: the arguments they use, for FREE
whether the register is 0, for `__sys_mmstats` of the process itself the words behind its `pgd`, and for a raw access
the register that is taken for `krnl`. -/
structure Machine.SameUses (runningList : List ι) (P : ι) (m m' : Machine ι) (ins ins' : Inst) : Prop where
  args : ins.SameUse ins'
  free : ins.opcode = .free → ∀ reg, regIndex (ins.arg0.setWidth 32).toNat = .ok reg →
    ((m.procs P).regs reg = 0 ↔ (m'.procs P).regs reg = 0)
  stats : ins.opcode = .syscall → (ins.arg0.setWidth 32).toNat = 440 →
    m.findPid runningList (ins.arg1.setWidth 32) = some P →
    (m.procs P).mm.pastCount = (m'.procs P).mm.pastCount
  raw : m.RawRequest runningList P ins → ∀ reg : Fin 10, reg.val = 6 → (m.procs P).regs reg = (m'.procs P).regs reg

private theorem pgdEntry_count (mm : MmStruct) : (List.range 1024).countP (fun i => Machine.pgdEntry mm i ≠ 0) =
    (List.finRange 512).countP (fun i => mm.pgd i ≠ 0) + mm.pastCount := by
  have inside : (List.range 512).countP (fun i => Machine.pgdEntry mm i ≠ 0) =
      (List.finRange 512).countP (fun i => mm.pgd i ≠ 0) := by
    rw [← List.map_coe_finRange_eq_range, List.countP_map]
    refine List.countP_congr fun i _ => ?_
    simp [Machine.pgdEntry]
  have behind : (List.range 512).countP (fun i => Machine.pgdEntry mm (512 + i) ≠ 0) = mm.pastCount := by
    refine List.countP_congr fun i _ => ?_
    rw [Machine.pgdEntry, dif_neg (by omega), Nat.add_sub_cancel_left]
  rw [show 1024 = 512 + 512 from rfl, List.range_add, List.countP_append, List.countP_map, inside, ← behind]
  rfl

namespace Machine.Alike

private theorem sysMmstats (alike : m.Alike P m') {a b : ScRegs} (pid : a.a1.setWidth 32 = b.a1.setWidth 32)
    (counts : m.findPid runningList (a.a1.setWidth 32) = some P →
      (m.procs P).mm.pastCount = (m'.procs P).mm.pastCount) :
    m'.sysMmstats runningList b = m.sysMmstats runningList a := by
  rw [Machine.sysMmstats, Machine.sysMmstats, alike.findPid, ← pid]
  cases found : m.findPid runningList (a.a1.setWidth 32) with
  | none => rfl
  | some caller =>
    simp only [pgdEntry_count]
    by_cases here : caller = P
    · subst here
      have pgd : (m'.procs caller).mm.pgd = (m.procs caller).mm.pgd := by rw [alike.proc.mm]
      rw [counts found, pgd]
    · rw [alike.others caller here]

/-- System call 17. -/
private theorem sysMemmap (alike : m.Alike P m') (env : Env) (pid : BitVec 32) {a1 a2 a3 b2 b3 : Addr}
    (args : (a1.setWidth 32).toNat ∈ [sysmemMapOp, sysmemIncOp, sysmemSwpOp] →
      a2 = b2 ∧ a3 = b3) :
    AlikeResults P (m.sysMemmap env runningList pid ⟨a1, a2, a3⟩) (m'.sysMemmap env runningList pid ⟨a1, b2, b3⟩) := by
  rw [Machine.sysMemmap, Machine.sysMemmap, alike.findPid]
  cases m.findPid runningList pid with
  | none => exact .ok alike (-1)
  | some caller =>
    simp only
    split_ifs with map inc swap read write
    · obtain ⟨rfl, rfl⟩ := args (by simp [map])
      refine .ok (alike.call caller (fun k => sysmemMap k a2 a3) ?_) 0
      exact fun past k => vmapPgdMemsetLoop_withPast past k _ _
    · obtain ⟨rfl, rfl⟩ := args (by simp [inc])
      refine .ok (alike.call caller (fun k => (sysmemInc k a2 a3).1) fun past k => ?_) 0
      simp only [sysmemInc, incVmaLimit_withPast]
    · obtain ⟨rfl, rfl⟩ := args (by simp [swap])
      simp only [Machine.mmSwapPage, alike.mram, alike.mswp]
      generalize swapCpPage env m.mram _ m.mswp _ pagingPagesz = mswp
      refine .ok ?_ 0
      exact ⟨alike.proc, alike.others, rfl, rfl⟩
    · exact .error .krnl
    · exact .error .krnl
    · exact .ok alike 0

private theorem libsyscall (alike : m.Alike P m') (env : Env) {a0 a1 a2 a3 b1 b2 b3 : Addr}
    (uses : m.SameUses runningList P m' ⟨.syscall, a0, a1, a2, a3⟩ ⟨.syscall, a0, b1, b2, b3⟩) :
    AlikeResults P (m.libsyscall env runningList P (a0.setWidth 32) a1 a2 a3)
      (m'.libsyscall env runningList P (a0.setWidth 32) b1 b2 b3) := by
  obtain ⟨-, -, statsArg, memmapArgs⟩ := uses.args
  simp only [Machine.libsyscall, Machine.syscall, alike.proc.pid]
  split_ifs with memmap stats
  · obtain ⟨op, rest⟩ := memmapArgs memmap
    change a1 = b1 at op
    subst op
    exact alike.sysMemmap env (m.procs P).pid rest
  · rw [alike.sysMmstats]
    · exact .ok alike _
    · exact congrArg (BitVec.setWidth 32) (statsArg stats)
    · exact uses.stats rfl stats
  · exact .ok alike 0

private theorem liballoc (alike : m.Alike P m') (size : Addr) (reg : BitVec 32) :
    AlikeResults P (m.putResult P (Model.liballoc (m.task P) size reg))
      (m'.putResult P (Model.liballoc (m'.task P) size reg)) := by
  have past := Libmem.alloc_withPast (m'.procs P).mm.pastPgd (m.task P).krnl reg size
  rw [← alike.krnl] at past
  rw [Model.liballoc, Model.liballoc, past]
  generalize Libmem.alloc (m.task P).krnl 0 reg size = result
  obtain ⟨k, _ | addr⟩ := result
  · exact .ok (alike.store _ k _ _) (-1)
  · simp only
    cases regIndex reg.toNat with
    | error fault => exact .error fault
    | ok slot => exact .ok (alike.store _ k _ _) 0

private theorem libfree (alike : m.Alike P m') {reg : BitVec 32} (zero : ∀ slot, regIndex reg.toNat = .ok slot →
      ((m.procs P).regs slot = 0 ↔ (m'.procs P).regs slot = 0)) :
    AlikeResults P (m.putResult P (Model.libfree (m.task P) reg)) (m'.putResult P (Model.libfree (m'.task P) reg)) := by
  have past := Libmem.free_withPast (m'.procs P).mm.pastPgd (m.task P).krnl reg
  rw [← alike.krnl] at past
  rw [Model.libfree, Model.libfree, past]
  cases index : regIndex reg.toNat with
  | error fault => exact .error fault
  | ok slot =>
    have same : ((m.task P).proc.regs slot = 0 ↔ (m'.task P).proc.regs slot = 0) := zero slot index
    generalize Libmem.free (m.task P).krnl reg = result
    by_cases empty : (m.task P).proc.regs slot = 0
    · have empty' := same.mp empty
      simp only [bind, Except.bind, if_pos empty, if_pos empty']
      refine .ok ?_ (-1)
      rw [m.put_task, m'.put_task]
      exact alike
    · have full := fun empty' => empty (same.mpr empty')
      simp only [bind, Except.bind, if_neg empty, if_neg full]
      exact .ok (alike.store _ result.1 _ _) _

/-- An instruction whose reads agree keeps two machines alike. -/
private theorem execute (alike : m.Alike P m') (env : Env) (uses : m.SameUses runningList P m' ins ins') :
    AlikeResults P (m.execute env runningList P ins) (m'.execute env runningList P ins') := by
  obtain ⟨opcode, a0, a1, a2, a3⟩ := ins
  obtain ⟨opcode', b0, b1, b2, b3⟩ := ins'
  obtain ⟨same, args⟩ := uses.args
  change opcode = opcode' at same
  subst same
  cases opcode with
  | «calc» => exact .ok alike 0
  | alloc =>
    obtain ⟨rfl, rfl⟩ : a0 = b0 ∧ a1 = b1 := args
    exact alike.liballoc a0 _
  | free =>
    obtain rfl : a0 = b0 := args
    exact alike.libfree (uses.free rfl)
  | read =>
    obtain ⟨rfl, rfl, rfl⟩ : a0 = b0 ∧ a1 = b1 ∧ a2 = b2 := args
    have past := Libmem.read_withPast (m'.procs P).mm.pastPgd (m.task P).krnl env.driver (a0.setWidth 32) a1
    rw [← alike.krnl] at past
    simp only [Machine.execute, libread, past]
    generalize Libmem.read env.driver (m.task P).krnl 0 (a0.setWidth 32) a1 = result
    obtain ⟨k, _ | byte⟩ := result
    · exact .ok (alike.store _ k _ _) (-1)
    · simp only [Option.map_some]
      cases regIndex a2.toNat with
      | error fault => exact .error fault
      | ok slot => exact .ok (alike.store _ k _ _) 0
  | write =>
    obtain ⟨rfl, rfl, rfl⟩ : a0 = b0 ∧ a1 = b1 ∧ a2 = b2 := args
    have past := Libmem.write_withPast (m'.procs P).mm.pastPgd (m.task P).krnl env.driver (a1.setWidth 32) a2
      (a0.setWidth 8)
    rw [← alike.krnl] at past
    simp only [Machine.execute, libwrite, past]
    exact .ok (alike.store _ _ _ _) _
  | syscall =>
    obtain rfl : a0 = b0 := args.1
    exact alike.libsyscall env uses

end Machine.Alike

/-- What the next instructions of two machines read of uninitialised memory is the same. -/
def Machine.SameReads (runningList : List ι) (P : ι) (m m' : Machine ι) : Prop :=
  ∀ ins ins', (m.procs P).text[(m.procs P).pc]? = some ins → (m'.procs P).text[(m'.procs P).pc]? = some ins' →
    m.SameUses runningList P m' ins ins'

theorem Machine.Alike.run (alike : m.Alike P m') (env : Env) (reads : m.SameReads runningList P m') :
    AlikeResults P (m.run env runningList P) (m'.run env runningList P) := by
  rw [Machine.run, Machine.run]
  cases next : (m.procs P).text[(m.procs P).pc]? with
  | none =>
    have ended : (m'.procs P).text[(m'.procs P).pc]? = none := by
      rw [List.getElem?_eq_none_iff] at next ⊢
      rw [alike.proc.pc, alike.proc.size]
      exact next
    rw [ended]
    exact .ok alike 1
  | some ins =>
    obtain ⟨ins', next'⟩ : ∃ ins', (m'.procs P).text[(m'.procs P).pc]? = some ins' := by
      have inside := (List.getElem?_eq_some_iff.mp next).1
      rw [← alike.proc.pc, ← alike.proc.size] at inside
      exact ⟨_, List.getElem?_eq_getElem inside⟩
    obtain ⟨args, free, stats, raw⟩ := reads ins ins' next next'
    rw [next']
    refine alike.advance.execute env ⟨args, ?_, ?_, ?_⟩
    · simp only [Machine.advance, Function.update_self]
      exact free
    · rw [m.advance_findPid, m.advance_mm, m'.advance_mm]
      exact stats
    · rw [m.advance_rawRequest]
      simp only [Machine.advance, Function.update_self]
      exact raw

end SimpleOS.Model
