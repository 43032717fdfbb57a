import SimpleOS.Lib.Views
import SimpleOS.Proofs.PrivateMemory
import SimpleOS.Soundness.Demand
import SimpleOS.Spec.Process

/-! # Each process has a memory of its own

Behind the frames and tables that all processes share, each process computes as `Process.next` says: an instruction
has the effect it has for a process on its own, and no other process sees it. This holds as long as there are
frames for the pages that the programs access, the free ones are zero, and no system call reaches for the page tables
or the RAM.
-/

namespace SimpleOS.Model

open Lib

variable {ι : Type} [DecidableEq ι] {others : ι → Fin 512 → Addr} {P Q : ι} {t t' : Task} {k : Krnl} {n : ℕ}

/-- A task as its process sees it. -/
def Task.view (others : ι → Fin 512 → Addr) (P : ι) (t : Task) : Process :=
  ⟨t.proc.text, t.proc.pc, t.proc.regs, t.proc.mm.regions, byteSeen (t.krnl.links others P) t.mram P⟩

/-- The register file after a write at an index below 10. -/
def Task.setReg (t : Task) (reg : Fin 10) (v : Addr) : Task :=
  { t with proc := { t.proc with regs := Function.update t.proc.regs reg v } }

private theorem Task.view_setReg (t : Task) {index : ℕ} {reg : Fin 10} (inRegs : regIndex index = .ok reg) (v : Addr) :
    (t.setReg reg v).view others P = (t.view others P).setReg index v := by
  have bound : index < 10 := (regIndex_ok_iff index).mp ⟨reg, inRegs⟩
  rw [regIndex, dif_pos bound] at inRegs
  obtain rfl := Except.ok.inj inRegs
  rw [Process.setReg, dif_pos bound]
  rfl

private theorem Task.view_setKrnl {bytes : BitVec 22 → BitVec 8} (shows : Shows others P t.krnl k bytes) :
    (t.setKrnl k).view others P = { t.view others P with regions := k.mm.regions, bytes := bytes } := by
  rw [← shows.own]
  rfl

/-- After an instruction of `P` the process is in the state `s`, and the others see what they saw. -/
structure Task.Becomes (others : ι → Fin 512 → Addr) (P : ι) (t t' : Task) (s : Process) : Prop where
  view : t'.view others P = s
  foreign : ∀ Q, Q ≠ P →
    byteSeen (t'.krnl.links others P) t'.mram Q = byteSeen (t.krnl.links others P) t.mram Q
  blank : t'.mram.Blank

theorem Task.Becomes.refl (others : ι → Fin 512 → Addr) (P : ι) (blank : t.mram.Blank) :
    t.Becomes others P t (t.view others P) := ⟨rfl, fun _ _ => rfl, blank⟩

private theorem Shows.becomes {bytes : BitVec 22 → BitVec 8} (shows : Shows others P t.krnl k bytes) {R : Regions}
    (regions : k.mm.regions = R) :
    t.Becomes others P (t.setKrnl k) { t.view others P with regions := R, bytes := bytes } :=
  ⟨by rw [← regions, Task.view_setKrnl shows], shows.foreign, shows.blank⟩

private theorem Task.Becomes.setReg {s : Process} (becomes : t.Becomes others P t' s) {index : ℕ} {reg : Fin 10}
    (inRegs : regIndex index = .ok reg) (v : Addr) :
    t.Becomes others P (t'.setReg reg v) (s.setReg index v) :=
  ⟨by rw [Task.view_setReg t' inRegs v, becomes.view], becomes.foreign, becomes.blank⟩

private theorem liballoc_becomes (blank : t.mram.Blank) {size : Addr} {reg : BitVec 32} {status : Int}
    (completed : liballoc t size reg = .ok (t', status)) :
    t.Becomes others P t' ((t.view others P).alloc size reg) := by
  rw [liballoc] at completed
  rw [Process.alloc]
  obtain ⟨refused, live⟩ | ⟨slot, index, free, placed⟩ := Libmem.alloc_cases t.krnl reg size
  · rw [refused] at completed
    obtain ⟨rfl, -⟩ := Prod.mk.inj (Except.ok.inj completed)
    cases index : symIndex reg with
    | none => exact .refl others P blank
    | some slot =>
      have taken : ((t.view others P).regions.symrgtbl slot).Live := live slot index
      simp only [if_pos taken]
      exact .refl others P blank
  · have empty : ¬((t.view others P).regions.symrgtbl slot).Live := free
    have same : ShowsSame others P t.krnl (t.krnl.placed slot size) := .of_same blank rfl rfl
    rw [placed] at completed
    simp only [index, if_neg empty]
    cases inRegs : regIndex reg.toNat with
    | error fault =>
      simp only [inRegs] at completed
      cases completed
    | ok reg' =>
      simp only [inRegs] at completed
      obtain ⟨rfl, -⟩ := Prod.mk.inj (Except.ok.inj completed)
      exact (same.becomes (t.krnl.placed_regions slot size)).setReg inRegs _

private theorem libfree_becomes (blank : t.mram.Blank) {reg : BitVec 32} {status : Int}
    (completed : libfree t reg = .ok (t', status)) : t.Becomes others P t' ((t.view others P).free reg) := by
  rw [libfree] at completed
  cases inRegs : regIndex reg.toNat with
  | error fault =>
    simp only [inRegs] at completed
    cases completed
  | ok reg' =>
    have bound : reg.toNat < 10 := (regIndex_ok_iff _).mp ⟨reg', inRegs⟩
    rw [regIndex, dif_pos bound] at inRegs
    obtain rfl := Except.ok.inj inRegs
    rw [regIndex, dif_pos bound] at completed
    rw [Process.free, dif_pos bound]
    change (if t.proc.regs _ = 0 then _ else _) = _ at completed
    by_cases zero : t.proc.regs ⟨reg.toNat, bound⟩ = 0
    · rw [if_pos zero] at completed
      obtain ⟨rfl, -⟩ := Prod.mk.inj (Except.ok.inj completed)
      rw [if_pos (show (t.view others P).regs _ = 0 from zero)]
      exact .refl others P blank
    · rw [if_neg zero] at completed
      rw [if_neg (show ¬(t.view others P).regs _ = 0 from zero)]
      obtain ⟨rfl, -⟩ := Prod.mk.inj (Except.ok.inj completed)
      obtain ⟨pgd, mram⟩ := Libmem.free_memory t.krnl reg
      have same : ShowsSame others P t.krnl (Libmem.free t.krnl reg).1 := .of_same blank pgd mram
      exact same.becomes (Call.kernel_regions .head t.krnl (.free reg))

/-- Where `__read` and `__write` look. -/
private theorem Libmem.target_address (k : Krnl) (rgid : BitVec 32) (offset : Addr) :
    (target k 0 rgid offset).1.mm.regions = k.mm.regions.act (Process.opening k.mm.regions rgid) ∧
      (target k 0 rgid offset).2 = Process.address (target k 0 rgid offset).1.mm.regions rgid offset := by
  refine ⟨(target_opened k rgid offset).1.regions, ?_⟩
  rw [target, Process.address]
  cases index : symIndex rgid with
  | none => rfl
  | some slot =>
    by_cases live : (k.mm.symrgtbl slot).Live
    · simp only [if_pos live]
      rfl
    · rcases alloc_cases k rgid 100 with ⟨-, used⟩ | ⟨slot', -, -, allocated⟩
      · exact absurd (used slot index) live
      · simp only [if_neg live, allocated]
        rfl

/-- A read delivers the byte that the process sees, into a register. -/
private theorem libread_becomes (owned : Owned n (t.krnl.links others P) t.mram) (blank : t.mram.Blank)
    (driver : Driver) (source : BitVec 32) (offset : Addr)
    (served : (Libmem.read driver t.krnl 0 source offset).2.isSome ↔
      (Libmem.target t.krnl 0 source offset).2.isSome) (index : ℕ) :
    ((libread driver t source offset).2 = none → t.Becomes others P (libread driver t source offset).1
      ((t.view others P).read source offset index)) ∧
    ∀ value reg, (libread driver t source offset).2 = some value → regIndex index = .ok reg →
      t.Becomes others P ((libread driver t source offset).1.setReg reg (value.setWidth 64))
        ((t.view others P).read source offset index) := by
  obtain ⟨shows, value⟩ := Libmem.read_shows owned blank driver source offset
  obtain ⟨regions, address⟩ := Libmem.target_address t.krnl source offset
  have becomes := shows.becomes ((Libmem.read_same driver t.krnl source offset).regions.trans regions)
  rw [regions] at address
  have looked : Process.address ((t.view others P).opened source).regions source offset =
      (Libmem.target t.krnl 0 source offset).2 := address.symm
  have delivered : (libread driver t source offset).2 =
      (Libmem.read driver t.krnl 0 source offset).2.map fun byte => byte.signExtend 32 := rfl
  rw [delivered]
  refine ⟨fun nothing => ?_, fun value' reg found inRegs => ?_⟩
  · rw [Option.map_eq_none_iff.mp nothing] at served
    cases target : (Libmem.target t.krnl 0 source offset).2 with
    | none =>
      rw [Process.read_refused (looked.trans target)]
      exact becomes
    | some addr =>
      rw [target] at served
      exact absurd (served.mpr rfl) (by simp)
  · obtain ⟨byte, read, rfl⟩ := Option.map_eq_some_iff.mp found
    rw [read] at served
    cases target : (Libmem.target t.krnl 0 source offset).2 with
    | none =>
      rw [target] at served
      exact absurd (served.mp rfl) (by simp)
    | some addr =>
      rw [value byte addr read target, Process.read_at (looked.trans target)]
      exact becomes.setReg inRegs _

/-- A write changes the byte that the process sees. -/
private theorem libwrite_becomes (owned : Owned n (t.krnl.links others P) t.mram) (blank : t.mram.Blank)
    (driver : Driver) (data : BitVec 8) (destination : BitVec 32) (offset : Addr)
    (served : (Libmem.write driver t.krnl 0 destination offset data).2 = 0 ↔
      (Libmem.target t.krnl 0 destination offset).2.isSome) :
    t.Becomes others P (libwrite driver t data destination offset).1
      ((t.view others P).write data destination offset) := by
  have shows := Libmem.write_shows owned blank driver destination offset data
  obtain ⟨regions, address⟩ := Libmem.target_address t.krnl destination offset
  have becomes := shows.becomes ((Libmem.write_same driver t.krnl destination offset data).regions.trans regions)
  rw [regions] at address
  have looked : Process.address ((t.view others P).opened destination).regions destination offset =
      (Libmem.target t.krnl 0 destination offset).2 := address.symm
  cases target : (Libmem.target t.krnl 0 destination offset).2 with
  | none =>
    rw [Process.write_refused (looked.trans target)]
    simp only [target] at becomes
    exact becomes
  | some addr =>
    rw [Process.write_at (looked.trans target)]
    rw [target] at served
    simp only [target, if_pos (served.mpr rfl)] at becomes
    exact becomes

variable {m m' : Machine ι} {env : Env} {runningList : List ι} {ins : Inst} {status : Int}

/-- The process `P` of a machine as it sees itself. -/
def Machine.view (m : Machine ι) (P : ι) : Process :=
  ⟨(m.procs P).text, (m.procs P).pc, (m.procs P).regs, (m.procs P).mm.regions, byteSeen m.links m.mram P⟩

private theorem Machine.view_task (m : Machine ι) (P : ι) : (m.task P).view m.roots P = m.view P := by
  rw [Task.view, m.links_task]
  rfl

/-- An instruction of `P` takes the process to the state `s`, and the others stay where they are. -/
structure Machine.Turns (m : Machine ι) (P : ι) (m' : Machine ι) (s : Process) : Prop where
  own : m'.view P = s
  others : ∀ Q, Q ≠ P → m'.view Q = m.view Q
  blank : m'.mram.Blank

private theorem Task.Becomes.turns {s : Process} (becomes : (m.task P).Becomes m.roots P t' s) :
    m.Turns P (m.put P t') s := by
  have leaves := m.leaves_put P (t := t')
  refine ⟨?_, fun Q other => ?_, becomes.blank⟩
  · have self : (m.put P t').procs P = t'.proc := Function.update_self ..
    rw [← becomes.view, Machine.view, leaves.links, self]
    rfl
  · have foreign := becomes.foreign Q other
    rw [m.links_task] at foreign
    rw [Machine.view, Machine.view, leaves.links, leaves.other Q other]
    exact congrArg _ foreign

/-- A system call that does not reach for the tables, the areas or the RAM. -/
def Inst.Local (ins : Inst) : Prop :=
  ins.opcode = .syscall → (ins.arg0.setWidth 32).toNat = 17 →
    (ins.arg1.setWidth 32).toNat ∉ [sysmemMapOp, sysmemIncOp, sysmemIoRead, sysmemIoWrite]

/-- What is left of the local system calls touches the swap device at most. -/
private theorem Machine.Served.local {runningList : List ι} (ins_local : ins.Local) (syscall : ins.opcode = .syscall)
    (served : Machine.Served env m runningList P (ins.arg0.setWidth 32) ins.arg1 ins.arg2 ins.arg3 m') :
    ∃ mswp, m' = { m with mswp } := by
  have unused := ins_local syscall
  simp only [List.mem_cons, List.not_mem_nil, or_false, not_or] at unused
  cases served with
  | nothing => exact ⟨m.mswp, rfl⟩
  | mapped memmap found request => exact absurd request (unused memmap).1
  | grown memmap found request => exact absurd request (unused memmap).2.1
  | swapped => exact ⟨_, by rw [Machine.mmSwapPage]⟩

/-- The pages that an instruction may fault in. -/
def Inst.accesses (ins : Inst) : ℕ :=
  match ins.opcode with
  | .read => 1
  | .write => 1
  | _ => 0

def accesses (text : List Inst) : ℕ := (text.map Inst.accesses).sum

/-- The frames that a program can come to hold: its pages and the tables above them. -/
def frameBudget (text : List Inst) : ℕ := min 1029 (5 + accesses text)

private theorem accesses_take_le (text : List Inst) (pc : ℕ) : accesses (text.take pc) ≤ accesses text := by
  conv_rhs => rw [← List.take_append_drop pc text]
  rw [accesses, accesses, List.map_append, List.sum_append]
  exact Nat.le_add_right _ _

private theorem accesses_take_succ {text : List Inst} {pc : ℕ} {ins : Inst} (found : text[pc]? = some ins) :
    accesses (text.take (pc + 1)) = accesses (text.take pc) + ins.accesses := by
  rw [List.take_add_one, found, accesses, accesses, List.map_append, List.sum_append]
  simp

private theorem Inst.call_accesses {ins : Inst} {call : Call} (found : ins.call = some call) :
    call.accesses ≤ ins.accesses := by
  obtain ⟨opcode, arg0, arg1, arg2, arg3⟩ := ins
  cases opcode <;> cases found <;> exact le_rfl

/-- What processes need to have their memories for themselves: frames for all pages that they access, and no page is
filled without an access. -/
structure Machine.Private [Fintype ι] (n : ℕ) (m : Machine ι) : Prop extends m.Accounted n where
  blank : m.mram.Blank
  enough : ∑ Q, frameBudget (m.procs Q).text ≤ n
  left : ∀ Q, 1024 ≤ leftPages m.links Q + accesses ((m.procs Q).text.take (m.procs Q).pc)

/-- The page of the next access can get a frame. -/
private theorem Machine.Private.affords [Fintype ι] (private_ : m.Private n) (P : ι)
    (found : (m.procs P).text[(m.procs P).pc]? = some ins) (access : 0 < ins.accesses) (addr : BitVec 32)
    (absent : pagingPtePresent (pteGetEntry (m.task P).krnl (pageOf addr)) = false) :
    (m.task P).krnl.Affords m.roots P (pageOf addr) := by
  have pages := private_.owned.leftPages_pos addr absent
  apply Machine.affords
  apply private_.funded.room private_.enough
  · intro Q
    have split := demand_split m.links Q
    have left := private_.left Q
    have taken := accesses_take_le (m.procs Q).text (m.procs Q).pc
    rw [frameBudget]
    omega
  · have left := private_.left P
    have taken := accesses_take_le (m.procs P).text ((m.procs P).pc + 1)
    rw [accesses_take_succ found] at taken
    rw [frameBudget]
    omega

/-- What an instruction leaves of the frames and the pages. -/
private theorem Machine.Accounted.execute [Fintype ι] (accounted : m.Accounted n) (ins_local : ins.Local)
    (completed : m.execute env runningList P ins = .ok (m', status)) :
    m'.Accounted n ∧ leftPages m.links P ≤ leftPages m'.links P + ins.accesses ∧
      ∀ Q, Q ≠ P → leftPages m'.links Q = leftPages m.links Q := by
  rcases Machine.execute_cases completed with ⟨-, rfl⟩ | ⟨call, t, made, rfl, stored⟩ | ⟨syscall, served⟩
  · exact ⟨accounted, Nat.le_add_right _ _, fun _ _ => rfl⟩
  · have leaves := m.leaves_put P (t := t)
    have pays : Pays m.roots P ins.accesses (m.task P).krnl t.krnl := by
      rcases stored with routine | ⟨-, same⟩
      · rw [routine]
        exact (call.kernel_pays (accounted.owned.krnl P) env.driver).mono (Inst.call_accesses made)
      · rw [same]
        exact .refl m.roots P _ _
    refine ⟨⟨(Machine.Keeps.of_call accounted.owned leaves stored).1, leaves.funded accounted.funded pays⟩, ?_, ?_⟩
    · have pages := pays.pages
      rw [m.links_task, ← leaves.links] at pages
      exact pages
    · intro Q other
      rw [leaves.links, (pays.other Q other).2, m.links_task]
  · obtain ⟨mswp, rfl⟩ := served.local ins_local syscall
    exact ⟨⟨accounted.owned, accounted.funded⟩, Nat.le_add_right _ _, fun _ _ => rfl⟩

/-- One instruction has the effect it has for a process on its own. -/
private theorem Machine.Owned.turns (owned_ : m.Owned n) (blank_ : m.mram.Blank) (ins_local : ins.Local)
    (affords : 0 < ins.accesses → ∀ addr, pagingPtePresent (pteGetEntry (m.task P).krnl (pageOf addr)) = false →
      (m.task P).krnl.Affords m.roots P (pageOf addr))
    (completed : m.execute env runningList P ins = .ok (m', status)) : m.Turns P m' ((m.view P).exec ins) := by
  have owned := owned_.krnl P
  have blank : (m.task P).mram.Blank := blank_
  rw [← m.view_task P]
  obtain ⟨opcode, arg0, arg1, arg2, arg3⟩ := ins
  cases opcode with
  | «calc» =>
    obtain ⟨rfl, -⟩ := Prod.mk.inj (Except.ok.inj completed)
    exact ⟨(m.view_task P).symm, fun _ _ => rfl, blank⟩
  | alloc =>
    obtain ⟨t, allocated, rfl⟩ := Machine.putResult_ok completed
    exact (liballoc_becomes blank allocated).turns
  | free =>
    obtain ⟨t, freed, rfl⟩ := Machine.putResult_ok completed
    exact (libfree_becomes blank freed).turns
  | read =>
    have served := Machine.succeeds (affords Nat.one_pos)
      (Libmem.read_accessed owned env.driver (arg0.setWidth 32) arg1)
    obtain ⟨failed, delivered⟩ := libread_becomes owned blank env.driver (arg0.setWidth 32) arg1 served arg2.toNat
    simp only [Machine.execute] at completed
    generalize libread env.driver (m.task P) (arg0.setWidth 32) arg1 = answer at failed delivered completed
    obtain ⟨t, _ | value⟩ := answer
    · obtain ⟨rfl, -⟩ := Prod.mk.inj (Except.ok.inj completed)
      exact (failed rfl).turns
    · cases index : regIndex arg2.toNat with
      | error fault =>
        simp only [index] at completed
        cases completed
      | ok reg =>
        simp only [index] at completed
        obtain ⟨rfl, -⟩ := Prod.mk.inj (Except.ok.inj completed)
        exact (delivered value reg rfl index).turns
  | write =>
    have served := Machine.succeeds (affords Nat.one_pos)
      (Libmem.write_accessed owned env.driver (arg1.setWidth 32) arg2 (arg0.setWidth 8))
    obtain ⟨rfl, -⟩ := Prod.mk.inj (Except.ok.inj completed)
    exact (libwrite_becomes owned blank env.driver (arg0.setWidth 8) (arg1.setWidth 32) arg2 served).turns
  | syscall =>
    obtain ⟨mswp, rfl⟩ := (Machine.libsyscall_served completed).local ins_local rfl
    exact ⟨(m.view_task P).symm, fun _ _ => rfl, blank⟩

private theorem Machine.Accounted.advance [Fintype ι] (accounted : m.Accounted n) (P : ι) :
    (m.advance P).Accounted n where
  owned := accounted.owned.advance P
  funded := by
    have funded := accounted.funded
    rw [Machine.Funded] at funded ⊢
    rw [m.advance_links]
    exact funded

private theorem Machine.view_advance (m : Machine ι) (P Q : ι) :
    (m.advance P).view Q = if Q = P then { m.view P with pc := (m.procs P).pc + 1 } else m.view Q := by
  rw [Machine.view, m.advance_links]
  by_cases own : Q = P
  · subst own
    have self : (m.advance Q).procs Q = { m.procs Q with pc := (m.procs Q).pc + 1 } := Function.update_self ..
    rw [if_pos rfl, self]
    rfl
  · have other : (m.advance P).procs Q = m.procs Q := Function.update_of_ne own _ _
    rw [if_neg own, other]
    rfl

/-- `run` takes a process one instruction further, as if it were alone, and no other process notices. -/
theorem Machine.Private.run [Fintype ι] (private_ : m.Private n) (text : ∀ ins ∈ (m.procs P).text, ins.Local)
    (completed : m.run env runningList P = .ok (m', status)) :
    m'.Private n ∧ m.Turns P m' (m.view P).next := by
  rcases Machine.run_cases completed with ⟨none_left, same⟩ | ⟨ins, found, executed⟩
  · rw [same]
    have here : (m.view P).text[(m.view P).pc]? = none := none_left
    rw [Process.next, here]
    exact ⟨private_, rfl, fun _ _ => rfl, private_.blank⟩
  · have here : (m.view P).text[(m.view P).pc]? = some ins := found
    have ins_local := text ins (List.mem_of_getElem? found)
    have affords : 0 < ins.accesses → ∀ addr,
        pagingPtePresent (pteGetEntry ((m.advance P).task P).krnl (pageOf addr)) = false →
          ((m.advance P).task P).krnl.Affords (m.advance P).roots P (pageOf addr) := by
      have roots : (m.advance P).roots = m.roots := funext fun Q => congrArg MmStruct.pgd (m.advance_mm P Q)
      rw [m.advance_krnl, roots]
      exact private_.affords P found
    have advanced := private_.toAccounted.advance P
    have turns := advanced.owned.turns private_.blank ins_local affords executed
    obtain ⟨accounted, own, foreign⟩ := advanced.execute ins_local executed
    rw [m.view_advance, if_pos rfl] at turns
    have next : (m.view P).next = { m.view P with pc := (m.procs P).pc + 1 }.exec ins := by
      rw [Process.next, here]
      rfl
    have others : ∀ Q, Q ≠ P → m'.view Q = m.view Q := by
      intro Q other
      rw [turns.others Q other, m.view_advance, if_neg other]
    have texts : ∀ Q, (m'.procs Q).text = (m.procs Q).text := by
      intro Q
      by_cases same : Q = P
      · subst same
        exact (congrArg Process.text turns.own).trans (Process.exec_stays _ _).1
      · exact congrArg Process.text (others Q same)
    refine ⟨⟨accounted, turns.blank, ?_, fun Q => ?_⟩, by rw [next]; exact turns.own, others, turns.blank⟩
    · simp only [texts]
      exact private_.enough
    · have left := private_.left Q
      rw [texts]
      by_cases same : Q = P
      · subst same
        have pc : (m'.procs Q).pc = (m.procs Q).pc + 1 :=
          (congrArg Process.pc turns.own).trans (Process.exec_stays _ _).2
        rw [m.advance_links] at own
        rw [pc, accesses_take_succ found]
        omega
      · have pc : (m'.procs Q).pc = (m.procs Q).pc := congrArg Process.pc (others Q same)
        rw [foreign Q same, m.advance_links, pc]
        exact left

/-- Every interleaving of the processes leaves each of them where its own instructions lead. -/
theorem Machine.Private.view_run [Fintype ι] {labels : List (ι × List ι)} (private_ : m.Private n)
    (text : ∀ P, ∀ ins ∈ (m.procs P).text, ins.Local) (run : Run (Machine.Exec env) m labels m') (P : ι) :
    m'.view P = Process.next^[labels.countP (·.1 = P)] (m.view P) := by
  have kept {before : List (ι × List ι)} {now : Machine ι} (earlier : Run (Machine.Exec env) m before now) :
      now.Private n ∧ ∀ Q, (now.procs Q).text = (m.procs Q).text := by
    apply earlier.keeps ⟨private_, fun _ => rfl⟩
    rintro now ⟨Q, runningList⟩ after ⟨here, texts⟩ ⟨status, completed⟩
    obtain ⟨there, turns⟩ := here.run (by rw [texts]; exact text Q) completed
    refine ⟨there, fun Q' => ?_⟩
    rw [← texts Q']
    by_cases own : Q' = Q
    · subst own
      exact (congrArg Process.text turns.own).trans (Process.next_text _)
    · exact congrArg Process.text (turns.others Q' own)
  have confined (before : List (ι × List ι)) (now : Machine ι) (label : ι × List ι) (after : Machine ι)
      (earlier : Run (Machine.Exec env) m before now) (taken : Machine.Exec env now label after) :
      Confines (fun Q now => Machine.view now Q) (fun label => some label.1) (fun _ => Process.next) now label after := by
    obtain ⟨status, completed⟩ := taken
    obtain ⟨here, texts⟩ := kept earlier
    obtain ⟨-, turns⟩ := here.run (by rw [texts]; exact text label.1) completed
    refine ⟨?_, fun Q other => turns.others Q fun same => other (congrArg some same.symm)⟩
    rintro _ ⟨⟩
    exact turns.own
  rw [run.view_iterate confined P]
  simp only [Option.some.injEq]

end SimpleOS.Model
