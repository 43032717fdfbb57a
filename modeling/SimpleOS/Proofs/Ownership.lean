import SimpleOS.Proofs.Calls

/-! # Ownership of frames over all runs

`Machine.Step.kernel` reduces a step of the machine to the kernel routine of its call, with the
other processes as the background. Ownership then holds initially, is kept by every step and so
holds in every reachable state.
-/

namespace SimpleOS.Model

open Lib

variable {ι : Type} [DecidableEq ι] {m m' : Machine ι} {P : ι} {n : ℕ} {driver : Driver} {e : Event ι}

/-- The root directories of all processes. -/
def Machine.roots (m : Machine ι) : ι → Fin 512 → Addr := fun Q => (m.procs Q).mm.pgd

/-- The forest of all page tables. -/
def Machine.links (m : Machine ι) : Links (Root ι) 512 := tableLinks m.roots m.mram

theorem Machine.roots_task (m : Machine ι) (P : ι) : rootsOf m.roots P (m.task P).krnl = m.roots :=
  Function.update_eq_self P m.roots

theorem Machine.links_task (m : Machine ι) (P : ι) : (m.task P).krnl.links m.roots P = m.links := by
  rw [Krnl.links, m.roots_task]
  rfl

/-- `m'` is `m` with the kernel state `k` stored back for `P`. -/
structure Machine.Leaves (m : Machine ι) (P : ι) (k : Krnl) (m' : Machine ι) : Prop where
  self : (m'.procs P).mm = k.mm
  other : ∀ Q, Q ≠ P → m'.procs Q = m.procs Q
  mram : m'.mram = k.mram

theorem Machine.Leaves.roots {k : Krnl} (leaves : m.Leaves P k m') : m'.roots = rootsOf m.roots P k := by
  funext Q
  by_cases here : Q = P
  · subst here
    rw [rootsOf, Function.update_self, Machine.roots, leaves.self]
  · rw [rootsOf, Function.update_of_ne here, Machine.roots, leaves.other Q here]
    rfl

theorem Machine.Leaves.links {k : Krnl} (leaves : m.Leaves P k m') : m'.links = k.links m.roots P := by
  rw [Machine.links, Krnl.links, leaves.roots, leaves.mram]

theorem Machine.leaves_put {t : Task} (m : Machine ι) (P : ι) : m.Leaves P t.krnl (m.put P t) where
  self := by simp only [Machine.put, Function.update_self]; rfl
  other Q different := by simp only [Machine.put, Function.update_of_ne different]
  mram := rfl

/-- What a completed call leaves is what its kernel routine leaves; `libfree` may not reach it. -/
theorem Call.perform_krnl {t t' : Task} {call : Call} {reply : Reply}
    (performed : call.perform driver t = .ok (t', reply)) :
    t'.krnl = call.kernel driver t.krnl ∨ (∃ reg, call = .free reg) ∧ t'.krnl = t.krnl := by
  cases call with
  | alloc size reg =>
    simp only [perform, liballoc, kernel] at performed ⊢
    generalize Libmem.alloc t.krnl 0 reg size = result at performed
    rcases result with ⟨k, _ | addr⟩
    · cases performed
      exact .inl rfl
    · simp only [regIndex] at performed
      split_ifs at performed
      · cases performed
        exact .inl rfl
      · cases performed
  | free reg =>
    simp only [perform, libfree, kernel] at performed ⊢
    simp only [regIndex] at performed
    split_ifs at performed with bound
    · simp only [bind, Except.bind] at performed
      split_ifs at performed with zero
      · cases performed
        exact .inr ⟨⟨reg, rfl⟩, rfl⟩
      · cases performed
        exact .inl rfl
    · cases performed
  | read source offset =>
    cases performed
    exact .inl rfl
  | write v destination offset =>
    cases performed
    exact .inl rfl
  | inc a2 a3 =>
    cases performed
    exact .inl rfl

/-- `libfree` reports what `__free` does, or stops at a register that holds 0. -/
theorem Call.perform_free {t t' : Task} {reg : BitVec 32} {reply : Reply}
    (performed : Call.perform driver t (.free reg) = .ok (t', reply)) :
    t' = t ∨ t' = t.setKrnl (Libmem.free t.krnl reg).1 ∧ reply = ⟨(Libmem.free t.krnl reg).2, none⟩ := by
  simp only [perform, libfree, regIndex] at performed
  split_ifs at performed with bound
  · simp only [bind, Except.bind] at performed
    split_ifs at performed with zero
    · cases performed
      exact .inl rfl
    · cases performed
      exact .inr ⟨rfl, rfl⟩
  · cases performed

/-- A call whose index lies inside the register file completes. -/
theorem Call.perform_ok (driver : Driver) (t : Task) {call : Call} (inRegs : call.InRegs) :
    ∃ result, call.perform driver t = .ok result := by
  cases call with
  | alloc size reg =>
    simp only [perform, liballoc]
    generalize Libmem.alloc t.krnl 0 reg size = result
    rcases result with ⟨k, _ | addr⟩
    · exact ⟨_, rfl⟩
    · simp only [regIndex, dif_pos (inRegs reg rfl)]
      exact ⟨_, rfl⟩
  | free reg =>
    simp only [perform, libfree, regIndex, dif_pos (inRegs reg rfl)]
    simp only [bind, Except.bind]
    split_ifs <;> exact ⟨_, rfl⟩
  | read source offset => exact ⟨_, rfl⟩
  | write v destination offset => exact ⟨_, rfl⟩
  | inc a2 a3 => exact ⟨_, rfl⟩

/-- A step stores back what the kernel routine of its call leaves, or nothing. -/
theorem Machine.Step.kernel (step : Machine.Step driver m e m') :
    ∃ k, m.Leaves e.proc k m' ∧
      (k = e.call.kernel driver (m.task e.proc).krnl ∨
        (∃ reg, e.call = .free reg) ∧ k = (m.task e.proc).krnl) := by
  cases step with
  | call performed => exact ⟨_, Machine.leaves_put m _, Call.perform_krnl performed⟩
  | wild faulted routine => exact ⟨_, Machine.leaves_put m _, routine⟩

/-- A step acts on the regions of its process and on no others; `libfree` may leave them alone. -/
theorem Machine.Step.regions (step : Machine.Step driver m e m') (P : ι) :
    e.proc = P ∧ (m'.procs P).mm.regions =
      (m.procs P).mm.regions.act (e.call.action (m.procs P).mm) ∨
    (e.proc = P → ∃ reg, e.call = .free reg) ∧ (m'.procs P).mm.regions = (m.procs P).mm.regions := by
  obtain ⟨k, leaves, routine⟩ := step.kernel
  by_cases here : P = e.proc
  · subst here
    rw [leaves.self]
    rcases routine with rfl | ⟨freed, rfl⟩
    · exact .inl ⟨rfl, Call.kernel_regions driver (m.task e.proc).krnl e.call⟩
    · exact .inr ⟨fun _ => freed, rfl⟩
  · rw [leaves.other P here]
    exact .inr ⟨fun self => absurd self.symm here, rfl⟩

omit [DecidableEq ι] in
theorem Machine.boot_initial (n : ℕ) (pid : ι → BitVec 32) (text : ι → List Inst) :
    (Machine.boot n pid text).Initial n :=
  ⟨⟨_, rfl⟩, fun _ => ⟨_, rfl⟩⟩

/-- A write always completes, with the status of `__write`. -/
theorem Machine.step_write (m : Machine ι) (P : ι) (v : BitVec 8) (destination : BitVec 32) (offset : Addr) :
    let result := Libmem.write driver (m.task P).krnl 0 destination offset v
    Machine.Step driver m
      ⟨P, .write v destination offset, Call.requested (m.procs P).mm (.write v destination offset),
        some ⟨result.2, none⟩⟩ (m.put P ((m.task P).setKrnl result.1)) :=
  .call rfl

/-- A read that `__read` serves returns its byte widened. -/
theorem Machine.step_read (m : Machine ι) (P : ι) (source : BitVec 32) (offset : Addr) {byte : BitVec 8}
    (delivered : (Libmem.read driver (m.task P).krnl 0 source offset).2 = some byte) :
    Machine.Step driver m
      ⟨P, .read source offset, Call.requested (m.procs P).mm (.read source offset),
        some ⟨0, some (byte.signExtend 32)⟩⟩
      (m.put P ((m.task P).setKrnl (Libmem.read driver (m.task P).krnl 0 source offset).1)) := by
  refine .call ?_
  simp only [Call.perform, libread, delivered]
  rfl

theorem symIndex_reg : ∀ reg : Fin 10,
    symIndex (BitVec.ofNat 32 reg) = some (reg.castLE (by omega)) := by
  decide

theorem regIndex_reg (reg : Fin 10) : regIndex (BitVec.ofNat 32 reg).toNat = .ok reg := by
  have bound := reg.isLt
  have value : (BitVec.ofNat 32 reg).toNat = reg := by
    rw [BitVec.toNat_ofNat, Nat.mod_eq_of_lt (by omega)]
  rw [regIndex, dif_pos (by omega)]
  exact congrArg Except.ok (Fin.ext value)

/-- A task after an allocation into a free slot of the register file: the region is placed at the top. -/
def Task.allocated (t : Task) (reg : Fin 10) (size : Addr) : Task :=
  let placed := t.setKrnl (t.krnl.placed (reg.castLE (by omega)) size)
  { placed with proc := { placed.proc with
    regs := Function.update placed.proc.regs reg t.proc.mm.regions.top } }

theorem liballoc_free {t : Task} {reg : Fin 10} (size : Addr)
    (free : ¬(t.proc.mm.symrgtbl (reg.castLE (by omega))).Live) :
    liballoc t size (BitVec.ofNat 32 reg) = .ok (t.allocated reg size, 0) := by
  rw [liballoc]
  rcases Libmem.alloc_cases t.krnl (BitVec.ofNat 32 reg) size with ⟨-, used⟩ | ⟨slot, index', -, allocated⟩
  · exact absurd (used _ (symIndex_reg reg)) free
  · rw [symIndex_reg reg] at index'
    cases index'
    rw [allocated, regIndex_reg]
    rfl

theorem Machine.step_alloc (m : Machine ι) (P : ι) (size : Addr) (reg : Fin 10)
    (free : ¬((m.procs P).mm.symrgtbl (reg.castLE (by omega))).Live) :
    Machine.Step driver m
      ⟨P, .alloc size (BitVec.ofNat 32 reg),
        Call.requested (m.procs P).mm (.alloc size (BitVec.ofNat 32 reg)), some ⟨0, none⟩⟩
      (m.put P ((m.task P).allocated reg size)) := by
  refine .call ?_
  rw [Call.perform, liballoc_free (t := m.task P) size free]
  rfl

theorem Machine.step_inc (m : Machine ι) (P : ι) (a2 a3 : Addr) :
    Machine.Step driver m ⟨P, .inc a2 a3, Call.requested (m.procs P).mm (.inc a2 a3), some ⟨0, none⟩⟩
      (m.put P ((m.task P).setKrnl (sysmemInc (m.task P).krnl a2 a3).1)) :=
  .call rfl

/-- Every frame of the machine has one owner. -/
def Machine.Owned (n : ℕ) (m : Machine ι) : Prop := Model.Owned n m.links m.mram

omit [DecidableEq ι] in
theorem Machine.Initial.owned (initial : m.Initial n) (small : n ≤ 8192) : m.Owned n := by
  obtain ⟨⟨contents, mram⟩, fresh⟩ := initial
  have unused : ∀ r path f, m.links.frameAt r path ≠ some f := by
    intro r path
    induction path with
    | nil =>
      obtain ⟨heap, mm⟩ := fresh r.1
      intro f
      simp only [Links.frameAt, Machine.links, tableLinks, Machine.roots, mm, initMm]
      change child 0#64 ≠ some f
      simp
    | cons j path ih =>
      intro f
      cases above : m.links.frameAt r path with
      | none => simp [Links.frameAt, above]
      | some g => exact absurd above (ih g)
  have free : m.mram.freeFpList = List.range n := by rw [mram]; rfl
  refine ⟨⟨small, by rw [mram]; rfl, ?_, ?_, ?_, ?_, ?_⟩, ?_, ?_⟩
  · rw [free]
    exact List.nodup_range
  · rw [free]
    exact fun f member => List.mem_range.mp member
  · rintro f ⟨r, path, -, reached⟩
    exact absurd reached (unused r path f)
  · rintro f ⟨r, path, -, reached⟩
    exact absurd reached (unused r path f)
  · intro r path r' path' f short short' reached
    exact absurd reached (unused r path f)
  · rw [free]
    cases n with
    | zero => simp
    | succ n => simp [List.range_succ_eq_map]
  · intro f bound
    rw [free]
    exact .inl (List.mem_range.mpr bound)

theorem Machine.Owned.krnl (owned : m.Owned n) (P : ι) :
    Model.Owned n ((m.task P).krnl.links m.roots P) (m.task P).krnl.mram := by
  rw [m.links_task]
  exact owned

/-- The entries that a process reads are those of its tree. -/
theorem Machine.Owned.entry (owned : m.Owned n) (Q : ι) (pgn : Addr) : pteGetEntry (m.task Q).krnl pgn =
    (wordAt m.roots m.mram (pageRoot Q pgn) (pdOf pgn).tablePath (pdOf pgn).pt).setWidth 32 := by
  rw [pteGetEntry_eq ((owned.krnl Q).frames.mono (by omega)) pgn, m.roots_task]
  rfl

theorem Machine.Owned.step (owned : m.Owned n) (step : Machine.Step driver m e m') : m'.Owned n := by
  obtain ⟨k, leaves, routine⟩ := step.kernel
  rw [Machine.Owned, leaves.links, leaves.mram]
  rcases routine with rfl | ⟨-, rfl⟩
  · exact Call.kernel_owned (owned.krnl e.proc) e.call
  · exact owned.krnl e.proc

theorem Machine.Owned.run {labels : List (Event ι)} (owned : m.Owned n)
    (run : Run (Machine.Step driver) m labels m') : m'.Owned n :=
  run.keeps owned fun _ _ _ owned step => owned.step step

end SimpleOS.Model
