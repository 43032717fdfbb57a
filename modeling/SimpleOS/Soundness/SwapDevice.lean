import SimpleOS.Soundness.Completion

/-! # What the swap device holds

`__swap_cp_page` copies a frame byte by byte. Nothing else writes to the swap device, so in every state of the
simulator a swap frame holds the page that was last copied to it, whatever has happened to the RAM since.
-/

namespace SimpleOS.Model

open Lib

/-- The contents of a frame. -/
def Memphy.page (mp : Memphy) (fpn : ℕ) (offset : Fin pagingPagesz) : BitVec 8 :=
  mp.storage (fpn * pagingPagesz + offset)

/-- The bytes that `__swap_cp_page` reads. -/
def Memphy.fetched (env : Env) (mp : Memphy) (fpn offset : ℕ) : BitVec 8 :=
  (mp.read (fpn * pagingPagesz + offset)).getD (env.stale offset)

/-- A frame that ends inside the device. -/
def Memphy.Holds (mp : Memphy) (fpn : ℕ) : Prop := (fpn + 1) * pagingPagesz ≤ mp.maxsz

instance (mp : Memphy) (fpn : ℕ) : Decidable (mp.Holds fpn) := Nat.decLe _ _

namespace Memphy

variable {env : Env} {mp mpsrc mpdst : Memphy} {fpn srcfpn dstfpn : ℕ}

private theorem Holds.read (holds : mp.Holds fpn) {offset : ℕ} (inside : offset < pagingPagesz) :
    mp.read (fpn * pagingPagesz + offset) = some (mp.storage (fpn * pagingPagesz + offset)) := by
  rw [Holds, Nat.succ_mul] at holds
  rw [Memphy.read, if_pos (by omega)]

private theorem Holds.fetched (holds : mp.Holds fpn) (offset : Fin pagingPagesz) :
    mp.fetched env fpn offset = mp.page fpn offset := by
  rw [Memphy.fetched, holds.read offset.isLt]
  rfl

/-- As far as the device goes, the copied bytes are a block. -/
private theorem swapCpPage_storage (env : Env) (mpsrc : Memphy) (srcfpn : ℕ) (mpdst : Memphy) (dstfpn n : ℕ) :
    (∀ a < mpdst.maxsz, (swapCpPage env mpsrc srcfpn mpdst dstfpn n).storage a =
      mpdst.storage.writeBlock (dstfpn * pagingPagesz) n (mpsrc.fetched env srcfpn) a) ∧
    (swapCpPage env mpsrc srcfpn mpdst dstfpn n).maxsz = mpdst.maxsz ∧
    (swapCpPage env mpsrc srcfpn mpdst dstfpn n).freeFpList = mpdst.freeFpList := by
  induction n with
  | zero => exact ⟨fun a _ => by rw [Bytes.writeBlock_zero]; rfl, rfl, rfl⟩
  | succ n ih =>
    obtain ⟨copied, maxsz, free⟩ := ih
    rw [swapCpPage]
    generalize swapCpPage env mpsrc srcfpn mpdst dstfpn n = now at copied maxsz free ⊢
    by_cases inside : dstfpn * pagingPagesz + n < now.maxsz
    · rw [Memphy.write, if_pos inside]
      refine ⟨fun a bound => ?_, maxsz, free⟩
      rw [Bytes.writeBlock_succ]
      change now.storage.writeByte _ _ a = _
      by_cases here : a = dstfpn * pagingPagesz + n
      · rw [here, Bytes.writeByte_same, Bytes.writeByte_same]
        rfl
      · rw [Bytes.writeByte_ne _ here, Bytes.writeByte_ne _ here, copied a bound]
    · rw [Memphy.write, if_neg inside]
      refine ⟨fun a bound => ?_, maxsz, free⟩
      rw [Bytes.writeBlock_succ, Bytes.writeByte_ne _ (by omega)]
      exact copied a bound

/-- Exactly the destination frame changes. -/
private theorem swapCpPage_page (holds : mpdst.Holds fpn) :
    (swapCpPage env mpsrc srcfpn mpdst dstfpn pagingPagesz).page fpn =
      if fpn = dstfpn then fun offset : Fin pagingPagesz => mpsrc.fetched env srcfpn offset else mpdst.page fpn := by
  funext offset
  have bound := offset.isLt
  have inside : fpn * pagingPagesz + offset < mpdst.maxsz := by
    rw [Holds, Nat.succ_mul] at holds
    omega
  rw [page, (swapCpPage_storage env mpsrc srcfpn mpdst dstfpn pagingPagesz).1 _ inside]
  split_ifs with same
  · rw [same, Bytes.writeBlock_inside _ bound]
  · apply Bytes.writeBlock_outside
    obtain below | above := Nat.lt_or_gt_of_ne same
    · have apart := Nat.mul_le_mul_right pagingPagesz (Nat.succ_le_of_lt below)
      rw [Nat.succ_mul] at apart
      omega
    · have apart := Nat.mul_le_mul_right pagingPagesz (Nat.succ_le_of_lt above)
      rw [Nat.succ_mul] at apart
      omega

end Memphy

variable {ι : Type} [DecidableEq ι] {m m' : Machine ι} {env : Env} {P : ι} {runningList : List ι} {status : Int}

/-- The contents of a page, by the frame of the swap device it is copied to. -/
abbrev Saved := ℕ × (Fin pagingPagesz → BitVec 8)

/-- The contents of all frames, after pages have been saved to some. -/
def archive (initial : ℕ → Fin pagingPagesz → BitVec 8) (saves : List Saved) : ℕ → Fin pagingPagesz → BitVec 8 :=
  saves.foldl (fun pages save => Function.update pages save.1 save.2) initial

namespace Machine

/-- The page that the next instruction of `P` saves: a system call 17 with `SYSMEM_SWP_OP`, of a process on the
running list. -/
def saves (env : Env) (m : Machine ι) (runningList : List ι) (P : ι) : List Saved :=
  match (m.procs P).text[(m.procs P).pc]? with
  | none => []
  | some ins =>
    if ins.opcode = .syscall ∧ (ins.arg0.setWidth 32).toNat = 17 ∧ (ins.arg1.setWidth 32).toNat = sysmemSwpOp ∧
        m.findPid runningList (m.procs P).pid ≠ none then
      [((ins.arg3.setWidth 32).toNat, fun offset => m.mram.fetched env (ins.arg2.setWidth 32).toNat offset)]
    else []

/-- The swap device holds what has been saved to it. -/
def Archives (initial : Memphy) (m : Machine ι) (saves : List Saved) : Prop :=
  m.mswp.maxsz = initial.maxsz ∧ ∀ fpn, initial.Holds fpn → m.mswp.page fpn = archive initial.page saves fpn

private theorem put_mswp (m : Machine ι) (P : ι) (t : Task) : (m.put P t).mswp = m.mswp := rfl

/-- Only a system call that saves a page touches the swap device. -/
private theorem Served.mswp {nr : BitVec 32} {a1 a2 a3 : Addr} (served : Served env m runningList P nr a1 a2 a3 m') :
    m'.mswp =
    if nr.toNat = 17 ∧ (a1.setWidth 32).toNat = sysmemSwpOp ∧ m.findPid runningList (m.procs P).pid ≠ none then
      swapCpPage env m.mram (a2.setWidth 32).toNat m.mswp (a3.setWidth 32).toNat pagingPagesz
    else m.mswp := by
  cases served with
  | nothing other =>
    rw [if_neg]
    rintro ⟨memmap, save, known⟩
    exact (other memmap known).2.2 save
  | mapped memmap found request =>
    rw [if_neg, put_mswp]
    rintro ⟨-, save, -⟩
    rw [request] at save
    cases save
  | grown memmap found request =>
    rw [if_neg, put_mswp]
    rintro ⟨-, save, -⟩
    rw [request] at save
    cases save
  | swapped memmap found request =>
    rw [if_pos ⟨memmap, request, by simp [found]⟩, mmSwapPage]

theorem Archives.run {initial : Memphy} {past : List Saved} (archives : m.Archives initial past)
    (completed : m.run env runningList P = .ok (m', status)) :
    m'.Archives initial (past ++ m.saves env runningList P) := by
  have same (unsaved : m.saves env runningList P = []) (mswp : m'.mswp = m.mswp) :
      m'.Archives initial (past ++ m.saves env runningList P) := by
    rw [unsaved, List.append_nil, Archives, mswp]
    exact archives
  obtain ⟨ended, rfl⟩ | ⟨ins, next, executed⟩ := Machine.run_cases completed
  · exact same (by rw [saves, ended]) rfl
  obtain ⟨opcode, rfl⟩ | ⟨call, t, named, rfl, -⟩ | ⟨opcode, served⟩ := Machine.execute_cases executed
  · exact same (by simp [saves, next, opcode]) rfl
  · refine same ?_ rfl
    have other : ins.opcode ≠ .syscall := by
      intro opcode
      rw [Inst.call, opcode] at named
      cases named
    simp [saves, next, other]
  · have found : (m.advance P).findPid runningList ((m.advance P).procs P).pid =
        m.findPid runningList (m.procs P).pid := by
      simp only [findPid, advance_pid]
    have mswp := served.mswp
    rw [found] at mswp
    split_ifs at mswp with saved
    · obtain ⟨maxsz, pages⟩ := archives
      have save : m.saves env runningList P =
          [((ins.arg3.setWidth 32).toNat,
            fun offset : Fin pagingPagesz => m.mram.fetched env (ins.arg2.setWidth 32).toNat offset)] := by
        simp only [saves, next]
        rw [if_pos ⟨opcode, saved⟩]
      rw [Archives, mswp, save]
      refine ⟨?_, fun fpn holds => ?_⟩
      · exact (Memphy.swapCpPage_storage _ _ _ _ _ _).2.1.trans maxsz
      · have inside : m.mswp.Holds fpn := by
          rw [Memphy.Holds, maxsz]
          exact holds
        rw [archive, List.foldl_append, List.foldl_cons, List.foldl_nil, Function.update_apply]
        refine (Memphy.swapCpPage_page inside).trans ?_
        split_ifs
        · rfl
        · exact pages fpn holds
    · refine same ?_ mswp
      simp only [saves, next]
      rw [if_neg fun all => saved all.2]

end Machine

namespace Os

variable {c N : ℕ} {cfg : Config N} {s t : Os c N} {label : Label c}

/-- The page that the next step of a thread saves. -/
def saves (env : Env) (s : Os c N) : Label c → List Saved
  | .cpu i =>
    match (s.cpus i).loc with
    | .run p => s.mem.saves env s.sched.runningList p
    | _ => []
  | _ => []

private theorem archives_step {initial : Memphy} {past : List Saved} (archives : s.mem.Archives initial past)
    (taken : Step cfg env s label t) : t.mem.Archives initial (past ++ s.saves env label) := by
  have same (unsaved : s.saves env label = []) (mem : t.mem = s.mem) :
      t.mem.Archives initial (past ++ s.saves env label) := by
    rw [unsaved, List.append_nil, mem]
    exact archives
  cases label with
  | cpu i =>
    cases cpuStep_move taken with
    | run here ran =>
      rw [saves, here]
      exact archives.run ran
    | take empty got =>
      obtain here | here := empty <;> exact same (by simp [saves, here]) rfl
    | idle here | miss here | retire here | put here | keep here | leave here | skip here | dispatch here | start here
    | sleep here | wakeUp here | detach here => exact same (by simp [saves, here]) rfl
  | loader => cases loaderStep_move taken <;> exact same rfl rfl
  | timer | timerWake | cpuWake i | loaderWake | stop => cases Step.move taken <;> exact same rfl rfl

/-- Steps with a record of the pages they save. -/
abbrev Archiving (cfg : Config N) (env : Env) : Os c N × List Saved → Label c → Os c N × List Saved → Prop :=
  logged (saves env) (Step cfg env)

/-- In every run a frame of the swap device holds the page that was last saved to it, or what it held at the start;
and copying it to a frame of any device restores this page there and nothing else. -/
theorem swap_device {saved : List Saved} {labels : List (Label c)}
    (run : Run (Archiving cfg env) (Os.init cfg, []) labels (s, saved)) :
    ∀ fpn, cfg.mswp.Holds fpn → s.mem.mswp.page fpn = archive cfg.mswp.page saved fpn ∧
      ∀ (mp : Memphy) (dst other : ℕ), mp.Holds other →
        (swapCpPage env s.mem.mswp fpn mp dst pagingPagesz).page other =
          if other = dst then archive cfg.mswp.page saved fpn else mp.page other := by
  have first : (Os.init cfg : Os c N).mem.Archives cfg.mswp [] := ⟨rfl, fun _ _ => rfl⟩
  obtain ⟨-, maxsz, pages⟩ := Run.keeps_log (fun s saved => s.mem.Archives cfg.mswp saved) run first
    fun _ _ _ _ _ _ archives taken => archives_step archives taken
  intro fpn holds
  refine ⟨pages fpn holds, fun mp dst other inside => ?_⟩
  have whole : s.mem.mswp.Holds fpn := by
    rw [Memphy.Holds, maxsz]
    exact holds
  rw [Memphy.swapCpPage_page inside, ← pages fpn holds]
  split_ifs with same
  · funext offset
    exact whole.fetched offset
  · rfl

/-- Two processes save frames 2 and 3 of a RAM that is filled with frame numbers: in frames 1 and 4 of the swap
device. -/
theorem swap_device_of_two :
    let cfg : Config 2 :=
      { Config.atOnce 16 (fun p => [⟨.syscall, 17, 3, if p = 0 then 2 else 3, if p = 0 then 1 else 4⟩]) 0 with
        mram := initMemphy 16 fun a => BitVec.ofNat 8 (a / pagingPagesz) }
    let env : Env := ⟨.head, fun _ => 0⟩
    ∃ (s : Os 2 2) (saved : List Saved), Run (Archiving cfg env) (Os.init cfg, []) ((wholeRun 0 1).take 30) (s, saved) ∧
      ∃ offset, offset.val = 35 ∧ s.mem.mswp.page 1 offset = 2 ∧ s.mem.mswp.page 4 offset = 3 := by
  intro cfg env
  let offset : Fin pagingPagesz := ⟨35, by decide⟩
  let next (s : Os 2 2 × List Saved) (label : Label 2) :=
    (s.1.step cfg env label).map fun t => (t, s.2 ++ s.1.saves env label)
  have computed : (((wholeRun 0 1).take 30).foldlM next (Os.init cfg, [])).map
      (fun t => t.2.map fun save => (save.1, save.2 offset)) = some [(1, 2), (4, 3)] := by decide +kernel
  obtain ⟨⟨s, saved⟩, reached, values⟩ := Option.map_eq_some_iff.mp computed
  have run : Run (Archiving cfg env) (Os.init cfg, []) ((wholeRun 0 1).take 30) (s, saved) := by
    apply (Run.of_foldlM reached).mono
    intro now label after taken
    obtain ⟨t, moved, rfl⟩ := Option.map_eq_some_iff.mp taken
    exact ⟨moved, rfl⟩
  obtain ⟨first, later, rfl, value, values⟩ := List.map_eq_cons_iff.mp values
  obtain ⟨second, rfl, value'⟩ := List.map_eq_singleton_iff.mp values
  obtain ⟨frame, byte⟩ := Prod.mk.inj value
  obtain ⟨frame', byte'⟩ := Prod.mk.inj value'
  have device := swap_device run
  refine ⟨s, _, run, offset, rfl, ?_, ?_⟩
  · rw [(device 1 (by decide)).1, archive, List.foldl_cons, List.foldl_cons, List.foldl_nil, frame, frame',
      Function.update_of_ne (by decide), Function.update_self, byte]
  · rw [(device 4 (by decide)).1, archive, List.foldl_cons, List.foldl_cons, List.foldl_nil, frame',
      Function.update_self, byte']

end Os

end SimpleOS.Model
