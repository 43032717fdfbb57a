import SimpleOS.Proofs.Ownership

/-! # The region invariant

Over every run of calls of all processes, as long as what one process requests, rounded up to whole
pages, stays below `2 ^ 63`: its live regions lie between the first page and the break, share no
byte, and the break stays below the aligned limit of the area. Neither of the two ever falls.
-/

namespace SimpleOS.Model

open Lib

variable {ι : Type} [DecidableEq ι] {m now m' : Machine ι} {n : ℕ} {driver : Driver} {P : ι}
  {labels more : List (Event ι)}

/-- The rounded bytes process `P` has requested. -/
def requestedBy (P : ι) (labels : List (Event ι)) : ℕ :=
  ((labels.filter fun e => e.proc = P).map Event.requested).sum

private theorem requestedBy_append (P : ι) (labels more : List (Event ι)) :
    requestedBy P (labels ++ more) = requestedBy P labels + requestedBy P more := by
  simp [requestedBy]

/-- The layout of the regions of one process. -/
structure RegionInvariant (mm : MmStruct) : Prop where
  bounds : ∀ s, (mm.symrgtbl s).Live → pagingPagesz ≤ (mm.symrgtbl s).rgStart.toNat ∧
    (mm.symrgtbl s).rgStart.toNat ≤ (mm.symrgtbl s).rgEnd.toNat ∧
    (mm.symrgtbl s).rgEnd.toNat ≤ mm.mmap.sbrk.toNat
  disjoint : ∀ s t, s ≠ t → (mm.symrgtbl s).Live → (mm.symrgtbl t).Live →
    ∀ addr, ¬((mm.symrgtbl s).Contains addr ∧ (mm.symrgtbl t).Contains addr)
  break_le : mm.mmap.sbrk.toNat ≤ mm.mmap.vmEnd.toNat
  aligned : mm.mmap.vmEnd.toNat % pagingPagesz = 0

private theorem RegionInvariant.of_sound {mm : MmStruct} {total : ℕ} (sound : mm.regions.Sound total) :
    RegionInvariant mm where
  bounds := sound.inside
  disjoint s t different liveS liveT addr both := by
    obtain ⟨⟨lowS, highS⟩, lowT, highT⟩ := both
    rcases sound.disjoint s t different liveS liveT with before | after
    · change (mm.symrgtbl s).rgEnd.toNat ≤ (mm.symrgtbl t).rgStart.toNat at before
      omega
    · change (mm.symrgtbl t).rgEnd.toNat ≤ (mm.symrgtbl s).rgStart.toNat at after
      omega
  break_le := sound.break_le
  aligned := sound.aligned

private theorem Machine.Step.requested {e : Event ι} (step : Machine.Step driver m e m') :
    e.requested = e.call.requested (m.procs e.proc).mm := by
  cases step <;> rfl

/-- One step within the budget keeps the regions sound; the break and the limit do not fall. -/
private theorem Machine.Step.sound {e : Event ι} {total : ℕ} (step : Machine.Step driver m e m')
    (sound : (m.procs P).mm.regions.Sound total) (budget : total + requestedBy P [e] < 2 ^ 63) :
    (m'.procs P).mm.regions.Sound (total + requestedBy P [e]) ∧
      (m.procs P).mm.mmap.sbrk.toNat ≤ (m'.procs P).mm.mmap.sbrk.toNat ∧
      (m.procs P).mm.mmap.vmEnd.toNat ≤ (m'.procs P).mm.mmap.vmEnd.toNat := by
  have relax : ∀ {R : Regions} {a b : ℕ}, R.Sound a → a ≤ b → R.Sound b :=
    fun sound bound => ⟨sound.toLaid, sound.break_le, sound.aligned, by have := sound.limit_le; omega⟩
  have fields : ∀ {mm mm' : MmStruct}, mm'.regions = mm.regions →
      mm'.mmap.sbrk = mm.mmap.sbrk ∧ mm'.mmap.vmEnd = mm.mmap.vmEnd :=
    fun same => ⟨congrArg Regions.sbrk same, congrArg Regions.vmEnd same⟩
  rcases step.regions P with ⟨rfl, acted⟩ | ⟨-, same⟩
  · have request : requestedBy e.proc [e] = e.call.requested (m.procs e.proc).mm := by
      simp [requestedBy, step.requested]
    have cost := Call.action_cost (m.procs e.proc).mm e.call
    have within : total + (e.call.action (m.procs e.proc).mm).cost < 2 ^ 63 := by omega
    obtain ⟨sound', breakLe, limitLe⟩ := sound.act within
    rw [← acted] at sound' breakLe limitLe
    exact ⟨relax sound' (by omega), breakLe, limitLe⟩
  · rw [same, (fields same).1, (fields same).2]
    exact ⟨relax sound (Nat.le_add_right _ _), le_refl _, le_refl _⟩

/-- The same over a run. -/
private theorem sound_of_run {total : ℕ} (run : Run (Machine.Step driver) m labels m')
    (sound : (m.procs P).mm.regions.Sound total) (budget : total + requestedBy P labels < 2 ^ 63) :
    (m'.procs P).mm.regions.Sound (total + requestedBy P labels) ∧
      (m.procs P).mm.mmap.sbrk.toNat ≤ (m'.procs P).mm.mmap.sbrk.toNat ∧
      (m.procs P).mm.mmap.vmEnd.toNat ≤ (m'.procs P).mm.mmap.vmEnd.toNat := by
  induction run with
  | start => exact ⟨by simpa [requestedBy] using sound, le_refl _, le_refl _⟩
  | next earlier taken ih =>
    rw [requestedBy_append, ← Nat.add_assoc] at budget ⊢
    obtain ⟨sound', breakLe, limitLe⟩ := ih (by omega)
    obtain ⟨sound'', breakLe', limitLe'⟩ := taken.sound sound' budget
    exact ⟨sound'', breakLe.trans breakLe', limitLe.trans limitLe'⟩

/-- In every reachable state the regions of a process are laid out, and from any reachable state on
neither the break nor the limit falls. -/
theorem regions_invariant (initial : m.Initial n) (run : Run (Machine.Step driver) m labels now)
    (later : Run (Machine.Step driver) now more m')
    (budget : requestedBy P (labels ++ more) < 2 ^ 63) :
    RegionInvariant (now.procs P).mm ∧ RegionInvariant (m'.procs P).mm ∧
      (now.procs P).mm.mmap.sbrk.toNat ≤ (m'.procs P).mm.mmap.sbrk.toNat ∧
      (now.procs P).mm.mmap.vmEnd.toNat ≤ (m'.procs P).mm.mmap.vmEnd.toNat := by
  obtain ⟨heap, fresh⟩ := initial.2 P
  have start : (m.procs P).mm.regions.Sound 0 := fresh ▸ .initial heap
  rw [requestedBy_append] at budget
  obtain ⟨soundNow, -⟩ := sound_of_run run start (by omega)
  obtain ⟨soundLater, breakLe, limitLe⟩ := sound_of_run later soundNow (by omega)
  exact ⟨.of_sound soundNow, .of_sound soundLater, breakLe, limitLe⟩

/-- A write that allocates its region, then a growth of the area by one page. -/
theorem regions_invariant_after_inc :
    let m := Machine.boot 8 (fun P : Bool => if P then 1 else 2) fun _ => []
    let now := m.put true ((m.task true).setKrnl (Libmem.write .head (m.task true).krnl 0 3 0 7).1)
    let m' := now.put true ((now.task true).setKrnl (sysmemInc (now.task true).krnl 0 1).1)
    RegionInvariant (m'.procs true).mm ∧
      (now.procs true).mm.mmap.vmEnd.toNat ≤ (m'.procs true).mm.mmap.vmEnd.toNat := by
  intro m now m'
  have run : Run (Machine.Step .head) m _ now := .one (Machine.step_write m true 7 3 0)
  have later : Run (Machine.Step .head) now _ m' := .one (Machine.step_inc now true 0 1)
  obtain ⟨-, laid, -, limit⟩ :=
    regions_invariant (P := true) (Machine.boot_initial 8 _ _) run later (by decide +kernel)
  exact ⟨laid, limit⟩

end SimpleOS.Model
