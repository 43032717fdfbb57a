import SimpleOS.Proofs.FirstPage
import SimpleOS.Proofs.Held

/-! # Distinct program bytes

The allocator hands out 64-bit addresses, while the access path keeps 22 bits of an address. Two
addresses of live regions meet in one byte exactly when they agree modulo `2 ^ 22`. A new region
keeps the bytes of a process distinct exactly when it falls into a gap between the live regions
modulo `2 ^ 22`; the runs in which no bytes meet are the runs in which every new region does.
-/

namespace SimpleOS.Model

open Lib

variable {ι : Type} [DecidableEq ι] {m m' : Machine ι} {n : ℕ} {driver : Driver} {P : ι} {e : Event ι}

/-- A call that carries no break past 64 bits. -/
structure Machine.FitStep (driver : Driver) (m : Machine ι) (e : Event ι) (m' : Machine ι) : Prop where
  step : Machine.Step driver m e m'
  fits : (m.procs e.proc).mm.regions.Fits (e.call.action (m.procs e.proc).mm)

/-- A new region has at most `2 ^ 22` bytes, and counted from the start of a live region modulo
`2 ^ 22` it begins behind that region and ends before it comes round again. -/
def Regions.Apart (R : Regions) : RegionAction → Prop
  | .place _ size => size.toNat ≤ 2 ^ 22 ∧ (0 < size.toNat → ∀ s, (R.symrgtbl s).Live →
      (R.symrgtbl s).rgStart.toNat < (R.symrgtbl s).rgEnd.toNat →
      (R.symrgtbl s).rgEnd.toNat - (R.symrgtbl s).rgStart.toNat ≤
          (R.sbrk.toNat - (R.symrgtbl s).rgStart.toNat) % 2 ^ 22 ∧
        (R.sbrk.toNat - (R.symrgtbl s).rgStart.toNat) % 2 ^ 22 + size.toNat ≤ 2 ^ 22)
  | _ => True

instance (R : Regions) (action : RegionAction) : Decidable (R.Apart action) :=
  match action with
  | .keep => inferInstanceAs (Decidable True)
  | .place _ _ => inferInstanceAs (Decidable (_ ∧ (_ → ∀ _, _ → _ → _ ∧ _)))
  | .release _ => inferInstanceAs (Decidable True)
  | .extend _ => inferInstanceAs (Decidable True)

/-- The condition on a call: the region it places, if any, falls into a gap. -/
def Machine.Apart (m : Machine ι) (e : Event ι) : Prop :=
  (m.procs e.proc).mm.regions.Apart (e.call.action (m.procs e.proc).mm)

instance (m : Machine ι) (e : Event ι) : Decidable (m.Apart e) := inferInstanceAs (Decidable (Regions.Apart _ _))

/-- No two bytes of live regions agree modulo `2 ^ 22`. -/
def Regions.Distinct (R : Regions) : Prop :=
  ∀ s t x y, (R.symrgtbl s).Live → (R.symrgtbl s).Contains x → (R.symrgtbl t).Live →
    (R.symrgtbl t).Contains y → x % 2 ^ 22 = y % 2 ^ 22 → x = y

private theorem distinctBytes_iff (mm : MmStruct) : DistinctBytes mm ↔ mm.regions.Distinct := by
  constructor
  · intro distinct s t x y liveS insideS liveT insideT congruent
    have boundX := (mm.symrgtbl s).rgEnd.isLt
    have boundY := (mm.symrgtbl t).rgEnd.isLt
    have belowX : x < (mm.symrgtbl s).rgEnd.toNat := insideS.2
    have belowY : y < (mm.symrgtbl t).rgEnd.toNat := insideT.2
    have valueX : (BitVec.ofNat 64 x).toNat = x := by rw [BitVec.toNat_ofNat, Nat.mod_eq_of_lt (by omega)]
    have valueY : (BitVec.ofNat 64 y).toNat = y := by rw [BitVec.toNat_ofNat, Nat.mod_eq_of_lt (by omega)]
    by_contra different
    refine distinct (BitVec.ofNat 64 x) (BitVec.ofNat 64 y) ⟨s, liveS, by rwa [valueX]⟩
      ⟨t, liveT, by rwa [valueY]⟩ ?_ ((page_offset_iff _ _).mpr (by rwa [valueX, valueY]))
    intro same
    exact different (by rw [← valueX, ← valueY, same])
  · rintro distinct x y ⟨s, liveS, insideS⟩ ⟨t, liveT, insideT⟩ different same
    exact different (BitVec.eq_of_toNat_eq
      (distinct s t _ _ liveS insideS liveT insideT ((page_offset_iff x y).mp same)))

namespace Regions

variable {R : Regions} {slot : Fin 30} {size : Addr}

private theorem Distinct.release (distinct : R.Distinct) (slot : Fin 30) : (R.act (.release slot)).Distinct := by
  have old : ∀ {s x}, ((R.act (.release slot)).symrgtbl s).Live →
      ((R.act (.release slot)).symrgtbl s).Contains x →
      (R.symrgtbl s).Live ∧ (R.symrgtbl s).Contains x := by
    intro s x live inside
    simp only [act, Function.update_apply] at live inside
    split_ifs at live inside
    · exact absurd ⟨rfl, rfl⟩ live
    · exact ⟨live, inside⟩
  intro s t x y liveS insideS liveT insideT congruent
  exact distinct s t x y (old liveS insideS).1 (old liveS insideS).2 (old liveT insideT).1
    (old liveT insideT).2 congruent

/-- The bytes of a placed region, and those that were there. -/
private theorem place_contains (laid : R.Laid) (fits : R.sbrk.toNat + size.toNat < 2 ^ 64) {s : Fin 30} {x : ℕ}
    (inside : ((R.act (.place slot size)).symrgtbl s).Contains x) :
    s = slot ∧ R.sbrk.toNat ≤ x ∧ x < R.sbrk.toNat + size.toNat ∨
      s ≠ slot ∧ (R.symrgtbl s).Contains x := by
  simp only [act, laid.top, Function.update_apply] at inside
  split_ifs at inside with here
  · rw [VmRg.Contains, BitVec.toNat_add, Nat.mod_eq_of_lt fits] at inside
    exact .inl ⟨here, inside⟩
  · exact .inr ⟨here, inside⟩

/-- A placed region that falls into a gap meets no byte. -/
private theorem Distinct.place (distinct : R.Distinct) (laid : R.Laid)
    (fits : R.sbrk.toNat + size.toNat < 2 ^ 64) (apart : R.Apart (.place slot size)) :
    (R.act (.place slot size)).Distinct := by
  obtain ⟨short, gap⟩ := apart
  have kept : ∀ {s}, s ≠ slot → (R.act (.place slot size)).symrgtbl s = R.symrgtbl s :=
    fun other => Function.update_of_ne other _ _
  have mixed : ∀ {s x y}, (R.symrgtbl s).Live → (R.symrgtbl s).Contains x → R.sbrk.toNat ≤ y →
      y < R.sbrk.toNat + size.toNat → x % 2 ^ 22 ≠ y % 2 ^ 22 := by
    intro s x y live inside low high
    obtain ⟨start, finish⟩ := inside
    obtain ⟨-, -, below⟩ := laid.inside s live
    obtain ⟨behind, before⟩ := gap (by omega) s live (by omega)
    omega
  intro s t x y liveS insideS liveT insideT congruent
  rcases place_contains laid fits insideS with ⟨-, lowX, highX⟩ | ⟨other, oldX⟩ <;>
    rcases place_contains laid fits insideT with ⟨-, lowY, highY⟩ | ⟨other', oldY⟩
  · omega
  · rw [kept other'] at liveT
    exact absurd congruent.symm (mixed liveT oldY lowX highX)
  · rw [kept other] at liveS
    exact absurd congruent (mixed liveS oldX lowY highY)
  · rw [kept other] at liveS
    rw [kept other'] at liveT
    exact distinct s t x y liveS oldX liveT oldY congruent

/-- A placed region that does not fall into a gap meets a byte. -/
private theorem Distinct.apart (laid : R.Laid) (fits : R.sbrk.toNat + size.toNat < 2 ^ 64)
    (free : ¬(R.symrgtbl slot).Live) (distinct : (R.act (.place slot size)).Distinct) :
    R.Apart (.place slot size) := by
  have base := laid.base
  have here : (R.act (.place slot size)).symrgtbl slot = ⟨R.sbrk, R.sbrk + size⟩ := by
    simp only [act, laid.top, Function.update_self]
  have sum : (R.sbrk + size).toNat = R.sbrk.toNat + size.toNat := by
    rw [BitVec.toNat_add, Nat.mod_eq_of_lt fits]
  have new : ∀ {y}, R.sbrk.toNat ≤ y → y < R.sbrk.toNat + size.toNat →
      ((R.act (.place slot size)).symrgtbl slot).Live ∧
        ((R.act (.place slot size)).symrgtbl slot).Contains y := by
    intro y low high
    rw [here]
    refine ⟨?_, low, by rw [sum]; exact high⟩
    rintro ⟨zero, -⟩
    change R.sbrk = 0 at zero
    rw [zero] at base
    exact absurd base (by decide)
  refine ⟨?_, fun positive s live nonempty => ?_⟩
  · by_contra long
    obtain ⟨liveX, insideX⟩ := new (le_refl R.sbrk.toNat) (by omega)
    obtain ⟨-, insideY⟩ := new (show R.sbrk.toNat ≤ R.sbrk.toNat + 2 ^ 22 by omega) (by omega)
    have equal := distinct slot slot _ _ liveX insideX liveX insideY (by omega)
    omega
  · have other : s ≠ slot := by
      rintro rfl
      exact free live
    have kept : (R.act (.place slot size)).symrgtbl s = R.symrgtbl s := Function.update_of_ne other _ _
    obtain ⟨-, -, below⟩ := laid.inside s live
    rw [← kept] at live
    have old : ∀ {x}, (R.symrgtbl s).rgStart.toNat ≤ x → x < (R.symrgtbl s).rgEnd.toNat →
        ((R.act (.place slot size)).symrgtbl s).Contains x := by
      intro x low high
      rw [kept]
      exact ⟨low, high⟩
    have gap := Nat.mod_lt (R.sbrk.toNat - (R.symrgtbl s).rgStart.toNat) (show 0 < 2 ^ 22 by omega)
    have whole := Nat.div_add_mod (R.sbrk.toNat - (R.symrgtbl s).rgStart.toNat) (2 ^ 22)
    generalize (R.sbrk.toNat - (R.symrgtbl s).rgStart.toNat) % 2 ^ 22 = d at *
    constructor
    · by_contra inside
      obtain ⟨liveY, insideY⟩ := new (le_refl R.sbrk.toNat) (by omega)
      have equal := distinct s slot ((R.symrgtbl s).rgStart.toNat + d) R.sbrk.toNat live
        (old (by omega) (by omega)) liveY insideY (by omega)
      omega
    · by_contra around
      obtain ⟨liveY, insideY⟩ :=
        new (show R.sbrk.toNat ≤ R.sbrk.toNat + (2 ^ 22 - d) by omega) (by omega)
      have equal := distinct s slot (R.symrgtbl s).rgStart.toNat (R.sbrk.toNat + (2 ^ 22 - d)) live
        (old (by omega) (by omega)) liveY insideY (by omega)
      omega

end Regions

/-- Regions are placed in slots that hold none. -/
private theorem Call.action_place {mm : MmStruct} {call : Call} {slot : Fin 30} {size : Addr}
    (places : call.action mm = .place slot size) : ¬(mm.symrgtbl slot).Live := by
  intro live
  obtain ⟨reg, rfl, -⟩ :=
    Call.action_slot live (show (call.action mm).slot = some slot by rw [places]; rfl)
  rw [action] at places
  split at places
  · cases places
  · split_ifs at places

/-- On laid out, distinct regions an action that fits keeps the bytes distinct exactly when the
region it places falls into a gap. -/
private theorem Regions.distinct_act_iff {mm : MmStruct} {call : Call} (laid : mm.regions.Laid)
    (fits : mm.regions.Fits (call.action mm)) (distinct : mm.regions.Distinct) :
    (mm.regions.act (call.action mm)).Distinct ↔ mm.regions.Apart (call.action mm) := by
  cases places : call.action mm with
  | keep => exact ⟨fun _ => trivial, fun _ => distinct⟩
  | extend size => exact ⟨fun _ => trivial, fun _ => distinct⟩
  | release slot => exact ⟨fun _ => trivial, fun _ => distinct.release slot⟩
  | place slot size =>
    rw [places] at fits
    exact ⟨Distinct.apart laid fits (Call.action_place places), distinct.place laid fits⟩

/-- What the runs of both kinds keep: regions laid out, bytes distinct. -/
structure Machine.Plain (m : Machine ι) : Prop where
  laid : ∀ P, (m.procs P).mm.regions.Laid
  distinct : ∀ P, (m.procs P).mm.regions.Distinct

omit [DecidableEq ι] in
private theorem Machine.Initial.plain (initial : m.Initial n) : m.Plain := by
  constructor
  · intro P
    obtain ⟨heap, fresh⟩ := initial.2 P
    rw [fresh]
    exact .initial heap
  · intro P s t x y live
    obtain ⟨heap, fresh⟩ := initial.2 P
    rw [fresh] at live
    exact absurd ⟨rfl, rfl⟩ live

private theorem Machine.FitStep.laid (taken : Machine.FitStep driver m e m')
    (laid : ∀ P, (m.procs P).mm.regions.Laid) (P : ι) : (m'.procs P).mm.regions.Laid := by
  rcases taken.step.regions P with ⟨rfl, acted⟩ | ⟨-, same⟩
  · rw [acted]
    exact (laid e.proc).act taken.fits
  · rw [same]
    exact laid P

/-- One call: the bytes stay distinct exactly when its region falls into a gap. -/
private theorem Machine.FitStep.distinct_iff (taken : Machine.FitStep driver m e m') (plain : m.Plain) :
    (∀ P, (m'.procs P).mm.regions.Distinct) ↔ m.Apart e := by
  have law := Regions.distinct_act_iff (plain.laid e.proc) taken.fits (plain.distinct e.proc)
  constructor
  · intro distinct
    rcases taken.step.regions e.proc with ⟨-, acted⟩ | ⟨freed, -⟩
    · exact law.mp (acted ▸ distinct e.proc)
    · -- a `libfree` places nothing
      obtain ⟨reg, call⟩ := freed rfl
      rw [Machine.Apart, call, Call.action]
      split
      · trivial
      · split_ifs <;> trivial
  · intro apart P
    rcases taken.step.regions P with ⟨rfl, acted⟩ | ⟨-, same⟩
    · rw [acted]
      exact law.mpr apart
    · rw [same]
      exact plain.distinct P

/-- A call after which different live addresses are different bytes in every process. -/
def Machine.DistinctStep (driver : Driver) (m : Machine ι) (e : Event ι) (m' : Machine ι) : Prop :=
  Machine.FitStep driver m e m' ∧ ∀ P, DistinctBytes (m'.procs P).mm

private theorem Machine.FitStep.plain_iff (taken : Machine.FitStep driver m e m') (plain : m.Plain) :
    (∀ P, DistinctBytes (m'.procs P).mm) ↔ m.Apart e := by
  rw [← taken.distinct_iff plain]
  exact forall_congr' fun P => distinctBytes_iff _

private theorem Machine.Plain.of_apart {labels : List (Event ι)} (plain : m.Plain)
    (run : Run (guarded Machine.Apart (Machine.FitStep driver)) m labels m') : m'.Plain :=
  run.keeps plain fun _ _ _ plain taken =>
    ⟨taken.2.laid plain.laid, (taken.2.distinct_iff plain).mpr taken.1⟩

/-- The runs in which the bytes are distinct after every call are the runs in which every call meets
the condition. -/
private theorem Machine.Plain.run_iff {labels : List (Event ι)} (plain : m.Plain) :
    Run (Machine.DistinctStep driver) m labels m' ↔
      Run (guarded Machine.Apart (Machine.FitStep driver)) m labels m' := by
  constructor
  · intro run
    induction run with
    | start => exact .start
    | next earlier taken ih => exact ih.next ⟨(taken.1.plain_iff (plain.of_apart ih)).mp taken.2, taken.1⟩
  · intro run
    induction run with
    | start => exact .start
    | next earlier taken ih =>
      exact ih.next ⟨taken.2, (taken.2.plain_iff (plain.of_apart earlier)).mpr taken.1⟩

/-- The runs in which different live addresses stay different bytes are exactly those in which every
new region falls into a gap modulo `2 ^ 22`. In such a run, what a process reads through a symbol it
reads again after it has written through another symbol or at another offset. -/
theorem distinct_bytes_iff_apart (initial : m.Initial n) (small : n ≤ 8192) :
    (∀ labels m', Run (Machine.DistinctStep driver) m labels m' ↔
      Run (guarded Machine.Apart (Machine.FitStep driver)) m labels m') ∧
    ∀ labels m₁ m₂ m₃ read write r off r' off' v status b,
      Run (guarded Machine.Apart (Machine.FitStep driver)) m labels m₁ →
      guarded Machine.Apart (Machine.FitStep driver) m₁ read m₂ →
      guarded Machine.Apart (Machine.FitStep driver) m₂ write m₃ →
      read.call = .read r off → read.reply = some ⟨status, some b⟩ →
      write.proc = read.proc → write.call = .write v r' off' → (r', off') ≠ (r, off) →
      Call.perform driver (m₃.task read.proc) (.read r off) =
        .ok (m₃.task read.proc, ⟨0, some b⟩) := by
  refine ⟨fun labels m' => initial.plain.run_iff, ?_⟩
  intro labels m₁ m₂ m₃ read write r off r' off' v status b run reads writes call reply self call' different
  have plain₁ := initial.plain.of_apart run
  have plain₂ := initial.plain.of_apart (run.next reads)
  have plain₃ := initial.plain.of_apart ((run.next reads).next writes)
  have owned₁ : m₁.Owned n := (initial.owned small).run (run.mono fun _ _ _ taken => taken.2.step)
  have owned₂ : m₂.Owned n := owned₁.step reads.2.step
  obtain ⟨byte, rfl, holds⟩ := reads.2.step.read_holds owned₁ call reply
  have kept : m₃.Holds read.proc r off byte := by
    have notFree : write.call ≠ .free r := by
      rw [call']
      simp
    refine holds.own owned₂ (plain₃.laid _) ((distinctBytes_iff _).mpr (plain₃.distinct _))
      writes.2.step (fun freed => absurd freed notFree) self (fun freed => absurd freed notFree) ?_
    · intro v' written
      rw [call'] at written
      cases written
      exact absurd rfl different
  have result := kept.read driver (owned₂.step writes.2.step)
  rw [Call.perform, libread, result]
  rfl

/-- A read, a write at the next offset, and the read again. -/
theorem distinct_bytes_iff_apart_at_read :
    let m₁ := Machine.boot 16 (fun P : Bool => if P then 1 else 2) fun _ => []
    let m₂ := m₁.put true ((m₁.task true).setKrnl (Libmem.read .head (m₁.task true).krnl 0 3 5).1)
    let m₃ := m₂.put true ((m₂.task true).setKrnl (Libmem.write .head (m₂.task true).krnl 0 3 6 7).1)
    Call.perform .head (m₃.task true) (.read 3 5) = .ok (m₃.task true, ⟨0, some 0⟩) := by
  intro m₁ m₂ m₃
  have opened : (Libmem.target (m₁.task true).krnl 0 3 5).2 = some 4101 := by decide
  have first := Libmem.read_fresh (n := 16) ⟨fun _ => rfl, rfl⟩ (by decide) .head opened
  have delivered : (Libmem.read .head (m₁.task true).krnl 0 3 5).2 = some 0 := by
    rw [first]
    decide +kernel
  have reads : guarded Machine.Apart (Machine.FitStep .head) m₁ _ m₂ :=
    ⟨by decide, Machine.step_read m₁ true 3 5 delivered, by decide⟩
  have writes : guarded Machine.Apart (Machine.FitStep .head) m₂ _ m₃ :=
    ⟨by simp only [m₂, first]; decide +kernel, Machine.step_write m₂ true 7 3 6,
      by simp only [m₂, first]; decide +kernel⟩
  have initial : m₁.Initial 16 := Machine.boot_initial 16 _ _
  have again := (distinct_bytes_iff_apart initial (by decide)).2 [] m₁ m₂ m₃ _ _ 3 5 3 6 7 0 0 .start reads
    writes rfl
  exact again rfl rfl rfl (by decide)

/-- One region of `2 ^ 22 + 1` bytes: its first and its last byte are the same byte of memory. -/
theorem distinct_bytes_fails :
    let m₀ := Machine.boot 16 (fun P : Bool => if P then 1 else 2) fun _ => []
    ∃ labels m₁, Run (Machine.FitStep .head) m₀ labels m₁ ∧ ¬DistinctBytes (m₁.procs true).mm ∧
      ∃ labels' m₂ m₃ write, Run (Machine.FitStep .head) m₁ labels' m₂ ∧
        (Libmem.read .head (m₂.task true).krnl 0 0 0).2 = some 7 ∧
        Machine.FitStep .head m₂ write m₃ ∧ write.proc = true ∧ write.call = .write 9 0 0x400000 ∧
        (Libmem.read .head (m₃.task true).krnl 0 0 0).2 = some 9 := by
  intro m₀
  let m₁ := m₀.put true ((m₀.task true).allocated 0 0x400001)
  let m₂ := m₁.put true ((m₁.task true).setKrnl (Libmem.write .head (m₁.task true).krnl 0 0 0 7).1)
  let m₃ := m₂.put true ((m₂.task true).setKrnl (Libmem.write .head (m₂.task true).krnl 0 0 0x400000 9).1)
  have opened : (Libmem.target (m₁.task true).krnl 0 0 0).2 = some 4096 := by decide
  have first := Libmem.write_fresh (n := 16) ⟨fun _ => rfl, rfl⟩ (by decide) .head 7 opened
  have allocates : Machine.FitStep .head m₀ _ m₁ :=
    ⟨Machine.step_alloc m₀ true 0x400001 0 (by decide), by decide⟩
  have writes : Machine.FitStep .head m₁ _ m₂ := ⟨Machine.step_write m₁ true 7 0 0, by decide⟩
  have before : (Libmem.read .head (m₂.task true).krnl 0 0 0).2 = some 7 := by
    simp only [m₂, first]
    decide +kernel
  have overwrites : Machine.FitStep .head m₂ _ m₃ :=
    ⟨Machine.step_write m₂ true 9 0 0x400000, by simp only [m₂, first]; decide +kernel⟩
  have after : (Libmem.read .head (m₃.task true).krnl 0 0 0).2 = some 9 := by
    simp only [m₃, m₂, first]
    decide +kernel
  refine ⟨_, m₁, .one allocates, ?_, _, m₂, m₃, _, .one writes, before, overwrites, rfl, rfl, after⟩
  intro distinct
  exact distinct 0x1000 0x401000 ⟨0, by decide, by decide, by decide⟩ ⟨0, by decide, by decide, by decide⟩
    (by decide) (by decide)

end SimpleOS.Model
