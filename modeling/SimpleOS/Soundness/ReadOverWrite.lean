import SimpleOS.Proofs.FirstPage
import SimpleOS.Proofs.Held

/-! # Read over write across processes

A byte that a process wrote through one of its symbols stays readable through it, whatever all
processes do in between, as long as no region ends above `2 ^ 22` and no allocation wraps.
-/

namespace SimpleOS.Model

open Lib

variable {ι : Type} [DecidableEq ι] {m m' : Machine ι} {n : ℕ} {driver : Driver}
  {r : BitVec 32} {off : Addr} {v : BitVec 8} {e : Event ι}

/-- A call with a register index below 10 that carries no break past 64 bits and leaves no region
that ends above `2 ^ 22`. -/
structure Machine.LowStep (driver : Driver) (m : Machine ι) (e : Event ι) (m' : Machine ι) : Prop where
  step : Machine.Step driver m e m'
  inRegs : e.call.InRegs
  fits : (m.procs e.proc).mm.regions.Fits (e.call.action (m.procs e.proc).mm)
  low : ∀ Q s, ((m'.procs Q).mm.symrgtbl s).Live → ((m'.procs Q).mm.symrgtbl s).rgEnd.toNat ≤ 2 ^ 22

/-- What a run of such calls keeps. -/
structure Machine.Calm (n : ℕ) (m : Machine ι) : Prop where
  owned : m.Owned n
  laid : ∀ Q, (m.procs Q).mm.regions.Laid
  low : ∀ Q s, ((m.procs Q).mm.symrgtbl s).Live → ((m.procs Q).mm.symrgtbl s).rgEnd.toNat ≤ 2 ^ 22

omit [DecidableEq ι] in
private theorem Machine.Initial.calm (initial : m.Initial n) (small : n ≤ 8192) : m.Calm n := by
  refine ⟨initial.owned small, fun Q => ?_, fun Q s live => ?_⟩
  · obtain ⟨heap, fresh⟩ := initial.2 Q
    rw [fresh]
    exact .initial heap
  · obtain ⟨heap, fresh⟩ := initial.2 Q
    rw [fresh] at live
    exact absurd ⟨rfl, rfl⟩ live

theorem Machine.Calm.step (calm : m.Calm n) (taken : Machine.LowStep driver m e m') : m'.Calm n := by
  refine ⟨calm.owned.step taken.step, fun Q => ?_, taken.low⟩
  rcases taken.step.regions Q with ⟨rfl, acted⟩ | ⟨-, same⟩
  · rw [acted]
    exact (calm.laid e.proc).act taken.fits
  · rw [same]
    exact calm.laid Q

omit [DecidableEq ι] in
private theorem Machine.Calm.distinct (calm : m.Calm n) (Q : ι) : DistinctBytes (m.procs Q).mm := by
  rintro x y ⟨s, liveS, insideS⟩ ⟨t, liveT, insideT⟩ different same
  have lowS := calm.low Q s liveS
  have lowT := calm.low Q t liveT
  have belowS := insideS.2
  have belowT := insideT.2
  have congruent := (page_offset_iff x y).mp same
  exact different (BitVec.eq_of_toNat_eq (by omega))

/-- What a process wrote successfully through a symbol is what it reads there, until it frees the
symbol or writes there again, whatever all processes do in between. -/
theorem libread_after_libwrite {m₀ m₁ m₂ m₃ : Machine ι} {before between : List (Event ι)}
    (initial : m₀.Initial n) (small : n ≤ 8192)
    (earlier : Run (Machine.LowStep driver) m₀ before m₁)
    (write : Machine.LowStep driver m₁ e m₂) (call : e.call = .write v r off) (succeeded : e.Succeeded)
    (later : Run (Machine.LowStep driver) m₂ between m₃)
    (untouched : ∀ e' ∈ between, e'.proc = e.proc → e'.Succeeded →
      e'.call ≠ .free r ∧ ∀ v', e'.call ≠ .write v' r off) :
    (Libmem.read driver (m₃.task e.proc).krnl 0 r off).2 = some v ∧
      Call.perform driver (m₃.task e.proc) (.read r off) =
        .ok (m₃.task e.proc, ⟨0, some (v.signExtend 32)⟩) := by
  have calm₁ : m₁.Calm n := earlier.keeps (initial.calm small) fun _ _ _ calm taken => calm.step taken
  have carried : m₃.Calm n ∧ m₃.Holds e.proc r off v := by
    induction later with
    | start => exact ⟨calm₁.step write, write.step.write_holds calm₁.owned call succeeded⟩
    | @next labels now after label _ taken ih =>
      obtain ⟨calm, holds⟩ := ih fun e' member => untouched e' (List.mem_append_left _ member)
      have clear := untouched label (by simp)
      refine ⟨calm.step taken, ?_⟩
      by_cases self : label.proc = e.proc
      · exact holds.own calm.owned ((calm.step taken).laid _) ((calm.step taken).distinct _) taken.step
          (fun _ => taken.inRegs) self
          (fun freed success => (clear self success).1 freed)
          (fun v' written success => (clear self success).2 v' written)
      · exact holds.foreign calm.owned taken.step self
  have read := carried.2.read driver carried.1.owned
  refine ⟨by rw [read], ?_⟩
  rw [Call.perform, libread, read]
  rfl

/-- Two processes on sixteen frames: one writes, then the other, and the first reads its byte. -/
theorem libread_after_libwrite_of_two :
    let m₀ := Machine.boot 16 (fun P : Bool => if P then 1 else 2) fun _ => []
    let m₁ := m₀.put true ((m₀.task true).setKrnl (Libmem.write .head (m₀.task true).krnl 0 3 5 7).1)
    let m₂ := m₁.put false ((m₁.task false).setKrnl (Libmem.write .head (m₁.task false).krnl 0 3 5 9).1)
    (Libmem.read .head (m₂.task true).krnl 0 3 5).2 = some 7 := by
  intro m₀ m₁ m₂
  have opened : (Libmem.target (m₀.task true).krnl 0 3 5).2 = some 4101 := by decide
  have written := Libmem.write_fresh (n := 16) ⟨fun _ => rfl, rfl⟩ (by decide) .head 7 opened
  have status : (Libmem.write .head (m₀.task true).krnl 0 3 5 7).2 = 0 := by rw [written]
  have first : Machine.LowStep .head m₀ _ m₁ :=
    ⟨Machine.step_write m₀ true 7 3 5, by rintro _ ⟨⟩; decide, by decide +kernel,
      by simp only [m₁, written]; decide +kernel⟩
  have second : Machine.LowStep .head m₁ _ m₂ :=
    ⟨Machine.step_write m₁ false 9 3 5, by rintro _ ⟨⟩; decide, by simp only [m₁, written]; decide +kernel,
      by simp only [m₂, m₁, written]; decide +kernel⟩
  exact (libread_after_libwrite (Machine.boot_initial 16 _ _) (by decide) .start first rfl
    ⟨none, congrArg (fun status => some (Reply.mk status none)) status⟩ (.one second)
    (by simp)).1

end SimpleOS.Model
