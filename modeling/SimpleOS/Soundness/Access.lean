import SimpleOS.Soundness.Integrity

/-! # A byte through the registers

WRITE narrows its argument to a BYTE, and READ widens the BYTE it gets to a register. On the way back the BYTE is
a signed `char` that is stored in a `uint32_t`.
-/

namespace SimpleOS.Model

open Lib

variable {ι : Type} [DecidableEq ι] {m now after : Machine ι} {env : Env} {n : ℕ} {P : ι}
  {runningList : List ι}

/-- The register value of a BYTE that was read: sign-extended to 32 bits, and by zeros to 64. -/
private theorem readback_eq_iff (v : Addr) :
    (((v.setWidth 8).signExtend 32).setWidth 64 : Addr) = BitVec.ofNat 64 (v.toNat % 256) ↔
      v.toNat % 256 < 128 := by
  have byte : (v.setWidth 8).toNat = v.toNat % 256 := BitVec.toNat_setWidth 8 v
  rw [← BitVec.toNat_inj, BitVec.toNat_setWidth, BitVec.toNat_signExtend, BitVec.toNat_setWidth, byte,
    BitVec.toNat_ofNat, BitVec.msb_eq_decide, byte]
  split_ifs with negative
  · simp only [decide_eq_true_eq] at negative
    omega
  · simp only [decide_eq_true_eq] at negative
    omega

/-- The next instruction of the process succeeds, stores a value in a register and changes no other. -/
def Machine.ReadsBack (m : Machine ι) (env : Env) (runningList : List ι) (P : ι) (reg : Fin 10) (value : Addr) : Prop :=
  ∃ m', m.run env runningList P = .ok (m', 0) ∧
    (m'.procs P).regs = Function.update (m.procs P).regs reg value

/-- A READ of a byte that is held stores it sign-extended. -/
private theorem Machine.Holds.run_read (owned : m.Owned n) {r : BitVec 32} {off : Addr} {v : BitVec 8}
    (holds : m.Holds P r off v) {arg0 arg2 arg3 : Addr} (source : arg0.setWidth 32 = r)
    (next : (m.procs P).text[(m.procs P).pc]? = some ⟨.read, arg0, off, arg2, arg3⟩) (small : arg2.toNat < 10) :
    ∃ m', m.run env runningList P = .ok (m', 0) ∧ (m'.procs P).regs =
      Function.update (m.procs P).regs ⟨arg2.toNat, small⟩ ((v.signExtend 32).setWidth 64) := by
  have delivered : libread env.driver ((m.advance P).task P) (arg0.setWidth 32) off =
      ((m.advance P).task P, some (v.signExtend 32)) := by
    have byte := holds.read env.driver owned
    rw [← m.advance_krnl P P] at byte
    rw [libread, source, byte]
    rfl
  have inside : regIndex arg2.toNat = .ok ⟨arg2.toNat, small⟩ := dif_pos small
  rw [Machine.run, next]
  simp only [Machine.execute, delivered, inside]
  refine ⟨_, rfl, ?_⟩
  simp only [Machine.put, Machine.task, Machine.advance, Function.update_self]

/-- The text of a process after its WRITE. -/
private theorem Machine.run_write_proc {arg0 arg1 arg2 arg3 : Addr} {status : Int}
    (next : (m.procs P).text[(m.procs P).pc]? = some ⟨.write, arg0, arg1, arg2, arg3⟩)
    (completed : m.run env runningList P = .ok (after, status)) :
    (after.procs P).text = (m.procs P).text ∧ (after.procs P).pc = (m.procs P).pc + 1 := by
  have written := m.run_write env runningList next
  dsimp only at written
  rw [completed] at written
  obtain ⟨rfl, -⟩ := Prod.mk.inj (Except.ok.inj written)
  simp only [Machine.put, Machine.task, Machine.advance, Task.setKrnl, Function.update_self, and_self]

/-- A READ right after a WRITE that succeeds stores the byte of the value, sign-extended. -/
private theorem Machine.Owned.run_write_read (owned : now.Owned n) {v r off d : Addr} {reg : Fin 10}
    (dest : d.toNat = reg) {rest rest' : Addr} {list : List ι}
    (write : (now.procs P).text[(now.procs P).pc]? = some ⟨.write, v, r, off, rest⟩)
    (read : (now.procs P).text[(now.procs P).pc + 1]? = some ⟨.read, r, off, d, rest'⟩)
    (written : now.run env list P = .ok (after, 0)) (runningList : List ι) :
    ∃ m', after.run env runningList P = .ok (m', 0) ∧ (m'.procs P).regs =
      Function.update (after.procs P).regs reg (((v.setWidth 8).signExtend 32).setWidth 64) := by
  have intact : now.Intact (P, list) := by
    rintro ins next syscall
    rw [write, Option.some.injEq] at next
    rw [← next] at syscall
    cases syscall
  have run : Run (guarded Machine.Intact (Machine.Exec env)) now [(P, list)] after := .one ⟨intact, 0, written⟩
  have owned' : after.Owned n := owned.intact_run run
  obtain ⟨text, pc⟩ := now.run_write_proc write written
  have next : (after.procs P).text[(after.procs P).pc]? = some ⟨.read, r, off, d, rest'⟩ := by
    rw [text, pc]
    exact read
  have held : after.Holds P (r.setWidth 32) off (v.setWidth 8) := owned.run_write_holds write written
  have small : d.toNat < 10 := dest ▸ reg.isLt
  have same : (⟨d.toNat, small⟩ : Fin 10) = reg := Fin.ext dest
  rw [← same]
  exact held.run_read owned' rfl next small

/-- In every run of intact requests, a READ right after a WRITE that succeeds gives back the value modulo 256 if
and only if that is below 128. -/
theorem run_write_read_iff {labels : List (ι × List ι)} (initial : m.Initial n) (frames : n ≤ 8192)
    (run : Run (guarded Machine.Intact (Machine.Exec env)) m labels now) (v r off d : Addr) (reg : Fin 10)
    (dest : d.toNat = reg) {rest rest' : Addr} {first second : List ι}
    (write : (now.procs P).text[(now.procs P).pc]? = some ⟨.write, v, r, off, rest⟩)
    (read : (now.procs P).text[(now.procs P).pc + 1]? = some ⟨.read, r, off, d, rest'⟩)
    (written : now.run env first P = .ok (after, 0)) :
    after.ReadsBack env second P reg (BitVec.ofNat 64 (v.toNat % 256)) ↔ v.toNat % 256 < 128 := by
  have owned : now.Owned n := (initial.owned frames).intact_run run
  obtain ⟨m', completed, stored⟩ := owned.run_write_read dest write read written second
  rw [← readback_eq_iff]
  constructor
  · rintro ⟨m'', completed', expected⟩
    rw [completed, Except.ok.injEq, Prod.mk.injEq] at completed'
    rw [← completed'.1, stored] at expected
    have value := congrFun expected reg
    rw [Function.update_self, Function.update_self] at value
    exact value
  · intro value
    refine ⟨m', completed, ?_⟩
    rw [stored, value]

/-- One process on 16 frames that writes a value and reads it back into register 1. -/
def Machine.beforeRoundTrip (v : Addr) : Machine Unit :=
  Machine.boot 16 (fun _ => 1) fun _ => [⟨.write, v, 3, 0, 0⟩, ⟨.read, 3, 0, 1, 0⟩]

/-- The machine after the write. -/
def Machine.midRoundTrip (v : Addr) : Machine Unit :=
  let m := (Machine.beforeRoundTrip v).advance ()
  m.put () ((m.task ()).setKrnl (Libmem.write .head (m.task ()).krnl 0 ((3 : Addr).setWidth 32) 0 (v.setWidth 8)).1)

private theorem Machine.run_beforeRoundTrip (v : Addr)
    (status : (Libmem.write .head (((Machine.beforeRoundTrip v).advance ()).task ()).krnl 0 ((3 : Addr).setWidth 32) 0
      (v.setWidth 8)).2 = 0) :
    (Machine.beforeRoundTrip v).run ⟨.head, fun _ => 0⟩ [()] () = .ok (Machine.midRoundTrip v, 0) := by
  rw [← status]
  exact Machine.run_write _ [()] rfl

theorem write_read_seven :
    (Machine.midRoundTrip 7).ReadsBack ⟨.head, fun _ => 0⟩ [()] () 1 (BitVec.ofNat 64 ((7 : Addr).toNat % 256)) :=
  (run_write_read_iff (Machine.boot_initial 16 _ _) (by decide) .start 7 3 0 1 1 rfl rfl rfl
    (Machine.run_beforeRoundTrip 7 (by decide +kernel))).mpr (by decide)

/-- `write 200 3 0` and `read 3 0 1` leave `0xffffffc8` in `regs[1]`. -/
theorem write_read_sign : let env : Env := ⟨.head, fun _ => 0⟩
    (Machine.beforeRoundTrip 200).run env [()] () = .ok (Machine.midRoundTrip 200, 0) ∧
      (∃ m', (Machine.midRoundTrip 200).run env [()] () = .ok (m', 0) ∧ (m'.procs ()).regs 1 = 0xffffffc8) ∧
      ¬(Machine.midRoundTrip 200).ReadsBack env [()] () 1 (BitVec.ofNat 64 ((200 : Addr).toNat % 256)) := by
  intro env
  have written := Machine.run_beforeRoundTrip 200 (by decide +kernel)
  have initial : (Machine.beforeRoundTrip 200).Initial 16 := Machine.boot_initial 16 _ _
  obtain ⟨m', completed, stored⟩ := (initial.owned (by decide)).run_write_read
    (show (1 : Addr).toNat = (1 : Fin 10) from rfl) rfl rfl written [()]
  have value : (m'.procs ()).regs 1 = 0xffffffc8 := by
    rw [stored, Function.update_self]
    decide
  refine ⟨written, ⟨m', completed, value⟩, ?_⟩
  rintro ⟨m'', completed', expected⟩
  rw [completed, Except.ok.injEq, Prod.mk.injEq] at completed'
  rw [← completed'.1] at expected
  have right := congrFun expected 1
  rw [value, Function.update_self] at right
  exact absurd right (by decide)

end SimpleOS.Model
