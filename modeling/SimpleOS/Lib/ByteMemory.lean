import Mathlib.Data.BitVec

/-! # Byte memories and their little-endian words

A memory is a function from byte addresses. A 64-bit word occupies eight consecutive bytes, least
significant first. The lemmas say when a word survives a change of bytes; nothing here depends on
what the memory holds.
-/

namespace SimpleOS.Lib

/-- Byte memory. -/
abbrev Bytes := ℕ → BitVec 8

namespace Bytes

/-- The 64-bit word stored at `a`, least significant byte first. -/
def readWord (m : Bytes) (a : ℕ) : BitVec 64 :=
  m (a + 7) ++ m (a + 6) ++ m (a + 5) ++ m (a + 4) ++ m (a + 3) ++ m (a + 2) ++ m (a + 1) ++ m a

/-- Store a 64-bit word at `a`, least significant byte first. -/
def writeWord (m : Bytes) (a : ℕ) (w : BitVec 64) : Bytes := fun b =>
  if a ≤ b ∧ b < a + 8 then w.extractLsb' (8 * (b - a)) 8 else m b

/-- Store one byte. -/
def writeByte (m : Bytes) (a : ℕ) (v : BitVec 8) : Bytes := fun b => if b = a then v else m b

variable {m m' : Bytes} {a b : ℕ} {w : BitVec 64}

@[simp] theorem writeByte_same (v : BitVec 8) : m.writeByte a v a = v := by simp [writeByte]

theorem writeByte_ne (v : BitVec 8) (other : b ≠ a) : m.writeByte a v b = m b := by
  simp [writeByte, other]

theorem writeWord_outside (outside : b < a ∨ a + 8 ≤ b) : m.writeWord a w b = m b := by
  rw [writeWord, if_neg (by omega)]

/-- A word depends on its own eight bytes only. -/
theorem readWord_congr (same : ∀ i < 8, m (a + i) = m' (a + i)) : m.readWord a = m'.readWord a := by
  have first : m a = m' a := same 0 (by omega)
  simp only [readWord, first, same 1 (by omega), same 2 (by omega), same 3 (by omega),
    same 4 (by omega), same 5 (by omega), same 6 (by omega), same 7 (by omega)]

theorem readWord_of_zero (zero : ∀ i < 8, m (a + i) = 0) : m.readWord a = 0 := by
  have first : m a = 0 := zero 0 (by omega)
  simp only [readWord, first, zero 1 (by omega), zero 2 (by omega), zero 3 (by omega),
    zero 4 (by omega), zero 5 (by omega), zero 6 (by omega), zero 7 (by omega)]
  rfl

/-- A stored word reads back whole. -/
@[simp] theorem readWord_writeWord : (m.writeWord a w).readWord a = w := by
  have lane (i : ℕ) (bound : i < 8) : m.writeWord a w (a + i) = w.extractLsb' (8 * i) 8 := by
    rw [writeWord, if_pos (by omega), Nat.add_sub_cancel_left]
  have first : m.writeWord a w a = w.extractLsb' 0 8 := lane 0 (by omega)
  simp only [readWord, first, lane 1 (by omega), lane 2 (by omega), lane 3 (by omega),
    lane 4 (by omega), lane 5 (by omega), lane 6 (by omega), lane 7 (by omega)]
  apply BitVec.eq_of_getLsbD_eq
  intro i bound
  simp only [BitVec.getLsbD_append, BitVec.getLsbD_extractLsb']
  grind

/-- Store `n` bytes, given by their offset, from `a` on. -/
def writeBlock (m : Bytes) (a n : ℕ) (block : ℕ → BitVec 8) : Bytes := fun b =>
  if a ≤ b ∧ b < a + n then block (b - a) else m b

@[simp] theorem writeBlock_zero (block : ℕ → BitVec 8) : m.writeBlock a 0 block = m := by
  funext b
  rw [writeBlock, if_neg (by omega)]

/-- A block is stored byte by byte. -/
theorem writeBlock_succ (n : ℕ) (block : ℕ → BitVec 8) :
    m.writeBlock a (n + 1) block = (m.writeBlock a n block).writeByte (a + n) (block n) := by
  funext b
  by_cases last : b = a + n
  · subst last
    rw [writeByte_same, writeBlock, if_pos (by omega), Nat.add_sub_cancel_left]
  · rw [writeByte_ne _ last, writeBlock, writeBlock]
    exact if_congr (by omega) rfl rfl

theorem writeBlock_inside {n : ℕ} (block : ℕ → BitVec 8) {i : ℕ} (inside : i < n) :
    m.writeBlock a n block (a + i) = block i := by
  rw [writeBlock, if_pos (by omega), Nat.add_sub_cancel_left]

theorem writeBlock_outside {n : ℕ} (block : ℕ → BitVec 8) (outside : b < a ∨ a + n ≤ b) :
    m.writeBlock a n block b = m b := by
  rw [writeBlock, if_neg (by omega)]

/-- Words at least eight bytes apart do not meet. -/
theorem readWord_writeWord_outside (apart : b + 8 ≤ a ∨ a + 8 ≤ b) :
    (m.writeWord a w).readWord b = m.readWord b :=
  readWord_congr fun i bound => writeWord_outside (by omega)

end Bytes

end SimpleOS.Lib
