import Mathlib.Tactic.Common
import SimpleOS.Model.PageTable

/-! # Fields of page table entries and digits of page numbers

An entry is seen through two observations only: whether it is present, and its 13-bit frame number.
The laws below give both for the entries the code stores. A page number splits into five digits of
nine bits, and the splitting never fails.
-/

namespace SimpleOS.Model

private theorem pagingPteFpnMask_eq : pagingPteFpnMask = 0x1fff#32 := by decide

private theorem pagingPgnMask_eq : pagingPgnMask = 0x3ff000#32 := by decide

private theorem pagingOffstMask_eq : pagingOffstMask = 0xfff#32 := by decide

theorem pagingMaxPgn_eq : pagingMaxPgn = 1024 := by decide

/-- The present flag is bit 31. -/
private theorem pagingPtePresent_eq {n : ℕ} (pte : BitVec n) (wide : 31 < n) :
    pagingPtePresent pte = pte.getLsbD 31 := by
  have mask : pagingPtePresentMask.setWidth n = BitVec.twoPow n 31 := by
    apply BitVec.eq_of_getLsbD_eq
    intro i bound
    simp only [pagingPtePresentMask, bit, BitVec.getLsbD_setWidth, BitVec.getLsbD_twoPow,
      BitVec.getLsbD_shiftLeft, BitVec.getLsbD_one, bound, decide_true, Bool.true_and]
    grind
  rw [pagingPtePresent, mask, BitVec.and_twoPow]
  cases pte.getLsbD 31 with
  | false => simp
  | true =>
    have nonzero : BitVec.twoPow n 31 ≠ 0 := by
      intro zero
      have flag := congrArg (fun v => v.getLsbD 31) zero
      simp [wide] at flag
    simpa using nonzero

/-- The frame number is the low 13 bits. -/
private theorem pagingPteFpn_eq {n : ℕ} (pte : BitVec n) (wide : 13 ≤ n) :
    pagingPteFpn pte = pte.toNat % 2 ^ 13 := by
  have big : 2 ^ 13 ≤ 2 ^ n := Nat.pow_le_pow_right (by omega) wide
  have mask : (0x1fff#32).toNat % 2 ^ n = 2 ^ 13 - 1 := Nat.mod_eq_of_lt (by simp; omega)
  rw [pagingPteFpn, getVal, pagingPteFpnMask_eq, BitVec.ushiftRight_zero, BitVec.toNat_and,
    BitVec.toNat_setWidth, mask, Nat.and_two_pow_sub_one_eq_mod]

theorem pagingPteFpn_lt {n : ℕ} (pte : BitVec n) (wide : 13 ≤ n) : pagingPteFpn pte < 8192 := by
  rw [pagingPteFpn_eq pte wide]
  exact Nat.mod_lt _ (by omega)

/-- Narrowing an entry to `uint32_t` keeps its flag. -/
theorem pagingPtePresent_setWidth (pte : Addr) :
    pagingPtePresent (pte.setWidth 32) = pagingPtePresent pte := by
  rw [pagingPtePresent_eq _ (by omega), pagingPtePresent_eq _ (by omega), BitVec.getLsbD_setWidth]
  simp

/-- Narrowing an entry to `uint32_t` keeps its frame number. -/
theorem pagingPteFpn_setWidth (pte : Addr) : pagingPteFpn (pte.setWidth 32) = pagingPteFpn pte := by
  rw [pagingPteFpn_eq _ (by omega), pagingPteFpn_eq _ (by omega), BitVec.toNat_setWidth]
  omega

@[simp] theorem pagingPtePresent_zero : pagingPtePresent 0#64 = false := by
  rw [pagingPtePresent_eq _ (by omega)]
  simp

/-- `SETVAL` on the frame field stores the low 13 bits of a frame number. -/
theorem pagingPteFpn_setVal_mod (pte : Addr) (fpn : ℕ) :
    pagingPteFpn (setVal pte (BitVec.ofNat 64 fpn) pagingPteFpnMask 0) = fpn % 2 ^ 13 := by
  have field : setVal pte (BitVec.ofNat 64 fpn) pagingPteFpnMask 0 &&& pagingPteFpnMask.setWidth 64 =
      BitVec.ofNat 64 fpn &&& pagingPteFpnMask.setWidth 64 := by
    apply BitVec.eq_of_getLsbD_eq
    intro i bound
    simp only [setVal, BitVec.getLsbD_and, BitVec.getLsbD_or, BitVec.getLsbD_setWidth,
      BitVec.getLsbD_not, BitVec.shiftLeft_zero]
    cases pagingPteFpnMask.getLsbD i <;> simp
  rw [pagingPteFpn, getVal, field, ← getVal, ← pagingPteFpn, pagingPteFpn_eq _ (by omega),
    BitVec.toNat_ofNat]
  omega

/-- A frame number that fits the field is stored as it is. -/
private theorem pagingPteFpn_setVal (pte : Addr) {fpn : ℕ} (fits : fpn < 8192) :
    pagingPteFpn (setVal pte (BitVec.ofNat 64 fpn) pagingPteFpnMask 0) = fpn := by
  rw [pagingPteFpn_setVal_mod, Nat.mod_eq_of_lt (by omega)]

/-- `SETVAL` on the frame field leaves the present flag alone. -/
private theorem pagingPtePresent_setVal (pte value : Addr) :
    pagingPtePresent (setVal pte value pagingPteFpnMask 0) = pagingPtePresent pte := by
  rw [pagingPtePresent_eq _ (by omega), pagingPtePresent_eq _ (by omega), pagingPteFpnMask_eq]
  simp [setVal]

/-- A new directory entry is present and names its frame. -/
theorem initPte_online (pte : Addr) {fpn : ℕ} (fits : fpn < 8192) (nonzero : fpn ≠ 0) :
    pagingPtePresent (initPte pte true fpn false 0 0).1 = true ∧
      pagingPteFpn (initPte pte true fpn false 0 0).1 = fpn := by
  simp only [initPte, Bool.not_false, if_true, if_neg nonzero]
  refine ⟨?_, pagingPteFpn_setVal _ fits⟩
  rw [pagingPtePresent_setVal, pagingPtePresent_eq _ (by omega)]
  simp [clrBit, setBit, pagingPtePresentMask, pagingPteSwappedMask, pagingPteDirtyMask, bit]

/-- A new leaf entry is present and names its frame. -/
theorem onlinePte_present (fpn : ℕ) : pagingPtePresent (onlinePte fpn) = true := by
  rw [onlinePte, pagingPtePresent_setVal, pagingPtePresent_eq _ (by omega)]
  simp [clrBit, setBit, pagingPtePresentMask, pagingPteSwappedMask, bit]

theorem onlinePte_fpn {fpn : ℕ} (fits : fpn < 8192) : pagingPteFpn (onlinePte fpn) = fpn :=
  pagingPteFpn_setVal _ fits

theorem onlinePte_swapped (fpn : ℕ) :
    (onlinePte fpn).setWidth 32 &&& pagingPteSwappedMask = 0#32 := by
  apply BitVec.eq_of_getLsbD_eq
  intro i bound
  have mask : pagingPteSwappedMask.getLsbD i = decide (i = 30) := by
    rw [pagingPteSwappedMask, bit]
    simp only [BitVec.getLsbD_shiftLeft, BitVec.getLsbD_one]
    by_cases here : i = 30
    · simp [here]
    · simp [here, bound]
      omega
  rw [BitVec.getLsbD_and, mask]
  by_cases here : i = 30
  · subst here
    simp [onlinePte, setVal, clrBit, setBit, pagingPteFpnMask_eq, pagingPtePresentMask, pagingPteSwappedMask, bit]
  · simp [here]

private theorem getLsbD_genmask {h l i : ℕ} (high : h < 32) : (genmask h l).getLsbD i = decide (l ≤ i ∧ i ≤ h) := by
  simp only [genmask, BitVec.getLsbD_and, BitVec.getLsbD_shiftLeft, BitVec.getLsbD_ushiftRight,
    BitVec.getLsbD_not, BitVec.getLsbD_zero, Bool.not_false, Bool.and_true]
  grind

/-- `SETVAL` replaces the bits under its mask, among the low 32. -/
private theorem getLsbD_setVal (v value : Addr) (mask : BitVec 32) (offst : ℕ) {i : ℕ} (low : i < 32) :
    (setVal v value mask offst).getLsbD i =
      if mask.getLsbD i then decide (offst ≤ i) && value.getLsbD (i - offst) else v.getLsbD i := by
  have bound : i < 64 := by omega
  simp only [setVal, BitVec.getLsbD_or, BitVec.getLsbD_and, BitVec.getLsbD_setWidth, BitVec.getLsbD_not,
    BitVec.getLsbD_shiftLeft, low, bound, decide_true, Bool.true_and]
  cases mask.getLsbD i with
  | true =>
    simp
    grind
  | false => simp

private theorem getLsbD_setBit (v : Addr) (mask : BitVec 32) (i : ℕ) :
    (setBit v mask).getLsbD i = (v.getLsbD i || (decide (i < 64) && mask.getLsbD i)) := by
  rw [setBit, BitVec.getLsbD_or, BitVec.getLsbD_setWidth]

private theorem getLsbD_bit (nr i : ℕ) (small : nr < 32) : (bit nr).getLsbD i = decide (i = nr) := by
  simp only [bit, BitVec.getLsbD_shiftLeft, BitVec.getLsbD_one]
  grind

/-- Bit `i` of the entry that `pte_set_swap` stores. -/
private theorem getLsbD_swappedPte (pte : Addr) (swptyp : BitVec 32) (swpoff : Addr) {i : ℕ} (low : i < 32) :
    (swappedPte pte swptyp swpoff).getLsbD i =
      if i < 5 then swptyp.getLsbD i else if i < 26 then swpoff.getLsbD (i - 5)
      else pte.getLsbD i || decide (30 ≤ i) := by
  have bound : i < 64 := by omega
  have flags : decide (30 ≤ i) = (decide (i = 31) || decide (i = 30)) := by
    rw [← Bool.decide_or, decide_eq_decide]
    omega
  rw [flags, ← Bool.or_assoc, swappedPte, getLsbD_setVal _ _ _ _ low, getLsbD_setVal _ _ _ _ low, getLsbD_setBit,
    getLsbD_setBit,
    pagingPteSwpoffMask, pagingPteSwptypMask, pagingPtePresentMask, pagingPteSwappedMask,
    getLsbD_genmask (by omega), getLsbD_genmask (by omega), getLsbD_bit _ _ (by omega), getLsbD_bit _ _ (by omega),
    BitVec.getLsbD_setWidth]
  simp only [decide_eq_true_eq, bound, decide_true, Bool.true_and]
  grind

theorem swappedPte_present (pte : Addr) (swptyp : BitVec 32) (swpoff : Addr) :
    pagingPtePresent (swappedPte pte swptyp swpoff) = true := by
  rw [pagingPtePresent_eq _ (by omega), getLsbD_swappedPte _ _ _ (by omega)]
  simp

/-- The swapped flag is bit 30. -/
private theorem pagingPteSwapped_eq (pte : BitVec 32) : pagingPteSwapped pte = pte.getLsbD 30 := by
  have mask : pagingPteSwappedMask.setWidth 32 = BitVec.twoPow 32 30 := by decide
  rw [pagingPteSwapped, mask, BitVec.and_twoPow]
  cases pte.getLsbD 30 <;> decide

theorem swappedPte_swapped (pte : Addr) (swptyp : BitVec 32) (swpoff : Addr) :
    pagingPteSwapped ((swappedPte pte swptyp swpoff).setWidth 32) = true := by
  rw [pagingPteSwapped_eq, BitVec.getLsbD_setWidth, getLsbD_swappedPte _ _ _ (by omega)]
  simp

private theorem getLsbD_of_lt {n m i : ℕ} {v : BitVec n} (small : v.toNat < 2 ^ m) (high : m ≤ i) :
    v.getLsbD i = false := by
  rw [BitVec.getLsbD]
  exact Nat.testBit_lt_two_pow (Nat.lt_of_lt_of_le small (Nat.pow_le_pow_right (by omega) high))

/-- A type of five bits is read back. -/
theorem swappedPte_swptyp (pte : Addr) {swptyp : BitVec 32} (swpoff : Addr) (small : swptyp.toNat < 32) :
    pagingPteSwptyp ((swappedPte pte swptyp swpoff).setWidth 32) = swptyp := by
  apply BitVec.eq_of_getLsbD_eq
  intro i low
  rw [pagingPteSwptyp, getVal, BitVec.ushiftRight_zero, BitVec.getLsbD_and, BitVec.getLsbD_setWidth,
    getLsbD_swappedPte _ _ _ low, BitVec.setWidth_eq, pagingPteSwptypMask, getLsbD_genmask (by omega)]
  by_cases field : i < 5
  · simp [field, low]
    omega
  · rw [getLsbD_of_lt (m := 5) small (by omega)]
    simp
    omega

/-- An offset of 21 bits is read back. -/
theorem swappedPte_swp (pte : Addr) (swptyp : BitVec 32) {swpoff : Addr} (small : swpoff.toNat < 2 ^ 21) :
    pagingPteSwp ((swappedPte pte swptyp swpoff).setWidth 32) = swpoff.setWidth 32 := by
  apply BitVec.eq_of_getLsbD_eq
  intro i low
  rw [pagingPteSwp, getVal, BitVec.getLsbD_ushiftRight, BitVec.getLsbD_and, BitVec.setWidth_eq,
    BitVec.getLsbD_setWidth, BitVec.getLsbD_setWidth, pagingPteSwpoffMask, getLsbD_genmask (by omega)]
  by_cases field : 5 + i < 26
  · rw [getLsbD_swappedPte _ _ _ (by omega), if_neg (by omega), if_pos field, Nat.add_sub_cancel_left]
    simp only [low, decide_true, Bool.true_and]
    rw [decide_eq_true (by omega), decide_eq_true (by omega), Bool.true_and, Bool.and_true]
  · rw [getLsbD_of_lt (m := 21) small (by omega), decide_eq_false (p := 5 ≤ 5 + i ∧ 5 + i ≤ 25) (by omega)]
    simp

/-- The page number of an address is bits 12 to 21. -/
theorem pagingPgn_toNat {n : ℕ} (addr : BitVec n) (wide : 22 ≤ n) :
    (pagingPgn addr).toNat = addr.toNat / 4096 % 1024 := by
  have big : 2 ^ 22 ≤ 2 ^ n := Nat.pow_le_pow_right (by omega) wide
  have lobit : pagingAddrPgnLobit = 12 := by decide
  have mask : (0x3ff000#32).toNat % 2 ^ n = (2 ^ 10 - 1) <<< 12 := Nat.mod_eq_of_lt (by simp; omega)
  rw [pagingPgn, getVal, pagingPgnMask_eq, lobit, BitVec.toNat_ushiftRight, BitVec.toNat_and,
    BitVec.toNat_setWidth, mask, Nat.shiftRight_and_distrib, Nat.shiftLeft_shiftRight,
    Nat.and_two_pow_sub_one_eq_mod, Nat.shiftRight_eq_div_pow]

/-- The offset of an address is its low 12 bits. -/
theorem pagingOffst_toNat {n : ℕ} (addr : BitVec n) (wide : 12 ≤ n) :
    (pagingOffst addr).toNat = addr.toNat % 4096 := by
  have big : 2 ^ 12 ≤ 2 ^ n := Nat.pow_le_pow_right (by omega) wide
  have mask : (0xfff#32).toNat % 2 ^ n = 2 ^ 12 - 1 := Nat.mod_eq_of_lt (by simp; omega)
  rw [pagingOffst, getVal, pagingOffstMask_eq, BitVec.ushiftRight_zero, BitVec.toNat_and,
    BitVec.toNat_setWidth, mask, Nat.and_two_pow_sub_one_eq_mod]

private theorem getLsbD_genmask64 {h l i : ℕ} (high : h < 64) (bound : i < 64) :
    (genmask64 h l).getLsbD i = decide (l ≤ i ∧ i ≤ h) := by
  simp only [genmask64, BitVec.getLsbD_and, BitVec.getLsbD_shiftLeft, BitVec.getLsbD_ushiftRight,
    BitVec.getLsbD_not, BitVec.getLsbD_zero, Bool.not_false, Bool.and_true, bound, decide_true,
    Bool.true_and]
  grind

/-- An index field of nine bits is a digit of the address in base 512. -/
private theorem index_field (addr : Addr) {l : ℕ} (bound : l + 8 < 64) :
    ((addr &&& genmask64 (l + 8) l) >>> l).toNat = addr.toNat / 2 ^ l % 512 := by
  have field : (addr &&& genmask64 (l + 8) l) >>> l = (addr.extractLsb' l 9).setWidth 64 := by
    apply BitVec.eq_of_getLsbD_eq
    intro i small
    simp only [BitVec.getLsbD_ushiftRight, BitVec.getLsbD_and, BitVec.getLsbD_setWidth,
      BitVec.getLsbD_extractLsb', small, decide_true, Bool.true_and]
    by_cases inside : l + i < 64
    · rw [getLsbD_genmask64 (by omega) inside]
      grind
    · rw [BitVec.getLsbD_of_ge addr _ (by omega)]
      simp
  rw [field, BitVec.toNat_setWidth, BitVec.extractLsb'_toNat, Nat.shiftRight_eq_div_pow,
    Nat.mod_eq_of_lt (by omega)]

private theorem digit_lt (n : ℕ) : n % 512 < 512 := Nat.mod_lt _ (by omega)

/-- The five base-512 digits of a page number. -/
def pdOf (pgn : Addr) : Pd where
  pgd := ⟨pgn.toNat / 2 ^ 36 % 512, digit_lt _⟩
  p4d := ⟨pgn.toNat / 2 ^ 27 % 512, digit_lt _⟩
  pud := ⟨pgn.toNat / 2 ^ 18 % 512, digit_lt _⟩
  pmd := ⟨pgn.toNat / 2 ^ 9 % 512, digit_lt _⟩
  pt := ⟨pgn.toNat % 512, digit_lt _⟩

/-- The decomposition of a page number always succeeds and yields its digits. -/
theorem getPdFromPagenum_eq (pgn : Addr) : getPdFromPagenum pgn = some (pdOf pgn) := by
  have bound := pgn.isLt
  have shifted : (pgn <<< 12).toNat = pgn.toNat * 4096 % 2 ^ 64 := by
    rw [BitVec.toNat_shiftLeft, Nat.shiftLeft_eq]
  have digit (l : ℕ) (small : l + 8 < 64) :
      (((pgn <<< 12) &&& genmask64 (l + 8) l) >>> l).toNat < 512 := by
    rw [index_field _ small]
    exact digit_lt _
  rw [getPdFromPagenum, getPdFromAddress]
  simp only [dif_pos (digit 48 (by omega)), dif_pos (digit 39 (by omega)),
    dif_pos (digit 30 (by omega)), dif_pos (digit 21 (by omega)), dif_pos (digit 12 (by omega)),
    Option.some.injEq, pdOf, Pd.mk.injEq, Fin.mk.injEq]
  refine ⟨?_, ?_, ?_, ?_, ?_⟩
  · rw [index_field _ (l := 48) (by omega), shifted]; omega
  · rw [index_field _ (l := 39) (by omega), shifted]; omega
  · rw [index_field _ (l := 30) (by omega), shifted]; omega
  · rw [index_field _ (l := 21) (by omega), shifted]; omega
  · rw [index_field _ (l := 12) (by omega), shifted]; omega

/-- The page number with given digits. -/
def Pd.pageNumber (pd : Pd) : BitVec 45 :=
  BitVec.ofNat 45 (pd.pgd * 2 ^ 36 + pd.p4d * 2 ^ 27 + pd.pud * 2 ^ 18 + pd.pmd * 2 ^ 9 + pd.pt)

theorem pdOf_pageNumber (pd : Pd) : pdOf (pd.pageNumber.setWidth 64) = pd := by
  obtain ⟨⟨a, ha⟩, ⟨b, hb⟩, ⟨c, hc⟩, ⟨d, hd⟩, ⟨e, he⟩⟩ := pd
  simp only [pdOf, Pd.pageNumber, BitVec.toNat_setWidth, BitVec.toNat_ofNat, Pd.mk.injEq, Fin.mk.injEq]
  omega

/-- Page numbers of 45 bits are their digits. -/
theorem pdOf_injective {p q : BitVec 45} (same : pdOf (p.setWidth 64) = pdOf (q.setWidth 64)) :
    p = q := by
  have boundP := p.isLt
  have boundQ := q.isLt
  simp only [pdOf, BitVec.toNat_setWidth, Pd.mk.injEq, Fin.mk.injEq] at same
  apply BitVec.eq_of_toNat_eq
  omega

end SimpleOS.Model
