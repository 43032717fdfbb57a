import SimpleOS.Proofs.Entries

/-! # Page numbers and table indices

`get_pd_from_pagenum` shifts the page number to an address first, which drops its upper 12 bits, and the
masks keep 57 bits of the address. The validation that follows finds indices of nine bits and never fails.
-/

namespace SimpleOS.Model

/-- The page number that five indices stand for. -/
def Pd.recombined (pd : Pd) : ℕ := pd.pgd * 2 ^ 36 + pd.p4d * 2 ^ 27 + pd.pud * 2 ^ 18 + pd.pmd * 2 ^ 9 + pd.pt

/-- The page number is rejected, or its indices stand for it. -/
def Decomposed (pgn : Addr) : Prop := ∀ pd, getPdFromPagenum pgn = some pd → pd.recombined = pgn.toNat

/-- Two different page numbers are not both accepted with the same indices. -/
def SlotsApart (p q : Addr) : Prop :=
  p ≠ q → ∀ pd, getPdFromPagenum p = some pd → getPdFromPagenum q ≠ some pd

/-- What is recombined is the page number without its upper 19 bits. -/
private theorem pdOf_recombined (pgn : Addr) : (pdOf pgn).recombined = pgn.toNat % 2 ^ 45 := by
  simp only [Pd.recombined, pdOf]
  omega

/-- The indices are those of the low 45 bits, and every page number is accepted. -/
private theorem pdOf_eq_iff (p q : Addr) : pdOf p = pdOf q ↔ p.toNat % 2 ^ 45 = q.toNat % 2 ^ 45 := by
  constructor
  · intro same
    rw [← pdOf_recombined, ← pdOf_recombined, same]
  · intro same
    simp only [pdOf, Pd.mk.injEq, Fin.mk.injEq]
    omega

/-- The indices stand for the page number exactly below 2^45, and two page numbers are told apart exactly
by their low 45 bits. -/
theorem decomposed_iff (pgn other : Addr) :
    (Decomposed pgn ↔ pgn.toNat < 2 ^ 45) ∧
    (SlotsApart pgn other ↔ pgn = other ∨ pgn.toNat % 2 ^ 45 ≠ other.toNat % 2 ^ 45) := by
  constructor
  · simp only [Decomposed, getPdFromPagenum_eq, Option.some.injEq, forall_eq', pdOf_recombined]
    omega
  · simp only [SlotsApart, getPdFromPagenum_eq, ne_eq, Option.some.injEq, forall_eq', pdOf_eq_iff]
    rw [← or_iff_not_imp_left, eq_comm (a := other.toNat % 2 ^ 45)]

/-- The page number 2^45 is accepted with the indices of page 0. -/
theorem page_two_pow_45 : getPdFromPagenum 0x200000000000 = some ⟨0, 0, 0, 0, 0⟩ ∧
    getPdFromPagenum 0 = some ⟨0, 0, 0, 0, 0⟩ ∧
    ¬((∀ pgn, Decomposed pgn) ∧ ∀ p q, SlotsApart p q) := by
  have aliased : getPdFromPagenum 0x200000000000 = some ⟨0, 0, 0, 0, 0⟩ := by decide
  have first : getPdFromPagenum 0 = some ⟨0, 0, 0, 0, 0⟩ := by decide
  refine ⟨aliased, first, ?_⟩
  rintro ⟨decomposed, -⟩
  have value := decomposed _ _ aliased
  revert value
  decide

end SimpleOS.Model
