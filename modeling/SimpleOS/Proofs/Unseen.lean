import SimpleOS.Proofs.Entries

/-! # What building a path does not see

`ensure_pte_mapping` and `pte_set_fpn` read and write the root directory, the tables in RAM and its free list.
A change of anything else in the kernel state can be made before or after them.
-/

namespace SimpleOS.Model

/-- A change of the kernel state beside root directory, tables and free list. -/
structure Unseen (change : Krnl → Krnl) : Prop where
  pgd : ∀ k, (change k).mm.pgd = k.mm.pgd
  entry : ∀ k f i, (change k).mram.entry f i = k.mram.entry f i
  taken : ∀ k, (change k).mram.getFreefp =
    k.mram.getFreefp.map fun taken => (taken.1, (change { k with mram := taken.2 }).mram)
  both : ∀ k pgd mram, change ⟨{ k.mm with pgd }, mram⟩ =
    ⟨{ (change k).mm with pgd }, (change { k with mram }).mram⟩
  clear : ∀ k fpn n, (change k).mram.clearEntries fpn n =
    (change { k with mram := k.mram.clearEntries fpn n }).mram
  set : ∀ k f i v, (change k).mram.setEntry f i v = (change { k with mram := k.mram.setEntry f i v }).mram

namespace Unseen

variable {change : Krnl → Krnl}

private theorem ram (unseen : Unseen change) (k : Krnl) (mram : Memphy) :
    change { k with mram } = { change k with mram := (change { k with mram }).mram } := by
  have both := unseen.both k k.mm.pgd mram
  nth_rewrite 2 [← unseen.pgd k] at both
  exact both

private theorem ensurePgd (unseen : Unseen change) (k : Krnl) (i : Fin 512) :
    Model.ensurePgd (change k) i = (change (Model.ensurePgd k i).1, (Model.ensurePgd k i).2) := by
  cases present : pagingPtePresent (k.mm.pgd i) with
  | true => simp only [Model.ensurePgd, unseen.pgd, present, if_true]
  | false =>
    simp only [Model.ensurePgd, unseen.pgd, present, Bool.false_eq_true, if_false, unseen.taken]
    cases k.mram.getFreefp with
    | none => rfl
    | some popped =>
      simp only [Option.map_some]
      rw [unseen.both k _ (popped.2.clearEntries popped.1 512), unseen.clear]

private theorem ensureTable (unseen : Unseen change) (k : Krnl) (table : ℕ) (i : Fin 512) :
    Model.ensureTable (change k) table i =
      (change (Model.ensureTable k table i).1, (Model.ensureTable k table i).2) := by
  cases present : pagingPtePresent (k.mram.entry table i) with
  | true => simp only [Model.ensureTable, unseen.entry, present, if_true]
  | false =>
    simp only [Model.ensureTable, unseen.entry, present, Bool.false_eq_true, if_false, unseen.taken]
    cases k.mram.getFreefp with
    | none => rfl
    | some popped => simp only [Option.map_some, unseen.entry, unseen.set, unseen.clear, ← unseen.ram]

private theorem thenTable {result : Krnl × Option ℕ} {next : Krnl → ℕ → Krnl × Option ℕ}
    (later : ∀ k table, next (change k) table = (change (next k table).1, (next k table).2)) :
    Model.thenTable (change result.1, result.2) next =
      (change (Model.thenTable result next).1, (Model.thenTable result next).2) := by
  obtain ⟨k, _ | table⟩ := result
  · rfl
  · exact later k table

theorem ensurePteMapping (unseen : Unseen change) (k : Krnl) (pd : Pd) : Model.ensurePteMapping (change k) pd =
    (change (Model.ensurePteMapping k pd).1, (Model.ensurePteMapping k pd).2) := by
  simp only [Model.ensurePteMapping]
  rw [unseen.ensurePgd]
  apply Unseen.thenTable
  intro k p4d
  rw [unseen.ensureTable]
  apply Unseen.thenTable
  intro k pud
  rw [unseen.ensureTable]
  apply Unseen.thenTable
  intro k pmd
  exact unseen.ensureTable k pmd pd.pmd

theorem pteSetFpn (unseen : Unseen change) (k : Krnl) (pgn : Addr) (fpn : ℕ) :
    Model.pteSetFpn (change k) pgn fpn = (change (Model.pteSetFpn k pgn fpn).1, (Model.pteSetFpn k pgn fpn).2) := by
  simp only [Model.pteSetFpn, getPdFromPagenum_eq, unseen.ensurePteMapping]
  generalize Model.ensurePteMapping k (pdOf pgn) = result
  obtain ⟨k', _ | table⟩ := result
  · rfl
  · simp only [unseen.set, ← unseen.ram]

private theorem takePgd (unseen : Unseen change) (k : Krnl) (i : Fin 512) :
    Model.takePgd (change k) i = (change (Model.takePgd k i).1, (Model.takePgd k i).2) := by
  cases present : pagingPtePresent (k.mm.pgd i) with
  | true => simp only [Model.takePgd, unseen.pgd, present, if_true]
  | false =>
    simp only [Model.takePgd, unseen.pgd, present, Bool.false_eq_true, if_false, unseen.taken]
    cases k.mram.getFreefp with
    | none => rfl
    | some popped =>
      simp only [Option.map_some]
      rw [unseen.both k (Function.update k.mm.pgd i (initPte (k.mm.pgd i) true popped.1 false 0 0).1) popped.2]

private theorem takeTable (unseen : Unseen change) (k : Krnl) (table : ℕ) (i : Fin 512) :
    Model.takeTable (change k) table i = (change (Model.takeTable k table i).1, (Model.takeTable k table i).2) := by
  cases present : pagingPtePresent (k.mram.entry table i) with
  | true => simp only [Model.takeTable, unseen.entry, present, if_true]
  | false =>
    simp only [Model.takeTable, unseen.entry, present, Bool.false_eq_true, if_false, unseen.taken]
    cases k.mram.getFreefp with
    | none => rfl
    | some popped => simp only [Option.map_some, unseen.entry, unseen.set, ← unseen.ram]

theorem takePath (unseen : Unseen change) (k : Krnl) (pd : Pd) :
    Model.takePath (change k) pd = (change (Model.takePath k pd).1, (Model.takePath k pd).2) := by
  simp only [Model.takePath]
  rw [unseen.takePgd]
  apply Unseen.thenTable
  intro k p4d
  rw [unseen.takeTable]
  apply Unseen.thenTable
  intro k pud
  rw [unseen.takeTable]
  apply Unseen.thenTable
  intro k pmd
  exact unseen.takeTable k pmd pd.pmd

end Unseen

end SimpleOS.Model
