import SimpleOS.Proofs.Mapping

/-! # The tables a path lacks

The positions of a path that are empty take the frames of the free list in order, as far as it goes. `Built` says
that a walk down the path does just this; two walks of the same path from the same forest then leave the same
forest. `Walk` is what `ensure_pte_mapping` does as long as no missing table would get frame 0.
-/

namespace SimpleOS.Model

open Lib

variable {ι : Type} [DecidableEq ι] {others : ι → Fin 512 → Addr} {P : ι} {k k' : Krnl} {n g : ℕ} {flight : List ℕ}
  {r : Root ι} {path goal : List (Fin 512)} {paths : List (List (Fin 512))}

/-- The positions of the four tables of a page, from the top. -/
def Pd.tablePaths (pd : Pd) : List (List (Fin 512)) := [[], [pd.p4d], [pd.pud, pd.p4d], pd.tablePath]

/-- The missing tables among some positions, each with the frame it is to get. -/
def newTables (others : ι → Fin 512 → Addr) (P : ι) (k : Krnl) (r : Root ι) (paths : List (List (Fin 512))) :
    List (List (Fin 512) × ℕ) :=
  ((k.links others P).missing r paths).zip k.mram.freeFpList

omit [DecidableEq ι] in
/-- A path whose PT table is there lacks no table. -/
theorem missing_of_reached {links : Links (Root ι) 512} {pd : Pd} {f : ℕ}
    (reached : links.frameAt r pd.tablePath = some f) : links.missing r pd.tablePaths = [] := by
  obtain ⟨pmd, atPmd, -⟩ := Option.bind_eq_some_iff.mp reached
  obtain ⟨pud, atPud, -⟩ := Option.bind_eq_some_iff.mp atPmd
  obtain ⟨p4d, atP4d, -⟩ := Option.bind_eq_some_iff.mp atPud
  rw [Pd.tablePaths, Links.missing_cons_some atP4d, Links.missing_cons_some atPud, Links.missing_cons_some atPmd,
    Links.missing_cons_some reached]
  rfl

omit [DecidableEq ι] in
/-- The PT table is the last to be missing. -/
theorem missing_of_absent {links : Links (Root ι) 512} {pd : Pd} (absent : links.frameAt r pd.tablePath = none) :
    ∃ upper, pd.tablePath ∉ upper ∧ links.missing r pd.tablePaths = upper ++ [pd.tablePath] := by
  have split : pd.tablePaths = [[], [pd.p4d], [pd.pud, pd.p4d]] ++ [pd.tablePath] := rfl
  refine ⟨links.missing r [[], [pd.p4d], [pd.pud, pd.p4d]], ?_, ?_⟩
  · intro member
    have named := List.mem_of_mem_filter member
    simp [Pd.tablePath] at named
  · rw [split, Links.missing, List.filter_append]
    simp [Links.missing, absent]

theorem newTables_present {f : ℕ} (reached : (k.links others P).frameAt r path = some f) :
    newTables others P k r (path :: paths) = newTables others P k r paths := by
  rw [newTables, Links.missing_cons_some reached, newTables]

theorem Planted.newTables (planted : Planted others P k k' r path g) (short : ∀ p ∈ paths, p.length < 4)
    (other : path ∉ paths) :
    Model.newTables others P k r (path :: paths) = (path, g) :: Model.newTables others P k' r paths := by
  rw [Model.newTables, Links.missing_cons_none planted.plants.absent, planted.free, List.zip_cons_cons,
    Model.newTables, planted.plants.missing short other]

/-- A walk fills the missing positions from the free list, and reaches its goal if there are frames enough. -/
structure Built (others : ι → Fin 512 → Addr) (P : ι) (k : Krnl) (r : Root ι) (paths : List (List (Fin 512)))
    (goal : List (Fin 512)) (result : Krnl × Option ℕ) : Prop where
  maxsz : result.1.mram.maxsz = k.mram.maxsz
  fills : Links.Fills 4 (k.links others P) (result.1.links others P) r (newTables others P k r paths)
  free : result.1.mram.freeFpList = k.mram.freeFpList.drop ((k.links others P).missing r paths).length
  succeeds : result.2.isSome ↔ ((k.links others P).missing r paths).length ≤ k.mram.freeFpList.length
  reached : ∀ f, result.2 = some f → (result.1.links others P).frameAt r goal = some f

/-- A walk moves no table. -/
theorem Built.kept {result : Krnl × Option ℕ} (built : Built others P k r paths goal result) {f : ℕ}
    {p : List (Fin 512)} (short : p.length < 4) (reached : (k.links others P).frameAt r p = some f) :
    (result.1.links others P).frameAt r p = some f := by
  rw [built.fills.below p short, reached]
  have old : (newTables others P k r paths).lookup p = none := by
    rw [List.lookup_eq_none_iff]
    intro entry member
    have absent := (List.mem_filter.mp (List.of_mem_zip (a := entry.1) (b := entry.2) member).1).2
    rw [bne_iff_ne]
    rintro rfl
    rw [reached] at absent
    cases absent
  rw [old, Option.none_or]

theorem Built.stop {f : ℕ} (here : (k.links others P).frameAt r goal = some f) :
    Built others P k r [] goal (k, some f) where
  maxsz := rfl
  fills := .nil _
  free := rfl
  succeeds := by simp [Links.missing]
  reached := by
    rintro _ ⟨⟩
    exact here

/-- One block and the walk that it goes on with. -/
theorem Block.built {New : Krnl → ℕ → Prop} {result : Krnl × Option ℕ} {next : Krnl → ℕ → Krnl × Option ℕ}
    (block : Block k ((k.links others P).frameAt r path) New result)
    (planted : ∀ k' g, New k' g → Planted others P k k' r path g) (short : ∀ p ∈ paths, p.length < 4)
    (other : path ∉ paths)
    (continued : ∀ k' table, result = (k', some table) → (k'.links others P).frameAt r path = some table →
      Built others P k' r paths goal (next k' table)) :
    Built others P k r (path :: paths) goal (thenTable result next) := by
  cases block with
  | present here =>
    have later := continued k _ rfl here
    refine ⟨later.maxsz, ?_, ?_, ?_, later.reached⟩
    · rw [newTables_present here]
      exact later.fills
    · rw [Links.missing_cons_some here]
      exact later.free
    · rw [Links.missing_cons_some here]
      exact later.succeeds
  | exhausted here empty =>
    refine ⟨rfl, ?_, ?_, ?_, by rintro _ ⟨⟩⟩
    · rw [newTables, empty, List.zip_nil_right]
      exact .nil _
    · change k.mram.freeFpList = _
      rw [empty, List.drop_nil]
    · simp [thenTable, Links.missing_cons_none here, empty]
  | @fresh k' g here new =>
    have table := planted k' g new
    have later := continued k' g rfl table.plants.here
    have others_missing := table.plants.missing short other
    refine ⟨later.maxsz.trans table.maxsz, ?_, ?_, ?_, later.reached⟩
    · rw [table.newTables short other]
      refine table.plants.fills later.fills ?_
      rw [List.lookup_eq_none_iff]
      intro entry member
      have named := List.mem_of_mem_filter (List.of_mem_zip (a := entry.1) (b := entry.2) member).1
      rw [bne_iff_ne]
      rintro rfl
      exact other named
    · rw [Links.missing_cons_none here, table.free, List.length_cons, List.drop_succ_cons, ← others_missing]
      exact later.free
    · rw [Links.missing_cons_none here, table.free, List.length_cons, List.length_cons, ← others_missing,
        Nat.succ_le_succ_iff]
      exact later.succeeds

/-- What `ensure_pte_mapping` does on the way down a path. -/
structure Walk (others : ι → Fin 512 → Addr) (P : ι) (n : ℕ) (flight : List ℕ) (k : Krnl) (r : Root ι)
    (paths : List (List (Fin 512))) (goal : List (Fin 512)) (result : Krnl × Option ℕ) : Prop where
  ensured : Ensured others P n flight k result r goal
  built : Built others P k r paths goal result

private theorem Walk.stop {f : ℕ} (frames : Frames 4 n (k.links others P) k.mram flight)
    (here : (k.links others P).frameAt r goal = some f) : Walk others P n flight k r [] goal (k, some f) :=
  ⟨.of_present frames here, .stop here⟩

/-- Frame 0 is not to become a table. -/
def Usable (others : ι → Fin 512 → Addr) (P : ι) (k : Krnl) (r : Root ι) (paths : List (List (Fin 512))) : Prop :=
  ∀ path, (path, 0) ∉ newTables others P k r paths

theorem Usable.head (usable : Usable others P k r (path :: paths)) :
    (k.links others P).frameAt r path = none → ∀ rest, k.mram.freeFpList ≠ 0 :: rest := by
  intro absent rest free
  apply usable path
  rw [newTables, Links.missing_cons_none absent, free]
  exact List.mem_cons_self

/-- The next block leaves no more to do than before. -/
theorem Block.newTables_sublist {New : Krnl → ℕ → Prop} {f : ℕ}
    (block : Block k ((k.links others P).frameAt r path) New (k', some f))
    (planted : ∀ k' g, New k' g → Planted others P k k' r path g) (short : ∀ p ∈ paths, p.length < 4)
    (other : path ∉ paths) {entry : List (Fin 512) × ℕ} (member : entry ∈ newTables others P k' r paths) :
    entry ∈ newTables others P k r (path :: paths) := by
  cases block with
  | present here => rwa [newTables_present here]
  | fresh here new =>
    rw [(planted _ _ new).newTables short other]
    exact List.mem_cons_of_mem _ member

/-- A block of `ensure_pte_mapping` and the walk that it goes on with. -/
private theorem Block.walk {result : Krnl × Option ℕ} {next : Krnl → ℕ → Krnl × Option ℕ}
    (frames : Frames 4 n (k.links others P) k.mram flight) (usable : Usable others P k r (path :: paths))
    (block : Block k ((k.links others P).frameAt r path) (fun k' g => NewTable others P k k' r path g) result)
    (short : ∀ p ∈ paths, p.length < 4) (other : path ∉ paths)
    (continued : ∀ k' table, Frames 4 n (k'.links others P) k'.mram flight → Usable others P k' r paths →
      (k'.links others P).frameAt r path = some table →
      Walk others P n flight k' r paths goal (next k' table)) :
    Walk others P n flight k r (path :: paths) goal (thenTable result next) := by
  have planted : ∀ k' g, NewTable others P k k' r path g → Planted others P k k' r path g :=
    fun k' g table => table.planted frames
  have ensured := block.ensured frames
  have later : ∀ k' table, result = (k', some table) → (k'.links others P).frameAt r path = some table →
      Walk others P n flight k' r paths goal (next k' table) := by
    rintro k' table rfl reached
    refine continued k' table ensured.frames ?_ reached
    intro path' member
    exact usable path' (block.newTables_sublist planted short other member)
  refine ⟨?_, block.built planted short other fun k' table same reached => (later k' table same reached).built⟩
  obtain ⟨k', _ | table⟩ := result
  · exact ⟨ensured.frames, ensured.grows, by rintro _ ⟨⟩, fun _ => ensured.exhausted rfl⟩
  · have rest := (later k' table rfl (ensured.reached table rfl)).ensured
    exact ⟨rest.frames, ensured.grows.trans rest.grows, rest.reached, rest.exhausted⟩

theorem thenTable_some (result : Krnl × Option ℕ) : thenTable result (fun k table => (k, some table)) = result := by
  obtain ⟨k, _ | table⟩ := result <;> rfl

/-- `ensure_pte_mapping` gives every missing table of its path a frame of the free list, or ends with no frame
left. -/
theorem ensurePteMapping_walk (frames : Frames 4 n (k.links others P) k.mram flight) (pd : Pd)
    (usable : Usable others P k (P, pd.pgd) pd.tablePaths) :
    Walk others P n flight k (P, pd.pgd) pd.tablePaths pd.tablePath (ensurePteMapping k pd) := by
  refine Block.walk frames usable (ensurePgd_block frames pd.pgd usable.head) (by simp [Pd.tablePath])
    (by simp [Pd.tablePath]) ?_
  intro k₁ p4d frames₁ usable₁ at₁
  refine Block.walk frames₁ usable₁ (ensureTable_block frames₁ rfl (by simp) at₁ pd.p4d usable₁.head)
    (by simp [Pd.tablePath]) (by simp [Pd.tablePath]) ?_
  intro k₂ pud frames₂ usable₂ at₂
  refine Block.walk frames₂ usable₂ (ensureTable_block frames₂ rfl (by simp) at₂ pd.pud usable₂.head)
    (by simp [Pd.tablePath]) (by simp [Pd.tablePath]) ?_
  intro k₃ pmd frames₃ usable₃ at₃
  have last : Walk others P n flight k₃ (P, pd.pgd) [pd.tablePath] pd.tablePath
      (thenTable (ensureTable k₃ pmd pd.pmd) fun k table => (k, some table)) :=
    Block.walk frames₃ usable₃ (ensureTable_block frames₃ rfl (by simp) at₃ pd.pmd usable₃.head) (by simp)
      (by simp) fun k₄ pt frames₄ _ at₄ => Walk.stop frames₄ at₄
  rwa [thenTable_some] at last

theorem usable_of_nonzero (nonzero : 0 ∉ k.mram.freeFpList) : Usable others P k r paths :=
  fun _ member => nonzero (List.of_mem_zip member).2

/-- `ensure_pte_mapping` completes the path of its page, or ends with no frame left. -/
theorem ensurePteMapping_ensured (frames : Frames 4 n (k.links others P) k.mram flight)
    (nonzero : 0 ∉ k.mram.freeFpList) (pd : Pd) :
    Ensured others P n flight k (ensurePteMapping k pd) (P, pd.pgd) pd.tablePath :=
  (ensurePteMapping_walk frames pd (usable_of_nonzero nonzero)).ensured

end SimpleOS.Model
