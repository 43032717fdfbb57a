import SimpleOS.Proofs.Tables

/-! # Completing paths and setting leaf entries

One lemma for the two kinds of links the code stores: `NewTable.ensured` for a new table in an empty
directory slot, `Frames.leaf` for a leaf entry. From them the specifications of
`ensure_pte_mapping`, `pte_set_fpn` and `pte_get_entry` over the forest of all processes.
-/

namespace SimpleOS.Model

open Lib

/-- The indices that lead to the PT table of a page, deepest first. -/
def Pd.tablePath (pd : Pd) : List (Fin 512) := [pd.pmd, pd.pud, pd.p4d]

/-- The indices that lead to the frame of a page, deepest first. -/
def Pd.leafPath (pd : Pd) : List (Fin 512) := pd.pt :: pd.tablePath

theorem Pd.eq_of_position {pd pd' : Pd} (root : pd.pgd = pd'.pgd) (path : pd.leafPath = pd'.leafPath) :
    pd = pd' := by
  simp only [Pd.leafPath, Pd.tablePath, List.cons.injEq, and_true] at path
  obtain ⟨pt, pmd, pud, p4d⟩ := path
  cases pd
  cases pd'
  simp only at root pt pmd pud p4d
  rw [root, p4d, pud, pmd, pt]

variable {ι : Type} [DecidableEq ι] {others : ι → Fin 512 → Addr} {P : ι} {k k' k'' : Krnl}
  {n g : ℕ} {flight rest : List ℕ} {r₀ : Root ι} {path₀ : List (Fin 512)}

/-- A frame of the free list becomes the table at an empty position. -/
structure Planted (others : ι → Fin 512 → Addr) (P : ι) (k k' : Krnl) (r₀ : Root ι) (path₀ : List (Fin 512))
    (g : ℕ) : Prop where
  plants : Links.Plants 4 (k.links others P) (k'.links others P) r₀ path₀ g
  maxsz : k'.mram.maxsz = k.mram.maxsz
  free : k.mram.freeFpList = g :: k'.mram.freeFpList

/-- A frame that is planted leaves the others where they are. -/
theorem Planted.frames_kept (planted : Planted others P k k' r₀ path₀ g)
    (frames : Frames 4 n (k.links others P) k.mram flight) : Frames 4 n (k'.links others P) k'.mram flight := by
  have popped : Frames 4 n (k.links others P) k'.mram (g :: flight) := by
    apply frames.reflight planted.maxsz
    rw [planted.free]
    exact List.perm_middle.symm
  exact popped.plant planted.plants rfl rfl

/-- A new, cleared table in an empty directory slot of `P`, in the first frame of the free list. Besides it,
only the tables above the slot change. -/
structure NewTable (others : ι → Fin 512 → Addr) (P : ι) (k k' : Krnl) (r₀ : Root ι) (path₀ : List (Fin 512))
    (g : ℕ) : Prop where
  relinks : Links.Relinks 4 (k.links others P) (k'.links others P) r₀ path₀ g
  root : r₀.1 = P
  short : path₀.length < 4
  maxsz : k'.mram.maxsz = k.mram.maxsz
  free : k.mram.freeFpList = g :: k'.mram.freeFpList
  cleared : ∀ a, a / pagingPagesz = g → k'.mram.storage a = 0
  raw : ∀ a, a / pagingPagesz ≠ g →
    (∀ path, path.length < 3 → (k.links others P).frameAt r₀ path ≠ some (a / pagingPagesz)) →
    k'.mram.storage a = k.mram.storage a

namespace NewTable

variable (table : NewTable others P k k' r₀ path₀ g) (frames : Frames 4 n (k.links others P) k.mram flight)
include table frames

private theorem plants : Links.Plants 4 (k.links others P) (k'.links others P) r₀ path₀ g :=
  table.relinks.plants frames.separated table.short

theorem planted : Planted others P k k' r₀ path₀ g := ⟨table.plants frames, table.maxsz, table.free⟩

private theorem frames_kept : Frames 4 n (k'.links others P) k'.mram flight := (table.planted frames).frames_kept frames

/-- A PT table is either the new, empty one or lies in a frame that is not touched. -/
private theorem words (r : Root ι) (path : List (Fin 512)) (j : Fin 512) (deep : path.length = 3) :
    wordAt (rootsOf others P k') k'.mram r path j = wordAt (rootsOf others P k) k.mram r path j := by
  have above : path.length < 4 := by omega
  have plants := table.plants frames
  rw [wordAt, wordAt]
  by_cases here : r = r₀ ∧ path = path₀
  · obtain ⟨rfl, rfl⟩ := here
    rw [plants.here, plants.absent]
    have := j.isLt
    apply Bytes.readWord_of_zero
    intro b bound
    apply table.cleared
    simp only [pagingPagesz]
    omega
  · rw [plants.elsewhere r path above here]
    cases reached : (k.links others P).frameAt r path with
    | none => rfl
    | some f =>
      apply Memphy.entry_congr
      intro a inside
      apply table.raw a
      · rintro rfl
        refine frames.used_free (a / pagingPagesz) ⟨r, path, above, by rw [reached, inside]⟩ ?_
        simp [table.free]
      · intro path' short' reached'
        rw [inside] at reached'
        obtain ⟨-, rfl⟩ := frames.separated r path r₀ path' f above (by omega) reached reached'
        omega

private theorem grows : Grows others P k k' := by
  have plants := table.plants frames
  refine ⟨table.maxsz, ⟨[g], table.free, ?_⟩, ?_, ?_, table.words frames, ?_⟩
  · intro f taken
    obtain rfl := List.mem_singleton.mp taken
    exact ⟨r₀, path₀, table.short, plants.here⟩
  · exact fun r path f short reached => plants.kept short reached
  · intro r path f short reached
    rcases plants.new short reached with ⟨rfl, rfl, rfl⟩ | before
    · exact .inr ⟨table.root, by simp [table.free]⟩
    · exact .inl before
  · intro a notFree notTable
    apply table.raw a
    · rintro rfl
      exact notFree (by simp [table.free])
    · intro path short reached
      obtain ⟨Q, i⟩ := r₀
      cases table.root
      exact notTable i path (by omega) reached

end NewTable

/-- What a block of `ensure_pte_mapping`, or the whole function, leaves: a larger forest, and either
the frame at the position asked for or an empty free list. -/
structure Ensured (others : ι → Fin 512 → Addr) (P : ι) (n : ℕ) (flight : List ℕ) (k : Krnl)
    (result : Krnl × Option ℕ) (r : Root ι) (path : List (Fin 512)) : Prop where
  frames : Frames 4 n (result.1.links others P) result.1.mram flight
  grows : Grows others P k result.1
  reached : ∀ f, result.2 = some f → (result.1.links others P).frameAt r path = some f
  exhausted : result.2 = none → result.1.mram.freeFpList = []

theorem Ensured.of_present {f : ℕ} {path : List (Fin 512)}
    (frames : Frames 4 n (k.links others P) k.mram flight)
    (present : (k.links others P).frameAt r₀ path = some f) :
    Ensured others P n flight k (k, some f) r₀ path where
  frames := frames
  grows := .refl others P k
  reached := by rintro _ ⟨⟩; exact present
  exhausted := by simp

private theorem Ensured.of_exhausted {path : List (Fin 512)}
    (frames : Frames 4 n (k.links others P) k.mram flight) (empty : k.mram.freeFpList = []) :
    Ensured others P n flight k (k, none) r₀ path where
  frames := frames
  grows := .refl others P k
  reached := by simp
  exhausted := fun _ => empty

private theorem NewTable.ensured (table : NewTable others P k k' r₀ path₀ g)
    (frames : Frames 4 n (k.links others P) k.mram flight) :
    Ensured others P n flight k (k', some g) r₀ path₀ where
  frames := table.frames_kept frames
  grows := table.grows frames
  reached := by rintro _ ⟨⟩; exact (table.plants frames).here
  exhausted := by simp

/-- A frame taken from the free list fits the frame field. -/
theorem Frames.popped {d : ℕ} (frames : Frames d n (k.links others P) k.mram flight)
    (pop : k.mram.freeFpList = g :: rest) : g < 8192 := by
  have bound := frames.free_lt g (by simp [pop])
  have small := frames.small
  omega

/-- What one block of a walk does, by what stands at its position: it goes on with the frame there, stops for want
of a frame, or makes a new table. -/
inductive Block (k : Krnl) (reached : Option ℕ) (New : Krnl → ℕ → Prop) : Krnl × Option ℕ → Prop
  | present {f : ℕ} (here : reached = some f) : Block k reached New (k, some f)
  | exhausted (here : reached = none) (empty : k.mram.freeFpList = []) : Block k reached New (k, none)
  | fresh {k' : Krnl} {g : ℕ} (here : reached = none) (new : New k' g) : Block k reached New (k', some g)

/-- A block of `ensure_pte_mapping` keeps the forest in order. -/
theorem Block.ensured {result : Krnl × Option ℕ} {path : List (Fin 512)}
    (block : Block k ((k.links others P).frameAt r₀ path) (fun k' g => NewTable others P k k' r₀ path g) result)
    (frames : Frames 4 n (k.links others P) k.mram flight) : Ensured others P n flight k result r₀ path := by
  cases block with
  | present here => exact .of_present frames here
  | exhausted _ empty => exact .of_exhausted frames empty
  | fresh _ table => exact table.ensured frames

theorem frameAt_root (i : Fin 512) : (k.links others P).frameAt (P, i) [] = child (k.mm.pgd i) := by
  simp [Links.frameAt, tableLinks]

theorem ensurePgd_block (frames : Frames 4 n (k.links others P) k.mram flight) (i : Fin 512)
    (usable : (k.links others P).frameAt (P, i) [] = none → ∀ rest, k.mram.freeFpList ≠ 0 :: rest) :
    Block k ((k.links others P).frameAt (P, i) []) (fun k' g => NewTable others P k k' (P, i) [] g)
      (ensurePgd k i) := by
  rw [ensurePgd]
  split_ifs with present
  · exact .present (by rw [frameAt_root, child_eq_some]; exact ⟨present, rfl⟩)
  · have absent : (k.links others P).frameAt (P, i) [] = none := by
      rw [frameAt_root, child_eq_none]
      simpa using present
    cases pop : k.mram.freeFpList with
    | nil =>
      simp only [Memphy.getFreefp, pop]
      exact .exhausted absent pop
    | cons g rest =>
      have positive : g ≠ 0 := by
        rintro rfl
        exact usable absent rest pop
      obtain ⟨flag, fpn⟩ := initPte_online (k.mm.pgd i) (frames.popped pop) positive
      simp only [Memphy.getFreefp, pop, fpn]
      let after : Krnl :=
        { mm := { k.mm with pgd := Function.update k.mm.pgd i (initPte (k.mm.pgd i) true g false 0 0).1 }
          mram := ({ k.mram with freeFpList := rest } : Memphy).clearEntries g 512 }
      change Block k _ _ (after, some g)
      have relinks : Links.Relinks 4 (k.links others P) (after.links others P) (P, i) [] g := by
        refine ⟨⟨.root (P, i), rfl, ?_, ?_⟩, fun _ => ⟨absent, ?_⟩⟩
        · simp only [tableLinks, Function.update_self, after]
          exact child_eq_some.mpr ⟨flag, fpn⟩
        · rintro (⟨Q, j⟩ | ⟨f, j⟩) other reads
          · simp only [tableLinks, after]
            by_cases same : Q = P
            · subst same
              have index : j ≠ i := fun equal => other (by rw [equal])
              simp only [Function.update_self, Function.update_of_ne index]
            · simp only [Function.update_of_ne same]
          · have apart : f ≠ g := by
              rintro rfl
              exact frames.used_free f reads (by simp [pop])
            exact congrArg child (Memphy.entry_clear_ne apart)
        · intro j
          simp only [tableLinks, after, Memphy.entry_clear_same]
          exact child_zero
      have cleared : ∀ a, a / pagingPagesz = g → after.mram.storage a = 0 := by
        intro a inside
        exact Memphy.storage_clear.trans (if_pos inside)
      have raw : ∀ a, a / pagingPagesz ≠ g → after.mram.storage a = k.mram.storage a := by
        intro a outside
        exact Memphy.storage_clear.trans (if_neg outside)
      have free : k.mram.freeFpList = g :: after.mram.freeFpList := by
        simp only [pop, after, Memphy.clearEntries_freeFpList]
      exact .fresh absent ⟨relinks, rfl, by simp, Memphy.clearEntries_maxsz, free, cleared,
        fun a outside _ => raw a outside⟩

theorem ensureTable_block (frames : Frames 4 n (k.links others P) k.mram flight) {r : Root ι} (root : r.1 = P)
    {path : List (Fin 512)} {table : ℕ} (short : path.length < 3)
    (atTable : (k.links others P).frameAt r path = some table) (i : Fin 512)
    (usable : (k.links others P).frameAt r (i :: path) = none → ∀ rest, k.mram.freeFpList ≠ 0 :: rest) :
    Block k ((k.links others P).frameAt r (i :: path)) (fun k' g => NewTable others P k k' r (i :: path) g)
      (ensureTable k table i) := by
  have atChild : (k.links others P).frameAt r (i :: path) = child (k.mram.entry table i) := by
    rw [frameAt_cons, wordAt, atTable]
  have used : (k.links others P).Uses 4 table := ⟨r, path, by omega, atTable⟩
  rw [ensureTable]
  split_ifs with present
  · exact .present (by rw [atChild, child_eq_some]; exact ⟨present, rfl⟩)
  · have absent : (k.links others P).frameAt r (i :: path) = none := by
      rw [atChild, child_eq_none]
      simpa using present
    cases pop : k.mram.freeFpList with
    | nil =>
      simp only [Memphy.getFreefp, pop]
      exact .exhausted absent pop
    | cons g rest =>
      have positive : g ≠ 0 := by
        rintro rfl
        exact usable absent rest pop
      obtain ⟨flag, fpn⟩ := initPte_online (k.mram.entry table i) (frames.popped pop) positive
      have apart : table ≠ g := by
        rintro rfl
        exact frames.used_free table used (by simp [pop])
      let mram := (({ k.mram with freeFpList := rest } : Memphy).setEntry table i
        (initPte (k.mram.entry table i) true g false 0 0).1).clearEntries g 512
      have entryAt : mram.entry table i = (initPte (k.mram.entry table i) true g false 0 0).1 := by
        rw [Memphy.entry_clear_ne apart, Memphy.entry_setEntry_same]
      simp only [Memphy.getFreefp, pop]
      change Block k _ _ ({ k with mram }, some (pagingPteFpn (mram.entry table i)))
      rw [entryAt, fpn]
      have relinks : Links.Relinks 4 (k.links others P) (Krnl.links others P { k with mram }) r
          (i :: path) g := by
        refine ⟨⟨.cell table i, by simp [Links.slotAt, atTable], ?_, ?_⟩, fun _ => ⟨absent, ?_⟩⟩
        · simp only [tableLinks, entryAt]
          exact child_eq_some.mpr ⟨flag, fpn⟩
        · rintro (⟨Q, j⟩ | ⟨f, j⟩) other reads
          · rfl
          · have notNew : f ≠ g := by
              rintro rfl
              exact frames.used_free f reads (by simp [pop])
            have different : f ≠ table ∨ j ≠ i := by
              by_contra same
              push Not at same
              exact other (by rw [same.1, same.2])
            simp only [tableLinks, mram, Memphy.entry_clear_ne notNew,
              Memphy.entry_setEntry_ne different]
            rfl
        · intro j
          simp only [tableLinks, mram, Memphy.entry_clear_same]
          exact child_zero
      have raw : ∀ a, a / pagingPagesz ≠ g →
          (∀ path, path.length < 3 → (k.links others P).frameAt r path ≠ some (a / pagingPagesz)) →
          mram.storage a = k.mram.storage a := by
        intro a outside apartTables
        have notTable : a / pagingPagesz ≠ table := by
          rintro rfl
          exact apartTables path short atTable
        simp only [mram]
        rw [Memphy.storage_clear, if_neg outside, Memphy.storage_setEntry notTable]
      have cleared : ∀ a, a / pagingPagesz = g → mram.storage a = 0 := by
        intro a inside
        exact Memphy.storage_clear.trans (if_pos inside)
      have free : k.mram.freeFpList = g :: mram.freeFpList := by
        simp only [pop, mram, Memphy.clearEntries_freeFpList, Memphy.setEntry_freeFpList]
      have above : (i :: path).length < 4 := by simp only [List.length_cons]; omega
      exact .fresh absent ⟨relinks, root, above, Memphy.clearEntries_maxsz, free, cleared, raw⟩

theorem Ensured.nonzero {result : Krnl × Option ℕ} {path : List (Fin 512)}
    (ensured : Ensured others P n flight k result r₀ path) (nonzero : 0 ∉ k.mram.freeFpList) :
    0 ∉ result.1.mram.freeFpList := fun member => nonzero (ensured.grows.mem_free member)

/-- Completing a path leaves every page where it is. -/
theorem Grows.page (grows : Grows others P k k') {r : Root ι} {path : List (Fin 512)}
    (deep : path.length = 4) :
    (k'.links others P).frameAt r path = (k.links others P).frameAt r path := by
  cases path with
  | nil => simp at deep
  | cons j table =>
    rw [frameAt_cons, frameAt_cons, grows.words r table j (by simpa using deep)]

theorem Grows.kept_page (grows : Grows others P k k') {r : Root ι} {path : List (Fin 512)} {f : ℕ}
    (short : path.length < 5) (reached : (k.links others P).frameAt r path = some f) :
    (k'.links others P).frameAt r path = some f := by
  by_cases table : path.length < 4
  · exact grows.kept r path f table reached
  · rw [grows.page (by omega), reached]

theorem Grows.new_page (grows : Grows others P k k') {r : Root ι} {path : List (Fin 512)} {f : ℕ}
    (short : path.length < 5) (reached : (k'.links others P).frameAt r path = some f) :
    (k.links others P).frameAt r path = some f ∨
      path.length < 4 ∧ r.1 = P ∧ f ∈ k.mram.freeFpList := by
  by_cases table : path.length < 4
  · exact (grows.new r path f table reached).imp_right fun added => ⟨table, added⟩
  · exact .inl (by rw [← grows.page (by omega), reached])

/-- With pages in view, completing a path keeps all frames apart. -/
theorem Grows.frames (grows : Grows others P k k')
    (frames : Frames 5 n (k.links others P) k.mram flight)
    (tables : Frames 4 n (k'.links others P) k'.mram flight) :
    Frames 5 n (k'.links others P) k'.mram flight := by
  have sublist : ∀ f ∈ flight ++ k'.mram.freeFpList, f ∈ flight ++ k.mram.freeFpList := by
    intro f member
    rcases List.mem_append.mp member with early | late
    · exact List.mem_append_left _ early
    · exact List.mem_append_right _ (grows.mem_free late)
  have inFree : ∀ {f}, f ∈ k.mram.freeFpList → f ∈ flight ++ k.mram.freeFpList :=
    fun member => List.mem_append_right _ member
  refine ⟨frames.small, tables.size, tables.nodup, tables.free_lt, ?_, ?_, ?_⟩
  · rintro f ⟨r, path, short, reached⟩
    rcases grows.new_page short reached with early | ⟨-, -, free⟩
    · exact frames.used_lt f ⟨r, path, short, early⟩
    · exact frames.free_lt f (inFree free)
  · rintro f ⟨r, path, short, reached⟩
    by_cases table : path.length < 4
    · exact tables.used_free f ⟨r, path, table, reached⟩
    · rw [grows.page (by omega)] at reached
      exact fun member => frames.used_free f ⟨r, path, short, reached⟩ (sublist f member)
  · intro r path r' path' f short short' reached reached'
    rcases grows.new_page short reached with early | ⟨table, -, free⟩ <;>
      rcases grows.new_page short' reached' with early' | ⟨table', -, free'⟩
    · exact frames.separated r path r' path' f short short' early early'
    · exact (frames.used_free f ⟨r, path, short, early⟩ (inFree free')).elim
    · exact (frames.used_free f ⟨r', path', short', early'⟩ (inFree free)).elim
    · exact tables.separated r path r' path' f table table' reached reached'

/-- No frame is lost: every frame of RAM is free, in flight or linked. -/
def Covered (n : ℕ) (links : Links (Root ι) 512) (mram : Memphy) (flight : List ℕ) : Prop :=
  ∀ f < n, f ∈ flight ++ mram.freeFpList ∨ links.Uses 5 f

theorem Grows.covered (grows : Grows others P k k')
    (covered : Covered n (k.links others P) k.mram flight) :
    Covered n (k'.links others P) k'.mram flight := by
  intro f bound
  rcases covered f bound with free | ⟨r, path, short, reached⟩
  · obtain ⟨taken, split, used⟩ := grows.taken
    rw [split, List.mem_append, List.mem_append] at free
    rcases free with early | late | rest
    · exact .inl (List.mem_append_left _ early)
    · exact .inr ((used f late).mono (by omega))
    · exact .inl (List.mem_append_right _ rest)
  · exact .inr ⟨r, path, short, grows.kept_page short reached⟩

/-- Storing the leaf entry of a page that had none. -/
theorem Frames.leaf (frames : Frames 4 n (k.links others P) k.mram flight) {r : Root ι}
    {path : List (Fin 512)} {table : ℕ} (deep : path.length = 3)
    (atTable : (k.links others P).frameAt r path = some table) (j : Fin 512) {entry : Addr}
    (linked : child entry = some g) (r' : Root ι) (path' : List (Fin 512)) (short : path'.length < 5) :
    (Krnl.links others P { k with mram := k.mram.setEntry table j entry }).frameAt r' path' =
      if r' = r ∧ path' = j :: path then some g else (k.links others P).frameAt r' path' := by
  have relinks : Links.Relinks 4 (k.links others P)
      (Krnl.links others P { k with mram := k.mram.setEntry table j entry }) r (j :: path) g := by
    refine ⟨⟨.cell table j, by simp [Links.slotAt, atTable], ?_, ?_⟩, ?_⟩
    · simpa only [tableLinks, Memphy.entry_setEntry_same] using linked
    · rintro (⟨Q, i⟩ | ⟨f, i⟩) other reads
      · rfl
      · have different : f ≠ table ∨ i ≠ j := by
          by_contra same
          push Not at same
          exact other (by rw [same.1, same.2])
        exact congrArg child (Memphy.entry_setEntry_ne different)
    · intro above
      simp only [List.length_cons] at above
      omega
  exact relinks.frameAt frames.separated (by simp only [List.length_cons]; omega) r' path' (by omega)

/-- A stored leaf entry is read back at its own position and nowhere else. -/
theorem Frames.wordAt_leaf (frames : Frames 4 n (k.links others P) k.mram flight) {r : Root ι}
    {path : List (Fin 512)} {table : ℕ} (deep : path.length = 3)
    (atTable : (k.links others P).frameAt r path = some table) (j : Fin 512) {entry : Addr}
    (linked : child entry = some g) (r' : Root ι) {path' : List (Fin 512)} (deep' : path'.length = 3)
    (j' : Fin 512) :
    wordAt (rootsOf others P k) (k.mram.setEntry table j entry) r' path' j' =
      if r' = r ∧ path' = path ∧ j' = j then entry else wordAt (rootsOf others P k) k.mram r' path' j' := by
  have moved : (tableLinks (rootsOf others P k) (k.mram.setEntry table j entry)).frameAt r' path' = _ :=
    frames.leaf deep atTable j linked r' path' (by omega)
  rw [if_neg] at moved
  · rw [wordAt, wordAt, moved]
    cases reached : (k.links others P).frameAt r' path' with
    | none =>
      rw [if_neg]
      rintro ⟨rfl, rfl, -⟩
      rw [reached] at atTable
      cases atTable
    | some f =>
      dsimp only
      by_cases here : r' = r ∧ path' = path ∧ j' = j
      · obtain ⟨rfl, rfl, rfl⟩ := here
        rw [if_pos ⟨rfl, rfl, rfl⟩]
        cases reached.symm.trans atTable
        exact Memphy.entry_setEntry_same
      · rw [if_neg here]
        apply Memphy.entry_setEntry_ne
        by_contra same
        push Not at same
        obtain ⟨rfl, rfl⟩ := same
        obtain ⟨rfl, rfl⟩ := frames.separated r' path' r path f (by omega) (by omega) reached atTable
        exact here ⟨rfl, rfl, rfl⟩
  · rintro ⟨-, rfl⟩
    simp only [List.length_cons] at deep'
    omega

end SimpleOS.Model
