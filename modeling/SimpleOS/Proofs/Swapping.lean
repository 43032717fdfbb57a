import SimpleOS.Proofs.Descent
import SimpleOS.Proofs.Unseen

/-! # The walk of `pte_set_swap`

The same descent as in `ensure_pte_mapping`, without clearing the tables it adds. It builds the same forest as
long as the frames that become directories hold no present entry. `takeBelow` is the part below the first level.
-/

namespace SimpleOS.Model

open Lib

variable {ι : Type} [DecidableEq ι] {others : ι → Fin 512 → Addr} {P : ι} {k k' : Krnl} {n g : ℕ}
  {flight rest : List ℕ} {r : Root ι} {path goal : List (Fin 512)} {paths : List (List (Fin 512))}

/-- The frames that are to become directories hold no present entry. -/
def DirectoriesClean (others : ι → Fin 512 → Addr) (P : ι) (k : Krnl) (r : Root ι)
    (paths : List (List (Fin 512))) : Prop :=
  ∀ entry ∈ newTables others P k r paths, entry.1.length < 3 → ∀ j, child (k.mram.entry entry.2 j) = none

/-- A frame is planted as it is; besides it, entries change in the directories above only. -/
structure NewLink (others : ι → Fin 512 → Addr) (P : ι) (k k' : Krnl) (r₀ : Root ι) (path₀ : List (Fin 512))
    (g : ℕ) : Prop extends Planted others P k k' r₀ path₀ g where
  entries : ∀ f j, (∀ path, path.length < 3 → (k.links others P).frameAt r₀ path ≠ some f) →
    k'.mram.entry f j = k.mram.entry f j

private theorem DirectoriesClean.head (clean : DirectoriesClean others P k r (path :: paths))
    (directory : path.length < 3)
    (absent : (k.links others P).frameAt r path = none) (pop : k.mram.freeFpList = g :: rest) (j : Fin 512) :
    child (k.mram.entry g j) = none := by
  refine clean (path, g) ?_ directory j
  rw [newTables, Links.missing_cons_none absent, pop]
  exact List.mem_cons_self

private theorem takePgd_block (frames : Frames 4 n (k.links others P) k.mram flight) (i : Fin 512)
    (usable : Usable others P k (P, i) ([] :: paths)) (clean : DirectoriesClean others P k (P, i) ([] :: paths)) :
    Block k ((k.links others P).frameAt (P, i) []) (fun k' g => NewLink others P k k' (P, i) [] g)
      (takePgd k i) := by
  rw [takePgd]
  split_ifs with present
  · exact .present (by rw [frameAt_root, child_eq_some]; exact ⟨present, rfl⟩)
  · have absent : (k.links others P).frameAt (P, i) [] = none := by
      rw [frameAt_root, child_eq_none]
      simpa using present
    cases pop : k.mram.freeFpList with
    | nil =>
      simp only [Memphy.getFreefp, pop]
      exact .exhausted absent pop
    | cons g rest =>
      have positive : g ≠ 0 := by
        rintro rfl
        exact usable.head absent rest pop
      obtain ⟨flag, fpn⟩ := initPte_online (k.mm.pgd i) (frames.popped pop) positive
      simp only [Memphy.getFreefp, pop, fpn]
      let after : Krnl :=
        { mm := { k.mm with pgd := Function.update k.mm.pgd i (initPte (k.mm.pgd i) true g false 0 0).1 }
          mram := { k.mram with freeFpList := rest } }
      change Block k _ _ (after, some g)
      have relinks : Links.Relinks 3 (k.links others P) (after.links others P) (P, i) [] g := by
        refine ⟨⟨.root (P, i), rfl, ?_, ?_⟩, fun _ => ⟨absent, ?_⟩⟩
        · simp only [tableLinks, Function.update_self, after]
          exact child_eq_some.mpr ⟨flag, fpn⟩
        · rintro (⟨Q, j⟩ | ⟨f, j⟩) other reads
          · simp only [tableLinks, after]
            by_cases same : Q = P
            · subst same
              have index : j ≠ i := fun equal => other (by rw [equal])
              simp only [Function.update_self, Function.update_of_ne index]
            · simp only [Function.update_of_ne same]
          · rfl
        · exact clean.head (by simp) absent pop
      have plants := relinks.plants_leaf (frames.separated.mono (by omega)) (by simp) absent
      exact .fresh absent ⟨⟨plants, rfl, pop⟩, fun _ _ _ => rfl⟩

private theorem takeTable_block (frames : Frames 4 n (k.links others P) k.mram flight) {table : ℕ}
    (short : path.length < 3) (atTable : (k.links others P).frameAt r path = some table) (i : Fin 512)
    (usable : Usable others P k r ((i :: path) :: paths))
    (clean : DirectoriesClean others P k r ((i :: path) :: paths)) :
    Block k ((k.links others P).frameAt r (i :: path)) (fun k' g => NewLink others P k k' r (i :: path) g)
      (takeTable k table i) := by
  have atChild : (k.links others P).frameAt r (i :: path) = child (k.mram.entry table i) := by
    rw [frameAt_cons, wordAt, atTable]
  rw [takeTable]
  split_ifs with present
  · exact .present (by rw [atChild, child_eq_some]; exact ⟨present, rfl⟩)
  · have absent : (k.links others P).frameAt r (i :: path) = none := by
      rw [atChild, child_eq_none]
      simpa using present
    cases pop : k.mram.freeFpList with
    | nil =>
      simp only [Memphy.getFreefp, pop]
      exact .exhausted absent pop
    | cons g rest =>
      have positive : g ≠ 0 := by
        rintro rfl
        exact usable.head absent rest pop
      obtain ⟨flag, fpn⟩ := initPte_online (k.mram.entry table i) (frames.popped pop) positive
      have apart : g ≠ table := by
        rintro rfl
        exact frames.used_free g ⟨r, path, by omega, atTable⟩ (by simp [pop])
      let mram := ({ k.mram with freeFpList := rest } : Memphy).setEntry table i
        (initPte (k.mram.entry table i) true g false 0 0).1
      have entryAt : mram.entry table i = (initPte (k.mram.entry table i) true g false 0 0).1 :=
        Memphy.entry_setEntry_same
      simp only [Memphy.getFreefp, pop]
      change Block k _ _ ({ k with mram }, some (pagingPteFpn (mram.entry table i)))
      rw [entryAt, fpn]
      have relinks : Links.Relinks 3 (k.links others P) (Krnl.links others P { k with mram }) r (i :: path) g := by
        refine ⟨⟨.cell table i, by simp [Links.slotAt, atTable], ?_, ?_⟩, fun above => ⟨absent, ?_⟩⟩
        · simp only [tableLinks, entryAt]
          exact child_eq_some.mpr ⟨flag, fpn⟩
        · rintro (⟨Q, j⟩ | ⟨f, j⟩) other reads
          · rfl
          · have different : f ≠ table ∨ j ≠ i := by
              by_contra same
              push Not at same
              exact other (by rw [same.1, same.2])
            exact congrArg child (Memphy.entry_setEntry_ne different)
        · intro j
          have kept : mram.entry g j = k.mram.entry g j := Memphy.entry_setEntry_ne (.inl apart)
          simp only [tableLinks, kept]
          exact clean.head above absent pop j
      have deep : (i :: path).length ≤ 3 := short
      have plants := relinks.plants_leaf (frames.separated.mono (by omega)) deep absent
      refine .fresh absent ⟨⟨plants, rfl, pop⟩, ?_⟩
      intro f j apartTables
      refine Memphy.entry_setEntry_ne (.inl ?_)
      rintro rfl
      exact apartTables path short atTable

/-- What the walk of `pte_set_swap` does on the way down a path. -/
structure Taken (others : ι → Fin 512 → Addr) (P : ι) (n : ℕ) (flight : List ℕ) (k : Krnl) (r : Root ι)
    (paths : List (List (Fin 512))) (goal : List (Fin 512)) (result : Krnl × Option ℕ) : Prop where
  built : Built others P k r paths goal result
  frames : Frames 4 n (result.1.links others P) result.1.mram flight
  entries : ∀ f j, (∀ path, path.length < 3 → (result.1.links others P).frameAt r path ≠ some f) →
    result.1.mram.entry f j = k.mram.entry f j

/-- The frames that are to become directories stay as they are while they wait. -/
theorem DirectoriesClean.next (frames : Frames 4 n (k.links others P) k.mram flight) {f : ℕ}
    (block : Block k ((k.links others P).frameAt r path) (fun k' g => NewLink others P k k' r path g) (k', some f))
    (short : ∀ p ∈ paths, p.length < 4) (other : path ∉ paths)
    (clean : DirectoriesClean others P k r (path :: paths)) : DirectoriesClean others P k' r paths := by
  intro entry member directory j
  have before := clean entry
    (block.newTables_sublist (fun _ _ new => new.toPlanted) short other member) directory j
  cases block with
  | present => exact before
  | fresh here new =>
    rw [new.entries entry.2 j, before]
    intro path' short' reached
    refine frames.used_free entry.2 ⟨r, path', by omega, reached⟩ ?_
    rw [new.free]
    exact List.mem_append_right _ (List.mem_cons_of_mem _ (List.of_mem_zip (a := entry.1) (b := entry.2) member).2)

/-- A block of `pte_set_swap` and the walk that it goes on with. -/
private theorem Block.taken {result : Krnl × Option ℕ} {next : Krnl → ℕ → Krnl × Option ℕ}
    (frames : Frames 4 n (k.links others P) k.mram flight) (usable : Usable others P k r (path :: paths))
    (clean : DirectoriesClean others P k r (path :: paths))
    (block : Block k ((k.links others P).frameAt r path) (fun k' g => NewLink others P k k' r path g) result)
    (short : ∀ p ∈ paths, p.length < 4) (other : path ∉ paths)
    (continued : ∀ k' table, Frames 4 n (k'.links others P) k'.mram flight → Usable others P k' r paths →
      DirectoriesClean others P k' r paths → (k'.links others P).frameAt r path = some table →
      Taken others P n flight k' r paths goal (next k' table)) :
    Taken others P n flight k r (path :: paths) goal (thenTable result next) := by
  have planted : ∀ k' g, NewLink others P k k' r path g → Planted others P k k' r path g :=
    fun _ _ new => new.toPlanted
  have later : ∀ k' table, result = (k', some table) → (k'.links others P).frameAt r path = some table →
      Taken others P n flight k' r paths goal (next k' table) := by
    rintro k' table rfl reached
    refine continued k' table ?_ ?_ (clean.next frames block short other) reached
    · cases block with
      | present => exact frames
      | fresh here new => exact new.frames_kept frames
    · exact fun path' member => usable path' (block.newTables_sublist planted short other member)
  refine ⟨block.built planted short other fun k' table same reached => (later k' table same reached).built, ?_, ?_⟩
  · cases block with
    | present here => exact (later k _ rfl here).frames
    | exhausted => exact frames
    | fresh here new => exact (later _ _ rfl new.plants.here).frames
  · intro f j apart
    cases block with
    | present here => exact (later k _ rfl here).entries f j apart
    | exhausted => rfl
    | fresh here new =>
      have rest := later _ _ rfl new.plants.here
      refine (rest.entries f j apart).trans (new.entries f j ?_)
      intro path' short' reached
      refine apart path' short' (rest.built.kept (by omega) (new.plants.kept (by omega) reached))

private theorem Taken.stop {f : ℕ} (frames : Frames 4 n (k.links others P) k.mram flight)
    (here : (k.links others P).frameAt r goal = some f) : Taken others P n flight k r [] goal (k, some f) :=
  ⟨.stop here, frames, fun _ _ _ => rfl⟩

/-- The walk of `pte_set_swap` over frames that are clean. -/
theorem takePath_taken (frames : Frames 4 n (k.links others P) k.mram flight) (pd : Pd)
    (usable : Usable others P k (P, pd.pgd) pd.tablePaths)
    (clean : DirectoriesClean others P k (P, pd.pgd) pd.tablePaths) :
    Taken others P n flight k (P, pd.pgd) pd.tablePaths pd.tablePath (takePath k pd) := by
  refine Block.taken frames usable clean (takePgd_block frames pd.pgd usable clean) (by simp [Pd.tablePath])
    (by simp [Pd.tablePath]) ?_
  intro k₁ p4d frames₁ usable₁ clean₁ at₁
  refine Block.taken frames₁ usable₁ clean₁ (takeTable_block frames₁ (by simp) at₁ pd.p4d usable₁ clean₁)
    (by simp [Pd.tablePath]) (by simp [Pd.tablePath]) ?_
  intro k₂ pud frames₂ usable₂ clean₂ at₂
  refine Block.taken frames₂ usable₂ clean₂ (takeTable_block frames₂ (by simp) at₂ pd.pud usable₂ clean₂)
    (by simp [Pd.tablePath]) (by simp [Pd.tablePath]) ?_
  intro k₃ pmd frames₃ usable₃ clean₃ at₃
  have last : Taken others P n flight k₃ (P, pd.pgd) [pd.tablePath] pd.tablePath
      (thenTable (takeTable k₃ pmd pd.pmd) fun k table => (k, some table)) :=
    Block.taken frames₃ usable₃ clean₃ (takeTable_block frames₃ (by simp) at₃ pd.pmd usable₃ clean₃) (by simp)
      (by simp) fun k₄ pt frames₄ _ _ at₄ => Taken.stop frames₄ at₄
  rwa [thenTable_some] at last

/-- The walk of `pte_set_swap` below the first level. -/
def takeBelow (k : Krnl) (table : ℕ) : List (Fin 512) → Krnl × Option ℕ
  | [] => (k, some table)
  | j :: js => thenTable (takeTable k table j) fun k table => takeBelow k table js

private theorem takePath_eq (k : Krnl) (pd : Pd) : takePath k pd =
    thenTable (takePgd k pd.pgd) fun k p4d => takeBelow k p4d [pd.p4d, pd.pud, pd.pmd] := by
  simp only [takeBelow, thenTable_some]
  rfl

/-- Entries only ever become present. -/
def Krnl.Fuller (k k' : Krnl) : Prop :=
  ∀ f j, pagingPtePresent (k.mram.entry f j) = true → pagingPtePresent (k'.mram.entry f j) = true

/-- A block at any table: it finds an entry, or no frame, or takes the first frame of the free list. -/
inductive Takes (k : Krnl) (present : Bool) : Krnl × Option ℕ → Prop
  | found (f : ℕ) (here : present = true) : Takes k present (k, some f)
  | exhausted (empty : k.mram.freeFpList = []) : Takes k present (k, none)
  | taken {k' : Krnl} {g : ℕ} (absent : present = false) (free : k.mram.freeFpList = g :: k'.mram.freeFpList)
      (fuller : k.Fuller k') : Takes k present (k', some g)

private theorem takeTable_takes (fits : ∀ f ∈ k.mram.freeFpList, f ≠ 0 ∧ f < 8192) (table : ℕ) (i : Fin 512) :
    Takes k (pagingPtePresent (k.mram.entry table i)) (takeTable k table i) := by
  cases present : pagingPtePresent (k.mram.entry table i) with
  | true =>
    simp only [takeTable, present, if_true]
    exact .found _ rfl
  | false =>
    cases pop : k.mram.freeFpList with
    | nil =>
      simp only [takeTable, present, Bool.false_eq_true, if_false, Memphy.getFreefp, pop]
      exact .exhausted pop
    | cons g rest =>
      have fit := fits g (by simp [pop])
      let mram := ({ k.mram with freeFpList := rest } : Memphy).setEntry table i
        (initPte (k.mram.entry table i) true g false 0 0).1
      have stored : mram.entry table i = (initPte (k.mram.entry table i) true g false 0 0).1 :=
        Memphy.entry_setEntry_same
      obtain ⟨flag, fpn⟩ := initPte_online (k.mram.entry table i) fit.2 fit.1
      have result : takeTable k table i = ({ k with mram }, some g) := by
        rw [← fpn, ← stored]
        simp only [takeTable, present, Bool.false_eq_true, if_false, Memphy.getFreefp, pop]
        rfl
      rw [result]
      refine .taken rfl pop ?_
      intro f j present'
      have different : f ≠ table ∨ j ≠ i := by
        by_contra same
        push Not at same
        rw [same.1, same.2, present] at present'
        cases present'
      have kept : mram.entry f j = k.mram.entry f j := Memphy.entry_setEntry_ne different
      change pagingPtePresent (mram.entry f j) = true
      rw [kept, present']

/-- Each entry on the way down is absent in the frame that the free list offers for its table. -/
def Vacant (mram : Memphy) (table : ℕ) (free : List ℕ) : List (Fin 512) → Prop
  | [] => True
  | j :: js => pagingPtePresent (mram.entry table j) = false ∧ ∀ g rest, free = g :: rest → Vacant mram g rest js

private theorem Vacant.of_fuller (fuller : k.Fuller k') {table : ℕ} {free : List ℕ} {js : List (Fin 512)}
    (vacant : Vacant k'.mram table free js) : Vacant k.mram table free js := by
  induction js generalizing table free with
  | nil => trivial
  | cons j js ih =>
    refine ⟨?_, fun g rest split => ih (vacant.2 g rest split)⟩
    by_contra present
    rw [Bool.not_eq_false] at present
    exact absurd (fuller table j present) (by rw [vacant.1]; decide)

/-- A walk takes at most one frame a level, and one at every level only where it finds no entry. -/
private theorem takeBelow_vacant (fits : ∀ f ∈ k.mram.freeFpList, f ≠ 0 ∧ f < 8192) (table : ℕ) (js : List (Fin 512)) :
    k.mram.freeFpList.length ≤ (takeBelow k table js).1.mram.freeFpList.length + js.length ∧
    k.Fuller (takeBelow k table js).1 ∧
    (k.mram.freeFpList.length = (takeBelow k table js).1.mram.freeFpList.length + js.length →
      Vacant k.mram table k.mram.freeFpList js) := by
  induction js generalizing k table with
  | nil => exact ⟨Nat.le_refl _, fun _ _ present => present, fun _ => trivial⟩
  | cons j js ih =>
    have block := takeTable_takes fits table j
    rw [takeBelow]
    generalize takeTable k table j = result at block
    cases block with
    | found f here =>
      obtain ⟨count, fuller, -⟩ := ih fits f
      refine ⟨by simp only [thenTable, List.length_cons]; omega, fuller, ?_⟩
      intro all
      simp only [thenTable, List.length_cons] at all
      omega
    | exhausted empty =>
      refine ⟨by simp only [thenTable]; omega, fun _ _ present => present, ?_⟩
      intro all
      simp only [thenTable, List.length_cons] at all
      omega
    | @taken k' g absent free fuller =>
      have fits' : ∀ f ∈ k'.mram.freeFpList, f ≠ 0 ∧ f < 8192 :=
        fun f member => fits f (free ▸ List.mem_cons_of_mem g member)
      obtain ⟨count, fuller', vacant⟩ := ih fits' g
      simp only [thenTable, free, List.length_cons]
      refine ⟨by omega, fun f i present => fuller' f i (fuller f i present), ?_⟩
      intro all
      refine ⟨absent, ?_⟩
      intro g' rest split
      obtain ⟨rfl, rfl⟩ := List.cons.inj split
      exact (vacant (by omega)).of_fuller fuller

/-- The positions of a walk from `path` on. -/
def below (path : List (Fin 512)) : List (Fin 512) → List (List (Fin 512))
  | [] => []
  | j :: js => (j :: path) :: below (j :: path) js

private theorem below_longer {p : List (Fin 512)} {js : List (Fin 512)} (member : p ∈ below path js) :
    path.length < p.length := by
  induction js generalizing path with
  | nil => cases member
  | cons j js ih =>
    rcases List.mem_cons.mp member with rfl | deeper
    · simp
    · have longer := ih deeper
      rw [List.length_cons] at longer
      omega

/-- The frames that are offered for the tables of a vacant way hold no entry on that way. -/
private theorem Vacant.zip {mram : Memphy} {js : List (Fin 512)} (vacant : Vacant mram g rest js) {p : List (Fin 512)}
    {f : ℕ} (offered : (p, f) ∈ (path :: below path js).zip (g :: rest)) {j : Fin 512}
    (onPath : j :: p ∈ below path js) : pagingPtePresent (mram.entry f j) = false := by
  induction js generalizing g rest path with
  | nil => cases onPath
  | cons i js ih =>
    rw [List.zip_cons_cons, List.mem_cons, Prod.mk.injEq] at offered
    rcases offered with ⟨rfl, rfl⟩ | deeper
    · rcases List.mem_cons.mp onPath with here | deeper
      · cases here
        exact vacant.1
      · have longer := below_longer deeper
        simp only [List.length_cons] at longer
        omega
    · cases rest with
      | nil => cases deeper
      | cons g' rest =>
        have member : p ∈ below path (i :: js) := (List.of_mem_zip deeper).1
        have named := below_longer member
        rcases List.mem_cons.mp onPath with here | deeper'
        · cases here
          omega
        · exact ih (vacant.2 g' rest rfl) deeper deeper'

private theorem below_length (path js : List (Fin 512)) : (below path js).length = js.length := by
  induction js generalizing path with
  | nil => rfl
  | cons j js ih => rw [below, List.length_cons, List.length_cons, ih]

omit [DecidableEq ι] in
private theorem below_absent {links : Links (Root ι) 512} {js : List (Fin 512)} (absent : links.frameAt r path = none) :
    ∀ p ∈ below path js, links.frameAt r p = none := by
  induction js generalizing path with
  | nil => simp [below]
  | cons j js ih =>
    have next : links.frameAt r (j :: path) = none := by rw [Links.frameAt, absent, Option.bind_none]
    intro p member
    rcases List.mem_cons.mp member with rfl | deeper
    · exact next
    · exact ih next p deeper

omit [DecidableEq ι] in
/-- Below an empty position everything is missing. -/
private theorem missing_below {links : Links (Root ι) 512} (js : List (Fin 512))
    (absent : links.frameAt r path = none) : links.missing r (path :: below path js) = path :: below path js := by
  rw [Links.missing, List.filter_eq_self]
  intro p member
  rw [Option.isNone_iff_eq_none]
  rcases List.mem_cons.mp member with rfl | deeper
  · exact absent
  · exact below_absent absent p deeper

/-- Where the walk takes a frame for every missing table, the frames offered hold no entry on its way. -/
private theorem takeBelow_offered (fits : ∀ f ∈ k.mram.freeFpList, f ≠ 0 ∧ f < 8192) {table : ℕ} {js : List (Fin 512)}
    (atTable : (k.links others P).frameAt r path = some table)
    (all : k.mram.freeFpList.length = (takeBelow k table js).1.mram.freeFpList.length +
      ((k.links others P).missing r (below path js)).length)
    {p : List (Fin 512)} {f : ℕ} (offered : (p, f) ∈ newTables others P k r (below path js)) {j : Fin 512}
    (onPath : j :: p ∈ below path js) : pagingPtePresent (k.mram.entry f j) = false := by
  induction js generalizing table path with
  | nil => cases onPath
  | cons i js ih =>
    have atChild : (k.links others P).frameAt r (i :: path) = child (k.mram.entry table i) := by
      rw [frameAt_cons, wordAt, atTable]
    have further (longer : path.length < p.length) : j :: p ∈ below (i :: path) js := by
      rcases List.mem_cons.mp onPath with here | deeper
      · cases here
        omega
      · exact deeper
    rw [below] at all offered
    cases reached : (k.links others P).frameAt r (i :: path) with
    | some f' =>
      rw [Links.missing_cons_some reached] at all
      rw [newTables_present reached] at offered
      obtain ⟨present, fpn⟩ := child_eq_some.mp (atChild.symm.trans reached)
      have found : takeTable k table i = (k, some f') := by
        simp only [takeTable, present, if_true, fpn]
      rw [takeBelow, found] at all
      have named := below_longer (List.mem_of_mem_filter (List.of_mem_zip offered).1)
      rw [List.length_cons] at named
      exact ih reached all offered (further (by omega))
    | none =>
      rw [newTables, missing_below js reached] at offered
      rw [missing_below js reached, List.length_cons, below_length] at all
      cases pop : k.mram.freeFpList with
      | nil =>
        rw [pop] at offered
        cases offered
      | cons g rest =>
        have vacant := (takeBelow_vacant fits table (i :: js)).2.2 (by rw [List.length_cons]; exact all)
        rw [pop] at offered
        have named := (List.of_mem_zip offered).1
        refine (vacant.2 g rest pop).zip offered (further ?_)
        rcases List.mem_cons.mp named with rfl | deeper
        · simp
        · have longer := below_longer deeper
          rw [List.length_cons] at longer
          omega

/-- The same for the whole walk. -/
theorem takePath_offered (fits : ∀ f ∈ k.mram.freeFpList, f ≠ 0 ∧ f < 8192) {pd : Pd}
    (all : k.mram.freeFpList.length = (takePath k pd).1.mram.freeFpList.length +
      ((k.links others P).missing (P, pd.pgd) pd.tablePaths).length)
    {p : List (Fin 512)} {f : ℕ} (offered : (p, f) ∈ newTables others P k (P, pd.pgd) pd.tablePaths) {j : Fin 512}
    (onPath : j :: p ∈ pd.tablePaths) : pagingPtePresent (k.mram.entry f j) = false := by
  have paths : pd.tablePaths = [] :: below [] [pd.p4d, pd.pud, pd.pmd] := rfl
  rw [paths] at all offered onPath
  have below_root : j :: p ∈ below [] [pd.p4d, pd.pud, pd.pmd] :=
    (List.mem_cons.mp onPath).resolve_left (List.cons_ne_nil j p)
  cases reached : (k.links others P).frameAt (P, pd.pgd) [] with
  | some f' =>
    rw [Links.missing_cons_some reached] at all
    rw [newTables_present reached] at offered
    obtain ⟨present, fpn⟩ := child_eq_some.mp ((frameAt_root pd.pgd).symm.trans reached)
    have found : takePgd k pd.pgd = (k, some f') := by simp only [takePgd, present, if_true, fpn]
    rw [takePath_eq, found] at all
    exact takeBelow_offered fits reached all offered below_root
  | none =>
    rw [newTables, missing_below _ reached] at offered
    rw [missing_below _ reached, List.length_cons, below_length] at all
    cases pop : k.mram.freeFpList with
    | nil =>
      rw [pop] at offered
      cases offered
    | cons g rest =>
      have fit := fits g (by simp [pop])
      have absent := child_eq_none.mp ((frameAt_root pd.pgd).symm.trans reached)
      let pte := (initPte (k.mm.pgd pd.pgd) true g false 0 0).1
      let after : Krnl :=
        ⟨{ k.mm with pgd := Function.update k.mm.pgd pd.pgd pte }, { k.mram with freeFpList := rest }⟩
      have taken : takePgd k pd.pgd = (after, some g) := by
        simp only [takePgd, absent, Bool.false_eq_true, if_false, Memphy.getFreefp, pop,
          (initPte_online (k.mm.pgd pd.pgd) fit.2 fit.1).2, after, pte]
      have fits' : ∀ f ∈ after.mram.freeFpList, f ≠ 0 ∧ f < 8192 :=
        fun f member => fits f (pop ▸ List.mem_cons_of_mem g member)
      rw [takePath_eq, taken, pop, List.length_cons] at all
      have vacant : Vacant k.mram g rest [pd.p4d, pd.pud, pd.pmd] := by
        refine Vacant.of_fuller (show k.Fuller after from fun _ _ present => present) ?_
        exact (takeBelow_vacant fits' g _).2.2 (Nat.succ.inj all)
      rw [pop] at offered
      exact vacant.zip offered below_root

theorem takePath_fuller (fits : ∀ f ∈ k.mram.freeFpList, f ≠ 0 ∧ f < 8192) (pd : Pd) :
    k.Fuller (takePath k pd).1 := by
  have root : k.Fuller (takePgd k pd.pgd).1 ∧
      ∀ f ∈ (takePgd k pd.pgd).1.mram.freeFpList, f ∈ k.mram.freeFpList := by
    rw [takePgd]
    split_ifs with present
    · exact ⟨fun _ _ present => present, fun _ member => member⟩
    · cases pop : k.mram.freeFpList with
      | nil =>
        simp only [Memphy.getFreefp, pop]
        exact ⟨fun _ _ present => present, fun f member => pop ▸ member⟩
      | cons g rest =>
        simp only [Memphy.getFreefp, pop]
        exact ⟨fun _ _ present => present, fun f member => List.mem_cons_of_mem g member⟩
  rw [takePath_eq]
  generalize takePgd k pd.pgd = result at root
  obtain ⟨k₁, _ | p4d⟩ := result
  · exact root.1
  · intro f j present
    exact (takeBelow_vacant (fun f member => fits f (root.2 f member)) p4d _).2.1 f j (root.1 f j present)

end SimpleOS.Model
