import SimpleOS.Soundness.FailedAccess

/-! # What a page fault takes

`pg_getpage` fills the empty positions on the path of its page and no others, from the free list. The frame
of the page and the frames that stay free hold the bytes they held before.
-/

namespace SimpleOS.Model

open Lib

variable {ι : Type} [DecidableEq ι] {others : ι → Fin 512 → Addr} {P : ι} {k k' k'' : Krnl} {n g : ℕ} {flight : List ℕ}
  {r : Root ι} {path goal : List (Fin 512)} {paths : List (List (Fin 512))}

/-- The frames in flight and those that are still free hold the bytes they held before. -/
structure Idle (flight : List ℕ) (k k' : Krnl) : Prop where
  free : ∀ f ∈ k'.mram.freeFpList, f ∈ k.mram.freeFpList
  bytes : ∀ a, a / pagingPagesz ∈ flight ++ k'.mram.freeFpList → k'.mram.storage a = k.mram.storage a

theorem Idle.refl (flight : List ℕ) (k : Krnl) : Idle flight k k := ⟨fun _ member => member, fun _ _ => rfl⟩

theorem Idle.trans (first : Idle flight k k') (second : Idle flight k' k'') : Idle flight k k'' where
  free f member := first.free f (second.free f member)
  bytes a member := by
    rw [second.bytes a member]
    apply first.bytes a
    rcases List.mem_append.mp member with early | late
    · exact List.mem_append_left _ early
    · exact List.mem_append_right _ (second.free _ late)

/-- A new table lies in the frame it takes and is linked from a table of its path. -/
private theorem NewTable.idle (table : NewTable others P k k' r path g)
    (frames : Frames 4 n (k.links others P) k.mram flight) : Idle flight k k' where
  free f member := by
    rw [table.free]
    exact List.mem_cons_of_mem g member
  bytes a member := by
    have nodup := frames.nodup
    have unused := frames.used_free (a / pagingPagesz)
    rw [table.free] at nodup unused
    apply table.raw a
    · intro same
      rw [same] at member
      exact (List.nodup_cons.mp (List.nodup_middle.mp nodup)).1 member
    · intro path' short reached
      refine unused ⟨r, path', by omega, reached⟩ ?_
      exact List.perm_middle.symm.subset (List.mem_cons_of_mem g member)

/-- A block of `ensure_pte_mapping` and what it goes on with. -/
private theorem Block.idle {result : Krnl × Option ℕ} {next : Krnl → ℕ → Krnl × Option ℕ}
    (frames : Frames 4 n (k.links others P) k.mram flight) (nonzero : 0 ∉ k.mram.freeFpList)
    (block : Block k ((k.links others P).frameAt r path) (fun k' g => NewTable others P k k' r path g) result)
    (continued : ∀ k' table, Frames 4 n (k'.links others P) k'.mram flight → 0 ∉ k'.mram.freeFpList →
      (k'.links others P).frameAt r path = some table → Idle flight k' (next k' table).1) :
    Idle flight k (thenTable result next).1 := by
  have ensured := block.ensured frames
  cases block with
  | present here => exact continued k _ frames nonzero here
  | exhausted => exact .refl flight k
  | @fresh k' table here new =>
    exact (new.idle frames).trans
      (continued k' table ensured.frames (ensured.nonzero nonzero) (ensured.reached table rfl))

private theorem ensurePteMapping_idle (frames : Frames 4 n (k.links others P) k.mram flight)
    (nonzero : 0 ∉ k.mram.freeFpList) (pd : Pd) : Idle flight k (ensurePteMapping k pd).1 := by
  have head : ∀ {k : Krnl} {r : Root ι} {path : List (Fin 512)}, 0 ∉ k.mram.freeFpList →
      (k.links others P).frameAt r path = none → ∀ rest, k.mram.freeFpList ≠ 0 :: rest := by
    intro k r path nonzero _ rest free
    exact nonzero (by rw [free]; exact List.mem_cons_self)
  refine Block.idle frames nonzero (ensurePgd_block frames pd.pgd (head nonzero)) ?_
  intro k₁ p4d frames₁ nonzero₁ at₁
  refine Block.idle frames₁ nonzero₁ (ensureTable_block frames₁ rfl (by simp) at₁ pd.p4d (head nonzero₁)) ?_
  intro k₂ pud frames₂ nonzero₂ at₂
  refine Block.idle frames₂ nonzero₂ (ensureTable_block frames₂ rfl (by simp) at₂ pd.pud (head nonzero₂)) ?_
  intro k₃ pmd frames₃ nonzero₃ at₃
  have last : Idle flight k₃ (thenTable (ensureTable k₃ pmd pd.pmd) fun k table => (k, some table)).1 :=
    Block.idle frames₃ nonzero₃ (ensureTable_block frames₃ rfl (by simp) at₃ pd.pmd (head nonzero₃))
      fun k₄ pt _ _ _ => .refl flight k₄
  rwa [thenTable_some] at last

/-- The positions of the tables and the frame of a page. -/
def Pd.pagePaths (pd : Pd) : List (List (Fin 512)) := pd.tablePaths ++ [pd.leafPath]

theorem Pd.pagePaths_nodup (pd : Pd) : pd.pagePaths.Nodup := by
  simp [Pd.pagePaths, Pd.tablePaths, Pd.leafPath, Pd.tablePath]

theorem Pd.pagePaths_short (pd : Pd) : ∀ path ∈ pd.pagePaths, path.length < 5 := by
  simp [Pd.pagePaths, Pd.tablePaths, Pd.leafPath, Pd.tablePath]

omit [DecidableEq ι] in
private theorem missing_pagePaths {links : Links (Root ι) 512} {pd : Pd} (absent : links.frameAt r pd.leafPath = none) :
    links.missing r pd.pagePaths = links.missing r pd.tablePaths ++ [pd.leafPath] := by
  rw [Pd.pagePaths, Links.missing, List.filter_append, Links.missing]
  simp [absent]

/-- A fault on a page fills some empty positions of its path, with as many frames as leave the free list. -/
structure Faulted (others : ι → Fin 512 → Addr) (P : ι) (k : Krnl) (pgn : Addr) (result : Krnl × Option ℕ)
    (filling : List (List (Fin 512) × ℕ)) : Prop where
  fills : Links.Fills 5 (k.links others P) (result.1.links others P) (pageRoot P pgn) filling
  once : (filling.map Prod.fst).Nodup
  empty : ∀ entry ∈ filling, entry.1 ∈ (k.links others P).missing (pageRoot P pgn) (pdOf pgn).pagePaths
  taken : k.mram.freeFpList.length = filling.length + result.1.mram.freeFpList.length
  idle : Idle [] k result.1
  page : ∀ f, (pagePath pgn, f) ∈ filling → f ∈ k.mram.freeFpList ∧
    ∀ a, a / pagingPagesz = f → result.1.mram.storage a = k.mram.storage a

/-- Completing a path, seen with the pages. -/
private theorem Built.fills_pages {pd : Pd} {result : Krnl × Option ℕ} (grows : Grows others P k result.1)
    (built : Built others P k r pd.tablePaths goal result) :
    Links.Fills 5 (k.links others P) (result.1.links others P) r (newTables others P k r pd.tablePaths) := by
  refine ⟨fun path short => ?_, fun r' path short other => ?_⟩
  · by_cases deep : path.length = 4
    · have unnamed : (newTables others P k r pd.tablePaths).lookup path = none := by
        rw [List.lookup_eq_none_iff]
        intro entry member
        have named := List.mem_of_mem_filter (List.of_mem_zip (a := entry.1) (b := entry.2) member).1
        rw [bne_iff_ne]
        rintro rfl
        simp [Pd.tablePaths, Pd.tablePath] at named
        rcases named with named | named | named | named <;> simp [named] at deep
      rw [unnamed, Option.none_or]
      exact grows.page deep
    · exact built.fills.below path (by omega)
  · by_cases deep : path.length = 4
    · exact grows.page deep
    · exact built.fills.elsewhere r' path (by omega) other

/-- The first free frame `g` is taken for a page, and tables of its path are filled from the rest of the free list. -/
structure TablesFilled (others : ι → Fin 512 → Addr) (P : ι) (k grown : Krnl) (pgn : Addr) (g : ℕ)
    (filling : List (List (Fin 512) × ℕ)) : Prop where
  fills : Links.Fills 5 (k.links others P) (grown.links others P) (pageRoot P pgn) filling
  once : (filling.map Prod.fst).Nodup
  empty : ∀ entry ∈ filling, entry.1 ∈ (k.links others P).missing (pageRoot P pgn) (pdOf pgn).tablePaths
  taken : k.mram.freeFpList.length = filling.length + 1 + grown.mram.freeFpList.length
  first : g ∈ k.mram.freeFpList
  idle : Idle [g] k grown

/-- The frame for the page leaves the free list, and then those of the tables. -/
private theorem tables_filled (pgn : Addr) {rest : List ℕ} (pop : k.mram.freeFpList = g :: rest) {table : Option ℕ}
    (walk : Walk others P n [g] { k with mram := { k.mram with freeFpList := rest } } (pageRoot P pgn)
      (pdOf pgn).tablePaths (pdOf pgn).tablePath (k', table))
    (idle : Idle [g] { k with mram := { k.mram with freeFpList := rest } } k') :
    ∃ filling, TablesFilled others P k k' pgn g filling := by
  let popped : Krnl := { k with mram := { k.mram with freeFpList := rest } }
  let missing := (k.links others P).missing (pageRoot P pgn) (pdOf pgn).tablePaths
  refine ⟨missing.zip rest, ?_, ?_, ?_, ?_, ?_, ?_, idle.bytes⟩
  · exact walk.built.fills_pages walk.ensured.grows
  · exact ((List.nodup_append.mp (pdOf pgn).pagePaths_nodup).1.filter _).sublist (Links.keys_zip_sublist _ _)
  · intro entry member
    exact (List.of_mem_zip (a := entry.1) (b := entry.2) member).1
  · have left : k'.mram.freeFpList = rest.drop missing.length := walk.built.free
    rw [left, pop, List.length_drop, List.length_zip, List.length_cons]
    omega
  · rw [pop]
    exact List.mem_cons_self
  · intro f member
    rw [pop]
    exact List.mem_cons_of_mem g (idle.free f member)

variable {pgn : Addr} {grown : Krnl} {filling : List (List (Fin 512) × ℕ)}

/-- The entry of the page itself is not among them. -/
private theorem TablesFilled.unnamed (tables : TablesFilled others P k grown pgn g filling) :
    (pdOf pgn).leafPath ∉ filling.map Prod.fst := by
  intro named
  obtain ⟨entry, member, same⟩ := List.mem_map.mp named
  have table := List.mem_of_mem_filter (tables.empty entry member)
  rw [same] at table
  exact (List.nodup_append.mp (pdOf pgn).pagePaths_nodup).2.2 _ table _ List.mem_cons_self rfl

/-- The tables do not reach the page, and its frame goes back. -/
private theorem TablesFilled.giveBack (tables : TablesFilled others P k grown pgn g filling)
    (absent : (k.links others P).frameAt (pageRoot P pgn) (pdOf pgn).leafPath = none) (driver : Driver) :
    Faulted others P k pgn ({ grown with mram := grown.mram.putFreefp driver g }, none) filling where
  fills := tables.fills
  once := tables.once
  empty entry member := by
    rw [missing_pagePaths absent]
    exact List.mem_append_left _ (tables.empty entry member)
  taken := by
    have size := (driver.put_perm grown.mram.freeFpList g).length_eq
    rw [List.length_cons] at size
    rw [tables.taken, Memphy.putFreefp, size]
    omega
  idle := by
    have perm : (driver.put grown.mram.freeFpList g).Perm ([g] ++ grown.mram.freeFpList) := driver.put_perm _ _
    refine ⟨fun f member => ?_, fun a member => tables.idle.bytes a (perm.subset member)⟩
    obtain back | late := List.mem_append.mp (perm.subset member)
    · rw [List.mem_singleton.mp back]
      exact tables.first
    · exact tables.idle.free f late
  page f member := absurd (List.mem_map_of_mem member) tables.unnamed

/-- The tables reach the page, and its frame goes into its entry. -/
private theorem TablesFilled.mapPage (tables : TablesFilled others P k grown pgn g filling)
    (absent : (k.links others P).frameAt (pageRoot P pgn) (pdOf pgn).leafPath = none)
    (frames : Frames 4 n (grown.links others P) grown.mram [g]) {table : ℕ}
    (reached : (grown.links others P).frameAt (pageRoot P pgn) (pdOf pgn).tablePath = some table)
    {fifoPgn : List Addr} :
    Faulted others P k pgn
      ({ mm := { grown.mm with fifoPgn }
         mram := grown.mram.setEntry table (pdOf pgn).pt (onlinePte g) }, some g)
      (filling ++ [((pdOf pgn).leafPath, g)]) := by
  have fits : g < 8192 := by
    have bound := frames.free_lt g (by simp)
    have small := frames.small
    omega
  have linked : child (onlinePte g) = some g := child_eq_some.mpr ⟨onlinePte_present g, onlinePte_fpn fits⟩
  have leaf := fun r path short => frames.leaf rfl reached (pdOf pgn).pt linked r path short
  have kept : ∀ a, a / pagingPagesz ∈ [g] ++ grown.mram.freeFpList →
      (grown.mram.setEntry table (pdOf pgn).pt (onlinePte g)).storage a = k.mram.storage a := by
    intro a member
    rw [Memphy.storage_setEntry]
    · exact tables.idle.bytes a member
    · rintro rfl
      exact frames.used_free _ ⟨_, _, by simp [Pd.tablePath], reached⟩ member
  refine ⟨?_, ?_, ?_, ?_, ⟨tables.idle.free, ?_⟩, ?_⟩
  · refine tables.fills.concat tables.unnamed ?_ ?_
    · exact (leaf _ (pdOf pgn).leafPath (by simp [Pd.leafPath, Pd.tablePath])).trans (if_pos ⟨rfl, rfl⟩)
    · intro r path short other
      exact (leaf r path short).trans (if_neg other)
  · rw [List.map_append, List.nodup_append]
    refine ⟨tables.once, by simp, ?_⟩
    rintro path named last member same
    rw [same, List.mem_singleton.mp member] at named
    exact tables.unnamed named
  · intro entry member
    rw [missing_pagePaths absent]
    obtain table | leaf := List.mem_append.mp member
    · exact List.mem_append_left _ (tables.empty entry table)
    · rw [List.mem_singleton.mp leaf]
      exact List.mem_append_right _ List.mem_cons_self
  · rw [tables.taken, List.length_append, List.length_singleton, Memphy.setEntry_freeFpList]
  · intro a member
    exact kept a (List.mem_append_right _ member)
  · intro f member
    obtain table | leaf := List.mem_append.mp member
    · exact absurd (List.mem_map_of_mem table) tables.unnamed
    · obtain rfl : f = g := congrArg Prod.snd (List.mem_singleton.mp leaf)
      refine ⟨tables.first, fun a inside => kept a (List.mem_append_left _ ?_)⟩
      rw [inside]
      exact List.mem_cons_self

/-- `pg_getpage` on a page without a frame. -/
theorem pgGetpage_faulted (owned : Owned n (k.links others P) k.mram) (driver : Driver) {pgn : BitVec 32}
    (inRange : ¬(pgn.toInt < 0 ∨ (pagingMaxPgn : Int) ≤ pgn.toInt))
    (absent : pagingPtePresent (pteGetEntry k (pgn.signExtend 64)) = false) :
    ∃ filling, Faulted others P k (pgn.signExtend 64) (pgGetpage driver k pgn) filling := by
  cases pop : k.mram.freeFpList with
  | nil =>
    have nothing : pgGetpage driver k pgn = (k, none) := by
      simp [pgGetpage, absent, Memphy.getFreefp, pop]
    rw [nothing]
    exact ⟨[], .nil _, by simp, by simp, by simp, .refl [] k, by simp⟩
  | cons g rest =>
    let popped : Krnl := { k with mram := { k.mram with freeFpList := rest } }
    let pd := pdOf (pgn.signExtend 64)
    have noPage : (k.links others P).frameAt (pageRoot P (pgn.signExtend 64)) pd.leafPath = none := by
      have here := pageAt_eq (owned.frames.mono (e := 4) (by omega)) (pgn.signExtend 64)
      rw [absent] at here
      exact here
    obtain ⟨frames, -, nonzero⟩ := owned.popped pop
    have frames₄ : Frames 4 n (popped.links others P) popped.mram [g] := frames.mono (by omega)
    have walk : Walk others P n [g] popped (pageRoot P (pgn.signExtend 64)) _ _ (ensurePteMapping popped pd) :=
      ensurePteMapping_walk frames₄ _ (usable_of_nonzero nonzero)
    have idle : Idle [g] popped (ensurePteMapping popped pd).1 := ensurePteMapping_idle frames₄ nonzero pd
    rcases built : ensurePteMapping popped pd with ⟨grown, table⟩
    rw [built] at walk idle
    obtain ⟨filling, tables⟩ := tables_filled (pgn.signExtend 64) pop walk idle
    rw [pgGetpage_fault_eq driver inRange absent pop built]
    cases table with
    | none => exact ⟨filling, tables.giveBack noPage driver⟩
    | some table => exact ⟨_, tables.mapPage noPage walk.ensured.frames (walk.ensured.reached table rfl)⟩

end SimpleOS.Model
