import SimpleOS.Lib.Fifo
import SimpleOS.Proofs.FirstPage
import SimpleOS.Proofs.Regions

/-! # Order of replacement

`pg_getpage` and `vmap_page_range` put a page into `fifo_pgn` when they map it, and `find_victim_page` takes one
out. The list is meant to be a queue, and both ends of it are its head: an insertion and a removal meet there.
-/

namespace SimpleOS.Model

open Lib

variable {k k' : Krnl} {driver : Driver}

/-- What is seen of a call: the pages that it maps, in order, or the victim that it reports. -/
inductive PagerEvent
  | mapped (pages : List Addr)
  | victim (result : Option Addr)
deriving DecidableEq, Repr

/-- The pages of the rounds of `vmap_page_range` from round `pgit` on. -/
def rangePages (addr : Addr) (pgnum : Int) : ℕ → List ℕ → List Addr
  | _, [] => []
  | pgit, _ :: frames =>
    if (pgit : Int) < pgnum then
      pagingPgn (addr + pageOffset pgit) :: rangePages addr pgnum (pgit + 1) frames
    else []

/-- The calls that put pages into the list or take them out. -/
inductive Krnl.Pages (driver : Driver) (k : Krnl) : PagerEvent → Krnl → Prop
  | getpage (pgn : BitVec 32) : Krnl.Pages driver k
      (.mapped (if pagingPtePresent (pteGetEntry k (pgn.signExtend 64)) = false ∧
        (pgGetpage driver k pgn).2.isSome then [pgn.signExtend 64] else [])) (pgGetpage driver k pgn).1
  | vmapPageRange (addr : Addr) (pgnum : BitVec 32) (frames : List ℕ) : Krnl.Pages driver k
      (.mapped (rangePages addr pgnum.toInt 0 frames)) (vmapPageRange k addr pgnum frames).1
  | enlistPgnNode (pgn : Addr) : Krnl.Pages driver k (.mapped [pgn])
      { k with mm := { k.mm with fifoPgn := enlistPgnNode k.mm.fifoPgn pgn } }
  | findVictimPage : Krnl.Pages driver k (.victim (findVictimPage k.mm).2)
      ⟨(findVictimPage k.mm).1, k.mram⟩

/-- The list as a buffer: a page enters at its head, so the oldest one is the last. -/
def fifoPages : Buffer Krnl PagerEvent Addr where
  contents k := k.mm.fifoPgn.reverse
  intake
    | .mapped pages => pages
    | .victim _ => []
  served
    | .mapped _ => []
    | .victim result => result.toList

instance (k k' : Krnl) (events : List PagerEvent) : Decidable (fifoPages.InOrder k events k') :=
  inferInstanceAs (Decidable (_ = _))

/-- `find_victim_page` meets a list without two different pages. -/
def Krnl.OneAge (k : Krnl) (event : PagerEvent) : Prop :=
  ∀ result, event = .victim result → ∀ p ∈ k.mm.fifoPgn, ∀ q ∈ k.mm.fifoPgn, p = q

private theorem vmapPageRangeLoop_fifo (addr : Addr) (pgnum : Int) (k : Krnl) (pgit : ℕ) (frames : List ℕ) :
    (vmapPageRangeLoop addr pgnum k pgit frames).mm.fifoPgn =
      (rangePages addr pgnum pgit frames).reverse ++ k.mm.fifoPgn := by
  induction frames generalizing k pgit with
  | nil => rfl
  | cons fpn frames ih =>
    rw [vmapPageRangeLoop, rangePages]
    split_ifs with more
    · rw [ih, enlistPgnNode, (pteSetFpn_tables k _ fpn).fifoPgn, List.reverse_cons, List.append_assoc,
        List.singleton_append]
    · rfl

private theorem pgGetpage_fifo (driver : Driver) (k : Krnl) (pgn : BitVec 32) :
    (pgGetpage driver k pgn).1.mm.fifoPgn =
      if pagingPtePresent (pteGetEntry k (pgn.signExtend 64)) = false ∧ (pgGetpage driver k pgn).2.isSome
      then pgn.signExtend 64 :: k.mm.fifoPgn else k.mm.fifoPgn := by
  by_cases range : pgn.toInt < 0 ∨ (pagingMaxPgn : Int) ≤ pgn.toInt
  · simp [pgGetpage, range]
  cases present : pagingPtePresent (pteGetEntry k (pgn.signExtend 64)) with
  | true => simp [pgGetpage, range, present]
  | false =>
    cases free : k.mram.getFreefp with
    | none => simp [pgGetpage, range, present, free]
    | some popped =>
      obtain ⟨fpn, mram⟩ := popped
      have kept := (pteSetFpn_tables { k with mram } (pgn.signExtend 64) fpn).fifoPgn
      simp only [pgGetpage, if_neg range, present, free, Bool.false_eq_true, if_false, true_and]
      generalize pteSetFpn { k with mram } (pgn.signExtend 64) fpn = result at kept ⊢
      obtain ⟨k', status⟩ := result
      simp only at kept ⊢
      by_cases done : status = 0
      · simp only [done, if_true, Option.isSome_some, enlistPgnNode, kept]
      · simp only [done, if_false, Option.isSome_none, Bool.false_eq_true, kept]

/-- A call hands on in order exactly when it is no removal from among different pages. -/
private theorem Krnl.pages_inOrder_iff {event : PagerEvent} (taken : k.Pages driver event k') :
    fifoPages.InOrder k [event] k' ↔ k.OneAge event := by
  have mapping : ∀ pages, k'.mm.fifoPgn = pages.reverse ++ k.mm.fifoPgn →
      fifoPages.InOrder k [.mapped pages] k' := by
    intro pages grown
    simp [Buffer.InOrder, fifoPages, grown]
  cases taken with
  | getpage pgn =>
    refine iff_of_true (mapping _ ?_) (by rintro _ ⟨⟩)
    rw [pgGetpage_fifo]
    split_ifs <;> rfl
  | vmapPageRange addr pgnum frames =>
    exact iff_of_true (mapping _ (vmapPageRangeLoop_fifo addr pgnum.toInt k 0 frames)) (by rintro _ ⟨⟩)
  | enlistPgnNode pgn => exact iff_of_true (mapping _ rfl) (by rintro _ ⟨⟩)
  | findVictimPage =>
    cases pages : k.mm.fifoPgn with
    | nil => simp [Buffer.InOrder, fifoPages, Krnl.OneAge, findVictimPage, pages]
    | cons p rest =>
      have order : fifoPages.InOrder k [.victim (findVictimPage k.mm).2]
          ⟨(findVictimPage k.mm).1, k.mram⟩ ↔ p :: rest.reverse = rest.reverse ++ [p] := by
        simp [Buffer.InOrder, fifoPages, findVictimPage, pages]
      rw [order, cons_eq_concat_iff]
      simp only [List.mem_reverse, Krnl.OneAge, pages]
      constructor
      · intro same result _ q member r member'
        have equal : ∀ q ∈ p :: rest, q = p := List.forall_mem_cons.mpr ⟨rfl, same⟩
        rw [equal q member, equal r member']
      · intro same q member
        exact same _ rfl q (List.mem_cons_of_mem p member) p List.mem_cons_self

/-- As long as every removal meets no two different pages, all victims and the pages that remain are the pages of
the initial list and the mapped ones in order. The next call keeps that up exactly when it meets the condition too,
and a removal fails exactly on the empty list. -/
theorem victims_fifo_iff {events : List PagerEvent}
    (run : Run (guarded Krnl.OneAge (Krnl.Pages driver)) k events k') :
    fifoPages.InOrder k events k' ∧
    ∀ event after, k'.Pages driver event after →
      (fifoPages.InOrder k (events ++ [event]) after ↔ k'.OneAge event) ∧
      ∀ result, event = .victim result → (result = none ↔ k'.mm.fifoPgn = []) := by
  have ordered : fifoPages.InOrder k events k' :=
    Buffer.inOrder_of_run run fun _ _ _ met taken => (Krnl.pages_inOrder_iff taken).mpr met
  refine ⟨ordered, ?_⟩
  intro event after taken
  refine ⟨ordered.next_iff.trans (Krnl.pages_inOrder_iff taken), ?_⟩
  rintro result rfl
  cases taken
  rw [findVictimPage]
  cases k'.mm.fifoPgn <;> simp

/-- The process has faulted on a page. -/
private theorem Krnl.faults (driver : Driver) (k : Krnl) (pgn : BitVec 32)
    (fault : pagingPtePresent (pteGetEntry k (pgn.signExtend 64)) = false ∧ (pgGetpage driver k pgn).2.isSome) :
    k.Pages driver (.mapped [pgn.signExtend 64]) (pgGetpage driver k pgn).1 := by
  have taken : k.Pages driver _ (pgGetpage driver k pgn).1 := .getpage pgn
  rw [if_pos fault] at taken
  exact taken

/-- A process that has faulted on page 1 and then on page 2. -/
def Krnl.twoFaults : Krnl := (pgGetpage .head (pgGetpage .head Krnl.newborn 1).1 2).1

private theorem Krnl.newborn_page : pgGetpage .head Krnl.newborn 1 = (Krnl.newborn.freshPage 8 1, some 0) :=
  pgGetpage_fresh ⟨fun _ => rfl, rfl⟩ (by decide) .head (by decide)

private theorem Krnl.run_twoFaults : Run (guarded Krnl.OneAge (Krnl.Pages .head)) Krnl.newborn
    [.mapped [1], .mapped [2]] Krnl.twoFaults := by
  rw [Krnl.twoFaults]
  have first : Krnl.newborn.Pages .head (.mapped [1]) (pgGetpage .head Krnl.newborn 1).1 :=
    Krnl.faults .head Krnl.newborn 1 (by rw [Krnl.newborn_page]; decide +kernel)
  have second : (pgGetpage .head Krnl.newborn 1).1.Pages .head (.mapped [2])
      (pgGetpage .head (pgGetpage .head Krnl.newborn 1).1 2).1 :=
    Krnl.faults .head _ 2 (by rw [Krnl.newborn_page]; decide +kernel)
  exact (Run.one ⟨by rintro _ ⟨⟩, first⟩).next ⟨by rintro _ ⟨⟩, second⟩

theorem victims_twoFaults : fifoPages.InOrder Krnl.newborn [.mapped [1], .mapped [2]] Krnl.twoFaults :=
  (victims_fifo_iff Krnl.run_twoFaults).1

/-- The first victim is page 2, although page 1 was mapped before it. -/
theorem victims_last_in : Krnl.newborn.mm.fifoPgn = [] ∧
    Run (Krnl.Pages .head) Krnl.newborn [.mapped [1], .mapped [2], .victim (some 2)]
      ⟨(findVictimPage Krnl.twoFaults.mm).1, Krnl.twoFaults.mram⟩ ∧
    ¬fifoPages.InOrder Krnl.newborn [.mapped [1], .mapped [2], .victim (some 2)]
      ⟨(findVictimPage Krnl.twoFaults.mm).1, Krnl.twoFaults.mram⟩ := by
  have victim : (findVictimPage Krnl.twoFaults.mm).2 = some 2 := by
    rw [Krnl.twoFaults, Krnl.newborn_page]
    decide +kernel
  have removal : Krnl.twoFaults.Pages .head (.victim (findVictimPage Krnl.twoFaults.mm).2) _ := .findVictimPage
  rw [victim] at removal
  refine ⟨rfl, Krnl.run_twoFaults.of_guarded.next removal, ?_⟩
  rw [Krnl.twoFaults, Krnl.newborn_page]
  decide +kernel

end SimpleOS.Model
