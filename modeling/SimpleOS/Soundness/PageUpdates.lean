import SimpleOS.Lib.Run
import SimpleOS.Soundness.Swapping

/-! # The frame of a page after a sequence of updates

`pte_set_fpn` and `pte_set_swap` both set the present bit, and the frame number of one overlaps the swap type and
offset of the other. `pg_getpage` tests the present bit only. `LastUpdate` is what the calls so far made of one
page; the entry of the page agrees with it as long as `pte_set_swap` gets clean frames.
-/

namespace SimpleOS.Model

open Lib

/-- A call that sets the entry of a page. -/
inductive PteUpdate
  | setFpn (pgn : Addr) (fpn : ℕ)
  | setSwap (pgn : Addr) (swptyp : BitVec 32) (swpoff : Addr)

/-- What the calls so far made of a page. -/
inductive LastUpdate
  | absent
  | online (fpn : ℕ)
  | swapped

namespace PteUpdate

def pgn : PteUpdate → Addr
  | setFpn pgn _ => pgn
  | setSwap pgn _ _ => pgn

/-- The call itself. -/
def perform (k : Krnl) : PteUpdate → Krnl × Int
  | setFpn pgn fpn => pteSetFpn k pgn fpn
  | setSwap pgn swptyp swpoff => pteSetSwap k pgn swptyp swpoff

/-- What the call makes of its page when it returns 0. -/
def made : PteUpdate → LastUpdate
  | setFpn _ fpn => .online fpn
  | setSwap _ _ _ => .swapped

/-- The state after a call, with what the calls made of page `p`. A call is for `p` when its page has the same five
indices. -/
def step (p : Addr) (now : Krnl × LastUpdate) (update : PteUpdate) : Krnl × LastUpdate :=
  ((update.perform now.1).1,
    if (update.perform now.1).2 = 0 ∧ pdOf update.pgn = pdOf p then update.made else now.2)

private theorem step_made {p : Addr} {now : Krnl × LastUpdate} {update : PteUpdate}
    (status : (update.perform now.1).2 = 0) (own : pdOf update.pgn = pdOf p) :
    update.step p now = ((update.perform now.1).1, update.made) := by
  rw [step, if_pos ⟨status, own⟩]

/-- The frames on offer are clean where `pte_set_swap` relies on it. -/
def Clean (now : Krnl × LastUpdate) : PteUpdate → Prop
  | setFpn _ _ => True
  | setSwap pgn _ _ => now.1.CleanDirectories (pdOf pgn) ∧ now.1.CleanSlots (pdOf pgn)

/-- The calls over clean frames, seen from page `p`. -/
abbrev CleanStep (p : Addr) : Krnl × LastUpdate → PteUpdate → Krnl × LastUpdate → Prop :=
  guarded Clean fun now update after => after = update.step p now

end PteUpdate

/-- An entry that a page can have after an update. -/
def LastUpdate.Agrees (pte : BitVec 32) : LastUpdate → Prop
  | absent => pagingPtePresent pte = false
  | online fpn => pagingPtePresent pte = true ∧ pagingPteFpn pte = fpn % 2 ^ 13
  | swapped => pagingPtePresent pte = true

namespace Krnl

variable {k k' : Krnl} {p : Addr} {last : LastUpdate} {driver : Driver} {pgn : BitVec 32}

/-- What the entry of a page says about its last update. -/
def lastUpdate (k : Krnl) (p : Addr) : LastUpdate :=
  if pagingPtePresent (pteGetEntry k p) then
    if pagingPteSwapped (pteGetEntry k p) then .swapped else .online (pagingPteFpn (pteGetEntry k p))
  else .absent

private theorem lastUpdate_agrees (k : Krnl) (p : Addr) : (k.lastUpdate p).Agrees (pteGetEntry k p) := by
  rw [lastUpdate]
  split_ifs with present swapped
  · exact present
  · exact ⟨present, (Nat.mod_eq_of_lt (pagingPteFpn_lt _ (by omega))).symm⟩
  · change pagingPtePresent (pteGetEntry k p) = false
    simpa only [Bool.not_eq_true] using present

/-- The tree is well formed, and the entry of the page is what its last update made of it. -/
structure Tracked (p : Addr) (now : Krnl × LastUpdate) : Prop where
  wellFormed : now.1.TreeWellFormed
  agrees : now.2.Agrees (pteGetEntry now.1 p)

/-- A call over clean frames makes of its page what it promises and leaves the others, or changes no entry. -/
private theorem TreeWellFormed.perform (wellFormed : k.TreeWellFormed) {update : PteUpdate}
    (clean : update.Clean (k, last)) :
    (update.perform k).1.TreeWellFormed ∧
    ((update.perform k).2 = 0 → update.made.Agrees (pteGetEntry (update.perform k).1 update.pgn) ∧
      ∀ q, pdOf q ≠ pdOf update.pgn → pteGetEntry (update.perform k).1 q = pteGetEntry k q) ∧
    ((update.perform k).2 ≠ 0 → ∀ q, pteGetEntry (update.perform k).1 q = pteGetEntry k q) := by
  cases update with
  | setFpn pgn fpn =>
    obtain ⟨after, succeeded, failed⟩ := wellFormed.setFpn pgn fpn
    refine ⟨after, ?_, fun status => (failed status).2⟩
    intro status
    obtain ⟨here, others⟩ := succeeded status
    refine ⟨?_, others⟩
    change pagingPtePresent (pteGetEntry (pteSetFpn k pgn fpn).1 pgn) = true ∧
      pagingPteFpn (pteGetEntry (pteSetFpn k pgn fpn).1 pgn) = fpn % 2 ^ 13
    rw [here, pagingPtePresent_setWidth, pagingPteFpn_setWidth]
    exact ⟨onlinePte_present fpn, pagingPteFpn_setVal_mod _ fpn⟩
  | setSwap pgn swptyp swpoff =>
    obtain ⟨after, succeeded, failed⟩ := wellFormed.setSwap clean.1 clean.2 swptyp swpoff
    refine ⟨after, ?_, failed⟩
    intro status
    obtain ⟨⟨pte, here⟩, others⟩ := succeeded status
    refine ⟨?_, others⟩
    change pagingPtePresent (pteGetEntry (pteSetSwap k pgn swptyp swpoff).1 pgn) = true
    rw [here, pagingPtePresent_setWidth, swappedPte_present]

/-- One call keeps a page tracked. -/
theorem Tracked.step {now : Krnl × LastUpdate} {update : PteUpdate} (tracked : Tracked p now)
    (clean : update.Clean now) : Tracked p (update.step p now) := by
  obtain ⟨k, last⟩ := now
  obtain ⟨after, succeeded, failed⟩ := tracked.wellFormed.perform clean
  refine ⟨after, ?_⟩
  dsimp only [PteUpdate.step]
  split_ifs with own
  · rw [pteGetEntry_congr own.2.symm]
    exact (succeeded own.1).1
  · have same : pteGetEntry (update.perform k).1 p = pteGetEntry k p := by
      by_cases status : (update.perform k).2 = 0
      · exact (succeeded status).2 p fun same => own ⟨status, same.symm⟩
      · exact failed status p
    rw [same]
    exact tracked.agrees

/-- Any sequence of calls keeps a page tracked. -/
private theorem TreeWellFormed.tracked (wellFormed : k.TreeWellFormed) {updates : List PteUpdate}
    {after : Krnl × LastUpdate}
    (run : Run (PteUpdate.CleanStep p) (k, k.lastUpdate p) updates after) : Tracked p after := by
  have initial : Tracked p (k, k.lastUpdate p) := ⟨wellFormed, k.lastUpdate_agrees p⟩
  apply run.keeps initial
  rintro now update after tracked ⟨clean, rfl⟩
  exact tracked.step clean

/-- Taking the first free frame leaves the tree well formed. -/
private theorem TreeWellFormed.popped (wellFormed : k.TreeWellFormed) {g : ℕ} {rest : List ℕ}
    (pop : k.mram.freeFpList = g :: rest) : TreeWellFormed { k with mram := { k.mram with freeFpList := rest } } where
  small := wellFormed.small
  tables_distinct := wellFormed.tables_distinct
  tables_lt := wellFormed.tables_lt
  tables_used f used member := wellFormed.tables_used f used (pop ▸ List.mem_cons_of_mem g member)
  free_lt f member := wellFormed.free_lt f (pop ▸ List.mem_cons_of_mem g member)
  free_nodup := (List.nodup_cons.mp (pop ▸ wellFormed.free_nodup)).2
  free_nonzero member := wellFormed.free_nonzero (pop ▸ List.mem_cons_of_mem g member)

/-- `pte_set_fpn` gives no frame back. -/
theorem TreeWellFormed.setFpn_free (wellFormed : k.TreeWellFormed) (p : Addr) (fpn : ℕ) {f : ℕ}
    (free : f ∈ (pteSetFpn k p fpn).1.mram.freeFpList) : f ∈ k.mram.freeFpList := by
  have left : (Model.ensurePteMapping k (pdOf p)).1.mram.freeFpList = _ := (wellFormed.walk (pdOf p)).built.free
  have same : (pteSetFpn k p fpn).1.mram.freeFpList = (Model.ensurePteMapping k (pdOf p)).1.mram.freeFpList := by
    simp only [pteSetFpn, getPdFromPagenum_eq]
    rcases Model.ensurePteMapping k (pdOf p) with ⟨k₁, _ | table⟩
    · rfl
    · rfl
  rw [same, left] at free
  exact List.mem_of_mem_drop free

/-- A frame that `pg_getpage` takes for an absent page leaves the free list and is mapped. -/
private theorem TreeWellFormed.getpage_absent (wellFormed : k.TreeWellFormed)
    (inRange : ¬(pgn.toInt < 0 ∨ (pagingMaxPgn : Int) ≤ pgn.toInt))
    (absent : pagingPtePresent (pteGetEntry k (pgn.signExtend 64)) = false) {f : ℕ}
    (returned : (pgGetpage driver k pgn).2 = some f) :
    f ∈ k.mram.freeFpList ∧ f ∉ (pgGetpage driver k pgn).1.mram.freeFpList ∧
      pagingPtePresent (pteGetEntry (pgGetpage driver k pgn).1 (pgn.signExtend 64)) = true ∧
      pagingPteFpn (pteGetEntry (pgGetpage driver k pgn).1 (pgn.signExtend 64)) = f := by
  cases pop : k.mram.freeFpList with
  | nil =>
    simp only [pgGetpage, if_neg inRange, absent, Memphy.getFreefp, pop] at returned
    cases returned
  | cons g rest =>
    let popped : Krnl := { k with mram := { k.mram with freeFpList := rest } }
    have wellFormed' : popped.TreeWellFormed := wellFormed.popped pop
    have unique := wellFormed.free_nodup
    rw [pop, List.nodup_cons] at unique
    have small := wellFormed.fits g (by simp [pop])
    obtain ⟨-, succeeded, -⟩ := wellFormed'.setFpn (pgn.signExtend 64) g
    have taken : g ∉ (pteSetFpn popped (pgn.signExtend 64) g).1.mram.freeFpList :=
      fun member => unique.1 (wellFormed'.setFpn_free _ _ member)
    have getFreefp : k.mram.getFreefp = some (g, popped.mram) := by simp [Memphy.getFreefp, pop, popped]
    rcases stored : pteSetFpn popped (pgn.signExtend 64) g with ⟨k₁, status⟩
    rw [stored] at succeeded taken
    by_cases status_zero : status = 0
    · have result : pgGetpage driver k pgn =
          ({ k₁ with mm := { k₁.mm with fifoPgn := enlistPgnNode k₁.mm.fifoPgn (pgn.signExtend 64) } }, some g) := by
        simp [pgGetpage, inRange, absent, getFreefp, popped, stored, status_zero]
      rw [result] at returned ⊢
      obtain rfl : g = f := Option.some.inj returned
      have entry : pteGetEntry k₁ (pgn.signExtend 64) = (onlinePte g).setWidth 32 := (succeeded status_zero).1
      refine ⟨List.mem_cons_self, taken, ?_⟩
      change pagingPtePresent (pteGetEntry k₁ (pgn.signExtend 64)) = true ∧
        pagingPteFpn (pteGetEntry k₁ (pgn.signExtend 64)) = g
      rw [entry, pagingPtePresent_setWidth, pagingPteFpn_setWidth]
      exact ⟨onlinePte_present g, onlinePte_fpn small.2⟩
    · have result : (pgGetpage driver k pgn).2 = none := by
        simp [pgGetpage, inRange, absent, getFreefp, popped, stored, status_zero]
      rw [result] at returned
      cases returned

/-- What `pg_getpage` delivers is the frame of the last update, or one that was free and is mapped for the page. -/
def GetsOwnFrame (driver : Driver) (k : Krnl) (pgn : BitVec 32) (last : LastUpdate) : Prop :=
  ∀ f, (pgGetpage driver k pgn).2 = some f → last = .online f ∨
    (f ∈ k.mram.freeFpList ∧ f ∉ (pgGetpage driver k pgn).1.mram.freeFpList ∧
      pagingPtePresent (pteGetEntry (pgGetpage driver k pgn).1 (pgn.signExtend 64)) = true ∧
      pagingPteFpn (pteGetEntry (pgGetpage driver k pgn).1 (pgn.signExtend 64)) = f)

/-- A present page gets the frame number in its entry, and no frame is taken. -/
private theorem getpage_present (inRange : ¬(pgn.toInt < 0 ∨ (pagingMaxPgn : Int) ≤ pgn.toInt))
    (present : pagingPtePresent (pteGetEntry k (pgn.signExtend 64)) = true) :
    pgGetpage driver k pgn = (k, some (pagingPteFpn (pteGetEntry k (pgn.signExtend 64)))) := by
  simp only [pgGetpage, if_neg inRange, present, if_true]

/-- The frame that `pg_getpage` reads off a present entry is right only if the last update set it. -/
private theorem getsOwnFrame_iff_of_present (inRange : ¬(pgn.toInt < 0 ∨ (pagingMaxPgn : Int) ≤ pgn.toInt))
    (present : pagingPtePresent (pteGetEntry k (pgn.signExtend 64)) = true) :
    GetsOwnFrame driver k pgn last ↔ last = .online (pagingPteFpn (pteGetEntry k (pgn.signExtend 64))) := by
  rw [GetsOwnFrame, getpage_present inRange present]
  constructor
  · intro gets
    rcases gets _ rfl with own | ⟨free, taken, -⟩
    · exact own
    · exact absurd free taken
  · rintro own f ⟨⟩
    exact .inl own

/-- After any calls over clean frames `pg_getpage` delivers the frame of the last update, or one that was free,
exactly when that update was not `pte_set_swap` and set a frame number of 13 bits. -/
theorem getsOwnFrame_iff (wellFormed : k.TreeWellFormed) (low : 0 ≤ pgn.toInt) (high : pgn.toInt < pagingMaxPgn)
    {updates : List PteUpdate}
    (run : Run (PteUpdate.CleanStep (pgn.signExtend 64)) (k, k.lastUpdate (pgn.signExtend 64)) updates (k', last)) :
    GetsOwnFrame driver k' pgn last ↔ last ≠ .swapped ∧ ∀ f, last = .online f → f < 2 ^ 13 := by
  obtain ⟨wellFormed', agrees⟩ := wellFormed.tracked run
  have inRange : ¬(pgn.toInt < 0 ∨ (pagingMaxPgn : Int) ≤ pgn.toInt) := by omega
  cases last with
  | absent =>
    refine iff_of_true ?_ ⟨by rintro ⟨⟩, by rintro f ⟨⟩⟩
    intro f returned
    exact .inr (wellFormed'.getpage_absent inRange agrees returned)
  | online fpn =>
    rw [getsOwnFrame_iff_of_present inRange agrees.1, agrees.2, LastUpdate.online.injEq]
    constructor
    · intro own
      refine ⟨by rintro ⟨⟩, ?_⟩
      rintro f ⟨⟩
      omega
    · rintro ⟨-, fits⟩
      exact (Nat.mod_eq_of_lt (fits fpn rfl)).symm
  | swapped =>
    rw [getsOwnFrame_iff_of_present inRange agrees]
    constructor
    · rintro ⟨⟩
    · rintro ⟨online, -⟩
      exact absurd rfl online

/-- Page 3 is swapped and then set to frame 7. -/
theorem getsOwnFrame_seven : GetsOwnFrame .head (pteSetFpn (pteSetSwap fresh 3 5 9).1 3 7).1 3 (.online 7) := by
  have page : (3 : BitVec 32).signExtend 64 = 3 := by decide
  have swapped : PteUpdate.step 3 (fresh, fresh.lastUpdate 3) (.setSwap 3 5 9) =
      ((pteSetSwap fresh 3 5 9).1, .swapped) := PteUpdate.step_made (by decide +kernel) rfl
  have mapped : PteUpdate.step 3 ((pteSetSwap fresh 3 5 9).1, .swapped) (.setFpn 3 7) =
      ((pteSetFpn (pteSetSwap fresh 3 5 9).1 3 7).1, .online 7) := PteUpdate.step_made (by decide +kernel) rfl
  have run : Run (PteUpdate.CleanStep ((3 : BitVec 32).signExtend 64))
      (fresh, fresh.lastUpdate ((3 : BitVec 32).signExtend 64)) [.setSwap 3 5 9, .setFpn 3 7]
      ((pteSetFpn (pteSetSwap fresh 3 5 9).1 3 7).1, .online 7) := by
    rw [page]
    exact (Run.one ⟨fresh_clean (pdOf 3), swapped.symm⟩).next ⟨trivial, mapped.symm⟩
  refine (getsOwnFrame_iff fresh_wellFormed (by decide) (by decide) run).mpr ⟨by rintro ⟨⟩, ?_⟩
  rintro f ⟨⟩
  decide

/-- Page 3 is swapped with type 5 and offset 9, and `pg_getpage` delivers frame 5 + 9 * 32 of a RAM of 8 frames. -/
theorem swap_bits_taken : fresh.TreeWellFormed ∧
    Run (PteUpdate.CleanStep 3) (fresh, fresh.lastUpdate 3) [.setSwap 3 5 9]
      ((pteSetSwap fresh 3 5 9).1, .swapped) ∧
    (pgGetpage .head (pteSetSwap fresh 3 5 9).1 3).2 = some 293 ∧
    ¬GetsOwnFrame .head (pteSetSwap fresh 3 5 9).1 3 .swapped := by
  have delivered : (pgGetpage .head (pteSetSwap fresh 3 5 9).1 3).2 = some 293 := by decide +kernel
  have stepped : PteUpdate.step 3 (fresh, fresh.lastUpdate 3) (.setSwap 3 5 9) =
      ((pteSetSwap fresh 3 5 9).1, .swapped) := PteUpdate.step_made (by decide +kernel) rfl
  refine ⟨fresh_wellFormed, .one ⟨fresh_clean (pdOf 3), stepped.symm⟩, delivered, ?_⟩
  intro own
  rcases own 293 delivered with swapped | ⟨free, -⟩
  · cases swapped
  · revert free
    decide +kernel

end Krnl

end SimpleOS.Model
