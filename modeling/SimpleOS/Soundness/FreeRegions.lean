import SimpleOS.Lib.Run
import SimpleOS.Proofs.FreeRegions

/-! # Bookkeeping of the free regions

Runs of `get_free_vmrg_area` and `enlist_vm_freerg_list` on one list. Between the calls the caller may do
anything to memory that is no node of the list, and each region it returns is one it has obtained. The
regions of the list and those that are out are always a partition of the original bytes.
-/

namespace SimpleOS.Model

open Lib

variable {ℓ : Type} [DecidableEq ℓ]

/-- The heap, and the regions that were obtained and not returned. -/
structure RegionState (ℓ : Type) where
  heap : RgHeap ℓ
  obtained : List VmRg

/-- A call, or what the caller does between two calls. -/
inductive RegionCall (ℓ : Type)
  | get (size : BitVec 32) (newrg : ℓ)
  | put (rgElmt : ℓ)
  | caller

/-- The pointer is a node of the free list. -/
def RgHeap.Listed (h : RgHeap ℓ) (p : ℓ) : Prop :=
  ∃ cells, Chain h.nodes h.vmFreergList cells ∧ p ∈ cells.map Prod.fst

/-- A call gets a struct that is no node of the list. -/
inductive RegionMove (s : RegionState ℓ) : RegionCall ℓ → RegionState ℓ → Prop
  | obtain {heap : RgHeap ℓ} {fuel : ℕ} {vmaid : Int} {size : BitVec 32} {newrg : ℓ} {got : VmRg}
      {next : Option ℓ} (positive : 0 < size.toInt) (fresh : ¬s.heap.Listed newrg)
      (called : s.heap.getFreeVmrgArea fuel vmaid size newrg = some (heap, 0))
      (region : heap.nodes newrg = some ⟨got, next⟩) :
      RegionMove s (.get size newrg) ⟨heap, got :: s.obtained⟩
  | fail {heap : RgHeap ℓ} {fuel : ℕ} {vmaid status : Int} {size : BitVec 32} {newrg : ℓ}
      (positive : 0 < size.toInt) (fresh : ¬s.heap.Listed newrg) (failed : status ≠ 0)
      (called : s.heap.getFreeVmrgArea fuel vmaid size newrg = some (heap, status)) :
      RegionMove s (.get size newrg) ⟨heap, s.obtained⟩
  | put {heap : RgHeap ℓ} {status : Int} {rg : VmRg} {rgElmt : ℓ} {next : Option ℓ}
      (out : rg ∈ s.obtained) (fresh : ¬s.heap.Listed rgElmt)
      (here : s.heap.nodes rgElmt = some ⟨rg, next⟩)
      (called : s.heap.enlistVmFreergList rgElmt = some (heap, status)) :
      RegionMove s (.put rgElmt) ⟨heap, s.obtained.erase rg⟩
  | caller {nodes : ℓ → Option (Node ℓ VmRg)} (kept : ∀ p, s.heap.Listed p → nodes p = s.heap.nodes p) :
      RegionMove s .caller ⟨{ s.heap with nodes }, s.obtained⟩

/-- The list has these cells, and with the regions that are out they cover what the original list covers. -/
structure Bookkept (original : List VmRg) (s : RegionState ℓ) (cells : List (ℓ × VmRg)) : Prop where
  chain : Chain s.heap.nodes s.heap.vmFreergList cells
  ordered : ∀ cell ∈ cells, cell.2.Ordered
  out : ∀ rg ∈ s.obtained, rg.Ordered ∧ rg.rgStart < rg.rgEnd
  busy : s.obtained ≠ [] → cells ≠ []
  covers : ∀ addr, covers (cells.map Prod.snd ++ s.obtained) addr = covers original addr

variable {s t : RegionState ℓ} {original : List VmRg} {cells : List (ℓ × VmRg)} {label : RegionCall ℓ}
  {size : BitVec 32} {p : ℓ}

omit [DecidableEq ℓ] in
private theorem listed_iff {h : RgHeap ℓ} (chain : Chain h.nodes h.vmFreergList cells) :
    h.Listed p ↔ p ∈ cells.map Prod.fst := by
  constructor
  · rintro ⟨cells', chain', member⟩
    rwa [chain.unique chain']
  · exact fun member => ⟨cells, chain, member⟩

private theorem signExtend_toNat (positive : 0 < size.toInt) :
    (size.signExtend 64).toNat = size.toNat ∧ size.toNat < 2 ^ 31 ∧ 0 < size.toNat := by
  have bound := size.isLt
  rw [BitVec.toInt_eq_toNat_cond] at positive
  have plain : size.msb = false := by
    rw [BitVec.msb_eq_decide]
    simp
    omega
  rw [BitVec.signExtend_eq_setWidth_of_msb_false plain, BitVec.toNat_setWidth]
  omega

namespace Bookkept

omit [DecidableEq ℓ] in
theorem initial (none : s.obtained = []) (chain : Chain s.heap.nodes s.heap.vmFreergList cells)
    (ordered : ∀ cell ∈ cells, cell.2.Ordered) : Bookkept (cells.map Prod.snd) s cells :=
  ⟨chain, ordered, by simp [none], by simp [none], by simp [none]⟩

omit [DecidableEq ℓ] in
/-- Other memory than the nodes of the list changes. -/
theorem congr (kept : Bookkept original s cells) {heap : RgHeap ℓ}
    (list : heap.vmFreergList = s.heap.vmFreergList)
    (nodes : ∀ p ∈ cells.map Prod.fst, heap.nodes p = s.heap.nodes p) :
    Bookkept original ⟨heap, s.obtained⟩ cells :=
  ⟨list ▸ kept.chain.congr nodes, kept.ordered, kept.out, kept.busy, kept.covers⟩

omit [DecidableEq ℓ] in
/-- A region is taken from the cells. -/
private theorem take (kept : Bookkept original s cells) (positive : 0 < size.toInt) {heap : RgHeap ℓ} {newrg : ℓ}
    {got : VmRg} {left : List (ℓ × VmRg)} (gives : s.heap.Gives s.heap.vmFreergList cells newrg heap got left)
    (carved : Carved size.toNat cells got left) : Bookkept original ⟨heap, got :: s.obtained⟩ left where
  chain := gives.list ▸ gives.chain
  ordered := carved.left_ordered
  out rg member := by
    obtain rfl | before := List.mem_cons.mp member
    · obtain ⟨before, found, after, -, -, -, start, stop⟩ := carved.fit
      have positive := (signExtend_toNat positive).2.2
      refine ⟨carved.got_ordered, ?_⟩
      rw [BitVec.lt_def, stop, start]
      omega
    · exact kept.out rg before
  busy _ := carved.nonempty
  covers addr := by
    have taken := carved.same_bytes addr
    have before := kept.covers addr
    simp only [Model.covers, List.countP_append, List.countP_cons] at taken before ⊢
    omega

omit [DecidableEq ℓ] in
/-- A region that is out goes to the front of the list. -/
private theorem giveBack (kept : Bookkept original s cells) {heap : RgHeap ℓ} {rg : VmRg} (out : rg ∈ s.obtained)
    (chain : Chain heap.nodes heap.vmFreergList ((p, rg) :: cells)) :
    Bookkept original ⟨heap, s.obtained.erase rg⟩ ((p, rg) :: cells) where
  chain := chain
  ordered cell member := by
    obtain rfl | before := List.mem_cons.mp member
    · exact (kept.out rg out).1
    · exact kept.ordered cell before
  out other member := kept.out other (List.mem_of_mem_erase member)
  busy _ := List.cons_ne_nil _ _
  covers addr := by
    have moved := (List.perm_cons_erase out).countP_eq fun region => region.Contains addr
    have before := kept.covers addr
    simp only [Model.covers, List.map_cons, List.countP_append, List.countP_cons] at moved before ⊢
    omega

theorem step (kept : Bookkept original s cells) (moved : RegionMove s label t) :
    ∃ cells, Bookkept original t cells := by
  cases moved with
  | obtain positive fresh called region =>
    rw [listed_iff kept.chain] at fresh
    obtain ⟨-, got, left, result, gives⟩ | ⟨failed, -⟩ := RgHeap.getFreeVmrgArea_cases kept.chain fresh called
    · obtain ⟨value, small, some_bytes⟩ := signExtend_toNat positive
      obtain ⟨next, there⟩ := gives.region
      cases region.symm.trans there
      have carved := carved_cases kept.ordered (value ▸ small) (value ▸ some_bytes)
      rw [result, value] at carved
      exact ⟨left, kept.take positive gives carved⟩
    · cases failed
  | fail positive fresh failed called =>
    rw [listed_iff kept.chain] at fresh
    obtain ⟨done, -⟩ | ⟨-, list, nodes⟩ := RgHeap.getFreeVmrgArea_cases kept.chain fresh called
    · exact absurd done failed
    · exact ⟨cells, kept.congr list fun p member => nodes p (ne_of_mem_of_not_mem member fresh)⟩
  | @put _ _ rg rgElmt next out fresh here called =>
    rw [listed_iff kept.chain] at fresh
    obtain ⟨heap, returned, chain, -⟩ := RgHeap.enlistVmFreergList_some kept.chain
      (kept.busy (List.ne_nil_of_mem out)) fresh here (kept.out rg out).2
    cases called.symm.trans returned
    exact ⟨_, kept.giveBack out chain⟩
  | caller nodes =>
    exact ⟨cells, kept.congr rfl fun p member => nodes p ((listed_iff kept.chain).mpr member)⟩

theorem run {labels : List (RegionCall ℓ)} (kept : Bookkept original s cells)
    (run : Run RegionMove s labels t) : ∃ cells, Bookkept original t cells := by
  induction run with
  | start => exact ⟨cells, kept⟩
  | next _ moved ih =>
    obtain ⟨now, kept⟩ := ih
    exact kept.step moved

end Bookkept

/-- The call gives a region of exactly `size` bytes that were all free, from the front of the first region
that is large enough; or every region is too small, the call returns -1 and leaves the list as it was. -/
def RgHeap.GetSpec (h : RgHeap ℓ) (cells : List (ℓ × VmRg)) (fuel : ℕ) (vmaid : Int) (size : BitVec 32)
    (newrg : ℓ) : Prop :=
  (∃ h' got next, h.getFreeVmrgArea fuel vmaid size newrg = some (h', 0) ∧
    h'.nodes newrg = some ⟨got, next⟩ ∧ got.bytes = size.toNat ∧
    (∀ addr, got.Contains addr → ∃ rg ∈ cells.map Prod.snd, rg.Contains addr) ∧
    FirstFit size.toNat (cells.map Prod.snd) got) ∨
  ((∀ cell ∈ cells, cell.2.bytes < size.toNat) ∧ ∃ h', h.getFreeVmrgArea fuel vmaid size newrg = some (h', -1) ∧
    Chain h'.nodes h'.vmFreergList cells)

private theorem FirstFit.bytes {n : ℕ} {free : List VmRg} {got : VmRg} (fit : FirstFit n free got) :
    got.bytes = n ∧ ∀ addr, got.Contains addr → ∃ rg ∈ free, rg.Contains addr := by
  obtain ⟨before, found, after, rfl, -, fits, start, stop⟩ := fit
  constructor
  · rw [VmRg.bytes, stop, start]
    omega
  · rintro addr ⟨low, high⟩
    rw [start] at low
    rw [VmRg.bytes] at fits
    exact ⟨found, by simp, low, by omega⟩

private theorem Bookkept.get (kept : Bookkept original s cells) {fuel : ℕ} {vmaid : Int} {newrg : ℓ}
    {node : Node ℓ VmRg} (enough : cells.length < fuel) (area : vmaid ≤ 0) (positive : 0 < size.toInt)
    (fresh : newrg ∉ cells.map Prod.fst) (allocated : s.heap.nodes newrg = some node) :
    s.heap.GetSpec cells fuel vmaid size newrg := by
  obtain ⟨value, small, some_bytes⟩ := signExtend_toNat positive
  have gives := RgHeap.getFreeVmrgArea_gives kept.chain fresh allocated area size enough
  have carved := carved_cases kept.ordered (value ▸ small) (value ▸ some_bytes)
  cases result : Model.carved (size.signExtend 64) cells with
  | none =>
    rw [result] at gives carved
    obtain ⟨h', returned, list, nodes⟩ := gives
    refine .inr ⟨value ▸ carved, h', returned, ?_⟩
    exact list ▸ kept.chain.congr fun p member => nodes p (ne_of_mem_of_not_mem member fresh)
  | some given =>
    rw [result] at gives carved
    obtain ⟨h', returned, gives⟩ := gives
    obtain ⟨next, there⟩ := gives.region
    rw [value] at carved
    obtain ⟨bytes, free⟩ := carved.fit.bytes
    exact .inl ⟨h', _, next, returned, there, bytes, free, carved.fit⟩

/-- From a list of disjoint free regions, in every state of every run: the regions of the list and those
that are out are disjoint and together cover the original bytes, every call of `get_free_vmrg_area` with
enough fuel returns as it should, and every region that is out can be put in front of the list. -/
theorem free_regions_bookkept (chain : Chain s.heap.nodes s.heap.vmFreergList cells)
    (disjoint : (cells.map Prod.snd).Pairwise (Apart VmRg.Contains))
    (ordered : ∀ cell ∈ cells, cell.2.Ordered) (none : s.obtained = []) {labels : List (RegionCall ℓ)}
    (run : Run RegionMove s labels t) :
    ∃ free, Chain t.heap.nodes t.heap.vmFreergList free ∧
      (free.map Prod.snd ++ t.obtained).Pairwise (Apart VmRg.Contains) ∧
      (∀ addr, (∃ rg ∈ free.map Prod.snd ++ t.obtained, rg.Contains addr) ↔
        ∃ rg ∈ cells.map Prod.snd, rg.Contains addr) ∧
      (∀ fuel vmaid size newrg node, free.length < fuel → vmaid ≤ 0 → 0 < size.toInt →
        newrg ∉ free.map Prod.fst → t.heap.nodes newrg = some node →
          t.heap.GetSpec free fuel vmaid size newrg) ∧
      ∀ rg ∈ t.obtained, ∀ p next, p ∉ free.map Prod.fst → t.heap.nodes p = some ⟨rg, next⟩ →
        ∃ heap, t.heap.enlistVmFreergList p = some (heap, 0) ∧
          Chain heap.nodes heap.vmFreergList ((p, rg) :: free) := by
  obtain ⟨free, kept⟩ := (Bookkept.initial none chain ordered).run run
  refine ⟨free, kept.chain, ?_, ?_, ?_, ?_⟩
  · rw [pairwise_apart_iff] at disjoint ⊢
    intro addr
    exact (kept.covers addr).trans_le (disjoint addr)
  · intro addr
    rw [exists_contains_iff, exists_contains_iff]
    exact iff_of_eq (congrArg (0 < ·) (kept.covers addr))
  · intro fuel vmaid size newrg node enough area positive fresh allocated
    exact kept.get enough area positive fresh allocated
  · intro rg out p next fresh here
    obtain ⟨heap, returned, listed, -⟩ := RgHeap.enlistVmFreergList_some kept.chain
      (kept.busy (List.ne_nil_of_mem out)) fresh here (kept.out rg out).2
    exact ⟨heap, returned, listed⟩

/-- Two regions of 16 bytes in the nodes 0 and 1; node 2 is free for a call. -/
def twoRegions : RegionState (Fin 3) where
  heap :=
    { nodes p := some (if p = 0 then ⟨⟨0x1000, 0x1010⟩, some 1⟩
        else if p = 1 then ⟨⟨0x2000, 0x2010⟩, none⟩ else ⟨⟨0, 0⟩, none⟩)
      vmFreergList := some 0 }
  obtained := []

private theorem twoRegions_chain :
    Chain twoRegions.heap.nodes twoRegions.heap.vmFreergList [(0, ⟨0x1000, 0x1010⟩), (1, ⟨0x2000, 0x2010⟩)] := by
  have first : twoRegions.heap.nodes 0 = some ⟨⟨0x1000, 0x1010⟩, some 1⟩ := rfl
  have second : twoRegions.heap.nodes 1 = some ⟨⟨0x2000, 0x2010⟩, none⟩ := rfl
  exact .cons first (.cons second .nil)

/-- The first region is used up, and its node takes over the second one. -/
theorem free_regions_bookkept_take_over : ∃ t : RegionState (Fin 3),
    Run RegionMove twoRegions [.get 16 2] t ∧ t.obtained = [⟨0x1000, 0x1010⟩] ∧
    ∃ free, Chain t.heap.nodes t.heap.vmFreergList free ∧
      (free.map Prod.snd ++ t.obtained).Pairwise (Apart VmRg.Contains) := by
  have chain := twoRegions_chain
  have fresh : ¬twoRegions.heap.Listed 2 := by
    rw [listed_iff chain]
    decide
  have moved : RegionMove twoRegions (.get 16 2) _ :=
    @RegionMove.obtain _ _ twoRegions _ 3 0 16 2 ⟨0x1000, 0x1010⟩ none (by decide) fresh rfl rfl
  refine ⟨_, .one moved, rfl, ?_⟩
  have disjoint : ([⟨0x1000, 0x1010⟩, ⟨0x2000, 0x2010⟩] : List VmRg).Pairwise (Apart VmRg.Contains) := by
    rw [List.pairwise_pair]
    rintro addr ⟨⟨-, below⟩, ⟨above, -⟩⟩
    simp at below above
    omega
  have ordered : ∀ cell ∈ [((0 : Fin 3), (⟨0x1000, 0x1010⟩ : VmRg)), (1, ⟨0x2000, 0x2010⟩)], cell.2.Ordered := by
    simp [VmRg.Ordered]
  obtain ⟨free, listed, apart, -⟩ := free_regions_bookkept chain disjoint ordered rfl (.one moved)
  exact ⟨free, listed, apart⟩

end SimpleOS.Model
