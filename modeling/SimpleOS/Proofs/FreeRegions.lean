import SimpleOS.Lib.Cover
import SimpleOS.Model.FreeRegions
import SimpleOS.Proofs.Regions

/-! # The list that the nodes stand for

On a chain of nodes `get_free_vmrg_area` does what `carved` does to the cells: the first node that is large
enough gives the region, and the three ways to update it are three ways to write the rest of the list. What
it hands out and what it leaves cover every byte as often as the list did before.
-/

namespace SimpleOS.Model

open Lib

variable {ℓ : Type}

/-- The cell at `p` is used up: it takes over the next cell, or stays behind empty. -/
def takeOver (p : ℓ) (rg : VmRg) : List (ℓ × VmRg) → List (ℓ × VmRg)
  | [] => [(p, ⟨rg.rgEnd, rg.rgEnd⟩)]
  | (_, next) :: rest => (p, next) :: rest

/-- The region taken from the first cell that is large enough, and the cells that are left. -/
def carved (size : Addr) : List (ℓ × VmRg) → Option (VmRg × List (ℓ × VmRg))
  | [] => none
  | (p, rg) :: rest =>
    if rg.rgStart + size ≤ rg.rgEnd then
      let left :=
        if rg.rgStart + size < rg.rgEnd then (p, ⟨rg.rgStart + size, rg.rgEnd⟩) :: rest
        else takeOver p rg rest
      some (⟨rg.rgStart, rg.rgStart + size⟩, left)
    else (carved size rest).map fun (got, left) => (got, (p, rg) :: left)

namespace RgHeap

variable [DecidableEq ℓ] {h h' : RgHeap ℓ} {size : Addr} {newrg p : ℓ} {cells left : List (ℓ × VmRg)}
  {got rg : VmRg} {node : Node ℓ VmRg} {head : Option ℓ}

/-- The region at `newrg` was taken from the cells, and no other memory changed. -/
structure Gives (h : RgHeap ℓ) (head : Option ℓ) (cells : List (ℓ × VmRg)) (newrg : ℓ) (h' : RgHeap ℓ)
    (got : VmRg) (left : List (ℓ × VmRg)) : Prop where
  list : h'.vmFreergList = h.vmFreergList
  chain : Chain h'.nodes head left
  region : ∃ next, h'.nodes newrg = some ⟨got, next⟩
  others : ∀ p, p ≠ newrg → p ∉ cells.map Prod.fst → h'.nodes p = h.nodes p

private theorem setRegion_some (here : h.nodes p = some node) (rg : VmRg) :
    h.setRegion p rg = some (h.store p { node with data := rg }) := by
  simp [setRegion, here]

/-- What happens at the node that is large enough. -/
private theorem carve_gives (size : Addr) (chain : Chain h.nodes (some p) ((p, rg) :: cells))
    (fresh : newrg ∉ ((p, rg) :: cells).map Prod.fst) (allocated : h.nodes newrg = some node) :
    ∃ h', h.carve size newrg p = some h' ∧
      h.Gives (some p) ((p, rg) :: cells) newrg h' ⟨rg.rgStart, rg.rgStart + size⟩
        (if rg.rgStart + size < rg.rgEnd then (p, ⟨rg.rgStart + size, rg.rgEnd⟩) :: cells
          else takeOver p rg cells) := by
  have alone := chain.nodup
  simp only [List.map_cons, List.nodup_cons] at alone
  simp only [List.map_cons, List.mem_cons, not_or] at fresh
  obtain ⟨other, outside⟩ := fresh
  cases chain with
  | @cons _ found _ here tail =>
    obtain ⟨⟨first, last⟩, next⟩ := found
    -- The node is read again after the write to `newrg`, which is another one.
    let handed := h.store newrg { node with data := ⟨first, first + size⟩ }
    have reread : handed.nodes p = some ⟨⟨first, last⟩, next⟩ := by
      simp only [handed, store, Function.update_of_ne (Ne.symm other), here]
    have written : h.setRegion newrg ⟨first, first + size⟩ = some handed := setRegion_some allocated _
    have behind : Chain handed.nodes next cells := tail.set outside _
    by_cases large : first + size < last
    · let shrunk := handed.store p ⟨⟨first + size, last⟩, next⟩
      have cut : handed.setRegion p ⟨first + size, last⟩ = some shrunk := setRegion_some reread _
      have here' : shrunk.nodes p = some ⟨⟨first + size, last⟩, next⟩ := Function.update_self ..
      refine ⟨shrunk, ?_, rfl, ?_, ?_, ?_⟩
      · simp only [carve, here, written, reread, Option.bind_eq_bind, Option.bind_some, if_pos large, cut]
      · rw [if_pos large]
        exact .cons here' (behind.set alone.1 _)
      · exact ⟨node.next, by simp [shrunk, handed, store, other]⟩
      · intro q apart elsewhere
        simp only [List.map_cons, List.mem_cons, not_or] at elsewhere
        simp [shrunk, handed, store, apart, elsewhere.1]
    · rw [if_neg large]
      cases behind with
      | nil =>
        let emptied := handed.store p ⟨⟨last, last⟩, none⟩
        have here' : emptied.nodes p = some ⟨⟨last, last⟩, none⟩ := Function.update_self ..
        refine ⟨emptied, ?_, rfl, ?_, ?_, ?_⟩
        · simp only [carve, here, written, reread, Option.bind_eq_bind, Option.bind_some, if_neg large]
          rfl
        · exact .cons here' .nil
        · exact ⟨node.next, by simp [emptied, handed, store, other]⟩
        · intro q apart elsewhere
          simp only [List.map_cons, List.mem_cons, not_or] at elsewhere
          simp [emptied, handed, store, apart, elsewhere.1]
      | @cons nextrg successor rest there beyond =>
        simp only [List.map_cons, List.mem_cons, not_or, List.nodup_cons] at alone outside
        obtain ⟨⟨ahead, clear⟩, once, -⟩ := alone
        refine ⟨(handed.store p successor).release nextrg, ?_, rfl, ?_, ?_, ?_⟩
        · simp only [carve, here, written, reread, Option.bind_eq_bind, Option.bind_some, if_neg large, there]
          rfl
        · have moved := (beyond.set clear (some successor)).set once none
          refine .cons ?_ moved
          simp [release, store, Function.update_of_ne ahead]
        · exact ⟨node.next, by simp [handed, store, release, other, outside.1]⟩
        · intro q apart elsewhere
          simp only [List.map_cons, List.mem_cons, not_or] at elsewhere
          simp [handed, store, release, apart, elsewhere.1, elsewhere.2.1]

/-- The loop takes the region from the first node that is large enough. -/
private theorem searchFree_gives (size : Addr) (chain : Chain h.nodes head cells) (fresh : newrg ∉ cells.map Prod.fst)
    (allocated : h.nodes newrg = some node) {fuel : ℕ} (enough : cells.length < fuel) :
    match carved size cells with
    | none => h.searchFree size newrg fuel head = some (h, -1)
    | some (got, left) => ∃ h', h.searchFree size newrg fuel head = some (h', 0) ∧
        h.Gives head cells newrg h' got left := by
  induction chain generalizing fuel with
  | nil =>
    obtain ⟨fuel, rfl⟩ := Nat.exists_eq_succ_of_ne_zero (Nat.ne_of_gt enough)
    rfl
  | @cons p found rest here tail ih =>
    obtain ⟨fuel, rfl⟩ := Nat.exists_eq_succ_of_ne_zero (Nat.ne_of_gt (Nat.lt_of_le_of_lt (Nat.zero_le _) enough))
    have alone := (Chain.cons here tail).nodup
    simp only [List.map_cons, List.nodup_cons] at alone
    by_cases large : found.data.rgStart + size ≤ found.data.rgEnd
    · obtain ⟨h', done, gives⟩ := carve_gives size (.cons here tail) fresh allocated
      simp only [carved, if_pos large]
      refine ⟨h', ?_, gives⟩
      simp [searchFree, here, large, done]
    · simp only [List.map_cons, List.mem_cons, not_or] at fresh
      have later := ih fresh.2 (Nat.lt_of_succ_lt_succ enough)
      have step : h.searchFree size newrg (fuel + 1) (some p) = h.searchFree size newrg fuel found.next := by
        simp [searchFree, here, large]
      simp only [carved, if_neg large, Nat.succ_eq_add_one, step]
      cases searched : carved size rest with
      | none =>
        rw [searched] at later
        exact later
      | some result =>
        rw [searched] at later
        obtain ⟨h', done, gives⟩ := later
        refine ⟨h', done, gives.list, ?_, gives.region, ?_⟩
        · exact .cons ((gives.others p (Ne.symm fresh.1) alone.1).trans here) gives.chain
        · intro q apart elsewhere
          simp only [List.map_cons, List.mem_cons, not_or] at elsewhere
          exact gives.others q apart elsewhere.2

/-- `get_free_vmrg_area` on the area of the process. A failing call leaves the nodes of the list alone. -/
theorem getFreeVmrgArea_gives (chain : Chain h.nodes h.vmFreergList cells) (fresh : newrg ∉ cells.map Prod.fst)
    (allocated : h.nodes newrg = some node) {vmaid : Int} (area : vmaid ≤ 0) (bytes : BitVec 32) {fuel : ℕ}
    (enough : cells.length < fuel) :
    match carved (bytes.signExtend 64) cells with
    | none => ∃ h', h.getFreeVmrgArea fuel vmaid bytes newrg = some (h', -1) ∧
        h'.vmFreergList = h.vmFreergList ∧ ∀ p, p ≠ newrg → h'.nodes p = h.nodes p
    | some (got, left) => ∃ h', h.getFreeVmrgArea fuel vmaid bytes newrg = some (h', 0) ∧
        h.Gives h.vmFreergList cells newrg h' got left := by
  have present : ¬0 < vmaid := by omega
  cases first : h.vmFreergList with
  | none =>
    rw [first] at chain
    obtain rfl := Chain.nil_iff.mp chain
    exact ⟨h, by simp [getFreeVmrgArea, present, first], first, fun _ _ => rfl⟩
  | some rgit =>
    let unset := h.store newrg { node with data := ⟨-1, -1⟩ }
    have written : h.setRegion newrg ⟨-1, -1⟩ = some unset := setRegion_some allocated _
    have kept : Chain unset.nodes (some rgit) cells := first ▸ chain.set fresh _
    have there : unset.nodes newrg = some { node with data := ⟨-1, -1⟩ } := Function.update_self ..
    have elsewhere : ∀ p, p ≠ newrg → unset.nodes p = h.nodes p := fun p apart =>
      Function.update_of_ne apart _ _
    have called : h.getFreeVmrgArea fuel vmaid bytes newrg =
        unset.searchFree (bytes.signExtend 64) newrg fuel (some rgit) := by
      have same : unset.vmFreergList = some rgit := first
      simp only [getFreeVmrgArea, if_neg present, first, Option.isNone_some, Bool.false_eq_true, if_false,
        written, Option.bind_eq_bind, Option.bind_some, same]
    have searched := searchFree_gives (bytes.signExtend 64) kept fresh there enough
    rw [called]
    cases result : carved (bytes.signExtend 64) cells with
    | none =>
      rw [result] at searched
      exact ⟨unset, searched, first, elsewhere⟩
    | some given =>
      rw [result] at searched
      obtain ⟨h', done, gives⟩ := searched
      refine ⟨h', done, gives.list, gives.chain, gives.region, ?_⟩
      intro p apart outside
      rw [gives.others p apart outside, elsewhere p apart]

/-- More fuel gives the same result. -/
private theorem searchFree_mono {fuel more : ℕ} {result : RgHeap ℓ × Int}
    (found : h.searchFree size newrg fuel head = some result) (enough : fuel ≤ more) :
    h.searchFree size newrg more head = some result := by
  induction fuel generalizing more head with
  | zero => cases found
  | succ fuel ih =>
    obtain ⟨more, rfl⟩ := Nat.exists_eq_succ_of_ne_zero (Nat.ne_of_gt (Nat.lt_of_lt_of_le (Nat.succ_pos _) enough))
    cases head with
    | none => exact found
    | some rgit =>
      simp only [searchFree, Option.bind_eq_bind, Option.bind_eq_some_iff] at found ⊢
      obtain ⟨node, here, found⟩ := found
      refine ⟨node, here, ?_⟩
      split at found
      · rw [if_pos ‹_›]
        exact found
      · rw [if_neg ‹_›]
        exact ih found (Nat.le_of_succ_le_succ enough)

private theorem getFreeVmrgArea_mono {fuel more : ℕ} {vmaid : Int} {bytes : BitVec 32} {result : RgHeap ℓ × Int}
    (found : h.getFreeVmrgArea fuel vmaid bytes newrg = some result) (enough : fuel ≤ more) :
    h.getFreeVmrgArea more vmaid bytes newrg = some result := by
  simp only [getFreeVmrgArea] at found ⊢
  split_ifs at found ⊢
  · exact found
  · exact found
  · obtain ⟨unset, written, found⟩ := Option.bind_eq_some_iff.mp found
    exact Option.bind_eq_some_iff.mpr ⟨unset, written, searchFree_mono found enough⟩

/-- Every call that returns gives a region from the cells and 0, or changes no node but `newrg`. -/
theorem getFreeVmrgArea_cases (chain : Chain h.nodes h.vmFreergList cells)
    (fresh : newrg ∉ cells.map Prod.fst) {fuel : ℕ} {vmaid status : Int} {bytes : BitVec 32}
    (called : h.getFreeVmrgArea fuel vmaid bytes newrg = some (h', status)) :
    (status = 0 ∧ ∃ got left, carved (bytes.signExtend 64) cells = some (got, left) ∧
      h.Gives h.vmFreergList cells newrg h' got left) ∨
    (status = -1 ∧ h'.vmFreergList = h.vmFreergList ∧ ∀ p, p ≠ newrg → h'.nodes p = h.nodes p) := by
  by_cases area : vmaid ≤ 0
  · cases here : h.nodes newrg with
    | none =>
      have refused : h.setRegion newrg ⟨-1, -1⟩ = none := by rw [setRegion, here]; rfl
      simp only [getFreeVmrgArea, refused] at called
      split_ifs at called
      · omega
      · cases called
        exact .inr ⟨rfl, rfl, fun _ _ => rfl⟩
      · cases called
    | some node =>
      have known := getFreeVmrgArea_mono called (Nat.le_max_left fuel (cells.length + 1))
      have gives := getFreeVmrgArea_gives chain fresh here area bytes
        (Nat.lt_of_lt_of_le (Nat.lt_succ_self _) (Nat.le_max_right fuel (cells.length + 1)))
      cases result : carved (bytes.signExtend 64) cells with
      | none =>
        rw [result] at gives
        obtain ⟨_, returned, kept⟩ := gives
        cases known.symm.trans returned
        exact .inr ⟨rfl, kept⟩
      | some given =>
        rw [result] at gives
        obtain ⟨_, returned, given'⟩ := gives
        cases known.symm.trans returned
        exact .inl ⟨rfl, _, _, rfl, given'⟩
  · simp only [getFreeVmrgArea, if_pos (Int.not_le.mp area)] at called
    cases called
    exact .inr ⟨rfl, rfl, fun _ _ => rfl⟩

/-- `enlist_vm_freerg_list` puts a region with a byte in front of a list that is not empty. -/
theorem enlistVmFreergList_some (chain : Chain h.nodes h.vmFreergList cells) (busy : cells ≠ [])
    (fresh : p ∉ cells.map Prod.fst) (here : h.nodes p = some ⟨rg, head⟩) (nonempty : rg.rgStart < rg.rgEnd) :
    ∃ h', h.enlistVmFreergList p = some (h', 0) ∧ Chain h'.nodes h'.vmFreergList ((p, rg) :: cells) ∧
      ∀ q, q ≠ p → h'.nodes q = h.nodes q := by
  have linked : h.vmFreergList.isSome = true := by
    cases first : h.vmFreergList with
    | none =>
      rw [first] at chain
      exact absurd (Chain.nil_iff.mp chain) busy
    | some _ => rfl
  refine ⟨{ h.store p ⟨rg, h.vmFreergList⟩ with vmFreergList := some p }, ?_, chain.push fresh rg, ?_⟩
  · simp [enlistVmFreergList, here, BitVec.not_le.mpr nonempty, linked]
  · intro q apart
    exact Function.update_of_ne apart _ _

end RgHeap

instance (rg : VmRg) (addr : ℕ) : Decidable (rg.Contains addr) := inferInstanceAs (Decidable (_ ∧ _))

/-- `rg_start <= rg_end <= 2^57`. -/
def VmRg.Ordered (rg : VmRg) : Prop := rg.rgStart.toNat ≤ rg.rgEnd.toNat ∧ rg.rgEnd.toNat ≤ 2 ^ 57

/-- The number of bytes of a region. -/
def VmRg.bytes (rg : VmRg) : ℕ := rg.rgEnd.toNat - rg.rgStart.toNat

/-- In how many regions of a list a byte lies. -/
def covers (l : List VmRg) (addr : ℕ) : ℕ := l.countP fun rg => rg.Contains addr

private theorem covers_cons (rg : VmRg) (l : List VmRg) (addr : ℕ) :
    covers (rg :: l) addr = covers l addr + if rg.Contains addr then 1 else 0 := by
  simp [covers, List.countP_cons]

/-- Cutting a region in two. -/
private theorem covers_cut {rg : VmRg} {mid : Addr} (below : rg.rgStart.toNat ≤ mid.toNat)
    (above : mid.toNat ≤ rg.rgEnd.toNat) (l : List VmRg) (addr : ℕ) :
    covers (⟨rg.rgStart, mid⟩ :: ⟨mid, rg.rgEnd⟩ :: l) addr = covers (rg :: l) addr := by
  simp only [covers_cons]
  split_ifs <;> simp only [VmRg.Contains] at * <;> omega

/-- The region is the front of the first region of the list that has enough bytes. -/
def FirstFit (size : ℕ) (free : List VmRg) (got : VmRg) : Prop :=
  ∃ before found after, free = before ++ found :: after ∧ (∀ rg ∈ before, rg.bytes < size) ∧
    size ≤ found.bytes ∧ got.rgStart = found.rgStart ∧ got.rgEnd.toNat = found.rgStart.toNat + size

/-- What taking a region from the cells amounts to. -/
structure Carved (size : ℕ) (cells : List (ℓ × VmRg)) (got : VmRg) (left : List (ℓ × VmRg)) : Prop where
  fit : FirstFit size (cells.map Prod.snd) got
  got_ordered : got.Ordered
  left_ordered : ∀ cell ∈ left, cell.2.Ordered
  nonempty : left ≠ []
  same_bytes : ∀ addr, covers (got :: left.map Prod.snd) addr = covers (cells.map Prod.snd) addr

variable {cells left : List (ℓ × VmRg)} {got rg : VmRg} {size : Addr} {p : ℓ}

private theorem VmRg.Ordered.end_toNat (ordered : rg.Ordered) (small : size.toNat < 2 ^ 31) :
    (rg.rgStart + size).toNat = rg.rgStart.toNat + size.toNat := by
  obtain ⟨below, bound⟩ := ordered
  rw [BitVec.toNat_add, Nat.mod_eq_of_lt (by omega)]

private theorem fits_iff (ordered : rg.Ordered) (small : size.toNat < 2 ^ 31) (positive : 0 < size.toNat) :
    rg.rgStart + size ≤ rg.rgEnd ↔ size.toNat ≤ rg.bytes := by
  have sum := ordered.end_toNat small
  obtain ⟨below, bound⟩ := ordered
  rw [BitVec.le_def, sum, VmRg.bytes]
  omega

/-- The first cell is large enough. -/
private theorem Carved.here (ordered : ∀ cell ∈ (p, rg) :: cells, cell.2.Ordered) (small : size.toNat < 2 ^ 31)
    (positive : 0 < size.toNat) (large : rg.rgStart + size ≤ rg.rgEnd) :
    Carved size.toNat ((p, rg) :: cells) ⟨rg.rgStart, rg.rgStart + size⟩
      (if rg.rgStart + size < rg.rgEnd then (p, ⟨rg.rgStart + size, rg.rgEnd⟩) :: cells
        else takeOver p rg cells) := by
  have first : rg.Ordered := ordered _ List.mem_cons_self
  have sum := first.end_toNat small
  have fits := (fits_iff first small positive).mp large
  rw [BitVec.le_def, sum] at large
  obtain ⟨below, bound⟩ := first
  refine ⟨⟨[], rg, _, rfl, by simp, fits, rfl, sum⟩, ?_, ?_, ?_, ?_⟩
  · simp only [VmRg.Ordered, sum]
    omega
  · intro cell member
    split at member
    · obtain rfl | later := List.mem_cons.mp member
      · exact ⟨by simp only [sum]; omega, bound⟩
      · exact ordered cell (List.mem_cons_of_mem _ later)
    · cases cells with
      | nil =>
        obtain rfl := List.mem_singleton.mp member
        exact ⟨le_refl _, bound⟩
      | cons next rest =>
        obtain rfl | later := List.mem_cons.mp member
        · exact ordered next (by simp)
        · exact ordered cell (by simp [later])
  · split
    · exact List.cons_ne_nil _ _
    · cases cells <;> exact List.cons_ne_nil _ _
  · intro addr
    split
    · rename_i more
      exact covers_cut (by omega) (by omega) _ _
    · rename_i exact_fit
      rw [BitVec.lt_def, sum] at exact_fit
      have same : (⟨rg.rgStart, rg.rgStart + size⟩ : VmRg) = rg := by
        have ends : rg.rgStart + size = rg.rgEnd := BitVec.eq_of_toNat_eq (by omega)
        rw [ends]
      rw [same, List.map_cons, covers_cons, covers_cons]
      cases cells with
      | nil =>
        have vacant : ¬VmRg.Contains ⟨rg.rgEnd, rg.rgEnd⟩ addr := by
          rintro ⟨low, high⟩
          exact Nat.not_lt.mpr low high
        simp [takeOver, covers_cons, vacant]
      | cons next rest => rfl

/-- The first cell is too small. -/
private theorem Carved.later (carved : Carved size.toNat cells got left) (first : rg.Ordered)
    (few : rg.bytes < size.toNat) : Carved size.toNat ((p, rg) :: cells) got ((p, rg) :: left) := by
  obtain ⟨before, found, after, split, small, fits, start, stop⟩ := carved.fit
  refine ⟨⟨rg :: before, found, after, ?_, ?_, fits, start, stop⟩, carved.got_ordered, ?_, ?_, ?_⟩
  · rw [List.map_cons, split, List.cons_append]
  · intro other member
    obtain rfl | later := List.mem_cons.mp member
    · exact few
    · exact small other later
  · intro cell member
    obtain rfl | later := List.mem_cons.mp member
    · exact first
    · exact carved.left_ordered cell later
  · exact List.cons_ne_nil _ _
  · intro addr
    have rest := carved.same_bytes addr
    simp only [List.map_cons, covers_cons] at rest ⊢
    omega

/-- What `carved` gives, and that it gives nothing only if every region is too small. -/
theorem carved_cases (ordered : ∀ cell ∈ cells, cell.2.Ordered) (small : size.toNat < 2 ^ 31)
    (positive : 0 < size.toNat) :
    match carved size cells with
    | none => ∀ cell ∈ cells, cell.2.bytes < size.toNat
    | some (got, left) => Carved size.toNat cells got left := by
  induction cells with
  | nil => simp [carved]
  | cons cell rest ih =>
    obtain ⟨p, rg⟩ := cell
    have first : rg.Ordered := ordered _ List.mem_cons_self
    have fits := fits_iff first small positive
    by_cases large : rg.rgStart + size ≤ rg.rgEnd
    · simp only [carved, if_pos large]
      exact .here ordered small positive large
    · have few : rg.bytes < size.toNat := Nat.lt_of_not_le fun enough => large (fits.mpr enough)
      have searched := ih fun cell later => ordered cell (List.mem_cons_of_mem _ later)
      simp only [carved, if_neg large]
      cases result : carved size rest with
      | none =>
        rw [result] at searched
        simpa [few] using searched
      | some given =>
        rw [result] at searched
        exact searched.later first few

end SimpleOS.Model
