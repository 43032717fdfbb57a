import SimpleOS.Lib.Chain
import SimpleOS.Model.Mm

/-! # Taking and returning free regions

`get_free_vmrg_area` and `enlist_vm_freerg_list` of `libmem.c`, on the nodes of `vm_freerg_list` in the heap.
No other function of the repository calls them. A function has no result when it follows a pointer to memory
that is not allocated, and when the list is longer than its fuel.
-/

namespace SimpleOS.Model

open Lib

/-- The allocated `vm_rg_struct`s and the head of the list. A node links to the next one by `rg_next`. -/
structure RgHeap (ℓ : Type) where
  nodes : ℓ → Option (Node ℓ VmRg)
  vmFreergList : Option ℓ

namespace RgHeap

variable {ℓ : Type} [DecidableEq ℓ]

/-- Assign all fields of a node. -/
def store (h : RgHeap ℓ) (p : ℓ) (node : Node ℓ VmRg) : RgHeap ℓ :=
  { h with nodes := Function.update h.nodes p (some node) }

/-- Assign `rg_start` and `rg_end`. -/
def setRegion (h : RgHeap ℓ) (p : ℓ) (rg : VmRg) : Option (RgHeap ℓ) := do
  let node ← h.nodes p
  return h.store p { node with data := rg }

/-- `free`. -/
def release (h : RgHeap ℓ) (p : ℓ) : RgHeap ℓ := { h with nodes := Function.update h.nodes p none }

/-- `enlist_vm_freerg_list`. In front of an empty list `rg_next` stays as it is. -/
def enlistVmFreergList (h : RgHeap ℓ) (rgElmt : ℓ) : Option (RgHeap ℓ × Int) := do
  let node ← h.nodes rgElmt
  if node.data.rgEnd ≤ node.data.rgStart then return (h, -1)
  let next := if h.vmFreergList.isSome then h.vmFreergList else node.next
  return ({ h.store rgElmt { node with next } with vmFreergList := some rgElmt }, 0)

/-- The region is handed out from the start of the node `rgit`. A node that is used up takes over its
successor, or stays behind empty. -/
def carve (h : RgHeap ℓ) (size : Addr) (newrg rgit : ℓ) : Option (RgHeap ℓ) := do
  let found ← h.nodes rgit
  let h ← h.setRegion newrg ⟨found.data.rgStart, found.data.rgStart + size⟩
  let node ← h.nodes rgit
  if node.data.rgStart + size < node.data.rgEnd then
    h.setRegion rgit { node.data with rgStart := node.data.rgStart + size }
  else
    match node.next with
    | some nextrg => do
      let next ← h.nodes nextrg
      return (h.store rgit next).release nextrg
    | none => return h.store rgit ⟨⟨node.data.rgEnd, node.data.rgEnd⟩, none⟩

/-- The loop of `get_free_vmrg_area`, with fuel for the nodes it visits. -/
def searchFree (h : RgHeap ℓ) (size : Addr) (newrg : ℓ) : ℕ → Option ℓ → Option (RgHeap ℓ × Int)
  | 0, _ => none
  | _ + 1, none => some (h, -1)
  | fuel + 1, some rgit => do
    let node ← h.nodes rgit
    if node.data.rgStart + size ≤ node.data.rgEnd then return (← h.carve size newrg rgit, 0)
    h.searchFree size newrg fuel node.next

/-- `get_free_vmrg_area`. There is one area, and `get_vma_by_num` finds none behind it. -/
def getFreeVmrgArea (h : RgHeap ℓ) (fuel : ℕ) (vmaid : Int) (size : BitVec 32) (newrg : ℓ) :
    Option (RgHeap ℓ × Int) :=
  if 0 < vmaid then some (h, -1)
  else if h.vmFreergList.isNone then some (h, -1)
  else do
    let h ← h.setRegion newrg ⟨-1, -1⟩
    h.searchFree (size.signExtend 64) newrg fuel h.vmFreergList

end RgHeap

end SimpleOS.Model
