import SimpleOS.Lib.Scan
import SimpleOS.Model.Mm

/-! # Loading a process file

`load` of `loader.c`. The text is read with `fscanf`, whose results are not checked: an argument that a line
does not give, and the size when the header is not a pair of numbers, stay as `malloc` left them. At the end
of the file the buffer `opcode` keeps its last word, and `buf` its last line.

`load` is `none` where it calls `exit`, and where it uses a buffer on the stack before writing it or writes
behind its end.
-/

namespace SimpleOS.Model

open Lib

/-- The contents of all memory from `malloc` that `load`, `ld_routine` and `init_mm` leave as it is. -/
structure LoadHeap extends Malloc where
  priority : BitVec 32
  size : BitVec 32
  text : ℕ → Fin 4 → Addr

/-- What `load` stores in the control block and its code segment. -/
structure Program where
  priority : BitVec 32
  text : List Inst

/-- `get_opcode`; another word ends the program. -/
def getOpcode (opt : List Char) : Option Opcode :=
  if opt = ['c', 'a', 'l', 'c'] then some .calc
  else if opt = ['a', 'l', 'l', 'o', 'c'] then some .alloc
  else if opt = ['f', 'r', 'e', 'e'] then some .free
  else if opt = ['r', 'e', 'a', 'd'] then some .read
  else if opt = ['w', 'r', 'i', 't', 'e'] then some .write
  else if opt = ['s', 'y', 's', 'c', 'a', 'l', 'l'] then some .syscall
  else none

/-- The numbers `load` asks for behind an opcode. -/
def argCount : Opcode → ℕ
  | .calc => 0
  | .alloc => 2
  | .free => 1
  | .read => 3
  | .write => 3
  | .syscall => 4

/-- The stream and the two buffers of `load`. -/
structure Scanner where
  input : List Char
  opcode : Option (List Char)
  buf : Option (List Char)

/-- `fscanf(file, "%s", opcode)` and `get_opcode`. -/
def scanOpcode (s : Scanner) : Option (Opcode × Scanner) := do
  let (word, input) := scanWord s.input
  let opt ← word <|> s.opcode
  if opt.length < 10 then
    let opcode ← getOpcode (cString opt)
    return (opcode, { s with input, opcode := some opt })
  else none

/-- The arguments of one instruction. Those of `syscall` are on the rest of its line, the others may be
on any line. -/
def scanArgs (opcode : Opcode) (s : Scanner) : Option (List Addr × Scanner) :=
  match opcode with
  | .calc => some ([], s)
  | .syscall => do
    let (line, input) := fgets 200 s.input
    let buf ← line <|> s.buf
    return ((scanULongs 4 (cString buf)).1, { s with input, buf := some buf })
  | _ =>
    let (given, input) := scanULongs (argCount opcode) s.input
    some (given, { s with input := if given.length = argCount opcode then skipSpace input else input })

/-- An instruction with the arguments that are given; the others are as they were. -/
def Inst.fill (opcode : Opcode) (given : List Addr) (words : Fin 4 → Addr) : Inst :=
  ⟨opcode, given[0]?.getD (words 0), given[1]?.getD (words 1), given[2]?.getD (words 2), given[3]?.getD (words 3)⟩

/-- The loop of `load` from round `i` on, with `n` rounds left. -/
def loadText (words : ℕ → Fin 4 → Addr) (i : ℕ) : ℕ → Scanner → Option (List Inst)
  | 0, _ => some []
  | n + 1, s => do
    let (opcode, s) ← scanOpcode s
    let (given, s) ← scanArgs opcode s
    let rest ← loadText words (i + 1) n s
    return Inst.fill opcode given (words i) :: rest

/-- `load`, on the contents of a file. -/
def load (heap : LoadHeap) (file : List Char) : Option Program := do
  let (header, input) := scanULongs 2 file
  let priority := (header[0]?.map (BitVec.setWidth 32)).getD heap.priority
  let size := (header[1]?.map (BitVec.setWidth 32)).getD heap.size
  let text ← loadText heap.text 0 size.toNat ⟨input, none, none⟩
  return ⟨priority, text⟩

end SimpleOS.Model
