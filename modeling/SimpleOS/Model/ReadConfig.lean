import SimpleOS.Lib.Scan

/-! # Reading the configuration

`read_config` of `os.c`, built with `MLQ_SCHED`, `MM_PAGING` and `MM_FIXED_MEMSZ`. Only the result of `fscanf`
for the memory sizes is checked: a number that the file does not give leaves a static variable zero, and an
entry of `prio` as `malloc` left it.

`readConfig` is `none` where it uses the buffer `proc` before writing it, and where it writes behind the end of
`proc` or `path`.
-/

namespace SimpleOS.Model

open Lib

/-- An entry of the arrays in `struct ld_args`. -/
structure LdArgs where
  path : List Char
  startTime : BitVec 64
  prio : BitVec 64
deriving DecidableEq

/-- The variables of `os.c` that `read_config` sets. -/
structure OsConfig where
  timeSlot : BitVec 32
  numCpus : BitVec 32
  numProcesses : BitVec 32
  memramsz : BitVec 32
  memswpsz : Fin 4 → BitVec 32
  ldProcesses : List LdArgs
deriving DecidableEq

/-- The directory of the process files. -/
def procDir : List Char := ['i', 'n', 'p', 'u', 't', '/', 'p', 'r', 'o', 'c', '/']

/-- One round of the loop of `read_config`. `prio` is what `malloc` left in the entry. -/
def readProcess (prio : BitVec 64) (input : List Char) : Option (LdArgs × List Char) :=
  match scanULong input with
  | (none, _) => none
  | (some startTime, input) =>
    match scanWord input with
    | (none, _) => none
    | (some proc, input) =>
      let path := procDir ++ cString proc
      if proc.length < 100 ∧ path.length < 100 then
        match scanULong input with
        | (none, input) => some (⟨path, startTime, prio⟩, input)
        | (some prio, input) => some (⟨path, startTime, prio⟩, skipSpace input)
      else none

/-- The loop of `read_config` from round `i` on, with `n` rounds left. -/
def readProcesses (prio : ℕ → BitVec 64) (i : ℕ) : ℕ → List Char → Option (List LdArgs)
  | 0, _ => some []
  | n + 1, input => do
    let (entry, input) ← readProcess (prio i) input
    let entries ← readProcesses prio (i + 1) n input
    return entry :: entries

/-- The look for memory sizes: two numbers are taken for their line, anything else is read again. -/
def skipMemorySizes (currentPos : List Char) : List Char :=
  let (sizes, input) := scanEach scanInt 2 currentPos
  if sizes.length = 2 then skipLine input else currentPos

/-- `read_config`, on the contents of a file. -/
def readConfig (prio : ℕ → BitVec 64) (file : List Char) : Option OsConfig := do
  let (header, input) := scanEach scanInt 3 file
  let input := if header.length = 3 then skipSpace input else input
  let numProcesses := header[2]?.getD 0
  let ldProcesses ← readProcesses prio 0 numProcesses.toInt.toNat (skipMemorySizes input)
  return {
    timeSlot := header[0]?.getD 0
    numCpus := header[1]?.getD 0
    numProcesses
    memramsz := 0x100000
    memswpsz := fun i => if i.val = 0 then 0x1000000 else 0
    ldProcesses }

end SimpleOS.Model
