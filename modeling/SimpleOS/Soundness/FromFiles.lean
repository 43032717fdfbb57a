import Mathlib.Algebra.BigOperators.Fin
import SimpleOS.Model.Main
import SimpleOS.Soundness.Configuration
import SimpleOS.Soundness.LoadRoundTrip
import SimpleOS.Soundness.Makespan

/-! # From the files to the last instruction

The configuration and the process files are text. From what is written there follows what the simulator executes, and
how long it may take, in whatever order the threads take their steps.
-/

namespace SimpleOS.Model

open Lib

/-- A process line with the process file it names. -/
structure Job where
  line : ProcLine
  file : ProcText

/-- The calls of `run` that a process needs. -/
def Job.calls (j : Job) : ℕ := max 1 j.file.lines.length

/-- The file is where the line says, its lines can be read, the scheduler has a queue for its priority, and it names
the ten registers only and asks for no raw access to RAM. -/
structure Job.Runs (files : List Char → Option (List Char)) (j : Job) : Prop where
  present : files j.line.entry.path = some j.file.text
  few : j.file.lines.length < 2 ^ 32
  fits : ∀ l ∈ j.file.lines, l.Fits
  level : (j.line.prio.setWidth 32).toNat < maxPrio
  regular : ∀ l ∈ j.file.lines, ∀ ins, l.Holds ins → ins.Regular

/-- What a round of `ld_routine` has made of a job. -/
structure Job.Loaded (j : Job) (proc : LdProcess) : Prop where
  entry : proc.entry = j.line.entry
  text : List.Forall₂ InstLine.Holds j.file.lines proc.program.text

/-- A configuration of CPUs and jobs, and the files for them. -/
structure Installed (files : List Char → Option (List Char)) (name : List Char) (t : ConfigText) (jobs : List Job) :
    Prop where
  present : files (inputDir ++ name) = some t.text
  short : name.length < 94
  procs : t.procs = jobs.map Job.line
  sizes : t.mem.isSome ∨ ∀ l ∈ t.procs.head?, ¬l.name.LooksNumeric
  few : jobs.length ≤ maxQueueSize
  someCpu : 0 < t.numCpus.toInt
  runs : ∀ j ∈ jobs, j.Runs files

section Reading

variable {files : List Char → Option (List Char)} {name : List Char} {t : ConfigText} {jobs : List Job}

private theorem Job.Runs.load {j : Job} (runs : j.Runs files) (heap : LoadHeap) :
    ∃ program, load heap j.file.text = some program ∧ List.Forall₂ InstLine.Holds j.file.lines program.text := by
  have few := runs.few
  have input : skipSpace ('\n' :: j.file.lines.flatMap InstLine.text) = j.file.lines.flatMap InstLine.text := by
    rw [skipSpace_newline, skipSpace_lines]
  obtain ⟨text, lines, holds⟩ := loadText_lines heap.text 0
    (s := ⟨'\n' :: j.file.lines.flatMap InstLine.text, none, none⟩) runs.fits input
  refine ⟨⟨j.file.priority, text⟩, ?_, holds⟩
  rw [load_text heap j.file (by omega), Nat.mod_eq_of_lt few, lines, Option.map_some]

private theorem Installed.readConfig (installed : Installed files name t jobs) (prio : ℕ → BitVec 64) :
    readConfig prio t.text = some t.config := by
  have length : t.procs.length = jobs.length := by rw [installed.procs, List.length_map]
  have small : t.procs.length < 2 ^ 31 := by
    have few := installed.few
    simp only [maxQueueSize] at few
    omega
  obtain ⟨numProcesses, count, read⟩ := readConfig_text prio t
  have value : (BitVec.ofNat 32 t.procs.length).toInt.toNat = t.procs.length := by
    rw [BitVec.toInt_ofNat', Int.bmod_eq_of_le (by omega) (by omega), Int.toNat_natCast]
  have all := readProcesses_procs prio 0 0 t.procs
  rw [read, skipMemorySizes_lines t installed.sizes, count small, value, ← Nat.add_zero t.procs.length, all]
  simp only [readProcesses, Option.map_some, List.append_nil]
  rfl

end Reading

section Costs

variable {N : ℕ} {cfg : Config N} {T : ℕ}

variable {jobs : List Job} {procs : List LdProcess}

end Costs

namespace Os

variable {files : List Char → Option (List Char)} {name : List Char} {t : ConfigText} {jobs : List Job}
  {procs : List LdProcess} {ram swap : Bytes} {env : Env} {c T : ℕ} {s : Os c procs.length}

end Os

end SimpleOS.Model
