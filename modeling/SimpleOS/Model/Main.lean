import SimpleOS.Model.Loader
import SimpleOS.Model.Os
import SimpleOS.Model.ReadConfig

/-! # Starting the simulator

`main` of `os.c` up to the start of the threads, with the calls of `load` that `ld_routine` makes later: the files
do not change, so neither does what it reads. `main` is `none` where the simulator ends without running the
processes, at a wrong number of arguments, at a file that cannot be opened and where `read_config` or `load`
fail, and where the path of the configuration is behind its buffer.
-/

namespace SimpleOS.Model

open Lib

/-- The directory of the configuration files. -/
def inputDir : List Char := ['i', 'n', 'p', 'u', 't', '/']

/-- An entry of `ld_processes` with what `load` makes of its file. -/
structure LdProcess where
  entry : LdArgs
  heap : LoadHeap
  program : Program

end SimpleOS.Model
