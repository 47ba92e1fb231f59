import Offload.CommandLine.Run

/-!
# The program

The command line over the files of the machine. Notes and messages go to the error channel and
generated text to the output.
-/

namespace Offload.Program

open Offload.Files

/-- The code with which the machine refuses a name for its length. -/
def nameLengthCode : UInt32 := 36

/-- The code with which the machine refuses to treat a directory as a file. -/
def directoryCode : UInt32 := 21

def fileErrorOf : IO.Error → FileError
  | .noFileOrDirectory .. => .notFound
  | .inappropriateType _ code _ =>
    if code == directoryCode then .isADirectory else .notADirectory
  | e@(.invalidArgument _ code _) =>
    if code == nameLengthCode then .nameTooLong else .other (toString e)
  | e => .other (toString e)

def attempt (action : IO α) : IO (Except FileError α) := do
  try
    return .ok (← action)
  catch e =>
    return .error (fileErrorOf e)

def diskFiles : FileAccess IO where
  read path := attempt (IO.FS.readFile path)
  write path text := attempt (IO.FS.writeFile path text)
  isFile path := do
    match ← attempt (IO.FS.readFile path) with
    | .ok _ => return true
    | .error _ => return false

end Offload.Program

open Offload in
def main (args : List String) : IO UInt32 := do
  let outcome ← CommandLine.run Program.diskFiles args
  (outcome.notes ++ outcome.messages).forM fun line => IO.eprintln line
  IO.print outcome.stdout
  return outcome.code
