/-!
# Access to files

What a program can do with files, in any monad, and how that can fail.
-/

namespace Offload.Files

inductive FileError where
  | notFound
  | notADirectory
  | isADirectory
  | nameTooLong
  | other (message : String)
deriving DecidableEq, Repr

def FileError.message : FileError → String
  | notFound => "No such file or directory (os error 2)"
  | notADirectory => "Not a directory (os error 20)"
  | isADirectory => "Is a directory (os error 21)"
  | nameTooLong => "File name too long (os error 36)"
  | other message => message

structure FileAccess (m : Type → Type) where
  read : String → m (Except FileError String)
  write : String → String → m (Except FileError Unit)
  /-- There is a file, and not a directory, at the path. -/
  isFile : String → m Bool

end Offload.Files
