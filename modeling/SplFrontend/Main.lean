import SplFrontend.Run

/-!
# The program

The command line on the disk: file operations, the two output streams and the exit code.
-/

namespace SplFrontend

/-- Is this the code of an error, which may be given with either sign? -/
def isErrorCode (code given : UInt32) : Bool := given = code || given = 0 - code

/-- The fault that an error of the operating system stands for. -/
def FileFault.ofError : IO.Error → FileFault
  | .noFileOrDirectory .. => .noEntry
  | .inappropriateType _ code _ => if isErrorCode 20 code then .notDirectory else .isDirectory
  | .invalidArgument f code details =>
    if isErrorCode 36 code then .nameTooLong
    else .other (toString (IO.Error.invalidArgument f code details))
  | e => .other (toString e)

/-- The file operations on the disk. -/
def diskFiles : FileOps IO where
  read path := do
    try
      match String.fromUTF8? (← IO.FS.readBinFile path) with
      | some text => return .ok text
      | none => return .error .notText
    catch e => return .error (.ofError e)
  write path text := do
    try
      IO.FS.writeFile path text
      return .ok ()
    catch e => return .error (.ofError e)

end SplFrontend

open SplFrontend in
/-- Runs the program and shows what it answers. -/
def main (args : List String) : IO UInt32 := do
  let out ← runArgs diskFiles args
  IO.print out.stdout
  for line in out.stderr do
    IO.eprintln line
  return out.exit.toUInt32
