import SplFrontend.Files
import SplFrontend.Imports

/-!
# Searching for headers

The header of a module is the file with the module's name in the first of the header directories
that has one. A file or directory that is missing is passed over; a file that is there but cannot be
read ends the search.
-/

namespace SplFrontend

/-- A header file that cannot be read. -/
structure SearchFault where
  path : String
  why : FileFault
deriving DecidableEq, Repr

/-- The fault in words. -/
def SearchFault.message (f : SearchFault) : String :=
  s!"cannot read header `{f.path}`: {f.why.message}"

section

variable {m : Type → Type} [Monad m]

/-- The text of the first file with a name among some directories. -/
def firstIn (files : FileOps m) (name : String) :
    List String → m (Except SearchFault (Option String))
  | [] => pure (.ok none)
  | dir :: dirs => do
    match ← files.read (Path.join dir name) with
    | .ok text => return .ok (some text)
    | .error .noEntry => firstIn files name dirs
    | .error why => return .error ⟨Path.join dir name, why⟩

/-- Adds the headers of modules to those that are known. A module without one is left out. -/
def searchHeaders (files : FileOps m) (dirs : List String) (ext : String) :
    List String → HeaderTexts → m (Except SearchFault HeaderTexts)
  | [], found => pure (.ok found)
  | module :: rest, found =>
    if (found.lookup module).isSome then searchHeaders files dirs ext rest found
    else do
      match ← firstIn files (module ++ "." ++ ext) dirs with
      | .error f => return .error f
      | .ok none => searchHeaders files dirs ext rest found
      | .ok (some text) => searchHeaders files dirs ext rest (found ++ [(module, text)])

end

end SplFrontend
