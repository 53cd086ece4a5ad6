/-!
# Files

What the program asks of a file system: the text of a file, and to write one. The passes that need
it take a `FileOps`, so that the same code runs on the disk and on a `FileTree`, which is a value.
-/

namespace SplFrontend

/-- Why a file cannot be read or written. -/
inductive FileFault where
  | noEntry
  | notDirectory
  | isDirectory
  | nameTooLong
  /-- The path holds the character that ends a path. -/
  | brokenName
  /-- The bytes of the file are no text. -/
  | notText
  | other (reason : String)
deriving DecidableEq, Repr

namespace FileFault

/-- The fault in words. -/
def message : FileFault → String
  | noEntry => "No such file or directory (os error 2)"
  | notDirectory => "Not a directory (os error 20)"
  | isDirectory => "Is a directory (os error 21)"
  | nameTooLong => "File name too long (os error 36)"
  | brokenName => "file name contained an unexpected NUL byte"
  | notText => "stream did not contain valid UTF-8"
  | other reason => reason

end FileFault

/-- The operations of a file system. -/
structure FileOps (m : Type → Type) where
  read : String → m (Except FileFault String)
  write : String → String → m (Except FileFault Unit)

/-! ## Paths -/

namespace Path

/-- What stands between the slashes of a path. -/
def split : List Char → List (List Char)
  | [] => [[]]
  | c :: cs =>
    match split cs with
    | s :: ss => if c = '/' then [] :: s :: ss else (c :: s) :: ss
    | [] => [[c]]

/-- What stands between the slashes of a path. -/
def segments (path : String) : List String := (split path.toList).map String.ofList

/-- The path of a name in a directory. A name that starts with a slash is a path of its own. -/
def join (dir name : String) : String :=
  if name.toList.head? = some '/' || dir.isEmpty then name
  else if dir.toList.getLast? = some '/' then dir ++ name
  else dir ++ "/" ++ name

/-- Cuts a file name at its last dot. A dot in front does not count. -/
def cutName (name : String) : String × Option String :=
  let back := name.toList.reverse
  match back.dropWhile (· ≠ '.') with
  | _ :: c :: cs =>
    (String.ofList (c :: cs).reverse, some (String.ofList (back.takeWhile (· ≠ '.')).reverse))
  | _ => (name, none)

/-- The segments up to the last one that names something. -/
def namedSegments (path : String) : List String :=
  ((segments path).reverse.dropWhile fun s => s = "" || s = ".").reverse

/-- The file name that a path ends in, if it ends in one. -/
def fileName? (path : String) : Option String :=
  (namedSegments path).getLast?.filter (· ≠ "..")

/-- The file name without its extension. -/
def stem? (path : String) : Option String := (fileName? path).map fun name => (cutName name).1

/-- The path without as many characters at its end as its extension has. They are the extension
unless slashes follow the file name. -/
def upToDot (path : String) : String :=
  match (fileName? path).bind fun name => (cutName name).2 with
  | some ext => String.ofList (path.toList.take (path.toList.length - ext.toList.length))
  | none => path

/-- The path with another extension, which must not hold a slash. An empty extension leaves none.
The old extension goes first: if the dots that are left name the parent directory, there is no file
name to extend. -/
def withExtension (path ext : String) : Option String :=
  if '/' ∈ ext.toList then none
  else
    let front := upToDot path
    match stem? front with
    | none => some front
    | some stem =>
      let name := if ext.isEmpty then stem else stem ++ "." ++ ext
      some ("/".intercalate ((namedSegments front).dropLast ++ [name]))

end Path

end SplFrontend
