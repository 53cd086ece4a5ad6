import SplFrontend.Files

/-!
# File trees

A file tree is a file system as a value: files and directories by the segments of their paths, seen
from the directory that the program runs in. Outside of that directory nothing is known but the
directories above it. A directory need not be listed if something in it is.
-/

namespace SplFrontend

/-- What stands at a place of a file tree. -/
inductive FileNode where
  | dir
  /-- A file, with its text unless its bytes are none. -/
  | file (text : Option String)
deriving DecidableEq, Repr

/-- Files and directories by the segments of their paths. -/
structure FileTree where
  entries : List (List String × FileNode)
deriving DecidableEq, Repr

namespace FileTree

/-- What stands at a place. -/
def node? (t : FileTree) (place : List String) : Option FileNode :=
  if place.isEmpty then some .dir
  else
    match t.entries.lookup place with
    | some n => some n
    | none => if t.entries.any fun e => place.isPrefixOf e.1 then some .dir else none

/-- What a path leads to. -/
inductive Spot where
  /-- A place in the tree. -/
  | inside (place : List String)
  /-- A directory above the tree. -/
  | above
deriving DecidableEq, Repr

/-- What stands at a spot. -/
def nodeAt? (t : FileTree) : Spot → Option FileNode
  | .inside place => t.node? place
  | .above => some .dir

/-- Is a segment too long for a file name? -/
def isTooLong (s : String) : Bool := 255 < s.utf8ByteSize

/-- The spot that one segment leads to from a directory. -/
def step (t : FileTree) (spot : Spot) (s : String) : Except FileFault Spot :=
  if s = "" || s = "." then .ok spot
  else if s = ".." then
    match spot with
    | .inside (d :: ds) => .ok (.inside (d :: ds).dropLast)
    | _ => .ok .above
  else if isTooLong s then .error .nameTooLong
  else
    match spot with
    | .inside place =>
      if (t.node? (place ++ [s])).isSome then .ok (.inside (place ++ [s])) else .error .noEntry
    | .above => .error .noEntry

/-- Follows segments from a spot. Whatever has a segment after it must be a directory. -/
def walk (t : FileTree) : Spot → List String → Except FileFault Spot
  | spot, [] => .ok spot
  | spot, s :: ss =>
    if t.nodeAt? spot = some .dir then do walk t (← t.step spot s) ss else .error .notDirectory

/-- Where a path starts, and its segments. -/
def start (path : String) : Except FileFault (Spot × List String) :=
  if path.toList.contains '\x00' then .error .brokenName
  else if path.isEmpty then .error .noEntry
  else if 4096 ≤ path.utf8ByteSize then .error .nameTooLong
  else .ok (if path.toList.head? = some '/' then .above else .inside [], Path.segments path)

/-- The text of a file. -/
def read (t : FileTree) (path : String) : Except FileFault String := do
  let (spot, segments) ← start path
  match t.nodeAt? (← t.walk spot segments) with
  | some (.file (some text)) => .ok text
  | some (.file none) => .error .notText
  | some .dir => .error .isDirectory
  | none => .error .noEntry

/-- Puts a file at a place, in the stead of one that is there. -/
def put (t : FileTree) (place : List String) (text : String) : FileTree :=
  if (t.entries.lookup place).isSome then
    ⟨t.entries.map fun e => if e.1 = place then (place, .file (some text)) else e⟩
  else ⟨t.entries ++ [(place, .file (some text))]⟩

/-- Where a file is written: a name in a directory that is there. A path that ends in a slash or in
dots can only be a directory. -/
def target (t : FileTree) (path : String) : Except FileFault (List String) := do
  let (spot, segments) ← start path
  match segments.reverse.dropWhile (· = "") with
  | [] => .error .isDirectory
  | last :: front =>
    let dir ← t.walk spot front.reverse
    if t.nodeAt? dir ≠ some .dir then .error .notDirectory
    else if segments.getLast? = some "" || last = "." || last = ".." then .error .isDirectory
    else if isTooLong last then .error .nameTooLong
    else
      match dir with
      | .above => .error .noEntry
      | .inside place =>
        if t.node? (place ++ [last]) = some .dir then .error .isDirectory else .ok (place ++ [last])

/-- Writes a file. -/
def write (t : FileTree) (path text : String) : Except FileFault FileTree :=
  (t.target path).map fun place => t.put place text

/-- The operations on a file tree as a state. -/
def ops : FileOps (StateM FileTree) where
  read path := do return (← get).read path
  write path text := do
    match (← get).write path text with
    | .ok t => set t; return .ok ()
    | .error f => return .error f

/-- The files with a text that another tree does not have in this way. -/
def written (before after : FileTree) : List (List String × String) :=
  after.entries.filterMap fun
    | (place, .file (some text)) =>
      if before.node? place = some (.file (some text)) then none else some (place, text)
    | _ => none

end FileTree

end SplFrontend
