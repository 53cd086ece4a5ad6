/-!
# Places in a source text

A place is a line and a column, both counted from one in characters. Places move forward only by
reading characters: `Loc.step` reads one, `Loc.advance` reads a stretch of text.
-/

namespace SplFrontend

/-- A place in a source text. The place `0:0` stands for entries that no text declares. -/
structure Loc where
  line : Nat
  column : Nat
deriving DecidableEq, Repr, Inhabited

namespace Loc

/-- Where every text begins. -/
def start : Loc := ⟨1, 1⟩

/-- The place of an entry that is declared in no text. -/
def nowhere : Loc := ⟨0, 0⟩

/-- The place after one character: a line feed begins a new line, anything else moves one column. -/
def step (l : Loc) (c : Char) : Loc :=
  if c = '\n' then ⟨l.line + 1, 1⟩ else ⟨l.line, l.column + 1⟩

/-- The place after a stretch of text. -/
def advance (l : Loc) (cs : List Char) : Loc := cs.foldl step l

@[simp] theorem advance_nil (l : Loc) : l.advance [] = l := rfl

@[simp] theorem advance_cons (l : Loc) (c : Char) (cs : List Char) :
    l.advance (c :: cs) = (l.step c).advance cs := rfl

theorem advance_append (l : Loc) (cs ds : List Char) :
    l.advance (cs ++ ds) = (l.advance cs).advance ds := by
  simp [advance]

/-- `line:column`. -/
def render (l : Loc) : String := toString l.line ++ ":" ++ toString l.column

end Loc

end SplFrontend
