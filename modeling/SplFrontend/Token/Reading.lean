import SplFrontend.Fault
import SplFrontend.Reading

/-!
# Reading single tokens

The readers that the grammar is made of. A missing mark or keyword leaves the token that stands in
its place; a reader for a class of tokens takes the token that it refuses.
-/

namespace SplFrontend

/-- The outcome of reading an `α` from a list of tokens. -/
abbrev TokenReading (α : Type) (ts : List Token) : Type := Reading Token Diagnostic α ts

namespace TokenReading

open Reading

variable {α : Type} {ts : List Token}

/-- The kind of the next token, if there is one. -/
def peek (ts : List Token) : Option Kind := ts.head?.map Token.kind

/-- Where the next token begins, or where the text ends. -/
def here (stop : Loc) (ts : List Token) : Loc := (ts.head?.map Token.loc).getD stop

/-- Refuses the next token and leaves it. -/
def leave (stop : Loc) (f : Fault) : TokenReading α ts := stay (f.report (here stop ts))

/-- Refuses the next token and takes it. -/
def skip (stop : Loc) (f : Fault) : TokenReading α ts :=
  fault (f.report (here stop ts)) ts.tail (by simp)

/-- Reads one token of the given kind. Another token is left where it is. -/
def expect (stop : Loc) (k : Kind) : (ts : List Token) → TokenReading Unit ts
  | [] => leave stop (.missing k none)
  | t :: _ => if t.kind = k then take () else leave stop (.missing k (some t.kind))

/-- Reads an identifier. Another token is refused but taken. -/
def ident (stop : Loc) : (ts : List Token) → TokenReading String ts
  | ⟨.ident name, _⟩ :: _ => take name
  | ts => skip stop (.unexpected .identifier (peek ts))

/-- Reads an operator. Another token is refused but taken. -/
def operator (stop : Loc) : (ts : List Token) → TokenReading String ts
  | ⟨.op name, _⟩ :: _ => take name
  | ts => skip stop (.unexpected .operator (peek ts))

end TokenReading

end SplFrontend
