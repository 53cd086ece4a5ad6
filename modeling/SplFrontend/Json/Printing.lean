import SplFrontend.Json

/-!
# Printing JSON

The layout of emitted headers: one member or element a line, two spaces a level, empty arrays and
objects closed at once. Strings escape quotes, backslashes and control characters, and nothing else.
-/

namespace SplFrontend.Json

/-- The lower-case hexadecimal digits of a code, at least four of them. -/
def hexFour (n : Nat) : List Char :=
  let digits := Nat.toDigits 16 n
  List.replicate (4 - digits.length) '0' ++ digits

/-- One character between quotes. -/
def quotedChar (c : Char) : List Char :=
  match c with
  | '"' => ['\\', '"']
  | '\\' => ['\\', '\\']
  | '\x08' => ['\\', 'b']
  | '\x0c' => ['\\', 'f']
  | '\n' => ['\\', 'n']
  | '\r' => ['\\', 'r']
  | '\t' => ['\\', 't']
  | c => if c.toNat < 0x20 then '\\' :: 'u' :: hexFour c.toNat else [c]

/-- A text as a string literal. -/
def quoted (s : String) : String := String.ofList ('"' :: s.toList.flatMap quotedChar ++ ['"'])

/-- A string literal, be it a text or not. -/
def quoted? : Option String → String
  | some s => quoted s
  | none => "\"\\ud800\""

/-- The start of a line at some depth. -/
def newline (depth : Nat) : String := String.ofList ('\n' :: List.replicate (2 * depth) ' ')

/-- Entries on lines of their own between two brackets. -/
def block (left right : String) (depth : Nat) : List String → String
  | [] => left ++ right
  | entries =>
    left ++ newline (depth + 1) ++ ("," ++ newline (depth + 1)).intercalate entries ++
      newline depth ++ right

mutual

/-- The value as it stands at some depth. -/
def renderAt (depth : Nat) : Json → String
  | null => "null"
  | bool b => if b then "true" else "false"
  | number spelling => spelling
  | text s => quoted s
  | brokenText => quoted? none
  | array elems => block "[" "]" depth (renderElems (depth + 1) elems)
  | object members => block "\x7b" "\x7d" depth (renderMembers (depth + 1) members)

/-- The elements of an array, each for a line of its own. -/
def renderElems (depth : Nat) : List Json → List String
  | [] => []
  | v :: vs => renderAt depth v :: renderElems depth vs

/-- The members of an object, each for a line of its own. -/
def renderMembers (depth : Nat) : List (Option String × Json) → List String
  | [] => []
  | (key, v) :: ms => (quoted? key ++ ": " ++ renderAt depth v) :: renderMembers depth ms

end

/-- The value as a text, without a line feed at the end. -/
def render (v : Json) : String := v.renderAt 0

end SplFrontend.Json
