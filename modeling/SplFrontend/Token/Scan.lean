import SplFrontend.Fault
import SplFrontend.Text.Blank

/-!
# The front of a text

`scan c cs` looks at a text that begins with `c` and goes on with `cs`, and says what stands at its
front and how many characters of `cs` belong to it. It knows nothing of places: those follow from
the characters that were taken. A fault carries how far into the lexeme it lies.
-/

namespace SplFrontend

/-- What stands at the front of a text. -/
inductive Scanned where
  /-- A blank or a comment. -/
  | gap
  | token (k : Kind)
  /-- A fault, `offset` characters after the beginning of the lexeme. -/
  | fault (f : Fault) (offset : Nat)

namespace Scan

/-! ## Character classes -/

/-- Characters that operators are made of. -/
def isOperatorChar (c : Char) : Bool := "+-*/%<>=!&|:^~@$?".toList.contains c

/-- Characters that a word may go on with. -/
def isWordChar (c : Char) : Bool := c.isAlphanum || c = '_'

/-! ## Comments -/

/-- The number of characters up to the end of a block comment. An open comment takes everything. -/
def blockComment : List Char → Nat
  | '*' :: '/' :: _ => 2
  | _ :: cs => blockComment cs + 1
  | [] => 0

/-- The number of characters up to the end of the line. -/
def lineComment (cs : List Char) : Nat := (cs.takeWhile (· ≠ '\n')).length

/-! ## Operators and words -/

/-- The characters with which an operator goes on: it ends before a comment. -/
def operatorTail : List Char → List Char
  | '/' :: '/' :: _ | '/' :: '*' :: _ => []
  | c :: cs => if isOperatorChar c then c :: operatorTail cs else []
  | [] => []

/-- The token for a run of operator characters. -/
def operatorKind (name : String) : Kind :=
  if name = "=" then .mark .assign
  else if name = "::" then .mark .doubleColon
  else if name = "->" then .mark .arrow
  else .op name

/-- The token for a word that begins with a small letter or an underscore. -/
def wordKind (word : String) : Kind :=
  match Keyword.ofWord? word with
  | some k => .keyword k
  | none => .ident word

/-- The token for a word that begins with a capital. -/
def capitalKind (word : String) : Kind :=
  if word = "True" then .bool true
  else if word = "False" then .bool false
  else .typeName word

/-! ## Numbers -/

/-- The number that decimal digits write. -/
def decimal (digits : List Char) : Nat :=
  digits.foldl (fun n d => 10 * n + (d.toNat - '0'.toNat)) 0

/-- The largest integer that a literal may write. -/
def maxInt : Nat := 9223372036854775807

/-- The token for a run of digits. -/
def integer (digits : List Char) : Scanned :=
  if decimal digits ≤ maxInt then .token (.int (decimal digits))
  else .fault (.hugeInt (String.ofList digits)) 0

/-! ## Quoted literals -/

/-- A character literal after its opening quote, and how many characters belong to it. A faulty
literal ends where its fault shows, so that what follows is looked at afresh. -/
def charLiteral : List Char → Scanned × Nat
  | [] | '\n' :: _ | '\'' :: _ => (.fault .emptyChar 0, 0)
  | ['\\'] => (.fault .openEscape 0, 1)
  | '\\' :: e :: cs =>
    match Text.unescape e, cs with
    | none, _ => (.fault (.unknownEscape e) 2, 2)
    | some c, '\'' :: _ => (.token (.char c), 3)
    | some _, _ => (.fault .openChar 0, 2)
  | c :: '\'' :: _ => (.token (.char c), 2)
  | _ :: _ => (.fault .openChar 0, 1)

/-- A string literal after its opening quote. -/
structure StringBody where
  /-- The characters that the literal writes. -/
  text : List Char
  /-- The first unknown escape letter, and the number of characters before it. -/
  unknown : Option (Char × Nat)
  /-- Is there a closing quote on the line? -/
  closed : Bool
  /-- How many characters belong to the literal, the closing quote included. -/
  length : Nat

namespace StringBody

/-- The body that `n` characters precede. They write `cs`. -/
def after (b : StringBody) (n : Nat) (cs : List Char) : StringBody :=
  { b with
    text := cs ++ b.text
    unknown := b.unknown.map fun (e, k) => (e, k + n)
    length := b.length + n }

/-- Reads a string literal up to its closing quote or the end of the line. Reading goes on after an
unknown escape. -/
def read : List Char → StringBody
  | [] | '\n' :: _ => ⟨[], none, false, 0⟩
  | '"' :: _ => ⟨[], none, true, 1⟩
  | ['\\'] => ⟨[], none, false, 1⟩
  | '\\' :: e :: cs =>
    match Text.unescape e with
    | some c => (read cs).after 2 [c]
    | none => { (read cs).after 2 [] with unknown := some (e, 1) }
  | c :: cs => (read cs).after 1 [c]

end StringBody

/-- A string literal after its opening quote. A missing closing quote is reported before an unknown
escape. -/
def stringLiteral (cs : List Char) : Scanned × Nat :=
  let body := StringBody.read cs
  (if body.closed then
    match body.unknown with
    | some (e, k) => .fault (.unknownEscape e) (k + 1)
    | none => .token (.str (String.ofList body.text))
  else .fault .openString 0, body.length)

/-! ## The front of a text -/

/-- The mark that is always a token of its own. -/
def punctuation : Char → Option Mark
  | ',' => some .comma
  | ';' => some .semicolon
  | '(' => some .lparen
  | ')' => some .rparen
  | '{' => some .lbrace
  | '}' => some .rbrace
  | '[' => some .lbracket
  | ']' => some .rbracket
  | _ => none

/-- The token or fault for an accessor word. -/
def accessor (word : String) : Scanned :=
  match Accessor.ofName? word with
  | some a => .token (.accessor a)
  | none => .fault (.unknownAccessor word) 0

/-- The token or fault at the front of a text that begins with neither a blank nor a comment. -/
def lexeme (c : Char) (cs : List Char) : Scanned × Nat :=
  if let some m := punctuation c then (.token (.mark m), 0)
  else if c = '.' then
    let word := cs.takeWhile Char.isAlpha
    (accessor (String.ofList word), word.length)
  else if c = '\'' then charLiteral cs
  else if c = '"' then stringLiteral cs
  else if c.isDigit then
    let digits := cs.takeWhile Char.isDigit
    (integer (c :: digits), digits.length)
  else if c.isLower || c = '_' then
    let word := cs.takeWhile isWordChar
    (.token (wordKind (String.ofList (c :: word))), word.length)
  else if c.isUpper then
    let word := cs.takeWhile isWordChar
    (.token (capitalKind (String.ofList (c :: word))), word.length)
  else if isOperatorChar c then
    let tail := operatorTail cs
    (.token (operatorKind (String.ofList (c :: tail))), tail.length)
  else (.fault (.unexpectedChar c) 0, 0)

end Scan

/-- What stands at the front of the text `c :: cs`, and how many characters of `cs` belong to it. -/
def scan (c : Char) (cs : List Char) : Scanned × Nat :=
  if Text.isBlank c then (.gap, 0)
  else
    match c, cs with
    | '/', '/' :: ds => (.gap, Scan.lineComment ds + 1)
    | '/', '*' :: ds => (.gap, Scan.blockComment ds + 1)
    | _, _ => Scan.lexeme c cs

end SplFrontend
