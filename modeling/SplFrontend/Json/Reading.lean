import SplFrontend.Json
import SplFrontend.Text.Reading

/-!
# Reading JSON

The strict grammar: no comments, no trailing commas, no control characters in strings, and nothing
but blanks around the value. Every reader skips the blanks after what it reads.
-/

namespace SplFrontend.Json

open Reading

/-- The outcome of reading an `α` from a JSON text. -/
abbrev JsonReading (α : Type) (cs : List Char) : Type := Reading Char Unit α cs

/-! ## Strings -/

/-- The value of a hexadecimal digit. -/
def hexDigit? (c : Char) : Option Nat :=
  if c.isDigit then some (c.toNat - '0'.toNat)
  else if 'a' ≤ c ∧ c ≤ 'f' then some (c.toNat - 'a'.toNat + 10)
  else if 'A' ≤ c ∧ c ≤ 'F' then some (c.toNat - 'A'.toNat + 10)
  else none

/-- The number that four hexadecimal digits spell. -/
def hexUnit? (a b c d : Char) : Option Nat := do
  return (((← hexDigit? a) * 16 + (← hexDigit? b)) * 16 + (← hexDigit? c)) * 16 + (← hexDigit? d)

/-- The character that a letter stands for after a backslash. -/
def escape? : Char → Option Char
  | '"' => some '"'
  | '\\' => some '\\'
  | '/' => some '/'
  | 'b' => some '\x08'
  | 'f' => some '\x0c'
  | 'n' => some '\n'
  | 'r' => some '\r'
  | 't' => some '\t'
  | _ => none

/-- Reads the rest of a string up to its closing quote, as code points and, from escapes, halves of
surrogate pairs. -/
def codes : (cs : List Char) → JsonReading (List Nat) cs
  | [] => stay ()
  | '"' :: _ => Text.trimmed (take [])
  | '\\' :: 'u' :: a :: b :: c :: d :: cs =>
    match hexUnit? a b c d with
    | some n => ((codes cs).map (n :: ·)).within (by simp only [List.length_cons]; omega)
    | none => stay ()
  | '\\' :: l :: cs =>
    match escape? l with
    | some c => ((codes cs).map (c.toNat :: ·)).within (by simp only [List.length_cons]; omega)
    | none => stay ()
  | c :: cs => if c.toNat < 0x20 then stay () else ((codes cs).map (c.toNat :: ·)).under

/-- Is the code the first half of a surrogate pair? -/
def isHighHalf (n : Nat) : Bool := 0xD800 ≤ n && n < 0xDC00

/-- Is the code the second half of a surrogate pair? -/
def isLowHalf (n : Nat) : Bool := 0xDC00 ≤ n && n < 0xE000

/-- Joins the surrogate pairs. Fails if half of a pair stands alone. -/
def joined : List Nat → Option (List Char)
  | [] => some []
  | [n] => if isHighHalf n || isLowHalf n then none else some [Char.ofNat n]
  | n :: m :: ns =>
    if isHighHalf n then
      if isLowHalf m then
        (joined ns).map (Char.ofNat (0x10000 + (n - 0xD800) * 0x400 + (m - 0xDC00)) :: ·)
      else none
    else if isLowHalf n then none
    else (joined (m :: ns)).map (Char.ofNat n :: ·)

/-- Reads the rest of a string up to its closing quote. -/
def string (cs : List Char) : JsonReading (Option String) cs :=
  (codes cs).map fun ns => (joined ns).map String.ofList

/-! ## Numbers -/

/-- May the character stand in a number? -/
def isNumberChar (c : Char) : Bool :=
  c.isDigit || c == '-' || c == '+' || c == '.' || c == 'e' || c == 'E'

/-- What is left after one digit or more. -/
def dropDigits? : List Char → Option (List Char)
  | c :: cs => if c.isDigit then some (cs.dropWhile Char.isDigit) else none
  | [] => none

/-- What is left after the whole part of a number, which has no leading zero. -/
def dropWhole? : List Char → Option (List Char)
  | '0' :: cs => some cs
  | cs => dropDigits? cs

/-- What is left after the fraction of a number, if it has one. -/
def dropFraction? : List Char → Option (List Char)
  | '.' :: cs => dropDigits? cs
  | cs => some cs

/-- What is left after the exponent of a number, if it has one. -/
def dropExponent? : List Char → Option (List Char)
  | 'e' :: cs | 'E' :: cs =>
    match cs with
    | '+' :: cs | '-' :: cs => dropDigits? cs
    | cs => dropDigits? cs
  | cs => some cs

/-- Do the characters spell a number? -/
def isNumber (cs : List Char) : Bool :=
  let unsigned := match cs with
    | '-' :: r => r
    | r => r
  ((dropWhole? unsigned).bind dropFraction?).bind dropExponent? == some []

/-- Reads a number. No number is followed by a character that could stand in one. -/
def numeral : (cs : List Char) → JsonReading Json cs
  | [] => stay ()
  | c :: cs =>
    let spelling := c :: cs.takeWhile isNumberChar
    if isNumber spelling then
      Text.trimmed <| ok (.number (String.ofList spelling)) (cs.dropWhile isNumberChar) <| by
        rw [List.length_cons]
        exact Nat.lt_succ_of_le (List.dropWhile_sublist _).length_le
    else stay ()

/-! ## Values -/

/-- Reads a value without parts. -/
def leaf : (cs : List Char) → JsonReading Json cs
  | '"' :: cs => ((string cs).map ofText?).under
  | 'n' :: cs => (Text.word "null".toList () ('n' :: cs)).map fun _ => .null
  | 't' :: cs => (Text.word "true".toList () ('t' :: cs)).map fun _ => .bool true
  | 'f' :: cs => (Text.word "false".toList () ('f' :: cs)).map fun _ => .bool false
  | cs => numeral cs

/-- Reads the quoted key of a member and the colon after it. -/
def key : (cs : List Char) → JsonReading (Option String) cs
  | '"' :: cs => ((string cs).bind fun k r _ => (Text.mark ':' () r).map fun _ => k).under
  | _ => stay ()

mutual

/-- Reads a value. -/
def value : (cs : List Char) → JsonReading Json cs
  | [] => stay ()
  | c :: cs =>
    if c = '[' then (Text.afterBlanks (elements (Text.skipBlanks cs))).under.map .array
    else if c = '{' then (Text.afterBlanks (members (Text.skipBlanks cs))).under.map .object
    else leaf (c :: cs)
termination_by cs => 3 * cs.length
decreasing_by
  all_goals
    have : (Text.skipBlanks cs).length ≤ cs.length := (List.dropWhile_suffix _).length_le
    rw [List.length_cons]
    omega

/-- Reads the elements of an array up to the closing bracket. -/
def elements (cs : List Char) : JsonReading (List Json) cs :=
  (Text.mark ']' () cs).map (fun _ => []) |>.orElse (moreElements cs)
termination_by 3 * cs.length + 2
decreasing_by omega

/-- Reads one element or more, up to the closing bracket. -/
def moreElements (cs : List Char) : JsonReading (List Json) cs :=
  (value cs).bind fun v r _ =>
    ((Text.mark ']' () r).map fun _ => [v]).orElse <|
      (Text.mark ',' () r).bind fun _ r' _ => (moreElements r').map (v :: ·)
termination_by 3 * cs.length + 1
decreasing_by all_goals omega

/-- Reads the members of an object up to the closing brace. -/
def members (cs : List Char) : JsonReading (List (Option String × Json)) cs :=
  (Text.mark '}' () cs).map (fun _ => []) |>.orElse (moreMembers cs)
termination_by 3 * cs.length + 2
decreasing_by omega

/-- Reads one member or more, up to the closing brace. -/
def moreMembers (cs : List Char) : JsonReading (List (Option String × Json)) cs :=
  (key cs).bind fun k r _ => (value r).bind fun v r _ =>
    ((Text.mark '}' () r).map fun _ => [(k, v)]).orElse <|
      (Text.mark ',' () r).bind fun _ r' _ => (moreMembers r').map ((k, v) :: ·)
termination_by 3 * cs.length + 1
decreasing_by all_goals omega

end

/-- The value that a whole text spells. -/
def parse? (text : String) : Option Json :=
  match value (Text.skipBlanks text.toList) with
  | .ok v [] _ => some v
  | _ => none

end SplFrontend.Json
