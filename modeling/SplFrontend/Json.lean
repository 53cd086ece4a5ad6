/-!
# JSON documents

A document keeps its members in order, repeated keys included, since whether a key may be repeated
or unknown depends on the record that is read from it. A number keeps its spelling: only plain
digits make a whole number. A string that holds half of a surrogate pair is no text; it is kept
apart, as it is harmless where nobody looks at it.
-/

namespace SplFrontend

/-- A JSON value. A key of an object is `none` if it is no text. -/
inductive Json where
  | null
  | bool (b : Bool)
  | number (spelling : String)
  | text (s : String)
  /-- A string that holds half of a surrogate pair. -/
  | brokenText
  | array (elems : List Json)
  | object (members : List (Option String × Json))
deriving Repr, Inhabited

namespace Json

/-- The value of a string literal. -/
def ofText? : Option String → Json
  | some s => text s
  | none => brokenText

/-- The text of a string. -/
def text? : Json → Option String
  | text s => some s
  | _ => none

/-- The truth value. -/
def bool? : Json → Option Bool
  | bool b => some b
  | _ => none

/-- The elements of an array. -/
def array? : Json → Option (List Json)
  | array elems => some elems
  | _ => none

/-- The whole number that plain digits spell. -/
def digits? : Json → Option Nat
  | number s =>
    if s.toList.all Char.isDigit then
      some (s.toList.foldl (fun n c => 10 * n + (c.toNat - '0'.toNat)) 0)
    else none
  | _ => none

/-- The word for a case without content: a string, or an object with the word as its only key. -/
def word? : Json → Option String
  | text s => some s
  | object [(some s, null)] => some s
  | _ => none

/-! ## Records -/

/-- The value of a key that occurs at most once. The outer option is `none` if it occurs twice. -/
def uniqueMember (members : List (Option String × Json)) (key : String) : Option (Option Json) :=
  match members.filter fun m => m.1 = some key with
  | [] => some none
  | [m] => some (some m.2)
  | _ => none

/-- The fields of a record by name. A record is an object, in which unknown keys are skipped, or an
array of its fields in order, which may be short. -/
def fields? (names : List String) : Json → Option (List (Option Json))
  | object members =>
    if members.all fun m => m.1.isSome then names.mapM (uniqueMember members) else none
  | array elems =>
    if elems.length ≤ names.length then
      some (elems.map some ++ List.replicate (names.length - elems.length) none)
    else none
  | _ => none

/-- The value of a field that must be there. -/
def required {α : Type} (f : Json → Option α) : Option Json → Option α
  | some v => f v
  | none => none

/-- The value of a field that has a default. -/
def optional {α : Type} (f : Json → Option α) (default : α) : Option Json → Option α
  | some v => f v
  | none => some default

/-- A value that may be null. -/
def nullable {α : Type} (f : Json → Option α) : Json → Option (Option α)
  | null => some none
  | v => (f v).map some

/-- An array of values of one kind. -/
def listOf {α : Type} (f : Json → Option α) (v : Json) : Option (List α) := v.array?.bind (·.mapM f)

end Json

end SplFrontend
