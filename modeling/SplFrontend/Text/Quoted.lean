import SplFrontend.Text.Hidden

/-!
# Quoted text

Characters and texts stand between quotes in two places. In source text (`literal`) an escape is a
backslash and a letter, and everything else is written as itself. In messages (`shown`) a character
that cannot be seen is written by its code point as well. `unescape` reads an escape letter back;
it knows both quotes, whichever of them surrounds the text.
-/

namespace SplFrontend.Text

/-- The letter that stands for a character after a backslash, quotes aside. -/
def escapeLetter : Char → Option Char
  | '\n' => some 'n'
  | '\t' => some 't'
  | '\r' => some 'r'
  | '\x00' => some '0'
  | '\\' => some '\\'
  | _ => none

/-- The character that a letter stands for after a backslash. -/
def unescape : Char → Option Char
  | 'n' => some '\n'
  | 't' => some '\t'
  | 'r' => some '\r'
  | '0' => some '\x00'
  | '\\' => some '\\'
  | '\'' => some '\''
  | '"' => some '"'
  | _ => none

/-- Every escape letter is read back as the character it was written for. -/
theorem unescape_escapeLetter {c l : Char} (h : escapeLetter c = some l) : unescape l = some c := by
  unfold escapeLetter at h
  split at h
  case h_6 => cases h
  all_goals cases h; rfl

/-- One character of a source literal that stands between two marks `quote`. -/
def escaped (quote c : Char) : List Char :=
  match escapeLetter c with
  | some l => ['\\', l]
  | none => if c = quote then ['\\', c] else [c]

/-- A source literal: the text between two marks `quote`, with escapes. -/
def literal (quote : Char) (cs : List Char) : String :=
  String.ofList (quote :: cs.flatMap (escaped quote) ++ [quote])

/-- One character of a text that a message shows between two marks `quote`. -/
def shownChar (quote c : Char) : List Char :=
  match escapeLetter c with
  | some l => ['\\', l]
  | none =>
    if c = quote then ['\\', c]
    else if isHidden c then "\\u\x7b".toList ++ Nat.toDigits 16 c.toNat ++ ['}']
    else [c]

/-- A text as messages show it: between two marks `quote`, with what cannot be seen spelled out. -/
def shown (quote : Char) (cs : List Char) : String :=
  String.ofList (quote :: cs.flatMap (shownChar quote) ++ [quote])

end SplFrontend.Text
