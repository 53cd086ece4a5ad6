import SplFrontend.Reading
import SplFrontend.Text.Blank

/-!
# Reading characters with blanks between

The readers that headers and option files are made of. Each of them skips the plain blanks after
what it reads, so the next one starts at a character that is not blank.
-/

namespace SplFrontend.Text

open Reading

variable {ε α : Type} {cs : List Char}

/-- Skips the blanks after what was read. -/
def trimmed : Reading Char ε α cs → Reading Char ε α cs
  | ok a r h => ok a (skipBlanks r) (Nat.lt_of_le_of_lt (List.dropWhile_suffix _).length_le h)
  | fault e r h => fault e r h

/-- The same outcome with blanks in front of what it was read from. -/
def afterBlanks (x : Reading Char ε α (skipBlanks cs)) : Reading Char ε α cs :=
  x.within (List.dropWhile_suffix _).length_le

/-- Reads one given character and the blanks after it. -/
def mark (c : Char) (e : ε) : (cs : List Char) → Reading Char ε Unit cs
  | [] => stay e
  | d :: _ => if d = c then trimmed (take ()) else stay e

/-- Reads a given word, not an empty one, and the blanks after it. -/
def word (w : List Char) (e : ε) (cs : List Char) : Reading Char ε Unit cs :=
  if h : w <+: cs ∧ w ≠ [] then
    trimmed <| ok () (cs.drop w.length) <| by
      have h₁ := h.1.length_le
      have h₂ := List.length_pos_iff.2 h.2
      rw [List.length_drop]
      omega
  else stay e

end SplFrontend.Text
