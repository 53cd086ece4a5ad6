import SplFrontend.Token.Scan

/-!
# Texts as tokens

`Lexed.ofText` cuts a text into gaps, tokens and faults from front to back. Every lexeme takes at
least one character, so the rest is shorter each time. A text with faults has no token stream; all
its faults are reported.
-/

namespace SplFrontend

/-- A text cut into tokens and faults. -/
structure Lexed where
  tokens : List Token
  faults : List Diagnostic
  stop : Loc

namespace Lexed

/-- Puts what stands at `loc` in front. -/
def cons (loc : Loc) (chars : List Char) (s : Scanned) (rest : Lexed) : Lexed :=
  match s with
  | .gap => rest
  | .token k => { rest with tokens := ⟨k, loc⟩ :: rest.tokens }
  | .fault f offset =>
    { rest with faults := f.report (loc.advance (chars.take offset)) :: rest.faults }

/-- Cuts a text that begins at `loc`. -/
def ofChars (loc : Loc) : List Char → Lexed
  | [] => ⟨[], [], loc⟩
  | c :: cs =>
    let s := scan c cs
    cons loc (c :: cs) s.1 (ofChars (loc.advance (c :: cs.take s.2)) (cs.drop s.2))
termination_by cs => cs.length
decreasing_by simp only [List.length_drop, List.length_cons]; omega

/-- Cuts a text from its beginning. -/
def ofText (text : String) : Lexed := ofChars .start text.toList

end Lexed

/-- The tokens of a text, or all its lexical faults. -/
def lex (text : String) : Except (List Diagnostic) TokenStream :=
  let l := Lexed.ofText text
  if l.faults.isEmpty then .ok ⟨l.tokens, l.stop⟩ else .error l.faults

end SplFrontend
