import SplFrontend.Token.Reading

/-!
# Reading types

A type is a capitalised word, a pair in parentheses, or an element type in brackets. A signature is
any number of types, an arrow, and one more type.
-/

namespace SplFrontend

open Reading TokenReading

/-- Reads a type. A token that begins none is refused but taken. -/
def Ty.read (stop : Loc) : (ts : List Token) → TokenReading Ty ts
  | ⟨.typeName name, _⟩ :: _ => take (.ofName name)
  | ⟨.mark .lparen, _⟩ :: ts =>
    ((Ty.read stop ts).bind fun a r₁ _ =>
      (expect stop (.mark .comma) r₁).bind fun _ r₂ _ =>
        (Ty.read stop r₂).bind fun b r₃ _ =>
          (expect stop (.mark .rparen) r₃).map fun _ => .pair a b).under
  | ⟨.mark .lbracket, _⟩ :: ts =>
    ((Ty.read stop ts).bind fun a r _ =>
      (expect stop (.mark .rbracket) r).map fun _ => .list a).under
  | ts => skip stop (.unexpected .type (peek ts))
termination_by ts => ts.length
decreasing_by all_goals simp only [List.length_cons]; omega

/-- Reads a signature, from its first parameter type on. -/
def Signature.read (stop : Loc) : (ts : List Token) → TokenReading Signature ts
  | ⟨.mark .arrow, _⟩ :: ts => ((Ty.read stop ts).map fun t => ⟨[], t⟩).under
  | [] => leave stop (.missing (.mark .arrow) none)
  | t :: ts =>
    (Ty.read stop (t :: ts)).bind fun a r _ =>
      (Signature.read stop r).map fun s => { s with params := a :: s.params }
termination_by ts => ts.length
decreasing_by assumption

end SplFrontend
