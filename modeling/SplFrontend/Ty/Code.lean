import SplFrontend.Text.Quoted
import SplFrontend.Text.Reading
import SplFrontend.Ty

/-!
# The type code of headers

Headers write a type as a constructor with named fields:

    BASICTYPE(type_id="Int")
    TUPLETYPE(type1=T, type2=T)
    LISTTYPE(type=T)
    TYPESYN(type_id="Name")
    FUNTYPE(type_params=[T, ...], return_type=T)

Blanks may stand between any two tokens. A reader tries the four constructors of a type in turn, and
what the last of them misses is what is reported: a type that starts with none of the words, or
fails inside one of the first three, is reported as a missing word at its start.
-/

namespace SplFrontend

/-- What was missing in a type code. -/
inductive CodeMiss where
  | word
  | mark
  | name
  | stop
deriving DecidableEq, Repr

/-- The missing thing in the word that messages use. -/
def CodeMiss.label : CodeMiss → String
  | word => "Tag"
  | mark => "Char"
  | name => "TakeWhile1"
  | stop => "Eof"

/-- A type code that cannot be read: the whole text, what was missing, and what stands in its
place. -/
structure CodeFault where
  text : String
  miss : CodeMiss
  rest : List Char
deriving DecidableEq, Repr

/-- The fault in words. -/
def CodeFault.message (f : CodeFault) : String :=
  s!"malformed type expression `{f.text}`: Parsing Error: Error \x7b input: " ++
    Text.shown '"' f.rest ++ s!", code: {f.miss.label} \x7d"

/-! ## Writing -/

/-- The code of a type. -/
def Ty.code : Ty → String
  | .basic b => "BASICTYPE(type_id=\"" ++ b.name ++ "\")"
  | .pair a b => "TUPLETYPE(type1=" ++ a.code ++ ", type2=" ++ b.code ++ ")"
  | .list e => "LISTTYPE(type=" ++ e.code ++ ")"
  | .syn name => "TYPESYN(type_id=\"" ++ name ++ "\")"

/-- The code of a signature. -/
def Signature.code (s : Signature) : String :=
  "FUNTYPE(type_params=[" ++ ", ".intercalate (s.params.map Ty.code) ++ "], return_type=" ++
    s.result.code ++ ")"

/-! ## Reading -/

namespace TyCode

open Reading

variable {α : Type}

/-- The outcome of reading an `α` from a type code. -/
abbrev CodeReading (α : Type) (cs : List Char) : Type := Reading Char CodeMiss α cs

/-- May the character stand in a quoted name? -/
def isNameChar (c : Char) : Bool := c.isAlphanum || c == '_'

/-- The name that a quotation mark ends. -/
def nameTail : (cs : List Char) → CodeReading (List Char) cs
  | [] => stay .mark
  | c :: cs =>
    if isNameChar c then ((nameTail cs).map (c :: ·)).under
    else if c = '"' then Text.trimmed (take [])
    else stay .mark

/-- Reads a quoted name of one character or more. -/
def quotedName : (cs : List Char) → CodeReading String cs
  | '"' :: cs =>
    if (cs.head?.map isNameChar).getD false then ((nameTail cs).map String.ofList).under
    else (stay .name).under
  | _ => stay .mark

/-- Reads the name of a field and the mark after it. -/
def field (key : String) (cs : List Char) : CodeReading Unit cs :=
  (Text.word key.toList .word cs).bind fun _ r _ => Text.mark '=' .mark r

/-- Reads a constructor: a word, and its fields in brackets. -/
def constructed (w : String) (cs : List Char)
    (fields : (r : List Char) → r.length < cs.length → CodeReading α r) : CodeReading α cs :=
  (Text.word w.toList .word cs).bind fun _ r₁ h₁ =>
    (Text.mark '(' .mark r₁).bind fun _ r₂ h₂ =>
      (fields r₂ (by omega)).bind fun a r₃ _ => (Text.mark ')' .mark r₃).map fun _ => a

/-- Reads a basic type. -/
def basic (cs : List Char) : CodeReading Ty cs :=
  (constructed "BASICTYPE" cs fun r _ =>
    (field "type_id" r).bind fun _ r _ => quotedName r).filterMap
      (fun name => (Basic.ofName? name).map .basic) .word

/-- Reads a synonym. -/
def synonym (cs : List Char) : CodeReading Ty cs :=
  (constructed "TYPESYN" cs fun r _ =>
    (field "type_id" r).bind fun _ r _ => quotedName r).map .syn

/-- Reads a type. -/
def ty (cs : List Char) : CodeReading Ty cs :=
  (basic cs).orElse <|
    (constructed "TUPLETYPE" cs fun r _ =>
      (field "type1" r).bind fun _ r _ => (ty r).bind fun a r _ =>
        (Text.mark ',' .mark r).bind fun _ r _ => (field "type2" r).bind fun _ r _ =>
          (ty r).map fun b => .pair a b).orElse <|
      (constructed "LISTTYPE" cs fun r _ =>
        (field "type" r).bind fun _ r _ => (ty r).map .list).orElse <|
        synonym cs
termination_by cs.length
decreasing_by all_goals omega

/-- Reads what follows the first type of a list: a comma and a type, as often as both are there. -/
def moreTys (cs : List Char) : { p : List Ty × List Char // p.2.length ≤ cs.length } :=
  match cs with
  | ',' :: r =>
    match ty (Text.skipBlanks r) with
    | .ok t r' h =>
      have hr : r'.length < r.length := Nat.lt_of_lt_of_le h (List.dropWhile_suffix _).length_le
      let more := moreTys r'
      ⟨(t :: more.1.1, more.1.2), by have := more.2; simp only [List.length_cons]; omega⟩
    | .fault .. => ⟨([], ',' :: r), Nat.le_refl _⟩
  | cs => ⟨([], cs), Nat.le_refl _⟩
termination_by cs.length
decreasing_by simp only [List.length_cons]; omega

/-- Reads types with commas between, none if not even the first can be read. -/
def tys (cs : List Char) : { p : List Ty × List Char // p.2.length ≤ cs.length } :=
  match ty cs with
  | .ok t r h =>
    let more := moreTys r
    ⟨(t :: more.1.1, more.1.2), by have := more.2; simp only; omega⟩
  | .fault .. => ⟨([], cs), Nat.le_refl _⟩

/-- Reads a signature. -/
def signature (cs : List Char) : CodeReading Signature cs :=
  constructed "FUNTYPE" cs fun r _ =>
    (field "type_params" r).bind fun _ r _ => (Text.mark '[' .mark r).bind fun _ r _ =>
      let list := tys r
      (((Text.mark ']' .mark list.1.2).bind fun _ r _ => (Text.mark ',' .mark r).bind fun _ r _ =>
        (field "return_type" r).bind fun _ r _ =>
          (ty r).map fun result => ⟨list.1.1, result⟩).within list.2)

/-- Reads a whole text, with blanks before and after. -/
def whole (reader : (cs : List Char) → CodeReading α cs) (text : String) : Except CodeFault α :=
  match reader (Text.skipBlanks text.toList) with
  | .ok a [] _ => .ok a
  | .ok _ rest _ => .error ⟨text, .stop, rest⟩
  | .fault miss rest _ => .error ⟨text, miss, rest⟩

end TyCode

/-- The type that a code stands for. -/
def Ty.ofCode (text : String) : Except CodeFault Ty := TyCode.whole TyCode.ty text

/-- The signature that a code stands for. -/
def Signature.ofCode (text : String) : Except CodeFault Signature :=
  TyCode.whole TyCode.signature text

end SplFrontend
