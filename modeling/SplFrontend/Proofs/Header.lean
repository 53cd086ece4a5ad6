import SplFrontend.Header.Document
import SplFrontend.Proofs.Except
import SplFrontend.Proofs.Json
import SplFrontend.Proofs.TypeCode

/-!
# Headers are read back

The text of a header is a JSON document with texts in type code in it, so it is read back if the
document is, the entries of the document are, and every type is. What is left are the rules for
callables: an infix operator has a fixity, nothing else has one, and an operator has as many
parameters as its kind asks for.
-/

namespace SplFrontend

/-! ## Documents -/

theorem NamedCode.plain_toJson (e : NamedCode) : e.toJson.Plain := by
  simp [NamedCode.toJson, Json.Plain, Json.PlainMembers]

theorem NamedCode.ofJson?_toJson (e : NamedCode) : ofJson? e.toJson = some e := by
  simp [NamedCode.ofJson?, NamedCode.toJson, Json.fields?, Json.uniqueMember,
    Json.required, Json.text?]

-- There are few precedences, so what holds of their digits is found by trying them all.

theorem digits?_repr : ∀ n < 256, Json.digits? (.number n.repr) = some n := by
  decide +kernel

theorem isNumber_toDigits : ∀ n < 256, Json.isNumber (Nat.toDigits 10 n) = true ∧
    ∀ c ∈ Nat.toDigits 10 n, Json.isNumberChar c = true := by
  have hall : ∀ n < 256, Json.isNumber (Nat.toDigits 10 n) = true ∧
      (Nat.toDigits 10 n).all Json.isNumberChar = true := by decide +kernel
  intro n hn
  exact ⟨(hall n hn).1, List.all_eq_true.1 (hall n hn).2⟩

theorem precedenceOfJson?_repr (p : UInt8) : precedenceOfJson? (.number p.toNat.repr) = some p := by
  have hlt := p.toNat_lt
  rw [precedenceOfJson?, digits?_repr _ hlt, Option.bind_some, if_pos hlt]
  simp

theorem FnCode.plain_toJson (e : FnCode) : e.toJson.Plain := by
  obtain ⟨kind, name, precedence, assoc, constant, code⟩ := e
  cases precedence with
  | none =>
    cases assoc <;> cases constant <;> simp [FnCode.toJson, Json.Plain, Json.PlainMembers]
  | some p =>
    have hdigits := isNumber_toDigits _ p.toNat_lt
    cases assoc <;> cases constant <;> simpa [FnCode.toJson, Json.Plain, Json.PlainMembers]
      using hdigits

theorem FnCode.ofJson?_toJson (e : FnCode) : ofJson? e.toJson = some e := by
  obtain ⟨kind, name, precedence, assoc, constant, code⟩ := e
  cases precedence <;> cases assoc <;> cases constant <;>
    simp [FnCode.ofJson?, FnCode.toJson, Json.fields?, Json.uniqueMember, Json.required,
      Json.optional, Json.nullable, Json.text?, Json.bool?, Json.word?, precedenceOfJson?_repr]

theorem Json.plain_array {α : Type} {f : α → Json} (h : ∀ a, (f a).Plain) (as : List α) :
    (Json.array (as.map f)).Plain := by
  induction as with
  | nil => trivial
  | cons a as ih => exact ⟨h a, ih⟩

theorem Json.listOf_array {α : Type} {f : α → Json} {g : Json → Option α}
    (h : ∀ a, g (f a) = some a) (as : List α) : Json.listOf g (.array (as.map f)) = some as := by
  rw [Json.listOf, Json.array?, Option.bind_some]
  induction as with
  | nil => rfl
  | cons a as ih => simp only [List.map_cons, List.mapM_cons, h, ih]; rfl

namespace HeaderDocument

theorem plain_toJson (d : HeaderDocument) : d.toJson.Plain := by
  have hglobals := Json.plain_array NamedCode.plain_toJson d.globals
  have hsynonyms := Json.plain_array NamedCode.plain_toJson d.synonyms
  have hfunctions := Json.plain_array FnCode.plain_toJson d.functions
  exact ⟨rfl, trivial, rfl, hglobals, rfl, hsynonyms, rfl, hfunctions, trivial⟩

theorem ofJson?_toJson (d : HeaderDocument) : ofJson? d.toJson = some d := by
  have hglobals := Json.listOf_array NamedCode.ofJson?_toJson d.globals
  have hsynonyms := Json.listOf_array NamedCode.ofJson?_toJson d.synonyms
  have hfunctions := Json.listOf_array FnCode.ofJson?_toJson d.functions
  simp [ofJson?, toJson, Json.fields?, Json.uniqueMember, Json.required, Json.optional, Json.text?,
    hglobals, hsynonyms, hfunctions]

theorem parse_render (d : HeaderDocument) :
    (Json.parse? d.toJson.render).bind ofJson? = some d := by
  rw [Json.parse_render d.plain_toJson, Option.bind_some, ofJson?_toJson]

end HeaderDocument

/-! ## Entries -/

theorem NamedCode.decode_code (name : String) {t : Ty} (h : t.Codable) :
    decode ⟨name, t.code⟩ = .ok (name, t) := by
  rw [NamedCode.decode, Ty.ofCode_code h]

/-- The rules that the entry of a callable must keep. -/
structure HeaderFn.Regular (f : HeaderFn) : Prop where
  params : ∀ t ∈ f.sig.params, t.Codable
  result : f.sig.result.Codable
  arity : ∀ n ∈ f.kind.arity?, n = f.sig.params.length
  fixity : f.fixity.isSome = true ↔ f.kind = .infixOp

/-- The entry of a callable with its signature in type code. -/
def HeaderFn.encode (f : HeaderFn) : FnCode :=
  ⟨f.kind, f.name, f.fixity.map Fixity.precedence, f.fixity.map Fixity.assoc,
    f.constant, f.sig.code⟩

theorem HeaderFn.fixity_encode {f : HeaderFn} (h : f.Regular) : f.encode.fixity = .ok f.fixity := by
  have hfixity := h.fixity
  obtain ⟨kind, name, fixity, sig, constant⟩ := f
  cases kind <;> cases fixity <;> simp_all [encode, FnCode.fixity]

theorem HeaderFn.decode_encode {f : HeaderFn} (h : f.Regular) : f.encode.decode = .ok f := by
  have harity : f.kind.arity?.all (· = f.sig.params.length) = true := by
    rw [Option.all_eq_true]
    intro n hn
    exact decide_eq_true (h.arity n hn)
  rw [FnCode.decode, fixity_encode h]
  simp only [encode, Signature.ofCode_code h.params h.result, harity, if_true]

namespace Header

/-- The header with its types in type code. -/
def encode (h : Header) : HeaderDocument where
  module := h.module
  globals := h.globals.map fun (name, ty) => ⟨name, ty.code⟩
  synonyms := h.synonyms.map fun (name, ty) => ⟨name, ty.code⟩
  functions := h.functions.map HeaderFn.encode

/-- The header has a written form. -/
structure Regular (h : Header) : Prop where
  globals : ∀ x ∈ h.globals, x.2.Codable
  synonyms : ∀ x ∈ h.synonyms, x.2.Codable
  functions : ∀ f ∈ h.functions, f.Regular

theorem ofDocument_encode {h : Header} (hr : h.Regular) : ofDocument h.encode = .ok h := by
  have hglobals := mapM_map_eq_ok h.globals fun x hx => NamedCode.decode_code x.1 (hr.globals x hx)
  have hsynonyms :=
    mapM_map_eq_ok h.synonyms fun x hx => NamedCode.decode_code x.1 (hr.synonyms x hx)
  have hfunctions :=
    mapM_map_eq_ok h.functions fun f hf => HeaderFn.decode_encode (hr.functions f hf)
  simp only [ofDocument, encode, hglobals, hsynonyms, hfunctions]
  rfl

/-- A header is read back from its text. -/
theorem ofText_render {h : Header} (hr : h.Regular) : ofText h.encode.toJson.render = .ok h := by
  rw [ofText, HeaderDocument.parse_render]
  exact ofDocument_encode hr

end Header

end SplFrontend
