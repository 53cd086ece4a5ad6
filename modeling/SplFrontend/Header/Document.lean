import SplFrontend.Header
import SplFrontend.Json.Printing
import SplFrontend.Json.Reading
import SplFrontend.Symbols

/-!
# Header documents

The written form of a header: a JSON document in which a type stands as a text in type code. A
document has the right shape or not; whether its entries make sense is decided afterwards, globals
first, then synonyms, then callables, and the first fault counts.
-/

namespace SplFrontend

/-- The entry of a global or a synonym. -/
structure NamedCode where
  name : String
  code : String
deriving DecidableEq, Repr

/-- The entry of a callable. -/
structure FnCode where
  kind : CallKind
  name : String
  precedence : Option UInt8
  assoc : Option Assoc
  constant : Bool
  code : String
deriving DecidableEq, Repr

/-- A header with its types in type code. -/
structure HeaderDocument where
  module : String
  globals : List NamedCode
  synonyms : List NamedCode
  functions : List FnCode
deriving DecidableEq, Repr

/-! ## From and to JSON -/

/-- Reads the entry of a global or a synonym. -/
def NamedCode.ofJson? (v : Json) : Option NamedCode := do
  match ← v.fields? ["name", "type"] with
  | [name, code] => return ⟨← Json.required Json.text? name, ← Json.required Json.text? code⟩
  | _ => none

/-- Writes the entry of a global or a synonym. -/
def NamedCode.toJson (e : NamedCode) : Json :=
  .object [(some "name", .text e.name), (some "type", .text e.code)]

/-- Reads a precedence: plain digits, up to 255. -/
def precedenceOfJson? (v : Json) : Option UInt8 :=
  v.digits?.bind fun n => if n < 256 then some n.toUInt8 else none

namespace FnCode

/-- Reads the entry of a callable. -/
def ofJson? (v : Json) : Option FnCode := do
  match ← v.fields? ["namespace", "name", "fixity", "assoc", "constant", "type"] with
  | [kind, name, precedence, assoc, constant, code] =>
    return {
      kind := ← Json.required (fun v => v.word?.bind CallKind.ofWord?) kind
      name := ← Json.required Json.text? name
      precedence := ← Json.optional (Json.nullable precedenceOfJson?) none precedence
      assoc := ← Json.optional (Json.nullable fun v => v.word?.bind Assoc.ofWord?) none assoc
      constant := ← Json.optional Json.bool? false constant
      code := ← Json.required Json.text? code }
  | _ => none

/-- Writes the entry of a callable. What is missing or false is not written. -/
def toJson (e : FnCode) : Json :=
  .object <|
    [(some "namespace", .text e.kind.word), (some "name", .text e.name)] ++
    (match e.precedence with
      | some p => [(some "fixity", .number (toString p.toNat))]
      | none => []) ++
    (match e.assoc with
      | some a => [(some "assoc", .text a.word)]
      | none => []) ++
    (if e.constant then [(some "constant", .bool true)] else []) ++
    [(some "type", .text e.code)]

end FnCode

namespace HeaderDocument

/-- Reads a document. -/
def ofJson? (v : Json) : Option HeaderDocument := do
  match ← v.fields? ["module", "globals", "type_syns", "functions"] with
  | [module, globals, synonyms, functions] =>
    return {
      module := ← Json.required Json.text? module
      globals := ← Json.optional (Json.listOf NamedCode.ofJson?) [] globals
      synonyms := ← Json.optional (Json.listOf NamedCode.ofJson?) [] synonyms
      functions := ← Json.optional (Json.listOf FnCode.ofJson?) [] functions }
  | _ => none

/-- Writes a document. -/
def toJson (d : HeaderDocument) : Json :=
  .object
    [(some "module", .text d.module), (some "globals", .array (d.globals.map NamedCode.toJson)),
      (some "type_syns", .array (d.synonyms.map NamedCode.toJson)),
      (some "functions", .array (d.functions.map FnCode.toJson))]

end HeaderDocument

/-! ## From documents to headers -/

/-- Decodes the entry of a global or a synonym. -/
def NamedCode.decode (e : NamedCode) : Except HeaderFault (String × Ty) :=
  match Ty.ofCode e.code with
  | .ok t => .ok (e.name, t)
  | .error f => .error (.type f)

namespace FnCode

/-- The fixity of an entry: an infix operator must have both of its parts, and nothing else any. -/
def fixity (e : FnCode) : Except EntryFault (Option Fixity) :=
  match e.kind, e.precedence, e.assoc with
  | .infixOp, some p, some a => .ok (some ⟨a, p⟩)
  | .infixOp, _, _ => .error .noFixity
  | _, none, none => .ok none
  | _, _, _ => .error .strayFixity

/-- Decodes the entry of a callable. -/
def decode (e : FnCode) : Except HeaderFault HeaderFn :=
  match e.fixity with
  | .error why => .error (.entry e.name why)
  | .ok fixity =>
    match Signature.ofCode e.code with
    | .error f => .error (.type f)
    | .ok sig =>
      if e.kind.arity?.all (· = sig.params.length) then
        .ok ⟨e.kind, e.name, fixity, sig, e.constant⟩
      else .error (.entry e.name .arity)

end FnCode

namespace Header

/-- Decodes the types of a document. -/
def ofDocument (d : HeaderDocument) : Except HeaderFault Header := do
  let globals ← d.globals.mapM NamedCode.decode
  let synonyms ← d.synonyms.mapM NamedCode.decode
  let functions ← d.functions.mapM FnCode.decode
  return ⟨d.module, globals, synonyms, functions⟩

/-- The header that a text spells. -/
def ofText (text : String) : Except HeaderFault Header :=
  match (Json.parse? text).bind HeaderDocument.ofJson? with
  | some d => ofDocument d
  | none => .error .malformed

end Header

/-! ## From symbol tables to documents -/

namespace ModuleTable

/-- What the module exports: every global, every synonym and every overload, in order. -/
def document (t : ModuleTable) : HeaderDocument where
  module := t.module
  globals := t.globals.map fun (name, e) => ⟨name, e.ty.code⟩
  synonyms := t.synonyms.map fun (name, e) => ⟨name, e.ty.code⟩
  functions := t.functions.entries.map fun (kind, name, o) =>
    ⟨kind, name, o.fixity.map Fixity.precedence, o.fixity.map Fixity.assoc, false, o.sig.code⟩

/-- The text of the module's header. -/
def headerText (t : ModuleTable) : String := t.document.toJson.render

end ModuleTable

end SplFrontend
