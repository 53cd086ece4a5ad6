import SplFrontend.Resolution

/-!
# Passes one at a time

A session holds the state that the passes share, so that they can be run one by one, in any order
and repeatedly, on programs that earlier passes have refused.
-/

namespace SplFrontend

/-- A step of a session. -/
inductive Step where
  | imports
  | builtins
  | annotations
  | declarations
  | scoping
  | precedence
  | typing
  | flow
  | resetTable
  | emit
  | checkpoint
deriving DecidableEq, Repr

/-- The state that the passes share. -/
structure Session where
  program : Program
  headers : HeaderTexts
  options : Options
  externals : ExternalTable
  table : ModuleTable
  sink : Sink

/-- What a step answers, besides the state that it leaves. -/
inductive StepAnswer where
  | nothing
  /-- The imported modules. -/
  | modules (names : List String)
  /-- The text of the module's header. -/
  | header (text : String)
  /-- The work may go on. -/
  | passed
  /-- The work must stop, with this many diagnostics handed out. -/
  | blocked (count : Nat)
deriving DecidableEq, Repr

namespace Session

/-- A session on a program, with nothing known yet. -/
def start (p : Program) (headers : HeaderTexts) (o : Options) : Session where
  program := p
  headers := headers
  options := o
  externals := {}
  table := { module := o.module }
  sink := .empty o.denyWarnings

/-- What the module sees. -/
def visible (s : Session) : Visible := ⟨s.table, s.externals⟩

/-- Records reports. -/
def record (s : Session) (notes : List Diagnostic) : Session :=
  { s with sink := s.sink.pushAll notes }

/-- Runs one step. The middle answer is what it reports. -/
def step (s : Session) : Step → StepAnswer × List Diagnostic × Session
  | .imports =>
    let r := Imports.merge s.headers Builtin.table s.program.imports
    (.modules r.value.modules, r.notes, { s with externals := r.value.externals }.record r.notes)
  | .builtins => (.nothing, [], { s with externals := Builtin.table })
  | .annotations =>
    let r := Annotations.normalise s.externals s.program s.table
    (.nothing, r.notes, { s with program := r.value.1, table := r.value.2 }.record r.notes)
  | .declarations =>
    let r := Declarations.collect s.externals s.program s.table
    (.nothing, r.notes, { s with table := r.value }.record r.notes)
  | .scoping =>
    let r := Scoping.resolve s.externals s.program s.table
    (.nothing, r.notes, { s with program := r.value.1, table := r.value.2 }.record r.notes)
  | .precedence =>
    let r := Precedence.resolve s.visible s.program
    (.nothing, r.notes, { s with program := r.value }.record r.notes)
  | .typing =>
    let r := Typing.resolve s.visible s.program
    (.nothing, r.notes, { s with program := r.value }.record r.notes)
  | .flow =>
    let r := Flow.program s.program
    (.nothing, r.notes, s.record r.notes)
  | .resetTable => (.nothing, [], { s with table := { module := s.options.module } })
  | .emit => (.header s.table.headerText, [], s)
  | .checkpoint =>
    match s.sink.checkpoint with
    | (some ds, sink) => (.blocked ds.length, [], { s with sink })
    | (none, sink) => (.passed, [], { s with sink })

end Session

end SplFrontend
