import SplFrontend.Annotations
import SplFrontend.Builtins
import SplFrontend.Declarations
import SplFrontend.Flow
import SplFrontend.Imports
import SplFrontend.Options
import SplFrontend.Precedence
import SplFrontend.Program.Reading
import SplFrontend.Scoping
import SplFrontend.Typing

/-!
# Resolution

The passes in their order, with a barrier after each: a pass is only run on what the passes before
it have accepted. On failure all that was reported so far is the answer, warnings included.
-/

namespace SplFrontend

/-- A module that has passed all passes. -/
structure Resolved where
  program : Program
  table : ModuleTable
  externals : ExternalTable
  /-- The imported modules, each once, in the order of their first import. -/
  modules : List String
  warnings : List Diagnostic

/-- Records the reports of a pass and goes through the barrier after it. -/
def Sink.pass {α : Type} (s : Sink) (x : Noted α) : Except (List Diagnostic) (α × Sink) :=
  let s := s.pushAll x.notes
  match s.checkpoint with
  | (some ds, _) => .error ds
  | (none, s) => .ok (x.value, s)

/-- Expands the annotations of a module and fills its table. -/
def declareModule (externals : ExternalTable) (p : Program) (t : ModuleTable) :
    Noted (Program × ModuleTable) := do
  let (p, t) ← Annotations.normalise externals p t
  let t ← Declarations.collect externals p t
  return (p, t)

/-- Takes a program through all passes. -/
def resolve (p : Program) (headers : HeaderTexts) (o : Options) :
    Except (List Diagnostic) Resolved := do
  let (imported, s) ← (Sink.empty o.denyWarnings).pass
      (Imports.merge headers Builtin.table p.imports)
  let externals := imported.externals
  let ((p, t), s) ← s.pass (declareModule externals p { module := o.module })
  let ((p, t), s) ← s.pass (Scoping.resolve externals p t)
  let v : Visible := ⟨t, externals⟩
  let (p, s) ← s.pass (Precedence.resolve v p)
  let (p, s) ← s.pass (Typing.resolve v p)
  let ((), s) ← s.pass (Flow.program p)
  return ⟨p, t, externals, imported.modules, s.entries⟩

/-- Takes the text of a module through reading and all passes. -/
def compile (text : String) (headers : HeaderTexts) (o : Options) :
    Except (List Diagnostic) Resolved := do
  resolve (← Program.ofText text) headers o

end SplFrontend
