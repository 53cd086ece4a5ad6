import SplFrontend.Resolution

/-!
# Several modules

Modules can be compiled one after the other, each against the headers of those before it.
-/

namespace SplFrontend

/-- The text of a module to compile. -/
structure Source where
  module : String
  text : String
  denyWarnings : Bool

/-- Enters the header of a module in the place of an earlier one, if there is one. -/
def HeaderTexts.put (headers : HeaderTexts) (module text : String) : HeaderTexts :=
  if (headers.lookup module).isSome then
    headers.map fun h => if h.1 = module then (module, text) else h
  else headers ++ [(module, text)]

/-- Compiles modules in order. A module that fails leaves the headers as they are. -/
def compileAll : HeaderTexts → List Source → List (Except (List Diagnostic) Resolved)
  | _, [] => []
  | headers, s :: ss =>
    let result := compile s.text headers { module := s.module, denyWarnings := s.denyWarnings }
    let headers := match result with
      | .ok r => headers.put s.module r.table.headerText
      | .error _ => headers
    result :: compileAll headers ss

end SplFrontend
