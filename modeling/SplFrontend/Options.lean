import SplFrontend.Json.Reading

/-!
# Options

The options of a run and their written form, a JSON document in which every field may be missing.
-/

namespace SplFrontend

/-- The options of a run. -/
structure Options where
  /-- The name of the module at hand, which its header records. -/
  module : String := "main"
  /-- The directories that are searched for headers, in order. -/
  headerDirs : List String := ["."]
  /-- The extension of header files. -/
  headerExtension : String := "splh"
  /-- Does a warning stop the work like an error? -/
  denyWarnings : Bool := false
deriving DecidableEq, Repr

namespace Options

/-- Adds a directory in front of the others. -/
def withHeaderDir (o : Options) (dir : String) : Options :=
  { o with headerDirs := dir :: o.headerDirs }

/-- Reads options. -/
def ofJson? (v : Json) : Option Options := do
  match ← v.fields? ["module", "header_dirs", "header_extension", "warnings_as_errors"] with
  | [module, dirs, extension, deny] =>
    return {
      module := ← Json.optional Json.text? "main" module
      headerDirs := ← Json.optional (Json.listOf Json.text?) ["."] dirs
      headerExtension := ← Json.optional Json.text? "splh" extension
      denyWarnings := ← Json.optional Json.bool? false deny }
  | _ => none

/-- The options that a text spells. -/
def ofText? (text : String) : Option Options := (Json.parse? text).bind ofJson?

end Options

end SplFrontend
