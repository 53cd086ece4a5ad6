import SplFrontend.Header
import SplFrontend.Symbols
import SplFrontend.Ty.Expansion

/-!
# Normal headers

Before a header is used its types are expanded: by its own synonyms, of which the last definition of
a name counts, and then by the built-in ones. An entry that does not expand is reported and dropped.
-/

namespace SplFrontend

/-- The entries with one definition a name: the last one, in the place of the first. -/
def latest (entries : List (String × Ty)) : List (String × Ty) :=
  entries.foldl (fun kept (name, ty) =>
    if kept.any (·.1 = name) then kept.map fun e => if e.1 = name then (name, ty) else e
    else kept ++ [(name, ty)]) []

/-- The synonyms of an external table, for expansion. -/
def ExternalTable.synonymDefs (t : ExternalTable) : Synonyms :=
  t.synonyms.map fun (name, e) => (name, ⟨e.ty, true⟩)

/-- Expands every type of a signature, the parameters first. -/
def Signature.expand (env : Synonyms) (s : Signature) : Except ExpandFault Signature := do
  let params ← s.params.mapM (Ty.expand env)
  let result ← s.result.expand env
  return ⟨params, result⟩

/-- Keeps what expands. What does not is reported under the words that `what` gives it. -/
def keepExpanded {α β : Type} (module : String) (loc : Loc) (what : α → String)
    (f : α → Except ExpandFault β) : List α → Noted (List β)
  | [] => pure []
  | x :: xs =>
    match f x with
    | .ok y => do return y :: (← keepExpanded module loc what f xs)
    | .error why => do
      Noted.note ((Fault.headerEntry module (what x) why).report loc)
      keepExpanded module loc what f xs

namespace Header

/-- The definitions that the types of a header are expanded by. -/
def synonymDefs (h : Header) (builtins : ExternalTable) : Synonyms :=
  (latest h.synonyms).map (fun (name, ty) => (name, ⟨ty, true⟩)) ++ builtins.synonymDefs

/-- Expands every entry of a header. The reports stand at the import. -/
def normal (h : Header) (builtins : ExternalTable) (loc : Loc) : Noted Header := do
  let env := h.synonymDefs builtins
  let synonyms ← keepExpanded h.module loc (fun (name, _) => s!"synonym `{name}`")
    (fun (name, _) => do return (name, ← env.expansion name)) (latest h.synonyms)
  let globals ← keepExpanded h.module loc (fun (name, _) => s!"global `{name}`")
    (fun (name, ty) => do return (name, ← ty.expand env)) h.globals
  let functions ← keepExpanded h.module loc (fun f => s!"{f.kind.describe} `{f.name}`")
    (fun f => do return { f with sig := ← f.sig.expand env }) h.functions
  return { h with globals, synonyms, functions }

end Header

end SplFrontend
