import SplFrontend.Ty

/-!
# Accessors

A variable may be followed by accessors that reach into its value: `.fst` and `.snd` into a pair,
`.hd` and `.tl` into a list. `Ty.narrow` follows a chain of accessors through a type.
-/

namespace SplFrontend

/-- One step into the value of a variable. -/
inductive Accessor where
  | hd
  | tl
  | fst
  | snd
deriving DecidableEq, Repr

namespace Accessor

/-- The word after the dot. -/
def name : Accessor → String
  | hd => "hd"
  | tl => "tl"
  | fst => "fst"
  | snd => "snd"

/-- The accessor that a word after a dot names. -/
def ofName? : String → Option Accessor
  | "hd" => some hd
  | "tl" => some tl
  | "fst" => some fst
  | "snd" => some snd
  | _ => none

@[simp] theorem ofName?_name (a : Accessor) : ofName? a.name = some a := by
  cases a <;> rfl

/-- Does the accessor reach into a pair, rather than into a list? -/
def intoPair : Accessor → Bool
  | fst | snd => true
  | hd | tl => false

/-- The type that the accessor reaches, if it applies. -/
def reach : Accessor → Ty → Option Ty
  | fst, .pair a _ => some a
  | snd, .pair _ b => some b
  | hd, .list e => some e
  | tl, .list e => some (.list e)
  | _, _ => none

end Accessor

/-- Follows a chain of accessors. Fails with the first accessor that does not apply and the type
that it met. -/
def Ty.narrow : Ty → List Accessor → Except (Accessor × Ty) Ty
  | t, [] => .ok t
  | t, a :: as =>
    match a.reach t with
    | some u => u.narrow as
    | none => .error (a, t)

end SplFrontend
