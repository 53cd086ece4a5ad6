import SplFrontend.Proofs.Walk
import SplFrontend.Resolution

/-!
# Well-typed programs

Typing as a relation that is read off the tables of a module. It says nothing about how a type is
found, and it has no rule for what a resolved program must not hold: there is no type for a flat
sequence, for a call that is not bound, for a variable that refers to nothing and for an empty list
without a type.

* `Typing.Context.Refers` : the entry of the tables that a tagged variable stands for;
* `Visible.Designates` : the overload that a bound call stands for, by its place in the overload
  set;
* `HasType`, `HasTypes` : typed expressions and argument lists;
* `Place.Typed` : what the places of a block demand;
* `Resolved.WellTyped` : every body and every initializer is typed in the scope that the tables
  record.
-/

namespace SplFrontend

namespace Typing.Context

/-- The entry that a variable is tagged with has the type. An imported variable also names the
module and the name that its entry records. -/
inductive Refers (cx : Context) : Ref → Ty → Prop
  | own {name e} : cx.visible.own.globals.lookup name = some e → Refers cx (.own name) e.ty
  | imported {name e} : cx.visible.externals.globals.lookup name = some e →
      Refers cx (.imported e.module name e.exported) e.ty
  | localVar {name e s} : cx.fn = some s → s.locals.lookup name = some e →
      Refers cx (.localVar name) e.ty
  | argument {name e s} :
    cx.fn = some s → s.args.lookup name = some e → Refers cx (.argument name) e.ty

/-- What a declaration in the context declares: a local variable in a body, a global elsewhere. -/
def declaring (cx : Context) (name : String) : Ref :=
  match cx.fn with
  | some _ => .localVar name
  | none => .own name

/-- The variable carries the type of its entry, narrowed by its accessors. -/
def HasVar (cx : Context) (v : Variable) (t : Ty) : Prop :=
  ∃ declared, cx.Refers v.ref declared ∧ declared.narrow v.accessors = .ok t ∧ v.ty = some t

theorem Refers.declared_eq {cx : Context} {r : Ref} {t : Ty} (h : cx.Refers r t) :
    cx.declared r = some t := by
  cases h with
  | own he => simp [declared, he]
  | imported he => simp [declared, he]
  | localVar hs he => simp [declared, hs, he]
  | argument hs he => simp [declared, hs, he]

end Typing.Context

/-- The overload that a binding stands for. Without a module it is one of the module at hand, which
has no other name for it; with one it is an entry from elsewhere that records this module and this
name. -/
inductive Visible.Designates (v : Visible) (b : Binding) : Signature → Prop
  | own {o} : b.module = none → (v.own.overloads b.kind b.name)[b.index]? = some o →
      b.exported = b.name → v.Designates b o.sig
  | external {o} :
    b.module = some o.module → (v.externals.overloads b.kind b.name)[b.index]? = some o →
      b.exported = o.exported → v.Designates b o.sig

mutual

/-- Typed expressions. -/
inductive HasType (cx : Typing.Context) : Expr → Ty → Prop
  | int {n l} : HasType cx (.int n l) .int
  | char {c l} : HasType cx (.char c l) .char
  | bool {b l} : HasType cx (.bool b l) .bool
  | str {s l} : HasType cx (.str s l) (.list .char)
  | emptyList {elem l} : HasType cx (.emptyList (some (.list elem)) l) (.list elem)
  | pair {a b l t u} : HasType cx a t → HasType cx b u → HasType cx (.pair a b l) (.pair t u)
  | var {v t} : cx.HasVar v t → HasType cx (.var v) t
  | bound {b args l sig} : cx.visible.Designates b sig → HasTypes cx args sig.params →
      b.ty = sig.result → HasType cx (.bound b args l) b.ty

/-- Arguments of the given types, as many as there are types. -/
inductive HasTypes (cx : Typing.Context) : List Expr → List Ty → Prop
  | nil : HasTypes cx [] []
  | cons {a as t ts} : HasType cx a t → HasTypes cx as ts → HasTypes cx (a :: as) (t :: ts)

end

/-- What typing demands at a place: initializers and assigned values have the type of the variable,
conditions are Boolean, a loop runs over a list of the type of its variable, and a return statement
has a value of the result type exactly if there is one. -/
def Place.Typed (cx : Typing.Context) : Place → Prop
  | .decl d => ∃ t, d.ty = some t ∧ cx.Refers (cx.declaring d.name) t ∧ HasType cx d.init t
  | .assign v e => ∃ t, cx.HasVar v t ∧ HasType cx e t
  | .guard e => HasType cx e .bool
  | .each v e => ∃ t, cx.HasVar v t ∧ HasType cx e (.list t)
  | .ret _ (some e) => ∃ s, cx.fn = some s ∧ s.result ≠ .void ∧ HasType cx e s.result
  | .ret _ none => ∃ s, cx.fn = some s ∧ s.result = .void
  | .call e => ∃ t, HasType cx e t

/-- The scope of the parameters, each with its type. -/
def FnDef.scope (f : FnDef) (sig : Signature) : Scope :=
  List.zipWith (fun p ty => (p.name, ⟨ty, p.loc⟩)) f.params sig.params

/-- The place of every declaration and statement in an item meets a demand, in the scope that the
table records for the item. -/
def Item.Meets (v : Visible) (index : Nat) (Φ : Typing.Context → Place → Prop) : Item → Prop
  | .synonym _ => True
  | .global d => Φ ⟨v, none⟩ (.decl d)
  | .fn f =>
    ∃ o, v.own.overloadForItem index = some o ∧ f.sig = some o.sig ∧ o.args = f.scope o.sig ∧
      Stmt.HoldsAll (Φ ⟨v, some ⟨o.args, o.locals, o.sig.result⟩⟩) f.body

/-- Every item of the program meets a demand. -/
def Program.Meets (v : Visible) (Φ : Typing.Context → Place → Prop) (p : Program) : Prop :=
  ∀ (i : Nat) (it : Item), p.items[i]? = some it → it.Meets v i Φ

/-- Every body and every initializer is typed, by the tables that the module was resolved to. -/
def Resolved.WellTyped (r : Resolved) : Prop := r.program.Meets ⟨r.table, r.externals⟩ Place.Typed

end SplFrontend
