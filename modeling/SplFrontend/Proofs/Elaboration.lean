import Mathlib.Data.List.Forall2
import SplFrontend.Proofs.Expansion
import SplFrontend.Proofs.Precedence.Trees
import SplFrontend.Proofs.Relabel

/-!
# Elaboration

What resolution makes of a program, apart from the marks that it leaves in the tree: annotations are
replaced by their expansions (`Ty.Expands`) and flat sequences by their trees (`Expr.Groups`); all
else stays, in its order and at its place. `Program.Maps A E` says this of whole programs, where the
relations `A` on annotations and `E` on expressions say what may change. Such descriptions compose,
and they determine the second program where the relations are functions.
-/

namespace SplFrontend

open Relator (RightUnique)

/-! ## Annotations -/

/-- The second type is the first one with every synonym replaced by the expansion of a definition
`D`. -/
inductive Ty.Expands (D : String → Ty → Prop) : Ty → Ty → Prop
  | basic {b} : Ty.Expands D (.basic b) (.basic b)
  | pair {a b a' b'} :
    Ty.Expands D a a' → Ty.Expands D b b' → Ty.Expands D (.pair a b) (.pair a' b')
  | list {e e'} : Ty.Expands D e e' → Ty.Expands D (.list e) (.list e')
  | syn {name t u} : D name t → Ty.Expands D t u → Ty.Expands D (.syn name) u

theorem Ty.Expands.rightUnique {D : String → Ty → Prop} (hD : RightUnique D) :
    RightUnique (Ty.Expands D) := by
  intro t u u' h h'
  induction h generalizing u' with
  | basic =>
    cases h'
    rfl
  | pair _ _ iha ihb =>
    cases h' with
    | pair ha hb => rw [iha ha, ihb hb]
  | list _ ih =>
    cases h' with
    | list he => rw [ih he]
  | syn hd _ ih =>
    cases h' with
    | syn hd' ht =>
      cases hD hd hd'
      exact ih ht

/-- Expansion by an environment replaces synonyms by its definitions. -/
theorem Ty.expands_of_expandIn {D : String → Ty → Prop} {env : Synonyms}
    (hD : ∀ {name d}, env.lookup name = some d → D name d.ty) (chain : List String) (t : Ty) :
    ∀ {u : Ty}, t.expandIn env chain = .ok u → t.Expands D u := by
  fun_induction expandIn env chain t with
  | case1 chain b =>
    intro u h
    cases h
    exact .basic
  | case2 chain a b iha ihb =>
    intro u h
    obtain ⟨a', ha, h⟩ := bind_eq_ok_iff.1 h
    obtain ⟨b', hb, h⟩ := bind_eq_ok_iff.1 h
    cases h
    exact .pair (iha ha) (ihb hb)
  | case3 chain e ih =>
    intro u h
    obtain ⟨e', he, h⟩ := bind_eq_ok_iff.1 h
    cases h
    exact .list (ih he)
  | case4 | case5 =>
    intro u h
    cases h
  | case6 chain name d hd _ ih => exact fun h => .syn (hD hd) (ih h)

/-- What a synonym stands for in a program: what the program or a module that it imports defines. -/
def Program.Defines (p : Program) (externals : ExternalTable) (name : String) (ty : Ty) : Prop :=
  (∃ loc, .synonym ⟨name, ty, loc⟩ ∈ p.items) ∨
    ∃ e, externals.synonyms.lookup name = some e ∧ e.ty = ty

/-! ## Sequences -/

mutual

/-- The second expression is the first one with every sequence replaced by its tree, under the
fixities `F`. -/
inductive Expr.Groups (F : String → Option Fixity) : Expr → Expr → Prop
  | int {n l} : Expr.Groups F (.int n l) (.int n l)
  | char {c l} : Expr.Groups F (.char c l) (.char c l)
  | bool {b l} : Expr.Groups F (.bool b l) (.bool b l)
  | str {s l} : Expr.Groups F (.str s l) (.str s l)
  | emptyList {ty l} : Expr.Groups F (.emptyList ty l) (.emptyList ty l)
  | var {v} : Expr.Groups F (.var v) (.var v)
  | pair {a b a' b' l} : Expr.Groups F a a' → Expr.Groups F b b' →
      Expr.Groups F (.pair a b l) (.pair a' b' l)
  | call {kind name as as' l} : Expr.GroupsArgs F as as' →
      Expr.Groups F (.call kind name as l) (.call kind name as' l)
  | bound {b as as' l} : Expr.GroupsArgs F as as' → Expr.Groups F (.bound b as l) (.bound b as' l)
  | flat {e rest l e' os} {t : Precedence.OpTree} : Expr.Groups F e e' → Expr.GroupsRest F rest os →
      t.Reads e' os → t.Grouped → Expr.Groups F (.flat e rest l) t.toExpr

/-- Arguments, one by one. -/
inductive Expr.GroupsArgs (F : String → Option Fixity) : List Expr → List Expr → Prop
  | nil : Expr.GroupsArgs F [] []
  | cons {e e' es es'} : Expr.Groups F e e' → Expr.GroupsArgs F es es' →
      Expr.GroupsArgs F (e :: es) (e' :: es')

/-- The operators of a sequence with their fixities, and its operands, one by one. -/
inductive Expr.GroupsRest (F : String → Option Fixity) :
    List (OpUse × Expr) → List Precedence.Operation → Prop
  | nil : Expr.GroupsRest F [] []
  | cons {op f e e' rest os} : F op.name = some f → Expr.Groups F e e' → Expr.GroupsRest F rest os →
      Expr.GroupsRest F ((op, e) :: rest) (⟨op, f, e'⟩ :: os)

end

section

variable {F : String → Option Fixity}

mutual

theorem Expr.Groups.unique : ∀ {e a b : Expr}, e.Groups F a → e.Groups F b → a = b
  | _, _, _, .int, .int | _, _, _, .char, .char | _, _, _, .bool, .bool | _, _, _, .str, .str
  | _, _, _, .emptyList, .emptyList | _, _, _, .var, .var => rfl
  | _, _, _, .pair ha hb, .pair ha' hb' => by rw [ha.unique ha', hb.unique hb']
  | _, _, _, .call h, .call h' => by rw [h.unique h']
  | _, _, _, .bound h, .bound h' => by rw [h.unique h']
  | _, _, _, .flat he hr ht hg, .flat he' hr' ht' hg' => by
    cases he.unique he'
    cases hr.unique hr'
    rw [hg.unique hg' (ht.1.trans ht'.1.symm) (ht.2.trans ht'.2.symm)]

theorem Expr.GroupsArgs.unique : ∀ {es as bs : List Expr}, Expr.GroupsArgs F es as →
    Expr.GroupsArgs F es bs → as = bs
  | _, _, _, .nil, .nil => rfl
  | _, _, _, .cons h hs, .cons h' hs' => by rw [h.unique h', hs.unique hs']

theorem Expr.GroupsRest.unique :
    ∀ {rest : List (OpUse × Expr)} {os os' : List Precedence.Operation},
    Expr.GroupsRest F rest os → Expr.GroupsRest F rest os' → os = os'
  | _, _, _, .nil, .nil => rfl
  | _, _, _, .cons hf h hs, .cons hf' h' hs' => by
    cases hf.symm.trans hf'
    rw [h.unique h', hs.unique hs']

end

theorem Expr.Groups.rightUnique : RightUnique (Expr.Groups F) := fun _ _ _ => Expr.Groups.unique

end

namespace Precedence

/-- The tree with other operands. -/
def OpTree.map (f : Expr → Expr) : OpTree → OpTree
  | operand e => operand (f e)
  | node op fixity l r => node op fixity (l.map f) (r.map f)

/-- The operation with another operand. -/
def Operation.map (f : Expr → Expr) (o : Operation) : Operation := { o with operand := f o.operand }

namespace OpTree

theorem first_map (f : Expr → Expr) : ∀ t : OpTree, (t.map f).first = f t.first
  | operand _ => rfl
  | node _ _ l _ => l.first_map f

theorem operations_map (f : Expr → Expr) :
    ∀ t : OpTree, (t.map f).operations = t.operations.map (.map f)
  | operand _ => rfl
  | node op fixity l r => by
    rw [map, operations, operations, operations_map f l, operations_map f r, first_map f r,
      List.map_append, List.map_cons]
    rfl

theorem Grouped.map {f : Expr → Expr} : ∀ {t : OpTree}, t.Grouped → (t.map f).Grouped
  | operand _, _ => trivial
  | node _ _ l r, h => by
    refine ⟨h.1.map, h.2.1.map, ?_, ?_⟩
    · rw [operations_map]
      intro i hi
      obtain ⟨j, hj, rfl⟩ := List.mem_map.1 hi
      exact h.2.2.1 j hj
    · rw [operations_map]
      intro i hi
      obtain ⟨j, hj, rfl⟩ := List.mem_map.1 hi
      exact h.2.2.2 j hj

theorem Reads.map {t : OpTree} {e : Expr} {os : List Operation} (h : t.Reads e os)
    (f : Expr → Expr) :
    (t.map f).Reads (f e) (os.map (.map f)) :=
  ⟨by rw [first_map, h.1], by rw [operations_map, h.2]⟩

theorem relabel_toExpr {g : Relabel} :
    ∀ t : OpTree, t.toExpr.relabel g = (t.map (Expr.relabel g)).toExpr
  | operand _ => rfl
  | node _ _ l r => by
    simp only [toExpr, map, Expr.relabel, Expr.relabelArgs, relabel_toExpr l, relabel_toExpr r]

end OpTree

end Precedence

section

variable {F : String → Option Fixity} {g : Relabel}

mutual

theorem Expr.Groups.relabel : ∀ {e e' : Expr}, e.Groups F e' → (e.relabel g).Groups F (e'.relabel g)
  | _, _, .int => .int
  | _, _, .char => .char
  | _, _, .bool => .bool
  | _, _, .str => .str
  | _, _, .emptyList => .emptyList
  | _, _, .var => .var
  | _, _, .pair ha hb => .pair ha.relabel hb.relabel
  | _, _, .call h => .call h.relabel
  | _, _, .bound (b := b) h => by
    simp only [Expr.relabel, Relabel.call]
    cases g.bound b with
    | none => exact .call h.relabel
    | some b' => exact .bound h.relabel
  | _, _, .flat he hr ht hg => by
    rw [Precedence.OpTree.relabel_toExpr]
    exact .flat he.relabel hr.relabel (ht.map _) hg.map

theorem Expr.GroupsArgs.relabel : ∀ {es es' : List Expr}, Expr.GroupsArgs F es es' →
    Expr.GroupsArgs F (Expr.relabelArgs g es) (Expr.relabelArgs g es')
  | _, _, .nil => .nil
  | _, _, .cons h hs => .cons h.relabel hs.relabel

theorem Expr.GroupsRest.relabel : ∀ {rest : List (OpUse × Expr)} {os : List Precedence.Operation},
    Expr.GroupsRest F rest os →
    Expr.GroupsRest F (Expr.relabelRest g rest) (os.map (.map (Expr.relabel g)))
  | _, _, .nil => .nil
  | _, _, .cons hf h hs => .cons hf h.relabel hs.relabel

end

end

/-! ## What a pass may change -/

/-- A signature whose types are related one by one. -/
def Signature.Maps (A : Ty → Ty → Prop) (s s' : Signature) : Prop :=
  List.Forall₂ A s.params s'.params ∧ A s.result s'.result

/-- A place at which the annotation and the expressions are related, and all else is the same. -/
inductive Place.Maps (A : Ty → Ty → Prop) (E : Expr → Expr → Prop) : Place → Place → Prop
  | decl {name t t' e e' l} : Option.Rel A t t' → E e e' →
      Place.Maps A E (.decl ⟨name, t, e, l⟩) (.decl ⟨name, t', e', l⟩)
  | assign {v e e'} : E e e' → Place.Maps A E (.assign v e) (.assign v e')
  | guard {e e'} : E e e' → Place.Maps A E (.guard e) (.guard e')
  | each {v e e'} : E e e' → Place.Maps A E (.each v e) (.each v e')
  | ret {l e e'} : Option.Rel E e e' → Place.Maps A E (.ret l e) (.ret l e')
  | call {e e'} : E e e' → Place.Maps A E (.call e) (.call e')

/-- Two blocks of the same statements at the same places. -/
abbrev Stmt.MapsAll (A : Ty → Ty → Prop) (E : Expr → Expr → Prop) (b b' : List Stmt) : Prop :=
  Stmt.WalkAll Eq (fun _ p q _ => p.Maps A E q) () b b' ()

/-- An item in which annotations and expressions are related, and all else is the same. -/
inductive Item.Maps (A : Ty → Ty → Prop) (E : Expr → Expr → Prop) : Item → Item → Prop
  | synonym {name t t' l} : A t t' → Item.Maps A E (.synonym ⟨name, t, l⟩) (.synonym ⟨name, t', l⟩)
  | global {name t t' e e' l} : Option.Rel A t t' → E e e' →
      Item.Maps A E (.global ⟨name, t, e, l⟩) (.global ⟨name, t', e', l⟩)
  | fn {head name params s s' b b' l} : Option.Rel (Signature.Maps A) s s' → Stmt.MapsAll A E b b' →
      Item.Maps A E (.fn ⟨head, name, params, s, b, l⟩) (.fn ⟨head, name, params, s', b', l⟩)

/-- A program in which annotations and expressions are related, and all else is the same. -/
def Program.Maps (A : Ty → Ty → Prop) (E : Expr → Expr → Prop) (p q : Program) : Prop :=
  q.imports = p.imports ∧ List.Forall₂ (Item.Maps A E) p.items q.items

section

variable {A : Ty → Ty → Prop} {E : Expr → Expr → Prop}

theorem rightUnique_optionRel {α : Type} {R : α → α → Prop} (hR : RightUnique R) :
    RightUnique (Option.Rel R) := by
  rintro _ _ _ (h | _) (h' | _)
  · rw [hR h h']
  · rfl

theorem Signature.Maps.rightUnique (hA : RightUnique A) : RightUnique (Signature.Maps A) := by
  rintro s ⟨params, result⟩ s'' h h'
  cases hA.forall₂ h.1 h'.1
  cases hA h.2 h'.2
  rfl

theorem Place.Maps.rightUnique (hA : RightUnique A) (hE : RightUnique E) :
    RightUnique (Place.Maps A E) := by
  intro p q q' h h'
  cases h with
  | decl ht he =>
    cases h' with
    | decl ht' he' => rw [rightUnique_optionRel hA ht ht', hE he he']
  | assign he | guard he | each he | call he =>
    cases h'
    next he' => rw [hE he he']
  | ret he =>
    cases h' with
    | ret he' => rw [rightUnique_optionRel hE he he']

theorem Item.Maps.rightUnique (hA : RightUnique A) (hE : RightUnique E) :
    RightUnique (Item.Maps A E) := by
  intro i j k h h'
  cases h with
  | synonym ht =>
    cases h' with
    | synonym ht' => rw [hA ht ht']
  | global ht he =>
    cases h' with
    | global ht' he' => rw [rightUnique_optionRel hA ht ht', hE he he']
  | fn hs hb =>
    cases h' with
    | fn hs' hb' =>
      rw [rightUnique_optionRel (Signature.Maps.rightUnique hA) hs hs',
        hb.unique (fun ⟨_, _, hq⟩ ⟨_, _, hq'⟩ => Place.Maps.rightUnique hA hE hq hq') hb']

/-- Where the relations are functions, a program is related to one other program at most. -/
theorem Program.Maps.rightUnique (hA : RightUnique A) (hE : RightUnique E) :
    RightUnique (Program.Maps A E) := by
  rintro p ⟨imports, items⟩ r h h'
  cases h.1.trans h'.1.symm
  cases (Item.Maps.rightUnique hA hE).forall₂ h.2 h'.2
  rfl

end

theorem optionRel_eq {α : Type} (a : Option α) : Option.Rel Eq a a := by
  cases a with
  | none => exact .none
  | some a => exact .some rfl

section

variable {A : Ty → Ty → Prop} {E : Expr → Expr → Prop}

theorem optionRel_comp {α : Type} {R S T : α → α → Prop} (hT : ∀ {a b c}, R a b → S b c → T a c) :
    ∀ {a b c : Option α}, Option.Rel R a b → Option.Rel S b c → Option.Rel T a c
  | _, _, _, .none, .none => .none
  | _, _, _, .some h, .some h' => .some (hT h h')

/-- Changes of annotations, then changes of expressions. -/
theorem Place.Maps.trans {p q r : Place} (h : p.Maps A Eq q) (h' : q.Maps Eq E r) :
    p.Maps A E r := by
  cases h with
  | decl ht he =>
    cases h' with
    | decl ht' he' => exact .decl (optionRel_comp (fun h h' => h' ▸ h) ht ht') (he ▸ he')
  | assign he =>
    cases h' with
    | assign he' => exact .assign (he ▸ he')
  | guard he =>
    cases h' with
    | guard he' => exact .guard (he ▸ he')
  | each he =>
    cases h' with
    | each he' => exact .each (he ▸ he')
  | ret he =>
    cases h' with
    | ret he' => exact .ret (optionRel_comp (fun h h' => h ▸ h') he he')
  | call he =>
    cases h' with
    | call he' => exact .call (he ▸ he')

theorem Item.Maps.trans {i j k : Item} (h : i.Maps A Eq j) (h' : j.Maps Eq E k) : i.Maps A E k := by
  cases h with
  | synonym ht =>
    cases h' with
    | synonym ht' => exact .synonym (ht' ▸ ht)
  | global ht he =>
    cases h' with
    | global ht' he' => exact .global (optionRel_comp (fun h h' => h' ▸ h) ht ht') (he ▸ he')
  | fn hs hb =>
    cases h' with
    | fn hs' hb' =>
      refine .fn (optionRel_comp (fun {s s' s''} h h' => ?_) hs hs')
        ((hb.trans hb').map (f := fun _ => ()) ?_ ?_)
      · obtain ⟨params, result⟩ := s''
        cases List.forall₂_eq_eq_eq ▸ h'.1
        cases h'.2
        exact h
      · rintro l l' ⟨_, rfl, rfl⟩
        rfl
      · rintro s p q s' ⟨r, hpr, hrq⟩
        exact hpr.trans hrq

end

end SplFrontend
