import SplFrontend.Proofs.Elaboration.Types

/-!
# Interfaces

The interface of an item is what it says without places, without the body of a callable and without
the initializer of a global. What a module exports depends on the interfaces of its items and on its
imports, and on nothing else: the table that the passes fill is filled from interfaces, and what
they record of bodies is not exported. So the body of a callable can be changed without a new
header, and no client can tell.
-/

namespace SplFrontend

open Relator (RightUnique)

/-- What an item says besides its places, the body of a callable and the initializer of a global. -/
inductive Interface where
  | synonym (name : String) (ty : Ty)
  | global (name : String) (ty : Option Ty)
  | fn (head : Head) (name : String) (params : List String) (sig : Option Signature)
deriving DecidableEq, Repr

/-- The interface of an item. -/
def Item.interface : Item → Interface
  | .synonym s => .synonym s.name s.ty
  | .global d => .global d.name d.ty
  | .fn f => .fn f.head f.name (f.params.map Param.name) f.sig

/-- The interface of a program: its imports without their places, and the interfaces of its
items. -/
def Program.interface (p : Program) : List Import × List Interface :=
  (p.imports.map Import.unlocated, p.items.map Item.interface)

/-! ## Exports -/

namespace Interface

/-- The synonym that an item exports. -/
def synonym? (module : String) : Interface → Option (String × ExternalEntry)
  | .synonym name ty => some (name, ⟨module, name, ty⟩)
  | _ => none

/-- The exports of a module with the global or the callable of one more item. -/
def enter (module : String) (e : ExternalTable) : Interface → ExternalTable
  | .global name (some ty) => { e with globals := e.globals ++ [(name, ⟨module, name, ty⟩)] }
  | .fn head name _ (some sig) =>
    { e with functions := e.functions.add head.kind name ⟨sig, module, name, head.fixity?, false⟩ }
  | _ => e

/-- What a module exports, by the interfaces of its items. -/
def exports (module : String) (is : List Interface) : ExternalTable :=
  is.foldl (enter module) { synonyms := is.filterMap (synonym? module) }

end Interface

theorem Declarations.Fills.exports_eq {i : Nat} {its : List Item} {t t' : ModuleTable}
    (h : Fills i its t t') :
    t'.exports = (its.map Item.interface).foldl (Interface.enter t.module) t.exports := by
  induction h with
  | nil => rfl
  | synonym _ ih => exact ih
  | global hty _ _ ih =>
    rw [ih, exports_withGlobal]; simp [Item.interface, hty, Interface.enter, withGlobal]
  | fn hsig _ _ _ ih =>
    rw [ih, exports_withCallable]
    simp [Item.interface, hsig, Interface.enter, withCallable, ModuleTable.exported, overloadOf]

theorem Annotations.exports_withSynonyms (o : Options) (its : List Item) :
    (withSynonyms (.start o) its).exports =
      { synonyms := (its.map Item.interface).filterMap (Interface.synonym? o.module) } := by
  have hsynonyms :
      (synonymsOf its).map (fun x => (x.1, (⟨o.module, x.1, x.2.ty⟩ : ExternalEntry))) =
      (its.map Item.interface).filterMap (Interface.synonym? o.module) := by
    induction its with
    | nil => rfl
    | cons i its ih =>
      cases i with
      | synonym s => exact congrArg (_ :: ·) ih
      | global d | fn f => exact ih
  simp only [ModuleTable.exports, withSynonyms, hsynonyms, List.map_nil]
  rfl

namespace Accepted

variable {externals : ExternalTable} {o : Options} {p : Program} {t : ModuleTable}

theorem module_eq (h : Accepted externals o p t) : t.module = o.module := h.fills.module_eq

/-- An accepted module exports what the interfaces of its items say. -/
theorem exports_eq (h : Accepted externals o p t) :
    t.exports = Interface.exports o.module (p.items.map Item.interface) := by
  rw [h.fills.exports_eq, Annotations.exports_withSynonyms]
  rfl

end Accepted

theorem ModuleTable.headerText_of_exports {t t' : ModuleTable} (hmodule : t.module = t'.module)
    (hexports : t.exports = t'.exports) : t.headerText = t'.headerText := by
  rw [headerText, headerText, document_eq, document_eq, hmodule, hexports]

/-! ## Expansion -/

section

variable {A : Ty → Ty → Prop} {E : Expr → Expr → Prop}

/-- Where annotations are replaced by a function, equal interfaces stay equal. -/
theorem Item.Maps.interface_eq (hA : RightUnique A) {i i' j j' : Item} (hi : i.Maps A E i')
    (hj : j.Maps A E j') (h : i.interface = j.interface) : i'.interface = j'.interface := by
  cases hi with
  | synonym hty =>
    cases hj with
    | synonym hty' =>
      cases h
      rw [Item.interface, Item.interface, hA hty hty']
    | global _ _ | fn _ _ => cases h
  | global hty _ =>
    cases hj with
    | global hty' _ =>
      cases h
      rw [Item.interface, Item.interface, rightUnique_optionRel hA hty hty']
    | synonym _ | fn _ _ => cases h
  | fn hs _ =>
    cases hj with
    | fn hs' _ =>
      simp only [Item.interface, Interface.fn.injEq] at h ⊢
      obtain ⟨rfl, rfl, hparams, rfl⟩ := h
      exact ⟨rfl, rfl, hparams, rightUnique_optionRel (Signature.Maps.rightUnique hA) hs hs'⟩
    | synonym _ | global _ _ => cases h

theorem map_interface_of_maps (hA : RightUnique A) {is is' js js' : List Item}
    (hi : List.Forall₂ (Item.Maps A E) is is') (hj : List.Forall₂ (Item.Maps A E) js js')
    (h : is.map Item.interface = js.map Item.interface) :
    is'.map Item.interface = js'.map Item.interface := by
  induction hi generalizing js js' with
  | nil =>
    cases List.map_eq_nil_iff.1 h.symm
    cases hj
    rfl
  | cons hii' _ ih =>
    cases hj with
    | nil => cases h
    | cons hjj' hjs =>
      rw [List.map_cons, List.map_cons, List.cons.injEq] at h
      rw [List.map_cons, List.map_cons, hii'.interface_eq hA hjj' h.1, ih hjs h.2]

end

theorem Program.defines_iff (p : Program) (externals : ExternalTable) (name : String) (ty : Ty) :
    p.Defines externals name ty ↔ Interface.synonym name ty ∈ p.items.map Item.interface ∨
      ∃ e, externals.synonyms.lookup name = some e ∧ e.ty = ty := by
  refine or_congr_left ?_
  rw [List.mem_map]
  constructor
  · rintro ⟨loc, hmem⟩
    exact ⟨_, hmem, rfl⟩
  · rintro ⟨i, hmem, hi⟩
    cases i with
    | synonym s =>
      cases hi
      exact ⟨s.loc, hmem⟩
    | global d | fn f => cases hi

/-! ## Modules -/

section

variable {p q : Program} {headers : HeaderTexts} {o : Options}

theorem externals_of_interface (h : p.interface = q.interface) :
    (stages p headers o).externals = (stages q headers o).externals := by
  have himports := congrArg Prod.fst h
  have hplace (imports : List Import) : (Imports.merge headers Builtin.table imports).value =
      (Imports.merge headers Builtin.table (imports.map Import.unlocated)).value :=
    (Imports.merge_unlocated Builtin.sound imports).value.1
  rw [Stages.externals, Stages.externals, imported_stages, imported_stages, hplace p.imports,
    hplace q.imports]
  simp only [Program.interface] at himports
  rw [himports]

/-- Declaring a module without an error replaces its annotations by their expansions. -/
theorem maps_declared (h : ∀ d ∈ (stages p headers o).notes, NotError d) :
    RightUnique (p.Defines (stages p headers o).externals) ∧
      p.Maps (Ty.Expands (p.Defines (stages p headers o).externals)) Eq
        (stages p headers o).declared.value.1 := by
  obtain ⟨-, hdeclared, -⟩ := Stages.forall_notes.1 h
  rw [declared_stages] at hdeclared ⊢
  exact maps_declareModule expanded_externals hdeclared

/-- Programs with one interface export the same. -/
theorem exports_of_interface (h : p.interface = q.interface)
    (hp : ∀ d ∈ (stages p headers o).notes, NotError d)
    (hq : ∀ d ∈ (stages q headers o).notes, NotError d) :
    (stages p headers o).declared.value.2.exports =
      (stages q headers o).declared.value.2.exports := by
  have hitems : p.items.map Item.interface = q.items.map Item.interface := congrArg Prod.snd h
  have hdefines :
      p.Defines (stages p headers o).externals = q.Defines (stages q headers o).externals := by
    funext name ty
    rw [externals_of_interface h, eq_iff_iff, Program.defines_iff, Program.defines_iff, hitems]
  obtain ⟨-, hpmaps⟩ := maps_declared hp
  obtain ⟨hunique, hqmaps⟩ := maps_declared hq
  rw [hdefines] at hpmaps
  have hexpanded := map_interface_of_maps (Ty.Expands.rightUnique hunique) hpmaps.2 hqmaps.2 hitems
  rw [(accepted_declared hp).exports_eq, (accepted_declared hq).exports_eq, hexpanded]

/-- Scoping records the variables of bodies, which are not exported. -/
theorem headerText_tagged (h : ∀ d ∈ (stages p headers o).notes, NotError d) :
    (stages p headers o).tagged.value.2.headerText =
      (stages p headers o).declared.value.2.headerText := by
  obtain ⟨hmodule, hexports⟩ := (tags_declared h).exports_eq
  exact ModuleTable.headerText_of_exports hmodule hexports

end

/-- Separate compilation: two modules with the same interface, of which both pass all passes, have
the same header, so a client cannot tell against which of them it is compiled. -/
theorem headerText_of_interface {p q : Program} {headers : HeaderTexts} {o : Options}
    {r s : Resolved} (h : p.interface = q.interface) (hp : resolve p headers o = .ok r)
    (hq : resolve q headers o = .ok s) :
    r.table.headerText = s.table.headerText ∧
    ∀ (client name : String) (before after : HeaderTexts) (o' : Options),
      compile client (before ++ (name, r.table.headerText) :: after) o' =
        compile client (before ++ (name, s.table.headerText) :: after) o' := by
  obtain ⟨hpnotes, rfl⟩ := resolve_eq_ok_iff.1 hp
  obtain ⟨hqnotes, rfl⟩ := resolve_eq_ok_iff.1 hq
  have hperror : ∀ d ∈ (stages p headers o).notes, NotError d := fun d hd => (hpnotes d hd).1
  have hqerror : ∀ d ∈ (stages q headers o).notes, NotError d := fun d hd => (hqnotes d hd).1
  have hmodule :
      (stages p headers o).declared.value.2.module = (stages q headers o).declared.value.2.module :=
    (accepted_declared hperror).module_eq.trans (accepted_declared hqerror).module_eq.symm
  have hheader :
      (stages p headers o).tagged.value.2.headerText =
        (stages q headers o).tagged.value.2.headerText := by
    rw [headerText_tagged hperror, headerText_tagged hqerror]
    exact ModuleTable.headerText_of_exports hmodule (exports_of_interface h hperror hqerror)
  simp only [Stages.resolved]
  exact ⟨hheader, fun client name before after o' => by rw [hheader]⟩

/-- A module with a synonym, a global and a function. -/
def firstText : String := "type P = (Int, Bool); Int g = 1; f(x) :: P -> Int \x7b return g; \x7d"

/-- The same module with another initializer, another body, a local variable, and other places. -/
def revisedText : String :=
  "type P = (Int, Bool);  Int g = -2; f(x) :: P -> Int \x7b P y = x; return y.fst; \x7d"

theorem headerText_of_interface_revised : ∃ p q r s, Program.ofText firstText = .ok p ∧
    Program.ofText revisedText = .ok q ∧ p.interface = q.interface ∧
      resolve p [] { module := "m" } = .ok r ∧
    resolve q [] { module := "m" } = .ok s ∧ r.table.headerText = s.table.headerText := by
  have hfirst : (compile firstText [] { module := "m" }).isOk = true := by decide +kernel
  have hrevised : (compile revisedText [] { module := "m" }).isOk = true := by decide +kernel
  have hsame : (Program.ofText firstText).toOption.map Program.interface =
      (Program.ofText revisedText).toOption.map Program.interface := by decide +kernel
  obtain ⟨r, hr⟩ := isOk_iff.1 hfirst
  obtain ⟨s, hs⟩ := isOk_iff.1 hrevised
  obtain ⟨p, hp, hr⟩ := bind_eq_ok_iff.1 hr
  obtain ⟨q, hq, hs⟩ := bind_eq_ok_iff.1 hs
  rw [hp, hq] at hsame
  have hinterface : p.interface = q.interface := Option.some.inj hsame
  exact ⟨p, q, r, s, hp, hq, hinterface, hr, hs, (headerText_of_interface hinterface hr hs).1⟩

end SplFrontend
