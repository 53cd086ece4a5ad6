import Mathlib.Data.List.Nodup
import SplFrontend.Proofs.Accepted
import SplFrontend.Proofs.Callables
import SplFrontend.Proofs.Header

/-!
# What a module exports

The table of a module as the modules that import it see it. A program without errors has a table
that can be written to a header and read back: its names are distinct, its types expanded, its
operators have their number of parameters, and every infix operator has one fixity. Recording the
variables of bodies does not change what is exported.
-/

namespace SplFrontend

theorem Ty.codable_of_expanded {t : Ty} (h : t.Expanded) : t.Codable := by
  induction t with
  | basic b => trivial
  | pair a b iha ihb => exact ⟨iha h.1, ihb h.2⟩
  | list e ih => exact ih h
  | syn name => exact absurd h id

namespace ModuleTable

/-- The overload as an importing module sees it. -/
def exported (module : String) (key : CallKind × String) (o : LocalOverload) : ExternalOverload :=
  ⟨o.sig, module, key.2, o.fixity, false⟩

/-- The table as an importing module sees it. -/
def exports (t : ModuleTable) : ExternalTable where
  globals := t.globals.map fun x => (x.1, ⟨t.module, x.1, x.2.ty⟩)
  synonyms := t.synonyms.map fun x => (x.1, ⟨t.module, x.1, x.2.ty⟩)
  functions := t.functions.mapSets (exported t.module)

theorem exports_setLocals (t : ModuleTable) (i : Nat) (locals : Scope) :
    (t.setLocals i locals).exports = t.exports := by
  have hfunctions := Callables.mapSets_updateFirst (exported t.module)
    (p := fun o => o.item = i) (f := fun o => { o with locals }) (fun _ _ => rfl) t.functions
  simp only [exports, setLocals, hfunctions]

end ModuleTable

namespace ExternalTable

/-- The header of a module that exports the table. -/
def header (module : String) (e : ExternalTable) : Header where
  module := module
  globals := e.globals.map fun x => (x.1, x.2.ty)
  synonyms := e.synonyms.map fun x => (x.1, x.2.ty)
  functions :=
  e.functions.entries.map fun x => ⟨x.1, x.2.1, x.2.2.fixity, x.2.2.sig, x.2.2.constant⟩

end ExternalTable

theorem ModuleTable.document_eq (t : ModuleTable) :
    t.document = (t.exports.header t.module).encode := by
  simp [document, exports, exported, ExternalTable.header, Header.encode, HeaderFn.encode,
    Callables.entries_mapSets, Function.comp_def]

/-! ## Tables that can be exported -/

/-- The overload fits its kind, and its fixity is the one of its name. -/
structure ExternalOverload.Fits (φ : String → Fixity) (module : String) (key : CallKind × String)
    (o : ExternalOverload) : Prop where
  own : o.module = module ∧ o.exported = key.2 ∧ o.constant = false
  params : ∀ t ∈ o.sig.params, t.Expanded
  result : o.sig.result.Expanded
  arity : ∀ n ∈ key.1.arity?, n = o.sig.params.length
  fixity : o.fixity = if key.1 = .infixOp then some (φ key.2) else none

/-- A table of names of one module under distinct names and with expanded types, in which `φ` gives
the fixity of every infix operator. -/
structure Exportable (φ : String → Fixity) (module : String) (e : ExternalTable) : Prop where
  globals : (e.globals.map Prod.fst).Nodup
  synonyms : (e.synonyms.map Prod.fst).Nodup
  names : ∀ x ∈ e.globals ++ e.synonyms, x.2 = ⟨module, x.1, x.2.ty⟩ ∧ x.2.ty.Expanded
  keyed : e.functions.Keyed
  sigs : ∀ x ∈ e.functions, (x.2.map ExternalOverload.sig).Nodup
  overloads : ∀ x ∈ e.functions, ∀ o ∈ x.2, o.Fits φ module x.1

namespace Exportable

variable {φ : String → Fixity} {module : String} {e : ExternalTable}

theorem addGlobal (h : Exportable φ module e) {name : String} {ty : Ty}
    (hname : e.globals.lookup name = none) (hty : ty.Expanded) :
    Exportable φ module { e with globals := e.globals ++ [(name, ⟨module, name, ty⟩)] } := by
  refine { h with globals := ?_, names := ?_ }
  · rw [List.map_append, List.map_singleton, ← List.concat_eq_append]
    exact h.globals.concat (lookup_eq_none_iff_not_mem.1 hname)
  · intro x hx
    simp only [List.append_assoc, List.mem_append, List.mem_singleton] at hx
    rcases hx with hx | rfl | hx
    · exact h.names x (List.mem_append_left _ hx)
    · exact ⟨rfl, hty⟩
    · exact h.names x (List.mem_append_right _ hx)

theorem addOverload (h : Exportable φ module e) {key : CallKind × String} {o : ExternalOverload}
    (ho : o.Fits φ module key) (hnew : ∀ p ∈ e.functions.get key.1 key.2, p.sig ≠ o.sig) :
    Exportable φ module { e with functions := e.functions.add key.1 key.2 o } := by
  refine { h with keyed := h.keyed.add key.1 key.2 o, sigs := ?_, overloads := ?_ }
  · intro x hx
    rcases Callables.mem_add hx with hx | rfl | ⟨set, hset, rfl⟩
    · exact h.sigs x hx
    · exact List.nodup_singleton _
    · have hget : e.functions.get key.1 key.2 = set := Callables.get_of_mem h.keyed hset
      rw [hget] at hnew
      rw [List.map_append, List.map_singleton, ← List.concat_eq_append]
      refine (h.sigs _ hset).concat fun hmem => ?_
      obtain ⟨p, hp, heq⟩ := List.mem_map.1 hmem
      exact hnew p hp heq
  · intro x hx p hp
    rcases Callables.mem_add hx with hx | rfl | ⟨set, hset, rfl⟩
    · exact h.overloads x hx p hp
    · rw [List.mem_singleton.1 hp]
      exact ho
    · rcases List.mem_append.1 hp with hp | hp
      · exact h.overloads _ hset p hp
      · rw [List.mem_singleton.1 hp]
        exact ho

/-- The header of an exportable table has a written form. -/
theorem regular_header (h : Exportable φ module e) : (e.header module).Regular := by
  refine ⟨?_, ?_, ?_⟩
  · intro x hx
    obtain ⟨y, hy, rfl⟩ := List.mem_map.1 hx
    exact Ty.codable_of_expanded (h.names y (List.mem_append_left _ hy)).2
  · intro x hx
    obtain ⟨y, hy, rfl⟩ := List.mem_map.1 hx
    exact Ty.codable_of_expanded (h.names y (List.mem_append_right _ hy)).2
  · intro f hf
    obtain ⟨⟨kind, name, o⟩, hx, rfl⟩ := List.mem_map.1 hf
    obtain ⟨set, hset, ho⟩ := Callables.mem_entries.1 hx
    have hfits := h.overloads _ hset o ho
    refine ⟨fun t ht => Ty.codable_of_expanded (hfits.params t ht),
      Ty.codable_of_expanded hfits.result, hfits.arity, ?_⟩
    rw [hfits.fixity]
    by_cases hkind : kind = .infixOp <;> simp [hkind]

end Exportable

namespace Declarations

variable {φ : String → Fixity}

theorem lookup_exports_globals (t : ModuleTable) (name : String) :
    t.exports.globals.lookup name = (t.globals.lookup name).map fun x =>
      ⟨t.module, name, x.ty⟩ := by
  rw [ModuleTable.exports]
  induction t.globals with
  | nil => rfl
  | cons x globals ih =>
    rw [List.map_cons, List.lookup_cons, List.lookup_cons, ih]
    by_cases hx : name = x.1
    · simp [hx]
    · simp [beq_eq_false_iff_ne.2 hx]

theorem exports_withGlobal (t : ModuleTable) (d : VarDecl) (ty : Ty) : (withGlobal t d ty).exports =
    { t.exports with globals := t.exports.globals ++ [(d.name, ⟨t.module, d.name, ty⟩)] } := by
  simp [ModuleTable.exports, withGlobal]

theorem exports_withCallable (t : ModuleTable) (f : FnDef) (o : LocalOverload) :
    (withCallable t f o).exports =
    { t.exports with
      functions :=
      t.exports.functions.add f.kind f.name
        (ModuleTable.exported t.module (f.kind, f.name) o) } := by
  simp [ModuleTable.exports, withCallable, Callables.mapSets_add]

theorem fits_overloadOf {f : FnDef} {sig : Signature} (hf : Annotations.NormalCallable f)
    (hsig : f.sig = some sig) (hφ : ∀ x, f.head = .infixOp x → φ f.name = x)
    (module : String) (i : Nat) :
    (ModuleTable.exported module (f.kind, f.name) (overloadOf f sig i)).Fits φ module
      (f.kind, f.name) := by
  obtain ⟨s, hs, hplain⟩ := hf.sig
  cases hs.symm.trans hsig
  refine ⟨⟨rfl, rfl, rfl⟩, fun t ht => (hplain.params t ht).1, hplain.result, ?_, ?_⟩
  · intro n hn
    exact (hf.arity n hn).trans hplain.length.symm
  · cases hhead : f.head with
    | function =>
      simp [ModuleTable.exported, overloadOf, FnDef.kind, hhead, Head.kind, Head.fixity?]
    | prefixOp =>
      simp [ModuleTable.exported, overloadOf, FnDef.kind, hhead, Head.kind, Head.fixity?]
    | infixOp x =>
      simp [ModuleTable.exported, overloadOf, FnDef.kind, hhead, Head.kind,
        Head.fixity?, hφ x hhead]

/-- Filling a table keeps it exportable. -/
theorem Fills.exportable {i : Nat} {its : List Item} {t t' : ModuleTable} (h : Fills i its t t')
    (hn : ∀ it ∈ its, Annotations.NormalItem it)
    (hφ : ∀ f, .fn f ∈ its → ∀ x, f.head = .infixOp x → φ f.name = x)
    (ht : Exportable φ t.module t.exports) : Exportable φ t.module t'.exports := by
  induction h with
  | nil => exact ht
  | synonym _ ih =>
    exact ih (fun it hit => hn it (List.mem_cons_of_mem _ hit))
      (fun f hf => hφ f (List.mem_cons_of_mem _ hf)) ht
  | @global i d ty rest t t' hty hname _ ih =>
    have hd : Annotations.PlainDecl d.ty := hn _ List.mem_cons_self
    obtain ⟨u, hu, hplain⟩ := hd
    cases hu.symm.trans hty
    refine ih (fun it hit => hn it (List.mem_cons_of_mem _ hit))
      (fun f hf => hφ f (List.mem_cons_of_mem _ hf)) ?_
    rw [exports_withGlobal]
    refine ht.addGlobal ?_ hplain.1
    rw [lookup_exports_globals, hname]
    rfl
  | @fn i f sig rest t t' hsig hlen hnew _ ih =>
    refine ih (fun it hit => hn it (List.mem_cons_of_mem _ hit))
      (fun f hf => hφ f (List.mem_cons_of_mem _ hf)) ?_
    rw [exports_withCallable]
    have hfits :=
      fits_overloadOf (hn _ List.mem_cons_self) hsig (hφ f List.mem_cons_self) t.module i
    refine ht.addOverload hfits fun p hp => ?_
    have hget := Callables.get_mapSets (ModuleTable.exported t.module) t.functions (f.kind, f.name)
    obtain ⟨o, ho, rfl⟩ := List.mem_map.1 (hget ▸ hp)
    exact hnew o ho

end Declarations

theorem Accepted.exportable {externals : ExternalTable} {o : Options} {p : Program}
    {t : ModuleTable} (h : Accepted externals o p t) :
    t.module = o.module ∧ ∃ φ, Exportable φ o.module t.exports ∧
      (∀ name x, externals.fixityOf name = some x → φ name = x) ∧
      ∀ x ∈ t.exports.synonyms, externals.synonyms.lookup x.1 = none := by
  obtain ⟨φ, hφ⟩ := h.fixity
  have hsynonyms : t.synonyms = Annotations.synonymsOf p.items := h.fills.synonyms_eq
  have hstart : Exportable φ o.module (Annotations.withSynonyms (.start o) p.items).exports := by
    refine ⟨List.nodup_nil, ?_, ?_, ⟨List.nodup_nil, nofun⟩, nofun, nofun⟩
    · have hnodup := h.normal.declarable.nodup
      rw [List.nil_append] at hnodup
      simpa [ModuleTable.exports, Annotations.withSynonyms, Function.comp_def] using hnodup
    · intro x hx
      obtain ⟨y, hy, rfl⟩ := List.mem_map.1 hx
      obtain ⟨s, hs, rfl⟩ := Annotations.exists_of_mem_synonymsOf hy
      exact ⟨rfl, (h.normal.items _ hs).1⟩
  refine ⟨h.fills.module_eq, φ, h.fills.exportable h.normal.items hφ.own hstart, hφ.imported, ?_⟩
  intro x hx
  obtain ⟨y, hy, rfl⟩ := List.mem_map.1 hx
  rw [hsynonyms] at hy
  exact h.normal.declarable.foreign y hy

theorem ModuleTable.overloads_exports (t : ModuleTable) (kind : CallKind) (name : String) :
    t.exports.overloads kind name = (t.overloads kind name).map (exported t.module (kind, name)) :=
  Callables.get_mapSets (exported t.module) t.functions (kind, name)

/-- The infix operators of a name have its fixity. -/
theorem Exportable.fixity_of_mem {φ : String → Fixity} {module : String} {t : ModuleTable}
    (h : Exportable φ module t.exports) {name : String} {o : LocalOverload}
    (ho : o ∈ t.overloads .infixOp name) :
    o.fixity = some (φ name) := by
  have hmem :
      ModuleTable.exported t.module (.infixOp, name) o ∈ t.exports.overloads .infixOp name := by
    rw [ModuleTable.overloads_exports]
    exact List.mem_map_of_mem ho
  obtain ⟨set, hset, hin⟩ := Callables.mem_entries.1 (ExternalTable.mem_entries_of_overloads hmem)
  exact (h.overloads _ hset _ hin).fixity

/-- A name without a fixity has no infix operators. -/
theorem Exportable.overloads_eq_nil {φ : String → Fixity} {module : String} {t : ModuleTable}
    (h : Exportable φ module t.exports) {name : String} (hname : t.fixityOf name = none) :
    t.overloads .infixOp name = [] := by
  rw [ModuleTable.fixityOf, List.findSome?_eq_none_iff] at hname
  rw [List.eq_nil_iff_forall_not_mem]
  intro o ho
  have hfixity := h.fixity_of_mem ho
  rw [hname o ho] at hfixity
  cases hfixity

theorem Scoping.Tags.exports_eq {externals : ExternalTable} {P : Diagnostic → Prop} {i : Nat}
    {its its' : List Item} {t t' : ModuleTable} (h : Tags externals P i its t its' t') :
    t'.module = t.module ∧ t'.exports = t.exports := by
  induction h with
  | nil => exact ⟨rfl, rfl⟩
  | synonym _ ih => exact ih
  | global _ _ ih => exact ih
  | fn _ _ _ ih => exact ⟨ih.1, ih.2.trans (ModuleTable.exports_setLocals ..)⟩

end SplFrontend
