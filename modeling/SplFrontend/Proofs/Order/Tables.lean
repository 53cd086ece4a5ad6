import SplFrontend.Proofs.Order.Contents
import SplFrontend.Proofs.Order.Lookups
import SplFrontend.Proofs.Order.Rearranged
import SplFrontend.Proofs.Reports

/-!
# The table of rearranged items

If the items of a module stand in another order, its table holds the same entries
(`ModuleTable.Rearranged`): the globals in the same order, the synonyms and the overloads in other
orders, and every overload with the new place of its item. What is refused in the one order is
refused in the other.
-/

namespace SplFrontend

/-- The overload of an item that has gone to another place. -/
def LocalOverload.move (π : Nat → Nat) (o : LocalOverload) : LocalOverload :=
  { o with item := π o.item }

/-- The entries of the one table in the other, where items have gone to other places. -/
structure ModuleTable.Rearranged (π : Nat ≃ Nat) (t t' : ModuleTable) : Prop where
  module : t'.module = t.module
  globals : t'.globals = t.globals
  synonyms : t'.synonyms.Perm t.synonyms
  names : (t'.functions.map Prod.fst).Perm (t.functions.map Prod.fst)
  overloads : ∀ kind name, (t'.overloads kind name).Perm ((t.overloads kind name).map (.move π))

/-! ## Overload sets -/

namespace Callables

variable {α : Type} {fs : Callables α}

theorem Keyed.mem_names (h : fs.Keyed) {key : CallKind × String} :
    key ∈ fs.map Prod.fst ↔ fs.get key.1 key.2 ≠ [] := by
  constructor
  · intro hkey
    obtain ⟨x, hx, rfl⟩ := List.mem_map.1 hkey
    rw [get_of_mem h hx]
    exact h.nonempty x hx
  · intro hne
    by_contra hkey
    rw [get, lookup_eq_none_iff_not_mem.2 hkey] at hne
    exact hne rfl

theorem Keyed.all_eq (h : fs.Keyed) :
    fs.all = (fs.map Prod.fst).flatMap fun key => fs.get key.1 key.2 := by
  rw [all, List.flatMap_map, List.flatMap_def, List.flatMap_def]
  exact congrArg List.flatten (List.map_congr_left fun x hx => (get_of_mem h hx).symm)

theorem names_mapSets {β : Type} (g : CallKind × String → α → β) (fs : Callables α) :
    (fs.mapSets g).map Prod.fst = fs.map Prod.fst := by
  rw [Callables.mapSets, List.map_map]
  rfl

theorem Keyed.mapSets {β : Type} (h : fs.Keyed) (g : CallKind × String → α → β) :
    (fs.mapSets g).Keyed where
  nodup := by
    rw [names_mapSets]
    exact h.nodup
  nonempty x hx := by
    obtain ⟨y, hy, rfl⟩ := List.mem_map.1 hx
    simpa using h.nonempty y hy

end Callables

namespace ModuleTable

variable {π : Nat ≃ Nat} {t t' : ModuleTable}

theorem Placed.overloadForItem_eq_some (h : t.Placed) {i : Nat} {o : LocalOverload} :
    t.overloadForItem i = some o ↔ o ∈ t.functions.all ∧ o.item = i := by
  rw [overloadForItem]
  constructor
  · intro ho
    exact ⟨List.mem_of_find?_eq_some ho, by simpa using List.find?_some ho⟩
  · rintro ⟨ho, rfl⟩
    cases hfind : t.functions.all.find? fun x => x.item = o.item with
    | none => exact absurd (decide_eq_true rfl) (List.find?_eq_none.1 hfind o ho)
    | some x =>
      have hitem : x.item = o.item := by simpa using List.find?_some hfind
      rw [List.inj_on_of_nodup_map h (List.mem_of_find?_eq_some hfind) ho hitem]

theorem overloads_settle (locals : Nat → Option Scope) (t : ModuleTable) (kind : CallKind)
    (name : String) :
    (t.settle locals).overloads kind name = (t.overloads kind name).map fun o =>
      o.withLocals (locals o.item) :=
  Callables.get_mapSets (fun _ (o : LocalOverload) => o.withLocals (locals o.item))
    t.functions (kind, name)

theorem keyed_settle (h : t.functions.Keyed) (locals : Nat → Option Scope) :
    (t.settle locals).functions.Keyed :=
  h.mapSets fun _ (o : LocalOverload) => o.withLocals (locals o.item)

namespace Rearranged

theorem all (h : t.Rearranged π t') (ht : t.functions.Keyed) (ht' : t'.functions.Keyed) :
    t'.functions.all.Perm (t.functions.all.map (.move π)) := by
  rw [ht.all_eq, ht'.all_eq, List.map_flatMap]
  exact h.names.flatMap fun key _ => h.overloads key.1 key.2

/-- The overload of an item is that of the item at its new place. -/
theorem overloadForItem (h : t.Rearranged π t') (ht : t.functions.Keyed) (ht' : t'.functions.Keyed)
    (hp : t.Placed) (hp' : t'.Placed) (i : Nat) :
    t'.overloadForItem (π i) = (t.overloadForItem i).map (.move π) := by
  refine Option.ext fun o' => ?_
  rw [hp'.overloadForItem_eq_some, (h.all ht ht').mem_iff, List.mem_map, Option.map_eq_some_iff]
  simp only [hp.overloadForItem_eq_some]
  constructor
  · rintro ⟨⟨o, ho, rfl⟩, hi⟩
    exact ⟨o, ⟨ho, π.injective hi⟩, rfl⟩
  · rintro ⟨o, ⟨ho, rfl⟩, rfl⟩
    exact ⟨⟨o, ho, rfl⟩, rfl⟩

/-- The tables still correspond after the variables of bodies were entered alike. -/
theorem settle (h : t.Rearranged π t') {locals locals' : Nat → Option Scope}
    (hl : ∀ i, locals' (π i) = locals i) :
    (t.settle locals).Rearranged π (t'.settle locals') where
  module := h.module
  globals := h.globals
  synonyms := h.synonyms
  names := by
    rw [ModuleTable.settle, ModuleTable.settle, Callables.names_mapSets, Callables.names_mapSets]
    exact h.names
  overloads kind name := by
    have hmove : ∀ o : LocalOverload, (o.move π).withLocals (locals' (o.move π).item) =
        (o.withLocals (locals o.item)).move π := fun o => by
      rw [LocalOverload.move, hl]
      rfl
    have hperm := (h.overloads kind name).map fun o => o.withLocals (locals' o.item)
    simp only [List.map_map, Function.comp_def, hmove] at hperm
    rw [overloads_settle, overloads_settle, List.map_map]
    exact hperm

end Rearranged

end ModuleTable

/-! ## Filling the table -/

namespace Annotations

/-- The entry of a synonym. -/
def synonymEntry : Item → Option (String × Entry)
  | .synonym s => some (s.name, ⟨s.ty, s.loc⟩)
  | _ => none

theorem synonymsOf_eq (its : List Item) : synonymsOf its = its.filterMap synonymEntry := by
  induction its with
  | nil => rfl
  | cons it its ih => cases it <;> simp only [synonymsOf, synonymEntry, List.filterMap_cons, ih]

theorem synonymsOf_perm {its its' : List Item} (h : its'.Perm its) :
    (synonymsOf its').Perm (synonymsOf its) := by
  rw [synonymsOf_eq, synonymsOf_eq]
  exact h.filterMap _

variable {externals : ExternalTable} {t : ModuleTable} {its its' : List Item}

theorem Declarable.perm (h : Declarable externals [] its) (hp : its'.Perm its) :
    Declarable externals [] its' where
  foreign x hx := h.foreign x ((synonymsOf_perm hp).mem_iff.1 hx)
  nodup := ((synonymsOf_perm hp).map Prod.fst).nodup_iff.2 h.nodup

/-- An item is expanded alike whatever the order of the synonyms. -/
theorem item_perm (h : Declarable externals [] its) (hp : its'.Perm its) (t : ModuleTable) :
    item (withSynonyms t its') (environment externals t its') =
      item (withSynonyms t its) (environment externals t its) := by
  have hlookup :
      ∀ name, (withSynonyms t its').synonyms.lookup name =
        (withSynonyms t its).synonyms.lookup name :=
    lookup_perm (synonymsOf_perm hp) h.nodup
  funext it
  refine item_congr (fun name => ?_) hlookup it
  rw [lookup_synonymDefs, lookup_synonymDefs, hlookup]

theorem Expandable.perm (h : Expandable externals t its) (hp : its'.Perm its) :
    Expandable externals t its' where
  declarable := h.declarable.perm hp
  notes it hit := by
    rw [item_perm h.declarable hp]
    exact h.notes it (hp.mem_iff.1 hit)

theorem item_global {env : Synonyms} {it : Item} {d : VarDecl}
    (h : (item t env it).value = .global d) :
    ∃ e, it = .global e := by
  cases it with
  | global e => exact ⟨e, rfl⟩
  | synonym | fn => cases h

end Annotations

namespace Declarations

variable {i : Nat} {its : List Item} {t t' : ModuleTable}

theorem Fills.keyed (h : Fills i its t t') (ht : t.functions.Keyed) : t'.functions.Keyed := by
  induction h with
  | nil => exact ht
  | synonym _ ih | global _ _ _ ih => exact ih ht
  | fn _ _ _ _ ih => exact ih (ht.add _ _ _)

theorem overloadAt_move (π : Nat → Nat) (kind : CallKind) (name : String) (it : Item) (i : Nat) :
    overloadAt kind name (it, π i) = (overloadAt kind name (it, i)).map (.move π) := by
  cases it with
  | synonym | global => rfl
  | fn f =>
    rw [overloadAt, overloadAt]
    split
    · rw [Option.map_map]
      rfl
    · rfl

theorem overloadAt_moved {π : Nat ≃ Nat} {its' : List Item} (h : Moved π its its') (kind : CallKind)
    (name : String) :
    (its'.zipIdx.filterMap (overloadAt kind name)).Perm
      ((its.zipIdx.filterMap (overloadAt kind name)).map (.move π)) := by
  refine (h.zipIdx_perm.filterMap _).trans (.of_eq ?_)
  rw [List.filterMap_map, List.map_filterMap]
  exact List.filterMap_congr fun x _ => overloadAt_move π kind name x.1 x.2

theorem globalEntry_rearranged {π : Nat ≃ Nat} {its' : List Item} (h : Rearranged π its its') :
    its'.filterMap globalEntry = its.filterMap globalEntry := by
  refine h.filterMap_eq fun it b hb => ?_
  cases it with
  | global d => exact ⟨d, rfl⟩
  | synonym | fn => cases hb

theorem OneFixity.perm {externals : ExternalTable} {φ : String → Fixity} {its' : List Item}
    (h : OneFixity externals φ its) (hp : its'.Perm its) : OneFixity externals φ its' :=
  ⟨h.imported, fun f hf => h.own f (hp.mem_iff.1 hf)⟩

end Declarations

namespace Accepted

variable {π : Nat ≃ Nat} {externals : ExternalTable} {o : Options} {p p' : Program}
  {t t' : ModuleTable}

theorem keyed (h : Accepted externals o p t) : t.functions.Keyed :=
  h.fills.keyed ⟨List.nodup_nil, List.forall_mem_nil _⟩

theorem overloads (h : Accepted externals o p t) (kind : CallKind) (name : String) :
    t.overloads kind name = p.items.zipIdx.filterMap (Declarations.overloadAt kind name) :=
  h.fills.overloads kind name

theorem globals (h : Accepted externals o p t) :
    t.globals = p.items.filterMap Declarations.globalEntry :=
  h.fills.globals

/-- The declarations of a normal program are collected without a report. -/
theorem collect_eq (h : Accepted externals o p t) :
    Declarations.collect externals p (Annotations.withSynonyms (.start o) p.items) = pure t := by
  obtain ⟨φ, hφ⟩ := h.fixity
  have hfixities := Declarations.fixities_of_oneFixity p.items [] hφ nofun
  rw [Declarations.collect, h.fills.items_eq, hfixities, pure_bind, pure_bind]

theorem table_rearranged (h : Accepted externals o p t) (h' : Accepted externals o p' t')
    (hr : Rearranged π p.items p'.items) : t.Rearranged π t' := by
  have hoverloads :
      ∀ kind name, (t'.overloads kind name).Perm ((t.overloads kind name).map (.move π)) := by
    intro kind name
    rw [h.overloads, h'.overloads]
    exact Declarations.overloadAt_moved hr.moved kind name
  refine ⟨?_, ?_, ?_, ?_, hoverloads⟩
  · rw [h.fills.module_eq, h'.fills.module_eq]
    rfl
  · rw [h.globals, h'.globals, Declarations.globalEntry_rearranged hr]
  · rw [h.fills.synonyms_eq, h'.fills.synonyms_eq]
    exact Annotations.synonymsOf_perm hr.moved.perm
  · refine (List.perm_ext_iff_of_nodup h'.keyed.nodup h.keyed.nodup).2 fun key => ?_
    have hlength := (hoverloads key.1 key.2).length_eq
    rw [List.length_map] at hlength
    rw [h.keyed.mem_names, h'.keyed.mem_names, ← List.length_pos_iff, ← List.length_pos_iff]
    exact iff_of_eq (congrArg (0 < ·) hlength)

/-- The items of an accepted program are accepted in any order that the globals do not notice. -/
theorem rearranged (h : Accepted externals o p t) (hr : Rearranged π p.items p'.items) :
    ∃ t', Accepted externals o p' t' ∧ t.Rearranged π t' := by
  obtain ⟨φ, hφ⟩ := h.fixity
  have hperm := hr.moved.perm
  have hglobals : ((p'.items.filterMap Declarations.globalEntry).map Prod.fst).Nodup := by
    rw [Declarations.globalEntry_rearranged hr, ← h.globals]
    exact h.fills.nodup_globals List.nodup_nil
  have hapart :
      ∀ kind name, (p'.items.zipIdx.filterMap (Declarations.overloadAt kind name)).Pairwise
      fun o p => o.sig ≠ p.sig := by
    intro kind name
    have hmap :
        ((t.overloads kind name).map (LocalOverload.move π)).Pairwise fun o p => o.sig ≠ p.sig :=
      List.pairwise_map.2 (h.fills.apart (fun _ _ => .nil) kind name)
    rw [h.overloads] at hmap
    exact ((Declarations.overloadAt_moved hr.moved kind name).pairwise_iff fun hne => hne.symm).2
      hmap
  obtain ⟨t', hfills⟩ :=
    Declarations.exists_fills (i := 0) (t := Annotations.withSynonyms (.start o) p'.items)
    (fun it hit => h.normal.items it (hperm.mem_iff.1 hit)) hglobals hapart
  have h' : Accepted externals o p' t' :=
    ⟨⟨h.normal.declarable.perm hperm, fun it hit => h.normal.items it (hperm.mem_iff.1 hit)⟩,
      hfills, φ, hφ.perm hperm⟩
  exact ⟨t', h', h.table_rearranged h' hr⟩

end Accepted

/-- Rearranged items are declared as they are in order. -/
theorem declareModule_rearranged {π : Nat ≃ Nat} {externals : ExternalTable} {o : Options}
    {p p' : Program} (hext : ∀ x ∈ externals.synonyms, x.2.ty.Expanded)
    (hr : Rearranged π p.items p'.items)
    (h : ∀ d ∈ (declareModule externals p (.start o)).notes, NotError d) :
    (declareModule externals p' (.start o)).notes = [] ∧
      Rearranged π (declareModule externals p (.start o)).value.1.items
        (declareModule externals p' (.start o)).value.1.items ∧
      (declareModule externals p (.start o)).value.2.Rearranged π
        (declareModule externals p' (.start o)).value.2 := by
  have hnormalise := h
  simp only [declareModule, Noted.forall_notes_bind] at hnormalise
  have hexp := (Annotations.expandable_iff rfl).1 hnormalise.1
  have hexp' := hexp.perm hr.moved.perm
  have hnormalise' := (Annotations.expandable_iff (p := p') (t := .start o) rfl).2 hexp'
  have hitems : Rearranged π (Annotations.normalise externals p (.start o)).value.1.items
      (Annotations.normalise externals p' (.start o)).value.1.items := by
    rw [Annotations.value_normalise_of_declarable hexp.declarable rfl,
      Annotations.value_normalise_of_declarable hexp'.declarable rfl,
      Annotations.item_perm hexp.declarable hr.moved.perm]
    refine hr.of_moved (hr.moved.map _) fun {i d} hi => ?_
    obtain ⟨it, hit, heq⟩ := Option.map_eq_some_iff.1 ((List.getElem?_map ..).symm.trans hi)
    obtain ⟨e, rfl⟩ := Annotations.item_global heq
    exact ⟨e, hit⟩
  -- the expanded items are accepted in the other order, so there is a table for them, and declaring
  -- finds it
  obtain ⟨t', ha', ht⟩ := (accepted_of_notes hext h).rearranged hitems
  have hcollect := ha'.collect_eq
  rw [← (Annotations.normal_of_notes hext rfl hnormalise').2] at hcollect
  have hdeclare : declareModule externals p' (.start o) =
      ⟨((Annotations.normalise externals p' (.start o)).value.1, t'),
        (Annotations.normalise externals p' (.start o)).notes⟩ := by
    refine Noted.ext ?_ ?_
    · simp only [declareModule, Noted.value_bind, Noted.value_pure, hcollect]
    · simp only [declareModule, Noted.notes_bind, Noted.notes_pure, hcollect, List.append_nil]
  refine ⟨(strict_declareModule _ _ _).notes_eq_nil ?_, ?_, ?_⟩
  · rw [hdeclare]
    exact hnormalise'
  · rw [hdeclare]
    exact hitems
  · rw [hdeclare]
    exact ht

end SplFrontend
