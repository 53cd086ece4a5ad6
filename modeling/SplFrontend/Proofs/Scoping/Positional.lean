import SplFrontend.Proofs.Fixities
import SplFrontend.Proofs.Scoping.Events

/-!
# Scoping by position

What a name stands for in a body depends on what is declared before it, in whatever block, and on
nothing else of the body. Scoping carries this through nested blocks as a state; here it is said of
the list of events of an item (`Names.target`, `Names.reports`). For a module whose declarations are
accepted, scoping tags each use with what the events before it and the names around the item lead
to, and reports exactly the uses that lead nowhere, the variables that are declared twice, and those
that hide another name (`Scoping.resolve_positional`).
-/

namespace SplFrontend

/-! ## What names stand for -/

/-- What can be named at an item, besides the variables that it declares itself. -/
structure Names where
  params : List (String × Loc)
  globals : List (String × Loc)
  externals : ExternalTable
  /-- The error of a name that leads nowhere. -/
  missing : String → Fault

namespace Names

variable (n : Names) (before : List (String × Loc))

/-- What a name stands for after some declarations: a variable of the body, else a parameter, else a
global of the module, else an imported one. -/
def target (name : String) : Option Ref :=
  if (before.lookup name).isSome then some (.localVar name)
  else if (n.params.lookup name).isSome then some (.argument name)
  else if (n.globals.lookup name).isSome then some (.own name)
  else (n.externals.globals.lookup name).map fun e => .imported e.module name e.exported

/-- A use refers to what its name stands for, if it stands for something. -/
def tag : Event → Event
  | .use v => .use { v with ref := (n.target before v.ref.name).getD v.ref }
  | .decl name loc => .decl name loc

/-- The warning of a declaration that hides a parameter, or else a global of the module, or else an
imported one. -/
def hidden (name : String) (loc : Loc) : List Diagnostic :=
  match n.params.lookup name, n.globals.lookup name, n.externals.globals.lookup name with
  | some arg, _, _ => [(Fault.shadowsArg name).report loc [arg]]
  | none, some g, _ => [(Fault.shadowsGlobal name).report loc [g]]
  | none, none, some e => [(Fault.shadowsImported name e.module).report loc]
  | none, none, none => []

/-- What is reported of an event: a use that stands for nothing, or a variable that is declared
already, or else one that hides another name. -/
def reports : Event → List Diagnostic
  | .use v =>
    if (n.target before v.ref.name).isSome then [] else [(n.missing v.ref.name).report v.loc]
  | .decl name loc =>
    match before.lookup name with
    | some first => [(Fault.localTwice name).report loc [first]]
    | none => n.hidden name loc

end Names

/-- The globals that items declare. -/
def Item.globals (its : List Item) : List (String × Loc) :=
  its.filterMap fun it =>
    match it with
    | .global d => some (d.name, d.loc)
    | _ => none

namespace Item

variable (externals : ExternalTable) (its : List Item) (i : Nat)

/-- What can be named at the item at some place: in a function its parameters and all globals of the
module, in the initializer of a global those that are declared before. -/
def names : Item → Names
  | .fn f => ⟨f.params.map fun x => (x.name, x.loc), Item.globals its, externals, .undefinedVar⟩
  | _ => ⟨[], Item.globals (its.take i), externals, .undefinedGlobal⟩

/-- The warning of a global that hides an imported one. -/
def hidden : Item → List Diagnostic
  | .global d => (externals.globals.lookup d.name).toList.map fun e =>
      (Fault.globalShadows d.name e.exported e.module).report d.loc
  | _ => []

/-- The events of an item, with each use tagged by what is declared before it. -/
def taggedEvents (it : Item) : List Event :=
  it.events.mapIdx fun k x => (it.names externals its i).tag (Event.declared (it.events.take k)) x

/-- The reports of an item, event by event. -/
def nameReports (it : Item) : List Diagnostic :=
  it.hidden externals ++
    (it.events.mapIdx fun k x =>
      (it.names externals its i).reports (Event.declared (it.events.take k)) x).flatten

end Item

/-! ## One place -/

/-- The names in a scope, and where they are declared. -/
def Scope.outline (s : Scope) : List (String × Loc) := s.map fun x => (x.1, x.2.loc)

theorem Scope.lookup_outline (s : Scope) (name : String) :
    s.outline.lookup name = (s.lookup name).map Entry.loc :=
  lookup_map Entry.loc name

theorem Scope.isSome_lookup (s : Scope) (name : String) :
    (s.lookup name).isSome = (s.outline.lookup name).isSome := by
  rw [Scope.lookup_outline, Option.isSome_map]

/-- The scope finds each name at its first declaration. -/
def Scope.Tracks (s : Scope) (before : List (String × Loc)) : Prop :=
  ∀ name, s.outline.lookup name = before.lookup name

namespace Scoping

variable {t : ModuleTable} {externals : ExternalTable} {args s : Scope}
  {before : List (String × Loc)}

/-- What can be named in a body with these parameters. -/
def namesIn (t : ModuleTable) (externals : ExternalTable) (args : Scope) : Names :=
  ⟨args.outline, t.globals.outline, externals, .undefinedVar⟩

theorem inFunction_eq (h : s.Tracks before) (name : String) :
    inFunction t externals args s name = (namesIn t externals args).target before name := by
  simp only [inFunction, Names.target, namesIn, Scope.isSome_lookup, h name]
  rfl

/-- A variable without a tag is tagged with what its name leads to, or reported. -/
theorem tag_of_fresh {lookup : String → Option Ref} {missing : String → Fault} {v : Variable}
    (hv : Nodes.fresh.var v) : tag lookup missing v =
      ⟨{ v with ref := (lookup v.ref.name).getD v.ref },
        if (lookup v.ref.name).isSome then [] else [(missing v.ref.name).report v.loc]⟩ := by
  obtain ⟨ref, accessors, ty, loc⟩ := v
  obtain ⟨href, -⟩ := hv
  generalize ref.name = name at href
  subst href
  cases hl : lookup name <;> simp [tag, hl] <;> rfl

/-- Uses that are looked up as the names say are tagged and reported so. -/
theorem uses_positional {n : Names} {lookup : String → Option Ref}
    (hl : ∀ name, lookup name = n.target before name) {vs : List Variable}
    (hvs : ∀ v ∈ vs, Nodes.fresh.var v) :
    (vs.mapM (tag lookup n.missing)).value.map Event.use =
      Event.mapAfter n.tag before (vs.map .use) ∧
      (vs.mapM (tag lookup n.missing)).notes =
        (Event.mapAfter n.reports before (vs.map .use)).flatten := by
  rw [Noted.value_mapM, Noted.notes_mapM, Event.mapAfter_uses, Event.mapAfter_uses, List.map_map,
    List.flatMap_def]
  have htag : ∀ v ∈ vs, Event.use (tag lookup n.missing v).value = n.tag before (.use v) ∧
      (tag lookup n.missing v).notes = n.reports before (.use v) := fun v hv => by
    rw [tag_of_fresh (hvs v hv), hl]
    exact ⟨rfl, rfl⟩
  exact ⟨List.map_congr_left fun v hv => (htag v hv).1,
    congrArg List.flatten (List.map_congr_left fun v hv => (htag v hv).2)⟩

theorem notes_declare {d : VarDecl} {ty : Ty} (hty : d.ty = some ty) (h : s.Tracks before) :
    (declare t externals args s d).notes =
      (namesIn t externals args).reports before (.decl d.name d.loc) := by
  have hs := h d.name
  rw [Scope.lookup_outline] at hs
  simp only [declare, hty, Names.reports, ← hs]
  cases s.lookup d.name with
  | some first => rfl
  | none =>
    simp only [Option.map_none, Names.hidden, namesIn, Scope.lookup_outline]
    cases args.lookup d.name <;> cases t.globals.lookup d.name <;>
      cases externals.globals.lookup d.name <;> rfl

theorem tracks_declare {d : VarDecl} {ty : Ty} (hty : d.ty = some ty) (h : s.Tracks before) :
    (declare t externals args s d).value.Tracks (before ++ [(d.name, d.loc)]) := by
  intro name
  rw [value_declare, hty, List.lookup_append, ← h name]
  cases hs : s.lookup d.name with
  | none => rw [Scope.outline, List.map_append, List.lookup_append]; rfl
  | some first =>
    -- the first declaration stays
    have hfirst := s.lookup_outline d.name
    rw [hs] at hfirst
    by_cases hname : name = d.name
    · rw [hname, hfirst]
      rfl
    · rw [List.lookup_cons, beq_false_of_ne hname]
      exact Option.or_none.symm

variable (t externals args)

/-- The declaration at a place, if there is one, is reported and counts from there on. -/
theorem after_positional {p : Place} (hty : ∀ d ∈ p.decl?, ∃ ty, d.ty = some ty)
    (h : s.Tracks before) :
    (after t externals args s p).notes =
        (Event.mapAfter (namesIn t externals args).reports before p.declEvents).flatten ∧
      (after t externals args s p).value.Tracks (before ++ Event.declared p.declEvents) := by
  have hafter :
      after t externals args s p = p.decl?.elim (pure s) (declare t externals args s) := by
    cases p <;> rfl
  rw [hafter, Place.declEvents]
  cases hd : p.decl? with
  | none => exact ⟨rfl, by simpa [Event.declared] using h⟩
  | some d =>
    obtain ⟨ty, hty⟩ := hty d hd
    exact ⟨(notes_declare hty h).trans (List.append_nil _).symm, tracks_declare hty h⟩

theorem mapAfter_declEvents (n : Names) (p : Place) :
    Event.mapAfter n.tag before p.declEvents = p.declEvents := by
  rw [Place.declEvents]
  cases p.decl? <;> rfl

theorem declEvents_place (f : Variable → Noted Variable) (p : Place) :
    (place f p).value.declEvents = p.declEvents := by
  cases p with
  | ret l e => cases e <;> rfl
  | _ => rfl

/-- At a place every use is tagged by what is declared before the place, and the declaration there
counts after it. -/
theorem at_positional {p : Place} (hp : p.All .fresh) (hty : ∀ d ∈ p.decl?, ∃ ty, d.ty = some ty)
    (h : s.Tracks before) :
    let r := ((body t externals args).at p).run s
    r.value.1.events = Event.mapAfter (namesIn t externals args).tag before p.events ∧
      r.notes = (Event.mapAfter (namesIn t externals args).reports before p.events).flatten ∧
      r.value.2.Tracks (before ++ Event.declared p.events) := by
  have huses := uses_positional (n := namesIn t externals args) (inFunction_eq h) hp.var
  have hplace := uses_place (f := tagIn t externals args s) p
  have hvalue : (place (tagIn t externals args s) p).value.uses = _ := congrArg Noted.value hplace
  have hnotes := congrArg Noted.notes hplace
  rw [Noted.notes_map] at hnotes
  simp only [run_at, Noted.value_bind, Noted.notes_bind, Noted.value_pure, Noted.notes_pure,
    List.append_nil]
  -- the uses declare nothing, so the declaration at the place meets what was declared before the
  -- place
  rw [Place.events, Place.events, declEvents_place, hvalue, hnotes, Event.mapAfter_append,
    Event.mapAfter_append, Event.declared_append, Event.declared_uses, List.append_nil,
      List.nil_append, List.flatten_append,
    mapAfter_declEvents]
  have hafter := after_positional t externals args hty h
  exact ⟨congrArg (· ++ _) huses.1, congrArg₂ _ huses.2 hafter.1, hafter.2⟩

/-! ## Bodies -/

/-- From place to place what is declared before is carried along. -/
theorem mapM_positional : ∀ {ps : List Place}, (∀ p ∈ ps, p.All .fresh) →
    (∀ p ∈ ps, ∀ d ∈ p.decl?, ∃ ty, d.ty = some ty) →
      ∀ {s : Scope} {before : List (String × Loc)}, s.Tracks before →
    let r := (ps.mapM (body t externals args).at).run s
    r.value.1.flatMap Place.events =
        Event.mapAfter (namesIn t externals args).tag before (ps.flatMap Place.events) ∧
      r.notes =
        (Event.mapAfter (namesIn t externals args).reports before (ps.flatMap Place.events)).flatten
  | [], _, _, _, _, _ => ⟨rfl, rfl⟩
  | p :: ps, hp, hty, s, before, h => by
    rw [List.forall_mem_cons] at hp hty
    obtain ⟨hevents, hnotes, htracks⟩ := at_positional t externals args hp.1 hty.1 h
    obtain ⟨hevents', hnotes'⟩ := mapM_positional hp.2 hty.2 htracks
    simp only [List.mapM_cons, StateT.run_bind, StateT.run_pure, Noted.value_bind, Noted.notes_bind,
      Noted.value_pure, Noted.notes_pure, List.append_nil, List.flatMap_cons, Event.mapAfter_append,
        List.flatten_append]
    exact ⟨congrArg₂ _ hevents hevents', congrArg₂ _ hnotes hnotes'⟩

/-- In a body each use is tagged, and each event reported, by what is declared before it in whatever
block. -/
theorem body_positional {b : List Stmt} (hb : Stmt.HoldsAll (Place.All .fresh) b)
    (hty : Annotations.PlainLocals b) :
    let r := (Stmt.rewriteAll (body t externals args) b).run []
    let events := (Stmt.placesAll b).flatMap Place.events
    (Stmt.placesAll r.value.1).flatMap Place.events =
      Event.mapAfter (namesIn t externals args).tag [] events ∧
      r.notes = (Event.mapAfter (namesIn t externals args).reports [] events).flatten := by
  have hrun :=
    congrArg (fun x => StateT.run x []) (Stmt.placesAll_rewriteAll (body t externals args) b)
  simp only [StateT.run_map] at hrun
  have hplain : ∀ p ∈ Stmt.placesAll b, ∀ d ∈ p.decl?, ∃ ty, d.ty = some ty := by
    intro p hp d hd
    have hdecl := hty.forall_places p hp
    cases p with
    | decl d' =>
      cases hd
      obtain ⟨ty, hty, -⟩ := hdecl
      exact ⟨ty, hty⟩
    | _ => cases hd
  obtain ⟨hevents, hnotes⟩ := mapM_positional t externals args hb.forall_places hplain
    (fun _ => rfl : Scope.Tracks [] ([] : List (String × Loc)))
  rw [← hrun] at hevents hnotes
  exact ⟨hevents, (Noted.notes_map _ _).symm.trans hnotes⟩

end Scoping

/-! ## Items -/

section

variable {α : Type}

theorem isSome_findIdx?_eq (xs : List (String × α)) (name : String) :
    (xs.findIdx? fun x => x.1 = name).isSome = (xs.lookup name).isSome := by
  rw [Bool.eq_iff_iff, Option.isSome_iff_ne_none, Option.isSome_iff_ne_none, ne_eq, ne_eq,
    lookup_eq_none_iff_not_mem, List.findIdx?_eq_none_iff]
  simp

/-- A name is found before some place if it is there. -/
theorem any_findIdx?_append (xs ys : List (String × α)) (name : String) :
    ((xs ++ ys).findIdx? fun x => x.1 = name).any (· < xs.length) = (xs.lookup name).isSome := by
  rw [List.findIdx?_append, ← isSome_findIdx?_eq]
  cases hx : xs.findIdx? fun x => x.1 = name with
  | none =>
    cases ys.findIdx? fun x => x.1 = name with
    | none => rfl
    | some k => simp
  | some k =>
    obtain ⟨hlt, -⟩ := List.findIdx?_eq_some_iff_getElem.1 hx
    simp [hlt]

end

/-- The globals before a global, the global itself, and those after it. -/
theorem Item.globals_split {its : List Item} {i : Nat} {d : VarDecl}
    (hi : its[i]? = some (.global d)) :
    Item.globals its = Item.globals (its.take i) ++
      (d.name, d.loc) :: Item.globals (its.drop (i + 1)) := by
  obtain ⟨hlt, hget⟩ := List.getElem?_eq_some_iff.1 hi
  have hsplit := List.take_append_drop i its
  rw [List.drop_eq_getElem_cons hlt, hget] at hsplit
  conv_lhs => rw [← hsplit, Item.globals, List.filterMap_append]
  rfl

namespace Accepted

variable {externals : ExternalTable} {o : Options} {p : Program} {t : ModuleTable}

theorem outline_globals (h : Accepted externals o p t) :
    t.globals.outline = Item.globals p.items := by
  rw [Scope.outline, h.globals, Item.globals, List.map_filterMap]
  refine List.filterMap_congr fun it hit => ?_
  have hnormal := h.normal.items it hit
  cases it with
  | synonym | fn => rfl
  | global d =>
    obtain ⟨ty, hty, -⟩ := hnormal
    simp [Declarations.globalEntry, hty]

/-- The overload of a function has its parameters. -/
theorem names_fn (h : Accepted externals o p t) {i : Nat} {f : FnDef}
    (hi : p.items[i]? = some (.fn f)) :
    ∃ l, t.overloadForItem i = some l ∧
      Scoping.namesIn t externals l.args = (Item.fn f).names externals p.items i := by
  obtain ⟨sig, hsig, ho⟩ := h.overloadForItem hi
  have hf : Annotations.NormalCallable f := h.normal.items _ (List.mem_of_getElem? hi)
  have hargs :
      (Declarations.overloadOf f sig i).args.outline = f.params.map fun x => (x.name, x.loc) := by
    have hparams : (f.params.zip sig.params).map Prod.fst = f.params :=
      List.map_fst_zip (hf.signature hsig).length.ge
    rw [hf.args_overloadOf, Scope.outline, List.map_zipWith, ← List.map_uncurry_zip_eq_zipWith]
    conv_rhs => rw [← hparams, List.map_map]
    rfl
  refine ⟨_, ho, ?_⟩
  rw [Scoping.namesIn, hargs, h.outline_globals]
  rfl

theorem nodup_outline (h : Accepted externals o p t) :
    ((Item.globals p.items).map Prod.fst).Nodup := by
  rw [← h.outline_globals, Scope.outline, List.map_map]
  exact h.fills.nodup_globals List.nodup_nil

theorem globalIndex_eq (h : Accepted externals o p t) (name : String) :
    t.globalIndex name = (Item.globals p.items).findIdx? fun x => x.1 = name := by
  rw [← h.outline_globals, Scope.outline, List.findIdx?_map]
  rfl

/-- Before a global stand as many globals as its index says, so those with a smaller index are those
declared before. -/
theorem names_global (h : Accepted externals o p t) {i : Nat} {d : VarDecl}
    (hi : p.items[i]? = some (.global d)) (name : String) :
    Scoping.inGlobal t externals ((t.globalIndex d.name).getD t.globals.length) name =
      ((Item.global d).names externals p.items i).target [] name := by
  have hnew : d.name ∉ (Item.globals (p.items.take i)).map Prod.fst := by
    have hnodup := h.nodup_outline
    rw [Item.globals_split hi, List.map_append] at hnodup
    exact fun hmem => List.disjoint_of_nodup_append hnodup hmem List.mem_cons_self
  have hlimit : t.globalIndex d.name = some (Item.globals (p.items.take i)).length := by
    have hnone : (Item.globals (p.items.take i)).findIdx? (fun x => x.1 = d.name) = none :=
      List.findIdx?_eq_none_iff.2 fun x hx =>
        decide_eq_false fun heq => hnew (heq ▸ List.mem_map_of_mem hx)
    rw [h.globalIndex_eq, Item.globals_split hi, List.findIdx?_append, hnone, List.findIdx?_cons,
      if_pos (decide_eq_true rfl)]
    simp
  rw [hlimit, Option.getD_some, Scoping.inGlobal, h.globalIndex_eq, Item.globals_split hi,
    any_findIdx?_append]
  rfl

theorem hides_eq (h : Accepted externals o p t) {i : Nat} {d : VarDecl}
    (hi : p.items[i]? = some (.global d)) :
    Scoping.hides t externals d = (Item.global d).hidden externals := by
  have hmem : (d.name, d.loc) ∈ Item.globals p.items := by
    rw [Item.globals_split hi]
    exact List.mem_append_right _ List.mem_cons_self
  have hlookup := lookup_of_mem h.nodup_outline hmem
  rw [← h.outline_globals, Scope.lookup_outline] at hlookup
  obtain ⟨e, he, hloc⟩ := Option.map_eq_some_iff.1 hlookup
  rw [Scoping.hides, he, if_pos (by simp [hloc])]
  rfl

/-- Scoping of an item is scoping by position. -/
theorem itemAt_positional (h : Accepted externals o p t) {i : Nat} {it : Item}
    (hi : p.items[i]? = some it) (hit : it.All .fresh) :
    (Scoping.itemAt externals t i it).value.1.events = it.taggedEvents externals p.items i ∧
      (Scoping.itemAt externals t i it).notes = it.nameReports externals p.items i := by
  have htagged := Event.mapAfter_eq_mapIdx (it.names externals p.items i).tag [] it.events
  have hreports := Event.mapAfter_eq_mapIdx (it.names externals p.items i).reports [] it.events
  simp only [List.nil_append] at htagged hreports
  rw [Item.taggedEvents, Item.nameReports, ← htagged, ← hreports]
  cases it with
  | synonym s => exact ⟨rfl, rfl⟩
  | global d =>
    obtain ⟨hevents, hnotes⟩ := Scoping.uses_positional (h.names_global hi) (Expr.All.var hit)
    rw [← Scoping.uses_expr] at hevents hnotes
    simp only [Scoping.itemAt, Scoping.global_eq, Noted.value_bind, Noted.notes_bind,
      Noted.value_pure, Noted.notes_pure, List.append_nil, h.hides_eq hi]
    exact ⟨hevents, congrArg _ ((Noted.notes_map _ _).symm.trans hnotes)⟩
  | fn f =>
    obtain ⟨l, hl, hnames⟩ := h.names_fn hi
    have hplain : Annotations.PlainLocals f.body :=
      (h.normal.items _ (List.mem_of_getElem? hi)).locals
    obtain ⟨hevents, hnotes⟩ := Scoping.body_positional t externals l.args hit hplain
    rw [hnames] at hevents hnotes
    simp only [Scoping.itemAt, hl, Noted.value_bind, Noted.notes_bind, Noted.value_pure,
      Noted.notes_pure, List.append_nil]
    exact ⟨hevents, hnotes⟩

end Accepted

/-! ## Modules -/

namespace Annotations

variable {env : Synonyms} {t : ModuleTable}

theorem events_at (p : Place) : ((locals env).at p).value.events = p.events := by
  rw [value_at]
  cases p with
  | decl d =>
    simp only [value_decl]
    rfl
  | _ => rfl

theorem events_item (it : Item) : (item t env it).value.events = it.events := by
  cases it with
  | synonym s => rfl
  | global d => simp only [item, Noted.value_bind, Noted.value_pure, value_decl, Item.events]
  | fn f =>
    have hplaces := congrArg Noted.value (Stmt.placesAll_rewriteAll (locals env) f.body)
    rw [Noted.value_map, Noted.value_mapM] at hplaces
    simp only [item, Noted.value_bind, Noted.value_pure, value_callable, Item.events, hplaces,
      List.flatMap_map, events_at]

theorem globals_items (env : Synonyms) (t : ModuleTable) (its : List Item) :
    Item.globals (its.map fun it => (item t env it).value) = Item.globals its := by
  rw [Item.globals, List.filterMap_map]
  refine List.filterMap_congr fun it _ => ?_
  cases it with
  | synonym s | fn f => rfl
  | global d =>
    simp only [Function.comp_apply, item, Noted.value_bind, Noted.value_pure, value_decl]

theorem names_item (externals : ExternalTable) (its : List Item) (i : Nat) (it : Item) :
    (item t env it).value.names externals (its.map fun it => (item t env it).value) i =
      it.names externals its i := by
  have hall := globals_items env t its
  have htake := globals_items env t (its.take i)
  rw [List.map_take] at htake
  generalize (its.map fun it => (item t env it).value) = its' at hall htake ⊢
  cases it with
  | synonym s | global d => simp only [item, Noted.value_bind, Noted.value_pure, Item.names, htake]
  | fn f => simp only [item, Noted.value_bind, Noted.value_pure, value_callable, Item.names, hall]

theorem hidden_item (externals : ExternalTable) (it : Item) :
    (item t env it).value.hidden externals = it.hidden externals := by
  cases it with
  | synonym s | fn f => rfl
  | global d => simp only [item, Noted.value_bind, Noted.value_pure, value_decl, Item.hidden]

end Annotations

/-- Whatever depends on the events of the items and on what can be named at them is the same of the
declared program and of the program that was read. -/
theorem mapIdx_declareModule {α : Type} (g : List Event → Names → List Diagnostic → α)
    (externals : ExternalTable) (p : Program) (t : ModuleTable) :
    let its := (declareModule externals p t).value.1.items
    its.mapIdx (fun i it => g it.events (it.names externals its i) (it.hidden externals)) =
      p.items.mapIdx fun i it =>
        g it.events (it.names externals p.items i) (it.hidden externals) := by
  simp only [declareModule, Noted.value_bind, Noted.value_pure, Annotations.value_normalise]
  refine List.ext_getElem? fun i => ?_
  simp only [List.getElem?_mapIdx, List.getElem?_map, Option.map_map]
  refine Option.map_congr fun it _ => ?_
  simp only [Function.comp_apply, Annotations.events_item, Annotations.names_item,
    Annotations.hidden_item]

theorem fresh_declareModule {p : Program} (h : ∀ it ∈ p.items, it.All .fresh)
    (externals : ExternalTable) (t : ModuleTable) :
    ∀ it ∈ (declareModule externals p t).value.1.items, it.All .fresh := by
  simp only [declareModule, Noted.value_bind, Noted.value_pure,
    Annotations.value_normalise, List.mem_map]
  rintro _ ⟨it, hit, rfl⟩
  exact Annotations.all_item (h it hit)

/-- Scoping leaves tags and nothing else. -/
theorem Scoping.bare_resolve {p : Program} (h : ∀ it ∈ p.items, it.All .fresh)
    (externals : ExternalTable) (t : ModuleTable) : (resolve externals p t).value.1.bare = p := by
  simp only [resolve, Noted.value_bind, Noted.value_pure, Program.bare, Program.relabel, bare_items]
  rw [List.map_congr_left fun it hit => Item.bare_of_fresh (h it hit), List.map_id']

theorem Accepted.scoped_positional {externals : ExternalTable} {o : Options} {p : Program}
    {t : ModuleTable} (h : Accepted externals o p t) (hfresh : ∀ it ∈ p.items, it.All .fresh) :
    (Scoping.resolve externals p t).value.1.items.map Item.events =
        p.items.mapIdx (fun i it => it.taggedEvents externals p.items i) ∧
      (Scoping.resolve externals p t).notes =
        (p.items.mapIdx fun i it => it.nameReports externals p.items i).flatten := by
  have hitem :
      ∀ x ∈ p.items.zipIdx, (Scoping.itemAt externals t x.2 x.1).value.1.events = _ ∧ _ = _ :=
    fun x hx =>
      have hi := List.mk_mem_zipIdx_iff_getElem?.1 hx
      h.itemAt_positional hi (hfresh _ (List.mem_of_getElem? hi))
  rw [Scoping.resolve_eq h.placed, List.mapIdx_eq_zipIdx_map, List.mapIdx_eq_zipIdx_map,
    List.map_map, List.flatMap_def]
  exact ⟨List.map_congr_left fun x hx => (hitem x hx).1,
    congrArg List.flatten (List.map_congr_left fun x hx => (hitem x hx).2)⟩

/-- For a module that passes the barrier after its declarations, scoping is by position. Without the
tags the program is as before. In each item every use refers to what its name stands for by what is
declared before it, and the reports are those of the events, in their order. -/
theorem Scoping.resolve_positional {text : String} {headers : HeaderTexts} {o : Options}
    {p : Program} {imported : Imported} {declared : Program × ModuleTable} {s s' : Sink}
    (hp : Program.ofText text = .ok p)
    (himported : (Sink.empty o.denyWarnings).pass (Imports.merge headers Builtin.table p.imports) =
      .ok (imported, s))
        (hdeclared : s.pass (declareModule imported.externals p { module := o.module }) =
          .ok (declared, s')) :
    let r := Scoping.resolve imported.externals declared.1 declared.2
    r.value.1.bare = declared.1 ∧
      r.value.1.items.map Item.events =
        p.items.mapIdx (fun i it => it.taggedEvents imported.externals p.items i) ∧
      r.notes =
        (p.items.mapIdx fun i it => it.nameReports imported.externals p.items i).flatten := by
  obtain ⟨-, rfl, rfl⟩ := Sink.pass_eq_ok_iff.1 himported
  obtain ⟨hopen, rfl, -⟩ := Sink.pass_eq_ok_iff.1 hdeclared
  rw [Sink.pushAll_pushAll, Sink.open_pushAll, List.forall_mem_append] at hopen
  have hsound : (Imports.merge headers Builtin.table p.imports).value.externals.Sound :=
    (Imports.merge_unlocated Builtin.sound p.imports).value.2
  generalize (Imports.merge headers Builtin.table p.imports).value.externals = externals
    at hopen hsound ⊢
  have haccepted := accepted_of_notes hsound.expanded fun d hd => (hopen.2 d hd).1
  have hfresh := fresh_declareModule (Program.printable_of_ofText hp).2.all externals (.start o)
  obtain ⟨hevents, hnotes⟩ := haccepted.scoped_positional hfresh
  have htagged :=
    mapIdx_declareModule (fun es n _ => es.mapIdx fun k x => n.tag (Event.declared (es.take k)) x)
    externals p (.start o)
  have hreports := mapIdx_declareModule
    (fun es n hidden => hidden ++
      (es.mapIdx fun k x => n.reports (Event.declared (es.take k)) x).flatten)
    externals p (.start o)
  exact ⟨bare_resolve hfresh _ _, hevents.trans htagged,
    hnotes.trans (congrArg List.flatten hreports)⟩

/-- The initializer of `g` uses a global that is declared after it. In `f` the variable `y` is
declared in a loop, where its own initializer does not see it, is assigned after the loop, and is
declared once more; `x` hides the parameter that was used before. -/
def scopingSample : String :=
  "from lib import z; Int g = z + h; Int h = g; " ++
    "f(x) :: Int -> Int \x7b while (True) \x7b Int y = y + x; \x7d" ++
    "y = z; Int x = g; Int y = u; return x; \x7d"

theorem Scoping.resolve_positional_sample : ∃ p, Program.ofText scopingSample = .ok p ∧
    ∃ x, (Sink.empty false).pass (Imports.merge libHeaders Builtin.table p.imports) = .ok x ∧
    ∃ y, x.2.pass (declareModule x.1.externals p { module := "m" }) = .ok y ∧
      let r := Scoping.resolve x.1.externals y.1.1 y.1.2
      r.notes.map Diagnostic.code =
          [.undefinedGlobalVar, .undefinedVar, .shadowArg, .undefinedVar, .duplicateVarDef] ∧
        r.value.1.bare = y.1.1 ∧
        r.value.1.items.map Item.events =
          p.items.mapIdx (fun i it => it.taggedEvents x.1.externals p.items i) ∧
        r.notes = (p.items.mapIdx fun i it => it.nameReports x.1.externals p.items i).flatten := by
  refine exists_ok_of_check (c := fun p =>
    ((Sink.empty false).pass (Imports.merge libHeaders Builtin.table p.imports)).toOption.any
      fun x =>
      (x.2.pass (declareModule x.1.externals p { module := "m" })).toOption.any fun y =>
        decide ((Scoping.resolve x.1.externals y.1.1 y.1.2).notes.map Diagnostic.code =
          [.undefinedGlobalVar, .undefinedVar, .shadowArg, .undefinedVar, .duplicateVarDef]))
    (by decide +kernel) fun p hp hc => ?_
  refine exists_ok_of_check hc fun x hx hc => ?_
  refine exists_ok_of_check hc fun y hy hc => ?_
  obtain ⟨imported, s⟩ := x
  obtain ⟨declared, s'⟩ := y
  exact ⟨of_decide_eq_true hc, Scoping.resolve_positional (o := { module := "m" }) hp hx hy⟩

end SplFrontend
