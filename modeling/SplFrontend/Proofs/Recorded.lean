import SplFrontend.Proofs.Void

/-!
# What the table records

The table of a resolved module mirrors its program: it lists the globals and the synonyms in their
order, and one overload for each callable, under its kind and name, with its signature, its fixity,
its parameters and the variables of its body, those of nested blocks included
(`Resolved.mirrors_of_compile`). The resolved program gives rise to the table that the passes have
filled, so it is enough to say this of a table right after scoping.
-/

namespace SplFrontend

/-! ## States along a block -/

section

variable {σ γ : Type} {L : Loc → Loc → Prop} {R : σ → Place → Place → σ → Prop} {f : σ → List γ}
  {g : Place → List γ}

mutual

theorem Stmt.Walk.view_eq (hr : ∀ {s p q s'}, R s p q s' → f s' = f s ++ g p) :
    ∀ {s s' : σ} {a b : Stmt}, Stmt.Walk L R s a b s' → f s' = f s ++ a.places.flatMap g
  | _, _, _, _, .decl h | _, _, _, _, .assign _ h | _, _, _, _, .ret _ h | _, _, _, _, .expr h => by
    rw [hr h, Stmt.places, List.flatMap_singleton]
  | _, _, _, _, .condNone _ h => by rw [h.view_eq hr, Stmt.places]
  | _, _, _, _, .condSome _ hb h => by
    rw [h.view_eq hr, hb.view_eq hr, Stmt.places, List.flatMap_append, List.append_assoc]
  | _, _, _, _, .loop _ he h | _, _, _, _, .each _ he h => by
    rw [h.view_eq hr, hr he, Stmt.places, List.flatMap_cons, List.append_assoc]
  | _, _, _, _, .brk _ | _, _, _, _, .cont _ => by
    rw [Stmt.places, List.flatMap_nil, List.append_nil]

/-- What every place adds to a state is added in the order of the places. -/
theorem Stmt.WalkAll.view_eq (hr : ∀ {s p q s'}, R s p q s' → f s' = f s ++ g p) :
    ∀ {s s' : σ} {a b : List Stmt}, Stmt.WalkAll L R s a b s' →
      f s' = f s ++ (Stmt.placesAll a).flatMap g
  | _, _, _, _, .nil => by rw [Stmt.placesAll, List.flatMap_nil, List.append_nil]
  | _, _, _, _, .cons h hs => by
    rw [hs.view_eq hr, h.view_eq hr, Stmt.placesAll, List.flatMap_append, List.append_assoc]

theorem Branch.WalkAll.view_eq (hr : ∀ {s p q s'}, R s p q s' → f s' = f s ++ g p) :
    ∀ {s s' : σ} {a b : List Branch}, Branch.WalkAll L R s a b s' →
      f s' = f s ++ (Branch.placesAll a).flatMap g
  | _, _, _, _, .nil => by rw [Branch.placesAll, List.flatMap_nil, List.append_nil]
  | _, _, _, _, .cons _ he h hs => by
    rw [hs.view_eq hr, h.view_eq hr, hr he, Branch.placesAll, List.flatMap_cons,
      List.flatMap_append, List.append_assoc, List.append_assoc]

end

end

/-! ## What is mirrored -/

/-- The declaration at a place. -/
def Place.decl? : Place → Option VarDecl
  | .decl d => some d
  | _ => none

/-- The variables that a block declares, in their order, those of nested blocks included. -/
def Stmt.decls (body : List Stmt) : List VarDecl := (Stmt.placesAll body).filterMap Place.decl?

/-- What the declaration of a variable says besides its value. -/
def VarDecl.heading (d : VarDecl) : String × Option Ty × Loc := (d.name, d.ty, d.loc)

/-- The scope lists the declared variables, in their order and with their types. -/
def Scope.Lists (scope : Scope) (ds : List VarDecl) : Prop :=
  scope.map (fun x => (x.1, some x.2.ty, x.2.loc)) = ds.map VarDecl.heading

/-- The overload of a callable at some place of the program. -/
structure LocalOverload.Mirrors (f : FnDef) (i : Nat) (o : LocalOverload) : Prop where
  item : o.item = i
  loc : o.loc = f.loc
  sig : f.sig = some o.sig
  fixity : o.fixity = f.head.fixity?
  arity : o.sig.params.length = f.params.length
  args : o.args = List.zipWith (fun p ty => (p.name, ⟨ty, p.loc⟩)) f.params o.sig.params
  locals : Scope.Lists o.locals (Stmt.decls f.body)

/-- The table lists what the program declares, and nothing else. -/
structure ModuleTable.Mirrors (p : Program) (t : ModuleTable) : Prop where
  globals : Scope.Lists t.globals p.globals
  synonyms : t.synonyms = p.synonyms.map fun s => (s.name, ⟨s.ty, s.loc⟩)
  /-- Each callable has an overload under its kind and name. -/
  items : ∀ i f, p.items[i]? = some (.fn f) →
    ∃ o ∈ t.overloads f.kind f.name, t.overloadForItem i = some o ∧ o.Mirrors f i
  /-- Each overload comes from a callable, and no two from the same. -/
  callables : ∀ o ∈ t.functions.all, ∃ f, p.items[o.item]? = some (.fn f)
  once : (t.functions.all.map LocalOverload.item).Nodup
  /-- No two overloads of a kind and name have the same type. -/
  apart : ∀ kind name, ((t.overloads kind name).map LocalOverload.sig).Nodup

namespace Scoping

variable {t : ModuleTable} {externals : ExternalTable}

/-- The scope at the end of a body lists what the body declares. -/
theorem lists_locals {args locals : Scope} {b b' : List Stmt}
    (hw : Stmt.WalkAll Eq ((body t externals args).Graph NotError) [] b b' locals)
    (hp : Annotations.PlainLocals b) : Scope.Lists locals (Stmt.decls b) := by
  have hstate := (hw.and hp).view_eq (f := fun s => s.map fun x => (x.1, some x.2.ty, x.2.loc))
    (g := fun p => (p.decl?.map VarDecl.heading).toList) ?_
  · rw [Scope.Lists, Stmt.decls, List.map_filterMap, List.filterMap_eq_flatMap_toList]
    exact hstate
  · rintro s p q s' ⟨hg, hdecl⟩
    obtain ⟨-, rfl, hn⟩ := graph_iff.1 hg
    cases p with
    | decl d =>
      obtain ⟨ty, hty, -⟩ := hdecl
      rw [after, (declare_of_notes hty hn).2, List.map_append]
      simp [Place.decl?, VarDecl.heading, hty]
    | _ => exact (List.append_nil _).symm

section

variable {P : Diagnostic → Prop} {i : Nat} {its its' : List Item} {t' : ModuleTable}

theorem Tags.length_eq (h : Tags externals P i its t its' t') : its'.length = its.length := by
  induction h with
  | nil => rfl
  | synonym _ ih | global _ _ ih | fn _ _ _ ih => rw [List.length_cons, List.length_cons, ih]

/-- The overload of a callable after the pass. -/
theorem Tags.overloadForItem_fn (h : Tags externals P i its t its' t') {j : Nat} {f : FnDef}
    (hj : its[j]? = some (.fn f)) :
    ∃ o b locals, t.overloadForItem (i + j) = some o ∧
      t'.overloadForItem (i + j) = some { o with locals } ∧
      Stmt.WalkAll Eq ((body t externals o.args).Graph P) [] f.body b locals := by
  obtain ⟨hlt, -⟩ := List.getElem?_eq_some_iff.1 hj
  obtain ⟨it, hit, htag⟩ := h.getElem? (List.getElem?_eq_getElem (h.length_eq ▸ hlt))
  cases hj.symm.trans hit
  obtain ⟨o, b, locals, ho, ho', -, hw⟩ := htag
  exact ⟨o, b, locals, ho, ho', hw⟩

end

end Scoping

namespace Accepted

variable {externals : ExternalTable} {o : Options} {p : Program} {t : ModuleTable}

theorem lists_globals (h : Accepted externals o p t) : Scope.Lists t.globals p.globals := by
  rw [Scope.Lists, h.globals, Program.globals, List.map_filterMap, List.map_filterMap]
  refine List.filterMap_congr fun it hit => ?_
  have hnormal := h.normal.items it hit
  cases it with
  | synonym | fn => rfl
  | global d =>
    obtain ⟨ty, hty, -⟩ := hnormal
    simp [Declarations.globalEntry, VarDecl.heading, hty]

theorem synonyms_eq (h : Accepted externals o p t) :
    t.synonyms = p.synonyms.map fun s => (s.name, ⟨s.ty, s.loc⟩) := by
  rw [h.fills.synonyms_eq, Annotations.withSynonyms, Annotations.synonymsOf_eq, Program.synonyms,
    List.map_filterMap]
  refine List.filterMap_congr fun it _ => ?_
  cases it <;> rfl

/-- The overloads of a name come from its callables. -/
theorem mem_overloads (h : Accepted externals o p t) {kind : CallKind} {name : String}
    {l : LocalOverload} :
    l ∈ t.overloads kind name ↔ ∃ f sig i, p.items[i]? = some (.fn f) ∧
      (f.kind = kind ∧ f.name = name) ∧
      f.sig = some sig ∧ l = Declarations.overloadOf f sig i := by
  rw [h.overloads, List.mem_filterMap]
  constructor
  · rintro ⟨⟨it, i⟩, hmem, hl⟩
    cases it with
    | synonym | global => cases hl
    | fn f =>
      rw [Declarations.overloadAt] at hl
      split at hl
      next hkey =>
        obtain ⟨sig, hsig, rfl⟩ := Option.map_eq_some_iff.1 hl
        exact ⟨f, sig, i, List.mk_mem_zipIdx_iff_getElem?.1 hmem, hkey, hsig, rfl⟩
      next => cases hl
  · rintro ⟨f, sig, i, hi, hkey, hsig, rfl⟩
    refine ⟨(.fn f, i), List.mk_mem_zipIdx_iff_getElem?.2 hi, ?_⟩
    rw [Declarations.overloadAt, if_pos hkey, hsig]
    rfl

/-- A table after scoping mirrors the program. -/
theorem mirrors (h : Accepted externals o p t)
    (hn : ∀ d ∈ (Scoping.resolve externals p t).notes, NotError d) :
    (Scoping.resolve externals p t).value.2.Mirrors p := by
  have htags := h.tags hn
  have hplaced := h.placed_tagged
  have hsettle :
      (Scoping.resolve externals p t).value.2 =
        t.settle (Scoping.localsAt externals t p.items) := by
    rw [Scoping.resolve_eq h.placed]
  generalize (Scoping.resolve externals p t).value = r at htags hplaced hsettle
  -- the overloads are those of the table before, with other variables
  have hoverloads : ∀ kind name, r.2.overloads kind name =
      (t.overloads kind name).map fun l =>
        l.withLocals (Scoping.localsAt externals t p.items l.item) := by
    rw [hsettle]
    exact t.overloads_settle _
  refine ⟨?_, ?_, fun i f hi => ?_, fun l hl => ?_, hplaced, fun kind name => ?_⟩
  · rw [htags.globals_eq]
    exact h.lists_globals
  · rw [hsettle]
    exact h.synonyms_eq
  · obtain ⟨sig, hsig, ho⟩ := h.overloadForItem hi
    obtain ⟨l, b, locals, hl, hl', hw⟩ := htags.overloadForItem_fn hi
    rw [Nat.zero_add] at hl hl'
    cases ho.symm.trans hl
    have hf : Annotations.NormalCallable f := h.normal.items _ (List.mem_of_getElem? hi)
    have hmem : Declarations.overloadOf f sig i ∈ t.overloads f.kind f.name :=
      h.mem_overloads.2 ⟨f, sig, i, hi, ⟨rfl, rfl⟩, hsig, rfl⟩
    have hsettled := List.mem_map_of_mem (f := fun l : LocalOverload =>
      l.withLocals (Scoping.localsAt externals t p.items l.item)) hmem
    rw [← hoverloads] at hsettled
    have hsame := hplaced.overloadForItem_eq_some.2 ⟨Callables.mem_all_of_get hsettled, rfl⟩
    rw [Option.some.inj (hsame.symm.trans hl')] at hsettled
    exact ⟨_, hsettled, hl', rfl, rfl, hsig, rfl, (hf.signature hsig).length, hf.args_overloadOf i,
      Scoping.lists_locals hw hf.locals⟩
  · rw [hsettle, (ModuleTable.keyed_settle h.keyed _).all_eq] at hl
    obtain ⟨key, -, hl⟩ := List.mem_flatMap.1 hl
    rw [← hsettle] at hl
    have hl : l ∈ r.2.overloads key.1 key.2 := hl
    rw [hoverloads] at hl
    obtain ⟨l', hl', rfl⟩ := List.mem_map.1 hl
    obtain ⟨f, sig, i, hi, -, -, rfl⟩ := h.mem_overloads.1 hl'
    exact ⟨f, hi⟩
  · rw [hoverloads, List.map_map]
    exact List.pairwise_map.2 (h.fills.apart (fun _ _ => List.Pairwise.nil) kind name)

end Accepted

/-! ## Resolved modules -/

section

variable {p : Program} {headers : HeaderTexts} {o : Options}

/-- The resolved program is accepted with the table that the passes have filled. -/
theorem accepted_checked (h : ∀ d ∈ (stages p headers o).notes, NotError d) :
    Accepted (stages p headers o).externals o (stages p headers o).checked.value
      (stages p headers o).declared.value.2 := by
  have hdeclared := declareModule_checked h
  have haccepted :=
    accepted_of_notes (o := o) (p := (stages p headers o).checked.value) expanded_externals
    (by rw [hdeclared]; exact List.forall_mem_nil _)
  rwa [hdeclared] at haccepted

end

/-- The table of a module that passes all passes mirrors the resolved program, whose annotations are
the expansions of what was written. -/
theorem Resolved.mirrors_of_compile {text : String} {headers : HeaderTexts} {o : Options}
    {r : Resolved} (h : compile text headers o = .ok r) :
    r.table.Mirrors r.program ∧ r.table.Plain ∧ ∃ p, Program.ofText text = .ok p ∧
      p.Maps (Ty.Expands (p.Defines r.externals))
        (Expr.Groups (Visible.fixityOf ⟨r.table, r.externals⟩)) r.program.bare := by
  obtain ⟨p, hp, hr⟩ := bind_eq_ok_iff.1 h
  obtain ⟨hadmitted, rfl⟩ := resolve_eq_ok_iff.1 hr
  have hnotes : ∀ d ∈ (stages p headers o).notes, NotError d := fun d hd => (hadmitted d hd).1
  have hfresh := (Program.printable_of_ofText hp).2.all
  have hplain : (stages p headers o).tagged.value.2.Plain :=
    (tags_declared hnotes).plain (accepted_declared hnotes).normal.items
      (accepted_declared hnotes).plain
  -- the resolved program is scoped once more, by which nothing changes
  have hscoping := scoping_checked hfresh hnotes
  obtain ⟨-, -, htagged, -⟩ := Stages.forall_notes.1 hnotes
  have hmirrors := (accepted_checked hnotes).mirrors (by rw [hscoping]; exact htagged)
  rw [hscoping] at hmirrors
  have hmaps := maps_checked hfresh hnotes
  simp only [Stages.resolved]
  exact ⟨hmirrors, hplain, p, hp, hmaps⟩

/-- A synonym, a global, an operator, and variables of nested blocks. -/
theorem Resolved.mirrors_of_compile_sample : ∃ r,
    compile
      ("type P = (Int, Bool); Int g = 1; " ++
      "infixl 4 <+>(a, b) :: Int Int -> Int \x7b return a; \x7d" ++
      "f(x) :: P -> Int \x7b while (x.snd) \x7b P y = x; if (True) \x7b [P] w = []; \x7d \x7d" ++
      "Int u = g <+> x.fst; return u; \x7d") [] { module := "m" } = .ok r ∧
    r.table.Mirrors r.program ∧ r.table.Plain ∧ ∃ p, Program.ofText
      ("type P = (Int, Bool); Int g = 1; " ++
      "infixl 4 <+>(a, b) :: Int Int -> Int \x7b return a; \x7d" ++
      "f(x) :: P -> Int \x7b while (x.snd) \x7b P y = x; if (True) \x7b [P] w = []; \x7d \x7d" ++
      "Int u = g <+> x.fst; return u; \x7d") = .ok p ∧
      p.Maps (Ty.Expands (p.Defines r.externals))
        (Expr.Groups (Visible.fixityOf ⟨r.table, r.externals⟩)) r.program.bare :=
  exists_ok_of_isOk (by decide +kernel) fun _ h => Resolved.mirrors_of_compile h

end SplFrontend
