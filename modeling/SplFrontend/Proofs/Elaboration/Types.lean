import SplFrontend.Proofs.Elaboration.Passes
import SplFrontend.Proofs.Order.Tables

/-!
# Types after the first passes

Once a module is declared without an error, no synonym is left in it: every annotation and every
type in its table is the expansion of what was written there, and `Void` stands by itself as a
result only. An annotation that runs into a cycle is dropped without a word. That loses nothing:
such a cycle goes through a synonym of the module itself, since imported ones are expanded, and
there it is reported (`exists_cyclic`).
-/

namespace SplFrontend

open Relator (RightUnique)

/-! ## Cycles -/

namespace Ty

variable {env : Synonyms}

theorem expandIn_syn {name : String} {d : SynonymDef} (hd : env.lookup name = some d)
    (chain : List String) :
    (Ty.syn name).expandIn env chain =
      if name ∈ chain then .error (.cycle name d.external)
        else d.ty.expandIn env (name :: chain) := by
  rw [expandIn]
  split
  · next hnone => cases hnone.symm.trans hd
  · next hsome =>
    cases hsome.symm.trans hd
    rfl

/-- What expands on a chain expands alike on a part of it. -/
theorem expandIn_of_subset (chain : List String) (t : Ty) :
    ∀ {part : List String} {u : Ty}, part ⊆ chain →
    t.expandIn env chain = .ok u → t.expandIn env part = .ok u := by
  fun_induction expandIn env chain t with
  | case1 chain b =>
    intro part u _ h
    rw [expandIn]
    exact h
  | case2 chain a b iha ihb =>
    intro part u hp h
    obtain ⟨a', ha, h⟩ := bind_eq_ok_iff.1 h
    obtain ⟨b', hb, h⟩ := bind_eq_ok_iff.1 h
    rw [expandIn, iha hp ha, ihb hp hb]
    exact h
  | case3 chain e ih =>
    intro part u hp h
    obtain ⟨e', he, h⟩ := bind_eq_ok_iff.1 h
    rw [expandIn, ih hp he]
    exact h
  | case4 | case5 =>
    intro part u _ h
    cases h
  | case6 chain name d hd hn ih =>
    intro part u hp h
    rw [expandIn_syn hd, if_neg fun hm => hn (hp hm)]
    exact ih (List.cons_subset_cons name hp) h

/-- A cycle that closes on a part of the chain is found with that part alone. -/
theorem cycle_of_subset (chain : List String) (t : Ty) {n : String} {x : Bool} :
    ∀ {part : List String},
    part ⊆ chain → n ∈ part → t.expandIn env chain = .error (.cycle n x) →
    t.expandIn env part = .error (.cycle n x) := by
  fun_induction expandIn env chain t with
  | case1 | case4 =>
    intro part _ _ h
    cases h
  | case2 chain a b iha ihb =>
    intro part hp hn h
    rw [expandIn]
    obtain ha | ⟨a', ha, h⟩ := bind_eq_error_iff.1 h
    · rw [iha hp hn ha]
      rfl
    · obtain hb | ⟨b', -, h⟩ := bind_eq_error_iff.1 h
      · rw [expandIn_of_subset chain a hp ha, ihb hp hn hb]
        rfl
      · cases h
  | case3 chain e ih =>
    intro part hp hn h
    rw [expandIn]
    obtain he | ⟨e', -, h⟩ := bind_eq_error_iff.1 h
    · rw [ih hp hn he]
      rfl
    · cases h
  | case5 chain name d hd hm =>
    intro part _ hn h
    cases h
    rw [expandIn_syn hd, if_pos hn]
  | case6 chain name d hd hm ih =>
    intro part hp hn h
    rw [expandIn_syn hd, if_neg fun hmem => hm (hp hmem)]
    exact ih (List.cons_subset_cons name hp) (List.mem_cons_of_mem _ hn) h

/-- A cycle closes on the chain, or it is a cycle of the synonym that it is found at. -/
theorem cycle_cases (chain : List String) (t : Ty) {n : String} {x : Bool} :
    t.expandIn env chain = .error (.cycle n x) →
    (∃ d, env.lookup n = some d ∧ d.external = x) ∧
      (n ∈ chain ∨ env.expansion n = .error (.cycle n x)) := by
  fun_induction expandIn env chain t with
  | case1 | case4 =>
    intro h
    cases h
  | case2 chain a b iha ihb =>
    intro h
    obtain ha | ⟨a', -, h⟩ := bind_eq_error_iff.1 h
    · exact iha ha
    · obtain hb | ⟨b', -, h⟩ := bind_eq_error_iff.1 h
      · exact ihb hb
      · cases h
  | case3 chain e ih =>
    intro h
    obtain he | ⟨e', -, h⟩ := bind_eq_error_iff.1 h
    · exact ih he
    · cases h
  | case5 chain name d hd hm =>
    intro h
    cases h
    exact ⟨⟨d, hd, rfl⟩, .inl hm⟩
  | case6 chain name d hd hm ih =>
    intro h
    obtain ⟨hlookup, hn | hn⟩ := ih h
    · refine ⟨hlookup, ?_⟩
      obtain rfl | hn := List.mem_cons.1 hn
      · -- The definition is entered here, so all that the chain holds before it does not matter.
        refine .inr ?_
        rw [Synonyms.expansion, hd]
        exact cycle_of_subset _ d.ty (List.cons_subset_cons n (List.nil_subset chain))
          List.mem_cons_self h
      · exact .inl hn
    · exact ⟨hlookup, .inr hn⟩

end Ty

namespace Annotations

variable {externals : ExternalTable}

/-- Every synonym that is declared comes from an item. -/
theorem exists_of_mem_declare {x : String × Entry} : ∀ (items : List Item) (t : ModuleTable),
    x ∈ (declare externals items t).value.synonyms →
    x ∈ t.synonyms ∨ ∃ s : Synonym, .synonym s ∈ items ∧ x = (s.name, ⟨s.ty, s.loc⟩)
  | [], _, h => .inl h
  | .synonym s :: items, t, h => by
    have later {t' : ModuleTable} (h : x ∈ (declare externals items t').value.synonyms) :
        x ∈ t'.synonyms ∨ ∃ s' : Synonym, .synonym s' ∈ Item.synonym s :: items ∧
          x = (s'.name, ⟨s'.ty, s'.loc⟩) :=
      (exists_of_mem_declare items t' h).imp_right fun ⟨s', hs', hx⟩ =>
        ⟨s', List.mem_cons_of_mem _ hs', hx⟩
    rw [declare] at h
    split at h
    · exact later h
    · rw [ModuleTable.declareSynonym] at h
      cases hs : t.synonyms.lookup s.name with
      | some first =>
        simp only [hs] at h
        exact later h
      | none =>
        simp only [hs] at h
        obtain hx | hx := later h
        · obtain hx | hx := List.mem_append.1 hx
          · exact .inl hx
          · exact .inr ⟨s, List.mem_cons_self, List.mem_singleton.1 hx⟩
        · exact .inr hx
  | .global _ :: items, t, h | .fn _ :: items, t, h =>
    (exists_of_mem_declare items t h).imp_right fun ⟨s, hs, hx⟩ =>
      ⟨s, List.mem_cons_of_mem _ hs, hx⟩

theorem notes_item_subset {p : Program} {t : ModuleTable} {i : Item} (hi : i ∈ p.items) :
    (item (declare externals p.items t).value
      (synonymDefs (declare externals p.items t).value externals) i).notes ⊆
        (normalise externals p t).notes := by
  intro d hd
  simp only [normalise, Noted.notes_bind, Noted.notes_mapM, List.mem_append, List.mem_flatMap]
  exact .inr (.inl ⟨i, hi, hd⟩)

/-- A cycle that an annotation runs into is reported at a synonym of the module. -/
theorem exists_cyclic (hext : ∀ x ∈ externals.synonyms, x.2.ty.Expanded) {p : Program}
    {t : ModuleTable} (ht : t.synonyms = []) {ty : Ty} {n : String} {x : Bool}
    (h : ty.expand (synonymDefs (declare externals p.items t).value externals) =
      .error (.cycle n x)) :
    ∃ s : Synonym, .synonym s ∈ p.items ∧
      (Fault.expansion (.cycle s.name false)).report s.loc ∈ (normalise externals p t).notes := by
  obtain ⟨⟨d, hd, rfl⟩, hn⟩ := Ty.cycle_cases [] ty h
  have hcycle := hn.resolve_left List.not_mem_nil
  have hlookup := hd
  rw [lookup_synonymDefs, Option.or_eq_some_iff] at hlookup
  obtain hown | ⟨-, hother⟩ := hlookup
  · obtain ⟨e, he, rfl⟩ := Option.map_eq_some_iff.1 hown
    obtain hmem | ⟨s, hs, hx⟩ := exists_of_mem_declare p.items t (mem_of_lookup he)
    · rw [ht] at hmem
      cases hmem
    · cases hx
      refine ⟨s, hs, notes_item_subset hs ?_⟩
      have hdecl : declares (declare externals p.items t).value s = true := by
        rw [declares, he]
        simp
      simp only [item, synonym, if_pos hdecl, hcycle, Noted.notes_bind]
      exact List.mem_cons_self
  · -- An imported definition is expanded.
    obtain ⟨e, he, rfl⟩ := Option.map_eq_some_iff.1 hother
    cases (expansion_of_expanded hd (hext _ (mem_of_lookup he))).symm.trans hcycle

end Annotations

/-! ## The table -/

namespace Program

/-- The global variables of a program. -/
def globals (p : Program) : List VarDecl := p.items.filterMap fun
  | .global d => some d
  | _ => none

/-- The synonyms of a program. -/
def synonyms (p : Program) : List Synonym := p.items.filterMap fun
  | .synonym s => some s
  | _ => none

/-- The callables of a name, each with its place in the program. -/
def callables (p : Program) (kind : CallKind) (name : String) : List (FnDef × Nat) :=
  p.items.zipIdx.filterMap fun
  | (.fn f, i) => if f.kind = kind ∧ f.name = name then some (f, i) else none
  | _ => none

end Program

/-- The overload of a callable, with types that are related to the written ones. -/
structure LocalOverload.Records (A : Ty → Ty → Prop) (f : FnDef) (i : Nat) (o : LocalOverload) :
    Prop where
  sig : ∃ s, f.sig = some s ∧ s.Maps A o.sig
  args : o.args = List.zipWith (fun p ty => (p.name, ⟨ty, p.loc⟩)) f.params o.sig.params
  arity : o.sig.params.length = f.params.length
  loc : o.loc = f.loc
  item : o.item = i

/-- The table lists what the program declares, in its order, with types that are related to the
written ones. -/
structure ModuleTable.Records (A : Ty → Ty → Prop) (p : Program) (t : ModuleTable) : Prop where
  globals : List.Forall₂ (fun d x => x.1 = d.name ∧ x.2.loc = d.loc ∧
    ∃ ty, d.ty = some ty ∧ A ty x.2.ty) p.globals t.globals
  synonyms : List.Forall₂ (fun s x => x.1 = s.name ∧ x.2.loc = s.loc ∧ A s.ty x.2.ty)
    p.synonyms t.synonyms
  overloads : ∀ kind name, List.Forall₂ (fun c o => LocalOverload.Records A c.1 c.2 o)
    (p.callables kind name) (t.overloads kind name)

/-- No type in the overload has a synonym in it, and `Void` stands by itself as the result only. -/
structure LocalOverload.Plain (o : LocalOverload) : Prop where
  sig : Annotations.PlainSignature o.sig o.args.length
  args : ∀ x ∈ o.args, x.2.ty.Plain
  locals : ∀ x ∈ o.locals, x.2.ty.Plain

/-- No type in the table has a synonym in it, and `Void` stands by itself as a result only. -/
structure ModuleTable.Plain (t : ModuleTable) : Prop where
  globals : ∀ x ∈ t.globals, x.2.ty.Plain
  synonyms : ∀ x ∈ t.synonyms, x.2.ty.Plain
  overloads : ∀ o ∈ t.functions.all, o.Plain

/-- Members that are related one by one are so together with their places. -/
theorem forall₂_zipIdx {α β : Type} {R : α → β → Prop} {as : List α} {bs : List β}
    (h : List.Forall₂ R as bs) :
    ∀ i : Nat, List.Forall₂ (fun x y => R x.1 y.1 ∧ x.2 = y.2) (as.zipIdx i) (bs.zipIdx i) := by
  induction h with
  | nil => exact fun _ => .nil
  | cons hab _ ih => exact fun i => .cons ⟨hab, rfl⟩ (ih (i + 1))

theorem Declarations.Fills.mem_all {i : Nat} {its : List Item} {t t' : ModuleTable}
    (h : Declarations.Fills i its t t') {o : LocalOverload} : o ∈ t'.functions.all →
    o ∈ t.functions.all ∨ ∃ f sig j, .fn f ∈ its ∧ f.sig = some sig ∧
      o = Declarations.overloadOf f sig j := by
  have later {j : Item} {its : List Item} {t : ModuleTable}
      (h : o ∈ t.functions.all ∨ ∃ f sig k, .fn f ∈ its ∧ f.sig = some sig ∧
        o = Declarations.overloadOf f sig k) :
      o ∈ t.functions.all ∨ ∃ f sig k, .fn f ∈ j :: its ∧ f.sig = some sig ∧
        o = Declarations.overloadOf f sig k :=
    h.imp_right fun ⟨f, sig, k, hf, hrest⟩ => ⟨f, sig, k, List.mem_cons_of_mem _ hf, hrest⟩
  intro ho
  induction h with
  | nil => exact .inl ho
  | synonym _ ih => exact later (ih ho)
  | global _ _ _ ih => exact later (ih ho)
  | fn hsig _ _ _ ih =>
    obtain ho | ho := later (ih ho)
    · obtain rfl | ho := Declarations.mem_all_withCallable ho
      · exact .inr ⟨_, _, _, List.mem_cons_self, hsig, rfl⟩
      · exact .inl ho
    · exact .inr ho

namespace Annotations.NormalCallable

variable {f : FnDef} {sig : Signature}

theorem signature (h : NormalCallable f) (hsig : f.sig = some sig) :
    PlainSignature sig f.params.length := by
  obtain ⟨s, hs, hplain⟩ := h.sig
  cases hs.symm.trans hsig
  exact hplain

theorem args_overloadOf (h : NormalCallable f) (i : Nat) : (Declarations.overloadOf f sig i).args =
    List.zipWith (fun p ty => (p.name, ⟨ty, p.loc⟩)) f.params sig.params :=
  Declarations.argScope_of_nodup (by simpa using h.params)

theorem plain_overloadOf (h : NormalCallable f) (hsig : f.sig = some sig) (i : Nat) :
    (Declarations.overloadOf f sig i).Plain := by
  have hplain := h.signature hsig
  have hargs : (Declarations.overloadOf f sig i).args = _ := h.args_overloadOf i
  refine ⟨?_, ?_, List.forall_mem_nil _⟩
  · rw [hargs, List.length_zipWith, hplain.length, Nat.min_self]
    exact hplain
  · rw [hargs, ← List.map_uncurry_zip_eq_zipWith]
    intro x hx
    obtain ⟨⟨q, ty⟩, hmem, rfl⟩ := List.mem_map.1 hx
    exact hplain.params ty (List.of_mem_zip hmem).2

end Annotations.NormalCallable

namespace Accepted

variable {externals : ExternalTable} {o : Options} {p q : Program} {t : ModuleTable}

theorem plain (h : Accepted externals o p t) : t.Plain := by
  refine ⟨fun x hx => ?_, fun x hx => ?_, fun x hx => ?_⟩
  · rw [h.fills.globals] at hx
    obtain ⟨i, hi, hentry⟩ := List.mem_filterMap.1 hx
    have hnormal := h.normal.items i hi
    cases i with
    | global d =>
      obtain ⟨ty, hty, hplain⟩ := hnormal
      rw [Declarations.globalEntry, hty] at hentry
      cases hentry
      exact hplain
    | synonym s | fn f => cases hentry
  · rw [h.fills.synonyms_eq] at hx
    obtain ⟨s, hs, rfl⟩ := Annotations.exists_of_mem_synonymsOf hx
    exact h.normal.items _ hs
  · obtain hx | ⟨f, sig, i, hf, hsig, rfl⟩ := h.fills.mem_all hx
    · cases hx
    · exact Annotations.NormalCallable.plain_overloadOf (h.normal.items _ hf) hsig i

theorem records {A : Ty → Ty → Prop} (h : Accepted externals o q t) (hm : p.Maps A Eq q) :
    t.Records A p := by
  have hitems :
      List.Forall₂ (fun i j => Annotations.NormalItem j ∧ i.Maps A Eq j) p.items q.items :=
    ((List.forall₂_and_left _ _).2 ⟨h.normal.items, hm.2.flip⟩).flip
  refine ⟨?_, ?_, fun kind name => ?_⟩
  · rw [h.fills.globals]
    refine List.rel_filterMap ?_ hitems
    rintro _ _ ⟨hn, hij⟩
    cases hij with
    | synonym _ | fn _ _ => exact .none
    | global hty _ =>
      obtain ⟨ty', hty', -⟩ := hn
      cases hty'
      cases hty with
      | some hA => exact .some ⟨rfl, rfl, _, rfl, hA⟩
  · rw [h.fills.synonyms_eq, Annotations.withSynonyms, Annotations.synonymsOf_eq]
    refine List.rel_filterMap ?_ hm.2
    intro _ _ hij
    cases hij with
    | synonym hA => exact .some ⟨rfl, rfl, hA⟩
    | global _ _ | fn _ _ => exact .none
  · rw [h.fills.overloads]
    refine List.rel_filterMap ?_ (forall₂_zipIdx hitems 0)
    rintro ⟨_, i⟩ ⟨_, _⟩ ⟨⟨hn, hij⟩, rfl⟩
    cases hij with
    | synonym _ | global _ _ => exact .none
    | @fn head name' params s s' b b' l hs hb =>
      simp only [Declarations.overloadAt]
      split
      · obtain ⟨sig, hsig, hplain⟩ := hn.sig
        cases hsig
        cases hs with
        | some hs => exact .some ⟨⟨_, rfl, hs⟩, hn.args_overloadOf i, hplain.length, rfl, rfl⟩
      · exact .none

end Accepted

/-! ## The stage of types -/

section

variable {p : Program} {o : Options} {externals : ExternalTable}

/-- Declaring a module without an error expands its annotations and changes nothing else. -/
theorem maps_declareModule (hext : ∀ x ∈ externals.synonyms, x.2.ty.Expanded)
    (h : ∀ d ∈ (declareModule externals p (.start o)).notes, NotError d) :
    RightUnique (p.Defines externals) ∧
      p.Maps (Ty.Expands (p.Defines externals)) Eq
        (declareModule externals p (.start o)).value.1 := by
  simp only [declareModule, Noted.forall_notes_bind] at h
  have hexp := (Annotations.expandable_iff rfl).1 h.1
  have hvalue :=
    Annotations.value_normalise_of_declarable (p := p) (t := .start o) hexp.declarable rfl
  refine ⟨hexp.declarable.rightUnique, ?_⟩
  simp only [declareModule, Noted.value_bind, Noted.value_pure, hvalue]
  refine ⟨rfl, ?_⟩
  rw [List.forall₂_map_right_iff, List.forall₂_same]
  exact fun i hi => Annotations.expands_item hexp hext hi

/-- The annotation of a type that runs into a cycle is dropped without a report. -/
theorem Annotations.expandTy_eq_none_iff {env : Synonyms} {loc : Loc} {ty : Ty} :
    Annotations.expandTy env loc ty = pure none ↔ ∃ n x, ty.expand env = .error (.cycle n x) := by
  rw [Annotations.expandTy]
  constructor
  · intro h
    split at h
    · cases congrArg Noted.value h
    · cases congrArg Noted.notes h
    · next n x hcycle => exact ⟨n, x, hcycle⟩
  · rintro ⟨n, x, hcycle⟩
    rw [hcycle]

end

/-- Where a module is declared without an error, each annotation in it and each type in its table is
the expansion of what was written, free of synonyms, with `Void` by itself as a result only. Where
an annotation is dropped without a report, a synonym of the module is reported as cyclic. -/
theorem declareModule_types (headers : HeaderTexts) (p : Program) (o : Options) :
    let externals := (Imports.merge headers Builtin.table p.imports).value.externals
    let declared := declareModule externals p (.start o)
    ((∀ d ∈ declared.notes, NotError d) →
      RightUnique (Ty.Expands (p.Defines externals)) ∧
      p.Maps (Ty.Expands (p.Defines externals)) Eq declared.value.1 ∧
      declared.value.2.Records (Ty.Expands (p.Defines externals)) p ∧
      (∀ i ∈ declared.value.1.items, Annotations.NormalItem i) ∧ declared.value.2.Plain) ∧
    ∀ loc ty, Annotations.expandTy
        (Annotations.synonymDefs (Annotations.declare externals p.items (.start o)).value externals)
          loc ty =
          pure none →
      ∃ s, .synonym s ∈ p.items ∧ ∃ d ∈ declared.notes,
        d.code = .cyclicTypeSyn ∧ d.loc = s.loc := by
  intro externals declared
  have hext : ∀ x ∈ externals.synonyms, x.2.ty.Expanded :=
    (Imports.merge_unlocated Builtin.sound p.imports).value.2.expanded
  constructor
  · intro h
    obtain ⟨hunique, hmaps⟩ := maps_declareModule hext h
    have haccepted := accepted_of_notes hext h
    exact ⟨Ty.Expands.rightUnique hunique, hmaps, haccepted.records hmaps, haccepted.normal.items,
      haccepted.plain⟩
  · intro loc ty h
    obtain ⟨n, x, hcycle⟩ := Annotations.expandTy_eq_none_iff.1 h
    obtain ⟨s, hs, hd⟩ := Annotations.exists_cyclic hext rfl hcycle
    refine ⟨s, hs, (Fault.expansion (.cycle s.name false)).report s.loc, ?_, rfl, rfl⟩
    simp only [declared, declareModule, Noted.notes_bind, List.mem_append]
    exact .inl hd

/-- Synonyms of synonyms in all kinds of annotations, and two synonyms that lead to each other. -/
theorem declareModule_types_sample :
    (∃ p, Program.ofText ("from lib import z; type Q = [P]; type P = (Int, String); Q g = [];" ++
        "f(x) :: P -> Void \x7b Q y = x : g; return; \x7d " ++
        "f(x) :: Q -> P \x7b return (z, x.hd.snd); \x7d") = .ok p ∧
      let externals := (Imports.merge libHeaders Builtin.table p.imports).value.externals
      let declared := declareModule externals p (.start { module := "m" })
      RightUnique (Ty.Expands (p.Defines externals)) ∧
      p.Maps (Ty.Expands (p.Defines externals)) Eq declared.value.1 ∧
      declared.value.2.Records (Ty.Expands (p.Defines externals)) p ∧
      (∀ i ∈ declared.value.1.items, Annotations.NormalItem i) ∧ declared.value.2.Plain) ∧
    ∃ p,
      Program.ofText
        "type A = [B]; type B = (Int, A); f(x) :: (Int, [A]) -> Int \x7b return 1; \x7d" = .ok p ∧
      let externals := (Imports.merge libHeaders Builtin.table p.imports).value.externals
      Annotations.expandTy (Annotations.synonymDefs
          (Annotations.declare externals p.items (.start { module := "m" })).value externals)
            default
          (.pair (.basic .int) (.list (.syn "A"))) = pure none ∧
        ∃ s, .synonym s ∈ p.items ∧
          ∃ d ∈ (declareModule externals p (.start { module := "m" })).notes,
          d.code = .cyclicTypeSyn ∧ d.loc = s.loc := by
  constructor
  · refine exists_ok_of_check (c := fun p : Program => (declareModule
      (Imports.merge libHeaders Builtin.table p.imports).value.externals p
        (.start { module := "m" })).notes.all
        fun d => !d.isError) (by decide +kernel) fun p _ h => ?_
    refine (declareModule_types libHeaders p { module := "m" }).1 fun d hd => ?_
    simpa using List.all_eq_true.1 h d hd
  · refine exists_ok_of_check (c := fun p : Program =>
      let externals := (Imports.merge libHeaders Builtin.table p.imports).value.externals
      let dropped := Annotations.expandTy (Annotations.synonymDefs
        (Annotations.declare externals p.items (.start { module := "m" })).value externals) default
        (.pair (.basic .int) (.list (.syn "A")))
      dropped.value.isNone && dropped.notes.isEmpty) (by decide +kernel) fun p _ h => ?_
    rw [Bool.and_eq_true, Option.isNone_iff_eq_none, List.isEmpty_iff] at h
    exact ⟨Noted.ext h.1 h.2,
      (declareModule_types libHeaders p { module := "m" }).2 _ _ (Noted.ext h.1 h.2)⟩

end SplFrontend
