import SplFrontend.Proofs.Accepted
import SplFrontend.Proofs.Precedence
import SplFrontend.Proofs.Relocation
import SplFrontend.Proofs.Typing

/-!
# Declaring again

The passes that fill the table look at the outlines of the items: names, types, parameters and
signatures, with their places. So a program with the outlines of an accepted one, with places moved
by a function `g`, is accepted as well, nothing is reported of it, and its table is the same when
places are moved by `g` (`Accepted.of_outline`, `Accepted.declareModule_eq`). The later passes
change nothing but expressions, so they leave the outlines, and inside of bodies they leave what is
declared (`Item.Retains`).
-/

namespace SplFrontend

/-- What an item declares, without what it holds inside. -/
inductive Outline where
  | synonym (name : String) (ty : Ty) (loc : Loc)
  | global (name : String) (ty : Option Ty) (loc : Loc)
  | fn (head : Head) (name : String) (params : List Param) (sig : Option Signature) (loc : Loc)

/-- The parameter with its place moved. -/
def Param.relocate (g : Loc → Loc) (p : Param) : Param := ⟨p.name, g p.loc⟩

/-- The outline of an item, with its places moved. -/
def Item.outline (g : Loc → Loc) : Item → Outline
  | .synonym s => .synonym s.name s.ty (g s.loc)
  | .global d => .global d.name d.ty (g d.loc)
  | .fn f => .fn f.head f.name (f.params.map (Param.relocate g)) f.sig (g f.loc)

/-- All variables that the item declares inside have plain types. -/
def Item.PlainLocals : Item → Prop
  | .fn f => Annotations.PlainLocals f.body
  | _ => True

variable {g : Loc → Loc}

theorem Param.names_eq {ps ps' : List Param} (h : ps'.map (relocate g) = ps.map (relocate g)) :
    ps'.map name = ps.map name := by
  have hnames := congrArg (List.map name) h
  simpa only [List.map_map, Function.comp_def, relocate] using hnames

/-! ## What the later passes leave -/

/-- What a place declares: a name, its type and where. -/
def Place.declares : Place → Option (String × Option Ty × Loc)
  | .decl d => some (d.name, d.ty, d.loc)
  | _ => none

/-- What a place declares, wherever it does so. -/
def Place.declared (p : Place) : Option (String × Option Ty) := p.declares.map fun x => (x.1, x.2.1)

theorem Place.onDecl_of_declared {Ψ : String → Option Ty → Prop} {p q : Place}
    (h : q.declared = p.declared) (hp : p.OnDecl Ψ) : q.OnDecl Ψ := by
  cases q with
  | decl d' =>
    cases p with
    | decl d =>
      obtain ⟨hname, hty⟩ : d'.name = d.name ∧ d'.ty = d.ty := by
        simpa only [declared, declares, Option.map_some, Option.some.injEq, Prod.mk.injEq] using h
      rw [OnDecl, hname, hty]
      exact hp
    | _ => cases h
  | _ => trivial

/-- The second item is the first one with other expressions in it. -/
inductive Item.Retains : Item → Item → Prop
  | synonym {s} : Retains (.synonym s) (.synonym s)
  | global {d init} : Retains (.global d) (.global { d with init })
  | fn {f b} : Stmt.WalkAll Eq (fun _ p q _ => q.declares = p.declares) () f.body b () →
      Retains (.fn f) (.fn { f with body := b })

/-- The second items are the first ones with other expressions in them. -/
inductive Item.RetainsAll : List Item → List Item → Prop
  | nil : RetainsAll [] []
  | cons {it it' its its'} :
    Item.Retains it it' → RetainsAll its its' → RetainsAll (it :: its) (it' :: its')

namespace Item

theorem Retains.trans {a b c : Item} (h : Retains a b) (h' : Retains b c) : Retains a c := by
  cases h with
  | synonym => exact h'
  | global =>
    cases h'
    exact .global
  | fn hw =>
    cases h' with
    | fn hw' =>
      refine .fn
        ((hw.trans hw').map (f := fun _ => ()) (fun {l l'} hl => ?_) fun {_ p q _} hr => ?_)
      · obtain ⟨_, rfl, rfl⟩ := hl
        rfl
      · obtain ⟨r, hpr, hrq⟩ := hr
        exact hrq.trans hpr

theorem RetainsAll.trans : ∀ {a b c : List Item}, RetainsAll a b → RetainsAll b c → RetainsAll a c
  | _, _, _, .nil, .nil => .nil
  | _, _, _, .cons h hs, .cons h' hs' => .cons (h.trans h') (hs.trans hs')

theorem RetainsAll.map {f : Item → Item} (h : ∀ it, Retains it (f it)) :
    ∀ its, RetainsAll its (its.map f)
  | [] => .nil
  | it :: its => .cons (h it) (map h its)

theorem Retains.outline_eq {it it' : Item} (h : Retains it it') : it'.outline g = it.outline g := by
  cases h <;> rfl

theorem RetainsAll.outline_eq : ∀ {its its' : List Item}, RetainsAll its its' →
    its'.map (outline g) = its.map (outline g)
  | _, _, .nil => rfl
  | _, _, .cons h hs => by rw [List.map_cons, List.map_cons, h.outline_eq, hs.outline_eq]

theorem Retains.plainLocals {it it' : Item} (h : Retains it it') (hit : it.PlainLocals) :
    it'.PlainLocals := by
  cases h with
  | fn hw =>
    refine (hw.and hit).holds ?_
    rintro _ p q _ ⟨hq, hp⟩
    exact Place.onDecl_of_declared (congrArg (Option.map _) hq) hp
  | _ => trivial

theorem RetainsAll.plainLocals : ∀ {its its' : List Item}, RetainsAll its its' →
    (∀ it ∈ its, it.PlainLocals) → ∀ it ∈ its', it.PlainLocals
  | _, _, .nil, _ => nofun
  | _, _, .cons h hs, hits => by
    rw [List.forall_mem_cons] at hits ⊢
    exact ⟨h.plainLocals hits.1, hs.plainLocals hits.2⟩

end Item

namespace Scoping

variable {externals : ExternalTable} {P : Diagnostic → Prop}

theorem declares_place (f : Variable → Noted Variable) (p : Place) :
    (place f p).value.declares = p.declares := by
  cases p with
  | ret l e => cases e <;> rfl
  | _ => rfl

theorem Tags.retains {i : Nat} {its its' : List Item} {t t' : ModuleTable}
    (h : Tags externals P i its t its' t') : Item.RetainsAll its its' := by
  induction h with
  | nil => exact .nil
  | synonym _ ih => exact .cons .synonym ih
  | @global i d rest t rest' t' _ _ ih =>
    refine .cons ?_ ih
    rw [global_eq]
    exact .global
  | fn _ hw _ ih =>
    refine .cons (.fn (hw.map (f := fun _ => ()) id fun {s p q s'} hg => ?_)) ih
    rw [← (graph_iff.1 hg).1.1]
    exact declares_place _ p

end Scoping

namespace Precedence

variable {v : Visible}

theorem declares_at (p : Place) : ((body v).at p).value.declares = p.declares := by
  cases p <;> rfl

theorem retains_item (it : Item) : it.Retains (item v it).value := by
  cases it with
  | synonym s => exact .synonym
  | global d => exact .global
  | fn f =>
    have hw :=
      Stmt.walk_rewriteAll_lift (w := body v) (P := fun _ => True) f.body fun _ _ => trivial
    refine .fn (hw.mono id fun {_ p q _} hd => ?_)
    rw [← hd.1]
    exact declares_at p

end Precedence

namespace Typing

variable {v : Visible} {cx : Context}

theorem declares_at (p : Place) : ((body cx).at p).value.declares = p.declares := by
  cases p with
  | decl d =>
    obtain ⟨init, hd, -⟩ := checkedFrom_declared cx d
    simp only [Rewriter.at, body, Noted.value_bind, Noted.value_pure, hd, Place.declares]
  | _ => rfl

theorem retains_item (i : Nat) (it : Item) : it.Retains (item v i it).value := by
  cases it with
  | synonym s => exact .synonym
  | global d =>
    obtain ⟨init, hd, -⟩ := checkedFrom_declared ⟨v, none⟩ d
    simp only [item, Noted.value_bind, Noted.value_pure, value_global, hd]
    exact .global
  | fn f =>
    rw [item]
    split
    · exact .fn ((Stmt.walkAll_refl f.body).mono id fun hq => by rw [hq])
    · next o ho =>
      have hw := Stmt.walk_rewriteAll_lift (w := body ⟨v, some ⟨o.args, o.locals, o.sig.result⟩⟩)
        (P := fun _ => True) f.body fun _ _ => trivial
      refine .fn (hw.mono id fun {_ p q _} hd => ?_)
      rw [← hd.1]
      exact declares_at p

theorem retains_items : ∀ (i : Nat) (its : List Item), Item.RetainsAll its (items v i its).value
  | _, [] => .nil
  | i, it :: rest => .cons (retains_item i it) (retains_items (i + 1) rest)

end Typing

/-! ## Normal programs -/

namespace Annotations

theorem relocate_synonymsOf :
    ∀ {its its' : List Item}, its'.map (Item.outline g) = its.map (Item.outline g) →
    (synonymsOf its').relocate g = (synonymsOf its).relocate g
  | [], _, h => by
    rw [List.map_eq_nil_iff.1 h]
  | it :: its, _, h => by
    obtain ⟨it', its', rfl, hit, hits⟩ := List.map_eq_cons_iff.1 h
    have ih : (synonymsOf its').relocate g = (synonymsOf its).relocate g := relocate_synonymsOf hits
    cases it <;> cases it' <;> try cases hit
    · obtain ⟨hname, hty, hloc⟩ := Outline.synonym.inj hit
      simp only [synonymsOf, Scope.relocate, List.map_cons, Entry.relocate, hname, hty, hloc]
        at ih ⊢
      rw [ih]
    · exact ih
    · exact ih

theorem Declarable.of_outline {externals : ExternalTable} {its its' : List Item}
    (h : Declarable externals [] its)
    (houtline : its'.map (Item.outline g) = its.map (Item.outline g)) :
    Declarable externals [] its' := by
  have hsame := relocate_synonymsOf houtline
  have hnames : (synonymsOf its').map Prod.fst = (synonymsOf its).map Prod.fst := by
    have hfst := congrArg (List.map Prod.fst) hsame
    simpa only [Scope.relocate, List.map_map, Function.comp_def] using hfst
  refine ⟨?_, ?_⟩
  · intro x hx
    have hmem : x.1 ∈ (synonymsOf its).map Prod.fst := hnames ▸ List.mem_map_of_mem hx
    obtain ⟨y, hy, hname⟩ := List.mem_map.1 hmem
    rw [← hname]
    exact h.foreign y hy
  · rw [List.nil_append, hnames]
    exact h.nodup

theorem NormalItem.of_outline {it it' : Item} (h : NormalItem it)
    (houtline : it'.outline g = it.outline g) (hlocals : it'.PlainLocals) : NormalItem it' := by
  cases it <;> cases it' <;> try cases houtline
  case synonym.synonym s s' =>
    obtain ⟨-, hty, -⟩ := Outline.synonym.inj houtline
    rw [NormalItem, hty]
    exact h
  case global.global d d' =>
    obtain ⟨-, hty, -⟩ := Outline.global.inj houtline
    rw [NormalItem, hty]
    exact h
  case fn.fn f f' =>
    obtain ⟨hhead, -, hparams, hsig, -⟩ := Outline.fn.inj houtline
    have hlength : f'.params.length = f.params.length := by
      simpa only [List.length_map] using congrArg List.length hparams
    have hf : NormalCallable f := h
    refine ⟨Param.names_eq hparams ▸ hf.params, ?_, ?_, hlocals⟩
    · rw [FnDef.kind, hhead, hlength]
      exact hf.arity
    · rw [hsig, hlength]
      exact hf.sig

end Annotations

/-! ## Filled tables -/

namespace Declarations

theorem relocate_argScope : ∀ {ps ps' : List Param} (tys : List Ty) {s s' : Scope},
    ps'.map (Param.relocate g) = ps.map (Param.relocate g) → s'.relocate g = s.relocate g →
    (argScope s' ps' tys).relocate g = (argScope s ps tys).relocate g
  | [], _, tys, s, s', hps, hs => by
    rw [List.map_eq_nil_iff.1 hps]
    simpa only [argScope] using hs
  | p :: ps, _, tys, s, s', hps, hs => by
    obtain ⟨p', ps', rfl, hp, hps⟩ := List.map_eq_cons_iff.1 hps
    obtain ⟨hname, hloc⟩ := Param.mk.inj hp
    cases tys with
    | nil => simpa only [argScope] using hs
    | cons ty tys =>
      rw [argScope, argScope, hname, Scope.isSome_lookup_of_relocate hs]
      refine relocate_argScope tys hps ?_
      split
      · exact hs
      · rw [Scope.relocate_append, Scope.relocate_append, hs]
        simp only [Scope.relocate, List.map_cons, List.map_nil, Entry.relocate, hloc]

theorem relocate_withGlobal (t : ModuleTable) (d : VarDecl) (ty : Ty) :
    (withGlobal t d ty).relocate g =
      { t.relocate g with globals := (t.relocate g).globals ++ [(d.name, ⟨ty, g d.loc⟩)] } := by
  simp only [withGlobal, ModuleTable.relocate, Scope.relocate_append]
  rfl

theorem relocate_withCallable (t : ModuleTable) (f : FnDef) (o : LocalOverload) :
    (withCallable t f o).relocate g =
      { t.relocate g with
        functions := (t.relocate g).functions.add f.kind f.name (o.relocate g) } := by
  simp only [withCallable, ModuleTable.relocate, Callables.mapSets_add]

theorem forall_sig_ne {t u : ModuleTable} (h : u.relocate g = t.relocate g) {kind : CallKind}
    {name : String} {sig : Signature} (ht : ∀ o ∈ t.overloads kind name, o.sig ≠ sig) :
    ∀ o ∈ u.overloads kind name, o.sig ≠ sig := by
  intro o ho
  have hmem : o.relocate g ∈ (t.overloads kind name).map (LocalOverload.relocate g) := by
    rw [← ModuleTable.overloads_relocate, ← h, ModuleTable.overloads_relocate]
    exact List.mem_map_of_mem ho
  obtain ⟨o', ho', heq⟩ := List.mem_map.1 hmem
  have hsig : (o'.relocate g).sig = (o.relocate g).sig := by rw [heq]
  intro hs
  exact ht o' ho' (hsig.trans hs)

/-- Items of the same outlines fill a table that is the same when places are moved. -/
theorem Fills.of_outline {i : Nat} {its : List Item} {t t' : ModuleTable} (h : Fills i its t t') :
    ∀ {its' : List Item} {u : ModuleTable}, its'.map (Item.outline g) = its.map (Item.outline g) →
      u.relocate g = t.relocate g → ∃ u', Fills i its' u u' ∧ u'.relocate g = t'.relocate g := by
  induction h with
  | nil =>
    intro its' u houtline hu
    rw [List.map_eq_nil_iff.1 houtline]
    exact ⟨u, .nil, hu⟩
  | synonym _ ih =>
    intro its' u houtline hu
    obtain ⟨it', rest', rfl, hit, hrest⟩ := List.map_eq_cons_iff.1 houtline
    cases it' with
    | synonym s' =>
      obtain ⟨u', hfills, heq⟩ := ih hrest hu
      exact ⟨u', .synonym hfills, heq⟩
    | _ => cases hit
  | @global i d ty rest t t' hty hnone _ ih =>
    intro its' u houtline hu
    obtain ⟨it', rest', rfl, hit, hrest⟩ := List.map_eq_cons_iff.1 houtline
    cases it' with
    | global d' =>
      obtain ⟨hname, hty', hloc⟩ := Outline.global.inj hit
      have hnone' : u.globals.lookup d'.name = none := by
        rw [hname]
        exact Scope.lookup_eq_none_of_relocate (congrArg ModuleTable.globals hu) hnone
      have hstep : (withGlobal u d' ty).relocate g = (withGlobal t d ty).relocate g := by
        rw [relocate_withGlobal, relocate_withGlobal, hu, hname, hloc]
      obtain ⟨u', hfills, heq⟩ := ih hrest hstep
      exact ⟨u', .global (hty'.trans hty) hnone' hfills, heq⟩
    | _ => cases hit
  | @fn i f sig rest t t' hsig hlength hne _ ih =>
    intro its' u houtline hu
    obtain ⟨it', rest', rfl, hit, hrest⟩ := List.map_eq_cons_iff.1 houtline
    cases it' with
    | fn f' =>
      obtain ⟨hhead, hname, hparams, hsig', hloc⟩ := Outline.fn.inj hit
      have hlength' : f'.params.length = f.params.length := by
        simpa only [List.length_map] using congrArg List.length hparams
      have hkind : f'.kind = f.kind := by rw [FnDef.kind, hhead, FnDef.kind]
      have hoverload : (overloadOf f' sig i).relocate g = (overloadOf f sig i).relocate g := by
        have hargs := relocate_argScope sig.params hparams (s := []) rfl
        simp only [overloadOf, LocalOverload.relocate, hargs, hhead, hloc]
      have hstep : (withCallable u f' (overloadOf f' sig i)).relocate g =
          (withCallable t f (overloadOf f sig i)).relocate g := by
        rw [relocate_withCallable, relocate_withCallable, hu, hkind, hname, hoverload]
      obtain ⟨u', hfills, heq⟩ := ih hrest hstep
      refine ⟨u', .fn (hsig'.trans hsig) (hlength.trans hlength'.symm) ?_ hfills, heq⟩
      rw [hkind, hname]
      exact forall_sig_ne hu hne
    | _ => cases hit

theorem OneFixity.of_outline {externals : ExternalTable} {φ : String → Fixity}
    {its its' : List Item} (h : OneFixity externals φ its)
    (houtline : its'.map (Item.outline g) = its.map (Item.outline g)) :
    OneFixity externals φ its' := by
  refine ⟨h.imported, ?_⟩
  intro f' hf' x hx
  have hmem : (Item.fn f').outline g ∈ its.map (Item.outline g) :=
    houtline ▸ List.mem_map_of_mem hf'
  obtain ⟨it, hit, heq⟩ := List.mem_map.1 hmem
  cases it with
  | fn f =>
    obtain ⟨hhead, hname, -⟩ := Outline.fn.inj heq
    rw [← hname]
    exact h.own f hit x (hhead.trans hx)
  | _ => cases heq

end Declarations

/-! ## Accepted programs -/

namespace Accepted

variable {externals : ExternalTable} {o : Options} {p p' : Program} {t : ModuleTable}

theorem plainLocals (h : Accepted externals o p t) : ∀ it ∈ p.items, it.PlainLocals := by
  intro it hit
  have hnormal := h.normal.items it hit
  cases it with
  | fn f => exact Annotations.NormalCallable.locals hnormal
  | _ => trivial

/-- A program with the outlines of an accepted one is accepted, with the same table when places are
moved. -/
theorem of_outline (h : Accepted externals o p t)
    (houtline : p'.items.map (Item.outline g) = p.items.map (Item.outline g))
    (hlocals : ∀ it ∈ p'.items, it.PlainLocals) :
    ∃ t', Accepted externals o p' t' ∧ t'.relocate g = t.relocate g := by
  obtain ⟨φ, hφ⟩ := h.fixity
  have hstart : (Annotations.withSynonyms (.start o) p'.items).relocate g =
      (Annotations.withSynonyms (.start o) p.items).relocate g := by
    simp only [Annotations.withSynonyms, ModuleTable.relocate,
      Annotations.relocate_synonymsOf houtline]
  obtain ⟨t', hfills, heq⟩ := h.fills.of_outline houtline hstart
  refine ⟨t', ⟨⟨h.normal.declarable.of_outline houtline, ?_⟩, hfills, ⟨φ, hφ.of_outline houtline⟩⟩,
    heq⟩
  intro it' hit'
  have hmem : it'.outline g ∈ p.items.map (Item.outline g) := houtline ▸ List.mem_map_of_mem hit'
  obtain ⟨it, hit, hsame⟩ := List.mem_map.1 hmem
  exact (h.normal.items it hit).of_outline hsame.symm (hlocals it' hit')

/-- Of an accepted program nothing is reported, and it stays as it is. -/
theorem declareModule_eq (h : Accepted externals o p t) :
    declareModule externals p (.start o) = pure (p, t) := by
  obtain ⟨φ, hφ⟩ := h.fixity
  have hnormal := Annotations.normalise_of_normal (t := .start o) h.normal rfl
  have hitems := h.fills.items_eq
  have hfixities := Declarations.fixities_of_oneFixity p.items [] hφ nofun
  simp only [declareModule, hnormal, Declarations.collect, pure_bind, hitems, hfixities]

end Accepted

end SplFrontend
