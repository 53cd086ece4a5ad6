import SplFrontend.Proofs.Accepted
import SplFrontend.Proofs.Precedence
import SplFrontend.Proofs.Typing

/-!
# Soundness of the passes

A module that passes all passes is well typed by its own tables. Each pass hands an invariant of
every item to the next one: scoping leaves variables that refer to entries of the final tables,
grouping leaves no flat sequence, and checking turns such items into typed ones.
-/

namespace SplFrontend

/-- What stands at the nodes of an expression that is ready to be checked. -/
abbrev Nodes.ready (cx : Typing.Context) : Nodes := { Nodes.tagged cx with flat := False }

theorem Ty.isVoid_iff {t : Ty} : t.isVoid = true ↔ t = .void := by
  cases t with
  | basic b => cases b <;> simp [isVoid]
  | _ => simp [isVoid]

/-! ## Expressions -/

theorem Visible.designates_of_mem {v : Visible} {kind : CallKind} {name : String} {c : Candidate}
    (h : c ∈ v.candidates kind name) (ty : Ty) :
    v.Designates ⟨kind, name, c.exported, c.index, c.module, ty⟩ c.sig := by
  obtain h | h := List.mem_append.1 h
  · obtain ⟨i, hi⟩ := List.mem_iff_getElem?.1 h
    rw [getElem?_localCandidates] at hi
    obtain ⟨o, ho, rfl⟩ := Option.map_eq_some_iff.1 hi
    exact .own rfl ho rfl
  · obtain ⟨i, hi⟩ := List.mem_iff_getElem?.1 h
    rw [getElem?_externalCandidates] at hi
    obtain ⟨o, ho, rfl⟩ := Option.map_eq_some_iff.1 hi
    exact .external rfl ho rfl

namespace Typing

variable {cx : Context}

theorem eq_of_mismatch {found : Ty} {expected : Option Ty} {l : Loc}
    (h : ∀ d ∈ mismatch found expected l, NotError d) : ∀ u ∈ expected, u = found := by
  intro u hu
  cases hu
  by_cases he : u = found
  · exact he
  · rw [mismatch, if_neg he] at h
    exact absurd (h _ List.mem_cons_self) (not_notError rfl _ _)

/-- What checking promises of an expression with a type: the type is the expected one, and the
checked expression has it. -/
def Checked.Sound (cx : Context) (expected : Option Ty) (c : Checked Expr) : Prop :=
  ∃ t, c.ty = some t ∧ HasType cx c.value t ∧ ∀ u ∈ expected, u = t

theorem literal_sound {e : Expr} {t : Ty} {expected : Option Ty} (he : HasType cx e t)
    (h : ∀ d ∈ (literal e t expected).errors, NotError d) :
    (literal e t expected).Sound cx expected :=
  ⟨t, rfl, he, eq_of_mismatch h⟩

theorem emptyList_sound {given expected : Option Ty} {l : Loc}
    (h : ∀ d ∈ (emptyList given expected l).errors, NotError d) :
    (emptyList given expected l).Sound cx expected := by
  revert h
  unfold emptyList
  split
  · next elem he =>
    intro _
    refine ⟨_, rfl, .emptyList, fun u hu => ?_⟩
    cases hu
    exact Option.some.inj he
  · exact fun h => absurd (h _ List.mem_cons_self) (not_notError rfl _ _)
  · exact fun h => absurd (h _ List.mem_cons_self) (not_notError rfl _ _)

theorem variableOf_sound {expected : Option Ty} {v : Variable} (hv : ∃ t, cx.Refers v.ref t)
    (h : ∀ d ∈ (variableOf cx expected v).errors, NotError d) :
    ∃ t, (variableOf cx expected v).ty = some t ∧ cx.HasVar (variableOf cx expected v).value t ∧
      ∀ u ∈ expected, u = t := by
  obtain ⟨declared, hr⟩ := hv
  unfold variableOf at h ⊢
  rw [hr.declared_eq] at h ⊢
  simp only at h ⊢
  cases hn : declared.narrow v.accessors with
  | ok t =>
    rw [hn] at h
    exact ⟨t, rfl, ⟨declared, hr, hn, rfl⟩, eq_of_mismatch h⟩
  | error x =>
    rw [hn] at h
    exact absurd (h _ List.mem_cons_self)
      (not_notError (by simp only [Fault.code]; split <;> rfl) _ _)

/-- The components of a pair are expected to have the types that make up the expected one. -/
theorem components_of_notes {expected : Option Ty} {l : Loc}
    (h : ∀ d ∈ (components expected l).2.2, NotError d) :
    expected = none ∧ components expected l = (none, none, []) ∨
      ∃ a b, expected = some (.pair a b) ∧ components expected l = (some a, some b, []) := by
  unfold components at h ⊢
  split at h
  · exact .inr ⟨_, _, rfl, rfl⟩
  · exact absurd (h _ List.mem_cons_self) (not_notError rfl _ _)
  · exact .inl ⟨rfl, rfl⟩

theorem pairOf_sound {expected : Option Ty} {l : Loc} {a b : Checked Expr}
    (h : ∀ d ∈ (components expected l).2.2, NotError d)
    (ha : a.Sound cx (components expected l).1) (hb : b.Sound cx (components expected l).2.1) :
    (pairOf ((components expected l).1, (components expected l).2.1)
      (components expected l).2.2 a b l).Sound cx expected := by
  obtain ⟨t, hta, hat, hea⟩ := ha
  obtain ⟨u, htb, hbu, heb⟩ := hb
  refine ⟨.pair t u, by simp [pairOf, hta, htb], .pair hat hbu, fun w hw => ?_⟩
  cases hw
  obtain ⟨h, -⟩ | ⟨x, y, h, hc⟩ := components_of_notes h
  · cases h
  · cases h
    rw [hea x (by rw [hc]; rfl), heb y (by rw [hc]; rfl)]

mutual

/-- A checked expression without an error has a type. -/
theorem expr_sound : ∀ (e : Expr) (expected : Option Ty), e.All (.ready cx) →
    (∀ d ∈ (expr cx expected e).errors, NotError d) → (expr cx expected e).Sound cx expected
  | .int .., _, _, h => literal_sound .int h
  | .char .., _, _, h => literal_sound .char h
  | .bool .., _, _, h => literal_sound .bool h
  | .str .., _, _, h => literal_sound .str h
  | .emptyList .., _, _, h => emptyList_sound h
  | .pair a b l, expected, ha, h => by
    simp only [expr, pairOf, List.forall_mem_append] at h ⊢
    exact pairOf_sound h.1.1 (expr_sound a _ ha.1 h.1.2) (expr_sound b _ ha.2 h.2)
  | .var v, expected, hv, h => by
    obtain ⟨t, ht, hvar, he⟩ := variableOf_sound hv.1 h
    exact ⟨t, ht, .var hvar, he⟩
  | .flat .., _, ha, _ => ha.1.elim
  | .call kind name as l, expected, ha, h => by
    rw [expr] at h ⊢
    obtain ⟨c, t, hc, hmem, hlen, he, ht⟩ | ⟨f, hf, hc⟩ :=
      callOf_cases cx.visible kind name as l expected
      (fun ps => matchArgs cx as ps) fun _ => argTypes cx as
    · rw [hc] at h ⊢
      exact ⟨_, rfl, .bound (Visible.designates_of_mem hmem _)
        (matchArgs_sound as _ ha hlen.symm ht h) rfl, he⟩
    · rw [hc] at h
      exact absurd (h _ List.mem_cons_self) (not_notError hf _ _)
  | .bound .., _, ha, _ => ha.1.elim

theorem matchArgs_sound :
    ∀ (as : List Expr) (ps : List Ty) {t : Trial}, Expr.AllArgs (.ready cx) as →
    as.length = ps.length → matchArgs cx as ps = some t → (∀ d ∈ t.errors, NotError d) →
    HasTypes cx t.args ps
  | [], [], _, _, _, ht, _ => by
    cases ht
    exact .nil
  | [], _ :: _, _, _, hl, _, _ => by cases hl
  | _ :: _, [], _, _, hl, _, _ => by cases hl
  | a :: as, p :: ps, t, ha, hl, ht, h => by
    simp only [matchArgs] at ht
    split at ht
    · obtain ⟨u, hu, rfl⟩ := Option.map_eq_some_iff.1 ht
      obtain ⟨hea, heas⟩ := List.forall_mem_append.1 h
      obtain ⟨w, -, hw, he⟩ := expr_sound a (some p) ha.1 hea
      cases he p rfl
      exact .cons hw (matchArgs_sound as ps ha.2 (Nat.succ.inj hl) hu heas)
    · cases ht

end

/-! ## Places -/

theorem expected_sound {t : Ty} {e : Expr} (he : e.All (.ready cx))
    (h : ∀ d ∈ (expr cx (some t) e).errors, NotError d) :
    HasType cx (expr cx (some t) e).value t := by
  obtain ⟨u, -, hu, heq⟩ := expr_sound e (some t) he h
  cases heq t rfl
  exact hu

theorem against_sound {wanted : Ty → Ty} {v : Variable} {e : Expr} (hv : (Nodes.ready cx).var v)
    (he : e.All (.ready cx)) (h : ∀ d ∈ (against cx wanted v e).notes, NotError d) :
    ∃ t, cx.HasVar (against cx wanted v e).value.1 t ∧
      HasType cx (against cx wanted v e).value.2 (wanted t) := by
  simp only [against, Noted.forall_notes_bind] at h
  obtain ⟨t, ht, hvar, -⟩ := variableOf_sound hv.1 h.1
  simp only [against, ht, Noted.forall_notes_bind] at h ⊢
  exact ⟨t, hvar, expected_sound he h.2.1⟩

theorem returned_sound {s : FnScope} (hcx : cx.fn = some s) {l : Loc} {value : Option Expr}
    (he : ∀ e ∈ value, e.All (.ready cx)) (h : ∀ d ∈ (returned cx l value).notes, NotError d) :
    (Place.ret l (returned cx l value).value).Typed cx := by
  cases hv : s.result.isVoid with
  | true =>
    cases value with
    | none =>
      rw [returned_none]
      exact ⟨s, hcx, Ty.isVoid_iff.1 hv⟩
    | some e =>
      simp only [returned, hcx, hv, if_true, Noted.forall_notes_bind] at h
      exact absurd (h.1 _ List.mem_cons_self) (not_notError rfl _ _)
  | false =>
    cases value with
    | none =>
      simp only [returned, hcx, hv, Bool.not_false, if_true, Noted.forall_notes_bind] at h
      exact absurd (h.1 _ List.mem_cons_self) (not_notError rfl _ _)
    | some e =>
      simp only [returned, hcx, hv, Bool.false_eq_true, if_false, Noted.forall_notes_bind] at h ⊢
      have hresult : s.result ≠ .void := by
        intro hvoid
        rw [Ty.isVoid_iff.2 hvoid] at hv
        cases hv
      exact ⟨s, hcx, hresult, expected_sound (he e rfl) h.1⟩

theorem declared_sound {d : VarDecl} (he : d.init.All (.ready cx))
    (hs : Scoping.InScope cx (.decl d)) (h : ∀ x ∈ (declared cx d).notes, NotError x) :
    (Place.decl (declared cx d).value).Typed cx := by
  obtain ⟨t, ht, hr⟩ := hs
  simp only [declared, ht, Noted.forall_notes_bind] at h ⊢
  exact ⟨t, rfl, hr, expected_sound he h.1⟩

/-- Checking makes a place of a body typed. -/
theorem typed_at {s : FnScope} (hcx : cx.fn = some s) {p : Place} (hp : p.All (.ready cx))
    (hs : Scoping.InScope cx p) (h : ∀ d ∈ ((body cx).at p).notes, NotError d) :
    ((body cx).at p).value.Typed cx := by
  cases p with
  | decl d =>
    simp only [Rewriter.at, body, Noted.forall_notes_bind] at h
    exact declared_sound hp hs h.1
  | assign v e =>
    simp only [Rewriter.at, body, Noted.forall_notes_bind] at h
    exact against_sound hp.1 hp.2 h.1
  | guard e =>
    simp only [Rewriter.at, body, Noted.forall_notes_bind] at h
    exact expected_sound hp h.1
  | each v e =>
    simp only [Rewriter.at, body, Noted.forall_notes_bind] at h
    exact against_sound hp.1 hp.2 h.1
  | ret l e =>
    simp only [Rewriter.at, body, Noted.forall_notes_bind] at h
    exact returned_sound hcx hp h.1
  | call e =>
    simp only [Rewriter.at, body, Noted.forall_notes_bind] at h
    obtain ⟨t, -, ht, -⟩ := expr_sound e none hp h.1
    exact ⟨t, ht⟩

end Typing

/-! ## Items -/

/-- The invariant between scoping and grouping. -/
def Place.Tagged (cx : Typing.Context) (p : Place) : Prop :=
  p.All (.tagged cx) ∧ Scoping.InScope cx p

/-- The invariant between grouping and checking. -/
def Place.Ready (cx : Typing.Context) (p : Place) : Prop := p.All (.ready cx) ∧ Scoping.InScope cx p

namespace Scoping

variable {externals : ExternalTable} {o : Options} {p : Program} {t t' : ModuleTable}
  {its : List Item}

theorem global_tagged {d : VarDecl} (hd : d.init.All .fresh) {u : Ty} (hty : d.ty = some u)
    (hl : t'.globals.lookup d.name = some ⟨u, d.loc⟩) (ht : t'.globals = t.globals)
    (h : ∀ x ∈ (global t externals d).notes, NotError x) :
    (Place.decl (global t externals d).value).Tagged ⟨⟨t', externals⟩, none⟩ := by
  rw [global_eq] at h ⊢
  refine ⟨?_, u, hty, .own (e := ⟨u, d.loc⟩) hl⟩
  exact all_expr (turns_tag (fun _ => rfl) (refers_of_inGlobal ht rfl)) hd
    (List.forall_mem_append.1 h).2

/-- Scoping an accepted program leaves every item tagged for the final table. -/
theorem meets_tagged (ha : Accepted externals o p t) (hfresh : ∀ i ∈ p.items, i.All .fresh)
    (h : Tags externals NotError 0 p.items t its t') {i : Nat} {it : Item}
    (hi : its[i]? = some it) :
    it.Meets ⟨t', externals⟩ i Place.Tagged := by
  obtain ⟨old, hold, hrel⟩ := h.getElem? hi
  have hmem := List.mem_of_getElem? hold
  cases old with
  | synonym s =>
    cases hrel
    trivial
  | global d =>
    obtain ⟨rfl, hn⟩ := hrel
    obtain ⟨u, hu, hl⟩ := ha.fills.lookup_globals hmem
    exact global_tagged (hfresh _ hmem) hu (h.globals_eq ▸ hl) h.globals_eq hn
  | fn f =>
    obtain ⟨_, b, locals, ho, ho', rfl, hw⟩ := hrel
    rw [Nat.zero_add] at ho ho'
    obtain ⟨sig, hsig, hof⟩ := ha.overloadForItem hold
    cases ho.symm.trans hof
    have hnormal : Annotations.NormalCallable f := ha.normal.items _ hmem
    refine ⟨_, ho', hsig, ?_, ?_⟩
    · exact Declarations.argScope_of_nodup hnormal.params
    · exact holds_tagged h.globals_eq rfl rfl hw (hfresh _ hmem) hnormal.locals

end Scoping

namespace Precedence

variable {v : Visible} {cx : Typing.Context}

theorem inScope_at {p : Place} (h : Scoping.InScope cx p) :
    Scoping.InScope cx ((body v).at p).value := by
  cases p with
  | decl d => exact h
  | _ => trivial

/-- A sequence that stays flat is reported as an error. -/
theorem error_of_flat (kind : CallKind) (name : String) (loc : Loc) :
    ¬ NotError ((Fault.undefinedCallable kind name).report loc) := by
  refine not_notError ?_ loc []
  cases kind <;> rfl

theorem ready_at {p : Place} (hp : p.Tagged cx) (h : ∀ d ∈ ((body v).at p).notes, NotError d) :
    ((body v).at p).value.Ready cx :=
  ⟨all_at (.inr error_of_flat) hp.1 h, inScope_at hp.2⟩

theorem meets_item {it : Item} {i : Nat} (hit : it.Meets v i Place.Tagged)
    (h : ∀ d ∈ (item v it).notes, NotError d) : (item v it).value.Meets v i Place.Ready := by
  cases it with
  | synonym s => trivial
  | global d =>
    simp only [item, Noted.forall_notes_bind] at h
    exact ⟨all_expr (.inr error_of_flat) hit.1 h.1, hit.2⟩
  | fn f =>
    obtain ⟨o, ho, hsig, hargs, hbody⟩ := hit
    simp only [item, Noted.forall_notes_bind] at h
    refine ⟨o, ho, hsig, hargs, ?_⟩
    refine ((Stmt.walk_rewriteAll_lift f.body h.1).and hbody).holds ?_
    rintro _ p _ _ ⟨⟨rfl, hn⟩, hp⟩
    exact ready_at hp hn

theorem meets_ready {p : Program} (hp : p.Meets v Place.Tagged)
    (h : ∀ d ∈ (resolve v p).notes, NotError d) : (resolve v p).value.Meets v Place.Ready := by
  simp only [resolve, Noted.forall_notes_bind, Noted.notes_mapM, List.mem_flatMap] at h
  intro i it hi
  rw [items_resolve, List.getElem?_map] at hi
  obtain ⟨old, hold, rfl⟩ := Option.map_eq_some_iff.1 hi
  exact meets_item (hp i old hold) fun d hd => h.1 d ⟨old, List.mem_of_getElem? hold, hd⟩

end Precedence

namespace Typing

variable {v : Visible}

theorem meets_item {it : Item} {i : Nat} (hit : it.Meets v i Place.Ready)
    (h : ∀ d ∈ (item v i it).notes, NotError d) : (item v i it).value.Meets v i Place.Typed := by
  cases it with
  | synonym s => trivial
  | global d =>
    simp only [item, global, Noted.forall_notes_bind] at h
    have hd := declared_sound hit.1 hit.2 h.1.1
    rw [← value_global] at hd
    exact hd
  | fn f =>
    obtain ⟨o, ho, hsig, hargs, hbody⟩ := hit
    simp only [item, ho, Noted.forall_notes_bind] at h ⊢
    refine ⟨o, ho, hsig, hargs, ?_⟩
    refine ((Stmt.walk_rewriteAll_lift f.body h.1).and hbody).holds ?_
    rintro _ p _ _ ⟨⟨rfl, hn⟩, hp⟩
    exact typed_at rfl hp.1 hp.2 hn

theorem meets_items : ∀ (i : Nat) (its : List Item),
    (∀ (j : Nat) (it : Item), its[j]? = some it → it.Meets v (i + j) Place.Ready) →
    (∀ d ∈ (items v i its).notes, NotError d) →
    ∀ (j : Nat) (it : Item), (items v i its).value[j]? = some it → it.Meets v (i + j) Place.Typed
  | _, [], _, _, _, _, hj => by cases hj
  | i, first :: rest, hm, h, j, it, hj => by
    simp only [items, Noted.forall_notes_bind] at h
    cases j with
    | zero =>
      cases hj
      exact meets_item (hm 0 first rfl) h.1
    | succ j =>
      rw [← Nat.add_assoc, Nat.add_right_comm]
      refine meets_items (i + 1) rest (fun k it hk => ?_) h.2.1 j it hj
      rw [Nat.add_right_comm]
      exact hm (k + 1) it hk

theorem meets_typed {p : Program} (hp : p.Meets v Place.Ready)
    (h : ∀ d ∈ (resolve v p).notes, NotError d) : (resolve v p).value.Meets v Place.Typed := by
  simp only [resolve, Noted.forall_notes_bind] at h
  intro i it hi
  have hit :=
    meets_items 0 p.items (fun j it hj => by rw [Nat.zero_add]; exact hp j it hj) h.1 i it hi
  rwa [Nat.zero_add] at hit

end Typing

/-! ## Modules -/

/-- A module that passes all passes is fully resolved and well typed by its own tables. -/
theorem Resolved.wellTyped_of_compile {text : String} {headers : HeaderTexts} {o : Options}
    {r : Resolved} (h : compile text headers o = .ok r) : r.WellTyped := by
  obtain ⟨p, hp, hr⟩ := bind_eq_ok_iff.1 h
  obtain ⟨hn, rfl⟩ := resolve_eq_ok_iff.1 hr
  have hnotes : ∀ d ∈ (stages p headers o).notes, NotError d := fun d hd => (hn d hd).1
  obtain ⟨-, -, htagged, hgrouped, hchecked, -⟩ := Stages.forall_notes.1 hnotes
  rw [tagged_stages] at htagged
  rw [grouped_stages] at hgrouped
  rw [checked_stages] at hchecked
  have hfresh := (Program.printable_of_ofText hp).2.all
  have ha := accepted_declared hnotes
  have hmeets :
      (stages p headers o).tagged.value.1.Meets (stages p headers o).visible Place.Tagged := by
    intro i it hi
    rw [tagged_stages] at hi
    exact Scoping.meets_tagged ha (declared_fresh hfresh) (ha.tags htagged) hi
  have hready :
      (stages p headers o).grouped.value.Meets (stages p headers o).visible Place.Ready := by
    rw [grouped_stages]
    exact Precedence.meets_ready hmeets hgrouped
  simp only [Resolved.WellTyped, Stages.resolved, checked_stages]
  exact Typing.meets_typed hready hchecked

/-- A module with an imported global, a synonym, operators of three precedences, a prefix operator,
accessors, an empty list and a recursive call. -/
theorem Resolved.wellTyped_of_compile_sample :
    ∃ r, compile ("from lib importall; type P = (Int, [Bool]); P g = (z, []);" ++
        "f(x) :: P -> Int \x7b Int i = 0; while (x.fst < 2 + z * 3) \x7b i = -i; \x7d " ++
        "return f((i, g.snd)); \x7d")
      [("lib", "\x7b\"module\": \"lib\", \"globals\": [" ++
        "\x7b\"name\": \"z\", \"type\": \"BASICTYPE(type_id=\\\"Int\\\")\"\x7d]\x7d")]
      { module := "m" } = .ok r ∧ r.WellTyped :=
  exists_ok_of_isOk (by decide +kernel) fun _ h => Resolved.wellTyped_of_compile h

end SplFrontend
