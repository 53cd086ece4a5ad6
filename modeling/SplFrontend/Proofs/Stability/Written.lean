import SplFrontend.Proofs.Stability.Declarations
import SplFrontend.Proofs.Soundness
import SplFrontend.Proofs.Unlocated

/-!
# Passes over written programs

What is printed of a resolved program is less than the program: names in place of references,
sequences of two operands in place of infix calls, no types and no bindings. The passes find all of
it again. At a place where every reference is what its name leads to, scoping makes the tagged form
of an expression out of the written one (`Scoping.expr_written`), and where every operator has a
fixity, grouping makes the untyped form out of the tagged one (`Precedence.expr_tagged`).
-/

namespace SplFrontend

/-! ## Tables up to places -/

namespace Visible

variable {g : Loc → Loc} {t t' : ModuleTable} {externals : ExternalTable}

theorem localCandidates_relocate (t : ModuleTable) (externals : ExternalTable) (kind : CallKind)
    (name : String) :
    localCandidates ⟨t.relocate g, externals⟩ kind name =
      localCandidates ⟨t, externals⟩ kind name := by
  refine List.ext_getElem? fun i => ?_
  rw [getElem?_localCandidates, getElem?_localCandidates, ModuleTable.overloads_relocate,
    List.getElem?_map, Option.map_map]
  rfl

variable (h : t'.relocate g = t.relocate g)

include h

theorem localCandidates_congr (kind : CallKind) (name : String) :
    localCandidates ⟨t', externals⟩ kind name = localCandidates ⟨t, externals⟩ kind name := by
  rw [← localCandidates_relocate (g := g) t', h, localCandidates_relocate]

theorem candidates_congr (kind : CallKind) (name : String) :
    candidates ⟨t', externals⟩ kind name = candidates ⟨t, externals⟩ kind name := by
  rw [candidates, localCandidates_congr h]
  rfl

theorem target_congr (b : Binding) : target ⟨t', externals⟩ b = target ⟨t, externals⟩ b := by
  rw [target, target, localCandidates_congr h]
  rfl

theorem fixityOf_congr (name : String) :
    fixityOf ⟨t', externals⟩ name = fixityOf ⟨t, externals⟩ name := by
  rw [fixityOf, ← ModuleTable.fixityOf_relocate (g := g), h, ModuleTable.fixityOf_relocate]
  rfl

end Visible

theorem Scope.map_ty_lookup_congr {g : Loc → Loc} {s s' : Scope} (h : s'.relocate g = s.relocate g)
    (name : String) :
    (s'.lookup name).map Entry.ty = (s.lookup name).map Entry.ty := by
  have hlookup := congrArg (Option.map Entry.ty) (lookup_eq_of_relocate h name)
  rwa [Option.map_map, Option.map_map] at hlookup

namespace Typing

variable {g : Loc → Loc} {t t' : ModuleTable} {externals : ExternalTable}

/-- Outside of bodies tables that are the same up to places give the same answers. -/
theorem same_of_relocate (h : t'.relocate g = t.relocate g) :
    Context.Same ⟨⟨t, externals⟩, none⟩ ⟨⟨t', externals⟩, none⟩ where
  declared r := by
    cases r with
    | own n => exact Scope.map_ty_lookup_congr (congrArg ModuleTable.globals h) n
    | _ => rfl
  candidates := Visible.candidates_congr h
  target := Visible.target_congr h
  result := rfl

/-- In bodies also the variables of the body are asked for. -/
theorem same_of_overload (h : t'.relocate g = t.relocate g) {o o' : LocalOverload}
    (ho : o'.relocate g = o.relocate g) :
    Context.Same ⟨⟨t, externals⟩, some ⟨o.args, o.locals, o.sig.result⟩⟩
      ⟨⟨t', externals⟩, some ⟨o'.args, o'.locals, o'.sig.result⟩⟩ where
  declared r := by
    cases r with
    | own n => exact Scope.map_ty_lookup_congr (congrArg ModuleTable.globals h) n
    | localVar n => exact Scope.map_ty_lookup_congr (congrArg LocalOverload.locals ho) n
    | argument n => exact Scope.map_ty_lookup_congr (congrArg LocalOverload.args ho) n
    | _ => rfl
  candidates := Visible.candidates_congr h
  target := Visible.target_congr h
  result := by
    have hsig := congrArg LocalOverload.sig ho
    simp only [LocalOverload.relocate] at hsig
    simp only [hsig, Option.map_some]

end Typing

/-! ## Blocks without states -/

/-- A rewriter that at every place of a walk makes, without a report, what is kept of the second
place makes what is kept of the second block. -/
theorem Stmt.unlocated_rewriteAll {τ : Type} {w : Rewriter Noted} {L : Loc → Loc → Prop}
    {R : τ → Place → Place → τ → Prop} {k : Erasure} {s s' : τ} {a b : List Stmt}
    (h : Stmt.WalkAll L R s a b s')
    (hr : ∀ {s p q s'}, R s p q s' → (w.at p).unlocated (Place.erase .places) = pure (q.erase k)) :
    (Stmt.rewriteAll w a).unlocated (Stmt.eraseAll .places) = pure (Stmt.eraseAll k b) := by
  obtain ⟨hn, hw⟩ :=
    h.follow_lift (w := w) (P := fun _ => False) (E := Place.Agree .places k) fun hpq => by
    have hat := hr hpq
    rw [Noted.notes_of_unlocated hat]
    exact ⟨List.forall_mem_nil _, congrArg Noted.value hat⟩
  refine Noted.ext (hw.erase_eq fun _ _ _ _ h => h) ?_
  rw [Noted.unlocated, List.eq_nil_iff_forall_not_mem.2 hn]
  rfl

/-! ## Scoping what is written -/

theorem Place.Agree.declared_eq {k k' : Erasure} {p q : Place} (h : Agree k k' p q) :
    p.declared = q.declared := by
  have hdeclared : ∀ (k : Erasure) (p : Place), (p.erase k).declared = p.declared := by
    intro k p
    cases p <;> rfl
  rw [← hdeclared k, h, hdeclared]

theorem Scoping.declared_place {f : Variable → Noted Variable} {v : Visible} (p : Place) :
    ((Precedence.body v).at (place f p).value).value.declared = p.declared := by
  cases p with
  | ret l e => cases e <;> rfl
  | _ => rfl

/-- Every variable refers to what its name leads to. -/
def Nodes.found (lookup : String → Option Ref) : Nodes where
  var v := lookup v.ref.name = some v.ref
  empty _ := True
  flat := True
  bound _ _ := True

/-- Calls of equally many arguments are kept alike. -/
theorem Erasure.call_alike (k k' : Erasure) (kind : CallKind) (name : String) {as es : List Expr}
    (h : es.length = as.length) :
    (k.call kind name as = .call kind name as .nowhere ∧
      k'.call kind name es = .call kind name es .nowhere) ∨
      ∃ l r l' r', kind = .infixOp ∧ as = [l, r] ∧ es = [l', r'] := by
  obtain hc | ⟨l, r, hkind, rfl, -⟩ := k.call_cases kind name as
  · obtain hc' | ⟨l', r', hkind, rfl, -⟩ := k'.call_cases kind name es
    · exact .inl ⟨hc, hc'⟩
    · match as, h with
      | [l, r], _ => exact .inr ⟨l, r, l', r', hkind, rfl, rfl⟩
  · match es, h with
    | [l', r'], _ => exact .inr ⟨l, r, l', r', hkind, rfl, rfl⟩

namespace Scoping

section

variable {lookup : String → Option Ref} {missing : String → Fault} {f : Variable → Noted Variable}

/-- Scoping leaves variables that refer to what their names lead to. -/
theorem turns_found (hm : ∀ n, (missing n).code.isError = true)
    (hl : ∀ {n r}, lookup n = some r → r.name = n) :
    Turns (tag lookup missing) NotError .fresh (.found lookup) where
  var {v} hv hn := by
    obtain ⟨r, hr, hval⟩ := lookup_of_tag hm hv hn
    rw [hval]
    show lookup r.name = some r
    rw [hl hr, hr]
  empty _ := trivial
  flat := id
  bound := False.elim

theorem tag_written {v : Variable} (h : (Nodes.found lookup).var v) :
    tag lookup missing (v.erase .resolution) = pure (v.erase .grouping) := by
  have hl : lookup v.ref.name = some v.ref := h
  simp only [tag, Variable.erase, Erasure.resolution, hl]
  rfl

theorem expr_call_written {kind : CallKind} {name : String} {as es : List Expr}
    (h : exprs f as = pure es) :
    expr f (Erasure.resolution.call kind name as) = pure (Erasure.grouping.call kind name es) := by
  have hlength : es.length = as.length := by
    rw [← length_exprs (f := f) as, h]
    rfl
  obtain ⟨hcall, hcall'⟩ | ⟨l, r, l', r', rfl, rfl, rfl⟩ :=
    Erasure.call_alike .resolution .grouping kind name hlength
  · rw [hcall, hcall', expr, h]
    rfl
  · simp only [exprs, Noted.bind_eq_pure_iff, pure_bind, Noted.pure_inj] at h
    obtain ⟨_, hl, _, ⟨_, hr, rfl⟩, heq⟩ := h
    cases heq
    simp only [Erasure.call, Erasure.resolution, Erasure.grouping, Bool.false_eq_true, if_false,
      expr, operands, hl, hr, pure_bind]

mutual

/-- Scoping the written form of an expression gives its tagged form. -/
theorem expr_written : ∀ {e : Expr}, e.All (.found lookup) →
    expr (tag lookup missing) (e.erase .resolution) = pure (e.erase .grouping)
  | .int .., _ | .char .., _ | .bool .., _ | .str .., _ => by simp only [Expr.erase, expr]
  | .emptyList .., _ => by
    simp only [Expr.erase, expr]
    rfl
  | .pair a b _, h => by
    simp only [Expr.erase, expr, expr_written h.1, expr_written h.2, pure_bind]
  | .var v, h => by
    simp only [Expr.erase, expr, tag_written h, pure_bind]
  | .flat e rest _, h => by
    simp only [Expr.erase, expr, expr_written h.2.1, operands_written h.2.2, pure_bind]
  | .call kind name args _, h => by
    rw [Expr.erase, Expr.erase]
    exact expr_call_written (exprs_written h)
  | .bound b args _, h => by
    rw [Expr.erase, Expr.erase, if_neg (by decide), if_neg (by decide)]
    exact expr_call_written (exprs_written h.2)

theorem exprs_written : ∀ {es : List Expr}, Expr.AllArgs (.found lookup) es →
    exprs (tag lookup missing) (Expr.eraseArgs .resolution es) = pure (Expr.eraseArgs .grouping es)
  | [], _ => by rw [Expr.eraseArgs, Expr.eraseArgs, exprs]
  | e :: es, h => by
    simp only [Expr.eraseArgs, exprs, expr_written h.1, exprs_written h.2, pure_bind]

theorem operands_written : ∀ {rest : List (OpUse × Expr)}, Expr.AllRest (.found lookup) rest →
    operands (tag lookup missing) (Expr.eraseRest .resolution rest) =
      pure (Expr.eraseRest .grouping rest)
  | [], _ => by rw [Expr.eraseRest, Expr.eraseRest, operands]
  | (op, e) :: rest, h => by
    simp only [Expr.eraseRest, operands, expr_written h.1, operands_written h.2, pure_bind]

end

theorem place_written {p : Place} (h : p.All (.found lookup)) :
    place (tag lookup missing) (p.erase .resolution) = pure (p.erase .grouping) := by
  cases p with
  | decl d =>
    have hd : d.init.All (.found lookup) := h
    simp only [Place.erase, VarDecl.erase, place, expr_written hd, pure_bind]
  | assign v e | each v e =>
    simp only [Place.erase, place, tag_written h.1, expr_written h.2, pure_bind]
  | guard e | call e =>
    have he : e.All (.found lookup) := h
    simp only [Place.erase, place, expr_written he, pure_bind]
  | ret l e =>
    cases e with
    | none => rfl
    | some e => simp only [Place.erase, Option.map_some, place, expr_written (h e rfl), pure_bind]

end

/-! Tables and scopes that are the same up to places lead the names to the same references. -/

section

variable {t t' : ModuleTable} {externals : ExternalTable} {args args' s s' : Scope}

theorem inFunction_congr (ht : t'.relocate .forget = t.relocate .forget)
    (hargs : args'.relocate .forget = args.relocate .forget)
    (hs : s'.relocate .forget = s.relocate .forget) :
    inFunction t' externals args' s' = inFunction t externals args s := by
  have hglobals : t'.globals.relocate .forget = t.globals.relocate .forget :=
    congrArg ModuleTable.globals ht
  funext name
  rw [inFunction, Scope.isSome_lookup_of_relocate hs, Scope.isSome_lookup_of_relocate hargs,
    Scope.isSome_lookup_of_relocate hglobals, ← inFunction]

theorem inGlobal_congr (ht : t'.relocate .forget = t.relocate .forget) (name : String) :
    inGlobal t' externals ((t'.globalIndex name).getD t'.globals.length) =
      inGlobal t externals ((t.globalIndex name).getD t.globals.length) := by
  have hindex : ∀ name, t'.globalIndex name = t.globalIndex name := by
    intro name
    rw [← ModuleTable.globalIndex_relocate (g := .forget) t', ht, ModuleTable.globalIndex_relocate]
  have hlength : t'.globals.length = t.globals.length := by
    have hmap := congrArg (fun u : ModuleTable => u.globals.length) ht
    simpa only [ModuleTable.relocate, Scope.relocate, List.length_map] using hmap
  funext other
  rw [inGlobal, hindex, hindex, hlength, ← inGlobal]

/-- A declaration does the same to both scopes. -/
theorem alike_declare (ht : t'.relocate .forget = t.relocate .forget)
    (hargs : args'.relocate .forget = args.relocate .forget)
    (hs : s'.relocate .forget = s.relocate .forget) {d d' : VarDecl} (hname : d'.name = d.name)
    (hty : d'.ty = d.ty) :
    Noted.Alike (fun a b : Scope => a.relocate .forget = b.relocate .forget)
      (declare t' externals args' s' d') (declare t externals args s d) := by
  have hglobals : t'.globals.relocate .forget = t.globals.relocate .forget :=
    congrArg ModuleTable.globals ht
  rw [declare, declare, hname, hty]
  cases d.ty with
  | none => exact .pure hs
  | some ty =>
    have hpush : Scope.relocate .forget (s' ++ [(d.name, ⟨ty, d'.loc⟩)]) =
        Scope.relocate .forget (s ++ [(d.name, ⟨ty, d.loc⟩)]) := by
      rw [Scope.relocate_append, Scope.relocate_append, hs]
      rfl
    obtain ⟨h', h⟩ | ⟨_, _, h', h⟩ := Scope.lookup_cases hs d.name <;> simp only [h', h]
    · obtain ⟨ha', ha⟩ | ⟨_, _, ha', ha⟩ := Scope.lookup_cases hargs d.name <;> simp only [ha', ha]
      · obtain ⟨hg', hg⟩ | ⟨_, _, hg', hg⟩ :=
          Scope.lookup_cases hglobals d.name <;> simp only [hg', hg]
        · cases externals.globals.lookup d.name with
          | none => exact .pure hpush
          | some e => exact .note_bind rfl (.pure hpush)
        · exact .note_bind rfl (.pure hpush)
      · exact .note_bind rfl (.pure hpush)
    · exact .note_bind rfl (.pure hs)

theorem alike_after (externals : ExternalTable) (ht : t'.relocate .forget = t.relocate .forget)
    (hargs : args'.relocate .forget = args.relocate .forget)
    (hs : s'.relocate .forget = s.relocate .forget) {p p' : Place} (hp : p'.declared = p.declared) :
    Noted.Alike (fun a b : Scope => a.relocate .forget = b.relocate .forget)
      (after t' externals args' s' p') (after t externals args s p) := by
  cases p <;> cases p' <;> try cases hp
  case decl.decl d d' =>
    obtain ⟨hname, hty⟩ : d'.name = d.name ∧ d'.ty = d.ty := by
      simpa only [Place.declared, Place.declares, Option.map_some, Option.some.injEq, Prod.mk.injEq]
        using hp
    exact alike_declare ht hargs hs hname hty
  all_goals exact .pure hs

/-- The place `c` is written like `r`, which is what grouping makes of a scoped place. The scope
goes from `s` to `s'` there. -/
def WrittenAs (t : ModuleTable) (externals : ExternalTable) (args : Scope) (deny : Bool)
    (v : Visible) (s : Scope) (c r : Place) (s' : Scope) : Prop :=
  Place.Agree .places .resolution c r ∧
    ∃ p q, (body t externals args).Graph (Admitted deny) s p q s' ∧
    p.All .fresh ∧ ((Precedence.body v).at q).value = r

variable {deny : Bool} {v : Visible}

/-- At such a place scoping finds the references again, and it declares the same. -/
theorem follows_written (ht : t'.relocate .forget = t.relocate .forget)
    (hargs : args'.relocate .forget = args.relocate .forget) :
    (body t' externals args').Follows (Admitted deny) (WrittenAs t externals args deny v)
      (fun s' s => Scope.relocate .forget s' = Scope.relocate .forget s)
        (Place.Agree .places .grouping) := by
  rintro s' s c r _ hs ⟨hc, p, q, hg, hfresh, hr⟩
  obtain ⟨⟨hq, hn⟩, rfl, hn'⟩ := graph_iff.1 hg
  have hfound : q.All (.found (inFunction t externals args s)) := by
    rw [← hq]
    exact all_place (turns_found (fun _ => rfl) name_inFunction) hfresh fun d hd => (hn d hd).1
  have hgrouped : r.All (.found (inFunction t externals args s)) := by
    rw [← hr]
    exact Precedence.all_at (F := True) (P := fun _ => True) (.inl trivial) hfound
      fun _ _ => trivial
  have hplace : (place (tagIn t' externals args' s') c).unlocated (Place.erase .places) =
      pure (r.erase .grouping) := by
    rw [unlocated_place (unlocated_tag _ _), hc, inFunction_congr ht hargs hs,
      place_written hgrouped]
  have hdeclared : c.declared = p.declared := by rw [hc.declared_eq, ← hr, ← hq, declared_place]
  have hafter := alike_after externals ht hargs hs hdeclared
  rw [run_at]
  refine ⟨?_, hafter.value, congrArg Noted.value hplace⟩
  simp only [Noted.notes_bind, Noted.notes_of_unlocated hplace, List.nil_append, Noted.notes_pure,
    List.append_nil]
  exact admitted_of_codes hafter.codes hn'

/-- A body that is written like the grouped form of a scoped one is scoped to the tagged form of it,
and it declares the same. -/
theorem body_written (ht : t'.relocate .forget = t.relocate .forget)
    (hargs : args'.relocate .forget = args.relocate .forget) {b b₂ b₃ c : List Stmt}
    {locals : Scope}
    (hw : Stmt.WalkAll Eq ((body t externals args).Graph (Admitted deny)) [] b b₂ locals)
    (hfresh : Stmt.HoldsAll (Place.All .fresh) b)
    (hgrouped : Stmt.WalkAll Eq (fun _ q r _ => ((Precedence.body v).at q).value = r) () b₂ b₃ ())
    (hc : Stmt.eraseAll .places c = Stmt.eraseAll .resolution b₃) :
    (∀ d ∈ ((Stmt.rewriteAll (body t' externals args') c).run []).notes, Admitted deny d) ∧
      ((Stmt.rewriteAll (body t' externals args') c).run []).value.2.relocate .forget =
        locals.relocate .forget ∧
      Stmt.eraseAll .places ((Stmt.rewriteAll (body t' externals args') c).run []).value.1 =
        Stmt.eraseAll .grouping b₃ := by
  have hwalk :
      Stmt.WalkAll (fun _ _ => True) (WrittenAs t externals args deny v) [] c b₃ locals := by
    refine ((Stmt.walkAll_of_erase c b₃ hc).trans ((hw.and hfresh).trans hgrouped).right).map
      (f := fun x => x.2.1) (fun _ => trivial) ?_
    rintro _ c r _ ⟨_, hc, rfl, p, q, ⟨hg, hp⟩, hr⟩
    exact ⟨hc, p, q, hg, hp, hr⟩
  obtain ⟨hn, hlocals, herase⟩ := hwalk.follow (follows_written ht hargs) (s := []) rfl
  exact ⟨hn, hlocals, herase.erase_eq fun _ _ _ _ h => h⟩

/-- The declaration that the table holds hides what any declaration of its name hides. -/
theorem admitted_hides {d d' : VarDecl} (hname : d'.name = d.name)
    (hheld : (t.globals.lookup d.name).any (fun e => e.loc = d.loc) = true)
    (h : ∀ x ∈ hides t externals d, Admitted deny x) :
    ∀ x ∈ hides t' externals d', Admitted deny x := by
  rw [hides, if_pos hheld] at h
  rw [hides, hname]
  split
  · intro x hx
    obtain ⟨e, he, rfl⟩ := List.mem_map.1 hx
    exact (Admitted.congr rfl).1 (h ((Fault.globalShadows d.name e.exported e.module).report d.loc)
      (List.mem_map.2 ⟨e, he, rfl⟩))
  · exact List.forall_mem_nil _

/-- A global that is written like the grouped form of a scoped one is scoped to the tagged form of
it. -/
theorem global_written (ht : t'.relocate .forget = t.relocate .forget) {d d' : VarDecl}
    (hheld : (t.globals.lookup d.name).any (fun e => e.loc = d.loc) = true)
    (hfresh : d.init.All .fresh) (hn : ∀ x ∈ (global t externals d).notes, Admitted deny x)
    (hd : (Item.global d').erase .places =
      (Precedence.item v (.global (global t externals d).value)).value.erase .resolution) :
    (∀ x ∈ (global t' externals d').notes, Admitted deny x) ∧
      (Item.global (global t' externals d').value).erase .places =
        (Precedence.item v (.global (global t externals d).value)).value.erase .grouping := by
  simp only [Precedence.item, Noted.value_bind, Noted.value_pure, Item.erase, VarDecl.erase,
    Item.global.injEq, VarDecl.mk.injEq, and_true, global_eq] at hd ⊢
  obtain ⟨hname, hty, hinit⟩ := hd
  rw [global_eq, List.forall_mem_append] at hn
  have hfound :=
    all_expr (turns_found (fun _ => rfl) name_inGlobal) hfresh fun x hx => (hn.2 x hx).1
  have hgrouped :=
    Precedence.all_expr (v := v) (F := True) (P := fun _ => True) (.inl trivial) hfound
    fun _ _ => trivial
  have hwritten : (expr (tagBefore t' externals d') d'.init).unlocated (Expr.erase .places) =
      pure
        ((Precedence.expr v (expr (tagBefore t externals d) d.init).value).value.erase
          .grouping) := by
    rw [unlocated_expr (unlocated_tag _ _), hinit, inGlobal_congr ht, hname]
    exact expr_written hgrouped
  rw [Noted.notes_of_unlocated hwritten, List.append_nil]
  exact ⟨admitted_hides hname hheld hn.1, hname, hty, congrArg Noted.value hwritten⟩

/-- Items that are written like the grouped form of scoped ones are scoped to the tagged form of
these, and the table they fill is the same up to places. -/
theorem items_written {i : Nat} {its its₂ : List Item} {t t₂ : ModuleTable}
    (h : Tags externals (Admitted deny) i its t its₂ t₂) : ∀ {its' : List Item} {t' : ModuleTable},
    (∀ it ∈ its, it.All .fresh) →
    (∀ d, .global d ∈ its → (t.globals.lookup d.name).any (fun e => e.loc = d.loc) = true) →
    its'.map (Item.erase .places) = (its₂.map fun it => (Precedence.item v it).value).map
      (Item.erase .resolution) →
    t'.relocate .forget = t.relocate .forget →
    (∀ d ∈ (items externals i its' t').notes, Admitted deny d) ∧
      (items externals i its' t').value.1.map (Item.erase .places) =
        (its₂.map fun it => (Precedence.item v it).value).map (Item.erase .grouping) ∧
      (items externals i its' t').value.2.relocate .forget = t₂.relocate .forget := by
  induction h with
  | nil =>
    intro its' t' _ _ hits ht
    rw [List.map_eq_nil_iff.1 hits, items]
    exact ⟨List.forall_mem_nil _, rfl, ht⟩
  | synonym _ ih =>
    intro its' t' hfresh hheld hits ht
    obtain ⟨it', rest', rfl, hit, hrest⟩ := List.map_eq_cons_iff.1 hits
    cases it' with
    | synonym s' =>
      obtain ⟨hn, hrest₂, htable⟩ :=
        ih (List.forall_mem_cons.1 hfresh).2 (fun d hd => hheld d (.tail _ hd)) hrest ht
      simp only [items, Noted.forall_notes_bind, Noted.value_bind, Noted.value_pure,
        List.map_cons, hrest₂]
      exact ⟨⟨hn, List.forall_mem_nil _⟩, congrArg (· :: _) hit, htable⟩
    | _ => cases hit
  | @global i d rest t rest₂ t₂ hd _ ih =>
    intro its' t' hfresh hheld hits ht
    obtain ⟨it', rest', rfl, hit, hrest⟩ := List.map_eq_cons_iff.1 hits
    cases it' with
    | global d' =>
      obtain ⟨hn, hrest₂, htable⟩ :=
        ih (List.forall_mem_cons.1 hfresh).2 (fun d hd => hheld d (.tail _ hd)) hrest ht
      obtain ⟨hn', hd'⟩ :=
        global_written ht (hheld d (.head _)) (List.forall_mem_cons.1 hfresh).1 hd hit
      simp only [items, Noted.forall_notes_bind, Noted.value_bind, Noted.value_pure,
        List.map_cons, hrest₂]
      exact ⟨⟨hn', hn, List.forall_mem_nil _⟩, congrArg (· :: _) hd', htable⟩
    | _ => cases hit
  | @fn i f o b locals rest t rest₂ t₂ ho hw _ ih =>
    intro its' t' hfresh hheld hits ht
    obtain ⟨it', rest', rfl, hit, hrest⟩ := List.map_eq_cons_iff.1 hits
    cases it' with
    | fn f' =>
      obtain ⟨o', ho', hoverload⟩ := ModuleTable.exists_overloadForItem ht ho
      have hgrouped :=
        Stmt.walk_rewriteAll_lift (w := Precedence.body v) (P := fun _ => True) b fun _ _ => trivial
      simp only [Precedence.item, Noted.value_bind, Noted.value_pure, Item.erase, FnDef.erase,
        Item.fn.injEq, FnDef.mk.injEq, and_true] at hit
      obtain ⟨hhead, hname, hparams, hsig, hbody⟩ := hit
      obtain ⟨hn', hlocals, hbody'⟩ := body_written ht (congrArg LocalOverload.args hoverload) hw
        (List.forall_mem_cons.1 hfresh).1 (hgrouped.mono id fun hr => hr.1) hbody
      have ht' :
          (t'.setLocals i
            ((Stmt.rewriteAll (body t' externals o'.args) f'.body).run []).value.2).relocate
          .forget = (t.setLocals i locals).relocate .forget := by
        rw [ModuleTable.setLocals_relocate, ModuleTable.setLocals_relocate, ht, hlocals]
      obtain ⟨hn, hrest₂, htable⟩ :=
        ih (List.forall_mem_cons.1 hfresh).2 (fun d hd => hheld d (.tail _ hd)) hrest ht'
      simp only [items, ho', Noted.forall_notes_bind, Noted.value_bind, Noted.value_pure,
        List.map_cons, hrest₂]
      refine ⟨⟨hn', hn, List.forall_mem_nil _⟩, congrArg (· :: _) ?_, htable⟩
      simp only [Precedence.item, Noted.value_bind, Noted.value_pure, Item.erase, FnDef.erase,
        hhead, hname, hparams, hsig, hbody']
    | _ => cases hit

end

end Scoping

/-! ## Grouping what is tagged -/

/-- Every infix operator that can be called has a fixity. -/
def Visible.Fixed (v : Visible) : Prop :=
  ∀ {name}, v.candidates .infixOp name ≠ [] → ∃ x, v.fixityOf name = some x

theorem Visible.candidates_ne_nil {v : Visible} {b : Binding} {sig : Signature}
    (h : v.Designates b sig) :
    v.candidates b.kind b.name ≠ [] := by
  rw [candidates, Ne, List.append_eq_nil_iff]
  rintro ⟨hown, hexternal⟩
  cases h with
  | own _ ho _ =>
    have hi := getElem?_localCandidates (v := v) b.kind b.name b.index
    rw [hown, ho] at hi
    cases hi
  | external _ ho _ =>
    have hi := getElem?_externalCandidates (v := v) b.kind b.name b.index
    rw [hexternal, ho] at hi
    cases hi

namespace Precedence

variable {v : Visible} {cx : Typing.Context}

/-- One operation makes one call. -/
theorem grouped_single (l : Expr) (o : Operation) : grouped l [o] = o.apply l o.operand := by
  have hright : (climb o.fixity.next o.operand []).rest = [] := by rw [climb]
  have htree : (climb o.fixity.next o.operand []).tree = o.operand := by rw [climb]
  rw [grouped, climb, if_pos (Nat.zero_le _)]
  show (climb 0 (o.apply l (climb _ _ []).tree) (climb _ _ []).rest).tree = _
  rw [hright, htree, climb]

theorem expr_call_tagged {kind : CallKind} {name : String} {as es : List Expr} (hv : v.Fixed)
    (hname : v.candidates kind name ≠ []) (h : exprs v as = pure es) :
    expr v (Erasure.grouping.call kind name as) = pure (Erasure.typing.call kind name es) := by
  have hlength : es.length = as.length := by
    rw [← length_exprs (v := v) as, h]
    rfl
  obtain ⟨hcall, hcall'⟩ | ⟨l, r, l', r', rfl, rfl, rfl⟩ :=
    Erasure.call_alike .grouping .typing kind name hlength
  · have hprefix :
        (if kind = .prefixOp then (prefixDefined v name .nowhere).notes else []) = [] := by
      split
      · next hkind =>
        rw [prefixDefined, if_neg]
        · rfl
        · rw [← hkind, List.isEmpty_iff]
          exact hname
      · rfl
    rw [hcall, hcall', expr_call, h, hprefix]
    rfl
  · simp only [exprs, Noted.bind_eq_pure_iff, pure_bind, Noted.pure_inj] at h
    obtain ⟨_, hl, _, ⟨_, hr, rfl⟩, heq⟩ := h
    cases heq
    obtain ⟨x, hx⟩ := hv hname
    have hoperations :
        operations v [(⟨name, .nowhere⟩, r')] = pure (some [⟨⟨name, .nowhere⟩, x, r'⟩]) := by
      simp only [operations, hx, pure_bind, Option.map_some]
    simp only [Erasure.call, Erasure.typing, Erasure.grouping, Bool.false_eq_true, if_false,
      if_true, expr, operands, hl, hr, pure_bind, hoperations, grouped_single]
    rfl

mutual

/-- Grouping the tagged form of a typed expression gives its untyped form. -/
theorem expr_tagged (hv : v.Fixed)
    (hc : ∀ kind name, v.candidates kind name = cx.visible.candidates kind name) :
    ∀ {e : Expr} {t : Ty}, HasType cx e t → expr v (e.erase .grouping) = pure (e.erase .typing)
  | _, _, .int | _, _, .char | _, _, .bool | _, _, .str => by simp only [Expr.erase, expr]
  | _, _, .emptyList => by
    simp only [Expr.erase, expr]
    rfl
  | _, _, .pair ha hb => by
    simp only [Expr.erase, expr, expr_tagged hv hc ha, expr_tagged hv hc hb, pure_bind]
  | _, _, .var _ => by
    simp only [Expr.erase, expr]
    rfl
  | _, _, .bound hd has _ => by
    rw [Expr.erase, Expr.erase, if_neg (by decide), if_neg (by decide)]
    exact expr_call_tagged hv (hc _ _ ▸ Visible.candidates_ne_nil hd) (exprs_tagged hv hc has)

theorem exprs_tagged (hv : v.Fixed)
    (hc : ∀ kind name, v.candidates kind name = cx.visible.candidates kind name) :
    ∀ {es : List Expr} {ts : List Ty}, HasTypes cx es ts →
      exprs v (Expr.eraseArgs .grouping es) = pure (Expr.eraseArgs .typing es)
  | _, _, .nil => by rw [Expr.eraseArgs, Expr.eraseArgs, exprs]
  | _, _, .cons h hs => by
    simp only [Expr.eraseArgs, exprs, expr_tagged hv hc h, exprs_tagged hv hc hs, pure_bind]

end

/-- Grouping the tagged form of a typed place gives its untyped form. -/
theorem at_tagged (hv : v.Fixed)
    (hc : ∀ kind name, v.candidates kind name = cx.visible.candidates kind name) {p : Place}
    (h : p.Typed cx) : (body v).at (p.erase .grouping) = pure (p.erase .typing) := by
  cases p with
  | decl d =>
    obtain ⟨t, -, -, ht⟩ := h
    simp only [Place.erase, VarDecl.erase, Rewriter.at, body, expr_tagged hv hc ht, pure_bind]
  | assign x e | each x e =>
    obtain ⟨t, -, ht⟩ := h
    simp only [Place.erase, Rewriter.at, body, expr_tagged hv hc ht, pure_bind]
    rfl
  | guard e =>
    have ht : HasType cx e .bool := h
    simp only [Place.erase, Rewriter.at, body, expr_tagged hv hc ht, pure_bind]
  | ret l e =>
    cases e with
    | none => rfl
    | some e =>
      obtain ⟨s, -, -, ht⟩ := h
      simp only [Place.erase, Option.map_some, Rewriter.at, body, expr_tagged hv hc ht, pure_bind]
  | call e =>
    obtain ⟨t, ht⟩ := h
    simp only [Place.erase, Rewriter.at, body, expr_tagged hv hc ht, pure_bind]

/-- An item that is written like the tagged form of a typed one is grouped to the untyped form of
it. -/
theorem item_tagged {w : Visible} (hv : v.Fixed)
    (hc : ∀ kind name, v.candidates kind name = w.candidates kind name) {it it' : Item} {i : Nat}
    (hit : it.Meets w i Place.Typed) (h : it'.erase .places = it.erase .grouping) :
    (item v it').unlocated (Item.erase .places) = pure (it.erase .typing) := by
  cases it <;> cases it' <;> try cases h
  case synonym.synonym s s' => exact congrArg pure h
  case global.global d d' =>
    obtain ⟨t, -, -, ht⟩ := hit
    simp only [Item.erase, VarDecl.erase, Item.global.injEq, VarDecl.mk.injEq, and_true] at h
    have hinit : (expr v d'.init).unlocated (Expr.erase .places) = pure (d.init.erase .typing) := by
      rw [unlocated_expr, h.2.2, expr_tagged hv hc ht]
    refine Noted.unlocated_bind_eq_pure hinit fun init heq => ?_
    simp only [Noted.unlocated_pure, Item.erase, VarDecl.erase, h.1, h.2.1, heq]
  case fn.fn f f' =>
    obtain ⟨o, -, -, -, hbody⟩ := hit
    simp only [Item.erase, FnDef.erase, Item.fn.injEq, FnDef.mk.injEq, and_true] at h
    obtain ⟨hhead, hname, hparams, hsig, hsame⟩ := h
    have hbody' : (Stmt.rewriteAll (body v) f'.body).unlocated (Stmt.eraseAll .places) =
        pure (Stmt.eraseAll .typing f.body) := by
      refine Stmt.unlocated_rewriteAll
        ((Stmt.walkAll_of_erase f'.body f.body hsame).and_right hbody) ?_
      rintro _ p q _ ⟨hpq, hq⟩
      rw [unlocated_at, hpq, at_tagged hv hc hq]
    refine Noted.unlocated_bind_eq_pure hbody' fun b heq => ?_
    simp only [Noted.unlocated_pure, Item.erase, FnDef.erase, hhead, hname, hparams, hsig, heq]

theorem mapM_item_tagged {w : Visible} (hv : v.Fixed)
    (hc : ∀ kind name, v.candidates kind name = w.candidates kind name) : ∀ {its its' : List Item},
    (∀ it ∈ its, ∃ i, it.Meets w i Place.Typed) →
    its'.map (Item.erase .places) = its.map (Item.erase .grouping) →
    (its'.mapM (item v)).unlocated (List.map (Item.erase .places)) =
      pure (its.map (Item.erase .typing))
  | [], _, _, h => by
    rw [List.map_eq_nil_iff.1 h]
    rfl
  | it :: rest, _, hm, h => by
    obtain ⟨it', rest', rfl, hit, hrest⟩ := List.map_eq_cons_iff.1 h
    rw [List.forall_mem_cons] at hm
    obtain ⟨i, hi⟩ := hm.1
    rw [List.mapM_cons]
    refine Noted.unlocated_bind_eq_pure (item_tagged hv hc hi hit) fun it₃ heq => ?_
    refine Noted.unlocated_bind_eq_pure (mapM_item_tagged hv hc hm.2 hrest) fun rest₃ heqs => ?_
    rw [Noted.unlocated_pure, List.map_cons, List.map_cons, heq, heqs]

/-- A program that is written like the tagged form of a typed one is grouped to the untyped form of
it. -/
theorem resolve_tagged {w : Visible} (hv : v.Fixed)
    (hc : ∀ kind name, v.candidates kind name = w.candidates kind name) {p p' : Program}
    (hp : p.Meets w Place.Typed) (h : p'.erase .places = p.erase .grouping) :
    (resolve v p').unlocated (Program.erase .places) = pure (p.erase .typing) := by
  obtain ⟨himports, hitems⟩ := Program.mk.inj h
  have hm : ∀ it ∈ p.items, ∃ i, it.Meets w i Place.Typed := by
    intro it hit
    obtain ⟨i, hi⟩ := List.mem_iff_getElem?.1 hit
    exact ⟨i, hp i it hi⟩
  refine Noted.unlocated_bind_eq_pure (mapM_item_tagged hv hc hm hitems) fun its heq => ?_
  simp only [Noted.unlocated_pure, Program.erase, himports, heq]

end Precedence

/-! ## Checking up to places -/

namespace Typing

variable {t t' : ModuleTable} {externals : ExternalTable}

/-- What was checked without a report is checked without a report again, up to places. -/
theorem item_unlocated (ht : t'.relocate .forget = t.relocate .forget) {i : Nat} {it it' it₄ : Item}
    (hit : item ⟨t, externals⟩ i it = pure it₄) (h : it'.erase .places = it.erase .places) :
    (item ⟨t', externals⟩ i it').unlocated (Item.erase .places) = pure (it₄.erase .places) := by
  cases it <;> cases it' <;> try cases h
  case synonym.synonym s s' =>
    cases Noted.pure_inj.1 hit
    exact congrArg pure h
  case global.global d d' =>
    rw [item, Noted.bind_eq_pure_iff] at hit
    obtain ⟨d₄, hd, hit⟩ := hit
    cases Noted.pure_inj.1 hit
    have hglobal :
        (global ⟨t', externals⟩ d').unlocated (VarDecl.erase .places) =
          pure (d₄.erase .places) := by
      rw [unlocated_global (same_of_relocate (g := .forget) rfl), Item.global.inj h,
        ← unlocated_global (same_of_relocate ht), hd, Noted.unlocated_pure]
    refine Noted.unlocated_bind_eq_pure hglobal fun _ heq => ?_
    rw [Noted.unlocated_pure, Item.erase, heq, Item.erase]
  case fn.fn f f' =>
    simp only [Item.erase, FnDef.erase, Item.fn.injEq, FnDef.mk.injEq, and_true] at h
    obtain ⟨hhead, hname, hparams, hsig, hsame⟩ := h
    cases ho : t.overloadForItem i with
    | none =>
      have ho' : t'.overloadForItem i = none := by
        cases ho' : t'.overloadForItem i with
        | none => rfl
        | some o' =>
          obtain ⟨_, hsome, -⟩ := ModuleTable.exists_overloadForItem ht.symm ho'
          cases ho.symm.trans hsome
      simp only [item, ho, Noted.pure_inj] at hit
      subst hit
      simp only [item, ho', Noted.unlocated_pure, Item.erase, FnDef.erase, hhead, hname,
        hparams, hsig, hsame]
    | some o =>
      obtain ⟨o', ho', hoverload⟩ := ModuleTable.exists_overloadForItem ht ho
      simp only [item, ho, Noted.bind_eq_pure_iff] at hit
      obtain ⟨b, hb, hit⟩ := hit
      cases Noted.pure_inj.1 hit
      have hchecked := Stmt.walk_rewriteAll_lift (P := fun _ => False) f.body
        (by rw [hb]; exact List.forall_mem_nil _)
      rw [hb] at hchecked
      have hbody :
          (Stmt.rewriteAll (body ⟨⟨t', externals⟩, some ⟨o'.args, o'.locals, o'.sig.result⟩⟩)
          f'.body).unlocated (Stmt.eraseAll .places) = pure (Stmt.eraseAll .places b) := by
        refine Stmt.unlocated_rewriteAll
          ((Stmt.walkAll_of_erase f'.body f.body hsame).trans hchecked) ?_
        rintro _ p q _ ⟨r, hpr, hr, hn⟩
        rw [unlocated_at (same_of_overload (g := .forget) rfl rfl), hpr,
          ← unlocated_at (same_of_overload ht hoverload), Noted.unlocated, hr,
            List.eq_nil_iff_forall_not_mem.2 hn]
        rfl
      simp only [item, ho']
      refine Noted.unlocated_bind_eq_pure hbody fun b' heq => ?_
      simp only [Noted.unlocated_pure, Item.erase, FnDef.erase, hhead, hname, hparams, hsig, heq]

theorem items_unlocated (ht : t'.relocate .forget = t.relocate .forget) :
    ∀ {i : Nat} {its its' its₄ : List Item},
    items ⟨t, externals⟩ i its = pure its₄ → its'.map (Item.erase .places) =
      its.map (Item.erase .places) →
    (items ⟨t', externals⟩ i its').unlocated (List.map (Item.erase .places)) =
      pure (its₄.map (Item.erase .places))
  | i, [], _, _, hits, h => by
    cases Noted.pure_inj.1 hits
    rw [List.map_eq_nil_iff.1 h]
    rfl
  | i, it :: rest, _, _, hits, h => by
    obtain ⟨it', rest', rfl, hit, hrest⟩ := List.map_eq_cons_iff.1 h
    simp only [items, Noted.bind_eq_pure_iff, Noted.pure_inj] at hits ⊢
    obtain ⟨it₄, hit₄, rest₄, hrest₄, rfl⟩ := hits
    refine Noted.unlocated_bind_eq_pure (item_unlocated ht hit₄ hit) fun _ heq => ?_
    refine Noted.unlocated_bind_eq_pure (items_unlocated ht hrest₄ hrest) fun _ heqs => ?_
    rw [Noted.unlocated_pure, List.map_cons, List.map_cons, heq, heqs]

/-- A program that is checked without a report is so, with the same outcome, whatever its places
are. -/
theorem resolve_unlocated (ht : t'.relocate .forget = t.relocate .forget) {p p' p₄ : Program}
    (hp : resolve ⟨t, externals⟩ p = pure p₄) (h : p'.erase .places = p.erase .places) :
    (resolve ⟨t', externals⟩ p').unlocated (Program.erase .places) = pure (p₄.erase .places) := by
  obtain ⟨himports, hitems⟩ := Program.mk.inj h
  rw [resolve, Noted.bind_eq_pure_iff] at hp
  obtain ⟨its, hits, hp⟩ := hp
  cases Noted.pure_inj.1 hp
  refine Noted.unlocated_bind_eq_pure (items_unlocated ht hits hitems) fun its' heq => ?_
  simp only [Noted.unlocated_pure, Program.erase, himports, heq]

end Typing

end SplFrontend
