import SplFrontend.Proofs.Elaboration
import SplFrontend.Proofs.RoundTrip
import SplFrontend.Proofs.Stability.Resolution

/-!
# What the passes elaborate

Of the passes over an accepted program the first one expands annotations and the third one groups
sequences. Scoping and checking leave marks only: without them (`Relabel.bare`) the tree is as
before. So the resolved program is the program that was read, expanded and grouped
(`Resolved.bare_of_compile`).
-/

namespace SplFrontend

open Relator (RightUnique)

/-! ## Expansion of annotations -/

namespace Annotations

variable {env : Synonyms} {D : String → Ty → Prop}

section

variable (hD : ∀ {name d}, env.lookup name = some d → D name d.ty) (henv : env.Complete)

include hD henv

theorem expands_of_notes {loc : Loc} {t : Ty} (h : ∀ d ∈ (expandTy env loc t).notes, NotError d) :
    t.Expands D ((expandTy env loc t).value.getD t) := by
  obtain ⟨u, hu, -⟩ := annotation_of_notes henv h
  rw [hu, Option.getD_some]
  unfold expandTy at hu
  split at hu
  · next hexp =>
    cases hu
    exact Ty.expands_of_expandIn hD [] t hexp
  · cases hu
  · cases hu

theorem expands_decl {untyped void : String → Fault} {d : VarDecl}
    (h : ∀ x ∈ (decl env untyped void d).notes, NotError x) :
    Option.Rel (Ty.Expands D) d.ty (decl env untyped void d).value.ty := by
  rw [value_decl]
  cases hty : d.ty with
  | none => exact .none
  | some t =>
    refine .some (expands_of_notes hD henv ?_)
    simp only [decl, hty, Noted.forall_notes_bind] at h
    exact h.1

theorem expands_params (f : FnDef) : ∀ (ps : List Param) {ts : List Ty},
    (∀ d ∈ (params env f ps ts).notes, NotError d) →
    List.Forall₂ (Ty.Expands D) ts (params env f ps ts).value
  | _, [], _ => by
    rw [params]
    exact .nil
  | ps, t :: ts, h => by
    simp only [params, Noted.forall_notes_bind, Noted.notes_note_if, List.forall_mem_append] at h
    have hrest := expands_params f ps.tail h.2.2.1
    rw [value_params] at hrest ⊢
    exact .cons (expands_of_notes hD henv h.1) hrest

theorem expands_signature {f : FnDef} {s : Signature}
    (h : ∀ d ∈ (signature env f s).notes, NotError d) :
    s.Maps (Ty.Expands D) (signature env f s).value := by
  simp only [signature, Noted.notes_note_if, Noted.forall_notes_bind, List.forall_mem_append] at h
  have hps := expands_params hD henv f _ h.2.1
  rw [value_params] at hps
  rw [value_signature]
  exact ⟨hps, expands_of_notes hD henv h.2.2.1⟩

theorem expands_at {p : Place} (h : ∀ d ∈ ((locals env).at p).notes, NotError d) :
    p.Maps (Ty.Expands D) Eq ((locals env).at p).value := by
  rw [value_at]
  cases p with
  | decl d =>
    simp only [Rewriter.at, locals, Noted.forall_notes_bind] at h
    have hty := expands_decl hD henv h.1
    simp only [value_decl] at hty ⊢
    exact .decl hty rfl
  | assign v e => exact .assign rfl
  | guard e => exact .guard rfl
  | each v e => exact .each rfl
  | ret l e => exact .ret (optionRel_eq e)
  | call e => exact .call rfl

theorem expands_callable {f : FnDef} (h : ∀ d ∈ (callable env f).notes, NotError d) :
    Item.Maps (Ty.Expands D) Eq (.fn f) (.fn (callable env f).value) := by
  simp only [notes_callable, List.forall_mem_append] at h
  rw [value_callable]
  refine .fn ?_ ((Stmt.walk_rewriteAll_lift f.body h.2.2.2).mono id ?_)
  · cases hs : f.sig with
    | none => exact .none
    | some s =>
      simp only [hs] at h
      exact .some (expands_signature hD henv h.2.2.1)
  · rintro _ p q _ ⟨rfl, hn⟩
    exact expands_at hD henv hn

end

/-- Expansion replaces the annotations of an item, by what the items and the imported modules
define. -/
theorem expands_item {externals : ExternalTable} {t : ModuleTable} {p : Program}
    (h : Expandable externals t p.items) (hext : ∀ x ∈ externals.synonyms, x.2.ty.Expanded)
    {i : Item} (hi : i ∈ p.items) : i.Maps (Ty.Expands (p.Defines externals)) Eq
      (item (withSynonyms t p.items) (environment externals t p.items) i).value := by
  have hD : ∀ {name d}, (environment externals t p.items).lookup name = some d →
      p.Defines externals name d.ty := by
    intro name d hd
    rw [lookup_synonymDefs, Option.or_eq_some_iff] at hd
    obtain hown | ⟨-, hother⟩ := hd
    · obtain ⟨e, he, rfl⟩ := Option.map_eq_some_iff.1 hown
      obtain ⟨s, hs, hx⟩ := exists_of_mem_synonymsOf (mem_of_lookup he)
      cases hx
      exact .inl ⟨s.loc, hs⟩
    · obtain ⟨e, he, rfl⟩ := Option.map_eq_some_iff.1 hother
      exact .inr ⟨e, he, rfl⟩
  have hn := h.notes i hi
  cases i with
  | synonym s =>
    obtain ⟨u, hu, -, hv⟩ := h.synonym hi
    rw [Synonyms.expansion, lookup_environment h.declarable hi] at hu
    have hitem :
        (item (withSynonyms t p.items) (environment externals t p.items) (.synonym s)).value =
        .synonym { s with ty := u } := congrArg Item.synonym hv
    rw [hitem]
    exact .synonym (Ty.expands_of_expandIn hD _ _ hu)
  | global d =>
    simp only [item, Noted.forall_notes_bind] at hn
    have hty := expands_decl hD (h.complete hext) hn.1
    simp only [item, Noted.value_bind, Noted.value_pure]
    rw [value_decl] at hty ⊢
    exact .global hty rfl
  | fn f =>
    simp only [item, Noted.forall_notes_bind] at hn
    exact expands_callable hD (h.complete hext) hn.1

/-- Each synonym has one definition. -/
theorem Declarable.rightUnique {externals : ExternalTable} {p : Program}
    (h : Declarable externals [] p.items) : RightUnique (p.Defines externals) := by
  have hforeign : ∀ {name ty loc}, .synonym ⟨name, ty, loc⟩ ∈ p.items →
      externals.synonyms.lookup name = none := fun hs => h.foreign _ (mem_synonymsOf hs)
  rintro name t u (⟨l, hs⟩ | ⟨e, he, rfl⟩) (⟨l', hs'⟩ | ⟨e', he', rfl⟩)
  · have hfirst := lookup_of_mem h.nodup (mem_synonymsOf hs)
    have hsecond := lookup_of_mem h.nodup (mem_synonymsOf hs')
    cases hfirst.symm.trans hsecond
    rfl
  · cases (hforeign hs).symm.trans he'
  · cases (hforeign hs').symm.trans he
  · cases he.symm.trans he'
    rfl

end Annotations

/-! ## Trees without marks -/

/-- Takes all marks away. -/
def Relabel.bare : Relabel where
  var v := { v with ref := .unresolved v.ref.name, ty := none }
  loc_var _ := rfl
  empty _ := none
  bound _ := none

/-- The program without the marks of any pass. -/
abbrev Program.bare (p : Program) : Program := p.relabel .bare

theorem Variable.bare_of_fresh {v : Variable} (h : Nodes.fresh.var v) : Relabel.bare.var v = v := by
  obtain ⟨ref, accessors, ty, loc⟩ := v
  obtain ⟨href, rfl⟩ := h
  simp only [Relabel.bare, Variable.mk.injEq, and_self, and_true]
  exact href.symm

mutual

theorem Expr.bare_of_fresh : ∀ {e : Expr}, e.All .fresh → e.relabel .bare = e
  | .int .., _ | .char .., _ | .bool .., _ | .str .., _ => rfl
  | .emptyList ty l, h => by
    cases (h : ty = none)
    rfl
  | .pair .., h => by rw [Expr.relabel, Expr.bare_of_fresh h.1, Expr.bare_of_fresh h.2]
  | .var v, h => congrArg Expr.var (Variable.bare_of_fresh h)
  | .flat .., h => by rw [Expr.relabel, Expr.bare_of_fresh h.2.1, Expr.bareRest_of_fresh h.2.2]
  | .call .., h => by rw [Expr.relabel, Expr.bareArgs_of_fresh h]
  | .bound .., h => h.1.elim

theorem Expr.bareArgs_of_fresh :
    ∀ {es : List Expr}, Expr.AllArgs .fresh es → Expr.relabelArgs .bare es = es
  | [], _ => rfl
  | _ :: _, h => by rw [Expr.relabelArgs, Expr.bare_of_fresh h.1, Expr.bareArgs_of_fresh h.2]

theorem Expr.bareRest_of_fresh : ∀ {rest : List (OpUse × Expr)}, Expr.AllRest .fresh rest →
    Expr.relabelRest .bare rest = rest
  | [], _ => rfl
  | (_, _) :: _, h => by rw [Expr.relabelRest, Expr.bare_of_fresh h.1, Expr.bareRest_of_fresh h.2]

end

theorem Place.bare_of_fresh {p : Place} (h : p.All .fresh) : p.relabel .bare = p := by
  cases p with
  | decl d => rw [Place.relabel, VarDecl.relabel, Expr.bare_of_fresh h]
  | assign v e | each v e => rw [Place.relabel, Variable.bare_of_fresh h.1, Expr.bare_of_fresh h.2]
  | guard e | call e => rw [Place.relabel, Expr.bare_of_fresh h]
  | ret l e =>
    cases e with
    | none => rfl
    | some e => rw [Place.relabel, Option.map_some, Expr.bare_of_fresh (h e rfl)]

/-- What no pass has marked has no marks. -/
theorem Item.bare_of_fresh {i : Item} (h : i.All .fresh) : i.relabel .bare = i := by
  cases i with
  | synonym s => rfl
  | global d => rw [Item.relabel, VarDecl.relabel, Expr.bare_of_fresh h]
  | fn f =>
    rw [Item.relabel,
      Stmt.relabelAll_of_holds (Stmt.HoldsAll.mono (fun _ => Place.bare_of_fresh) h)]

/-! ## Scoping leaves marks only -/

namespace Scoping

section

variable {f : Variable → Noted Variable} {g : Relabel}

mutual

theorem relabel_expr (hf : ∀ v, g.var (f v).value = g.var v) :
    ∀ e : Expr, (expr f e).value.relabel g = e.relabel g
  | .int .. | .char .. | .bool .. | .str .. | .emptyList .. => by
    rw [expr]
    rfl
  | .pair a b _ => by
    simp only [expr, Noted.value_bind, Noted.value_pure, Expr.relabel, relabel_expr hf a,
      relabel_expr hf b]
  | .var v => by simp only [expr, Noted.value_bind, Noted.value_pure, Expr.relabel, hf]
  | .flat e rest _ => by
    simp only [expr, Noted.value_bind, Noted.value_pure, Expr.relabel, relabel_expr hf e,
      relabel_operands hf rest]
  | .call _ _ as _ => by
    simp only [expr, Noted.value_bind, Noted.value_pure, Expr.relabel, relabel_exprs hf as]
  | .bound _ as _ => by
    simp only [expr, Noted.value_bind, Noted.value_pure, Expr.relabel, relabel_exprs hf as]

theorem relabel_exprs (hf : ∀ v, g.var (f v).value = g.var v) :
    ∀ es : List Expr, Expr.relabelArgs g (exprs f es).value = Expr.relabelArgs g es
  | [] => by
    rw [exprs]
    rfl
  | e :: es => by
    simp only [exprs, Noted.value_bind, Noted.value_pure, Expr.relabelArgs, relabel_expr hf e,
      relabel_exprs hf es]

theorem relabel_operands (hf : ∀ v, g.var (f v).value = g.var v) :
    ∀ rest : List (OpUse × Expr), Expr.relabelRest g (operands f rest).value =
      Expr.relabelRest g rest
  | [] => by
    rw [operands]
    rfl
  | (op, e) :: rest => by
    simp only [operands, Noted.value_bind, Noted.value_pure, Expr.relabelRest, relabel_expr hf e,
      relabel_operands hf rest]

end

theorem relabel_place (hf : ∀ v, g.var (f v).value = g.var v) (p : Place) :
    (place f p).value.relabel g = p.relabel g := by
  cases p with
  | ret l e =>
    cases e with
    | none => rfl
    | some e =>
      simp only [place, Noted.value_bind, Noted.value_pure, Place.relabel, Option.map_some,
        relabel_expr hf e]
  | _ =>
    simp only [place, Noted.value_bind, Noted.value_pure, Place.relabel, VarDecl.relabel, hf,
      relabel_expr hf]

end

theorem bare_tag {lookup : String → Option Ref} (hl : ∀ {n r}, lookup n = some r → r.name = n)
    (missing : String → Fault) (v : Variable) :
    Relabel.bare.var (tag lookup missing v).value = Relabel.bare.var v := by
  unfold tag
  split
  · next name hv =>
    split
    · next r hr =>
      have hn : v.ref.name = name := by
        rw [hv]
        rfl
      simp [Relabel.bare, hl hr, hn]
    · rfl
  · rfl

variable {externals : ExternalTable}

theorem bare_items : ∀ (i : Nat) (its : List Item) (t : ModuleTable),
    (items externals i its t).value.1.map (Item.relabel .bare) = its.map (Item.relabel .bare)
  | _, [], _ => by
    rw [items]
    rfl
  | i, .synonym s :: rest, t => by
    rw [items]
    simp only [Noted.value_bind, Noted.value_pure, List.map_cons, bare_items (i + 1) rest t]
  | i, .global d :: rest, t => by
    rw [items]
    simp only [Noted.value_bind, Noted.value_pure, List.map_cons, Item.relabel, global_eq,
      VarDecl.relabel, relabel_expr (bare_tag name_inGlobal _), bare_items (i + 1) rest t]
  | i, .fn f :: rest, t => by
    rw [items]
    split
    · simp only [Noted.value_bind, Noted.value_pure, List.map_cons, bare_items (i + 1) rest t]
    · next o ho =>
      have hw := Stmt.walk_rewriteAll (w := body t externals o.args) (P := fun _ => True) [] f.body
        fun _ _ => trivial
      have hbody : Stmt.relabelAll .bare _ = Stmt.relabelAll .bare f.body :=
        hw.relabelAll_eq fun {s p q s'} hg => by
          rw [← (graph_iff.1 hg).1.1]
          exact relabel_place (bare_tag name_inFunction _) p
      simp only [Noted.value_bind, Noted.value_pure, List.map_cons, Item.relabel, hbody,
        bare_items (i + 1) rest]

end Scoping

/-! ## Checking leaves marks only -/

namespace Typing

section

variable {cx : Context}

theorem bare_variableOf (expected : Option Ty) (v : Variable) :
    Relabel.bare.var (variableOf cx expected v).value = Relabel.bare.var v := by
  unfold variableOf
  split
  · rfl
  · split <;> rfl

theorem bare_emptyList (given expected : Option Ty) (l : Loc) :
    (emptyList given expected l).value.relabel .bare = .emptyList none l := by
  unfold emptyList
  split <;> rfl

mutual

theorem bare_expr : ∀ (e : Expr) (expected : Option Ty), e.All (.fits cx.visible) →
    (expr cx expected e).value.relabel .bare = e.relabel .bare
  | .int .., _, _ | .char .., _, _ | .bool .., _, _ | .str .., _, _ => by rw [expr, literal]
  | .flat .., _, _ => by rw [expr]
  | .emptyList given l, expected, _ => by
    rw [expr]
    exact bare_emptyList given expected l
  | .pair a b l, expected, h => by
    rw [expr]
    simp only [pairOf, Expr.relabel, bare_expr a _ h.1, bare_expr b _ h.2]
  | .var x, expected, _ => by
    rw [expr]
    simp only [Expr.relabel, bare_variableOf]
  | .call kind name as l, expected, h => by
    rw [expr]
    obtain ⟨c, t, hc, -, hlen, -, ht⟩ | ⟨f, -, hf⟩ :=
      callOf_cases cx.visible kind name as l expected
      (fun ps => matchArgs cx as ps) fun _ => argTypes cx as
    · simp only [hc, bound, Expr.relabel, bare_matchArgs as _ h hlen.symm ht]
      rfl
    · rw [hf, unbound]
  | .bound b as l, expected, h => by
    rw [expr]
    split
    · next c hc => simp only [Expr.relabel, bare_recheckArgs as _ h.2 (h.1 c hc).symm]
    · obtain ⟨c, t, hc, -, hlen, -, ht⟩ | ⟨f, -, hf⟩ :=
        callOf_cases cx.visible b.kind b.name as l expected
        (fun ps => matchArgs cx as ps) fun _ => argTypes cx as
      · simp only [hc, bound, Expr.relabel, bare_matchArgs as _ h.2 hlen.symm ht]
        rfl
      · rw [hf, unbound]
        rfl

theorem bare_matchArgs : ∀ (as : List Expr) (ps : List Ty) {t : Trial},
    Expr.AllArgs (.fits cx.visible) as → as.length = ps.length → matchArgs cx as ps = some t →
    Expr.relabelArgs .bare t.args = Expr.relabelArgs .bare as
  | [], [], _, _, _, ht => by
    rw [matchArgs] at ht
    · cases ht
      rfl
    · nofun
  | a :: as, p :: ps, _, h, hlen, ht => by
    rw [matchArgs] at ht
    split at ht
    · obtain ⟨t', ht', rfl⟩ := Option.map_eq_some_iff.1 ht
      simp only [Expr.relabelArgs, bare_expr a _ h.1,
        bare_matchArgs as ps h.2 (Nat.succ.inj hlen) ht']
    · cases ht

theorem bare_recheckArgs : ∀ (as : List Expr) (ps : List Ty), Expr.AllArgs (.fits cx.visible) as →
    as.length = ps.length →
    Expr.relabelArgs .bare (recheckArgs cx as ps).value = Expr.relabelArgs .bare as
  | [], [], _, _ => by
    rw [recheckArgs]
    · nofun
  | a :: as, p :: ps, h, hlen => by
    rw [recheckArgs]
    simp only [Expr.relabelArgs, bare_expr a _ h.1, bare_recheckArgs as ps h.2 (Nat.succ.inj hlen)]

end

theorem CheckedFrom.bare_eq {e e' : Expr} (hl : CheckedFrom cx e e')
    (h : e.All (.fits cx.visible)) :
    e'.relabel .bare = e.relabel .bare := by
  obtain rfl | ⟨t, rfl⟩ := hl
  · rfl
  · exact bare_expr e _ h

theorem bare_at {p : Place} (h : p.All (.fits cx.visible)) :
    ((body cx).at p).value.relabel .bare = p.relabel .bare := by
  cases p with
  | decl d =>
    obtain ⟨init, hd, hl⟩ := checkedFrom_declared cx d
    simp only [Rewriter.at, body, Noted.value_bind, Noted.value_pure, hd, Place.relabel,
      VarDecl.relabel, hl.bare_eq h]
  | assign x e =>
    have ha := checkedFrom_against cx id x e
    simp only [Rewriter.at, body, Noted.value_bind, Noted.value_pure, Place.relabel, ha.1,
      ha.2.bare_eq h.2, bare_variableOf]
  | each x e =>
    have ha := checkedFrom_against cx .list x e
    simp only [Rewriter.at, body, Noted.value_bind, Noted.value_pure, Place.relabel, ha.1,
      ha.2.bare_eq h.2, bare_variableOf]
  | guard e | call e =>
    simp only [Rewriter.at, body, Noted.value_bind, Noted.value_pure, Place.relabel, Checked.noted,
      bare_expr e _ h]
  | ret l e =>
    cases e with
    | none =>
      simp only [Rewriter.at, body, Noted.value_bind, Noted.value_pure, Place.relabel,
        returned_none]
    | some e =>
      obtain ⟨e', he, hl⟩ := checkedFrom_returned cx l e
      simp only [Rewriter.at, body, Noted.value_bind, Noted.value_pure, Place.relabel, he,
        Option.map_some, hl.bare_eq (h e rfl)]

end

variable {v : Visible}

theorem bare_item (i : Nat) {it : Item} (h : it.All (.fits v)) :
    (item v i it).value.relabel .bare = it.relabel .bare := by
  cases it with
  | synonym s => rfl
  | global d =>
    obtain ⟨init, hd, hl⟩ := checkedFrom_declared ⟨v, none⟩ d
    simp only [item, Noted.value_bind, Noted.value_pure, value_global, hd, Item.relabel,
      VarDecl.relabel, hl.bare_eq h]
  | fn f =>
    rw [item]
    split
    · rfl
    · next o ho =>
      have hw := (Stmt.walk_rewriteAll_lift (w := body ⟨v, some ⟨o.args, o.locals, o.sig.result⟩⟩)
        (P := fun _ => True) f.body fun _ _ => trivial).and h
      have hbody : Stmt.relabelAll .bare _ = Stmt.relabelAll .bare f.body :=
        hw.relabelAll_eq fun hd => by
          rw [← hd.1.1]
          exact bare_at hd.2
      simp only [Noted.value_bind, Noted.value_pure, Item.relabel, hbody]

theorem bare_items : ∀ (i : Nat) (its : List Item), (∀ it ∈ its, it.All (.fits v)) →
    (items v i its).value.map (Item.relabel .bare) = its.map (Item.relabel .bare)
  | _, [], _ => by
    rw [items]
    rfl
  | i, it :: rest, h => by
    rw [List.forall_mem_cons] at h
    rw [items]
    simp only [Noted.value_bind, Noted.value_pure, List.map_cons, bare_item i h.1,
      bare_items (i + 1) rest h.2]

end Typing

/-! ## Grouping replaces sequences by trees -/

namespace Precedence

variable {v : Visible}

mutual

theorem groups_expr : ∀ {e : Expr}, (∀ d ∈ (expr v e).notes, NotError d) →
    e.Groups v.fixityOf (expr v e).value
  | .int .., _ => .int
  | .char .., _ => .char
  | .bool .., _ => .bool
  | .str .., _ => .str
  | .emptyList .., _ => .emptyList
  | .var _, _ => .var
  | .pair a b _, h => by
    simp only [expr, Noted.forall_notes_bind] at h ⊢
    exact .pair (groups_expr h.1) (groups_expr h.2.1)
  | .call kind name as l, h => by
    simp only [expr_call, List.forall_mem_append] at h ⊢
    exact .call (groups_exprs h.2)
  | .bound b as l, h => by
    simp only [expr, Noted.forall_notes_bind] at h ⊢
    exact .bound (groups_exprs h.1)
  | .flat e rest l, h => by
    obtain ⟨he, hrest, hops⟩ := forall_notes_flat.1 h
    rw [value_flat]
    split
    · next os hos =>
      obtain ⟨t, ht, hreads, hgrouped⟩ := exists_grouped (expr v e).value os
      rw [ht]
      exact .flat (groups_expr he) (groups_operands hrest hos) hreads hgrouped
    · next hnone => exact absurd hnone (operations_ne_none error_of_flat hops)

theorem groups_exprs : ∀ {es : List Expr}, (∀ d ∈ (exprs v es).notes, NotError d) →
    Expr.GroupsArgs v.fixityOf es (exprs v es).value
  | [], _ => .nil
  | e :: es, h => by
    simp only [exprs, Noted.forall_notes_bind] at h ⊢
    exact .cons (groups_expr h.1) (groups_exprs h.2.1)

theorem groups_operands : ∀ {rest : List (OpUse × Expr)} {os : List Operation},
    (∀ d ∈ (operands v rest).notes, NotError d) →
      (operations v (operands v rest).value).value = some os →
    Expr.GroupsRest v.fixityOf rest os
  | [], os, _, hos => by
    cases hos
    exact .nil
  | (op, e) :: rest, os, h, hos => by
    simp only [operands, Noted.forall_notes_bind, Noted.value_bind, Noted.value_pure, operations]
      at h hos
    split at hos
    · next f hf =>
      obtain ⟨os', hos', rfl⟩ := Option.map_eq_some_iff.1 hos
      exact .cons hf (groups_expr h.1) (groups_operands h.2.1 hos')
    · cases hos

end

/-- Grouping a place, seen without marks. -/
theorem groups_at {p : Place} (h : ∀ d ∈ ((body v).at p).notes, NotError d) (g : Relabel) :
    (p.relabel g).Maps Eq (Expr.Groups v.fixityOf) (((body v).at p).value.relabel g) := by
  cases p with
  | decl d =>
    simp only [Rewriter.at, body, Noted.forall_notes_bind] at h
    exact .decl (optionRel_eq _) (groups_expr h.1.1).relabel
  | assign x e =>
    simp only [Rewriter.at, body, Noted.forall_notes_bind] at h
    exact .assign (groups_expr h.1.1).relabel
  | each x e =>
    simp only [Rewriter.at, body, Noted.forall_notes_bind] at h
    exact .each (groups_expr h.1.1).relabel
  | guard e =>
    simp only [Rewriter.at, body, Noted.forall_notes_bind] at h
    exact .guard (groups_expr h.1).relabel
  | call e =>
    simp only [Rewriter.at, body, Noted.forall_notes_bind] at h
    exact .call (groups_expr h.1).relabel
  | ret l e =>
    cases e with
    | none => exact .ret .none
    | some e =>
      simp only [Rewriter.at, body, Noted.forall_notes_bind] at h
      exact .ret (.some (groups_expr h.1.1).relabel)

theorem groups_item {i : Item} (h : ∀ d ∈ (item v i).notes, NotError d) (g : Relabel) :
    (i.relabel g).Maps Eq (Expr.Groups v.fixityOf) ((item v i).value.relabel g) := by
  cases i with
  | synonym s => exact .synonym rfl
  | global d =>
    simp only [item, Noted.forall_notes_bind] at h
    exact .global (optionRel_eq _) (groups_expr h.1).relabel
  | fn f =>
    simp only [item, Noted.forall_notes_bind] at h
    have hsig : Option.Rel (Signature.Maps Eq) f.sig f.sig := by
      cases f.sig with
      | none => exact .none
      | some s => exact .some ⟨List.forall₂_refl _, rfl⟩
    refine .fn hsig ((Stmt.walk_rewriteAll_lift f.body h.1).relabel ?_)
    rintro _ p q _ ⟨rfl, hn⟩
    exact groups_at hn g

end Precedence

/-! ## All passes -/

section

variable {p : Program} {headers : HeaderTexts} {o : Options}

theorem expandable_declared (h : ∀ d ∈ (stages p headers o).notes, NotError d) :
    Annotations.Expandable (stages p headers o).externals (.start o) p.items := by
  obtain ⟨-, hdeclared, -⟩ := Stages.forall_notes.1 h
  simp only [declared_stages, declareModule, Noted.forall_notes_bind] at hdeclared
  exact (Annotations.expandable_iff rfl).1 hdeclared.1

theorem items_declared (h : ∀ d ∈ (stages p headers o).notes, NotError d) :
    (stages p headers o).declared.value.1.items = p.items.map fun i =>
      (Annotations.item (Annotations.withSynonyms (.start o) p.items)
        (Annotations.environment (stages p headers o).externals (.start o) p.items) i).value := by
  have hvalue := Annotations.value_normalise_of_declarable (p := p) (t := .start o)
    (expandable_declared h).declarable rfl
  simp only [declared_stages, declareModule, Noted.value_bind, Noted.value_pure, hvalue]

variable (hfresh : ∀ i ∈ p.items, i.All .fresh) (h : ∀ d ∈ (stages p headers o).notes, NotError d)

include hfresh

/-- Scoping and checking leave marks only. -/
theorem bare_tagged : (stages p headers o).tagged.value.1.items.map (Item.relabel .bare) =
    (stages p headers o).declared.value.1.items := by
  simp only [tagged_stages, Scoping.resolve, Noted.value_bind, Noted.value_pure, Scoping.bare_items]
  exact (List.map_congr_left fun i hi => Item.bare_of_fresh (declared_fresh hfresh i hi)).trans
    (List.map_id _)

theorem bare_checked : (stages p headers o).checked.value.items.map (Item.relabel .bare) =
    (stages p headers o).grouped.value.items.map (Item.relabel .bare) := by
  have hfits :
      ∀ i ∈ (stages p headers o).tagged.value.1.items, i.All (.fits (stages p headers o).visible) :=
    Scoping.all_items (fun _ => trivial) 0 _ _ fun i hi =>
      Item.All.mono (Nodes.fresh_le_fits _) (declared_fresh hfresh i hi)
  simp only [checked_stages, Typing.resolve, Noted.value_bind, Noted.value_pure]
  refine Typing.bare_items 0 _ fun j hj => ?_
  rw [grouped_stages, Precedence.items_resolve] at hj
  obtain ⟨i, hi, rfl⟩ := List.mem_map.1 hj
  exact Precedence.all_item (F := True) (P := fun _ => True) (.inl trivial) (hfits i hi)
    fun _ _ => trivial

include h

/-- What all passes make of a program, without their marks. -/
theorem maps_checked : p.Maps (Ty.Expands (p.Defines (stages p headers o).externals))
    (Expr.Groups (stages p headers o).visible.fixityOf)
      (stages p headers o).checked.value.bare := by
  obtain ⟨-, -, -, hgrouped, -⟩ := Stages.forall_notes.1 h
  have himports : (stages p headers o).checked.value.imports = p.imports := imports_checked
  refine ⟨himports, ?_⟩
  have hgroups : List.Forall₂ (Item.Maps Eq (Expr.Groups (stages p headers o).visible.fixityOf))
      ((stages p headers o).tagged.value.1.items.map (Item.relabel .bare))
      ((stages p headers o).grouped.value.items.map (Item.relabel .bare)) := by
    rw [grouped_stages, Precedence.items_resolve, List.map_map, List.forall₂_map_left_iff,
      List.forall₂_map_right_iff, List.forall₂_same]
    intro i hi
    refine Precedence.groups_item (fun d hd => hgrouped d ?_) .bare
    rw [grouped_stages]
    simp only [Precedence.resolve, Noted.notes_bind, Noted.notes_pure, List.append_nil,
      Noted.notes_mapM]
    exact List.mem_flatMap.2 ⟨i, hi, hd⟩
  rw [bare_tagged hfresh, items_declared h, List.forall₂_map_left_iff, ← bare_checked hfresh]
    at hgroups
  have hexpands :=
    fun i hi => Annotations.expands_item (expandable_declared h) expanded_externals (i := i) hi
  refine ((List.forall₂_and_left _ _).2 ⟨hexpands, hgroups⟩).imp ?_
  rintro i j ⟨hi, hj⟩
  exact hi.trans hj

end

/-- Nothing of a program is lost, added or moved: without its marks the resolved program is the
program that was read, with each annotation replaced by its expansion and each sequence by its
tree. -/
theorem Resolved.bare_of_compile {text : String} {headers : HeaderTexts} {o : Options}
    {r : Resolved} (h : compile text headers o = .ok r) :
    ∃ p, Program.ofText text = .ok p ∧
      p.Maps (Ty.Expands (p.Defines r.externals))
        (Expr.Groups (Visible.fixityOf ⟨r.table, r.externals⟩)) r.program.bare ∧
      ∀ q, p.Maps (Ty.Expands (p.Defines r.externals))
        (Expr.Groups (Visible.fixityOf ⟨r.table, r.externals⟩)) q →
        q = r.program.bare := by
  obtain ⟨p, hp, hr⟩ := bind_eq_ok_iff.1 h
  obtain ⟨hadmitted, rfl⟩ := resolve_eq_ok_iff.1 hr
  have hnotes : ∀ d ∈ (stages p headers o).notes, NotError d := fun d hd => (hadmitted d hd).1
  have hmaps := maps_checked (Program.printable_of_ofText hp).2.all hnotes
  simp only [Stages.resolved]
  refine ⟨p, hp, hmaps, fun q hq => ?_⟩
  have hunique := (expandable_declared hnotes).declarable.rightUnique
  exact Program.Maps.rightUnique (Ty.Expands.rightUnique hunique) Expr.Groups.rightUnique hq hmaps

/-- A synonym of a synonym, an imported variable, a sequence of three operators in a loop, a prefix
operator, an overloaded call and an empty list. -/
theorem Resolved.bare_of_compile_sample : ∃ r,
    compile ("from lib import z; type Q = [P]; type P = (Int, Bool); Q g = [];" ++
      "f(x) :: P -> Int \x7b Q y = x : g; while (z + 2 * -x.fst < 7) \x7b return f(1); \x7d " ++
      "return f(x); \x7d" ++
      "f(x) :: Int -> Int \x7b return x - 1 - z; \x7d") libHeaders { module := "m" } = .ok r ∧
    ∃ p, Program.ofText ("from lib import z; type Q = [P]; type P = (Int, Bool); Q g = [];" ++
      "f(x) :: P -> Int \x7b Q y = x : g; while (z + 2 * -x.fst < 7) \x7b return f(1); \x7d " ++
      "return f(x); \x7d" ++
      "f(x) :: Int -> Int \x7b return x - 1 - z; \x7d") = .ok p ∧
      p.Maps (Ty.Expands (p.Defines r.externals))
        (Expr.Groups (Visible.fixityOf ⟨r.table, r.externals⟩)) r.program.bare ∧
      ∀ q, p.Maps (Ty.Expands (p.Defines r.externals))
        (Expr.Groups (Visible.fixityOf ⟨r.table, r.externals⟩)) q →
        q = r.program.bare :=
  exists_ok_of_isOk (by decide +kernel) fun _ h => Resolved.bare_of_compile h

end SplFrontend
