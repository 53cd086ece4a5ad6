import SplFrontend.Proofs.RoundTrip
import SplFrontend.Proofs.Stability.Resolution
import SplFrontend.Proofs.Stability.Written

/-!
# Printing and compiling again

The text of a resolved program compiles again, under the same headers and options. What is read back
is the final program without what no text can write, and every pass finds its share of that again:
the imports, the table up to places, the references, the groups, the bindings. So the second program
prints to the same text, and the two modules have the same header (`Resolved.compile_render`).
-/

namespace SplFrontend

/-! ## What erasure leaves -/

theorem Item.outline_erase (k : Erasure) (it : Item) :
    (it.erase k).outline .forget = it.outline .forget := by
  cases it with
  | fn f => simp [erase, FnDef.erase, outline, Param.relocate, Loc.forget]
  | _ => rfl

theorem Item.plainLocals_of_erase {k k' : Erasure} {it it' : Item} (h : it'.erase k = it.erase k')
    (hit : it.PlainLocals) : it'.PlainLocals := by
  cases it <;> cases it' <;> try cases h
  case fn.fn f f' =>
    have hbody := congrArg FnDef.body (Item.fn.inj h)
    refine ((Stmt.walkAll_of_erase f.body f'.body hbody.symm).and hit).holds ?_
    rintro _ p q _ ⟨hpq, hp⟩
    exact Place.onDecl_of_declared hpq.declared_eq.symm hp
  all_goals trivial

/-! ## Programs without types -/

section

variable {cx : Typing.Context}

theorem Variable.erase_typing {v : Variable} (h : (Nodes.ready cx).var v) :
    v.erase .typing = v.erase .places := by
  simp only [erase, Erasure.typing, Erasure.places, h.2, ite_self]

mutual

/-- Before checking there is no type and no binding to forget. -/
theorem Expr.erase_typing : ∀ {e : Expr}, e.All (.ready cx) → e.erase .typing = e.erase .places
  | .int .., _ | .char .., _ | .bool .., _ | .str .., _ => by simp only [erase]
  | .emptyList .., h => by
    have hnone : _ = none := h
    simp only [erase, hnone, ite_self]
  | .pair .., h => by simp only [erase, erase_typing h.1, erase_typing h.2]
  | .var _, h => by simp only [erase, Variable.erase_typing h]
  | .flat .., h => h.1.elim
  | .call .., h => by
    rw [erase, erase, eraseArgs_typing h, Erasure.call_of_groups rfl, Erasure.call_of_groups rfl]
  | .bound .., h => h.1.elim

theorem Expr.eraseArgs_typing : ∀ {es : List Expr}, Expr.AllArgs (.ready cx) es →
    Expr.eraseArgs .typing es = Expr.eraseArgs .places es
  | [], _ => by rw [eraseArgs, eraseArgs]
  | _ :: _, h => by rw [eraseArgs, eraseArgs, erase_typing h.1, eraseArgs_typing h.2]

end

theorem Place.erase_typing {p : Place} (h : p.Ready cx) : p.erase .typing = p.erase .places := by
  obtain ⟨h, -⟩ := h
  cases p with
  | decl d =>
    have hd : d.init.All (.ready cx) := h
    simp only [erase, VarDecl.erase, Expr.erase_typing hd]
  | assign v e | each v e => simp only [erase, Variable.erase_typing h.1, Expr.erase_typing h.2]
  | guard e | call e =>
    have he : e.All (.ready cx) := h
    simp only [erase, Expr.erase_typing he]
  | ret l e =>
    cases e with
    | none => rfl
    | some e => simp only [erase, Option.map_some, Expr.erase_typing (h e rfl)]

end

theorem Item.erase_typing {v : Visible} {i : Nat} {it : Item} (h : it.Meets v i Place.Ready) :
    it.erase .typing = it.erase .places := by
  cases it with
  | synonym s => rfl
  | global d => exact congrArg Item.global (Place.decl.inj (Place.erase_typing h))
  | fn f =>
    obtain ⟨o, -, -, -, hbody⟩ := h
    have hsame : Stmt.eraseAll .typing f.body = Stmt.eraseAll .places f.body := by
      refine ((Stmt.walkAll_refl f.body).and hbody).erase_eq ?_
      rintro _ p _ _ ⟨rfl, hp⟩
      exact Place.erase_typing hp
    simp only [erase, FnDef.erase, hsame]

theorem Program.erase_typing {v : Visible} {p : Program} (h : p.Meets v Place.Ready) :
    p.erase .typing = p.erase .places := by
  have hitems : p.items.map (Item.erase .typing) = p.items.map (Item.erase .places) := by
    refine List.map_congr_left fun it hit => ?_
    obtain ⟨i, hi⟩ := List.mem_iff_getElem?.1 hit
    exact Item.erase_typing (h i it hi)
  simp only [erase, hitems]

/-! ## Operators have fixities -/

theorem Visible.fixed_of_exportable {φ : String → Fixity} {module : String} {t : ModuleTable}
    {externals : ExternalTable} (ht : Exportable φ module t.exports) (hx : externals.Sound) :
    Visible.Fixed ⟨t, externals⟩ := by
  intro name hname
  cases hfixity : fixityOf ⟨t, externals⟩ name with
  | some x => exact ⟨x, rfl⟩
  | none =>
    obtain ⟨hown, hexternal⟩ : t.fixityOf name = none ∧ externals.fixityOf name = none := by
      simpa [fixityOf] using hfixity
    refine absurd ?_ hname
    simp only [candidates, localCandidates, externalCandidates, ht.overloads_eq_nil hown,
      hx.overloads_eq_nil hexternal]
    rfl

/-! ## The passes over what is read back -/

section

variable {text : String} {p q : Program} {headers : HeaderTexts} {o : Options}

theorem sound_grouped (hp : Program.ofText text = .ok p) (v : Visible) :
    Sound v (stages p headers o).grouped.value := by
  obtain ⟨hprint, hfresh⟩ := Program.printable_of_ofText hp
  have hread : Sound v p :=
    ⟨hprint, fun i hi => Item.All.mono (Nodes.fresh_le_fits v) (hfresh.all i hi)⟩
  exact ((hread.expanded _ _).tagged _ _).grouped _

theorem sound_externals : (stages p headers o).externals.Sound :=
  (Imports.merge_unlocated Builtin.sound p.imports).value.2

variable (hp : Program.ofText text = .ok p)
  (h : ∀ d ∈ (stages p headers o).notes, Admitted o.denyWarnings d)
    (hq : q.erase .places = (stages p headers o).checked.value.erase .resolution)

include hq in
/-- The imports are merged as before. -/
theorem imported_reread :
    Noted.Alike Eq (stages q headers o).imported (stages p headers o).imported := by
  have himports : q.imports.map Import.unlocated = p.imports.map Import.unlocated := by
    rw [← @imports_checked p headers o]
    exact congrArg Program.imports hq
  have hread := @Imports.merge_unlocated headers _ Builtin.sound q.imports
  have hfirst := @Imports.merge_unlocated headers _ Builtin.sound p.imports
  rw [himports] at hread
  exact ⟨hread.value.1.trans hfirst.value.1.symm, hread.codes.trans hfirst.codes.symm⟩

include hq in
theorem externals_reread : (stages q headers o).externals = (stages p headers o).externals :=
  congrArg Imported.externals (imported_reread hq).value

include h hq in
/-- Nothing is reported of the declarations, and the table is the same up to places. -/
theorem declared_reread : ∃ t, (stages q headers o).declared = pure (q, t) ∧
    t.relocate .forget = (stages p headers o).declared.value.2.relocate .forget := by
  have hnotes : ∀ d ∈ (stages p headers o).notes, NotError d := fun d hd => (h d hd).1
  have ha := accepted_declared hnotes
  have hretains := retains_declared hnotes
  have hitems : q.items.map (Item.erase .places) =
      (stages p headers o).checked.value.items.map (Item.erase .resolution) :=
    congrArg Program.items hq
  have houtline : q.items.map (Item.outline .forget) =
      (stages p headers o).declared.value.1.items.map (Item.outline .forget) := by
    have hsame := congrArg (List.map (Item.outline .forget)) hitems
    simp only [List.map_map, Function.comp_def, Item.outline_erase] at hsame
    exact hsame.trans hretains.outline_eq
  have hlocals : ∀ it ∈ q.items, it.PlainLocals := by
    intro it hit
    have hmem :
        it.erase .places ∈ (stages p headers o).checked.value.items.map (Item.erase .resolution) :=
      hitems ▸ List.mem_map_of_mem hit
    obtain ⟨it₄, hit₄, heq⟩ := List.mem_map.1 hmem
    exact Item.plainLocals_of_erase heq.symm (hretains.plainLocals ha.plainLocals it₄ hit₄)
  obtain ⟨t, ha', ht⟩ := ha.of_outline houtline hlocals
  refine ⟨t, ?_, ht⟩
  rw [declared_stages, externals_reread hq]
  exact ha'.declareModule_eq

include hp h hq

/-- Scoping finds the references again and fills the same table up to places. -/
theorem tagged_reread : (∀ d ∈ (stages q headers o).tagged.notes, Admitted o.denyWarnings d) ∧
    (stages q headers o).tagged.value.1.erase .places =
      (stages p headers o).grouped.value.erase .grouping ∧
    (stages q headers o).tagged.value.2.relocate .forget =
      (stages p headers o).tagged.value.2.relocate .forget := by
  have hnotes : ∀ d ∈ (stages p headers o).notes, NotError d := fun d hd => (h d hd).1
  have ha := accepted_declared hnotes
  have hfresh := @declared_fresh p headers o (Program.printable_of_ofText hp).2.all
  obtain ⟨-, -, htagged, -⟩ := Stages.forall_notes.1 h
  have hgrouped : q.erase .places = (stages p headers o).grouped.value.erase .resolution := by
    rw [hq, checked_stages]
    exact (Typing.erase_resolve rfl (sound_grouped hp _).fits).1
  have hitems :
      q.items.map (Item.erase .places) = ((stages p headers o).tagged.value.1.items.map fun it =>
      (Precedence.item (stages p headers o).visible it).value).map (Item.erase .resolution) := by
    rw [← Precedence.items_resolve, ← grouped_stages]
    exact congrArg Program.items hgrouped
  have hheld : ∀ d, .global d ∈ (stages p headers o).declared.value.1.items →
      ((stages p headers o).declared.value.2.globals.lookup d.name).any
        (fun e => e.loc = d.loc) = true := by
    intro d hd
    obtain ⟨ty, -, hlookup⟩ := ha.fills.lookup_globals hd
    rw [hlookup]
    exact decide_eq_true rfl
  obtain ⟨t, hdeclared, ht⟩ := declared_reread h hq
  have htags := ha.tags htagged
  rw [← tagged_stages] at htags
  obtain ⟨hn, hvalue, htable⟩ := Scoping.items_written htags hfresh hheld hitems ht
  rw [← Precedence.items_resolve, ← grouped_stages] at hvalue
  rw [tagged_stages, externals_reread hq, hdeclared]
  simp only [Scoping.resolve, Noted.forall_notes_bind, Noted.value_bind, Noted.value_pure,
    Program.erase, hvalue]
  exact ⟨⟨hn, List.forall_mem_nil _⟩,
    congrArg (Program.mk · _) (congrArg Program.imports hgrouped), htable⟩

/-- Grouping finds the groups again. -/
theorem grouped_reread : (stages q headers o).grouped.unlocated (Program.erase .places) =
    pure ((stages p headers o).grouped.value.erase .places) := by
  have hnotes : ∀ d ∈ (stages p headers o).notes, NotError d := fun d hd => (h d hd).1
  have hfresh := (Program.printable_of_ofText hp).2.all
  obtain ⟨-, htagged, htable⟩ := tagged_reread hp h hq
  have hchecked : ∀ {k : Erasure}, k.types = false →
      (stages p headers o).checked.value.erase k = (stages p headers o).grouped.value.erase k := by
    intro k hk
    rw [checked_stages]
    exact (Typing.erase_resolve hk (sound_grouped hp _).fits).1
  have hfixed : (stages p headers o).visible.Fixed := by
    obtain ⟨-, φ, hφ, -⟩ := (accepted_declared hnotes).exportable
    rw [← (tags_declared hnotes).exports_eq.2] at hφ
    exact Visible.fixed_of_exportable hφ sound_externals
  have hcandidates : ∀ kind name, (stages q headers o).visible.candidates kind name =
      (stages p headers o).visible.candidates kind name := by
    rw [Stages.visible, externals_reread hq]
    exact Visible.candidates_congr htable
  have hfixed' : (stages q headers o).visible.Fixed := by
    intro name hname
    obtain ⟨x, hx⟩ := hfixed (hcandidates _ _ ▸ hname)
    refine ⟨x, ?_⟩
    rw [Stages.visible, externals_reread hq, Visible.fixityOf_congr htable]
    exact hx
  rw [grouped_stages, ← Program.erase_typing (meets_ready_grouped hfresh hnotes), ← hchecked rfl]
  refine Precedence.resolve_tagged hfixed' hcandidates (meets_typed_checked hfresh hnotes) ?_
  rw [htagged, hchecked rfl]

/-- Checking finds the types and bindings again. -/
theorem checked_reread : (stages q headers o).checked.unlocated (Program.erase .places) =
    pure ((stages p headers o).checked.value.erase .places) := by
  have hnotes : ∀ d ∈ (stages p headers o).notes, NotError d := fun d hd => (h d hd).1
  obtain ⟨-, -, htable⟩ := tagged_reread hp h hq
  obtain ⟨-, -, -, -, hchecked, -⟩ := Stages.forall_notes.1 hnotes
  have hfirst : Typing.resolve (stages p headers o).visible (stages p headers o).grouped.value =
      pure (stages p headers o).checked.value := by
    rw [checked_stages] at hchecked
    exact Noted.ext rfl ((Typing.strict_resolve _).notes_eq_nil hchecked)
  rw [checked_stages, Stages.visible, externals_reread hq]
  exact Typing.resolve_unlocated htable hfirst (congrArg Noted.value (grouped_reread hp h hq))

/-- All that is reported of what is read back is admitted. -/
theorem admitted_reread : ∀ d ∈ (stages q headers o).notes, Admitted o.denyWarnings d := by
  obtain ⟨himported, -, -, -, -, hflow⟩ := Stages.forall_notes.1 h
  obtain ⟨_, hdeclared, -⟩ := declared_reread h hq
  have hchecked := checked_reread hp h hq
  refine Stages.forall_notes.2 ⟨?_, ?_, (tagged_reread hp h hq).1, ?_, ?_, ?_⟩
  · exact admitted_of_codes (imported_reread hq).codes himported
  · rw [hdeclared]
    exact List.forall_mem_nil _
  · rw [Noted.notes_of_unlocated (grouped_reread hp h hq)]
    exact List.forall_mem_nil _
  · rw [Noted.notes_of_unlocated hchecked]
    exact List.forall_mem_nil _
  · have hsame :
        (stages q headers o).flow.unlocated id = (stages p headers o).flow.unlocated id := by
      have hvalue : (stages q headers o).checked.value.erase .places =
          (stages p headers o).checked.value.erase .places := congrArg Noted.value hchecked
      rw [flow_stages, flow_stages, Flow.unlocated_program, Flow.unlocated_program, hvalue]
    exact admitted_of_codes (Noted.codes_unlocated (congrArg Noted.notes hsame)) hflow

end

/-- The text of a compiled module compiles again, to a program that prints to the same text, with
the same table up to places and the same header. -/
theorem Resolved.compile_render {text : String} {headers : HeaderTexts} {o : Options} {r : Resolved}
    (h : compile text headers o = .ok r) : ∃ r', compile r.program.render headers o = .ok r' ∧
      r'.program.render = r.program.render ∧ r'.table.unlocated = r.table.unlocated ∧
      r'.table.headerText = r.table.headerText := by
  obtain ⟨p, hp, hr⟩ := bind_eq_ok_iff.1 h
  obtain ⟨hn, rfl⟩ := resolve_eq_ok_iff.1 hr
  have hprintable : (stages p headers o).checked.value.Printable := by
    rw [checked_stages]
    exact (sound_grouped hp _).checked.printable
  obtain ⟨q, hread, hq⟩ := Program.ofText_render_of_printable hprintable
  have hprogram : (stages q headers o).checked.value.erase .places =
      (stages p headers o).checked.value.erase .places :=
    congrArg Noted.value (checked_reread hp hn hq)
  have htable := (tagged_reread hp hn hq).2.2
  refine ⟨(stages q headers o).resolved, ?_, ?_, htable, ?_⟩
  · exact bind_eq_ok_iff.2 ⟨q, hread, resolve_eq_ok_iff.2 ⟨admitted_reread hp hn hq, rfl⟩⟩
  · simp only [Stages.resolved]
    rw [← Program.render_unlocated, hprogram, Program.render_unlocated]
  · simp only [Stages.resolved]
    rw [← ModuleTable.headerText_relocate (g := .forget), htable, ModuleTable.headerText_relocate]

/-- A module with a renamed import, a synonym, an escaped quote, sequences that print with
parentheses, a variable that hides another, overloads and an accessor. It prints to another text
than the one that was read. -/
theorem Resolved.compile_render_sample :
    ∃ r, compile ("from lib import z as y; type P = (Int, [Char]); P g = (1 - 2 - 3, \"\\\"\");" ++
        "f(x) :: P -> Int \x7b Int y = -(1 + y) * 2; return f(y); \x7d" ++
        "f(x) :: Int -> Int \x7b return f((x, g.snd)); \x7d") libHeaders { module := "m" } = .ok r ∧
      ∃ r', compile r.program.render libHeaders { module := "m" } = .ok r' ∧
        r'.program.render = r.program.render ∧ r'.table.unlocated = r.table.unlocated ∧
        r'.table.headerText = r.table.headerText :=
  exists_ok_of_isOk (by decide +kernel) fun _ h => Resolved.compile_render h

end SplFrontend
