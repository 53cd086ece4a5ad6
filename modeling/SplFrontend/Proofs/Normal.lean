import SplFrontend.Proofs.Annotations
import SplFrontend.Proofs.Pipeline
import SplFrontend.Proofs.Tables

/-!
# Normal programs

A program is normal if the pass over annotations has nothing to do on it: names of synonyms are
distinct and not imported, every declaration has a type, types are expanded and free of `Void`, and
every callable has a signature for its distinct parameters. What the pass makes of a program is
normal if it reports no error (`normal_of_notes`), and a normal program goes through the pass as it
is (`normalise_of_normal`).
-/

namespace SplFrontend

/-- The report is no error. -/
abbrev NotError (d : Diagnostic) : Prop := d.isError = false

/-- An error is not free of errors. -/
theorem not_notError {f : Fault} (h : f.code.isError = true) (loc : Loc) (related : List Loc) :
    ¬ NotError (f.report loc related) := fun hn => by
  have hf : f.code.isError = false := hn
  rw [h] at hf
  cases hf

/-- If a report that would be an error is made under a condition and no error is reported, the
condition does not hold. -/
theorem not_of_notError {c : Prop} [Decidable c] {f : Fault} {loc : Loc} {related : List Loc}
    (hf : f.code.isError = true)
    (h : ∀ d ∈ (if c then [f.report loc related] else []), NotError d) :
    ¬ c := by
  intro hc
  rw [if_pos hc] at h
  exact not_notError hf loc related (h _ List.mem_cons_self)

namespace Annotations

/-! ## Declared synonyms -/

/-- The synonyms that items declare. -/
def synonymsOf : List Item → Scope
  | [] => []
  | .synonym s :: items => (s.name, ⟨s.ty, s.loc⟩) :: synonymsOf items
  | _ :: items => synonymsOf items

/-- The synonyms of the items can be declared after others: their names are not imported, and
all are distinct. -/
structure Declarable (externals : ExternalTable) (before : Scope) (items : List Item) : Prop where
  foreign : ∀ x ∈ synonymsOf items, externals.synonyms.lookup x.1 = none
  nodup : ((before ++ synonymsOf items).map Prod.fst).Nodup

variable {externals : ExternalTable}

theorem declarable_of_notes :
    ∀ (items : List Item) (t : ModuleTable), (t.synonyms.map Prod.fst).Nodup →
    (∀ d ∈ (declare externals items t).notes, NotError d) → Declarable externals t.synonyms items
  | [], _, ht, _ => ⟨nofun, by simpa [synonymsOf] using ht⟩
  | .synonym s :: items, t, ht, h => by
    rw [declare] at h
    split at h
    · rw [Noted.forall_notes_bind] at h
      exact absurd (h.1 _ List.mem_cons_self) (not_notError rfl _ _)
    · next hforeign =>
      rw [ModuleTable.declareSynonym] at h
      cases hs : t.synonyms.lookup s.name with
      | some e =>
        simp only [hs, Noted.forall_notes_bind] at h
        exact absurd (h.1 _ List.mem_cons_self) (not_notError rfl _ _)
      | none =>
        simp only [hs] at h
        have hs' := lookup_eq_none_iff_not_mem.1 hs
        have hrest := declarable_of_notes items _ (by
          rw [List.map_append, List.nodup_append]
          refine ⟨ht, by simp, ?_⟩
          rintro a ha b hb rfl
          cases List.mem_singleton.1 hb
          exact hs' ha) h
        refine ⟨List.forall_mem_cons.2 ⟨hforeign, hrest.foreign⟩, ?_⟩
        simpa [synonymsOf] using hrest.nodup
  | .global _ :: items, t, ht, h => by
    have hrest := declarable_of_notes items t ht h
    exact ⟨hrest.foreign, hrest.nodup⟩
  | .fn _ :: items, t, ht, h => by
    have hrest := declarable_of_notes items t ht h
    exact ⟨hrest.foreign, hrest.nodup⟩

/-- Synonyms that can be declared are declared. -/
theorem declare_of_declarable : ∀ (items : List Item) (t : ModuleTable),
    Declarable externals t.synonyms items →
    declare externals items t = pure { t with synonyms := t.synonyms ++ synonymsOf items }
  | [], t, _ => by simp [declare, synonymsOf]
  | .synonym s :: items, t, h => by
    have hforeign := List.forall_mem_cons.1 h.foreign
    have hnodup := h.nodup
    have hs : t.synonyms.lookup s.name = none := by
      rw [lookup_eq_none_iff_not_mem]
      intro hm
      rw [List.map_append, List.nodup_append] at hnodup
      exact hnodup.2.2 _ hm _ List.mem_cons_self rfl
    have hrest := declare_of_declarable items
      { t with synonyms := t.synonyms ++ [(s.name, ⟨s.ty, s.loc⟩)] }
      ⟨hforeign.2, by simpa [synonymsOf] using hnodup⟩
    rw [declare, hforeign.1]
    simp only [ModuleTable.declareSynonym, hs, hrest]
    simp [synonymsOf]
  | .global _ :: items, t, h => declare_of_declarable items t ⟨h.foreign, h.nodup⟩
  | .fn _ :: items, t, h => declare_of_declarable items t ⟨h.foreign, h.nodup⟩

/-! ## Annotations -/

section

variable {env : Synonyms}

theorem annotation_of_expanded {t : Ty} (h : t.Expanded) (loc : Loc) :
    expandTy env loc t = pure (some t) := by
  rw [expandTy, Ty.expand_of_expanded h]

theorem annotation_of_notes (henv : env.Complete) {loc : Loc} {t : Ty}
    (h : ∀ d ∈ (expandTy env loc t).notes, NotError d) :
    ∃ u, (expandTy env loc t).value = some u ∧ u.Expanded := by
  unfold expandTy at h ⊢
  obtain ⟨u, hu⟩ | ⟨n, hn⟩ := Ty.expand_cases henv t
  · rw [hu]
    exact ⟨u, rfl, Ty.expanded_of_expand hu⟩
  · rw [hn] at h
    exact absurd (h _ List.mem_cons_self) (not_notError rfl _ _)

/-- The declaration has a type, and a plain one. -/
def PlainDecl (ty : Option Ty) : Prop := ∃ t, ty = some t ∧ t.Plain

theorem decl_of_plain {untyped void : String → Fault} {d : VarDecl} (h : PlainDecl d.ty) :
    decl env untyped void d = pure d := by
  obtain ⟨name, ty, init, loc⟩ := d
  obtain ⟨t, rfl, hexp, hvoid⟩ := h
  simp [decl, annotation_of_expanded hexp, hvoid]

theorem plain_of_decl (henv : env.Complete) {untyped void : String → Fault}
    (hu : ∀ n, (untyped n).code.isError = true) (hv : ∀ n, (void n).code.isError = true)
    {d : VarDecl} (h : ∀ x ∈ (decl env untyped void d).notes, NotError x) :
    PlainDecl (decl env untyped void d).value.ty := by
  rw [value_decl]
  obtain ⟨name, ty, init, loc⟩ := d
  unfold decl at h
  cases ty with
  | none =>
    rw [Noted.forall_notes_bind] at h
    exact absurd (h.1 _ List.mem_cons_self) (not_notError (hu _) _ _)
  | some t =>
    rw [Noted.forall_notes_bind] at h
    obtain ⟨u, hu', hexp⟩ := annotation_of_notes henv h.1
    simp only [hu', Noted.notes_note_if, List.forall_mem_append] at h
    refine ⟨u, by simp [hu'], hexp, ?_⟩
    simpa using not_of_notError (hv _) h.2.1

/-! ## Signatures -/

theorem params_of_plain (f : FnDef) : ∀ (ps : List Param) {ts : List Ty}, (∀ t ∈ ts, t.Plain) →
    params env f ps ts = pure ts
  | _, [], _ => by rw [params]
  | ps, t :: ts, h => by
    rw [List.forall_mem_cons] at h
    rw [params, annotation_of_expanded h.1.1, params_of_plain f ps.tail h.2]
    simp [h.1.2]

theorem plain_of_params (henv : env.Complete) (f : FnDef) : ∀ (ps : List Param) (ts : List Ty),
    (∀ d ∈ (params env f ps ts).notes, NotError d) → ∀ u ∈ (params env f ps ts).value, u.Plain
  | _, [], _ => by rw [params]; exact List.forall_mem_nil _
  | ps, t :: ts, h => by
    rw [params] at h ⊢
    simp only [Noted.forall_notes_bind, Noted.notes_note_if, List.forall_mem_append] at h
    obtain ⟨u, hu, hexp⟩ := annotation_of_notes henv h.1
    have hvoid := not_of_notError rfl h.2.1
    simp only [Noted.value_bind, Noted.value_note_if, Noted.value_pure, hu, Option.getD_some]
      at hvoid ⊢
    exact List.forall_mem_cons.2 ⟨⟨hexp, by simpa using hvoid⟩,
      plain_of_params henv f ps.tail ts h.2.2.1⟩

/-- The signature lists plain types for some number of parameters, and `Void` stands in its result
only by itself. -/
structure PlainSignature (s : Signature) (count : Nat) : Prop where
  length : s.params.length = count
  params : ∀ t ∈ s.params, t.Plain
  result : s.result.Expanded
  void : s.result.isVoid = false → s.result.hasVoid = false

theorem signature_of_plain {f : FnDef} {s : Signature} (h : PlainSignature s f.params.length) :
    signature env f s = pure s := by
  have hvoid := h.void
  simp only [signature, params_of_plain f f.params h.params,
    annotation_of_expanded h.result, h.length]
  cases hv : s.result.isVoid with
  | true => simp [hv]
  | false => simp [hvoid hv]

theorem plain_of_signature (henv : env.Complete) {f : FnDef} {s : Signature}
    (h : ∀ d ∈ (signature env f s).notes, NotError d) :
    PlainSignature (signature env f s).value f.params.length := by
  simp only [signature, Noted.forall_notes_bind, Noted.notes_note_if, List.forall_mem_append] at h
  obtain ⟨hlen, hparams, hresult, hvoid, -⟩ := h
  obtain ⟨u, hu, hexp⟩ := annotation_of_notes henv hresult
  have hps := plain_of_params henv f f.params s.params hparams
  rw [value_params] at hps
  rw [value_signature]
  have hlen' := not_of_notError rfl hlen
  have hvoid' := not_of_notError rfl hvoid
  simp only [hu, Option.getD_some, Bool.and_eq_true, Bool.not_eq_true', not_and, Bool.not_eq_true]
    at hvoid' ⊢
  exact ⟨by simpa using hlen', hps, hexp, hvoid'⟩

/-! ## Callables -/

theorem distinctParams_of_nodup (f : FnDef) : ∀ (ps earlier : List Param),
    ((earlier ++ ps).map Param.name).Nodup → distinctParams f earlier ps = pure ()
  | [], _, _ => by rw [distinctParams]
  | p :: ps, earlier, h => by
    have hnone : earlier.find? (fun q => decide (q.name = p.name)) = none := by
      rw [List.find?_eq_none]
      intro q hq hqp
      rw [List.map_append, List.nodup_append] at h
      exact h.2.2 _ (List.mem_map_of_mem hq) _ List.mem_cons_self (by simpa using hqp)
    rw [distinctParams, hnone, distinctParams_of_nodup f ps (earlier ++ [p]) (by simpa using h)]

theorem nodup_of_distinctParams (f : FnDef) : ∀ (ps earlier : List Param),
    (earlier.map Param.name).Nodup → (∀ d ∈ (distinctParams f earlier ps).notes, NotError d) →
    ((earlier ++ ps).map Param.name).Nodup
  | [], _, he, _ => by simpa using he
  | p :: ps, earlier, he, h => by
    rw [distinctParams] at h
    cases hf : earlier.find? (fun q => decide (q.name = p.name)) with
    | some q =>
      simp only [hf, Noted.forall_notes_bind] at h
      exact absurd (h.1 _ List.mem_cons_self) (not_notError rfl _ _)
    | none =>
      simp only [hf] at h
      rw [List.find?_eq_none] at hf
      have hrest := nodup_of_distinctParams f ps (earlier ++ [p]) (by
        rw [List.map_append, List.nodup_append]
        refine ⟨he, by simp, ?_⟩
        rintro a ha b hb rfl
        obtain ⟨q, hq, hqa⟩ := List.mem_map.1 ha
        cases List.mem_singleton.1 hb
        exact hf q hq (by simpa using hqa)) h
      simpa using hrest

theorem operatorArity_of_eq {f : FnDef} (h : ∀ n ∈ f.kind.arity?, n = f.params.length) :
    operatorArity f = pure () := by
  unfold operatorArity
  split
  · next n hn => rw [if_neg (by simpa using h n hn)]
  · rfl

theorem eq_of_operatorArity {f : FnDef} (h : ∀ d ∈ (operatorArity f).notes, NotError d) :
    ∀ n ∈ f.kind.arity?, n = f.params.length := by
  intro n hn
  rw [operatorArity, hn] at h
  by_cases hlen : n = f.params.length
  · exact hlen
  · simp only [ne_eq, hlen, not_false_eq_true, if_true] at h
    exact absurd (h _ List.mem_cons_self) (not_notError rfl _ _)

/-- Every variable that a body declares has a plain type. -/
abbrev PlainLocals (b : List Stmt) : Prop := Stmt.HoldsAll (Place.OnDecl fun _ ty => PlainDecl ty) b

theorem rewrite_of_plain {b : List Stmt} (h : PlainLocals b) :
    Stmt.rewriteAll (locals env) b = pure b := by
  refine Stmt.rewriteAll_of_fixes (h.mono fun p hp => ?_)
  cases p with
  | decl d =>
    simp only [Rewriter.Fixes, Rewriter.at, locals, decl_of_plain (d := d) hp]
    exact ⟨rfl, rfl⟩
  | _ => exact ⟨rfl, rfl⟩

theorem plain_of_rewrite (henv : env.Complete) {b : List Stmt}
    (h : ∀ d ∈ (Stmt.rewriteAll (locals env) b).notes, NotError d) :
    PlainLocals (Stmt.rewriteAll (locals env) b).value := by
  have hw := Stmt.walk_rewriteAll_lift b h
  refine hw.holds fun _ p q _ hg => ?_
  rw [← hg.1]
  cases p with
  | decl d =>
    have hn := hg.2
    simp only [Rewriter.at, locals, Noted.forall_notes_bind] at hn
    exact plain_of_decl henv (fun _ => rfl) (fun _ => rfl) hn.1
  | _ => trivial

/-- The pass over annotations has nothing to do on the callable. -/
structure NormalCallable (f : FnDef) : Prop where
  params : (f.params.map Param.name).Nodup
  arity : ∀ n ∈ f.kind.arity?, n = f.params.length
  sig : ∃ s, f.sig = some s ∧ PlainSignature s f.params.length
  locals : PlainLocals f.body

theorem callable_of_normal {f : FnDef} (h : NormalCallable f) : callable env f = pure f := by
  obtain ⟨s, hs, hplain⟩ := h.sig
  have hd := distinctParams_of_nodup f f.params [] h.params
  have ha := operatorArity_of_eq h.arity
  have hb : Stmt.rewriteAll (Annotations.locals env) f.body = pure f.body :=
    rewrite_of_plain h.locals
  have hsig : signature env f s = pure s := signature_of_plain hplain
  obtain ⟨head, name, params, sig, body, loc⟩ := f
  cases hs
  simp only [callable, hd, ha, hb, hsig]
  rfl

theorem notes_callable (f : FnDef) : (callable env f).notes =
    (distinctParams f [] f.params).notes ++ ((operatorArity f).notes ++
      ((match f.sig with
        | some s => (signature env f s).notes
        | none => [(Fault.unsigned f.kind f.name).report f.loc]) ++
        (Stmt.rewriteAll (locals env) f.body).notes)) := by
  cases hs : f.sig <;> simp [callable, hs]

theorem normal_of_callable (henv : env.Complete) {f : FnDef}
    (h : ∀ d ∈ (callable env f).notes, NotError d) : NormalCallable (callable env f).value := by
  simp only [notes_callable, List.forall_mem_append] at h
  obtain ⟨hd, ha, hs, hb⟩ := h
  rw [value_callable]
  refine ⟨nodup_of_distinctParams f f.params [] List.nodup_nil hd, eq_of_operatorArity ha, ?_,
    plain_of_rewrite henv hb⟩
  cases hsig : f.sig with
  | none =>
    simp only [hsig] at hs
    exact absurd (hs _ List.mem_cons_self) (not_notError rfl _ _)
  | some s =>
    simp only [hsig] at hs
    exact ⟨_, rfl, plain_of_signature henv hs⟩

end

/-! ## Programs -/

/-- The pass over annotations has nothing to do on the item. -/
def NormalItem : Item → Prop
  | .synonym s => s.ty.Plain
  | .global d => PlainDecl d.ty
  | .fn f => NormalCallable f

/-- The pass over annotations has nothing to do on the program. -/
structure NormalProgram (externals : ExternalTable) (p : Program) : Prop where
  declarable : Declarable externals [] p.items
  items : ∀ i ∈ p.items, NormalItem i

theorem mem_synonymsOf {s : Synonym} : ∀ {items : List Item}, .synonym s ∈ items →
    (s.name, ⟨s.ty, s.loc⟩) ∈ synonymsOf items
  | .synonym _ :: _, h => by
    obtain h | h := List.mem_cons.1 h
    · cases h
      exact List.mem_cons_self
    · exact List.mem_cons_of_mem _ (mem_synonymsOf h)
  | .global _ :: items, h | .fn _ :: items, h => by
    obtain h | h := List.mem_cons.1 h
    · cases h
    · have hmem : _ ∈ synonymsOf items := mem_synonymsOf h
      exact hmem

theorem exists_of_mem_synonymsOf {x : String × Entry} :
    ∀ {items : List Item}, x ∈ synonymsOf items →
    ∃ s : Synonym, .synonym s ∈ items ∧ x = (s.name, ⟨s.ty, s.loc⟩)
  | .synonym s :: items, h => by
    obtain rfl | h := List.mem_cons.1 h
    · exact ⟨s, List.mem_cons_self, rfl⟩
    · obtain ⟨s', hs', heq⟩ := exists_of_mem_synonymsOf h
      exact ⟨s', List.mem_cons_of_mem _ hs', heq⟩
  | .global _ :: items, h | .fn _ :: items, h => by
    have hmem : x ∈ synonymsOf items := h
    obtain ⟨s', hs', heq⟩ := exists_of_mem_synonymsOf hmem
    exact ⟨s', List.mem_cons_of_mem _ hs', heq⟩

theorem lookup_synonymDefs (t : ModuleTable) (externals : ExternalTable) (name : String) :
    (synonymDefs t externals).lookup name =
      ((t.synonyms.lookup name).map fun e => ⟨e.ty, false⟩).or
        ((externals.synonyms.lookup name).map fun e => ⟨e.ty, true⟩) := by
  rw [synonymDefs, ExternalTable.synonymDefs, List.lookup_append]
  rw [← lookup_map, ← lookup_map]

/-- An expanded definition is its own expansion. -/
theorem expansion_of_expanded {env : Synonyms} {name : String} {d : SynonymDef}
    (hd : env.lookup name = some d) (h : d.ty.Expanded) : env.expansion name = .ok d.ty := by
  rw [Synonyms.expansion, hd]
  exact Ty.expandIn_of_expanded env [name] h

section

variable {p : Program} {t : ModuleTable}

theorem synonym_of_expansion {env : Synonyms} {s : Synonym} (hexp : env.expansion s.name = .ok s.ty)
    (hvoid : s.ty.hasVoid = false) : synonym t env s = pure s := by
  unfold synonym
  split
  · simp [hexp, hvoid]
  · rfl

theorem entry_of_expansion {env : Synonyms} {name : String} {e : Entry} (items : List Item)
    (hexp : env.expansion name = .ok e.ty) : entry env items name e = e := by
  unfold entry
  rw [hexp]
  cases items.any _ <;> rfl

/-- The table after the synonyms of the items are declared. -/
def withSynonyms (t : ModuleTable) (items : List Item) : ModuleTable :=
  { t with synonyms := synonymsOf items }

/-- The definitions that the annotations of the items are expanded by. -/
abbrev environment (externals : ExternalTable) (t : ModuleTable) (items : List Item) : Synonyms :=
  synonymDefs (withSynonyms t items) externals

theorem declare_withSynonyms {items : List Item} (h : Declarable externals [] items)
    (ht : t.synonyms = []) : declare externals items t = pure (withSynonyms t items) := by
  have hd := declare_of_declarable items t (ht ▸ h)
  rwa [ht, List.nil_append] at hd

theorem lookup_withSynonyms {items : List Item} (h : Declarable externals [] items) {s : Synonym}
    (hs : .synonym s ∈ items) :
    (withSynonyms t items).synonyms.lookup s.name = some ⟨s.ty, s.loc⟩ :=
  lookup_of_mem h.nodup (mem_synonymsOf hs)

theorem lookup_environment {items : List Item} (h : Declarable externals [] items) {s : Synonym}
    (hs : .synonym s ∈ items) :
    (environment externals t items).lookup s.name = some ⟨s.ty, false⟩ := by
  rw [lookup_synonymDefs, lookup_withSynonyms h hs]
  rfl

/-- A normal program goes through the pass as it is. -/
theorem normalise_of_normal (h : NormalProgram externals p) (ht : t.synonyms = []) :
    normalise externals p t = pure (p, withSynonyms t p.items) := by
  -- Each synonym is its own expansion.
  have hexp : ∀ s : Synonym, .synonym s ∈ p.items →
      (environment externals t p.items).expansion s.name = .ok s.ty := fun s hs =>
    expansion_of_expanded (lookup_environment h.declarable hs) (h.items _ hs).1
  have hitems : p.items.mapM (item (withSynonyms t p.items) (environment externals t p.items)) =
      pure p.items := by
    refine Noted.mapM_of_pure fun i hi => ?_
    have hn := h.items i hi
    cases i with
    | synonym s => rw [item, synonym_of_expansion (hexp s hi) hn.2]; rfl
    | global d => rw [item, decl_of_plain hn]; rfl
    | fn f => rw [item, callable_of_normal hn]; rfl
  have hentries : (synonymsOf p.items).map (fun x =>
      (x.1, entry (environment externals t p.items) p.items x.1 x.2)) = synonymsOf p.items := by
    refine (List.map_congr_left fun x hx => ?_).trans (List.map_id _)
    obtain ⟨s, hs, rfl⟩ := exists_of_mem_synonymsOf hx
    simp only [entry_of_expansion p.items (e := ⟨s.ty, s.loc⟩) (hexp s hs), id]
  simp only [normalise, declare_withSynonyms h.declarable ht, pure_bind, hitems]
  exact congrArg (fun synonyms => pure (p, ({ t with synonyms } : ModuleTable))) hentries

/-! ## What the pass makes of a program -/

/-- A synonym that the table holds expands to a plain type, if no error is reported. -/
theorem synonym_of_notes {env : Synonyms} {s : Synonym} (hd : declares t s = true)
    (h : ∀ d ∈ (synonym t env s).notes, NotError d) :
    ∃ u, env.expansion s.name = .ok u ∧ u.Plain ∧ (synonym t env s).value = { s with ty := u } := by
  rw [synonym, if_pos hd] at h ⊢
  cases hu : env.expansion s.name with
  | ok u =>
    simp only [hu, Noted.notes_note_if, List.forall_mem_append] at h
    have hvoid := not_of_notError rfl h.1
    exact ⟨u, rfl, ⟨Synonyms.expanded_of_expansion hu, by simpa using hvoid⟩,
      by simp only [Noted.value_note_if, Noted.value_pure]⟩
  | error why =>
    simp only [hu, Noted.forall_notes_bind] at h
    refine absurd (h.1 _ List.mem_cons_self) (not_notError ?_ _ _)
    cases why with
    | cycle name external => cases external <;> rfl
    | undefined name => rfl

theorem entry_of_declared {env : Synonyms} {items : List Item} {s : Synonym}
    (hs : .synonym s ∈ items) {u : Ty} (hu : env.expansion s.name = .ok u) :
    entry env items s.name ⟨s.ty, s.loc⟩ = ⟨u, s.loc⟩ := by
  simp only [entry, hu]
  split
  · next heq =>
    cases heq
    rfl
  · next hno => exact (hno u (List.any_eq_true.2 ⟨_, hs, by simp⟩) rfl).elim

/-- The synonyms of the rewritten items are those of the items, with what they expand to. -/
theorem synonymsOf_map {env : Synonyms} {items : List Item} :
    ∀ its : List Item, (∀ i ∈ its, i ∈ items) →
    (∀ s : Synonym, .synonym s ∈ items → ∃ u, env.expansion s.name = .ok u ∧
      (synonym t env s).value = { s with ty := u }) →
    synonymsOf (its.map fun i => (item t env i).value) =
      (synonymsOf its).map fun x => (x.1, entry env items x.1 x.2)
  | [], _, _ => rfl
  | .synonym s :: its, hmem, h => by
    rw [List.forall_mem_cons] at hmem
    obtain ⟨u, hu, hv⟩ := h s hmem.1
    have hhead : (item t env (.synonym s)).value = .synonym { s with ty := u } :=
      congrArg Item.synonym hv
    rw [List.map_cons, hhead, synonymsOf, synonymsOf, List.map_cons, synonymsOf_map its hmem.2 h,
      entry_of_declared hmem.1 hu]
  | .global d :: its, hmem, h => synonymsOf_map its (List.forall_mem_cons.1 hmem).2 h
  | .fn f :: its, hmem, h => synonymsOf_map its (List.forall_mem_cons.1 hmem).2 h

/-- The synonyms of the items can be declared, and then no item is in error. -/
structure Expandable (externals : ExternalTable) (t : ModuleTable) (items : List Item) : Prop where
  declarable : Declarable externals [] items
  notes : ∀ i ∈ items, ∀ d ∈ (item (withSynonyms t items) (environment externals t items) i).notes,
    NotError d

/-- The pass reports no error exactly on items that can be expanded. -/
theorem expandable_iff (ht : t.synonyms = []) :
    (∀ d ∈ (normalise externals p t).notes, NotError d) ↔ Expandable externals t p.items := by
  constructor
  · intro h
    simp only [normalise, Noted.forall_notes_bind] at h
    have hdec : Declarable externals [] p.items := by
      have hd := declarable_of_notes p.items t (by rw [ht]; exact List.nodup_nil) h.1
      rwa [ht] at hd
    rw [declare_withSynonyms hdec ht] at h
    refine ⟨hdec, fun i hi d hd => h.2.1 d ?_⟩
    rw [Noted.notes_mapM]
    exact List.mem_flatMap.2 ⟨i, hi, hd⟩
  · intro h
    simp only [normalise, Noted.forall_notes_bind, declare_withSynonyms h.declarable ht]
    refine ⟨List.forall_mem_nil _, fun d hd => ?_, List.forall_mem_nil _⟩
    rw [Noted.notes_mapM] at hd
    obtain ⟨i, hi, hd⟩ := List.mem_flatMap.1 hd
    exact h.notes i hi d hd

namespace Expandable

variable {items : List Item}

theorem synonym (h : Expandable externals t items) {s : Synonym} (hs : .synonym s ∈ items) :
    ∃ u, (environment externals t items).expansion s.name = .ok u ∧ u.Plain ∧
      (Annotations.synonym (withSynonyms t items) (environment externals t items) s).value =
        { s with ty := u } := by
  have hd : declares (withSynonyms t items) s = true := by
    rw [declares, lookup_withSynonyms h.declarable hs]
    simp
  have hn := h.notes _ hs
  simp only [item, Noted.forall_notes_bind] at hn
  exact synonym_of_notes hd hn.1

/-- Own definitions expand since each of them is checked, imported ones are expanded. -/
theorem complete (h : Expandable externals t items)
    (hext : ∀ x ∈ externals.synonyms, x.2.ty.Expanded) :
    (environment externals t items).Complete := by
  intro name d hd
  have hd' := hd
  rw [lookup_synonymDefs, Option.or_eq_some_iff] at hd'
  obtain hown | ⟨-, hother⟩ := hd'
  · obtain ⟨e, he, -⟩ := Option.map_eq_some_iff.1 hown
    obtain ⟨s, hs, hx⟩ := exists_of_mem_synonymsOf (mem_of_lookup he)
    cases hx
    obtain ⟨u, hu, -⟩ := h.synonym hs
    exact ⟨u, hu⟩
  · obtain ⟨e, he, rfl⟩ := Option.map_eq_some_iff.1 hother
    exact ⟨e.ty, expansion_of_expanded hd (hext _ (mem_of_lookup he))⟩

theorem synonymsOf_items (h : Expandable externals t items) :
    synonymsOf
      (items.map fun i => (item (withSynonyms t items) (environment externals t items) i).value) =
      (synonymsOf items).map fun x => (x.1, entry (environment externals t items) items x.1 x.2) :=
  synonymsOf_map items (fun _ hi => hi) fun s hs => by
    obtain ⟨u, hu, -, hv⟩ := h.synonym hs
    exact ⟨u, hu, hv⟩

theorem normalItem (h : Expandable externals t items)
    (hext : ∀ x ∈ externals.synonyms, x.2.ty.Expanded) {i : Item} (hi : i ∈ items) :
    NormalItem (item (withSynonyms t items) (environment externals t items) i).value := by
  have hn := h.notes i hi
  cases i with
  | synonym s =>
    obtain ⟨u, -, hplain, hv⟩ := h.synonym hi
    have hitem : (item (withSynonyms t items) (environment externals t items) (.synonym s)).value =
        .synonym { s with ty := u } := congrArg Item.synonym hv
    rw [hitem]
    exact hplain
  | global d =>
    simp only [item, Noted.forall_notes_bind] at hn
    exact plain_of_decl (h.complete hext) (fun _ => rfl) (fun _ => rfl) hn.1
  | fn f =>
    simp only [item, Noted.forall_notes_bind] at hn
    exact normal_of_callable (h.complete hext) hn.1

end Expandable

/-- The pass over items whose synonyms can be declared. -/
theorem value_normalise_of_declarable (h : Declarable externals [] p.items) (ht : t.synonyms = []) :
    (normalise externals p t).value =
      ({ p with
          items :=
        p.items.map fun i =>
          (item (withSynonyms t p.items) (environment externals t p.items) i).value },
        { t with
          synonyms := (synonymsOf p.items).map fun x =>
            (x.1, entry (environment externals t p.items) p.items x.1 x.2) }) := by
  rw [value_normalise, declare_withSynonyms h ht]
  rfl

/-- What the pass makes of a program is normal, and its table holds the expanded synonyms. -/
theorem normal_of_notes (hext : ∀ x ∈ externals.synonyms, x.2.ty.Expanded) (ht : t.synonyms = [])
    (h : ∀ d ∈ (normalise externals p t).notes, NotError d) :
    NormalProgram externals (normalise externals p t).value.1 ∧
      (normalise externals p t).value.2 =
        withSynonyms t (normalise externals p t).value.1.items := by
  have hexp := (expandable_iff ht).1 h
  rw [value_normalise_of_declarable hexp.declarable ht]
  refine ⟨⟨⟨?_, ?_⟩, fun j hj => ?_⟩, ?_⟩
  · intro x hx
    rw [hexp.synonymsOf_items] at hx
    obtain ⟨y, hy, rfl⟩ := List.mem_map.1 hx
    exact hexp.declarable.foreign y hy
  · rw [hexp.synonymsOf_items]
    simpa [Function.comp_def] using hexp.declarable.nodup
  · obtain ⟨i, hi, rfl⟩ := List.mem_map.1 hj
    exact hexp.normalItem hext hi
  · exact congrArg (fun synonyms => ({ t with synonyms } : ModuleTable)) hexp.synonymsOf_items.symm

end

end Annotations

end SplFrontend
