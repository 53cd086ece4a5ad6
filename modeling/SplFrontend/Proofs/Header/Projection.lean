import Mathlib.Data.List.Induction
import Mathlib.Data.List.Nodup
import SplFrontend.Proofs.Expansion.Reachable
import SplFrontend.Proofs.Importable

/-!
# Normal headers are a projection

A type of a header expands if there is an expansion of it at all: the last definition of a name in
the header counts, and where there is none the built-in one. Normalizing keeps what expands, as what
it expands to, and reports each entry that does not (`Header.normal_projects`). What is kept has no
synonyms left, so a second run has nothing to expand, although the definitions that were dropped are
not there any more.
-/

namespace SplFrontend

/-! ## The definitions that count -/

theorem latest_concat (es : List (String × Ty)) (name : String) (ty : Ty) :
    latest (es ++ [(name, ty)]) =
      if (latest es).any (·.1 = name) then (latest es).map fun e =>
        if e.1 = name then (name, ty) else e
      else latest es ++ [(name, ty)] := by
  rw [latest, List.foldl_append]
  rfl

theorem lookup_cons_eq_ite (m n : String) (ty : Ty) (es : List (String × Ty)) :
    ((m, ty) :: es).lookup n = if n = m then some ty else es.lookup n := by
  rw [List.lookup_cons]
  by_cases h : n = m
  · rw [beq_iff_eq.2 h, if_pos h]
  · rw [beq_eq_false_iff_ne.2 h, if_neg h]

theorem any_fst_eq_iff {es : List (String × Ty)} {name : String} :
    es.any (·.1 = name) = true ↔ name ∈ es.map Prod.fst := by
  simp only [List.any_eq_true, decide_eq_true_eq, List.mem_map]

/-- A new type for a name that has an entry leaves the names as they are. -/
theorem map_fst_redefine (es : List (String × Ty)) (name : String) (ty : Ty) :
    (es.map fun e => if e.1 = name then (name, ty) else e).map Prod.fst = es.map Prod.fst := by
  rw [List.map_map]
  refine List.map_congr_left fun e _ => ?_
  simp only [Function.comp_apply]
  split
  · next heq => exact heq.symm
  · rfl

theorem lookup_redefine (es : List (String × Ty)) (name n : String) (ty : Ty) :
    (es.map fun e => if e.1 = name then (name, ty) else e).lookup n =
      if n = name then (es.lookup n).map fun _ => ty else es.lookup n := by
  induction es with
  | nil => simp
  | cons e es ih =>
    obtain ⟨m, u⟩ := e
    rw [List.map_cons, lookup_cons_eq_ite]
    by_cases hm : m = name
    · rw [if_pos hm, lookup_cons_eq_ite, ih, hm]
      by_cases hn : n = name <;> simp [hn]
    · rw [if_neg hm, lookup_cons_eq_ite, ih]
      by_cases hn : n = m
      · simp [hn, hm]
      · simp [hn]

/-- Each name has one entry, in the place of its first definition. -/
theorem map_fst_latest (es : List (String × Ty)) :
    (latest es).map Prod.fst = (es.map Prod.fst).eraseDups := by
  induction es using List.reverseRecOn with
  | nil => rfl
  | append_singleton es x ih =>
    obtain ⟨name, ty⟩ := x
    rw [latest_concat, List.map_append, List.eraseDups_append, ← ih]
    have hmem : (latest es).any (·.1 = name) = true ↔ name ∈ es.map Prod.fst := by
      rw [any_fst_eq_iff, ih, List.mem_eraseDups]
    by_cases hname : name ∈ es.map Prod.fst
    · rw [if_pos (hmem.2 hname), map_fst_redefine]
      have hrest : [name].removeAll (es.map Prod.fst) = [] := by
        simpa [List.removeAll] using hname
      rw [List.map_cons, List.map_nil, hrest]
      exact (List.append_nil _).symm
    · rw [if_neg fun h => hname (hmem.1 h)]
      have hrest : [name].removeAll (es.map Prod.fst) = [name] := by
        simp [List.removeAll, hname]
      rw [List.map_append, List.map_cons, List.map_nil, hrest]
      rfl

theorem nodup_latest (es : List (String × Ty)) : ((latest es).map Prod.fst).Nodup := by
  induction es using List.reverseRecOn with
  | nil => exact List.nodup_nil
  | append_singleton es x ih =>
    obtain ⟨name, ty⟩ := x
    rw [latest_concat]
    split
    · rwa [map_fst_redefine]
    · next hnew =>
      rw [List.map_append, List.map_singleton, ← List.concat_eq_append]
      exact ih.concat fun h => hnew (any_fst_eq_iff.2 h)

/-- The entry of a name holds its last definition. -/
theorem lookup_latest (es : List (String × Ty)) (n : String) :
    (latest es).lookup n = es.reverse.lookup n := by
  induction es using List.reverseRecOn with
  | nil => rfl
  | append_singleton es x ih =>
    obtain ⟨name, ty⟩ := x
    rw [latest_concat, List.reverse_append, List.reverse_singleton, List.singleton_append,
      lookup_cons_eq_ite]
    split
    · next hold =>
      rw [lookup_redefine, ih]
      by_cases hn : n = name
      · obtain ⟨u, hu⟩ : ∃ u, (latest es).lookup n = some u := by
          refine Option.ne_none_iff_exists'.1 fun h => ?_
          exact lookup_eq_none_iff_not_mem.1 h (hn ▸ any_fst_eq_iff.1 hold)
        rw [if_pos hn, if_pos hn, ← ih, hu, Option.map_some]
      · rw [if_neg hn, if_neg hn]
    · next hnew =>
      rw [List.lookup_append, lookup_cons_eq_ite]
      by_cases hn : n = name
      · have hnone : (latest es).lookup n = none :=
          lookup_eq_none_iff_not_mem.2 fun h => hnew (any_fst_eq_iff.2 (hn ▸ h))
        rw [if_pos hn, if_pos hn, hnone, Option.none_or]
      · rw [if_neg hn, if_neg hn, List.lookup_nil, Option.or_none, ih]

/-- What a name stands for in a header: its last definition there or, if it has none, the built-in
one. -/
def Header.Defines (h : Header) (builtins : ExternalTable) (name : String) (ty : Ty) : Prop :=
  (h.synonyms.reverse.lookup name).or (builtins.synonymType name) = some ty

theorem Header.defines_synonymDefs (h : Header) (builtins : ExternalTable) :
    (h.synonymDefs builtins).Defines = h.Defines builtins := by
  funext name ty
  have hlookup : ((h.synonymDefs builtins).lookup name).map SynonymDef.ty =
      (h.synonyms.reverse.lookup name).or (builtins.synonymType name) := by
    have hown := lookup_map (fun ty => (⟨ty, true⟩ : SynonymDef)) name (l := latest h.synonyms)
    have hbuiltin := lookup_map (fun e => (⟨e.ty, true⟩ : SynonymDef)) name (l := builtins.synonyms)
    rw [Header.synonymDefs, ExternalTable.synonymDefs, List.lookup_append, hown, hbuiltin,
      Option.map_or, Option.map_map, Option.map_map, lookup_latest]
    simp [ExternalTable.synonymType, Function.comp_def]
  rw [Header.Defines, ← hlookup, Option.map_eq_some_iff]
  rfl

/-! ## What expands -/

namespace Ty

variable {env : Synonyms} {D : String → Ty → Prop} {t u : Ty}

theorem Expands.expanded (h : t.Expands D u) : u.Expanded := by
  induction h with
  | basic => trivial
  | pair _ _ iha ihb => exact ⟨iha, ihb⟩
  | list _ ih => exact ih
  | syn _ _ ih => exact ih

/-- What an expansion goes through is defined and on no cycle: a cycle would go through the
definition too, which is expanded in fewer steps. -/
theorem Expands.not_cyclic (h : t.Expands env.Defines u) :
    ∀ n, env.Reaches t n → (∃ d, env.lookup n = some d) ∧ ¬ env.Cyclic n := by
  induction h with
  | basic =>
    rintro n ⟨m, hm, -⟩
    exact hm.elim
  | pair _ _ iha ihb =>
    intro n hn
    exact (Synonyms.reaches_pair.1 hn).elim (iha n) (ihb n)
  | list _ ih => exact fun n hn => ih n (Synonyms.reaches_list.1 hn)
  | syn hdef _ ih =>
    intro n hn
    obtain ⟨d, hd, rfl⟩ := hdef
    obtain rfl | hn := (Synonyms.reaches_syn hd).1 hn
    · refine ⟨⟨d, hd⟩, fun hcyclic => ?_⟩
      exact (ih n ((Synonyms.transGen_iff hd).1 hcyclic)).2 hcyclic
    · exact ih n hn

/-- A type is expanded if and only if it has an expansion. -/
theorem expand_eq_ok_iff : t.expand env = .ok u ↔ t.Expands env.Defines u := by
  constructor
  · intro h
    exact (expands_iff_of_expand h u).2 rfl
  · intro h
    obtain ⟨v, hv⟩ := (exists_expand_iff env t).2 h.not_cyclic
    rwa [(expands_iff_of_expand hv u).1 h]

end Ty

theorem Signature.expand_eq_ok_iff {env : Synonyms} {s s' : Signature} :
    s.expand env = .ok s' ↔ s.Maps (Ty.Expands env.Defines) s' := by
  obtain ⟨params', result'⟩ := s'
  simp only [Signature.expand, Signature.Maps, bind_eq_ok_iff, mapM_eq_ok_iff, Ty.expand_eq_ok_iff]
  constructor
  · rintro ⟨params, hparams, result, hresult, h⟩
    cases h
    exact ⟨hparams, hresult⟩
  · rintro ⟨hparams, hresult⟩
    exact ⟨params', hparams, result', hresult, rfl⟩

/-! ## Entries that are kept and entries that are dropped -/

/-- The second list holds, in the order of the first, what its members are related to. A member that
is related to nothing is missing, and the third list has one report for it. -/
inductive Sifts {α β : Type} (R : α → β → Prop) (reports : α → Diagnostic → Prop) :
    List α → List β → List Diagnostic → Prop
  | nil : Sifts R reports [] [] []
  | keep {x y xs ys ds} : R x y → Sifts R reports xs ys ds → Sifts R reports (x :: xs) (y :: ys) ds
  | drop {x d xs ys ds} : (∀ y, ¬ R x y) → reports x d → Sifts R reports xs ys ds →
      Sifts R reports (x :: xs) ys (d :: ds)

namespace Sifts

variable {α β γ : Type} {R : α → β → Prop} {reports : α → Diagnostic → Prop} {xs : List α}
  {ys : List β} {ds : List Diagnostic}

theorem exists_of_mem (h : Sifts R reports xs ys ds) : ∀ y ∈ ys, ∃ x ∈ xs, R x y := by
  induction h with
  | nil => exact List.forall_mem_nil _
  | keep hxy _ ih =>
    refine List.forall_mem_cons.2 ⟨⟨_, List.mem_cons_self, hxy⟩, fun y hy => ?_⟩
    obtain ⟨x, hx, hxy⟩ := ih y hy
    exact ⟨x, List.mem_cons_of_mem _ hx, hxy⟩
  | drop _ _ _ ih =>
    intro y hy
    obtain ⟨x, hx, hxy⟩ := ih y hy
    exact ⟨x, List.mem_cons_of_mem _ hx, hxy⟩

/-- What entries are kept by is a part of what they were given by. -/
theorem sublist {f : β → α} (h : Sifts R reports xs ys ds) (hf : ∀ x y, R x y → f y = x) :
    (ys.map f).Sublist xs := by
  induction h with
  | nil => exact .slnil
  | keep hxy _ ih =>
    rw [List.map_cons, hf _ _ hxy]
    exact ih.cons_cons _
  | drop _ _ _ ih => exact ih.cons _

theorem of_map {g : γ → α} {zs : List γ}
    (h : Sifts (fun z => R (g z)) (fun z => reports (g z)) zs ys ds) :
    Sifts R reports (zs.map g) ys ds := by
  induction h with
  | nil => exact .nil
  | keep hxy _ ih => exact .keep hxy ih
  | drop hx hd _ ih => exact .drop hx hd ih

end Sifts

namespace Header

/-- The report, at the place of the import, of an entry of the header that does not expand. -/
def Reports (h : Header) (loc : Loc) (what : String) (d : Diagnostic) : Prop :=
  d.isError = true ∧ ∃ why, d = (Fault.headerEntry h.module what why).report loc

theorem sifts_keepExpanded {α β : Type} {R : α → β → Prop} {f : α → Except ExpandFault β}
    (hf : ∀ x y, f x = .ok y ↔ R x y) (h : Header) (loc : Loc) (what : α → String) :
    ∀ xs : List α, Sifts R (fun x => h.Reports loc (what x)) xs
      (keepExpanded h.module loc what f xs).value (keepExpanded h.module loc what f xs).notes
  | [] => .nil
  | x :: xs => by
    have ih := sifts_keepExpanded hf h loc what xs
    rw [keepExpanded]
    split
    · next y hy =>
      rw [Noted.value_bind, Noted.notes_bind, Noted.value_pure, Noted.notes_pure, List.append_nil]
      exact .keep ((hf x y).1 hy) ih
    · next why hwhy =>
      refine .drop (fun y hy => ?_) ⟨why.isError_code, why, rfl⟩ ih
      cases hwhy.symm.trans ((hf x y).2 hy)

end Header

/-! ## The entries of a header -/

/-- The entry has the name and what the synonym expands to. -/
def SynonymExpands (D : String → Ty → Prop) (name : String) (x : String × Ty) : Prop :=
  x.1 = name ∧ (Ty.syn name).Expands D x.2

/-- The second global is the first one with its type expanded. -/
def GlobalExpands (D : String → Ty → Prop) (x y : String × Ty) : Prop :=
  y.1 = x.1 ∧ x.2.Expands D y.2

/-- The second callable is the first one with every type of its signature expanded. -/
def HeaderFn.Expands (D : String → Ty → Prop) (f g : HeaderFn) : Prop :=
  g = { f with sig := g.sig } ∧ f.sig.Maps (Ty.Expands D) g.sig

section

variable (env : Synonyms)

theorem globalExpands_iff (x y : String × Ty) :
    (do return (x.1, ← x.2.expand env)) = Except.ok y ↔ GlobalExpands env.Defines x y := by
  rw [bind_eq_ok_iff]
  constructor
  · rintro ⟨u, hu, heq⟩
    cases heq
    exact ⟨rfl, Ty.expand_eq_ok_iff.1 hu⟩
  · rintro ⟨hname, hu⟩
    exact ⟨y.2, Ty.expand_eq_ok_iff.2 hu, by rw [← hname]; rfl⟩

theorem synonymExpands_iff (name : String) (y : String × Ty) :
    (do return (name, ← env.expansion name)) = Except.ok y ↔ SynonymExpands env.Defines name y := by
  rw [← Ty.expand_syn]
  exact globalExpands_iff env (name, .syn name) y

theorem HeaderFn.expands_iff (f g : HeaderFn) :
    (do return { f with sig := ← f.sig.expand env }) = Except.ok g ↔ f.Expands env.Defines g := by
  rw [bind_eq_ok_iff]
  constructor
  · rintro ⟨sig, hsig, heq⟩
    cases heq
    exact ⟨rfl, Signature.expand_eq_ok_iff.1 hsig⟩
  · rintro ⟨hg, hsig⟩
    exact ⟨g.sig, Signature.expand_eq_ok_iff.2 hsig, by rw [hg]; rfl⟩

end

theorem Signature.Maps.expanded {D : String → Ty → Prop} {s s' : Signature}
    (h : s.Maps (Ty.Expands D) s') :
    (∀ t ∈ s'.params, t.Expanded) ∧ s'.result.Expanded := by
  obtain ⟨hparams, hresult⟩ := h
  refine ⟨?_, hresult.expanded⟩
  generalize s.params = ps, s'.params = ps' at hparams
  induction hparams with
  | nil => exact List.forall_mem_nil _
  | cons ht _ ih => exact List.forall_mem_cons.2 ⟨ht.expanded, ih⟩

namespace Header

/-- The second header is what is left of the first one, and the reports are about the rest of it:
the distinct names of its synonyms, its globals and its callables. -/
structure Sifted (h : Header) (builtins : ExternalTable) (loc : Loc) (n : Header)
    (synonymNotes globalNotes functionNotes : List Diagnostic) : Prop where
  module : n.module = h.module
  synonyms : Sifts (SynonymExpands (h.Defines builtins))
    (fun name => h.Reports loc s!"synonym `{name}`")
    (h.synonyms.map Prod.fst).eraseDups n.synonyms synonymNotes
  globals : Sifts (GlobalExpands (h.Defines builtins)) (fun x => h.Reports loc s!"global `{x.1}`")
    h.globals n.globals globalNotes
  functions : Sifts (HeaderFn.Expands (h.Defines builtins))
    (fun f => h.Reports loc s!"{f.kind.describe} `{f.name}`") h.functions n.functions functionNotes

theorem exists_sifted (h : Header) (builtins : ExternalTable) (loc : Loc) :
    ∃ n ss gs fs, h.normal builtins loc = ⟨n, ss ++ gs ++ fs⟩ ∧
      h.Sifted builtins loc n ss gs fs := by
  have hdefines := h.defines_synonymDefs builtins
  have hsynonyms :=
    sifts_keepExpanded (fun x => synonymExpands_iff (h.synonymDefs builtins) x.1) h loc
    (fun x : String × Ty => s!"synonym `{x.1}`") (latest h.synonyms)
  have hglobals := sifts_keepExpanded (globalExpands_iff (h.synonymDefs builtins)) h loc
    (fun x => s!"global `{x.1}`") h.globals
  have hfunctions := sifts_keepExpanded (HeaderFn.expands_iff (h.synonymDefs builtins)) h loc
    (fun f => s!"{f.kind.describe} `{f.name}`") h.functions
  rw [hdefines] at hsynonyms hglobals hfunctions
  refine ⟨_, _, _, _, Noted.ext rfl ?_, rfl, map_fst_latest h.synonyms ▸ hsynonyms.of_map,
    hglobals, hfunctions⟩
  simp only [normal, Noted.notes_bind, Noted.notes_pure, List.append_nil, List.append_assoc]

namespace Sifted

variable {h n : Header} {builtins : ExternalTable} {loc : Loc} {ss gs fs : List Diagnostic}

theorem expanded (hn : h.Sifted builtins loc n ss gs fs) : n.Expanded where
  names := by
    have hnodup := nodup_latest h.synonyms
    rw [map_fst_latest] at hnodup
    exact hnodup.sublist (hn.synonyms.sublist fun _ _ hxy => hxy.1)
  synonyms x hx := by
    obtain ⟨_, -, hy⟩ := hn.synonyms.exists_of_mem x hx
    exact hy.2.expanded
  globals x hx := by
    obtain ⟨_, -, hy⟩ := hn.globals.exists_of_mem x hx
    exact hy.2.expanded
  functions f hf := by
    obtain ⟨_, -, hg⟩ := hn.functions.exists_of_mem f hf
    exact hg.2.expanded

end Sifted

end Header

/-- Normalizing a header is a projection. It keeps, in their order, the synonyms, globals and
callables that have an expansion, as what they expand to. It reports one error for each that has
none, at the import: for a synonym one for its name. No type that is kept has a synonym in it.
Normalizing the result changes nothing and reports nothing, with whatever built-ins. -/
theorem Header.normal_projects (h : Header) (builtins : ExternalTable) (loc : Loc) :
    ∃ n ss gs fs, h.normal builtins loc = ⟨n, ss ++ gs ++ fs⟩ ∧ h.Sifted builtins loc n ss gs fs ∧
      n.Expanded ∧ ∀ builtins' loc', n.normal builtins' loc' = pure n := by
  obtain ⟨n, ss, gs, fs, hnormal, hn⟩ := h.exists_sifted builtins loc
  exact ⟨n, ss, gs, fs, hnormal, hn, hn.expanded, hn.expanded.normal_eq⟩

end SplFrontend
