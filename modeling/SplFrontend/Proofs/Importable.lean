import SplFrontend.Proofs.Exports

/-!
# Resolved modules can be imported

Importing a resolved module as a whole reports nothing and brings each of its globals, synonyms and
overloads once, in the order of its table, and the built-ins. The header is read back and its types
need no expansion, no name is taken twice, no overload is known before, and all infix operators of
one name agree on their fixity, the built-in ones included.
-/

namespace SplFrontend

/-! ## Headers that are normal already -/

theorem keepExpanded_of_ok {α β : Type} (module : String) (loc : Loc) (what : α → String)
    {f : α → Except ExpandFault β} {g : α → β} : ∀ {xs : List α}, (∀ x ∈ xs, f x = .ok (g x)) →
    keepExpanded module loc what f xs = pure (xs.map g)
  | [], _ => rfl
  | x :: xs, h => by
    obtain ⟨hx, hxs⟩ := List.forall_mem_cons.1 h
    rw [keepExpanded, hx, keepExpanded_of_ok module loc what hxs]
    rfl

theorem latest_of_nodup {xs : List (String × Ty)} (h : (xs.map Prod.fst).Nodup) :
    latest xs = xs := by
  -- What is kept so far and what is still to come are distinct.
  have hfold : ∀ (xs kept : List (String × Ty)), ((kept ++ xs).map Prod.fst).Nodup →
      xs.foldl (fun kept x =>
        if kept.any (·.1 = x.1) then kept.map fun e => if e.1 = x.1 then (x.1, x.2) else e
        else kept ++ [(x.1, x.2)]) kept = kept ++ xs := by
    intro xs
    induction xs with
    | nil => intro kept _; simp
    | cons x xs ih =>
      intro kept hnodup
      have hnew : kept.any (·.1 = x.1) = false := by
        rw [List.any_eq_false]
        intro e he heq
        rw [List.map_append, List.nodup_append] at hnodup
        exact hnodup.2.2 e.1 (List.mem_map_of_mem he) x.1 List.mem_cons_self (by simpa using heq)
      rw [List.foldl_cons]
      simp only [hnew, Bool.false_eq_true, if_false]
      rw [ih (kept ++ [x]) (by simpa using hnodup), List.append_assoc]
      rfl
  exact hfold xs [] h

theorem Signature.expand_of_expanded (env : Synonyms) {s : Signature}
    (hparams : ∀ t ∈ s.params, t.Expanded) (hresult : s.result.Expanded) :
    s.expand env = .ok s := by
  have hmap : s.params.mapM (Ty.expand env) = .ok s.params := by
    have h := mapM_map_eq_ok (g := id) s.params fun t ht => Ty.expand_of_expanded (hparams t ht) env
    rwa [List.map_id] at h
  rw [Signature.expand, hmap, Ty.expand_of_expanded hresult]
  rfl

/-- No synonym is left in the types of the header, and none is defined twice. -/
structure Header.Expanded (h : Header) : Prop where
  names : (h.synonyms.map Prod.fst).Nodup
  synonyms : ∀ x ∈ h.synonyms, x.2.Expanded
  globals : ∀ x ∈ h.globals, x.2.Expanded
  functions : ∀ f ∈ h.functions, (∀ t ∈ f.sig.params, t.Expanded) ∧ f.sig.result.Expanded

/-- A header without synonyms in its types is normal. -/
theorem Header.Expanded.normal_eq {h : Header} (hh : h.Expanded)
    (builtins : ExternalTable) (loc : Loc) :
    h.normal builtins loc = pure h := by
  have hlatest := latest_of_nodup hh.names
  unfold Header.normal
  rw [hlatest]
  refine (Noted.bind_of_pure (keepExpanded_of_ok (g := id) _ _ _ ?_) _).trans ?_
  · intro x hx
    have hlookup : (h.synonymDefs builtins).lookup x.1 = some ⟨x.2, true⟩ := by
      have hdefs := lookup_map (fun ty => (⟨ty, true⟩ : SynonymDef)) x.1 (l := h.synonyms)
      rw [lookup_of_mem hh.names hx, Option.map_some] at hdefs
      rw [Header.synonymDefs, hlatest, List.lookup_append, hdefs, Option.some_or]
    simp only [Annotations.expansion_of_expanded hlookup (hh.synonyms x hx)]
    rfl
  · refine (Noted.bind_of_pure (keepExpanded_of_ok (g := id) _ _ _ ?_) _).trans ?_
    · intro x hx
      simp only [Ty.expand_of_expanded (hh.globals x hx)]
      rfl
    · refine (Noted.bind_of_pure (keepExpanded_of_ok (g := id) _ _ _ ?_) _).trans ?_
      · intro f hf
        obtain ⟨hparams, hresult⟩ := hh.functions f hf
        simp only [Signature.expand_of_expanded _ hparams hresult]
        rfl
      · simp only [List.map_id]

namespace Exportable

variable {φ : String → Fixity} {module : String} {e : ExternalTable}

theorem expanded_header (h : Exportable φ module e) : (e.header module).Expanded := by
  refine ⟨by simpa [ExternalTable.header, Function.comp_def] using h.synonyms, ?_, ?_, ?_⟩
  · intro x hx
    obtain ⟨y, hy, rfl⟩ := List.mem_map.1 hx
    exact (h.names y (List.mem_append_right _ hy)).2
  · intro x hx
    obtain ⟨y, hy, rfl⟩ := List.mem_map.1 hx
    exact (h.names y (List.mem_append_left _ hy)).2
  · intro f hf
    obtain ⟨⟨kind, name, o⟩, hx, rfl⟩ := List.mem_map.1 hf
    obtain ⟨set, hset, ho⟩ := Callables.mem_entries.1 hx
    have hfits := h.overloads _ hset o ho
    exact ⟨hfits.params, hfits.result⟩

end Exportable

/-! ## Merging without clashes -/

theorem insertExternal_of_not_mem {es : List (String × ExternalEntry)} {name : String}
    (h : name ∉ es.map Prod.fst) (x : ExternalEntry) :
    insertExternal es name x = .ok (es ++ [(name, x)]) := by
  rw [insertExternal, lookup_eq_none_iff_not_mem.2 h]

namespace Imports.Merge

variable {φ : String → Fixity}

theorem addGlobals_of_nodup (loc : Loc) (module : String) : ∀ (gs : List (String × Ty)) (m : Merge),
    (m.table.globals.map Prod.fst ++ gs.map Prod.fst).Nodup →
    gs.foldlM (fun m (name, ty) => m.addGlobal loc name ⟨module, name, ty⟩) m =
      pure ⟨{ m.table with
        globals := m.table.globals ++ gs.map fun x => (x.1, ⟨module, x.1, x.2⟩) }, m.origins⟩
  | [], m, _ => by simp
  | (name, ty) :: gs, m, h => by
    have hnew : name ∉ m.table.globals.map Prod.fst := by
      intro hmem
      rw [List.nodup_append] at h
      exact h.2.2 name hmem name List.mem_cons_self rfl
    have hone : m.addGlobal loc name ⟨module, name, ty⟩ =
        pure ⟨{ m.table with globals := m.table.globals ++ [(name, ⟨module, name, ty⟩)] },
          m.origins⟩ := by
      rw [addGlobal, ExternalTable.insertGlobal, insertExternal_of_not_mem hnew]
      rfl
    rw [List.foldlM_cons]
    refine (Noted.bind_of_pure hone _).trans ?_
    rw [addGlobals_of_nodup loc module gs _ (by simpa using h)]
    simp

theorem addSynonyms_of_nodup (loc : Loc) (module : String) :
    ∀ (ss : List (String × Ty)) (m : Merge),
    (m.table.synonyms.map Prod.fst ++ ss.map Prod.fst).Nodup →
    ∃ origins, ss.foldlM (fun m (name, ty) => m.addSynonym loc name ⟨module, name, ty⟩) m =
      pure ⟨{ m.table with
        synonyms := m.table.synonyms ++ ss.map fun x => (x.1, ⟨module, x.1, x.2⟩) }, origins⟩
  | [], m, _ => ⟨m.origins, by simp⟩
  | (name, ty) :: ss, m, h => by
    have hnew : name ∉ m.table.synonyms.map Prod.fst := by
      intro hmem
      rw [List.nodup_append] at h
      exact h.2.2 name hmem name List.mem_cons_self rfl
    have hone : ∃ origins, m.addSynonym loc name ⟨module, name, ty⟩ =
        pure ⟨{ m.table with synonyms := m.table.synonyms ++ [(name, ⟨module, name, ty⟩)] },
          origins⟩ := by
      rw [addSynonym, ExternalTable.insertSynonym, insertExternal_of_not_mem hnew, Except.map]
      simp only [enter]
      split
      · exact ⟨_, rfl⟩
      · exact ⟨_, rfl⟩
    obtain ⟨origins, hone⟩ := hone
    obtain ⟨origins', hrest⟩ := addSynonyms_of_nodup loc module ss
      ⟨{ m.table with synonyms := m.table.synonyms ++ [(name, ⟨module, name, ty⟩)] }, origins⟩
        (by simpa using h)
    refine ⟨origins', ?_⟩
    rw [List.foldlM_cons]
    refine (Noted.bind_of_pure hone _).trans ?_
    rw [hrest]
    simp

theorem addBuiltinSynonyms_of_nodup : ∀ (ss : List (String × ExternalEntry)) (m : Merge),
    (m.table.synonyms.map Prod.fst ++ ss.map Prod.fst).Nodup →
    m.addBuiltinSynonyms ss = pure ⟨{ m.table with synonyms := m.table.synonyms ++ ss }, m.origins⟩
  | [], m, _ => by simp [addBuiltinSynonyms]
  | (name, x) :: ss, m, h => by
    have hnew : name ∉ m.table.synonyms.map Prod.fst := by
      intro hmem
      rw [List.nodup_append] at h
      exact h.2.2 name hmem name List.mem_cons_self rfl
    have hone : m.addBuiltinSynonym name x =
        pure ⟨{ m.table with synonyms := m.table.synonyms ++ [(name, x)] }, m.origins⟩ := by
      rw [addBuiltinSynonym, ExternalTable.insertSynonym, insertExternal_of_not_mem hnew]
      rfl
    rw [addBuiltinSynonyms_cons]
    refine (Noted.bind_of_pure hone _).trans ?_
    rw [addBuiltinSynonyms_of_nodup ss _ (by simpa using h)]
    simp

/-- Two overloads of one name that are not the same. -/
def Apart (e e' : CallKind × String × ExternalOverload) : Prop :=
  (e.1, e.2.1) = (e'.1, e'.2.1) → ExternalTable.sameOverload e.2.2 e'.2.2 = false

/-- The overloads can join the table one by one: none is known, and `φ` gives all fixities. -/
structure Joins (φ : String → Fixity) (t : ExternalTable)
    (es : List (CallKind × String × ExternalOverload)) :
    Prop where
  apart : es.Pairwise Apart
  new : ∀ e ∈ es, ∀ o ∈ t.overloads e.1 e.2.1, ExternalTable.sameOverload o e.2.2 = false
  fixity : ∀ e ∈ es, ∀ x, e.2.2.fixity = some x → x = φ e.2.1
  held : ∀ name x, t.fixityOf name = some x → x = φ name

namespace Joins

variable {t : ExternalTable} {kind : CallKind} {name : String} {o : ExternalOverload}
  {es : List (CallKind × String × ExternalOverload)}

theorem addOverload_eq (h : Joins φ t ((kind, name, o) :: es)) :
    t.addOverload kind name o = { t with functions := t.functions.add kind name o } := by
  have hnone : t.hasOverload kind name o = false := by
    rw [ExternalTable.hasOverload, List.any_eq_false]
    intro p hp
    rw [h.new _ List.mem_cons_self p hp]
    exact Bool.false_ne_true
  rw [ExternalTable.addOverload, if_neg (by simp [hnone])]

theorem otherFixity_eq {m : Merge} (h : Joins φ m.table ((kind, name, o) :: es)) {x : Fixity}
    (hx : o.fixity = some x) : m.otherFixity name x = none := by
  have hown := h.fixity _ List.mem_cons_self x hx
  rw [otherFixity, Option.filter_eq_none_iff]
  intro y hy
  simp [h.held name y hy, hown]

theorem tail (h : Joins φ t ((kind, name, o) :: es)) :
    Joins φ { t with functions := t.functions.add kind name o } es := by
  obtain ⟨hhead, htail⟩ := List.pairwise_cons.1 h.apart
  refine ⟨htail, ?_, fun e he => h.fixity e (List.mem_cons_of_mem _ he), ?_⟩
  · intro e he p hp
    have hget := Callables.get_add t.functions kind name o (e.1, e.2.1)
    rw [ExternalTable.overloads, hget] at hp
    by_cases hkey : (e.1, e.2.1) = (kind, name)
    · rw [if_pos hkey] at hp
      rcases List.mem_append.1 hp with hp | hp
      · refine h.new e (List.mem_cons_of_mem _ he) p ?_
        obtain ⟨k, n, q⟩ := e
        cases hkey
        exact hp
      · rw [List.mem_singleton.1 hp]
        exact hhead e he hkey.symm
    · rw [if_neg hkey] at hp
      exact h.new e (List.mem_cons_of_mem _ he) p hp
  · intro n x hx
    rw [ExternalTable.fixityOf_add] at hx
    split at hx
    · next hn =>
      rcases Option.or_eq_some_iff.1 hx with hx | ⟨-, hx⟩
      · exact h.held n x hx
      · rw [← hn.2]
        exact h.fixity _ List.mem_cons_self x hx
    · exact h.held n x hx

end Joins

theorem addBuiltinOverloads_of_joins :
    ∀ {es : List (CallKind × String × ExternalOverload)} {m : Merge},
    Joins φ m.table es → m.addBuiltinOverloads es =
      pure ⟨{ m.table with functions := m.table.functions.addAll es }, m.origins⟩
  | [], _, _ => rfl
  | (kind, name, o) :: es, m, h => by
    have hone : m.addBuiltinOverload kind name o =
        pure ⟨{ m.table with functions := m.table.functions.add kind name o }, m.origins⟩ := by
      rw [addBuiltinOverload, h.addOverload_eq]
      cases hx : o.fixity with
      | none => rfl
      | some x =>
        rw [Option.bind_some, h.otherFixity_eq hx]
        rfl
    rw [addBuiltinOverloads_cons]
    refine (Noted.bind_of_pure hone _).trans ?_
    exact addBuiltinOverloads_of_joins h.tail

/-- The entry that a callable of a header makes. -/
def entryOf (module : String) (f : HeaderFn) : CallKind × String × ExternalOverload :=
  (f.kind, f.name, ⟨f.sig, module, f.name, f.fixity, f.constant⟩)

theorem addFunction_of_joins (loc : Loc) {module : String} {f : HeaderFn}
    {es : List (CallKind × String × ExternalOverload)} {m : Merge}
    (h : Joins φ m.table (entryOf module f :: es)) :
    ∃ origins, m.addFunction loc module f.name f =
      pure ⟨{ m.table with
        functions := m.table.functions.add f.kind f.name (entryOf module f).2.2 }, origins⟩ := by
  obtain ⟨kind, name, fixity, sig, constant⟩ := f
  have hadd := h.addOverload_eq
  have hother : (fixity.bind fun x => (m.otherFixity name x).map fun o => (x, o)) = none := by
    cases hx : fixity with
    | none => rfl
    | some x =>
      have hnone := Joins.otherFixity_eq h hx
      rw [Option.bind_some, hnone]
      rfl
  have henter : (m.enter name loc).table = m.table := by
    unfold enter
    split <;> rfl
  simp only [addFunction, hother]
  simp only [entryOf] at hadd ⊢
  cases kind with
  | function => exact ⟨m.origins, by rw [hadd]⟩
  | prefixOp => exact ⟨m.origins, by rw [hadd]⟩
  | infixOp => exact ⟨(m.enter name loc).origins, by rw [henter, hadd]⟩

theorem addFunctions_of_joins (loc : Loc) (module : String) : ∀ {fs : List HeaderFn} {m : Merge},
    Joins φ m.table (fs.map (entryOf module)) →
    ∃ origins, fs.foldlM (fun m f => m.addFunction loc module f.name f) m =
      pure ⟨{ m.table with functions := m.table.functions.addAll (fs.map (entryOf module)) },
        origins⟩
  | [], m, _ => ⟨m.origins, rfl⟩
  | f :: fs, m, h => by
    obtain ⟨origins, hone⟩ := addFunction_of_joins loc h
    obtain ⟨origins', hrest⟩ := addFunctions_of_joins loc module (m := ⟨_, origins⟩) (Joins.tail h)
    refine ⟨origins', ?_⟩
    rw [List.foldlM_cons]
    exact (Noted.bind_of_pure hone _).trans hrest

end Imports.Merge

/-! ## The whole of a module -/

namespace Builtin

theorem apart_entries : table.functions.entries.Pairwise Imports.Merge.Apart := by
  have hsymm {e e' : CallKind × String × ExternalOverload} (h : Imports.Merge.Apart e e') :
      Imports.Merge.Apart e' e := by
    intro hkey
    rw [← h hkey.symm]
    simp only [ExternalTable.sameOverload, eq_comm]
  rw [entries_perm.pairwise_iff hsymm, List.pairwise_map]
  refine (List.pairwise_map.1 nodup_keys).imp fun {c d} hne hkey => ?_
  -- Callables of one name differ in their signatures.
  rw [Bool.eq_false_iff]
  intro hsame
  simp only [ExternalTable.sameOverload, Bool.and_eq_true, decide_eq_true_eq] at hsame
  obtain ⟨hkind, hname⟩ := Prod.mk.inj hkey
  exact hne (Prod.ext hkind (Prod.ext hname hsame.1.1))

theorem module_entries : ∀ e ∈ table.functions.entries, e.2.2.module = module := by
  intro e he
  obtain ⟨c, -, rfl⟩ := mem_entries.1 he
  rfl

theorem infix_of_fixity : ∀ e ∈ table.functions.entries, e.2.2.fixity ≠ none → e.1 = .infixOp := by
  intro e he hfixity
  obtain ⟨c, hc, rfl⟩ := mem_entries.1 he
  exact Decidable.not_not.1 fun hkind => hfixity ((fixity_eq_none_iff c hc).2 hkind)

theorem nodup_synonyms : (table.synonyms.map Prod.fst).Nodup := by
  rw [synonyms_table]
  exact List.pairwise_singleton _ _

end Builtin

/-- What a module that imports the table as a whole can use: the table, and the built-ins behind it.
The overloads of a name that is in both stand together. -/
def ExternalTable.withBuiltins (e : ExternalTable) : ExternalTable where
  globals := e.globals
  synonyms := e.synonyms ++ Builtin.table.synonyms
  functions := e.functions.joined Builtin.table.functions

namespace Exportable

open Imports.Merge (Apart Joins entryOf)

variable {φ : String → Fixity} {module : String} {e : ExternalTable}

theorem fits_of_mem_entries (h : Exportable φ module e) {x : CallKind × String × ExternalOverload}
    (hx : x ∈ e.functions.entries) : x.2.2.Fits φ module (x.1, x.2.1) := by
  obtain ⟨set, hset, ho⟩ := Callables.mem_entries.1 hx
  exact h.overloads _ hset _ ho

theorem map_entryOf (h : Exportable φ module e) :
    (e.header module).functions.map (entryOf module) = e.functions.entries := by
  rw [ExternalTable.header, List.map_map]
  refine (List.map_congr_left fun x hx => ?_).trans (List.map_id _)
  obtain ⟨kind, name, o⟩ := x
  obtain ⟨hmodule, hexported, -⟩ := (h.fits_of_mem_entries hx).own
  obtain ⟨sig, m, exported, fixity, constant⟩ := o
  cases hmodule
  cases hexported
  rfl

theorem apart_entries (h : Exportable φ module e) : e.functions.entries.Pairwise Apart := by
  refine List.pairwise_flatMap.2 ⟨?_, ?_⟩
  · intro x hx
    refine List.pairwise_map.2 ((List.pairwise_map.1 (h.sigs x hx)).imp ?_)
    intro o p hsig _
    simp [ExternalTable.sameOverload, hsig]
  · refine (List.pairwise_map.1 h.keyed.nodup).imp ?_
    intro x y hkey a ha b hb hsame
    obtain ⟨o, -, rfl⟩ := List.mem_map.1 ha
    obtain ⟨p, -, rfl⟩ := List.mem_map.1 hb
    exact absurd hsame hkey

theorem joins (h : Exportable φ module e) {t : ExternalTable} (ht : t.functions = []) :
    Joins φ t e.functions.entries := by
  refine ⟨h.apart_entries, ?_, ?_, ?_⟩
  · intro x _ o ho
    rw [ExternalTable.overloads, ht] at ho
    cases ho
  · intro x hx y hy
    have hfixity := (h.fits_of_mem_entries hx).fixity
    rw [hy] at hfixity
    split at hfixity
    · exact Option.some.inj hfixity
    · cases hfixity
  · intro name x hx
    rw [ExternalTable.fixityOf, ExternalTable.overloads, ht] at hx
    cases hx

/-- The built-ins can join what a module exports if they agree on the fixities. -/
theorem joins_builtins (h : Exportable φ module e) (hm : module ≠ Builtin.module)
    (hφ : ∀ b ∈ Builtin.table.functions.entries, ∀ x, b.2.2.fixity = some x → x = φ b.2.1)
    {t : ExternalTable} (ht : t.functions = e.functions) :
    Joins φ t Builtin.table.functions.entries := by
  refine ⟨Builtin.apart_entries, ?_, hφ, ?_⟩
  · intro b hb o ho
    have hmem : (b.1, b.2.1, o) ∈ e.functions.entries :=
      ht ▸ ExternalTable.mem_entries_of_overloads ho
    have hmodule := (h.fits_of_mem_entries hmem).own.1
    have hne : o.module ≠ b.2.2.module := by
      rw [hmodule, Builtin.module_entries b hb]
      exact hm
    simp [ExternalTable.sameOverload, hne]
  · intro name x hx
    obtain ⟨o, ho, hox⟩ := List.exists_of_findSome?_eq_some hx
    have hmem : (.infixOp, name, o) ∈ e.functions.entries :=
      ht ▸ ExternalTable.mem_entries_of_overloads ho
    have hfixity := (h.fits_of_mem_entries hmem).fixity
    rw [hox, if_pos rfl] at hfixity
    exact Option.some.inj hfixity

theorem addAll_header (h : Exportable φ module e) (loc : Loc) :
    ∃ origins, Imports.Merge.addAll {} loc (e.header module) = pure ⟨e, origins⟩ := by
  have hglobals :
      (e.header module).globals.map (fun x => (x.1, ⟨module, x.1, x.2⟩)) = e.globals := by
    rw [ExternalTable.header, List.map_map]
    refine (List.map_congr_left fun x hx => ?_).trans (List.map_id _)
    exact Prod.ext rfl (h.names x (List.mem_append_left _ hx)).1.symm
  have hsynonyms :
      (e.header module).synonyms.map (fun x => (x.1, ⟨module, x.1, x.2⟩)) = e.synonyms := by
    rw [ExternalTable.header, List.map_map]
    refine (List.map_congr_left fun x hx => ?_).trans (List.map_id _)
    exact Prod.ext rfl (h.names x (List.mem_append_right _ hx)).1.symm
  have hfirst := Imports.Merge.addGlobals_of_nodup loc module (e.header module).globals {}
    (by simpa [ExternalTable.header, Function.comp_def] using h.globals)
  obtain ⟨origins, hsecond⟩ :=
    Imports.Merge.addSynonyms_of_nodup loc module (e.header module).synonyms
    ⟨{ globals := e.globals }, []⟩
      (by simpa [ExternalTable.header, Function.comp_def] using h.synonyms)
  have hjoins : Joins φ { globals := e.globals, synonyms := e.synonyms }
      ((e.header module).functions.map (entryOf module)) := by
    rw [h.map_entryOf]
    exact h.joins rfl
  obtain ⟨origins', hthird⟩ := Imports.Merge.addFunctions_of_joins loc module
    (m := ⟨{ globals := e.globals, synonyms := e.synonyms }, origins⟩) hjoins
  simp only [hglobals, List.nil_append] at hfirst
  simp only [hsynonyms, List.nil_append] at hsecond
  rw [h.map_entryOf, Callables.addAll_nil_entries h.keyed] at hthird
  refine ⟨origins', ?_⟩
  unfold Imports.Merge.addAll
  refine (Noted.bind_of_pure hfirst _).trans ?_
  refine (Noted.bind_of_pure hsecond _).trans ?_
  exact hthird

theorem addBuiltins_eq (h : Exportable φ module e) (hm : module ≠ Builtin.module)
    (hφ : ∀ b ∈ Builtin.table.functions.entries, ∀ x, b.2.2.fixity = some x → x = φ b.2.1)
    (hs : ∀ x ∈ e.synonyms, x.1 ∉ Builtin.table.synonyms.map Prod.fst)
    (origins : List (String × Loc)) :
    Imports.Merge.addBuiltins ⟨e, origins⟩ Builtin.table = pure ⟨e.withBuiltins, origins⟩ := by
  have hnodup : (e.synonyms.map Prod.fst ++ Builtin.table.synonyms.map Prod.fst).Nodup := by
    refine List.nodup_append.2 ⟨h.synonyms, Builtin.nodup_synonyms, ?_⟩
    intro a ha b hb hab
    obtain ⟨x, hx, rfl⟩ := List.mem_map.1 ha
    exact hs x hx (hab ▸ hb)
  rw [Imports.Merge.addBuiltins_eq]
  refine (Noted.bind_of_pure (Imports.Merge.addBuiltinSynonyms_of_nodup _ _ hnodup) _).trans ?_
  rw [Imports.Merge.addBuiltinOverloads_of_joins (h.joins_builtins hm hφ rfl)]
  simp only [Callables.addAll_entries h.keyed.nodup Builtin.keyed_functions]
  rfl

/-- Importing the whole of an exportable table gives the table and the built-ins. -/
theorem merge_eq (h : Exportable φ module e) (hm : module ≠ Builtin.module)
    (hφ : ∀ b ∈ Builtin.table.functions.entries, ∀ x, b.2.2.fixity = some x → x = φ b.2.1)
    (hs : ∀ x ∈ e.synonyms, x.1 ∉ Builtin.table.synonyms.map Prod.fst) {texts : HeaderTexts}
    (ht : texts.lookup module = some (e.header module).encode.toJson.render) (loc : Loc) :
    Imports.merge texts Builtin.table [⟨module, .all, loc⟩] = pure ⟨e.withBuiltins, [module]⟩ := by
  have hheader : Imports.header texts Builtin.table module loc = pure (some (e.header module)) := by
    rw [Imports.header, ht]
    have hself : (e.header module).module = module := rfl
    simp only [Header.ofText_render h.regular_header]
    rw [if_pos hself, h.expanded_header.normal_eq]
    rfl
  obtain ⟨origins, hall⟩ := h.addAll_header loc
  have hmodule :
      Imports.mergeModule texts Builtin.table [⟨module, .all, loc⟩] {} module =
        pure ⟨e, origins⟩ := by
    have hlines :
        [(⟨module, .all, loc⟩ : Import)].filter (·.module = module) = [⟨module, .all, loc⟩] := by
      simp
    unfold Imports.mergeModule
    rw [hlines]
    refine (Noted.bind_of_pure hheader _).trans ?_
    exact (Noted.bind_of_pure hall _).trans rfl
  have hbuiltins := h.addBuiltins_eq hm hφ hs origins
  unfold Imports.merge
  refine (Noted.bind_of_pure (?_ : _ = pure ⟨e, origins⟩) _).trans ?_
  · exact (Noted.bind_of_pure hmodule _).trans rfl
  · exact (Noted.bind_of_pure hbuiltins _).trans rfl

end Exportable

/-- What an accepted program exports agrees with the built-ins. -/
theorem exportable_stages {p : Program} {headers : HeaderTexts} {o : Options}
    (h : ∀ d ∈ (stages p headers o).notes, NotError d) :
    (stages p headers o).tagged.value.2.module = o.module ∧
      ∃ φ, Exportable φ o.module (stages p headers o).tagged.value.2.exports ∧
        (∀ b ∈ Builtin.table.functions.entries, ∀ x, b.2.2.fixity = some x → x = φ b.2.1) ∧
        ∀ x ∈ (stages p headers o).tagged.value.2.exports.synonyms,
          x.1 ∉ Builtin.table.synonyms.map Prod.fst := by
  obtain ⟨himported, -, htagged, -⟩ := Stages.forall_notes.1 h
  rw [imported_stages] at himported
  have haccepted := accepted_declared h
  have hexternals : (stages p headers o).externals =
      (Imports.merge headers Builtin.table p.imports).value.externals := rfl
  obtain ⟨hfixities, hsynonyms⟩ := Imports.merge_builtins Builtin.sound himported
  obtain ⟨hmodule, φ, hexportable, hφ, hforeign⟩ := haccepted.exportable
  rw [tagged_stages] at htagged
  obtain ⟨hsame, hexports⟩ := (haccepted.tags htagged).exports_eq
  rw [tagged_stages, hsame, hexports]
  refine ⟨hmodule, φ, hexportable, ?_, ?_⟩
  · intro b hb x hx
    refine (hφ b.2.1 x (hexternals ▸ hfixities b hb ?_ x hx)).symm
    exact Builtin.infix_of_fixity b hb (by rw [hx]; nofun)
  · intro x hx hmem
    obtain ⟨y, hy, hname⟩ := List.mem_map.1 hmem
    exact hsynonyms y hy (hname ▸ hexternals ▸ hforeign x hx)

namespace Resolved

/-- A module that was resolved under a name of its own can be imported without loss. Its header is
read back, and a program whose only import is the whole of it sees its globals, synonyms and
overloads in the order of its table and the built-ins behind them, and the imports report
nothing. -/
theorem merge_headerText_of_compile {text : String} {headers : HeaderTexts} {o : Options}
    {r : Resolved} (h : compile text headers o = .ok r) (hm : o.module ≠ Builtin.module) :
    r.table.module = o.module ∧
      Header.ofText r.table.headerText = .ok (r.table.exports.header o.module) ∧
      ∀ (p : Program) (texts : HeaderTexts) (loc : Loc), p.imports = [⟨o.module, .all, loc⟩] →
        texts.lookup o.module = some r.table.headerText →
        (Imports.merge texts Builtin.table p.imports).notes = [] ∧
          (Imports.merge texts Builtin.table p.imports).value.externals =
            r.table.exports.withBuiltins := by
  obtain ⟨p, hp, hresolve⟩ := bind_eq_ok_iff.1 h
  obtain ⟨hnotes, rfl⟩ := resolve_eq_ok_iff.1 hresolve
  obtain ⟨hmodule, φ, hexportable, hφ, hs⟩ := exportable_stages fun d hd => (hnotes d hd).1
  simp only [Stages.resolved]
  generalize (stages p headers o).tagged.value.2 = t at *
  have htext : t.headerText = (t.exports.header o.module).encode.toJson.render := by
    rw [ModuleTable.headerText, t.document_eq, hmodule]
  refine ⟨hmodule, by rw [htext, Header.ofText_render hexportable.regular_header], ?_⟩
  intro p' texts loc himports hlookup
  rw [htext] at hlookup
  rw [himports, hexportable.merge_eq hm hφ hs hlookup]
  exact ⟨rfl, rfl⟩

/-- A module with a synonym, a global, another overload of a built-in operator and a name with two
overloads. -/
theorem merge_headerText_of_compile_sample :
    ∃ r,
      compile
        ("type P = (Int, [Bool]); P g = (1, []); " ++
        "infixl 6 + (a, b) :: P P -> P \x7b return a; \x7d" ++
        "f(x) :: P -> Int \x7b return x.fst; \x7d f(x) :: Int -> P \x7b return g + g; \x7d") []
          { module := "m" } =
          .ok r ∧
      (Imports.merge [("m", r.table.headerText)] Builtin.table [⟨"m", .all, .nowhere⟩]).notes = [] ∧
        (Imports.merge [("m", r.table.headerText)] Builtin.table
          [⟨"m", .all, .nowhere⟩]).value.externals =
          r.table.exports.withBuiltins := by
  refine exists_ok_of_isOk (by decide +kernel) ?_
  intro r h
  obtain ⟨-, -, hmerge⟩ := merge_headerText_of_compile h (by decide)
  have hlookup : [("m", r.table.headerText)].lookup "m" = some r.table.headerText := by simp
  have hall := hmerge ⟨[⟨"m", .all, .nowhere⟩], []⟩ _ .nowhere rfl hlookup
  dsimp only at hall
  exact hall

end Resolved

end SplFrontend
