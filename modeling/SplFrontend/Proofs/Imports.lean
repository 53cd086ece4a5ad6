import SplFrontend.Imports
import SplFrontend.Proofs.Callables
import SplFrontend.Proofs.Erasure
import SplFrontend.Proofs.Expansion
import SplFrontend.Proofs.Normal
import SplFrontend.Proofs.Noted

/-!
# Merged imports

Merging does not depend on where the import lines stand in the text: the same lines at other places
give the same external table and the same codes (`merge_unlocated`). Along the way the synonyms of
the table stay free of synonyms, since headers are expanded before they are used.
-/

namespace SplFrontend

open Noted (Alike)

/-! ## Headers -/

theorem keepExpanded_alike {α β : Type} (module : String) (loc loc' : Loc) (what : α → String)
    (f : α → Except ExpandFault β) : ∀ xs : List α,
    Alike (fun ys ys' => ys = ys' ∧ ∀ y ∈ ys, ∃ x ∈ xs, f x = .ok y)
      (keepExpanded module loc what f xs) (keepExpanded module loc' what f xs)
  | [] => .pure ⟨rfl, fun _ h => by cases h⟩
  | x :: xs => by
    have ih := keepExpanded_alike module loc loc' what f xs
    simp only [keepExpanded]
    cases hx : f x with
    | ok y =>
      refine ih.bind ?_
      rintro ys _ ⟨rfl, hys⟩
      refine .pure ⟨rfl, List.forall_mem_cons.2 ⟨⟨x, List.mem_cons_self, hx⟩, fun z hz => ?_⟩⟩
      obtain ⟨w, hw, hz⟩ := hys z hz
      exact ⟨w, List.mem_cons_of_mem _ hw, hz⟩
    | error why =>
      refine .note_bind rfl (ih.mono ?_)
      rintro ⟨heq, hys⟩
      refine ⟨heq, fun z hz => ?_⟩
      obtain ⟨w, hw, hz⟩ := hys z hz
      exact ⟨w, List.mem_cons_of_mem _ hw, hz⟩

/-- Every infix operator that the header lists has a fixity. -/
def Header.Fixed (h : Header) : Prop := ∀ f ∈ h.functions, f.kind = .infixOp → f.fixity ≠ none

theorem FnCode.fixed_of_decode {e : FnCode} {f : HeaderFn} (h : e.decode = .ok f) :
    f.kind = .infixOp → f.fixity ≠ none := by
  obtain ⟨kind, name, precedence, assoc, constant, code⟩ := e
  rw [FnCode.decode] at h
  split at h
  · cases h
  · next fixity hfixity =>
    split at h
    · cases h
    · split at h
      · cases h
        rintro rfl rfl
        cases precedence <;> cases assoc <;> cases hfixity
      · cases h

theorem Header.fixed_of_ofText {text : String} {h : Header} (ht : ofText text = .ok h) :
    h.Fixed := by
  rw [ofText] at ht
  split at ht
  · obtain ⟨globals, -, ht⟩ := bind_eq_ok_iff.1 ht
    obtain ⟨synonyms, -, ht⟩ := bind_eq_ok_iff.1 ht
    obtain ⟨functions, hfunctions, ht⟩ := bind_eq_ok_iff.1 ht
    cases ht
    intro f hf
    obtain ⟨e, -, he⟩ := exists_of_mem_mapM hfunctions hf
    exact FnCode.fixed_of_decode he
  · cases ht

/-- The synonyms that a header lists stand for types without synonyms, and its infix operators have
fixities. -/
structure Header.Sound (h : Header) : Prop where
  expanded : ∀ x ∈ h.synonyms, x.2.Expanded
  fixed : h.Fixed

theorem Header.normal_alike {h : Header} (hf : h.Fixed) (builtins : ExternalTable)
    (loc loc' : Loc) :
    Alike (fun g g' => g = g' ∧ g.Sound) (h.normal builtins loc) (h.normal builtins loc') := by
  refine (keepExpanded_alike ..).bind ?_
  rintro synonyms _ ⟨rfl, hsyn⟩
  refine (keepExpanded_alike ..).bind ?_
  rintro globals _ ⟨rfl, -⟩
  refine (keepExpanded_alike ..).bind ?_
  rintro functions _ ⟨rfl, hfn⟩
  refine .pure ⟨rfl, fun x hx => ?_, fun f hmem => ?_⟩
  · obtain ⟨y, -, hy⟩ := hsyn x hx
    obtain ⟨u, hu, heq⟩ := bind_eq_ok_iff.1 hy
    cases heq
    exact Synonyms.expanded_of_expansion hu
  · obtain ⟨g, hg, heq⟩ := hfn f hmem
    obtain ⟨sig, -, heq⟩ := bind_eq_ok_iff.1 heq
    cases heq
    exact hf g hg

/-- The synonyms of the table stand for types without synonyms, and its infix operators have
fixities. -/
structure ExternalTable.Sound (t : ExternalTable) : Prop where
  expanded : ∀ x ∈ t.synonyms, x.2.ty.Expanded
  fixed : ∀ e ∈ t.functions.entries, e.1 = .infixOp → e.2.2.fixity ≠ none

theorem ExternalTable.Sound.addOverload {t : ExternalTable} (h : t.Sound) {kind : CallKind}
    {o : ExternalOverload} (ho : kind = .infixOp → o.fixity ≠ none) (name : String) :
    (t.addOverload kind name o).Sound := by
  unfold ExternalTable.addOverload
  split
  · exact h
  · refine ⟨h.expanded, fun e he => ?_⟩
    rcases Callables.mem_entries_add he with he | rfl
    · exact h.fixed e he
    · exact ho

namespace Imports

/-! ## Steps of merging -/

namespace Merge

/-- Two states of merging that differ in places only, with a sound table. -/
structure Same (m m' : Merge) : Prop where
  table : m.table = m'.table
  origins : m.origins.map Prod.fst = m'.origins.map Prod.fst
  sound : m.table.Sound

variable {m m' : Merge} {loc loc' : Loc} {name : String}

theorem Same.isSome_origins (h : m.Same m') (name : String) :
    (m.origins.lookup name).isSome = (m'.origins.lookup name).isSome := by
  rw [Bool.eq_iff_iff, Option.isSome_iff_ne_none, Option.isSome_iff_ne_none, ne_eq, ne_eq,
    lookup_eq_none_iff_not_mem, lookup_eq_none_iff_not_mem, h.origins]

theorem Same.enter (h : m.Same m') : (m.enter name loc).Same (m'.enter name loc') := by
  unfold Merge.enter
  rw [h.isSome_origins]
  split
  · exact h
  · exact ⟨h.table, by simp [h.origins], h.sound⟩

theorem addGlobal_alike (h : m.Same m') (e : ExternalEntry) :
    Alike Same (m.addGlobal loc name e) (m'.addGlobal loc' name e) := by
  unfold addGlobal ExternalTable.insertGlobal
  rw [← h.table]
  cases insertExternal m.table.globals name e with
  | ok globals => exact .pure ⟨rfl, h.origins, h.sound.expanded, h.sound.fixed⟩
  | error held => exact .note_bind rfl (.pure h)

theorem expanded_of_insert {es es' : List (String × ExternalEntry)} {e : ExternalEntry}
    (hins : insertExternal es name e = .ok es') (hes : ∀ x ∈ es, x.2.ty.Expanded)
    (he : e.ty.Expanded) :
    ∀ x ∈ es', x.2.ty.Expanded := by
  unfold insertExternal at hins
  split at hins
  · split at hins
    · cases hins
      exact hes
    · cases hins
  · cases hins
    intro x hx
    obtain hx | hx := List.mem_append.1 hx
    · exact hes x hx
    · cases List.mem_singleton.1 hx
      exact he

theorem addSynonym_alike (h : m.Same m') {e : ExternalEntry} (he : e.ty.Expanded) :
    Alike Same (m.addSynonym loc name e) (m'.addSynonym loc' name e) := by
  unfold addSynonym ExternalTable.insertSynonym
  rw [← h.table]
  cases hins : insertExternal m.table.synonyms name e with
  | ok synonyms =>
    exact .pure
      (Same.enter ⟨rfl, h.origins, expanded_of_insert hins h.sound.expanded he, h.sound.fixed⟩)
  | error held => exact .note_bind rfl (.pure h)

theorem Same.addOverload (h : m.Same m') {kind : CallKind} {o : ExternalOverload}
    (ho : kind = .infixOp → o.fixity ≠ none) (name : String) :
    Same { m with table := m.table.addOverload kind name o }
      { m' with table := m'.table.addOverload kind name o } :=
  ⟨by rw [h.table], h.origins, h.sound.addOverload ho name⟩

theorem addFunction_alike (h : m.Same m') (module : String) {f : HeaderFn}
    (hf : f.kind = .infixOp → f.fixity ≠ none) :
    Alike Same (m.addFunction loc module name f) (m'.addFunction loc' module name f) := by
  unfold addFunction otherFixity
  rw [← h.table]
  split
  · exact .note_bind rfl (.pure h)
  · exact .pure (h.enter.addOverload hf name)
  · exact .pure (h.addOverload hf name)

theorem globals_alike (h : m.Same m') (named : String → String) (module : String)
    (gs : List (String × Ty)) : Alike Same
      (gs.foldlM (fun m x => m.addGlobal loc (named x.1) ⟨module, x.1, x.2⟩) m)
      (gs.foldlM (fun m x => m.addGlobal loc' (named x.1) ⟨module, x.1, x.2⟩) m') := by
  refine Alike.foldlM ?_ h
  intro x _ m m' hm
  exact addGlobal_alike hm _

theorem synonyms_alike (h : m.Same m') (named : String → String) (module : String)
    {ss : List (String × Ty)} (hs : ∀ x ∈ ss, x.2.Expanded) : Alike Same
      (ss.foldlM (fun m x => m.addSynonym loc (named x.1) ⟨module, x.1, x.2⟩) m)
      (ss.foldlM (fun m x => m.addSynonym loc' (named x.1) ⟨module, x.1, x.2⟩) m') := by
  refine Alike.foldlM ?_ h
  intro x hx m m' hm
  exact addSynonym_alike hm (hs x hx)

theorem functions_alike (h : m.Same m') (named : String → String) (module : String)
    {fs : List HeaderFn} (hf : ∀ f ∈ fs, f.kind = .infixOp → f.fixity ≠ none) : Alike Same
      (fs.foldlM (fun m f => m.addFunction loc module (named f.name) f) m)
      (fs.foldlM (fun m f => m.addFunction loc' module (named f.name) f) m') := by
  refine Alike.foldlM ?_ h
  intro f hmem m m' hm
  exact addFunction_alike hm module (hf f hmem)

theorem addAll_alike (h : m.Same m') {hd : Header} (hx : hd.Sound) :
    Alike Same (m.addAll loc hd) (m'.addAll loc' hd) :=
  (globals_alike h id ..).bind fun hm => (synonyms_alike hm id _ hx.expanded).bind fun hm =>
    functions_alike hm id _ hx.fixed

theorem addName_alike (h : m.Same m') {hd : Header} (hx : hd.Sound) (n : Name) (asName : String) :
    Alike (fun r r' => r.1 = r'.1 ∧ r.2.Same r'.2) (m.addName loc hd n asName)
      (m'.addName loc' hd n asName) := by
  refine (globals_alike h (fun _ => asName) ..).bind fun hm => ?_
  refine (synonyms_alike hm (fun _ => asName) _ ?_).bind fun hm => ?_
  · intro x hmem
    split at hmem
    · exact hx.expanded x (List.mem_filter.1 hmem).1
    · cases hmem
  · refine (functions_alike hm (fun _ => asName) _ ?_).bind fun hm => .pure ⟨rfl, hm⟩
    intro f hmem
    exact hx.fixed f (List.mem_filter.1 hmem).1

/-- A listed name without its place. -/
abbrev unlocatedSeen (s : Name × String × Loc) : Name × String × Loc := (s.1, s.2.1, .nowhere)

theorem addNames_unlocated {hd : Header} (hx : hd.Sound) : ∀ (ns : List ImportName)
    (seen : List (Name × String × Loc)) {m m' : Merge}, m.Same m' →
    Alike Same (addNames hd ns seen m)
      (addNames hd (ns.map ImportName.unlocated) (seen.map unlocatedSeen) m')
  | [], _, _, _, h => .pure h
  | n :: ns, seen, m, m', h => by
    have hname : n.unlocated.name = n.name := rfl
    have heff : n.unlocated.effective = n.effective := rfl
    have hfind :
        (seen.map unlocatedSeen).find? (fun s => s.1 = n.name && s.2.1 = n.effective.text) =
        (seen.find? fun s => s.1 = n.name && s.2.1 = n.effective.text).map unlocatedSeen := by
      rw [List.find?_map]
      rfl
    rw [List.map_cons, addNames, addNames, hname, heff]
    split
    · exact .note_bind rfl (addNames_unlocated hx ns seen h)
    · rw [hfind]
      cases seen.find? fun s => s.1 = n.name && s.2.1 = n.effective.text with
      | some s => exact .note_bind rfl (addNames_unlocated hx ns seen h)
      | none =>
        refine (addName_alike h hx n.name n.effective.text).bind ?_
        rintro ⟨found, m⟩ ⟨_, m'⟩ ⟨rfl, h⟩
        have hseen := addNames_unlocated hx ns (seen ++ [(n.name, n.effective.text, n.loc)]) h
        rw [List.map_append] at hseen
        cases found with
        | true => exact hseen
        | false => exact .note_bind rfl hseen

theorem listed_unlocated (lines : List Import) :
    listed (lines.map Import.unlocated) = (listed lines).map ImportName.unlocated := by
  unfold listed
  rw [List.flatMap_map, List.map_flatMap]
  congr 1
  funext l
  obtain ⟨module, _ | ns, loc⟩ := l <;> rfl

theorem wholeAt_unlocated (lines : List Import) :
    wholeAt (lines.map Import.unlocated) = (wholeAt lines).map fun _ => .nowhere := by
  unfold wholeAt
  rw [List.findSome?_map, List.map_findSome?]
  congr 1
  funext l
  obtain ⟨module, _ | ns, loc⟩ := l <;> rfl

theorem addModule_unlocated (h : m.Same m') {hd : Header} (hx : hd.Sound) (lines : List Import) :
    Alike Same (m.addModule hd lines) (m'.addModule hd (lines.map Import.unlocated)) := by
  unfold addModule
  simp only [listed_unlocated, wholeAt_unlocated]
  cases wholeAt lines with
  | none => exact addNames_unlocated hx _ [] h
  | some whole =>
    cases listed lines with
    | nil => exact (addAll_alike h hx).bind fun hm => .pure hm
    | cons n ns =>
      exact .note_bind rfl
        ((addAll_alike h hx).bind fun hm => addNames_unlocated hx (n :: ns) [] hm)

/-! ## The built-ins -/

theorem addBuiltinSynonym_alike (h : m.Same m') {e : ExternalEntry} (he : e.ty.Expanded) :
    Alike Same (m.addBuiltinSynonym name e) (m'.addBuiltinSynonym name e) := by
  unfold addBuiltinSynonym ExternalTable.insertSynonym
  rw [← h.table]
  cases hins : insertExternal m.table.synonyms name e with
  | ok synonyms =>
    exact .pure ⟨rfl, h.origins, expanded_of_insert hins h.sound.expanded he, h.sound.fixed⟩
  | error held => exact .note_bind rfl (.pure h)

theorem addBuiltinOverload_alike (h : m.Same m') {kind : CallKind} {o : ExternalOverload}
    (ho : kind = .infixOp → o.fixity ≠ none) :
    Alike Same (m.addBuiltinOverload kind name o) (m'.addBuiltinOverload kind name o) := by
  unfold addBuiltinOverload otherFixity
  rw [← h.table]
  split
  · exact .note_bind rfl (.pure h)
  · have hadd := h.addOverload ho name
    rw [← h.table] at hadd
    exact .pure hadd

theorem addBuiltins_alike (h : m.Same m') {builtins : ExternalTable} (hb : builtins.Sound) :
    Alike Same (m.addBuiltins builtins) (m'.addBuiltins builtins) := by
  refine (Alike.foldlM (R := Same) ?_ h).bind fun hm => Alike.foldlM (R := Same) ?_ hm
  · intro x hx m m' hm
    exact addBuiltinSynonym_alike hm (hb.expanded x hx)
  · intro e he m m' hm
    exact addBuiltinOverload_alike hm (hb.fixed e he)

end Merge

/-! ## All imports -/

theorem header_alike (texts : HeaderTexts) (builtins : ExternalTable) (module : String)
    (loc loc' : Loc) :
    Alike (fun h h' => h = h' ∧ ∀ g ∈ h, g.Sound) (header texts builtins module loc)
      (header texts builtins module loc') := by
  unfold header
  cases texts.lookup module with
  | none => exact .note_bind rfl (.pure ⟨rfl, fun _ h => by cases h⟩)
  | some text =>
    simp only
    cases htext : Header.ofText text with
    | error f => exact .note_bind rfl (.pure ⟨rfl, fun _ h => by cases h⟩)
    | ok h =>
      simp only
      split
      · refine (Header.normal_alike (Header.fixed_of_ofText htext) builtins loc loc').bind ?_
        rintro g _ ⟨rfl, hg⟩
        exact .pure ⟨rfl, fun _ h => by cases h; exact hg⟩
      · exact .note_bind rfl (.pure ⟨rfl, fun _ h => by cases h⟩)

variable {texts : HeaderTexts} {builtins : ExternalTable}

theorem mergeModule_unlocated (imports : List Import) {m m' : Merge} (h : m.Same m')
    (module : String) :
    Alike Merge.Same (mergeModule texts builtins imports m module)
      (mergeModule texts builtins (imports.map Import.unlocated) m' module) := by
  have hlines : (imports.map Import.unlocated).filter (·.module = module) =
      (imports.filter (·.module = module)).map Import.unlocated := by
    rw [List.filter_map]
    rfl
  unfold mergeModule
  rw [hlines]
  refine (header_alike ..).bind ?_
  rintro (_ | g) _ ⟨rfl, hg⟩
  · exact .pure h
  · exact Merge.addModule_unlocated h (hg g rfl) _

theorem modules_unlocated (imports : List Import) :
    modules (imports.map Import.unlocated) = modules imports := by
  unfold modules
  rw [List.foldl_map]
  rfl

theorem mergeModules_unlocated (imports : List Import) (names : List String) :
    Alike Merge.Same (names.foldlM (mergeModule texts builtins imports) {})
      (names.foldlM (mergeModule texts builtins (imports.map Import.unlocated)) {}) := by
  have hstart : Merge.Same {} {} := ⟨rfl, rfl, ⟨fun _ h => (nomatch h), fun _ h => (nomatch h)⟩⟩
  exact Alike.foldlM (fun module _ _ _ h => mergeModule_unlocated imports h module) hstart

/-- Where the import lines stand does not matter. -/
theorem merge_unlocated (hb : builtins.Sound) (imports : List Import) :
    Alike (fun r r' => r = r' ∧ r.externals.Sound)
      (merge texts builtins imports) (merge texts builtins (imports.map Import.unlocated)) := by
  unfold merge
  rw [modules_unlocated]
  refine (mergeModules_unlocated imports _).bind fun hm => ?_
  refine (Merge.addBuiltins_alike hm hb).bind fun hm => ?_
  exact .pure ⟨by rw [hm.table], hm.sound⟩

end Imports

end SplFrontend
