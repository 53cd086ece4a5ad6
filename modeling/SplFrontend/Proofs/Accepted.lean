import SplFrontend.Proofs.Annotations
import SplFrontend.Proofs.Builtins
import SplFrontend.Proofs.Pipeline
import SplFrontend.Proofs.Scoped

/-!
# Accepted programs

What the barriers let through. If no pass reports an error, the synonyms of the external table are
expanded, the program that the later passes work on is normal, the table is filled by its items, and
scoping tags it.
-/

namespace SplFrontend

/-- The table that the passes start from. -/
abbrev ModuleTable.start (o : Options) : ModuleTable := { module := o.module }

namespace Stages

theorem forall_notes {s : Stages} {P : Diagnostic → Prop} : (∀ d ∈ s.notes, P d) ↔
    (∀ d ∈ s.imported.notes, P d) ∧ (∀ d ∈ s.declared.notes, P d) ∧ (∀ d ∈ s.tagged.notes, P d) ∧
      (∀ d ∈ s.grouped.notes, P d) ∧ (∀ d ∈ s.checked.notes, P d) ∧ ∀ d ∈ s.flow.notes, P d := by
  simp only [notes, List.forall_mem_append, and_assoc]

end Stages

section

variable {p : Program} {headers : HeaderTexts} {o : Options}

theorem expanded_externals : ∀ x ∈ (stages p headers o).externals.synonyms, x.2.ty.Expanded := by
  rw [Stages.externals, imported_stages]
  exact (Imports.merge_unlocated Builtin.sound p.imports).value.2.expanded

/-- What the first passes hand over. -/
structure Accepted (externals : ExternalTable) (o : Options) (p : Program) (t : ModuleTable) :
    Prop where
  normal : Annotations.NormalProgram externals p
  fills : Declarations.Fills 0 p.items (Annotations.withSynonyms (.start o) p.items) t
  fixity : ∃ φ, Declarations.OneFixity externals φ p.items

theorem accepted_of_notes {externals : ExternalTable}
    (hext : ∀ x ∈ externals.synonyms, x.2.ty.Expanded)
    (h : ∀ d ∈ (declareModule externals p (.start o)).notes, NotError d) :
    Accepted externals o (declareModule externals p (.start o)).value.1
      (declareModule externals p (.start o)).value.2 := by
  simp only [declareModule, Declarations.collect, Noted.forall_notes_bind] at h
  obtain ⟨hnormal, ht⟩ := Annotations.normal_of_notes hext rfl h.1
  obtain ⟨φ, hφ, -⟩ := Declarations.exists_oneFixity _ [] (fun _ _ _ _ h => by cases h) h.2.1.2.1
  refine ⟨hnormal, ?_, ⟨φ, hφ⟩⟩
  have hfills := Declarations.fills_of_notes 0 _ _ hnormal.items h.2.1.1
  rw [ht] at hfills
  simp only [declareModule, Declarations.collect, Noted.value_bind, Noted.value_pure, ht]
  exact hfills

theorem accepted_declared (h : ∀ d ∈ (stages p headers o).notes, NotError d) :
    Accepted (stages p headers o).externals o (stages p headers o).declared.value.1
      (stages p headers o).declared.value.2 := by
  obtain ⟨-, hdeclared, -⟩ := Stages.forall_notes.1 h
  rw [declared_stages] at hdeclared ⊢
  exact accepted_of_notes expanded_externals hdeclared

namespace Accepted

variable {externals : ExternalTable} {t : ModuleTable}

theorem overloadForItem (h : Accepted externals o p t) {i : Nat} {f : FnDef}
    (hi : p.items[i]? = some (.fn f)) :
    ∃ sig, f.sig = some sig ∧ t.overloadForItem i = some (Declarations.overloadOf f sig i) := by
  obtain ⟨sig, hsig, ho⟩ :=
    h.fills.overloadForItem (by simp [Annotations.withSynonyms, Callables.all]) hi
  exact ⟨sig, hsig, by simpa using ho⟩

theorem tags (h : Accepted externals o p t) {P : Diagnostic → Prop}
    (hn : ∀ d ∈ (Scoping.resolve externals p t).notes, P d) :
    Scoping.Tags externals P 0 p.items t (Scoping.resolve externals p t).value.1.items
      (Scoping.resolve externals p t).value.2 := by
  simp only [Scoping.resolve, Noted.forall_notes_bind] at hn
  refine Scoping.tags_of_notes 0 p.items t (fun j f hj => ?_) hn.1
  obtain ⟨sig, -, ho⟩ := h.overloadForItem hj
  exact ⟨_, by simpa using ho⟩

end Accepted

theorem declared_fresh (h : ∀ i ∈ p.items, i.All .fresh) :
    ∀ i ∈ (stages p headers o).declared.value.1.items, i.All .fresh := by
  simp only [stages, declareModule, Noted.value_bind, Noted.value_pure, Annotations.value_normalise,
    List.mem_map]
  rintro _ ⟨i, hi, rfl⟩
  exact Annotations.all_item (h i hi)

end

end SplFrontend
