import SplFrontend.Annotations
import SplFrontend.Proofs.Expansion
import SplFrontend.Proofs.Nodes

/-!
# What expanding annotations does

The pass over annotations touches types only, and the types that it writes are expanded.
-/

namespace SplFrontend

theorem Ty.Expanded.printable {t : Ty} (h : t.Expanded) : t.Printable := by
  induction t with
  | basic _ => trivial
  | pair a b iha ihb => exact ⟨iha h.1, ihb h.2⟩
  | list e ih => exact ih h
  | syn _ => exact h.elim

namespace Annotations

variable {env : Synonyms}

theorem expanded_of_annotated {loc : Loc} {t u : Ty} (h : (expandTy env loc t).value = some u) :
    u.Expanded := by
  unfold expandTy at h
  split at h
  · next hu =>
    cases h
    exact Ty.expanded_of_expand hu
  · cases h
  · cases h

/-- A type becomes an expanded one or stays. -/
theorem printable_annotated {loc : Loc} {t : Ty} (h : t.Printable) :
    ((expandTy env loc t).value.getD t).Printable := by
  cases hu : (expandTy env loc t).value with
  | none => exact h
  | some u => exact (expanded_of_annotated hu).printable

/-- A declaration keeps all but its type. -/
theorem value_decl {untyped void : String → Fault} (d : VarDecl) :
    (decl env untyped void d).value =
      { d with ty := d.ty.map fun t => (expandTy env d.loc t).value.getD t } := by
  unfold decl
  cases d with
  | mk name ty init loc =>
    cases ty with
    | none => rfl
    | some t =>
      simp only [Noted.value_bind, Option.map_some]
      cases (expandTy env loc t).value with
      | none => rfl
      | some u => simp only [Option.getD_some]; split <;> rfl

theorem printable_decl {untyped void : String → Fault} {d : VarDecl} (h : d.Printable) :
    (decl env untyped void d).value.Printable := by
  rw [value_decl]
  refine ⟨h.1, fun u hu => ?_, h.2.2⟩
  obtain ⟨t, ht, rfl⟩ := Option.map_eq_some_iff.1 hu
  exact printable_annotated (h.2.1 t ht)

theorem value_params (f : FnDef) : ∀ (ps : List Param) (ts : List Ty),
    (params env f ps ts).value = ts.map fun t => (expandTy env f.loc t).value.getD t
  | _, [] => by rw [params]; rfl
  | ps, t :: ts => by
    rw [params]
    simp only [Noted.value_bind, Noted.value_note_if, Noted.value_pure, List.map_cons,
      value_params f ps.tail ts]

theorem value_signature (f : FnDef) (s : Signature) : (signature env f s).value =
    ⟨s.params.map fun t => (expandTy env f.loc t).value.getD t,
      (expandTy env f.loc s.result).value.getD s.result⟩ := by
  simp only [signature, Noted.value_bind, Noted.value_note_if, Noted.value_pure, value_params]

theorem value_callable (f : FnDef) : (callable env f).value =
    { f with
      sig := f.sig.map fun s => (signature env f s).value
      body := (Stmt.rewriteAll (locals env) f.body).value } := by
  cases hs : f.sig <;> simp only [callable, hs, Noted.value_bind, Noted.value_pure, Option.map]

theorem printable_signature {f : FnDef} {s : Signature} (h : s.Printable) :
    (signature env f s).value.Printable := by
  rw [value_signature]
  refine ⟨fun u hu => ?_, printable_annotated h.2⟩
  obtain ⟨t, ht, rfl⟩ := List.mem_map.1 hu
  exact printable_annotated (h.1 t ht)

/-- At a place only the type of a declaration changes. -/
theorem value_at (p : Place) : ((locals env).at p).value =
    match p with
    | .decl d => .decl (decl env .localUntyped .localVoid d).value
    | p => p := by
  cases p <;> rfl

theorem printable_at {p : Place} (h : p.Printable) : ((locals env).at p).value.Printable := by
  rw [value_at]
  cases p with
  | decl d => exact printable_decl h
  | _ => exact h

theorem all_at {N : Nodes} {p : Place} (h : p.All N) : ((locals env).at p).value.All N := by
  rw [value_at]
  cases p with
  | decl d =>
    simp only [value_decl]
    exact h
  | _ => exact h

variable {t : ModuleTable}

/-- The pass keeps an item printable, and does not touch its expressions. -/
theorem printable_item {i : Item} (h : i.Printable) : (item t env i).value.Printable := by
  cases i with
  | synonym s =>
    simp only [item, Noted.value_bind, Noted.value_pure, synonym]
    split
    · split
      · next u hu =>
        rw [Noted.value_note_if]
        exact ⟨h.1, (Synonyms.expanded_of_expansion hu).printable⟩
      · exact h
    · exact h
  | global d => exact printable_decl h
  | fn f =>
    simp only [item, Noted.value_bind, Noted.value_pure, value_callable]
    have hw :=
      Stmt.walk_rewriteAll_lift (w := locals env) (P := fun _ => True) f.body fun _ _ => trivial
    refine ⟨h.name, h.params, fun s hs => ?_, hw.printable (fun _ p q _ hd hp => ?_) h.body⟩
    · obtain ⟨s', hs', rfl⟩ := Option.map_eq_some_iff.1 hs
      exact printable_signature (h.sig s' hs')
    · rw [← hd.1]
      exact printable_at hp

theorem all_item {N : Nodes} {i : Item} (h : i.All N) : (item t env i).value.All N := by
  cases i with
  | synonym s => trivial
  | global d =>
    simp only [item, Noted.value_bind, Noted.value_pure, value_decl]
    exact h
  | fn f =>
    simp only [item, Noted.value_bind, Noted.value_pure, value_callable]
    have hw :=
      Stmt.walk_rewriteAll_lift (w := locals env) (P := fun _ => True) f.body fun _ _ => trivial
    refine (hw.and h).holds fun _ p q _ hd => ?_
    rw [← hd.1.1]
    exact all_at hd.2

/-- The pass rewrites each item by the table and the definitions that it starts from. -/
theorem value_normalise (externals : ExternalTable) (p : Program) (t : ModuleTable) :
    let t' := (declare externals p.items t).value
    let env := synonymDefs t' externals
    (normalise externals p t).value =
      ({ p with items := p.items.map fun i => (item t' env i).value },
        { t' with
          synonyms := t'.synonyms.map fun (name, e) => (name, entry env p.items name e) }) := by
  simp only [normalise, Noted.value_bind, Noted.value_pure, Noted.value_mapM]

end Annotations

end SplFrontend
