import SplFrontend.Proofs.Imports

/-!
# Built-ins among the imports

The built-ins are merged last. If merging reports no error, the names of the built-in synonyms are
taken, and every built-in infix operator has the fixity that the library gives it, whatever was
imported before.
-/

namespace SplFrontend

namespace Builtin

/-- The built-in callables. -/
abbrev callables : List Callable := operators ++ functions

/-- What adding an overload keeps holds of the table if it does without the callables. -/
theorem table_induction {P : ExternalTable → Prop}
    (h : P { synonyms := [("String", ⟨module, "String", .list .char⟩)] })
    (hadd : ∀ t, P t → ∀ c ∈ callables, P (t.addOverload c.kind c.name c.overload)) : P table :=
  List.foldlRecOn callables _ h hadd

theorem synonyms_table : table.synonyms = [("String", ⟨module, "String", .list .char⟩)] := by
  refine table_induction (P := fun t => t.synonyms = [("String", ⟨module, "String", .list .char⟩)])
    rfl fun t ht c _ => ?_
  rw [ExternalTable.addOverload]
  split <;> exact ht

theorem keyed_functions : table.functions.Keyed := by
  refine table_induction (P := (·.functions.Keyed)) ⟨List.nodup_nil, List.forall_mem_nil _⟩
    fun t ht c _ => ?_
  rw [ExternalTable.addOverload]
  split
  · exact ht
  · exact ht.add _ _ _

/-- The table lists the callables, those of one name together. -/
theorem entries_perm :
    table.functions.entries.Perm (callables.map fun c => (c.kind, c.name, c.overload)) := by
  decide +kernel

theorem mem_entries {e : CallKind × String × ExternalOverload} :
    e ∈ table.functions.entries ↔ ∃ c ∈ callables, (c.kind, c.name, c.overload) = e := by
  rw [entries_perm.mem_iff, List.mem_map]

/-- A built-in callable is known by its kind, its name and its signature. -/
theorem nodup_keys : (callables.map fun c => (c.kind, c.name, c.sig)).Nodup := by
  decide +kernel

/-- The infix operators have fixities, and nothing else has. -/
theorem fixity_eq_none_iff : ∀ c ∈ callables, c.fixity = none ↔ c.kind ≠ .infixOp := by
  decide

theorem sound : table.Sound := by
  constructor
  · intro x hx
    rw [synonyms_table] at hx
    cases List.mem_singleton.1 hx
    trivial
  · intro e he hkind hnone
    obtain ⟨c, hc, rfl⟩ := mem_entries.1 he
    exact (fixity_eq_none_iff c hc).1 hnone hkind

end Builtin

namespace ExternalTable

variable {t : ExternalTable} {name : String} {x : Fixity}

theorem fixityOf_add (t : ExternalTable) (kind : CallKind) (n : String) (o : ExternalOverload)
    (name : String) :
    ({ t with functions := t.functions.add kind n o } : ExternalTable).fixityOf name =
      if kind = .infixOp ∧ n = name then (t.fixityOf name).or o.fixity else t.fixityOf name := by
  have hget := Callables.get_add t.functions kind n o (.infixOp, name)
  simp only [fixityOf, overloads, hget]
  by_cases h : kind = .infixOp ∧ n = name
  · obtain ⟨rfl, rfl⟩ := h
    simp [List.findSome?_append]
  · rw [if_neg h, if_neg]
    rintro ⟨⟩
    exact h ⟨rfl, rfl⟩

/-- A fixity, once there, stays. -/
theorem fixityOf_addOverload (h : t.fixityOf name = some x) (kind : CallKind) (n : String)
    (o : ExternalOverload) : (t.addOverload kind n o).fixityOf name = some x := by
  unfold addOverload
  split
  · exact h
  · rw [fixityOf_add, h]
    split <;> rfl

theorem mem_entries_of_overloads {kind : CallKind} {o : ExternalOverload}
    (h : o ∈ t.overloads kind name) :
    (kind, name, o) ∈ t.functions.entries := by
  cases hl : t.functions.lookup (kind, name) with
  | none =>
    rw [overloads, Callables.get, hl] at h
    cases h
  | some set =>
    rw [overloads, Callables.get, hl] at h
    exact Callables.mem_entries.2 ⟨set, mem_of_lookup hl, h⟩

/-- A name without a fixity has no infix operators. -/
theorem Sound.overloads_eq_nil (h : t.Sound) (hname : t.fixityOf name = none) :
    t.overloads .infixOp name = [] := by
  rw [fixityOf, List.findSome?_eq_none_iff] at hname
  rw [List.eq_nil_iff_forall_not_mem]
  intro o ho
  exact h.fixed _ (mem_entries_of_overloads ho) rfl (hname o ho)

end ExternalTable

namespace Imports

namespace Merge

variable {m : Merge} {name : String} {x : Fixity}

theorem fixityOf_addBuiltinOverload_of_some (h : m.table.fixityOf name = some x) (kind : CallKind)
    (n : String) (o : ExternalOverload) :
    (m.addBuiltinOverload kind n o).value.table.fixityOf name = some x := by
  unfold addBuiltinOverload
  split
  · exact h
  · exact ExternalTable.fixityOf_addOverload h kind n o

theorem sound_addBuiltinOverload (h : m.table.Sound) {kind : CallKind} {o : ExternalOverload}
    (ho : kind = .infixOp → o.fixity ≠ none) (n : String) :
    (m.addBuiltinOverload kind n o).value.table.Sound := by
  unfold addBuiltinOverload
  split
  · exact h
  · exact h.addOverload ho n

/-- A built-in infix operator is refused or its name has its fixity. -/
theorem fixityOf_addBuiltinOverload (h : m.table.Sound) {o : ExternalOverload}
    (hx : o.fixity = some x) (hn : ∀ d ∈ (m.addBuiltinOverload .infixOp name o).notes, NotError d) :
    (m.addBuiltinOverload .infixOp name o).value.table.fixityOf name = some x := by
  unfold addBuiltinOverload at hn ⊢
  rw [hx, Option.bind_some] at hn ⊢
  cases hother : m.otherFixity name x with
  | some other =>
    rw [hother, Option.map_some, Noted.forall_notes_bind] at hn
    exact absurd (hn.1 _ List.mem_cons_self) (not_notError rfl _ _)
  | none =>
    rw [otherFixity, Option.filter_eq_none_iff] at hother
    simp only [Option.map_none, Noted.value_pure]
    cases hf : m.table.fixityOf name with
    | some y =>
      have hy : y = x := by simpa using hother y hf
      exact ExternalTable.fixityOf_addOverload (hy ▸ hf) _ _ _
    | none =>
      have hnone : m.table.hasOverload .infixOp name o = false := by
        rw [ExternalTable.hasOverload, h.overloads_eq_nil hf]
        rfl
      rw [ExternalTable.addOverload, if_neg (by simp [hnone]), ExternalTable.fixityOf_add, hf, hx]
      simp

/-- Adds built-in callables one by one. -/
def addBuiltinOverloads (m : Merge) (es : List (CallKind × String × ExternalOverload)) :
    Noted Merge :=
  es.foldlM (fun m (kind, name, o) => m.addBuiltinOverload kind name o) m

theorem addBuiltinOverloads_cons (m : Merge) (kind : CallKind) (name : String)
    (o : ExternalOverload) (es : List (CallKind × String × ExternalOverload)) :
    m.addBuiltinOverloads ((kind, name, o) :: es) =
      m.addBuiltinOverload kind name o >>= fun m => m.addBuiltinOverloads es := List.foldlM_cons

theorem fixityOf_addBuiltinOverloads :
    ∀ (es : List (CallKind × String × ExternalOverload)) {m : Merge},
    m.table.Sound → (∀ e ∈ es, e.1 = .infixOp → e.2.2.fixity ≠ none) →
    (∀ d ∈ (m.addBuiltinOverloads es).notes, NotError d) →
    (∀ name x, m.table.fixityOf name = some x →
      (m.addBuiltinOverloads es).value.table.fixityOf name = some x) ∧
      ∀ e ∈ es, e.1 = .infixOp → ∀ x, e.2.2.fixity = some x →
        (m.addBuiltinOverloads es).value.table.fixityOf e.2.1 = some x
  | [], _, _, _, _ => ⟨fun _ _ h => h, nofun⟩
  | (kind, n, o) :: es, m, h, hes, hn => by
    obtain ⟨ho, hes⟩ := List.forall_mem_cons.1 hes
    rw [addBuiltinOverloads_cons, Noted.forall_notes_bind] at hn
    obtain ⟨hstay, hrest⟩ :=
      fixityOf_addBuiltinOverloads es (sound_addBuiltinOverload h ho n) hes hn.2
    rw [addBuiltinOverloads_cons]
    refine ⟨fun name x hx => hstay name x (fixityOf_addBuiltinOverload_of_some hx ..), ?_⟩
    refine List.forall_mem_cons.2 ⟨?_, hrest⟩
    rintro rfl x hx
    exact hstay n x (fixityOf_addBuiltinOverload h hx hn.1)

theorem synonyms_addBuiltinOverloads :
    ∀ (es : List (CallKind × String × ExternalOverload)) (m : Merge),
    (m.addBuiltinOverloads es).value.table.synonyms = m.table.synonyms
  | [], _ => rfl
  | (kind, n, o) :: es, m => by
    have hone : (m.addBuiltinOverload kind n o).value.table.synonyms = m.table.synonyms := by
      unfold addBuiltinOverload ExternalTable.addOverload
      split
      · rfl
      · simp only [Noted.value_pure]
        split <;> rfl
    rw [addBuiltinOverloads_cons, Noted.value_bind, synonyms_addBuiltinOverloads es, hone]

/-- A built-in synonym is refused or its name is taken, and a name that is taken stays so. -/
theorem lookup_addBuiltinSynonym (n : String) (e : ExternalEntry)
    (hn : ∀ d ∈ (m.addBuiltinSynonym n e).notes, NotError d) :
    (m.addBuiltinSynonym n e).value.table.synonyms.lookup n ≠ none ∧
      ∀ name, m.table.synonyms.lookup name ≠ none →
        (m.addBuiltinSynonym n e).value.table.synonyms.lookup name ≠ none := by
  unfold addBuiltinSynonym ExternalTable.insertSynonym insertExternal at hn ⊢
  cases hl : m.table.synonyms.lookup n with
  | none =>
    simp only [Except.map, Noted.value_pure, List.lookup_append]
    refine ⟨by simp [hl], fun name h => ?_⟩
    obtain ⟨held, hheld⟩ := Option.ne_none_iff_exists'.1 h
    rw [hheld]
    nofun
  | some held =>
    by_cases hsame : held.module = e.module ∧ held.exported = e.exported
    · simp [hl, hsame, Except.map]
    · simp only [hl, if_neg hsame, Except.map, Noted.forall_notes_bind] at hn
      exact absurd (hn.1 _ List.mem_cons_self) (not_notError rfl _ _)

/-- Adds built-in synonyms one by one. -/
def addBuiltinSynonyms (m : Merge) (es : List (String × ExternalEntry)) : Noted Merge :=
  es.foldlM (fun m (name, e) => m.addBuiltinSynonym name e) m

theorem addBuiltinSynonyms_cons (m : Merge) (name : String) (e : ExternalEntry)
    (es : List (String × ExternalEntry)) : m.addBuiltinSynonyms ((name, e) :: es) =
      m.addBuiltinSynonym name e >>= fun m => m.addBuiltinSynonyms es := List.foldlM_cons

theorem sound_addBuiltinSynonyms (h : m.table.Sound) {es : List (String × ExternalEntry)}
    (hes : ∀ x ∈ es, x.2.ty.Expanded) : (m.addBuiltinSynonyms es).value.table.Sound := by
  have hsame : Noted.Alike Same (m.addBuiltinSynonyms es) (m.addBuiltinSynonyms es) := by
    refine Noted.Alike.foldlM (R := Same) ?_ ⟨rfl, rfl, h⟩
    intro x hx m m' hm
    exact addBuiltinSynonym_alike hm (hes x hx)
  exact hsame.value.sound

theorem lookup_addBuiltinSynonyms : ∀ (es : List (String × ExternalEntry)) {m : Merge},
    (∀ d ∈ (m.addBuiltinSynonyms es).notes, NotError d) →
    (∀ name, m.table.synonyms.lookup name ≠ none →
      (m.addBuiltinSynonyms es).value.table.synonyms.lookup name ≠ none) ∧
      ∀ x ∈ es, (m.addBuiltinSynonyms es).value.table.synonyms.lookup x.1 ≠ none
  | [], _, _ => ⟨fun _ h => h, nofun⟩
  | (n, e) :: es, m, hn => by
    rw [addBuiltinSynonyms_cons, Noted.forall_notes_bind] at hn
    obtain ⟨hstay, hrest⟩ := lookup_addBuiltinSynonyms es hn.2
    rw [addBuiltinSynonyms_cons]
    refine ⟨fun name h => hstay name ((lookup_addBuiltinSynonym n e hn.1).2 name h), ?_⟩
    refine List.forall_mem_cons.2 ⟨?_, hrest⟩
    exact hstay n (lookup_addBuiltinSynonym n e hn.1).1

theorem addBuiltins_eq (m : Merge) (builtins : ExternalTable) : m.addBuiltins builtins =
    m.addBuiltinSynonyms builtins.synonyms >>=
      fun m => m.addBuiltinOverloads builtins.functions.entries := rfl

end Merge

/-- Merging without errors leaves no room for another fixity of a built-in operator, nor for another
synonym under a built-in name. -/
theorem merge_builtins {texts : HeaderTexts} {builtins : ExternalTable} (hb : builtins.Sound)
    {imports : List Import} (hn : ∀ d ∈ (merge texts builtins imports).notes, NotError d) :
    (∀ e ∈ builtins.functions.entries, e.1 = .infixOp → ∀ x, e.2.2.fixity = some x →
      (merge texts builtins imports).value.externals.fixityOf e.2.1 = some x) ∧
      ∀ x ∈ builtins.synonyms,
        (merge texts builtins imports).value.externals.synonyms.lookup x.1 ≠ none := by
  have hmodules := @mergeModules_unlocated texts builtins imports (modules imports)
  generalize hm : (modules imports).foldlM (mergeModule texts builtins imports) {} = m at hmodules
  have hvalue : (merge texts builtins imports).value.externals =
      (m.value.addBuiltins builtins).value.table := by
    simp only [merge, hm, Noted.value_bind, Noted.value_pure]
  have hnotes : ∀ d ∈ (m.value.addBuiltins builtins).notes, NotError d := by
    simp only [merge, hm, Noted.forall_notes_bind] at hn
    exact hn.2.1
  rw [hvalue]
  rw [Merge.addBuiltins_eq, Noted.forall_notes_bind] at hnotes
  rw [Merge.addBuiltins_eq, Noted.value_bind]
  have hsound := Merge.sound_addBuiltinSynonyms hmodules.value.sound hb.expanded
  refine ⟨(Merge.fixityOf_addBuiltinOverloads _ hsound hb.fixed hnotes.2).2, ?_⟩
  rw [Merge.synonyms_addBuiltinOverloads]
  exact (Merge.lookup_addBuiltinSynonyms _ hnotes.1).2

end Imports

end SplFrontend
