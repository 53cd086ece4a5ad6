import SplFrontend.Proofs.Tables

/-!
# Overload sets

A collection of overload sets is an ordered table: every kind and name has at most one set, and the
set is not empty. The results say what it is after overloads were added one by one. Those of another
collection go to the sets of their names in order, and the sets of new names follow in their own
order (`addAll_entries`).
-/

namespace SplFrontend.Callables

variable {α β : Type} {fs gs : Callables α} {kind : CallKind} {name : String} {o : α}

/-- Every name has one set, and an overload in it. -/
structure Keyed (fs : Callables α) : Prop where
  nodup : (fs.map Prod.fst).Nodup
  nonempty : ∀ x ∈ fs, x.2 ≠ []

theorem get_of_mem (h : fs.Keyed) {x : (CallKind × String) × List α} (hx : x ∈ fs) :
    fs.get x.1.1 x.1.2 = x.2 := by
  rw [get, lookup_of_mem h.nodup hx, Option.getD_some]

theorem get_cons (key : CallKind × String) (set : List α) (fs : Callables α)
    (k : CallKind × String) :
    get ((key, set) :: fs) k.1 k.2 = if k = key then set else fs.get k.1 k.2 := by
  rw [get, List.lookup_cons]
  by_cases h : k = key
  · simp [h]
  · rw [beq_eq_false_iff_ne.2 h, if_neg h]
    rfl

/-! ## One overload more -/

theorem get_add (fs : Callables α) (kind : CallKind) (name : String) (o : α)
    (k : CallKind × String) :
    (fs.add kind name o).get k.1 k.2 =
      if k = (kind, name) then fs.get kind name ++ [o] else fs.get k.1 k.2 := by
  induction fs with
  | nil => rw [add, get_cons]; rfl
  | cons x fs ih =>
    obtain ⟨key, set⟩ := x
    have hhead := get_cons key set fs (kind, name)
    rw [add, get_cons]
    by_cases hkey : key = (kind, name)
    · rw [if_pos hkey, get_cons]
      rw [if_pos hkey.symm] at hhead
      by_cases hk : k = key
      · rw [if_pos hk, if_pos (hk.trans hkey), hhead]
      · rw [if_neg hk, if_neg (fun h => hk (h.trans hkey.symm)), if_neg hk]
    · rw [if_neg hkey, get_cons, ih]
      rw [if_neg (Ne.symm hkey)] at hhead
      by_cases hk : k = key
      · subst hk
        rw [if_pos rfl, if_neg hkey, if_pos rfl]
      · rw [if_neg hk, if_neg hk, hhead]

theorem mem_keys_add {k : CallKind × String} :
    k ∈ (fs.add kind name o).map Prod.fst ↔ k = (kind, name) ∨ k ∈ fs.map Prod.fst := by
  induction fs with
  | nil => simp [add]
  | cons x fs ih =>
    obtain ⟨key, set⟩ := x
    rw [add]
    by_cases hkey : key = (kind, name)
    · simp [hkey]
    · rw [if_neg hkey]
      simp only [List.map_cons, List.mem_cons, ih]
      exact or_left_comm

theorem mem_add {x : (CallKind × String) × List α} (h : x ∈ fs.add kind name o) :
    x ∈ fs ∨ x = ((kind, name), [o]) ∨ ∃ set, ((kind, name), set) ∈ fs ∧
      x = ((kind, name), set ++ [o]) := by
  induction fs with
  | nil => exact .inr (.inl (List.mem_singleton.1 h))
  | cons y fs ih =>
    obtain ⟨key, set⟩ := y
    rw [add] at h
    by_cases hkey : key = (kind, name)
    · subst hkey
      rw [if_pos rfl] at h
      rcases List.mem_cons.1 h with rfl | h
      · exact .inr (.inr ⟨set, List.mem_cons_self, rfl⟩)
      · exact .inl (List.mem_cons_of_mem _ h)
    · rw [if_neg hkey] at h
      rcases List.mem_cons.1 h with rfl | h
      · exact .inl List.mem_cons_self
      · rcases ih h with hx | hx | ⟨set', hset, hx⟩
        · exact .inl (List.mem_cons_of_mem _ hx)
        · exact .inr (.inl hx)
        · exact .inr (.inr ⟨set', List.mem_cons_of_mem _ hset, hx⟩)

theorem Keyed.add (h : fs.Keyed) (kind : CallKind) (name : String) (o : α) :
    (fs.add kind name o).Keyed := by
  constructor
  · have hnodup := h.nodup
    clear h
    induction fs with
    | nil => simp [Callables.add]
    | cons x fs ih =>
      obtain ⟨key, set⟩ := x
      rw [List.map_cons, List.nodup_cons] at hnodup
      rw [Callables.add]
      by_cases hkey : key = (kind, name)
      · rw [if_pos hkey, List.map_cons, List.nodup_cons]
        exact hnodup
      · rw [if_neg hkey, List.map_cons, List.nodup_cons, mem_keys_add]
        refine ⟨?_, ih hnodup.2⟩
        rintro (hk | hk)
        · exact hkey hk
        · exact hnodup.1 hk
  · intro x hx
    rcases mem_add hx with hx | rfl | ⟨set, -, rfl⟩
    · exact h.nonempty x hx
    · simp
    · simp

/-! ## Many overloads more -/

/-- Adds overloads one by one. -/
abbrev addAll (fs : Callables α) (es : List (CallKind × String × α)) : Callables α :=
  es.foldl (fun fs e => fs.add e.1 e.2.1 e.2.2) fs

/-- The overloads of one name among the given ones. -/
def ofKey (key : CallKind × String) (es : List (CallKind × String × α)) : List α :=
  (es.filter fun e => (e.1, e.2.1) = key).map fun e => e.2.2

theorem addAll_cons (key : CallKind × String) (set : List α) (fs : Callables α)
    (es : List (CallKind × String × α)) : addAll ((key, set) :: fs) es =
      (key, set ++ ofKey key es) :: addAll fs (es.filter fun e => (e.1, e.2.1) ≠ key) := by
  induction es generalizing set fs with
  | nil => simp [ofKey]
  | cons e es ih =>
    rw [addAll, List.foldl_cons, add]
    by_cases hkey : (e.1, e.2.1) = key
    · rw [if_pos hkey.symm]
      refine (ih (set ++ [e.2.2]) fs).trans ?_
      simp [ofKey, hkey]
    · rw [if_neg (Ne.symm hkey)]
      refine (ih set (fs.add e.1 e.2.1 e.2.2)).trans ?_
      simp [ofKey, hkey]

theorem entries_cons (key : CallKind × String) (set : List α) (fs : Callables α) :
    entries ((key, set) :: fs) = (set.map fun o => (key.1, key.2, o)) ++ entries fs := rfl

theorem mem_entries {e : CallKind × String × α} :
    e ∈ fs.entries ↔ ∃ set, ((e.1, e.2.1), set) ∈ fs ∧ e.2.2 ∈ set := by
  simp only [entries, List.mem_flatMap, List.mem_map]
  constructor
  · rintro ⟨⟨⟨kind, name⟩, set⟩, hset, o, ho, rfl⟩
    exact ⟨set, hset, ho⟩
  · rintro ⟨set, hset, ho⟩
    exact ⟨_, hset, _, ho, rfl⟩

theorem mem_entries_add {e : CallKind × String × α} (h : e ∈ (fs.add kind name o).entries) :
    e ∈ fs.entries ∨ e = (kind, name, o) := by
  obtain ⟨k, n, p⟩ := e
  obtain ⟨set, hset, hp⟩ := mem_entries.1 h
  rcases mem_add hset with hx | heq | ⟨set', hset', heq⟩
  · exact .inl (mem_entries.2 ⟨set, hx, hp⟩)
  · cases heq
    cases List.mem_singleton.1 hp
    exact .inr rfl
  · cases heq
    rcases List.mem_append.1 hp with hp | hp
    · exact .inl (mem_entries.2 ⟨set', hset', hp⟩)
    · cases List.mem_singleton.1 hp
      exact .inr rfl

theorem filter_entries (key : CallKind × String) (fs : Callables α) :
    (fs.entries.filter fun e => (e.1, e.2.1) ≠ key) = entries (fs.filter fun x => x.1 ≠ key) := by
  induction fs with
  | nil => rfl
  | cons x fs ih =>
    obtain ⟨k, set⟩ := x
    rw [entries_cons, List.filter_append, ih]
    by_cases hk : k = key
    · simp [hk]
    · simp [hk, entries_cons]

theorem ofKey_entries (h : (fs.map Prod.fst).Nodup) (key : CallKind × String) :
    ofKey key fs.entries = fs.get key.1 key.2 := by
  induction fs with
  | nil => rfl
  | cons x fs ih =>
    obtain ⟨k, set⟩ := x
    rw [List.map_cons, List.nodup_cons] at h
    have hrest := ih h.2
    rw [ofKey] at hrest
    rw [ofKey, entries_cons, List.filter_append, List.map_append, hrest, get_cons]
    by_cases hk : key = k
    · subst hk
      have hnone : fs.lookup key = none := lookup_eq_none_iff_not_mem.2 h.1
      simp [get, hnone, List.filter_map, Function.comp_def]
    · simp [hk, Ne.symm hk, List.filter_map, Function.comp_def]

theorem get_filter_ne (fs : Callables α) {key k : CallKind × String} (h : k ≠ key) :
    get (fs.filter fun x => x.1 ≠ key) k.1 k.2 = fs.get k.1 k.2 := by
  induction fs with
  | nil => rfl
  | cons x fs ih =>
    obtain ⟨l, set⟩ := x
    rw [get_cons, List.filter_cons]
    by_cases hl : l = key
    · rw [if_neg (by simp [hl]), ih, if_neg (fun hk => h (hk.trans hl))]
    · rw [if_pos (by simp [hl]), get_cons, ih]

/-- The collections in one: the overloads of a name in both stand together, the first collection's
first. -/
def joined (fs gs : Callables α) : Callables α :=
  (fs.map fun x => (x.1, x.2 ++ gs.get x.1.1 x.1.2)) ++ gs.filter fun x => x.1 ∉ fs.map Prod.fst

theorem addAll_nil_entries (h : gs.Keyed) : addAll [] gs.entries = gs := by
  induction gs with
  | nil => rfl
  | cons x gs ih =>
    obtain ⟨key, set⟩ := x
    have hnodup := h.nodup
    rw [List.map_cons, List.nodup_cons] at hnodup
    have hrest := ih ⟨hnodup.2, fun x hx => h.nonempty x (List.mem_cons_of_mem _ hx)⟩
    cases set with
    | nil => exact absurd rfl (h.nonempty _ List.mem_cons_self)
    | cons o set =>
      have hset := @ofKey_entries _ ((key, set) :: gs) (List.nodup_cons.2 hnodup) key
      have hothers := filter_entries key ((key, set) :: gs)
      have hkeep : (gs.filter fun x => x.1 ≠ key) = gs := by
        rw [List.filter_eq_self]
        intro x hx
        exact decide_eq_true fun hkey => hnodup.1 (List.mem_map.2 ⟨x, hx, hkey⟩)
      rw [get_cons, if_pos rfl] at hset
      rw [List.filter_cons, if_neg (by simp), hkeep] at hothers
      rw [entries_cons] at hset hothers
      rw [entries_cons, List.map_cons, List.cons_append]
      refine (addAll_cons key [o] [] _).trans ?_
      rw [hset, hothers, hrest]
      rfl

theorem addAll_entries (hf : (fs.map Prod.fst).Nodup) (hg : gs.Keyed) :
    addAll fs gs.entries = fs.joined gs := by
  induction fs generalizing gs with
  | nil =>
    rw [addAll_nil_entries hg]
    exact (List.filter_eq_self.2 fun _ _ => rfl).symm
  | cons x fs ih =>
    obtain ⟨key, set⟩ := x
    rw [List.map_cons, List.nodup_cons] at hf
    have hfilter : Keyed (gs.filter fun x => x.1 ≠ key) := by
      refine ⟨hg.nodup.sublist (List.filter_sublist.map _), ?_⟩
      intro x hx
      exact hg.nonempty x (List.mem_filter.1 hx).1
    have hget : ∀ x ∈ fs, get (gs.filter fun y => y.1 ≠ key) x.1.1 x.1.2 = gs.get x.1.1 x.1.2 := by
      intro x hx
      have hne : x.1 ≠ key := fun hkey => hf.1 (List.mem_map.2 ⟨x, hx, hkey⟩)
      exact get_filter_ne gs hne
    rw [addAll_cons, filter_entries, ih hf.2 hfilter, ofKey_entries hg.nodup, joined, joined,
      List.map_cons, List.cons_append, List.filter_filter]
    congr 2
    · exact List.map_congr_left fun x hx => by rw [hget x hx]
    · refine List.filter_congr fun x _ => ?_
      rw [Bool.eq_iff_iff]
      simp only [Bool.and_eq_true, decide_eq_true_eq, List.map_cons, List.mem_cons, not_or]
      exact and_comm

/-! ## Other overloads in their place -/

/-- Puts another overload in the place of each. -/
def mapSets (g : CallKind × String → α → β) (fs : Callables α) : Callables β :=
  fs.map fun x => (x.1, x.2.map (g x.1))

variable (g : CallKind × String → α → β)

theorem get_mapSets (fs : Callables α) (k : CallKind × String) :
    (fs.mapSets g).get k.1 k.2 = (fs.get k.1 k.2).map (g k) := by
  induction fs with
  | nil => rfl
  | cons x fs ih =>
    obtain ⟨key, set⟩ := x
    rw [mapSets, List.map_cons, ← mapSets, get_cons, get_cons, ih]
    by_cases hk : k = key
    · rw [if_pos hk, if_pos hk, hk]
    · rw [if_neg hk, if_neg hk]

theorem all_mapSets (g : α → β) (fs : Callables α) :
    (fs.mapSets fun _ => g).all = fs.all.map g := by
  simp only [all, mapSets, List.flatMap_map, List.map_flatMap]

theorem mapSets_mapSets {γ : Type} (g' : CallKind × String → β → γ) (fs : Callables α) :
    (fs.mapSets g).mapSets g' = fs.mapSets fun key o => g' key (g key o) := by
  simp [mapSets, Function.comp_def]

theorem mapSets_add (fs : Callables α) (kind : CallKind) (name : String) (o : α) :
    (fs.add kind name o).mapSets g = (fs.mapSets g).add kind name (g (kind, name) o) := by
  induction fs with
  | nil => rfl
  | cons x fs ih =>
    obtain ⟨key, set⟩ := x
    have hcons : mapSets g ((key, set) :: fs) = (key, set.map (g key)) :: mapSets g fs := rfl
    rw [hcons, add, add]
    by_cases hkey : key = (kind, name)
    · rw [if_pos hkey, if_pos hkey, hkey]
      simp [mapSets]
    · rw [if_neg hkey, if_neg hkey, ← ih]
      rfl

/-- A change that does not show is not seen. -/
theorem mapSets_updateFirst {p : α → Bool} {f : α → α} (h : ∀ key o, g key (f o) = g key o)
    (fs : Callables α) : (fs.updateFirst p f).mapSets g = fs.mapSets g := by
  induction fs with
  | nil => rfl
  | cons x fs ih =>
    obtain ⟨key, set⟩ := x
    rw [updateFirst]
    cases hi : set.findIdx? p with
    | none =>
      rw [mapSets, List.map_cons, ← mapSets, ih]
      rfl
    | some i =>
      obtain ⟨l, o, r, rfl, -, -, hm⟩ := modify_findIdx hi f
      simp only [mapSets, List.map_cons, hm, List.map_append, h]

theorem entries_mapSets (fs : Callables α) :
    (fs.mapSets g).entries = fs.entries.map fun e => (e.1, e.2.1, g (e.1, e.2.1) e.2.2) := by
  induction fs with
  | nil => rfl
  | cons x fs ih =>
    obtain ⟨key, set⟩ := x
    rw [mapSets, List.map_cons, ← mapSets, entries_cons, entries_cons, ih, List.map_append,
      List.map_map, List.map_map]
    rfl

end SplFrontend.Callables
