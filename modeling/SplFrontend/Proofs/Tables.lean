import SplFrontend.Symbols

/-!
# Symbol tables

How the tables answer after an insertion. Names in a scope are found if they occur in it; a new
overload stands somewhere among all overloads and is the only one of its item; recording the
variables of an item changes that item's overload only.
-/

namespace SplFrontend

/-- The spaces in which a name stands for one thing. -/
inductive Space where
  | globals
  | synonyms
deriving DecidableEq

/-! ## Scopes -/

section

variable {κ β : Type} [BEq κ] {l : List (κ × β)} {name : κ}

theorem lookup_map {γ : Type} (f : β → γ) (name : κ) :
    (l.map fun x => (x.1, f x.2)).lookup name = (l.lookup name).map f := by
  induction l with
  | nil => rfl
  | cons x l ih =>
    rw [List.map_cons, List.lookup_cons, List.lookup_cons, ih]
    cases name == x.1 <;> rfl

variable [LawfulBEq κ]

theorem lookup_eq_none_iff_not_mem : l.lookup name = none ↔ name ∉ l.map Prod.fst := by
  rw [List.lookup_eq_none_iff]
  simp only [bne_iff_ne, List.mem_map, not_exists, not_and]
  exact ⟨fun h p hp hn => h p hp hn.symm, fun h p hp hn => h p hp hn.symm⟩

/-- Under distinct names every entry is found. -/
theorem lookup_of_mem (h : (l.map Prod.fst).Nodup) {b : β} (hm : (name, b) ∈ l) :
    l.lookup name = some b := by
  induction l with
  | nil => cases hm
  | cons x l ih =>
    obtain ⟨n, c⟩ := x
    rw [List.map_cons, List.nodup_cons] at h
    obtain heq | hrest := List.mem_cons.1 hm
    · cases heq
      exact List.lookup_cons_self
    · have hne : (name == n) = false := by
        rw [beq_eq_false_iff_ne]
        rintro rfl
        exact h.1 (List.mem_map.2 ⟨_, hrest, rfl⟩)
      rw [List.lookup_cons, hne]
      exact ih h.2 hrest

theorem mem_of_lookup {b : β} (h : l.lookup name = some b) : (name, b) ∈ l := by
  obtain ⟨l₁, l₂, rfl, -⟩ := List.lookup_eq_some_iff.1 h
  exact List.mem_append_right _ List.mem_cons_self

end

/-! ## Overloads -/

namespace Callables

variable {α : Type}

/-- A new overload stands somewhere among all the others. -/
theorem all_add (kind : CallKind) (name : String) (o : α) : ∀ fs : Callables α,
    ∃ l r, fs.all = l ++ r ∧ (fs.add kind name o).all = l ++ o :: r
  | [] => ⟨[], [], rfl, rfl⟩
  | (key, set) :: fs => by
    rw [add]
    split
    · exact ⟨set, all fs, rfl, by simp [all]⟩
    · obtain ⟨l, r, h, h'⟩ := all_add kind name o fs
      refine ⟨set ++ l, r, ?_, ?_⟩
      · rw [all, List.flatMap_cons, ← all, h, List.append_assoc]
      · rw [all, List.flatMap_cons, ← all, h', List.append_assoc]

theorem modify_findIdx {p : α → Bool} {set : List α} {i : Nat} (h : set.findIdx? p = some i)
    (f : α → α) : ∃ l o r, set = l ++ o :: r ∧ (∀ x ∈ l, p x = false) ∧ p o = true ∧
      set.modify i f = l ++ f o :: r := by
  induction set generalizing i with
  | nil => cases h
  | cons x set ih =>
    rw [List.findIdx?_cons] at h
    split at h
    · next hx =>
      cases h
      exact ⟨[], x, set, rfl, nofun, hx, rfl⟩
    · next hx =>
      obtain ⟨j, hj, rfl⟩ := Option.map_eq_some_iff.1 h
      obtain ⟨l, o, r, rfl, hl, ho, hm⟩ := ih hj
      refine ⟨x :: l, o, r, rfl, List.forall_mem_cons.2 ⟨by simpa using hx, hl⟩, ho, ?_⟩
      rw [List.modify_succ_cons, hm]
      rfl

/-- The first overload that satisfies the test is changed, if there is one. -/
theorem all_updateFirst (p : α → Bool) (f : α → α) : ∀ fs : Callables α,
    ((∀ x ∈ fs.all, p x = false) ∧ updateFirst p f fs = fs) ∨
      ∃ l o r, fs.all = l ++ o :: r ∧ (∀ x ∈ l, p x = false) ∧ p o = true ∧
        (updateFirst p f fs).all = l ++ f o :: r
  | [] => .inl ⟨nofun, rfl⟩
  | (key, set) :: fs => by
    have hall : ∀ (s : List α) (gs : Callables α), all ((key, s) :: gs) = s ++ all gs :=
      fun _ _ => rfl
    rw [updateFirst, hall]
    split
    · next i hi =>
      obtain ⟨l, o, r, rfl, hl, ho, hm⟩ := modify_findIdx hi f
      exact .inr ⟨l, o, r ++ all fs, by simp, hl, ho, by simp [hall, hm]⟩
    · next hnone =>
      rw [List.findIdx?_eq_none_iff] at hnone
      obtain ⟨hfs, heq⟩ | ⟨l, o, r, h, hl, ho, h'⟩ := all_updateFirst p f fs
      · exact .inl ⟨List.forall_mem_append.2 ⟨hnone, hfs⟩, by rw [heq]⟩
      · exact .inr ⟨set ++ l, o, r, by simp [h], List.forall_mem_append.2 ⟨hnone, hl⟩, ho,
          by simp [hall, h']⟩

end Callables

namespace ModuleTable

variable {t : ModuleTable}

/-- A new overload leaves the overloads of other items. -/
theorem overloadForItem_add_of_ne {kind : CallKind} {name : String} {o : LocalOverload} {i : Nat}
    (h : o.item ≠ i) :
    ({ t with functions := t.functions.add kind name o } : ModuleTable).overloadForItem i =
      t.overloadForItem i := by
  obtain ⟨l, r, hlr, hadd⟩ := Callables.all_add kind name o t.functions
  simp [overloadForItem, hlr, hadd, List.find?_append, h]

/-- A new overload is the one of its item if there was none before. -/
theorem overloadForItem_add_self {kind : CallKind} {name : String} {o : LocalOverload}
    (h : t.overloadForItem o.item = none) :
    ({ t with functions := t.functions.add kind name o } : ModuleTable).overloadForItem o.item =
      some o := by
  obtain ⟨l, r, hlr, hadd⟩ := Callables.all_add kind name o t.functions
  rw [overloadForItem, hlr, List.find?_append] at h
  simp [overloadForItem, hadd, List.find?_append, (Option.or_eq_none_iff.1 h).1]

/-- Recording the variables of an item changes the overload of this item only. -/
theorem overloadForItem_setLocals (i j : Nat) (locals : Scope) :
    (t.setLocals i locals).overloadForItem j =
      if j = i then (t.overloadForItem j).map fun o => { o with locals }
        else t.overloadForItem j := by
  obtain ⟨hnone, heq⟩ | ⟨l, o, r, h, hl, ho, h'⟩ := Callables.all_updateFirst
    (fun o => decide (o.item = i)) (fun o => { o with locals }) t.functions
  · simp only [setLocals, heq]
    split
    · next hji =>
      subst hji
      have hf : t.overloadForItem j = none := List.find?_eq_none.2 fun x hx => by
        simpa using hnone x hx
      rw [hf]
      rfl
    · rfl
  · have hl' : l.find? (fun o => decide (o.item = i)) = none :=
      List.find?_eq_none.2 fun x hx => by simpa using hl x hx
    simp only [decide_eq_true_eq] at ho
    by_cases hji : j = i
    · subst hji
      simp [overloadForItem, setLocals, h, h', List.find?_append, hl', ho]
    · have hne : ¬ o.item = j := fun hoj => hji (hoj.symm.trans ho)
      simp [overloadForItem, setLocals, h, h', List.find?_append, hne, hji]

end ModuleTable

end SplFrontend
