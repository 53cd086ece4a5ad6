import Mathlib.Data.List.Forall2

/-!
# Computations that may fail

What it means for a computation to succeed or to fail, for the ways in which the passes combine
computations: one after the other, over a list, under a function. Two lemmas at the end turn a check
that evaluates into a statement about the result.
-/

namespace SplFrontend

section

variable {ε α β : Type} {x : Except ε α} {f : α → Except ε β}

/-- A computation in two steps succeeds if both steps do. -/
theorem bind_eq_ok_iff {b : β} : x >>= f = .ok b ↔ ∃ a, x = .ok a ∧ f a = .ok b := by
  cases x with
  | ok a => exact ⟨fun h => ⟨a, rfl, h⟩, by rintro ⟨_, h, hf⟩; cases h; exact hf⟩
  | error e => exact ⟨nofun, by rintro ⟨_, h, _⟩; cases h⟩

/-- A computation in two steps fails in the first or in the second. -/
theorem bind_eq_error_iff {e : ε} :
    x >>= f = .error e ↔ x = .error e ∨ ∃ a, x = .ok a ∧ f a = .error e := by
  cases x with
  | ok a =>
    refine ⟨fun h => .inr ⟨a, rfl, h⟩, ?_⟩
    rintro (h | ⟨_, h, hf⟩)
    · cases h
    · cases h
      exact hf
  | error e' =>
    refine ⟨fun h => .inl (by cases h; rfl), ?_⟩
    rintro (h | ⟨_, h, _⟩)
    · cases h
      rfl
    · cases h

theorem map_eq_ok_iff {g : α → β} {b : β} : x.map g = .ok b ↔ ∃ a, x = .ok a ∧ g a = b := by
  cases x <;> simp [Except.map]

theorem map_eq_error_iff {g : α → β} {e : ε} : x.map g = .error e ↔ x = .error e := by
  cases x <;> simp [Except.map]

theorem isOk_iff : x.isOk = true ↔ ∃ a, x = .ok a := by
  cases x <;> simp [Except.isOk, Except.toBool]

theorem eq_ok_of_toOption {a : α} (h : x.toOption = some a) : x = .ok a := by
  cases x with
  | ok b =>
    cases h
    rfl
  | error e => cases h

/-- Two computations of which the second succeeds with what corresponds to the result of the first,
and the first succeeds if the second does. -/
theorem correspond_of_ok {R : α → α → Prop} {y : Except ε α}
    (h : ∀ {a}, x = .ok a → ∃ b, y = .ok b ∧ R a b) (hback : ∀ {b}, y = .ok b → ∃ a, x = .ok a) :
    ((∃ a, x = .ok a) ↔ ∃ b, y = .ok b) ∧ ∀ a b, x = .ok a → y = .ok b → R a b := by
  refine ⟨⟨?_, ?_⟩, ?_⟩
  · rintro ⟨a, ha⟩
    obtain ⟨b, hb, -⟩ := h ha
    exact ⟨b, hb⟩
  · rintro ⟨b, hb⟩
    exact hback hb
  · intro a b ha hb
    obtain ⟨b', hb', hab⟩ := h ha
    rw [hb] at hb'
    rwa [Except.ok.inj hb']

/-! ## Lists -/

/-- A computation over a list succeeds if it does on every member. -/
theorem mapM_eq_ok_iff {as : List α} {bs : List β} :
    as.mapM f = .ok bs ↔ List.Forall₂ (fun a b => f a = .ok b) as bs := by
  induction as generalizing bs with
  | nil =>
    rw [List.mapM_nil, List.forall₂_nil_left_iff]
    exact ⟨fun h => by cases h; rfl, by rintro rfl; rfl⟩
  | cons a as ih =>
    rw [List.mapM_cons, bind_eq_ok_iff, List.forall₂_cons_left_iff]
    refine exists_congr fun b => ?_
    rw [bind_eq_ok_iff, ← exists_and_left]
    refine exists_congr fun bs' => and_congr_right fun _ => ?_
    rw [ih]
    exact and_congr_right fun _ => ⟨fun h => by cases h; rfl, by rintro rfl; rfl⟩

theorem exists_of_mem_mapM {as : List α} {bs : List β} (h : as.mapM f = .ok bs) {b : β}
    (hb : b ∈ bs) : ∃ a ∈ as, f a = .ok b := by
  rw [mapM_eq_ok_iff] at h
  induction h with
  | nil => cases hb
  | cons hab _ ih =>
    rcases List.mem_cons.1 hb with rfl | hb
    · exact ⟨_, List.mem_cons_self, hab⟩
    · obtain ⟨a, ha, hfa⟩ := ih hb
      exact ⟨a, List.mem_cons_of_mem _ ha, hfa⟩

/-- Where a computation undoes a function, it restores every list. -/
theorem mapM_map_eq_ok {g : α → β} {f : β → Except ε α} (as : List α)
    (h : ∀ a ∈ as, f (g a) = .ok a) : (as.map g).mapM f = .ok as := by
  rw [mapM_eq_ok_iff, List.forall₂_map_left_iff, List.forall₂_same]
  exact h

end

/-! ## Results that are checked by evaluation -/

section

variable {ε α : Type} {x : Except ε α} {P : α → Prop}

/-- A computation that succeeds has a result, of which holds what holds of every result. -/
theorem exists_ok_of_isOk (h : x.isOk = true) (hp : ∀ a, x = .ok a → P a) :
    ∃ a, x = .ok a ∧ P a := by
  obtain ⟨a, ha⟩ := isOk_iff.1 h
  exact ⟨a, ha, hp a ha⟩

/-- A computation that succeeds with a result that passes a check has a result, of which holds what
the check implies. -/
theorem exists_ok_of_check {c : α → Bool} (h : x.toOption.any c = true)
    (hp : ∀ a, x = .ok a → c a = true → P a) : ∃ a, x = .ok a ∧ P a := by
  cases x with
  | ok a => exact ⟨a, rfl, hp a rfl h⟩
  | error e => cases h

end

end SplFrontend
