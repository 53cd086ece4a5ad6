import SplFrontend.Diagnostic

/-!
# Computations with reports

What a computation answers and what it reports, step by step, and the relation between two
computations that report the same codes.
-/

namespace SplFrontend.Noted

variable {α β γ δ : Type}

@[simp] theorem value_map (f : α → β) (x : Noted α) : (f <$> x).value = f x.value :=
  rfl

@[simp] theorem notes_map (f : α → β) (x : Noted α) : (f <$> x).notes = x.notes :=
  List.append_nil _

theorem bind_of_pure {x : Noted α} {a : α} (h : x = pure a) (f : α → Noted β) : x >>= f = f a := by
  subst h
  rfl

theorem pure_inj {a b : α} : (pure a : Noted α) = pure b ↔ a = b :=
  ⟨congrArg value, congrArg pure⟩

/-- A computation in steps reports nothing if no step does. -/
theorem bind_eq_pure_iff {x : Noted α} {f : α → Noted β} {b : β} :
    x >>= f = pure b ↔ ∃ a, x = pure a ∧ f a = pure b := by
  constructor
  · intro h
    have hvalue : (f x.value).value = b := congrArg value h
    have hnotes := congrArg notes h
    rw [notes_bind, notes_pure, List.append_eq_nil_iff] at hnotes
    exact ⟨x.value, Noted.ext rfl hnotes.1, Noted.ext hvalue hnotes.2⟩
  · rintro ⟨a, rfl, hf⟩
    exact hf

/-- The reports of a computation in steps are those of its steps. -/
theorem forall_notes_bind {P : Diagnostic → Prop} {x : Noted α} {f : α → Noted β} :
    (∀ d ∈ (x >>= f).notes, P d) ↔ (∀ d ∈ x.notes, P d) ∧ ∀ d ∈ (f x.value).notes, P d := by
  rw [Noted.notes_bind, List.forall_mem_append]

/-- A report made only under a condition does not change the value. -/
theorem value_note_if (c : Prop) [Decidable c] (d : Diagnostic) (x : Noted α) :
    (if c then Noted.note d >>= fun _ => x else x).value = x.value := by
  split <;> rfl

theorem notes_note_if (c : Prop) [Decidable c] (d : Diagnostic) (x : Noted α) :
    (if c then Noted.note d >>= fun _ => x else x).notes = (if c then [d] else []) ++ x.notes := by
  split <;> rfl

theorem value_mapM (f : α → Noted β) (l : List α) :
    (l.mapM f).value = l.map fun a => (f a).value := by
  induction l with
  | nil => rfl
  | cons a l ih => simp [ih]

theorem mapM_of_pure {f : α → Noted α} {l : List α} (h : ∀ a ∈ l, f a = pure a) :
    l.mapM f = pure l := by
  induction l with
  | nil => rfl
  | cons a l ih =>
    rw [List.forall_mem_cons] at h
    rw [List.mapM_cons, h.1, ih h.2]
    rfl

theorem notes_mapM (f : α → Noted β) (l : List α) :
    (l.mapM f).notes = l.flatMap fun a => (f a).notes := by
  induction l with
  | nil => rfl
  | cons a l ih => simp [ih]


/-! ## Computations that report the same -/

/-- Two computations with related values that report the same codes in the same order. -/
structure Alike (R : α → β → Prop) (x : Noted α) (y : Noted β) : Prop where
  value : R x.value y.value
  codes : x.notes.map Diagnostic.code = y.notes.map Diagnostic.code

namespace Alike

variable {R : α → β → Prop} {S : γ → δ → Prop}

protected theorem pure {a : α} {b : β} (h : R a b) : Alike R (pure a) (pure b) := ⟨h, rfl⟩

protected theorem bind {x : Noted α} {y : Noted β} {f : α → Noted γ} {g : β → Noted δ}
    (hx : Alike R x y) (hf : ∀ {a b}, R a b → Alike S (f a) (g b)) :
    Alike S (x >>= f) (y >>= g) := by
  have h := hf hx.value
  refine ⟨h.value, ?_⟩
  rw [notes_bind, notes_bind, List.map_append, List.map_append, hx.codes, h.codes]

/-- Both report a code and go on. -/
theorem note_bind {d e : Diagnostic} {x : Noted α} {y : Noted β} (hd : d.code = e.code)
    (h : Alike R x y) : Alike R (note d >>= fun _ => x) (note e >>= fun _ => y) :=
  ⟨h.value, by simp [note, hd, h.codes]⟩

theorem mono {R' : α → β → Prop} {x : Noted α} {y : Noted β} (h : Alike R x y)
    (hr : R x.value y.value → R' x.value y.value) : Alike R' x y := ⟨hr h.value, h.codes⟩

theorem foldlM {ι : Type} {f : α → ι → Noted α} {g : β → ι → Noted β} : ∀ {l : List ι},
    (∀ i ∈ l, ∀ {a b}, R a b → Alike R (f a i) (g b i)) → ∀ {a : α} {b : β}, R a b →
    Alike R (l.foldlM f a) (l.foldlM g b)
  | [], _, _, _, h => .pure h
  | i :: l, step, a, b, h => by
    rw [List.foldlM_cons, List.foldlM_cons]
    exact (step i List.mem_cons_self h).bind fun hr =>
      foldlM (fun j hj => step j (List.mem_cons_of_mem _ hj)) hr

end Alike

end SplFrontend.Noted
