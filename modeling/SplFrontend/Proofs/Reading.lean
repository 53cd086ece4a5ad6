import SplFrontend.Program.Reading

/-!
# What a reading gives

`Gives x a r` says that the outcome `x` is a success with value `a` and rest `r`. The proof of
progress that a success carries is of no interest outside of recursion, so it is hidden here once,
and every combinator of `Reading` is described by what it gives. The readers of single tokens and of
types follow: each of them is characterised by the tokens that it accepts.
-/

namespace SplFrontend

namespace Reading

variable {τ ε α β : Type} {ts us : List τ}

/-- The outcome is a success with this value and this rest. -/
def Gives (x : Reading τ ε α ts) (a : α) (r : List τ) : Prop := ∃ h, x = ok a r h

/-- A success leaves less than it was read from. -/
theorem Gives.length_lt {x : Reading τ ε α ts} {a : α} {r : List τ} (h : x.Gives a r) :
    r.length < ts.length := by
  obtain ⟨h, -⟩ := h
  exact h

@[simp] theorem gives_ok {a b : α} {r s : List τ} {h : r.length < ts.length} :
    (ok a r h : Reading τ ε α ts).Gives b s ↔ a = b ∧ r = s := by
  constructor
  · rintro ⟨_, he⟩
    cases he
    exact ⟨rfl, rfl⟩
  · rintro ⟨rfl, rfl⟩
    exact ⟨h, rfl⟩

@[simp] theorem not_gives_fault {e : ε} {b : α} {r s : List τ} {h : r.length ≤ ts.length} :
    ¬ (fault e r h : Reading τ ε α ts).Gives b s := by
  rintro ⟨_, he⟩
  cases he

/-- An outcome has one value and one rest. -/
theorem Gives.unique {x : Reading τ ε α ts} {a b : α} {r s : List τ} (h : x.Gives a r)
    (h' : x.Gives b s) :
    a = b ∧ r = s := by
  obtain ⟨_, rfl⟩ := h
  exact gives_ok.1 h'

@[simp] theorem gives_take {t : τ} {a b : α} {r : List τ} :
    (take a : Reading τ ε α (t :: ts)).Gives b r ↔ a = b ∧ ts = r := gives_ok

@[simp] theorem not_gives_stay {e : ε} {b : α} {r : List τ} :
    ¬ (stay e : Reading τ ε α ts).Gives b r := not_gives_fault

@[simp] theorem gives_map {x : Reading τ ε α ts} {f : α → β} {b : β} {r : List τ} :
    (x.map f).Gives b r ↔ ∃ a, x.Gives a r ∧ f a = b := by
  cases x with
  | ok a s h =>
    simp only [map, gives_ok]
    constructor
    · rintro ⟨hb, rfl⟩
      exact ⟨a, ⟨rfl, rfl⟩, hb⟩
    · rintro ⟨_, ⟨rfl, rfl⟩, hb⟩
      exact ⟨hb, rfl⟩
  | fault e s h => simp [map]

@[simp] theorem gives_filterMap {x : Reading τ ε α ts} {f : α → Option β} {e : ε} {b : β}
    {r : List τ} :
    (x.filterMap f e).Gives b r ↔ ∃ a, x.Gives a r ∧ f a = some b := by
  cases x with
  | ok a s h =>
    cases hf : f a with
    | none => simp [filterMap, hf]
    | some b' =>
      constructor
      · intro hb
        obtain ⟨rfl, rfl⟩ := gives_ok.1 (by simpa only [filterMap, hf] using hb)
        exact ⟨a, gives_ok.2 ⟨rfl, rfl⟩, hf⟩
      · rintro ⟨a', ha, hb⟩
        obtain ⟨rfl, rfl⟩ := gives_ok.1 ha
        rw [hb] at hf
        cases hf
        simp only [filterMap, hb]
        exact gives_ok.2 ⟨rfl, rfl⟩
  | fault e s h => simp [filterMap]

@[simp] theorem gives_within {h : us.length ≤ ts.length} {x : Reading τ ε α us} {a : α}
    {r : List τ} :
    (x.within h).Gives a r ↔ x.Gives a r := by
  cases x <;> simp [within]

@[simp] theorem gives_under {t : τ} {x : Reading τ ε α ts} {a : α} {r : List τ} :
    (x.under (t := t)).Gives a r ↔ x.Gives a r := gives_within

/-- Reading on gives what the second reader gives on the rest of the first. -/
@[simp] theorem gives_bind {x : Reading τ ε α ts}
    {f : α → (r : List τ) → r.length < ts.length → Reading τ ε β r} {b : β} {r : List τ} :
    (x.bind f).Gives b r ↔ ∃ a s, x.Gives a s ∧ ∃ h, (f a s h).Gives b r := by
  cases x with
  | ok a s h =>
    simp only [bind, gives_within, gives_ok]
    constructor
    · intro hf
      exact ⟨a, s, ⟨rfl, rfl⟩, h, hf⟩
    · rintro ⟨_, _, ⟨rfl, rfl⟩, _, hf⟩
      exact hf
  | fault e s h => simp [bind]

/-- Reading on where nothing may follow gives what follows, or else what was read. -/
theorem gives_extend {x : Reading τ ε α ts}
    {f : α → (r : List τ) → r.length < ts.length → Option (Reading τ ε α r)} {b : α} {r : List τ} :
    (x.extend f).Gives b r ↔ ∃ a s, x.Gives a s ∧ ∃ h,
      (f a s h = none ∧ a = b ∧ s = r) ∨ ∃ y, f a s h = some y ∧ y.Gives b r := by
  cases x with
  | ok a s h =>
    simp only [extend]
    cases hf : f a s h with
    | none =>
      constructor
      · intro hg
        obtain ⟨rfl, rfl⟩ := gives_ok.1 hg
        exact ⟨a, s, gives_ok.2 ⟨rfl, rfl⟩, h, .inl ⟨hf, rfl, rfl⟩⟩
      · rintro ⟨a', s', hx, h', hg⟩
        obtain ⟨rfl, rfl⟩ := gives_ok.1 hx
        rcases hg with ⟨-, rfl, rfl⟩ | ⟨y, hy, -⟩
        · exact gives_ok.2 ⟨rfl, rfl⟩
        · rw [hf] at hy
          cases hy
    | some y =>
      constructor
      · intro hg
        exact ⟨a, s, gives_ok.2 ⟨rfl, rfl⟩, h, .inr ⟨y, hf, gives_within.1 hg⟩⟩
      · rintro ⟨a', s', hx, h', hg⟩
        obtain ⟨rfl, rfl⟩ := gives_ok.1 hx
        rcases hg with ⟨hn, -, -⟩ | ⟨z, hz, hg⟩
        · rw [hf] at hn
          cases hn
        · rw [hf] at hz
          cases hz
          exact gives_within.2 hg
  | fault e s h => simp [extend]

theorem Gives.bind {x : Reading τ ε α ts} {a : α} {s : List τ} {b : β} {r : List τ}
    {f : α → (r : List τ) → r.length < ts.length → Reading τ ε β r} (hx : x.Gives a s)
    (hf : ∀ h, (f a s h).Gives b r) : (x.bind f).Gives b r :=
  gives_bind.2 ⟨a, s, hx, hx.length_lt, hf _⟩

theorem Gives.orElse {x : Reading τ ε α ts} {a : α} {r : List τ} (hx : x.Gives a r)
    (y : Reading τ ε α ts) : (x.orElse y).Gives a r := by
  obtain ⟨h, rfl⟩ := hx
  exact ⟨h, rfl⟩

theorem Gives.of_orElse {x y : Reading τ ε α ts} {a : α} {r : List τ} (h : (x.orElse y).Gives a r) :
    x.Gives a r ∨ y.Gives a r := by
  cases x with
  | ok b s hlt => exact .inl h
  | fault e s hle => exact .inr h

theorem orElse_of_not_gives {x : Reading τ ε α ts} (hx : ∀ a r, ¬ x.Gives a r)
    (y : Reading τ ε α ts) : x.orElse y = y := by
  cases x with
  | ok a r h => exact absurd ⟨h, rfl⟩ (hx a r)
  | fault e r h => rfl

theorem Gives.extend_none {x : Reading τ ε α ts} {a : α} {s : List τ}
    {f : α → (r : List τ) → r.length < ts.length → Option (Reading τ ε α r)} (hx : x.Gives a s)
    (hf : ∀ h, f a s h = none) : (x.extend f).Gives a s :=
  gives_extend.2 ⟨a, s, hx, hx.length_lt, .inl ⟨hf _, rfl, rfl⟩⟩

theorem Gives.extend_some {x : Reading τ ε α ts} {a b : α} {s r : List τ}
    {f : α → (r : List τ) → r.length < ts.length → Option (Reading τ ε α r)} (hx : x.Gives a s)
    (hf : ∀ h, ∃ y, f a s h = some y ∧ y.Gives b r) : (x.extend f).Gives b r :=
  gives_extend.2 ⟨a, s, hx, hx.length_lt, .inr (hf _)⟩

end Reading

open Reading TokenReading

/-! ## Single tokens -/

namespace TokenReading

variable {stop : Loc} {ts r : List Token}

@[simp] theorem not_gives_leave {α : Type} {f : Fault} {a : α} :
    ¬ (leave stop f : TokenReading α ts).Gives a r := not_gives_stay

@[simp] theorem not_gives_skip {α : Type} {f : Fault} {a : α} :
    ¬ (skip stop f : TokenReading α ts).Gives a r := not_gives_fault

/-- The reader of a given kind accepts that kind only. -/
@[simp] theorem gives_expect {k : Kind} {u : Unit} :
    (expect stop k ts).Gives u r ↔ ∃ l, ts = ⟨k, l⟩ :: r := by
  cases ts with
  | nil => simp [expect]
  | cons t ts =>
    obtain ⟨k', l⟩ := t
    simp only [expect]
    split
    · next h =>
      subst h
      simp
    · next h =>
      simp only [not_gives_leave, List.cons.injEq, Token.mk.injEq, false_iff]
      rintro ⟨l', ⟨rfl, -⟩, -⟩
      exact h rfl

/-- The reader of an identifier accepts identifiers only. -/
@[simp] theorem gives_ident {n : String} :
    (ident stop ts).Gives n r ↔ ∃ l, ts = ⟨.ident n, l⟩ :: r := by
  unfold ident
  split
  · simp only [gives_take, List.cons.injEq, Token.mk.injEq, Kind.ident.injEq]
    constructor
    · rintro ⟨rfl, rfl⟩
      exact ⟨_, ⟨rfl, rfl⟩, rfl⟩
    · rintro ⟨_, ⟨rfl, -⟩, rfl⟩
      exact ⟨rfl, rfl⟩
  · next h =>
    simp only [not_gives_skip, false_iff, not_exists]
    rintro l rfl
    exact h _ _ _ rfl

/-- The reader of an operator accepts operators only. -/
@[simp] theorem gives_operator {n : String} :
    (operator stop ts).Gives n r ↔ ∃ l, ts = ⟨.op n, l⟩ :: r := by
  unfold operator
  split
  · simp only [gives_take, List.cons.injEq, Token.mk.injEq, Kind.op.injEq]
    constructor
    · rintro ⟨rfl, rfl⟩
      exact ⟨_, ⟨rfl, rfl⟩, rfl⟩
    · rintro ⟨_, ⟨rfl, -⟩, rfl⟩
      exact ⟨rfl, rfl⟩
  · next h =>
    simp only [not_gives_skip, false_iff, not_exists]
    rintro l rfl
    exact h _ _ _ rfl

end TokenReading

end SplFrontend
