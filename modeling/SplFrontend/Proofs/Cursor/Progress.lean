import SplFrontend.Proofs.Cursor

/-!
# Progress

Every reader by position comes to an end and stays inside of a list of tokens that ends in an end of
input. A reader that succeeds has moved on: it has taken a token, and no end of input is ever taken
by a success, so that there is a token behind it. Hence a loop that goes on does so from further on,
and the recursions of the grammar end, since a reader calls itself only behind a token that it has
taken. To come to an end is to have an outcome at some depth, which deeper calls leave as it is.
-/

namespace SplFrontend.Cursor

variable {α β σ : Type} {i : Input} {n m p q : Nat}

/-! ## Outcomes -/

theorem readers_below (n : Nat) : (readers n).Below (readers (n + 1)) := by
  induction n with
  | zero => exact ⟨nofun, nofun, nofun, nofun⟩
  | succ n ih =>
    exact ⟨tyStep.mono ih, exprStep.mono ih, unaryStep.mono ih,
      fun l s => (l.turn s >>= l.goOn).mono ih⟩

/-- An outcome does not change as the readers call each other deeper. -/
theorem run_of_le {x : Cursor α} {o : Except Overrun (Except Diagnostic α × Nat)} (hnm : n ≤ m)
    (h : x.run (readers n) i p = some o) : x.run (readers m) i p = some o := by
  induction hnm with
  | refl => exact h
  | step _ ih => exact x.mono (readers_below _) i p o ih

/-- From the position the reader comes to this outcome, at that position. -/
def Gives (x : Cursor α) (i : Input) (p : Nat) (r : Except Diagnostic α) (q : Nat) : Prop :=
  ∃ n, x.run (readers n) i p = some (.ok (r, q))

namespace Gives

variable {x : Cursor α} {f : α → Cursor β} {a : α} {r : Except Diagnostic α}

/-- No other outcome comes at any depth, and no read outside of the list. -/
theorem unique {o : Except Overrun (Except Diagnostic α × Nat)} (h : x.Gives i p r q)
    (ho : x.run (readers n) i p = some o) : o = .ok (r, q) := by
  obtain ⟨m, hm⟩ := h
  have heq := run_of_le (Nat.le_max_left n m) ho
  rw [run_of_le (Nat.le_max_right n m) hm] at heq
  exact (Option.some.inj heq).symm

theorem pure : (Pure.pure a : Cursor α).Gives i p (.ok a) p := ⟨0, rfl⟩

theorem throw {d : Diagnostic} : (throw d : Cursor α).Gives i p (.error d) p := ⟨0, rfl⟩

theorem bind {r : Except Diagnostic β} {q' : Nat} (hx : x.Gives i p (.ok a) q)
    (hf : (f a).Gives i q r q') : (x >>= f).Gives i p r q' := by
  obtain ⟨n, hn⟩ := hx
  obtain ⟨m, hm⟩ := hf
  refine ⟨max n m, ?_⟩
  rw [run_bind, Course.bind, run_of_le (Nat.le_max_left n m) hn]
  exact run_of_le (Nat.le_max_right n m) hm

theorem bind_error {d : Diagnostic} (h : x.Gives i p (.error d) q) :
    (x >>= f).Gives i p (.error d) q := by
  obtain ⟨n, hn⟩ := h
  refine ⟨n, ?_⟩
  rw [run_bind, Course.bind, hn]

end Gives

/-- What the second reader comes to, the first one comes to as well. -/
def Unfolds (x y : Cursor α) : Prop := ∀ ⦃i p r q⦄, y.Gives i p r q → x.Gives i p r q

/-- A reader that calls another comes to what that one comes to one level less deep. -/
theorem unfolds_of_next {x y : Cursor α} (h : ∀ r : Readers, x.run r.next = y.run r) :
    Unfolds x y := by
  rintro i p r q ⟨n, hn⟩
  exact ⟨n + 1, (congrFun (congrFun (h (readers n)) i) p).trans hn⟩

theorem unfolds_ty : Unfolds ty tyStep := unfolds_of_next fun _ => rfl

theorem unfolds_expr : Unfolds expr exprStep := unfolds_of_next fun _ => rfl

theorem unfolds_unary : Unfolds unary unaryStep := unfolds_of_next fun _ => rfl

theorem unfolds_loop (l : Loop) (s : l.State) :
    Unfolds (loop l s) (l.turn s >>= l.goOn) := unfolds_of_next fun _ => rfl

theorem Unfolds.bind {x y : Cursor α} {f : α → Cursor β} (h : Unfolds x y) :
    Unfolds (x >>= f) (y >>= f) := by
  rintro i p r q ⟨n, hn⟩
  rw [run_bind, Course.bind] at hn
  cases hv : y.run (readers n) i p with
  | none =>
    rw [hv] at hn
    cases hn
  | some v =>
    rw [hv] at hn
    rcases v with e | ⟨d | a, q'⟩
    · cases hn
    · cases hn
      exact (h ⟨n, hv⟩).bind_error
    · exact (h ⟨n, hv⟩).bind ⟨n, hn⟩

/-- The tokens end in an end of input. -/
def Input.Closed (i : Input) : Prop := ∃ stop, i.tokens.getLast? = some ⟨.eof, stop⟩

/-- Behind a token that is no end of input there is another token. -/
theorem Input.Closed.succ_lt (hi : i.Closed) {t : RawToken} (ht : i.tokens[p]? = some t)
    (hkind : t.kind ≠ .eof) : p + 1 < i.tokens.length := by
  obtain ⟨stop, hstop⟩ := hi
  obtain ⟨hp, rfl⟩ := List.getElem?_eq_some_iff.1 ht
  apply Nat.lt_of_not_le
  intro hlast
  have hp' : i.tokens.length - 1 = p := by omega
  rw [List.getLast?_eq_getElem?, hp', ht] at hstop
  exact hkind (congrArg RawToken.kind (Option.some.inj hstop))

/-! ## Runs -/

/-- The reader comes to an end inside of the tokens, and not before the position. It fails only if
it may, and the value that it gives is as told. -/
def Runs (i : Input) (mayFail : Prop) (x : Cursor α) (p : Nat) (Q : α → Nat → Prop) : Prop :=
  ∃ r q, x.Gives i p r q ∧ p ≤ q ∧ q < i.tokens.length ∧ (∀ d, r = .error d → mayFail) ∧
    ∀ a, r = .ok a → Q a q

/-- The reader comes to an end, and has moved if it gives a value. -/
def Advances (i : Input) (x : Cursor α) (p : Nat) : Prop := Runs i True x p fun _ q => p < q

/-- The reader comes to an end. -/
def Stays (i : Input) (x : Cursor α) (p : Nat) : Prop := Runs i True x p fun _ _ => True

/-- The turn comes to an end, and has moved if the loop goes on. If not, the loop ends as told. -/
def Turns (i : Input) (mayFail : Prop) (x : Cursor (Turn σ)) (p : Nat) (Q : σ → Nat → Prop) :
    Prop :=
  Runs i mayFail x p fun t q =>
    match t with
    | .again _ => p < q
    | .done s => Q s q

/-- The reader advances wherever it begins from the position on. -/
def Progressive (i : Input) (n : Nat) (x : Cursor α) : Prop :=
  ∀ p, n ≤ p → p < i.tokens.length → Advances i x p

/-- The reader comes to an end wherever it begins from the position on. -/
def Steady (i : Input) (n : Nat) (x : Cursor α) : Prop :=
  ∀ p, n ≤ p → p < i.tokens.length → Stays i x p

section

variable {F : Prop} {Q R : α → Nat → Prop} {S : β → Nat → Prop} {x : Cursor α} {f : α → Cursor β}

namespace Runs

theorem mono (h : Runs i F x p Q) (hQ : ∀ a q, p ≤ q → Q a q → R a q) : Runs i F x p R := by
  obtain ⟨r, q, hx, hpq, hq, hfail, hok⟩ := h
  exact ⟨r, q, hx, hpq, hq, hfail, fun a ha => hQ a q hpq (hok a ha)⟩

theorem bind (h : Runs i F x p Q)
    (hf : ∀ a q, p ≤ q → q < i.tokens.length → Q a q → Runs i F (f a) q S) :
    Runs i F (x >>= f) p S := by
  obtain ⟨r, q, hx, hpq, hq, hfail, hok⟩ := h
  cases r with
  | error d => exact ⟨.error d, q, hx.bind_error, hpq, hq, fun d' _ => hfail d rfl, nofun⟩
  | ok a =>
    obtain ⟨r, q', hy, hqq', hq', hfail', hok'⟩ := hf a q hpq hq (hok a rfl)
    exact ⟨r, q', hx.bind hy, Nat.le_trans hpq hqq', hq', hfail', hok'⟩

/-- After a reader that only looks. -/
theorem after {a : α} (hx : x.Gives i p (.ok a) p) (h : Runs i F (f a) p S) :
    Runs i F (x >>= f) p S := by
  obtain ⟨r, q, hf, hq⟩ := h
  exact ⟨r, q, hx.bind hf, hq⟩

theorem unfold {y : Cursor α} (hxy : Unfolds x y) (h : Runs i F y p Q) : Runs i F x p Q := by
  obtain ⟨r, q, hy, hq⟩ := h
  exact ⟨r, q, hxy hy, hq⟩

theorem pure {a : α} (hp : p < i.tokens.length) (h : Q a p) : Runs i F (pure a) p Q :=
  ⟨.ok a, p, .pure, Nat.le_refl _, hp, nofun, fun _ hb => by cases hb; exact h⟩

theorem throw {d : Diagnostic} (hp : p < i.tokens.length) : Runs i True (throw d : Cursor α) p Q :=
  ⟨.error d, p, .throw, Nat.le_refl _, hp, fun _ _ => trivial, nofun⟩

end Runs

/-- What comes to an end behind a position has moved from there. -/
theorem Stays.behind (h : Stays i x q) (hpq : p < q) : Runs i True x q fun _ q' => p < q' :=
  h.mono fun _ _ hle _ => Nat.lt_of_lt_of_le hpq hle

namespace Advances

theorem stays (h : Advances i x p) : Stays i x p := h.mono fun _ _ _ _ => trivial

/-- What has moved from a position has moved from those before it. -/
theorem before (h : Advances i x q) (hpq : p ≤ q) : Runs i True x q fun _ q' => p < q' :=
  h.mono fun _ _ _ hlt => Nat.lt_of_le_of_lt hpq hlt

/-- What follows a reader that advances need not move. -/
theorem bind (hx : Advances i x p) (hf : ∀ a, Steady i (p + 1) (f a)) : Advances i (x >>= f) p :=
  Runs.bind hx fun a q _ hq hpq => (hf a q hpq hq).behind hpq

/-- A turn that advances in any case is one. -/
theorem turns {x : Cursor (Turn σ)} (h : Advances i x p) :
    Turns i True x p fun _ _ => True := by
  refine Runs.mono h fun t q _ hpq => ?_
  cases t with
  | again s => exact hpq
  | done b => trivial

end Advances

namespace Steady

theorem pure {a : α} : Steady i n (pure a) := fun _ _ hp => Runs.pure hp trivial

theorem throw {d : Diagnostic} : Steady i n (throw d : Cursor α) := fun _ _ hp => Runs.throw hp

theorem bind (hx : Steady i n x) (hf : ∀ a, Steady i n (f a)) : Steady i n (x >>= f) :=
  fun p hn hp => Runs.bind (hx p hn hp) fun a q hpq hq _ => hf a q (Nat.le_trans hn hpq) hq

theorem map (hx : Steady i n x) {g : α → β} : Steady i n (x >>= fun a => Pure.pure (g a)) :=
  hx.bind fun _ => pure

/-- It is enough that one of two readers moves. -/
theorem bind_progressive (hx : Steady i n x) (hf : ∀ a, Progressive i n (f a)) :
    Progressive i n (x >>= f) :=
  fun p hn hp => Runs.bind (hx p hn hp) fun a q hpq hq _ =>
    (hf a q (Nat.le_trans hn hpq) hq).before hpq

end Steady

namespace Progressive

theorem steady (hx : Progressive i n x) : Steady i n x := fun p hn hp => (hx p hn hp).stays

theorem bind (hx : Progressive i n x) (hf : ∀ a, Steady i n (f a)) : Progressive i n (x >>= f) :=
  fun p hn hp => Runs.bind (hx p hn hp) fun a q hpq hq hlt =>
    (hf a q (Nat.le_trans hn hpq) hq).behind hlt

theorem map (hx : Progressive i n x) {g : α → β} : Progressive i n (x >>= fun a => pure (g a)) :=
  hx.bind fun _ => .pure

theorem here (hx : Progressive i p x) (hp : p < i.tokens.length) : Advances i x p :=
  hx p (Nat.le_refl p) hp

end Progressive

end

/-! ## Single tokens -/

section

variable {t : RawToken} (ht : i.tokens[p]? = some t)

include ht

theorem token_gives : token.Gives i p (.ok t) p := by
  refine ⟨0, ?_⟩
  unfold token ofCourse
  simp only [ht]

theorem advance_gives :
    advance.Gives i p (.ok t) (if p + 1 < i.tokens.length then p + 1 else p) := by
  refine ⟨0, ?_⟩
  unfold advance ofCourse
  simp only [ht]

theorem here_gives : here.Gives i p (.ok t.loc) p := (token_gives ht).bind .pure

theorem check_gives (k : Kind) : (check k).Gives i p (.ok (decide (t.kind = .kind k))) p :=
  (token_gives ht).bind .pure

theorem isAtEnd_gives : isAtEnd.Gives i p (.ok (decide (t.kind = .eof))) p :=
  (token_gives ht).bind .pure

end

theorem secondIs_gives (k : Kind) :
    (secondIs k).Gives i p (.ok ((i.tokens[p + 1]?).any (·.kind = .kind k))) p := ⟨0, rfl⟩

theorem position_gives : position.Gives i p (.ok p) p := ⟨0, rfl⟩

/-- The outcome of a reader as a value is given in any case. -/
theorem Gives.attempt {x : Cursor α} {r : Except Diagnostic α} (h : x.Gives i p r q) :
    (attempt x).Gives i p (.ok r) q := by
  obtain ⟨n, hn⟩ := h
  exact ⟨n, Option.map_eq_some_iff.2 ⟨_, hn, rfl⟩⟩

theorem runs_attempt {F : Prop} {x : Cursor α} (h : Stays i x p) :
    Runs i F (attempt x) p fun _ _ => True := by
  obtain ⟨r, q, hx, hpq, hq, -⟩ := h
  exact ⟨.ok r, q, hx.attempt, hpq, hq, nofun, fun _ _ => trivial⟩

theorem steady_here : Steady i n here :=
  fun _ _ hp => .after (token_gives (List.getElem?_eq_getElem hp)) (.pure hp trivial)

theorem steady_check (k : Kind) : Steady i n (check k) :=
  fun _ _ hp => .after (token_gives (List.getElem?_eq_getElem hp)) (.pure hp trivial)

section

variable {F : Prop} (hp : p < i.tokens.length)

include hp

theorem runs_token {f : RawToken → Cursor α} {Q : α → Nat → Prop}
    (h : Runs i F (f i.tokens[p]) p Q) : Runs i F (token >>= f) p Q :=
  .after (token_gives (List.getElem?_eq_getElem hp)) h

theorem runs_advance : Runs i F advance p fun t _ => t = i.tokens[p] := by
  refine ⟨_, _, advance_gives (List.getElem?_eq_getElem hp), ?_, ?_, nofun, fun a ha => ?_⟩
  · split <;> omega
  · split
    · assumption
    · exact hp
  · cases ha
    rfl

variable (hi : i.Closed)

include hi

/-- Taking a token that is no end of input moves the position. -/
theorem runs_take (hkind : i.tokens[p].kind ≠ .eof) : Runs i F advance p fun _ q => p < q := by
  have ht := List.getElem?_eq_getElem hp
  have hlt := hi.succ_lt ht hkind
  refine ⟨_, _, advance_gives ht, ?_, ?_, nofun, fun a ha => ?_⟩ <;> rw [if_pos hlt]
  · omega
  · exact hlt
  · exact Nat.lt_succ_self p

theorem advances_take {f : RawToken → Cursor α} (hkind : i.tokens[p].kind ≠ .eof)
    (hf : ∀ t, Steady i (p + 1) (f t)) : Advances i (advance >>= f) p :=
  (runs_take hp hi hkind).bind fun t q _ hq hpq => (hf t q hpq hq).behind hpq

/-- A reader that takes a token first has moved, unless it refuses an end of input. -/
theorem advances_of_advance {f : RawToken → Cursor α}
    (heof : ∀ t : RawToken, t.kind = .eof → ∃ d, f t = throw d)
    (hf : ∀ t, Steady i (p + 1) (f t)) : Advances i (advance >>= f) p := by
  by_cases hkind : i.tokens[p].kind = .eof
  · refine (runs_advance hp).bind fun t q _ hq ht => ?_
    obtain ⟨d, hd⟩ := heof t (ht ▸ hkind)
    rw [hd]
    exact Runs.throw hq
  · exact advances_take hp hi hkind hf

theorem runs_accept (k : Kind) : Runs i F (accept k) p fun b q => b = true → p < q := by
  refine Runs.after (check_gives (List.getElem?_eq_getElem hp) k) ?_
  split
  · next hk =>
    refine (runs_take hp hi (by simp [of_decide_eq_true hk])).bind fun _ q _ hq hpq => ?_
    exact Runs.pure hq fun _ => hpq
  · exact Runs.pure hp nofun

end

variable (hi : i.Closed)

include hi

theorem steady_accept (k : Kind) : Steady i n (accept k) :=
  fun _ _ hp => (runs_accept hp hi k).mono fun _ _ _ _ => trivial

/-- A reader that takes a token, if it is there, has moved if it moves without it. -/
theorem progressive_accept {k : Kind} {f : Bool → Cursor α} (hf : ∀ b, Steady i n (f b))
    (hfalse : Progressive i n (f false)) : Progressive i n (accept k >>= f) := by
  intro p hn hp
  refine (runs_accept hp hi k).bind fun b q hpq hq hb => ?_
  cases b with
  | true => exact (hf true q (Nat.le_trans hn hpq) hq).behind (hb rfl)
  | false => exact (hfalse q (Nat.le_trans hn hpq) hq).before hpq

theorem progressive_expect (k : Kind) : Progressive i n (expect k) := by
  intro p _ hp
  refine runs_token hp ?_
  split
  · next hk => exact advances_take hp hi (by simp [hk]) fun _ => .pure
  · exact Runs.throw hp

theorem steady_expect (k : Kind) : Steady i n (expect k) := (progressive_expect hi k).steady

theorem progressive_ident : Progressive i n ident := by
  refine fun p _ hp => advances_of_advance hp hi (fun t ht => ⟨_, by rw [ht]⟩) fun t => ?_
  split
  · exact .pure
  · exact .throw

theorem progressive_operator : Progressive i n operator := by
  refine fun p _ hp => advances_of_advance hp hi (fun t ht => ⟨_, by rw [ht]⟩) fun t => ?_
  split
  · exact .pure
  · exact .throw

theorem progressive_precedence : Progressive i n precedence := by
  refine fun p _ hp => advances_of_advance hp hi (fun t ht => ⟨_, by rw [ht]⟩) fun t => ?_
  split
  · split
    · exact .pure
    · exact .throw
  · exact .throw
  · exact .throw

omit hi

/-! ## Recursion and loops -/

/-- What holds of a position if it holds of all positions behind it holds of all positions. -/
theorem induction_behind {motive : Nat → Prop} {n : Nat}
    (step : ∀ p, p < n → (∀ q, p < q → q < n → motive q) → motive p) (p : Nat) (hp : p < n) :
    motive p := by
  induction hk : n - p using Nat.strongRecOn generalizing p with
  | ind k ih => exact step p hp fun q hpq hq => ih (n - q) (by omega) q hq rfl

section

variable {F : Prop} {l : Loop} {Q : l.State → Nat → Prop}

/-- A loop runs if its turn does, and if it does itself from further on. -/
theorem runs_loop_of_behind {s : l.State} (hturn : Turns i F (l.turn s) p Q)
    (ih : ∀ s q, p < q → q < i.tokens.length → Runs i F (loop l s) q Q) :
    Runs i F (loop l s) p Q := by
  refine .unfold (unfolds_loop l s) (hturn.bind fun t q _ hq ht => ?_)
  cases t with
  | again s => exact ih s q ht hq
  | done b => exact Runs.pure hq ht

/-- A loop whose turns come to an end does so itself. -/
theorem runs_loop (hturn : ∀ s p, p < i.tokens.length → Turns i F (l.turn s) p Q) (s : l.State)
    (hp : p < i.tokens.length) : Runs i F (loop l s) p Q := by
  refine induction_behind (motive := fun p => ∀ s, Runs i F (loop l s) p Q)
    (fun p hp ih s => ?_) p hp s
  exact runs_loop_of_behind (hturn s p hp) fun s q hpq hq => ih q hpq hq s

theorem steady_loop (l : Loop)
    (hturn : ∀ s p, p < i.tokens.length → Turns i True (l.turn s) p fun _ _ => True)
    (s : l.State) : Steady i n (loop l s) :=
  fun _ _ hp => runs_loop hturn s hp

end

/-! ## Types -/

include hi

theorem progressive_ty : Progressive i n ty := by
  refine fun p _ hp => induction_behind (fun p hp ih => ?_) p hp
  have hty : Steady i (p + 1) ty := fun q hpq hq => (ih q hpq hq).stays
  refine .unfold unfolds_ty (advances_of_advance hp hi (fun t ht => ⟨_, by rw [ht]⟩) fun t => ?_)
  split
  · exact .pure
  · refine hty.bind fun _ => (steady_expect hi _).bind fun _ => ?_
    exact hty.bind fun _ => (steady_expect hi _).map
  · exact hty.bind fun _ => (steady_expect hi _).map
  · exact .throw

theorem turns_types (params : List Ty) (hp : p < i.tokens.length) :
    Turns i True (typesTurn params) p fun _ _ => True := by
  have ht := List.getElem?_eq_getElem hp
  refine Runs.after (check_gives ht _) (Runs.after (isAtEnd_gives ht) ?_)
  split
  · exact Runs.pure hp trivial
  · refine Runs.bind ((progressive_ty hi).here hp) fun a q _ hq hlt => ?_
    exact Runs.pure hq hlt

theorem progressive_signature : Progressive i n signature := by
  refine (steady_loop .types (fun s _ hp => turns_types hi s hp) _).bind_progressive fun _ => ?_
  exact (progressive_expect hi _).bind fun _ => (progressive_ty hi).steady.map

/-! ## Expressions -/

theorem turns_accessors (fields : List Accessor) (hp : p < i.tokens.length) :
    Turns i True (accessorsTurn fields) p fun _ _ => True := by
  refine runs_token hp ?_
  split
  · next hk => exact (runs_take hp hi (by simp [hk])).bind fun _ q _ hq hpq => Runs.pure hq hpq
  · exact Runs.pure hp trivial

theorem progressive_var : Progressive i n var := by
  refine steady_here.bind_progressive fun _ => (progressive_ident hi).bind fun _ => ?_
  exact (steady_loop .accessors (fun s _ hp => turns_accessors hi s hp) _).map

theorem progressive_literal : Progressive i n literal := by
  intro p _ hp
  refine runs_token hp ?_
  split
  case h_1 hk | h_3 hk | h_4 hk | h_5 hk =>
    exact advances_take hp hi (by simp [hk]) fun _ => .pure
  case h_2 hk =>
    refine advances_take hp hi (by simp [hk]) fun _ q _ hq => ?_
    exact ⟨_, q, ⟨0, rfl⟩, Nat.le_refl q, hq, fun _ _ => trivial, fun _ _ => trivial⟩
  case h_6 => exact Runs.throw hp

/-- The readers of expressions come to an end from the position. -/
structure ExprRuns (i : Input) (p : Nat) : Prop where
  expr : Advances i expr p
  unary : Advances i unary p
  operatorsTurn : ∀ rest, Turns i True (operatorsTurn rest) p fun _ _ => True
  operators : ∀ rest, Stays i (loop .operators rest) p
  argumentsTurn : ∀ args, Advances i (argumentsTurn args) p
  arguments : ∀ args, Stays i (loop .arguments args) p

section

variable (ih : ∀ q, p < q → q < i.tokens.length → ExprRuns i q) (hp : p < i.tokens.length)

include ih hp

theorem advances_call_of_behind : Advances i call p := by
  have harguments : Steady i (p + 1) (loop .arguments []) :=
    fun q hpq hq => (ih q hpq hq).arguments []
  refine Runs.after (here_gives (List.getElem?_eq_getElem hp)) ?_
  refine ((progressive_ident hi).here hp).bind fun _ => (steady_expect hi _).bind fun _ => ?_
  refine (steady_check _).bind fun b => ?_
  split
  · exact (steady_expect hi _).map
  · exact harguments.bind fun _ => (steady_expect hi _).map

theorem advances_atom_of_behind : Advances i atom p := by
  have hexpr : Steady i (p + 1) expr := fun q hpq hq => (ih q hpq hq).expr.stays
  refine runs_token hp ?_
  split
  case h_1 hk => exact advances_take hp hi (by simp [hk]) fun _ => (steady_expect hi _).map
  case h_2 hk =>
    refine advances_take hp hi (by simp [hk]) fun _ => hexpr.bind fun _ => ?_
    refine (steady_accept hi _).bind fun b => ?_
    split
    · exact hexpr.bind fun _ => (steady_expect hi _).map
    · exact (steady_expect hi _).map
  case h_3 hk =>
    refine Runs.after (secondIs_gives _) ?_
    split
    · exact advances_call_of_behind hi ih hp
    · exact (progressive_var hi).map.here hp
  case h_4 => exact (progressive_literal hi).here hp

theorem advances_unary_of_behind : Advances i unary p := by
  have hunary : Steady i (p + 1) unary := fun q hpq hq => (ih q hpq hq).unary.stays
  refine .unfold unfolds_unary (runs_token hp ?_)
  split
  · next hk => exact advances_take hp hi (by simp [hk]) fun _ => hunary.map
  · exact advances_atom_of_behind hi ih hp

theorem turns_operators_of_behind (rest : List (OpUse × Expr)) :
    Turns i True (operatorsTurn rest) p fun _ _ => True := by
  have hunary : Steady i (p + 1) unary := fun q hpq hq => (ih q hpq hq).unary.stays
  refine runs_token hp ?_
  split
  · next hk => exact (advances_take hp hi (by simp [hk]) fun _ => hunary.map).turns
  · exact Runs.pure hp trivial

theorem advances_expr_of_behind : Advances i expr p := by
  refine .unfold unfolds_expr (Advances.bind (advances_unary_of_behind hi ih hp) ?_)
  refine fun _ q hpq hq => runs_token hq ?_
  have hoperators : Steady i q (loop .operators []) :=
    fun q' hqq' hq' => (ih q' (Nat.lt_of_lt_of_le hpq hqq') hq').operators []
  split
  · exact hoperators.map q (Nat.le_refl q) hq
  · exact Runs.pure hq trivial

theorem advances_argumentsTurn_of_behind (args : List Expr) :
    Advances i (argumentsTurn args) p := by
  refine (advances_expr_of_behind hi ih hp).bind fun _ => (steady_accept hi _).bind fun b => ?_
  split
  · exact .pure
  · exact .pure

theorem exprRuns_of_behind : ExprRuns i p where
  expr := advances_expr_of_behind hi ih hp
  unary := advances_unary_of_behind hi ih hp
  operatorsTurn := turns_operators_of_behind hi ih hp
  operators rest := runs_loop_of_behind (turns_operators_of_behind hi ih hp rest)
    fun rest q hpq hq => (ih q hpq hq).operators rest
  argumentsTurn := advances_argumentsTurn_of_behind hi ih hp
  arguments args := runs_loop_of_behind
    (advances_argumentsTurn_of_behind hi ih hp args).turns
    fun args q hpq hq => (ih q hpq hq).arguments args

end

/-- The readers of expressions come to an end. -/
theorem exprRuns (hp : p < i.tokens.length) : ExprRuns i p :=
  induction_behind (fun _ hp ih => exprRuns_of_behind hi ih hp) p hp

theorem steady_expr : Steady i n expr := fun _ _ hp => (exprRuns hi hp).expr.stays

theorem progressive_call : Progressive i n call :=
  fun _ _ hp => advances_call_of_behind hi (fun _ _ hq => exprRuns hi hq) hp

theorem progressive_guarded : Progressive i n guarded :=
  (progressive_expect hi _).bind fun _ => (steady_expr hi).bind fun _ => (steady_expect hi _).map

/-! ## Statements -/

theorem progressive_declRest (loc : Loc) (t : Option Ty) : Progressive i n (declRest loc t) := by
  refine (progressive_ident hi).bind fun _ => (steady_expect hi _).bind fun _ => ?_
  exact (steady_expr hi).bind fun _ => (steady_expect hi _).map

theorem progressive_decl : Progressive i n decl := by
  have hrest (loc : Loc) (t : Option Ty) := (progressive_declRest (n := n) hi loc t).steady
  refine steady_here.bind_progressive fun loc => progressive_accept hi (fun b => ?_) ?_
  · split
    · exact hrest _ _
    · exact (progressive_ty hi).steady.bind fun _ => hrest _ _
  · exact (progressive_ty hi).bind fun _ => hrest _ _

theorem progressive_assign : Progressive i n assign := by
  refine steady_here.bind_progressive fun _ => (progressive_var hi).bind fun _ => ?_
  refine (steady_expect hi _).bind fun _ => (steady_expr hi).bind fun _ => ?_
  exact (steady_expect hi _).map

theorem progressive_ret : Progressive i n ret := by
  refine steady_here.bind_progressive fun _ => (progressive_expect hi _).bind fun _ => ?_
  refine (steady_check _).bind fun b => ?_
  split
  · exact (steady_expect hi _).map
  · exact (steady_expr hi).bind fun _ => (steady_expect hi _).map

/-- The readers of statements come to an end from the position. -/
structure StmtRuns (i : Input) (p : Nat) : Prop where
  stmt : Advances i stmt p
  block : Advances i block p
  branchesTurn : ∀ bs, Turns i True (branchesTurn bs) p fun _ _ => True
  branches : ∀ bs, Stays i (loop .branches bs) p
  statementsTurn : ∀ body, Turns i True (statementsTurn body) p fun _ _ => True
  statements : ∀ body, Stays i (loop .statements body) p

section

variable (ih : ∀ q, p < q → q < i.tokens.length → StmtRuns i q) (hp : p < i.tokens.length)

include ih

omit hi in
theorem steady_block_of_behind : Steady i (p + 1) block :=
  fun q hpq hq => (ih q hpq hq).block.stays

theorem steady_branch_of_behind (loc : Loc) : Steady i (p + 1) (branch loc) := by
  exact (progressive_guarded hi).steady.bind fun _ => (steady_block_of_behind ih).map

include hp

theorem advances_block_of_behind : Advances i block p := by
  refine ((progressive_expect hi _).here hp).bind fun _ => ?_
  exact Steady.bind (fun q hpq hq => (ih q hpq hq).statements []) fun _ => (steady_expect hi _).map

theorem advances_cond_of_behind : Advances i cond p := by
  have halternatives (bs : List Branch) : Steady i (p + 1) (alternatives bs) := by
    refine .bind (fun q hpq hq => (ih q hpq hq).branches bs) fun _ => ?_
    refine (steady_accept hi _).bind fun b => ?_
    split
    · exact (steady_block_of_behind ih).map
    · exact .pure
  refine Runs.after (here_gives (List.getElem?_eq_getElem hp)) ?_
  refine ((progressive_expect hi _).here hp).bind fun _ => ?_
  exact (steady_branch_of_behind hi ih _).bind fun b => (halternatives [b]).map

theorem advances_stmt_of_behind : Advances i stmt p := by
  have hblock := steady_block_of_behind ih
  refine runs_token hp ?_
  split
  case h_1 => exact advances_cond_of_behind hi ih hp
  case h_2 =>
    refine ((progressive_expect hi _).here hp).bind fun _ => ?_
    exact (progressive_guarded hi).steady.bind fun _ => hblock.map
  case h_3 =>
    refine ((progressive_expect hi _).here hp).bind fun _ => (steady_expect hi _).bind fun _ => ?_
    refine (progressive_var hi).steady.bind fun _ => (steady_expect hi _).bind fun _ => ?_
    exact (steady_expr hi).bind fun _ => (steady_expect hi _).bind fun _ => hblock.map
  case h_4 => exact (progressive_ret hi).here hp
  case h_5 hk | h_6 hk =>
    exact advances_take hp hi (by simp [hk]) fun _ => (steady_expect hi _).map
  case h_7 =>
    refine Runs.after (secondIs_gives _) ?_
    split
    · exact ((progressive_call hi).here hp).bind fun _ => (steady_expect hi _).map
    · exact (progressive_assign hi).here hp
  case h_8 =>
    split
    · exact (progressive_decl hi).map.here hp
    · exact Runs.throw hp
  case h_9 => exact Runs.throw hp

theorem turns_branches_of_behind (bs : List Branch) :
    Turns i True (branchesTurn bs) p fun _ _ => True := by
  refine runs_token hp ?_
  split
  · next hk =>
    exact (advances_take hp hi (by simp [hk]) fun _ => (steady_branch_of_behind hi ih _).map).turns
  · exact Runs.pure hp trivial

theorem turns_statements_of_behind (body : List Stmt) :
    Turns i True (statementsTurn body) p fun _ _ => True := by
  have ht := List.getElem?_eq_getElem hp
  refine Runs.after (check_gives ht _) (Runs.after (isAtEnd_gives ht) ?_)
  split
  · exact Runs.pure hp trivial
  · exact ((advances_stmt_of_behind hi ih hp).bind fun _ => .pure).turns

theorem stmtRuns_of_behind : StmtRuns i p where
  stmt := advances_stmt_of_behind hi ih hp
  block := advances_block_of_behind hi ih hp
  branchesTurn := turns_branches_of_behind hi ih hp
  branches bs := runs_loop_of_behind (turns_branches_of_behind hi ih hp bs)
    fun bs q hpq hq => (ih q hpq hq).branches bs
  statementsTurn := turns_statements_of_behind hi ih hp
  statements body := runs_loop_of_behind (turns_statements_of_behind hi ih hp body)
    fun body q hpq hq => (ih q hpq hq).statements body

end

/-- The readers of statements come to an end. -/
theorem stmtRuns (hp : p < i.tokens.length) : StmtRuns i p :=
  induction_behind (fun _ hp ih => stmtRuns_of_behind hi ih hp) p hp

/-! ## Declarations -/

theorem progressive_name : Progressive i n name := by
  refine fun p _ hp => advances_of_advance hp hi (fun t ht => ⟨_, by rw [ht]⟩) fun t => ?_
  split
  · exact .pure
  · exact .pure
  · exact .pure
  · exact .throw

theorem progressive_importName : Progressive i n importName := by
  refine steady_here.bind_progressive fun _ => (progressive_name hi).bind fun _ => ?_
  refine (steady_accept hi _).bind fun b => ?_
  split
  · exact (progressive_name hi).steady.map
  · exact .pure

theorem turns_importNames (ns : List ImportName) (hp : p < i.tokens.length) :
    Turns i True (importNamesTurn ns) p fun _ _ => True := by
  refine (runs_accept hp hi _).bind fun b q hpq hq hb => ?_
  split
  · next h =>
    refine Runs.bind ((progressive_importName hi).here hq) fun _ q₁ h₁ hq₁ _ => ?_
    exact Runs.pure hq₁ (Nat.lt_of_lt_of_le (hb h) h₁)
  · exact Runs.pure hq trivial

theorem progressive_importLine : Progressive i n importLine := by
  have hloop := steady_loop (i := i) (n := n) .importNames fun s _ hp => turns_importNames hi s hp
  refine steady_here.bind_progressive fun _ => (progressive_expect hi _).bind fun _ => ?_
  refine (progressive_ident hi).steady.bind fun _ => (steady_accept hi _).bind fun b => ?_
  split
  · exact (steady_expect hi _).map
  · refine (steady_expect hi _).bind fun _ => (progressive_importName hi).steady.bind fun _ => ?_
    exact (hloop _).bind fun _ => (steady_expect hi _).map

theorem progressive_synonym : Progressive i n synonym := by
  have hadvance : Steady i n advance :=
    fun _ _ hp => (runs_advance hp).mono fun _ _ _ _ => trivial
  refine steady_here.bind_progressive fun _ => (progressive_expect hi _).bind fun _ => ?_
  refine hadvance.bind fun t => ?_
  split
  · refine (steady_expect hi _).bind fun _ => (progressive_ty hi).steady.bind fun _ => ?_
    exact (steady_expect hi _).map
  · exact .throw

theorem progressive_infixHead (side : Assoc) : Progressive i n (infixHead side) :=
  (progressive_precedence hi).bind fun _ => (progressive_operator hi).steady.map

theorem progressive_head : Progressive i n head := by
  intro p _ hp
  refine runs_token hp ?_
  split
  case h_1 hk =>
    exact advances_take hp hi (by simp [hk]) fun _ => (progressive_operator hi).steady.map
  case h_2 hk | h_3 hk =>
    exact advances_take hp hi (by simp [hk]) fun _ => (progressive_infixHead hi _).steady
  case h_4 => exact (progressive_ident hi).map.here hp

theorem progressive_paramsTurn (ps : List Param) : Progressive i n (paramsTurn ps) := by
  refine steady_here.bind_progressive fun _ => (progressive_ident hi).bind fun _ => ?_
  refine (steady_accept hi _).bind fun b => ?_
  split
  · exact .pure
  · exact .pure

theorem steady_params : Steady i n params := by
  refine (steady_check _).bind fun b => ?_
  split
  · exact .pure
  · exact steady_loop .parameters (fun s _ hp => ((progressive_paramsTurn hi s).here hp).turns) _

theorem progressive_fnBody : Progressive i n fnBody := by
  have hblock : Progressive i n block := fun _ _ hp => (stmtRuns hi hp).block
  refine progressive_accept hi (fun b => ?_) hblock.map
  split
  · exact (progressive_signature hi).steady.bind fun _ => hblock.steady.map
  · exact hblock.steady.map

theorem progressive_fn : Progressive i n fn := by
  refine steady_here.bind_progressive fun _ => (progressive_head hi).bind fun _ => ?_
  refine (steady_expect hi _).bind fun _ => (steady_params hi).bind fun _ => ?_
  exact (steady_expect hi _).bind fun _ => (progressive_fnBody hi).steady.map

theorem progressive_declaration : Progressive i n declaration := by
  intro p _ hp
  refine runs_token hp ?_
  split
  · exact (progressive_importLine hi).map.here hp
  · exact (progressive_synonym hi).map.here hp
  · split
    · exact (progressive_decl hi).map.here hp
    · split
      · exact (progressive_fn hi).map.here hp
      · exact Runs.throw hp
  · exact Runs.throw hp

theorem turns_recover (depth : Nat) (hp : p < i.tokens.length) :
    Turns i False (recoverTurn depth) p fun _ _ => True := by
  have htake : i.tokens[p].kind ≠ .eof → ∀ t : Turn Nat,
      Turns i False (advance >>= fun _ => pure t) p fun _ _ => True := by
    intro hkind t
    refine (runs_take hp hi hkind).bind fun _ q _ hq hpq => Runs.pure hq ?_
    cases t with
    | again depth => exact hpq
    | done u => trivial
  refine runs_token hp ?_
  split
  · exact Runs.pure hp trivial
  · next hk => exact htake (by simp [hk]) _
  · next hk =>
    have hkind : i.tokens[p].kind ≠ .eof := by simp [hk]
    split
    · exact htake hkind _
    · split
      · split
        · exact htake hkind _
        · exact htake hkind _
      · split
        · exact htake hkind _
        · split
          · exact Runs.pure hp trivial
          · exact htake hkind _

theorem runs_declarationOrFault (hp : p < i.tokens.length) :
    Runs i False declarationOrFault p fun _ _ => True := by
  refine (runs_attempt ((progressive_declaration hi).here hp).stays).bind fun r q _ hq _ => ?_
  split
  · exact Runs.pure hq trivial
  · refine (runs_loop (l := .recovery) (fun s _ hp => turns_recover hi s hp) 0 hq).bind ?_
    exact fun _ q₁ _ hq₁ _ => Runs.pure hq₁ trivial

/-- The loop over declarations goes on unless it is at an end of input, and then it has moved. -/
theorem turns_declarations (d : Draft) (hp : p < i.tokens.length) :
    Turns i False (declarationsTurn d) p fun _ q =>
      q = p ∧ (i.tokens[p]?).map RawToken.kind = some .eof := by
  have ht := List.getElem?_eq_getElem hp
  refine Runs.after (isAtEnd_gives ht) ?_
  split
  · next h =>
    refine Runs.pure hp ⟨rfl, ?_⟩
    rw [ht, Option.map_some, of_decide_eq_true h]
  · next h =>
    refine Runs.after position_gives ?_
    refine (runs_declarationOrFault hi hp).bind fun r q₁ h₁ hq₁ _ => ?_
    refine Runs.after position_gives ?_
    split
    · next heq =>
      subst heq
      refine (runs_take hp hi fun hk => h (decide_eq_true hk)).bind fun _ q₂ _ hq₂ hlt => ?_
      exact Runs.pure hq₂ hlt
    · next hne => exact Runs.pure hq₁ (by change p < q₁; omega)

/-- A program is read up to an end of input. -/
theorem runs_program (hp : p < i.tokens.length) :
    Runs i False program p fun _ q => (i.tokens[q]?).map RawToken.kind = some .eof := by
  refine Runs.bind ?_ fun d q _ hq heof => Runs.pure hq heof
  refine runs_loop (l := .declarations) (fun d p hp => ?_) _ hp
  refine (turns_declarations hi d hp).mono fun t q _ h => ?_
  cases t with
  | again d => exact h
  | done d =>
    obtain ⟨rfl, heof⟩ := h
    exact heof

end SplFrontend.Cursor
