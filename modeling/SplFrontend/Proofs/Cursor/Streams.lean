import SplFrontend.Proofs.Cursor.Progress

/-!
# Cursors on streams

On the tokens of a text, with one end of input behind them, the readers by position are the readers
from the front: a position stands for what is left there. For each pair of readers the proof follows
the reader from the front (`Follows`). The loops by position gather what they read from the first to
the last, while the recursions from the front put it together from the last to the first; so a loop
is compared as it goes on from what it has gathered.
-/

namespace SplFrontend

/-- What is left. -/
def Reading.rest {τ ε α : Type} {ts : List τ} : Reading τ ε α ts → List τ
  | ok _ r _ => r
  | fault _ r _ => r

/-- The value, or the fault. -/
def Reading.result {τ ε α : Type} {ts : List τ} : Reading τ ε α ts → Except ε α
  | ok a _ _ => .ok a
  | fault e _ _ => .error e

namespace Reading

variable {τ ε α β γ : Type} {ts : List τ}

@[simp] theorem map_id (x : Reading τ ε α ts) : (x.map fun a => a) = x := by
  cases x <;> rfl

@[simp] theorem map_map (x : Reading τ ε α ts) (f : α → β) (g : β → γ) :
    (x.map f).map g = x.map fun a => g (f a) := by
  cases x <;> rfl

@[simp] theorem map_under {t : τ} (x : Reading τ ε α ts) (f : α → β) :
    (x.under : Reading τ ε α (t :: ts)).map f = (x.map f).under := by
  cases x <;> rfl

@[simp] theorem map_bind (x : Reading τ ε α ts)
    (f : α → (r : List τ) → r.length < ts.length → Reading τ ε β r) (g : β → γ) :
    (x.bind f).map g = x.bind fun a r h => (f a r h).map g := by
  cases x with
  | ok a r h =>
    simp only [bind]
    cases f a r h <;> rfl
  | fault e r h => rfl

end Reading

/-- The tokens of a text as a list with one end of input. -/
def TokenStream.input (s : TokenStream) (negative : Nat → Loc → Expr) : Cursor.Input :=
  ⟨s.tokens.map Token.raw ++ [⟨.eof, s.stop⟩], negative⟩

/-- The position at which these tokens are left. -/
def TokenStream.position (s : TokenStream) (ts : List Token) : Nat := s.tokens.length - ts.length

namespace Cursor

open Reading TokenReading

/-- The token that stands before what is left. -/
def front (stop : Loc) : List Token → RawToken
  | [] => ⟨.eof, stop⟩
  | t :: _ => t.raw

@[simp] theorem front_nil (stop : Loc) : front stop [] = ⟨.eof, stop⟩ := rfl

@[simp] theorem front_cons (stop : Loc) (t : Token) (ts : List Token) :
    front stop (t :: ts) = ⟨.kind t.kind, t.loc⟩ := rfl

/-- Where these tokens are left, the cursor does what the reading says. -/
def Follows (s : TokenStream) {α : Type} {us : List Token} (x : Cursor α) (ts : List Token)
    (y : TokenReading α us) : Prop :=
  ∀ negative, ts <:+ s.tokens →
    x.Gives (s.input negative) (s.position ts) y.result (s.position y.rest) ∧ y.rest <:+ s.tokens

/-- Where the first tokens are left, the cursor gives the value and leaves the second ones. -/
def Leaves (s : TokenStream) {α : Type} (x : Cursor α) (ts : List Token) (a : α) (us : List Token) :
    Prop :=
  ∀ negative, ts <:+ s.tokens →
    x.Gives (s.input negative) (s.position ts) (.ok a) (s.position us) ∧ us <:+ s.tokens

variable {s : TokenStream} {α β γ : Type} {ts us vs : List Token} {x : Cursor α} {f : α → Cursor β}
  {a : α}

theorem Leaves.bind {b : β} (h : Leaves s x ts a us)
    (hf : Leaves s (f a) us b vs) : Leaves s (x >>= f) ts b vs := by
  intro negative hts
  obtain ⟨hx, hus⟩ := h negative hts
  exact ⟨hx.bind (hf negative hus).1, (hf negative hus).2⟩

theorem Leaves.unfold {y : Cursor α} (hxy : Unfolds x y) (h : Leaves s y ts a us) :
    Leaves s x ts a us := fun n hts => ⟨hxy (h n hts).1, (h n hts).2⟩

theorem leaves_pure : Leaves s (pure a) ts a ts := fun _ hts => ⟨.pure, hts⟩

namespace Follows

variable {y : TokenReading α us}

theorem within (h : Follows s x ts y) (hle : us.length ≤ vs.length) :
    Follows s x ts (y.within hle) := by
  cases y <;> exact h

theorem unfold {x' : Cursor α} (hx : Unfolds x x') (h : Follows s x' ts y) :
    Follows s x ts y := fun n hts => ⟨hx (h n hts).1, (h n hts).2⟩

theorem leaves {hr : vs.length < us.length} (h : Follows s x ts (ok a vs hr)) :
    Leaves s x ts a vs := h

theorem bind (h : Follows s x ts y)
    {g : α → (r : List Token) → r.length < us.length → TokenReading β r}
    (hf : ∀ a r hr, Follows s (f a) r (g a r hr)) :
    Follows s (x >>= f) ts (y.bind g) := by
  intro negative hts
  obtain ⟨hx, hrest⟩ := h negative hts
  cases y with
  | ok a r hr =>
    obtain ⟨hg, hsuffix⟩ := (hf a r hr).within (Nat.le_of_lt hr) negative hrest
    exact ⟨hx.bind hg, hsuffix⟩
  | fault d r hr => exact ⟨hx.bind_error, hrest⟩

theorem map (h : Follows s x ts y) (g : α → β) :
    Follows s (x >>= fun a => pure (g a)) ts (y.map g) := by
  intro negative hts
  obtain ⟨hx, hrest⟩ := h negative hts
  cases y with
  | ok a r hr => exact ⟨hx.bind .pure, hrest⟩
  | fault d r hr => exact ⟨hx.bind_error, hrest⟩

theorem extend (h : Follows s x ts y) {m : α → γ} {e : γ → β}
    {g : γ → (r : List Token) → r.length < us.length → Option (TokenReading γ r)}
    (hsome : ∀ a r hr z, g (m a) r hr = some z → Follows s (f a) r (z.map e))
    (hnone : ∀ a r hr, g (m a) r hr = none → Leaves s (f a) r (e (m a)) r) :
    Follows s (x >>= f) ts (((y.map m).extend g).map e) := by
  intro negative hts
  obtain ⟨hx, hrest⟩ := h negative hts
  cases y with
  | ok a r hr =>
    rw [Reading.map, Reading.extend]
    split
    · next z hz =>
      obtain ⟨hf, hsuffix⟩ := hsome a r hr z hz negative hrest
      cases z <;> exact ⟨hx.bind hf, hsuffix⟩
    · next hz => exact ⟨hx.bind (hnone a r hr hz negative hrest).1, hrest⟩
  | fault d r hr => exact ⟨hx.bind_error, hrest⟩

theorem after {y : TokenReading β vs} (hx : Leaves s x ts a us)
    (h : Follows s (f a) us y) : Follows s (x >>= f) ts y := by
  intro negative hts
  obtain ⟨hgives, hus⟩ := hx negative hts
  exact ⟨hgives.bind (h negative hus).1, (h negative hus).2⟩

/-- What fails does so whatever comes after it. -/
theorem of_fault {y : TokenReading β vs} {d : Diagnostic} {hr : us.length ≤ ts.length}
    (h : Follows s x ts (fault d us hr : TokenReading α ts))
    (hresult : y.result = .error d) (hrest : y.rest = us) :
    Follows s (x >>= f) ts y := by
  intro negative hts
  rw [hresult, hrest]
  exact ⟨(h negative hts).1.bind_error, (h negative hts).2⟩

end Follows

/-! ## Single tokens -/

theorem getElem?_position {negative : Nat → Loc → Expr} (hts : ts <:+ s.tokens) (n : Nat) :
    (s.input negative).tokens[s.position ts + n]? = (ts.map Token.raw ++ [⟨.eof, s.stop⟩])[n]? := by
  obtain ⟨us, hus⟩ := hts
  have hlen : s.position ts = (us.map Token.raw).length := by
    rw [TokenStream.position, ← hus, List.length_append, List.length_map]
    omega
  rw [TokenStream.input, ← hus, List.map_append, List.append_assoc, hlen,
    List.getElem?_append_right (by omega), Nat.add_sub_cancel_left]

theorem getElem?_front {negative : Nat → Loc → Expr} (hts : ts <:+ s.tokens) :
    (s.input negative).tokens[s.position ts]? = some (front s.stop ts) := by
  rw [← Nat.add_zero (s.position ts), getElem?_position hts]
  cases ts <;> rfl

theorem position_add (hts : ts <:+ s.tokens) : s.position ts + ts.length = s.tokens.length := by
  have hle := hts.length_le
  rw [TokenStream.position]
  omega

theorem leaves_token : Leaves s token ts (front s.stop ts) ts :=
  fun _ hts => ⟨token_gives (getElem?_front hts), hts⟩

theorem leaves_advance : Leaves s advance ts (front s.stop ts) ts.tail := by
  intro negative hts
  have htail := (List.tail_suffix ts).trans hts
  have hpos := position_add hts
  have hpos' := position_add htail
  have hnext : s.position ts.tail = if s.position ts + 1 < (s.input negative).tokens.length then
      s.position ts + 1 else s.position ts := by
    rw [List.length_tail] at hpos'
    rw [TokenStream.input, List.length_append, List.length_map, List.length_singleton]
    split <;> omega
  rw [hnext]
  exact ⟨advance_gives (getElem?_front hts), htail⟩

theorem leaves_secondIs (k : Kind) :
    Leaves s (secondIs k) ts (ts.tail.head?.any (·.kind = k)) ts := by
  intro negative hts
  have hsecond : ((s.input negative).tokens[s.position ts + 1]?).any (·.kind = .kind k) =
      ts.tail.head?.any (·.kind = k) := by
    rw [getElem?_position hts]
    rcases ts with _ | ⟨t, _ | ⟨u, us⟩⟩
    · rfl
    · rfl
    · simp [Token.raw]
  rw [← hsecond]
  exact ⟨secondIs_gives k, hts⟩

theorem leaves_here : Leaves s here ts (TokenReading.here s.stop ts) ts := by
  have hloc : TokenReading.here s.stop ts = (front s.stop ts).loc := by cases ts <;> rfl
  rw [hloc]
  exact leaves_token.bind leaves_pure

theorem leaves_check (k : Kind) :
    Leaves s (check k) ts (decide ((front s.stop ts).kind = .kind k)) ts :=
  leaves_token.bind leaves_pure

theorem leaves_isAtEnd :
    Leaves s isAtEnd ts (decide ((front s.stop ts).kind = .eof)) ts :=
  leaves_token.bind leaves_pure

theorem leaves_accept {k : Kind} (hk : (front s.stop ts).kind = .kind k) :
    Leaves s (accept k) ts true ts.tail := by
  refine (leaves_check k).bind ?_
  rw [decide_eq_true hk]
  exact leaves_advance.bind leaves_pure

theorem leaves_accept_of_ne {k : Kind} (hk : (front s.stop ts).kind ≠ .kind k) :
    Leaves s (accept k) ts false ts := by
  refine (leaves_check k).bind ?_
  rw [decide_eq_false hk]
  exact leaves_pure

theorem leaves_expect {k : Kind} (hk : (front s.stop ts).kind = .kind k) :
    Leaves s (expect k) ts () ts.tail := by
  refine leaves_token.bind ?_
  rw [if_pos hk]
  exact leaves_advance.bind leaves_pure

theorem follows_ok {hr : ts.length < us.length} :
    Follows s (pure a) ts (ok a ts hr : TokenReading α us) := leaves_pure

theorem follows_leave (f : Fault) :
    Follows s (throw (f.report (TokenReading.here s.stop ts))) ts
      (leave s.stop f : TokenReading α ts) := fun _ hts => ⟨.throw, hts⟩

theorem follows_skip (f : Fault) :
    Follows s (throw (f.report (TokenReading.here s.stop ts))) ts.tail
      (skip s.stop f : TokenReading α ts) := fun _ hts => ⟨.throw, hts⟩

theorem missing_front (k : Kind) (stop : Loc) (ts : List Token) :
    missing k (front stop ts) = (Fault.missing k (peek ts)).report (TokenReading.here stop ts) := by
  cases ts <;> rfl

theorem unexpected_front (w : Wanted) (stop : Loc) (ts : List Token) :
    unexpected w (front stop ts) =
      (Fault.unexpected w (peek ts)).report (TokenReading.here stop ts) := by
  cases ts <;> rfl

theorem follows_expect (k : Kind) :
    Follows s (expect k) ts (TokenReading.expect s.stop k ts) := by
  refine Follows.after leaves_token ?_
  rw [missing_front]
  cases ts with
  | nil => exact follows_leave _
  | cons t ts =>
    have heq : ((front s.stop (t :: ts)).kind = .kind k) = (t.kind = k) := by
      simp [front, Token.raw]
    simp only [heq, TokenReading.expect]
    split
    · exact Follows.after leaves_advance follows_ok
    · exact follows_leave _

/-- What a token is tells what is left. -/
theorem eq_cons_of_front {stop : Loc} {k : Kind} (h : (front stop ts).kind = .kind k) :
    ∃ loc us, ts = ⟨k, loc⟩ :: us := by
  rcases ts with _ | ⟨⟨k', loc⟩, us⟩
  · cases h
  · cases h
    exact ⟨loc, us, rfl⟩

theorem eq_cons_of_head? {k : Kind} (h : ts.head?.any (·.kind = k)) :
    ∃ loc us, ts = ⟨k, loc⟩ :: us := by
  rcases ts with _ | ⟨⟨k', loc⟩, us⟩
  · cases h
  · cases of_decide_eq_true h
    exact ⟨loc, us, rfl⟩

theorem kind_front {stop : Loc} {k : Kind} {loc : Loc} (h : ts = ⟨k, loc⟩ :: us) :
    (front stop ts).kind = .kind k := by
  rw [h]
  rfl

theorem kind_front_ne {stop : Loc} {k : Kind} (h : ∀ loc us, ts = ⟨k, loc⟩ :: us → False) :
    (front stop ts).kind ≠ .kind k := by
  intro hk
  obtain ⟨loc, us, hts⟩ := eq_cons_of_front hk
  exact h loc us hts

/-- A match on what is left and on its length refutes the token in this way. -/
theorem leaves_accept_of_split {k : Kind} {n : Nat} {h : ts.length < n}
    (hno : ∀ loc us (h' : (⟨k, loc⟩ :: us : List Token).length < n), ts = ⟨k, loc⟩ :: us →
      HEq h h' → False) : Leaves s (accept k) ts false ts := by
  refine leaves_accept_of_ne (kind_front_ne ?_)
  rintro loc us rfl
  exact hno loc us h rfl .rfl

theorem not_negative_front {stop : Loc} {n : Nat} : (front stop ts).kind ≠ .negative n := by
  cases ts <;> exact nofun

theorem follows_ident : Follows s ident ts (TokenReading.ident s.stop ts) := by
  refine Follows.after leaves_advance ?_
  rw [unexpected_front]
  split
  · next name hk =>
    obtain ⟨loc, us, rfl⟩ := eq_cons_of_front hk
    exact follows_ok
  · next hno =>
    rw [TokenReading.ident.eq_2 s.stop ts fun name loc us h => hno name (kind_front h)]
    exact follows_skip _

theorem follows_operator : Follows s operator ts (TokenReading.operator s.stop ts) := by
  refine Follows.after leaves_advance ?_
  rw [unexpected_front]
  split
  · next name hk =>
    obtain ⟨loc, us, rfl⟩ := eq_cons_of_front hk
    exact follows_ok
  · next hno =>
    rw [TokenReading.operator.eq_2 s.stop ts fun name loc us h => hno name (kind_front h)]
    exact follows_skip _

/-! ## Types -/

theorem follows_ty (ts : List Token) : Follows s ty ts (Ty.read s.stop ts) := by
  refine .unfold unfolds_ty ?_
  refine Follows.after leaves_advance ?_
  rw [unexpected_front]
  split
  · next name hk =>
    obtain ⟨loc, us, rfl⟩ := eq_cons_of_front hk
    rw [Ty.read]
    exact follows_ok
  · next hk =>
    obtain ⟨loc, us, rfl⟩ := eq_cons_of_front hk
    rw [Ty.read]
    refine Follows.within ?_ _
    refine (follows_ty us).bind fun a r₁ _ => (follows_expect _).bind fun _ r₂ _ => ?_
    exact (follows_ty r₂).bind fun b r₃ _ => (follows_expect _).map _
  · next hk =>
    obtain ⟨loc, us, rfl⟩ := eq_cons_of_front hk
    rw [Ty.read]
    exact Follows.within ((follows_ty us).bind fun a r _ => (follows_expect _).map _) _
  · next hname hparen hbracket =>
    rw [Ty.read.eq_4 s.stop ts (fun name loc us h => hname name (kind_front h))
      (fun loc us h => hparen (kind_front h)) (fun loc us h => hbracket (kind_front h))]
    exact follows_skip _
termination_by ts.length
decreasing_by all_goals grind

/-- A signature that goes on from some parameter types. -/
theorem follows_types (acc : List Ty) (ts : List Token) :
    Follows s
      (do
        let params ← loop .types acc
        expect (.mark .arrow)
        return ⟨params, ← ty⟩)
      ts ((Signature.read s.stop ts).map fun g => { g with params := acc ++ g.params }) := by
  refine .unfold (unfolds_loop .types acc).bind ?_
  simp only [Loop.turn, typesTurn, bind_assoc]
  refine .after (leaves_check _) (.after leaves_isAtEnd ?_)
  fun_cases Signature.read s.stop ts with
  | case1 loc us =>
    rw [Signature.read, map_under, map_map]
    simp only [front_cons, decide_true, Bool.true_or, if_true, pure_bind, Loop.goOn]
    refine (Follows.after (leaves_expect rfl) ?_).within _
    simp only [List.append_nil]
    exact (follows_ty us).map _
  | case2 =>
    rw [Signature.read]
    simp only [front_nil, decide_true, Bool.or_true, if_true, pure_bind, Loop.goOn]
    exact (follows_expect _).of_fault rfl rfl
  | case3 t us hno =>
    have harrow : t.kind ≠ .mark .arrow := fun h => hno t.loc (by cases t; cases h; rfl)
    rw [Signature.read.eq_3 _ _ _ hno]
    simp only [front_cons, RawKind.kind.injEq, harrow, decide_false, reduceCtorEq, Bool.or_self,
      Bool.false_eq_true, if_false, bind_assoc, pure_bind, Loop.goOn, Reading.map_bind,
      map_map]
    refine (follows_ty _).bind fun a r hr => ?_
    simpa only [List.append_assoc, List.singleton_append] using follows_types (acc ++ [a]) r
termination_by ts.length
decreasing_by subst_vars; assumption

theorem follows_signature : Follows s signature ts (Signature.read s.stop ts) := by
  have h : Follows s _ _ _ := follows_types [] ts
  simp only [List.nil_append, map_id] at h
  exact h

/-! ## Expressions -/

/-- The accessors after the ones that are read. -/
theorem leaves_accessors (fields : List Accessor) (ts : List Token) :
    Leaves s (loop .accessors fields) ts
      (fields ++ (Variable.accessorsOf ts).1) (Variable.accessorsOf ts).2 := by
  fun_induction Variable.accessorsOf ts generalizing fields with
  | case1 a loc us ih =>
    refine .unfold (unfolds_loop .accessors fields) ?_
    simp only [Loop.turn, accessorsTurn, bind_assoc]
    refine leaves_token.bind ?_
    simp only [front_cons, bind_assoc, pure_bind, Loop.goOn]
    refine leaves_advance.bind ?_
    have h := ih (fields ++ [a])
    rw [List.append_assoc] at h
    exact h
  | case2 ts hno =>
    refine .unfold (unfolds_loop .accessors fields) ?_
    rw [Loop.turn, accessorsTurn, bind_assoc, List.append_nil]
    refine leaves_token.bind ?_
    split
    · next a hk =>
      obtain ⟨loc, us, rfl⟩ := eq_cons_of_front hk
      exact (hno a loc us rfl).elim
    · exact leaves_pure

theorem follows_var : Follows s var ts (Variable.read s.stop ts) := by
  refine .after leaves_here ?_
  fun_cases Variable.read s.stop ts with
  | case1 name loc us =>
    exact .after follows_ident.leaves (.after (leaves_accessors [] us) follows_ok)
  | case2 ts hno =>
    have hident : Follows s ident ts _ := follows_ident
    rw [TokenReading.ident.eq_2 s.stop ts hno] at hident
    rw [Variable.read.eq_2 s.stop ts hno]
    exact hident.of_fault rfl rfl

/-- The operators at the front of what is left are read one by one. -/
theorem Follows.operators_cons {name : String} {loc : Loc} {rest : List (OpUse × Expr)}
    {y : TokenReading α us} {f : List (OpUse × Expr) → Cursor α}
    (h : Follows s
      (unary >>= fun e => loop .operators (rest ++ [(⟨name, loc⟩, e)]) >>= f) ts y) :
    Follows s (loop .operators rest >>= f) (⟨.op name, loc⟩ :: ts) y := by
  refine .unfold (unfolds_loop .operators rest).bind ?_
  simp only [Loop.turn, operatorsTurn, bind_assoc]
  refine .after leaves_token ?_
  simp only [front_cons, bind_assoc, pure_bind, Loop.goOn]
  exact .after leaves_advance h

theorem leaves_operators_done {rest : List (OpUse × Expr)}
    (hno : ∀ name loc us, ts ≠ ⟨.op name, loc⟩ :: us) :
    Leaves s (loop .operators rest) ts rest ts := by
  refine .unfold (unfolds_loop .operators rest) ?_
  simp only [Loop.turn, operatorsTurn, bind_assoc]
  refine leaves_token.bind ?_
  split
  · next name hk =>
    obtain ⟨loc, us, rfl⟩ := eq_cons_of_front hk
    exact (hno name loc us rfl).elim
  · exact leaves_pure

/-- A literal is read as an atom. -/
theorem follows_literal (hbracket : (front s.stop ts).kind ≠ .kind (.mark .lbracket))
    (hparen : (front s.stop ts).kind ≠ .kind (.mark .lparen))
    (hident : ∀ name, (front s.stop ts).kind ≠ .kind (.ident name)) :
    Follows s literal ts (Expr.atom s.stop ts) := by
  refine .after leaves_token ?_
  rw [unexpected_front]
  split
  case h_1 hk | h_3 hk | h_4 hk | h_5 hk =>
    obtain ⟨loc, us, rfl⟩ := eq_cons_of_front hk
    rw [Expr.atom]
    exact .after leaves_advance follows_ok
  case h_2 hk => exact (not_negative_front hk).elim
  case h_6 hint _ hchar hstr hbool =>
    rw [Expr.atom.eq_9 s.stop ts (fun n _ _ h => hint n (kind_front h))
      (fun c _ _ h => hchar c (kind_front h)) (fun l _ _ h => hstr l (kind_front h))
      (fun b _ _ h => hbool b (kind_front h)) (fun _ _ h => hbracket (kind_front h))
      (fun _ _ h => hparen (kind_front h)) (fun name _ _ _ h => hident name (kind_front h))
      (fun name _ _ h => hident name (kind_front h))]
    exact follows_leave _

mutual

theorem follows_expr (ts : List Token) : Follows s expr ts (Expr.read s.stop ts) := by
  rw [Expr.read, ← map_id (Reading.extend ..), ← map_id (Expr.operand ..)]
  refine .unfold unfolds_expr ?_
  refine (follows_unary ts).extend (fun e r hr z hz => ?_) (fun e r hr hz => ?_)
  · split at hz
    · next name loc us _ =>
      cases hz
      rw [map_id]
      refine .after leaves_token (Follows.within ?_ _)
      have h := (follows_operators [] ⟨name, loc⟩ us).map (Expr.flat e · e.loc)
      simp only [List.nil_append, map_id, bind_assoc] at h
      exact h.operators_cons
    · cases hz
  · refine leaves_token.bind ?_
    split
    · next name hk =>
      obtain ⟨loc, us, rfl⟩ := eq_cons_of_front hk
      cases hz
    · exact leaves_pure
termination_by 5 * ts.length + 2
decreasing_by all_goals grind

/-- The operators from an operand on, after the ones that are read. -/
theorem follows_operators (acc : List (OpUse × Expr)) (o : OpUse) (ts : List Token) :
    Follows s (unary >>= fun e => loop .operators (acc ++ [(o, e)])) ts
      ((Expr.chain s.stop o ts).map (acc ++ ·)) := by
  rw [Expr.chain]
  refine (follows_unary ts).extend (fun e r hr z hz => ?_) (fun e r hr hz => ?_)
  · split at hz
    · next name loc us _ =>
      cases hz
      rw [map_under, map_map, ← bind_pure (loop .operators _)]
      refine Follows.within (.operators_cons ?_) _
      simp only [bind_pure]
      simpa only [List.append_assoc] using follows_operators (acc ++ [(o, e)]) ⟨name, loc⟩ us
    · cases hz
  · refine leaves_operators_done fun name loc us h => ?_
    subst h
    cases hz
termination_by 5 * ts.length + 2
decreasing_by all_goals grind

theorem follows_unary (ts : List Token) :
    Follows s unary ts (Expr.operand s.stop ts) := by
  refine .unfold unfolds_unary ?_
  refine .after leaves_token ?_
  split
  · next name hk =>
    obtain ⟨loc, us, rfl⟩ := eq_cons_of_front hk
    rw [Expr.operand]
    exact Follows.within (.after leaves_advance ((follows_unary us).map _)) _
  · next hno =>
    rw [Expr.operand.eq_2 s.stop ts fun name loc us h => hno name (kind_front h)]
    exact follows_atom ts
termination_by 5 * ts.length + 1
decreasing_by all_goals grind

theorem follows_atom (ts : List Token) : Follows s atom ts (Expr.atom s.stop ts) := by
  refine .after leaves_token ?_
  split
  case h_1 hk =>
    obtain ⟨loc, us, rfl⟩ := eq_cons_of_front hk
    rw [Expr.atom]
    exact Follows.within (.after leaves_advance ((follows_expect _).map _)) _
  case h_2 hk =>
    obtain ⟨loc, us, rfl⟩ := eq_cons_of_front hk
    rw [Expr.atom]
    refine Follows.within (.after leaves_advance ?_) _
    refine (follows_expr us).bind fun a r₁ h₁ => ?_
    split
    · next r₂ _ =>
      refine Follows.within (.after (leaves_accept rfl) ?_) _
      exact (follows_expr r₂).bind fun b r₃ _ => (follows_expect _).map _
    · next hno =>
      exact .after (leaves_accept_of_split hno) ((follows_expect _).map _)
  case h_3 name hk =>
    obtain ⟨loc, us, rfl⟩ := eq_cons_of_front hk
    refine .after (leaves_secondIs _) ?_
    split
    · next hsecond =>
      obtain ⟨loc', vs, rfl⟩ := eq_cons_of_head? hsecond
      exact follows_call name loc loc' vs
    · next hsecond =>
      rw [Expr.atom.eq_8 s.stop name loc us fun loc' vs h => hsecond (h ▸ by simp)]
      exact follows_var.map _
  case h_4 hbracket hparen hident => exact follows_literal hbracket hparen hident
termination_by 5 * ts.length + 0
decreasing_by all_goals grind

/-- A call is read as an atom. -/
theorem follows_call (name : String) (loc loc' : Loc) (us : List Token) :
    Follows s call (⟨.ident name, loc⟩ :: ⟨.mark .lparen, loc'⟩ :: us)
      (Expr.atom s.stop (⟨.ident name, loc⟩ :: ⟨.mark .lparen, loc'⟩ :: us)) := by
  rw [Expr.atom, under, under]
  refine (Follows.within ?_ _).within _
  refine .after leaves_here (.after follows_ident.leaves (.after (leaves_expect rfl) ?_))
  refine .after (leaves_check _) ?_
  split
  · next hk =>
    obtain ⟨loc, vs, rfl⟩ := eq_cons_of_front (of_decide_eq_true hk)
    rw [Expr.args]
    exact .after (leaves_expect rfl) follows_ok
  · next hk =>
    rw [Expr.args.eq_2 s.stop us fun loc vs h => hk (decide_eq_true (kind_front h))]
    have h := (follows_arguments [] us).map fun as => Expr.call .function name as loc
    simp only [List.nil_append, map_id, bind_assoc, pure_bind] at h
    exact h
termination_by 5 * us.length + 4
decreasing_by omega

/-- The arguments of a call after the ones that are read, and the closing parenthesis. -/
theorem follows_arguments (acc : List Expr) (ts : List Token) :
    Follows s
      (do
        let args ← loop .arguments acc
        expect (.mark .rparen)
        return args)
      ts ((Expr.moreArgs s.stop ts).map (acc ++ ·)) := by
  rw [Expr.moreArgs, Reading.map_bind]
  refine .unfold (unfolds_loop .arguments acc).bind ?_
  simp only [Loop.turn, argumentsTurn, bind_assoc]
  refine (follows_expr ts).bind fun e r h => ?_
  split
  · next us _ =>
    refine .after (leaves_accept rfl) ?_
    simp only [if_true, pure_bind, Loop.goOn, map_under, map_map]
    have h := follows_arguments (acc ++ [e]) us
    simp only [List.append_assoc, List.singleton_append] at h
    exact h.within _
  · next hno =>
    refine .after (leaves_accept_of_split hno) ?_
    simp only [Bool.false_eq_true, if_false, pure_bind, Loop.goOn, map_map]
    exact (follows_expect _).map _
termination_by 5 * ts.length + 3
decreasing_by all_goals grind

end

end Cursor

end SplFrontend
