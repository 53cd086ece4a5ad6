import SplFrontend.Proofs.Grammar.Phrases

/-!
# The grammar is unambiguous

No two phrases of one class consist of the same tokens. The proof needs more: if a phrase and what
follows it are the same tokens as another phrase of its class and what follows that, then the
phrases are the same, as long as what follows cannot extend either (`Determined`). Each class shows
itself by its first token or, after an identifier, by the second, so the induction is on one of the
phrases and the other has its shape.
-/

namespace SplFrontend

namespace Phrase

/-- The tokens of a phrase tell it from the others of its class, whatever follows them that is
`ends`. -/
def Determined {α : Type} (ends : List Kind → Prop) (kinds : α → List Kind) (a : α) : Prop :=
  ∀ ⦃b : α⦄ ⦃k l : List Kind⦄, ends k → ends l → kinds a ++ k = kinds b ++ l → a = b ∧ k = l

/-- Nothing is asked of what follows. -/
abbrev Anything (_ : List Kind) : Prop := True

/-- A token comes next. -/
abbrev Next (j : Kind) (k : List Kind) : Prop := ∃ r, k = j :: r

/-- A phrase that begins with a token of one class does not begin with any other token. -/
theorem append_ne_cons {ks : List Kind} {Starts : Kind → Prop} (hks : ∃ i r, ks = i :: r ∧ Starts i)
    {j : Kind} (hj : ¬ Starts j) (k l : List Kind) : ks ++ k ≠ j :: l := by
  obtain ⟨i, r, rfl, hi⟩ := hks
  intro h
  rw [List.cons_append, List.cons.injEq] at h
  exact hj (h.1 ▸ hi)

/-! ## Types and variables -/

theorem Ty.determined (a : Ty) : Determined Anything kinds a := by
  induction a with
  | name n =>
    intro b k l _ _ h
    cases b with
    | name m => simpa [kinds] using h
    | pair | list => simp [kinds] at h
  | pair a₁ a₂ ih₁ ih₂ =>
    intro b k l _ _ h
    cases b with
    | pair b₁ b₂ =>
      simp only [kinds, List.cons_append, List.append_assoc, List.cons.injEq, true_and] at h
      obtain ⟨rfl, h₁⟩ := ih₁ trivial trivial h
      obtain ⟨rfl, h₂⟩ := ih₂ trivial trivial (List.cons.inj h₁).2
      exact ⟨rfl, (List.cons.inj h₂).2⟩
    | name | list => simp [kinds] at h
  | list a ih =>
    intro b k l _ _ h
    cases b with
    | list b =>
      simp only [kinds, List.cons_append, List.append_assoc, List.cons.injEq, true_and] at h
      obtain ⟨rfl, h₁⟩ := ih trivial trivial h
      exact ⟨rfl, (List.cons.inj h₁).2⟩
    | name | pair => simp [kinds] at h

/-- No accessor comes next. -/
def NoAccessor (k : List Kind) : Prop := ∀ j ∈ k.head?, ∀ a, j ≠ .accessor a

theorem noAccessor_cons {j : Kind} {k : List Kind} (h : ∀ a, j ≠ .accessor a) :
    NoAccessor (j :: k) := by
  intro i hi
  cases hi
  exact h

theorem determined_accessors (as : List Accessor) :
    Determined NoAccessor (List.map Kind.accessor) as := by
  intro bs k l hk hl h
  induction as generalizing bs with
  | nil =>
    cases bs with
    | nil => exact ⟨rfl, h⟩
    | cons b bs =>
      subst h
      exact absurd rfl (hk _ rfl b)
  | cons a as ih =>
    cases bs with
    | nil =>
      subst h
      exact absurd rfl (hl _ rfl a)
    | cons b bs =>
      simp only [List.map_cons, List.cons_append, List.cons.injEq, Kind.accessor.injEq] at h
      obtain ⟨rfl, h⟩ := h
      obtain ⟨rfl, rfl⟩ := ih h
      exact ⟨rfl, rfl⟩

theorem Var.determined (v : Var) : Determined NoAccessor kinds v := by
  rintro ⟨m, bs⟩ k l hk hl h
  obtain ⟨n, as⟩ := v
  simp only [kinds, List.cons_append, List.cons.injEq, Kind.ident.injEq] at h
  obtain ⟨rfl, h⟩ := h
  obtain ⟨rfl, rfl⟩ := determined_accessors as hk hl h
  exact ⟨rfl, rfl⟩

/-! ## Expressions -/

/-- The tokens that an expression may begin with. -/
def StartsExpr : Kind → Prop
  | .int _ | .char _ | .str _ | .bool _ | .op _ | .ident _ | .mark .lparen | .mark .lbracket => True
  | _ => False

theorem Atom.kinds_eq_cons (a : Atom) : ∃ j ks, a.kinds = j :: ks ∧ StartsExpr j := by
  cases a <;> simp only [kinds] <;> exact ⟨_, _, rfl, trivial⟩

theorem Unary.kinds_eq_cons (u : Unary) : ∃ j ks, u.kinds = j :: ks ∧ StartsExpr j := by
  cases u with
  | prefixed op u =>
    rw [kinds]
    exact ⟨_, _, rfl, trivial⟩
  | atom a =>
    rw [kinds]
    exact a.kinds_eq_cons

theorem Expr.kinds_eq_cons (e : Expr) : ∃ j ks, e.kinds = j :: ks ∧ StartsExpr j := by
  obtain ⟨u, rest⟩ := e
  obtain ⟨j, ks, hu, hj⟩ := u.kinds_eq_cons
  exact ⟨j, ks ++ rest.kinds, by rw [kinds, hu, List.cons_append], hj⟩

/-- What follows the first operand of an expression cannot extend the operand. -/
theorem Rest.endsOperand (rest : Rest) {k : List Kind} (hk : EndsOperand k) :
    EndsOperand (rest.kinds ++ k) := by
  cases rest with
  | done => rwa [kinds, List.nil_append]
  | more op u rest =>
    rw [kinds, List.cons_append]
    exact endsOperand_op

theorem EndsOperand.noAccessor {k : List Kind} (h : EndsOperand k) : NoAccessor k :=
  fun j hj => (h j hj).2

/-- A variable is not a call. -/
theorem Var.kinds_ne_call (v : Var) {n : String} {k l : List Kind} (hk : EndsOperand k) :
    v.kinds ++ k ≠ .ident n :: .mark .lparen :: l := by
  obtain ⟨m, as⟩ := v
  intro h
  cases as with
  | nil =>
    simp only [kinds, List.map_nil, List.cons_append, List.nil_append, List.cons.injEq] at h
    obtain ⟨-, rfl⟩ := h
    exact (hk _ rfl).1 rfl
  | cons a as => simp [kinds] at h

theorem endsExpr_comma {k : List Kind} : EndsExpr (.mark .comma :: k) := endsExpr_mark (by decide)

theorem endsExpr_rparen {k : List Kind} : EndsExpr (.mark .rparen :: k) := endsExpr_mark (by decide)

theorem endsExpr_semicolon {k : List Kind} : EndsExpr (.mark .semicolon :: k) :=
  endsExpr_mark (by decide)

/-- What follows an argument cannot extend it. -/
theorem MoreArgs.endsExpr (rest : MoreArgs) {k : List Kind} (hk : Next (.mark .rparen) k) :
    EndsExpr (rest.kinds ++ k) := by
  obtain ⟨r, rfl⟩ := hk
  cases rest with
  | done =>
    rw [kinds, List.nil_append]
    exact endsExpr_rparen
  | more e rest =>
    rw [kinds, List.cons_append]
    exact endsExpr_comma

mutual

theorem Expr.determined : ∀ a : Expr, Determined EndsExpr Expr.kinds a
  | .mk u rest => by
    rintro ⟨v, rest'⟩ k l hk hl h
    simp only [Expr.kinds, List.append_assoc] at h
    obtain ⟨rfl, h₁⟩ := u.determined (rest.endsOperand hk.1) (rest'.endsOperand hl.1) h
    obtain ⟨rfl, h₂⟩ := rest.determined hk hl h₁
    exact ⟨rfl, h₂⟩

theorem Rest.determined : ∀ a : Rest, Determined EndsExpr Rest.kinds a
  | .done => by
    intro b k l hk hl h
    cases b with
    | done => exact ⟨rfl, by simpa only [Rest.kinds, List.nil_append] using h⟩
    | more op v rest' =>
      simp only [Rest.kinds, List.cons_append, List.nil_append] at h
      subst h
      exact absurd rfl (hk.2 _ rfl op)
  | .more op u rest => by
    intro b k l hk hl h
    cases b with
    | done =>
      simp only [Rest.kinds, List.cons_append, List.nil_append] at h
      subst h
      exact absurd rfl (hl.2 _ rfl op)
    | more op' v rest' =>
      simp only [Rest.kinds, List.cons_append, List.append_assoc, List.cons.injEq, Kind.op.injEq]
        at h
      obtain ⟨rfl, h⟩ := h
      obtain ⟨rfl, h₁⟩ := u.determined (rest.endsOperand hk.1) (rest'.endsOperand hl.1) h
      obtain ⟨rfl, h₂⟩ := rest.determined hk hl h₁
      exact ⟨rfl, h₂⟩

theorem Unary.determined : ∀ a : Unary, Determined EndsOperand Unary.kinds a
  | .prefixed op u => by
    intro b k l hk hl h
    cases b with
    | prefixed op' v =>
      simp only [Unary.kinds, List.cons_append, List.cons.injEq, Kind.op.injEq] at h
      obtain ⟨rfl, h⟩ := h
      obtain ⟨rfl, h₁⟩ := u.determined hk hl h
      exact ⟨rfl, h₁⟩
    | atom b => cases b <;> simp [Unary.kinds, Atom.kinds, Var.kinds] at h
  | .atom a => by
    intro b k l hk hl h
    cases b with
    | prefixed op' v => cases a <;> simp [Unary.kinds, Atom.kinds, Var.kinds] at h
    | atom b =>
      simp only [Unary.kinds] at h
      obtain ⟨rfl, h₁⟩ := a.determined hk hl h
      exact ⟨rfl, h₁⟩

theorem Atom.determined : ∀ a : Atom, Determined EndsOperand Atom.kinds a
  | .int n | .char c | .str s | .bool b | .emptyList => by
    intro b k l hk hl h
    cases b <;> simp [Atom.kinds, Var.kinds] at h ⊢
    all_goals exact h
  | .paren e => by
    intro b k l hk hl h
    cases b with
    | paren e' =>
      simp only [Atom.kinds, List.cons_append, List.append_assoc, List.nil_append, List.cons.injEq,
        true_and] at h
      obtain ⟨rfl, h₁⟩ := e.determined endsExpr_rparen endsExpr_rparen h
      exact ⟨rfl, (List.cons.inj h₁).2⟩
    | pair e' _ =>
      simp only [Atom.kinds, List.cons_append, List.append_assoc, List.nil_append, List.cons.injEq,
        true_and] at h
      obtain ⟨-, h₁⟩ := e.determined endsExpr_rparen endsExpr_comma h
      cases (List.cons.inj h₁).1
    | _ => simp [Atom.kinds, Var.kinds] at h
  | .pair a₁ a₂ => by
    intro b k l hk hl h
    cases b with
    | paren e' =>
      simp only [Atom.kinds, List.cons_append, List.append_assoc, List.nil_append, List.cons.injEq,
        true_and] at h
      obtain ⟨-, h₁⟩ := a₁.determined endsExpr_comma endsExpr_rparen h
      cases (List.cons.inj h₁).1
    | pair b₁ b₂ =>
      simp only [Atom.kinds, List.cons_append, List.append_assoc, List.nil_append, List.cons.injEq,
        true_and] at h
      obtain ⟨rfl, h₁⟩ := a₁.determined endsExpr_comma endsExpr_comma h
      obtain ⟨rfl, h₂⟩ := a₂.determined endsExpr_rparen endsExpr_rparen (List.cons.inj h₁).2
      exact ⟨rfl, (List.cons.inj h₂).2⟩
    | _ => simp [Atom.kinds, Var.kinds] at h
  | .call n args => by
    intro b k l hk hl h
    cases b with
    | call m args' =>
      simp only [Atom.kinds, List.cons_append, List.append_assoc, List.nil_append, List.cons.injEq,
        Kind.ident.injEq, true_and] at h
      obtain ⟨rfl, h⟩ := h
      obtain ⟨rfl, h₁⟩ := args.determined ⟨_, rfl⟩ ⟨_, rfl⟩ h
      exact ⟨rfl, (List.cons.inj h₁).2⟩
    | var v =>
      simp only [Atom.kinds, List.cons_append, List.append_assoc] at h
      exact absurd h.symm (v.kinds_ne_call hl)
    | _ => simp [Atom.kinds] at h
  | .var v => by
    intro b k l hk hl h
    cases b with
    | call m args' =>
      simp only [Atom.kinds, List.cons_append, List.append_assoc] at h
      exact absurd h (v.kinds_ne_call hk)
    | var w =>
      simp only [Atom.kinds] at h
      obtain ⟨rfl, h₁⟩ := v.determined (EndsOperand.noAccessor hk) (EndsOperand.noAccessor hl) h
      exact ⟨rfl, h₁⟩
    | _ => simp [Atom.kinds, Var.kinds] at h

theorem Args.determined : ∀ a : Args, Determined (Next (.mark .rparen)) Args.kinds a
  | .none => by
    intro b k l hk hl h
    cases b with
    | none => exact ⟨rfl, by simpa only [Args.kinds, List.nil_append] using h⟩
    | some e rest =>
      obtain ⟨r, rfl⟩ := hk
      simp only [Args.kinds, List.nil_append, List.append_assoc] at h
      exact absurd h.symm (append_ne_cons e.kinds_eq_cons id _ _)
  | .some e rest => by
    intro b k l hk hl h
    cases b with
    | none =>
      obtain ⟨r, rfl⟩ := hl
      simp only [Args.kinds, List.nil_append, List.append_assoc] at h
      exact absurd h (append_ne_cons e.kinds_eq_cons id _ _)
    | some e' rest' =>
      simp only [Args.kinds, List.append_assoc] at h
      obtain ⟨rfl, h₁⟩ := e.determined (rest.endsExpr hk) (rest'.endsExpr hl) h
      obtain ⟨rfl, h₂⟩ := rest.determined hk hl h₁
      exact ⟨rfl, h₂⟩

theorem MoreArgs.determined : ∀ a : MoreArgs, Determined (Next (.mark .rparen)) MoreArgs.kinds a
  | .done => by
    intro b k l hk hl h
    cases b with
    | done => exact ⟨rfl, by simpa only [MoreArgs.kinds, List.nil_append] using h⟩
    | more e rest =>
      obtain ⟨r, rfl⟩ := hk
      simp [MoreArgs.kinds] at h
  | .more e rest => by
    intro b k l hk hl h
    cases b with
    | done =>
      obtain ⟨r, rfl⟩ := hl
      simp [MoreArgs.kinds] at h
    | more e' rest' =>
      simp only [MoreArgs.kinds, List.cons_append, List.append_assoc, List.cons.injEq, true_and]
        at h
      obtain ⟨rfl, h₁⟩ := e.determined (rest.endsExpr hk) (rest'.endsExpr hl) h
      obtain ⟨rfl, h₂⟩ := rest.determined hk hl h₁
      exact ⟨rfl, h₂⟩

end

/-! ## Statements -/

/-- The tokens that a variable declaration may begin with. -/
def StartsDecl : Kind → Prop
  | .keyword .kwVar | .typeName _ | .mark .lparen | .mark .lbracket => True
  | _ => False

theorem Ty.kinds_eq_cons (t : Ty) :
    ∃ j ks, t.kinds = j :: ks ∧ StartsDecl j ∧ j ≠ .keyword .kwVar := by
  cases t <;> exact ⟨_, _, rfl, trivial, by simp⟩

theorem VarDecl.kinds_eq_cons (d : VarDecl) : ∃ j ks, d.kinds = j :: ks ∧ StartsDecl j := by
  cases d with
  | untyped => exact ⟨_, _, rfl, trivial⟩
  | typed t =>
    obtain ⟨j, ks, ht, hj, -⟩ := t.kinds_eq_cons
    exact ⟨j, _, by rw [kinds, ht]; rfl, hj⟩

theorem Ty.kinds_ne_kwVar (t : Ty) (k l : List Kind) : t.kinds ++ k ≠ .keyword .kwVar :: l :=
  append_ne_cons t.kinds_eq_cons (fun h => h.2 rfl) k l

theorem VarDecl.determined (d : VarDecl) : Determined Anything kinds d := by
  intro d' k l _ _ h
  cases d with
  | untyped n e =>
    cases d' with
    | untyped m e' =>
      simp only [kinds, List.cons_append, List.append_assoc, List.cons.injEq, Kind.ident.injEq,
        true_and] at h
      obtain ⟨rfl, h⟩ := h
      obtain ⟨rfl, h₁⟩ := e.determined endsExpr_semicolon endsExpr_semicolon h
      exact ⟨rfl, (List.cons.inj h₁).2⟩
    | typed t =>
      simp only [kinds, List.cons_append, List.append_assoc] at h
      exact absurd h.symm (t.kinds_ne_kwVar _ _)
  | typed t n e =>
    cases d' with
    | untyped =>
      simp only [kinds, List.cons_append, List.append_assoc] at h
      exact absurd h (t.kinds_ne_kwVar _ _)
    | typed t' m e' =>
      simp only [kinds, List.cons_append, List.append_assoc] at h
      obtain ⟨rfl, h₁⟩ := t.determined trivial trivial h
      simp only [List.cons.injEq, Kind.ident.injEq, true_and] at h₁
      obtain ⟨rfl, h₁⟩ := h₁
      obtain ⟨rfl, h₂⟩ := e.determined endsExpr_semicolon endsExpr_semicolon h₁
      exact ⟨rfl, (List.cons.inj h₂).2⟩

theorem guardKinds_determined (e : Expr) : Determined Anything guardKinds e := by
  intro e' k l _ _ h
  simp only [guardKinds, List.cons_append, List.append_assoc, List.cons.injEq, true_and] at h
  obtain ⟨rfl, h₁⟩ := e.determined endsExpr_rparen endsExpr_rparen h
  exact ⟨rfl, (List.cons.inj (List.cons.inj h₁).2).2⟩

/-- No statement begins with these tokens. -/
def StartsNoStmt : Kind → Prop
  | .keyword .kwElif | .keyword .kwElse | .mark .rbrace => True
  | _ => False

theorem Stmt.kinds_eq_cons (s : Stmt) : ∃ j ks, s.kinds = j :: ks ∧ ¬ StartsNoStmt j := by
  cases s with
  | decl d =>
    obtain ⟨j, ks, hd, hj⟩ := d.kinds_eq_cons
    refine ⟨j, ks, by rw [kinds, hd], fun h => ?_⟩
    unfold StartsNoStmt at h
    split at h <;> first | exact hj | exact h
  | _ =>
    simp only [kinds]
    exact ⟨_, _, rfl, id⟩

theorem Stmt.kinds_ne_rbrace (s : Stmt) (k l : List Kind) : s.kinds ++ k ≠ .mark .rbrace :: l :=
  append_ne_cons (j := .mark .rbrace) s.kinds_eq_cons (not_not_intro trivial) k l

/-- What follows a statement in a block is no further branch of it. -/
theorem Body.endsStmt (body : Body) {k : List Kind} (hk : Next (.mark .rbrace) k) :
    EndsStmt (body.kinds ++ k) := by
  obtain ⟨r, rfl⟩ := hk
  intro j hj
  cases body with
  | done =>
    rw [kinds, List.nil_append] at hj
    cases hj
    simp
  | more s rest =>
    obtain ⟨i, ks, hs, hi⟩ := s.kinds_eq_cons
    rw [kinds, hs] at hj
    cases hj
    exact ⟨fun h => hi (h ▸ trivial), fun h => hi (h ▸ trivial)⟩

/-- No `elif` comes next. -/
def NoElif (k : List Kind) : Prop := ∀ j ∈ k.head?, j ≠ .keyword .kwElif

theorem Else.noElif (o : Else) {k : List Kind} (hk : EndsStmt k) : NoElif (o.kinds ++ k) := by
  intro j hj
  cases o with
  | none =>
    rw [kinds, List.nil_append] at hj
    exact (hk j hj).1
  | some body =>
    rw [kinds] at hj
    cases hj
    simp

/-- Only a declaration has the tokens of one. -/
theorem Stmt.eq_decl_of_kinds {s : Stmt} {d : VarDecl} {k l : List Kind}
    (h : s.kinds ++ k = (Stmt.decl d).kinds ++ l) : ∃ d', s = .decl d' := by
  cases s with
  | decl d' => exact ⟨d', rfl⟩
  | _ =>
    simp only [kinds, Var.kinds, List.cons_append] at h
    exact absurd h.symm (append_ne_cons d.kinds_eq_cons id _ _)

mutual

theorem Stmt.determined : ∀ a : Stmt, Determined EndsStmt Stmt.kinds a
  | .decl d => by
    intro b k l hk hl h
    cases b with
    | decl d' =>
      simp only [Stmt.kinds] at h
      obtain ⟨rfl, h₁⟩ := d.determined trivial trivial h
      exact ⟨rfl, h₁⟩
    | _ =>
      obtain ⟨_, hd⟩ := Stmt.eq_decl_of_kinds h.symm
      cases hd
  | .cond e body elifs o => by
    intro b k l hk hl h
    cases b with
    | decl d =>
      obtain ⟨_, hd⟩ := Stmt.eq_decl_of_kinds h
      cases hd
    | cond e' body' elifs' o' =>
      simp only [Stmt.kinds, List.cons_append, List.append_assoc, List.cons.injEq, true_and] at h
      obtain ⟨rfl, h₁⟩ := guardKinds_determined e trivial trivial h
      obtain ⟨rfl, h₂⟩ := body.determined ⟨_, rfl⟩ ⟨_, rfl⟩ h₁
      obtain ⟨rfl, h₃⟩ := elifs.determined (o.noElif hk) (o'.noElif hl) (List.cons.inj h₂).2
      obtain ⟨rfl, h₄⟩ := o.determined hk hl h₃
      exact ⟨rfl, h₄⟩
    | _ => simp [Stmt.kinds, Var.kinds] at h
  | .loop e body => by
    intro b k l hk hl h
    cases b with
    | decl d =>
      obtain ⟨_, hd⟩ := Stmt.eq_decl_of_kinds h
      cases hd
    | loop e' body' =>
      simp only [Stmt.kinds, List.cons_append, List.append_assoc, List.cons.injEq, true_and] at h
      obtain ⟨rfl, h₁⟩ := guardKinds_determined e trivial trivial h
      obtain ⟨rfl, h₂⟩ := body.determined ⟨_, rfl⟩ ⟨_, rfl⟩ h₁
      exact ⟨rfl, (List.cons.inj h₂).2⟩
    | _ => simp [Stmt.kinds, Var.kinds] at h
  | .each v e body => by
    intro b k l hk hl h
    cases b with
    | decl d =>
      obtain ⟨_, hd⟩ := Stmt.eq_decl_of_kinds h
      cases hd
    | each v' e' body' =>
      simp only [Stmt.kinds, List.cons_append, List.append_assoc, List.cons.injEq, true_and] at h
      obtain ⟨rfl, h₁⟩ := v.determined (noAccessor_cons (by simp)) (noAccessor_cons (by simp)) h
      obtain ⟨rfl, h₂⟩ := e.determined endsExpr_rparen endsExpr_rparen (List.cons.inj h₁).2
      simp only [List.cons.injEq, true_and] at h₂
      obtain ⟨rfl, h₃⟩ := body.determined ⟨_, rfl⟩ ⟨_, rfl⟩ h₂
      exact ⟨rfl, (List.cons.inj h₃).2⟩
    | _ => simp [Stmt.kinds, Var.kinds] at h
  | .assign v e => by
    intro b k l hk hl h
    cases b with
    | decl d =>
      obtain ⟨_, hd⟩ := Stmt.eq_decl_of_kinds h
      cases hd
    | assign v' e' =>
      simp only [Stmt.kinds, List.cons_append, List.append_assoc] at h
      obtain ⟨rfl, h₁⟩ := v.determined (noAccessor_cons (by simp)) (noAccessor_cons (by simp)) h
      obtain ⟨rfl, h₂⟩ := e.determined endsExpr_semicolon endsExpr_semicolon (List.cons.inj h₁).2
      exact ⟨rfl, (List.cons.inj h₂).2⟩
    | call n args =>
      simp only [Stmt.kinds, List.cons_append, List.append_assoc] at h
      exact absurd h (v.kinds_ne_call (endsExpr_mark (by decide)).1)
    | _ => simp [Stmt.kinds, Var.kinds] at h
  | .call n args => by
    intro b k l hk hl h
    cases b with
    | decl d =>
      obtain ⟨_, hd⟩ := Stmt.eq_decl_of_kinds h
      cases hd
    | assign v e =>
      simp only [Stmt.kinds, List.cons_append, List.append_assoc] at h
      exact absurd h.symm (v.kinds_ne_call (endsExpr_mark (by decide)).1)
    | call m args' =>
      simp only [Stmt.kinds, List.cons_append, List.append_assoc, List.cons.injEq, Kind.ident.injEq,
        true_and] at h
      obtain ⟨rfl, h⟩ := h
      obtain ⟨rfl, h₁⟩ := args.determined ⟨_, rfl⟩ ⟨_, rfl⟩ h
      exact ⟨rfl, (List.cons.inj (List.cons.inj h₁).2).2⟩
    | _ => simp [Stmt.kinds] at h
  | .ret e => by
    intro b k l hk hl h
    cases b with
    | decl d =>
      obtain ⟨_, hd⟩ := Stmt.eq_decl_of_kinds h
      cases hd
    | ret e' =>
      simp only [Stmt.kinds, List.cons_append, List.append_assoc, List.cons.injEq, true_and] at h
      obtain ⟨rfl, h₁⟩ := e.determined endsExpr_semicolon endsExpr_semicolon h
      exact ⟨rfl, (List.cons.inj h₁).2⟩
    | retNone =>
      simp only [Stmt.kinds, List.cons_append, List.append_assoc, List.nil_append, List.cons.injEq,
        true_and] at h
      exact absurd h (append_ne_cons e.kinds_eq_cons id _ _)
    | _ => simp [Stmt.kinds, Var.kinds] at h
  | .retNone => by
    intro b k l hk hl h
    cases b with
    | decl d =>
      obtain ⟨_, hd⟩ := Stmt.eq_decl_of_kinds h
      cases hd
    | ret e =>
      simp only [Stmt.kinds, List.cons_append, List.append_assoc, List.nil_append, List.cons.injEq,
        true_and] at h
      exact absurd h.symm (append_ne_cons e.kinds_eq_cons id _ _)
    | retNone => exact ⟨rfl, by simpa [Stmt.kinds] using h⟩
    | _ => simp [Stmt.kinds, Var.kinds] at h
  | .brk | .cont => by
    intro b k l hk hl h
    cases b with
    | decl d =>
      obtain ⟨_, hd⟩ := Stmt.eq_decl_of_kinds h
      cases hd
    | _ =>
      simp [Stmt.kinds, Var.kinds] at h ⊢
      all_goals exact h

theorem Body.determined : ∀ a : Body, Determined (Next (.mark .rbrace)) Body.kinds a
  | .done => by
    intro b k l hk hl h
    cases b with
    | done => exact ⟨rfl, by simpa only [Body.kinds, List.nil_append] using h⟩
    | more s rest =>
      obtain ⟨r, rfl⟩ := hk
      simp only [Body.kinds, List.nil_append, List.append_assoc] at h
      exact absurd h.symm (s.kinds_ne_rbrace _ _)
  | .more s rest => by
    intro b k l hk hl h
    cases b with
    | done =>
      obtain ⟨r, rfl⟩ := hl
      simp only [Body.kinds, List.nil_append, List.append_assoc] at h
      exact absurd h (s.kinds_ne_rbrace _ _)
    | more s' rest' =>
      simp only [Body.kinds, List.append_assoc] at h
      obtain ⟨rfl, h₁⟩ := s.determined (rest.endsStmt hk) (rest'.endsStmt hl) h
      obtain ⟨rfl, h₂⟩ := rest.determined hk hl h₁
      exact ⟨rfl, h₂⟩

theorem Elifs.determined : ∀ a : Elifs, Determined NoElif Elifs.kinds a
  | .done => by
    intro b k l hk hl h
    cases b with
    | done => exact ⟨rfl, by simpa only [Elifs.kinds, List.nil_append] using h⟩
    | more e body rest =>
      simp only [Elifs.kinds, List.cons_append, List.nil_append] at h
      subst h
      exact absurd rfl (hk _ rfl)
  | .more e body rest => by
    intro b k l hk hl h
    cases b with
    | done =>
      simp only [Elifs.kinds, List.cons_append, List.nil_append] at h
      subst h
      exact absurd rfl (hl _ rfl)
    | more e' body' rest' =>
      simp only [Elifs.kinds, List.cons_append, List.append_assoc, List.cons.injEq, true_and] at h
      obtain ⟨rfl, h₁⟩ := guardKinds_determined e trivial trivial h
      obtain ⟨rfl, h₂⟩ := body.determined ⟨_, rfl⟩ ⟨_, rfl⟩ h₁
      obtain ⟨rfl, h₃⟩ := rest.determined hk hl (List.cons.inj h₂).2
      exact ⟨rfl, h₃⟩

theorem Else.determined : ∀ a : Else, Determined EndsStmt Else.kinds a
  | .none => by
    intro b k l hk hl h
    cases b with
    | none => exact ⟨rfl, by simpa only [Else.kinds, List.nil_append] using h⟩
    | some body =>
      simp only [Else.kinds, List.cons_append, List.nil_append] at h
      subst h
      exact absurd rfl (hk _ rfl).2
  | .some body => by
    intro b k l hk hl h
    cases b with
    | none =>
      simp only [Else.kinds, List.cons_append, List.nil_append] at h
      subst h
      exact absurd rfl (hl _ rfl).2
    | some body' =>
      simp only [Else.kinds, List.cons_append, List.append_assoc, List.cons.injEq, true_and] at h
      obtain ⟨rfl, h₁⟩ := body.determined ⟨_, rfl⟩ ⟨_, rfl⟩ h
      exact ⟨rfl, (List.cons.inj h₁).2⟩

end

/-! ## Programs -/

/-- A repetition is determined if its elements are, and none of them begins like what follows it. -/
theorem determined_flatMap {α : Type} {kinds : α → List Kind} {ends stop : List Kind → Prop}
    (hkinds : ∀ a, Determined ends kinds a) (hstop : ∀ a k l, stop k → kinds a ++ l ≠ k)
    (hends : ∀ as k, stop k → ends (List.flatMap kinds as ++ k)) (as : List α) :
    Determined stop (List.flatMap kinds) as := by
  induction as with
  | nil =>
    intro bs k l hk hl h
    cases bs with
    | nil => exact ⟨rfl, h⟩
    | cons b bs =>
      rw [List.flatMap_nil, List.nil_append, List.flatMap_cons, List.append_assoc] at h
      exact absurd h.symm (hstop b k _ hk)
  | cons a as ih =>
    intro bs k l hk hl h
    cases bs with
    | nil =>
      rw [List.flatMap_nil, List.nil_append, List.flatMap_cons, List.append_assoc] at h
      exact absurd h (hstop a l _ hl)
    | cons b bs =>
      rw [List.flatMap_cons, List.flatMap_cons, List.append_assoc, List.append_assoc] at h
      obtain ⟨rfl, h₁⟩ := hkinds a (hends as k hk) (hends bs l hl) h
      obtain ⟨rfl, h₂⟩ := ih hk hl h₁
      exact ⟨rfl, h₂⟩

theorem Signature.determined (s : Signature) : Determined Anything kinds s := by
  rintro ⟨params', result'⟩ k l _ _ h
  obtain ⟨params, result⟩ := s
  have hparams : Determined (Next (.mark .arrow)) (List.flatMap Ty.kinds) params :=
    determined_flatMap Ty.determined (fun t k l hk h => ?_) (fun _ _ _ => trivial) params
  · simp only [kinds, List.append_assoc, List.cons_append] at h
    obtain ⟨rfl, h₁⟩ := hparams ⟨_, rfl⟩ ⟨_, rfl⟩ h
    obtain ⟨rfl, h₂⟩ := result.determined trivial trivial (List.cons.inj h₁).2
    exact ⟨rfl, h₂⟩
  · obtain ⟨r, rfl⟩ := hk
    exact absurd h (append_ne_cons (j := .mark .arrow) t.kinds_eq_cons (fun h => h.1) _ _)

theorem kindOf_injective : Function.Injective Name.kindOf := by
  rintro ⟨s, k⟩ ⟨s', k'⟩ h
  cases k <;> cases k' <;> simp_all [Name.kindOf]

/-- No alias comes next. -/
def NoAlias (k : List Kind) : Prop := ∀ j ∈ k.head?, j ≠ .keyword .kwAs

theorem ImportName.determined (n : ImportName) : Determined NoAlias kinds n := by
  intro m k l hk hl h
  cases n with
  | plain a =>
    cases m with
    | plain b =>
      simp only [kinds, List.cons_append, List.nil_append, List.cons.injEq] at h
      exact ⟨by rw [kindOf_injective h.1], h.2⟩
    | renamed b c =>
      simp only [kinds, List.cons_append, List.nil_append, List.cons.injEq] at h
      rw [h.2] at hk
      exact absurd rfl (hk _ rfl)
  | renamed a a' =>
    cases m with
    | plain b =>
      simp only [kinds, List.cons_append, List.nil_append, List.cons.injEq] at h
      rw [← h.2] at hl
      exact absurd rfl (hl _ rfl)
    | renamed b b' =>
      simp only [kinds, List.cons_append, List.nil_append, List.cons.injEq, true_and] at h
      exact ⟨by rw [kindOf_injective h.1, kindOf_injective h.2.1], h.2.2⟩

/-- What follows a name in an import line is no alias of it. -/
theorem Import.noAlias (ns : List ImportName) (k : List Kind) (hk : Next (.mark .semicolon) k) :
    NoAlias (ns.flatMap (fun n => .mark .comma :: n.kinds) ++ k) := by
  obtain ⟨r, rfl⟩ := hk
  intro j hj
  cases ns <;> cases hj <;> simp

theorem Import.determined (i : Import) : Determined Anything kinds i := by
  intro i' k l _ _ h
  cases i with
  | all m =>
    cases i' with
    | all m' => simpa [kinds] using h
    | names => simp [kinds] at h
  | names m first rest =>
    cases i' with
    | all => simp [kinds] at h
    | names m' first' rest' =>
      simp only [kinds, restKinds, List.cons_append, List.append_assoc, List.nil_append,
        List.cons.injEq, Kind.ident.injEq, true_and] at h
      obtain ⟨rfl, h⟩ := h
      have hnames :
          ∀ n : ImportName, Determined NoAlias (fun n : ImportName => .mark .comma :: n.kinds) n :=
        fun n m k l hk hl h => n.determined hk hl (List.cons.inj h).2
      obtain ⟨rfl, h₁⟩ := first.determined (noAlias rest _ ⟨_, rfl⟩) (noAlias rest' _ ⟨_, rfl⟩) h
      obtain ⟨rfl, h₂⟩ :=
        determined_flatMap hnames (fun n k l hk h => by obtain ⟨r, rfl⟩ := hk; simp at h)
        noAlias rest ⟨_, rfl⟩ ⟨_, rfl⟩ h₁
      exact ⟨rfl, (List.cons.inj h₂).2⟩

theorem word_injective : Function.Injective Head.word := by
  intro s s' h
  cases s <;> cases s' <;> cases h <;> rfl

theorem Head.determined (a : Head) : Determined Anything kinds a := by
  intro b k l _ _ h
  cases a with
  | function n =>
    cases b with
    | function m => simpa [kinds] using h
    | prefixOp | infixOp => simp [kinds] at h
  | prefixOp n =>
    cases b with
    | prefixOp m => simpa [kinds] using h
    | function => simp [kinds] at h
    | infixOp s => cases s <;> simp [kinds, Head.word] at h
  | infixOp s p n =>
    cases b with
    | infixOp s' p' m =>
      simp only [kinds, List.cons_append, List.nil_append, List.cons.injEq, Kind.keyword.injEq,
        Kind.int.injEq, Kind.op.injEq] at h
      obtain ⟨hs, hp, rfl, rfl⟩ := h
      exact ⟨by rw [word_injective hs, UInt8.toNat_inj.1 hp], rfl⟩
    | function => simp [kinds] at h
    | prefixOp => cases s <;> simp [kinds, Head.word] at h

theorem FnDecl.determined_params (ps : List String) : Determined Anything paramKinds ps := by
  intro qs k l _ _ h
  cases ps with
  | nil =>
    cases qs with
    | nil => simpa [paramKinds] using h
    | cons => simp [paramKinds] at h
  | cons p ps =>
    cases qs with
    | nil => simp [paramKinds] at h
    | cons q qs =>
      simp only [paramKinds, List.cons_append, List.append_assoc, List.cons.injEq, Kind.ident.injEq]
        at h
      obtain ⟨rfl, h⟩ := h
      have hname : ∀ n : String, Determined Anything (fun n => [Kind.mark .comma, .ident n]) n :=
        fun n m k l _ _ h => by simpa using h
      have hparen :
          ∀ (n : String) k l, Next (.mark .rparen) k → [Kind.mark .comma, .ident n] ++ l ≠ k :=
        fun n k l hk h => by obtain ⟨r, rfl⟩ := hk; simp at h
      obtain ⟨rfl, h₁⟩ :=
        determined_flatMap hname hparen (fun _ _ _ => trivial) ps ⟨_, rfl⟩ ⟨_, rfl⟩ h
      exact ⟨rfl, (List.cons.inj h₁).2⟩

theorem FnDecl.determined_sig (s : Option Signature) :
    Determined (Next (.mark .lbrace)) sigKinds s := by
  intro s' k l hk hl h
  obtain ⟨k, rfl⟩ := hk
  obtain ⟨l, rfl⟩ := hl
  cases s with
  | none =>
    cases s' with
    | none => exact ⟨rfl, h⟩
    | some => simp [sigKinds] at h
  | some s =>
    cases s' with
    | none => simp [sigKinds] at h
    | some s' =>
      obtain ⟨rfl, h₁⟩ := s.determined trivial trivial (List.cons.inj h).2
      exact ⟨rfl, h₁⟩

theorem FnDecl.determined (f : FnDecl) : Determined Anything kinds f := by
  rintro ⟨head', params', sig', body'⟩ k l _ _ h
  obtain ⟨head, params, sig, body⟩ := f
  simp only [kinds, List.cons_append, List.append_assoc] at h
  obtain ⟨rfl, h₁⟩ := head.determined trivial trivial h
  obtain ⟨rfl, h₂⟩ := determined_params params trivial trivial (List.cons.inj h₁).2
  obtain ⟨rfl, h₃⟩ := determined_sig sig ⟨_, rfl⟩ ⟨_, rfl⟩ h₂
  obtain ⟨rfl, h₄⟩ := body.determined ⟨_, rfl⟩ ⟨_, rfl⟩ (List.cons.inj h₃).2
  exact ⟨rfl, (List.cons.inj h₄).2⟩

/-- The tokens that a callable may begin with. -/
def StartsFn : Kind → Prop
  | .ident _ | .keyword .kwPrefix | .keyword .kwInfixl | .keyword .kwInfixr => True
  | _ => False

theorem StartsDecl.not_startsFn {j : Kind} (h : StartsDecl j) : ¬ StartsFn j := by
  unfold StartsDecl at h
  split at h <;> first | exact id | exact h.elim

/-- The tokens that a line of the alternative may begin with. -/
def Decl.Starts : Decl → Kind → Prop
  | .imports _, j => j = .keyword .kwFrom
  | .synonym _ _, j => j = .keyword .kwType
  | .global _, j => StartsDecl j
  | .fn _, j => StartsFn j

theorem Decl.kinds_eq_cons (a : Decl) : ∃ j ks, a.kinds = j :: ks ∧ a.Starts j := by
  cases a with
  | imports i => cases i <;> exact ⟨_, _, rfl, rfl⟩
  | synonym => exact ⟨_, _, rfl, rfl⟩
  | global d => exact d.kinds_eq_cons
  | fn f =>
    obtain ⟨head, params, sig, body⟩ := f
    cases head with
    | function | prefixOp => exact ⟨_, _, rfl, trivial⟩
    | infixOp side => cases side <;> exact ⟨_, _, rfl, trivial⟩

theorem Decl.determined (a : Decl) : Determined Anything kinds a := by
  intro b k l _ _ h
  -- the first token tells the alternatives apart
  obtain ⟨i, ks, ha, hi⟩ := a.kinds_eq_cons
  obtain ⟨j, ls, hb, hj⟩ := b.kinds_eq_cons
  obtain rfl : i = j := by
    rw [ha, hb] at h
    exact (List.cons.inj h).1
  cases a with
  | imports a =>
    cases hi
    cases b with
    | imports b =>
      obtain ⟨rfl, h₁⟩ := a.determined trivial trivial h
      exact ⟨rfl, h₁⟩
    | synonym | global | fn => cases hj
  | synonym n t =>
    cases hi
    cases b with
    | synonym m t' =>
      simp only [kinds, List.cons_append, List.append_assoc, List.cons.injEq, Kind.typeName.injEq,
        true_and] at h
      obtain ⟨rfl, h⟩ := h
      obtain ⟨rfl, h₁⟩ := t.determined trivial trivial h
      exact ⟨rfl, (List.cons.inj h₁).2⟩
    | imports | global | fn => cases hj
  | global a =>
    cases b with
    | global b =>
      obtain ⟨rfl, h₁⟩ := a.determined trivial trivial h
      exact ⟨rfl, h₁⟩
    | imports | synonym => cases hj; cases hi
    | fn => exact absurd hj (StartsDecl.not_startsFn hi)
  | fn a =>
    cases b with
    | fn b =>
      obtain ⟨rfl, h₁⟩ := a.determined trivial trivial h
      exact ⟨rfl, h₁⟩
    | imports | synonym => cases hj; cases hi
    | global => exact absurd hi (StartsDecl.not_startsFn hj)

/-- No two programs consist of the same tokens. -/
theorem Program.eq_of_kinds {p q : Program} (h : p.kinds = q.kinds) : p = q := by
  have hline : ∀ (a : Decl) (k l : List Kind), k = [] → a.kinds ++ l ≠ k := by
    rintro a k l rfl hnil
    obtain ⟨j, ks, ha, -⟩ := a.kinds_eq_cons
    rw [ha] at hnil
    cases hnil
  have hp := determined_flatMap Decl.determined hline (fun _ _ _ => trivial) p
  exact (hp rfl rfl (congrArg (· ++ []) h)).1

end Phrase

end SplFrontend
