import SplFrontend.Proofs.Grammar.Sound
import SplFrontend.Proofs.Grammar.Unique

/-!
# The readers accept the grammar

Tokens that begin with a phrase, followed by nothing that extends it, are read as the tree of the
phrase. With the converse, and since tokens determine a phrase, a list of tokens is read as a
program exactly if it is one, and it is one in only one way.
-/

namespace SplFrontend

namespace Phrase

/-- Tokens that begin with these kinds and go on with what is `ends` are read as a tree that is, up
to places, the given one. -/
def ReadAs {α β : Type} (reads : List Token → α → List Token → Prop) (erase : α → β)
    (ends : List Kind → Prop) (kinds : List Kind) (tree : β) : Prop :=
  ∀ ⦃ts : List Token⦄ ⦃js : List Kind⦄, kindsOf ts = kinds ++ js → ends js →
    ∃ a r, reads ts a r ∧ kindsOf r = js ∧ erase a = tree

/-! ## Types and signatures -/

theorem Ty.readAs (t : Ty) : ReadAs Ty.Reads id Anything t.kinds t.tree := by
  induction t with
  | name n =>
    intro ts js hts _
    obtain ⟨l, r, rfl, hr⟩ := kindsOf_eq_cons hts
    exact ⟨_, r, .name, hr, rfl⟩
  | pair a b iha ihb =>
    intro ts js hts _
    simp only [kinds, List.cons_append, List.append_assoc, List.nil_append] at hts
    obtain ⟨l₁, ts, rfl, hts₁⟩ := kindsOf_eq_cons hts
    obtain ⟨t, r, ha, hr, rfl⟩ := iha hts₁ trivial
    obtain ⟨l₂, r, rfl, hr₁⟩ := kindsOf_eq_cons hr
    obtain ⟨u, s, hb, hs, rfl⟩ := ihb hr₁ trivial
    obtain ⟨l₃, s, rfl, hs₁⟩ := kindsOf_eq_cons hs
    exact ⟨_, s, .pair ha hb, hs₁, rfl⟩
  | list a ih =>
    intro ts js hts _
    simp only [kinds, List.cons_append, List.append_assoc, List.nil_append] at hts
    obtain ⟨l₁, ts, rfl, hts₁⟩ := kindsOf_eq_cons hts
    obtain ⟨t, r, ha, hr, rfl⟩ := ih hts₁ trivial
    obtain ⟨l₂, r, rfl, hr₁⟩ := kindsOf_eq_cons hr
    exact ⟨_, r, .list ha, hr₁, rfl⟩

theorem Signature.readAs (s : Signature) : ReadAs Signature.Reads id Anything s.kinds s.tree := by
  obtain ⟨params, result⟩ := s
  induction params with
  | nil =>
    intro ts js hts _
    obtain ⟨l, ts, rfl, hts₁⟩ := kindsOf_eq_cons hts
    obtain ⟨t, r, ht, hr, rfl⟩ := result.readAs hts₁ trivial
    exact ⟨_, r, .result ht, hr, rfl⟩
  | cons t params ih =>
    intro ts js hts _
    have hts₁ : kindsOf ts = t.kinds ++ (Signature.kinds ⟨params, result⟩ ++ js) := by
      rw [hts]
      simp only [kinds, List.flatMap_cons, List.append_assoc]
    obtain ⟨t, r, ht, hr, rfl⟩ := t.readAs hts₁ trivial
    obtain ⟨sig, r, hs, hr₁, hsig⟩ := ih hr trivial
    refine ⟨_, r, .param ht hs, hr₁, ?_⟩
    rw [id_eq] at hsig
    rw [id_eq, hsig]
    rfl

/-! ## Expressions -/

theorem accessors_readAs {v : Var} {l : Loc} {ts : List Token} {js : List Kind}
    (hts : kindsOf ts = v.accessors.map .accessor ++ js) (hjs : EndsOperand js) :
    ∃ e r, Expr.ReadsAtom (⟨.ident v.name, l⟩ :: ts) e r ∧ kindsOf r = js ∧
      e.unlocated = .var v.tree := by
  obtain ⟨r, hr, hk⟩ := accessorsOf_kinds (EndsOperand.noAccessor hjs) hts
  have hparen : NoParen ts := by
    rintro l' s rfl
    exact v.kinds_ne_call hjs (congrArg (Kind.ident v.name :: ·) hts).symm
  have hvar := Expr.ReadsAtom.var (n := v.name) (l := l) hparen
  rw [hr] at hvar
  exact ⟨_, r, hvar, hk, by rw [Expr.unlocated, Expr.erase]; rfl⟩

/-- An atom of one token. -/
theorem token_readAs {k : Kind} {e : SplFrontend.Expr} (f : Loc → SplFrontend.Expr)
    (hr : ∀ l r, Expr.ReadsAtom (⟨k, l⟩ :: r) (f l) r) (hf : ∀ l, (f l).unlocated = e) :
    ReadAs Expr.ReadsAtom Expr.unlocated EndsOperand [k] e := by
  intro ts js hts _
  obtain ⟨l, r, rfl, hk⟩ := kindsOf_eq_cons hts
  exact ⟨f l, r, hr l r, hk, hf l⟩

mutual

theorem Expr.readAs : ∀ e : Expr, ReadAs Expr.Reads Expr.unlocated EndsExpr e.kinds e.tree
  | .mk u .done => by
    intro ts js hts hjs
    simp only [Expr.kinds, Rest.kinds, List.append_nil] at hts
    obtain ⟨e, r, he, hr, htree⟩ := u.readAs hts hjs.1
    exact ⟨e, r, .single he (hjs.noOperator hr), hr, by rw [Expr.tree, Rest.tree, sequence, htree]⟩
  | .mk u (.more op v rest) => by
    intro ts js hts hjs
    simp only [Expr.kinds, Rest.kinds, List.append_assoc, List.cons_append] at hts
    obtain ⟨e, r, he, hr, htree⟩ := u.readAs hts endsOperand_op
    obtain ⟨l, r, rfl, hr₁⟩ := kindsOf_eq_cons hr
    rw [← List.append_assoc] at hr₁
    obtain ⟨os, s, hos, hs, htrees⟩ := rest.readAs v.readAs ⟨op, l⟩ hr₁ hjs
    refine ⟨.flat e os e.loc, s, .flat he hos, hs, ?_⟩
    rw [Expr.unlocated, Expr.erase, htrees, Expr.tree, ← htree]
    simp only [Rest.tree, sequence]

theorem Rest.readAs : ∀ (rest : Rest) {u : Unary},
    ReadAs Expr.ReadsOperand Expr.unlocated EndsOperand u.kinds u.tree → ∀ o : OpUse,
    ReadAs (Expr.ReadsChain o) (Expr.eraseRest .places) EndsExpr (u.kinds ++ rest.kinds)
      ((⟨o.name, .nowhere⟩, u.tree) :: rest.tree)
  | .done, u, hu, o => by
    intro ts js hts hjs
    rw [Rest.kinds, List.append_nil] at hts
    obtain ⟨e, r, he, hr, htree⟩ := hu hts hjs.1
    exact ⟨[(o, e)], r, .last he (hjs.noOperator hr), hr,
      by simp only [Expr.eraseRest, Rest.tree, htree]⟩
  | .more op v rest, u, hu, o => by
    intro ts js hts hjs
    simp only [Rest.kinds, List.append_assoc, List.cons_append] at hts
    obtain ⟨e, r, he, hr, htree⟩ := hu hts endsOperand_op
    obtain ⟨l, r, rfl, hr₁⟩ := kindsOf_eq_cons hr
    rw [← List.append_assoc] at hr₁
    obtain ⟨os, s, hos, hs, htrees⟩ := rest.readAs v.readAs ⟨op, l⟩ hr₁ hjs
    exact ⟨(o, e) :: os, s, .more he hos, hs,
      by simp only [Expr.eraseRest, Rest.tree, htree, htrees]⟩

theorem Unary.readAs :
    ∀ u : Unary, ReadAs Expr.ReadsOperand Expr.unlocated EndsOperand u.kinds u.tree
  | .prefixed op u => by
    intro ts js hts hjs
    simp only [Unary.kinds, List.cons_append] at hts
    obtain ⟨l, ts, rfl, hts₁⟩ := kindsOf_eq_cons hts
    obtain ⟨e, r, he, hr, htree⟩ := u.readAs hts₁ hjs
    refine ⟨.call .prefixOp op [e] l, r, .prefixed he, hr, ?_⟩
    rw [Unary.tree, ← htree, Expr.unlocated, Expr.erase]
    rfl
  | .atom a => by
    intro ts js hts hjs
    rw [Unary.kinds] at hts
    obtain ⟨e, r, he, hr, htree⟩ := a.readAs hts hjs
    exact ⟨e, r, .atom he, hr, by rw [Unary.tree, htree]⟩

theorem Atom.readAs : ∀ a : Atom, ReadAs Expr.ReadsAtom Expr.unlocated EndsOperand a.kinds a.tree
  | .int n => token_readAs (.int n) (fun _ _ => .int) fun _ => rfl
  | .char c => token_readAs (.char c) (fun _ _ => .char) fun _ => rfl
  | .str s => token_readAs (.str s) (fun _ _ => .str) fun _ => rfl
  | .bool b => token_readAs (.bool b) (fun _ _ => .bool) fun _ => rfl
  | .emptyList => by
    intro ts js hts _
    obtain ⟨l₁, ts, rfl, hts₁⟩ := kindsOf_eq_cons hts
    obtain ⟨l₂, r, rfl, hr⟩ := kindsOf_eq_cons hts₁
    exact ⟨_, r, .emptyList, hr, rfl⟩
  | .paren e => by
    intro ts js hts _
    simp only [Atom.kinds, List.cons_append, List.append_assoc, List.nil_append] at hts
    obtain ⟨l₁, ts, rfl, hts₁⟩ := kindsOf_eq_cons hts
    obtain ⟨e', r, he, hr, htree⟩ := e.readAs hts₁ endsExpr_rparen
    obtain ⟨l₂, r, rfl, hr₁⟩ := kindsOf_eq_cons hr
    exact ⟨e', r, .paren he, hr₁, by rw [Atom.tree, htree]⟩
  | .pair a b => by
    intro ts js hts _
    simp only [Atom.kinds, List.cons_append, List.append_assoc, List.nil_append] at hts
    obtain ⟨l₁, ts, rfl, hts₁⟩ := kindsOf_eq_cons hts
    obtain ⟨a', r, ha, hr, hta⟩ := a.readAs hts₁ endsExpr_comma
    obtain ⟨l₂, r, rfl, hr₁⟩ := kindsOf_eq_cons hr
    obtain ⟨b', s, hb, hs, htb⟩ := b.readAs hr₁ endsExpr_rparen
    obtain ⟨l₃, s, rfl, hs₁⟩ := kindsOf_eq_cons hs
    exact ⟨.pair a' b' l₁, s, .pair ha hb, hs₁,
      by rw [Atom.tree, ← hta, ← htb, Expr.unlocated, Expr.erase]⟩
  | .call n args => by
    intro ts js hts _
    simp only [Atom.kinds, List.cons_append, List.append_assoc, List.nil_append] at hts
    obtain ⟨l₁, ts, rfl, hts₁⟩ := kindsOf_eq_cons hts
    obtain ⟨l₂, ts, rfl, hts₂⟩ := kindsOf_eq_cons hts₁
    obtain ⟨es, r, hes, hr, htrees⟩ := args.readAs (by rw [hts₂, List.append_assoc]; rfl) trivial
    refine ⟨.call .function n es l₁, r, .call hes, hr, ?_⟩
    rw [Atom.tree, ← htrees, Expr.unlocated, Expr.erase]
    rfl
  | .var v => by
    intro ts js hts hjs
    obtain ⟨l, ts, rfl, hts₁⟩ := kindsOf_eq_cons hts
    obtain ⟨e, r, he, hr, htree⟩ := accessors_readAs hts₁ hjs
    exact ⟨e, r, he, hr, by rw [Atom.tree, htree]⟩

theorem Args.readAs : ∀ args : Args,
    ReadAs Expr.ReadsArgs (Expr.eraseArgs .places) Anything
      (args.kinds ++ [.mark .rparen]) args.tree
  | .none => by
    intro ts js hts _
    obtain ⟨l, r, rfl, hr⟩ := kindsOf_eq_cons hts
    exact ⟨[], r, .none, hr, rfl⟩
  | .some e rest => by
    intro ts js hts _
    rw [Args.kinds] at hts
    obtain ⟨es, r, hes, hr, htrees⟩ := rest.readAs e.readAs hts trivial
    exact ⟨es, r, .some hes, hr, by rw [Args.tree, htrees]⟩

theorem MoreArgs.readAs : ∀ (rest : MoreArgs) {e : Expr},
    ReadAs Expr.Reads Expr.unlocated EndsExpr e.kinds e.tree →
    ReadAs Expr.ReadsMoreArgs (Expr.eraseArgs .places) Anything
      (e.kinds ++ rest.kinds ++ [.mark .rparen]) (e.tree :: rest.tree)
  | .done, e, he => by
    intro ts js hts _
    simp only [MoreArgs.kinds, List.append_nil, List.append_assoc, List.cons_append,
      List.nil_append] at hts
    obtain ⟨e', r, hr, hk, htree⟩ := he hts endsExpr_rparen
    obtain ⟨l, r, rfl, hk₁⟩ := kindsOf_eq_cons hk
    exact ⟨[e'], r, .last hr, hk₁, by simp only [Expr.eraseArgs, MoreArgs.tree, htree]⟩
  | .more e₂ rest, e, he => by
    intro ts js hts _
    simp only [MoreArgs.kinds, List.append_assoc, List.cons_append, List.nil_append] at hts
    obtain ⟨e', r, hr, hk, htree⟩ := he hts endsExpr_comma
    obtain ⟨l, r, rfl, hk₁⟩ := kindsOf_eq_cons hk
    obtain ⟨es, s, hes, hs, htrees⟩ := rest.readAs e₂.readAs
      (by rw [hk₁, List.append_assoc, List.append_assoc]; rfl) trivial
    exact ⟨e' :: es, s, .more hr hes, hs,
      by simp only [Expr.eraseArgs, MoreArgs.tree, htree, htrees]⟩

end

/-! ## Statements -/

theorem VarDecl.readAs (d : VarDecl) :
    ReadAs VarDecl.Reads (SplFrontend.VarDecl.erase .places) Anything d.kinds d.tree := by
  intro ts js hts _
  cases d with
  | untyped n e =>
    simp only [kinds, List.cons_append, List.append_assoc, List.nil_append] at hts
    obtain ⟨l, ts, rfl, hts₁⟩ := kindsOf_eq_cons hts
    obtain ⟨l₁, ts, rfl, hts₂⟩ := kindsOf_eq_cons hts₁
    obtain ⟨l₂, ts, rfl, hts₃⟩ := kindsOf_eq_cons hts₂
    obtain ⟨e', r, he, hr, htree⟩ := e.readAs hts₃ endsExpr_semicolon
    obtain ⟨l₃, r, rfl, hr₁⟩ := kindsOf_eq_cons hr
    exact ⟨⟨n, none, e', l⟩, r, .untyped he, hr₁, by rw [tree, ← htree, SplFrontend.VarDecl.erase]⟩
  | typed t n e =>
    simp only [kinds, List.cons_append, List.append_assoc, List.nil_append] at hts
    obtain ⟨t', s, ht, hs, htt⟩ := t.readAs hts trivial
    obtain ⟨l₁, s, rfl, hs₁⟩ := kindsOf_eq_cons hs
    obtain ⟨l₂, s, rfl, hs₂⟩ := kindsOf_eq_cons hs₁
    obtain ⟨e', r, he, hr, htree⟩ := e.readAs hs₂ endsExpr_semicolon
    obtain ⟨l₃, r, rfl, hr₁⟩ := kindsOf_eq_cons hr
    cases ts with
    | nil => cases ht
    | cons u ts =>
      refine ⟨⟨n, some t', e', u.loc⟩, r, .typed ht he, hr₁, ?_⟩
      rw [tree, ← htt, ← htree, SplFrontend.VarDecl.erase, id_eq]

/-- The statements of a block are read up to the closing brace. -/
abbrev Body.IsRead (body : Body) : Prop :=
  ReadAs Stmt.ReadsBody (Stmt.eraseAll .places) Anything (body.kinds ++ [.mark .rbrace]) body.tree

theorem Body.IsRead.block {body : Body} (h : body.IsRead) :
    ReadAs Stmt.ReadsBlock (Stmt.eraseAll .places) Anything
      (.mark .lbrace :: (body.kinds ++ [.mark .rbrace])) body.tree := by
  intro ts js hts _
  obtain ⟨l, ts, rfl, hts₁⟩ := kindsOf_eq_cons hts
  obtain ⟨b, r, hb, hr, htree⟩ := h hts₁ trivial
  exact ⟨b, r, .mk hb, hr, htree⟩

/-- A condition and the block after it. -/
theorem Body.IsRead.guard {body : Body} (h : body.IsRead) (e : Expr) {ts : List Token}
    {js : List Kind} (hts : kindsOf ts = guardKinds e ++ (body.kinds ++ .mark .rbrace :: js)) :
    ∃ e' b l₁ l₂ s s' r, ts = ⟨.mark .lparen, l₁⟩ :: s ∧
      Expr.Reads s e' (⟨.mark .rparen, l₂⟩ :: s') ∧
      Stmt.ReadsBlock s' b r ∧ kindsOf r = js ∧ e'.unlocated = e.tree ∧
        Stmt.eraseAll .places b = body.tree := by
  simp only [guardKinds, List.cons_append, List.append_assoc, List.nil_append] at hts
  obtain ⟨l₁, s, rfl, hs⟩ := kindsOf_eq_cons hts
  obtain ⟨e', s', he, hs', htree⟩ := e.readAs hs endsExpr_rparen
  obtain ⟨l₂, s', rfl, hs₁⟩ := kindsOf_eq_cons hs'
  obtain ⟨b, r, hb, hr, hbody⟩ :=
    h.block (by rw [hs₁, List.cons_append, List.append_assoc]; rfl) trivial
  exact ⟨e', b, l₁, l₂, s, s', r, rfl, he, hb, hr, htree, hbody⟩

/-- The branches of a conditional after the first, and the last block. -/
def ReadsAlternatives (ts : List Token) (bs : List Branch × Option (List SplFrontend.Stmt))
    (r : List Token) : Prop :=
  Branch.ReadsMore ts bs.1 bs.2 r

def eraseAlternatives (bs : List Branch × Option (List SplFrontend.Stmt)) :
    List Branch × Option (List SplFrontend.Stmt) :=
  (Branch.eraseAll .places bs.1, bs.2.map (Stmt.eraseAll .places))

mutual

theorem Stmt.readAs : ∀ s : Stmt, ReadAs Stmt.Reads (Stmt.erase .places) EndsStmt s.kinds s.tree
  | .decl d => by
    intro ts js hts _
    rw [Stmt.kinds] at hts
    obtain ⟨d', r, hd, hr, htree⟩ := d.readAs hts trivial
    exact ⟨.decl d', r, .decl hd, hr, by rw [Stmt.tree, ← htree, Stmt.erase]⟩
  | .cond e body elifs o => by
    intro ts js hts hjs
    simp only [Stmt.kinds, List.cons_append, List.append_assoc] at hts
    obtain ⟨l, ts, rfl, hts₁⟩ := kindsOf_eq_cons hts
    obtain ⟨e', b, l₁, l₂, s, s', r, rfl, he, hb, hr, hte, htb⟩ := body.isRead.guard e hts₁
    rw [← List.append_assoc] at hr
    obtain ⟨⟨bs, o'⟩, r', hm, hr', htm⟩ := elifs.readAs o.readAs hr hjs
    refine ⟨.cond (.mk e' b l :: bs) o' l, r', .cond (.mk he hb) hm, hr', ?_⟩
    obtain ⟨hbs, ho⟩ := Prod.mk.inj htm
    rw [Stmt.tree, ← hte, ← htb, ← hbs, ← ho, Stmt.erase_cond, Branch.eraseAll]
  | .loop e body => by
    intro ts js hts _
    simp only [Stmt.kinds, List.cons_append, List.append_assoc, List.nil_append] at hts
    obtain ⟨l, ts, rfl, hts₁⟩ := kindsOf_eq_cons hts
    obtain ⟨e', b, l₁, l₂, s, s', r, rfl, he, hb, hr, hte, htb⟩ := body.isRead.guard e hts₁
    exact ⟨.loop e' b l, r, .loop he hb, hr, by rw [Stmt.tree, ← hte, ← htb, Stmt.erase]⟩
  | .each v e body => by
    intro ts js hts _
    simp only [Stmt.kinds, Var.kinds, List.cons_append, List.append_assoc, List.nil_append] at hts
    obtain ⟨l, ts, rfl, hts₁⟩ := kindsOf_eq_cons hts
    obtain ⟨l₁, ts, rfl, hts₂⟩ := kindsOf_eq_cons hts₁
    obtain ⟨l₂, ts, rfl, hts₃⟩ := kindsOf_eq_cons hts₂
    obtain ⟨s, has, hs⟩ := accessorsOf_kinds (noAccessor_cons (by simp)) hts₃
    obtain ⟨l₃, s, rfl, hs₁⟩ := kindsOf_eq_cons hs
    obtain ⟨e', s', he, hs', hte⟩ := e.readAs hs₁ endsExpr_rparen
    obtain ⟨l₄, s', rfl, hs₂⟩ := kindsOf_eq_cons hs'
    obtain ⟨b, r, hb, hr, htb⟩ :=
      body.isRead.block (by rw [hs₂, List.cons_append, List.append_assoc]; rfl) trivial
    refine ⟨.each ⟨.unresolved v.name, v.accessors, none, l₂⟩ e' b l, r, .each has he hb, hr, ?_⟩
    rw [Stmt.tree, ← hte, ← htb, Stmt.erase]
    rfl
  | .assign v e => by
    intro ts js hts _
    simp only [Stmt.kinds, Var.kinds, List.cons_append, List.append_assoc, List.nil_append] at hts
    obtain ⟨l, ts, rfl, hts₁⟩ := kindsOf_eq_cons hts
    obtain ⟨s, has, hs⟩ := accessorsOf_kinds (noAccessor_cons (by simp)) hts₁
    obtain ⟨l₁, s, rfl, hs₁⟩ := kindsOf_eq_cons hs
    obtain ⟨e', r, he, hr, hte⟩ := e.readAs hs₁ endsExpr_semicolon
    obtain ⟨l₂, r, rfl, hr₁⟩ := kindsOf_eq_cons hr
    refine ⟨.assign ⟨.unresolved v.name, v.accessors, none, l⟩ e' l, r, .assign has he, hr₁, ?_⟩
    rw [Stmt.tree, ← hte, Stmt.erase]
    rfl
  | .call n args => by
    intro ts js hts _
    simp only [Stmt.kinds, List.cons_append, List.append_assoc, List.nil_append] at hts
    obtain ⟨l, ts, rfl, hts₁⟩ := kindsOf_eq_cons hts
    obtain ⟨l₁, ts, rfl, hts₂⟩ := kindsOf_eq_cons hts₁
    obtain ⟨es, r, hes, hr, htrees⟩ := args.readAs (by rw [hts₂, List.append_assoc]; rfl) trivial
    obtain ⟨l₂, r, rfl, hr₁⟩ := kindsOf_eq_cons hr
    refine ⟨.expr (.call .function n es l), r, .call hes, hr₁, ?_⟩
    rw [Stmt.tree, ← htrees, Stmt.erase, Expr.erase]
    rfl
  | .ret e => by
    intro ts js hts _
    simp only [Stmt.kinds, List.cons_append, List.append_assoc, List.nil_append] at hts
    obtain ⟨l, ts, rfl, hts₁⟩ := kindsOf_eq_cons hts
    obtain ⟨e', r, he, hr, hte⟩ := e.readAs hts₁ endsExpr_semicolon
    obtain ⟨l₁, r, rfl, hr₁⟩ := kindsOf_eq_cons hr
    exact ⟨.ret (some e') l, r, .ret he, hr₁, by rw [Stmt.tree, ← hte, Stmt.erase]; rfl⟩
  | .retNone => by
    intro ts js hts _
    obtain ⟨l, ts, rfl, hts₁⟩ := kindsOf_eq_cons hts
    obtain ⟨l₁, r, rfl, hr⟩ := kindsOf_eq_cons hts₁
    exact ⟨.ret none l, r, .retNone, hr, rfl⟩
  | .brk => by
    intro ts js hts _
    obtain ⟨l, ts, rfl, hts₁⟩ := kindsOf_eq_cons hts
    obtain ⟨l₁, r, rfl, hr⟩ := kindsOf_eq_cons hts₁
    exact ⟨.brk l, r, .brk, hr, rfl⟩
  | .cont => by
    intro ts js hts _
    obtain ⟨l, ts, rfl, hts₁⟩ := kindsOf_eq_cons hts
    obtain ⟨l₁, r, rfl, hr⟩ := kindsOf_eq_cons hts₁
    exact ⟨.cont l, r, .cont, hr, rfl⟩

theorem Body.isRead : ∀ body : Body, body.IsRead
  | .done => by
    intro ts js hts _
    obtain ⟨l, r, rfl, hr⟩ := kindsOf_eq_cons hts
    exact ⟨[], r, .close, hr, rfl⟩
  | .more s rest => by
    intro ts js hts _
    simp only [Body.kinds, List.append_assoc, List.cons_append, List.nil_append] at hts
    obtain ⟨s', r, hs, hr, hts'⟩ := s.readAs hts (rest.endsStmt ⟨_, rfl⟩)
    obtain ⟨b, r', hb, hr', htb⟩ := rest.isRead (by rw [hr, List.append_assoc]; rfl) trivial
    exact ⟨s' :: b, r', .cons hs hb, hr', by rw [Body.tree, ← hts', ← htb, Stmt.eraseAll]⟩

theorem Elifs.readAs : ∀ (elifs : Elifs) {o : Else},
    ReadAs ReadsAlternatives eraseAlternatives EndsStmt o.kinds ([], o.tree) →
    ReadAs ReadsAlternatives eraseAlternatives EndsStmt (elifs.kinds ++ o.kinds)
      (elifs.tree, o.tree)
  | .done, o, ho => ho
  | .more e body elifs, o, ho => by
    intro ts js hts hjs
    simp only [Elifs.kinds, List.cons_append, List.append_assoc] at hts
    obtain ⟨l, ts, rfl, hts₁⟩ := kindsOf_eq_cons hts
    obtain ⟨e', b, l₁, l₂, s, s', r, rfl, he, hb, hr, hte, htb⟩ := body.isRead.guard e hts₁
    rw [← List.append_assoc] at hr
    obtain ⟨⟨bs, o'⟩, r', hm, hr', htm⟩ := elifs.readAs ho hr hjs
    obtain ⟨hbs, ho'⟩ := Prod.mk.inj htm
    refine ⟨(.mk e' b l :: bs, o'), r', .elif (.mk he hb) hm, hr', ?_⟩
    rw [eraseAlternatives, Branch.eraseAll, Elifs.tree, ← hte, ← htb, ← hbs, ← ho']

theorem Else.readAs :
    ∀ o : Else, ReadAs ReadsAlternatives eraseAlternatives EndsStmt o.kinds ([], o.tree)
  | .none => by
    intro ts js hts hjs
    exact ⟨([], none), ts, .none (hjs.noAlternative hts), hts, rfl⟩
  | .some body => by
    intro ts js hts _
    simp only [Else.kinds, List.cons_append] at hts
    obtain ⟨l, ts, rfl, hts₁⟩ := kindsOf_eq_cons hts
    obtain ⟨b, r, hb, hr, htb⟩ := body.isRead.block hts₁ trivial
    refine ⟨([], some b), r, .otherwise hb, hr, ?_⟩
    rw [eraseAlternatives, Else.tree, ← htb]
    rfl

end

/-! ## Programs -/

theorem ImportName.readAs (n : ImportName) :
    ReadAs ImportName.Reads SplFrontend.ImportName.unlocated NoAlias n.kinds n.tree := by
  intro ts js hts hjs
  cases n with
  | plain n =>
    obtain ⟨l, r, rfl, hr⟩ := kindsOf_eq_cons hts
    refine ⟨⟨n, none, l⟩, r, .plain ?_, hr, rfl⟩
    rintro l' s rfl
    subst hr
    exact hjs _ rfl rfl
  | renamed n a =>
    obtain ⟨l, ts, rfl, hts₁⟩ := kindsOf_eq_cons hts
    obtain ⟨l₁, ts, rfl, hts₂⟩ := kindsOf_eq_cons hts₁
    obtain ⟨l₂, r, rfl, hr⟩ := kindsOf_eq_cons hts₂
    exact ⟨⟨n, some a, l⟩, r, .renamed, hr, rfl⟩

theorem Import.readAs_names (n : ImportName) (ns : List ImportName) :
    ReadAs ImportName.ReadsList (List.map SplFrontend.ImportName.unlocated) Anything
      (n.kinds ++ restKinds ns) (n.tree :: ns.map ImportName.tree) := by
  induction ns generalizing n with
  | nil =>
    intro ts js hts _
    rw [List.append_assoc] at hts
    obtain ⟨m, r, hm, hr, htree⟩ := n.readAs hts (noAlias [] _ ⟨_, rfl⟩)
    obtain ⟨l, r, rfl, hr₁⟩ := kindsOf_eq_cons hr
    exact ⟨[m], r, .last hm, hr₁, by rw [← htree]; rfl⟩
  | cons n' ns ih =>
    intro ts js hts _
    have hts₁ : kindsOf ts = n.kinds ++ .mark .comma :: (n'.kinds ++ restKinds ns ++ js) := by
      rw [hts]
      simp only [restKinds, List.flatMap_cons, List.append_assoc, List.cons_append]
    obtain ⟨m, r, hm, hr, htree⟩ := n.readAs hts₁ (fun j hj => by cases hj; simp)
    obtain ⟨l, r, rfl, hr₁⟩ := kindsOf_eq_cons hr
    obtain ⟨ms, s, hms, hs, htrees⟩ := ih n' hr₁ trivial
    exact ⟨m :: ms, s, .more hm hms, hs, by rw [List.map_cons, htree, htrees, List.map_cons]⟩

theorem Head.readAs (h : Head) :
    ReadAs (fun ts (x : SplFrontend.Head × String) => Head.Reads ts x.1 x.2) id Anything h.kinds
      (h.tree, h.name) := by
  intro ts js hts _
  cases h with
  | function n =>
    obtain ⟨l, r, rfl, hr⟩ := kindsOf_eq_cons hts
    exact ⟨(.function, n), r, .function, hr, rfl⟩
  | prefixOp n =>
    obtain ⟨l, ts, rfl, hts₁⟩ := kindsOf_eq_cons hts
    obtain ⟨l₁, r, rfl, hr⟩ := kindsOf_eq_cons hts₁
    exact ⟨(.prefixOp, n), r, .prefixOp, hr, rfl⟩
  | infixOp side p n =>
    obtain ⟨l, ts, rfl, hts₁⟩ := kindsOf_eq_cons hts
    obtain ⟨l₁, ts, rfl, hts₂⟩ := kindsOf_eq_cons hts₁
    obtain ⟨l₂, r, rfl, hr⟩ := kindsOf_eq_cons hts₂
    have hp : p.toNat.toUInt8 = p := UInt8.ofNat_toNat
    refine ⟨(.infixOp ⟨side, p.toNat.toUInt8⟩, n), r, .infixOp side p.toNat_lt, hr, ?_⟩
    rw [hp]
    rfl

theorem FnDecl.readAs_params (ns : List String) :
    ReadAs Param.Reads (List.map Param.name) Anything (paramKinds ns) ns := by
  have hmore : ∀ (ns : List String) (n : String),
      ReadAs Param.ReadsList (List.map Param.name) Anything (paramKinds (n :: ns)) (n :: ns) := by
    intro ns
    induction ns with
    | nil =>
      intro n ts js hts _
      obtain ⟨l, ts, rfl, hts₁⟩ := kindsOf_eq_cons hts
      obtain ⟨l₁, r, rfl, hr⟩ := kindsOf_eq_cons hts₁
      exact ⟨[⟨n, l⟩], r, .last, hr, rfl⟩
    | cons m ns ih =>
      intro n ts js hts _
      obtain ⟨l, ts, rfl, hts₁⟩ := kindsOf_eq_cons hts
      obtain ⟨l₁, ts, rfl, hts₂⟩ := kindsOf_eq_cons hts₁
      obtain ⟨ps, r, hps, hr, htree⟩ := ih m hts₂ trivial
      exact ⟨⟨n, l⟩ :: ps, r, .more hps, hr, by rw [List.map_cons, htree]⟩
  cases ns with
  | nil =>
    intro ts js hts _
    obtain ⟨l, r, rfl, hr⟩ := kindsOf_eq_cons hts
    exact ⟨[], r, .none, hr, rfl⟩
  | cons n ns =>
    intro ts js hts _
    obtain ⟨ps, r, hps, hr, htree⟩ := hmore ns n hts trivial
    exact ⟨ps, r, .some hps, hr, htree⟩

theorem FnDecl.readAs_body (s : Option Signature) (body : Body) :
    ReadAs (fun ts (x : Option SplFrontend.Signature × List SplFrontend.Stmt) =>
      FnDef.ReadsBody ts x.1 x.2) (fun x => (x.1, Stmt.eraseAll .places x.2)) Anything
      (sigKinds s ++ .mark .lbrace :: (body.kinds ++ [.mark .rbrace]))
        (s.map Signature.tree, body.tree) := by
  intro ts js hts _
  cases s with
  | none =>
    obtain ⟨b, r, hb, hr, htree⟩ := body.isRead.block hts trivial
    exact ⟨(none, b), r, .untyped hb, hr, by rw [← htree]; rfl⟩
  | some s =>
    rw [sigKinds, List.cons_append, List.cons_append, List.append_assoc] at hts
    obtain ⟨l, ts, rfl, hts₁⟩ := kindsOf_eq_cons hts
    obtain ⟨sig, r, hs, hr, hsig⟩ := s.readAs hts₁ trivial
    obtain ⟨b, r', hb, hr', htree⟩ := body.isRead.block hr trivial
    exact ⟨(some sig, b), r', .typed hs hb, hr', by rw [← htree, Option.map_some, ← hsig]; rfl⟩

theorem Decl.reads (d : Decl) {ts : List Token} {js : List Kind}
    (hts : kindsOf ts = d.kinds ++ js) :
    ∃ add r, Program.ReadsOne ts add r ∧ kindsOf r = js ∧ ∀ p, (add p).unlocated =
      ⟨d.import?.toList ++ p.unlocated.imports, d.item?.toList ++ p.unlocated.items⟩ := by
  cases d with
  | imports i =>
    cases i with
    | all m =>
      obtain ⟨l, ts, rfl, hts₁⟩ := kindsOf_eq_cons hts
      obtain ⟨l₁, ts, rfl, hts₂⟩ := kindsOf_eq_cons hts₁
      obtain ⟨l₂, ts, rfl, hts₃⟩ := kindsOf_eq_cons hts₂
      obtain ⟨l₃, r, rfl, hr⟩ := kindsOf_eq_cons hts₃
      exact ⟨_, r, .imports .all, hr, fun p => rfl⟩
    | names m n ns =>
      obtain ⟨l, ts, rfl, hts₁⟩ := kindsOf_eq_cons hts
      obtain ⟨l₁, ts, rfl, hts₂⟩ := kindsOf_eq_cons hts₁
      obtain ⟨l₂, ts, rfl, hts₃⟩ := kindsOf_eq_cons hts₂
      obtain ⟨ms, r, hms, hr, htree⟩ := Import.readAs_names n ns hts₃ trivial
      refine ⟨_, r, .imports (.names hms), hr, fun p => ?_⟩
      rw [import?, Import.tree, ← htree]
      rfl
  | synonym n t =>
    simp only [kinds, List.cons_append, List.append_assoc, List.nil_append] at hts
    obtain ⟨l, ts, rfl, hts₁⟩ := kindsOf_eq_cons hts
    obtain ⟨l₁, ts, rfl, hts₂⟩ := kindsOf_eq_cons hts₁
    obtain ⟨l₂, ts, rfl, hts₃⟩ := kindsOf_eq_cons hts₂
    obtain ⟨t', r, ht, hr, htree⟩ := t.readAs hts₃ trivial
    obtain ⟨l₃, r, rfl, hr₁⟩ := kindsOf_eq_cons hr
    refine ⟨_, r, .synonym ht, hr₁, fun p => ?_⟩
    rw [item?, ← htree]
    rfl
  | global d =>
    obtain ⟨d', r, hd, hr, htree⟩ := d.readAs hts trivial
    refine ⟨_, r, .global hd, hr, fun p => ?_⟩
    rw [item?, ← htree]
    rfl
  | fn f =>
    obtain ⟨head, ns, sig, body⟩ := f
    simp only [kinds, FnDecl.kinds, List.cons_append, List.append_assoc, List.nil_append] at hts
    obtain ⟨⟨head', n⟩, s, hh, hs, htree⟩ := head.readAs hts trivial
    obtain ⟨hhead, hn⟩ := Prod.mk.inj htree
    obtain ⟨l, s, rfl, hs₁⟩ := kindsOf_eq_cons hs
    obtain ⟨ps, s', hps, hs', rfl⟩ := FnDecl.readAs_params ns hs₁ trivial
    obtain ⟨⟨sig', body'⟩, r, hb, hr, htreeb⟩ := FnDecl.readAs_body sig body
      (by rw [hs', List.append_assoc, List.cons_append, List.append_assoc]; rfl) trivial
    obtain ⟨hsig, hbody⟩ := Prod.mk.inj htreeb
    cases ts with
    | nil => cases hh
    | cons t ts =>
      refine ⟨_, r, .fn hh hps hb, hr, fun p => ?_⟩
      rw [item?, FnDecl.tree, ← hhead, ← hn, ← hsig, ← hbody, List.map_map]
      rfl

theorem Program.reads (d : Program) {ts : List Token} (hts : d.kinds = kindsOf ts) :
    ∃ p, Program.Reads ts p ∧ p.unlocated = d.tree := by
  induction d generalizing ts with
  | nil =>
    obtain rfl : ts = [] := List.map_eq_nil_iff.1 hts.symm
    exact ⟨_, .nil, rfl⟩
  | cons d ds ih =>
    obtain ⟨add, r, hadd, hr, htree⟩ := d.reads hts.symm
    obtain ⟨p, hp, htrees⟩ := ih hr.symm
    refine ⟨add p, .cons hadd hp, ?_⟩
    rw [htree, htrees]
    simp only [tree, List.filterMap_cons]
    cases d.import? <;> cases d.item? <;> rfl

end Phrase

/-- Tokens that are not read as a program are reported. -/
theorem Program.ofTokens_eq_error {s : TokenStream} (h : ∀ p, Program.ofTokens s ≠ .ok p) :
    ∃ d ds, Program.ofTokens s = .error (d :: ds) := by
  unfold Program.ofTokens at h ⊢
  generalize Program.readAll s.stop s.tokens = x at h ⊢
  obtain ⟨p, faults⟩ := x
  cases faults with
  | nil => exact absurd rfl (h p)
  | cons d ds => exact ⟨d, ds, rfl⟩

/-- Reading accepts the grammar. A list of tokens is read as a program exactly if it derives one,
and the tree is that of the derivation up to places; it has one derivation at most; and if it has
none, faults are reported. -/
theorem Program.ofTokens_exact (s : TokenStream) :
    (∀ p : Program, (∃ q, Program.ofTokens s = .ok q ∧ q.unlocated = p.unlocated) ↔
      ∃ d : Phrase.Program, d.kinds = kindsOf s.tokens ∧ d.tree = p.unlocated) ∧
    (∀ d d' : Phrase.Program, d.kinds = kindsOf s.tokens → d'.kinds = kindsOf s.tokens → d = d') ∧
    ((∀ d : Phrase.Program, d.kinds ≠ kindsOf s.tokens) →
      ∃ e es, Program.ofTokens s = .error (e :: es)) := by
  refine ⟨fun p => ⟨?_, ?_⟩, fun d d' hd hd' => Phrase.Program.eq_of_kinds (hd.trans hd'.symm),
    fun h => ?_⟩
  · rintro ⟨q, hq, hp⟩
    obtain ⟨d, hk, hd⟩ := (Program.ofTokens_eq_ok_iff.1 hq).phrase
    exact ⟨d, hk, hd.trans hp⟩
  · rintro ⟨d, hk, hd⟩
    obtain ⟨q, hq, htree⟩ := d.reads hk
    exact ⟨q, Program.ofTokens_eq_ok_iff.2 hq, htree.trans hd⟩
  · refine Program.ofTokens_eq_error fun p hp => ?_
    obtain ⟨d, hk, -⟩ := (Program.ofTokens_eq_ok_iff.1 hp).phrase
    exact h d hk

/-- The program
`f(x) :: Int -> Int { if (x == (1)) { x.hd = (-x, p()); } elif (True) { return x; } }`, with
`from m importall;` after it. -/
def Phrase.sampleProgram : Phrase.Program :=
  [.fn ⟨.function "f", ["x"], some ⟨[.name "Int"], .name "Int"⟩,
      .more
        (.cond
          (.mk (.atom (.var ⟨"x", []⟩))
            (.more "==" (.atom (.paren (.mk (.atom (.int 1)) .done))) .done))
          (.more
            (.assign ⟨"x", [.hd]⟩
              (.mk (.atom (.pair (.mk (.prefixed "-" (.atom (.var ⟨"x", []⟩))) .done)
              (.mk (.atom (.call "p" .none)) .done))) .done))
            .done)
          (.more (.mk (.atom (.bool true)) .done)
            (.more (.ret (.mk (.atom (.var ⟨"x", []⟩)) .done)) .done) .done)
          .none)
        .done⟩,
    .imports (.all "m")]

/-- A program with an import line after a declaration is read; a semicolon by itself is not, and is
reported. -/
theorem Program.ofTokens_exact_sample :
    (∃ q, Program.ofTokens ⟨Phrase.sampleProgram.kinds.map (⟨·, .nowhere⟩), .nowhere⟩ = .ok q ∧
      q.unlocated = Phrase.sampleProgram.tree) ∧
    ∃ e es, Program.ofTokens ⟨[⟨.mark .semicolon, .nowhere⟩], .nowhere⟩ = .error (e :: es) := by
  constructor
  · exact ((Program.ofTokens_exact _).1 Phrase.sampleProgram.tree).2
      ⟨Phrase.sampleProgram, rfl, rfl⟩
  · refine (Program.ofTokens_exact ⟨[⟨.mark .semicolon, .nowhere⟩], .nowhere⟩).2.2 fun d hd => ?_
    rcases d with - | ⟨a, ds⟩
    · cases hd
    · obtain ⟨j, ks, hk, hj⟩ := a.kinds_eq_cons
      rw [Phrase.Program.kinds, List.flatMap_cons, hk] at hd
      obtain rfl : j = .mark .semicolon := (List.cons.inj hd).1
      cases a <;> cases hj

end SplFrontend
