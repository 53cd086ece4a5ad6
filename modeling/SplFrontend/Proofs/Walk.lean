import SplFrontend.Proofs.Erasure
import SplFrontend.Proofs.Noted
import SplFrontend.Stmt.Rewriting

/-!
# Walks through blocks

Every pass over a block visits its declarations, variables and expressions in the same order.
`Walk R` compares two blocks of one shape along this order: at each place the relation `R` holds
between the place in the one block, the place in the other, and the states before and after. What a
rewriting pass does is then said place by place: the block and its rewritten form walk in step by
the graph of the rewriter (`walk_rewriteAll`), and blocks that walk in step by the graph are a block
and its rewritten form (`WalkAll.rewriteAll`). Everything about whole blocks follows by the laws of
walks.
-/

namespace SplFrontend

/-- A place of a block at which a pass may do something. -/
inductive Place where
  | decl (d : VarDecl)
  | assign (v : Variable) (e : Expr)
  | guard (e : Expr)
  | each (v : Variable) (e : Expr)
  | ret (loc : Loc) (e : Option Expr)
  | call (e : Expr)

/-- What a rewriter does at a place. -/
def Rewriter.at {m : Type → Type} [Monad m] (w : Rewriter m) : Place → m Place
  | .decl d => do return .decl (← w.decl d)
  | .assign v e => do
    let r ← w.assign v e
    return .assign r.1 r.2
  | .guard e => do return .guard (← w.guard e)
  | .each v e => do
    let r ← w.each v e
    return .each r.1 r.2
  | .ret l e => do return .ret l (← w.ret l e)
  | .call e => do return .call (← w.call e)

section

variable {σ : Type}

mutual

/-- Two statements of one shape, compared place by place. Their own places are compared by `L`. -/
inductive Stmt.Walk (L : Loc → Loc → Prop) (R : σ → Place → Place → σ → Prop) :
    σ → Stmt → Stmt → σ → Prop
  | decl {s d d' s'} : R s (.decl d) (.decl d') s' → Stmt.Walk L R s (.decl d) (.decl d') s'
  | assign {s v e l v' e' l' s'} : L l l' → R s (.assign v e) (.assign v' e') s' →
      Stmt.Walk L R s (.assign v e l) (.assign v' e' l') s'
  | condNone {s bs l bs' l' s'} : L l l' → Branch.WalkAll L R s bs bs' s' →
      Stmt.Walk L R s (.cond bs none l) (.cond bs' none l') s'
  | condSome {s bs body l bs' body' l' s₁ s'} : L l l' → Branch.WalkAll L R s bs bs' s₁ →
      Stmt.WalkAll L R s₁ body body' s' →
      Stmt.Walk L R s (.cond bs (some body) l) (.cond bs' (some body') l') s'
  | loop {s e body l e' body' l' s₁ s'} : L l l' → R s (.guard e) (.guard e') s₁ →
      Stmt.WalkAll L R s₁ body body' s' → Stmt.Walk L R s (.loop e body l) (.loop e' body' l') s'
  | each {s v e body l v' e' body' l' s₁ s'} : L l l' → R s (.each v e) (.each v' e') s₁ →
      Stmt.WalkAll L R s₁ body body' s' →
      Stmt.Walk L R s (.each v e body l) (.each v' e' body' l') s'
  | ret {s e l e' l' s'} : L l l' → R s (.ret l e) (.ret l' e') s' →
      Stmt.Walk L R s (.ret e l) (.ret e' l') s'
  | brk {s l l'} : L l l' → Stmt.Walk L R s (.brk l) (.brk l') s
  | cont {s l l'} : L l l' → Stmt.Walk L R s (.cont l) (.cont l') s
  | expr {s e e' s'} : R s (.call e) (.call e') s' → Stmt.Walk L R s (.expr e) (.expr e') s'

/-- Two blocks of one shape. -/
inductive Stmt.WalkAll (L : Loc → Loc → Prop) (R : σ → Place → Place → σ → Prop) :
    σ → List Stmt → List Stmt → σ → Prop
  | nil {s} : Stmt.WalkAll L R s [] [] s
  | cons {s st body st' body' s₁ s'} :
    Stmt.Walk L R s st st' s₁ → Stmt.WalkAll L R s₁ body body' s' →
      Stmt.WalkAll L R s (st :: body) (st' :: body') s'

/-- Two lists of branches of one shape. -/
inductive Branch.WalkAll (L : Loc → Loc → Prop) (R : σ → Place → Place → σ → Prop) :
    σ → List Branch → List Branch → σ → Prop
  | nil {s} : Branch.WalkAll L R s [] [] s
  | cons {s e body l bs e' body' l' bs' s₁ s₂ s'} : L l l' → R s (.guard e) (.guard e') s₁ →
      Stmt.WalkAll L R s₁ body body' s₂ → Branch.WalkAll L R s₂ bs bs' s' →
      Branch.WalkAll L R s (.mk e body l :: bs) (.mk e' body' l' :: bs') s'

end

end

/-! ## Laws of walks -/

section

variable {σ τ : Type} {L L' : Loc → Loc → Prop} {R : σ → Place → Place → σ → Prop}

/-- The relation at the places may be weakened, given what is known of the state after all. -/
structure Weakens (L L' : Loc → Loc → Prop) (R R' : σ → Place → Place → σ → Prop)
    (T : σ → σ → Prop) (last : σ) : Prop where
  loc : ∀ {l l'}, L l l' → L' l l'
  grows : ∀ {s p q s'}, R s p q s' → T s s'
  trans : ∀ {s s' s''}, T s s' → T s' s'' → T s s''
  refl : ∀ s, T s s
  place : ∀ {s p q s'}, R s p q s' → T s' last → R' s p q s'

mutual

theorem Stmt.Walk.grows {R' : σ → Place → Place → σ → Prop} {T : σ → σ → Prop} {last : σ}
    (hw : Weakens L L' R R' T last) : ∀ {s s' : σ} {a b : Stmt}, Stmt.Walk L R s a b s' → T s s'
  | _, _, _, _, .decl h => hw.grows h
  | _, _, _, _, .assign _ h => hw.grows h
  | _, _, _, _, .condNone _ h => h.grows hw
  | _, _, _, _, .condSome _ hb hs => hw.trans (hb.grows hw) (hs.grows hw)
  | _, _, _, _, .loop _ h hs => hw.trans (hw.grows h) (hs.grows hw)
  | _, _, _, _, .each _ h hs => hw.trans (hw.grows h) (hs.grows hw)
  | _, _, _, _, .ret _ h => hw.grows h
  | _, _, _, _, .brk _ => hw.refl _
  | _, _, _, _, .cont _ => hw.refl _
  | _, _, _, _, .expr h => hw.grows h

theorem Stmt.WalkAll.grows {R' : σ → Place → Place → σ → Prop} {T : σ → σ → Prop} {last : σ}
    (hw : Weakens L L' R R' T last) :
    ∀ {s s' : σ} {a b : List Stmt}, Stmt.WalkAll L R s a b s' → T s s'
  | _, _, _, _, .nil => hw.refl _
  | _, _, _, _, .cons h hs => hw.trans (h.grows hw) (hs.grows hw)

theorem Branch.WalkAll.grows {R' : σ → Place → Place → σ → Prop} {T : σ → σ → Prop} {last : σ}
    (hw : Weakens L L' R R' T last) :
    ∀ {s s' : σ} {a b : List Branch}, Branch.WalkAll L R s a b s' → T s s'
  | _, _, _, _, .nil => hw.refl _
  | _, _, _, _, .cons _ h hs hb => hw.trans (hw.grows h) (hw.trans (hs.grows hw) (hb.grows hw))

end

mutual

theorem Stmt.Walk.weaken {R' : σ → Place → Place → σ → Prop} {T : σ → σ → Prop} {last : σ}
    (hw : Weakens L L' R R' T last) :
    ∀ {s s' : σ} {a b : Stmt}, Stmt.Walk L R s a b s' → T s' last →
      Stmt.Walk L' R' s a b s'
  | _, _, _, _, .decl h, ht => .decl (hw.place h ht)
  | _, _, _, _, .assign hl h, ht => .assign (hw.loc hl) (hw.place h ht)
  | _, _, _, _, .condNone hl h, ht => .condNone (hw.loc hl) (h.weaken hw ht)
  | _, _, _, _, .condSome hl hb hs, ht =>
    .condSome (hw.loc hl) (hb.weaken hw (hw.trans (hs.grows hw) ht)) (hs.weaken hw ht)
  | _, _, _, _, .loop hl h hs, ht =>
    .loop (hw.loc hl) (hw.place h (hw.trans (hs.grows hw) ht)) (hs.weaken hw ht)
  | _, _, _, _, .each hl h hs, ht =>
    .each (hw.loc hl) (hw.place h (hw.trans (hs.grows hw) ht)) (hs.weaken hw ht)
  | _, _, _, _, .ret hl h, ht => .ret (hw.loc hl) (hw.place h ht)
  | _, _, _, _, .brk hl, _ => .brk (hw.loc hl)
  | _, _, _, _, .cont hl, _ => .cont (hw.loc hl)
  | _, _, _, _, .expr h, ht => .expr (hw.place h ht)

theorem Stmt.WalkAll.weaken {R' : σ → Place → Place → σ → Prop} {T : σ → σ → Prop} {last : σ}
    (hw : Weakens L L' R R' T last) : ∀ {s s' : σ} {a b : List Stmt}, Stmt.WalkAll L R s a b s' →
      T s' last → Stmt.WalkAll L' R' s a b s'
  | _, _, _, _, .nil, _ => .nil
  | _, _, _, _, .cons h hs, ht => .cons (h.weaken hw (hw.trans (hs.grows hw) ht)) (hs.weaken hw ht)

theorem Branch.WalkAll.weaken {R' : σ → Place → Place → σ → Prop} {T : σ → σ → Prop} {last : σ}
    (hw : Weakens L L' R R' T last) :
    ∀ {s s' : σ} {a b : List Branch}, Branch.WalkAll L R s a b s' →
      T s' last → Branch.WalkAll L' R' s a b s'
  | _, _, _, _, .nil, _ => .nil
  | _, _, _, _, .cons hl h hs hb, ht =>
    .cons (hw.loc hl) (hw.place h (hw.trans (hs.grows hw) (hw.trans (hb.grows hw) ht)))
      (hs.weaken hw (hw.trans (hb.grows hw) ht)) (hb.weaken hw ht)

end

/-- The relation at the places may be weakened. -/
theorem Stmt.WalkAll.mono {R' : σ → Place → Place → σ → Prop} {s s' : σ} {a b : List Stmt}
    (h : Stmt.WalkAll L R s a b s') (hl : ∀ {l l'}, L l l' → L' l l')
    (hr : ∀ {s p q s'}, R s p q s' → R' s p q s') : Stmt.WalkAll L' R' s a b s' := by
  have hw : Weakens L L' R R' (fun _ _ => True) s' :=
    ⟨hl, fun _ => trivial, fun _ _ => trivial, fun _ => trivial, fun h _ => hr h⟩
  exact h.weaken hw trivial

mutual

theorem Stmt.Walk.map {R' : τ → Place → Place → τ → Prop} {f : σ → τ}
    (hl : ∀ {l l'}, L l l' → L' l l') (hr : ∀ {s p q s'}, R s p q s' → R' (f s) p q (f s')) :
    ∀ {s s' : σ} {a b : Stmt},
    Stmt.Walk L R s a b s' → Stmt.Walk L' R' (f s) a b (f s')
  | _, _, _, _, .decl h => .decl (hr h)
  | _, _, _, _, .assign h h' => .assign (hl h) (hr h')
  | _, _, _, _, .condNone h hb => .condNone (hl h) (hb.map hl hr)
  | _, _, _, _, .condSome h hb hs => .condSome (hl h) (hb.map hl hr) (hs.map hl hr)
  | _, _, _, _, .loop h h' hs => .loop (hl h) (hr h') (hs.map hl hr)
  | _, _, _, _, .each h h' hs => .each (hl h) (hr h') (hs.map hl hr)
  | _, _, _, _, .ret h h' => .ret (hl h) (hr h')
  | _, _, _, _, .brk h => .brk (hl h)
  | _, _, _, _, .cont h => .cont (hl h)
  | _, _, _, _, .expr h => .expr (hr h)

/-- A walk gives one with other states. -/
theorem Stmt.WalkAll.map {R' : τ → Place → Place → τ → Prop} {f : σ → τ}
    (hl : ∀ {l l'}, L l l' → L' l l') (hr : ∀ {s p q s'}, R s p q s' → R' (f s) p q (f s')) :
    ∀ {s s' : σ} {a b : List Stmt},
    Stmt.WalkAll L R s a b s' → Stmt.WalkAll L' R' (f s) a b (f s')
  | _, _, _, _, .nil => .nil
  | _, _, _, _, .cons h hs => .cons (h.map hl hr) (hs.map hl hr)

theorem Branch.WalkAll.map {R' : τ → Place → Place → τ → Prop} {f : σ → τ}
    (hl : ∀ {l l'}, L l l' → L' l l') (hr : ∀ {s p q s'}, R s p q s' → R' (f s) p q (f s')) :
    ∀ {s s' : σ} {a b : List Branch},
    Branch.WalkAll L R s a b s' → Branch.WalkAll L' R' (f s) a b (f s')
  | _, _, _, _, .nil => .nil
  | _, _, _, _, .cons h h' hs hb => .cons (hl h) (hr h') (hs.map hl hr) (hb.map hl hr)

end

/-- One comparison of places after the other. -/
def Loc.Then (L L' : Loc → Loc → Prop) : Loc → Loc → Prop := fun l l'' => ∃ l', L l l' ∧ L' l' l''

/-- One relation of places after the other, each with a state of its own. -/
def Place.Then (R : σ → Place → Place → σ → Prop) (R' : τ → Place → Place → τ → Prop) :
    σ × τ → Place → Place → σ × τ → Prop :=
  fun s p r s' => ∃ q, R s.1 p q s'.1 ∧ R' s.2 q r s'.2

mutual

theorem Stmt.Walk.trans {R' : τ → Place → Place → τ → Prop} :
    ∀ {s s' : σ} {t t' : τ} {a b c : Stmt},
    Stmt.Walk L R s a b s' → Stmt.Walk L' R' t b c t' →
    Stmt.Walk (Loc.Then L L') (Place.Then R R') (s, t) a c (s', t')
  | _, _, _, _, _, _, _, .decl h, .decl h' => .decl ⟨_, h, h'⟩
  | _, _, _, _, _, _, _, .assign hl h, .assign hl' h' => .assign ⟨_, hl, hl'⟩ ⟨_, h, h'⟩
  | _, _, _, _, _, _, _, .condNone hl h, .condNone hl' h' => .condNone ⟨_, hl, hl'⟩ (h.trans h')
  | _, _, _, _, _, _, _, .condSome hl hb hs, .condSome hl' hb' hs' =>
    .condSome ⟨_, hl, hl'⟩ (hb.trans hb') (hs.trans hs')
  | _, _, _, _, _, _, _, .loop hl h hs, .loop hl' h' hs' =>
    .loop ⟨_, hl, hl'⟩ ⟨_, h, h'⟩ (hs.trans hs')
  | _, _, _, _, _, _, _, .each hl h hs, .each hl' h' hs' =>
    .each ⟨_, hl, hl'⟩ ⟨_, h, h'⟩ (hs.trans hs')
  | _, _, _, _, _, _, _, .ret hl h, .ret hl' h' => .ret ⟨_, hl, hl'⟩ ⟨_, h, h'⟩
  | _, _, _, _, _, _, _, .brk hl, .brk hl' => .brk ⟨_, hl, hl'⟩
  | _, _, _, _, _, _, _, .cont hl, .cont hl' => .cont ⟨_, hl, hl'⟩
  | _, _, _, _, _, _, _, .expr h, .expr h' => .expr ⟨_, h, h'⟩

theorem Stmt.WalkAll.trans {R' : τ → Place → Place → τ → Prop} :
    ∀ {s s' : σ} {t t' : τ} {a b c : List Stmt},
    Stmt.WalkAll L R s a b s' → Stmt.WalkAll L' R' t b c t' →
    Stmt.WalkAll (Loc.Then L L') (Place.Then R R') (s, t) a c (s', t')
  | _, _, _, _, _, _, _, .nil, .nil => .nil
  | _, _, _, _, _, _, _, .cons h hs, .cons h' hs' => .cons (h.trans h') (hs.trans hs')

theorem Branch.WalkAll.trans {R' : τ → Place → Place → τ → Prop} :
    ∀ {s s' : σ} {t t' : τ} {a b c : List Branch},
    Branch.WalkAll L R s a b s' → Branch.WalkAll L' R' t b c t' →
    Branch.WalkAll (Loc.Then L L') (Place.Then R R') (s, t) a c (s', t')
  | _, _, _, _, _, _, _, .nil, .nil => .nil
  | _, _, _, _, _, _, _, .cons hl h hs hb, .cons hl' h' hs' hb' =>
    .cons ⟨_, hl, hl'⟩ ⟨_, h, h'⟩ (hs.trans hs') (hb.trans hb')

end

mutual

/-- What a walk says of its second block alone. -/
theorem Stmt.Walk.right : ∀ {s s' : σ} {a b : Stmt}, Stmt.Walk L R s a b s' →
    Stmt.Walk Eq (fun s q q' s' => q' = q ∧ ∃ p, R s p q s') s b b s'
  | _, _, _, _, .decl h => .decl ⟨rfl, _, h⟩
  | _, _, _, _, .assign _ h => .assign rfl ⟨rfl, _, h⟩
  | _, _, _, _, .condNone _ h => .condNone rfl h.right
  | _, _, _, _, .condSome _ hb hs => .condSome rfl hb.right hs.right
  | _, _, _, _, .loop _ h hs => .loop rfl ⟨rfl, _, h⟩ hs.right
  | _, _, _, _, .each _ h hs => .each rfl ⟨rfl, _, h⟩ hs.right
  | _, _, _, _, .ret _ h => .ret rfl ⟨rfl, _, h⟩
  | _, _, _, _, .brk _ => .brk rfl
  | _, _, _, _, .cont _ => .cont rfl
  | _, _, _, _, .expr h => .expr ⟨rfl, _, h⟩

theorem Stmt.WalkAll.right : ∀ {s s' : σ} {a b : List Stmt}, Stmt.WalkAll L R s a b s' →
    Stmt.WalkAll Eq (fun s q q' s' => q' = q ∧ ∃ p, R s p q s') s b b s'
  | _, _, _, _, .nil => .nil
  | _, _, _, _, .cons h hs => .cons h.right hs.right

theorem Branch.WalkAll.right : ∀ {s s' : σ} {a b : List Branch}, Branch.WalkAll L R s a b s' →
    Branch.WalkAll Eq (fun s q q' s' => q' = q ∧ ∃ p, R s p q s') s b b s'
  | _, _, _, _, .nil => .nil
  | _, _, _, _, .cons _ h hs hb => .cons rfl ⟨rfl, _, h⟩ hs.right hb.right

end

mutual

theorem Stmt.Walk.symm : ∀ {s s' : σ} {a b : Stmt}, Stmt.Walk L R s a b s' →
    Stmt.Walk (fun l l' => L l' l) (fun s p q s' => R s q p s') s b a s'
  | _, _, _, _, .decl h => .decl h
  | _, _, _, _, .assign hl h => .assign hl h
  | _, _, _, _, .condNone hl h => .condNone hl h.symm
  | _, _, _, _, .condSome hl hb hs => .condSome hl hb.symm hs.symm
  | _, _, _, _, .loop hl h hs => .loop hl h hs.symm
  | _, _, _, _, .each hl h hs => .each hl h hs.symm
  | _, _, _, _, .ret hl h => .ret hl h
  | _, _, _, _, .brk hl => .brk hl
  | _, _, _, _, .cont hl => .cont hl
  | _, _, _, _, .expr h => .expr h

/-- The two blocks of a walk may change sides. -/
theorem Stmt.WalkAll.symm : ∀ {s s' : σ} {a b : List Stmt}, Stmt.WalkAll L R s a b s' →
    Stmt.WalkAll (fun l l' => L l' l) (fun s p q s' => R s q p s') s b a s'
  | _, _, _, _, .nil => .nil
  | _, _, _, _, .cons h hs => .cons h.symm hs.symm

theorem Branch.WalkAll.symm : ∀ {s s' : σ} {a b : List Branch}, Branch.WalkAll L R s a b s' →
    Branch.WalkAll (fun l l' => L l' l) (fun s p q s' => R s q p s') s b a s'
  | _, _, _, _, .nil => .nil
  | _, _, _, _, .cons hl h hs hb => .cons hl h hs.symm hb.symm

end

mutual

theorem Stmt.Walk.unique (hr : ∀ {p q q'}, (∃ s s', R s p q s') → (∃ t t', R t p q' t') → q = q') :
    ∀ {s s' t t' : σ} {a b c : Stmt}, Stmt.Walk Eq R s a b s' → Stmt.Walk Eq R t a c t' → b = c
  | _, _, _, _, _, _, _, .decl h, .decl h' => by cases hr ⟨_, _, h⟩ ⟨_, _, h'⟩; rfl
  | _, _, _, _, _, _, _, .assign rfl h, .assign rfl h' => by cases hr ⟨_, _, h⟩ ⟨_, _, h'⟩; rfl
  | _, _, _, _, _, _, _, .condNone rfl h, .condNone rfl h' => by cases h.unique hr h'; rfl
  | _, _, _, _, _, _, _, .condSome rfl hb hs, .condSome rfl hb' hs' => by
    cases hb.unique hr hb'; cases hs.unique hr hs'; rfl
  | _, _, _, _, _, _, _, .loop rfl h hs, .loop rfl h' hs' => by
    cases hr ⟨_, _, h⟩ ⟨_, _, h'⟩; cases hs.unique hr hs'; rfl
  | _, _, _, _, _, _, _, .each rfl h hs, .each rfl h' hs' => by
    cases hr ⟨_, _, h⟩ ⟨_, _, h'⟩; cases hs.unique hr hs'; rfl
  | _, _, _, _, _, _, _, .ret rfl h, .ret rfl h' => by cases hr ⟨_, _, h⟩ ⟨_, _, h'⟩; rfl
  | _, _, _, _, _, _, _, .brk rfl, .brk rfl => rfl
  | _, _, _, _, _, _, _, .cont rfl, .cont rfl => rfl
  | _, _, _, _, _, _, _, .expr h, .expr h' => by cases hr ⟨_, _, h⟩ ⟨_, _, h'⟩; rfl

/-- Where each place determines the one it is compared with, a block determines the other one. -/
theorem Stmt.WalkAll.unique
    (hr : ∀ {p q q'}, (∃ s s', R s p q s') → (∃ t t', R t p q' t') → q = q') :
    ∀ {s s' t t' : σ} {a b c : List Stmt}, Stmt.WalkAll Eq R s a b s' →
      Stmt.WalkAll Eq R t a c t' → b = c
  | _, _, _, _, _, _, _, .nil, .nil => rfl
  | _, _, _, _, _, _, _, .cons h hs, .cons h' hs' => by
    cases h.unique hr h'; cases hs.unique hr hs'; rfl

theorem Branch.WalkAll.unique
    (hr : ∀ {p q q'}, (∃ s s', R s p q s') → (∃ t t', R t p q' t') → q = q') :
    ∀ {s s' t t' : σ} {a b c : List Branch}, Branch.WalkAll Eq R s a b s' →
      Branch.WalkAll Eq R t a c t' → b = c
  | _, _, _, _, _, _, _, .nil, .nil => rfl
  | _, _, _, _, _, _, _, .cons rfl h hs hb, .cons rfl h' hs' hb' => by
    cases hr ⟨_, _, h⟩ ⟨_, _, h'⟩; cases hs.unique hr hs'; cases hb.unique hr hb'; rfl

end

end

/-! ## All places of a block -/

mutual

/-- All places of the statement satisfy `Φ`. -/
inductive Stmt.Holds (Φ : Place → Prop) : Stmt → Prop
  | decl {d} : Φ (.decl d) → Stmt.Holds Φ (.decl d)
  | assign {v e l} : Φ (.assign v e) → Stmt.Holds Φ (.assign v e l)
  | condNone {bs l} : Branch.HoldsAll Φ bs → Stmt.Holds Φ (.cond bs none l)
  | condSome {bs body l} : Branch.HoldsAll Φ bs → Stmt.HoldsAll Φ body →
      Stmt.Holds Φ (.cond bs (some body) l)
  | loop {e body l} : Φ (.guard e) → Stmt.HoldsAll Φ body → Stmt.Holds Φ (.loop e body l)
  | each {v e body l} : Φ (.each v e) → Stmt.HoldsAll Φ body → Stmt.Holds Φ (.each v e body l)
  | ret {e l} : Φ (.ret l e) → Stmt.Holds Φ (.ret e l)
  | brk {l} : Stmt.Holds Φ (.brk l)
  | cont {l} : Stmt.Holds Φ (.cont l)
  | expr {e} : Φ (.call e) → Stmt.Holds Φ (.expr e)

/-- All places of the block satisfy `Φ`. -/
inductive Stmt.HoldsAll (Φ : Place → Prop) : List Stmt → Prop
  | nil : Stmt.HoldsAll Φ []
  | cons {st body} : Stmt.Holds Φ st → Stmt.HoldsAll Φ body → Stmt.HoldsAll Φ (st :: body)

/-- All places of the branches satisfy `Φ`. -/
inductive Branch.HoldsAll (Φ : Place → Prop) : List Branch → Prop
  | nil : Branch.HoldsAll Φ []
  | cons {e body l bs} : Φ (.guard e) → Stmt.HoldsAll Φ body → Branch.HoldsAll Φ bs →
      Branch.HoldsAll Φ (.mk e body l :: bs)

end

/-- The name and the type of a declaration at the place satisfy `Ψ`. -/
def Place.OnDecl (Ψ : String → Option Ty → Prop) : Place → Prop
  | .decl d => Ψ d.name d.ty
  | _ => True

section

variable {σ : Type} {L : Loc → Loc → Prop} {R : σ → Place → Place → σ → Prop} {Φ : Place → Prop}

mutual

theorem Stmt.Holds.mono {Ψ : Place → Prop} (h : ∀ p, Φ p → Ψ p) :
    ∀ {a : Stmt}, Stmt.Holds Φ a → Stmt.Holds Ψ a
  | _, .decl hp => .decl (h _ hp)
  | _, .assign hp => .assign (h _ hp)
  | _, .condNone hb => .condNone (hb.mono h)
  | _, .condSome hb hs => .condSome (hb.mono h) (hs.mono h)
  | _, .loop hp hs => .loop (h _ hp) (hs.mono h)
  | _, .each hp hs => .each (h _ hp) (hs.mono h)
  | _, .ret hp => .ret (h _ hp)
  | _, .brk => .brk
  | _, .cont => .cont
  | _, .expr hp => .expr (h _ hp)

theorem Stmt.HoldsAll.mono {Ψ : Place → Prop} (h : ∀ p, Φ p → Ψ p) :
    ∀ {a : List Stmt}, Stmt.HoldsAll Φ a → Stmt.HoldsAll Ψ a
  | _, .nil => .nil
  | _, .cons hp hs => .cons (hp.mono h) (hs.mono h)

theorem Branch.HoldsAll.mono {Ψ : Place → Prop} (h : ∀ p, Φ p → Ψ p) :
    ∀ {a : List Branch}, Branch.HoldsAll Φ a → Branch.HoldsAll Ψ a
  | _, .nil => .nil
  | _, .cons hp hs hb => .cons (h _ hp) (hs.mono h) (hb.mono h)

end

mutual

theorem Stmt.Walk.holds (hr : ∀ s p q s', R s p q s' → Φ q) : ∀ {s s' : σ} {a b : Stmt},
    Stmt.Walk L R s a b s' → Stmt.Holds Φ b
  | _, _, _, _, .decl h => .decl (hr _ _ _ _ h)
  | _, _, _, _, .assign _ h => .assign (hr _ _ _ _ h)
  | _, _, _, _, .condNone _ h => .condNone (h.holds hr)
  | _, _, _, _, .condSome _ hb hs => .condSome (hb.holds hr) (hs.holds hr)
  | _, _, _, _, .loop _ h hs => .loop (hr _ _ _ _ h) (hs.holds hr)
  | _, _, _, _, .each _ h hs => .each (hr _ _ _ _ h) (hs.holds hr)
  | _, _, _, _, .ret _ h => .ret (hr _ _ _ _ h)
  | _, _, _, _, .brk _ => .brk
  | _, _, _, _, .cont _ => .cont
  | _, _, _, _, .expr h => .expr (hr _ _ _ _ h)

/-- What holds of every second place of a walk holds in all of its second block. -/
theorem Stmt.WalkAll.holds (hr : ∀ s p q s', R s p q s' → Φ q) : ∀ {s s' : σ} {a b : List Stmt},
    Stmt.WalkAll L R s a b s' → Stmt.HoldsAll Φ b
  | _, _, _, _, .nil => .nil
  | _, _, _, _, .cons h hs => .cons (h.holds hr) (hs.holds hr)

theorem Branch.WalkAll.holds (hr : ∀ s p q s', R s p q s' → Φ q) : ∀ {s s' : σ} {a b : List Branch},
    Branch.WalkAll L R s a b s' → Branch.HoldsAll Φ b
  | _, _, _, _, .nil => .nil
  | _, _, _, _, .cons _ h hs hb => .cons (hr _ _ _ _ h) (hs.holds hr) (hb.holds hr)

end

mutual

theorem Stmt.Walk.and : ∀ {s s' : σ} {a b : Stmt}, Stmt.Walk L R s a b s' → Stmt.Holds Φ a →
    Stmt.Walk L (fun s p q s' => R s p q s' ∧ Φ p) s a b s'
  | _, _, _, _, .decl h, .decl hp => .decl ⟨h, hp⟩
  | _, _, _, _, .assign hl h, .assign hp => .assign hl ⟨h, hp⟩
  | _, _, _, _, .condNone hl h, .condNone hp => .condNone hl (h.and hp)
  | _, _, _, _, .condSome hl hb hs, .condSome hpb hps => .condSome hl (hb.and hpb) (hs.and hps)
  | _, _, _, _, .loop hl h hs, .loop hp hps => .loop hl ⟨h, hp⟩ (hs.and hps)
  | _, _, _, _, .each hl h hs, .each hp hps => .each hl ⟨h, hp⟩ (hs.and hps)
  | _, _, _, _, .ret hl h, .ret hp => .ret hl ⟨h, hp⟩
  | _, _, _, _, .brk hl, .brk => .brk hl
  | _, _, _, _, .cont hl, .cont => .cont hl
  | _, _, _, _, .expr h, .expr hp => .expr ⟨h, hp⟩

/-- What holds in all of the first block may be used at every place of a walk. -/
theorem Stmt.WalkAll.and : ∀ {s s' : σ} {a b : List Stmt}, Stmt.WalkAll L R s a b s' →
    Stmt.HoldsAll Φ a → Stmt.WalkAll L (fun s p q s' => R s p q s' ∧ Φ p) s a b s'
  | _, _, _, _, .nil, .nil => .nil
  | _, _, _, _, .cons h hs, .cons hp hps => .cons (h.and hp) (hs.and hps)

theorem Branch.WalkAll.and : ∀ {s s' : σ} {a b : List Branch}, Branch.WalkAll L R s a b s' →
    Branch.HoldsAll Φ a → Branch.WalkAll L (fun s p q s' => R s p q s' ∧ Φ p) s a b s'
  | _, _, _, _, .nil, .nil => .nil
  | _, _, _, _, .cons hl h hs hb, .cons hp hps hpb => .cons hl ⟨h, hp⟩ (hs.and hps) (hb.and hpb)

end

/-- What holds in all of the second block may be used at every place of a walk. -/
theorem Stmt.WalkAll.and_right {s s' : σ} {a b : List Stmt} (h : Stmt.WalkAll L R s a b s')
    (hb : Stmt.HoldsAll Φ b) : Stmt.WalkAll L (fun s p q s' => R s p q s' ∧ Φ q) s a b s' := by
  refine (h.trans (h.right.and hb)).map (f := Prod.fst) (fun {l l'} hl => ?_)
    fun {s p q s'} hr => ?_
  · obtain ⟨_, hl, rfl⟩ := hl
    exact hl
  · obtain ⟨q, hr, ⟨rfl, -⟩, hq⟩ := hr
    exact ⟨hr, hq⟩

end

/-! ## Walks by erasure -/

/-- What is kept of a place. -/
def Place.erase (k : Erasure) : Place → Place
  | .decl d => .decl (d.erase k)
  | .assign v e => .assign (v.erase k) (e.erase k)
  | .guard e => .guard (e.erase k)
  | .each v e => .each (v.erase k) (e.erase k)
  | .ret _ e => .ret .nowhere (e.map (Expr.erase k))
  | .call e => .call (e.erase k)

/-- Two places agree as far as they are kept, the one by `k`, the other by `k'`. -/
def Place.Agree (k k' : Erasure) (p q : Place) : Prop := p.erase k = q.erase k'

section

variable {σ : Type} {L : Loc → Loc → Prop} {k k' : Erasure}

mutual

theorem Stmt.Walk.erase_eq {R : σ → Place → Place → σ → Prop}
    (hr : ∀ s p q s', R s p q s' → Place.Agree k k' p q) :
    ∀ {s s' : σ} {a b : Stmt}, Stmt.Walk L R s a b s' → a.erase k = b.erase k'
  | _, _, _, _, .decl h => by simpa [Place.Agree, Place.erase, Stmt.erase] using hr _ _ _ _ h
  | _, _, _, _, .assign _ h => by simpa [Place.Agree, Place.erase, Stmt.erase] using hr _ _ _ _ h
  | _, _, _, _, .condNone _ h => by simpa [Stmt.erase] using h.erase_eq hr
  | _, _, _, _, .condSome _ hb hs => by simpa [Stmt.erase] using ⟨hb.erase_eq hr, hs.erase_eq hr⟩
  | _, _, _, _, .loop _ h hs => by
    simpa [Place.Agree, Place.erase, Stmt.erase, hs.erase_eq hr] using hr _ _ _ _ h
  | _, _, _, _, .each _ h hs => by
    simpa [Place.Agree, Place.erase, Stmt.erase, hs.erase_eq hr] using hr _ _ _ _ h
  | _, _, _, _, .ret _ h => by simpa [Place.Agree, Place.erase, Stmt.erase] using hr _ _ _ _ h
  | _, _, _, _, .brk _ => by simp [Stmt.erase]
  | _, _, _, _, .cont _ => by simp [Stmt.erase]
  | _, _, _, _, .expr h => by simpa [Place.Agree, Place.erase, Stmt.erase] using hr _ _ _ _ h

/-- Blocks whose places agree are kept alike. -/
theorem Stmt.WalkAll.erase_eq {R : σ → Place → Place → σ → Prop}
    (hr : ∀ s p q s', R s p q s' → Place.Agree k k' p q) :
    ∀ {s s' : σ} {a b : List Stmt}, Stmt.WalkAll L R s a b s' →
      Stmt.eraseAll k a = Stmt.eraseAll k' b
  | _, _, _, _, .nil => by simp [Stmt.eraseAll]
  | _, _, _, _, .cons h hs => by simp [Stmt.eraseAll, h.erase_eq hr, hs.erase_eq hr]

theorem Branch.WalkAll.erase_eq {R : σ → Place → Place → σ → Prop}
    (hr : ∀ s p q s', R s p q s' → Place.Agree k k' p q) :
    ∀ {s s' : σ} {a b : List Branch}, Branch.WalkAll L R s a b s' →
      Branch.eraseAll k a = Branch.eraseAll k' b
  | _, _, _, _, .nil => by simp [Branch.eraseAll]
  | _, _, _, _, .cons _ h hs hb => by
    simpa [Place.Agree, Place.erase, Branch.eraseAll, hs.erase_eq hr, hb.erase_eq hr] using
      hr _ _ _ _ h

end

mutual

theorem Stmt.walk_of_erase : ∀ (a b : Stmt), a.erase k = b.erase k' →
    Stmt.Walk (fun _ _ => True) (fun _ p q _ => Place.Agree k k' p q) () a b ()
  | .decl _, b, h => by
    cases b with
    | decl _ =>
      simp only [Stmt.erase, Stmt.decl.injEq] at h
      exact .decl (congrArg Place.decl h)
    | cond bs o l => cases o <;> cases h
    | _ => cases h
  | .assign _ _ _, b, h => by
    cases b with
    | assign _ _ _ =>
      simp only [Stmt.erase, Stmt.assign.injEq] at h
      exact .assign trivial (by rw [Place.Agree, Place.erase, Place.erase, h.1, h.2.1])
    | cond bs o l => cases o <;> cases h
    | _ => cases h
  | .cond bs o l, b, h => by
    cases b with
    | cond bs' o' l' =>
      simp only [Stmt.erase_cond, Stmt.cond.injEq] at h
      have hbs := Branch.walkAll_of_erase bs bs' h.1
      match o, o', h.2.1 with
      | none, none, _ => exact .condNone trivial hbs
      | some body, some body', hbody =>
        exact .condSome trivial hbs (Stmt.walkAll_of_erase body body' (Option.some.inj hbody))
    | _ => cases o <;> cases h
  | .loop _ _ _, b, h => by
    cases b with
    | loop _ _ _ =>
      simp only [Stmt.erase, Stmt.loop.injEq] at h
      exact .loop trivial (congrArg Place.guard h.1) (Stmt.walkAll_of_erase _ _ h.2.1)
    | cond bs o l => cases o <;> cases h
    | _ => cases h
  | .each _ _ _ _, b, h => by
    cases b with
    | each _ _ _ _ =>
      simp only [Stmt.erase, Stmt.each.injEq] at h
      exact .each trivial (by rw [Place.Agree, Place.erase, Place.erase, h.1, h.2.1])
        (Stmt.walkAll_of_erase _ _ h.2.2.1)
    | cond bs o l => cases o <;> cases h
    | _ => cases h
  | .ret _ _, b, h => by
    cases b with
    | ret _ _ =>
      simp only [Stmt.erase, Stmt.ret.injEq] at h
      exact .ret trivial (congrArg (Place.ret .nowhere) h.1)
    | cond bs o l => cases o <;> cases h
    | _ => cases h
  | .brk _, b, h => by
    cases b with
    | brk _ => exact .brk trivial
    | cond bs o l => cases o <;> cases h
    | _ => cases h
  | .cont _, b, h => by
    cases b with
    | cont _ => exact .cont trivial
    | cond bs o l => cases o <;> cases h
    | _ => cases h
  | .expr _, b, h => by
    cases b with
    | expr _ =>
      simp only [Stmt.erase, Stmt.expr.injEq] at h
      exact .expr (congrArg Place.call h)
    | cond bs o l => cases o <;> cases h
    | _ => cases h

/-- Blocks that are kept alike agree at their places. -/
theorem Stmt.walkAll_of_erase : ∀ (a b : List Stmt), Stmt.eraseAll k a = Stmt.eraseAll k' b →
    Stmt.WalkAll (fun _ _ => True) (fun _ p q _ => Place.Agree k k' p q) () a b ()
  | [], [], _ => .nil
  | [], _ :: _, h => by simp [Stmt.eraseAll] at h
  | _ :: _, [], h => by simp [Stmt.eraseAll] at h
  | _ :: _, _ :: _, h => by
    simp only [Stmt.eraseAll, List.cons.injEq] at h
    exact .cons (Stmt.walk_of_erase _ _ h.1) (Stmt.walkAll_of_erase _ _ h.2)

theorem Branch.walkAll_of_erase :
    ∀ (a b : List Branch), Branch.eraseAll k a = Branch.eraseAll k' b →
    Branch.WalkAll (fun _ _ => True) (fun _ p q _ => Place.Agree k k' p q) () a b ()
  | [], [], _ => .nil
  | [], .mk _ _ _ :: _, h => by simp [Branch.eraseAll] at h
  | .mk _ _ _ :: _, [], h => by simp [Branch.eraseAll] at h
  | .mk _ _ _ :: _, .mk _ _ _ :: _, h => by
    simp only [Branch.eraseAll, List.cons.injEq, Branch.mk.injEq] at h
    exact .cons trivial (congrArg Place.guard h.1.1) (Stmt.walkAll_of_erase _ _ h.1.2.1)
      (Branch.walkAll_of_erase _ _ h.2)

end

/-- A block walks along itself. -/
theorem Stmt.walkAll_refl (b : List Stmt) : Stmt.WalkAll Eq (fun _ p q _ => q = p) () b b () :=
  (Stmt.walkAll_of_erase (k := .places) b b rfl).right.mono id fun h => h.1

end

/-! ## Walks of rewriters -/

section

variable {σ : Type}

/-- The graph of a rewriter whose reports all satisfy `P`. -/
def Rewriter.Graph (w : Rewriter (StateT σ Noted)) (P : Diagnostic → Prop) :
    σ → Place → Place → σ → Prop :=
  fun s p q s' => ((w.at p).run s).value = (q, s') ∧ ∀ d ∈ ((w.at p).run s).notes, P d

/-- At each place of a walk by `S` the rewriter reports only what satisfies `P`, keeps `I` between
its state and that of the walk, and makes of the first place what is related to the second one by
`E`. -/
def Rewriter.Follows {τ : Type} (w : Rewriter (StateT σ Noted)) (P : Diagnostic → Prop)
    (S : τ → Place → Place → τ → Prop) (I : σ → τ → Prop) (E : Place → Place → Prop) : Prop :=
  ∀ ⦃s t p q t'⦄, I s t → S t p q t' →
    (∀ d ∈ ((w.at p).run s).notes, P d) ∧ I ((w.at p).run s).value.2 t' ∧
      E ((w.at p).run s).value.1 q

/-- A rewriter without a state, as one that leaves the state alone. -/
def Rewriter.lift (w : Rewriter Noted) : Rewriter (StateT σ Noted) where
  decl d := StateT.lift (w.decl d)
  assign v e := StateT.lift (w.assign v e)
  guard e := StateT.lift (w.guard e)
  each v e := StateT.lift (w.each v e)
  ret l e := StateT.lift (w.ret l e)
  call e := StateT.lift (w.call e)

@[simp] theorem Rewriter.lift_guard (w : Rewriter Noted) (e : Expr) :
    (w.lift : Rewriter (StateT σ Noted)).guard e = StateT.lift (w.guard e) := rfl

@[simp] theorem Rewriter.lift_each (w : Rewriter Noted) (v : Variable) (e : Expr) :
    (w.lift : Rewriter (StateT σ Noted)).each v e = StateT.lift (w.each v e) := rfl

mutual

theorem Stmt.rewrite_lift (w : Rewriter Noted) (s : σ) : ∀ st : Stmt,
    (Stmt.rewrite w.lift st).run s = (·, s) <$> Stmt.rewrite w st
  | .decl d => by simp [Stmt.rewrite, Rewriter.lift]
  | .assign v e l => by simp [Stmt.rewrite, Rewriter.lift]
  | .cond bs none l => by simp [Stmt.rewrite, Branch.rewriteAll_lift w s bs]
  | .cond bs (some body) l => by
    simp [Stmt.rewrite, Branch.rewriteAll_lift w s bs, Stmt.rewriteAll_lift w s body]
  | .loop e body l => by simp [Stmt.rewrite, Stmt.rewriteAll_lift w s body]
  | .each v e body l => by simp [Stmt.rewrite, Stmt.rewriteAll_lift w s body]
  | .ret e l => by simp [Stmt.rewrite, Rewriter.lift]
  | .brk l => by simp [Stmt.rewrite]
  | .cont l => by simp [Stmt.rewrite]
  | .expr e => by simp [Stmt.rewrite, Rewriter.lift]

theorem Stmt.rewriteAll_lift (w : Rewriter Noted) (s : σ) : ∀ body : List Stmt,
    (Stmt.rewriteAll w.lift body).run s = (·, s) <$> Stmt.rewriteAll w body
  | [] => by simp [Stmt.rewriteAll]
  | st :: body => by
    simp [Stmt.rewriteAll, Stmt.rewrite_lift w s st, Stmt.rewriteAll_lift w s body]

theorem Branch.rewriteAll_lift (w : Rewriter Noted) (s : σ) : ∀ bs : List Branch,
    (Branch.rewriteAll w.lift bs).run s = (·, s) <$> Branch.rewriteAll w bs
  | [] => by simp [Branch.rewriteAll]
  | .mk e body l :: bs => by
    simp [Branch.rewriteAll, Stmt.rewriteAll_lift w s body, Branch.rewriteAll_lift w s bs]

end

/-- What a rewriter returns at a place is a place of the same kind, with these parts. -/
theorem Rewriter.Graph.guard {w : Rewriter (StateT σ Noted)} {P : Diagnostic → Prop} {s : σ}
    {e : Expr} (h : ∀ d ∈ ((w.guard e).run s).notes, P d) :
    w.Graph P s (.guard e) (.guard ((w.guard e).run s).value.1) ((w.guard e).run s).value.2 :=
  ⟨rfl, by simpa [Rewriter.at] using h⟩

theorem Rewriter.Graph.each {w : Rewriter (StateT σ Noted)} {P : Diagnostic → Prop} {s : σ}
    {v : Variable} {e : Expr} (h : ∀ d ∈ ((w.each v e).run s).notes, P d) :
    w.Graph P s (.each v e) (.each ((w.each v e).run s).value.1.1 ((w.each v e).run s).value.1.2)
      ((w.each v e).run s).value.2 :=
  ⟨rfl, by simpa [Rewriter.at] using h⟩

section

variable {w : Rewriter (StateT σ Noted)} {P : Diagnostic → Prop}

mutual

/-- A statement and its rewritten form walk in step. -/
theorem Stmt.walk_rewrite : ∀ (s : σ) (st : Stmt), (∀ d ∈ ((Stmt.rewrite w st).run s).notes, P d) →
    Stmt.Walk Eq (w.Graph P) s st ((Stmt.rewrite w st).run s).value.1
      ((Stmt.rewrite w st).run s).value.2
  | s, .decl d, h => by
    rw [Stmt.rewrite] at h ⊢
    exact .decl ⟨rfl, by simpa [Rewriter.at] using h⟩
  | s, .assign v e l, h => by
    rw [Stmt.rewrite] at h ⊢
    exact .assign rfl ⟨rfl, by simpa [Rewriter.at] using h⟩
  | s, .cond bs none l, h => by
    rw [Stmt.rewrite, StateT.run_bind] at h ⊢
    exact .condNone rfl (Branch.walk_rewriteAll s bs (Noted.forall_notes_bind.1 h).1)
  | s, .cond bs (some body) l, h => by
    simp only [Stmt.rewrite, StateT.run_bind, Noted.forall_notes_bind] at h ⊢
    exact .condSome rfl (Branch.walk_rewriteAll s bs h.1) (Stmt.walk_rewriteAll _ body h.2.1)
  | s, .loop e body l, h => by
    simp only [Stmt.rewrite, StateT.run_bind, Noted.forall_notes_bind] at h ⊢
    exact .loop rfl (.guard h.1) (Stmt.walk_rewriteAll _ body h.2.1)
  | s, .each v e body l, h => by
    simp only [Stmt.rewrite, StateT.run_bind, Noted.forall_notes_bind] at h ⊢
    exact .each rfl (.each h.1) (Stmt.walk_rewriteAll _ body h.2.1)
  | s, .ret e l, h => by
    rw [Stmt.rewrite] at h ⊢
    exact .ret rfl ⟨rfl, by simpa [Rewriter.at] using h⟩
  | s, .brk l, _ => by
    rw [Stmt.rewrite]
    exact .brk rfl
  | s, .cont l, _ => by
    rw [Stmt.rewrite]
    exact .cont rfl
  | s, .expr e, h => by
    rw [Stmt.rewrite] at h ⊢
    exact .expr ⟨rfl, by simpa [Rewriter.at] using h⟩

/-- A block and its rewritten form walk in step. -/
theorem Stmt.walk_rewriteAll : ∀ (s : σ) (body : List Stmt),
    (∀ d ∈ ((Stmt.rewriteAll w body).run s).notes, P d) →
    Stmt.WalkAll Eq (w.Graph P) s body ((Stmt.rewriteAll w body).run s).value.1
      ((Stmt.rewriteAll w body).run s).value.2
  | s, [], _ => by
    rw [Stmt.rewriteAll]
    exact .nil
  | s, st :: body, h => by
    simp only [Stmt.rewriteAll, StateT.run_bind, Noted.forall_notes_bind] at h ⊢
    exact .cons (Stmt.walk_rewrite s st h.1) (Stmt.walk_rewriteAll _ body h.2.1)

theorem Branch.walk_rewriteAll : ∀ (s : σ) (bs : List Branch),
    (∀ d ∈ ((Branch.rewriteAll w bs).run s).notes, P d) →
    Branch.WalkAll Eq (w.Graph P) s bs ((Branch.rewriteAll w bs).run s).value.1
      ((Branch.rewriteAll w bs).run s).value.2
  | s, [], _ => by
    rw [Branch.rewriteAll]
    exact .nil
  | s, .mk e body l :: bs, h => by
    simp only [Branch.rewriteAll, StateT.run_bind, Noted.forall_notes_bind] at h ⊢
    exact .cons rfl (.guard h.1) (Stmt.walk_rewriteAll _ body h.2.1)
      (Branch.walk_rewriteAll _ bs h.2.2.1)

end

mutual

/-- A rewriter that does the right thing at each place of a walk does so on the whole statement. -/
theorem Stmt.Walk.follow {τ : Type} {L : Loc → Loc → Prop} {S : τ → Place → Place → τ → Prop}
    {I : σ → τ → Prop} {E : Place → Place → Prop}
    (step : w.Follows P S I E) :
    ∀ {s : σ} {t t' : τ} {a c : Stmt}, I s t → Stmt.Walk L S t a c t' →
    (∀ d ∈ ((Stmt.rewrite w a).run s).notes, P d) ∧ I ((Stmt.rewrite w a).run s).value.2 t' ∧
      Stmt.Walk L (fun _ p q _ => E p q) () ((Stmt.rewrite w a).run s).value.1 c ()
  | s, _, _, _, _, hi, .decl h => by
    obtain ⟨hn, hi, he⟩ := step hi h
    rw [Stmt.rewrite]
    exact ⟨by simpa [Rewriter.at] using hn, hi, .decl he⟩
  | s, _, _, _, _, hi, .assign hl h => by
    obtain ⟨hn, hi, he⟩ := step hi h
    rw [Stmt.rewrite]
    exact ⟨by simpa [Rewriter.at] using hn, hi, .assign hl he⟩
  | s, _, _, _, _, hi, .condNone hl h => by
    obtain ⟨hn, hi, he⟩ := h.follow step hi
    rw [Stmt.rewrite]
    exact ⟨by simpa using hn, hi, .condNone hl he⟩
  | s, _, _, _, _, hi, .condSome hl hb hs => by
    obtain ⟨hn, hi, he⟩ := hb.follow step hi
    obtain ⟨hn', hi', he'⟩ := hs.follow step hi
    simp only [Stmt.rewrite, StateT.run_bind, Noted.forall_notes_bind]
    exact ⟨⟨hn, hn', List.forall_mem_nil _⟩, hi', .condSome hl he he'⟩
  | s, _, _, _, _, hi, .loop hl h hs => by
    obtain ⟨hn, hi, he⟩ := step hi h
    obtain ⟨hn', hi', he'⟩ := hs.follow step hi
    simp only [Stmt.rewrite, StateT.run_bind, Noted.forall_notes_bind]
    exact ⟨⟨by simpa [Rewriter.at] using hn, hn', List.forall_mem_nil _⟩, hi', .loop hl he he'⟩
  | s, _, _, _, _, hi, .each hl h hs => by
    obtain ⟨hn, hi, he⟩ := step hi h
    obtain ⟨hn', hi', he'⟩ := hs.follow step hi
    simp only [Stmt.rewrite, StateT.run_bind, Noted.forall_notes_bind]
    exact ⟨⟨by simpa [Rewriter.at] using hn, hn', List.forall_mem_nil _⟩, hi', .each hl he he'⟩
  | s, _, _, _, _, hi, .ret hl h => by
    obtain ⟨hn, hi, he⟩ := step hi h
    rw [Stmt.rewrite]
    exact ⟨by simpa [Rewriter.at] using hn, hi, .ret hl he⟩
  | s, _, _, _, _, hi, .brk hl => by
    rw [Stmt.rewrite]
    exact ⟨List.forall_mem_nil _, hi, .brk hl⟩
  | s, _, _, _, _, hi, .cont hl => by
    rw [Stmt.rewrite]
    exact ⟨List.forall_mem_nil _, hi, .cont hl⟩
  | s, _, _, _, _, hi, .expr h => by
    obtain ⟨hn, hi, he⟩ := step hi h
    rw [Stmt.rewrite]
    exact ⟨by simpa [Rewriter.at] using hn, hi, .expr he⟩

/-- A rewriter that does the right thing at each place of a walk does so on the whole block. -/
theorem Stmt.WalkAll.follow {τ : Type} {L : Loc → Loc → Prop} {S : τ → Place → Place → τ → Prop}
    {I : σ → τ → Prop} {E : Place → Place → Prop}
    (step : w.Follows P S I E) :
    ∀ {s : σ} {t t' : τ} {a c : List Stmt}, I s t → Stmt.WalkAll L S t a c t' →
    (∀ d ∈ ((Stmt.rewriteAll w a).run s).notes, P d) ∧ I ((Stmt.rewriteAll w a).run s).value.2 t' ∧
      Stmt.WalkAll L (fun _ p q _ => E p q) () ((Stmt.rewriteAll w a).run s).value.1 c ()
  | s, _, _, _, _, hi, .nil => by
    rw [Stmt.rewriteAll]
    exact ⟨List.forall_mem_nil _, hi, .nil⟩
  | s, _, _, _, _, hi, .cons h hs => by
    obtain ⟨hn, hi, he⟩ := h.follow step hi
    obtain ⟨hn', hi', he'⟩ := hs.follow step hi
    simp only [Stmt.rewriteAll, StateT.run_bind, Noted.forall_notes_bind]
    exact ⟨⟨hn, hn', List.forall_mem_nil _⟩, hi', .cons he he'⟩

theorem Branch.WalkAll.follow {τ : Type} {L : Loc → Loc → Prop} {S : τ → Place → Place → τ → Prop}
    {I : σ → τ → Prop} {E : Place → Place → Prop}
    (step : w.Follows P S I E) :
    ∀ {s : σ} {t t' : τ} {a c : List Branch}, I s t → Branch.WalkAll L S t a c t' →
    (∀ d ∈ ((Branch.rewriteAll w a).run s).notes, P d) ∧
      I ((Branch.rewriteAll w a).run s).value.2 t' ∧
      Branch.WalkAll L (fun _ p q _ => E p q) () ((Branch.rewriteAll w a).run s).value.1 c ()
  | s, _, _, _, _, hi, .nil => by
    rw [Branch.rewriteAll]
    exact ⟨List.forall_mem_nil _, hi, .nil⟩
  | s, _, _, _, _, hi, .cons hl h hs hb => by
    obtain ⟨hn, hi, he⟩ := step hi h
    obtain ⟨hn', hi', he'⟩ := hs.follow step hi
    obtain ⟨hn'', hi'', he''⟩ := hb.follow step hi'
    simp only [Branch.rewriteAll, StateT.run_bind, Noted.forall_notes_bind]
    exact ⟨⟨by simpa [Rewriter.at] using hn, hn', hn'', List.forall_mem_nil _⟩, hi'',
      .cons hl he he' he''⟩

end

end

/-! ## Rewriters without a state -/

section

variable {w : Rewriter Noted} {P : Diagnostic → Prop}

/-- What a rewriter does at a place, when its reports all satisfy `P`. -/
def Rewriter.Does (w : Rewriter Noted) (P : Diagnostic → Prop) (p q : Place) : Prop :=
  (w.at p).value = q ∧ ∀ d ∈ (w.at p).notes, P d

theorem Rewriter.run_at_lift (w : Rewriter Noted) (s : σ) (p : Place) :
    (w.lift.at p).run s = (·, s) <$> w.at p := by
  cases p <;> simp [Rewriter.at, Rewriter.lift]

/-- A block and its rewritten form walk in step. -/
theorem Stmt.walk_rewriteAll_lift (body : List Stmt)
    (h : ∀ d ∈ (Stmt.rewriteAll w body).notes, P d) :
    Stmt.WalkAll Eq (fun _ p q _ => w.Does P p q) () body (Stmt.rewriteAll w body).value () := by
  have hr := Stmt.rewriteAll_lift w () body
  have hw := Stmt.walk_rewriteAll (w := w.lift) (P := P) () body (by simpa [hr] using h)
  rw [hr] at hw
  refine hw.mono id fun hg => ?_
  have hq := congrArg Prod.fst hg.1
  rw [Rewriter.run_at_lift] at hq
  exact ⟨hq, by simpa [Rewriter.run_at_lift] using hg.2⟩

/-- A rewriter that does the right thing at each place of a walk does so on the whole block. -/
theorem Stmt.WalkAll.follow_lift {τ : Type} {L : Loc → Loc → Prop}
    {S : τ → Place → Place → τ → Prop} {E : Place → Place → Prop}
    (step : ∀ {t p q t'}, S t p q t' → (∀ d ∈ (w.at p).notes, P d) ∧ E (w.at p).value q)
    {t t' : τ} {a c : List Stmt} (h : Stmt.WalkAll L S t a c t') :
    (∀ d ∈ (Stmt.rewriteAll w a).notes, P d) ∧
      Stmt.WalkAll L (fun _ p q _ => E p q) () (Stmt.rewriteAll w a).value c () := by
  have hw : (w.lift : Rewriter (StateT Unit Noted)).Follows P S (fun _ _ => True) E :=
    fun _ _ _ _ _ _ hs => by simpa [Rewriter.run_at_lift] using step hs
  have hf := h.follow hw (s := ()) trivial
  simpa [Stmt.rewriteAll_lift] using hf

/-- The rewriter leaves the place as it is and reports nothing. -/
def Rewriter.Fixes (w : Rewriter Noted) (p : Place) : Prop :=
  (w.at p).value = p ∧ (w.at p).notes = []

mutual

theorem Stmt.rewrite_of_fixes : ∀ {a : Stmt}, Stmt.Holds w.Fixes a → Stmt.rewrite w a = pure a
  | _, .decl h => by
    have hv := Place.decl.inj h.1
    have hn := h.2
    simp only [Rewriter.at, Noted.notes_bind, Noted.notes_pure, List.append_nil] at hn
    apply Noted.ext <;> simp [Stmt.rewrite, hv, hn]
  | _, .assign h => by
    have hv := Place.assign.inj h.1
    have hn := h.2
    simp only [Rewriter.at, Noted.notes_bind, Noted.notes_pure, List.append_nil] at hn
    apply Noted.ext <;> simp [Stmt.rewrite, hv, hn]
  | _, .condNone h => by
    rw [Stmt.rewrite, Branch.rewriteAll_of_fixes h]
    rfl
  | _, .condSome hb hs => by
    rw [Stmt.rewrite, Branch.rewriteAll_of_fixes hb, Stmt.rewriteAll_of_fixes hs]
    rfl
  | _, .loop h hs => by
    have hv := Place.guard.inj h.1
    have hn := h.2
    simp only [Rewriter.at, Noted.notes_bind, Noted.notes_pure, List.append_nil] at hn
    apply Noted.ext <;> simp [Stmt.rewrite, Stmt.rewriteAll_of_fixes hs, hv, hn]
  | _, .each h hs => by
    have hv := Place.each.inj h.1
    have hn := h.2
    simp only [Rewriter.at, Noted.notes_bind, Noted.notes_pure, List.append_nil] at hn
    apply Noted.ext <;> simp [Stmt.rewrite, Stmt.rewriteAll_of_fixes hs, hv, hn]
  | _, .ret h => by
    have hv := (Place.ret.inj h.1).2
    have hn := h.2
    simp only [Rewriter.at, Noted.notes_bind, Noted.notes_pure, List.append_nil] at hn
    apply Noted.ext <;> simp [Stmt.rewrite, hv, hn]
  | _, .brk => by rw [Stmt.rewrite]
  | _, .cont => by rw [Stmt.rewrite]
  | _, .expr h => by
    have hv := Place.call.inj h.1
    have hn := h.2
    simp only [Rewriter.at, Noted.notes_bind, Noted.notes_pure, List.append_nil] at hn
    apply Noted.ext <;> simp [Stmt.rewrite, hv, hn]

/-- A block whose places are left alone is left alone. -/
theorem Stmt.rewriteAll_of_fixes : ∀ {a : List Stmt}, Stmt.HoldsAll w.Fixes a →
    Stmt.rewriteAll w a = pure a
  | _, .nil => by rw [Stmt.rewriteAll]
  | _, .cons h hs => by
    rw [Stmt.rewriteAll, Stmt.rewrite_of_fixes h, Stmt.rewriteAll_of_fixes hs]
    rfl

theorem Branch.rewriteAll_of_fixes : ∀ {a : List Branch}, Branch.HoldsAll w.Fixes a →
    Branch.rewriteAll w a = pure a
  | _, .nil => by rw [Branch.rewriteAll]
  | _, .cons h hs hb => by
    have hv := Place.guard.inj h.1
    have hn := h.2
    simp only [Rewriter.at, Noted.notes_bind, Noted.notes_pure, List.append_nil] at hn
    apply Noted.ext <;>
      simp [Branch.rewriteAll, Stmt.rewriteAll_of_fixes hs, Branch.rewriteAll_of_fixes hb, hv, hn]

end

end

end

end SplFrontend
