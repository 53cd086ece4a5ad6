import SplFrontend.Proofs.Grammar

/-!
# The grammar of statements

The relations of statements, branches and blocks, and their equivalence with the readers.
-/

namespace SplFrontend

open Reading TokenReading

/-- The phrases for variable declarations. -/
inductive VarDecl.Reads : List Token → VarDecl → List Token → Prop
  | untyped {l l₁ l₂ l₃ n ts e r} : Expr.Reads ts e (⟨.mark .semicolon, l₃⟩ :: r) →
      VarDecl.Reads (⟨.keyword .kwVar, l⟩ :: ⟨.ident n, l₁⟩ :: ⟨.mark .assign, l₂⟩ :: ts)
        ⟨n, none, e, l⟩ r
  | typed {t l₁ l₂ l₃ n ts ty s e r} :
      Ty.Reads (t :: ts) ty (⟨.ident n, l₁⟩ :: ⟨.mark .assign, l₂⟩ :: s) →
      Expr.Reads s e (⟨.mark .semicolon, l₃⟩ :: r) →
        VarDecl.Reads (t :: ts) ⟨n, some ty, e, t.loc⟩ r

theorem VarDecl.readRest_gives_iff {stop loc : Loc} {ty : Option Ty} {ts r : List Token}
    {d : VarDecl} : (VarDecl.readRest stop loc ty ts).Gives d r ↔ ∃ n e l₁ l₂ l₃ s,
      ts = ⟨.ident n, l₁⟩ :: ⟨.mark .assign, l₂⟩ :: s ∧
      Expr.Reads s e (⟨.mark .semicolon, l₃⟩ :: r) ∧ d = ⟨n, ty, e, loc⟩ := by
  unfold VarDecl.readRest
  constructor
  · simp only [gives_bind, gives_map, gives_ident, gives_expect, Expr.gives_iff]
    rintro ⟨n, _, ⟨l₁, rfl⟩, _, _, s, ⟨l₂, rfl⟩, _, e, _, he, _, _, ⟨l₃, rfl⟩, rfl⟩
    exact ⟨n, e, l₁, l₂, l₃, s, rfl, he, rfl⟩
  · rintro ⟨n, e, l₁, l₂, l₃, s, rfl, he, rfl⟩
    refine (gives_ident.2 ⟨l₁, rfl⟩).bind fun _ => ?_
    refine (gives_expect (u := ()).2 ⟨l₂, rfl⟩).bind fun _ => ?_
    exact he.gives.bind fun _ => by simp

theorem VarDecl.read_eq_of_reads {stop : Loc} {ts s : List Token} {ty : Ty} (h : Ty.Reads ts ty s) :
    VarDecl.read stop ts =
      (Ty.read stop ts).bind fun ty r _ => readRest stop (here stop ts) (some ty) r := by
  cases h <;> simp only [VarDecl.read]

theorem VarDecl.gives_iff {stop : Loc} {ts r : List Token} {d : VarDecl} :
    (VarDecl.read stop ts).Gives d r ↔ VarDecl.Reads ts d r := by
  constructor
  · intro h
    unfold VarDecl.read at h
    split at h
    · rw [gives_under, readRest_gives_iff] at h
      obtain ⟨n, e, l₁, l₂, l₃, s, rfl, he, rfl⟩ := h
      exact .untyped he
    · simp only [gives_bind, readRest_gives_iff, Ty.gives_iff] at h
      obtain ⟨ty, _, ht, _, n, e, l₁, l₂, l₃, s, rfl, he, rfl⟩ := h
      cases ts with
      | nil => cases ht
      | cons t ts => exact .typed ht he
  · intro h
    cases h with
    | untyped he =>
      simp only [VarDecl.read, gives_under, readRest_gives_iff]
      exact ⟨_, _, _, _, _, _, rfl, he, rfl⟩
    | typed ht he =>
      rw [VarDecl.read_eq_of_reads ht]
      exact ht.gives.bind fun _ => readRest_gives_iff.2 ⟨_, _, _, _, _, _, rfl, he, rfl⟩

theorem Expr.readGuard_gives_iff {stop : Loc} {ts r : List Token} {e : Expr} :
    (Expr.readGuard stop ts).Gives e r ↔ ∃ l₁ l₂ s, ts = ⟨.mark .lparen, l₁⟩ :: s ∧
      Expr.Reads s e (⟨.mark .rparen, l₂⟩ :: r) := by
  unfold Expr.readGuard
  constructor
  · simp only [gives_bind, gives_map, gives_expect, Expr.gives_iff]
    rintro ⟨_, s, ⟨l₁, rfl⟩, _, _, _, he, _, _, ⟨l₂, rfl⟩, rfl⟩
    exact ⟨l₁, l₂, s, rfl, he⟩
  · rintro ⟨l₁, l₂, s, rfl, he⟩
    refine (gives_expect (u := ()).2 ⟨l₁, rfl⟩).bind fun _ => ?_
    exact he.gives.bind fun _ => by simp

/-- No phrase for an expression begins with a semicolon. -/
theorem Expr.Reads.not_semicolon {l : Loc} {ts r : List Token} {e : Expr} :
    ¬ Expr.Reads (⟨.mark .semicolon, l⟩ :: ts) e r := by
  intro h
  cases h with
  | single h _ => cases h with | atom h => cases h
  | flat h _ => cases h with | atom h => cases h

theorem Expr.readReturned_gives_iff {stop : Loc} {ts r : List Token} {value : Option Expr} :
    (Expr.readReturned stop ts).Gives value r ↔
      (value = none ∧ ∃ l, ts = ⟨.mark .semicolon, l⟩ :: r) ∨
      ∃ e l, value = some e ∧ Expr.Reads ts e (⟨.mark .semicolon, l⟩ :: r) := by
  unfold Expr.readReturned
  split
  · simp only [gives_take]
    constructor
    · rintro ⟨rfl, rfl⟩
      exact .inl ⟨rfl, _, rfl⟩
    · rintro (⟨rfl, _, h⟩ | ⟨e, l, rfl, he⟩)
      · cases h
        exact ⟨rfl, rfl⟩
      · exact absurd he Expr.Reads.not_semicolon
  · next hn =>
    constructor
    · simp only [gives_bind, gives_map, gives_expect, Expr.gives_iff]
      rintro ⟨e, _, he, _, _, ⟨l, rfl⟩, rfl⟩
      exact .inr ⟨e, l, rfl, he⟩
    · rintro (⟨rfl, l, rfl⟩ | ⟨e, l, rfl, he⟩)
      · exact absurd rfl (hn _ _)
      · exact he.gives.bind fun _ => by simp

theorem Stmt.readAssign_gives_iff {stop : Loc} {ts r : List Token} {st : Stmt} :
    (Stmt.readAssign stop ts).Gives st r ↔ ∃ n e l l₁ l₂ as s s', ts = ⟨.ident n, l⟩ :: s ∧
      Variable.accessorsOf s = (as, ⟨.mark .assign, l₁⟩ :: s') ∧
      Expr.Reads s' e (⟨.mark .semicolon, l₂⟩ :: r) ∧
      st = .assign ⟨.unresolved n, as, none, l⟩ e l := by
  unfold Stmt.readAssign
  constructor
  · simp only [gives_bind, gives_map, gives_expect, Expr.gives_iff, Variable.gives_iff]
    rintro ⟨v, _, ⟨n, l, s, rfl, rfl, rfl⟩, _, _, s', ⟨l₁, hs⟩, _, e, _, he, _, _, ⟨l₂, rfl⟩, rfl⟩
    exact ⟨n, e, l, l₁, l₂, _, s, s', rfl, Prod.ext rfl hs, he, rfl⟩
  · rintro ⟨n, e, l, l₁, l₂, as, s, s', rfl, hs, he, rfl⟩
    have hv : (Variable.read stop (⟨.ident n, l⟩ :: s)).Gives ⟨.unresolved n, as, none, l⟩
        (⟨.mark .assign, l₁⟩ :: s') := Variable.gives_iff.2 ⟨n, l, s, rfl, by rw [hs], by rw [hs]⟩
    refine hv.bind fun _ => (gives_expect (u := ()).2 ⟨l₁, rfl⟩).bind fun _ => ?_
    exact he.gives.bind fun _ => by simp [here]

theorem Stmt.readEach_gives_iff {stop : Loc} {ts r : List Token} {v : Variable} {e : Expr} :
    (Stmt.readEach stop ts).Gives (v, e) r ↔ ∃ n l l₁ l₂ l₃ as s s',
      ts = ⟨.mark .lparen, l₁⟩ :: ⟨.ident n, l⟩ :: s ∧
      Variable.accessorsOf s = (as, ⟨.keyword .kwIn, l₂⟩ :: s') ∧
      Expr.Reads s' e (⟨.mark .rparen, l₃⟩ :: r) ∧ v = ⟨.unresolved n, as, none, l⟩ := by
  unfold Stmt.readEach
  constructor
  · simp only [gives_bind, gives_map, gives_expect, Expr.gives_iff, Variable.gives_iff]
    rintro ⟨_, _, ⟨l₁, rfl⟩, _, v, _, ⟨n, l, s, rfl, rfl, rfl⟩, _, _, s', ⟨l₂, hs⟩, _, e, _, he, _,
      _, ⟨l₃, rfl⟩, hve⟩
    cases hve
    exact ⟨n, l, l₁, l₂, l₃, _, s, s', rfl, Prod.ext rfl hs, he, rfl⟩
  · rintro ⟨n, l, l₁, l₂, l₃, as, s, s', rfl, hs, he, rfl⟩
    have hv : (Variable.read stop (⟨.ident n, l⟩ :: s)).Gives ⟨.unresolved n, as, none, l⟩
        (⟨.keyword .kwIn, l₂⟩ :: s') := Variable.gives_iff.2 ⟨n, l, s, rfl, by rw [hs], by rw [hs]⟩
    refine (gives_expect (u := ()).2 ⟨l₁, rfl⟩).bind fun _ => hv.bind fun _ => ?_
    refine (gives_expect (u := ()).2 ⟨l₂, rfl⟩).bind fun _ => ?_
    exact he.gives.bind fun _ => by simp

/-- Neither `elif` nor `else` comes next. -/
def NoAlternative (ts : List Token) : Prop :=
  ∀ l r, ts ≠ ⟨.keyword .kwElif, l⟩ :: r ∧ ts ≠ ⟨.keyword .kwElse, l⟩ :: r

mutual

/-- The phrases for statements. -/
inductive Stmt.Reads : List Token → Stmt → List Token → Prop
  | cond {l ts b s bs o r} : Branch.Reads l ts b s → Branch.ReadsMore s bs o r →
      Stmt.Reads (⟨.keyword .kwIf, l⟩ :: ts) (.cond (b :: bs) o l) r
  | loop {l l₁ l₂ ts e s body r} : Expr.Reads ts e (⟨.mark .rparen, l₂⟩ :: s) →
      Stmt.ReadsBlock s body r →
      Stmt.Reads (⟨.keyword .kwWhile, l⟩ :: ⟨.mark .lparen, l₁⟩ :: ts) (.loop e body l) r
  | each {l l₁ l₂ l₃ l₄ n ts as s e s' body r} :
      Variable.accessorsOf ts = (as, ⟨.keyword .kwIn, l₃⟩ :: s) →
      Expr.Reads s e (⟨.mark .rparen, l₄⟩ :: s') → Stmt.ReadsBlock s' body r →
      Stmt.Reads (⟨.keyword .kwFor, l⟩ :: ⟨.mark .lparen, l₁⟩ :: ⟨.ident n, l₂⟩ :: ts)
        (.each ⟨.unresolved n, as, none, l₂⟩ e body l) r
  | ret {l l₁ ts e r} : Expr.Reads ts e (⟨.mark .semicolon, l₁⟩ :: r) →
      Stmt.Reads (⟨.keyword .kwReturn, l⟩ :: ts) (.ret (some e) l) r
  | retNone {l l₁ r} :
      Stmt.Reads (⟨.keyword .kwReturn, l⟩ :: ⟨.mark .semicolon, l₁⟩ :: r) (.ret none l) r
  | brk {l l₁ r} : Stmt.Reads (⟨.keyword .kwBreak, l⟩ :: ⟨.mark .semicolon, l₁⟩ :: r) (.brk l) r
  | cont {l l₁ r} :
    Stmt.Reads (⟨.keyword .kwContinue, l⟩ :: ⟨.mark .semicolon, l₁⟩ :: r) (.cont l) r
  | call {n l l₁ l₂ ts as r} : Expr.ReadsArgs ts as (⟨.mark .semicolon, l₂⟩ :: r) →
      Stmt.Reads (⟨.ident n, l⟩ :: ⟨.mark .lparen, l₁⟩ :: ts) (.expr (.call .function n as l)) r
  | assign {n l l₁ l₂ ts as s e r} : Variable.accessorsOf ts = (as, ⟨.mark .assign, l₁⟩ :: s) →
      Expr.Reads s e (⟨.mark .semicolon, l₂⟩ :: r) →
      Stmt.Reads (⟨.ident n, l⟩ :: ts) (.assign ⟨.unresolved n, as, none, l⟩ e l) r
  | decl {ts d r} : VarDecl.Reads ts d r → Stmt.Reads ts (.decl d) r

/-- The phrases for a branch, from its condition on. -/
inductive Branch.Reads : Loc → List Token → Branch → List Token → Prop
  | mk {l l₁ l₂ ts e s body r} : Expr.Reads ts e (⟨.mark .rparen, l₂⟩ :: s) →
      Stmt.ReadsBlock s body r → Branch.Reads l (⟨.mark .lparen, l₁⟩ :: ts) (.mk e body l) r

/-- The phrases for what may follow a branch. -/
inductive Branch.ReadsMore : List Token → List Branch → Option (List Stmt) → List Token → Prop
  | none {ts} : NoAlternative ts → Branch.ReadsMore ts [] none ts
  | elif {l ts b s bs o r} : Branch.Reads l ts b s → Branch.ReadsMore s bs o r →
      Branch.ReadsMore (⟨.keyword .kwElif, l⟩ :: ts) (b :: bs) o r
  | otherwise {l ts body r} : Stmt.ReadsBlock ts body r →
      Branch.ReadsMore (⟨.keyword .kwElse, l⟩ :: ts) [] (some body) r

/-- The phrases for blocks. -/
inductive Stmt.ReadsBlock : List Token → List Stmt → List Token → Prop
  | mk {l ts body r} : Stmt.ReadsBody ts body r → Stmt.ReadsBlock (⟨.mark .lbrace, l⟩ :: ts) body r

/-- The phrases for the statements of a block, from after its opening brace. -/
inductive Stmt.ReadsBody : List Token → List Stmt → List Token → Prop
  | close {l r} : Stmt.ReadsBody (⟨.mark .rbrace, l⟩ :: r) [] r
  | cons {ts st s body r} : Stmt.Reads ts st s → Stmt.ReadsBody s body r →
      Stmt.ReadsBody ts (st :: body) r

end

section

variable {stop : Loc}

/-! ### Derivations are read -/

/-- No phrase for a statement begins with a closing brace. -/
theorem Stmt.Reads.not_rbrace {ts r : List Token} {st : Stmt} (h : Stmt.Reads ts st r) :
    ∀ l s, ts ≠ ⟨.mark .rbrace, l⟩ :: s := by
  rintro l s rfl
  cases h with
  | decl h => cases h with | typed h _ => cases h

theorem Stmt.body_gives_cons {ts s r : List Token} {st : Stmt} {stmts : List Stmt}
    (hn : ∀ l s, ts ≠ ⟨.mark .rbrace, l⟩ :: s) (h : (Stmt.read stop ts).Gives st s)
    (hb : (Stmt.body stop s).Gives stmts r) : (Stmt.body stop ts).Gives (st :: stmts) r := by
  rw [Stmt.body.eq_def]
  split
  · rw [Stmt.read] at h
    exact absurd h not_gives_leave
  · split
    · next t _ ht => exact absurd (by rw [← ht]) (hn t.loc _)
    · exact h.bind fun _ => gives_map.2 ⟨_, hb, rfl⟩

theorem Variable.accessorsOf_lparen {l : Loc} {ts : List Token} :
    Variable.accessorsOf (⟨.mark .lparen, l⟩ :: ts) = ([], ⟨.mark .lparen, l⟩ :: ts) := by
  rw [Variable.accessorsOf]
  intro a l' ts' h
  cases h

/-- A declaration is read by its own reader, whatever token it begins with. -/
theorem Stmt.read_eq_of_decl {ts r : List Token} {d : VarDecl} (h : VarDecl.Reads ts d r) :
    Stmt.read stop ts = (VarDecl.read stop ts).map .decl := by
  cases h with
  | untyped h => rw [Stmt.read] <;> simp [VarDecl.startsWith]
  | typed h _ => cases h <;> rw [Stmt.read] <;> simp [VarDecl.startsWith]

mutual

theorem Stmt.Reads.gives :
    ∀ {ts r : List Token} {st : Stmt}, Stmt.Reads ts st r → (Stmt.read stop ts).Gives st r
  | _, _, _, .cond hb hm => by
    rw [Stmt.read, gives_under, gives_map]
    refine ⟨(_, _), ?_, rfl⟩
    have hb : (Stmt.branch stop _ _).Gives _ _ := hb.gives
    rcases hm.gives with ⟨hn, rfl, rfl, rfl⟩ | ⟨x, hx, hg⟩
    · refine (gives_map.2 ⟨_, hb, rfl⟩).extend_none fun _ => ?_
      rw [hn, Option.map_none]
    · refine (gives_map.2 ⟨_, hb, rfl⟩).extend_some fun _ => ?_
      rw [hx]
      exact ⟨_, rfl, gives_map.2 ⟨_, hg, rfl⟩⟩
  | _, _, _, .loop he hb => by
    rw [Stmt.read, gives_under]
    refine (Expr.readGuard_gives_iff.2 ⟨_, _, _, rfl, he⟩).bind fun _ => ?_
    exact gives_map.2 ⟨_, hb.gives, rfl⟩
  | _, _, _, .each hv he hb => by
    rw [Stmt.read, gives_under]
    refine (Stmt.readEach_gives_iff.2 ⟨_, _, _, _, _, _, _, _, rfl, hv, he, rfl⟩).bind fun _ => ?_
    exact gives_map.2 ⟨_, hb.gives, rfl⟩
  | _, _, _, .ret he => by
    rw [Stmt.read, gives_under, gives_map]
    exact ⟨_, Expr.readReturned_gives_iff.2 (.inr ⟨_, _, rfl, he⟩), rfl⟩
  | _, _, _, .retNone => by
    rw [Stmt.read, gives_under, gives_map]
    exact ⟨_, Expr.readReturned_gives_iff.2 (.inl ⟨rfl, _, rfl⟩), rfl⟩
  | _, _, _, .brk => by rw [Stmt.read]; simp
  | _, _, _, .cont => by rw [Stmt.read]; simp
  | _, _, _, .call h => by
    rw [Stmt.read]
    exact (Expr.ReadsAtom.call h).gives.bind fun _ => by simp
  | _, _, _, .assign hv he => by
    rw [Stmt.read]
    · exact Stmt.readAssign_gives_iff.2 ⟨_, _, _, _, _, _, _, _, rfl, hv, he, rfl⟩
    · rintro l s rfl
      rw [Variable.accessorsOf_lparen] at hv
      cases hv
  | _, _, _, .decl h => by
    rw [Stmt.read_eq_of_decl h]
    exact gives_map.2 ⟨_, VarDecl.gives_iff.2 h, rfl⟩

theorem Branch.Reads.gives : ∀ {l : Loc} {ts r : List Token} {b : Branch}, Branch.Reads l ts b r →
    (Stmt.branch stop l ts).Gives b r
  | _, _, _, _, .mk he hb => by
    rw [Stmt.branch]
    refine (Expr.readGuard_gives_iff.2 ⟨_, _, _, rfl, he⟩).bind fun _ => ?_
    exact gives_map.2 ⟨_, hb.gives, rfl⟩

theorem Branch.ReadsMore.gives : ∀ {ts r : List Token} {bs : List Branch} {o : Option (List Stmt)},
    Branch.ReadsMore ts bs o r →
      (Stmt.alternatives stop ts = none ∧ bs = [] ∧ o = none ∧ r = ts) ∨
      ∃ x, Stmt.alternatives stop ts = some x ∧ x.Gives (bs, o) r
  | _, _, _, _, .none h => by
    refine .inl ⟨?_, rfl, rfl, rfl⟩
    rw [Stmt.alternatives.eq_def]
    split
    · exact absurd rfl (h _ _).1
    · exact absurd rfl (h _ _).2
    · rfl
  | _, _, _, _, .elif hb hm => by
    refine .inr ?_
    rw [Stmt.alternatives]
    refine ⟨_, rfl, gives_under.2 ?_⟩
    have hb : (Stmt.branch stop _ _).Gives _ _ := hb.gives
    rcases hm.gives with ⟨hn, rfl, rfl, rfl⟩ | ⟨x, hx, hg⟩
    · refine (gives_map.2 ⟨_, hb, rfl⟩).extend_none fun _ => ?_
      rw [hn, Option.map_none]
    · refine (gives_map.2 ⟨_, hb, rfl⟩).extend_some fun _ => ?_
      rw [hx]
      exact ⟨_, rfl, gives_map.2 ⟨_, hg, rfl⟩⟩
  | _, _, _, _, .otherwise h => by
    refine .inr ?_
    rw [Stmt.alternatives]
    exact ⟨_, rfl, gives_under.2 (gives_map.2 ⟨_, h.gives, rfl⟩)⟩

theorem Stmt.ReadsBlock.gives :
    ∀ {ts r : List Token} {body : List Stmt}, Stmt.ReadsBlock ts body r →
    (Stmt.block stop ts).Gives body r
  | _, _, _, .mk h => by
    rw [Stmt.block]
    exact (gives_expect (u := ()).2 ⟨_, rfl⟩).bind fun _ => h.gives

theorem Stmt.ReadsBody.gives :
    ∀ {ts r : List Token} {stmts : List Stmt}, Stmt.ReadsBody ts stmts r →
    (Stmt.body stop ts).Gives stmts r
  | _, _, _, .close => by rw [Stmt.body]; simp
  | _, _, _, .cons h hb => Stmt.body_gives_cons h.not_rbrace h.gives hb.gives

end

/-! ### What is read is derived -/

mutual

theorem Stmt.reads_of_gives {ts r : List Token} {st : Stmt} (h : (Stmt.read stop ts).Gives st r) :
    Stmt.Reads ts st r := by
  rw [Stmt.read.eq_def] at h
  split at h
  · exact absurd h not_gives_leave
  · rw [gives_under, gives_map] at h
    obtain ⟨parts, h, rfl⟩ := h
    rw [gives_extend] at h
    obtain ⟨front, s, hf, hs, h⟩ := h
    obtain ⟨b, hb, rfl⟩ := gives_map.1 hf
    have hm : Branch.ReadsMore s parts.1.tail parts.2 r ∧ parts.1 = b :: parts.1.tail := by
      rcases h with ⟨hn, rfl, rfl⟩ | ⟨y, hy, hg⟩
      · exact ⟨Branch.readsMore_of_gives (.inl ⟨Option.map_eq_none_iff.1 hn, rfl, rfl, rfl⟩), rfl⟩
      · obtain ⟨x, hx, rfl⟩ := Option.map_eq_some_iff.1 hy
        obtain ⟨back, hback, rfl⟩ := gives_map.1 hg
        exact ⟨Branch.readsMore_of_gives (.inr ⟨x, hx, hback⟩), rfl⟩
    rw [hm.2]
    exact .cond (Branch.reads_of_gives hb) hm.1
  · simp only [gives_under, gives_bind, gives_map, Expr.readGuard_gives_iff] at h
    obtain ⟨e, s, ⟨l₁, l₂, s', rfl, he⟩, _, body, hb, rfl⟩ := h
    exact .loop he (Stmt.readsBlock_of_gives hb)
  · simp only [gives_under, gives_bind, gives_map] at h
    obtain ⟨⟨v, e⟩, s, hv, _, body, hb, rfl⟩ := h
    obtain ⟨n, l, l₁, l₂, l₃, as, s₁, s₂, rfl, hs, he, rfl⟩ := Stmt.readEach_gives_iff.1 hv
    exact .each hs he (Stmt.readsBlock_of_gives hb)
  · simp only [gives_under, gives_map, Expr.readReturned_gives_iff] at h
    obtain ⟨value, ⟨rfl, l, rfl⟩ | ⟨e, l, rfl, he⟩, rfl⟩ := h
    · exact .retNone
    · exact .ret he
  · simp only [gives_under, gives_map, gives_expect] at h
    obtain ⟨_, ⟨l, rfl⟩, rfl⟩ := h
    exact .brk
  · simp only [gives_under, gives_map, gives_expect] at h
    obtain ⟨_, ⟨l, rfl⟩, rfl⟩ := h
    exact .cont
  · simp only [gives_bind, gives_map, gives_expect, Expr.atom_gives_iff] at h
    obtain ⟨e, s, he, _, _, ⟨l, rfl⟩, rfl⟩ := h
    cases he with
    | call h => exact .call h
  · rw [Stmt.readAssign_gives_iff] at h
    obtain ⟨n, e, l, l₁, l₂, as, s, s', hts, hs, he, rfl⟩ := h
    cases hts
    exact .assign hs he
  · split at h
    · obtain ⟨d, hd, rfl⟩ := gives_map.1 h
      exact .decl (VarDecl.gives_iff.1 hd)
    · exact absurd h not_gives_leave
termination_by 3 * ts.length
decreasing_by all_goals subst_vars; simp only [List.length_cons] at *; omega

theorem Branch.reads_of_gives {l : Loc} {ts r : List Token} {b : Branch}
    (h : (Stmt.branch stop l ts).Gives b r) : Branch.Reads l ts b r := by
  rw [Stmt.branch] at h
  simp only [gives_bind, gives_map, Expr.readGuard_gives_iff] at h
  obtain ⟨e, s, ⟨l₁, l₂, s', rfl, he⟩, _, body, hb, rfl⟩ := h
  exact .mk he (Stmt.readsBlock_of_gives hb)
termination_by 3 * ts.length
decreasing_by all_goals subst_vars; simp only [List.length_cons] at *; omega

theorem Branch.readsMore_of_gives {ts r : List Token} {bs : List Branch} {o : Option (List Stmt)}
    (h : (Stmt.alternatives stop ts = none ∧ bs = [] ∧ o = none ∧ r = ts) ∨
      ∃ x, Stmt.alternatives stop ts = some x ∧ x.Gives (bs, o) r) : Branch.ReadsMore
        ts bs o r := by
  rw [Stmt.alternatives.eq_def] at h
  split at h
  · rcases h with ⟨h, -⟩ | ⟨x, hx, h⟩
    · cases h
    · cases hx
      rw [gives_under, gives_extend] at h
      obtain ⟨front, s, hf, hs, h⟩ := h
      obtain ⟨b, hb, rfl⟩ := gives_map.1 hf
      rcases h with ⟨hn, hbs, rfl⟩ | ⟨y, hy, hg⟩
      · cases hbs
        exact .elif (Branch.reads_of_gives hb)
          (Branch.readsMore_of_gives (.inl ⟨Option.map_eq_none_iff.1 hn, rfl, rfl, rfl⟩))
      · obtain ⟨x, hx, rfl⟩ := Option.map_eq_some_iff.1 hy
        obtain ⟨back, hback, hbs⟩ := gives_map.1 hg
        cases hbs
        exact .elif (Branch.reads_of_gives hb) (Branch.readsMore_of_gives (.inr ⟨x, hx, hback⟩))
  · rcases h with ⟨h, -⟩ | ⟨x, hx, h⟩
    · cases h
    · cases hx
      simp only [gives_under, gives_map] at h
      obtain ⟨body, hb, hbs⟩ := h
      cases hbs
      exact .otherwise (Stmt.readsBlock_of_gives hb)
  · next h₁ h₂ =>
    rcases h with ⟨-, rfl, rfl, rfl⟩ | ⟨x, hx, h⟩
    · exact .none fun l r => ⟨h₁ l r, h₂ l r⟩
    · cases hx
termination_by 3 * ts.length
decreasing_by all_goals subst_vars; simp only [List.length_cons] at *; omega

theorem Stmt.readsBlock_of_gives {ts r : List Token} {body : List Stmt}
    (h : (Stmt.block stop ts).Gives body r) : Stmt.ReadsBlock ts body r := by
  rw [Stmt.block, gives_bind] at h
  obtain ⟨_, s, hs, _, hb⟩ := h
  obtain ⟨l, rfl⟩ := gives_expect.1 hs
  exact .mk (Stmt.readsBody_of_gives hb)
termination_by 3 * ts.length + 2
decreasing_by all_goals subst_vars; simp only [List.length_cons] at *; omega

theorem Stmt.readsBody_of_gives {ts r : List Token} {stmts : List Stmt}
    (h : (Stmt.body stop ts).Gives stmts r) : Stmt.ReadsBody ts stmts r := by
  rw [Stmt.body.eq_def] at h
  split at h
  · exact absurd h not_gives_leave
  · split at h
    · next t _ ht =>
      obtain ⟨rfl, rfl⟩ := gives_take.1 h
      obtain ⟨k, l⟩ := t
      subst ht
      exact .close
    · simp only [gives_bind, gives_map] at h
      obtain ⟨st, s, hst, _, stmts, hb, rfl⟩ := h
      exact .cons (Stmt.reads_of_gives hst) (Stmt.readsBody_of_gives hb)
termination_by 3 * ts.length + 1
decreasing_by all_goals subst_vars; simp only [List.length_cons] at *; omega

end

theorem Stmt.block_gives_iff {ts r : List Token} {body : List Stmt} :
    (Stmt.block stop ts).Gives body r ↔ Stmt.ReadsBlock ts body r :=
  ⟨Stmt.readsBlock_of_gives, Stmt.ReadsBlock.gives⟩

end

end SplFrontend
