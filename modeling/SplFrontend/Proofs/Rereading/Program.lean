import SplFrontend.Proofs.Printing.Program
import SplFrontend.Proofs.Rereading

/-!
# The tokens of a printed program are read back

The same for statements, items and programs, up to the theorem that the text of a printable program
is read back as what is written of the program.
-/

namespace SplFrontend

/-! ## Statements -/

/-- What follows is no further branch of a conditional. -/
def EndsStmt (ks : List Kind) : Prop :=
  ∀ k ∈ ks.head?, k ≠ .keyword .kwElif ∧ k ≠ .keyword .kwElse

theorem EndsStmt.noAlternative {ts : List Token} {ks : List Kind} (h : EndsStmt ks)
    (hts : kindsOf ts = ks) : NoAlternative ts := by
  intro l r
  constructor
  · rintro rfl
    subst hts
    exact (h _ rfl).1 rfl
  · rintro rfl
    subst hts
    exact (h _ rfl).2 rfl

theorem endsStmt_cons {k : Kind} {ks : List Kind} (h₁ : k ≠ .keyword .kwElif)
    (h₂ : k ≠ .keyword .kwElse) : EndsStmt (k :: ks) := by
  intro j hj
  cases hj
  exact ⟨h₁, h₂⟩

theorem VarDecl.reads_kinds {d : VarDecl} (h : d.Printable) {ts : List Token} {ks : List Kind}
    (hts : kindsOf ts = d.kinds ++ ks) :
    ∃ d' r, VarDecl.Reads ts d' r ∧ kindsOf r = ks ∧ d'.erase .places = d.erase .resolution := by
  obtain ⟨name, ty, init, loc⟩ := d
  obtain ⟨-, hty, hinit⟩ := h
  cases ty with
  | none =>
    simp only [VarDecl.kinds, List.cons_append, List.append_assoc, List.nil_append] at hts
    obtain ⟨l, ts, rfl, hts₁⟩ := kindsOf_eq_cons hts
    obtain ⟨l₁, ts, rfl, hts₂⟩ := kindsOf_eq_cons hts₁
    obtain ⟨l₂, ts, rfl, hts₃⟩ := kindsOf_eq_cons hts₂
    obtain ⟨e, r, he, hr, heq⟩ := Expr.reads_kinds hinit hts₃ (endsExpr_mark (by decide))
    obtain ⟨l₃, r, rfl, hr₁⟩ := kindsOf_eq_cons hr
    exact ⟨⟨name, none, e, l⟩, r, .untyped he, hr₁, by simp only [VarDecl.erase, heq]⟩
  | some ty =>
    simp only [VarDecl.kinds, List.cons_append, List.append_assoc, List.nil_append] at hts
    obtain ⟨s, ht, hs⟩ := Ty.reads_kinds (hty ty rfl) hts
    obtain ⟨l₁, s, rfl, hs₁⟩ := kindsOf_eq_cons hs
    obtain ⟨l₂, s, rfl, hs₂⟩ := kindsOf_eq_cons hs₁
    obtain ⟨e, r, he, hr, heq⟩ := Expr.reads_kinds hinit hs₂ (endsExpr_mark (by decide))
    obtain ⟨l₃, r, rfl, hr₁⟩ := kindsOf_eq_cons hr
    cases ts with
    | nil => cases ht
    | cons t ts =>
      exact ⟨⟨name, some ty, e, t.loc⟩, r, .typed ht he, hr₁, by simp only [VarDecl.erase, heq]⟩

namespace Stmt

theorem endsStmt_ty {t : Ty} {ks : List Kind} : EndsStmt (t.kinds ++ ks) := by
  cases t <;> exact endsStmt_cons nofun nofun

/-- No statement begins like a further branch. -/
theorem endsStmt_kinds {s : Stmt} (h : s.Printable) {ks : List Kind} :
    EndsStmt (s.kinds ++ ks) := by
  cases s with
  | decl d =>
    obtain ⟨name, ty, init, loc⟩ := d
    cases ty with
    | none => exact endsStmt_cons (by simp) (by simp)
    | some t =>
      simp only [kinds, VarDecl.kinds, List.append_assoc]
      exact endsStmt_ty
  | assign v e l =>
    simp only [kinds, Variable.kinds]
    exact endsStmt_cons (by simp) (by simp)
  | cond bs o l =>
    cases bs with
    | nil => cases o <;> simp [Printable] at h
    | cons b bs =>
      obtain ⟨e, body, l⟩ := b
      cases o <;> simp only [kinds, kindsBranches] <;> exact endsStmt_cons (by simp) (by simp)
  | loop e body l =>
    simp only [kinds]
    exact endsStmt_cons (by simp) (by simp)
  | each v e body l =>
    simp only [kinds]
    exact endsStmt_cons (by simp) (by simp)
  | ret e l => cases e <;> simp only [kinds] <;> exact endsStmt_cons (by simp) (by simp)
  | brk l =>
    simp only [kinds]
    exact endsStmt_cons (by simp) (by simp)
  | cont l =>
    simp only [kinds]
    exact endsStmt_cons (by simp) (by simp)
  | expr e =>
    rw [Printable] at h
    cases e with
    | call kind name args l =>
      obtain rfl : kind = .function := h.1
      simp only [kinds, Expr.kinds, Expr.callKinds]
      exact endsStmt_cons (by simp) (by simp)
    | bound b args l =>
      have hb : b.kind = .function := h.1
      simp only [kinds, Expr.kinds, Expr.callKinds, hb]
      exact endsStmt_cons (by simp) (by simp)
    | _ => exact absurd h.1 (by simp [Expr.IsFunctionCall])

theorem endsStmt_body {body : List Stmt} (h : PrintableBody body) {ks : List Kind} :
    EndsStmt (kindsBody body ++ .mark .rbrace :: ks) := by
  cases body with
  | nil =>
    simp only [kindsBody, List.nil_append]
    exact endsStmt_cons nofun nofun
  | cons s body =>
    rw [PrintableBody] at h
    simp only [kindsBody, List.append_assoc]
    exact endsStmt_kinds h.1

/-- A call of a function that is a statement of its own is read back. -/
theorem reads_call {e : Expr} {name : String} {args : List Expr} (ha : Expr.PrintableArgs args)
    (hk : e.kinds = Expr.callKinds .function name (Expr.kindsArgs args))
    (he : e.erase .resolution = .call .function name (Expr.eraseArgs .resolution args) .nowhere)
    {ts : List Token} {ks : List Kind} (hts : kindsOf ts = e.kinds ++ .mark .semicolon :: ks) :
    ∃ s r, Stmt.Reads ts s r ∧ kindsOf r = ks ∧
      s.erase .places = (Stmt.expr e).erase .resolution := by
  rw [hk, Expr.kindsArgs_eq_map] at hts
  simp only [Expr.callKinds, List.map_map, Function.comp_def, List.cons_append, List.append_assoc,
    List.nil_append] at hts
  obtain ⟨l, ts, rfl, hts₁⟩ := kindsOf_eq_cons hts
  obtain ⟨l₁, ts, rfl, hts₂⟩ := kindsOf_eq_cons hts₁
  obtain ⟨es, r, hes, hr, heq⟩ := Expr.args_reads_kinds ha hts₂
  obtain ⟨l₂, r, rfl, hr₁⟩ := kindsOf_eq_cons hr
  refine ⟨.expr (.call .function name es l), r, .call hes, hr₁, ?_⟩
  simp only [Stmt.erase, he, Expr.erase, heq]
  rfl

/-- The block is read back, from after its opening brace. -/
def BodyBack (body : List Stmt) : Prop :=
  ∀ ⦃ts : List Token⦄ ⦃ks : List Kind⦄, kindsOf ts = kindsBody body ++ .mark .rbrace :: ks →
    ∃ body' r, ReadsBody ts body' r ∧ kindsOf r = ks ∧
      eraseAll .places body' = eraseAll .resolution body

/-- The block is read back with its braces. -/
theorem BodyBack.block {body : List Stmt} (h : BodyBack body) {ts : List Token} {ks : List Kind}
    (hts : kindsOf ts = .mark .lbrace :: (kindsBody body ++ .mark .rbrace :: ks)) :
    ∃ body' r, ReadsBlock ts body' r ∧ kindsOf r = ks ∧
      eraseAll .places body' = eraseAll .resolution body := by
  obtain ⟨l, ts, rfl, hts₁⟩ := kindsOf_eq_cons hts
  obtain ⟨body', r, hb, hr, heq⟩ := h hts₁
  exact ⟨body', r, .mk hb, hr, heq⟩

end Stmt

/-- The guard of a branch or a loop is read back with its parentheses and the block after it. -/
theorem guard_back {e : Expr} {body : List Stmt} (he : e.Printable) (hb : Stmt.BodyBack body)
    {ts : List Token} {ks : List Kind} (hts : kindsOf ts = .mark .lparen ::
      (e.kinds ++ .mark .rparen :: .mark .lbrace :: (Stmt.kindsBody body ++ .mark .rbrace :: ks))) :
    ∃ e' body' l₁ l₂ s s' r, ts = ⟨.mark .lparen, l₁⟩ :: s ∧
      Expr.Reads s e' (⟨.mark .rparen, l₂⟩ :: s') ∧ Stmt.ReadsBlock s' body' r ∧ kindsOf r = ks ∧
      e'.erase .places = e.erase .resolution ∧
      Stmt.eraseAll .places body' = Stmt.eraseAll .resolution body := by
  obtain ⟨l₁, s, rfl, hs⟩ := kindsOf_eq_cons hts
  obtain ⟨e', r, hre, hr, heq⟩ := Expr.reads_kinds he hs (endsExpr_mark (by decide))
  obtain ⟨l₂, s', rfl, hs'⟩ := kindsOf_eq_cons hr
  obtain ⟨body', r, hrb, hr, hbeq⟩ := hb.block hs'
  exact ⟨e', body', l₁, l₂, s, s', r, rfl, hre, hrb, hr, heq, hbeq⟩

/-- The tokens of an `else` block, if there is one. -/
def kindsElse : Option (List Stmt) → List Kind
  | some body => .keyword .kwElse :: .mark .lbrace :: (Stmt.kindsBody body ++ [.mark .rbrace])
  | none => []

theorem Stmt.kinds_cond (bs : List Branch) (o : Option (List Stmt)) (l : Loc) :
    (Stmt.cond bs o l).kinds = kindsBranches .kwIf bs ++ kindsElse o := by
  cases o with
  | none => rw [Stmt.kinds, kindsElse, List.append_nil]
  | some body => rw [Stmt.kinds, kindsElse]

theorem Stmt.printable_cond {bs : List Branch} {o : Option (List Stmt)} {l : Loc} :
    (Stmt.cond bs o l).Printable ↔
      bs ≠ [] ∧ PrintableBranches bs ∧ ∀ body ∈ o, PrintableBody body := by
  cases o <;> simp [Stmt.Printable]

/-- An `else` block, or none, is read back. -/
theorem else_back {o : Option (List Stmt)} (h : ∀ body ∈ o, Stmt.BodyBack body) {ts : List Token}
    {ks : List Kind} (hts : kindsOf ts = kindsElse o ++ ks) (hks : EndsStmt ks) :
    ∃ o' r, Branch.ReadsMore ts [] o' r ∧ kindsOf r = ks ∧
      o'.map (Stmt.eraseAll .places) = o.map (Stmt.eraseAll .resolution) := by
  cases o with
  | none => exact ⟨none, ts, .none (hks.noAlternative hts), hts, rfl⟩
  | some body =>
    simp only [kindsElse, List.cons_append, List.append_assoc, List.nil_append] at hts
    obtain ⟨l, ts, rfl, hts₁⟩ := kindsOf_eq_cons hts
    obtain ⟨body', r, hb, hr, heq⟩ := (h body rfl).block hts₁
    exact ⟨some body', r, .otherwise hb, hr, by rw [Option.map_some, heq, Option.map_some]⟩

namespace Stmt

mutual

/-- Every printable statement is read back. -/
theorem back : ∀ s : Stmt, s.Printable → ∀ ⦃ts : List Token⦄ ⦃ks : List Kind⦄,
    kindsOf ts = s.kinds ++ ks → EndsStmt ks →
    ∃ s' r, Stmt.Reads ts s' r ∧ kindsOf r = ks ∧ s'.erase .places = s.erase .resolution
  | .decl d, h => by
    intro ts ks hts _
    rw [Printable] at h
    rw [kinds] at hts
    obtain ⟨d', r, hd, hr, heq⟩ := VarDecl.reads_kinds h hts
    exact ⟨.decl d', r, .decl hd, hr, by simp only [Stmt.erase, heq]⟩
  | .assign v e _, h => by
    intro ts ks hts _
    rw [Printable] at h
    simp only [kinds, Variable.kinds, List.cons_append, List.append_assoc, List.nil_append] at hts
    obtain ⟨l, ts, rfl, hts₁⟩ := kindsOf_eq_cons hts
    obtain ⟨s, hs, hks⟩ := accessorsOf_kinds (by simp) hts₁
    obtain ⟨l₁, s, rfl, hs₁⟩ := kindsOf_eq_cons hks
    obtain ⟨e', r, he, hr, heq⟩ := Expr.reads_kinds h.2 hs₁ (endsExpr_mark (by decide))
    obtain ⟨l₂, r, rfl, hr₁⟩ := kindsOf_eq_cons hr
    refine ⟨.assign ⟨.unresolved v.ref.name, v.accessors, none, l⟩ e' l, r, .assign hs he, hr₁, ?_⟩
    simp only [Stmt.erase, heq]
    rfl
  | .cond bs o _, h => by
    intro ts ks hts hks
    obtain ⟨hne, hbs, ho⟩ := printable_cond.1 h
    rw [kinds_cond] at hts
    have hbodies : ∀ body ∈ o, BodyBack body := by
      cases o with
      | none => exact fun _ hb => by cases hb
      | some body =>
        have hb := bodyBack body (ho body rfl)
        intro b hm
        cases hm
        exact hb
    cases bs with
    | nil => exact absurd rfl hne
    | cons b bs =>
      obtain ⟨e, body, l⟩ := b
      rw [PrintableBranches] at hbs
      have hbody := bodyBack body hbs.2.1
      have hmore := branchesBack bs hbs.2.2
      simp only [kindsBranches, List.cons_append, List.append_assoc] at hts
      obtain ⟨l, ts, rfl, hts₁⟩ := kindsOf_eq_cons hts
      obtain ⟨e', body', l₁, l₂, s, s', r, rfl, hre, hrb, hr, heq, hbeq⟩ :=
        guard_back hbs.1 hbody hts₁
      obtain ⟨bs', o', r, hm, hr, hbseq, hoeq⟩ := hmore hbodies hr hks
      refine ⟨.cond (.mk e' body' l :: bs') o' l, r, .cond (.mk hre hrb) hm, hr, ?_⟩
      simp only [erase_cond, Branch.eraseAll, heq, hbeq, hbseq, hoeq]
  | .loop e body _, h => by
    intro ts ks hts _
    rw [Printable] at h
    have hbody := bodyBack body h.2
    simp only [kinds, List.cons_append, List.append_assoc, List.nil_append] at hts
    obtain ⟨l, ts, rfl, hts₁⟩ := kindsOf_eq_cons hts
    obtain ⟨e', body', l₁, l₂, s, s', r, rfl, hre, hrb, hr, heq, hbeq⟩ := guard_back h.1 hbody hts₁
    exact ⟨.loop e' body' l, r, .loop hre hrb, hr, by simp only [Stmt.erase, heq, hbeq]⟩
  | .each v e body _, h => by
    intro ts ks hts _
    rw [Printable] at h
    have hbody := bodyBack body h.2.2
    simp only [kinds, Variable.kinds, List.cons_append, List.append_assoc, List.nil_append] at hts
    obtain ⟨l, ts, rfl, hts₁⟩ := kindsOf_eq_cons hts
    obtain ⟨l₁, ts, rfl, hts₂⟩ := kindsOf_eq_cons hts₁
    obtain ⟨l₂, ts, rfl, hts₃⟩ := kindsOf_eq_cons hts₂
    obtain ⟨s, hs, hks⟩ := accessorsOf_kinds (by simp) hts₃
    obtain ⟨l₃, s, rfl, hs₁⟩ := kindsOf_eq_cons hks
    obtain ⟨e', r, he, hr, heq⟩ := Expr.reads_kinds h.2.1 hs₁ (endsExpr_mark (by decide))
    obtain ⟨l₄, r, rfl, hr₁⟩ := kindsOf_eq_cons hr
    obtain ⟨body', r, hb, hr₂, hbeq⟩ := hbody.block hr₁
    refine ⟨.each ⟨.unresolved v.ref.name, v.accessors, none, l₂⟩ e' body' l, r,
      .each hs he hb, hr₂, ?_⟩
    simp only [Stmt.erase, heq, hbeq]
    rfl
  | .ret (some e) _, h => by
    intro ts ks hts _
    rw [Printable] at h
    simp only [kinds, List.cons_append, List.append_assoc, List.nil_append] at hts
    obtain ⟨l, ts, rfl, hts₁⟩ := kindsOf_eq_cons hts
    obtain ⟨e', r, he, hr, heq⟩ := Expr.reads_kinds (h e rfl) hts₁ (endsExpr_mark (by decide))
    obtain ⟨l₁, r, rfl, hr₁⟩ := kindsOf_eq_cons hr
    exact ⟨.ret (some e') l, r, .ret he, hr₁, by simp only [Stmt.erase, Option.map_some, heq]⟩
  | .ret none _, _ => by
    intro ts ks hts _
    rw [kinds] at hts
    obtain ⟨l, ts, rfl, hts₁⟩ := kindsOf_eq_cons hts
    obtain ⟨l₁, r, rfl, hr⟩ := kindsOf_eq_cons hts₁
    exact ⟨.ret none l, r, .retNone, hr, by simp only [Stmt.erase, Option.map_none]⟩
  | .brk _, _ => by
    intro ts ks hts _
    rw [kinds] at hts
    obtain ⟨l, ts, rfl, hts₁⟩ := kindsOf_eq_cons hts
    obtain ⟨l₁, r, rfl, hr⟩ := kindsOf_eq_cons hts₁
    exact ⟨.brk l, r, .brk, hr, by simp only [Stmt.erase]⟩
  | .cont _, _ => by
    intro ts ks hts _
    rw [kinds] at hts
    obtain ⟨l, ts, rfl, hts₁⟩ := kindsOf_eq_cons hts
    obtain ⟨l₁, r, rfl, hr⟩ := kindsOf_eq_cons hts₁
    exact ⟨.cont l, r, .cont, hr, by simp only [Stmt.erase]⟩
  | .expr e, h => by
    intro ts ks hts _
    rw [Printable] at h
    simp only [kinds, List.append_assoc, List.cons_append, List.nil_append] at hts
    cases e with
    | call kind name args l =>
      obtain rfl : kind = .function := h.1
      have ha := h.2
      rw [Expr.Printable] at ha
      exact reads_call ha.2 (by rw [Expr.kinds]) (by rw [Expr.erase]; rfl) hts
    | bound b args l =>
      have hb : b.kind = .function := h.1
      have ha := h.2
      rw [Expr.Printable] at ha
      have hk :
          (Expr.bound b args l).kinds = Expr.callKinds .function b.name (Expr.kindsArgs args) := by
        rw [Expr.kinds, hb]
      refine reads_call ha.2 hk ?_ hts
      simp only [Expr.erase, hb]
      rfl
    | _ => exact absurd h.1 (by simp [Expr.IsFunctionCall])

theorem branchesBack : ∀ bs : List Branch, PrintableBranches bs →
    ∀ ⦃o : Option (List Stmt)⦄, (∀ body ∈ o, BodyBack body) → ∀ ⦃ts : List Token⦄ ⦃ks : List Kind⦄,
    kindsOf ts = kindsBranches .kwElif bs ++ (kindsElse o ++ ks) → EndsStmt ks →
    ∃ bs' o' r, Branch.ReadsMore ts bs' o' r ∧ kindsOf r = ks ∧
      Branch.eraseAll .places bs' = Branch.eraseAll .resolution bs ∧
      o'.map (eraseAll .places) = o.map (eraseAll .resolution)
  | [], _ => by
    intro o ho ts ks hts hks
    rw [kindsBranches, List.nil_append] at hts
    obtain ⟨o', r, hm, hr, heq⟩ := else_back ho hts hks
    exact ⟨[], o', r, hm, hr, by simp only [Branch.eraseAll], heq⟩
  | .mk e body _ :: bs, h => by
    intro o ho ts ks hts hks
    rw [PrintableBranches] at h
    have hbody := bodyBack body h.2.1
    have hmore := branchesBack bs h.2.2
    simp only [kindsBranches, List.cons_append, List.append_assoc] at hts
    obtain ⟨l, ts, rfl, hts₁⟩ := kindsOf_eq_cons hts
    obtain ⟨e', body', l₁, l₂, s, s', r, rfl, hre, hrb, hr, heq, hbeq⟩ := guard_back h.1 hbody hts₁
    obtain ⟨bs', o', r, hm, hr, hbseq, hoeq⟩ := hmore ho hr hks
    refine ⟨.mk e' body' l :: bs', o', r, .elif (.mk hre hrb) hm, hr, ?_, hoeq⟩
    simp only [Branch.eraseAll, heq, hbeq, hbseq]

theorem bodyBack : ∀ body : List Stmt, PrintableBody body → BodyBack body
  | [], _ => by
    intro ts ks hts
    rw [kindsBody, List.nil_append] at hts
    obtain ⟨l, r, rfl, hr⟩ := kindsOf_eq_cons hts
    exact ⟨[], r, .close, hr, by simp only [eraseAll]⟩
  | s :: body, h => by
    intro ts ks hts
    rw [PrintableBody] at h
    have hs := back s h.1
    have hbody := bodyBack body h.2
    simp only [kindsBody, List.append_assoc] at hts
    obtain ⟨s', r, hrs, hr, heq⟩ := hs hts (endsStmt_body h.2)
    obtain ⟨body', r, hrb, hr, hbeq⟩ := hbody hr
    exact ⟨s' :: body', r, .cons hrs hrb, hr, by simp only [eraseAll, heq, hbeq]⟩

end

end Stmt

/-! ## Import lines -/

theorem ImportName.reads_kinds (n : ImportName) {ts : List Token} {ks : List Kind}
    (hts : kindsOf ts = n.kinds ++ ks) (hks : ∀ k ∈ ks.head?, k ≠ .keyword .kwAs) :
    ∃ n' r, ImportName.Reads ts n' r ∧ kindsOf r = ks ∧ n'.unlocated = n.unlocated := by
  obtain ⟨name, asName, loc⟩ := n
  cases asName with
  | none =>
    obtain ⟨l, r, rfl, hr⟩ := kindsOf_eq_cons hts
    refine ⟨⟨name, none, l⟩, r, .plain fun l' s hs => ?_, hr, rfl⟩
    subst hs hr
    exact hks _ rfl rfl
  | some a =>
    obtain ⟨l, r, rfl, hr⟩ := kindsOf_eq_cons hts
    obtain ⟨l₁, r, rfl, hr₁⟩ := kindsOf_eq_cons hr
    obtain ⟨l₂, r, rfl, hr₂⟩ := kindsOf_eq_cons hr₁
    exact ⟨⟨name, some a, l⟩, r, .renamed, hr₂, rfl⟩

theorem ImportName.list_reads_kinds : ∀ {ns : List ImportName} {ts : List Token} {ks : List Kind},
    ns ≠ [] →
    kindsOf ts = [Kind.mark .comma].intercalate (ns.map ImportName.kinds) ++
      .mark .semicolon :: ks →
    ∃ ns' r, ImportName.ReadsList ts ns' r ∧ kindsOf r = ks ∧
      ns'.map ImportName.unlocated = ns.map ImportName.unlocated
  | [], _, _, h, _ => absurd rfl h
  | [n], ts, ks, _, hts => by
    simp only [List.map_cons, List.map_nil, List.intercalate_singleton] at hts
    obtain ⟨n', r, hn, hr, heq⟩ := n.reads_kinds hts (by simp)
    obtain ⟨l, r, rfl, hr₁⟩ := kindsOf_eq_cons hr
    exact ⟨[n'], r, .last hn, hr₁, by rw [List.map_cons, heq]; rfl⟩
  | n :: m :: ns, ts, ks, _, hts => by
    simp only [List.map_cons, List.intercalate_cons_cons, List.append_assoc, List.cons_append,
      List.nil_append] at hts
    obtain ⟨n', r, hn, hr, heq⟩ := n.reads_kinds hts (by simp)
    obtain ⟨l, r, rfl, hr₁⟩ := kindsOf_eq_cons hr
    obtain ⟨ns', r, hns, hr₂, heqs⟩ := ImportName.list_reads_kinds (List.cons_ne_nil m ns) hr₁
    exact ⟨n' :: ns', r, .more hn hns, hr₂, by rw [List.map_cons, heq, heqs]; rfl⟩

theorem Import.reads_kinds {i : Import} (h : i.Printable) {ts : List Token} {ks : List Kind}
    (hts : kindsOf ts = i.kinds ++ ks) :
    ∃ i' r, Program.ReadsOne ts (Program.addImport i') r ∧ kindsOf r = ks ∧
      i'.unlocated = i.unlocated := by
  obtain ⟨m, names, loc⟩ := i
  cases names with
  | all =>
    obtain ⟨l, ts, rfl, hts₁⟩ := kindsOf_eq_cons hts
    obtain ⟨l₁, ts, rfl, hts₂⟩ := kindsOf_eq_cons hts₁
    obtain ⟨l₂, ts, rfl, hts₃⟩ := kindsOf_eq_cons hts₂
    obtain ⟨l₃, r, rfl, hr⟩ := kindsOf_eq_cons hts₃
    exact ⟨⟨m, .all, l⟩, r, .imports .all, hr, rfl⟩
  | names ns =>
    simp only [Import.kinds, List.cons_append, List.append_assoc, List.nil_append] at hts
    obtain ⟨l, ts, rfl, hts₁⟩ := kindsOf_eq_cons hts
    obtain ⟨l₁, ts, rfl, hts₂⟩ := kindsOf_eq_cons hts₁
    obtain ⟨l₂, ts, rfl, hts₃⟩ := kindsOf_eq_cons hts₂
    obtain ⟨ns', r, hns, hr, heq⟩ := ImportName.list_reads_kinds h.2.1 hts₃
    exact ⟨⟨m, .names ns', l⟩, r, .imports (.names hns), hr, by simp only [Import.unlocated, heq]⟩

/-! ## Items -/

theorem Param.list_reads_kinds : ∀ {ps : List Param} {ts : List Token} {ks : List Kind}, ps ≠ [] →
    kindsOf ts = [Kind.mark .comma].intercalate (ps.map fun p => [.ident p.name]) ++
      .mark .rparen :: ks →
    ∃ ps' r, Param.ReadsList ts ps' r ∧ kindsOf r = ks ∧ ps'.map Param.name = ps.map Param.name
  | [], _, _, h, _ => absurd rfl h
  | [p], ts, ks, _, hts => by
    obtain ⟨l, ts, rfl, hts₁⟩ := kindsOf_eq_cons hts
    obtain ⟨l', r, rfl, hr⟩ := kindsOf_eq_cons hts₁
    exact ⟨[⟨p.name, l⟩], r, .last, hr, rfl⟩
  | p :: q :: ps, ts, ks, _, hts => by
    simp only [List.map_cons, List.intercalate_cons_cons, List.cons_append, List.nil_append] at hts
    obtain ⟨l, ts, rfl, hts₁⟩ := kindsOf_eq_cons hts
    obtain ⟨l', ts, rfl, hts₂⟩ := kindsOf_eq_cons hts₁
    obtain ⟨ps', r, hps, hr, heq⟩ := Param.list_reads_kinds (List.cons_ne_nil q ps) hts₂
    exact ⟨⟨p.name, l⟩ :: ps', r, .more hps, hr, by rw [List.map_cons, heq]; rfl⟩

theorem Param.reads_kinds {ps : List Param} {ts : List Token} {ks : List Kind}
    (hts : kindsOf ts = [Kind.mark .comma].intercalate (ps.map fun p => [.ident p.name]) ++
      .mark .rparen :: ks) :
    ∃ ps' r, Param.Reads ts ps' r ∧ kindsOf r = ks ∧ ps'.map Param.name = ps.map Param.name := by
  cases ps with
  | nil =>
    obtain ⟨l, r, rfl, hr⟩ := kindsOf_eq_cons hts
    exact ⟨[], r, .none, hr, rfl⟩
  | cons p ps =>
    obtain ⟨ps', r, hps, hr, heq⟩ := Param.list_reads_kinds (List.cons_ne_nil p ps) hts
    exact ⟨ps', r, .some hps, hr, heq⟩

theorem Head.reads_kinds (f : FnDef) {ts : List Token} {ks : List Kind}
    (hts : kindsOf ts = f.kindsName ++ ks) :
    ∃ r, Head.Reads ts f.head f.name r ∧ kindsOf r = ks := by
  obtain ⟨head, name, params, sig, body, loc⟩ := f
  cases head with
  | function =>
    obtain ⟨l, r, rfl, hr⟩ := kindsOf_eq_cons hts
    exact ⟨r, .function, hr⟩
  | prefixOp =>
    obtain ⟨l, ts, rfl, hts₁⟩ := kindsOf_eq_cons hts
    obtain ⟨l', r, rfl, hr⟩ := kindsOf_eq_cons hts₁
    exact ⟨r, .prefixOp, hr⟩
  | infixOp x =>
    obtain ⟨l, ts, rfl, hts₁⟩ := kindsOf_eq_cons hts
    obtain ⟨l₁, ts, rfl, hts₂⟩ := kindsOf_eq_cons hts₁
    obtain ⟨l₂, r, rfl, hr⟩ := kindsOf_eq_cons hts₂
    obtain ⟨assoc, p⟩ := x
    have hp : p.toNat.toUInt8 = p := UInt8.ofNat_toNat
    have hread : Head.Reads
        (⟨.keyword (Head.word assoc), l⟩ :: ⟨.int p.toNat, l₁⟩ :: ⟨.op name, l₂⟩ :: r)
        (.infixOp ⟨assoc, p.toNat.toUInt8⟩) name r := .infixOp assoc p.toNat_lt
    rw [hp] at hread
    exact ⟨r, hread, hr⟩

theorem FnDef.body_reads_kinds {f : FnDef} (h : f.Printable) {ts : List Token} {ks : List Kind}
    (hts : kindsOf ts = f.kindsSig ++ .mark .lbrace ::
      (Stmt.kindsBody f.body ++ .mark .rbrace :: ks)) :
    ∃ body' r, FnDef.ReadsBody ts f.sig body' r ∧ kindsOf r = ks ∧
      Stmt.eraseAll .places body' = Stmt.eraseAll .resolution f.body := by
  obtain ⟨head, name, params, sig, body, loc⟩ := f
  cases sig with
  | none =>
    obtain ⟨body', r, hb, hr, heq⟩ := (Stmt.bodyBack body h.body).block hts
    exact ⟨body', r, .untyped hb, hr, heq⟩
  | some s =>
    simp only [FnDef.kindsSig, List.cons_append] at hts
    obtain ⟨l, ts, rfl, hts₁⟩ := kindsOf_eq_cons hts
    obtain ⟨r, hs, hr⟩ := Signature.reads_kinds (h.sig s rfl) hts₁
    obtain ⟨body', r, hb, hr, heq⟩ := (Stmt.bodyBack body h.body).block hr
    exact ⟨body', r, .typed hs hb, hr, heq⟩

theorem Item.reads_kinds {i : Item} (h : i.Printable) {ts : List Token} {ks : List Kind}
    (hts : kindsOf ts = i.kinds ++ ks) :
    ∃ i' r, Program.ReadsOne ts (Program.addItem i') r ∧ kindsOf r = ks ∧
      i'.erase .places = i.erase .resolution := by
  cases i with
  | synonym s =>
    simp only [Item.kinds, List.cons_append, List.append_assoc, List.nil_append] at hts
    obtain ⟨l, ts, rfl, hts₁⟩ := kindsOf_eq_cons hts
    obtain ⟨l₁, ts, rfl, hts₂⟩ := kindsOf_eq_cons hts₁
    obtain ⟨l₂, ts, rfl, hts₃⟩ := kindsOf_eq_cons hts₂
    obtain ⟨r, ht, hr⟩ := Ty.reads_kinds h.2 hts₃
    obtain ⟨l₃, r, rfl, hr₁⟩ := kindsOf_eq_cons hr
    exact ⟨.synonym ⟨s.name, s.ty, l⟩, r, .synonym ht, hr₁, rfl⟩
  | global d =>
    obtain ⟨d', r, hd, hr, heq⟩ := VarDecl.reads_kinds h hts
    exact ⟨.global d', r, .global hd, hr, by simp only [Item.erase, heq]⟩
  | fn f =>
    simp only [Item.kinds, FnDef.kinds, List.append_assoc, List.cons_append, List.nil_append] at hts
    obtain ⟨s, hh, hs⟩ := Head.reads_kinds f hts
    obtain ⟨l, s, rfl, hs₁⟩ := kindsOf_eq_cons hs
    obtain ⟨ps, s', hps, hs', hpeq⟩ := Param.reads_kinds hs₁
    obtain ⟨body, r, hb, hr, hbeq⟩ := FnDef.body_reads_kinds h hs'
    cases ts with
    | nil => cases hh
    | cons t ts =>
      refine ⟨.fn ⟨f.head, f.name, ps, f.sig, body, t.loc⟩, r, .fn hh hps hb, hr, ?_⟩
      have hpeq' : ps.map (fun p => (⟨p.name, .nowhere⟩ : Param)) =
          f.params.map fun p => ⟨p.name, .nowhere⟩ := by
        have := congrArg (List.map fun n => (⟨n, .nowhere⟩ : Param)) hpeq
        simpa only [List.map_map, Function.comp_def] using this
      simp only [Item.erase, FnDef.erase, hbeq, hpeq']

/-! ## Programs -/

theorem Program.items_reads_kinds : ∀ {is : List Item} {ts : List Token}, (∀ i ∈ is, i.Printable) →
    kindsOf ts = is.flatMap Item.kinds →
    ∃ is', Program.Reads ts ⟨[], is'⟩ ∧ is'.map (Item.erase .places) =
      is.map (Item.erase .resolution)
  | [], ts, _, hts => by
    obtain rfl : ts = [] := by simpa using hts
    exact ⟨[], .nil, rfl⟩
  | i :: is, ts, h, hts => by
    rw [List.flatMap_cons] at hts
    obtain ⟨i', r, hi, hr, heq⟩ := Item.reads_kinds (h i List.mem_cons_self) hts
    obtain ⟨is', his, heqs⟩ :=
      Program.items_reads_kinds (fun j hj => h j (List.mem_cons_of_mem _ hj)) hr
    exact ⟨i' :: is', .cons hi his, by rw [List.map_cons, heq, heqs, List.map_cons]⟩

theorem Program.reads_kinds {p : Program} (h : p.Printable) {ts : List Token}
    (hts : kindsOf ts = p.kinds) :
    ∃ p', Program.Reads ts p' ∧ p'.erase .places = p.erase .resolution := by
  obtain ⟨imports, items⟩ := p
  obtain ⟨himports, hitems⟩ := h
  induction imports generalizing ts with
  | nil =>
    obtain ⟨items', hr, heq⟩ := Program.items_reads_kinds hitems hts
    exact ⟨⟨[], items'⟩, hr, by simp only [Program.erase, heq, List.map_nil]⟩
  | cons i imports ih =>
    simp only [Program.kinds, List.flatMap_cons, List.append_assoc] at hts
    obtain ⟨i', r, hi, hr, heq⟩ := Import.reads_kinds (himports i List.mem_cons_self) hts
    obtain ⟨p', hp, heqs⟩ := ih hr (fun j hj => himports j (List.mem_cons_of_mem _ hj)) hitems
    refine ⟨Program.addImport i' p', .cons hi hp, ?_⟩
    obtain ⟨himps, hits⟩ := Program.mk.inj heqs
    simp only [Program.erase, Program.addImport, List.map_cons, heq, himps, hits]

/-- The text of a printable program is read back as what is written of the program. -/
theorem Program.ofText_render_of_printable {p : Program} (h : p.Printable) :
    ∃ p', Program.ofText p.render = .ok p' ∧ p'.erase .places = p.erase .resolution := by
  obtain ⟨s, hs, hk⟩ := (Program.lexes_render h).lex_eq_ok
  obtain ⟨p', hp, heq⟩ := Program.reads_kinds h hk
  exact ⟨p', Program.ofText_eq_ok_iff.2 ⟨s, hs, hp⟩, heq⟩

end SplFrontend
