import SplFrontend.Proofs.Printing

/-!
# The tokens of a printed tree are read back

If the kinds of some tokens are those of a printed tree, followed by something that cannot extend
it, then the tokens begin with a phrase for a tree that is, up to places, what is written of the
printed one.
-/

namespace SplFrontend

/-- The kinds of tokens, in order. -/
abbrev kindsOf (ts : List Token) : List Kind := ts.map Token.kind

theorem kindsOf_eq_cons {ts : List Token} {k : Kind} {ks : List Kind} (h : kindsOf ts = k :: ks) :
    ∃ l r, ts = ⟨k, l⟩ :: r ∧ kindsOf r = ks := by
  obtain ⟨⟨k', l⟩, r, rfl, rfl, hr⟩ := List.map_eq_cons_iff.1 h
  exact ⟨l, r, rfl, hr⟩

/-! ## Types -/

theorem Ty.ofName_of_ofName? {n : String} (h : Basic.ofName? n = none) : Ty.ofName n = .syn n := by
  rw [Ty.ofName, h]

theorem Ty.reads_kinds {t : Ty} (h : t.Printable) : ∀ {ts : List Token} {ks : List Kind},
    kindsOf ts = t.kinds ++ ks → ∃ r, Ty.Reads ts t r ∧ kindsOf r = ks := by
  induction t with
  | basic b =>
    intro ts ks hts
    obtain ⟨l, r, rfl, hr'⟩ := kindsOf_eq_cons hts
    have hb : Ty.ofName b.name = .basic b := by rw [Ty.ofName, Basic.ofName?_name]
    exact ⟨r, hb ▸ .name, hr'⟩
  | pair a b iha ihb =>
    intro ts ks hts
    simp only [Ty.kinds, List.cons_append, List.append_assoc, List.nil_append] at hts
    obtain ⟨l₁, ts, rfl, hts'⟩ := kindsOf_eq_cons hts
    obtain ⟨r, ha, hr⟩ := iha h.1 hts'
    obtain ⟨l₂, r, rfl, hr'⟩ := kindsOf_eq_cons hr
    obtain ⟨r, hb, hr⟩ := ihb h.2 hr'
    obtain ⟨l₃, r, rfl, hr'⟩ := kindsOf_eq_cons hr
    exact ⟨r, .pair ha hb, hr'⟩
  | list e ih =>
    intro ts ks hts
    simp only [Ty.kinds, List.cons_append, List.append_assoc, List.nil_append] at hts
    obtain ⟨l₁, ts, rfl, hts'⟩ := kindsOf_eq_cons hts
    obtain ⟨r, he, hr⟩ := ih h hts'
    obtain ⟨l₂, r, rfl, hr'⟩ := kindsOf_eq_cons hr
    exact ⟨r, .list he, hr'⟩
  | syn n =>
    intro ts ks hts
    obtain ⟨l, r, rfl, hr'⟩ := kindsOf_eq_cons hts
    exact ⟨r, Ty.ofName_of_ofName? h.2 ▸ .name, hr'⟩

theorem Signature.reads_kinds {s : Signature} (h : s.Printable) {ts : List Token} {ks : List Kind}
    (hts : kindsOf ts = s.kinds ++ ks) : ∃ r, Signature.Reads ts s r ∧ kindsOf r = ks := by
  obtain ⟨params, result⟩ := s
  induction params generalizing ts with
  | nil =>
    obtain ⟨l, ts, rfl, hts'⟩ := kindsOf_eq_cons hts
    obtain ⟨r, ht, hr⟩ := Ty.reads_kinds h.2 hts'
    exact ⟨r, .result ht, hr⟩
  | cons t params ih =>
    have hts' : kindsOf ts = t.kinds ++ (Signature.kinds ⟨params, result⟩ ++ ks) := by
      rw [hts]
      simp only [Signature.kinds, List.flatMap_cons, List.append_assoc, List.cons_append]
    obtain ⟨s, ht, hs⟩ := Ty.reads_kinds (h.1 t List.mem_cons_self) hts'
    obtain ⟨r, hr, hk⟩ := ih ⟨fun u hu => h.1 u (List.mem_cons_of_mem _ hu), h.2⟩ hs
    exact ⟨r, .param ht hr, hk⟩

/-! ## Expressions -/

/-- What follows can extend no operand. -/
def EndsOperand (ks : List Kind) : Prop :=
  ∀ k ∈ ks.head?, k ≠ .mark .lparen ∧ ∀ a, k ≠ .accessor a

/-- What follows can extend no expression. -/
def EndsExpr (ks : List Kind) : Prop := EndsOperand ks ∧ ∀ k ∈ ks.head?, ∀ n, k ≠ .op n

theorem endsOperand_op {n : String} {ks : List Kind} : EndsOperand (.op n :: ks) := by
  intro k hk
  cases hk
  exact ⟨nofun, nofun⟩

theorem endsExpr_mark {m : Mark} {ks : List Kind} (hm : m ≠ .lparen) :
    EndsExpr (.mark m :: ks) := by
  refine ⟨fun k hk => ?_, fun k hk => ?_⟩
  · cases hk
    exact ⟨fun h => hm (Kind.mark.inj h), nofun⟩
  · cases hk
    exact nofun

theorem EndsExpr.noOperator {ts : List Token} {ks : List Kind} (h : EndsExpr ks)
    (hts : kindsOf ts = ks) : NoOperator ts := by
  rintro n l r rfl
  subst hts
  exact h.2 _ rfl n rfl

theorem EndsOperand.noParen {ts : List Token} {ks : List Kind} (h : EndsOperand ks)
    (hts : kindsOf ts = ks) : NoParen ts := by
  rintro l r rfl
  subst hts
  exact (h _ rfl).1 rfl

/-- The accessors are read up to what follows them. -/
theorem accessorsOf_kinds {ks : List Kind} (hks : ∀ k ∈ ks.head?, ∀ a, k ≠ .accessor a) :
    ∀ {as : List Accessor} {ts : List Token}, kindsOf ts = as.map .accessor ++ ks →
      ∃ r, Variable.accessorsOf ts = (as, r) ∧ kindsOf r = ks
  | [], ts, hts => by
    refine ⟨ts, ?_, hts⟩
    rw [Variable.accessorsOf.eq_def]
    split
    · subst hts
      exact absurd rfl (hks _ rfl _)
    · rfl
  | a :: as, ts, hts => by
    obtain ⟨l, ts, rfl, hts'⟩ := kindsOf_eq_cons hts
    obtain ⟨r, hr, hk⟩ := accessorsOf_kinds hks hts'
    exact ⟨r, by rw [Variable.accessorsOf, hr], hk⟩

namespace Expr

/-- Tokens of these kinds are read back as an operand. -/
def OperandBack (e : Expr) (ks : List Kind) : Prop :=
  ∀ ⦃ts : List Token⦄ ⦃js : List Kind⦄, kindsOf ts = ks ++ js → EndsOperand js →
    ∃ e' r, ReadsOperand ts e' r ∧ kindsOf r = js ∧ e'.erase .places = e.erase .resolution

/-- Tokens of these kinds are read back as an expression. -/
def ExprBack (e : Expr) (ks : List Kind) : Prop :=
  ∀ ⦃ts : List Token⦄ ⦃js : List Kind⦄, kindsOf ts = ks ++ js → EndsExpr js →
    ∃ e' r, Reads ts e' r ∧ kindsOf r = js ∧ e'.erase .places = e.erase .resolution

/-- The printed expression is read back, by itself and as an operand. -/
def Back (e : Expr) : Prop := OperandBack e (wrapKinds e e.kinds) ∧ ExprBack e e.kinds

theorem OperandBack.back {e : Expr} (h : OperandBack e e.kinds) (he : e.isFlat = false) :
    Back e := by
  have hw : wrapKinds e e.kinds = e.kinds := by simp [wrapKinds, he]
  refine ⟨hw.symm ▸ h, fun ts js hts hjs => ?_⟩
  obtain ⟨e', r, hr, hk, heq⟩ := h hts hjs.1
  exact ⟨e', r, .single hr (hjs.noOperator hk), hk, heq⟩

theorem ExprBack.back {e : Expr} (h : ExprBack e e.kinds) (he : e.isFlat = true) : Back e := by
  have hw : wrapKinds e e.kinds = .mark .lparen :: (e.kinds ++ [.mark .rparen]) := by
    simp [wrapKinds, he]
  refine ⟨fun ts js hts hjs => ?_, h⟩
  rw [hw] at hts
  simp only [List.cons_append, List.append_assoc, List.nil_append] at hts
  obtain ⟨l₁, ts, rfl, hts'⟩ := kindsOf_eq_cons hts
  obtain ⟨e', r, hr, hk, heq⟩ := h hts' (endsExpr_mark (by decide))
  obtain ⟨l₂, r, rfl, hk'⟩ := kindsOf_eq_cons hk
  exact ⟨e', r, .atom (.paren hr), hk', heq⟩

/-- An atom of one token is read back. -/
theorem operandBack_token {e : Expr} {k : Kind} (f : Loc → Expr)
    (hr : ∀ l r, ReadsAtom (⟨k, l⟩ :: r) (f l) r)
    (hf : ∀ l, (f l).erase .places = e.erase .resolution) :
    OperandBack e [k] := by
  intro ts js hts _
  obtain ⟨l, r, rfl, hk'⟩ := kindsOf_eq_cons hts
  exact ⟨f l, r, .atom (hr l r), hk', hf l⟩

theorem operandBack_var {v : Variable} : OperandBack (.var v) v.kinds := by
  intro ts js hts hjs
  obtain ⟨l, ts, rfl, hts'⟩ := kindsOf_eq_cons hts
  obtain ⟨r, hr, hk⟩ := accessorsOf_kinds (fun k hk => (hjs k hk).2) hts'
  refine ⟨.var ⟨.unresolved v.ref.name, v.accessors, none, l⟩, r, .atom ?_, hk, rfl⟩
  have hparen : NoParen ts := by
    rintro l' s rfl
    cases has : v.accessors with
    | nil =>
      rw [has] at hts'
      exact hjs.noParen hts' l' s rfl
    | cons a as =>
      rw [has] at hts'
      cases (List.cons.inj hts').1
  have hvar := ReadsAtom.var (n := v.ref.name) (l := l) hparen
  rw [hr] at hvar
  exact hvar

theorem operandBack_pair {a b : Expr} {loc : Loc} (ha : ExprBack a a.kinds)
    (hb : ExprBack b b.kinds) : OperandBack (.pair a b loc) (Expr.pair a b loc).kinds := by
  intro ts js hts _
  simp only [kinds, List.cons_append, List.append_assoc, List.nil_append] at hts
  obtain ⟨l₁, ts, rfl, hts'⟩ := kindsOf_eq_cons hts
  obtain ⟨a', r, hra, hk, hea⟩ := ha hts' (endsExpr_mark (by decide))
  obtain ⟨l₂, r, rfl, hk'⟩ := kindsOf_eq_cons hk
  obtain ⟨b', r, hrb, hk, heb⟩ := hb hk' (endsExpr_mark (by decide))
  obtain ⟨l₃, r, rfl, hk'⟩ := kindsOf_eq_cons hk
  refine ⟨.pair a' b' l₁, r, .atom (.pair hra hrb), hk', ?_⟩
  simp only [erase, hea, heb]

/-- What follows an operand inside a sequence cannot extend it. -/
theorem endsOperand_rest {rest : List (OpUse × Expr)} {js : List Kind} (h : EndsOperand js) :
    EndsOperand (kindsRest rest ++ js) := by
  cases rest with
  | nil => simpa only [kindsRest, List.nil_append] using h
  | cons x rest =>
    obtain ⟨op, e⟩ := x
    simp only [kindsRest, List.cons_append]
    exact endsOperand_op

/-- The operators and operands of a sequence are read back, from after the first operator. -/
theorem chain_back : ∀ {rest : List (OpUse × Expr)} (op : OpUse) {o : OpUse} {e : Expr}
    {ts : List Token} {js : List Kind}, OperandBack e (wrapKinds e e.kinds) →
    (∀ x ∈ rest, OperandBack x.2 (wrapKinds x.2 x.2.kinds)) → o.name = op.name →
    kindsOf ts = wrapKinds e e.kinds ++ (kindsRest rest ++ js) → EndsExpr js →
    ∃ os r, ReadsChain o ts os r ∧ kindsOf r = js ∧
      eraseRest .places os = eraseRest .resolution ((op, e) :: rest)
  | [], op, o, e, ts, js, he, _, ho, hts, hjs => by
    obtain ⟨e', r, hr, hk, heq⟩ := he hts (endsOperand_rest hjs.1)
    rw [kindsRest, List.nil_append] at hk
    refine ⟨[(o, e')], r, .last hr (hjs.noOperator hk), hk, ?_⟩
    simp only [eraseRest, heq, ho]
  | (op₂, e₂) :: rest, op, o, e, ts, js, he, hrest, ho, hts, hjs => by
    obtain ⟨e', r, hr, hk, heq⟩ := he hts (endsOperand_rest hjs.1)
    simp only [kindsRest, List.cons_append, List.append_assoc] at hk
    obtain ⟨l, r, rfl, hk'⟩ := kindsOf_eq_cons hk
    obtain ⟨os, r, hos, hk, hes⟩ := chain_back op₂ (o := ⟨op₂.name, l⟩)
      (hrest _ List.mem_cons_self) (fun x hx => hrest x (List.mem_cons_of_mem _ hx)) rfl hk' hjs
    refine ⟨(o, e') :: os, r, .more hr hos, hk, ?_⟩
    simp only [eraseRest] at hes ⊢
    rw [hes, heq, ho]

theorem exprBack_flat {e : Expr} {rest : List (OpUse × Expr)} {loc : Loc} (hne : rest ≠ [])
    (he : OperandBack e (wrapKinds e e.kinds))
    (hrest : ∀ x ∈ rest, OperandBack x.2 (wrapKinds x.2 x.2.kinds)) :
    ExprBack (.flat e rest loc) (Expr.flat e rest loc).kinds := by
  intro ts js hts hjs
  rw [kinds, List.append_assoc] at hts
  obtain ⟨e', r, hr, hk, heq⟩ := he hts (endsOperand_rest hjs.1)
  cases rest with
  | nil => exact absurd rfl hne
  | cons x rest =>
    obtain ⟨op, f⟩ := x
    simp only [kindsRest, List.cons_append, List.append_assoc] at hk
    obtain ⟨l, r, rfl, hk'⟩ := kindsOf_eq_cons hk
    obtain ⟨os, r, hos, hk, hes⟩ := chain_back op (o := ⟨op.name, l⟩)
      (hrest _ List.mem_cons_self) (fun x hx => hrest x (List.mem_cons_of_mem _ hx)) rfl hk' hjs
    refine ⟨.flat e' os e'.loc, r, .flat hr hos, hk, ?_⟩
    simp only [erase]
    rw [hes, heq]

/-- Arguments are read back, from after the opening parenthesis. -/
theorem args_back : ∀ {args : List Expr} {ts : List Token} {js : List Kind},
    (∀ e ∈ args, ExprBack e e.kinds) →
    kindsOf ts = [Kind.mark .comma].intercalate (args.map kinds) ++ .mark .rparen :: js →
    ∃ es r, ReadsArgs ts es r ∧ kindsOf r = js ∧
      eraseArgs .places es = eraseArgs .resolution args := by
  have hmore : ∀ {args : List Expr} {ts : List Token} {js : List Kind}, args ≠ [] →
      (∀ e ∈ args, ExprBack e e.kinds) →
      kindsOf ts = [Kind.mark .comma].intercalate (args.map kinds) ++ .mark .rparen :: js →
      ∃ es r, ReadsMoreArgs ts es r ∧ kindsOf r = js ∧
        eraseArgs .places es = eraseArgs .resolution args := by
    intro args
    induction args with
    | nil => exact fun h => absurd rfl h
    | cons e args ih =>
      intro ts js _ h hts
      cases args with
      | nil =>
        simp only [List.map_cons, List.map_nil, List.intercalate_singleton] at hts
        obtain ⟨e', r, hr, hk, heq⟩ := h e List.mem_cons_self hts (endsExpr_mark (by decide))
        obtain ⟨l, r, rfl, hk'⟩ := kindsOf_eq_cons hk
        exact ⟨[e'], r, .last hr, hk', by simp only [eraseArgs, heq]⟩
      | cons f args =>
        simp only [List.map_cons, List.intercalate_cons_cons, List.append_assoc, List.cons_append,
          List.nil_append] at hts
        obtain ⟨e', r, hr, hk, heq⟩ := h e List.mem_cons_self hts (endsExpr_mark (by decide))
        obtain ⟨l, r, rfl, hk'⟩ := kindsOf_eq_cons hk
        obtain ⟨es, r, hes, hk, heqs⟩ := ih (List.cons_ne_nil _ _)
          (fun x hx => h x (List.mem_cons_of_mem _ hx)) hk'
        refine ⟨e' :: es, r, .more hr hes, hk, ?_⟩
        simp only [eraseArgs] at heqs ⊢
        rw [heqs, heq]
  intro args ts js h hts
  cases args with
  | nil =>
    obtain ⟨l, r, rfl, hk'⟩ := kindsOf_eq_cons hts
    exact ⟨[], r, .none, hk', by simp only [eraseArgs]⟩
  | cons e args =>
    obtain ⟨es, r, hes, hk, heq⟩ := hmore (List.cons_ne_nil _ _) h hts
    exact ⟨es, r, .some hes, hk, heq⟩

/-- A printable call is read back as an operand if its arguments are. -/
theorem operandBack_call {e : Expr} {kind : CallKind} {name : String} {args : List Expr}
    (hk : kind.Printable name args.length) (h : ∀ a ∈ args, Back a)
    (he : e.erase .resolution = Erasure.resolution.call kind name (eraseArgs .resolution args)) :
    OperandBack e (callKinds kind name (kindsArgs args)) := by
  intro ts js hts hjs
  rw [kindsArgs_eq_map] at hts
  rw [he]
  cases kind with
  | function =>
    simp only [callKinds, List.map_map, Function.comp_def, List.cons_append, List.append_assoc,
      List.nil_append] at hts
    obtain ⟨l₁, ts, rfl, hts₁⟩ := kindsOf_eq_cons hts
    obtain ⟨l₂, ts, rfl, hts₂⟩ := kindsOf_eq_cons hts₁
    obtain ⟨es, r, hes, hk, heq⟩ := args_back (fun a ha => (h a ha).2) hts₂
    refine ⟨.call .function name es l₁, r, .atom (.call hes), hk, ?_⟩
    rw [erase, heq]
    rfl
  | prefixOp =>
    obtain ⟨a, rfl⟩ := List.length_eq_one_iff.1 hk.2
    simp only [callKinds, List.map_cons, List.map_nil, List.cons_append] at hts
    obtain ⟨l, ts, rfl, hts₁⟩ := kindsOf_eq_cons hts
    obtain ⟨a', r, ha, hk, heq⟩ := (h a List.mem_cons_self).1 hts₁ hjs
    refine ⟨.call .prefixOp name [a'] l, r, .prefixed ha, hk, ?_⟩
    simp only [erase, eraseArgs, heq]
    rfl
  | infixOp =>
    obtain ⟨a, b, rfl⟩ : ∃ a b, args = [a, b] := by
      have hlength : args.length = 2 := hk.2
      rcases args with - | ⟨a, - | ⟨b, - | ⟨_, _⟩⟩⟩ <;> cases hlength
      exact ⟨a, b, rfl⟩
    simp only [callKinds, List.map_cons, List.map_nil, List.cons_append, List.append_assoc,
      List.nil_append] at hts
    obtain ⟨l₁, ts, rfl, hts₁⟩ := kindsOf_eq_cons hts
    obtain ⟨a', r, ha, hra, hea⟩ := (h a List.mem_cons_self).1 hts₁ endsOperand_op
    obtain ⟨l₂, r, rfl, hr₁⟩ := kindsOf_eq_cons hra
    have hparen : EndsExpr (.mark .rparen :: js) := endsExpr_mark (by decide)
    obtain ⟨b', r, hb, hrb, heb⟩ := (h b (by simp)).1 hr₁ hparen.1
    obtain ⟨l₃, r, rfl, hr₂⟩ := kindsOf_eq_cons hrb
    refine ⟨.flat a' [(⟨name, l₂⟩, b')] a'.loc, r,
      .atom (.paren (.flat ha (.last hb (hparen.noOperator hrb)))), hr₂, ?_⟩
    simp only [erase, eraseRest, eraseArgs, hea, heb]
    rfl

mutual

/-- Every printable expression is read back. -/
theorem back : ∀ e : Expr, e.Printable → Back e
  | .int n loc, _ => by
    refine OperandBack.back ?_ rfl
    rw [kinds]
    exact operandBack_token (fun l => .int n l) (fun _ _ => .int) fun _ => by simp only [erase]
  | .char c loc, _ => by
    refine OperandBack.back ?_ rfl
    rw [kinds]
    exact operandBack_token (fun l => .char c l) (fun _ _ => .char) fun _ => by simp only [erase]
  | .bool b loc, _ => by
    refine OperandBack.back ?_ rfl
    rw [kinds]
    exact operandBack_token (fun l => .bool b l) (fun _ _ => .bool) fun _ => by simp only [erase]
  | .str s loc, _ => by
    refine OperandBack.back ?_ rfl
    rw [kinds]
    exact operandBack_token (fun l => .str s l) (fun _ _ => .str) fun _ => by simp only [erase]
  | .emptyList t loc, _ => by
    refine OperandBack.back ?_ rfl
    intro ts js hts _
    rw [kinds] at hts
    obtain ⟨l₁, ts, rfl, hts₁⟩ := kindsOf_eq_cons hts
    obtain ⟨l₂, ts, rfl, hts₂⟩ := kindsOf_eq_cons hts₁
    exact ⟨.emptyList none l₁, ts, .atom .emptyList, hts₂, by simp only [erase]; rfl⟩
  | .pair a b loc, h => by
    rw [Printable] at h
    exact (operandBack_pair (back a h.1).2 (back b h.2).2).back rfl
  | .var v, _ => by
    refine OperandBack.back ?_ rfl
    rw [kinds]
    exact operandBack_var
  | .flat e rest loc, h => by
    rw [Printable] at h
    exact (exprBack_flat h.2.1 (back e h.1).1 fun x hx => (backRest rest h.2.2 x hx).1).back rfl
  | .call kind name args loc, h => by
    rw [Printable] at h
    refine OperandBack.back ?_ rfl
    rw [kinds]
    exact operandBack_call h.1 (backArgs args h.2) (by rw [erase])
  | .bound b args loc, h => by
    rw [Printable] at h
    refine OperandBack.back ?_ rfl
    rw [kinds]
    exact operandBack_call h.1 (backArgs args h.2) (by rw [erase]; rfl)

theorem backArgs : ∀ args : List Expr, PrintableArgs args → ∀ e ∈ args, Back e
  | [], _ => fun _ he => by cases he
  | e :: es, h => by
    rw [PrintableArgs] at h
    exact List.forall_mem_cons.2 ⟨back e h.1, backArgs es h.2⟩

theorem backRest : ∀ rest : List (OpUse × Expr), PrintableRest rest → ∀ x ∈ rest, Back x.2
  | [], _ => fun _ he => by cases he
  | (op, e) :: rest, h => by
    rw [PrintableRest] at h
    exact List.forall_mem_cons.2 ⟨back e h.2.1, backRest rest h.2.2⟩

end

theorem reads_kinds {e : Expr} (h : e.Printable) : ExprBack e e.kinds := (back e h).2

/-- The arguments of a printed function call, from after the opening parenthesis. -/
theorem args_reads_kinds {args : List Expr} (h : PrintableArgs args) {ts : List Token}
    {js : List Kind}
    (hts : kindsOf ts = [Kind.mark .comma].intercalate (args.map kinds) ++ .mark .rparen :: js) :
    ∃ es r, ReadsArgs ts es r ∧ kindsOf r = js ∧
      eraseArgs .places es = eraseArgs .resolution args :=
  args_back (fun e he => (backArgs args h e he).2) hts

end Expr

end SplFrontend
