import SplFrontend.Proofs.Reading

/-!
# The grammar that the readers follow

For every reader a relation `Reads ts a r`: the tokens `ts` begin with a phrase for `a`, after which
`r` is left. The relations are inductive, one constructor for each production, and where a reader
looks one token ahead the production says so. Each relation is equivalent to what its reader gives:
from left to right by recursion on the length of the tokens, as the readers themselves recurse, and
from right to left by induction on the derivation. What is said of derivations is then said of
readers, and a derivation that is built by hand is what the reader finds.
-/

namespace SplFrontend

open Reading TokenReading

/-! ## Types and signatures -/

/-- The phrases for types. -/
inductive Ty.Reads : List Token → Ty → List Token → Prop
  | name {n l r} : Ty.Reads (⟨.typeName n, l⟩ :: r) (.ofName n) r
  | pair {l₁ l₂ l₃ ts s r a b} : Ty.Reads ts a (⟨.mark .comma, l₂⟩ :: s) →
      Ty.Reads s b (⟨.mark .rparen, l₃⟩ :: r) → Ty.Reads (⟨.mark .lparen, l₁⟩ :: ts) (.pair a b) r
  | list {l₁ l₂ ts r a} : Ty.Reads ts a (⟨.mark .rbracket, l₂⟩ :: r) →
      Ty.Reads (⟨.mark .lbracket, l₁⟩ :: ts) (.list a) r

/-- The phrases for signatures. -/
inductive Signature.Reads : List Token → Signature → List Token → Prop
  | result {l ts t r} : Ty.Reads ts t r → Signature.Reads (⟨.mark .arrow, l⟩ :: ts) ⟨[], t⟩ r
  | param {ts t s sig r} : Ty.Reads ts t s → Signature.Reads s sig r →
      Signature.Reads ts { sig with params := t :: sig.params } r

theorem Ty.Reads.gives {stop : Loc} {ts r : List Token} {t : Ty} (h : Ty.Reads ts t r) :
    (Ty.read stop ts).Gives t r := by
  induction h with
  | name => rw [Ty.read]; simp
  | pair _ _ iha ihb =>
    rw [Ty.read, gives_under]
    refine iha.bind fun _ => ?_
    refine (gives_expect (u := ()).2 ⟨_, rfl⟩).bind fun _ => ?_
    exact ihb.bind fun _ => by simp
  | list _ ih =>
    rw [Ty.read, gives_under]
    exact ih.bind fun _ => by simp

theorem Ty.reads_of_gives {stop : Loc} {ts r : List Token} {t : Ty}
    (h : (Ty.read stop ts).Gives t r) : Ty.Reads ts t r := by
  rw [Ty.read.eq_def] at h
  split at h
  · obtain ⟨rfl, rfl⟩ := gives_take.1 h
    exact .name
  · simp only [gives_under, gives_bind, gives_map, gives_expect] at h
    obtain ⟨a, _, ha, _, _, s, ⟨_, rfl⟩, _, b, _, hb, _, _, ⟨_, rfl⟩, rfl⟩ := h
    exact .pair (Ty.reads_of_gives ha) (Ty.reads_of_gives hb)
  · simp only [gives_under, gives_bind, gives_map, gives_expect] at h
    obtain ⟨a, _, ha, _, _, ⟨_, rfl⟩, rfl⟩ := h
    exact .list (Ty.reads_of_gives ha)
  · exact absurd h not_gives_skip
termination_by ts.length
decreasing_by
  all_goals
    subst_vars
    simp only [List.length_cons] at *
    omega

theorem Ty.gives_iff {stop : Loc} {ts r : List Token} {t : Ty} :
    (Ty.read stop ts).Gives t r ↔ Ty.Reads ts t r := ⟨Ty.reads_of_gives, Ty.Reads.gives⟩

theorem Signature.Reads.gives {stop : Loc} {ts r : List Token} {sig : Signature}
    (h : Signature.Reads ts sig r) : (Signature.read stop ts).Gives sig r := by
  induction h with
  | result h =>
    rw [Signature.read]
    simp only [gives_under, gives_map]
    exact ⟨_, h.gives, rfl⟩
  | @param ts t s sig r ht _ ih =>
    rw [Signature.read.eq_def]
    split
    · cases ht
    · cases ht
    · exact ht.gives.bind fun _ => gives_map.2 ⟨_, ih, rfl⟩

theorem Signature.reads_of_gives {stop : Loc} {ts r : List Token} {sig : Signature}
    (h : (Signature.read stop ts).Gives sig r) : Signature.Reads ts sig r := by
  rw [Signature.read.eq_def] at h
  split at h
  · simp only [gives_under, gives_map] at h
    obtain ⟨t, ht, rfl⟩ := h
    exact .result (Ty.reads_of_gives ht)
  · exact absurd h not_gives_leave
  · simp only [gives_bind, gives_map] at h
    obtain ⟨t, s, ht, _, sig, hs, rfl⟩ := h
    exact .param (Ty.reads_of_gives ht) (Signature.reads_of_gives hs)
termination_by ts.length
decreasing_by
  subst_vars
  assumption

theorem Signature.gives_iff {stop : Loc} {ts r : List Token} {sig : Signature} :
    (Signature.read stop ts).Gives sig r ↔ Signature.Reads ts sig r :=
  ⟨Signature.reads_of_gives, Signature.Reads.gives⟩

/-! ## Expressions -/

/-- No infix operator comes next. -/
def NoOperator (ts : List Token) : Prop := ∀ n l r, ts ≠ ⟨.op n, l⟩ :: r

/-- No opening parenthesis comes next. -/
def NoParen (ts : List Token) : Prop := ∀ l r, ts ≠ ⟨.mark .lparen, l⟩ :: r

mutual

/-- The phrases for expressions. -/
inductive Expr.Reads : List Token → Expr → List Token → Prop
  | single {ts e r} : Expr.ReadsOperand ts e r → NoOperator r → Expr.Reads ts e r
  | flat {ts e n l s os r} : Expr.ReadsOperand ts e (⟨.op n, l⟩ :: s) →
      Expr.ReadsChain ⟨n, l⟩ s os r → Expr.Reads ts (.flat e os e.loc) r

/-- The phrases that may follow an infix operator in a sequence. -/
inductive Expr.ReadsChain : OpUse → List Token → List (OpUse × Expr) → List Token → Prop
  | last {o ts e r} : Expr.ReadsOperand ts e r → NoOperator r → Expr.ReadsChain o ts [(o, e)] r
  | more {o ts e n l s os r} : Expr.ReadsOperand ts e (⟨.op n, l⟩ :: s) →
      Expr.ReadsChain ⟨n, l⟩ s os r → Expr.ReadsChain o ts ((o, e) :: os) r

/-- The phrases for operands. -/
inductive Expr.ReadsOperand : List Token → Expr → List Token → Prop
  | prefixed {n l ts e r} : Expr.ReadsOperand ts e r →
      Expr.ReadsOperand (⟨.op n, l⟩ :: ts) (.call .prefixOp n [e] l) r
  | atom {ts e r} : Expr.ReadsAtom ts e r → Expr.ReadsOperand ts e r

/-- The phrases for operands without a prefix operator. -/
inductive Expr.ReadsAtom : List Token → Expr → List Token → Prop
  | int {n l r} : Expr.ReadsAtom (⟨.int n, l⟩ :: r) (.int n l) r
  | char {c l r} : Expr.ReadsAtom (⟨.char c, l⟩ :: r) (.char c l) r
  | str {t l r} : Expr.ReadsAtom (⟨.str t, l⟩ :: r) (.str t l) r
  | bool {b l r} : Expr.ReadsAtom (⟨.bool b, l⟩ :: r) (.bool b l) r
  | emptyList {l₁ l₂ r} :
      Expr.ReadsAtom (⟨.mark .lbracket, l₁⟩ :: ⟨.mark .rbracket, l₂⟩ :: r) (.emptyList none l₁) r
  | paren {l₁ l₂ ts e r} : Expr.Reads ts e (⟨.mark .rparen, l₂⟩ :: r) →
      Expr.ReadsAtom (⟨.mark .lparen, l₁⟩ :: ts) e r
  | pair {l₁ l₂ l₃ ts a s b r} : Expr.Reads ts a (⟨.mark .comma, l₂⟩ :: s) →
      Expr.Reads s b (⟨.mark .rparen, l₃⟩ :: r) →
      Expr.ReadsAtom (⟨.mark .lparen, l₁⟩ :: ts) (.pair a b l₁) r
  | call {n l₁ l₂ ts as r} : Expr.ReadsArgs ts as r →
      Expr.ReadsAtom (⟨.ident n, l₁⟩ :: ⟨.mark .lparen, l₂⟩ :: ts) (.call .function n as l₁) r
  | var {n l ts} : NoParen ts → Expr.ReadsAtom (⟨.ident n, l⟩ :: ts)
      (.var ⟨.unresolved n, (Variable.accessorsOf ts).1, none, l⟩) (Variable.accessorsOf ts).2

/-- The phrases for arguments, from after the opening parenthesis. -/
inductive Expr.ReadsArgs : List Token → List Expr → List Token → Prop
  | none {l r} : Expr.ReadsArgs (⟨.mark .rparen, l⟩ :: r) [] r
  | some {ts es r} : Expr.ReadsMoreArgs ts es r → Expr.ReadsArgs ts es r

/-- The phrases for one argument or more. -/
inductive Expr.ReadsMoreArgs : List Token → List Expr → List Token → Prop
  | last {ts e l r} : Expr.Reads ts e (⟨.mark .rparen, l⟩ :: r) → Expr.ReadsMoreArgs ts [e] r
  | more {ts e l s es r} : Expr.Reads ts e (⟨.mark .comma, l⟩ :: s) → Expr.ReadsMoreArgs s es r →
      Expr.ReadsMoreArgs ts (e :: es) r

end

theorem Variable.gives_iff {stop : Loc} {ts r : List Token} {v : Variable} :
    (Variable.read stop ts).Gives v r ↔ ∃ n l s, ts = ⟨.ident n, l⟩ :: s ∧
      v = ⟨.unresolved n, (Variable.accessorsOf s).1, none, l⟩ ∧
        r = (Variable.accessorsOf s).2 := by
  unfold Variable.read
  split
  · simp only [gives_ok]
    constructor
    · rintro ⟨rfl, rfl⟩
      exact ⟨_, _, _, rfl, rfl, rfl⟩
    · rintro ⟨_, _, _, h, rfl, rfl⟩
      cases h
      exact ⟨rfl, rfl⟩
  · next h =>
    simp only [not_gives_skip, false_iff]
    rintro ⟨n, l, s, rfl, -⟩
    exact h _ _ _ rfl

namespace Expr

variable {stop : Loc}

/-! ### Derivations are read -/

/-- No phrase for an operand begins with nothing, with a closing parenthesis or, unless it is a
prefix operator, with an operator. -/
theorem ReadsAtom.noOperator {ts r : List Token} {e : Expr} (h : ReadsAtom ts e r) :
    NoOperator ts := by
  intro n l s hs
  subst hs
  cases h

theorem ReadsOperand.not_rparen {l : Loc} {ts r : List Token} {e : Expr} :
    ¬ ReadsOperand (⟨.mark .rparen, l⟩ :: ts) e r := by
  intro h
  cases h with
  | atom h => cases h

theorem ReadsMoreArgs.not_rparen {l : Loc} {ts r : List Token} {es : List Expr} :
    ¬ ReadsMoreArgs (⟨.mark .rparen, l⟩ :: ts) es r := by
  intro h
  cases h with
  | last h => cases h <;> exact ReadsOperand.not_rparen ‹_›
  | more h _ => cases h <;> exact ReadsOperand.not_rparen ‹_›

mutual

theorem Reads.gives : ∀ {ts r : List Token} {e : Expr}, Reads ts e r → (read stop ts).Gives e r
  | _, _, _, .single h hr => by
    rw [read]
    refine h.gives.extend_none fun _ => ?_
    split
    · exact absurd rfl (hr _ _ _)
    · rfl
  | _, _, _, .flat h hc => by
    rw [read]
    refine h.gives.extend_some fun _ => ⟨_, rfl, ?_⟩
    simp only [gives_under, gives_map]
    exact ⟨_, hc.gives, rfl⟩

theorem ReadsChain.gives : ∀ {o : OpUse} {ts r : List Token} {os : List (OpUse × Expr)},
    ReadsChain o ts os r → (chain stop o ts).Gives os r
  | _, _, _, _, .last h hr => by
    rw [chain]
    refine (gives_map.2 ⟨_, h.gives, rfl⟩).extend_none fun _ => ?_
    split
    · exact absurd rfl (hr _ _ _)
    · rfl
  | _, _, _, _, .more h hc => by
    rw [chain]
    refine (gives_map.2 ⟨_, h.gives, rfl⟩).extend_some fun _ => ⟨_, rfl, ?_⟩
    simp only [gives_under, gives_map]
    exact ⟨_, hc.gives, rfl⟩

theorem ReadsOperand.gives : ∀ {ts r : List Token} {e : Expr}, ReadsOperand ts e r →
    (operand stop ts).Gives e r
  | _, _, _, .prefixed h => by
    rw [operand]
    simp only [gives_under, gives_map]
    exact ⟨_, h.gives, rfl⟩
  | _, _, _, .atom h => by
    rw [operand.eq_def]
    split
    · exact absurd rfl (h.noOperator _ _ _)
    · exact h.gives

theorem ReadsAtom.gives : ∀ {ts r : List Token} {e : Expr}, ReadsAtom ts e r →
    (atom stop ts).Gives e r
  | _, _, _, .int => by rw [atom]; simp
  | _, _, _, .char => by rw [atom]; simp
  | _, _, _, .str => by rw [atom]; simp
  | _, _, _, .bool => by rw [atom]; simp
  | _, _, _, .emptyList => by rw [atom]; simp
  | _, _, _, .paren h => by
    rw [atom, gives_under]
    exact h.gives.bind fun _ => by simp
  | _, _, _, .pair ha hb => by
    rw [atom, gives_under]
    refine ha.gives.bind fun _ => ?_
    simp only [gives_under]
    exact hb.gives.bind fun _ => by simp
  | _, _, _, .call h => by
    rw [atom]
    simp only [gives_under, gives_map]
    exact ⟨_, h.gives, rfl⟩
  | _, _, _, .var h => by
    rw [atom]
    · simp only [gives_map, Variable.gives_iff]
      exact ⟨_, ⟨_, _, _, rfl, rfl, rfl⟩, rfl⟩
    · intro l s hs
      exact h l s hs

theorem ReadsArgs.gives : ∀ {ts r : List Token} {es : List Expr}, ReadsArgs ts es r →
    (args stop ts).Gives es r
  | _, _, _, .none => by rw [args]; simp
  | _, _, _, .some h => by
    rw [args.eq_def]
    split
    · exact absurd h ReadsMoreArgs.not_rparen
    · exact h.gives

theorem ReadsMoreArgs.gives : ∀ {ts r : List Token} {es : List Expr}, ReadsMoreArgs ts es r →
    (moreArgs stop ts).Gives es r
  | _, _, _, .last h => by
    rw [moreArgs]
    exact h.gives.bind fun _ => by simp
  | _, _, _, .more h hs => by
    rw [moreArgs]
    refine h.gives.bind fun _ => ?_
    simp only [gives_under, gives_map]
    exact ⟨_, hs.gives, rfl⟩

end

/-! ### What is read is derived -/

mutual

theorem reads_of_gives {ts r : List Token} {e : Expr} (h : (read stop ts).Gives e r) :
    Reads ts e r := by
  rw [read, gives_extend] at h
  obtain ⟨a, s, ha, hs, ⟨hf, rfl, rfl⟩ | ⟨y, hf, hy⟩⟩ := h
  · refine .single (readsOperand_of_gives ha) fun n l r hr => ?_
    subst hr
    simp at hf
  · split at hf
    · cases hf
      simp only [gives_under, gives_map] at hy
      obtain ⟨os, hos, rfl⟩ := hy
      exact .flat (readsOperand_of_gives ha) (readsChain_of_gives hos)
    · cases hf
termination_by 5 * ts.length + 2
decreasing_by all_goals subst_vars; simp only [List.length_cons] at *; omega

theorem readsChain_of_gives {o : OpUse} {ts r : List Token} {os : List (OpUse × Expr)}
    (h : (chain stop o ts).Gives os r) : ReadsChain o ts os r := by
  rw [chain, gives_extend] at h
  obtain ⟨a, s, ha, hs, h⟩ := h
  obtain ⟨e, he, rfl⟩ := gives_map.1 ha
  rcases h with ⟨hf, rfl, rfl⟩ | ⟨y, hf, hy⟩
  · refine .last (readsOperand_of_gives he) fun n l r hr => ?_
    subst hr
    simp at hf
  · split at hf
    · cases hf
      simp only [gives_under, gives_map] at hy
      obtain ⟨os, hos, rfl⟩ := hy
      exact .more (readsOperand_of_gives he) (readsChain_of_gives hos)
    · cases hf
termination_by 5 * ts.length + 2
decreasing_by all_goals subst_vars; simp only [List.length_cons] at *; omega

theorem readsOperand_of_gives {ts r : List Token} {e : Expr} (h : (operand stop ts).Gives e r) :
    ReadsOperand ts e r := by
  rw [operand.eq_def] at h
  split at h
  · simp only [gives_under, gives_map] at h
    obtain ⟨e, he, rfl⟩ := h
    exact .prefixed (readsOperand_of_gives he)
  · exact .atom (readsAtom_of_gives h)
termination_by 5 * ts.length + 1
decreasing_by all_goals subst_vars; simp only [List.length_cons] at *; omega

theorem readsAtom_of_gives {ts r : List Token} {e : Expr} (h : (atom stop ts).Gives e r) :
    ReadsAtom ts e r := by
  rw [atom.eq_def] at h
  split at h
  · obtain ⟨rfl, rfl⟩ := gives_take.1 h
    exact .int
  · obtain ⟨rfl, rfl⟩ := gives_take.1 h
    exact .char
  · obtain ⟨rfl, rfl⟩ := gives_take.1 h
    exact .str
  · obtain ⟨rfl, rfl⟩ := gives_take.1 h
    exact .bool
  · simp only [gives_under, gives_map, gives_expect] at h
    obtain ⟨_, ⟨_, rfl⟩, rfl⟩ := h
    exact .emptyList
  · simp only [gives_under, gives_bind] at h
    obtain ⟨a, s, ha, hs, h⟩ := h
    split at h
    · simp only [gives_under, gives_bind, gives_map, gives_expect] at h
      obtain ⟨b, _, hb, _, _, ⟨_, rfl⟩, rfl⟩ := h
      exact .pair (reads_of_gives ha) (reads_of_gives hb)
    · simp only [gives_map, gives_expect] at h
      obtain ⟨_, ⟨_, rfl⟩, rfl⟩ := h
      exact .paren (reads_of_gives ha)
  · simp only [gives_under, gives_map] at h
    obtain ⟨as, has, rfl⟩ := h
    exact .call (readsArgs_of_gives has)
  · next hn =>
    simp only [gives_map, Variable.gives_iff] at h
    obtain ⟨_, ⟨_, _, _, heq, rfl, rfl⟩, rfl⟩ := h
    cases heq
    exact .var fun l s hs => hn l s hs
  · exact absurd h not_gives_leave
termination_by 5 * ts.length
decreasing_by all_goals subst_vars; simp only [List.length_cons] at *; omega

theorem readsArgs_of_gives {ts r : List Token} {es : List Expr} (h : (args stop ts).Gives es r) :
    ReadsArgs ts es r := by
  rw [args.eq_def] at h
  split at h
  · obtain ⟨rfl, rfl⟩ := gives_take.1 h
    exact .none
  · exact .some (readsMoreArgs_of_gives h)
termination_by 5 * ts.length + 4
decreasing_by all_goals subst_vars; omega

theorem readsMoreArgs_of_gives {ts r : List Token} {es : List Expr}
    (h : (moreArgs stop ts).Gives es r) : ReadsMoreArgs ts es r := by
  rw [moreArgs, gives_bind] at h
  obtain ⟨e, s, he, hs, h⟩ := h
  split at h
  · simp only [gives_under, gives_map] at h
    obtain ⟨es, hes, rfl⟩ := h
    exact .more (reads_of_gives he) (readsMoreArgs_of_gives hes)
  · simp only [gives_map, gives_expect] at h
    obtain ⟨_, ⟨_, rfl⟩, rfl⟩ := h
    exact .last (reads_of_gives he)
termination_by 5 * ts.length + 3
decreasing_by all_goals subst_vars; simp only [List.length_cons] at *; omega

end

theorem gives_iff {ts r : List Token} {e : Expr} : (read stop ts).Gives e r ↔ Reads ts e r :=
  ⟨reads_of_gives, Reads.gives⟩

theorem atom_gives_iff {ts r : List Token} {e : Expr} :
    (atom stop ts).Gives e r ↔ ReadsAtom ts e r :=
  ⟨readsAtom_of_gives, ReadsAtom.gives⟩

end Expr

end SplFrontend
