import SplFrontend.Proofs.Overloads

/-!
# Counting errors while checking

Checking can be done with one running account: all errors so far, and how many of them are
tolerated. Pairs ask how many errors a component has left that are not tolerated, as a difference of
two states of the account, and trials set the account aside and put it back afterwards. Here
checking is written in this way, with a count that would fall below zero as a failure. It never
fails, and it finds what checking without an account finds: what is added to the account are the
errors of the expression.
-/

namespace SplFrontend.Typing

/-- The account of a check: the errors so far, and how many of them are tolerated. -/
structure Ledger where
  errors : List Diagnostic
  tolerated : Nat
deriving DecidableEq, Repr

/-- A computation that keeps an account, and fails where a count would fall below zero. -/
abbrev Keeping (α : Type) : Type := StateT Ledger Option α

namespace Ledger

variable {α β : Type}

/-- An account without errors. -/
def empty : Ledger := ⟨[], 0⟩

/-- Adds errors. -/
def note (ds : List Diagnostic) : Keeping Unit :=
  modify fun s => { s with errors := s.errors ++ ds }

/-- Tolerates more of the errors. -/
def tolerate (count : Nat) : Keeping Unit :=
  modify fun s => { s with tolerated := s.tolerated + count }

/-- A difference of counts, which must not be below zero. -/
def minus (m n : Nat) : Keeping Nat := if n ≤ m then pure (m - n) else failure

/-- Checks a component of a pair, and tells how many of the errors in it are not tolerated. -/
def component (check : Keeping (Expr × Option Ty)) : Keeping (Expr × Option Ty × Nat) := do
  let before ← get
  let (e, ty) ← check
  let now ← get
  let found ← minus now.errors.length before.errors.length
  let tolerated ← minus now.tolerated before.tolerated
  return (e, ty, ← minus found tolerated)

/-- Checks a pair. If exactly one component has errors that are not tolerated, they are tolerated
from here on. -/
def pair (expected : Option Ty × Option Ty) (front : List Diagnostic)
    (first second : Keeping (Expr × Option Ty)) (loc : Loc) : Keeping (Expr × Option Ty) := do
  note front
  let (a, ta, m) ← component first
  let (b, tb, n) ← component second
  tolerate (if (m == 0) = (n == 0) then 0 else m + n)
  return (.pair a b loc, do return .pair (← ta <|> expected.1) (← tb <|> expected.2))

/-- Puts the account aside for a while. The errors in between come with the answer. -/
def aside (x : Keeping α) : Keeping (α × Ledger) := do
  let saved ← get
  set empty
  let a ← x
  let between ← get
  set saved
  return (a, between)

/-- A node whose errors are all its own. -/
def leaf (c : Checked α) : Keeping (α × Option Ty) := do
  note c.errors
  return (c.value, c.ty)

/-- Tries parameters on arguments. They fit if all errors are tolerated. -/
def trial (check : Keeping (List Expr)) : Keeping (Option Trial) := do
  let (args, between) ← aside check
  return if between.errors.length = between.tolerated then some ⟨args, between.errors⟩ else none

/-- What arguments are, for a message, without the errors in them. -/
def describe (types : Keeping (List (Option Ty))) : Keeping (List (Option Ty)) := do
  let (ts, _) ← aside types
  return ts

/-- Tries candidates one after the other. -/
def trials (attempt : List Ty → Keeping (Option Trial)) :
    List Candidate → Keeping (List (Candidate × Trial))
  | [] => return []
  | c :: cs => do
    let t ← attempt c.sig.params
    let ts ← trials attempt cs
    return (t.map fun t => (c, t)).toList ++ ts

/-- Binds a call. All errors of the trial are tolerated. -/
def bind (kind : CallKind) (name : String) (loc : Loc) (c : Candidate) (t : Trial) :
    Keeping (Expr × Option Ty) := do
  tolerate t.errors.length
  note t.errors
  return (.bound ⟨kind, name, c.exported, c.index, c.module, c.sig.result⟩ t.args loc,
    some c.sig.result)

/-- A call, given how parameters are tried on its arguments and what types those have on their
own. -/
def call (v : Visible) (kind : CallKind) (name : String) (args : List Expr) (loc : Loc)
    (expected : Option Ty) (attempt : List Ty → Keeping (Option Trial))
    (types : Keeping (List (Option Ty))) :
    Keeping (Expr × Option Ty) :=
  let candidates := v.candidates kind name
  if candidates.isEmpty then leaf (unbound kind name args loc (.undefinedCallable kind name))
  else do
    let passed ← trials attempt (candidates.filter (mayFit args.length expected))
    match winner passed with
    | some (c, t) => bind kind name loc c t
    | none =>
      if passed.isEmpty then
        leaf (unbound kind name args loc (.noOverload kind name expected (← types)))
      else leaf (unbound kind name args loc (.ambiguous kind name expected.isSome passed.length))

mutual

/-- Checks an expression. -/
def expr (cx : Context) (expected : Option Ty) : Expr → Keeping (Expr × Option Ty)
  | .int n l => leaf (literal (.int n l) .int expected)
  | .char c l => leaf (literal (.char c l) .char expected)
  | .bool b l => leaf (literal (.bool b l) .bool expected)
  | .str s l => leaf (literal (.str s l) (.list .char) expected)
  | .emptyList given l => leaf (emptyList given expected l)
  | .pair a b l =>
    let (ea, eb, front) := components expected l
    pair (ea, eb) front (expr cx ea a) (expr cx eb b) l
  | .var v => do
    let (v, ty) ← leaf (variableOf cx expected v)
    return (.var v, ty)
  | .flat e rest l => return (.flat e rest l, none)
  | .call k n as l =>
    call cx.visible k n as l expected (fun ps => trial (argsUpTo cx as ps))
      (describe (typesOf cx as))
  | .bound b as l =>
    match cx.visible.target b with
    | some c => do
      let args ← argsAll cx as c.sig.params
      note (mismatch b.ty expected l)
      return (.bound b args l, some b.ty)
    | none =>
      call cx.visible b.kind b.name as l expected (fun ps => trial (argsUpTo cx as ps))
        (describe (typesOf cx as))

/-- Checks arguments up to the first that leaves an error which is not tolerated. -/
def argsUpTo (cx : Context) : List Expr → List Ty → Keeping (List Expr)
  | a :: as, p :: ps => do
    let (x, _) ← expr cx (some p) a
    let s ← get
    if s.tolerated < s.errors.length then return [x]
    return x :: (← argsUpTo cx as ps)
  | _, _ => return []

/-- Checks all arguments. -/
def argsAll (cx : Context) : List Expr → List Ty → Keeping (List Expr)
  | a :: as, p :: ps => do
    let (x, _) ← expr cx (some p) a
    return x :: (← argsAll cx as ps)
  | _, _ => return []

/-- The types that arguments have on their own. -/
def typesOf (cx : Context) : List Expr → Keeping (List (Option Ty))
  | [] => return []
  | a :: as => do
    let (_, t) ← expr cx none a
    return t :: (← typesOf cx as)

end

/-! ## One step -/

/-- The account after a check that found these errors. -/
def after (s : Ledger) (c : Checked α) : Ledger := ⟨s.errors ++ c.errors, s.tolerated + c.tolerated⟩

/-- A computation never fails, answers as a check does, and adds the errors of the check to any
account. -/
def Follows (x : Keeping (α × Option Ty)) (c : Checked α) : Prop :=
  ∀ s, x s = some ((c.value, c.ty), s.after c)

/-- A computation never fails, and leaves every account as it was. -/
def Isolated (x : Keeping α) (a : α) : Prop := ∀ s, x s = some (a, s)

theorem bind_of {x : Keeping α} {f : α → Keeping β} {s s' : Ledger} {a : α}
    (h : x s = some (a, s')) :
    (x >>= f) s = f a s' := by
  change (x s).bind (fun p => f p.1 p.2) = f a s'
  rw [h, Option.bind_some]

theorem minus_of {m n : Nat} (h : n ≤ m) (s : Ledger) : minus m n s = some (m - n, s) := by
  rw [minus, if_pos h]
  rfl

theorem follows_leaf {c : Checked α} (h : c.tolerated = 0) : Follows (leaf c) c := by
  intro s
  change some ((c.value, c.ty), (⟨s.errors ++ c.errors, s.tolerated⟩ : Ledger)) = _
  rw [after, h, Nat.add_zero]

/-- The counts of a component that are taken from each other grow at least as much as those that are
taken. -/
theorem component_of {x : Keeping (Expr × Option Ty)} {c : Checked Expr} (h : Follows x c)
    (hle : c.tolerated ≤ c.errors.length) (s : Ledger) :
    component x s = some ((c.value, c.ty, c.blocking), s.after c) := by
  have hfound : s.errors.length ≤ (s.after c).errors.length := by
    simp only [after, List.length_append]
    omega
  have htolerated : s.tolerated ≤ (s.after c).tolerated := Nat.le_add_right _ _
  have hblocking :
      (s.after c).tolerated - s.tolerated ≤ (s.after c).errors.length - s.errors.length := by
    simp only [after, List.length_append]
    omega
  have hvalue :
      (s.after c).errors.length - s.errors.length -
        ((s.after c).tolerated - s.tolerated) = c.blocking := by
    simp only [after, List.length_append, Checked.blocking]
    omega
  rw [← hvalue]
  refine (bind_of rfl).trans ((bind_of (h s)).trans ((bind_of rfl).trans ?_))
  exact (bind_of (minus_of hfound _)).trans
    ((bind_of (minus_of htolerated _)).trans (bind_of (minus_of hblocking _)))

/-- What is done aside leaves the account as it was. -/
theorem isolated_aside {x : Keeping α} {a : α} {between : Ledger}
    (h : x empty = some (a, between)) :
    Isolated (aside x) (a, between) := by
  intro s
  exact (bind_of rfl).trans ((bind_of rfl).trans ((bind_of h).trans rfl))

theorem follows_pair {expected : Option Ty × Option Ty} {front : List Diagnostic}
    {first second : Keeping (Expr × Option Ty)} {a b : Checked Expr} (hfirst : Follows first a)
    (hsecond : Follows second b) (ha : a.tolerated ≤ a.errors.length)
    (hb : b.tolerated ≤ b.errors.length) (l : Loc) :
    Follows (pair expected front first second l) (pairOf expected front a b l) := by
  intro s
  refine (bind_of rfl).trans ((bind_of (component_of hfirst ha _)).trans
    ((bind_of (component_of hsecond hb _)).trans ?_))
  have herrors :
      s.errors ++ front ++ a.errors ++ b.errors = s.errors ++ (front ++ a.errors ++ b.errors) := by
    simp only [List.append_assoc]
  have htolerated (extra : Nat) : s.tolerated + a.tolerated + b.tolerated + extra =
      s.tolerated + (a.tolerated + b.tolerated + extra) := by omega
  simp only [after, pairOf, ← herrors, ← htolerated]
  rfl

theorem isolated_trials {attempt : List Ty → Keeping (Option Trial)} {a : List Ty → Option Trial}
    (h : ∀ ps, Isolated (attempt ps) (a ps)) (cs : List Candidate) :
    Isolated (trials attempt cs) (cs.filterMap fun c => (a c.sig.params).map fun t => (c, t)) := by
  intro s
  induction cs with
  | nil => rfl
  | cons c cs ih =>
    refine (bind_of (h c.sig.params s)).trans ((bind_of ih).trans ?_)
    cases hc : a c.sig.params with
    | none => rw [List.filterMap_cons_none (by rw [hc]; rfl)]; rfl
    | some t => rw [List.filterMap_cons_some (by rw [hc]; rfl)]; rfl

/-- A call adds the errors of the trial that decides it, and if none does, one error. Trials and
descriptions add nothing of their own. -/
theorem follows_call {attempt : List Ty → Keeping (Option Trial)} {a : List Ty → Option Trial}
    (hattempt : ∀ ps, Isolated (attempt ps) (a ps)) {types : Keeping (List (Option Ty))}
    {ts : List (Option Ty)} (htypes : Isolated types ts) (v : Visible) (kind : CallKind)
    (name : String) (args : List Expr) (loc : Loc) (expected : Option Ty) :
    Follows (call v kind name args loc expected attempt types)
      (callOf v kind name args loc expected a fun _ => ts) := by
  intro s
  by_cases hempty : (v.candidates kind name).isEmpty
  · have hnone : Typing.trials (v.candidates kind name) args.length expected a = [] := by
      rw [List.isEmpty_iff.1 hempty]
      rfl
    simp only [call, callOf, hempty, hnone, winner, if_true]
    exact follows_leaf rfl s
  · have htrials :
        trials attempt ((v.candidates kind name).filter (mayFit args.length expected)) s =
        some (Typing.trials (v.candidates kind name) args.length expected a, s) :=
      isolated_trials hattempt _ s
    simp only [call, callOf, hempty, if_false, Bool.false_eq_true]
    refine (bind_of htrials).trans ?_
    generalize Typing.trials (v.candidates kind name) args.length expected a = passed
    cases hwinner : winner passed with
    | some x =>
      change some _ = some _
      rfl
    | none =>
      by_cases hpassed : passed.isEmpty
      · simp only [hpassed, if_true]
        exact (bind_of (htypes s)).trans (follows_leaf rfl s)
      · simp only [hpassed, if_false, Bool.false_eq_true]
        exact follows_leaf rfl s

/-! ## Expressions and arguments -/

/-- The check of some arguments, from an account all of whose errors are tolerated. If the arguments
fit, it goes to their end, and all errors are tolerated again; otherwise it stops with an error that
is not. -/
def Tries (x : Keeping (List Expr)) (outcome : Option Trial) : Prop :=
  ∀ s : Ledger, s.tolerated = s.errors.length →
    (∃ t, outcome = some t ∧
      x s = some (t.args, ⟨s.errors ++ t.errors, s.tolerated + t.errors.length⟩)) ∨
      outcome = none ∧ ∃ args s', x s = some (args, s') ∧ s'.tolerated < s'.errors.length

theorem isolated_trial {x : Keeping (List Expr)} {outcome : Option Trial} (h : Tries x outcome) :
    Isolated (trial x) outcome := by
  intro s
  obtain ⟨t, rfl, hx⟩ | ⟨rfl, args, s', hx, hlt⟩ := h empty rfl
  · refine (bind_of (isolated_aside hx s)).trans (congrArg (fun t => some (t, s)) ?_)
    exact if_pos (by simp [empty])
  · refine (bind_of (isolated_aside hx s)).trans (congrArg (fun t => some (t, s)) ?_)
    exact if_neg (Nat.ne_of_gt hlt)

theorem isolated_describe {x : Keeping (List (Option Ty))} {ts : List (Option Ty)}
    (h : ∀ s, ∃ s', x s = some (ts, s')) : Isolated (describe x) ts := by
  intro s
  obtain ⟨s', hx⟩ := h empty
  exact bind_of (isolated_aside hx s)

mutual

theorem follows_expr (cx : Context) : ∀ (e : Expr) (expected : Option Ty),
    Follows (expr cx expected e) (Typing.expr cx expected e)
  | .int .., _ | .char .., _ | .bool .., _ | .str .., _ => follows_leaf rfl
  | .emptyList .., _ => by
    refine follows_leaf ?_
    rw [emptyList]
    split <;> rfl
  | .pair a b l, _ =>
    follows_pair (follows_expr cx a _) (follows_expr cx b _) (tolerated_le cx a _)
      (tolerated_le cx b _) l
  | .var x, expected => by
    have hleaf : Follows (leaf (variableOf cx expected x)) (variableOf cx expected x) := by
      refine follows_leaf ?_
      rw [variableOf]
      split
      · rfl
      · split <;> rfl
    exact fun s => bind_of (hleaf s)
  | .flat .., _ => by
    intro s
    rw [after, Typing.expr, List.append_nil]
    rfl
  | .call kind name as l, expected =>
    follows_call (fun ps => isolated_trial (tries_argsUpTo cx as ps))
      (isolated_describe (typesOf_eq cx as)) cx.visible kind name as l expected
  | .bound b as l, expected => by
    rw [expr, Typing.expr]
    cases cx.visible.target b with
    | some c =>
      intro s
      refine (bind_of (argsAll_eq cx as c.sig.params s)).trans ((bind_of rfl).trans ?_)
      simp only [after, ← List.append_assoc]
      rfl
    | none =>
      exact follows_call (fun ps => isolated_trial (tries_argsUpTo cx as ps))
        (isolated_describe (typesOf_eq cx as)) cx.visible b.kind b.name as l expected

theorem tries_argsUpTo (cx : Context) : ∀ (as : List Expr) (ps : List Ty),
    Tries (argsUpTo cx as ps) (matchArgs cx as ps)
  | [], _ | _ :: _, [] => fun s _ => .inl ⟨⟨[], []⟩, by simp [matchArgs], by simp [argsUpTo]; rfl⟩
  | a :: as, p :: ps => by
    intro s hs
    have ha := follows_expr cx a (some p) s
    have hle := tolerated_le cx a (some p)
    rw [matchArgs]
    generalize Typing.expr cx (some p) a = c at ha hle ⊢
    have hone : argsUpTo cx (a :: as) (p :: ps) s =
        (if (s.after c).tolerated < (s.after c).errors.length then pure [c.value]
          else do return c.value :: (← argsUpTo cx as ps) : Keeping (List Expr)) (s.after c) :=
      (bind_of ha).trans (bind_of rfl)
    have hcount : (s.after c).tolerated < (s.after c).errors.length ↔ c.blocking ≠ 0 := by
      simp only [after, List.length_append, Checked.blocking]
      omega
    by_cases hfits : c.blocking = 0
    · rw [if_neg (fun hlt => hcount.1 hlt hfits)] at hone
      have hc : c.tolerated = c.errors.length := by
        rw [Checked.blocking] at hfits
        omega
      have hall : (s.after c).tolerated = (s.after c).errors.length := by
        simp only [after, List.length_append, hs, hc]
      rw [if_pos hfits]
      obtain ⟨t, ht, hargs⟩ | ⟨hnone, args, s', hargs, hlt⟩ := tries_argsUpTo cx as ps _ hall
      · rw [ht]
        refine .inl ⟨_, rfl, hone.trans ((bind_of hargs).trans ?_)⟩
        simp only [after, List.append_assoc, List.length_append, Nat.add_assoc, hc]
        rfl
      · rw [hnone]
        exact .inr ⟨rfl, c.value :: args, s', hone.trans (bind_of hargs), hlt⟩
    · rw [if_pos (hcount.2 hfits)] at hone
      rw [if_neg hfits]
      exact .inr ⟨rfl, [c.value], s.after c, hone, hcount.2 hfits⟩

theorem argsAll_eq (cx : Context) : ∀ (as : List Expr) (ps : List Ty) (s : Ledger),
    argsAll cx as ps s = some ((recheckArgs cx as ps).value, s.after (recheckArgs cx as ps))
  | [], _, s => by simp [argsAll, recheckArgs, after]; rfl
  | _ :: _, [], s => by simp [argsAll, recheckArgs, after]; rfl
  | a :: as, p :: ps, s => by
    refine (bind_of (follows_expr cx a (some p) s)).trans
      ((bind_of (argsAll_eq cx as ps _)).trans ?_)
    simp only [after, recheckArgs, ← List.append_assoc, ← Nat.add_assoc]
    rfl

theorem typesOf_eq (cx : Context) :
    ∀ (as : List Expr) (s : Ledger), ∃ s', typesOf cx as s = some (argTypes cx as, s')
  | [], s => ⟨s, rfl⟩
  | a :: as, s => by
    obtain ⟨s', hs'⟩ := typesOf_eq cx as (s.after (Typing.expr cx none a))
    exact ⟨s', (bind_of (follows_expr cx a none s)).trans (bind_of hs')⟩

end

/-- Checking with an account never has to take more from a count than there is, and finds the tree
and the type that checking finds. It only adds errors, tolerates no more of them than it adds, and
so never more than there are. Trials and descriptions of arguments leave the account as it was. -/
theorem keeps_account (cx : Context) {s : Ledger} (hs : s.tolerated ≤ s.errors.length) :
    (∀ (expected : Option Ty) (e : Expr), ∃ s',
      expr cx expected e s =
        some (((Typing.expr cx expected e).value, (Typing.expr cx expected e).ty), s') ∧
      s'.errors = s.errors ++ (Typing.expr cx expected e).errors ∧
      s'.tolerated = s.tolerated + (Typing.expr cx expected e).tolerated ∧
      s'.tolerated - s.tolerated ≤ s'.errors.length - s.errors.length ∧
        s'.tolerated ≤ s'.errors.length) ∧
    (∀ (as : List Expr) (ps : List Ty), trial (argsUpTo cx as ps) s =
      some (matchArgs cx as ps, s)) ∧
    ∀ as : List Expr, describe (typesOf cx as) s = some (argTypes cx as, s) := by
  refine ⟨fun expected e => ?_, fun as ps => ?_, fun as => ?_⟩
  · have hle := tolerated_le cx e expected
    refine ⟨_, follows_expr cx e expected s, rfl, rfl, ?_, ?_⟩
    · simp only [after, List.length_append]
      omega
    · simp only [after, List.length_append]
      omega
  · exact isolated_trial (tries_argsUpTo cx as ps) s
  · exact isolated_describe (typesOf_eq cx as) s

/-- `(f(('c', 2)), f((1, 2)))`: the first call is bound with one tolerated error, the second one is
ambiguous, and as the first has no other error, this one is tolerated as well. -/
theorem keeps_account_nested :
    let f (a b : Expr) : Expr := .call .function "f" [.pair a b .nowhere] .nowhere
    let e : Expr :=
      .pair (f (.char 'c' .nowhere) (.int 2 .nowhere))
        (f (.int 1 .nowhere) (.int 2 .nowhere)) .nowhere
    let d := Fault.emptyListUntyped.report .nowhere
    (⟨[d, d], 1⟩ : Ledger).tolerated ≤ (⟨[d, d], 1⟩ : Ledger).errors.length ∧
      ∃ x s', expr twinContext none e ⟨[d, d], 1⟩ = some (x, s') ∧ s'.errors.length = 4 ∧
        s'.tolerated = 3 := by
  intro f e d
  have hs : (⟨[d, d], 1⟩ : Ledger).tolerated ≤ (⟨[d, d], 1⟩ : Ledger).errors.length := by decide
  obtain ⟨s', hrun, herrors, htolerated, -⟩ := (keeps_account twinContext hs).1 none e
  exact ⟨hs, _, s', hrun, congrArg List.length herrors, htolerated⟩

end Ledger

end SplFrontend.Typing
