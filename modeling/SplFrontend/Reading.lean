/-!
# Reading from the front of a list

`Reading τ ε α ts` is the outcome of reading an `α` from the front of `ts : List τ`. A success takes
at least one element and a fault gives none back; both facts are part of the outcome, so every
recursion over the rest ends. What follows a success is read by `bind`, or by `extend` where it may
be absent.
-/

namespace SplFrontend

/-- The outcome of reading from the front of `ts`, with what is left. -/
inductive Reading (τ ε α : Type) (ts : List τ) where
  | ok (value : α) (rest : List τ) (shorter : rest.length < ts.length)
  | fault (e : ε) (rest : List τ) (noLonger : rest.length ≤ ts.length)

namespace Reading

variable {τ ε α β : Type} {ts us : List τ}

/-- Changes the value that was read. -/
def map (f : α → β) : Reading τ ε α ts → Reading τ ε β ts
  | ok a r h => ok (f a) r h
  | fault e r h => fault e r h

/-- The same outcome, seen from a list that is at least as long. -/
def within (h : us.length ≤ ts.length) : Reading τ ε α us → Reading τ ε α ts
  | ok a r h' => ok a r (Nat.lt_of_lt_of_le h' h)
  | fault e r h' => fault e r (Nat.le_trans h' h)

/-- The same outcome with one more element in front of what it was read from. -/
def under {t : τ} (x : Reading τ ε α ts) : Reading τ ε α (t :: ts) := x.within (Nat.le_succ _)

/-- Reads on from what is left. -/
def bind (x : Reading τ ε α ts)
    (f : α → (r : List τ) → r.length < ts.length → Reading τ ε β r) : Reading τ ε β ts :=
  match x with
  | ok a r h => (f a r h).within (Nat.le_of_lt h)
  | fault e r h => fault e r h

/-- Reads on from what is left, unless nothing of the kind follows. -/
def extend (x : Reading τ ε α ts)
    (f : α → (r : List τ) → r.length < ts.length → Option (Reading τ ε α r)) : Reading τ ε α ts :=
  match x with
  | ok a r h =>
    match f a r h with
    | some y => y.within (Nat.le_of_lt h)
    | none => ok a r h
  | fault e r h => fault e r h

/-- The first outcome if it is a success, and otherwise the second. -/
def orElse (x y : Reading τ ε α ts) : Reading τ ε α ts :=
  match x with
  | ok a r h => ok a r h
  | fault .. => y

/-- Changes the value that was read, or refuses it: the fault then stands at the front. -/
def filterMap (f : α → Option β) (e : ε) : Reading τ ε α ts → Reading τ ε β ts
  | ok a r h =>
    match f a with
    | some b => ok b r h
    | none => fault e ts (Nat.le_refl _)
  | fault e r h => fault e r h

/-- Succeeds on the first element. -/
def take {t : τ} (a : α) : Reading τ ε α (t :: ts) := ok a ts (Nat.lt_succ_self _)

/-- Stops with a fault and takes nothing. -/
def stay (e : ε) : Reading τ ε α ts := fault e ts (Nat.le_refl _)

end Reading

end SplFrontend
