import SplFrontend.Fault

/-!
# Expansion of type synonyms

A `Synonyms` environment is a finite list of definitions, of which the first for a name counts.
Expansion replaces every synonym by its definition. It carries the chain of synonyms whose
definitions are being expanded, so a cyclic definition is found when a name returns to the chain;
and since the chain only grows inside the environment, expansion ends whatever the definitions are.
-/

namespace SplFrontend

/-- What a synonym stands for, and whether it comes from outside the module at hand. -/
structure SynonymDef where
  ty : Ty
  external : Bool
deriving DecidableEq, Repr

/-- Definitions of synonyms, the first of a name counting. -/
abbrev Synonyms := List (String × SynonymDef)

namespace Synonyms

/-- The number of definitions whose name is not on the chain. -/
def unvisited (env : Synonyms) (chain : List String) : Nat :=
  env.countP fun d => d.1 ∉ chain

theorem unvisited_cons_le (env : Synonyms) (chain : List String) (name : String) :
    env.unvisited (name :: chain) ≤ env.unvisited chain := by
  refine List.countP_mono_left fun d _ h => ?_
  simp only [decide_eq_true_eq, List.mem_cons, not_or] at h ⊢
  exact h.2

/-- A defined name that joins the chain leaves fewer definitions. -/
theorem unvisited_cons_lt {env : Synonyms} {chain : List String} {name : String} {d : SynonymDef}
    (hd : env.lookup name = some d) (hn : name ∉ chain) :
    env.unvisited (name :: chain) < env.unvisited chain := by
  induction env with
  | nil => cases hd
  | cons e env ih =>
    simp only [unvisited, List.countP_cons]
    have hle := unvisited_cons_le env chain name
    simp only [unvisited] at hle
    by_cases he : e.1 = name
    · subst he
      simp only [List.mem_cons_self, not_true_eq_false, decide_false, Bool.false_eq_true,
        if_false, hn, not_false_eq_true, decide_true, if_true]
      omega
    · have hl : env.lookup name = some d := by
        rw [← hd]
        obtain ⟨n, x⟩ := e
        have : (name == n) = false := by simpa using fun h => he h.symm
        rw [List.lookup_cons, this]
      have hlt := ih hl
      simp only [unvisited] at hlt
      have heq : (e.1 ∉ name :: chain) ↔ (e.1 ∉ chain) := by simp [he]
      simp only [heq]
      omega

end Synonyms

/-- The number of nodes in a type. -/
def Ty.size : Ty → Nat
  | .basic _ | .syn _ => 1
  | .pair a b => a.size + b.size + 1
  | .list e => e.size + 1

namespace Synonyms

/-- The number of nodes in all definitions. -/
def size (env : Synonyms) : Nat := env.foldr (fun d n => d.2.ty.size + n) 0

theorem size_le_of_lookup {env : Synonyms} {name : String} {d : SynonymDef}
    (h : env.lookup name = some d) : d.ty.size ≤ env.size := by
  induction env with
  | nil => cases h
  | cons e env ih =>
    simp only [size, List.foldr_cons]
    rw [List.lookup_cons] at h
    split at h
    · cases h
      omega
    · have hle := ih h
      simp only [size] at hle
      omega

/-- A bound on the steps of an expansion: each definition that is not on the chain may be entered
once, and none has more nodes than all together. -/
def steps (env : Synonyms) (chain : List String) (t : Ty) : Nat :=
  env.unvisited chain * (env.size + 1) + t.size

theorem steps_definition_lt {env : Synonyms} {chain : List String} {name : String} {d : SynonymDef}
    (hd : env.lookup name = some d) (hn : name ∉ chain) :
    env.steps (name :: chain) d.ty < env.steps chain (.syn name) := by
  have hle := size_le_of_lookup hd
  have hmul := Nat.mul_le_mul_right (env.size + 1) (unvisited_cons_lt hd hn)
  rw [Nat.succ_mul] at hmul
  simp only [steps, Ty.size]
  omega

end Synonyms

namespace Ty

/-- Replaces every synonym by its definition, while the definitions of the names on `chain` are
being expanded. A name without a definition is reported as such even if it is on the chain. -/
def expandIn (env : Synonyms) (chain : List String) : Ty → Except ExpandFault Ty
  | .basic b => .ok (.basic b)
  | .pair a b => do
    let a ← a.expandIn env chain
    let b ← b.expandIn env chain
    return .pair a b
  | .list e => do return .list (← e.expandIn env chain)
  | .syn name =>
    match _hd : env.lookup name with
    | none => .error (.undefined name)
    | some d =>
      if _hn : name ∈ chain then .error (.cycle name d.external)
      else d.ty.expandIn env (name :: chain)
termination_by t => env.steps chain t
decreasing_by
  · simp only [Synonyms.steps, size]; omega
  · simp only [Synonyms.steps, size]; omega
  · simp only [Synonyms.steps, size]; omega
  · exact Synonyms.steps_definition_lt _hd _hn

/-- Replaces every synonym by its definition. -/
def expand (env : Synonyms) (t : Ty) : Except ExpandFault Ty := t.expandIn env []

end Ty

/-- The full expansion of a synonym. -/
def Synonyms.expansion (env : Synonyms) (name : String) : Except ExpandFault Ty :=
  match env.lookup name with
  | none => .error (.undefined name)
  | some d => d.ty.expandIn env [name]

end SplFrontend
