import SplFrontend.Proofs.Overloads
import SplFrontend.Proofs.Renumbering

/-!
# Inference and checking

An expression may be checked with no type expected, which infers one, or against a type. If a type
is inferred, checking against it gives the same outcome: the same tree, with every call bound to the
same overload, the same type and the same errors.

Calls are the case that is not plain. With a type expected fewer overloads take part, and a tie is
broken in a smaller set. But the overload that wins among all has the inferred type for its result,
so it still takes part, and what wins in some set wins in every smaller one that it belongs to
(`winner_filter`).
-/

namespace SplFrontend.Typing

/-! ## Fewer candidates -/

section

variable {ts : List (Candidate × Trial)} {x : Candidate × Trial}

theorem eq_singleton_of_single {α : Type} {l : List α} {a : α} (h : single l = some a) :
    l = [a] := by
  rcases l with _ | ⟨b, _ | ⟨c, l⟩⟩
  · cases h
  · cases h
    rfl
  · cases h

/-- What wins among some trials wins among those of them that satisfy a test, if it does itself. -/
theorem winner_filter (h : winner ts = some x) {p : Candidate × Trial → Bool} (hx : p x = true) :
    winner (ts.filter p) = some x := by
  have hsingleton : [x].filter p = [x] := List.filter_eq_self.2 fun y hy => by
    rw [List.mem_singleton.1 hy, hx]
  rw [winner_eq, Option.or_eq_some_iff] at h
  obtain honly | ⟨-, hlocal⟩ := h
  · rw [eq_singleton_of_single honly, hsingleton]
    rfl
  · have hfilter : (ts.filter p).filter (·.1.isLocal) = [x] := by
      rw [List.filter_comm, eq_singleton_of_single hlocal, hsingleton]
    exact winner_of_filter hfilter

/-- The trials with a type expected are those of the overloads with this result. -/
theorem trials_some (cs : List Candidate) (count : Nat) (t : Ty)
    (attempt : List Ty → Option Trial) :
    trials cs count (some t) attempt = (trials cs count none attempt).filter fun x =>
      t = x.1.sig.result := by
  have hmay : ∀ c, mayFit count (some t) c = (decide (t = c.sig.result) && mayFit count none c) :=
    fun c => by
    simp [mayFit, Bool.and_comm]
  rw [trials, trials, List.filter_filterMap, funext hmay, ← List.filter_filter,
    List.filterMap_filter]
  refine List.filterMap_congr fun c _ => ?_
  cases attempt c.sig.params with
  | none => simp
  | some r => by_cases ht : t = c.sig.result <;> simp [Option.filter, ht]

end

/-! ## The inferred type as the expected one -/

variable {cx : Context}

theorem literal_some (e : Expr) (t : Ty) : literal e t (some t) = literal e t none := by
  simp [literal, mismatch]

theorem emptyList_some {given : Option Ty} {l : Loc} {t : Ty}
    (h : (emptyList given none l).ty = some t) :
    emptyList given (some t) l = emptyList given none l := by
  cases given with
  | none => cases h
  | some u =>
    cases u with
    | list elem =>
      cases h
      rfl
    | _ => cases h

theorem variableOf_some {v : Variable} {t : Ty} (h : (variableOf cx none v).ty = some t) :
    variableOf cx (some t) v = variableOf cx none v := by
  unfold variableOf at h ⊢
  split at h
  · cases h
  · next declared hd =>
    split at h
    · next ty hn =>
      cases h
      simp [mismatch]
    · cases h

/-- A call that is bound to an overload is bound to it as well if its result is expected. -/
theorem callOf_some {v : Visible} {kind : CallKind} {name : String} {args : List Expr} {l : Loc}
    {attempt : List Ty → Option Trial} {types : Unit → List (Option Ty)} {t : Ty}
    (h : (callOf v kind name args l none attempt types).ty = some t) :
    callOf v kind name args l (some t) attempt types =
      callOf v kind name args l none attempt types := by
  cases hw : winner (trials (v.candidates kind name) args.length none attempt) with
  | none =>
    simp only [callOf, hw] at h
    cases h
  | some x =>
    simp only [callOf, hw] at h
    cases h
    have hsome :=
      winner_filter hw (p := fun y => x.1.sig.result = y.1.sig.result) (decide_eq_true rfl)
    rw [← trials_some] at hsome
    simp only [callOf, hw, hsome]

theorem pairOf_some {a b : Checked Expr} {ta tb : Ty} (ha : a.ty = some ta)
    (hb : b.ty = some tb) (l : Loc) :
    pairOf (some ta, some tb) [] a b l = pairOf (none, none) [] a b l := by
  simp [pairOf, ha, hb]

theorem pairOf_none_ty {a b : Checked Expr} {t : Ty} {l : Loc}
    (h : (pairOf (none, none) [] a b l).ty = some t) :
    ∃ ta tb, a.ty = some ta ∧ b.ty = some tb ∧ t = .pair ta tb := by
  cases ha : a.ty with
  | none => simp [pairOf, ha] at h
  | some ta =>
    cases hb : b.ty with
    | none => simp [pairOf, ha, hb] at h
    | some tb =>
      simp only [pairOf, ha, hb] at h
      cases h
      exact ⟨ta, tb, rfl, rfl, rfl⟩

/-- Checking an expression against the type that is inferred for it gives the outcome of the
inference: the same tree, the same type, and the same errors, which are none if the inference
reports none. -/
theorem expr_of_inferred : ∀ {e : Expr} {t : Ty}, (expr cx none e).ty = some t →
    expr cx (some t) e = expr cx none e
  | .int .., _, h | .char .., _, h | .bool .., _, h | .str .., _, h => by
    cases h
    exact literal_some ..
  | .emptyList .., _, h => emptyList_some h
  | .pair a b l, _, h => by
    obtain ⟨ta, tb, ha, hb, rfl⟩ := pairOf_none_ty h
    have hpair : expr cx (some (.pair ta tb)) (.pair a b l) =
        pairOf (some ta, some tb) [] (expr cx (some ta) a) (expr cx (some tb) b) l := rfl
    rw [hpair, expr_of_inferred ha, expr_of_inferred hb, pairOf_some ha hb]
    rfl
  | .var v, t, h => by
    have hv : variableOf cx (some t) v = variableOf cx none v := variableOf_some h
    rw [expr, expr, hv]
  | .flat .., _, h => by cases h
  | .call kind name as l, _, h => by
    rw [expr] at h ⊢
    rw [callOf_some h, expr]
  | .bound b as l, t, h => by
    rw [expr] at h ⊢
    rw [expr]
    cases hb : cx.visible.target b with
    | some c =>
      simp only [hb, Option.some.injEq] at h
      simp [h, mismatch]
    | none =>
      simp only [hb] at h
      exact callOf_some h

/-- A module that defines `f` from `Int` to `Int` and has two more of this name from another module,
from `Int` to `Bool` and to `Char`. -/
def rivalContext : Context where
  visible :=
    { own :=
        { module := "m"
          functions := [((.function, "f"), [⟨⟨[.int], .int⟩, .nowhere, 0, none, [], []⟩])] }
      externals :=
        { functions := [((.function, "f"), [⟨⟨[.int], .bool⟩, "lib", "f", none, false⟩,
            ⟨⟨[.int], .char⟩, "lib", "f", none, false⟩])] } }
  fn := none

/-- In `(f(1), 'c')` the overload of the module wins over two rivals. With `(Int, Char)` expected it
has none left, and the outcome is the same. -/
theorem expr_of_inferred_rivals :
    let e := .pair (.call .function "f" [.int 1 .nowhere] .nowhere) (.char 'c' .nowhere) .nowhere
    (rivalContext.visible.candidates .function "f").length = 3 ∧
      (expr rivalContext none e).errors = [] ∧
      (expr rivalContext none e).ty = some (.pair .int .char) ∧
      expr rivalContext (some (.pair .int .char)) e = expr rivalContext none e :=
  ⟨rfl, rfl, rfl, expr_of_inferred rfl⟩

end SplFrontend.Typing
