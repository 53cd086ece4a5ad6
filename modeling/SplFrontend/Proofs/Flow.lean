import SplFrontend.Flow
import SplFrontend.Proofs.Noted

/-!
# Paths through bodies

A path through some statements takes any branch of a condition and runs the body of a loop any
number of times, whatever the guards say. It leaves the statements in one of four ways (`Outcome`),
and `Path` relates statements to the ways in which some path leaves them. It is a relation of its
own: nothing in it is taken from the analysis.

The analysis is exact with respect to it. A `break` or `continue` outside of all loops is reported
once, where it stands (`straysAll`); and in a body without one, a return is certain if and only if
no path falls off the end. Inside a loop certainty says less, as a path may also leave by `break`,
but there nothing depends on it: a loop may always be passed without entering it. So the induction
goes through the statements outside of loops only.
-/

namespace SplFrontend.Flow

/-! ## Paths -/

/-- How a path leaves some statements. -/
inductive Outcome where
  /-- It reaches their end. -/
  | falls
  | breaks
  | continues
  | returns
deriving DecidableEq, Repr

mutual

/-- Some path through the statement leaves it in the given way. -/
inductive Path : Stmt → Outcome → Prop
  | decl {d} : Path (.decl d) .falls
  | assign {v e l} : Path (.assign v e l) .falls
  | expr {e} : Path (.expr e) .falls
  | ret {e l} : Path (.ret e l) .returns
  | brk {l} : Path (.brk l) .breaks
  | cont {l} : Path (.cont l) .continues
  | branch {bs o l x} : PathBranch bs x → Path (.cond bs o l) x
  | otherwise {bs b l x} : PathAll b x → Path (.cond bs (some b) l) x
  | noBranch {bs l} : Path (.cond bs none l) .falls
  | loop {e b l x} : PathLoop b x → Path (.loop e b l) x
  | each {v e b l x} : PathLoop b x → Path (.each v e b l) x

/-- Some path through the block leaves it in the given way. -/
inductive PathAll : List Stmt → Outcome → Prop
  | nil : PathAll [] .falls
  | next {s ss x} : Path s .falls → PathAll ss x → PathAll (s :: ss) x
  | leave {s ss x} : Path s x → x ≠ .falls → PathAll (s :: ss) x

/-- Some path through one of the branches leaves it in the given way. -/
inductive PathBranch : List Branch → Outcome → Prop
  | here {e b l bs x} : PathAll b x → PathBranch (.mk e b l :: bs) x
  | later {b bs x} : PathBranch bs x → PathBranch (b :: bs) x

/-- Some path leaves a loop with the given body in the given way. A round that reaches the end of
the body, or `continue`, leads to the guard again, where the loop may end. -/
inductive PathLoop : List Stmt → Outcome → Prop
  | done {b} : PathLoop b .falls
  | again {b o x} : PathAll b o → o = .falls ∨ o = .continues → PathLoop b x → PathLoop b x
  | breaks {b} : PathAll b .breaks → PathLoop b .falls
  | returns {b} : PathAll b .returns → PathLoop b .returns

end

theorem pathAll_cons_falls {s : Stmt} {ss : List Stmt} :
    PathAll (s :: ss) .falls ↔ Path s .falls ∧ PathAll ss .falls := by
  constructor
  · intro h
    cases h with
    | next hs hss => exact ⟨hs, hss⟩
    | leave _ hne => exact absurd rfl hne
  · exact fun h => .next h.1 h.2

theorem pathBranch_cons {e : Expr} {b : List Stmt} {l : Loc} {bs : List Branch} {x : Outcome} :
    PathBranch (.mk e b l :: bs) x ↔ PathAll b x ∨ PathBranch bs x := by
  constructor
  · intro h
    cases h with
    | here hb => exact .inl hb
    | later hbs => exact .inr hbs
  · exact fun h => h.elim .here .later

theorem path_cond {bs : List Branch} {b : List Stmt} {l : Loc} {x : Outcome} :
    Path (.cond bs (some b) l) x ↔ PathBranch bs x ∨ PathAll b x := by
  constructor
  · intro h
    cases h with
    | branch hbs => exact .inl hbs
    | otherwise hb => exact .inr hb
  · exact fun h => h.elim .branch .otherwise

/-- No path leaves a loop by `break` or `continue`. -/
theorem PathLoop.falls_or_returns :
    ∀ {b : List Stmt} {x : Outcome}, PathLoop b x → x = .falls ∨ x = .returns
  | _, _, .done | _, _, .breaks _ => .inl rfl
  | _, _, .again _ _ h => h.falls_or_returns
  | _, _, .returns _ => .inr rfl

/-! ## Statements that leave no loop -/

mutual

/-- The `break` and `continue` statements in a statement that stand in no loop, in source order. -/
def strays : Stmt → List Stmt
  | .brk l => [.brk l]
  | .cont l => [.cont l]
  | .cond bs none _ => straysBranches bs
  | .cond bs (some b) _ => straysBranches bs ++ straysAll b
  | .decl _ | .assign .. | .loop .. | .each .. | .ret .. | .expr _ => []

/-- Those of a block. -/
def straysAll : List Stmt → List Stmt
  | [] => []
  | s :: ss => strays s ++ straysAll ss

/-- Those of branches. -/
def straysBranches : List Branch → List Stmt
  | [] => []
  | .mk _ b _ :: bs => straysAll b ++ straysBranches bs

end

theorem straysBranches_eq_nil {bs : List Branch} {o : Option (List Stmt)} {l : Loc}
    (h : strays (.cond bs o l) = []) : straysBranches bs = [] := by
  cases o with
  | none => simpa only [strays] using h
  | some b =>
    rw [strays, List.append_eq_nil_iff] at h
    exact h.1

-- Without strays a path is left by `break` or `continue` in loops only. The induction is on the
-- path.
mutual

theorem Path.falls_or_returns :
    ∀ {s : Stmt} {x : Outcome}, Path s x → strays s = [] → x = .falls ∨ x = .returns
  | _, _, .decl, _ | _, _, .assign, _ | _, _, .expr, _ | _, _, .noBranch, _ => .inl rfl
  | _, _, .ret, _ => .inr rfl
  | _, _, .brk, h | _, _, .cont, h => by simp [strays] at h
  | _, _, .branch hp, h => hp.falls_or_returns (straysBranches_eq_nil h)
  | _, _, .otherwise hp, h => by
    rw [strays, List.append_eq_nil_iff] at h
    exact hp.falls_or_returns h.2
  | _, _, .loop hp, _ | _, _, .each hp, _ => hp.falls_or_returns

theorem PathAll.falls_or_returns :
    ∀ {ss : List Stmt} {x : Outcome}, PathAll ss x → straysAll ss = [] →
    x = .falls ∨ x = .returns
  | _, _, .nil, _ => .inl rfl
  | _, _, .next _ hp, h => by
    rw [straysAll, List.append_eq_nil_iff] at h
    exact hp.falls_or_returns h.2
  | _, _, .leave hp _, h => by
    rw [straysAll, List.append_eq_nil_iff] at h
    exact hp.falls_or_returns h.1

theorem PathBranch.falls_or_returns : ∀ {bs : List Branch} {x : Outcome}, PathBranch bs x →
    straysBranches bs = [] → x = .falls ∨ x = .returns
  | _, _, .here hp, h => by
    rw [straysBranches, List.append_eq_nil_iff] at h
    exact hp.falls_or_returns h.1
  | .mk .. :: _, _, .later hp, h => by
    rw [straysBranches, List.append_eq_nil_iff] at h
    exact hp.falls_or_returns h.2

end

/-- What is reported at a statement that leaves no loop. -/
def strayFault : Stmt → Fault
  | .cont _ => .strayContinue
  | _ => .strayBreak

/-- The report that a statement which leaves no loop is due. -/
def strayReport (s : Stmt) : Diagnostic := (strayFault s).report s.loc

/-- The reports with a given code. -/
def coded (c : Code) (ds : List Diagnostic) : List Diagnostic := ds.filter fun d => d.code = c

@[simp] theorem coded_nil (c : Code) : coded c [] = [] := rfl

@[simp] theorem coded_append (c : Code) (ds es : List Diagnostic) :
    coded c (ds ++ es) = coded c ds ++ coded c es := List.filter_append ..

theorem coded_report (c : Code) (f : Fault) (l : Loc) :
    coded c [f.report l] = if f.code = c then [f.report l] else [] := by
  by_cases h : f.code = c <;> simp [coded, Fault.report, h]

/-- What the stray statements are due, unless they stand in a loop after all. -/
def strayReports (inLoop : Bool) (ss : List Stmt) : List Diagnostic :=
  if inLoop then [] else ss.map strayReport

theorem strayReports_append (inLoop : Bool) (ss ss' : List Stmt) :
    strayReports inLoop (ss ++ ss') = strayReports inLoop ss ++ strayReports inLoop ss' := by
  cases inLoop <;> simp [strayReports]

section

variable {c : Code}

theorem coded_reach (hc : ∀ cut, (Fault.unreachable cut).code ≠ c) (reach : Reach) (l : Loc) :
    coded c (reach.report l).notes = [] := by
  cases reach with
  | cut cut => exact (coded_report c _ l).trans (if_neg (hc cut))
  | live => rfl
  | dead => rfl

-- But for unreachable statements, the walk reports stray statements only, whatever it has reached.
mutual

theorem coded_stmt (hc : ∀ cut, (Fault.unreachable cut).code ≠ c) (inLoop : Bool) : ∀ s : Stmt,
    coded c (stmt inLoop s).notes = coded c (strayReports inLoop (strays s))
  | .ret .. | .decl .. | .assign .. | .expr .. => by cases inLoop <;> rfl
  | .brk _ | .cont _ => by cases inLoop <;> rfl
  | .cond bs none _ => by
    rw [stmt, strays, Noted.notes_bind, Noted.notes_pure, List.append_nil, coded_branches hc]
  | .cond bs (some b) _ => by
    rw [stmt, strays, Noted.notes_bind, Noted.notes_bind, Noted.notes_pure, List.append_nil,
      coded_append, coded_branches hc, coded_block hc, strayReports_append, coded_append]
  | .loop _ b _ | .each _ _ b _ => by
    rw [stmt, strays, Noted.notes_bind, Noted.notes_pure, List.append_nil, coded_block hc]
    cases inLoop <;> rfl

theorem coded_block (hc : ∀ cut, (Fault.unreachable cut).code ≠ c) (inLoop : Bool) :
    ∀ (reach : Reach) (ss : List Stmt),
    coded c (block inLoop reach ss).notes = coded c (strayReports inLoop (straysAll ss))
  | _, [] => by cases inLoop <;> simp [block, straysAll, strayReports]
  | reach, s :: ss => by
    rw [block, straysAll, Noted.notes_bind, coded_append, coded_reach hc, List.nil_append,
      Noted.notes_bind, coded_append, coded_stmt hc, Noted.notes_bind, Noted.notes_pure,
        List.append_nil, coded_block hc,
      strayReports_append, coded_append]

theorem coded_branches (hc : ∀ cut, (Fault.unreachable cut).code ≠ c) (inLoop : Bool) :
    ∀ bs : List Branch,
    coded c (branches inLoop bs).notes = coded c (strayReports inLoop (straysBranches bs))
  | [] => by cases inLoop <;> simp [branches, straysBranches, strayReports]
  | .mk _ b _ :: bs => by
    rw [branches, straysBranches, Noted.notes_bind, coded_append, coded_block hc, Noted.notes_bind,
      Noted.notes_pure, List.append_nil, coded_branches hc, strayReports_append, coded_append]

end

end

theorem code_strayReport (s : Stmt) : (strayReport s).code = .breakOutsideLoop := by
  cases s <;> rfl

theorem coded_strayReports (ss : List Stmt) :
    coded .breakOutsideLoop (ss.map strayReport) = ss.map strayReport := by
  simp [coded, List.filter_eq_self, code_strayReport]

theorem coded_strayReports_of_ne {c : Code} (hc : c ≠ .breakOutsideLoop) (ss : List Stmt) :
    coded c (ss.map strayReport) = [] := by
  simp [coded, List.filter_eq_nil_iff, code_strayReport, hc.symm]

/-! ## Certain returns -/

/-- After a cut nothing counts any more. -/
theorem certain_of_not_live (inLoop : Bool) : ∀ {reach : Reach}, reach ≠ .live → ∀ ss : List Stmt,
    (block inLoop reach ss).value.certain = false
  | _, _, [] => by rw [block]; rfl
  | reach, h, s :: ss => by
    have hafter : reach.after (stmt inLoop s).value.2 ≠ .live := by
      cases reach with
      | live => exact absurd rfl h
      | cut c => cases (stmt inLoop s).value.2 <;> simp [Reach.after]
      | dead => cases (stmt inLoop s).value.2 <;> simp [Reach.after]
    have hrest := certain_of_not_live inLoop hafter ss
    simp [block, hrest, h]

/-- Whether the first statement counts, and whether the others do. -/
theorem certain_cons (s : Stmt) (ss : List Stmt) (hcut : (stmt false s).value.2 ≠ none →
      (stmt false s).value.1.certain = true) :
    (block false .live (s :: ss)).value.certain =
      ((stmt false s).value.1.certain || (block false .live ss).value.certain) := by
  rw [block]
  cases hc : (stmt false s).value.2 with
  | none => simp [Reach.report, Reach.after, hc]
  | some c => simp [Reach.report, Reach.after, hc, hcut (by simp [hc])]

/-- What the analysis says of a statement without strays: a return is certain if no path reaches the
end of the statement, and what cuts off the next statement is a certain return. -/
structure Exact (s : Stmt) : Prop where
  certain : (stmt false s).value.1.certain = true ↔ ¬ Path s .falls
  cut : (stmt false s).value.2 ≠ none → (stmt false s).value.1.certain = true

mutual

theorem exact_stmt : ∀ s : Stmt, strays s = [] → Exact s
  | .ret .., _ =>
    ⟨⟨fun _ h => (by cases h), fun _ => by rw [stmt]; rfl⟩, fun _ => by rw [stmt]; rfl⟩
  | .decl _, _ => ⟨by simpa [stmt, Returns.none] using Path.decl, by simp [stmt]⟩
  | .assign .., _ => ⟨by simpa [stmt, Returns.none] using Path.assign, by simp [stmt]⟩
  | .expr _, _ => ⟨by simpa [stmt, Returns.none] using Path.expr, by simp [stmt]⟩
  | .brk _, h => by simp [strays] at h
  | .cont _, h => by simp [strays] at h
  | .cond bs none _, _ => ⟨by simpa [stmt] using Path.noBranch, by simp [stmt]⟩
  | .cond bs (some b) _, h => by
    rw [strays, List.append_eq_nil_iff] at h
    have hbs := certain_branches bs h.1
    have hb := certain_block b h.2
    refine ⟨?_, by simp [stmt]⟩
    rw [path_cond, not_or, ← hbs, ← hb, stmt]
    exact Bool.and_eq_true_iff
  | .loop .., _ => ⟨by simpa [stmt] using Path.loop .done, by simp [stmt]⟩
  | .each .., _ => ⟨by simpa [stmt] using Path.each .done, by simp [stmt]⟩

theorem certain_block : ∀ ss : List Stmt, straysAll ss = [] →
    ((block false .live ss).value.certain = true ↔ ¬ PathAll ss .falls)
  | [], _ => by simpa [block, Returns.none] using PathAll.nil
  | s :: ss, h => by
    rw [straysAll, List.append_eq_nil_iff] at h
    have hs := exact_stmt s h.1
    rw [certain_cons s ss hs.cut, Bool.or_eq_true_iff, hs.certain, certain_block ss h.2,
      pathAll_cons_falls, Classical.not_and_iff_not_or_not]

theorem certain_branches : ∀ bs : List Branch, straysBranches bs = [] →
    ((branches false bs).value.certain = true ↔ ¬ PathBranch bs .falls)
  | [], _ => ⟨fun _ h => (by cases h), fun _ => by rw [branches]; rfl⟩
  | .mk _ b _ :: bs, h => by
    rw [straysBranches, List.append_eq_nil_iff] at h
    rw [pathBranch_cons, not_or, ← certain_block b h.1, ← certain_branches bs h.2, branches]
    exact Bool.and_eq_true_iff

end

/-! ## Programs -/

/-- The callables of a program, in source order. -/
def callables (p : Program) : List FnDef :=
  p.items.filterMap fun
    | .fn f => some f
    | _ => none

/-- Is the callable one that has a value, without a certain return? -/
def lacksReturn (f : FnDef) : Bool :=
  f.sig.any Signature.returnsValue && !(body f.body).value.certain

theorem notes_callable (f : FnDef) : (callable f).notes = (body f.body).notes ++
    if lacksReturn f then [(Fault.notAllReturn f.name).report f.loc] else [] := by
  rw [callable, Noted.notes_bind, lacksReturn]
  split <;> rfl

theorem notes_forM {α : Type} (f : α → Noted Unit) (l : List α) :
    (l.forM f).notes = l.flatMap fun a => (f a).notes := by
  induction l with
  | nil => rfl
  | cons a l ih => rw [List.flatMap_cons, ← ih]; rfl

theorem notes_program (p : Program) :
    (program p).notes = (callables p).flatMap fun f => (callable f).notes := by
  rw [program, notes_forM, callables]
  induction p.items with
  | nil => rfl
  | cons it its ih => cases it <;> simp [ih]

/-- The reports of a program under a code, callable by callable. -/
theorem coded_program (c : Code) (p : Program) :
    coded c (program p).notes = (callables p).flatMap fun f => coded c (callable f).notes := by
  simp only [notes_program, coded, List.filter_flatMap]

theorem coded_stray_callable (f : FnDef) :
    coded .breakOutsideLoop (callable f).notes = (straysAll f.body).map strayReport := by
  have hbody : coded .breakOutsideLoop (body f.body).notes = (straysAll f.body).map strayReport :=
    (coded_block (fun cut => by cases cut <;> decide) false .live f.body).trans
      (coded_strayReports _)
  rw [notes_callable, coded_append, hbody, List.append_right_eq_self]
  split
  · exact coded_report ..
  · rfl

theorem coded_return_callable (f : FnDef) : coded .notAllPathsReturn (callable f).notes =
    if lacksReturn f then [(Fault.notAllReturn f.name).report f.loc] else [] := by
  have hbody : coded .notAllPathsReturn (body f.body).notes = [] :=
    (coded_block (fun cut => by cases cut <;> decide) false .live f.body).trans
      (coded_strayReports_of_ne (by decide) _)
  rw [notes_callable, coded_append, hbody, List.nil_append]
  split
  · exact coded_report ..
  · rfl

/-- In a body without strays, no path falls off the end if and only if every path returns. -/
theorem not_falls_iff_returns {ss : List Stmt} (h : straysAll ss = []) :
    ¬ PathAll ss .falls ↔ ∀ x, PathAll ss x → x = .returns := by
  constructor
  · intro hfalls x hx
    rcases hx.falls_or_returns h with rfl | rfl
    · exact absurd hx hfalls
    · rfl
  · intro hall hfalls
    cases hall _ hfalls

theorem lacksReturn_iff {f : FnDef} (h : straysAll f.body = []) :
    lacksReturn f = true ↔ f.sig.any Signature.returnsValue = true ∧ PathAll f.body .falls := by
  have hcertain := certain_block f.body h
  rw [lacksReturn, Bool.and_eq_true_iff, Bool.not_eq_true', body, ← Bool.not_eq_true, hcertain,
    Classical.not_not]

theorem flatMap_ite_eq {α β : Type} (p : α → Bool) (g : α → β) (l : List α) :
    (l.flatMap fun a => if p a then [g a] else []) = (l.filter p).map g := by
  induction l with
  | nil => rfl
  | cons a l ih => cases h : p a <;> simp [h, ih]

/-- The analysis reports each stray `break` or `continue` once, and a missing return for the
callables that lack one. For a callable without strays this is exact: a return is certain if and
only if no path falls off the end of its body, which is to say that every path through it returns;
so one that has a value is reported if and only if some path reaches the end. -/
theorem program_exact (p : Program) :
    coded .breakOutsideLoop (program p).notes =
        ((callables p).flatMap fun f => straysAll f.body).map strayReport ∧
      coded .notAllPathsReturn (program p).notes =
        ((callables p).filter lacksReturn).map (fun f => (Fault.notAllReturn f.name).report f.loc) ∧
      ∀ f : FnDef, straysAll f.body = [] →
        ((body f.body).value.certain = true ↔ ¬ PathAll f.body .falls) ∧
        ((body f.body).value.certain = true ↔ ∀ x, PathAll f.body x → x = .returns) ∧
        (lacksReturn f = true ↔ f.sig.any Signature.returnsValue = true ∧
          PathAll f.body .falls) := by
  refine ⟨?_, ?_, fun f h => ?_⟩
  · simp only [coded_program, coded_stray_callable, List.map_flatMap]
  · simp only [coded_program, coded_return_callable, flatMap_ite_eq]
  · have hcertain := certain_block f.body h
    exact ⟨hcertain, hcertain.trans (not_falls_iff_returns h), lacksReturn_iff h⟩

/-- A loop that is left by `break`, and a stray `continue` in a callable beside it. -/
def strayProgram : Program where
  imports := []
  items :=
    [.fn ⟨.function, "f", [], some ⟨[], .int⟩,
        [.loop (.bool true .nowhere) [.brk ⟨1, 1⟩, .ret none ⟨1, 2⟩] ⟨1, 0⟩], ⟨1, 3⟩⟩,
      .fn ⟨.function, "g", [], some ⟨[], .int⟩,
        [.cond [.mk (.bool true .nowhere) [.cont ⟨2, 1⟩] .nowhere] none ⟨2, 0⟩, .ret none ⟨2, 2⟩],
          ⟨2, 3⟩⟩]

theorem program_exact_stray :
    coded .breakOutsideLoop (program strayProgram).notes = [Fault.strayContinue.report ⟨2, 1⟩] ∧
      coded .notAllPathsReturn (program strayProgram).notes =
        [(Fault.notAllReturn "f").report ⟨1, 3⟩] ∧
      PathAll [.loop (.bool true .nowhere) [.brk ⟨1, 1⟩, .ret none ⟨1, 2⟩] ⟨1, 0⟩] .falls := by
  obtain ⟨hstray, hreturn, hall⟩ := program_exact strayProgram
  have hf := hall ⟨.function, "f", [], some ⟨[], .int⟩,
    [.loop (.bool true .nowhere) [.brk ⟨1, 1⟩, .ret none ⟨1, 2⟩] ⟨1, 0⟩], ⟨1, 3⟩⟩ rfl
  exact ⟨hstray, hreturn, (hf.2.2.1 rfl).2⟩

end SplFrontend.Flow
