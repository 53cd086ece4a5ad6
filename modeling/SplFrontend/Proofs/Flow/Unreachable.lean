import SplFrontend.Proofs.Flow

/-!
# Unreachable statements

A statement ends its block if it is a `return`, a `break` or a `continue`, or a condition that
returns in each of its blocks (`Ends`). The analysis reports one statement of a block, the first one
after the first that ends the block, if there is one (`Due`); so each block, at whatever depth it
stands, gives rise to one report at most, and the reports of some statements are those of their
blocks. What is reported is not reached: a path that enters the block does not arrive there
(`Arrives`).

A condition may return in each of its blocks although some paths through it leave by a `break` in a
deeper block. This does no harm, as no path falls through a block that returns in this sense, which
is what the induction carries.
-/

namespace SplFrontend.Flow

/-! ## Statements that end a block -/

/-- Is the statement a `break` or a `continue`? -/
def leavesLoop : Stmt → Bool
  | .brk _ | .cont _ => true
  | _ => false

mutual

/-- The statement returns, or it is a condition that returns in each of its blocks. -/
inductive Returning : Stmt → Prop
  | ret {e l} : Returning (.ret e l)
  | cond {bs b l} : ReturningBranches bs → ReturningBlock b → Returning (.cond bs (some b) l)

/-- Some statement of the block returns, and before it there is no `break` or `continue` in the
block itself. -/
inductive ReturningBlock : List Stmt → Prop
  | here {s ss} : Returning s → ReturningBlock (s :: ss)
  | later {s ss} : leavesLoop s = false → ReturningBlock ss → ReturningBlock (s :: ss)

/-- The block of every branch returns. -/
inductive ReturningBranches : List Branch → Prop
  | nil : ReturningBranches []
  | cons {e b l bs} : ReturningBlock b → ReturningBranches bs → ReturningBranches (.mk e b l :: bs)

end

/-- The statement ends its block. -/
inductive Ends : Stmt → Cut → Prop
  | ret {e l} : Ends (.ret e l) .ret
  | brk {l} : Ends (.brk l) .leaveLoop
  | cont {l} : Ends (.cont l) .leaveLoop
  | branches {bs b l} : Returning (.cond bs (some b) l) → Ends (.cond bs (some b) l) .branches

theorem Returning.leavesLoop_eq {s : Stmt} (h : Returning s) : leavesLoop s = false := by
  cases h <;> rfl

theorem returningBlock_cons {s : Stmt} {ss : List Stmt} :
    ReturningBlock (s :: ss) ↔ Returning s ∨ leavesLoop s = false ∧ ReturningBlock ss := by
  constructor
  · intro h
    cases h with
    | here hs => exact .inl hs
    | later hs hss => exact .inr ⟨hs, hss⟩
  · exact fun h => h.elim .here fun h => .later h.1 h.2

theorem returningBranches_cons {e : Expr} {b : List Stmt} {l : Loc} {bs : List Branch} :
    ReturningBranches (.mk e b l :: bs) ↔ ReturningBlock b ∧ ReturningBranches bs := by
  constructor
  · intro h
    cases h with
    | cons hb hbs => exact ⟨hb, hbs⟩
  · exact fun h => .cons h.1 h.2

theorem returning_cond {bs : List Branch} {b : List Stmt} {l : Loc} :
    Returning (.cond bs (some b) l) ↔ ReturningBranches bs ∧ ReturningBlock b := by
  constructor
  · intro h
    cases h with
    | cond hbs hb => exact ⟨hbs, hb⟩
  · exact fun h => .cond h.1 h.2

mutual

theorem Returning.not_falls : ∀ {s : Stmt}, Returning s → ¬ Path s .falls
  | _, .ret, hp => by cases hp
  | _, .cond hbs hb, hp => (path_cond.1 hp).elim hbs.not_falls hb.not_falls

/-- No path falls through a block that returns. -/
theorem ReturningBlock.not_falls : ∀ {ss : List Stmt}, ReturningBlock ss → ¬ PathAll ss .falls
  | _, .here hs, hp => hs.not_falls (pathAll_cons_falls.1 hp).1
  | _, .later _ hss, hp => hss.not_falls (pathAll_cons_falls.1 hp).2

theorem ReturningBranches.not_falls :
    ∀ {bs : List Branch}, ReturningBranches bs → ¬ PathBranch bs .falls
  | _, .nil, hp => by cases hp
  | _, .cons hb hbs, hp => (pathBranch_cons.1 hp).elim hb.not_falls hbs.not_falls

end

/-- No path goes on after a statement that ends its block. -/
theorem Ends.not_falls {s : Stmt} {c : Cut} (h : Ends s c) : ¬ Path s .falls := by
  intro hp
  cases h with
  | ret | brk | cont => cases hp
  | branches hs => exact hs.not_falls hp

/-! ## What the analysis sees of them -/

/-- Only a `break` or a `continue` cuts off what follows without a certain return. -/
theorem certain_or_isNone (inLoop : Bool) (s : Stmt) :
    ((stmt inLoop s).value.1.certain || (stmt inLoop s).value.2.isNone) = !leavesLoop s := by
  cases s with
  | cond bs o l =>
    cases o with
    | none => simp [stmt, leavesLoop]
    | some b =>
      simp only [stmt, Noted.value_bind, Noted.value_pure, leavesLoop]
      split <;> simp_all
  | brk | cont => cases inLoop <;> rfl
  | _ => simp [stmt, leavesLoop, Returns.none]

/-- What a statement adds to the certainty of a block. -/
theorem certain_block_cons (inLoop : Bool) (s : Stmt) (ss : List Stmt) :
    (block inLoop .live (s :: ss)).value.certain =
      (!leavesLoop s &&
        ((stmt inLoop s).value.1.certain || (block inLoop .live ss).value.certain)) := by
  rw [← certain_or_isNone inLoop s, ← Bool.or_and_distrib_left, block]
  cases hc : (stmt inLoop s).value.2 with
  | none => simp [Reach.report, Reach.after, hc]
  | some c => simp [Reach.report, Reach.after, hc, certain_of_not_live]

mutual

theorem certain_iff_returning (inLoop : Bool) : ∀ s : Stmt,
    (stmt inLoop s).value.1.certain = true ↔ Returning s
  | .ret .. => ⟨fun _ => .ret, fun _ => by rw [stmt]; rfl⟩
  | .decl _ | .assign .. | .expr _ | .loop .. | .each .. | .cond _ none _ => by
    refine ⟨fun h => ?_, fun h => by cases h⟩
    simp [stmt, Returns.none] at h
  | .brk _ | .cont _ => ⟨fun h => (by cases inLoop <;> cases h), fun h => by cases h⟩
  | .cond bs (some b) l => by
    rw [returning_cond, ← certain_iff_returningBranches inLoop bs,
      ← certain_iff_returningBlock inLoop b, stmt]
    exact Bool.and_eq_true_iff

theorem certain_iff_returningBlock (inLoop : Bool) : ∀ ss : List Stmt,
    (block inLoop .live ss).value.certain = true ↔ ReturningBlock ss
  | [] => ⟨fun h => (by simp [block, Returns.none] at h), fun h => by cases h⟩
  | s :: ss => by
    rw [returningBlock_cons, certain_block_cons, Bool.and_eq_true, Bool.not_eq_true',
      Bool.or_eq_true, certain_iff_returning inLoop s, certain_iff_returningBlock inLoop ss]
    constructor
    · rintro ⟨hs, h⟩
      exact h.imp id fun hss => ⟨hs, hss⟩
    · rintro (hs | ⟨hs, hss⟩)
      · exact ⟨hs.leavesLoop_eq, .inl hs⟩
      · exact ⟨hs, .inr hss⟩

theorem certain_iff_returningBranches (inLoop : Bool) : ∀ bs : List Branch,
    (branches inLoop bs).value.certain = true ↔ ReturningBranches bs
  | [] => ⟨fun _ => .nil, fun _ => by rw [branches]; rfl⟩
  | .mk _ b _ :: bs => by
    rw [returningBranches_cons, ← certain_iff_returningBlock inLoop b,
      ← certain_iff_returningBranches inLoop bs, branches]
    exact Bool.and_eq_true_iff

end

/-- The analysis knows the statements that end a block. -/
theorem cut_eq_some_iff (inLoop : Bool) (s : Stmt) (c : Cut) :
    (stmt inLoop s).value.2 = some c ↔ Ends s c := by
  cases s with
  | cond bs o l =>
    cases o with
    | none => exact ⟨fun h => (by simp [stmt] at h), fun h => by cases h⟩
    | some b =>
      have hcertain := certain_iff_returning inLoop (.cond bs (some b) l)
      simp only [stmt, Noted.value_bind, Noted.value_pure] at hcertain ⊢
      constructor
      · intro h
        split at h
        next hc =>
          cases h
          exact .branches (hcertain.1 hc)
        next => cases h
      · rintro ⟨⟩
        next h => rw [if_pos (hcertain.2 h)]
  | ret e l =>
    simp only [stmt, Noted.value_pure, Option.some.injEq]
    exact ⟨fun h => h ▸ .ret, fun h => by cases h; rfl⟩
  | brk l =>
    simp only [stmt, Noted.value_note_if, Noted.value_pure, Option.some.injEq]
    exact ⟨fun h => h ▸ .brk, fun h => by cases h; rfl⟩
  | cont l =>
    simp only [stmt, Noted.value_note_if, Noted.value_pure, Option.some.injEq]
    exact ⟨fun h => h ▸ .cont, fun h => by cases h; rfl⟩
  | _ => exact ⟨fun h => (by simp [stmt] at h), fun h => by cases h⟩

/-! ## What a block is due -/

/-- How the statement ends its block, if it does. -/
def ending (s : Stmt) : Option Cut := (stmt false s).value.2

theorem ending_eq_some_iff {s : Stmt} {c : Cut} : ending s = some c ↔ Ends s c :=
  cut_eq_some_iff false s c

theorem cut_eq_ending (inLoop : Bool) (s : Stmt) : (stmt inLoop s).value.2 = ending s :=
  Option.ext fun c => (cut_eq_some_iff inLoop s c).trans ending_eq_some_iff.symm

/-- The report that a statement cut off by another one is due. -/
def cutOff (c : Cut) (t : Stmt) : Diagnostic := (Fault.unreachable c).report t.loc

/-- The report that a block itself is due. -/
def warning : List Stmt → Option Diagnostic
  | [] => none
  | s :: ss =>
    match ending s with
    | some c => ss.head?.map (cutOff c)
    | none => warning ss

/-- Of a block, the first statement after the first one that ends the block, and what follows it. -/
inductive Due : List Stmt → Cut → Stmt → List Stmt → Prop
  | next {s t rest c} : Ends s c → Due (s :: t :: rest) c t rest
  | later {s ss c t rest} : (∀ c', ¬ Ends s c') → Due ss c t rest → Due (s :: ss) c t rest

theorem warning_eq_some_iff {d : Diagnostic} {b : List Stmt} :
    warning b = some d ↔ ∃ c t rest, Due b c t rest ∧ d = cutOff c t := by
  induction b with
  | nil =>
    refine ⟨fun h => (by cases h), ?_⟩
    rintro ⟨_, _, _, h, -⟩
    cases h
  | cons s ss ih =>
    rw [warning]
    cases hs : ending s with
    | some c =>
      rw [ending_eq_some_iff] at hs
      constructor
      · intro h
        obtain ⟨t, ht, rfl⟩ := Option.map_eq_some_iff.1 h
        obtain ⟨rest, rfl⟩ := List.head?_eq_some_iff.1 ht
        exact ⟨c, t, rest, .next hs, rfl⟩
      · rintro ⟨c', t, rest, hdue, rfl⟩
        cases hdue with
        | next hs' =>
          rw [← ending_eq_some_iff] at hs hs'
          cases hs.symm.trans hs'
          rfl
        | later hnone _ => exact absurd hs (hnone c)
    | none =>
      have hnone : ∀ c, ¬ Ends s c := fun c hc => by
        rw [← ending_eq_some_iff, hs] at hc
        cases hc
      rw [ih]
      constructor
      · rintro ⟨c, t, rest, hdue, hd⟩
        exact ⟨c, t, rest, .later hnone hdue, hd⟩
      · rintro ⟨c, t, rest, hdue, hd⟩
        cases hdue with
        | next hs' => exact absurd hs' (hnone c)
        | later _ hdue => exact ⟨c, t, rest, hdue, hd⟩

/-- A statement is due a report as soon as one follows a statement that ends the block. -/
theorem exists_due {s : Stmt} {c : Cut} (hs : Ends s c) (t : Stmt) (rest : List Stmt) :
    ∀ front : List Stmt,
    ∃ c' t' rest', Due (front ++ s :: t :: rest) c' t' rest'
  | [] => ⟨c, t, rest, .next hs⟩
  | s' :: front => by
    by_cases hs' : ∃ c', Ends s' c'
    · obtain ⟨c', hs'⟩ := hs'
      cases front with
      | nil => exact ⟨c', s, t :: rest, .next hs'⟩
      | cons t' front => exact ⟨c', t', front ++ s :: t :: rest, .next hs'⟩
    · obtain ⟨c', t', rest', hdue⟩ := exists_due hs t rest front
      exact ⟨c', t', rest', .later (fun c hc => hs' ⟨c, hc⟩) hdue⟩

theorem Due.exists_ends {b rest : List Stmt} {c : Cut} {t : Stmt} (h : Due b c t rest) :
    ∃ front s, b = front ++ s :: t :: rest ∧ Ends s c := by
  induction h with
  | @next s t rest c hs => exact ⟨[], s, rfl, hs⟩
  | @later s ss c t rest _ _ ih =>
    obtain ⟨front, s', rfl, hs'⟩ := ih
    exact ⟨s :: front, s', rfl, hs'⟩

/-! ## What paths reach -/

/-- Some path that enters the block arrives at the rest of it. -/
inductive Arrives (b : List Stmt) : List Stmt → Prop
  | enter : Arrives b b
  | next {s rest} : Arrives b (s :: rest) → Path s .falls → Arrives b rest

theorem Arrives.suffix {b rest : List Stmt} (h : Arrives b rest) : rest <:+ b := by
  induction h with
  | enter => exact List.suffix_rfl
  | next _ _ ih => exact (List.suffix_cons _ _).trans ih

/-- A path arrives after a statement only through it. -/
theorem Arrives.falls {front rest : List Stmt} {s : Stmt} (h : Arrives (front ++ s :: rest) rest) :
    Path s .falls := by
  generalize hb : front ++ s :: rest = b at h
  cases h with
  | enter =>
    have hlength := congrArg List.length hb
    simp at hlength
    omega
  | @next s' _ h hs' =>
    -- both statements stand before the same rest of the block
    have hsuffix : s :: rest <:+ b := ⟨front, hb⟩
    have hsame : s' :: rest = s :: rest :=
      (List.suffix_of_suffix_length_le h.suffix hsuffix (Nat.le_refl _)).eq_of_length rfl
    exact (List.cons.inj hsame).1 ▸ hs'

/-- No path that enters the block arrives at the statement that is due a report. -/
theorem Due.not_arrives {b rest : List Stmt} {c : Cut} {t : Stmt} (h : Due b c t rest) :
    ¬ Arrives b (t :: rest) := by
  obtain ⟨front, s, rfl, hs⟩ := h.exists_ends
  exact fun harrives => hs.not_falls harrives.falls

/-! ## The blocks in a block -/

mutual

/-- The blocks in a statement, at whatever depth. -/
def blocks : Stmt → List (List Stmt)
  | .cond bs none _ => blocksBranches bs
  | .cond bs (some b) _ => blocksBranches bs ++ b :: blocksAll b
  | .loop _ b _ | .each _ _ b _ => b :: blocksAll b
  | .decl _ | .assign .. | .ret .. | .brk _ | .cont _ | .expr _ => []

/-- The blocks in the statements of a block. -/
def blocksAll : List Stmt → List (List Stmt)
  | [] => []
  | s :: ss => blocks s ++ blocksAll ss

/-- The blocks of branches, and those in them. -/
def blocksBranches : List Branch → List (List Stmt)
  | [] => []
  | .mk _ b _ :: bs => (b :: blocksAll b) ++ blocksBranches bs

end

/-- The reports of unreachable statements. -/
def unreachables (ds : List Diagnostic) : List Diagnostic :=
  ds.filter fun d => d.code ∈
    [.unreachableStmtBranches, .unreachableStmtContBreak, .unreachableStmtReturn]

@[simp] theorem unreachables_nil : unreachables [] = [] := rfl

@[simp] theorem unreachables_append (ds es : List Diagnostic) :
    unreachables (ds ++ es) = unreachables ds ++ unreachables es := List.filter_append ..

/-- The report that the rest of a block is due, given how far the walk has come. -/
def warningFrom : Reach → List Stmt → Option Diagnostic
  | .live, ss => warning ss
  | .cut c, ss => ss.head?.map (cutOff c)
  | .dead, _ => none

theorem filterMap_warning_cons (b : List Stmt) (bs : List (List Stmt)) :
    (b :: bs).filterMap warning = (warningFrom .live b).toList ++ bs.filterMap warning := by
  rw [List.filterMap_cons, warningFrom]
  cases warning b <;> rfl

theorem unreachables_reach (reach : Reach) (l : Loc) : unreachables (reach.report l).notes =
    match reach with
    | .cut c => [(Fault.unreachable c).report l]
    | _ => [] := by
  cases reach with
  | cut c => cases c <;> rfl
  | live => rfl
  | dead => rfl

/-- One statement of a block takes the walk on. -/
theorem warningFrom_cons (reach : Reach) (s : Stmt) (ss : List Stmt) :
    (warningFrom reach (s :: ss)).toList =
      unreachables (reach.report s.loc).notes ++
        (warningFrom (reach.after (ending s)) ss).toList := by
  rw [unreachables_reach]
  cases reach with
  | live =>
    rw [warningFrom, warning]
    cases ending s <;> rfl
  | cut c => cases ending s <;> rfl
  | dead => cases ending s <;> rfl

mutual

theorem unreachables_stmt (inLoop : Bool) : ∀ s : Stmt,
    (unreachables (stmt inLoop s).notes).Perm ((blocks s).filterMap warning)
  | .ret .. | .decl .. | .assign .. | .expr .. => .nil
  | .brk _ | .cont _ => by cases inLoop <;> exact .nil
  | .cond bs none _ => by
    rw [stmt, blocks, Noted.notes_bind, Noted.notes_pure, List.append_nil]
    exact unreachables_branches inLoop bs
  | .cond bs (some b) _ => by
    rw [stmt, blocks, Noted.notes_bind, Noted.notes_bind, Noted.notes_pure, List.append_nil,
      unreachables_append, List.filterMap_append, filterMap_warning_cons]
    exact (unreachables_branches inLoop bs).append (unreachables_block inLoop .live b)
  | .loop _ b _ | .each _ _ b _ => by
    rw [stmt, blocks, Noted.notes_bind, Noted.notes_pure, List.append_nil, filterMap_warning_cons]
    exact unreachables_block true .live b

/-- The reports of a block are its own one and those of the blocks in it. -/
theorem unreachables_block (inLoop : Bool) : ∀ (reach : Reach) (ss : List Stmt),
    (unreachables (block inLoop reach ss).notes).Perm
      ((warningFrom reach ss).toList ++ (blocksAll ss).filterMap warning)
  | reach, [] => by cases reach <;> exact .nil
  | reach, s :: ss => by
    have hs := unreachables_stmt inLoop s
    have hss := unreachables_block inLoop (reach.after (ending s)) ss
    rw [block, blocksAll, warningFrom_cons, List.filterMap_append]
    simp only [Noted.notes_bind, Noted.notes_pure, List.append_nil, unreachables_append,
      cut_eq_ending, List.append_assoc]
    refine List.Perm.append_left _ ((hs.append hss).trans ?_)
    -- the block's own report comes before or after those in its first statement
    rw [← List.append_assoc, ← List.append_assoc]
    exact List.perm_append_comm.append_right _

theorem unreachables_branches (inLoop : Bool) : ∀ bs : List Branch,
    (unreachables (branches inLoop bs).notes).Perm ((blocksBranches bs).filterMap warning)
  | [] => .nil
  | .mk _ b _ :: bs => by
    rw [branches, blocksBranches, List.filterMap_append, filterMap_warning_cons]
    simp only [Noted.notes_bind, Noted.notes_pure, List.append_nil, unreachables_append]
    exact (unreachables_block inLoop .live b).append (unreachables_branches inLoop bs)

end

/-- The unreachable statements that the analysis reports are those that the blocks are due, one for
a block at most: the first statement after the first one that ends the block. A block is due a
report as soon as a statement follows one that ends it, and no path that enters the block arrives at
the statement that is reported. -/
theorem unreachable_exact (inLoop : Bool) (ss : List Stmt) :
    (unreachables (block inLoop .live ss).notes).Perm ((ss :: blocksAll ss).filterMap warning) ∧
    ∀ b ∈ ss :: blocksAll ss,
      (∀ d, warning b = some d ↔ ∃ c t rest, Due b c t rest ∧ d = cutOff c t) ∧
      ((∃ d, warning b = some d) ↔ ∃ front s t rest c, b = front ++ s :: t :: rest ∧ Ends s c) ∧
      ∀ c t rest, Due b c t rest → ¬ Arrives b (t :: rest) := by
  refine ⟨?_, fun b _ => ⟨fun d => warning_eq_some_iff, ⟨?_, ?_⟩, fun c t rest h => h.not_arrives⟩⟩
  · rw [filterMap_warning_cons]
    exact unreachables_block inLoop .live ss
  · rintro ⟨d, hd⟩
    obtain ⟨c, t, rest, hdue, -⟩ := warning_eq_some_iff.1 hd
    obtain ⟨front, s, hb, hs⟩ := hdue.exists_ends
    exact ⟨front, s, t, rest, c, hb, hs⟩
  · rintro ⟨front, s, t, rest, c, rfl, hs⟩
    obtain ⟨c', t', rest', hdue⟩ := exists_due hs t rest front
    exact ⟨cutOff c' t', warning_eq_some_iff.2 ⟨c', t', rest', hdue, rfl⟩⟩

/-- A condition in a loop that returns in both of its blocks, although one path through it leaves
the loop, with two statements after it. -/
def leavingLoop : List Stmt :=
  [.cond
    [.mk (.bool true .nowhere) [.cond [.mk (.bool true .nowhere) [.brk ⟨2, 9⟩] ⟨2, 7⟩] none ⟨2, 5⟩,
      .ret none ⟨2, 11⟩] ⟨2, 3⟩] (some [.ret none ⟨3, 3⟩]) ⟨2, 1⟩,
    .cont ⟨4, 1⟩, .brk ⟨5, 1⟩]

theorem due_leavingLoop : Due leavingLoop .branches (.cont ⟨4, 1⟩) [.brk ⟨5, 1⟩] :=
  .next (.branches (.cond (.cons (.later rfl (.here .ret)) .nil) (.here .ret)))

/-- The loop is reported once, where the condition has returned, and so is the block around it,
after its own return. The `continue` in the loop is not reached, though the loop is left by
`break`. -/
theorem unreachable_exact_leaving :
    (unreachables (block false .live
        [.loop (.bool true .nowhere) leavingLoop ⟨1, 1⟩, .ret none ⟨6, 1⟩,
          .ret none ⟨7, 1⟩]).notes).Perm
      [cutOff .branches (.cont ⟨4, 1⟩), cutOff .ret (.ret none ⟨7, 1⟩)] ∧
    PathAll leavingLoop .breaks ∧ ¬ Arrives leavingLoop [.cont ⟨4, 1⟩, .brk ⟨5, 1⟩] := by
  obtain ⟨hreports, hblocks⟩ := unreachable_exact false
    [.loop (.bool true .nowhere) leavingLoop ⟨1, 1⟩, .ret none ⟨6, 1⟩, .ret none ⟨7, 1⟩]
  obtain ⟨-, -, hsound⟩ := hblocks leavingLoop (List.mem_cons_of_mem _ List.mem_cons_self)
  refine ⟨hreports.trans (.swap ..), ?_, hsound _ _ _ due_leavingLoop⟩
  exact .leave (.branch (.here (.leave (.branch (.here (.leave .brk (by decide)))) (by decide))))
    (by decide)

end SplFrontend.Flow
