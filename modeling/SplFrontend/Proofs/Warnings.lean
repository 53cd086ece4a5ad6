import SplFrontend.Proofs.Except
import SplFrontend.Proofs.Pipeline

/-!
# Denied warnings

What the passes make of a program does not depend on whether warnings are denied; only where the
barriers stop the work does. With warnings denied it stops at the first pass that reports anything,
with the reports of that pass. With warnings allowed these reports are not lost: whichever barrier
that run stops at, or if it passes all of them, they stand first among all that it reports.
-/

namespace SplFrontend

/-! ## Barriers -/

instance {deny : Bool} : DecidablePred (Admitted deny) :=
  fun _ => inferInstanceAs (Decidable (_ ∧ _))

/-- Takes the reports of the passes, one list for each, through the barriers after them. The work
stops with all reports so far where one of them is not admitted. -/
def barriers (deny : Bool) :
    List Diagnostic → List (List Diagnostic) → Except (List Diagnostic) (List Diagnostic)
  | seen, [] => .ok seen
  | seen, ds :: rest =>
    if ∀ d ∈ seen ++ ds, Admitted deny d then barriers deny (seen ++ ds) rest
      else .error (seen ++ ds)

/-- A pass and what follows it, where what follows is decided by the barriers to come. -/
theorem Sink.pass_bind_eq_barriers {α β : Type} {deny : Bool} (seen : List Diagnostic) {x : Noted α}
    {f : α × Sink → Except (List Diagnostic) β} {rest : List (List Diagnostic)}
    {g : List Diagnostic → β}
    (h : f (x.value, (Sink.empty deny).pushAll (seen ++ x.notes)) =
      (barriers deny (seen ++ x.notes) rest).map g) :
    ((Sink.empty deny).pushAll seen).pass x >>=
      f = (barriers deny seen (x.notes :: rest)).map g := by
  have hopen := blocked_eq_false_iff ((Sink.empty deny).pushAll (seen ++ x.notes))
  rw [open_pushAll] at hopen
  rw [pass, pushAll_pushAll, checkpoint, barriers]
  by_cases hall : ∀ d ∈ seen ++ x.notes, Admitted deny d
  · rw [if_pos hall, hopen.2 hall, ← h]
    rfl
  · rw [if_neg hall, if_pos (Bool.not_eq_false _ ▸ mt hopen.1 hall), entries_pushAll]
    rfl

/-- What each pass reports. -/
def Stages.reports (s : Stages) : List (List Diagnostic) :=
  [s.imported.notes, s.declared.notes, s.tagged.notes, s.grouped.notes,
    s.checked.notes, s.flow.notes]

/-- Resolution is decided by the barriers alone. -/
theorem resolve_eq_barriers (p : Program) (headers : HeaderTexts) (o : Options) :
    resolve p headers o = (barriers o.denyWarnings [] (stages p headers o).reports).map
      fun ds => { (stages p headers o).resolved with warnings := ds } := by
  refine Sink.pass_bind_eq_barriers [] ?_
  refine Sink.pass_bind_eq_barriers _ ?_
  refine Sink.pass_bind_eq_barriers _ ?_
  refine Sink.pass_bind_eq_barriers _ ?_
  refine Sink.pass_bind_eq_barriers _ ?_
  refine Sink.pass_bind_eq_barriers _ ?_
  simp only [barriers, Except.map, Sink.entries_pushAll, Sink.empty, List.nil_append, stages,
    Stages.resolved]
  rfl

/-! ## Two runs -/

/-- All that the barriers hand out in the end. -/
def ending : Except (List Diagnostic) (List Diagnostic) → List Diagnostic
  | .ok ds | .error ds => ds

section

variable {deny : Bool} {ds : List Diagnostic}

/-- What was reported first stays in front. -/
theorem prefix_ending_barriers (deny : Bool) (reports : List (List Diagnostic))
    (seen : List Diagnostic) :
    seen <+: ending (barriers deny seen reports) := by
  induction reports generalizing seen with
  | nil => exact List.prefix_rfl
  | cons ds rest ih =>
    rw [barriers]
    split
    · exact (List.prefix_append seen ds).trans (ih (seen ++ ds))
    · exact List.prefix_append seen ds

/-- Either no pass reports anything, or the first reports stop the work where warnings are denied,
and come first where they are allowed. -/
theorem barriers_cases (reports : List (List Diagnostic)) :
    (∀ deny, barriers deny [] reports = .ok []) ∨
      ∃ ds, ds ≠ [] ∧ barriers true [] reports = .error ds ∧
        ds <+: ending (barriers false [] reports) := by
  induction reports with
  | nil => exact .inl fun _ => rfl
  | cons ds rest ih =>
    by_cases hds : ds = []
    · subst hds
      have hskip (deny : Bool) : barriers deny [] ([] :: rest) = barriers deny [] rest :=
        if_pos (List.forall_mem_nil _)
      simpa only [hskip] using ih
    · refine .inr ⟨ds, hds, ?_, ?_⟩
      · obtain ⟨d, hd⟩ := List.exists_mem_of_ne_nil ds hds
        exact if_neg fun hall => absurd (hall d hd).2 (by decide)
      · rw [barriers]
        split
        · exact prefix_ending_barriers false rest ds
        · exact List.prefix_rfl

/-- Where warnings are denied, success is success without a report. -/
theorem barriers_true_eq_ok_iff {reports : List (List Diagnostic)} :
    barriers true [] reports = .ok ds ↔ barriers false [] reports = .ok ds ∧ ds = [] := by
  obtain hnone | ⟨es, hes, hdenied, hallowed⟩ := barriers_cases reports
  · simp only [hnone, Except.ok.injEq, eq_comm, and_self]
  · rw [hdenied]
    refine ⟨fun h => (by cases h), ?_⟩
    rintro ⟨hok, rfl⟩
    rw [hok] at hallowed
    exact absurd (List.prefix_nil.1 hallowed) hes

theorem warning_of_barriers {reports : List (List Diagnostic)} {seen : List Diagnostic}
    (hseen : ∀ d ∈ seen, d.isError = false) (h : barriers deny seen reports = .ok ds) :
    ∀ d ∈ ds, d.isError = false := by
  induction reports generalizing seen with
  | nil =>
    cases h
    exact hseen
  | cons es rest ih =>
    rw [barriers] at h
    split at h
    next hall => exact ih (fun d hd => (hall d hd).1) h
    · cases h

theorem exists_error_of_barriers {reports : List (List Diagnostic)} {seen : List Diagnostic}
    (h : barriers false seen reports = .error ds) : ∃ d ∈ ds, d.isError = true := by
  induction reports generalizing seen with
  | nil => cases h
  | cons es rest ih =>
    rw [barriers] at h
    split at h
    · exact ih h
    next hall =>
      cases h
      simp only [Admitted, and_true, Classical.not_forall, Bool.not_eq_false, exists_prop] at hall
      obtain ⟨d, hd, herror⟩ := hall
      exact ⟨d, hd, herror⟩

end

/-- All that a run reports in the end: why it fails, or the warnings that it succeeds with. -/
def reported : Except (List Diagnostic) Resolved → List Diagnostic
  | .ok r => r.warnings
  | .error ds => ds

theorem reported_map (x : Except (List Diagnostic) (List Diagnostic)) (r : Resolved) :
    reported (x.map fun ds => { r with warnings := ds }) = ending x := by
  cases x <;> rfl

/-- Denying warnings only stops the work earlier: it then succeeds exactly where it would have
without a warning, and with the same result; otherwise what it reports comes first in what would
have been reported. Where warnings are allowed, success comes with warnings only and failure with an
error. -/
theorem resolve_denying (p : Program) (headers : HeaderTexts) (o : Options) :
    let denied := resolve p headers { o with denyWarnings := true }
    let allowed := resolve p headers { o with denyWarnings := false }
    (∀ r, denied = .ok r ↔ allowed = .ok r ∧ r.warnings = []) ∧
    (∀ ds, denied = .error ds → ds <+: reported allowed) ∧
    (∀ r, allowed = .ok r → ∀ d ∈ r.warnings, d.isError = false) ∧
    ∀ ds, allowed = .error ds → ∃ d ∈ ds, d.isError = true := by
  have hresolve (deny : Bool) : resolve p headers { o with denyWarnings := deny } =
      (barriers deny [] (stages p headers o).reports).map
        fun ds => { (stages p headers o).resolved with warnings := ds } :=
    resolve_eq_barriers p headers { o with denyWarnings := deny }
  simp only [hresolve, map_eq_ok_iff, map_eq_error_iff, reported_map]
  generalize stages p headers o = s
  refine ⟨fun r => ?_, fun ds hds => ?_, ?_, fun ds => exists_error_of_barriers⟩
  · simp only [barriers_true_eq_ok_iff]
    constructor
    · rintro ⟨_, ⟨hok, rfl⟩, rfl⟩
      exact ⟨⟨[], hok, rfl⟩, rfl⟩
    · rintro ⟨⟨ds, hok, rfl⟩, hwarnings⟩
      exact ⟨ds, ⟨hok, hwarnings⟩, rfl⟩
  · obtain hnone | ⟨es, -, hdenied, hallowed⟩ := barriers_cases s.reports
    · cases (hnone true).symm.trans hds
    · cases hdenied.symm.trans hds
      exact hallowed
  · rintro _ ⟨ds, hds, rfl⟩
    exact warning_of_barriers (List.forall_mem_nil _) hds

/-- A variable that hides a global is reported by an early pass, and a wrong result by a late one;
the warning alone fails the run where it is denied. -/
theorem resolve_denying_shadow :
    (∃ p, Program.ofText "Int x = 1; f() :: -> Int \x7b Int x = 2; return True; \x7d" = .ok p ∧
      (∃ ds, resolve p [] { denyWarnings := true } = .error ds ∧
        ds <+: reported (resolve p [] { denyWarnings := false })) ∧
      ∃ ds, resolve p [] { denyWarnings := false } = .error ds ∧ ∃ d ∈ ds, d.isError = true) ∧
    ∃ p, Program.ofText "Int x = 1; f() :: -> Int \x7b Int x = 2; return x; \x7d" = .ok p ∧
      ∃ r, resolve p [] { denyWarnings := false } = .ok r ∧ r.warnings ≠ [] ∧
        (∀ d ∈ r.warnings, d.isError = false) ∧ resolve p [] { denyWarnings := true } ≠ .ok r := by
  have hcheck (x : Except (List Diagnostic) Resolved) (h : x.isOk = false) :
      ∃ ds, x = .error ds := by
    cases x with
    | ok r => cases h
    | error ds => exact ⟨ds, rfl⟩
  constructor
  · refine exists_ok_of_check
      (c := fun p : Program => !(resolve p [] { denyWarnings := true }).isOk &&
      !(resolve p [] { denyWarnings := false }).isOk) (by decide +kernel) fun p _ h => ?_
    simp only [Bool.and_eq_true, Bool.not_eq_true'] at h
    obtain ⟨-, hprefix, -, herror⟩ := resolve_denying p [] {}
    obtain ⟨ds, hds⟩ := hcheck _ h.1
    obtain ⟨es, hes⟩ := hcheck _ h.2
    exact ⟨⟨ds, hds, hprefix ds hds⟩, es, hes, herror es hes⟩
  · refine exists_ok_of_check
      (c := fun p : Program => (resolve p [] { denyWarnings := false }).toOption.any
      fun r => !r.warnings.isEmpty) (by decide +kernel) fun p _ h => ?_
    obtain ⟨hiff, -, hwarning, -⟩ := resolve_denying p [] {}
    refine exists_ok_of_check h fun r hr hsome => ?_
    have hne : r.warnings ≠ [] := by simpa using hsome
    exact ⟨hne, hwarning r hr, fun hdenied => hne ((hiff r).1 hdenied).2⟩

end SplFrontend
