import SplFrontend.Proofs.Expansion
import SplFrontend.Resolution

/-!
# The pipeline as a whole

A barrier lets a pass through if and only if everything reported so far is admitted: no error, and
no warning where warnings are denied. So resolution succeeds if and only if all reports of all
passes are admitted, and what it returns is then read off the passes (`resolve_eq_ok_iff`).
-/

namespace SplFrontend

/-- May the work go on after the report? -/
def Admitted (deny : Bool) (d : Diagnostic) : Prop := d.isError = false ∧ deny = false

theorem Admitted.congr {deny : Bool} {d e : Diagnostic} (h : d.code = e.code) :
    Admitted deny d ↔ Admitted deny e := by
  simp only [Admitted, Diagnostic.isError, h]

/-- Reports of the same codes are admitted together. -/
theorem admitted_of_codes {deny : Bool} {ds es : List Diagnostic}
    (h : ds.map Diagnostic.code = es.map Diagnostic.code) (he : ∀ e ∈ es, Admitted deny e) :
    ∀ d ∈ ds, Admitted deny d := by
  intro d hd
  have hmem : d.code ∈ es.map Diagnostic.code := h ▸ List.mem_map_of_mem hd
  obtain ⟨e, hmem, hcode⟩ := List.mem_map.1 hmem
  exact (Admitted.congr hcode).1 (he e hmem)

namespace Sink

theorem denyWarnings_pushAll (s : Sink) (ds : List Diagnostic) :
    (s.pushAll ds).denyWarnings = s.denyWarnings := by
  induction ds generalizing s with
  | nil => rfl
  | cons d ds ih => exact ih (s.push d)

theorem fatal_pushAll (s : Sink) (ds : List Diagnostic) :
    (s.pushAll ds).fatal = (s.fatal || ds.any fun d => d.code.isFatal) := by
  induction ds generalizing s with
  | nil => exact (Bool.or_false _).symm
  | cons d ds ih =>
    show ((s.push d).pushAll ds).fatal = _
    rw [ih, push, List.any_cons, Bool.or_assoc]

/-- Nothing in the sink stops the work. -/
def Open (s : Sink) : Prop := s.fatal = false ∧ ∀ d ∈ s.entries, Admitted s.denyWarnings d

theorem isError_of_isFatal {c : Code} (h : c.isFatal = true) : c.isError = true := by
  cases c <;> first | rfl | cases h

theorem blocked_eq_false_iff (s : Sink) : s.blocked = false ↔ s.Open := by
  simp only [blocked, hasErrors, Bool.or_eq_false_iff, Bool.and_eq_false_iff, List.any_eq_false,
    Bool.not_eq_true, Bool.not_eq_false', Open, Admitted]
  constructor
  · rintro ⟨⟨hf, he⟩, hd⟩
    refine ⟨hf, fun d hd' => ⟨he d hd', ?_⟩⟩
    obtain hd | hw := hd
    · exact hd
    · exact absurd ((he d hd').symm.trans (hw d hd')) (by decide)
  · rintro ⟨hf, ha⟩
    refine ⟨⟨hf, fun d hd => (ha d hd).1⟩, ?_⟩
    cases he : s.entries with
    | nil => exact .inr nofun
    | cons d ds => exact .inl (ha d (he ▸ List.mem_cons_self)).2

theorem open_pushAll (deny : Bool) (ds : List Diagnostic) :
    ((Sink.empty deny).pushAll ds).Open ↔ ∀ d ∈ ds, Admitted deny d := by
  rw [Open, fatal_pushAll, denyWarnings_pushAll, entries_pushAll]
  simp only [empty, Bool.false_or, List.nil_append, and_iff_right_iff_imp, List.any_eq_false]
  intro h d hd hfatal
  exact absurd ((h d hd).1.symm.trans (isError_of_isFatal hfatal)) (by decide)

theorem pushAll_pushAll (s : Sink) (ds es : List Diagnostic) :
    (s.pushAll ds).pushAll es = s.pushAll (ds ++ es) := by
  simp only [pushAll, List.foldl_append]

/-- The work goes on after a pass if nothing in the sink stops it. -/
theorem pass_bind_eq_ok_iff {α β : Type} {s : Sink} {x : Noted α}
    {f : α × Sink → Except (List Diagnostic) β} {b : β} :
    s.pass x >>= f = .ok b ↔
      (s.pushAll x.notes).Open ∧ f (x.value, s.pushAll x.notes) = .ok b := by
  rw [← blocked_eq_false_iff, bind_eq_ok_iff]
  cases hb : (s.pushAll x.notes).blocked <;> simp [pass, checkpoint, hb]

end Sink

/-! ## All passes -/

/-- What the passes make of a program, one after the other. -/
structure Stages where
  imported : Noted Imported
  declared : Noted (Program × ModuleTable)
  tagged : Noted (Program × ModuleTable)
  grouped : Noted Program
  checked : Noted Program
  flow : Noted Unit

namespace Stages

/-- The external table. -/
abbrev externals (s : Stages) : ExternalTable := s.imported.value.externals

/-- The tables that calls are bound by. -/
abbrev visible (s : Stages) : Visible := ⟨s.tagged.value.2, s.externals⟩

/-- Everything that is reported. -/
def notes (s : Stages) : List Diagnostic :=
  s.imported.notes ++ s.declared.notes ++ s.tagged.notes ++ s.grouped.notes ++ s.checked.notes ++
    s.flow.notes

/-- The result, if all reports are admitted. -/
def resolved (s : Stages) : Resolved :=
  ⟨s.checked.value, s.tagged.value.2, s.externals, s.imported.value.modules, s.notes⟩

end Stages

/-- Takes a program through all passes, whatever they report. -/
def stages (p : Program) (headers : HeaderTexts) (o : Options) : Stages :=
  let imported := Imports.merge headers Builtin.table p.imports
  let declared := declareModule imported.value.externals p { module := o.module }
  let tagged := Scoping.resolve imported.value.externals declared.value.1 declared.value.2
  let visible : Visible := ⟨tagged.value.2, imported.value.externals⟩
  let grouped := Precedence.resolve visible tagged.value.1
  let checked := Typing.resolve visible grouped.value
  ⟨imported, declared, tagged, grouped, checked, Flow.program checked.value⟩

/-! The passes one by one, each on what the passes before it have made. -/

theorem imported_stages (p : Program) (headers : HeaderTexts) (o : Options) :
    (stages p headers o).imported = Imports.merge headers Builtin.table p.imports := rfl

theorem declared_stages (p : Program) (headers : HeaderTexts) (o : Options) :
    (stages p headers o).declared =
      declareModule (stages p headers o).externals p { module := o.module } := rfl

theorem tagged_stages (p : Program) (headers : HeaderTexts) (o : Options) :
    (stages p headers o).tagged = Scoping.resolve (stages p headers o).externals
      (stages p headers o).declared.value.1 (stages p headers o).declared.value.2 := rfl

theorem grouped_stages (p : Program) (headers : HeaderTexts) (o : Options) :
    (stages p headers o).grouped =
      Precedence.resolve (stages p headers o).visible (stages p headers o).tagged.value.1 := rfl

theorem checked_stages (p : Program) (headers : HeaderTexts) (o : Options) :
    (stages p headers o).checked =
      Typing.resolve (stages p headers o).visible (stages p headers o).grouped.value := rfl

theorem flow_stages (p : Program) (headers : HeaderTexts) (o : Options) :
    (stages p headers o).flow = Flow.program (stages p headers o).checked.value := rfl

/-- Resolution succeeds if every report of every pass is admitted. -/
theorem resolve_eq_ok_iff {p : Program} {headers : HeaderTexts} {o : Options} {r : Resolved} :
    resolve p headers o = .ok r ↔
      (∀ d ∈ (stages p headers o).notes, Admitted o.denyWarnings d) ∧
        r = (stages p headers o).resolved := by
  simp only [resolve, Sink.pass_bind_eq_ok_iff, Sink.pushAll_pushAll, Sink.open_pushAll]
  constructor
  · rintro ⟨-, -, -, -, -, hall, hr⟩
    cases hr
    exact ⟨hall, by simp [stages, Stages.resolved, Stages.notes, Sink.empty]⟩
  · rintro ⟨hall, rfl⟩
    -- The reports up to a barrier are among all reports.
    have hle : ∀ {ds es : List Diagnostic}, (∀ d ∈ ds ++ es, Admitted o.denyWarnings d) →
        ∀ d ∈ ds, Admitted o.denyWarnings d :=
      fun h d hd => h d (List.mem_append_left _ hd)
    refine ⟨hle (hle (hle (hle (hle hall)))), hle (hle (hle (hle hall))), hle (hle (hle hall)),
      hle (hle hall), hle hall, hall, ?_⟩
    simp [stages, Stages.resolved, Stages.notes, Sink.empty]
    rfl

end SplFrontend
