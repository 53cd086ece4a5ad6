import Mathlib.Data.List.Nodup
import SplFrontend.Header.Search
import SplFrontend.Proofs.Tables

/-!
# What the search for headers finds

A file system is taken as a state that reading leaves alone. The search then finds exactly the texts
that it is meant to find: for each module the file in the first directory that has one, unless a
file that cannot be read stands before it, which ends the search.
-/

namespace SplFrontend

/-- A file system: what reading a file gives in some state of it, and what writing a file gives and
leaves. -/
structure FileSystem (σ : Type) where
  read : σ → String → Except FileFault String
  write : σ → String → String → Except FileFault Unit × σ

/-- The operations of a file system on its state. -/
def FileSystem.ops {σ : Type} (fs : FileSystem σ) : FileOps (StateM σ) where
  read path := fun s => (fs.read s path, s)
  write path text := fun s => fs.write s path text

section

variable (read : String → Except FileFault String) (name : String)

/-- The first of some directories that has a file of the name has it with this text. -/
def FirstText (dirs : List String) (text : String) : Prop :=
  ∃ before dir behind, dirs = before ++ dir :: behind ∧
    (∀ d ∈ before, read (Path.join d name) = .error .noEntry) ∧ read (Path.join dir name) = .ok text

/-- No directory has a file of the name. -/
def NoText (dirs : List String) : Prop := ∀ d ∈ dirs, read (Path.join d name) = .error .noEntry

/-- Before any file of the name that can be read stands one that is there and cannot. -/
def FirstUnreadable (dirs : List String) (f : SearchFault) : Prop :=
  ∃ before dir behind, dirs = before ++ dir :: behind ∧
    (∀ d ∈ before, read (Path.join d name) = .error .noEntry) ∧ f.path = Path.join dir name ∧
      read f.path = .error f.why ∧ f.why ≠ .noEntry

/-- What a search among some directories answers. -/
def Answers (dirs : List String) : Except SearchFault (Option String) → Prop
  | .ok (some text) => FirstText read name dirs text
  | .ok none => NoText read name dirs
  | .error f => FirstUnreadable read name dirs f

end

section

variable {σ : Type} {fs : FileSystem σ} {s : σ} {read : String → Except FileFault String}
  {name : String}

/-- A directory without the file is passed over. -/
theorem Answers.pass {dir : String} {dirs : List String} {a : Except SearchFault (Option String)}
    (hdir : read (Path.join dir name) = .error .noEntry) (h : Answers read name dirs a) :
    Answers read name (dir :: dirs) a := by
  rcases a with f | _ | text
  · obtain ⟨before, d, behind, rfl, hbefore, hf⟩ := h
    exact ⟨dir :: before, d, behind, rfl, List.forall_mem_cons.2 ⟨hdir, hbefore⟩, hf⟩
  · exact List.forall_mem_cons.2 ⟨hdir, h⟩
  · obtain ⟨before, d, behind, rfl, hbefore, htext⟩ := h
    exact ⟨dir :: before, d, behind, rfl, List.forall_mem_cons.2 ⟨hdir, hbefore⟩, htext⟩

/-- The first directory decides, unless the file is not there. -/
theorem Answers.cons_cases {dir : String} {dirs : List String}
    {a : Except SearchFault (Option String)} (h : Answers read name (dir :: dirs) a) :
    (read (Path.join dir name) = .error .noEntry ∧ Answers read name dirs a) ∨
      (∃ text, read (Path.join dir name) = .ok text ∧ a = .ok (some text)) ∨
      ∃ why, why ≠ .noEntry ∧ read (Path.join dir name) = .error why ∧
        a = .error ⟨Path.join dir name, why⟩ := by
  rcases a with ⟨path, why⟩ | _ | text
  · obtain ⟨before, d, behind, hdirs, hbefore, hf⟩ := h
    cases before with
    | nil =>
      cases hdirs
      obtain ⟨rfl, hread, hwhy⟩ := hf
      exact .inr (.inr ⟨why, hwhy, hread, rfl⟩)
    | cons e before =>
      cases hdirs
      rw [List.forall_mem_cons] at hbefore
      exact .inl ⟨hbefore.1, before, d, behind, rfl, hbefore.2, hf⟩
  · exact .inl (List.forall_mem_cons.1 h)
  · obtain ⟨before, d, behind, hdirs, hbefore, htext⟩ := h
    cases before with
    | nil =>
      cases hdirs
      exact .inr (.inl ⟨text, htext, rfl⟩)
    | cons e before =>
      cases hdirs
      rw [List.forall_mem_cons] at hbefore
      exact .inl ⟨hbefore.1, before, d, behind, rfl, hbefore.2, htext⟩

theorem Answers.nil_eq {a : Except SearchFault (Option String)} (h : Answers read name [] a) :
    a = .ok none := by
  rcases a with f | _ | text
  · obtain ⟨before, d, behind, hdirs, -⟩ := h
    cases before <;> cases hdirs
  · rfl
  · obtain ⟨before, d, behind, hdirs, -⟩ := h
    cases before <;> cases hdirs

theorem Answers.unique {dirs : List String} {a b : Except SearchFault (Option String)}
    (ha : Answers read name dirs a) (hb : Answers read name dirs b) : a = b := by
  induction dirs with
  | nil => rw [ha.nil_eq, hb.nil_eq]
  | cons dir dirs ih =>
    obtain ⟨hr, ha⟩ | ⟨t, hr, rfl⟩ | ⟨w, hw, hr, rfl⟩ := ha.cons_cases <;>
      obtain ⟨hr', hb⟩ | ⟨t', hr', rfl⟩ | ⟨w', hw', hr', rfl⟩ := hb.cons_cases <;>
        have heq := hr.symm.trans hr'
    · exact ih ha hb
    · cases heq
    · cases heq
      exact absurd rfl hw'
    · cases heq
    · cases heq
      rfl
    · cases heq
    · cases heq
      exact absurd rfl hw
    · cases heq
    · cases heq
      rfl

/-- The search among directories answers as it should, and leaves the files alone. -/
theorem firstIn_answers (fs : FileSystem σ) (s : σ) (name : String) (dirs : List String) :
    ∃ a, firstIn fs.ops name dirs s = (a, s) ∧ Answers (fs.read s) name dirs a := by
  induction dirs with
  | nil => exact ⟨.ok none, rfl, List.forall_mem_nil _⟩
  | cons dir dirs ih =>
    have hread : fs.ops.read (Path.join dir name) s = (fs.read s (Path.join dir name), s) := rfl
    rw [firstIn]
    simp only [bind, StateT.bind, hread]
    cases hdir : fs.read s (Path.join dir name) with
    | ok text => exact ⟨.ok (some text), rfl, [], dir, dirs, rfl, List.forall_mem_nil _, hdir⟩
    | error why =>
      by_cases hwhy : why = .noEntry
      · subst hwhy
        obtain ⟨a, ha, hanswer⟩ := ih
        exact ⟨a, ha, hanswer.pass hdir⟩
      · refine ⟨.error ⟨Path.join dir name, why⟩, ?_, [], dir, dirs, rfl, List.forall_mem_nil _,
          rfl, hdir, hwhy⟩
        cases why <;> first | rfl | exact absurd rfl hwhy

end

/-! ## The headers of several modules -/

/-- The texts of the headers of some modules, and no others. For none of the modules the search has
met a file that cannot be read. -/
structure Collected (read : String → Except FileFault String) (dirs : List String) (ext : String)
    (modules : List String) (headers : HeaderTexts) : Prop where
  nodup : (headers.map Prod.fst).Nodup
  mem_iff : ∀ module text, (module, text) ∈ headers ↔
    module ∈ modules ∧ FirstText read (module ++ "." ++ ext) dirs text
  readable : ∀ module ∈ modules, ∀ f, ¬ FirstUnreadable read (module ++ "." ++ ext) dirs f

namespace Collected

variable {read : String → Except FileFault String} {dirs modules : List String}
  {ext module : String} {headers headers' : HeaderTexts}

theorem nil (read : String → Except FileFault String) (dirs : List String) (ext : String) :
    Collected read dirs ext [] [] where
  nodup := List.nodup_nil
  mem_iff _ _ := by simp
  readable := List.forall_mem_nil _

/-- The header of a further module is what the search answers. -/
theorem add (h : Collected read dirs ext modules headers) (hmodule : module ∉ headers.map Prod.fst)
    {a : Option String} (ha : Answers read (module ++ "." ++ ext) dirs (.ok a)) :
    Collected read dirs ext (modules ++ [module]) (headers ++ (a.map (module, ·)).toList) := by
  refine ⟨?_, fun m t => ?_, fun m hm f hf => ?_⟩
  · rw [List.map_append]
    cases a with
    | none => simpa using h.nodup
    | some text =>
      rw [Option.map_some, Option.toList_some, List.map_singleton, ← List.concat_eq_append]
      exact h.nodup.concat hmodule
  · have hnew : (m, t) ∈ (a.map (module, ·)).toList ↔ m = module ∧ a = some t := by
      cases a <;> simp [eq_comm]
    rw [List.mem_append, hnew, h.mem_iff, List.mem_append, List.mem_singleton]
    constructor
    · rintro (⟨hm, ht⟩ | ⟨rfl, rfl⟩)
      · exact ⟨.inl hm, ht⟩
      · exact ⟨.inr rfl, ha⟩
    · rintro ⟨hm | rfl, ht⟩
      · exact .inl ⟨hm, ht⟩
      · have heq := ha.unique (b := .ok (some t)) ht
        exact .inr ⟨rfl, Except.ok.inj heq⟩
  · rw [List.mem_append, List.mem_singleton] at hm
    obtain hm | rfl := hm
    · exact h.readable m hm f hf
    · have heq := ha.unique (b := .error f) hf
      cases heq

theorem lookup_eq_some_iff (h : Collected read dirs ext modules headers) {text : String} :
    headers.lookup module = some text ↔ module ∈ modules ∧
      FirstText read (module ++ "." ++ ext) dirs text := by
  rw [← h.mem_iff]
  exact ⟨mem_of_lookup, lookup_of_mem h.nodup⟩

/-- The texts are told by the files. -/
theorem lookup_eq (h : Collected read dirs ext modules headers)
    (h' : Collected read dirs ext modules headers') (module : String) :
    headers.lookup module = headers'.lookup module := by
  refine Option.ext fun text => ?_
  rw [h.lookup_eq_some_iff, h'.lookup_eq_some_iff]

/-- A module that is listed again changes nothing. -/
theorem again (h : Collected read dirs ext modules headers) {text : String}
    (hmodule : headers.lookup module = some text) :
    Collected read dirs ext (modules ++ [module]) headers := by
  have hbefore := (h.lookup_eq_some_iff.1 hmodule).1
  have hsame : ∀ m, m ∈ modules ++ [module] ↔ m ∈ modules := by
    intro m
    rw [List.mem_append, List.mem_singleton]
    exact ⟨fun hm => hm.elim id fun hm => hm ▸ hbefore, .inl⟩
  refine ⟨h.nodup, fun m t => ?_, fun m hm => h.readable m ((hsame m).1 hm)⟩
  rw [h.mem_iff, hsame]

end Collected

/-- What the search answers for some modules, after others. -/
def Gathered (read : String → Except FileFault String) (dirs : List String) (ext : String)
    (before modules : List String) : Except SearchFault HeaderTexts → Prop
  | .ok headers => Collected read dirs ext (before ++ modules) headers
  | .error f => ∃ module ∈ modules, FirstUnreadable read (module ++ "." ++ ext) dirs f

theorem Gathered.cons {read : String → Except FileFault String} {dirs before modules : List String}
    {ext module : String} {a : Except SearchFault HeaderTexts}
    (h : Gathered read dirs ext (before ++ [module]) modules a) :
    Gathered read dirs ext before (module :: modules) a := by
  cases a with
  | ok headers => rwa [Gathered, List.append_assoc] at h
  | error f =>
    obtain ⟨m, hm, hf⟩ := h
    exact ⟨m, List.mem_cons_of_mem _ hm, hf⟩

/-- The search for headers goes through the modules in order, and leaves the files alone. It ends
with the headers of all modules, or at one for which a file cannot be read. -/
theorem searchHeaders_gathered {σ : Type} (fs : FileSystem σ) (s : σ) (dirs : List String)
    (ext : String) {before : List String} (modules : List String) {found : HeaderTexts}
    (h : Collected (fs.read s) dirs ext before found) :
    ∃ a, searchHeaders fs.ops dirs ext modules found s = (a, s) ∧
      Gathered (fs.read s) dirs ext before modules a := by
  induction modules generalizing before found with
  | nil => exact ⟨.ok found, rfl, by rwa [Gathered, List.append_nil]⟩
  | cons module rest ih =>
    rw [searchHeaders]
    cases hknown : found.lookup module with
    | some text =>
      obtain ⟨a, ha, hall⟩ := ih (h.again hknown)
      exact ⟨a, ha, hall.cons⟩
    | none =>
      have hmodule := lookup_eq_none_iff_not_mem.1 hknown
      obtain ⟨b, hb, hanswer⟩ := firstIn_answers fs s (module ++ "." ++ ext) dirs
      simp only [Option.isSome_none, Bool.false_eq_true, if_false, bind, StateT.bind, hb]
      rcases b with f | _ | text
      · exact ⟨.error f, rfl, module, List.mem_cons_self, hanswer⟩
      · obtain ⟨a, ha, hall⟩ := ih (h.add hmodule hanswer)
        rw [Option.map_none, Option.toList_none, List.append_nil] at ha
        exact ⟨a, ha, hall.cons⟩
      · obtain ⟨a, ha, hall⟩ := ih (h.add hmodule hanswer)
        exact ⟨a, ha, hall.cons⟩

end SplFrontend
