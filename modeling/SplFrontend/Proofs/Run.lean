import SplFrontend.Proofs.Expansion
import SplFrontend.Proofs.Header.Search
import SplFrontend.Run

/-!
# What a run does to the files

A run reads the options, the source and the headers, takes the module through all passes, and then
writes one file. Whatever fails before that leaves every file as it was. The statement is about any
file system in which reading changes nothing, and about what the arguments say.
-/

namespace SplFrontend

/-! ## Arguments -/

namespace Command

/-- What one use of the command line says. -/
inductive Use where
  | flag (f : Flag)
  | setting (s : Setting) (value : String)
  | file (text : String)
deriving DecidableEq, Repr

/-- The arguments say these things, in this order. -/
inductive Says : List String → List Use → Prop
  | done : Says [] []
  | flag {a word : String} {f : Flag} {as : List String} {us : List Use}
    (ha : argOf a = .long word none) (hf : ofLong? word = some (.inl f)) (h : Says as us) : Says
      (a :: as) (.flag f :: us)
  | longValue {a word value : String} {s : Setting} {as : List String} {us : List Use}
    (ha : argOf a = .long word (some value)) (hs : ofLong? word = some (.inr s)) (h : Says as us) :
    Says (a :: as) (.setting s value :: us)
  | longNext {a b word value : String} {s : Setting} {as : List String} {us : List Use}
    (ha : argOf a = .long word none) (hs : ofLong? word = some (.inr s))
      (hb : argOf b = .plain value)
    (h : Says as us) : Says (a :: b :: as) (.setting s value :: us)
  | shortValue {a value : String} {letter : Char} {rest : List Char} {s : Setting}
    {as : List String} {us : List Use} (ha : argOf a = .short letter rest)
      (hs : ofShort? letter = some (.inr s)) (hv : attached rest = some value)
    (h : Says as us) : Says (a :: as) (.setting s value :: us)
  | shortNext {a b value : String} {letter : Char} {rest : List Char} {s : Setting}
    {as : List String} {us : List Use} (ha : argOf a = .short letter rest)
      (hs : ofShort? letter = some (.inr s))
    (hv : attached rest = none) (hb : argOf b = .plain value) (h : Says as us) :
    Says (a :: b :: as) (.setting s value :: us)
  | file {a text : String} {as : List String} {us : List Use} (ha : argOf a = .plain text)
    (h : Says as us) :
    Says (a :: as) (.file text :: us)
  | files {a : String} {as : List String} (ha : argOf a = .endOfOptions) :
    Says (a :: as) (as.map .file)

namespace Use

/-- The source file. -/
def file? : Use → Option String
  | .file text => some text
  | _ => none

/-- The value of a setting, if it is the given one. -/
def value? (s : Setting) : Use → Option String
  | .setting s' value => if s' = s then some value else none
  | _ => none

end Use

/-- The command is what the uses of the command line say. Only directories for headers may be given
more than once. -/
structure Follows (c : Command) (us : List Use) : Prop where
  file : some c.file = us.findSome? Use.file?
  config : c.config = us.findSome? (Use.value? .config)
  emitHeader : c.emitHeader = us.findSome? (Use.value? .emitHeader)
  includes : c.includes = us.filterMap (Use.value? .includeDir)

namespace Draft

/-- Takes what one use says. -/
def use (d : Draft) : Use → Except CommandStop Draft
  | .flag f => d.flag f
  | .setting s value => d.setting value s
  | .file text => d.plain text

theorem foldlM_use_cons {d d₁ d' : Draft} {u : Use} {us : List Use} (hu : d.use u = .ok d₁)
    (hus : us.foldlM use d₁ = .ok d') : (u :: us).foldlM use d = .ok d' := by
  rw [List.foldlM_cons, hu]
  exact hus

theorem plains_eq (d : Draft) (as : List String) :
    d.plains as = (as.map Use.file).foldlM use d := by
  induction as generalizing d with
  | nil => rfl
  | cons a as ih =>
    rw [plains, List.map_cons, List.foldlM_cons]
    exact congrArg (d.plain a >>= ·) (funext ih)

/-- The letters stand for no flag that a run can have. -/
theorem flag_ofShort {d d' : Draft} {letter : Char} {f : Flag}
    (hf : ofShort? letter = some (.inl f)) :
    d.flag f ≠ .ok d' := by
  unfold ofShort? at hf
  split at hf <;> cases hf <;> exact fun h => by cases h

/-- If the arguments after a use say something, they say it after what the use says. -/
theorem then_says {d d' : Draft} {u : Use} {as : List String}
    (h : (do take (← d.use u) as) = .ok d')
    (ih : ∀ d₁ {d'}, take d₁ as = .ok d' → ∃ us, Says as us ∧ us.foldlM use d₁ = .ok d') :
    ∃ us, Says as us ∧ (u :: us).foldlM use d = .ok d' := by
  obtain ⟨d₁, hd, h⟩ := bind_eq_ok_iff.1 h
  obtain ⟨us, hus, hfold⟩ := ih d₁ h
  exact ⟨us, hus, foldlM_use_cons hd hfold⟩

/-- Arguments are taken by taking what they say, in order. -/
theorem take_says {d d' : Draft} {args : List String} (h : d.take args = .ok d') :
    ∃ us, Says args us ∧ us.foldlM use d = .ok d' := by
  fun_induction Draft.take d args generalizing d' with
  | case1 d => exact ⟨[], .done, h⟩
  | case2 d a ha => exact ⟨[], .files ha, h⟩
  | case3 d a text ha => exact ⟨[.file text], .file ha .done, foldlM_use_cons h rfl⟩
  | case4 d a word f hf ha => exact ⟨[.flag f], .flag ha hf .done, foldlM_use_cons h rfl⟩
  | case5 d a word s value hs ha =>
    exact ⟨[.setting s value], .longValue ha hs .done, foldlM_use_cons h rfl⟩
  | case6 => cases h
  | case7 d a letter rest ha f hf => exact absurd h (flag_ofShort hf)
  | case8 d a letter rest ha s value hv hs =>
    exact ⟨[.setting s value], .shortValue ha hs hv .done, foldlM_use_cons h rfl⟩
  | case9 => cases h
  | case10 d a b as ha =>
    exact ⟨(b :: as).map .file, .files ha, (plains_eq d (b :: as)).symm.trans h⟩
  | case11 d a b as text ha ih =>
    obtain ⟨us, hus, hfold⟩ := then_says (u := .file text) h ih
    exact ⟨_, .file ha hus, hfold⟩
  | case12 d a b as word f hf ha ih =>
    obtain ⟨us, hus, hfold⟩ := then_says (u := .flag f) h ih
    exact ⟨_, .flag ha hf hus, hfold⟩
  | case13 d a b as word s value hs ha ih =>
    obtain ⟨us, hus, hfold⟩ := then_says (u := .setting s value) h ih
    exact ⟨_, .longValue ha hs hus, hfold⟩
  | case14 d a b as word s value hb hs ha ih =>
    obtain ⟨us, hus, hfold⟩ := then_says (u := .setting s value) h ih
    exact ⟨_, .longNext ha hs hb hus, hfold⟩
  | case15 => cases h
  | case16 d a b as letter rest ha f hf ih =>
    obtain ⟨d₁, hd, -⟩ := bind_eq_ok_iff.1 h
    exact absurd hd (flag_ofShort hf)
  | case17 d a b as letter rest ha s value hv hs ih =>
    obtain ⟨us, hus, hfold⟩ := then_says (u := .setting s value) h ih
    exact ⟨_, .shortValue ha hs hv hus, hfold⟩
  | case18 d a b as letter rest ha s value hb hv hs ih =>
    obtain ⟨us, hus, hfold⟩ := then_says (u := .setting s value) h ih
    exact ⟨_, .shortNext ha hs hv hb hus, hfold⟩
  | case19 => cases h

theorem once_eq_ok {held held' : Option String} {value : String} (h : once held value = .ok held') :
    held' = held.or (some value) := by
  cases held <;> cases h
  rfl

theorem oncePath_eq_ok {held held' : Option String} {value : String}
    (h : oncePath held value = .ok held') :
    held' = held.or (some value) := by
  rw [oncePath] at h
  split at h
  · cases h
  · exact once_eq_ok h

/-- What one use changes. -/
theorem of_use {d d' : Draft} {u : Use} (h : d.use u = .ok d') :
    d'.file = d.file.or u.file? ∧ d'.config = d.config.or (u.value? .config) ∧
      d'.emitHeader = d.emitHeader.or (u.value? .emitHeader) ∧
      d'.includes = d.includes ++ (u.value? .includeDir).toList := by
  have hor : ∀ held : Option String, held = held.or none := fun held => (Option.or_none).symm
  have hnil : d.includes = d.includes ++ [] := (List.append_nil _).symm
  rcases u with f | ⟨s, value⟩ | text
  · cases f with
    | dump | denyWarnings =>
      rw [use, flag] at h
      split at h <;> cases h
      exact ⟨hor _, hor _, hor _, hnil⟩
    | version | help => cases h
  · cases s with
    | includeDir =>
      rw [use, setting] at h
      split at h <;> cases h
      exact ⟨hor _, hor _, hor _, rfl⟩
    | module =>
      obtain ⟨held, -, hd⟩ := bind_eq_ok_iff.1 h
      cases hd
      exact ⟨hor _, hor _, hor _, hnil⟩
    | config =>
      obtain ⟨held, hheld, hd⟩ := bind_eq_ok_iff.1 h
      cases hd
      exact ⟨hor _, oncePath_eq_ok hheld, hor _, hnil⟩
    | emitHeader =>
      obtain ⟨held, hheld, hd⟩ := bind_eq_ok_iff.1 h
      cases hd
      exact ⟨hor _, hor _, oncePath_eq_ok hheld, hnil⟩
  · obtain ⟨held, hheld, hd⟩ := bind_eq_ok_iff.1 h
    cases hd
    exact ⟨oncePath_eq_ok hheld, hor _, hor _, hnil⟩

/-- What uses change, one after the other. -/
theorem of_foldlM_use {d d' : Draft} {us : List Use} (h : us.foldlM use d = .ok d') :
    d'.file = d.file.or (us.findSome? Use.file?) ∧
      d'.config = d.config.or (us.findSome? (Use.value? .config)) ∧
      d'.emitHeader = d.emitHeader.or (us.findSome? (Use.value? .emitHeader)) ∧
      d'.includes = d.includes ++ us.filterMap (Use.value? .includeDir) := by
  induction us generalizing d with
  | nil =>
    cases h
    simp
  | cons u us ih =>
    rw [List.foldlM_cons] at h
    obtain ⟨d₁, hd, h⟩ := bind_eq_ok_iff.1 h
    obtain ⟨hfile, hconfig, hemit, hincludes⟩ := of_use hd
    obtain ⟨hfile', hconfig', hemit', hincludes'⟩ := ih h
    have hfirst : ∀ (held : Option String) (view : Use → Option String),
        (held.or (view u)).or (us.findSome? view) = held.or ((u :: us).findSome? view) := by
      intro held view
      rw [Option.or_assoc, List.findSome?_cons]
      cases view u <;> rfl
    refine ⟨?_, ?_, ?_, ?_⟩
    · rw [hfile', hfile, hfirst]
    · rw [hconfig', hconfig, hfirst]
    · rw [hemit', hemit, hfirst]
    · rw [hincludes', hincludes, List.append_assoc]
      cases hu : u.value? .includeDir <;> simp [hu]

end Draft

/-- A command is what its arguments say. -/
theorem follows_of_ofArgs {args : List String} {c : Command} (h : ofArgs args = .ok c) :
    ∃ us, Says args us ∧ c.Follows us := by
  obtain ⟨d, hd, hc⟩ := bind_eq_ok_iff.1 h
  obtain ⟨us, hus, hfold⟩ := Draft.take_says hd
  obtain ⟨hfile, hconfig, hemit, hincludes⟩ := Draft.of_foldlM_use hfold
  refine ⟨us, hus, ?_⟩
  unfold Draft.command at hc
  split at hc
  · next file hd' =>
    cases hc
    exact ⟨hd'.symm.trans hfile, hconfig, hemit, hincludes⟩
  · cases hc

end Command

/-! ## Headers

The passes see of the headers only the text of each module. -/

theorem Imports.header_congr {texts texts' : HeaderTexts}
    (h : ∀ module, texts.lookup module = texts'.lookup module) :
    Imports.header texts = Imports.header texts' := by
  funext builtins module loc
  rw [header, header, h]

theorem resolve_congr {headers headers' : HeaderTexts}
    (h : ∀ module, headers.lookup module = headers'.lookup module) (p : Program) (o : Options) :
    resolve p headers o = resolve p headers' o := by
  have hmerge : Imports.merge headers = Imports.merge headers' := by
    funext builtins imports
    unfold Imports.merge Imports.mergeModule
    rw [Imports.header_congr h]
  rw [resolve, resolve, hmerge]

/-! ## Runs -/

namespace Command

section

variable (read : String → Except FileFault String) (c : Command)

/-- The options that a run starts from: those in the file that the command names, or else the
defaults. -/
def Configured (o : Options) : Prop :=
  match c.config with
  | none => o = {}
  | some path => ∃ text, read path = .ok text ∧ Options.ofText? text = some o

/-- The source file and the headers from some directories can be read, and the module passes. -/
def Passes (dirs : List String) (ext : String) (o : Options) (r : Resolved) : Prop :=
  ∃ text p headers, read c.file = .ok text ∧ Program.ofText text = .ok p ∧
    Collected read dirs ext (p.imports.map Import.module) headers ∧ resolve p headers o = .ok r

/-- All that a run needs can be read, and the module passes. Headers are searched for in the
directories of the command line and then in those of the options. -/
structure Prepared (o : Options) (r : Resolved) : Prop where
  configured : c.Configured read o
  passes : c.Passes read (c.includes ++ o.headerDirs) o.headerExtension (c.adjust o) r

end

section

variable {σ : Type} {read : String → Except FileFault String} {c : Command}

theorem Configured.unique {o o' : Options} (h : c.Configured read o) (h' : c.Configured read o') :
    o = o' := by
  unfold Configured at h h'
  cases hconfig : c.config with
  | none =>
    rw [hconfig] at h h'
    exact h.trans h'.symm
  | some path =>
    rw [hconfig] at h h'
    obtain ⟨text, htext, ho⟩ := h
    obtain ⟨text', htext', ho'⟩ := h'
    cases htext.symm.trans htext'
    exact Option.some.inj (ho.symm.trans ho')

theorem Passes.unique {dirs : List String} {ext : String} {o : Options} {r r' : Resolved}
    (h : c.Passes read dirs ext o r) (h' : c.Passes read dirs ext o r') : r = r' := by
  obtain ⟨text, p, headers, htext, hp, hheaders, hr⟩ := h
  obtain ⟨text', p', headers', htext', hp', hheaders', hr'⟩ := h'
  cases htext.symm.trans htext'
  cases hp.symm.trans hp'
  rw [resolve_congr (hheaders.lookup_eq hheaders')] at hr
  exact Except.ok.inj (hr.symm.trans hr')

theorem Prepared.unique {o o' : Options} {r r' : Resolved} (h : c.Prepared read o r)
    (h' : c.Prepared read o' r') :
    o = o' ∧ r = r' := by
  obtain rfl := h.configured.unique h'.configured
  exact ⟨rfl, h.passes.unique h'.passes⟩

/-- The options are read if there are some, and reading them leaves the files alone. -/
theorem options_cases (fs : FileSystem σ) (c : Command) (s : σ) :
    (∃ o, c.options fs.ops s = (.ok (c.adjust o), s) ∧ c.Configured (fs.read s) o) ∨
      ∃ f, c.options fs.ops s = (.error f, s) ∧ ∀ o, ¬ c.Configured (fs.read s) o := by
  unfold options Configured
  cases c.config with
  | none => exact .inl ⟨{}, rfl, rfl⟩
  | some path =>
    have hread : fs.ops.read path s = (fs.read s path, s) := rfl
    simp only [bind, StateT.bind, hread]
    cases htext : fs.read s path with
    | error why =>
      refine .inr ⟨.optionsFile path why, rfl, ?_⟩
      rintro o ⟨text, ⟨⟩, -⟩
    | ok text =>
      cases ho : Options.ofText? text with
      | none =>
        refine .inr ⟨.options, by simp only [ho]; rfl, ?_⟩
        rintro o ⟨text', ⟨⟩, ho'⟩
        cases ho.symm.trans ho'
      | some o => exact .inl ⟨o, by simp only [ho]; rfl, text, rfl, ho⟩

/-- The module passes if it can, and reading it and the headers leaves the files alone. -/
theorem resolved_cases (fs : FileSystem σ) (c : Command) (o : Options) (s : σ) :
    (∃ r, c.resolved fs.ops o s = (.ok r, s) ∧
      c.Passes (fs.read s) o.headerDirs o.headerExtension o r) ∨
      ∃ out, c.resolved fs.ops o s = (.error out, s) ∧ out.exit ≠ 0 ∧
        ∀ r, ¬ c.Passes (fs.read s) o.headerDirs o.headerExtension o r := by
  have hread : fs.ops.read c.file s = (fs.read s c.file, s) := rfl
  unfold resolved
  simp only [bind, StateT.bind, hread]
  cases htext : fs.read s c.file with
  | error why =>
    refine .inr ⟨_, rfl, Nat.one_ne_zero, ?_⟩
    rintro r ⟨text, p, headers, htext', -⟩
    cases htext.symm.trans htext'
  | ok text =>
    cases hp : Program.ofText text with
    | error ds =>
      refine .inr ⟨.refusal ds, by simp only [hp]; rfl, Nat.one_ne_zero, ?_⟩
      rintro r ⟨text', p, headers, htext', hp', -⟩
      cases htext.symm.trans htext'
      cases hp.symm.trans hp'
    | ok p =>
      obtain ⟨a, ha, hall⟩ := searchHeaders_gathered fs s o.headerDirs o.headerExtension
        (p.imports.map Import.module) (.nil _ _ _)
      simp only [hp, bind, StateT.bind, ha]
      cases a with
      | error f =>
        refine .inr ⟨.failure (.header f), rfl, Nat.one_ne_zero, ?_⟩
        rintro r ⟨text', p', headers, htext', hp', hheaders, -⟩
        cases htext.symm.trans htext'
        cases hp.symm.trans hp'
        obtain ⟨module, hmodule, hf⟩ := hall
        exact hheaders.readable module hmodule f hf
      | ok headers =>
        cases hr : resolve p headers o with
        | error ds =>
          refine .inr ⟨.refusal ds, by simp only [hr]; rfl, Nat.one_ne_zero, ?_⟩
          rintro r ⟨text', p', headers', htext', hp', hheaders, hr'⟩
          cases htext.symm.trans htext'
          cases hp.symm.trans hp'
          rw [resolve_congr (hheaders.lookup_eq hall), hr] at hr'
          cases hr'
        | ok r => exact .inl ⟨r, by simp only [hr]; rfl, text, p, headers, htext, hp, hall, hr⟩

/-- The header is written if there is a place for it, and the run succeeds if that does. -/
theorem emit_cases (fs : FileSystem σ) (c : Command) (o : Options) (r : Resolved) (s : σ) :
    (∃ path, c.target o = some path ∧
      (c.emit fs.ops o r s).2 = (fs.write s path r.table.headerText).2 ∧
      ((c.emit fs.ops o r s).1.exit = 0 ↔ (fs.write s path r.table.headerText).1 = .ok ())) ∨
      c.target o = none ∧ (c.emit fs.ops o r s).2 = s ∧ (c.emit fs.ops o r s).1.exit ≠ 0 := by
  unfold emit
  cases htarget : c.target o with
  | none => exact .inr ⟨rfl, rfl, Nat.succ_ne_zero 100⟩
  | some path =>
    obtain ⟨a, s', hwrite⟩ : ∃ a s', fs.ops.write path r.table.headerText s = (a, s') := ⟨_, _, rfl⟩
    have hresult : fs.write s path r.table.headerText = (a, s') := hwrite
    refine .inl ⟨path, rfl, ?_⟩
    simp only [bind, StateT.bind, hwrite, hresult]
    cases a with
    | error why => exact ⟨rfl, fun h => absurd h Nat.one_ne_zero, fun h => by cases h⟩
    | ok u => exact ⟨rfl, fun _ => rfl, fun _ => rfl⟩

/-- A run either has all that it needs and writes the header, or it fails and leaves the files
alone. -/
theorem run_cases (fs : FileSystem σ) (c : Command) (s : σ) :
    (∃ o r, c.run fs.ops s = c.emit fs.ops (c.adjust o) r s ∧ c.Prepared (fs.read s) o r) ∨
      ∃ out, c.run fs.ops s = (out, s) ∧ out.exit ≠ 0 ∧ ∀ o r, ¬ c.Prepared (fs.read s) o r := by
  unfold run
  obtain ⟨o, hoptions, ho⟩ | ⟨f, hoptions, hno⟩ := options_cases fs c s
  · simp only [bind, StateT.bind, hoptions]
    obtain ⟨r, hresolved, hr⟩ | ⟨out, hresolved, hexit, hno⟩ := resolved_cases fs c (c.adjust o) s
    · simp only [hresolved]
      exact .inl ⟨o, r, rfl, ho, hr⟩
    · simp only [hresolved]
      refine .inr ⟨out, rfl, hexit, fun o' r h => ?_⟩
      obtain rfl := ho.unique h.configured
      exact hno r h.passes
  · simp only [bind, StateT.bind, hoptions]
    exact .inr ⟨_, rfl, Nat.one_ne_zero, fun o r h => hno o h.configured⟩

end

end Command

/-- A run of accepted arguments changes the files only if everything before the writing succeeds,
and then only by writing the header of the module where the command says, or else next to the source
file if the extension of headers is one. It succeeds if all of this does. So a run that fails leaves
the files alone, if a writing that fails does. -/
theorem runArgs_writes {σ : Type} (fs : FileSystem σ) (s : σ) {args : List String} {c : Command}
    (hargs : Command.ofArgs args = .ok c) :
    let after := runArgs fs.ops args s
    let target := fun (o : Options) => c.emitHeader <|> Path.withExtension c.file o.headerExtension
    (∃ us, Command.Says args us ∧ c.Follows us) ∧
      (∀ o r path, c.Prepared (fs.read s) o r → target o = some path →
        after.2 = (fs.write s path r.table.headerText).2) ∧
      ((∀ o r, c.Prepared (fs.read s) o r → target o = none) → after.2 = s) ∧
      (after.1.exit = 0 ↔ ∃ o r path, c.Prepared (fs.read s) o r ∧ target o = some path ∧
        (fs.write s path r.table.headerText).1 = .ok ()) ∧
      ((∀ path text why, (fs.write s path text).1 = .error why → (fs.write s path text).2 = s) →
        after.1.exit ≠ 0 → after.2 = s) := by
  intro after target
  have hafter : after = c.run fs.ops s := by
    simp only [after, runArgs, hargs]
  refine ⟨Command.follows_of_ofArgs hargs, ?_⟩
  rw [hafter]
  obtain ⟨o, r, hrun, hprepared⟩ | ⟨out, hrun, hexit, hno⟩ := Command.run_cases fs c s
  · rw [hrun]
    obtain ⟨path, htarget, hfiles, hexit⟩ | ⟨htarget, hfiles, hexit⟩ :=
      Command.emit_cases fs c (c.adjust o) r s
    · refine ⟨fun o' r' path' h hpath => ?_, fun h => ?_, ?_, fun hwrite hfail => ?_⟩
      · obtain ⟨rfl, rfl⟩ := hprepared.unique h
        cases htarget.symm.trans hpath
        exact hfiles
      · cases htarget.symm.trans (h o r hprepared)
      · rw [hexit]
        refine ⟨fun h => ⟨o, r, path, hprepared, htarget, h⟩, ?_⟩
        rintro ⟨o', r', path', h, hpath, hok⟩
        obtain ⟨rfl, rfl⟩ := hprepared.unique h
        cases htarget.symm.trans hpath
        exact hok
      · rw [hfiles]
        cases hresult : (fs.write s path r.table.headerText).1 with
        | ok u => exact absurd (hexit.2 hresult) hfail
        | error why => exact hwrite _ _ why hresult
    · refine ⟨fun o' r' path h hpath => ?_, fun _ => hfiles, ?_, fun _ _ => hfiles⟩
      · obtain ⟨rfl, rfl⟩ := hprepared.unique h
        cases htarget.symm.trans hpath
      · refine ⟨fun h => absurd h hexit, ?_⟩
        rintro ⟨o', r', path, h, hpath, -⟩
        obtain ⟨rfl, rfl⟩ := hprepared.unique h
        cases htarget.symm.trans hpath
  · rw [hrun]
    refine ⟨fun o r path h => absurd h (hno o r), fun _ => rfl, ?_, fun _ _ => rfl⟩
    refine ⟨fun h => absurd h hexit, ?_⟩
    rintro ⟨o, r, path, h, -⟩
    exact absurd h (hno o r)

/-- A file tree as a file system. -/
def FileTree.system : FileSystem FileTree where
  read := FileTree.read
  write t path text :=
    match t.write path text with
    | .ok t' => (.ok (), t')
    | .error f => (.error f, t)

theorem FileTree.system_ops : FileTree.system.ops = FileTree.ops := by
  have hwrite : FileTree.system.ops.write = FileTree.ops.write := by
    funext path text t
    change FileTree.system.write t path text = (FileTree.ops.write path text) t
    simp only [FileTree.system, FileTree.ops, bind, StateT.bind]
    cases h : t.write path text <;>
      simp only [get, getThe, MonadStateOf.get, StateT.get, pure, h] <;> rfl
  exact congrArg (FileOps.mk FileTree.ops.read) hwrite

/-- In a file tree, a writing that fails changes nothing. -/
theorem FileTree.system_write_error {t : FileTree} {path text : String} {why : FileFault}
    (h : (FileTree.system.write t path text).1 = .error why) :
    (FileTree.system.write t path text).2 = t := by
  unfold FileTree.system at h ⊢
  cases hwrite : t.write path text with
  | ok t' => simp [hwrite] at h
  | error f => simp [hwrite]

/-- A source file that imports a module, the header of the module in one directory, and more
files. -/
def importingTree (more : List (List String × FileNode)) : FileTree :=
  ⟨(["a.spl"], .file (some "from m importall;")) ::
    (["inc", "m.splh"], .file (some "\x7b\"module\":\"m\"\x7d")) :: (["lib"], .dir) :: more⟩

/-- Options for which no file next to the source can be named. -/
def slashedOptions : List String × FileNode :=
  (["c.json"], .file (some "\x7b\"header_extension\":\"h/x\"\x7d"))

/-- The header is found in the second of two directories, unless the first one has a file of that
name that is no text. With a slash in the extension nothing is written unless the command names a
place. -/
theorem runArgs_writes_importing :
    let args := ["-I", "lib", "-Iinc", "a.spl"]
    let c : Command := ⟨"a.spl", none, ["lib", "inc"], none, none, false, false⟩
    Command.ofArgs args = .ok c ∧
      (∃ o r, c.Prepared (importingTree []).read o r ∧
        (runArgs FileTree.ops args (importingTree [])).2 =
        (FileTree.system.write (importingTree []) "a.splh" r.table.headerText).2) ∧
      (let broken := importingTree [(["lib", "m.splh"], .file none)]
      (runArgs FileTree.ops args broken).1.exit ≠ 0 ∧
        (runArgs FileTree.ops args broken).2 = broken) ∧
      let plain : FileTree := ⟨[(["a.spl"], .file (some "")), slashedOptions]⟩
      (runArgs FileTree.ops ["--config", "c.json", "a.spl"] plain).1.exit = 101 ∧
        (runArgs FileTree.ops ["--config", "c.json", "a.spl"] plain).2 = plain ∧
        (runArgs FileTree.ops ["--config", "c.json", "--emit-header", "o", "a.spl"] plain).1.exit =
          0 := by
  intro args c
  have hargs : Command.ofArgs args = .ok c := rfl
  have hfound : (runArgs FileTree.ops args (importingTree [])).1.exit = 0 := by decide +kernel
  have hbroken :
      (runArgs FileTree.ops args (importingTree [(["lib", "m.splh"], .file none)])).1.exit ≠ 0 := by
    decide +kernel
  have hslashed : (runArgs FileTree.ops ["--config", "c.json", "a.spl"]
      ⟨[(["a.spl"], .file (some "")), slashedOptions]⟩).1.exit = 101 := by
    decide +kernel
  have hnamed : (runArgs FileTree.ops ["--config", "c.json", "--emit-header", "o", "a.spl"]
      ⟨[(["a.spl"], .file (some "")), slashedOptions]⟩).1.exit = 0 := by
    decide +kernel
  rw [← FileTree.system_ops] at hfound hbroken hslashed hnamed ⊢
  refine ⟨hargs, ?_, ⟨hbroken, ?_⟩, hslashed, ?_, hnamed⟩
  · obtain ⟨-, hwrites, -, hexit, -⟩ := runArgs_writes FileTree.system (importingTree []) hargs
    obtain ⟨o, r, path, hprepared, -⟩ := hexit.1 hfound
    have htarget :
        (c.emitHeader <|> Path.withExtension c.file o.headerExtension) = some "a.splh" := by
      rw [show o = {} from hprepared.configured]
      decide +kernel
    exact ⟨o, r, hprepared, hwrites o r _ hprepared htarget⟩
  · obtain ⟨-, -, -, -, hkeeps⟩ := runArgs_writes FileTree.system _ hargs
    exact hkeeps (fun _ _ _ => FileTree.system_write_error) hbroken
  · have hargs' : Command.ofArgs ["--config", "c.json", "a.spl"] =
        .ok ⟨"a.spl", none, [], some "c.json", none, false, false⟩ := rfl
    obtain ⟨-, -, -, -, hkeeps⟩ := runArgs_writes FileTree.system _ hargs'
    exact hkeeps (fun _ _ _ => FileTree.system_write_error) (by rw [hslashed]; decide)

end SplFrontend
