import SplFrontend.Proofs.Imports.Order
import SplFrontend.Proofs.Order.Calls
import SplFrontend.Proofs.Order.Contents
import SplFrontend.Proofs.Order.Lookups
import SplFrontend.Proofs.Order.Rearranged
import SplFrontend.Proofs.RoundTrip

/-!
# Programs with their imports in another order

The order of the import lines decides nothing but the places of imported overloads. Every pass
before the choice of overloads sees the external table through lookups that do not depend on it, and
the choice itself is made among the same candidates.
-/

namespace SplFrontend

/-! ## Tables with the same content -/

namespace ExternalTable

variable {t t' : ExternalTable}

theorem Coherent.fixityOf_eq_some (ht : t.Coherent) {op : String} {x : Fixity} :
    t.fixityOf op = some x ↔ ∃ o ∈ t.overloads .infixOp op, o.fixity = some x := by
  constructor
  · exact List.exists_of_findSome?_eq_some
  · rintro ⟨o, ho, hx⟩
    obtain ⟨y, hy, hop⟩ := ht.fixity ho
    rw [hop, ← hy, hx]

theorem Shuffled.agrees (h : t.Shuffled t') (ht : t.Coherent) (ht' : t'.Coherent) :
    t.Agrees t' where
  globals := lookup_perm h.globals (ht.names .globals)
  synonyms := lookup_perm h.synonyms (ht.names .synonyms)
  fixity op := Option.ext fun x => by
    rw [ht.fixityOf_eq_some, ht'.fixityOf_eq_some]
    simp only [(h.overloads .infixOp op).mem_iff]

end ExternalTable

/-! ## The passes -/

/-- The program with other import lines. -/
abbrev Program.reimport (imports : List Import) (p : Program) : Program := { p with imports }

section
variable {imports : List Import}

theorem declareModule_reimport (e : ExternalTable) (p : Program) (t : ModuleTable) :
    declareModule e (p.reimport imports) t = (fun x => (x.1.reimport imports, x.2)) <$>
      declareModule e p t :=
  Noted.ext rfl (by rw [Noted.notes_map]; rfl)

theorem Scoping.resolve_reimport (e : ExternalTable) (p : Program) (t : ModuleTable) :
    resolve e (p.reimport imports) t = (fun x => (x.1.reimport imports, x.2)) <$> resolve e p t :=
  Noted.ext rfl (by rw [Noted.notes_map]; rfl)

theorem Precedence.resolve_reimport (v : Visible) (p : Program) :
    resolve v (p.reimport imports) = Program.reimport imports <$> resolve v p :=
  Noted.ext rfl (by rw [Noted.notes_map]; rfl)

theorem Typing.resolve_reimport (v : Visible) (p : Program) :
    resolve v (p.reimport imports) = Program.reimport imports <$> resolve v p :=
  Noted.ext rfl (by rw [Noted.notes_map]; rfl)

theorem Precedence.resolve_agrees {v v' : Visible} (h : Agrees v v') (p : Program) :
    resolve v' p = resolve v p := by
  have hitem : item v' = item v := funext (item_agrees h)
  rw [resolve, resolve, hitem]

theorem ExternalTable.Shuffled.visible_agrees {t : ModuleTable} {e e' : ExternalTable}
    (h : e.Shuffled e') (ha : e.Agrees e') : Precedence.Agrees ⟨t, e⟩ ⟨t, e'⟩ where
  fixity op := by rw [Visible.fixityOf, Visible.fixityOf, ha.fixity]
  isEmpty name := by
    rw [Precedence.isEmpty_candidates, Precedence.isEmpty_candidates,
      (h.overloads .prefixOp name).isEmpty_eq]

variable {p : Program} {headers : HeaderTexts} {o : Options}

theorem imported_reimport (hp : imports.Perm p.imports) {deny : Bool}
    (h : ∀ d ∈ (stages p headers o).imported.notes, Admitted deny d) :
    (∀ d ∈ (stages (p.reimport imports) headers o).imported.notes, Admitted deny d) ∧
      (stages p headers o).externals.Shuffled (stages (p.reimport imports) headers o).externals ∧
      (stages p headers o).externals.Coherent ∧
        (stages (p.reimport imports) headers o).externals.Coherent := by
  have hp' : (p.reimport imports).imports.Perm p.imports := hp
  rw [imported_stages] at h
  have hmerge := Imports.merge_perm Builtin.sound Builtin.infix_of_fixity hp' h
  simpa only [Stages.externals, imported_stages] using hmerge

/-- What the passes before the choice of overloads make of a program with its imports in another
order. -/
theorem stages_reimport
    (h : (stages p headers o).externals.Shuffled (stages (p.reimport imports) headers o).externals)
    (ha : (stages p headers o).externals.Agrees (stages (p.reimport imports) headers o).externals) :
    (stages (p.reimport imports) headers o).declared =
        (fun x => (x.1.reimport imports, x.2)) <$> (stages p headers o).declared ∧
      (stages (p.reimport imports) headers o).tagged =
        (fun x => (x.1.reimport imports, x.2)) <$> (stages p headers o).tagged ∧
      (stages (p.reimport imports) headers o).grouped = Program.reimport imports <$>
        (stages p headers o).grouped := by
  have hdeclared : (stages (p.reimport imports) headers o).declared =
      (fun x => (x.1.reimport imports, x.2)) <$> (stages p headers o).declared := by
    rw [declared_stages, declareModule_agrees ha, declareModule_reimport, declared_stages]
  have htagged : (stages (p.reimport imports) headers o).tagged =
      (fun x => (x.1.reimport imports, x.2)) <$> (stages p headers o).tagged := by
    rw [tagged_stages, Scoping.resolve_agrees ha, hdeclared, Noted.value_map,
      Scoping.resolve_reimport, tagged_stages]
  refine ⟨hdeclared, htagged, ?_⟩
  rw [grouped_stages, grouped_stages, Stages.visible, htagged, Noted.value_map,
    Precedence.resolve_agrees (h.visible_agrees ha), Precedence.resolve_reimport]

/-- A call keeps its overload of the module at hand; one from elsewhere may stand at another
place. -/
abbrev Renumbering.ofExternal (external : CallKind → String → Nat → Nat) : Renumbering :=
  ⟨fun _ _ i => i, external⟩

namespace Typing

variable {t : ModuleTable} {e e' : ExternalTable}

theorem Reordered.of_shuffled (ht : t.Placed) (h : e.Shuffled e') (he : e'.Coherent) :
    Reordered id ⟨t, e⟩ ⟨t, e'⟩ where
  sig _ := rfl
  own _ _ := .of_eq (List.map_id _).symm
  nodup_own := ht.nodup_overloads
  external := h.overloads
  nodup_external := he.nodup_overloads

theorem renumbering_of_placed (ht : t.Placed) :
    renumbering id ⟨t, e⟩ ⟨t, e'⟩ = .ofExternal (renumbering id ⟨t, e⟩ ⟨t, e'⟩).external := by
  rw [renumbering]
  congr 1
  funext kind name i
  exact reindex_self (ht.nodup_overloads kind name) i

theorem Context.renumbered_of_agrees {ρ : Renumbering} (h : Typing.Renumbered ρ ⟨t, e⟩ ⟨t, e'⟩)
    (ha : e.Agrees e') (fn : Option FnScope) : Context.Renumbered ρ ⟨⟨t, e⟩, fn⟩ ⟨⟨t, e'⟩, fn⟩ where
  visible := h
  declared r := by
    cases r with
    | imported m n x => exact congrArg (Option.map ExternalEntry.ty) (ha.globals n)
    | own | localVar | argument | unresolved => rfl
  result := rfl

/-- A program is checked alike against imports in another order. -/
theorem resolve_shuffled (ht : t.Placed) (h : e.Shuffled e') (ha : e.Agrees e') (he : e'.Coherent)
    {p : Program} (hunbound : ∀ it ∈ p.items, it.All .unbound) {P : Diagnostic → Prop}
    (hn : ∀ d ∈ (resolve ⟨t, e⟩ p).notes, P d) :
    (∀ d ∈ (resolve ⟨t, e'⟩ p).notes, P d) ∧
      ∃ σ : CallKind → String → Nat → Nat,
        (∀ kind name i x, (e.overloads kind name)[i]? = some x →
          (e'.overloads kind name)[σ kind name i]? = some x) ∧
        (resolve ⟨t, e'⟩ p).value.items =
          (resolve ⟨t, e⟩ p).value.items.map (Item.relabel (Renumbering.ofExternal σ).relabel) := by
  have hre := Reordered.of_shuffled ht h he
  have hcx := Context.renumbered_of_agrees hre.renumbered ha
  obtain ⟨hn', hitems⟩ := resolve_moved (Moved.refl p.items) (hcx none)
    (fun i => by
      rw [Equiv.refl_apply]
      cases t.overloadForItem i with
      | none => exact .none
      | some o => exact .some (hcx _))
    hunbound hn
  rw [renumbering_of_placed ht] at hitems
  refine ⟨hn', _, fun kind name i x hx => ?_, List.ext_getElem? hitems⟩
  exact getElem?_reindex (hre.external_map kind name) hx

end Typing

/-- What becomes of an accepted program if its imports are put in another order: the table of the
module stays, the same modules are imported and the same entries known. A call of an imported
overload finds it at another place. -/
structure Resolved.Reimported (imports : List Import) (r r' : Resolved) : Prop where
  table : r'.table = r.table
  modules : r'.modules.Perm r.modules
  externals : r.externals.Shuffled r'.externals
  program : ∃ σ : CallKind → String → Nat → Nat,
    (∀ kind name i x, (r.externals.overloads kind name)[i]? = some x →
      (r'.externals.overloads kind name)[σ kind name i]? = some x) ∧
    r'.program = ⟨imports, r.program.items.map (Item.relabel (Renumbering.ofExternal σ).relabel)⟩ ∧
    ∀ it ∈ r.program.items,
      it.All (.calls fun b => ∃ sig, Visible.Designates ⟨r.table, r.externals⟩ b sig ∧
      Visible.Designates ⟨r'.table, r'.externals⟩ ((Renumbering.ofExternal σ).binding b) sig)

/-- What the choice of overloads makes of a program with its imports in another order. -/
theorem checked_reimport (hfresh : ∀ i ∈ p.items, i.All .fresh)
    (hplaced : (stages p headers o).tagged.value.2.Placed)
    (h : (stages p headers o).externals.Shuffled (stages (p.reimport imports) headers o).externals)
    (ha : (stages p headers o).externals.Agrees (stages (p.reimport imports) headers o).externals)
    (he : (stages (p.reimport imports) headers o).externals.Coherent) {P : Diagnostic → Prop}
    (hn : ∀ d ∈ (stages p headers o).checked.notes, P d) :
    (∀ d ∈ (stages (p.reimport imports) headers o).checked.notes, P d) ∧
      ∃ σ : CallKind → String → Nat → Nat,
        (∀ kind name i x, ((stages p headers o).externals.overloads kind name)[i]? = some x →
          ((stages (p.reimport imports) headers o).externals.overloads kind name)[σ kind name i]? =
            some x) ∧
        (stages (p.reimport imports) headers o).checked.value = ⟨imports,
          (stages p headers o).checked.value.items.map
            (Item.relabel (Renumbering.ofExternal σ).relabel)⟩ := by
  obtain ⟨-, htagged, hgrouped⟩ := stages_reimport h ha
  have hchecked : (stages (p.reimport imports) headers o).checked = Program.reimport imports <$>
      Typing.resolve ⟨(stages p headers o).tagged.value.2,
        (stages (p.reimport imports) headers o).externals⟩ (stages p headers o).grouped.value := by
    rw [checked_stages, Stages.visible, htagged, hgrouped, Noted.value_map, Noted.value_map,
      Typing.resolve_reimport]
  rw [checked_stages] at hn
  obtain ⟨hn', σ, hσ, hitems⟩ := Typing.resolve_shuffled hplaced h ha he (unbound_grouped hfresh) hn
  refine ⟨?_, σ, hσ, ?_⟩
  · rw [hchecked, Noted.notes_map]
    exact hn'
  · rw [hchecked, Noted.value_map, Program.reimport, hitems, checked_stages]

/-- A program that is accepted is accepted with its imports in another order. -/
theorem resolve_reimport (hfresh : ∀ i ∈ p.items, i.All .fresh) (hp : imports.Perm p.imports)
    {r : Resolved} (hr : resolve p headers o = .ok r) :
    ∃ r', resolve (p.reimport imports) headers o = .ok r' ∧ r.Reimported imports r' := by
  obtain ⟨hn, rfl⟩ := resolve_eq_ok_iff.1 hr
  obtain ⟨himported, hdeclared, htagged, hgrouped, hchecked, hflow⟩ := Stages.forall_notes.1 hn
  obtain ⟨himported', hshuffled, ht, ht'⟩ := imported_reimport hp himported
  have ha := hshuffled.agrees ht ht'
  obtain ⟨hdeclared', htagged', hgrouped'⟩ := stages_reimport hshuffled ha
  have hplaced := (accepted_declared fun d hd => (hn d hd).1).placed_tagged
  obtain ⟨hchecked', σ, hσ, hprogram⟩ := checked_reimport hfresh hplaced hshuffled ha ht' hchecked
  have hflow' :
      ∀ d ∈ (stages (p.reimport imports) headers o).flow.notes, Admitted o.denyWarnings d := by
    rw [flow_stages, hprogram]
    rw [flow_stages] at hflow
    exact Flow.program_moved (Moved.refl _) hflow
  have hnotes : ∀ d ∈ (stages (p.reimport imports) headers o).notes, Admitted o.denyWarnings d := by
    refine Stages.forall_notes.2 ⟨himported', ?_, ?_, ?_, hchecked', hflow'⟩
    · rw [hdeclared', Noted.notes_map]
      exact hdeclared
    · rw [htagged', Noted.notes_map]
      exact htagged
    · rw [hgrouped', Noted.notes_map]
      exact hgrouped
  have hmodules : (stages (p.reimport imports) headers o).imported.value.modules.Perm
      (stages p headers o).imported.value.modules := by
    rw [imported_stages, imported_stages, Imports.modules_merge, Imports.modules_merge]
    exact Imports.modules_perm hp
  have htable :
      (stages (p.reimport imports) headers o).tagged.value.2 =
        (stages p headers o).tagged.value.2 := by
    rw [htagged', Noted.value_map]
  have hcalls := all_calls_checked hfresh fun d hd => (hn d hd).1
  refine ⟨_, resolve_eq_ok_iff.2 ⟨hnotes, rfl⟩, ?_⟩
  -- from here on only the results of the passes matter, not how they came about
  generalize stages p headers o = s at hshuffled hσ hprogram hmodules htable hcalls ⊢
  generalize stages (p.reimport imports) headers o = s' at hshuffled hσ hprogram hmodules htable ⊢
  refine ⟨htable, hmodules, hshuffled, σ, hσ, hprogram,
    fun it hit => (hcalls it hit).mono (Nodes.calls_mono ?_)⟩
  rintro b ⟨sig, hb⟩
  have htable' : s'.resolved.table = s.resolved.table := htable
  refine ⟨sig, hb, hb.renumber (fun {kind name i x} hx => ⟨x, ?_, rfl⟩) (hσ _ _ _ _)⟩
  rw [htable']
  exact hx

end

/-- The order of the import lines of a program does not matter. With any other order it is accepted
as well or refused as well; if it is accepted, the result is the same up to the places of imported
overloads, and every call stands for the overload that it stood for. -/
theorem resolve_of_imports_perm {text : String} {p : Program} {imports : List Import}
    (headers : HeaderTexts) (o : Options) (hp : Program.ofText text = .ok p)
    (hperm : imports.Perm p.imports) :
    ((∃ r, resolve p headers o = .ok r) ↔ ∃ r, resolve (p.reimport imports) headers o = .ok r) ∧
      ∀ r r', resolve p headers o = .ok r → resolve (p.reimport imports) headers o = .ok r' →
        r.Reimported imports r' := by
  have hfresh := (Program.printable_of_ofText hp).2.all
  refine correspond_of_ok (resolve_reimport hfresh hperm) fun {r} hr => ?_
  have hback : p.imports.Perm (p.reimport imports).imports := hperm.symm
  obtain ⟨r', hr', -⟩ := resolve_reimport (p := p.reimport imports) hfresh hback hr
  exact ⟨r', hr'⟩

/-- The header of a module that exports a function `f` with the given parameters and an `Int` as its
result. -/
def overloadHeader (module params : String) : String × String :=
  (module, "\x7b\"module\":\"" ++ module ++
    "\",\"functions\":[\x7b\"namespace\":\"function\",\"name\":\"f\"," ++
    "\"type\":\"FUNTYPE(type_params=[" ++ params ++
      "],return_type=BASICTYPE(type_id=\\\"Int\\\"))\"\x7d]\x7d")

/-- The headers of two modules that export overloads of one name. -/
def overloadHeaders : HeaderTexts :=
  [overloadHeader "a" "", overloadHeader "b" "BASICTYPE(type_id=\\\"Bool\\\")"]

/-- Two modules export overloads of one name, both of which are called; the import lines are turned
round. -/
theorem resolve_of_imports_perm_overloads : ∃ p r r',
    Program.ofText
      "from a import f; from b importall; g(x) :: Int -> Int \x7b return f() + f(True); \x7d" =
        .ok p ∧
    resolve p overloadHeaders { module := "m" } = .ok r ∧
    resolve (p.reimport p.imports.reverse) overloadHeaders { module := "m" } = .ok r' ∧
    r.Reimported p.imports.reverse r' := by
  have hok :
      (compile
        "from a import f; from b importall; g(x) :: Int -> Int \x7b return f() + f(True); \x7d"
      overloadHeaders { module := "m" }).isOk = true := by
    decide +kernel
  obtain ⟨r, hr⟩ := isOk_iff.1 hok
  obtain ⟨p, hp, hresolve⟩ := bind_eq_ok_iff.1 hr
  obtain ⟨hiff, hsame⟩ :=
    resolve_of_imports_perm overloadHeaders { module := "m" } hp (List.reverse_perm p.imports)
  obtain ⟨r', hr'⟩ := hiff.1 ⟨r, hresolve⟩
  exact ⟨p, r, r', hp, hresolve, hr', hsame r r' hresolve hr'⟩

end SplFrontend
