import Mathlib.Logic.Equiv.Basic
import SplFrontend.Proofs.Order.Imports
import SplFrontend.Proofs.Order.Tables

/-!
# Programs with their items in another order

The order of functions and synonyms decides nothing but the places of overloads in the table of the
module. Each pass treats an item at its new place as at its old one: it sees the same globals, the
same synonyms, and the same overloads in another order.
-/

namespace SplFrontend

variable {π : Nat ≃ Nat} {p p' : Program} {e : ExternalTable} {o : Options} {t t' : ModuleTable}

/-! ## Variables -/

namespace Scoping

/-- Scoping finds the same variables at the new places, and the overload sets that it leaves
correspond. -/
theorem resolve_rearranged (h : Accepted e o p t) (h' : Accepted e o p' t')
    (hr : Rearranged π p.items p'.items) {P : Diagnostic → Prop}
    (hn : ∀ d ∈ (resolve e p t).notes, P d) :
    (∀ d ∈ (resolve e p' t').notes, P d) ∧
      Moved π (resolve e p t).value.1.items (resolve e p' t').value.1.items ∧
      (resolve e p t).value.2.Rearranged π (resolve e p' t').value.2 ∧
      ∀ i, (resolve e p' t').value.2.overloadForItem (π i) =
        ((resolve e p t).value.2.overloadForItem i).map (.move π) := by
  have ht := h.table_rearranged h' hr
  -- of the table, an item sees the globals and its own parameters, and neither depends on the order
  have hat : ∀ i, itemAt e t' (π i) = itemAt e t i := fun i => by
    refine itemAt_congr ht.globals ?_
    rw [ht.overloadForItem h.keyed h'.keyed h.placed h'.placed, Option.map_map]
    rfl
  have hlocals : ∀ i, localsAt e t' p'.items (π i) = localsAt e t p.items i := fun i => by
    rw [localsAt, localsAt, hr.moved, hat]
  have hsettle := ht.settle hlocals
  rw [resolve_eq h.placed] at hn ⊢
  rw [resolve_eq h'.placed]
  obtain ⟨hn', hmoved⟩ :=
    hr.moved.run (f := fun x => itemAt e t x.2 x.1) (k := fun x => itemAt e t' x.2 x.1) (g := id)
    (fun i it _ hd => by
      rw [hat]
      exact ⟨hd, rfl⟩) hn
  refine ⟨hn', ?_, hsettle, ?_⟩
  · have hitems := hmoved.map Prod.fst
    rwa [List.map_id, List.map_map, List.map_map] at hitems
  · exact hsettle.overloadForItem (ModuleTable.keyed_settle h.keyed _)
      (ModuleTable.keyed_settle h'.keyed _) (h.placed.settle _) (h'.placed.settle _)

end Scoping

/-! ## Operators -/

theorem ModuleTable.fixityOf_settle (locals : Nat → Option Scope) (t : ModuleTable) (op : String) :
    (t.settle locals).fixityOf op = t.fixityOf op := by
  rw [fixityOf, overloads_settle, List.findSome?_map]
  rfl

theorem Head.eq_infixOp_of_fixity {head : Head} {x : Fixity} (h : head.fixity? = some x) :
    head = .infixOp x := by
  cases head with
  | infixOp y => rw [Option.some.inj h]
  | function | prefixOp => cases h

namespace Accepted

theorem fixity_of_mem (h : Accepted e o p t) : ∃ φ : String → Fixity,
    ∀ {op ov x}, ov ∈ t.overloads .infixOp op → ov.fixity = some x → φ op = x := by
  obtain ⟨φ, hφ⟩ := h.fixity
  refine ⟨φ, fun {op ov x} hov hx => ?_⟩
  rw [h.overloads] at hov
  obtain ⟨⟨it, i⟩, hit, hat⟩ := List.mem_filterMap.1 hov
  cases it with
  | synonym | global => cases hat
  | fn f =>
    obtain ⟨⟨-, rfl⟩, hsig⟩ := Option.ite_none_right_eq_some.1 hat
    obtain ⟨sig, -, rfl⟩ := Option.map_eq_some_iff.1 hsig
    exact hφ.own f (List.mem_of_getElem? (List.mk_mem_zipIdx_iff_getElem?.1 hit)) x
      (Head.eq_infixOp_of_fixity hx)

theorem fixityOf_eq_some (h : Accepted e o p t) {op : String} {x : Fixity} :
    t.fixityOf op = some x ↔ ∃ ov ∈ t.overloads .infixOp op, ov.fixity = some x := by
  obtain ⟨φ, hφ⟩ := h.fixity_of_mem
  constructor
  · exact List.exists_of_findSome?_eq_some
  · rintro ⟨ov, hov, hx⟩
    cases hy : t.fixityOf op with
    | none => exact absurd (List.findSome?_eq_none_iff.1 hy ov hov) (by simp [hx])
    | some y =>
      obtain ⟨ov', hov', hy'⟩ := List.exists_of_findSome?_eq_some hy
      rw [← hφ hov' hy', ← hφ hov hx]

theorem fixityOf_rearranged (h : Accepted e o p t) (h' : Accepted e o p' t')
    (ht : t.Rearranged π t') (op : String) :
    t'.fixityOf op = t.fixityOf op := by
  refine Option.ext fun x => ?_
  rw [h.fixityOf_eq_some, h'.fixityOf_eq_some]
  simp only [(ht.overloads .infixOp op).mem_iff, List.mem_map]
  constructor
  · rintro ⟨_, ⟨ov, hov, rfl⟩, hx⟩
    exact ⟨ov, hov, hx⟩
  · rintro ⟨ov, hov, hx⟩
    exact ⟨_, ⟨ov, hov, rfl⟩, hx⟩

/-- After scoping, operators are known as before. -/
theorem agrees_tagged (h : Accepted e o p t) (h' : Accepted e o p' t')
    (hr : Rearranged π p.items p'.items)
    (hs : (Scoping.resolve e p t).value.2.Rearranged π (Scoping.resolve e p' t').value.2) :
    Precedence.Agrees ⟨(Scoping.resolve e p t).value.2, e⟩
      ⟨(Scoping.resolve e p' t').value.2, e⟩ where
  fixity op := by
    rw [Visible.fixityOf, Visible.fixityOf, Scoping.resolve_eq h.placed,
      Scoping.resolve_eq h'.placed, ModuleTable.fixityOf_settle, ModuleTable.fixityOf_settle,
        h.fixityOf_rearranged h' (h.table_rearranged h' hr)]
  isEmpty name := by
    rw [Precedence.isEmpty_candidates, Precedence.isEmpty_candidates,
      (hs.overloads .prefixOp name).isEmpty_eq, List.isEmpty_map]

end Accepted

theorem Precedence.resolve_moved {v v' : Visible} (ha : Agrees v v') (hm : Moved π p.items p'.items)
    {P : Diagnostic → Prop} (hn : ∀ d ∈ (resolve v p).notes, P d) :
    (∀ d ∈ (resolve v' p').notes, P d) ∧
      Moved π (resolve v p).value.items (resolve v' p').value.items := by
  have hitem : item v' = item v := funext (item_agrees ha)
  have hnotes :
      ∀ (v : Visible) (p : Program), (resolve v p).notes =
        p.items.flatMap fun it => (item v it).notes := by
    intro v p
    rw [resolve, Noted.notes_bind, Noted.notes_mapM, Noted.notes_pure, List.append_nil]
  rw [items_resolve, items_resolve, hitem]
  refine ⟨fun d hd => hn d ?_, hm.map _⟩
  rw [hnotes, List.mem_flatMap] at hd ⊢
  obtain ⟨it, hit, hd⟩ := hd
  rw [hitem] at hd
  exact ⟨it, hm.perm.mem_iff.1 hit, hd⟩

/-! ## Overloads -/

/-- A call keeps its overload from elsewhere; one of the module at hand may stand at another
place. -/
abbrev Renumbering.ofOwn (own : CallKind → String → Nat → Nat) : Renumbering :=
  ⟨own, fun _ _ i => i⟩

namespace Typing

theorem Reordered.of_rearranged (ht : t.Rearranged π t') (hp : t'.Placed)
    (he : ∀ kind name, (e.overloads kind name).Nodup) : Reordered (.move π) ⟨t, e⟩ ⟨t', e⟩ where
  sig _ := rfl
  own := ht.overloads
  nodup_own := hp.nodup_overloads
  external _ _ := .refl _
  nodup_external := he

theorem renumbering_of_nodup (he : ∀ kind name, (e.overloads kind name).Nodup)
    (f : LocalOverload → LocalOverload) :
    renumbering f ⟨t, e⟩ ⟨t', e⟩ = .ofOwn (renumbering f ⟨t, e⟩ ⟨t', e⟩).own := by
  rw [renumbering]
  congr 1
  funext kind name i
  exact reindex_self (he kind name) i

theorem Context.renumbered_of_globals {ρ : Renumbering} (h : Typing.Renumbered ρ ⟨t, e⟩ ⟨t', e⟩)
    (hg : t'.globals = t.globals) (fn : Option FnScope) :
    Context.Renumbered ρ ⟨⟨t, e⟩, fn⟩ ⟨⟨t', e⟩, fn⟩ where
  visible := h
  declared r := by
    cases r with
    | own name => exact congrArg (fun g => (List.lookup name g).map Entry.ty) hg
    | imported | localVar | argument | unresolved => rfl
  result := rfl

/-- A program is checked alike with its items in another order. -/
theorem resolve_rearranged (ht : t.Rearranged π t') (hp : t'.Placed)
    (hitem : ∀ i, t'.overloadForItem (π i) = (t.overloadForItem i).map (.move π))
    (he : ∀ kind name, (e.overloads kind name).Nodup) (hm : Moved π p.items p'.items)
    (hunbound : ∀ it ∈ p.items, it.All .unbound) {P : Diagnostic → Prop}
    (hn : ∀ d ∈ (resolve ⟨t, e⟩ p).notes, P d) :
    (∀ d ∈ (resolve ⟨t', e⟩ p').notes, P d) ∧
      ∃ σ : CallKind → String → Nat → Nat,
        (∀ kind name i x, (t.overloads kind name)[i]? = some x →
          (t'.overloads kind name)[σ kind name i]? = some (x.move π)) ∧
        Moved π ((resolve ⟨t, e⟩ p).value.items.map (Item.relabel (Renumbering.ofOwn σ).relabel))
          (resolve ⟨t', e⟩ p').value.items := by
  have hre := Reordered.of_rearranged ht hp he
  have hcx := Context.renumbered_of_globals hre.renumbered ht.globals
  obtain ⟨hn', hitems⟩ := resolve_moved hm (hcx none)
    (fun i => by
      rw [hitem]
      cases t.overloadForItem i with
      | none => exact .none
      | some o => exact .some (hcx _))
    hunbound hn
  rw [renumbering_of_nodup he] at hitems
  exact ⟨hn', _, fun kind name i x hx => getElem?_reindex (hre.own kind name) hx, hitems⟩

end Typing

/-! ## Programs -/

/-- The program with other items. -/
abbrev Program.rearrange (items : List Item) (p : Program) : Program := { p with items }

/-- What becomes of an accepted program if its items are put in another order: the imports stay, the
table of the module holds the same entries, and each item is rewritten as it was. A call of an
overload of the module finds it at another place. -/
structure Resolved.Rearranged (π : Nat ≃ Nat) (r r' : Resolved) : Prop where
  externals : r'.externals = r.externals
  modules : r'.modules = r.modules
  imports : r'.program.imports = r.program.imports
  table : r.table.Rearranged π r'.table
  items : ∃ σ : CallKind → String → Nat → Nat,
    (∀ kind name i x, (r.table.overloads kind name)[i]? = some x →
      (r'.table.overloads kind name)[σ kind name i]? = some (x.move π)) ∧
    Moved π (r.program.items.map (Item.relabel (Renumbering.ofOwn σ).relabel)) r'.program.items ∧
    ∀ it ∈ r.program.items,
      it.All (.calls fun b => ∃ sig, Visible.Designates ⟨r.table, r.externals⟩ b sig ∧
      Visible.Designates ⟨r'.table, r'.externals⟩ ((Renumbering.ofOwn σ).binding b) sig)

/-- What the passes before the choice of overloads make of a program and of the same with its items
in another order, if their reports satisfy `P`. -/
structure Stages.Rearranged (π : Nat ≃ Nat) (P : Diagnostic → Prop) (s s' : Stages) : Prop where
  imported : s'.imported = s.imported
  declared : ∀ d ∈ s'.declared.notes, P d
  tagged : ∀ d ∈ s'.tagged.notes, P d
  grouped : ∀ d ∈ s'.grouped.notes, P d
  table : s.tagged.value.2.Rearranged π s'.tagged.value.2
  placed : s'.tagged.value.2.Placed
  overloadForItem : ∀ i, s'.tagged.value.2.overloadForItem (π i) =
    (s.tagged.value.2.overloadForItem i).map (.move π)
  items : Moved π s.grouped.value.items s'.grouped.value.items

section
variable {headers : HeaderTexts} {items : List Item}

theorem stages_rearrange (hr : Rearranged π p.items items) {P : Diagnostic → Prop}
    (hn : ∀ d ∈ (stages p headers o).notes, NotError d ∧ P d) :
    (stages p headers o).Rearranged π P (stages (p.rearrange items) headers o) := by
  have hnotes : ∀ d ∈ (stages p headers o).notes, NotError d := fun d hd => (hn d hd).1
  obtain ⟨-, -, htagged, hgrouped, -⟩ := Stages.forall_notes.1 fun d hd => (hn d hd).2
  obtain ⟨-, hdeclared, -⟩ := Stages.forall_notes.1 hnotes
  have himported :
      (stages (p.rearrange items) headers o).imported = (stages p headers o).imported := by
    rw [imported_stages, imported_stages]
  have hexternals :
      (stages (p.rearrange items) headers o).externals = (stages p headers o).externals := by
    rw [Stages.externals, himported]
  have hdeclared' : (stages (p.rearrange items) headers o).declared =
      declareModule (stages p headers o).externals (p.rearrange items) (.start o) := by
    rw [declared_stages, hexternals]
  have htagged' :
      (stages (p.rearrange items) headers o).tagged = Scoping.resolve (stages p headers o).externals
      (stages (p.rearrange items) headers o).declared.value.1
      (stages (p.rearrange items) headers o).declared.value.2 := by
    rw [tagged_stages, hexternals]
  have hgrouped' : (stages (p.rearrange items) headers o).grouped = Precedence.resolve
      ⟨(stages (p.rearrange items) headers o).tagged.value.2, (stages p headers o).externals⟩
      (stages (p.rearrange items) headers o).tagged.value.1 := by
    rw [grouped_stages, Stages.visible, hexternals]
  have hr' : Rearranged π p.items (p.rearrange items).items := hr
  have hexpanded : ∀ x ∈ (stages p headers o).externals.synonyms, x.2.ty.Expanded :=
    expanded_externals
  obtain ⟨hnone, hitems, -⟩ := declareModule_rearranged hexpanded hr' hdeclared
  have ha := accepted_declared hnotes
  have ha' := accepted_of_notes hexpanded fun d hd => absurd hd (hnone ▸ List.not_mem_nil)
  rw [← hdeclared'] at hnone hitems ha'
  obtain ⟨htaggedNotes, htaggedItems, htable, hitem⟩ :=
    Scoping.resolve_rearranged ha ha' hitems htagged
  have hagrees := ha.agrees_tagged ha' hitems htable
  have hplaced := ha'.placed_tagged
  rw [← htagged'] at htaggedNotes htaggedItems htable hitem hagrees hplaced
  obtain ⟨hgroupedNotes, hgroupedItems⟩ := Precedence.resolve_moved hagrees htaggedItems hgrouped
  rw [← hgrouped'] at hgroupedNotes hgroupedItems
  refine ⟨himported, ?_, htaggedNotes, hgroupedNotes, htable, hplaced, hitem, hgroupedItems⟩
  rw [hnone]
  exact List.forall_mem_nil _

/-- A program that is accepted is accepted with its items in another order. -/
theorem resolve_rearrange (hfresh : ∀ i ∈ p.items, i.All .fresh) (hr : Rearranged π p.items items)
    {r : Resolved} (h : resolve p headers o = .ok r) :
    ∃ r', resolve (p.rearrange items) headers o = .ok r' ∧ r.Rearranged π r' := by
  obtain ⟨hn, rfl⟩ := resolve_eq_ok_iff.1 h
  have hnotes : ∀ d ∈ (stages p headers o).notes, NotError d := fun d hd => (hn d hd).1
  obtain ⟨himported, -, -, -, hchecked, hflow⟩ := Stages.forall_notes.1 hn
  have hs := stages_rearrange hr fun d hd => ⟨(hn d hd).1, hn d hd⟩
  have hexternals :
      (stages (p.rearrange items) headers o).externals = (stages p headers o).externals := by
    rw [Stages.externals, hs.imported]
  obtain ⟨-, -, hcoherent, -⟩ := imported_reimport (p := p) (.refl _) himported
  obtain ⟨hcheckedNotes, σ, hσ, hitems⟩ :=
    Typing.resolve_rearranged hs.table hs.placed hs.overloadForItem
    hcoherent.nodup_overloads hs.items (unbound_grouped hfresh) hchecked
  have hchecked' : (stages (p.rearrange items) headers o).checked = Typing.resolve
      ⟨(stages (p.rearrange items) headers o).tagged.value.2, (stages p headers o).externals⟩
      (stages (p.rearrange items) headers o).grouped.value := by
    rw [checked_stages, Stages.visible, hexternals]
  have hcheckedItems : Moved π
      ((stages p headers o).checked.value.items.map (Item.relabel (Renumbering.ofOwn σ).relabel))
      (stages (p.rearrange items) headers o).checked.value.items := by
    rw [hchecked']
    exact hitems
  rw [← hchecked'] at hcheckedNotes
  have hflow' :
      ∀ d ∈ (stages (p.rearrange items) headers o).flow.notes, Admitted o.denyWarnings d :=
    Flow.program_moved hcheckedItems hflow
  rw [← hs.imported] at himported
  have hnotes' : ∀ d ∈ (stages (p.rearrange items) headers o).notes, Admitted o.denyWarnings d :=
    Stages.forall_notes.2 ⟨himported, hs.declared, hs.tagged, hs.grouped, hcheckedNotes, hflow'⟩
  have himports : (stages (p.rearrange items) headers o).checked.value.imports =
      (stages p headers o).checked.value.imports := by
    rw [imports_checked, imports_checked]
  have hmodules : (stages (p.rearrange items) headers o).imported.value.modules =
      (stages p headers o).imported.value.modules := by
    rw [hs.imported]
  have hcalls := all_calls_checked hfresh hnotes
  have htable := hs.table
  refine ⟨_, resolve_eq_ok_iff.2 ⟨hnotes', rfl⟩, ?_⟩
  -- from here on only the results of the passes matter, not how they came about
  generalize stages p headers o = s at htable hexternals hσ hcheckedItems himports hmodules hcalls ⊢
  generalize stages (p.rearrange items) headers o = s'
    at htable hexternals hσ hcheckedItems himports hmodules ⊢
  refine ⟨hexternals, hmodules, himports, htable, σ, hσ, hcheckedItems, fun it hit =>
    (hcalls it hit).mono (Nodes.calls_mono ?_)⟩
  rintro b ⟨sig, hb⟩
  have hexternals' : s'.resolved.externals = s.resolved.externals := hexternals
  refine ⟨sig, hb, hb.renumber (fun {kind name i x} hx => ⟨x.move π, hσ kind name i x hx, rfl⟩)
    fun {kind name i x} hx => ?_⟩
  rw [hexternals']
  exact hx

end

/-- The order of functions and synonyms does not matter. With the items in any order in which the
globals follow each other as before, a program is accepted as well or refused as well; if it is
accepted, the items are rewritten as before up to the places of overloads of the module, every call
stands for the overload that it stood for, and the table holds the same entries. -/
theorem resolve_of_rearranged {text : String} {p : Program} {items : List Item}
    (headers : HeaderTexts) (o : Options) (hp : Program.ofText text = .ok p)
    (hr : Rearranged π p.items items) :
    ((∃ r, resolve p headers o = .ok r) ↔ ∃ r, resolve (p.rearrange items) headers o = .ok r) ∧
      ∀ r r', resolve p headers o = .ok r → resolve (p.rearrange items) headers o = .ok r' →
        r.Rearranged π r' := by
  have hfresh := (Program.printable_of_ofText hp).2.all
  refine correspond_of_ok (resolve_rearrange hfresh hr) fun {r} h => ?_
  have hfresh' : ∀ it ∈ (p.rearrange items).items, it.All .fresh := fun it hit =>
    hfresh it (hr.moved.perm.mem_iff.1 hit)
  obtain ⟨r', h', -⟩ := resolve_rearrange hfresh' hr.symm h
  exact ⟨r', h'⟩

/-- Is the item a global? -/
def Item.isGlobal : Item → Bool
  | .global _ => true
  | _ => false

/-- Two items other than globals may change places. -/
theorem Rearranged.swap {its : List Item} {i j : Nat} {a b : Item} (hi : its[i]? = some a)
    (hj : its[j]? = some b) (ha : a.isGlobal = false) (hb : b.isGlobal = false) :
    Rearranged (Equiv.swap i j) its ((its.set i b).set j a) := by
  -- globals stay where they are
  have hfix : ∀ {k d}, its[k]? = some (.global d) → Equiv.swap i j k = k := by
    intro k d hk
    refine Equiv.swap_apply_of_ne_of_ne ?_ ?_
    · rintro rfl
      cases hi.symm.trans hk
      cases ha
    · rintro rfl
      cases hj.symm.trans hk
      cases hb
  refine ⟨fun k => ?_, fun {k l d e} hkl hk hl => ?_⟩
  · have hilt := (List.getElem?_eq_some_iff.1 hi).1
    have hjlt := (List.getElem?_eq_some_iff.1 hj).1
    by_cases hki : k = i
    · subst hki
      rw [Equiv.swap_apply_left, List.getElem?_set_self (by simpa using hjlt), hi]
    · by_cases hkj : k = j
      · subst hkj
        rw [Equiv.swap_apply_right, List.getElem?_set_ne hki, List.getElem?_set_self hilt, hj]
      · rw [Equiv.swap_apply_of_ne_of_ne hki hkj, List.getElem?_set_ne (Ne.symm hkj),
          List.getElem?_set_ne (Ne.symm hki)]
  · rw [hfix hk, hfix hl]
    exact hkl

/-- Two overloads of a name change places, with two globals between them that depend on each
other. -/
theorem resolve_of_rearranged_overloads : ∃ p items r r',
    Program.ofText ("f(x) :: Int -> Int \x7b return x + k; \x7d Int g = 1; Int k = g;" ++
      "f(x) :: T -> Int \x7b return f(2); \x7d type T = Bool;") = .ok p ∧
    Rearranged (Equiv.swap 0 3) p.items items ∧
    resolve p [] { module := "m" } = .ok r ∧
      resolve (p.rearrange items) [] { module := "m" } = .ok r' ∧
    r.Rearranged (Equiv.swap 0 3) r' := by
  have hok : (compile ("f(x) :: Int -> Int \x7b return x + k; \x7d Int g = 1; Int k = g;" ++
      "f(x) :: T -> Int \x7b return f(2); \x7d type T = Bool;") [] { module := "m" }).isOk =
      true := by
    decide +kernel
  have hshape :
      (Program.ofText ("f(x) :: Int -> Int \x7b return x + k; \x7d Int g = 1; Int k = g;" ++
      "f(x) :: T -> Int \x7b return f(2); \x7d type T = Bool;")).toOption.map
        (fun p => p.items.map Item.isGlobal) =
        some [false, true, true, false, false] := by
    decide +kernel
  obtain ⟨r, h⟩ := isOk_iff.1 hok
  obtain ⟨p, hp, hresolve⟩ := bind_eq_ok_iff.1 h
  rw [hp] at hshape
  have hglobals : p.items.map Item.isGlobal = [false, true, true, false, false] :=
    Option.some.inj hshape
  have hitem : ∀ {i : Nat}, (p.items.map Item.isGlobal)[i]? = some false →
      ∃ a : Item, p.items[i]? = some a ∧ a.isGlobal = false := fun {i} hi =>
    Option.map_eq_some_iff.1 ((List.getElem?_map ..).symm.trans hi)
  obtain ⟨a, ha, hna⟩ := hitem (i := 0) (by rw [hglobals]; rfl)
  obtain ⟨b, hb, hnb⟩ := hitem (i := 3) (by rw [hglobals]; rfl)
  have hr := Rearranged.swap ha hb hna hnb
  obtain ⟨hiff, hsame⟩ := resolve_of_rearranged [] { module := "m" } hp hr
  obtain ⟨r', h'⟩ := hiff.1 ⟨r, hresolve⟩
  exact ⟨p, _, r, r', hp, hr, hresolve, h', hsame r r' hresolve h'⟩

end SplFrontend
