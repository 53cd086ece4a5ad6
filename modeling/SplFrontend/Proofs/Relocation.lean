import SplFrontend.Proofs.Callables
import SplFrontend.Proofs.Exports
import SplFrontend.Typing

/-!
# Tables under a change of places

A table with all its places moved by a function `g`. Whatever the tables are asked for by name or by
number they answer with, moved by `g`, and what they export has no places in it. With the identity
this is the table itself; with `Loc.forget` it is the table up to places.
-/

namespace SplFrontend

/-- Forgets a place. -/
def Loc.forget : Loc → Loc := fun _ => .nowhere

/-! ## Scopes and overloads -/

/-- The entry with its place moved. -/
def Entry.relocate (g : Loc → Loc) (e : Entry) : Entry := ⟨e.ty, g e.loc⟩

/-- The scope with its places moved. -/
def Scope.relocate (g : Loc → Loc) (s : Scope) : Scope := s.map fun x => (x.1, x.2.relocate g)

namespace Scope

variable {g : Loc → Loc}

theorem relocate_id (s : Scope) : s.relocate id = s := List.map_id s

theorem relocate_append (s s' : Scope) : relocate g (s ++ s') = s.relocate g ++ s'.relocate g :=
  List.map_append

theorem lookup_relocate (s : Scope) (name : String) :
    (s.relocate g).lookup name = (s.lookup name).map (Entry.relocate g) :=
  lookup_map (Entry.relocate g) name

variable {s s' : Scope}

theorem lookup_eq_of_relocate (h : s'.relocate g = s.relocate g) (name : String) :
    (s'.lookup name).map (Entry.relocate g) = (s.lookup name).map (Entry.relocate g) := by
  rw [← lookup_relocate, ← lookup_relocate, h]

theorem isSome_lookup_of_relocate (h : s'.relocate g = s.relocate g) (name : String) :
    (s'.lookup name).isSome = (s.lookup name).isSome := by
  have hlookup := congrArg Option.isSome (lookup_eq_of_relocate h name)
  rwa [Option.isSome_map, Option.isSome_map] at hlookup

theorem lookup_eq_none_of_relocate (h : s'.relocate g = s.relocate g) {name : String}
    (hs : s.lookup name = none) : s'.lookup name = none := by
  have hnone := isSome_lookup_of_relocate h name
  rw [hs] at hnone
  exact Option.not_isSome_iff_eq_none.1 (Bool.eq_false_iff.1 hnone)

theorem lookup_cases (h : s'.relocate g = s.relocate g) (name : String) :
    s'.lookup name = none ∧ s.lookup name = none ∨
      ∃ e' e, s'.lookup name = some e' ∧ s.lookup name = some e := by
  have hsome := isSome_lookup_of_relocate h name
  cases hs : s.lookup name with
  | none => exact .inl ⟨lookup_eq_none_of_relocate h hs, rfl⟩
  | some e =>
    rw [hs] at hsome
    obtain ⟨e', he'⟩ := Option.isSome_iff_exists.1 hsome
    exact .inr ⟨e', e, he', rfl⟩

end Scope

/-- The overload with its places moved. -/
def LocalOverload.relocate (g : Loc → Loc) (o : LocalOverload) : LocalOverload :=
  { o with loc := g o.loc, args := o.args.relocate g, locals := o.locals.relocate g }

/-! ## Tables -/

namespace Callables

variable {α β : Type}

theorem mapSets_id (fs : Callables α) : (fs.mapSets fun _ => id) = fs := by
  simp only [mapSets, List.map_id_fun, id, List.map_id']

theorem map_modify {g : α → β} {f : α → α} {f' : β → β} (hf : ∀ o, f' (g o) = g (f o))
    (set : List α) (i : Nat) :
    (set.modify i f).map g = (set.map g).modify i f' := by
  induction set generalizing i with
  | nil => cases i <;> rfl
  | cons o set ih =>
    cases i with
    | zero => exact congrArg (· :: _) (hf o).symm
    | succ i => exact congrArg (g o :: ·) (ih i)

/-- Changing the first overload commutes with changing all of them. -/
theorem mapSets_updateFirst_comm {g : α → β} {p : α → Bool} {q : β → Bool} {f : α → α} {h : β → β}
    (hp : ∀ o, q (g o) = p o) (hf : ∀ o, h (g o) = g (f o)) (fs : Callables α) :
    (fs.updateFirst p f).mapSets (fun _ => g) = (fs.mapSets fun _ => g).updateFirst q h := by
  induction fs with
  | nil => rfl
  | cons x fs ih =>
    obtain ⟨key, set⟩ := x
    have hindex : (set.map g).findIdx? q = set.findIdx? p := by
      rw [List.findIdx?_map]
      congr 1
      funext o
      exact hp o
    have hcons : ∀ set : List α, mapSets (fun _ => g) ((key, set) :: fs) =
        (key, set.map g) :: mapSets (fun _ => g) fs := fun _ => rfl
    rw [hcons, updateFirst, updateFirst, hindex]
    cases set.findIdx? p with
    | none => exact congrArg _ ih
    | some i =>
      refine congrArg (· :: _) (congrArg (Prod.mk key) ?_)
      exact map_modify hf set i

end Callables

namespace ModuleTable

/-- The table with its places moved. -/
def relocate (g : Loc → Loc) (t : ModuleTable) : ModuleTable where
  module := t.module
  globals := t.globals.relocate g
  synonyms := t.synonyms.relocate g
  functions := t.functions.mapSets fun _ => LocalOverload.relocate g

/-- The table up to places. -/
abbrev unlocated (t : ModuleTable) : ModuleTable := t.relocate .forget

variable {g : Loc → Loc}

theorem relocate_id (t : ModuleTable) : t.relocate id = t := by
  have hoverload : LocalOverload.relocate id = id := by
    funext o
    simp only [LocalOverload.relocate, Scope.relocate_id, id]
  simp only [relocate, Scope.relocate_id, hoverload, Callables.mapSets_id]

theorem exports_relocate (t : ModuleTable) : (t.relocate g).exports = t.exports := by
  simp [exports, relocate, Scope.relocate, Entry.relocate, Callables.mapSets, exported,
    LocalOverload.relocate, Function.comp_def]

theorem headerText_relocate (t : ModuleTable) : (t.relocate g).headerText = t.headerText := by
  rw [headerText, headerText, document_eq, document_eq, exports_relocate]
  rfl

theorem overloads_relocate (t : ModuleTable) (kind : CallKind) (name : String) :
    (t.relocate g).overloads kind name = (t.overloads kind name).map (LocalOverload.relocate g) :=
  Callables.get_mapSets (fun _ => LocalOverload.relocate g) t.functions (kind, name)

theorem overloadForItem_relocate (t : ModuleTable) (i : Nat) :
    (t.relocate g).overloadForItem i = (t.overloadForItem i).map (LocalOverload.relocate g) := by
  rw [overloadForItem, relocate, Callables.all_mapSets, List.find?_map]
  rfl

theorem setLocals_relocate (t : ModuleTable) (i : Nat) (locals : Scope) :
    (t.setLocals i locals).relocate g = (t.relocate g).setLocals i (locals.relocate g) := by
  have hfunctions := Callables.mapSets_updateFirst_comm (g := LocalOverload.relocate g)
    (p := fun o => o.item = i) (q := fun o => o.item = i) (f := fun o => { o with locals })
    (h := fun o => { o with locals := locals.relocate g }) (fun _ => rfl) (fun _ => rfl) t.functions
  simp only [relocate, setLocals, hfunctions]

theorem fixityOf_relocate (t : ModuleTable) (name : String) :
    (t.relocate g).fixityOf name = t.fixityOf name := by
  rw [fixityOf, overloads_relocate, List.findSome?_map]
  rfl

theorem globalIndex_relocate (t : ModuleTable) (name : String) :
    (t.relocate g).globalIndex name = t.globalIndex name := by
  rw [globalIndex, relocate, Scope.relocate, List.findIdx?_map]
  rfl

variable {t t' : ModuleTable}

theorem exists_overloadForItem (h : t'.relocate g = t.relocate g) {i : Nat} {o : LocalOverload}
    (ho : t.overloadForItem i = some o) :
    ∃ o', t'.overloadForItem i = some o' ∧ o'.relocate g = o.relocate g := by
  have hsame := overloadForItem_relocate (g := g) t' i
  rw [h, overloadForItem_relocate, ho, Option.map_some] at hsame
  obtain ⟨o', ho', heq⟩ := Option.map_eq_some_iff.1 hsame.symm
  exact ⟨o', ho', heq⟩

end ModuleTable

end SplFrontend
