import Mathlib.Data.List.Nodup
import SplFrontend.Proofs.Callables
import SplFrontend.Symbols.Visible

/-!
# Tables only grow

The types of the tables keep overloads of the module at hand and overloads from elsewhere apart.
Here the tables hold overloads of any origin (`RawOverload`), so that an insertion can be tried with
each of them. Both tables insert in the same way: an entry goes behind the others unless one under
the same key is there. They differ in what they answer and in what tells overloads apart, which
makes a `Discipline`. An overload of the module at hand is like no other to the table of imported
names, which stores it as often as it comes.

Any sequence of insertions into an empty table leaves the first insertion under every key, in order,
and nothing else (`Lists`). So keys stay distinct, an entry stays where it is, and an insertion that
is refused tells of the first one under its key. The tables of a module are instances: seen as
tables of this kind, they do the same.
-/

namespace SplFrontend

/-! ## Overloads of any origin -/

/-- Where an overload comes from. -/
inductive Origin where
  /-- The module at hand. -/
  | own (item : Nat) (fixity : Option Fixity) (args locals : Scope)
  /-- Another module or the built-in library. -/
  | external (module exported : String) (fixity : Option Fixity) (constant : Bool)
deriving DecidableEq, Repr

/-- An overload of any origin. -/
structure RawOverload where
  sig : Signature
  loc : Loc
  origin : Origin
deriving DecidableEq, Repr

namespace RawOverload

/-- The module that owns the overload, or `none` for the module at hand. -/
def module (o : RawOverload) : Option String :=
  match o.origin with
  | .own .. => none
  | .external module .. => some module

/-- Do both come from elsewhere, and under one name? -/
def sameOriginal (a b : RawOverload) : Bool :=
  match a.origin, b.origin with
  | .external _ exported _ _, .external _ exported' _ _ => exported = exported'
  | _, _ => false

/-- Do both stand for one callable from elsewhere? -/
def sameExternal (a b : RawOverload) : Bool :=
  a.sig = b.sig && a.module = b.module && sameOriginal a b

/-- The signature of a callable from elsewhere, its module and its name there. -/
def external? (o : RawOverload) : Option (Signature × String × String) :=
  match o.origin with
  | .own .. => none
  | .external module exported .. => some (o.sig, module, exported)

theorem sameExternal_iff (a b : RawOverload) :
    a.sameExternal b = true ↔ ∃ m, a.external? = some m ∧ b.external? = some m := by
  obtain ⟨sig, loc, origin⟩ := a
  obtain ⟨sig', loc', origin'⟩ := b
  cases origin with
  | own => simp [sameExternal, sameOriginal, external?]
  | external module exported =>
    cases origin' with
    | own => simp [sameExternal, sameOriginal, external?]
    | external module' exported' =>
      simp only [sameExternal, sameOriginal, external?, RawOverload.module, Bool.and_eq_true,
        decide_eq_true_eq, Option.some.injEq]
      constructor
      · rintro ⟨⟨rfl, rfl⟩, rfl⟩
        exact ⟨_, rfl, rfl⟩
      · rintro ⟨m, rfl, hm⟩
        cases hm
        exact ⟨⟨rfl, rfl⟩, rfl⟩

end RawOverload

/-! ## Insertions -/

/-- A table whose overloads may be of any origin. -/
structure RawTable (β : Type) where
  globals : List (String × β) := []
  synonyms : List (String × β) := []
  functions : Callables RawOverload := []

/-- What is inserted into a table. -/
inductive Addition (β : Type) where
  | entry (space : Space) (name : String) (e : β)
  | overload (kind : CallKind) (name : String) (o : RawOverload)

/-- What an insertion answers. -/
inductive Answer where
  | done
  /-- The place of a new overload. -/
  | place (index : Nat)
  /-- The name is declared here. -/
  | earlier (loc : Loc)
  /-- The overload at this place has the signature. -/
  | sameAs (index : Nat)
  /-- The name stands for something else. -/
  | clash (held : ExternalEntry)
  /-- Was the overload unknown? -/
  | added (new : Bool)
deriving DecidableEq, Repr

namespace RawTable

variable {β : Type}

/-- The entries of a space. -/
def entriesOf (t : RawTable β) : Space → List (String × β)
  | .globals => t.globals
  | .synonyms => t.synonyms

/-- The overloads of a name. -/
def overloads (t : RawTable β) (kind : CallKind) (name : String) : List RawOverload :=
  t.functions.get kind name

/-- Puts what is inserted behind the others. -/
def put (t : RawTable β) : Addition β → RawTable β
  | .entry .globals name e => { t with globals := t.globals ++ [(name, e)] }
  | .entry .synonyms name e => { t with synonyms := t.synonyms ++ [(name, e)] }
  | .overload kind name o => { t with functions := t.functions.add kind name o }

end RawTable

/-- How a table answers, and what tells its overloads apart. -/
structure Discipline (β μ : Type) where
  /-- The answer to an entry under a name that has one. -/
  held : (first : β) → β → Answer
  /-- Are two overloads of a name the same? -/
  same : RawOverload → RawOverload → Bool
  /-- What tells overloads of a name apart. One without a mark is like no other. -/
  mark : RawOverload → Option μ
  same_iff : ∀ a b, same a b = true ↔ ∃ m, mark a = some m ∧ mark b = some m
  /-- The answer to a new overload, by its place. -/
  added : Nat → Answer
  /-- The answer to an overload that is the same as the one in this place. -/
  known : Nat → Answer

namespace Discipline

/-- The table of the module at hand tells overloads apart by their signatures. -/
def own : Discipline Entry Signature where
  held first _ := .earlier first.loc
  same a b := a.sig = b.sig
  mark o := some o.sig
  same_iff a b := by simp [eq_comm]
  added := .place
  known := .sameAs

/-- The table of imported names tells overloads apart by the callables that they stand for. -/
def external : Discipline ExternalEntry (Signature × String × String) where
  held first e :=
    if first.module = e.module ∧ first.exported = e.exported then .done else .clash first
  same := RawOverload.sameExternal
  mark := RawOverload.external?
  same_iff := RawOverload.sameExternal_iff
  added _ := .added true
  known _ := .added false

variable {β μ : Type} (d : Discipline β μ)

/-- Inserts an entry or an overload. -/
def insert (t : RawTable β) : Addition β → Answer × RawTable β
  | .entry space name e =>
    match (t.entriesOf space).lookup name with
    | some first => (d.held first e, t)
    | none => (.done, t.put (.entry space name e))
  | .overload kind name o =>
    match (t.overloads kind name).findIdx? fun p => d.same p o with
    | some i => (d.known i, t)
    | none => (d.added (t.overloads kind name).length, t.put (.overload kind name o))

/-- The table after some insertions. -/
def after (as : List (Addition β)) : RawTable β := as.foldl (fun t a => (d.insert t a).2) {}

/-- What makes two insertions insertions of the same thing. -/
inductive Key (μ : Type) where
  | entry (space : Space) (name : String)
  | overload (kind : CallKind) (name : String) (mark : μ)

/-- The key of an insertion, if it has one. -/
def key : Addition β → Option (Key μ)
  | .entry space name _ => some (.entry space name)
  | .overload kind name o => (d.mark o).map (.overload kind name)

/-- The two insertions are insertions of the same thing. -/
def Same (a b : Addition β) : Prop := ∃ k, d.key a = some k ∧ d.key b = some k

/-- The answer to an insertion of something that is there: it tells of the first insertion of it,
which had an answer of its own. -/
inductive Reports : (first a : Addition β) → (answered answer : Answer) → Prop
  | entry {space : Space} {name : String} {first e : β} {answered : Answer} :
    Reports (.entry space name first) (.entry space name e) answered (d.held first e)
  | overload {kind : CallKind} {name : String} {first o : RawOverload} {i : Nat} :
    Reports (.overload kind name first) (.overload kind name o) (d.added i) (d.known i)

/-- The table holds an insertion that was answered in this way. -/
def Holds (t : RawTable β) : Addition β → Answer → Prop
  | .entry space name e, answer => answer = .done ∧ (t.entriesOf space).lookup name = some e
  | .overload kind name o, answer => ∃ i, answer = d.added i ∧ (t.overloads kind name)[i]? = some o

end Discipline

/-! ## One insertion -/

namespace Addition

variable {β : Type}

/-- The entry that is inserted into a space. -/
def entryIn? (space : Space) : Addition β → Option (String × β)
  | .entry s name e => if space = s then some (name, e) else none
  | .overload .. => none

/-- The overload that is inserted under a name. -/
def overload? (kind : CallKind) (name : String) : Addition β → Option RawOverload
  | .entry .. => none
  | .overload k n o => if (kind, name) = (k, n) then some o else none

theorem entryIn?_self (space : Space) (name : String) (e : β) :
    (Addition.entry space name e).entryIn? space = some (name, e) := if_pos rfl

theorem overload?_self (kind : CallKind) (name : String) (o : RawOverload) :
    (Addition.overload kind name o : Addition β).overload? kind name = some o := if_pos rfl

theorem eq_entry {a : Addition β} {space : Space} {x : String × β} (h : a.entryIn? space = some x) :
    a = .entry space x.1 x.2 := by
  cases a with
  | entry s name e =>
    obtain ⟨rfl, hx⟩ := Option.ite_none_right_eq_some.1 h
    cases hx
    rfl
  | overload => cases h

theorem eq_overload {a : Addition β} {kind : CallKind} {name : String} {o : RawOverload}
    (h : a.overload? kind name = some o) : a = .overload kind name o := by
  cases a with
  | entry => cases h
  | overload k n p =>
    obtain ⟨hkey, hp⟩ := Option.ite_none_right_eq_some.1 h
    cases hkey
    cases hp
    rfl

end Addition

namespace RawTable

variable {β : Type} (t : RawTable β) (a : Addition β)

theorem entriesOf_put (space : Space) :
    (t.put a).entriesOf space = t.entriesOf space ++ (a.entryIn? space).toList := by
  cases a with
  | entry s name e => cases s <;> cases space <;> simp [put, entriesOf, Addition.entryIn?]
  | overload kind name o => cases space <;> simp [put, entriesOf, Addition.entryIn?]

theorem overloads_put (kind : CallKind) (name : String) :
    (t.put a).overloads kind name = t.overloads kind name ++ (a.overload? kind name).toList := by
  cases a with
  | entry s n e => cases s <;> exact (List.append_nil _).symm
  | overload k n o =>
    refine (Callables.get_add t.functions k n o (kind, name)).trans ?_
    by_cases h : (kind, name) = (k, n)
    · cases h
      simp [Addition.overload?, overloads]
    · simp [Addition.overload?, h, overloads]

theorem keyed_put {t : RawTable β} (h : t.functions.Keyed) : (t.put a).functions.Keyed := by
  cases a with
  | entry s name e => cases s <;> exact h
  | overload kind name o => exact h.add kind name o

end RawTable

namespace Discipline

variable {β μ : Type} (d : Discipline β μ)

/-- The table holds what was inserted by these insertions, in this order, and nothing else. -/
structure Lists (as : List (Addition β)) (t : RawTable β) : Prop where
  nodup : (as.filterMap d.key).Nodup
  entries : ∀ space, t.entriesOf space = as.filterMap (Addition.entryIn? space)
  overloads : ∀ kind name, t.overloads kind name = as.filterMap (Addition.overload? kind name)
  keyed : t.functions.Keyed

/-- The answer to the first insertion under a key, after others. -/
def newAnswer (as : List (Addition β)) : Addition β → Answer
  | .entry .. => .done
  | .overload kind name _ => d.added (as.filterMap (Addition.overload? kind name)).length

variable {d} {as front back : List (Addition β)} {t : RawTable β} {a b first : Addition β}

theorem key_overload {kind : CallKind} {name : String} {o : RawOverload} {m : μ}
    (h : d.mark o = some m) : d.key (.overload kind name o) = some (.overload kind name m) := by
  rw [key, h, Option.map_some]

theorem Same.symm (h : d.Same a b) : d.Same b a := by
  obtain ⟨k, ha, hb⟩ := h
  exact ⟨k, hb, ha⟩

theorem Same.trans (h : d.Same a first) (h' : d.Same first b) : d.Same a b := by
  obtain ⟨k, ha, hfirst⟩ := h
  obtain ⟨k', hfirst', hb⟩ := h'
  cases hfirst.symm.trans hfirst'
  exact ⟨k, ha, hb⟩

theorem same_entry {space : Space} {name : String} {e e' : β} :
    d.Same (.entry space name e) (.entry space name e') := ⟨_, rfl, rfl⟩

theorem same_overload_iff {kind : CallKind} {name : String} {o p : RawOverload} :
    d.Same (.overload kind name o) (.overload kind name p) ↔ d.same o p = true := by
  rw [d.same_iff]
  constructor
  · rintro ⟨k, ho, hp⟩
    obtain ⟨m, hm, rfl⟩ := Option.map_eq_some_iff.1 ho
    obtain ⟨m', hm', hkey⟩ := Option.map_eq_some_iff.1 hp
    cases hkey
    exact ⟨m, hm, hm'⟩
  · rintro ⟨m, hm, hm'⟩
    exact ⟨.overload kind name m, key_overload hm, key_overload hm'⟩

/-- Insertions of the same thing are of one sort and under one name. -/
theorem Same.sort (h : d.Same first a) :
    (∃ space name e e', first = .entry space name e ∧ a = .entry space name e') ∨
      ∃ kind name o p, first = .overload kind name o ∧ a = .overload kind name p := by
  obtain ⟨k, hfirst, ha⟩ := h
  cases first with
  | entry space name e =>
    cases hfirst
    cases a with
    | entry space' name' e' =>
      cases ha
      exact .inl ⟨_, _, _, _, rfl, rfl⟩
    | overload kind name' o =>
      obtain ⟨m, -, hkey⟩ := Option.map_eq_some_iff.1 ha
      cases hkey
  | overload kind name o =>
    obtain ⟨m, -, rfl⟩ := Option.map_eq_some_iff.1 hfirst
    cases a with
    | entry space' name' e' => cases ha
    | overload kind' name' p =>
      obtain ⟨m', -, hkey⟩ := Option.map_eq_some_iff.1 ha
      cases hkey
      exact .inr ⟨_, _, _, _, rfl, rfl⟩

theorem lookup_entries_eq_none {space : Space} {name : String} {e : β}
    (h : ∀ f ∈ as, ¬ d.Same f (.entry space name e)) :
    (as.filterMap (Addition.entryIn? space)).lookup name = none := by
  rw [lookup_eq_none_iff_not_mem]
  intro hmem
  obtain ⟨x, hx, rfl⟩ := List.mem_map.1 hmem
  obtain ⟨f, hf, hview⟩ := List.mem_filterMap.1 hx
  apply h f hf
  rw [Addition.eq_entry hview]
  exact same_entry

theorem findIdx?_overloads_eq_none {kind : CallKind} {name : String} {o : RawOverload}
    (h : ∀ f ∈ as, ¬ d.Same f (.overload kind name o)) :
    (as.filterMap (Addition.overload? kind name)).findIdx? (fun p => d.same p o) = none := by
  rw [List.findIdx?_eq_none_iff]
  intro p hp
  obtain ⟨f, hf, hview⟩ := List.mem_filterMap.1 hp
  refine Bool.eq_false_iff.2 fun hsame => h f hf ?_
  rw [Addition.eq_overload hview]
  exact same_overload_iff.2 hsame

namespace Lists

theorem empty : d.Lists [] {} where
  nodup := List.nodup_nil
  entries space := by cases space <;> rfl
  overloads _ _ := rfl
  keyed := ⟨List.nodup_nil, List.forall_mem_nil _⟩

theorem put (h : d.Lists as t) (ha : ∀ f ∈ as, ¬ d.Same f a) : d.Lists (as ++ [a]) (t.put a) := by
  have hone : ∀ {α : Type} (view : Addition β → Option α),
      (as ++ [a]).filterMap view = as.filterMap view ++ (view a).toList := by
    intro α view
    cases hview : view a <;> simp [hview]
  refine ⟨?_, fun space => ?_, fun kind name => ?_, RawTable.keyed_put a h.keyed⟩
  · rw [hone]
    cases hkey : d.key a with
    | none => simpa using h.nodup
    | some k =>
      rw [Option.toList_some, ← List.concat_eq_append]
      refine h.nodup.concat fun hmem => ?_
      obtain ⟨f, hf, hk⟩ := List.mem_filterMap.1 hmem
      exact ha f hf ⟨k, hk, hkey⟩
  · rw [RawTable.entriesOf_put, h.entries, hone]
  · rw [RawTable.overloads_put, h.overloads, hone]

/-- What is inserted for the first time goes behind the others. -/
theorem insert_new (h : d.Lists as t) (ha : ∀ f ∈ as, ¬ d.Same f a) :
    d.insert t a = (d.newAnswer as a, t.put a) := by
  cases a with
  | entry space name e => rw [insert, h.entries, lookup_entries_eq_none ha, newAnswer]
  | overload kind name o =>
    rw [insert, h.overloads, findIdx?_overloads_eq_none ha, newAnswer]

/-- What was inserted for the first time is held, whatever was inserted after it. -/
theorem holds (h : d.Lists (front ++ first :: back) t) (hfront : ∀ f ∈ front, ¬ d.Same f first) :
    d.Holds t first (d.newAnswer front first) := by
  cases first with
  | entry space name e =>
    refine ⟨rfl, ?_⟩
    rw [h.entries, List.filterMap_append, List.lookup_append, lookup_entries_eq_none hfront,
      Option.none_or, List.filterMap_cons_some (Addition.entryIn?_self space name e),
      List.lookup_cons_self]
  | overload kind name o =>
    refine ⟨_, rfl, ?_⟩
    rw [h.overloads, List.filterMap_append,
      List.filterMap_cons_some (Addition.overload?_self kind name o)]
    simp

/-- What is inserted again changes nothing, and the answer tells of the first insertion of it. -/
theorem insert_known (h : d.Lists (front ++ first :: back) t)
    (hfront : ∀ f ∈ front, ¬ d.Same f first) (ha : d.Same first a) :
    d.Reports first a (d.newAnswer front first) (d.insert t a).1 ∧ (d.insert t a).2 = t := by
  obtain ⟨space, name, e, e', rfl, rfl⟩ | ⟨kind, name, o, p, rfl, rfl⟩ := ha.sort
  · rw [insert, (h.holds hfront).2]
    exact ⟨.entry, rfl⟩
  · have hnone := findIdx?_overloads_eq_none fun f hf hsame => hfront f hf (hsame.trans ha.symm)
    have hfirst : (t.overloads kind name).findIdx? (fun q => d.same q p) =
        some (front.filterMap (Addition.overload? kind name)).length := by
      rw [h.overloads, List.filterMap_append, List.findIdx?_append, hnone,
        List.filterMap_cons_some (Addition.overload?_self kind name o), List.findIdx?_cons,
        if_pos (same_overload_iff.1 ha)]
      simp
    rw [insert, hfirst]
    exact ⟨.overload, rfl⟩

/-! ## Many insertions -/

/-- One insertion adds at most what it inserts. -/
theorem insert (h : d.Lists as t) (a : Addition β) :
    ∃ more, more ⊆ [a] ∧ d.Lists (as ++ more) (d.insert t a).2 := by
  by_cases ha : ∃ f ∈ as, d.Same f a
  · obtain ⟨f, hf, hsame⟩ := ha
    obtain ⟨front, back, rfl⟩ := List.append_of_mem hf
    have hfront : ∀ g ∈ front, ¬ d.Same g f := by
      rintro g hg ⟨k, hgk, hfk⟩
      have hnodup := h.nodup
      rw [List.filterMap_append, List.filterMap_cons_some hfk, List.nodup_append] at hnodup
      exact hnodup.2.2 k (List.mem_filterMap.2 ⟨g, hg, hgk⟩) k List.mem_cons_self rfl
    refine ⟨[], List.nil_subset _, ?_⟩
    rw [(h.insert_known hfront hsame).2, List.append_nil]
    exact h
  · have hnew : ∀ f ∈ as, ¬ d.Same f a := fun f hf hsame => ha ⟨f, hf, hsame⟩
    refine ⟨[a], List.Subset.refl _, ?_⟩
    rw [h.insert_new hnew]
    exact h.put hnew

theorem foldl (h : d.Lists as t) (bs : List (Addition β)) :
    ∃ more, more ⊆ bs ∧ d.Lists (as ++ more) (bs.foldl (fun t a => (d.insert t a).2) t) := by
  induction bs generalizing as t with
  | nil => exact ⟨[], List.Subset.refl _, (List.append_nil as).symm ▸ h⟩
  | cons a bs ih =>
    obtain ⟨one, hone, h₁⟩ := h.insert a
    obtain ⟨more, hmore, h₂⟩ := ih h₁
    refine ⟨one ++ more, List.append_subset.2 ⟨?_, ?_⟩, ?_⟩
    · exact List.Subset.trans hone (List.cons_subset_cons _ (List.nil_subset _))
    · exact List.Subset.trans hmore (List.subset_cons_self _ _)
    · rw [← List.append_assoc]
      exact h₂

/-- What is inserted for the first time stands in the table where it came, whatever follows it. -/
theorem after_first {pre : List (Addition β)} (ha : ∀ f ∈ pre, ¬ d.Same f a)
    (post : List (Addition β)) : ∃ front back, (∀ f ∈ front, ¬ d.Same f a) ∧
      d.Lists front (d.after pre) ∧ d.Lists (front ++ a :: back) (d.after (pre ++ a :: post)) := by
  obtain ⟨front, hfront, h⟩ := (empty (d := d)).foldl pre
  have hnew : ∀ f ∈ front, ¬ d.Same f a := fun f hf => ha f (hfront hf)
  have h₁ : d.Lists front (d.after pre) := h
  have h₂ : d.Lists (front ++ [a]) (d.insert (d.after pre) a).2 := by
    rw [h₁.insert_new hnew]
    exact h₁.put hnew
  obtain ⟨back, -, h₃⟩ := h₂.foldl post
  refine ⟨front, back, hnew, h₁, ?_⟩
  rw [after, List.foldl_append, List.foldl_cons]
  rwa [List.append_assoc, List.singleton_append] at h₃

end Lists

/-- No key occurs twice in the table. -/
structure Distinct (d : Discipline β μ) (t : RawTable β) : Prop where
  entries : ∀ space, ((t.entriesOf space).map Prod.fst).Nodup
  callables : (t.functions.map Prod.fst).Nodup
  marks : ∀ kind name, ((t.overloads kind name).filterMap d.mark).Nodup

/-- The second table holds all that the first one does, in the same places. -/
structure Extends (t u : RawTable β) : Prop where
  entries : ∀ space, t.entriesOf space <+: u.entriesOf space
  overloads : ∀ kind name, t.overloads kind name <+: u.overloads kind name

theorem Lists.distinct (h : d.Lists as t) : d.Distinct t where
  entries space := by
    have hnodup := h.nodup
    rw [List.Nodup, List.pairwise_filterMap] at hnodup
    rw [h.entries, List.Nodup, List.pairwise_map, List.pairwise_filterMap]
    refine hnodup.imp fun {f g} hne x hx y hy hxy => ?_
    rw [Addition.eq_entry hx, Addition.eq_entry hy, hxy] at hne
    exact hne _ rfl _ rfl rfl
  callables := h.keyed.nodup
  marks kind name := by
    have hnodup := h.nodup
    rw [List.Nodup, List.pairwise_filterMap] at hnodup
    rw [h.overloads, List.Nodup, List.pairwise_filterMap, List.pairwise_filterMap]
    refine hnodup.imp fun {f g} hne o ho p hp m hm m' hm' heq => ?_
    rw [Addition.eq_overload ho, Addition.eq_overload hp] at hne
    subst heq
    exact hne _ (key_overload hm) _ (key_overload hm') rfl

theorem Lists.extend {more : List (Addition β)} {u : RawTable β} (h : d.Lists as t)
    (h' : d.Lists (as ++ more) u) : Extends t u where
  entries space := by
    rw [h.entries, h'.entries, List.filterMap_append]
    exact List.prefix_append _ _
  overloads kind name := by
    rw [h.overloads, h'.overloads, List.filterMap_append]
    exact List.prefix_append _ _

section

variable (d)

theorem distinct_after (as : List (Addition β)) : d.Distinct (d.after as) := by
  obtain ⟨bs, -, h⟩ := (Lists.empty (d := d)).foldl as
  exact h.distinct

theorem extends_after (pre post : List (Addition β)) :
    Extends (d.after pre) (d.after (pre ++ post)) := by
  obtain ⟨as, -, h⟩ := (Lists.empty (d := d)).foldl pre
  obtain ⟨more, -, h'⟩ := h.foldl post
  rw [after, after, List.foldl_append]
  exact h.extend h'

end

theorem holds_after {pre : List (Addition β)} (ha : ∀ f ∈ pre, ¬ d.Same f a)
    (post : List (Addition β)) :
    d.Holds (d.after (pre ++ a :: post)) a (d.insert (d.after pre) a).1 := by
  obtain ⟨front, back, hfront, h₁, h⟩ := Lists.after_first ha post
  rw [h₁.insert_new hfront]
  exact h.holds hfront

theorem reports_after (hfront : ∀ f ∈ front, ¬ d.Same f a) (hfirst : d.Same first a)
    (back : List (Addition β)) :
    (d.insert (d.after (front ++ first :: back)) a).2 = d.after (front ++ first :: back) ∧
      d.Reports first a (d.insert (d.after front) first).1
        (d.insert (d.after (front ++ first :: back)) a).1 := by
  have hfront' : ∀ f ∈ front, ¬ d.Same f first := fun f hf hsame => hfront f hf (hsame.trans hfirst)
  obtain ⟨as, more, has, h₁, h⟩ := Lists.after_first hfront' back
  have hknown := h.insert_known has hfirst
  rw [h₁.insert_new has]
  exact ⟨hknown.2, hknown.1⟩

end Discipline

/-! ## Both tables -/

/-- An insertion into one of the two tables of a module. -/
inductive RawInsertion where
  | own (a : Addition Entry)
  | external (a : Addition ExternalEntry)

namespace RawInsertion

/-- What is inserted into the table of the module at hand. -/
def own? : RawInsertion → Option (Addition Entry)
  | .own a => some a
  | .external _ => none

/-- What is inserted into the table of imported names. -/
def external? : RawInsertion → Option (Addition ExternalEntry)
  | .own _ => none
  | .external a => some a

theorem mem_own? {a : Addition Entry} {ops : List RawInsertion} (h : a ∈ ops.filterMap own?) :
    .own a ∈ ops := by
  obtain ⟨op, hop, ha⟩ := List.mem_filterMap.1 h
  cases op <;> cases ha
  exact hop

theorem mem_external? {a : Addition ExternalEntry} {ops : List RawInsertion}
    (h : a ∈ ops.filterMap external?) : .external a ∈ ops := by
  obtain ⟨op, hop, ha⟩ := List.mem_filterMap.1 h
  cases op <;> cases ha
  exact hop

/-- Both insert the same thing into one table. -/
inductive Same : RawInsertion → RawInsertion → Prop
  | own {a b : Addition Entry} (h : Discipline.own.Same a b) : Same (.own a) (.own b)
  | external {a b : Addition ExternalEntry} (h : Discipline.external.Same a b) :
    Same (.external a) (.external b)

/-- The answer to an insertion of something that is there tells of the first insertion of it. -/
inductive Reports : (first op : RawInsertion) → (answered answer : Answer) → Prop
  | own {a b : Addition Entry} {answered answer : Answer}
    (h : Discipline.own.Reports a b answered answer) : Reports (.own a) (.own b) answered answer
  | external {a b : Addition ExternalEntry} {answered answer : Answer}
    (h : Discipline.external.Reports a b answered answer) :
    Reports (.external a) (.external b) answered answer

end RawInsertion

/-- The two tables of a module, with overloads of any origin. -/
structure RawTables where
  own : RawTable Entry := {}
  externals : RawTable ExternalEntry := {}

namespace RawTables

/-- Makes one insertion. -/
def insert (v : RawTables) : RawInsertion → Answer × RawTables
  | .own a =>
    ((Discipline.own.insert v.own a).1, { v with own := (Discipline.own.insert v.own a).2 })
  | .external a =>
    ((Discipline.external.insert v.externals a).1,
      { v with externals := (Discipline.external.insert v.externals a).2 })

/-- The tables after some insertions. -/
def after (ops : List RawInsertion) : RawTables := ops.foldl (fun v op => (v.insert op).2) {}

/-- No key occurs twice: names are distinct, and so are the signatures of the overloads of a name in
the table of the module at hand, and the callables from elsewhere that they stand for in the
other. -/
structure Distinct (v : RawTables) : Prop where
  own : Discipline.own.Distinct v.own
  externals : Discipline.external.Distinct v.externals

/-- The second tables hold all that the first ones do, in the same places. -/
structure Extends (v w : RawTables) : Prop where
  own : Discipline.Extends v.own w.own
  externals : Discipline.Extends v.externals w.externals

/-- The tables hold an insertion that was answered in this way. -/
def Holds (v : RawTables) : RawInsertion → Answer → Prop
  | .own a, answer => Discipline.own.Holds v.own a answer
  | .external a, answer => Discipline.external.Holds v.externals a answer

theorem foldl_insert (v : RawTables) (ops : List RawInsertion) :
    ops.foldl (fun v op => (v.insert op).2) v =
      ⟨(ops.filterMap RawInsertion.own?).foldl (fun t a => (Discipline.own.insert t a).2) v.own,
        (ops.filterMap RawInsertion.external?).foldl
          (fun t a => (Discipline.external.insert t a).2) v.externals⟩ := by
  induction ops generalizing v with
  | nil => rfl
  | cons op ops ih =>
    rw [List.foldl_cons, ih]
    cases op <;> rfl

/-- Insertions into one table leave the other alone. -/
theorem after_eq (ops : List RawInsertion) : after ops =
    ⟨Discipline.own.after (ops.filterMap RawInsertion.own?),
      Discipline.external.after (ops.filterMap RawInsertion.external?)⟩ := foldl_insert {} ops

theorem distinct_after (ops : List RawInsertion) : (after ops).Distinct := by
  rw [after_eq]
  exact ⟨Discipline.own.distinct_after _, Discipline.external.distinct_after _⟩

theorem extends_after (pre post : List RawInsertion) :
    (after pre).Extends (after (pre ++ post)) := by
  rw [after_eq, after_eq, List.filterMap_append, List.filterMap_append]
  exact ⟨Discipline.own.extends_after _ _, Discipline.external.extends_after _ _⟩

theorem holds_after {pre : List RawInsertion} {op : RawInsertion} (hop : ∀ g ∈ pre, ¬ g.Same op)
    (post : List RawInsertion) :
    (after (pre ++ op :: post)).Holds op ((after pre).insert op).1 := by
  rw [after_eq, after_eq, List.filterMap_append, List.filterMap_append]
  cases op with
  | own a =>
    refine Discipline.holds_after (fun f hf hsame => ?_) (post.filterMap RawInsertion.own?)
    exact hop _ (RawInsertion.mem_own? hf) (.own hsame)
  | external a =>
    refine Discipline.holds_after (fun f hf hsame => ?_) (post.filterMap RawInsertion.external?)
    exact hop _ (RawInsertion.mem_external? hf) (.external hsame)

theorem reports_after {front : List RawInsertion} {first op : RawInsertion}
    (hfront : ∀ g ∈ front, ¬ g.Same op) (hfirst : first.Same op) (back : List RawInsertion) :
    ((after (front ++ first :: back)).insert op).2 = after (front ++ first :: back) ∧
      RawInsertion.Reports first op ((after front).insert first).1
        ((after (front ++ first :: back)).insert op).1 := by
  rw [after_eq, after_eq, List.filterMap_append, List.filterMap_append]
  cases hfirst with
  | own h =>
    obtain ⟨hsame, hreports⟩ := Discipline.reports_after
      (fun f hf hsame => hfront _ (RawInsertion.mem_own? hf) (.own hsame)) h
      (back.filterMap RawInsertion.own?)
    exact ⟨congrArg (RawTables.mk · _) hsame, .own hreports⟩
  | external h =>
    obtain ⟨hsame, hreports⟩ := Discipline.reports_after
      (fun f hf hsame => hfront _ (RawInsertion.mem_external? hf) (.external hsame)) h
      (back.filterMap RawInsertion.external?)
    exact ⟨congrArg (RawTables.mk _) hsame, .external hreports⟩

end RawTables

/-! ## The tables of a module -/

/-- An insertion into one of the two tables of a module, with an overload of the origin that the
table is for. -/
inductive Insertion where
  | global (name : String) (e : Entry)
  | synonym (name : String) (e : Entry)
  | overload (kind : CallKind) (name : String) (o : LocalOverload)
  | externalGlobal (name : String) (e : ExternalEntry)
  | externalSynonym (name : String) (e : ExternalEntry)
  | externalOverload (kind : CallKind) (name : String) (o : ExternalOverload)

/-- An overload of the module at hand as one of any origin. -/
def LocalOverload.raw (o : LocalOverload) : RawOverload :=
  ⟨o.sig, o.loc, .own o.item o.fixity o.args o.locals⟩

/-- An overload from elsewhere as one of any origin. It has no place in the text. -/
def ExternalOverload.raw (o : ExternalOverload) : RawOverload :=
  ⟨o.sig, .nowhere, .external o.module o.exported o.fixity o.constant⟩

/-- The table with its overloads among those of any origin. -/
def ModuleTable.raw (t : ModuleTable) : RawTable Entry :=
  ⟨t.globals, t.synonyms, t.functions.mapSets fun _ => LocalOverload.raw⟩

/-- The table with its overloads among those of any origin. -/
def ExternalTable.raw (t : ExternalTable) : RawTable ExternalEntry :=
  ⟨t.globals, t.synonyms, t.functions.mapSets fun _ => ExternalOverload.raw⟩

/-- The insertion with its overload among those of any origin. -/
def Insertion.raw : Insertion → RawInsertion
  | .global name e => .own (.entry .globals name e)
  | .synonym name e => .own (.entry .synonyms name e)
  | .overload kind name o => .own (.overload kind name o.raw)
  | .externalGlobal name e => .external (.entry .globals name e)
  | .externalSynonym name e => .external (.entry .synonyms name e)
  | .externalOverload kind name o => .external (.overload kind name o.raw)

namespace Visible

/-- Both tables with their overloads among those of any origin. -/
def raw (v : Visible) : RawTables := ⟨v.own.raw, v.externals.raw⟩

/-- Makes one insertion. -/
def insert (v : Visible) : Insertion → Answer × Visible
  | .global name e =>
    match v.own.declareGlobal name e with
    | .ok t => (.done, { v with own := t })
    | .error loc => (.earlier loc, v)
  | .synonym name e =>
    match v.own.declareSynonym name e with
    | .ok t => (.done, { v with own := t })
    | .error loc => (.earlier loc, v)
  | .overload kind name o =>
    match v.own.addOverload kind name o with
    | .ok (i, t) => (.place i, { v with own := t })
    | .error i => (.sameAs i, v)
  | .externalGlobal name e =>
    match v.externals.insertGlobal name e with
    | .ok t => (.done, { v with externals := t })
    | .error held => (.clash held, v)
  | .externalSynonym name e =>
    match v.externals.insertSynonym name e with
    | .ok t => (.done, { v with externals := t })
    | .error held => (.clash held, v)
  | .externalOverload kind name o =>
    (.added (!v.externals.hasOverload kind name o),
      { v with externals := v.externals.addOverload kind name o })

/-- The tables of a module after some insertions. -/
def after (module : String) (ops : List Insertion) : Visible :=
  ops.foldl (fun v op => (v.insert op).2) ⟨{ module }, {}⟩

theorem raw_insert (v : Visible) (op : Insertion) :
    v.raw.insert op.raw = ((v.insert op).1, (v.insert op).2.raw) := by
  cases op with
  | global name e =>
    have hraw : v.raw.own.entriesOf .globals = v.own.globals := rfl
    rw [Insertion.raw, RawTables.insert, Discipline.insert, hraw, insert, ModuleTable.declareGlobal]
    cases v.own.globals.lookup name <;> rfl
  | synonym name e =>
    have hraw : v.raw.own.entriesOf .synonyms = v.own.synonyms := rfl
    rw [Insertion.raw, RawTables.insert, Discipline.insert, hraw, insert,
      ModuleTable.declareSynonym]
    cases v.own.synonyms.lookup name <;> rfl
  | overload kind name o =>
    have hraw : v.raw.own.overloads kind name = (v.own.overloads kind name).map LocalOverload.raw :=
      Callables.get_mapSets (fun _ => LocalOverload.raw) v.own.functions (kind, name)
    have hput : v.raw.own.put (.overload kind name o.raw) =
        ModuleTable.raw { v.own with functions := v.own.functions.add kind name o } :=
      congrArg (RawTable.mk _ _)
        (Callables.mapSets_add (fun _ => LocalOverload.raw) v.own.functions kind name o).symm
    have hsame : ((fun p => Discipline.own.same p o.raw) ∘ LocalOverload.raw) =
        fun p => decide (p.sig = o.sig) := rfl
    rw [Insertion.raw, RawTables.insert, Discipline.insert, hraw, List.findIdx?_map, hput, hsame,
      insert, ModuleTable.addOverload, List.length_map]
    cases (v.own.overloads kind name).findIdx? _ <;> rfl
  | externalGlobal name e =>
    have hraw : v.raw.externals.entriesOf .globals = v.externals.globals := rfl
    rw [Insertion.raw, RawTables.insert, Discipline.insert, hraw, insert,
      ExternalTable.insertGlobal, insertExternal]
    cases v.externals.globals.lookup name with
    | none => rfl
    | some first =>
      simp only [Discipline.external]
      split <;> rfl
  | externalSynonym name e =>
    have hraw : v.raw.externals.entriesOf .synonyms = v.externals.synonyms := rfl
    rw [Insertion.raw, RawTables.insert, Discipline.insert, hraw, insert,
      ExternalTable.insertSynonym, insertExternal]
    cases v.externals.synonyms.lookup name with
    | none => rfl
    | some first =>
      simp only [Discipline.external]
      split <;> rfl
  | externalOverload kind name o =>
    have hraw : v.raw.externals.overloads kind name =
        (v.externals.overloads kind name).map ExternalOverload.raw :=
      Callables.get_mapSets (fun _ => ExternalOverload.raw) v.externals.functions (kind, name)
    have hput : v.raw.externals.put (.overload kind name o.raw) =
        ExternalTable.raw { v.externals with functions := v.externals.functions.add kind name o } :=
      congrArg (RawTable.mk _ _)
        (Callables.mapSets_add (fun _ => ExternalOverload.raw) v.externals.functions
          kind name o).symm
    have hsame : ((fun p => Discipline.external.same p o.raw) ∘ ExternalOverload.raw) =
        fun p => ExternalTable.sameOverload p o := by
      funext p
      change (decide (p.sig = o.sig) && decide (some p.module = some o.module) &&
        decide (p.exported = o.exported)) = _
      simp [ExternalTable.sameOverload]
    rw [Insertion.raw, RawTables.insert, Discipline.insert, hraw, List.findIdx?_map, hput, hsame,
      insert, ExternalTable.addOverload, ExternalTable.hasOverload, ← List.findIdx?_isSome]
    cases (v.externals.overloads kind name).findIdx? _ <;> rfl

theorem raw_after (module : String) (ops : List Insertion) :
    (after module ops).raw = RawTables.after (ops.map Insertion.raw) := by
  have hfoldl : ∀ v : Visible, (ops.foldl (fun v op => (v.insert op).2) v).raw =
      (ops.map Insertion.raw).foldl (fun v op => (v.insert op).2) v.raw := by
    induction ops with
    | nil => exact fun _ => rfl
    | cons op ops ih =>
      intro v
      rw [List.foldl_cons, ih, List.map_cons, List.foldl_cons, raw_insert]
  exact hfoldl _

end Visible

/-- Whatever is inserted into empty tables, and whatever has been inserted before: keys stay
distinct and entries stay in their places. What is inserted for the first time is answered with
where it is, and is there for good; what is inserted again changes nothing and is answered with
where the first one is declared or stands. The tables of a module are among the tables of which this
is said. -/
theorem RawTables.insert_lasting (pre : List RawInsertion) (op : RawInsertion)
    (post : List RawInsertion) :
    (after (pre ++ op :: post)).Distinct ∧
      (after pre).Extends (after (pre ++ op :: post)) ∧
      ((∀ g ∈ pre, ¬ g.Same op) → (after (pre ++ op :: post)).Holds op ((after pre).insert op).1) ∧
      (∀ front first back, pre = front ++ first :: back → (∀ g ∈ front, ¬ g.Same op) →
        first.Same op → ((after pre).insert op).2 = after pre ∧
          RawInsertion.Reports first op ((after front).insert first).1 ((after pre).insert op).1) ∧
      ∀ module ops last, (Visible.after module ops).raw = after (ops.map Insertion.raw) ∧
        (after (ops.map Insertion.raw)).insert last.raw =
          (((Visible.after module ops).insert last).1,
            ((Visible.after module ops).insert last).2.raw) := by
  refine ⟨distinct_after _, extends_after _ _, fun hop => holds_after hop post, ?_, ?_⟩
  · rintro front first back rfl hfront hfirst
    exact reports_after hfront hfirst back
  · intro module ops last
    refine ⟨Visible.raw_after module ops, ?_⟩
    rw [← Visible.raw_after module]
    exact Visible.raw_insert _ _

/-- The declaration in some line of a function `f` from a type to itself. -/
def overloadInLine (line : Nat) (t : Ty) : RawOverload :=
  ⟨⟨[t], t⟩, ⟨line, 1⟩, .own line none [] []⟩

/-- The second overload of a name keeps its place while it is declared again and a global is
inserted and clashes, and declaring it again tells of the place. The table of imported names stores
it as often as it comes. -/
theorem RawTables.insert_lasting_again :
    let f (line : Nat) (t : Ty) : RawInsertion :=
      .own (.overload .function "f" (overloadInLine line t))
    let x (module : String) : RawInsertion := .external (.entry .globals "x" ⟨module, "x", .int⟩)
    let again : RawInsertion := .external (.overload .function "f" (overloadInLine 1 .int))
    let pre := [x "a", f 1 .int]
    ((∀ g ∈ pre, ¬ g.Same (f 2 .bool)) ∧
      (after (pre ++ f 2 .bool :: [f 3 .bool, x "b"])).Holds (f 2 .bool) (.place 1)) ∧
      ((∀ g ∈ pre, ¬ g.Same (f 3 .bool)) ∧ (f 2 .bool).Same (f 3 .bool) ∧
        RawInsertion.Reports (f 2 .bool) (f 3 .bool) (.place 1) (.sameAs 1)) ∧
      ((∀ g ∈ [again], ¬ g.Same again) ∧ (after [again, again]).Holds again (.added true) ∧
        ((after [again, again]).externals.overloads .function "f").length = 2) := by
  intro f x again pre
  have hnew : ∀ line, ∀ g ∈ pre, ¬ g.Same (f line .bool) := by
    intro line g hg hsame
    rcases List.mem_cons.1 hg with rfl | hg
    · cases hsame
    · cases List.mem_singleton.1 hg
      cases hsame with
      | own h =>
        have hsig := Discipline.same_overload_iff.1 h
        simp [Discipline.own, overloadInLine] at hsig
  have hagain : ∀ g ∈ [again], ¬ g.Same again := by
    intro g hg hsame
    cases List.mem_singleton.1 hg
    dsimp only [again] at hsame
    cases hsame with
    | external h => cases Discipline.same_overload_iff.1 h
  have hfirst : (f 2 .bool).Same (f 3 .bool) := .own (Discipline.same_overload_iff.2 rfl)
  obtain ⟨-, -, hlasts, -⟩ := insert_lasting pre (f 2 .bool) [f 3 .bool, x "b"]
  obtain ⟨-, -, -, hreports, -⟩ := insert_lasting (pre ++ [f 2 .bool]) (f 3 .bool) []
  obtain ⟨-, -, hstores, -⟩ := insert_lasting [again] again []
  refine ⟨⟨hnew 2, hlasts (hnew 2)⟩, ⟨hnew 3, hfirst, ?_⟩, hagain, hstores hagain, rfl⟩
  exact (hreports pre _ [] rfl (hnew 3) hfirst).2

end SplFrontend
