import Mathlib.Data.List.Perm.Basic
import Mathlib.Data.List.Nodup
import SplFrontend.Proofs.Builtins

/-!
# Offers

What enters an external table comes one by one: a global, a synonym or a callable, each under the
name that it gets there. A table takes an offer, passes it over if it has the same thing already, or
refuses it. Whether it takes a whole list, and what it then holds, is said here without the order of
the list: a list is taken unless two of its offers clash (`isSome_takeAll_iff`), and of the offers
of one thing the table holds the first (`holds_takeAll`).
-/

namespace SplFrontend

/-- Something that may enter an external table under a name. -/
inductive Offer where
  | entry (space : Space) (name : String) (e : ExternalEntry)
  | overload (kind : CallKind) (name : String) (o : ExternalOverload)
deriving DecidableEq

namespace Offer

/-- The name under which a thing is offered, and which thing it is. -/
structure Key where
  space : Space ⊕ CallKind × Signature
  name : String
  module : String
  exported : String
deriving DecidableEq

def key : Offer → Key
  | .entry space name e => ⟨.inl space, name, e.module, e.exported⟩
  | .overload kind name o => ⟨.inr (kind, o.sig), name, o.module, o.exported⟩

/-- What an offer settles for the whole table: what a name stands for, or the fixity of an
operator. -/
def subject : Offer → Option (Option Space × String)
  | .entry space name _ => some (some space, name)
  | .overload .infixOp name _ => some (none, name)
  | .overload .. => none

/-- How an offer settles it. -/
def stance : Offer → String × String ⊕ Option Fixity
  | .entry _ _ e => .inl (e.module, e.exported)
  | .overload _ _ o => .inr o.fixity

/-- Two offers that no table takes both. -/
structure Clash (a b : Offer) : Prop where
  settles : a.subject ≠ none
  subject : a.subject = b.subject
  stance : a.stance ≠ b.stance

/-- An infix operator is offered with a fixity. -/
def Fixed (a : Offer) : Prop := ∀ name o, a = .overload .infixOp name o → o.fixity ≠ none

variable {a b c : Offer}

theorem Clash.symm (h : a.Clash b) : b.Clash a :=
  ⟨h.subject ▸ h.settles, h.subject.symm, h.stance.symm⟩

theorem not_clash_self (a : Offer) : ¬ a.Clash a := fun h => h.stance rfl

theorem eq_entry_of_subject {space : Space} {name : String}
    (h : a.subject = some (some space, name)) :
    ∃ e, a = .entry space name e := by
  cases a with
  | entry _ _ e =>
    cases h
    exact ⟨e, rfl⟩
  | overload kind => cases kind <;> cases h

theorem eq_infix_of_subject {name : String} (h : a.subject = some (none, name)) :
    ∃ o, a = .overload .infixOp name o := by
  cases a with
  | entry => cases h
  | overload kind _ o =>
    cases kind <;> cases h
    exact ⟨o, rfl⟩

theorem subject_of_key (h : a.key = b.key) : a.subject = b.subject := by
  cases a with
  | entry =>
    cases b with
    | entry =>
      simp only [key, Key.mk.injEq, Sum.inl.injEq] at h
      rw [subject, subject, h.1, h.2.1]
    | overload => simp [key] at h
  | overload kind =>
    cases b with
    | entry => simp [key] at h
    | overload =>
      simp only [key, Key.mk.injEq, Sum.inr.injEq, Prod.mk.injEq] at h
      obtain ⟨⟨rfl, -⟩, rfl, -⟩ := h
      cases kind <;> rfl

/-- Of two offers of one thing, either they clash or they clash with the same. -/
theorem Clash.of_key (h : c.Clash a) (hkey : b.key = a.key) (hab : ¬ a.Clash b) : c.Clash b := by
  have hsubject := subject_of_key hkey
  have hstance : a.stance = b.stance :=
    Decidable.byContradiction fun hne => hab ⟨h.subject ▸ h.settles, hsubject.symm, hne⟩
  exact ⟨h.settles, h.subject.trans hsubject.symm, hstance ▸ h.stance⟩

end Offer

namespace ExternalTable

/-- The entries of a space. -/
def entriesOf (t : ExternalTable) : Space → List (String × ExternalEntry)
  | .globals => t.globals
  | .synonyms => t.synonyms

def withEntries (t : ExternalTable) (es : List (String × ExternalEntry)) : Space → ExternalTable
  | .globals => { t with globals := es }
  | .synonyms => { t with synonyms := es }

/-- The table after an offer, `none` if it refuses it. -/
def take (t : ExternalTable) : Offer → Option ExternalTable
  | .entry .globals name e => (t.insertGlobal name e).toOption
  | .entry .synonyms name e => (t.insertSynonym name e).toOption
  | .overload .infixOp name o =>
    if (o.fixity.bind fun x => (t.fixityOf name).filter (· ≠ x)).isSome then none
    else some (t.addOverload .infixOp name o)
  | .overload kind name o => some (t.addOverload kind name o)

/-- The table after one offer after the other. -/
def takeAll (t : ExternalTable) (as : List Offer) : Option ExternalTable := as.foldlM take t

theorem takeAll_cons (t : ExternalTable) (a : Offer) (as : List Offer) :
    t.takeAll (a :: as) = (t.take a).bind fun t => t.takeAll as := List.foldlM_cons

theorem takeAll_append (t : ExternalTable) (as bs : List Offer) :
    t.takeAll (as ++ bs) = (t.takeAll as).bind fun t => t.takeAll bs := List.foldlM_append

/-- Is a thing in the table under the name, just as it is offered? -/
def Holds (t : ExternalTable) : Offer → Prop
  | .entry space name e => (name, e) ∈ t.entriesOf space
  | .overload kind name o => o ∈ t.overloads kind name

/-- A table in which every name stands for one thing, every callable is there once under a name, and
the infix operators of one name have one fixity. -/
structure Coherent (t : ExternalTable) : Prop where
  names : ∀ space, ((t.entriesOf space).map Prod.fst).Nodup
  keyed : t.functions.Keyed
  apart : ∀ kind name, (t.overloads kind name).Pairwise fun o p => sameOverload o p = false
  fixity : ∀ {name o}, o ∈ t.overloads .infixOp name →
    ∃ x, o.fixity = some x ∧ t.fixityOf name = some x

theorem coherent_empty : Coherent {} where
  names space := by cases space <;> exact List.nodup_nil
  keyed := ⟨List.nodup_nil, fun _ h => by cases h⟩
  apart _ _ := List.Pairwise.nil
  fixity h := by cases h

variable {t t' : ExternalTable} {a b : Offer}

/-! ## One offer -/

/-- What becomes of an offer. -/
inductive Taken (t : ExternalTable) (a : Offer) : Option ExternalTable → Prop
  | refused {b : Offer} (held : t.Holds b) (clash : a.Clash b) : Taken t a none
  | known {b : Offer} (held : t.Holds b) (key : b.key = a.key)
    (apart : ∀ c, t.Holds c → ¬ a.Clash c) :
    Taken t a (some t)
  | added {t' : ExternalTable} (new : ∀ c, t.Holds c → c.key ≠ a.key)
    (apart : ∀ c, t.Holds c → ¬ a.Clash c) (holds : ∀ c, t'.Holds c ↔ t.Holds c ∨ c = a)
      (coherent : t'.Coherent) : Taken t a (some t')

theorem take_entry (t : ExternalTable) (space : Space) (name : String) (e : ExternalEntry) :
    t.take (.entry space name e) =
      (insertExternal (t.entriesOf space) name e).toOption.map fun es =>
        t.withEntries es space := by
  cases space <;> simp only [take, insertGlobal, insertSynonym, entriesOf] <;>
    cases insertExternal _ name e <;> rfl

theorem entriesOf_withEntries (t : ExternalTable) (es : List (String × ExternalEntry))
    (space s : Space) :
    (t.withEntries es space).entriesOf s = if s = space then es else t.entriesOf s := by
  cases space <;> cases s <;> rfl

theorem withEntries_self (t : ExternalTable) (space : Space) :
    t.withEntries (t.entriesOf space) space = t := by
  cases space <;> rfl

theorem functions_withEntries (t : ExternalTable) (es : List (String × ExternalEntry))
    (space : Space) :
    (t.withEntries es space).functions = t.functions := by
  cases space <;> rfl

theorem Coherent.withEntries (ht : t.Coherent) {es : List (String × ExternalEntry)}
    (hes : (es.map Prod.fst).Nodup) (space : Space) : (t.withEntries es space).Coherent where
  names s := by
    rw [entriesOf_withEntries]
    split
    · exact hes
    · exact ht.names s
  keyed := functions_withEntries t es space ▸ ht.keyed
  apart kind name := by
    rw [overloads, functions_withEntries]
    exact ht.apart kind name
  fixity := by
    simp only [fixityOf, overloads, functions_withEntries]
    exact ht.fixity

theorem taken_entry (ht : t.Coherent) (space : Space) (name : String) (e : ExternalEntry) :
    Taken t (.entry space name e) (t.take (.entry space name e)) := by
  -- every offer that might clash, or is of the same thing, is an entry of the name
  have hentry : ∀ {c : Offer}, t.Holds c → c.subject = (Offer.entry space name e).subject →
      ∃ e', c = .entry space name e' ∧ (name, e') ∈ t.entriesOf space := by
    intro c hc hs
    obtain ⟨e', rfl⟩ := Offer.eq_entry_of_subject hs
    exact ⟨e', rfl, hc⟩
  rw [take_entry, insertExternal]
  cases hl : (t.entriesOf space).lookup name with
  | some held =>
    have hmem : t.Holds (.entry space name held) := mem_of_lookup hl
    dsimp only
    split
    next hsame =>
      rw [Except.toOption, Option.map_some, withEntries_self]
      refine .known hmem (by simp [Offer.key, hsame]) fun c hc hclash => ?_
      obtain ⟨e', rfl, he'⟩ := hentry hc hclash.subject.symm
      obtain rfl : held = e' := Option.some.inj (hl.symm.trans (lookup_of_mem (ht.names space) he'))
      exact hclash.stance (by simp [Offer.stance, hsame])
    next hsame =>
      refine .refused hmem ⟨by simp [Offer.subject], rfl, fun heq => hsame ?_⟩
      simp only [Offer.stance, Sum.inl.injEq, Prod.mk.injEq] at heq
      exact ⟨heq.1.symm, heq.2.symm⟩
  | none =>
    have hnew : name ∉ (t.entriesOf space).map Prod.fst := lookup_eq_none_iff_not_mem.1 hl
    have hno : ∀ {c : Offer}, t.Holds c → c.subject ≠ (Offer.entry space name e).subject := by
      intro c hc hs
      obtain ⟨e', -, he'⟩ := hentry hc hs
      exact hnew (List.mem_map_of_mem he')
    refine .added (fun c hc hkey => hno hc (Offer.subject_of_key hkey))
      (fun c hc hclash => hno hc hclash.subject.symm) ?_ (ht.withEntries ?_ space)
    · intro c
      cases c with
      | entry s n e' =>
        simp only [Holds, entriesOf_withEntries]
        split
        next hs => simp [hs]
        next hs => simp [hs]
      | overload => simp [Holds, overloads, functions_withEntries]
    · simpa using (ht.names space).concat hnew

theorem key_of_sameOverload {kind : CallKind} {name : String} {o p : ExternalOverload} :
    (Offer.overload kind name p).key = (Offer.overload kind name o).key ↔
      sameOverload p o = true := by
  simp [Offer.key, sameOverload, and_assoc]

theorem eq_overload_of_key {c : Offer} {kind : CallKind} {name : String} {o : ExternalOverload}
    (h : c.key = (Offer.overload kind name o).key) :
    ∃ p, c = .overload kind name p ∧ sameOverload p o = true := by
  cases c with
  | entry => simp [Offer.key] at h
  | overload kind' name' p =>
    have h' := h
    simp only [Offer.key, Offer.Key.mk.injEq, Sum.inr.injEq, Prod.mk.injEq] at h'
    obtain ⟨⟨rfl, -⟩, rfl, -⟩ := h'
    exact ⟨p, rfl, key_of_sameOverload.1 h⟩

theorem overloads_add (t : ExternalTable) (kind : CallKind) (name : String) (o : ExternalOverload)
    (k : CallKind) (n : String) :
    ({ t with functions := t.functions.add kind name o } : ExternalTable).overloads k n =
      if (k, n) = (kind, name) then t.overloads kind name ++ [o] else t.overloads k n :=
  t.functions.get_add kind name o (k, n)

theorem Coherent.add (ht : t.Coherent) {kind : CallKind} {name : String} {o : ExternalOverload}
    (hnew : ∀ p ∈ t.overloads kind name, sameOverload p o = false)
    (hfixity : kind = .infixOp → ∃ x, o.fixity = some x ∧ ∀ y, t.fixityOf name = some y → y = x) :
    Coherent { t with functions := t.functions.add kind name o } where
  names space := by
    have h := ht.names space
    cases space <;> exact h
  keyed := ht.keyed.add kind name o
  apart k n := by
    rw [overloads_add]
    split
    · exact List.pairwise_append.2 ⟨ht.apart kind name, List.pairwise_singleton _ _,
        by simpa using hnew⟩
    · exact ht.apart k n
  fixity {n p} hp := by
    rw [overloads_add] at hp
    rw [fixityOf_add]
    split at hp
    next heq =>
      simp only [Prod.mk.injEq] at heq
      obtain ⟨rfl, rfl⟩ := heq
      obtain ⟨x, hx, hother⟩ := hfixity rfl
      rw [if_pos ⟨rfl, rfl⟩, hx]
      obtain hp | rfl := List.mem_append.1 hp |>.imp_right List.mem_singleton.1
      · obtain ⟨y, hy, hheld⟩ := ht.fixity hp
        exact ⟨y, hy, by rw [hheld]; rfl⟩
      · refine ⟨x, hx, ?_⟩
        cases hheld : t.fixityOf n with
        | none => rfl
        | some y => rw [hother y hheld]; rfl
    next hne =>
      rw [if_neg fun h => hne (by rw [h.1, h.2])]
      exact ht.fixity hp

theorem taken_addOverload (ht : t.Coherent) {kind : CallKind} {name : String} {o : ExternalOverload}
    (hfixity : kind = .infixOp → ∃ x, o.fixity = some x ∧ ∀ y, t.fixityOf name = some y → y = x) :
    Taken t (.overload kind name o) (some (t.addOverload kind name o)) := by
  have hapart : ∀ c, t.Holds c → ¬ (Offer.overload kind name o).Clash c := by
    intro c hc hclash
    obtain rfl : kind = .infixOp := by
      have := hclash.settles
      cases kind <;> first | rfl | exact absurd rfl this
    obtain ⟨p, rfl⟩ := Offer.eq_infix_of_subject hclash.subject.symm
    obtain ⟨x, hx, hother⟩ := hfixity rfl
    obtain ⟨y, hy, hheld⟩ := ht.fixity hc
    exact hclash.stance (by rw [Offer.stance, Offer.stance, hx, hy, hother y hheld])
  rw [addOverload]
  split
  next hknown =>
    obtain ⟨p, hp, hsame⟩ := List.any_eq_true.1 hknown
    exact .known (b := .overload kind name p) hp (key_of_sameOverload.2 hsame) hapart
  next hnew =>
    have hnew : ∀ p ∈ t.overloads kind name, sameOverload p o = false := by
      simpa [hasOverload] using hnew
    refine .added (fun c hc hkey => ?_) hapart (fun c => ?_) (ht.add hnew hfixity)
    · obtain ⟨p, rfl, hsame⟩ := eq_overload_of_key hkey
      exact absurd hsame (by simp [hnew p hc])
    · cases c with
      | entry s => cases s <;> simp [Holds, entriesOf]
      | overload k n p =>
        simp only [Holds, overloads_add, Offer.overload.injEq]
        split
        next heq =>
          simp only [Prod.mk.injEq] at heq
          simp [heq]
        next hne =>
          simp only [Prod.mk.injEq] at hne
          simp [← and_assoc, hne]

theorem taken (ht : t.Coherent) {a : Offer} (ha : a.Fixed) : Taken t a (t.take a) := by
  cases a with
  | entry space name e => exact taken_entry ht space name e
  | overload kind name o =>
    cases kind with
    | function | prefixOp => exact taken_addOverload ht fun h => by cases h
    | infixOp =>
      obtain ⟨x, hx⟩ := Option.ne_none_iff_exists'.1 (ha name o rfl)
      rw [take, hx, Option.bind_some]
      cases hheld : t.fixityOf name with
      | none =>
        exact taken_addOverload ht fun _ => ⟨x, hx, fun y hy => by cases hheld.symm.trans hy⟩
      | some y =>
        by_cases hyx : y = x
        · rw [Option.filter_some, if_neg (by simpa using hyx)]
          exact taken_addOverload ht fun _ =>
            ⟨x, hx, fun z hz => by cases hheld.symm.trans hz; exact hyx⟩
        · rw [Option.filter_some, if_pos (by simpa using hyx)]
          obtain ⟨p, hp, hpy⟩ := List.exists_of_findSome?_eq_some hheld
          refine .refused (b := .overload .infixOp name p) hp ⟨by simp [Offer.subject], rfl, ?_⟩
          simpa [Offer.stance, hx, hpy, eq_comm] using hyx

/-! ## A list of offers -/

variable {as : List Offer}

theorem Coherent.take (ht : t.Coherent) (ha : a.Fixed) (h : t.take a = some t') : t'.Coherent := by
  have hstep := taken ht ha
  rw [h] at hstep
  cases hstep with
  | known => exact ht
  | added _ _ _ hcoherent => exact hcoherent

theorem holds_take (ht : t.Coherent) (ha : a.Fixed) (h : t.take a = some t') (b : Offer) :
    t'.Holds b ↔ t.Holds b ∨ b = a ∧ ∀ c, t.Holds c → c.key ≠ a.key := by
  have hstep := taken ht ha
  rw [h] at hstep
  cases hstep with
  | known held hkey => exact ⟨.inl, fun hb => hb.resolve_right fun hnew => hnew.2 _ held hkey⟩
  | added hnew _ holds => rw [holds, and_iff_left hnew]

theorem isSome_take_iff (ht : t.Coherent) (ha : a.Fixed) :
    (t.take a).isSome ↔ ∀ b, t.Holds b → ¬ a.Clash b := by
  have hstep := taken ht ha
  cases h : t.take a with
  | none =>
    rw [h] at hstep
    cases hstep with
    | refused held hclash => exact ⟨fun hx => (by cases hx), fun hno => absurd hclash (hno _ held)⟩
  | some t' =>
    rw [h] at hstep
    cases hstep with
    | known _ _ hapart | added _ hapart => exact ⟨fun _ => hapart, fun _ => rfl⟩

theorem Coherent.takeAll (ht : t.Coherent) (has : ∀ a ∈ as, a.Fixed) (h : t.takeAll as = some t') :
    t'.Coherent := by
  induction as generalizing t with
  | nil => cases h; exact ht
  | cons a as ih =>
    obtain ⟨ha, has⟩ := List.forall_mem_cons.1 has
    rw [takeAll_cons] at h
    obtain ⟨u, hu, h⟩ := Option.bind_eq_some_iff.1 h
    exact ih (ht.take ha hu) has h

/-- Of the offers of one thing, and what was there before, the first stays. -/
theorem holds_takeAll (ht : t.Coherent) (has : ∀ a ∈ as, a.Fixed)
    (h : t.takeAll as = some t') (b : Offer) :
    t'.Holds b ↔ t.Holds b ∨ as.find? (fun a => a.key = b.key) = some b ∧
      ∀ c, t.Holds c → c.key ≠ b.key := by
  induction as generalizing t with
  | nil => cases h; simp
  | cons a as ih =>
    obtain ⟨ha, has⟩ := List.forall_mem_cons.1 has
    rw [takeAll_cons] at h
    obtain ⟨u, hu, h⟩ := Option.bind_eq_some_iff.1 h
    have hone := holds_take ht ha hu
    rw [ih (ht.take ha hu) has h, hone, List.find?_cons]
    by_cases hkey : a.key = b.key
    · -- the table knows the thing from here on
      have hknown : ∃ c, u.Holds c ∧ c.key = b.key := by
        by_cases hheld : ∃ c, t.Holds c ∧ c.key = a.key
        · obtain ⟨c, hc, hca⟩ := hheld
          exact ⟨c, (hone c).2 (.inl hc), hca.trans hkey⟩
        · exact ⟨a, (hone a).2 (.inr ⟨rfl, fun c hc hca => hheld ⟨c, hc, hca⟩⟩), hkey⟩
      obtain ⟨c, hc, hcb⟩ := hknown
      simp only [hkey, decide_true, Option.some.injEq]
      constructor
      · rintro (hb | ⟨-, hno⟩)
        · exact hb.imp_right fun hb => ⟨hb.1.symm, hb.2⟩
        · exact absurd hcb (hno c hc)
      · exact fun hb => .inl (hb.imp_right fun hb => ⟨hb.1.symm, hb.2⟩)
    · have hne : b ≠ a := fun hba => hkey (by rw [hba])
      simp only [hkey, hne, decide_false, false_and, or_false]
      refine or_congr_right
        (and_congr_right fun _ => ⟨fun hno c hc => hno c ((hone c).2 (.inl hc)), ?_⟩)
      intro hno c hc
      obtain hc | ⟨rfl, -⟩ := (hone c).1 hc
      · exact hno c hc
      · exact hkey

/-- A list of offers is taken if none of them clashes with another or with what was there before. -/
theorem isSome_takeAll_iff (ht : t.Coherent) (has : ∀ a ∈ as, a.Fixed) : (t.takeAll as).isSome ↔
    (∀ a ∈ as, ∀ b, t.Holds b → ¬ a.Clash b) ∧ ∀ a ∈ as, ∀ b ∈ as, ¬ a.Clash b := by
  induction as generalizing t with
  | nil => simp [takeAll]
  | cons a as ih =>
    obtain ⟨ha, has⟩ := List.forall_mem_cons.1 has
    rw [takeAll_cons]
    cases hu : t.take a with
    | none =>
      have hno : ¬ ∀ b, t.Holds b → ¬ a.Clash b := fun hx => by
        simpa [hu] using (isSome_take_iff ht ha).2 hx
      exact ⟨fun hx => (by cases hx), fun hx => absurd (hx.1 a List.mem_cons_self) hno⟩
    | some u =>
      have hfirst : ∀ b, t.Holds b → ¬ a.Clash b := (isSome_take_iff ht ha).1 (by rw [hu]; rfl)
      have hone := holds_take ht ha hu
      -- an offer clashes with what the table now holds if it clashes with what it held, or with `a`
      have hclash :
          ∀ c : Offer, (∀ b, u.Holds b → ¬ c.Clash b) ↔
            (∀ b, t.Holds b → ¬ c.Clash b) ∧ ¬ c.Clash a := by
        intro c
        refine ⟨fun hx => ⟨fun b hb => hx b ((hone b).2 (.inl hb)), fun hca => ?_⟩,
          fun hx b hb => ?_⟩
        · by_cases hheld : ∃ b, t.Holds b ∧ b.key = a.key
          · obtain ⟨b, hb, hkey⟩ := hheld
            exact hx b ((hone b).2 (.inl hb)) (hca.of_key hkey (hfirst b hb))
          · exact hx a ((hone a).2 (.inr ⟨rfl, fun b hb hkey => hheld ⟨b, hb, hkey⟩⟩)) hca
        · obtain hb | ⟨rfl, -⟩ := (hone b).1 hb
          · exact hx.1 b hb
          · exact hx.2
      rw [Option.bind_some, ih (ht.take ha hu) has]
      simp only [hclash, List.forall_mem_cons, Offer.not_clash_self, not_false_eq_true, true_and]
      constructor
      · rintro ⟨hold, hpair⟩
        exact ⟨⟨hfirst, fun c hc => (hold c hc).1⟩, fun c hc hac => (hold c hc).2 hac.symm,
          fun c hc => ⟨(hold c hc).2, hpair c hc⟩⟩
      · rintro ⟨⟨-, hold⟩, -, hpair⟩
        exact ⟨fun c hc => ⟨hold c hc, (hpair c hc).1⟩, fun c hc => (hpair c hc).2⟩

/-! ## Tables that hold the same -/

/-- Two tables with the same content, in whatever order. -/
structure Shuffled (t t' : ExternalTable) : Prop where
  globals : t'.globals.Perm t.globals
  synonyms : t'.synonyms.Perm t.synonyms
  overloads : ∀ kind name, (t'.overloads kind name).Perm (t.overloads kind name)

theorem Coherent.nodup_overloads (ht : t.Coherent) (kind : CallKind) (name : String) :
    (t.overloads kind name).Nodup := by
  refine (ht.apart kind name).imp ?_
  rintro o _ hne rfl
  simp [sameOverload] at hne

theorem Coherent.nodup_entries (ht : t.Coherent) (space : Space) : (t.entriesOf space).Nodup :=
  List.Nodup.of_map _ (ht.names space)

theorem Coherent.shuffled (ht : t.Coherent) (ht' : t'.Coherent) (h : ∀ b, t'.Holds b ↔ t.Holds b) :
    t.Shuffled t' := by
  have hentries : ∀ space, (t'.entriesOf space).Perm (t.entriesOf space) := fun space =>
    (List.perm_ext_iff_of_nodup (ht'.nodup_entries space) (ht.nodup_entries space)).2 fun x =>
      h (.entry space x.1 x.2)
  exact ⟨hentries .globals, hentries .synonyms, fun kind name =>
    (List.perm_ext_iff_of_nodup (ht'.nodup_overloads kind name) (ht.nodup_overloads kind name)).2
      fun o =>
      h (.overload kind name o)⟩

end ExternalTable

end SplFrontend
