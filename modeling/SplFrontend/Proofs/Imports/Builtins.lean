import SplFrontend.Proofs.Imports.Order

/-!
# Built-ins beside imports

Where the entries of an external table come from: each of them is listed by the header of an
imported module or is a built-in (`mem_of_holds`), and of each built-in something of its name, owner
and type is there. The built-ins come last, so an entry of the same owner would stay in their place.
Only a header that claims to be that of the module of the built-ins itself can list such an entry,
and it cannot change a fixity even so (`merge_keeps_builtins`).
-/

namespace SplFrontend

namespace Imports

/-! ## Where entries come from -/

section

variable {texts : HeaderTexts} {builtins : ExternalTable} {imports : List Import}

/-- What is imported is listed by the header of its module, under its own name or another. -/
theorem exists_header {a : Offer} (ha : a ∈ allOffers texts builtins imports) :
    ∃ h, headerOf texts builtins a.key.module = some h ∧ a.key.module ∈ imports.map Import.module ∧
      ∃ c ∈ h.offers, a = c.under a.key.name := by
  obtain ⟨m, hm, ha⟩ := List.mem_flatMap.1 ha
  unfold importOffers at ha
  cases hh : headerOf texts builtins m with
  | none =>
    rw [hh] at ha
    cases ha
  | some h =>
    rw [hh] at ha
    have hlisted : ∃ c ∈ h.offers, a = c.under a.key.name := by
      obtain ha | ha := List.mem_append.1 ha
      · split at ha
        · exact ⟨a, ha, a.under_name.symm⟩
        · cases ha
      · obtain ⟨k, -, ha⟩ := List.mem_flatMap.1 ha
        obtain ⟨c, hc, rfl⟩ := List.mem_map.1 ha
        refine ⟨c, (List.mem_filter.1 hc).1, ?_⟩
        rw [Offer.key_under]
    obtain ⟨c, hc, hac⟩ := hlisted
    have hmodule : a.key.module = m := by
      rw [hac, Offer.key_under]
      exact (Header.key_of_mem_offers hc).1.trans (headerOf_eq_some hh).1
    rw [hmodule]
    exact ⟨h, hh, mem_modules.1 hm, c, hc, hac⟩

end

section

variable {texts : HeaderTexts} {imports : List Import}

/-- All that a merge takes, in its order. -/
def offered (texts : HeaderTexts) (imports : List Import) : List Offer :=
  allOffers texts Builtin.table imports ++ Merge.builtinOffers Builtin.table

/-- A header of the module of the built-ins is imported, and it lists the entry under this name or
another. -/
def ListedAsBuiltin (texts : HeaderTexts) (imports : List Import) (a : Offer) : Prop :=
  Builtin.module ∈ imports.map Import.module ∧
    ∃ h, headerOf texts Builtin.table Builtin.module = some h ∧
      ∃ c ∈ h.offers, a = c.under a.key.name

theorem fixed_offered : ∀ a ∈ offered texts imports, a.Fixed :=
  List.forall_mem_append.2 ⟨fixed_allOffers, fixed_builtinOffers Builtin.sound⟩

variable (h : ∀ d ∈ (merge texts Builtin.table imports).notes, NotError d)

include h

theorem takeAll_of_merge :
    ExternalTable.takeAll {} (offered texts imports) =
      some (merge texts Builtin.table imports).value.externals :=
  ((merge_takes Builtin.infix_of_fixity imports _).1 ⟨fun d hd => ⟨h d hd, rfl⟩, rfl⟩).2

theorem coherent_of_merge : (merge texts Builtin.table imports).value.externals.Coherent :=
  ExternalTable.coherent_empty.takeAll fixed_offered (takeAll_of_merge h)

/-- Of the offers of one thing the first is held. -/
theorem holds_merge_iff (b : Offer) : (merge texts Builtin.table imports).value.externals.Holds b ↔
    (offered texts imports).find? (fun a => a.key = b.key) = some b := by
  have hempty : ∀ c, ¬ ExternalTable.Holds {} c := by
    intro c hc
    cases c with
    | entry space => cases space <;> cases hc
    | overload => cases hc
  rw [ExternalTable.holds_takeAll ExternalTable.coherent_empty fixed_offered (takeAll_of_merge h)]
  exact ⟨fun hb => (hb.resolve_left (hempty b)).1,
    fun hb => .inr ⟨hb, fun c hc => (hempty c hc).elim⟩⟩

theorem mem_of_holds {b : Offer}
    (hb : (merge texts Builtin.table imports).value.externals.Holds b) :
    b ∈ allOffers texts Builtin.table imports ∨ b ∈ Merge.builtinOffers Builtin.table :=
  List.mem_append.1 (List.mem_of_find?_eq_some ((holds_merge_iff h b).1 hb))

/-- Of every offer something of its key is held. -/
theorem exists_holds {a : Offer} (ha : a ∈ offered texts imports) :
    ∃ c, (merge texts Builtin.table imports).value.externals.Holds c ∧ c.key = a.key := by
  cases hfind : (offered texts imports).find? (fun b => b.key = a.key) with
  | none => exact absurd (by simp) (List.find?_eq_none.1 hfind a ha)
  | some c =>
    have hkey : c.key = a.key := by simpa using List.find?_some hfind
    refine ⟨c, (holds_merge_iff h c).2 ?_, hkey⟩
    rw [hkey]
    exact hfind

/-- What is held does not clash with a built-in. -/
theorem not_clash_builtin {a b : Offer}
    (ha : (merge texts Builtin.table imports).value.externals.Holds a)
    (hb : b ∈ Merge.builtinOffers Builtin.table) : ¬ a.Clash b := by
  have hsome := Option.isSome_iff_exists.2 ⟨_, takeAll_of_merge h⟩
  have hclash :=
    ((ExternalTable.isSome_takeAll_iff ExternalTable.coherent_empty fixed_offered).1 hsome).2
  exact hclash a (List.mem_append.2 (mem_of_holds h ha)) b (List.mem_append_right _ hb)

/-- What the module of the built-ins owns is built in, or a header of that module lists it. -/
theorem mem_builtinOffers_or {a : Offer}
    (ha : (merge texts Builtin.table imports).value.externals.Holds a)
    (hown : a.key.module = Builtin.module) :
    a ∈ Merge.builtinOffers Builtin.table ∨ ListedAsBuiltin texts imports a := by
  refine (mem_of_holds h ha).symm.imp_right fun hmem => ?_
  obtain ⟨hd, hheader, himported, hlisted⟩ := exists_header hmem
  rw [hown] at hheader himported
  exact ⟨himported, hd, hheader, hlisted⟩

end

/-! ## The built-ins -/

theorem mem_builtinOffers {a : Offer} : a ∈ Merge.builtinOffers Builtin.table ↔
    a = .entry .synonyms "String" ⟨Builtin.module, "String", .list .char⟩ ∨
      ∃ c ∈ Builtin.callables, a = .overload c.kind c.name c.overload := by
  rw [Merge.builtinOffers, Builtin.synonyms_table, List.mem_append, List.map_singleton,
    List.mem_singleton, List.mem_map]
  refine or_congr_right ⟨?_, ?_⟩
  · rintro ⟨e, he, rfl⟩
    obtain ⟨c, hc, rfl⟩ := Builtin.mem_entries.1 he
    exact ⟨c, hc, rfl⟩
  · rintro ⟨c, hc, rfl⟩
    exact ⟨_, Builtin.mem_entries.2 ⟨c, hc, rfl⟩, rfl⟩

/-- A merge without an error offers every built-in: `String` and all callables are there, owned by
the module of the built-ins, and the operators with their fixity. They are the built-ins themselves,
unless a header of that very module is imported and lists others in their place. -/
theorem merge_keeps_builtins {texts : HeaderTexts} {imports : List Import}
    (h : ∀ d ∈ (merge texts Builtin.table imports).notes, NotError d) :
    let t := (merge texts Builtin.table imports).value.externals
    (∃ ty, t.synonyms.lookup "String" = some ⟨Builtin.module, "String", ty⟩ ∧
      (ty = .list .char ∨
        ListedAsBuiltin texts imports (.entry .synonyms "String" ⟨Builtin.module, "String", ty⟩))) ∧
    ∀ c ∈ Builtin.callables,
      (∃ o ∈ t.overloads c.kind c.name, ExternalTable.sameOverload o c.overload = true) ∧
      ∀ o ∈ t.overloads c.kind c.name, o.module = Builtin.module → o.sig = c.sig →
        (c.kind = .infixOp → o.fixity = c.fixity) ∧
        (o.fixity = c.fixity ∧ o.constant = c.constant ∨
          ListedAsBuiltin texts imports (.overload c.kind c.name o)) := by
  intro t
  have hcallable (c : Builtin.Callable) (hc : c ∈ Builtin.callables) :
      .overload c.kind c.name c.overload ∈ Merge.builtinOffers Builtin.table :=
    mem_builtinOffers.2 (.inr ⟨c, hc, rfl⟩)
  refine ⟨?_, fun c hc => ⟨?_, fun o ho hmodule hsig => ⟨fun hkind => ?_, ?_⟩⟩⟩
  · obtain ⟨a, ha, hkey⟩ :=
      exists_holds h (List.mem_append_right _ (mem_builtinOffers.2 (.inl rfl)))
    obtain ⟨e, rfl⟩ := Offer.eq_entry_of_subject (Offer.subject_of_key hkey)
    obtain ⟨owner, exported, ty⟩ := e
    simp only [Offer.key, Offer.Key.mk.injEq] at hkey
    obtain ⟨-, -, rfl, rfl⟩ := hkey
    refine ⟨ty, lookup_of_mem ((coherent_of_merge h).names .synonyms) ha, ?_⟩
    refine (mem_builtinOffers_or h ha rfl).imp_left fun hmem => ?_
    obtain heq | ⟨c, -, heq⟩ := mem_builtinOffers.1 hmem
    · cases heq
      rfl
    · cases heq
  · obtain ⟨a, ha, hkey⟩ := exists_holds h (List.mem_append_right _ (hcallable c hc))
    obtain ⟨o, rfl, hsame⟩ := ExternalTable.eq_overload_of_key hkey
    exact ⟨o, ha, hsame⟩
  · -- Operators of one name with two fixities would clash.
    have hclash := not_clash_builtin h (a := .overload c.kind c.name o) ho (hcallable c hc)
    rw [hkind] at hclash
    by_contra hne
    refine hclash ⟨by simp [Offer.subject], rfl, fun hstance => hne ?_⟩
    exact Sum.inr.inj hstance
  · refine (mem_builtinOffers_or h (a := .overload c.kind c.name o) ho hmodule).imp_left
      fun hmem => ?_
    obtain heq | ⟨d, hd, heq⟩ := mem_builtinOffers.1 hmem
    · cases heq
    · simp only [Offer.overload.injEq] at heq
      obtain ⟨hkind, hname, rfl⟩ := heq
      cases List.inj_on_of_nodup_map Builtin.nodup_keys hc hd (by rw [hkind, hname, ← hsig]; rfl)
      exact ⟨rfl, rfl⟩

/-- The header of a module `m` with a function `g` of the type of `read`, and a header that claims
to be that of the built-ins. -/
def rivalHeaders : HeaderTexts :=
  [("m", "\x7b\"module\":\"m\",\"functions\":[\x7b\"namespace\":\"function\",\"name\":\"g\"," ++
      "\"type\":\"FUNTYPE(type_params=[],return_type=BASICTYPE(type_id=\\\"Char\\\"))\"\x7d]\x7d"),
    ("__builtin__", "\x7b\"module\":\"__builtin__\",\"type_syns\":[" ++
      "\x7b\"name\":\"String\",\"type\":\"BASICTYPE(type_id=\\\"Int\\\")\"\x7d]\x7d")]

/-- A function is imported under the name and with the type of a built-in one. -/
theorem merge_keeps_builtins_sample : ∃ p, Program.ofText "from m import g as read;" = .ok p ∧
    let t := (merge rivalHeaders Builtin.table p.imports).value.externals
    (∃ ty, t.synonyms.lookup "String" = some ⟨Builtin.module, "String", ty⟩ ∧ (ty = .list .char ∨
      ListedAsBuiltin rivalHeaders p.imports
        (.entry .synonyms "String" ⟨Builtin.module, "String", ty⟩))) ∧
    ∀ c ∈ Builtin.callables,
      (∃ o ∈ t.overloads c.kind c.name, ExternalTable.sameOverload o c.overload = true) ∧
      ∀ o ∈ t.overloads c.kind c.name, o.module = Builtin.module → o.sig = c.sig →
        (c.kind = .infixOp → o.fixity = c.fixity) ∧
        (o.fixity = c.fixity ∧ o.constant = c.constant ∨
          ListedAsBuiltin rivalHeaders p.imports (.overload c.kind c.name o)) := by
  refine exists_ok_of_check
    (c := fun p : Program => (merge rivalHeaders Builtin.table p.imports).notes.all
    fun d => !d.isError) (by decide +kernel) fun p _ h => merge_keeps_builtins fun d hd => ?_
  simpa using List.all_eq_true.1 h d hd

/-- A header of the module of the built-ins gives `String` another type, and nothing is reported. -/
theorem merge_replaces_builtins : ∃ p, Program.ofText "from __builtin__ import String;" = .ok p ∧
    (merge rivalHeaders Builtin.table p.imports).notes = [] ∧
    (merge rivalHeaders Builtin.table p.imports).value.externals.synonyms.lookup "String" =
      some ⟨Builtin.module, "String", .int⟩ := by
  refine exists_ok_of_check (c := fun p : Program => decide (
    (merge rivalHeaders Builtin.table p.imports).notes = [] ∧
    (merge rivalHeaders Builtin.table p.imports).value.externals.synonyms.lookup "String" =
      some ⟨Builtin.module, "String", .int⟩)) (by decide +kernel) ?_
  exact fun p _ h => of_decide_eq_true h

end Imports

end SplFrontend
