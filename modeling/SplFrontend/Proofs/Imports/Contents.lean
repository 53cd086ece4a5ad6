import Mathlib.Data.List.Induction
import SplFrontend.Proofs.Imports.Builtins

/-!
# What a merge holds

If nothing is reported, the external table holds what the import lines ask for, the built-ins, and
nothing else (`merge_contents`). An import line asks for something by the name that its module
exports it by; that name tells the class of what is meant, and a header is searched from its start.
A module that calls itself the module of the built-ins is left out: its entries could stand in the
place of built-in ones.
-/

namespace SplFrontend

/-- The class of the names that the callables of a kind have. -/
def CallKind.nameKind : CallKind → NameKind
  | .function => .ident
  | .prefixOp | .infixOp => .op

/-- Does an import line ask for what its module exports by a name, to be known here by another? -/
def Import.Asks (l : Import) (exported : Name) (name : String) : Prop :=
  match l.names with
  | .all => name = exported.text
  | .names ns => ∃ n ∈ ns, n.name = exported ∧ n.effective.text = name

namespace Offer

/-- The name that the module exports a thing by. -/
def exportName : Offer → Name
  | .entry .globals _ e => ⟨e.exported, .ident⟩
  | .entry .synonyms _ e => ⟨e.exported, .typeName⟩
  | .overload kind _ o => ⟨o.exported, kind.nameKind⟩

theorem text_exportName (a : Offer) : a.exportName.text = a.key.exported := by
  cases a with
  | entry space => cases space <;> rfl
  | overload => rfl

theorem exportName_under (name : String) (a : Offer) :
    (a.under name).exportName = a.exportName := by
  cases a with
  | entry space => cases space <;> rfl
  | overload => rfl

theorem under_under (name name' : String) (a : Offer) :
    (a.under name').under name = a.under name := by
  cases a <;> rfl

theorem brings_iff {cls : NameKind} {kind : CallKind} :
    Imports.Merge.brings cls kind = true ↔ cls = kind.nameKind := by
  cases cls <;> cases kind <;> decide

theorem wanted_iff {n : Name} {a : Offer} : Wanted n a = true ↔ n = a.exportName := by
  obtain ⟨text, cls⟩ := n
  cases a with
  | entry space =>
    cases space <;> simp only [Wanted, key, exportName, Bool.and_eq_true, Name.mk.injEq,
      decide_eq_true_eq] <;>
      exact and_congr_left' (decide_eq_true_iff.trans eq_comm)
  | overload =>
    simp only [Wanted, key, exportName, Bool.and_eq_true, Name.mk.injEq, brings_iff]
    exact and_congr_left' (decide_eq_true_iff.trans eq_comm)

end Offer

namespace Header

/-- The entries of a space. -/
def entriesOf (h : Header) : Space → List (String × Ty)
  | .globals => h.globals
  | .synonyms => h.synonyms

theorem under_exported {h : Header} {c : Offer} (hc : c ∈ h.offers) :
    c.under c.key.exported = c := by
  rw [← (key_of_mem_offers hc).2, Offer.under_name]

end Header

namespace Imports

/-- Do the import lines ask for what a module exports by a name, to be known here by another? -/
def Asked (imports : List Import) (module : String) (exported : Name) (name : String) : Prop :=
  ∃ l ∈ imports, l.module = module ∧ l.Asks exported name

/-! ## What is asked for -/

section
variable {texts : HeaderTexts} {builtins : ExternalTable} {h : Header}
  {lines imports : List Import} {a b : Offer}

theorem mem_listed {n : ImportName} :
    n ∈ Merge.listed lines ↔ ∃ l ∈ lines, ∃ ns, l.names = .names ns ∧ n ∈ ns := by
  rw [Merge.listed, List.mem_flatMap]
  refine exists_congr fun l => and_congr_right fun _ => ?_
  cases l.names <;> simp

theorem mem_asks : a ∈ Merge.asks h lines ↔
    a.under a.key.exported ∈ h.offers ∧ ∃ l ∈ lines, l.Asks a.exportName a.key.name := by
  simp only [Merge.asks, List.mem_append, List.mem_flatMap, Merge.mem_fresh, Header.offersFor,
    List.mem_map, List.mem_filter, Offer.wanted_iff]
  constructor
  · rintro (ha | ⟨_, ⟨n, hn, rfl⟩, c, ⟨hc, hname⟩, rfl⟩)
    · split at ha
      next hwhole =>
        obtain ⟨l, hl, hall⟩ := isSome_wholeAt.1 hwhole
        refine ⟨(Header.under_exported ha).symm ▸ ha, l, hl, ?_⟩
        rw [Import.Asks, hall, Offer.text_exportName]
        exact (Header.key_of_mem_offers ha).2
      next => cases ha
    · obtain ⟨l, hl, ns, hns, hn⟩ := mem_listed.1 hn
      rw [Offer.under_under, Offer.exportName_under, Offer.key_under]
      refine ⟨(Header.under_exported hc).symm ▸ hc, l, hl, ?_⟩
      rw [Import.Asks, hns]
      exact ⟨n, hn, hname, rfl⟩
  · rintro ⟨ha, l, hl, hasks⟩
    unfold Import.Asks at hasks
    cases hnames : l.names with
    | all =>
      rw [hnames, Offer.text_exportName] at hasks
      rw [← hasks, Offer.under_name] at ha
      exact .inl (by rwa [if_pos (isSome_wholeAt.2 ⟨l, hl, hnames⟩)])
    | names ns =>
      rw [hnames] at hasks
      obtain ⟨n, hn, hname, htext⟩ := hasks
      refine .inr ⟨_, ⟨n, mem_listed.2 ⟨l, hl, ns, hnames, hn⟩, rfl⟩, _, ⟨ha, ?_⟩, ?_⟩
      · rw [Offer.exportName_under]
        exact hname
      · rw [Offer.under_under, Merge.asked, htext, Offer.under_name]

theorem mem_allOffers : a ∈ allOffers texts builtins imports ↔
    (∃ h, headerOf texts builtins a.key.module = some h ∧ a.under a.key.exported ∈ h.offers) ∧
      Asked imports a.key.module a.exportName a.key.name := by
  have hlines : ∀ m, (∃ l ∈ imports.filter (·.module = m), l.Asks a.exportName a.key.name) ↔
      Asked imports m a.exportName a.key.name := fun m => by
    simp only [Asked, List.mem_filter, decide_eq_true_eq, and_assoc]
  rw [allOffers, List.mem_flatMap]
  constructor
  · rintro ⟨m, -, ha⟩
    unfold importOffers at ha
    cases hh : headerOf texts builtins m with
    | none =>
      rw [hh] at ha
      cases ha
    | some h =>
      rw [hh] at ha
      obtain ⟨hoffers, hasked⟩ := mem_asks.1 ha
      have hmodule : a.key.module = m := by
        have hkey := (Header.key_of_mem_offers hoffers).1
        rw [Offer.key_under] at hkey
        exact hkey.trans (headerOf_eq_some hh).1
      rw [hmodule]
      exact ⟨⟨h, hh, hoffers⟩, (hlines m).1 hasked⟩
  · rintro ⟨⟨h, hh, hoffers⟩, hasked⟩
    refine ⟨a.key.module, ?_, ?_⟩
    · obtain ⟨l, hl, hmodule, -⟩ := hasked
      exact mem_modules.2 (List.mem_map.2 ⟨l, hl, hmodule⟩)
    · rw [importOffers, hh]
      exact mem_asks.2 ⟨hoffers, (hlines _).2 hasked⟩

/-- Of what is asked for, the first of its key is the first that its header lists. -/
theorem find?_allOffers :
    (allOffers texts builtins imports).find? (fun a => a.key = b.key) = some b ↔
    (∃ h, headerOf texts builtins b.key.module = some h ∧
      h.offers.find? (fun a => (a.under b.key.name).key = b.key) = some (b.under b.key.exported)) ∧
    Asked imports b.key.module b.exportName b.key.name := by
  have hfirst : ∀ {h}, headerOf texts builtins b.key.module = some h →
      (firstOf (headerOf texts builtins) b.key = some b ↔
        h.offers.find? (fun a => (a.under b.key.name).key = b.key) =
          some (b.under b.key.exported)) := by
    intro h hh
    rw [firstOf, hh, Option.bind_some, Option.map_eq_some_iff]
    constructor
    · rintro ⟨c, hfind, hcb⟩
      have hc := Header.under_exported (List.mem_of_find?_eq_some hfind)
      rw [hfind, ← hcb, Offer.under_under, Offer.key_under, hc]
    · exact fun hfind => ⟨_, hfind, by rw [Offer.under_under, Offer.under_name]⟩
  constructor
  · intro hfind
    have hmem := List.mem_of_find?_eq_some hfind
    obtain ⟨⟨h, hh, -⟩, hasked⟩ := mem_allOffers.1 hmem
    exact ⟨⟨h, hh, (hfirst hh).1 ((leads_allOffers imports b hmem).symm.trans hfind)⟩, hasked⟩
  · rintro ⟨⟨h, hh, hfind⟩, hasked⟩
    have hmem : b ∈ allOffers texts builtins imports :=
      mem_allOffers.2 ⟨⟨h, hh, List.mem_of_find?_eq_some hfind⟩, hasked⟩
    exact (leads_allOffers imports b hmem).trans ((hfirst hh).2 hfind)

end

/-! ## What a header lists first -/

theorem find?_never {α : Type} (l : List α) : l.find? (fun _ => false) = none :=
  List.find?_eq_none.2 fun _ _ h => by cases h

theorem find?_fst {β : Type} (l : List (String × β)) (name : String) :
    l.find? (fun x => x.1 = name) = (l.lookup name).map (name, ·) := by
  induction l with
  | nil => rfl
  | cons x l ih =>
    rw [List.find?_cons, List.lookup_cons]
    by_cases hx : x.1 = name
    · subst hx
      simp
    · rw [beq_false_of_ne (Ne.symm hx)]
      simpa [hx] using ih

section
variable {h : Header} {name : String}

theorem find?_entry {space : Space} {e : ExternalEntry} (hmodule : h.module = e.module) :
    h.offers.find? (fun a => (a.under name).key = (Offer.entry space name e).key) =
        some (.entry space e.exported e) ↔ (h.entriesOf space).lookup e.exported = some e.ty := by
  obtain ⟨module, exported, ty⟩ := e
  have hfind :
      h.offers.find?
        (fun a => (a.under name).key = (Offer.entry space name ⟨module, exported, ty⟩).key) =
      ((h.entriesOf space).lookup exported).map fun ty =>
        .entry space exported ⟨module, exported, ty⟩ := by
    cases space <;> simp [Header.offers, Header.offersOf, Header.offerOf, Header.entriesOf,
      List.find?_append, List.find?_map, Function.comp_def, Offer.under, Offer.key, hmodule,
        find?_fst, find?_never]
  rw [hfind, Option.map_eq_some_iff]
  simp

theorem find?_overload {kind : CallKind} {o : ExternalOverload} (hmodule : h.module = o.module) :
    h.offers.find? (fun a => (a.under name).key = (Offer.overload kind name o).key) =
        some (.overload kind o.exported o) ↔
      h.functions.find? (fun f => f.kind = kind ∧ f.name = o.exported ∧ f.sig = o.sig) =
        some ⟨kind, o.exported, o.fixity, o.sig, o.constant⟩ := by
  obtain ⟨sig, module, exported, fixity, constant⟩ := o
  have hfind : h.offers.find? (fun a => (a.under name).key =
        (Offer.overload kind name ⟨sig, module, exported, fixity, constant⟩).key) =
      (h.functions.find? fun f => f.kind = kind ∧ f.name = exported ∧ f.sig = sig).map fun f =>
        Header.offerOf module f.name f := by
    simp [Header.offers, Header.offersOf, Header.offerOf, List.find?_append, List.find?_map,
      Offer.under, Offer.key, hmodule, find?_never, Bool.and_left_comm, Bool.and_comm]
  rw [hfind, Option.map_eq_some_iff]
  constructor
  · rintro ⟨f, hf, heq⟩
    cases heq
    exact hf
  · exact fun hf => ⟨_, hf, rfl⟩

end

/-! ## The built-ins -/

theorem module_of_mem_builtinOffers {b : Offer} (hb : b ∈ Merge.builtinOffers Builtin.table) :
    b.key.module = Builtin.module := by
  obtain rfl | ⟨c, -, rfl⟩ := mem_builtinOffers.1 hb <;> rfl

/-- No two built-ins have the same key. -/
theorem eq_of_key_builtinOffers {a b : Offer} (ha : a ∈ Merge.builtinOffers Builtin.table)
    (hb : b ∈ Merge.builtinOffers Builtin.table) (hkey : a.key = b.key) : a = b := by
  obtain rfl | ⟨c, hc, rfl⟩ := mem_builtinOffers.1 ha <;> obtain rfl | ⟨d, hd, rfl⟩ :=
    mem_builtinOffers.1 hb
  · rfl
  · simp [Offer.key] at hkey
  · simp [Offer.key] at hkey
  · simp only [Offer.key, Offer.Key.mk.injEq, Sum.inr.injEq, Prod.mk.injEq] at hkey
    obtain ⟨⟨hkind, hsig⟩, hname, -⟩ := hkey
    cases List.inj_on_of_nodup_map Builtin.nodup_keys hc hd
      (by rw [hkind, hname]; exact congrArg _ (congrArg _ hsig))
    rfl

theorem find?_builtinOffers {b : Offer} :
    (Merge.builtinOffers Builtin.table).find? (fun a => a.key = b.key) = some b ↔
      b ∈ Merge.builtinOffers Builtin.table := by
  refine ⟨List.mem_of_find?_eq_some, fun hb => ?_⟩
  cases hfind : (Merge.builtinOffers Builtin.table).find? (fun a => a.key = b.key) with
  | none => exact absurd (by simp) (List.find?_eq_none.1 hfind b hb)
  | some a =>
    have hkey : a.key = b.key := by simpa using List.find?_some hfind
    rw [eq_of_key_builtinOffers (List.mem_of_find?_eq_some hfind) hb hkey]

theorem entry_mem_builtinOffers {space : Space} {name : String} {e : ExternalEntry} :
    .entry space name e ∈ Merge.builtinOffers Builtin.table ↔
      space = .synonyms ∧ (name, e) ∈ Builtin.table.synonyms := by
  rw [mem_builtinOffers, Builtin.synonyms_table]
  simp

theorem overload_mem_builtinOffers {kind : CallKind} {name : String} {o : ExternalOverload} :
    .overload kind name o ∈ Merge.builtinOffers Builtin.table ↔
      o ∈ Builtin.table.overloads kind name := by
  have hmem : .overload kind name o ∈ Merge.builtinOffers Builtin.table ↔
      (kind, name, o) ∈ Builtin.table.functions.entries := by
    simp [Merge.builtinOffers]
  rw [hmem]
  refine ⟨fun h => ?_, ExternalTable.mem_entries_of_overloads⟩
  obtain ⟨set, hset, ho⟩ := Callables.mem_entries.1 h
  rw [ExternalTable.overloads, Callables.get_of_mem Builtin.keyed_functions hset]
  exact ho

/-! ## The order of the modules -/

theorem modules_append_one (imports : List Import) (i : Import) : modules (imports ++ [i]) =
    if i.module ∈ modules imports then modules imports else modules imports ++ [i.module] := by
  rw [modules, List.foldl_append]
  rfl

theorem pairwise_modules (imports : List Import) : (modules imports).Pairwise fun m m' =>
    (imports.map Import.module).idxOf m < (imports.map Import.module).idxOf m' := by
  induction imports using List.reverseRecOn with
  | nil => exact List.Pairwise.nil
  | append_singleton imports i ih =>
    -- further lines do not change where a module is imported first
    have hsame : ∀ m ∈ modules imports,
        ((imports ++ [i]).map Import.module).idxOf m = (imports.map Import.module).idxOf m :=
      fun m hm => by
      rw [List.map_append, List.idxOf_append_of_mem (mem_modules.1 hm)]
    have hold : (modules imports).Pairwise fun m m' =>
        ((imports ++ [i]).map Import.module).idxOf m <
          ((imports ++ [i]).map Import.module).idxOf m' :=
      ih.imp_of_mem fun hm hm' hlt => by rwa [hsame _ hm, hsame _ hm']
    rw [modules_append_one]
    split
    · exact hold
    next hnew =>
      refine List.pairwise_append.2 ⟨hold, List.pairwise_singleton _ _, fun m hm m' hm' => ?_⟩
      cases List.mem_singleton.1 hm'
      rw [hsame m hm, List.map_append, List.idxOf_append_of_notMem (mt mem_modules.2 hnew)]
      exact (List.idxOf_lt_length_iff.2 (mem_modules.1 hm)).trans_le (Nat.le_add_right _ _)

/-! ## The table -/

/-- A table that holds what the import lines ask for, the built-ins, and nothing else. -/
structure Exact (texts : HeaderTexts) (imports : List Import) (t : ExternalTable) : Prop where
  /-- A name stands for a global of an imported module, with the type that the header lists
  first. -/
  globals : ∀ name e, (name, e) ∈ t.globals ↔ ∃ h, headerOf texts Builtin.table e.module = some h ∧
    h.globals.lookup e.exported = some e.ty ∧ Asked imports e.module ⟨e.exported, .ident⟩ name
  synonyms : ∀ name e, (name, e) ∈ t.synonyms ↔
    (∃ h, headerOf texts Builtin.table e.module = some h ∧
    h.synonyms.lookup e.exported = some e.ty ∧
      Asked imports e.module ⟨e.exported, .typeName⟩ name) ∨
    (name, e) ∈ Builtin.table.synonyms
  /-- A function is asked for by an identifier, a prefix or an infix operator by the name of an
  operator. -/
  callables : ∀ kind name o, o ∈ t.overloads kind name ↔
    (∃ h, headerOf texts Builtin.table o.module = some h ∧
    h.functions.find? (fun f => f.kind = kind ∧ f.name = o.exported ∧ f.sig = o.sig) =
      some ⟨kind, o.exported, o.fixity, o.sig, o.constant⟩ ∧
    Asked imports o.module ⟨o.exported, kind.nameKind⟩ name) ∨
    o ∈ Builtin.table.overloads kind name
  /-- A name stands for one global and one synonym at most. -/
  names : (t.globals.map Prod.fst).Nodup ∧ (t.synonyms.map Prod.fst).Nodup
  once : ∀ kind name, ((t.overloads kind name).map fun o => (o.sig, o.module, o.exported)).Nodup

section

variable {texts : HeaderTexts} {imports : List Import}

/-- What is held was asked for or is built in. -/
theorem holds_iff_asked (hbuiltin : Builtin.module ∉ imports.map Import.module)
    (h : ∀ d ∈ (merge texts Builtin.table imports).notes, NotError d) (b : Offer) :
    (merge texts Builtin.table imports).value.externals.Holds b ↔
      (allOffers texts Builtin.table imports).find? (fun a => a.key = b.key) = some b ∨
        b ∈ Merge.builtinOffers Builtin.table := by
  rw [holds_merge_iff h, offered, List.find?_append, Option.or_eq_some_iff, find?_builtinOffers]
  refine or_congr_right
    ⟨And.right, fun hb => ⟨List.find?_eq_none.2 fun a ha hkey => hbuiltin ?_, hb⟩⟩
  obtain ⟨_, -, himported, -⟩ := exists_header ha
  rwa [of_decide_eq_true hkey, module_of_mem_builtinOffers hb] at himported

theorem holds_entry_iff (hbuiltin : Builtin.module ∉ imports.map Import.module)
    (h : ∀ d ∈ (merge texts Builtin.table imports).notes, NotError d) (space : Space)
    (name : String) (e : ExternalEntry) :
    (name, e) ∈ (merge texts Builtin.table imports).value.externals.entriesOf space ↔
      (∃ hd, headerOf texts Builtin.table e.module = some hd ∧
        (hd.entriesOf space).lookup e.exported = some e.ty ∧
        Asked imports e.module (Offer.entry space name e).exportName name) ∨
      space = .synonyms ∧ (name, e) ∈ Builtin.table.synonyms := by
  refine (holds_iff_asked hbuiltin h (.entry space name e)).trans
    (or_congr ?_ entry_mem_builtinOffers)
  rw [find?_allOffers]
  constructor
  · rintro ⟨⟨hd, hh, hfind⟩, hasked⟩
    exact ⟨hd, hh, (find?_entry (headerOf_eq_some hh).1).1 hfind, hasked⟩
  · rintro ⟨hd, hh, hlookup, hasked⟩
    exact ⟨⟨hd, hh, (find?_entry (headerOf_eq_some hh).1).2 hlookup⟩, hasked⟩

theorem holds_overload_iff (hbuiltin : Builtin.module ∉ imports.map Import.module)
    (h : ∀ d ∈ (merge texts Builtin.table imports).notes, NotError d) (kind : CallKind)
    (name : String) (o : ExternalOverload) :
    o ∈ (merge texts Builtin.table imports).value.externals.overloads kind name ↔
      (∃ hd, headerOf texts Builtin.table o.module = some hd ∧
        hd.functions.find? (fun f => f.kind = kind ∧ f.name = o.exported ∧ f.sig = o.sig) =
          some ⟨kind, o.exported, o.fixity, o.sig, o.constant⟩ ∧
        Asked imports o.module ⟨o.exported, kind.nameKind⟩ name) ∨
      o ∈ Builtin.table.overloads kind name := by
  refine (holds_iff_asked hbuiltin h (.overload kind name o)).trans
    (or_congr ?_ overload_mem_builtinOffers)
  rw [find?_allOffers]
  constructor
  · rintro ⟨⟨hd, hh, hfind⟩, hasked⟩
    exact ⟨hd, hh, (find?_overload (headerOf_eq_some hh).1).1 hfind, hasked⟩
  · rintro ⟨hd, hh, hfind, hasked⟩
    exact ⟨⟨hd, hh, (find?_overload (headerOf_eq_some hh).1).2 hfind⟩, hasked⟩

/-- A merge without an error gives the table of what the import lines ask for, and the imported
modules, each once, by the place of their first import. -/
theorem merge_contents (hbuiltin : Builtin.module ∉ imports.map Import.module)
    (h : ∀ d ∈ (merge texts Builtin.table imports).notes, NotError d) :
    let r := (merge texts Builtin.table imports).value
    Exact texts imports r.externals ∧ (∀ m, m ∈ r.modules ↔ m ∈ imports.map Import.module) ∧
      r.modules.Pairwise fun m m' => (imports.map Import.module).idxOf m <
        (imports.map Import.module).idxOf m' := by
  intro r
  have hcoherent := coherent_of_merge h
  refine ⟨⟨fun name e => ?_, fun name e => ?_, holds_overload_iff hbuiltin h,
    ⟨hcoherent.names .globals, hcoherent.names .synonyms⟩, fun kind name => ?_⟩,
      fun m => mem_modules, pairwise_modules imports⟩
  · exact (holds_entry_iff hbuiltin h .globals name e).trans (or_iff_left fun hx => by cases hx.1)
  · exact (holds_entry_iff hbuiltin h .synonyms name e).trans (or_congr_right (and_iff_right rfl))
  · refine List.pairwise_map.2 ((hcoherent.apart kind name).imp fun hne heq => ?_)
    simp only [Prod.mk.injEq] at heq
    simp [ExternalTable.sameOverload, heq] at hne

end

/-- The header of a module with an operator. -/
def signHeaders : HeaderTexts :=
  [("m",
    "\x7b\"module\":\"m\",\"functions\":[\x7b\"namespace\":\"prefix\",\"name\":\"+\",\"type\":" ++
      "\"FUNTYPE(type_params=[BASICTYPE(type_id=\\\"Int\\\")]," ++
      "return_type=BASICTYPE(type_id=\\\"Int\\\"))\"\x7d]\x7d")]

/-- A module is imported as a whole, and what it exports once more under another name. -/
theorem merge_contents_sign :
    ∃ p, Program.ofText "from m importall; from m import + as <+>;" = .ok p ∧
    Builtin.module ∉ p.imports.map Import.module ∧
    (∀ d ∈ (merge signHeaders Builtin.table p.imports).notes, NotError d) ∧
    let r := (merge signHeaders Builtin.table p.imports).value
    Exact signHeaders p.imports r.externals ∧
      (∀ m, m ∈ r.modules ↔ m ∈ p.imports.map Import.module) ∧
      r.modules.Pairwise fun m m' =>
        (p.imports.map Import.module).idxOf m < (p.imports.map Import.module).idxOf m' := by
  refine exists_ok_of_check
    (c := fun p : Program => decide (Builtin.module ∉ p.imports.map Import.module) &&
    (merge signHeaders Builtin.table p.imports).notes.all fun d => !d.isError) (by decide +kernel)
      fun p _ h => ?_
  obtain ⟨hbuiltin, hnotes⟩ := Bool.and_eq_true_iff.1 h
  have hnotes : ∀ d ∈ (merge signHeaders Builtin.table p.imports).notes, NotError d :=
    fun d hd => by
    simpa using List.all_eq_true.1 hnotes d hd
  exact ⟨of_decide_eq_true hbuiltin, hnotes, merge_contents (of_decide_eq_true hbuiltin) hnotes⟩

end Imports

end SplFrontend
