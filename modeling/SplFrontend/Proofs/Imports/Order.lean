import Mathlib.Data.List.Nodup
import SplFrontend.Proofs.Importable
import SplFrontend.Proofs.Imports.Merging

/-!
# The order of the imports

Import lines in another order ask for the same things, and of each of them the first entry of its
header comes first, since a header is always gone through from its start. So the lines are accepted
in one order exactly if they are in any other, and the tables differ only in the order of their
entries (`merge_perm`).
-/

namespace SplFrontend

/-! ## The first offer of a thing -/

/-- Of the offers of one thing, the first in the list is a given one. -/
def Offer.Leads (first : Key → Option Offer) (as : List Offer) : Prop :=
  ∀ a ∈ as, as.find? (fun b => b.key = a.key) = first a.key

namespace Offer.Leads

variable {first : Key → Option Offer} {as bs : List Offer}

theorem nil : Leads first [] := List.forall_mem_nil _

theorem append (has : Leads first as) (hbs : Leads first bs) : Leads first (as ++ bs) := by
  intro a ha
  rw [List.find?_append]
  cases hfind : as.find? fun b => b.key = a.key with
  | some c =>
    have hkey : c.key = a.key := by simpa using List.find?_some hfind
    have hc := has c (List.mem_of_find?_eq_some hfind)
    rw [hkey, hfind] at hc
    exact hc
  | none =>
    obtain ha | ha := List.mem_append.1 ha
    · exact absurd (by simp) (List.find?_eq_none.1 hfind a ha)
    · exact hbs a ha

theorem flatMap {α : Type} {l : List α} {f : α → List Offer} (h : ∀ x ∈ l, Leads first (f x)) :
    Leads first (l.flatMap f) := by
  induction l with
  | nil => exact nil
  | cons x l ih =>
    obtain ⟨hx, hl⟩ := List.forall_mem_cons.1 h
    exact hx.append (ih hl)

/-- Lists of the same offers have the same first ones. -/
theorem find?_eq (has : Leads first as) (hbs : Leads first bs)
    (hmem : ∀ a, a ∈ as ↔ a ∈ bs) (key : Key) :
    as.find? (fun b => b.key = key) = bs.find? fun b => b.key = key := by
  cases hfind : as.find? fun b => b.key = key with
  | none =>
    exact (List.find?_eq_none.2 fun b hb => List.find?_eq_none.1 hfind b ((hmem b).2 hb)).symm
  | some a =>
    obtain rfl : a.key = key := by simpa using List.find?_some hfind
    have ha := List.mem_of_find?_eq_some hfind
    rw [hbs a ((hmem a).1 ha), ← has a ha, hfind]

end Offer.Leads

namespace Header

theorem key_of_mem_offers {h : Header} {a : Offer} (ha : a ∈ h.offers) :
    a.key.module = h.module ∧ a.key.name = a.key.exported := by
  simp only [offers, offersOf, List.mem_append, List.mem_map] at ha
  obtain (⟨x, -, rfl⟩ | ⟨x, -, rfl⟩) | ⟨f, -, rfl⟩ := ha <;> exact ⟨rfl, rfl⟩

theorem Sound.fixed_offers {h : Header} (hs : h.Sound) : ∀ a ∈ h.offers, a.Fixed := by
  intro a ha
  simp only [offers, offersOf, List.mem_append, List.mem_map] at ha
  obtain (⟨x, -, rfl⟩ | ⟨x, -, rfl⟩) | ⟨f, hf, rfl⟩ := ha
  · exact fun _ _ heq => by cases heq
  · exact fun _ _ heq => by cases heq
  · intro name o heq
    rw [offerOf, Offer.overload.injEq] at heq
    obtain ⟨hkind, -, rfl⟩ := heq
    exact hs.fixed f hf hkind

theorem Sound.fixed_offersFor {h : Header} (hs : h.Sound) (n : Name × String) :
    ∀ a ∈ h.offersFor n, a.Fixed := by
  intro a ha
  obtain ⟨b, hb, rfl⟩ := List.mem_map.1 ha
  have hfixed := hs.fixed_offers b (List.mem_filter.1 hb).1
  intro name o heq
  cases b with
  | entry => cases heq
  | overload kind name' =>
    cases heq
    exact hfixed name' o rfl

end Header

namespace Imports

/-- The first entry of a header for a thing, under the name that it is offered by. -/
def firstOf (headers : String → Option Header) (key : Offer.Key) : Option Offer :=
  (headers key.module).bind fun h =>
    (h.offers.find? fun a => (a.under key.name).key = key).map (Offer.under key.name)

section
variable {headers : String → Option Header} {h : Header}

theorem leads_offers (hh : headers h.module = some h) : Offer.Leads (firstOf headers) h.offers := by
  intro a ha
  obtain ⟨hmodule, hname⟩ := Header.key_of_mem_offers ha
  have hcongr :
      h.offers.find? (fun b => (b.under a.key.name).key = a.key) =
        h.offers.find? fun b => b.key = a.key := by
    refine List.find?_congr fun b hb => decide_eq_decide.2 ?_
    rw [Offer.key_under]
    refine ⟨fun hkey => ?_, fun hkey => by rw [← hkey]⟩
    have hexported := congrArg Offer.Key.exported hkey
    have hsame : b.key.name = a.key.name := by
      rw [hname, (Header.key_of_mem_offers hb).2]; exact hexported
    rw [← hsame] at hkey
    exact hkey
  rw [firstOf, hmodule, hh, Option.bind_some, hcongr]
  cases hfind : h.offers.find? fun b => b.key = a.key with
  | none => rfl
  | some b =>
    have hkey : b.key = a.key := by simpa using List.find?_some hfind
    rw [Option.map_some, ← hkey, Offer.under_name]

theorem leads_offersFor (hh : headers h.module = some h) (n : Name × String) :
    Offer.Leads (firstOf headers) (h.offersFor n) := by
  intro a ha
  obtain ⟨c, hc, rfl⟩ := List.mem_map.1 ha
  obtain ⟨hc, hwanted⟩ := List.mem_filter.1 hc
  obtain ⟨hmodule, -⟩ := Header.key_of_mem_offers hc
  have hkey := Offer.key_under n.2 c
  rw [firstOf, hkey, hmodule, hh, Option.bind_some, Header.offersFor, List.find?_map,
    List.find?_filter]
  congr 1
  refine List.find?_congr fun b _ => ?_
  simp only [Function.comp_apply, decide_eq_decide, decide_eq_true_eq, and_iff_right_iff_imp]
  intro hb
  rw [Offer.key_under, Offer.Key.mk.injEq] at hb
  rw [← hwanted, Offer.Wanted, Offer.Wanted, hb.1, hb.2.2.2]

end

/-! ## Lines in another order -/

section
open Merge (listed wholeAt)

variable {deny : Bool} {texts : HeaderTexts} {builtins : ExternalTable} {h : Header}
  {lines lines' imports imports' : List Import}

theorem listed_perm (hp : lines'.Perm lines) : (listed lines').Perm (listed lines) :=
  hp.flatMap_right _

theorem isSome_wholeAt : (wholeAt lines).isSome ↔ ∃ l ∈ lines, l.names = .all := by
  rw [wholeAt, List.findSome?_isSome_iff]
  refine exists_congr fun l => and_congr_right fun _ => ?_
  cases l.names <;> simp

theorem isSome_wholeAt_perm (hp : lines'.Perm lines) :
    (wholeAt lines').isSome = (wholeAt lines).isSome := by
  rw [Bool.eq_iff_iff, isSome_wholeAt, isSome_wholeAt]
  simp only [hp.mem_iff]

theorem Merge.mem_fresh {ns : List ImportName} {k : Name × String} :
    k ∈ fresh [] ns ↔ k ∈ ns.map asked := by
  simp [fresh]

theorem Merge.Askable.perm (ha : Merge.Askable deny h lines) (hp : lines'.Perm lines) :
    Merge.Askable deny h lines' := by
  have hl := listed_perm hp
  refine ⟨⟨fun n hn => ha.listable.kinds n (hl.mem_iff.1 hn),
    fun hd => ⟨?_, fun k _ => List.not_mem_nil⟩, ?_⟩, ?_⟩
  · exact (hl.map _).nodup_iff.2 (ha.listable.once hd).1
  · intro k hk
    rw [Merge.mem_fresh, (hl.map _).mem_iff, ← Merge.mem_fresh] at hk
    exact ha.listable.exported k hk
  · intro hd hw
    rw [isSome_wholeAt_perm hp] at hw
    have hnil := ha.oneWay hd hw
    rw [hnil] at hl
    exact hl.eq_nil

theorem mem_asks_perm (hp : lines'.Perm lines) (a : Offer) :
    a ∈ Merge.asks h lines' ↔ a ∈ Merge.asks h lines := by
  have hl := (listed_perm hp).map Merge.asked
  simp only [Merge.asks, isSome_wholeAt_perm hp, List.mem_append, List.mem_flatMap,
    Merge.mem_fresh, hl.mem_iff]

theorem Importable.perm {module : String} (hi : Importable deny texts builtins module lines)
    (hp : lines'.Perm lines) :
    Importable deny texts builtins module lines' := by
  obtain ⟨h, hh, ha⟩ := hi.askable
  exact ⟨hi.loads, h, hh, ha.perm hp⟩

theorem mem_importOffers_perm (hp : lines'.Perm lines) (module : String) (a : Offer) :
    a ∈ importOffers texts builtins module lines' ↔
      a ∈ importOffers texts builtins module lines := by
  unfold importOffers
  cases headerOf texts builtins module with
  | none => rfl
  | some h => exact mem_asks_perm hp a

end

/-! ## The imported modules -/

/-- The imported modules after those that are known. -/
theorem foldl_modules (imports : List Import) (known : List String) (hknown : known.Nodup) :
    (imports.foldl (fun ms i => if i.module ∈ ms then ms else ms ++ [i.module]) known).Nodup ∧
      ∀ m, m ∈ imports.foldl (fun ms i => if i.module ∈ ms then ms else ms ++ [i.module]) known ↔
        m ∈ known ∨ m ∈ imports.map Import.module := by
  induction imports generalizing known with
  | nil => exact ⟨hknown, fun m => by simp⟩
  | cons i imports ih =>
    rw [List.foldl_cons]
    split
    next hi =>
      refine ⟨(ih known hknown).1, fun m => ?_⟩
      rw [(ih known hknown).2, List.map_cons, List.mem_cons]
      refine or_congr_right' fun hm => ⟨.inr, fun hx => hx.resolve_left ?_⟩
      rintro rfl
      exact hm hi
    next hi =>
      have hnew := ih _ (List.concat_eq_append ▸ hknown.concat hi)
      refine ⟨hnew.1, fun m => ?_⟩
      rw [hnew.2, List.map_cons, List.mem_cons, List.mem_append, List.mem_singleton, or_assoc]

theorem mem_modules {imports : List Import} {m : String} :
    m ∈ modules imports ↔ m ∈ imports.map Import.module := by
  rw [modules, (foldl_modules imports [] List.nodup_nil).2]
  simp

theorem nodup_modules (imports : List Import) : (modules imports).Nodup :=
  (foldl_modules imports [] List.nodup_nil).1

theorem modules_perm {imports imports' : List Import} (hp : imports'.Perm imports) :
    (modules imports').Perm (modules imports) := by
  refine (List.perm_ext_iff_of_nodup (nodup_modules _) (nodup_modules _)).2 fun m => ?_
  rw [mem_modules, mem_modules, (hp.map _).mem_iff]

theorem modules_merge (texts : HeaderTexts) (builtins : ExternalTable) (imports : List Import) :
    (merge texts builtins imports).value.modules = modules imports := rfl

/-! ## The merged tables -/

section
variable {deny : Bool} {texts : HeaderTexts} {builtins : ExternalTable}
  {imports imports' : List Import}

theorem headerOf_eq_some {module : String} {h : Header}
    (hh : headerOf texts builtins module = some h) :
    h.module = module ∧ h.Sound := by
  refine ⟨?_, (header_alike texts builtins module .nowhere .nowhere).value.2 h hh⟩
  rw [headerOf, header] at hh
  split at hh
  · cases hh
  · split at hh
    · cases hh
    · split at hh
      next hmodule => cases hh; exact hmodule
      · cases hh

/-- All that import lines ask for. -/
def allOffers (texts : HeaderTexts) (builtins : ExternalTable) (imports : List Import) :
    List Offer :=
  (modules imports).flatMap fun m => importOffers texts builtins m (imports.filter (·.module = m))

theorem mem_allOffers_perm (hp : imports'.Perm imports) (a : Offer) :
    a ∈ allOffers texts builtins imports' ↔ a ∈ allOffers texts builtins imports := by
  simp only [allOffers, List.mem_flatMap, (modules_perm hp).mem_iff,
    mem_importOffers_perm (hp.filter _)]

theorem leads_allOffers (imports : List Import) :
    Offer.Leads (firstOf (headerOf texts builtins)) (allOffers texts builtins imports) := by
  refine .flatMap fun m _ => ?_
  unfold importOffers
  cases hh : headerOf texts builtins m with
  | none => exact .nil
  | some h =>
    obtain ⟨rfl, -⟩ := headerOf_eq_some hh
    refine .append ?_ (.flatMap fun k _ => leads_offersFor hh k)
    split
    · exact leads_offers hh
    · exact .nil

theorem fixed_allOffers : ∀ a ∈ allOffers texts builtins imports, a.Fixed := by
  intro a ha
  obtain ⟨m, -, ha⟩ := List.mem_flatMap.1 ha
  unfold importOffers at ha
  cases hh : headerOf texts builtins m with
  | none =>
    rw [hh] at ha
    cases ha
  | some h =>
    obtain ⟨-, hs⟩ := headerOf_eq_some hh
    rw [hh] at ha
    obtain ha | ha := List.mem_append.1 ha
    · split at ha
      · exact hs.fixed_offers a ha
      · cases ha
    · obtain ⟨k, -, ha⟩ := List.mem_flatMap.1 ha
      exact hs.fixed_offersFor k a ha

theorem fixed_builtinOffers (hb : builtins.Sound) :
    ∀ a ∈ Merge.builtinOffers builtins, a.Fixed := by
  intro a ha
  obtain ha | ha := List.mem_append.1 ha
  · obtain ⟨x, -, rfl⟩ := List.mem_map.1 ha
    exact fun _ _ heq => by cases heq
  · obtain ⟨e, he, rfl⟩ := List.mem_map.1 ha
    intro name o heq
    rw [Offer.overload.injEq] at heq
    obtain ⟨hkind, -, rfl⟩ := heq
    exact hb.fixed e he hkind

/-- Imports in another order are accepted alike, and give the same table up to the order of its
entries. -/
theorem merge_perm (hb : builtins.Sound)
    (hfix : ∀ e ∈ builtins.functions.entries, e.2.2.fixity ≠ none → e.1 = .infixOp)
    (hp : imports'.Perm imports) (h : ∀ d ∈ (merge texts builtins imports).notes, Admitted deny d) :
    (∀ d ∈ (merge texts builtins imports').notes, Admitted deny d) ∧
      (merge texts builtins imports).value.externals.Shuffled
        (merge texts builtins imports').value.externals ∧
      (merge texts builtins imports).value.externals.Coherent ∧
      (merge texts builtins imports').value.externals.Coherent := by
  have hfixed :
      ∀ is : List Import,
        ∀ a ∈ allOffers texts builtins is ++ Merge.builtinOffers builtins, a.Fixed :=
    fun is => List.forall_mem_append.2 ⟨fixed_allOffers, fixed_builtinOffers hb⟩
  obtain ⟨himp, htake⟩ := (merge_takes hfix imports _).1 ⟨h, rfl⟩
  have hmem : ∀ a, a ∈ allOffers texts builtins imports' ++ Merge.builtinOffers builtins ↔
      a ∈ allOffers texts builtins imports ++ Merge.builtinOffers builtins := fun a => by
    rw [List.mem_append, List.mem_append, mem_allOffers_perm hp]
  have hsome :
      (ExternalTable.takeAll {}
        (allOffers texts builtins imports' ++ Merge.builtinOffers builtins)).isSome := by
    have hclash :=
      (ExternalTable.isSome_takeAll_iff ExternalTable.coherent_empty (hfixed imports)).1
      (Option.isSome_iff_exists.2 ⟨_, htake⟩)
    refine (ExternalTable.isSome_takeAll_iff ExternalTable.coherent_empty (hfixed imports')).2 ?_
    simpa only [hmem] using hclash
  obtain ⟨t', htake'⟩ := Option.isSome_iff_exists.1 hsome
  have himp' :
      ∀ m ∈ modules imports', Importable deny texts builtins m (imports'.filter (·.module = m)) :=
    fun m hm => (himp m ((modules_perm hp).mem_iff.1 hm)).perm (hp.filter _)
  obtain ⟨hn', rfl⟩ := (merge_takes hfix imports' t').2 ⟨himp', htake'⟩
  have ht := ExternalTable.coherent_empty.takeAll (hfixed imports) htake
  have ht' := ExternalTable.coherent_empty.takeAll (hfixed imports') htake'
  refine ⟨hn', ht.shuffled ht' fun b => ?_, ht, ht'⟩
  rw [ExternalTable.holds_takeAll ExternalTable.coherent_empty (hfixed imports') htake',
    ExternalTable.holds_takeAll ExternalTable.coherent_empty (hfixed imports) htake,
      List.find?_append,
    List.find?_append, (leads_allOffers imports').find?_eq (leads_allOffers imports)
      (mem_allOffers_perm hp)]

end

end Imports

end SplFrontend
