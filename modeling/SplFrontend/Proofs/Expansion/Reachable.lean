import Mathlib.Logic.Relation
import SplFrontend.Proofs.Elaboration.Types

/-!
# What expansion decides

A synonym leads to the synonyms that its definition mentions. Expansion follows these steps from a
type, with the chain of the names that it is in. It finds a name on the chain exactly where a
synonym that is reached leads back to itself: a name that is mentioned twice, on two branches, is on
the chain of neither. So a type expands if and only if every synonym that is reached from it has a
definition and lies on no cycle (`Ty.expand_exact`).
-/

namespace SplFrontend

open Relation (ReflTransGen TransGen)
open Relator (RightUnique)

/-! ## Synonyms that a type leads to -/

/-- Does the synonym stand in the type? -/
def Ty.Mentions (n : String) : Ty → Prop
  | .basic _ => False
  | .pair a b => a.Mentions n ∨ b.Mentions n
  | .list e => e.Mentions n
  | .syn name => name = n

namespace Synonyms

variable {env : Synonyms} {a b e t : Ty} {m n name : String} {d : SynonymDef}

/-- The definition of the first synonym mentions the second. -/
def Leads (env : Synonyms) (m n : String) : Prop := ∃ d, env.lookup m = some d ∧ d.ty.Mentions n

/-- The synonym stands in the type, or in the definition of one that is reached. -/
def Reaches (env : Synonyms) (t : Ty) (n : String) : Prop :=
  ∃ m, t.Mentions m ∧ ReflTransGen env.Leads m n

/-- The synonym leads back to itself, in one step or in more. -/
def Cyclic (env : Synonyms) (n : String) : Prop := TransGen env.Leads n n

/-- The type is what the synonym stands for. -/
def Defines (env : Synonyms) (name : String) (ty : Ty) : Prop :=
  ∃ d, env.lookup name = some d ∧ d.ty = ty

theorem rightUnique_defines (env : Synonyms) : RightUnique env.Defines := by
  rintro name _ _ ⟨d, hd, rfl⟩ ⟨d', hd', rfl⟩
  cases hd.symm.trans hd'
  rfl

theorem reaches_pair : env.Reaches (.pair a b) n ↔ env.Reaches a n ∨ env.Reaches b n := by
  simp only [Reaches, Ty.Mentions, or_and_right, exists_or]

theorem reaches_list : env.Reaches (.list e) n ↔ env.Reaches e n := Iff.rfl

theorem reaches_syn_self (env : Synonyms) (name : String) : env.Reaches (.syn name) name :=
  ⟨name, rfl, .refl⟩

/-- What a synonym leads to is what its definition reaches. -/
theorem transGen_iff (hd : env.lookup name = some d) :
    TransGen env.Leads name n ↔ env.Reaches d.ty n := by
  rw [TransGen.head'_iff]
  constructor
  · rintro ⟨m, ⟨d', hd', hm⟩, hmn⟩
    cases hd'.symm.trans hd
    exact ⟨m, hm, hmn⟩
  · rintro ⟨m, hm, hmn⟩
    exact ⟨m, ⟨d, hd, hm⟩, hmn⟩

theorem reaches_syn (hd : env.lookup name = some d) :
    env.Reaches (.syn name) n ↔ n = name ∨ env.Reaches d.ty n := by
  have hrefl : env.Reaches (.syn name) n ↔ ReflTransGen env.Leads name n :=
    ⟨by rintro ⟨_, rfl, h⟩; exact h, fun h => ⟨name, rfl, h⟩⟩
  rw [hrefl, Relation.reflTransGen_iff_eq_or_transGen, transGen_iff hd]

end Synonyms

/-! ## Chains -/

/-- The fault is about a synonym that is `reached`: it has no definition, or it is `looping` and the
fault tells where its definition comes from. -/
def ExpandFault.Blames (env : Synonyms) (reached looping : String → Prop) : ExpandFault → Prop
  | .undefined n => reached n ∧ env.lookup n = none
  | .cycle n external =>
    reached n ∧ looping n ∧ (env.lookup n).map SynonymDef.external = some external

theorem ExpandFault.Blames.mono {env : Synonyms} {reached reached' looping looping' : String → Prop}
    {f : ExpandFault} (h : f.Blames env reached looping) (hreached : ∀ n, reached n → reached' n)
    (hlooping : ∀ n, reached n → looping n → looping' n) : f.Blames env reached' looping' := by
  cases f with
  | undefined n => exact ⟨hreached n h.1, h.2⟩
  | cycle n x => exact ⟨hreached n h.1, hlooping n h.1 h.2.1, h.2.2⟩

namespace Ty

variable {env : Synonyms} {n : String}

/-- Where a type expands, every synonym that it reaches is entered, on a chain that extends the
present one and does not hold it yet. -/
theorem entered_of_reaches (chain : List String) (t : Ty) :
    ∀ {u : Ty}, t.expandIn env chain = .ok u →
    env.Reaches t n → ∃ d part v, env.lookup n = some d ∧ chain ⊆ part ∧ n ∉ part ∧
      d.ty.expandIn env (n :: part) = .ok v := by
  fun_induction expandIn env chain t with
  | case1 chain b =>
    rintro u - ⟨m, hm, -⟩
    exact hm.elim
  | case2 chain a b iha ihb =>
    intro u h hn
    obtain ⟨a', ha, h⟩ := bind_eq_ok_iff.1 h
    obtain ⟨b', hb, -⟩ := bind_eq_ok_iff.1 h
    obtain hn | hn := Synonyms.reaches_pair.1 hn
    · exact iha ha hn
    · exact ihb hb hn
  | case3 chain e ih =>
    intro u h hn
    obtain ⟨e', he, -⟩ := bind_eq_ok_iff.1 h
    exact ih he (Synonyms.reaches_list.1 hn)
  | case4 | case5 =>
    intro u h
    cases h
  | case6 chain name d hd hm ih =>
    intro u h hn
    obtain rfl | hn := (Synonyms.reaches_syn hd).1 hn
    · exact ⟨d, chain, u, hd, List.Subset.refl _, hm, h⟩
    · obtain ⟨d', part, v, hd', hpart, hrest⟩ := ih h hn
      exact ⟨d', part, v, hd', List.Subset.trans (List.subset_cons_self name chain) hpart, hrest⟩

/-- A synonym that is entered on the way to a result does not lead back to itself. -/
theorem not_cyclic_of_reaches {t u : Ty} (h : t.expand env = .ok u) (hn : env.Reaches t n) :
    ¬ env.Cyclic n := by
  intro hcyclic
  obtain ⟨d, part, v, hd, -, -, hv⟩ := entered_of_reaches [] t h hn
  -- The definition reaches the name again, while the name is on the chain.
  have hagain : env.Reaches d.ty n := (Synonyms.transGen_iff hd).1 hcyclic
  obtain ⟨-, part', -, -, hpart, hfree, -⟩ := entered_of_reaches (n :: part) d.ty hv hagain
  exact hfree (hpart List.mem_cons_self)

/-- What stands in the way of an expansion is a synonym that is reached; a cycle is found where the
chain closes, or where a synonym leads back to itself. -/
theorem blames_of_expandIn (chain : List String) (t : Ty) {f : ExpandFault} :
    t.expandIn env chain = .error f →
    f.Blames env (env.Reaches t) fun n => n ∈ chain ∨ env.Cyclic n := by
  fun_induction expandIn env chain t with
  | case1 =>
    intro h
    cases h
  | case2 chain a b iha ihb =>
    intro h
    obtain ha | ⟨a', -, h⟩ := bind_eq_error_iff.1 h
    · exact (iha ha).mono (fun n hn => Synonyms.reaches_pair.2 (.inl hn)) fun n _ => id
    · obtain hb | ⟨b', -, h⟩ := bind_eq_error_iff.1 h
      · exact (ihb hb).mono (fun n hn => Synonyms.reaches_pair.2 (.inr hn)) fun n _ => id
      · cases h
  | case3 chain e ih =>
    intro h
    obtain he | ⟨e', -, h⟩ := bind_eq_error_iff.1 h
    · exact (ih he).mono (fun n hn => Synonyms.reaches_list.2 hn) fun n _ => id
    · cases h
  | case4 chain name hd =>
    intro h
    cases h
    exact ⟨env.reaches_syn_self name, hd⟩
  | case5 chain name d hd hm =>
    intro h
    cases h
    exact ⟨env.reaches_syn_self name, .inl hm, by rw [hd, Option.map_some]⟩
  | case6 chain name d hd hm ih =>
    intro h
    refine (ih h).mono (fun n hn => (Synonyms.reaches_syn hd).2 (.inr hn)) fun n hn hloop => ?_
    obtain hmem | hcyclic := hloop
    · obtain rfl | hmem := List.mem_cons.1 hmem
      · -- The chain closes at the synonym whose definition is being expanded here.
        exact .inr ((Synonyms.transGen_iff hd).2 hn)
      · exact .inl hmem
    · exact .inr hcyclic

/-- Why a type does not expand. -/
theorem blames_of_expand {t : Ty} {f : ExpandFault} (h : t.expand env = .error f) :
    f.Blames env (env.Reaches t) env.Cyclic :=
  (blames_of_expandIn [] t h).mono (fun _ hn => hn) fun _ _ hloop =>
    hloop.resolve_left List.not_mem_nil

/-- A type expands if and only if the synonyms that it reaches are defined and on no cycle. -/
theorem exists_expand_iff (env : Synonyms) (t : Ty) : (∃ u, t.expand env = .ok u) ↔
    ∀ n, env.Reaches t n → (∃ d, env.lookup n = some d) ∧ ¬ env.Cyclic n := by
  constructor
  · rintro ⟨u, hu⟩ n hn
    obtain ⟨d, -, -, hd, -⟩ := entered_of_reaches [] t hu hn
    exact ⟨⟨d, hd⟩, not_cyclic_of_reaches hu hn⟩
  · intro h
    cases hf : t.expand env with
    | ok u => exact ⟨u, rfl⟩
    | error f =>
      have hblames := blames_of_expand hf
      cases f with
      | undefined n =>
        obtain ⟨d, hd⟩ := (h n hblames.1).1
        cases hd.symm.trans hblames.2
      | cycle n x => exact absurd hblames.2.1 (h n hblames.1).2

/-- The result is the only type that the definitions make of the type. -/
theorem expands_iff_of_expand {t u : Ty} (h : t.expand env = .ok u) (v : Ty) :
    t.Expands env.Defines v ↔ v = u := by
  have hu : t.Expands env.Defines u := expands_of_expandIn (fun hd => ⟨_, hd, rfl⟩) [] t h
  refine ⟨fun hv => Expands.rightUnique env.rightUnique_defines hv hu, ?_⟩
  rintro rfl
  exact hu

end Ty

/-- Expansion ends in every environment, and it is exact. It succeeds if and only if every synonym
that is reached is defined and on no cycle; then the result is the type with all definitions put in,
which has no synonyms and expands to itself. Otherwise it names a synonym that is reached and has no
definition, or one that is reached and leads back to itself, with the mark of its own definition. To
expand a synonym is to expand a reference to it. -/
theorem Ty.expand_exact (env : Synonyms) (t : Ty) :
    ((∃ u, t.expand env = .ok u) ↔
      ∀ n, env.Reaches t n → (∃ d, env.lookup n = some d) ∧ ¬ env.Cyclic n) ∧
    (∀ u, t.expand env = .ok u →
      u.Expanded ∧ (∀ v, t.Expands env.Defines v ↔ v = u) ∧ u.expand env = .ok u) ∧
    (∀ f, t.expand env = .error f → f.Blames env (env.Reaches t) env.Cyclic) ∧
    ∀ n, env.expansion n = (Ty.syn n).expand env := by
  refine ⟨exists_expand_iff env t, fun u hu => ?_, fun f hf => blames_of_expand hf,
    fun n => (expand_syn env n).symm⟩
  have hexpanded := expanded_of_expand hu
  exact ⟨hexpanded, expands_iff_of_expand hu, expand_of_expanded hexpanded env⟩

/-- A definition that is used twice, two that lead to each other, and one that leads out of the
environment. -/
def sampleSynonyms : Synonyms :=
  [("P", ⟨.pair (.syn "Q") (.syn "Q"), false⟩), ("Q", ⟨.list .char, true⟩),
    ("A", ⟨.list (.syn "B"), false⟩), ("B", ⟨.pair .int (.syn "A"), true⟩),
      ("U", ⟨.list (.syn "V"), false⟩)]

theorem Ty.expand_exact_sample :
    (∃ u, (Ty.syn "P").expand sampleSynonyms = .ok u ∧ u.Expanded ∧
      (∀ v, (Ty.syn "P").Expands sampleSynonyms.Defines v ↔ v = u) ∧
        u.expand sampleSynonyms = .ok u ∧
      ∀ n, sampleSynonyms.Reaches (.syn "P") n →
        (∃ d, sampleSynonyms.lookup n = some d) ∧ ¬ sampleSynonyms.Cyclic n) ∧
    ((Ty.pair .int (.syn "B")).expand sampleSynonyms = .error (.cycle "B" true) ∧
      (ExpandFault.cycle "B" true).Blames sampleSynonyms
        (sampleSynonyms.Reaches (.pair .int (.syn "B"))) sampleSynonyms.Cyclic) ∧
    (Ty.syn "U").expand sampleSynonyms = .error (.undefined "V") ∧
      (ExpandFault.undefined "V").Blames sampleSynonyms (sampleSynonyms.Reaches (.syn "U"))
        sampleSynonyms.Cyclic := by
  have hok : (Ty.syn "P").expand sampleSynonyms = .ok (.pair (.list .char) (.list .char)) := by
    cbv
  have hcycle : (Ty.pair .int (.syn "B")).expand sampleSynonyms = .error (.cycle "B" true) := by
    cbv
  have hundefined : (Ty.syn "U").expand sampleSynonyms = .error (.undefined "V") := by
    cbv
  obtain ⟨hiff, hresult, -⟩ := Ty.expand_exact sampleSynonyms (.syn "P")
  obtain ⟨hexpanded, hunique, hself⟩ := hresult _ hok
  refine ⟨⟨_, hok, hexpanded, hunique, hself, hiff.1 ⟨_, hok⟩⟩, ⟨hcycle, ?_⟩, hundefined, ?_⟩
  · exact (Ty.expand_exact sampleSynonyms _).2.2.1 _ hcycle
  · exact (Ty.expand_exact sampleSynonyms _).2.2.1 _ hundefined

end SplFrontend
