import SplFrontend.Header.Normal
import SplFrontend.Proofs.Except
import SplFrontend.Ty.Expansion

/-!
# Expanded types

What expansion returns has no synonyms in it, and a type without synonyms expands to itself.
-/

namespace SplFrontend

namespace Ty

/-- Is the type free of synonyms? -/
def Expanded : Ty → Prop
  | .basic _ => True
  | .pair a b => a.Expanded ∧ b.Expanded
  | .list e => e.Expanded
  | .syn _ => False

theorem expandIn_of_expanded (env : Synonyms) (chain : List String) :
    ∀ {t : Ty}, t.Expanded → t.expandIn env chain = .ok t
  | .basic _, _ => by rw [expandIn]
  | .pair a b, h => by
    rw [expandIn, expandIn_of_expanded env chain h.1, expandIn_of_expanded env chain h.2]
    rfl
  | .list e, h => by
    rw [expandIn, expandIn_of_expanded env chain (t := e) h]
    rfl

theorem expand_of_expanded {t : Ty} (h : t.Expanded) (env : Synonyms) : t.expand env = .ok t :=
  expandIn_of_expanded env [] h

theorem expanded_of_expandIn (env : Synonyms) (chain : List String) (t : Ty) :
    ∀ {u : Ty}, t.expandIn env chain = .ok u → u.Expanded := by
  fun_induction expandIn env chain t with
  | case1 chain b =>
    intro u h
    cases h
    trivial
  | case2 chain a b iha ihb =>
    intro u h
    obtain ⟨a', ha, h⟩ := bind_eq_ok_iff.1 h
    obtain ⟨b', hb, h⟩ := bind_eq_ok_iff.1 h
    cases h
    exact ⟨iha ha, ihb hb⟩
  | case3 chain e ih =>
    intro u h
    obtain ⟨e', he, h⟩ := bind_eq_ok_iff.1 h
    cases h
    exact ih (u := e') he
  | case4 => nofun
  | case5 => nofun
  | case6 chain name d _ _ ih => exact ih

theorem expanded_of_expand {env : Synonyms} {t u : Ty} (h : t.expand env = .ok u) : u.Expanded :=
  expanded_of_expandIn env [] t h

end Ty

theorem Synonyms.expanded_of_expansion {env : Synonyms} {name : String} {u : Ty}
    (h : env.expansion name = .ok u) : u.Expanded := by
  unfold expansion at h
  split at h
  · cases h
  · exact Ty.expanded_of_expandIn env _ _ h

/-! ## Environments without cycles -/

/-- Every definition expands. -/
def Synonyms.Complete (env : Synonyms) : Prop :=
  ∀ name d, env.lookup name = some d → ∃ u, env.expansion name = .ok u

theorem Ty.expand_syn (env : Synonyms) (name : String) :
    (Ty.syn name).expand env = env.expansion name := by
  rw [expand, expandIn, Synonyms.expansion]
  split
  · next h => rw [h]
  · next d h =>
    rw [h]
    exact dif_neg List.not_mem_nil

/-- Where every definition expands, a type fails to expand only because of a name without one. -/
theorem Ty.expand_cases {env : Synonyms} (h : env.Complete) (t : Ty) :
    (∃ u, t.expand env = .ok u) ∨ ∃ name, t.expand env = .error (.undefined name) := by
  induction t with
  | basic b => exact .inl ⟨.basic b, by rw [expand, expandIn]⟩
  | pair a b iha ihb =>
    simp only [expand] at iha ihb ⊢
    rw [expandIn]
    obtain ⟨u, hu⟩ | ⟨n, hn⟩ := iha
    · obtain ⟨w, hw⟩ | ⟨n, hn⟩ := ihb
      · exact .inl ⟨.pair u w, by rw [hu, hw]; rfl⟩
      · exact .inr ⟨n, by rw [hu, hn]; rfl⟩
    · exact .inr ⟨n, by rw [hn]; rfl⟩
  | list e ih =>
    simp only [expand] at ih ⊢
    rw [expandIn]
    obtain ⟨u, hu⟩ | ⟨n, hn⟩ := ih
    · exact .inl ⟨.list u, by rw [hu]; rfl⟩
    · exact .inr ⟨n, by rw [hn]; rfl⟩
  | syn name =>
    rw [expand_syn]
    cases hd : env.lookup name with
    | none => exact .inr ⟨name, by rw [Synonyms.expansion, hd]⟩
    | some d => exact .inl (h name d hd)

/-- Is the type free of synonyms and of `Void`? -/
def Ty.Plain (t : Ty) : Prop := t.Expanded ∧ t.hasVoid = false

end SplFrontend
