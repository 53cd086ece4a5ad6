import Mathlib.Data.List.Nodup
import Mathlib.Data.List.Perm.Basic
import Mathlib.Logic.Equiv.Defs
import SplFrontend.Proofs.Flow
import SplFrontend.Proofs.Renumbering

/-!
# Items in another order

A program whose items stand in another order is given with the places to which they have gone. A
pass that treats each item by itself treats it at its new place as at its old one, if that is so
item by item (`Moved.run`). What is more, the globals may not change their order, since what a
global sees depends on it.
-/

namespace SplFrontend

/-- The items of one list at the places to which they have gone in another. -/
def Moved {α : Type} (π : Nat ≃ Nat) (l l' : List α) : Prop := ∀ i, l'[π i]? = l[i]?

/-- Items in another order, in which the globals follow each other as before. -/
structure Rearranged (π : Nat ≃ Nat) (its its' : List Item) : Prop where
  moved : Moved π its its'
  globals : ∀ {i j d e}, i < j → its[i]? = some (.global d) → its[j]? = some (.global e) → π i < π j

namespace Moved

variable {α β : Type} {π : Nat ≃ Nat} {l l' : List α}

theorem refl (l : List α) : Moved (.refl Nat) l l := fun _ => rfl

theorem symm (h : Moved π l l') : Moved π.symm l' l := fun i => by rw [← h, π.apply_symm_apply]

theorem mem_zipIdx (h : Moved π l l') {a : α} {i : Nat} :
    (a, i) ∈ l.zipIdx ↔ (a, π i) ∈ l'.zipIdx := by
  rw [List.mk_mem_zipIdx_iff_getElem?, List.mk_mem_zipIdx_iff_getElem?, h]

theorem nodup_zipIdx (l : List α) : l.zipIdx.Nodup :=
  List.Nodup.of_map Prod.snd (by rw [List.zipIdx_map_snd]; exact List.nodup_range')

/-- The elements with their places are the same, up to the change of places. -/
theorem zipIdx_perm (h : Moved π l l') : l'.zipIdx.Perm (l.zipIdx.map fun x => (x.1, π x.2)) := by
  have hinj : Function.Injective fun x : α × Nat => (x.1, π x.2) := by
    rintro ⟨a, i⟩ ⟨b, j⟩ hij
    simp only [Prod.mk.injEq, EmbeddingLike.apply_eq_iff_eq] at hij
    rw [hij.1, hij.2]
  refine (List.perm_ext_iff_of_nodup (nodup_zipIdx l') ((nodup_zipIdx l).map hinj)).2 ?_
  rintro ⟨a, i⟩
  rw [List.mem_map]
  constructor
  · intro ha
    refine ⟨(a, π.symm i), ?_, by simp⟩
    rw [h.mem_zipIdx, π.apply_symm_apply]
    exact ha
  · rintro ⟨⟨b, j⟩, hb, heq⟩
    obtain ⟨rfl, rfl⟩ := Prod.mk.inj heq
    exact h.mem_zipIdx.1 hb

theorem perm (h : Moved π l l') : l'.Perm l := by
  have hmap := h.zipIdx_perm.map Prod.fst
  rw [List.zipIdx_map_fst, List.map_map] at hmap
  exact hmap.trans (List.Perm.of_eq (List.zipIdx_map_fst 0 l))

theorem map (h : Moved π l l') (f : α → β) : Moved π (l.map f) (l'.map f) := fun i => by
  rw [List.getElem?_map, List.getElem?_map, h]

/-- What is reported and answered place by place. -/
theorem run {f k : α × Nat → Noted β} {g : β → β} {P : Diagnostic → Prop} (h : Moved π l l')
    (step : ∀ i a, l[i]? = some a → (∀ d ∈ (f (a, i)).notes, P d) →
      (∀ d ∈ (k (a, π i)).notes, P d) ∧ (k (a, π i)).value = g (f (a, i)).value)
    (hn : ∀ d ∈ l.zipIdx.flatMap fun x => (f x).notes, P d) :
    (∀ d ∈ l'.zipIdx.flatMap fun x => (k x).notes, P d) ∧
      Moved π ((l.zipIdx.map fun x => (f x).value).map g) (l'.zipIdx.map fun x => (k x).value) := by
  have hone :
      ∀ {i a}, l[i]? = some a → (∀ d ∈ (k (a, π i)).notes, P d) ∧
        (k (a, π i)).value = g (f (a, i)).value :=
    fun {i a} ha => step i a ha fun d hd =>
      hn d (List.mem_flatMap.2 ⟨(a, i), List.mk_mem_zipIdx_iff_getElem?.2 ha, hd⟩)
  constructor
  · intro d hd
    obtain ⟨⟨a, j⟩, ha, hd⟩ := List.mem_flatMap.1 hd
    rw [← π.apply_symm_apply j] at ha hd
    exact (hone (List.mk_mem_zipIdx_iff_getElem?.1 (h.mem_zipIdx.2 ha))).1 d hd
  · intro i
    simp only [List.getElem?_map, List.getElem?_zipIdx, h i]
    cases ha : l[i]? with
    | none => rfl
    | some a => simpa using (hone ha).2

end Moved

namespace Rearranged

variable {π : Nat ≃ Nat} {its its' : List Item}

theorem symm (h : Rearranged π its its') : Rearranged π.symm its' its where
  moved := h.moved.symm
  globals {i j d e} hij hi hj := by
    rw [← h.moved.symm] at hi hj
    obtain hlt | heq | hgt := Nat.lt_trichotomy (π.symm i) (π.symm j)
    · exact hlt
    · exact absurd (π.symm.injective heq) (Nat.ne_of_lt hij)
    · have hji := h.globals hgt hj hi
      rw [π.apply_symm_apply, π.apply_symm_apply] at hji
      exact absurd hij (Nat.lt_asymm hji)

/-- Items that stay globals or not keep their order. -/
theorem of_moved (h : Rearranged π its its') {us us' : List Item} (hu : Moved π us us')
    (hg : ∀ {i : Nat} {d : VarDecl}, us[i]? = some (.global d) → ∃ e, its[i]? = some (.global e)) :
    Rearranged π us us' where
  moved := hu
  globals hij hi hj := by
    obtain ⟨d, hd⟩ := hg hi
    obtain ⟨e, he⟩ := hg hj
    exact h.globals hij hd he

/-- What the globals give rise to comes in the same order. -/
theorem filterMap_eq (h : Rearranged π its its') {β : Type} {g : Item → Option β}
    (hg : ∀ it b, g it = some b → ∃ d, it = .global d) : its'.filterMap g = its.filterMap g := by
  -- the globals with their places, which are in order on both sides
  have hsorted :
      ∀ l : List Item, (l.zipIdx.filter fun x => (g x.1).isSome).Pairwise fun x y => x.2 < y.2 :=
    fun l =>
    (List.Pairwise.of_map Prod.snd (fun _ _ h => h) (by
      rw [List.zipIdx_map_snd]; exact List.pairwise_lt_range')).filter _
  have hglobal : ∀ {x : Item × Nat}, x ∈ its.zipIdx.filter (fun x => (g x.1).isSome) →
      ∃ d, its[x.2]? = some (.global d) := by
    intro x hx
    obtain ⟨hx, hsome⟩ := List.mem_filter.1 hx
    obtain ⟨b, hb⟩ := Option.isSome_iff_exists.1 hsome
    obtain ⟨d, hd⟩ := hg _ _ hb
    exact ⟨d, by rw [← hd]; exact List.mem_zipIdx_iff_getElem?.1 hx⟩
  have hsorted' : ((its.zipIdx.filter fun x => (g x.1).isSome).map fun x => (x.1, π x.2)).Pairwise
      fun x y => x.2 < y.2 := by
    refine List.pairwise_map.2 ((hsorted its).imp_of_mem fun hx hy hlt => ?_)
    obtain ⟨d, hd⟩ := hglobal hx
    obtain ⟨e, he⟩ := hglobal hy
    exact h.globals hlt hd he
  have hperm := h.moved.zipIdx_perm.filter fun x => (g x.1).isSome
  rw [List.filter_map] at hperm
  have heq :=
    List.Perm.eq_of_pairwise (fun x y _ _ hxy hyx => absurd hxy (Nat.lt_asymm hyx)) (hsorted its')
    hsorted' hperm
  have hfilter : ∀ l : List Item,
      l.filterMap g = (l.zipIdx.filter fun x => (g x.1).isSome).filterMap fun x => g x.1 := by
    intro l
    have hsome : (fun x : Item × Nat => if (g x.1).isSome then g x.1 else none) = g ∘ Prod.fst := by
      funext x
      cases hx : g x.1 <;> simp [hx]
    rw [List.filterMap_filter, hsome, ← List.filterMap_map, List.zipIdx_map_fst]
  rw [hfilter, heq, hfilter its, List.filterMap_map]
  rfl

end Rearranged

/-! ## Passes that treat each item by itself -/

theorem Typing.items_eq (v : Visible) (i : Nat) (its : List Item) : Typing.items v i its =
    ⟨(its.zipIdx i).map fun x => (Typing.item v x.2 x.1).value,
      (its.zipIdx i).flatMap fun x => (Typing.item v x.2 x.1).notes⟩ := by
  induction its generalizing i with
  | nil => rfl
  | cons it its ih =>
    rw [items, ih, List.zipIdx_cons]
    exact Noted.ext (by simp) (by simp)

/-- A program is checked at the new places of its items as at the old ones, if the overloads are
numbered anew and each callable sees what it saw. -/
theorem Typing.resolve_moved {π : Nat ≃ Nat} {p p' : Program} (h : Moved π p.items p'.items)
    {ρ : Renumbering} {v v' : Visible} (hglobal : Context.Renumbered ρ ⟨v, none⟩ ⟨v', none⟩)
    (hfn : ∀ i, Option.Rel (fun o o' => Context.Renumbered ρ ⟨v, some (.of o)⟩ ⟨v', some (.of o')⟩)
      (v.own.overloadForItem i) (v'.own.overloadForItem (π i)))
    (hunbound : ∀ it ∈ p.items, it.All .unbound) {P : Diagnostic → Prop}
    (hn : ∀ d ∈ (resolve v p).notes, P d) :
    (∀ d ∈ (resolve v' p').notes, P d) ∧
      Moved π ((resolve v p).value.items.map (Item.relabel ρ.relabel))
        (resolve v' p').value.items := by
  have hresolve : ∀ (v : Visible) (p : Program), resolve v p = ⟨{ p with
      items := p.items.zipIdx.map fun x => (Typing.item v x.2 x.1).value },
      p.items.zipIdx.flatMap fun x => (Typing.item v x.2 x.1).notes⟩ := by
    intro v p
    rw [resolve, items_eq]
    exact Noted.ext rfl (by simp)
  rw [hresolve] at hn ⊢
  rw [hresolve]
  exact h.run
    (fun i it hit => item_renumber hglobal (hfn i) (hunbound it (List.mem_of_getElem? hit))) hn

/-- The flow of a program is reported alike whatever the order of its items and the labels in
them. -/
theorem Flow.program_moved {π : Nat ≃ Nat} {p p' : Program} {g : Relabel}
    (h : Moved π (p.items.map (Item.relabel g)) p'.items) {P : Diagnostic → Prop}
    (hn : ∀ d ∈ (program p).notes, P d) : ∀ d ∈ (program p').notes, P d := by
  have hmem : ∀ {q : Program} {f : FnDef}, f ∈ callables q ↔ .fn f ∈ q.items := by
    intro q f
    rw [callables, List.mem_filterMap]
    constructor
    · rintro ⟨it, hit, heq⟩
      cases it <;> cases heq
      exact hit
    · exact fun hf => ⟨_, hf, rfl⟩
  intro d hd
  rw [notes_program] at hn hd
  obtain ⟨f, hf, hd⟩ := List.mem_flatMap.1 hd
  obtain ⟨it, hit, heq⟩ := List.mem_map.1 (h.perm.mem_iff.1 (hmem.1 hf))
  cases it with
  | synonym | global => cases heq
  | fn f₀ =>
    cases heq
    rw [callable_relabel] at hd
    exact hn d (List.mem_flatMap.2 ⟨f₀, hmem.2 hit, hd⟩)

end SplFrontend
