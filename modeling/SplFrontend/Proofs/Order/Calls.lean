import SplFrontend.Proofs.Renumbering
import SplFrontend.Proofs.Stability.Resolution

/-!
# Calls and the overloads they stand for

Every call of a resolved program is bound to an overload that its tables hold. If the overloads are
numbered anew, the call with its new number is bound to the same overload as before.
-/

namespace SplFrontend

/-- The nodes of a tree whose calls are bound as `P` demands. -/
def Nodes.calls (P : Binding → Prop) : Nodes where
  var _ := True
  empty _ := True
  flat := True
  bound b _ := P b

theorem Nodes.calls_mono {P Q : Binding → Prop} (h : ∀ {b}, P b → Q b) :
    (Nodes.calls P).Le (.calls Q) :=
  ⟨fun _ => trivial, fun _ => trivial, fun _ => trivial, h⟩

/-- The binding stands for some overload. -/
def Visible.Bound (v : Visible) (b : Binding) : Prop := ∃ sig, v.Designates b sig

section

variable {cx : Typing.Context}

mutual

theorem HasType.all_calls : ∀ {e : Expr} {t : Ty}, HasType cx e t → e.All (.calls cx.visible.Bound)
  | _, _, .int | _, _, .char | _, _, .bool | _, _, .str | _, _, .emptyList | _, _, .var _ => trivial
  | _, _, .pair ha hb => ⟨ha.all_calls, hb.all_calls⟩
  | _, _, .bound hb has _ => ⟨⟨_, hb⟩, has.all_calls⟩

theorem HasTypes.all_calls : ∀ {es : List Expr} {ts : List Ty}, HasTypes cx es ts →
    Expr.AllArgs (.calls cx.visible.Bound) es
  | _, _, .nil => trivial
  | _, _, .cons h hs => ⟨h.all_calls, hs.all_calls⟩

end

theorem Place.all_calls_of_typed {p : Place} (h : p.Typed cx) :
    p.All (.calls cx.visible.Bound) := by
  cases p with
  | decl d =>
    obtain ⟨t, -, -, ht⟩ := h
    exact ht.all_calls
  | assign x e | each x e =>
    obtain ⟨t, -, ht⟩ := h
    exact ⟨trivial, ht.all_calls⟩
  | guard e => exact h.all_calls
  | ret l e =>
    rintro x rfl
    obtain ⟨s, -, -, ht⟩ := h
    exact ht.all_calls
  | call e =>
    obtain ⟨t, ht⟩ := h
    exact ht.all_calls

end

theorem Item.all_calls_of_meets {v : Visible} {i : Nat} {it : Item} (h : it.Meets v i Place.Typed) :
    it.All (.calls v.Bound) := by
  cases it with
  | synonym s => trivial
  | global d =>
    have hd : (Place.decl d).Typed ⟨v, none⟩ := h
    exact Place.all_calls_of_typed hd
  | fn f =>
    obtain ⟨o, -, -, -, hbody⟩ := h
    exact hbody.mono fun _ => Place.all_calls_of_typed

section
variable {p : Program} {headers : HeaderTexts} {o : Options}

/-- No call is bound before overloads are chosen. -/
theorem unbound_grouped (h : ∀ i ∈ p.items, i.All .fresh) :
    ∀ i ∈ (stages p headers o).grouped.value.items, i.All .unbound := by
  have hle : Nodes.fresh.Le .unbound :=
    ⟨fun _ => trivial, fun _ => trivial, fun _ => trivial, False.elim⟩
  have htagged : ∀ i ∈ (stages p headers o).tagged.value.1.items, i.All .unbound :=
    Scoping.all_items (fun _ => trivial) 0 _ _ fun i hi => (declared_fresh h i hi).mono hle
  intro i hi
  rw [grouped_stages, Precedence.items_resolve] at hi
  obtain ⟨j, hj, rfl⟩ := List.mem_map.1 hi
  exact Precedence.all_item (F := True) (P := fun _ => True) (.inl trivial) (htagged j hj)
    fun _ _ => trivial

/-- Every call of a program that passes all passes stands for an overload. -/
theorem all_calls_checked (hfresh : ∀ i ∈ p.items, i.All .fresh)
    (h : ∀ d ∈ (stages p headers o).notes, NotError d) :
    ∀ it ∈ (stages p headers o).checked.value.items,
      it.All (.calls (stages p headers o).visible.Bound) := by
  intro it hit
  obtain ⟨i, hi⟩ := List.getElem?_of_mem hit
  exact Item.all_calls_of_meets (meets_typed_checked hfresh h i it hi)

end

/-- A binding follows its overload to the new place. -/
theorem Visible.Designates.renumber {v v' : Visible} {ρ : Renumbering}
    (hown : ∀ {kind name i o}, (v.own.overloads kind name)[i]? = some o →
      ∃ o', (v'.own.overloads kind name)[ρ.own kind name i]? = some o' ∧ o'.sig = o.sig)
    (hexternal : ∀ {kind name i o}, (v.externals.overloads kind name)[i]? = some o →
      (v'.externals.overloads kind name)[ρ.external kind name i]? = some o)
    {b : Binding} {sig : Signature} (h : v.Designates b sig) : v'.Designates (ρ.binding b) sig := by
  rcases b with ⟨kind, name, exported, index, module, ty⟩
  cases h with
  | own hm ho he =>
    obtain ⟨o', ho', hsig⟩ := hown ho
    cases hm
    rw [← hsig]
    exact .own rfl ho' he
  | external hm ho he =>
    cases hm
    exact .external rfl (hexternal ho) he

end SplFrontend
