import SplFrontend.Proofs.Normal

/-!
# What declaring does

`Fills` says how the globals and callables of items enter a table one by one when nothing is
refused. The pass over declarations reports nothing exactly then, and what holds of the filled table
is shown along the items: every callable has its overload, every global its entry.
-/

namespace SplFrontend.Declarations

/-! ## Filling a table -/

/-- The overload that a callable enters the table with. -/
def overloadOf (f : FnDef) (sig : Signature) (i : Nat) : LocalOverload :=
  ⟨sig, f.loc, i, f.head.fixity?, argScope [] f.params sig.params, []⟩

/-- The table with one more global. -/
def withGlobal (t : ModuleTable) (d : VarDecl) (ty : Ty) : ModuleTable :=
  { t with globals := t.globals ++ [(d.name, ⟨ty, d.loc⟩)] }

/-- The table with one more callable. -/
def withCallable (t : ModuleTable) (f : FnDef) (o : LocalOverload) : ModuleTable :=
  { t with functions := t.functions.add f.kind f.name o }

/-- The items from some place on enter the table one by one, and nothing is refused. -/
inductive Fills : Nat → List Item → ModuleTable → ModuleTable → Prop
  | nil {i t} : Fills i [] t t
  | synonym {i s rest t t'} : Fills (i + 1) rest t t' → Fills i (.synonym s :: rest) t t'
  | global {i d ty rest t t'} : d.ty = some ty → t.globals.lookup d.name = none →
      Fills (i + 1) rest (withGlobal t d ty) t' → Fills i (.global d :: rest) t t'
  | fn {i f sig rest t t'} : f.sig = some sig → sig.params.length = f.params.length →
      (∀ o ∈ t.overloads f.kind f.name, o.sig ≠ sig) →
      Fills (i + 1) rest (withCallable t f (overloadOf f sig i)) t' → Fills i (.fn f :: rest) t t'

theorem global_of_lookup {t : ModuleTable} {d : VarDecl} {ty : Ty} (hty : d.ty = some ty)
    (h : t.globals.lookup d.name = none) : global t d = pure (withGlobal t d ty) := by
  simp only [global, hty, ModuleTable.declareGlobal, h]
  rfl

theorem callable_of_ne {t : ModuleTable} {f : FnDef} {sig : Signature} (i : Nat)
    (hsig : f.sig = some sig) (hlen : sig.params.length = f.params.length)
    (h : ∀ o ∈ t.overloads f.kind f.name, o.sig ≠ sig) :
    callable t i f = pure (withCallable t f (overloadOf f sig i)) := by
  have hnone : (t.overloads f.kind f.name).findIdx? (fun p => decide (p.sig = sig)) = none :=
    List.findIdx?_eq_none_iff.2 fun o ho => decide_eq_false (h o ho)
  simp only [callable, hsig, ModuleTable.addOverload, hlen, ne_eq, not_true_eq_false,
    if_false, hnone]
  rfl

/-- Nothing is reported where nothing is refused. -/
theorem Fills.items_eq {i : Nat} {its : List Item} {t t' : ModuleTable} (h : Fills i its t t') :
    items i its t = pure t' := by
  induction h with
  | nil => rw [items]
  | synonym _ ih => rw [items, ih]
  | global hty hl _ ih => rw [items, global_of_lookup hty hl, pure_bind, ih]
  | fn hsig hlen hne _ ih => rw [items, callable_of_ne _ hsig hlen hne, pure_bind, ih]

/-- Normal items of which nothing is reported enter the table. -/
theorem fills_of_notes : ∀ (i : Nat) (its : List Item) (t : ModuleTable),
    (∀ it ∈ its, Annotations.NormalItem it) → (∀ d ∈ (items i its t).notes, NotError d) →
    Fills i its t (items i its t).value
  | _, [], _, _, _ => by rw [items]; exact .nil
  | i, .synonym s :: rest, t, hn, h => by
    rw [items] at h ⊢
    exact .synonym (fills_of_notes (i + 1) rest t (List.forall_mem_cons.1 hn).2 h)
  | i, .global d :: rest, t, hn, h => by
    rw [List.forall_mem_cons] at hn
    obtain ⟨ty, hty, -⟩ := hn.1
    rw [items, Noted.forall_notes_bind] at h
    rw [items]
    cases hl : t.globals.lookup d.name with
    | none =>
      rw [global_of_lookup hty hl] at h ⊢
      exact .global hty hl (fills_of_notes (i + 1) rest _ hn.2 h.2)
    | some e =>
      simp only [global, hty, ModuleTable.declareGlobal, hl, Noted.forall_notes_bind] at h
      exact absurd (h.1.1 _ List.mem_cons_self) (not_notError rfl _ _)
  | i, .fn f :: rest, t, hn, h => by
    rw [List.forall_mem_cons] at hn
    obtain ⟨sig, hsig, hplain⟩ := hn.1.sig
    rw [items, Noted.forall_notes_bind] at h
    rw [items]
    cases hf : (t.overloads f.kind f.name).findIdx? (fun p => decide (p.sig = sig)) with
    | none =>
      have hne : ∀ o ∈ t.overloads f.kind f.name, o.sig ≠ sig := fun o ho =>
        of_decide_eq_false (List.findIdx?_eq_none_iff.1 hf o ho)
      rw [callable_of_ne i hsig hplain.length hne] at h ⊢
      exact .fn hsig hplain.length hne (fills_of_notes (i + 1) rest _ hn.2 h.2)
    | some j =>
      simp only [callable, hsig, ModuleTable.addOverload, hplain.length, ne_eq, not_true_eq_false,
        if_false, hf, Noted.forall_notes_bind] at h
      exact absurd (h.1.1 _ List.mem_cons_self) (not_notError rfl _ _)

/-! ## What a filled table holds -/

theorem mem_all_withCallable {t : ModuleTable} {f : FnDef} {o x : LocalOverload}
    (h : x ∈ (withCallable t f o).functions.all) : x = o ∨ x ∈ t.functions.all := by
  obtain ⟨l, r, hlr, hadd⟩ := Callables.all_add f.kind f.name o t.functions
  have hx : x ∈ l ++ o :: r := hadd ▸ h
  rw [hlr]
  simp only [List.mem_append, List.mem_cons] at hx ⊢
  exact or_left_comm.1 hx

/-- Filling leaves the overloads of earlier items. -/
theorem Fills.overloadForItem_lt {i : Nat} {its : List Item} {t t' : ModuleTable}
    (h : Fills i its t t') {k : Nat} (hk : k < i) : t'.overloadForItem k = t.overloadForItem k := by
  induction h with
  | nil => rfl
  | synonym _ ih => exact ih (Nat.lt_succ_of_lt hk)
  | global _ _ _ ih => exact ih (Nat.lt_succ_of_lt hk)
  | fn _ _ _ _ ih =>
    rw [ih (Nat.lt_succ_of_lt hk)]
    exact ModuleTable.overloadForItem_add_of_ne (Nat.ne_of_gt hk)

/-- Every callable has its overload. -/
theorem Fills.overloadForItem {i : Nat} {its : List Item} {t t' : ModuleTable}
    (h : Fills i its t t') (ht : ∀ o ∈ t.functions.all, o.item < i) :
    ∀ {j : Nat} {f : FnDef}, its[j]? = some (.fn f) →
      ∃ sig, f.sig = some sig ∧ t'.overloadForItem (i + j) = some (overloadOf f sig (i + j)) := by
  induction h with
  | nil => intro j f hj; cases hj
  | synonym _ ih | global _ _ _ ih =>
    intro j f hj
    cases j with
    | zero => cases hj
    | succ j =>
      rw [← Nat.add_assoc, Nat.add_right_comm]
      exact ih (fun o ho => Nat.lt_succ_of_lt (ht o ho)) hj
  | @fn i f sig rest t t' hsig _ _ hrest ih =>
    intro j g hj
    cases j with
    | zero =>
      cases hj
      refine ⟨sig, hsig, ?_⟩
      rw [Nat.add_zero, hrest.overloadForItem_lt (Nat.lt_succ_self i)]
      refine ModuleTable.overloadForItem_add_self (o := overloadOf f sig i) ?_
      exact List.find?_eq_none.2 fun o ho heq => Nat.ne_of_lt (ht o ho) (of_decide_eq_true heq)
    | succ j =>
      rw [← Nat.add_assoc, Nat.add_right_comm]
      refine ih (fun o ho => ?_) hj
      obtain rfl | ho := mem_all_withCallable ho
      · exact Nat.lt_succ_self i
      · exact Nat.lt_succ_of_lt (ht o ho)

/-- The globals of a table that was filled are those of before, and more. -/
theorem Fills.globals_eq {i : Nat} {its : List Item} {t t' : ModuleTable} (h : Fills i its t t') :
    ∃ more, t'.globals = t.globals ++ more := by
  induction h with
  | nil => exact ⟨[], (List.append_nil _).symm⟩
  | synonym _ ih => exact ih
  | global _ _ _ ih =>
    obtain ⟨more, hmore⟩ := ih
    exact ⟨_ :: more, by rw [hmore, withGlobal, List.append_assoc]; rfl⟩
  | fn _ _ _ _ ih => exact ih

/-- Every global has its entry. -/
theorem Fills.lookup_globals {i : Nat} {its : List Item} {t t' : ModuleTable} (h : Fills i its t t')
    {d : VarDecl} (hd : .global d ∈ its) :
    ∃ ty, d.ty = some ty ∧ t'.globals.lookup d.name = some ⟨ty, d.loc⟩ := by
  induction h with
  | nil => cases hd
  | synonym _ ih | fn _ _ _ _ ih =>
    obtain hd | hd := List.mem_cons.1 hd
    · cases hd
    · exact ih hd
  | @global i d' ty rest t t' hty hl hrest ih =>
    obtain hd | hd := List.mem_cons.1 hd
    · cases hd
      refine ⟨ty, hty, ?_⟩
      obtain ⟨more, hmore⟩ := hrest.globals_eq
      rw [hmore, withGlobal, List.lookup_append, List.lookup_append, hl]
      simp
    · exact ih hd

theorem Fills.module_eq {i : Nat} {its : List Item} {t t' : ModuleTable} (h : Fills i its t t') :
    t'.module = t.module := by
  induction h with
  | nil => rfl
  | synonym _ ih => exact ih
  | global _ _ _ ih => exact ih
  | fn _ _ _ _ ih => exact ih

theorem Fills.synonyms_eq {i : Nat} {its : List Item} {t t' : ModuleTable} (h : Fills i its t t') :
    t'.synonyms = t.synonyms := by
  induction h with
  | nil => rfl
  | synonym _ ih => exact ih
  | global _ _ _ ih => exact ih
  | fn _ _ _ _ ih => exact ih

/-- Of distinct parameters each has its place in the scope, with the type that the signature
lists. -/
theorem argScope_of_nodup : ∀ {ps : List Param} {tys : List Ty} {scope : Scope},
    (scope.map Prod.fst ++ ps.map Param.name).Nodup →
    argScope scope ps tys = scope ++ List.zipWith (fun p ty => (p.name, ⟨ty, p.loc⟩)) ps tys
  | p :: ps, ty :: tys, scope, h => by
    have hnone : scope.lookup p.name = none := by
      rw [lookup_eq_none_iff_not_mem]
      intro hm
      rw [List.nodup_append] at h
      exact h.2.2 _ hm _ List.mem_cons_self rfl
    rw [argScope, hnone]
    simp only [Option.isSome_none, Bool.false_eq_true, if_false]
    rw [argScope_of_nodup (by simpa using h), List.append_assoc]
    rfl
  | [], _, _, _ => by simp [argScope]
  | _ :: _, [], _, _ => by simp [argScope]

/-! ## Fixities -/

/-- Every infix operator has the one fixity that `φ` gives it, here and where it is imported
from. -/
structure OneFixity (externals : ExternalTable) (φ : String → Fixity) (its : List Item) : Prop where
  imported : ∀ name x, externals.fixityOf name = some x → φ name = x
  own : ∀ f, .fn f ∈ its → ∀ x, f.head = .infixOp x → φ f.name = x

/-- The definitions seen so far have the fixities that `φ` gives them. -/
def Seen (φ : String → Fixity) (seen : List (String × Fixity × Loc)) : Prop :=
  ∀ name x loc, seen.lookup name = some (x, loc) → φ name = x

section

variable {externals : ExternalTable} {φ : String → Fixity} {seen : List (String × Fixity × Loc)}

theorem OneFixity.tail {it : Item} {its : List Item} (h : OneFixity externals φ (it :: its)) :
    OneFixity externals φ its :=
  ⟨h.imported, fun f hf => h.own f (List.mem_cons_of_mem _ hf)⟩

theorem OneFixity.cons {it : Item} {its : List Item} (h : OneFixity externals φ its)
    (hit : ∀ f, it = .fn f → ∀ x, f.head = .infixOp x → φ f.name = x) :
    OneFixity externals φ (it :: its) := by
  refine ⟨h.imported, fun f hf => ?_⟩
  rcases List.mem_cons.1 hf with heq | hf
  · exact hit f heq.symm
  · exact h.own f hf

theorem Seen.append (h : Seen φ seen) {name : String} {x : Fixity} (hx : φ name = x) (loc : Loc) :
    Seen φ (seen ++ [(name, x, loc)]) := by
  intro n y l hl
  rw [List.lookup_append, Option.or_eq_some_iff] at hl
  rcases hl with hl | ⟨-, hl⟩
  · exact h n y l hl
  · have hm := mem_of_lookup hl
    cases List.mem_singleton.1 hm
    exact hx

theorem fixities_of_oneFixity : ∀ (its : List Item) (seen : List (String × Fixity × Loc)),
    OneFixity externals φ its → Seen φ seen → fixities externals seen its = pure ()
  | [], _, _, _ => rfl
  | .synonym s :: its, seen, h, hs => fixities_of_oneFixity its seen h.tail hs
  | .global d :: its, seen, h, hs => fixities_of_oneFixity its seen h.tail hs
  | .fn ⟨head, name, params, sig, body, loc⟩ :: its, seen, h, hs => by
    have ih := fun seen => fixities_of_oneFixity its seen h.tail
    cases head with
    | function => exact ih seen hs
    | prefixOp => exact ih seen hs
    | infixOp x =>
      have hx : φ name = x := h.own _ List.mem_cons_self x rfl
      have himported : (externals.fixityOf name).filter (· ≠ x) = none := by
        rw [Option.filter_eq_none_iff]
        intro y hy
        simp [← h.imported name y hy, hx]
      rw [fixities, himported]
      cases hl : seen.lookup name with
      | none => exact ih _ (hs.append hx loc)
      | some first =>
        obtain ⟨y, l⟩ := first
        have hy : y = x := (hs name y l hl).symm.trans hx
        simp only [hy, ne_eq, not_true_eq_false, if_false]
        exact ih seen hs

/-- If nothing is reported, there is a fixity for every name that all its definitions share. -/
theorem exists_oneFixity : ∀ (its : List Item) (seen : List (String × Fixity × Loc)),
    (∀ name x loc y, seen.lookup name = some (x, loc) → externals.fixityOf name = some y → y = x) →
    (∀ d ∈ (fixities externals seen its).notes, NotError d) →
    ∃ φ, OneFixity externals φ its ∧ Seen φ seen
  | [], seen, hs, _ => by
    refine ⟨fun name => (externals.fixityOf name).getD
      (((seen.lookup name).map Prod.fst).getD ⟨.left, 0⟩),
      ⟨fun name x hx => by simp [hx], nofun⟩, ?_⟩
    intro name x loc hl
    simp only [hl, Option.map_some, Option.getD_some]
    cases hx : externals.fixityOf name with
    | none => rfl
    | some y => exact hs name x loc y hl hx
  | .synonym s :: its, seen, hs, h => by
    obtain ⟨φ, hφ, hseen⟩ := exists_oneFixity its seen hs h
    exact ⟨φ, hφ.cons nofun, hseen⟩
  | .global d :: its, seen, hs, h => by
    obtain ⟨φ, hφ, hseen⟩ := exists_oneFixity its seen hs h
    exact ⟨φ, hφ.cons nofun, hseen⟩
  | .fn ⟨head, name, params, sig, body, loc⟩ :: its, seen, hs, h => by
    have ih := fun seen => exists_oneFixity its seen
    cases head with
    | function =>
      obtain ⟨φ, hφ, hseen⟩ := ih seen hs h
      exact ⟨φ, hφ.cons (by rintro f ⟨⟩; nofun), hseen⟩
    | prefixOp =>
      obtain ⟨φ, hφ, hseen⟩ := ih seen hs h
      exact ⟨φ, hφ.cons (by rintro f ⟨⟩; nofun), hseen⟩
    | infixOp x =>
      rw [fixities] at h
      cases himported : (externals.fixityOf name).filter (· ≠ x) with
      | some y =>
        rw [himported, Noted.forall_notes_bind] at h
        exact absurd (h.1 _ List.mem_cons_self) (not_notError rfl _ _)
      | none =>
        rw [himported] at h
        rw [Option.filter_eq_none_iff] at himported
        have hext : ∀ y, externals.fixityOf name = some y → y = x := by
          intro y hy
          simpa using himported y hy
        cases hl : seen.lookup name with
        | none =>
          simp only [hl] at h
          obtain ⟨φ, hφ, hseen⟩ := ih (seen ++ [(name, x, loc)]) (by
            intro n z l y hz hy
            rw [List.lookup_append, Option.or_eq_some_iff] at hz
            rcases hz with hz | ⟨-, hz⟩
            · exact hs n z l y hz hy
            · cases List.mem_singleton.1 (mem_of_lookup hz)
              exact hext y hy) h
          have hx : φ name = x := hseen name x loc (by simp [List.lookup_append, hl])
          refine ⟨φ, hφ.cons (by rintro f ⟨⟩ y ⟨⟩; exact hx), fun n z l hz => hseen n z l ?_⟩
          rw [List.lookup_append, hz, Option.some_or]
        | some first =>
          obtain ⟨y, l⟩ := first
          simp only [hl, Noted.notes_note_if, List.forall_mem_append] at h
          have hy : ¬ y ≠ x := not_of_notError rfl h.1
          obtain ⟨φ, hφ, hseen⟩ := ih seen hs h.2
          have hx : φ name = x := (hseen name y l hl).trans (Decidable.not_not.1 hy)
          exact ⟨φ, hφ.cons (by rintro f ⟨⟩ y ⟨⟩; exact hx), hseen⟩

end

end SplFrontend.Declarations
