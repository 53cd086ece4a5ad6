import SplFrontend.Proofs.Declarations
import SplFrontend.Proofs.Scoping
import SplFrontend.Proofs.WellTyped

/-!
# Scoped programs

After scoping without an error every variable refers to an entry that the tables hold. In a body the
entry is there at the place of the variable, and the scope only grows, so it is there in the scope
that the table records at the end (`holds_tagged`). `Tags` is the pass over the items of a program,
in which the table receives the scope of one body after the other.
-/

namespace SplFrontend

/-- What stands at the nodes of a scoped expression: variables that refer to something, nothing
typed or bound. -/
def Nodes.tagged (cx : Typing.Context) : Nodes where
  var v := (∃ t, cx.Refers v.ref t) ∧ v.ty = none
  empty t := t = none
  flat := True
  bound _ _ := False

namespace Scoping

variable {t : ModuleTable} {externals : ExternalTable} {cx : Typing.Context}

/-! ## References -/

theorem lookup_of_tag {lookup : String → Option Ref} {missing : String → Fault}
    (hm : ∀ n, (missing n).code.isError = true) {v : Variable} (hv : Nodes.fresh.var v)
    (h : ∀ d ∈ (tag lookup missing v).notes, NotError d) :
    ∃ r, lookup v.ref.name = some r ∧ (tag lookup missing v).value = { v with ref := r } := by
  obtain ⟨ref, accessors, ty, loc⟩ := v
  obtain ⟨name, rfl⟩ : ∃ name, ref = .unresolved name := ⟨_, hv.1⟩
  simp only [tag, Ref.name] at h ⊢
  cases hl : lookup name with
  | some r => exact ⟨r, rfl, rfl⟩
  | none =>
    simp only [hl, Noted.forall_notes_bind] at h
    exact absurd (h.1 _ List.mem_cons_self) (not_notError (hm _) _ _)

theorem refers_of_importedRef (hx : cx.visible.externals = externals) {name : String} {r : Ref}
    (h : importedRef externals name = some r) : ∃ u, cx.Refers r u := by
  obtain ⟨e, he, rfl⟩ := Option.map_eq_some_iff.1 h
  exact ⟨_, .imported (hx ▸ he)⟩

/-- What a name refers to in a body is in the scope at the end. -/
theorem refers_of_inFunction {args s more : Scope} {result : Ty}
    (ht : cx.visible.own.globals = t.globals) (hx : cx.visible.externals = externals)
    (hfn : cx.fn = some ⟨args, s ++ more, result⟩) {name : String} {r : Ref}
    (h : inFunction t externals args s name = some r) : ∃ u, cx.Refers r u := by
  unfold inFunction at h
  split at h
  · next hs =>
    cases h
    obtain ⟨e, he⟩ := Option.isSome_iff_exists.1 hs
    exact ⟨_, .localVar hfn (by rw [List.lookup_append, he]; rfl)⟩
  · split at h
    · next ha =>
      cases h
      obtain ⟨e, he⟩ := Option.isSome_iff_exists.1 ha
      exact ⟨_, .argument hfn he⟩
    · split at h
      · next hg =>
        cases h
        obtain ⟨e, he⟩ := Option.isSome_iff_exists.1 hg
        exact ⟨_, .own (ht ▸ he)⟩
      · exact refers_of_importedRef hx h

theorem lookup_of_globalIndex {q : Nat → Bool} {name : String}
    (h : (t.globalIndex name).any q = true) :
    ∃ e, t.globals.lookup name = some e := by
  obtain ⟨i, hi, -⟩ := (Option.any_eq_true _ _).1 h
  obtain ⟨hlt, hname, -⟩ := List.findIdx?_eq_some_iff_getElem.1 hi
  have hmem : name ∈ t.globals.map Prod.fst :=
    List.mem_map.2 ⟨_, List.getElem_mem hlt, of_decide_eq_true hname⟩
  cases he : t.globals.lookup name with
  | none => exact absurd hmem (lookup_eq_none_iff_not_mem.1 he)
  | some e => exact ⟨e, rfl⟩

theorem refers_of_inGlobal (ht : cx.visible.own.globals = t.globals)
    (hx : cx.visible.externals = externals) {limit : Nat} {name : String} {r : Ref}
    (h : inGlobal t externals limit name = some r) : ∃ u, cx.Refers r u := by
  unfold inGlobal at h
  split at h
  · next hi =>
    cases h
    obtain ⟨e, he⟩ := lookup_of_globalIndex hi
    exact ⟨_, .own (ht ▸ he)⟩
  · exact refers_of_importedRef hx h

theorem turns_tag {lookup : String → Option Ref} {missing : String → Fault}
    (hm : ∀ n, (missing n).code.isError = true)
    (hl : ∀ {name r}, lookup name = some r → ∃ u, cx.Refers r u) :
    Turns (tag lookup missing) NotError .fresh (.tagged cx) where
  var {v} hv hn := by
    obtain ⟨r, hr, hval⟩ := lookup_of_tag hm hv hn
    rw [hval]
    exact ⟨hl hr, hv.2⟩
  empty := id
  flat := id
  bound := id

/-! ## Declarations -/

theorem value_declare (args s : Scope) (d : VarDecl) : (declare t externals args s d).value =
    match d.ty, s.lookup d.name with
    | some ty, none => s ++ [(d.name, ⟨ty, d.loc⟩)]
    | _, _ => s := by
  unfold declare
  cases d.ty with
  | none => rfl
  | some ty =>
    cases s.lookup d.name with
    | some e => rfl
    | none => simp only; split <;> rfl

theorem declare_of_notes {args s : Scope} {d : VarDecl} {u : Ty} (hty : d.ty = some u)
    (h : ∀ x ∈ (declare t externals args s d).notes, NotError x) :
    s.lookup d.name = none ∧ (declare t externals args s d).value = s ++
      [(d.name, ⟨u, d.loc⟩)] := by
  rw [value_declare, hty]
  cases hl : s.lookup d.name with
  | some first =>
    simp only [declare, hty, hl, Noted.forall_notes_bind] at h
    exact absurd (h.1 _ List.mem_cons_self) (not_notError rfl _ _)
  | none => exact ⟨rfl, rfl⟩

theorem after_grows (args s : Scope) (p : Place) :
    ∃ more, (after t externals args s p).value = s ++ more := by
  cases p with
  | decl d =>
    rw [after, value_declare]
    split
    · exact ⟨_, rfl⟩
    · exact ⟨[], (List.append_nil _).symm⟩
  | _ => exact ⟨[], (List.append_nil _).symm⟩

/-! ## Bodies -/

/-- What a declaration declares is in the scope, with its type. -/
def InScope (cx : Typing.Context) : Place → Prop :=
  Place.OnDecl fun name ty => ∃ u, ty = some u ∧ cx.Refers (cx.declaring name) u

/-- A scoped place is tagged for every scope that extends the one after it. -/
theorem tagged_of_graph {args s s' more : Scope} {result : Ty} {p q : Place}
    (ht : cx.visible.own.globals = t.globals) (hx : cx.visible.externals = externals)
    (hfn : cx.fn = some ⟨args, s' ++ more, result⟩)
    (hg : (body t externals args).Graph NotError s p q s') (hfresh : p.All .fresh)
    (hplain : p.OnDecl fun _ ty => Annotations.PlainDecl ty) :
    q.All (.tagged cx) ∧ InScope cx q := by
  obtain ⟨⟨rfl, hn⟩, rfl, hn'⟩ := graph_iff.1 hg
  obtain ⟨l, hl⟩ : ∃ l, (after t externals args s p).value = s ++ l := after_grows args s p
  have hgrown : cx.fn = some ⟨args, s ++ (l ++ more), result⟩ := by rw [hfn, hl, List.append_assoc]
  refine ⟨all_place (turns_tag (fun _ => rfl) (refers_of_inFunction ht hx hgrown)) hfresh hn, ?_⟩
  cases p with
  | decl d =>
    obtain ⟨u, hu, -⟩ := hplain
    obtain ⟨hfst, hval⟩ := declare_of_notes hu hn'
    refine ⟨u, hu, ?_⟩
    simp only [Typing.Context.declaring, hfn]
    refine .localVar (e := ⟨u, d.loc⟩) hfn ?_
    simp [after, hval, List.lookup_append, hfst]
  | ret l e => cases e <;> trivial
  | _ => trivial

/-- In a body that was scoped without an error every variable refers to something in the final
scope, and that scope holds what the body declares. -/
theorem holds_tagged {args locals : Scope} {result : Ty}
    (ht : cx.visible.own.globals = t.globals) (hx : cx.visible.externals = externals)
    (hfn : cx.fn = some ⟨args, locals, result⟩) {b b' : List Stmt}
    (hw : Stmt.WalkAll Eq ((body t externals args).Graph NotError) [] b b' locals)
    (hfresh : Stmt.HoldsAll (Place.All .fresh) b) (hplain : Annotations.PlainLocals b) :
    Stmt.HoldsAll (fun q => q.All (.tagged cx) ∧ InScope cx q) b' := by
  have hweak : Weakens Eq Eq
      (fun s p q s' => ((body t externals args).Graph NotError s p q s' ∧ p.All .fresh) ∧
        p.OnDecl fun _ ty => Annotations.PlainDecl ty)
      (fun _ _ q _ => q.All (.tagged cx) ∧ InScope cx q)
        (fun s s' => ∃ more, s' = s ++ more) locals := by
    refine ⟨id, ?_, ?_, fun s => ⟨[], (List.append_nil s).symm⟩, ?_⟩
    · rintro s p q s' ⟨⟨hg, -⟩, -⟩
      rw [← (graph_iff.1 hg).2.1]
      exact after_grows args s p
    · rintro s s' s'' ⟨l, rfl⟩ ⟨l', rfl⟩
      exact ⟨l ++ l', List.append_assoc ..⟩
    · rintro s p q s' ⟨⟨hg, hf⟩, hp⟩ ⟨more, rfl⟩
      exact tagged_of_graph ht hx hfn hg hf hp
  refine (((hw.and hfresh).and hplain).weaken hweak ⟨[], (List.append_nil _).symm⟩).holds ?_
  intro _ _ _ _ h
  exact h

/-! ## Items -/

theorem body_congr {u : ModuleTable} (h : u.globals = t.globals) (args : Scope) :
    body u externals args = body t externals args := by
  obtain ⟨_, _, _, _⟩ := u
  obtain ⟨_, _, _, _⟩ := t
  cases h
  rfl

theorem global_congr {u : ModuleTable} (h : u.globals = t.globals) (d : VarDecl) :
    global u externals d = global t externals d := by
  obtain ⟨_, _, _, _⟩ := u
  obtain ⟨_, _, _, _⟩ := t
  cases h
  rfl

/-- Scoping the items from some place of the program on, all of whose callables have an overload.
The reports satisfy `P`. -/
inductive Tags (externals : ExternalTable) (P : Diagnostic → Prop) :
    Nat → List Item → ModuleTable → List Item → ModuleTable → Prop
  | nil {i t} : Tags externals P i [] t [] t
  | synonym {i s rest t rest' t'} : Tags externals P (i + 1) rest t rest' t' →
      Tags externals P i (.synonym s :: rest) t (.synonym s :: rest') t'
  | global {i d rest t rest' t'} : (∀ x ∈ (global t externals d).notes, P x) →
      Tags externals P (i + 1) rest t rest' t' →
      Tags externals P i (.global d :: rest) t (.global (global t externals d).value :: rest') t'
  | fn {i f o b locals rest t rest' t'} : t.overloadForItem i = some o →
      Stmt.WalkAll Eq ((body t externals o.args).Graph P) [] f.body b locals →
      Tags externals P (i + 1) rest (t.setLocals i locals) rest' t' →
      Tags externals P i (.fn f :: rest) t (.fn { f with body := b } :: rest') t'

variable {P : Diagnostic → Prop}

theorem tags_of_notes : ∀ (i : Nat) (its : List Item) (t : ModuleTable),
    (∀ j f, its[j]? = some (.fn f) → ∃ o, t.overloadForItem (i + j) = some o) →
    (∀ d ∈ (items externals i its t).notes, P d) →
    Tags externals P i its t (items externals i its t).value.1 (items externals i its t).value.2
  | _, [], _, _, _ => .nil
  | i, .synonym s :: rest, t, ho, h => by
    simp only [items, Noted.forall_notes_bind] at h
    refine .synonym (tags_of_notes (i + 1) rest t (fun j f hj => ?_) h.1)
    simpa [Nat.add_assoc, Nat.add_comm 1 j] using ho (j + 1) f hj
  | i, .global d :: rest, t, ho, h => by
    simp only [items, Noted.forall_notes_bind] at h
    refine .global h.1 (tags_of_notes (i + 1) rest t (fun j f hj => ?_) h.2.1)
    simpa [Nat.add_assoc, Nat.add_comm 1 j] using ho (j + 1) f hj
  | i, .fn f :: rest, t, ho, h => by
    obtain ⟨o, hoi⟩ := ho 0 f rfl
    simp only [Nat.add_zero] at hoi
    simp only [items, hoi, Noted.forall_notes_bind] at h ⊢
    refine .fn hoi (Stmt.walk_rewriteAll _ _ h.1)
      (tags_of_notes (i + 1) rest _ (fun j f hj => ?_) h.2.1)
    have hij := ho (j + 1) f hj
    rw [ModuleTable.overloadForItem_setLocals, if_neg (by omega)]
    simpa [Nat.add_assoc, Nat.add_comm 1 j] using hij

namespace Tags

theorem globals_eq {i : Nat} {its its' : List Item} {t' : ModuleTable}
    (h : Tags externals P i its t its' t') : t'.globals = t.globals := by
  induction h with
  | nil => rfl
  | synonym _ ih => exact ih
  | global _ _ ih => exact ih
  | fn _ _ _ ih => exact ih

theorem overloadForItem_lt {i : Nat} {its its' : List Item} {t' : ModuleTable}
    (h : Tags externals P i its t its' t') {k : Nat} (hk : k < i) :
    t'.overloadForItem k = t.overloadForItem k := by
  induction h with
  | nil => rfl
  | synonym _ ih => exact ih (by omega)
  | global _ _ ih => exact ih (by omega)
  | fn _ _ _ ih => rw [ih (by omega), ModuleTable.overloadForItem_setLocals, if_neg (by omega)]

/-- The item at some place and what it was scoped to. Bodies see the globals of the table as it was
before the pass. -/
theorem getElem? {i : Nat} {its its' : List Item} {t' : ModuleTable}
    (h : Tags externals P i its t its' t') : ∀ {j : Nat} {it' : Item}, its'[j]? = some it' →
    ∃ it, its[j]? = some it ∧
      match it with
      | .synonym s => it' = .synonym s
      | .global d => it' = .global (Scoping.global t externals d).value ∧
          ∀ x ∈ (Scoping.global t externals d).notes, P x
      | .fn f => ∃ o b locals, t.overloadForItem (i + j) = some o ∧
          t'.overloadForItem (i + j) = some { o with locals } ∧ it' = .fn { f with body := b } ∧
          Stmt.WalkAll Eq ((body t externals o.args).Graph P) [] f.body b locals := by
  induction h with
  | nil => intro j it' hj; cases hj
  | @synonym i s rest t rest' t' h ih =>
    intro j it' hj
    cases j with
    | zero => cases hj; exact ⟨_, rfl, rfl⟩
    | succ j => simpa [Nat.add_assoc, Nat.add_comm 1 j] using ih hj
  | @global i d rest t rest' t' hd h ih =>
    intro j it' hj
    cases j with
    | zero => cases hj; exact ⟨_, rfl, rfl, hd⟩
    | succ j => simpa [Nat.add_assoc, Nat.add_comm 1 j] using ih hj
  | @fn i f o b locals rest t rest' t' ho hw h ih =>
    intro j it' hj
    cases j with
    | zero =>
      cases hj
      refine ⟨_, rfl, o, b, locals, ho, ?_, rfl, hw⟩
      rw [Nat.add_zero, h.overloadForItem_lt (Nat.lt_succ_self i),
        ModuleTable.overloadForItem_setLocals, if_pos rfl, ho]
      rfl
    | succ j =>
      obtain ⟨it, hit, hit'⟩ := ih hj
      refine ⟨it, hit, ?_⟩
      cases it with
      | synonym s => exact hit'
      | global d =>
        simp only at hit' ⊢
        rwa [global_congr rfl] at hit'
      | fn g =>
        obtain ⟨o', b', locals', ho', ho'', rfl, hw'⟩ := hit'
        have hij : i + 1 + j = i + (j + 1) := by omega
        rw [ModuleTable.overloadForItem_setLocals, if_neg (by omega), hij] at ho'
        rw [hij] at ho''
        rw [body_congr rfl] at hw'
        exact ⟨o', b', locals', ho', ho'', rfl, hw'⟩

end Tags

end Scoping

end SplFrontend
