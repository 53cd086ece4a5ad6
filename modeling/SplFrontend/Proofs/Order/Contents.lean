import Mathlib.Data.List.Nodup
import SplFrontend.Proofs.Accepted
import SplFrontend.Proofs.Callables

/-!
# What the table of a module holds

The passes over a module fill its table item by item. Here the outcome is said without the steps:
which entries the items give rise to, and which variables of its body each overload ends up with.
What a pass does to an item depends on the item, its place, and the globals of the module only.
-/

namespace SplFrontend

/-! ## Changes of one overload -/

namespace Callables

variable {α : Type} {p : α → Bool} {f : α → α}

theorem map_ite_of_forall {l : List α} (h : ∀ x ∈ l, p x = false) :
    (l.map fun o => if p o then f o else o) = l := by
  rw [List.map_congr_left (g := id) fun x hx => by simp [h x hx], List.map_id]

/-- If at most one overload satisfies a test, to change the first that does is to change all that
do. -/
theorem updateFirst_eq_mapSets :
    ∀ {fs : Callables α}, (fs.all.Pairwise fun a b => p a = true → p b = false) →
    fs.updateFirst p f = fs.mapSets fun _ o => if p o then f o else o
  | [], _ => rfl
  | (key, set) :: fs, h => by
    have hall : all ((key, set) :: fs) = set ++ all fs := rfl
    rw [hall, List.pairwise_append] at h
    obtain ⟨hset, hfs, hcross⟩ := h
    have hcons : mapSets (fun _ o => if p o then f o else o) ((key, set) :: fs) =
        (key, set.map fun o => if p o then f o else o) ::
          mapSets (fun _ o => if p o then f o else o) fs := rfl
    rw [updateFirst, hcons]
    cases hi : set.findIdx? p with
    | none => rw [updateFirst_eq_mapSets hfs, map_ite_of_forall (List.findIdx?_eq_none_iff.1 hi)]
    | some i =>
      obtain ⟨l, o, r, rfl, hl, ho, hm⟩ := modify_findIdx hi f
      have hr : ∀ x ∈ r, p x = false := fun x hx =>
        (List.pairwise_cons.1 (List.pairwise_append.1 hset).2.1).1 x hx ho
      have hrest : ∀ x ∈ all fs, p x = false := fun x hx => hcross o (by simp) x hx ho
      have hsame : mapSets (fun _ o => if p o then f o else o) fs = fs := by
        rw [mapSets, List.map_congr_left (g := id), List.map_id]
        intro x hx
        rw [map_ite_of_forall fun o ho => hrest o (List.mem_flatMap.2 ⟨x, hx, ho⟩)]
        rfl
      simp only [hm, hsame, List.map_append, List.map_cons, map_ite_of_forall hl,
        map_ite_of_forall hr, ho, if_true]

end Callables

/-- No two overloads come from one item. -/
def ModuleTable.Placed (t : ModuleTable) : Prop := (t.functions.all.map LocalOverload.item).Nodup

namespace ModuleTable

variable {t : ModuleTable}

theorem Placed.setLocals_eq (h : t.Placed) (i : Nat) (locals : Scope) : t.setLocals i locals =
    { t with
      functions :=
      t.functions.mapSets fun _ o => if o.item = i then { o with locals } else o } := by
  have hpair :
      t.functions.all.Pairwise fun o p => decide (o.item = i) = true →
        decide (p.item = i) = false := by
    refine (List.pairwise_map.1 h).imp fun {o p} hne ho => ?_
    simp only [decide_eq_true_eq, decide_eq_false_iff_not] at ho ⊢
    exact fun hp => hne (ho.trans hp.symm)
  rw [setLocals, Callables.updateFirst_eq_mapSets hpair]
  simp only [decide_eq_true_eq]

theorem Placed.nodup_overloads (h : t.Placed) (kind : CallKind) (name : String) :
    (t.overloads kind name).Nodup := by
  rw [overloads, Callables.get]
  cases hl : t.functions.lookup (kind, name) with
  | none => exact List.nodup_nil
  | some set =>
    have hsub : set.Sublist t.functions.all := by
      rw [Callables.all, List.flatMap_def]
      exact List.sublist_flatten_of_mem (List.mem_map_of_mem (f := Prod.snd) (mem_of_lookup hl))
    exact (List.Nodup.of_map _ h).sublist hsub

end ModuleTable

/-! ## Declarations -/

namespace Declarations

/-- The entry of a global. -/
def globalEntry : Item → Option (String × Entry)
  | .global d => d.ty.map fun ty => (d.name, ⟨ty, d.loc⟩)
  | _ => none

/-- The overload that an item at some place defines under a name. -/
def overloadAt (kind : CallKind) (name : String) : Item × Nat → Option LocalOverload
  | (.fn f, i) =>
    if f.kind = kind ∧ f.name = name then f.sig.map fun sig => overloadOf f sig i else none
  | _ => none

variable {i : Nat} {its : List Item} {t t' : ModuleTable}

theorem overloads_withCallable (t : ModuleTable) (f : FnDef) (o : LocalOverload) (kind : CallKind)
    (name : String) :
    (withCallable t f o).overloads kind name =
      if f.kind = kind ∧ f.name = name then t.overloads kind name ++ [o]
        else t.overloads kind name := by
  have hadd := t.functions.get_add f.kind f.name o (kind, name)
  rw [ModuleTable.overloads, withCallable, hadd]
  simp only [Prod.mk.injEq, eq_comm]
  split
  next h => rw [h.1, h.2]; rfl
  · rfl

theorem overloads_cons {f : FnDef} {sig : Signature} (hsig : f.sig = some sig) (i : Nat)
    (its : List Item) (t : ModuleTable) (kind : CallKind) (name : String) :
    (withCallable t f (overloadOf f sig i)).overloads kind name ++
        (its.zipIdx (i + 1)).filterMap (overloadAt kind name) =
      t.overloads kind name ++ ((Item.fn f :: its).zipIdx i).filterMap (overloadAt kind name) := by
  rw [overloads_withCallable, List.zipIdx_cons, List.filterMap_cons]
  by_cases h : f.kind = kind ∧ f.name = name <;> simp [overloadAt, hsig, h]

namespace Fills

theorem globals (h : Fills i its t t') : t'.globals = t.globals ++ its.filterMap globalEntry := by
  induction h with
  | nil => simp
  | synonym _ ih => exact ih
  | global hty _ _ ih => rw [ih]; simp [withGlobal, globalEntry, hty]
  | fn _ _ _ _ ih => exact ih

theorem overloads (h : Fills i its t t') (kind : CallKind) (name : String) :
    t'.overloads kind name = t.overloads kind name ++
      (its.zipIdx i).filterMap (overloadAt kind name) := by
  induction h with
  | nil => simp
  | synonym _ ih | global _ _ _ ih => exact ih
  | fn hsig _ _ _ ih => rw [ih, overloads_cons hsig]

theorem nodup_globals (h : Fills i its t t') (ht : (t.globals.map Prod.fst).Nodup) :
    (t'.globals.map Prod.fst).Nodup := by
  induction h with
  | nil => exact ht
  | synonym _ ih | fn _ _ _ _ ih => exact ih ht
  | global _ hnew _ ih =>
    refine ih ?_
    rw [withGlobal, List.map_append, List.map_singleton, ← List.concat_eq_append]
    exact ht.concat (lookup_eq_none_iff_not_mem.1 hnew)

theorem apart (h : Fills i its t t')
    (ht : ∀ kind name, (t.overloads kind name).Pairwise fun o p => o.sig ≠ p.sig) (kind : CallKind)
    (name : String) : (t'.overloads kind name).Pairwise fun o p => o.sig ≠ p.sig := by
  induction h with
  | nil => exact ht kind name
  | synonym _ ih | global _ _ _ ih => exact ih ht
  | fn _ _ hne _ ih =>
    refine ih fun kind name => ?_
    rw [overloads_withCallable]
    split
    next hk =>
      obtain ⟨rfl, rfl⟩ := hk
      exact List.pairwise_append.2 ⟨ht _ _, List.pairwise_singleton _ _,
        by simpa [overloadOf] using hne⟩
    · exact ht kind name

theorem placed (h : Fills i its t t') (ht : t.Placed) (hlt : ∀ o ∈ t.functions.all, o.item < i) :
    t'.Placed := by
  induction h with
  | nil => exact ht
  | synonym _ ih | global _ _ _ ih => exact ih ht fun o ho => Nat.lt_succ_of_lt (hlt o ho)
  | @fn i f sig rest t t' _ _ _ _ ih =>
    refine ih ?_ fun o ho => ?_
    · obtain ⟨l, r, hall, hadd⟩ := t.functions.all_add f.kind f.name (overloadOf f sig i)
      rw [ModuleTable.Placed, withCallable, hadd, List.map_append, List.map_cons]
      refine (List.nodup_middle).2 (List.nodup_cons.2 ⟨?_, ?_⟩)
      · rw [← List.map_append, ← hall]
        intro hmem
        obtain ⟨o, ho, heq⟩ := List.mem_map.1 hmem
        exact absurd heq (Nat.ne_of_lt (hlt o ho))
      · rw [← List.map_append, ← hall]
        exact ht
    · obtain rfl | ho := mem_all_withCallable ho
      · exact Nat.lt_succ_self i
      · exact Nat.lt_succ_of_lt (hlt o ho)

end Fills

/-- Items fill a table if their globals have names of their own and their callables differ. -/
theorem exists_fills (hn : ∀ it ∈ its, Annotations.NormalItem it)
    (hg : ((t.globals ++ its.filterMap globalEntry).map Prod.fst).Nodup)
    (ho : ∀ kind name,
      (t.overloads kind name ++ (its.zipIdx i).filterMap (overloadAt kind name)).Pairwise fun o p =>
        o.sig ≠ p.sig) : ∃ t', Fills i its t t' := by
  induction its generalizing i t with
  | nil => exact ⟨t, .nil⟩
  | cons it its ih =>
    obtain ⟨hit, hits⟩ := List.forall_mem_cons.1 hn
    cases it with
    | synonym s =>
      obtain ⟨t', h⟩ := ih hits hg ho
      exact ⟨t', .synonym h⟩
    | global d =>
      obtain ⟨ty, hty, -⟩ := hit
      have hentry : globalEntry (.global d) = some (d.name, ⟨ty, d.loc⟩) := by
        rw [globalEntry, hty]; rfl
      rw [List.filterMap_cons_some hentry, List.append_cons] at hg
      obtain ⟨t', h⟩ := ih (t := withGlobal t d ty) hits hg ho
      refine ⟨t', .global hty (lookup_eq_none_iff_not_mem.2 fun hmem => ?_) h⟩
      rw [List.map_append, List.map_append] at hg
      have hone := (List.nodup_append.1 hg).1
      rw [List.map_singleton, List.nodup_append] at hone
      exact hone.2.2 d.name hmem d.name List.mem_cons_self rfl
    | fn f =>
      obtain ⟨sig, hsig, hplain⟩ := hit.sig
      obtain ⟨t', h⟩ :=
        ih (i := i + 1) (t := withCallable t f (overloadOf f sig i)) hits hg fun kind name => by
        rw [overloads_cons hsig]
        exact ho kind name
      refine ⟨t', .fn hsig hplain.length (fun o hmem => ?_) h⟩
      have hpair := ho f.kind f.name
      rw [← overloads_cons hsig, overloads_withCallable, if_pos ⟨rfl, rfl⟩] at hpair
      exact (List.pairwise_append.1 (List.pairwise_append.1 hpair).1).2.2 o hmem _
        List.mem_cons_self

end Declarations

/-! ## Scoping -/

/-- An overload with the variables of its body, if they are given. -/
def LocalOverload.withLocals (locals : Option Scope) (o : LocalOverload) : LocalOverload :=
  { o with locals := locals.getD o.locals }

/-- A table with the variables of the body that an item has, if they are given. -/
def ModuleTable.enter (t : ModuleTable) (i : Nat) (locals : Option Scope) : ModuleTable :=
  locals.elim t (t.setLocals i)

namespace Scoping

/-- Tags the variables of the item at some place, and tells the variables of its body. -/
def itemAt (externals : ExternalTable) (t : ModuleTable) (i : Nat) :
    Item → Noted (Item × Option Scope)
  | .synonym s => pure (.synonym s, none)
  | .global d => do return (.global (← global t externals d), none)
  | .fn f =>
    match t.overloadForItem i with
    | none => pure (.fn f, none)
    | some o => do
      let (stmts, locals) ← (Stmt.rewriteAll (body t externals o.args) f.body).run []
      return (.fn { f with body := stmts }, some locals)

section
variable {externals : ExternalTable} {t u : ModuleTable}

/-- Of the table an item sees the globals and its own parameters. -/
theorem itemAt_congr {i j : Nat} (hg : u.globals = t.globals)
    (ha : (u.overloadForItem j).map LocalOverload.args =
      (t.overloadForItem i).map LocalOverload.args) :
    itemAt externals u j = itemAt externals t i := by
  funext it
  cases it with
  | synonym s => rfl
  | global d => rw [itemAt, itemAt, global_congr hg]
  | fn f =>
    rw [itemAt, itemAt]
    cases ho : t.overloadForItem i with
    | none =>
      rw [ho] at ha
      rw [Option.map_eq_none_iff.1 ha]
    | some o =>
      rw [ho] at ha
      obtain ⟨o', ho', hargs⟩ := Option.map_eq_some_iff.1 ha
      simp only [ho', body_congr hg, hargs]

theorem items_cons (i : Nat) (it : Item) (its : List Item) (t : ModuleTable) :
    items externals i (it :: its) t = (do
      let r ← itemAt externals t i it
      let rest ← items externals (i + 1) its (t.enter i r.2)
      return (r.1 :: rest.1, rest.2)) := by
  cases it with
  | synonym | global => simp [items, itemAt, ModuleTable.enter]
  | fn f => rw [items, itemAt]; cases t.overloadForItem i <;> simp [ModuleTable.enter]

theorem itemAt_enter {i j : Nat} (h : j ≠ i) (locals : Option Scope) :
    itemAt externals (t.enter i locals) j = itemAt externals t j := by
  cases locals with
  | none => rfl
  | some locals =>
    refine itemAt_congr rfl ?_
    rw [ModuleTable.enter, Option.elim, ModuleTable.overloadForItem_setLocals, if_neg h]

/-- The pass goes through the items one by one, each as the table was before the pass. -/
theorem items_eq (i : Nat) (its : List Item) (u : ModuleTable)
    (hu : ∀ j, i ≤ j → itemAt externals u j = itemAt externals t j) :
    items externals i its u =
      ⟨((its.zipIdx i).map fun x => (itemAt externals t x.2 x.1).value.1,
          (its.zipIdx i).foldl (fun u x => u.enter x.2 (itemAt externals t x.2 x.1).value.2) u),
        (its.zipIdx i).flatMap fun x => (itemAt externals t x.2 x.1).notes⟩ := by
  induction its generalizing i u with
  | nil => rfl
  | cons it its ih =>
    have hrest := ih (i + 1) (u.enter i (itemAt externals t i it).value.2) fun j hj => by
      rw [itemAt_enter (by omega), hu j (by omega)]
    rw [items_cons, hu i (Nat.le_refl i), List.zipIdx_cons]
    refine Noted.ext ?_ ?_
    · simp only [Noted.value_bind, Noted.value_pure, hrest, List.map_cons, List.foldl_cons]
    · simp only [Noted.notes_bind, Noted.notes_pure, hrest, List.flatMap_cons, List.append_nil]

end

end Scoping

namespace ModuleTable

/-- A table whose overloads have the variables of their bodies, which are given by the place of the
item. -/
def settle (locals : Nat → Option Scope) (t : ModuleTable) : ModuleTable :=
  { t with functions := t.functions.mapSets fun _ o => o.withLocals (locals o.item) }

variable {t : ModuleTable}

theorem Placed.settle (h : t.Placed) (locals : Nat → Option Scope) : (t.settle locals).Placed := by
  rw [Placed, ModuleTable.settle, Callables.all_mapSets, List.map_map]
  exact h

theorem settle_none (t : ModuleTable) : t.settle (fun _ => none) = t := by
  have hnone : LocalOverload.withLocals none = id := rfl
  simp [settle, Callables.mapSets, hnone]

theorem Placed.enter_eq (h : t.Placed) (i : Nat) (locals : Option Scope) :
    t.enter i locals = t.settle fun j => if j = i then locals else none := by
  cases locals with
  | none => simp only [enter, Option.elim, ite_self, settle_none]
  | some locals =>
    rw [enter, Option.elim, h.setLocals_eq, ModuleTable.settle]
    congr 2
    funext _ o
    split <;> rfl

theorem settle_settle (f g : Nat → Option Scope) (t : ModuleTable) :
    (t.settle f).settle g = t.settle fun j => (g j).or (f j) := by
  simp only [settle, Callables.mapSets_mapSets]
  congr 2
  funext _ o
  cases hg : g o.item <;> simp [LocalOverload.withLocals, hg]

end ModuleTable

namespace Scoping

variable {externals : ExternalTable} {t : ModuleTable}

theorem foldl_enter {g : Nat → Item → Option Scope} (i : Nat) (its : List Item) (h : t.Placed) :
    (its.zipIdx i).foldl (fun u x => u.enter x.2 (g x.2 x.1)) t =
      t.settle fun j => if i ≤ j then its[j - i]?.bind (g j) else none := by
  induction its generalizing i t with
  | nil =>
    simp only [List.zipIdx_nil, List.foldl_nil, List.getElem?_nil, Option.bind_none, ite_self,
      t.settle_none]
  | cons it its ih =>
    rw [List.zipIdx_cons, List.foldl_cons, h.enter_eq, ih (i + 1) (h.settle _),
      ModuleTable.settle_settle]
    congr 1
    funext j
    obtain hlt | rfl | hgt := Nat.lt_trichotomy j i
    · rw [if_neg (by omega), if_neg (by omega), if_neg (by omega)]
      rfl
    · rw [if_neg (by omega), if_pos rfl, if_pos (Nat.le_refl j), Nat.sub_self]
      rfl
    · rw [if_pos (by omega), if_neg (by omega), if_pos (by omega), Option.or_none]
      obtain ⟨k, rfl⟩ := Nat.exists_eq_add_of_lt hgt
      congr 1
      rw [show i + k + 1 - i = k + 1 by omega, show i + k + 1 - (i + 1) = k by omega]
      rfl

/-- The variables of the body of the item at some place. -/
def localsAt (externals : ExternalTable) (t : ModuleTable) (its : List Item) (i : Nat) :
    Option Scope :=
  its[i]?.bind fun it => (itemAt externals t i it).value.2

theorem resolve_eq (h : t.Placed) (p : Program) : resolve externals p t =
    ⟨({ p with items := p.items.zipIdx.map fun x => (itemAt externals t x.2 x.1).value.1 },
        t.settle (localsAt externals t p.items)),
      p.items.zipIdx.flatMap fun x => (itemAt externals t x.2 x.1).notes⟩ := by
  have htable :
      (p.items.zipIdx.foldl (fun u x => u.enter x.2 (itemAt externals t x.2 x.1).value.2) t) =
      t.settle (localsAt externals t p.items) := by
    rw [foldl_enter 0 p.items h (g := fun i it => (itemAt externals t i it).value.2)]
    simp only [Nat.zero_le, if_true, Nat.sub_zero]
    rfl
  rw [resolve, items_eq 0 p.items t fun _ _ => rfl]
  exact Noted.ext (by simp [htable]) (by simp)

end Scoping

/-! ## The tables of an accepted program -/

namespace Accepted

variable {p : Program} {o : Options} {externals : ExternalTable} {t : ModuleTable}

theorem placed (h : Accepted externals o p t) : t.Placed :=
  h.fills.placed List.nodup_nil (List.forall_mem_nil _)

theorem placed_tagged (h : Accepted externals o p t) :
    (Scoping.resolve externals p t).value.2.Placed := by
  rw [Scoping.resolve_eq h.placed]
  exact h.placed.settle _

end Accepted

end SplFrontend
