import SplFrontend.Proofs.Recorded

/-!
# Initializers of globals

A global is initialized before anything of its module runs, so its initializer must not depend on
what is not there yet. It calls nothing but constant callables from elsewhere, and of the globals of
the module it reads only those that are declared before it (`Expr.Constant`). Hence one pass over
the declarations gives each global its value, and what an initializer is worth does not change while
the pass goes on (`VarDecl.evaluate`).

Which globals an initializer reads is settled by scoping, which looks a name up among the globals
before the one at hand. Grouping and checking leave the references alone. What it calls is known
only after checking.
-/

namespace SplFrontend

mutual

/-- Initializers whose own globals satisfy `P`. There is no rule for calls of the module's own
callables, nor for variables of a function. -/
inductive Expr.Constant (externals : ExternalTable) (P : String → Prop) : Expr → Prop
  | int {n l} : Expr.Constant externals P (.int n l)
  | char {c l} : Expr.Constant externals P (.char c l)
  | bool {b l} : Expr.Constant externals P (.bool b l)
  | str {s l} : Expr.Constant externals P (.str s l)
  | emptyList {ty l} : Expr.Constant externals P (.emptyList ty l)
  | pair {a b l} : Expr.Constant externals P a → Expr.Constant externals P b →
      Expr.Constant externals P (.pair a b l)
  | own {v name} : v.ref = .own name → P name → Expr.Constant externals P (.var v)
  | imported {v name e} :
    externals.globals.lookup name = some e → v.ref = .imported e.module name e.exported →
      Expr.Constant externals P (.var v)
  | bound {b o args l} :
    b.module = some o.module → (externals.overloads b.kind b.name)[b.index]? = some o →
      o.constant = true → Expr.ConstantArgs externals P args →
        Expr.Constant externals P (.bound b args l)

/-- Arguments of calls in initializers. -/
inductive Expr.ConstantArgs (externals : ExternalTable) (P : String → Prop) : List Expr → Prop
  | nil : Expr.ConstantArgs externals P []
  | cons {a as} : Expr.Constant externals P a → Expr.ConstantArgs externals P as →
      Expr.ConstantArgs externals P (a :: as)

end

/-! ## One pass over the declarations -/

/-- What the parts of initializers stand for. -/
structure Meaning (α : Type) where
  int : Nat → α
  char : Char → α
  bool : Bool → α
  str : String → α
  emptyList : α
  pair : α → α → α
  access : List Accessor → α → α
  /-- The globals of other modules. -/
  global : (module exported : String) → α
  /-- The constant callables. -/
  call : ExternalOverload → List α → α

section

variable {α : Type} (m : Meaning α) (externals : ExternalTable)

/-- What a reference in an initializer stands for, if the global has a value already. -/
def Ref.value? (known : List (String × α)) : Ref → Option α
  | .own name => known.lookup name
  | .imported module _ exported => some (m.global module exported)
  | _ => none

mutual

/-- The value of an initializer, by the values of the globals that have one. Calls have a value only
if they are bound to constant callables from elsewhere. -/
def Expr.value? (known : List (String × α)) : Expr → Option α
  | .int n _ => some (m.int n)
  | .char c _ => some (m.char c)
  | .bool b _ => some (m.bool b)
  | .str s _ => some (m.str s)
  | .emptyList .. => some m.emptyList
  | .pair a b _ => do return m.pair (← a.value? known) (← b.value? known)
  | .var v => (v.ref.value? m known).map (m.access v.accessors)
  | .bound b args _ => do
    let o ← (externals.overloads b.kind b.name)[b.index]?
    if b.module = some o.module ∧ o.constant then
      return m.call o (← Expr.values? known args) else none
  | .flat .. | .call .. => none

/-- The values of arguments. -/
def Expr.values? (known : List (String × α)) : List Expr → Option (List α)
  | [] => some []
  | a :: as => do return (← a.value? known) :: (← Expr.values? known as)

end

/-- Evaluates the initializers one after the other, each by the values before it. -/
def VarDecl.evaluate (known : List (String × α)) : List VarDecl → Option (List (String × α))
  | [] => some known
  | d :: ds => do VarDecl.evaluate (known ++ [(d.name, ← d.init.value? m externals known)]) ds

end

section

variable {α : Type} {m : Meaning α} {externals : ExternalTable} {known known' : List (String × α)}

mutual

/-- An initializer that has a value keeps it when more globals get one. -/
theorem Expr.value?_mono (h : ∀ {n x}, known.lookup n = some x → known'.lookup n = some x) :
    ∀ {e : Expr} {x : α}, e.value? m externals known = some x → e.value? m externals known' = some x
  | .int .., _, he | .char .., _, he | .bool .., _, he | .str .., _, he | .emptyList .., _, he => he
  | .pair a b _, _, he => by
    simp only [Expr.value?, bind, Option.bind_eq_some_iff] at he ⊢
    obtain ⟨x, hx, y, hy, hxy⟩ := he
    exact ⟨x, Expr.value?_mono h hx, y, Expr.value?_mono h hy, hxy⟩
  | .var v, _, he => by
    rw [Expr.value?, Option.map_eq_some_iff] at he ⊢
    obtain ⟨x, hx, hxy⟩ := he
    refine ⟨x, ?_, hxy⟩
    cases hr : v.ref with
    | own name =>
      rw [hr] at hx
      exact h hx
    | _ => rwa [hr] at hx
  | .bound b args _, _, he => by
    simp only [Expr.value?, bind, Option.bind_eq_some_iff] at he ⊢
    obtain ⟨o, ho, he⟩ := he
    refine ⟨o, ho, ?_⟩
    split at he
    · next hc =>
      obtain ⟨xs, hxs, hx⟩ := Option.bind_eq_some_iff.1 he
      rw [if_pos hc]
      exact Option.bind_eq_some_iff.2 ⟨xs, Expr.values?_mono h hxs, hx⟩
    · cases he

theorem Expr.values?_mono (h : ∀ {n x}, known.lookup n = some x → known'.lookup n = some x) :
    ∀ {es : List Expr} {xs : List α},
      Expr.values? m externals known es = some xs → Expr.values? m externals known' es = some xs
  | [], _, hes => hes
  | e :: es, _, hes => by
    simp only [Expr.values?, bind, Option.bind_eq_some_iff] at hes ⊢
    obtain ⟨x, hx, xs, hxs, hes⟩ := hes
    exact ⟨x, Expr.value?_mono h hx, xs, Expr.values?_mono h hxs, hes⟩

end

mutual

/-- A constant initializer has a value once the globals that it reads have one. -/
theorem Expr.Constant.exists_value {P : String → Prop}
    (h : ∀ {n}, P n → ∃ x, known.lookup n = some x) :
    ∀ {e : Expr}, e.Constant externals P → ∃ x, e.value? m externals known = some x
  | _, .int | _, .char | _, .bool | _, .str | _, .emptyList => ⟨_, rfl⟩
  | _, .pair ha hb => by
    obtain ⟨x, hx⟩ := ha.exists_value h
    obtain ⟨y, hy⟩ := hb.exists_value h
    exact ⟨m.pair x y, by rw [Expr.value?, hx, hy]; rfl⟩
  | _, .own (v := v) hr hp => by
    obtain ⟨x, hx⟩ := h hp
    exact ⟨m.access v.accessors x, by rw [Expr.value?, hr, Ref.value?, hx]; rfl⟩
  | _, .imported _ hr => ⟨_, by rw [Expr.value?, hr, Ref.value?]; rfl⟩
  | _, .bound (o := o) hm ho hc hargs => by
    obtain ⟨xs, hxs⟩ := hargs.exists_values h
    refine ⟨m.call o xs, ?_⟩
    rw [Expr.value?, ho]
    show (if _ then _ else _) = _
    rw [if_pos ⟨hm, hc⟩, hxs]
    rfl

theorem Expr.ConstantArgs.exists_values {P : String → Prop}
    (h : ∀ {n}, P n → ∃ x, known.lookup n = some x) :
    ∀ {es : List Expr}, Expr.ConstantArgs externals P es →
      ∃ xs, Expr.values? m externals known es = some xs
  | _, .nil => ⟨[], rfl⟩
  | _, .cons ha has => by
    obtain ⟨x, hx⟩ := ha.exists_value h
    obtain ⟨xs, hxs⟩ := has.exists_values h
    exact ⟨x :: xs, by rw [Expr.values?, hx, hxs]; rfl⟩

end

/-- One pass gives every global a value, and in the end each is what its initializer is worth. -/
theorem VarDecl.exists_evaluate {ds : List VarDecl} : ∀ known : List (String × α),
    (known.map Prod.fst ++ ds.map VarDecl.name).Nodup →
    (∀ before d after, ds = before ++ d :: after →
      d.init.Constant externals (· ∈ known.map Prod.fst ++ before.map VarDecl.name)) →
    ∃ values, VarDecl.evaluate m externals known ds = some (known ++ values) ∧
      values.map Prod.fst = ds.map VarDecl.name ∧
      ∀ d ∈ ds, d.init.value? m externals (known ++ values) = (known ++ values).lookup d.name := by
  induction ds with
  | nil => exact fun _ _ _ => ⟨[], by rw [List.append_nil, evaluate], rfl, List.forall_mem_nil _⟩
  | cons d ds ih =>
    intro known hnames hconstant
    have hd := hconstant [] d ds rfl
    rw [List.map_nil, List.append_nil] at hd
    have hlookup : ∀ {n}, n ∈ known.map Prod.fst → ∃ x, known.lookup n = some x := fun hn =>
      Option.ne_none_iff_exists'.1 fun hnone => lookup_eq_none_iff_not_mem.1 hnone hn
    obtain ⟨x, hx⟩ := hd.exists_value (m := m) hlookup
    have hnames' : ((known ++ [(d.name, x)]).map Prod.fst ++ ds.map VarDecl.name).Nodup := by
      simpa using hnames
    obtain ⟨values, hvalues, hfst, hall⟩ := ih _ hnames' fun before d' after heq => by
      simpa using hconstant (d :: before) d' after (by rw [heq, List.cons_append])
    rw [List.append_assoc, List.singleton_append] at hvalues hall
    refine ⟨(d.name, x) :: values, ?_, by rw [List.map_cons, List.map_cons, hfst], ?_⟩
    · rw [evaluate, hx]
      exact hvalues
    · refine List.forall_mem_cons.2 ⟨?_, hall⟩
      -- the name is new, so its value is the one that was just found
      have hnew : known.lookup d.name = none := lookup_eq_none_iff_not_mem.2 fun hmem =>
        List.disjoint_of_nodup_append hnames hmem List.mem_cons_self
      have hkept : d.init.value? m externals (known ++ (d.name, x) :: values) = some x :=
        Expr.value?_mono (fun hn => by rw [List.lookup_append, hn]; rfl) hx
      rw [hkept, List.lookup_append, hnew, List.lookup_cons_self]
      rfl

end

/-! ## What an initializer reads -/

theorem Program.mem_globals {p : Program} {d : VarDecl} : d ∈ p.globals ↔ .global d ∈ p.items := by
  rw [globals, List.mem_filterMap]
  constructor
  · rintro ⟨it, hit, heq⟩
    cases it with
    | synonym | fn => cases heq
    | global d' =>
      cases heq
      exact hit
  · exact fun h => ⟨_, h, rfl⟩

theorem Scope.Lists.names_eq {scope : Scope} {ds : List VarDecl} (h : scope.Lists ds) :
    scope.map Prod.fst = ds.map VarDecl.name := by
  have hnames := congrArg (List.map Prod.fst) h
  rwa [List.map_map, List.map_map] at hnames

/-- Every variable refers to what its name leads to in the initializer of the global. -/
abbrev Nodes.foundBefore (t : ModuleTable) (externals : ExternalTable) (global : String) : Nodes :=
  .found (Scoping.inGlobal t externals ((t.globalIndex global).getD t.globals.length))

/-- Initializers refer to what their names lead to. -/
def Item.Found (t : ModuleTable) (externals : ExternalTable) : Item → Prop
  | .global d => d.init.All (.foundBefore t externals d.name)
  | .synonym _ | .fn _ => True

section

variable {t : ModuleTable} {externals : ExternalTable}

theorem Scope.Lists.globalIndex_eq {ds : List VarDecl} (h : Scope.Lists t.globals ds)
    (name : String) :
    t.globalIndex name = (ds.map VarDecl.name).findIdx? (· = name) := by
  rw [← h.names_eq, List.findIdx?_map]
  rfl

/-- The index of a global is at most the number of the globals before it. -/
theorem Scope.Lists.exists_globalIndex {before after : List VarDecl} {d : VarDecl}
    (h : Scope.Lists t.globals (before ++ d :: after)) :
    ∃ k ≤ before.length, t.globalIndex d.name = some k := by
  rw [h.globalIndex_eq, List.map_append, List.findIdx?_append]
  cases hk : (before.map VarDecl.name).findIdx? (· = d.name) with
  | none => exact ⟨before.length, le_refl _, by simp [List.findIdx?_cons]⟩
  | some k =>
    obtain ⟨hlt, -⟩ := List.findIdx?_eq_some_iff_getElem.1 hk
    rw [List.length_map] at hlt
    exact ⟨k, hlt.le, rfl⟩

/-- A name that leads to a global of the module is declared before the global at hand. -/
theorem Scoping.mem_of_inGlobal {before after : List VarDecl} {d : VarDecl}
    (h : Scope.Lists t.globals (before ++ d :: after)) {name : String}
    (hown : inGlobal t externals ((t.globalIndex d.name).getD t.globals.length) name =
      some (.own name)) :
    name ∈ before.map VarDecl.name := by
  obtain ⟨k, hk, hlimit⟩ := h.exists_globalIndex
  rw [inGlobal, hlimit] at hown
  split at hown
  · next hany =>
    obtain ⟨j, hj, hlt⟩ := (Option.any_eq_true _ _).1 hany
    have hlt : j < k := of_decide_eq_true hlt
    rw [h.globalIndex_eq, List.map_append, List.findIdx?_append, Option.or_eq_some_iff] at hj
    obtain hj | ⟨-, hj⟩ := hj
    · obtain ⟨_, hname, -⟩ := List.findIdx?_eq_some_iff_getElem.1 hj
      exact of_decide_eq_true hname ▸ List.getElem_mem _
    · obtain ⟨_, -, rfl⟩ := Option.map_eq_some_iff.1 hj
      rw [List.length_map] at hlt
      omega
  · obtain ⟨_, -, heq⟩ := Option.map_eq_some_iff.1 hown
    cases heq

theorem Scoping.Tags.found {i : Nat} {its its' : List Item} {t' : ModuleTable}
    (h : Tags externals NotError i its t its' t') (hfresh : ∀ it ∈ its, it.All .fresh) :
    ∀ it' ∈ its', it'.Found t externals := by
  intro it' hit'
  obtain ⟨j, hj⟩ := List.mem_iff_getElem?.1 hit'
  obtain ⟨it, hit, htag⟩ := h.getElem? hj
  cases it with
  | synonym s =>
    cases htag
    trivial
  | fn f =>
    obtain ⟨o, b, locals, -, -, rfl, -⟩ := htag
    trivial
  | global d =>
    obtain ⟨rfl, hn⟩ := htag
    rw [global_eq] at hn ⊢
    exact all_expr (turns_found (fun _ => rfl) name_inGlobal) (hfresh _ (List.mem_of_getElem? hit))
      (List.forall_mem_append.1 hn).2

theorem Precedence.found_item {v : Visible} {it : Item} (h : it.Found t externals) :
    (item v it).value.Found t externals := by
  cases it with
  | synonym s | fn f => trivial
  | global d => exact all_expr (F := True) (P := fun _ => True) (.inl trivial) h fun _ _ => trivial

theorem Item.found_of_erase {it it' : Item} (heq : it'.erase .typing = it.erase .typing)
    (h : it.Found t externals) : it'.Found t externals := by
  have hN : ∀ name, (Nodes.foundBefore t externals name).Ignores .typing := fun _ =>
    ⟨rfl, fun _ => Iff.rfl, fun _ => Iff.rfl, fun _ _ _ => trivial⟩
  cases it' with
  | synonym s | fn f => trivial
  | global d' =>
    cases it with
    | synonym s | fn f => cases heq
    | global d =>
      obtain ⟨hname, -, hinit, -⟩ := VarDecl.mk.inj (Item.global.inj heq)
      show d'.init.All (.foundBefore t externals d'.name)
      rw [← Expr.all_erase (hN _), hinit, hname, Expr.all_erase (hN _)]
      exact h

/-! ## What an initializer calls -/

theorem Typing.item_of_items {v : Visible} :
    ∀ {i : Nat} {its : List Item}, items v i its = pure its →
    ∀ it ∈ its, ∃ j, item v j it = pure it
  | _, [], _, _, hit => by cases hit
  | i, first :: rest, h, it, hit => by
    simp only [items, Noted.bind_eq_pure_iff, Noted.pure_inj] at h
    obtain ⟨_, hfirst, _, hrest, heq⟩ := h
    cases heq
    obtain rfl | hit := List.mem_cons.1 hit
    · exact ⟨i, hfirst⟩
    · exact item_of_items hrest it hit

theorem Typing.constants_of_global {v : Visible} {d : VarDecl} (hty : d.ty.isSome = true)
    (h : global v d = pure d) : constants v d.init = [] := by
  have hvalue := congrArg Noted.value h
  have hnotes := congrArg Noted.notes h
  rw [global_eq] at hvalue hnotes
  have hvalue : (declared ⟨v, none⟩ d).value = d := hvalue
  rw [hty, if_pos rfl, hvalue] at hnotes
  exact (List.append_eq_nil_iff.1 hnotes).2

/-- A binding to a constant overload is one to an overload from elsewhere. -/
theorem Visible.external_of_constant {v : Visible} {b : Binding} {sig : Signature}
    (h : v.Designates b sig) (hc : (v.target b).any Candidate.constant = true) :
    ∃ o, b.module = some o.module ∧ (v.externals.overloads b.kind b.name)[b.index]? = some o ∧
      o.constant = true := by
  cases h with
  | own hm ho _ =>
    simp only [target, hm, getElem?_localCandidates, ho] at hc
    cases hc
  | @external o hm ho _ =>
    simp only [target, hm, getElem?_externalCandidates, ho] at hc
    exact ⟨o, hm, ho, hc⟩

mutual

/-- A typed initializer is constant if no call is reported and its references are found. -/
theorem HasType.constant {v : Visible} {lookup : String → Option Ref} {P : String → Prop}
    (hP : ∀ {n}, lookup n = some (.own n) → P n) : ∀ {e : Expr} {ty : Ty}, HasType ⟨v, none⟩ e ty →
      Typing.constants v e = [] → e.All (.found lookup) → e.Constant v.externals P
  | _, _, .int, _, _ => .int
  | _, _, .char, _, _ => .char
  | _, _, .bool, _, _ => .bool
  | _, _, .str, _, _ => .str
  | _, _, .emptyList, _, _ => .emptyList
  | _, _, .pair ha hb, hc, hf => by
    rw [Typing.constants, List.append_eq_nil_iff] at hc
    exact .pair (ha.constant hP hc.1 hf.1) (hb.constant hP hc.2 hf.2)
  | _, _, .var ⟨_, hrefers, _⟩, _, hf => by
    have hf : lookup _ = some _ := hf
    generalize hr : Variable.ref _ = r at hrefers hf
    cases hrefers with
    | own _ => exact .own hr (hP hf)
    | imported he => exact .imported he hr
    | localVar hs _ | argument hs _ => cases hs
  | _, _, .bound hd hargs _, hc, hf => by
    rw [Typing.constants, List.append_eq_nil_iff] at hc
    obtain ⟨hcall, hcargs⟩ := hc
    split at hcall
    · next hany =>
      obtain ⟨o, hm, ho, hconstant⟩ := Visible.external_of_constant hd hany
      exact .bound hm ho hconstant (hargs.constant hP hcargs hf.2)
    · cases hcall

theorem HasTypes.constant {v : Visible} {lookup : String → Option Ref} {P : String → Prop}
    (hP : ∀ {n}, lookup n = some (.own n) → P n) :
    ∀ {es : List Expr} {tys : List Ty}, HasTypes ⟨v, none⟩ es tys →
      Typing.constantArgs v es = [] → Expr.AllArgs (.found lookup) es →
        Expr.ConstantArgs v.externals P es
  | _, _, .nil, _, _ => .nil
  | _, _, .cons ha has, hc, hf => by
    rw [Typing.constantArgs, List.append_eq_nil_iff] at hc
    exact .cons (ha.constant hP hc.1 hf.1) (has.constant hP hc.2 hf.2)

end

end

/-! ## Resolved modules -/

section

variable {text : String} {p : Program} {headers : HeaderTexts} {o : Options}
  (hp : Program.ofText text = .ok p) (h : ∀ d ∈ (stages p headers o).notes, NotError d)

include hp h

/-- The references that scoping has found stay. -/
theorem found_checked : ∀ it ∈ (stages p headers o).checked.value.items,
    it.Found (stages p headers o).declared.value.2 (stages p headers o).externals := by
  have hfresh := (Program.printable_of_ofText hp).2.all
  have htagged := (tags_declared h).found (declared_fresh hfresh)
  have herase :
      (stages p headers o).checked.value.erase .typing =
        (stages p headers o).grouped.value.erase .typing := by
    rw [checked_stages]
    exact (Typing.erase_resolve rfl (sound_grouped hp _).fits).1
  intro it hit
  have hmem := List.mem_map_of_mem (f := Item.erase .typing) hit
  rw [(Program.mk.inj herase).2] at hmem
  obtain ⟨grouped, hgrouped, heq⟩ := List.mem_map.1 hmem
  rw [grouped_stages, Precedence.items_resolve] at hgrouped
  obtain ⟨tagged, hmem, rfl⟩ := List.mem_map.1 hgrouped
  exact Item.found_of_erase heq.symm (Precedence.found_item (htagged tagged hmem))

/-- Checking the resolved program once more reports no call. -/
theorem constants_checked {d : VarDecl} (hd : .global d ∈ (stages p headers o).checked.value.items)
    (hty : d.ty.isSome = true) : Typing.constants (stages p headers o).visible d.init = [] := by
  have hagain := typing_checked (Program.printable_of_ofText hp).2.all h
  simp only [Typing.resolve, Noted.bind_eq_pure_iff, Noted.pure_inj] at hagain
  obtain ⟨its, hits, heq⟩ := hagain
  obtain rfl : its = (stages p headers o).checked.value.items := congrArg Program.items heq
  obtain ⟨j, hj⟩ := Typing.item_of_items hits _ hd
  simp only [Typing.item, Noted.bind_eq_pure_iff, Noted.pure_inj] at hj
  obtain ⟨d', hglobal, heq⟩ := hj
  cases heq
  exact Typing.constants_of_global hty hglobal

/-- The initializers of the resolved program are constant, and what they read is declared before
them. -/
theorem constant_checked {before after : List VarDecl} {d : VarDecl}
    (hd : (stages p headers o).checked.value.globals = before ++ d :: after) :
    d.init.Constant (stages p headers o).externals (· ∈ before.map VarDecl.name) := by
  have hmem : .global d ∈ (stages p headers o).checked.value.items :=
    Program.mem_globals.1 (hd ▸ List.mem_append_right _ List.mem_cons_self)
  have hlists := (accepted_checked h).lists_globals
  rw [hd] at hlists
  obtain ⟨i, hi⟩ := List.mem_iff_getElem?.1 hmem
  obtain ⟨ty, hty, -, htyped⟩ := meets_typed_checked (Program.printable_of_ofText hp).2.all h i _ hi
  have hcalls := constants_checked hp h hmem (by rw [hty]; rfl)
  have hfound : d.init.All (.foundBefore _ _ d.name) := found_checked hp h _ hmem
  have hconstant := htyped.constant (fun hown => Scoping.mem_of_inGlobal hlists hown) hcalls hfound
  -- the passes need not be run to see which table this is
  generalize stages p headers o = s at hconstant ⊢
  exact hconstant

end

/-- Initializers are constant and in order: every call in one, however deep, is bound to a constant
overload from elsewhere, and every global of the module in it is declared before. So they can be
evaluated in one pass, whatever the constant callables compute. -/
theorem Resolved.constant_of_compile {text : String} {headers : HeaderTexts} {o : Options}
    {r : Resolved} (h : compile text headers o = .ok r) :
    (r.program.globals.map VarDecl.name).Nodup ∧
    (∀ before d after, r.program.globals = before ++ d :: after →
      d.init.Constant r.externals (· ∈ before.map VarDecl.name)) ∧
    ∀ (α : Type) (m : Meaning α), ∃ values,
      VarDecl.evaluate m r.externals [] r.program.globals = some values ∧
      values.map Prod.fst = r.program.globals.map VarDecl.name ∧
      ∀ d ∈ r.program.globals, d.init.value? m r.externals values = values.lookup d.name := by
  obtain ⟨p, hp, hr⟩ := bind_eq_ok_iff.1 h
  obtain ⟨hadmitted, rfl⟩ := resolve_eq_ok_iff.1 hr
  have hnotes : ∀ d ∈ (stages p headers o).notes, NotError d := fun d hd => (hadmitted d hd).1
  have haccepted := accepted_checked hnotes
  have hnames := haccepted.lists_globals.names_eq ▸ haccepted.fills.nodup_globals List.nodup_nil
  have hconstant :
      ∀ before d after, (stages p headers o).checked.value.globals = before ++ d :: after →
      d.init.Constant (stages p headers o).externals (· ∈ before.map VarDecl.name) :=
    fun _ _ _ hd => constant_checked hp hnotes hd
  simp only [Stages.resolved]
  exact ⟨hnames, hconstant, fun _ _ => VarDecl.exists_evaluate [] hnames hconstant⟩

/-- Calls in calls and in pairs, and a global that reads two others. -/
theorem Resolved.constant_of_compile_sample : ∃ r,
    compile "Int a = 1; (Int, [Int]) b = (a + 2 * -a, a : []); Bool c = a < b.fst;" []
      { module := "m" } = .ok r ∧
    (r.program.globals.map VarDecl.name).Nodup ∧
    (∀ before d after, r.program.globals = before ++ d :: after →
      d.init.Constant r.externals (· ∈ before.map VarDecl.name)) ∧
    ∀ (α : Type) (m : Meaning α), ∃ values,
      VarDecl.evaluate m r.externals [] r.program.globals = some values ∧
      values.map Prod.fst = r.program.globals.map VarDecl.name ∧
      ∀ d ∈ r.program.globals, d.init.value? m r.externals values = values.lookup d.name :=
  exists_ok_of_isOk (by decide +kernel) fun _ h => Resolved.constant_of_compile h

end SplFrontend
