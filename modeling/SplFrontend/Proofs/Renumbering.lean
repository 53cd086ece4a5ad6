import Mathlib.Data.List.Perm.Basic
import Mathlib.Data.List.Nodup
import SplFrontend.Flow
import SplFrontend.Proofs.Relabel
import SplFrontend.Proofs.Typing

/-!
# Renumbered overloads

An overload is known by its place in an overload set. Two tables may hold the same overloads in
different orders; a `Renumbering` then takes the places in the one to the places in the other.
Checking by the second table gives what checking by the first one gives, renumbered: the same types,
the same errors, and the same trees but for the places in bindings.
-/

namespace SplFrontend

/-! ## Places in another order -/

section

variable {α β γ : Type} [DecidableEq β] {f : α → β} {l : List α} {l' : List β}

/-- The place in `l'` of what `f` makes of an element of `l`. -/
def reindex (f : α → β) (l : List α) (l' : List β) (i : Nat) : Nat :=
  match l[i]? with
  | some a => l'.idxOf (f a)
  | none => i

theorem reindex_of_getElem? {i : Nat} {a : α} (h : l[i]? = some a) :
    reindex f l l' i = l'.idxOf (f a) := by
  rw [reindex, h]

theorem getElem?_reindex (hp : l'.Perm (l.map f)) {i : Nat} {a : α} (h : l[i]? = some a) :
    l'[reindex f l l' i]? = some (f a) := by
  have hmem : f a ∈ l' := hp.mem_iff.2 (List.mem_map_of_mem (List.mem_of_getElem? h))
  rw [reindex_of_getElem? h, List.getElem?_eq_getElem (List.idxOf_lt_length_of_mem hmem),
    List.getElem_idxOf]

theorem reindex_self [DecidableEq α] (h : l.Nodup) (i : Nat) : reindex id l l i = i := by
  cases hi : l[i]? with
  | none => rw [reindex, hi]
  | some a =>
    obtain ⟨hlt, rfl⟩ := List.getElem?_eq_some_iff.1 hi
    rw [reindex_of_getElem? hi, id, h.idxOf_getElem]

omit [DecidableEq β] in
theorem map_mapIdx (f : β → γ) (g : Nat → α → β) (l : List α) :
    (l.mapIdx g).map f = l.mapIdx fun i a => f (g i a) :=
  List.ext_getElem (by simp) fun _ _ _ => by simp

/-- Lists that hold the same elements in different orders still do if each element is put together
with its place, up to the change of places. -/
theorem mapIdx_perm (hn : l'.Nodup) (hp : l'.Perm (l.map f)) {g : Nat → α → γ} {g' : Nat → β → γ}
    (hg : ∀ i a, g' (reindex f l l' i) (f a) = g i a) : (l'.mapIdx g').Perm (l.mapIdx g) := by
  have hright : l'.mapIdx g' = l'.map fun b => g' (l'.idxOf b) b := by
    refine List.ext_getElem (by simp) fun i hi hi' => ?_
    simp [hn.idxOf_getElem]
  have hleft : l.mapIdx g = (l.map f).map fun b => g' (l'.idxOf b) b := by
    refine List.ext_getElem (by simp) fun i hi hi' => ?_
    have hlt : i < l.length := by simpa using hi
    have hreindex : reindex f l l' i = l'.idxOf (f l[i]) :=
      reindex_of_getElem? (List.getElem?_eq_getElem hlt)
    simp [← hg, hreindex]
  rw [hright, hleft]
  exact hp.map _

end

/-! ## Renumbering -/

/-- Where the overloads of the module at hand and those from elsewhere have gone. -/
structure Renumbering where
  own : CallKind → String → Nat → Nat
  external : CallKind → String → Nat → Nat

namespace Renumbering

/-- The new place of an overload of a module. -/
def index (ρ : Renumbering) (module : Option String) (kind : CallKind) (name : String) (i : Nat) :
    Nat :=
  match module with
  | none => ρ.own kind name i
  | some _ => ρ.external kind name i

/-- A binding to the same overload at its new place. -/
def binding (ρ : Renumbering) (b : Binding) : Binding :=
  { b with index := ρ.index b.module b.kind b.name b.index }

/-- The same overload at its new place. -/
def candidate (ρ : Renumbering) (kind : CallKind) (name : String) (c : Candidate) : Candidate :=
  { c with index := ρ.index c.module kind name c.index }

/-- Changes the places in bindings and nothing else. -/
def relabel (ρ : Renumbering) : Relabel where
  var := id
  loc_var _ := rfl
  empty := id
  bound b := some (ρ.binding b)

end Renumbering

/-- The nodes of a tree without bound calls. -/
def Nodes.unbound : Nodes where
  var _ := True
  empty _ := True
  flat := True
  bound _ _ := False

section

variable {ρ : Renumbering}

mutual

theorem Expr.renumber_of_unbound : ∀ {e : Expr}, e.All .unbound → e.relabel ρ.relabel = e
  | .int .., _ | .char .., _ | .bool .., _ | .str .., _ | .emptyList .., _ | .var _, _ => rfl
  | .pair .., h => by rw [Expr.relabel, Expr.renumber_of_unbound h.1, Expr.renumber_of_unbound h.2]
  | .flat .., h => by
    rw [Expr.relabel, Expr.renumber_of_unbound h.2.1, Expr.renumberRest_of_unbound h.2.2]
  | .call .., h => by rw [Expr.relabel, Expr.renumberArgs_of_unbound h]
  | .bound .., h => h.1.elim

theorem Expr.renumberArgs_of_unbound : ∀ {es : List Expr}, Expr.AllArgs .unbound es →
    Expr.relabelArgs ρ.relabel es = es
  | [], _ => rfl
  | _ :: _, h => by
    rw [Expr.relabelArgs, Expr.renumber_of_unbound h.1, Expr.renumberArgs_of_unbound h.2]

theorem Expr.renumberRest_of_unbound : ∀ {rest : List (OpUse × Expr)}, Expr.AllRest .unbound rest →
    Expr.relabelRest ρ.relabel rest = rest
  | [], _ => rfl
  | (_, _) :: _, h => by
    rw [Expr.relabelRest, Expr.renumber_of_unbound h.1, Expr.renumberRest_of_unbound h.2]

end

theorem Place.renumber_of_unbound {p : Place} (h : p.All .unbound) : p.relabel ρ.relabel = p := by
  cases p with
  | decl d => rw [Place.relabel, VarDecl.relabel, Expr.renumber_of_unbound h]
  | assign v e | each v e =>
    rw [Place.relabel, Expr.renumber_of_unbound h.2]
    rfl
  | guard e | call e => rw [Place.relabel, Expr.renumber_of_unbound h]
  | ret l e =>
    cases e with
    | none => rfl
    | some e => rw [Place.relabel, Option.map_some, Expr.renumber_of_unbound (h e rfl)]

end

namespace Typing

/-! ## Deciding a call -/

/-- The element of a list with one element. -/
def single {α : Type} : List α → Option α
  | [a] => some a
  | _ => none

theorem single_map {α β : Type} (f : α → β) (l : List α) : single (l.map f) = (single l).map f := by
  rcases l with _ | ⟨a, _ | ⟨b, l⟩⟩ <;> rfl

theorem single_perm {α : Type} {l l' : List α} (h : l.Perm l') : single l = single l' := by
  rcases l with _ | ⟨a, _ | ⟨b, l⟩⟩
  · rw [h.nil_eq]
  · rw [List.singleton_perm.1 h]
  · have hlen := h.length_eq
    rcases l' with _ | ⟨a', _ | ⟨b', l'⟩⟩
    · cases hlen
    · cases hlen
    · rfl

theorem winner_eq (ts : List (Candidate × Trial)) :
    winner ts = (single ts).or (single (ts.filter (·.1.isLocal))) := by
  rcases ts with _ | ⟨t, _ | ⟨u, ts⟩⟩
  · rfl
  · rfl
  · simp only [winner, single, Option.none_or]
    generalize List.filter (fun x : Candidate × Trial => x.1.isLocal) (t :: u :: ts) = us
    rcases us with _ | ⟨x, _ | ⟨y, us⟩⟩ <;> rfl

theorem winner_perm {ts us : List (Candidate × Trial)} (h : ts.Perm us) :
    winner ts = winner us := by
  rw [winner_eq, winner_eq, single_perm h, single_perm (h.filter _)]

/-- What a change of candidates and of trials does to all trials. -/
def Trial.pair (r : Candidate → Candidate) (g : Trial → Trial) (x : Candidate × Trial) :
    Candidate × Trial :=
  (r x.1, g x.2)

section

variable {r : Candidate → Candidate} {g : Trial → Trial}

theorem winner_pair (hr : ∀ c, (r c).isLocal = c.isLocal) (ts : List (Candidate × Trial)) :
    winner (ts.map (Trial.pair r g)) = (winner ts).map (Trial.pair r g) := by
  have hfilter : (ts.map (Trial.pair r g)).filter (·.1.isLocal) =
      (ts.filter (·.1.isLocal)).map (Trial.pair r g) := by
    rw [List.filter_map]
    congr 2
    funext x
    exact hr x.1
  rw [winner_eq, winner_eq, hfilter, single_map, single_map, Option.map_or]

theorem trials_pair (hr : ∀ c, (r c).sig = c.sig) {attempt attempt' : List Ty → Option Trial}
    (ha : ∀ ps, attempt' ps = (attempt ps).map g) (cs : List Candidate) (count : Nat)
    (expected : Option Ty) :
    trials (cs.map r) count expected attempt' =
      (trials cs count expected attempt).map (Trial.pair r g) := by
  have hfilter :
      (cs.map r).filter (mayFit count expected) = (cs.filter (mayFit count expected)).map r := by
    rw [List.filter_map]
    congr 2
    funext c
    simp only [Function.comp_apply, mayFit, hr]
  simp only [trials, hfilter, List.filterMap_map, List.map_filterMap, Function.comp_def, hr, ha,
    Option.map_map, Trial.pair]

theorem trials_perm {cs cs' : List Candidate} (h : cs.Perm cs') (count : Nat) (expected : Option Ty)
    (attempt : List Ty → Option Trial) :
    (trials cs count expected attempt).Perm (trials cs' count expected attempt) :=
  (h.filter _).filterMap _

end

/-! ## Renumbered tables -/

/-- The second tables hold the overloads of the first ones, renumbered. -/
structure Renumbered (ρ : Renumbering) (v v' : Visible) : Prop where
  candidates : ∀ kind name,
    (v'.candidates kind name).Perm ((v.candidates kind name).map (ρ.candidate kind name))
  target : ∀ {b c}, v.target b = some c → v'.target (ρ.binding b) =
    some (ρ.candidate b.kind b.name c)

/-- The second context is the first one by renumbered tables. -/
structure Context.Renumbered (ρ : Renumbering) (cx cx' : Context) : Prop where
  visible : Typing.Renumbered ρ cx.visible cx'.visible
  declared : ∀ r, cx'.declared r = cx.declared r
  result : cx'.fn.map FnScope.result = cx.fn.map FnScope.result

/-- The same outcome with another tree. -/
def Checked.map {α β : Type} (f : α → β) (c : Checked α) : Checked β :=
  ⟨f c.value, c.ty, c.errors, c.tolerated⟩

theorem Checked.blocking_map {α β : Type} (f : α → β) (c : Checked α) :
    (c.map f).blocking = c.blocking := rfl

theorem Checked.noted_map {α β : Type} (f : α → β) (c : Checked α) :
    (c.map f).noted = f <$> c.noted := by
  apply Noted.ext <;> simp [noted, map]

/-- The same outcome with other arguments. -/
def Trial.renumber (ρ : Renumbering) (t : Trial) : Trial :=
  ⟨Expr.relabelArgs ρ.relabel t.args, t.errors⟩

variable {ρ : Renumbering}

theorem bound_renumber (kind : CallKind) (name : String) (l : Loc) (c : Candidate) (t : Trial) :
    bound kind name l (ρ.candidate kind name c) (t.renumber ρ) =
      (bound kind name l c t).map (Expr.relabel ρ.relabel) := by
  simp only [bound, Checked.map, Expr.relabel]
  rfl

theorem callOf_renumber {v v' : Visible} (h : Renumbered ρ v v')
    {attempt attempt' : List Ty → Option Trial}
    (ha : ∀ ps, attempt' ps = (attempt ps).map (Trial.renumber ρ))
    {types types' : Unit → List (Option Ty)} (ht : types' () = types ()) (kind : CallKind)
    (name : String) {args : List Expr} (hargs : Expr.AllArgs .unbound args) (l : Loc)
    (expected : Option Ty) :
    callOf v' kind name args l expected attempt' types' =
      (callOf v kind name args l expected attempt types).map (Expr.relabel ρ.relabel) := by
  have htrials := trials_perm (h.candidates kind name) args.length expected attempt'
  rw [trials_pair (r := ρ.candidate kind name) (fun _ => rfl) ha] at htrials
  have hempty : (v'.candidates kind name).isEmpty = (v.candidates kind name).isEmpty := by
    rw [(h.candidates kind name).isEmpty_eq, List.isEmpty_map]
  simp only [callOf, winner_perm htrials, winner_pair (r := ρ.candidate kind name) (fun _ => rfl),
    hempty, htrials.isEmpty_eq, List.isEmpty_map, htrials.length_eq, List.length_map, ht]
  cases winner (trials (v.candidates kind name) args.length expected attempt) with
  | some x => exact bound_renumber kind name l x.1 x.2
  | none =>
    simp only [Option.map_none, unbound, Checked.map, Expr.relabel,
      Expr.renumberArgs_of_unbound hargs]

/-! ## Expressions -/

section

variable {cx cx' : Context}

theorem variableOf_renumber (h : cx.Renumbered ρ cx') (expected : Option Ty) (x : Variable) :
    variableOf cx' expected x = variableOf cx expected x := by
  simp only [variableOf, h.declared]

mutual

theorem expr_renumber (h : cx.Renumbered ρ cx') :
    ∀ {e : Expr} (expected : Option Ty), e.All .unbound →
    expr cx' expected e = (expr cx expected e).map (Expr.relabel ρ.relabel)
  | .int .., expected, _ | .char .., expected, _ | .bool .., expected, _ | .str ..,
    expected, _ => by
    simp only [expr, literal, Checked.map, Expr.relabel]
  | .emptyList given l, expected, _ => by
    simp only [expr, emptyList]
    split <;> rfl
  | .pair a b l, expected, he => by
    simp only [expr, pairOf, expr_renumber h _ he.1, expr_renumber h _ he.2,
      Checked.map, Expr.relabel]
    rfl
  | .var x, expected, _ => by
    simp only [expr, variableOf_renumber h]
    rfl
  | .flat e rest l, expected, he => by
    simp only [expr, Checked.map, Expr.renumber_of_unbound he]
  | .call kind name as l, expected, he => by
    simp only [expr]
    exact callOf_renumber h.visible (fun ps => matchArgs_renumber h ps he) (argTypes_renumber h he)
      kind name he l expected
  | .bound .., _, he => he.1.elim

theorem matchArgs_renumber (h : cx.Renumbered ρ cx') : ∀ {as : List Expr} (ps : List Ty),
    Expr.AllArgs .unbound as → matchArgs cx' as ps = (matchArgs cx as ps).map (Trial.renumber ρ)
  | [], _, _ => rfl
  | _ :: _, [], _ => rfl
  | a :: as, p :: ps, has => by
    simp only [matchArgs, expr_renumber h _ has.1, matchArgs_renumber h ps has.2,
      Checked.blocking_map]
    split
    · rw [Option.map_map, Option.map_map]
      rfl
    · rfl

theorem argTypes_renumber (h : cx.Renumbered ρ cx') : ∀ {as : List Expr}, Expr.AllArgs .unbound as →
    argTypes cx' as = argTypes cx as
  | [], _ => rfl
  | a :: as, has => by
    simp only [argTypes, expr_renumber h _ has.1, argTypes_renumber h has.2, Checked.map]

end

theorem noted_renumber (h : cx.Renumbered ρ cx') {e : Expr} (expected : Option Ty)
    (he : e.All .unbound) :
    (expr cx' expected e).noted = Expr.relabel ρ.relabel <$> (expr cx expected e).noted := by
  rw [expr_renumber h expected he, Checked.noted_map]

end

/-! ## Places and items -/

section

variable {cx cx' : Context}

theorem declared_renumber (h : cx.Renumbered ρ cx') {d : VarDecl} (hd : d.init.All .unbound) :
    declared cx' d = VarDecl.relabel ρ.relabel <$> declared cx d := by
  simp only [declared]
  split
  · rw [noted_renumber h _ hd]
    apply Noted.ext <;> simp [VarDecl.relabel]
  · apply Noted.ext <;> simp [VarDecl.relabel, Expr.renumber_of_unbound hd]

theorem against_renumber (h : cx.Renumbered ρ cx') (wanted : Ty → Ty) (x : Variable) {e : Expr}
    (he : e.All .unbound) : against cx' wanted x e =
      (fun r => (r.1, r.2.relabel ρ.relabel)) <$> against cx wanted x e := by
  simp only [against, variableOf_renumber h]
  apply Noted.ext
  · simp only [Noted.value_bind, Noted.value_map]
    split
    · simp [noted_renumber h _ he]
    · simp [Expr.renumber_of_unbound he]
  · simp only [Noted.notes_bind, Noted.notes_map]
    split
    · simp [noted_renumber h _ he]
    · simp

theorem returned_renumber (h : cx.Renumbered ρ cx') (l : Loc) {e : Option Expr}
    (he : ∀ x ∈ e, x.All .unbound) :
    returned cx' l e = Option.map (Expr.relabel ρ.relabel) <$> returned cx l e := by
  have hresult := h.result
  cases hs : cx.fn with
  | none =>
    rw [hs, Option.map_none, Option.map_eq_none_iff] at hresult
    simp only [returned, hs, hresult]
    cases e with
    | none => rfl
    | some e => apply Noted.ext <;> simp [Expr.renumber_of_unbound (he e rfl)]
  | some s =>
    rw [hs, Option.map_some, Option.map_eq_some_iff] at hresult
    obtain ⟨s', hs', hr⟩ := hresult
    cases e with
    | none =>
      simp only [returned, hs, hs', hr]
      split <;> rfl
    | some e =>
      simp only [returned, hs, hs', hr]
      split
      · apply Noted.ext <;> simp [Expr.renumber_of_unbound (he e rfl)]
      · rw [noted_renumber h _ (he e rfl)]
        apply Noted.ext <;> simp

theorem at_renumber (h : cx.Renumbered ρ cx') {p : Place} (hp : p.All .unbound) :
    (body cx').at p = Place.relabel ρ.relabel <$> (body cx).at p := by
  cases p with
  | decl d => apply Noted.ext <;> simp [Rewriter.at, body, declared_renumber h hp, Place.relabel]
  | assign x e =>
    apply Noted.ext <;> simp [Rewriter.at, body, against_renumber h id x hp.2, Place.relabel]
    rfl
  | each x e =>
    apply Noted.ext <;> simp [Rewriter.at, body, against_renumber h .list x hp.2, Place.relabel]
    rfl
  | guard e => apply Noted.ext <;> simp [Rewriter.at, body, noted_renumber h _ hp, Place.relabel]
  | call e => apply Noted.ext <;> simp [Rewriter.at, body, noted_renumber h _ hp, Place.relabel]
  | ret l e => apply Noted.ext <;> simp [Rewriter.at, body, returned_renumber h l hp, Place.relabel]

/-- Checking a body by renumbered tables. -/
theorem body_renumber (h : cx.Renumbered ρ cx') {P : Diagnostic → Prop} {b : List Stmt}
    (hb : Stmt.HoldsAll (Place.All .unbound) b)
    (hn : ∀ d ∈ (Stmt.rewriteAll (body cx) b).notes, P d) :
    (∀ d ∈ (Stmt.rewriteAll (body cx') b).notes, P d) ∧
      (Stmt.rewriteAll (body cx') b).value =
        Stmt.relabelAll ρ.relabel (Stmt.rewriteAll (body cx) b).value := by
  have hw := (Stmt.walk_rewriteAll_lift b hn).and hb
  have hf := hw.follow_lift (w := body cx') (P := P) (E := fun p q => q.relabel ρ.relabel = p) ?_
  · exact ⟨hf.1, (hf.2.eq_relabelAll id).symm⟩
  · rintro _ p q _ ⟨⟨rfl, hnotes⟩, hp⟩
    rw [at_renumber h hp]
    exact ⟨by simpa using hnotes, by simp⟩

end

section

variable {v v' : Visible}

mutual

/-- A call that is bound to a constant overload still is. -/
theorem constants_renumber (h : Renumbered ρ v v') : ∀ (e : Expr) {d : Diagnostic},
    d ∈ constants v' (e.relabel ρ.relabel) → d ∈ constants v e
  | .int .., _, hd | .char .., _, hd | .bool .., _, hd | .str .., _, hd | .emptyList .., _, hd
  | .var _, _, hd | .flat .., _, hd | .call .., _, hd => by cases hd
  | .pair a b _, _, hd => by
    simp only [Expr.relabel, constants, List.mem_append] at hd ⊢
    exact hd.imp (constants_renumber h a) (constants_renumber h b)
  | .bound b as l, _, hd => by
    have hrelabel : (Expr.bound b as l).relabel ρ.relabel =
        .bound (ρ.binding b) (Expr.relabelArgs ρ.relabel as) l := rfl
    rw [hrelabel, constants, List.mem_append] at hd
    rw [constants, List.mem_append]
    refine hd.imp (fun hd => ?_) (constantArgs_renumber h as)
    cases hc : v.target b with
    | none =>
      split at hd
      · cases hd
      · exact hd
    | some c =>
      rw [h.target hc] at hd
      exact hd

theorem constantArgs_renumber (h : Renumbered ρ v v') : ∀ (es : List Expr) {d : Diagnostic},
    d ∈ constantArgs v' (Expr.relabelArgs ρ.relabel es) → d ∈ constantArgs v es
  | [], _, hd => by cases hd
  | e :: es, _, hd => by
    simp only [Expr.relabelArgs, constantArgs, List.mem_append] at hd ⊢
    exact hd.imp (constants_renumber h e) (constantArgs_renumber h es)

end

/-- The scope of a callable, as its body is checked. -/
abbrev FnScope.of (o : LocalOverload) : FnScope := ⟨o.args, o.locals, o.sig.result⟩

/-- Checking an item by renumbered tables, where it may have another place. -/
theorem item_renumber {P : Diagnostic → Prop} {i j : Nat} {it : Item}
    (hglobal : Context.Renumbered ρ ⟨v, none⟩ ⟨v', none⟩)
    (hfn : Option.Rel (fun o o' => Context.Renumbered ρ ⟨v, some (.of o)⟩ ⟨v', some (.of o')⟩)
      (v.own.overloadForItem i) (v'.own.overloadForItem j))
    (hit : it.All .unbound) (hn : ∀ d ∈ (item v i it).notes, P d) :
    (∀ d ∈ (item v' j it).notes, P d) ∧ (item v' j it).value =
      (item v i it).value.relabel ρ.relabel := by
  cases it with
  | synonym s => exact ⟨List.forall_mem_nil _, rfl⟩
  | global d =>
    simp only [item, Noted.forall_notes_bind, global_eq, List.forall_mem_append] at hn
    simp only [item, Noted.forall_notes_bind, global_eq, List.forall_mem_append,
      declared_renumber hglobal hit, Noted.value_map, Noted.notes_map]
    refine ⟨⟨⟨hn.1.1, fun x hx => hn.1.2 x ?_⟩, List.forall_mem_nil _⟩, rfl⟩
    split at hx
    · next hty =>
      rw [if_pos hty]
      exact constants_renumber hglobal.visible _ hx
    · cases hx
  | fn f =>
    simp only [item] at hn ⊢
    generalize v.own.overloadForItem i = found at hfn hn ⊢
    generalize v'.own.overloadForItem j = found' at hfn ⊢
    cases hfn with
    | none =>
      refine ⟨List.forall_mem_nil _, ?_⟩
      simp only [Noted.value_pure, Item.relabel]
      rw [Stmt.relabelAll_of_holds
        (Stmt.HoldsAll.mono (fun p hp => Place.renumber_of_unbound hp) hit)]
    | some hcx =>
      simp only [Noted.forall_notes_bind] at hn
      have hbody := body_renumber hcx hit hn.1
      simp only [Noted.forall_notes_bind, Noted.value_bind, Noted.value_pure, hbody.2]
      exact ⟨⟨hbody.1, List.forall_mem_nil _⟩, rfl⟩

end

/-! ## Overload sets in another order -/

/-- The second tables hold the overloads of the first ones, those of the module at hand changed by
`f`. -/
structure Reordered (f : LocalOverload → LocalOverload) (v v' : Visible) : Prop where
  sig : ∀ o, (f o).sig = o.sig
  own : ∀ kind name, (v'.own.overloads kind name).Perm ((v.own.overloads kind name).map f)
  nodup_own : ∀ kind name, (v'.own.overloads kind name).Nodup
  external : ∀ kind name, (v'.externals.overloads kind name).Perm (v.externals.overloads kind name)
  nodup_external : ∀ kind name, (v'.externals.overloads kind name).Nodup

/-- Where the overloads of the first tables are in the second ones. -/
def renumbering (f : LocalOverload → LocalOverload) (v v' : Visible) : Renumbering where
  own kind name := reindex f (v.own.overloads kind name) (v'.own.overloads kind name)
  external kind name :=
  reindex id (v.externals.overloads kind name) (v'.externals.overloads kind name)

namespace Reordered

variable {f : LocalOverload → LocalOverload} {v v' : Visible}

theorem external_map (h : Reordered f v v') (kind : CallKind) (name : String) :
    (v'.externals.overloads kind name).Perm ((v.externals.overloads kind name).map id) := by
  rw [List.map_id]
  exact h.external kind name

theorem renumbered (h : Reordered f v v') : Renumbered (renumbering f v v') v v' where
  candidates kind name := by
    simp only [Visible.candidates, List.map_append, Visible.localCandidates,
      Visible.externalCandidates, map_mapIdx]
    refine .append (mapIdx_perm (h.nodup_own kind name) (h.own kind name) fun i o => ?_)
      (mapIdx_perm (h.nodup_external kind name) (h.external_map kind name) fun i o => ?_)
    · simp only [Candidate.ofLocal, h.sig]
      rfl
    · rfl
  target {b c} hc := by
    rcases b with ⟨kind, name, exported, index, _ | module, ty⟩
    · have hc' := (Visible.getElem?_localCandidates kind name index).symm.trans hc
      obtain ⟨o, ho, rfl⟩ := Option.map_eq_some_iff.1 hc'
      refine (Visible.getElem?_localCandidates kind name _).trans ?_
      refine Option.map_eq_some_iff.2 ⟨f o, getElem?_reindex (h.own kind name) ho, ?_⟩
      simp only [Candidate.ofLocal, h.sig]
      rfl
    · have hc' := (Visible.getElem?_externalCandidates kind name index).symm.trans hc
      obtain ⟨o, ho, rfl⟩ := Option.map_eq_some_iff.1 hc'
      refine (Visible.getElem?_externalCandidates kind name _).trans ?_
      exact Option.map_eq_some_iff.2 ⟨o, getElem?_reindex (h.external_map kind name) ho, rfl⟩

end Reordered

end Typing

/-! ## Control flow does not look at marks -/

namespace Flow

variable {g : Relabel}

mutual

theorem stmt_relabel (inLoop : Bool) : ∀ s : Stmt, stmt inLoop (s.relabel g) = stmt inLoop s
  | .ret .. | .decl .. | .assign .. | .expr .. | .brk _ | .cont _ => rfl
  | .cond bs none _ => by rw [Stmt.relabel, stmt, stmt, branches_relabel inLoop bs]
  | .cond bs (some body) _ => by
    rw [Stmt.relabel, stmt, stmt, branches_relabel inLoop bs, block_relabel inLoop .live body]
  | .loop _ body _ | .each _ _ body _ => by
    rw [Stmt.relabel, stmt, stmt, block_relabel true .live body]

theorem block_relabel (inLoop : Bool) : ∀ (reach : Reach) (b : List Stmt),
    block inLoop reach (Stmt.relabelAll g b) = block inLoop reach b
  | _, [] => rfl
  | reach, s :: ss => by
    simp only [Stmt.relabelAll, block, Stmt.loc_relabel, stmt_relabel inLoop s,
      block_relabel inLoop _ ss]

theorem branches_relabel (inLoop : Bool) : ∀ bs : List Branch,
    branches inLoop (Branch.relabelAll g bs) = branches inLoop bs
  | [] => rfl
  | .mk _ body _ :: bs => by
    simp only [Branch.relabelAll, branches, block_relabel inLoop .live body,
      branches_relabel inLoop bs]

end

theorem callable_relabel (f : FnDef) :
    callable { f with body := Stmt.relabelAll g f.body } = callable f := by
  simp only [callable, body, block_relabel]

end Flow

end SplFrontend
