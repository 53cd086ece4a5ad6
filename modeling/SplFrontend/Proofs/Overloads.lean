import SplFrontend.Proofs.Typing

/-!
# Which overload a call is bound to

`Fits` says when an expression fits a type, without a word about errors: a pair fits a type of pairs
if one of its components fits, and a call fits if one of the overloads whose parameters its
arguments fit is `Chosen`, as the only one or as the only one of the module at hand. Checking
decides this relation. It leaves an error that is not tolerated exactly if the expression does not
fit, a trial passes exactly if all arguments fit, and a call is bound to the chosen overload.

A trial also passes where an argument fits only by half. So an overload that the arguments fit
without any error is not always the chosen one; it is if no rival of this kind stands in its way.
-/

namespace SplFrontend

/-! ## Candidates are distinct -/

namespace Visible

variable (v : Visible) (kind : CallKind) (name : String)

/-- Of the overloads of a name, no two have one place in one table. -/
theorem nodup_candidates : (v.candidates kind name).Nodup := by
  refine List.nodup_append.2 ⟨?_, ?_, ?_⟩
  · refine List.pairwise_iff_getElem.2 fun i j hi hj hij heq => ?_
    have hindex := congrArg Candidate.index heq
    simp only [localCandidates, List.getElem_mapIdx, Candidate.ofLocal] at hindex
    omega
  · refine List.pairwise_iff_getElem.2 fun i j hi hj hij heq => ?_
    have hindex := congrArg Candidate.index heq
    simp only [externalCandidates, List.getElem_mapIdx, Candidate.ofExternal] at hindex
    omega
  · rintro c hc d hd rfl
    obtain ⟨i, hi, rfl⟩ := List.mem_mapIdx.1 hc
    obtain ⟨j, hj, heq⟩ := List.mem_mapIdx.1 hd
    cases congrArg Candidate.module heq

end Visible

namespace Typing

/-! ## The chosen candidate -/

/-- Of the candidates in a set, the one that a call is bound to: the only one, or else the only one
of the module at hand. -/
def Chosen (M : Candidate → Prop) (c : Candidate) : Prop :=
  M c ∧ ((∀ d, M d → d = c) ∨ c.isLocal = true ∧ ∀ d, M d → d.isLocal = true → d = c)

/-- Without repetitions, a list in which one element only passes a test is filtered to this
element. -/
theorem filter_eq_singleton {α : Type} {p : α → Bool} {x : α} {l : List α} (hl : l.Nodup)
    (hx : x ∈ l) (hp : p x = true) (hunique : ∀ y ∈ l, p y = true → y = x) : l.filter p = [x] := by
  have hnodup : (l.filter p).Nodup := hl.sublist List.filter_sublist
  have hall : ∀ y ∈ l.filter p, y = x :=
    fun y hy => hunique y (List.mem_filter.1 hy).1 (List.mem_filter.1 hy).2
  match hf : l.filter p with
  | [] => exact absurd hp (List.filter_eq_nil_iff.1 hf x hx)
  | [y] => rw [hall y (by simp [hf])]
  | y :: z :: _ =>
    rw [hf] at hnodup
    have heq : y = z := (hall y (by simp [hf])).trans (hall z (by simp [hf])).symm
    simp [heq] at hnodup

section

variable {ts : List (Candidate × Trial)}

theorem chosen_of_winner {x : Candidate × Trial} (h : winner ts = some x) :
    Chosen (· ∈ ts.map Prod.fst) x.1 := by
  refine ⟨List.mem_map_of_mem (mem_of_winner h), ?_⟩
  unfold winner at h
  split at h
  · cases h
  · cases h
    exact .inl fun d hd => by simpa using hd
  · split at h
    · next hf =>
      cases h
      have hmem : ∀ y, y ∈ ts ∧ y.1.isLocal = true ↔ y = x := fun y => by
        rw [← List.mem_filter (p := fun z : Candidate × Trial => z.1.isLocal), hf,
          List.mem_singleton]
      refine .inr ⟨((hmem x).2 rfl).2, ?_⟩
      rintro _ hd hlocal
      obtain ⟨y, hy, rfl⟩ := List.mem_map.1 hd
      rw [(hmem y).1 ⟨hy, hlocal⟩]
    · cases h

theorem winner_of_filter {x : Candidate × Trial} (h : ts.filter (·.1.isLocal) = [x]) :
    winner ts = some x := by
  match ts, h with
  | [t], h =>
    have ht : x ∈ [t] :=
      (List.mem_filter.1 (h ▸ List.mem_cons_self : x ∈ [t].filter (·.1.isLocal))).1
    rw [List.mem_singleton.1 ht]
    rfl
  | _ :: _ :: _, h => simp only [winner, h]

theorem winner_of_chosen (hnodup : ts.Nodup) {x : Candidate × Trial} (hx : x ∈ ts)
    (hsame : ∀ y ∈ ts, y.1 = x.1 → y = x) (h : Chosen (· ∈ ts.map Prod.fst) x.1) :
    winner ts = some x := by
  obtain ⟨-, honly | ⟨hlocal, honly⟩⟩ := h
  · have hts : ts.filter (fun _ => true) = [x] := filter_eq_singleton hnodup hx rfl
      fun y hy _ => hsame y hy (honly _ (List.mem_map_of_mem hy))
    rw [List.filter_eq_self.2 fun _ _ => rfl] at hts
    rw [hts]
    rfl
  · refine winner_of_filter (filter_eq_singleton hnodup hx hlocal fun y hy hl => ?_)
    exact hsame y hy (honly _ (List.mem_map_of_mem hy) hl)

end

/-! ## Calls -/

/-- The candidates for a call whose trial passes. -/
structure Passes (v : Visible) (kind : CallKind) (name : String) (count : Nat)
    (expected : Option Ty) (attempt : List Ty → Option Trial) (c : Candidate) : Prop where
  visible : c ∈ v.candidates kind name
  arity : c.sig.params.length = count
  result : ∀ t ∈ expected, t = c.sig.result
  passes : (attempt c.sig.params).isSome = true

section

variable {v : Visible} {kind : CallKind} {name : String} {expected : Option Ty}
  {attempt : List Ty → Option Trial} {count : Nat}

theorem mem_trials_iff {x : Candidate × Trial} :
    x ∈ trials (v.candidates kind name) count expected attempt ↔
      Passes v kind name count expected attempt x.1 ∧ attempt x.1.sig.params = some x.2 := by
  constructor
  · intro h
    obtain ⟨hmem, harity, hresult, ht⟩ := mem_trials h
    exact ⟨⟨hmem, harity, hresult, by rw [ht]; rfl⟩, ht⟩
  · rintro ⟨h, ht⟩
    refine List.mem_filterMap.2 ⟨x.1, List.mem_filter.2 ⟨h.visible, ?_⟩, by rw [ht]; rfl⟩
    simp only [mayFit, Bool.and_eq_true, decide_eq_true_eq, Option.all_eq_true]
    exact ⟨h.arity, h.result⟩

theorem mem_map_trials_eq (v : Visible) (kind : CallKind) (name : String) (count : Nat)
    (expected : Option Ty) (attempt : List Ty → Option Trial) :
    (· ∈ (trials (v.candidates kind name) count expected attempt).map Prod.fst) =
      Passes v kind name count expected attempt := by
  funext c
  refine propext ⟨?_, ?_⟩
  · intro h
    obtain ⟨x, hx, rfl⟩ := List.mem_map.1 h
    exact (mem_trials_iff.1 hx).1
  · intro h
    obtain ⟨t, ht⟩ := Option.isSome_iff_exists.1 h.passes
    exact List.mem_map.2 ⟨(c, t), mem_trials_iff.2 ⟨h, ht⟩, rfl⟩

/-- One trial a candidate. -/
theorem map_trials_sublist (cs : List Candidate) (count : Nat) (expected : Option Ty)
    (attempt : List Ty → Option Trial) :
    ((trials cs count expected attempt).map Prod.fst).Sublist cs := by
  rw [trials, List.map_filterMap]
  refine List.Sublist.trans ?_ (List.filter_sublist (p := mayFit count expected))
  induction cs.filter (mayFit count expected) with
  | nil => exact .slnil
  | cons c cs ih =>
    rw [List.filterMap_cons]
    split
    · exact ih.cons c
    · next heq =>
      obtain ⟨_, ht, rfl⟩ := Option.map_eq_some_iff.1 heq
      obtain ⟨_, -, rfl⟩ := Option.map_eq_some_iff.1 ht
      exact ih.cons_cons c

theorem nodup_trials : (trials (v.candidates kind name) count expected attempt).Nodup :=
  List.Pairwise.of_map Prod.fst (fun _ _ hne heq => hne (congrArg Prod.fst heq))
    ((v.nodup_candidates kind name).sublist (map_trials_sublist ..))

theorem winner_trials_eq_some_iff {c : Candidate} {t : Trial} :
    winner (trials (v.candidates kind name) count expected attempt) = some (c, t) ↔
      Chosen (Passes v kind name count expected attempt) c ∧ attempt c.sig.params = some t := by
  constructor
  · intro h
    refine ⟨?_, (mem_trials_iff.1 (mem_of_winner h)).2⟩
    rw [← mem_map_trials_eq]
    exact chosen_of_winner h
  · rintro ⟨hc, ht⟩
    refine winner_of_chosen nodup_trials (mem_trials_iff.2 ⟨hc.1, ht⟩) ?_ ?_
    · rintro ⟨d, u⟩ hy rfl
      have hu := (mem_trials_iff.1 hy).2
      rw [ht] at hu
      rw [Option.some.inj hu]
    · rw [mem_map_trials_eq]
      exact hc

variable {args : List Expr}

theorem callOf_of_chosen {loc : Loc} {types : Unit → List (Option Ty)} {c : Candidate} {t : Trial}
    (h : Chosen (Passes v kind name args.length expected attempt) c)
    (ht : attempt c.sig.params = some t) :
    callOf v kind name args loc expected attempt types = bound kind name loc c t := by
  simp only [callOf, winner_trials_eq_some_iff.2 ⟨h, ht⟩]

/-- Why a call stays unbound: nothing has its name, or its candidates do not decide. -/
inductive Refused (v : Visible) (kind : CallKind) (name : String) (expected : Option Ty)
    (types : List (Option Ty)) (M : Candidate → Prop) : Fault → Prop
  | undefined :
    v.candidates kind name = [] →
      Refused v kind name expected types M (.undefinedCallable kind name)
  | empty : v.candidates kind name ≠ [] → (∀ c, ¬ M c) →
      Refused v kind name expected types M (.noOverload kind name expected types)
  | several {ms : List Candidate} : ms ≠ [] → ms.Nodup → (∀ c, c ∈ ms ↔ M c) →
      Refused v kind name expected types M (.ambiguous kind name expected.isSome ms.length)

theorem callOf_of_not_chosen (loc : Loc) (types : Unit → List (Option Ty))
    (h : ∀ c, ¬ Chosen (Passes v kind name args.length expected attempt) c) :
    ∃ f, Refused v kind name expected (types ())
      (Passes v kind name args.length expected attempt) f ∧
      callOf v kind name args loc expected attempt types = unbound kind name args loc f := by
  have hwinner : winner (trials (v.candidates kind name) args.length expected attempt) = none :=
    Option.eq_none_iff_forall_ne_some.2 fun x hx => h x.1 (winner_trials_eq_some_iff.1 hx).1
  have hpassed :=
    fun c => iff_of_eq (congrFun (mem_map_trials_eq v kind name args.length expected attempt) c)
  refine ⟨_, ?_, by simp only [callOf, hwinner]; rfl⟩
  split
  · next hempty => exact .undefined (List.isEmpty_iff.1 hempty)
  · next hempty =>
    split
    · next hnone =>
      rw [List.isEmpty_iff] at hempty hnone
      exact .empty hempty fun c hc => by simp [hnone, ← hpassed] at hc
    · next hsome =>
      rw [List.isEmpty_iff] at hsome
      rw [← List.length_map (f := Prod.fst)]
      refine .several (by simpa using hsome) ?_ hpassed
      exact (v.nodup_candidates kind name).sublist (map_trials_sublist ..)

end

/-! ## Tolerated errors -/

theorem tolerated_le_callOf (v : Visible) (kind : CallKind) (name : String) (args : List Expr)
    (loc : Loc) (expected : Option Ty) (attempt : List Ty → Option Trial)
    (types : Unit → List (Option Ty)) :
    (callOf v kind name args loc expected attempt types).tolerated ≤
      (callOf v kind name args loc expected attempt types).errors.length := by
  obtain ⟨c, t, hc, -⟩ | ⟨f, -, hf⟩ := callOf_cases v kind name args loc expected attempt types
  · rw [hc]
    exact Nat.le_refl _
  · rw [hf]
    exact Nat.zero_le _

/-- The errors of a pair that are not tolerated: the one of a pair that is not expected, and those
of the components if neither is free of them. -/
theorem pairOf_tolerated (expected : Option Ty × Option Ty) (front : List Diagnostic)
    {a b : Checked Expr} (l : Loc) (ha : a.tolerated ≤ a.errors.length)
    (hb : b.tolerated ≤ b.errors.length) :
    (pairOf expected front a b l).errors.length = (pairOf expected front a b l).tolerated +
      front.length +
      if a.blocking = 0 ∨ b.blocking = 0 then 0 else a.blocking + b.blocking := by
  have hsum : front.length + a.errors.length + b.errors.length =
      a.tolerated + b.tolerated + front.length + (a.blocking + b.blocking) := by
    simp only [Checked.blocking]
    omega
  -- The errors of the components are tolerated unless both or neither have some.
  have hparts : a.blocking + b.blocking =
      (if (a.blocking == 0) = (b.blocking == 0) then 0 else a.blocking + b.blocking) +
        if a.blocking = 0 ∨ b.blocking = 0 then 0 else a.blocking + b.blocking := by
    cases a.blocking <;> cases b.blocking <;> simp
  simp only [pairOf, List.length_append]
  omega

mutual

/-- No more errors are tolerated than there are. -/
theorem tolerated_le (cx : Context) : ∀ (e : Expr) (expected : Option Ty),
    (expr cx expected e).tolerated ≤ (expr cx expected e).errors.length
  | .int .., _ | .char .., _ | .bool .., _ | .str .., _ | .flat .., _ => Nat.zero_le _
  | .emptyList .., _ => by
    rw [expr, emptyList]
    split <;> exact Nat.zero_le _
  | .pair a b l, expected => by
    have ha := tolerated_le cx a (components expected l).1
    have hb := tolerated_le cx b (components expected l).2.1
    have hpair := pairOf_tolerated ((components expected l).1, (components expected l).2.1)
      (components expected l).2.2 l ha hb
    exact (hpair.symm ▸ Nat.le_trans (Nat.le_add_right ..) (Nat.le_add_right ..) : _ ≤ _)
  | .var x, _ => by
    rw [expr, variableOf]
    split
    · exact Nat.zero_le _
    · split <;> exact Nat.zero_le _
  | .call kind name as l, expected => by
    rw [expr]
    exact tolerated_le_callOf ..
  | .bound b as l, expected => by
    rw [expr]
    split
    · next c _ =>
      have hargs := tolerated_le_recheckArgs cx as c.sig.params
      simp only [List.length_append]
      omega
    · exact tolerated_le_callOf ..

theorem tolerated_le_recheckArgs (cx : Context) : ∀ (as : List Expr) (ps : List Ty),
    (recheckArgs cx as ps).tolerated ≤ (recheckArgs cx as ps).errors.length
  | [], _ => Nat.zero_le _
  | _ :: _, [] => Nat.zero_le _
  | a :: as, p :: ps => by
    have ha := tolerated_le cx a (some p)
    have has := tolerated_le_recheckArgs cx as ps
    simp only [recheckArgs, List.length_append]
    omega

end

theorem blocking_eq_zero_iff (cx : Context) (expected : Option Ty) (e : Expr) :
    (expr cx expected e).blocking = 0 ↔
      ¬ (expr cx expected e).tolerated < (expr cx expected e).errors.length := by
  have hle := tolerated_le cx e expected
  rw [Checked.blocking]
  omega

/-! ## Fitting -/

mutual

/-- The expression fits the type. Sequences and bound calls fit nothing. -/
def Fits (cx : Context) : Expr → Ty → Prop
  | .int .., t => t = .int
  | .char .., t => t = .char
  | .bool .., t => t = .bool
  | .str .., t => t = .list .char
  | .emptyList .., t => ∃ elem, t = .list elem
  | .pair a b _, t => ∃ ta tb, t = .pair ta tb ∧ (Fits cx a ta ∨ Fits cx b tb)
  | .var v, t => ∃ declared, cx.declared v.ref = some declared ∧ declared.narrow v.accessors = .ok t
  | .flat .., _ => False
  | .call kind name args _, t =>
    ∃ c, Chosen (fun c => c ∈ cx.visible.candidates kind name ∧ c.sig.params.length = args.length ∧
      t = c.sig.result ∧ FitAll cx args c.sig.params) c
  | .bound .., _ => False

/-- Every argument fits the parameter at its place. -/
def FitAll (cx : Context) : List Expr → List Ty → Prop
  | a :: as, p :: ps => Fits cx a p ∧ FitAll cx as ps
  | _, _ => True

end

/-- The candidates for a call whose parameters the arguments fit. -/
structure Matching (cx : Context) (kind : CallKind) (name : String) (args : List Expr)
    (expected : Option Ty) (c : Candidate) : Prop where
  visible : c ∈ cx.visible.candidates kind name
  arity : c.sig.params.length = args.length
  result : ∀ t ∈ expected, t = c.sig.result
  fits : FitAll cx args c.sig.params

theorem fits_call_iff {cx : Context} {kind : CallKind} {name : String} {args : List Expr}
    {l : Loc} {t : Ty} :
    Fits cx (.call kind name args l) t ↔ ∃ c, Chosen (Matching cx kind name args (some t)) c := by
  rw [Fits]
  refine exists_congr fun c =>
    iff_of_eq (congrFun (congrArg Chosen (funext fun d => propext ⟨?_, ?_⟩)) c)
  · rintro ⟨hmem, harity, hresult, hfits⟩
    exact ⟨hmem, harity, fun _ h => Option.some.inj h ▸ hresult, hfits⟩
  · rintro ⟨hmem, harity, hresult, hfits⟩
    exact ⟨hmem, harity, hresult t rfl, hfits⟩

theorem fitAll_iff {cx : Context} : ∀ (as : List Expr) (ps : List Ty),
    FitAll cx as ps ↔ ∀ x ∈ as.zip ps, Fits cx x.1 x.2
  | [], _ => by simp [FitAll]
  | _ :: _, [] => by simp [FitAll]
  | a :: as, p :: ps => by simp [FitAll, fitAll_iff as ps]

end Typing

/-- What stands at the nodes of an expression that overloads are chosen for: declared variables, no
sequence and no bound call. -/
def Nodes.selectable (cx : Typing.Context) : Nodes where
  var v := (cx.declared v.ref).isSome = true
  empty _ := True
  flat := False
  bound _ _ := False

namespace Typing

variable {cx : Context}

/-! ## Checking decides fitting -/

theorem blocking_literal {e : Expr} {ty t : Ty} :
    (literal e ty (some t)).blocking = 0 ↔ t = ty := by
  by_cases h : t = ty <;> simp [literal, Checked.blocking, mismatch, h]

theorem blocking_emptyList {given : Option Ty} {t : Ty} {l : Loc} :
    (emptyList given (some t) l).blocking = 0 ↔ ∃ elem, t = .list elem := by
  cases t <;> simp [emptyList, Checked.blocking]

theorem blocking_var {v : Variable} {t : Ty} (hv : (cx.declared v.ref).isSome = true) :
    (expr cx (some t) (.var v)).blocking = 0 ↔ Fits cx (.var v) t := by
  obtain ⟨declared, hd⟩ := Option.isSome_iff_exists.1 hv
  cases hn : declared.narrow v.accessors with
  | ok ty =>
    by_cases h : t = ty
    · subst h
      simp [expr, variableOf, Checked.blocking, mismatch, Fits, hd, hn]
    · have h' : ¬ ty = t := fun heq => h heq.symm
      simp [expr, variableOf, Checked.blocking, mismatch, Fits, hd, hn, h, h']
  | error x => simp [expr, variableOf, Checked.blocking, Fits, hd, hn]

/-- A pair is left with an error that is not tolerated if no pair is expected, or if both components
are. -/
theorem blocking_pair {a b : Expr} {t : Ty} {l : Loc} :
    (expr cx (some t) (.pair a b l)).blocking = 0 ↔
    ∃ ta tb, t = .pair ta tb ∧
      ((expr cx (some ta) a).blocking = 0 ∨ (expr cx (some tb) b).blocking = 0) := by
  cases t with
  | pair ta tb =>
    have hpair :=
      pairOf_tolerated (some ta, some tb) [] l (tolerated_le cx a (some ta))
        (tolerated_le cx b (some tb))
    have hblocking : (expr cx (some (.pair ta tb)) (.pair a b l)).blocking = 0 ↔
        (expr cx (some ta) a).blocking = 0 ∨ (expr cx (some tb) b).blocking = 0 := by
      simp only [expr, components]
      rw [Checked.blocking, hpair]
      split
      · next h => simp [h]
      · next h =>
        simp only [List.length_nil, h, iff_false]
        omega
    rw [hblocking]
    constructor
    · exact fun h => ⟨ta, tb, rfl, h⟩
    · rintro ⟨_, _, ⟨⟩, h⟩
      exact h
  | _ =>
    simp only [reduceCtorEq, false_and, exists_false, iff_false, expr, components]
    rw [Checked.blocking, pairOf_tolerated _ _ l (tolerated_le cx a none) (tolerated_le cx b none)]
    simp only [List.length_cons]
    omega

theorem passes_eq_matching {kind : CallKind} {name : String} {as : List Expr} {expected : Option Ty}
    (h : ∀ ps, (matchArgs cx as ps).isSome = true ↔ FitAll cx as ps) :
    Passes cx.visible kind name as.length expected (fun ps => matchArgs cx as ps) =
      Matching cx kind name as expected := by
  funext c
  refine propext ⟨?_, ?_⟩
  · rintro ⟨hmem, harity, hresult, hpasses⟩
    exact ⟨hmem, harity, hresult, (h _).1 hpasses⟩
  · rintro ⟨hmem, harity, hresult, hfits⟩
    exact ⟨hmem, harity, hresult, (h _).2 hfits⟩

/-- A call is left with an error that is not tolerated if no candidate is chosen. -/
theorem blocking_call {kind : CallKind} {name : String} {as : List Expr} {l : Loc} {t : Ty}
    (h : ∀ ps, (matchArgs cx as ps).isSome = true ↔ FitAll cx as ps) :
    (expr cx (some t) (.call kind name as l)).blocking = 0 ↔ Fits cx (.call kind name as l) t := by
  rw [fits_call_iff, ← passes_eq_matching h, expr]
  constructor
  · intro hzero
    refine Classical.byContradiction fun hnone => ?_
    obtain ⟨f, -, hf⟩ := callOf_of_not_chosen l (fun _ => argTypes cx as)
      fun c hc => hnone ⟨c, hc⟩
    rw [hf] at hzero
    cases hzero
  · rintro ⟨c, hc⟩
    obtain ⟨trial, ht⟩ := Option.isSome_iff_exists.1 hc.1.passes
    rw [callOf_of_chosen hc ht]
    exact Nat.sub_self _

mutual

/-- Checking leaves no error that is not tolerated exactly if the expression fits. -/
theorem blocking_iff_fits : ∀ (e : Expr) (t : Ty), e.All (.selectable cx) →
    ((expr cx (some t) e).blocking = 0 ↔ Fits cx e t)
  | .int .., _, _ | .char .., _, _ | .bool .., _, _ | .str .., _, _ => by
    rw [expr, Fits]
    exact blocking_literal
  | .emptyList .., _, _ => by
    rw [expr, Fits]
    exact blocking_emptyList
  | .pair a b l, t, h => by
    rw [blocking_pair, Fits]
    refine exists_congr fun ta => exists_congr fun tb => and_congr_right fun _ => ?_
    rw [blocking_iff_fits a ta h.1, blocking_iff_fits b tb h.2]
  | .var v, _, h => blocking_var h
  | .flat .., _, h => h.1.elim
  | .call kind name as l, t, h => blocking_call fun ps => matchArgs_iff_fitAll as ps h
  | .bound .., _, h => h.1.elim

/-- A trial passes exactly if all arguments fit. -/
theorem matchArgs_iff_fitAll : ∀ (as : List Expr) (ps : List Ty), Expr.AllArgs (.selectable cx) as →
    ((matchArgs cx as ps).isSome = true ↔ FitAll cx as ps)
  | [], _, _ => by simp [matchArgs, FitAll]
  | _ :: _, [], _ => by simp [matchArgs, FitAll]
  | a :: as, p :: ps, h => by
    rw [matchArgs, FitAll, ← blocking_iff_fits a p h.1, ← matchArgs_iff_fitAll as ps h.2]
    by_cases hb : (expr cx (some p) a).blocking = 0 <;> simp [hb]

end

/-- Checking decides which expressions fit which types. It leaves an error that is not tolerated if
the expression does not fit, a trial passes if every argument fits its parameter, and a call is
bound to the candidate that is chosen of those that its arguments fit; if none is, it is refused. -/
theorem checking_decides_fitting (cx : Context) :
    (∀ (e : Expr) (t : Ty), e.All (.selectable cx) →
      ((expr cx (some t) e).tolerated < (expr cx (some t) e).errors.length ↔ ¬ Fits cx e t)) ∧
    (∀ (as : List Expr) (ps : List Ty), Expr.AllArgs (.selectable cx) as →
      ((matchArgs cx as ps).isSome = true ↔ ∀ x ∈ as.zip ps, Fits cx x.1 x.2)) ∧
    ∀ (kind : CallKind) (name : String) (as : List Expr) (l : Loc) (expected : Option Ty),
      Expr.AllArgs (.selectable cx) as →
      (∀ c, Chosen (Matching cx kind name as expected) c →
        ∃ t, matchArgs cx as c.sig.params = some t ∧
        expr cx expected (.call kind name as l) = bound kind name l c t) ∧
      ((∀ c, ¬ Chosen (Matching cx kind name as expected) c) →
        ∃ f, Refused cx.visible kind name expected (argTypes cx as)
          (Matching cx kind name as expected) f ∧
          expr cx expected (.call kind name as l) = unbound kind name as l f) := by
  refine ⟨fun e t he => ?_, fun as ps has => ?_, fun kind name as l expected has => ?_⟩
  · rw [← blocking_iff_fits e t he, blocking_eq_zero_iff, Classical.not_not]
  · rw [matchArgs_iff_fitAll as ps has, fitAll_iff]
  · rw [expr, ← passes_eq_matching fun ps => matchArgs_iff_fitAll as ps has]
    refine ⟨fun c hc => ?_, callOf_of_not_chosen l fun _ => argTypes cx as⟩
    obtain ⟨t, ht⟩ := Option.isSome_iff_exists.1 hc.1.passes
    exact ⟨t, ht, callOf_of_chosen hc ht⟩

/-- A module that defines `f` for `(Int, Int)` and for `(Int, Bool)`, and a global `g` of the first
type. -/
def twinContext : Context where
  visible :=
    { own :=
        { module := "m"
          globals := [("g", ⟨.pair .int .int, .nowhere⟩)]
          functions := [((.function, "f"), [⟨⟨[.pair .int .int], .int⟩, .nowhere, 0, none, [], []⟩,
            ⟨⟨[.pair .int .bool], .int⟩, .nowhere, 1, none, [], []⟩])] }
      externals := {} }
  fn := none

/-- The first overload of `f`. -/
def twinFirst : Candidate := ⟨0, ⟨[.pair .int .int], .int⟩, "f", none, false⟩

/-- The second overload of `f`. -/
def twinSecond : Candidate := ⟨1, ⟨[.pair .int .bool], .int⟩, "f", none, false⟩

theorem candidates_twinContext :
    twinContext.visible.candidates .function "f" = [twinFirst, twinSecond] := rfl

/-- `f(('c', 2))` fits one of the overloads by half. It is bound to that one, and the half that does
not fit is reported. -/
theorem checking_decides_fitting_half :
    Chosen
      (Matching twinContext .function "f"
        [.pair (.char 'c' .nowhere) (.int 2 .nowhere) .nowhere] (some .int)) twinFirst ∧
      ∃ t, t.errors.length = 1 ∧
        expr twinContext (some .int)
          (.call .function "f" [.pair (.char 'c' .nowhere) (.int 2 .nowhere) .nowhere] .nowhere) =
        bound .function "f" .nowhere twinFirst t := by
  have hchosen : Chosen (Matching twinContext .function "f"
      [.pair (.char 'c' .nowhere) (.int 2 .nowhere) .nowhere] (some .int)) twinFirst := by
    refine ⟨⟨by simp [candidates_twinContext], rfl, by rintro _ ⟨⟩; rfl, ?_⟩, .inl ?_⟩
    · exact ⟨⟨_, _, rfl, .inr rfl⟩, trivial⟩
    · rintro d ⟨hmem, -, -, hfits⟩
      simp only [candidates_twinContext, List.mem_cons, List.not_mem_nil, or_false] at hmem
      obtain rfl | rfl := hmem
      · rfl
      · obtain ⟨⟨_, _, ⟨⟩, h | h⟩, -⟩ := hfits <;> cases h
  have hargs : Expr.AllArgs (.selectable twinContext)
      [.pair (.char 'c' .nowhere) (.int 2 .nowhere) .nowhere] := ⟨⟨trivial, trivial⟩, trivial⟩
  obtain ⟨t, ht, hbound⟩ :=
    ((checking_decides_fitting twinContext).2.2 .function "f" _ .nowhere (some .int)
    hargs).1 twinFirst hchosen
  refine ⟨hchosen, t, ?_, hbound⟩
  cases ht
  rfl

/-! ## Overloads that fit without an error -/

/-- The candidates for a call against whose parameters the arguments check without an error. -/
structure Cleanly (cx : Context) (kind : CallKind) (name : String) (args : List Expr)
    (expected : Option Ty) (c : Candidate) : Prop where
  visible : c ∈ cx.visible.candidates kind name
  arity : c.sig.params.length = args.length
  result : ∀ t ∈ expected, t = c.sig.result
  clean : ∀ x ∈ args.zip c.sig.params, (expr cx (some x.2) x.1).errors = []

theorem matchArgs_of_clean : ∀ {as : List Expr} {ps : List Ty},
    (∀ x ∈ as.zip ps, (expr cx (some x.2) x.1).errors = []) →
      ∃ t, matchArgs cx as ps = some t ∧ t.errors = []
  | [], _, _ => ⟨⟨[], []⟩, by simp [matchArgs], rfl⟩
  | _ :: _, [], _ => ⟨⟨[], []⟩, by simp [matchArgs], rfl⟩
  | a :: as, p :: ps, h => by
    rw [List.zip_cons_cons, List.forall_mem_cons] at h
    obtain ⟨t, ht, hclean⟩ := matchArgs_of_clean h.2
    refine ⟨⟨(expr cx (some p) a).value :: t.args, []⟩, ?_, rfl⟩
    simp [matchArgs, Checked.blocking, h.1, ht, hclean]

/-- The outcome of a call that is bound to a candidate without an error. -/
def BoundClean (cx : Context) (kind : CallKind) (name : String) (args : List Expr) (l : Loc)
    (expected : Option Ty) (c : Candidate) : Prop :=
  ∃ args', expr cx expected (.call kind name args l) =
    ⟨.bound ⟨kind, name, c.exported, c.index, c.module, c.sig.result⟩ args' l,
      some c.sig.result, [], 0⟩

/-- Where the arguments check against the parameters of an overload without an error, the call is
bound to it and nothing is reported exactly if no other overload passes its trial, not even one that
a pair among the arguments fits by half only; or if it is an overload of the module at hand, and no
other one of these passes. -/
theorem boundClean_iff_no_rival {kind : CallKind} {name : String} {as : List Expr} {l : Loc}
    {expected : Option Ty} {c : Candidate} (h : Cleanly cx kind name as expected c) :
    BoundClean cx kind name as l expected c ↔
      (∀ d, Passes cx.visible kind name as.length expected (matchArgs cx as) d → d = c) ∨
      c.isLocal = true ∧ ∀ d, Passes cx.visible kind name as.length expected (matchArgs cx as) d →
        d.isLocal = true → d = c := by
  obtain ⟨t, ht, hclean⟩ := matchArgs_of_clean h.clean
  have hpasses : Passes cx.visible kind name as.length expected (matchArgs cx as) c :=
    ⟨h.visible, h.arity, h.result, by rw [ht]; rfl⟩
  constructor
  · rintro ⟨args', hbound⟩
    rw [expr] at hbound
    have hchosen :
        ∃ d, Chosen (Passes cx.visible kind name as.length expected (matchArgs cx as)) d :=
      Classical.byContradiction fun hnone => by
        obtain ⟨f, -, hf⟩ := callOf_of_not_chosen l (fun _ => argTypes cx as)
          fun d hd => hnone ⟨d, hd⟩
        have hty := congrArg Checked.ty (hf.symm.trans hbound)
        cases hty
    obtain ⟨d, hd⟩ := hchosen
    obtain ⟨u, hu⟩ := Option.isSome_iff_exists.1 hd.1.passes
    have hvalue := congrArg Checked.value ((callOf_of_chosen hd hu).symm.trans hbound)
    -- Both candidates are what the binding stands for.
    have htarget := cx.visible.target_of_mem hd.1.visible d.sig.result
    rw [(Expr.bound.inj hvalue).1, Visible.target_of_mem h.visible] at htarget
    cases htarget
    exact hd.2
  · intro hrivals
    refine ⟨t.args, ?_⟩
    rw [expr, callOf_of_chosen ⟨hpasses, hrivals⟩ ht, bound, hclean]
    rfl

/-- A variable does not fit by half, so `f(g)` is bound to the overload that it checks against. -/
theorem boundClean_iff_no_rival_variable :
    Cleanly twinContext .function "f" [.var ⟨.own "g", [], none, .nowhere⟩] (some .int) twinFirst ∧
      BoundClean twinContext .function "f" [.var ⟨.own "g", [], none, .nowhere⟩] .nowhere
        (some .int) twinFirst := by
  have hclean :
      Cleanly twinContext .function "f" [.var ⟨.own "g", [], none, .nowhere⟩]
        (some .int) twinFirst := by
    refine ⟨by simp [candidates_twinContext], rfl, by rintro _ ⟨⟩; rfl, ?_⟩
    rintro _ hx
    cases List.mem_singleton.1 hx
    rfl
  refine ⟨hclean, (boundClean_iff_no_rival hclean).2 (.inl ?_)⟩
  intro d hd
  have hmem := hd.visible
  simp only [candidates_twinContext, List.mem_cons, List.not_mem_nil, or_false] at hmem
  obtain rfl | rfl := hmem
  · rfl
  · exact absurd hd.passes (by decide)

/-- `f((1, 2))` checks without an error against one overload only, and yet it is not bound, since
the other one fits by half. -/
theorem not_boundClean_of_unique :
    ¬ ∀ (cx : Context) (kind : CallKind) (name : String) (as : List Expr) (l : Loc)
    (expected : Option Ty) (c : Candidate), Cleanly cx kind name as expected c →
      (∀ d, Cleanly cx kind name as expected d → d = c) →
        BoundClean cx kind name as l expected c := by
  intro hall
  have hfirst :
      Cleanly twinContext .function "f"
        [.pair (.int 1 .nowhere) (.int 2 .nowhere) .nowhere] (some .int)
      twinFirst := by
    refine ⟨by simp [candidates_twinContext], rfl, by rintro _ ⟨⟩; rfl, ?_⟩
    simp [twinFirst, expr, literal, mismatch, components, pairOf]
  obtain ⟨args', hbound⟩ := hall _ _ _ _ .nowhere _ _ hfirst fun d hd => by
    have hmem := hd.visible
    simp only [candidates_twinContext, List.mem_cons, List.not_mem_nil, or_false] at hmem
    obtain rfl | rfl := hmem
    · rfl
    · have hsecond := hd.clean
      simp [twinSecond, expr, literal, mismatch, components, pairOf] at hsecond
  have hty : (none : Option Ty) = some .int := congrArg Checked.ty hbound
  cases hty

end Typing

end SplFrontend
