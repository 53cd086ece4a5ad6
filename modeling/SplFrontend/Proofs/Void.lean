import SplFrontend.Proofs.Elaboration.Types
import SplFrontend.Proofs.Imports.Builtins
import SplFrontend.Proofs.Stability.Printing

/-!
# `Void`

`Void` is the type of a call that has no value. In the table of a resolved module it is the bare
result of a callable or nowhere, and what is imported has it elsewhere only if a header lists it so.
Where no header does, nothing can receive a call of type `Void`: every such call is a statement
(`Resolved.void_of_compile`).
-/

namespace SplFrontend

/-- `Void` stands in the signature at most by itself, as the result. -/
def Signature.BareVoid (s : Signature) : Prop :=
  (∀ t ∈ s.params, t.hasVoid = false) ∧ (s.result.isVoid = false → s.result.hasVoid = false)

instance (s : Signature) : Decidable s.BareVoid := inferInstanceAs (Decidable (_ ∧ _))

/-- `Void` stands in the offer at most by itself, as the result of a callable. -/
def Offer.BareVoid : Offer → Prop
  | .entry _ _ e => e.ty.hasVoid = false
  | .overload _ _ o => o.sig.BareVoid

instance : DecidablePred Offer.BareVoid
  | .entry _ _ e => inferInstanceAs (Decidable (e.ty.hasVoid = false))
  | .overload _ _ o => inferInstanceAs (Decidable o.sig.BareVoid)

/-- `Void` stands in the table at most by itself, as the result of a callable. -/
def ExternalTable.BareVoid (t : ExternalTable) : Prop :=
  (∀ x ∈ t.globals, x.2.ty.hasVoid = false) ∧ (∀ x ∈ t.synonyms, x.2.ty.hasVoid = false) ∧
    ∀ o ∈ t.functions.all, o.sig.BareVoid

instance (t : ExternalTable) : Decidable t.BareVoid := inferInstanceAs (Decidable (_ ∧ _ ∧ _))

theorem Builtin.bareVoid : ∀ c ∈ callables, c.sig.BareVoid := by
  decide

theorem Annotations.PlainSignature.bareVoid {s : Signature} {n : Nat} (h : PlainSignature s n) :
    s.BareVoid :=
  ⟨fun t ht => (h.params t ht).2, h.void⟩

/-! ## The places of a body -/

mutual

/-- The places of a statement, in their order. -/
def Stmt.places : Stmt → List Place
  | .decl d => [.decl d]
  | .assign v e _ => [.assign v e]
  | .cond bs none _ => Branch.placesAll bs
  | .cond bs (some body) _ => Branch.placesAll bs ++ Stmt.placesAll body
  | .loop e body _ => .guard e :: Stmt.placesAll body
  | .each v e body _ => .each v e :: Stmt.placesAll body
  | .ret e l => [.ret l e]
  | .brk _ | .cont _ => []
  | .expr e => [.call e]

/-- The places of a block. -/
def Stmt.placesAll : List Stmt → List Place
  | [] => []
  | st :: body => st.places ++ Stmt.placesAll body

/-- The places of branches. -/
def Branch.placesAll : List Branch → List Place
  | [] => []
  | .mk e body _ :: bs => .guard e :: (Stmt.placesAll body ++ Branch.placesAll bs)

end

section

variable {Φ : Place → Prop}

mutual

theorem Stmt.Holds.forall_places : ∀ {st : Stmt}, Stmt.Holds Φ st → ∀ p ∈ st.places, Φ p
  | _, .decl h | _, .assign h | _, .ret h | _, .expr h => List.forall_mem_singleton.2 h
  | _, .condNone h => h.forall_places
  | _, .condSome hb h => List.forall_mem_append.2 ⟨hb.forall_places, h.forall_places⟩
  | _, .loop he h | _, .each he h => List.forall_mem_cons.2 ⟨he, h.forall_places⟩
  | _, .brk | _, .cont => List.forall_mem_nil _

theorem Stmt.HoldsAll.forall_places :
    ∀ {body : List Stmt}, Stmt.HoldsAll Φ body → ∀ p ∈ Stmt.placesAll body, Φ p
  | _, .nil => List.forall_mem_nil _
  | _, .cons h hs => List.forall_mem_append.2 ⟨h.forall_places, hs.forall_places⟩

theorem Branch.HoldsAll.forall_places :
    ∀ {bs : List Branch}, Branch.HoldsAll Φ bs → ∀ p ∈ Branch.placesAll bs, Φ p
  | _, .nil => List.forall_mem_nil _
  | _, .cons he h hs =>
    List.forall_mem_cons.2 ⟨he, List.forall_mem_append.2 ⟨h.forall_places, hs.forall_places⟩⟩

end

end

mutual

theorem Stmt.Printable.forall_places : ∀ {st : Stmt}, st.Printable → ∀ p ∈ st.places, p.Printable
  | .decl _, h | .assign _ _ _, h | .ret _ _, h | .expr _, h => List.forall_mem_singleton.2 h
  | .cond _ none _, h => Branch.forall_places_of_printable h.2
  | .cond _ (some _) _, h =>
    List.forall_mem_append.2 ⟨Branch.forall_places_of_printable h.2.1,
      Stmt.forall_places_of_printable h.2.2⟩
  | .loop _ _ _, h => List.forall_mem_cons.2 ⟨h.1, Stmt.forall_places_of_printable h.2⟩
  | .each _ _ _ _, h => List.forall_mem_cons.2 ⟨⟨h.1, h.2.1⟩, Stmt.forall_places_of_printable h.2.2⟩
  | .brk _, _ | .cont _, _ => List.forall_mem_nil _

theorem Stmt.forall_places_of_printable : ∀ {body : List Stmt}, Stmt.PrintableBody body →
    ∀ p ∈ Stmt.placesAll body, p.Printable
  | [], _ => List.forall_mem_nil _
  | _ :: _, h => List.forall_mem_append.2 ⟨h.1.forall_places, Stmt.forall_places_of_printable h.2⟩

theorem Branch.forall_places_of_printable : ∀ {bs : List Branch}, Stmt.PrintableBranches bs →
    ∀ p ∈ Branch.placesAll bs, p.Printable
  | [], _ => List.forall_mem_nil _
  | .mk _ _ _ :: _, h => List.forall_mem_cons.2 ⟨h.1, List.forall_mem_append.2
      ⟨Stmt.forall_places_of_printable h.2.1, Branch.forall_places_of_printable h.2.2⟩⟩

end

/-! ## Calls -/

namespace Expr

mutual

/-- The calls in an expression. -/
def calls : Expr → List Binding
  | .int .. | .char .. | .bool .. | .str .. | .emptyList .. | .var .. => []
  | .pair a b _ => a.calls ++ b.calls
  | .flat e rest _ => e.calls ++ callsRest rest
  | .call _ _ args _ => callsArgs args
  | .bound b args _ => b :: callsArgs args

/-- The calls in arguments. -/
def callsArgs : List Expr → List Binding
  | [] => []
  | e :: es => e.calls ++ callsArgs es

/-- The calls in operands. -/
def callsRest : List (OpUse × Expr) → List Binding
  | [] => []
  | (_, e) :: rest => e.calls ++ callsRest rest

end

end Expr

/-- The calls at a place that have a use for their value: all but the one that is the statement
itself. -/
def Place.usedCalls : Place → List Binding
  | .decl d => d.init.calls
  | .assign _ e | .guard e | .each _ e => e.calls
  | .ret _ e => e.elim [] Expr.calls
  | .call (.bound _ args _) => Expr.callsArgs args
  | .call e => e.calls

/-- The calls in an item that have a use for their value. -/
def Item.usedCalls : Item → List Binding
  | .synonym _ => []
  | .global d => d.init.calls
  | .fn f => (Stmt.placesAll f.body).flatMap Place.usedCalls

/-- The calls in a program that have a use for their value. -/
def Program.usedCalls (p : Program) : List Binding := p.items.flatMap Item.usedCalls

theorem Ty.hasVoid_of_reach {a : Accessor} {t u : Ty} (h : a.reach t = some u)
    (ht : t.hasVoid = false) :
    u.hasVoid = false := by
  cases a <;> cases t <;> cases h
  all_goals simp_all [Ty.hasVoid]

theorem Ty.hasVoid_of_narrow :
    ∀ {as : List Accessor} {t u : Ty}, t.narrow as = .ok u → t.hasVoid = false →
    u.hasVoid = false
  | [], t, u, h, ht => by
    cases h
    exact ht
  | a :: as, t, u, h, ht => by
    rw [Ty.narrow] at h
    split at h
    · next hr => exact Ty.hasVoid_of_narrow h (Ty.hasVoid_of_reach hr ht)
    · cases h

/-- Nothing in the context can hold or receive a value of a type with `Void` in it. -/
structure Typing.Context.Valued (cx : Typing.Context) : Prop where
  refers : ∀ {r t}, cx.Refers r t → t.hasVoid = false
  params : ∀ {b sig}, cx.visible.Designates b sig → ∀ t ∈ sig.params, t.hasVoid = false
  result : ∀ {s}, cx.fn = some s → s.result ≠ .void → s.result.hasVoid = false

section

variable {cx : Typing.Context}

theorem Typing.Context.Valued.hasVar (hcx : cx.Valued) {v : Variable} {t : Ty} (h : cx.HasVar v t) :
    t.hasVoid = false := by
  obtain ⟨declared, hrefers, hnarrow, -⟩ := h
  exact Ty.hasVoid_of_narrow hnarrow (hcx.refers hrefers)

mutual

theorem HasType.calls_valued (hcx : cx.Valued) :
    ∀ {e : Expr} {t : Ty}, HasType cx e t → t.hasVoid = false →
    ∀ b ∈ e.calls, b.ty.hasVoid = false
  | _, _, .int, _ | _, _, .char, _ | _, _, .bool, _ | _, _, .str, _ | _, _, .emptyList, _ | _,
    _, .var _, _ =>
    List.forall_mem_nil _
  | _, _, .pair ha hb, ht => by
    rw [Ty.hasVoid, Bool.or_eq_false_iff] at ht
    exact List.forall_mem_append.2 ⟨ha.calls_valued hcx ht.1, hb.calls_valued hcx ht.2⟩
  | _, _, .bound hb has _, ht => List.forall_mem_cons.2 ⟨ht, has.calls_valued hcx (hcx.params hb)⟩

theorem HasTypes.calls_valued (hcx : cx.Valued) :
    ∀ {es : List Expr} {ts : List Ty}, HasTypes cx es ts →
    (∀ t ∈ ts, t.hasVoid = false) → ∀ b ∈ Expr.callsArgs es, b.ty.hasVoid = false
  | _, _, .nil, _ => List.forall_mem_nil _
  | _, _, .cons h hs, ht => by
    rw [List.forall_mem_cons] at ht
    exact List.forall_mem_append.2 ⟨h.calls_valued hcx ht.1, hs.calls_valued hcx ht.2⟩

end

/-- At a typed place every call that has a use for its value has one. -/
theorem Place.usedCalls_valued (hcx : cx.Valued) {p : Place} (h : p.Typed cx) (hp : p.Printable) :
    ∀ b ∈ p.usedCalls, b.ty.hasVoid = false := by
  cases p with
  | decl d =>
    obtain ⟨t, -, hrefers, ht⟩ := h
    exact ht.calls_valued hcx (hcx.refers hrefers)
  | assign v e =>
    obtain ⟨t, hv, ht⟩ := h
    exact ht.calls_valued hcx (hcx.hasVar hv)
  | guard e => exact HasType.calls_valued hcx h rfl
  | each v e =>
    obtain ⟨t, hv, ht⟩ := h
    have hvoid := hcx.hasVar hv
    exact ht.calls_valued hcx hvoid
  | ret l e =>
    cases e with
    | none => exact List.forall_mem_nil _
    | some e =>
      obtain ⟨s, hs, hvoid, ht⟩ := h
      exact ht.calls_valued hcx (hcx.result hs hvoid)
  | call e =>
    obtain ⟨t, ht⟩ := h
    cases ht with
    | bound hb has _ => exact has.calls_valued hcx (hcx.params hb)
    | _ => exact hp.1.elim

end

/-! ## The tables -/

theorem Callables.mem_all_of_get {α : Type} {fs : Callables α} {kind : CallKind} {name : String}
    {o : α} (h : o ∈ fs.get kind name) : o ∈ fs.all := by
  rw [Callables.get] at h
  cases hl : fs.lookup (kind, name) with
  | none =>
    rw [hl] at h
    cases h
  | some set =>
    rw [hl] at h
    exact List.mem_flatMap.2 ⟨_, mem_of_lookup hl, h⟩

/-- Recording variables of plain types leaves a plain table. -/
theorem ModuleTable.Plain.setLocals {t : ModuleTable} (h : t.Plain) (i : Nat) {locals : Scope}
    (hl : ∀ x ∈ locals, x.2.ty.Plain) : (t.setLocals i locals).Plain := by
  refine ⟨h.globals, h.synonyms, ?_⟩
  have ho := h.overloads
  rw [ModuleTable.setLocals]
  obtain ⟨-, heq⟩ | ⟨l, o, r, hall, -, -, hupdated⟩ :=
    Callables.all_updateFirst (fun o => o.item = i) (fun o => { o with locals }) t.functions
  · rw [heq]
    exact ho
  · rw [hupdated]
    rw [hall] at ho
    simp only [List.forall_mem_append, List.forall_mem_cons] at ho ⊢
    exact ⟨ho.1, ⟨ho.2.1.sig, ho.2.1.args, hl⟩, ho.2.2⟩

namespace Scoping

variable {t : ModuleTable} {externals : ExternalTable} {P : Diagnostic → Prop}

/-- The variables that a body declares have the types that it gives them. -/
theorem plain_locals {args locals : Scope} {b b' : List Stmt}
    (hw : Stmt.WalkAll Eq ((body t externals args).Graph P) [] b b' locals)
    (hp : Annotations.PlainLocals b) :
    ∀ x ∈ locals, x.2.ty.Plain := by
  have hgrows : Weakens Eq Eq
      (fun s p q s' => (body t externals args).Graph P s p q s' ∧
        p.OnDecl fun _ ty => Annotations.PlainDecl ty)
      (fun _ _ _ _ => True)
      (fun s s' => (∀ x ∈ s, x.2.ty.Plain) → ∀ x ∈ s', x.2.ty.Plain) locals := by
    refine ⟨id, ?_, fun h h' hs => h' (h hs), fun _ => id, fun _ _ => trivial⟩
    rintro s p q s' ⟨hg, hdecl⟩ hs
    rw [← (graph_iff.1 hg).2.1]
    cases p with
    | decl d =>
      obtain ⟨ty, hty, hplain⟩ := hdecl
      rw [after, value_declare, hty]
      cases s.lookup d.name with
      | none => exact List.forall_mem_append.2 ⟨hs, List.forall_mem_singleton.2 hplain⟩
      | some e => exact hs
    | _ => exact hs
  exact (hw.and hp).grows hgrows (List.forall_mem_nil _)

/-- Scoping normal items leaves a plain table. -/
theorem Tags.plain {i : Nat} {its its' : List Item} {t' : ModuleTable}
    (h : Tags externals P i its t its' t') (hn : ∀ it ∈ its, Annotations.NormalItem it)
    (ht : t.Plain) : t'.Plain := by
  induction h with
  | nil => exact ht
  | synonym _ ih | global _ _ ih => exact ih (List.forall_mem_cons.1 hn).2 ht
  | fn _ hw _ ih =>
    obtain ⟨hf, hrest⟩ := List.forall_mem_cons.1 hn
    exact ih hrest (ht.setLocals _ (plain_locals hw hf.locals))

end Scoping

section

variable {v : Visible}

/-- What a binding stands for can take values only, if the tables have `Void` as a bare result
only. -/
theorem Visible.Designates.params_valued (hown : v.own.Plain)
    (hext : v.externals.BareVoid) {b : Binding} {sig : Signature} (h : v.Designates b sig) :
    ∀ t ∈ sig.params, t.hasVoid = false := by
  cases h with
  | own _ ho _ =>
    have hplain := hown.overloads _ (Callables.mem_all_of_get (List.mem_of_getElem? ho))
    exact hplain.sig.bareVoid.1
  | external _ ho _ => exact (hext.2.2 _ (Callables.mem_all_of_get (List.mem_of_getElem? ho))).1

/-- The scopes that tables with `Void` as a bare result only record. -/
theorem Typing.Context.valued (hown : v.own.Plain) (hext : v.externals.BareVoid)
    {fn : Option Typing.FnScope} (hfn : ∀ s, fn = some s → ∃ o ∈ v.own.functions.all,
      s = ⟨o.args, o.locals, o.sig.result⟩) : Typing.Context.Valued ⟨v, fn⟩ where
  refers h := by
    cases h with
    | own he => exact (hown.globals _ (mem_of_lookup he)).2
    | imported he => exact hext.1 _ (mem_of_lookup he)
    | localVar hs he =>
      obtain ⟨o, ho, rfl⟩ := hfn _ hs
      exact ((hown.overloads o ho).locals _ (mem_of_lookup he)).2
    | argument hs he =>
      obtain ⟨o, ho, rfl⟩ := hfn _ hs
      exact ((hown.overloads o ho).args _ (mem_of_lookup he)).2
  params h := h.params_valued hown hext
  result hs hvoid := by
    obtain ⟨o, ho, rfl⟩ := hfn _ hs
    refine (hown.overloads o ho).sig.void (Bool.eq_false_iff.2 fun hv => hvoid ?_)
    exact Ty.isVoid_iff.1 hv

end

theorem Item.usedCalls_valued {v : Visible} (hown : v.own.Plain) (hext : v.externals.BareVoid)
    {i : Nat} {it : Item} (h : it.Meets v i Place.Typed) (hp : it.Printable) :
    ∀ b ∈ it.usedCalls, b.ty.hasVoid = false := by
  cases it with
  | synonym s => exact List.forall_mem_nil _
  | global d =>
    have hcx : Typing.Context.Valued ⟨v, none⟩ := Typing.Context.valued hown hext fun s hs => by
      cases hs
    exact Place.usedCalls_valued (p := .decl d) hcx h hp
  | fn f =>
    obtain ⟨o, ho, -, -, hbody⟩ := h
    have hcx : Typing.Context.Valued ⟨v, some ⟨o.args, o.locals, o.sig.result⟩⟩ :=
      Typing.Context.valued hown hext fun s hs =>
        ⟨o, List.mem_of_find?_eq_some ho, (Option.some.inj hs).symm⟩
    intro b hb
    obtain ⟨p, hmem, hb⟩ := List.mem_flatMap.1 hb
    exact Place.usedCalls_valued hcx (hbody.forall_places p hmem)
      (Stmt.forall_places_of_printable hp.body p hmem) b hb

/-- In a module that passes all passes `Void` is the bare result of a callable or nowhere, and what
is imported has it elsewhere only as a header lists it. If nothing imported has, every call of type
`Void` is a statement. -/
theorem Resolved.void_of_compile {text : String} {headers : HeaderTexts} {o : Options}
    {r : Resolved} (h : compile text headers o = .ok r) :
    r.table.Plain ∧
    (∀ a, r.externals.Holds a → a.BareVoid ∨
      ∃ hd, Imports.headerOf headers Builtin.table a.key.module = some hd ∧
      a.key.module ∈ r.modules ∧ ∃ c ∈ hd.offers, a = c.under a.key.name) ∧
    (r.externals.BareVoid → ∀ b ∈ r.program.usedCalls, b.ty.hasVoid = false) := by
  obtain ⟨p, hp, hr⟩ := bind_eq_ok_iff.1 h
  obtain ⟨hadmitted, rfl⟩ := resolve_eq_ok_iff.1 hr
  have hnotes : ∀ d ∈ (stages p headers o).notes, NotError d := fun d hd => (hadmitted d hd).1
  obtain ⟨himported, -⟩ := Stages.forall_notes.1 hnotes
  rw [imported_stages] at himported
  have hplain : (stages p headers o).tagged.value.2.Plain :=
    (tags_declared hnotes).plain (accepted_declared hnotes).normal.items
      (accepted_declared hnotes).plain
  have hprintable : (stages p headers o).checked.value.Printable := by
    rw [checked_stages]
    exact (sound_grouped hp _).checked.printable
  have hmeets := meets_typed_checked (Program.printable_of_ofText hp).2.all hnotes
  refine ⟨hplain, fun a ha => ?_, fun hext b hb => ?_⟩
  · simp only [Stages.resolved, Stages.externals, imported_stages] at ha ⊢
    obtain hmem | hmem := Imports.mem_of_holds himported ha
    · obtain ⟨hd, hheader, hmodule, hlisted⟩ := Imports.exists_header hmem
      exact .inr ⟨hd, hheader, Imports.mem_modules.2 hmodule, hlisted⟩
    · obtain rfl | ⟨c, hc, rfl⟩ := Imports.mem_builtinOffers.1 hmem
      · exact .inl rfl
      · exact .inl (Builtin.bareVoid c hc)
  · generalize stages p headers o = s at hplain hprintable hmeets hext hb
    obtain ⟨it, hit, hb⟩ := List.mem_flatMap.1 hb
    obtain ⟨i, hi⟩ := List.getElem?_of_mem hit
    exact Item.usedCalls_valued (v := s.visible) hplain hext (hmeets i it hi)
      (hprintable.2 it hit) b hb

/-- The header of a module `m` with a function `g` that takes a `Void`. -/
def voidHeaders : HeaderTexts :=
  [("m", "\x7b\"module\":\"m\",\"functions\":[\x7b\"namespace\":\"function\",\"name\":\"g\"," ++
    "\"type\":\"FUNTYPE(type_params=[BASICTYPE(type_id=\\\"Void\\\")]," ++
    "return_type=BASICTYPE(type_id=\\\"Int\\\"))\"\x7d]\x7d")]

/-- Calls of type `Void` as statements, and others in an initializer, a condition and an
argument. -/
theorem Resolved.void_of_compile_sample : ∃ r,
    compile
      ("from lib import z; f(x) :: Int -> Void \x7b Char c = chr(x); while (x < ord(c) + z)" ++
      "\x7b print(c); f(-x); \x7d return; \x7d") libHeaders { module := "n" } = .ok r ∧
    r.externals.BareVoid ∧ r.table.Plain ∧
    (∀ a, r.externals.Holds a → a.BareVoid ∨
      ∃ hd, Imports.headerOf libHeaders Builtin.table a.key.module = some hd ∧
      a.key.module ∈ r.modules ∧ ∃ c ∈ hd.offers, a = c.under a.key.name) ∧
    ∀ b ∈ r.program.usedCalls, b.ty.hasVoid = false := by
  refine exists_ok_of_check (c := fun r => decide r.externals.BareVoid) (by decide +kernel)
    fun r hr hc => ?_
  have hbare := of_decide_eq_true hc
  obtain ⟨hplain, hlisted, hcalls⟩ := Resolved.void_of_compile hr
  exact ⟨hbare, hplain, hlisted, hcalls hbare⟩

/-- The value of a call of type `Void` is handed to a function whose header says that it takes
one. -/
theorem Resolved.exists_void_argument : ∃ r,
    compile "from m import g; main() :: -> Int \x7b return g(print(1)); \x7d" voidHeaders
      { module := "main" } = .ok r ∧
    ¬ r.externals.BareVoid ∧ ∃ b ∈ r.program.usedCalls, b.ty = .void :=
  exists_ok_of_check
    (c := fun r => decide (¬ r.externals.BareVoid ∧ ∃ b ∈ r.program.usedCalls, b.ty = .void))
    (by decide +kernel) fun _ _ h => of_decide_eq_true h

end SplFrontend
