import SplFrontend.Proofs.Exports
import SplFrontend.Proofs.Imports.Builtins

/-!
# One fixity for an operator

Operators are grouped by the first fixity that is found for their name, in the module's own table
and then in that of the imports. Once the declarations of a module are accepted it does not matter
where one looks: all infix operators of one name that the module sees, its own, imported, renamed or
built in, have the same fixity (`fixity_of_declared`). Scoping changes the table of the module, but
no fixity in it.
-/

namespace SplFrontend

namespace Sink

theorem pass_eq_ok_iff {α : Type} {s s' : Sink} {x : Noted α} {a : α} :
    s.pass x = .ok (a, s') ↔ (s.pushAll x.notes).Open ∧ a = x.value ∧ s' = s.pushAll x.notes := by
  have h := pass_bind_eq_ok_iff (s := s) (x := x) (f := pure) (b := (a, s'))
  rw [bind_pure] at h
  rw [h]
  refine and_congr_right fun _ => ?_
  simp [pure, Except.pure, eq_comm]

end Sink

namespace Visible

/-- The fixities of the infix operators of a name, those of the module at hand first. -/
def fixities (v : Visible) (op : String) : List (Option Fixity) :=
  (v.own.overloads .infixOp op).map LocalOverload.fixity ++
    (v.externals.overloads .infixOp op).map ExternalOverload.fixity

theorem fixityOf_eq (v : Visible) (op : String) : v.fixityOf op = (v.fixities op).findSome? id := by
  rw [fixities, List.findSome?_append, List.findSome?_map, List.findSome?_map, fixityOf,
    Option.orElse_eq_orElse, Option.orElse_eq_or]
  rfl

/-- Tables that export the same have the same fixities. -/
theorem fixities_congr {t t' : ModuleTable} (h : t'.exports = t.exports) (externals : ExternalTable)
    (op : String) :
    fixities ⟨t', externals⟩ op = fixities ⟨t, externals⟩ op := by
  have hown : ∀ t : ModuleTable, (t.overloads .infixOp op).map LocalOverload.fixity =
      (t.exports.overloads .infixOp op).map ExternalOverload.fixity := fun t => by
    rw [ModuleTable.overloads_exports, List.map_map]
    rfl
  rw [fixities, fixities, hown, hown, h]

end Visible

section

variable {p : Program} {externals : ExternalTable} {o : Options} {t : ModuleTable}

/-- If the own operators agree with the imported ones, and these with each other, a name has one
fixity. -/
theorem Accepted.fixities_eq (h : Accepted externals o p t) (hext : externals.Coherent)
    (op : String) :
    ∃ x, ∀ f ∈ Visible.fixities ⟨t, externals⟩ op, f = some x := by
  obtain ⟨-, φ, hown, himported, -⟩ := h.exportable
  refine ⟨φ op, fun f hf => ?_⟩
  obtain hf | hf := List.mem_append.1 hf
  · obtain ⟨l, hl, rfl⟩ := List.mem_map.1 hf
    exact hown.fixity_of_mem hl
  · obtain ⟨e, he, rfl⟩ := List.mem_map.1 hf
    obtain ⟨x, hx, hfixity⟩ := hext.fixity he
    rw [hx, himported op x hfixity]

/-- Scoping changes no fixity, whatever it reports. -/
theorem Accepted.fixities_scoped (h : Accepted externals o p t) (op : String) :
    Visible.fixities ⟨(Scoping.resolve externals p t).value.2, externals⟩ op =
      Visible.fixities ⟨t, externals⟩ op :=
  Visible.fixities_congr (h.tags (P := fun _ => True) fun _ _ => trivial).exports_eq.2 externals op

end

/-- If the imports and the declarations of a module pass their barriers, all infix operators of a
name that it sees have one fixity, and that is the one operators are grouped by, in whatever order
one looks for it. -/
theorem fixity_of_declared {p : Program} {headers : HeaderTexts} {o : Options} {imported : Imported}
    {declared : Program × ModuleTable} {s s' : Sink}
    (himported : (Sink.empty o.denyWarnings).pass (Imports.merge headers Builtin.table p.imports) =
      .ok (imported, s))
    (hdeclared : s.pass (declareModule imported.externals p { module := o.module }) =
      .ok (declared, s')) :
    let v : Visible := ⟨declared.2, imported.externals⟩
    let w : Visible :=
      ⟨(Scoping.resolve imported.externals declared.1 declared.2).value.2, imported.externals⟩
    ∀ op, (∃ x, ∀ f ∈ v.fixities op, f = some x) ∧ w.fixities op = v.fixities op ∧
      ∀ fs : List (Option Fixity), fs.Perm (v.fixities op) → w.fixityOf op = fs.findSome? id := by
  obtain ⟨-, rfl, rfl⟩ := Sink.pass_eq_ok_iff.1 himported
  obtain ⟨hopen, rfl, -⟩ := Sink.pass_eq_ok_iff.1 hdeclared
  rw [Sink.pushAll_pushAll, Sink.open_pushAll, List.forall_mem_append] at hopen
  have hsound : (Imports.merge headers Builtin.table p.imports).value.externals.Sound :=
    (Imports.merge_unlocated Builtin.sound p.imports).value.2
  have haccepted := accepted_of_notes hsound.expanded fun d hd => (hopen.2 d hd).1
  have hcoherent := Imports.coherent_of_merge fun d hd => (hopen.1 d hd).1
  intro v w op
  obtain ⟨x, hx⟩ := haccepted.fixities_eq hcoherent op
  refine ⟨⟨x, hx⟩, haccepted.fixities_scoped op, fun fs hfs => ?_⟩
  -- a list of equal fixities is the same in any order
  have hsame : fs = v.fixities op := by
    rw [List.eq_replicate_iff.2 ⟨rfl, hx⟩] at hfs ⊢
    exact List.perm_replicate.1 hfs
  rw [Visible.fixityOf_eq, haccepted.fixities_scoped op, hsame]

/-- A module overloads a built-in operator twice. -/
theorem fixity_of_declared_sum : ∃ p imported s declared s',
    Program.ofText ("infixl 6 +(a, b) :: Bool Bool -> Bool \x7b return a || b; \x7d" ++
      "infixl 6 +(a, b) :: Bool Int -> Int \x7b return b + 1; \x7d") = .ok p ∧
    (Sink.empty false).pass (Imports.merge [] Builtin.table p.imports) = .ok (imported, s) ∧
    s.pass (declareModule imported.externals p { module := "m" }) = .ok (declared, s') ∧
    let v : Visible := ⟨declared.2, imported.externals⟩
    let w : Visible :=
      ⟨(Scoping.resolve imported.externals declared.1 declared.2).value.2, imported.externals⟩
    ∀ op, (∃ x, ∀ f ∈ v.fixities op, f = some x) ∧ w.fixities op = v.fixities op ∧
      ∀ fs : List (Option Fixity), fs.Perm (v.fixities op) → w.fixityOf op = fs.findSome? id := by
  have hok : (compile ("infixl 6 +(a, b) :: Bool Bool -> Bool \x7b return a || b; \x7d" ++
      "infixl 6 +(a, b) :: Bool Int -> Int \x7b return b + 1; \x7d") [] { module := "m" }).isOk =
      true := by
    decide +kernel
  obtain ⟨r, hr⟩ := isOk_iff.1 hok
  obtain ⟨p, hp, hresolve⟩ := bind_eq_ok_iff.1 hr
  obtain ⟨⟨imported, s⟩, himported, hrest⟩ := bind_eq_ok_iff.1 hresolve
  obtain ⟨⟨declared, s'⟩, hdeclared, -⟩ := bind_eq_ok_iff.1 hrest
  exact ⟨p, imported, s, declared, s', hp, himported, hdeclared,
    fixity_of_declared (o := { module := "m" }) himported hdeclared⟩

end SplFrontend
