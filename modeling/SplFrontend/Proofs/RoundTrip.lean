import SplFrontend.Builtins
import SplFrontend.Proofs.Annotations
import SplFrontend.Proofs.Precedence
import SplFrontend.Proofs.Scoping
import SplFrontend.Proofs.Typing

/-!
# Printing and reading back

Reading the printed form of a tree gives back what is written of the tree, at every stage of the
work: right after reading, and after any passes over it in any order. The passes keep trees
printable. Scoping and checking do so because they leave what is written; expansion writes types
that have no synonyms, and grouping makes infix calls of two printable operands.
-/

namespace SplFrontend

/-! ## Printable is a property of what is written -/

section

variable {k : Erasure}

theorem Expr.printable_of_erase {e e' : Expr} (h : e.erase k = e'.erase k) (he : e.Printable) :
    e'.Printable := by
  rw [← printable_erase k, ← h, printable_erase]
  exact he

theorem Expr.isFunctionCall_erase (e : Expr) : (e.erase k).IsFunctionCall ↔ e.IsFunctionCall := by
  have hcall : ∀ kind name args, (k.call kind name args).IsFunctionCall ↔ kind = .function := by
    intro kind name args
    obtain h | ⟨l, r, rfl, -, h⟩ := k.call_cases kind name args <;> rw [h] <;> simp [IsFunctionCall]
  cases e with
  | call kind name args l =>
    rw [erase, hcall]
    rfl
  | bound b args l =>
    rw [erase]
    split
    · simp only [IsFunctionCall]
    · rw [hcall]
      rfl
  | _ => simp only [erase, IsFunctionCall]

theorem Variable.printable_of_erase {v w : Variable} (h : v.erase k = w.erase k)
    (hv : v.Printable) :
    w.Printable := by
  have hr := congrArg (fun x => x.ref.name) h
  simp only [Variable.erase, k.name_ref] at hr
  rw [Variable.Printable, ← hr]
  exact hv

theorem VarDecl.printable_of_erase {d d' : VarDecl} (h : d.erase k = d'.erase k)
    (hd : d.Printable) :
    d'.Printable := by
  simp only [VarDecl.erase, VarDecl.mk.injEq] at h
  obtain ⟨hn, ht, hi, -⟩ := h
  exact ⟨hn ▸ hd.1, ht ▸ hd.2.1, Expr.printable_of_erase hi hd.2.2⟩

theorem Place.printable_of_agree {p q : Place} (h : Place.Agree k k p q) (hp : p.Printable) :
    q.Printable := by
  cases p <;> cases q <;>
    simp only [Agree, erase, reduceCtorEq, Place.decl.injEq, Place.assign.injEq, Place.guard.injEq,
      Place.each.injEq, Place.ret.injEq, Place.call.injEq, true_and] at h
  case decl.decl => exact VarDecl.printable_of_erase h hp
  case assign.assign =>
    exact ⟨Variable.printable_of_erase h.1 hp.1, Expr.printable_of_erase h.2 hp.2⟩
  case guard.guard => exact Expr.printable_of_erase h hp
  case each.each =>
    exact ⟨Variable.printable_of_erase h.1 hp.1, Expr.printable_of_erase h.2 hp.2⟩
  case ret.ret e _ e' =>
    intro x hx
    subst hx
    obtain ⟨y, rfl, hy⟩ := Option.map_eq_some_iff.1 h
    exact Expr.printable_of_erase hy (hp y rfl)
  case call.call e e' =>
    refine ⟨?_, Expr.printable_of_erase h hp.2⟩
    rw [← Expr.isFunctionCall_erase (k := k), ← h, Expr.isFunctionCall_erase]
    exact hp.1

theorem Item.printable_of_erase {i j : Item} (h : i.erase k = j.erase k) (hi : i.Printable) :
    j.Printable := by
  cases i <;> cases j <;> simp only [erase, reduceCtorEq, Item.global.injEq, Item.fn.injEq] at h
  case synonym.synonym s s' =>
    simp only [Item.synonym.injEq, Synonym.mk.injEq] at h
    exact ⟨h.1 ▸ hi.1, h.2.1 ▸ hi.2⟩
  case global.global => exact VarDecl.printable_of_erase h hi
  case fn.fn f g =>
    simp only [FnDef.erase, FnDef.mk.injEq] at h
    obtain ⟨hhead, hname, hparams, hsig, hbody, -⟩ := h
    refine ⟨?_, ?_, hsig ▸ hi.sig, ?_⟩
    · have := hi.name
      rw [FnDef.nameKind, hhead, hname] at this
      exact this
    · have hnames := congrArg (List.map Param.name) hparams
      simp only [List.map_map, Function.comp_def] at hnames
      intro p hp
      have hmem : p.name ∈ f.params.map fun p => p.name := hnames ▸ List.mem_map_of_mem hp
      obtain ⟨q, hq, hqn⟩ := List.mem_map.1 hmem
      rw [← hqn]
      exact hi.params q hq
    · refine (Stmt.walkAll_of_erase _ _ hbody).printable (fun _ p q _ hpq hp => ?_) hi.body
      exact Place.printable_of_agree hpq hp

end

/-! ## The stages of a program -/

/-- What passes make of a program, in any order and any number of times. Reading, expansion, scoping
and grouping may each use tables of their own; checking uses the tables `v`, since a binding means
an overload of these. -/
inductive Staged (v : Visible) (p : Program) : Program → Prop
  | read : Staged v p p
  | expanded {q} (externals : ExternalTable) (t : ModuleTable) : Staged v p q →
      Staged v p (Annotations.normalise externals q t).value.1
  | tagged {q} (externals : ExternalTable) (t : ModuleTable) : Staged v p q →
      Staged v p (Scoping.resolve externals q t).value.1
  | grouped {q} (w : Visible) : Staged v p q → Staged v p (Precedence.resolve w q).value
  | checked {q} : Staged v p q → Staged v p (Typing.resolve v q).value

/-- What every stage keeps: the tree can be written, and its bindings fit. -/
structure Sound (v : Visible) (p : Program) : Prop where
  printable : p.Printable
  fits : ∀ i ∈ p.items, i.All (.fits v)

theorem Nodes.fresh_le_fits (v : Visible) : Nodes.fresh.Le (.fits v) :=
  ⟨fun _ => trivial, fun _ => trivial, fun _ => trivial, False.elim⟩

theorem Program.Printable.of_erase {k : Erasure} {p q : Program} (h : q.erase k = p.erase k)
    (himports : q.imports = p.imports) (hp : p.Printable) : q.Printable := by
  refine ⟨himports ▸ hp.1, fun j hj => ?_⟩
  have hitems := (Program.mk.inj h).2
  have hmem : j.erase k ∈ p.items.map (Item.erase k) := hitems ▸ List.mem_map_of_mem hj
  obtain ⟨i, hi, hij⟩ := List.mem_map.1 hmem
  exact Item.printable_of_erase hij (hp.2 i hi)

namespace Sound

variable {v : Visible} {p : Program}

theorem expanded (h : Sound v p) (externals : ExternalTable) (t : ModuleTable) :
    Sound v (Annotations.normalise externals p t).value.1 := by
  rw [Annotations.value_normalise]
  refine ⟨⟨h.printable.1, fun j hj => ?_⟩, fun j hj => ?_⟩ <;> obtain ⟨i, hi, rfl⟩ :=
    List.mem_map.1 hj
  · exact Annotations.printable_item (h.printable.2 i hi)
  · exact Annotations.all_item (h.fits i hi)

theorem tagged (h : Sound v p) (externals : ExternalTable) (t : ModuleTable) :
    Sound v (Scoping.resolve externals p t).value.1 :=
  ⟨h.printable.of_erase (Scoping.erase_resolve p) rfl,
    Scoping.all_items (fun _ => trivial) 0 p.items t h.fits⟩

theorem grouped (h : Sound v p) (w : Visible) : Sound v (Precedence.resolve w p).value := by
  refine ⟨⟨h.printable.1, fun j hj => ?_⟩, fun j hj => ?_⟩ <;>
    rw [Precedence.items_resolve] at hj <;> obtain ⟨i, hi, rfl⟩ := List.mem_map.1 hj
  · exact Precedence.printable_item (h.printable.2 i hi)
  · exact Precedence.all_item (F := True) (P := fun _ => True) (.inl trivial) (h.fits i hi)
      fun _ _ => trivial

theorem checked (h : Sound v p) : Sound v (Typing.resolve v p).value := by
  have hr := Typing.erase_resolve (k := .resolution) rfl h.fits
  exact ⟨h.printable.of_erase hr.1 rfl, hr.2⟩

end Sound

theorem Staged.sound {v : Visible} {p q : Program} (hp : Sound v p) (hq : Staged v p q) :
    Sound v q := by
  induction hq with
  | read => exact hp
  | expanded externals t _ ih => exact ih.expanded externals t
  | tagged externals t _ ih => exact ih.tagged externals t
  | grouped w _ ih => exact ih.grouped w
  | checked _ ih => exact ih.checked

/-! ## Reading back -/

/-- What is printed of a program at any stage is read back as what is written of it. In particular a
program that was just read comes back as it is, up to places. -/
theorem Program.ofText_render_of_staged {text : String} {p q : Program} {v : Visible}
    (hp : Program.ofText text = .ok p) (hq : Staged v p q) :
    (∃ p', Program.ofText q.render = .ok p' ∧ p'.unlocated = q.written) ∧
      ∃ p', Program.ofText p.render = .ok p' ∧ p'.unlocated = p.unlocated := by
  obtain ⟨hprint, hfresh⟩ := Program.printable_of_ofText hp
  have hsound : Sound v p :=
    ⟨hprint, fun i hi => Item.All.mono (Nodes.fresh_le_fits v) (hfresh.all i hi)⟩
  refine ⟨Program.ofText_render_of_printable (hq.sound hsound).printable, ?_⟩
  obtain ⟨p', hread, heq⟩ := Program.ofText_render_of_printable hprint
  exact ⟨p', hread, heq.trans hfresh⟩

/-- A text with nested sequences, a prefix operator before a sequence, an escape and a comment,
after all passes with the built-in names. -/
theorem Program.ofText_render_of_staged_sample :
    ∃ p q,
      Program.ofText
        ("type T = [Int]; T g = []; f(x) :: T -> Int \x7b print(\"\\\"\"); /* end */" ++
        "if (x.hd < -(1 + 2) * 3) \x7b return x.tl +* g; \x7d return - h((x, 1)); \x7d") = .ok p ∧
      Staged ⟨{ module := "m" }, Builtin.table⟩ p q ∧
      (∃ p', Program.ofText q.render = .ok p' ∧ p'.unlocated = q.written) ∧
      ∃ p', Program.ofText p.render = .ok p' ∧ p'.unlocated = p.unlocated := by
  have hok :
      (Program.ofText
        ("type T = [Int]; T g = []; f(x) :: T -> Int \x7b print(\"\\\"\"); /* end */" ++
      "if (x.hd < -(1 + 2) * 3) \x7b return x.tl +* g; \x7d return - h((x, 1)); \x7d")).isOk =
        true := by
    decide +kernel
  obtain ⟨p, hp⟩ := isOk_iff.1 hok
  have hq := ((((Staged.read (v := ⟨{ module := "m" }, Builtin.table⟩) (p := p)).expanded
    Builtin.table { module := "m" }).tagged Builtin.table { module := "m" }).grouped
      ⟨{ module := "m" }, Builtin.table⟩).checked
  exact ⟨p, _, hp, hq, Program.ofText_render_of_staged hp hq⟩

end SplFrontend
