import SplFrontend.Proofs.Rereading.Program

/-!
# What is read can be written

A tree that was read from proper tokens is printable, and it is fresh: the passes have added nothing
to it yet, so that all of it but its places is written. Both are shown along the derivations of the
grammar.
-/

namespace SplFrontend

/-- All tokens are proper. -/
def AllProper (ts : List Token) : Prop := ∀ t ∈ ts, t.kind.Proper

theorem AllProper.tail {t : Token} {ts : List Token} (h : AllProper (t :: ts)) : AllProper ts :=
  fun u hu => h u (List.mem_cons_of_mem _ hu)

theorem AllProper.head {k : Kind} {l : Loc} {ts : List Token} (h : AllProper (⟨k, l⟩ :: ts)) :
    k.Proper := h _ List.mem_cons_self

/-! ## Types -/

theorem Ty.printable_ofName {n : String} (h : (Kind.typeName n).Proper) :
    (Ty.ofName n).Printable := by
  unfold Ty.ofName
  split
  · trivial
  · next hn => exact ⟨h, hn⟩

theorem Ty.Reads.printable {ts r : List Token} {t : Ty} (h : Ty.Reads ts t r) (hts : AllProper ts) :
    t.Printable ∧ AllProper r := by
  induction h with
  | name => exact ⟨Ty.printable_ofName hts.head, hts.tail⟩
  | pair _ _ iha ihb =>
    have ha := iha hts.tail
    have hb := ihb ha.2.tail
    exact ⟨⟨ha.1, hb.1⟩, hb.2.tail⟩
  | list _ ih =>
    have he := ih hts.tail
    exact ⟨he.1, he.2.tail⟩

theorem Signature.Reads.printable {ts r : List Token} {s : Signature} (h : Signature.Reads ts s r)
    (hts : AllProper ts) : s.Printable ∧ AllProper r := by
  induction h with
  | result h =>
    have ht := h.printable hts.tail
    exact ⟨⟨nofun, ht.1⟩, ht.2⟩
  | param h _ ih =>
    have ht := h.printable hts
    have hs := ih ht.2
    exact ⟨⟨List.forall_mem_cons.2 ⟨ht.1, hs.1.1⟩, hs.1.2⟩, hs.2⟩

/-! ## Expressions -/

/-- The passes have added nothing to the expression. -/
def Expr.Fresh (e : Expr) : Prop := e.erase .resolution = e.erase .places

theorem Variable.allProper_accessorsOf {ts : List Token} (h : AllProper ts) :
    AllProper (Variable.accessorsOf ts).2 := by
  fun_induction Variable.accessorsOf ts with
  | case1 a l ts ih => exact ih h.tail
  | case2 ts => exact h

namespace Expr

/-- The expressions are printable and fresh, and so are the tokens after them. -/
def ReadWell (es : List Expr) (r : List Token) : Prop :=
  PrintableArgs es ∧ eraseArgs .resolution es = eraseArgs .places es ∧ AllProper r

theorem fresh_flat {e : Expr} {os : List (OpUse × Expr)} {l : Loc} (he : e.Fresh)
    (hos : eraseRest .resolution os = eraseRest .places os) : (Expr.flat e os l).Fresh := by
  have he' : e.erase .resolution = e.erase .places := he
  simp only [Fresh, erase, he', hos]

mutual

theorem Reads.printable : ∀ {ts r : List Token} {e : Expr}, Reads ts e r → AllProper ts →
    e.Printable ∧ e.Fresh ∧ AllProper r
  | _, _, _, .single h _, hts => h.printable hts
  | _, _, _, .flat h hc, hts => by
    have he := h.printable hts
    have hos := hc.printable he.2.2.head he.2.2.tail
    rw [Printable]
    exact ⟨⟨he.1, hos.1, hos.2.1⟩, fresh_flat he.2.1 hos.2.2.1, hos.2.2.2⟩

theorem ReadsChain.printable : ∀ {o : OpUse} {ts r : List Token} {os : List (OpUse × Expr)},
    ReadsChain o ts os r → (Kind.op o.name).Proper → AllProper ts →
    os ≠ [] ∧ PrintableRest os ∧ eraseRest .resolution os = eraseRest .places os ∧ AllProper r
  | _, _, _, _, .last h _, ho, hts => by
    obtain ⟨hp, hf, hr⟩ := h.printable hts
    simp only [Fresh] at hf
    simp only [PrintableRest, eraseRest, hf]
    exact ⟨List.cons_ne_nil _ _, ⟨ho, hp, trivial⟩, trivial, hr⟩
  | _, _, _, _, .more h hc, ho, hts => by
    have he := h.printable hts
    obtain ⟨-, hps, hfs, hr⟩ := hc.printable he.2.2.head he.2.2.tail
    obtain ⟨hp, hf, -⟩ := he
    simp only [Fresh] at hf
    simp only [PrintableRest, eraseRest, hf, hfs]
    exact ⟨List.cons_ne_nil _ _, ⟨ho, hp, hps⟩, trivial, hr⟩

theorem ReadsOperand.printable : ∀ {ts r : List Token} {e : Expr}, ReadsOperand ts e r →
    AllProper ts → e.Printable ∧ e.Fresh ∧ AllProper r
  | _, _, _, .prefixed h, hts => by
    obtain ⟨hp, hf, hr⟩ := h.printable hts.tail
    simp only [Fresh] at hf
    refine ⟨?_, ?_, hr⟩
    · rw [Printable]
      exact ⟨⟨hts.head, rfl⟩, hp, trivial⟩
    · simp only [Fresh, erase, eraseArgs, hf]
      rfl
  | _, _, _, .atom h, hts => h.printable hts

theorem ReadsAtom.printable : ∀ {ts r : List Token} {e : Expr}, ReadsAtom ts e r →
    AllProper ts → e.Printable ∧ e.Fresh ∧ AllProper r
  | _, _, _, .int, hts => by
    rw [Printable]
    exact ⟨hts.head, by simp only [Fresh, erase], hts.tail⟩
  | _, _, _, .char, hts => by
    rw [Printable]
    exact ⟨trivial, by simp only [Fresh, erase], hts.tail⟩
  | _, _, _, .str, hts => by
    rw [Printable]
    exact ⟨trivial, by simp only [Fresh, erase], hts.tail⟩
  | _, _, _, .bool, hts => by
    rw [Printable]
    exact ⟨trivial, by simp only [Fresh, erase], hts.tail⟩
  | _, _, _, .emptyList, hts => by
    rw [Printable]
    exact ⟨trivial, by simp only [Fresh, erase]; rfl, hts.tail.tail⟩
  | _, _, _, .paren h, hts => by
    obtain ⟨hp, hf, hr⟩ := h.printable hts.tail
    exact ⟨hp, hf, hr.tail⟩
  | _, _, _, .pair ha hb, hts => by
    have hra := ha.printable hts.tail
    obtain ⟨hpb, hfb, hr⟩ := hb.printable hra.2.2.tail
    obtain ⟨hpa, hfa, -⟩ := hra
    simp only [Fresh] at hfa hfb
    rw [Printable]
    exact ⟨⟨hpa, hpb⟩, by simp only [Fresh, erase, hfa, hfb], hr.tail⟩
  | _, _, _, .call h, hts => by
    obtain ⟨hp, hf, hr⟩ := h.printable hts.tail.tail
    rw [Printable]
    refine ⟨⟨hts.head, hp⟩, ?_, hr⟩
    simp only [Fresh, erase, hf]
    rfl
  | _, _, _, .var _, hts => by
    rw [Printable]
    refine ⟨hts.head, ?_, Variable.allProper_accessorsOf hts.tail⟩
    simp only [Fresh, erase]
    rfl

theorem ReadsArgs.printable : ∀ {ts r : List Token} {es : List Expr}, ReadsArgs ts es r →
    AllProper ts → ReadWell es r
  | _, _, _, .none, hts => ⟨trivial, by simp only [eraseArgs], hts.tail⟩
  | _, _, _, .some h, hts => h.printable hts

theorem ReadsMoreArgs.printable : ∀ {ts r : List Token} {es : List Expr}, ReadsMoreArgs ts es r →
    AllProper ts → ReadWell es r
  | _, _, _, .last h, hts => by
    obtain ⟨hp, hf, hr⟩ := h.printable hts
    simp only [Fresh] at hf
    exact ⟨⟨hp, trivial⟩, by simp only [eraseArgs, hf], hr.tail⟩
  | _, _, _, .more h hs, hts => by
    have he := h.printable hts
    obtain ⟨hps, hfs, hr⟩ := hs.printable he.2.2.tail
    obtain ⟨hp, hf, -⟩ := he
    simp only [Fresh] at hf
    exact ⟨⟨hp, hps⟩, by simp only [eraseArgs, hf, hfs], hr⟩

end

end Expr

/-! ## Statements -/

/-- A variable as the readers leave it. -/
theorem Variable.fresh {n : String} {as : List Accessor} {l : Loc} :
    Variable.erase .resolution ⟨.unresolved n, as, none, l⟩ =
      Variable.erase .places ⟨.unresolved n, as, none, l⟩ := rfl

theorem VarDecl.Reads.printable {ts r : List Token} {d : VarDecl} (h : VarDecl.Reads ts d r)
    (hts : AllProper ts) :
    d.Printable ∧ d.erase .resolution = d.erase .places ∧ AllProper r := by
  cases h with
  | untyped he =>
    obtain ⟨hp, hf, hr⟩ := he.printable hts.tail.tail.tail
    simp only [Expr.Fresh] at hf
    exact ⟨⟨hts.tail.head, nofun, hp⟩, by simp only [VarDecl.erase, hf], hr.tail⟩
  | typed ht he =>
    have hty := ht.printable hts
    obtain ⟨hp, hf, hr⟩ := he.printable hty.2.tail.tail
    simp only [Expr.Fresh] at hf
    refine ⟨⟨hty.2.head, fun t ht => ?_, hp⟩, by simp only [VarDecl.erase, hf], hr.tail⟩
    cases ht
    exact hty.1

theorem Variable.allProper_of_accessorsOf {ts s : List Token} {as : List Accessor}
    (h : Variable.accessorsOf ts = (as, s)) (hts : AllProper ts) : AllProper s := by
  have hs := Variable.allProper_accessorsOf hts
  rw [h] at hs
  exact hs

/-- The body of a block is printable and fresh, and so are the tokens after it. -/
def Stmt.ReadWell (body : List Stmt) (r : List Token) : Prop :=
  Stmt.PrintableBody body ∧ Stmt.eraseAll .resolution body =
    Stmt.eraseAll .places body ∧ AllProper r

mutual

theorem Stmt.Reads.printable : ∀ {ts r : List Token} {s : Stmt}, Stmt.Reads ts s r → AllProper ts →
    s.Printable ∧ s.erase .resolution = s.erase .places ∧ AllProper r
  | _, _, _, .cond hb hm, hts => by
    have hbr := hb.printable hts.tail
    obtain ⟨hbs, hfs, ho, hr⟩ := hm.printable hbr.2.2
    obtain ⟨hp, hf, -⟩ := hbr
    refine ⟨Stmt.printable_cond.2 ⟨List.cons_ne_nil _ _, ?_, ho.1⟩, ?_, hr⟩
    · cases hb with
      | mk =>
        simp only [Stmt.PrintableBranches, and_true] at hp ⊢
        exact ⟨hp.1, hp.2, hbs⟩
    · cases hb with
      | mk =>
        simp only [Branch.eraseAll, List.cons.injEq, and_true] at hf
        simp only [Stmt.erase_cond, Branch.eraseAll, hf, hfs, ho.2]
  | _, _, _, .loop he hb, hts => by
    have hre := he.printable hts.tail.tail
    obtain ⟨hpb, hfb, hr⟩ := hb.printable hre.2.2.tail
    obtain ⟨hp, hf, -⟩ := hre
    simp only [Expr.Fresh] at hf
    rw [Stmt.Printable]
    exact ⟨⟨hp, hpb⟩, by simp only [Stmt.erase, hf, hfb], hr⟩
  | _, _, _, .each hv he hb, hts => by
    have hs := Variable.allProper_of_accessorsOf hv hts.tail.tail.tail
    have hre := he.printable hs.tail
    obtain ⟨hpb, hfb, hr⟩ := hb.printable hre.2.2.tail
    obtain ⟨hp, hf, -⟩ := hre
    simp only [Expr.Fresh] at hf
    rw [Stmt.Printable]
    exact ⟨⟨hts.tail.tail.head, hp, hpb⟩, by simp only [Stmt.erase, hf, hfb, Variable.fresh], hr⟩
  | _, _, _, .ret he, hts => by
    obtain ⟨hp, hf, hr⟩ := he.printable hts.tail
    simp only [Expr.Fresh] at hf
    rw [Stmt.Printable]
    refine ⟨fun x hx => ?_, by simp only [Stmt.erase, Option.map_some, hf], hr.tail⟩
    cases hx
    exact hp
  | _, _, _, .retNone, hts => by
    rw [Stmt.Printable]
    exact ⟨nofun, by simp only [Stmt.erase, Option.map_none], hts.tail.tail⟩
  | _, _, _, .brk, hts => by
    rw [Stmt.Printable]
    exact ⟨trivial, by simp only [Stmt.erase], hts.tail.tail⟩
  | _, _, _, .cont, hts => by
    rw [Stmt.Printable]
    exact ⟨trivial, by simp only [Stmt.erase], hts.tail.tail⟩
  | _, _, _, .call h, hts => by
    obtain ⟨hp, hf, hr⟩ := (Expr.ReadsAtom.call h).printable hts
    simp only [Expr.Fresh] at hf
    rw [Stmt.Printable]
    exact ⟨⟨rfl, hp⟩, by simp only [Stmt.erase, hf], hr.tail⟩
  | _, _, _, .assign hv he, hts => by
    have hs := Variable.allProper_of_accessorsOf hv hts.tail
    obtain ⟨hp, hf, hr⟩ := he.printable hs.tail
    simp only [Expr.Fresh] at hf
    rw [Stmt.Printable]
    exact ⟨⟨hts.head, hp⟩, by simp only [Stmt.erase, hf, Variable.fresh], hr.tail⟩
  | _, _, _, .decl h, hts => by
    obtain ⟨hp, hf, hr⟩ := h.printable hts
    rw [Stmt.Printable]
    exact ⟨hp, by simp only [Stmt.erase, hf], hr⟩

theorem Branch.Reads.printable :
    ∀ {l : Loc} {ts r : List Token} {b : Branch}, Branch.Reads l ts b r →
    AllProper ts → Stmt.PrintableBranches [b] ∧
      Branch.eraseAll .resolution [b] = Branch.eraseAll .places [b] ∧ AllProper r
  | _, _, _, _, .mk he hb, hts => by
    have hre := he.printable hts.tail
    obtain ⟨hpb, hfb, hr⟩ := hb.printable hre.2.2.tail
    obtain ⟨hp, hf, -⟩ := hre
    simp only [Expr.Fresh] at hf
    exact ⟨⟨hp, hpb, trivial⟩, by simp only [Branch.eraseAll, hf, hfb], hr⟩

theorem Branch.ReadsMore.printable : ∀ {ts r : List Token} {bs : List Branch}
    {o : Option (List Stmt)}, Branch.ReadsMore ts bs o r → AllProper ts →
    Stmt.PrintableBranches bs ∧ Branch.eraseAll .resolution bs = Branch.eraseAll .places bs ∧
      ((∀ body ∈ o, Stmt.PrintableBody body) ∧
        o.map (Stmt.eraseAll .resolution) = o.map (Stmt.eraseAll .places)) ∧ AllProper r
  | _, _, _, _, .none _, hts => ⟨trivial, by simp only [Branch.eraseAll], ⟨nofun, rfl⟩, hts⟩
  | _, _, _, _, .elif hb hm, hts => by
    have hbr := hb.printable hts.tail
    obtain ⟨hbs, hfs, ho, hr⟩ := hm.printable hbr.2.2
    obtain ⟨hp, hf, -⟩ := hbr
    cases hb with
    | mk =>
      simp only [Stmt.PrintableBranches, and_true] at hp
      simp only [Branch.eraseAll, List.cons.injEq, and_true] at hf
      refine ⟨⟨hp.1, hp.2, hbs⟩, ?_, ho, hr⟩
      simp only [Branch.eraseAll, hf, hfs]
  | _, _, _, _, .otherwise h, hts => by
    obtain ⟨hp, hf, hr⟩ := h.printable hts.tail
    refine ⟨trivial, by simp only [Branch.eraseAll], ⟨fun b hb => ?_, ?_⟩, hr⟩
    · cases hb
      exact hp
    · simp only [Option.map_some, hf]

theorem Stmt.ReadsBlock.printable : ∀ {ts r : List Token} {body : List Stmt},
    Stmt.ReadsBlock ts body r → AllProper ts → Stmt.ReadWell body r
  | _, _, _, .mk h, hts => h.printable hts.tail

theorem Stmt.ReadsBody.printable : ∀ {ts r : List Token} {body : List Stmt},
    Stmt.ReadsBody ts body r → AllProper ts → Stmt.ReadWell body r
  | _, _, _, .close, hts => ⟨trivial, by simp only [Stmt.eraseAll], hts.tail⟩
  | _, _, _, .cons h hb, hts => by
    have hs := h.printable hts
    obtain ⟨hpb, hfb, hr⟩ := hb.printable hs.2.2
    obtain ⟨hp, hf, -⟩ := hs
    exact ⟨⟨hp, hpb⟩, by simp only [Stmt.eraseAll, hf, hfb], hr⟩

end

/-! ## Programs -/

theorem ImportName.Reads.printable {ts r : List Token} {n : ImportName}
    (h : ImportName.Reads ts n r) (hts : AllProper ts) : n.Printable ∧ AllProper r := by
  cases h with
  | plain _ => exact ⟨⟨hts.head, nofun⟩, hts.tail⟩
  | renamed =>
    refine ⟨⟨hts.head, fun a ha => ?_⟩, hts.tail.tail.tail⟩
    cases ha
    exact hts.tail.tail.head

theorem ImportName.ReadsList.printable {ts r : List Token} {ns : List ImportName}
    (h : ImportName.ReadsList ts ns r) (hts : AllProper ts) :
    ns ≠ [] ∧ (∀ n ∈ ns, n.Printable) ∧ AllProper r := by
  induction h with
  | last h =>
    have hn := h.printable hts
    exact ⟨List.cons_ne_nil _ _, List.forall_mem_singleton.2 hn.1, hn.2.tail⟩
  | more h _ ih =>
    have hn := h.printable hts
    obtain ⟨-, hns, hr⟩ := ih hn.2.tail
    exact ⟨List.cons_ne_nil _ _, List.forall_mem_cons.2 ⟨hn.1, hns⟩, hr⟩

theorem Import.Reads.printable {l : Loc} {ts r : List Token} {i : Import}
    (h : Import.Reads l ts i r) (hts : AllProper ts) : i.Printable ∧ AllProper r := by
  cases h with
  | all => exact ⟨⟨hts.head, trivial⟩, hts.tail.tail.tail⟩
  | names h =>
    obtain ⟨hne, hns, hr⟩ := h.printable hts.tail.tail
    exact ⟨⟨hts.head, hne, hns⟩, hr⟩

theorem Param.ReadsList.printable {ts r : List Token} {ps : List Param}
    (h : Param.ReadsList ts ps r) (hts : AllProper ts) :
    (∀ p ∈ ps, (Kind.ident p.name).Proper) ∧ AllProper r := by
  induction h with
  | last => exact ⟨List.forall_mem_singleton.2 hts.head, hts.tail.tail⟩
  | more _ ih =>
    have hps := ih hts.tail.tail
    exact ⟨List.forall_mem_cons.2 ⟨hts.head, hps.1⟩, hps.2⟩

theorem Param.Reads.printable {ts r : List Token} {ps : List Param} (h : Param.Reads ts ps r)
    (hts : AllProper ts) : (∀ p ∈ ps, (Kind.ident p.name).Proper) ∧ AllProper r := by
  cases h with
  | none => exact ⟨nofun, hts.tail⟩
  | some h => exact h.printable hts

theorem Head.Reads.printable {ts r : List Token} {head : Head} {n : String}
    (h : Head.Reads ts head n r) (hts : AllProper ts) (ps : List Param) (sig : Option Signature)
    (body : List Stmt) (l : Loc) :
    (FnDef.nameKind ⟨head, n, ps, sig, body, l⟩).Proper ∧ AllProper r := by
  cases h with
  | function => exact ⟨hts.head, hts.tail⟩
  | prefixOp => exact ⟨hts.tail.head, hts.tail.tail⟩
  | infixOp => exact ⟨hts.tail.tail.head, hts.tail.tail.tail⟩

theorem FnDef.ReadsBody.printable {ts r : List Token} {sig : Option Signature} {body : List Stmt}
    (h : FnDef.ReadsBody ts sig body r) (hts : AllProper ts) :
    (∀ s ∈ sig, s.Printable) ∧ Stmt.ReadWell body r := by
  cases h with
  | typed hs hb =>
    have hsig := hs.printable hts.tail
    refine ⟨fun s hs => ?_, hb.printable hsig.2⟩
    cases hs
    exact hsig.1
  | untyped hb => exact ⟨nofun, hb.printable hts⟩

namespace Program

/-- The passes have added nothing to the program. -/
def Fresh (p : Program) : Prop := p.erase .resolution = p.erase .places

theorem Printable.addItem {i : Item} {p : Program} (hi : i.Printable) (hp : p.Printable) :
    (addItem i p).Printable :=
  ⟨hp.1, List.forall_mem_cons.2 ⟨hi, hp.2⟩⟩

theorem Fresh.addItem {i : Item} {p : Program} (hi : i.erase .resolution = i.erase .places)
    (hp : p.Fresh) : (addItem i p).Fresh := by
  have hs := (Program.mk.inj hp).2
  simp only [Fresh, erase, Program.addItem, List.map_cons, hi, hs]

theorem Fresh.addImport {i : Import} {p : Program} (hp : p.Fresh) : (addImport i p).Fresh := by
  have hs := (Program.mk.inj hp).2
  simp only [Fresh, erase, Program.addImport, List.map_cons, hs]

/-- A declaration keeps a program printable and fresh. -/
theorem ReadsOne.printable {ts r : List Token} {add : Program → Program} (h : ReadsOne ts add r)
    (hts : AllProper ts) :
    (∀ p, p.Printable → (add p).Printable) ∧ (∀ p, p.Fresh → (add p).Fresh) ∧ AllProper r := by
  cases h with
  | imports h =>
    have hi := h.printable hts.tail
    exact ⟨fun p hp => ⟨List.forall_mem_cons.2 ⟨hi.1, hp.1⟩, hp.2⟩, fun p hp => hp.addImport, hi.2⟩
  | synonym h =>
    have ht := h.printable hts.tail.tail.tail
    exact ⟨fun p hp => hp.addItem ⟨hts.tail.head, ht.1⟩, fun p hp => hp.addItem rfl, ht.2.tail⟩
  | global h =>
    obtain ⟨hd, hf, hr⟩ := h.printable hts
    exact ⟨fun p hp => hp.addItem hd, fun p hp => hp.addItem (by simp only [Item.erase, hf]), hr⟩
  | @fn t _ head n l _ ps _ sig body _ hh hps hb =>
    have hname := hh.printable hts ps sig body t.loc
    have hparams := hps.printable hname.2.tail
    obtain ⟨hsig, hbody, hf, hr⟩ := hb.printable hparams.2
    exact ⟨fun p hp => hp.addItem ⟨hname.1, hparams.1, hsig, hbody⟩,
      fun p hp => hp.addItem (by simp only [Item.erase, FnDef.erase, hf]), hr⟩

theorem Reads.printable {ts : List Token} {p : Program} (h : Program.Reads ts p)
    (hts : AllProper ts) : p.Printable ∧ p.Fresh := by
  induction h with
  | nil => exact ⟨⟨nofun, nofun⟩, rfl⟩
  | cons h _ ih =>
    obtain ⟨hp, hf, hr⟩ := h.printable hts
    have hrest := ih hr
    exact ⟨hp _ hrest.1, hf _ hrest.2⟩

/-- A program that was read can be written, and all of it but its places is written. -/
theorem printable_of_ofText {text : String} {p : Program} (h : Program.ofText text = .ok p) :
    p.Printable ∧ p.Fresh := by
  obtain ⟨s, hs, hp⟩ := ofText_eq_ok_iff.1 h
  exact hp.printable (proper_of_lex hs)

end Program

end SplFrontend
