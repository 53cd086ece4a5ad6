import SplFrontend.Proofs.Grammar.Phrases

/-!
# What is read is a phrase

What a reader finds has a derivation: a phrase that consists of the tokens read and stands, up to
places, for the tree found. The inductions follow the relations of the readers, each of whose
productions is one of the grammar or a part of one.
-/

namespace SplFrontend

theorem kindsOf_cons (k : Kind) (l : Loc) (ts : List Token) :
    kindsOf (⟨k, l⟩ :: ts) = k :: kindsOf ts := rfl

theorem Ty.Reads.phrase {ts r : List Token} {t : Ty} (h : Ty.Reads ts t r) :
    ∃ d : Phrase.Ty, kindsOf ts = d.kinds ++ kindsOf r ∧ d.tree = t := by
  induction h with
  | @name n => exact ⟨.name n, rfl, rfl⟩
  | pair _ _ iha ihb =>
    obtain ⟨a, ha, rfl⟩ := iha
    obtain ⟨b, hb, rfl⟩ := ihb
    refine ⟨.pair a b, ?_, rfl⟩
    simp only [kindsOf_cons, ha, hb, Phrase.Ty.kinds, List.cons_append, List.append_assoc,
      List.nil_append]
  | list _ ih =>
    obtain ⟨a, ha, rfl⟩ := ih
    refine ⟨.list a, ?_, rfl⟩
    simp only [kindsOf_cons, ha, Phrase.Ty.kinds, List.cons_append, List.append_assoc,
      List.nil_append]

theorem Signature.Reads.phrase {ts r : List Token} {s : Signature} (h : Signature.Reads ts s r) :
    ∃ d : Phrase.Signature, kindsOf ts = d.kinds ++ kindsOf r ∧ d.tree = s := by
  induction h with
  | result ht =>
    obtain ⟨t, hk, rfl⟩ := ht.phrase
    refine ⟨⟨[], t⟩, ?_, rfl⟩
    simp only [kindsOf_cons, hk, Phrase.Signature.kinds, List.flatMap_nil, List.nil_append,
      List.cons_append]
  | param ht _ ih =>
    obtain ⟨t, hk, rfl⟩ := ht.phrase
    obtain ⟨⟨params, result⟩, hs, rfl⟩ := ih
    refine ⟨⟨t :: params, result⟩, ?_, rfl⟩
    rw [hk, hs]
    simp only [Phrase.Signature.kinds, List.flatMap_cons, List.append_assoc]

theorem Variable.kindsOf_accessorsOf (ts : List Token) :
    kindsOf ts = (accessorsOf ts).1.map .accessor ++ kindsOf (accessorsOf ts).2 := by
  fun_induction accessorsOf ts with
  | case1 a l ts ih =>
    rw [kindsOf_cons, ih]
    rfl
  | case2 => rfl

theorem Variable.kinds_of_accessorsOf {ts s : List Token} {as : List Accessor}
    (h : accessorsOf ts = (as, s)) :
    kindsOf ts = as.map .accessor ++ kindsOf s := by
  rw [kindsOf_accessorsOf ts, h]

namespace Expr

mutual

theorem Reads.phrase : ∀ {ts r : List Token} {e : Expr}, Reads ts e r →
    ∃ d : Phrase.Expr, kindsOf ts = d.kinds ++ kindsOf r ∧ d.tree = e.unlocated
  | _, _, _, .single h _ => by
    obtain ⟨u, hk, hu⟩ := h.phrase
    exact ⟨.mk u .done, by simp only [hk, Phrase.Expr.kinds, Phrase.Rest.kinds, List.append_nil],
      by simp only [Phrase.Expr.tree, Phrase.Rest.tree, Phrase.sequence, hu]⟩
  | _, _, _, .flat (n := n) h hc => by
    obtain ⟨u, hk, hu⟩ := h.phrase
    obtain ⟨v, rest, hks, hrest⟩ := hc.phrase
    refine ⟨.mk u (.more n v rest), ?_, ?_⟩
    · simp only [kindsOf_cons, hk, hks, Phrase.Expr.kinds, Phrase.Rest.kinds, List.append_assoc,
        List.cons_append]
    · rw [Expr.unlocated, erase, hrest]
      simp only [Phrase.Expr.tree, Phrase.Rest.tree, Phrase.sequence, hu]

theorem ReadsChain.phrase :
    ∀ {o : OpUse} {ts r : List Token} {os : List (OpUse × Expr)}, ReadsChain o ts os r →
    ∃ (u : Phrase.Unary) (rest : Phrase.Rest), kindsOf ts = u.kinds ++ (rest.kinds ++ kindsOf r) ∧
      eraseRest .places os = (⟨o.name, .nowhere⟩, u.tree) :: rest.tree
  | _, _, _, _, .last h _ => by
    obtain ⟨u, hk, hu⟩ := h.phrase
    exact ⟨u, .done, by simp only [hk, Phrase.Rest.kinds, List.nil_append],
      by simp only [eraseRest, Phrase.Rest.tree, hu]⟩
  | _, _, _, _, .more (n := n) h hc => by
    obtain ⟨u, hk, hu⟩ := h.phrase
    obtain ⟨v, rest, hks, hrest⟩ := hc.phrase
    refine ⟨u, .more n v rest, ?_, ?_⟩
    · simp only [kindsOf_cons, hk, hks, Phrase.Rest.kinds, List.append_assoc, List.cons_append]
    · rw [eraseRest, hrest, hu]
      simp only [Phrase.Rest.tree]

theorem ReadsOperand.phrase : ∀ {ts r : List Token} {e : Expr}, ReadsOperand ts e r →
    ∃ d : Phrase.Unary, kindsOf ts = d.kinds ++ kindsOf r ∧ d.tree = e.unlocated
  | _, _, _, .prefixed (n := n) h => by
    obtain ⟨u, hk, hu⟩ := h.phrase
    refine ⟨.prefixed n u, ?_, ?_⟩
    · rw [kindsOf_cons, hk, Phrase.Unary.kinds, List.cons_append]
    · simp only [Phrase.Unary.tree, hu, erase, eraseArgs]
      rfl
  | _, _, _, .atom h => by
    obtain ⟨a, hk, ha⟩ := h.phrase
    exact ⟨.atom a, by rw [hk, Phrase.Unary.kinds], by rw [Phrase.Unary.tree, ha]⟩

theorem ReadsAtom.phrase : ∀ {ts r : List Token} {e : Expr}, ReadsAtom ts e r →
    ∃ d : Phrase.Atom, kindsOf ts = d.kinds ++ kindsOf r ∧ d.tree = e.unlocated
  | _, _, _, .int (n := n) => ⟨.int n, rfl, rfl⟩
  | _, _, _, .char (c := c) => ⟨.char c, rfl, rfl⟩
  | _, _, _, .str (t := t) => ⟨.str t, rfl, rfl⟩
  | _, _, _, .bool (b := b) => ⟨.bool b, rfl, rfl⟩
  | _, _, _, .emptyList => ⟨.emptyList, rfl, rfl⟩
  | _, _, _, .paren h => by
    obtain ⟨e, hk, he⟩ := h.phrase
    refine ⟨.paren e, ?_, by rw [Phrase.Atom.tree, he]⟩
    simp only [kindsOf_cons, hk, Phrase.Atom.kinds, List.cons_append, List.append_assoc,
      List.nil_append]
  | _, _, _, .pair h h' => by
    obtain ⟨a, hka, ha⟩ := h.phrase
    obtain ⟨b, hkb, hb⟩ := h'.phrase
    refine ⟨.pair a b, ?_, by rw [Phrase.Atom.tree, ha, hb, unlocated, erase]⟩
    simp only [kindsOf_cons, hka, hkb, Phrase.Atom.kinds, List.cons_append, List.append_assoc,
      List.nil_append]
  | _, _, _, .call (n := n) h => by
    obtain ⟨as, hk, has⟩ := h.phrase
    refine ⟨.call n as, ?_, ?_⟩
    · simp only [kindsOf_cons, hk, Phrase.Atom.kinds, List.cons_append, List.append_assoc,
        List.nil_append]
    · simp only [Phrase.Atom.tree, has, erase]
      rfl
  | _, _, _, .var (n := n) _ => by
    refine ⟨.var ⟨n, (Variable.accessorsOf _).1⟩, ?_, by simp only [Phrase.Atom.tree, erase]; rfl⟩
    rw [kindsOf_cons, Variable.kindsOf_accessorsOf]
    simp only [Phrase.Atom.kinds, Phrase.Var.kinds, List.cons_append]

theorem ReadsArgs.phrase : ∀ {ts r : List Token} {es : List Expr}, ReadsArgs ts es r →
    ∃ d : Phrase.Args, kindsOf ts = d.kinds ++ .mark .rparen :: kindsOf r ∧
      d.tree = eraseArgs .places es
  | _, _, _, .none => ⟨.none, rfl, rfl⟩
  | _, _, _, .some h => by
    obtain ⟨e, rest, hk, hes⟩ := h.phrase
    exact ⟨.some e rest,
      by rw [hk, Phrase.Args.kinds, List.append_assoc], by rw [Phrase.Args.tree, hes]⟩

theorem ReadsMoreArgs.phrase : ∀ {ts r : List Token} {es : List Expr}, ReadsMoreArgs ts es r →
    ∃ (e : Phrase.Expr) (rest : Phrase.MoreArgs),
      kindsOf ts = e.kinds ++ (rest.kinds ++ .mark .rparen :: kindsOf r) ∧
        eraseArgs .places es = e.tree :: rest.tree
  | _, _, _, .last h => by
    obtain ⟨e, hk, he⟩ := h.phrase
    exact ⟨e, .done,
      by rw [hk, Phrase.MoreArgs.kinds]; rfl, by simp only [eraseArgs, Phrase.MoreArgs.tree, he]⟩
  | _, _, _, .more h hs => by
    obtain ⟨e, hk, he⟩ := h.phrase
    obtain ⟨e', rest, hks, hes⟩ := hs.phrase
    refine ⟨e, .more e' rest, ?_, ?_⟩
    · simp only [kindsOf_cons, hk, hks, Phrase.MoreArgs.kinds, List.cons_append, List.append_assoc]
    · simp only [eraseArgs, Phrase.MoreArgs.tree, he, hes]

end

end Expr

theorem VarDecl.Reads.phrase {ts r : List Token} {d : VarDecl} (h : VarDecl.Reads ts d r) :
    ∃ p : Phrase.VarDecl, kindsOf ts = p.kinds ++ kindsOf r ∧ p.tree = d.erase .places := by
  cases h with
  | @untyped _ _ _ _ n _ _ _ he =>
    obtain ⟨e, hk, he⟩ := he.phrase
    refine ⟨.untyped n e, ?_, by rw [Phrase.VarDecl.tree, he, VarDecl.erase]⟩
    simp only [kindsOf_cons, hk, Phrase.VarDecl.kinds, List.cons_append, List.append_assoc,
      List.nil_append]
  | @typed _ _ _ _ n _ _ _ _ _ ht he =>
    obtain ⟨t, hkt, rfl⟩ := ht.phrase
    obtain ⟨e, hk, he⟩ := he.phrase
    refine ⟨.typed t n e, ?_, by rw [Phrase.VarDecl.tree, he, VarDecl.erase]⟩
    simp only [hkt, kindsOf_cons, hk, Phrase.VarDecl.kinds, List.cons_append, List.append_assoc,
      List.nil_append]

mutual

theorem Stmt.Reads.phrase : ∀ {ts r : List Token} {s : Stmt}, Stmt.Reads ts s r →
    ∃ d : Phrase.Stmt, kindsOf ts = d.kinds ++ kindsOf r ∧ d.tree = s.erase .places
  | _, _, _, .cond hb hm => by
    obtain ⟨e, body, hk, hb⟩ := hb.phrase
    obtain ⟨elifs, o, hks, hbs, ho⟩ := hm.phrase
    refine ⟨.cond e body elifs o, ?_, ?_⟩
    · simp only [kindsOf_cons, hk, hks, Phrase.Stmt.kinds, List.cons_append, List.append_assoc]
    · rw [Stmt.erase_cond, ← ho, hb, ← hbs, Phrase.Stmt.tree]
  | _, _, _, .loop he hb => by
    obtain ⟨e, hk, he⟩ := he.phrase
    obtain ⟨body, hks, hb⟩ := hb.phrase
    refine ⟨.loop e body, ?_, by rw [Phrase.Stmt.tree, he, hb, Stmt.erase]⟩
    simp only [kindsOf_cons, hk, hks, Phrase.Stmt.kinds, Phrase.guardKinds, List.cons_append,
      List.append_assoc, List.nil_append]
  | _, _, _, .each (n := n) ha he hb => by
    obtain ⟨e, hk, he⟩ := he.phrase
    obtain ⟨body, hks, hb⟩ := hb.phrase
    refine ⟨.each ⟨n, _⟩ e body, ?_, by rw [Phrase.Stmt.tree, he, hb, Stmt.erase]; rfl⟩
    simp only [kindsOf_cons, Variable.kinds_of_accessorsOf ha, hk, hks, Phrase.Stmt.kinds,
      Phrase.Var.kinds, List.cons_append, List.append_assoc, List.nil_append]
  | _, _, _, .ret he => by
    obtain ⟨e, hk, he⟩ := he.phrase
    refine ⟨.ret e, ?_, by rw [Phrase.Stmt.tree, he, Stmt.erase]; rfl⟩
    simp only [kindsOf_cons, hk, Phrase.Stmt.kinds, List.cons_append, List.append_assoc,
      List.nil_append]
  | _, _, _, .retNone => ⟨.retNone, rfl, rfl⟩
  | _, _, _, .brk => ⟨.brk, rfl, rfl⟩
  | _, _, _, .cont => ⟨.cont, rfl, rfl⟩
  | _, _, _, .call (n := n) ha => by
    obtain ⟨args, hk, ha⟩ := ha.phrase
    refine ⟨.call n args, ?_, by rw [Phrase.Stmt.tree, ha, Stmt.erase, Expr.erase]; rfl⟩
    simp only [kindsOf_cons, hk, Phrase.Stmt.kinds, List.cons_append, List.append_assoc,
      List.nil_append]
  | _, _, _, .assign (n := n) ha he => by
    obtain ⟨e, hk, he⟩ := he.phrase
    refine ⟨.assign ⟨n, _⟩ e, ?_, by rw [Phrase.Stmt.tree, he, Stmt.erase]; rfl⟩
    simp only [kindsOf_cons, Variable.kinds_of_accessorsOf ha, hk, Phrase.Stmt.kinds,
      Phrase.Var.kinds, List.cons_append, List.append_assoc, List.nil_append]
  | _, _, _, .decl h => by
    obtain ⟨d, hk, hd⟩ := h.phrase
    exact ⟨.decl d, by rw [hk, Phrase.Stmt.kinds], by rw [Phrase.Stmt.tree, hd, Stmt.erase]⟩

theorem Branch.Reads.phrase : ∀ {l : Loc} {ts r : List Token} {b : Branch}, Branch.Reads l ts b r →
    ∃ (e : Phrase.Expr) (body : Phrase.Body),
      kindsOf ts = Phrase.guardKinds e ++ (body.kinds ++ .mark .rbrace :: kindsOf r) ∧
        ∀ bs, Branch.eraseAll .places (b :: bs) = .mk e.tree body.tree .nowhere ::
          Branch.eraseAll .places bs
  | _, _, _, _, .mk he hb => by
    obtain ⟨e, hk, he⟩ := he.phrase
    obtain ⟨body, hks, hb⟩ := hb.phrase
    refine ⟨e, body, ?_, fun bs => by rw [Branch.eraseAll, he, hb]⟩
    simp only [kindsOf_cons, hk, hks, Phrase.guardKinds, List.cons_append, List.append_assoc,
      List.nil_append]

theorem Branch.ReadsMore.phrase : ∀ {ts r : List Token} {bs : List Branch} {o : Option (List Stmt)},
    Branch.ReadsMore ts bs o r → ∃ (elifs : Phrase.Elifs) (d : Phrase.Else),
      kindsOf ts = elifs.kinds ++ (d.kinds ++ kindsOf r) ∧ elifs.tree = Branch.eraseAll .places bs ∧
        d.tree = o.map (Stmt.eraseAll .places)
  | _, _, _, _, .none _ => ⟨.done, .none, rfl, rfl, rfl⟩
  | _, _, _, _, .elif hb hm => by
    obtain ⟨e, body, hk, hb⟩ := hb.phrase
    obtain ⟨elifs, d, hks, hbs, ho⟩ := hm.phrase
    refine ⟨.more e body elifs, d, ?_, by rw [Phrase.Elifs.tree, hb, hbs], ho⟩
    simp only [kindsOf_cons, hk, hks, Phrase.Elifs.kinds, List.cons_append, List.append_assoc]
  | _, _, _, _, .otherwise hb => by
    obtain ⟨body, hk, hb⟩ := hb.phrase
    refine ⟨.done, .some body, ?_, rfl, by rw [Phrase.Else.tree, hb]; rfl⟩
    simp only [kindsOf_cons, hk, Phrase.Elifs.kinds, Phrase.Else.kinds, List.cons_append,
      List.append_assoc, List.nil_append]

theorem Stmt.ReadsBlock.phrase :
    ∀ {ts r : List Token} {body : List Stmt}, Stmt.ReadsBlock ts body r →
    ∃ d : Phrase.Body, kindsOf ts = .mark .lbrace :: (d.kinds ++ .mark .rbrace :: kindsOf r) ∧
      d.tree = Stmt.eraseAll .places body
  | _, _, _, .mk h => by
    obtain ⟨d, hk, hd⟩ := h.phrase
    exact ⟨d, by rw [kindsOf_cons, hk], hd⟩

theorem Stmt.ReadsBody.phrase : ∀ {ts r : List Token} {body : List Stmt}, Stmt.ReadsBody ts body r →
    ∃ d : Phrase.Body, kindsOf ts = d.kinds ++ .mark .rbrace :: kindsOf r ∧
      d.tree = Stmt.eraseAll .places body
  | _, _, _, .close => ⟨.done, rfl, rfl⟩
  | _, _, _, .cons h hs => by
    obtain ⟨s, hk, hst⟩ := h.phrase
    obtain ⟨d, hks, hd⟩ := hs.phrase
    refine ⟨.more s d, ?_, by rw [Phrase.Body.tree, hst, hd, Stmt.eraseAll]⟩
    simp only [hk, hks, Phrase.Body.kinds, List.append_assoc]

end

theorem ImportName.Reads.phrase {ts r : List Token} {n : ImportName} (h : ImportName.Reads ts n r) :
    ∃ d : Phrase.ImportName, kindsOf ts = d.kinds ++ kindsOf r ∧ d.tree = n.unlocated := by
  cases h with
  | @plain n => exact ⟨.plain n, rfl, rfl⟩
  | @renamed n a => exact ⟨.renamed n a, rfl, rfl⟩

theorem ImportName.ReadsList.phrase {ts r : List Token} {ns : List ImportName}
    (h : ImportName.ReadsList ts ns r) :
    ∃ (d : Phrase.ImportName) (ds : List Phrase.ImportName),
      kindsOf ts = d.kinds ++ (Phrase.Import.restKinds ds ++ kindsOf r) ∧
        d.tree :: ds.map Phrase.ImportName.tree = ns.map ImportName.unlocated := by
  induction h with
  | last hn =>
    obtain ⟨d, hk, hd⟩ := hn.phrase
    exact ⟨d, [], by rw [hk]; rfl, by simp only [List.map_cons, List.map_nil, hd]⟩
  | more hn _ ih =>
    obtain ⟨d, hk, hd⟩ := hn.phrase
    obtain ⟨d', ds, hks, hds⟩ := ih
    refine ⟨d, d' :: ds, ?_, by rw [List.map_cons, List.map_cons, hd, hds]⟩
    simp only [hk, kindsOf_cons, hks, Phrase.Import.restKinds, List.flatMap_cons, List.cons_append,
      List.append_assoc]

theorem Import.Reads.phrase {l : Loc} {ts r : List Token} {i : Import} (h : Import.Reads l ts i r) :
    ∃ d : Phrase.Import, .keyword .kwFrom :: kindsOf ts = d.kinds ++ kindsOf r ∧
      d.tree = i.unlocated := by
  cases h with
  | @all _ _ _ m => exact ⟨.all m, rfl, rfl⟩
  | @names _ _ m _ _ _ hs =>
    obtain ⟨d, ds, hk, hds⟩ := hs.phrase
    refine ⟨.names m d ds, ?_, by rw [Phrase.Import.tree, hds, Import.unlocated]⟩
    simp only [kindsOf_cons, hk, Phrase.Import.kinds, List.cons_append, List.append_assoc]

theorem Head.Reads.phrase {ts r : List Token} {head : Head} {n : String}
    (h : Head.Reads ts head n r) :
    ∃ d : Phrase.Head, kindsOf ts = d.kinds ++ kindsOf r ∧ d.tree = head ∧ d.name = n := by
  cases h with
  | function => exact ⟨.function n, rfl, rfl, rfl⟩
  | prefixOp => exact ⟨.prefixOp n, rfl, rfl, rfl⟩
  | @infixOp side _ p _ _ _ _ hp =>
    have hnat : p.toUInt8.toNat = p := UInt8.toNat_ofNat_of_lt' hp
    refine ⟨.infixOp side p.toUInt8 n, ?_, rfl, rfl⟩
    simp only [kindsOf_cons, Phrase.Head.kinds, hnat, List.cons_append, List.nil_append]

theorem Param.ReadsList.phrase {ts r : List Token} {ps : List Param} (h : Param.ReadsList ts ps r) :
    ∃ n ns, kindsOf ts = Phrase.FnDecl.paramKinds (n :: ns) ++ kindsOf r ∧
      ps.map Param.name = n :: ns := by
  induction h with
  | @last n => exact ⟨n, [], rfl, rfl⟩
  | @more n _ _ _ _ _ _ ih =>
    obtain ⟨m, ms, hk, hms⟩ := ih
    refine ⟨n, m :: ms, ?_, by rw [List.map_cons, hms]⟩
    simp only [kindsOf_cons, hk, Phrase.FnDecl.paramKinds, List.flatMap_cons, List.cons_append,
      List.nil_append, List.append_assoc]

theorem Param.Reads.phrase {ts r : List Token} {ps : List Param} (h : Param.Reads ts ps r) :
    ∃ ns, kindsOf ts = Phrase.FnDecl.paramKinds ns ++ kindsOf r ∧ ps.map Param.name = ns := by
  cases h with
  | none => exact ⟨[], rfl, rfl⟩
  | some h =>
    obtain ⟨n, ns, hk, hns⟩ := h.phrase
    exact ⟨n :: ns, hk, hns⟩

theorem FnDef.ReadsBody.phrase {ts r : List Token} {sig : Option Signature} {body : List Stmt}
    (h : FnDef.ReadsBody ts sig body r) : ∃ (s : Option Phrase.Signature) (b : Phrase.Body),
      kindsOf ts = Phrase.FnDecl.sigKinds s ++ .mark .lbrace ::
        (b.kinds ++ .mark .rbrace :: kindsOf r) ∧
        s.map Phrase.Signature.tree = sig ∧ b.tree = Stmt.eraseAll .places body := by
  cases h with
  | typed hs hb =>
    obtain ⟨s, hk, rfl⟩ := hs.phrase
    obtain ⟨b, hks, hb⟩ := hb.phrase
    refine ⟨some s, b, ?_, rfl, hb⟩
    simp only [kindsOf_cons, hk, hks, Phrase.FnDecl.sigKinds, List.cons_append]
  | untyped hb =>
    obtain ⟨b, hk, hb⟩ := hb.phrase
    exact ⟨none, b, hk, rfl, hb⟩

theorem Program.ReadsOne.phrase {ts r : List Token} {add : Program → Program}
    (h : Program.ReadsOne ts add r) :
    ∃ d : Phrase.Decl, kindsOf ts = d.kinds ++ kindsOf r ∧
      ∀ p, (add p).unlocated =
        ⟨d.import?.toList ++ p.unlocated.imports, d.item?.toList ++ p.unlocated.items⟩ := by
  cases h with
  | imports hi =>
    obtain ⟨i, hk, hi⟩ := hi.phrase
    refine ⟨.imports i, by rw [kindsOf_cons, hk, Phrase.Decl.kinds], fun p => ?_⟩
    rw [Phrase.Decl.import?, hi]
    rfl
  | @synonym _ n _ _ _ _ _ _ ht =>
    obtain ⟨t, hk, rfl⟩ := ht.phrase
    refine ⟨.synonym n t, ?_, fun p => rfl⟩
    simp only [kindsOf_cons, hk, Phrase.Decl.kinds, List.cons_append, List.append_assoc,
      List.nil_append]
  | global hd =>
    obtain ⟨d, hk, hd⟩ := hd.phrase
    refine ⟨.global d, hk, fun p => ?_⟩
    rw [Phrase.Decl.item?, hd]
    rfl
  | fn hh hp hb =>
    obtain ⟨head, hkh, rfl, rfl⟩ := hh.phrase
    obtain ⟨ns, hkp, hns⟩ := hp.phrase
    obtain ⟨s, b, hkb, rfl, hbody⟩ := hb.phrase
    refine ⟨.fn ⟨head, ns, s, b⟩, ?_, fun p => ?_⟩
    · simp only [hkh, kindsOf_cons, hkp, hkb, Phrase.Decl.kinds, Phrase.FnDecl.kinds,
        List.cons_append, List.append_assoc, List.nil_append]
    · rw [Phrase.Decl.item?, Phrase.FnDecl.tree, hbody, ← hns, List.map_map]
      rfl

theorem Program.Reads.phrase {ts : List Token} {p : Program} (h : Program.Reads ts p) :
    ∃ d : Phrase.Program, d.kinds = kindsOf ts ∧ d.tree = p.unlocated := by
  induction h with
  | nil => exact ⟨[], rfl, rfl⟩
  | cons h _ ih =>
    obtain ⟨d, hk, hd⟩ := h.phrase
    obtain ⟨ds, hks, hds⟩ := ih
    refine ⟨d :: ds, ?_, ?_⟩
    · rw [hk, ← hks]
      rfl
    · rw [hd, ← hds]
      simp only [Phrase.Program.tree, List.filterMap_cons]
      cases d.import? <;> cases d.item? <;> rfl

end SplFrontend
