import SplFrontend.Program.Printing
import SplFrontend.Proofs.Printing

/-!
# Printed programs spell tokens

The tokens of printed statements, items and programs. How deep a statement stands in blocks shows in
its text but not in its tokens.
-/

namespace SplFrontend

open Scan

/-! ## Statements -/

/-- A call of a function, the only expression that is a statement. -/
def Expr.IsFunctionCall : Expr → Prop
  | .call kind _ _ _ => kind = .function
  | .bound b _ _ => b.kind = .function
  | _ => False

/-- Can the declaration be written? -/
def VarDecl.Printable (d : VarDecl) : Prop :=
  (Kind.ident d.name).Proper ∧ (∀ t ∈ d.ty, t.Printable) ∧ d.init.Printable

/-- The tokens of a printed declaration. -/
def VarDecl.kinds (d : VarDecl) : List Kind :=
  (match d.ty with
    | some t => t.kinds
    | none => [.keyword .kwVar]) ++
    .ident d.name :: .mark .assign :: (d.init.kinds ++ [.mark .semicolon])

theorem VarDecl.closes_render {d : VarDecl} (h : d.Printable) : Closes d.render d.kinds := by
  obtain ⟨hname, hty, hinit⟩ := h
  have hn : Spells d.name [.ident d.name] := Kind.Proper.spells (k := .ident _) hname
  have hrest : ∀ {s : String} {ks : List Kind}, Spells s ks →
      Closes (s ++ " " ++ d.name ++ " = " ++ d.init.render ++ ";")
        (ks ++ .ident d.name :: .mark .assign :: (d.init.kinds ++ [.mark .semicolon])) :=
        fun hs => by
    have h := ((((hs.append_breaks breaks_space).append_spells hn).append_breaks
      breaks_assign).append_spells (d.init.spells_render hinit)).append_breaks breaks_semicolon
    simpa only [List.append_assoc, List.cons_append, List.nil_append] using h
  rw [render, kinds]
  cases ht : d.ty with
  | some t => exact hrest (Ty.spells_render (hty t ht))
  | none => exact hrest (Kind.Proper.spells (k := .keyword .kwVar) trivial)

namespace Stmt

mutual

/-- Can the statement be written? -/
def Printable : Stmt → Prop
  | .decl d => d.Printable
  | .assign v e _ => v.Printable ∧ e.Printable
  | .cond bs none _ => bs ≠ [] ∧ PrintableBranches bs
  | .cond bs (some body) _ => bs ≠ [] ∧ PrintableBranches bs ∧ PrintableBody body
  | .loop e body _ => e.Printable ∧ PrintableBody body
  | .each v e body _ => v.Printable ∧ e.Printable ∧ PrintableBody body
  | .ret e _ => ∀ x ∈ e, x.Printable
  | .brk _ | .cont _ => True
  | .expr e => e.IsFunctionCall ∧ e.Printable

/-- Can the branches be written? -/
def PrintableBranches : List Branch → Prop
  | [] => True
  | .mk e body _ :: bs => e.Printable ∧ PrintableBody body ∧ PrintableBranches bs

/-- Can the block be written? -/
def PrintableBody : List Stmt → Prop
  | [] => True
  | s :: ss => s.Printable ∧ PrintableBody ss

end

mutual

/-- The tokens of a printed statement. -/
def kinds : Stmt → List Kind
  | .decl d => d.kinds
  | .assign v e _ => v.kinds ++ .mark .assign :: (e.kinds ++ [.mark .semicolon])
  | .cond bs none _ => kindsBranches .kwIf bs
  | .cond bs (some body) _ =>
    kindsBranches .kwIf bs ++ .keyword .kwElse :: .mark .lbrace ::
      (kindsBody body ++ [.mark .rbrace])
  | .loop e body _ =>
    .keyword .kwWhile :: .mark .lparen ::
      (e.kinds ++ .mark .rparen :: .mark .lbrace :: (kindsBody body ++ [.mark .rbrace]))
  | .each v e body _ =>
    .keyword .kwFor :: .mark .lparen :: (v.kinds ++ .keyword .kwIn ::
      (e.kinds ++ .mark .rparen :: .mark .lbrace :: (kindsBody body ++ [.mark .rbrace])))
  | .ret (some e) _ => .keyword .kwReturn :: (e.kinds ++ [.mark .semicolon])
  | .ret none _ => [.keyword .kwReturn, .mark .semicolon]
  | .brk _ => [.keyword .kwBreak, .mark .semicolon]
  | .cont _ => [.keyword .kwContinue, .mark .semicolon]
  | .expr e => e.kinds ++ [.mark .semicolon]

/-- The tokens of printed branches, of which the first has the given word. -/
def kindsBranches (word : Keyword) : List Branch → List Kind
  | [] => []
  | .mk e body _ :: bs =>
    .keyword word :: .mark .lparen ::
      (e.kinds ++ .mark .rparen :: .mark .lbrace ::
        (kindsBody body ++ .mark .rbrace :: kindsBranches .kwElif bs))

/-- The tokens of a printed block without its braces. -/
def kindsBody : List Stmt → List Kind
  | [] => []
  | s :: ss => s.kinds ++ kindsBody ss

end

end Stmt

theorem closes_indentation (depth : Nat) :
    Closes (String.join (List.replicate depth "    ")) [] := by
  have hone : Closes "    " [] :=
    ((breaks_space.closes.append breaks_space.closes).append breaks_space.closes).append
      breaks_space.closes
  induction depth with
  | zero => exact closes_empty
  | succ n ih =>
    rw [List.replicate_succ, String.join_cons]
    exact hone.append ih

theorem Closes.indented {s : String} {ks : List Kind} (h : Closes s ks) (depth : Nat) :
    Closes (indented depth s) ks := by
  have hs := ((closes_indentation depth).append h).append breaks_newline.closes
  simp only [List.nil_append, List.append_nil] at hs
  exact hs

/-- A block spells its head, its braces and its statements. -/
theorem Spells.renderBlock {head body : String} {js ks : List Kind} (hh : Spells head js)
    (hb : Closes body ks) (depth : Nat) :
    Closes (Stmt.renderBlock depth head body) (js ++ .mark .lbrace :: (ks ++ [.mark .rbrace])) := by
  have hs := (((hh.append_breaks breaks_lbrace).indented depth).append hb).append
    (breaks_rbrace.closes.indented depth)
  simp only [List.append_assoc, List.cons_append, List.nil_append] at hs
  exact hs

namespace Stmt

theorem spells_guard (word : Keyword) {e : Expr} (h : e.Printable) :
    Spells (word.spelling ++ " (" ++ e.render ++ ")")
      (.keyword word :: .mark .lparen :: (e.kinds ++ [.mark .rparen])) := by
  have hs := (((closes_keyword_paren word).append_spells (e.spells_render h)).append_breaks
    breaks_rparen).spells
  simp only [List.cons_append, List.nil_append] at hs
  exact hs

theorem spells_eachHead {v : Variable} {e : Expr} (hv : v.Printable) (he : e.Printable) :
    Spells ("for (" ++ v.render ++ " in " ++ e.render ++ ")")
      (.keyword .kwFor :: .mark .lparen ::
        (v.kinds ++ .keyword .kwIn :: (e.kinds ++ [.mark .rparen]))) := by
  have hin : Breaks " in " [.keyword .kwIn] := breaks_spaced (k := .keyword .kwIn) trivial
  have hs := (((((closes_keyword_paren .kwFor).append_spells (v.spells_render hv)).append_breaks
    hin).append_spells (e.spells_render he)).append_breaks breaks_rparen).spells
  simp only [List.append_assoc, List.cons_append, List.nil_append] at hs
  exact hs

mutual

theorem closes_render (depth : Nat) : ∀ s : Stmt, s.Printable → Closes (s.render depth) s.kinds
  | .decl d, h => by
    rw [Printable] at h
    rw [render, kinds]
    exact (d.closes_render h).indented depth
  | .assign v e _, h => by
    rw [Printable] at h
    have hs := ((((v.spells_render h.1).append_breaks breaks_assign).append_spells
      (e.spells_render h.2)).append_breaks breaks_semicolon).indented depth
    simp only [List.append_assoc, List.cons_append, List.nil_append] at hs
    rw [render, kinds]
    exact hs
  | .cond bs none _, h => by
    rw [Printable] at h
    have hs := (closes_renderBranches depth .kwIf bs h.2).append closes_empty
    rw [List.append_nil] at hs
    rw [render, kinds]
    exact hs
  | .cond bs (some body) _, h => by
    rw [Printable] at h
    have hb := closes_renderBranches depth .kwIf bs h.2.1
    have he := (Kind.Proper.spells (k := .keyword .kwElse) trivial).renderBlock
      (closes_renderBody (depth + 1) body h.2.2) depth
    rw [render, kinds]
    exact hb.append he
  | .loop e body _, h => by
    rw [Printable] at h
    have hs :=
      (spells_guard .kwWhile h.1).renderBlock (closes_renderBody (depth + 1) body h.2) depth
    simp only [List.append_assoc, List.cons_append, List.nil_append] at hs
    rw [render, kinds]
    exact hs
  | .each v e body _, h => by
    rw [Printable] at h
    have hs :=
      (spells_eachHead h.1 h.2.1).renderBlock (closes_renderBody (depth + 1) body h.2.2) depth
    simp only [List.append_assoc, List.cons_append, List.nil_append] at hs
    rw [render, kinds]
    exact hs
  | .ret (some e) _, h => by
    rw [Printable] at h
    have hs := (((closes_keyword .kwReturn).append_spells (e.spells_render (h e rfl))).append_breaks
      breaks_semicolon).indented depth
    simp only [List.cons_append, List.nil_append] at hs
    rw [render, kinds]
    exact hs
  | .ret none _, _ => by
    rw [render, kinds]
    exact (closes_keyword_semicolon .kwReturn).indented depth
  | .brk _, _ => by
    rw [render, kinds]
    exact (closes_keyword_semicolon .kwBreak).indented depth
  | .cont _, _ => by
    rw [render, kinds]
    exact (closes_keyword_semicolon .kwContinue).indented depth
  | .expr e, h => by
    rw [Printable] at h
    rw [render, kinds]
    exact ((e.spells_render h.2).append_breaks breaks_semicolon).indented depth

theorem closes_renderBranches (depth : Nat) (word : Keyword) : ∀ bs : List Branch,
    PrintableBranches bs → Closes (renderBranches depth word.spelling bs) (kindsBranches word bs)
  | [], _ => by
    rw [renderBranches, kindsBranches]
    exact closes_empty
  | .mk e body _ :: bs, h => by
    rw [PrintableBranches] at h
    have hs := ((spells_guard word h.1).renderBlock
      (closes_renderBody (depth + 1) body h.2.1) depth).append
      (closes_renderBranches depth .kwElif bs h.2.2)
    simp only [List.append_assoc, List.cons_append, List.nil_append] at hs
    rw [renderBranches, kindsBranches]
    exact hs

theorem closes_renderBody (depth : Nat) : ∀ body : List Stmt, PrintableBody body →
    Closes (renderBody depth body) (kindsBody body)
  | [], _ => by
    rw [renderBody, kindsBody]
    exact closes_empty
  | s :: ss, h => by
    rw [PrintableBody] at h
    rw [renderBody, kindsBody]
    exact (closes_render depth s h.1).append (closes_renderBody depth ss h.2)

end

end Stmt

/-! ## Programs -/

namespace ImportName

/-- Can the name be written? -/
def Printable (n : ImportName) : Prop := n.name.kindOf.Proper ∧ ∀ a ∈ n.asName, a.kindOf.Proper

/-- The tokens of a printed name. -/
def kinds (n : ImportName) : List Kind :=
  match n.asName with
  | some a => [n.name.kindOf, .keyword .kwAs, a.kindOf]
  | none => [n.name.kindOf]

theorem spelling_kindOf (n : Name) : n.kindOf.spelling = n.text := by
  obtain ⟨s, k⟩ := n
  cases k <;> rfl

theorem spells_text {n : Name} (h : n.kindOf.Proper) : Spells n.text [n.kindOf] := by
  rw [← spelling_kindOf]
  exact h.spells

theorem spells_render {n : ImportName} (h : n.Printable) : Spells n.render n.kinds := by
  obtain ⟨name, asName, loc⟩ := n
  cases asName with
  | none => exact spells_text h.1
  | some a =>
    have has : Breaks " as " [.keyword .kwAs] := breaks_spaced (k := .keyword .kwAs) trivial
    exact ((spells_text h.1).append_breaks has).append_spells (spells_text (h.2 a rfl))

end ImportName

namespace Import

/-- Can the import line be written? -/
def Printable (i : Import) : Prop :=
  (Kind.ident i.module).Proper ∧
    match i.names with
    | .all => True
    | .names ns => ns ≠ [] ∧ ∀ n ∈ ns, n.Printable

/-- The tokens of a printed import line. -/
def kinds (i : Import) : List Kind :=
  .keyword .kwFrom :: .ident i.module ::
    match i.names with
    | .all => [.keyword .kwImportAll, .mark .semicolon]
    | .names ns =>
      .keyword .kwImport ::
        ([Kind.mark .comma].intercalate (ns.map ImportName.kinds) ++ [.mark .semicolon])

theorem closes_render {i : Import} (h : i.Printable) : Closes i.render i.kinds := by
  obtain ⟨m, names, loc⟩ := i
  have hm : Spells m [.ident m] := Kind.Proper.spells (k := .ident m) h.1
  have hfrom := (closes_keyword .kwFrom).append_spells hm
  cases names with
  | all =>
    have hall : Breaks " importall;" [.keyword .kwImportAll, .mark .semicolon] :=
      breaks_space.append_closes (closes_keyword_semicolon .kwImportAll)
    exact hfrom.append_breaks hall
  | names ns =>
    have himport : Breaks " import " [.keyword .kwImport] :=
      breaks_spaced (k := .keyword .kwImport) trivial
    have hns := Spells.intercalate ImportName.render ImportName.kinds ns fun n hn =>
      ImportName.spells_render (h.2.2 n hn)
    have htail : Breaks (" import " ++ ", ".intercalate (ns.map ImportName.render) ++ ";")
        (([.keyword .kwImport] ++ [.mark .comma].intercalate (ns.map ImportName.kinds)) ++
          [.mark .semicolon]) := by
      rw [String.append_assoc, List.append_assoc]
      exact himport.append_closes (hns.append_breaks breaks_semicolon)
    exact hfrom.append_breaks htail

end Import

namespace FnDef

/-- The token for the name of a callable. -/
def nameKind (f : FnDef) : Kind :=
  match f.head with
  | .function => .ident f.name
  | _ => .op f.name

/-- The tokens of the kind and the name of a callable. -/
def kindsName (f : FnDef) : List Kind :=
  match f.head with
  | .function => [.ident f.name]
  | .prefixOp => [.keyword .kwPrefix, .op f.name]
  | .infixOp x => [.keyword (Head.word x.assoc), .int x.precedence.toNat, .op f.name]

/-- The tokens of a printed signature, if there is one. -/
def kindsSig (f : FnDef) : List Kind :=
  match f.sig with
  | some s => .mark .doubleColon :: s.kinds
  | none => []

/-- Can the definition be written? -/
structure Printable (f : FnDef) : Prop where
  name : f.nameKind.Proper
  params : ∀ p ∈ f.params, (Kind.ident p.name).Proper
  sig : ∀ s ∈ f.sig, s.Printable
  body : Stmt.PrintableBody f.body

/-- The tokens of a printed definition. -/
def kinds (f : FnDef) : List Kind :=
  f.kindsName ++ .mark .lparen ::
    ([Kind.mark .comma].intercalate (f.params.map fun p => [.ident p.name]) ++
      .mark .rparen :: (f.kindsSig ++ .mark .lbrace :: (Stmt.kindsBody f.body ++ [.mark .rbrace])))

theorem spells_fixity (x : Fixity) :
    Spells x.render [.keyword (Head.word x.assoc), .int x.precedence.toNat] := by
  have hp : (Kind.int x.precedence.toNat).Proper := by
    have := x.precedence.toNat_lt
    show _ ≤ maxInt
    rw [maxInt]
    omega
  obtain ⟨assoc, p⟩ := x
  cases assoc with
  | left => exact (closes_keyword .kwInfixl).append_spells hp.spells
  | right => exact (closes_keyword .kwInfixr).append_spells hp.spells

theorem closes_name {f : FnDef} (h : f.nameKind.Proper) :
    Closes ((match f.head with
      | .function => f.name
      | .prefixOp => "prefix " ++ f.name ++ " "
      | .infixOp fixity => fixity.render ++ " " ++ f.name ++ " ") ++ "(")
      (f.kindsName ++ [.mark .lparen]) := by
  obtain ⟨head, name, params, sig, body, loc⟩ := f
  cases head with
  | function => exact (Kind.Proper.spells (k := .ident name) h).append_breaks breaks_lparen
  | prefixOp =>
    have hop : Spells name [.op name] := Kind.Proper.spells (k := .op name) h
    exact (((closes_keyword .kwPrefix).append_spells hop).append_breaks breaks_space).append
      breaks_lparen.closes
  | infixOp x =>
    have hop : Spells name [.op name] := Kind.Proper.spells (k := .op name) h
    exact ((((spells_fixity x).append_breaks breaks_space).append_spells hop).append_breaks
      breaks_space).append breaks_lparen.closes

theorem spells_sig {f : FnDef} (h : ∀ s ∈ f.sig, s.Printable) :
    Spells (match f.sig with
      | some sig => " :: " ++ sig.render
      | none => "") f.kindsSig := by
  obtain ⟨head, name, params, sig, body, loc⟩ := f
  cases sig with
  | none => exact closes_empty.spells
  | some s =>
    have hcolon : Breaks " :: " [.mark .doubleColon] :=
      breaks_spaced (k := .mark .doubleColon) trivial
    exact hcolon.closes.append_spells (Signature.spells_render (h s rfl))

theorem spells_renderHead {f : FnDef} (h : f.Printable) : Spells f.renderHead
    (f.kindsName ++ .mark .lparen ::
      ([Kind.mark .comma].intercalate (f.params.map fun p => [.ident p.name]) ++
        .mark .rparen :: f.kindsSig)) := by
  have hps := Spells.intercalate Param.name (fun p => [.ident p.name]) f.params fun p hp =>
    Kind.Proper.spells (k := .ident p.name) (h.params p hp)
  have hs := (((closes_name h.name).append_spells hps).append_breaks breaks_rparen).append_spells
    (spells_sig h.sig)
  simp only [List.append_assoc, List.cons_append, List.nil_append] at hs
  exact hs

end FnDef

namespace Item

/-- Can the item be written? -/
def Printable : Item → Prop
  | .synonym s => (Kind.typeName s.name).Proper ∧ s.ty.Printable
  | .global d => d.Printable
  | .fn f => f.Printable

/-- The tokens of a printed item. -/
def kinds : Item → List Kind
  | .synonym s =>
    .keyword .kwType :: .typeName s.name :: .mark .assign :: (s.ty.kinds ++ [.mark .semicolon])
  | .global d => d.kinds
  | .fn f => f.kinds

theorem closes_render {i : Item} (h : i.Printable) : Closes i.render i.kinds := by
  cases i with
  | synonym s =>
    have hn : Spells s.name [.typeName s.name] := Kind.Proper.spells (k := .typeName s.name) h.1
    have hs := (((((closes_keyword .kwType).append_spells hn).append_breaks
      breaks_assign).append_spells (Ty.spells_render h.2)).append_breaks breaks_semicolon).indented
        0
    simp only [List.cons_append, List.nil_append] at hs
    exact hs
  | global d => exact (VarDecl.closes_render h).indented 0
  | fn f =>
    have hs := (FnDef.spells_renderHead h).renderBlock (Stmt.closes_renderBody 1 f.body h.body) 0
    simp only [List.append_assoc, List.cons_append] at hs
    exact hs

end Item

namespace Program

/-- Can the program be written? -/
def Printable (p : Program) : Prop :=
  (∀ i ∈ p.imports, i.Printable) ∧ ∀ i ∈ p.items, i.Printable

/-- The tokens of a printed program. -/
def kinds (p : Program) : List Kind := p.imports.flatMap Import.kinds ++ p.items.flatMap Item.kinds

theorem closes_imports : ∀ is : List Import, (∀ i ∈ is, i.Printable) →
    Closes (String.join (is.map fun i => indented 0 i.render)) (is.flatMap Import.kinds)
  | [], _ => closes_empty
  | i :: is, h => by
    rw [List.map_cons, String.join_cons, List.flatMap_cons]
    exact ((Import.closes_render (h i List.mem_cons_self)).indented 0).append
      (closes_imports is fun j hj => h j (List.mem_cons_of_mem _ hj))

theorem closes_items : ∀ is : List Item, (∀ i ∈ is, i.Printable) →
    Closes ("\n".intercalate (is.map Item.render)) (is.flatMap Item.kinds)
  | [], _ => closes_empty
  | [i], h => by
    simp only [List.map_cons, List.map_nil, String.intercalate_singleton, List.flatMap_cons,
      List.flatMap_nil, List.append_nil]
    exact Item.closes_render (h i List.mem_cons_self)
  | i :: j :: is, h => by
    have hrest := closes_items (j :: is) fun k hk => h k (List.mem_cons_of_mem _ hk)
    have hi := (Item.closes_render (h i List.mem_cons_self)).append breaks_newline.closes
    rw [List.map_cons, List.map_cons, String.intercalate_cons_cons, List.flatMap_cons]
    rw [List.append_nil] at hi
    exact hi.append hrest

/-- The printed text of a program spells the tokens of the program. -/
theorem lexes_render {p : Program} (h : p.Printable) : Lexes p.render.toList p.kinds := by
  have hgap : Closes (if p.imports.isEmpty || p.items.isEmpty then "" else "\n") [] := by
    split
    · exact closes_empty
    · exact breaks_newline.closes
  have hs := ((closes_imports p.imports h.1).append hgap).append (closes_items p.items h.2)
  rw [List.append_nil] at hs
  have hl := hs [] [] lexes_nil
  rw [List.append_nil, List.append_nil] at hl
  exact hl

end Program

end SplFrontend
