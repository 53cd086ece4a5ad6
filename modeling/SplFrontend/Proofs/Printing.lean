import SplFrontend.Expr.Printing
import SplFrontend.Proofs.Erasure
import SplFrontend.Proofs.Spelling

/-!
# Printed trees spell tokens

`kinds` lists the tokens that a printed tree consists of. A tree is `Printable` if its names can be
told apart as tokens and its parts have the number that their printed form needs; such a tree spells
its tokens. Whether a tree is printable does not depend on what the passes add to it, so a pass that
keeps the written form of a tree keeps it printable.
-/

namespace SplFrontend

open Scan

/-! ## Fixed pieces of text -/

theorem breaks_lparen : Breaks "(" [.mark .lparen] := breaks_mark (c := '(') rfl

theorem breaks_rparen : Breaks ")" [.mark .rparen] := breaks_mark (c := ')') rfl

theorem breaks_semicolon : Breaks ";" [.mark .semicolon] := breaks_mark (c := ';') rfl

theorem breaks_rbrace : Breaks "\x7d" [.mark .rbrace] := breaks_mark (c := '}') rfl

theorem breaks_lbracket : Breaks "[" [.mark .lbracket] := breaks_mark (c := '[') rfl

theorem breaks_rbracket : Breaks "]" [.mark .rbracket] := breaks_mark (c := ']') rfl

theorem breaks_comma : Breaks ", " [.mark .comma] :=
  (breaks_mark (c := ',') rfl).append_closes breaks_space.closes

theorem breaks_lbrace : Breaks " \x7b" [.mark .lbrace] :=
  breaks_space.append_closes (breaks_mark (c := '{') rfl).closes

/-- A token between two spaces. -/
theorem breaks_spaced {k : Kind} (h : k.Proper) : Breaks (" " ++ k.spelling ++ " ") [k] := by
  have hb : Breaks (" " ++ (k.spelling ++ " ")) ([] ++ ([k] ++ [])) :=
    breaks_space.append_closes (h.spells.append_breaks breaks_space)
  rwa [← String.append_assoc] at hb

theorem breaks_assign : Breaks " = " [.mark .assign] := breaks_spaced (k := .mark .assign) trivial

/-- A keyword and the space after it. -/
theorem closes_keyword (k : Keyword) : Closes (k.spelling ++ " ") [.keyword k] :=
  (Kind.Proper.spells (k := .keyword k) trivial).append_breaks breaks_space

/-- A keyword and the opening parenthesis after it. -/
theorem closes_keyword_paren (k : Keyword) :
    Closes (k.spelling ++ " (") [.keyword k, .mark .lparen] :=
  (Kind.Proper.spells (k := .keyword k) trivial).append_breaks
    (breaks_space.append_closes breaks_lparen.closes)

/-- A keyword that is a statement on its own. -/
theorem closes_keyword_semicolon (k : Keyword) :
    Closes (k.spelling ++ ";") [.keyword k, .mark .semicolon] :=
  (Kind.Proper.spells (k := .keyword k) trivial).append_breaks breaks_semicolon

theorem Spells.intercalate {α : Type} (f : α → String) (g : α → List Kind) :
    ∀ xs : List α, (∀ x ∈ xs, Spells (f x) (g x)) →
      Spells (", ".intercalate (xs.map f)) ([.mark .comma].intercalate (xs.map g))
  | [], _ => closes_empty.spells
  | [x], h => by
    simp only [List.map_cons, List.map_nil, String.intercalate_singleton,
      List.intercalate_singleton]
    exact h x List.mem_cons_self
  | x :: y :: xs, h => by
    have hrest := Spells.intercalate f g (y :: xs) fun z hz => h z (List.mem_cons_of_mem _ hz)
    simp only [List.map_cons, String.intercalate_cons_cons, List.intercalate_cons_cons] at hrest ⊢
    exact ((h x List.mem_cons_self).append_breaks breaks_comma).append_spells hrest

/-! ## Types -/

namespace Ty

/-- Can the type be written? -/
def Printable : Ty → Prop
  | .basic _ => True
  | .pair a b => a.Printable ∧ b.Printable
  | .list e => e.Printable
  | .syn name => (Kind.typeName name).Proper ∧ Basic.ofName? name = none

/-- The tokens of a printed type. -/
def kinds : Ty → List Kind
  | .basic b => [.typeName b.name]
  | .pair a b => .mark .lparen :: (a.kinds ++ .mark .comma :: (b.kinds ++ [.mark .rparen]))
  | .list e => .mark .lbracket :: (e.kinds ++ [.mark .rbracket])
  | .syn name => [.typeName name]

theorem proper_basic (b : Basic) : (Kind.typeName b.name).Proper := by
  cases b <;> exact ⟨_, _, rfl, by decide, List.all_eq_true.1 (by decide), rfl⟩

theorem spells_render {t : Ty} (h : t.Printable) : Spells t.render t.kinds := by
  induction t with
  | basic b => exact (proper_basic b).spells
  | pair a b iha ihb =>
    have hs := ((((breaks_lparen.closes.append_spells (iha h.1)).append_breaks
      breaks_comma).append_spells (ihb h.2)).append_breaks breaks_rparen).spells
    simpa only [render, kinds, List.append_assoc, List.cons_append, List.nil_append] using hs
  | list e ih =>
    have hs := ((breaks_lbracket.closes.append_spells (ih h)).append_breaks breaks_rbracket).spells
    simpa only [render, kinds, List.append_assoc, List.cons_append, List.nil_append] using hs
  | syn n => exact h.1.spells

end Ty

namespace Signature

/-- Can the signature be written? -/
def Printable (s : Signature) : Prop := (∀ t ∈ s.params, t.Printable) ∧ s.result.Printable

/-- The tokens of a printed signature. -/
def kinds (s : Signature) : List Kind := s.params.flatMap Ty.kinds ++ .mark .arrow :: s.result.kinds

theorem closes_params : ∀ ts : List Ty, (∀ t ∈ ts, t.Printable) →
    Closes (String.join (ts.map fun t => t.render ++ " ")) (ts.flatMap Ty.kinds)
  | [], _ => closes_empty
  | t :: ts, h => by
    have ht := (Ty.spells_render (h t List.mem_cons_self)).append_breaks breaks_space
    have hts := closes_params ts fun u hu => h u (List.mem_cons_of_mem _ hu)
    simpa only [List.map_cons, String.join_cons, List.flatMap_cons, List.append_nil]
      using ht.append hts

theorem spells_render {s : Signature} (h : s.Printable) : Spells s.render s.kinds := by
  have ha : Closes "-> " [.mark .arrow] :=
    (Kind.Proper.spells (k := .mark .arrow) trivial).append_breaks breaks_space
  have hs := ((closes_params s.params h.1).append ha).append_spells (Ty.spells_render h.2)
  simpa only [render, kinds, List.append_assoc, List.cons_append, List.nil_append] using hs

end Signature

/-! ## Expressions -/

/-- Can a call of this kind be written with the name and the number of arguments? -/
def CallKind.Printable : CallKind → String → Nat → Prop
  | .function, name, _ => (Kind.ident name).Proper
  | .prefixOp, name, count => (Kind.op name).Proper ∧ count = 1
  | .infixOp, name, count => (Kind.op name).Proper ∧ count = 2

/-- Can the variable be written? -/
def Variable.Printable (v : Variable) : Prop := (Kind.ident v.ref.name).Proper

/-- The tokens of a printed variable. -/
def Variable.kinds (v : Variable) : List Kind := .ident v.ref.name :: v.accessors.map .accessor

theorem Variable.spells_render {v : Variable} (h : v.Printable) : Spells v.render v.kinds := by
  -- each accessor begins with a dot, which ends the name or the accessor before it
  have hacc : ∀ (as : List Accessor) (s : String) (ks : List Kind), Spells s ks →
      Spells (s ++ String.join (as.map fun a => "." ++ a.name)) (ks ++ as.map .accessor) := by
    intro as
    induction as with
    | nil =>
      intro s ks hs
      simpa only [List.map_nil, String.join_nil, String.append_empty, List.append_nil] using hs
    | cons a as ih =>
      intro s ks hs
      have ha : Spells (s ++ ("." ++ a.name)) (ks ++ [.accessor a]) := by
        intro rest js hr hl
        rw [String.toList_append, List.append_assoc, List.append_assoc]
        refine hs _ _ ?_ (hl.token (k := .accessor a) (Kind.scansBefore_accessor a hr))
        have hdot : ("." ++ a.name).toList = '.' :: a.name.toList := by cases a <;> rfl
        rw [hdot]
        intro c hc
        cases hc
        decide
      have hrest := ih _ _ ha
      simpa only [List.map_cons, String.join_cons, String.append_assoc, List.append_assoc,
        List.cons_append, List.nil_append] using hrest
  exact hacc v.accessors v.ref.name [.ident v.ref.name] (Kind.Proper.spells (k := .ident _) h)

namespace Expr

mutual

/-- Can the expression be written? -/
def Printable : Expr → Prop
  | .int n _ => n ≤ maxInt
  | .char .. | .bool .. | .str .. | .emptyList .. => True
  | .pair a b _ => a.Printable ∧ b.Printable
  | .var v => v.Printable
  | .flat e rest _ => e.Printable ∧ rest ≠ [] ∧ PrintableRest rest
  | .call kind name args _ => kind.Printable name args.length ∧ PrintableArgs args
  | .bound b args _ => b.kind.Printable b.name args.length ∧ PrintableArgs args

/-- Can the arguments be written? -/
def PrintableArgs : List Expr → Prop
  | [] => True
  | e :: es => e.Printable ∧ PrintableArgs es

/-- Can the operators and operands of a sequence be written? -/
def PrintableRest : List (OpUse × Expr) → Prop
  | [] => True
  | (op, e) :: rest => (Kind.op op.name).Proper ∧ e.Printable ∧ PrintableRest rest

end

/-- The tokens of an operand: a sequence stands in parentheses. -/
def wrapKinds (e : Expr) (ks : List Kind) : List Kind :=
  if e.isFlat then .mark .lparen :: (ks ++ [.mark .rparen]) else ks

/-- The tokens of a call, from its arguments and their tokens. -/
def callKinds (kind : CallKind) (name : String) (args : List (Expr × List Kind)) : List Kind :=
  match kind, args with
  | .prefixOp, [(e, ks)] => .op name :: wrapKinds e ks
  | .infixOp, [(e, ks), (f, js)] =>
    .mark .lparen :: (wrapKinds e ks ++ .op name :: (wrapKinds f js ++ [.mark .rparen]))
  | _, args =>
    .ident name :: .mark .lparen ::
      ([Kind.mark .comma].intercalate (args.map Prod.snd) ++ [.mark .rparen])

mutual

/-- The tokens of a printed expression. -/
def kinds : Expr → List Kind
  | .int n _ => [.int n]
  | .char c _ => [.char c]
  | .bool b _ => [.bool b]
  | .str s _ => [.str s]
  | .emptyList _ _ => [.mark .lbracket, .mark .rbracket]
  | .pair a b _ => .mark .lparen :: (a.kinds ++ .mark .comma :: (b.kinds ++ [.mark .rparen]))
  | .var v => v.kinds
  | .flat e rest _ => wrapKinds e e.kinds ++ kindsRest rest
  | .call kind name args _ => callKinds kind name (kindsArgs args)
  | .bound b args _ => callKinds b.kind b.name (kindsArgs args)

/-- The tokens of the operators and operands of a sequence. -/
def kindsRest : List (OpUse × Expr) → List Kind
  | [] => []
  | (op, e) :: rest => .op op.name :: (wrapKinds e e.kinds ++ kindsRest rest)

/-- The arguments with their tokens. -/
def kindsArgs : List Expr → List (Expr × List Kind)
  | [] => []
  | e :: es => (e, e.kinds) :: kindsArgs es

end

theorem renderArgs_eq_map (args : List Expr) :
    renderArgs args = args.map fun e => (e, e.render) := by
  induction args with
  | nil => rw [renderArgs, List.map_nil]
  | cons e es ih => rw [renderArgs, ih, List.map_cons]

theorem kindsArgs_eq_map (args : List Expr) : kindsArgs args = args.map fun e => (e, e.kinds) := by
  induction args with
  | nil => rw [kindsArgs, List.map_nil]
  | cons e es ih => rw [kindsArgs, ih, List.map_cons]

theorem printableRest_iff {rest : List (OpUse × Expr)} :
    PrintableRest rest ↔ ∀ x ∈ rest, (Kind.op x.1.name).Proper ∧ x.2.Printable := by
  induction rest with
  | nil => simp [PrintableRest]
  | cons x rest ih =>
    obtain ⟨op, e⟩ := x
    simp [PrintableRest, ih, and_assoc]

theorem spells_wrap (e : Expr) {t : String} {ks : List Kind} (h : Spells t ks) :
    Spells (wrap e t) (wrapKinds e ks) := by
  unfold wrap wrapKinds
  split
  · exact ((breaks_lparen.closes.append_spells h).append_breaks breaks_rparen).spells
  · exact h

/-- A printable call spells its tokens if its arguments do. -/
theorem spells_renderCall {kind : CallKind} {name : String} {args : List Expr}
    (hk : kind.Printable name args.length) (h : ∀ e ∈ args, Spells e.render e.kinds) :
    Spells (renderCall kind name (renderArgs args)) (callKinds kind name (kindsArgs args)) := by
  rw [renderArgs_eq_map, kindsArgs_eq_map]
  cases kind with
  | function =>
    have hn : Spells name [.ident name] := Kind.Proper.spells (k := .ident name) hk
    have hargs := Spells.intercalate render kinds args h
    have hs := (((hn.append_breaks breaks_lparen).append_spells hargs).append_breaks
      breaks_rparen).spells
    simpa only [renderCall, callKinds, List.map_map, Function.comp_def, List.append_assoc,
      List.cons_append, List.nil_append] using hs
  | prefixOp =>
    obtain ⟨hn, hlen⟩ := hk
    obtain ⟨e, rfl⟩ := List.length_eq_one_iff.1 hlen
    have hop : Spells name [.op name] := Kind.Proper.spells (k := .op name) hn
    have he := spells_wrap e (h e List.mem_cons_self)
    exact (hop.append_breaks breaks_space).append_spells he
  | infixOp =>
    obtain ⟨hn, hlen⟩ := hk
    obtain ⟨e, f, rfl⟩ : ∃ e f, args = [e, f] := by
      match args, hlen with
      | [e, f], _ => exact ⟨e, f, rfl⟩
    have hop : Spells name [.op name] := Kind.Proper.spells (k := .op name) hn
    have he := spells_wrap e (h e List.mem_cons_self)
    have hf := spells_wrap f (h f (List.mem_cons_of_mem _ List.mem_cons_self))
    have hs :=
      ((((((breaks_lparen.closes.append_spells he).append_breaks breaks_space).append_spells
      hop).append_breaks breaks_space).append_spells hf).append_breaks breaks_rparen).spells
    simpa only [renderCall, callKinds, List.map_cons, List.map_nil, List.append_assoc,
      List.cons_append, List.nil_append, List.append_nil] using hs

mutual

theorem spells_render : ∀ e : Expr, e.Printable → Spells e.render e.kinds
  | .int n _, h => by
    rw [render, kinds]
    exact Kind.Proper.spells (k := .int n) h
  | .char c _, _ => by
    rw [render, kinds]
    exact Kind.Proper.spells (k := .char c) trivial
  | .bool b _, _ => by
    rw [render, kinds]
    exact Kind.Proper.spells (k := .bool b) trivial
  | .str s _, _ => by
    rw [render, kinds]
    exact Kind.Proper.spells (k := .str s) trivial
  | .emptyList _ _, _ => by
    rw [render, kinds]
    exact (breaks_lbracket.closes.append breaks_rbracket.closes).spells
  | .pair a b _, h => by
    rw [Printable] at h
    have hs := ((((breaks_lparen.closes.append_spells (spells_render a h.1)).append_breaks
      breaks_comma).append_spells (spells_render b h.2)).append_breaks breaks_rparen).spells
    simpa only [render, kinds, List.append_assoc, List.cons_append, List.nil_append] using hs
  | .var v, h => by
    rw [Printable] at h
    rw [render, kinds]
    exact v.spells_render h
  | .flat e rest _, h => by
    rw [Printable] at h
    rw [render, kinds]
    exact spells_renderRest rest h.2.2 _ _ (spells_wrap e (spells_render e h.1))
  | .call kind name args _, h => by
    rw [Printable] at h
    rw [render, kinds]
    exact spells_renderCall h.1 (spells_renderArgs args h.2)
  | .bound b args _, h => by
    rw [Printable] at h
    rw [render, kinds]
    exact spells_renderCall h.1 (spells_renderArgs args h.2)

theorem spells_renderArgs : ∀ args : List Expr, PrintableArgs args →
    ∀ e ∈ args, Spells e.render e.kinds
  | [], _ => fun _ he => by cases he
  | e :: es, h => by
    rw [PrintableArgs] at h
    exact List.forall_mem_cons.2 ⟨spells_render e h.1, spells_renderArgs es h.2⟩

theorem spells_renderRest : ∀ rest : List (OpUse × Expr), PrintableRest rest →
    ∀ (s : String) (ks : List Kind), Spells s ks →
      Spells (s ++ renderRest rest) (ks ++ kindsRest rest)
  | [], _ => fun s ks hs => by
    simpa only [renderRest, kindsRest, String.append_empty, List.append_nil] using hs
  | (op, e) :: rest, h => by
    rw [PrintableRest] at h
    intro s ks hs
    have hop : Spells op.name [.op op.name] := Kind.Proper.spells (k := .op op.name) h.1
    have he := ((((hs.append_breaks breaks_space).append_spells hop).append_breaks
      breaks_space).append_spells (spells_wrap e (spells_render e h.2.1)))
    have hrest := spells_renderRest rest h.2.2 _ _ he
    simpa only [renderRest, kindsRest, String.append_assoc, List.append_assoc, List.cons_append,
      List.nil_append] using hrest

end

theorem printable_call {k : Erasure} {kind : CallKind} {name : String} {args : List Expr} :
    (k.call kind name args).Printable ↔ kind.Printable name args.length ∧ PrintableArgs args := by
  unfold Erasure.call
  split
  · next l r =>
    split
    · simp only [Printable]
    · simp only [Printable, PrintableArgs, PrintableRest, CallKind.Printable, List.length_cons,
        List.length_nil]
      constructor
      · rintro ⟨hl, -, ho, hr, -⟩
        exact ⟨⟨ho, trivial⟩, hl, hr, trivial⟩
      · rintro ⟨⟨ho, -⟩, hl, hr, -⟩
        exact ⟨hl, List.cons_ne_nil _ _, ho, hr, trivial⟩
  · simp only [Printable]

mutual

/-- Whether an expression can be written depends only on what is written of it. -/
theorem printable_erase (k : Erasure) : ∀ e : Expr, (e.erase k).Printable ↔ e.Printable
  | .int .. => by simp only [erase, Printable]
  | .char .. => by simp only [erase, Printable]
  | .bool .. => by simp only [erase, Printable]
  | .str .. => by simp only [erase, Printable]
  | .emptyList .. => by simp only [erase, Printable]
  | .pair a b _ => by simp only [erase, Printable, printable_erase k a, printable_erase k b]
  | .var v => by simp only [erase, Printable, Variable.Printable, Variable.erase, k.name_ref]
  | .flat e rest _ => by
    have hne : eraseRest k rest ≠ [] ↔ rest ≠ [] := by rw [eraseRest_eq_map]; simp
    simp only [erase, Printable, printable_erase k e, printable_eraseRest k rest, hne]
  | .call kind name args _ => by
    have hlen : (eraseArgs k args).length = args.length := by rw [eraseArgs_eq_map, List.length_map]
    simp only [erase, Printable, printable_call, hlen, printable_eraseArgs k args]
  | .bound b args _ => by
    have hlen : (eraseArgs k args).length = args.length := by rw [eraseArgs_eq_map, List.length_map]
    rw [erase]
    split
    · simp only [Printable, hlen, printable_eraseArgs k args]
    · simp only [Printable, printable_call, hlen, printable_eraseArgs k args]

theorem printable_eraseArgs (k : Erasure) :
    ∀ args : List Expr, PrintableArgs (eraseArgs k args) ↔ PrintableArgs args
  | [] => by simp only [eraseArgs]
  | e :: es => by
    simp only [eraseArgs, PrintableArgs, printable_erase k e, printable_eraseArgs k es]

theorem printable_eraseRest (k : Erasure) :
    ∀ rest : List (OpUse × Expr), PrintableRest (eraseRest k rest) ↔ PrintableRest rest
  | [] => by simp only [eraseRest]
  | (op, e) :: rest => by
    simp only [eraseRest, PrintableRest, printable_erase k e, printable_eraseRest k rest]

end

end Expr

end SplFrontend
