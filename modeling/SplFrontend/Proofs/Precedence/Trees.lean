import SplFrontend.Proofs.Precedence

/-!
# Grouping is exact

An `OpTree` is a way to group a sequence: a binary tree with the operators at its nodes and the
operands at its leaves. It is `Grouped` if every operator binds less tightly than the operators
below it, on the left by their fixities and on the right by its own. For any sequence there is at
most one such tree (`Grouped.unique`), since of two operators the fixity of the left one decides
which may stand above the other. Climbing finds it: what it has taken so far is grouped, and the
operation at which it stops may stand above all that was taken (`Taken`).

Operands may be infix calls themselves, so a tree is not read off the expression that it stands for.
-/

namespace SplFrontend

/-- The precedence as a number. -/
abbrev Fixity.level (f : Fixity) : Nat := f.precedence.toNat

theorem Fixity.level_le_next (f : Fixity) : f.level ≤ f.next := by
  unfold level next
  split <;> omega

theorem Fixity.next_le_level_succ (f : Fixity) : f.next ≤ f.level + 1 := by
  unfold level next
  split <;> omega

/-- What may stand above an operator may stand above all that this operator may stand above. -/
theorem Fixity.level_lt_next_trans {f g h : Fixity} (hfg : f.level < g.next)
    (hgh : g.level < h.next) :
    f.level < h.next := by
  have hg := g.next_le_level_succ
  omega

namespace Precedence

/-- A grouping of a sequence of operands and infix operators. -/
inductive OpTree where
  | operand (e : Expr)
  | node (op : OpUse) (fixity : Fixity) (left right : OpTree)

namespace OpTree

/-- The infix calls that the tree stands for. -/
def toExpr : OpTree → Expr
  | operand e => e
  | node op _ l r => .call .infixOp op.name [l.toExpr, r.toExpr] op.loc

/-- The operand that comes first. -/
def first : OpTree → Expr
  | operand e => e
  | node _ _ l _ => l.first

/-- The operators from left to right, each with the operand after it. -/
def operations : OpTree → List Operation
  | operand _ => []
  | node op fixity l r => l.operations ++ ⟨op, fixity, r.first⟩ :: r.operations

/-- The tree holds these operands and operators, in this order. -/
def Reads (t : OpTree) (e : Expr) (os : List Operation) : Prop := t.first = e ∧ t.operations = os

/-- Every operator to the right of another one below it has at least the least precedence that may
stand there, and no operator could take over what stands above it. -/
def Grouped : OpTree → Prop
  | operand _ => True
  | node _ fixity l r =>
    l.Grouped ∧ r.Grouped ∧ (∀ i ∈ l.operations, fixity.level < i.fixity.next) ∧
      ∀ j ∈ r.operations, fixity.next ≤ j.fixity.level

/-! ## At most one tree -/

/-- The operation may stand at the root between these operations. -/
structure Roots (k : Operation) (left right : List Operation) : Prop where
  left : ∀ i ∈ left, k.fixity.level < i.fixity.next
  right : ∀ j ∈ right, k.fixity.next ≤ j.fixity.level

/-- Of two operations in a sequence, the fixity of the left one decides which may stand above the
other. -/
theorem Roots.not_both {k k' : Operation} {l r more : List Operation}
    (h : Roots k l (more ++ k' :: r)) (h' : Roots k' (l ++ k :: more) r) : False := by
  have hk := h'.left k (by simp)
  have hk' := h.right k' (by simp)
  omega

/-- A sequence has at most one root. -/
theorem Roots.unique {k k' : Operation} {l r l' r' : List Operation} (h : Roots k l r)
    (h' : Roots k' l' r') (heq : l ++ k :: r = l' ++ k' :: r') : l = l' ∧ k = k' ∧ r = r' := by
  obtain ⟨more, hmore, hrest⟩ | ⟨more, hmore, hrest⟩ := List.append_eq_append_iff.1 heq
  all_goals cases more with
  | nil => simp_all
  | cons x more =>
    obtain ⟨rfl, rfl⟩ := List.cons.inj hrest
    subst hmore
    first
    | exact (h.not_both h').elim
    | exact (h'.not_both h).elim

theorem Grouped.roots {op : OpUse} {fixity : Fixity} {l r : OpTree}
    (h : (node op fixity l r).Grouped) :
    Roots ⟨op, fixity, r.first⟩ l.operations r.operations := ⟨h.2.2.1, h.2.2.2⟩

/-- A sequence has at most one grouping. -/
theorem Grouped.unique : ∀ {t u : OpTree}, t.Grouped → u.Grouped → t.first = u.first →
    t.operations = u.operations → t = u
  | operand _, operand _, _, _, hfirst, _ => congrArg operand hfirst
  | operand _, node .., _, _, _, hops => by simp [operations] at hops
  | node .., operand _, _, _, _, hops => by simp [operations] at hops
  | node op f l r, node op' f' l' r', ht, hu, hfirst, hops => by
    obtain ⟨hl, hk, hr⟩ := ht.roots.unique hu.roots hops
    obtain ⟨rfl, rfl, hfirst'⟩ := Operation.mk.inj hk
    rw [Grouped.unique ht.1 hu.1 hfirst hl, Grouped.unique ht.2.1 hu.2.1 hfirst' hr]

end OpTree

/-! ## Climbing -/

/-- What climbing from a tree takes of a sequence, and what it leaves. -/
structure Taken (least : Nat) (start : OpTree) (os : List Operation) (t : OpTree)
    (rest : List Operation) :
    Prop where
  first : t.first = start.first
  /-- Nothing is lost, doubled or moved. -/
  operations : t.operations ++ rest = start.operations ++ os
  grouped : t.Grouped
  /-- What was taken binds tightly enough. -/
  tight : ∀ i ∈ t.operations, i ∈ start.operations ∨ least ≤ i.fixity.level
  /-- What is left begins with an operation that binds too loosely to be taken, and that may stand
  above all that was taken. -/
  stops : ∀ o ∈ rest.head?, o.fixity.level < least ∧
    ∀ i ∈ t.operations, o.fixity.level < i.fixity.next

/-- The tree after one operation: its right operand has taken what binds tighter than the
operator. -/
def OpTree.over (o : Operation) (left right : OpTree) : OpTree := .node o.op o.fixity left right

section

variable {least : Nat} {start r : OpTree} {o : Operation} {os rest : List Operation}

theorem Taken.operations_over (h : Taken o.fixity.next (.operand o.operand) os r rest) :
    (OpTree.over o start r).operations ++ rest = start.operations ++ o :: os := by
  have hops : r.operations ++ rest = os := h.operations
  simp only [OpTree.over, OpTree.operations, h.first, List.append_assoc, List.cons_append, hops]
  rfl

theorem Taken.grouped_over (h : Taken o.fixity.next (.operand o.operand) os r rest)
    (hstart : start.Grouped) (hnext : ∀ i ∈ start.operations, o.fixity.level < i.fixity.next) :
    (OpTree.over o start r).Grouped := by
  refine ⟨hstart, h.grouped, hnext, fun j hj => ?_⟩
  obtain hj | hj := h.tight j hj
  · cases hj
  · exact hj

theorem Taken.tight_over (h : Taken o.fixity.next (.operand o.operand) os r rest)
    (hle : least ≤ o.fixity.level) {i : Operation} (hi : i ∈ (OpTree.over o start r).operations) :
    i ∈ start.operations ∨ least ≤ i.fixity.level := by
  obtain hi | hi := List.mem_append.1 hi
  · exact .inl hi
  · obtain rfl | hi := List.mem_cons.1 hi
    · exact .inr hle
    · obtain hi | hi := h.tight i hi
      · cases hi
      · exact .inr (Nat.le_trans hle (Nat.le_trans o.fixity.level_le_next hi))

/-- What the right operand leaves begins with an operation that may stand above the whole. -/
theorem Taken.stops_over (h : Taken o.fixity.next (.operand o.operand) os r rest)
    (hnext : ∀ i ∈ start.operations, o.fixity.level < i.fixity.next) :
    ∀ x ∈ rest.head?, ∀ i ∈ (OpTree.over o start r).operations, x.fixity.level < i.fixity.next := by
  intro x hx i hi
  obtain ⟨hlt, habove⟩ := h.stops x hx
  obtain hi | hi := List.mem_append.1 hi
  · exact Fixity.level_lt_next_trans hlt (hnext i hi)
  · obtain rfl | hi := List.mem_cons.1 hi
    · exact hlt
    · exact habove i hi

end

/-- Climbing from a grouped tree takes what binds tightly enough, if the next operation may stand
above the tree. -/
theorem exists_taken (least : Nat) (left : Expr) (os : List Operation) : ∀ start : OpTree,
    start.toExpr = left → start.Grouped →
    (∀ o ∈ os.head?, ∀ i ∈ start.operations, o.fixity.level < i.fixity.next) →
    ∃ t, (climb least left os).tree = t.toExpr ∧
      Taken least start os t (climb least left os).rest := by
  fun_induction climb least left os with
  | case1 least left =>
    rintro start rfl hstart -
    exact ⟨start, rfl, rfl, rfl, hstart, fun _ => .inl, fun _ h => by cases h⟩
  | case2 least left o os hle right whole ihright ihwhole =>
    rintro start rfl hstart hnext
    obtain ⟨r, hr, hright⟩ :=
      ihright (.operand o.operand) rfl trivial fun _ _ => List.forall_mem_nil _
    have habove := hnext o rfl
    have hover : (OpTree.over o start r).toExpr = o.apply start.toExpr right.tree := by rw [hr]; rfl
    obtain ⟨t, ht, hwhole⟩ := ihwhole (.over o start r) hover (hright.grouped_over hstart habove)
      (hright.stops_over habove)
    refine ⟨t, ht, hwhole.first, ?_, hwhole.grouped, fun i hi => ?_, hwhole.stops⟩
    · rw [hwhole.operations, hright.operations_over]
    · obtain hi | hi := hwhole.tight i hi
      · exact hright.tight_over hle hi
      · exact .inr hi
  | case3 least left o os hlt =>
    rintro start rfl hstart hnext
    refine ⟨start, rfl, rfl, rfl, hstart, fun _ => .inl, ?_⟩
    rintro _ ⟨⟩
    exact ⟨Nat.lt_of_not_le hlt, hnext o rfl⟩

/-- Grouping takes the whole sequence. -/
theorem exists_grouped (first : Expr) (os : List Operation) :
    ∃ t : OpTree, grouped first os = t.toExpr ∧ t.Reads first os ∧ t.Grouped := by
  obtain ⟨t, ht, htaken⟩ := exists_taken 0 first os (.operand first) rfl trivial nofun
  have hrest : (climb 0 first os).rest = [] := by
    cases hr : (climb 0 first os).rest with
    | nil => rfl
    | cons o rest => exact absurd (htaken.stops o (by rw [hr]; rfl)).1 (Nat.not_lt_zero _)
  refine ⟨t, ht, ⟨htaken.first, ?_⟩, htaken.grouped⟩
  simpa [hrest, OpTree.operations] using htaken.operations

/-! ## Sequences -/

variable {v : Visible} {φ : String → Fixity}

/-- The operations of a sequence whose operators all have a fixity. -/
theorem operations_of_fixities : ∀ {rest : List (OpUse × Expr)},
    (∀ x ∈ rest, v.fixityOf x.1.name = some (φ x.1.name)) →
    operations v rest = pure (some (rest.map fun x => ⟨x.1, φ x.1.name, x.2⟩))
  | [], _ => by rw [operations]; rfl
  | (op, e) :: rest, h => by
    rw [List.forall_mem_cons] at h
    rw [operations, h.1, operations_of_fixities h.2]
    rfl

theorem value_operands (rest : List (OpUse × Expr)) :
    (operands v rest).value = rest.map fun x => (x.1, (expr v x.2).value) := by
  induction rest with
  | nil => rw [operands]; rfl
  | cons x rest ih =>
    obtain ⟨op, e⟩ := x
    rw [operands]
    simp only [Noted.value_bind, Noted.value_pure, ih, List.map_cons]

/-- A sequence whose operators all have a fixity becomes the calls of the one tree that holds its
operands, each grouped itself, and its operators in their order, and that is grouped by their
fixities. -/
theorem flat_eq_unique_tree (e : Expr) (rest : List (OpUse × Expr)) (l : Loc)
    (hφ : ∀ x ∈ rest, v.fixityOf x.1.name = some (φ x.1.name)) :
    ∃ t : OpTree, (expr v (.flat e rest l)).value = t.toExpr ∧
      (t.Reads (expr v e).value (rest.map fun x => ⟨x.1, φ x.1.name, (expr v x.2).value⟩) ∧
        t.Grouped) ∧
      ∀ u : OpTree,
        u.Reads (expr v e).value (rest.map fun x => ⟨x.1, φ x.1.name, (expr v x.2).value⟩) →
        u.Grouped → u = t := by
  have hops : (operations v (operands v rest).value).value =
      some (rest.map fun x => ⟨x.1, φ x.1.name, (expr v x.2).value⟩) := by
    rw [value_operands, operations_of_fixities (φ := φ)]
    · simp [Function.comp_def]
    · exact List.forall_mem_map.2 hφ
  obtain ⟨t, htree, hreads, hgrouped⟩ := exists_grouped (expr v e).value
    (rest.map fun x => ⟨x.1, φ x.1.name, (expr v x.2).value⟩)
  refine ⟨t, ?_, ⟨hreads, hgrouped⟩, ?_⟩
  · rw [value_flat, hops]
    exact htree
  · rintro u ⟨hfirst, hoperations⟩ hu
    exact hu.unique hgrouped (hfirst.trans hreads.1.symm) (hoperations.trans hreads.2.symm)

/-- A left associative `+` and a right associative `*`, both of the highest precedence. -/
def mixedFixity (name : String) : Fixity := if name = "*" then ⟨.right, 255⟩ else ⟨.left, 255⟩

/-- A module that defines the two operators. -/
def mixedVisible : Visible where
  own :=
    { module := "m"
      functions := ["+", "*"].map fun name =>
        ((.infixOp, name), [⟨⟨[.int, .int], .int⟩, .nowhere, 0, some (mixedFixity name), [], []⟩]) }
  externals := {}

/-- `(1 + 2) * (3 + 4)`. -/
def mixedTree : OpTree :=
  .node ⟨"*", .nowhere⟩ (mixedFixity "*")
    (.node ⟨"+", .nowhere⟩ (mixedFixity "+") (.operand (.int 1 .nowhere))
      (.operand (.int 2 .nowhere)))
    (.node ⟨"+", .nowhere⟩ (mixedFixity "+") (.operand (.int 3 .nowhere))
      (.operand (.int 4 .nowhere)))

/-- Where operators of one precedence group to different sides, `1 + 2 * 3 + 4` is
`(1 + 2) * (3 + 4)`. -/
theorem flat_eq_unique_tree_mixed :
    (∀ x ∈ mixedTree.operations.map fun o => (o.op, o.operand),
        mixedVisible.fixityOf x.1.name = some (mixedFixity x.1.name)) ∧
      mixedTree.Grouped ∧
      (expr mixedVisible
        (.flat (.int 1 .nowhere) (mixedTree.operations.map fun o => (o.op, o.operand))
        .nowhere)).value = mixedTree.toExpr := by
  have hφ : ∀ x ∈ mixedTree.operations.map fun o => (o.op, o.operand),
      mixedVisible.fixityOf x.1.name = some (mixedFixity x.1.name) := by decide
  have hgrouped : mixedTree.Grouped := by
    simp [mixedTree, OpTree.Grouped, OpTree.operations, mixedFixity, Fixity.next, Fixity.level]
  obtain ⟨t, ht, -, hunique⟩ := flat_eq_unique_tree (.int 1 .nowhere) _ .nowhere hφ
  refine ⟨hφ, hgrouped, ?_⟩
  rw [ht, hunique mixedTree ⟨rfl, ?_⟩ hgrouped]
  simp [mixedTree, OpTree.operations, OpTree.first, expr]

end Precedence

end SplFrontend
