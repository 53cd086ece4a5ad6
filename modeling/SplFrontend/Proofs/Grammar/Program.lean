import SplFrontend.Proofs.Grammar.Stmt

/-!
# The grammar of programs

The relations of import lines and items, and of whole programs. A program is read without a fault
exactly if its tokens are a sequence of declarations.
-/

namespace SplFrontend

open Reading TokenReading

/-! ## Import lines -/

/-- The tokens for names that an import line may list. -/
def Name.kindOf : Name → Kind
  | ⟨s, .ident⟩ => .ident s
  | ⟨s, .typeName⟩ => .typeName s
  | ⟨s, .op⟩ => .op s

theorem Name.gives_iff {stop : Loc} {ts r : List Token} {n : Name} :
    (Name.read stop ts).Gives n r ↔ ∃ l, ts = ⟨n.kindOf, l⟩ :: r := by
  constructor
  · intro h
    unfold Name.read at h
    split at h
    · obtain ⟨rfl, rfl⟩ := gives_take.1 h
      exact ⟨_, rfl⟩
    · obtain ⟨rfl, rfl⟩ := gives_take.1 h
      exact ⟨_, rfl⟩
    · obtain ⟨rfl, rfl⟩ := gives_take.1 h
      exact ⟨_, rfl⟩
    · exact absurd h not_gives_skip
  · rintro ⟨l, rfl⟩
    obtain ⟨s, k⟩ := n
    cases k <;> simp [Name.kindOf, Name.read]

/-- The phrases for names with their aliases. -/
inductive ImportName.Reads : List Token → ImportName → List Token → Prop
  | plain {n l r} : (∀ l' s, r ≠ ⟨.keyword .kwAs, l'⟩ :: s) →
      ImportName.Reads (⟨Name.kindOf n, l⟩ :: r) ⟨n, none, l⟩ r
  | renamed {n a l l₁ l₂ r} :
      ImportName.Reads (⟨Name.kindOf n, l⟩ :: ⟨.keyword .kwAs, l₁⟩ :: ⟨Name.kindOf a, l₂⟩ :: r)
        ⟨n, some a, l⟩ r

/-- The phrases for lists of names, up to the semicolon. -/
inductive ImportName.ReadsList : List Token → List ImportName → List Token → Prop
  | last {ts n l r} :
    ImportName.Reads ts n (⟨.mark .semicolon, l⟩ :: r) → ImportName.ReadsList ts [n] r
  | more {ts n l s ns r} : ImportName.Reads ts n (⟨.mark .comma, l⟩ :: s) →
      ImportName.ReadsList s ns r → ImportName.ReadsList ts (n :: ns) r

/-- The phrases for import lines, from after the word `from`. -/
inductive Import.Reads : Loc → List Token → Import → List Token → Prop
  | all {l l₁ l₂ l₃ m r} : Import.Reads l
      (⟨.ident m, l₁⟩ :: ⟨.keyword .kwImportAll, l₂⟩ :: ⟨.mark .semicolon, l₃⟩ :: r) ⟨m, .all, l⟩ r
  | names {l l₁ l₂ m ts ns r} : ImportName.ReadsList ts ns r →
      Import.Reads l (⟨.ident m, l₁⟩ :: ⟨.keyword .kwImport, l₂⟩ :: ts) ⟨m, .names ns, l⟩ r

theorem ImportName.gives_iff {stop : Loc} {ts r : List Token} {n : ImportName} :
    (ImportName.read stop ts).Gives n r ↔ ImportName.Reads ts n r := by
  constructor
  · intro h
    rw [ImportName.read, gives_extend] at h
    obtain ⟨a, s, ha, hs, h⟩ := h
    obtain ⟨name, hn, rfl⟩ := gives_map.1 ha
    obtain ⟨l, rfl⟩ := Name.gives_iff.1 hn
    rcases h with ⟨hf, rfl, rfl⟩ | ⟨y, hf, hy⟩
    · refine .plain fun l' s hs => ?_
      subst hs
      simp at hf
    · split at hf
      · cases hf
        simp only [gives_under, gives_map, Name.gives_iff] at hy
        obtain ⟨al, ⟨_, rfl⟩, rfl⟩ := hy
        exact .renamed
      · cases hf
  · intro h
    rw [ImportName.read]
    cases h with
    | @plain n l _ h =>
      have hn : (Name.read stop (⟨Name.kindOf n, l⟩ :: r)).Gives n r := Name.gives_iff.2 ⟨l, rfl⟩
      refine (gives_map.2 ⟨n, hn, rfl⟩).extend_none fun _ => ?_
      split
      · exact absurd rfl (h _ _)
      · rfl
    | @renamed n a l l₁ l₂ =>
      have hn :
          (Name.read stop (⟨Name.kindOf n, l⟩ :: ⟨.keyword .kwAs, l₁⟩ :: ⟨Name.kindOf a, l₂⟩ ::
          r)).Gives n _ := Name.gives_iff.2 ⟨l, rfl⟩
      refine (gives_map.2 ⟨n, hn, rfl⟩).extend_some fun _ => ⟨_, rfl, ?_⟩
      rw [gives_under, gives_map]
      exact ⟨a, Name.gives_iff.2 ⟨l₂, rfl⟩, rfl⟩

theorem ImportName.ReadsList.gives {stop : Loc} {ts r : List Token} {ns : List ImportName}
    (h : ImportName.ReadsList ts ns r) : (ImportName.readList stop ts).Gives ns r := by
  induction h with
  | last h =>
    rw [ImportName.readList]
    exact (ImportName.gives_iff.2 h).bind fun _ => by simp
  | more h _ ih =>
    rw [ImportName.readList]
    refine (ImportName.gives_iff.2 h).bind fun _ => ?_
    simp only [gives_under, gives_map]
    exact ⟨_, ih, rfl⟩

theorem ImportName.readsList_of_gives {stop : Loc} {ts r : List Token} {ns : List ImportName}
    (h : (ImportName.readList stop ts).Gives ns r) : ImportName.ReadsList ts ns r := by
  rw [ImportName.readList, gives_bind] at h
  obtain ⟨n, s, hn, hs, h⟩ := h
  split at h
  · simp only [gives_under, gives_map] at h
    obtain ⟨ns, hns, rfl⟩ := h
    exact .more (ImportName.gives_iff.1 hn) (ImportName.readsList_of_gives hns)
  · simp only [gives_map, gives_expect] at h
    obtain ⟨_, ⟨l, rfl⟩, rfl⟩ := h
    exact .last (ImportName.gives_iff.1 hn)
termination_by ts.length
decreasing_by
  subst_vars
  simp only [List.length_cons] at *
  omega

theorem Import.gives_iff {stop l : Loc} {ts r : List Token} {i : Import} :
    (Import.readRest stop l ts).Gives i r ↔ Import.Reads l ts i r := by
  constructor
  · intro h
    rw [Import.readRest, gives_bind] at h
    obtain ⟨m, s, hm, hs, h⟩ := h
    obtain ⟨l₁, rfl⟩ := gives_ident.1 hm
    split at h
    · simp only [gives_under, gives_map, gives_expect] at h
      obtain ⟨_, ⟨l₃, rfl⟩, rfl⟩ := h
      exact .all
    · simp only [gives_bind, gives_map, gives_expect] at h
      obtain ⟨_, s', ⟨l₂, rfl⟩, _, ns, hns, rfl⟩ := h
      exact .names (ImportName.readsList_of_gives hns)
  · intro h
    rw [Import.readRest]
    cases h with
    | all => exact (gives_ident.2 ⟨_, rfl⟩).bind fun _ => by simp
    | names h =>
      refine (gives_ident.2 ⟨_, rfl⟩).bind fun _ => ?_
      refine (gives_expect (u := ()).2 ⟨_, rfl⟩).bind fun _ => ?_
      exact gives_map.2 ⟨_, h.gives, rfl⟩

/-! ## Items -/

/-- The word that begins the definition of an infix operator. -/
def Head.word : Assoc → Keyword
  | .left => .kwInfixl
  | .right => .kwInfixr

/-- The phrases for one parameter or more. -/
inductive Param.ReadsList : List Token → List Param → List Token → Prop
  | last {n l l' r} : Param.ReadsList (⟨.ident n, l⟩ :: ⟨.mark .rparen, l'⟩ :: r) [⟨n, l⟩] r
  | more {n l l' ts ps r} : Param.ReadsList ts ps r →
      Param.ReadsList (⟨.ident n, l⟩ :: ⟨.mark .comma, l'⟩ :: ts) (⟨n, l⟩ :: ps) r

/-- The phrases for parameters, from after the opening parenthesis. -/
inductive Param.Reads : List Token → List Param → List Token → Prop
  | none {l r} : Param.Reads (⟨.mark .rparen, l⟩ :: r) [] r
  | some {ts ps r} : Param.ReadsList ts ps r → Param.Reads ts ps r

/-- The phrases for the kind and the name of a callable. -/
inductive Head.Reads : List Token → Head → String → List Token → Prop
  | function {n l r} : Head.Reads (⟨.ident n, l⟩ :: r) .function n r
  | prefixOp {n l l' r} : Head.Reads (⟨.keyword .kwPrefix, l⟩ :: ⟨.op n, l'⟩ :: r) .prefixOp n r
  | infixOp (side : Assoc) {n p l l₁ l₂ r} : p < 256 →
      Head.Reads (⟨.keyword (Head.word side), l⟩ :: ⟨.int p, l₁⟩ :: ⟨.op n, l₂⟩ :: r)
        (.infixOp ⟨side, p.toUInt8⟩) n r

/-- The phrases for the signature and the body of a callable. -/
inductive FnDef.ReadsBody : List Token → Option Signature → List Stmt → List Token → Prop
  | typed {l ts sig s body r} : Signature.Reads ts sig s → Stmt.ReadsBlock s body r →
      FnDef.ReadsBody (⟨.mark .doubleColon, l⟩ :: ts) (some sig) body r
  | untyped {ts body r} : Stmt.ReadsBlock ts body r → FnDef.ReadsBody ts none body r

/-- The phrases for declarations, as what they add in front of a program. -/
inductive Program.ReadsOne : List Token → (Program → Program) → List Token → Prop
  | imports {l ts i r} : Import.Reads l ts i r →
      Program.ReadsOne (⟨.keyword .kwFrom, l⟩ :: ts) (Program.addImport i) r
  | synonym {l n l₁ l₂ l₃ ts t r} : Ty.Reads ts t (⟨.mark .semicolon, l₃⟩ :: r) →
      Program.ReadsOne (⟨.keyword .kwType, l⟩ :: ⟨.typeName n, l₁⟩ :: ⟨.mark .assign, l₂⟩ :: ts)
        (Program.addItem (.synonym ⟨n, t, l⟩)) r
  | global {ts d r} : VarDecl.Reads ts d r → Program.ReadsOne ts (Program.addItem (.global d)) r
  | fn {t ts head n l s ps s' sig body r} : Head.Reads (t :: ts) head n (⟨.mark .lparen, l⟩ :: s) →
      Param.Reads s ps s' → FnDef.ReadsBody s' sig body r →
      Program.ReadsOne (t :: ts) (Program.addItem (.fn ⟨head, n, ps, sig, body, t.loc⟩)) r

/-- The lists of tokens that are whole programs. -/
inductive Program.Reads : List Token → Program → Prop
  | nil : Program.Reads [] ⟨[], []⟩
  | cons {ts add r p} : Program.ReadsOne ts add r → Program.Reads r p → Program.Reads ts (add p)

section

variable {stop : Loc}

theorem Param.ReadsList.gives {ts r : List Token} {ps : List Param} (h : Param.ReadsList ts ps r) :
    (Param.readList stop ts).Gives ps r := by
  induction h with
  | last =>
    rw [Param.readList]
    exact (gives_ident.2 ⟨_, rfl⟩).bind fun _ => by simp [here]
  | more _ ih =>
    rw [Param.readList]
    refine (gives_ident.2 ⟨_, rfl⟩).bind fun _ => ?_
    simp only [gives_under, gives_map]
    exact ⟨_, ih, rfl⟩

theorem Param.readsList_of_gives {ts r : List Token} {ps : List Param}
    (h : (Param.readList stop ts).Gives ps r) : Param.ReadsList ts ps r := by
  rw [Param.readList, gives_bind] at h
  obtain ⟨n, s, hn, hs, h⟩ := h
  obtain ⟨l, rfl⟩ := gives_ident.1 hn
  split at h
  · simp only [gives_under, gives_map] at h
    obtain ⟨ps, hps, rfl⟩ := h
    exact .more (Param.readsList_of_gives hps)
  · simp only [gives_map, gives_expect] at h
    obtain ⟨_, ⟨l', rfl⟩, rfl⟩ := h
    exact .last
termination_by ts.length
decreasing_by
  subst_vars
  simp only [List.length_cons] at *
  omega

theorem Param.gives_iff {ts r : List Token} {ps : List Param} :
    (Param.read stop ts).Gives ps r ↔ Param.Reads ts ps r := by
  constructor
  · intro h
    unfold Param.read at h
    split at h
    · obtain ⟨rfl, rfl⟩ := gives_take.1 h
      exact .none
    · exact .some (Param.readsList_of_gives h)
  · intro h
    cases h with
    | none => simp [Param.read]
    | some h =>
      unfold Param.read
      split
      · cases h
      · exact h.gives

theorem Head.readInfix_gives_iff {side : Assoc} {ts r : List Token} {hn : Head × String} :
    (Head.readInfix stop side ts).Gives hn r ↔ ∃ p n l₁ l₂, p < 256 ∧
      ts = ⟨.int p, l₁⟩ :: ⟨.op n, l₂⟩ :: r ∧ hn = (.infixOp ⟨side, p.toUInt8⟩, n) := by
  unfold Head.readInfix Fixity.readPrecedence
  simp only [gives_bind, gives_map, gives_operator]
  constructor
  · rintro ⟨p, s, hp, _, n, ⟨l₂, rfl⟩, rfl⟩
    split at hp
    · split at hp
      · next m l₁ _ _ hm =>
        obtain ⟨rfl, rfl⟩ := gives_take.1 hp
        exact ⟨m, n, l₁, l₂, hm, rfl, rfl⟩
      · exact absurd hp not_gives_fault
    · exact absurd hp not_gives_skip
  · rintro ⟨p, n, l₁, l₂, hp, rfl, rfl⟩
    refine ⟨p.toUInt8, ⟨.op n, l₂⟩ :: r, ?_, Nat.lt_succ_self _, n, ⟨l₂, rfl⟩, rfl⟩
    simp [hp]

theorem Head.gives_iff {ts r : List Token} {head : Head} {n : String} :
    (Head.read stop ts).Gives (head, n) r ↔ Head.Reads ts head n r := by
  constructor
  · intro h
    unfold Head.read at h
    split at h
    · simp only [gives_under, gives_map, gives_operator] at h
      obtain ⟨n, ⟨l, rfl⟩, hn⟩ := h
      cases hn
      exact .prefixOp
    · simp only [gives_under, Head.readInfix_gives_iff] at h
      obtain ⟨p, n, l₁, l₂, hp, rfl, hn⟩ := h
      cases hn
      exact .infixOp .left hp
    · simp only [gives_under, Head.readInfix_gives_iff] at h
      obtain ⟨p, n, l₁, l₂, hp, rfl, hn⟩ := h
      cases hn
      exact .infixOp .right hp
    · simp only [gives_map, gives_ident] at h
      obtain ⟨n, ⟨l, rfl⟩, hn⟩ := h
      cases hn
      exact .function
  · intro h
    cases h with
    | function => simp [Head.read]
    | prefixOp => simp [Head.read]
    | @infixOp side n p l l₁ l₂ r hp =>
      cases side <;>
        exact gives_under.2 (Head.readInfix_gives_iff.2 ⟨p, n, l₁, l₂, hp, rfl, rfl⟩)

theorem FnDef.readBody_gives_iff {ts r : List Token} {sig : Option Signature} {body : List Stmt} :
    (FnDef.readBody stop ts).Gives (sig, body) r ↔ FnDef.ReadsBody ts sig body r := by
  constructor
  · intro h
    unfold FnDef.readBody at h
    split at h
    · simp only [gives_under, gives_bind, gives_map, Signature.gives_iff, Stmt.block_gives_iff] at h
      obtain ⟨sig, s, hs, _, body, hb, he⟩ := h
      cases he
      exact .typed hs hb
    · simp only [gives_map, Stmt.block_gives_iff] at h
      obtain ⟨body, hb, he⟩ := h
      cases he
      exact .untyped hb
  · intro h
    cases h with
    | typed hs hb =>
      refine gives_under.2 (hs.gives.bind fun _ => ?_)
      exact gives_map.2 ⟨_, hb.gives, rfl⟩
    | untyped hb =>
      unfold FnDef.readBody
      split
      · cases hb
      · exact gives_map.2 ⟨_, hb.gives, rfl⟩

theorem FnDef.gives_iff {t : Token} {ts r : List Token} {f : FnDef} :
    (FnDef.read stop (t :: ts)).Gives f r ↔ ∃ head n l s ps s' sig body,
      Head.Reads (t :: ts) head n (⟨.mark .lparen, l⟩ :: s) ∧ Param.Reads s ps s' ∧
      FnDef.ReadsBody s' sig body r ∧ f = ⟨head, n, ps, sig, body, t.loc⟩ := by
  unfold FnDef.read
  constructor
  · simp only [gives_bind, gives_map, gives_expect, Param.gives_iff]
    rintro ⟨⟨head, n⟩, _, hh, _, _, s, ⟨l, rfl⟩, _, ps, s', hp, _, ⟨sig, body⟩, hb, rfl⟩
    exact ⟨head, n, l, s, ps, s', sig, body, Head.gives_iff.1 hh, hp, FnDef.readBody_gives_iff.1 hb,
      rfl⟩
  · rintro ⟨head, n, l, s, ps, s', sig, body, hh, hp, hb, rfl⟩
    refine (Head.gives_iff.2 hh).bind fun _ => (gives_expect (u := ()).2 ⟨_, rfl⟩).bind fun _ => ?_
    refine (Param.gives_iff.2 hp).bind fun _ => ?_
    exact gives_map.2 ⟨_, FnDef.readBody_gives_iff.2 hb, rfl⟩

theorem Synonym.gives_iff {loc : Loc} {ts r : List Token} {s : Synonym} :
    (Synonym.readRest stop loc ts).Gives s r ↔ ∃ n t l₁ l₂ l₃ ts',
      ts = ⟨.typeName n, l₁⟩ :: ⟨.mark .assign, l₂⟩ :: ts' ∧
      Ty.Reads ts' t (⟨.mark .semicolon, l₃⟩ :: r) ∧ s = ⟨n, t, loc⟩ := by
  unfold Synonym.readRest
  split
  · constructor
    · simp only [gives_under, gives_bind, gives_map, gives_expect, Ty.gives_iff]
      rintro ⟨_, s, ⟨l₂, rfl⟩, _, t, _, ht, _, _, ⟨l₃, rfl⟩, rfl⟩
      exact ⟨_, t, _, l₂, l₃, s, rfl, ht, rfl⟩
    · rintro ⟨n, t, l₁, l₂, l₃, s, hs, ht, rfl⟩
      cases hs
      refine gives_under.2 ((gives_expect (u := ()).2 ⟨_, rfl⟩).bind fun _ => ?_)
      exact ht.gives.bind fun _ => by simp
  · next hn =>
    simp only [not_gives_skip, false_iff]
    rintro ⟨n, t, l₁, l₂, l₃, s, rfl, -⟩
    exact hn _ _ _ rfl

/-! ## Declarations -/

theorem Program.readOne_global {ts r : List Token} {d : VarDecl} (h : VarDecl.Reads ts d r) :
    Program.readOne stop ts = (VarDecl.read stop ts).map fun d => addItem (.global d) := by
  cases h with
  | untyped h => rw [Program.readOne] <;> simp [VarDecl.startsWith]
  | typed h _ => cases h <;> rw [Program.readOne] <;> simp [VarDecl.startsWith]

theorem Program.readOne_fn {t : Token} {ts r : List Token} {head : Head} {n : String}
    (h : Head.Reads (t :: ts) head n r) :
    Program.readOne stop (t :: ts) = (FnDef.read stop (t :: ts)).map fun f => addItem (.fn f) := by
  cases h with
  | function => rw [Program.readOne] <;> simp [VarDecl.startsWith, FnDef.startsWith]
  | prefixOp => rw [Program.readOne] <;> simp [VarDecl.startsWith, FnDef.startsWith]
  | @infixOp side n p l l₁ l₂ r hp =>
    cases side <;> rw [Head.word, Program.readOne] <;> simp [VarDecl.startsWith, FnDef.startsWith]

theorem Program.readOne_gives_iff {ts r : List Token} {add : Program → Program} :
    (Program.readOne stop ts).Gives add r ↔ Program.ReadsOne ts add r := by
  constructor
  · intro h
    rw [Program.readOne.eq_def] at h
    split at h
    · exact absurd h not_gives_leave
    · simp only [gives_under, gives_map, Import.gives_iff] at h
      obtain ⟨i, hi, rfl⟩ := h
      exact .imports hi
    · simp only [gives_under, gives_map, Synonym.gives_iff] at h
      obtain ⟨_, ⟨n, t, l₁, l₂, l₃, s, rfl, ht, rfl⟩, rfl⟩ := h
      exact .synonym ht
    · split at h
      · simp only [gives_map, VarDecl.gives_iff] at h
        obtain ⟨d, hd, rfl⟩ := h
        exact .global hd
      · split at h
        · simp only [gives_map, FnDef.gives_iff] at h
          obtain ⟨_, ⟨head, n, l, s, ps, s', sig, body, hh, hp, hb, rfl⟩, rfl⟩ := h
          exact .fn hh hp hb
        · exact absurd h not_gives_leave
  · intro h
    cases h with
    | imports h =>
      simp only [Program.readOne, gives_under, gives_map, Import.gives_iff]
      exact ⟨_, h, rfl⟩
    | synonym h =>
      simp only [Program.readOne, gives_under, gives_map, Synonym.gives_iff]
      exact ⟨_, ⟨_, _, _, _, _, _, rfl, h, rfl⟩, rfl⟩
    | global h =>
      rw [Program.readOne_global h]
      exact gives_map.2 ⟨_, VarDecl.gives_iff.2 h, rfl⟩
    | fn hh hp hb =>
      rw [Program.readOne_fn hh]
      exact gives_map.2 ⟨_, FnDef.gives_iff.2 ⟨_, _, _, _, _, _, _, _, hh, hp, hb, rfl⟩, rfl⟩

/-- Reading meets no fault exactly if the tokens are a whole program. -/
theorem Program.readAll_eq_iff {ts : List Token} {p : Program} :
    Program.readAll stop ts = (p, []) ↔ Program.Reads ts p := by
  constructor
  · intro h
    fun_induction Program.readAll stop ts generalizing p with
    | case1 =>
      cases h
      exact .nil
    | case2 t ts add r hr heq =>
      rename_i ih
      obtain ⟨hp, hf⟩ := Prod.mk.inj h
      subst hp
      exact .cons (Program.readOne_gives_iff.1 ⟨hr, heq⟩) (ih (Prod.ext rfl hf))
    | case3 => cases (Prod.mk.inj h).2
  · intro h
    induction h with
    | nil => rw [Program.readAll]
    | @cons ts add r p h _ ih =>
      have hg : (Program.readOne stop ts).Gives add r := Program.readOne_gives_iff.2 h
      obtain ⟨hr, heq⟩ := hg
      cases ts with
      | nil => cases hr
      | cons t ts =>
        rw [Program.readAll, heq]
        simp only [ih]

end

theorem Program.ofTokens_eq_ok_iff {s : TokenStream} {p : Program} :
    Program.ofTokens s = .ok p ↔ Program.Reads s.tokens p := by
  have hall : Program.ofTokens s = .ok p ↔ Program.readAll s.stop s.tokens = (p, []) := by
    unfold Program.ofTokens
    obtain ⟨q, fs⟩ := Program.readAll s.stop s.tokens
    cases fs <;> simp
  exact hall.trans Program.readAll_eq_iff

/-- A text writes the program that its tokens are. -/
theorem Program.ofText_eq_ok_iff {text : String} {p : Program} :
    Program.ofText text = .ok p ↔ ∃ s, lex text = .ok s ∧ Program.Reads s.tokens p := by
  unfold Program.ofText
  cases lex text with
  | error ds =>
    constructor
    · intro h
      cases h
    · rintro ⟨s, hs, -⟩
      cases hs
  | ok s => exact Program.ofTokens_eq_ok_iff.trans (by simp)

end SplFrontend
