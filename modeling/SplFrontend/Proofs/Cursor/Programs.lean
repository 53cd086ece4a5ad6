import SplFrontend.Proofs.Cursor.Streams

/-!
# Programs by position

The statements and the declarations of a text are read by position as from the front, and so is the
whole program.
-/

namespace SplFrontend

namespace Cursor

open Reading TokenReading

variable {s : TokenStream} {α : Type} {ts us : List Token}

/-! ## Statements -/

theorem follows_guarded : Follows s guarded ts (Expr.readGuard s.stop ts) := by
  refine (follows_expect _).bind fun _ r₁ _ => (follows_expr r₁).bind fun e r₂ _ => ?_
  exact (follows_expect _).map _

theorem follows_declRest (loc : Loc) (ty : Option Ty) :
    Follows s (declRest loc ty) ts (VarDecl.readRest s.stop loc ty ts) := by
  refine follows_ident.bind fun name r₁ _ => (follows_expect _).bind fun _ r₂ _ => ?_
  exact (follows_expr r₂).bind fun init r₃ _ => (follows_expect _).map _

theorem follows_decl : Follows s decl ts (VarDecl.read s.stop ts) := by
  refine .after leaves_here ?_
  fun_cases VarDecl.read s.stop ts with
  | case1 loc us =>
    rw [VarDecl.read]
    exact .after (leaves_accept rfl) ((follows_declRest loc none).within _)
  | case2 ts hno =>
    rw [VarDecl.read.eq_2 s.stop ts hno]
    refine .after (leaves_accept_of_ne (kind_front_ne hno)) ?_
    exact (follows_ty ts).bind fun ty r _ => follows_declRest _ _

theorem follows_assign : Follows s assign ts (Stmt.readAssign s.stop ts) := by
  refine .after leaves_here ?_
  refine follows_var.bind fun v r₁ _ => (follows_expect _).bind fun _ r₂ _ => ?_
  exact (follows_expr r₂).bind fun e r₃ _ => (follows_expect _).map _

theorem follows_ret (loc : Loc) :
    Follows s ret (⟨.keyword .kwReturn, loc⟩ :: ts)
      ((Expr.readReturned s.stop ts).map fun value => .ret value loc) := by
  refine .after leaves_here (.after (leaves_expect rfl) (.after (leaves_check _) ?_))
  split
  · next hk =>
    obtain ⟨loc', us, rfl⟩ := eq_cons_of_front (of_decide_eq_true hk)
    rw [List.tail_cons, Expr.readReturned]
    exact .after (leaves_expect rfl) follows_ok
  · next hk =>
    rw [Expr.readReturned.eq_2 s.stop ts fun loc us h => hk (decide_eq_true (kind_front h)),
      Reading.map_bind]
    refine (follows_expr ts).bind fun e r _ => ?_
    rw [map_map]
    exact (follows_expect _).map _

theorem follows_each :
    Follows s
      (do
        expect (.mark .lparen)
        let v ← var
        expect (.keyword .kwIn)
        let e ← expr
        expect (.mark .rparen)
        return (v, e))
      ts (Stmt.readEach s.stop ts) := by
  refine (follows_expect _).bind fun _ r₁ _ => follows_var.bind fun v r₂ _ => ?_
  refine (follows_expect _).bind fun _ r₃ _ => (follows_expr r₃).bind fun e r₄ _ => ?_
  exact (follows_expect _).map _

theorem Follows.alternatives_cons {loc : Loc} {bs : List Branch}
    {y : TokenReading (List Branch × Option (List Stmt)) us}
    (h : Follows s (branch loc >>= fun b => alternatives (bs ++ [b])) ts y) :
    Follows s (alternatives bs) (⟨.keyword .kwElif, loc⟩ :: ts) y := by
  refine .unfold (unfolds_loop .branches bs).bind ?_
  simp only [Loop.turn, branchesTurn, bind_assoc]
  refine .after leaves_token ?_
  simp only [front_cons, if_true, bind_assoc, pure_bind, Loop.goOn]
  exact .after leaves_advance h

theorem leaves_branches_done {bs : List Branch}
    (hno : ∀ loc us, ts = ⟨.keyword .kwElif, loc⟩ :: us → False) :
    Leaves s (loop .branches bs) ts bs ts := by
  refine .unfold (unfolds_loop .branches bs) ?_
  simp only [Loop.turn, branchesTurn, bind_assoc]
  refine leaves_token.bind ?_
  rw [if_neg (kind_front_ne hno)]
  exact leaves_pure

mutual

theorem follows_stmt (ts : List Token) : Follows s stmt ts (Stmt.read s.stop ts) := by
  refine .after leaves_token ?_
  rw [unexpected_front]
  split
  case h_1 hk =>
    obtain ⟨loc, us, rfl⟩ := eq_cons_of_front hk
    rw [Stmt.read]
    refine Follows.within (.after leaves_here (.after (leaves_expect rfl) ?_)) _
    have h := (follows_branches [] loc us).map fun parts => Stmt.cond parts.1 parts.2 loc
    simp only [List.nil_append, map_id, bind_assoc] at h
    exact h
  case h_2 hk =>
    obtain ⟨loc, us, rfl⟩ := eq_cons_of_front hk
    rw [Stmt.read]
    refine Follows.within (.after (leaves_expect rfl) ?_) _
    exact follows_guarded.bind fun e r _ => (follows_block r).map _
  case h_3 hk =>
    obtain ⟨loc, us, rfl⟩ := eq_cons_of_front hk
    rw [Stmt.read]
    refine Follows.within (.after (leaves_expect rfl) ?_) _
    have h : Follows s _ us _ := follows_each.bind fun head r _ =>
      (follows_block r).map fun body => Stmt.each head.1 head.2 body loc
    simp only [bind_assoc, pure_bind] at h
    exact h
  case h_4 hk =>
    obtain ⟨loc, us, rfl⟩ := eq_cons_of_front hk
    rw [Stmt.read]
    exact (follows_ret loc).within _
  case h_5 hk | h_6 hk =>
    obtain ⟨loc, us, rfl⟩ := eq_cons_of_front hk
    rw [Stmt.read]
    exact Follows.within (.after leaves_advance ((follows_expect _).map _)) _
  case h_7 name hk =>
    obtain ⟨loc, us, rfl⟩ := eq_cons_of_front hk
    refine .after (leaves_secondIs _) ?_
    split
    · next hsecond =>
      obtain ⟨loc', vs, rfl⟩ := eq_cons_of_head? hsecond
      rw [Stmt.read]
      exact (follows_call name loc loc' vs).bind fun e r _ => (follows_expect _).map _
    · next hsecond =>
      rw [Stmt.read.eq_9 s.stop name loc us fun loc' vs h => hsecond (h ▸ by simp)]
      exact follows_assign
  case h_8 k h₁ h₂ h₃ h₄ h₅ h₆ h₇ hk =>
    obtain ⟨loc, us, rfl⟩ := eq_cons_of_front hk
    rw [Stmt.read.eq_10 _ _ _ (fun _ h => h₁ (by cases h; rfl)) (fun _ h => h₂ (by cases h; rfl))
      (fun _ h => h₃ (by cases h; rfl)) (fun _ h => h₄ (by cases h; rfl))
      (fun _ h => h₅ (by cases h; rfl)) (fun _ h => h₆ (by cases h; rfl))
      (fun name _ _ _ h _ => h₇ name (by cases h; rfl)) (fun name _ h => h₇ name (by cases h; rfl))]
    split
    · exact follows_decl.map _
    · exact follows_leave _
  case h_9 h₁ h₂ h₃ h₄ h₅ h₆ h₇ h₈ =>
    cases ts with
    | nil =>
      rw [Stmt.read]
      exact follows_leave _
    | cons t us => exact (h₈ t.kind rfl).elim
termination_by 3 * ts.length + 0
decreasing_by all_goals grind

theorem follows_branch (loc : Loc) (ts : List Token) :
    Follows s (branch loc) ts (Stmt.branch s.stop loc ts) := by
  rw [Stmt.branch]
  exact follows_guarded.bind fun e r _ => (follows_block r).map _
termination_by 3 * ts.length + 0
decreasing_by omega

/-- The branches of a conditional from one on, after the ones that are read. -/
theorem follows_branches (acc : List Branch) (loc : Loc) (ts : List Token) :
    Follows s (branch loc >>= fun b => alternatives (acc ++ [b])) ts
      ((((Stmt.branch s.stop loc ts).map fun b => ([b], none)).extend fun front r _ =>
        (Stmt.alternatives s.stop r).map fun x => x.map fun back => (front.1 ++ back.1, back.2)).map
          fun back => (acc ++ back.1, back.2)) := by
  refine (follows_branch loc ts).extend (fun b r hr z hz => ?_) (fun b r hr hz => ?_)
  · obtain ⟨y, hy, rfl⟩ := Option.map_eq_some_iff.1 hz
    rw [Stmt.alternatives.eq_def] at hy
    split at hy
    · next _ loc' us =>
      cases hy
      rw [map_map, map_under]
      refine Follows.within (.alternatives_cons ?_) _
      simpa only [List.append_assoc] using follows_branches (acc ++ [b]) loc' us
    · next _ us =>
      cases hy
      simp only [map_under, map_map, List.append_nil]
      refine Follows.within (.after (leaves_branches_done fun _ _ h => by cases h) ?_) _
      exact .after (leaves_accept rfl) ((follows_block us).map _)
    · cases hy
  · rw [Option.map_eq_none_iff, Stmt.alternatives.eq_def] at hz
    split at hz
    · cases hz
    · cases hz
    · next hno hno' =>
      refine (leaves_branches_done hno).bind ?_
      exact (leaves_accept_of_ne (kind_front_ne hno')).bind leaves_pure
termination_by 3 * ts.length + 1
decreasing_by all_goals grind

theorem follows_block (ts : List Token) : Follows s block ts (Stmt.block s.stop ts) := by
  rw [Stmt.block]
  refine (follows_expect _).bind fun _ r _ => ?_
  have h := follows_statements [] r
  simp only [List.nil_append, map_id] at h
  exact h
termination_by 3 * ts.length + 2
decreasing_by omega

/-- The statements of a block after the ones that are read, and the closing brace. -/
theorem follows_statements (acc : List Stmt) (ts : List Token) :
    Follows s
      (do
        let body ← loop .statements acc
        expect (.mark .rbrace)
        return body)
      ts ((Stmt.body s.stop ts).map (acc ++ ·)) := by
  refine .unfold (unfolds_loop .statements acc).bind ?_
  simp only [Loop.turn, statementsTurn, bind_assoc]
  refine .after (leaves_check _) (.after leaves_isAtEnd ?_)
  cases ts with
  | nil =>
    rw [Stmt.body]
    simp only [front_nil, decide_true, Bool.or_true, if_true, pure_bind, Loop.goOn]
    exact (follows_expect _).of_fault rfl rfl
  | cons t us =>
    rw [Stmt.body]
    by_cases hk : t.kind = .mark .rbrace
    · rw [if_pos hk]
      simp only [front_cons, hk, decide_true, Bool.true_or, if_true, pure_bind, Loop.goOn]
      refine .after (leaves_expect (congrArg RawKind.kind hk)) ?_
      rw [take, Reading.map, List.append_nil]
      exact follows_ok
    · rw [if_neg hk]
      simp only [front_cons, RawKind.kind.injEq, hk, decide_false, reduceCtorEq, Bool.or_self,
        Bool.false_eq_true, if_false, bind_assoc, pure_bind, Loop.goOn, Reading.map_bind,
        map_map]
      refine (follows_stmt (t :: us)).bind fun st r hr => ?_
      simpa only [List.append_assoc, List.singleton_append] using follows_statements (acc ++ [st]) r
termination_by 3 * ts.length + 1
decreasing_by all_goals grind

end

/-! ## Import lines -/

theorem follows_name : Follows s name ts (Name.read s.stop ts) := by
  refine .after leaves_advance ?_
  rw [unexpected_front]
  split
  case h_1 hk | h_2 hk | h_3 hk =>
    obtain ⟨loc, us, rfl⟩ := eq_cons_of_front hk
    exact follows_ok
  case h_4 h₁ h₂ h₃ =>
    rw [Name.read.eq_4 s.stop ts (fun l loc us h => h₁ l (kind_front h))
      (fun l loc us h => h₂ l (kind_front h)) (fun l loc us h => h₃ l (kind_front h))]
    exact follows_skip _

theorem follows_importName :
    Follows s importName ts (ImportName.read s.stop ts) := by
  rw [ImportName.read, ← map_id (Reading.extend ..)]
  refine .after leaves_here ?_
  refine follows_name.extend (fun n r hr z hz => ?_) (fun n r hr hz => ?_)
  · split at hz
    · next us _ =>
      cases hz
      rw [map_id]
      exact Follows.within (.after (leaves_accept rfl) (follows_name.map _)) _
    · cases hz
  · refine (leaves_accept_of_ne (kind_front_ne fun loc us h => ?_)).bind leaves_pure
    subst h
    cases hz

/-- The names of an import line from one on, after the ones that are read, and the semicolon. -/
theorem follows_importNames (acc : List ImportName) (ts : List Token) :
    Follows s
      (do
        let ns ← loop .importNames (acc ++ [← importName])
        expect (.mark .semicolon)
        return ns)
      ts ((ImportName.readList s.stop ts).map (acc ++ ·)) := by
  rw [ImportName.readList, Reading.map_bind]
  refine follows_importName.bind fun n r h => ?_
  refine .unfold (unfolds_loop .importNames _).bind ?_
  simp only [Loop.turn, importNamesTurn, bind_assoc]
  split
  · next us _ =>
    simp only [map_under, map_map]
    refine Follows.within (.after (leaves_accept rfl) ?_) _
    simp only [if_true, bind_assoc, pure_bind, Loop.goOn]
    have h := follows_importNames (acc ++ [n]) us
    simp only [List.append_assoc, List.singleton_append] at h ⊢
    exact h
  · next hno =>
    refine .after (leaves_accept_of_split hno) ?_
    simp only [Bool.false_eq_true, if_false, pure_bind, Loop.goOn, map_map]
    exact (follows_expect _).map _
termination_by ts.length
decreasing_by all_goals grind

theorem follows_importLine (loc : Loc) :
    Follows s importLine (⟨.keyword .kwFrom, loc⟩ :: ts)
      (Import.readRest s.stop loc ts) := by
  refine .after leaves_here (.after (leaves_expect rfl) ?_)
  refine follows_ident.bind fun module r h => ?_
  split
  · exact Follows.within (.after (leaves_accept rfl) ((follows_expect _).map _)) _
  · next hno =>
    refine .after (leaves_accept_of_split hno) ?_
    refine (follows_expect _).bind fun _ r' _ => ?_
    have h : Follows s _ _ _ :=
      (follows_importNames [] r').map fun ns => Import.mk module (.names ns) loc
    simp only [List.nil_append, map_id, bind_assoc, pure_bind] at h
    exact h

/-! ## Items -/

theorem follows_synonym (loc : Loc) :
    Follows s synonym (⟨.keyword .kwType, loc⟩ :: ts)
      (Synonym.readRest s.stop loc ts) := by
  refine .after leaves_here (.after (leaves_expect rfl) (.after leaves_advance ?_))
  rw [List.tail_cons]
  split
  · next name hk =>
    obtain ⟨loc', us, rfl⟩ := eq_cons_of_front hk
    rw [Synonym.readRest]
    refine Follows.within ((follows_expect _).bind fun _ r₁ _ => ?_) _
    exact (follows_ty r₁).bind fun ty r₂ _ => (follows_expect _).map _
  · next hno =>
    rw [Synonym.readRest.eq_2 s.stop loc ts fun name loc us h => hno name (kind_front h)]
    have hloc : (front s.stop ts).loc = TokenReading.here s.stop ts := by cases ts <;> rfl
    rw [hloc]
    exact follows_skip _

theorem follows_precedence :
    Follows s precedence ts (Fixity.readPrecedence s.stop ts) := by
  refine .after leaves_advance ?_
  rw [unexpected_front]
  split
  · next n hk =>
    obtain ⟨loc, us, rfl⟩ := eq_cons_of_front hk
    rw [Fixity.readPrecedence]
    split
    · exact follows_ok
    · exact fun _ hus => ⟨.throw, hus⟩
  · next hk => exact (not_negative_front hk).elim
  · next hint _ =>
    rw [Fixity.readPrecedence.eq_2 s.stop ts fun n loc us h => hint n (kind_front h)]
    exact follows_skip _

theorem follows_infixHead (side : Assoc) :
    Follows s (infixHead side) ts (Head.readInfix s.stop side ts) :=
  follows_precedence.bind fun _ _ _ => follows_operator.map _

theorem follows_head : Follows s head ts (Head.read s.stop ts) := by
  refine .after leaves_token ?_
  split
  case h_1 hk =>
    obtain ⟨loc, us, rfl⟩ := eq_cons_of_front hk
    rw [Head.read]
    exact Follows.within (.after leaves_advance (follows_operator.map _)) _
  case h_2 hk | h_3 hk =>
    obtain ⟨loc, us, rfl⟩ := eq_cons_of_front hk
    rw [Head.read]
    exact Follows.within (.after leaves_advance (follows_infixHead _)) _
  case h_4 h₁ h₂ h₃ =>
    rw [Head.read.eq_4 s.stop ts (fun loc us h => h₁ (kind_front h))
      (fun loc us h => h₂ (kind_front h)) (fun loc us h => h₃ (kind_front h))]
    exact follows_ident.map _

/-- The parameters of a callable after the ones that are read, and the closing parenthesis. -/
theorem follows_moreParams (acc : List Param) (ts : List Token) :
    Follows s
      (do
        let ps ← loop .parameters acc
        expect (.mark .rparen)
        return ps)
      ts ((Param.readList s.stop ts).map (acc ++ ·)) := by
  rw [Param.readList, Reading.map_bind]
  refine .unfold (unfolds_loop .parameters acc).bind ?_
  simp only [Loop.turn, paramsTurn, bind_assoc]
  refine .after leaves_here (follows_ident.bind fun name r h => ?_)
  split
  · next us _ =>
    simp only [map_under, map_map]
    refine Follows.within (.after (leaves_accept rfl) ?_) _
    simp only [if_true, pure_bind, Loop.goOn]
    have h := follows_moreParams (acc ++ [⟨name, TokenReading.here s.stop ts⟩]) us
    simp only [List.append_assoc, List.singleton_append] at h
    exact h
  · next hno =>
    refine .after (leaves_accept_of_split hno) ?_
    simp only [Bool.false_eq_true, if_false, pure_bind, Loop.goOn, map_map]
    exact (follows_expect _).map _
termination_by ts.length
decreasing_by all_goals grind

theorem follows_params :
    Follows s
      (do
        let ps ← params
        expect (.mark .rparen)
        return ps)
      ts (Param.read s.stop ts) := by
  rw [params]
  simp only [bind_assoc]
  refine .after (leaves_check _) ?_
  by_cases hk : (front s.stop ts).kind = .kind (.mark .rparen)
  · rw [if_pos (decide_eq_true hk), pure_bind]
    obtain ⟨loc, us, rfl⟩ := eq_cons_of_front hk
    exact .after (leaves_expect rfl) follows_ok
  · rw [if_neg (mt of_decide_eq_true hk),
      Param.read.eq_2 s.stop ts fun loc us h => hk (kind_front h)]
    have h : Follows s _ _ _ := follows_moreParams [] ts
    simp only [List.nil_append, map_id] at h
    exact h

theorem follows_fnBody : Follows s fnBody ts (FnDef.readBody s.stop ts) := by
  fun_cases FnDef.readBody s.stop ts with
  | case1 loc us =>
    rw [FnDef.readBody]
    refine Follows.within (.after (leaves_accept rfl) ?_) _
    exact follows_signature.bind fun sig r _ => (follows_block r).map _
  | case2 ts hno =>
    rw [FnDef.readBody.eq_2 s.stop ts hno]
    exact .after (leaves_accept_of_ne (kind_front_ne hno)) ((follows_block ts).map _)

theorem follows_fn : Follows s fn ts (FnDef.read s.stop ts) := by
  refine .after leaves_here (follows_head.bind fun head r₁ _ => ?_)
  refine (follows_expect _).bind fun _ r₂ _ => ?_
  have h : Follows s _ r₂ _ := follows_params.bind fun params r₃ _ =>
    follows_fnBody.map fun body =>
      FnDef.mk head.1 head.2 params body.1 body.2 (TokenReading.here s.stop ts)
  simp only [bind_assoc, pure_bind] at h
  exact h

/-! ## Declarations -/

/-- Reads one declaration from the front. -/
def readDeclaration (stop : Loc) : (ts : List Token) → TokenReading (Import ⊕ Item) ts
  | [] => leave stop (.unexpected .declaration none)
  | ⟨.keyword .kwFrom, loc⟩ :: ts => ((Import.readRest stop loc ts).map .inl).under
  | ⟨.keyword .kwType, loc⟩ :: ts =>
    ((Synonym.readRest stop loc ts).map fun d => .inr (.synonym d)).under
  | t :: ts =>
    if VarDecl.startsWith t.kind then (VarDecl.read stop (t :: ts)).map fun d => .inr (.global d)
    else if FnDef.startsWith t.kind then (FnDef.read stop (t :: ts)).map fun f => .inr (.fn f)
    else leave stop (.unexpected .declaration (some t.kind))

/-- What a declaration adds in front of the rest of the program. -/
def addition : Import ⊕ Item → Program → Program := Sum.elim Program.addImport Program.addItem

theorem readOne_eq (stop : Loc) (ts : List Token) :
    Program.readOne stop ts = (readDeclaration stop ts).map addition := by
  rw [Program.readOne.eq_def]
  split
  · rfl
  · rw [readDeclaration, map_under, map_map]
    rfl
  · rw [readDeclaration, map_under, map_map]
    rfl
  · next hfrom htype =>
    rw [readDeclaration.eq_4 _ _ _ hfrom htype]
    split
    · rw [map_map]
      rfl
    · split
      · rw [map_map]
        rfl
      · rfl

theorem follows_declaration :
    Follows s declaration ts (readDeclaration s.stop ts) := by
  refine .after leaves_token ?_
  rw [unexpected_front]
  split
  · next hk =>
    obtain ⟨loc, us, rfl⟩ := eq_cons_of_front hk
    rw [readDeclaration]
    exact ((follows_importLine loc).map _).within _
  · next hk =>
    obtain ⟨loc, us, rfl⟩ := eq_cons_of_front hk
    rw [readDeclaration]
    exact ((follows_synonym loc).map _).within _
  · next k hfrom htype hk =>
    obtain ⟨loc, us, rfl⟩ := eq_cons_of_front hk
    rw [readDeclaration.eq_4 _ _ _ (fun _ h => hfrom (by cases h; rfl))
      (fun _ h => htype (by cases h; rfl))]
    split
    · exact follows_decl.map _
    · split
      · exact follows_fn.map _
      · exact follows_leave _
  · next hfrom htype hkind =>
    cases ts with
    | nil => exact follows_leave _
    | cons t us => exact (hkind t.kind rfl).elim

theorem resume_suffix (depth : Nat) (ts : List Token) : Program.resume depth ts <:+ ts := by
  fun_induction Program.resume depth ts with
  | case1 depth => exact List.suffix_refl []
  | case2 depth t us hopen ih => exact ih.trans (List.suffix_cons t us)
  | case3 depth t us hopen hclose hdepth => exact List.suffix_cons t us
  | case4 depth t us hopen hclose hdepth ih => exact ih.trans (List.suffix_cons t us)
  | case5 depth t us hopen hclose hsemicolon => exact List.suffix_cons t us
  | case6 depth t us hopen hclose hsemicolon hanchor => exact List.suffix_refl _
  | case7 depth t us hopen hclose hsemicolon hanchor ih => exact ih.trans (List.suffix_cons t us)

/-- The way to where the next declaration probably begins. -/
theorem leaves_recover (depth : Nat) (ts : List Token) :
    Leaves s (loop .recovery depth) ts 0 (Program.resume depth ts) := by
  fun_induction Program.resume depth ts
  all_goals
    refine .unfold (unfolds_loop .recovery _) ?_
    rw [Loop.turn, recoverTurn, bind_assoc]
    refine leaves_token.bind ?_
    simp only [front_cons, front_nil]
  case case1 depth => exact leaves_pure
  case case2 depth t us hopen ih =>
    simp only [if_pos hopen, bind_assoc, pure_bind, Loop.goOn]
    exact leaves_advance.bind ih
  case case3 depth t us hopen hclose hdepth =>
    simp only [if_neg hopen, if_pos hclose, if_pos hdepth, bind_assoc, pure_bind, Loop.goOn]
    exact leaves_advance.bind leaves_pure
  case case4 depth t us hopen hclose hdepth ih =>
    simp only [if_neg hopen, if_pos hclose, if_neg hdepth, bind_assoc, pure_bind, Loop.goOn]
    exact leaves_advance.bind ih
  case case5 depth t us hopen hclose hsemicolon =>
    simp only [if_neg hopen, if_neg hclose, if_pos hsemicolon, bind_assoc, pure_bind,
      Loop.goOn]
    exact leaves_advance.bind leaves_pure
  case case6 depth t us hopen hclose hsemicolon hanchor =>
    rw [if_neg hopen, if_neg hclose, if_neg hsemicolon, if_pos hanchor]
    exact leaves_pure
  case case7 depth t us hopen hclose hsemicolon hanchor ih =>
    simp only [if_neg hopen, if_neg hclose, if_neg hsemicolon, if_neg hanchor, bind_assoc,
      pure_bind, Loop.goOn]
    exact leaves_advance.bind ih

/-- The loop over declarations goes on from where a declaration ends or the next one probably
begins, unless that is where it is. -/
theorem leaves_declarationsTurn {t : Token} {r : Except Diagnostic (Import ⊕ Item)} (d : Draft)
    (h : Leaves s declarationOrFault (t :: ts) r us) (hle : us.length ≤ (t :: ts).length) :
    Leaves s (declarationsTurn d) (t :: ts) (.again (d.add r))
      (if us.length < (t :: ts).length then us else ts) := by
  refine leaves_isAtEnd.bind fun negative hts => ?_
  obtain ⟨hgives, hus⟩ := h negative hts
  have hpos := position_add hts
  have hpos' := position_add hus
  simp only [front_cons, reduceCtorEq, decide_false, Bool.false_eq_true, if_false]
  split
  · next hlt =>
    refine ⟨.bind position_gives (.bind hgives (.bind position_gives ?_)), hus⟩
    rw [if_neg (by omega)]
    exact .pure
  · next hnot =>
    have heq : s.position us = s.position (t :: ts) := by omega
    have htake : Leaves s advance (t :: ts) _ _ := leaves_advance
    obtain ⟨hadvance, htail⟩ := htake negative hts
    refine ⟨.bind position_gives (.bind hgives (.bind position_gives ?_)), htail⟩
    rw [heq, if_pos rfl]
    exact .bind hadvance .pure

/-- What is known of a program together with what the rest of it is. -/
def Draft.join (d : Draft) (rest : Program × List Diagnostic) : Draft :=
  ⟨⟨d.program.imports ++ rest.1.imports, d.program.items ++ rest.1.items⟩, d.faults ++ rest.2⟩

theorem Draft.join_add_ok (d : Draft) (x : Import ⊕ Item) (rest : Program × List Diagnostic) :
    (d.add (.ok x)).join rest = d.join (addition x rest.1, rest.2) := by
  cases x <;> simp [add, join, addition, Program.addImport, Program.addItem]

theorem Draft.join_add_error (d : Draft) (e : Diagnostic) (rest : Program × List Diagnostic) :
    (d.add (.error e)).join rest = d.join (rest.1, e :: rest.2) := by
  simp [add, join]

theorem leaves_declarations : (d : Draft) → (ts : List Token) →
    Leaves s (loop .declarations d) ts
      (d.join (Program.readAll s.stop ts)) []
  | d, [] => by
    refine .unfold (unfolds_loop .declarations d) ?_
    rw [Loop.turn, declarationsTurn, bind_assoc, Program.readAll, Draft.join, List.append_nil,
      List.append_nil, List.append_nil]
    exact leaves_isAtEnd.bind leaves_pure
  | d, t :: us => by
    have h : Follows s declaration (t :: us) _ := follows_declaration
    refine .unfold (unfolds_loop .declarations d) ?_
    rw [Program.readAll, readOne_eq]
    cases hy : readDeclaration s.stop (t :: us) with
    | ok x r hr =>
      rw [hy] at h
      have hor : Leaves s declarationOrFault (t :: us) (.ok x) r :=
        Leaves.bind (fun n hts => ⟨(h n hts).1.attempt, (h n hts).2⟩) leaves_pure
      refine (leaves_declarationsTurn d hor (Nat.le_of_lt hr)).bind ?_
      have hrest : Leaves s _ _ _ _ := leaves_declarations (d.add (.ok x)) r
      rw [Draft.join_add_ok] at hrest
      rw [if_pos hr]
      exact hrest
    | fault e r hr =>
      rw [hy] at h
      have hor : Leaves s declarationOrFault (t :: us) (.error e) (Program.resume 0 r) :=
        Leaves.bind (fun n hts => ⟨(h n hts).1.attempt, (h n hts).2⟩)
          ((leaves_recover 0 r).bind leaves_pure)
      have hle := Nat.le_trans (resume_suffix 0 r).length_le hr
      refine (leaves_declarationsTurn d hor hle).bind ?_
      have hrest : Leaves s _ _ _ _ := leaves_declarations (d.add (.error e))
        (if (Program.resume 0 r).length < (t :: us).length then Program.resume 0 r else us)
      rw [Draft.join_add_error] at hrest
      exact hrest
termination_by _ ts => ts.length
decreasing_by
  · exact hr
  · split
    · assumption
    · exact Nat.lt_succ_self _

/-- On the tokens of a text, reading by position is reading from the front. -/
theorem gives_program (s : TokenStream) (negative : Nat → Loc → Expr) :
    program.Gives (s.input negative) 0 (.ok (Program.ofTokens s)) s.tokens.length := by
  have h : Leaves s _ _ _ _ := leaves_declarations ⟨⟨[], []⟩, []⟩ s.tokens
  have hgives := (h negative (List.suffix_refl _)).1
  rw [show s.position s.tokens = 0 from Nat.sub_self _] at hgives
  exact .bind hgives .pure

/-! ## Progress -/

/-- Does the loop go on? -/
def Turn.goesOn {σ : Type} : Turn σ → Bool
  | again _ => true
  | done _ => false

/-- Does the loop read before it looks whether it has come to its end? -/
def Loop.readsFirst : Loop → Bool
  | parameters | arguments => true
  | _ => false

variable {i : Input} {p : Nat}

theorem Turns.moves {σ : Type} {F : Prop} {Q : σ → Nat → Prop} {x : Cursor (Turn σ)}
    (h : Turns i F x p Q) : Runs i True x p fun t q => t.goesOn ∨ false → p < q := by
  obtain ⟨r, q, hx, hpq, hq, -, hok⟩ := h
  refine ⟨r, q, hx, hpq, hq, fun _ _ => trivial, fun t ht hgoes => ?_⟩
  cases t with
  | again s => exact hok _ ht
  | done s => simp [Turn.goesOn] at hgoes

theorem Advances.moves {σ : Type} {x : Cursor (Turn σ)} (h : Advances i x p) :
    Runs i True x p fun t q => t.goesOn ∨ true → p < q :=
  Runs.mono h fun _ _ _ hlt _ => hlt

/-- A turn comes to an end inside of the tokens. It has moved if the loop goes on or reads first. -/
theorem Loop.runs_turn (hi : i.Closed) (l : Loop) (s : l.State) (hp : p < i.tokens.length) :
    Runs i True (l.turn s) p fun t q => t.goesOn ∨ l.readsFirst → p < q := by
  cases l with
  | declarations => exact (turns_declarations hi s hp).moves
  | recovery => exact (turns_recover hi s hp).moves
  | importNames => exact (turns_importNames hi s hp).moves
  | parameters => exact ((progressive_paramsTurn hi s).here hp).moves
  | types => exact (turns_types hi s hp).moves
  | statements => exact ((stmtRuns hi hp).statementsTurn s).moves
  | branches => exact ((stmtRuns hi hp).branchesTurn s).moves
  | arguments => exact ((exprRuns hi hp).argumentsTurn s).moves
  | operators => exact ((exprRuns hi hp).operatorsTurn s).moves
  | accessors => exact (turns_accessors hi s hp).moves

/-- A program is read from any list of tokens that ends in an end of input, whatever stands before
it, and reading ends at an end of input. That is the one outcome at any depth, so that there is no
read outside of the list. A turn of the loop over declarations moves on unless it is at an end of
input, also after a fault. A turn of any loop comes to an end inside of the list and has moved if
the loop goes on. On the tokens of a text the outcome is the one of reading from the front. -/
theorem program_progresses (negative : Nat → Loc → Expr) (tokens : List RawToken) (stop : Loc) :
    let i : Input := ⟨tokens ++ [⟨.eof, stop⟩], negative⟩
    (∃ r q, program.Gives i 0 (.ok r) q ∧ (i.tokens[q]?).map RawToken.kind = some .eof ∧
      ∀ n o, program.run (readers n) i 0 = some o → o = .ok (.ok r, q)) ∧
    (∀ d p, p < i.tokens.length → (i.tokens[p]?).map RawToken.kind ≠ some .eof →
      ∃ d' q, (declarationsTurn d).Gives i p (.ok (.again d')) q ∧ p < q ∧ q < i.tokens.length) ∧
    (∀ (l : Loop) (gathered : l.State) p, p < i.tokens.length →
      ∃ r q, (l.turn gathered).Gives i p r q ∧ p ≤ q ∧ q < i.tokens.length ∧
        ∀ t, r = .ok t → t.goesOn ∨ l.readsFirst → p < q) ∧
    ∀ s : TokenStream, tokens = s.tokens.map Token.raw → stop = s.stop →
      program.Gives i 0 (.ok (Program.ofTokens s)) s.tokens.length := by
  intro i
  have hi : i.Closed := ⟨stop, List.getLast?_concat⟩
  have hpos : 0 < i.tokens.length := by simp [i]
  refine ⟨?_, fun d p hp hkind => ?_, fun l gathered p hp => ?_, ?_⟩
  · obtain ⟨r, q, hprogram, -, -, hfail, hok⟩ := runs_program hi hpos
    rcases r with d | r
    · exact (hfail d rfl).elim
    · exact ⟨r, q, hprogram, hok r rfl, fun _ _ ho => hprogram.unique ho⟩
  · obtain ⟨r, q, hturn, -, hq, hfail, hok⟩ := turns_declarations hi d hp
    rcases r with e | t | d'
    · exact (hfail e rfl).elim
    · exact ⟨t, q, hturn, hok _ rfl, hq⟩
    · exact (hkind (hok _ rfl).2).elim
  · obtain ⟨r, q, hturn, hpq, hq, -, hok⟩ := l.runs_turn hi gathered hp
    exact ⟨r, q, hturn, hpq, hq, hok⟩
  · rintro s rfl rfl
    exact gives_program s negative

/-- The word `type`, an end of input, and a negative literal. -/
def innerEnd : List RawToken :=
  [⟨.kind (.keyword .kwType), ⟨1, 1⟩⟩, ⟨.eof, ⟨1, 5⟩⟩, ⟨.negative 0, ⟨1, 6⟩⟩]

/-- The synonym is refused at the end of input that stands inside of the list and takes it, and the
loop over declarations moves on from there. -/
theorem program_progresses_inner_end :
    let i : Input := ⟨innerEnd ++ [⟨.eof, ⟨1, 7⟩⟩], fun n loc => .int n loc⟩
    declaration.Gives i 0 (.error (Fault.lowerCaseSynonym.report ⟨1, 5⟩)) 2 ∧
      (∃ d q, (declarationsTurn ⟨⟨[], []⟩, []⟩).Gives i 0 (.ok (.again d)) q ∧ 0 < q ∧
        q < i.tokens.length) ∧
      (∃ r q, (Loop.statements.turn []).Gives i 1 r q ∧ 1 ≤ q) ∧
      program.Gives ⟨[⟨.eof, ⟨1, 1⟩⟩], fun n loc => .int n loc⟩ 0
        (.ok (Program.ofTokens ⟨[], ⟨1, 1⟩⟩)) 0 := by
  obtain ⟨-, hdeclarations, hloops, -⟩ :=
    program_progresses (fun n loc => .int n loc) innerEnd ⟨1, 7⟩
  obtain ⟨-, -, -, hprogram⟩ := program_progresses (fun n loc => .int n loc) [] ⟨1, 1⟩
  obtain ⟨r, q, hturn, hle, -⟩ := hloops .statements [] 1 (by decide)
  exact ⟨⟨0, rfl⟩, hdeclarations _ 0 (by decide) (by decide), ⟨r, q, hturn, hle⟩,
    hprogram ⟨[], ⟨1, 1⟩⟩ rfl rfl⟩

end Cursor

end SplFrontend
