import SplFrontend.Proofs.Spelling

/-!
# Gaps and lexemes

What a text is made of, said without the lexer. Between tokens stand gaps: blanks, comments up to
the end of their line, and block comments up to the first mark that closes them; at the end of a
text a comment may be left open. A lexeme is what a token looks like in a text. For most tokens that
is the spelling; a number may have zeros in front, and the characters of a literal may be written
with or without escapes.

The lexer takes gaps and lexemes and nothing else (`Scan.front_scan`), and it takes no more than
there is.
-/

namespace SplFrontend

open Scan

/-! ## Gaps -/

/-- The characters in a block comment. -/
def InBlock (body : List Char) : Prop := ¬ ['*', '/'] <:+: body

instance (body : List Char) : Decidable (InBlock body) := inferInstanceAs (Decidable (¬ _))

/-- Blanks, comments that end with their line, and block comments that are closed. -/
inductive Gap : List Char → Prop
  | nil : Gap []
  | blank {c cs} : Text.isBlank c = true → Gap cs → Gap (c :: cs)
  | line {body cs} : '\n' ∉ body → Gap cs → Gap ('/' :: '/' :: (body ++ '\n' :: cs))
  | block {body cs} : InBlock body → Gap cs → Gap ('/' :: '*' :: (body ++ '*' :: '/' :: cs))

/-- A gap at the end of a text. The last comment may have no end. -/
inductive LastGap : List Char → Prop
  | closed {cs} : Gap cs → LastGap cs
  | line {cs body} : Gap cs → '\n' ∉ body → LastGap (cs ++ '/' :: '/' :: body)
  | block {cs body} : Gap cs → InBlock body → LastGap (cs ++ '/' :: '*' :: body)

theorem Gap.append {cs ds : List Char} (hc : Gap cs) (hd : Gap ds) : Gap (cs ++ ds) := by
  induction hc with
  | nil => exact hd
  | blank hb _ ih => exact .blank hb ih
  | line hbody _ ih =>
    rw [List.cons_append, List.cons_append, List.append_assoc, List.cons_append]
    exact .line hbody ih
  | block hbody _ ih =>
    rw [List.cons_append, List.cons_append, List.append_assoc, List.cons_append, List.cons_append]
    exact .block hbody ih

theorem LastGap.append {cs ds : List Char} (hc : Gap cs) (hd : LastGap ds) :
    LastGap (cs ++ ds) := by
  cases hd with
  | closed hd => exact .closed (hc.append hd)
  | line hd hbody =>
    rw [← List.append_assoc]
    exact .line (hc.append hd) hbody
  | block hd hbody =>
    rw [← List.append_assoc]
    exact .block (hc.append hd) hbody

theorem inBlock_cons {c : Char} {cs : List Char} :
    InBlock (c :: cs) ↔ ¬ (c = '*' ∧ ∃ ds, cs = '/' :: ds) ∧ InBlock cs := by
  have hfront : ['*', '/'] <+: c :: cs ↔ c = '*' ∧ ∃ ds, cs = '/' :: ds := by
    constructor
    · rintro ⟨ds, hds⟩
      cases hds
      exact ⟨rfl, ds, rfl⟩
    · rintro ⟨rfl, ds, rfl⟩
      exact ⟨ds, rfl⟩
  rw [InBlock, InBlock, List.infix_cons_iff, hfront, not_or]

namespace Scan

/-- The first closing mark ends a block comment. -/
theorem blockComment_close {body : List Char} (h : InBlock body) (rest : List Char) :
    blockComment (body ++ '*' :: '/' :: rest) = body.length + 2 := by
  induction body with
  | nil => rfl
  | cons c body ih =>
    obtain ⟨hc, hbody⟩ := inBlock_cons.1 h
    rw [List.cons_append, blockComment, ih hbody, List.length_cons]
    rintro ds rfl hds
    refine hc ⟨rfl, ?_⟩
    cases body with
    | nil => cases hds
    | cons d body =>
      cases hds
      exact ⟨body, rfl⟩

/-- A block comment is closed, or it takes the whole text. -/
theorem blockComment_cases (cs : List Char) :
    (∃ body rest, cs = body ++ '*' :: '/' :: rest ∧ InBlock body ∧
      blockComment cs = body.length + 2) ∨
      InBlock cs ∧ blockComment cs = cs.length := by
  fun_induction blockComment cs with
  | case1 rest => exact .inl ⟨[], rest, rfl, by simp [InBlock], rfl⟩
  | case2 c cs hc ih =>
    have hnot : ¬ (c = '*' ∧ ∃ ds, cs = '/' :: ds) := fun ⟨hstar, ds, hds⟩ => hc ds hstar hds
    obtain ⟨body, rest, rfl, hbody, hlen⟩ | ⟨hcs, hlen⟩ := ih
    · refine .inl ⟨c :: body, rest, rfl, inBlock_cons.2 ⟨fun ⟨hstar, ds, hds⟩ => ?_, hbody⟩, ?_⟩
      · exact hnot ⟨hstar, _, by rw [hds]; rfl⟩
      · rw [hlen, List.length_cons]
    · exact .inr ⟨inBlock_cons.2 ⟨hnot, hcs⟩, by rw [hlen, List.length_cons]⟩
  | case3 => exact .inr ⟨by simp [InBlock], rfl⟩

theorem lineComment_newline {body : List Char} (h : '\n' ∉ body) (rest : List Char) :
    lineComment (body ++ '\n' :: rest) = body.length := by
  have hbody : ∀ c ∈ body, decide (c ≠ '\n') = true := fun c hc => by
    rw [decide_eq_true_eq]
    rintro rfl
    exact h hc
  rw [lineComment, takeWhile_append_edge hbody]
  intro c hc
  cases hc
  rfl

/-- A comment that begins with two strokes ends before a line feed, or it takes the whole text. -/
theorem lineComment_cases (cs : List Char) : ∃ body, '\n' ∉ body ∧ lineComment cs = body.length ∧
    ((∃ rest, cs = body ++ '\n' :: rest) ∨ cs = body) := by
  refine ⟨cs.takeWhile (· ≠ '\n'), fun hmem => ?_, rfl, ?_⟩
  · have hne := List.mem_takeWhile_imp hmem
    simp at hne
  · cases hrest : cs.dropWhile (· ≠ '\n') with
    | nil =>
      right
      have happend := List.takeWhile_append_dropWhile (p := (· ≠ '\n')) (l := cs)
      rw [hrest, List.append_nil] at happend
      exact happend.symm
    | cons c rest =>
      left
      have hc : c = '\n' := by
        have hhead := List.head?_dropWhile_not (· ≠ '\n') cs
        rw [hrest] at hhead
        simpa using hhead
      subst hc
      exact ⟨rest, by rw [← hrest, List.takeWhile_append_dropWhile]⟩

end Scan

/-! ## Lexemes -/

theorem edge_nil : Edge [] := fun _ h => by cases h

/-- What may stand between two marks `quote` for a text: each character as itself or by an
escape. -/
inductive Quoted (quote : Char) : List Char → List Char → Prop
  | nil : Quoted quote [] []
  | plain {c text cs} :
    c ≠ '\n' → c ≠ '\\' → c ≠ quote → Quoted quote text cs → Quoted quote (c :: text) (c :: cs)
  | escape {c l text cs} : Text.unescape l = some c → Quoted quote text cs →
      Quoted quote (c :: text) ('\\' :: l :: cs)

namespace Kind

/-- The characters write the token. -/
def WrittenAs : Kind → List Char → Prop
  | int n, cs => cs ≠ [] ∧ (∀ c ∈ cs, c.isDigit = true) ∧ decimal cs = n
  | char c, cs => ∃ body, Quoted '\'' [c] body ∧ cs = '\'' :: (body ++ ['\''])
  | str s, cs => ∃ body, Quoted '"' s.toList body ∧ cs = '"' :: (body ++ ['"'])
  | k, cs => cs = k.spelling.toList

/-- The characters are a lexeme of the token, which is one that can be written. -/
structure Lexeme (k : Kind) (cs : List Char) : Prop where
  proper : k.Proper
  written : k.WrittenAs cs

theorem Proper.spelling_ne_nil {k : Kind} (h : k.Proper) : k.spelling.toList ≠ [] := by
  obtain ⟨c, cs, hs, -⟩ := h.scansBefore edge_nil
  rw [hs]
  exact List.cons_ne_nil _ _

theorem Lexeme.ne_nil {k : Kind} {cs : List Char} (h : k.Lexeme cs) : cs ≠ [] := by
  obtain ⟨hproper, hw⟩ := h
  cases k with
  | int n => exact hw.1
  | char c | str s =>
    obtain ⟨body, -, rfl⟩ := hw
    exact List.cons_ne_nil _ _
  | bool _ | ident _ | typeName _ | op _ | accessor _ | keyword _ | mark _ =>
    cases hw
    exact hproper.spelling_ne_nil

end Kind

/-! ## What the lexer takes -/

/-- What was scanned is in order with the characters that were taken: they are a lexeme of the
token, or the fault lies among them. -/
def Scanned.Fits : Scanned → List Char → Prop
  | .gap, _ => False
  | .token k, cs => k.Lexeme cs
  | .fault _ offset, cs => offset < cs.length

/-- A lexeme is scanned that begins with `c` and goes on with characters of `cs`, as many as there
are. -/
def Scanned.Takes (s : Scanned × Nat) (c : Char) (cs : List Char) : Prop :=
  s.2 ≤ cs.length ∧ s.1.Fits (c :: cs.take s.2)

namespace Scan

variable {c : Char} {cs : List Char}

/-- A reader that takes a word from the front of a text. -/
theorem takes_of_prefix {s : Scanned} {word : List Char} (hp : word <+: cs)
    (h : s.Fits (c :: word)) :
    Scanned.Takes (s, word.length) c cs :=
  ⟨hp.length_le, by rwa [← List.prefix_iff_eq_take.1 hp]⟩

theorem lexeme_wordKind (word : String) : (wordKind word).WrittenAs word.toList := by
  unfold wordKind
  split
  · next k hk =>
    have hs := Keyword.spelling_of_ofWord? hk
    rw [← hs]
    rfl
  · rfl

theorem lexeme_capitalKind (word : String) : (capitalKind word).WrittenAs word.toList := by
  unfold capitalKind
  split
  · next h => rw [h]; rfl
  · split
    · next h => rw [h]; rfl
    · rfl

theorem lexeme_operatorKind (name : String) : (operatorKind name).WrittenAs name.toList := by
  unfold operatorKind
  split
  · next h => rw [h]; rfl
  · split
    · next h => rw [h]; rfl
    · split
      · next h => rw [h]; rfl
      · rfl

theorem fits_accessor (word : List Char) : (accessor (String.ofList word)).Fits ('.' :: word) := by
  unfold accessor
  split
  · next a ha =>
    refine ⟨trivial, ?_⟩
    have hname : a.name = String.ofList word := by
      unfold Accessor.ofName? at ha
      split at ha
      case h_5 => cases ha
      all_goals
        next hw =>
        cases ha
        exact hw.symm
    have hs : (Kind.accessor a).spelling.toList = '.' :: a.name.toList := by cases a <;> rfl
    rw [Kind.WrittenAs, hs, hname, String.toList_ofList]
    all_goals exact fun _ h => Kind.noConfusion h
  · exact Nat.zero_lt_succ _

theorem fits_integer {digits : List Char} (h : ∀ d ∈ digits, d.isDigit = true) (hne : digits ≠ []) :
    (integer digits).Fits digits := by
  unfold integer
  split
  · next hle => exact ⟨hle, hne, h, rfl⟩
  · exact List.length_pos_iff.2 hne

theorem takes_charLiteral (cs : List Char) : Scanned.Takes (charLiteral cs) '\'' cs := by
  unfold charLiteral
  split
  case h_5 e cs =>
    split
    · exact ⟨by simp, by simp [Scanned.Fits]⟩
    · next hu => exact ⟨by simp, trivial, ['\\', e], .escape hu .nil, rfl⟩
    · exact ⟨by simp, by simp [Scanned.Fits]⟩
  case h_6 c _ hnl hq hbs => exact ⟨by simp, trivial, [c], .plain hnl hbs hq .nil, rfl⟩
  all_goals exact ⟨by simp, by simp [Scanned.Fits]⟩

/-- What a string literal holds lies in the text after its opening quote. -/
structure StringBody.Within (b : StringBody) (cs : List Char) : Prop where
  length : b.length ≤ cs.length
  unknown : ∀ x ∈ b.unknown, x.2 < b.length
  quoted : b.closed = true → b.unknown = none → ∃ body, Quoted '"' b.text body ∧
    cs.take b.length = body ++ ['"']

theorem StringBody.Within.after {b : StringBody} (h : b.Within cs) {w text : List Char}
    (hw : ∀ {ts body}, Quoted '"' ts body → Quoted '"' (text ++ ts) (w ++ body)) :
    (b.after w.length text).Within (w ++ cs) := by
  refine ⟨?_, ?_, ?_⟩
  · have hle := h.length
    simp only [StringBody.after, List.length_append]
    omega
  · intro x hx
    obtain ⟨y, hy, rfl⟩ := Option.map_eq_some_iff.1 hx
    exact Nat.add_lt_add_right (h.unknown y hy) _
  · intro hc hu
    obtain ⟨body, hbody, htake⟩ := h.quoted hc (Option.map_eq_none_iff.1 hu)
    refine ⟨w ++ body, hw hbody, ?_⟩
    simp only [StringBody.after]
    rw [Nat.add_comm, List.take_length_add_append, htake, List.append_assoc]

theorem StringBody.within_read (cs : List Char) : (StringBody.read cs).Within cs := by
  fun_induction StringBody.read cs with
  | case1 | case2 => exact ⟨Nat.zero_le _, fun _ h => (by cases h), fun h => (by cases h)⟩
  | case3 => exact ⟨by simp, fun _ h => (by cases h), fun _ _ => ⟨[], .nil, rfl⟩⟩
  | case4 => exact ⟨by simp, fun _ h => (by cases h), fun h => (by cases h)⟩
  | case5 e cs c hu ih => exact ih.after (w := ['\\', e]) (.escape hu)
  | case6 e cs hu rest ih =>
    -- Nothing is said of the text of a literal with an unknown escape but how long it is.
    refine ⟨?_, ?_, fun _ h => (by cases h)⟩
    · exact Nat.add_le_add_right ih.length 2
    · intro x hx
      cases hx
      exact Nat.lt_add_left _ (Nat.lt_succ_self 1)
  | case7 c cs hnl hq hone hmore ih =>
    have hbs : c ≠ '\\' := by
      rintro rfl
      cases cs with
      | nil => exact hone rfl rfl
      | cons e cs => exact hmore e cs rfl rfl
    exact ih.after (w := [c]) (.plain hnl hbs hq)

theorem takes_stringLiteral (cs : List Char) : Scanned.Takes (stringLiteral cs) '"' cs := by
  have hread := StringBody.within_read cs
  refine ⟨hread.length, ?_⟩
  unfold stringLiteral
  simp only
  split
  · next hclosed =>
    split
    · next e k hu =>
      have hlt := hread.unknown _ hu
      simp only [Scanned.Fits, List.length_cons, List.length_take]
      have hle := hread.length
      omega
    · next hu =>
      obtain ⟨body, hbody, htake⟩ := hread.quoted hclosed hu
      exact ⟨trivial, body, by rwa [String.toList_ofList], by rw [htake]⟩
  · exact Nat.zero_lt_succ _

/-- What begins with neither a blank nor a comment is a lexeme or a fault, and no more of the text
than there is. -/
theorem takes_lexeme (hc : NoComment c cs) : Scanned.Takes (lexeme c cs) c cs := by
  unfold lexeme
  split
  · next m hm =>
    refine ⟨Nat.zero_le _, trivial, ?_⟩
    unfold punctuation at hm
    split at hm <;> cases hm <;> rfl
  · split
    · next hdot =>
      rw [hdot]
      exact takes_of_prefix (List.takeWhile_prefix _) (fits_accessor _)
    split
    · next hq =>
      rw [hq]
      exact takes_charLiteral cs
    split
    · next hq =>
      rw [hq]
      exact takes_stringLiteral cs
    split
    · next hd =>
      refine takes_of_prefix (List.takeWhile_prefix _) (fits_integer ?_ (List.cons_ne_nil _ _))
      exact List.forall_mem_cons.2 ⟨hd, fun d => List.mem_takeWhile_imp⟩
    split
    · next hs =>
      refine takes_of_prefix (List.takeWhile_prefix _) ⟨?_, ?_⟩
      · exact proper_wordKind hs fun d => List.mem_takeWhile_imp
      · have hw := lexeme_wordKind (String.ofList (c :: cs.takeWhile isWordChar))
        rwa [String.toList_ofList] at hw
    split
    · next hu =>
      refine takes_of_prefix (List.takeWhile_prefix _) ⟨?_, ?_⟩
      · exact proper_capitalKind hu fun d => List.mem_takeWhile_imp
      · have hw := lexeme_capitalKind (String.ofList (c :: cs.takeWhile isWordChar))
        rwa [String.toList_ofList] at hw
    split
    · next ho =>
      obtain ⟨rest, hrest⟩ := operatorTail_append_rest cs
      refine takes_of_prefix ⟨rest, hrest.symm⟩ ⟨?_, ?_⟩
      · exact proper_operatorKind
          (operatorTail_cons_eq_iff.2 ⟨ho, hc.operatorTail, operatorTail_idem cs⟩)
      · have hw := lexeme_operatorKind (String.ofList (c :: operatorTail cs))
        rwa [String.toList_ofList] at hw
    · exact ⟨Nat.zero_le _, Nat.zero_lt_succ _⟩

/-- All that may stand at the front of a text, with what is found there and how much of the text it
takes. -/
inductive Front : Char → List Char → Scanned × Nat → Prop
  | blank {d ds} : Text.isBlank d = true → Front d ds (.gap, 0)
  | line {body rest} :
    '\n' ∉ body → Front '/' ('/' :: (body ++ '\n' :: rest)) (.gap, body.length + 1)
  | openLine {body} : '\n' ∉ body → Front '/' ('/' :: body) (.gap, body.length + 1)
  | block {body rest} :
    InBlock body → Front '/' ('*' :: (body ++ '*' :: '/' :: rest)) (.gap, body.length + 3)
  | openBlock {body} : InBlock body → Front '/' ('*' :: body) (.gap, body.length + 1)
  | lexeme {d ds s} : Scanned.Takes s d ds → Front d ds s

theorem front_scan (c : Char) (cs : List Char) : Front c cs (scan c cs) := by
  unfold scan
  split
  · next hb => exact .blank hb
  · split
    · next ds _ =>
      obtain ⟨body, hbody, hlen, ⟨rest, rfl⟩ | rfl⟩ := lineComment_cases ds
      · rw [hlen]
        exact .line hbody
      · rw [hlen]
        exact .openLine hbody
    · next ds _ =>
      obtain ⟨body, rest, rfl, hbody, hlen⟩ | ⟨hbody, hlen⟩ := blockComment_cases ds
      · rw [hlen]
        exact .block hbody
      · rw [hlen]
        exact .openBlock hbody
    · next h₁ h₂ => exact .lexeme (takes_lexeme fun hc ds => ⟨h₁ ds hc, h₂ ds hc⟩)

/-- Nothing is read past the end of a text. -/
theorem scan_le (c : Char) (cs : List Char) : (scan c cs).2 ≤ cs.length := by
  have hfront := front_scan c cs
  generalize scan c cs = s at hfront
  cases hfront with
  | blank _ => exact Nat.zero_le _
  | line _ | block _ =>
    simp only [List.length_cons, List.length_append]
    omega
  | openLine _ | openBlock _ => exact Nat.le_refl _
  | lexeme h => exact h.1

end Scan

end SplFrontend
