import Mathlib.Data.List.TakeWhile
import SplFrontend.Proofs.Grammar.Program

/-!
# Spelled tokens

Every kind of token has a spelling, and a spelling is read back as the token if what follows cannot
extend it. `Edge` is the one condition on what follows that serves all kinds. Conversely the lexer
only gives tokens that have such a spelling (`Kind.Proper`), so whatever was read can be written
again.
-/

namespace SplFrontend

open Scan

/-! ## Character classes -/

/-- Nothing that could extend a word or an operator comes next. -/
def Edge (cs : List Char) : Prop :=
  ∀ c ∈ cs.head?, isWordChar c = false ∧ isOperatorChar c = false

namespace Scan

variable {c : Char} {cs : List Char}

theorem not_isBlank_of_visible (h : 32 < c.toNat) (h' : c.toNat < 127) :
    Text.isBlank c = false := by
  rw [Bool.eq_false_iff]
  intro hb
  have hall : ∀ n ∈ Text.blankCodes, ¬ (32 < n ∧ n < 127) := by decide
  exact hall c.toNat (by simpa [Text.isBlank] using hb) ⟨h, h'⟩

theorem mem_operatorChars (h : isOperatorChar c = true) : c ∈ "+-*/%<>=!&|:^~@$?".toList := by
  simpa [isOperatorChar] using h

theorem not_isBlank_of_isOperatorChar (h : isOperatorChar c = true) : Text.isBlank c = false := by
  have hall : ("+-*/%<>=!&|:^~@$?".toList.all fun c => 32 < c.toNat ∧ c.toNat < 127) = true := by
    decide
  have hc := of_decide_eq_true (List.all_eq_true.1 hall c (mem_operatorChars h))
  exact not_isBlank_of_visible hc.1 hc.2

theorem isDigit_iff : c.isDigit = true ↔ 48 ≤ c.toNat ∧ c.toNat ≤ 57 := by
  simp only [Char.isDigit, Bool.and_eq_true, decide_eq_true_eq]
  exact Iff.rfl

theorem isUpper_iff : c.isUpper = true ↔ 65 ≤ c.toNat ∧ c.toNat ≤ 90 := decide_eq_true_iff

theorem isLower_iff : c.isLower = true ↔ 97 ≤ c.toNat ∧ c.toNat ≤ 122 := by
  have hc : c.isLower = (decide (97 ≤ c.toNat) && decide (c.toNat ≤ 122)) := rfl
  rw [hc, Bool.and_eq_true, decide_eq_true_iff, decide_eq_true_iff]

theorem eq_underscore_iff : c = '_' ↔ c.toNat = 95 := Char.toNat_inj.symm

/-- The characters of words by their codes. -/
theorem isWordChar_iff : isWordChar c = true ↔ (48 ≤ c.toNat ∧ c.toNat ≤ 57) ∨
    (65 ≤ c.toNat ∧ c.toNat ≤ 90) ∨ c.toNat = 95 ∨ (97 ≤ c.toNat ∧ c.toNat ≤ 122) := by
  have hc : isWordChar c = (((c.isUpper || c.isLower) || c.isDigit) || decide (c = '_')) := rfl
  simp only [hc, Bool.or_eq_true, decide_eq_true_eq, isUpper_iff, isLower_iff, isDigit_iff,
    eq_underscore_iff]
  omega

theorem not_isBlank_of_isWordChar (h : isWordChar c = true) : Text.isBlank c = false := by
  have hc := isWordChar_iff.1 h
  exact not_isBlank_of_visible (by omega) (by omega)

theorem not_isOperatorChar_of_isWordChar (h : isWordChar c = true) : isOperatorChar c = false := by
  rw [Bool.eq_false_iff]
  intro ho
  have hall : ("+-*/%<>=!&|:^~@$?".toList.any isWordChar) = false := by decide
  exact List.any_eq_false.1 hall c (mem_operatorChars ho) h

theorem punctuation_eq_none (h : isWordChar c = true ∨ isOperatorChar c = true) :
    punctuation c = none := by
  unfold punctuation
  split <;> first | rfl | exact absurd h (by decide)

/-! ## What a text begins with, by its first character -/

/-- The character begins no comment with what follows it. -/
def NoComment (c : Char) (cs : List Char) : Prop := c = '/' → ∀ ds, cs ≠ '/' :: ds ∧ cs ≠ '*' :: ds

theorem scan_eq_lexeme (hb : Text.isBlank c = false) (hc : NoComment c cs) :
    scan c cs = lexeme c cs := by
  unfold scan
  rw [hb]
  split
  · contradiction
  · split
    · exact absurd rfl (hc rfl _).1
    · exact absurd rfl (hc rfl _).2
    · rfl

/-- A character of a word or an operator is neither a mark, nor a dot, nor a quote. -/
theorem lexeme_eq (h : isWordChar c = true ∨ isOperatorChar c = true) : lexeme c cs =
    if c.isDigit then (integer (c :: cs.takeWhile Char.isDigit), (cs.takeWhile Char.isDigit).length)
    else if c.isLower || c = '_' then
      (.token (wordKind (String.ofList (c :: cs.takeWhile isWordChar))),
        (cs.takeWhile isWordChar).length)
    else if c.isUpper then
      (.token (capitalKind (String.ofList (c :: cs.takeWhile isWordChar))),
        (cs.takeWhile isWordChar).length)
    else if isOperatorChar c then
      (.token (operatorKind (String.ofList (c :: operatorTail cs))), (operatorTail cs).length)
    else (.fault (.unexpectedChar c) 0, 0) := by
  have hdot : c ≠ '.' := by rintro rfl; exact absurd h (by decide)
  have hsingle : c ≠ '\'' := by rintro rfl; exact absurd h (by decide)
  have hdouble : c ≠ '"' := by rintro rfl; exact absurd h (by decide)
  simp only [lexeme, punctuation_eq_none h, hdot, hsingle, hdouble, if_false]

theorem scan_digit (h : c.isDigit = true) :
    scan c cs = (integer (c :: cs.takeWhile Char.isDigit), (cs.takeWhile Char.isDigit).length) := by
  have hw : isWordChar c = true := isWordChar_iff.2 (.inl (isDigit_iff.1 h))
  have hslash : c ≠ '/' := by rintro rfl; exact absurd h (by decide)
  rw [scan_eq_lexeme (not_isBlank_of_isWordChar hw) fun hc => absurd hc hslash, lexeme_eq (.inl hw),
    if_pos h]

theorem scan_small (h : (c.isLower || c = '_') = true) :
    scan c cs = (.token (wordKind (String.ofList (c :: cs.takeWhile isWordChar))),
      (cs.takeWhile isWordChar).length) := by
  have hc := h
  simp only [Bool.or_eq_true, decide_eq_true_eq, isLower_iff, eq_underscore_iff] at hc
  have hw : isWordChar c = true := isWordChar_iff.2 (by omega)
  have hd : ¬ c.isDigit = true := by rw [isDigit_iff]; omega
  have hslash : c ≠ '/' := by rintro rfl; exact absurd h (by decide)
  rw [scan_eq_lexeme (not_isBlank_of_isWordChar hw) fun hc => absurd hc hslash, lexeme_eq (.inl hw),
    if_neg hd, if_pos h]

theorem scan_upper (h : c.isUpper = true) :
    scan c cs = (.token (capitalKind (String.ofList (c :: cs.takeWhile isWordChar))),
      (cs.takeWhile isWordChar).length) := by
  have hc := isUpper_iff.1 h
  have hw : isWordChar c = true := isWordChar_iff.2 (by omega)
  have hd : ¬ c.isDigit = true := by rw [isDigit_iff]; omega
  have hs : ¬ (c.isLower || c = '_') = true := by
    simp only [Bool.or_eq_true, decide_eq_true_eq, isLower_iff, eq_underscore_iff]
    omega
  have hslash : c ≠ '/' := by rintro rfl; exact absurd h (by decide)
  rw [scan_eq_lexeme (not_isBlank_of_isWordChar hw) fun hc => absurd hc hslash, lexeme_eq (.inl hw),
    if_neg hd, if_neg hs, if_pos h]

theorem scan_operator (h : isOperatorChar c = true) (hc : NoComment c cs) :
    scan c cs =
      (.token (operatorKind (String.ofList (c :: operatorTail cs))), (operatorTail cs).length) := by
  have hw : ¬ isWordChar c = true := fun hw => by
    rw [not_isOperatorChar_of_isWordChar hw] at h
    cases h
  rw [isWordChar_iff] at hw
  have hd : ¬ c.isDigit = true := by rw [isDigit_iff]; omega
  have hs : ¬ (c.isLower || c = '_') = true := by
    simp only [Bool.or_eq_true, decide_eq_true_eq, isLower_iff, eq_underscore_iff]
    omega
  have hu : ¬ c.isUpper = true := by rw [isUpper_iff]; omega
  rw [scan_eq_lexeme (not_isBlank_of_isOperatorChar h) hc, lexeme_eq (.inr h), if_neg hd, if_neg hs,
    if_neg hu, if_pos h]

theorem operatorTail_cons (hc : NoComment c cs) :
    operatorTail (c :: cs) = if isOperatorChar c then c :: operatorTail cs else [] := by
  rw [operatorTail]
  · rintro ds rfl hds
    exact (hc rfl ds).1 hds
  · rintro ds rfl hds
    exact (hc rfl ds).2 hds

/-- The runs of characters that are read as one operator. -/
theorem operatorTail_cons_eq_iff : operatorTail (c :: cs) = c :: cs ↔
    isOperatorChar c = true ∧ NoComment c cs ∧ operatorTail cs = cs := by
  constructor
  · intro h
    have hc : NoComment c cs := by
      rintro rfl ds
      constructor
      · rintro rfl
        rw [operatorTail] at h
        cases h
      · rintro rfl
        rw [operatorTail] at h
        cases h
    rw [operatorTail_cons hc] at h
    split at h
    · exact ⟨‹_›, hc, (List.cons.inj h).2⟩
    · cases h
  · rintro ⟨ho, hc, h⟩
    rw [operatorTail_cons hc, if_pos ho, h]

theorem scan_mark {m : Mark} (h : punctuation c = some m) : scan c cs = (.token (.mark m), 0) := by
  unfold punctuation at h
  split at h <;> cases h <;> rfl

theorem scan_dot : scan '.' cs =
    (accessor (String.ofList (cs.takeWhile Char.isAlpha)), (cs.takeWhile Char.isAlpha).length) :=
  rfl

theorem scan_quote : scan '\'' cs = charLiteral cs := rfl

theorem scan_doubleQuote : scan '"' cs = stringLiteral cs := rfl

end Scan

/-! ## Spellings -/

namespace Kind

/-- The spelling of a token. -/
def spelling : Kind → String
  | int n => toString n
  | char c => Text.literal '\'' [c]
  | str s => Text.literal '"' s.toList
  | bool b => if b then "True" else "False"
  | ident s | typeName s | op s => s
  | accessor a => "." ++ a.name
  | keyword k => k.spelling
  | mark m => m.spelling

/-- The tokens whose spelling is read back: numbers within range, and names of the form that the
lexer takes for a name of their class. -/
def Proper : Kind → Prop
  | int n => n ≤ maxInt
  | ident s => ∃ c cs, s.toList = c :: cs ∧ (c.isLower || c = '_') = true ∧
      (∀ d ∈ cs, isWordChar d = true) ∧ wordKind s = .ident s
  | typeName s => ∃ c cs, s.toList = c :: cs ∧ c.isUpper = true ∧
      (∀ d ∈ cs, isWordChar d = true) ∧ capitalKind s = .typeName s
  | op s => s.toList ≠ [] ∧ operatorTail s.toList = s.toList ∧ operatorKind s = .op s
  | _ => True

end Kind

section

variable {cs rest : List Char}

theorem takeWhile_append_edge {p : Char → Bool} (h : ∀ c ∈ cs, p c = true)
    (hr : ∀ c ∈ rest.head?, p c = false) : (cs ++ rest).takeWhile p = cs := by
  rw [List.takeWhile_append_of_pos h]
  cases rest with
  | nil => simp
  | cons c rest =>
    have hc : p c = false := hr c rfl
    simp [hc]

theorem Edge.takeWhile_word (hr : Edge rest) (h : ∀ c ∈ cs, isWordChar c = true) :
    (cs ++ rest).takeWhile isWordChar = cs :=
  takeWhile_append_edge h fun c hc => (hr c hc).1

theorem Edge.takeWhile_digit (hr : Edge rest) (h : ∀ c ∈ cs, c.isDigit = true) :
    (cs ++ rest).takeWhile Char.isDigit = cs := by
  refine takeWhile_append_edge h fun c hc => ?_
  rw [Bool.eq_false_iff]
  intro hd
  have hw := (hr c hc).1
  rw [isWordChar_iff.2 (.inl (isDigit_iff.1 hd))] at hw
  cases hw

theorem Edge.takeWhile_alpha (hr : Edge rest) (h : ∀ c ∈ cs, c.isAlpha = true) :
    (cs ++ rest).takeWhile Char.isAlpha = cs := by
  refine takeWhile_append_edge h fun c hc => ?_
  rw [Bool.eq_false_iff]
  intro ha
  have hw := (hr c hc).1
  rw [isWordChar, Char.isAlphanum, ha] at hw
  cases hw

theorem Edge.noComment (hr : Edge rest) {c : Char} (h : NoComment c cs) :
    NoComment c (cs ++ rest) := by
  rintro rfl ds
  cases cs with
  | nil =>
    constructor
    · rintro rfl
      exact absurd (hr _ rfl).2 (by decide)
    · rintro rfl
      exact absurd (hr _ rfl).2 (by decide)
  | cons d cs =>
    constructor
    · intro hd
      cases hd
      exact (h rfl cs).1 rfl
    · intro hd
      cases hd
      exact (h rfl cs).2 rfl

/-- An operator that is read whole is read whole in front of anything that cannot extend it. -/
theorem Edge.operatorTail_append (hr : Edge rest) (h : operatorTail cs = cs) :
    operatorTail (cs ++ rest) = cs := by
  induction cs with
  | nil =>
    cases rest with
    | nil => rfl
    | cons c rest =>
      have hc := (hr c rfl).2
      have hslash : NoComment c rest := by
        rintro rfl
        exact absurd hc (by decide)
      rw [List.nil_append, operatorTail_cons hslash, hc]
      rfl
  | cons c cs ih =>
    obtain ⟨ho, hc, h⟩ := operatorTail_cons_eq_iff.1 h
    rw [List.cons_append, operatorTail_cons (hr.noComment hc), if_pos ho, ih h]

end

/-! ## Quoted literals -/

namespace Text

/-- A character is written between quotes as itself, unless it has an escape or is the quote. -/
theorem escaped_cases (quote c : Char) :
    (∃ l, escaped quote c = ['\\', l] ∧ (unescape l = some c ∨ l = quote ∧ c = quote)) ∨
      (escaped quote c = [c] ∧ c ≠ '\n' ∧ c ≠ '\\' ∧ c ≠ quote) := by
  unfold escaped
  cases h : escapeLetter c with
  | some l => exact .inl ⟨l, rfl, .inl (unescape_escapeLetter h)⟩
  | none =>
    by_cases hq : c = quote
    · exact .inl ⟨c, by simp [hq], .inr ⟨hq, hq⟩⟩
    · refine .inr ⟨by simp [hq], ?_, ?_, hq⟩
      · rintro rfl
        cases h
      · rintro rfl
        cases h

end Text

namespace Scan

theorem charLiteral_escaped (c : Char) (rest : List Char) :
    charLiteral (Text.escaped '\'' c ++ '\'' :: rest) =
      (.token (.char c), (Text.escaped '\'' c).length + 1) := by
  rcases Text.escaped_cases '\'' c with ⟨l, hl, hu⟩ | ⟨hc, hnl, hbs, hq⟩
  · have hu : Text.unescape l = some c := by
      rcases hu with hu | ⟨rfl, rfl⟩
      · exact hu
      · rfl
    rw [hl]
    simp [charLiteral, hu]
  · rw [hc]
    simp [charLiteral]

theorem StringBody.read_escape {c l : Char} (hu : Text.unescape l = some c) (cs : List Char) :
    read ('\\' :: l :: cs) = (read cs).after 2 [c] := by
  rw [read, hu]

theorem StringBody.read_plain {c : Char} (hnl : c ≠ '\n') (hbs : c ≠ '\\') (hq : c ≠ '"')
    (cs : List Char) : read (c :: cs) = (read cs).after 1 [c] := by
  rw [read]
  · exact hnl
  · exact hq
  · intro h
    exact absurd h hbs
  · intro e ds h
    exact absurd h hbs

theorem StringBody.read_escaped (cs rest : List Char) :
    read (cs.flatMap (Text.escaped '"') ++ '"' :: rest) =
      ⟨cs, none, true, (cs.flatMap (Text.escaped '"')).length + 1⟩ := by
  induction cs with
  | nil => rfl
  | cons c cs ih =>
    rw [List.flatMap_cons, List.append_assoc, List.length_append]
    rcases Text.escaped_cases '"' c with ⟨l, hl, hu⟩ | ⟨hc, hnl, hbs, hq⟩
    · have hu : Text.unescape l = some c := by
        rcases hu with hu | ⟨rfl, rfl⟩
        · exact hu
        · rfl
      rw [hl, List.cons_append, List.cons_append, List.nil_append, read_escape hu, ih]
      simp only [after, List.cons_append, List.nil_append, Option.map_none, List.length_cons,
        List.length_nil, StringBody.mk.injEq, true_and]
      omega
    · rw [hc, List.cons_append, List.nil_append, read_plain hnl hbs hq, ih]
      simp only [after, List.cons_append, List.nil_append, Option.map_none, List.length_cons,
        List.length_nil, StringBody.mk.injEq, true_and]
      omega

theorem stringLiteral_escaped (cs rest : List Char) :
    stringLiteral (cs.flatMap (Text.escaped '"') ++ '"' :: rest) =
      (.token (.str (String.ofList cs)), (cs.flatMap (Text.escaped '"')).length + 1) := by
  rw [stringLiteral, StringBody.read_escaped]
  rfl

end Scan

/-! ## A spelled token is read back -/

namespace Kind

variable {rest : List Char}

/-- The spelling is read as the token in front of `rest`, which is left. -/
def ScansBefore (k : Kind) (rest : List Char) : Prop :=
  ∃ c cs, k.spelling.toList = c :: cs ∧ scan c (cs ++ rest) = (.token k, cs.length)

theorem scansBefore_int {n : Nat} (h : n ≤ maxInt) (hr : Edge rest) : (int n).ScansBefore rest := by
  have hdigits : ∀ c ∈ Nat.toDigits 10 n, c.isDigit = true := fun c =>
    Nat.isDigit_of_mem_toDigits (by decide) (by decide)
  have hs : (int n).spelling.toList = Nat.toDigits 10 n := Nat.toList_repr
  have hvalue : decimal (Nat.toDigits 10 n) = n := Nat.ofDigitChars_ten_toDigits
  cases hd : Nat.toDigits 10 n with
  | nil => exact absurd hd Nat.toDigits_ne_nil
  | cons c cs =>
    rw [hd] at hdigits hvalue
    refine ⟨c, cs, hs.trans hd, ?_⟩
    rw [scan_digit (hdigits c List.mem_cons_self),
      hr.takeWhile_digit fun d hd => hdigits d (List.mem_cons_of_mem _ hd), integer,
        hvalue, if_pos h]

theorem scansBefore_small {k : Kind} {c : Char} {cs : List Char} (hs : k.spelling.toList = c :: cs)
    (hc : (c.isLower || c = '_') = true) (hcs : ∀ d ∈ cs, isWordChar d = true)
    (hk : wordKind k.spelling = k) (hr : Edge rest) : k.ScansBefore rest := by
  refine ⟨c, cs, hs, ?_⟩
  rw [scan_small hc, hr.takeWhile_word hcs, ← hs, String.ofList_toList, hk]

theorem scansBefore_capital {k : Kind} {c : Char} {cs : List Char}
    (hs : k.spelling.toList = c :: cs) (hc : c.isUpper = true) (hcs : ∀ d ∈ cs, isWordChar d = true)
    (hk : capitalKind k.spelling = k) (hr : Edge rest) : k.ScansBefore rest := by
  refine ⟨c, cs, hs, ?_⟩
  rw [scan_upper hc, hr.takeWhile_word hcs, ← hs, String.ofList_toList, hk]

theorem scansBefore_operator {k : Kind} (hne : k.spelling.toList ≠ [])
    (ht : operatorTail k.spelling.toList = k.spelling.toList) (hk : operatorKind k.spelling = k)
    (hr : Edge rest) : k.ScansBefore rest := by
  cases hs : k.spelling.toList with
  | nil => exact absurd hs hne
  | cons c cs =>
    rw [hs] at ht
    obtain ⟨ho, hc, ht⟩ := operatorTail_cons_eq_iff.1 ht
    refine ⟨c, cs, hs, ?_⟩
    rw [scan_operator ho (hr.noComment hc), hr.operatorTail_append ht, ← hs,
      String.ofList_toList, hk]

/-- A mark that is always a token of its own is read in front of anything. -/
theorem scansBefore_punctuation {m : Mark} {c : Char} (h : punctuation c = some m) :
    (mark m).ScansBefore rest := by
  refine ⟨c, [], ?_, scan_mark h⟩
  unfold punctuation at h
  split at h <;> cases h <;> rfl

theorem scansBefore_keyword (k : Keyword) (hr : Edge rest) : (keyword k).ScansBefore rest := by
  have hall :
      ∀ k ∈ Keyword.all, ∃ c cs, k.spelling.toList = c :: cs ∧ (c.isLower || c = '_') = true ∧
      (∀ d ∈ cs, isWordChar d = true) ∧ wordKind k.spelling = .keyword k := by
    intro k _
    cases k <;> exact ⟨_, _, rfl, by decide, List.all_eq_true.1 (by decide), by decide⟩
  obtain ⟨c, cs, hs, hc, hcs, hk⟩ := hall k k.mem_all
  exact scansBefore_small hs hc hcs hk hr

theorem scansBefore_accessor (a : Accessor) (hr : Edge rest) : (accessor a).ScansBefore rest := by
  have hs : (accessor a).spelling.toList = '.' :: a.name.toList := by cases a <;> rfl
  refine ⟨'.', a.name.toList, hs, ?_⟩
  have ha : ∀ c ∈ a.name.toList, c.isAlpha = true := List.all_eq_true.1 (by cases a <;> decide)
  rw [scan_dot, hr.takeWhile_alpha ha, String.ofList_toList, Scan.accessor, Accessor.ofName?_name]

theorem scansBefore_mark (m : Mark) (hr : Edge rest) : (mark m).ScansBefore rest := by
  cases m with
  | assign => exact scansBefore_operator (by decide) (by decide) (by decide) hr
  | doubleColon => exact scansBefore_operator (by decide) (by decide) (by decide) hr
  | arrow => exact scansBefore_operator (by decide) (by decide) (by decide) hr
  | comma => exact scansBefore_punctuation (c := ',') rfl
  | semicolon => exact scansBefore_punctuation (c := ';') rfl
  | lparen => exact scansBefore_punctuation (c := '(') rfl
  | rparen => exact scansBefore_punctuation (c := ')') rfl
  | lbrace => exact scansBefore_punctuation (c := '{') rfl
  | rbrace => exact scansBefore_punctuation (c := '}') rfl
  | lbracket => exact scansBefore_punctuation (c := '[') rfl
  | rbracket => exact scansBefore_punctuation (c := ']') rfl

theorem toList_literal (quote : Char) (cs : List Char) :
    (Text.literal quote cs).toList = quote :: (cs.flatMap (Text.escaped quote) ++ [quote]) := by
  rw [Text.literal, String.toList_ofList, List.cons_append]

theorem scansBefore_char (c : Char) : (char c).ScansBefore rest := by
  refine ⟨'\'', Text.escaped '\'' c ++ ['\''], ?_, ?_⟩
  · rw [spelling, toList_literal, List.flatMap_cons, List.flatMap_nil, List.append_nil]
  · rw [scan_quote, List.append_assoc, List.cons_append, List.nil_append, charLiteral_escaped,
      List.length_append]
    rfl

theorem scansBefore_str (s : String) : (str s).ScansBefore rest := by
  refine ⟨'"', s.toList.flatMap (Text.escaped '"') ++ ['"'], toList_literal _ _, ?_⟩
  rw [scan_doubleQuote, List.append_assoc, List.cons_append, List.nil_append, stringLiteral_escaped,
    List.length_append, String.ofList_toList]
  rfl

theorem scansBefore_bool (b : Bool) (hr : Edge rest) : (bool b).ScansBefore rest := by
  cases b with
  | false =>
    have hs : (bool false).spelling.toList = 'F' :: "alse".toList := rfl
    exact scansBefore_capital hs (by decide) (List.all_eq_true.1 (by decide)) rfl hr
  | true =>
    have hs : (bool true).spelling.toList = 'T' :: "rue".toList := rfl
    exact scansBefore_capital hs (by decide) (List.all_eq_true.1 (by decide)) rfl hr

/-- Every proper token is read back from its spelling in front of an edge. -/
theorem Proper.scansBefore {k : Kind} (h : k.Proper) (hr : Edge rest) : k.ScansBefore rest := by
  cases k with
  | int n => exact scansBefore_int h hr
  | char c => exact scansBefore_char c
  | str s => exact scansBefore_str s
  | bool b => exact scansBefore_bool b hr
  | ident s =>
    obtain ⟨c, cs, hs, hc, hcs, hk⟩ := h
    exact scansBefore_small hs hc hcs hk hr
  | typeName s =>
    obtain ⟨c, cs, hs, hc, hcs, hk⟩ := h
    exact scansBefore_capital hs hc hcs hk hr
  | op s =>
    obtain ⟨hne, ht, hk⟩ := h
    exact scansBefore_operator hne ht hk hr
  | accessor a => exact scansBefore_accessor a hr
  | keyword k => exact scansBefore_keyword k hr
  | mark m => exact scansBefore_mark m hr

end Kind

/-! ## The lexer gives proper tokens only -/

namespace Scan

variable {c : Char} {cs : List Char} {k : Kind} {n : Nat}

theorem proper_wordKind (hc : (c.isLower || c = '_') = true) (hcs : ∀ d ∈ cs, isWordChar d = true) :
    (wordKind (String.ofList (c :: cs))).Proper := by
  cases h : Keyword.ofWord? (String.ofList (c :: cs)) with
  | some k =>
    rw [wordKind, h]
    trivial
  | none =>
    have hk : wordKind (String.ofList (c :: cs)) = .ident (String.ofList (c :: cs)) := by
      rw [wordKind, h]
    rw [hk]
    exact ⟨c, cs, String.toList_ofList, hc, hcs, hk⟩

theorem proper_capitalKind (hc : c.isUpper = true) (hcs : ∀ d ∈ cs, isWordChar d = true) :
    (capitalKind (String.ofList (c :: cs))).Proper := by
  by_cases ht : String.ofList (c :: cs) = "True"
  · rw [capitalKind, if_pos ht]
    trivial
  · by_cases hf : String.ofList (c :: cs) = "False"
    · rw [capitalKind, if_neg ht, if_pos hf]
      trivial
    · have hk : capitalKind (String.ofList (c :: cs)) = .typeName (String.ofList (c :: cs)) := by
        rw [capitalKind, if_neg ht, if_neg hf]
      rw [hk]
      exact ⟨c, cs, String.toList_ofList, hc, hcs, hk⟩

theorem proper_operatorKind (h : operatorTail (c :: cs) = c :: cs) :
    (operatorKind (String.ofList (c :: cs))).Proper := by
  have hk : (∃ m, operatorKind (String.ofList (c :: cs)) = .mark m) ∨
      operatorKind (String.ofList (c :: cs)) = .op (String.ofList (c :: cs)) := by
    unfold operatorKind
    split
    · exact .inl ⟨_, rfl⟩
    · split
      · exact .inl ⟨_, rfl⟩
      · split
        · exact .inl ⟨_, rfl⟩
        · exact .inr rfl
  rcases hk with ⟨m, hk⟩ | hk
  · rw [hk]
    trivial
  · rw [hk]
    refine ⟨?_, ?_, hk⟩
    · rw [String.toList_ofList]
      exact List.cons_ne_nil _ _
    · rw [String.toList_ofList, h]

theorem operatorTail_append_rest (cs : List Char) : ∃ rest, cs = operatorTail cs ++ rest := by
  fun_induction operatorTail cs with
  | case1 cs => exact ⟨_, rfl⟩
  | case2 cs => exact ⟨_, rfl⟩
  | case3 c cs _ _ _ ih =>
    obtain ⟨rest, hrest⟩ := ih
    exact ⟨rest, by rw [List.cons_append, ← hrest]⟩
  | case4 c cs => exact ⟨_, rfl⟩
  | case5 => exact ⟨[], rfl⟩

theorem NoComment.operatorTail (h : NoComment c cs) : NoComment c (operatorTail cs) := by
  rintro rfl ds
  obtain ⟨rest, hrest⟩ := operatorTail_append_rest cs
  constructor
  · intro hds
    rw [hds] at hrest
    exact (h rfl _).1 hrest
  · intro hds
    rw [hds] at hrest
    exact (h rfl _).2 hrest

/-- Reading an operator again finds the same end. -/
theorem operatorTail_idem (cs : List Char) : operatorTail (operatorTail cs) = operatorTail cs := by
  fun_induction operatorTail cs with
  | case1 => rfl
  | case2 => rfl
  | case3 c cs h₁ h₂ hc ih =>
    have hn : NoComment c cs := fun hslash ds => ⟨h₁ ds hslash, h₂ ds hslash⟩
    exact operatorTail_cons_eq_iff.2 ⟨hc, hn.operatorTail, ih⟩
  | case4 => rfl
  | case5 => rfl

theorem proper_integer {digits : List Char} (h : integer digits = .token k) : k.Proper := by
  unfold integer at h
  split at h
  · cases h
    assumption
  · cases h

theorem proper_charLiteral (h : charLiteral cs = (.token k, n)) : k.Proper := by
  unfold charLiteral at h
  split at h
  case h_5 =>
    split at h <;> cases h
    trivial
  all_goals cases h
  trivial

theorem proper_stringLiteral (h : stringLiteral cs = (.token k, n)) : k.Proper := by
  have h := (Prod.mk.inj h).1
  split at h
  · split at h <;> cases h
    trivial
  · cases h

theorem proper_accessor {word : String} (h : accessor word = .token k) : k.Proper := by
  unfold accessor at h
  split at h <;> cases h
  trivial

theorem proper_lexeme (hcs : NoComment c cs) (h : lexeme c cs = (.token k, n)) : k.Proper := by
  unfold lexeme at h
  split at h
  · cases h
    trivial
  · split at h
    · exact proper_accessor (Prod.mk.inj h).1
    split at h
    · exact proper_charLiteral h
    split at h
    · exact proper_stringLiteral h
    split at h
    · exact proper_integer (Prod.mk.inj h).1
    split at h
    · next hc =>
      cases h
      exact proper_wordKind hc fun d => List.mem_takeWhile_imp
    split at h
    · next hc =>
      cases h
      exact proper_capitalKind hc fun d => List.mem_takeWhile_imp
    split at h
    · next hc =>
      cases h
      exact proper_operatorKind
        (operatorTail_cons_eq_iff.2 ⟨hc, hcs.operatorTail, operatorTail_idem cs⟩)
    · cases h

theorem proper_scan (h : scan c cs = (.token k, n)) : k.Proper := by
  unfold scan at h
  split at h
  · cases h
  · split at h
    · cases h
    · cases h
    · next h₁ h₂ =>
      exact proper_lexeme (fun hc ds => ⟨fun hds => h₁ ds hc hds, fun hds => h₂ ds hc hds⟩) h

end Scan

theorem Lexed.proper_ofChars (loc : Loc) (cs : List Char) :
    ∀ t ∈ (Lexed.ofChars loc cs).tokens, t.kind.Proper := by
  fun_induction Lexed.ofChars loc cs with
  | case1 =>
    intro t ht
    cases ht
  | case2 loc c cs s ih =>
    intro t ht
    cases hs : s.1 with
    | gap =>
      rw [hs] at ht
      exact ih t ht
    | fault f k =>
      rw [hs] at ht
      exact ih t ht
    | token k =>
      rw [hs] at ht
      rcases List.mem_cons.1 ht with rfl | ht
      · exact proper_scan (Prod.ext hs rfl)
      · exact ih t ht

theorem lex_eq_ok_iff {text : String} {s : TokenStream} : lex text = .ok s ↔
    (Lexed.ofText text).faults = [] ∧
      s = ⟨(Lexed.ofText text).tokens, (Lexed.ofText text).stop⟩ := by
  simp only [lex]
  split
  · next h =>
    rw [List.isEmpty_iff] at h
    simp [h, eq_comm]
  · next h =>
    rw [List.isEmpty_iff] at h
    simp [h]

/-- Every token of a text is proper. -/
theorem proper_of_lex {text : String} {s : TokenStream} (h : lex text = .ok s) :
    ∀ t ∈ s.tokens, t.kind.Proper := by
  obtain ⟨-, rfl⟩ := lex_eq_ok_iff.1 h
  exact Lexed.proper_ofChars _ _

/-! ## Texts that spell tokens -/

/-- The text is cut into tokens of these kinds, without a fault. -/
def Lexes (cs : List Char) (ks : List Kind) : Prop :=
  ∀ loc, (Lexed.ofChars loc cs).faults = [] ∧ (Lexed.ofChars loc cs).tokens.map Token.kind = ks

theorem lexes_nil : Lexes [] [] := fun loc => by
  rw [Lexed.ofChars]
  exact ⟨rfl, rfl⟩

theorem Lexes.blank {c : Char} {cs : List Char} {ks : List Kind} (hc : Text.isBlank c = true)
    (h : Lexes cs ks) : Lexes (c :: cs) ks := fun loc => by
  have hs : scan c cs = (.gap, 0) := by
    unfold scan
    rw [if_pos hc]
  rw [Lexed.ofChars, hs]
  exact h _

theorem Lexes.token {k : Kind} {cs : List Char} {ks : List Kind} (hk : k.ScansBefore cs)
    (h : Lexes cs ks) : Lexes (k.spelling.toList ++ cs) (k :: ks) := fun loc => by
  obtain ⟨c, ds, hs, hscan⟩ := hk
  rw [hs, List.cons_append, Lexed.ofChars, hscan]
  simp only [Lexed.cons, List.map_cons, List.drop_left]
  exact ⟨(h _).1, by rw [(h _).2]⟩

theorem Lexes.lex_eq_ok {text : String} {ks : List Kind} (h : Lexes text.toList ks) :
    ∃ s, lex text = .ok s ∧ s.tokens.map Token.kind = ks :=
  ⟨_, lex_eq_ok_iff.2 ⟨(h _).1, rfl⟩, (h _).2⟩

/-- The text spells the tokens, if what follows it does not extend its last one. -/
def Spells (s : String) (ks : List Kind) : Prop :=
  ∀ rest js, Edge rest → Lexes rest js → Lexes (s.toList ++ rest) (ks ++ js)

/-- The text spells the tokens, whatever follows it. -/
def Closes (s : String) (ks : List Kind) : Prop :=
  ∀ rest js, Lexes rest js → Lexes (s.toList ++ rest) (ks ++ js)

/-- The text ends the token before it, and spells the tokens, whatever follows it. -/
structure Breaks (s : String) (ks : List Kind) : Prop where
  edge : ∃ c cs, s.toList = c :: cs ∧ isWordChar c = false ∧ isOperatorChar c = false
  closes : Closes s ks

section

variable {s t : String} {js ks : List Kind}

theorem Breaks.edge_append (h : Breaks s ks) (rest : List Char) : Edge (s.toList ++ rest) := by
  obtain ⟨c, cs, hs, hc⟩ := h.edge
  rw [hs]
  intro d hd
  cases hd
  exact hc

theorem Closes.spells (h : Closes s ks) : Spells s ks := fun rest js _ => h rest js

theorem closes_empty : Closes "" [] := fun _ _ h => h

theorem Closes.append (hs : Closes s js) (ht : Closes t ks) : Closes (s ++ t) (js ++ ks) := by
  intro rest ls h
  rw [String.toList_append, List.append_assoc, List.append_assoc]
  exact hs _ _ (ht _ _ h)

theorem Closes.append_spells (hs : Closes s js) (ht : Spells t ks) :
    Spells (s ++ t) (js ++ ks) := by
  intro rest ls hr h
  rw [String.toList_append, List.append_assoc, List.append_assoc]
  exact hs _ _ (ht _ _ hr h)

theorem Spells.append_breaks (hs : Spells s js) (ht : Breaks t ks) :
    Closes (s ++ t) (js ++ ks) := by
  intro rest ls h
  rw [String.toList_append, List.append_assoc, List.append_assoc]
  exact hs _ _ (ht.edge_append rest) (ht.closes _ _ h)

theorem Breaks.append_closes (hs : Breaks s js) (ht : Closes t ks) :
    Breaks (s ++ t) (js ++ ks) := by
  refine ⟨?_, hs.closes.append ht⟩
  obtain ⟨c, cs, h, hc⟩ := hs.edge
  exact ⟨c, cs ++ t.toList, by rw [String.toList_append, h, List.cons_append], hc⟩

theorem Kind.Proper.spells {k : Kind} (h : k.Proper) : Spells k.spelling [k] :=
  fun _ _ hr hl => hl.token (h.scansBefore hr)

theorem breaks_blank {c : Char} (h : Text.isBlank c = true) : Breaks (String.singleton c) [] := by
  refine ⟨⟨c, [], by simp, ?_, ?_⟩, fun rest js hl => ?_⟩
  · rw [Bool.eq_false_iff]
    intro hw
    rw [not_isBlank_of_isWordChar hw] at h
    cases h
  · rw [Bool.eq_false_iff]
    intro ho
    rw [not_isBlank_of_isOperatorChar ho] at h
    cases h
  · rw [String.toList_singleton]
    exact hl.blank h

theorem breaks_space : Breaks " " [] := breaks_blank (c := ' ') (by decide)

theorem breaks_newline : Breaks "\n" [] := breaks_blank (c := '\n') (by decide)

theorem breaks_mark {m : Mark} {c : Char} (h : punctuation c = some m) :
    Breaks m.spelling [.mark m] := by
  refine ⟨⟨c, [], ?_⟩, fun rest js hl => hl.token (Kind.scansBefore_punctuation h)⟩
  unfold punctuation at h
  split at h <;> cases h <;> exact ⟨rfl, by decide, by decide⟩

end

end SplFrontend
