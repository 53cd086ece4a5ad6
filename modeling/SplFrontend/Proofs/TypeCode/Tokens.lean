import SplFrontend.Proofs.TypeCode

/-!
# The tokens of type code

Type code is made of words, marks and quoted names. `Lexes ws cs r` says that the text `cs` starts
with the tokens `ws`, each with any blanks after it, and leaves `r`; this is how the readers take
tokens. `Spaced ws cs` says that `cs` spells the tokens `ws` with any blanks before, between and
after them. No text spells two lists of tokens, although one word may begin another: what goes on in
the longer word begins no token.
-/

namespace SplFrontend.TyCode

open Text (skipBlanks isPlainBlank)

/-- The words and marks of type code. -/
def fixedTokens : List String :=
  ["BASICTYPE", "TUPLETYPE", "LISTTYPE", "TYPESYN", "FUNTYPE", "type_id", "type1", "type2", "type",
    "type_params", "return_type", "(", ")", "=", ",", "[", "]"]

/-- A name in quotation marks. -/
def quote (name : String) : String := "\"" ++ name ++ "\""

/-- The texts that type code is made of. -/
inductive IsToken : String → Prop
  | fixed {w} : w ∈ fixedTokens → IsToken w
  | quoted {name} : IsName name → IsToken (quote name)

/-- The text spells the tokens, with any blanks before, between and after them. -/
inductive Spaced : List String → List Char → Prop
  | nil {bs} : (∀ b ∈ bs, isPlainBlank b = true) → Spaced [] bs
  | cons {bs w ws cs} : (∀ b ∈ bs, isPlainBlank b = true) → IsToken w → Spaced ws cs →
      Spaced (w :: ws) (bs ++ (w.toList ++ cs))

/-! ## Tokens at the front of a text -/

/-- The text starts with the tokens, each with all blanks after it, and goes on with the rest. -/
def Lexes : List String → List Char → List Char → Prop
  | [], cs, r => cs = r
  | w :: ws, cs, r => ∃ s, cs = w.toList ++ s ∧ Lexes ws (skipBlanks s) r

theorem lexes_append {ws ws' : List String} {cs r : List Char} :
    Lexes (ws ++ ws') cs r ↔ ∃ s, Lexes ws cs s ∧ Lexes ws' s r := by
  induction ws generalizing cs with
  | nil => simp [Lexes]
  | cons w ws ih =>
    simp only [List.cons_append, Lexes, ih]
    constructor
    · rintro ⟨s, hs, s', hs', hr⟩
      exact ⟨s', ⟨s, hs, hs'⟩, hr⟩
    · rintro ⟨s', ⟨s, hs, hs'⟩, hr⟩
      exact ⟨s, hs, s', hs', hr⟩

theorem Lexes.append {ws ws' : List String} {cs s r : List Char} (h : Lexes ws cs s)
    (h' : Lexes ws' s r) :
    Lexes (ws ++ ws') cs r := lexes_append.2 ⟨s, h, h'⟩

theorem lexes_cons {w : String} {ws : List String} {cs r : List Char} :
    Lexes (w :: ws) cs r ↔ ∃ s, Lexes [w] cs s ∧ Lexes ws s r := @lexes_append [w] ws cs r

/-- A token of one character. -/
theorem lexes_mark {w : String} {c : Char} (hw : w.toList = [c]) {cs r : List Char} :
    Lexes [w] cs r ↔ ∃ s, cs = c :: s ∧ skipBlanks s = r := by
  simp [Lexes, hw]

/-! ## Heads of tokens -/

/-- Letters that go on in a word of type code although a shorter word ends before them. -/
def lateLetters : List Char := ['1', '2', '_']

theorem toList_quote (name : String) : (quote name).toList = '"' :: (name.toList ++ ['"']) := by
  have hmark : "\"".toList = ['"'] := by decide
  rw [quote, String.toList_append, String.toList_append, hmark]
  rfl

/-- What holds of the first characters of all words and marks holds of each. -/
theorem head_fixedTokens {P : Char → Bool}
    (hall : fixedTokens.all (fun w => w.toList.head?.any P) = true) {w : String}
    (h : w ∈ fixedTokens) : ∃ c cs, w.toList = c :: cs ∧ P c = true := by
  obtain ⟨c, hc, hP⟩ := (Option.any_eq_true ..).1 (List.all_eq_true.1 hall w h)
  obtain ⟨cs, hcs⟩ := List.head?_eq_some_iff.1 hc
  exact ⟨c, cs, hcs, hP⟩

/-- A token starts with a character that is not blank and goes on in no word. -/
theorem IsToken.exists_head {w : String} (h : IsToken w) :
    ∃ c cs, w.toList = c :: cs ∧ isPlainBlank c = false ∧ c ∉ lateLetters := by
  cases h with
  | fixed hw =>
    obtain ⟨c, cs, hcs, hgood⟩ :=
      head_fixedTokens (P := fun c => !isPlainBlank c && !lateLetters.contains c) (by decide) hw
    simp only [Bool.and_eq_true, Bool.not_eq_true', List.contains_eq_mem, decide_eq_false_iff_not]
      at hgood
    exact ⟨c, cs, hcs, hgood⟩
  | @quoted name _ => exact ⟨'"', _, toList_quote name, by decide, by decide⟩

/-- Words and marks are not quoted. -/
theorem not_quoted_of_fixed {w : String} (h : w ∈ fixedTokens) (cs : List Char) :
    w.toList ≠ '"' :: cs := by
  obtain ⟨c, cs', hcs, hne⟩ := head_fixedTokens (P := fun c => c != '"') (by decide) h
  intro hquote
  rw [hcs, List.cons.injEq] at hquote
  simp [hquote.1] at hne

/-- A quotation mark ends a name. -/
theorem eq_of_quoted {ns ns' r r' : List Char} (hns : ∀ c ∈ ns, isNameChar c = true)
    (hns' : ∀ c ∈ ns', isNameChar c = true) (h : ns ++ '"' :: r = ns' ++ '"' :: r') : ns = ns' := by
  have htake {l s : List Char} (hl : ∀ c ∈ l, isNameChar c = true) :
      (l ++ '"' :: s).takeWhile isNameChar = l := by
    rw [List.takeWhile_append_of_pos hl, List.takeWhile_cons_of_neg (by decide), List.append_nil]
  rw [← htake (s := r) hns, h, htake hns']

/-- A token that begins another one is that token, or the other one goes on with a late letter. -/
theorem IsToken.eq_or_late {w w' : String} (h : IsToken w) (h' : IsToken w')
    (hp : w.toList <+: w'.toList) :
    w = w' ∨ ∃ c ∈ lateLetters, w.toList ++ [c] <+: w'.toList := by
  obtain ⟨t, ht⟩ := hp
  cases h with
  | fixed hw =>
    cases h' with
    | fixed hw' =>
      have hall :
          ∀ w ∈ fixedTokens, (fixedTokens.all fun w' => !w.toList.isPrefixOf w'.toList || w == w' ||
          lateLetters.any fun c => (w.toList ++ [c]).isPrefixOf w'.toList) = true :=
        List.all_eq_true.1 (by decide)
      have hpair := List.all_eq_true.1 (hall w hw) w' hw'
      rw [List.isPrefixOf_iff_prefix.2 ⟨t, ht⟩] at hpair
      simpa using hpair
    | @quoted name _ =>
      obtain ⟨c, cs, hcs, -⟩ := (IsToken.fixed hw).exists_head
      rw [hcs, toList_quote, List.cons_append, List.cons.injEq] at ht
      exact absurd (ht.1 ▸ hcs) (not_quoted_of_fixed hw cs)
  | @quoted name hname =>
    rw [toList_quote, List.cons_append, List.append_assoc] at ht
    cases h' with
    | fixed hw' => exact absurd ht.symm (not_quoted_of_fixed hw' _)
    | @quoted name' hname' =>
      rw [toList_quote, List.cons.injEq] at ht
      have hsame := String.toList_injective (eq_of_quoted hname.2 hname'.2 ht.2)
      exact .inl (by rw [hsame])

/-- The rest of a text after a token does not go on with a late letter if it starts with tokens
again. -/
theorem not_late_of_lexes {ws : List String} {cs : List Char} (hws : ∀ w ∈ ws, IsToken w)
    (h : Lexes ws (skipBlanks cs) []) {c : Char} (hc : c ∈ lateLetters) : ¬ [c] <+: cs := by
  rintro ⟨t, rfl⟩
  have hall : ∀ c ∈ lateLetters, (!isPlainBlank c) = true := List.all_eq_true.1 (by decide)
  have hblank : isPlainBlank c = false := by simpa using hall c hc
  rw [List.singleton_append, Text.skipBlanks_cons hblank] at h
  cases ws with
  | nil => cases h
  | cons w ws =>
    obtain ⟨s, hs, -⟩ := h
    obtain ⟨d, ds, hds, -, hlate⟩ := (hws w List.mem_cons_self).exists_head
    rw [hds, List.cons_append, List.cons.injEq] at hs
    exact hlate (hs.1 ▸ hc)

/-- Two tokens that a text starts with, each before more tokens, are the same. -/
theorem IsToken.eq_of_append {w w' : String} {s s' : List Char} (h : IsToken w) (h' : IsToken w')
    (hs : ∀ c ∈ lateLetters, ¬ [c] <+: s) (hs' : ∀ c ∈ lateLetters, ¬ [c] <+: s')
    (heq : w.toList ++ s = w'.toList ++ s') : w = w' := by
  have hlate {w w' : String} {s s' : List Char} (hs : ∀ c ∈ lateLetters, ¬ [c] <+: s)
      (heq : w.toList ++ s = w'.toList ++ s') : ¬ ∃ c ∈ lateLetters,
        w.toList ++ [c] <+: w'.toList := by
    rintro ⟨c, hc, hp⟩
    refine hs c hc ((List.prefix_append_right_inj w.toList).1 ?_)
    rw [heq]
    exact hp.trans (List.prefix_append _ _)
  have hprefix : w.toList <+: w'.toList ++ s' := heq ▸ List.prefix_append _ _
  obtain hp | hp := List.prefix_or_prefix_of_prefix hprefix (List.prefix_append w'.toList s')
  · exact (h.eq_or_late h' hp).resolve_right (hlate hs heq)
  · exact ((h'.eq_or_late h hp).resolve_right (hlate hs' heq.symm)).symm

/-- A text is made of tokens in one way. -/
theorem lexes_unique {ws ws' : List String} {cs : List Char} (hws : ∀ w ∈ ws, IsToken w)
    (hws' : ∀ w ∈ ws', IsToken w) (h : Lexes ws cs []) (h' : Lexes ws' cs []) : ws = ws' := by
  induction ws generalizing ws' cs with
  | nil =>
    cases ws' with
    | nil => rfl
    | cons w' ws' =>
      obtain ⟨s, hs, -⟩ := h'
      obtain ⟨c, cs', hc, -⟩ := (hws' w' List.mem_cons_self).exists_head
      rw [show cs = [] from h, hc] at hs
      cases hs
  | cons w ws ih =>
    obtain ⟨hw, hrest⟩ := List.forall_mem_cons.1 hws
    obtain ⟨s, rfl, h⟩ := h
    cases ws' with
    | nil =>
      obtain ⟨c, cs', hc, -⟩ := hw.exists_head
      rw [Lexes, hc] at h'
      cases h'
    | cons w' ws' =>
      obtain ⟨hw', hrest'⟩ := List.forall_mem_cons.1 hws'
      obtain ⟨s', hs', h'⟩ := h'
      obtain rfl := hw.eq_of_append hw' (fun c hc => not_late_of_lexes hrest h hc)
        (fun c hc => not_late_of_lexes hrest' h' hc) hs'
      obtain rfl := List.append_cancel_left hs'
      rw [ih hrest hrest' h h']

/-! ## Blanks -/

theorem skipBlanks_append {bs : List Char} (hbs : ∀ b ∈ bs, isPlainBlank b = true)
    (cs : List Char) :
    skipBlanks (bs ++ cs) = skipBlanks cs := List.dropWhile_append_of_pos hbs

/-- A text starts with blanks, perhaps none. -/
theorem exists_blanks (cs : List Char) :
    ∃ bs, (∀ b ∈ bs, isPlainBlank b = true) ∧ cs = bs ++ skipBlanks cs :=
  ⟨cs.takeWhile isPlainBlank, List.all_eq_true.1 List.all_takeWhile,
    (List.takeWhile_append_dropWhile ..).symm⟩

/-- A text that spells tokens is one that starts with them after its first blanks, and has no
rest. -/
theorem spaced_iff {ws : List String} {cs : List Char} :
    Spaced ws cs ↔ (∀ w ∈ ws, IsToken w) ∧ Lexes ws (skipBlanks cs) [] := by
  constructor
  · intro h
    induction h with
    | @nil bs hbs =>
      refine ⟨List.forall_mem_nil _, ?_⟩
      have hnil := skipBlanks_append hbs []
      rwa [List.append_nil] at hnil
    | cons hbs hw _ ih =>
      refine ⟨List.forall_mem_cons.2 ⟨hw, ih.1⟩, _, ?_, ih.2⟩
      obtain ⟨c, cs', hc, hblank, -⟩ := hw.exists_head
      rw [skipBlanks_append hbs, hc, List.cons_append, Text.skipBlanks_cons hblank]
  · rintro ⟨hws, h⟩
    induction ws generalizing cs with
    | nil =>
      obtain ⟨bs, hbs, hcs⟩ := exists_blanks cs
      rw [show skipBlanks cs = [] from h, List.append_nil] at hcs
      exact hcs ▸ .nil hbs
    | cons w ws ih =>
      obtain ⟨hw, hrest⟩ := List.forall_mem_cons.1 hws
      obtain ⟨s, hs, h⟩ := h
      obtain ⟨bs, hbs, hcs⟩ := exists_blanks cs
      rw [hcs, hs]
      exact .cons hbs hw (ih hrest h)

/-- No text spells two lists of tokens. -/
theorem Spaced.unique {ws ws' : List String} {cs : List Char} (h : Spaced ws cs)
    (h' : Spaced ws' cs) : ws = ws' :=
  lexes_unique (spaced_iff.1 h).1 (spaced_iff.1 h').1 (spaced_iff.1 h).2 (spaced_iff.1 h').2

end SplFrontend.TyCode
