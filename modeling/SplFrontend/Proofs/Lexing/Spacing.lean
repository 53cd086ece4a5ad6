import SplFrontend.Proofs.Lexing.Lexemes

/-!
# Spaced tokens are read back

Tokens are written by their spellings, and between two of them stands a separator: a blank, and
after it whatever makes a gap. The blank ends the token before it, also an operator that would open
a comment with what follows; and a gap ends with itself, so that nothing of the next token is lost
in a comment. So the lexer finds the same tokens again.
-/

namespace SplFrontend

open Scan

/-- A blank, and a gap after it. -/
inductive Separator : List Char → Prop
  | mk {c cs} : Text.isBlank c = true → Gap cs → Separator (c :: cs)

/-- The text is made of the spellings of the tokens, with separators between them. One may also
stand at the end. -/
inductive Spaced : List Kind → List Char → Prop
  | nil : Spaced [] []
  | last {k} : Spaced [k] k.spelling.toList
  | cons {k ks sep cs} :
    Separator sep → Spaced ks cs → Spaced (k :: ks) (k.spelling.toList ++ (sep ++ cs))

/-- The lexer gives the token for some text. -/
def Kind.Produced (k : Kind) : Prop := ∃ text s, lex text = .ok s ∧ k ∈ s.tokens.map Token.kind

theorem edge_blank {c : Char} (h : Text.isBlank c = true) (cs : List Char) : Edge (c :: cs) := by
  have hedge := (breaks_blank h).edge_append cs
  rwa [String.toList_singleton] at hedge

/-- The tokens that the lexer gives are those that can be written. -/
theorem Kind.produced_iff_proper {k : Kind} : k.Produced ↔ k.Proper := by
  constructor
  · rintro ⟨text, s, hs, hk⟩
    obtain ⟨t, ht, rfl⟩ := List.mem_map.1 hk
    exact proper_of_lex hs t ht
  · intro h
    have hlexes := lexes_nil.token (h.scansBefore edge_nil)
    rw [List.append_nil] at hlexes
    obtain ⟨s, hs, hkinds⟩ := hlexes.lex_eq_ok
    exact ⟨k.spelling, s, hs, by rw [hkinds]; exact List.mem_singleton_self k⟩

/-! ## Gaps are passed over -/

namespace Lexes

variable {cs : List Char} {ks : List Kind}

theorem gap {c : Char} {n : Nat} (hs : scan c cs = (.gap, n)) (h : Lexes (cs.drop n) ks) :
    Lexes (c :: cs) ks :=
  fun loc => by
    rw [Lexed.ofChars, hs]
    exact h _

/-- A closed gap leaves what follows it as it is. -/
theorem append_gap {g : List Char} (hg : Gap g) (h : Lexes cs ks) : Lexes (g ++ cs) ks := by
  induction hg with
  | nil => exact h
  | blank hb _ ih => exact ih.blank hb
  | @line body rest hbody _ ih =>
    -- The comment ends before the line feed, which is a blank of its own.
    have hscan : scan '/' ('/' :: (body ++ '\n' :: (rest ++ cs))) = (.gap, body.length + 1) := by
      have hline := lineComment_newline hbody (rest ++ cs)
      rw [← hline]
      rfl
    rw [List.cons_append, List.cons_append, List.append_assoc, List.cons_append]
    refine .gap hscan ?_
    rw [List.drop_succ_cons, List.drop_left]
    exact ih.blank (by decide)
  | @block body rest hbody _ ih =>
    have hscan :
        scan '/' ('*' :: (body ++ '*' :: '/' :: (rest ++ cs))) = (.gap, body.length + 3) := by
      have hblock := blockComment_close hbody (rest ++ cs)
      rw [← Nat.add_assoc body.length 2 1, ← hblock]
      rfl
    rw [List.cons_append, List.cons_append, List.append_assoc, List.cons_append, List.cons_append]
    refine .gap hscan ?_
    rw [List.drop_succ_cons, ← List.drop_drop, List.drop_left]
    exact ih

end Lexes

/-! ## Spaced tokens -/

theorem Separator.lexes {sep cs : List Char} {ks : List Kind} (h : Separator sep)
    (hcs : Lexes cs ks) :
    Edge (sep ++ cs) ∧ Lexes (sep ++ cs) ks := by
  obtain ⟨hb, hgap⟩ := h
  exact ⟨edge_blank hb _, (hcs.append_gap hgap).blank hb⟩

theorem Spaced.lexes {ks : List Kind} {cs : List Char} (h : Spaced ks cs) :
    (∀ k ∈ ks, k.Proper) → Lexes cs ks := by
  induction h with
  | nil => exact fun _ => lexes_nil
  | @last k =>
    intro hk
    have hlexes := lexes_nil.token ((hk k List.mem_cons_self).scansBefore edge_nil)
    rwa [List.append_nil] at hlexes
  | @cons k ks sep cs hsep _ ih =>
    intro hks
    rw [List.forall_mem_cons] at hks
    obtain ⟨hedge, hrest⟩ := hsep.lexes (ih hks.2)
    exact hrest.token (hks.1.scansBefore hedge)

/-- Whatever tokens the lexer can give, and whatever separates them: from their spellings it reads
these tokens, and nothing else. -/
theorem lex_spaced {ks : List Kind} {text : String} (hks : ∀ k ∈ ks, k.Produced)
    (h : Spaced ks text.toList) :
    ∃ s, lex text = .ok s ∧ s.tokens.map Token.kind = ks :=
  (h.lexes fun k hk => Kind.produced_iff_proper.1 (hks k hk)).lex_eq_ok

/-- An operator that looks like the end of a comment, a literal with escapes, a keyword, and an
operator that would begin a comment. -/
def spacedKinds : List Kind := [.op "*/", .str "\"\n'", .keyword .kwImportAll, .op "/"]

/-- The spellings, with comments of both sorts between them. -/
def spacedText : String := "*/\u2003/* // * / */\"\\\"\\n'\"\t// /* \"\n/**/importall ///\n/"

theorem lex_spaced_sample : (∀ k ∈ spacedKinds, k.Produced) ∧ Spaced spacedKinds spacedText.toList ∧
    ∃ s, lex spacedText = .ok s ∧ s.tokens.map Token.kind = spacedKinds := by
  have hproper : ∀ k ∈ spacedKinds, k.Proper := by
    simp only [spacedKinds, List.forall_mem_cons]
    exact ⟨⟨by decide, by decide, by decide⟩, trivial, trivial, ⟨by decide, by decide, by decide⟩,
      List.forall_mem_nil _⟩
  have hfirst : Separator "\u2003/* // * / */".toList :=
    .mk (by decide) (.block (by decide +kernel : InBlock " // * / ".toList) .nil)
  have hsecond : Separator "\t// /* \"\n/**/".toList :=
    .mk (by decide)
      (.line (by decide : '\n' ∉ " /* \"".toList) (.block (by decide +kernel : InBlock []) .nil))
  have hthird : Separator " ///\n".toList :=
    .mk (by decide) (.line (by decide : '\n' ∉ ['/']) .nil)
  have htext : spacedText.toList = (Kind.op "*/").spelling.toList ++ ("\u2003/* // * / */".toList ++
      ((Kind.str "\"\n'").spelling.toList ++ ("\t// /* \"\n/**/".toList ++
        ((Kind.keyword .kwImportAll).spelling.toList ++
          (" ///\n".toList ++ (Kind.op "/").spelling.toList))))) := by
    decide +kernel
  have hspaced : Spaced spacedKinds spacedText.toList := by
    rw [htext]
    exact .cons hfirst (.cons hsecond (.cons hthird .last))
  have hproduced : ∀ k ∈ spacedKinds, k.Produced :=
    fun k hk => Kind.produced_iff_proper.2 (hproper k hk)
  exact ⟨hproduced, hspaced, lex_spaced hproduced hspaced⟩

end SplFrontend
