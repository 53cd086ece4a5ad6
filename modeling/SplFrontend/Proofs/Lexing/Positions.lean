import Mathlib.Data.List.Induction
import SplFrontend.Proofs.Lexing.Lexemes

/-!
# Places are true

The lexer moves a place along with the characters that it takes. Here the place is compared with
what can be counted in the text: the line is one more than the line feeds before an offset, the
column one more than the characters since the last of them (`Loc.ofOffset`).

`Lexed.Run` is a run of the lexer over the offsets of a text. Every text has one, it never leaves
the text, and it ends where the text ends (`exists_run`); what it finds at an offset is reported at
the place of the offset. A run without a fault cuts the text into gaps and lexemes (`Run.tiled`). A
comment to the end of the line is taken before its line feed is, so that a run is followed from its
end with two facts at once: what is cut from here on, and what is cut after the line feed that
stands here.
-/

namespace SplFrontend

/-! ## Places of offsets -/

/-- The place of an offset in a text, counted in the characters before it. -/
def Loc.ofOffset (text : List Char) (n : Nat) : Loc where
  line := 1 + (text.take n).count '\n'
  column := 1 + ((text.take n).reverse.takeWhile (· ≠ '\n')).length

namespace Loc

/-- Moving through a text counts its lines and the columns of the last one. -/
theorem advance_start (cs : List Char) :
    start.advance cs = ⟨1 + cs.count '\n', 1 + (cs.reverse.takeWhile (· ≠ '\n')).length⟩ := by
  induction cs using List.reverseRecOn with
  | nil => rfl
  | append_singleton cs c ih =>
    rw [advance_append, ih, advance_cons, advance_nil, step, List.count_append, List.reverse_append,
      List.reverse_singleton, List.singleton_append, List.takeWhile_cons]
    by_cases hc : c = '\n'
    · subst hc
      rfl
    · have hcount : [c].count '\n' = 0 := List.count_singleton.trans (if_neg (by simpa using hc))
      rw [if_neg hc, hcount, if_pos (decide_eq_true hc), List.length_cons]
      rfl

theorem advance_take (text : List Char) (n : Nat) : start.advance (text.take n) = ofOffset text n :=
  advance_start (text.take n)

/-- Places move with the offsets. -/
theorem advance_ofOffset (text : List Char) (n k : Nat) :
    (ofOffset text n).advance ((text.drop n).take k) = ofOffset text (n + k) := by
  rw [← advance_take, ← advance_take, ← advance_append, List.take_add]

end Loc

/-! ## Runs of the lexer -/

namespace Lexed

/-- The stretches that the lexer takes from an offset on, each with its own offset and with what is
found there. Every one lies in the text, and the last one ends where the text ends. -/
inductive Run (text : List Char) : Nat → List (Nat × Scanned) → Prop
  | stop : Run text text.length []
  | step {n c cs ps} : text.drop n = c :: cs → n + 1 + (scan c cs).2 ≤ text.length →
      Run text (n + 1 + (scan c cs).2) ps → Run text n ((n, (scan c cs).1) :: ps)

/-- The tokens that are found, with their offsets. -/
def tokensIn : List (Nat × Scanned) → List (Nat × Kind)
  | [] => []
  | (n, .token k) :: ps => (n, k) :: tokensIn ps
  | (_, .gap) :: ps | (_, .fault _ _) :: ps => tokensIn ps

/-- The faults that are found, with the offsets where they lie. -/
def faultsIn : List (Nat × Scanned) → List (Nat × Fault)
  | [] => []
  | (n, .fault f offset) :: ps => (n + offset, f) :: faultsIn ps
  | (_, .gap) :: ps | (_, .token _) :: ps => faultsIn ps

/-- What was found in a text, at the places of the offsets. -/
def located (text : List Char) (ps : List (Nat × Scanned)) : Lexed where
  tokens := (tokensIn ps).map fun x => ⟨x.2, .ofOffset text x.1⟩
  faults := (faultsIn ps).map fun x => x.2.report (.ofOffset text x.1)
  stop := .ofOffset text text.length

variable {text : List Char}

theorem cons_located {n : Nat} {cs : List Char} (hcs : text.drop n = cs) (s : Scanned)
    (ps : List (Nat × Scanned)) :
    cons (.ofOffset text n) cs s (located text ps) = located text ((n, s) :: ps) := by
  cases s with
  | gap | token k => rfl
  | fault f offset =>
    rw [cons, ← hcs, Loc.advance_ofOffset]
    rfl

theorem drop_add_of_cons {n : Nat} {c : Char} {cs : List Char}
    (hcs : text.drop n = c :: cs) (k : Nat) :
    text.drop (n + 1 + k) = cs.drop k := by
  rw [Nat.add_assoc, ← List.drop_drop, hcs, Nat.add_comm, List.drop_succ_cons]

/-- The lexer runs through the text, and it places what it finds where it is. -/
theorem exists_run (text : List Char) (loc : Loc) (cs : List Char) :
    ∀ n : Nat, loc = .ofOffset text n →
    text.drop n = cs → n ≤ text.length → ∃ ps, Run text n ps ∧
      ofChars loc cs = located text ps := by
  fun_induction ofChars loc cs with
  | case1 loc =>
    intro n hloc hcs hn
    have hlen : n = text.length := Nat.le_antisymm hn (List.drop_eq_nil_iff.1 hcs)
    subst hlen
    exact ⟨[], .stop, by rw [hloc]; rfl⟩
  | case2 loc c cs s ih =>
    intro n hloc hcs hn
    have hle := Scan.scan_le c cs
    have hlen : text.length - n = cs.length + 1 := by
      rw [← List.length_drop, hcs, List.length_cons]
    have hin : n + 1 + (scan c cs).2 ≤ text.length := by omega
    have htake : c :: cs.take (scan c cs).2 = (text.drop n).take (1 + (scan c cs).2) := by
      rw [hcs, Nat.add_comm, List.take_succ_cons]
    have hplace :
        loc.advance (c :: cs.take (scan c cs).2) = .ofOffset text (n + 1 + (scan c cs).2) := by
      rw [hloc, htake, Loc.advance_ofOffset, Nat.add_assoc]
    obtain ⟨ps, hrun, hps⟩ := ih _ hplace (drop_add_of_cons hcs _) hin
    refine ⟨(n, (scan c cs).1) :: ps, .step hcs hin hrun, ?_⟩
    rw [hps, hloc, cons_located hcs]

/-- A run over a text that has faults finds them in the text. -/
theorem Run.faults_within {n : Nat} {ps : List (Nat × Scanned)} (h : Run text n ps) :
    ∀ x ∈ faultsIn ps, x.1 < text.length := by
  induction h with
  | stop => exact List.forall_mem_nil _
  | @step n c cs ps hcs hle _ ih =>
    have hfront := Scan.front_scan c cs
    generalize scan c cs = s at hfront hle ih ⊢
    obtain ⟨found, count⟩ := s
    cases found with
    | gap | token k => exact ih
    | fault f offset =>
      cases hfront with
      | lexeme htakes =>
        have hlt : offset < (c :: cs.take count).length := htakes.2
        rw [List.length_cons, List.length_take] at hlt
        refine List.forall_mem_cons.2 ⟨?_, ih⟩
        simp only at hle ⊢
        omega

end Lexed

/-! ## Texts as gaps and lexemes -/

/-- The text, which begins at some offset of a longer one, consists of lexemes of the tokens and of
gaps before, between and after them. The lexemes begin at the given offsets. -/
inductive Tiled : Nat → List Char → List (Nat × Kind) → Prop
  | stop {n cs} : LastGap cs → Tiled n cs []
  | token {n gap lexeme cs k ts} : Gap gap → k.Lexeme lexeme →
      Tiled (n + gap.length + lexeme.length) cs ts →
      Tiled n (gap ++ (lexeme ++ cs)) ((n + gap.length, k) :: ts)

namespace Tiled

variable {n : Nat} {cs : List Char} {ts : List (Nat × Kind)}

theorem append_gap {gap : List Char} (hgap : Gap gap) (h : Tiled (n + gap.length) cs ts) :
    Tiled n (gap ++ cs) ts := by
  cases h with
  | stop hcs => exact .stop (.append hgap hcs)
  | @token _ gap' lexeme cs k ts hgap' hk hts =>
    have hlen : n + gap.length + gap'.length = n + (gap ++ gap').length := by
      rw [List.length_append, Nat.add_assoc]
    rw [hlen] at hts ⊢
    rw [← List.append_assoc]
    exact .token (hgap.append hgap') hk hts

/-- The lexemes begin one after the other, and all of them before the end of the text. -/
theorem increasing (h : Tiled n cs ts) : (∀ m ∈ ts.map Prod.fst ++ [n + cs.length], n ≤ m) ∧
    (ts.map Prod.fst ++ [n + cs.length]).Pairwise (· < ·) := by
  induction h with
  | stop _ =>
    exact ⟨List.forall_mem_singleton.2 (Nat.le_add_right _ _), List.pairwise_singleton _ _⟩
  | @token n gap lexeme cs k ts _ hk _ ih =>
    have hpos : 0 < lexeme.length := List.length_pos_iff.2 hk.ne_nil
    have hend :
        n + (gap ++ (lexeme ++ cs)).length = n + gap.length + lexeme.length + cs.length := by
      simp only [List.length_append]
      omega
    rw [hend, List.map_cons, List.cons_append]
    refine ⟨List.forall_mem_cons.2 ⟨Nat.le_add_right _ _, fun m hm => ?_⟩,
      List.pairwise_cons.2 ⟨fun m hm => ?_, ih.2⟩⟩
    · have hle := ih.1 m hm
      omega
    · have hle := ih.1 m hm
      simp only
      omega

end Tiled

namespace Lexed

variable {text : List Char}

theorem Run.eq_nil {n : Nat} {ps : List (Nat × Scanned)} (h : Run text n ps)
    (hn : text.drop n = []) : ps = [] := by
  cases h with
  | stop => rfl
  | step hcs => rw [hn] at hcs; cases hcs

/-- A run without a fault cuts the text into gaps and lexemes. -/
theorem Run.tiled {n : Nat} {ps : List (Nat × Scanned)} (h : Run text n ps) : faultsIn ps = [] →
    Tiled n (text.drop n) (tokensIn ps) ∧
      ∀ cs, text.drop n = '\n' :: cs → Tiled (n + 1) cs (tokensIn ps) := by
  induction h with
  | stop =>
    intro _
    rw [List.drop_length]
    exact ⟨.stop (.closed .nil), fun cs hcs => by cases hcs⟩
  | @step n c cs ps hcs hle hrun ih =>
    intro hnone
    have hdrop := drop_add_of_cons hcs (scan c cs).2
    refine ⟨?_, fun ds hds => ?_⟩
    · have hfront := Scan.front_scan c cs
      rw [hcs]
      generalize scan c cs = s at hfront hle hrun ih hnone hdrop ⊢
      cases hfront with
      | blank hb =>
        obtain ⟨hrest, -⟩ := ih hnone
        rw [hdrop] at hrest
        exact .append_gap (.blank hb .nil) hrest
      | @line body rest hbody =>
        have hnext : text.drop (n + 1 + (body.length + 1)) = '\n' :: rest := by
          rw [hdrop, List.drop_succ_cons, List.drop_left]
        have hrest := (ih hnone).2 rest hnext
        have hgap : Gap ('/' :: '/' :: (body ++ ['\n'])) := .line hbody .nil
        have hlen :
            n + ('/' :: '/' :: (body ++ ['\n'])).length = n + 1 + (body.length + 1) + 1 := by
          simp only [List.length_cons, List.length_append, List.length_nil]
          omega
        have htext :
            '/' :: '/' :: (body ++ '\n' :: rest) = '/' :: '/' :: (body ++ ['\n']) ++ rest := by simp
        rw [htext]
        exact .append_gap hgap (hlen ▸ hrest)
      | @block body rest hbody =>
        obtain ⟨hrest, -⟩ := ih hnone
        have hnext : text.drop (n + 1 + (body.length + 3)) = rest := by
          rw [hdrop, List.drop_succ_cons, ← List.drop_drop, List.drop_left]
          rfl
        rw [hnext] at hrest
        have hgap : Gap ('/' :: '*' :: (body ++ ['*', '/'])) := .block hbody .nil
        have hlen :
            n + ('/' :: '*' :: (body ++ ['*', '/'])).length = n + 1 + (body.length + 3) := by
          simp only [List.length_cons, List.length_append, List.length_nil]
          omega
        have htext :
            '/' :: '*' :: (body ++ '*' :: '/' :: rest) =
              '/' :: '*' :: (body ++ ['*', '/']) ++ rest := by
          simp
        rw [htext]
        exact .append_gap hgap (hlen ▸ hrest)
      | @openLine body hbody =>
        have hps := hrun.eq_nil (by rw [hdrop, List.drop_succ_cons, List.drop_length])
        subst hps
        exact .stop (.line .nil hbody)
      | @openBlock body hbody =>
        have hps := hrun.eq_nil (by rw [hdrop, List.drop_succ_cons, List.drop_length])
        subst hps
        exact .stop (.block .nil hbody)
      | lexeme htakes =>
        obtain ⟨found, count⟩ := s
        obtain ⟨hcount, hfits⟩ := htakes
        cases found with
        | gap => exact hfits.elim
        | fault f offset => cases hnone
        | token k =>
          obtain ⟨hrest, -⟩ := ih hnone
          have hlen :
              n + ([] : List Char).length + (c :: cs.take count).length = n + 1 + count := by
            simp only [List.length_nil, List.length_cons, List.length_take] at hcount ⊢
            omega
          have htext : c :: cs = [] ++ (c :: cs.take count ++ cs.drop count) := by simp
          rw [hdrop] at hrest
          rw [htext]
          exact .token .nil hfits (hlen ▸ hrest)
    · rw [hcs] at hds
      cases hds
      -- A line feed is a blank.
      have hscan : scan '\n' cs = (.gap, 0) := rfl
      rw [hscan] at ih hdrop hnone ⊢
      obtain ⟨hrest, -⟩ := ih hnone
      rw [hdrop] at hrest
      exact hrest

end Lexed

theorem lex_eq_error_iff {text : String} {ds : List Diagnostic} : lex text = .error ds ↔
    (Lexed.ofText text).faults ≠ [] ∧ ds = (Lexed.ofText text).faults := by
  simp only [lex]
  split
  · next h =>
    rw [List.isEmpty_iff] at h
    simp [h]
  · next h =>
    rw [List.isEmpty_iff] at h
    simp [h, eq_comm]

/-- Lexing goes through every text from its beginning to its end and takes nothing from beyond. If
it succeeds, every token stands at the place of the offset where its lexeme begins; the offsets
increase up to the length of the text, which is the offset of the end; and what lies between the
lexemes are gaps. If it fails, every fault is reported at the place of an offset of the text. -/
theorem lex_places (text : String) :
    (∃ ps, Lexed.Run text.toList 0 ps ∧ Lexed.ofText text = Lexed.located text.toList ps) ∧
    (∀ s, lex text = .ok s → ∃ ts : List (Nat × Kind),
      s.tokens = ts.map (fun x => ⟨x.2, .ofOffset text.toList x.1⟩) ∧
      s.stop = .ofOffset text.toList text.toList.length ∧
      (ts.map Prod.fst ++ [text.toList.length]).Pairwise (· < ·) ∧
      Tiled 0 text.toList ts) ∧
    ∀ ds, lex text = .error ds →
      ds ≠ [] ∧ ∀ d ∈ ds, ∃ n < text.toList.length, d.loc = .ofOffset text.toList n := by
  obtain ⟨ps, hrun, htext⟩ :=
    Lexed.exists_run text.toList .start text.toList 0 rfl rfl (Nat.zero_le _)
  change Lexed.ofText text = _ at htext
  refine ⟨⟨ps, hrun, htext⟩, fun s hs => ?_, fun ds hds => ?_⟩
  · obtain ⟨hfaults, rfl⟩ := lex_eq_ok_iff.1 hs
    rw [htext] at hfaults ⊢
    obtain ⟨htiled, -⟩ := hrun.tiled (List.map_eq_nil_iff.1 hfaults)
    have hincreasing := htiled.increasing.2
    rw [Nat.zero_add] at hincreasing
    exact ⟨Lexed.tokensIn ps, rfl, rfl, hincreasing, htiled⟩
  · obtain ⟨hne, rfl⟩ := lex_eq_error_iff.1 hds
    refine ⟨hne, fun d hd => ?_⟩
    rw [htext] at hd
    obtain ⟨x, hx, rfl⟩ := List.mem_map.1 hd
    exact ⟨x.1, hrun.faults_within x hx, rfl⟩

/-- A comment over two lines, and one without an end. -/
def commentedText : String := "x/* a\nb */ = 'y'\n// end"

/-- A literal with an escaped line feed, and one that is not closed. -/
def faultyText : String := "\"\\\n\" 'b"

theorem lex_places_sample :
    (∃ s, lex commentedText = .ok s ∧
      s.tokens.map Token.loc ++ [s.stop] = [⟨1, 1⟩, ⟨2, 6⟩, ⟨2, 8⟩, ⟨3, 7⟩] ∧
      ∃ ts : List (Nat × Kind),
        s.tokens = ts.map (fun x => ⟨x.2, .ofOffset commentedText.toList x.1⟩) ∧
        (ts.map Prod.fst ++ [commentedText.toList.length]).Pairwise (· < ·) ∧
        Tiled 0 commentedText.toList ts) ∧
    ∃ ds, lex faultyText = .error ds ∧ ds.map Diagnostic.loc = [⟨1, 3⟩, ⟨2, 3⟩] ∧
      ∀ d ∈ ds, ∃ n < faultyText.toList.length, d.loc = .ofOffset faultyText.toList n := by
  constructor
  · have hfaults : (Lexed.ofText commentedText).faults = [] := by decide +kernel
    have hlocs :
        (Lexed.ofText commentedText).tokens.map Token.loc ++ [(Lexed.ofText commentedText).stop] =
        [⟨1, 1⟩, ⟨2, 6⟩, ⟨2, 8⟩, ⟨3, 7⟩] := by decide +kernel
    have hok := lex_eq_ok_iff.2 ⟨hfaults, rfl⟩
    obtain ⟨ts, htokens, -, hincreasing, htiled⟩ := (lex_places commentedText).2.1 _ hok
    exact ⟨_, hok, hlocs, ts, htokens, hincreasing, htiled⟩
  · have hlocs : (Lexed.ofText faultyText).faults.map Diagnostic.loc = [⟨1, 3⟩, ⟨2, 3⟩] := by
      decide +kernel
    have hne : (Lexed.ofText faultyText).faults ≠ [] := by
      intro hnil
      rw [hnil] at hlocs
      cases hlocs
    have herror := lex_eq_error_iff.2 ⟨hne, rfl⟩
    exact ⟨_, herror, hlocs, ((lex_places faultyText).2.2 _ herror).2⟩

end SplFrontend
