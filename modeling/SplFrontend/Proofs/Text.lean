import SplFrontend.Proofs.Reading
import SplFrontend.Text.Reading

/-!
# What the readers of characters give

Marks and words, with the blanks after them. Each fact comes in two forms: the reader gives what
stands in front of it, and it gives nothing in front of something else.
-/

namespace SplFrontend.Text

open Reading

variable {ε α : Type} {cs r : List Char} {c : Char}

theorem skipBlanks_cons (h : isPlainBlank c = false) (cs : List Char) :
    skipBlanks (c :: cs) = c :: cs := by
  rw [skipBlanks, List.dropWhile_cons, if_neg (by simp [h])]

theorem skipBlanks_blank (h : isPlainBlank c = true) (cs : List Char) :
    skipBlanks (c :: cs) = skipBlanks cs := by
  rw [skipBlanks, List.dropWhile_cons, if_pos h, skipBlanks]

theorem skipBlanks_replicate (n : Nat) (cs : List Char) :
    skipBlanks (List.replicate n ' ' ++ cs) = skipBlanks cs := by
  induction n with
  | zero => rfl
  | succ n ih => rw [List.replicate_succ, List.cons_append, skipBlanks_blank rfl, ih]

theorem Gives.trimmed {x : Reading Char ε α cs} {a : α} (h : x.Gives a r) :
    (Text.trimmed x).Gives a (skipBlanks r) := by
  obtain ⟨h, rfl⟩ := h
  exact gives_ok.2 ⟨rfl, rfl⟩

theorem Gives.of_trimmed {x : Reading Char ε α cs} {a : α} (h : (Text.trimmed x).Gives a r) :
    ∃ s, x.Gives a s ∧ skipBlanks s = r := by
  cases x with
  | ok b s hlt =>
    obtain ⟨rfl, hs⟩ := gives_ok.1 h
    exact ⟨s, gives_ok.2 ⟨rfl, rfl⟩, hs⟩
  | fault e s hle => exact absurd h not_gives_fault

theorem gives_afterBlanks {x : Reading Char ε α (skipBlanks cs)} {a : α} :
    (afterBlanks x).Gives a r ↔ x.Gives a r := gives_within

theorem gives_mark (c : Char) (e : ε) (cs : List Char) :
    (mark c e (c :: cs)).Gives () (skipBlanks cs) := by
  rw [mark, if_pos rfl]
  exact Gives.trimmed (gives_take.2 ⟨rfl, rfl⟩)

theorem not_gives_mark {d : Char} (h : d ≠ c) (e : ε) (cs : List Char) :
    ∀ u r, ¬ (mark c e (d :: cs)).Gives u r := by
  intro u r
  rw [mark, if_neg h]
  exact not_gives_stay

theorem gives_word {w : List Char} (hw : w ≠ []) (e : ε) (cs : List Char) :
    (word w e (w ++ cs)).Gives () (skipBlanks cs) := by
  rw [word, dif_pos ⟨List.prefix_append .., hw⟩]
  refine Gives.trimmed (gives_ok.2 ⟨rfl, ?_⟩)
  exact List.drop_left

theorem not_gives_word {w : List Char} (h : ¬ w <+: cs) (e : ε) :
    ∀ u r, ¬ (word w e cs).Gives u r := by
  intro u r
  rw [word, dif_neg fun hw => h hw.1]
  exact not_gives_stay

end SplFrontend.Text
