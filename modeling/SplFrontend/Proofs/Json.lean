import SplFrontend.Json.Printing
import SplFrontend.Json.Reading
import SplFrontend.Proofs.Text

/-!
# JSON documents are read back

`parse?` gives back every document that `render` writes, if its numbers are numbers and its strings
are texts (`parse_render`). The statement for a value says what may follow it: anything but a
character that could extend a number. The layout never matters, since every reader skips the blanks
after what it reads.
-/

namespace SplFrontend.Json

open Reading

/-! ## Strings -/

theorem hexFour_of_lt :
    ∀ n : Fin 32, hexFour n = ['0', '0', Nat.digitChar (n / 16), Nat.digitChar (n % 16)] ∧
    hexUnit? '0' '0' (Nat.digitChar (n / 16)) (Nat.digitChar (n % 16)) = some n.val := by decide

theorem quotedChar_cases (c : Char) :
    (∃ l, quotedChar c = ['\\', l] ∧ l ≠ 'u' ∧ escape? l = some c) ∨
      (c.toNat < 32 ∧ quotedChar c = '\\' :: 'u' :: hexFour c.toNat) ∨
      (quotedChar c = [c] ∧ ¬ c.toNat < 32 ∧ c ≠ '"' ∧ c ≠ '\\') := by
  generalize hq : quotedChar c = q
  unfold quotedChar at hq
  split at hq
  · exact .inl ⟨'"', hq.symm, by decide, rfl⟩
  · exact .inl ⟨'\\', hq.symm, by decide, rfl⟩
  · exact .inl ⟨'b', hq.symm, by decide, rfl⟩
  · exact .inl ⟨'f', hq.symm, by decide, rfl⟩
  · exact .inl ⟨'n', hq.symm, by decide, rfl⟩
  · exact .inl ⟨'r', hq.symm, by decide, rfl⟩
  · exact .inl ⟨'t', hq.symm, by decide, rfl⟩
  · next hquote hback _ _ _ _ _ =>
    split at hq
    · next hlt => exact .inr (.inl ⟨hlt, hq.symm⟩)
    · next hlt => exact .inr (.inr ⟨hq.symm, hlt, hquote, hback⟩)

theorem gives_codes_quotedChar (c : Char) {cs r : List Char} {ns : List Nat}
    (h : (codes cs).Gives ns r) : (codes (quotedChar c ++ cs)).Gives (c.toNat :: ns) r := by
  rcases quotedChar_cases c with ⟨l, hq, hu, hl⟩ | ⟨hlt, hq⟩ | ⟨hq, hlt, hquote, hback⟩
  · rw [hq, List.cons_append, List.cons_append, List.nil_append,
      codes.eq_4 l cs fun _ _ _ _ _ hl _ => hu hl, hl]
    exact gives_within.2 (gives_map.2 ⟨ns, h, rfl⟩)
  · obtain ⟨hhex, hunit⟩ := hexFour_of_lt ⟨c.toNat, hlt⟩
    rw [hq, hhex, List.cons_append, List.cons_append, List.cons_append, List.cons_append,
      List.cons_append, List.cons_append, List.nil_append, codes, hunit]
    exact gives_within.2 (gives_map.2 ⟨ns, h, rfl⟩)
  · rw [hq, List.cons_append, List.nil_append, codes.eq_5 c cs hquote
      (fun _ _ _ _ _ hc _ => hback hc) (fun _ _ hc _ => hback hc), if_neg hlt]
    exact gives_under.2 (gives_map.2 ⟨ns, h, rfl⟩)

theorem gives_codes_quoted (cs r : List Char) :
    (codes (cs.flatMap quotedChar ++ '"' :: r)).Gives (cs.map Char.toNat) (Text.skipBlanks r) := by
  induction cs with
  | nil => exact Text.Gives.trimmed (gives_take.2 ⟨rfl, rfl⟩)
  | cons c cs ih =>
    rw [List.flatMap_cons, List.append_assoc]
    exact gives_codes_quotedChar c ih

/-- No character is half of a surrogate pair. -/
theorem not_half (c : Char) : isHighHalf c.toNat = false ∧ isLowHalf c.toNat = false := by
  have hc := c.valid
  simp only [UInt32.isValidChar, Nat.isValidChar] at hc
  change c.toNat < 0xD800 ∨ 0xDFFF < c.toNat ∧ c.toNat < 0x110000 at hc
  simp only [isHighHalf, isLowHalf, Bool.and_eq_false_iff, decide_eq_false_iff_not]
  omega

theorem joined_map_toNat : ∀ cs : List Char, joined (cs.map Char.toNat) = some cs
  | [] => rfl
  | [c] => by simp [joined, not_half c]
  | c :: d :: cs => by
    have ih := joined_map_toNat (d :: cs)
    simp only [List.map_cons] at ih
    simp [joined, not_half c, ih]

theorem gives_string (s : String) (r : List Char) :
    (string (s.toList.flatMap quotedChar ++ '"' :: r)).Gives (some s) (Text.skipBlanks r) := by
  refine gives_map.2 ⟨_, gives_codes_quoted s.toList r, ?_⟩
  rw [joined_map_toNat, Option.map_some, String.ofList_toList]

/-! ## Numbers -/

/-- What follows does not extend a number. -/
def EndsNumber (r : List Char) : Prop := ∀ c ∈ r.head?, isNumberChar c = false

theorem span_number {cs r : List Char} (hcs : ∀ c ∈ cs, isNumberChar c = true) (hr : EndsNumber r) :
    (cs ++ r).takeWhile isNumberChar = cs ∧ (cs ++ r).dropWhile isNumberChar = r := by
  rw [List.takeWhile_append_of_pos hcs, List.dropWhile_append_of_pos hcs]
  cases r with
  | nil => simp
  | cons c r => simp [hr c rfl]

theorem gives_numeral {cs r : List Char} (hn : isNumber cs = true)
    (hcs : ∀ c ∈ cs, isNumberChar c = true) (hr : EndsNumber r) :
    (numeral (cs ++ r)).Gives (.number (String.ofList cs)) (Text.skipBlanks r) := by
  cases cs with
  | nil => cases hn
  | cons c cs =>
    obtain ⟨htake, hdrop⟩ := span_number (List.forall_mem_cons.1 hcs).2 hr
    simp only [List.cons_append, numeral, htake, hdrop, hn, if_true]
    exact Text.Gives.trimmed (gives_ok.2 ⟨rfl, rfl⟩)

/-- A character of a number starts nothing else. -/
theorem leaf_of_isNumberChar {c : Char} (hc : isNumberChar c = true) (cs : List Char) :
    leaf (c :: cs) = numeral (c :: cs) := by
  have hne : ∀ d, isNumberChar d = false → ∀ ds, c :: cs = d :: ds → False := by
    intro d hd ds heq
    cases heq
    rw [hd] at hc
    cases hc
  exact leaf.eq_5 _ (hne '"' rfl) (hne 'n' rfl) (hne 't' rfl) (hne 'f' rfl)

/-! ## Values -/

mutual

/-- The numbers in the value are numbers and its strings are texts. -/
def Plain : Json → Prop
  | null | bool _ | text _ => True
  | number s => isNumber s.toList = true ∧ ∀ c ∈ s.toList, isNumberChar c = true
  | brokenText => False
  | array elems => PlainElems elems
  | object members => PlainMembers members

def PlainElems : List Json → Prop
  | [] => True
  | v :: vs => v.Plain ∧ PlainElems vs

def PlainMembers : List (Option String × Json) → Prop
  | [] => True
  | (key, v) :: ms => key.isSome = true ∧ v.Plain ∧ PlainMembers ms

end

theorem skipBlanks_newline (depth : Nat) (cs : List Char) :
    Text.skipBlanks ((newline depth).toList ++ cs) = Text.skipBlanks cs := by
  rw [newline, String.toList_ofList, List.cons_append, Text.skipBlanks_blank rfl,
    Text.skipBlanks_replicate]

theorem endsNumber_newline (depth : Nat) (cs : List Char) :
    EndsNumber ((newline depth).toList ++ cs) := by
  intro c hc
  rw [newline, String.toList_ofList] at hc
  cases hc
  rfl

/-- Entries on lines of their own, up to the closing bracket. -/
def linesText (depth last : Nat) (close : Char) (entries : List String) (r : List Char) :
    List Char :=
  (("," ++ newline depth).intercalate entries).toList ++ ((newline last).toList ++ close :: r)

theorem linesText_singleton (depth last : Nat) (close : Char) (x : String) (r : List Char) :
    linesText depth last close [x] r = x.toList ++ ((newline last).toList ++ close :: r) := by
  rw [linesText, String.intercalate_singleton]

theorem linesText_cons (depth last : Nat) (close : Char) (x y : String) (xs : List String)
    (r : List Char) : linesText depth last close (x :: y :: xs) r =
      x.toList ++ ',' :: ((newline depth).toList ++ linesText depth last close (y :: xs) r) := by
  simp only [linesText, String.intercalate_cons_cons, String.toList_append, List.append_assoc]
  rfl

theorem starts_linesText {x : String} {c : Char} {cs : List Char} (hx : x.toList = c :: cs)
    (depth last : Nat) (close : Char) (xs : List String) (r : List Char) :
    ∃ ds, linesText depth last close (x :: xs) r = c :: ds := by
  cases xs with
  | nil =>
    rw [linesText_singleton, hx, List.cons_append]
    exact ⟨_, rfl⟩
  | cons y xs =>
    rw [linesText_cons, hx, List.cons_append]
    exact ⟨_, rfl⟩

theorem toList_block {left right : String} (c d : Char) (hl : left.toList = [c])
    (hr : right.toList = [d]) (depth : Nat) (x : String) (xs : List String) (r : List Char) :
    (block left right depth (x :: xs)).toList ++ r =
      c :: ((newline (depth + 1)).toList ++ linesText (depth + 1) depth d (x :: xs) r) := by
  simp only [block, linesText, String.toList_append, List.append_assoc, hl, hr, List.cons_append,
    List.nil_append]

/-- A value can start with the character. -/
abbrev Starts (c : Char) : Prop := Text.isPlainBlank c = false ∧ c ≠ ']'

theorem starts_of_isNumberChar {c : Char} (hc : isNumberChar c = true) : Starts c := by
  have hne : ∀ d, isNumberChar d = false → c ≠ d := by
    intro d hd heq
    rw [heq, hd] at hc
    cases hc
  refine ⟨?_, hne ']' rfl⟩
  simp [Text.isPlainBlank, hne ' ' rfl, hne '\t' rfl, hne '\n' rfl, hne '\r' rfl]

theorem toList_quoted (s : String) :
    (quoted s).toList = '"' :: (s.toList.flatMap quotedChar ++ ['"']) := by
  rw [quoted, String.toList_ofList, List.cons_append]

theorem starts_block {left right : String} (c d : Char) (hl : left.toList = [c])
    (hr : right.toList = [d]) (depth : Nat) (entries : List String) :
    ∃ cs, (block left right depth entries).toList = c :: cs := by
  cases entries with
  | nil =>
    rw [block, String.toList_append, hl]
    exact ⟨_, rfl⟩
  | cons x xs =>
    have h := toList_block c d hl hr depth x xs []
    rw [List.append_nil] at h
    exact ⟨_, h⟩

theorem starts_renderAt (depth : Nat) {v : Json} (h : v.Plain) :
    ∃ c cs, (v.renderAt depth).toList = c :: cs ∧ Starts c := by
  cases v with
  | null => exact ⟨'n', "ull".toList, by rw [renderAt]; rfl, by decide⟩
  | bool b =>
    cases b with
    | true => exact ⟨'t', "rue".toList, by rw [renderAt]; rfl, by decide⟩
    | false => exact ⟨'f', "alse".toList, by rw [renderAt]; rfl, by decide⟩
  | number s =>
    obtain ⟨hn, hs⟩ := h
    rw [renderAt]
    cases hl : s.toList with
    | nil =>
      rw [hl] at hn
      cases hn
    | cons c cs => exact ⟨c, cs, rfl, starts_of_isNumberChar (hs c (by simp [hl]))⟩
  | text s => exact ⟨'"', _, by rw [renderAt, toList_quoted], by decide⟩
  | brokenText => exact h.elim
  | array elems =>
    rw [renderAt]
    obtain ⟨cs, hcs⟩ :
        ∃ cs, (block "[" "]" depth (renderElems (depth + 1) elems)).toList = '[' :: cs :=
      starts_block '[' ']' rfl rfl depth _
    exact ⟨'[', cs, hcs, by decide⟩
  | object members =>
    rw [renderAt]
    obtain ⟨cs, hcs⟩ :
        ∃ cs, (block "\x7b" "\x7d" depth (renderMembers (depth + 1) members)).toList =
        '{' :: cs :=
      starts_block '{' '}' rfl rfl depth _
    exact ⟨'{', cs, hcs, by decide⟩

/-- The value is read back in front of everything that does not extend a number. -/
def Back (depth : Nat) (v : Json) : Prop :=
  ∀ r, EndsNumber r → (value ((v.renderAt depth).toList ++ r)).Gives v (Text.skipBlanks r)

theorem value_leaf {c : Char} (ha : c ≠ '[') (ho : c ≠ '{') (cs : List Char) :
    value (c :: cs) = leaf (c :: cs) := by
  rw [value, if_neg ha, if_neg ho]

theorem back_word (depth : Nat) {v : Json} {c : Char} {cs : List Char}
    (hv : (v.renderAt depth).toList = c :: cs) (ha : c ≠ '[') (ho : c ≠ '{')
    (hl : ∀ r, leaf (c :: (cs ++ r)) = (Text.word (c :: cs) () (c :: (cs ++ r))).map fun _ => v) :
    Back depth v := by
  intro r _
  rw [hv, List.cons_append, value_leaf ha ho, hl]
  exact gives_map.2 ⟨(), Text.gives_word (List.cons_ne_nil c cs) () r, rfl⟩

theorem back_number (depth : Nat) {s : String} (h : (number s).Plain) : Back depth (number s) := by
  intro r hr
  obtain ⟨hn, hs⟩ := h
  have hread := gives_numeral hn hs hr
  rw [String.ofList_toList] at hread
  rw [renderAt]
  cases hl : s.toList with
  | nil =>
    rw [hl] at hn
    cases hn
  | cons c cs =>
    have hc : isNumberChar c = true := hs c (by simp [hl])
    have hne : ∀ d, isNumberChar d = false → c ≠ d := by
      intro d hd heq
      rw [heq, hd] at hc
      cases hc
    rw [hl, List.cons_append] at hread
    rwa [List.cons_append, value_leaf (hne '[' rfl) (hne '{' rfl), leaf_of_isNumberChar hc]

theorem back_text (depth : Nat) (s : String) : Back depth (text s) := by
  intro r _
  rw [renderAt, toList_quoted, List.cons_append, List.append_assoc,
    value_leaf (by decide) (by decide)]
  exact gives_under.2 (gives_map.2 ⟨some s, gives_string s r, rfl⟩)

/-! ## Arrays -/

/-- The comma before the next entry. -/
theorem gives_comma {c : Char} {ds : List Char} (hc : Text.isPlainBlank c = false) (depth : Nat) :
    (Text.mark ',' () (',' :: ((newline depth).toList ++ c :: ds))).Gives () (c :: ds) := by
  have h := Text.gives_mark ',' () ((newline depth).toList ++ c :: ds)
  rwa [skipBlanks_newline, Text.skipBlanks_cons hc] at h

theorem not_gives_map_mark {β : Type} {c d : Char} (h : d ≠ c) (f : Unit → β) (cs : List Char) :
    ∀ a r, ¬ ((Text.mark c () (d :: cs)).map f).Gives a r := by
  intro a r hgives
  obtain ⟨u, hu, -⟩ := gives_map.1 hgives
  exact Text.not_gives_mark h () cs u r hu

theorem renderElems_eq_map (depth : Nat) (vs : List Json) :
    renderElems depth vs = vs.map (renderAt depth) := by
  induction vs with
  | nil => rfl
  | cons v vs ih => rw [renderElems, ih, List.map_cons]

theorem gives_moreElements (depth last : Nat) (r : List Char) : ∀ (v : Json) (vs : List Json),
    (∀ w ∈ v :: vs, w.Plain ∧ Back depth w) →
    (moreElements (linesText depth last ']' ((v :: vs).map (renderAt depth)) r)).Gives (v :: vs)
      (Text.skipBlanks r)
  | v, [], h => by
    have hv :=
      (h v List.mem_cons_self).2 ((newline last).toList ++ ']' :: r) (endsNumber_newline _ _)
    rw [skipBlanks_newline, Text.skipBlanks_cons rfl] at hv
    rw [List.map_cons, List.map_nil, linesText_singleton, moreElements]
    refine hv.bind fun _ => Gives.orElse ?_ _
    exact gives_map.2 ⟨(), Text.gives_mark ']' () r, rfl⟩
  | v, w :: vs, h => by
    have hvs := List.forall_mem_cons.1 h
    have ih := gives_moreElements depth last r w vs hvs.2
    obtain ⟨c, cs, hw, hc⟩ := starts_renderAt depth (hvs.2 w List.mem_cons_self).1
    obtain ⟨ds, hds⟩ := starts_linesText hw depth last ']' (vs.map (renderAt depth)) r
    rw [List.map_cons, hds] at ih
    have hv := hvs.1.2 (',' :: ((newline depth).toList ++ c :: ds)) (fun d hd => by cases hd; rfl)
    rw [Text.skipBlanks_cons rfl] at hv
    rw [List.map_cons, List.map_cons, linesText_cons, hds, moreElements]
    refine hv.bind fun _ => ?_
    rw [orElse_of_not_gives (not_gives_map_mark (by decide) _ _)]
    exact (gives_comma hc.1 depth).bind fun _ => gives_map.2 ⟨_, ih, rfl⟩

theorem gives_array {cs r : List Char} {vs : List Json}
    (h : (elements (Text.skipBlanks cs)).Gives vs r) :
    (value ('[' :: cs)).Gives (array vs) r := by
  rw [value, if_pos rfl]
  exact gives_map.2 ⟨vs, gives_under.2 (Text.gives_afterBlanks.2 h), rfl⟩

theorem back_array (depth : Nat) {vs : List Json} (h : ∀ v ∈ vs, v.Plain ∧ Back (depth + 1) v) :
    Back depth (array vs) := by
  intro r _
  rw [renderAt, renderElems_eq_map]
  cases vs with
  | nil =>
    rw [List.map_nil, block, String.toList_append]
    change (value ('[' :: ']' :: r)).Gives _ _
    refine gives_array ?_
    rw [Text.skipBlanks_cons rfl, elements]
    refine Gives.orElse ?_ _
    exact gives_map.2 ⟨(), Text.gives_mark ']' () r, rfl⟩
  | cons v vs =>
    have helems := gives_moreElements (depth + 1) depth r v vs h
    obtain ⟨c, cs, hv, hc⟩ := starts_renderAt (depth + 1) (h v List.mem_cons_self).1
    obtain ⟨ds, hds⟩ := starts_linesText hv (depth + 1) depth ']' (vs.map (renderAt (depth + 1))) r
    rw [List.map_cons, hds] at helems
    rw [List.map_cons, toList_block '[' ']' rfl rfl, hds]
    refine gives_array ?_
    rw [skipBlanks_newline, Text.skipBlanks_cons hc.1, elements,
      orElse_of_not_gives (not_gives_map_mark hc.2 _ _)]
    exact helems

/-! ## Objects -/

/-- The text of a member. -/
def memberText (depth : Nat) (m : Option String × Json) : String :=
  quoted? m.1 ++ ": " ++ m.2.renderAt depth

theorem renderMembers_eq_map (depth : Nat) (ms : List (Option String × Json)) :
    renderMembers depth ms = ms.map (memberText depth) := by
  induction ms with
  | nil => rfl
  | cons m ms ih =>
    obtain ⟨key, v⟩ := m
    rw [renderMembers, ih, List.map_cons, memberText]

/-- What holds of the members of a value that is read back. -/
def MemberBack (depth : Nat) (m : Option String × Json) : Prop :=
  m.1.isSome = true ∧ m.2.Plain ∧ Back depth m.2

theorem toList_memberText (depth : Nat) (k : String) (v : Json) :
    (memberText depth (some k, v)).toList =
    '"' :: (k.toList.flatMap quotedChar ++ '"' :: ':' :: ' ' :: (v.renderAt depth).toList) := by
  simp only [memberText, quoted?, String.toList_append, toList_quoted, List.append_assoc,
    List.cons_append, List.nil_append]
  rfl

theorem gives_key (k : String) {cs : List Char} {c : Char} (hc : Text.isPlainBlank c = false) :
    (key ('"' :: (k.toList.flatMap quotedChar ++ '"' :: ':' :: ' ' :: c :: cs))).Gives (some k)
      (c :: cs) := by
  have hstring := gives_string k (':' :: ' ' :: c :: cs)
  rw [Text.skipBlanks_cons rfl] at hstring
  have hcolon := Text.gives_mark ':' () (' ' :: c :: cs)
  rw [Text.skipBlanks_blank rfl, Text.skipBlanks_cons hc] at hcolon
  exact gives_under.2 (hstring.bind fun _ => gives_map.2 ⟨(), hcolon, rfl⟩)

/-- A member is its key, and then its value. -/
theorem gives_member {depth : Nat} {m : Option String × Json} (hm : MemberBack depth m)
    {r : List Char} (hr : EndsNumber r) :
    ∃ s, (key ((memberText depth m).toList ++ r)).Gives m.1 s ∧
      (value s).Gives m.2 (Text.skipBlanks r) := by
  obtain ⟨key, v⟩ := m
  obtain ⟨hkey, hplain, hback⟩ := hm
  obtain ⟨k, rfl⟩ := Option.isSome_iff_exists.1 hkey
  obtain ⟨c, cs, hv, hc⟩ := starts_renderAt depth hplain
  have hvalue := hback r hr
  simp only at hv hvalue
  rw [hv, List.cons_append] at hvalue
  refine ⟨_, ?_, hvalue⟩
  rw [toList_memberText, hv, List.cons_append, List.append_assoc]
  exact gives_key k hc.1

theorem starts_memberText {depth : Nat} {m : Option String × Json} (hm : MemberBack depth m) :
    ∃ cs, (memberText depth m).toList = '"' :: cs := by
  obtain ⟨key, v⟩ := m
  obtain ⟨k, rfl⟩ := Option.isSome_iff_exists.1 hm.1
  exact ⟨_, toList_memberText depth k v⟩

theorem gives_moreMembers (depth last : Nat) (r : List Char) :
    ∀ (m : Option String × Json) (ms : List (Option String × Json)),
    (∀ n ∈ m :: ms, MemberBack depth n) →
    (moreMembers (linesText depth last '}' ((m :: ms).map (memberText depth)) r)).Gives (m :: ms)
      (Text.skipBlanks r)
  | m, [], h => by
    obtain ⟨s, hkey, hvalue⟩ := gives_member (h m List.mem_cons_self)
      (endsNumber_newline last ('}' :: r))
    rw [skipBlanks_newline, Text.skipBlanks_cons rfl] at hvalue
    rw [List.map_cons, List.map_nil, linesText_singleton, moreMembers]
    refine hkey.bind fun _ => hvalue.bind fun _ => Gives.orElse ?_ _
    exact gives_map.2 ⟨(), Text.gives_mark '}' () r, rfl⟩
  | m, n :: ms, h => by
    have hms := List.forall_mem_cons.1 h
    have ih := gives_moreMembers depth last r n ms hms.2
    obtain ⟨cs, hn⟩ := starts_memberText (hms.2 n List.mem_cons_self)
    obtain ⟨ds, hds⟩ := starts_linesText hn depth last '}' (ms.map (memberText depth)) r
    rw [List.map_cons, hds] at ih
    obtain ⟨s, hkey, hvalue⟩ := gives_member hms.1
      (show EndsNumber (',' :: ((newline depth).toList ++ '"' :: ds))
        from fun d hd => by cases hd; rfl)
    rw [Text.skipBlanks_cons rfl] at hvalue
    rw [List.map_cons, List.map_cons, linesText_cons, hds, moreMembers]
    refine hkey.bind fun _ => hvalue.bind fun _ => ?_
    rw [orElse_of_not_gives (not_gives_map_mark (by decide) _ _)]
    exact (gives_comma rfl depth).bind fun _ => gives_map.2 ⟨_, ih, rfl⟩

theorem gives_object {cs r : List Char} {ms : List (Option String × Json)}
    (h : (members (Text.skipBlanks cs)).Gives ms r) : (value ('{' :: cs)).Gives (object ms) r := by
  rw [value, if_neg (by decide), if_pos rfl]
  exact gives_map.2 ⟨ms, gives_under.2 (Text.gives_afterBlanks.2 h), rfl⟩

theorem back_object (depth : Nat) {ms : List (Option String × Json)}
    (h : ∀ m ∈ ms, MemberBack (depth + 1) m) : Back depth (object ms) := by
  intro r _
  rw [renderAt, renderMembers_eq_map]
  cases ms with
  | nil =>
    rw [List.map_nil, block, String.toList_append]
    change (value ('{' :: '}' :: r)).Gives _ _
    refine gives_object ?_
    rw [Text.skipBlanks_cons rfl, members]
    refine Gives.orElse ?_ _
    exact gives_map.2 ⟨(), Text.gives_mark '}' () r, rfl⟩
  | cons m ms =>
    have hmembers := gives_moreMembers (depth + 1) depth r m ms h
    obtain ⟨cs, hm⟩ := starts_memberText (h m List.mem_cons_self)
    obtain ⟨ds, hds⟩ :=
      starts_linesText hm (depth + 1) depth '}' (ms.map (memberText (depth + 1))) r
    rw [List.map_cons, hds] at hmembers
    rw [List.map_cons, toList_block '{' '}' rfl rfl, hds]
    refine gives_object ?_
    rw [skipBlanks_newline, Text.skipBlanks_cons rfl, members,
      orElse_of_not_gives (not_gives_map_mark (by decide) _ _)]
    exact hmembers

/-! ## Documents -/

mutual

theorem back (depth : Nat) : ∀ {v : Json}, v.Plain → Back depth v
  | .null, _ => back_word depth (by rw [renderAt]; rfl) (by decide) (by decide) fun _ => rfl
  | .bool true, _ => back_word depth (by rw [renderAt]; rfl) (by decide) (by decide) fun _ => rfl
  | .bool false, _ => back_word depth (by rw [renderAt]; rfl) (by decide) (by decide) fun _ => rfl
  | .number _, h => back_number depth h
  | .text s, _ => back_text depth s
  | .brokenText, h => h.elim
  | .array _, h => back_array depth (backElems (depth + 1) h)
  | .object _, h => back_object depth (backMembers (depth + 1) h)

theorem backElems (depth : Nat) :
    ∀ {vs : List Json}, PlainElems vs → ∀ v ∈ vs, v.Plain ∧ Back depth v
  | [], _ => fun _ hv => by cases hv
  | _ :: _, h => List.forall_mem_cons.2 ⟨⟨h.1, back depth h.1⟩, backElems depth h.2⟩

theorem backMembers (depth : Nat) : ∀ {ms : List (Option String × Json)}, PlainMembers ms →
    ∀ m ∈ ms, MemberBack depth m
  | [], _ => fun _ hm => by cases hm
  | (_, _) :: _, h =>
    List.forall_mem_cons.2 ⟨⟨h.1, h.2.1, back depth h.2.1⟩, backMembers depth h.2.2⟩

end

theorem parse_of_gives {text : String} {v : Json}
    (h : (value (Text.skipBlanks text.toList)).Gives v []) : parse? text = some v := by
  obtain ⟨hlt, hv⟩ := h
  rw [parse?, hv]

/-- A document that was written is read back. -/
theorem parse_render {v : Json} (h : v.Plain) : parse? v.render = some v := by
  obtain ⟨c, cs, hv, hc⟩ := starts_renderAt 0 h
  have hback := back 0 h [] (fun c hc => by cases hc)
  rw [List.append_nil, hv] at hback
  apply parse_of_gives
  rw [render, hv, Text.skipBlanks_cons hc.1]
  exact hback

end SplFrontend.Json
