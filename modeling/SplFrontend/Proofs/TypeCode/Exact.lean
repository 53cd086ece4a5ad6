import SplFrontend.Proofs.Except
import SplFrontend.Proofs.TypeCode.Tokens

/-!
# What type code is read

A type has one list of tokens, and so has a signature. A reader gives a value exactly where its text
starts with the tokens of the value, so `Ty.ofCode` and `Signature.ofCode` accept the codes that
`Ty.code` and `Signature.code` write, with any blanks between their tokens, and nothing else. The
alternatives of a type start with words of which none begins another, so at most one of them gives a
value.
-/

namespace SplFrontend

open Reading

namespace TyCode

open Text (skipBlanks)

variable {α : Type} {cs r s : List Char}

/-! ## Words, marks and names -/

theorem gives_mark_iff {w : String} {c : Char} (hw : w.toList = [c]) {e : CodeMiss} :
    (Text.mark c e cs).Gives () r ↔ Lexes [w] cs r := by
  rw [lexes_mark hw]
  constructor
  · intro h
    cases cs with
    | nil => exact absurd h not_gives_stay
    | cons d ds =>
      by_cases hd : d = c
      · subst hd
        exact ⟨ds, rfl, ((Text.gives_mark d e ds).unique h).2⟩
      · exact absurd h (Text.not_gives_mark hd e ds () r)
  · rintro ⟨ds, rfl, rfl⟩
    exact Text.gives_mark c e ds

theorem gives_word_iff {w : String} (hw : w.toList ≠ []) {e : CodeMiss} :
    (Text.word w.toList e cs).Gives () r ↔ Lexes [w] cs r := by
  constructor
  · intro h
    by_cases hp : w.toList <+: cs
    · obtain ⟨ds, rfl⟩ := hp
      exact ⟨ds, rfl, ((Text.gives_word hw e ds).unique h).2⟩
    · exact absurd h (Text.not_gives_word hp e () r)
  · rintro ⟨ds, rfl, rfl⟩
    exact Text.gives_word hw e ds

theorem nameTail_cases {ns : List Char} (h : (nameTail cs).Gives ns r) :
    (∀ c ∈ ns, isNameChar c = true) ∧ ∃ ds, cs = ns ++ '"' :: ds ∧ skipBlanks ds = r := by
  induction cs generalizing ns with
  | nil => exact absurd h not_gives_stay
  | cons c cs ih =>
    rw [nameTail] at h
    split at h
    · next hc =>
      obtain ⟨ns', h', rfl⟩ := gives_map.1 (gives_under.1 h)
      obtain ⟨hns, ds, rfl, hds⟩ := ih h'
      exact ⟨List.forall_mem_cons.2 ⟨hc, hns⟩, ds, rfl, hds⟩
    · split at h
      · next hc =>
        obtain ⟨ds, hds, hr⟩ := Text.Gives.of_trimmed h
        obtain ⟨rfl, rfl⟩ := gives_take.1 hds
        exact ⟨List.forall_mem_nil _, cs, by rw [hc]; rfl, hr⟩
      · exact absurd h not_gives_stay

theorem gives_quotedName_iff {name : String} :
    (quotedName cs).Gives name r ↔ IsName name ∧ Lexes [quote name] cs r := by
  constructor
  · intro h
    unfold quotedName at h
    split at h
    · next ds =>
      split at h
      · next hhead =>
        obtain ⟨ns, hns, rfl⟩ := gives_map.1 (gives_under.1 h)
        obtain ⟨hchars, es, rfl, hr⟩ := nameTail_cases hns
        have hne : ns ≠ [] := by
          rintro rfl
          exact Bool.false_ne_true hhead
        refine ⟨⟨by rwa [String.toList_ofList], by rwa [String.toList_ofList]⟩, es, ?_, hr⟩
        rw [toList_quote, String.toList_ofList, List.cons_append, List.append_assoc]
        rfl
      · exact absurd (gives_under.1 h) not_gives_stay
    · exact absurd h not_gives_stay
  · rintro ⟨hname, ds, rfl, rfl⟩
    have hread := gives_quotedName hname ds
    rwa [toList_quote, List.cons_append, List.append_assoc]

/-! ## Fields and constructors -/

theorem gives_field_iff {key : String} (hkey : key.toList ≠ []) :
    (field key cs).Gives () r ↔ Lexes [key, "="] cs r := by
  constructor
  · intro h
    obtain ⟨⟨⟩, s, hword, -, hmark⟩ := gives_bind.1 h
    exact lexes_cons.2 ⟨s, (gives_word_iff hkey).1 hword, (gives_mark_iff (by decide)).1 hmark⟩
  · intro h
    obtain ⟨s, hword, hmark⟩ := lexes_cons.1 h
    exact ((gives_word_iff hkey).2 hword).bind fun _ => (gives_mark_iff (by decide)).2 hmark

/-- A constructor is read as its word, its fields and its brackets. -/
theorem constructed_cases {w : String} (hw : w.toList ≠ []) {a : α}
    {fields : (r : List Char) → r.length < cs.length → CodeReading α r}
    (h : (constructed w cs fields).Gives a r) :
    ∃ s s', Lexes [w, "("] cs s ∧ (∃ hlt, (fields s hlt).Gives a s') ∧ Lexes [")"] s' r := by
  obtain ⟨⟨⟩, s₁, hword, _, h⟩ := gives_bind.1 h
  obtain ⟨⟨⟩, s₂, hopen, _, h⟩ := gives_bind.1 h
  obtain ⟨_, s₃, hfields, _, h⟩ := gives_bind.1 h
  obtain ⟨⟨⟩, hclose, rfl⟩ := gives_map.1 h
  exact ⟨s₂, s₃, lexes_cons.2 ⟨s₁, (gives_word_iff hw).1 hword,
    (gives_mark_iff (by decide)).1 hopen⟩, ⟨_, hfields⟩, (gives_mark_iff (by decide)).1 hclose⟩

theorem gives_constructed_of_lexes {w : String} (hw : w.toList ≠ []) {a : α} {s' : List Char}
    {fields : (r : List Char) → r.length < cs.length → CodeReading α r}
    (hopen : Lexes [w, "("] cs s) (hfields : ∀ hlt, (fields s hlt).Gives a s')
    (hclose : Lexes [")"] s' r) :
    (constructed w cs fields).Gives a r := by
  obtain ⟨s₁, hword, hopen⟩ := lexes_cons.1 hopen
  refine ((gives_word_iff hw).2 hword).bind fun _ =>
    ((gives_mark_iff (by decide)).2 hopen).bind fun _ => ?_
  exact (hfields _).bind fun _ => gives_map.2 ⟨(), (gives_mark_iff (by decide)).2 hclose, rfl⟩

end TyCode

open TyCode

/-! ## Types -/

/-- The tokens of a constructor with a name for its only field. -/
def TyCode.namedTokens (w name : String) : List String :=
  [w, "("] ++ (["type_id", "="] ++ ([quote name] ++ [")"]))

/-- The tokens of a type's code. -/
def Ty.tokens : Ty → List String
  | .basic b => namedTokens "BASICTYPE" b.name
  | .pair a b =>
    ["TUPLETYPE", "("] ++
      (["type1", "="] ++ (a.tokens ++ ([","] ++ (["type2", "="] ++ (b.tokens ++ [")"])))))
  | .list e => ["LISTTYPE", "("] ++ (["type", "="] ++ (e.tokens ++ [")"]))
  | .syn name => namedTokens "TYPESYN" name

theorem Basic.eq_name_of_ofName? {n : String} {b : Basic} (h : ofName? n = some b) :
    n = b.name := by
  unfold ofName? at h
  split at h <;> cases h <;> rfl

namespace TyCode

variable {α : Type} {cs r s : List Char}

theorem named_cases {w name : String} (hw : w.toList ≠ [])
    (h : (constructed w cs fun r _ => (field "type_id" r).bind fun _ r _ => quotedName r).Gives
      name r) :
    IsName name ∧ Lexes (namedTokens w name) cs r := by
  obtain ⟨s, s', hopen, ⟨_, hfields⟩, hclose⟩ := constructed_cases hw h
  obtain ⟨⟨⟩, s₁, hfield, _, hquoted⟩ := gives_bind.1 hfields
  obtain ⟨hname, hquoted⟩ := gives_quotedName_iff.1 hquoted
  exact ⟨hname,
    hopen.append (((gives_field_iff (by decide)).1 hfield).append (hquoted.append hclose))⟩

theorem gives_named {w name : String} (hw : w.toList ≠ []) (hname : IsName name)
    (h : Lexes (namedTokens w name) cs r) :
    (constructed w cs fun r _ => (field "type_id" r).bind fun _ r _ => quotedName r).Gives
      name r := by
  obtain ⟨s, hopen, h⟩ := lexes_append.1 h
  obtain ⟨s₁, hfield, h⟩ := lexes_append.1 h
  obtain ⟨s₂, hquoted, hclose⟩ := lexes_append.1 h
  refine gives_constructed_of_lexes hw hopen (fun _ => ?_) hclose
  exact ((gives_field_iff (by decide)).2 hfield).bind fun _ =>
    gives_quotedName_iff.2 ⟨hname, hquoted⟩

theorem gives_basic_iff {t : Ty} :
    (basic cs).Gives t r ↔ ∃ b, t = .basic b ∧ Lexes (Ty.basic b).tokens cs r := by
  constructor
  · intro h
    obtain ⟨name, hname, hsome⟩ := gives_filterMap.1 h
    obtain ⟨b, hb, rfl⟩ := Option.map_eq_some_iff.1 hsome
    obtain rfl := Basic.eq_name_of_ofName? hb
    exact ⟨b, rfl, (named_cases (by decide) hname).2⟩
  · rintro ⟨b, rfl, h⟩
    exact gives_filterMap.2 ⟨b.name, gives_named (by decide) (isName_name b) h,
      by rw [Basic.ofName?_name]; rfl⟩

theorem not_gives_constructed_of_lexes {w w' : String} {ws : List String}
    (hw : ¬ w.toList <+: w'.toList) (hw' : ¬ w'.toList <+: w.toList) (h : Lexes (w' :: ws) cs s)
    (fields : (r : List Char) → r.length < cs.length → CodeReading α r) :
    ∀ a r, ¬ (constructed w cs fields).Gives a r := by
  obtain ⟨ds, rfl, -⟩ := h
  exact not_gives_constructed hw hw' ds fields

theorem not_gives_basic_of_lexes {w : String} {ws : List String}
    (hw : ¬ "BASICTYPE".toList <+: w.toList) (hw' : ¬ w.toList <+: "BASICTYPE".toList)
    (h : Lexes (w :: ws) cs s) : ∀ t r, ¬ (basic cs).Gives t r := by
  obtain ⟨ds, rfl, -⟩ := h
  exact not_gives_basic hw hw' ds

/-- What a type is read from starts with its tokens. -/
theorem lexes_of_gives_ty {t : Ty} (h : (ty cs).Gives t r) : t.Codable ∧ Lexes t.tokens cs r := by
  -- The types inside are read from shorter texts.
  induction hn : cs.length using Nat.strongRecOn generalizing cs r t with
  | _ n ih =>
    subst hn
    rw [ty] at h
    obtain h | h := h.of_orElse
    · obtain ⟨b, rfl, hb⟩ := gives_basic_iff.1 h
      exact ⟨trivial, hb⟩
    obtain h | h := h.of_orElse
    · obtain ⟨s, s', hopen, ⟨_, h⟩, hclose⟩ := constructed_cases (by decide) h
      obtain ⟨⟨⟩, s₁, hfirst, _, h⟩ := gives_bind.1 h
      obtain ⟨a, s₂, ha, _, h⟩ := gives_bind.1 h
      obtain ⟨⟨⟩, s₃, hcomma, _, h⟩ := gives_bind.1 h
      obtain ⟨⟨⟩, s₄, hsecond, _, h⟩ := gives_bind.1 h
      obtain ⟨b, hb, rfl⟩ := gives_map.1 h
      obtain ⟨hcodea, hlexa⟩ := ih s₁.length (by omega) ha rfl
      obtain ⟨hcodeb, hlexb⟩ := ih s₄.length (by omega) hb rfl
      have hfirst := (gives_field_iff (by decide)).1 hfirst
      have hcomma : Lexes [","] s₂ s₃ := (gives_mark_iff (by decide)).1 hcomma
      have hsecond := (gives_field_iff (by decide)).1 hsecond
      exact ⟨⟨hcodea, hcodeb⟩,
        hopen.append
          (hfirst.append (hlexa.append (hcomma.append (hsecond.append (hlexb.append hclose)))))⟩
    obtain h | h := h.of_orElse
    · obtain ⟨s, s', hopen, ⟨_, h⟩, hclose⟩ := constructed_cases (by decide) h
      obtain ⟨⟨⟩, s₁, hfield, _, h⟩ := gives_bind.1 h
      obtain ⟨e, he, rfl⟩ := gives_map.1 h
      obtain ⟨hcode, hlex⟩ := ih s₁.length (by omega) he rfl
      exact ⟨hcode,
        hopen.append (((gives_field_iff (by decide)).1 hfield).append (hlex.append hclose))⟩
    · obtain ⟨name, hname, rfl⟩ := gives_map.1 h
      exact named_cases (by decide) hname

/-- A type is read where its tokens stand. -/
theorem gives_ty_of_lexes {t : Ty} (ht : t.Codable) (h : Lexes t.tokens cs r) :
    (ty cs).Gives t r := by
  induction t generalizing cs r with
  | basic b =>
    rw [ty]
    exact (gives_basic_iff.2 ⟨b, rfl, h⟩).orElse _
  | pair a b iha ihb =>
    obtain ⟨s, hopen, h⟩ := lexes_append.1 h
    obtain ⟨s₁, hfirst, h⟩ := lexes_append.1 h
    obtain ⟨s₂, ha, h⟩ := lexes_append.1 h
    obtain ⟨s₃, hcomma, h⟩ := lexes_append.1 h
    obtain ⟨s₄, hsecond, h⟩ := lexes_append.1 h
    obtain ⟨s₅, hb, hclose⟩ := lexes_append.1 h
    rw [ty, orElse_of_not_gives (not_gives_basic_of_lexes (by decide) (by decide) hopen)]
    refine (gives_constructed_of_lexes (by decide) hopen (fun _ => ?_) hclose).orElse _
    refine ((gives_field_iff (by decide)).2 hfirst).bind fun _ => (iha ht.1 ha).bind fun _ => ?_
    refine ((gives_mark_iff (by decide)).2 hcomma).bind fun _ => ?_
    exact ((gives_field_iff (by decide)).2 hsecond).bind fun _ => gives_map.2 ⟨b, ihb ht.2 hb, rfl⟩
  | list e ih =>
    obtain ⟨s, hopen, h⟩ := lexes_append.1 h
    obtain ⟨s₁, hfield, h⟩ := lexes_append.1 h
    obtain ⟨s₂, he, hclose⟩ := lexes_append.1 h
    rw [ty, orElse_of_not_gives (not_gives_basic_of_lexes (by decide) (by decide) hopen),
      orElse_of_not_gives (not_gives_constructed_of_lexes (by decide) (by decide) hopen _)]
    refine (gives_constructed_of_lexes (by decide) hopen (fun _ => ?_) hclose).orElse _
    exact ((gives_field_iff (by decide)).2 hfield).bind fun _ => gives_map.2 ⟨e, ih ht he, rfl⟩
  | syn name =>
    rw [ty, orElse_of_not_gives (not_gives_basic_of_lexes (by decide) (by decide) h),
      orElse_of_not_gives (not_gives_constructed_of_lexes (by decide) (by decide) h _),
      orElse_of_not_gives (not_gives_constructed_of_lexes (by decide) (by decide) h _)]
    exact gives_map.2 ⟨name, gives_named (by decide) ht h, rfl⟩

theorem gives_ty_iff {t : Ty} : (ty cs).Gives t r ↔ t.Codable ∧ Lexes t.tokens cs r :=
  ⟨lexes_of_gives_ty, fun h => gives_ty_of_lexes h.1 h.2⟩

end TyCode

/-! ## Signatures -/

/-- The tokens of types with a comma before each. -/
def TyCode.moreTokens : List Ty → List String
  | [] => []
  | t :: ts => [","] ++ (t.tokens ++ moreTokens ts)

/-- The tokens of types with commas between. -/
def TyCode.listTokens : List Ty → List String
  | [] => []
  | t :: ts => t.tokens ++ moreTokens ts

/-- The tokens of a signature's code. -/
def Signature.tokens (s : Signature) : List String :=
  ["FUNTYPE", "("] ++ (["type_params", "="] ++ (["["] ++ (listTokens s.params ++ (["]"] ++ ([","] ++
    (["return_type", "="] ++ (s.result.tokens ++ [")"])))))))

/-- The signature can be written in type code. -/
def Signature.Codable (s : Signature) : Prop := (∀ t ∈ s.params, t.Codable) ∧ s.result.Codable

namespace TyCode

variable {cs r s : List Char} {ts : List Ty}

theorem lexes_moreTys (cs : List Char) :
    (∀ t ∈ (moreTys cs).1.1, t.Codable) ∧
      Lexes (moreTokens (moreTys cs).1.1) cs (moreTys cs).1.2 := by
  induction cs using moreTys.induct_unfolding with
  | case1 ds t s hlt hread _ more ih =>
    obtain ⟨ht, hlex⟩ := gives_ty_iff.1 ⟨hlt, hread⟩
    have hcomma : Lexes [","] (',' :: ds) (Text.skipBlanks ds) :=
      (lexes_mark (by decide)).2 ⟨ds, rfl, rfl⟩
    exact ⟨List.forall_mem_cons.2 ⟨ht, ih.1⟩, hcomma.append (hlex.append ih.2)⟩
  | case2 => exact ⟨List.forall_mem_nil _, rfl⟩
  | case3 => exact ⟨List.forall_mem_nil _, rfl⟩

theorem lexes_tys (cs : List Char) :
    (∀ t ∈ (tys cs).1.1, t.Codable) ∧ Lexes (listTokens (tys cs).1.1) cs (tys cs).1.2 := by
  unfold tys
  split
  · next t s hlt hread =>
    obtain ⟨ht, hlex⟩ := gives_ty_iff.1 ⟨hlt, hread⟩
    obtain ⟨hts, hmore⟩ := lexes_moreTys s
    exact ⟨List.forall_mem_cons.2 ⟨ht, hts⟩, hlex.append hmore⟩
  · exact ⟨List.forall_mem_nil _, rfl⟩

/-- In front of the closing bracket all types of a list are read. -/
theorem moreTys_of_lexes (hts : ∀ t ∈ ts, t.Codable) (h : Lexes (moreTokens ts) cs (']' :: r)) :
    (moreTys cs).1 = (ts, ']' :: r) := by
  induction ts generalizing cs with
  | nil =>
    obtain rfl : cs = ']' :: r := h
    rw [moreTys]
    simp
  | cons t ts ih =>
    obtain ⟨ht, hrest⟩ := List.forall_mem_cons.1 hts
    obtain ⟨s, hcomma, h⟩ := lexes_append.1 h
    obtain ⟨s', hlex, hmore⟩ := lexes_append.1 h
    obtain ⟨ds, rfl, rfl⟩ := (lexes_mark (c := ',') (by decide)).1 hcomma
    obtain ⟨hlt, hread⟩ := gives_ty_iff.2 ⟨ht, hlex⟩
    rw [moreTys]
    simp only [hread, ih hrest hmore]

theorem tys_of_lexes (hts : ∀ t ∈ ts, t.Codable) (h : Lexes (listTokens ts) cs (']' :: r)) :
    (tys cs).1 = (ts, ']' :: r) := by
  cases ts with
  | nil =>
    obtain rfl : cs = ']' :: r := h
    rw [tys]
    cases hty : ty (']' :: r) with
    | ok t s hlt => exact absurd ⟨hlt, hty⟩ (not_gives_ty r t s)
    | fault e s hle => rfl
  | cons t ts =>
    obtain ⟨ht, hrest⟩ := List.forall_mem_cons.1 hts
    obtain ⟨s, hlex, hmore⟩ := lexes_append.1 h
    obtain ⟨hlt, hread⟩ := gives_ty_iff.2 ⟨ht, hlex⟩
    rw [tys]
    simp only [hread, moreTys_of_lexes hrest hmore]

theorem lexes_of_gives_signature {g : Signature} (h : (signature cs).Gives g r) :
    g.Codable ∧ Lexes g.tokens cs r := by
  obtain ⟨s, s', hopen, ⟨_, h⟩, hclose⟩ := constructed_cases (by decide) h
  obtain ⟨⟨⟩, s₁, hparams, _, h⟩ := gives_bind.1 h
  obtain ⟨⟨⟩, s₂, hleft, _, h⟩ := gives_bind.1 h
  obtain ⟨⟨⟩, s₃, hright, _, h⟩ := gives_bind.1 (gives_within.1 h)
  obtain ⟨⟨⟩, s₄, hcomma, _, h⟩ := gives_bind.1 h
  obtain ⟨⟨⟩, s₅, hresult, _, h⟩ := gives_bind.1 h
  obtain ⟨t, ht, rfl⟩ := gives_map.1 h
  obtain ⟨hts, hlist⟩ := lexes_tys s₂
  obtain ⟨hcode, hlex⟩ := gives_ty_iff.1 ht
  have hparams := (gives_field_iff (by decide)).1 hparams
  have hleft : Lexes ["["] s₁ s₂ := (gives_mark_iff (by decide)).1 hleft
  have hright : Lexes ["]"] (tys s₂).1.2 s₃ := (gives_mark_iff (by decide)).1 hright
  have hcomma : Lexes [","] s₃ s₄ := (gives_mark_iff (by decide)).1 hcomma
  have hresult := (gives_field_iff (by decide)).1 hresult
  refine ⟨⟨hts, hcode⟩, hopen.append (hparams.append (hleft.append (hlist.append ?_)))⟩
  exact hright.append (hcomma.append (hresult.append (hlex.append hclose)))

theorem gives_signature_of_lexes {g : Signature} (hg : g.Codable) (h : Lexes g.tokens cs r) :
    (signature cs).Gives g r := by
  obtain ⟨s, hopen, h⟩ := lexes_append.1 h
  obtain ⟨s₁, hparams, h⟩ := lexes_append.1 h
  obtain ⟨s₂, hleft, h⟩ := lexes_append.1 h
  obtain ⟨s₃, hlist, h⟩ := lexes_append.1 h
  obtain ⟨s₄, hright, h⟩ := lexes_append.1 h
  obtain ⟨s₅, hcomma, h⟩ := lexes_append.1 h
  obtain ⟨s₆, hresult, h⟩ := lexes_append.1 h
  obtain ⟨s₇, hlex, hclose⟩ := lexes_append.1 h
  refine gives_constructed_of_lexes (by decide) hopen (fun _ => ?_) hclose
  refine ((gives_field_iff (by decide)).2 hparams).bind fun _ => ?_
  refine ((gives_mark_iff (by decide)).2 hleft).bind fun _ => gives_within.2 ?_
  obtain ⟨ds, rfl, rfl⟩ := (lexes_mark (c := ']') (by decide)).1 hright
  have hread := tys_of_lexes hg.1 hlist
  generalize tys _ = list at hread ⊢
  obtain ⟨⟨ts, rest⟩, hle⟩ := list
  cases hread
  refine (Text.gives_mark ']' .mark ds).bind fun _ =>
    ((gives_mark_iff (by decide)).2 hcomma).bind fun _ => ?_
  refine ((gives_field_iff (by decide)).2 hresult).bind fun _ => ?_
  exact gives_map.2 ⟨g.result, gives_ty_iff.2 ⟨hg.2, hlex⟩, rfl⟩

theorem gives_signature_iff {g : Signature} :
    (signature cs).Gives g r ↔ g.Codable ∧ Lexes g.tokens cs r :=
  ⟨lexes_of_gives_signature, fun h => gives_signature_of_lexes h.1 h.2⟩

/-! ## The tokens of codes are tokens -/

theorem isToken_of_fixed {ws : List String} (h : ∀ w ∈ ws, w ∈ fixedTokens) : ∀ w ∈ ws, IsToken w :=
  fun w hw => .fixed (h w hw)

theorem isToken_append {ws ws' : List String} (h : ∀ w ∈ ws, IsToken w)
    (h' : ∀ w ∈ ws', IsToken w) :
    ∀ w ∈ ws ++ ws', IsToken w := List.forall_mem_append.2 ⟨h, h'⟩

theorem isToken_fixed_append {ws ws' : List String} (h : ∀ w ∈ ws, w ∈ fixedTokens)
    (h' : ∀ w ∈ ws', IsToken w) :
    ∀ w ∈ ws ++ ws', IsToken w := isToken_append (isToken_of_fixed h) h'

theorem isToken_namedTokens {w name : String} (hw : w ∈ fixedTokens) (hname : IsName name) :
    ∀ v ∈ namedTokens w name, IsToken v := by
  have hopen : ∀ v ∈ [w, "("], v ∈ fixedTokens := List.forall_mem_cons.2 ⟨hw, by decide⟩
  have hquoted : ∀ v ∈ [quote name], IsToken v := List.forall_mem_singleton.2 (.quoted hname)
  refine isToken_fixed_append hopen (isToken_fixed_append (by decide) ?_)
  exact isToken_append hquoted (isToken_of_fixed (by decide))

theorem isToken_tokens {t : Ty} (h : t.Codable) : ∀ w ∈ t.tokens, IsToken w := by
  induction t with
  | basic b => exact isToken_namedTokens (by decide) (isName_name b)
  | pair a b iha ihb =>
    refine isToken_fixed_append (by decide) (isToken_fixed_append (by decide) ?_)
    refine isToken_append (iha h.1) (isToken_fixed_append (by decide) ?_)
    refine isToken_fixed_append (by decide) (isToken_append (ihb h.2) ?_)
    exact isToken_of_fixed (by decide)
  | list e ih =>
    refine isToken_fixed_append (by decide) (isToken_fixed_append (by decide) ?_)
    exact isToken_append (ih h) (isToken_of_fixed (by decide))
  | syn name => exact isToken_namedTokens (by decide) h

theorem isToken_moreTokens {ts : List Ty} (h : ∀ t ∈ ts, t.Codable) :
    ∀ w ∈ moreTokens ts, IsToken w := by
  induction ts with
  | nil => exact List.forall_mem_nil _
  | cons t ts ih =>
    obtain ⟨ht, hts⟩ := List.forall_mem_cons.1 h
    exact isToken_fixed_append (by decide) (isToken_append (isToken_tokens ht) (ih hts))

theorem isToken_signature {g : Signature} (h : g.Codable) : ∀ w ∈ g.tokens, IsToken w := by
  have hlist : ∀ w ∈ listTokens g.params, IsToken w := by
    have hparams := h.1
    cases hp : g.params with
    | nil => exact List.forall_mem_nil _
    | cons t ts =>
      rw [hp] at hparams
      obtain ⟨ht, hts⟩ := List.forall_mem_cons.1 hparams
      exact isToken_append (isToken_tokens ht) (isToken_moreTokens hts)
  refine isToken_fixed_append (by decide) (isToken_fixed_append (by decide) ?_)
  refine isToken_fixed_append (by decide) (isToken_append hlist ?_)
  refine isToken_fixed_append (by decide) (isToken_fixed_append (by decide) ?_)
  refine isToken_fixed_append (by decide) (isToken_append (isToken_tokens h.2) ?_)
  exact isToken_of_fixed (by decide)

/-! ## Whole texts -/

theorem whole_eq_ok_iff {α : Type} {reader : (cs : List Char) → CodeReading α cs}
    {text : String} {a : α} :
    whole reader text = .ok a ↔ (reader (Text.skipBlanks text.toList)).Gives a [] := by
  unfold whole
  cases reader (Text.skipBlanks text.toList) with
  | ok b rest hlt => cases rest <;> simp
  | fault e rest hle => simp

theorem ty_ofCode_iff {text : String} {t : Ty} :
    Ty.ofCode text = .ok t ↔ t.Codable ∧ Spaced t.tokens text.toList := by
  rw [Ty.ofCode, whole_eq_ok_iff, gives_ty_iff, spaced_iff]
  exact and_congr_right fun h => (and_iff_right (isToken_tokens h)).symm

theorem signature_ofCode_iff {text : String} {g : Signature} :
    Signature.ofCode text = .ok g ↔ g.Codable ∧ Spaced g.tokens text.toList := by
  rw [Signature.ofCode, whole_eq_ok_iff, gives_signature_iff, spaced_iff]
  exact and_congr_right fun h => (and_iff_right (isToken_signature h)).symm

/-- The texts spell the same tokens: each of them is the other up to blanks before, between and
after tokens. -/
def Respaced (code text : String) : Prop := ∃ ws, Spaced ws code.toList ∧ Spaced ws text.toList

theorem respaced_iff {ws : List String} {code text : String} (h : Spaced ws code.toList) :
    Respaced code text ↔ Spaced ws text.toList := by
  constructor
  · rintro ⟨ws', hcode, htext⟩
    rwa [h.unique hcode]
  · intro htext
    exact ⟨ws, h, htext⟩

theorem ty_ofCode_iff_respaced {text : String} {t : Ty} :
    Ty.ofCode text = .ok t ↔ t.Codable ∧ Respaced t.code text := by
  rw [ty_ofCode_iff]
  exact and_congr_right fun h => (respaced_iff (ty_ofCode_iff.1 (Ty.ofCode_code h)).2).symm

theorem signature_ofCode_iff_respaced {text : String} {g : Signature} :
    Signature.ofCode text = .ok g ↔ g.Codable ∧ Respaced g.code text := by
  rw [signature_ofCode_iff]
  exact and_congr_right fun h =>
    (respaced_iff (signature_ofCode_iff.1 (Signature.ofCode_code h.1 h.2)).2).symm

/-- The readers of type code accept exactly the codes of the types and signatures whose names can be
quoted, with any blanks before, between and after their tokens. So they read back what is written,
and no text is the code of two. -/
theorem ofCode_exact :
    (∀ (text : String) (t : Ty), Ty.ofCode text = .ok t ↔ t.Codable ∧ Respaced t.code text) ∧
    (∀ (text : String) (g : Signature), Signature.ofCode text = .ok g ↔
      g.Codable ∧ Respaced g.code text) ∧
    (∀ t : Ty, t.Codable → Ty.ofCode t.code = .ok t) ∧
    (∀ g : Signature, g.Codable → Signature.ofCode g.code = .ok g) ∧
    (∀ (text : String) (t u : Ty), t.Codable → u.Codable → Respaced t.code text →
      Respaced u.code text → t = u) ∧
    (∀ (text : String) (g k : Signature), g.Codable → k.Codable → Respaced g.code text →
      Respaced k.code text →
      g = k) := by
  refine ⟨fun _ _ => ty_ofCode_iff_respaced, fun _ _ => signature_ofCode_iff_respaced,
    fun _ => Ty.ofCode_code, fun _ h => Signature.ofCode_code h.1 h.2, ?_, ?_⟩
  · intro text t u ht hu hspaced hspaced'
    exact Except.ok.inj
      ((ty_ofCode_iff_respaced.2 ⟨ht, hspaced⟩).symm.trans
        (ty_ofCode_iff_respaced.2 ⟨hu, hspaced'⟩))
  · intro text g k hg hk hspaced hspaced'
    exact Except.ok.inj
      ((signature_ofCode_iff_respaced.2 ⟨hg, hspaced⟩).symm.trans
        (signature_ofCode_iff_respaced.2 ⟨hk, hspaced'⟩))

/-- A type's code with blanks where none are written. -/
def looseType : String := " LISTTYPE( type = BASICTYPE( type_id = \"Char\" ) )\n"

/-- A signature's code with blanks where none are written, and without one where it is. -/
def looseSignature : String :=
  "FUNTYPE ( type_params=[ TYPESYN(type_id=\"P\")],return_type = BASICTYPE(type_id=\"Int\"))"

theorem ofCode_exact_blanks :
    Respaced (Ty.list .char).code looseType ∧
      Respaced (Signature.mk [.syn "P"] .int).code looseSignature ∧
    Ty.ofCode (Ty.pair .bool (.syn "a_1")).code = .ok (.pair .bool (.syn "a_1")) ∧
    Signature.ofCode (Signature.mk [.int, .syn "P"] .void).code =
      .ok (Signature.mk [.int, .syn "P"] .void) := by
  have hname : IsName "P" := ⟨by decide, List.all_eq_true.1 (by decide)⟩
  have hname' : IsName "a_1" := ⟨by decide, List.all_eq_true.1 (by decide)⟩
  obtain ⟨htype, hsignature, hback, hback', -⟩ := ofCode_exact
  refine ⟨?_, ?_, hback _ ⟨trivial, hname'⟩, hback' _ ⟨?_, trivial⟩⟩
  · exact ((htype _ _).1 (eq_ok_of_toOption (by decide +kernel))).2
  · exact ((hsignature _ _).1 (eq_ok_of_toOption (by decide +kernel))).2
  · exact List.forall_mem_cons.2 ⟨trivial, List.forall_mem_singleton.2 hname⟩

end TyCode

end SplFrontend
