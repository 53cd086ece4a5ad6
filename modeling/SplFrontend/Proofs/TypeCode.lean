import SplFrontend.Proofs.Text
import SplFrontend.Ty.Code

/-!
# Type code is read back

A type in type code is read back by `Ty.ofCode`, and a signature by `Signature.ofCode`, if the names
of its synonyms are made of name characters. What follows a type in the text does not matter, since
its last bracket ends it.
-/

namespace SplFrontend

open Reading

namespace TyCode

variable {α : Type}

/-! ## Names, fields and constructors -/

theorem gives_nameTail {cs : List Char} (h : ∀ c ∈ cs, isNameChar c = true) (r : List Char) :
    (nameTail (cs ++ '"' :: r)).Gives cs (Text.skipBlanks r) := by
  induction cs with
  | nil =>
    rw [List.nil_append, nameTail, if_neg (by decide), if_pos rfl]
    exact Text.Gives.trimmed (gives_take.2 ⟨rfl, rfl⟩)
  | cons c cs ih =>
    obtain ⟨hc, hcs⟩ := List.forall_mem_cons.1 h
    rw [List.cons_append, nameTail, if_pos hc]
    exact gives_under.2 (gives_map.2 ⟨cs, ih hcs, rfl⟩)

/-- The name can be quoted in type code. -/
def IsName (name : String) : Prop := name.toList ≠ [] ∧ ∀ c ∈ name.toList, isNameChar c = true

theorem gives_quotedName {name : String} (h : IsName name) (r : List Char) :
    (quotedName ('"' :: (name.toList ++ '"' :: r))).Gives name (Text.skipBlanks r) := by
  have hname := gives_nameTail h.2 r
  cases hl : name.toList with
  | nil => exact absurd hl h.1
  | cons c cs =>
    have hc : isNameChar c = true := h.2 c (by simp [hl])
    rw [hl, List.cons_append] at hname
    rw [List.cons_append, quotedName, if_pos (by simpa using hc)]
    refine gives_under.2 (gives_map.2 ⟨c :: cs, hname, ?_⟩)
    rw [← hl, String.ofList_toList]

theorem gives_field {key : String} (hkey : key.toList ≠ []) (cs : List Char) :
    (field key (key.toList ++ '=' :: cs)).Gives () (Text.skipBlanks cs) := by
  have hword := Text.gives_word hkey CodeMiss.word ('=' :: cs)
  rw [Text.skipBlanks_cons rfl] at hword
  exact hword.bind fun _ => Text.gives_mark '=' .mark cs

/-- A constructor reads its fields between the brackets. -/
theorem gives_constructed {w : String} (hw : w.toList ≠ []) {cs r : List Char} {a : α}
    (hcs : Text.skipBlanks cs = cs)
    {fields : (r : List Char) → r.length < (w.toList ++ '(' :: cs).length → CodeReading α r}
    (h : ∀ hlt, (fields cs hlt).Gives a (')' :: r)) :
    (constructed w (w.toList ++ '(' :: cs) fields).Gives a (Text.skipBlanks r) := by
  have hword := Text.gives_word hw CodeMiss.word ('(' :: cs)
  rw [Text.skipBlanks_cons rfl] at hword
  have hopen := Text.gives_mark '(' CodeMiss.mark cs
  rw [hcs] at hopen
  refine hword.bind fun _ => hopen.bind fun _ => (h _).bind fun _ => ?_
  exact gives_map.2 ⟨(), Text.gives_mark ')' .mark r, rfl⟩

/-- A constructor is not read off a text that starts with something else. -/
theorem not_gives_constructed {w : String} {start : List Char} (h : ¬ w.toList <+: start)
    (h' : ¬ start <+: w.toList) (cs : List Char)
    (fields : (r : List Char) → r.length < (start ++ cs).length → CodeReading α r) :
    ∀ a r, ¬ (constructed w (start ++ cs) fields).Gives a r := by
  intro a r hgives
  obtain ⟨u, s, hu, -⟩ := gives_bind.1 hgives
  refine Text.not_gives_word ?_ CodeMiss.word u s hu
  intro hw
  rcases List.prefix_or_prefix_of_prefix hw (List.prefix_append start cs) with hp | hp
  · exact h hp
  · exact h' hp

theorem not_gives_basic {start : List Char} (h : ¬ "BASICTYPE".toList <+: start)
    (h' : ¬ start <+: "BASICTYPE".toList) (cs : List Char) :
    ∀ t r, ¬ (basic (start ++ cs)).Gives t r := by
  intro t r hgives
  obtain ⟨name, hname, -⟩ := gives_filterMap.1 hgives
  exact not_gives_constructed h h' cs _ name r hname

end TyCode

open TyCode

/-! ## Types -/

/-- The type can be written in type code. -/
def Ty.Codable : Ty → Prop
  | .basic _ => True
  | .pair a b => a.Codable ∧ b.Codable
  | .list e => e.Codable
  | .syn name => IsName name

namespace Ty

-- The words of the code stand apart from its marks here, as its readers take them.

theorem toList_code_basic (b : Basic) (r : List Char) :
    (Ty.basic b).code.toList ++ r =
      "BASICTYPE".toList ++
        '(' :: ("type_id".toList ++ '=' :: '"' :: (b.name.toList ++ '"' :: ')' :: r)) := by
  have hcode : (Ty.basic b).code = "BASICTYPE(type_id=\"" ++ b.name ++ "\")" := rfl
  have hleft :
      "BASICTYPE(type_id=\"".toList = "BASICTYPE".toList ++
        '(' :: ("type_id".toList ++ ['=', '"']) :=
    by decide
  have hright : "\")".toList = ['"', ')'] := by decide
  rw [hcode, String.toList_append, String.toList_append, hleft, hright]
  simp only [List.append_assoc, List.cons_append, List.nil_append]

theorem toList_code_syn (name : String) (r : List Char) :
    (Ty.syn name).code.toList ++ r =
      "TYPESYN".toList ++
        '(' :: ("type_id".toList ++ '=' :: '"' :: (name.toList ++ '"' :: ')' :: r)) := by
  have hcode : (Ty.syn name).code = "TYPESYN(type_id=\"" ++ name ++ "\")" := rfl
  have hleft :
      "TYPESYN(type_id=\"".toList = "TYPESYN".toList ++
        '(' :: ("type_id".toList ++ ['=', '"']) := by
    decide
  have hright : "\")".toList = ['"', ')'] := by decide
  rw [hcode, String.toList_append, String.toList_append, hleft, hright]
  simp only [List.append_assoc, List.cons_append, List.nil_append]

theorem toList_code_list (e : Ty) (r : List Char) :
    (Ty.list e).code.toList ++ r =
      "LISTTYPE".toList ++ '(' :: ("type".toList ++ '=' :: (e.code.toList ++ ')' :: r)) := by
  have hcode : (Ty.list e).code = "LISTTYPE(type=" ++ e.code ++ ")" := rfl
  have hleft : "LISTTYPE(type=".toList = "LISTTYPE".toList ++ '(' :: ("type".toList ++ ['=']) := by
    decide
  have hright : ")".toList = [')'] := by decide
  rw [hcode, String.toList_append, String.toList_append, hleft, hright]
  simp only [List.append_assoc, List.cons_append, List.nil_append]

theorem toList_code_pair (a b : Ty) (r : List Char) :
    (Ty.pair a b).code.toList ++ r =
      "TUPLETYPE".toList ++ '(' :: ("type1".toList ++ '=' :: (a.code.toList ++ ',' :: ' ' ::
        ("type2".toList ++ '=' :: (b.code.toList ++ ')' :: r)))) := by
  have hcode : (Ty.pair a b).code = "TUPLETYPE(type1=" ++ a.code ++ ", type2=" ++ b.code ++ ")" :=
    rfl
  have hleft :
      "TUPLETYPE(type1=".toList = "TUPLETYPE".toList ++ '(' :: ("type1".toList ++ ['=']) := by
    decide
  have hmid : ", type2=".toList = ',' :: ' ' :: ("type2".toList ++ ['=']) := by decide
  have hright : ")".toList = [')'] := by decide
  rw [hcode, String.toList_append, String.toList_append, String.toList_append, String.toList_append,
    hleft, hmid, hright]
  simp only [List.append_assoc, List.cons_append, List.nil_append]

/-- The first letter of a type's code. -/
def initial : Ty → Char
  | .basic _ => 'B'
  | .pair .. => 'T'
  | .list _ => 'L'
  | .syn _ => 'T'

theorem exists_code_eq (t : Ty) (r : List Char) : ∃ cs, t.code.toList ++ r = t.initial :: cs := by
  cases t with
  | basic b => exact ⟨_, toList_code_basic b r⟩
  | pair a b => exact ⟨_, toList_code_pair a b r⟩
  | list e => exact ⟨_, toList_code_list e r⟩
  | syn name => exact ⟨_, toList_code_syn name r⟩

theorem skipBlanks_code (t : Ty) (r : List Char) :
    Text.skipBlanks (t.code.toList ++ r) = t.code.toList ++ r := by
  obtain ⟨cs, hcs⟩ := t.exists_code_eq r
  rw [hcs]
  refine Text.skipBlanks_cons ?_ cs
  cases t <;> rfl

end Ty

namespace TyCode

theorem gives_typeId {name : String} (h : IsName name) (r : List Char) :
    ((field "type_id" ("type_id".toList ++ '=' :: '"' :: (name.toList ++ '"' :: ')' :: r))).bind
      fun _ s _ => quotedName s).Gives name (')' :: r) := by
  have hfield :=
    gives_field (by decide : "type_id".toList ≠ []) ('"' :: (name.toList ++ '"' :: ')' :: r))
  have hquoted := gives_quotedName h (')' :: r)
  rw [Text.skipBlanks_cons rfl] at hfield hquoted
  exact hfield.bind fun _ => hquoted

theorem isName_name (b : Basic) : IsName b.name :=
  ⟨by cases b <;> decide, List.all_eq_true.1 (by cases b <;> decide)⟩

theorem gives_basic (b : Basic) (r : List Char) :
    (basic ((Ty.basic b).code.toList ++ r)).Gives (.basic b) (Text.skipBlanks r) := by
  rw [Ty.toList_code_basic]
  refine gives_filterMap.2
    ⟨b.name, gives_constructed (by decide) (Text.skipBlanks_cons rfl _) ?_, ?_⟩
  · intro hlt
    exact gives_typeId (isName_name b) r
  · cases b <;> rfl

theorem gives_ty {t : Ty} (h : t.Codable) (r : List Char) :
    (ty (t.code.toList ++ r)).Gives t (Text.skipBlanks r) := by
  induction t generalizing r with
  | basic b =>
    rw [ty]
    exact (gives_basic b r).orElse _
  | pair a b iha ihb =>
    have ha := iha h.1 (',' :: ' ' :: ("type2".toList ++ '=' :: (b.code.toList ++ ')' :: r)))
    have hb := ihb h.2 (')' :: r)
    have hcomma :=
      Text.gives_mark ',' CodeMiss.mark
        (' ' :: ("type2".toList ++ '=' :: (b.code.toList ++ ')' :: r)))
    have hsecond := gives_field (by decide : "type2".toList ≠ []) (b.code.toList ++ ')' :: r)
    rw [Text.skipBlanks_cons rfl] at ha hb
    rw [Text.skipBlanks_blank rfl] at hcomma
    rw [Ty.skipBlanks_code] at hsecond
    rw [Ty.toList_code_pair, ty, orElse_of_not_gives (not_gives_basic (by decide) (by decide) _)]
    refine Gives.orElse (gives_constructed (by decide) (Text.skipBlanks_cons rfl _) ?_) _
    intro hlt
    have hfirst := gives_field (by decide : "type1".toList ≠ [])
      (a.code.toList ++ ',' :: ' ' :: ("type2".toList ++ '=' :: (b.code.toList ++ ')' :: r)))
    rw [Ty.skipBlanks_code] at hfirst
    refine hfirst.bind fun _ => ha.bind fun _ => hcomma.bind fun _ => hsecond.bind fun _ => ?_
    exact gives_map.2 ⟨b, hb, rfl⟩
  | list e ih =>
    have he := ih h (')' :: r)
    rw [Text.skipBlanks_cons rfl] at he
    rw [Ty.toList_code_list, ty, orElse_of_not_gives (not_gives_basic (by decide) (by decide) _),
      orElse_of_not_gives (not_gives_constructed (by decide) (by decide) _ _)]
    refine Gives.orElse (gives_constructed (by decide) (Text.skipBlanks_cons rfl _) ?_) _
    intro hlt
    have hfield := gives_field (by decide : "type".toList ≠ []) (e.code.toList ++ ')' :: r)
    rw [Ty.skipBlanks_code] at hfield
    exact hfield.bind fun _ => gives_map.2 ⟨e, he, rfl⟩
  | syn name =>
    rw [Ty.toList_code_syn, ty, orElse_of_not_gives (not_gives_basic (by decide) (by decide) _),
      orElse_of_not_gives (not_gives_constructed (by decide) (by decide) _ _),
      orElse_of_not_gives (not_gives_constructed (by decide) (by decide) _ _)]
    refine gives_map.2 ⟨name, gives_constructed (by decide) (Text.skipBlanks_cons rfl _) ?_, rfl⟩
    intro hlt
    exact gives_typeId h r

/-! ## Signatures -/

/-- The codes of types, each after a comma, in front of a text. -/
def moreCode (ts : List Ty) (r : List Char) : List Char :=
  ts.foldr (fun t r => ',' :: ' ' :: (t.code.toList ++ r)) r

theorem skipBlanks_moreCode (ts : List Ty) (r : List Char) :
    Text.skipBlanks (moreCode ts (']' :: r)) = moreCode ts (']' :: r) := by
  cases ts with
  | nil => exact Text.skipBlanks_cons rfl _
  | cons t ts => exact Text.skipBlanks_cons rfl _

theorem toList_intercalate_code (t : Ty) (ts : List Ty) (r : List Char) :
    (", ".intercalate ((t :: ts).map Ty.code)).toList ++ r = t.code.toList ++ moreCode ts r := by
  have hsep : ", ".toList = [',', ' '] := by decide
  induction ts generalizing t with
  | nil => simp only [List.map_cons, List.map_nil, String.intercalate_singleton]; rfl
  | cons u us ih =>
    have hus := ih u
    simp only [List.map_cons] at hus ⊢
    rw [String.intercalate_cons_cons, String.toList_append, String.toList_append, hsep,
      List.append_assoc, List.append_assoc, hus]
    rfl

theorem skipBlanks_intercalate_code (ts : List Ty) (r : List Char) :
    Text.skipBlanks ((", ".intercalate (ts.map Ty.code)).toList ++ ']' :: r) =
      (", ".intercalate (ts.map Ty.code)).toList ++ ']' :: r := by
  cases ts with
  | nil => exact Text.skipBlanks_cons rfl _
  | cons t ts => rw [toList_intercalate_code, Ty.skipBlanks_code]

theorem moreTys_moreCode {ts : List Ty} (h : ∀ t ∈ ts, t.Codable) (r : List Char) :
    (moreTys (moreCode ts (']' :: r))).1 = (ts, ']' :: r) := by
  induction ts with
  | nil => rw [moreCode, List.foldr_nil, moreTys]; simp
  | cons t ts ih =>
    obtain ⟨ht, hts⟩ := List.forall_mem_cons.1 h
    have hread := gives_ty ht (moreCode ts (']' :: r))
    rw [skipBlanks_moreCode] at hread
    have hblank : Text.skipBlanks (' ' :: (t.code.toList ++ moreCode ts (']' :: r))) =
        t.code.toList ++ moreCode ts (']' :: r) := by
      rw [Text.skipBlanks_blank rfl, Ty.skipBlanks_code]
    rw [← hblank] at hread
    obtain ⟨hlt, hread⟩ := hread
    rw [moreCode, List.foldr_cons, ← moreCode, moreTys]
    simp only [hread, ih hts]

theorem not_gives_ty (r : List Char) : ∀ t s, ¬ (ty ([']'] ++ r)).Gives t s := by
  intro t s hgives
  rw [ty, orElse_of_not_gives (not_gives_basic (by decide) (by decide) r),
    orElse_of_not_gives (not_gives_constructed (by decide) (by decide) r _),
    orElse_of_not_gives (not_gives_constructed (by decide) (by decide) r _)] at hgives
  obtain ⟨name, hname, -⟩ := gives_map.1 hgives
  exact not_gives_constructed (by decide) (by decide) r _ name s hname

theorem tys_intercalate {ts : List Ty} (h : ∀ t ∈ ts, t.Codable) (r : List Char) :
    (tys ((", ".intercalate (ts.map Ty.code)).toList ++ ']' :: r)).1 = (ts, ']' :: r) := by
  cases ts with
  | nil =>
    rw [List.map_nil, String.intercalate_nil, String.toList_empty, List.nil_append, tys]
    cases hty : ty (']' :: r) with
    | ok t s hlt => exact absurd ⟨hlt, hty⟩ (not_gives_ty r t s)
    | fault e s hle => rfl
  | cons t ts =>
    obtain ⟨ht, hts⟩ := List.forall_mem_cons.1 h
    obtain ⟨hlt, hread⟩ := gives_ty ht (moreCode ts (']' :: r))
    rw [toList_intercalate_code, tys]
    simp only [hread, skipBlanks_moreCode, moreTys_moreCode hts]

theorem toList_code_signature (s : Signature) :
    s.code.toList = "FUNTYPE".toList ++ '(' :: ("type_params".toList ++ '=' :: '[' ::
      ((", ".intercalate (s.params.map Ty.code)).toList ++ ']' :: ',' :: ' ' ::
        ("return_type".toList ++ '=' :: (s.result.code.toList ++ [')'])))) := by
  have hleft : "FUNTYPE(type_params=[".toList =
      "FUNTYPE".toList ++ '(' :: ("type_params".toList ++ ['=', '[']) := by decide
  have hmid : "], return_type=".toList = ']' :: ',' :: ' ' :: ("return_type".toList ++ ['=']) := by
    decide
  have hright : ")".toList = [')'] := by decide
  have hcode : s.code = "FUNTYPE(type_params=[" ++ ", ".intercalate (s.params.map Ty.code) ++
      "], return_type=" ++ s.result.code ++ ")" := rfl
  rw [hcode, String.toList_append, String.toList_append, String.toList_append, String.toList_append,
    hleft, hmid, hright]
  simp only [List.append_assoc, List.cons_append, List.nil_append]

theorem gives_signature {s : Signature} (hparams : ∀ t ∈ s.params, t.Codable)
    (hresult : s.result.Codable) :
    (signature s.code.toList).Gives s [] := by
  have hsecond :=
    gives_field (by decide : "return_type".toList ≠ []) (s.result.code.toList ++ [')'])
  have hresult := gives_ty hresult [')']
  rw [Text.skipBlanks_cons rfl] at hresult
  rw [Ty.skipBlanks_code] at hsecond
  rw [toList_code_signature]
  generalize hend : "return_type".toList ++ '=' :: (s.result.code.toList ++ [')']) = ending at *
  have hfirst := gives_field (by decide : "type_params".toList ≠ [])
    ('[' :: ((", ".intercalate (s.params.map Ty.code)).toList ++ ']' :: ',' :: ' ' :: ending))
  have hopen := Text.gives_mark '[' CodeMiss.mark
    ((", ".intercalate (s.params.map Ty.code)).toList ++ ']' :: ',' :: ' ' :: ending)
  have hclose := Text.gives_mark ']' CodeMiss.mark (',' :: ' ' :: ending)
  have hcomma := Text.gives_mark ',' CodeMiss.mark (' ' :: ending)
  have hending : Text.skipBlanks ending = ending := by
    rw [← hend]
    exact Text.skipBlanks_cons rfl _
  rw [Text.skipBlanks_cons rfl] at hfirst hclose
  rw [skipBlanks_intercalate_code] at hopen
  rw [Text.skipBlanks_blank rfl, hending] at hcomma
  refine gives_constructed (r := []) (by decide) (Text.skipBlanks_cons rfl _) ?_
  intro hlt
  refine hfirst.bind fun _ => hopen.bind fun _ => gives_within.2 ?_
  have hlist := tys_intercalate hparams (',' :: ' ' :: ending)
  generalize tys _ = list at hlist ⊢
  obtain ⟨⟨ts, rest⟩, hle⟩ := list
  cases hlist
  refine hclose.bind fun _ => hcomma.bind fun _ => hsecond.bind fun _ => ?_
  exact gives_map.2 ⟨s.result, hresult, rfl⟩

theorem whole_eq_ok {α : Type} {reader : (cs : List Char) → CodeReading α cs} {text : String}
    {a : α} (hblank : Text.skipBlanks text.toList = text.toList)
    (h : (reader text.toList).Gives a []) :
    whole reader text = .ok a := by
  rw [← hblank] at h
  obtain ⟨hlt, h⟩ := h
  rw [whole, h]

end TyCode

theorem Ty.ofCode_code {t : Ty} (h : t.Codable) : ofCode t.code = .ok t := by
  have hblank := t.skipBlanks_code []
  have hread := gives_ty h []
  rw [List.append_nil] at hblank hread
  exact whole_eq_ok hblank hread

theorem Signature.ofCode_code {s : Signature} (hparams : ∀ t ∈ s.params, t.Codable)
    (hresult : s.result.Codable) : ofCode s.code = .ok s := by
  refine whole_eq_ok ?_ (gives_signature hparams hresult)
  rw [toList_code_signature]
  exact Text.skipBlanks_cons rfl _

end SplFrontend
