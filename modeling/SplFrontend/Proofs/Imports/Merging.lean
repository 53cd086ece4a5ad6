import Mathlib.Data.List.Find
import SplFrontend.Proofs.Imports.Offers
import SplFrontend.Proofs.Pipeline

/-!
# Merging as a list of offers

Merging reports nothing that counts against the module exactly if some conditions hold on the import
lines and headers, and the table takes the offers of the headers and the built-ins one after the
other (`merge_takes`). Neither the conditions nor the set of offers depend on the order of the
lines.
-/

namespace SplFrontend

namespace Offer

/-- The same thing under another name. -/
def under (name : String) : Offer → Offer
  | .entry space _ e => .entry space name e
  | .overload kind _ o => .overload kind name o

/-- Is this what a name stands for in the module that exports it? -/
def Wanted (name : Name) (a : Offer) : Bool :=
  a.key.exported = name.text &&
    match a.key.space with
    | .inl .globals => name.kind = .ident
    | .inl .synonyms => name.kind = .typeName
    | .inr (kind, _) => Imports.Merge.brings name.kind kind

theorem key_under (name : String) (a : Offer) :
    (a.under name).key = ⟨a.key.space, name, a.key.module, a.key.exported⟩ := by
  cases a <;> rfl

theorem under_name (a : Offer) : a.under a.key.name = a := by
  cases a <;> rfl

end Offer

namespace Header

/-- The offer of a callable. -/
def offerOf (module : String) (name : String) (f : HeaderFn) : Offer :=
  .overload f.kind name ⟨f.sig, module, f.name, f.fixity, f.constant⟩

/-- The offers of entries, each under the name that `named` gives it. -/
def offersOf (module : String) (named : String → String) (globals synonyms : List (String × Ty))
    (functions : List HeaderFn) : List Offer :=
  (globals.map fun x => .entry .globals (named x.1) ⟨module, x.1, x.2⟩) ++
    (synonyms.map fun x => .entry .synonyms (named x.1) ⟨module, x.1, x.2⟩) ++
    functions.map fun f => offerOf module (named f.name) f

/-- What a header offers under its own names. -/
def offers (h : Header) : List Offer := offersOf h.module id h.globals h.synonyms h.functions

/-- What a header offers for a name, under the name that it gets. -/
def offersFor (h : Header) (n : Name × String) : List Offer :=
  (h.offers.filter (Offer.Wanted n.1)).map (Offer.under n.2)

end Header

namespace Imports

/-- The computation reports nothing that counts exactly if the condition holds and the table takes
the offers, and then it leaves that table. -/
def Takes (deny : Bool) (t : ExternalTable) (x : Noted Merge) (C : Prop) (as : List Offer) : Prop :=
  ∀ t', (∀ d ∈ x.notes, Admitted deny d) ∧ x.value.table = t' ↔ C ∧ t.takeAll as = some t'

/-- A report of an error is never admitted. -/
theorem not_admitted {f : Fault} (hf : f.code.isError = true) {deny : Bool} {loc : Loc}
    {related : List Loc} :
    ¬ Admitted deny (f.report loc related) := fun h => by cases hf.symm.trans h.1

/-- A report of a warning is admitted unless warnings are denied. -/
theorem admitted_warning {f : Fault} (hf : f.code.isError = false) {deny : Bool} {loc : Loc}
    {related : List Loc} :
    Admitted deny (f.report loc related) ↔ deny = false := ⟨And.right, fun h => ⟨hf, h⟩⟩

namespace Takes

variable {deny : Bool} {t : ExternalTable} {x y : Noted Merge} {C D : Prop} {as bs : List Offer}

theorem pure (m : Merge) : Takes deny m.table (pure m) True [] := by
  intro t'
  simp [ExternalTable.takeAll]

theorem taken {m m' : Merge} {a : Offer} (h : m.table.take a = some m'.table) :
    Takes deny m.table (Pure.pure m') True [a] := by
  intro t'
  simp [ExternalTable.takeAll, h]

theorem refused {f : Fault} (hf : f.code.isError = true) {loc : Loc} {related : List Loc}
    {a : Offer} (h : t.take a = none) :
    Takes deny t (Noted.note (f.report loc related) >>= fun _ => x) True [a] := by
  refine fun t' => ⟨fun hx => absurd (hx.1 _ List.mem_cons_self) (not_admitted hf), fun hx => ?_⟩
  simp [ExternalTable.takeAll, h] at hx

theorem congr (h : Takes deny t x C as) (hC : C ↔ D) (has : as = bs) : Takes deny t x D bs := by
  intro t'
  rw [← hC, ← has]
  exact h t'

/-- Nothing is taken after an error. -/
theorem note_error {d : Diagnostic} (hd : ¬ Admitted deny d) (hC : C → t.takeAll as = none) :
    Takes deny t (Noted.note d >>= fun _ => x) C as := by
  refine fun t' => ⟨fun h => absurd (h.1 d List.mem_cons_self) hd, fun h => ?_⟩
  cases (hC h.1).symm.trans h.2

theorem note {d : Diagnostic} (h : Takes deny t x C as) :
    Takes deny t (Noted.note d >>= fun _ => x) (Admitted deny d ∧ C) as := by
  intro t'
  rw [Noted.forall_notes_bind, and_assoc, and_assoc]
  exact and_congr (by simp [Noted.note]) (h t')

theorem bind {f : Merge → Noted Merge} (hx : Takes deny t x C as)
    (hf : ∀ m, Takes deny m.table (f m) D bs) :
    Takes deny t (x >>= f) (C ∧ D) (as ++ bs) := by
  intro t'
  rw [Noted.forall_notes_bind, ExternalTable.takeAll_append, Noted.value_bind]
  constructor
  · rintro ⟨⟨hnx, hnf⟩, hvalue⟩
    obtain ⟨hC, htable⟩ := (hx x.value.table).1 ⟨hnx, rfl⟩
    obtain ⟨hD, hrest⟩ := (hf x.value t').1 ⟨hnf, hvalue⟩
    exact ⟨⟨hC, hD⟩, by rw [htable, Option.bind_some, hrest]⟩
  · rintro ⟨⟨hC, hD⟩, htake⟩
    obtain ⟨u, hu, hrest⟩ := Option.bind_eq_some_iff.1 htake
    obtain ⟨hnx, rfl⟩ := (hx u).2 ⟨hC, hu⟩
    obtain ⟨hnf, hvalue⟩ := (hf x.value t').2 ⟨hD, hrest⟩
    exact ⟨⟨hnx, hnf⟩, hvalue⟩

theorem foldlM {ι : Type} {f : Merge → ι → Noted Merge} {C : ι → Prop} {g : ι → List Offer}
    {l : List ι} (h : ∀ i ∈ l, ∀ m, Takes deny m.table (f m i) (C i) (g i)) (m : Merge) :
    Takes deny m.table (l.foldlM f m) (∀ i ∈ l, C i) (l.flatMap g) := by
  induction l generalizing m with
  | nil => exact (pure m).congr (by simp) rfl
  | cons i l ih =>
    obtain ⟨hi, hl⟩ := List.forall_mem_cons.1 h
    rw [List.foldlM_cons]
    exact ((hi m).bind (ih hl)).congr List.forall_mem_cons.symm rfl

theorem each {ι : Type} {f : Merge → ι → Noted Merge} {g : ι → Offer} {l : List ι}
    (h : ∀ i ∈ l, ∀ m, Takes deny m.table (f m i) True [g i]) (m : Merge) :
    Takes deny m.table (l.foldlM f m) True (l.map g) :=
  (foldlM (C := fun _ => True) h m).congr (by simp) List.map_eq_flatMap.symm

end Takes

namespace Merge

variable {deny : Bool} {loc : Loc}

/-! ## One offer -/

theorem addGlobal_takes (m : Merge) (name : String) (e : ExternalEntry) :
    Takes deny m.table (m.addGlobal loc name e) True [.entry .globals name e] := by
  rw [addGlobal]
  cases hins : m.table.insertGlobal name e with
  | ok table => exact .taken (by rw [ExternalTable.take, hins]; rfl)
  | error held => exact .refused rfl (by rw [ExternalTable.take, hins]; rfl)

theorem table_enter (m : Merge) (name : String) (loc : Loc) :
    (m.enter name loc).table = m.table := by
  rw [enter]
  split <;> rfl

theorem addSynonym_takes (m : Merge) (name : String) (e : ExternalEntry) :
    Takes deny m.table (m.addSynonym loc name e) True [.entry .synonyms name e] := by
  rw [addSynonym]
  cases hins : m.table.insertSynonym name e with
  | ok table => exact .taken (by rw [ExternalTable.take, hins, table_enter]; rfl)
  | error held => exact .refused rfl (by rw [ExternalTable.take, hins]; rfl)

theorem addFunction_takes (m : Merge) (module name : String) (f : HeaderFn) :
    Takes deny m.table (m.addFunction loc module name f) True [Header.offerOf module name f] := by
  obtain ⟨kind, exported, fixity, sig, constant⟩ := f
  rw [addFunction]
  cases kind with
  | function | prefixOp => exact .taken rfl
  | infixOp =>
    have htake :
        m.table.take (Header.offerOf module name ⟨.infixOp, exported, fixity, sig, constant⟩) =
        if (fixity.bind fun x => (m.otherFixity name x).map fun o => (x, o)).isSome then none
        else some
          (m.table.addOverload .infixOp name ⟨sig, module, exported, fixity, constant⟩) := by
      rw [Header.offerOf, ExternalTable.take]
      congr 2
      cases fixity <;> simp [otherFixity]
    dsimp only at htake ⊢
    cases hother : fixity.bind fun x => (m.otherFixity name x).map fun o => (x, o) with
    | some => exact .refused rfl (by rw [htake, hother]; rfl)
    | none => exact .taken (by rw [htake, hother, table_enter]; rfl)

theorem addBuiltinSynonym_takes (m : Merge) (name : String) (e : ExternalEntry) :
    Takes deny m.table (m.addBuiltinSynonym name e) True [.entry .synonyms name e] := by
  rw [addBuiltinSynonym]
  cases hins : m.table.insertSynonym name e with
  | ok table => exact .taken (by rw [ExternalTable.take, hins]; rfl)
  | error held => exact .refused rfl (by rw [ExternalTable.take, hins]; rfl)

theorem addBuiltinOverload_takes (m : Merge) {kind : CallKind} (name : String)
    {o : ExternalOverload} (ho : o.fixity ≠ none → kind = .infixOp) :
    Takes deny m.table (m.addBuiltinOverload kind name o) True [.overload kind name o] := by
  have htake : m.table.take (.overload kind name o) =
      if (o.fixity.bind fun x => (m.otherFixity name x).map fun other => (x, other)).isSome then
        none
      else some (m.table.addOverload kind name o) := by
    cases hfix : o.fixity with
    | none => cases kind <;> simp [ExternalTable.take, hfix]
    | some x =>
      obtain rfl := ho (by simp [hfix])
      simp [ExternalTable.take, hfix, otherFixity]
  rw [addBuiltinOverload]
  cases hother : o.fixity.bind fun x => (m.otherFixity name x).map fun other => (x, other) with
  | some => exact .refused rfl (by rw [htake, hother]; rfl)
  | none => exact .taken (by rw [htake, hother]; rfl)

/-! ## One module -/

/-- Adds some entries of a header, each under the name that `named` gives it. -/
def bring (m : Merge) (loc : Loc) (module : String) (named : String → String)
    (globals synonyms : List (String × Ty)) (functions : List HeaderFn) : Noted Merge := do
  let m ← globals.foldlM (fun m x => m.addGlobal loc (named x.1) ⟨module, x.1, x.2⟩) m
  let m ← synonyms.foldlM (fun m x => m.addSynonym loc (named x.1) ⟨module, x.1, x.2⟩) m
  functions.foldlM (fun m f => m.addFunction loc module (named f.name) f) m

theorem bring_takes (m : Merge) (module : String) (named : String → String)
    (globals synonyms : List (String × Ty)) (functions : List HeaderFn) :
    Takes deny m.table (m.bring loc module named globals synonyms functions) True
      (Header.offersOf module named globals synonyms functions) := by
  refine ((Takes.each ?_ m).bind fun m => (Takes.each ?_ m).bind fun m => Takes.each ?_ m).congr
    (by simp) (List.append_assoc ..).symm
  · exact fun x _ m => addGlobal_takes m _ _
  · exact fun x _ m => addSynonym_takes m _ _
  · exact fun f _ m => addFunction_takes m _ _ f

theorem addAll_takes (m : Merge) (h : Header) : Takes deny m.table (m.addAll loc h) True h.offers :=
  bring_takes m h.module id h.globals h.synonyms h.functions

theorem offersFor_eq (h : Header) (name : Name) (asName : String) : h.offersFor (name, asName) =
    Header.offersOf h.module (fun _ => asName)
      (if name.kind = .ident then h.globals.filter (·.1 = name.text) else [])
      (if name.kind = .typeName then h.synonyms.filter (·.1 = name.text) else [])
      (h.functions.filter fun f => f.name = name.text && brings name.kind f.kind) := by
  have hif :
      ∀ (c : Prop) [Decidable c] (l : List (String × Ty)),
        (if c then l.filter (·.1 = name.text) else []) =
      l.filter fun x => x.1 = name.text && c := by
    intro c _ l
    split
    next hc => simp [hc]
    next hc => simp [hc]
  rw [hif, hif, Header.offersFor, Header.offers, Header.offersOf, Header.offersOf]
  simp only [List.filter_append, List.map_append, List.filter_map, List.map_map]
  rfl

theorem isEmpty_offersOf (module : String) (named : String → String)
    (globals synonyms : List (String × Ty)) (functions : List HeaderFn) :
    (Header.offersOf module named globals synonyms functions).isEmpty =
      (globals.isEmpty && synonyms.isEmpty && functions.isEmpty) := by
  cases globals <;> cases synonyms <;> cases functions <;> rfl

theorem addName_eq (m : Merge) (loc : Loc) (h : Header) (name : Name) (asName : String) :
    m.addName loc h name asName = (fun m => (!(h.offersFor (name, asName)).isEmpty, m)) <$>
      m.bring loc h.module (fun _ => asName)
        (if name.kind = .ident then h.globals.filter (·.1 = name.text) else [])
        (if name.kind = .typeName then h.synonyms.filter (·.1 = name.text) else [])
        (h.functions.filter fun f => f.name = name.text && brings name.kind f.kind) := by
  simp only [offersFor_eq, isEmpty_offersOf, addName, bring, map_eq_pure_bind, bind_assoc]

theorem addName_takes {f : Bool × Merge → Noted Merge} {C : Prop} {bs : List Offer} (m : Merge)
    (h : Header) (name : Name) (asName : String)
    (hf : ∀ m, Takes deny m.table (f (!(h.offersFor (name, asName)).isEmpty, m)) C bs) :
    Takes deny m.table (m.addName loc h name asName >>= f) C
      (h.offersFor (name, asName) ++ bs) := by
  rw [addName_eq, bind_map_left]
  refine ((bring_takes m h.module (fun _ => asName) _ _ _).bind hf).congr
    (iff_of_eq (true_and C)) ?_
  rw [← offersFor_eq]

/-- What a listed name asks for. -/
abbrev asked (n : ImportName) : Name × String := (n.name, n.effective.text)

/-- What the listed names ask for beyond what is known, each once. -/
def fresh (known : List (Name × String)) (ns : List ImportName) : List (Name × String) :=
  ((ns.map asked).filter fun k => k ∉ known).eraseDups

/-- The conditions on listed names: they are renamed within their class, exported by the header, and
if warnings count each is listed once. -/
structure Listable (deny : Bool) (h : Header) (known : List (Name × String))
    (ns : List ImportName) : Prop where
  kinds : ∀ n ∈ ns, n.effective.kind = n.name.kind
  once : deny = true → (ns.map asked).Nodup ∧ ∀ k ∈ ns.map asked, k ∉ known
  exported : ∀ k ∈ fresh known ns, h.offersFor k ≠ []

theorem fresh_cons_of_mem {known : List (Name × String)} {n : ImportName} (ns : List ImportName)
    (hn : asked n ∈ known) : fresh known (n :: ns) = fresh known ns := by
  rw [fresh, fresh, List.map_cons, List.filter_cons_of_neg (by simpa using hn)]

theorem fresh_cons_of_not_mem {known : List (Name × String)} {n : ImportName} (ns : List ImportName)
    (hn : asked n ∉ known) : fresh known (n :: ns) = asked n :: fresh (known ++ [asked n]) ns := by
  rw [fresh, fresh, List.map_cons, List.filter_cons_of_pos (by simpa using hn), List.eraseDups_cons,
    List.filter_filter]
  congr 2
  refine List.filter_congr fun k _ => ?_
  by_cases hk : k ∈ known <;> by_cases heq : k = asked n <;> simp [hk, heq]

theorem listable_nil (deny : Bool) (h : Header) (known : List (Name × String)) :
    Listable deny h known [] :=
  ⟨List.forall_mem_nil _, fun _ => ⟨List.nodup_nil, List.forall_mem_nil _⟩, List.forall_mem_nil _⟩

section
variable {h : Header} {known : List (Name × String)} {n : ImportName} {ns : List ImportName}

theorem listable_cons_of_mem (hkind : n.effective.kind = n.name.kind) (hn : asked n ∈ known) :
    Listable deny h known (n :: ns) ↔ deny = false ∧ Listable deny h known ns := by
  constructor
  · intro hl
    have hdeny : deny = false :=
      Bool.eq_false_iff.2 fun hdeny => (hl.once hdeny).2 _ List.mem_cons_self hn
    refine ⟨hdeny, (List.forall_mem_cons.1 hl.kinds).2, fun hx => ?_, ?_⟩
    · cases hdeny.symm.trans hx
    · rw [← fresh_cons_of_mem ns hn]
      exact hl.exported
  · rintro ⟨hdeny, hl⟩
    refine ⟨List.forall_mem_cons.2 ⟨hkind, hl.kinds⟩, fun hx => ?_, ?_⟩
    · cases hdeny.symm.trans hx
    · rw [fresh_cons_of_mem ns hn]
      exact hl.exported

theorem listable_cons_of_not_mem (hkind : n.effective.kind = n.name.kind) (hn : asked n ∉ known) :
    Listable deny h known (n :: ns) ↔ h.offersFor (asked n) ≠ [] ∧
      Listable deny h (known ++ [asked n]) ns := by
  have honce : ((n :: ns).map asked).Nodup ∧ (∀ k ∈ (n :: ns).map asked, k ∉ known) ↔
      (ns.map asked).Nodup ∧ ∀ k ∈ ns.map asked, k ∉ known ++ [asked n] := by
    simp only [List.map_cons, List.nodup_cons, List.forall_mem_cons, List.mem_append,
      List.mem_singleton, not_or]
    constructor
    · rintro ⟨⟨hnot, hnodup⟩, -, hknown⟩
      exact ⟨hnodup, fun k hk => ⟨hknown k hk, fun hkn => hnot (hkn ▸ hk)⟩⟩
    · rintro ⟨hnodup, hknown⟩
      exact ⟨⟨fun hk => (hknown _ hk).2 rfl, hnodup⟩, hn, fun k hk => (hknown k hk).1⟩
  constructor
  · rintro ⟨hkinds, hone, hexp⟩
    rw [fresh_cons_of_not_mem ns hn, List.forall_mem_cons] at hexp
    exact ⟨hexp.1, (List.forall_mem_cons.1 hkinds).2, fun hx => honce.1 (hone hx), hexp.2⟩
  · rintro ⟨hfound, hkinds, hone, hexp⟩
    refine ⟨List.forall_mem_cons.2 ⟨hkind, hkinds⟩, fun hx => honce.2 (hone hx), ?_⟩
    rw [fresh_cons_of_not_mem ns hn, List.forall_mem_cons]
    exact ⟨hfound, hexp⟩

end

theorem addNames_takes (h : Header) (ns : List ImportName)
    (seen : List (Name × String × Loc)) (m : Merge) :
    Takes deny m.table (addNames h ns seen m) (Listable deny h (seen.map fun s => (s.1, s.2.1)) ns)
      ((fresh (seen.map fun s => (s.1, s.2.1)) ns).flatMap h.offersFor) := by
  induction ns generalizing seen m with
  | nil => exact (Takes.pure m).congr (iff_of_true trivial (listable_nil ..)) rfl
  | cons n ns ih =>
    rw [addNames]
    split
    next hkind =>
      exact .note_error (not_admitted rfl) fun hl => absurd (hl.kinds n List.mem_cons_self) hkind
    next hkind =>
      have hkind := Decidable.not_not.1 hkind
      cases hseen : seen.find? fun s => s.1 = n.name && s.2.1 = n.effective.text with
      | some s =>
        have hknown : asked n ∈ seen.map fun s => (s.1, s.2.1) := by
          have hs := List.find?_some hseen
          simp only [Bool.and_eq_true, decide_eq_true_eq] at hs
          exact List.mem_map.2 ⟨s, List.mem_of_find?_eq_some hseen, by rw [asked, hs.1, hs.2]⟩
        refine (Takes.note (ih seen m)).congr ?_ (by rw [fresh_cons_of_mem ns hknown])
        rw [listable_cons_of_mem hkind hknown, admitted_warning rfl]
      | none =>
        have hknown : asked n ∉ seen.map fun s => (s.1, s.2.1) := by
          intro hmem
          obtain ⟨s, hs, heq⟩ := List.mem_map.1 hmem
          simp only [asked, Prod.mk.injEq] at heq
          exact List.find?_eq_none.1 hseen s hs (by simp [heq.1, heq.2])
        rw [fresh_cons_of_not_mem ns hknown, listable_cons_of_not_mem hkind hknown]
        refine addName_takes m h n.name n.effective.text fun m => ?_
        have hrest := ih (seen ++ [(n.name, n.effective.text, n.loc)]) m
        rw [List.map_append] at hrest
        cases hfound : h.offersFor (asked n) with
        | nil => exact .note_error (not_admitted rfl) fun hl => absurd rfl hl.1
        | cons => exact hrest.congr ⟨fun hl => ⟨List.cons_ne_nil _ _, hl⟩, And.right⟩ rfl

/-- The conditions on the import lines of a module, given its header. -/
structure Askable (deny : Bool) (h : Header) (lines : List Import) : Prop where
  listable : Listable deny h [] (listed lines)
  oneWay : deny = true → (wholeAt lines).isSome → listed lines = []

/-- What the import lines of a module ask for. -/
def asks (h : Header) (lines : List Import) : List Offer :=
  (if (wholeAt lines).isSome then h.offers else []) ++ (fresh [] (listed lines)).flatMap h.offersFor

theorem addModule_takes (m : Merge) (h : Header) (lines : List Import) :
    Takes deny m.table (m.addModule h lines) (Askable deny h lines) (asks h lines) := by
  have hnames :
      ∀ m : Merge, Takes deny m.table (addNames h (listed lines) [] m)
        (Listable deny h [] (listed lines))
      ((fresh [] (listed lines)).flatMap h.offersFor) := addNames_takes h (listed lines) []
  have haskable : Askable deny h lines ↔
      (deny = true → (wholeAt lines).isSome → listed lines = []) ∧
        Listable deny h [] (listed lines) :=
    ⟨fun hx => ⟨hx.oneWay, hx.listable⟩, fun hx => ⟨hx.2, hx.1⟩⟩
  rw [addModule, asks, haskable]
  cases hwhole : wholeAt lines with
  | none => exact (hnames m).congr (by simp) rfl
  | some whole =>
    have hboth : Takes deny m.table (m.addAll whole h >>= fun m => addNames h (listed lines) [] m)
        (True ∧ Listable deny h [] (listed lines))
          (h.offers ++ (fresh [] (listed lines)).flatMap h.offersFor) :=
      (addAll_takes m h).bind hnames
    cases hlisted : listed lines with
    | nil =>
      rw [hlisted] at hboth
      exact hboth.congr (by simp) rfl
    | cons n ns =>
      rw [hlisted] at hboth
      refine (Takes.note hboth).congr ?_ rfl
      rw [admitted_warning rfl]
      simp

/-! ## The built-ins -/

/-- The built-ins as offers. -/
def builtinOffers (builtins : ExternalTable) : List Offer :=
  (builtins.synonyms.map fun x => .entry .synonyms x.1 x.2) ++
    builtins.functions.entries.map fun e => .overload e.1 e.2.1 e.2.2

theorem addBuiltins_takes {builtins : ExternalTable}
    (hb : ∀ e ∈ builtins.functions.entries, e.2.2.fixity ≠ none → e.1 = .infixOp) (m : Merge) :
    Takes deny m.table (m.addBuiltins builtins) True (builtinOffers builtins) := by
  refine ((Takes.each ?_ m).bind fun m => Takes.each ?_ m).congr (by simp) rfl
  · exact fun x _ m => addBuiltinSynonym_takes m x.1 x.2
  · exact fun e he m => addBuiltinOverload_takes m e.2.1 (hb e he)

end Merge

/-! ## All modules -/

section
variable (deny : Bool) (texts : HeaderTexts) (builtins : ExternalTable)

/-- The header that a module is imported by. -/
abbrev headerOf (module : String) : Option Header := (header texts builtins module .nowhere).value

/-- The conditions on the imports of a module. -/
structure Importable (module : String) (lines : List Import) : Prop where
  loads : ∀ d ∈ (header texts builtins module .nowhere).notes, Admitted deny d
  askable : ∃ h, headerOf texts builtins module = some h ∧ Merge.Askable deny h lines

/-- What the imports of a module ask for. -/
def importOffers (module : String) (lines : List Import) : List Offer :=
  (headerOf texts builtins module).elim [] fun h => Merge.asks h lines

end

variable {deny : Bool} {texts : HeaderTexts} {builtins : ExternalTable}

theorem forall_notes_header (module : String) (loc loc' : Loc) :
    (∀ d ∈ (header texts builtins module loc).notes, Admitted deny d) →
      ∀ d ∈ (header texts builtins module loc').notes, Admitted deny d :=
  admitted_of_codes (header_alike texts builtins module loc' loc).codes

/-- A header that cannot be used is reported. -/
theorem exists_headerOf {module : String}
    (h : ∀ d ∈ (header texts builtins module .nowhere).notes, Admitted deny d) :
    ∃ hd, headerOf texts builtins module = some hd := by
  have herror : ∀ {f : Fault}, f.code.isError = true →
      (∀ d ∈ (Noted.note (f.report .nowhere) >>= fun _ =>
        (pure none : Noted (Option Header))).notes, Admitted deny d) → False :=
    fun hf hx => not_admitted hf (hx _ List.mem_cons_self)
  unfold headerOf
  rw [header] at h ⊢
  split at h
  · exact (herror rfl h).elim
  · split at h
    · exact (herror rfl h).elim
    · split at h
      next hmod => exact ⟨_, by rw [if_pos hmod]; rfl⟩
      · exact (herror rfl h).elim

theorem mergeModule_takes (imports : List Import) (m : Merge) (module : String) :
    Takes deny m.table (mergeModule texts builtins imports m module)
      (Importable deny texts builtins module (imports.filter (·.module = module)))
      (importOffers texts builtins module (imports.filter (·.module = module))) := by
  set lines := imports.filter (·.module = module)
  generalize hloc : (lines.head?.map Import.loc).getD .nowhere = loc
  have hvalue : (header texts builtins module loc).value = headerOf texts builtins module :=
    (header_alike texts builtins module loc .nowhere).value.1
  have hnotes : (∀ d ∈ (header texts builtins module loc).notes, Admitted deny d) ↔
      ∀ d ∈ (header texts builtins module .nowhere).notes, Admitted deny d :=
    ⟨forall_notes_header module loc .nowhere, forall_notes_header module .nowhere loc⟩
  have himportable : Importable deny texts builtins module lines ↔
      (∀ d ∈ (header texts builtins module .nowhere).notes, Admitted deny d) ∧
        ∃ h, headerOf texts builtins module = some h ∧ Merge.Askable deny h lines :=
    ⟨fun hx => ⟨hx.loads, hx.askable⟩, fun hx => ⟨hx.1, hx.2⟩⟩
  intro t'
  rw [mergeModule, hloc, Noted.forall_notes_bind, Noted.value_bind, hvalue, hnotes, and_assoc,
    himportable, and_assoc]
  refine and_congr_right fun hloads => ?_
  obtain ⟨h, hh⟩ := exists_headerOf hloads
  simp only [hh, importOffers, Option.elim, Option.some.injEq, exists_eq_left']
  exact Merge.addModule_takes m h lines t'

theorem merge_takes (hb : ∀ e ∈ builtins.functions.entries, e.2.2.fixity ≠ none → e.1 = .infixOp)
    (imports : List Import) (t : ExternalTable) :
    (∀ d ∈ (merge texts builtins imports).notes, Admitted deny d) ∧
      (merge texts builtins imports).value.externals = t ↔
      (∀ m ∈ modules imports, Importable deny texts builtins m (imports.filter (·.module = m))) ∧
        ExternalTable.takeAll {} (((modules imports).flatMap fun m =>
          importOffers texts builtins m (imports.filter (·.module = m))) ++
            Merge.builtinOffers builtins) = some t := by
  have hmerge : merge texts builtins imports = (fun m : Merge => ⟨m.table, modules imports⟩) <$>
      ((modules imports).foldlM (mergeModule texts builtins imports) {} >>=
        fun m => m.addBuiltins builtins) := by
    simp only [merge, map_eq_pure_bind, bind_assoc]
  rw [hmerge, Noted.notes_map, Noted.value_map]
  have hmodules : Takes deny {} ((modules imports).foldlM (mergeModule texts builtins imports) {})
      (∀ m ∈ modules imports, Importable deny texts builtins m (imports.filter (·.module = m)))
      ((modules imports).flatMap fun m =>
        importOffers texts builtins m (imports.filter (·.module = m))) :=
    .foldlM (fun module _ m => mergeModule_takes imports m module) {}
  exact (hmodules.bind (Merge.addBuiltins_takes hb)).congr (iff_of_eq (and_true _)) rfl t

end Imports

end SplFrontend
