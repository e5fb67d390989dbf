import BoundaryTag.Proofs.Settings.Members

set_option autoImplicit false

/-! # Settings read from an object

An object means the standard settings with its known members in their place (`read_object`). In
which order the members come, what foreign members are between them and where blanks stand makes no
difference, and a known member that comes again ends everything as soon as its name has been read.
Every member has to have a name: a key that is grammatical, but says no text, ends everything as
well, even if its member is foreign (`read_nameless`). -/

namespace BoundaryTag.Settings

open Json
open Member (Written)

/-- The text of an object with the members in the order in which they are written. -/
inductive IsObject (ms : List Member) : List Char → Prop where
  | padded {x s y : List Char} (hx : Blank x) (hs : Enclosed .object Written ms s) (hy : Blank y) :
      IsObject ms (x ++ (s ++ y))

/-- The standard settings with the values of the members in their place. -/
def overridden (ms : List Member) : Settings :=
  ms.foldl Member.override {}

variable {ms ms' : List Member} {f : Field} {k s x y rest : List Char}

/-- The text that is written from settings is an object of their members. -/
theorem isObject_render {s : Settings} (hthresholds : ∀ t ∈ s.thresholds, t < Word.limit)
    (hsplit : s.minSplit < Word.limit) :
    IsObject [.thresholds s.thresholds, .minSplit s.minSplit, .checkAfter s.checkAfter]
      s.render := by
  have hfirst := Member.written_render (m := .thresholds s.thresholds) (y := []) rfl (by decide)
    ⟨hthresholds, enclosed_renderList⟩
  have hsecond := Member.written_render (m := .minSplit s.minSplit) (y := []) rfl (by decide)
    ⟨hsplit, rfl⟩
  have hthird := Member.written_render (m := .checkAfter s.checkAfter) (y := []) rfl (by decide) rfl
  have hrow := Row.more (x := []) (y := []) (by decide) hfirst (by decide)
    (.more (x := []) (y := []) (by decide) hsecond (by decide)
      (.last (x := []) (y := []) (by decide) hthird (by decide)))
  have hobject := IsObject.padded (x := []) (y := []) (by decide) (.row hrow) (by decide)
  rw [render_eq]
  simpa [Bracket.opening, Bracket.closing, Field.render] using hobject

/-! ## Members in any order -/

/-- Whether the reader looks at the value of a member. -/
def Member.isKnown (m : Member) : Bool :=
  m.field?.isSome

theorem overridden_filter : overridden (ms.filter Member.isKnown) = overridden ms := by
  have hskip : (fun s m => if m.isKnown = true then Member.override s m else s) =
      Member.override := by
    funext s m
    cases m <;> rfl
  rw [overridden, List.foldl_filter, hskip, overridden]

/-- Known members that do not come twice may come in any order, with any others between them. -/
theorem overridden_eq_of_perm (hnodup : (ms.filterMap Member.field?).Nodup)
    (hperm : (ms.filter Member.isKnown).Perm (ms'.filter Member.isKnown)) :
    overridden ms = overridden ms' := by
  -- known members that differ touch different parts of the settings, and each commutes with itself
  have hdiffers := (Member.pairwise_differs_iff.mpr hnodup).filter Member.isKnown
  have hcomm := (hdiffers.imp Member.override_comm).forall_of_forall_of_flip (fun _ _ _ => rfl)
    (hdiffers.imp fun h s => (Member.override_comm h s).symm)
  have hfold := hperm.foldl_eq' (fun _ hm _ hm' => hcomm hm hm') {}
  calc overridden ms
      = overridden (ms.filter Member.isKnown) := overridden_filter.symm
    _ = overridden (ms'.filter Member.isKnown) := hfold
    _ = overridden ms' := overridden_filter

/-! ## Rows of members -/

namespace Draft

variable {d : Draft}

theorem settings_foldl_put : (ms.foldl put d).settings = ms.foldl Member.override d.settings :=
  (List.foldl_hom settings fun _ _ => settings_put.symm).symm

/-- Members that are new, each of them, are all put down. -/
theorem members_row (hrow : Row Written ms s) (hdiffers : ms.Pairwise Member.Differs)
    (hnew : ∀ m ∈ ms, d.IsNew m) :
    d.members (Token.ofText (s ++ '\x7d' :: rest)) = .ok (ms.foldl put d, Token.ofText rest) := by
  induction hrow generalizing d with
  | last hx hm hy =>
    rw [List.append_assoc, List.append_assoc,
      members_endObject_of_new hx hm (hnew _ List.mem_cons_self) hy]
    rfl
  | more hx hm hy hr ih =>
    obtain ⟨hfirst, hms⟩ := List.forall_mem_cons.mp hnew
    obtain ⟨hne, hdiffers⟩ := List.pairwise_cons.mp hdiffers
    simp only [List.cons_append, List.append_assoc]
    have hms' := fun m' hm' => (hms m' hm').put (hne m' hm')
    rw [members_comma_of_new hx hm hfirst hy, ih hdiffers hms', List.foldl_cons]

/-- A name that comes again, behind any members at all, is an error: if it is not the first one that
    does, then there is one before it. -/
theorem members_repeated (hrow : Row Written ms s) (hx : Blank x) (hk : Quoted.Writes f.name k)
    (hf : some f ∈ ms.map Member.field? ∨ d.has f = true) :
    d.members (Token.ofText (s ++ ',' :: (x ++ '"' :: (k ++ '"' :: rest)))) = .error .mistyped := by
  induction hrow generalizing d with
  | @last m _ _ _ hx' hm hy =>
    simp only [List.append_assoc]
    by_cases hnew : d.IsNew m
    · rw [members_comma_of_new hx' hm hnew hy, members_of_seen hx hk]
      rw [List.map_singleton, List.mem_singleton] at hf
      rcases hf with hf | hf <;> simp [has_put, hf]
    · exact members_of_not_new hx' hm hnew
  | @more m _ _ _ _ _ hx' hm hy hr ih =>
    simp only [List.cons_append, List.append_assoc]
    by_cases hnew : d.IsNew m
    · rw [members_comma_of_new hx' hm hnew hy, ih]
      rw [List.map_cons, List.mem_cons] at hf
      -- the name was that of this member, of one further on, or was read even before this one
      rcases hf with (hf | hf) | hf
      · simp [has_put, hf]
      · exact .inl hf
      · simp [has_put, hf]
    · exact members_of_not_new hx' hm hnew

/-- An object whose members can be read, or fail for what they say, is not empty. -/
theorem document_of_members {ts : List Token} (h : members {} ts ≠ .error .malformed) :
    document (.beginObject :: ts) = members {} ts := by
  cases ts with
  | nil => rfl
  | cons t ts =>
    cases t
    case endObject => exact absurd (members_of_error rfl) h
    all_goals rfl

theorem ofTokens_object (h : IsObject ms s) (hnodup : (ms.filterMap Member.field?).Nodup) :
    ofTokens (Token.ofText s) = .ok (ms.foldl put {}) := by
  cases h with
  | @padded x s y hx hs hy =>
    have hend : Token.ofText y = [] := by
      rw [← List.append_nil y, Token.ofText_blank hy, Token.ofText_nil]
    rw [Token.ofText_blank hx]
    cases hs with
    | empty hs =>
      simp only [Bracket.opening, Bracket.closing, List.cons_append, List.append_assoc,
        List.nil_append]
      rw [Token.ofText_beginObject, Token.ofText_blank hs, Token.ofText_endObject, hend]
      rfl
    | row hs =>
      have hnew : ∀ m ∈ ms, IsNew {} m := fun m _ f _ => by cases f <;> rfl
      have hdiffers := Member.pairwise_differs_iff.mpr hnodup
      have hmembers : members {} (Token.ofText _) = .ok (_, Token.ofText y) :=
        members_row hs hdiffers hnew
      simp only [Bracket.opening, Bracket.closing, List.cons_append, List.append_assoc,
        List.nil_append]
      rw [Token.ofText_beginObject, ofTokens, document_of_members (by simp [hmembers]), hmembers,
        hend]
      rfl

theorem ofTokens_repeated (hrow : Row Written ms s) (hf : some f ∈ ms.map Member.field?)
    (hx : Blank x) (hy : Blank y) (hk : Quoted.Writes f.name k) :
    ofTokens (Token.ofText (x ++ '\x7b' :: (s ++ ',' :: (y ++ '"' :: (k ++ '"' :: rest))))) =
      .error .mistyped := by
  have hmembers : members {} (Token.ofText (s ++ ',' :: (y ++ '"' :: (k ++ '"' :: rest)))) =
      .error .mistyped := members_repeated hrow hy hk (.inl hf)
  rw [Token.ofText_blank hx, Token.ofText_beginObject, ofTokens,
    document_of_members (by simp [hmembers]), hmembers]
  rfl

end Draft

/-- The text of an object in which no known member comes twice means the standard settings with its
    known members in their place, and the judgement on these settings is all that can stand in the
    way. Neither the order of the members nor the foreign ones nor blanks make a difference. If a
    known member comes again, behind members that are all well written, then that is a type error,
    whatever the rest of the text is. -/
theorem read_object :
    (∀ ms text, IsObject ms text.toList → (ms.filterMap Member.field?).Nodup →
      read text = match (overridden ms).validate with
        | .ok () => .ok (overridden ms)
        | .error objection => .error (.rejected objection)) ∧
    (∀ ms ms' text text', IsObject ms text.toList → IsObject ms' text'.toList →
      (ms.filterMap Member.field?).Nodup → (ms'.filterMap Member.field?).Nodup →
      (ms.filter Member.isKnown).Perm (ms'.filter Member.isKnown) → read text = read text') ∧
    (∀ ms f x s y k rest, Blank x → Row Written ms s → some f ∈ ms.map Member.field? → Blank y →
      Quoted.Writes f.name k →
      read (String.ofList (x ++ '\x7b' :: (s ++ ',' :: (y ++ '"' :: (k ++ '"' :: rest))))) =
        .error (.unreadable .mistyped)) := by
  have hobject : ∀ ms text, IsObject ms text.toList → (ms.filterMap Member.field?).Nodup →
      read text = match (overridden ms).validate with
        | .ok () => .ok (overridden ms)
        | .error objection => .error (.rejected objection) := by
    intro ms text h hnodup
    have hsettings : (ms.foldl Draft.put {}).settings = overridden ms := Draft.settings_foldl_put
    rw [read, Draft.ofTokens_object h hnodup]
    dsimp only
    rw [hsettings]
    cases (overridden ms).validate <;> rfl
  refine ⟨hobject, fun ms ms' text text' h h' hnodup hnodup' hperm => ?_, ?_⟩
  · rw [hobject ms text h hnodup, hobject ms' text' h' hnodup', overridden_eq_of_perm hnodup hperm]
  · intro ms f x s y k rest hx hrow hf hy hk
    rw [read, String.toList_ofList, Draft.ofTokens_repeated hrow hf hx hy hk]

/-- A foreign member with a number out of range and with a key that says nothing. -/
def foreignMember : List Char :=
  ['"', 'x', '"', ':', '[', '1', 'e', '4', '0', '0', ',',
    '\x7b', '"', '\\', 'u', 'd', '8', '0', '0', '"', ':', '[', ']', '\x7d', ']']

/-- An object with its members out of order, a foreign one between them, and a few blanks. -/
def shuffled : List Char :=
  ' ' :: '\x7b' :: (Field.render .minSplit [' ', '4', '8'] ++ ',' :: (foreignMember ++
    '\n' :: ',' :: (Field.render .checkAfter "false".toList ++ ',' ::
      (Field.render .thresholds ['[', '8', ']'] ++ ['\x7d']))))

theorem written_foreignMember : Member.Written .foreign foreignMember := by
  have hnamed : Member.Named .foreign ['x'] := fun f => by cases f <;> decide
  have hone : Numeral.IsDigits ['1'] := ⟨by decide, List.all_eq_true.mp (by decide)⟩
  have hmany : Numeral.IsDigits ['4', '0', '0'] := ⟨by decide, List.all_eq_true.mp (by decide)⟩
  have hnumber : Derives .value ['1', 'e', '4', '0', '0'] :=
    .numeral (.unsigned (i := ['1']) ⟨hone, by decide⟩ .none (.mark (.inl rfl) .none hmany))
  have hkey : Quoted.Spells [.unit 0xd800] ['\\', 'u', 'd', '8', '0', '0'] :=
    .unit (by decide) .nil
  have hmember := Derives.member (x := []) (y := []) hkey (by decide) (by decide)
    (.empty (b := .array) (s := []) (by decide))
  have hobject := Derives.enclosed (b := .object) (.last (x := []) (y := []) (by decide) hmember
    (by decide))
  have harray := Derives.enclosed (b := .array) (.more (x := []) (y := []) (by decide) hnumber
    (by decide) (.last (x := []) (y := []) (by decide) hobject (by decide)))
  exact .colon (x := []) (y := []) hnamed (Quoted.writes_plain (by decide)) (by decide) (by decide)
    harray

theorem isObject_shuffled :
    IsObject [.minSplit 48, .foreign, .checkAfter false, .thresholds [8]] shuffled := by
  have hsplit := Member.written_render (m := .minSplit 48) (y := [' ']) rfl (by decide)
    ⟨by decide, rfl⟩
  have hcheck := Member.written_render (m := .checkAfter false) (y := []) rfl (by decide) rfl
  have hthresholds := Member.written_render (m := .thresholds [8]) (y := []) rfl (by decide)
    ⟨by decide, enclosed_renderList⟩
  have hlast := Row.last (x := []) (y := []) (by decide) hthresholds (by decide)
  have hthird := Row.more (x := []) (y := []) (by decide) hcheck (by decide) hlast
  have hsecond := Row.more (x := []) (y := ['\n']) (by decide) written_foreignMember (by decide)
    hthird
  exact .padded (x := [' ']) (y := []) (by decide)
    (.row (.more (x := []) (y := []) (by decide) hsplit (by decide) hsecond)) (by decide)

/-- The shuffled object is read like the text that is written from the same settings, and a name
    that comes again counts before what is wrong behind it. -/
theorem read_object_shuffled :
    read (String.ofList shuffled) = .ok ⟨[8], 48, false⟩ ∧
      read (text ⟨[8], 48, false⟩) = read (String.ofList shuffled) ∧
      read (String.ofList ('\x7b' :: (Field.render .minSplit ['4', '8'] ++ ',' ::
        Field.render .minSplit ['!']))) = .error (.unreadable .mistyped) := by
  obtain ⟨hread, hsame, hrepeated⟩ := read_object
  have hshuffled := isObject_shuffled
  rw [← String.toList_ofList (l := shuffled)] at hshuffled
  have htext : IsObject [.thresholds [8], .minSplit 48, .checkAfter false]
      (text ⟨[8], 48, false⟩).toList := by
    rw [text, String.toList_ofList]
    exact isObject_render (s := ⟨[8], 48, false⟩) (by decide) (by decide)
  have hsplit := Member.written_render (m := .minSplit 48) (y := []) rfl (by decide)
    ⟨by decide, rfl⟩
  have hname : Quoted.Writes Field.minSplit.name Field.minSplit.name :=
    Quoted.writes_plain (by decide)
  refine ⟨hread _ _ hshuffled (by decide),
    hsame _ _ _ _ htext hshuffled (by decide) (by decide) (by decide), ?_⟩
  exact hrepeated [.minSplit 48] .minSplit [] _ [] _ [':', '!'] (by decide)
    (.last (x := []) (y := []) (by decide) hsplit (by decide)) (by decide) (by decide) hname

/-- The body of a key that is half of a surrogate pair. -/
def halfKey : List Char :=
  ['\\', 'u', 'd', '8', '0', '0']

/-- An object with such a key for its only member. -/
def nameless : List Char :=
  '\x7b' :: ('"' :: (halfKey ++ ['"', ':', '1', '\x7d']))

theorem spells_halfKey : Quoted.Spells [.unit 0xd800] halfKey :=
  .unit (by decide) .nil

theorem isValue_nameless : IsValue nameless := by
  have hone : Numeral.IsDigits ['1'] := ⟨by decide, List.all_eq_true.mp (by decide)⟩
  have hnumber : Derives .value ['1'] :=
    .numeral (.unsigned (i := ['1']) ⟨hone, by decide⟩ .none .none)
  have hmember := Derives.member (x := []) (y := []) spells_halfKey (by decide) (by decide) hnumber
  exact .enclosed (b := .object) (.last (x := []) (y := []) (by decide) hmember (by decide))

/-- Half of a pair says nothing, so it is no name. -/
theorem not_writes_halfKey (name : List Char) : ¬ Quoted.Writes name halfKey := by
  rintro ⟨ps, hspells, hsays⟩
  cases hspells with
  | char hc => exact absurd hc (by decide)
  | escape he =>
    have hnone : Quoted.escaped? 'u' = none := by decide
    cases hnone.symm.trans he
  | unit hn hrest =>
    cases hrest
    have hunit : Quoted.unit? ['d', '8', '0', '0'] = some 0xd800 := by decide
    cases hunit.symm.trans hn
    cases hsays with
    | unit hleading => exact absurd hleading (by decide)

theorem ofTokens_nameless : Draft.ofTokens (Token.ofText nameless) = .error .malformed := by
  have hdocument : ∀ said content ts, Draft.document (.beginObject :: .text said content :: ts) =
      Draft.members {} (.text said content :: ts) := fun _ _ _ => rfl
  rw [nameless, Token.ofText_beginObject, Token.ofText_quoted spells_halfKey, Draft.ofTokens,
    hdocument, Draft.members_of_error rfl]
  rfl

/-- An object whose only member has a key that is no name of a known one. There is no objection to
    the standard settings, but it is not read as these. -/
theorem read_nameless :
    IsValue nameless ∧ (∀ f : Field, ¬ Quoted.Writes f.name halfKey) ∧
      Settings.validate {} = .ok () ∧
      read (String.ofList nameless) = .error (.unreadable .malformed) := by
  refine ⟨isValue_nameless, fun f => not_writes_halfKey f.name,
    validate_eq_ok_iff.mpr (by decide), ?_⟩
  rw [read, String.toList_ofList, ofTokens_nameless]

end BoundaryTag.Settings
