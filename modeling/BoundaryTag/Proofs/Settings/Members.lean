import BoundaryTag.Proofs.Json.Skipping
import BoundaryTag.Proofs.Settings.RoundTrip

set_option autoImplicit false

/-! # Members of a settings object

How the members of a settings object may be written (`Member.Written`), what each does to the
settings (`Member.override`), and that the reader does just that: a member that is new to it is put
down and left behind (`Draft.readMember_of_new`), and one that was read before ends everything
(`Draft.readMember_of_seen`). -/

namespace BoundaryTag.Settings

open Json

/-- A member of an object: one of the known three with its value, or any other. -/
inductive Member where
  | thresholds (ns : List Nat)
  | minSplit (n : Nat)
  | checkAfter (b : Bool)
  | foreign
  deriving DecidableEq

/-- A word in decimal digits. -/
def IsWord (n : Nat) (s : List Char) : Prop :=
  s = renderNat n

theorem row_moreDigits {n : Nat} {ns : List Nat} :
    Row IsWord (n :: ns) (renderNat n ++ moreDigits ns) := by
  induction ns generalizing n with
  | nil => exact .last (x := []) (y := []) (by decide) rfl (by decide)
  | cons n' ns ih => exact .more (x := []) (y := []) (by decide) rfl (by decide) ih

theorem enclosed_renderList {ns : List Nat} : Enclosed .array IsWord ns (renderList ns) := by
  cases ns with
  | nil => exact .empty (s := []) (by decide)
  | cons n ns =>
    rw [renderList, intercalate_renderNat]
    exact .row row_moreDigits

namespace Member

/-- Which of the known members it is. -/
def field? : Member → Option Field
  | .thresholds _ => some .thresholds
  | .minSplit _ => some .minSplit
  | .checkAfter _ => some .checkAfter
  | .foreign => none

/-- The settings with the value of the member in its place. -/
def override (s : Settings) : Member → Settings
  | .thresholds ns => { s with thresholds := ns }
  | .minSplit n => { s with minSplit := n }
  | .checkAfter b => { s with checkAfter := b }
  | .foreign => s

/-- A known member goes by its own name, and any other by a name that no known member has. -/
def Named (m : Member) (name : List Char) : Prop :=
  ∀ f : Field, name = f.name ↔ m.field? = some f

/-- How the value of the member is written. Numbers are words; what a foreign member holds is any
    value at all. -/
def Valued : Member → List Char → Prop
  | .thresholds ns, s => (∀ n ∈ ns, n < Word.limit) ∧ Enclosed .array IsWord ns s
  | .minSplit n, s => n < Word.limit ∧ IsWord n s
  | .checkAfter b, s => s = renderBool b
  | .foreign, s => IsValue s

/-- How the member is written: a string that says its name, a colon, and its value. Its name has to
    be said even if it is foreign; strings inside of a foreign value need not say anything. -/
inductive Written (m : Member) : List Char → Prop where
  | colon {name k x y v : List Char} (hname : m.Named name) (hk : Quoted.Writes name k)
      (hx : Blank x) (hy : Blank y) (hv : m.Valued v) :
      Written m ('"' :: (k ++ '"' :: (x ++ ':' :: (y ++ v))))

variable {m m' : Member} {f : Field} {name v y : List Char}

theorem ofName?_of_named (h : m.Named name) : Field.ofName? name = m.field? := by
  cases hf : m.field? with
  | some f =>
    rw [(h f).mpr hf]
    exact Draft.ofName?_name f
  | none =>
    refine List.find?_eq_none.mpr fun f _ hname => ?_
    have hsome := (h f).mp (of_decide_eq_true hname).symm
    rw [hf] at hsome
    cases hsome

theorem named_name (hf : m.field? = some f) : m.Named f.name := by
  intro g
  rw [hf, Option.some.injEq]
  refine ⟨fun hname => ?_, fun hfield => by rw [hfield]⟩
  have hsome := Draft.ofName?_name f
  rw [hname, Draft.ofName?_name g] at hsome
  exact (Option.some.inj hsome).symm

/-- A known member may be written with its plain name. -/
theorem written_render (hf : m.field? = some f) (hy : Blank y) (hv : m.Valued v) :
    m.Written (f.render (y ++ v)) := by
  have hplain : f.name.all Quoted.isPlain = true := by
    cases f <;> decide
  exact .colon (x := []) (named_name hf) (Quoted.writes_plain hplain) (by decide) hy hv

/-- Two members that are not the same known one. -/
def Differs (m m' : Member) : Prop :=
  ∀ f, m.field? = some f → ∀ f', m'.field? = some f' → f ≠ f'

theorem pairwise_differs_iff {ms : List Member} :
    ms.Pairwise Differs ↔ (ms.filterMap field?).Nodup :=
  List.pairwise_filterMap.symm

/-- Different members may come in any order. -/
theorem override_comm (h : m.Differs m') (s : Settings) :
    override (override s m) m' = override (override s m') m := by
  cases m <;> cases m' <;> first | rfl | exact absurd rfl (h _ rfl _ rfl)

end Member

namespace Draft

open Member (Written Valued)

variable {d : Draft} {m m' : Member} {f : Field} {ns : List Nat} {k s v x y rest : List Char}

/-- What has been read, with one more member. -/
def put (d : Draft) : Member → Draft
  | .thresholds ns => { d with thresholds := some ns }
  | .minSplit n => { d with minSplit := some n }
  | .checkAfter b => { d with checkAfter := some b }
  | .foreign => d

theorem settings_put : (d.put m).settings = m.override d.settings := by
  cases m <;> rfl

theorem has_put : (d.put m).has f = (decide (m.field? = some f) || d.has f) := by
  cases m <;> cases f <;> rfl

/-! ## Values -/

theorem ofText_renderNat {n : Nat} (hs : IsWord n s) (hrest : Numeral.Stops rest) :
    Token.ofText (s ++ rest) = .ofNat n :: Token.ofText rest := by
  rw [hs, renderNat, Token.ofText_toDigits hrest]

theorem ofText_words (h : Row IsWord ns s) :
    Token.ofText (s ++ ']' :: rest) = listTokens ns ++ .endArray :: Token.ofText rest := by
  induction h with
  | last hx hs hy =>
    have hstops : Numeral.Stops (']' :: rest) := stops_closing (b := .array)
    rw [List.append_assoc, List.append_assoc, Token.ofText_blank hx,
      ofText_renderNat hs (hy.stops_append hstops), Token.ofText_blank hy, Token.ofText_endArray]
    rfl
  | more hx hs hy hr ih =>
    simp only [List.cons_append, List.append_assoc]
    rw [Token.ofText_blank hx, ofText_renderNat hs (hy.stops_append stops_comma),
      Token.ofText_blank hy, Token.ofText_comma, ih]
    cases hr <;> rfl

theorem ofText_enclosed (h : Enclosed .array IsWord ns v) :
    Token.ofText (v ++ rest) =
      .beginArray :: (listTokens ns ++ .endArray :: Token.ofText rest) := by
  cases h with
  | empty hs =>
    simp only [Bracket.opening, Bracket.closing, List.cons_append, List.append_assoc,
      List.nil_append]
    rw [Token.ofText_beginArray, Token.ofText_blank hs, Token.ofText_endArray]
    rfl
  | row hs =>
    simp only [Bracket.opening, Bracket.closing, List.cons_append, List.append_assoc,
      List.nil_append]
    rw [Token.ofText_beginArray, ofText_words hs]

/-- The value of a known member is read as it was meant, up to its end. -/
theorem readValue_of_valued (hf : m.field? = some f) (hv : m.Valued v)
    (hrest : Numeral.Stops rest) :
    d.readValue f (Token.ofText (v ++ rest)) = .ok (d.put m, Token.ofText rest) := by
  cases m with
  | thresholds ns =>
    cases hf
    rw [ofText_enclosed hv.2, readValue_thresholds hv.1]
    rfl
  | minSplit n =>
    cases hf
    rw [ofText_renderNat hv.2 hrest, readValue_minSplit hv.1]
    rfl
  | checkAfter b =>
    cases hf
    rw [show v = renderBool b from hv, ofText_renderBool, readValue_checkAfter]
    rfl
  | foreign => cases hf

/-! ## Members -/

theorem takeColon_blank (hx : Blank x) (hy : Blank y) :
    takeColon (Token.ofText (x ++ ':' :: (y ++ v))) = .ok (Token.ofText v) := by
  rw [Token.ofText_blank hx, Token.ofText_colon, Token.ofText_blank hy]
  rfl

/-- A member is new if it is foreign or has not been read. -/
def IsNew (d : Draft) (m : Member) : Prop :=
  ∀ f, m.field? = some f → d.has f = false

theorem IsNew.put (h : d.IsNew m') (hne : m.Differs m') : (d.put m).IsNew m' := by
  intro f hf
  rw [has_put, h f hf, Bool.or_false, decide_eq_false_iff_not]
  exact fun hm => hne f hm f hf rfl

theorem readMember_of_new (hm : m.Written s) (hnew : d.IsNew m) (hrest : Numeral.Stops rest) :
    d.readMember (Token.ofText (s ++ rest)) = .ok (d.put m, Token.ofText rest) := by
  cases hm with
  | colon hname hk hx hy hv =>
    simp only [List.cons_append, List.append_assoc]
    rw [Token.ofText_writes hk, Token.name, readMember, ok_bind, Member.ofName?_of_named hname,
      takeColon_blank hx hy]
    cases hf : m.field? with
    | some f =>
      simp only [hnew f hf, ok_bind]
      exact readValue_of_valued hf hv hrest
    | none =>
      cases m
      case foreign =>
        rw [ok_bind, IsValue.skipValue hv hrest, skipAfter]
        rfl
      all_goals cases hf

/-- A name that was read before is an error before its value is looked at. -/
theorem readMember_of_seen (hk : Quoted.Writes f.name k) (hseen : d.has f = true) :
    d.readMember (Token.ofText ('"' :: (k ++ '"' :: rest))) = .error .mistyped := by
  rw [Token.ofText_writes hk, Token.name, readMember, ok_bind, ofName?_name]
  simp only [hseen]
  rfl

theorem members_of_error {e : Failure} {ts : List Token} (h : d.readMember ts = .error e) :
    d.members ts = .error e := by
  rw [members]
  split <;> simp_all

theorem members_comma_of_new (hx : Blank x) (hm : m.Written s) (hnew : d.IsNew m) (hy : Blank y) :
    d.members (Token.ofText (x ++ (s ++ (y ++ ',' :: rest)))) =
      (d.put m).members (Token.ofText rest) := by
  have hread := readMember_of_new hm hnew (hy.stops_append (stops_comma (s := rest)))
  rw [Token.ofText_blank hy, Token.ofText_comma] at hread
  rw [Token.ofText_blank hx, members_of_comma hread]

theorem members_endObject_of_new (hx : Blank x) (hm : m.Written s) (hnew : d.IsNew m)
    (hy : Blank y) :
    d.members (Token.ofText (x ++ (s ++ (y ++ '\x7d' :: rest)))) =
      .ok (d.put m, Token.ofText rest) := by
  have hstops : Numeral.Stops ('\x7d' :: rest) := stops_closing (b := .object)
  have hread := readMember_of_new hm hnew (hy.stops_append hstops)
  rw [Token.ofText_blank hy, Token.ofText_endObject] at hread
  rw [Token.ofText_blank hx, members_of_endObject hread]

theorem members_of_seen (hx : Blank x) (hk : Quoted.Writes f.name k) (hseen : d.has f = true) :
    d.members (Token.ofText (x ++ '"' :: (k ++ '"' :: rest))) = .error .mistyped := by
  rw [Token.ofText_blank hx, members_of_error (readMember_of_seen hk hseen)]

theorem members_of_not_new (hx : Blank x) (hm : m.Written s) (hold : ¬ d.IsNew m) :
    d.members (Token.ofText (x ++ (s ++ rest))) = .error .mistyped := by
  simp only [IsNew, Classical.not_forall, Bool.not_eq_false] at hold
  obtain ⟨f, hf, hseen⟩ := hold
  cases hm with
  | colon hname hk _ _ _ =>
    rw [(hname f).mpr hf] at hk
    simp only [List.cons_append, List.append_assoc]
    exact members_of_seen hx hk hseen

end Draft

end BoundaryTag.Settings
