import BoundaryTag.Proofs.Json.Tokens
import BoundaryTag.Settings.Printer
import BoundaryTag.Settings.Reader

set_option autoImplicit false

/-! # Settings read back

A text that was written from settings is read back as these settings, member for member, and the
judgement on them is the only thing that can stand in the way (`read_text`). The text is a row of
tokens (`ofText_render`), and each part of the reader takes its part of the row. -/

namespace BoundaryTag.Settings

open Json (Failure Token Numeral Quoted)

/-! ## The tokens of the text -/

/-- The tokens of numbers that come after another one in an array. -/
def moreTokens (ns : List Nat) : List Token :=
  ns.flatMap fun n => [.comma, .ofNat n]

/-- The tokens of the numbers in an array. -/
def listTokens : List Nat → List Token
  | [] => []
  | n :: ns => .ofNat n :: moreTokens ns

/-- The tokens of a member: its name, a colon, and its value. -/
def Field.tokens (f : Field) (value : List Token) : List Token :=
  .name f.name :: .colon :: value

/-- The tokens of the members in their fixed order. -/
def memberTokens (s : Settings) : List Token :=
  Field.tokens .thresholds (.beginArray :: (listTokens s.thresholds ++
    .endArray :: .comma :: Field.tokens .minSplit (.ofNat s.minSplit ::
      .comma :: Field.tokens .checkAfter [.ofBool s.checkAfter, .endObject])))

variable {s : Settings} {n : Nat} {ns : List Nat} {cs : List Char}

theorem stops_moreDigits : Numeral.Stops (moreDigits ns ++ ']' :: cs) := by
  cases ns with
  | nil => exact Numeral.stops_cons.mpr (by decide)
  | cons m ns => exact Numeral.stops_cons.mpr (by decide)

theorem ofText_moreDigits :
    Token.ofText (moreDigits ns ++ ']' :: cs) =
      moreTokens ns ++ .endArray :: Token.ofText cs := by
  induction ns with
  | nil => exact Token.ofText_endArray
  | cons n ns ih =>
    calc Token.ofText (moreDigits (n :: ns) ++ ']' :: cs)
        = Token.ofText (',' :: (renderNat n ++ (moreDigits ns ++ ']' :: cs))) := by
          simp [moreDigits]
      _ = .comma :: .ofNat n :: (moreTokens ns ++ .endArray :: Token.ofText cs) := by
          rw [Token.ofText_comma, renderNat, Token.ofText_toDigits stops_moreDigits, ih]

theorem ofText_renderList :
    Token.ofText (renderList ns ++ cs) =
      .beginArray :: (listTokens ns ++ .endArray :: Token.ofText cs) := by
  cases ns with
  | nil => simp [renderList, listTokens, List.intercalate]
  | cons n ns =>
    calc Token.ofText (renderList (n :: ns) ++ cs)
        = Token.ofText ('[' :: (renderNat n ++ (moreDigits ns ++ ']' :: cs))) := by
          rw [renderList, intercalate_renderNat]
          simp
      _ = .beginArray :: (.ofNat n :: (moreTokens ns ++ .endArray :: Token.ofText cs)) := by
          rw [Token.ofText_beginArray, renderNat, Token.ofText_toDigits stops_moreDigits,
            ofText_moreDigits]

theorem ofText_renderBool (b : Bool) :
    Token.ofText (renderBool b ++ cs) = .ofBool b :: Token.ofText cs := by
  cases b with
  | true => exact Token.ofText_cons (by decide)
  | false => exact Token.ofText_cons (by decide)

theorem ofText_field (f : Field) :
    Token.ofText (f.render cs) = f.tokens (Token.ofText cs) := by
  have hplain : f.name.all Quoted.isPlain = true := by
    cases f <;> decide
  rw [Field.render, Token.ofText_name hplain, Token.ofText_colon]
  rfl

/-- The text of the settings is scanned as the row of their tokens. -/
theorem ofText_render (s : Settings) :
    Token.ofText s.render = .beginObject :: s.memberTokens := by
  rw [render_eq, Token.ofText_beginObject, ofText_field, ofText_renderList, Token.ofText_comma,
    ofText_field, renderNat, Token.ofText_toDigits (Numeral.stops_cons.mpr (by decide)),
    Token.ofText_comma, ofText_field, ofText_renderBool, Token.ofText_endObject, Token.ofText_nil]
  rfl

/-! ## Reading the tokens -/

namespace Draft

variable {d : Draft} {f : Field} {ts : List Token}

theorem moreWords_tokens (hns : ∀ n ∈ ns, n < Word.limit) :
    moreWords (moreTokens ns ++ .endArray :: ts) = .ok (ns, ts) := by
  induction ns with
  | nil => rfl
  | cons n ns ih =>
    obtain ⟨hn, hns⟩ := List.forall_mem_cons.mp hns
    change moreWords (.comma :: .ofNat n :: (moreTokens ns ++ .endArray :: ts)) = _
    rw [moreWords, Token.word_ofNat hn, ok_bind, ih hns]
    rfl

theorem words_tokens (hns : ∀ n ∈ ns, n < Word.limit) :
    words (listTokens ns ++ .endArray :: ts) = .ok (ns, ts) := by
  cases ns with
  | nil => rfl
  | cons n ns =>
    obtain ⟨hn, hns⟩ := List.forall_mem_cons.mp hns
    change words (.ofNat n :: (moreTokens ns ++ .endArray :: ts)) = _
    rw [words, Token.word_ofNat hn, ok_bind, moreWords_tokens hns]
    · rfl
    · exact nofun

theorem ofName?_name (f : Field) : Field.ofName? f.name = some f := by
  cases f <;> decide

/-- A member that has not been read yet is read. -/
theorem readMember_tokens (hf : d.has f = false) :
    d.readMember (f.tokens ts) = d.readValue f ts := by
  simp only [Field.tokens, Token.name, readMember, ok_bind, ofName?_name, hf, takeColon]
  rfl

theorem members_of_comma {d' : Draft} {rest : List Token}
    (h : d.readMember ts = .ok (d', .comma :: rest)) : d.members ts = d'.members rest := by
  rw [members]
  split <;> simp_all

theorem members_of_endObject {d' : Draft} {rest : List Token}
    (h : d.readMember ts = .ok (d', .endObject :: rest)) : d.members ts = .ok (d', rest) := by
  rw [members]
  split <;> simp_all

theorem readValue_thresholds (hns : ∀ n ∈ ns, n < Word.limit) :
    d.readValue .thresholds (.beginArray :: (listTokens ns ++ .endArray :: ts)) =
      .ok ({ d with thresholds := some ns }, ts) := by
  rw [readValue, words_tokens hns]
  rfl

theorem readValue_minSplit (hn : n < Word.limit) :
    d.readValue .minSplit (.ofNat n :: ts) = .ok ({ d with minSplit := some n }, ts) := by
  rw [readValue, Token.word_ofNat hn]
  rfl

theorem readValue_checkAfter (b : Bool) :
    d.readValue .checkAfter (.ofBool b :: ts) = .ok ({ d with checkAfter := some b }, ts) := by
  rw [readValue, Token.bool_ofBool]
  rfl

theorem members_tokens (hthresholds : ∀ t ∈ s.thresholds, t < Word.limit)
    (hsplit : s.minSplit < Word.limit) :
    members {} s.memberTokens =
      .ok (⟨some s.thresholds, some s.minSplit, some s.checkAfter⟩, []) := by
  unfold memberTokens
  rw [members_of_comma ((readMember_tokens rfl).trans (readValue_thresholds hthresholds)),
    members_of_comma ((readMember_tokens rfl).trans (readValue_minSplit hsplit)),
    members_of_endObject ((readMember_tokens rfl).trans (readValue_checkAfter s.checkAfter))]

/-- What the tokens of settings say. -/
theorem ofTokens_tokens (hthresholds : ∀ t ∈ s.thresholds, t < Word.limit)
    (hsplit : s.minSplit < Word.limit) :
    ofTokens (.beginObject :: s.memberTokens) =
      .ok ⟨some s.thresholds, some s.minSplit, some s.checkAfter⟩ := by
  have hdocument : document (.beginObject :: s.memberTokens) = members {} s.memberTokens := rfl
  rw [ofTokens, hdocument, members_tokens hthresholds hsplit]
  rfl

end Draft

/-- Settings that hold words are read back from their text exactly as they were if they are
    accepted, and otherwise what comes out is the objection to them: the text itself can always be
    read. -/
theorem read_text (hthresholds : ∀ t ∈ s.thresholds, t < Word.limit)
    (hsplit : s.minSplit < Word.limit) :
    read s.text = match s.validate with
      | .ok () => .ok s
      | .error objection => .error (.rejected objection) := by
  have hdraft : Draft.settings ⟨some s.thresholds, some s.minSplit, some s.checkAfter⟩ = s := rfl
  rw [read, text, String.toList_ofList, ofText_render, Draft.ofTokens_tokens hthresholds hsplit]
  dsimp only
  rw [hdraft]
  cases s.validate <;> rfl

/-- The widest words come back, and so does an objection. -/
theorem read_text_widest :
    (∀ t ∈ [1, Word.limit - 1], t < Word.limit) ∧ Word.limit - 8 < Word.limit ∧
      read (text ⟨[1, Word.limit - 1], Word.limit - 8, false⟩) =
        .ok ⟨[1, Word.limit - 1], Word.limit - 8, false⟩ ∧
      read (text ⟨[], Word.limit - 1, true⟩) =
        .error (.rejected (.badSplitPayload (Word.limit - 1))) :=
  ⟨by decide, by decide, read_text (by decide) (by decide), read_text (by decide) (by decide)⟩

end BoundaryTag.Settings
