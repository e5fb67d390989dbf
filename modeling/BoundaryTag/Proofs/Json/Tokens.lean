import BoundaryTag.Proofs.Json.Grammar

set_option autoImplicit false

/-! # The tokens of the grammar

How the texts of the grammar are scanned. A numeral comes back part by part (`Numeral.Spells.scan`),
a string piece by piece (`Quoted.Spells.scan`), and every token leaves exactly the text behind it,
so a row of tokens is scanned one by one. What a printer writes are special cases: a decimal numeral
is the word it was written for (`Numeral.word?_decimal`), and a quoted name comes back as it is
(`Token.ofText_name`). -/

namespace BoundaryTag.Json

/-! ## Numerals -/

namespace Numeral

/-- The numeral of a natural number. -/
def decimal (n : Nat) : Numeral where
  negative := false
  digits := Nat.toDigits 10 n
  fraction := none
  exponent := none

/-- A text that a numeral does not go on with. -/
def Stops (s : List Char) : Prop :=
  ∀ c ∈ s.head?, c.isDigit = false ∧ c ≠ '.' ∧ c ≠ 'e' ∧ c ≠ 'E'

theorem stops_cons {c : Char} {s : List Char} :
    Stops (c :: s) ↔ c.isDigit = false ∧ c ≠ '.' ∧ c ≠ 'e' ∧ c ≠ 'E' := by
  simp [Stops]

variable {n : Nat} {m : Numeral} {s t rest ds i sign : List Char} {f : Option (List Char)}
  {e : Option (Bool × List Char)} {negative : Bool} {c : Char}

theorem IsDigits.exists_cons (hds : IsDigits ds) : ∃ c cs, ds = c :: cs ∧ c.isDigit = true := by
  obtain ⟨c, cs, rfl⟩ := List.exists_cons_of_ne_nil hds.1
  exact ⟨c, cs, rfl, hds.2 c List.mem_cons_self⟩

theorem IsDigits.scan (hds : IsDigits ds) (hs : ∀ c ∈ s.head?, c.isDigit = false) :
    scanDigits (ds ++ s) = .ok (ds, s) := by
  have hnone : s.takeWhile Char.isDigit = [] ∧ s.dropWhile Char.isDigit = s := by
    cases s with
    | nil => simp
    | cons c s => simp [hs c rfl]
  unfold scanDigits
  rw [List.takeWhile_append_of_pos hds.2, List.dropWhile_append_of_pos hds.2, hnone.1, hnone.2,
    List.append_nil]
  cases ds with
  | nil => exact absurd rfl hds.1
  | cons c ds => rfl

theorem IsInteger.scan (hi : IsInteger i) (hs : ∀ c ∈ s.head?, c.isDigit = false) :
    scanInteger (i ++ s) = .ok (i, s) := by
  have hzero : ¬ (i.head? = some '0' ∧ i ≠ ['0']) := fun h => h.2 (hi.2 h.1)
  rw [scanInteger, hi.1.scan hs, ok_bind]
  simp only [hzero, if_false]
  rfl

theorem SpellsFraction.scan (hf : SpellsFraction f s)
    (ht : ∀ c ∈ t.head?, c.isDigit = false ∧ c ≠ '.') : scanFraction (s ++ t) = .ok (f, t) := by
  cases hf with
  | none =>
    rw [List.nil_append]
    unfold scanFraction
    split
    · exact absurd rfl (ht _ rfl).2
    · rfl
  | point hds =>
    rw [List.cons_append, scanFraction, hds.scan fun c hc => (ht c hc).1]
    rfl

/-- A fraction and what comes behind it do not start with a digit. -/
theorem SpellsFraction.head (hf : SpellsFraction f s)
    (ht : ∀ c ∈ t.head?, c.isDigit = false ∧ c ≠ '.') :
    ∀ c ∈ (s ++ t).head?, c.isDigit = false := by
  cases hf with
  | none => exact fun c hc => (ht c hc).1
  | point _ =>
    rintro c ⟨⟩
    decide

theorem SpellsSign.scan (h : SpellsSign negative sign) (hds : IsDigits ds) :
    scanSign (sign ++ (ds ++ s)) = (negative, ds ++ s) := by
  cases h with
  | none =>
    obtain ⟨c, cs, rfl, hc⟩ := hds.exists_cons
    unfold scanSign
    split
    case h_3 => rfl
    all_goals simp_all
  | plus => rfl
  | minus => rfl

theorem SpellsExponent.scan (he : SpellsExponent e s) (ht : Stops t) :
    scanExponent (s ++ t) = .ok (e, t) := by
  cases he with
  | none =>
    cases t with
    | nil => rfl
    | cons c t => simp [scanExponent, (stops_cons.mp ht).2.2]
  | mark hm hsign hds =>
    rw [List.cons_append, List.append_assoc, scanExponent, if_pos hm, hsign.scan hds]
    dsimp only
    rw [hds.scan fun c hc => (ht c hc).1]
    rfl

/-- An exponent and what comes behind it start with neither a digit nor a point. -/
theorem SpellsExponent.head (he : SpellsExponent e s) (ht : Stops t) :
    ∀ c ∈ (s ++ t).head?, c.isDigit = false ∧ c ≠ '.' := by
  cases he with
  | none => exact fun c hc => ⟨(ht c hc).1, (ht c hc).2.1⟩
  | mark hm _ _ =>
    rintro c ⟨⟩
    rcases hm with rfl | rfl <;> decide

theorem scanUnsigned_parts (negative : Bool) (hi : IsInteger i) (hf : SpellsFraction f s)
    (he : SpellsExponent e t) (hrest : Stops rest) :
    scanUnsigned negative (i ++ (s ++ t) ++ rest) = .ok (⟨negative, i, f, e⟩, rest) := by
  have hexponent := he.head hrest
  simp only [scanUnsigned, List.append_assoc, hi.scan (hf.head hexponent), hf.scan hexponent,
    he.scan hrest, ok_bind]
  rfl

/-- A numeral starts with a minus or a digit. -/
theorem Spells.exists_cons (h : m.Spells s) :
    ∃ c cs, s = c :: cs ∧ (c = '-' ∨ c.isDigit = true) := by
  cases h with
  | unsigned hi _ _ =>
    obtain ⟨c, cs, rfl, hc⟩ := hi.1.exists_cons
    exact ⟨c, _, rfl, .inr hc⟩
  | minus _ _ _ => exact ⟨'-', _, rfl, .inl rfl⟩

/-- A numeral is scanned up to its end. -/
theorem Spells.scan (h : m.Spells s) (hrest : Stops rest) :
    Numeral.scan (s ++ rest) = .ok (m, rest) := by
  cases h with
  | unsigned hi hf he =>
    have hparts := scanUnsigned_parts false hi hf he hrest
    obtain ⟨c, cs, rfl, hc⟩ := hi.1.exists_cons
    unfold Numeral.scan
    split
    · -- a minus is no digit
      simp_all
    · exact hparts
  | minus hi hf he => exact scanUnsigned_parts true hi hf he hrest

/-! ### Decimal numerals -/

theorem isDigit_of_mem (h : c ∈ Nat.toDigits 10 n) : c.isDigit = true :=
  Nat.isDigit_of_mem_toDigits (by decide) (by decide) h

theorem digitChar_ne_zero : ∀ n < 10, n ≠ 0 → n.digitChar ≠ '0' := by
  decide

/-- A decimal numeral has a first digit, and that is a zero only if the number is. -/
theorem exists_first (n : Nat) :
    ∃ c cs, Nat.toDigits 10 n = c :: cs ∧ (n ≠ 0 → c ≠ '0') := by
  induction n using Nat.strongRecOn with
  | ind n ih =>
    by_cases hn : n < 10
    · exact ⟨n.digitChar, [], Nat.toDigits_of_lt_base hn, digitChar_ne_zero n hn⟩
    · obtain ⟨c, cs, hds, hc⟩ := ih (n / 10) (by omega)
      refine ⟨c, cs ++ [(n % 10).digitChar], ?_, fun _ => hc (by omega)⟩
      rw [Nat.toDigits_of_base_le (by decide) (by omega), hds, List.cons_append]

theorem isInteger_toDigits (n : Nat) : IsInteger (Nat.toDigits 10 n) := by
  refine ⟨⟨Nat.toDigits_ne_nil, fun _ => isDigit_of_mem⟩, fun hhead => ?_⟩
  by_cases h0 : n = 0
  · rw [h0]
    rfl
  · obtain ⟨c, cs, hds, hc⟩ := exists_first n
    rw [hds] at hhead
    exact absurd (Option.some.inj hhead) (hc h0)

/-- The digits of a number spell its numeral. -/
theorem spells_decimal (n : Nat) : (decimal n).Spells (Nat.toDigits 10 n) := by
  have h := Spells.unsigned (isInteger_toDigits n) .none .none
  rwa [List.append_nil, List.append_nil] at h

theorem value_toDigits : value (Nat.toDigits 10 n) = n :=
  Nat.ofDigitChars_toDigits (by decide) (by decide)

/-- A word is read back from its digits. -/
theorem word?_decimal (hn : n < Word.limit) : (decimal n).word? = some n := by
  simp [word?, decimal, value_toDigits, hn]

end Numeral

/-! ## Strings -/

namespace Quoted

variable {c : Char} {ps : List Piece} {cs k s : List Char}

theorem scan_cons (hc : isPlain c = true) : scan (c :: s) = (scan s).push (.char c) := by
  simp only [isPlain, Bool.and_eq_true, decide_eq_true_eq, Bool.not_eq_true',
    decide_eq_false_iff_not] at hc
  obtain ⟨⟨hquote, hslash⟩, hcontrol⟩ := hc
  rw [scan.eq_def]
  split
  case h_6 =>
    rename_i heq
    cases heq
    rw [if_neg hcontrol]
  all_goals simp_all

theorem lacksFourBytes_eq_false (a b c d : Char) :
    lacksFourBytes (a :: b :: c :: d :: s) = false := by
  have ha := a.utf8Size_pos
  have hb := b.utf8Size_pos
  have hc := c.utf8Size_pos
  have hd := d.utf8Size_pos
  have hfour : ¬ 0 + a.utf8Size + b.utf8Size + c.utf8Size + d.utf8Size < 4 := by omega
  exact decide_eq_false hfour

/-- A string ends at the first quote that its pieces do not spell. -/
theorem Spells.scan (h : Spells ps k) : Quoted.scan (k ++ '"' :: s) = ⟨ps, .ok s⟩ := by
  induction h with
  | nil => rfl
  | char hc _ ih =>
    rw [List.cons_append, scan_cons hc, ih]
    rfl
  | @escape e c ps k he _ ih =>
    have hunit : e ≠ 'u' := by
      rintro rfl
      cases he
    -- the equation for one-letter escapes is the one behind that for units
    rw [List.cons_append, List.cons_append, Quoted.scan]
    · simp [he, ih, push]
    · exact hunit
  | unit hn _ ih =>
    simp only [List.cons_append]
    rw [Quoted.scan]
    simp [lacksFourBytes_eq_false, hn, ih, push]

theorem isTrailing_eq_false {n : Nat} (hn : isLeading n = true) : isTrailing n = false := by
  simp only [isLeading, isTrailing, Bool.and_eq_true, decide_eq_true_eq, Bool.and_eq_false_iff,
    decide_eq_false_iff_not] at hn ⊢
  omega

theorem Says.decode (h : Says ps cs) : Quoted.decode (.ok ()) ps = .ok cs := by
  induction h with
  | nil => rfl
  | char _ ih =>
    rw [Quoted.decode, ih]
    rfl
  | unit hleading htrailing _ ih =>
    rw [Quoted.decode.eq_def]
    simp only [hleading, htrailing, ih, Bool.false_eq_true, if_false]
    rfl
  | pair hn hk _ ih =>
    rw [Quoted.decode.eq_def]
    simp only [hn, hk, ih, isTrailing_eq_false hn, Bool.false_eq_true, if_false, if_true]
    rfl

/-! ### Plain strings -/

theorem writes_plain (hcs : cs.all isPlain = true) : Writes cs cs := by
  induction cs with
  | nil => exact ⟨[], .nil, .nil⟩
  | cons c cs ih =>
    rw [List.all_cons, Bool.and_eq_true] at hcs
    obtain ⟨ps, hspells, hsays⟩ := ih hcs.2
    exact ⟨.char c :: ps, .char hcs.1 hspells, .char hsays⟩

end Quoted

/-! ## Tokens -/

namespace Token

/-- The token of a quoted name. -/
def name (cs : List Char) : Token :=
  text (.ok ()) (.ok cs)

/-- The token of a natural number. -/
def ofNat (n : Nat) : Token :=
  number (.ok (.decimal n))

/-- The token of a truth value. -/
def ofBool (b : Bool) : Token :=
  literal (.ok (.bool b))

variable {n : Nat} {m : Numeral} {ps : List Piece} {cs k a s w rest : List Char} {c : Char}

theorem ofText_cons (hc : isBlank c = false) :
    ofText (c :: s) = (scan c s).1 :: ofText (scan c s).2 := by
  rw [ofText]
  simp [hc]

/-- Blanks in front of a token do not count. -/
theorem ofText_blank (ha : Blank a) : ofText (a ++ s) = ofText s := by
  induction a with
  | nil => rfl
  | cons c a ih =>
    obtain ⟨hc, ha⟩ := List.forall_mem_cons.mp ha
    rw [List.cons_append, ofText, if_pos hc, ih ha]

@[simp] theorem ofText_nil : ofText [] = [] := by
  rw [ofText]

@[simp] theorem ofText_beginArray : ofText ('[' :: s) = beginArray :: ofText s :=
  ofText_cons (by decide)

@[simp] theorem ofText_endArray : ofText (']' :: s) = endArray :: ofText s :=
  ofText_cons (by decide)

@[simp] theorem ofText_beginObject : ofText ('\x7b' :: s) = beginObject :: ofText s :=
  ofText_cons (by decide)

@[simp] theorem ofText_endObject : ofText ('\x7d' :: s) = endObject :: ofText s :=
  ofText_cons (by decide)

@[simp] theorem ofText_comma : ofText (',' :: s) = comma :: ofText s :=
  ofText_cons (by decide)

@[simp] theorem ofText_colon : ofText (':' :: s) = colon :: ofText s :=
  ofText_cons (by decide)

/-- A string is one token, whether or not it says anything. -/
theorem ofText_quoted (hk : Quoted.Spells ps k) :
    ofText ('"' :: (k ++ '"' :: s)) = text (.ok ()) (Quoted.decode (.ok ()) ps) :: ofText s := by
  rw [ofText_cons (by decide)]
  simp only [scan, scanText, hk.scan, Quoted.grammar, Quoted.content]
  rfl

/-- A string that says a name is the token of that name. -/
theorem ofText_writes (hk : Quoted.Writes cs k) :
    ofText ('"' :: (k ++ '"' :: s)) = name cs :: ofText s := by
  obtain ⟨ps, hspells, hsays⟩ := hk
  rw [ofText_quoted hspells, hsays.decode, name]

theorem ofText_name (hcs : cs.all Quoted.isPlain = true) :
    ofText ('"' :: (cs ++ '"' :: s)) = name cs :: ofText s :=
  ofText_writes (Quoted.writes_plain hcs)

theorem isBlank_of_isDigit (hc : c.isDigit = true) : isBlank c = false := by
  cases hb : isBlank c with
  | false => rfl
  | true =>
    simp only [isBlank, Bool.or_eq_true, decide_eq_true_eq] at hb
    rcases hb with ((rfl | rfl) | rfl) | rfl <;> exact absurd hc (by decide)

/-- A character that a numeral may start with starts nothing else. -/
theorem ofText_sign_or_digit (hc : c = '-' ∨ c.isDigit = true) :
    ofText (c :: s) = (scanNumber (c :: s)).1 :: ofText (scanNumber (c :: s)).2 := by
  have hblank : isBlank c = false := by
    rcases hc with rfl | hc
    · decide
    · exact isBlank_of_isDigit hc
  have hscan : scan c s = scanNumber (c :: s) := by
    unfold scan
    split <;> first | exact absurd hc (by decide) | exact if_pos hc
  rw [ofText_cons hblank, hscan]

theorem ofText_numeral (hm : m.Spells s) (hrest : Numeral.Stops rest) :
    ofText (s ++ rest) = number (.ok m) :: ofText rest := by
  obtain ⟨c, cs, rfl, hc⟩ := hm.exists_cons
  rw [List.cons_append, ofText_sign_or_digit hc, scanNumber, ← List.cons_append, hm.scan hrest]

theorem ofText_toDigits (hs : Numeral.Stops s) :
    ofText (Nat.toDigits 10 n ++ s) = ofNat n :: ofText s :=
  ofText_numeral (Numeral.spells_decimal n) hs

theorem ofText_literal (hw : w ∈ ["null".toList, "true".toList, "false".toList]) :
    ∃ l, ofText (w ++ rest) = literal (.ok l) :: ofText rest := by
  simp only [List.mem_cons, List.not_mem_nil, or_false] at hw
  rcases hw with rfl | rfl | rfl
  · exact ⟨.null, ofText_cons (by decide)⟩
  · exact ⟨.bool true, ofText_cons (by decide)⟩
  · exact ⟨.bool false, ofText_cons (by decide)⟩

@[simp] theorem word_ofNat (hn : n < Word.limit) : (ofNat n).word = .ok n := by
  simp [word, ofNat, Numeral.word?_decimal hn]

@[simp] theorem bool_ofBool (b : Bool) : (ofBool b).bool = .ok b := rfl

end Token

end BoundaryTag.Json
