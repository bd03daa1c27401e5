import CodeTidy.Json.Reader
import Mathlib.Data.List.Basic
import Mathlib.Data.Nat.Digits.Defs

/-!
# Spellings of JSON values

A value has many spellings: blanks between tokens, escapes in strings, fractions and exponents
of numbers.  `Json.Spells` relates a value to each of them, by the grammar and without the
reader, and `Json.parse?_of_spells` says that the reader finds the value in every one.

What a scanner takes is told by what it leaves: blanks, digits and the pieces of a string end
where the rest of the text says so.
-/

namespace CodeTidy

namespace Json

/-! ## Grammar -/

def Blanks (text : List Char) : Prop :=
  ∀ c, c ∈ text → c ∈ [' ', '\t', '\n', '\r']

def Digits (text : List Char) : Prop :=
  text ≠ [] ∧ ∀ c, c ∈ text → c.isDigit = true

def HexDigit (value : Nat) (c : Char) : Prop :=
  value < 16 ∧ (c = value.digitChar ∨ c = value.digitChar.toUpper)

inductive SpellsCode : Nat → List Char → Prop where
  | digits {a b c d : Nat} {a' b' c' d' : Char} (first : HexDigit a a') (second : HexDigit b b')
      (third : HexDigit c c') (fourth : HexDigit d d') :
      SpellsCode (((a * 16 + b) * 16 + c) * 16 + d) [a', b', c', d']

/-- The letters of short escapes, with the characters that they stand for. -/
def escapes : List (Char × Char) :=
  [('\x22', '\x22'), ('\\', '\\'), ('/', '/'), ('b', '\x08'), ('f', '\x0c'), ('n', '\n'),
    ('r', '\r'), ('t', '\t')]

/-- A character inside a string: as it is, by a letter, by its code, or by the codes of a
surrogate pair. -/
inductive SpellsChar : Char → List Char → Prop where
  | plain {c : Char} (notControl : 32 ≤ c.toNat) (notQuote : c ≠ '\x22') (notSlash : c ≠ '\\') :
      SpellsChar c [c]
  | letter {c letter : Char} (escape : (letter, c) ∈ escapes) : SpellsChar c ['\\', letter]
  | code {c : Char} {digits : List Char} (spells : SpellsCode c.toNat digits) :
      SpellsChar c ('\\' :: 'u' :: digits)
  | pair {c : Char} {high low : Nat} {highDigits lowDigits : List Char}
      (isHigh : 0xD800 ≤ high ∧ high < 0xDC00) (isLow : 0xDC00 ≤ low ∧ low < 0xE000)
      (value : c.toNat = 0x10000 + (high - 0xD800) * 0x400 + (low - 0xDC00))
      (spellsHigh : SpellsCode high highDigits) (spellsLow : SpellsCode low lowDigits) :
      SpellsChar c ('\\' :: 'u' :: highDigits ++ '\\' :: 'u' :: lowDigits)

inductive SpellsChars : List Char → List Char → Prop where
  | nil : SpellsChars [] []
  | cons {c : Char} {chars text rest : List Char} (first : SpellsChar c text)
      (others : SpellsChars chars rest) : SpellsChars (c :: chars) (text ++ rest)

inductive SpellsString : String → List Char → Prop where
  | quoted {value : String} {text : List Char} (chars : SpellsChars value.toList text) :
      SpellsString value ('\x22' :: text ++ ['\x22'])

inductive Fraction : Bool → List Char → Prop where
  | absent : Fraction false []
  | digits {text : List Char} (digits : Digits text) : Fraction true ('.' :: text)

inductive Exponent : Bool → List Char → Prop where
  | absent : Exponent false []
  | digits {letter : Char} {sign text : List Char} (isLetter : letter ∈ ['e', 'E'])
      (isSign : sign ∈ [[], ['+'], ['-']]) (digits : Digits text) :
      Exponent true (letter :: sign ++ text)

/-- A number.  The digits in front have no zeros that could be left out. -/
inductive SpellsNumber : Number → List Char → Prop where
  | parts {negative hasFraction hasExponent : Bool} {whole : Nat} {fraction exponent : List Char}
      (isFraction : Fraction hasFraction fraction) (isExponent : Exponent hasExponent exponent) :
      SpellsNumber ⟨negative, whole, hasFraction || hasExponent⟩
        ((if negative then ['-'] else []) ++ Nat.toDigits 10 whole ++ fraction ++ exponent)

mutual

/-- A value, without blanks around it. -/
inductive Spells : Json → List Char → Prop where
  | null : Spells .null ['n', 'u', 'l', 'l']
  | boolTrue : Spells (.bool true) ['t', 'r', 'u', 'e']
  | boolFalse : Spells (.bool false) ['f', 'a', 'l', 's', 'e']
  | number {value : Number} {text : List Char} (spells : SpellsNumber value text) :
      Spells (.number value) text
  | string {value : String} {text : List Char} (spells : SpellsString value text) :
      Spells (.string value) text
  | noItems {blanks : List Char} (isBlank : Blanks blanks) :
      Spells (.array []) ('[' :: blanks ++ [']'])
  | array {items : List Json} {text : List Char} (spells : SpellsItems items text) :
      Spells (.array items) ('[' :: text ++ [']'])
  | noMembers {blanks : List Char} (isBlank : Blanks blanks) :
      Spells (.object []) ('\x7b' :: blanks ++ ['\x7d'])
  | object {members : List (String × Json)} {text : List Char}
      (spells : SpellsMembers members text) : Spells (.object members) ('\x7b' :: text ++ ['\x7d'])

inductive SpellsItems : List Json → List Char → Prop where
  | one {item : Json} {before text after : List Char} (isBefore : Blanks before)
      (spells : Spells item text) (isAfter : Blanks after) :
      SpellsItems [item] (before ++ text ++ after)
  | more {item : Json} {items : List Json} {before text after rest : List Char}
      (isBefore : Blanks before) (spells : Spells item text) (isAfter : Blanks after)
      (others : SpellsItems items rest) :
      SpellsItems (item :: items) (before ++ text ++ after ++ ',' :: rest)

inductive SpellsMembers : List (String × Json) → List Char → Prop where
  | one {key : String} {value : Json} {before name between start text after : List Char}
      (isBefore : Blanks before) (spellsKey : SpellsString key name) (isBetween : Blanks between)
      (isStart : Blanks start) (spells : Spells value text) (isAfter : Blanks after) :
      SpellsMembers [(key, value)] (before ++ name ++ between ++ ':' :: start ++ text ++ after)
  | more {key : String} {value : Json} {members : List (String × Json)}
      {before name between start text after rest : List Char}
      (isBefore : Blanks before) (spellsKey : SpellsString key name) (isBetween : Blanks between)
      (isStart : Blanks start) (spells : Spells value text) (isAfter : Blanks after)
      (others : SpellsMembers members rest) :
      SpellsMembers ((key, value) :: members)
        (before ++ name ++ between ++ ':' :: start ++ text ++ after ++ ',' :: rest)

end

/-- A whole text: one value, with blanks around it. -/
inductive SpellsText : Json → String → Prop where
  | text {value : Json} {before text after : List Char} (isBefore : Blanks before)
      (spells : Spells value text) (isAfter : Blanks after) :
      SpellsText value (String.ofList (before ++ text ++ after))

/-- Characters that need no escape spell themselves. -/
theorem SpellsChars.plain {chars : List Char}
    (h : chars.all (fun c => 32 ≤ c.toNat && c != '\x22' && c != '\\') = true) :
    SpellsChars chars chars := by
  induction chars with
  | nil => exact .nil
  | cons c chars ih =>
      simp only [List.all_cons, Bool.and_eq_true, decide_eq_true_eq, bne_iff_ne] at h
      exact .cons (.plain h.1.1.1 h.1.1.2 h.1.2) (ih h.2)

/-! ## Blanks and digits -/

variable {text rest chars digits : List Char} {c : Char}

theorem isBlank_iff : isBlank c = true ↔ c ∈ [' ', '\t', '\n', '\r'] := by
  simp [isBlank, or_assoc]

theorem skipBlanks_append (h : Blanks text) : skipBlanks (text ++ rest) = skipBlanks rest :=
  List.dropWhile_append_of_pos (fun c hc => isBlank_iff.mpr (h c hc))

theorem skipBlanks_cons (h : isBlank c = false) : skipBlanks (c :: rest) = c :: rest := by
  rw [skipBlanks, List.dropWhile_cons, h]
  rfl

def NoDigit (rest : List Char) : Prop :=
  ∀ c, rest.head? = some c → c.isDigit = false

theorem readDigits_append (h : Digits digits) (hrest : NoDigit rest) :
    readDigits (digits ++ rest) = some (digits, rest) := by
  have hall : ∀ c, c ∈ digits → isDigit c = true := h.2
  have hstop : rest.takeWhile isDigit = [] ∧ rest.dropWhile isDigit = rest := by
    cases rest with
    | nil => exact ⟨rfl, rfl⟩
    | cons c rest =>
        have hc : isDigit c = false := hrest c rfl
        simp [hc]
  unfold readDigits
  rw [List.takeWhile_append_of_pos hall, List.dropWhile_append_of_pos hall, hstop.1, hstop.2,
    List.append_nil]
  cases digits with
  | nil => exact absurd rfl h.1
  | cons c digits => rfl

theorem digits_toDigits (n : Nat) : Digits (Nat.toDigits 10 n) :=
  ⟨Nat.toDigits_ne_nil, fun _ hc => Nat.isDigit_of_mem_toDigits (by decide) (by decide) hc⟩

theorem digitsValue_toDigits (n : Nat) : digitsValue (Nat.toDigits 10 n) = n :=
  Nat.ofDigitChars_toDigits (by decide) (by decide)

theorem head_toDigits (n : Nat) (h : n ≠ 0) : (Nat.toDigits 10 n).head? ≠ some '0' := by
  induction n using Nat.strong_induction_on with
  | _ n ih =>
      by_cases hlt : n < 10
      · have hdigits : ∀ n, n < 10 → n ≠ 0 → some n.digitChar ≠ some '0' := by decide
        rw [Nat.toDigits_of_lt_base hlt]
        exact hdigits n hlt h
      · have hrest := ih (n / 10) (by omega) (by omega)
        rw [Nat.toDigits_of_base_le (by decide) (by omega)]
        rwa [List.head?_append_of_ne_nil _ Nat.toDigits_ne_nil]

/-! ## Numbers -/

theorem readWhole_toDigits (n : Nat) (hrest : NoDigit rest) :
    readWhole (Nat.toDigits 10 n ++ rest) = some (n, rest) := by
  by_cases hn : n = 0
  · subst hn
    rfl
  · obtain ⟨c, digits, hdigits⟩ := List.exists_cons_of_ne_nil (digits_toDigits n).1
    have hc : c ≠ '0' := by
      rintro rfl
      exact head_toDigits n hn (by rw [hdigits]; rfl)
    have hread := readDigits_append (digits_toDigits n) hrest
    have hvalue := digitsValue_toDigits n
    rw [hdigits] at hread hvalue ⊢
    unfold readWhole
    split
    · next he => exact absurd (List.cons.inj he).1 hc
    · rw [hread]
      exact congrArg (fun value => some (value, rest)) hvalue

/-- A text that does not go on with what could be part of a number. -/
def EndsNumber (rest : List Char) : Prop :=
  ∀ c, rest.head? = some c → c.isDigit = false ∧ c ≠ '.' ∧ c ≠ 'e' ∧ c ≠ 'E'

theorem EndsNumber.noDigit (h : EndsNumber rest) : NoDigit rest :=
  fun c hc => (h c hc).1

theorem endsNumber_cons (h : c ∈ [' ', '\t', '\n', '\r', ',', ']', '\x7d']) :
    EndsNumber (c :: rest) := by
  rintro d hd
  obtain rfl := Option.some.inj hd
  simp only [List.mem_cons, List.not_mem_nil, or_false] at h
  rcases h with rfl | rfl | rfl | rfl | rfl | rfl | rfl <;> decide

theorem endsNumber_blanks (h : Blanks text) (hrest : EndsNumber rest) :
    EndsNumber (text ++ rest) := by
  cases text with
  | nil => exact hrest
  | cons c text =>
      have hc := h c (List.mem_cons_self ..)
      exact endsNumber_cons (by simp only [List.mem_cons] at hc ⊢; tauto)

theorem skipSign_append {sign : List Char} (hsign : sign ∈ [[], ['+'], ['-']])
    (hdigits : Digits digits) : skipSign (sign ++ digits ++ rest) = digits ++ rest := by
  simp only [List.mem_cons, List.not_mem_nil, or_false] at hsign
  rcases hsign with rfl | rfl | rfl
  · obtain ⟨c, others, rfl⟩ := List.exists_cons_of_ne_nil hdigits.1
    have hc : c.isDigit = true := hdigits.2 c (List.mem_cons_self ..)
    unfold skipSign
    split
    · next he => rw [(List.cons.inj he).1] at hc; cases hc
    · next he => rw [(List.cons.inj he).1] at hc; cases hc
    · rfl
  · rfl
  · rfl

theorem skipExponent_append {hasExponent : Bool} {exponent : List Char}
    (h : Exponent hasExponent exponent) (hrest : EndsNumber rest) :
    skipExponent (exponent ++ rest) = some (hasExponent, rest) := by
  cases h with
  | absent =>
      rw [List.nil_append]
      unfold skipExponent
      split
      · next rest => exact absurd rfl (hrest 'e' rfl).2.2.1
      · next rest => exact absurd rfl (hrest 'E' rfl).2.2.2
      · rfl
  | @digits letter sign text isLetter isSign digits =>
      have hread : (readDigits (skipSign (sign ++ text ++ rest))).map
          (fun found => (true, found.2)) = some (true, rest) := by
        rw [skipSign_append isSign digits, readDigits_append digits hrest.noDigit]
        rfl
      simp only [List.mem_cons, List.not_mem_nil, or_false] at isLetter
      rcases isLetter with rfl | rfl <;> exact hread

theorem skipFraction_append {hasFraction : Bool} {fraction : List Char}
    (h : Fraction hasFraction fraction)
    (hrest : ∀ c, rest.head? = some c → c.isDigit = false ∧ c ≠ '.') :
    skipFraction (fraction ++ rest) = some (hasFraction, rest) := by
  cases h with
  | absent =>
      rw [List.nil_append]
      unfold skipFraction
      split
      · next rest => exact absurd rfl (hrest '.' rfl).2
      · rfl
  | @digits text digits =>
      show (readDigits (text ++ rest)).map _ = _
      rw [readDigits_append digits (fun c hc => (hrest c hc).1)]
      rfl

/-- What follows a fraction does not go on with it. -/
theorem Exponent.head {hasExponent : Bool} {exponent : List Char}
    (h : Exponent hasExponent exponent) (hrest : EndsNumber rest) :
    ∀ c, (exponent ++ rest).head? = some c → c.isDigit = false ∧ c ≠ '.' := by
  intro c hc
  cases h with
  | absent => exact ⟨(hrest c hc).1, (hrest c hc).2.1⟩
  | digits isLetter _ _ =>
      obtain rfl := Option.some.inj hc
      simp only [List.mem_cons, List.not_mem_nil, or_false] at isLetter
      rcases isLetter with rfl | rfl <;> decide

/-- What follows the digits in front does not go on with them. -/
theorem Fraction.head {hasFraction hasExponent : Bool} {fraction exponent : List Char}
    (h : Fraction hasFraction fraction) (h' : Exponent hasExponent exponent)
    (hrest : EndsNumber rest) : NoDigit (fraction ++ (exponent ++ rest)) := by
  intro c hc
  cases h with
  | absent => exact (h'.head hrest c hc).1
  | digits _ =>
      obtain rfl := Option.some.inj hc
      rfl

theorem readNumber_append {value : Number} (h : SpellsNumber value text)
    (hrest : EndsNumber rest) : readNumber (text ++ rest) = some (.number value, rest) := by
  cases h with
  | @parts negative hasFraction hasExponent whole fraction exponent isFraction isExponent =>
      have hunsigned : readUnsigned negative
          (Nat.toDigits 10 whole ++ (fraction ++ (exponent ++ rest))) =
            some (.number ⟨negative, whole, hasFraction || hasExponent⟩, rest) := by
        unfold readUnsigned
        rw [readWhole_toDigits whole (isFraction.head isExponent hrest)]
        simp only [skipFraction_append isFraction (isExponent.head hrest),
          skipExponent_append isExponent hrest]
      simp only [List.append_assoc]
      cases negative with
      | true => exact hunsigned
      | false =>
          obtain ⟨c, others, hdigits⟩ := List.exists_cons_of_ne_nil (digits_toDigits whole).1
          have hc : c.isDigit = true :=
            (digits_toDigits whole).2 c (hdigits ▸ List.mem_cons_self ..)
          rw [hdigits] at hunsigned ⊢
          unfold readNumber
          split
          · next he => rw [(List.cons.inj he).1] at hc; cases hc
          · exact hunsigned

/-! ## Strings -/

theorem hexDigit?_eq {value : Nat} (h : HexDigit value c) : hexDigit? c = some value := by
  have hdigits : ∀ value, value < 16 → hexDigit? value.digitChar = some value ∧
      hexDigit? value.digitChar.toUpper = some value := by decide
  rcases h.2 with rfl | rfl
  · exact (hdigits value h.1).1
  · exact (hdigits value h.1).2

theorem consPiece_some (piece : Piece) (rest : Option (List Piece × List Char)) :
    consPiece (some piece) rest = rest.map (fun (pieces, text) => (piece :: pieces, text)) := by
  cases rest <;> rfl

theorem readPieces_code {code : Nat} (h : SpellsCode code digits) :
    readPieces ('\\' :: 'u' :: digits ++ rest) =
      (readPieces rest).map (fun (pieces, text) => (.code code :: pieces, text)) := by
  cases h with
  | digits first second third fourth =>
      show consPiece ((hexCode? _ _ _ _).map Piece.code) (readPieces rest) = _
      rw [hexCode?, hexDigit?_eq first, hexDigit?_eq second, hexDigit?_eq third,
        hexDigit?_eq fourth, ← consPiece_some]
      rfl

theorem readPieces_letter {letter : Char} (h : (letter, c) ∈ escapes) :
    readPieces ('\\' :: letter :: rest) =
      (readPieces rest).map (fun (pieces, text) => (.char c :: pieces, text)) := by
  have hletters : ∀ escape, escape ∈ escapes → escape.1 ≠ 'u' ∧
      escape? escape.1 = some escape.2 := by decide
  obtain ⟨hne, hescape⟩ := hletters _ h
  rw [readPieces, hescape, ← consPiece_some]
  · rfl
  · rintro a b c d rest' he
    exact absurd he hne

theorem readPieces_plain (hcontrol : 32 ≤ c.toNat) (hquote : c ≠ '\x22') (hslash : c ≠ '\\') :
    readPieces (c :: rest) =
      (readPieces rest).map (fun (pieces, text) => (.char c :: pieces, text)) := by
  have hpass : (decide (c.toNat < 32) || c == '\\') = false := by
    simp [Nat.not_lt.mpr hcontrol, hslash]
  rw [readPieces, hpass, ← consPiece_some]
  · rfl
  · exact hquote
  · rintro a b d e rest' he
    exact absurd he hslash
  · rintro letter rest' he
    exact absurd he hslash

theorem joinPieces_code (c : Char) (pieces : List Piece) :
    joinPieces (.code c.toNat :: pieces) = (joinPieces pieces).map (fun chars => c :: chars) := by
  have hvalid : c.toNat < 0xD800 ∨ 0xDFFF < c.toNat ∧ c.toNat < 0x110000 := c.valid
  have hhigh : isHighSurrogate c.toNat = false := by
    simp [isHighSurrogate]
    omega
  have hlow : isLowSurrogate c.toNat = false := by
    simp [isLowSurrogate]
    omega
  cases pieces with
  | nil => simp [joinPieces, hhigh, hlow, Char.ofNat_toNat]
  | cons piece pieces =>
      cases piece <;> simp [joinPieces, hhigh, hlow, Char.ofNat_toNat]

theorem joinPieces_pair {high low : Nat} (isHigh : 0xD800 ≤ high ∧ high < 0xDC00)
    (isLow : 0xDC00 ≤ low ∧ low < 0xE000)
    (value : c.toNat = 0x10000 + (high - 0xD800) * 0x400 + (low - 0xDC00))
    (pieces : List Piece) :
    joinPieces (.code high :: .code low :: pieces) =
      (joinPieces pieces).map (fun chars => c :: chars) := by
  have hhigh : isHighSurrogate high = true := by simp [isHighSurrogate, isHigh]
  have hlow : isLowSurrogate low = true := by simp [isLowSurrogate, isLow]
  have hchar : pairChar high low = c := by rw [pairChar, ← value, Char.ofNat_toNat]
  rw [joinPieces, if_pos hhigh, if_pos hlow, hchar]

/-- Each spelling of a character gives pieces that stand for it. -/
theorem exists_pieces (h : SpellsChar c text) :
    ∃ front, (∀ rest, readPieces (text ++ rest) =
        (readPieces rest).map (fun (pieces, text) => (front ++ pieces, text))) ∧
      ∀ pieces, joinPieces (front ++ pieces) =
        (joinPieces pieces).map (fun chars => c :: chars) := by
  cases h with
  | plain notControl notQuote notSlash =>
      exact ⟨[.char c], fun rest => readPieces_plain notControl notQuote notSlash, fun _ => rfl⟩
  | letter escape => exact ⟨[.char c], fun rest => readPieces_letter escape, fun _ => rfl⟩
  | code spells =>
      exact ⟨[.code c.toNat], fun rest => readPieces_code spells, joinPieces_code c⟩
  | @pair high low _ _ isHigh isLow value spellsHigh spellsLow =>
      refine ⟨[.code high, .code low], fun rest => ?_, joinPieces_pair isHigh isLow value⟩
      rw [List.append_assoc, readPieces_code spellsHigh, readPieces_code spellsLow,
        Option.map_map]
      rfl

theorem exists_readPieces (h : SpellsChars chars text) (rest : List Char) :
    ∃ pieces, readPieces (text ++ '\x22' :: rest) = some (pieces, rest) ∧
      joinPieces pieces = some chars := by
  induction h with
  | nil => exact ⟨[], rfl, rfl⟩
  | cons first others ih =>
      obtain ⟨pieces, hread, hjoin⟩ := ih
      obtain ⟨front, hfront, hchar⟩ := exists_pieces first
      refine ⟨front ++ pieces, ?_, ?_⟩
      · rw [List.append_assoc, hfront, hread]
        rfl
      · rw [hchar, hjoin]
        rfl

theorem readString_append {value : String} (h : SpellsString value text) (rest : List Char) :
    ∃ body, text ++ rest = '\x22' :: body ∧ readString body = some (value, rest) := by
  cases h with
  | @quoted text chars =>
      obtain ⟨pieces, hread, hjoin⟩ := exists_readPieces chars rest
      refine ⟨text ++ '\x22' :: rest, by simp, ?_⟩
      rw [readString, hread]
      simp only [hjoin, Option.map_some, String.ofList_toList]

/-! ## Values -/

variable {json : Json} {items : List Json} {members : List (String × Json)} {before : List Char}

theorem SpellsNumber.head {value : Number} (h : SpellsNumber value text) :
    ∃ c others, text = c :: others ∧ (c = '-' ∨ c.isDigit = true) := by
  cases h with
  | @parts negative hasFraction hasExponent whole fraction exponent isFraction isExponent =>
      obtain ⟨c, others, hdigits⟩ := List.exists_cons_of_ne_nil (digits_toDigits whole).1
      have hc : c.isDigit = true :=
        (digits_toDigits whole).2 c (hdigits ▸ List.mem_cons_self ..)
      rw [hdigits]
      cases negative with
      | true => exact ⟨'-', _, rfl, .inl rfl⟩
      | false => exact ⟨c, _, rfl, .inr hc⟩

theorem isBlank_of_isDigit (h : c.isDigit = true) : isBlank c = false := by
  by_contra hblank
  have hmem := isBlank_iff.mp (Bool.eq_true_of_not_eq_false hblank)
  simp only [List.mem_cons, List.not_mem_nil, or_false] at hmem
  rcases hmem with rfl | rfl | rfl | rfl <;> cases h

/-- A value begins with a token that is neither a blank nor a closing bracket. -/
theorem Spells.head (h : Spells json text) :
    ∃ c others, text = c :: others ∧ isBlank c = false ∧ c ≠ ']' := by
  cases h with
  | null | boolTrue | boolFalse | noItems _ | array _ | noMembers _ | object _ =>
      exact ⟨_, _, rfl, rfl, by decide⟩
  | string spells =>
      cases spells with
      | quoted _ => exact ⟨_, _, rfl, rfl, by decide⟩
  | number spells =>
      obtain ⟨c, others, rfl, hc⟩ := spells.head
      refine ⟨c, others, rfl, ?_, ?_⟩
      · rcases hc with rfl | hc
        · rfl
        · exact isBlank_of_isDigit hc
      · rintro rfl
        rcases hc with hc | hc <;> cases hc

theorem readValue_blanks (h : Blanks before) (steps : Nat) :
    readValue steps (before ++ text) = readValue steps text := by
  cases steps with
  | zero => rfl
  | succ steps => rw [readValue, readValue, skipBlanks_append h]

theorem readValue_number {value : Number} (h : SpellsNumber value text) (hrest : EndsNumber rest)
    (steps : Nat) : readValue (steps + 1) (text ++ rest) = some (.number value, rest) := by
  have hread := readNumber_append h hrest
  obtain ⟨c, others, rfl, hc⟩ := h.head
  have hblank : isBlank c = false := by
    rcases hc with rfl | hc
    · rfl
    · exact isBlank_of_isDigit hc
  rw [readValue, List.cons_append, skipBlanks_cons hblank]
  split
  case h_7 => exact hread
  all_goals
    next he =>
      rw [(List.cons.inj he).1] at hc
      rcases hc with hc | hc <;> cases hc

/-- Items do not begin with a closing bracket, nor members with a closing brace. -/
theorem SpellsItems.skipBlanks_ne (h : SpellsItems items text) (rest others : List Char) :
    skipBlanks (text ++ rest) ≠ ']' :: others := by
  intro he
  cases h with
  | one isBefore spells isAfter | more isBefore spells isAfter _ =>
      obtain ⟨c, tail, rfl, hblank, hne⟩ := spells.head
      simp only [List.append_assoc, List.cons_append] at he
      rw [skipBlanks_append isBefore, skipBlanks_cons hblank] at he
      exact hne (List.cons.inj he).1

theorem SpellsMembers.skipBlanks_ne (h : SpellsMembers members text) (rest others : List Char) :
    skipBlanks (text ++ rest) ≠ '\x7d' :: others := by
  intro he
  cases h with
  | one isBefore spellsKey | more isBefore spellsKey =>
      cases spellsKey with
      | quoted _ =>
          simp only [List.append_assoc, List.cons_append] at he
          rw [skipBlanks_append isBefore, skipBlanks_cons rfl] at he
          cases he

structure Reads (steps : Nat) : Prop where
  value : ∀ {json text rest}, Spells json text → 2 * text.length < steps →
    EndsNumber rest → readValue steps (text ++ rest) = some (json, rest)
  items : ∀ {items text rest}, SpellsItems items text → 2 * text.length + 1 < steps →
    readItems steps (text ++ ']' :: rest) = some (items, rest)
  members : ∀ {members text rest}, SpellsMembers members text →
    2 * text.length + 1 < steps →
    readMembers steps (text ++ '\x7d' :: rest) = some (members, rest)

namespace Reads

variable {steps : Nat}

theorem value_succ (h : Reads steps) (hjson : Spells json text)
    (hsteps : 2 * text.length < steps + 1) (hrest : EndsNumber rest) :
    readValue (steps + 1) (text ++ rest) = some (json, rest) := by
  cases hjson with
  | null | boolTrue | boolFalse => rfl
  | number spells => exact readValue_number spells hrest steps
  | string spells =>
      obtain ⟨body, htext, hread⟩ := readString_append spells rest
      rw [htext, readValue, skipBlanks_cons rfl]
      simp only [hread, Option.map_some]
  | @noItems blanks isBlank =>
      have hskip : skipBlanks (blanks ++ ']' :: rest) = ']' :: rest := by
        rw [skipBlanks_append isBlank, skipBlanks_cons rfl]
      rw [List.cons_append, List.cons_append, List.append_assoc, readValue, skipBlanks_cons rfl]
      simp only [List.singleton_append, hskip]
  | @noMembers blanks isBlank =>
      have hskip : skipBlanks (blanks ++ '\x7d' :: rest) = '\x7d' :: rest := by
        rw [skipBlanks_append isBlank, skipBlanks_cons rfl]
      rw [List.cons_append, List.cons_append, List.append_assoc, readValue, skipBlanks_cons rfl]
      simp only [List.singleton_append, hskip]
  | @array items text spells =>
      simp only [List.cons_append, List.length_cons, List.length_append] at hsteps
      have hread : readItems steps (text ++ ']' :: rest) = some (items, rest) :=
        h.items spells (by omega)
      rw [List.cons_append, List.cons_append, List.append_assoc, readValue, skipBlanks_cons rfl]
      simp only [List.singleton_append]
      split
      · next he => exact absurd he (spells.skipBlanks_ne _ _)
      · rw [hread, Option.map_some]
  | @object members text spells =>
      simp only [List.cons_append, List.length_cons, List.length_append] at hsteps
      have hread : readMembers steps (text ++ '\x7d' :: rest) = some (members, rest) :=
        h.members spells (by omega)
      rw [List.cons_append, List.cons_append, List.append_assoc, readValue, skipBlanks_cons rfl]
      simp only [List.singleton_append]
      split
      · next he => exact absurd he (spells.skipBlanks_ne _ _)
      · rw [hread, Option.map_some]

theorem items_succ (h : Reads steps) (hitems : SpellsItems items text)
    (hsteps : 2 * text.length + 1 < steps + 1) :
    readItems (steps + 1) (text ++ ']' :: rest) = some (items, rest) := by
  cases hitems with
  | @one item before text after isBefore spells isAfter =>
      simp only [List.length_append] at hsteps
      have hread : readValue steps (text ++ (after ++ ']' :: rest)) =
          some (item, after ++ ']' :: rest) :=
        h.value spells (by omega) (endsNumber_blanks isAfter (endsNumber_cons (by decide)))
      have hafter : skipBlanks (after ++ ']' :: rest) = ']' :: rest := by
        rw [skipBlanks_append isAfter, skipBlanks_cons rfl]
      rw [readItems, List.append_assoc, List.append_assoc, readValue_blanks isBefore, hread]
      simp only [hafter]
  | @more item items before text after others isBefore spells isAfter isRest =>
      simp only [List.length_append, List.length_cons] at hsteps
      have hread : readValue steps (text ++ (after ++ ',' :: (others ++ ']' :: rest))) =
          some (item, after ++ ',' :: (others ++ ']' :: rest)) :=
        h.value spells (by omega) (endsNumber_blanks isAfter (endsNumber_cons (by decide)))
      have hafter : skipBlanks (after ++ ',' :: (others ++ ']' :: rest)) =
          ',' :: (others ++ ']' :: rest) := by
        rw [skipBlanks_append isAfter, skipBlanks_cons rfl]
      have hrest : readItems steps (others ++ ']' :: rest) = some (items, rest) :=
        h.items isRest (by omega)
      simp only [List.append_assoc, List.cons_append]
      rw [readItems, readValue_blanks isBefore, hread]
      simp only [hafter, hrest, Option.map_some]

/-- One member is read up to the comma or the brace after it. -/
theorem member (h : Reads steps) {key : String} {value : Json}
    {name between start after tail : List Char} {c : Char} (isBefore : Blanks before)
    (spellsKey : SpellsString key name) (isBetween : Blanks between) (isStart : Blanks start)
    (spells : Spells value text) (isAfter : Blanks after) (hsteps : 2 * text.length < steps)
    (hc : c ∈ [',', '\x7d']) :
    readMembers (steps + 1)
        (before ++ (name ++ (between ++ ':' :: (start ++ (text ++ (after ++ c :: tail)))))) =
      if c = ',' then
        (readMembers steps tail).map (fun (members, rest) => ((key, value) :: members, rest))
      else some ([(key, value)], tail) := by
  have hends : EndsNumber (c :: tail) := endsNumber_cons (by
    simp only [List.mem_cons, List.not_mem_nil, or_false] at hc ⊢
    tauto)
  have hread := h.value spells hsteps (endsNumber_blanks isAfter hends)
  obtain ⟨body, hname, hkey⟩ := readString_append spellsKey
    (between ++ ':' :: (start ++ (text ++ (after ++ c :: tail))))
  have hcolon : skipBlanks (between ++ ':' :: (start ++ (text ++ (after ++ c :: tail)))) =
      ':' :: (start ++ (text ++ (after ++ c :: tail))) := by
    rw [skipBlanks_append isBetween, skipBlanks_cons rfl]
  rw [readMembers, skipBlanks_append isBefore, hname, skipBlanks_cons rfl]
  simp only [hkey, hcolon, readValue_blanks isStart, hread, skipBlanks_append isAfter]
  simp only [List.mem_cons, List.not_mem_nil, or_false] at hc
  rcases hc with rfl | rfl <;> rfl

theorem members_succ (h : Reads steps) (hmembers : SpellsMembers members text)
    (hsteps : 2 * text.length + 1 < steps + 1) :
    readMembers (steps + 1) (text ++ '\x7d' :: rest) = some (members, rest) := by
  cases hmembers with
  | one isBefore spellsKey isBetween isStart spells isAfter =>
      simp only [List.length_append, List.length_cons] at hsteps
      simp only [List.append_assoc, List.cons_append]
      exact h.member isBefore spellsKey isBetween isStart spells isAfter (by omega) (by simp)
  | @more key value members _ _ _ _ _ _ others isBefore spellsKey isBetween isStart spells isAfter
      isRest =>
      simp only [List.length_append, List.length_cons] at hsteps
      have hrest : readMembers steps (others ++ '\x7d' :: rest) = some (members, rest) :=
        h.members isRest (by omega)
      simp only [List.append_assoc, List.cons_append]
      rw [h.member isBefore spellsKey isBetween isStart spells isAfter (by omega) (by simp),
        if_pos rfl, hrest]
      rfl

end Reads

/-- Every spelling is read if there are steps enough. -/
theorem reads (steps : Nat) : Reads steps := by
  induction steps with
  | zero => exact ⟨fun _ h => absurd h (by omega), fun _ h => absurd h (by omega),
      fun _ h => absurd h (by omega)⟩
  | succ steps ih => exact ⟨ih.value_succ, ih.items_succ, ih.members_succ⟩

/-- The reader finds the value in every text that spells it. -/
theorem parse?_of_spells {text : String} (h : SpellsText json text) : parse? text = some json := by
  cases h with
  | @text before spelling after isBefore spells isAfter =>
      have hends : EndsNumber after := by
        rw [← List.append_nil after]
        exact endsNumber_blanks isAfter (fun c hc => by cases hc)
      have hskip : skipBlanks after = [] := by
        rw [← List.append_nil after, skipBlanks_append isAfter]
        rfl
      have hread : readValue (2 * (before ++ (spelling ++ after)).length + 2)
          (spelling ++ after) = some (json, after) :=
        (reads _).value spells (by simp only [List.length_append]; omega) hends
      unfold parse?
      simp only [String.toList_ofList, List.append_assoc, readValue_blanks isBefore, hread, hskip,
        List.isEmpty_nil, if_true]

end Json

end CodeTidy
