import CodeTidy.Json.Value

/-!
# Reading JSON

A strict reader: blanks are space, tab, newline and return; strings hold no
control characters, and escapes of surrogate codes come in pairs; nothing but
blanks follows the value.  Each function takes the characters that are left and
gives back those after what it read.
-/

namespace CodeTidy

namespace Json

/-! ## Blanks and digits -/

def isBlank (c : Char) : Bool :=
  c == ' ' || c == '\t' || c == '\n' || c == '\r'

def skipBlanks (text : List Char) : List Char :=
  text.dropWhile isBlank

def isDigit (c : Char) : Bool :=
  '0' ≤ c && c ≤ '9'

def hexDigit? (c : Char) : Option Nat :=
  if isDigit c then some (c.toNat - '0'.toNat)
  else if 'a' ≤ c && c ≤ 'f' then some (c.toNat - 'a'.toNat + 10)
  else if 'A' ≤ c && c ≤ 'F' then some (c.toNat - 'A'.toNat + 10)
  else none

def digitsValue (digits : List Char) : Nat :=
  digits.foldl (fun value c => 10 * value + (c.toNat - '0'.toNat)) 0

/-! ## Strings -/

/-- A character of a string, or a code from an escape that is yet to be paired. -/
inductive Piece where
  | char (value : Char)
  | code (value : Nat)
deriving DecidableEq

def escape? : Char → Option Char
  | '\x22' => some '\x22'
  | '\\' => some '\\'
  | '/' => some '/'
  | 'b' => some '\x08'
  | 'f' => some '\x0c'
  | 'n' => some '\n'
  | 'r' => some '\r'
  | 't' => some '\t'
  | _ => none

def hexCode? (a b c d : Char) : Option Nat :=
  match hexDigit? a, hexDigit? b, hexDigit? c, hexDigit? d with
  | some a, some b, some c, some d => some (((a * 16 + b) * 16 + c) * 16 + d)
  | _, _, _, _ => none

def consPiece (piece : Option Piece) (rest : Option (List Piece × List Char)) :
    Option (List Piece × List Char) :=
  match piece, rest with
  | some piece, some (pieces, text) => some (piece :: pieces, text)
  | _, _ => none

/-- The pieces of a string up to its closing quote. -/
def readPieces : List Char → Option (List Piece × List Char)
  | [] => none
  | '\x22' :: rest => some ([], rest)
  | '\\' :: 'u' :: a :: b :: c :: d :: rest =>
      consPiece ((hexCode? a b c d).map Piece.code) (readPieces rest)
  | '\\' :: letter :: rest => consPiece ((escape? letter).map Piece.char) (readPieces rest)
  | c :: rest => if c.toNat < 32 || c == '\\' then none
      else consPiece (some (.char c)) (readPieces rest)

def isHighSurrogate (code : Nat) : Bool :=
  0xD800 ≤ code && code < 0xDC00

def isLowSurrogate (code : Nat) : Bool :=
  0xDC00 ≤ code && code < 0xE000

def pairChar (high low : Nat) : Char :=
  Char.ofNat (0x10000 + (high - 0xD800) * 0x400 + (low - 0xDC00))

/-- The characters of a string; a surrogate without its partner has none. -/
def joinPieces : List Piece → Option (List Char)
  | [] => some []
  | .char c :: rest => (joinPieces rest).map (fun chars => c :: chars)
  | .code high :: .code low :: rest =>
      if isHighSurrogate high then
        if isLowSurrogate low then
          (joinPieces rest).map (fun chars => pairChar high low :: chars)
        else
          none
      else if isLowSurrogate high then
        none
      else
        (joinPieces (.code low :: rest)).map (fun chars => Char.ofNat high :: chars)
  | .code code :: rest =>
      if isHighSurrogate code || isLowSurrogate code then
        none
      else
        (joinPieces rest).map (fun chars => Char.ofNat code :: chars)

def readString (text : List Char) : Option (String × List Char) :=
  match readPieces text with
  | some (pieces, rest) => (joinPieces pieces).map (fun chars => (String.ofList chars, rest))
  | none => none

/-! ## Numbers -/

def readDigits (text : List Char) : Option (List Char × List Char) :=
  match text.takeWhile isDigit with
  | [] => none
  | digits => some (digits, text.dropWhile isDigit)

/-- The digits before a fraction: a single zero, or digits that do not start with
zero. -/
def readWhole (text : List Char) : Option (Nat × List Char) :=
  match text with
  | '0' :: rest => some (0, rest)
  | _ => (readDigits text).map (fun (digits, rest) => (digitsValue digits, rest))

/-- A fraction if there is one; the flag tells whether there was. -/
def skipFraction (text : List Char) : Option (Bool × List Char) :=
  match text with
  | '.' :: rest => (readDigits rest).map (fun (_, rest) => (true, rest))
  | _ => some (false, text)

/-- The text after the sign of an exponent. -/
def skipSign (text : List Char) : List Char :=
  match text with
  | '+' :: rest => rest
  | '-' :: rest => rest
  | _ => text

/-- An exponent if there is one; the flag tells whether there was. -/
def skipExponent (text : List Char) : Option (Bool × List Char) :=
  match text with
  | 'e' :: rest => (readDigits (skipSign rest)).map (fun (_, rest) => (true, rest))
  | 'E' :: rest => (readDigits (skipSign rest)).map (fun (_, rest) => (true, rest))
  | _ => some (false, text)

/-- A number after its sign. -/
def readUnsigned (negative : Bool) (text : List Char) : Option (Json × List Char) :=
  match readWhole text with
  | none => none
  | some (whole, afterWhole) =>
      match skipFraction afterWhole with
      | none => none
      | some (hasFraction, afterFraction) =>
          match skipExponent afterFraction with
          | none => none
          | some (hasExponent, rest) =>
              some (.number ⟨negative, whole, hasFraction || hasExponent⟩, rest)

def readNumber (text : List Char) : Option (Json × List Char) :=
  match text with
  | '-' :: rest => readUnsigned true rest
  | _ => readUnsigned false text

/-! ## Values -/

mutual

/-- A value, after any blanks. -/
def readValue : Nat → List Char → Option (Json × List Char)
  | 0, _ => none
  | steps + 1, text =>
      match skipBlanks text with
      | 'n' :: 'u' :: 'l' :: 'l' :: rest => some (.null, rest)
      | 't' :: 'r' :: 'u' :: 'e' :: rest => some (.bool true, rest)
      | 'f' :: 'a' :: 'l' :: 's' :: 'e' :: rest => some (.bool false, rest)
      | '\x22' :: rest => (readString rest).map (fun (value, rest) => (.string value, rest))
      | '[' :: rest =>
          match skipBlanks rest with
          | ']' :: rest => some (.array [], rest)
          | _ => (readItems steps rest).map (fun (items, rest) => (.array items, rest))
      | '\x7b' :: rest =>
          match skipBlanks rest with
          | '\x7d' :: rest => some (.object [], rest)
          | _ => (readMembers steps rest).map (fun (members, rest) => (.object members, rest))
      | other => readNumber other

def readItems : Nat → List Char → Option (List Json × List Char)
  | 0, _ => none
  | steps + 1, text =>
      match readValue steps text with
      | none => none
      | some (item, rest) =>
          match skipBlanks rest with
          | ',' :: rest => (readItems steps rest).map (fun (items, rest) => (item :: items, rest))
          | ']' :: rest => some ([item], rest)
          | _ => none

def readMembers : Nat → List Char → Option (List (String × Json) × List Char)
  | 0, _ => none
  | steps + 1, text =>
      match skipBlanks text with
      | '\x22' :: rest =>
          match readString rest with
          | none => none
          | some (key, rest) =>
              match skipBlanks rest with
              | ':' :: rest =>
                  match readValue steps rest with
                  | none => none
                  | some (value, rest) =>
                      match skipBlanks rest with
                      | ',' :: rest =>
                          (readMembers steps rest).map
                            (fun (members, rest) => ((key, value) :: members, rest))
                      | '\x7d' :: rest => some ([(key, value)], rest)
                      | _ => none
              | _ => none
      | _ => none

end

/-- The value of a text that holds one value and blanks.  No character is the start of
more than two nested steps. -/
def parse? (text : String) : Option Json :=
  let chars := text.toList
  match readValue (2 * chars.length + 2) chars with
  | some (value, rest) => if (skipBlanks rest).isEmpty then some value else none
  | none => none

end Json

end CodeTidy
