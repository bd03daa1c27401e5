/-!
# JSON values

Values of a JSON text.  An object keeps its members in the order of the text,
repeated keys included, so that a reader of records can refuse them.
-/

namespace CodeTidy

structure Number where
  negative : Bool
  /-- Value of the digits before any fraction or exponent. -/
  whole : Nat
  /-- Whether a fraction or an exponent follows. -/
  scaled : Bool
deriving DecidableEq

inductive Json where
  | null
  | bool (value : Bool)
  | number (value : Number)
  | string (value : String)
  | array (items : List Json)
  | object (members : List (String × Json))

namespace Json

/-- A natural number below `limit`, written without sign, fraction and exponent. -/
def natBelow? (limit : Nat) : Json → Option Nat
  | number value =>
      if value.negative || value.scaled then none
      else if value.whole < limit then some value.whole
      else none
  | _ => none

def string? : Json → Option String
  | string value => some value
  | _ => none

def strings? : Json → Option (List String)
  | array items => items.mapM string?
  | _ => none

/-- Whether all keys are different and among the given names. -/
def keysFit (names : List String) (members : List (String × Json)) : Bool :=
  let keys := members.map Prod.fst
  keys.all names.contains && decide keys.Nodup

/-- The fields of a record with the given field names.  A record is an object with
some of the names as keys, each once, or the list of its first fields in order. -/
def record? (names : List String) : Json → Option (List (String × Json))
  | object members => if keysFit names members then some members else none
  | array items => if items.length ≤ names.length then some (names.zip items) else none
  | _ => none

end Json

end CodeTidy
