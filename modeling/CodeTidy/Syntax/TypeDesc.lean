import CodeTidy.Syntax.Kind

/-!
# Resolved types

A type descriptor is what name resolution knows about a type: its full name, a
rough classification, and the full names of the supertypes it reports.  A type
table numbers descriptors in the order in which they are first met, and gives
equal descriptors equal numbers.
-/

namespace CodeTidy

/-! ## Dotted names -/

namespace Dotted

/-- The text before the first dot and the texts after each dot. -/
def split : List Char → List Char × List (List Char)
  | [] => ([], [])
  | c :: rest =>
      let (first, later) := split rest
      if c = '.' then ([], first :: later) else (c :: first, later)

def segments (text : String) : String × List String :=
  let (first, later) := split text.toList
  (String.ofList first, later.map String.ofList)

def lastSegment (text : String) : String :=
  let (first, later) := segments text
  later.getLast?.getD first

end Dotted

/-! ## Descriptors -/

inductive TypeClass where
  /-- A built-in value type. -/
  | primitive
  /-- The object form of a built-in value type. -/
  | boxed
  /-- A type whose values are named constants. -/
  | enumeration
  /-- Any other class or interface. -/
  | reference
  /-- An array; its name ends in brackets. -/
  | array
deriving DecidableEq

structure TypeDesc where
  name : String
  sort : TypeClass
  supertypes : List String := []
deriving DecidableEq

namespace TypeDesc

def primitiveNames : List String :=
  ["boolean", "byte", "char", "short", "int", "long", "float", "double"]

def primitive (name : String) : TypeDesc := ⟨name, .primitive, []⟩

def reference (name : String) : TypeDesc := ⟨name, .reference, []⟩

/-- The type a bare name stands for: a built-in value type or a class. -/
def ofName (name : String) : TypeDesc :=
  if name ∈ primitiveNames then primitive name else reference name

def boolean : TypeDesc := primitive "boolean"
def int : TypeDesc := primitive "int"
def char : TypeDesc := primitive "char"
def string : TypeDesc := reference "java.lang.String"

/-- Whether the type has this name or reports it as a supertype. -/
def isSubtypeOf (type : TypeDesc) (name : String) : Bool :=
  type.name == name || type.supertypes.contains name

def isOneOf (type : TypeDesc) (names : List String) : Bool :=
  names.contains type.name

def simpleName (type : TypeDesc) : String :=
  Dotted.lastSegment type.name

end TypeDesc

/-! ## Type tables -/

/-- Descriptors in the order of their numbers. -/
structure TypeTable where
  types : Array TypeDesc := #[]
deriving DecidableEq

namespace TypeTable

def get? (table : TypeTable) (type : TypeId) : Option TypeDesc :=
  table.types[type]?

/-- The number of a descriptor, which is added at the end if it is new. -/
def intern (table : TypeTable) (desc : TypeDesc) : TypeId × TypeTable :=
  match table.types.findIdx? (fun known => known == desc) with
  | some type => (type, table)
  | none => (table.types.size, ⟨table.types.push desc⟩)

theorem get?_intern (table : TypeTable) (desc : TypeDesc) :
    (table.intern desc).2.get? (table.intern desc).1 = some desc := by
  unfold intern
  split
  · next type h =>
      obtain ⟨hlt, heq, _⟩ := Array.findIdx?_eq_some_iff_getElem.mp h
      simp only [get?, Array.getElem?_eq_getElem hlt, Option.some.injEq]
      exact eq_of_beq heq
  · simp [get?]

end TypeTable

end CodeTidy
