import CodeTidy.Proofs.Evaluation
import CodeTidy.Proofs.Meaning

/-!
# Expressions that calculate

In a `Calculation` operators make values of values and change nothing.  They can still throw:
where an integer is divided by zero, and where a field of nothing is looked up.  Whether an
evaluation comes to such a place depends on the world, because `&&` and `||` skip operands.  For
each form of expression, what is foretold of the parts is foretold of the whole
(`Foretold`): the world stays as it is, and there is a value unless the evaluation comes to such
a place.
-/

namespace CodeTidy

/-! ## Actions -/

namespace Action

variable {World Thrown α : Type}

def Throws (action : Action World Thrown α) (world : World) : Prop :=
  ∃ cause, action.outcome world = some (.error cause, world)

/-- Combines a value with those of more operands, from the left, until it is settled. -/
def foldFrom (settled : α → Bool) (combine : α → α → Action World Thrown α) :
    α → List (Action World Thrown α) → Action World Thrown α
  | sofar, [] => return sofar
  | sofar, operand :: rest =>
      if settled sofar then
        return sofar
      else do
        let value ← operand
        let next ← combine sofar value
        foldFrom settled combine next rest

variable {action : Action World Thrown α} {world : World}

theorem Reads.unique {x y : α} (h : action.Reads world x) (h' : action.Reads world y) : x = y := by
  have hsame := h.symm.trans h'
  cases hsame
  rfl

theorem Reads.not_throws {x : α} (h : action.Reads world x) : ¬ action.Throws world := by
  rintro ⟨cause, hcause⟩
  cases h.symm.trans hcause

theorem Throws.bind {β : Type} {next : α → Action World Thrown β} (h : action.Throws world) :
    (action >>= next).Throws world := by
  obtain ⟨cause, hcause⟩ := h
  exact ⟨cause, outcome_bind_error hcause⟩

theorem Reads.reads_bind {β : Type} {next : α → Action World Thrown β} {x : α} {y : β}
    (h : action.Reads world x) (hnext : (next x).Reads world y) :
    (action >>= next).Reads world y :=
  h.outcome_bind.trans hnext

theorem Reads.throws_bind {β : Type} {next : α → Action World Thrown β} {x : α}
    (h : action.Reads world x) (hnext : (next x).Throws world) :
    (action >>= next).Throws world := by
  obtain ⟨cause, hcause⟩ := hnext
  exact ⟨cause, h.outcome_bind.trans hcause⟩

end Action

/-! ## Calculations -/

def InfixOp.divides : InfixOp → Bool
  | divide | remainder => true
  | _ => false

structure Traits (Val : Type) where
  /-- The truth of a value that stands where a boolean is wanted. -/
  truth : Val → Bool
  isNull : Val → Bool
  isInteger : Val → Bool
  /-- The integer zero. -/
  isZero : Val → Bool

namespace Traits

variable {Val : Type} (traits : Traits Val)

/-- Whether a value is that of a chain, whatever the operands after it are. -/
def isSettled (op : InfixOp) (value : Val) : Bool :=
  op.stop? == some (traits.truth value)

def isZeroDivision (op : InfixOp) (left right : Val) : Bool :=
  op.divides && traits.isInteger left && traits.isZero right

end Traits

/-- What expressions do in a language in which operators calculate.  Literals have values,
operators throw nothing but divisions by zero, and a field can be looked up in every value but
null.  Names, calls, creations, assignments, increments and decrements are arbitrary, except that
a name with a qualifier that is null throws. -/
structure Calculation (World Val Thrown : Type) extends Traits Val where
  eval : Term → Action World Thrown Val
  reads_literal : ∀ literal type world,
    ∃ value, (eval (.node (.literal literal) type [])).Reads world value
  eval_paren : ∀ type inner, eval (.node .paren type [inner]) = eval inner
  /-- The value that an operator makes of the one of its operand. -/
  apply : PrefixOp → Val → Action World Thrown Val
  eval_prefixed : ∀ op type operand, op.hasSideEffect = false →
    eval (.node (.prefixed op) type [operand]) = eval operand >>= apply op
  reads_apply : ∀ op value world, op.hasSideEffect = false →
    ∃ result, (apply op value).Reads world result
  /-- The value of a field of a value. -/
  lookup : String → Val → Action World Thrown Val
  eval_field : ∀ label type target,
    eval (.node (.field label) type [target]) = eval target >>= lookup label
  reads_lookup : ∀ label value world, isNull value = false →
    ∃ result, (lookup label value).Reads world result
  throws_lookup : ∀ label value world, isNull value = true →
    (lookup label value).Throws world
  throws_qualified : ∀ type qualifier simple value world,
    (eval qualifier).Reads world value → isNull value = true →
      (eval (.node .qualified type [qualifier, simple])).Throws world
  /-- The value that an operator makes of those of two operands. -/
  combine : InfixOp → Val → Val → Action World Thrown Val
  reads_combine : ∀ op left right world, toTraits.isZeroDivision op left right = false →
    ∃ result, (combine op left right).Reads world result
  throws_combine : ∀ op left right world, toTraits.isZeroDivision op left right = true →
    (combine op left right).Throws world
  /-- No source text has a chain without operands. -/
  reads_empty : ∀ op type world,
    ∃ value, (eval (.node (.chain op) type [])).Reads world value
  /-- Operands are evaluated and combined from the left. -/
  eval_chain : ∀ op type first rest, eval (.node (.chain op) type (first :: rest)) = (do
    let start ← eval first
    .foldFrom (toTraits.isSettled op) (combine op) start (rest.map eval))

namespace Calculation

variable {World Val Thrown : Type} (calculation : Calculation World Val Thrown)

/-! ## Places where an evaluation throws -/

/-- The value of an expression is null. -/
def IsNothing (world : World) (term : Term) : Prop :=
  ∃ value, (calculation.eval term).Reads world value ∧ calculation.isNull value = true

/-- With a value so far and some operands left, the evaluation of a chain comes to one of the
operands with another value. -/
inductive Comes (world : World) (op : InfixOp) : Val → List Term → Val → Term → Prop where
  | here {sofar : Val} {operand : Term} {rest : List Term}
      (still : calculation.isSettled op sofar = false) :
      Comes world op sofar (operand :: rest) sofar operand
  | later {sofar value next there : Val} {operand other : Term} {rest : List Term}
      (still : calculation.isSettled op sofar = false)
      (reads : (calculation.eval operand).Reads world value)
      (combined : (calculation.combine op sofar value).Reads world next)
      (comes : Comes world op next rest there other) :
      Comes world op sofar (operand :: rest) there other

/-- To evaluate the one, the other is evaluated, which is one of its parts. -/
inductive Evaluates (world : World) : Term → Term → Prop where
  | paren {type : Option TypeDesc} {inner : Term} :
      Evaluates world (.node .paren type [inner]) inner
  | operand {op : PrefixOp} {type : Option TypeDesc} {operand : Term} :
      Evaluates world (.node (.prefixed op) type [operand]) operand
  | target {label : String} {type : Option TypeDesc} {target : Term} :
      Evaluates world (.node (.field label) type [target]) target
  | first {op : InfixOp} {type : Option TypeDesc} {first : Term} {rest : List Term} :
      Evaluates world (.node (.chain op) type (first :: rest)) first
  | next {op : InfixOp} {type : Option TypeDesc} {first operand : Term} {rest : List Term}
      {start sofar : Val} (reads : (calculation.eval first).Reads world start)
      (comes : calculation.Comes world op start rest sofar operand) :
      Evaluates world (.node (.chain op) type (first :: rest)) operand

/-- Expressions that throw although their parts have values. -/
inductive Faulty (world : World) : Term → Prop where
  | field {label : String} {type : Option TypeDesc} {target : Term}
      (null : calculation.IsNothing world target) :
      Faulty world (.node (.field label) type [target])
  | qualified {type : Option TypeDesc} {qualifier simple : Term}
      (null : calculation.IsNothing world qualifier) :
      Faulty world (.node .qualified type [qualifier, simple])
  | division {op : InfixOp} {type : Option TypeDesc} {first divisor : Term} {rest : List Term}
      {start sofar value : Val} (reads : (calculation.eval first).Reads world start)
      (comes : calculation.Comes world op start rest sofar divisor)
      (divided : (calculation.eval divisor).Reads world value)
      (zero : calculation.isZeroDivision op sofar value = true) :
      Faulty world (.node (.chain op) type (first :: rest))

/-- The evaluation comes to a division of an integer by zero or to a field of nothing. -/
def Fails (world : World) (term : Term) : Prop :=
  ∃ site, Relation.ReflTransGen (calculation.Evaluates world) term site ∧
    calculation.Faulty world site

/-- The world has a value for a name, or the name belongs to something that is null there. -/
def Binds (world : World) (name : Term) : Prop :=
  (∃ value, (calculation.eval name).Reads world value) ∨
    ∃ type qualifier simple, name = .node .qualified type [qualifier, simple] ∧
      calculation.IsNothing world qualifier

variable {calculation} {world : World} {term : Term}

theorem fails_iff : calculation.Fails world term ↔ calculation.Faulty world term ∨
    ∃ part, calculation.Evaluates world term part ∧ calculation.Fails world part := by
  constructor
  · rintro ⟨site, hcomes, hfaulty⟩
    rcases Relation.ReflTransGen.cases_head hcomes with rfl | ⟨part, hpart, hrest⟩
    · exact .inl hfaulty
    · exact .inr ⟨part, hpart, site, hrest, hfaulty⟩
  · rintro (hfaulty | ⟨part, hpart, site, hcomes, hfaulty⟩)
    · exact ⟨term, .refl, hfaulty⟩
    · exact ⟨site, .head hpart hcomes, hfaulty⟩

theorem Comes.mem {op : InfixOp} {sofar there : Val} {rest : List Term} {operand : Term}
    (h : calculation.Comes world op sofar rest there operand) : operand ∈ rest := by
  induction h with
  | here _ => exact List.mem_cons_self ..
  | later _ _ _ _ ih => exact List.mem_cons_of_mem _ ih

/-! ## Evaluations that do as foretold -/

/-- An action changes nothing, and it throws exactly if it is said to fail. -/
inductive Told {α : Type} (action : Action World Thrown α) (world : World) (fails : Prop) :
    Prop where
  | value (result : α) (reads : action.Reads world result) (safe : ¬ fails)
  | thrown (throws : action.Throws world) (failed : fails)

/-- One action after another, of which the second fails if the value of the first does. -/
theorem Told.bind {α β : Type} {action : Action World Thrown α}
    {next : α → Action World Thrown β} {fails fails' : Prop} (h : Told action world fails)
    (hfails : fails → fails')
    (hnext : ∀ value, action.Reads world value → ¬ fails → Told (next value) world fails') :
    Told (action >>= next) world fails' := by
  cases h with
  | value result reads safe =>
      cases hnext result reads safe with
      | value last hlast hsafe => exact .value last (reads.reads_bind hlast) hsafe
      | thrown hthrows hfailed => exact .thrown (reads.throws_bind hthrows) hfailed
  | thrown throws failed => exact .thrown throws.bind (hfails failed)

theorem Told.congr {α : Type} {action : Action World Thrown α} {fails fails' : Prop}
    (h : Told action world fails) (hiff : fails ↔ fails') : Told action world fails' := by
  rwa [← propext hiff]

variable (calculation world) in
def Foretold (term : Term) : Prop :=
  Told (calculation.eval term) world (calculation.Fails world term)

theorem foretold_of_reads {value : Val} (hreads : (calculation.eval term).Reads world value)
    (hfaulty : ¬ calculation.Faulty world term)
    (hpart : ∀ part, ¬ calculation.Evaluates world term part) :
    calculation.Foretold world term := by
  refine .value value hreads ?_
  rw [fails_iff]
  rintro (hhere | ⟨part, hevaluates, -⟩)
  · exact hfaulty hhere
  · exact hpart part hevaluates

theorem foretold_literal (literal : Literal) (type : Option TypeDesc) :
    calculation.Foretold world (.node (.literal literal) type []) := by
  obtain ⟨value, hvalue⟩ := calculation.reads_literal literal type world
  exact foretold_of_reads hvalue (by rintro ⟨⟩) (by rintro part ⟨⟩)

theorem foretold_name {text : String} {binding : Option BindingId} {type : Option TypeDesc}
    (h : calculation.Binds world (.node (.name text binding) type [])) :
    calculation.Foretold world (.node (.name text binding) type []) := by
  rcases h with ⟨value, hvalue⟩ | ⟨_, _, _, heq, -⟩
  · exact foretold_of_reads hvalue (by rintro ⟨⟩) (by rintro part ⟨⟩)
  · cases heq

theorem foretold_qualified {type : Option TypeDesc} {qualifier simple : Term}
    (h : calculation.Binds world (.node .qualified type [qualifier, simple])) :
    calculation.Foretold world (.node .qualified type [qualifier, simple]) := by
  have hthrows : calculation.IsNothing world qualifier →
      (calculation.eval (.node .qualified type [qualifier, simple])).Throws world := by
    rintro ⟨value, hvalue, hnull⟩
    exact calculation.throws_qualified type qualifier simple value world hvalue hnull
  rcases h with ⟨value, hvalue⟩ | ⟨_, _, _, heq, hnull⟩
  · refine foretold_of_reads hvalue (fun hfaulty => ?_) (by rintro part ⟨⟩)
    cases hfaulty with
    | qualified null => exact hvalue.not_throws (hthrows null)
  · cases heq
    exact .thrown (hthrows hnull) (fails_iff.mpr (.inl (.qualified hnull)))

theorem Foretold.of_part {inner : Term} {next : Val → Action World Thrown Val}
    (h : calculation.Foretold world inner)
    (heval : calculation.eval term = calculation.eval inner >>= next)
    (hpart : ∀ part, calculation.Evaluates world term part ↔ part = inner)
    (hnext : ∀ value, (calculation.eval inner).Reads world value →
      Told (next value) world (calculation.Faulty world term)) :
    calculation.Foretold world term := by
  have hfails : calculation.Fails world term ↔
      calculation.Faulty world term ∨ calculation.Fails world inner := by
    rw [fails_iff]
    simp only [hpart, exists_eq_left]
  unfold Foretold
  rw [heval]
  refine Told.bind h (fun hinner => hfails.mpr (.inr hinner)) (fun value hvalue hsafe => ?_)
  refine (hnext value hvalue).congr ?_
  rw [hfails]
  exact (or_iff_left hsafe).symm

theorem foretold_paren {inner : Term} (h : calculation.Foretold world inner)
    (type : Option TypeDesc) : calculation.Foretold world (.node .paren type [inner]) := by
  refine h.of_part ((calculation.eval_paren type inner).trans (bind_pure _).symm) ?_ ?_
  · exact fun part => ⟨by rintro ⟨⟩; rfl, by rintro rfl; exact .paren⟩
  · exact fun value _ => .value value rfl (by rintro ⟨⟩)

theorem foretold_prefixed {op : PrefixOp} {operand : Term} (hop : op.hasSideEffect = false)
    (h : calculation.Foretold world operand) (type : Option TypeDesc) :
    calculation.Foretold world (.node (.prefixed op) type [operand]) := by
  refine h.of_part (calculation.eval_prefixed op type operand hop) ?_ ?_
  · exact fun part => ⟨by rintro ⟨⟩; rfl, by rintro rfl; exact .operand⟩
  · intro value _
    obtain ⟨result, hresult⟩ := calculation.reads_apply op value world hop
    exact .value result hresult (by rintro ⟨⟩)

theorem foretold_field {target : Term} (h : calculation.Foretold world target) (label : String)
    (type : Option TypeDesc) :
    calculation.Foretold world (.node (.field label) type [target]) := by
  refine h.of_part (calculation.eval_field label type target) ?_ ?_
  · exact fun part => ⟨by rintro ⟨⟩; rfl, by rintro rfl; exact .target⟩
  · intro value hvalue
    cases hnull : calculation.isNull value with
    | true =>
        exact .thrown (calculation.throws_lookup label value world hnull)
          (.field ⟨value, hvalue, hnull⟩)
    | false =>
        obtain ⟨result, hresult⟩ := calculation.reads_lookup label value world hnull
        refine .value result hresult ?_
        rintro ⟨other, hother, hnull'⟩
        rw [hother.unique hvalue, hnull] at hnull'
        cases hnull'

/-! ## Chains -/

variable {op : InfixOp} {sofar : Val} {operand : Term} {rest : List Term}

variable (calculation world op) in
/-- The evaluation of the operands that are left fails, or comes to a division by zero. -/
def Stops (sofar : Val) (rest : List Term) : Prop :=
  ∃ there operand, calculation.Comes world op sofar rest there operand ∧
    (calculation.Fails world operand ∨ ∃ value, (calculation.eval operand).Reads world value ∧
      calculation.isZeroDivision op there value = true)

theorem told_combine (op : InfixOp) (left right : Val) :
    Told (calculation.combine op left right) world
      (calculation.isZeroDivision op left right = true) := by
  cases hzero : calculation.isZeroDivision op left right with
  | true => exact .thrown (calculation.throws_combine op left right world hzero) rfl
  | false =>
      obtain ⟨result, hresult⟩ := calculation.reads_combine op left right world hzero
      exact .value result hresult Bool.false_ne_true

theorem not_stops_of_settled (h : calculation.isSettled op sofar = true) :
    ¬ calculation.Stops world op sofar rest := by
  rintro ⟨there, operand, hcomes, -⟩
  cases hcomes with
  | here still => simp [h] at still
  | later still => simp [h] at still

/-- Once an operand is combined, what can stop the evaluation comes after it. -/
theorem stops_cons_iff {value next : Val} (hopen : calculation.isSettled op sofar = false)
    (hvalue : (calculation.eval operand).Reads world value)
    (hnext : (calculation.combine op sofar value).Reads world next)
    (hsafe : ¬ calculation.Fails world operand)
    (hzero : ¬ calculation.isZeroDivision op sofar value = true) :
    calculation.Stops world op next rest ↔ calculation.Stops world op sofar (operand :: rest) := by
  constructor
  · rintro ⟨there, other, hcomes, hstops⟩
    exact ⟨there, other, .later hopen hvalue hnext hcomes, hstops⟩
  · rintro ⟨there, other, hcomes, hstops⟩
    cases hcomes with
    | here _ =>
        rcases hstops with hfails | ⟨value', hvalue', hzero'⟩
        · exact absurd hfails hsafe
        · rw [hvalue'.unique hvalue] at hzero'
          exact absurd hzero' hzero
    | later _ reads combined comes =>
        obtain rfl := reads.unique hvalue
        obtain rfl := combined.unique hnext
        exact ⟨there, other, comes, hstops⟩

theorem told_foldFrom (h : ∀ there operand,
      calculation.Comes world op sofar rest there operand → calculation.Foretold world operand) :
    Told (.foldFrom (calculation.isSettled op) (calculation.combine op) sofar
      (rest.map calculation.eval)) world (calculation.Stops world op sofar rest) := by
  induction rest generalizing sofar with
  | nil =>
      refine .value sofar rfl ?_
      rintro ⟨there, operand, ⟨⟩, -⟩
  | cons operand rest ih =>
      rw [List.map_cons, Action.foldFrom]
      cases hsettled : calculation.isSettled op sofar with
      | true => exact .value sofar rfl (not_stops_of_settled hsettled)
      | false =>
          have hhere : calculation.Comes world op sofar (operand :: rest) sofar operand :=
            .here hsettled
          refine Told.bind (h _ _ hhere) (fun hfails => ⟨sofar, operand, hhere, .inl hfails⟩) ?_
          intro value hvalue hsafe
          refine Told.bind (told_combine op sofar value)
            (fun hzero => ⟨sofar, operand, hhere, .inr ⟨value, hvalue, hzero⟩⟩) ?_
          intro next hnext hzero
          exact (ih fun there other hcomes =>
            h there other (.later hsettled hvalue hnext hcomes)).congr
              (stops_cons_iff hsettled hvalue hnext hsafe hzero)

theorem fails_chain_iff {first : Term} {start : Val} (type : Option TypeDesc)
    (hstart : (calculation.eval first).Reads world start)
    (hsafe : ¬ calculation.Fails world first) :
    calculation.Stops world op start rest ↔
      calculation.Fails world (.node (.chain op) type (first :: rest)) := by
  rw [fails_iff]
  constructor
  · rintro ⟨there, operand, hcomes, hfails | ⟨value, hvalue, hzero⟩⟩
    · exact .inr ⟨operand, .next hstart hcomes, hfails⟩
    · exact .inl (.division hstart hcomes hvalue hzero)
  · rintro (hfaulty | ⟨part, hpart, hfails⟩)
    · cases hfaulty with
      | division reads comes divided zero =>
          obtain rfl := reads.unique hstart
          exact ⟨_, _, comes, .inr ⟨_, divided, zero⟩⟩
    · cases hpart with
      | first => exact absurd hfails hsafe
      | next reads comes =>
          obtain rfl := reads.unique hstart
          exact ⟨_, part, comes, .inl hfails⟩

theorem foretold_chain {operands : List Term}
    (h : ∀ operand, operand ∈ operands → calculation.Foretold world operand)
    (op : InfixOp) (type : Option TypeDesc) :
    calculation.Foretold world (.node (.chain op) type operands) := by
  cases operands with
  | nil =>
      obtain ⟨value, hvalue⟩ := calculation.reads_empty op type world
      exact foretold_of_reads hvalue (by rintro ⟨⟩) (by rintro part ⟨⟩)
  | cons first rest =>
      unfold Foretold
      rw [calculation.eval_chain]
      refine Told.bind (h first (List.mem_cons_self ..))
        (fun hfails => fails_iff.mpr (.inr ⟨first, .first, hfails⟩)) ?_
      intro start hstart hsafe
      refine (told_foldFrom fun there operand hcomes => ?_).congr
        (fails_chain_iff type hstart hsafe)
      exact h operand (List.mem_cons_of_mem _ hcomes.mem)

end Calculation

/-! ## A calculator -/

namespace Calculator

inductive Datum where
  | bool (value : Bool)
  | int (value : Int)
  | str (text : String)
  | object (number : Nat)
  | null
deriving DecidableEq

inductive Cause where
  | arithmetic
  | nullPointer
  | unknown
deriving DecidableEq

structure Memory where
  vars : String → Datum
  fields : Nat → String → Datum

abbrev World := Traced Memory String

abbrev Act := Action World Cause

def Datum.ofLiteral : Literal → Datum
  | .bool value => bool value
  | .int value => int value
  | .char value => int value.toNat
  | .str text => str text
  | .null => null

def traits : Traits Datum where
  truth value := value == .bool true
  isNull value := value == .null
  isInteger
    | .int _ => true
    | _ => false
  isZero value := value == .int 0

def apply : PrefixOp → Datum → Datum
  | .not, .bool value => .bool !value
  | .minus, .int value => .int (-value)
  | .complement, .int value => .int (-value - 1)
  | _, value => value

/-- Quotients and remainders are those of a division that is rounded towards zero. -/
def calculate : InfixOp → Datum → Datum → Datum
  | .times, .int x, .int y => .int (x * y)
  | .divide, .int x, .int y => .int (x.tdiv y)
  | .remainder, .int x, .int y => .int (x.tmod y)
  | .plus, .int x, .int y => .int (x + y)
  | .plus, .str x, .str y => .str (x ++ y)
  | .minus, .int x, .int y => .int (x - y)
  | .less, .int x, .int y => .bool (decide (x < y))
  | .greater, .int x, .int y => .bool (decide (x > y))
  | .lessEquals, .int x, .int y => .bool (decide (x ≤ y))
  | .greaterEquals, .int x, .int y => .bool (decide (x ≥ y))
  | .equals, x, y => .bool (decide (x = y))
  | .notEquals, x, y => .bool (decide (x ≠ y))
  | .bitAnd, .bool x, .bool y => .bool (x && y)
  | .bitXor, .bool x, .bool y => .bool (x ^^ y)
  | .bitOr, .bool x, .bool y => .bool (x || y)
  | .conditionalAnd, _, y | .conditionalOr, _, y => y
  | _, x, _ => x

def combine (op : InfixOp) (x y : Datum) : Act Datum :=
  if traits.isZeroDivision op x y then throw .arithmetic else return calculate op x y

def lookup (label : String) : Datum → Act Datum
  | .null => throw .nullPointer
  | .object number => do return (← getThe World).state.fields number label
  | _ => return .null

structure Meaning where
  value : Act Datum
  text : String

def step (head : Head) (_ : Option TypeDesc) (subs : List Meaning) : Meaning where
  text :=
    match head with
    | .name text _ => text
    | _ => ""
  value :=
    match head, subs with
    | .literal value, _ => return .ofLiteral value
    | .name text _, _ => do return (← getThe World).state.vars text
    | .qualified, [qualifier, simple] => qualifier.value >>= lookup simple.text
    | .field label, [target] => target.value >>= lookup label
    | .paren, [inner] => inner.value
    | .prefixed op, [operand] => do
        if op.hasSideEffect then throw .unknown else return apply op (← operand.value)
    | .chain op, first :: rest => do
        .foldFrom (traits.isSettled op) (combine op) (← first.value) (rest.map Meaning.value)
    | .chain _, [] => return .null
    | _, _ => throw .unknown

def meaning : Term → Meaning :=
  Term.fold step

theorem meaning_node (head : Head) (type : Option TypeDesc) (subs : List Term) :
    meaning (.node head type subs) = step head type (subs.map meaning) :=
  Term.fold_node ..

theorem throws_lookup {label : String} {value : Datum} {world : World}
    (h : traits.isNull value = true) : (lookup label value).Throws world := by
  obtain rfl : value = .null := by simpa [traits] using h
  exact ⟨.nullPointer, rfl⟩

def calculation : Calculation World Datum Cause where
  toTraits := traits
  eval term := (meaning term).value
  reads_literal literal type world := ⟨.ofLiteral literal, by rw [meaning_node]; rfl⟩
  eval_paren type inner := by rw [meaning_node]; rfl
  apply op value := return apply op value
  eval_prefixed op type operand hop := by
    rw [meaning_node]
    show (if op.hasSideEffect then throw Cause.unknown else _) = _
    rw [hop]
    rfl
  reads_apply op value world hop := ⟨apply op value, rfl⟩
  lookup := lookup
  eval_field label type target := by rw [meaning_node]; rfl
  reads_lookup label value world hnull := by
    cases value with
    | null => cases hnull
    | object number => exact ⟨world.state.fields number label, rfl⟩
    | _ => exact ⟨.null, rfl⟩
  throws_lookup label value world := throws_lookup
  throws_qualified type qualifier simple value world hvalue hnull := by
    rw [meaning_node]
    exact Action.Reads.throws_bind hvalue (throws_lookup hnull)
  combine := combine
  reads_combine op x y world hzero := ⟨calculate op x y, by simp only [combine, hzero]; rfl⟩
  throws_combine op x y world hzero := ⟨.arithmetic, by simp only [combine, hzero]; rfl⟩
  reads_empty op type world := ⟨.null, by rw [meaning_node]; rfl⟩
  eval_chain op type first rest := by
    rw [meaning_node]
    show (_ >>= fun start => Action.foldFrom _ _ start ((rest.map meaning).map Meaning.value)) = _
    rw [List.map_map]
    rfl

end Calculator

end CodeTidy
