import CodeTidy.Proofs.Evaluation
import CodeTidy.Proofs.Matching

/-!
# What expressions denote

An interpretation makes the meaning of an expression from the meanings of its parts.  Nothing is
fixed about it but what `Store.alike` relies on: parentheses and types play no part, a name is
known by its binding, passive expressions only look, and a comparison may be turned round with
its operands.  Then expressions that are alike do the same from every world
(`Interpretation.outcome_eq_of_alike`).
-/

namespace CodeTidy

/-! ## Looking -/

namespace Action

variable {World Thrown α β γ : Type} {fault : World → Thrown}

/-- The action only looks at the world: it gives a value, or it fails in the one way in which
looking fails there. -/
def Inspects (fault : World → Thrown) (action : Action World Thrown α) : Prop :=
  ∀ world, (∃ value, action.Reads world value) ∨
    action.outcome world = some (.error (fault world), world)

theorem inspects_pure (value : α) : Inspects fault (pure value : Action World Thrown α) :=
  fun _ => .inl ⟨value, rfl⟩

theorem Inspects.bind {action : Action World Thrown α} {next : α → Action World Thrown β}
    (h : Inspects fault action) (hnext : ∀ value, Inspects fault (next value)) :
    Inspects fault (action >>= next) := by
  intro world
  rcases h world with ⟨value, hvalue⟩ | hfault
  · unfold Reads
    rw [hvalue.outcome_bind]
    exact hnext value world
  · exact .inr (outcome_bind_error hfault)

theorem Inspects.comm {first : Action World Thrown α} {second : Action World Thrown β}
    (h : Inspects fault first) (h' : Inspects fault second)
    (next : α → β → Action World Thrown γ) :
    (do let x ← first; let y ← second; next x y) =
      (do let y ← second; let x ← first; next x y) := by
  funext world
  show Action.outcome _ world = Action.outcome _ world
  rcases h world with ⟨x, hx⟩ | hfault <;> rcases h' world with ⟨y, hy⟩ | hfault'
  · rw [hx.outcome_bind, hy.outcome_bind, hy.outcome_bind, hx.outcome_bind]
  · rw [hx.outcome_bind, outcome_bind_error hfault', outcome_bind_error hfault']
  · rw [outcome_bind_error hfault, hy.outcome_bind, outcome_bind_error hfault]
  · rw [outcome_bind_error hfault, outcome_bind_error hfault']

end Action

/-! ## Meanings -/

/-- What expressions denote.  A meaning can be evaluated; what else it is, such as a place to
assign to, is left open. -/
structure Interpretation (World Val Thrown : Type) where
  Meaning : Type
  /-- The meaning of an expression, given its head, its type and the meanings of its slots. -/
  compose : Head → Option TypeDesc → List Meaning → Meaning
  run : Meaning → Action World Thrown Val
  /-- The meaning of an expression that is a computation and nothing else. -/
  computed : Action World Thrown Val → Meaning
  run_computed : ∀ action, run (computed action) = action
  compose_paren : ∀ type inner, compose .paren type [inner] = inner
  /-- Only a creation depends on its type, which is its class. -/
  compose_type : ∀ head type type' parts, head ≠ .creation →
    compose head type parts = compose head type' parts
  /-- A resolved name stands for what it is bound to. -/
  compose_name : ∀ text text' binding type parts,
    compose (.name text (some binding)) type parts = compose (.name text' (some binding)) type parts
  compare : InfixOp → Val → Val → Action World Thrown Val
  compare_swapped : ∀ op x y, op.isComparison = true →
    compare op.swapped y x = compare op x y
  compose_comparison : ∀ op type left right, op.isComparison = true →
    compose (.chain op) type [left, right] = computed (do
      let x ← run left
      let y ← run right
      compare op x y)
  /-- What is thrown where a look at the world fails. -/
  fault : World → Thrown
  inspects_passive : ∀ term : Term, term.isPassive = true →
    (run (term.fold compose)).Inspects fault

namespace Interpretation

variable {World Val Thrown : Type} (interpretation : Interpretation World Val Thrown)

def meaning (term : Term) : interpretation.Meaning :=
  term.fold interpretation.compose

def eval (term : Term) : Action World Thrown Val :=
  interpretation.run (interpretation.meaning term)

theorem meaning_node (head : Head) (type : Option TypeDesc) (subs : List Term) :
    interpretation.meaning (.node head type subs) =
      interpretation.compose head type (subs.map interpretation.meaning) :=
  Term.fold_node ..

theorem meaning_bare (term : Term) :
    interpretation.meaning term.bare = interpretation.meaning term := by
  induction term with
  | node head type subs ih =>
      unfold Term.bare
      split
      · next type' inner heq =>
          cases heq
          rw [ih inner (List.mem_singleton_self inner), meaning_node, List.map_singleton,
            interpretation.compose_paren]
      · rfl

theorem eval_bare (term : Term) : interpretation.eval term.bare = interpretation.eval term := by
  unfold eval
  rw [interpretation.meaning_bare]

theorem inspects_eval {term : Term} (h : term.isPassive = true) :
    (interpretation.eval term).Inspects interpretation.fault :=
  interpretation.inspects_passive term h

/-- Heads of which a comparison sees the same make the same meaning of the same parts. -/
theorem compose_of_sense? {head head' sense : Head} {count count' : Nat}
    (h : head.sense? count = some sense) (h' : head'.sense? count' = some sense)
    (type type' : Option TypeDesc) (parts : List interpretation.Meaning) :
    interpretation.compose head type parts = interpretation.compose head' type' parts := by
  rcases Head.eq_or_names h h' with rfl | ⟨text, text', binding, rfl, rfl⟩
  · refine interpretation.compose_type head type type' parts ?_
    rintro rfl
    cases h
  · rw [interpretation.compose_type _ type type' parts (by simp)]
    exact interpretation.compose_name text text' binding type' parts

/-- A comparison of passive operands means what the comparison that is turned round means. -/
theorem meaning_swapped {op : InfixOp} {x y z w : Term} (type type' : Option TypeDesc)
    (hop : op.isComparison = true) (hx : x.isPassive = true) (hy : y.isPassive = true)
    (hfirst : interpretation.meaning x = interpretation.meaning w)
    (hsecond : interpretation.meaning y = interpretation.meaning z) :
    interpretation.meaning (.node (.chain op) type [x, y]) =
      interpretation.meaning (.node (.chain op.swapped) type' [z, w]) := by
  have hcomm := (interpretation.inspects_eval hx).comm (interpretation.inspects_eval hy)
    (interpretation.compare op)
  simp only [meaning_node, List.map_cons, List.map_nil]
  rw [interpretation.compose_comparison op type _ _ hop,
    interpretation.compose_comparison op.swapped type' _ _ (op.isComparison_swapped.trans hop),
    ← hfirst, ← hsecond]
  simp only [interpretation.compare_swapped op _ _ hop]
  exact congrArg interpretation.computed hcomm

/-- Having the same meaning passes from the parts of expressions to the expressions. -/
theorem congruent_meaning :
    Term.Congruent (fun a b => interpretation.meaning a = interpretation.meaning b) where
  same := by
    intro a b h
    rw [← interpretation.meaning_bare a, ← interpretation.meaning_bare b, h]
  agree := by
    intro a b h
    rw [← interpretation.meaning_bare a, ← interpretation.meaning_bare b]
    cases ha : a.bare with
    | node head type xs =>
        cases hb : b.bare with
        | node head' type' ys =>
            rw [ha, hb] at h
            simp only [Term.head_node, Term.subs_node] at h
            cases h with
            | parts hsense hsense' hslots =>
                have hparts : xs.map interpretation.meaning = ys.map interpretation.meaning := by
                  rw [← List.forall₂_eq_eq_eq, List.forall₂_map_left_iff,
                    List.forall₂_map_right_iff]
                  exact hslots
                rw [meaning_node, meaning_node, hparts]
                exact interpretation.compose_of_sense? hsense hsense' type type' _
            | swapped hop hall hfirst hsecond =>
                simp only [List.all_cons, List.all_nil, Bool.and_true, Bool.and_eq_true] at hall
                exact interpretation.meaning_swapped type type' hop hall.1 hall.2.1 hfirst hsecond

theorem meaning_eq_of_alike {a b : Term} (h : a.Alike b) :
    interpretation.meaning a = interpretation.meaning b :=
  h _ interpretation.congruent_meaning

variable {State Effect : Type}

/-- Nodes of a valid tree that are alike come to the same result, the same state and the same
effects, from every state. -/
theorem outcome_eq_of_alike {store : Store} {root a b : NodeId}
    (interpretation : Interpretation (Traced State Effect) Val Thrown) (hroot : store.ValidAt root)
    (ha : a ∈ store.preorder root) (hb : b ∈ store.preorder root)
    (halike : store.alike a b = true) (world : Traced State Effect) :
    (interpretation.eval (store.term a)).outcome world =
      (interpretation.eval (store.term b)).outcome world := by
  have hsame : interpretation.meaning (store.term a) = interpretation.meaning (store.term b) :=
    (hroot.isBounded.of_mem_preorder ha).of_alike interpretation.congruent_meaning
      (hroot.isBounded.of_mem_preorder hb) halike
  unfold eval
  rw [hsame]

end Interpretation

/-! ## A machine with sets -/

namespace SetMachine

inductive Datum where
  | bool (value : Bool)
  | int (value : Int)
  | set (number : Nat)
  | null
deriving DecidableEq

structure Memory where
  vars : BindingId → Datum
  sets : Nat → List Datum

abbrev World := Traced Memory (String × List Datum)

abbrev Act := Action World Unit

structure Meaning where
  value : Act Datum
  place : Option BindingId

def computed (value : Act Datum) : Meaning := ⟨value, none⟩

def stored (binding : BindingId) : Meaning where
  value := do return (← getThe World).state.vars binding
  place := some binding

def write (binding : BindingId) (value : Datum) : Act Unit :=
  modifyThe World (fun world => { world with
    state := { world.state with vars := Function.update world.state.vars binding value } })

def record (name : String) (values : List Datum) : Act Unit :=
  modifyThe World (fun world => { world with effects := world.effects ++ [(name, values)] })

def refill (number : Nat) (items : List Datum) : Act Unit :=
  modifyThe World (fun world => { world with
    state := { world.state with sets := Function.update world.state.sets number items } })

def truth : Datum → Act Bool
  | .bool value => return value
  | _ => throw ()

def add : Datum → Datum → Act Datum
  | .int x, .int y => return .int (x + y)
  | _, _ => throw ()

def sum : List Meaning → Act Datum
  | [] => return .int 0
  | part :: rest => do
      let first ← part.value
      let later ← sum rest
      add first later

def compare : InfixOp → Datum → Datum → Act Datum
  | .equals, x, y => return .bool (decide (x = y))
  | .notEquals, x, y => return .bool (decide (x ≠ y))
  | .less, .int x, .int y => return .bool (decide (x < y))
  | .greater, .int x, .int y => return .bool (decide (x > y))
  | .lessEquals, .int x, .int y => return .bool (decide (x ≤ y))
  | .greaterEquals, .int x, .int y => return .bool (decide (x ≥ y))
  | _, _, _ => throw ()

def insertInto (number : Nat) (item : Datum) : Act Datum := do
  let items := (← getThe World).state.sets number
  if items.contains item then
    return .bool false
  else
    refill number (item :: items)
    return .bool true

def eraseFrom (number : Nat) (item : Datum) : Act Datum := do
  let items := (← getThe World).state.sets number
  if items.contains item then
    refill number (items.filter (fun other => other != item))
    return .bool true
  else
    return .bool false

/-- Sets are all that has methods. -/
def invoke (method : String) (target item : Datum) : Act Datum :=
  match target, method with
  | .set number, "contains" => do
      return .bool (((← getThe World).state.sets number).contains item)
  | .set number, "add" => insertInto number item
  | .set number, "remove" => eraseFrom number item
  | _, _ => throw ()

/-- Names are variables, all operators but comparisons and `!` add up, and calls without a
receiver are recorded. -/
def compose (head : Head) (_ : Option TypeDesc) (parts : List Meaning) : Meaning :=
  match head, parts with
  | .paren, [inner] => inner
  | .literal (.int value), _ => computed (return .int value)
  | .literal (.bool value), _ => computed (return .bool value)
  | .name _ (some binding), _ => stored binding
  | .qualified, [_, ⟨_, some binding⟩] => stored binding
  | .prefixed .not, [operand] => computed (do return .bool !(← truth (← operand.value)))
  | .prefixed .increment, [⟨value, some binding⟩] => computed (do
      let next ← add (← value) (.int 1)
      write binding next
      return next)
  | .prefixed _, _ | .field _, _ => computed (sum parts)
  | .chain op, [left, right] =>
      if op.isComparison then
        computed (do compare op (← left.value) (← right.value))
      else
        computed (sum [left, right])
  | .chain _, _ => computed (sum parts)
  | .assign _, [⟨_, some binding⟩, value] => computed (do
      let result ← value.value
      write binding result
      return result)
  | .call true method, [receiver, argument] => computed (do
      let target ← receiver.value
      let item ← argument.value
      invoke method target item)
  | .call _ name, _ => computed (do
      record name (← parts.mapM Meaning.value)
      return .null)
  | _, _ => computed (return .null)

theorem inspects_throw {α : Type} : Action.Inspects (fun _ : World => ()) (throw () : Act α) :=
  fun _ => .inr rfl

theorem inspects_add (x y : Datum) : Action.Inspects (fun _ => ()) (add x y) := by
  unfold add
  split
  · exact Action.inspects_pure _
  · exact inspects_throw

theorem inspects_compare (op : InfixOp) (x y : Datum) :
    Action.Inspects (fun _ => ()) (compare op x y) := by
  unfold compare
  split <;> first | exact Action.inspects_pure _ | exact inspects_throw

theorem inspects_sum {parts : List Meaning}
    (h : ∀ part, part ∈ parts → part.value.Inspects (fun _ => ())) :
    Action.Inspects (fun _ => ()) (sum parts) := by
  induction parts with
  | nil => exact Action.inspects_pure _
  | cons part rest ih =>
      refine (h part (List.mem_cons_self ..)).bind (fun first => ?_)
      refine (ih (fun other hother => h other (List.mem_cons_of_mem _ hother))).bind ?_
      exact fun later => inspects_add first later

theorem inspects_not {operand : Meaning} (h : operand.value.Inspects (fun _ => ())) :
    Action.Inspects (fun _ => ()) (do return Datum.bool !(← truth (← operand.value))) := by
  refine h.bind (fun value => Action.Inspects.bind ?_ (fun _ => Action.inspects_pure _))
  unfold truth
  split
  · exact Action.inspects_pure _
  · exact inspects_throw

theorem inspects_passive (term : Term) (h : term.isPassive = true) :
    (term.fold compose).value.Inspects (fun _ => ()) := by
  induction term with
  | node head type subs ih =>
      rw [Term.isPassive_node] at h
      rw [Term.fold_node]
      have hparts : subs.all Term.isPassive = true →
          ∀ part, part ∈ subs.map (Term.fold compose) →
            part.value.Inspects (fun _ => ()) := by
        intro hall part hpart
        obtain ⟨sub, hsub, rfl⟩ := List.mem_map.mp hpart
        exact ih sub hsub (List.all_eq_true.mp hall sub hsub)
      generalize subs.map (Term.fold compose) = parts at hparts
      cases head with
      | literal value => cases value <;> exact Action.inspects_pure _
      | name text binding =>
          cases binding with
          | none => exact Action.inspects_pure _
          | some binding => exact fun world => .inl ⟨world.state.vars binding, rfl⟩
      | qualified =>
          rcases parts with _ | ⟨qualifier, _ | ⟨⟨value, _ | binding⟩, _ | _⟩⟩
          case cons.cons.some.nil =>
            exact fun world => .inl ⟨world.state.vars binding, rfl⟩
          all_goals exact Action.inspects_pure _
      | field label => exact inspects_sum (hparts h)
      | paren =>
          rcases parts with _ | ⟨inner, _ | _⟩
          · exact Action.inspects_pure _
          · exact hparts h inner (List.mem_singleton_self inner)
          · exact Action.inspects_pure _
      | prefixed op =>
          rw [Bool.and_eq_true] at h
          cases op
          case not =>
            rcases parts with _ | ⟨operand, _ | _⟩
            · exact inspects_sum (hparts h.2)
            · exact inspects_not (hparts h.2 operand (List.mem_singleton_self operand))
            · exact inspects_sum (hparts h.2)
          case increment => cases h.1
          all_goals exact inspects_sum (hparts h.2)
      | chain op =>
          have hall := hparts h
          rcases parts with _ | ⟨left, _ | ⟨right, _ | _⟩⟩
          · exact inspects_sum hall
          · exact inspects_sum hall
          · unfold compose
            dsimp only
            split
            · refine (hall left (by simp)).bind (fun x => (hall right (by simp)).bind ?_)
              exact fun y => inspects_compare op x y
            · exact inspects_sum hall
          · exact inspects_sum hall
      | _ => cases h

def interpretation : Interpretation World Datum Unit where
  Meaning := Meaning
  compose := compose
  run := Meaning.value
  computed := computed
  run_computed _ := rfl
  compose_paren _ _ := rfl
  compose_type _ _ _ _ _ := rfl
  compose_name _ _ _ _ _ := rfl
  compare := compare
  compare_swapped op x y hop := by
    cases op <;> cases hop
    case equals =>
      have hcomm : decide (y = x) = decide (x = y) := decide_eq_decide.mpr eq_comm
      show (return .bool (decide (y = x)) : Act Datum) = return .bool (decide (x = y))
      rw [hcomm]
    case notEquals =>
      have hcomm : decide (y ≠ x) = decide (x ≠ y) := decide_eq_decide.mpr ne_comm
      show (return .bool (decide (y ≠ x)) : Act Datum) = return .bool (decide (x ≠ y))
      rw [hcomm]
    all_goals cases x <;> cases y <;> rfl
  compose_comparison op type left right hop := by
    unfold compose
    simp only [hop, if_true]
  fault _ := ()
  inspects_passive := inspects_passive

end SetMachine

namespace Interpretation

/-- The unit `log((x + 1 < y)); log(y > (z + 1));`, where `x` and `z` name one variable. -/
def repeatedLogging : Store where
  nodes := #[
    ⟨.name "x" (some 0), none, some 2, false⟩,
    ⟨.literal (.int 1), none, some 2, false⟩,
    ⟨.chain .plus [0, 1], none, some 4, false⟩,
    ⟨.name "y" (some 1), none, some 4, false⟩,
    ⟨.chain .less [2, 3], none, some 5, false⟩,
    ⟨.paren 4, none, some 6, false⟩,
    ⟨.call none "log" [5], none, some 7, false⟩,
    ⟨.exprStmt 6, none, some 16, false⟩,
    ⟨.name "y" (some 1), none, some 13, false⟩,
    ⟨.name "z" (some 0), none, some 11, false⟩,
    ⟨.literal (.int 1), none, some 11, false⟩,
    ⟨.chain .plus [9, 10], none, some 12, false⟩,
    ⟨.paren 11, none, some 13, false⟩,
    ⟨.chain .greater [8, 12], none, some 14, false⟩,
    ⟨.call none "log" [13], none, some 15, false⟩,
    ⟨.exprStmt 14, none, some 16, false⟩,
    ⟨.unit [7, 15], none, none, false⟩]

/-- The two calls log the same, whatever the variables are. -/
theorem outcome_eq_of_alike_logging :
    repeatedLogging.alike 6 14 = true ∧
      (SetMachine.interpretation.eval (repeatedLogging.term 6)).outcome
          ⟨⟨fun _ => .int 3, fun _ => []⟩, []⟩ =
        some (.ok .null, ⟨⟨fun _ => .int 3, fun _ => []⟩, [("log", [.bool false])]⟩) ∧
      ∀ world, (SetMachine.interpretation.eval (repeatedLogging.term 6)).outcome world =
        (SetMachine.interpretation.eval (repeatedLogging.term 14)).outcome world := by
  have halike : repeatedLogging.alike 6 14 = true := by decide +kernel
  have hvalid : repeatedLogging.ValidAt 16 := by decide +kernel
  exact ⟨halike, rfl, outcome_eq_of_alike SetMachine.interpretation hvalid (by decide +kernel)
    (by decide +kernel) halike⟩

end Interpretation

end CodeTidy
