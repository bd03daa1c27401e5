import CodeTidy.Proofs.Evaluation
import CodeTidy.Proofs.Run

/-!
# Negations that are pushed down

`Logic` is an evaluation in which the boolean operators mean what the language says: `&&` and
`||` stop early, `&` and `|` never do, and an ordering has an opposite only where no operand can
be unordered.  The negation of a term is evaluated step by step as the term is
(`Logic.test_push`), so the rule may put it in the place of a `!`.
-/

namespace CodeTidy

/-! ## Boolean expressions -/

/-- The type of an operand is known, and it has no value like `NaN`. -/
def IsOrdered (type : Option TypeDesc) : Prop :=
  ∃ desc, type = some desc ∧
    desc.name ∉ ["float", "double", "java.lang.Float", "java.lang.Double"]

/-- An evaluation of boolean expressions.  All else is arbitrary, and so is the comparison of
operands that may be unordered. -/
structure Logic (World Val Thrown : Type) extends Evaluation World Val Thrown where
  /-- How a comparison turns out, given the recorded types and the values of its operands. -/
  relation : InfixOp → Option TypeDesc → Option TypeDesc → Val → Val → Bool
  test_literal : ∀ value type subs,
    test (.node (.literal (.bool value)) type subs) = return value
  test_not : ∀ type operand,
    test (.node (.prefixed .not) type [operand]) = (test operand).negated
  test_and : ∀ type operands,
    test (.node (.chain .conditionalAnd) type operands) = .untilStop false (operands.map test)
  /-- Where a boolean is wanted, the operands of `&` are boolean. -/
  test_bitAnd : ∀ type operands,
    test (.node (.chain .bitAnd) type operands) = .inFull false (operands.map test)
  test_bitOr : ∀ type operands,
    test (.node (.chain .bitOr) type operands) = .inFull true (operands.map test)
  test_comparison : ∀ op type left right, op.isComparison = true →
    test (.node (.chain op) type [left, right]) = (do
      let first ← value left
      let second ← value right
      return relation op left.type right.type first second)
  relation_notEquals : ∀ left right x y,
    relation .notEquals left right x y = !relation .equals left right x y
  relation_greaterEquals : ∀ left right, IsOrdered left → IsOrdered right → ∀ x y,
    relation .greaterEquals left right x y = !relation .less left right x y
  relation_lessEquals : ∀ left right, IsOrdered left → IsOrdered right → ∀ x y,
    relation .lessEquals left right x y = !relation .greater left right x y

theorem Term.isOrdered_of {term : Term} (h : term.isTotallyOrdered = true) :
    IsOrdered term.type := by
  unfold Term.isTotallyOrdered at h
  cases htype : term.type with
  | none => simp [htype] at h
  | some desc =>
      refine ⟨desc, rfl, ?_⟩
      simpa [htype, TypeDesc.isOneOf, Store.floatingTypes] using h

/-- The operands of an ordering that may be inverted cannot be unordered. -/
theorem Term.isOrdered_operands {term left right : Term} {op : InfixOp} {type : Option TypeDesc}
    (hbare : term.bare = .node (.chain op) type [left, right]) (h : term.isInvertible = true)
    (hordering : op.isOrdering = true) : IsOrdered left.type ∧ IsOrdered right.type := by
  simp only [Term.isInvertible, hbare, hordering, Bool.not_true, Bool.false_or, List.all_cons,
    List.all_nil, Bool.and_true, Bool.and_eq_true] at h
  exact ⟨Term.isOrdered_of h.2.1, Term.isOrdered_of h.2.2⟩

namespace Logic

variable {World Val Thrown : Type} (logic : Logic World Val Thrown)

/-- A comparison that may be inverted has its inverse as its opposite. -/
theorem relation_inverse {op inverse : InfixOp} {left right : Option TypeDesc}
    (hop : op.inverse? = some inverse)
    (hordered : op.isOrdering = true → IsOrdered left ∧ IsOrdered right) (x y : Val) :
    logic.relation inverse left right x y = !logic.relation op left right x y := by
  cases op <;> cases hop
  case less =>
    obtain ⟨hleft, hright⟩ := hordered rfl
    exact logic.relation_greaterEquals left right hleft hright x y
  case greater =>
    obtain ⟨hleft, hright⟩ := hordered rfl
    exact logic.relation_lessEquals left right hleft hright x y
  case lessEquals =>
    obtain ⟨hleft, hright⟩ := hordered rfl
    rw [logic.relation_lessEquals left right hleft hright, Bool.not_not]
  case greaterEquals =>
    obtain ⟨hleft, hright⟩ := hordered rfl
    rw [logic.relation_greaterEquals left right hleft hright, Bool.not_not]
  case equals => exact logic.relation_notEquals left right x y
  case notEquals => rw [logic.relation_notEquals, Bool.not_not]

theorem test_inverse {op inverse : InfixOp} {left right : Term} (type type' : Option TypeDesc)
    (hop : op.inverse? = some inverse)
    (hordered : op.isOrdering = true → IsOrdered left.type ∧ IsOrdered right.type) :
    logic.test (.node (.chain inverse) type [left, right]) =
      (logic.test (.node (.chain op) type' [left, right])).negated := by
  have hcomparison : op.isComparison = true := by
    rw [← op.inverse?_isSome, hop, Option.isSome_some]
  have hinverse : inverse.isComparison = true := by
    cases op <;> cases hop <;> rfl
  rw [logic.test_comparison _ _ _ _ hinverse, logic.test_comparison _ _ _ _ hcomparison]
  simp only [Action.negated, bind_assoc, pure_bind, logic.relation_inverse hop hordered]

theorem test_wrapped_not (term : Term) : logic.test term.not = (logic.test term).negated := by
  rw [Term.not, logic.test_not, logic.test_wrap]

/-- The negation of a condition evaluates as the condition does, with the opposite result. -/
theorem test_negate (term : Term) :
    logic.test (term.negate term.isInvertible) = (logic.test term).negated := by
  unfold Term.negate
  split
  · next type operand hbare =>
      rw [← logic.test_bare term, hbare, logic.test_not, Action.negated_negated]
  · next value type subs hbare =>
      rw [← logic.test_bare term, hbare, Term.boolLit, logic.test_literal, logic.test_literal]
      exact (pure_bind ..).symm
  · next op type left right hbare =>
      split
      · next inverse hop =>
          rw [← logic.test_bare term, hbare, Term.chain]
          split at hop
          · next hyes => exact logic.test_inverse _ type hop (Term.isOrdered_operands hbare hyes)
          · cases hop
      · exact logic.test_wrapped_not term
  · exact logic.test_wrapped_not term

/-! ## Chains -/

theorem test_join {op : InfixOp} (hop : op.dual?.isSome = true) (type : Option TypeDesc)
    (operands : List Term) :
    logic.test (.join op operands) = logic.test (.node (.chain op) type operands) := by
  unfold Term.join
  split
  · next operand =>
      cases op <;> cases hop
      · rw [logic.test_bitAnd, List.map_singleton, Action.inFull_singleton]
      · rw [logic.test_bitOr, List.map_singleton, Action.inFull_singleton]
      · rw [logic.test_and, List.map_singleton, Action.untilStop_singleton]
      · rw [logic.test_or, List.map_singleton, Action.untilStop_singleton]
  · rw [Term.chain]
    cases op <;> cases hop
    · rw [logic.test_bitAnd, logic.test_bitAnd, logic.map_test_wrap]
    · rw [logic.test_bitOr, logic.test_bitOr, logic.map_test_wrap]
    · rw [logic.test_and, logic.test_and, logic.map_test_wrap]
    · rw [logic.test_or, logic.test_or, logic.map_test_wrap]

/-- The dual of a chain, with negated operands, is its negation. -/
theorem test_dual {op dual : InfixOp} (hop : op.dual? = some dual) (type type' : Option TypeDesc)
    {operands negations : List Term}
    (hsame : negations.map logic.test = (operands.map logic.test).map Action.negated) :
    logic.test (.node (.chain dual) type negations) =
      (logic.test (.node (.chain op) type' operands)).negated := by
  cases op <;> cases hop
  · rw [logic.test_bitOr, logic.test_bitAnd, hsame]
    exact Action.inFull_negated false _
  · rw [logic.test_bitOr, logic.test_bitAnd, hsame]
    exact Action.inFull_negated true _
  · rw [logic.test_or, logic.test_and, hsame]
    exact Action.untilStop_negated false _
  · rw [logic.test_or, logic.test_and, hsame]
    exact Action.untilStop_negated true _

/-- The negation with every `!` pushed down evaluates the same operands, in the same order and
as far as before, and gives the opposite result. -/
theorem test_push (term : Term) : logic.test term.push = (logic.test term).negated := by
  induction term with
  | node head type subs ih =>
      unfold Term.push
      split
      · next type' inner heq =>
          cases heq
          rw [logic.test_paren]
          exact ih inner (List.mem_singleton_self inner)
      · next op type' subs' heq =>
          cases heq
          split
          · next dual hop =>
              have hdual : dual.dual?.isSome = true := by
                cases op <;> cases hop <;> rfl
              rw [Term.pushList_eq_map, Term.paren, logic.test_paren, logic.test_join hdual none]
              refine logic.test_dual hop none type ?_
              rw [List.map_map, List.map_map]
              exact List.map_congr_left ih
          · exact logic.test_negate _
      · exact logic.test_negate _

end Logic

/-! ## Numbers that cannot be compared -/

namespace Sample

abbrev Number := Option Int

abbrev Memory := Traced (String → Number) String

abbrev Act := Action Memory Unit

structure Meaning where
  value : Act Number
  test : Act Bool
  type : Option TypeDesc

def isOrdered (type : Option TypeDesc) : Bool :=
  type.any (fun desc =>
    !(["float", "double", "java.lang.Float", "java.lang.Double"].contains desc.name))

def holds (op : InfixOp) (x y : Int) : Bool :=
  match op with
  | .less => decide (x < y)
  | .greater => decide (x > y)
  | .lessEquals => decide (x ≤ y)
  | .greaterEquals => decide (x ≥ y)
  | .equals => decide (x = y)
  | _ => decide (x ≠ y)

/-- Every comparison with a number that cannot be compared fails, except `!=`. -/
def relation (op : InfixOp) (left right : Option TypeDesc) (x y : Number) : Bool :=
  match isOrdered left && isOrdered right, x, y with
  | true, x, y => holds op (x.getD 0) (y.getD 0)
  | false, some x, some y => holds op x y
  | false, _, _ => op == .notEquals

def record (name : String) : Act Unit :=
  modifyThe Memory (fun world =>
    { world with effects := world.effects ++ [name] })

def step (head : Head) (type : Option TypeDesc) (subs : List Meaning) : Meaning where
  value :=
    match head, subs with
    | .paren, [inner] => inner.value
    | .literal (.int value), _ => return some value
    | .name text _, _ => do return (← getThe Memory).state text
    | _, _ => return none
  test :=
    match head, subs with
    | .paren, [inner] => inner.test
    | .literal (.bool value), _ => return value
    | .prefixed .not, [operand] => operand.test.negated
    | .chain .conditionalAnd, _ => .untilStop false (subs.map Meaning.test)
    | .chain .conditionalOr, _ => .untilStop true (subs.map Meaning.test)
    | .chain .bitAnd, _ => .inFull false (subs.map Meaning.test)
    | .chain .bitOr, _ => .inFull true (subs.map Meaning.test)
    | .chain op, [left, right] => do
        let first ← left.value
        let second ← right.value
        return relation op left.type right.type first second
    | .call _ name, _ => do
        record name
        return true
    | _, _ => return false
  type := type

def meaning : Term → Meaning :=
  Term.fold step

theorem meaning_node (head : Head) (type : Option TypeDesc) (subs : List Term) :
    meaning (.node head type subs) = step head type (subs.map meaning) :=
  Term.fold_node ..

theorem type_meaning (term : Term) : (meaning term).type = term.type := by
  cases term
  rw [meaning_node]
  rfl

theorem isOrdered_of {type : Option TypeDesc} (h : IsOrdered type) : isOrdered type = true := by
  obtain ⟨desc, rfl, hname⟩ := h
  simpa [isOrdered] using hname

theorem relation_of_ordered {left right : Option TypeDesc} (hleft : IsOrdered left)
    (hright : IsOrdered right) (op : InfixOp) (x y : Number) :
    relation op left right x y = holds op (x.getD 0) (y.getD 0) := by
  simp [relation, isOrdered_of hleft, isOrdered_of hright]

theorem map_test (subs : List Term) :
    (subs.map meaning).map Meaning.test = subs.map (fun term => (meaning term).test) := by
  rw [List.map_map]
  rfl

/-- Names are variables, calls are recorded, and nothing is thrown. -/
def logic : Logic Memory Number Unit where
  value term := (meaning term).value
  test term := (meaning term).test
  relation := relation
  test_paren type inner := by rw [meaning_node]; rfl
  test_or type operands := by rw [meaning_node, ← map_test]; rfl
  test_literal value type subs := by rw [meaning_node]; rfl
  test_not type operand := by rw [meaning_node]; rfl
  test_and type operands := by rw [meaning_node, ← map_test]; rfl
  test_bitAnd type operands := by rw [meaning_node, ← map_test]; rfl
  test_bitOr type operands := by rw [meaning_node, ← map_test]; rfl
  test_comparison op type left right hop := by
    rw [meaning_node, ← type_meaning left, ← type_meaning right]
    cases op <;> cases hop <;> rfl
  relation_notEquals left right x y := by
    unfold relation
    split <;> simp [holds]
  relation_greaterEquals left right hleft hright x y := by
    simp only [relation_of_ordered hleft hright, holds]
    grind
  relation_lessEquals left right hleft hright x y := by
    simp only [relation_of_ordered hleft hright, holds]
    grind

end Sample

/-! ## The rule -/

namespace NegationDescent

variable {State Effect Val Thrown : Type}

/-- What the rule puts in the place of a `!` in a well-formed unit can be committed, and from
every state it comes to the same result, the same state and the same effects as the `!`. -/
theorem pushed_negation_is_exact {source : Source} {options : Options} {node operand : NodeId}
    {response : Response} {drafted : Store} (hsource : source.Proper)
    (hnode : node ∈ source.store.preorder source.root)
    (hkind : source.store.kind node = .prefixed .not operand)
    (hrun : respond options node source.store = .ok (response, drafted))
    (hedits : response.edits ≠ []) :
    ∃ child final, response.edits = [⟨node, .replace child⟩] ∧
      Build.commit response.edits drafted = .ok ((), final) ∧
      child.node ∈ final.preorder source.root ∧
      ∀ (logic : Logic (Traced State Effect) Val Thrown) (world : Traced State Effect),
        (logic.test (final.term child.node)).outcome world =
          (logic.test (source.store.term node)).outcome world := by
  obtain ⟨tree, hbase, hid, horder, -⟩ := hsource.exists_tree
  have hself := Tree.Legible.of_holds hbase tree.mem_subtrees_self
  rw [← hid, hself.preorder_eq] at hnode
  obtain ⟨old, hold, rfl⟩ := Tree.mem_ids_iff.mp hnode
  have hne : old ≠ tree := by
    rintro rfl
    have hhead := hself.kind_head
    rw [hkind, horder.1] at hhead
    cases hhead
  have hlegible := Tree.Legible.of_holds hbase hold
  rcases @responds _ _ _ options hbase hold hne
      (fun below hbelow op hchain => horder.operands_ne_nil hbelow hchain) with hdecline |
    ⟨operand', type, outer, region, child, drafted', new, hterm, -, hedit, hchild, hdraft, hregion,
      hnew, -⟩
  · rw [hdecline] at hrun
    cases hrun
    exact absurd rfl hedits
  · rw [hedit] at hrun
    cases hrun
    obtain ⟨final, hcommit, hholds, -⟩ := hdraft.commit_replace hbase hold hne hregion hchild
    have hin : new ∈ (tree.put old.id (some new)).subtrees :=
      Tree.new_mem_subtrees_put hbase.nodup hold hne
    have hlater := Tree.Legible.of_holds hholds hin
    refine ⟨child, final, rfl, hcommit, ?_, ?_⟩
    · rw [hchild, ← hid, ← Tree.id_put old.id (some new) tree,
        hholds.preorder_eq (Tree.mem_subtrees_self _)]
      exact Tree.mem_ids_iff.mpr ⟨new, hin, rfl⟩
    · intro logic world
      rw [hchild, hlater.term_eq, hnew, hlegible.term_eq, hterm, logic.test_fit, logic.test_push,
        logic.test_not]

/-- The unit `if (!(ready() && x < y && n < m)) {}`, where only `n` and `m` are integers. -/
def unorderedGuard : Source where
  store :=
    { nodes := #[
        ⟨.call none "ready" [], none, some 7, false⟩,
        ⟨.name "x" none, some 0, some 3, false⟩,
        ⟨.name "y" none, some 0, some 3, false⟩,
        ⟨.chain .less [1, 2], none, some 7, false⟩,
        ⟨.name "n" none, some 1, some 6, false⟩,
        ⟨.name "m" none, some 1, some 6, false⟩,
        ⟨.chain .less [4, 5], none, some 7, false⟩,
        ⟨.chain .conditionalAnd [0, 3, 6], none, some 8, false⟩,
        ⟨.paren 7, none, some 9, false⟩,
        ⟨.prefixed .not 8, none, some 11, false⟩,
        ⟨.block [], none, some 11, false⟩,
        ⟨.ifStmt 9 10 none, none, some 12, false⟩,
        ⟨.unit [11], none, none, false⟩]
      types := ⟨#[.primitive "double", .int]⟩ }
  root := 12

/-- Only the comparison of the integers is inverted.  With an `x` that cannot be compared, the
negation is true after one call, before and after. -/
theorem pushed_negation_is_exact_unordered :
    ∃ response drafted child final, respond {} 9 unorderedGuard.store = .ok (response, drafted) ∧
      response.edits = [⟨9, .replace child⟩] ∧
      Build.commit response.edits drafted = .ok ((), final) ∧
      (Sample.logic.test (unorderedGuard.store.term 9)).outcome ⟨fun _ => none, []⟩ =
        some (.ok true, ⟨fun _ => none, ["ready"]⟩) ∧
      ∀ world, (Sample.logic.test (final.term child.node)).outcome world =
        (Sample.logic.test (unorderedGuard.store.term 9)).outcome world := by
  obtain ⟨response, drafted, hrun, hedits⟩ :=
    @Build.exists_outcome unorderedGuard.store _ (respond {} 9)
      (fun outcome => !outcome.1.edits.isEmpty) (by decide +kernel)
  obtain ⟨child, final, hedit, hcommit, -, hsame⟩ :=
    @pushed_negation_is_exact (String → Sample.Number) String Sample.Number Unit unorderedGuard
      {} 9 8 response drafted (by decide +kernel) (by decide +kernel) (by decide +kernel) hrun
      (by simpa using hedits)
  exact ⟨response, drafted, child, final, hrun, hedit, hcommit, rfl, hsame Sample.logic⟩

end NegationDescent

end CodeTidy
