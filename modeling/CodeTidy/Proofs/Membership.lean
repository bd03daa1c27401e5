import CodeTidy.Proofs.Interpretation
import CodeTidy.Proofs.Execution

/-!
# Updates that tell whether they were needed

A `SetExecution` knows sets: `contains` asks whether a set holds an item, `add` and `remove` tell
whether they changed the set.  Blocks, conditionals and expression statements are fixed, all
other statements are arbitrary.  A conditional that tests membership before an update does the
same as the update whose answer is tested (`SetUpdate.Rewrite.exec_eq`), so the rule may
exchange them.
-/

namespace CodeTidy

/-! ## Statements that evaluate an expression -/

namespace Conduct

variable {World Val Thrown α : Type}

def evaluating (action : Action World Thrown α) : Conduct World Val Thrown :=
  fun world =>
    match action.outcome world with
    | none => none
    | some (.error cause, later) => some (.thrown cause, later)
    | some (.ok _, later) => some (.normal, later)

theorem andThen_normal (conduct : Conduct World Val Thrown) :
    conduct.andThen (ending .normal) = conduct := by
  funext world
  unfold andThen
  cases conduct world with
  | none => rfl
  | some found =>
      obtain ⟨completion, later⟩ := found
      cases completion <;> rfl

theorem branch_negated (test : Action World Thrown Bool)
    (thenBranch elseBranch : Conduct World Val Thrown) :
    branch test.negated thenBranch elseBranch = branch test elseBranch thenBranch := by
  funext world
  unfold branch Action.negated
  rw [Action.outcome_bind]
  rcases test.outcome world with _ | ⟨_ | flag, later⟩
  · rfl
  · rfl
  · cases flag <;> rfl

end Conduct

/-! ## Sets -/

structure SetExecution (World Val Thrown : Type) extends Interpretation World Val Thrown where
  ofBool : Bool → Val
  /-- The truth of a value that stands where a boolean is wanted. -/
  truth : Val → Action World Thrown Bool
  truth_ofBool : ∀ flag, truth (ofBool flag) = return flag
  compose_not : ∀ type operand, compose (.prefixed .not) type [operand] =
    computed (do return ofBool !(← truth (← run operand)))
  /-- A method is called on a value, with one argument. -/
  invoke : String → Val → Val → Action World Thrown Val
  compose_call : ∀ method type receiver argument,
    compose (.call true method) type [receiver, argument] = computed (do
      let target ← run receiver
      let item ← run argument
      invoke method target item)
  IsSet : Val → Prop
  IsNull : Val → Prop
  /-- What a call on nothing throws. -/
  nullCall : World → Thrown
  invoke_null : ∀ method target item world, IsNull target →
    (invoke method target item).outcome world = some (.error (nullCall world), world)
  /-- Whether a set holds an item. -/
  holds : World → Val → Val → Bool
  /-- The world after an item that a set lacks is put into it. -/
  inserted : World → Val → Val → World
  /-- The world after an item that a set holds is taken out of it. -/
  removed : World → Val → Val → World
  invoke_contains : ∀ target item world, IsSet target →
    (invoke "contains" target item).outcome world =
      some (.ok (ofBool (holds world target item)), world)
  invoke_add : ∀ target item world, IsSet target →
    (invoke "add" target item).outcome world =
      if holds world target item then some (.ok (ofBool false), world)
      else some (.ok (ofBool true), inserted world target item)
  invoke_remove : ∀ target item world, IsSet target →
    (invoke "remove" target item).outcome world =
      if holds world target item then some (.ok (ofBool true), removed world target item)
      else some (.ok (ofBool false), world)
  exec : Term → Conduct World Val Thrown
  exec_block : ∀ type stmts, exec (.node .block type stmts) = .sequence (stmts.map exec)
  exec_if : ∀ type cond thenBranch, exec (.node .ifStmt type [cond, thenBranch]) =
    .branch (toInterpretation.eval cond >>= truth) (exec thenBranch) (.ending .normal)
  exec_ifElse : ∀ type cond thenBranch elseBranch,
    exec (.node .ifStmt type [cond, thenBranch, elseBranch]) =
      .branch (toInterpretation.eval cond >>= truth) (exec thenBranch) (exec elseBranch)
  exec_expr : ∀ type expr,
    exec (.node .exprStmt type [expr]) = .evaluating (toInterpretation.eval expr)

namespace SetExecution

open Conduct

variable {World Val Thrown : Type} (execution : SetExecution World Val Thrown)

def test (term : Term) : Action World Thrown Bool :=
  execution.eval term >>= execution.truth

def calling (method : String) (receiver argument : Term) : Action World Thrown Val := do
  let target ← execution.eval receiver
  let item ← execution.eval argument
  execution.invoke method target item

/-- The recorded type of an expression is right: what is typed as a set is one, or is nothing. -/
def IsRightlyTyped (world : World) (term : Term) : Prop :=
  SetUpdate.IsTypedSet term → ∀ value later,
    (execution.eval term).outcome world = some (.ok value, later) →
      execution.IsSet value ∨ execution.IsNull value

open Classical in
def HasRightTypes (world : World) (term : Term) : Prop :=
  term.all (fun below => decide (execution.IsRightlyTyped world below)) = true

theorem HasRightTypes.self {world : World} {term : Term}
    (h : execution.HasRightTypes world term) : execution.IsRightlyTyped world term := by
  simpa using Term.holds_of_all h

theorem eval_call {term receiver argument : Term} {method : String} {type : Option TypeDesc}
    (h : term.bare = .node (.call true method) type [receiver, argument]) :
    execution.eval term = execution.calling method receiver argument := by
  rw [← execution.eval_bare, h, Interpretation.eval, Interpretation.meaning_node]
  exact (congrArg execution.run (execution.compose_call method type _ _)).trans
    (execution.run_computed _)

theorem test_bare (term : Term) : execution.test term.bare = execution.test term := by
  unfold test
  rw [execution.eval_bare]

theorem test_not {term operand : Term} {type : Option TypeDesc}
    (h : term.bare = .node (.prefixed .not) type [operand]) :
    execution.test term = (execution.test operand).negated := by
  have heval : execution.eval term = (do
      return execution.ofBool !(← execution.truth (← execution.eval operand))) := by
    rw [← execution.eval_bare, h, Interpretation.eval, Interpretation.meaning_node]
    exact (congrArg execution.run (execution.compose_not type _)).trans (execution.run_computed _)
  simp only [test, heval, Action.negated, bind_assoc, pure_bind, execution.truth_ofBool]

theorem test_wrapped_not (term : Term) :
    execution.test term.not = (execution.test term).negated := by
  have hbare : term.not.bare = .node (.prefixed .not) (some .boolean) [term.wrap Strength.unary] :=
    Term.bare_of_ne_paren (by simp [Term.not])
  rw [execution.test_not hbare, ← execution.test_bare, Term.bare_wrap, execution.test_bare]

/-! ## Branches -/

theorem exec_statements (branch : Term) :
    execution.exec branch = sequence (branch.statements.map execution.exec) := by
  cases branch with
  | node head type subs =>
      unfold Term.statements
      split
      · next hhead =>
          obtain rfl : head = .block := hhead
          exact execution.exec_block type subs
      · exact (andThen_normal _).symm

def execBranch (branch : Option Term) : Conduct World Val Thrown :=
  branch.elim (ending .normal) execution.exec

theorem exec_ifStmt (type : Option TypeDesc) (cond thenBranch : Term) (elseBranch : Option Term) :
    execution.exec (.node .ifStmt type (cond :: thenBranch :: elseBranch.toList)) =
      branch (execution.test cond) (execution.exec thenBranch)
        (execution.execBranch elseBranch) := by
  cases elseBranch with
  | none => exact execution.exec_if type cond thenBranch
  | some elseBranch => exact execution.exec_ifElse type cond thenBranch elseBranch

theorem execBranch_empty {branch : Option Term} (h : Term.isEmptyBranch branch = true) :
    execution.execBranch branch = ending .normal := by
  cases branch with
  | none => rfl
  | some branch =>
      cases branch with
      | node head type subs =>
          simp only [Term.isEmptyBranch, Option.all_some, Term.head_node, Term.subs_node,
            Bool.and_eq_true, beq_iff_eq, List.isEmpty_iff] at h
          obtain ⟨rfl, rfl⟩ := h
          exact execution.exec_block type []

theorem execBranch_remains {branch stmt : Term} {rest : List Term}
    (h : branch.statements = stmt :: rest) :
    execution.execBranch (SetUpdate.remains branch) = sequence (rest.map execution.exec) := by
  unfold Term.statements at h
  unfold SetUpdate.remains execBranch
  by_cases hhead : branch.head = .block
  · rw [if_pos hhead] at h
    rw [if_pos hhead, h]
    exact execution.exec_block branch.type rest
  · rw [if_neg hhead] at h
    rw [if_neg hhead]
    cases h
    rfl

/-! ## Calls on sets -/

/-- A call on what is typed as a set throws whatever the method is, or it is the call of the
method on a set. -/
theorem calling_cases {receiver argument : Term} (hreceiver : receiver.isPassive = true)
    (hargument : argument.isPassive = true) (hset : SetUpdate.IsTypedSet receiver)
    {world : World} (htyped : execution.IsRightlyTyped world receiver) :
    (∃ cause, ∀ method, (execution.calling method receiver argument).outcome world =
        some (.error cause, world)) ∨
      ∃ target item, execution.IsSet target ∧ ∀ method,
        (execution.calling method receiver argument).outcome world =
          (execution.invoke method target item).outcome world := by
  unfold calling
  rcases execution.inspects_eval hreceiver world with ⟨target, htarget⟩ | hfault
  · rcases execution.inspects_eval hargument world with ⟨item, hitem⟩ | hfault
    · have hcall : ∀ method, (do
          let target ← execution.eval receiver
          let item ← execution.eval argument
          execution.invoke method target item).outcome world =
            (execution.invoke method target item).outcome world := by
        intro method
        rw [htarget.outcome_bind, hitem.outcome_bind]
      rcases htyped hset target world htarget with hyes | hnull
      · exact .inr ⟨target, item, hyes, hcall⟩
      · refine .inl ⟨execution.nullCall world, fun method => ?_⟩
        rw [hcall]
        exact execution.invoke_null method target item world hnull
    · refine .inl ⟨execution.fault world, fun method => ?_⟩
      rw [htarget.outcome_bind]
      exact Action.outcome_bind_error hfault
  · exact .inl ⟨execution.fault world, fun method => Action.outcome_bind_error hfault⟩

/-- A test of membership throws where the call of `contains` does, and else tells whether the
set holds the item. -/
theorem test_membership {cond receiver argument : Term} {negated : Bool}
    (h : SetUpdate.Tests cond receiver argument negated) (world : World) :
    (∀ cause, (execution.calling "contains" receiver argument).outcome world =
        some (.error cause, world) →
      (execution.test cond).outcome world = some (.error cause, world)) ∧
    ∀ held, (execution.calling "contains" receiver argument).outcome world =
        some (.ok (execution.ofBool held), world) →
      (execution.test cond).Reads world (held != negated) := by
  obtain ⟨asked, type, hasked, hcond⟩ := h
  have htest : execution.test asked =
      execution.calling "contains" receiver argument >>= execution.truth := by
    rw [test, execution.eval_call hasked]
  have hfails : ∀ cause, (execution.calling "contains" receiver argument).outcome world =
      some (.error cause, world) →
      (execution.test asked).outcome world = some (.error cause, world) := by
    intro cause hcause
    rw [htest]
    exact Action.outcome_bind_error hcause
  have hreads : ∀ held, (execution.calling "contains" receiver argument).outcome world =
      some (.ok (execution.ofBool held), world) → (execution.test asked).Reads world held := by
    intro held hheld
    unfold Action.Reads
    rw [htest, Action.Reads.outcome_bind hheld, execution.truth_ofBool]
    rfl
  cases negated with
  | false =>
      obtain rfl : asked = cond.bare := hcond
      rw [execution.test_bare] at hfails hreads
      exact ⟨hfails, fun held hheld => by simpa using hreads held hheld⟩
  | true =>
      obtain ⟨type', hnot⟩ := hcond
      rw [execution.test_not hnot]
      refine ⟨fun cause hcause => Action.outcome_bind_error (hfails cause hcause), ?_⟩
      intro held hheld
      unfold Action.Reads
      rw [Action.negated, (hreads held hheld).outcome_bind]
      cases held <;> rfl

end SetExecution

/-! ## The rewriting -/

namespace SetUpdate

open Conduct

variable {World Val Thrown : Type} {execution : SetExecution World Val Thrown}
  {world : World} {cond stmt call : Term} {inThen : Bool}

/-- Where the condition throws, so does the update.  Else the update answers whether its branch
was taken, and changes nothing if it was not. -/
theorem Repeats.answer (h : Repeats cond stmt call inThen)
    (htyped : execution.HasRightTypes world cond) :
    (∃ cause, (execution.test cond).outcome world = some (.error cause, world) ∧
        (execution.eval call).outcome world = some (.error cause, world)) ∨
      ∃ flag later, (execution.test cond).Reads world flag ∧
        (execution.eval call).outcome world =
          some (.ok (execution.ofBool (flag == inThen)), later) ∧
        (flag ≠ inThen → later = world) := by
  obtain ⟨receiver, argument, receiver', argument', negated, type, type', htests, hreceiver,
    hargument, -, hcall, halike, halike', hset⟩ := h
  have hright : execution.IsRightlyTyped world receiver :=
    SetExecution.HasRightTypes.self execution (htests.all htyped).1
  have heval : execution.eval call = execution.calling
      (if inThen = negated then "add" else "remove") receiver argument := by
    rw [execution.eval_call hcall]
    unfold SetExecution.calling Interpretation.eval
    rw [execution.meaning_eq_of_alike halike, execution.meaning_eq_of_alike halike']
  obtain ⟨hfails, hreads⟩ := execution.test_membership htests world
  rcases execution.calling_cases hreceiver hargument hset hright with
    ⟨cause, hcause⟩ | ⟨target, item, hyes, hsame⟩
  · refine .inl ⟨cause, hfails cause (hcause _), ?_⟩
    rw [heval]
    exact hcause _
  · have hheld := hreads (execution.holds world target item)
      ((hsame _).trans (execution.invoke_contains target item world hyes))
    rw [heval, hsame]
    by_cases hside : inThen = negated
    · subst hside
      rw [if_pos rfl, execution.invoke_add target item world hyes]
      cases hholds : execution.holds world target item <;> rw [hholds] at hheld
      · refine .inr ⟨_, execution.inserted world target item, hheld, ?_, ?_⟩
        · cases inThen <;> rfl
        · cases inThen <;> simp
      · refine .inr ⟨_, world, hheld, ?_, fun _ => rfl⟩
        cases inThen <;> rfl
    · obtain rfl : negated = !inThen := by cases inThen <;> cases negated <;> simp_all
      rw [if_neg hside, execution.invoke_remove target item world hyes]
      cases hholds : execution.holds world target item <;> rw [hholds] at hheld
      · refine .inr ⟨_, world, hheld, ?_, fun _ => rfl⟩
        cases inThen <;> rfl
      · refine .inr ⟨_, execution.removed world target item, hheld, ?_, ?_⟩
        · cases inThen <;> rfl
        · cases inThen <;> simp

theorem Repeats.exec_stmt (h : Repeats cond stmt call inThen) :
    execution.exec stmt = evaluating (execution.eval call) := by
  obtain ⟨_, _, _, _, _, type, _, -, -, -, rfl, -⟩ := h
  exact execution.exec_expr type call

/-- What the condition, the update and its answer come to in a world. -/
theorem Repeats.effect (h : Repeats cond stmt call inThen)
    (htyped : execution.HasRightTypes world cond) :
    (∃ cause, (execution.test cond).outcome world = some (.error cause, world) ∧
        (execution.test call).outcome world = some (.error cause, world) ∧
        execution.exec stmt world = some (.thrown cause, world)) ∨
      ∃ flag later, (execution.test cond).Reads world flag ∧
        (execution.test call).outcome world = some (.ok (flag == inThen), later) ∧
        execution.exec stmt world = some (.normal, later) ∧ (flag ≠ inThen → later = world) := by
  rw [h.exec_stmt, evaluating]
  rcases h.answer htyped with ⟨cause, hcond, hcall⟩ | ⟨flag, later, hcond, hcall, hsame⟩
  · refine .inl ⟨cause, hcond, Action.outcome_bind_error hcall, ?_⟩
    rw [hcall]
  · refine .inr ⟨flag, later, hcond, ?_, ?_, hsame⟩
    · rw [SetExecution.test, Action.outcome_bind_ok hcall, execution.truth_ofBool]
      rfl
    · rw [hcall]

/-- Testing and then updating is updating and testing the answer. -/
theorem Repeats.branch_eq (h : Repeats cond stmt call inThen)
    (htyped : execution.HasRightTypes world cond)
    (rest other : Conduct World Val Thrown) :
    branch (execution.test call) rest other world =
      branch (execution.test cond)
        (if inThen then (execution.exec stmt).andThen rest else other)
        (if inThen then other else (execution.exec stmt).andThen rest) world := by
  rcases h.effect htyped with
    ⟨cause, hcond, hcall, -⟩ | ⟨flag, later, hcond, hcall, hstmt, hsame⟩
  · rw [branch_of_error hcall, branch_of_error hcond]
  · have hupdate : (execution.exec stmt).andThen rest world = rest later := by
      unfold andThen
      rw [hstmt]
    rw [branch_of_outcome hcall, branch_of_reads hcond]
    cases inThen <;> cases flag
    · exact hupdate.symm
    · rw [hsame (by simp)]
      rfl
    · rw [hsame (by simp)]
      rfl
    · exact hupdate.symm

/-- An update may be tested, if both answers lead to the same. -/
theorem Repeats.exec_stmt_eq (h : Repeats cond stmt call inThen)
    (htyped : execution.HasRightTypes world cond) :
    execution.exec stmt world =
      branch (execution.test call) (ending .normal) (ending .normal) world := by
  rcases h.effect htyped with ⟨cause, -, hcall, hstmt⟩ | ⟨flag, later, -, hcall, hstmt, -⟩
  · rw [hstmt, branch_of_error hcall]
  · rw [hstmt, branch_of_outcome hcall, ite_self]
    rfl

theorem exists_elseBranch {type : Option TypeDesc} {cond thenBranch : Term} {rest : List Term}
    (h : (Term.node .ifStmt type (cond :: thenBranch :: rest)).hasBranches = true) :
    ∃ elseBranch : Option Term, rest = elseBranch.toList := by
  rcases Term.exists_branches h with ⟨_, _, heq⟩ | ⟨_, _, elseBranch, heq⟩ <;> cases heq
  · exact ⟨none, rfl⟩
  · exact ⟨some elseBranch, rfl⟩

theorem Rewrite.exec_eq {old new : Term} (h : Rewrite old (some new))
    (hbranches : old.hasBranches = true)
    (htyped : execution.HasRightTypes world old) :
    execution.exec new world = execution.exec old world := by
  generalize hresult : some new = result at h
  cases h with
  | @onlyThen type cond thenBranch stmt call elseBranch hrepeats hthen helse =>
      cases hresult
      have hcond : execution.HasRightTypes world cond := Term.all_sub htyped (List.mem_cons_self ..)
      rw [hrepeats.exec_stmt_eq hcond, hrepeats.branch_eq hcond, execution.exec_ifStmt,
        execution.execBranch_empty helse, execution.exec_statements thenBranch, hthen]
      rfl
  | @onlyElse type cond thenBranch elseBranch stmt call hrepeats hthen helse =>
      cases hresult
      have hcond : execution.HasRightTypes world cond := Term.all_sub htyped (List.mem_cons_self ..)
      have hempty : execution.exec thenBranch = ending .normal := execution.execBranch_empty hthen
      rw [hrepeats.exec_stmt_eq hcond, hrepeats.branch_eq hcond, execution.exec_ifElse, hempty,
        execution.exec_statements elseBranch, helse]
      rfl
  | @inThen type cond thenBranch stmt call rest others hrepeats hthen =>
      cases hresult
      obtain ⟨elseBranch, rfl⟩ := exists_elseBranch hbranches
      have hcond : execution.HasRightTypes world cond := Term.all_sub htyped (List.mem_cons_self ..)
      have hremains : execution.exec ((remains thenBranch).getD (.block [])) =
          sequence (rest.map execution.exec) := by
        rw [← execution.execBranch_remains hthen]
        cases remains thenBranch with
        | none => exact execution.exec_block none []
        | some branch => rfl
      rw [execution.exec_ifStmt, execution.exec_ifStmt, hremains, execution.exec_statements
        thenBranch, hthen, hrepeats.branch_eq hcond]
      rfl
  | @inElse type cond thenBranch elseBranch stmt call rest hrepeats helse =>
      cases hresult
      have hcond : execution.HasRightTypes world cond := Term.all_sub htyped (List.mem_cons_self ..)
      rw [execution.exec_ifStmt, execution.exec_ifElse, execution.execBranch_remains helse,
        execution.exec_statements elseBranch, helse, execution.test_wrapped_not, branch_negated,
        hrepeats.branch_eq hcond]
      rfl

/-! ## The rule -/

/-- What the rule does to a conditional can be committed, unless it would have to replace the
root.  Then a rewriting of the conditional stands in its place. -/
theorem exists_rewritten {base drafted : Store} {tree old : Tree} {options : Options}
    {response : Response} (hbase : base.Holds tree) (hold : old ∈ tree.subtrees)
    (hrun : respond options old.id base = .ok (response, drafted)) (hedits : response.edits ≠ [])
    (hroot : ∀ edit, edit ∈ response.edits → edit.target ≠ tree.id) :
    ∃ final later new, Build.commit response.edits drafted = .ok ((), final) ∧
      final.Holds later ∧ later.id = tree.id ∧ new ∈ later.subtrees ∧
      Rewrite old.term (some new.term) ∧
      (new.id = old.id ∨ response.edits = [⟨old.id, .replace (.moved new.id)⟩]) := by
  have hlegible := Tree.Legible.of_holds hbase hold
  have hbegin : respond options old.id base = _ :=
    (Build.bind_ok (Build.run_kindOf hlegible.lt)).trans (Build.bind_ok (Build.run_get base))
  rw [hrun] at hbegin
  cases hplan : plan? base (base.kind old.id) with
  | none =>
      rw [hplan] at hbegin
      cases hbegin
      exact absurd rfl hedits
  | some found =>
      obtain ⟨id, update⟩ := found
      rw [hplan] at hbegin
      obtain ⟨cond, thenBranch, elseBranch, inThen, branch, stmt, call, rest, rfl, hfound⟩ :=
        of_plan? hbase hold hplan
      cases hall : update.isAll with
      | true =>
          obtain ⟨middle, hdraft, hmade⟩ := hfound.edits_all hbase hold hall
          cases hbegin.trans ((Build.bind_ok hmade).trans rfl)
          have hne : old ≠ tree := by
            rintro rfl
            exact hroot _ (List.mem_singleton_self _) rfl
          have hmoved : (Child.moved stmt.id).node = stmt.id := rfl
          obtain ⟨final, hcommit, hholds, -⟩ :=
            hdraft.commit_replace hbase hold hne hfound.stmt_region hmoved
          exact ⟨final, _, stmt, hcommit, hholds, Tree.id_put ..,
            Tree.new_mem_subtrees_put hbase.nodup hold hne, hfound.rewrite_all hall, .inr rfl⟩
      | false =>
          obtain ⟨list, middle, final, new, fresh, hfolded⟩ := hfound.exists_folded hbase hold hall
          cases hbegin.trans ((Build.bind_ok hfolded.run).trans rfl)
          have hrewrite := hfound.rewrite (Tree.nodup_ids_of_mem hbase.nodup hold) hfolded.out
            hfolded.term hfolded.freshTerm
          have hsame : ((old.put cond.id (some new)).put stmt.id fresh).id = old.id := by simp
          by_cases hne : old = tree
          · subst hne
            exact ⟨final, _, _, hfolded.commit, hfolded.holds, hsame, Tree.mem_subtrees_self _,
              hrewrite, .inl hsame⟩
          · have hholds := hfolded.holds
            rw [hfound.put_eq hbase hold hne new fresh] at hholds
            exact ⟨final, _, _, hfolded.commit, hholds, Tree.id_put ..,
              Tree.new_mem_subtrees_put hbase.nodup hold hne, hrewrite, .inl hsame⟩

/-- The edits that the rule records for a conditional of a valid tree can be committed, unless
they would replace the root.  From every world in which the recorded types are right, what then
stands in the place of the conditional ends as the conditional does and leaves the same world. -/
theorem update_executes_as_conditional {World Val Thrown : Type} {store drafted : Store}
    {root node : NodeId} {options : Options} {response : Response} (htypes : store.TypesKnown)
    (hvalid : store.ValidAt root) (hfree : store.parent root = none)
    (hnode : node ∈ store.preorder root)
    (hrun : respond options node store = .ok (response, drafted)) (hedits : response.edits ≠ [])
    (hroot : ∀ edit, edit ∈ response.edits → edit.target ≠ root) :
    ∃ final place, Build.commit response.edits drafted = .ok ((), final) ∧
      place ∈ final.preorder root ∧
      (place = node ∨ response.edits = [⟨node, .replace (.moved place)⟩]) ∧
      ∀ (execution : SetExecution World Val Thrown) (world : World),
        (∀ id, id ∈ store.preorder node →
          execution.IsRightlyTyped world (store.term id)) →
        execution.exec (final.term place) world = execution.exec (store.term node) world := by
  obtain ⟨hidle, tree, rfl, hnodup, hheld⟩ :=
    (Store.violations_eq_nil_iff htypes hvalid.1).mp hvalid.2
  rw [hfree] at hheld
  have hbase : store.Holds tree := ⟨hheld, hnodup, hidle, htypes⟩
  rw [hbase.preorder_eq tree.mem_subtrees_self] at hnode
  obtain ⟨old, hold, rfl⟩ := Tree.mem_ids_iff.mp hnode
  obtain ⟨final, later, new, hcommit, hholds, hid, hnew, hrewrite, hplace⟩ :=
    exists_rewritten hbase hold hrun hedits hroot
  have hlegible := Tree.Legible.of_holds hbase hold
  refine ⟨final, new.id, hcommit, ?_, hplace, ?_⟩
  · rw [← hid, hholds.preorder_eq later.mem_subtrees_self]
    exact Tree.mem_ids_iff.mpr ⟨new, hnew, rfl⟩
  · intro execution world hright
    rw [(Tree.Legible.of_holds hholds hnew).term_eq, hlegible.term_eq]
    refine hrewrite.exec_eq hlegible.hasBranches (Tree.all_iff.mpr ?_)
    intro below hbelow
    have hterm := hright below.id (by
      rw [hlegible.preorder_eq]
      exact Tree.mem_ids_iff.mpr ⟨below, hbelow, rfl⟩)
    rw [(hlegible.of_mem hbelow).term_eq] at hterm
    simpa using hterm

end SetUpdate

/-! ## Statements of the machine with sets -/

namespace SetMachine

open Conduct

structure Doing where
  meaning : Meaning
  conduct : Conduct World Datum Unit

def act (head : Head) (type : Option TypeDesc) (subs : List Doing) : Doing where
  meaning := compose head type (subs.map Doing.meaning)
  conduct :=
    match head, subs with
    | .block, _ => sequence (subs.map Doing.conduct)
    | .ifStmt, [cond, thenBranch] =>
        branch (cond.meaning.value >>= truth) thenBranch.conduct (ending .normal)
    | .ifStmt, [cond, thenBranch, elseBranch] =>
        branch (cond.meaning.value >>= truth) thenBranch.conduct elseBranch.conduct
    | .exprStmt, [expr] => evaluating expr.meaning.value
    | .breakStmt label, _ => ending (.broke label)
    | .returnStmt, _ => ending (.returned none)
    | _, _ => ending .normal

def doing : Term → Doing :=
  Term.fold act

theorem doing_node (head : Head) (type : Option TypeDesc) (subs : List Term) :
    doing (.node head type subs) = act head type (subs.map doing) :=
  Term.fold_node ..

theorem value_doing (term : Term) : (doing term).meaning.value = interpretation.eval term := by
  have hsame : (doing term).meaning = interpretation.meaning term := by
    induction term with
    | node head type subs ih =>
        rw [doing_node, interpretation.meaning_node]
        have hsubs : (subs.map doing).map Doing.meaning = subs.map interpretation.meaning := by
          rw [List.map_map]
          exact List.map_congr_left ih
        exact congrArg (compose head type) hsubs
  exact congrArg Meaning.value hsame

def items (world : World) : Datum → List Datum
  | .set number => world.state.sets number
  | _ => []

def refilled (world : World) (items : List Datum) : Datum → World
  | .set number => { world with
      state := { world.state with sets := Function.update world.state.sets number items } }
  | _ => world

theorem reads_world (world : World) : (getThe World : Act World).Reads world world := rfl

theorem outcome_insertInto (number : Nat) (item : Datum) (world : World) :
    (insertInto number item).outcome world =
      if (world.state.sets number).contains item then some (.ok (.bool false), world)
      else some (.ok (.bool true),
        refilled world (item :: world.state.sets number) (.set number)) := by
  unfold insertInto
  rw [(reads_world world).outcome_bind]
  by_cases hheld : (world.state.sets number).contains item = true
  · rw [if_pos hheld, if_pos hheld]
    rfl
  · rw [if_neg hheld, if_neg hheld]
    rfl

theorem outcome_eraseFrom (number : Nat) (item : Datum) (world : World) :
    (eraseFrom number item).outcome world =
      if (world.state.sets number).contains item then some (.ok (.bool true), refilled world
        ((world.state.sets number).filter (fun other => other != item)) (.set number))
      else some (.ok (.bool false), world) := by
  unfold eraseFrom
  rw [(reads_world world).outcome_bind]
  by_cases hheld : (world.state.sets number).contains item = true
  · rw [if_pos hheld, if_pos hheld]
    rfl
  · rw [if_neg hheld, if_neg hheld]
    rfl

def execution : SetExecution World Datum Unit where
  toInterpretation := interpretation
  ofBool := .bool
  truth := truth
  truth_ofBool _ := rfl
  compose_not _ _ := rfl
  invoke := invoke
  compose_call _ _ _ _ := rfl
  IsSet value := ∃ number, value = .set number
  IsNull value := value = .null
  nullCall _ := ()
  invoke_null method target item world hnull := by
    subst hnull
    rfl
  holds world target item := (items world target).contains item
  inserted world target item := refilled world (item :: items world target) target
  removed world target item :=
    refilled world ((items world target).filter (fun other => other != item)) target
  invoke_contains target item world hset := by
    obtain ⟨number, rfl⟩ := hset
    rfl
  invoke_add target item world hset := by
    obtain ⟨number, rfl⟩ := hset
    exact outcome_insertInto number item world
  invoke_remove target item world hset := by
    obtain ⟨number, rfl⟩ := hset
    exact outcome_eraseFrom number item world
  exec term := (doing term).conduct
  exec_block type stmts := by
    rw [doing_node]
    exact congrArg sequence (List.map_map ..)
  exec_if type cond thenBranch := by
    rw [doing_node, ← value_doing]
    rfl
  exec_ifElse type cond thenBranch elseBranch := by
    rw [doing_node, ← value_doing]
    rfl
  exec_expr type expr := by
    rw [doing_node, ← value_doing]
    rfl

end SetMachine

namespace SetUpdate

/-- The unit `if (set.contains((x))) hit(); else { s.add(x); miss(x); }`, where `set` and `s`
name one set. -/
def aliasedSet : Store where
  nodes := #[
    ⟨.name "set" (some 0), some 0, some 3, false⟩,
    ⟨.name "x" (some 1), none, some 2, false⟩,
    ⟨.paren 1, none, some 3, false⟩,
    ⟨.call (some 0) "contains" [2], none, some 14, false⟩,
    ⟨.call none "hit" [], none, some 5, false⟩,
    ⟨.exprStmt 4, none, some 14, false⟩,
    ⟨.name "s" (some 0), some 0, some 8, false⟩,
    ⟨.name "x" (some 1), none, some 8, false⟩,
    ⟨.call (some 6) "add" [7], none, some 9, false⟩,
    ⟨.exprStmt 8, none, some 13, false⟩,
    ⟨.name "x" (some 1), none, some 11, false⟩,
    ⟨.call none "miss" [10], none, some 12, false⟩,
    ⟨.exprStmt 11, none, some 13, false⟩,
    ⟨.block [9, 12], none, some 14, false⟩,
    ⟨.ifStmt 3 5 (some 13), none, some 15, false⟩,
    ⟨.unit [14], none, none, false⟩]
  types := ⟨#[.reference setType]⟩

/-- The memory in which the name of the set stands for a set with the given items. -/
def withItems (items : List SetMachine.Datum) : SetMachine.World :=
  ⟨⟨fun binding => if binding = 0 then .set 0 else .int 5, fun _ => items⟩, []⟩

/-- The conditional misses an item once, and adds it.  The negated answer of `add` does the
same, whether the set holds the item or not. -/
theorem update_executes_as_conditional_missing :
    ∃ response drafted final, respond {} 14 aliasedSet = .ok (response, drafted) ∧
      Build.commit response.edits drafted = .ok ((), final) ∧
      ((SetMachine.execution.exec (aliasedSet.term 14) (withItems [])).map
        (fun ended => (ended.2.effects, ended.2.state.sets 0))) =
          some ([("miss", [.int 5])], [.int 5]) ∧
      ∀ items, SetMachine.execution.exec (final.term 14) (withItems items) =
        SetMachine.execution.exec (aliasedSet.term 14) (withItems items) := by
  obtain ⟨response, drafted, hrun, htwo⟩ :=
    @Build.exists_outcome aliasedSet _ (respond {} 14)
      (fun outcome => outcome.1.edits.map Edit.target == [3, 9]) (by decide +kernel)
  have htargets : response.edits.map Edit.target = [3, 9] := by simpa using htwo
  have hedits : response.edits ≠ [] := by
    rintro hnil
    rw [hnil] at htargets
    cases htargets
  have hroot : ∀ edit, edit ∈ response.edits → edit.target ≠ 15 := by
    intro edit hedit
    have htarget : edit.target ∈ [3, 9] := htargets ▸ List.mem_map_of_mem hedit
    rintro heq
    rw [heq] at htarget
    simp at htarget
  obtain ⟨final, place, hcommit, -, hplace, hsame⟩ :=
    @update_executes_as_conditional SetMachine.World SetMachine.Datum Unit aliasedSet drafted 15 14
      {} response (by decide +kernel) (by decide +kernel) rfl (by decide +kernel) hrun hedits hroot
  obtain rfl : place = 14 := by
    rcases hplace with heq | hone
    · exact heq
    · rw [hone] at htargets
      cases htargets
  refine ⟨response, drafted, final, hrun, hcommit, rfl, fun items => ?_⟩
  refine hsame SetMachine.execution (withItems items) (fun id hid hset value later hvalue => ?_)
  have htyped : ∀ id, id ∈ aliasedSet.preorder 14 →
      (aliasedSet.term id).type.any (fun type => type.isSubtypeOf setType) = true →
      id ∈ [0, 6] := by decide +kernel
  have heval : ∀ id, id ∈ [0, 6] →
      (SetMachine.execution.eval (aliasedSet.term id)).outcome (withItems items) =
        some (.ok (.set 0), withItems items) := by
    intro id hid
    rcases List.mem_pair.mp hid with rfl | rfl <;> rfl
  rw [heval id (htyped id hid hset)] at hvalue
  cases hvalue
  exact .inl ⟨0, rfl⟩

end SetUpdate

end CodeTidy
