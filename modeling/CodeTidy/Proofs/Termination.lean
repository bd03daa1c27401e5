import CodeTidy.Proofs.Measure

/-!
# Every commit makes the tree smaller

Each rule lowers one of the three numbers and raises none before it, so the passes over a
tree come to an end.
-/

namespace CodeTidy

variable {strict : Bool} {old a b : Term} {fresh : Option Term}

namespace Term

/-! ## Expressions -/

theorem IsExpr.switches_eq {term : Term} (h : term.IsExpr strict) : term.switches = 0 := by
  induction term with
  | node head type subs ih =>
      have hhead : head ≠ .switchStmt := by
        rintro rfl
        exact absurd h.head (by simp [Head.isExpression, Head.strength?])
      have hsubs : (subs.map switches).sum = 0 := by
        rw [List.sum_eq_zero_iff]
        intro count hcount
        obtain ⟨sub, hsub, rfl⟩ := List.mem_map.mp hcount
        exact ih sub hsub (h.of_mem hsub)
      unfold switches at hsubs ⊢
      rw [total_node, hsubs]
      simp [switchWeight, hhead]

theorem Lowers.of_load {new : Term} (hexchange : Exchange strict old (some new))
    (hold : old.head.isExpression = true) (h : new.load < old.load) :
    Lowers old (some new) := by
  have hnew : new.IsExpr strict := ⟨hexchange.expression hold new rfl, hexchange.sound new rfl⟩
  refine .load ?_ h
  simp [hnew.switches_eq]

theorem load_call (receiver : Term) (method : String) (args : List Term) :
    (receiver.call method args).load = 1 + receiver.load + (args.map load).sum := by
  unfold load call
  rw [total_node, List.map_cons, List.sum_cons, steady_loadWeight.total_wrap, Nat.add_assoc]
  rfl

end Term

theorem StringConversion.Rewrite.lowers (h : StringConversion.Rewrite old fresh)
    (hall : old.all (Term.isSound strict) = true) : Term.Lowers old fresh := by
  have hexchange := h.exchange hall
  cases h with
  | left =>
      refine .of_load hexchange rfl ?_
      rw [Term.load_call]
      simp only [Term.load, Term.total_node, Term.bareName, Term.loadWeight, List.map_cons,
        List.map_nil, List.sum_cons, List.sum_nil]
      omega
  | right =>
      refine .of_load hexchange rfl ?_
      rw [Term.load_call]
      simp only [Term.load, Term.total_node, Term.bareName, Term.loadWeight, List.map_cons,
        List.map_nil, List.sum_cons, List.sum_nil]
      omega

theorem EmptinessTest.Rewrite.lowers (h : EmptinessTest.Rewrite old fresh)
    (hall : old.all (Term.isSound strict) = true) : Term.Lowers old fresh := by
  have hexchange := h.exchange hall
  cases h with
  | @states op type left right receiver verdict outer hreads hpassive =>
      refine .of_load hexchange rfl ?_
      have hchain : (Term.node (.chain op) type [left, right]).load =
          2 + (left.load + right.load) := by
        simp [Term.load, Term.total_node, Term.loadWeight]
      have hreceiver : 1 + receiver.load ≤ left.load + right.load := by
        have hside : ∀ {side : Term} {method : String} {type : Option TypeDesc},
            side.bare = .node (.call true method) type [receiver] →
            1 + receiver.load = side.load := by
          intro side method type hbare
          unfold Term.load
          rw [← Term.steady_loadWeight.total_bare side, hbare]
          simp [Term.total_node, Term.loadWeight]
        rcases hreads with ⟨method, type, value, hbare, -⟩ | ⟨method, type, value, hbare, -⟩
        · have := hside hbare
          omega
        · have := hside hbare
          omega
      have hcall : (receiver.call "isEmpty" []).load = 1 + receiver.load := by
        rw [Term.load_call]
        rfl
      have hnew : ((statement receiver verdict).fit outer).load ≤ 1 + receiver.load := by
        rw [Term.load, Term.steady_loadWeight.total_fit]
        cases verdict with
        | always value => simp [statement, Term.steady_loadWeight.total_boolLit]
        | empty => exact Nat.le_of_eq hcall
        | notEmpty =>
            rw [statement, Term.steady_loadWeight.total_not]
            exact Nat.le_of_eq hcall
      omega

theorem NegationDescent.Rewrite.lowers (h : NegationDescent.Rewrite old fresh)
    (hall : old.all (Term.isSound strict) = true) : Term.Lowers old fresh := by
  have hexchange := h.exchange hall
  cases h with
  | @push type operand outer hcovered =>
      have hnew : (operand.push.fit outer).IsExpr strict :=
        ⟨hexchange.expression rfl _ rfl, hexchange.sound _ rfl⟩
      have hpos := Term.core_pos operand
      have hcore := Term.core_push_le operand
      have hstrain := Term.strain_push_lt hcovered
      refine .strain rfl ?_ ?_ ?_ ?_
      · rw [hnew.switches_eq]
        exact Nat.zero_le _
      · unfold Term.load
        rw [Term.steady_loadWeight.total_fit]
        refine Nat.le_trans (Term.steady_loadWeight.total_push_le operand) ?_
        rw [Term.total_node]
        simp
      · rw [Term.core_fit, Term.core_node]
        simp only [List.map_cons, List.map_nil, List.sum_singleton]
        omega
      · rw [Term.strain_fit, Term.strain_node]
        simp only [List.map_cons, List.map_nil, List.sum_singleton]
        simpa using hstrain

/-! ## Statements -/

theorem Vanished.total_eq {weight : Head → Option TypeDesc → Nat → Nat}
    (hweight : Term.Steady weight) (h : Vanished fresh) :
    (fresh.map (Term.total weight)).getD 0 = 0 := by
  cases h with
  | slot => rfl
  | block => simp [Term.block, Term.total_node, hweight.block]

theorem LocalTable.Rewrite.lowers (h : LocalTable.Rewrite old fresh) : Term.Lowers old fresh := by
  cases h with
  | @creation type args htable =>
      refine .load ?_ ?_
      · simp [Term.switches, Term.total_node, Term.switchWeight]
      · have hmap : mapType.name ≠ tableType := by decide
        simp [Term.load, Term.total_node, Term.loadWeight, htable, hmap]
  | @initializer text binding type made args htable =>
      refine .load ?_ ?_
      · simp [Term.switches, Term.total_node, Term.switchWeight]
      · have hmap : mapType.name ≠ tableType := by decide
        simp [Term.load, Term.total_node, Term.loadWeight, htable, hmap]

namespace Term

theorem Lowers.of_slots {head : Head} {type : Option TypeDesc} {subs : List Term}
    (h : ∀ weight, Steady weight →
      (fresh.map (total weight)).getD 0 ≤ (subs.map (total weight)).sum)
    (hload : 0 < loadWeight head type subs.length) : Lowers (node head type subs) fresh := by
  refine .load ?_ ?_
  · have hslots := h switchWeight steady_switchWeight
    unfold Term.switches
    rw [total_node]
    exact Nat.le_trans hslots (Nat.le_add_left ..)
  · have hslots := h loadWeight steady_loadWeight
    unfold Term.load
    rw [total_node]
    omega

theorem total_le_of_mem (weight : Head → Option TypeDesc → Nat → Nat) {term : Term}
    {terms : List Term} (h : term ∈ terms) :
    total weight term ≤ (terms.map (total weight)).sum :=
  List.le_sum_of_mem (List.mem_map_of_mem h)

theorem load_if (type : Option TypeDesc) (cond thenBranch : Term) :
    (node .ifStmt type [cond, thenBranch]).load = 1 + cond.load + thenBranch.load := by
  simp [load, total_node, loadWeight, Nat.add_assoc]

theorem load_ifElse (type : Option TypeDesc) (cond thenBranch elseBranch : Term) :
    (node .ifStmt type [cond, thenBranch, elseBranch]).load =
      2 + cond.load + thenBranch.load + elseBranch.load := by
  simp [load, total_node, loadWeight, Nat.add_assoc]

theorem loadWeight_ifStmt_pos (type : Option TypeDesc) (slots : Nat) :
    0 < loadWeight .ifStmt type slots := by
  unfold loadWeight
  dsimp only
  split <;> omega

end Term

theorem DeadBranch.Rewrite.lowers (h : DeadBranch.Rewrite old fresh) : Term.Lowers old fresh := by
  have hvanish : ∀ {head : Head} {type : Option TypeDesc} {subs : List Term},
      0 < Term.loadWeight head type subs.length → Vanished fresh →
      Term.Lowers (.node head type subs) fresh := by
    intro head type subs hload hfresh
    refine .of_slots (fun weight hweight => ?_) hload
    rw [hfresh.total_eq hweight]
    exact Nat.zero_le _
  cases h with
  | takeThen hcond =>
      refine .of_slots (fun weight _ => ?_) (Term.loadWeight_ifStmt_pos ..)
      exact Term.total_le_of_mem weight (by simp)
  | takeElse hcond =>
      refine .of_slots (fun weight _ => ?_) (Term.loadWeight_ifStmt_pos ..)
      exact Term.total_le_of_mem weight (by simp)
  | dropIf hcond hfresh => exact hvanish (Term.loadWeight_ifStmt_pos ..) hfresh
  | dropLoop hcond hfresh => exact hvanish Nat.one_pos hfresh
  | dropEmpty hthen helse hcond hfresh => exact hvanish (Term.loadWeight_ifStmt_pos ..) hfresh
  | keepCondition hthen helse hcond =>
      refine .of_slots (fun weight hweight => ?_) (Term.loadWeight_ifStmt_pos ..)
      simp only [Option.map_some, Option.getD_some, Term.exprStmt, Term.total_node,
        hweight.exprStmt, List.map_singleton, List.sum_singleton, Nat.zero_add]
      rw [hweight.total_bare]
      exact Term.total_le_of_mem weight (by simp)
  | dropElse helse =>
      refine .load ?_ ?_
      · simp [Term.switches, Term.total_node, Term.switchWeight]
      · rw [Option.map_some, Option.getD_some, Term.load_if, Term.load_ifElse]
        omega
  | @invert type cond thenBranch elseBranch hthen =>
      have hblock : ∀ {weight : Head → Option TypeDesc → Nat → Nat},
          Term.Steady weight → Term.total weight (asBlock elseBranch) =
            Term.total weight elseBranch := by
        intro weight hweight
        unfold asBlock
        split
        · rfl
        · simp [Term.block, Term.total_node, hweight.block]
      refine .load ?_ ?_
      · have hcond := Term.steady_switchWeight.total_negate_le cond.isInvertible cond
        simp only [Option.map_some, Option.getD_some, Term.switches, Term.ifStmt, Term.total_node,
          List.map_cons, List.map_nil, List.sum_cons, List.sum_nil, Option.toList_none,
          hblock Term.steady_switchWeight]
        simp only [Term.switchWeight, reduceCtorEq, if_false]
        omega
      · have hcond : (cond.negate cond.isInvertible).load ≤ cond.load :=
          Term.steady_loadWeight.total_negate_le cond.isInvertible cond
        have helse : (asBlock elseBranch).load = elseBranch.load := hblock Term.steady_loadWeight
        rw [Option.map_some, Option.getD_some, Term.ifStmt, Option.toList_none, Term.load_if,
          Term.load_ifElse, helse]
        omega

namespace SetUpdate

theorem Tests.load_pos {cond receiver argument : Term} {negated : Bool}
    (h : Tests cond receiver argument negated) : 0 < cond.load := by
  obtain ⟨test, type, hbare, hnegated⟩ := h
  have htest : 0 < test.load := by
    unfold Term.load
    rw [← Term.steady_loadWeight.total_bare test, hbare, Term.total_node]
    exact Nat.add_pos_left Nat.one_pos _
  unfold Term.load at htest ⊢
  rw [← Term.steady_loadWeight.total_bare cond]
  split at hnegated
  · obtain ⟨type', hcond⟩ := hnegated
    rw [hcond, Term.total_node]
    simpa using Nat.add_pos_right _ htest
  · rwa [← hnegated]

theorem total_statements {weight : Head → Option TypeDesc → Nat → Nat}
    (hweight : Term.Steady weight) (branch : Term) :
    (branch.statements.map (Term.total weight)).sum = Term.total weight branch := by
  cases branch with
  | node head type subs =>
      unfold Term.statements
      split
      · next hhead =>
          obtain rfl : head = .block := hhead
          simp [Term.total_node, hweight.block]
      · simp

theorem total_remains {weight : Head → Option TypeDesc → Nat → Nat}
    (hweight : Term.Steady weight) {branch stmt : Term} {rest : List Term}
    (h : branch.statements = stmt :: rest) :
    ((remains branch).map (Term.total weight)).getD 0 + Term.total weight stmt =
      Term.total weight branch := by
  rw [← total_statements hweight branch, h]
  cases branch with
  | node head type subs =>
      unfold Term.statements at h
      unfold remains
      split at h
      · next hhead =>
          rw [if_pos hhead]
          simp only [Term.subs_node] at h
          simp [h, Term.total_node, hweight.block, Nat.add_comm]
      · next hhead =>
          rw [if_neg hhead]
          cases h
          simp

theorem Repeats.load_pos {cond stmt call : Term} {inThen : Bool}
    (h : Repeats cond stmt call inThen) : 0 < cond.load := by
  obtain ⟨_, _, _, _, _, _, _, htests, -⟩ := h
  exact htests.load_pos

theorem Repeats.total_call {weight : Head → Option TypeDesc → Nat → Nat}
    (hweight : Term.Steady weight) {cond stmt call : Term} {inThen : Bool}
    (h : Repeats cond stmt call inThen) : Term.total weight stmt = Term.total weight call := by
  obtain ⟨_, _, _, _, _, type, _, _, _, _, rfl, _⟩ := h
  simp [Term.total_node, hweight.exprStmt]

theorem total_inThen {weight : Head → Option TypeDesc → Nat → Nat}
    (hweight : Term.Steady weight) {cond stmt call branch : Term} {rest : List Term}
    {inThen : Bool} (hrepeats : Repeats cond stmt call inThen)
    (hbranch : branch.statements = stmt :: rest) :
    Term.total weight call + Term.total weight ((remains branch).getD (.block [])) =
      Term.total weight branch := by
  rw [← total_remains hweight hbranch, hrepeats.total_call hweight, Nat.add_comm]
  cases remains branch with
  | some left => rfl
  | none => simp [Term.block, Term.total_node, hweight.block]

theorem total_inElse {weight : Head → Option TypeDesc → Nat → Nat}
    (hweight : Term.Steady weight) {cond stmt call branch : Term} {rest : List Term}
    {inThen : Bool} (hrepeats : Repeats cond stmt call inThen)
    (hbranch : branch.statements = stmt :: rest) :
    Term.total weight call.not + ((remains branch).toList.map (Term.total weight)).sum =
      Term.total weight branch := by
  rw [← total_remains hweight hbranch, hrepeats.total_call hweight, hweight.total_not,
    Nat.add_comm]
  cases remains branch with
  | some left => simp
  | none => simp

theorem Rewrite.lowers (h : Rewrite old fresh) : Term.Lowers old fresh := by
  cases h with
  | @onlyThen type cond thenBranch stmt call elseBranch hrepeats hthen helse =>
      refine .of_slots (fun weight hweight => ?_) (Term.loadWeight_ifStmt_pos ..)
      refine Nat.le_trans ?_ (@Term.total_le_of_mem weight thenBranch _ (by simp))
      rw [← total_statements hweight thenBranch, hthen]
      simp
  | @onlyElse type cond thenBranch elseBranch stmt call hrepeats hthen helse =>
      refine .of_slots (fun weight hweight => ?_) (Term.loadWeight_ifStmt_pos ..)
      refine Nat.le_trans ?_ (@Term.total_le_of_mem weight elseBranch _ (by simp))
      rw [← total_statements hweight elseBranch, helse]
      simp
  | @inThen type cond thenBranch stmt call rest elseBranch hrepeats hthen =>
      refine .load ?_ ?_
      · have hsum := total_inThen Term.steady_switchWeight hrepeats hthen
        simp only [Option.map_some, Option.getD_some, Term.switches, Term.total_node,
          List.map_cons, List.sum_cons, Term.switchWeight, reduceCtorEq, if_false]
        omega
      · have hsum := total_inThen Term.steady_loadWeight hrepeats hthen
        have hpos : 0 < Term.total Term.loadWeight cond := hrepeats.load_pos
        simp only [Option.map_some, Option.getD_some, Term.load, Term.total_node,
          List.map_cons, List.sum_cons, List.length_cons]
        omega
  | @inElse type cond thenBranch elseBranch stmt call rest hrepeats helse =>
      refine .load ?_ ?_
      · have hsum := total_inElse Term.steady_switchWeight hrepeats helse
        simp only [Option.map_some, Option.getD_some, Term.switches, Term.total_node,
          List.map_cons, List.map_nil, List.sum_cons, List.sum_nil, Term.switchWeight,
          reduceCtorEq, if_false]
        omega
      · have hsum := total_inElse Term.steady_loadWeight hrepeats helse
        have hpos : 0 < Term.total Term.loadWeight cond := hrepeats.load_pos
        have hslots : Term.loadWeight .ifStmt type
            (call.not :: thenBranch :: (remains elseBranch).toList).length ≤ 2 := by
          unfold Term.loadWeight
          dsimp only
          split <;> omega
        rw [Option.map_some, Option.getD_some, Term.load_ifElse]
        simp only [Term.load, Term.total_node, List.map_cons, List.sum_cons]
        omega

end SetUpdate

namespace TwoWaySwitch

variable {subject : Term} {group : Group Term} {rest : Option Term}

/-- Tests are expressions, so only the statements of a group can hold switches. -/
theorem switches_statementTerm_le
    (h : ∀ stmt, stmt ∈ statementTerm subject group rest → stmt.IsStmt strict) :
    ((statementTerm subject group rest).map Term.switches).getD 0 ≤
      (group.stmts.map Term.switches).sum + (rest.map Term.switches).getD 0 := by
  have hblock : (Term.block group.stmts).switches = (group.stmts.map Term.switches).sum := by
    simp [Term.switches, Term.block, Term.total_node, Term.switchWeight]
  have hif : (Term.ifStmt (groupTerm subject group.labels) (.block group.stmts) rest).IsStmt
        strict →
      (Term.ifStmt (groupTerm subject group.labels) (.block group.stmts) rest).switches =
        (group.stmts.map Term.switches).sum + (rest.map Term.switches).getD 0 := by
    intro hstmt
    have htest := (Term.parts_of_ifStmt hstmt.sound).1.switches_eq
    unfold Term.switches at hblock htest ⊢
    rw [Term.ifStmt, Term.total_node, List.map_cons, List.map_cons, List.sum_cons, List.sum_cons,
      htest, hblock]
    cases rest <;> simp [Term.switchWeight]
  cases hnew : statementTerm subject group rest with
  | none => exact Nat.zero_le _
  | some new =>
      have hstmt := h new hnew
      rcases statementTerm_cases hnew with ⟨-, rfl⟩ | ⟨-, rfl⟩
      · exact Nat.le_trans (Nat.le_of_eq hblock) (Nat.le_add_right ..)
      · exact Nat.le_of_eq (hif hstmt)

theorem isStmt_of_rest
    (h : ∀ stmt, stmt ∈ statementTerm subject group rest → stmt.IsStmt strict) {stmt : Term}
    (hstmt : stmt ∈ rest) : stmt.IsStmt strict := by
  cases hstmt
  exact (Term.parts_of_ifStmt (h _ rfl).sound).2 stmt (by simp)

theorem switches_conditionalTerm_le {groups : List (Group Term)}
    (h : ∀ stmt, stmt ∈ conditionalTerm subject groups → stmt.IsStmt strict) :
    ((conditionalTerm subject groups).map Term.switches).getD 0 ≤
      (groups.map (fun group => (group.stmts.map Term.switches).sum)).sum := by
  induction groups with
  | nil => exact Nat.zero_le _
  | cons group groups ih =>
      have hstep := switches_statementTerm_le h
      have hrest := ih fun stmt hstmt => isStmt_of_rest h hstmt
      rw [List.map_cons, List.sum_cons]
      exact Nat.le_trans hstep (Nat.add_le_add_left hrest _)

theorem sum_inOrder (f : Group Term → Nat) (first second : Group Term) :
    ((inOrder first second).map f).sum = f first + f second := by
  unfold inOrder
  split <;> simp [Nat.add_comm]

theorem switches_close_le (group : Group Term) :
    (group.close.stmts.map Term.switches).sum ≤ (group.body.map Term.switches).sum := by
  have hstmts : (group.close.stmts.map Term.switches).sum ≤
      (group.stmts.map Term.switches).sum := by
    unfold Group.close Group.trim
    dsimp only
    split
    · exact ((List.dropLast_sublist group.stmts).map Term.switches).sum_le_sum (by simp)
    · exact Nat.le_refl _
  rw [Group.body, List.map_append, List.sum_append]
  omega

theorem switches_switchStmt (type : Option TypeDesc) (subject : Term) (body : List Term) :
    (Term.node .switchStmt type (subject :: body)).switches =
      1 + subject.switches + (body.map Term.switches).sum := by
  simp [Term.switches, Term.total_node, Term.switchWeight, Nat.add_assoc]

theorem Rewrite.lowers (h : Rewrite old fresh)
    (hall : old.all (Term.isSound strict) = true) : Term.Lowers old fresh := by
  have hexchange := h.exchange hall
  have hbecomes : ∀ {result : Option Term}, Becomes result fresh →
      old.head.isStatement = true →
      (∀ stmt, stmt ∈ result → stmt.IsStmt strict) ∧
        (fresh.map Term.switches).getD 0 = (result.map Term.switches).getD 0 := by
    intro result hresult hold
    cases result with
    | none =>
        refine ⟨by simp, hresult.total_eq Term.steady_switchWeight⟩
    | some stmt =>
        cases hresult
        exact ⟨fun new hnew => ⟨hexchange.statement hold new hnew, hexchange.sound new hnew⟩, rfl⟩
  refine .switches ?_
  cases h with
  | @one type subject group fresh hpassive hsplit hclosed hfresh =>
      obtain ⟨hstmt, hsame⟩ := hbecomes hfresh rfl
      have hcount := switches_conditionalTerm_le hstmt
      have hclose := switches_close_le group
      rw [hsame, switches_switchStmt]
      simp only [List.map_cons, List.map_nil, List.sum_singleton] at hcount
      omega
  | @two type subject first second fresh hpassive hsplit hsplit' hclosed hclosed' hjump hapart
      hfresh =>
      obtain ⟨hstmt, hsame⟩ := hbecomes hfresh rfl
      have hcount := switches_conditionalTerm_le hstmt
      have hclose := switches_close_le first
      have hclose' := switches_close_le second
      rw [sum_inOrder] at hcount
      rw [hsame, switches_switchStmt, List.map_append, List.sum_append]
      omega

end TwoWaySwitch

/-! ## Commits -/

namespace Term

theorem Rewritten.lowers (h : Rewritten old fresh) (hall : old.all isOrderly = true) :
    Lowers old fresh := by
  rw [← all_isSound_false] at hall
  cases h with
  | switch h => exact h.lowers hall
  | negation h => exact h.lowers hall
  | emptiness h => exact h.lowers hall
  | set h => exact h.lowers
  | string h => exact h.lowers hall
  | table h => exact h.lowers
  | dead h => exact h.lowers

theorem rank_le (hswitches : b.switches ≤ a.switches) (hload : b.load ≤ a.load)
    (hstrain : b.strain ≤ a.strain) : b.rank ≤ a.rank := by
  rcases Nat.lt_or_eq_of_le hstrain with hlt | heq
  · exact (rank_lt_of_strain hswitches hload hlt).le
  · rcases Nat.lt_or_eq_of_le hload with hlt | heq'
    · exact (rank_lt_of_load hswitches hlt).le
    · rcases Nat.lt_or_eq_of_le hswitches with hlt | heq''
      · exact (rank_lt_of_switches hlt).le
      · unfold rank
        rw [heq, heq', heq'']

theorem rank_retouch (h : LocalTable.Retouch a b) : b.rank ≤ a.rank := by
  obtain ⟨old, fresh, hretype, hswap⟩ := h
  have hsame : ∃ new, fresh = some new ∧ new.switches = old.switches ∧ new.load = old.load ∧
      new.core = old.core ∧ new.strain = old.strain := by
    cases hretype with
    | name => exact ⟨_, rfl, rfl, rfl, rfl, rfl⟩
    | synonym => exact ⟨_, rfl, rfl, rfl, rfl, rfl⟩
  obtain ⟨new, rfl, hswitches, hload, hcore, hstrain⟩ := hsame
  have hswitches' : b.switches + old.switches ≤ a.switches + new.switches :=
    hswap.total_le switchWeight_le
  have hload' : b.load + old.load ≤ a.load + new.load := hswap.total_le loadWeight_le
  have hstrain' := hswap.strain_le (Nat.le_of_eq hcore)
  exact rank_le (by omega) (by omega) (by omega)

/-- Every commit makes the tree smaller. -/
theorem Commit.rank_lt (h : Commit a b) (hall : a.all isOrderly = true) : b.rank < a.rank := by
  obtain ⟨middle, htouches, old, fresh, hrewrite, hswap⟩ := h
  have hmiddle : middle.all isOrderly = true ∧ middle.rank ≤ a.rank := by
    clear hswap
    induction htouches with
    | refl => exact ⟨hall, le_refl _⟩
    | tail _ hlast ih =>
        refine ⟨?_, (rank_retouch hlast).trans ih.2⟩
        obtain ⟨name, retyped, hretype, htouch⟩ := hlast
        rw [← all_isSound_false] at ih ⊢
        exact hretype.exchange.swap htouch ih.1
  exact ((hrewrite.lowers (hswap.all_old hmiddle.1)).rank_lt hswap).trans_le hmiddle.2

end Term

/-! ## Runs -/

variable {options : Options} {rules : List (Rule Unit)} {base final : Store} {tree later : Tree}
  {log : List Applied} {schedule : Schedule Unit}

theorem Trail.rank_lt {root : NodeId} {stores : List Store} (hrules : Selected rules)
    (h : Trail options rules root base log stores final) (hbase : base.Holds tree)
    (hid : tree.id = root) (horder : tree.Orderly) :
    (log = [] ∧ final = base) ∨ (final.term root).rank < tree.term.rank := by
  induction h generalizing tree with
  | nil => exact .inl ⟨rfl, rfl⟩
  | cons first rest ih =>
      rw [← hid] at first
      obtain ⟨later, hholds, hlaterId, hcommitted⟩ := first.exists_later hrules hbase horder
      have hlower : later.term.rank < tree.term.rank := hcommitted.rank_lt horder.2
      rcases ih hholds (hlaterId.trans hid) (hcommitted.orderly horder) with ⟨-, rfl⟩ | hrest
      · right
        rwa [← hid, ← hlaterId, hholds.term_eq]
      · exact .inr (hrest.trans hlower)

theorem Progress.rank_lt (hrules : Selected rules) (hbase : base.Holds tree)
    (horder : tree.Orderly) (h : Progress options rules base tree log final later)
    (hne : log ≠ []) : later.term.rank < tree.term.rank := by
  obtain ⟨stores, htrail⟩ := h.trail
  rcases htrail.rank_lt hrules hbase rfl horder with ⟨hnil, -⟩ | hlower
  · exact absurd hnil hne
  · rwa [← h.root, h.holds.term_eq] at hlower

/-- Enough passes over a tree end with one that commits nothing. -/
theorem runs_runPasses_converged (hrules : Selected schedule.rules)
    (hgoing : schedule.cancelled = false) (done : Report) (hbase : base.Holds tree)
    (horder : tree.Orderly) :
    ∃ enough, ∀ remaining, enough ≤ remaining → ∃ report final,
      Runs (schedule.runPasses tree.id remaining done) base report final ∧
      report.status = .converged := by
  generalize hrank : tree.term.rank = rank
  induction rank using WellFoundedLT.induction generalizing base tree done with
  | ind rank ih =>
      subst hrank
      obtain ⟨log, middle, between, hpass, hvisit⟩ :=
        runs_runPass (done.passes + 1) hrules hbase horder
      by_cases hquiet : log = []
      · refine ⟨1, fun remaining hremaining => ?_⟩
        obtain ⟨fewer, rfl⟩ := Nat.exists_eq_add_of_le' hremaining
        refine ⟨⟨.converged, done.passes + 1, done.changes + log.length, done.log ++ log⟩, middle,
          ?_, rfl⟩
        unfold Schedule.runPasses
        rw [hgoing]
        refine hpass.bind ?_
        rw [if_pos (Tally.changes_ofLog_eq_zero.mpr hquiet)]
        exact runs_pure _ _
      · have hlower := hvisit.toProgress.rank_lt hrules hbase horder hquiet
        obtain ⟨enough, hrest⟩ := ih _ hlower
          ⟨.converged, done.passes + 1, done.changes + log.length, done.log ++ log⟩
          hvisit.holds hvisit.order rfl
        refine ⟨enough + 1, fun remaining hremaining => ?_⟩
        obtain ⟨fewer, rfl⟩ := Nat.exists_eq_add_of_le' hremaining
        obtain ⟨report, final, hrun, hstatus⟩ := hrest (fewer + enough) (Nat.le_add_left ..)
        rw [hvisit.root] at hrun
        refine ⟨report, final, ?_, hstatus⟩
        rw [← Nat.add_assoc]
        unfold Schedule.runPasses
        rw [hgoing]
        refine hpass.bind ?_
        rw [if_neg (mt Tally.changes_ofLog_eq_zero.mp hquiet)]
        exact hrun

/-- The passes do not depend on the limit, only their number does. -/
theorem Schedule.runPasses_maxPasses (schedule : Schedule Unit) (maxPasses : Nat) (root : NodeId)
    (remaining : Nat) (done : Report) :
    Schedule.runPasses { schedule with maxPasses := maxPasses } root remaining done =
      schedule.runPasses root remaining done := by
  induction remaining generalizing done with
  | zero => rfl
  | succ remaining ih =>
      unfold runPasses
      simp only [ih]
      rfl

def Engine.withMaxPasses (engine : Engine) (maxPasses : Nat) : Engine :=
  { engine with settings := { engine.settings with maxPasses := maxPasses } }

/-- The catalog terminates: a measure that cannot fall forever falls with every commit, so
a run that may make enough passes converges. -/
theorem Engine.catalog_terminates (engine : Engine) (source : Source)
    (hrules : ∀ rule, rule ∈ engine.rules → rule ∈ Registry.rules)
    (h : source.WellFormed) :
    WellFounded (fun a b : Term => a.rank < b.rank) ∧
    (∀ options applied after,
      source.store.Commits options Registry.rules source.root applied after →
      (after.term source.root).rank < (source.store.term source.root).rank) ∧
    ∃ enough, ∀ maxPasses, enough ≤ maxPasses → ∃ report after,
      (engine.withMaxPasses maxPasses).run source false = .ok (report, after) ∧
      report.status = .converged := by
  obtain ⟨tree, hholds, hid, horder, hterm⟩ := h.toProper.exists_tree
  refine ⟨InvImage.wf Term.rank wellFounded_lt, ?_, ?_⟩
  · intro options applied after hcommits
    rw [← hid] at hcommits ⊢
    obtain ⟨later, hlater, hlaterId, hcommitted⟩ :=
      hcommits.exists_later (fun _ hrule => hrule) hholds horder
    have hlower : later.term.rank < tree.term.rank := hcommitted.rank_lt horder.2
    rwa [hholds.term_eq, ← hlaterId, hlater.term_eq]
  · obtain ⟨enough, hconverged⟩ := @runs_runPasses_converged _ _ (engine.schedule false) hrules rfl
      ⟨.converged, 0, 0, []⟩ hholds horder
    refine ⟨enough, fun maxPasses hmax => ?_⟩
    obtain ⟨report, final, hrun, hstatus⟩ := hconverged maxPasses hmax
    rw [hid, ← Schedule.runPasses_maxPasses _ maxPasses] at hrun
    exact ⟨report, ⟨final, source.root⟩, @run_eq _ _ (engine.withMaxPasses maxPasses) _ _ _ hrun,
      hstatus⟩

/-- Some number of passes settles the sample. -/
theorem Engine.catalog_terminates_sample :
    ∃ enough, ∀ maxPasses, enough ≤ maxPasses → ∃ report after,
      (Engine.complete.withMaxPasses maxPasses).run Source.sample false = .ok (report, after) ∧
      report.status = .converged :=
  (catalog_terminates complete .sample (fun _ hrule => hrule) Source.sample_wellFormed).2.2

end CodeTidy
