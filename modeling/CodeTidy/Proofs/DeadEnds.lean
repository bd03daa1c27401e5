import CodeTidy.Proofs.DanglingElse
import Mathlib.Data.List.Chain

/-!
# Statements that are never reached

Nothing should stand after a statement that ends with a jump.  A conditional whose condition is
a literal becomes the branch that it takes, and that branch may end with a jump where the
conditional did not, so the rule for dead branches can cut off what was in reach.

It cannot if such a conditional counts as the branch it takes from the start
(`Term.isDeadEnd`).  Then the rewritings change no dead end, and what was in reach stays there.
-/

namespace CodeTidy

namespace Term

/-! ## Dead ends -/

/-- The value of a condition that is a literal, parentheses and negations aside. -/
def truth? : Term → Option Bool
  | node (.literal (.bool value)) _ _ => some value
  | node .paren _ [inner] => truth? inner
  | node (.prefixed .not) _ [operand] => (truth? operand).map Bool.not
  | _ => none

mutual

/-- Whether control never leaves a statement at its end, where a conditional whose condition is
a literal counts as the branch it takes. -/
def isDeadEnd : Term → Bool
  | node (.breakStmt _) _ _ => true
  | node (.continueStmt _) _ _ => true
  | node .returnStmt _ _ => true
  | node .throwStmt _ _ => true
  | node .block _ stmts => lastIsDeadEnd stmts
  | node .ifStmt _ (cond :: thenBranch :: rest) =>
      match cond.truth? with
      | some true => isDeadEnd thenBranch
      | some false => anyIsDeadEnd rest
      | none => isDeadEnd thenBranch && anyIsDeadEnd rest
  | _ => false

def lastIsDeadEnd : List Term → Bool
  | [] => false
  | [stmt] => isDeadEnd stmt
  | _ :: stmt :: rest => lastIsDeadEnd (stmt :: rest)

def anyIsDeadEnd : List Term → Bool
  | [] => false
  | stmt :: rest => isDeadEnd stmt || anyIsDeadEnd rest

end

theorem lastIsDeadEnd_eq (stmts : List Term) :
    lastIsDeadEnd stmts = stmts.getLast?.any isDeadEnd := by
  induction stmts with
  | nil => rfl
  | cons stmt rest ih =>
      cases rest with
      | nil => rfl
      | cons second rest => rw [lastIsDeadEnd, ih, List.getLast?_cons_cons]

theorem anyIsDeadEnd_eq (stmts : List Term) : anyIsDeadEnd stmts = stmts.any isDeadEnd := by
  induction stmts with
  | nil => rfl
  | cons stmt rest ih => rw [anyIsDeadEnd, ih, List.any_cons]

theorem isDeadEnd_block (type : Option TypeDesc) (stmts : List Term) :
    (node .block type stmts).isDeadEnd = stmts.getLast?.any isDeadEnd := by
  rw [isDeadEnd, lastIsDeadEnd_eq]

theorem isDeadEnd_ifStmt (type : Option TypeDesc) (cond thenBranch : Term) (rest : List Term) :
    (node .ifStmt type (cond :: thenBranch :: rest)).isDeadEnd =
      match cond.truth? with
      | some true => thenBranch.isDeadEnd
      | some false => rest.any isDeadEnd
      | none => thenBranch.isDeadEnd && rest.any isDeadEnd := by
  rw [isDeadEnd, anyIsDeadEnd_eq]

theorem isDeadEnd_of_endsWithJump {term : Term} (h : term.endsWithJump = true) :
    term.isDeadEnd = true := by
  refine endsWithJump_induct ?jump ?block ?ifElse h
  case jump =>
    intro head type subs hjump
    cases head <;> first | rfl | cases hjump
  case block =>
    intro type stmts last hlast ih
    rw [isDeadEnd_block, hlast]
    exact ih
  case ifElse =>
    intro type cond thenBranch elseBranch ihThen ihElse
    rw [isDeadEnd_ifStmt, List.any_cons, ihThen, ihElse]
    cases cond.truth? with
    | none => rfl
    | some value => cases value <;> rfl

theorem isDeadEnd_of_isEmptyBranch {stmt : Term} (h : isEmptyBranch (some stmt) = true) :
    stmt.isDeadEnd = false := by
  cases stmt with
  | node head type subs =>
      simp only [isEmptyBranch, Option.all_some, head_node, subs_node, Bool.and_eq_true,
        beq_iff_eq, List.isEmpty_iff] at h
      obtain ⟨rfl, rfl⟩ := h
      rfl

/-! ## Conditions with a known value -/

theorem truth?_bare (term : Term) : term.bare.truth? = term.truth? := by
  induction term with
  | node head type subs ih =>
      unfold bare
      split
      · next inner heq =>
          cases heq
          rw [truth?]
          exact ih inner (List.mem_singleton_self inner)
      · rfl

theorem truth?_of_boolLiteral? {term : Term} {value : Bool}
    (h : term.boolLiteral? = some value) : term.truth? = some value := by
  rw [← truth?_bare]
  unfold boolLiteral? at h
  generalize term.bare = inner at h ⊢
  cases inner with
  | node head type subs =>
      split at h
      · next hhead =>
          rw [head_node] at hhead
          subst hhead
          rw [← h]
          rfl
      · cases h

theorem truth?_of_not_expression {term : Term} (h : term.head.isExpression = false) :
    term.truth? = none := by
  unfold truth?
  split <;> first | rfl | cases h

theorem truth?_not (term : Term) : term.not.truth? = term.truth?.map Bool.not := by
  rw [not, truth?, ← truth?_bare, bare_wrap, truth?_bare]

theorem truth?_negate (term : Term) (invert : Bool) :
    (term.negate invert).truth? = term.truth?.map Bool.not := by
  unfold negate
  split
  · next operand hbare =>
      rw [← truth?_bare term, hbare, truth?, Option.map_map,
        show Bool.not ∘ Bool.not = id from funext Bool.not_not, Option.map_id]
      rfl
  · next value type subs hbare =>
      rw [← truth?_bare term, hbare]
      rfl
  · next op type left right hbare =>
      split
      · rw [← truth?_bare term, hbare]
        rfl
      · exact truth?_not term
  · exact truth?_not term

/-! ## Statements in a row -/

def row : Term → List Term
  | node .block _ items | node .unit _ items | node .switchStmt _ (_ :: items) => items
  | _ => []

/-- Whether an item may stand right after another one, where nothing but a label may stand after
what stops. -/
def Follows (stops : Term → Bool) (first second : Term) : Prop :=
  second.head = .caseLabel ∨ stops first = false

instance (stops : Term → Bool) (first second : Term) : Decidable (Follows stops first second) :=
  inferInstanceAs (Decidable (_ ∨ _))

/-- Whether no item of a row stands right after one that stops, labels aside. -/
def isInReach (stops : Term → Bool) (term : Term) : Bool :=
  decide (term.row.IsChain (Follows stops))

variable {old a b : Term} {fresh : Option Term} {strict : Bool} {stops : Term → Bool}

theorem isInReach_mono {fewer : Term → Bool}
    (h : ∀ term, fewer term = true → stops term = true) {term : Term}
    (hall : term.isInReach stops = true) : term.isInReach fewer = true := by
  unfold isInReach at hall ⊢
  rw [decide_eq_true_eq] at hall ⊢
  refine hall.imp fun first second hfollows => hfollows.imp_right fun hstops => ?_
  by_contra hfewer
  rw [h first (Bool.eq_true_of_not_eq_false hfewer)] at hstops
  cases hstops

/-- Where the slots after the given ones stand in the row of the node. -/
theorem row_slots (head : Head) (type : Option TypeDesc) (before : List Term) :
    (head = .switchStmt ∧ before = []) ∨
      (∀ items, (node head type (before ++ items)).row = []) ∨
      ∃ kept, ∀ items, (node head type (before ++ items)).row = kept ++ items := by
  cases head
  case block => exact .inr (.inr ⟨before, fun _ => rfl⟩)
  case unit => exact .inr (.inr ⟨before, fun _ => rfl⟩)
  case switchStmt =>
    cases before with
    | nil => exact .inl ⟨rfl, rfl⟩
    | cons subject before => exact .inr (.inr ⟨before, fun _ => rfl⟩)
  all_goals exact .inr (.inl fun _ => rfl)

/-- An item of a row is exchanged for one that stops as the old one does. -/
theorem chain_exchange {before after : List Term} {c d : Term} (hhead : d.head = .caseLabel ↔
      c.head = .caseLabel) (hstops : stops d = stops c)
    (h : (before ++ c :: after).IsChain (Follows stops)) :
    (before ++ d :: after).IsChain (Follows stops) := by
  rw [List.isChain_append, List.isChain_cons] at h ⊢
  obtain ⟨hbefore, ⟨hnext, hafter⟩, hlast⟩ := h
  refine ⟨hbefore, ⟨fun item hitem => ?_, hafter⟩, fun item hitem next hmem => ?_⟩
  · exact (hnext item hitem).imp_right hstops.trans
  · obtain rfl : d = next := by simpa using hmem
    exact (hlast item hitem c rfl).imp_left hhead.mpr

theorem chain_drop {before after : List Term} {c : Term} (hhead : c.head ≠ .caseLabel)
    (h : (before ++ c :: after).IsChain (Follows stops)) :
    (before ++ after).IsChain (Follows stops) := by
  rw [List.isChain_append, List.isChain_cons] at h
  obtain ⟨hbefore, ⟨-, hafter⟩, hlast⟩ := h
  exact hbefore.append hafter
    (fun item hitem _ _ => .inr ((hlast item hitem c rfl).resolve_left hhead))

/-- A slot is exchanged for one that stops as the old one does. -/
theorem isInReach_exchange {head : Head} {type : Option TypeDesc} {before after : List Term}
    {c d : Term} (hhead : d.head = .caseLabel ↔ c.head = .caseLabel) (hstops : stops d = stops c)
    (h : (node head type (before ++ c :: after)).isInReach stops = true) :
    (node head type (before ++ d :: after)).isInReach stops = true := by
  unfold isInReach at h ⊢
  rw [decide_eq_true_eq] at h ⊢
  rcases row_slots head type before with ⟨rfl, rfl⟩ | hrow | ⟨kept, hrow⟩
  · exact h
  · rw [hrow]
    exact .nil
  · rw [hrow] at h ⊢
    exact chain_exchange hhead hstops h

theorem isInReach_drop {head : Head} {type : Option TypeDesc} {before after : List Term}
    {c : Term} (hhead : c.head ≠ .caseLabel) (hdrop : head.canDrop before.length = true)
    (h : (node head type (before ++ c :: after)).isInReach stops = true) :
    (node head type (before ++ after)).isInReach stops = true := by
  unfold isInReach at h ⊢
  rw [decide_eq_true_eq] at h ⊢
  rcases row_slots head type before with ⟨rfl, rfl⟩ | hrow | ⟨kept, hrow⟩
  · cases hdrop
  · rw [hrow]
    exact .nil
  · rw [hrow] at h ⊢
    exact chain_drop hhead h

/-! ## Changes below a node -/

/-- The last item is that of the items after a slot, or the one in the slot. -/
theorem getLast?_slots (before after : List Term) (c : Term) :
    (before ++ c :: after).getLast? = some (after.getLast?.getD c) := by
  rw [List.getLast?_append, List.getLast?_cons]
  rfl

/-- A slot is exchanged for one that is a dead end if the old one is. -/
theorem isDeadEnd_exchange {head : Head} {type : Option TypeDesc} {before after : List Term}
    {c d : Term} (htruth : d.truth? = c.truth?) (hdead : d.isDeadEnd = c.isDeadEnd) :
    (node head type (before ++ d :: after)).isDeadEnd =
      (node head type (before ++ c :: after)).isDeadEnd := by
  cases head
  case block =>
    rw [isDeadEnd_block, isDeadEnd_block, getLast?_slots, getLast?_slots]
    cases after.getLast? with
    | none => exact hdead
    | some last => rfl
  case ifStmt =>
    rcases before with _ | ⟨cond, _ | ⟨thenBranch, before⟩⟩
    · cases after with
      | nil => rfl
      | cons thenBranch rest =>
          rw [List.nil_append, List.nil_append, isDeadEnd_ifStmt, isDeadEnd_ifStmt, htruth]
    · rw [List.cons_append, List.nil_append, List.cons_append, List.nil_append, isDeadEnd_ifStmt,
        isDeadEnd_ifStmt, hdead]
    · rw [List.cons_append, List.cons_append, List.cons_append, List.cons_append,
        isDeadEnd_ifStmt, isDeadEnd_ifStmt]
      simp only [List.any_append, List.any_cons, hdead]
  all_goals rfl

theorem isDeadEnd_drop {head : Head} {type : Option TypeDesc} {before after : List Term}
    {c : Term} (hhead : c.head ≠ .caseLabel) (hdead : c.isDeadEnd = false)
    (hdrop : head.canDrop before.length = true)
    (h : (node head type (before ++ c :: after)).isInReach isDeadEnd = true) :
    (node head type (before ++ after)).isDeadEnd =
      (node head type (before ++ c :: after)).isDeadEnd := by
  cases head
  case block =>
    rw [isDeadEnd_block, isDeadEnd_block, getLast?_slots, List.getLast?_append]
    cases hafter : after.getLast? with
    | some last => rfl
    | none =>
        -- the last statement goes, and what stood before it was no dead end either
        have hchain := List.isChain_append.mp (of_decide_eq_true h)
        show before.getLast?.any isDeadEnd = c.isDeadEnd
        cases hbefore : before.getLast? with
        | none => exact hdead.symm
        | some last =>
            rw [hdead]
            exact (hchain.2.2 last hbefore c rfl).resolve_left hhead
  case ifStmt =>
    obtain ⟨cond, thenBranch, rfl⟩ := List.length_eq_two.mp (of_decide_eq_true hdrop)
    rw [List.cons_append, List.cons_append, List.nil_append, List.cons_append, List.cons_append,
      List.nil_append, isDeadEnd_ifStmt, isDeadEnd_ifStmt, List.any_cons, hdead, Bool.false_or]
  all_goals rfl

/-- The new statement is a dead end if the old one is, and nothing in it is cut off. -/
structure KeepsEnds (old : Term) (fresh : Option Term) : Prop where
  isStatement : old.head.isStatement = true
  statement : ∀ new, new ∈ fresh → new.head.isStatement = true
  inReach : ∀ new, new ∈ fresh → old.all (isInReach isDeadEnd) = true →
    new.all (isInReach isDeadEnd) = true
  isDeadEnd : ∀ new, new ∈ fresh → new.isDeadEnd = old.isDeadEnd
  /-- A dead end is never dropped. -/
  dropped : fresh = none → old.isDeadEnd = false

theorem not_expression_of_isStatement {term : Term} (h : term.head.isStatement = true) :
    term.head.isExpression = false := by
  by_contra hexpr
  rw [Head.isStatement_of_isExpression (Bool.eq_true_of_not_eq_false hexpr)] at h
  cases h

/-- What a change makes of a statement around it is a dead end if the statement was. -/
theorem Swap.isDeadEnd (h : Swap old fresh a b) (hkeeps : KeepsEnds old fresh)
    (horder : a.all isOrderly = true) (hall : a.all (isInReach Term.isDeadEnd) = true) :
    b.isDeadEnd = a.isDeadEnd := by
  induction h with
  | @here head type before after hdrop hsuits =>
      cases fresh with
      | none =>
          exact isDeadEnd_drop (head_ne_caseLabel (.inr hkeeps.isStatement)) (hkeeps.dropped rfl)
            (hdrop rfl) (holds_of_all hall)
      | some new =>
          refine isDeadEnd_exchange ?_ (hkeeps.isDeadEnd new rfl)
          rw [truth?_of_not_expression (not_expression_of_isStatement hkeeps.isStatement),
            truth?_of_not_expression (not_expression_of_isStatement (hkeeps.statement new rfl))]
  | @deeper head type before after c d hswap ih =>
      have hc : c.all isOrderly = true := all_sub horder (by simp)
      have hexpr : c.head.isExpression = false := by
        by_contra hexpr
        have hold := hswap.isExpression hc (Bool.eq_true_of_not_eq_false hexpr)
        rw [not_expression_of_isStatement hkeeps.isStatement] at hold
        cases hold
      refine isDeadEnd_exchange ?_ (ih hc (all_sub hall (by simp)))
      rw [truth?_of_not_expression hexpr, truth?_of_not_expression (hswap.head_eq ▸ hexpr)]

/-- A change that keeps dead ends cuts nothing off. -/
theorem Swap.inReach (h : Swap old fresh a b) (hkeeps : KeepsEnds old fresh)
    (horder : a.all isOrderly = true) (hall : a.all (isInReach Term.isDeadEnd) = true) :
    b.all (isInReach Term.isDeadEnd) = true := by
  have hlabel := head_ne_caseLabel (.inr hkeeps.isStatement)
  refine h.all hall hkeeps.inReach ?_ ?_
  · intro head type before after _ hself hdrop _
    cases fresh with
    | none => exact isInReach_drop hlabel (hdrop rfl) hself
    | some new =>
        refine isInReach_exchange ?_ (hkeeps.isDeadEnd new rfl) hself
        exact iff_of_false (head_ne_caseLabel (.inr (hkeeps.statement new rfl))) hlabel
  · intro head type before after c d hcd hbelow hself
    exact isInReach_exchange (by rw [hcd.head_eq])
      (hcd.isDeadEnd hkeeps (hbelow _ horder) (hbelow _ hall)) hself

theorem IsExpr.inReach {term : Term} (h : term.IsExpr strict) :
    term.all (isInReach stops) = true := by
  refine h.all_of fun expr hexpr => ?_
  have hrow : expr.row = [] := by
    unfold row
    split <;> first | rfl | cases hexpr
  simp [isInReach, hrow]

theorem inReach_ifStmt {type : Option TypeDesc} {subs : List Term}
    (h : ∀ sub, sub ∈ subs → sub.all (isInReach stops) = true) :
    (node .ifStmt type subs).all (isInReach stops) = true := by
  rw [all_node, List.all_eq_true.mpr h]
  rfl

end Term

/-! ## The rule for dead branches -/

namespace DeadBranch

variable {old : Term} {fresh : Option Term} {strict : Bool} {stops : Term → Bool}

theorem inReach_asBlock {stmt : Term} (h : stmt.all (Term.isInReach stops) = true) :
    (asBlock stmt).all (Term.isInReach stops) = true := by
  unfold asBlock
  split
  · exact h
  · rw [Term.block, Term.all_node, List.all_cons, h]
    simp [Term.isInReach, Term.row]

theorem isDeadEnd_asBlock (stmt : Term) : (asBlock stmt).isDeadEnd = stmt.isDeadEnd := by
  unfold asBlock
  split
  · rfl
  · exact Term.isDeadEnd_block ..

theorem isDeadEnd_of_vanished {new : Term} (h : Vanished fresh) (hnew : new ∈ fresh) :
    new.isDeadEnd = false := by
  cases h <;> cases hnew
  rfl

theorem inReach_of_vanished {new : Term} (h : Vanished fresh) (hnew : new ∈ fresh) :
    new.all (Term.isInReach stops) = true := by
  cases h <;> cases hnew
  rfl

theorem isDeadEnd_of_empty {type : Option TypeDesc} {cond thenBranch : Term}
    {elseBranch : Option Term} (hthen : Term.isEmptyBranch (some thenBranch) = true)
    (helse : Term.isEmptyBranch elseBranch = true) :
    (Term.node .ifStmt type (cond :: thenBranch :: elseBranch.toList)).isDeadEnd = false := by
  have hrest : elseBranch.toList.any Term.isDeadEnd = false := by
    cases elseBranch with
    | none => rfl
    | some stmt => simp [Term.isDeadEnd_of_isEmptyBranch helse]
  rw [Term.isDeadEnd_ifStmt, Term.isDeadEnd_of_isEmptyBranch hthen, hrest]
  cases cond.truth? with
  | none => rfl
  | some value => cases value <;> rfl

theorem Rewrite.isDeadEnd (h : Rewrite old fresh) {new : Term} (hnew : new ∈ fresh) :
    new.isDeadEnd = old.isDeadEnd := by
  cases h with
  | takeThen hcond =>
      cases hnew
      rw [Term.isDeadEnd_ifStmt, Term.truth?_of_boolLiteral? hcond]
  | takeElse hcond =>
      cases hnew
      rw [Term.isDeadEnd_ifStmt, Term.truth?_of_boolLiteral? hcond]
      simp
  | dropIf hcond hfresh =>
      rw [isDeadEnd_of_vanished hfresh hnew, Term.isDeadEnd_ifStmt,
        Term.truth?_of_boolLiteral? hcond]
      rfl
  | dropLoop hcond hfresh => exact isDeadEnd_of_vanished hfresh hnew
  | dropEmpty hthen helse hcond hfresh =>
      rw [isDeadEnd_of_vanished hfresh hnew, isDeadEnd_of_empty hthen helse]
  | keepCondition hthen helse hcond =>
      cases hnew
      rw [isDeadEnd_of_empty hthen helse]
      rfl
  | @dropElse type cond thenBranch elseBranch helse =>
      cases hnew
      rw [Term.isDeadEnd_ifStmt, Term.isDeadEnd_ifStmt, List.any_cons,
        Term.isDeadEnd_of_isEmptyBranch helse]
      rfl
  | @invert type cond thenBranch elseBranch hthen =>
      cases hnew
      rw [Term.ifStmt, Option.toList_none, Term.isDeadEnd_ifStmt, Term.isDeadEnd_ifStmt,
        Term.truth?_negate, isDeadEnd_asBlock, Term.isDeadEnd_of_isEmptyBranch hthen]
      cases cond.truth? with
      | none => simp
      | some value => cases value <;> simp

theorem Rewrite.not_isDeadEnd (h : Rewrite old none) : old.isDeadEnd = false := by
  cases h with
  | dropIf hcond hfresh =>
      rw [Term.isDeadEnd_ifStmt, Term.truth?_of_boolLiteral? hcond]
      rfl
  | dropLoop hcond hfresh => rfl
  | dropEmpty hthen helse hcond hfresh => exact isDeadEnd_of_empty hthen helse

theorem Rewrite.inReach (h : Rewrite old fresh) (horder : old.all (Term.isSound strict) = true)
    (hall : old.all (Term.isInReach stops) = true) {new : Term} (hnew : new ∈ fresh) :
    new.all (Term.isInReach stops) = true := by
  have hsub : ∀ {sub}, sub ∈ old.subs → sub.all (Term.isInReach stops) = true :=
    fun hmem => Term.all_sub hall hmem
  cases h with
  | takeThen hcond => cases hnew; exact hsub (by simp)
  | takeElse hcond => cases hnew; exact hsub (by simp)
  | dropIf hcond hfresh => exact inReach_of_vanished hfresh hnew
  | dropLoop hcond hfresh => exact inReach_of_vanished hfresh hnew
  | dropEmpty hthen helse hcond hfresh => exact inReach_of_vanished hfresh hnew
  | keepCondition hthen helse hcond =>
      cases hnew
      rw [Term.exprStmt, Term.all_node, List.all_cons,
        (Term.parts_of_ifStmt horder).1.bare.inReach]
      rfl
  | dropElse helse =>
      cases hnew
      refine Term.inReach_ifStmt fun sub hmem => hsub ?_
      simp only [Term.subs_node, List.mem_cons, List.not_mem_nil, or_false] at hmem ⊢
      exact hmem.imp_right .inl
  | @invert type cond thenBranch elseBranch hthen =>
      cases hnew
      refine Term.inReach_ifStmt fun sub hmem => ?_
      simp only [Option.toList_none, List.mem_cons, List.not_mem_nil, or_false] at hmem
      rcases hmem with rfl | rfl
      · exact ((Term.parts_of_ifStmt horder).1.negate _).inReach
      · exact inReach_asBlock (hsub (by simp))

theorem Rewrite.keepsEnds (h : Rewrite old fresh) (horder : old.all Term.isOrderly = true) :
    Term.KeepsEnds old fresh := by
  have hsound := (Term.all_isSound_false old).trans horder
  have hstmt : old.head.isStatement = true := by cases h <;> rfl
  exact {
    isStatement := hstmt
    statement := (h.exchange hsound).statement hstmt
    inReach := fun new hnew hall => h.inReach hsound hall hnew
    isDeadEnd := fun new hnew => h.isDeadEnd hnew
    dropped := by
      rintro rfl
      exact h.not_isDeadEnd }

def Prunes (tree later : Tree) : Prop :=
  ∃ old, tree.RewrittenBy Rewrite old later

theorem Prunes.committed {before after : Tree} (h : Prunes before after) :
    before.Committed after := by
  obtain ⟨old, hrewritten⟩ := h
  exact hrewritten.committed fun _ => .dead

theorem outcomes {rules : List (Rule Unit)} (h : ∀ rule, rule ∈ rules → rule = DeadBranch.rule) :
    Outcomes rules Prunes := by
  intro rule hrule
  obtain rfl := h rule hrule
  exact ⟨ruleName, respond, rfl, fun hbase _ hold hne =>
    (answers hbase hold hne).imp fun _ hrewritten => ⟨_, hrewritten⟩⟩

theorem Prunes.inReach {before after : Tree} (h : Prunes before after)
    (horder : before.term.all Term.isOrderly = true)
    (hall : before.term.all (Term.isInReach Term.isDeadEnd) = true) :
    after.term.all (Term.isInReach Term.isDeadEnd) = true := by
  obtain ⟨old, fresh, hrewrite, hswap⟩ := h
  exact hswap.inReach (hrewrite.keepsEnds (hswap.all_old horder)) horder hall

end DeadBranch

/-! ## Runs -/

/-- No statement of the unit stands right after one that ends with a jump. -/
def Source.HasNoDeadCode (source : Source) : Prop :=
  (source.store.term source.root).all (Term.isInReach Term.endsWithJump) = true

/-- No statement of the unit would stand right after one that ends with a jump if conditionals
whose condition is a literal were the branches that they take. -/
def Source.HasNoLatentDeadCode (source : Source) : Prop :=
  (source.store.term source.root).all (Term.isInReach Term.isDeadEnd) = true

instance (source : Source) : Decidable source.HasNoDeadCode :=
  inferInstanceAs (Decidable (_ = true))

instance (source : Source) : Decidable source.HasNoLatentDeadCode :=
  inferInstanceAs (Decidable (_ = true))

theorem Source.HasNoLatentDeadCode.hasNoDeadCode {source : Source}
    (h : source.HasNoLatentDeadCode) : source.HasNoDeadCode :=
  Term.all_imp (fun _ => Term.isInReach_mono fun _ => Term.isDeadEnd_of_endsWithJump) h

namespace Engine

variable {engine : Engine} {source : Source} {cancelled : Bool}

/-- The rule for dead branches alone never cuts off a statement, unless a conditional whose
condition is a literal hides a jump in front of it. -/
theorem run_keeps_code_in_reach
    (hrules : ∀ rule, rule ∈ engine.rules → rule = DeadBranch.rule)
    (h : source.WellFormed) (hreach : source.HasNoLatentDeadCode) :
    ∃ report final stores, engine.run source cancelled = .ok (report, ⟨final, source.root⟩) ∧
      Trail engine.settings.options engine.rules source.root source.store report.log stores
        final ∧
      ∀ store, store ∈ final :: stores →
        Source.HasNoLatentDeadCode ⟨store, source.root⟩ ∧
          Source.HasNoDeadCode ⟨store, source.root⟩ := by
  have hselected : Selected engine.rules := by
    intro rule hrule
    rw [hrules rule hrule]
    simp [Registry.rules]
  obtain ⟨report, final, stores, hrun, htrail, hkept⟩ :=
    @run_of_outcomes engine source cancelled
      (fun term => term.all (Term.isInReach Term.isDeadEnd) = true) DeadBranch.Prunes hselected
      (DeadBranch.outcomes hrules) DeadBranch.Prunes.committed h.toProper
      DeadBranch.Prunes.inReach hreach
  refine ⟨report, final, stores, hrun, htrail, ?_⟩
  intro store hstore
  have hlatent : Source.HasNoLatentDeadCode ⟨store, source.root⟩ := (hkept store hstore).2
  exact ⟨hlatent, hlatent.hasNoDeadCode⟩

/-- The unit `if (false) return; after();`. -/
def hiddenReturn : Source where
  store :=
    { nodes := #[
        ⟨.literal (.bool false), none, some 2, false⟩,
        ⟨.returnStmt none, none, some 2, false⟩,
        ⟨.ifStmt 0 1 none, none, some 5, false⟩,
        ⟨.call none "after" [], none, some 4, false⟩,
        ⟨.exprStmt 3, none, some 5, false⟩,
        ⟨.unit [2, 4], none, none, false⟩] }
  root := 5

/-- The return goes away, and the call stays in reach. -/
theorem run_keeps_code_in_reach_hidden :
    hiddenReturn.HasNoLatentDeadCode ∧ ∃ report final,
      Engine.run ⟨{}, [DeadBranch.rule]⟩ hiddenReturn false = .ok (report, ⟨final, 5⟩) ∧
      report.changes = 1 ∧ Source.HasNoDeadCode ⟨final, 5⟩ := by
  have hreach : hiddenReturn.HasNoLatentDeadCode := by decide +kernel
  obtain ⟨report, after, hrun, hchanges⟩ :=
    @exists_outcome false ⟨{}, [DeadBranch.rule]⟩ hiddenReturn
      (fun outcome => outcome.1.changes == 1) (by decide +kernel)
  obtain ⟨report', final, stores, hrun', -, hkept⟩ :=
    @run_keeps_code_in_reach ⟨{}, [DeadBranch.rule]⟩ hiddenReturn false
      (by simp) (by decide +kernel) hreach
  rw [hrun'] at hrun
  cases hrun
  exact ⟨hreach, report, final, hrun', eq_of_beq hchanges,
    (hkept final (List.mem_cons_self ..)).2⟩

/-- The unit `if (true) return; after();`. -/
def certainReturn : Source where
  store :=
    { nodes := #[
        ⟨.literal (.bool true), none, some 2, false⟩,
        ⟨.returnStmt none, none, some 2, false⟩,
        ⟨.ifStmt 0 1 none, none, some 5, false⟩,
        ⟨.call none "after" [], none, some 4, false⟩,
        ⟨.exprStmt 3, none, some 5, false⟩,
        ⟨.unit [2, 4], none, none, false⟩] }
  root := 5

/-- The conditional does not end with a jump, and the branch that it becomes does. -/
theorem run_cuts_code_off :
    certainReturn.WellFormed ∧ certainReturn.HasNoDeadCode ∧
      ∃ report after, Engine.run ⟨{}, [DeadBranch.rule]⟩ certainReturn false =
        .ok (report, after) ∧ ¬ after.HasNoDeadCode :=
  ⟨by decide +kernel, by decide +kernel, _, _, rfl, by decide +kernel⟩

end Engine

end CodeTidy
