import CodeTidy.Proofs.Shape
import CodeTidy.Proofs.Rule.TwoWaySwitch
import CodeTidy.Proofs.Rule.NegationDescent
import CodeTidy.Proofs.Rule.EmptinessTest
import CodeTidy.Proofs.Rule.SetUpdate
import CodeTidy.Proofs.Rule.StringConversion
import CodeTidy.Proofs.Rule.LocalTable
import CodeTidy.Proofs.Rule.DeadBranch
import CodeTidy.Rule.Registry

/-!
# One commit

Every commit exchanges one subtree as one of the rules says, after the table rule has
retyped some names.  An exchange by a rule keeps every node in order.
-/

namespace CodeTidy

variable {strict : Bool} {old a b : Term} {fresh : Option Term}

/-! ## Expressions -/

namespace Head

theorem isStatement_of_isExpression {head : Head} (h : head.isExpression = true) :
    head.isStatement = false := by
  cases head <;> first
    | rfl
    | cases h

theorem isExpression_of_isNaming {head : Head} (h : head.isNaming = true) :
    head.isExpression = true := by
  cases head <;> first
    | rfl
    | cases h

end Head

namespace Term

theorem Exchange.of_expr {new : Term} (hold : old.head.isExpression = true)
    (hnew : new.IsExpr strict) (hname : old.head.isNaming = true → new.head.isNaming = true)
    (hneutral : old.all isBoolean = true → new.Neutral) : Exchange strict old (some new) where
  label := by
    intro hlabel
    rw [hlabel] at hold
    cases hold
  stays := by simp
  expression := by
    rintro _ _ ⟨⟩
    exact hnew.head
  statement := by
    intro hstatement
    rw [Head.isStatement_of_isExpression hold] at hstatement
    cases hstatement
  sound := by
    rintro _ ⟨⟩
    exact hnew.sound
  naming := by
    rintro hnaming _ ⟨⟩
    exact hname hnaming
  boolean := by
    rintro _ hall _ ⟨⟩
    have hneutral := hneutral hall
    exact ⟨hneutral.all, hneutral.value, hneutral.bare⟩

theorem Exchange.of_stmt (hold : old.head.isStatement = true)
    (hnew : ∀ new, new ∈ fresh → new.IsStmt strict) : Exchange strict old fresh := by
  have hnot : old.head.isExpression ≠ true := by
    intro hexpr
    rw [Head.isStatement_of_isExpression hexpr] at hold
    cases hold
  have hname : old.head.isNaming ≠ true :=
    fun hnaming => hnot (Head.isExpression_of_isNaming hnaming)
  exact {
    label := by
      intro hlabel
      rw [hlabel] at hold
      cases hold
    stays := fun hexpr => absurd hexpr hnot
    expression := fun hexpr => absurd hexpr hnot
    statement := fun _ new hmem => (hnew new hmem).head
    sound := fun new hmem => (hnew new hmem).sound
    naming := fun hnaming => absurd hnaming hname
    boolean := fun hexpr => absurd hexpr hnot }

end Term

theorem StringConversion.Rewrite.exchange (h : StringConversion.Rewrite old fresh)
    (hall : old.all (Term.isSound strict) = true) : Term.Exchange strict old fresh := by
  have hnew : ∀ {value : Term} {type : Option TypeDesc} {subs : List Term},
      (Term.node (.chain .plus) type subs).all (Term.isSound strict) = true → value ∈ subs →
      Term.Exchange strict (.node (.chain .plus) type subs)
        (some (.call (.bareName "String") "valueOf" [value])) := by
    intro value type subs hall hvalue
    have hold : (Term.node (.chain .plus) type subs).IsExpr strict := ⟨rfl, hall⟩
    refine .of_expr rfl ((Term.isExpr_bareName _).call ?_) (by intro h; cases h) ?_
    · simpa using hold.of_mem hvalue
    · intro hboolean
      exact Term.neutral_call (Term.all_isBoolean_of_ne rfl (by simp))
        (by simpa using Term.all_sub hboolean hvalue)
  cases h with
  | left => exact hnew hall (by simp)
  | right => exact hnew hall (by simp)

theorem EmptinessTest.Rewrite.exchange (h : EmptinessTest.Rewrite old fresh)
    (hall : old.all (Term.isSound strict) = true) : Term.Exchange strict old fresh := by
  cases h with
  | @states op type left right receiver verdict outer hreads hpassive =>
      have hreceiver : ∃ side, side ∈ [left, right] ∧ ∃ method type,
          side.bare = .node (.call true method) type [receiver] := by
        rcases hreads with ⟨method, type, value, hside, -⟩ | ⟨method, type, value, hside, -⟩
        · exact ⟨left, by simp, method, type, hside⟩
        · exact ⟨right, by simp, method, type, hside⟩
      obtain ⟨side, hside, method, sideType, hbare⟩ := hreceiver
      have hold : (Term.node (.chain op) type [left, right]).IsExpr strict := ⟨rfl, hall⟩
      refine .of_expr rfl ?_ (by intro h; cases h) ?_
      · have hexpr := (hold.of_mem hside).bare
        rw [hbare] at hexpr
        have hcall : (Term.call receiver "isEmpty" []).IsExpr strict :=
          (hexpr.of_mem (List.mem_singleton_self _)).call (by simp)
        cases verdict with
        | always value => exact (Term.isExpr_boolLit value).fit outer
        | empty => exact hcall.fit outer
        | notEmpty => exact hcall.not.fit outer
      · intro hboolean
        have hsub := Term.all_bare (Term.all_sub hboolean hside)
        rw [hbare] at hsub
        have hcall : (Term.call receiver "isEmpty" []).Neutral :=
          Term.neutral_call (Term.all_sub hsub (List.mem_singleton_self _)) (by simp)
        cases verdict with
        | always value => exact (Term.neutral_boolLit value).fit outer
        | empty => exact hcall.fit outer
        | notEmpty => exact hcall.not.fit outer

namespace Term

theorem negate_cases (invert : Bool) (term : Term) :
    (∃ type operand, term.bare = node (.prefixed .not) type [operand] ∧
      term.negate invert = operand) ∨
    (∃ value, term.negate invert = boolLit value) ∨
    (∃ op inverse type left right, term.bare = node (.chain op) type [left, right] ∧
      op.inverse? = some inverse ∧ term.negate invert = chain inverse [left, right]) ∨
    term.negate invert = term.not := by
  unfold negate
  split
  · next type operand heq => exact .inl ⟨type, operand, heq, rfl⟩
  · exact .inr (.inl ⟨_, rfl⟩)
  · next op type left right heq =>
      split
      · next inverse hinverse =>
          have hop : op.inverse? = some inverse := by
            cases invert
            · cases hinverse
            · exact hinverse
          exact .inr (.inr (.inl ⟨op, inverse, type, left, right, heq, hop, rfl⟩))
      · exact .inr (.inr (.inr rfl))
  · exact .inr (.inr (.inr rfl))

/-- A negation goes through parentheses, changes a logical chain into its dual, and ends
at everything else. -/
theorem push_form (term : Term) :
    (∃ type inner, term = .node .paren type [inner]) ∨
      (∃ op dual type subs, term = .node (.chain op) type subs ∧ op.dual? = some dual) ∨
      (term.bare = term ∧ term.push = term.negate term.isInvertible) := by
  unfold push
  split
  · next type inner => exact .inl ⟨type, inner, rfl⟩
  · next op type subs =>
      cases hdual : op.dual? with
      | some dual => exact .inr (.inl ⟨op, dual, type, subs, rfl, hdual⟩)
      | none => exact .inr (.inr ⟨bare_of_ne_paren (by simp), rfl⟩)
  · next hparen hchain =>
      refine .inr (.inr ⟨?_, rfl⟩)
      unfold bare
      split
      · next type inner => exact absurd rfl (hparen type inner)
      · rfl

theorem IsExpr.push {term : Term} (h : term.IsExpr strict) : term.push.IsExpr strict := by
  induction term with
  | node head type subs ih =>
      rcases push_form (.node head type subs) with
        ⟨_, inner, ⟨⟩⟩ | ⟨op, dual, _, _, ⟨⟩, hdual⟩ | ⟨hself, hnegate⟩
      · rw [push_paren]
        exact ih inner (List.mem_singleton_self _) (h.of_mem (List.mem_singleton_self _))
      · rw [push_of_dual type subs hdual]
        have harity := holds_of_all h.sound
        simp only [isSound, isOrderly, head_node, subs_node, hasArity, Bool.and_eq_true] at harity
        refine IsExpr.paren (isExpr_join ?_ ?_)
        · intro sub hsub
          obtain ⟨inner, hinner, rfl⟩ := List.mem_map.mp hsub
          exact ih inner hinner (h.of_mem hinner)
        · intro hnil
          rw [List.map_eq_nil_iff.mp hnil] at harity
          exact absurd harity.1.2 (by simp)
      · rw [hnegate]
        exact h.negate _

theorem neutral_push {term : Term} (hall : term.all isBoolean = true)
    (hbare : term.bare.isConstant = false) : term.push.Neutral := by
  induction term with
  | node head type subs ih =>
      rcases push_form (.node head type subs) with
        ⟨_, inner, ⟨⟩⟩ | ⟨op, dual, _, _, ⟨⟩, hdual⟩ | ⟨hself, hnegate⟩
      · rw [push_paren]
        rw [bare_paren] at hbare
        exact ih inner (List.mem_singleton_self _) (all_sub hall (List.mem_singleton_self _)) hbare
      · rw [push_of_dual type subs hdual]
        refine Neutral.paren (neutral_join ?_)
        intro sub hsub
        obtain ⟨inner, hinner, rfl⟩ := List.mem_map.mp hsub
        have hoperand : inner.Neutral := .of_operand hall (by simp [Head.isLogical, hdual]) hinner
        exact ih inner hinner hoperand.all hoperand.bare
      · rw [hnegate]
        exact Neutral.negate ⟨hall, hself ▸ hbare, hbare⟩ _

end Term

theorem NegationDescent.Rewrite.exchange (h : NegationDescent.Rewrite old fresh)
    (hall : old.all (Term.isSound strict) = true) : Term.Exchange strict old fresh := by
  cases h with
  | @push type operand outer hcovered =>
      have hold : (Term.node (.prefixed .not) type [operand]).IsExpr strict := ⟨rfl, hall⟩
      refine .of_expr rfl ?_ (by intro h; cases h) ?_
      · exact (hold.of_mem (List.mem_singleton_self _)).push.fit outer
      · intro hboolean
        have hoperand : operand.Neutral := .of_operand hboolean rfl (List.mem_singleton_self _)
        exact (Term.neutral_push hoperand.all hoperand.bare).fit outer

/-! ## Statements -/

theorem isStmt_of_vanished (h : Vanished fresh) {new : Term} (hnew : new ∈ fresh) :
    new.IsStmt strict := by
  cases h with
  | slot => cases hnew
  | block =>
      cases hnew
      exact Term.isStmt_block (by simp) none

theorem DeadBranch.Rewrite.exchange (h : DeadBranch.Rewrite old fresh)
    (hall : old.all (Term.isSound strict) = true) : Term.Exchange strict old fresh := by
  cases h with
  | takeThen hcond =>
      refine .of_stmt rfl ?_
      rintro _ ⟨⟩
      exact (Term.parts_of_ifStmt hall).2 _ (List.mem_cons_self ..)
  | takeElse hcond =>
      refine .of_stmt rfl ?_
      rintro _ ⟨⟩
      exact (Term.parts_of_ifStmt hall).2 _ (by simp)
  | dropIf hcond hfresh => exact .of_stmt rfl (fun _ => isStmt_of_vanished hfresh)
  | dropLoop hcond hfresh => exact .of_stmt rfl (fun _ => isStmt_of_vanished hfresh)
  | dropEmpty hthen helse hcond hfresh => exact .of_stmt rfl (fun _ => isStmt_of_vanished hfresh)
  | keepCondition hthen helse hcond =>
      refine .of_stmt rfl ?_
      rintro _ ⟨⟩
      exact Term.isStmt_exprStmt (Term.parts_of_ifStmt hall).1.bare none
  | dropElse helse =>
      refine .of_stmt rfl ?_
      rintro _ ⟨⟩
      obtain ⟨hcond, hstmts⟩ := Term.parts_of_ifStmt hall
      refine Term.isStmt_ifStmt hcond ?_ _
      exact fun stmt hstmt => hstmts stmt (List.mem_cons.mpr (.inl (List.mem_singleton.mp hstmt)))
  | @invert type cond thenBranch elseBranch hthen =>
      refine .of_stmt rfl ?_
      rintro _ ⟨⟩
      obtain ⟨hcond, hstmts⟩ := Term.parts_of_ifStmt hall
      have helse : elseBranch.IsStmt strict := hstmts elseBranch (by simp)
      refine Term.isStmt_ifStmt (hcond.negate _) ?_ _
      intro stmt hstmt
      obtain rfl : stmt = asBlock elseBranch := by simpa using hstmt
      unfold asBlock
      split
      · exact helse
      · exact Term.isStmt_block (by simpa using helse) none

theorem Term.expr_of_exprStmt {type : Option TypeDesc} {expr : Term}
    (h : (Term.node .exprStmt type [expr]).IsStmt strict) : expr.IsExpr strict := by
  have hself := holds_of_all h.sound
  simp only [isSound, isOrderly, head_node, subs_node, slotsFit, Bool.and_eq_true] at hself
  exact ⟨hself.1.1.1, all_sub h.sound (List.mem_singleton_self _)⟩

namespace SetUpdate

theorem isStmt_remains {branch new : Term} (h : branch.IsStmt strict)
    (hnew : new ∈ remains branch) : new.IsStmt strict := by
  cases branch with
  | node head type subs =>
      unfold remains at hnew
      split at hnew
      · next hhead =>
          obtain rfl : head = .block := hhead
          cases hnew
          refine Term.isStmt_block ?_ _
          exact fun stmt hstmt => .of_block h.sound (List.mem_of_mem_tail hstmt)
      · cases hnew

theorem Tests.all {cond receiver argument : Term} {negated : Bool} {holds : Term → Bool}
    (h : Tests cond receiver argument negated) (hall : cond.all holds = true) :
    receiver.all holds = true ∧ argument.all holds = true := by
  obtain ⟨test, type, htest, hcond⟩ := h
  have htestAll : test.all holds = true := by
    cases negated with
    | false =>
        obtain rfl : test = cond.bare := hcond
        exact Term.all_bare hall
    | true =>
        obtain ⟨type', hnot⟩ := hcond
        have hbare := Term.all_bare hall
        rw [hnot] at hbare
        exact Term.all_sub hbare (List.mem_singleton_self _)
  have hbare := Term.all_bare htestAll
  rw [htest] at hbare
  exact ⟨Term.all_sub hbare (by simp), Term.all_sub hbare (by simp)⟩

theorem Repeats.expr {cond stmt call : Term} {inThen : Bool} (h : Repeats cond stmt call inThen)
    (hstmt : stmt.IsStmt strict) : call.IsExpr strict := by
  obtain ⟨_, _, _, _, _, type, _, _, _, _, rfl, _⟩ := h
  exact Term.expr_of_exprStmt hstmt

theorem Rewrite.exchange (h : Rewrite old fresh)
    (hall : old.all (Term.isSound strict) = true) : Term.Exchange strict old fresh := by
  cases h with
  | onlyThen hrepeats hthen helse =>
      refine .of_stmt rfl ?_
      rintro _ ⟨⟩
      exact ((Term.parts_of_ifStmt hall).2 _ (List.mem_cons_self ..)).statements
        (by rw [hthen]; exact List.mem_singleton_self _)
  | @onlyElse type cond thenBranch elseBranch stmt call hrepeats hthen helse =>
      refine .of_stmt rfl ?_
      rintro _ ⟨⟩
      exact ((Term.parts_of_ifStmt hall).2 elseBranch (by simp)).statements
        (by rw [helse]; exact List.mem_singleton_self _)
  | @inThen type cond thenBranch stmt call rest elseBranch hrepeats hthen =>
      refine .of_stmt rfl ?_
      rintro _ ⟨⟩
      obtain ⟨hcond, hstmts⟩ := Term.parts_of_ifStmt hall
      have hbranch := hstmts thenBranch (List.mem_cons_self ..)
      refine Term.isStmt_ifStmt (hrepeats.expr (hbranch.statements (by rw [hthen]; simp))) ?_ _
      intro other hother
      rcases List.mem_cons.mp hother with rfl | hother
      · cases hrest : remains thenBranch with
        | some left => exact isStmt_remains hbranch hrest
        | none => exact Term.isStmt_block (by simp) none
      · exact hstmts other (List.mem_cons_of_mem _ hother)
  | @inElse type cond thenBranch elseBranch stmt call rest hrepeats helse =>
      refine .of_stmt rfl ?_
      rintro _ ⟨⟩
      obtain ⟨hcond, hstmts⟩ := Term.parts_of_ifStmt hall
      have hbranch := hstmts elseBranch (by simp)
      refine Term.isStmt_ifStmt (hrepeats.expr (hbranch.statements (by rw [helse]; simp))).not ?_ _
      intro other hother
      rcases List.mem_cons.mp hother with rfl | hother
      · exact hstmts other (List.mem_cons_self ..)
      · exact isStmt_remains hbranch (by simpa using hother)

end SetUpdate

namespace LocalTable

theorem isStmt_varDecl {text : String} {binding : Option BindingId} {type : Option TypeDesc}
    {init : Term} (h : init.IsExpr strict) :
    (Term.node (.varDecl text binding) type [init]).IsStmt strict where
  head := rfl
  sound := Term.sound_node (by simpa [Term.slotsFit, Head.leads] using h.head) rfl (by simp)
    (by simp) (by simpa using h.sound)

theorem Rewrite.exchange (h : Rewrite old fresh)
    (hall : old.all (Term.isSound strict) = true) : Term.Exchange strict old fresh := by
  cases h with
  | @creation type args htable =>
      have hold : (Term.node .creation (some type) args).IsExpr strict := ⟨rfl, hall⟩
      refine .of_expr rfl (Term.isExpr_node rfl (by simp) rfl fun sub hsub => hold.of_mem hsub)
        (by intro h; cases h) ?_
      exact fun hboolean => .of_ne_paren (by simp)
        (Term.all_isBoolean_of_ne rfl fun sub hsub => Term.all_sub hboolean hsub) rfl
  | @initializer text binding type made args htable =>
      have hmade : (Term.node .creation (some made) args).IsExpr strict :=
        ⟨rfl, Term.all_sub hall (List.mem_singleton_self _)⟩
      refine .of_stmt rfl ?_
      rintro _ ⟨⟩
      exact isStmt_varDecl (Term.isExpr_node rfl (by simp) rfl fun sub hsub => hmade.of_mem hsub)

theorem Retype.exchange (h : Retype old fresh) : Term.Exchange strict old fresh := by
  cases h with
  | name =>
      refine .of_expr rfl (Term.isExpr_node rfl (by simp) rfl (by simp)) (fun _ => rfl) ?_
      exact fun hboolean => .of_ne_paren (by simp) (Term.all_isBoolean_of_ne rfl (by simp)) rfl
  | synonym =>
      refine .of_stmt rfl ?_
      rintro _ ⟨⟩
      exact isStmt_varDecl (Term.isExpr_node rfl (by simp) rfl (by simp))

end LocalTable

namespace TwoWaySwitch

/-- A group of a switch in order: its labels are expressions and its statements are
statements. -/
structure Group.IsSound (strict : Bool) (group : Group Term) : Prop where
  labels : ∀ label, label ∈ group.labels → label.IsExpr strict ∧
    (strict = true → label.isPlain = true)
  stmts : ∀ stmt, stmt ∈ group.stmts → stmt.IsStmt strict

theorem isConstant_of_constant {label : Term} {typeText : String}
    (h : TestForm.ofType label.type = .constant typeText) : label.isConstant = true := by
  unfold Term.isConstant
  unfold TestForm.ofType at h
  split at h
  · cases h
  · next type htype =>
      split at h
      · cases h
      · split at h
        · next hsort => simp [htype, hsort]
        · cases h

theorem isNaming_of_constant {label : Term} {typeText : String}
    (h : TestForm.ofType label.type = .constant typeText) (hplain : label.isPlain = true) :
    label.head.isNaming = true := by
  have hconstant := isConstant_of_constant h
  unfold Term.isPlain at hplain
  split at hplain
  · next text binding hhead => rw [hhead]; rfl
  · simp [hconstant] at hplain

theorem isExpr_labelTerm {subject label : Term} (hsubject : subject.IsExpr strict)
    (hlabel : label.IsExpr strict) (hplain : strict = true → label.isPlain = true) :
    (labelTerm subject label).IsExpr strict := by
  unfold labelTerm
  split
  · exact hlabel.call (by simpa using hsubject)
  · next typeText htype =>
      obtain ⟨hqualifier, hnaming⟩ := @Term.isExpr_typeName strict typeText
      refine Term.isExpr_chain ?_ (by simp)
      have hconstant : (Term.qualified (.typeName typeText) label).IsExpr strict := by
        exact Term.isExpr_qualified hqualifier hlabel
          (fun hstrict => ⟨hnaming, isNaming_of_constant htype (hplain hstrict)⟩)
      intro term hterm
      rcases List.mem_cons.mp hterm with rfl | hterm
      · exact hsubject
      · rw [List.mem_singleton.mp hterm]
        exact hconstant
  · refine Term.isExpr_chain ?_ (by simp)
    intro term hterm
    rcases List.mem_cons.mp hterm with rfl | hterm
    · exact hsubject.wrap _
    · rw [List.mem_singleton.mp hterm]
      exact hlabel

theorem isStmt_statementTerm {subject : Term} {group : Group Term} {rest : Option Term}
    (hsubject : subject.IsExpr strict) (hgroup : group.IsSound strict)
    (htest : group.labels ≠ [] ∨ (rest = none ∧ group.hasDefault = true))
    (hrest : ∀ stmt, stmt ∈ rest → stmt.IsStmt strict) {new : Term}
    (hnew : new ∈ statementTerm subject group rest) : new.IsStmt strict := by
  have hblock : (Term.block group.stmts).IsStmt strict := Term.isStmt_block hgroup.stmts none
  have hif : group.labels ≠ [] → (Term.ifStmt (groupTerm subject group.labels)
      (.block group.stmts) rest).IsStmt strict := by
    intro hne
    refine Term.isStmt_ifStmt (Term.isExpr_join ?_ (by simpa using hne)) ?_ none
    · intro test htest
      obtain ⟨label, hlabel, rfl⟩ := List.mem_map.mp htest
      obtain ⟨hexpr, hplain⟩ := hgroup.labels label hlabel
      exact isExpr_labelTerm hsubject hexpr hplain
    · intro stmt hstmt
      rcases List.mem_cons.mp hstmt with rfl | hstmt
      · exact hblock
      · exact hrest stmt (by simpa using hstmt)
  rcases statementTerm_cases hnew with ⟨-, rfl⟩ | ⟨hdefault, rfl⟩
  · exact hblock
  · refine hif (htest.resolve_right ?_)
    rintro ⟨hnone, hsome⟩
    rw [hdefault hnone] at hsome
    cases hsome

theorem Group.IsSplit.labels_ne_nil {group : Group Term} (h : group.IsSplit)
    (hdefault : group.hasDefault = false) : group.labels ≠ [] := by
  obtain ⟨item, items, hitems⟩ := List.exists_cons_of_ne_nil h.nonempty
  intro hnil
  have hitem : item.subs = [] :=
    List.flatMap_eq_nil_iff.mp hnil item (by rw [hitems]; exact List.mem_cons_self ..)
  simp [hasDefault, hitems, hitem] at hdefault

/-- A group can be tested, or it is a default group at the end. -/
theorem Group.IsSplit.testable {group : Group Term} {rest : Option Term} (h : group.IsSplit)
    (hlast : group.hasDefault = true → rest = none) :
    group.close.labels ≠ [] ∨ (rest = none ∧ group.close.hasDefault = true) := by
  by_cases hdefault : group.hasDefault = true
  · exact .inr ⟨hlast hdefault, hdefault⟩
  · have hlabels : group.labels ≠ [] := h.labels_ne_nil (by simpa using hdefault)
    exact .inl hlabels

theorem Group.countP_pos_term {group : Group Term} (hsplit : group.IsSplit)
    (hdefault : group.hasDefault = true) : 0 < group.body.countP Term.isDefault := by
  obtain ⟨item, hitem, hempty⟩ := List.any_eq_true.mp hdefault
  refine List.countP_pos_iff.mpr ⟨item, List.mem_append_left _ hitem, ?_⟩
  simp [Term.isDefault, hsplit.items item hitem, hempty]

theorem Group.isSound_close {type : Option TypeDesc} {subject : Term} {body : List Term}
    {group : Group Term}
    (hall : (Term.node .switchStmt type (subject :: body)).all (Term.isSound strict) = true)
    (hsplit : group.IsSplit) (hbody : ∀ item, item ∈ group.body → item ∈ body) :
    group.close.IsSound strict := by
  have hself := Term.holds_of_all hall
  simp only [Term.isSound, Term.isOrderly, Term.head_node, Term.subs_node, Term.slotsFit,
    Bool.and_eq_true, List.all_eq_true] at hself
  have hfollows := hself.1.1.2
  have hsound : ∀ item, item ∈ group.body → item.all (Term.isSound strict) = true :=
    fun item hitem => Term.all_sub hall (List.mem_cons_of_mem _ (hbody item hitem))
  constructor
  · intro label hlabel
    obtain ⟨item, hitem, hsub⟩ := List.mem_flatMap.mp hlabel
    have hitemSound := hsound item (List.mem_append_left _ hitem)
    cases item with
    | node head itemType subs =>
        obtain rfl : head = .caseLabel := hsplit.items _ hitem
        obtain ⟨before, after, rfl⟩ := List.append_of_mem hsub
        have hlabelSelf := Term.holds_of_all hitemSound
        simp only [Term.isSound, Bool.and_eq_true, Bool.or_eq_true, Term.isNamed,
          Term.head_node, Term.subs_node, List.all_eq_true] at hlabelSelf
        refine ⟨⟨Term.isExpression_of_label hlabelSelf.1, Term.all_sub hitemSound hsub⟩, ?_⟩
        intro hstrict
        rcases hlabelSelf.2 with hlax | hnames
        · simp [hstrict] at hlax
        · exact hnames.1 label (by simp)
  · intro stmt hstmt
    have hin : stmt ∈ group.stmts := by
      unfold Group.close Group.trim at hstmt
      dsimp only at hstmt
      split at hstmt
      · exact List.dropLast_subset _ hstmt
      · exact hstmt
    have hmem : stmt ∈ group.body := List.mem_append_right _ hin
    have hslot := hfollows stmt (hbody stmt hmem)
    refine ⟨?_, hsound stmt hmem⟩
    simpa [Head.follows, hsplit.stmts stmt hin] using hslot

theorem isStmt_of_becomes {result : Option Term}
    (hresult : ∀ stmt, stmt ∈ result → stmt.IsStmt strict) (h : Becomes result fresh)
    {new : Term} (hnew : new ∈ fresh) : new.IsStmt strict := by
  rcases mem_of_becomes h hnew with hstmt | hvanished
  · exact hresult new hstmt
  · exact isStmt_of_vanished hvanished hnew

theorem subject_of_switch {type : Option TypeDesc} {subject : Term} {body : List Term}
    (hall : (Term.node .switchStmt type (subject :: body)).all (Term.isSound strict) = true) :
    subject.IsExpr strict ∧ body.countP Term.isDefault ≤ 1 := by
  have hself := Term.holds_of_all hall
  simp only [Term.isSound, Term.isOrderly, Term.head_node, Term.subs_node, Term.slotsFit,
    Term.hasArity, Bool.and_eq_true, decide_eq_true_eq, List.countP_cons] at hself
  exact ⟨⟨hself.1.1.1, Term.all_sub hall (List.mem_cons_self ..)⟩,
    Nat.le_trans (Nat.le_add_right ..) hself.1.2⟩

theorem defaults_of_switch {type : Option TypeDesc} {subject : Term} {first second : Group Term}
    (hall : (Term.node .switchStmt type (subject :: (first.body ++ second.body))).all
      (Term.isSound strict) = true) (hsplit : first.IsSplit) (hsplit' : second.IsSplit)
    (hfirst : first.hasDefault = true) : second.hasDefault = false := by
  have hdefaults := (subject_of_switch hall).2
  rw [List.countP_append] at hdefaults
  rw [← Bool.not_eq_true]
  intro hsecond
  have := Group.countP_pos_term hsplit hfirst
  have := Group.countP_pos_term hsplit' hsecond
  omega

theorem Rewrite.exchange (h : Rewrite old fresh)
    (hall : old.all (Term.isSound strict) = true) : Term.Exchange strict old fresh := by
  cases h with
  | @one type subject group fresh hpassive hsplit hclosed hfresh =>
      refine .of_stmt rfl (fun new hnew => isStmt_of_becomes ?_ hfresh hnew)
      intro stmt hstmt
      exact isStmt_statementTerm (subject_of_switch hall).1
        (Group.isSound_close hall hsplit (fun _ hitem => hitem)) (hsplit.testable fun _ => rfl)
        (by simp) hstmt
  | @two type subject first second fresh hpassive hsplit hsplit' hclosed hclosed' hjump hapart
      hfresh =>
      have hsubject := (subject_of_switch hall).1
      have hfirst : first.close.IsSound strict :=
        Group.isSound_close hall hsplit (fun _ hitem => List.mem_append_left _ hitem)
      have hsecond : second.close.IsSound strict :=
        Group.isSound_close hall hsplit' (fun _ hitem => List.mem_append_right _ hitem)
      refine .of_stmt rfl (fun new hnew => isStmt_of_becomes ?_ hfresh hnew)
      intro stmt hstmt
      unfold inOrder at hstmt
      by_cases hdefault : first.close.hasDefault = true
      · have hnone := defaults_of_switch hall hsplit hsplit' hdefault
        rw [if_pos hdefault] at hstmt
        refine isStmt_statementTerm hsubject hsecond
          (hsplit'.testable fun h => absurd h (by simp [hnone])) ?_ hstmt
        exact fun _ => isStmt_statementTerm hsubject hfirst (hsplit.testable fun _ => rfl) (by simp)
      · rw [if_neg hdefault] at hstmt
        refine isStmt_statementTerm hsubject hfirst (hsplit.testable fun h => absurd h hdefault) ?_
          hstmt
        exact fun _ => isStmt_statementTerm hsubject hsecond (hsplit'.testable fun _ => rfl)
          (by simp)

end TwoWaySwitch

/-! ## Commits -/

namespace Term

inductive Rewritten : Rewriting where
  | switch {old : Term} {fresh : Option Term} (h : TwoWaySwitch.Rewrite old fresh) :
      Rewritten old fresh
  | negation {old : Term} {fresh : Option Term} (h : NegationDescent.Rewrite old fresh) :
      Rewritten old fresh
  | emptiness {old : Term} {fresh : Option Term} (h : EmptinessTest.Rewrite old fresh) :
      Rewritten old fresh
  | set {old : Term} {fresh : Option Term} (h : SetUpdate.Rewrite old fresh) :
      Rewritten old fresh
  | string {old : Term} {fresh : Option Term} (h : StringConversion.Rewrite old fresh) :
      Rewritten old fresh
  | table {old : Term} {fresh : Option Term} (h : LocalTable.Rewrite old fresh) :
      Rewritten old fresh
  | dead {old : Term} {fresh : Option Term} (h : DeadBranch.Rewrite old fresh) :
      Rewritten old fresh

theorem Rewritten.exchange (h : Rewritten old fresh)
    (hall : old.all (isSound strict) = true) : Exchange strict old fresh := by
  cases h with
  | switch h => exact h.exchange hall
  | negation h => exact h.exchange hall
  | emptiness h => exact h.exchange hall
  | set h => exact h.exchange hall
  | string h => exact h.exchange hall
  | table h => exact h.exchange hall
  | dead h => exact h.exchange hall

/-- One commit: names are retyped, and then a rule exchanges one subtree. -/
def Commit (a c : Term) : Prop :=
  ∃ b, Relation.ReflTransGen LocalTable.Retouch a b ∧
    ∃ old fresh, Rewritten old fresh ∧ Swap old fresh b c

theorem Commit.head_eq (h : Commit a b) : b.head = a.head := by
  obtain ⟨middle, htouches, old, fresh, -, hswap⟩ := h
  have hmiddle : middle.head = a.head := by
    clear hswap
    induction htouches with
    | refl => rfl
    | tail _ hlast ih =>
        obtain ⟨_, _, _, htouch⟩ := hlast
        rw [htouch.head_eq, ih]
  rw [hswap.head_eq, hmiddle]

theorem all_isSound_false (term : Term) : term.all (isSound false) = term.all isOrderly := by
  have hsame : isSound false = isOrderly := by
    funext term
    simp [isSound]
  rw [hsame]

/-- A commit keeps every node in order. -/
theorem Commit.sound (h : Commit a b) (hall : a.all (isSound strict) = true) :
    b.all (isSound strict) = true := by
  obtain ⟨middle, htouches, old, fresh, hrewrite, hswap⟩ := h
  have hmiddle : middle.all (isSound strict) = true := by
    clear hswap
    induction htouches with
    | refl => exact hall
    | tail _ hlast ih =>
        obtain ⟨name, retyped, hretype, htouch⟩ := hlast
        exact hretype.exchange.swap htouch ih
  exact (hrewrite.exchange (hswap.all_old hmiddle)).swap hswap hmiddle

end Term

/-! ## The rules of the registry -/

def Tree.Orderly (tree : Tree) : Prop :=
  tree.head = .unit ∧ tree.term.all Term.isOrderly = true

/-- What becomes of the tree when a rule commits an answer. -/
def Tree.Committed (tree later : Tree) : Prop :=
  Term.Commit tree.term later.term

theorem Tree.RewrittenBy.committed {rewriting : Rewriting} {tree later : Tree}
    (hunion : ∀ fresh, rewriting old fresh → Term.Rewritten old fresh)
    (h : tree.RewrittenBy rewriting old later) : tree.Committed later := by
  obtain ⟨fresh, hrewrite, hswap⟩ := h
  exact ⟨tree.term, .refl, old, fresh, hunion fresh hrewrite, hswap⟩

/-- Every offer is answered: the root is left alone, and below it the rule declines or
commits. -/
structure Responsive (respond : Options → NodeId → Build Response) : Prop where
  root : ∀ {options : Options} {base : Store} {id : NodeId} {members : List NodeId},
    id < base.size → base.kind id = .unit members →
    respond options id base = .ok (.decline, base)
  answers : ∀ {options : Options} {base : Store} {tree old : Tree}, base.Holds tree →
    tree.Orderly → old ∈ tree.subtrees → old ≠ tree →
    Answers (respond options old.id) base tree old.id tree.Committed

theorem Tree.all_of_mem {tree below : Tree} {holds : Term → Bool}
    (h : tree.term.all holds = true) (hmem : below ∈ tree.subtrees) :
    below.term.all holds = true := by
  induction tree with
  | node id head type subs ih =>
      rcases mem_subtrees_iff.mp hmem with rfl | ⟨sub, hsub, hin⟩
      · exact h
      · exact ih sub hsub (Term.all_sub h (by simpa using ⟨sub, hsub, rfl⟩)) hin

/-- A property of every node of a term is one of every subtree. -/
theorem Tree.all_iff {tree : Tree} {holds : Term → Bool} :
    tree.term.all holds = true ↔
      ∀ below, below ∈ tree.subtrees → holds below.term = true := by
  constructor
  · exact fun h below hbelow => Term.holds_of_all (Tree.all_of_mem h hbelow)
  · intro h
    induction tree with
    | node id head type subs ih =>
        rw [Tree.term_node, Term.all_node, Bool.and_eq_true, List.all_eq_true]
        refine ⟨by simpa using h _ (Tree.mem_subtrees_self _), ?_⟩
        intro sub hsub
        obtain ⟨below, hbelow, rfl⟩ := List.mem_map.mp hsub
        exact ih below hbelow (fun inner hinner => h inner (Tree.mem_subtrees_of_sub hbelow hinner))

theorem Tree.Orderly.operands_ne_nil {tree below : Tree} {op : InfixOp} (h : tree.Orderly)
    (hbelow : below ∈ tree.subtrees) (hchain : below.head = .chain op) : below.subs ≠ [] := by
  intro hnil
  have hself := Term.holds_of_all (Tree.all_of_mem h.2 hbelow)
  simp only [Term.isOrderly, Tree.head_term, Tree.subs_term, hchain, Term.hasArity, hnil,
    Bool.and_eq_true] at hself
  exact absurd hself.2 (by simp)

namespace Registry

theorem responsive_switch : Responsive TwoWaySwitch.respond where
  root := by
    intro options base id members hlt hkind
    unfold TwoWaySwitch.respond
    rw [Build.bind_ok (Build.run_kindOf hlt), hkind]
    rfl
  answers := by
    intro options base tree old hbase horder hold hne
    refine (TwoWaySwitch.answers hbase hold hne ?_).imp
      (fun later h => h.committed (fun _ => .switch))
    intro hswitch
    have hself := Term.holds_of_all (Tree.all_of_mem horder.2 hold)
    simp only [Term.isOrderly, Tree.head_term, Tree.subs_term, hswitch, Term.hasArity,
      Bool.and_eq_true, decide_eq_true_eq, List.countP_map] at hself
    have hsame : (Term.isDefault ∘ Tree.term) =
        fun item : Tree => item.head == .caseLabel && item.subs.isEmpty := by
      funext item
      simp [Term.isDefault]
    rw [hsame] at hself
    exact hself.2

theorem responsive_negation : Responsive NegationDescent.respond where
  root := by
    intro options base id members hlt hkind
    unfold NegationDescent.respond
    rw [Build.bind_ok (Build.run_kindOf hlt), hkind]
    rfl
  answers := by
    intro options base tree old hbase horder hold hne
    refine (NegationDescent.answers hbase hold hne ?_).imp
      (fun later h => h.committed (fun _ => .negation))
    exact fun below hbelow op hchain => horder.operands_ne_nil hbelow hchain

theorem responsive_emptiness : Responsive EmptinessTest.respond where
  root := by
    intro options base id members hlt hkind
    unfold EmptinessTest.respond
    rw [Build.bind_ok (Build.run_kindOf hlt), Build.bind_ok (Build.run_get base), hkind]
    rfl
  answers := fun hbase _ hold hne =>
    (EmptinessTest.answers hbase hold hne).imp
      (fun _ h => h.committed (fun _ => .emptiness))

theorem responsive_set : Responsive SetUpdate.respond where
  root := by
    intro options base id members hlt hkind
    unfold SetUpdate.respond
    rw [Build.bind_ok (Build.run_kindOf hlt), Build.bind_ok (Build.run_get base), hkind]
    rfl
  answers := fun hbase _ hold hne =>
    (SetUpdate.answers hbase hold hne).imp (fun _ h => h.committed (fun _ => .set))

theorem responsive_string : Responsive StringConversion.respond where
  root := by
    intro options base id members hlt hkind
    unfold StringConversion.respond
    rw [Build.bind_ok (Build.run_kindOf hlt), Build.bind_ok (Build.run_get base), hkind]
    rfl
  answers := fun hbase _ hold hne =>
    (StringConversion.answers hbase hold hne).imp (fun _ h => h.committed (fun _ => .string))

theorem responsive_table : Responsive LocalTable.respond where
  root := by
    intro options base id members hlt hkind
    unfold LocalTable.respond
    rw [Build.bind_ok (Build.run_kindOf hlt), Build.bind_ok (Build.run_get base), hkind]
    rfl
  answers := by
    intro options base tree old hbase _ hold hne
    refine (LocalTable.answers hbase hold hne).imp ?_
    rintro later ⟨middle, fresh, htouches, hrewrite, hswap⟩
    exact ⟨middle, htouches, old.term, fresh, .table hrewrite, hswap⟩

theorem responsive_dead : Responsive DeadBranch.respond where
  root := by
    intro options base id members hlt hkind
    unfold DeadBranch.respond
    rw [Build.bind_ok (Build.run_kindOf hlt), hkind]
    rfl
  answers := fun hbase _ hold hne =>
    (DeadBranch.answers hbase hold hne).imp (fun _ h => h.committed (fun _ => .dead))

/-- Every rule of the registry answers every offer. -/
theorem exists_responsive {rule : Rule Unit} (h : rule ∈ Registry.rules) :
    ∃ name respond, rule = .plain name respond ∧ Responsive respond := by
  simp only [rules, List.mem_cons, List.not_mem_nil, or_false] at h
  rcases h with rfl | rfl | rfl | rfl | rfl | rfl | rfl
  · exact ⟨_, _, rfl, responsive_switch⟩
  · exact ⟨_, _, rfl, responsive_negation⟩
  · exact ⟨_, _, rfl, responsive_emptiness⟩
  · exact ⟨_, _, rfl, responsive_set⟩
  · exact ⟨_, _, rfl, responsive_string⟩
  · exact ⟨_, _, rfl, responsive_table⟩
  · exact ⟨_, _, rfl, responsive_dead⟩

end Registry

end CodeTidy
