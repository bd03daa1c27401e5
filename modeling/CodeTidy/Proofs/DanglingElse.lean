import CodeTidy.Proofs.Invariant

/-!
# Alternatives and the conditionals they belong to

Text has no braces of its own: an `else` is read with the last conditional before it that
has none.  A branch that would take the `else` after it (`Term.isOpen`) must not stand
before one.

Rules take an alternative away, or put a conditional where a switch stood, without a look
at what follows, so a branch in front of an `else` can become open.  It cannot if such a
branch is no choice itself and no loop around one (`Term.endsInChoice`).
-/

namespace CodeTidy

namespace Term

/-- Whether an `else` right after the statement would be read as a part of it. -/
def isOpen : Term → Bool
  | node .ifStmt _ [_, _] => true
  | node .ifStmt _ [_, _, elseBranch] => isOpen elseBranch
  | node .whileStmt _ [_, body] => isOpen body
  | _ => false

def isUnambiguous : Term → Bool
  | node .ifStmt _ [_, thenBranch, _] => !thenBranch.isOpen
  | _ => true

/-- Whether the statement is a conditional or a switch, or a loop around one. -/
def endsInChoice : Term → Bool
  | node .ifStmt _ _ => true
  | node .switchStmt _ _ => true
  | node .whileStmt _ [_, body] => endsInChoice body
  | _ => false

/-- Whether no choice stands unbraced before an alternative. -/
def isSheltered : Term → Bool
  | node .ifStmt _ (_ :: thenBranch :: _ :: _) => !thenBranch.endsInChoice
  | _ => true

theorem endsInChoice_of_isOpen {term : Term} (h : term.isOpen = true) :
    term.endsInChoice = true := by
  fun_induction isOpen term with
  | case1 => rfl
  | case2 => rfl
  | case3 type cond body ih => exact ih h
  | case4 => cases h

theorem isUnambiguous_of_isSheltered {term : Term} (h : term.isSheltered = true) :
    term.isUnambiguous = true := by
  unfold isUnambiguous
  split
  · next thenBranch _ =>
      rw [Bool.not_eq_true']
      by_contra hopen
      simp [isSheltered, endsInChoice_of_isOpen (Bool.eq_true_of_not_eq_false hopen)] at h
  · rfl

/-! ## Expressions and blocks -/

variable {old a b : Term} {fresh : Option Term} {strict : Bool}

theorem endsInChoice_of_isExpression {term : Term} (h : term.head.isExpression = true) :
    term.endsInChoice = false := by
  unfold endsInChoice
  split <;> first | rfl | cases h

/-- There are no statements in an expression. -/
theorem IsExpr.sheltered {term : Term} (h : term.IsExpr strict) :
    term.all isSheltered = true := by
  refine h.all_of fun expr hexpr => ?_
  unfold isSheltered
  split
  · cases hexpr
  · rfl

theorem sheltered_block {type : Option TypeDesc} {stmts : List Term}
    (h : ∀ stmt, stmt ∈ stmts → stmt.all isSheltered = true) :
    (node .block type stmts).all isSheltered = true := by
  rw [all_node, List.all_eq_true.mpr h]
  rfl

theorem sheltered_ifStmt {type : Option TypeDesc} {cond thenBranch : Term}
    {elseBranch : List Term} (hcond : cond.all isSheltered = true)
    (hthen : thenBranch.all isSheltered = true)
    (helse : ∀ stmt, stmt ∈ elseBranch → stmt.all isSheltered = true)
    (hchoice : elseBranch ≠ [] → thenBranch.endsInChoice = false) :
    (node .ifStmt type (cond :: thenBranch :: elseBranch)).all isSheltered = true := by
  have hself : (node .ifStmt type (cond :: thenBranch :: elseBranch)).isSheltered = true := by
    cases elseBranch with
    | nil => rfl
    | cons stmt rest => simp [isSheltered, hchoice]
  rw [all_node, hself, List.all_cons, List.all_cons, hcond, hthen, List.all_eq_true.mpr helse]
  rfl

/-! ## Exchanges -/

theorem endsInChoice_loop {type : Option TypeDesc} {subs : List Term} :
    (node .whileStmt type subs).endsInChoice = true ↔
      ∃ cond body, subs = [cond, body] ∧ body.endsInChoice = true := by
  constructor
  · intro h
    unfold endsInChoice at h
    split at h
    · next heq => cases heq
    · next heq => cases heq
    · next cond body heq =>
        cases heq
        exact ⟨cond, body, rfl, h⟩
    · cases h
  · rintro ⟨cond, body, rfl, hbody⟩
    exact hbody

/-- A slot of a loop is exchanged for one that is no choice, unless the old one was. -/
theorem endsInChoice_slots {type : Option TypeDesc} {before after : List Term} {c d : Term}
    (hslot : d.endsInChoice = true → c.endsInChoice = true)
    (h : (node .whileStmt type (before ++ d :: after)).endsInChoice = true) :
    (node .whileStmt type (before ++ c :: after)).endsInChoice = true := by
  obtain ⟨cond, body, hsubs, hbody⟩ := endsInChoice_loop.mp h
  rw [endsInChoice_loop]
  rcases List.append_eq_cons_iff.mp hsubs with ⟨rfl, hrest⟩ | ⟨before', rfl, hrest⟩
  · cases hrest
    exact ⟨c, body, rfl, hbody⟩
  · rcases List.append_eq_cons_iff.mp hrest.symm with ⟨rfl, hlast⟩ | ⟨before'', rfl, hlast⟩
    · cases hlast
      exact ⟨cond, c, rfl, hslot hbody⟩
    · simp at hlast

/-- A change makes no choice out of what was none. -/
theorem Swap.endsInChoice (h : Swap old fresh a b)
    (hfresh : ∀ new, new ∈ fresh → new.endsInChoice = true → old.endsInChoice = true)
    (hb : b.endsInChoice = true) : a.endsInChoice = true := by
  induction h with
  | @here head type before after hdrop hsuits =>
      cases head
      case ifStmt => rfl
      case switchStmt => rfl
      case whileStmt =>
        cases fresh with
        | none => cases hdrop rfl
        | some new => exact endsInChoice_slots (hfresh new rfl) hb
      all_goals cases hb
  | @deeper head type before after c d hswap ih =>
      cases head
      case ifStmt => rfl
      case switchStmt => rfl
      case whileStmt => exact endsInChoice_slots ih hb
      all_goals cases hb

theorem isSheltered_iff {head : Head} {type : Option TypeDesc} {subs : List Term} :
    (node head type subs).isSheltered = true ↔
      ∀ cond thenBranch elseBranch rest, head = .ifStmt →
        subs = cond :: thenBranch :: elseBranch :: rest → thenBranch.endsInChoice = false := by
  constructor
  · rintro h cond thenBranch elseBranch rest rfl rfl
    simpa [isSheltered] using h
  · intro h
    unfold isSheltered
    split
    · next heq =>
        cases heq
        simp [h _ _ _ _ rfl rfl]
    · rfl

theorem isSheltered_slots {head : Head} {type : Option TypeDesc} {before after : List Term}
    {c d : Term} (hslot : d.endsInChoice = true → c.endsInChoice = true)
    (h : (node head type (before ++ c :: after)).isSheltered = true) :
    (node head type (before ++ d :: after)).isSheltered = true := by
  rw [isSheltered_iff] at h ⊢
  intro cond thenBranch elseBranch rest hhead hsubs
  rcases List.append_eq_cons_iff.mp hsubs with ⟨rfl, hrest⟩ | ⟨before', rfl, hrest⟩
  · cases hrest
    exact h c thenBranch elseBranch rest hhead rfl
  · rcases List.append_eq_cons_iff.mp hrest.symm with ⟨rfl, hlast⟩ | ⟨before'', rfl, hlast⟩
    · cases hlast
      have hc := h cond c elseBranch rest hhead rfl
      by_contra hchoice
      rw [hslot (Bool.eq_true_of_not_eq_false hchoice)] at hc
      cases hc
    · -- the first branch stands before the slot
      obtain ⟨e, rest', hshape⟩ := List.exists_cons_of_ne_nil
        (List.append_ne_nil_of_right_ne_nil before'' (List.cons_ne_nil c after))
      exact h cond thenBranch e rest' hhead (by rw [List.cons_append, List.cons_append, hshape])

theorem isSheltered_drop {head : Head} {type : Option TypeDesc} {before after : List Term}
    (hdrop : head.canDrop before.length = true)
    (h : (node head type (before ++ old :: after)).isSheltered = true) :
    (node head type (before ++ after)).isSheltered = true := by
  rw [isSheltered_iff] at h ⊢
  rintro cond thenBranch elseBranch rest rfl hsubs
  have hlength : before.length = 2 := by simpa [Head.canDrop] using hdrop
  obtain ⟨first, second, rfl⟩ := List.length_eq_two.mp hlength
  cases hsubs
  exact h cond thenBranch old _ rfl rfl

/-- A change keeps the branches sheltered if the new subtree is, and if it is a choice only
where the old one was. -/
theorem Swap.sheltered (h : Swap old fresh a b) (hall : a.all isSheltered = true)
    (hfresh : ∀ new, new ∈ fresh → old.all isSheltered = true →
      new.all isSheltered = true)
    (hchoice : ∀ new, new ∈ fresh → new.endsInChoice = true →
      old.endsInChoice = true) : b.all isSheltered = true := by
  refine h.all hall hfresh ?_ ?_
  · intro head type before after _ hself hdrop _
    cases fresh with
    | none => exact isSheltered_drop (hdrop rfl) hself
    | some new => exact isSheltered_slots (hchoice new rfl) hself
  · intro head type before after c d hcd _ hself
    exact isSheltered_slots (hcd.endsInChoice hchoice) hself

end Term

/-! ## Rules -/

variable {old a b : Term} {fresh : Option Term} {strict : Bool}

theorem Vanished.sheltered (h : Vanished fresh) {new : Term} (hnew : new ∈ fresh) :
    new.all Term.isSheltered = true := by
  cases h <;> cases hnew
  rfl

theorem DeadBranch.Rewrite.sheltered (h : DeadBranch.Rewrite old fresh)
    (horder : old.all (Term.isSound strict) = true) (hall : old.all Term.isSheltered = true)
    {new : Term} (hnew : new ∈ fresh) : new.all Term.isSheltered = true := by
  have hsub : ∀ {sub}, sub ∈ old.subs → sub.all Term.isSheltered = true :=
    fun hmem => Term.all_sub hall hmem
  cases h with
  | takeThen hcond => cases hnew; exact hsub (by simp)
  | takeElse hcond => cases hnew; exact hsub (by simp)
  | dropIf hcond hfresh => exact hfresh.sheltered hnew
  | dropLoop hcond hfresh => exact hfresh.sheltered hnew
  | dropEmpty hthen helse hcond hfresh => exact hfresh.sheltered hnew
  | keepCondition hthen helse hcond =>
      cases hnew
      have hcond := (Term.parts_of_ifStmt horder).1.bare
      rw [Term.exprStmt, Term.all_node, List.all_cons, hcond.sheltered]
      rfl
  | dropElse helse =>
      cases hnew
      exact Term.sheltered_ifStmt (hsub (by simp)) (hsub (by simp)) (by simp) (by simp)
  | @invert type cond thenBranch elseBranch hthen =>
      cases hnew
      have helse : elseBranch.all Term.isSheltered = true := hsub (by simp)
      have hblock : (asBlock elseBranch).all Term.isSheltered = true := by
        unfold asBlock
        split
        · exact helse
        · exact Term.sheltered_block (by simpa using helse)
      exact Term.sheltered_ifStmt
        ((Term.parts_of_ifStmt horder).1.negate _).sheltered hblock (by simp) (by simp)

namespace SetUpdate

theorem sheltered_remains {branch new : Term} (h : branch.all Term.isSheltered = true)
    (hnew : new ∈ remains branch) : new.all Term.isSheltered = true := by
  unfold remains at hnew
  split at hnew
  · cases hnew
    exact Term.sheltered_block (fun stmt hstmt => Term.all_sub h (List.mem_of_mem_tail hstmt))
  · cases hnew

theorem endsInChoice_remains (branch : Term) :
    ((remains branch).getD (.block [])).endsInChoice = false := by
  unfold remains
  split <;> rfl

theorem Rewrite.sheltered (h : Rewrite old fresh)
    (horder : old.all (Term.isSound strict) = true) (hall : old.all Term.isSheltered = true)
    {new : Term} (hnew : new ∈ fresh) : new.all Term.isSheltered = true := by
  have hstmt := h.exchange horder |>.sound new hnew
  have hsub : ∀ {sub}, sub ∈ old.subs → sub.all Term.isSheltered = true :=
    fun hmem => Term.all_sub hall hmem
  cases h with
  | @onlyThen type cond thenBranch stmt call elseBranch hrepeats hthen helse =>
      cases hnew
      exact Term.all_statements (hsub (by simp) : thenBranch.all _ = true)
        (by rw [hthen]; exact List.mem_singleton_self _)
  | @onlyElse type cond thenBranch elseBranch stmt call hrepeats hthen helse =>
      cases hnew
      exact Term.all_statements (hsub (by simp) : elseBranch.all _ = true)
        (by rw [helse]; exact List.mem_singleton_self _)
  | @inThen type cond thenBranch stmt call rest elseBranch hrepeats hthen =>
      cases hnew
      refine Term.sheltered_ifStmt (Term.parts_of_ifStmt hstmt).1.sheltered ?_
        (fun other hother => hsub (by simp [hother])) (fun _ => endsInChoice_remains thenBranch)
      cases hrest : remains thenBranch with
      | some left => exact sheltered_remains (hsub (by simp)) hrest
      | none => rfl
  | @inElse type cond thenBranch elseBranch stmt call rest hrepeats helse =>
      cases hnew
      have hshelter := Term.isSheltered_iff.mp (Term.holds_of_all hall) _ _ _ _ rfl rfl
      refine Term.sheltered_ifStmt (Term.parts_of_ifStmt hstmt).1.sheltered (hsub (by simp)) ?_
        (fun _ => hshelter)
      intro other hother
      exact sheltered_remains (hsub (by simp) : elseBranch.all _ = true) (by simpa using hother)

end SetUpdate

namespace TwoWaySwitch

theorem sheltered_statementTerm {subject : Term} {group : Group Term} {rest : Option Term}
    (h : ∀ stmt, stmt ∈ statementTerm subject group rest → stmt.IsStmt strict)
    (hgroup : ∀ stmt, stmt ∈ group.stmts → stmt.all Term.isSheltered = true)
    (hrest : ∀ stmt, stmt ∈ rest → stmt.all Term.isSheltered = true) {new : Term}
    (hnew : new ∈ statementTerm subject group rest) : new.all Term.isSheltered = true := by
  have hstmt := (h new hnew).sound
  have hblock := @Term.sheltered_block none _ hgroup
  rcases statementTerm_cases hnew with ⟨-, rfl⟩ | ⟨-, rfl⟩
  · exact hblock
  · exact Term.sheltered_ifStmt (Term.parts_of_ifStmt hstmt).1.sheltered hblock
      (by simpa using hrest) (fun _ => rfl)

theorem sheltered_conditionalTerm {subject : Term} {groups : List (Group Term)}
    (h : ∀ stmt, stmt ∈ conditionalTerm subject groups → stmt.IsStmt strict)
    (hgroups : ∀ group, group ∈ groups → ∀ stmt, stmt ∈ group.stmts →
      stmt.all Term.isSheltered = true) {new : Term}
    (hnew : new ∈ conditionalTerm subject groups) : new.all Term.isSheltered = true := by
  induction groups generalizing new with
  | nil => cases hnew
  | cons group groups ih =>
      refine sheltered_statementTerm h (hgroups group (List.mem_cons_self ..)) ?_ hnew
      intro stmt hstmt
      exact ih (fun other hother => isStmt_of_rest h hother)
        (fun other hother => hgroups other (List.mem_cons_of_mem _ hother)) hstmt

theorem Rewrite.sheltered (h : Rewrite old fresh)
    (horder : old.all (Term.isSound strict) = true) (hall : old.all Term.isSheltered = true)
    {new : Term} (hnew : new ∈ fresh) : new.all Term.isSheltered = true := by
  have hexchange := h.exchange horder
  obtain ⟨type, subject, body, groups, rfl, hfresh, hgroups⟩ := h.exists_groups
  rcases mem_of_becomes hfresh hnew with hresult | hvanished
  · refine @sheltered_conditionalTerm strict subject groups ?_ ?_ new hresult
    · intro other hother
      obtain rfl : other = new := Option.mem_unique hother hresult
      exact ⟨hexchange.statement rfl other hnew, hexchange.sound other hnew⟩
    · intro group hgroup other hother
      exact Term.all_sub hall (List.mem_cons_of_mem _ ((hgroups group hgroup).stmts other hother))
  · exact hvanished.sheltered hnew

end TwoWaySwitch

/-! ## Commits and runs -/

namespace Term

theorem Exchanged.sheltered (h : Exchanged old fresh) (horder : old.all isOrderly = true)
    (hall : old.all isSheltered = true) {new : Term} (hnew : new ∈ fresh) :
    new.all isSheltered = true := by
  have hsound := (all_isSound_false old).trans horder
  by_cases hexpr : old.head.isExpression = true
  · cases hnew
    exact (h.isExpr horder hexpr).sheltered
  · cases h with
    | retype h => cases h <;> (cases hnew; rfl)
    | rule h =>
        cases h with
        | switch h => exact h.sheltered hsound hall hnew
        | set h => exact h.sheltered hsound hall hnew
        | dead h => exact h.sheltered hsound hall hnew
        | table h =>
            cases h with
            | creation => exact absurd rfl hexpr
            | initializer =>
                cases hnew
                exact hall
        | negation h => cases h; exact absurd rfl hexpr
        | emptiness h => cases h; exact absurd rfl hexpr
        | string h => cases h <;> exact absurd rfl hexpr

/-- An exchange makes no choice out of what was none. -/
theorem Exchanged.endsInChoice (h : Exchanged old fresh) (horder : old.all isOrderly = true)
    {new : Term} (hnew : new ∈ fresh) (hchoice : new.endsInChoice = true) :
    old.endsInChoice = true := by
  by_cases hexpr : old.head.isExpression = true
  · cases hnew
    rw [endsInChoice_of_isExpression (h.isExpr horder hexpr).head] at hchoice
    cases hchoice
  · cases h with
    | retype h => cases h <;> (cases hnew; cases hchoice)
    | rule h =>
        cases h with
        | switch h => cases h <;> rfl
        | set h => cases h <;> rfl
        | dead h =>
            cases h
            case dropLoop hcond hfresh =>
              cases hfresh with
              | slot => cases hnew
              | block => cases hnew; cases hchoice
            all_goals rfl
        | table h => cases h <;> (cases hnew; cases hchoice)
        | negation h => cases h; exact absurd rfl hexpr
        | emptiness h => cases h; exact absurd rfl hexpr
        | string h => cases h <;> exact absurd rfl hexpr

theorem Exchanged.swap_sheltered (h : Exchanged old fresh) (hswap : Swap old fresh a b)
    (horder : a.all isOrderly = true) (hall : a.all isSheltered = true) :
    b.all isSheltered = true :=
  hswap.sheltered hall
    (fun _ hnew hold => h.sheltered (hswap.all_old horder) hold hnew)
    (fun _ hnew => h.endsInChoice (hswap.all_old horder) hnew)

end Term

/-- Every alternative is read with the conditional that it belongs to. -/
def Source.IsUnambiguous (source : Source) : Prop :=
  (source.store.term source.root).all Term.isUnambiguous = true

def Source.IsSheltered (source : Source) : Prop :=
  (source.store.term source.root).all Term.isSheltered = true

instance (source : Source) : Decidable source.IsUnambiguous :=
  inferInstanceAs (Decidable (_ = true))

instance (source : Source) : Decidable source.IsSheltered :=
  inferInstanceAs (Decidable (_ = true))

namespace Engine

variable {engine : Engine} {source : Source} {cancelled : Bool}

/-- If no choice stands unbraced before an alternative, none ever does in a run, and every
alternative is read with its own conditional. -/
theorem run_keeps_alternatives
    (hrules : ∀ rule, rule ∈ engine.rules → rule ∈ Registry.rules)
    (h : source.WellFormed) (hsheltered : source.IsSheltered) :
    ∃ report final stores, engine.run source cancelled = .ok (report, ⟨final, source.root⟩) ∧
      Trail engine.settings.options engine.rules source.root source.store report.log stores
        final ∧
      ∀ store, store ∈ final :: stores →
        Source.IsSheltered ⟨store, source.root⟩ ∧ Source.IsUnambiguous ⟨store, source.root⟩ := by
  obtain ⟨report, final, stores, hrun, htrail, hkept⟩ :=
    @run_keeps engine source cancelled (fun term => term.all Term.isSheltered = true) hrules
      h.toProper Term.Exchanged.swap_sheltered hsheltered
  refine ⟨report, final, stores, hrun, htrail, ?_⟩
  intro store hstore
  obtain ⟨-, hall⟩ := hkept store hstore
  exact ⟨hall, Term.all_imp (fun _ => Term.isUnambiguous_of_isSheltered) hall⟩

/-- The unit `if (x) { if (b) run(); else { } } else z();`. -/
def bracedChoice : Source where
  store :=
    { nodes := #[
        ⟨.name "x" none, none, some 9, false⟩,
        ⟨.name "b" none, none, some 5, false⟩,
        ⟨.call none "run" [], none, some 3, false⟩,
        ⟨.exprStmt 2, none, some 5, false⟩,
        ⟨.block [], none, some 5, false⟩,
        ⟨.ifStmt 1 3 (some 4), none, some 6, false⟩,
        ⟨.block [5], none, some 9, false⟩,
        ⟨.call none "z" [], none, some 8, false⟩,
        ⟨.exprStmt 7, none, some 9, false⟩,
        ⟨.ifStmt 0 6 (some 8), none, some 10, false⟩,
        ⟨.unit [9], none, none, false⟩] }
  root := 10

/-- The braces around the inner conditional keep the alternative apart. -/
theorem run_keeps_alternatives_braced :
    bracedChoice.IsSheltered ∧ ∃ report final,
      Engine.run ⟨{}, [DeadBranch.rule]⟩ bracedChoice false = .ok (report, ⟨final, 10⟩) ∧
      report.changes = 1 ∧ Source.IsUnambiguous ⟨final, 10⟩ := by
  have hsheltered : bracedChoice.IsSheltered := by decide +kernel
  obtain ⟨report, after, hrun, hchanges⟩ :=
    @exists_outcome false ⟨{}, [DeadBranch.rule]⟩ bracedChoice
      (fun outcome => outcome.1.changes == 1) (by decide +kernel)
  obtain ⟨report', final, stores, hrun', -, hkept⟩ :=
    @run_keeps_alternatives ⟨{}, [DeadBranch.rule]⟩ bracedChoice false
      (by simp [Registry.rules]) (by decide +kernel) hsheltered
  rw [hrun'] at hrun
  cases hrun
  exact ⟨hsheltered, report, final, hrun', eq_of_beq hchanges,
    (hkept final (List.mem_cons_self ..)).2⟩

/-- The unit `if (x) if (b) run(); else { } else z();`. -/
def unbracedChoice : Source where
  store :=
    { nodes := #[
        ⟨.name "x" none, none, some 8, false⟩,
        ⟨.name "b" none, none, some 5, false⟩,
        ⟨.call none "run" [], none, some 3, false⟩,
        ⟨.exprStmt 2, none, some 5, false⟩,
        ⟨.block [], none, some 5, false⟩,
        ⟨.ifStmt 1 3 (some 4), none, some 8, false⟩,
        ⟨.call none "z" [], none, some 7, false⟩,
        ⟨.exprStmt 6, none, some 8, false⟩,
        ⟨.ifStmt 0 5 (some 7), none, some 9, false⟩,
        ⟨.unit [8], none, none, false⟩] }
  root := 9

/-- Without its own alternative, the inner conditional takes the one after it. -/
theorem run_loses_alternative :
    unbracedChoice.WellFormed ∧ unbracedChoice.IsUnambiguous ∧
      ∃ report after, Engine.run ⟨{}, [DeadBranch.rule]⟩ unbracedChoice false =
        .ok (report, after) ∧ ¬ after.IsUnambiguous :=
  ⟨by decide +kernel, by decide +kernel, _, _, rfl, by decide +kernel⟩

end Engine

end CodeTidy
