import CodeTidy.Proofs.Refinement
import CodeTidy.Proofs.Invariant

/-!
# Rules show nothing

The subtree that a rule puts in the place of another refines it.
-/

namespace CodeTidy

namespace Run

/-- A computation that leaves the machine as it is. -/
def Still {α : Type} (f : Run α) : Prop :=
  ∀ machine value later, f machine = some (value, later) → later = machine

def Negates (f g : Run Value) : Prop :=
  ∀ machine value later, f machine = some (.bool value, later) →
    g machine = some (.bool !value, later)

variable {op dual : InfixOp} {fs gs : List (Run Value)}

theorem chainFrom_cons_of_stop {stop : Bool} (hstop : op.stop? = some stop) {start : Value}
    {f : Run Value} {machine : Machine} {result : Value × Machine} :
    chainFrom op start (f :: fs) machine = some result ↔
      ∃ flag, start = .bool flag ∧ if flag = stop then result = (.bool stop, machine) else
        ∃ flag' middle, f machine = some (.bool flag', middle) ∧
          chainFrom op (.bool flag') fs middle = some result := by
  have hbool : ∀ {value : Value} {flag : Bool}, value.asBool? = some flag ↔
      value = .bool flag := by
    intro value flag
    cases value <;> simp [Value.asBool?]
  rw [chainFrom]
  simp only [hstop]
  rw [bind_eq_some]
  constructor
  · rintro ⟨flag, middle, hlift, hrun⟩
    obtain ⟨hflag, rfl⟩ := lift_eq_some.mp hlift
    refine ⟨flag, hbool.mp hflag, ?_⟩
    split
    · next hsame =>
        rw [if_pos hsame] at hrun
        exact pure_eq_some.mp hrun
    · next hsame =>
        rw [if_neg hsame] at hrun
        obtain ⟨next, last, hnext, hrun⟩ := bind_eq_some.mp hrun
        obtain ⟨flag', last', hlift, hrest⟩ := bind_eq_some.mp hrun
        obtain ⟨hflag', rfl⟩ := lift_eq_some.mp hlift
        rw [hbool.mp hflag'] at hnext
        exact ⟨flag', _, hnext, hrest⟩
  · rintro ⟨flag, rfl, hrun⟩
    refine ⟨flag, machine, lift_some flag machine, ?_⟩
    split
    · next hsame =>
        rw [if_pos hsame] at hrun
        exact pure_eq_some.mpr hrun
    · next hsame =>
        rw [if_neg hsame] at hrun
        obtain ⟨flag', middle, hnext, hrun⟩ := hrun
        exact bind_eq_some.mpr ⟨_, middle, hnext,
          bind_eq_some.mpr ⟨flag', middle, lift_some flag' middle, hrun⟩⟩

/-- One more operand of an operator that evaluates all of them. -/
theorem chainFrom_cons (hstop : op.stop? = none) {start : Value} {f : Run Value}
    {machine : Machine} {result : Value × Machine} :
    chainFrom op start (f :: fs) machine = some result ↔
      ∃ next middle combined, f machine = some (next, middle) ∧
        start.binary? op next = some combined ∧ chainFrom op combined fs middle = some result := by
  rw [chainFrom]
  simp only [hstop]
  rw [bind_eq_some]
  constructor
  · rintro ⟨next, middle, hnext, hrun⟩
    obtain ⟨combined, last, hlift, hrest⟩ := bind_eq_some.mp hrun
    obtain ⟨hcombined, rfl⟩ := lift_eq_some.mp hlift
    exact ⟨next, _, combined, hnext, hcombined, hrest⟩
  · rintro ⟨next, middle, combined, hnext, hcombined, hrun⟩
    exact ⟨next, middle, hnext, bind_eq_some.mpr
      ⟨combined, middle, lift_eq_some.mpr ⟨hcombined, rfl⟩, hrun⟩⟩

theorem still_chainFrom (h : ∀ f, f ∈ fs → Still f) (start : Value) :
    Still (chainFrom op start fs) := by
  induction fs generalizing start with
  | nil =>
      intro machine value later hrun
      cases hrun
      rfl
  | cons f fs ih =>
      intro machine value later hrun
      have hf := h f (List.mem_cons_self ..)
      have hfs := ih fun g hg => h g (List.mem_cons_of_mem _ hg)
      cases hstop : op.stop? with
      | some stop =>
          obtain ⟨flag, -, hrun⟩ := (chainFrom_cons_of_stop hstop).mp hrun
          split at hrun
          · cases hrun
            rfl
          · obtain ⟨flag', middle, hnext, hrun⟩ := hrun
            rw [hfs _ _ _ _ hrun]
            exact hf _ _ _ hnext
      | none =>
          obtain ⟨next, middle, combined, hnext, -, hrun⟩ := (chainFrom_cons hstop).mp hrun
          rw [hfs _ _ _ _ hrun]
          exact hf _ _ _ hnext

theorem still_chain (h : ∀ f, f ∈ fs → Still f) : Still (chain op fs) := by
  cases fs with
  | nil =>
      intro machine value later hrun
      cases hrun
  | cons f fs =>
      intro machine value later hrun
      obtain ⟨first, middle, hfirst, hrest⟩ := bind_eq_some.mp hrun
      rw [still_chainFrom (fun g hg => h g (List.mem_cons_of_mem _ hg)) _ _ _ _ hrest]
      exact h f (List.mem_cons_self ..) _ _ _ hfirst

theorem stop?_of_dual (h : op.dual? = some dual) :
    dual.stop? = op.stop?.map (fun stop => !stop) := by
  cases op <;> cases h <;> rfl

theorem binary?_of_dual (h : op.dual? = some dual) (hstop : op.stop? = none) {a b : Value}
    {result : Value} (hresult : Value.binary? op a b = some result) :
    ∃ x y z, a = .bool x ∧ b = .bool y ∧ result = .bool z ∧
      Value.binary? dual (.bool !x) (.bool !y) = some (.bool !z) := by
  cases op <;> cases h <;> cases hstop
  · cases a <;> cases b <;> cases hresult
    exact ⟨_, _, _, rfl, rfl, rfl, by simp [Value.binary?]⟩
  · cases a <;> cases b <;> cases hresult
    exact ⟨_, _, _, rfl, rfl, rfl, by simp [Value.binary?]⟩

theorem chainFrom_dual (hdual : op.dual? = some dual) (h : List.Forall₂ Negates fs gs)
    {start : Value} {machine later : Machine} {result : Bool}
    (hrun : chainFrom op start fs machine = some (.bool result, later)) :
    ∃ flag, start = .bool flag ∧
      chainFrom dual (.bool !flag) gs machine = some (.bool !result, later) := by
  induction h generalizing start machine with
  | nil =>
      cases hrun
      exact ⟨result, rfl, rfl⟩
  | @cons f g fs gs hfirst hrest ih =>
      have hstops := stop?_of_dual hdual
      cases hstop : op.stop? with
      | some stop =>
          rw [hstop] at hstops
          obtain ⟨flag, rfl, hcase⟩ := (chainFrom_cons_of_stop hstop).mp hrun
          refine ⟨flag, rfl, (chainFrom_cons_of_stop hstops).mpr ⟨!flag, rfl, ?_⟩⟩
          by_cases hsame : flag = stop
          · rw [if_pos hsame] at hcase
            cases hcase
            rw [if_pos (by rw [hsame])]
          · rw [if_neg hsame] at hcase
            obtain ⟨flag', middle, hnext, hlater⟩ := hcase
            obtain ⟨_, ⟨⟩, hagain⟩ := ih hlater
            rw [if_neg (by simpa using hsame)]
            exact ⟨!flag', middle, hfirst _ _ _ hnext, hagain⟩
      | none =>
          rw [hstop] at hstops
          obtain ⟨next, middle, combined, hnext, hcombined, hlater⟩ :=
            (chainFrom_cons hstop).mp hrun
          obtain ⟨x, y, z, rfl, rfl, rfl, hnegated⟩ := binary?_of_dual hdual hstop hcombined
          obtain ⟨_, ⟨⟩, hagain⟩ := ih hlater
          exact ⟨x, rfl, (chainFrom_cons hstops).mpr
            ⟨_, middle, _, hfirst _ _ _ hnext, hnegated, hagain⟩⟩

theorem Negates.chain (hdual : op.dual? = some dual) (h : List.Forall₂ Negates fs gs) :
    Negates (Run.chain op fs) (Run.chain dual gs) := by
  intro machine result later hrun
  cases h with
  | nil => cases hrun
  | cons hfirst hrest =>
      obtain ⟨start, middle, hstart, hrun⟩ := bind_eq_some.mp hrun
      obtain ⟨flag, rfl, hlater⟩ := chainFrom_dual hdual hrest hrun
      exact (bind_of_some (hfirst _ _ _ hstart)).trans hlater

end Run

/-! ## Methods -/

namespace Run

theorem invoke_eq_some {receiver : Term} {method : String} {args : List Value}
    {machine later : Machine} {result : Value} (h : method ≠ "valueOf") :
    invoke receiver method args machine = some (result, later) ↔
      ∃ text binding target changed, receiver.bare.head = .name text binding ∧
        machine.vars text = some target ∧ target.invoke? method args = some (result, changed) ∧
        later = { machine with vars := Function.update machine.vars text (some changed) } := by
  unfold invoke
  rw [if_neg (fun hspecial => h hspecial.2)]
  constructor
  · intro hrun
    cases hname : receiver.bare.head with
    | name text binding =>
        rw [hname] at hrun
        obtain ⟨target, middle, hfetch, hrest⟩ := bind_eq_some.mp hrun
        obtain ⟨target, htarget, ⟨⟩⟩ := Option.map_eq_some_iff.mp hfetch
        obtain ⟨⟨result, changed⟩, last, hlift, hend⟩ := bind_eq_some.mp hrest
        obtain ⟨hmethod, rfl⟩ := lift_eq_some.mp hlift
        cases hend
        exact ⟨text, binding, target, changed, rfl, htarget, hmethod, rfl⟩
    | _ =>
        rw [hname] at hrun
        cases hrun
  · rintro ⟨text, binding, target, changed, hname, htarget, hmethod, rfl⟩
    rw [hname]
    refine bind_eq_some.mpr ⟨target, machine, Option.map_eq_some_iff.mpr ⟨target, htarget, rfl⟩, ?_⟩
    exact bind_eq_some.mpr ⟨(result, changed), machine, lift_eq_some.mpr ⟨hmethod, rfl⟩, rfl⟩

/-- A method that tells a size, next to the one that tells whether it is zero. -/
theorem invoke_size {receiver : Term} {method : String} {machine later : Machine} {result : Value}
    (hmethod : method = "size" ∨ method = "length")
    (h : invoke receiver method [] machine = some (result, later)) :
    ∃ size : Nat, result = .int size ∧ later = machine ∧
      invoke receiver "isEmpty" [] machine = some (.bool (decide (size = 0)), machine) := by
  have hne : method ≠ "valueOf" := by
    rcases hmethod with rfl | rfl <;> decide
  obtain ⟨text, binding, target, changed, hname, htarget, hinvoke, rfl⟩ :=
    (invoke_eq_some hne).mp h
  have hself : { machine with vars := Function.update machine.vars text (some target) } =
      machine := by
    rw [← htarget, Function.update_eq_self]
  have hanswer : ∃ size : Nat, result = .int size ∧ changed = target ∧
      target.invoke? "isEmpty" [] = some (.bool (decide (size = 0)), target) := by
    rcases hmethod with rfl | rfl
    · cases target with
      | set items =>
          cases hinvoke
          refine ⟨items.card, rfl, rfl, ?_⟩
          simp [Value.invoke?]
      | _ => cases hinvoke
    · cases target with
      | str characters =>
          cases hinvoke
          refine ⟨characters.length, rfl, rfl, ?_⟩
          simp [Value.invoke?]
      | _ => cases hinvoke
  obtain ⟨size, rfl, rfl, hempty⟩ := hanswer
  refine ⟨size, rfl, hself, (invoke_eq_some (by decide)).mpr ?_⟩
  exact ⟨text, binding, changed, changed, hname, htarget, hempty, hself.symm⟩

end Run

/-! ## Constructed expressions -/

namespace Term

variable {term : Term} {terms : List Term}

theorem eval_bare (term : Term) : term.bare.eval = term.eval := by
  induction term with
  | node head type subs ih =>
      unfold bare
      split
      · next type' inner heq =>
          cases heq
          exact ih inner (List.mem_singleton_self _)
      · rfl

theorem eval_of_intLiteral? {value : Int} (h : term.intLiteral? = some value) :
    term.eval = pure (.int value) := by
  unfold intLiteral? at h
  rw [← eval_bare]
  cases hbare : term.bare with
  | node head type subs =>
      rw [hbare] at h
      simp only [head_node] at h
      split at h
      · cases h
        rfl
      · cases h

theorem eval_of_boolLiteral? {value : Bool} (h : term.boolLiteral? = some value) :
    term.eval = pure (.bool value) := by
  unfold boolLiteral? at h
  rw [← eval_bare]
  cases hbare : term.bare with
  | node head type subs =>
      rw [hbare] at h
      simp only [head_node] at h
      split at h
      · cases h
        rfl
      · cases h

theorem eval_wrap (outer : Nat) (term : Term) : (term.wrap outer).eval = term.eval := by
  unfold wrap
  split
  · rfl
  · rfl

theorem eval_fit (outer : Option Nat) (term : Term) : (term.fit outer).eval = term.eval := by
  cases outer with
  | none => rfl
  | some outer => exact eval_wrap outer term

theorem eval_chain (op : InfixOp) (type : Option TypeDesc) (terms : List Term) :
    (node (.chain op) type terms).eval = Run.chain op (terms.map eval) := by
  rw [eval, evalAll_eq_map]

theorem eval_join (op : InfixOp) (terms : List Term) :
    (join op terms).eval = Run.chain op (terms.map eval) := by
  unfold join
  split
  · next operand =>
      rw [List.map_singleton]
      exact (bind_pure _).symm
  · have hwrap : eval ∘ wrap op.strength = eval := funext (eval_wrap op.strength)
    rw [chain, eval_chain, List.map_map, hwrap]

/-- A call on a receiver in parentheses; `String.valueOf` is never one. -/
theorem eval_call (receiver : Term) {method : String} (args : List Term)
    (h : method ≠ "valueOf") :
    (receiver.call method args).eval =
      (Run.inTurn (args.map eval) >>= fun values => Run.invoke receiver method values) := by
  have hinvoke : ∀ values, Run.invoke (receiver.wrap Strength.primary) method values =
      Run.invoke receiver method values := by
    intro values
    unfold Run.invoke
    rw [if_neg (fun hspecial => h hspecial.2), if_neg (fun hspecial => h hspecial.2), bare_wrap]
  rw [call, eval, evalAll_eq_map]
  simp only [hinvoke]

theorem still_of_isPassive (h : term.isPassive = true) : Run.Still term.eval := by
  induction term with
  | node head type subs ih =>
      rw [isPassive_node] at h
      intro machine value later hrun
      cases head with
      | literal value =>
          cases hrun
          rfl
      | name text binding =>
          obtain ⟨found, -, heq⟩ := Option.map_eq_some_iff.mp hrun
          cases heq
          rfl
      | paren =>
          rcases subs with _ | ⟨inner, _ | _⟩
          · cases hrun
          · exact ih inner (by simp) (by simpa using h) _ _ _ hrun
          · cases hrun
      | prefixed op =>
          rcases subs with _ | ⟨operand, _ | _⟩
          · cases hrun
          · obtain ⟨found, middle, hfound, hlift⟩ := Run.bind_eq_some.mp hrun
            obtain ⟨-, rfl⟩ := Run.lift_eq_some.mp hlift
            have hoperand : operand.isPassive = true := by
              simpa using (Bool.and_eq_true_iff.mp h).2
            exact ih operand (by simp) hoperand _ _ _ hfound
          · cases hrun
      | chain op =>
          rw [eval_chain] at hrun
          refine Run.still_chain ?_ _ _ _ hrun
          intro f hf
          obtain ⟨sub, hsub, rfl⟩ := List.mem_map.mp hf
          exact ih sub hsub (List.all_eq_true.mp h sub hsub)
      | qualified => cases hrun
      | field label => cases hrun
      | _ => cases h

/-! ## Negations -/

theorem negates_not (term : Term) : Run.Negates term.eval term.not.eval := by
  intro machine value later hrun
  rw [← eval_wrap Strength.unary] at hrun
  exact Run.bind_eq_some.mpr ⟨_, later, hrun, rfl⟩

theorem binary?_of_inverse {op inverse : InfixOp} (h : op.inverse? = some inverse) {a b : Value}
    {value : Bool} (hvalue : Value.binary? op a b = some (.bool value)) :
    Value.binary? inverse a b = some (.bool !value) := by
  cases op <;> cases h
  all_goals first
    | cases hvalue
      simp [Value.binary?]
    | cases a <;> cases b <;> cases hvalue
      simp only [Value.binary?, ge_iff_le, gt_iff_lt, ← decide_not, not_lt, not_le]

theorem chain_pair {op : InfixOp} (hstop : op.stop? = none) {f g : Run Value} {machine : Machine}
    {result : Value × Machine} :
    Run.chain op [f, g] machine = some result ↔
      ∃ left middle right, f machine = some (left, middle) ∧ g middle = some (right, result.2) ∧
        left.binary? op right = some result.1 := by
  unfold Run.chain
  rw [Run.bind_eq_some]
  constructor
  · rintro ⟨left, middle, hleft, hrest⟩
    obtain ⟨right, last, combined, hright, hcombined, hend⟩ := (Run.chainFrom_cons hstop).mp hrest
    cases hend
    exact ⟨left, middle, right, hleft, hright, hcombined⟩
  · rintro ⟨left, middle, right, hleft, hright, hcombined⟩
    exact ⟨left, middle, hleft, (Run.chainFrom_cons hstop).mpr
      ⟨right, result.2, result.1, hright, hcombined, rfl⟩⟩

theorem stop?_of_inverse {op inverse : InfixOp} (h : op.inverse? = some inverse) :
    op.stop? = none ∧ inverse.stop? = none := by
  cases op <;> cases h <;> exact ⟨rfl, rfl⟩

theorem negates_negate (invert : Bool) (term : Term) :
    Run.Negates term.eval (term.negate invert).eval := by
  unfold negate
  split
  · next type operand hbare =>
      intro machine value later hrun
      rw [← eval_bare, hbare] at hrun
      obtain ⟨found, middle, hfound, hlift⟩ := Run.bind_eq_some.mp hrun
      obtain ⟨hvalue, rfl⟩ := Run.lift_eq_some.mp hlift
      cases found <;> cases hvalue
      simpa using hfound
  · next value type subs hbare =>
      intro machine value' later hrun
      rw [← eval_bare, hbare] at hrun
      cases hrun
      rfl
  · next op type left right hbare =>
      split
      · next inverse hinverse =>
          have hop : op.inverse? = some inverse := by
            split at hinverse
            · exact hinverse
            · cases hinverse
          obtain ⟨hstop, hstop'⟩ := stop?_of_inverse hop
          intro machine value later hrun
          rw [← eval_bare, hbare, eval_chain] at hrun
          obtain ⟨a, middle, b, hleft, hright, hvalue⟩ := (chain_pair hstop).mp hrun
          rw [chain, eval_chain]
          exact (chain_pair hstop').mpr ⟨a, middle, b, hleft, hright, binary?_of_inverse hop hvalue⟩
      · exact negates_not term
  · exact negates_not term

theorem negates_push (term : Term) : Run.Negates term.eval term.push.eval := by
  induction term with
  | node head type subs ih =>
      rcases push_form (.node head type subs) with
        ⟨_, inner, ⟨⟩⟩ | ⟨op, dual, _, _, ⟨⟩, hdual⟩ | ⟨-, hnegate⟩
      · rw [push_paren]
        exact ih inner (List.mem_singleton_self _)
      · rw [push_of_dual type subs hdual, eval_chain]
        have hjoin : (join dual (subs.map push)).paren.eval =
            Run.chain dual (subs.map (eval ∘ push)) := by
          rw [← List.map_map]
          exact eval_join dual _
        rw [hjoin]
        refine Run.Negates.chain hdual ?_
        rw [List.forall₂_map_left_iff, List.forall₂_map_right_iff, List.forall₂_same]
        exact ih
      · rw [hnegate]
        exact negates_negate _ _

/-! ## Exchanged subtrees -/

variable {strict : Bool} {old new : Term} {fresh : Option Term}

theorem exec_of_isExpression (h : term.head.isExpression = true) : term.exec = failure := by
  cases term with
  | node head type subs =>
      cases head <;> first
        | rfl
        | cases h

theorem eval_of_isStatement (h : term.head.isStatement = true) : term.eval = failure := by
  cases term with
  | node head type subs =>
      cases head <;> first
        | rfl
        | cases h

theorem bare_of_isStatement (h : term.head.isStatement = true) : term.bare = term := by
  apply bare_of_ne_paren
  intro hparen
  rw [hparen] at h
  cases h

theorem name_of_isStatement (h : term.head.isStatement = true) (text : String)
    (binding : Option BindingId) : term.bare.head ≠ .name text binding := by
  rw [bare_of_isStatement h]
  intro hname
  rw [hname] at h
  cases h

theorem Refines.of_expr (hexchange : Exchange strict old (some new))
    (hold : old.head.isExpression = true) (hname : old.head.isNaming = false)
    (hparen : old.head ≠ .paren) (h : Run.Refines old.eval new.eval) : Refines old new := by
  refine .of_eval (exec_of_isExpression hold) ?_ (head_ne_caseLabel (.inl hold))
    (head_ne_caseLabel (.inl (hexchange.expression hold new rfl))) h
  intro text binding hhead
  rw [bare_of_ne_paren hparen] at hhead
  rw [hhead] at hname
  cases hname

theorem Refines.of_stmt (hexchange : Exchange strict old (some new))
    (hold : old.head.isStatement = true) (h : Run.Refines old.exec new.exec) : Refines old new :=
  .of_exec (eval_of_isStatement hold) (name_of_isStatement hold) (head_ne_caseLabel (.inr hold))
    (head_ne_caseLabel (.inr (hexchange.statement hold new rfl))) h

theorem Idle.of_stmt (hold : old.head.isStatement = true) (h : Run.Idle old.exec) : old.Idle :=
  ⟨eval_of_isStatement hold, h, head_ne_caseLabel (.inr hold), name_of_isStatement hold⟩

/-- The new subtree shows what the old one does; a subtree that is dropped does nothing. -/
def Conserves (old : Term) (fresh : Option Term) : Prop :=
  (∀ new, new ∈ fresh → Refines old new) ∧ (fresh = none → old.Idle)

theorem Conserves.of_some (h : Refines old new) : Conserves old (some new) := by
  refine ⟨?_, by simp⟩
  rintro _ ⟨⟩
  exact h

end Term

/-! ## Expressions -/

variable {strict : Bool} {old : Term} {fresh : Option Term}

theorem StringConversion.Rewrite.conserves (h : StringConversion.Rewrite old fresh)
    (hall : old.all (Term.isSound strict) = true) : Term.Conserves old fresh := by
  have hexchange := h.exchange hall
  have hvalueOf : ∀ {value : Term} {machine later : Machine} {found : Value},
      value.eval machine = some (found, later) →
      (Term.call (.bareName "String") "valueOf" [value]).eval machine =
        some (.str found.render, later) := by
    intro value machine later found hfound
    exact Run.bind_eq_some.mpr ⟨[found], later,
      Run.bind_eq_some.mpr ⟨found, later, hfound, rfl⟩, rfl⟩
  cases h with
  | @left type stringType value =>
      refine .of_some (.of_expr hexchange rfl rfl (by simp) ?_)
      rintro machine ⟨result, later⟩ hrun
      rw [Term.eval_chain] at hrun
      obtain ⟨a, middle, b, hleft, hright, hvalue⟩ := (Term.chain_pair rfl).mp hrun
      cases hleft
      rw [hvalueOf hright]
      simpa [Value.binary?, Value.ofLiteral, Value.render] using hvalue
  | @right type stringType value =>
      refine .of_some (.of_expr hexchange rfl rfl (by simp) ?_)
      rintro machine ⟨result, later⟩ hrun
      rw [Term.eval_chain] at hrun
      obtain ⟨a, middle, b, hleft, hright, hvalue⟩ := (Term.chain_pair rfl).mp hrun
      cases hright
      rw [hvalueOf hleft]
      cases a <;> simpa [Value.binary?, Value.ofLiteral, Value.render] using hvalue

theorem NegationDescent.Rewrite.conserves (h : NegationDescent.Rewrite old fresh)
    (hall : old.all (Term.isSound strict) = true) : Term.Conserves old fresh := by
  have hexchange := h.exchange hall
  cases h with
  | @push type operand outer hcovered =>
      refine .of_some (.of_expr hexchange rfl rfl (by simp) ?_)
      rintro machine ⟨result, later⟩ hrun
      rw [Term.eval_fit]
      obtain ⟨found, middle, hfound, hlift⟩ := Run.bind_eq_some.mp hrun
      obtain ⟨hvalue, rfl⟩ := Run.lift_eq_some.mp hlift
      cases found <;> cases hvalue
      exact operand.negates_push _ _ _ hfound

theorem Value.binary?_swapped {op : InfixOp} {a b : Value} (h : op.swapped.isComparison = true) :
    Value.binary? op a b = Value.binary? op.swapped b a := by
  cases op with
  | equals => exact congrArg (fun same => some (bool same)) (decide_eq_decide.mpr eq_comm)
  | notEquals => exact congrArg (fun same => some (bool same)) (decide_eq_decide.mpr ne_comm)
  | less => cases a <;> cases b <;> rfl
  | greater => cases a <;> cases b <;> rfl
  | lessEquals => cases a <;> cases b <;> rfl
  | greaterEquals => cases a <;> cases b <;> rfl
  | _ => cases h

theorem stop?_of_swapped {op : InfixOp} (h : op.swapped.isComparison = true) :
    op.stop? = none := by
  cases op <;> first
    | rfl
    | cases h

namespace EmptinessTest

def Verdict.holds (size : Nat) : Verdict → Bool
  | .always value => value
  | .empty => decide (size = 0)
  | .notEmpty => !decide (size = 0)

theorem binary?_of_verdict {op : InfixOp} {value : Int} {verdict : Verdict}
    (h : verdict? op value = some verdict) (size : Nat) :
    op.stop? = none ∧ Value.binary? op (.int size) (.int value) =
      some (.bool (verdict.holds size)) := by
  unfold verdict? at h
  split at h <;> cases h
  all_goals
    refine ⟨rfl, ?_⟩
    simp only [Value.binary?, Verdict.holds, Option.some.injEq, Value.bool.injEq, Value.int.injEq,
      ← decide_not, decide_eq_decide, decide_eq_true_eq, decide_eq_false_iff_not, ne_eq]
    omega

theorem isComparison_of_verdict {op : InfixOp} {value : Int} {verdict : Verdict}
    (h : verdict? op value = some verdict) : op.isComparison = true := by
  unfold verdict? at h
  split at h <;> cases h <;> rfl

theorem eval_statement {size receiver : Term} {method : String} {type : Option TypeDesc}
    {machine later : Machine} {found : Value}
    (hbare : size.bare = .node (.call true method) type [receiver])
    (hmethod : method = "size" ∨ method = "length")
    (hrun : size.eval machine = some (found, later)) :
    ∃ count : Nat, found = .int count ∧ later = machine ∧ ∀ verdict,
      (statement receiver verdict).eval machine = some (.bool (verdict.holds count), machine) := by
  rw [← Term.eval_bare, hbare] at hrun
  obtain ⟨args, middle, hargs, hinvoke⟩ := Run.bind_eq_some.mp hrun
  cases hargs
  obtain ⟨count, rfl, rfl, hempty⟩ := Run.invoke_size hmethod hinvoke
  have hcall : (receiver.call "isEmpty" []).eval later =
      some (.bool (decide (count = 0)), later) := by
    rw [Term.eval_call receiver [] (by decide)]
    exact Run.bind_eq_some.mpr ⟨[], later, rfl, hempty⟩
  refine ⟨count, rfl, rfl, ?_⟩
  intro verdict
  cases verdict with
  | always value => rfl
  | empty => exact hcall
  | notEmpty => exact Term.negates_not _ _ _ _ hcall

theorem Rewrite.conserves (h : Rewrite old fresh)
    (hall : old.all (Term.isSound strict) = true) : Term.Conserves old fresh := by
  have hexchange := h.exchange hall
  cases h with
  | @states op type left right receiver verdict outer hreads hpassive =>
      refine .of_some (.of_expr hexchange rfl rfl (by simp) ?_)
      rintro machine ⟨result, later⟩ hrun
      rw [Term.eval_chain] at hrun
      rw [Term.eval_fit]
      rcases hreads with ⟨method, sizeType, value, hbare, hmethod, hliteral, hverdict⟩ |
        ⟨method, sizeType, value, hbare, hmethod, hliteral, hverdict⟩
      · obtain ⟨hstop, -⟩ := binary?_of_verdict hverdict 0
        obtain ⟨a, middle, b, hleft, hright, hvalue⟩ := (Term.chain_pair hstop).mp hrun
        obtain ⟨count, rfl, rfl, hstatement⟩ := eval_statement hbare hmethod hleft
        rw [Term.eval_of_intLiteral? hliteral] at hright
        cases hright
        rw [(binary?_of_verdict hverdict count).2] at hvalue
        cases hvalue
        exact hstatement verdict
      · have hcomparison := isComparison_of_verdict hverdict
        obtain ⟨a, middle, b, hleft, hright, hvalue⟩ :=
          (Term.chain_pair (stop?_of_swapped hcomparison)).mp hrun
        rw [Term.eval_of_intLiteral? hliteral] at hleft
        cases hleft
        obtain ⟨count, rfl, rfl, hstatement⟩ := eval_statement hbare hmethod hright
        rw [Value.binary?_swapped hcomparison, (binary?_of_verdict hverdict count).2] at hvalue
        cases hvalue
        exact hstatement verdict

end EmptinessTest

theorem LocalTable.Rewrite.conserves (h : LocalTable.Rewrite old fresh) :
    Term.Conserves old fresh := by
  have hsame : ∀ terms : List Term, List.Forall₂ Term.Refines terms terms :=
    fun terms => List.forall₂_same.mpr fun term _ => .refl term
  cases h with
  | @creation type args htable => exact .of_some (.node (hsame args))
  | @initializer text binding type made args htable =>
      exact .of_some (.node (.cons (.node (hsame args)) .nil))

theorem LocalTable.Retype.refines (h : LocalTable.Retype old fresh) :
    Term.Conserves old fresh := by
  cases h with
  | name => exact .of_some (.node .nil)
  | synonym => exact .of_some (.node (.cons (.node .nil) .nil))

/-! ## Statements -/

namespace Term

variable {cond thenBranch elseBranch : Term}

def otherwise : Option Term → Run Flow
  | some elseBranch => elseBranch.exec
  | none => pure .normal

theorem exec_ifStmt (type : Option TypeDesc) (cond thenBranch : Term)
    (elseBranch : Option Term) :
    (node .ifStmt type (cond :: thenBranch :: elseBranch.toList)).exec =
      Run.branch cond.eval thenBranch.exec (otherwise elseBranch) := by
  cases elseBranch <;> rfl

theorem exec_of_isEmptyBranch (h : isEmptyBranch (some term) = true) :
    term.exec = pure .normal := by
  cases term with
  | node head type subs =>
      simp only [isEmptyBranch, Option.all_some, head_node, subs_node, Bool.and_eq_true,
        beq_iff_eq, List.isEmpty_iff] at h
      obtain ⟨rfl, rfl⟩ := h
      rfl

theorem otherwise_of_isEmptyBranch {elseBranch : Option Term}
    (h : isEmptyBranch elseBranch = true) : otherwise elseBranch = pure .normal := by
  cases elseBranch with
  | none => rfl
  | some elseBranch => exact exec_of_isEmptyBranch h

/-- A statement that does nothing may leave its slot or an empty block behind. -/
theorem Conserves.of_vanished {old : Term} {fresh : Option Term}
    (hold : old.head.isStatement = true) (hidle : Run.Idle old.exec) (h : Vanished fresh) :
    Conserves old fresh := by
  have hnone : old.Idle := .of_stmt hold hidle
  cases h with
  | slot =>
      refine ⟨?_, fun _ => hnone⟩
      rintro _ ⟨⟩
  | block =>
      refine .of_some (.of_exec (eval_of_isStatement hold) (name_of_isStatement hold)
        (head_ne_caseLabel (.inr hold)) (by simp [block]) ?_)
      exact hnone.refines_normal

end Term

theorem Run.branch_of_bool {f : Run Value} {value : Bool} (h : f = pure (.bool value))
    (thenBranch elseBranch : Run Flow) :
    Run.branch f thenBranch elseBranch = if value then thenBranch else elseBranch := by
  subst h
  cases value <;> rfl

theorem Run.branch_eq_some {f : Run Value} {thenBranch elseBranch : Run Flow} {machine : Machine}
    {result : Flow × Machine} :
    Run.branch f thenBranch elseBranch machine = some result ↔
      ∃ flag middle, f machine = some (.bool flag, middle) ∧
        (if flag then thenBranch else elseBranch) middle = some result := by
  unfold Run.branch
  rw [bind_eq_some]
  constructor
  · rintro ⟨value, middle, hvalue, hrest⟩
    obtain ⟨flag, last, hlift, hend⟩ := bind_eq_some.mp hrest
    obtain ⟨hflag, rfl⟩ := lift_eq_some.mp hlift
    cases value <;> cases hflag
    exact ⟨flag, _, hvalue, hend⟩
  · rintro ⟨flag, middle, hvalue, hend⟩
    exact ⟨.bool flag, middle, hvalue, bind_eq_some.mpr ⟨flag, middle, rfl, hend⟩⟩

theorem Run.sequence_singleton (f : Run Flow) : Run.sequence [f] = f := by
  have hself : ∀ flow : Flow,
      (if flow = .normal then Run.sequence [] else pure flow) = (pure flow : Run Flow) := by
    intro flow
    split
    · next hflow =>
        rw [hflow]
        rfl
    · rfl
  rw [Run.sequence, funext hself]
  exact bind_pure f

theorem Term.exec_eq_statements (branch : Term) :
    branch.exec = Run.sequence (branch.statements.map Term.exec) := by
  cases branch with
  | node head type subs =>
      unfold Term.statements
      split
      · next hhead =>
          obtain rfl : head = .block := hhead
          rw [Term.exec, Term.execAll_eq_map]
          rfl
      · exact (Run.sequence_singleton _).symm

namespace DeadBranch

theorem exec_asBlock (stmt : Term) : (asBlock stmt).exec = stmt.exec := by
  unfold asBlock
  split
  · rfl
  · exact Run.sequence_singleton stmt.exec

theorem Rewrite.conserves (h : Rewrite old fresh)
    (hall : old.all (Term.isSound strict) = true) : Term.Conserves old fresh := by
  have hexchange := h.exchange hall
  cases h with
  | @takeThen type cond thenBranch rest hcond =>
      refine .of_some (.of_stmt hexchange rfl ?_)
      have hcond := Term.eval_of_boolLiteral? hcond
      rcases rest with _ | ⟨elseBranch, _ | _⟩
      · rw [Term.exec, Run.branch_of_bool hcond]
        exact .refl _
      · rw [Term.exec, Run.branch_of_bool hcond]
        exact .refl _
      · exact .of_failure _
  | takeElse hcond =>
      refine .of_some (.of_stmt hexchange rfl ?_)
      rw [Term.exec, Run.branch_of_bool (Term.eval_of_boolLiteral? hcond)]
      exact .refl _
  | dropIf hcond hfresh =>
      refine .of_vanished rfl ?_ hfresh
      rw [Term.exec, Run.branch_of_bool (Term.eval_of_boolLiteral? hcond)]
      exact fun machine result hrun => Run.pure_eq_some.mp hrun
  | @dropLoop type cond body fresh hcond hfresh =>
      refine .of_vanished rfl ?_ hfresh
      intro machine result hrun
      rw [Term.exec] at hrun
      unfold Run.loop Run.loopSteps at hrun
      rw [Run.branch_of_bool (Term.eval_of_boolLiteral? hcond)] at hrun
      exact Run.pure_eq_some.mp hrun
  | dropEmpty hthen helse hcond hfresh =>
      refine .of_vanished rfl ?_ hfresh
      intro machine result hrun
      rw [Term.exec_ifStmt, Term.exec_of_isEmptyBranch hthen,
        Term.otherwise_of_isEmptyBranch helse] at hrun
      obtain ⟨flag, middle, hvalue, hend⟩ := Run.branch_eq_some.mp hrun
      obtain rfl := Term.still_of_isPassive hcond _ _ _ hvalue
      rw [ite_self] at hend
      exact Run.pure_eq_some.mp hend
  | keepCondition hthen helse hcond =>
      refine .of_some (.of_stmt hexchange rfl ?_)
      intro machine result hrun
      rw [Term.exec_ifStmt, Term.exec_of_isEmptyBranch hthen,
        Term.otherwise_of_isEmptyBranch helse] at hrun
      obtain ⟨flag, middle, hvalue, hend⟩ := Run.branch_eq_some.mp hrun
      rw [ite_self] at hend
      rw [← Term.eval_bare] at hvalue
      exact Run.bind_eq_some.mpr ⟨_, middle, hvalue, hend⟩
  | dropElse helse =>
      refine .of_some (.of_stmt hexchange rfl ?_)
      rw [Term.exec, Term.exec, Term.exec_of_isEmptyBranch helse]
      exact .refl _
  | @invert type cond thenBranch elseBranch hthen =>
      refine .of_some (.of_stmt hexchange rfl ?_)
      intro machine result hrun
      rw [Term.exec, Term.exec_of_isEmptyBranch hthen] at hrun
      obtain ⟨flag, middle, hvalue, hend⟩ := Run.branch_eq_some.mp hrun
      rw [Term.ifStmt, Term.exec_ifStmt, exec_asBlock]
      refine Run.branch_eq_some.mpr ⟨!flag, middle, cond.negates_negate _ _ _ _ hvalue, ?_⟩
      cases flag with
      | true => exact hend
      | false => exact hend

end DeadBranch

/-! ## Names and variables -/

/-- The name is resolved to one of the known bindings, or not at all. -/
def Term.isKnown (known : List (String × BindingId)) (term : Term) : Bool :=
  match term.head with
  | .name text (some binding) => known.contains (text, binding)
  | _ => true

/-- Names share a binding exactly when they share their text. -/
def Consistent (known : List (String × BindingId)) : Prop :=
  ∀ x, x ∈ known → ∀ y, y ∈ known → (x.1 = y.1 ↔ x.2 = y.2)

variable {known : List (String × BindingId)}

/-- Two expressions have the same value, and name the same variable if they name one. -/
def Term.Matches (known : List (String × BindingId)) (a b : Term) : Prop :=
  a.all (isKnown known) = true → b.all (isKnown known) = true →
    Run.Refines a.eval b.eval ∧ ∀ text binding, a.bare.head = .name text binding →
      ∃ binding', b.bare.head = .name text binding'

theorem Term.eval_of_bare_head {term : Term} {value : Literal}
    (h : term.bare.head = .literal value) : term.eval = pure (.ofLiteral value) := by
  rw [← eval_bare]
  cases hbare : term.bare with
  | node head type subs =>
      rw [hbare] at h
      obtain rfl : head = .literal value := h
      rfl

theorem Term.eval_of_bare_name {term : Term} {text : String} {binding : Option BindingId}
    (h : term.bare.head = .name text binding) : term.eval = Run.fetch text := by
  rw [← eval_bare]
  cases hbare : term.bare with
  | node head type subs =>
      rw [hbare] at h
      obtain rfl : head = .name text binding := h
      rfl

theorem Term.forall₂_refines_of_matches {xs ys : List Term} (h : List.Forall₂ (Matches known) xs ys)
    (hxs : ∀ x, x ∈ xs → x.all (isKnown known) = true)
    (hys : ∀ y, y ∈ ys → y.all (isKnown known) = true) :
    List.Forall₂ Run.Refines (xs.map eval) (ys.map eval) := by
  induction h with
  | nil => exact .nil
  | cons hfirst _ ih =>
      refine .cons (hfirst (hxs _ (by simp)) (hys _ (by simp))).1 (ih ?_ ?_)
      · exact fun x hx => hxs x (List.mem_cons_of_mem _ hx)
      · exact fun y hy => hys y (List.mem_cons_of_mem _ hy)

/-- What is neither a name nor in parentheses matches what has its value. -/
theorem Term.matches_of_refines {head : Head} {type : Option TypeDesc} {subs : List Term}
    {b : Term} (hparen : head ≠ .paren) (hname : ∀ text binding, head ≠ .name text binding)
    (h : (node head type subs).all (isKnown known) = true → b.all (isKnown known) = true →
      Run.Refines (node head type subs).eval b.eval) :
    Matches known (node head type subs) b := by
  intro ha hb
  refine ⟨h ha hb, fun text binding hbare => ?_⟩
  rw [bare_of_ne_paren (show (node head type subs).head ≠ .paren from hparen)] at hbare
  exact absurd hbare (hname text binding)

/-- Operands that change nothing may be compared the other way round. -/
theorem Term.refines_swapped {op : InfixOp} {type type' : Option TypeDesc} {x y c d : Term}
    (hop : op.isComparison = true) (hx : x.isPassive = true) (hy : y.isPassive = true)
    (hxd : Run.Refines x.eval d.eval) (hyc : Run.Refines y.eval c.eval) :
    Run.Refines (node (.chain op) type [x, y]).eval
      (node (.chain op.swapped) type' [c, d]).eval := by
  have hcomparison : op.swapped.isComparison = true := op.isComparison_swapped.trans hop
  have hstop : op.swapped.stop? = none :=
    stop?_of_swapped (op.swapped.isComparison_swapped.trans hcomparison)
  rw [eval_chain, eval_chain]
  rintro machine ⟨result, later⟩ hrun
  obtain ⟨left, middle, right, hleft, hright, hvalue⟩ :=
    (chain_pair (stop?_of_swapped hcomparison)).mp hrun
  obtain rfl := still_of_isPassive hx _ _ _ hleft
  obtain rfl := still_of_isPassive hy _ _ _ hright
  rw [Value.binary?_swapped hcomparison] at hvalue
  exact (chain_pair hstop).mpr ⟨right, later, left, hyc _ _ hright, hxd _ _ hleft, hvalue⟩

/-- Expressions that are alike have the same value if names stand for what they are bound
to. -/
theorem Term.likeness_matches (hconsistent : Consistent known) : Likeness (Matches known) where
  same := by
    rintro a b rfl - -
    rw [eval_bare, bare_bare]
    exact ⟨.refl _, fun text binding hname => ⟨binding, hname⟩⟩
  paren := by
    intro type inner b h ha hb
    rw [bare_paren]
    exact h (all_sub ha (List.mem_singleton_self _)) hb
  literal := by
    intro value type b h
    refine matches_of_refines (by simp) (by simp) fun _ _ => ?_
    rw [eval_of_bare_head h]
    exact .refl _
  name := by
    intro text text' binding type b h ha hb
    have hown := holds_of_all ha
    have hother := holds_of_all (all_bare hb)
    unfold isKnown at hown hother
    rw [h] at hother
    simp only [head_node, List.contains_iff_mem] at hown hother
    obtain rfl : text = text' := (hconsistent _ hown _ hother).mpr rfl
    rw [eval_of_bare_name h]
    refine ⟨.refl _, ?_⟩
    rw [bare_of_ne_paren (by simp)]
    rintro _ _ ⟨⟩
    exact ⟨_, h⟩
  qualified := by
    intro type subs b
    exact matches_of_refines (by simp) (by simp) fun _ _ => .of_failure _
  field := by
    intro label type subs b
    exact matches_of_refines (by simp) (by simp) fun _ _ => .of_failure _
  prefixed := by
    intro op type type' x y b h hsub
    refine matches_of_refines (by simp) (by simp) fun ha hb => ?_
    have hy := all_bare hb
    rw [h] at hy
    have hxy := (hsub (all_sub ha (List.mem_singleton_self _))
      (all_sub hy (List.mem_singleton_self _))).1
    rw [← eval_bare b, h]
    exact hxy.bind fun value => .refl _
  chain := by
    intro op type type' xs ys b h hsub
    refine matches_of_refines (by simp) (by simp) fun ha hb => ?_
    have hys := all_bare hb
    rw [h] at hys
    rw [← eval_bare b, h, eval_chain, eval_chain]
    exact .chain (forall₂_refines_of_matches hsub (fun x hx => all_sub ha hx)
      (fun y hy => all_sub hys hy))
  swap := by
    intro op type type' x y c d b hop h hpassive hfirst hsecond
    refine matches_of_refines (by simp) (by simp) fun ha hb => ?_
    have hcd := all_bare hb
    rw [h] at hcd
    simp only [List.all_cons, List.all_nil, Bool.and_eq_true, and_true] at hpassive
    rw [← eval_bare b, h]
    have hxd := (hfirst (all_sub ha (by simp)) (all_sub hcd (by simp))).1
    have hyc := (hsecond (all_sub ha (by simp)) (all_sub hcd (by simp))).1
    exact refines_swapped hop hpassive.1 hpassive.2.1 hxd hyc

namespace SetUpdate

/-- A membership test tells whether an item is in a set, and changes nothing. -/
theorem Tests.run {cond receiver argument : Term} {negated : Bool}
    (h : Tests cond receiver argument negated) (hargument : argument.isPassive = true)
    {machine later : Machine} {found : Value} (hrun : cond.eval machine = some (found, later)) :
    later = machine ∧ ∃ text binding items item, receiver.bare.head = .name text binding ∧
      machine.vars text = some (.set items) ∧ argument.eval machine = some (.int item, machine) ∧
      found = .bool (decide (item ∈ items) != negated) := by
  obtain ⟨test, type, htest, hcond⟩ := h
  have hcontains : ∀ {found : Value} {later : Machine},
      test.eval machine = some (found, later) →
      later = machine ∧ ∃ text binding items item, receiver.bare.head = .name text binding ∧
        machine.vars text = some (.set items) ∧ argument.eval machine = some (.int item, machine) ∧
        found = .bool (decide (item ∈ items)) := by
    intro found later hrun
    rw [← Term.eval_bare, htest] at hrun
    obtain ⟨args, middle, hargs, hinvoke⟩ := Run.bind_eq_some.mp hrun
    obtain ⟨value, middle', hvalue, hrest⟩ := Run.bind_eq_some.mp hargs
    cases hrest
    obtain rfl := Term.still_of_isPassive hargument _ _ _ hvalue
    obtain ⟨text, binding, target, changed, hname, htarget, hmethod, rfl⟩ :=
      (Run.invoke_eq_some (by decide)).mp hinvoke
    cases target with
    | set items =>
        cases value <;> cases hmethod
        refine ⟨?_, text, binding, items, _, hname, htarget, hvalue, rfl⟩
        rw [← htarget, Function.update_eq_self]
    | _ => cases value <;> cases hmethod
  rw [← Term.eval_bare] at hrun
  cases negated with
  | false =>
      obtain rfl : test = cond.bare := hcond
      simpa using hcontains hrun
  | true =>
      obtain ⟨type', hnot⟩ := hcond
      rw [hnot] at hrun
      obtain ⟨value, middle, hvalue, hlift⟩ := Run.bind_eq_some.mp hrun
      obtain ⟨hunary, rfl⟩ := Run.lift_eq_some.mp hlift
      obtain ⟨hlater, text, binding, items, item, hname, hitems, hitem, rfl⟩ := hcontains hvalue
      cases hunary
      exact ⟨hlater, text, binding, items, item, hname, hitems, hitem, by simp⟩

/-- The update tells whether it was needed, which is what the condition asks, and changes
nothing if it was not. -/
theorem Repeats.run {cond stmt call : Term} {inThen : Bool} (h : Repeats cond stmt call inThen)
    (hconsistent : Consistent known) (hcond : cond.all (Term.isKnown known) = true)
    (hcall : call.all (Term.isKnown known) = true) {machine later : Machine} {flag : Bool}
    (hrun : cond.eval machine = some (.bool flag, later)) :
    later = machine ∧ ∃ updated, call.eval machine = some (.bool (flag == inThen), updated) ∧
      (flag ≠ inThen → updated = machine) := by
  obtain ⟨receiver, argument, receiver', argument', negated, type, type', htests, hreceiver,
    hargument, -, hbare, halikeReceiver, halikeArgument, -⟩ := h
  have hlike := (Term.likeness_matches hconsistent).congruent
  obtain ⟨rfl, text, binding, items, item, hname, hitems, hitem, hflag⟩ :=
    htests.run hargument hrun
  have hparts : receiver.all (Term.isKnown known) = true ∧
      argument.all (Term.isKnown known) = true := htests.all hcond
  have hparts' : ∀ part, part ∈ [receiver', argument'] →
      part.all (Term.isKnown known) = true := by
    have hall := Term.all_bare hcall
    rw [hbare] at hall
    exact fun part hpart => Term.all_sub hall hpart
  have hitem' : argument'.eval later = some (.int item, later) :=
    (halikeArgument _ hlike hargument hparts.2 (hparts' _ (by simp))).1 _ _ hitem
  obtain ⟨binding', hname'⟩ :=
    (halikeReceiver _ hlike hreceiver hparts.1 (hparts' _ (by simp))).2 _ _ hname
  -- the call has the answer and the effect that the method has on the set
  have hinvoke : ∀ {result changed : Value},
      Value.invoke? (.set items) (if inThen = negated then "add" else "remove") [.int item] =
        some (result, changed) →
      call.eval later = some (result,
        { later with vars := Function.update later.vars text (some changed) }) := by
    intro result changed hmethod
    rw [← Term.eval_bare, hbare]
    refine Run.bind_eq_some.mpr ⟨[.int item], later,
      Run.bind_eq_some.mpr ⟨_, later, hitem', rfl⟩, ?_⟩
    refine (Run.invoke_eq_some (by split <;> decide)).mpr ?_
    exact ⟨text, binding', .set items, changed, hname', hitems, hmethod, rfl⟩
  have hself : { later with vars := Function.update later.vars text (some (.set items)) } =
      later := by
    rw [← hitems, Function.update_eq_self]
  refine ⟨rfl, ?_⟩
  obtain rfl : flag = (decide (item ∈ items) != negated) := by simpa using hflag
  by_cases hside : inThen = negated
  · rw [if_pos hside] at hinvoke
    subst hside
    have hanswer : decide (item ∉ items) = ((decide (item ∈ items) != inThen) == inThen) := by
      by_cases hmem : item ∈ items <;> cases inThen <;> simp [hmem]
    have hadd := hinvoke rfl
    rw [hanswer] at hadd
    refine ⟨_, hadd, fun hne => ?_⟩
    have hmem : item ∈ items := by
      by_contra hmem
      cases inThen <;> simp [hmem] at hne
    rw [Finset.insert_eq_of_mem hmem]
    exact hself
  · rw [if_neg hside] at hinvoke
    obtain rfl : negated = !inThen := by
      cases inThen <;> cases negated <;> simp_all
    have hanswer : decide (item ∈ items) = ((decide (item ∈ items) != !inThen) == inThen) := by
      by_cases hmem : item ∈ items <;> cases inThen <;> simp [hmem]
    have hremove := hinvoke rfl
    rw [hanswer] at hremove
    refine ⟨_, hremove, fun hne => ?_⟩
    have hmem : item ∉ items := by
      intro hmem
      cases inThen <;> simp [hmem] at hne
    rw [Finset.erase_eq_of_notMem hmem]
    exact hself

theorem Repeats.exec {cond stmt call : Term} {inThen : Bool} (h : Repeats cond stmt call inThen) :
    stmt.exec = (call.eval >>= fun _ => pure .normal) := by
  obtain ⟨_, _, _, _, _, type, _, -, -, -, rfl, -⟩ := h
  rfl

theorem Repeats.all {cond stmt call : Term} {inThen : Bool} (h : Repeats cond stmt call inThen)
    {holds : Term → Bool} (hall : stmt.all holds = true) : call.all holds = true := by
  obtain ⟨_, _, _, _, _, type, _, -, -, -, rfl, -⟩ := h
  exact Term.all_sub hall (List.mem_singleton_self _)

/-- The update, whether it is needed or not, does what the conditional does with it. -/
theorem Repeats.refines_update {cond stmt call : Term} {inThen : Bool}
    (h : Repeats cond stmt call inThen) (hconsistent : Consistent known)
    (hcond : cond.all (Term.isKnown known) = true) (hcall : call.all (Term.isKnown known) = true)
    {machine later : Machine} {flag : Bool} (hrun : cond.eval machine = some (.bool flag, later))
    {result : Flow × Machine}
    (hend : (if flag = inThen then stmt.exec else pure .normal) later = some result) :
    stmt.exec machine = some result := by
  obtain ⟨rfl, updated, hupdate, hsame⟩ := h.run hconsistent hcond hcall hrun
  by_cases hflag : flag = inThen
  · rwa [if_pos hflag] at hend
  · rw [if_neg hflag] at hend
    rw [hsame hflag] at hupdate
    rw [h.exec]
    exact Run.bind_eq_some.mpr ⟨_, later, hupdate, hend⟩

theorem exec_remains {branch stmt : Term} {rest : List Term}
    (h : branch.statements = stmt :: rest) :
    ((remains branch).getD (.block [])).exec = Run.sequence (rest.map Term.exec) ∧
      Term.otherwise (remains branch) = Run.sequence (rest.map Term.exec) := by
  cases branch with
  | node head type subs =>
      unfold Term.statements at h
      unfold remains
      split at h
      · next hhead =>
          rw [if_pos hhead]
          obtain rfl : subs = stmt :: rest := h
          have hexec : (Term.node .block type rest).exec = Run.sequence (rest.map Term.exec) := by
            rw [Term.exec, Term.execAll_eq_map]
          exact ⟨hexec, hexec⟩
      · next hhead =>
          rw [if_neg hhead]
          obtain ⟨-, rfl⟩ := List.cons.inj h
          exact ⟨rfl, rfl⟩

theorem Repeats.exec_branch {cond branch stmt call : Term} {inThen : Bool} {rest : List Term}
    (h : Repeats cond stmt call inThen) (hbranch : branch.statements = stmt :: rest)
    {machine : Machine} {result : Flow × Machine} (hrun : branch.exec machine = some result)
    {value : Value} {updated : Machine} (hupdate : call.eval machine = some (value, updated)) :
    Run.sequence (rest.map Term.exec) updated = some result := by
  rw [Term.exec_eq_statements, hbranch, List.map_cons, Run.sequence, h.exec] at hrun
  obtain ⟨flow, middle, hfirst, hrest⟩ := Run.bind_eq_some.mp hrun
  obtain ⟨value', middle', hcall, hnormal⟩ := Run.bind_eq_some.mp hfirst
  cases hnormal
  rw [hupdate] at hcall
  cases hcall
  exact hrest

theorem Rewrite.conserves (h : Rewrite old fresh) (hall : old.all (Term.isSound strict) = true)
    (hconsistent : Consistent known) (hknown : old.all (Term.isKnown known) = true) :
    Term.Conserves old fresh := by
  have hexchange := h.exchange hall
  cases h with
  | @onlyThen type cond thenBranch stmt call elseBranch hrepeats hthen helse =>
      refine .of_some (.of_stmt hexchange rfl ?_)
      intro machine result hrun
      rw [Term.exec_ifStmt, Term.otherwise_of_isEmptyBranch helse, Term.exec_eq_statements, hthen,
        List.map_singleton, Run.sequence_singleton] at hrun
      obtain ⟨flag, middle, hvalue, hend⟩ := Run.branch_eq_some.mp hrun
      have hstmt : stmt.all (Term.isKnown known) = true :=
        Term.all_statements (Term.all_sub hknown (by simp)) (hthen ▸ List.mem_singleton_self _)
      exact hrepeats.refines_update hconsistent (Term.all_sub hknown (by simp))
        (hrepeats.all hstmt) hvalue hend
  | @onlyElse type cond thenBranch elseBranch stmt call hrepeats hthen helse =>
      refine .of_some (.of_stmt hexchange rfl ?_)
      intro machine result hrun
      rw [Term.exec, Term.exec_of_isEmptyBranch hthen, Term.exec_eq_statements elseBranch, helse,
        List.map_singleton, Run.sequence_singleton] at hrun
      obtain ⟨flag, middle, hvalue, hend⟩ := Run.branch_eq_some.mp hrun
      have hstmt : stmt.all (Term.isKnown known) = true :=
        Term.all_statements (Term.all_sub hknown (by simp)) (helse ▸ List.mem_singleton_self _)
      refine hrepeats.refines_update hconsistent (Term.all_sub hknown (by simp))
        (hrepeats.all hstmt) hvalue ?_
      cases flag <;> exact hend
  | @inThen type cond thenBranch stmt call rest elseBranch hrepeats hthen =>
      have hstmt : stmt.all (Term.isKnown known) = true :=
        Term.all_statements (Term.all_sub hknown (by simp)) (hthen ▸ List.mem_cons_self ..)
      refine .of_some (.of_stmt hexchange rfl ?_)
      have hbranches : ∀ other : Option Term, elseBranch = other.toList →
          Run.Refines (Term.node .ifStmt type (cond :: thenBranch :: elseBranch)).exec
            (Term.node .ifStmt type
              (call :: (remains thenBranch).getD (.block []) :: elseBranch)).exec := by
        rintro other rfl machine result hrun
        rw [Term.exec_ifStmt] at hrun ⊢
        obtain ⟨flag, middle, hvalue, hend⟩ := Run.branch_eq_some.mp hrun
        obtain ⟨rfl, updated, hupdate, hsame⟩ := hrepeats.run hconsistent
          (Term.all_sub hknown (by simp)) (hrepeats.all hstmt) hvalue
        refine Run.branch_eq_some.mpr ⟨flag == true, updated, hupdate, ?_⟩
        cases flag with
        | true =>
            rw [(exec_remains hthen).1]
            exact hrepeats.exec_branch hthen hend hupdate
        | false =>
            rw [hsame (by simp)]
            exact hend
      rcases elseBranch with _ | ⟨other, _ | _⟩
      · exact hbranches none rfl
      · exact hbranches (some other) rfl
      · exact .of_failure _
  | @inElse type cond thenBranch elseBranch stmt call rest hrepeats helse =>
      have hstmt : stmt.all (Term.isKnown known) = true :=
        Term.all_statements (Term.all_sub hknown (by simp)) (helse ▸ List.mem_cons_self ..)
      refine .of_some (.of_stmt hexchange rfl ?_)
      intro machine result hrun
      rw [Term.exec_ifStmt]
      obtain ⟨flag, middle, hvalue, hend⟩ := Run.branch_eq_some.mp hrun
      obtain ⟨rfl, updated, hupdate, hsame⟩ := hrepeats.run hconsistent
        (Term.all_sub hknown (by simp)) (hrepeats.all hstmt) hvalue
      refine Run.branch_eq_some.mpr ⟨_, updated, call.negates_not _ _ _ hupdate, ?_⟩
      cases flag with
      | true =>
          rw [hsame (by simp)]
          exact hend
      | false =>
          rw [(exec_remains helse).2]
          exact hrepeats.exec_branch helse hend hupdate

end SetUpdate

end CodeTidy
