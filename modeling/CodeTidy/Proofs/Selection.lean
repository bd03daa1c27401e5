import CodeTidy.Proofs.Behaviour

/-!
# What a switch does

A switch enters its body at a label and leaves it at a break.  If the labels are literals,
this is a choice between its groups of statements (`Group.exec_one`, `Group.exec_two`), and
the conditional that the switch rule builds makes the same choice.
-/

namespace CodeTidy

namespace Run

/-! ## Ways to end -/

def Avoids (flow : Flow) (f : Run Flow) : Prop :=
  ∀ machine later, f machine ≠ some (flow, later)

theorem avoids_failure (flow : Flow) : Avoids flow failure :=
  fun _ _ h => nomatch h

theorem avoids_pure {flow other : Flow} (h : other ≠ flow) : Avoids flow (pure other) := by
  intro machine later hrun
  cases hrun
  exact h rfl

theorem Avoids.bind {α : Type} {flow : Flow} {f : Run α} {g : α → Run Flow}
    (h : ∀ value, Avoids flow (g value)) : Avoids flow (f >>= g) := by
  intro machine later hrun
  obtain ⟨value, middle, -, hrest⟩ := bind_eq_some.mp hrun
  exact h value middle later hrest

theorem Avoids.branch {flow : Flow} {cond : Run Value} {thenBranch elseBranch : Run Flow}
    (hthen : Avoids flow thenBranch) (helse : Avoids flow elseBranch) :
    Avoids flow (Run.branch cond thenBranch elseBranch) := by
  intro machine later hrun
  obtain ⟨flag, middle, -, hend⟩ := branch_eq_some.mp hrun
  cases flag with
  | true => exact hthen middle later hend
  | false => exact helse middle later hend

theorem Avoids.sequence_broke {fs : List (Run Flow)} (h : ∀ f, f ∈ fs → Avoids .broke f) :
    Avoids .broke (Run.sequence fs) := by
  induction fs with
  | nil => exact avoids_pure (by simp)
  | cons f fs ih =>
      intro machine later hrun
      obtain ⟨flow, middle, hfirst, hrest⟩ := bind_eq_some.mp hrun
      split at hrest
      · exact ih (fun g hg => h g (List.mem_cons_of_mem _ hg)) middle later hrest
      · cases hrest
        exact h f (List.mem_cons_self ..) machine later hfirst

/-- Statements in a row end normally only if the last one does. -/
theorem Avoids.sequence_normal {fs : List (Run Flow)} {last : Run Flow}
    (hlast : fs.getLast? = some last) (h : Avoids .normal last) :
    Avoids .normal (Run.sequence fs) := by
  induction fs with
  | nil => cases hlast
  | cons f fs ih =>
      intro machine later hrun
      obtain ⟨flow, middle, hfirst, hrest⟩ := bind_eq_some.mp hrun
      split at hrest
      · next hnormal =>
          subst hnormal
          cases fs with
          | nil =>
              obtain rfl : f = last := by simpa using hlast
              exact h machine middle hfirst
          | cons g fs =>
              rw [List.getLast?_cons_cons] at hlast
              exact ih hlast middle later hrest
      · next hflow =>
          cases hrest
          exact hflow rfl

theorem avoids_broke_loop (cond : Run Value) (body : Run Flow) :
    Avoids .broke (loop cond body) := by
  have hsteps : ∀ rounds, Avoids .broke (loopSteps cond body rounds) := by
    intro rounds
    induction rounds with
    | zero => exact avoids_failure .broke
    | succ rounds ih =>
        refine .branch (.bind fun _ => .bind fun flow => ?_) (avoids_pure (by simp))
        cases flow with
        | normal => exact ih
        | continued => exact ih
        | broke => exact avoids_pure (by simp)
        | returned value => exact avoids_pure (by simp)
  exact fun machine later hrun => hsteps _ machine later hrun

theorem avoids_broke_follow (items : List Item) : Avoids .broke (follow items) := by
  induction items with
  | nil => exact avoids_pure (by simp)
  | cons item items ih =>
      cases item with
      | label value => exact ih
      | default => exact ih
      | stmt run =>
          refine .bind fun flow => ?_
          cases flow with
          | normal => exact ih
          | broke => exact avoids_pure (by simp)
          | continued => exact avoids_pure (by simp)
          | returned value => exact avoids_pure (by simp)

theorem avoids_broke_select (subject : Run Value) (items : List Item) :
    Avoids .broke (select subject items) := by
  refine .bind fun key => .bind fun found => ?_
  cases found with
  | some rest => exact avoids_broke_follow rest
  | none => exact avoids_pure (by simp)

end Run

namespace Term

theorem avoids_broke {term : Term} (h : term.hasLooseBreak = false) :
    Run.Avoids .broke term.exec := by
  refine hasLooseBreak_induct ?node h
  case node =>
    intro head type subs hhead hsub
    have hall : head.catchesBreak = false → Run.Avoids .broke (Run.sequence (execAll subs)) := by
      intro hcatches
      rw [execAll_eq_map]
      refine .sequence_broke fun f hf => ?_
      obtain ⟨sub, hin, rfl⟩ := List.mem_map.mp hf
      exact hsub hcatches sub hin
    cases head with
    | unit => exact hall rfl
    | block => exact hall rfl
    | exprStmt =>
        rcases subs with _ | ⟨expr, _ | _⟩
        · exact Run.avoids_failure .broke
        · exact .bind fun _ => Run.avoids_pure (by simp)
        · exact Run.avoids_failure .broke
    | varDecl text binding =>
        have hend : ∀ value, Run.Avoids .broke
            (Run.assign text value >>= fun _ => pure .normal) :=
          fun value => .bind fun _ => Run.avoids_pure (by simp)
        cases subs with
        | nil => exact hend .null
        | cons expr rest => exact .bind hend
    | ifStmt =>
        rcases subs with _ | ⟨cond, _ | ⟨thenBranch, _ | ⟨elseBranch, _ | _⟩⟩⟩
        · exact Run.avoids_failure .broke
        · exact Run.avoids_failure .broke
        · exact .branch (hsub rfl _ (by simp)) (Run.avoids_pure (by simp))
        · exact .branch (hsub rfl _ (by simp)) (hsub rfl _ (by simp))
        · exact Run.avoids_failure .broke
    | whileStmt =>
        rcases subs with _ | ⟨cond, _ | ⟨body, _ | _⟩⟩
        · exact Run.avoids_failure .broke
        · exact Run.avoids_failure .broke
        · exact Run.avoids_broke_loop _ _
        · exact Run.avoids_failure .broke
    | switchStmt =>
        cases subs with
        | nil => exact Run.avoids_failure .broke
        | cons subject body => exact Run.avoids_broke_select _ _
    | breakStmt label =>
        cases label with
        | none => exact absurd rfl hhead
        | some label => exact Run.avoids_failure .broke
    | continueStmt label =>
        cases label with
        | none => exact Run.avoids_pure (by simp)
        | some label => exact Run.avoids_failure .broke
    | returnStmt =>
        cases subs with
        | nil => exact Run.avoids_pure (by simp)
        | cons expr rest => exact .bind fun _ => Run.avoids_pure (by simp)
    | _ => exact Run.avoids_failure .broke

/-- Control never leaves a statement that ends with a jump at its end. -/
theorem avoids_normal {term : Term} (h : term.endsWithJump = true) :
    Run.Avoids .normal term.exec := by
  refine endsWithJump_induct ?jump ?block ?ifElse h
  case jump =>
    intro head type subs hjump
    cases head with
    | breakStmt label =>
        cases label with
        | none => exact Run.avoids_pure (by simp)
        | some label => exact Run.avoids_failure .normal
    | continueStmt label =>
        cases label with
        | none => exact Run.avoids_pure (by simp)
        | some label => exact Run.avoids_failure .normal
    | returnStmt =>
        cases subs with
        | nil => exact Run.avoids_pure (by simp)
        | cons expr rest => exact .bind fun _ => Run.avoids_pure (by simp)
    | throwStmt => exact Run.avoids_failure .normal
    | _ => cases hjump
  case block =>
    intro type stmts last hlast ih
    rw [exec, execAll_eq_map]
    refine .sequence_normal ?_ ih
    rw [List.getLast?_map, hlast, Option.map_some]
  case ifElse => exact fun type cond thenBranch elseBranch ihThen ihElse => .branch ihThen ihElse

end Term

/-! ## Groups of statements -/

namespace Run

/-- What a switch goes on with when the statements of a group have ended. -/
def leave (rest : Run Flow) : Flow → Run Flow
  | .normal => rest
  | .broke => pure .normal
  | flow => pure flow

theorem follow_append (fs : List (Run Flow)) (rest : List Item) :
    follow (fs.map .stmt ++ rest) = (sequence fs >>= leave (follow rest)) := by
  induction fs with
  | nil => rfl
  | cons f fs ih =>
      rw [sequence, bind_assoc]
      refine congrArg (f >>= ·) (funext fun flow => ?_)
      cases flow with
      | normal => exact ih
      | broke => rfl
      | continued => rfl
      | returned value => rfl

theorem follow_labels {items : List Item} (h : ∀ item, item ∈ items → ∀ run,
    item ≠ .stmt run) (rest : List Item) : follow (items ++ rest) = follow rest := by
  induction items with
  | nil => rfl
  | cons item items ih =>
      have hrest := ih fun other hother => h other (List.mem_cons_of_mem _ hother)
      cases item with
      | label value => exact hrest
      | default => exact hrest
      | stmt run => exact absurd rfl (h _ (List.mem_cons_self ..) run)

/-- What follows a computation may differ where the computation never ends. -/
theorem bind_congr_of_avoids {flow : Flow} {f : Run Flow} {g g' : Flow → Run Flow}
    (h : Avoids flow f) (hsame : ∀ other, other ≠ flow → g other = g' other) :
    (f >>= g) = (f >>= g') := by
  funext machine
  cases hrun : f machine with
  | none =>
      show (f machine).bind _ = (f machine).bind _
      rw [hrun]
      rfl
  | some result =>
      obtain ⟨other, middle⟩ := result
      rw [bind_of_some hrun, bind_of_some hrun, hsame]
      rintro rfl
      exact h machine middle hrun

theorem leave_of_avoids_normal {f : Run Flow} (h : Avoids .normal f) (rest rest' : Run Flow) :
    (f >>= leave rest) = (f >>= leave rest') := by
  refine bind_congr_of_avoids h fun flow hflow => ?_
  cases flow with
  | normal => exact absurd rfl hflow
  | _ => rfl

theorem leave_of_avoids_broke {f : Run Flow} (h : Avoids .broke f) :
    (f >>= leave (pure .normal)) = f := by
  have hpure : (f >>= leave (pure .normal)) = (f >>= pure) := by
    refine bind_congr_of_avoids h fun flow hflow => ?_
    cases flow with
    | broke => exact absurd rfl hflow
    | _ => rfl
  rw [hpure, bind_pure]

/-! ## Labels -/

def reach : Option (List Item) → Run Flow
  | some rest => follow rest
  | none => pure .normal

/-- What a switch does, where `missed` is what it does without a label that matches. -/
def arrive (key : Value) : Run Flow → List Item → Run Flow
  | missed, [] => missed
  | missed, .label value :: rest => do
      if (← value) = key then follow rest else arrive key missed rest
  | _, .default :: rest => arrive key (follow rest) rest
  | missed, .stmt _ :: rest => arrive key missed rest

theorem entry_bind (key : Value) (fallback : Option (List Item)) (items : List Item) :
    (entry key fallback items >>= reach) = arrive key (reach fallback) items := by
  induction items generalizing fallback with
  | nil => rfl
  | cons item items ih =>
      cases item with
      | default => exact ih (some items)
      | stmt run => exact ih fallback
      | label value =>
          rw [entry, arrive, bind_assoc]
          refine congrArg (value >>= ·) (funext fun found => ?_)
          split
          · rfl
          · exact ih fallback

theorem select_eq (subject : Run Value) (items : List Item) :
    select subject items = (subject >>= fun key => arrive key (pure .normal) items) := by
  refine congrArg (subject >>= ·) (funext fun key => ?_)
  refine Eq.trans ?_ (entry_bind key none items)
  refine congrArg (entry key none items >>= ·) (funext fun found => ?_)
  cases found <;> rfl

theorem arrive_stmts (key : Value) (missed : Run Flow) (fs : List (Run Flow))
    (rest : List Item) : arrive key missed (fs.map .stmt ++ rest) = arrive key missed rest := by
  induction fs with
  | nil => rfl
  | cons f fs ih => exact ih

end Run

namespace Term

variable {item : Term}

/-- Whether an expression is a literal that is compared with `==` if it is a label. -/
def isPlainLiteral (term : Term) : Bool :=
  match term.head with
  | .literal _ => term.type.all fun type =>
      type.sort != .boxed && type.sort != .enumeration && type.name != "java.lang.String"
  | _ => false

def literalValue? (term : Term) : Option Value :=
  match term.head with
  | .literal value => some (.ofLiteral value)
  | _ => none

def isPlainLabel (item : Term) : Bool :=
  match item.subs with
  | [] => true
  | [label] => label.isPlainLiteral
  | _ => false

theorem exists_literalValue {label : Term} (h : label.isPlainLiteral = true) :
    ∃ value, label.literalValue? = some value ∧ label.eval = pure value ∧
      TwoWaySwitch.TestForm.ofType label.type = .comparison := by
  unfold isPlainLiteral at h
  cases label with
  | node head type subs =>
      cases head with
      | literal value =>
          refine ⟨.ofLiteral value, rfl, rfl, ?_⟩
          cases type with
          | none => rfl
          | some type =>
              simp only [head_node, type_node, Option.all_some, Bool.and_eq_true, bne_iff_ne] at h
              unfold TwoWaySwitch.TestForm.ofType
              simp [h]
      | _ => cases h

theorem item_of_isPlainLabel (hhead : item.head = .caseLabel) (h : item.isPlainLabel = true) :
    (item.subs = [] ∧ item.item = .default) ∨
      ∃ label value, item.subs = [label] ∧ item.item = .label (pure value) ∧
        label.literalValue? = some value := by
  unfold isPlainLabel at h
  unfold Term.item
  rw [hhead]
  split at h
  · next hsubs =>
      rw [hsubs]
      exact .inl ⟨rfl, rfl⟩
  · next label hsubs =>
      obtain ⟨value, hvalue, heval, -⟩ := exists_literalValue h
      rw [hsubs]
      exact .inr ⟨label, value, rfl, congrArg Run.Item.label heval, hvalue⟩
  · cases h

theorem exec_of_plainBreak {term : Term} (h : term.head = .breakStmt none) :
    term.exec = pure .broke := by
  cases term with
  | node head type subs =>
      obtain rfl : head = .breakStmt none := h
      rfl

end Term

namespace TwoWaySwitch

namespace Group

variable {group first second : Group Term} {key : Value} {rest : List Run.Item}
  {missed : Run Flow}

def hits (key : Value) (group : Group Term) : Bool :=
  group.labels.any (fun label => label.literalValue? == some key)

def run (group : Group Term) : Run Flow :=
  Run.sequence (group.stmts.map Term.exec)

def IsPlain (group : Group Term) : Prop :=
  ∀ item, item ∈ group.items → item.isPlainLabel = true

theorem map_item_stmts (h : group.IsSplit) :
    group.stmts.map Term.item = (group.stmts.map Term.exec).map .stmt := by
  rw [List.map_map]
  exact List.map_congr_left fun stmt hstmt => Term.item_of_ne_label (h.stmts stmt hstmt)

theorem arrive_items {items : List Term}
    (hhead : ∀ item, item ∈ items → item.head = .caseLabel)
    (hplain : ∀ item, item ∈ items → item.isPlainLabel = true) :
    Run.arrive key missed (items.map Term.item ++ rest) =
      if (items.flatMap Term.subs).any (fun label => label.literalValue? == some key) then
        Run.follow rest
      else
        Run.arrive key
          (if items.any (fun item => item.subs.isEmpty) then Run.follow rest else missed) rest := by
  induction items generalizing missed with
  | nil => rfl
  | cons item items ih =>
      have hrest := fun missed => @ih missed (fun other hother => hhead other (by simp [hother]))
        (fun other hother => hplain other (by simp [hother]))
      have hlabels : Run.follow (items.map Term.item ++ rest) = Run.follow rest := by
        apply Run.follow_labels
        intro other hother run
        obtain ⟨label, hlabel, rfl⟩ := List.mem_map.mp hother
        rcases Term.item_of_isPlainLabel (hhead label (by simp [hlabel]))
          (hplain label (by simp [hlabel])) with ⟨-, hitem⟩ | ⟨_, _, -, hitem, -⟩
        · simp [hitem]
        · simp [hitem]
      rcases Term.item_of_isPlainLabel (hhead item (by simp)) (hplain item (by simp)) with
        ⟨hsubs, hitem⟩ | ⟨label, value, hsubs, hitem, hvalue⟩
      · rw [List.map_cons, List.cons_append, hitem, Run.arrive, hlabels, hrest]
        simp [hsubs]
      · rw [List.map_cons, List.cons_append, hitem, Run.arrive, hlabels, pure_bind, hrest]
        by_cases hkey : value = key
        · simp [hsubs, hvalue, hkey]
        · simp [hsubs, hvalue, hkey]

theorem arrive_body (hsplit : group.IsSplit) (hplain : group.IsPlain) :
    Run.arrive key missed (group.body.map Term.item ++ rest) =
      if group.hits key then Run.follow (group.stmts.map Term.item ++ rest)
      else Run.arrive key
        (if group.hasDefault then Run.follow (group.stmts.map Term.item ++ rest) else missed)
        rest := by
  rw [body, List.map_append, List.append_assoc, arrive_items hsplit.items hplain,
    map_item_stmts hsplit, Run.arrive_stmts]
  rfl

/-- The statements of a group are left by its final break, or at their end. -/
theorem follow_stmts (hsplit : group.IsSplit) (hclosed : group.IsClosed) :
    Run.follow (group.stmts.map Term.item) = group.close.run := by
  have hrun : Run.Avoids .broke group.close.run := by
    refine .sequence_broke fun f hf => ?_
    obtain ⟨stmt, hstmt, rfl⟩ := List.mem_map.mp hf
    exact Term.avoids_broke (hclosed stmt hstmt)
  -- whatever stands after the closed statements ends the switch normally
  obtain ⟨tail, htail, hstmts⟩ : ∃ tail, Run.follow tail = pure .normal ∧
      group.stmts.map Term.item = (group.close.stmts.map Term.exec).map .stmt ++ tail := by
    rw [map_item_stmts hsplit]
    unfold close trim
    dsimp only
    split
    · next hbreak =>
        obtain ⟨last, hlast, hhead⟩ := (Option.any_eq_true _ _).mp hbreak
        obtain ⟨before, hbefore⟩ := List.getLast?_eq_some_iff.mp hlast
        refine ⟨[.stmt last.exec], ?_, by simp [hbefore]⟩
        rw [Term.exec_of_plainBreak (by simpa using hhead)]
        rfl
    · exact ⟨[], rfl, (List.append_nil _).symm⟩
  rw [hstmts, Run.follow_append, htail]
  exact Run.leave_of_avoids_broke hrun

/-- Nothing falls through the end of a group that ends with a jump. -/
theorem follow_jump (hsplit : group.IsSplit)
    (hjump : group.stmts.getLast?.any Term.endsWithJump = true) (rest : List Run.Item) :
    Run.follow (group.stmts.map Term.item ++ rest) = Run.follow (group.stmts.map Term.item) := by
  obtain ⟨last, hlast, hends⟩ := (Option.any_eq_true _ _).mp hjump
  have hnormal : Run.Avoids .normal group.run := by
    refine .sequence_normal ?_ (Term.avoids_normal hends)
    rw [List.getLast?_map, hlast, Option.map_some]
  have hnil := Run.follow_append (group.stmts.map Term.exec) []
  rw [List.append_nil] at hnil
  rw [map_item_stmts hsplit, Run.follow_append, hnil]
  exact Run.leave_of_avoids_normal hnormal _ _

theorem exec_one {type : Option TypeDesc} {subject : Term} (hsplit : group.IsSplit)
    (hclosed : group.IsClosed) (hplain : group.IsPlain) :
    (Term.node .switchStmt type (subject :: group.body)).exec =
      (subject.eval >>= fun key =>
        if group.hits key || group.hasDefault then group.close.run else pure .normal) := by
  rw [Term.exec, Term.itemAll_eq_map, Run.select_eq]
  refine congrArg (subject.eval >>= ·) (funext fun key => ?_)
  have harrive := @arrive_body group key [] (pure .normal) hsplit hplain
  rw [List.append_nil, List.append_nil] at harrive
  rw [harrive, follow_stmts hsplit hclosed, Run.arrive]
  cases group.hits key <;> rfl

/-- A switch with two groups runs the one that has the value, else the one with the default
label. -/
theorem exec_two {type : Option TypeDesc} {subject : Term} (hsplit : first.IsSplit)
    (hsplit' : second.IsSplit) (hclosed : first.IsClosed) (hclosed' : second.IsClosed)
    (hjump : first.stmts.getLast?.any Term.endsWithJump = true) (hplain : first.IsPlain)
    (hplain' : second.IsPlain) :
    (Term.node .switchStmt type (subject :: (first.body ++ second.body))).exec =
      (subject.eval >>= fun key =>
        if first.hits key then first.close.run
        else if second.hits key || second.hasDefault then second.close.run
        else if first.hasDefault then first.close.run else pure .normal) := by
  rw [Term.exec, Term.itemAll_eq_map, Run.select_eq]
  refine congrArg (subject.eval >>= ·) (funext fun key => ?_)
  have harrive := fun missed => @arrive_body second key [] missed hsplit' hplain'
  simp only [List.append_nil] at harrive
  rw [List.map_append, arrive_body hsplit hplain, follow_jump hsplit hjump,
    follow_stmts hsplit hclosed, harrive, follow_stmts hsplit' hclosed', Run.arrive]
  cases second.hits key <;> rfl

end Group

/-! ## The conditional -/

variable {subject : Term} {key : Value} {machine : Machine} {group : Group Term}

theorem eval_labelTerm (hsubject : subject.eval machine = some (key, machine)) {label : Term}
    (hplain : label.isPlainLiteral = true) :
    (labelTerm subject label).eval machine =
      some (.bool (label.literalValue? == some key), machine) := by
  obtain ⟨value, hvalue, heval, hform⟩ := Term.exists_literalValue hplain
  unfold labelTerm
  rw [hform, hvalue]
  dsimp only
  rw [Term.chain, Term.eval_chain]
  refine (Term.chain_pair rfl).mpr ⟨key, machine, value, ?_, ?_, ?_⟩
  · exact (congrFun (Term.eval_wrap _ subject) machine).trans hsubject
  · rw [heval]
    rfl
  · rw [Option.some_beq_some, beq_eq_decide, decide_eq_decide.mpr (eq_comm (b := key))]
    rfl

theorem chainFrom_tests (hsubject : subject.eval machine = some (key, machine))
    {labels : List Term} (hplain : ∀ label, label ∈ labels → label.isPlainLiteral = true)
    (done : Bool) :
    Run.chainFrom .conditionalOr (.bool done) ((labels.map (labelTerm subject)).map Term.eval)
        machine =
      some (.bool (done || labels.any (fun label => label.literalValue? == some key)),
        machine) := by
  induction labels generalizing done with
  | nil =>
      rw [List.any_nil, Bool.or_false]
      rfl
  | cons label labels ih =>
      have htest := eval_labelTerm hsubject (hplain label (List.mem_cons_self ..))
      have hrest := ih fun other hother => hplain other (List.mem_cons_of_mem _ hother)
      refine (Run.chainFrom_cons_of_stop rfl).mpr ⟨done, rfl, ?_⟩
      cases done with
      | true => rfl
      | false => exact ⟨_, machine, htest, hrest _⟩

theorem eval_groupTerm (hsubject : subject.eval machine = some (key, machine))
    (hplain : ∀ label, label ∈ group.labels → label.isPlainLiteral = true)
    (hne : group.labels ≠ []) :
    (groupTerm subject group.labels).eval machine = some (.bool (group.hits key), machine) := by
  unfold groupTerm Group.hits
  rw [Term.eval_join]
  cases hlabels : group.labels with
  | nil => exact absurd hlabels hne
  | cons label labels =>
      rw [hlabels] at hplain
      have htest := eval_labelTerm hsubject (hplain label (List.mem_cons_self ..))
      refine Run.bind_eq_some.mpr ⟨_, machine, htest, ?_⟩
      exact chainFrom_tests hsubject
        (fun other hother => hplain other (List.mem_cons_of_mem _ hother)) _

theorem branch_of_some {cond : Run Value} {flag : Bool} {thenBranch elseBranch : Run Flow}
    {middle : Machine} (h : cond machine = some (.bool flag, middle)) :
    Run.branch cond thenBranch elseBranch machine =
      (if flag then thenBranch else elseBranch) middle := by
  rw [Run.branch, Run.bind_of_some h]
  rfl

theorem exec_block (group : Group Term) : (Term.block group.stmts).exec = group.run := by
  rw [Term.block, Term.exec, Term.execAll_eq_map]
  rfl

theorem otherwise_statementTerm (hsubject : subject.eval machine = some (key, machine))
    (hplain : ∀ label, label ∈ group.labels → label.isPlainLiteral = true)
    (hne : group.labels ≠ []) (hdefault : group.hasDefault = false) (rest : Option Term) :
    Term.otherwise (statementTerm subject group rest) machine =
      (if group.hits key then group.run else Term.otherwise rest) machine := by
  have hif : (Term.ifStmt (groupTerm subject group.labels) (.block group.stmts) rest).exec machine =
      (if group.hits key then group.run else Term.otherwise rest) machine := by
    rw [Term.ifStmt, Term.exec_ifStmt, exec_block]
    exact branch_of_some (eval_groupTerm hsubject hplain hne)
  cases rest with
  | some elseBranch => exact hif
  | none =>
      unfold statementTerm
      by_cases hempty : group.stmts = []
      · have hrun : group.run = pure .normal := by
          rw [Group.run, hempty]
          rfl
        simp [hempty, hrun, Term.otherwise]
      · simp only [List.isEmpty_iff, if_neg hempty, hdefault, Bool.false_eq_true, if_false]
        exact hif

theorem otherwise_last (hsubject : subject.eval machine = some (key, machine))
    (hplain : ∀ label, label ∈ group.labels → label.isPlainLiteral = true)
    (hne : group.hasDefault = false → group.labels ≠ []) :
    Term.otherwise (statementTerm subject group none) machine =
      (if group.hits key || group.hasDefault then group.run else pure .normal) machine := by
  cases hdefault : group.hasDefault with
  | false =>
      rw [Bool.or_false, otherwise_statementTerm hsubject hplain (hne hdefault) hdefault]
      rfl
  | true =>
      rw [Bool.or_true, if_pos rfl, statementTerm, hdefault, if_pos rfl]
      split
      · next hempty =>
          rw [Group.run, List.isEmpty_iff.mp hempty]
          rfl
      · exact congrFun (exec_block group) machine

theorem Group.IsPlain.labels {group : Group Term} (h : group.IsPlain) {label : Term}
    (hlabel : label ∈ group.labels) : label.isPlainLiteral = true := by
  obtain ⟨item, hitem, hsub⟩ := List.mem_flatMap.mp hlabel
  have hplain := h item hitem
  unfold Term.isPlainLabel at hplain
  split at hplain
  · next hsubs =>
      rw [hsubs] at hsub
      cases hsub
  · next sub hsubs =>
      rw [hsubs, List.mem_singleton] at hsub
      rwa [hsub]
  · cases hplain

/-- A conditional that shows what the switch does may take its place. -/
theorem conserves_of_becomes {old : Term} {result fresh : Option Term} {strict : Bool}
    (hold : old.head.isStatement = true)
    (hexchange : Term.Exchange strict old fresh) (hfresh : Becomes result fresh)
    (h : Run.Refines old.exec (Term.otherwise result)) : Term.Conserves old fresh := by
  cases result with
  | some stmt =>
      cases hfresh
      exact .of_some (.of_stmt hexchange hold h)
  | none =>
      refine .of_vanished hold ?_ hfresh
      exact fun machine found hrun => Run.pure_eq_some.mp (h machine found hrun)

end TwoWaySwitch

namespace Term

def labelValues (item : Term) : List (Option Value) :=
  if item.head = .caseLabel then item.subs.map literalValue? else []

/-- Whether the labels of a switch are literals of different values. -/
def hasPlainLabels (term : Term) : Bool :=
  match term.head with
  | .switchStmt =>
      term.subs.all (fun item => item.head != .caseLabel || item.isPlainLabel) &&
        decide (term.subs.flatMap labelValues).Nodup
  | _ => true

theorem hasPlainLabels_iff {head : Head} {type : Option TypeDesc} {subs : List Term} :
    (node head type subs).hasPlainLabels = true ↔ (head = .switchStmt →
      (∀ item, item ∈ subs → item.head = .caseLabel → item.isPlainLabel = true) ∧
      (subs.flatMap labelValues).Nodup) := by
  unfold hasPlainLabels
  rw [head_node]
  split
  · rw [Bool.and_eq_true, decide_eq_true_iff, List.all_eq_true]
    simp [imp_iff_not_or]
  · next hne => exact ⟨fun _ h => absurd h hne, fun _ => rfl⟩

end Term

namespace TwoWaySwitch

variable {subject : Term} {type : Option TypeDesc} {body : List Term}
  {group first second : Group Term}

theorem Group.IsSplit.isPlain (hsplit : group.IsSplit) (hbody : group.body ⊆ body)
    (h : (Term.node .switchStmt type (subject :: body)).hasPlainLabels = true) :
    group.IsPlain := by
  intro item hitem
  have hmem : item ∈ subject :: body :=
    List.mem_cons_of_mem _ (hbody (List.mem_append_left _ hitem))
  exact (Term.hasPlainLabels_iff.mp h rfl).1 item hmem (hsplit.items item hitem)

/-- The values of the labels of a group are among those of its body. -/
theorem Group.IsSplit.mem_labelValues (hsplit : group.IsSplit) {key : Value}
    (h : group.hits key = true) : some key ∈ group.body.flatMap Term.labelValues := by
  obtain ⟨label, hlabel, hvalue⟩ := List.any_eq_true.mp h
  obtain ⟨item, hitem, hsub⟩ := List.mem_flatMap.mp hlabel
  refine List.mem_flatMap.mpr ⟨item, List.mem_append_left _ hitem, ?_⟩
  rw [Term.labelValues, if_pos (hsplit.items item hitem), ← beq_iff_eq.mp hvalue]
  exact List.mem_map_of_mem hsub

theorem hits_apart (hsplit : first.IsSplit) (hsplit' : second.IsSplit)
    (h : (Term.node .switchStmt type (subject :: (first.body ++ second.body))).hasPlainLabels =
      true) {key : Value} (hfirst : first.hits key = true) : second.hits key = false := by
  have hnodup := (Term.hasPlainLabels_iff.mp h rfl).2
  rw [List.flatMap_cons, List.flatMap_append] at hnodup
  have hapart := (List.nodup_append.mp (List.nodup_append.mp hnodup).2.1).2.2
  rw [← Bool.not_eq_true]
  intro hsecond
  exact hapart _ (hsplit.mem_labelValues hfirst) _ (hsplit'.mem_labelValues hsecond) rfl

theorem Group.hasDefault_close (group : Group Term) :
    group.close.hasDefault = group.hasDefault := rfl

theorem Group.hits_close (key : Value) (group : Group Term) :
    group.close.hits key = group.hits key := rfl

/-- The conditional for two groups runs the first one that has the value, else the second if
it has the default label. -/
theorem otherwise_pair {key : Value} {machine : Machine}
    (hsubject : subject.eval machine = some (key, machine)) (hsplit : first.IsSplit)
    (hsplit' : second.IsSplit) (hplain : first.IsPlain) (hplain' : second.IsPlain)
    (hdefault : first.hasDefault = false) :
    Term.otherwise (conditionalTerm subject [first.close, second.close]) machine =
      (if first.hits key then first.close.run
        else if second.hits key || second.hasDefault then second.close.run
        else pure .normal) machine := by
  have hfirst := @otherwise_statementTerm _ _ _ first.close hsubject (fun _ => hplain.labels)
    (hsplit.labels_ne_nil hdefault) hdefault (statementTerm subject second.close none)
  have hsecond := @otherwise_last _ _ _ second.close hsubject (fun _ => hplain'.labels)
    hsplit'.labels_ne_nil
  refine hfirst.trans ?_
  rw [Group.hits_close]
  split
  · rfl
  · exact hsecond

/-- The conditional makes the choice that the switch makes. -/
theorem Rewrite.conserves {old : Term} {fresh : Option Term} {strict : Bool}
    (h : Rewrite old fresh) (hall : old.all (Term.isSound strict) = true)
    (hlabels : old.hasPlainLabels = true) : Term.Conserves old fresh := by
  have hexchange := h.exchange hall
  cases h with
  | @one type subject group fresh hpassive hsplit hclosed hfresh =>
      refine conserves_of_becomes rfl hexchange hfresh ?_
      have hplain := hsplit.isPlain (List.Subset.refl _) hlabels
      intro machine result hrun
      rw [Group.exec_one hsplit hclosed hplain] at hrun
      obtain ⟨key, middle, hsubject, hend⟩ := Run.bind_eq_some.mp hrun
      obtain rfl := Term.still_of_isPassive hpassive _ _ _ hsubject
      rw [← hend]
      exact @otherwise_last _ _ _ group.close hsubject (fun _ => hplain.labels) hsplit.labels_ne_nil
  | @two type subject first second fresh hpassive hsplit hsplit' hclosed hclosed' hjump hapart
      hfresh =>
      refine conserves_of_becomes rfl hexchange hfresh ?_
      have hplain := hsplit.isPlain (List.subset_append_left ..) hlabels
      have hplain' := hsplit'.isPlain (List.subset_append_right ..) hlabels
      intro machine result hrun
      rw [Group.exec_two hsplit hsplit' hclosed hclosed' hjump hplain hplain'] at hrun
      obtain ⟨key, middle, hsubject, hend⟩ := Run.bind_eq_some.mp hrun
      obtain rfl := Term.still_of_isPassive hpassive _ _ _ hsubject
      rw [← hend]
      unfold inOrder
      rw [Group.hasDefault_close]
      cases hdefault : first.hasDefault with
      | true =>
          have hdefault' := defaults_of_switch hall hsplit hsplit' hdefault
          have hpair := otherwise_pair hsubject hsplit' hsplit hplain' hplain hdefault'
          rw [hdefault, Bool.or_true, if_pos rfl] at hpair
          rw [if_pos rfl, hpair, hdefault', Bool.or_false, if_pos rfl]
          -- the default group comes last, whether or not its labels are hit
          cases hfirst : first.hits key with
          | true =>
              rw [hits_apart hsplit hsplit' hlabels hfirst]
              rfl
          | false => rfl
      | false =>
          rw [if_neg Bool.false_ne_true, if_neg Bool.false_ne_true,
            otherwise_pair hsubject hsplit hsplit' hplain hplain' hdefault]

end TwoWaySwitch

end CodeTidy
