import CodeTidy.Proofs.Search
import CodeTidy.Proofs.Execution

/-!
# What is told about jumps

A program runs by passages: what one statement does is made of what its parts do, in any order
of worlds and with any results of the tests.  Loops and switches keep the plain breaks of their
bodies, which follows from the passages and is not assumed.  In every such semantics a statement
with a jump at its end never ends normally, and one without a loose break never breaks out
(`Store.jump_readings_sound`).
-/

namespace CodeTidy

/-! ## Passages -/

namespace Completion

variable {Val Thrown : Type}

/-- What is left of a plain break outside the loop or the switch that it ends. -/
def outside : Completion Val Thrown → Completion Val Thrown
  | broke none => normal
  | completion => completion

theorem outside_ne_broke (completion : Completion Val Thrown) :
    completion.outside ≠ .broke none := by
  unfold outside
  split
  · simp
  · assumption

/-- Whether a loop goes on to its next turn.  A continuation with a label may be meant for this
loop or for another one. -/
def GoesOn : Completion Val Thrown → Prop
  | normal | continued _ => True
  | _ => False

def Leaves : Completion Val Thrown → Prop
  | normal | broke none | continued none => False
  | _ => True

end Completion

/-- Statements and expressions whose parts are run in a row, and which end as the row does. -/
def Head.isRow : Head → Bool
  | block | unit | exprStmt | varDecl _ _ | caseLabel => true
  | _ => false

section Passages

variable {World Val Thrown : Type}

abbrev EndRelation (World Val Thrown : Type) :=
  Term → World → Completion Val Thrown → World → Prop

/-- Terms in a row, each run where the one before ended normally. -/
inductive Row (ends : EndRelation World Val Thrown) :
    List Term → World → Completion Val Thrown → World → Prop where
  | done {world : World} : Row ends [] world .normal world
  | next {first : Term} {rest : List Term} {world middle later : World}
      {completion : Completion Val Thrown} (run : ends first world .normal middle)
      (goes : Row ends rest middle completion later) :
      Row ends (first :: rest) world completion later
  | stop {first : Term} {rest : List Term} {world later : World}
      {completion : Completion Val Thrown} (run : ends first world completion later)
      (abrupt : completion ≠ .normal) : Row ends (first :: rest) world completion later

inductive Turns (ends : EndRelation World Val Thrown) :
    List Term → World → Completion Val Thrown → World → Prop where
  | test {cond body : Term} {world later : World} {completion : Completion Val Thrown}
      (run : ends cond world completion later) (abrupt : completion ≠ .normal) :
      Turns ends [cond, body] world completion later
  | exit {cond body : Term} {world later : World} (run : ends cond world .normal later) :
      Turns ends [cond, body] world .normal later
  | broke {cond body : Term} {world middle later : World} (run : ends cond world .normal middle)
      (turn : ends body middle (.broke none) later) : Turns ends [cond, body] world .normal later
  | left {cond body : Term} {world middle later : World} {completion : Completion Val Thrown}
      (run : ends cond world .normal middle) (turn : ends body middle completion later)
      (leaves : completion.Leaves) : Turns ends [cond, body] world completion later
  | again {cond body : Term} {world middle next later : World}
      {turned completion : Completion Val Thrown} (run : ends cond world .normal middle)
      (turn : ends body middle turned next) (goesOn : turned.GoesOn)
      (goes : Turns ends [cond, body] next completion later) :
      Turns ends [cond, body] world completion later

/-- What a statement with the given head and the given parts may do. -/
inductive Passage (ends : EndRelation World Val Thrown) :
    Head → List Term → World → Completion Val Thrown → World → Prop where
  | row {head : Head} {parts : List Term} {world later : World}
      {completion : Completion Val Thrown} (isRow : head.isRow = true)
      (run : Row ends parts world completion later) :
      Passage ends head parts world completion later
  | broke {label : Option String} {world : World} :
      Passage ends (.breakStmt label) [] world (.broke label) world
  | continued {label : Option String} {world : World} :
      Passage ends (.continueStmt label) [] world (.continued label) world
  | returned {parts : List Term} {world later : World} {value : Option Val}
      (run : Row ends parts world .normal later) :
      Passage ends .returnStmt parts world (.returned value) later
  | thrown {parts : List Term} {world later : World} {cause : Thrown}
      (run : Row ends parts world .normal later) :
      Passage ends .throwStmt parts world (.thrown cause) later
  /-- The expression of a return or of a throw does not end normally. -/
  | abrupt {head : Head} {parts : List Term} {world later : World}
      {completion : Completion Val Thrown} (ending : head = .returnStmt ∨ head = .throwStmt)
      (run : Row ends parts world completion later) (abrupt : completion ≠ .normal) :
      Passage ends head parts world completion later
  /-- The condition of a conditional does not end normally. -/
  | tested {cond : Term} {branches : List Term} {world later : World}
      {completion : Completion Val Thrown} (run : ends cond world completion later)
      (abrupt : completion ≠ .normal) :
      Passage ends .ifStmt (cond :: branches) world completion later
  | taken {cond thenBranch : Term} {elseBranch : List Term} {world middle later : World}
      {completion : Completion Val Thrown} (run : ends cond world .normal middle)
      (branch : ends thenBranch middle completion later) :
      Passage ends .ifStmt (cond :: thenBranch :: elseBranch) world completion later
  | otherwise {cond thenBranch elseBranch : Term} {world middle later : World}
      {completion : Completion Val Thrown} (run : ends cond world .normal middle)
      (branch : ends elseBranch middle completion later) :
      Passage ends .ifStmt [cond, thenBranch, elseBranch] world completion later
  | skipped {cond thenBranch : Term} {world later : World}
      (run : ends cond world .normal later) :
      Passage ends .ifStmt [cond, thenBranch] world .normal later
  | looped {parts : List Term} {world later : World} {completion : Completion Val Thrown}
      (turns : Turns ends parts world completion later) :
      Passage ends .whileStmt parts world completion later
  /-- The subject, or a label that is looked at, does not end normally. -/
  | looked {subject : Term} {body labels : List Term} {world later : World}
      {completion : Completion Val Thrown} (are : labels ⊆ Term.labels body)
      (run : Row ends (subject :: labels) world completion later)
      (abrupt : completion ≠ .normal) :
      Passage ends .switchStmt (subject :: body) world completion later
  /-- No label of the switch is the one. -/
  | passed {subject : Term} {body labels : List Term} {world later : World}
      (are : labels ⊆ Term.labels body)
      (run : Row ends (subject :: labels) world .normal later) :
      Passage ends .switchStmt (subject :: body) world .normal later
  /-- The switch is entered somewhere and runs on to its end or to a plain break. -/
  | entered {subject : Term} {body labels part : List Term} {world middle later : World}
      {inside completion : Completion Val Thrown} (are : labels ⊆ Term.labels body)
      (run : Row ends (subject :: labels) world .normal middle) (suffix : part <:+ body)
      (rest : Row ends (Term.executed part) middle inside later)
      (outside : completion = inside.outside) :
      Passage ends .switchStmt (subject :: body) world completion later

end Passages

/-- A semantics of the language: statements run by passages, and expressions, which are arbitrary
otherwise, never end with a break. -/
structure Semantics (World Val Thrown : Type) where
  ends : EndRelation World Val Thrown
  ends_stmt : ∀ head type parts world completion later, head.isExpression = false →
    ends (.node head type parts) world completion later →
      Passage ends head parts world completion later
  ends_expr : ∀ expr world label later, expr.head.isExpression = true →
    ¬ ends expr world (.broke label) later

/-! ## How statements never end -/

section Endings

variable {World Val Thrown : Type} {ends : EndRelation World Val Thrown} {parts : List Term}
  {world later : World} {completion : Completion Val Thrown}

theorem Row.exists_abrupt (h : Row ends parts world completion later)
    (habrupt : completion ≠ .normal) :
    ∃ part ∈ parts, ∃ middle, ends part middle completion later := by
  induction h with
  | done => exact absurd rfl habrupt
  | next run goes ih =>
      obtain ⟨part, hpart, middle, hends⟩ := ih habrupt
      exact ⟨part, List.mem_cons_of_mem _ hpart, middle, hends⟩
  | stop run _ => exact ⟨_, List.mem_cons_self .., _, run⟩

/-- A row that ends normally ends with its last part. -/
theorem Row.last {last : Term} (h : Row ends parts world .normal later)
    (hlast : parts.getLast? = some last) : ∃ middle, ends last middle .normal later := by
  generalize hend : (Completion.normal : Completion Val Thrown) = ending at h
  induction h with
  | done => cases hlast
  | @next first rest _ _ _ _ run goes ih =>
      cases rest with
      | nil =>
          obtain rfl : first = last := by simpa using hlast
          subst hend
          cases goes
          exact ⟨_, run⟩
      | cons second rest => exact ih (by rwa [List.getLast?_cons_cons] at hlast) hend
  | stop _ abrupt => exact absurd hend.symm abrupt

theorem Turns.ne_broke (h : Turns ends parts world completion later)
    (hcond : ∀ cond, cond ∈ parts.head? →
      ∀ world later, ¬ ends cond world (.broke none) later) :
    completion ≠ .broke none := by
  induction h with
  | test run _ =>
      rintro rfl
      exact hcond _ rfl _ _ run
  | exit _ => simp
  | broke _ _ => simp
  | left _ _ leaves =>
      rintro rfl
      exact leaves
  | again _ _ _ _ ih => exact ih hcond

end Endings

/-- The condition of a loop and the subject of a switch are expressions. -/
theorem Term.isExpression_of_catches {head : Head} {type : Option TypeDesc} {parts : List Term}
    {first : Term} (h : (node head type parts).isOrderly = true)
    (hcatches : head.catchesBreak = true) (hfirst : first ∈ parts.head?) :
    first.head.isExpression = true := by
  obtain ⟨rest, rfl⟩ := List.head?_eq_some_iff.mp hfirst
  simp only [isOrderly, head_node, subs_node, slotsFit, Bool.and_eq_true] at h
  cases head <;> first | exact h.1.1 | cases hcatches

theorem Term.isExpression_of_labels {body : List Term} {label : Term}
    (h : ∀ item, item ∈ body → item.isOrderly = true) (hlabel : label ∈ labels body) :
    label.head.isExpression = true := by
  obtain ⟨item, hitem, hin⟩ := List.mem_flatMap.mp hlabel
  obtain ⟨hmem, hhead⟩ := List.mem_filter.mp hitem
  have horder := h item hmem
  cases item with
  | node head type subs =>
      obtain rfl : head = .caseLabel := beq_iff_eq.mp hhead
      obtain ⟨before, after, rfl⟩ := List.append_of_mem hin
      exact isExpression_of_label horder

/-- Jumps, loops and switches are neither expressions nor rows. -/
theorem Head.apart {head : Head} (h : head.isJump = true ∨ head.catchesBreak = true) :
    head.isExpression = false ∧ head.isRow = false := by
  cases head <;> first | exact ⟨rfl, rfl⟩ | (rcases h with h | h <;> cases h)

namespace Semantics

variable {World Val Thrown : Type} (semantics : Semantics World Val Thrown) {term : Term}

theorem ne_normal (h : term.endsWithJump = true) :
    ∀ world later, ¬ semantics.ends term world .normal later := by
  refine Term.endsWithJump_induct ?jump ?block ?ifElse h
  case jump =>
    intro head type parts hjump world later hends
    obtain ⟨hstmt, hrow⟩ := Head.apart (.inl hjump)
    cases semantics.ends_stmt _ _ _ _ _ _ hstmt hends with
    | row isRow _ => simp [hrow] at isRow
    | abrupt _ _ abrupt => exact abrupt rfl
    | _ => cases hjump
  case block =>
    intro type stmts last hlast ih world later hends
    cases semantics.ends_stmt _ _ _ _ _ _ rfl hends with
    | row _ run =>
        obtain ⟨middle, hrun⟩ := run.last hlast
        exact ih _ _ hrun
    | abrupt ending => rcases ending with hhead | hhead <;> cases hhead
  case ifElse =>
    intro type cond thenBranch elseBranch ihThen ihElse world later hends
    cases semantics.ends_stmt _ _ _ _ _ _ rfl hends with
    | row isRow _ => cases isRow
    | abrupt ending => rcases ending with hhead | hhead <;> cases hhead
    | tested _ abrupt => exact abrupt rfl
    | taken _ branch => exact ihThen _ _ branch
    | otherwise _ branch => exact ihElse _ _ branch

theorem ne_broke_of_catches {head : Head} {type : Option TypeDesc} {parts : List Term}
    (horder : (Term.node head type parts).all Term.isOrderly = true)
    (hcatches : head.catchesBreak = true) {world later : World} :
    ¬ semantics.ends (.node head type parts) world (.broke none) later := by
  intro hends
  obtain ⟨hstmt, hrow⟩ := Head.apart (.inr hcatches)
  have hself := Term.holds_of_all horder
  generalize hend : (Completion.broke none : Completion Val Thrown) = completion at hends
  cases semantics.ends_stmt _ _ _ _ _ _ hstmt hends with
  | looped turns =>
      refine turns.ne_broke (fun cond hcond world later => ?_) hend.symm
      exact semantics.ends_expr _ _ _ _ (Term.isExpression_of_catches hself hcatches hcond)
  | looked are run abrupt =>
      obtain ⟨part, hpart, middle, hrun⟩ := run.exists_abrupt abrupt
      have hexpr : part.head.isExpression = true := by
        rcases List.mem_cons.mp hpart with rfl | hlabel
        · exact Term.isExpression_of_catches hself hcatches rfl
        · refine Term.isExpression_of_labels (fun item hitem => ?_) (are hlabel)
          exact Term.holds_of_all (Term.all_sub horder (List.mem_cons_of_mem _ hitem))
      subst hend
      exact semantics.ends_expr _ _ _ _ hexpr hrun
  | passed => cases hend
  | entered _ _ _ _ outside => exact Completion.outside_ne_broke _ (outside.symm.trans hend.symm)
  | row isRow _ => simp [hrow] at isRow
  | abrupt ending => rcases ending with rfl | rfl <;> cases hcatches
  | _ => cases hcatches

/-- What breaks out is a plain break, or breaks out of a part. -/
theorem cases_of_broke {head : Head} {type : Option TypeDesc} {parts : List Term}
    (hcatches : head.catchesBreak = false) {world later : World}
    (hends : semantics.ends (.node head type parts) world (.broke none) later) :
    head = .breakStmt none ∨
      ∃ part ∈ parts, ∃ world later, semantics.ends part world (.broke none) later := by
  have hstmt : head.isExpression = false := by
    by_contra hexpr
    exact semantics.ends_expr _ _ _ _ (by simpa using hexpr) hends
  have hrow {world later : World} (run : Row semantics.ends parts world (.broke none) later) :
      ∃ part ∈ parts, ∃ world later, semantics.ends part world (.broke none) later := by
    obtain ⟨part, hpart, middle, hrun⟩ := run.exists_abrupt (by simp)
    exact ⟨part, hpart, middle, _, hrun⟩
  cases semantics.ends_stmt _ _ _ _ _ _ hstmt hends with
  | row _ run => exact .inr (hrow run)
  | broke => exact .inl rfl
  | abrupt _ run _ => exact .inr (hrow run)
  | tested run _ => exact .inr ⟨_, by simp, _, _, run⟩
  | taken _ branch => exact .inr ⟨_, by simp, _, _, branch⟩
  | otherwise _ branch => exact .inr ⟨_, by simp, _, _, branch⟩
  | _ => cases hcatches

theorem ne_broke (horder : term.all Term.isOrderly = true) (h : term.hasLooseBreak = false) :
    ∀ world later, ¬ semantics.ends term world (.broke none) later := by
  revert horder
  refine Term.hasLooseBreak_induct ?node h
  case node =>
    intro head type parts hhead ih horder world later hends
    cases hcatches : head.catchesBreak with
    | true => exact semantics.ne_broke_of_catches horder hcatches hends
    | false =>
        rcases semantics.cases_of_broke hcatches hends with hplain | ⟨part, hpart, _, _, hdeep⟩
        · exact hhead hplain
        · exact ih hcatches part hpart (Term.all_sub horder hpart) _ _ hdeep

end Semantics

/-! ## Where loose breaks are -/

namespace Store

variable {store : Store} {root stmt : NodeId}

/-- The loose breaks of a statement are the plain breaks with no loop or switch of the statement
above them. -/
theorem OwnsBelow.hasLooseBreak_iff (hown : store.OwnsBelow root)
    (hreach : store.Reachable root stmt) (h : store.IsBounded stmt) :
    store.hasLooseBreak stmt = true ↔
      ∃ jump, store.Reachable stmt jump ∧ store.isPlainBreak jump = true ∧
        ∀ above, store.Reachable stmt above → store.Reachable above jump →
          above ≠ jump → store.catchesBreak above = false := by
  induction h using IsBounded.induct with
  | node stmt h ih =>
      rw [h.hasLooseBreak_eq, Bool.or_eq_true, Bool.and_eq_true, List.any_eq_true,
        Bool.not_eq_true']
      constructor
      · rintro (hplain | ⟨hopen, child, hchild, hloose⟩)
        · refine ⟨stmt, .refl, hplain, fun above hdown hback hne => ?_⟩
          exact absurd (h.eq_of_reachable hdown hback) hne
        · obtain ⟨jump, hjump, hplain, hfree⟩ :=
            (ih child hchild (hreach.slot hchild)).mp hloose
          refine ⟨jump, Relation.ReflTransGen.head hchild hjump, hplain, ?_⟩
          intro above hdown hback hne
          obtain rfl | ⟨other, hother, hbelow⟩ := Relation.ReflTransGen.cases_head hdown
          · exact hopen
          · -- the node above the break is below the same slot as the break
            obtain rfl := hown.child_unique hreach h hchild hother hjump
              (Relation.ReflTransGen.trans hbelow hback)
            exact hfree above hbelow hback hne
      · rintro ⟨jump, hjump, hplain, hfree⟩
        obtain rfl | ⟨child, hchild, hbelow⟩ := Relation.ReflTransGen.cases_head hjump
        · exact .inl hplain
        · have hne : stmt ≠ jump := by
            rintro rfl
            exact h.not_reachable hchild hbelow
          refine .inr ⟨hfree stmt .refl hjump hne, child, hchild,
            (ih child hchild (hreach.slot hchild)).mpr ⟨jump, hbelow, hplain, ?_⟩⟩
          intro above hdown
          exact hfree above (Relation.ReflTransGen.head hchild hdown)

/-- Whatever the semantics, a statement of a valid tree with a jump at its end never ends
normally, one without a loose break never breaks out, and the loose breaks are the plain breaks
that have no loop or switch of the statement above them. -/
theorem jump_readings_sound {World Val Thrown : Type} (semantics : Semantics World Val Thrown)
    (hroot : store.ValidAt root) (hstmt : stmt ∈ store.preorder root)
    (horder : (store.term stmt).all Term.isOrderly = true) :
    (store.endsWithJump stmt = true → ∀ world later,
      ¬ semantics.ends (store.term stmt) world .normal later) ∧
    (store.hasLooseBreak stmt = false → ∀ world later,
      ¬ semantics.ends (store.term stmt) world (.broke none) later) ∧
    (store.hasLooseBreak stmt = true ↔
      ∃ jump ∈ store.preorder stmt, store.isPlainBreak jump = true ∧
        ∀ above, above ∈ store.preorder stmt → jump ∈ store.preorder above →
          above ≠ jump → store.catchesBreak above = false) := by
  have hbounded : store.IsBounded stmt := hroot.isBounded.of_mem_preorder hstmt
  refine ⟨fun hends => ?_, fun hloose => ?_, ?_⟩
  · exact semantics.ne_normal (hbounded.endsWithJump_term ▸ hends)
  · exact semantics.ne_broke horder (hbounded.hasLooseBreak_term ▸ hloose)
  · have hreach := hroot.isBounded.mem_preorder_iff.mp hstmt
    have hown := (searchSteps_root_eq_nil_iff store root).mp (List.append_eq_nil_iff.mp hroot.2).2
    rw [hown.hasLooseBreak_iff hreach hbounded]
    refine exists_congr fun jump => and_congr hbounded.mem_preorder_iff.symm (and_congr_right' ?_)
    refine forall_congr' fun above => ?_
    rw [← hbounded.mem_preorder_iff]
    refine imp_congr_right fun habove => imp_congr_left ?_
    exact (hbounded.of_mem_preorder habove).mem_preorder_iff.symm

end Store

/-! ## The least semantics -/

/-- Everything that follows from the passages if the expressions do what is given. -/
inductive BigStep {World Val Thrown : Type} (value : EndRelation World Val Thrown) :
    EndRelation World Val Thrown where
  | expr {term : Term} {world later : World} {completion : Completion Val Thrown}
      (isExpr : term.head.isExpression = true) (run : value term world completion later) :
      BigStep value term world completion later
  | stmt {head : Head} {type : Option TypeDesc} {parts : List Term} {world later : World}
      {completion : Completion Val Thrown} (isStmt : head.isExpression = false)
      (passage : Passage (BigStep value) head parts world completion later) :
      BigStep value (.node head type parts) world completion later

def Semantics.least {World Val Thrown : Type} (value : EndRelation World Val Thrown)
    (hvalue : ∀ expr world label later, ¬ value expr world (.broke label) later) :
    Semantics World Val Thrown where
  ends := BigStep value
  ends_stmt head type parts world completion later hstmt hends := by
    cases hends with
    | expr isExpr _ => simp [hstmt] at isExpr
    | stmt _ passage => exact passage
  ends_expr expr world label later hexpr hends := by
    cases hends with
    | expr _ run => exact hvalue expr world label later run
    | stmt isStmt _ => simp [isStmt] at hexpr

namespace Store

/-- The unit `while (more) { if (found) break; else return; }`. -/
def hunt : Store where
  nodes := #[
    ⟨.name "more" none, none, some 6, false⟩,
    ⟨.name "found" none, none, some 4, false⟩,
    ⟨.breakStmt none, none, some 4, false⟩,
    ⟨.returnStmt none, none, some 4, false⟩,
    ⟨.ifStmt 1 2 (some 3), none, some 5, false⟩,
    ⟨.block [4], none, some 6, false⟩,
    ⟨.whileStmt 0 5, none, some 7, false⟩,
    ⟨.unit [6], none, none, false⟩]

/-- The conditional breaks out and never ends normally; the loop does the opposite. -/
theorem jump_readings_sound_hunt :
    ∃ semantics : Semantics Unit Empty Empty,
      semantics.ends (hunt.term 4) () (.broke none) () ∧
      semantics.ends (hunt.term 6) () .normal () ∧
      ¬ semantics.ends (hunt.term 4) () .normal () ∧
      ¬ semantics.ends (hunt.term 6) () (.broke none) () := by
  let value : EndRelation Unit Empty Empty := fun _ _ completion _ => completion = .normal
  have hvalue : ∀ expr world label later, ¬ value expr world (.broke label) later :=
    fun _ _ _ _ h => nomatch h
  have hname : ∀ text, (Semantics.least value hvalue).ends (.node (.name text none) none [])
      () .normal () := fun _ => .expr rfl rfl
  have hbreak : (Semantics.least value hvalue).ends (hunt.term 4) () (.broke none) () :=
    .stmt rfl (.taken (hname "found") (.stmt rfl .broke))
  have hloop : (Semantics.least value hvalue).ends (hunt.term 6) () .normal () :=
    .stmt rfl (.looped (.broke (hname "more")
      (.stmt rfl (.row rfl (.stop hbreak (by simp))))))
  have hroot : hunt.ValidAt 7 := by decide
  have hif := @jump_readings_sound hunt 7 4 _ _ _ (Semantics.least value hvalue) hroot
    (by decide) (by decide)
  have hwhile := @jump_readings_sound hunt 7 6 _ _ _ (Semantics.least value hvalue) hroot
    (by decide) (by decide)
  exact ⟨Semantics.least value hvalue, hbreak, hloop, hif.1 (by decide) () (),
    hwhile.2.1 (by decide) () ()⟩

end Store

end CodeTidy
