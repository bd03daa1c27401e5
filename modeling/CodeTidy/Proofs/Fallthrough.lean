import CodeTidy.Proofs.Execution
import CodeTidy.Proofs.Idle
import CodeTidy.Proofs.Inversion
import Mathlib.Data.List.TakeWhile

/-!
# Switches and the conditionals made of them

A switch is entered at a label and left by a break.  In every execution in which its subject and
its labels have values and no effects, a switch with one or two closed groups chooses one of them
(`exec_one`, `exec_two`), and the conditional that the switch rule builds makes the same choice.
-/

namespace CodeTidy

namespace TwoWaySwitch

open Conduct

variable {World Val Thrown : Type} [DecidableEq Val] {execution : Execution World Val Thrown}
  {constant : Term → Val} {key : Val} {world : World} {subject : Term}
  {group first second : Group Term} {type : Option TypeDesc}

/-! ## Groups -/

def Group.hasCase (constant : Term → Val) (key : Val) (group : Group Term) : Bool :=
  group.labels.any (fun label => decide (constant label = key))

def Group.conduct (execution : Execution World Val Thrown) (group : Group Term) :
    Conduct World Val Thrown :=
  .sequence (group.stmts.map execution.exec)

namespace Group.IsSplit

theorem executed_body (h : group.IsSplit) (rest : List Term) :
    Term.executed (group.body ++ rest) = group.stmts ++ Term.executed rest := by
  have hitems : group.items.filter (fun item => item.head != .caseLabel) = [] :=
    List.filter_eq_nil_iff.mpr (fun item hitem => by simp [h.items item hitem])
  have hstmts : group.stmts.filter (fun item => item.head != .caseLabel) = group.stmts :=
    List.filter_eq_self.mpr (fun stmt hstmt => by simpa using h.stmts stmt hstmt)
  unfold Term.executed
  rw [body, List.filter_append, List.filter_append, hitems, hstmts, List.nil_append]

theorem executed_dropWhile (h : group.IsSplit) {isEntry : Term → Bool}
    (hlabel : ∀ item, isEntry item = true → item.head = .caseLabel) (rest : List Term) :
    Term.executed ((group.body ++ rest).dropWhile (fun item => !isEntry item)) =
      if group.items.any isEntry then group.stmts ++ Term.executed rest
      else Term.executed (rest.dropWhile (fun item => !isEntry item)) := by
  have hstmts : ∀ stmt, stmt ∈ group.stmts → (!isEntry stmt) = true := by
    intro stmt hstmt
    rw [Bool.not_eq_true', ← Bool.not_eq_true]
    exact fun hentry => h.stmts stmt hstmt (hlabel stmt hentry)
  rw [body, List.append_assoc]
  by_cases hentry : group.items.dropWhile (fun item => !isEntry item) = []
  · have hnone := List.dropWhile_eq_nil_iff.mp hentry
    have hany : group.items.any isEntry = false :=
      List.any_eq_false.mpr (fun item hitem => by simpa using hnone item hitem)
    rw [List.dropWhile_append_of_pos hnone, List.dropWhile_append_of_pos hstmts, hany]
    rfl
  · -- Entered among its labels, the group is one that begins with a later label.
    have hany : group.items.any isEntry = true := by
      rw [← Bool.not_eq_false, List.any_eq_false]
      exact fun hnone => hentry (List.dropWhile_eq_nil_iff.mpr (by simpa using hnone))
    have hlater : IsSplit ⟨group.items.dropWhile (fun item => !isEntry item), group.stmts⟩ :=
      ⟨hentry, fun item hitem => h.items item ((List.dropWhile_sublist _).subset hitem), h.stmts⟩
    rw [List.dropWhile_append, if_neg (by simpa using hentry), hany, if_pos rfl,
      ← hlater.executed_body, body, List.append_assoc]

theorem any_body (h : group.IsSplit) {isEntry : Term → Bool}
    (hlabel : ∀ item, isEntry item = true → item.head = .caseLabel) :
    group.body.any isEntry = group.items.any isEntry := by
  have hstmts : group.stmts.any isEntry = false :=
    List.any_eq_false.mpr (fun stmt hstmt hentry => h.stmts stmt hstmt (hlabel stmt hentry))
  rw [body, List.any_append, hstmts, Bool.or_false]

theorem any_isCase (h : group.IsSplit) :
    group.items.any (Term.isCase constant key) = group.hasCase constant key := by
  rw [hasCase, labels, List.any_flatMap, Bool.eq_iff_iff, List.any_eq_true, List.any_eq_true]
  refine exists_congr fun item => and_congr_right fun hitem => ?_
  rw [Term.isCase, h.items item hitem, beq_self_eq_true, Bool.true_and]

theorem any_isDefault (h : group.IsSplit) : group.items.any Term.isDefault = group.hasDefault := by
  rw [hasDefault, Bool.eq_iff_iff, List.any_eq_true, List.any_eq_true]
  refine exists_congr fun item => and_congr_right fun hitem => ?_
  rw [Term.isDefault, h.items item hitem, beq_self_eq_true, Bool.true_and]

theorem filter_body (h : group.IsSplit) :
    group.body.filter (fun item => item.head == .caseLabel) = group.items := by
  have hitems : group.items.filter (fun item => item.head == .caseLabel) = group.items :=
    List.filter_eq_self.mpr (fun item hitem => by simpa using h.items item hitem)
  have hstmts : group.stmts.filter (fun item => item.head == .caseLabel) = [] :=
    List.filter_eq_nil_iff.mpr (fun stmt hstmt => by simpa using h.stmts stmt hstmt)
  rw [body, List.filter_append, hitems, hstmts, List.append_nil]

theorem labels_body (h : group.IsSplit) : Term.labels group.body = group.labels := by
  rw [Term.labels, h.filter_body, labels]

end Group.IsSplit

theorem head_of_isCase {item : Term} (h : item.isCase constant key = true) :
    item.head = .caseLabel := by
  simp only [Term.isCase, Bool.and_eq_true, beq_iff_eq] at h
  exact h.1

theorem head_of_isDefault {item : Term} (h : item.isDefault = true) : item.head = .caseLabel := by
  simp only [Term.isDefault, Bool.and_eq_true, beq_iff_eq] at h
  exact h.1

/-! ## Where a switch is entered -/

theorem executed_one (h : group.IsSplit) :
    Term.executed (Term.entered constant key group.body) =
      if group.hasCase constant key || group.hasDefault then group.stmts else [] := by
  have hcase := h.executed_dropWhile (fun _ => @head_of_isCase _ _ constant key _) []
  have hdefault := h.executed_dropWhile (fun _ => head_of_isDefault) []
  rw [List.append_nil, h.any_isCase] at hcase
  rw [List.append_nil, h.any_isDefault] at hdefault
  unfold Term.entered
  rw [h.any_body (fun _ => head_of_isCase), h.any_isCase]
  cases hkey : group.hasCase constant key with
  | true =>
      rw [hkey, if_pos rfl] at hcase
      rw [if_pos rfl, hcase]
      exact List.append_nil _
  | false =>
      rw [if_neg Bool.false_ne_true, hdefault, Bool.false_or]
      cases group.hasDefault with
      | true => exact List.append_nil _
      | false => rfl

/-- A switch with two groups runs on from the first group into the second. -/
theorem executed_two (h : first.IsSplit) (h' : second.IsSplit) :
    Term.executed (Term.entered constant key (first.body ++ second.body)) =
      if first.hasCase constant key then first.stmts ++ second.stmts
      else if second.hasCase constant key then second.stmts
      else if first.hasDefault then first.stmts ++ second.stmts
      else if second.hasDefault then second.stmts else [] := by
  have hnone : Term.executed [] = [] := rfl
  have hsecond : Term.executed second.body = second.stmts := by
    simpa [hnone] using h'.executed_body []
  have hcase := h.executed_dropWhile (fun _ => @head_of_isCase _ _ constant key _) second.body
  have hcase' := h'.executed_dropWhile (fun _ => @head_of_isCase _ _ constant key _) []
  have hdefault := h.executed_dropWhile (fun _ => head_of_isDefault) second.body
  have hdefault' := h'.executed_dropWhile (fun _ => head_of_isDefault) []
  rw [List.append_nil, h'.any_isCase, hnone, List.append_nil] at hcase'
  rw [List.append_nil, h'.any_isDefault, hnone, List.append_nil] at hdefault'
  rw [h.any_isCase, hsecond, hcase'] at hcase
  rw [h.any_isDefault, hsecond, hdefault'] at hdefault
  unfold Term.entered
  rw [List.any_append, h.any_body (fun _ => head_of_isCase), h'.any_body (fun _ => head_of_isCase),
    h.any_isCase, h'.any_isCase]
  cases hkey : first.hasCase constant key with
  | true =>
      rw [hkey, if_pos rfl] at hcase
      rw [Bool.true_or, if_pos rfl, if_pos rfl, hcase]
  | false =>
      rw [hkey, if_neg Bool.false_ne_true] at hcase
      rw [Bool.false_or, if_neg Bool.false_ne_true]
      cases hkey' : second.hasCase constant key with
      | true =>
          rw [hkey', if_pos rfl] at hcase
          rw [if_pos rfl, if_pos rfl, hcase]
      | false =>
          rw [if_neg Bool.false_ne_true, if_neg Bool.false_ne_true, hdefault, List.dropWhile_nil,
            hnone]

/-! ## How a group is left -/

/-- The statements of a closed group do what they do without their final break. -/
theorem caught_stmts (hall : ∀ stmt, stmt ∈ group.stmts → stmt.all Term.hasBranches = true)
    (hclosed : group.IsClosed) :
    caught (group.conduct execution) = group.close.conduct execution := by
  have hquiet : (group.close.conduct execution).Avoids (.broke none) := by
    refine avoids_broke_sequence fun conduct hmem => ?_
    obtain ⟨stmt, hstmt, rfl⟩ := List.mem_map.mp hmem
    exact execution.avoids_broke (hall stmt (Group.mem_of_close hstmt)) (hclosed stmt hstmt)
  rw [← caught_of_avoids hquiet]
  unfold Group.conduct Group.close Group.trim
  dsimp only
  split
  · next hbreak =>
      obtain ⟨last, hlast, hhead⟩ := (Option.any_eq_true _ _).mp hbreak
      obtain ⟨before, hbefore⟩ := List.getLast?_eq_some_iff.mp hlast
      have hend : sequence [execution.exec last] = ending (.broke none) := by
        cases last with
        | node head type subs =>
            obtain rfl : head = .breakStmt none := by simpa using hhead
            rw [execution.exec_break]
            rfl
      rw [hbefore, List.dropLast_concat, List.map_append, sequence_append, List.map_singleton, hend,
        caught_andThen_broke]
  · rfl

/-- Nothing falls through the end of a group that ends with a jump. -/
theorem sequence_of_jump (hjump : first.stmts.getLast?.any Term.endsWithJump = true)
    (rest : List Term) :
    sequence ((first.stmts ++ rest).map execution.exec) = first.conduct execution := by
  obtain ⟨last, hlast, hends⟩ := (Option.any_eq_true _ _).mp hjump
  have hnormal : (first.conduct execution).Avoids .normal := by
    refine avoids_normal_sequence ?_ (execution.avoids_normal hends)
    rw [List.getLast?_map, hlast, Option.map_some]
  rw [List.map_append, sequence_append]
  exact andThen_of_avoids hnormal

/-! ## What a switch does -/

/-- What the subject and the labels of a switch are in a world: they have values and no effects,
no two labels have the same value, and the test of a label tells whether it has the value of the
subject. -/
structure Settled (execution : Execution World Val Thrown) (world : World) (subject : Term)
    (labels : List Term) (key : Val) (constant : Term → Val) : Prop where
  reads_subject : (execution.value subject).Reads world key
  reads_labels : ∀ label, label ∈ labels →
    (execution.value label).Reads world (constant label)
  distinct : (labels.map constant).Nodup
  reads_tests : ∀ label, label ∈ labels →
    (execution.test (labelTerm subject label)).Reads world (decide (constant label = key))

theorem exec_one (hsplit : group.IsSplit) (hclosed : group.IsClosed)
    (hall : ∀ stmt, stmt ∈ group.stmts → stmt.all Term.hasBranches = true)
    (hsettled : Settled execution world subject (Term.labels group.body) key constant) :
    execution.exec (.node .switchStmt type (subject :: group.body)) world =
      (if group.hasCase constant key || group.hasDefault then group.close.conduct execution
        else ending .normal) world := by
  rw [execution.exec_entered _ _ _ _ _ _ hsettled.reads_subject hsettled.reads_labels,
    executed_one hsplit]
  split
  · exact congrFun (caught_stmts hall hclosed) world
  · rfl

theorem exec_two (hsplit : first.IsSplit) (hsplit' : second.IsSplit) (hclosed : first.IsClosed)
    (hclosed' : second.IsClosed)
    (hall : ∀ stmt, stmt ∈ first.stmts ++ second.stmts → stmt.all Term.hasBranches = true)
    (hjump : first.stmts.getLast?.any Term.endsWithJump = true)
    (hsettled : Settled execution world subject (Term.labels (first.body ++ second.body)) key
      constant) :
    execution.exec (.node .switchStmt type (subject :: (first.body ++ second.body))) world =
      (if first.hasCase constant key then first.close.conduct execution
        else if second.hasCase constant key then second.close.conduct execution
        else if first.hasDefault then first.close.conduct execution
        else if second.hasDefault then second.close.conduct execution
        else ending .normal) world := by
  have hfirst := fun stmt hstmt => hall stmt (List.mem_append_left _ hstmt)
  have hsecond : caught (second.conduct execution) = second.close.conduct execution :=
    caught_stmts (fun stmt hstmt => hall stmt (List.mem_append_right _ hstmt)) hclosed'
  have hthrough : caught (sequence ((first.stmts ++ second.stmts).map execution.exec)) =
      first.close.conduct execution := by
    rw [sequence_of_jump hjump, caught_stmts hfirst hclosed]
  rw [execution.exec_entered _ _ _ _ _ _ hsettled.reads_subject hsettled.reads_labels,
    executed_two hsplit hsplit']
  split
  · exact congrFun hthrough world
  · split
    · exact congrFun hsecond world
    · split
      · exact congrFun hthrough world
      · split
        · exact congrFun hsecond world
        · rfl

/-! ## What the conditional does -/

/-- What is done with what stands in the place of a switch, or with nothing. -/
def perform (execution : Execution World Val Thrown) : Option Term → Conduct World Val Thrown
  | some stmt => execution.exec stmt
  | none => ending .normal

/-- The test of a group has no effect and tells whether one of its labels has the value. -/
theorem reads_groupTerm {labels : List Term}
    (h : ∀ label, label ∈ labels →
      (execution.test (labelTerm subject label)).Reads world (decide (constant label = key))) :
    (execution.test (groupTerm subject labels)).Reads world
      (labels.any (fun label => decide (constant label = key))) := by
  rw [groupTerm, execution.test_join_or, List.map_map]
  exact Action.reads_untilStop_map h

theorem exec_ifStmt (cond thenBranch : Term) (elseBranch : Option Term) :
    execution.exec (.ifStmt cond thenBranch elseBranch) =
      branch (execution.test cond) (execution.exec thenBranch) (perform execution elseBranch) := by
  cases elseBranch with
  | none => exact execution.exec_if ..
  | some elseBranch => exact execution.exec_ifElse ..

theorem perform_statementTerm
    (htests : ∀ label, label ∈ group.labels →
      (execution.test (labelTerm subject label)).Reads world (decide (constant label = key)))
    (hdefault : group.hasDefault = false) (rest : Option Term) :
    perform execution (statementTerm subject group rest) world =
      (if group.hasCase constant key then group.conduct execution else perform execution rest)
        world := by
  have hif : execution.exec (.ifStmt (groupTerm subject group.labels) (.block group.stmts) rest)
      world = (if group.hasCase constant key then group.conduct execution
        else perform execution rest) world := by
    rw [exec_ifStmt, branch_of_reads (reads_groupTerm htests), Term.block, execution.exec_block]
    rfl
  cases rest with
  | some elseBranch => exact hif
  | none =>
      unfold statementTerm
      by_cases hempty : group.stmts = []
      · have hnothing : group.conduct execution = ending .normal := by
          rw [Group.conduct, hempty]
          rfl
        simp [hempty, hnothing, perform]
      · simp only [List.isEmpty_iff, if_neg hempty, hdefault, Bool.false_eq_true, if_false]
        exact hif

theorem perform_last
    (htests : ∀ label, label ∈ group.labels →
      (execution.test (labelTerm subject label)).Reads world (decide (constant label = key))) :
    perform execution (statementTerm subject group none) world =
      (if group.hasCase constant key || group.hasDefault then group.conduct execution
        else ending .normal) world := by
  cases hdefault : group.hasDefault with
  | false =>
      rw [Bool.or_false]
      exact perform_statementTerm htests hdefault none
  | true =>
      rw [Bool.or_true, if_pos rfl, statementTerm, hdefault, if_pos rfl]
      split
      · next hempty =>
          rw [Group.conduct, List.isEmpty_iff.mp hempty]
          rfl
      · exact congrFun (execution.exec_block ..) world

/-- The conditional for two groups, of which only the second may have the default label. -/
theorem perform_pair
    (htests : ∀ label, label ∈ first.labels ++ second.labels →
      (execution.test (labelTerm subject label)).Reads world (decide (constant label = key)))
    (hdefault : first.hasDefault = false) :
    perform execution (conditionalTerm subject [first, second]) world =
      (if first.hasCase constant key then first.conduct execution
        else if second.hasCase constant key || second.hasDefault then second.conduct execution
        else ending .normal) world := by
  refine (perform_statementTerm (fun label hlabel => htests label (List.mem_append_left _ hlabel))
    hdefault _).trans ?_
  split
  · rfl
  · exact perform_last (fun label hlabel => htests label (List.mem_append_right _ hlabel))

theorem perform_of_becomes {result fresh : Option Term} (h : Becomes result fresh) :
    perform execution fresh = perform execution result := by
  cases result with
  | some stmt =>
      cases h
      rfl
  | none =>
      cases h with
      | slot => rfl
      | block => exact execution.exec_block none []

/-! ## The same choice -/

theorem hasCase_apart (hdistinct : ((first.labels ++ second.labels).map constant).Nodup)
    (h : first.hasCase constant key = true) : second.hasCase constant key = false := by
  rw [← Bool.not_eq_true]
  intro h'
  obtain ⟨label, hlabel, hkey⟩ := List.any_eq_true.mp h
  obtain ⟨label', hlabel', hkey'⟩ := List.any_eq_true.mp h'
  rw [List.map_append] at hdistinct
  refine (List.nodup_append.mp hdistinct).2.2 _ (List.mem_map_of_mem hlabel) _
    (List.mem_map_of_mem hlabel') ?_
  rw [of_decide_eq_true hkey, of_decide_eq_true hkey']

theorem hasDefault_apart (hsplit : first.IsSplit) (hsplit' : second.IsSplit)
    (hdefaults : (first.body ++ second.body).countP Term.isDefault ≤ 1)
    (h : first.hasDefault = true) : second.hasDefault = false := by
  rw [← Bool.not_eq_true]
  intro h'
  rw [← hsplit.any_isDefault] at h
  rw [← hsplit'.any_isDefault] at h'
  have hpositive : ∀ {group : Group Term}, group.items.any Term.isDefault = true →
      0 < group.body.countP Term.isDefault := by
    intro group hany
    obtain ⟨item, hitem, hdefault⟩ := List.any_eq_true.mp hany
    exact List.countP_pos_iff.mpr ⟨item, List.mem_append_left _ hitem, hdefault⟩
  have := hpositive h
  have := hpositive h'
  rw [List.countP_append] at hdefaults
  omega

/-- What takes the place of a switch makes the choice that the switch makes. -/
theorem Rewrite.performs {old : Term} {fresh : Option Term} {body : List Term}
    (h : Rewrite old fresh) (hold : old = .node .switchStmt type (subject :: body))
    (hall : old.all Term.hasBranches = true) (hdefaults : body.countP Term.isDefault ≤ 1)
    (hsettled : Settled execution world subject (Term.labels body) key constant) :
    perform execution fresh world = execution.exec old world := by
  cases h with
  | @one type' subject' group fresh hpassive hsplit hclosed hfresh =>
      obtain ⟨rfl, rfl, rfl⟩ : type' = type ∧ subject' = subject ∧ group.body = body := by
        simpa using hold
      have hstmts : ∀ stmt, stmt ∈ group.stmts → stmt.all Term.hasBranches = true :=
        fun stmt hstmt => Term.all_sub hall
          (List.mem_cons_of_mem _ (List.mem_append_right _ hstmt))
      have htests := hsettled.reads_tests
      rw [hsplit.labels_body] at htests
      rw [perform_of_becomes hfresh, exec_one hsplit hclosed hstmts hsettled]
      exact @perform_last _ _ _ _ _ _ _ _ _ group.close htests
  | @two type' subject' first second fresh hpassive hsplit hsplit' hclosed hclosed' hjump hapart
      hfresh =>
      obtain ⟨rfl, rfl, rfl⟩ : type' = type ∧ subject' = subject ∧
          first.body ++ second.body = body := by
        simpa using hold
      have hstmts : ∀ stmt, stmt ∈ first.stmts ++ second.stmts →
          stmt.all Term.hasBranches = true := by
        intro stmt hstmt
        refine Term.all_sub hall (List.mem_cons_of_mem _ ?_)
        rcases List.mem_append.mp hstmt with hin | hin
        · exact List.mem_append_left _ (List.mem_append_right _ hin)
        · exact List.mem_append_right _ (List.mem_append_right _ hin)
      have hlabels : Term.labels (first.body ++ second.body) = first.labels ++ second.labels := by
        rw [Term.labels_append, hsplit.labels_body, hsplit'.labels_body]
      have htests := hsettled.reads_tests
      have hdistinct := hsettled.distinct
      rw [hlabels] at htests hdistinct
      rw [perform_of_becomes hfresh, exec_two hsplit hsplit' hclosed hclosed' hstmts hjump hsettled]
      unfold inOrder
      cases hdefault : first.hasDefault with
      | true =>
          have hdefault' := hasDefault_apart hsplit hsplit' hdefaults hdefault
          have hswapped : ∀ label, label ∈ second.labels ++ first.labels →
              (execution.test (labelTerm subject' label)).Reads world
                (decide (constant label = key)) :=
            fun label hlabel => htests label (List.perm_append_comm.subset hlabel)
          have hpair := @perform_pair _ _ _ _ execution constant key world subject' second.close
            first.close hswapped hdefault'
          rw [if_pos (show first.close.hasDefault = true from hdefault)]
          refine hpair.trans ?_
          -- The default group is tested last, and entered first where its labels are hit.
          change (if second.hasCase constant key then second.close.conduct execution
            else if first.hasCase constant key || first.hasDefault then _ else _) world = _
          rw [hdefault, hdefault', Bool.or_true, if_pos rfl, if_pos rfl]
          cases hfirst : first.hasCase constant key with
          | true =>
              rw [hasCase_apart hdistinct hfirst]
              rfl
          | false => rfl
      | false =>
          have hpair := @perform_pair _ _ _ _ execution constant key world subject' first.close
            second.close htests hdefault
          rw [if_neg (show ¬ first.close.hasDefault = true from ne_true_of_eq_false hdefault)]
          refine hpair.trans ?_
          change (if first.hasCase constant key then first.close.conduct execution
            else if second.hasCase constant key || second.hasDefault then _ else _) world = _
          cases second.hasCase constant key <;> rfl

/-! ## The rule -/

theorem kind_eq_default_iff {store : Store} {item : Tree} (h : item.Legible store) :
    store.kind item.id = .caseLabel none ↔ item.term.isDefault = true := by
  rw [Term.isDefault, Tree.head_term, Tree.subs_term, Bool.and_eq_true, beq_iff_eq,
    List.isEmpty_iff, List.map_eq_nil_iff]
  constructor
  · intro hkind
    obtain ⟨subs, hform, hids⟩ := h.of_kind hkind
    obtain rfl : subs = [] := List.map_eq_nil_iff.mp hids
    rw [hform]
    exact ⟨rfl, rfl⟩
  · rintro ⟨hhead, hsubs⟩
    obtain ⟨label, hkind, hids⟩ := exists_label h hhead
    rw [hsubs] at hids
    cases label with
    | none => exact hkind
    | some label => cases hids

/-- The edit that the rule records at a switch replaces it by a conditional or a block, or removes
it. -/
theorem exists_rewrite {store drafted : Store} {old : Tree} {options : Options}
    {response : Response} (hidle : store.moves = []) (htyped : store.TypesKnown)
    (hlegible : old.Legible store) (hlive : ∀ sub, sub ∈ old.subs → sub.Live store)
    (hnodup : old.ids.Nodup) (hrun : respond options old.id store = .ok (response, drafted))
    (hedits : response.edits ≠ []) :
    ∃ result : Option Term,
      ((∃ child, response.edits = [⟨old.id, .replace child⟩] ∧
          result = some (drafted.term child.node)) ∨
        response.edits = [⟨old.id, .remove⟩] ∧ result = none) ∧
      Rewrite old.term result := by
  rcases @responds _ _ options hidle htyped hlegible hlive hnodup with
    hdecline | ⟨type, subject, body, ordered, hterm, -, hpassive, hplan, hanswer⟩
  · rw [hdecline] at hrun
    cases hrun
    exact absurd rfl hedits
  have hrewrite : ∀ fresh, Becomes (conditionalTerm subject.term
      (ordered.map (Group.map Tree.term))) fresh → Rewrite old.term fresh := by
    intro fresh hfresh
    rw [hterm]
    exact hplan.rewrite hpassive hfresh
  rcases hanswer with ⟨-, hfault⟩ |
    ⟨region, drafted', -, ⟨new, hnew, hdraft, hanswer⟩ | ⟨hnone, hdraft, hanswer⟩⟩
  · rw [hfault] at hrun
    cases hrun
  · rw [hanswer] at hrun
    cases hrun
    refine ⟨some new.term, .inl ⟨.fresh new.id, rfl, ?_⟩, hrewrite _ (by rw [hnew]; rfl)⟩
    exact congrArg some (hdraft.legible (List.mem_singleton_self new)).term_eq.symm
  · rcases hdraft.run_dropStatement old.id with
      ⟨-, hdrop⟩ | ⟨-, later, hdrop, hempty⟩
    · rw [hanswer, Build.bind_ok hdrop] at hrun
      cases hrun
      exact ⟨none, .inr ⟨rfl, rfl⟩, hrewrite _ (by rw [hnone]; exact .slot)⟩
    · rw [hanswer, Build.bind_ok hdrop] at hrun
      cases hrun
      refine ⟨some (.block []), .inl ⟨.fresh drafted'.size, rfl, ?_⟩,
        hrewrite _ (by rw [hnone]; exact .block)⟩
      have hterm := (hempty.legible (List.mem_cons_self ..)).term_eq
      rw [Tree.term_node] at hterm
      exact congrArg some hterm.symm

theorem exists_result {store drafted : Store} {root node : NodeId} {options : Options}
    {response : Response} (htyped : store.TypesKnown) (hvalid : store.ValidAt root)
    (hnode : node ∈ store.preorder root)
    (hrun : respond options node store = .ok (response, drafted)) (hedits : response.edits ≠ []) :
    ∃ result : Option Term,
      ((∃ child, response.edits = [⟨node, .replace child⟩] ∧
          result = some (drafted.term child.node)) ∨
        response.edits = [⟨node, .remove⟩] ∧ result = none) ∧
      Rewrite (store.term node) result := by
  obtain ⟨hidle, tree, rfl, hnodup, hheld⟩ :=
    (Store.violations_eq_nil_iff htyped hvalid.1).mp hvalid.2
  have hself : tree.Legible store := ⟨hheld.laid, hheld.laid.height_le hnodup⟩
  rw [hself.preorder_eq] at hnode
  obtain ⟨old, hold, rfl⟩ := Tree.mem_ids_iff.mp hnode
  have hlive : ∀ sub, sub ∈ old.subs → sub.Live store := fun sub hsub =>
    hheld.live_of_mem hnodup (Tree.slot_mem_subtrees hold hsub)
      (Tree.ne_of_mem_slot hold hsub sub.mem_subtrees_self)
  have hlegible := hself.of_mem hold
  rw [hlegible.term_eq]
  exact exists_rewrite hidle htyped hlegible hlive (Tree.nodup_ids_of_mem hnodup hold) hrun hedits

/-- Whatever the rule puts in the place of a switch with at most one default label, an if, a block
or nothing, ends as the switch does and leaves the same world, in every execution and from every
world in which the subject and the labels are settled. -/
theorem conditional_executes_as_switch {store drafted : Store} {root node subject : NodeId}
    {body : List NodeId} {options : Options} {response : Response} (htyped : store.TypesKnown)
    (hvalid : store.ValidAt root) (hnode : node ∈ store.preorder root)
    (hkind : store.kind node = .switchStmt subject body)
    (hdefaults : body.countP (fun item => store.kind item = .caseLabel none) ≤ 1)
    (hrun : respond options node store = .ok (response, drafted)) (hedits : response.edits ≠ []) :
    ∃ result : Option Term,
      ((∃ child, response.edits = [⟨node, .replace child⟩] ∧
          result = some (drafted.term child.node)) ∨
        response.edits = [⟨node, .remove⟩] ∧ result = none) ∧
      ∀ (execution : Execution World Val Thrown) (world : World) (key : Val)
        (constant : Term → Val),
        Settled execution world (store.term subject) (Term.labels (body.map store.term)) key
          constant →
        perform execution result world = execution.exec (store.term node) world := by
  obtain ⟨hroot, hclean⟩ := hvalid
  obtain ⟨hidle, tree, rfl, hnodup, hheld⟩ := (Store.violations_eq_nil_iff htyped hroot).mp hclean
  have hself : tree.Legible store := ⟨hheld.laid, hheld.laid.height_le hnodup⟩
  rw [hself.preorder_eq] at hnode
  obtain ⟨old, hold, rfl⟩ := Tree.mem_ids_iff.mp hnode
  have hlegible := hself.of_mem hold
  obtain ⟨subs, hform, hids⟩ := hlegible.of_kind hkind
  obtain ⟨subject, body, rfl, rfl, rfl⟩ := List.map_eq_cons_iff.mp hids
  have hsubs : old.subs = subject :: body := by rw [hform]; rfl
  have hbody : ∀ item, item ∈ body → item.Legible store :=
    fun item hitem => hlegible.sub (by rw [hsubs]; exact List.mem_cons_of_mem _ hitem)
  have hlive : ∀ sub, sub ∈ old.subs → sub.Live store := fun sub hsub =>
    hheld.live_of_mem hnodup (Tree.slot_mem_subtrees hold hsub)
      (Tree.ne_of_mem_slot hold hsub sub.mem_subtrees_self)
  have hterm := hlegible.term_eq
  have hform' : old.term = .node .switchStmt old.type (subject.term :: body.map Tree.term) := by
    rw [hform]
    simp [Kind.head]
  have hsubject : store.term subject.id = subject.term :=
    (hlegible.sub (by rw [hsubs]; exact List.mem_cons_self ..)).term_eq
  have hterms : (body.map Tree.id).map store.term = body.map Tree.term := by
    rw [List.map_map]
    exact List.map_congr_left (fun item hitem => (hbody item hitem).term_eq)
  have hcount : (body.map Tree.term).countP Term.isDefault ≤ 1 := by
    refine Nat.le_trans (Nat.le_of_eq ?_) hdefaults
    rw [List.countP_map, List.countP_map]
    refine List.countP_congr fun item hitem => ?_
    simpa using (kind_eq_default_iff (hbody item hitem)).symm
  obtain ⟨result, hresult, hrewrite⟩ := exists_rewrite hidle htyped hlegible hlive
    (Tree.nodup_ids_of_mem hnodup hold) hrun hedits
  refine ⟨result, hresult, fun execution world key constant hsettled => ?_⟩
  rw [hsubject, hterms] at hsettled
  rw [hterm]
  exact hrewrite.performs hform' hlegible.all_hasBranches hcount hsettled

end TwoWaySwitch

/-! ## A machine with one kind of loop -/

namespace Sample

open Conduct

structure Doing where
  term : Term
  conduct : Conduct Memory Number Unit

def reading (world : Memory) (term : Term) : Number :=
  match (logic.value term).outcome world with
  | some (.ok value, _) => value
  | _ => none

def choose (subject : Term) (body : List Doing) : Conduct Memory Number Unit :=
  fun world =>
    let entry := if body.any (fun item => item.term.isCase (reading world) (reading world subject))
      then body.dropWhile (fun item => !item.term.isCase (reading world) (reading world subject))
      else body.dropWhile (fun item => !item.term.isDefault)
    caught (sequence ((entry.filter (fun item => item.term.head != .caseLabel)).map Doing.conduct))
      world

/-- What a statement does.  Loops end at once. -/
def act (head : Head) (type : Option TypeDesc) (subs : List Doing) : Doing where
  term := .node head type (subs.map Doing.term)
  conduct :=
    match head, subs with
    | .block, _ | .unit, _ => sequence (subs.map Doing.conduct)
    | .ifStmt, [cond, thenBranch] =>
        branch (logic.test cond.term) thenBranch.conduct (ending .normal)
    | .ifStmt, [cond, thenBranch, elseBranch] =>
        branch (logic.test cond.term) thenBranch.conduct elseBranch.conduct
    | .switchStmt, subject :: body => choose subject.term body
    | .breakStmt label, _ => ending (.broke label)
    | .continueStmt label, _ => ending (.continued label)
    | .returnStmt, _ => ending (.returned none)
    | .throwStmt, _ => ending (.thrown ())
    | .exprStmt, [expr] => branch (logic.test expr.term) (ending .normal) (ending .normal)
    | _, _ => ending .normal

def doing : Term → Doing :=
  Term.fold act

theorem doing_node (head : Head) (type : Option TypeDesc) (subs : List Term) :
    doing (.node head type subs) = act head type (subs.map doing) :=
  Term.fold_node ..

theorem term_doing (term : Term) : (doing term).term = term := by
  induction term with
  | node head type subs ih =>
      have hsubs : (subs.map doing).map Doing.term = subs := by
        rw [List.map_map]
        exact (List.map_congr_left ih).trans (List.map_id subs)
      rw [doing_node]
      exact congrArg (Term.node head type) hsubs

theorem map_conduct (subs : List Term) :
    (subs.map doing).map Doing.conduct = subs.map (fun term => (doing term).conduct) := by
  rw [List.map_map]
  rfl

/-- A switch is entered where the values of its labels say. -/
theorem choose_doing (subject : Term) (body : List Term) (world : Memory) :
    choose subject (body.map doing) world =
      caught (sequence ((Term.executed (Term.entered (reading world) (reading world subject)
        body)).map (fun term => (doing term).conduct))) world := by
  unfold choose Term.executed Term.entered
  simp only [List.any_map, List.dropWhile_map, Function.comp_def, term_doing]
  split <;> simp only [List.filter_map, Function.comp_def, term_doing, map_conduct]

theorem reading_of_reads {world : Memory} {term : Term} {value : Number}
    (h : (logic.value term).Reads world value) : reading world term = value := by
  unfold reading
  rw [h]

/-- The values of the labels decide where a switch is entered. -/
theorem isCase_congr {constant constant' : Term → Number} {key : Number} {body : List Term}
    (h : ∀ label, label ∈ Term.labels body → constant label = constant' label)
    {item : Term} (hitem : item ∈ body) :
    item.isCase constant key = item.isCase constant' key := by
  unfold Term.isCase
  by_cases hhead : item.head = .caseLabel
  · have hlabels : ∀ label, label ∈ item.subs → constant label = constant' label := by
      intro label hlabel
      refine h label (List.mem_flatMap.mpr ⟨item, ?_, hlabel⟩)
      exact List.mem_filter.mpr ⟨hitem, by simpa using hhead⟩
    congr 1
    rw [Bool.eq_iff_iff, List.any_eq_true, List.any_eq_true]
    exact exists_congr fun label => and_congr_right fun hlabel => by rw [hlabels label hlabel]
  · rw [beq_eq_false_iff_ne.mpr hhead]
    rfl

theorem entered_congr {constant constant' : Term → Number} (key : Number) {body : List Term}
    (h : ∀ label, label ∈ Term.labels body → constant label = constant' label) :
    Term.entered constant key body = Term.entered constant' key body := by
  have hsame : ∀ item, item ∈ body →
      item.isCase constant key = item.isCase constant' key :=
    fun item hitem => isCase_congr h hitem
  clear h
  have hany : body.any (Term.isCase constant key) = body.any (Term.isCase constant' key) := by
    rw [Bool.eq_iff_iff, List.any_eq_true, List.any_eq_true]
    exact exists_congr fun item => and_congr_right fun hitem => by rw [hsame item hitem]
  have hdrop : body.dropWhile (fun item => !item.isCase constant key) =
      body.dropWhile (fun item => !item.isCase constant' key) := by
    clear hany
    induction body with
    | nil => rfl
    | cons item rest ih =>
        rw [List.dropWhile_cons, List.dropWhile_cons, hsame item (List.mem_cons_self ..),
          ih (fun other hother => hsame other (List.mem_cons_of_mem _ hother))]
  rw [Term.entered, Term.entered, hany, hdrop]

/-- Names are variables, calls are recorded, and a loop ends at once. -/
def execution : Execution Memory Number Unit where
  toEvaluation := logic.toEvaluation
  exec term := (doing term).conduct
  exec_block type stmts := by rw [doing_node, ← map_conduct]; rfl
  exec_unit type stmts := by rw [doing_node, ← map_conduct]; rfl
  exec_if type cond thenBranch := by
    rw [doing_node]
    simp only [List.map_cons, List.map_nil, act, term_doing]
  exec_ifElse type cond thenBranch elseBranch := by
    rw [doing_node]
    simp only [List.map_cons, List.map_nil, act, term_doing]
  exec_break label type subs := by rw [doing_node]; rfl
  exec_continue label type subs := by rw [doing_node]; rfl
  exec_return type subs world completion later h := by
    rw [doing_node] at h
    cases h
    exact .inl ⟨none, rfl⟩
  exec_throw type subs world completion later h := by
    rw [doing_node] at h
    cases h
    exact ⟨(), rfl⟩
  exec_while type subs := by
    rw [doing_node]
    exact avoids_ending (by simp)
  exec_switch type subs := by
    rw [doing_node]
    cases subs with
    | nil => exact avoids_ending (by simp)
    | cons subject body =>
        exact fun world => avoids_caught _ world
  exec_entered type subject body world key constant hsubject hlabels := by
    have hchoose : (doing (.node .switchStmt type (subject :: body))).conduct =
        choose (doing subject).term (body.map doing) := by
      rw [doing_node]
      rfl
    rw [hchoose, term_doing, choose_doing, reading_of_reads hsubject,
      entered_congr key (fun label hlabel => reading_of_reads (hlabels label hlabel))]
  exec_other head type subs world completion later hhead h := by
    rw [doing_node] at h
    cases head with
    | exprStmt =>
        rcases subs with _ | ⟨expr, _ | _⟩
        · cases h
          exact .inl rfl
        · have hrun : branch (logic.test (doing expr).term) (ending .normal) (ending .normal)
              world = some (completion, later) := h
          unfold branch at hrun
          split at hrun <;> cases hrun
          · exact .inr ⟨_, rfl⟩
          · exact .inl rfl
          · exact .inl rfl
        · cases h
          exact .inl rfl
    | _ => cases hhead <;> cases h <;> exact .inl rfl

end Sample

namespace TwoWaySwitch

/-- The unit `while (true) { switch (k) { default: a(); continue; case 1: b(); } }`. -/
def continuingDefault : Store where
  nodes := #[
    ⟨.name "k" none, none, some 9, false⟩,
    ⟨.caseLabel none, none, some 9, false⟩,
    ⟨.call none "a" [], none, some 3, false⟩,
    ⟨.exprStmt 2, none, some 9, false⟩,
    ⟨.continueStmt none, none, some 9, false⟩,
    ⟨.literal (.int 1), none, some 6, false⟩,
    ⟨.caseLabel (some 5), none, some 9, false⟩,
    ⟨.call none "b" [], none, some 8, false⟩,
    ⟨.exprStmt 7, none, some 9, false⟩,
    ⟨.switchStmt 0 [1, 3, 4, 6, 8], none, some 11, false⟩,
    ⟨.literal (.bool true), none, some 12, false⟩,
    ⟨.block [9], none, some 12, false⟩,
    ⟨.whileStmt 10 11, none, some 13, false⟩,
    ⟨.unit [12], none, none, false⟩]

/-- The default group moves to the end, and still continues the loop. -/
theorem conditional_executes_as_switch_continuing :
    ∃ response drafted result, respond {} 9 continuingDefault = .ok (response, drafted) ∧
      (∃ child, response.edits = [⟨9, .replace child⟩] ∧
        result = some (drafted.term child.node)) ∧
      Sample.execution.exec (continuingDefault.term 9) ⟨fun _ => some 7, []⟩ =
        some (.continued none, ⟨fun _ => some 7, ["a"]⟩) ∧
      ∀ world, perform Sample.execution result world =
        Sample.execution.exec (continuingDefault.term 9) world := by
  obtain ⟨response, drafted, hrun, hedits⟩ :=
    @Build.exists_outcome continuingDefault _ (respond {} 9)
      (fun outcome => outcome.1.edits.any (fun edit => edit.change != .remove))
      (by decide +kernel)
  obtain ⟨result, hresult, hsame⟩ := @conditional_executes_as_switch Sample.Memory Sample.Number
    Unit _ continuingDefault drafted 13 9 0 [1, 3, 4, 6, 8] {} response (by decide +kernel)
    (by decide +kernel) (by decide +kernel) rfl (by decide +kernel) hrun
    (by rintro hnil; rw [hnil] at hedits; cases hedits)
  refine ⟨response, drafted, result, hrun, ?_, rfl, ?_⟩
  · rcases hresult with hreplace | ⟨hremove, -⟩
    · exact hreplace
    · rw [hremove] at hedits
      cases hedits
  · intro world
    have hlabels : Term.labels ([1, 3, 4, 6, 8].map continuingDefault.term) =
        [.node (.literal (.int 1)) none []] := rfl
    refine hsame Sample.execution world (world.state "k") (fun _ => some 1) ⟨rfl, ?_, ?_, ?_⟩ <;>
      rw [hlabels]
    · intro label hlabel
      rw [List.mem_singleton.mp hlabel]
      rfl
    · exact List.nodup_singleton _
    · intro label hlabel
      rw [List.mem_singleton.mp hlabel]
      have hsame : Sample.relation .equals none none (world.state "k") (some 1) =
          decide ((some 1 : Sample.Number) = world.state "k") := by
        cases world.state "k" with
        | none => rfl
        | some value =>
            have hcompare : Sample.relation .equals none none (some value) (some 1) =
                decide (value = 1) := rfl
            rw [hcompare, decide_eq_decide, Option.some.injEq, eq_comm]
      rw [← hsame]
      rfl

end TwoWaySwitch

end CodeTidy
