import CodeTidy.Proofs.Effect
import CodeTidy.Proofs.Matching
import CodeTidy.Rule.SetUpdate

/-!
# What the set rule does

A conditional that tests membership and then updates the set tests the answer of the
update instead.
-/

namespace CodeTidy

namespace SetUpdate

/-- The condition asks whether the set holds the argument, or whether it does not. -/
def Tests (cond receiver argument : Term) (negated : Bool) : Prop :=
  ∃ test type, test.bare = .node (.call true "contains") type [receiver, argument] ∧
    if negated then ∃ type', cond.bare = .node (.prefixed .not) type' [test]
    else test = cond.bare

def IsTypedSet (term : Term) : Prop :=
  term.type.any (fun type => type.isSubtypeOf setType) = true

/-- The statement updates the set that the condition asks about: it adds the argument
where it was absent, and removes it where it was present. -/
def Repeats (cond stmt call : Term) (inThen : Bool) : Prop :=
  ∃ receiver argument receiver' argument' negated type type',
    Tests cond receiver argument negated ∧ receiver.isPassive = true ∧
    argument.isPassive = true ∧ stmt = .node .exprStmt type [call] ∧
    call.bare = .node (.call true (if inThen = negated then "add" else "remove")) type'
      [receiver', argument'] ∧
    receiver.Alike receiver' ∧ argument.Alike argument' ∧ IsTypedSet receiver

def remains (branch : Term) : Option Term :=
  if branch.head = .block then some (.node .block branch.type branch.subs.tail) else none

inductive Rewrite : Rewriting where
  /-- The update is all that happens. -/
  | onlyThen {type : Option TypeDesc} {cond thenBranch stmt call : Term}
      {elseBranch : Option Term} (hrepeats : Repeats cond stmt call true)
      (hthen : thenBranch.statements = [stmt])
      (helse : Term.isEmptyBranch elseBranch = true) :
      Rewrite (.node .ifStmt type (cond :: thenBranch :: elseBranch.toList)) (some stmt)
  | onlyElse {type : Option TypeDesc} {cond thenBranch elseBranch stmt call : Term}
      (hrepeats : Repeats cond stmt call false)
      (hthen : Term.isEmptyBranch (some thenBranch) = true)
      (helse : elseBranch.statements = [stmt]) :
      Rewrite (.node .ifStmt type [cond, thenBranch, elseBranch]) (some stmt)
  /-- The update becomes the condition. -/
  | inThen {type : Option TypeDesc} {cond thenBranch stmt call : Term}
      {rest elseBranch : List Term} (hrepeats : Repeats cond stmt call true)
      (hthen : thenBranch.statements = stmt :: rest) :
      Rewrite (.node .ifStmt type (cond :: thenBranch :: elseBranch))
        (some (.node .ifStmt type
          (call :: (remains thenBranch).getD (.block []) :: elseBranch)))
  | inElse {type : Option TypeDesc} {cond thenBranch elseBranch stmt call : Term}
      {rest : List Term} (hrepeats : Repeats cond stmt call false)
      (helse : elseBranch.statements = stmt :: rest) :
      Rewrite (.node .ifStmt type [cond, thenBranch, elseBranch])
        (some (.node .ifStmt type (call.not :: thenBranch :: (remains elseBranch).toList)))

variable {base : Store} {tree old expr cond : Tree} {options : Options}

/-! ## Reading the plan -/

theorem of_setCall? (h : expr.Legible base) {method : String} {found : SetCall}
    (hcall : setCall? base expr.id method = some found) :
    ∃ receiver ∈ expr.subtrees, ∃ argument ∈ expr.subtrees, ∃ type,
      receiver.id = found.receiver ∧ argument.id = found.argument ∧
      expr.term.bare = .node (.call true method) type [receiver.term, argument.term] ∧
      IsTypedSet receiver.term := by
  unfold setCall? at hcall
  rw [h.unparenthesized] at hcall
  split at hcall
  · next target called arg hkind =>
      obtain ⟨subs, hform, hids⟩ := h.bare.of_kind hkind
      obtain ⟨receiver, rest, rfl, rfl, hrest⟩ := List.map_eq_cons_iff.mp hids
      obtain ⟨argument, rfl, rfl⟩ := List.map_eq_singleton_iff.mp hrest
      split at hcall
      · next hcond =>
          cases hcall
          rw [Bool.and_eq_true, decide_eq_true_eq] at hcond
          have hslot : ∀ sub, sub ∈ [receiver, argument] → sub ∈ expr.subtrees := by
            intro sub hsub
            refine Tree.slot_mem_subtrees expr.bare_mem_subtrees ?_
            rw [hform]
            exact hsub
          refine ⟨receiver, hslot _ (by simp), argument, hslot _ (by simp), expr.bare.type,
            rfl, rfl, ?_, ?_⟩
          · rw [← Tree.term_bare, hform, ← hcond.1]
            simp [Kind.head]
          · unfold IsTypedSet
            rw [Tree.type_term, ← (h.of_mem (hslot receiver (by simp))).typeOf]
            exact hcond.2
      · cases hcall
  · cases hcall

theorem of_membershipTest? (h : cond.Legible base) {found : SetCall} {negated : Bool}
    (htest : membershipTest? base cond.id = some (found, negated)) :
    ∃ receiver ∈ cond.subtrees, ∃ argument ∈ cond.subtrees,
      receiver.id = found.receiver ∧ argument.id = found.argument ∧
      Tests cond.term receiver.term argument.term negated ∧ IsTypedSet receiver.term := by
  unfold membershipTest? at htest
  simp only [h.unparenthesized] at htest
  have hplain : ∀ called, (setCall? base cond.bare.id "contains").map
      (fun call => (call, false)) = some called → called = (found, negated) →
      ∃ receiver ∈ cond.subtrees, ∃ argument ∈ cond.subtrees,
        receiver.id = found.receiver ∧ argument.id = found.argument ∧
        Tests cond.term receiver.term argument.term negated ∧ IsTypedSet receiver.term := by
    rintro called hcalled rfl
    obtain ⟨call, hcall, heq⟩ := Option.map_eq_some_iff.mp hcalled
    cases heq
    obtain ⟨receiver, hr, argument, ha, type, hrid, haid, hbare, hset⟩ :=
      of_setCall? h.bare hcall
    have hmem : ∀ sub, sub ∈ cond.bare.subtrees → sub ∈ cond.subtrees :=
      fun sub hsub => Tree.mem_subtrees_trans hsub cond.bare_mem_subtrees
    refine ⟨receiver, hmem _ hr, argument, hmem _ ha, hrid, haid,
      ⟨cond.term.bare, type, ?_, rfl⟩, hset⟩
    rw [← Tree.term_bare]
    exact hbare
  split at htest
  · next operand hkind =>
      obtain ⟨subs, hform, hids⟩ := h.bare.of_kind hkind
      obtain ⟨test, rfl, rfl⟩ := List.map_eq_singleton_iff.mp hids
      obtain ⟨call, hcall, heq⟩ := Option.map_eq_some_iff.mp htest
      cases heq
      have hmem : test ∈ cond.subtrees := by
        refine Tree.slot_mem_subtrees cond.bare_mem_subtrees ?_
        rw [hform]
        exact List.mem_singleton_self test
      obtain ⟨receiver, hr, argument, ha, type, hrid, haid, hbare, hset⟩ :=
        of_setCall? (h.of_mem hmem) hcall
      refine ⟨receiver, Tree.mem_subtrees_trans hr hmem, argument,
        Tree.mem_subtrees_trans ha hmem, hrid, haid, ⟨test.term, type, hbare, ?_⟩, hset⟩
      refine ⟨cond.bare.type, ?_⟩
      rw [← Tree.term_bare, hform]
      simp [Kind.head]
  · exact hplain _ htest rfl

theorem mem_subtrees_of_statement {branch stmt : Tree} (h : stmt ∈ branch.statements) :
    stmt ∈ branch.subtrees := by
  unfold Tree.statements at h
  split at h
  · exact Tree.sub_mem_subtrees h
  · rw [List.mem_singleton] at h
    exact h ▸ Tree.mem_subtrees_self branch

theorem of_update? {branch receiver argument : Tree} {candidate : Candidate} {update : Update}
    (htree : tree.Legible base) (hbranch : branch ∈ tree.subtrees)
    (hreceiver : receiver ∈ tree.subtrees) (hargument : argument ∈ tree.subtrees)
    (hcandidate : candidate.branch = some branch.id)
    (hupdate : update? base ⟨receiver.id, argument.id⟩ candidate = some update) :
    ∃ stmt call rest, branch.statements = stmt :: rest ∧ stmt.id = update.stmt ∧
      call.id = update.call ∧ stmt = .node stmt.id .exprStmt stmt.type [call] ∧
      update.isAll = (rest.isEmpty && base.isEmptyBranch candidate.opposite) ∧
      update.negated = candidate.negated ∧ ∃ receiver' argument' type',
        call.term.bare = .node (.call true candidate.method) type' [receiver', argument'] ∧
        receiver.term.Alike receiver' ∧ argument.term.Alike argument' := by
  unfold update? at hupdate
  rw [hcandidate, (htree.of_mem hbranch).statementsOf] at hupdate
  cases hstatements : branch.statements with
  | nil =>
      rw [hstatements] at hupdate
      cases hupdate
  | cons stmt rest =>
      rw [hstatements] at hupdate
      have hstmt : stmt ∈ tree.subtrees := Tree.mem_subtrees_trans
        (mem_subtrees_of_statement (by rw [hstatements]; simp)) hbranch
      simp only [List.map_cons] at hupdate
      split at hupdate
      · next callId hkind =>
          obtain ⟨subs, hform, hids⟩ := (htree.of_mem hstmt).of_kind hkind
          obtain ⟨call, rfl, rfl⟩ := List.map_eq_singleton_iff.mp hids
          have hcall : call ∈ tree.subtrees := by
            refine Tree.slot_mem_subtrees hstmt ?_
            rw [hform]
            exact List.mem_singleton_self call
          split at hupdate
          · next found hfound =>
              obtain ⟨r, hr, a, ha, type', hrid, haid, hbare, -⟩ :=
                of_setCall? (htree.of_mem hcall) hfound
              split at hupdate
              · next halike =>
                  cases hupdate
                  rw [Bool.and_eq_true, ← hrid, ← haid] at halike
                  refine ⟨stmt, call, rest, rfl, rfl, rfl, hform, ?_, rfl, r.term, a.term, type',
                    hbare, ?_, ?_⟩
                  · simp
                  · exact (htree.of_mem hreceiver).alike_term
                      (htree.of_mem (Tree.mem_subtrees_trans hr hcall)) halike.1
                  · exact (htree.of_mem hargument).alike_term
                      (htree.of_mem (Tree.mem_subtrees_trans ha hcall)) halike.2
              · cases hupdate
          · cases hupdate
      · cases hupdate

structure Found (base : Store) (old : Tree) (update : Update) (cond thenBranch : Tree)
    (elseBranch : Option Tree) (inThen : Bool) (branch stmt call : Tree) (rest : List Tree) :
    Prop where
  kind : base.kind old.id = .ifStmt cond.id thenBranch.id (elseBranch.map Tree.id)
  form : old = .node old.id .ifStmt old.type (cond :: thenBranch :: elseBranch.toList)
  side : if inThen then branch = thenBranch else elseBranch = some branch
  statements : branch.statements = stmt :: rest
  stmtId : stmt.id = update.stmt
  callId : call.id = update.call
  stmtForm : stmt = .node stmt.id .exprStmt stmt.type [call]
  repeats : Repeats cond.term stmt.term call.term inThen
  negated : update.negated = !inThen
  isAll : update.isAll = (rest.isEmpty && Term.isEmptyBranch
    (if inThen then elseBranch.map Tree.term else some thenBranch.term))

/-- The branch in which an update is looked for: `add` where the element was absent,
`remove` where it was present. -/
def side (negated : Bool) (thenBranch : NodeId) (elseBranch : Option NodeId) (inThen : Bool) :
    Candidate where
  method := if inThen = negated then "add" else "remove"
  branch := if inThen then some thenBranch else elseBranch
  opposite := if inThen then elseBranch else some thenBranch
  negated := !inThen

theorem exists_side {negated : Bool} {thenBranch : NodeId} {elseBranch : Option NodeId}
    {read : Candidate → Option Update} {update : Update}
    (h : (candidates negated thenBranch elseBranch).findSome? read = some update) :
    ∃ inThen, read (side negated thenBranch elseBranch inThen) = some update := by
  obtain ⟨candidate, hmem, hread⟩ := List.exists_of_findSome?_eq_some h
  cases negated with
  | false =>
      rcases List.mem_pair.mp hmem with rfl | rfl
      · exact ⟨false, hread⟩
      · exact ⟨true, hread⟩
  | true =>
      rcases List.mem_pair.mp hmem with rfl | rfl
      · exact ⟨true, hread⟩
      · exact ⟨false, hread⟩

theorem found_of_update? {receiver argument cond thenBranch : Tree} {elseBranch : Option Tree}
    {negated inThen : Bool} {update : Update} (hbase : base.Holds tree)
    (hold : old ∈ tree.subtrees)
    (hkind : base.kind old.id = .ifStmt cond.id thenBranch.id (elseBranch.map Tree.id))
    (hform : old = .node old.id .ifStmt old.type (cond :: thenBranch :: elseBranch.toList))
    (hreceiver : receiver ∈ tree.subtrees) (hargument : argument ∈ tree.subtrees)
    (hreceiverPassive : receiver.term.isPassive = true)
    (hargumentPassive : argument.term.isPassive = true)
    (htests : Tests cond.term receiver.term argument.term negated)
    (hset : IsTypedSet receiver.term)
    (hupdate : update? base ⟨receiver.id, argument.id⟩
      (side negated thenBranch.id (elseBranch.map Tree.id) inThen) = some update) :
    ∃ branch stmt call rest,
      Found base old update cond thenBranch elseBranch inThen branch stmt call rest := by
  have htree : tree.Legible base := ⟨hbase.laid, hbase.height_le⟩
  have hslot : ∀ sub, sub ∈ thenBranch :: elseBranch.toList → sub ∈ tree.subtrees := by
    intro sub hsub
    refine Tree.slot_mem_subtrees hold ?_
    rw [hform]
    exact List.mem_cons_of_mem _ hsub
  obtain ⟨branch, hbranch, hcandidate, hchosen⟩ : ∃ branch ∈ tree.subtrees,
      (side negated thenBranch.id (elseBranch.map Tree.id) inThen).branch = some branch.id ∧
      if inThen then branch = thenBranch else elseBranch = some branch := by
    cases inThen with
    | true => exact ⟨thenBranch, hslot _ (by simp), rfl, rfl⟩
    | false =>
        cases elseBranch with
        | none => cases hupdate
        | some branch => exact ⟨branch, hslot _ (by simp), rfl, rfl⟩
  have hopposite : base.isEmptyBranch
      (side negated thenBranch.id (elseBranch.map Tree.id) inThen).opposite =
      Term.isEmptyBranch (if inThen then elseBranch.map Tree.term else some thenBranch.term) := by
    cases inThen with
    | true =>
        apply Tree.isEmptyBranch_map
        rintro branch rfl
        exact htree.of_mem (hslot _ (by simp))
    | false => exact (htree.of_mem (hslot _ (by simp))).isEmptyBranch
  obtain ⟨stmt, call, rest, hstatements, hstmtId, hcallId, hstmtForm, hall, hnegated, r', a',
    type', hbare, hralike, haalike⟩ :=
      of_update? htree hbranch hreceiver hargument hcandidate hupdate
  refine ⟨branch, stmt, call, rest, hkind, hform, hchosen, hstatements, hstmtId, hcallId,
    hstmtForm, ?_, hnegated, by rw [hall, hopposite]⟩
  refine ⟨receiver.term, argument.term, r', a', negated, stmt.type, type', htests,
    hreceiverPassive, hargumentPassive, ?_, hbare, hralike, haalike, hset⟩
  rw [hstmtForm]
  simp

theorem of_plan? (hbase : base.Holds tree) (hold : old ∈ tree.subtrees) {id : NodeId}
    {update : Update} (hplan : plan? base (base.kind old.id) = some (id, update)) :
    ∃ cond thenBranch elseBranch inThen branch stmt call rest, cond.id = id ∧
      Found base old update cond thenBranch elseBranch inThen branch stmt call rest := by
  have htree : tree.Legible base := ⟨hbase.laid, hbase.height_le⟩
  unfold plan? at hplan
  split at hplan
  · next condId thenId elseId hkind =>
      obtain ⟨cond, thenBranch, elseBranch, rfl, rfl, rfl, hform⟩ :=
        (htree.of_mem hold).of_ifStmt hkind
      have hcond : cond ∈ tree.subtrees := Tree.slot_mem_subtrees hold (by rw [hform]; simp)
      split at hplan
      · next test negated htest =>
          split at hplan
          · next hpassive =>
              obtain ⟨receiver, hr, argument, ha, hrid, haid, htests, hset⟩ :=
                of_membershipTest? (htree.of_mem hcond) htest
              have hreceiver := Tree.mem_subtrees_trans hr hcond
              have hargument := Tree.mem_subtrees_trans ha hcond
              rw [Bool.and_eq_true, ← hrid, ← haid, (htree.of_mem hreceiver).isPassive,
                (htree.of_mem hargument).isPassive] at hpassive
              obtain rfl : test = ⟨receiver.id, argument.id⟩ := by rw [hrid, haid]
              obtain ⟨found, hfound, heq⟩ := Option.map_eq_some_iff.mp hplan
              cases heq
              obtain ⟨inThen, hupdate⟩ := exists_side hfound
              obtain ⟨branch, stmt, call, rest, hall⟩ := found_of_update? hbase hold hkind hform
                hreceiver hargument hpassive.1 hpassive.2 htests hset hupdate
              exact ⟨cond, thenBranch, elseBranch, inThen, branch, stmt, call, rest, rfl, hall⟩
          · cases hplan
      · cases hplan
  · cases hplan

/-! ## Carrying the plan out -/

variable {update : Update} {thenBranch branch stmt call : Tree} {elseBranch : Option Tree}
  {inThen : Bool} {rest : List Tree}

theorem Found.branch_mem (h : Found base old update cond thenBranch elseBranch inThen branch
    stmt call rest) : branch ∈ thenBranch :: elseBranch.toList := by
  have hside := h.side
  cases inThen with
  | true =>
      rw [if_pos rfl] at hside
      simp [hside]
  | false =>
      rw [if_neg Bool.false_ne_true] at hside
      simp [hside]

theorem Found.subs (h : Found base old update cond thenBranch elseBranch inThen branch
    stmt call rest) : old.subs = cond :: thenBranch :: elseBranch.toList := by
  rw [h.form]
  rfl

theorem Found.branch_slot (h : Found base old update cond thenBranch elseBranch inThen branch
    stmt call rest) : branch ∈ old.subs := by
  rw [h.subs]
  exact List.mem_cons_of_mem _ h.branch_mem

theorem Found.stmt_mem (h : Found base old update cond thenBranch elseBranch inThen branch
    stmt call rest) : stmt ∈ branch.subtrees :=
  mem_subtrees_of_statement (by rw [h.statements]; simp)

/-- If the update is all that happens, it takes the place of the conditional. -/
theorem Found.rewrite_all (h : Found base old update cond thenBranch elseBranch inThen branch
    stmt call rest) (hall : update.isAll = true) : Rewrite old.term (some stmt.term) := by
  have hisAll := h.isAll
  rw [hall] at hisAll
  have hempty := Bool.and_eq_true_iff.mp hisAll.symm
  have hstatements : branch.term.statements = [stmt.term] := by
    rw [← Tree.term_statements, h.statements, List.isEmpty_iff.mp hempty.1]
    rfl
  have hside := h.side
  have hrepeats := h.repeats
  have hopposite := hempty.2
  have hform : old.term = .node .ifStmt old.type
      (cond.term :: thenBranch.term :: (elseBranch.map Tree.term).toList) := by
    rw [h.form]
    cases elseBranch <;> simp
  rw [hform]
  cases inThen with
  | true =>
      rw [if_pos rfl] at hside hopposite
      subst hside
      exact .onlyThen hrepeats hstatements hopposite
  | false =>
      rw [if_neg Bool.false_ne_true] at hside hopposite
      subst hside
      exact .onlyElse hrepeats hopposite hstatements

theorem Found.edits_all (h : Found base old update cond thenBranch elseBranch inThen branch
    stmt call rest) (hbase : base.Holds tree) (hold : old ∈ tree.subtrees)
    (hall : update.isAll = true) :
    ∃ drafted, Draft base (stmt.ids ++ []) drafted [stmt] ∧
      edits old.id cond.id update base = .ok ([⟨old.id, .replace (.moved stmt.id)⟩], drafted) := by
  have hstart : Draft base [] base [] := .start hbase.idle hbase.typed
  have hstmt := Tree.mem_subtrees_trans h.stmt_mem (Tree.slot_mem_subtrees hold h.branch_slot)
  have hstmtNe := Tree.ne_of_mem_slot hold h.branch_slot h.stmt_mem
  obtain ⟨drafted, htake, hdraft⟩ := hstart.take_live (hbase.live hstmt hstmtNe)
    (List.disjoint_nil_right _)
  refine ⟨drafted, hdraft, ?_⟩
  unfold edits
  rw [if_pos hall, ← h.stmtId, Build.bind_ok htake]
  rfl

theorem Found.stmt_region (h : Found base old update cond thenBranch elseBranch inThen branch
    stmt call rest) : stmt.ids ++ [] ⊆ old.subs.flatMap Tree.ids := by
  intro id hid
  rw [List.append_nil] at hid
  exact List.mem_flatMap.mpr ⟨branch, h.branch_slot, Tree.ids_subset_of_mem h.stmt_mem hid⟩

/-- The update is the whole effect and takes the place of the conditional. -/
theorem Found.answers_all (h : Found base old update cond thenBranch elseBranch inThen branch
    stmt call rest) (hbase : base.Holds tree) (hold : old ∈ tree.subtrees) (hne : old ≠ tree)
    (hall : update.isAll = true) :
    Answers (do return .edit (← edits old.id cond.id update)) base tree old.id
      (tree.RewrittenBy Rewrite old.term) := by
  obtain ⟨drafted, hdraft, hedits⟩ := h.edits_all hbase hold hall
  exact hdraft.answers_replace hbase hold hne h.stmt_region rfl
    ((Build.bind_ok hedits).trans rfl) (h.rewrite_all hall) (by rw [h.form]; nofun)

/-- The statement of the update can be removed, unless it is the first branch itself. -/
theorem Found.canRemove (h : Found base old update cond thenBranch elseBranch inThen branch
    stmt call rest) (hbase : base.Holds tree) (hold : old ∈ tree.subtrees) :
    base.canRemove stmt.id = (branch.head == .block || !inThen) := by
  have hstatements := h.statements
  have hslot := h.branch_slot
  unfold Tree.statements at hstatements
  split at hstatements
  · next hblock =>
      have hmem := Tree.slot_mem_subtrees hold hslot
      rw [@Draft.canRemove_eq_canDrop _ _ _ [] rest _ hbase hmem hstatements, hblock]
      rfl
  · next hblock =>
      cases hstatements
      have hside := h.side
      have hne : (branch.head == .block) = false := beq_eq_false_iff_ne.mpr hblock
      have hhead : old.head = .ifStmt := by rw [h.form]; rfl
      rw [hne, Bool.false_or]
      cases inThen with
      | true =>
          rw [if_pos rfl] at hside
          subst hside
          rw [@Draft.canRemove_eq_canDrop _ _ _ [cond] elseBranch.toList _ hbase hold h.subs,
            hhead]
          rfl
      | false =>
          rw [if_neg Bool.false_ne_true] at hside
          subst hside
          rw [@Draft.canRemove_eq_canDrop _ _ _ [cond, thenBranch] [] _ hbase hold h.subs, hhead]
          rfl

theorem Found.term_putSlot (h : Found base old update cond thenBranch elseBranch inThen branch
    stmt call rest) (hnodup : branch.ids.Nodup) {fresh : Option Tree}
    (hfresh : fresh.map Tree.term = if branch.head = .block ∨ inThen = false then none
      else some (.block [])) :
    (Tree.putSlot stmt.id fresh branch).map Tree.term =
      if inThen then [(remains branch.term).getD (.block [])]
      else (remains branch.term).toList := by
  have hstatements := h.statements
  unfold Tree.statements at hstatements
  unfold remains
  rw [Tree.head_term, Tree.type_term, Tree.subs_term]
  by_cases hblock : branch.head = .block
  · rw [if_pos hblock] at hstatements
    rw [if_pos (.inl hblock)] at hfresh
    have hnone : fresh = none := by simpa using hfresh
    cases branch with
    | node i head type subs =>
        simp only [Tree.head_node, Tree.subs_node] at hblock hstatements
        subst hblock hstatements hnone
        have hne : i ≠ stmt.id := fun he =>
          Tree.id_not_mem_slot hnodup (by simp) (show i ∈ stmt.ids from he ▸ stmt.id_mem_ids)
        have hput := @Tree.flatMap_putSlot none stmt.id [] rest stmt
          (Tree.nodup_slots hnodup) stmt.id_mem_ids
        rw [List.nil_append] at hput
        rw [Tree.putSlot, Tree.id_node, if_neg hne, Tree.put_node, hput]
        cases inThen <;> simp [Tree.putSlot]
  · rw [if_neg hblock] at hstatements
    cases hstatements
    rw [Tree.putSlot, if_pos rfl, if_neg hblock]
    cases inThen with
    | true =>
        rw [if_neg (by simp [hblock])] at hfresh
        cases fresh with
        | none => cases hfresh
        | some empty => simpa using hfresh
    | false =>
        rw [if_pos (.inr rfl)] at hfresh
        have hnone : fresh = none := by simpa using hfresh
        subst hnone
        rfl

/-- The update in the place of the condition, and gone from its branch. -/
theorem Found.rewrite (h : Found base old update cond thenBranch elseBranch inThen branch
    stmt call rest) (hnodup : old.ids.Nodup) {new : Tree} (hout : stmt.id ∉ new.ids)
    (hnew : new.term = if inThen then call.term else call.term.not) {fresh : Option Tree}
    (hfresh : fresh.map Tree.term = if branch.head = .block ∨ inThen = false then none
      else some (.block [])) :
    Rewrite old.term (some ((old.put cond.id (some new)).put stmt.id fresh).term) := by
  have hslot := h.branch_slot
  have hbranchNodup := Tree.nodup_ids_of_mem hnodup
    (Tree.sub_mem_subtrees hslot)
  have hlast := h.term_putSlot hbranchNodup hfresh
  have hstmtIn : stmt.id ∈ branch.ids := Tree.mem_ids_iff.mpr ⟨stmt, h.stmt_mem, rfl⟩
  have hslots : (old.subs.flatMap Tree.ids).Nodup := Tree.nodup_slots hnodup
  rw [h.subs] at hslots
  have hfirst : old.put cond.id (some new) =
      .node old.id .ifStmt old.type (new :: thenBranch :: elseBranch.toList) := by
    have hput := @Tree.flatMap_putSlot (some new) cond.id [] (thenBranch :: elseBranch.toList)
      cond hslots cond.id_mem_ids
    rw [List.nil_append] at hput
    rw [h.form, Tree.put_node, Tree.id_node, Tree.type_node, hput]
    simp [Tree.putSlot]
  have hnewSlot : Tree.putSlot stmt.id fresh new = [new] := by
    have hne : new.id ≠ stmt.id := fun he => hout (he ▸ new.id_mem_ids)
    rw [Tree.putSlot, if_neg hne, Tree.put_eq_self hout]
  have hstatements : branch.term.statements = stmt.term :: rest.map Tree.term := by
    rw [← Tree.term_statements, h.statements, List.map_cons]
  have hform : old.term = .node .ifStmt old.type
      (cond.term :: thenBranch.term :: elseBranch.toList.map Tree.term) := by
    rw [h.form, Tree.term_node]
    rfl
  rw [hfirst, Tree.put_node, List.flatMap_cons, hnewSlot, Tree.term_node, hform]
  have hside := h.side
  have hrepeats := h.repeats
  cases inThen with
  | true =>
      rw [if_pos rfl] at hside hnew
      subst hside
      have helse : stmt.id ∉ elseBranch.toList.flatMap Tree.ids := by
        rw [List.flatMap_cons, List.flatMap_cons, List.nodup_append', List.nodup_append'] at hslots
        exact fun hin => hslots.2.1.2.2 hstmtIn hin
      rw [List.flatMap_cons, Tree.flatMap_putSlot_of_not_mem helse, List.map_append,
        List.map_append, hlast, if_pos rfl, List.map_singleton, hnew]
      exact .inThen hrepeats hstatements
  | false =>
      rw [if_neg Bool.false_ne_true] at hside hnew
      subst hside
      have hthen : stmt.id ∉ thenBranch.ids := by
        simp only [Option.toList_some, List.flatMap_cons, List.flatMap_nil, List.append_nil,
          List.nodup_append'] at hslots
        exact fun hin => hslots.2.1.2.2 hin hstmtIn
      have hthenSlot : Tree.putSlot stmt.id fresh thenBranch = [thenBranch] := by
        have hne : thenBranch.id ≠ stmt.id := fun he => hthen (he ▸ thenBranch.id_mem_ids)
        rw [Tree.putSlot, if_neg hne, Tree.put_eq_self hthen]
      rw [List.flatMap_cons, hthenSlot, Option.toList_some, List.flatMap_singleton,
        List.map_append, List.map_append, hlast, if_neg Bool.false_ne_true, List.map_singleton,
        List.map_singleton, List.map_singleton, hnew]
      exact .inElse hrepeats hstatements

theorem Found.yields_condition (h : Found base old update cond thenBranch elseBranch inThen
    branch stmt call rest) (hstart : Draft base [] base []) (hlive : call.Live base) :
    ∃ middle new, Draft base (call.ids ++ []) middle [new] ∧
      (new.term = if inThen then call.term else call.term.not) ∧
      ∀ next : NodeId → Build (List Edit), (do
        let moved ← Build.take update.call
        let newCond ← if update.negated then Build.not moved.node else pure moved.node
        next newCond : Build (List Edit)) base = next new.id middle := by
  obtain ⟨taken, htake, htaken⟩ := hstart.take_live hlive (List.disjoint_nil_right _)
  rw [h.callId] at htake
  have hnegated := h.negated
  cases inThen with
  | true =>
      refine ⟨taken, call, htaken, rfl, ?_⟩
      intro next
      rw [Build.bind_ok htake, hnegated, ← h.callId]
      rfl
  | false =>
      obtain ⟨middle, new, hnot, hmiddle, hterm⟩ := htaken.yields_not
      refine ⟨middle, new, hmiddle, hterm, ?_⟩
      intro next
      rw [Build.bind_ok htake, hnegated, ← h.callId]
      exact Build.bind_ok hnot

theorem Found.cond_slot (h : Found base old update cond thenBranch elseBranch inThen branch
    stmt call rest) : cond ∈ old.subs := by
  rw [h.subs]
  exact List.mem_cons_self ..

theorem Found.stmt_subs (h : Found base old update cond thenBranch elseBranch inThen branch
    stmt call rest) : stmt.subs = [call] := by
  rw [h.stmtForm]
  rfl

/-- The condition and the update are what changes. -/
theorem Found.below (h : Found base old update cond thenBranch elseBranch inThen branch
    stmt call rest) (hup : old ∈ tree.subtrees) :
    ∀ inner, inner ∈ [cond, stmt] → inner ∈ tree.subtrees ∧ inner ≠ tree := by
  intro inner hinner
  rcases List.mem_cons.mp hinner with rfl | hinner
  · exact ⟨Tree.slot_mem_subtrees hup h.cond_slot,
      Tree.ne_of_mem_slot hup h.cond_slot inner.mem_subtrees_self⟩
  · rw [List.mem_singleton.mp hinner]
    exact ⟨Tree.mem_subtrees_trans h.stmt_mem (Tree.slot_mem_subtrees hup h.branch_slot),
      Tree.ne_of_mem_slot hup h.branch_slot h.stmt_mem⟩

/-- The condition and the update stand apart. -/
theorem Found.apart (h : Found base old update cond thenBranch elseBranch inThen branch
    stmt call rest) (hnodup : old.ids.Nodup) : ([cond, stmt].flatMap Tree.ids).Nodup := by
  have hstmt := Tree.nodup_ids_of_mem hnodup
    (Tree.mem_subtrees_of_sub h.branch_slot h.stmt_mem)
  have hslots := Tree.nodup_slots hnodup
  rw [h.subs, List.flatMap_cons, List.nodup_append'] at hslots
  simp only [List.flatMap_cons, List.flatMap_nil, List.append_nil, List.nodup_append']
  refine ⟨hslots.1, hstmt, ?_⟩
  intro id hid hin
  exact hslots.2.2 hid (List.mem_flatMap.mpr
    ⟨branch, h.branch_mem, Tree.ids_subset_of_mem h.stmt_mem hin⟩)

theorem Found.call_region (h : Found base old update cond thenBranch elseBranch inThen branch
    stmt call rest) : call.ids ++ [] ⊆ stmt.subs.flatMap Tree.ids := by
  rw [h.stmt_subs]
  simp

theorem Found.condition_origin (h : Found base old update cond thenBranch elseBranch inThen
    branch stmt call rest) {middle : Store} {new : Tree} (hlive : stmt.Live base)
    (hlaid : old.Laid base) (hdraft : Draft base (call.ids ++ []) middle [new]) :
    stmt.id ∉ new.ids ∧ old.Within base.size new := by
  constructor
  · intro hin
    rcases hdraft.origin stmt.id (by simpa using hin) with hfresh | hcall
    · exact absurd hlive.legible.lt (Nat.not_lt.mpr hfresh)
    · exact Tree.id_not_mem_slots hlive.nodup (h.call_region hcall)
  · refine hdraft.within (List.mem_singleton_self _) hlaid ?_
    exact fun id hid => Tree.ids_subset_of_mem
      (Tree.mem_subtrees_of_sub h.branch_slot h.stmt_mem)
      (stmt.slots_subset_ids (h.call_region hid))

/-- The edits that put the update in the place of the condition, drafted and committed.  The
statement of the update is removed, or an empty block takes its place. -/
structure Folded (base : Store) (tree old : Tree) (update : Update) (cond branch stmt call : Tree)
    (inThen : Bool) (list : List Edit) (drafted final : Store) (new : Tree)
    (fresh : Option Tree) : Prop where
  run : edits old.id cond.id update base = .ok (list, drafted)
  targets : list.map Edit.target = [cond.id, stmt.id]
  commit : Build.commit list drafted = .ok ((), final)
  holds : final.Holds ((tree.put cond.id (some new)).put stmt.id fresh)
  ages : base.Ages final tree.id
  kept : base.KeepsOutside final [old.id]
  out : stmt.id ∉ new.ids
  within : old.Within base.size new
  term : new.term = if inThen then call.term else call.term.not
  freshIds : ∀ other, other ∈ fresh → ∀ id, id ∈ other.ids → base.size ≤ id
  freshTerm : fresh.map Tree.term = if branch.head = .block ∨ inThen = false then none
    else some (.block [])

theorem Found.exists_folded (h : Found base old update cond thenBranch elseBranch inThen
    branch stmt call rest) (hbase : base.Holds tree) (hold : old ∈ tree.subtrees)
    (hall : update.isAll = false) :
    ∃ list drafted final new fresh,
      Folded base tree old update cond branch stmt call inThen list drafted final new fresh := by
  have hapart := h.apart (Tree.nodup_ids_of_mem hbase.nodup hold)
  have htargets : tree.Targets [cond, stmt] := ⟨h.below hold, hapart⟩
  obtain ⟨hcond, hcondNe⟩ := htargets.mem cond (by simp)
  obtain ⟨hstmt, hstmtNe⟩ := htargets.mem stmt (by simp)
  have hstmtLive := hbase.live hstmt hstmtNe
  have htaken : ∀ id, id ∈ call.ids ++ [] →
      ∃ target ∈ [cond, stmt], id ∈ target.subs.flatMap Tree.ids :=
    fun id hid => ⟨stmt, by simp, h.call_region hid⟩
  obtain ⟨middle, new, hmiddle, hnew, hedits⟩ := h.yields_condition
    (.start hbase.idle hbase.typed) (hstmtLive.sub (by rw [h.stmt_subs]; simp))
  obtain ⟨hout, hwithin⟩ := h.condition_origin hstmtLive (hbase.laid.of_mem hold) hmiddle
  obtain ⟨child, hasChild, hchild⟩ := Build.run_asChild new.id middle
  have hcan : middle.canRemove stmt.id = (branch.head == .block || !inThen) :=
    (hmiddle.canRemove_eq hbase hstmt hstmtNe).trans (h.canRemove hbase hold)
  have hbegin : edits old.id cond.id update base = (do
      let child ← Build.asChild new.id
      let drop ← Build.dropStatement update.stmt
      return [⟨cond.id, .replace child⟩, drop] : Build (List Edit)) middle := by
    unfold edits
    rw [if_neg (by simp [hall])]
    exact hedits (fun newCond => do
      let child ← Build.asChild newCond
      let drop ← Build.dropStatement update.stmt
      return [⟨cond.id, .replace child⟩, drop])
  rw [Build.bind_ok hasChild, ← h.stmtId] at hbegin
  -- the statement of the update is removed, or an empty block takes its place
  rcases hmiddle.run_dropStatement stmt.id with
    ⟨hremove, hdrop⟩ | ⟨hremove, drafted, hdrop, hdraft⟩
  · rw [Build.bind_ok hdrop] at hbegin
    obtain ⟨final, hcommit, hholds, hages⟩ := hmiddle.commit_replace_remove hbase hcond hcondNe
      hstmt hstmtNe hapart h.call_region
      ((hmiddle.canRemove_eq hbase hstmt hstmtNe).symm.trans hremove) hchild
    rw [hcan, Bool.or_eq_true, beq_iff_eq, Bool.not_eq_true'] at hremove
    have hkept := hmiddle.commit_keepsOutside hbase htargets htaken rfl (by simp [hchild]) hcommit
    refine ⟨_, _, final, new, none, hbegin, rfl, hcommit, hholds, hages,
      hkept.above hbase hold (h.below old.mem_subtrees_self), hout, hwithin, hnew, by simp, ?_⟩
    rw [if_pos hremove]
    rfl
  · rw [Build.bind_ok hdrop] at hbegin
    have hunclaimed := hdraft.claim?_new hmiddle.grows.size
    obtain ⟨final, hcommit, hholds, hages⟩ :=
      (hdraft.perm (List.Perm.swap ..)).commit_replace_replace hbase hunclaimed hcond hcondNe
        hstmt hstmtNe hapart h.call_region hchild
    rw [hcan, Bool.or_eq_false_iff, beq_eq_false_iff_ne, Bool.not_eq_false'] at hremove
    have hempty : (Child.fresh middle.size).node = middle.size := rfl
    have hkept := hdraft.commit_keepsOutside hbase htargets htaken rfl
      (by simp [hchild, hempty]) hcommit
    refine ⟨_, _, final, new, some _, hbegin, rfl, hcommit, hholds, hages,
      hkept.above hbase hold (h.below old.mem_subtrees_self), hout, hwithin, hnew, ?_, ?_⟩
    · rintro _ ⟨⟩
      simpa using hmiddle.grows.size
    · rw [if_neg (by simp [hremove]), Option.map_some, Tree.term_node]
      rfl

/-- Changes at two places below a node are one change of the node. -/
theorem Found.put_eq (h : Found base old update cond thenBranch elseBranch inThen branch
    stmt call rest) (hbase : base.Holds tree) (hold : old ∈ tree.subtrees) (hne : old ≠ tree)
    (new : Tree) (fresh : Option Tree) :
    (tree.put cond.id (some new)).put stmt.id fresh =
      tree.put old.id (some ((old.put cond.id (some new)).put stmt.id fresh)) := by
  have hcondIn : cond.id ∈ old.subs.flatMap Tree.ids :=
    List.mem_flatMap.mpr ⟨cond, by rw [h.subs]; simp, cond.id_mem_ids⟩
  have hstmtIn : stmt.id ∈ old.subs.flatMap Tree.ids := List.mem_flatMap.mpr
    ⟨branch, h.branch_slot, Tree.mem_ids_iff.mpr ⟨stmt, h.stmt_mem, rfl⟩⟩
  rw [Tree.put_inside hbase.nodup hold hne hcondIn]
  exact Tree.put_put hbase.nodup hold hne (Tree.id_put ..) hstmtIn

theorem Found.answers_condition (h : Found base old update cond thenBranch elseBranch inThen
    branch stmt call rest) (hbase : base.Holds tree) (hold : old ∈ tree.subtrees)
    (hne : old ≠ tree) (hall : update.isAll = false) :
    Answers (do return .edit (← edits old.id cond.id update)) base tree old.id
      (tree.RewrittenBy Rewrite old.term) := by
  obtain ⟨list, drafted, final, new, fresh, hfolded⟩ := h.exists_folded hbase hold hall
  have hnodup := Tree.nodup_ids_of_mem hbase.nodup hold
  have hholds := hfolded.holds
  rw [h.put_eq hbase hold hne new fresh] at hholds
  have hlist : list ≠ [] := by
    rintro rfl
    cases hfolded.targets
  have hwhole : old.Within base.size ((old.put cond.id (some new)).put stmt.id fresh) := by
    refine (Tree.within_put_slot hnodup (by rw [h.subs]; simp) ?_).trans (Nat.le_refl _)
      (Tree.within_put_fresh hfolded.freshIds)
    rintro _ ⟨⟩
    exact hfolded.within
  refine .inr ⟨list, drafted, final, _, hlist, (Build.bind_ok hfolded.run).trans rfl,
    hfolded.commit, ⟨hholds, hfolded.ages, Tree.beside_put hbase.nodup hold,
      Tree.confined_at hbase.nodup hold hne (by rintro _ ⟨⟩; exact hwhole), Tree.id_put ..,
      [], by simp, hfolded.kept⟩, _,
    h.rewrite hnodup hfolded.out hfolded.term hfolded.freshTerm, ?_⟩
  exact @Tree.swap_put _ _ (some _) hbase.nodup hold hne (by intro hnone; cases hnone)
    (by rw [h.form]; nofun)

theorem answers (hbase : base.Holds tree) (hold : old ∈ tree.subtrees) (hne : old ≠ tree) :
    Answers (respond options old.id) base tree old.id
      (tree.RewrittenBy Rewrite old.term) := by
  have hlegible := Tree.Legible.of_holds hbase hold
  have hbegin : respond options old.id base = _ :=
    (Build.bind_ok (Build.run_kindOf hlegible.lt)).trans (Build.bind_ok (Build.run_get base))
  cases hplan : plan? base (base.kind old.id) with
  | none =>
      rw [hplan] at hbegin
      exact .inl hbegin
  | some found =>
      obtain ⟨id, update⟩ := found
      rw [hplan] at hbegin
      obtain ⟨cond, thenBranch, elseBranch, inThen, branch, stmt, call, rest, rfl, hfound⟩ :=
        of_plan? hbase hold hplan
      refine Answers.congr ?_ hbegin
      cases hall : update.isAll with
      | true => exact hfound.answers_all hbase hold hne hall
      | false => exact hfound.answers_condition hbase hold hne hall

end SetUpdate

end CodeTidy
