import CodeTidy.Proofs.Visit

/-!
# Whole runs

A run over a well-formed unit never faults, and what it does is a row of commits: the
stores between them are the only stores a run passes through.
-/

namespace CodeTidy

/-! ## Well-formed units -/

/-- A unit whose nodes own each other as they should and stand where they belong: slots hold
expressions or statements as their kind demands, chains have two operands, and switches one
default label at most. -/
structure Source.Proper (source : Source) : Prop where
  unit : source.store.kind source.root = .unit (source.store.children source.root)
  parentless : source.store.parent source.root = none
  clean : source.store.violations source.root = []
  /-- Types are only ever handed out by the type table. -/
  typed : source.store.TypesKnown
  orderly : (source.store.term source.root).all Term.isOrderly = true

/-- A unit that rules can be run over.  Qualified names are made of names, and labels that
are constants of an enumeration are simple names. -/
structure Source.WellFormed (source : Source) : Prop extends source.Proper where
  named : (source.store.term source.root).all Term.isNamed = true

/-- No operand of a logical operator inside a label is a constant of an enumeration. -/
def Source.HasTestableLabels (source : Source) : Prop :=
  (source.store.term source.root).all Term.isTestable = true

instance (source : Source) : Decidable source.HasTestableLabels :=
  inferInstanceAs (Decidable (_ = true))

instance (source : Source) : Decidable source.Proper :=
  decidable_of_iff
    (source.store.kind source.root = .unit (source.store.children source.root) ∧
      source.store.parent source.root = none ∧ source.store.violations source.root = [] ∧
      source.store.TypesKnown ∧ (source.store.term source.root).all Term.isOrderly = true)
    ⟨fun h => ⟨h.1, h.2.1, h.2.2.1, h.2.2.2.1, h.2.2.2.2⟩,
      fun h => ⟨h.unit, h.parentless, h.clean, h.typed, h.orderly⟩⟩

instance (source : Source) : Decidable source.WellFormed :=
  decidable_of_iff (source.Proper ∧ (source.store.term source.root).all Term.isNamed = true)
    ⟨fun h => ⟨h.1, h.2⟩, fun h => ⟨h.toProper, h.named⟩⟩

/-- The unit `if (true) { }`. -/
def Source.sample : Source where
  store :=
    { nodes := #[
        ⟨.literal (.bool true), none, some 2, false⟩,
        ⟨.block [], none, some 2, false⟩,
        ⟨.ifStmt 0 1 none, none, some 3, false⟩,
        ⟨.unit [2], none, none, false⟩] }
  root := 3

theorem Source.sample_wellFormed : Source.sample.WellFormed := by
  decide +kernel

theorem Store.lt_of_kind {store : Store} {id : NodeId} (h : (store.kind id).head = .unit) :
    id < store.size := by
  by_contra hout
  rw [kind, node_of_size_le (Nat.not_lt.mp hout)] at h
  cases h

theorem Term.all_and {p q : Term → Bool} (term : Term) :
    term.all (fun term => p term && q term) = (term.all p && term.all q) := by
  induction term with
  | node head type subs ih =>
      have hsubs : subs.all (all fun term => p term && q term) =
          (subs.all (all p) && subs.all (all q)) := by
        rw [Bool.eq_iff_iff]
        simp only [Bool.and_eq_true, List.all_eq_true]
        constructor
        · intro h
          have hboth := fun sub hsub => Bool.and_eq_true_iff.mp (ih sub hsub ▸ h sub hsub)
          exact ⟨fun sub hsub => (hboth sub hsub).1, fun sub hsub => (hboth sub hsub).2⟩
        · intro h sub hsub
          rw [ih sub hsub, h.1 sub hsub, h.2 sub hsub]
          rfl
      simp only [all_node, hsubs]
      ac_rfl

theorem Term.all_isSound_true (term : Term) :
    term.all (isSound true) =
      (term.all isOrderly && (term.all isNamed && term.all isTestable)) := by
  have hsame : isSound true = fun term => term.isOrderly && (term.isNamed && term.isTestable) := by
    funext term
    simp [isSound]
  rw [hsame, all_and, all_and]

namespace Source

variable {source : Source} {store : Store} {tree : Tree}

theorem Proper.exists_tree (h : source.Proper) :
    ∃ tree : Tree, source.store.Holds tree ∧ tree.id = source.root ∧ tree.Orderly ∧
      tree.term = source.store.term source.root := by
  have hhead : (source.store.kind source.root).head = .unit := by rw [h.unit]; rfl
  have hlt := Store.lt_of_kind hhead
  obtain ⟨hidle, tree, hid, hnodup, hheld⟩ := (Store.violations_eq_nil_iff h.typed hlt).mp h.clean
  rw [h.parentless] at hheld
  have hholds : source.store.Holds tree := ⟨hheld, hnodup, hidle, h.typed⟩
  have hterm : tree.term = source.store.term source.root := by
    rw [← hid, hholds.term_eq]
  refine ⟨tree, hholds, hid, ⟨?_, ?_⟩, hterm⟩
  · rw [← (Tree.Legible.of_holds hholds tree.mem_subtrees_self).kind_head, hid, hhead]
  · rw [hterm]
    exact h.orderly

theorem Proper.of_holds (h : store.Holds tree) (horder : tree.Orderly) :
    Proper ⟨store, tree.id⟩ where
  unit := by
    have hkind := (Tree.Legible.of_holds h tree.mem_subtrees_self).kind_head
    rw [horder.1] at hkind
    unfold Store.children
    cases hk : store.kind tree.id <;> rw [hk] at hkind <;> cases hkind
    rfl
  parentless := h.held.link
  clean := by
    rw [Store.violations_eq_nil_iff h.typed (h.laid.lt tree.id_mem_ids)]
    refine ⟨h.idle, tree, rfl, h.nodup, ?_⟩
    rw [h.held.link]
    exact h.held
  typed := h.typed
  orderly := by
    rw [h.term_eq]
    exact horder.2

end Source

/-! ## Commits -/

variable {options : Options} {rules : List (Rule Unit)} {base final : Store} {tree : Tree}

theorem Runs.unique {α : Type} {computation : StateT Unit Build α} {store later later' : Store}
    {value value' : α} (h : Runs computation store value later)
    (h' : Runs computation store value' later') : value = value' ∧ later = later' := by
  unfold Runs at h h'
  rw [h] at h'
  cases h'
  exact ⟨rfl, rfl⟩

/-- Whatever the rules commit relates the trees before and after it as `outcome` says. -/
def Outcomes (rules : List (Rule Unit)) (outcome : Tree → Tree → Prop) : Prop :=
  ∀ rule, rule ∈ rules → ∃ name respond, rule = .plain name respond ∧
    ∀ {options : Options} {base : Store} {tree old : Tree}, base.Holds tree →
      tree.Orderly → old ∈ tree.subtrees → old ≠ tree →
        Answers (respond options old.id) base tree old.id (outcome tree)

theorem Selected.outcomes (h : Selected rules) : Outcomes rules Tree.Committed := by
  intro rule hrule
  obtain ⟨name, respond, rfl, hresponsive⟩ := Registry.exists_responsive (h rule hrule)
  exact ⟨name, respond, rfl, hresponsive.answers⟩

theorem Store.Commits.exists_effect {applied : Applied} {outcome : Tree → Tree → Prop}
    (hrules : Selected rules) (houtcomes : Outcomes rules outcome) (hbase : base.Holds tree)
    (horder : tree.Orderly) (h : base.Commits options rules tree.id applied final) :
    ∃ later, Effect base tree applied.target final later ∧ outcome tree later := by
  obtain ⟨hreach, rule, hrule, -, response, drafted, hedits, hrun, hcommit⟩ := h
  rw [hbase.preorder_eq tree.mem_subtrees_self] at hreach
  obtain ⟨old, hold, hid⟩ := Tree.mem_ids_iff.mp hreach
  rw [← hid] at hrun
  have hnot : ¬ rule.Declines options base old.id := by
    intro hdeclines
    exact hedits (congrArg Response.edits (hrun.unique hdeclines).1)
  have hne : old ≠ tree := by
    rintro rfl
    exact hnot (declines_root hrules hbase horder hrule)
  obtain ⟨name, respond, rfl, hanswers⟩ := houtcomes rule hrule
  rcases @hanswers options _ _ _ hbase horder hold hne with
    hdecline | ⟨edits, drafted', final', later, -, hrun', hcommit', heffect, hout⟩
  · exact absurd (runs_plain hdecline) hnot
  · obtain ⟨rfl, rfl⟩ := hrun.unique (runs_plain hrun')
    have hsame : final' = final := by
      have hcommit : Build.commit edits drafted = .ok ((), final) := hcommit
      rw [hcommit] at hcommit'
      cases hcommit'
      rfl
    subst hsame
    exact ⟨later, hid ▸ heffect, hout⟩

theorem Store.Commits.exists_outcome {applied : Applied} {outcome : Tree → Tree → Prop}
    (hrules : Selected rules) (houtcomes : Outcomes rules outcome) (hbase : base.Holds tree)
    (horder : tree.Orderly) (h : base.Commits options rules tree.id applied final) :
    ∃ later, final.Holds later ∧ later.id = tree.id ∧ outcome tree later := by
  obtain ⟨later, heffect, hout⟩ := h.exists_effect hrules houtcomes hbase horder
  exact ⟨later, heffect.holds, heffect.root, hout⟩

theorem Store.Commits.exists_later {applied : Applied} (hrules : Selected rules)
    (hbase : base.Holds tree) (horder : tree.Orderly)
    (h : base.Commits options rules tree.id applied final) :
    ∃ later, final.Holds later ∧ later.id = tree.id ∧ tree.Committed later :=
  h.exists_outcome hrules hrules.outcomes hbase horder

/-- What a row of commits with known outcomes keeps of the tree, it keeps at every store it
passes through. -/
theorem Trail.forall_outcomes {outcome : Tree → Tree → Prop} {log : List Applied}
    {stores : List Store} (keeps : Tree → Prop) (hrules : Selected rules)
    (houtcomes : Outcomes rules outcome)
    (hcommitted : ∀ {before after : Tree}, outcome before after → before.Committed after)
    (hstep : ∀ {before after : Tree}, outcome before after → before.Orderly →
      keeps before → keeps after)
    {root : NodeId} (h : Trail options rules root base log stores final) (hbase : base.Holds tree)
    (hid : tree.id = root) (horder : tree.Orderly) (hkeeps : keeps tree) :
    ∀ store, store ∈ base :: stores → ∃ later, store.Holds later ∧ later.id = root ∧
      later.Orderly ∧ keeps later := by
  induction h generalizing tree with
  | nil =>
      intro store hstore
      obtain rfl := List.mem_singleton.mp hstore
      exact ⟨tree, hbase, hid, horder, hkeeps⟩
  | cons first rest ih =>
      rw [← hid] at first
      obtain ⟨later, hholds, hlaterId, hout⟩ := first.exists_outcome hrules houtcomes hbase horder
      intro store hstore
      rcases List.mem_cons.mp hstore with rfl | hstore
      · exact ⟨tree, hbase, hid, horder, hkeeps⟩
      · exact ih hholds (hlaterId.trans hid) ((hcommitted hout).orderly horder)
          (hstep hout horder hkeeps) store hstore

theorem Trail.final_mem {root : NodeId} {log : List Applied} {stores : List Store}
    (h : Trail options rules root base log stores final) : final ∈ base :: stores := by
  induction h with
  | nil => exact List.mem_singleton_self _
  | cons first rest ih => exact List.mem_cons_of_mem _ ih

/-- Nothing is committed where every rule declines every node. -/
theorem Trail.eq_nil_of_declines {root : NodeId} {log : List Applied} {stores : List Store}
    (h : Trail options rules root base log stores final)
    (hdeclines : ∀ id, id ∈ base.preorder root → ∀ rule, rule ∈ rules →
      rule.Declines options base id) : log = [] := by
  cases h with
  | nil => rfl
  | cons first rest =>
      obtain ⟨hreach, rule, hrule, -, response, drafted, hedits, hrun, -⟩ := first
      exact absurd (congrArg Response.edits (hrun.unique (hdeclines _ hreach rule hrule)).1) hedits

/-! ## Passes -/

/-- Every rule declines every node of the tree. -/
def Settled (options : Options) (rules : List (Rule Unit)) (store : Store) (tree : Tree) : Prop :=
  ∀ below, below ∈ tree.subtrees → ∀ rule, rule ∈ rules →
    rule.Declines options store below.id

variable {schedule : Schedule Unit}

theorem runs_runPass (pass : Nat) (hrules : Selected schedule.rules) (hbase : base.Holds tree)
    (horder : tree.Orderly) :
    ∃ log final later, Runs (schedule.runPass pass tree.id) base (.ofLog log) final ∧
      Visit schedule.options schedule.rules base tree tree log final later := by
  have hsteps : tree.height ≤ base.size + schedule.slack :=
    Nat.le_add_right_of_le hbase.height_le
  obtain ⟨log, final, later, hrun, hvisit⟩ :=
    runs_visitSteps pass hrules _ hbase horder tree.mem_subtrees_self hsteps
  have hget : Runs (getThe Store : StateT Unit Build Store) base base base := rfl
  exact ⟨log, final, later, hget.bind hrun, hvisit⟩

/-- What several passes do, on top of what was done before. -/
structure Passes (schedule : Schedule Unit) (base : Store) (tree : Tree) (done report : Report)
    (final : Store) (later : Tree) : Prop where
  log : ∃ log, report.log = done.log ++ log ∧ report.changes = done.changes + log.length ∧
    Progress schedule.options schedule.rules base tree log final later
  settled : report.status = .converged →
    Settled schedule.options schedule.rules final later

theorem runs_runPasses (hrules : Selected schedule.rules) (remaining : Nat) (done : Report)
    (hbase : base.Holds tree) (horder : tree.Orderly) :
    ∃ report final later,
      Runs (schedule.runPasses tree.id remaining done) base report final ∧
      Passes schedule base tree done report final later := by
  induction remaining generalizing base tree done with
  | zero =>
      exact ⟨_, base, tree, runs_pure _ base,
        ⟨⟨[], by simp, rfl, .refl hbase horder⟩, by intro h; cases h⟩⟩
  | succ remaining ih =>
      unfold Schedule.runPasses
      by_cases hcancelled : schedule.cancelled = true
      · rw [if_pos hcancelled]
        exact ⟨_, base, tree, runs_pure _ base,
          ⟨⟨[], by simp, rfl, .refl hbase horder⟩, by intro h; cases h⟩⟩
      · rw [if_neg hcancelled]
        obtain ⟨log, middle, between, hpass, hvisit⟩ :=
          runs_runPass (done.passes + 1) hrules hbase horder
        by_cases hquiet : log = []
        · obtain ⟨rfl, rfl⟩ := hvisit.quiet hquiet
          refine ⟨⟨.converged, done.passes + 1, done.changes + log.length, done.log ++ log⟩,
            middle, between, hpass.bind ?_,
            ⟨⟨[], ?_, ?_, .refl hbase horder⟩, fun _ => hvisit.declined hquiet⟩⟩
          · rw [if_pos (Tally.changes_ofLog_eq_zero.mpr hquiet)]
            exact runs_pure _ _
          · simp [hquiet]
          · simp [hquiet]
        · obtain ⟨report, final, later, hrun, ⟨rest, hlog, hchanges, hrest⟩, hsettled⟩ :=
            ih ⟨.converged, done.passes + 1, done.changes + log.length, done.log ++ log⟩
              hvisit.holds hvisit.order
          rw [hvisit.root] at hrun
          refine ⟨report, final, later, hpass.bind ?_,
            ⟨⟨log ++ rest, ?_, ?_, hvisit.toProgress.trans hrest⟩, hsettled⟩⟩
          · rw [if_neg (mt Tally.changes_ofLog_eq_zero.mp hquiet)]
            exact hrun
          · rw [hlog, List.append_assoc]
          · rw [hchanges, List.length_append, Nat.add_assoc]

/-! ## Runs of an engine -/

namespace Engine

variable {engine : Engine} {source : Source} {cancelled : Bool} {report : Report}

def complete : Engine :=
  ⟨{}, Registry.rules⟩

theorem run_eq {root : NodeId} (h : Runs ((engine.schedule cancelled).run root) base report final) :
    engine.run ⟨base, root⟩ cancelled = .ok (report, ⟨final, root⟩) := by
  have hrun : (((engine.schedule cancelled).run root).run ()).run base =
      .ok ((report, ()), final) := h
  unfold run
  simp only [hrun]

/-- A run ends, and is a row of commits. -/
theorem exists_run (hrules : Selected engine.rules) (h : source.Proper) (cancelled : Bool) :
    ∃ tree report final later, source.store.Holds tree ∧ tree.id = source.root ∧ tree.Orderly ∧
      tree.term = source.store.term source.root ∧
      engine.run source cancelled = .ok (report, ⟨final, source.root⟩) ∧
      Passes (engine.schedule cancelled) source.store tree ⟨.converged, 0, 0, []⟩ report final
        later := by
  obtain ⟨tree, hholds, hid, horder, hterm⟩ := h.exists_tree
  obtain ⟨report, final, later, hrun, hpasses⟩ :=
    @runs_runPasses _ _ (engine.schedule cancelled) hrules engine.settings.maxPasses
      ⟨.converged, 0, 0, []⟩ hholds horder
  rw [hid] at hrun
  exact ⟨tree, report, final, later, hholds, hid, horder, hterm, run_eq hrun, hpasses⟩

/-- A run ends, and what the outcomes of its rules keep holds at every store it passes
through. -/
theorem run_of_outcomes {keeps : Term → Prop} {outcome : Tree → Tree → Prop}
    (hrules : Selected engine.rules) (houtcomes : Outcomes engine.rules outcome)
    (hcommitted : ∀ {before after : Tree}, outcome before after → before.Committed after)
    (h : source.Proper)
    (hstep : ∀ {before after : Tree}, outcome before after →
      before.term.all Term.isOrderly = true → keeps before.term → keeps after.term)
    (hkeeps : keeps (source.store.term source.root)) :
    ∃ report final stores, engine.run source cancelled = .ok (report, ⟨final, source.root⟩) ∧
      Trail engine.settings.options engine.rules source.root source.store report.log stores
        final ∧
      ∀ store, store ∈ final :: stores → Source.Proper ⟨store, source.root⟩ ∧
        keeps (store.term source.root) := by
  obtain ⟨tree, report, final, later, hholds, hid, horder, hterm, hrun, hpasses⟩ :=
    exists_run hrules h cancelled
  obtain ⟨⟨log, hlog, -, hprogress⟩, -⟩ := hpasses
  obtain ⟨stores, htrail⟩ := hprogress.trail
  rw [List.nil_append] at hlog
  rw [hid, ← hlog] at htrail
  refine ⟨report, final, stores, hrun, htrail, ?_⟩
  intro store hstore
  have hmem : store ∈ source.store :: stores := by
    rcases List.mem_cons.mp hstore with rfl | hstore
    · exact htrail.final_mem
    · exact List.mem_cons_of_mem _ hstore
  obtain ⟨later, hlater, hlaterId, hlaterOrder, hlaterKeeps⟩ :=
    htrail.forall_outcomes (fun tree => keeps tree.term) hrules houtcomes hcommitted
      (fun hout horder => hstep hout horder.2) hholds hid horder (hterm ▸ hkeeps) store hmem
  rw [← hlaterId]
  exact ⟨Source.Proper.of_holds hlater hlaterOrder, hlater.term_eq ▸ hlaterKeeps⟩

/-- No run faults, and every store it passes through holds a unit in order.  The unit stays
well-formed if no constant of an enumeration is tested inside a label. -/
theorem run_keeps_units (hrules : ∀ rule, rule ∈ engine.rules → rule ∈ Registry.rules)
    (h : source.WellFormed) :
    ∃ report final stores, engine.run source cancelled = .ok (report, ⟨final, source.root⟩) ∧
      Trail engine.settings.options engine.rules source.root source.store report.log stores
        final ∧
      ∀ store, store ∈ final :: stores → Source.Proper ⟨store, source.root⟩ ∧
        (source.HasTestableLabels → Source.WellFormed ⟨store, source.root⟩) := by
  let keeps : Term → Prop := fun term =>
    source.HasTestableLabels → term.all (Term.isSound true) = true
  have hstart : keeps (source.store.term source.root) := by
    intro htestable
    rw [Term.all_isSound_true, h.orderly, h.named, htestable]
    rfl
  obtain ⟨report, final, stores, hrun, htrail, hkept⟩ :=
    @run_of_outcomes engine source cancelled keeps _ hrules (Selected.outcomes hrules) id
      h.toProper (fun hcommitted _ hkeeps htestable => hcommitted.sound (hkeeps htestable)) hstart
  refine ⟨report, final, stores, hrun, htrail, ?_⟩
  intro store hstore
  obtain ⟨hproper, hkeeps⟩ := hkept store hstore
  refine ⟨hproper, fun htestable => ⟨hproper, ?_⟩⟩
  have hsound := hkeeps htestable
  rw [Term.all_isSound_true, Bool.and_eq_true, Bool.and_eq_true] at hsound
  exact hsound.2.1

/-- The run over the sample ends with a well-formed unit. -/
theorem run_keeps_units_sample :
    ∃ report final, complete.run .sample false = .ok (report, ⟨final, 3⟩) ∧
      Source.WellFormed ⟨final, 3⟩ := by
  obtain ⟨report, final, stores, hrun, -, hkept⟩ := @run_keeps_units complete .sample false
    (fun _ hrule => hrule) Source.sample_wellFormed
  exact ⟨report, final, hrun, (hkept final (List.mem_cons_self ..)).2 (by decide +kernel)⟩

/-- The unit `switch (k) { case !!f.X: break; }` with a constant `f.X` of an enumeration. -/
def negatedConstant : Source where
  store :=
    { nodes := #[
        ⟨.name "k" none, none, some 7, false⟩,
        ⟨.name "f" none, none, some 2, false⟩,
        ⟨.field 1 "X", some 0, some 3, false⟩,
        ⟨.prefixed .not 2, some 1, some 4, false⟩,
        ⟨.prefixed .not 3, some 1, some 5, false⟩,
        ⟨.caseLabel (some 4), none, some 7, false⟩,
        ⟨.breakStmt none, none, some 7, false⟩,
        ⟨.switchStmt 0 [5, 6], none, some 8, false⟩,
        ⟨.unit [7], none, none, false⟩]
      types := ⟨#[⟨"E", .enumeration, []⟩, .boolean]⟩ }
  root := 8

/-- Without its negations the label is a constant, and not a simple name. -/
theorem run_loses_simple_label :
    negatedConstant.WellFormed ∧
      ∃ report after, Engine.run ⟨{}, [NegationDescent.rule]⟩ negatedConstant false =
        .ok (report, after) ∧ ¬ after.WellFormed :=
  ⟨by decide +kernel, _, _, rfl, by decide +kernel⟩

/-- Passes over a settled tree are one pass that commits nothing. -/
theorem run_of_settled (hrules : Selected engine.rules) (hbase : base.Holds tree)
    (horder : tree.Orderly) (hsettled : Settled engine.settings.options engine.rules base tree)
    (hpasses : engine.settings.maxPasses ≠ 0) :
    engine.run ⟨base, tree.id⟩ false = .ok (⟨.converged, 1, 0, []⟩, ⟨base, tree.id⟩) := by
  refine run_eq ?_
  obtain ⟨passes, hmax⟩ := Nat.exists_eq_succ_of_ne_zero hpasses
  obtain ⟨log, final, later, hpass, hvisit⟩ :=
    @runs_runPass _ _ (engine.schedule false) 1 hrules hbase horder
  obtain ⟨stores, htrail⟩ := hvisit.trail
  have hquiet : log = [] := by
    refine htrail.eq_nil_of_declines ?_
    intro id hid
    rw [hbase.preorder_eq tree.mem_subtrees_self] at hid
    obtain ⟨below, hbelow, rfl⟩ := Tree.mem_ids_iff.mp hid
    exact hsettled below hbelow
  subst hquiet
  obtain ⟨rfl, rfl⟩ := hvisit.quiet rfl
  unfold Schedule.run
  rw [show (engine.schedule false).maxPasses = passes + 1 from hmax]
  exact hpass.bind (runs_pure _ _)

/-- A run that converged leaves a tree on which no rule acts, so another run changes
nothing at all. -/
theorem converged_is_normal_form {after : Source}
    (hrules : ∀ rule, rule ∈ engine.rules → rule ∈ Registry.rules) (h : source.WellFormed)
    (hrun : engine.run source cancelled = .ok (report, after))
    (hconverged : report.status = .converged) :
    (∀ id, id ∈ after.store.preorder after.root → ∀ rule, rule ∈ engine.rules →
      rule.Declines engine.settings.options after.store id) ∧
    engine.run after false = .ok (⟨.converged, 1, 0, []⟩, after) := by
  obtain ⟨tree, report', final, later, hholds, hid, horder, -, hrun', hpasses⟩ :=
    exists_run hrules h.toProper cancelled
  rw [hrun'] at hrun
  cases hrun
  have hmax : engine.settings.maxPasses ≠ 0 := by
    intro hzero
    have hnone : Runs ((engine.schedule cancelled).run source.root) source.store
        ⟨.capReached, 0, 0, []⟩ source.store := by
      unfold Schedule.run
      rw [show (engine.schedule cancelled).maxPasses = 0 from hzero]
      exact runs_pure _ _
    rw [run_eq hnone] at hrun'
    cases hrun'
    cases hconverged
  obtain ⟨⟨log, -, -, hprogress⟩, hsettled⟩ := hpasses
  have hroot : later.id = source.root := hprogress.root.trans hid
  have hlater := hprogress.holds
  constructor
  · intro id hmem
    rw [← hroot, hlater.preorder_eq later.mem_subtrees_self] at hmem
    obtain ⟨below, hbelow, rfl⟩ := Tree.mem_ids_iff.mp hmem
    exact hsettled hconverged below hbelow
  · rw [← hroot]
    exact run_of_settled hrules hlater hprogress.order (hsettled hconverged) hmax

/-- The first run over the sample converges, and the second finds nothing to do. -/
theorem converged_is_normal_form_sample :
    ∃ report after, complete.run .sample false = .ok (report, after) ∧
      report.changes = 1 ∧ report.status = .converged ∧
      complete.run after false = .ok (⟨.converged, 1, 0, []⟩, after) := by
  have hrun : ∃ report after, complete.run .sample false = .ok (report, after) ∧
      report.changes = 1 ∧ report.status = .converged :=
    ⟨_, _, rfl, by decide +kernel, by decide +kernel⟩
  obtain ⟨report, after, hrun, hchanges, hstatus⟩ := hrun
  exact ⟨report, after, hrun, hchanges, hstatus,
    (converged_is_normal_form (fun _ hrule => hrule) Source.sample_wellFormed hrun hstatus).2⟩

end Engine

end CodeTidy
