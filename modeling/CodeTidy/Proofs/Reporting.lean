import CodeTidy.Proofs.Coverage

/-!
# What a report says

A run counts its commits, numbers its passes and writes a log, while rules of any kind change
the tree.  Count and log are summed apart along the visit, and both agree with the recorded
calls (`Schedule.Lists`): the log names the calls that asked for edits, in their order, and no
others, and the count is their number.  A pass adds entries with its own number
(`Schedule.lists_runPass`), `Report.Busy` says what holds after passes that all committed
something, and from there the three ways a run can end give `Report.Consistent`.
-/

namespace CodeTidy

/-! ## Calls that asked for edits -/

/-- Which rules asked for edits at which nodes, in order. -/
def commits (calls : List Call) : List (String × NodeId) :=
  (calls.filter (fun call => !call.response.edits.isEmpty)).map Call.offer

theorem commits_append (calls calls' : List Call) :
    commits (calls ++ calls') = commits calls ++ commits calls' := by
  simp only [commits, List.filter_append, List.map_append]

theorem commits_cons_of_nil {call : Call} (h : call.response.edits.isEmpty = true)
    (calls : List Call) : commits (call :: calls) = commits calls := by
  simp only [commits, List.filter_cons, h, Bool.not_true, Bool.false_eq_true, if_false]

theorem commits_singleton {call : Call} (h : call.response.edits.isEmpty = false) :
    commits [call] = [call.offer] := by
  simp only [commits, List.filter_cons, h, Bool.not_false, if_true, List.filter_nil,
    List.map_cons, List.map_nil]

def Applied.offer (entry : Applied) : String × NodeId :=
  (entry.rule, entry.target)

def entries (pass : Nat) (offers : List (String × NodeId)) : List Applied :=
  offers.map (fun offer => ⟨pass, offer.1, offer.2⟩)

theorem entries_append (pass : Nat) (offers offers' : List (String × NodeId)) :
    entries pass (offers ++ offers') = entries pass offers ++ entries pass offers' :=
  List.map_append

theorem map_offer_entries (pass : Nat) (offers : List (String × NodeId)) :
    (entries pass offers).map Applied.offer = offers := by
  simp only [entries, List.map_map]
  exact List.map_id offers

theorem pass_of_mem_entries {pass : Nat} {offers : List (String × NodeId)} {entry : Applied}
    (h : entry ∈ entries pass offers) : entry.pass = pass := by
  obtain ⟨offer, -, rfl⟩ := List.mem_map.mp h
  rfl

namespace Schedule

variable {Memory : Type} {options : Options} {pass steps : Nat} {rules : List (Rule Memory)}
  {node holder root : NodeId} {memory memory' : Memory} {calls calls' : List Call}
  {store later : Store}

/-! ## One pass -/

/-- An offer commits the edits of its last call, if that call asked for some. -/
theorem commits_offer {outcome : Offer (Memory × List Call)}
    (h : Ends (offer options node (rules.map Rule.recorded)) (memory, calls) store outcome
      (memory', calls') later) :
    ∃ made, calls' = calls ++ made ∧
      ((∃ name, outcome = .committed name ∧ commits made = [(name, node)]) ∨
        ∃ active, outcome = .declined active ∧ commits made = []) := by
  induction rules generalizing memory calls store outcome with
  | nil =>
      obtain ⟨rfl, hmemory, -⟩ := Ends.of_pure h
      cases hmemory
      exact ⟨[], (List.append_nil _).symm, .inr ⟨[], rfl, rfl⟩⟩
  | cons rule rest ih =>
      obtain ⟨response, ⟨memory₁, calls₁⟩, answered, hrespond, h⟩ := Ends.of_bind h
      obtain ⟨-, rfl⟩ := Rule.ends_recorded.mp hrespond
      by_cases hempty : response.edits.isEmpty = true
      · rw [if_pos hempty] at h
        obtain ⟨_, _, forgotten, hlift, h⟩ := Ends.of_bind h
        obtain ⟨-, rfl⟩ := Ends.of_lift hlift
        obtain ⟨outcome', ⟨memory₂, calls₂⟩, last, hrest, h⟩ := Ends.of_bind h
        obtain ⟨rfl, hsame, rfl⟩ := Ends.of_pure h
        cases hsame
        obtain ⟨made, rfl, hmade⟩ := ih hrest
        refine ⟨⟨rule.name, node, store, response, answered⟩ :: made,
          by rw [List.append_assoc, List.singleton_append], ?_⟩
        rw [commits_cons_of_nil hempty]
        rcases hmade with ⟨name, rfl, hmade⟩ | ⟨active, rfl, hmade⟩
        · exact .inl ⟨name, rfl, hmade⟩
        · cases hsignal : response.signal with
          | advance => exact .inr ⟨rule.recorded :: active, rfl, hmade⟩
          | skip => exact .inr ⟨active, rfl, hmade⟩
      · rw [if_neg hempty] at h
        obtain ⟨_, _, committed, hlift, h⟩ := Ends.of_bind h
        obtain ⟨-, rfl⟩ := Ends.of_lift hlift
        obtain ⟨rfl, hsame, -⟩ := Ends.of_pure h
        cases hsame
        exact ⟨[_], rfl, .inl ⟨rule.name, rfl,
          commits_singleton (Bool.eq_false_iff.mpr hempty)⟩⟩

/-- The computation counts the calls it makes that ask for edits, and lists them under the
number of the pass. -/
def Lists (pass : Nat) (computation : StateT (Memory × List Call) Build Tally) : Prop :=
  ∀ memory calls store tally memory' calls' later,
    Ends computation (memory, calls) store tally (memory', calls') later →
      ∃ made, calls' = calls ++ made ∧ tally = .ofLog (entries pass (commits made))

theorem lists_empty : Lists pass (pure .empty : StateT (Memory × List Call) Build Tally) := by
  intro memory calls store tally memory' calls' later h
  obtain ⟨rfl, hsame, -⟩ := Ends.of_pure h
  cases hsame
  exact ⟨[], (List.append_nil _).symm, rfl⟩

/-- The counts and the lists of two computations add up as their calls do. -/
theorem Lists.append {first second : StateT (Memory × List Call) Build Tally}
    (hfirst : Lists pass first) (hsecond : Lists pass second) :
    Lists pass (do
      let here ← first
      return here ++ (← second)) := by
  intro memory calls store tally memory' calls' later h
  obtain ⟨here, ⟨memory₁, calls₁⟩, middle, hhere, h⟩ := Ends.of_bind h
  obtain ⟨there, ⟨memory₂, calls₂⟩, last, hthere, h⟩ := Ends.of_bind h
  obtain ⟨rfl, hsame, -⟩ := Ends.of_pure h
  cases hsame
  obtain ⟨made, rfl, rfl⟩ := hfirst _ _ _ _ _ _ _ hhere
  obtain ⟨made', rfl, rfl⟩ := hsecond _ _ _ _ _ _ _ hthere
  exact ⟨made ++ made', List.append_assoc ..,
    by rw [commits_append, entries_append, Tally.ofLog_append]⟩

theorem Lists.of_lift {α : Type} {action : Build α}
    {next : α → StateT (Memory × List Call) Build Tally}
    (h : ∀ value, Lists pass (next value)) : Lists pass (liftM action >>= next) := by
  intro memory calls store tally memory' calls' later hends
  obtain ⟨value, _, middle, hlift, hnext⟩ := Ends.of_bind hends
  obtain ⟨-, rfl⟩ := Ends.of_lift hlift
  exact h value _ _ _ _ _ _ _ hnext

theorem lists_visitOwned {visit : NodeId → StateT (Memory × List Call) Build Tally}
    (h : ∀ id, Lists pass (visit id)) (children : List NodeId) :
    Lists pass (visitOwned visit holder children) := by
  induction children with
  | nil => exact lists_empty
  | cons child rest ih =>
      refine .of_lift (fun found => ?_)
      by_cases hgone : (found.erased || found.parent != some holder) = true
      · rw [if_pos hgone]
        exact lists_empty.append ih
      · rw [if_neg hgone]
        exact (h child).append ih

theorem lists_visitSteps (rules : List (Rule Memory)) (node : NodeId) :
    Lists pass (visitSteps options pass steps (rules.map Rule.recorded) node) := by
  induction steps generalizing rules node with
  | zero =>
      intro memory calls store tally memory' calls' later h
      cases h
  | succ steps ih =>
      intro memory calls store tally memory' calls' later h
      obtain ⟨outcome, ⟨memory₁, calls₁⟩, middle, hoffer, h⟩ := Ends.of_bind h
      obtain ⟨made, rfl, hmade⟩ := commits_offer hoffer
      obtain ⟨plain, hplain, -⟩ := mirrors_offer.of_ends hoffer
      rcases hmade with ⟨name, rfl, hmade⟩ | ⟨_, rfl, hmade⟩
      · obtain ⟨rfl, hsame, -⟩ := Ends.of_pure h
        cases hsame
        exact ⟨made, rfl, by rw [hmade]; rfl⟩
      · -- The rules that go on are recorded ones.
        cases hplain with
        | declined active =>
            have hbelow : ∃ made', calls' = calls ++ made ++ made' ∧
                tally = .ofLog (entries pass (commits made')) := by
              cases active with
              | nil => exact lists_empty _ _ _ _ _ _ _ h
              | cons rule rest =>
                  have hdown : Lists pass (liftM (Build.kindOf node) >>= fun kind =>
                      visitOwned (visitSteps options pass steps
                        ((rule :: rest).map Rule.recorded)) node kind.children) :=
                    .of_lift (fun kind => lists_visitOwned (ih (rule :: rest)) kind.children)
                  exact hdown _ _ _ _ _ _ _ h
            obtain ⟨made', rfl, rfl⟩ := hbelow
            refine ⟨made ++ made', List.append_assoc .., ?_⟩
            rw [commits_append, hmade, List.nil_append]

/-- A pass counts and logs the calls that ask for edits, each of them under its own number. -/
theorem lists_runPass {schedule : Schedule Memory} :
    Lists pass (schedule.recorded.runPass pass root) :=
  fun memory calls store => lists_visitSteps schedule.rules root memory calls store

end Schedule

/-! ## Repeated passes -/

namespace Report

structure Busy (report : Report) : Prop where
  changes : report.changes = report.log.length
  ordered : report.log.Pairwise (fun first second => first.pass ≤ second.pass)
  numbered : ∀ entry, entry ∈ report.log → 1 ≤ entry.pass ∧ entry.pass ≤ report.passes
  active : ∀ pass, 1 ≤ pass → pass ≤ report.passes →
    ∃ entry ∈ report.log, entry.pass = pass

/-- The numbers and the status of a report agree with its log, for a run that may make `limit`
passes. -/
structure Consistent (report : Report) (limit : Nat) : Prop where
  changes : report.changes = report.log.length
  ordered : report.log.Pairwise (fun first second => first.pass ≤ second.pass)
  numbered : ∀ entry, entry ∈ report.log → 1 ≤ entry.pass ∧ entry.pass ≤ report.passes
  started : 1 ≤ report.passes
  limited : report.passes ≤ limit
  /-- No pass before the last one was without a commit. -/
  active : ∀ pass, 1 ≤ pass → pass < report.passes →
    ∃ entry ∈ report.log, entry.pass = pass
  converged : report.status = .converged ↔
    ∀ entry, entry ∈ report.log → entry.pass ≠ report.passes
  exhausted : report.status ≠ .converged →
    report.status = .capReached ∧ report.passes = limit

def extend (report : Report) (offers : List (String × NodeId)) : Report where
  status := .converged
  passes := report.passes + 1
  changes := report.changes + (entries (report.passes + 1) offers).length
  log := report.log ++ entries (report.passes + 1) offers

namespace Busy

variable {report : Report} {offers : List (String × NodeId)} {limit : Nat}

theorem initial : (⟨.converged, 0, 0, []⟩ : Report).Busy where
  changes := rfl
  ordered := .nil
  numbered := fun _ hentry => nomatch hentry
  active := fun _ hfirst hlast => absurd (Nat.le_trans hfirst hlast) (Nat.not_succ_le_zero 0)

theorem changes_extend (h : report.Busy) :
    (report.extend offers).changes = (report.extend offers).log.length := by
  rw [extend, List.length_append, h.changes]

theorem ordered_extend (h : report.Busy) :
    (report.extend offers).log.Pairwise (fun first second => first.pass ≤ second.pass) := by
  refine List.pairwise_append.mpr ⟨h.ordered, ?_, ?_⟩
  · refine List.pairwise_of_forall_mem_list ?_
    intro first hfirst second hsecond
    rw [pass_of_mem_entries hfirst, pass_of_mem_entries hsecond]
  · intro first hfirst second hsecond
    rw [pass_of_mem_entries hsecond]
    exact Nat.le_succ_of_le (h.numbered first hfirst).2

theorem numbered_extend (h : report.Busy) :
    ∀ entry, entry ∈ (report.extend offers).log →
      1 ≤ entry.pass ∧ entry.pass ≤ report.passes + 1 := by
  intro entry hentry
  rcases List.mem_append.mp hentry with hold | hnew
  · obtain ⟨hfirst, hlast⟩ := h.numbered entry hold
    exact ⟨hfirst, Nat.le_succ_of_le hlast⟩
  · rw [pass_of_mem_entries hnew]
    exact ⟨Nat.le_add_left 1 _, Nat.le_refl _⟩

theorem active_extend (h : report.Busy) {pass : Nat} (hfirst : 1 ≤ pass)
    (hlast : pass ≤ report.passes) : ∃ entry ∈ (report.extend offers).log, entry.pass = pass := by
  obtain ⟨entry, hentry, hpass⟩ := h.active pass hfirst hlast
  exact ⟨entry, List.mem_append_left _ hentry, hpass⟩

theorem next (h : report.Busy) (hne : offers ≠ []) : (report.extend offers).Busy where
  changes := h.changes_extend
  ordered := h.ordered_extend
  numbered := h.numbered_extend
  active := by
    intro pass hfirst hlast
    rcases Nat.le_succ_iff.mp hlast with hold | rfl
    · exact h.active_extend hfirst hold
    · obtain ⟨offer, hoffer⟩ := List.exists_mem_of_ne_nil offers hne
      exact ⟨⟨report.passes + 1, offer.1, offer.2⟩,
        List.mem_append_right _ (List.mem_map.mpr ⟨offer, hoffer, rfl⟩), rfl⟩

theorem converge (h : report.Busy) (hlimit : report.passes + 1 ≤ limit) :
    (report.extend []).Consistent limit where
  changes := h.changes_extend
  ordered := h.ordered_extend
  numbered := h.numbered_extend
  started := Nat.le_add_left 1 _
  limited := hlimit
  active := fun _ hfirst hlast => h.active_extend hfirst (Nat.lt_succ_iff.mp hlast)
  converged := by
    refine iff_of_true rfl ?_
    intro entry hentry hpass
    have hold : entry ∈ report.log := by simpa [extend, entries] using hentry
    have hlast := (h.numbered entry hold).2
    rw [hpass] at hlast
    exact Nat.not_succ_le_self _ hlast
  exhausted := fun hne => absurd rfl hne

/-- After the last pass it may make, a busy run gives up. -/
theorem giveUp (h : report.Busy) (hstarted : 1 ≤ report.passes) :
    Consistent { report with status := .capReached } report.passes where
  changes := h.changes
  ordered := h.ordered
  numbered := h.numbered
  started := hstarted
  limited := Nat.le_refl _
  active := fun pass hfirst hlast => h.active pass hfirst (Nat.le_of_lt hlast)
  converged := by
    refine iff_of_false Status.noConfusion ?_
    intro hnone
    obtain ⟨entry, hentry, hpass⟩ := h.active report.passes hstarted (Nat.le_refl _)
    exact hnone entry hentry hpass
  exhausted := fun _ => ⟨rfl, rfl⟩

end Busy

end Report

namespace Schedule

variable {Memory : Type} {schedule : Schedule Memory} {root : NodeId} {memory memory' : Memory}
  {calls calls' : List Call} {store later final : Store} {done report : Report}

theorem consistent_runPasses {remaining : Nat} (hcancelled : schedule.cancelled = false)
    (hlimit : done.passes + remaining = schedule.maxPasses) (hpositive : 1 ≤ schedule.maxPasses)
    (hbusy : done.Busy) (hlog : done.log.map Applied.offer = commits calls)
    (h : Ends (schedule.recorded.runPasses root remaining done) (memory, calls) store report
      (memory', calls') later) :
    report.Consistent schedule.maxPasses ∧ report.log.map Applied.offer = commits calls' := by
  induction remaining generalizing done memory calls store with
  | zero =>
      obtain ⟨rfl, hsame, -⟩ := Ends.of_pure h
      cases hsame
      rw [Nat.add_zero] at hlimit
      rw [← hlimit] at hpositive ⊢
      exact ⟨hbusy.giveUp hpositive, hlog⟩
  | succ remaining ih =>
      unfold runPasses at h
      rw [if_neg (show ¬ schedule.recorded.cancelled = true from ne_true_of_eq_false hcancelled)]
        at h
      obtain ⟨tally, ⟨memory₁, calls₁⟩, middle, hpass, h⟩ := Ends.of_bind h
      obtain ⟨made, rfl, rfl⟩ := lists_runPass _ _ _ _ _ _ _ hpass
      have hnext : (done.extend (commits made)).log.map Applied.offer =
          commits (calls ++ made) := by
        rw [Report.extend, List.map_append, hlog, map_offer_entries, commits_append]
      have hcount : (Tally.ofLog (entries (done.passes + 1) (commits made))).changes = 0 ↔
          commits made = [] :=
        Tally.changes_ofLog_eq_zero.trans List.map_eq_nil_iff
      by_cases hnone : commits made = []
      · rw [if_pos (hcount.mpr hnone)] at h
        obtain ⟨rfl, hsame, -⟩ := Ends.of_pure h
        cases hsame
        rw [hnone] at hnext ⊢
        exact ⟨hbusy.converge (by omega), hnext⟩
      · rw [if_neg (mt hcount.mp hnone)] at h
        exact ih (show done.passes + 1 + remaining = schedule.maxPasses by omega)
          (hbusy.next hnone) hnext h

/-- The report of a run that was not called off agrees with its log, whatever the rules do:
the log names the calls that asked for edits, in their order, the passes that are numbered in
it are the passes made, and the status says whether the last of them committed something. -/
theorem report_agrees_with_log (hcancelled : schedule.cancelled = false)
    (hpositive : 1 ≤ schedule.maxPasses)
    (hrun : Ends (schedule.run root) memory store report memory' final) :
    report.Consistent schedule.maxPasses ∧
      report.log.map Applied.offer = commits (schedule.calls root memory store) := by
  obtain ⟨_, calls, rfl, hrecorded⟩ := mirrors_run.exists_ends hrun []
  rw [calls_of_ends hrecorded]
  exact consistent_runPasses hcancelled (Nat.zero_add _) hpositive .initial rfl hrecorded

/-- The unit `if (true) if (true) {}`. -/
def deadInDead : Store where
  nodes := #[
    ⟨.literal (.bool true), none, some 4, false⟩,
    ⟨.literal (.bool true), none, some 3, false⟩,
    ⟨.block [], none, some 3, false⟩,
    ⟨.ifStmt 1 2 none, none, some 4, false⟩,
    ⟨.ifStmt 0 3 none, none, some 5, false⟩,
    ⟨.unit [4], none, none, false⟩]

/-- The inner conditional is left for a second pass, and nobody checks that a third one would
find nothing. -/
theorem report_agrees_with_log_deadInDead :
    ∃ report final, Ends (Schedule.run ⟨[DeadBranch.rule], {}, 2, false, 0⟩ 5) () deadInDead
        report () final ∧
      report.log = [⟨1, DeadBranch.ruleName, 4⟩, ⟨2, DeadBranch.ruleName, 3⟩] ∧
      report.status = .capReached ∧ report.Consistent 2 := by
  have hrun : ∃ report final, Ends (Schedule.run ⟨[DeadBranch.rule], {}, 2, false, 0⟩ 5) ()
      deadInDead report () final ∧
        report.log = [⟨1, DeadBranch.ruleName, 4⟩, ⟨2, DeadBranch.ruleName, 3⟩] ∧
        report.status = .capReached := ⟨_, _, rfl, by decide +kernel, by decide +kernel⟩
  obtain ⟨report, final, hrun, hlog, hstatus⟩ := hrun
  exact ⟨report, final, hrun, hlog, hstatus,
    (report_agrees_with_log rfl (Nat.le_succ 1) hrun).1⟩

end Schedule

end CodeTidy
