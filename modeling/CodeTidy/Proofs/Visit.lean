import CodeTidy.Proofs.Step
import CodeTidy.Engine

/-!
# Visits of a tree

A visit offers the nodes of a tree to rules, and every commit changes the tree under the
visit.  What a commit leaves beside the visited node (`Tree.Beside`) is what the visit
needs to go on: the children it has listed are erased or still there.
-/

namespace CodeTidy

/-! ## Tallies -/

namespace Tally

variable {log : List Applied}

def ofLog (log : List Applied) : Tally :=
  ⟨log.length, log⟩

theorem ofLog_append (log log' : List Applied) :
    ofLog (log ++ log') = ofLog log ++ ofLog log' := by
  rw [ofLog, List.length_append]
  rfl

theorem empty_append (tally : Tally) : empty ++ tally = tally :=
  congrArg (fun changes => (⟨changes, tally.log⟩ : Tally)) (Nat.zero_add tally.changes)

theorem changes_ofLog_eq_zero : (ofLog log).changes = 0 ↔ log = [] :=
  List.length_eq_zero_iff

end Tally

/-! ## Computations with a memory -/

def Runs {α : Type} (computation : StateT Unit Build α) (store : Store) (value : α)
    (later : Store) : Prop :=
  computation () store = .ok ((value, ()), later)

section

variable {α β : Type} {store middle later : Store} {value : α} {result : β}

theorem Runs.bind {first : StateT Unit Build α} {next : α → StateT Unit Build β}
    (h : Runs first store value middle) (hnext : Runs (next value) middle result later) :
    Runs (first >>= next) store result later := by
  have hrun : (first >>= next) () store =
      (first () >>= fun pair => next pair.1 pair.2) store := rfl
  exact hrun.trans ((Build.bind_ok h).trans hnext)

theorem runs_pure (value : α) (store : Store) : Runs (pure value) store value store := rfl

theorem Runs.lift {computation : Build α} (h : computation store = .ok (value, later)) :
    Runs (liftM computation) store value later := by
  have hrun : (liftM computation : StateT Unit Build α) () store =
      (computation >>= fun value => pure (value, ())) store := rfl
  exact hrun.trans ((Build.bind_ok h).trans rfl)

end

/-! ## Offers -/

variable {options : Options} {rules : List (Rule Unit)} {base final : Store} {tree old later : Tree}
  {node root : NodeId}

/-- The rule does not act on the node and leaves the store as it is. -/
def Rule.Declines (options : Options) (store : Store) (node : NodeId) (rule : Rule Unit) : Prop :=
  Runs (rule.respond options node) store .decline store

/-- The named rule asks for edits of the tree at `root` when it is offered the target, and
they are committed. -/
def Store.Commits (options : Options) (rules : List (Rule Unit)) (root : NodeId) (store : Store)
    (applied : Applied) (later : Store) : Prop :=
  applied.target ∈ store.preorder root ∧ ∃ rule ∈ rules, rule.name = applied.rule ∧
    ∃ response drafted, response.edits ≠ [] ∧
      Runs (rule.respond options applied.target) store response drafted ∧
      Build.commit response.edits drafted = .ok ((), later)

theorem runs_forgetMoves (hidle : base.moves = []) :
    Runs (liftM Build.forgetMoves) base () base := by
  have hsame : base.forgetMoves = base := by
    unfold Store.forgetMoves
    rw [← hidle]
  refine .lift ((Build.run_modify Store.forgetMoves base).trans ?_)
  rw [hsame]

theorem runs_offer_declined (hidle : base.moves = [])
    (h : ∀ rule, rule ∈ rules → rule.Declines options base node) :
    Runs (Schedule.offer options node rules) base (.declined rules) base := by
  induction rules with
  | nil => exact runs_pure _ base
  | cons rule rest ih =>
      refine .bind (h rule (List.mem_cons_self ..)) ?_
      refine .bind (runs_forgetMoves hidle) ?_
      exact .bind (ih (fun other hother => h other (List.mem_cons_of_mem _ hother)))
        (runs_pure _ base)

/-- Offering a node to rules of which the first that does not decline commits. -/
theorem runs_offer_committed {first rest : List (Rule Unit)} {rule : Rule Unit}
    {response : Response} {drafted : Store} (hidle : base.moves = [])
    (hfirst : ∀ other, other ∈ first → other.Declines options base node)
    (hne : response.edits ≠ []) (hrun : Runs (rule.respond options node) base response drafted)
    (hcommit : Build.commit response.edits drafted = .ok ((), final)) :
    Runs (Schedule.offer options node (first ++ rule :: rest)) base
      (.committed rule.name) final := by
  induction first with
  | nil =>
      refine .bind hrun ?_
      have hfull : response.edits.isEmpty = false := by simpa using hne
      rw [hfull]
      exact .bind (.lift hcommit) (runs_pure _ final)
  | cons other first ih =>
      refine .bind (hfirst other (List.mem_cons_self ..)) ?_
      refine .bind (runs_forgetMoves hidle) ?_
      exact .bind (ih (fun another hanother => hfirst another (List.mem_cons_of_mem _ hanother)))
        (runs_pure _ final)

def Selected (rules : List (Rule Unit)) : Prop :=
  ∀ rule, rule ∈ rules → rule ∈ Registry.rules

theorem runs_plain {name : String} {respond : Options → NodeId → Build Response}
    {response : Response} (h : respond options node base = .ok (response, final)) :
    Runs ((Rule.plain name respond : Rule Unit).respond options node) base response final :=
  Runs.lift h

theorem exists_first_not_declining :
    (∀ rule, rule ∈ rules → rule.Declines options base node) ∨
      ∃ first rule rest, rules = first ++ rule :: rest ∧
        (∀ other, other ∈ first → other.Declines options base node) ∧
        ¬ rule.Declines options base node := by
  induction rules with
  | nil => exact .inl (by simp)
  | cons rule rest ih =>
      by_cases hdeclines : rule.Declines options base node
      · rcases ih with hall | ⟨first, other, others, rfl, hfirst, hother⟩
        · exact .inl (by simpa using ⟨hdeclines, hall⟩)
        · exact .inr ⟨rule :: first, other, others, rfl, by simpa using ⟨hdeclines, hfirst⟩, hother⟩
      · exact .inr ⟨[], rule, rest, rfl, by simp, hdeclines⟩

theorem declines_root (hrules : Selected rules) (hbase : base.Holds tree) (horder : tree.Orderly)
    {rule : Rule Unit} (hrule : rule ∈ rules) : rule.Declines options base tree.id := by
  obtain ⟨name, respond, rfl, hresponsive⟩ := Registry.exists_responsive (hrules rule hrule)
  have hlegible := Tree.Legible.of_holds hbase tree.mem_subtrees_self
  have hhead := hlegible.kind_head
  rw [horder.1] at hhead
  cases hkind : base.kind tree.id <;> rw [hkind] at hhead <;> cases hhead
  exact runs_plain (hresponsive.root hlegible.lt hkind)

/-- What the rules answer: all of them decline, or one of them can commit after the others have
declined. -/
theorem answers_cases (hrules : Selected rules) (hbase : base.Holds tree) (horder : tree.Orderly)
    (hold : old ∈ tree.subtrees) :
    (∀ rule, rule ∈ rules → rule.Declines options base old.id) ∨
      ∃ first rule rest response drafted final later, rules = first ++ rule :: rest ∧
        (∀ other, other ∈ first → other.Declines options base old.id) ∧ old ≠ tree ∧
        response.edits ≠ [] ∧ Runs (rule.respond options old.id) base response drafted ∧
        Build.commit response.edits drafted = .ok ((), final) ∧
        Effect base tree old.id final later ∧ tree.Committed later := by
  rcases @exists_first_not_declining options rules base old.id with
    hall | ⟨first, rule, rest, rfl, hfirst, hrule⟩
  · exact .inl hall
  · refine .inr ?_
    have hmem : rule ∈ first ++ rule :: rest := List.mem_append_right _ (List.mem_cons_self ..)
    have hne : old ≠ tree := by
      rintro rfl
      exact hrule (declines_root hrules hbase horder hmem)
    obtain ⟨name, respond, rfl, hresponsive⟩ := Registry.exists_responsive (hrules rule hmem)
    rcases @Responsive.answers respond hresponsive options _ _ _ hbase horder hold hne with
      hdecline | ⟨edits, drafted, final, later, hedits, hrun, hcommit, heffect, hout⟩
    · exact absurd (runs_plain hdecline) hrule
    · exact ⟨first, _, rest, .edit edits, drafted, final, later, rfl, hfirst, hne, hedits,
        runs_plain hrun, hcommit, heffect, hout⟩

/-- What an offer comes to: all rules decline, or one commits. -/
theorem offer_cases (hrules : Selected rules) (hbase : base.Holds tree) (horder : tree.Orderly)
    (hold : old ∈ tree.subtrees) :
    (∀ rule, rule ∈ rules → rule.Declines options base old.id) ∨
      ∃ name final later, old ≠ tree ∧
        Runs (Schedule.offer options old.id rules) base (.committed name) final ∧
        (∀ pass, base.Commits options rules tree.id ⟨pass, name, old.id⟩ final) ∧
        Effect base tree old.id final later ∧ tree.Committed later := by
  rcases @answers_cases options _ _ _ _ hrules hbase horder hold with hall | ⟨first, rule, rest,
    response, drafted, final, later, rfl, hfirst, hne, hedits, hrun, hcommit, heffect, hout⟩
  · exact .inl hall
  · have hreach : old.id ∈ base.preorder tree.id := by
      rw [hbase.preorder_eq tree.mem_subtrees_self]
      exact Tree.ids_subset_of_mem hold old.id_mem_ids
    refine .inr ⟨rule.name, final, later, hne, ?_, ?_, heffect, hout⟩
    · exact runs_offer_committed hbase.idle hfirst hedits hrun hcommit
    · exact fun pass => ⟨hreach, rule, List.mem_append_right _ (List.mem_cons_self ..), rfl,
        response, drafted, hedits, hrun, hcommit⟩

/-! ## Commits in a row -/

/-- Commits in a row, with the stores after each of them. -/
inductive Trail (options : Options) (rules : List (Rule Unit)) (root : NodeId) :
    Store → List Applied → List Store → Store → Prop where
  | nil {store : Store} : Trail options rules root store [] [] store
  | cons {store later final : Store} {applied : Applied} {log : List Applied}
      {stores : List Store} (first : store.Commits options rules root applied later)
      (rest : Trail options rules root later log stores final) :
      Trail options rules root store (applied :: log) (later :: stores) final

theorem Trail.append {store middle : Store} {log log' : List Applied} {stores stores' : List Store}
    (h : Trail options rules root store log stores middle)
    (h' : Trail options rules root middle log' stores' final) :
    Trail options rules root store (log ++ log') (stores ++ stores') final := by
  induction h with
  | nil => exact h'
  | cons first _ ih => exact .cons first (ih h')

structure Progress (options : Options) (rules : List (Rule Unit)) (base : Store) (tree : Tree)
    (log : List Applied) (final : Store) (later : Tree) : Prop where
  trail : ∃ stores, Trail options rules tree.id base log stores final
  holds : final.Holds later
  order : later.Orderly
  root : later.id = tree.id
  erased : ∀ id, base.isErased id = true → final.isErased id = true
  quiet : log = [] → final = base ∧ later = tree

theorem Progress.refl (hbase : base.Holds tree) (horder : tree.Orderly) :
    Progress options rules base tree [] base tree where
  trail := ⟨[], .nil⟩
  holds := hbase
  order := horder
  root := rfl
  erased := fun _ h => h
  quiet := fun _ => ⟨rfl, rfl⟩

theorem Progress.trans {middle : Store} {between : Tree} {log log' : List Applied}
    (h : Progress options rules base tree log middle between)
    (h' : Progress options rules middle between log' final later) :
    Progress options rules base tree (log ++ log') final later where
  trail := by
    obtain ⟨stores, htrail⟩ := h.trail
    obtain ⟨stores', htrail'⟩ := h'.trail
    rw [h.root] at htrail'
    exact ⟨stores ++ stores', htrail.append htrail'⟩
  holds := h'.holds
  order := h'.order
  root := h'.root.trans h.root
  erased := fun id hid => h'.erased id (h.erased id hid)
  quiet := by
    intro hnil
    obtain ⟨rfl, rfl⟩ := List.append_eq_nil_iff.mp hnil
    obtain ⟨rfl, rfl⟩ := h.quiet rfl
    exact h'.quiet rfl

theorem Tree.Committed.orderly (h : tree.Committed later) (horder : tree.Orderly) :
    later.Orderly := by
  constructor
  · rw [← Tree.head_term, h.head_eq, Tree.head_term, horder.1]
  · rw [← Term.all_isSound_false]
    refine Term.Commit.sound h ?_
    rw [Term.all_isSound_false]
    exact horder.2

theorem Progress.of_commit {pass : Nat} {name : String} (horder : tree.Orderly)
    (hcommits : base.Commits options rules tree.id ⟨pass, name, node⟩ final)
    (heffect : Effect base tree node final later) (hout : tree.Committed later) :
    Progress options rules base tree [⟨pass, name, node⟩] final later where
  trail := ⟨[final], .cons hcommits .nil⟩
  holds := heffect.holds
  order := hout.orderly horder
  root := heffect.root
  erased := heffect.ages.erased
  quiet := by simp

/-! ## Visits -/

structure Visit (options : Options) (rules : List (Rule Unit)) (base : Store) (tree : Tree)
    (old : Tree) (log : List Applied) (final : Store) (later : Tree) : Prop
    extends Progress options rules base tree log final later where
  /-- What is beside the node is erased or still there. -/
  beside : log ≠ [] → tree.Beside (fun id => final.isErased id = true) old.id later
  /-- If nothing was committed, every rule declined every node. -/
  declined : log = [] → ∀ below, below ∈ old.subtrees → ∀ rule, rule ∈ rules →
    rule.Declines options base below.id

/-- The computation visits every node of the given height or less. -/
def Visits (options : Options) (rules : List (Rule Unit)) (steps : Nat)
    (visit : NodeId → StateT Unit Build Tally) : Prop :=
  ∀ {base : Store} {tree old : Tree}, base.Holds tree → tree.Orderly →
    old ∈ tree.subtrees → old.height ≤ steps →
    ∃ log final later, Runs (visit old.id) base (.ofLog log) final ∧
      Visit options rules base tree old log final later

theorem Store.lt_of_isErased {id : NodeId} (h : base.isErased id = true) : id < base.size := by
  by_contra hout
  have hleaf : base.node id = Node.leaf :=
    Array.getD_eq_getD_getElem?.trans (by rw [Array.getElem?_eq_none (Nat.not_lt.mp hout)]; rfl)
  rw [isErased, hleaf] at h
  cases h

/-- The children listed for a visit: each is erased, or stands below the holder still. -/
def Listed (base : Store) (holder : Tree) (steps : Nat) (ids : List NodeId) : Prop :=
  ids.Nodup ∧ ∀ id, id ∈ ids → base.isErased id = true ∨
    ∃ child ∈ holder.subs, child.id = id ∧ child.height ≤ steps

/-- A visit of a child keeps the list of the other children. -/
theorem Listed.step {holder child : Tree} {steps : Nat} {ids : List NodeId} {log : List Applied}
    (h : Listed base holder steps (child.id :: ids)) (htree : tree.ids.Nodup)
    (hholder : holder ∈ tree.subtrees) (hchild : child ∈ holder.subs)
    (hvisit : Visit options rules base tree child log final later) (hne : log ≠ []) :
    ∃ holder' ∈ later.subtrees, holder'.id = holder.id ∧ Listed final holder' steps ids := by
  have hslots : (holder.subs.flatMap Tree.ids).Nodup :=
    Tree.nodup_slots (Tree.nodup_ids_of_mem htree hholder)
  obtain ⟨hnotMem, hnodup⟩ := List.nodup_cons.mp h.1
  obtain ⟨holder', hholder', hid, hbeside⟩ := hvisit.beside hne holder hholder
    (List.mem_flatMap.mpr ⟨child, hchild, child.id_mem_ids⟩)
  refine ⟨holder', hholder', hid, hnodup, ?_⟩
  intro id hmem
  rcases h.2 id (List.mem_cons_of_mem _ hmem) with herased | ⟨other, hother, rfl, hheight⟩
  · exact .inl (hvisit.erased id herased)
  · have hotherNe : other.id ≠ child.id := fun he => hnotMem (he ▸ hmem)
    rcases hbeside other hother hotherNe with ⟨hgone, -⟩ | ⟨other', hother', hotherId, hlow⟩
    · exact .inl hgone
    · refine .inr ⟨other', hother', hotherId, Nat.le_trans (hlow ?_) hheight⟩
      intro hin
      exact hotherNe (congrArg Tree.id
        (Tree.eq_of_common_id hslots hother hchild hin child.id_mem_ids))

theorem Listed.tail {holder : Tree} {steps : Nat} {id : NodeId} {ids : List NodeId}
    (h : Listed base holder steps (id :: ids)) : Listed base holder steps ids :=
  ⟨(List.nodup_cons.mp h.1).2, fun other hother => h.2 other (List.mem_cons_of_mem _ hother)⟩

theorem Listed.of_subs {steps : Nat} (hnodup : old.ids.Nodup) (hheight : old.height ≤ steps + 1) :
    Listed base old steps (old.subs.map Tree.id) := by
  refine ⟨Tree.nodup_map_id (Tree.nodup_slots hnodup), ?_⟩
  intro id hid
  obtain ⟨child, hchild, rfl⟩ := List.mem_map.mp hid
  have hlow := Tree.height_lt_of_mem hchild
  exact .inr ⟨child, hchild, rfl, by omega⟩

/-- What the visits of listed children do: what is around their holder stays. -/
structure Sweep (options : Options) (rules : List (Rule Unit)) (base : Store) (tree : Tree)
    (holder : Tree) (ids : List NodeId) (log : List Applied) (final : Store) (later : Tree) : Prop
    extends Progress options rules base tree log final later where
  around : tree.Around (fun id => final.isErased id = true) holder.id later
  declined : log = [] → ∀ child, child ∈ holder.subs → child.id ∈ ids →
    base.isErased child.id = false → ∀ below, below ∈ child.subtrees →
    ∀ rule, rule ∈ rules → rule.Declines options base below.id

theorem passes_erased {base : Store} {id : NodeId} (herased : base.isErased id = true)
    (holder : NodeId) :
    ((base.node id).erased || (base.node id).parent != some holder) = true := by
  rw [show (base.node id).erased = true from herased]
  rfl

/-- A child that stands in a slot is visited, unless it is erased. -/
theorem visits_slot {base : Store} {tree holder child : Tree} (hbase : base.Holds tree)
    (hholder : holder ∈ tree.subtrees) (hchild : child ∈ holder.subs)
    (hlive : base.isErased child.id ≠ true) :
    ((base.node child.id).erased || (base.node child.id).parent != some holder.id) ≠ true := by
  have hlink : base.parent child.id = some holder.id := (hbase.held.of_slot hholder hchild).link
  rw [show (base.node child.id).parent = some holder.id from hlink,
    show (base.node child.id).erased = false from Bool.eq_false_iff.mpr hlive]
  simp

/-- A sweep goes past one more child that is erased or declined. -/
theorem Sweep.past {holder : Tree} {id : NodeId} {ids : List NodeId} {log : List Applied}
    (h : Sweep options rules base tree holder ids log final later)
    (hdeclines : ∀ child ∈ holder.subs, child.id = id → base.isErased id = false →
      ∀ below, below ∈ child.subtrees → ∀ rule, rule ∈ rules →
        rule.Declines options base below.id) :
    Sweep options rules base tree holder (id :: ids) log final later := by
  refine { h with declined := ?_ }
  intro hnil child hchild hmem hlive
  rcases List.mem_cons.mp hmem with rfl | hmem
  · exact hdeclines child hchild rfl hlive
  · exact h.declined hnil child hchild hmem hlive

/-- A sweep goes on in the tree that the commits below the first child leave. -/
theorem Sweep.after {middle : Store} {between holder holder' child : Tree} {ids : List NodeId}
    {first log : List Applied} (hbase : base.Holds tree) (hholder : holder ∈ tree.subtrees)
    (hchild : child ∈ holder.subs)
    (hvisit : Visit options rules base tree child first middle between) (hne : first ≠ [])
    (hid : holder'.id = holder.id)
    (h : Sweep options rules middle between holder' ids log final later) :
    Sweep options rules base tree holder (child.id :: ids) (first ++ log) final later := by
  refine { hvisit.toProgress.trans h.toProgress with around := ?_, declined := ?_ }
  · have hbefore := ((hvisit.beside hne).around hbase.nodup hvisit.holds.nodup hholder
      hchild).mono h.erased
    have hafter := h.around
    rw [hid] at hafter
    exact .trans hbase.nodup hvisit.holds.nodup hbefore hafter
  · intro hnil
    exact absurd (List.append_eq_nil_iff.mp hnil).1 hne

section Owned

variable {visit : NodeId → StateT Unit Build Tally} {middle : Store} {holder child : Tree}
  {ids : List NodeId} {first log : List Applied}

theorem runs_visitOwned_erased {id : NodeId} (herased : base.isErased id = true)
    (hrest : Runs (Schedule.visitOwned visit holder.id ids) base (.ofLog log) final) :
    Runs (Schedule.visitOwned visit holder.id (id :: ids)) base (.ofLog log) final := by
  refine .bind (.lift (Build.run_lookup (Store.lt_of_isErased herased))) ?_
  rw [if_pos (passes_erased herased holder.id), ← Tally.empty_append (.ofLog log)]
  exact .bind (runs_pure Tally.empty base) (.bind hrest (runs_pure _ final))

theorem runs_visitOwned_live (hbase : base.Holds tree) (hholder : holder ∈ tree.subtrees)
    (hchild : child ∈ holder.subs) (hlive : base.isErased child.id ≠ true)
    (hfirst : Runs (visit child.id) base (.ofLog first) middle)
    (hrest : Runs (Schedule.visitOwned visit holder.id ids) middle (.ofLog log) final) :
    Runs (Schedule.visitOwned visit holder.id (child.id :: ids)) base (.ofLog (first ++ log))
      final := by
  have hlt := (Tree.Legible.of_holds hbase (Tree.slot_mem_subtrees hholder hchild)).lt
  rw [Tally.ofLog_append]
  refine .bind (.lift (Build.run_lookup hlt)) ?_
  rw [if_neg (visits_slot hbase hholder hchild hlive)]
  exact .bind hfirst (.bind hrest (runs_pure _ final))

end Owned

theorem runs_visitOwned {visit : NodeId → StateT Unit Build Tally} {steps : Nat}
    (hvisit : Visits options rules steps visit) {base : Store} {tree holder : Tree}
    {ids : List NodeId} (hbase : base.Holds tree) (horder : tree.Orderly)
    (hholder : holder ∈ tree.subtrees) (hlisted : Listed base holder steps ids) :
    ∃ log final later, Runs (Schedule.visitOwned visit holder.id ids) base (.ofLog log) final ∧
      Sweep options rules base tree holder ids log final later := by
  induction ids generalizing base tree holder with
  | nil =>
      exact ⟨[], base, tree, runs_pure Tally.empty base,
        { Progress.refl hbase horder with around := .refl tree, declined := by simp }⟩
  | cons id ids ih =>
      by_cases herased : base.isErased id = true
      · obtain ⟨log, final, later, hrun, hsweep⟩ := ih hbase horder hholder hlisted.tail
        refine ⟨log, final, later, runs_visitOwned_erased herased hrun, hsweep.past ?_⟩
        intro child _ _ hlive
        rw [herased] at hlive
        cases hlive
      · obtain ⟨child, hchild, rfl, hheight⟩ :=
          (hlisted.2 id (List.mem_cons_self ..)).resolve_left herased
        have hchildIn : child ∈ tree.subtrees := Tree.slot_mem_subtrees hholder hchild
        obtain ⟨first, middle, between, hfirst, hchildVisit⟩ :=
          hvisit hbase horder hchildIn hheight
        by_cases hquiet : first = []
        · subst hquiet
          obtain ⟨rfl, rfl⟩ := hchildVisit.quiet rfl
          obtain ⟨log, final, later, hrun, hsweep⟩ := ih hbase horder hholder hlisted.tail
          refine ⟨log, final, later,
            runs_visitOwned_live hbase hholder hchild herased hfirst hrun, hsweep.past ?_⟩
          intro other hother hid _
          obtain rfl : other = child := Tree.eq_of_id_eq hbase.nodup
            (Tree.slot_mem_subtrees hholder hother) hchildIn hid
          exact hchildVisit.declined rfl
        · obtain ⟨holder', hholder', hid, hlisted'⟩ :=
            hlisted.step hbase.nodup hholder hchild hchildVisit hquiet
          obtain ⟨log, final, later, hrun, hsweep⟩ :=
            ih hchildVisit.holds hchildVisit.order hholder' hlisted'
          exact ⟨first ++ log, final, later,
            runs_visitOwned_live hbase hholder hchild herased hfirst (hid ▸ hrun),
            hsweep.after hbase hholder hchild hchildVisit hquiet hid⟩

/-- A visit with enough steps never faults. -/
theorem runs_visitSteps (pass : Nat) (hrules : Selected rules) (steps : Nat) :
    Visits options rules steps (Schedule.visitSteps options pass steps rules) := by
  induction steps with
  | zero =>
      intro base tree old _ _ _ hheight
      have hpos := old.height_pos
      omega
  | succ steps ih =>
      intro base tree old hbase horder hold hheight
      rcases @offer_cases options _ _ _ _ hrules hbase horder hold with
        hdeclined | ⟨name, final, later, hne, hoffer, hcommits, heffect, hout⟩
      · have hoffer := runs_offer_declined hbase.idle hdeclined
        cases rules with
        | nil =>
            exact ⟨[], base, tree, .bind hoffer (runs_pure Tally.empty base),
              { Progress.refl hbase horder with beside := by simp, declined := by simp }⟩
        | cons rule rest =>
            have hlegible := Tree.Legible.of_holds hbase hold
            have hlisted : Listed base old steps (base.kind old.id).children := by
              rw [show (base.kind old.id).children = old.subs.map Tree.id from hlegible.children]
              exact .of_subs (Tree.nodup_ids_of_mem hbase.nodup hold) hheight
            obtain ⟨log, final, later, hrun, hsweep⟩ :=
              runs_visitOwned ih hbase horder hold hlisted
            refine ⟨log, final, later, .bind hoffer (.bind (.lift (Build.run_kindOf hlegible.lt))
              hrun), { hsweep.toProgress with beside := ?_, declined := ?_ }⟩
            · exact fun _ => hsweep.around.beside hbase.nodup
            · intro hnil below hbelow
              rcases Tree.mem_subtrees_iff.mp hbelow with rfl | ⟨child, hchild, hin⟩
              · exact hdeclined
              · refine hsweep.declined hnil child hchild ?_ ?_ below hin
                · have hids : (base.kind old.id).children = old.subs.map Tree.id :=
                    hlegible.children
                  rw [hids]
                  exact List.mem_map_of_mem hchild
                · obtain ⟨owner, hheld⟩ := hbase.held.of_mem hold
                  exact hheld.live hchild
      · refine ⟨[⟨pass, name, old.id⟩], final, later, .bind hoffer (runs_pure _ final),
          { Progress.of_commit horder (hcommits pass) heffect hout with
            beside := fun _ => heffect.beside, declined := by simp }⟩

end CodeTidy
