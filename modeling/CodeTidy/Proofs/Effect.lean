import CodeTidy.Proofs.Confinement
import CodeTidy.Proofs.Construct
import CodeTidy.Proofs.Frame
import CodeTidy.Rule.LocalTable

/-!
# Answers of a rule

A rule that is offered a node either declines and leaves the store as it is, or asks
for edits that can be committed.  `Answers` says so for one node, together with what
becomes of the term of that node.
-/

namespace CodeTidy

def LocalTable.Use.edited : Use → NodeId
  | .receiver name => name
  | .synonym decl _ _ _ => decl

def LocalTable.Replaces (store : Store) (decl node : NodeId) : Prop :=
  ∃ text binding init uses, store.kind decl = .varDecl text (some binding) (some init) ∧
    localUses? store decl binding = some uses ∧ node ∈ uses.map Use.edited

/-- What a commit at a node leaves: a store that holds the later tree, in which nothing
erased has come back and the tree beside the node has stayed.  Only nodes at and below the
node come to stand elsewhere.  All other nodes keep what they are, but for the uses of a table that
are replaced with its local. -/
structure Effect (base : Store) (tree : Tree) (node : NodeId) (final : Store) (later : Tree) :
    Prop where
  holds : final.Holds later
  ages : base.Ages final tree.id
  beside : tree.Beside (fun id => final.isErased id = true) node later
  confined : tree.Confined base.size (tree.Above node) later
  root : later.id = tree.id
  frame : ∃ others, (∀ other, other ∈ others → LocalTable.Replaces base node other ∧
    final.isErased other = true) ∧ base.KeepsOutside final (node :: others)

/-- The answer to the offer of a node, in a store that holds `tree`.  Either the rule
declines, or its edits can be committed and `outcome` relates the trees before and
after. -/
def Answers (respond : Build Response) (base : Store) (tree : Tree) (node : NodeId)
    (outcome : Tree → Prop) : Prop :=
  respond base = .ok (.decline, base) ∨
    ∃ edits drafted final later, edits ≠ [] ∧ respond base = .ok (.edit edits, drafted) ∧
      Build.commit edits drafted = .ok ((), final) ∧ Effect base tree node final later ∧
      outcome later

/-- A local rewriting relation: what a term may become, where `none` stands for nothing. -/
abbrev Rewriting := Term → Option Term → Prop

def Tree.RewrittenBy (rewriting : Rewriting) (tree : Tree) (old : Term) (later : Tree) : Prop :=
  ∃ fresh, rewriting old fresh ∧ Term.Swap old fresh tree.term later.term

/-- What is left of a statement that disappears: nothing, or an empty block. -/
inductive Vanished : Option Term → Prop where
  | slot : Vanished none
  | block : Vanished (some (.block []))

variable {base store drafted : Store} {region : List NodeId} {tree old new : Tree}
  {respond : Build Response} {rewriting : Rewriting}

theorem Build.exists_outcome {α : Type} {make : Build α} {check : α × Store → Bool}
    (h : (make base).toOption.any check = true) :
    ∃ value later, make base = .ok (value, later) ∧ check (value, later) = true := by
  cases hrun : make base with
  | error fault =>
      rw [hrun] at h
      cases h
  | ok outcome =>
      rw [hrun] at h
      exact ⟨outcome.1, outcome.2, rfl, h⟩

/-- An answer depends on what is computed from the store that is offered. -/
theorem Answers.congr {respond' : Build Response} {node : NodeId} {outcome : Tree → Prop}
    (h : Answers respond' base tree node outcome) (hsame : respond base = respond' base) :
    Answers respond base tree node outcome := by
  unfold Answers
  rw [hsame]
  exact h

theorem Answers.imp {node : NodeId} {outcome outcome' : Tree → Prop}
    (h : Answers respond base tree node outcome)
    (himp : ∀ later, outcome later → outcome' later) :
    Answers respond base tree node outcome' := by
  rcases h with hdecline | ⟨edits, drafted, final, later, hne, hrun, hcommit, heffect, hout⟩
  · exact .inl hdecline
  · exact .inr ⟨edits, drafted, final, later, hne, hrun, hcommit, heffect, himp later hout⟩

theorem Tree.Legible.of_held {below : Tree} {owner : Option NodeId} (h : tree.Held base owner)
    (hnodup : tree.ids.Nodup) (hmem : below ∈ tree.subtrees) : below.Legible base :=
  Tree.Legible.of_mem ⟨h.laid, h.laid.height_le hnodup⟩ hmem

theorem Tree.Legible.of_holds {below : Tree} (h : base.Holds tree)
    (hmem : below ∈ tree.subtrees) : below.Legible base :=
  .of_held h.held h.nodup hmem

/-- The slots of a node of the tree, as the store has them. -/
theorem Store.Holds.slots {before after : List Tree} {holder : Tree} (h : base.Holds tree)
    (hholder : holder ∈ tree.subtrees) (hslots : holder.subs = before ++ old :: after) :
    base.parent old.id = some holder.id ∧
      (base.kind holder.id).children = before.map Tree.id ++ old.id :: after.map Tree.id ∧
      (before.map Tree.id ++ old.id :: after.map Tree.id).Nodup := by
  have hlegible := Tree.Legible.of_holds h hholder
  have hchildren : (base.kind holder.id).children = holder.subs.map Tree.id := hlegible.children
  have hnodup := Tree.nodup_map_id (Tree.nodup_slots (Tree.nodup_ids_of_mem h.nodup hholder))
  rw [hslots, List.map_append, List.map_cons] at hchildren hnodup
  exact ⟨(h.held.of_slot hholder (by rw [hslots]; simp)).link, hchildren, hnodup⟩

theorem Kind.slotStrength?_eq_demand? {kind : Kind} {child : NodeId} {before after : List NodeId}
    (hslots : kind.children = before ++ child :: after)
    (hnodup : (before ++ child :: after).Nodup) :
    kind.slotStrength? child = kind.head.demand? before.length := by
  have hfirst : ∀ first rest, first :: rest = before ++ child :: after →
      (first = child ↔ before.length = 0) := by
    intro first rest hsplit
    cases before with
    | nil =>
        cases hsplit
        simp
    | cons other before =>
        cases hsplit
        have hne : first ≠ child := by
          rintro rfl
          exact (List.nodup_cons.mp hnodup).1 (by simp)
        simp [hne]
  cases kind with
  | call receiver method args =>
      cases receiver with
      | none => rfl
      | some receiver =>
          have hiff := hfirst receiver args hslots
          by_cases hchild : receiver = child
          · simp [slotStrength?, head, Head.demand?, hchild, hiff.mp hchild]
          · obtain ⟨position, hposition⟩ :=
              Nat.exists_eq_succ_of_ne_zero (fun he => hchild (hiff.mpr he))
            simp [slotStrength?, head, Head.demand?, hchild, hposition]
  | assign op target value =>
      have hiff := hfirst target [value] hslots
      by_cases hchild : target = child
      · simp [slotStrength?, head, Head.demand?, hchild, hiff.mp hchild]
      · obtain ⟨position, hposition⟩ :=
          Nat.exists_eq_succ_of_ne_zero (fun he => hchild (hiff.mpr he))
        simp [slotStrength?, head, Head.demand?, hchild, hposition]
  | _ => rfl

theorem Term.meets_wrap {outer : Nat} (h : outer ≤ Strength.primary) (term : Term) :
    (term.wrap outer).head.meets outer = true := by
  unfold wrap
  split
  · exact Head.meets_of_primary rfl h
  · next htight =>
      have hstrength : term.head.strength = term.strength := rfl
      simp only [Head.meets, hstrength]
      simp only [Bool.or_eq_true, decide_eq_true_eq, Bool.and_eq_true, beq_iff_eq, not_or,
        not_and, Nat.not_lt] at htight ⊢
      omega

theorem Term.suits_fit {holder : Head} {position : Nat} (term : Term) :
    holder.suits position (term.fit (holder.demand? position)).head = true := by
  cases hdemand : holder.demand? position with
  | none => simp [Head.suits, hdemand]
  | some outer =>
      simp only [Head.suits, hdemand, Option.all_some]
      exact meets_wrap (Head.demand?_le hdemand) term

theorem Tree.rewrittenBy_inside {target : NodeId} {fresh : Option Tree} (hnodup : tree.ids.Nodup)
    (hold : old ∈ tree.subtrees) (hne : old ≠ tree)
    (hstmt : old.head.isExpression = false) (htarget : target ∈ old.subs.flatMap Tree.ids)
    (hrel : rewriting old.term (some (old.put target fresh).term)) :
    tree.RewrittenBy rewriting old.term (tree.put target fresh) := by
  refine ⟨_, hrel, ?_⟩
  rw [Tree.put_inside hnodup hold hne htarget]
  exact @Tree.swap_put _ _ (some (old.put target fresh)) hnodup hold hne
    (by intro hnone; cases hnone) (by simp [hstmt])

theorem Tree.beside_inside {target : NodeId} {fresh : Option Tree} {gone : NodeId → Prop}
    (hnodup : tree.ids.Nodup) (hold : old ∈ tree.subtrees) (hne : old ≠ tree)
    (htarget : target ∈ old.subs.flatMap Tree.ids) :
    tree.Beside gone old.id (tree.put target fresh) := by
  rw [Tree.put_inside hnodup hold hne htarget]
  exact Tree.beside_put hnodup hold

/-- A change at a node is confined to what is at and below the node. -/
theorem Tree.confined_at {bound : Nat} {fresh : Option Tree} (hnodup : tree.ids.Nodup)
    (hold : old ∈ tree.subtrees) (hne : old ≠ tree)
    (hfresh : ∀ new, new ∈ fresh → Tree.Within bound old new) :
    tree.Confined bound (tree.Above old.id) (tree.put old.id fresh) :=
  Tree.confined_put hnodup hold hne (Tree.within_put hnodup hold hfresh)
    (fun _ _ hid _ _ _ => Tree.above_of_mem hold hid)

namespace Draft

/-- An answer that puts a drafted tree in the place of the node. -/
theorem answers_replace (h : Draft base region drafted [new]) (hbase : base.Holds tree)
    (hold : old ∈ tree.subtrees) (hne : old ≠ tree) (hregion : region ⊆ old.subs.flatMap Tree.ids)
    {child : Child} (hchild : child.node = new.id)
    (hrun : respond base = .ok (.edit [⟨old.id, .replace child⟩], drafted))
    (hrel : rewriting old.term (some new.term))
    (hsuits : old.head.isExpression = true → tree.Suits old new) :
    Answers respond base tree old.id (tree.RewrittenBy rewriting old.term) := by
  obtain ⟨final, hcommit, hholds, hages⟩ := h.commit_replace hbase hold hne hregion hchild
  have hlaid : old.Laid base := hbase.laid.of_mem hold
  have hbelow : region ⊆ old.ids := fun _ hid => old.slots_subset_ids (hregion hid)
  have hwithin : old.Within base.size new := h.within (List.mem_singleton_self _) hlaid hbelow
  refine .inr ⟨_, drafted, final, _, by simp, hrun, hcommit,
    ⟨hholds, hages, Tree.beside_put hbase.nodup hold,
      Tree.confined_at hbase.nodup hold hne (by rintro _ ⟨⟩; exact hwithin), Tree.id_put ..,
      [], by simp, h.commit_keepsOthers hbase hold hne hregion
        (.inr ⟨child, rfl, by simpa using hchild⟩) hcommit⟩,
    some new.term, hrel, ?_⟩
  refine @Tree.swap_put _ _ (some new) hbase.nodup hold hne (by intro hnone; cases hnone) ?_
  rintro hexpr _ ⟨⟩
  exact hsuits hexpr

/-- A node can be removed if the position of its slot allows it. -/
theorem canRemove_eq_canDrop {before after : List Tree} {holder : Tree}
    (hbase : base.Holds tree) (hholder : holder ∈ tree.subtrees)
    (hslots : holder.subs = before ++ old :: after) :
    base.canRemove old.id = holder.head.canDrop before.length := by
  obtain ⟨hlink, hsplit, hnodup⟩ := hbase.slots hholder hslots
  have hdrop := Kind.isSome_dropChild? hsplit (hsplit ▸ hnodup)
  rw [List.length_map, (Tree.Legible.of_holds hbase hholder).kind_head] at hdrop
  rw [Store.canRemove, hlink]
  exact hdrop

theorem slotStrength?_eq_demand? {before after : List Tree} {holder : Tree}
    (hbase : base.Holds tree) (hholder : holder ∈ tree.subtrees)
    (hslots : holder.subs = before ++ old :: after) :
    base.slotStrength? old.id = holder.head.demand? before.length := by
  obtain ⟨hlink, hsplit, hnodup⟩ := hbase.slots hholder hslots
  rw [Store.slotStrength?, hlink, ← (Tree.Legible.of_holds hbase hholder).kind_head,
    ← List.length_map Tree.id]
  exact Kind.slotStrength?_eq_demand? hsplit hnodup

/-- A draft leaves the node that holds a slot of the tree as it is. -/
theorem exists_slot_holder {trees : List Tree} (h : Draft base region store trees)
    (hbase : base.Holds tree) (hold : old ∈ tree.subtrees) (hne : old ≠ tree) :
    ∃ holder, base.parent old.id = some holder ∧ store.parent old.id = some holder ∧
      store.kind holder = base.kind holder := by
  obtain ⟨holder, hholder, hslot⟩ := Tree.exists_holder hold hne
  have hlink : base.parent old.id = some holder.id := (hbase.held.of_slot hholder hslot).link
  have hsame : ∀ below, below ∈ tree.subtrees → store.node below.id = base.node below.id :=
    fun below hbelow => h.old _ ((Tree.Legible.of_holds hbase hbelow).lt)
  refine ⟨holder.id, hlink, ?_, by rw [Store.kind, Store.kind, hsame holder hholder]⟩
  rw [Store.parent, hsame old hold]
  exact hlink

theorem canRemove_eq {trees : List Tree} (h : Draft base region store trees)
    (hbase : base.Holds tree) (hold : old ∈ tree.subtrees) (hne : old ≠ tree) :
    store.canRemove old.id = base.canRemove old.id := by
  obtain ⟨holder, hlink, hlink', hkind⟩ := h.exists_slot_holder hbase hold hne
  rw [Store.canRemove, Store.canRemove, hlink, hlink']
  simp only [hkind]

theorem slotStrength?_eq {trees : List Tree} (h : Draft base region store trees)
    (hbase : base.Holds tree) (hold : old ∈ tree.subtrees) (hne : old ≠ tree) :
    store.slotStrength? old.id = base.slotStrength? old.id := by
  obtain ⟨holder, hlink, hlink', hkind⟩ := h.exists_slot_holder hbase hold hne
  rw [Store.slotStrength?, Store.slotStrength?, hlink, hlink']
  simp only [Option.bind_some, hkind]

/-- An expression with the parentheses that the slot of a node needs suits that slot. -/
theorem suits_fit {trees : List Tree} {term : Term} (h : Draft base region store trees)
    (hbase : base.Holds tree) (hold : old ∈ tree.subtrees) (hne : old ≠ tree)
    (hterm : new.term = term.fit (store.slotStrength? old.id)) : tree.Suits old new := by
  intro holder before after hholder hslots
  rw [h.slotStrength?_eq hbase hold hne, slotStrength?_eq_demand? hbase hholder hslots] at hterm
  rw [← new.head_term, hterm]
  exact Term.suits_fit term

/-- A statement disappears from its slot, or an empty block is drafted for it. -/
theorem run_dropStatement {trees : List Tree} (h : Draft base region drafted trees)
    (id : NodeId) :
    (drafted.canRemove id = true ∧
      Build.dropStatement id drafted = .ok (⟨id, .remove⟩, drafted)) ∨
    (drafted.canRemove id = false ∧ ∃ later,
      Build.dropStatement id drafted = .ok (⟨id, .replace (.fresh drafted.size)⟩, later) ∧
      Draft base region later (.node drafted.size .block none [] :: trees)) := by
  unfold Build.dropStatement
  rw [Build.bind_ok (Build.run_get drafted)]
  cases hcan : drafted.canRemove id with
  | true => exact .inl ⟨rfl, rfl⟩
  | false =>
      obtain ⟨later, hempty, -, -, hdraft⟩ :=
        @Draft.create _ _ _ _ [] h (.block []) none none rfl rfl
      exact .inr ⟨rfl, later, (Build.bind_ok hempty).trans rfl, hdraft⟩

/-- An answer that makes the node disappear: its slot is left empty, or an empty block
stands in it. -/
theorem answers_drop (h : Draft base region drafted []) (hbase : base.Holds tree)
    (hold : old ∈ tree.subtrees) (hne : old ≠ tree)
    (hrun : respond base =
      (Build.dropStatement old.id >>= fun edit => pure (.edit [edit])) drafted)
    (hrel : ∀ fresh, Vanished fresh → rewriting old.term fresh) :
    Answers respond base tree old.id (tree.RewrittenBy rewriting old.term) := by
  have hempty : Draft base [] drafted [] := { h with origin := by simp }
  rcases hempty.run_dropStatement old.id with ⟨hremove, hdrop⟩ | ⟨-, later, hdrop, hdraft⟩
  · rw [Build.bind_ok hdrop] at hrun
    rw [h.canRemove_eq hbase hold hne] at hremove
    obtain ⟨final, hcommit, hholds, hages⟩ := h.commit_remove hbase hold hne hremove
    refine .inr ⟨_, drafted, final, _, by simp, hrun, hcommit,
      ⟨hholds, hages, Tree.beside_put hbase.nodup hold,
        Tree.confined_at hbase.nodup hold hne (by simp), Tree.id_put .., [], by simp,
        hempty.commit_keepsOthers hbase hold hne (List.nil_subset _) (.inl rfl) hcommit⟩, none,
      hrel none .slot, ?_⟩
    refine @Tree.swap_put _ _ none hbase.nodup hold hne ?_ (by simp)
    intro _ holder before after hholder hslots
    rw [← canRemove_eq_canDrop hbase hholder hslots]
    exact hremove
  · rw [Build.bind_ok hdrop] at hrun
    refine hdraft.answers_replace hbase hold hne (List.nil_subset _) rfl hrun ?_
      (fun _ => Tree.suits_of_primary rfl)
    rw [Tree.term_node]
    exact hrel _ .block

end Draft

end CodeTidy
