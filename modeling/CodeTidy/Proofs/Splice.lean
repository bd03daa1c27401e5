import CodeTidy.Proofs.Confinement
import CodeTidy.Proofs.Replacement

/-!
# Several splices

A commit of several edits gives slots of the live tree to new trees, or drops them, one after
the other.  This module follows the slots: `Course` describes a moment between two splices,
down to the old subtrees that are still to go.  It says nothing about which nodes are erased,
so it holds in whatever order the splices are made (`Course.run`).
-/

namespace CodeTidy

/-! ## Slots of a kind -/

namespace Kind

/-- Replacing one child does not change which of the others can be dropped. -/
theorem isSome_dropChild?_of_replaceChild? {kind changed : Kind} {old fresh child : NodeId}
    (h : kind.replaceChild? old fresh = some changed) (hnodup : kind.children.Nodup)
    (hfresh : fresh ∉ kind.children) (hchild : child ∈ kind.children) (hne : child ≠ old) :
    (changed.dropChild? child).isSome = (kind.dropChild? child).isSome := by
  have hslots : changed.children = kind.children.flatMap (Tree.putId old [fresh]) := by
    rw [children_of_replaceChild? h, Tree.replace_eq_flatMap hnodup]
  have hchanged : changed.children.Nodup := by
    rw [hslots, ← List.append_nil (List.flatMap _ _)]
    refine Tree.nodup_flatMap_putId ?_
    rw [List.append_nil, List.nodup_append']
    exact ⟨hnodup, List.nodup_singleton _, by simpa using hfresh⟩
  exact isSome_dropChild?_of_slots (head_of_replaceChild? h) hslots hnodup hchanged hchild hne

/-- Dropping one child does not change which of the others can be dropped. -/
theorem isSome_dropChild?_of_dropChild? {kind changed : Kind} {old child : NodeId}
    (h : kind.dropChild? old = some changed) (hne : child ≠ old) :
    (changed.dropChild? child).isSome = (kind.dropChild? child).isSome := by
  cases kind <;> simp only [dropChild?] at h <;> (try cases h) <;> split at h <;> cases h
  all_goals simp_all [dropChild?, apply_ite Option.isSome, Ne.symm hne]

end Kind

/-! ## Slots down to some nodes -/

namespace Tree

variable {store later : Store} {tree : Tree} {stops : List NodeId}

/-- The slots of the store spell out the tree down to the nodes of `stops`. -/
inductive LaidTo (store : Store) (stops : List NodeId) : Tree → Prop where
  | stop {tree : Tree} (isStop : tree.id ∈ stops) (lt : tree.id < store.size) :
      LaidTo store stops tree
  | node {id : NodeId} {head : Head} {type : Option TypeDesc} {subs : List Tree}
      (goesOn : id ∉ stops) (shows : store.Shows id head type (subs.map Tree.id))
      (slots : ∀ sub, sub ∈ subs → LaidTo store stops sub) :
      LaidTo store stops (.node id head type subs)

theorem Laid.to_stops (h : tree.Laid store) (stops : List NodeId) : tree.LaidTo store stops := by
  induction h with
  | @node id head type subs shows slots ih =>
      by_cases hstop : id ∈ stops
      · exact .stop hstop shows.lt
      · exact .node hstop shows ih

/-- What stands in a slot of a node of the tree is in the tree. -/
theorem Laid.children_subset (h : tree.Laid store) {id : NodeId} (hid : id ∈ tree.ids) :
    store.children id ⊆ tree.ids := by
  obtain ⟨below, hbelow, rfl⟩ := mem_ids_iff.mp hid
  intro child hchild
  cases below with
  | node i head type subs =>
      rw [id_node, (h.of_mem hbelow).shown_by.children] at hchild
      obtain ⟨sub, hsub, rfl⟩ := List.mem_map.mp hchild
      exact mem_ids_iff.mpr ⟨sub, slot_mem_subtrees hbelow hsub, rfl⟩

theorem LaidTo.laid (h : tree.LaidTo store []) : tree.Laid store := by
  induction h with
  | stop isStop lt => cases isStop
  | node goesOn shows slots ih => exact .node shows ih

/-- A shown node other than the root stands in a slot of a shown node. -/
theorem LaidTo.slot_of_mem_shown (h : tree.LaidTo store stops) {id : NodeId}
    (hid : id ∈ tree.shown stops) (hne : id ≠ tree.id) :
    ∃ holder ∈ tree.shown stops, holder ∉ stops ∧ id ∈ store.children holder := by
  induction h with
  | @stop tree isStop lt =>
      cases tree with
      | node i head type subs =>
          have hstop : i ∈ stops := isStop
          rw [shown_node, if_pos hstop, List.mem_singleton] at hid
          exact absurd hid hne
  | @node i head type subs goesOn shows slots ih =>
      rw [shown_node, if_neg goesOn] at hid ⊢
      rcases List.mem_cons.mp hid with rfl | hbelow
      · exact absurd rfl hne
      · obtain ⟨sub, hsub, hin⟩ := List.mem_flatMap.mp hbelow
        by_cases hroot : id = sub.id
        · refine ⟨i, List.mem_cons_self .., goesOn, ?_⟩
          rw [shows.children, hroot]
          exact List.mem_map_of_mem hsub
        · obtain ⟨holder, hholder, hgoes, hslot⟩ := ih sub hsub hin hroot
          exact ⟨holder, List.mem_cons_of_mem _ (List.mem_flatMap.mpr ⟨sub, hsub, hholder⟩),
            hgoes, hslot⟩

theorem LaidTo.children_sublist (h : tree.LaidTo store stops) {id : NodeId}
    (hid : id ∈ tree.shown stops) (hgoes : id ∉ stops) :
    (store.children id).Sublist (tree.shown stops) := by
  induction h with
  | @stop tree isStop lt =>
      cases tree with
      | node i head type subs =>
          have hstop : i ∈ stops := isStop
          rw [shown_node, if_pos hstop, List.mem_singleton] at hid
          exact absurd (hid ▸ hstop) hgoes
  | @node i head type subs goesOn shows slots ih =>
      rw [shown_node, if_neg goesOn] at hid ⊢
      refine List.Sublist.cons _ ?_
      rcases List.mem_cons.mp hid with rfl | hbelow
      · rw [shows.children]
        exact map_id_sublist_shown stops subs
      · obtain ⟨sub, hsub, hin⟩ := List.mem_flatMap.mp hbelow
        refine (ih sub hsub hin).trans ?_
        rw [List.flatMap_def]
        exact List.sublist_flatten_of_mem (List.mem_map_of_mem hsub)

theorem LaidTo.lt_of_mem (h : tree.LaidTo store stops) {id : NodeId}
    (hid : id ∈ tree.shown stops) : id < store.size := by
  induction h with
  | @stop tree isStop lt =>
      cases tree with
      | node i head type subs =>
          have hstop : i ∈ stops := isStop
          rw [shown_node, if_pos hstop, List.mem_singleton] at hid
          exact hid ▸ lt
  | @node i head type subs goesOn shows slots ih =>
      rw [shown_node, if_neg goesOn] at hid
      rcases List.mem_cons.mp hid with rfl | hbelow
      · exact shows.lt
      · obtain ⟨sub, hsub, hin⟩ := List.mem_flatMap.mp hbelow
        exact ih sub hsub hin

/-- A tree in which the slot of a target was given to a fresh tree, or dropped. -/
theorem LaidTo.put {target : NodeId} {fresh : Option Tree}
    (h : tree.LaidTo store (target :: stops)) (hroot : tree.id ≠ target)
    (hgrows : store.Grows later)
    (hnode : ∀ x, x ∈ tree.shown (target :: stops) → x ∉ target :: stops →
      (later.kind x).head = (store.kind x).head ∧ (later.node x).type = (store.node x).type ∧
      later.children x = (store.children x).flatMap (putId target (fresh.toList.map Tree.id)))
    (hfresh : ∀ new, new ∈ fresh → new.LaidTo later stops) :
    (tree.put target fresh).LaidTo later stops := by
  induction h with
  | @stop tree isStop lt =>
      refine .stop ?_ ?_
      · rw [id_put]
        exact (List.mem_cons.mp isStop).resolve_left hroot
      · rw [id_put]
        exact Nat.lt_of_lt_of_le lt hgrows.size
  | @node i head type subs goesOn shows slots ih =>
      rw [shown_node, if_neg goesOn] at hnode
      obtain ⟨hhead, htype, hchildren⟩ := hnode i (List.mem_cons_self ..) goesOn
      have hslot : ∀ new, new ∈ subs.flatMap (putSlot target fresh) →
          new.LaidTo later stops := by
        intro new hnew
        obtain ⟨sub, hsub, hin⟩ := List.mem_flatMap.mp hnew
        by_cases hid : sub.id = target
        · rw [putSlot, if_pos hid] at hin
          exact hfresh new (by simpa using hin)
        · rw [putSlot, if_neg hid, List.mem_singleton] at hin
          subst hin
          exact ih sub hsub hid (fun x hx =>
            hnode x (List.mem_cons_of_mem _ (List.mem_flatMap.mpr ⟨sub, hsub, hx⟩)))
      rw [put_node]
      refine .node (fun hmem => goesOn (List.mem_cons_of_mem _ hmem)) ⟨?_, ?_, ?_, ?_⟩ hslot
      · exact Nat.lt_of_lt_of_le shows.lt hgrows.size
      · rw [hhead, shows.head]
      · rw [hchildren, shows.children, map_id_flatMap_putSlot]
      · rw [htype]
        exact hgrows.recorded shows.type

end Tree

/-! ## One splice -/

/-- The slot of `old` in `holder` goes to `new`, or is dropped. -/
structure Splice where
  holder : NodeId
  old : Tree
  new : Option Tree

namespace Splice

def targets (steps : List Splice) : List NodeId :=
  steps.map (fun step => step.old.id)

def news (steps : List Splice) : List Tree :=
  steps.flatMap (fun step => step.new.toList)

def apply (tree : Tree) (step : Splice) : Tree :=
  tree.put step.old.id step.new

theorem targets_cons (step : Splice) (steps : List Splice) :
    targets (step :: steps) = step.old.id :: targets steps := rfl

theorem news_cons (step : Splice) (steps : List Splice) :
    news (step :: steps) = step.new.toList ++ news steps := rfl

theorem target_mem {step : Splice} {steps : List Splice} (h : step ∈ steps) :
    step.old.id ∈ targets steps :=
  List.mem_map_of_mem h

theorem mem_news {step : Splice} {steps : List Splice} {new : Tree} (h : step ∈ steps)
    (hnew : new ∈ step.new) : new ∈ news steps :=
  List.mem_flatMap.mpr ⟨step, h, by simpa using hnew⟩

end Splice

def Edit.Asks (edit : Edit) (step : Splice) : Prop :=
  edit.target = step.old.id ∧ match step.new with
    | none => edit.change = .remove
    | some new => ∃ child, edit.change = .replace child ∧ child.node = new.id

open Splice

/-- The store `middle` has the new tree in its slot, while the old one is not erased yet. -/
structure Splice.Slotted (step : Splice) (current middle : Store) (kind : Kind) : Prop where
  head : kind.head = (current.kind step.holder).head
  children : kind.children = (current.children step.holder).flatMap
    (Tree.putId step.old.id (step.new.toList.map Tree.id))
  drops : ∀ child, child ∈ current.children step.holder → child ≠ step.old.id →
    (kind.dropChild? child).isSome = ((current.kind step.holder).dropChild? child).isSome
  keeps : current.Keeps middle
  node : ∀ x, middle.node x =
    if x = step.holder then { current.node x with kind := kind }
    else if x ∈ step.new.toList.map Tree.id then
      { current.node x with parent := some step.holder }
    else current.node x
  moves : middle.moves =
    current.moves.filter (fun move => decide (move.node ∉ step.new.toList.map Tree.id))

namespace Splice.Slotted

variable {step : Splice} {current middle : Store} {kind : Kind} {x : NodeId}

theorem kind_of_ne (h : step.Slotted current middle kind) (hx : x ≠ step.holder) :
    middle.kind x = current.kind x := by
  rw [Store.kind, h.node, if_neg hx]
  split <;> rfl

theorem kind_holder (h : step.Slotted current middle kind) : middle.kind step.holder = kind := by
  rw [Store.kind, h.node, if_pos rfl]

theorem node_of_ne (h : step.Slotted current middle kind) (hx : x ≠ step.holder)
    (hnew : x ∉ step.new.toList.map Tree.id) : middle.node x = current.node x := by
  rw [h.node, if_neg hx, if_neg hnew]

theorem parent_of_not_new (h : step.Slotted current middle kind)
    (hnew : x ∉ step.new.toList.map Tree.id) : middle.parent x = current.parent x := by
  rw [Store.parent, h.node, if_neg hnew]
  split <;> rfl

theorem isErased (h : step.Slotted current middle kind) (x : NodeId) :
    middle.isErased x = current.isErased x := by
  rw [Store.isErased, h.node]
  split
  · rfl
  · split <;> rfl

end Splice.Slotted

/-! ## The course of a commit -/

structure Arrangement (start : Store) (steps : List Splice) : Prop where
  laid : ∀ step, step ∈ steps → step.old.Laid start
  /-- No old subtree is part of another, or holds one. -/
  nested : ∀ step, step ∈ steps → ∀ other, other ∈ steps →
    other.old.id ∈ step.old.ids → other.old.id = step.old.id
  holders : ∀ step, step ∈ steps → ∀ other, other ∈ steps →
    step.holder ∉ other.old.ids
  built : ∀ new, new ∈ news steps → new.Laid start
  outside : ∀ step, step ∈ steps → ∀ new, new ∈ news steps → step.holder ∉ new.ids
  /-- A new tree is on the move or stands alone. -/
  placeable : ∀ new, new ∈ news steps → start.isMoving new.id = true ∨
    (start.isMoving new.id = false ∧ start.parent new.id = none ∧
      start.isErased new.id = false ∧ ∀ step, step ∈ steps → new.id ∉ step.old.ids)

/-- A moment between the splices of one commit: `todo` are those still to come. -/
structure Course (start current : Store) (steps : List Splice) (tree : Tree)
    (todo : List Splice) : Prop where
  coming : ∀ step, step ∈ todo → step ∈ steps
  distinct : (targets todo).Nodup
  laid : tree.LaidTo current (targets todo)
  root : tree.id ∉ targets todo
  shown : ∀ step, step ∈ todo → step.old.id ∈ tree.shown (targets todo)
  apart : (tree.shown (targets todo) ++ (news todo).flatMap Tree.ids).Nodup
  /-- Only holders change their kind. -/
  kinds : ∀ x, (∀ step, step ∈ steps → x ≠ step.holder) →
    current.kind x = start.kind x
  link : ∀ step, step ∈ todo → current.parent step.old.id = some step.holder
  slot : ∀ step, step ∈ todo → step.holder ∈ tree.shown (targets todo) ∧
    step.holder ∉ targets todo ∧ step.old.id ∈ current.children step.holder
  sole : ∀ step, step ∈ todo → ∀ x, x ∈ tree.shown (targets todo) →
    x ∉ targets todo → step.old.id ∈ current.children x → x = step.holder
  drop : ∀ step, step ∈ todo → step.new = none →
    ((current.kind step.holder).dropChild? step.old.id).isSome = true
  fresh : ∀ new, new ∈ news todo → start.isMoving new.id = false →
    current.node new.id = start.node new.id
  moves : current.moves =
    start.moves.filter (fun move => decide (move.node ∈ (news todo).map Tree.id))
  keeps : start.Keeps current

namespace Course

variable {start current middle : Store} {steps todo : List Splice} {tree : Tree}
  {step : Splice} {kind : Kind} {edit : Edit} {x : NodeId}

theorem root_ne (h : Course start current steps tree (step :: todo)) : tree.id ≠ step.old.id :=
  fun he => h.root (he ▸ List.mem_cons_self ..)

/-- The trees that are still to be placed have no node that is shown. -/
theorem not_shown (h : Course start current steps tree todo) {new : Tree} (hnew : new ∈ news todo)
    (hx : x ∈ new.ids) : x ∉ tree.shown (targets todo) :=
  fun hshown => (List.nodup_append'.mp h.apart).2.2 hshown
    (List.mem_flatMap.mpr ⟨new, hnew, hx⟩)

theorem new_not_stop (h : Course start current steps tree (step :: todo)) {new : Tree}
    (hnew : new ∈ step.new) (hx : x ∈ new.ids) : x ∉ targets todo := by
  intro hstop
  obtain ⟨other, hother, rfl⟩ := List.mem_map.mp hstop
  exact h.not_shown (mem_news (List.mem_cons_self ..) hnew) hx
    (h.shown other (List.mem_cons_of_mem _ hother))

/-- A node that is moving is still moving if its tree is still to be placed. -/
theorem isMoving_eq (h : Course start current steps tree todo) {new : Tree}
    (hnew : new ∈ news todo) : current.isMoving new.id = start.isMoving new.id := by
  have hin : new.id ∈ (news todo).map Tree.id := List.mem_map_of_mem hnew
  unfold Store.isMoving
  rw [h.moves, Bool.eq_iff_iff, List.any_eq_true, List.any_eq_true]
  constructor
  · intro ⟨move, hmove, hid⟩
    exact ⟨move, (List.mem_filter.mp hmove).1, hid⟩
  · intro ⟨move, hmove, hid⟩
    refine ⟨move, List.mem_filter.mpr ⟨hmove, ?_⟩, hid⟩
    have he : move.node = new.id := by simpa using hid
    rw [he]
    exact decide_eq_true hin

theorem holder_lt (h : Course start current steps tree (step :: todo)) :
    step.holder < current.size :=
  h.laid.lt_of_mem (h.slot step (List.mem_cons_self ..)).1

theorem nodup_children (h : Course start current steps tree (step :: todo)) :
    (current.children step.holder).Nodup := by
  obtain ⟨hshown, hgoes, -⟩ := h.slot step (List.mem_cons_self ..)
  exact (List.nodup_append'.mp h.apart).1.sublist (h.laid.children_sublist hshown hgoes)

theorem old_ne_holder (h : Course start current steps tree (step :: todo))
    (harranged : Arrangement start steps) : step.old.id ≠ step.holder := by
  have hin := h.coming step (List.mem_cons_self ..)
  exact fun he => harranged.holders step hin step hin (he ▸ step.old.id_mem_ids)

/-- A tree that is still to be placed is on the move or stands alone. -/
theorem placeable (h : Course start current steps tree todo) (harranged : Arrangement start steps)
    {new : Tree} (hnew : new ∈ news todo) (hin : new ∈ news steps) :
    current.isMoving new.id = true ∨ (current.claim? new.id = none ∧
      current.parent new.id = none ∧ current.isErased new.id = false) := by
  rw [h.isMoving_eq hnew]
  refine (harranged.placeable new hin).imp_right fun hfree => ?_
  obtain ⟨hstill, hparent, hlive, -⟩ := hfree
  have hnode := h.fresh new hnew hstill
  refine ⟨?_, ?_, ?_⟩
  · rw [← h.isMoving_eq hnew, ← Store.claim?_isSome] at hstill
    simpa using hstill
  · rw [Store.parent, hnode]
    exact hparent
  · rw [Store.isErased, hnode]
    exact hlive

theorem slotted_remove (h : Course start current steps tree (step :: todo))
    (harranged : Arrangement start steps) (hasks : edit.Asks step) (hnew : step.new = none) :
    ∃ middle kind, Build.applyEdit edit current = .ok ((), middle.erase step.old.id) ∧
      step.Slotted current middle kind := by
  have hstep : step ∈ step :: todo := List.mem_cons_self ..
  obtain ⟨htarget, hchange⟩ := hasks
  rw [hnew] at hchange
  obtain ⟨kind, hkind⟩ := Option.isSome_iff_exists.mp (h.drop step hstep hnew)
  obtain ⟨hhead, hchildren, -⟩ := Kind.of_dropChild? hkind h.nodup_children
  refine ⟨current.setKind step.holder kind, kind, ?_, hhead, ?_, ?_,
    Store.keeps_setKind .., ?_, ?_⟩
  · unfold Build.applyEdit
    rw [hchange, htarget]
    exact Build.remove_ok (h.link step hstep) h.holder_lt hkind (h.old_ne_holder harranged)
  · rw [hchildren, hnew]
    exact Tree.erase_eq_flatMap h.nodup_children step.old.id
  · exact fun child _ hother => Kind.isSome_dropChild?_of_dropChild? hkind hother
  · intro x
    rw [Store.node_setKind h.holder_lt, hnew]
    simp
  · rw [hnew]
    simp [Store.setKind, Store.modify]

theorem slotted_replace (h : Course start current steps tree (step :: todo))
    (harranged : Arrangement start steps) (hasks : edit.Asks step) {new : Tree}
    (hnew : step.new = some new) :
    ∃ middle kind, Build.applyEdit edit current = .ok ((), middle.erase step.old.id) ∧
      step.Slotted current middle kind := by
  have hstep : step ∈ step :: todo := List.mem_cons_self ..
  have hin := h.coming step hstep
  obtain ⟨hshown, hgoes, hslot⟩ := h.slot step hstep
  obtain ⟨htarget, hchange⟩ := hasks
  rw [hnew] at hchange
  obtain ⟨child, hreplace, hchild⟩ := hchange
  have hmem : new ∈ news (step :: todo) := mem_news hstep hnew
  have hmemAll : new ∈ news steps := mem_news hin hnew
  have hout : ∀ x, x ∈ tree.shown (targets (step :: todo)) → x ≠ new.id :=
    fun x hx he => h.not_shown hmem (he ▸ new.id_mem_ids) hx
  obtain ⟨kind, hkind⟩ :
      ∃ kind, (current.kind step.holder).replaceChild? step.old.id new.id = some kind := by
    refine Option.ne_none_iff_exists'.mp (fun hnone => ?_)
    exact Kind.replaceChild?_eq_none_iff.mp hnone hslot
  have hneHolder : new.id ≠ step.holder := fun he => hout _ hshown he.symm
  have hneTarget : new.id ≠ step.old.id := fun he => hout _ (h.shown step hstep) he.symm
  have hnewLt : new.id < current.size := by
    rw [h.keeps.size]
    exact (harranged.built new hmemAll).lt new.id_mem_ids
  have hnewOut : new.id ∉ current.children step.holder := fun hchild =>
    hout _ ((h.laid.children_sublist hshown hgoes).subset hchild) rfl
  have hsetLt : new.id < (current.setKind step.holder kind).size := by
    rw [Store.size_setKind]
    exact hnewLt
  refine ⟨(current.setKind step.holder kind).placed new.id step.holder, kind, ?_,
    Kind.head_of_replaceChild? hkind, ?_, ?_,
    (Store.keeps_setKind ..).trans (Store.keeps_placed ..), ?_, ?_⟩
  · unfold Build.applyEdit
    rw [hreplace, htarget]
    show Build.replace step.old.id child.node current = _
    rw [hchild]
    exact Build.replace_ok (h.link step hstep) h.holder_lt hkind hnewLt hneTarget
      (h.placeable harranged hmem hmemAll)
  · rw [Kind.children_of_replaceChild? hkind, hnew]
    exact Tree.replace_eq_flatMap h.nodup_children step.old.id new.id
  · exact fun other hother hdiff =>
      Kind.isSome_dropChild?_of_replaceChild? hkind h.nodup_children hnewOut hother hdiff
  · intro x
    rw [Store.node_placed hsetLt, Store.node_setKind h.holder_lt, hnew]
    by_cases hx : x = new.id
    · subst hx
      simp [hneHolder]
    · simp [hx]
  · rw [hnew]
    show current.moves.filter (fun move => move.node != new.id) = _
    refine List.filter_congr fun move _ => ?_
    simp [bne, beq_eq_decide]

theorem exists_slotted (h : Course start current steps tree (step :: todo))
    (harranged : Arrangement start steps) (hasks : edit.Asks step) :
    ∃ middle kind, Build.applyEdit edit current = .ok ((), middle.erase step.old.id) ∧
      step.Slotted current middle kind := by
  cases hnew : step.new with
  | none => exact h.slotted_remove harranged hasks hnew
  | some new => exact h.slotted_replace harranged hasks hnew

theorem node_erase_of_not_mem (h : Course start current steps tree (step :: todo))
    (harranged : Arrangement start steps) (hslotted : step.Slotted current middle kind)
    (hx : x ∉ step.old.ids) : (middle.erase step.old.id).node x = middle.node x := by
  have hin := h.coming step (List.mem_cons_self ..)
  have hclosed : ∀ y child, ¬ y ∉ step.old.ids → child ∈ middle.children y →
      middle.parent child = some y → ¬ child ∉ step.old.ids := by
    intro y child hy hchild _ hout
    have hmem : y ∈ step.old.ids := not_not.mp hy
    have hother : ∀ other, other ∈ steps → y ≠ other.holder := by
      rintro other hin' rfl
      exact harranged.holders other hin' step hin hmem
    rw [Store.children, hslotted.kind_of_ne (hother step hin), h.kinds y hother] at hchild
    exact hout ((harranged.laid step hin).children_subset hmem hchild)
  exact Store.node_erase hclosed (not_not.mpr step.old.id_mem_ids) hx

theorem kind_erase_of_ne (hslotted : step.Slotted current middle kind) (hx : x ≠ step.holder) :
    (middle.erase step.old.id).kind x = current.kind x :=
  ((Store.fades_erase _).kind x).trans (hslotted.kind_of_ne hx)

theorem kind_erase_holder (hslotted : step.Slotted current middle kind) :
    (middle.erase step.old.id).kind step.holder = kind :=
  ((Store.fades_erase _).kind _).trans hslotted.kind_holder

theorem keeps_erase (hslotted : step.Slotted current middle kind) :
    current.Keeps (middle.erase step.old.id) :=
  hslotted.keeps.trans (Store.fades_erase _).keeps

theorem laid_new (h : Course start current steps tree (step :: todo))
    (harranged : Arrangement start steps) (hslotted : step.Slotted current middle kind)
    {new : Tree} (hnew : new ∈ step.new) : new.Laid (middle.erase step.old.id) := by
  have hmem := mem_news (h.coming step (List.mem_cons_self ..)) hnew
  have hkeeps := h.keeps.trans (keeps_erase hslotted)
  refine (harranged.built new hmem).mono hkeeps.grows fun x hx => ⟨?_, hkeeps.type x⟩
  have hother : ∀ other, other ∈ steps → x ≠ other.holder := by
    rintro other hin rfl
    exact harranged.outside other hin new hmem hx
  rw [kind_erase_of_ne hslotted (hother step (h.coming step (List.mem_cons_self ..))),
    h.kinds x hother]

theorem children_erase (h : Course start current steps tree (step :: todo))
    (hslotted : step.Slotted current middle kind)
    (hx : x ∈ tree.shown (targets (step :: todo))) (hgoes : x ∉ targets (step :: todo)) :
    (middle.erase step.old.id).children x = (current.children x).flatMap
      (Tree.putId step.old.id (step.new.toList.map Tree.id)) := by
  by_cases he : x = step.holder
  · subst he
    rw [Store.children, kind_erase_holder hslotted]
    exact hslotted.children
  · rw [Store.children, kind_erase_of_ne hslotted he]
    refine (Tree.flatMap_putId_of_not_mem fun hslot => ?_).symm
    exact he (h.sole step (List.mem_cons_self ..) x hx hgoes hslot)

/-- What is shown after the splice was shown before, or is new. -/
theorem mem_shown_cases (h : Course start current steps tree (step :: todo))
    (hx : x ∈ (step.apply tree).shown (targets todo)) :
    (x ∈ tree.shown (targets (step :: todo)) ∧ x ≠ step.old.id) ∨
      ∃ new ∈ step.new, x ∈ new.ids := by
  rw [Splice.apply, Tree.shown_put h.root_ne (fun new hnew id hid => h.new_not_stop hnew hid),
    List.mem_flatMap] at hx
  obtain ⟨y, hy, hin⟩ := hx
  unfold Tree.putId at hin
  split at hin
  · obtain ⟨new, hnew, hid⟩ := List.mem_flatMap.mp hin
    exact .inr ⟨new, by simpa using hnew, hid⟩
  · next hne =>
    obtain rfl := List.mem_singleton.mp hin
    exact .inl ⟨hy, hne⟩

theorem mem_shown_apply (h : Course start current steps tree (step :: todo))
    (hx : x ∈ tree.shown (targets (step :: todo))) (hne : x ≠ step.old.id) :
    x ∈ (step.apply tree).shown (targets todo) :=
  Tree.mem_shown_put h.root_ne (fun _ hnew _ hid => h.new_not_stop hnew hid) hx hne

theorem mem_shown_new (h : Course start current steps tree (step :: todo)) {new : Tree}
    (hnew : new ∈ step.new) (hx : x ∈ new.ids) : x ∈ (step.apply tree).shown (targets todo) := by
  rw [Splice.apply, Tree.shown_put h.root_ne (fun new hnew id hid => h.new_not_stop hnew hid),
    List.mem_flatMap]
  refine ⟨step.old.id, h.shown step (List.mem_cons_self ..), ?_⟩
  rw [Tree.putId, if_pos rfl]
  exact List.mem_flatMap.mpr ⟨new, by simpa using hnew, hx⟩

theorem ne_target (h : Course start current steps tree (step :: todo)) {other : Splice}
    (hother : other ∈ todo) : other.old.id ≠ step.old.id := by
  intro he
  have hdistinct := h.distinct
  rw [targets_cons, List.nodup_cons] at hdistinct
  exact hdistinct.1 (he ▸ target_mem hother)

theorem not_new_of_shown (h : Course start current steps tree (step :: todo))
    (hx : x ∈ tree.shown (targets (step :: todo))) : x ∉ step.new.toList.map Tree.id := by
  intro hmem
  obtain ⟨new, hnew, rfl⟩ := List.mem_map.mp hmem
  exact h.not_shown (mem_news (List.mem_cons_self ..) (by simpa using hnew)) new.id_mem_ids hx

/-- The trees of later splices have no node in common with this one. -/
theorem not_new_of_later (h : Course start current steps tree (step :: todo)) {new : Tree}
    (hnew : new ∈ news todo) (hx : x ∈ new.ids) :
    x ∉ step.new.toList.flatMap Tree.ids := by
  have hnodup := (List.nodup_append'.mp h.apart).2.1
  rw [news_cons, List.flatMap_append, List.nodup_append'] at hnodup
  exact fun hin => hnodup.2.2 hin (List.mem_flatMap.mpr ⟨new, hnew, hx⟩)

theorem moves_erase (h : Course start current steps tree (step :: todo))
    (hslotted : step.Slotted current middle kind) : (middle.erase step.old.id).moves =
      start.moves.filter (fun move => decide (move.node ∈ (news todo).map Tree.id)) := by
  rw [(Store.fades_erase _).moves, hslotted.moves, h.moves, List.filter_filter]
  refine List.filter_congr fun move _ => ?_
  rw [Bool.eq_iff_iff, Bool.and_eq_true, decide_eq_true_iff, decide_eq_true_iff,
    decide_eq_true_iff, news_cons, List.map_append, List.mem_append]
  constructor
  · exact fun ⟨hout, hin⟩ => hin.resolve_left hout
  · intro hin
    obtain ⟨new, hnew, hid⟩ := List.mem_map.mp hin
    exact ⟨fun hroot => h.not_new_of_later hnew (hid ▸ new.id_mem_ids) (Tree.map_id_subset _ hroot),
      .inr hin⟩

theorem coming_tail (h : Course start current steps tree (step :: todo)) {other : Splice}
    (hother : other ∈ todo) : other ∈ steps :=
  h.coming other (List.mem_cons_of_mem _ hother)

theorem news_subset (h : Course start current steps tree todo) : news todo ⊆ news steps := by
  intro new hnew
  obtain ⟨other, hother, hmem⟩ := List.mem_flatMap.mp hnew
  exact mem_news (h.coming other hother) (by simpa using hmem)

theorem laid_next (h : Course start current steps tree (step :: todo))
    (harranged : Arrangement start steps) (hslotted : step.Slotted current middle kind) :
    (step.apply tree).LaidTo (middle.erase step.old.id) (targets todo) := by
  refine h.laid.put h.root_ne (keeps_erase hslotted).grows ?_
    (fun new hnew => (h.laid_new harranged hslotted hnew).to_stops _)
  intro x hx hgoes
  refine ⟨?_, (keeps_erase hslotted).type x, h.children_erase hslotted hx hgoes⟩
  by_cases he : x = step.holder
  · rw [he, kind_erase_holder hslotted, hslotted.head]
  · rw [kind_erase_of_ne hslotted he]

theorem apart_next (h : Course start current steps tree (step :: todo)) :
    ((step.apply tree).shown (targets todo) ++ (news todo).flatMap Tree.ids).Nodup := by
  have hapart := h.apart
  rw [news_cons, List.flatMap_append, ← List.append_assoc] at hapart
  rw [Splice.apply, Tree.shown_put h.root_ne (fun new hnew id hid => h.new_not_stop hnew hid)]
  exact Tree.nodup_flatMap_putId hapart

/-- The other targets stand outside the old subtree, so they keep their links. -/
theorem link_next (h : Course start current steps tree (step :: todo))
    (harranged : Arrangement start steps) (hslotted : step.Slotted current middle kind)
    {other : Splice} (hother : other ∈ todo) :
    (middle.erase step.old.id).parent other.old.id = some other.holder := by
  have hout : other.old.id ∉ step.old.ids := fun hmem => h.ne_target hother
    (harranged.nested step (h.coming step (List.mem_cons_self ..)) other (h.coming_tail hother)
      hmem)
  have hshown := h.shown other (List.mem_cons_of_mem _ hother)
  rw [Store.parent, h.node_erase_of_not_mem harranged hslotted hout]
  exact (hslotted.parent_of_not_new (h.not_new_of_shown hshown)).trans
    (h.link other (List.mem_cons_of_mem _ hother))

theorem slot_next (h : Course start current steps tree (step :: todo))
    (hslotted : step.Slotted current middle kind) {other : Splice} (hother : other ∈ todo) :
    other.holder ∈ (step.apply tree).shown (targets todo) ∧ other.holder ∉ targets todo ∧
      other.old.id ∈ (middle.erase step.old.id).children other.holder := by
  obtain ⟨hshown, hgoes, hslot⟩ := h.slot other (List.mem_cons_of_mem _ hother)
  have hne : other.holder ≠ step.old.id := fun he => hgoes (he ▸ List.mem_cons_self ..)
  refine ⟨h.mem_shown_apply hshown hne, fun hmem => hgoes (List.mem_cons_of_mem _ hmem), ?_⟩
  rw [h.children_erase hslotted hshown hgoes, List.mem_flatMap]
  refine ⟨_, hslot, ?_⟩
  rw [Tree.putId, if_neg (h.ne_target hother)]
  exact List.mem_singleton_self _

theorem sole_next (h : Course start current steps tree (step :: todo))
    (harranged : Arrangement start steps) (hslotted : step.Slotted current middle kind)
    {other : Splice} (hother : other ∈ todo)
    (hx : x ∈ (step.apply tree).shown (targets todo)) (hgoes : x ∉ targets todo)
    (hslot : other.old.id ∈ (middle.erase step.old.id).children x) : x = other.holder := by
  have hotherShown := h.shown other (List.mem_cons_of_mem _ hother)
  rcases h.mem_shown_cases hx with ⟨hshown, hne⟩ | ⟨new, hnew, hid⟩
  · have hgoes' : x ∉ targets (step :: todo) := by
      rw [targets_cons, List.mem_cons, not_or]
      exact ⟨hne, hgoes⟩
    rw [h.children_erase hslotted hshown hgoes', List.mem_flatMap] at hslot
    obtain ⟨y, hy, hput⟩ := hslot
    unfold Tree.putId at hput
    split at hput
    · exact absurd hput (h.not_new_of_shown hotherShown)
    · obtain rfl := List.mem_singleton.mp hput
      exact h.sole other (List.mem_cons_of_mem _ hother) x hshown hgoes' hy
  · have hbelow := (h.laid_new harranged hslotted hnew).children_subset hid hslot
    exact absurd (target_mem hother) (h.new_not_stop hnew hbelow)

theorem drop_next (h : Course start current steps tree (step :: todo))
    (hslotted : step.Slotted current middle kind) {other : Splice} (hother : other ∈ todo)
    (hnone : other.new = none) :
    (((middle.erase step.old.id).kind other.holder).dropChild? other.old.id).isSome = true := by
  have hdrop := h.drop other (List.mem_cons_of_mem _ hother) hnone
  by_cases he : other.holder = step.holder
  · have hslot := (h.slot other (List.mem_cons_of_mem _ hother)).2.2
    rw [he] at hslot hdrop ⊢
    rw [kind_erase_holder hslotted, hslotted.drops _ hslot (h.ne_target hother)]
    exact hdrop
  · rw [kind_erase_of_ne hslotted he]
    exact hdrop

theorem fresh_next (h : Course start current steps tree (step :: todo))
    (harranged : Arrangement start steps) (hslotted : step.Slotted current middle kind)
    {new : Tree} (hnew : new ∈ news todo) (hstill : start.isMoving new.id = false) :
    (middle.erase step.old.id).node new.id = start.node new.id := by
  have hin := h.coming step (List.mem_cons_self ..)
  have hall : new ∈ news (step :: todo) := List.mem_append_right _ hnew
  have hmem := h.news_subset hall
  have hout : new.id ∉ step.old.ids := by
    rcases harranged.placeable new hmem with hmoving | ⟨-, -, -, hout⟩
    · rw [hstill] at hmoving
      cases hmoving
    · exact hout step hin
  have hne : new.id ≠ step.holder := fun he =>
    harranged.outside step hin new hmem (he ▸ new.id_mem_ids)
  rw [h.node_erase_of_not_mem harranged hslotted hout, hslotted.node_of_ne hne
    (fun hroot => h.not_new_of_later hnew new.id_mem_ids (Tree.map_id_subset _ hroot))]
  exact h.fresh new hall hstill

/-- A step of the commit carries the course on. -/
theorem next (h : Course start current steps tree (step :: todo))
    (harranged : Arrangement start steps) (hslotted : step.Slotted current middle kind) :
    Course start (middle.erase step.old.id) steps (step.apply tree) todo where
  coming _ hother := h.coming_tail hother
  distinct := (List.nodup_cons.mp h.distinct).2
  laid := h.laid_next harranged hslotted
  root := by
    rw [Splice.apply, Tree.id_put]
    exact fun hmem => h.root (List.mem_cons_of_mem _ hmem)
  shown other hother :=
    h.mem_shown_apply (h.shown other (List.mem_cons_of_mem _ hother)) (h.ne_target hother)
  apart := h.apart_next
  kinds x hx := (kind_erase_of_ne hslotted (hx step (h.coming step (List.mem_cons_self ..)))).trans
    (h.kinds x hx)
  link _ hother := h.link_next harranged hslotted hother
  slot _ hother := h.slot_next hslotted hother
  sole _ hother _ hx hgoes := h.sole_next harranged hslotted hother hx hgoes
  drop _ hother hnone := h.drop_next hslotted hother hnone
  fresh _ hnew hstill := h.fresh_next harranged hslotted hnew hstill
  moves := h.moves_erase hslotted
  keeps := h.keeps.trans (keeps_erase hslotted)

/-- The edits run through in the order of the splices. -/
theorem run {edits : List Edit} (h : Course start current steps tree todo)
    (harranged : Arrangement start steps) (hasks : List.Forall₂ Edit.Asks edits todo) :
    ∃ final, edits.forM Build.applyEdit current = .ok ((), final) ∧ current.Keeps final ∧
      Course start final steps (todo.foldl Splice.apply tree) [] := by
  induction hasks generalizing current tree with
  | nil => exact ⟨current, rfl, .refl _, h⟩
  | @cons edit step edits todo hask _ ih =>
      obtain ⟨middle, kind, hrun, hslotted⟩ := h.exists_slotted harranged hask
      obtain ⟨final, hruns, hkeeps, hfinal⟩ := ih (h.next harranged hslotted)
      exact ⟨final, (Draft.run_applyEdit edit edits hrun).trans hruns,
        (keeps_erase hslotted).trans hkeeps, hfinal⟩

/-- The nodes of the tree in the end: what was shown beside the targets, and the new trees. -/
theorem mem_ids_foldl (h : Course start current steps tree todo)
    (harranged : Arrangement start steps) {edits : List Edit}
    (hasks : List.Forall₂ Edit.Asks edits todo) :
    x ∈ (todo.foldl Splice.apply tree).ids ↔
      (x ∈ tree.shown (targets todo) ∧ x ∉ targets todo) ∨ ∃ new ∈ news todo, x ∈ new.ids := by
  induction hasks generalizing current tree with
  | nil =>
      rw [List.foldl_nil, ← Tree.shown_nil]
      simp [targets, news]
  | @cons edit step edits todo hask _ ih =>
      obtain ⟨middle, kind, -, hslotted⟩ := h.exists_slotted harranged hask
      rw [List.foldl_cons, ih (h.next harranged hslotted), targets_cons, List.mem_cons, not_or]
      constructor
      · rintro (⟨hshown, hgoes⟩ | ⟨new, hnew, hid⟩)
        · rcases h.mem_shown_cases hshown with ⟨hbefore, hne⟩ | ⟨new, hnew, hid⟩
          · exact .inl ⟨hbefore, hne, hgoes⟩
          · exact .inr ⟨new, mem_news (List.mem_cons_self ..) hnew, hid⟩
        · exact .inr ⟨new, List.mem_append_right _ hnew, hid⟩
      · rintro (⟨hshown, hne, hgoes⟩ | ⟨new, hnew, hid⟩)
        · exact .inl ⟨h.mem_shown_apply hshown hne, hgoes⟩
        · rcases List.mem_append.mp hnew with hself | hlater
          · have hmem : new ∈ step.new := by simpa using hself
            exact .inl ⟨h.mem_shown_new hmem hid, h.new_not_stop hmem hid⟩
          · exact .inr ⟨new, hlater, hid⟩

end Course

end CodeTidy
