import CodeTidy.Proofs.Survival
import Mathlib.Data.List.Pairwise

/-!
# The order of independent edits

Edits that concern different parts of the tree can be committed in any order: the commit runs
through and the slots below the root come out the same (`Build.commit_any_order`).  Whether all
that was taken survives does depend on the order.  A subtree that is put into a slot as it is,
without a new node around it, is linked to its former parent until its own edit is carried out,
and erasing that parent first erases the subtree with it (`Build.commit_order_matters`).  The
orders in which this does not happen are those that leave a tree that passes the check.
-/

namespace CodeTidy

open Splice

/-! ## The splices of independent edits -/

theorem Splice.id_foldl_apply (steps : List Splice) (tree : Tree) :
    (steps.foldl Splice.apply tree).id = tree.id := by
  induction steps generalizing tree with
  | nil => rfl
  | cons step steps ih =>
      rw [List.foldl_cons, ih, Splice.apply, Tree.id_put]

def Splice.StandsIn (step : Splice) (tree : Tree) : Prop :=
  ∃ holder ∈ tree.subtrees, holder.id = step.holder ∧ step.old ∈ holder.subs

namespace Splice.StandsIn

variable {base : Store} {tree : Tree} {step : Splice} {owner : Option NodeId}

theorem mem (h : step.StandsIn tree) : step.old ∈ tree.subtrees := by
  obtain ⟨holder, hholder, -, hslot⟩ := h
  exact Tree.slot_mem_subtrees hholder hslot

theorem held (h : step.StandsIn tree) (hheld : tree.Held base owner) :
    step.old.Held base (some step.holder) := by
  obtain ⟨holder, hholder, hid, hslot⟩ := h
  exact hid ▸ hheld.of_slot hholder hslot

theorem rooted (h : step.StandsIn tree) (hheld : tree.Held base owner) (hnodup : tree.ids.Nodup) :
    step.old.Rooted base :=
  ⟨⟨_, h.held hheld⟩, Tree.nodup_ids_of_mem hnodup h.mem⟩

end Splice.StandsIn

/-- The moment before several splices are committed: `trees` are the trees that were built or
taken and stand in no slot. -/
structure Committing (base : Store) (tree : Tree) (store : Store) (taken : List NodeId)
    (trees : List Tree) (steps : List Splice) : Prop where
  piece : Workpiece base tree store taken trees
  held : tree.Held base (base.parent tree.id)
  nodup : tree.ids.Nodup
  slot : ∀ step, step ∈ steps → step.StandsIn tree
  apart : steps.Pairwise (fun step other =>
    step.old.id ∉ other.old.ids ∧ other.old.id ∉ step.old.ids)
  loose : ∀ new, new ∈ news steps → new ∈ trees
  once : ((news steps).map Tree.id).Nodup
  removable : ∀ step, step ∈ steps → step.new = none →
    ((base.kind step.holder).dropChild? step.old.id).isSome = true
  below : ∀ id, id ∈ store.moving → ∃ step ∈ steps, id ∈ step.old.subs.flatMap Tree.ids
  placed : ∀ move, move ∈ store.moves → move.claim = none →
    move.node ∈ (news steps).map Tree.id

namespace Committing

variable {base store : Store} {tree new : Tree} {taken : List NodeId} {trees spare : List Tree}
  {steps : List Splice} {step other : Splice} {x : NodeId}

theorem old_mem (h : Committing base tree store taken trees steps) (hstep : step ∈ steps) :
    step.old ∈ tree.subtrees :=
  (h.slot step hstep).mem

theorem link (h : Committing base tree store taken trees steps) (hstep : step ∈ steps) :
    step.old.Held base (some step.holder) :=
  (h.slot step hstep).held h.held

theorem eq_of_nested (h : Committing base tree store taken trees steps) (hstep : step ∈ steps)
    (hother : other ∈ steps) (hin : other.old.id ∈ step.old.ids) : other = step := by
  by_contra hne
  have hsymm : Std.Symm (fun step other : Splice =>
      step.old.id ∉ other.old.ids ∧ other.old.id ∉ step.old.ids) := ⟨fun _ _ hboth => hboth.symm⟩
  exact (h.apart.forall hother hstep hne).1 hin

theorem holder_not_mem (h : Committing base tree store taken trees steps) (hstep : step ∈ steps)
    (hother : other ∈ steps) : step.holder ∉ other.old.ids := by
  intro hin
  obtain ⟨holder, hholder, hid, hslot⟩ := h.slot step hstep
  rw [← hid] at hin
  have hinside : holder ∈ other.old.subtrees :=
    Tree.mem_subtrees_of_id_mem h.nodup (h.old_mem hother) hholder hin
  have hsame : step = other := h.eq_of_nested hother hstep
    (Tree.mem_ids_iff.mpr ⟨_, Tree.slot_mem_subtrees hinside hslot, rfl⟩)
  subst hsame
  exact Tree.ne_of_mem_slot holder.mem_subtrees_self hslot hinside rfl

theorem not_target_of_holder (h : Committing base tree store taken trees steps)
    (hstep : step ∈ steps) : step.holder ∉ targets steps := by
  intro hin
  obtain ⟨other, hother, he⟩ := List.mem_map.mp hin
  exact h.holder_not_mem hstep hother (he ▸ other.old.id_mem_ids)

theorem root_not_mem (h : Committing base tree store taken trees steps) (hstep : step ∈ steps) :
    tree.id ∉ step.old.ids := by
  intro hin
  obtain ⟨holder, hholder, hid, -⟩ := h.slot step hstep
  have hinside : tree ∈ step.old.subtrees :=
    Tree.mem_subtrees_of_id_mem h.nodup (h.old_mem hstep) tree.mem_subtrees_self hin
  refine h.holder_not_mem hstep hstep (Tree.ids_subset_of_mem hinside ?_)
  exact Tree.mem_ids_iff.mpr ⟨holder, hholder, hid⟩

/-- A subtree with the number of a target is the old subtree of a step. -/
theorem exists_step (h : Committing base tree store taken trees steps) {above : Tree}
    (habove : above ∈ tree.subtrees) (hstop : above.id ∈ targets steps) :
    ∃ step ∈ steps, step.old = above := by
  obtain ⟨step, hstep, hid⟩ := List.mem_map.mp hstop
  exact ⟨step, hstep, Tree.eq_of_id_eq h.nodup (h.old_mem hstep) habove hid⟩

theorem target_shown (h : Committing base tree store taken trees steps) (hstep : step ∈ steps) :
    step.old.id ∈ tree.shown (targets steps) := by
  refine Tree.mem_shown (h.old_mem hstep) fun above habove hstop hin => ?_
  obtain ⟨other, hother, rfl⟩ := h.exists_step habove hstop
  rw [h.eq_of_nested hother hstep (Tree.mem_ids_iff.mpr ⟨_, hin, rfl⟩)]

theorem holder_shown (h : Committing base tree store taken trees steps) (hstep : step ∈ steps) :
    step.holder ∈ tree.shown (targets steps) := by
  obtain ⟨holder, hholder, hid, -⟩ := h.slot step hstep
  rw [← hid]
  refine Tree.mem_shown hholder fun above habove hstop hin => ?_
  obtain ⟨other, hother, rfl⟩ := h.exists_step habove hstop
  exact absurd (Tree.mem_ids_iff.mpr ⟨holder, hin, hid⟩) (h.holder_not_mem hstep hother)

theorem taken_hidden (h : Committing base tree store taken trees steps) :
    ∀ id, id ∈ taken → id ∉ tree.shown (targets steps) := by
  intro id hid
  obtain ⟨root, hroot, hin⟩ := h.piece.taken id hid
  obtain ⟨step, hstep, hbelow⟩ := h.below root hroot
  exact Tree.not_mem_shown h.nodup (h.old_mem hstep) (target_mem hstep)
    (Workpiece.preorder_subset ((h.slot step hstep).rooted h.held h.nodup) hbelow hin)

theorem node_shown (h : Committing base tree store taken trees steps)
    (hx : x ∈ tree.shown (targets steps)) : store.settle.node x = base.node x :=
  h.piece.draft.node_settle_shown h.held.laid h.taken_hidden hx

theorem laid_settle (h : Committing base tree store taken trees steps) {old : Tree}
    (hlaid : old.Laid base) : old.Laid store.settle := by
  refine (h.piece.draft.laid_old hlaid).mono (Store.grows_settle store) fun id _ => ?_
  rw [Store.kind, h.piece.draft.node_settle]
  exact ⟨rfl, rfl⟩

theorem apart_shown (h : Committing base tree store taken trees steps) :
    (tree.shown (targets steps) ++ trees.flatMap Tree.ids).Nodup :=
  h.piece.draft.apart_shown h.held.laid (h.nodup.sublist (tree.shown_sublist_ids _))
    h.taken_hidden

theorem not_loose_of_shown (h : Committing base tree store taken trees steps)
    (hx : x ∈ tree.shown (targets steps)) (hnew : new ∈ trees) : x ∉ new.ids :=
  fun hin => (List.nodup_append'.mp h.apart_shown).2.2 hx (List.mem_flatMap.mpr ⟨new, hnew, hin⟩)

theorem unclaimed_of_lt (h : Committing base tree store taken trees steps) (hnew : new ∈ trees)
    (hlt : new.id < base.size) : store.claim? new.id = some none := by
  rcases (h.piece.draft.loose new hnew).2.1 with ⟨hclaim, -⟩ | ⟨hclaim, -⟩
  · exact hclaim
  · exact absurd hlt (Nat.not_lt.mpr ((h.piece.draft.loose new hnew).2.2 hclaim))

theorem new_of_still (h : Committing base tree store taken trees steps) (hnew : new ∈ trees)
    (hstill : store.settle.isMoving new.id = false) : base.size ≤ new.id := by
  by_contra hlt
  have hclaim := h.unclaimed_of_lt hnew (Nat.not_le.mp hlt)
  have hmove : ⟨new.id, none⟩ ∈ store.settle.moves :=
    Draft.mem_moves_settle.mpr ⟨Store.mem_of_claim? hclaim, rfl⟩
  have hmoving : store.settle.isMoving new.id = true :=
    List.any_eq_true.mpr ⟨_, hmove, by simp⟩
  rw [hstill] at hmoving
  cases hmoving

theorem not_old_of_new (h : Committing base tree store taken trees steps) (hstep : step ∈ steps)
    (hx : base.size ≤ x) : x ∉ step.old.ids :=
  fun hin => Nat.not_lt.mpr hx ((h.link hstep).laid.lt hin)

theorem arrangement (h : Committing base tree store taken trees steps) :
    Arrangement store.settle steps where
  laid _ hstep := h.laid_settle (h.link hstep).laid
  nested _ hstep _ hother hin := by rw [h.eq_of_nested hstep hother hin]
  holders _ hstep _ hother := h.holder_not_mem hstep hother
  built new hnew := (h.piece.draft.held new (h.loose new hnew)).laid
  outside _ hstep new hnew := h.not_loose_of_shown (h.holder_shown hstep) (h.loose new hnew)
  placeable new hnew := by
    have hloose := h.loose new hnew
    cases hmoving : store.settle.isMoving new.id with
    | true => exact .inl rfl
    | false =>
        have hparent : store.settle.parent new.id = none :=
          ((h.piece.draft.placeable hloose).resolve_left (by simp [hmoving])).2
        exact .inr ⟨rfl, hparent, h.piece.draft.live_settle hloose,
          fun step hstep => h.not_old_of_new hstep (h.new_of_still hloose hmoving)⟩

/-- The trees that are put into slots, and the rest of the loose trees. -/
theorem exists_spare (h : Committing base tree store taken trees steps) :
    ∃ spare, trees.Perm (news steps ++ spare) := by
  have hsub : (news steps).map Tree.id ⊆ trees.map Tree.id := List.map_subset _ h.loose
  obtain ⟨subs, spare, hids, hperm⟩ := Tree.exists_perm_append h.once hsub
  have hsame : subs = news steps := by
    refine Tree.eq_of_map_id_eq hids fun sub hmem new hnew he => ?_
    exact Tree.eq_of_common_id h.piece.draft.apart
      (hperm.mem_iff.mpr (List.mem_append_left _ hmem)) (h.loose new hnew) sub.id_mem_ids
      (he ▸ new.id_mem_ids)
  exact ⟨spare, hsame ▸ hperm⟩

theorem course (h : Committing base tree store taken trees steps) :
    Course store.settle store.settle steps tree steps where
  coming _ hstep := hstep
  distinct := by
    refine List.pairwise_map.mpr (h.apart.imp fun hapart he => ?_)
    exact hapart.1 (he ▸ Tree.id_mem_ids _)
  laid := (h.laid_settle h.held.laid).to_stops _
  root := by
    intro hin
    obtain ⟨step, hstep, he⟩ := List.mem_map.mp hin
    exact h.root_not_mem hstep (he ▸ step.old.id_mem_ids)
  shown _ hstep := h.target_shown hstep
  apart := by
    obtain ⟨spare, hperm⟩ := h.exists_spare
    have hapart := h.apart_shown
    rw [((hperm.flatMap_right Tree.ids).append_left _).nodup_iff, List.flatMap_append,
      ← List.append_assoc] at hapart
    exact (List.nodup_append'.mp hapart).1
  kinds _ _ := rfl
  link step hstep := by
    rw [Store.parent, h.node_shown (h.target_shown hstep)]
    exact (h.link hstep).link
  slot step hstep := by
    refine ⟨h.holder_shown hstep, h.not_target_of_holder hstep, ?_⟩
    obtain ⟨holder, hholder, hid, hslot⟩ := h.slot step hstep
    have hlaid := h.laid_settle (h.held.laid.of_mem hholder)
    rw [← hid]
    cases holder with
    | node i head type subs =>
        rw [Tree.id_node, hlaid.shown_by.children]
        exact List.mem_map_of_mem hslot
  sole step hstep x hx hgoes hslot := by
    have howner := (h.piece.draft.heldTo_settle h.held h.taken_hidden).parent_of_slot hx hgoes hslot
    rw [Store.parent, h.node_shown (h.target_shown hstep)] at howner
    exact Option.some.inj (howner.symm.trans (h.link hstep).link)
  drop step hstep hnone := by
    rw [Store.kind, h.node_shown (h.holder_shown hstep)]
    exact h.removable step hstep hnone
  fresh _ _ _ := rfl
  moves := by
    refine (List.filter_eq_self.mpr fun move hmove => ?_).symm
    obtain ⟨hmem, hnone⟩ := Draft.mem_moves_settle.mp hmove
    exact decide_eq_true (h.placed move hmem hnone)
  keeps := .refl _

theorem guarded (h : Committing base tree store taken trees steps)
    (hperm : trees.Perm (news steps ++ spare)) : Guarded store.settle tree.id steps spare where
  held new hnew := by
    have hloose := hperm.mem_iff.mpr hnew
    have hheld := h.piece.draft.held new hloose
    rw [← hheld.link] at hheld
    exact ⟨hheld, h.piece.draft.live_settle hloose, h.piece.draft.nodup_ids hloose⟩
  root _ hstep := h.root_not_mem hstep
  holders _ hstep _ hnew := h.not_loose_of_shown (h.holder_shown hstep) (hperm.mem_iff.mpr hnew)
  targets _ hstep _ hnew := h.not_loose_of_shown (h.target_shown hstep) (hperm.mem_iff.mpr hnew)
  spare step hstep new hnew := by
    have hloose := hperm.mem_iff.mpr (List.mem_append_right _ hnew)
    refine h.not_old_of_new hstep (h.new_of_still hloose (Bool.eq_false_iff.mpr fun hmoving => ?_))
    -- a tree on the move is put into a slot, so it is not spare
    obtain ⟨move, hmove, hid⟩ := List.any_eq_true.mp hmoving
    obtain ⟨hmem, hnone⟩ := Draft.mem_moves_settle.mp hmove
    obtain ⟨put, hput, he⟩ := List.mem_map.mp (h.placed move hmem hnone)
    have hdisjoint := (hperm.flatMap_right Tree.ids).nodup_iff.mp h.piece.draft.apart
    rw [List.flatMap_append, List.nodup_append'] at hdisjoint
    refine hdisjoint.2.2 (List.mem_flatMap.mpr ⟨put, hput, put.id_mem_ids⟩)
      (List.mem_flatMap.mpr ⟨new, hnew, ?_⟩)
    rw [he, show move.node = new.id by simpa using hid]
    exact new.id_mem_ids

theorem live_of_loose (h : Committing base tree store taken trees steps) (hnew : new ∈ trees)
    (hx : x ∈ new.ids) : store.settle.isErased x = false := by
  obtain ⟨part, hpart, rfl⟩ := Tree.mem_ids_iff.mp hx
  by_cases hself : part = new
  · rw [hself]
    exact h.piece.draft.live_settle hnew
  · obtain ⟨holder, hholder, hslot⟩ := Tree.exists_holder hpart hself
    obtain ⟨owner, hheld⟩ := (h.piece.draft.held new hnew).of_mem hholder
    exact hheld.live hslot

theorem intact (h : Committing base tree store taken trees steps)
    (hperm : trees.Perm (news steps ++ spare)) :
    Intact store.settle store.settle steps spare tree steps where
  course := h.course
  apart := by
    rw [← ((hperm.flatMap_right Tree.ids).append_left _).nodup_iff]
    exact h.apart_shown
  owned x hx hgoes child hchild := by
    have hshown := (h.course.laid.children_sublist hx hgoes).subset hchild
    rw [Store.children, Store.kind, h.node_shown hx] at hchild
    rw [Store.parent, Store.isErased, h.node_shown hshown]
    exact h.held.owned (Tree.shown_subset_ids _ _ hx) hchild
  waiting _ _ _ _ := rfl
  alive x hx := by
    obtain ⟨new, hnew, hid⟩ := List.mem_flatMap.mp hx
    exact ⟨h.live_of_loose (hperm.mem_iff.mpr hnew) hid, .inr hx⟩

theorem taken_loose (h : Committing base tree store taken trees steps) {part : NodeId}
    (hpart : part ∈ store.moving) (hx : x ∈ base.preorder part) : x ∈ trees.flatMap Tree.ids := by
  obtain ⟨move, hmove, hnode⟩ := List.mem_map.mp hpart
  obtain ⟨new, hnew, hin⟩ := List.mem_flatMap.mp (h.piece.draft.moving move hmove).2.1
  obtain ⟨found, hfound, hid⟩ := Tree.mem_ids_iff.mp hin
  obtain ⟨moved, -, he, -, hlive⟩ := Workpiece.exists_live
    ⟨⟨_, h.held⟩, h.nodup⟩ (h.piece.below part hpart)
  have hsame : moved = found :=
    (h.piece.draft.laid_old hlive.laid).unique ((h.piece.draft.laid hnew).of_mem hfound)
      (by rw [he, hid, hnode])
  rw [← he, hlive.preorder, hsame] at hx
  exact List.mem_flatMap.mpr ⟨new, hnew, Tree.ids_subset_of_mem hfound hx⟩

/-- The splices commute. -/
theorem apply_comm (h : Committing base tree store taken trees steps) (hstep : step ∈ steps)
    (hother : other ∈ steps) (t : Tree) :
    other.apply (step.apply t) = step.apply (other.apply t) := by
  by_cases hsame : step = other
  · rw [hsame]
  · have hne : step.old.id ≠ other.old.id := fun he =>
      hsame (h.eq_of_nested hother hstep (he ▸ other.old.id_mem_ids))
    exact Tree.put_comm hne
      (fun new hnew => h.not_loose_of_shown (h.target_shown hother)
        (h.loose new (mem_news hstep hnew)))
      (fun new hnew => h.not_loose_of_shown (h.target_shown hstep)
        (h.loose new (mem_news hother hnew)))

theorem foldl_perm (h : Committing base tree store taken trees steps) {others : List Splice}
    (hperm : steps.Perm others) :
    others.foldl Splice.apply tree = steps.foldl Splice.apply tree :=
  (hperm.foldl_eq' (fun _ hstep _ hother t => h.apply_comm hstep hother t) tree).symm

/-- The commit runs through, whatever the order. -/
theorem commit_ok (h : Committing base tree store taken trees steps) {edits : List Edit}
    (hasks : List.Forall₂ Edit.Asks edits steps) :
    ∃ later, Build.commit edits store = .ok ((), later) ∧
      (steps.foldl Splice.apply tree).Laid later := by
  obtain ⟨later, hrun, -, hcourse⟩ := h.course.run h.arrangement hasks
  exact ⟨later, Build.commit_ok hrun (by simpa [news] using hcourse.moves), hcourse.laid.laid⟩

theorem target_not_mem (h : Committing base tree store taken trees steps) {edits : List Edit}
    (hasks : List.Forall₂ Edit.Asks edits steps) (hstep : step ∈ steps) :
    step.old.id ∉ (steps.foldl Splice.apply tree).ids := by
  rw [h.course.mem_ids_foldl h.arrangement hasks, not_or]
  refine ⟨fun hshown => hshown.2 (target_mem hstep), fun hin => ?_⟩
  obtain ⟨new, hnew, hid⟩ := hin
  exact h.not_loose_of_shown (h.target_shown hstep) (h.loose new hnew) hid

theorem new_mem (h : Committing base tree store taken trees steps) {edits : List Edit}
    (hasks : List.Forall₂ Edit.Asks edits steps) (hstep : step ∈ steps) (hnew : new ∈ step.new) :
    new.id ∈ (steps.foldl Splice.apply tree).ids :=
  (h.course.mem_ids_foldl h.arrangement hasks).mpr
    (.inr ⟨new, mem_news hstep hnew, new.id_mem_ids⟩)

/-! ### Orders that spare what was taken -/

/-- If it spares the new trees, the commit leaves the tree in the hands of its former parent and
erases nothing that was taken. -/
theorem commit_held (h : Committing base tree store taken trees steps) {edits : List Edit}
    (hasks : List.Forall₂ Edit.Asks edits steps) (hsafe : Spares steps) :
    ∃ later, Build.commit edits store = .ok ((), later) ∧ later.moves = [] ∧ later.TypesKnown ∧
      (steps.foldl Splice.apply tree).Held later (later.parent tree.id) ∧
      (steps.foldl Splice.apply tree).ids.Nodup ∧
      ∀ part, part ∈ store.moving → ∀ id, id ∈ base.preorder part →
        later.isErased id = false := by
  obtain ⟨spare, hperm⟩ := h.exists_spare
  obtain ⟨later, hrun, hintact⟩ :=
    (h.intact hperm).run h.arrangement (h.guarded hperm) hasks hsafe
  have hmoves : later.moves = [] := by simpa [news] using hintact.course.moves
  have hheld := hintact.held
  have hnodup := (List.nodup_append'.mp hintact.course.apart).1
  rw [show targets [] = [] from rfl, Tree.shown_nil] at hnodup
  rw [Splice.id_foldl_apply steps tree] at hheld
  refine ⟨later, Build.commit_ok hrun hmoves, hmoves,
    hintact.course.keeps.typesKnown h.piece.draft.typesKnown_settle, hheld, hnodup,
    fun part hpart id hid => ?_⟩
  have hloose := h.taken_loose hpart hid
  rw [(hperm.flatMap_right Tree.ids).mem_iff] at hloose
  exact (hintact.alive id hloose).1

/-- The commit leaves a tree that passes the check and erases nothing that was taken, if it
spares the new trees. -/
theorem commit_spares (h : Committing base tree store taken trees steps) {edits : List Edit}
    (hasks : List.Forall₂ Edit.Asks edits steps) (hsafe : Spares steps) :
    ∃ later, Build.commit edits store = .ok ((), later) ∧ later.violations tree.id = [] ∧
      ∀ part, part ∈ store.moving → ∀ id, id ∈ base.preorder part →
        later.isErased id = false := by
  obtain ⟨later, hrun, hmoves, hknown, hheld, hnodup, halive⟩ := h.commit_held hasks hsafe
  have hroot := Splice.id_foldl_apply steps tree
  have hlt : tree.id < later.size := hroot ▸ hheld.lt
  exact ⟨later, hrun, (Store.violations_eq_nil_iff hknown hlt).mpr
    ⟨hmoves, _, hroot, hnodup, hheld⟩, halive⟩

/-! ### Orders that do not -/

/-- The links down to the new trees that stand in a target are those of the live tree. -/
def Linked (base current : Store) (todo : List Splice) : Prop :=
  ∀ step, step ∈ todo → ∀ x, x ∈ step.old.ids →
    ∀ new, new ∈ news todo → new.id ∈ base.preorder x → current.parent x = base.parent x

theorem eq_of_above (h : Committing base tree store taken trees steps) (hnew : new ∈ trees)
    (hlt : new.id < base.size) (hx : x ∈ store.moving) (habove : new.id ∈ base.preorder x) :
    new.id = x := by
  have hmove := Store.mem_of_claim? (h.unclaimed_of_lt hnew hlt)
  exact h.piece.apart x new.id hx (List.mem_map_of_mem hmove) habove

theorem mem_old_of_above (h : Committing base tree store taken trees steps) (hstep : step ∈ steps)
    (hx : x ∈ step.old.ids) {y : NodeId} (hy : y ∈ base.preorder x) : y ∈ step.old.ids := by
  obtain ⟨below, hbelow, rfl⟩ := Tree.mem_ids_iff.mp hx
  obtain ⟨owner, hheld⟩ := (h.link hstep).of_mem hbelow
  have hnodup := Tree.nodup_ids_of_mem h.nodup
    (Tree.mem_subtrees_trans hbelow (h.old_mem hstep))
  rw [Tree.Rooted.preorder ⟨⟨owner, hheld⟩, hnodup⟩] at hy
  exact Tree.ids_subset_of_mem hbelow hy

theorem linked_settle (h : Committing base tree store taken trees steps) :
    Linked base store.settle steps := by
  intro step hstep x hx new hnew habove
  have hlt := fun y (hy : y ∈ step.old.ids) => (h.link hstep).laid.lt hy
  have hnewLt := hlt _ (h.mem_old_of_above hstep hx habove)
  have hfree : store.claim? x = none ∨ store.claim? x = some none := by
    by_cases hmoving : x ∈ store.moving
    · rw [← h.eq_of_above (h.loose new hnew) hnewLt hmoving habove]
      exact .inr (h.unclaimed_of_lt (h.loose new hnew) hnewLt)
    · refine .inl (Store.claim?_eq_none_iff.mpr fun move hmove he => ?_)
      exact hmoving (List.mem_map.mpr ⟨move, hmove, he⟩)
  rw [Store.parent, h.piece.draft.node_settle]
  show store.link x = _
  rw [Store.link_of_unclaimed hfree, Store.parent, h.piece.draft.old x (hlt x hx)]
  rfl

section Next

variable {current middle : Store} {made : Tree} {todo : List Splice} {kind : Kind}

/-- A node above a new tree that is still to be placed is not placed itself. -/
theorem not_new_of_above (h : Committing base tree store taken trees steps)
    (hcourse : Course store.settle current steps made (step :: todo)) (hother : other ∈ steps)
    (hx : x ∈ other.old.ids) (hnew : new ∈ news todo) (habove : new.id ∈ base.preorder x) :
    x ∉ step.new.toList.map Tree.id := by
  intro hroot
  obtain ⟨put, hput, rfl⟩ := List.mem_map.mp hroot
  have hlt := fun y (hy : y ∈ other.old.ids) => (h.link hother).laid.lt hy
  have hputLoose := h.loose put (mem_news (hcourse.coming step (List.mem_cons_self ..))
    (by simpa using hput))
  have hmove := Store.mem_of_claim? (h.unclaimed_of_lt hputLoose (hlt _ hx))
  have hsame := h.eq_of_above (h.loose new (hcourse.news_subset (List.mem_append_right _ hnew)))
    (hlt _ (h.mem_old_of_above hother hx habove)) (List.mem_map_of_mem hmove) habove
  exact hcourse.not_new_of_later hnew new.id_mem_ids (Tree.map_id_subset _ (hsame ▸ hroot))

/-- A splice does not touch the links inside another target. -/
theorem Linked.next (hlinked : Linked base current (step :: todo))
    (h : Committing base tree store taken trees steps)
    (hcourse : Course store.settle current steps made (step :: todo))
    (hslotted : step.Slotted current middle kind) :
    Linked base (middle.erase step.old.id) todo := by
  intro other hother x hx new hnew habove
  have hin := hcourse.coming step (List.mem_cons_self ..)
  have hotherIn := hcourse.coming_tail hother
  have hout : x ∉ step.old.ids := by
    intro hboth
    have hne : other.old.id ≠ step.old.id := hcourse.ne_target hother
    rcases Tree.nested_of_common_id h.nodup (h.old_mem hotherIn) (h.old_mem hin) hx hboth with
      hnested | hnested
    · rw [h.eq_of_nested hin hotherIn (Tree.mem_ids_iff.mpr ⟨_, hnested, rfl⟩)] at hne
      exact hne rfl
    · rw [h.eq_of_nested hotherIn hin (Tree.mem_ids_iff.mpr ⟨_, hnested, rfl⟩)] at hne
      exact hne rfl
  rw [Store.parent, hcourse.node_erase_of_not_mem h.arrangement hslotted hout]
  exact (hslotted.parent_of_not_new (h.not_new_of_above hcourse hotherIn hx hnew habove)).trans
    (hlinked other (List.mem_cons_of_mem _ hother) x hx new (List.mem_append_right _ hnew) habove)

/-- A new tree that stands in the old subtree of an earlier step is erased with it. -/
theorem isErased_of_linked (h : Committing base tree store taken trees steps)
    (hcourse : Course store.settle current steps made (step :: todo))
    (hlinked : Linked base current (step :: todo)) (hslotted : step.Slotted current middle kind)
    (hnew : new ∈ news todo) (hold : new.id ∈ step.old.ids) :
    (middle.erase step.old.id).isErased new.id = true := by
  have hstep : step ∈ step :: todo := List.mem_cons_self ..
  have hin := hcourse.coming step hstep
  have hheld := h.link hin
  have hnodup := Tree.nodup_ids_of_mem h.nodup (h.old_mem hin)
  refine Store.isErased_erase_of_linked hheld hnodup ?_ ?_ hold ?_
  · rw [hslotted.keeps.size, hcourse.keeps.size, Store.size_settle]
    exact h.piece.draft.grows.size
  · intro id hid
    have hne : ∀ other, other ∈ steps → id ≠ other.holder := by
      rintro other hother rfl
      exact h.holder_not_mem hother hin hid
    rw [hslotted.kind_of_ne (hne step hin), hcourse.kinds id hne, Store.kind,
      h.piece.draft.node_settle, h.piece.draft.old id (hheld.laid.lt hid)]
    rfl
  · intro below hbelow _ hunder
    have hbelowIn : below.id ∈ step.old.ids := Tree.mem_ids_iff.mpr ⟨below, hbelow, rfl⟩
    obtain ⟨owner, hbelowHeld⟩ := hheld.of_mem hbelow
    have habove : new.id ∈ base.preorder below.id := by
      rw [Tree.Rooted.preorder ⟨⟨owner, hbelowHeld⟩, Tree.nodup_ids_of_mem hnodup hbelow⟩]
      exact hunder
    exact (hslotted.parent_of_not_new
      (h.not_new_of_above hcourse hin hbelowIn hnew habove)).trans
      (hlinked step hstep below.id hbelowIn new (List.mem_append_right _ hnew) habove)

/-- A commit that does not spare the new trees erases one of them. -/
theorem exists_erased (h : Committing base tree store taken trees steps) {edits : List Edit}
    (hcourse : Course store.settle current steps made todo) (hlinked : Linked base current todo)
    (hasks : List.Forall₂ Edit.Asks edits todo)
    (hcostly : ¬ Spares todo) :
    ∃ final, edits.forM Build.applyEdit current = .ok ((), final) ∧
      ∃ new ∈ news todo, final.isErased new.id = true := by
  induction hasks generalizing current made with
  | nil => exact absurd List.Pairwise.nil hcostly
  | @cons edit step edits todo hask hasks ih =>
      obtain ⟨middle, kind, hrun, hslotted⟩ := hcourse.exists_slotted h.arrangement hask
      have hnext := hcourse.next h.arrangement hslotted
      by_cases hfirst : ∀ new, new ∈ news todo → new.id ∉ step.old.ids
      · have hrest : ¬ Spares todo := fun hsafe => hcostly (spares_cons.mpr ⟨hfirst, hsafe⟩)
        obtain ⟨final, hruns, new, hnew, herased⟩ :=
          ih hnext (hlinked.next h hcourse hslotted) hrest
        exact ⟨final, (Draft.run_applyEdit edit edits hrun).trans hruns, new,
          List.mem_append_right _ hnew, herased⟩
      · obtain ⟨new, hfirst⟩ := not_forall.mp hfirst
        obtain ⟨hnew, hold⟩ := Classical.not_imp.mp hfirst
        have herased := h.isErased_of_linked hcourse hlinked hslotted hnew (not_not.mp hold)
        obtain ⟨final, hruns, hkeeps, -⟩ := hnext.run h.arrangement hasks
        exact ⟨final, (Draft.run_applyEdit edit edits hrun).trans hruns, new,
          List.mem_append_right _ hnew, hkeeps.erased _ herased⟩

end Next

/-- A commit that does not spare the new trees leaves a tree that does not pass the check. -/
theorem violations_ne_nil (h : Committing base tree store taken trees steps) {edits : List Edit}
    (hasks : List.Forall₂ Edit.Asks edits steps)
    (hcostly : ¬ Spares steps) :
    ∃ later, Build.commit edits store = .ok ((), later) ∧ later.violations tree.id ≠ [] := by
  obtain ⟨later, hrun, -, hcourse⟩ := h.course.run h.arrangement hasks
  obtain ⟨again, hrun', new, hnew, herased⟩ :=
    h.exists_erased h.course h.linked_settle hasks hcostly
  obtain ⟨-, rfl⟩ := Build.ok_unique hrun hrun'
  have hmoves : later.moves = [] := by simpa [news] using hcourse.moves
  refine ⟨later, Build.commit_ok hrun hmoves, fun hclean => ?_⟩
  have hmade := hcourse.laid.laid
  have hroot := Splice.id_foldl_apply steps tree
  have hlt : tree.id < later.size := hroot ▸ hmade.lt (Tree.id_mem_ids _)
  obtain ⟨-, found, hid, -, hheld⟩ := (Store.violations_eq_nil_iff
    (hcourse.keeps.typesKnown h.piece.draft.typesKnown_settle) hlt).mp hclean
  have hsame := hheld.laid.unique hmade (hid.trans hroot.symm)
  have hin := (h.course.mem_ids_foldl h.arrangement hasks).mpr
    (.inr ⟨new, hnew, new.id_mem_ids⟩)
  rw [← hsame, Tree.mem_ids_iff] at hin
  obtain ⟨below, hbelow, hnumber⟩ := hin
  have hne : below ≠ found := by
    rintro rfl
    refine h.not_loose_of_shown (Tree.id_mem_shown _ tree) (h.loose new hnew) ?_
    rw [← hid, hnumber]
    exact new.id_mem_ids
  obtain ⟨holder, hholder, hslot⟩ := Tree.exists_holder hbelow hne
  obtain ⟨owner, hholderHeld⟩ := hheld.of_mem hholder
  have hlive := hholderHeld.live hslot
  rw [hnumber, herased] at hlive
  cases hlive

end Committing

/-! ## Replacing several nodes -/

/-- A store that holds a tree, wherever its root is linked, and has nothing else to do. -/
structure Store.Hosts (store : Store) (tree : Tree) : Prop where
  held : tree.Held store (store.parent tree.id)
  nodup : tree.ids.Nodup
  idle : store.moves = []
  typed : store.TypesKnown

namespace Store.Hosts

variable {store : Store} {tree : Tree}

theorem rooted (h : store.Hosts tree) : tree.Rooted store :=
  ⟨⟨_, h.held⟩, h.nodup⟩

theorem preorder (h : store.Hosts tree) : store.preorder tree.id = tree.ids :=
  h.rooted.preorder

theorem legible {below : Tree} (h : store.Hosts tree) (hmem : below ∈ tree.subtrees) :
    below.Legible store :=
  Tree.Legible.of_mem ⟨h.held.laid, h.held.laid.height_le h.nodup⟩ hmem

theorem of_violations {root : NodeId} (hknown : store.TypesKnown) (hroot : root < store.size)
    (hclean : store.violations root = []) : ∃ tree : Tree, tree.id = root ∧ store.Hosts tree := by
  obtain ⟨hidle, tree, rfl, hnodup, hheld⟩ :=
    (Store.violations_eq_nil_iff hknown hroot).mp hclean
  exact ⟨tree, rfl, hheld, hnodup, hidle, hknown⟩

theorem violations (h : store.Hosts tree) : store.violations tree.id = [] :=
  (Store.violations_eq_nil_iff h.typed h.held.lt).mpr ⟨h.idle, tree, rfl, h.nodup, h.held⟩

end Store.Hosts

def Splice.ofPair (base : Store) (pair : Tree × Tree) : Splice :=
  ⟨(base.parent pair.1.id).getD 0, pair.1, some pair.2⟩

namespace Draft

variable {base store : Store} {region : List NodeId} {tree : Tree} {pairs : List (Tree × Tree)}

/-- Trees that were drafted as planned stand ready to be committed in the place of subtrees, none
of which is below another. -/
theorem committing (h : Draft base region store (pairs.map Prod.snd))
    (hplan : Prepared base tree store) (hbase : base.Hosts tree)
    (hfresh : ∀ pair, pair ∈ pairs → base.size ≤ pair.2.id)
    (holds : ∀ pair, pair ∈ pairs → pair.1 ∈ tree.subtrees ∧ pair.1 ≠ tree)
    (hapart : ((pairs.map Prod.fst).flatMap Tree.ids).Nodup)
    (hregion : ∀ id, id ∈ region → ∃ pair ∈ pairs, id ∈ pair.1.subs.flatMap Tree.ids) :
    ∃ taken trees, Committing base tree store taken trees (pairs.map (Splice.ofPair base)) := by
  obtain ⟨taken, trees, hpiece⟩ := hplan
  have hnews : news (pairs.map (Splice.ofPair base)) = pairs.map Prod.snd := by
    rw [news, List.flatMap_map, List.map_eq_flatMap]
    rfl
  refine ⟨taken, trees, hpiece, hbase.held, hbase.nodup, ?_, ?_, ?_, ?_, ?_, ?_, ?_⟩
  · intro step hstep
    obtain ⟨pair, hpair, rfl⟩ := List.mem_map.mp hstep
    obtain ⟨hin, hne⟩ := holds pair hpair
    obtain ⟨holder, hholder, hslot⟩ := Tree.exists_holder hin hne
    refine ⟨holder, hholder, ?_, hslot⟩
    rw [Splice.ofPair, (hbase.held.of_slot hholder hslot).link]
    rfl
  · rw [List.pairwise_map]
    have hdisjoint := (List.nodup_flatMap.mp hapart).2
    rw [List.pairwise_map] at hdisjoint
    exact hdisjoint.imp fun {pair other} hids =>
      ⟨fun hin => hids pair.1.id_mem_ids hin, fun hin => hids hin other.1.id_mem_ids⟩
  · intro new hnew
    rw [hnews] at hnew
    obtain ⟨pair, hpair, rfl⟩ := List.mem_map.mp hnew
    have hparent : store.parent pair.2.id = none := by
      rcases (h.loose pair.2 hnew).2.1 with ⟨hclaim, -⟩ | ⟨-, hnone⟩
      · rw [h.claim?_new (hfresh pair hpair)] at hclaim
        cases hclaim
      · exact hnone
    obtain ⟨found, hfound, hid⟩ := List.mem_map.mp
      (hpiece.loose pair.2.id (hfresh pair hpair) (h.lt hnew) hparent (h.loose pair.2 hnew).1)
    rwa [← (hpiece.draft.laid hfound).unique (h.laid hnew) hid]
  · rw [hnews]
    exact Tree.nodup_map_id h.apart
  · intro step hstep hnone
    obtain ⟨pair, hpair, rfl⟩ := List.mem_map.mp hstep
    cases hnone
  · intro id hid
    obtain ⟨move, hmove, rfl⟩ := List.mem_map.mp hid
    obtain ⟨hlt, hin, -⟩ := h.moving move hmove
    rcases h.origin move.node hin with hge | hin
    · exact absurd hlt (Nat.not_lt.mpr hge)
    · obtain ⟨pair, hpair, hbelow⟩ := hregion _ hin
      exact ⟨Splice.ofPair base pair, List.mem_map_of_mem hpair, hbelow⟩
  · intro move hmove hnone
    rw [hnews]
    exact (h.moving move hmove).2.2.1 hnone

theorem commit_hosts (h : Draft base region store (pairs.map Prod.snd))
    (hplan : Prepared base tree store) (hbase : base.Hosts tree)
    (hfresh : ∀ pair, pair ∈ pairs → base.size ≤ pair.2.id)
    (holds : ∀ pair, pair ∈ pairs → pair.1 ∈ tree.subtrees ∧ pair.1 ≠ tree)
    (hapart : ((pairs.map Prod.fst).flatMap Tree.ids).Nodup)
    (hregion : ∀ id, id ∈ region → ∃ pair ∈ pairs, id ∈ pair.1.subs.flatMap Tree.ids) :
    ∃ later, Build.commit
        (pairs.map (fun pair => Edit.mk pair.1.id (.replace (.fresh pair.2.id)))) store =
        .ok ((), later) ∧
      later.Hosts (pairs.foldl (fun tree pair => tree.put pair.1.id (some pair.2)) tree) := by
  obtain ⟨taken, trees, hcommitting⟩ := h.committing hplan hbase hfresh holds hapart hregion
  have hasks : List.Forall₂ Edit.Asks
      (pairs.map (fun pair => Edit.mk pair.1.id (.replace (.fresh pair.2.id))))
      (pairs.map (Splice.ofPair base)) := by
    rw [List.forall₂_map_left_iff, List.forall₂_map_right_iff]
    exact List.forall₂_same.mpr fun pair _ => ⟨rfl, _, rfl, rfl⟩
  have hspares : Splice.Spares (pairs.map (Splice.ofPair base)) := by
    refine List.pairwise_map.mpr
      (List.pairwise_of_forall_mem_list fun pair hpair other hother => ?_)
    rintro _ ⟨⟩ hin
    have hlt := (hbase.held.laid.of_mem (holds pair hpair).1).lt hin
    exact absurd hlt (Nat.not_lt.mpr (hfresh other hother))
  obtain ⟨later, hrun, hmoves, hknown, hheld, hnodup, -⟩ :=
    hcommitting.commit_held hasks hspares
  rw [← Splice.id_foldl_apply (pairs.map (Splice.ofPair base)) tree] at hheld
  rw [List.foldl_map] at hheld hnodup
  exact ⟨later, hrun, hheld, hnodup, hmoves, hknown⟩

end Draft

/-! ## Independent edits -/

def Edit.replacement? (edit : Edit) : Option NodeId :=
  match edit.change with
  | .replace child => some child.node
  | _ => none

/-- Edits of the tree below `root` that concern different parts of it.  What they put into the
tree was built from `base` and from the subtrees at `taken`, and `store` is the store before they
are committed. -/
structure Independent (base : Store) (taken : List NodeId) (store : Store) (root : NodeId)
    (edits : List Edit) : Prop where
  splices : ∀ edit, edit ∈ edits → edit.change = .remove ∨ edit.replacement?.isSome = true
  reachable : ∀ edit, edit ∈ edits → edit.target ∈ base.preorder root ∧ edit.target ≠ root
  /-- No target is below another. -/
  apart : edits.Pairwise (fun edit other => edit.target ∉ base.preorder other.target ∧
    other.target ∉ base.preorder edit.target)
  removable : ∀ edit, edit ∈ edits → edit.change = .remove →
    base.canRemove edit.target = true
  /-- A replacement is new, or it was taken and nobody claims it. -/
  fits : ∀ new, new ∈ edits.filterMap Edit.replacement? →
    new < store.size ∧ base.IsFree store new
  once : (edits.filterMap Edit.replacement?).Nodup
  /-- What was taken stood below a target. -/
  below : ∀ part, part ∈ taken → ∃ edit ∈ edits, part ∈ (base.preorder edit.target).tail
  /-- What was taken is a replacement or was placed in one. -/
  placed : ∀ part, part ∈ taken →
    part ∈ edits.filterMap Edit.replacement? ∨ base.IsPlaced store part

/-- No replacement stands below the target of an earlier edit. -/
def Edit.Spares (base : Store) (edits : List Edit) : Prop :=
  edits.Pairwise (fun edit later => ∀ new, new ∈ later.replacement? →
    new ∉ base.preorder edit.target)

instance (base : Store) (edits : List Edit) : Decidable (Edit.Spares base edits) :=
  inferInstanceAs (Decidable (edits.Pairwise _))

/-- The splice that an edit asks for stands in the tree, and its new tree is loose. -/
structure Splice.Matches (tree : Tree) (trees : List Tree) (edit : Edit) (step : Splice) :
    Prop where
  asks : edit.Asks step
  slot : step.StandsIn tree
  loose : ∀ new, new ∈ step.new → new ∈ trees

theorem Splice.Matches.preorder {base : Store} {tree : Tree} {trees : List Tree} {edit : Edit}
    {step : Splice} {owner : Option NodeId} (h : Matches tree trees edit step)
    (hheld : tree.Held base owner) (hnodup : tree.ids.Nodup) :
    base.preorder edit.target = step.old.ids := by
  rw [h.asks.1]
  exact (h.slot.rooted hheld hnodup).preorder

theorem Splice.forall₂_asks {tree : Tree} {trees : List Tree} {edits : List Edit}
    {f : Edit → Splice}
    (hmatches : ∀ edit, edit ∈ edits → Matches tree trees edit (f edit)) :
    List.Forall₂ Edit.Asks edits (edits.map f) :=
  List.forall₂_map_right_iff.mpr (List.forall₂_same.mpr fun edit hedit =>
    (hmatches edit hedit).asks)

theorem Edit.Asks.replacement? {edit : Edit} {step : Splice} (h : edit.Asks step) :
    edit.replacement? = step.new.map Tree.id := by
  obtain ⟨-, hchange⟩ := h
  unfold Edit.replacement?
  cases hnew : step.new with
  | none =>
      rw [hnew] at hchange
      rw [hchange]
      rfl
  | some new =>
      rw [hnew] at hchange
      obtain ⟨child, hreplace, hchild⟩ := hchange
      rw [hreplace, Option.map_some, ← hchild]

/-- An order spares the replacements if the splices spare the new trees. -/
theorem Edit.spares_iff {base : Store} {tree : Tree} {trees : List Tree} {owner : Option NodeId}
    {order : List Edit} {f : Edit → Splice}
    (hmatches : ∀ edit, edit ∈ order → Matches tree trees edit (f edit))
    (hheld : tree.Held base owner) (hnodup : tree.ids.Nodup) :
    Edit.Spares base order ↔ Splice.Spares (order.map f) := by
  rw [Edit.Spares, Splice.Spares, List.pairwise_map]
  refine List.Pairwise.iff_of_mem fun {edit later} hedit hlater => ?_
  rw [(hmatches edit hedit).preorder hheld hnodup, (hmatches later hlater).asks.replacement?]
  simp [Option.mem_def]

namespace Independent

variable {base store plan : Store} {root : NodeId} {edits order : List Edit} {tree : Tree}
  {taken region : List NodeId} {trees : List Tree} {f : Edit → Splice}

/-- The order of the edits does not matter for their independence. -/
theorem perm (h : Independent base taken store root edits) (hperm : order.Perm edits) :
    Independent base taken store root order where
  splices edit hedit := h.splices edit (hperm.mem_iff.mp hedit)
  reachable edit hedit := h.reachable edit (hperm.mem_iff.mp hedit)
  apart := (hperm.pairwise_iff fun hboth => hboth.symm).mpr h.apart
  removable edit hedit := h.removable edit (hperm.mem_iff.mp hedit)
  fits new hnew := h.fits new ((hperm.filterMap _).mem_iff.mp hnew)
  once := (hperm.filterMap _).nodup_iff.mpr h.once
  below part hpart := by
    obtain ⟨edit, hedit, hin⟩ := h.below part hpart
    exact ⟨edit, hperm.mem_iff.mpr hedit, hin⟩
  placed part hpart := (h.placed part hpart).imp_left (hperm.filterMap _).mem_iff.mpr

theorem exists_matches (h : Independent base taken store tree.id edits)
    (hplan : store.Anticipates plan) (hpiece : Workpiece base tree plan region trees)
    (hrooted : tree.Rooted base) {edit : Edit} (hedit : edit ∈ edits) :
    ∃ step, Matches tree trees edit step := by
  obtain ⟨hin, hne⟩ := h.reachable edit hedit
  rw [hrooted.preorder] at hin
  obtain ⟨old, hold, hid⟩ := Tree.mem_ids_iff.mp hin
  obtain ⟨holder, hholder, hslot⟩ := Tree.exists_holder hold (fun he => hne (he ▸ hid.symm))
  rcases h.splices edit hedit with hremove | hreplace
  · exact ⟨⟨holder.id, old, none⟩, ⟨hid.symm, hremove⟩, ⟨holder, hholder, rfl, hslot⟩, by simp⟩
  · obtain ⟨number, hnumber⟩ := Option.isSome_iff_exists.mp hreplace
    obtain ⟨hlt, hfree⟩ := h.fits number (List.mem_filterMap.mpr ⟨edit, hedit, hnumber⟩)
    obtain ⟨new, hnew, rfl⟩ :=
      List.mem_map.mp (hpiece.mem_roots (hplan.size ▸ hlt) (hplan.isFree hfree))
    refine ⟨⟨holder.id, old, some new⟩, ⟨hid.symm, ?_⟩, ⟨holder, hholder, rfl, hslot⟩, ?_⟩
    · unfold Edit.replacement? at hnumber
      split at hnumber
      · next child hchange => exact ⟨child, hchange, Option.some.inj hnumber⟩
      · cases hnumber
    · rintro _ ⟨⟩
      exact hnew

theorem news_ids (hmatches : ∀ edit, edit ∈ edits → Matches tree trees edit (f edit)) :
    (news (edits.map f)).map Tree.id = edits.filterMap Edit.replacement? := by
  induction edits with
  | nil => rfl
  | cons edit edits ih =>
      have hfirst := (hmatches edit (List.mem_cons_self ..)).asks.replacement?
      rw [List.map_cons, news_cons, List.map_append,
        ih (fun other hother => hmatches other (List.mem_cons_of_mem _ hother)),
        List.filterMap_cons, hfirst]
      cases (f edit).new <;> rfl

/-- Independent edits are splices that can be committed. -/
theorem committing (h : Independent base taken store tree.id edits)
    (hpiece : Workpiece base tree plan region trees)
    (htaken : ∀ id, id ∈ plan.moving ↔ id ∈ taken)
    (hplaced : ∀ move, move ∈ plan.moves → move.claim = none →
      move.node ∈ edits.filterMap Edit.replacement?)
    (hheld : tree.Held base (base.parent tree.id)) (hnodup : tree.ids.Nodup)
    (hmatches : ∀ edit, edit ∈ edits → Matches tree trees edit (f edit)) :
    Committing base tree plan region trees (edits.map f) := by
  have hpreorder := fun edit hedit => (hmatches edit hedit).preorder hheld hnodup
  refine ⟨hpiece, hheld, hnodup, ?_, ?_, ?_, ?_, ?_, ?_, ?_⟩
  · intro step hstep
    obtain ⟨edit, hedit, rfl⟩ := List.mem_map.mp hstep
    exact (hmatches edit hedit).slot
  · refine List.pairwise_map.mpr (h.apart.imp_of_mem fun {edit other} hedit hother hapart => ?_)
    rw [hpreorder edit hedit, hpreorder other hother, (hmatches edit hedit).asks.1,
      (hmatches other hother).asks.1] at hapart
    exact hapart
  · intro new hnew
    obtain ⟨step, hstep, hin⟩ := List.mem_flatMap.mp hnew
    obtain ⟨edit, hedit, rfl⟩ := List.mem_map.mp hstep
    exact (hmatches edit hedit).loose new (by simpa using hin)
  · rw [news_ids hmatches]
    exact h.once
  · intro step hstep hnone
    obtain ⟨edit, hedit, rfl⟩ := List.mem_map.mp hstep
    obtain ⟨htarget, hchange⟩ := (hmatches edit hedit).asks
    rw [hnone] at hchange
    have hremovable := h.removable edit hedit hchange
    rwa [Store.canRemove, htarget, ((hmatches edit hedit).slot.held hheld).link] at hremovable
  · intro part hpart
    obtain ⟨edit, hedit, hin⟩ := h.below part ((htaken part).mp hpart)
    rw [hpreorder edit hedit, Tree.ids_eq, List.tail_cons] at hin
    exact ⟨f edit, List.mem_map_of_mem hedit, hin⟩
  · intro move hmove hnone
    rw [news_ids hmatches]
    exact hplaced move hmove hnone

end Independent

/-- Independent edits can be committed in any order: the commit runs through and gives the same
tree, with the replacements and without the targets.  The tree passes the check in those orders
in which no replacement stands below the target of an earlier edit, and in these nothing that
was taken is erased. -/
theorem Build.commit_any_order {base store : Store} {root : NodeId} {taken : List NodeId}
    {edits : List Edit} (hknown : base.TypesKnown) (hroot : root < base.size)
    (hclean : base.violations root = []) (hbuilt : Built base root taken store)
    (h : Independent base taken store root edits) :
    ∃ made : Tree, made.id = root ∧
      (∀ edit, edit ∈ edits → edit.target ∉ made.ids ∧
        ∀ new, new ∈ edit.replacement? → new ∈ made.ids) ∧
      ∀ order, order.Perm edits →
        ∃ later, Build.commit order store = .ok ((), later) ∧ made.Laid later ∧
          (later.violations root = [] ↔ Edit.Spares base order) ∧
          (Edit.Spares base order → ∀ part, part ∈ taken →
            ∀ id, id ∈ base.preorder part → later.isErased id = false) := by
  obtain ⟨hmoves, tree, rfl, hnodup, hheld⟩ := (Store.violations_eq_nil_iff hknown hroot).mp hclean
  have hrooted : tree.Rooted base := ⟨⟨_, hheld⟩, hnodup⟩
  obtain ⟨plan, hplan, htaken, ⟨region, trees, hpiece⟩, -, hplaced, hcommit⟩ :=
    (hbuilt.underway hrooted hmoves hknown).exists_plan hrooted
      (fun new hnew => (h.fits new hnew).2) h.placed
  have hexists : ∀ edit : Edit, ∃ step, edit ∈ edits → Matches tree trees edit step := by
    intro edit
    by_cases hedit : edit ∈ edits
    · exact (h.exists_matches hplan hpiece hrooted hedit).imp fun _ hstep _ => hstep
    · exact ⟨⟨tree.id, tree, none⟩, fun hin => absurd hin hedit⟩
  choose f hf using hexists
  have hbase := h.committing hpiece htaken hplaced hheld hnodup hf
  refine ⟨(edits.map f).foldl Splice.apply tree, Splice.id_foldl_apply .., ?_, ?_⟩
  · intro edit hedit
    have hasks := Splice.forall₂_asks hf
    have hstep : f edit ∈ edits.map f := List.mem_map_of_mem hedit
    refine ⟨?_, fun new hnew => ?_⟩
    · rw [(hf edit hedit).asks.1]
      exact hbase.target_not_mem hasks hstep
    · rw [(hf edit hedit).asks.replacement?, Option.mem_map] at hnew
      obtain ⟨placed, hplaced, rfl⟩ := hnew
      exact hbase.new_mem hasks hstep hplaced
  intro order hperm
  have hmatches : ∀ edit, edit ∈ order → Matches tree trees edit (f edit) :=
    fun edit hedit => hf edit (hperm.mem_iff.mp hedit)
  have horder := (h.perm hperm).committing hpiece htaken
    (fun move hmove hnone => (hperm.filterMap _).mem_iff.mpr (hplaced move hmove hnone))
    hheld hnodup hmatches
  have hasks := Splice.forall₂_asks hmatches
  obtain ⟨later, hrun, hlaid⟩ := horder.commit_ok hasks
  rw [hbase.foldl_perm (hperm.map f).symm] at hlaid
  have hspares := Edit.spares_iff hmatches hheld hnodup
  by_cases hsafe : Edit.Spares base order
  · obtain ⟨again, hrun', hclean, hlive⟩ := horder.commit_spares hasks (hspares.mp hsafe)
    obtain ⟨-, rfl⟩ := Build.ok_unique hrun hrun'
    exact ⟨later, (hcommit order).trans hrun, hlaid, iff_of_true hclean hsafe,
      fun _ part hpart => hlive part ((htaken part).mpr hpart)⟩
  · obtain ⟨again, hrun', hviolations⟩ :=
      horder.violations_ne_nil hasks (fun hpairs => hsafe (hspares.mpr hpairs))
    obtain ⟨-, rfl⟩ := Build.ok_unique hrun hrun'
    exact ⟨later, (hcommit order).trans hrun, hlaid, iff_of_false hviolations hsafe,
      fun hin => absurd hin hsafe⟩

/-- The unit `if (flag) { first(); second(); }`. -/
def guardedCalls : Store :=
  { nodes := #[
      ⟨.name "flag" none, none, some 6, false⟩,
      ⟨.call none "first" [], none, some 2, false⟩,
      ⟨.exprStmt 1, none, some 5, false⟩,
      ⟨.call none "second" [], none, some 4, false⟩,
      ⟨.exprStmt 3, none, some 5, false⟩,
      ⟨.block [2, 4], none, some 6, false⟩,
      ⟨.ifStmt 0 5 none, none, some 7, false⟩,
      ⟨.unit [6], none, none, false⟩] }

/-- The condition is to become the call `first()`, and the statement `first();` is to go. -/
def hoistedCall : List Edit :=
  [⟨0, .replace (.moved 1)⟩, ⟨2, .remove⟩]

theorem built_hoistedCall : Built guardedCalls 7 [1] (guardedCalls.requestMove 1) := by
  have hrun : Build.take 1 guardedCalls = .ok (.moved 1, guardedCalls.requestMove 1) := rfl
  exact .take .start (by decide +kernel) (by decide) hrun

theorem independent_hoistedCall :
    Independent guardedCalls [1] (guardedCalls.requestMove 1) 7 hoistedCall where
  splices := by decide +kernel
  reachable := by decide +kernel
  apart := by decide +kernel
  removable := by decide +kernel
  fits new hnew := by
    obtain rfl : new = 1 := by simpa [hoistedCall, Edit.replacement?, Child.node] using hnew
    exact ⟨by decide +kernel, by decide +kernel⟩
  once := by decide +kernel
  below := by decide +kernel
  placed part hpart := by
    obtain rfl := List.mem_singleton.mp hpart
    exact .inl (by decide +kernel)

/-- The call becomes the condition, and the tree passes the check. -/
theorem Build.commit_hoistedCall :
    guardedCalls.violations 7 = [] ∧ ∃ later,
      Build.commit hoistedCall (guardedCalls.requestMove 1) = .ok ((), later) ∧
        later.violations 7 = [] ∧ later.isErased 1 = false := by
  refine ⟨by decide +kernel, ?_⟩
  obtain ⟨made, -, -, hall⟩ := Build.commit_any_order (by decide +kernel) (by decide +kernel)
    (by decide +kernel) built_hoistedCall independent_hoistedCall
  obtain ⟨later, hrun, -, hclean, hlive⟩ := hall hoistedCall (.refl _)
  have hspares : Edit.Spares guardedCalls hoistedCall := by decide +kernel
  exact ⟨later, hrun, hclean.mpr hspares, hlive hspares 1 (by decide) 1 (by decide +kernel)⟩

/-- The unit after the statement was removed first: the condition is erased. -/
def erasedCondition : Store :=
  { nodes := #[
      ⟨.name "flag" none, none, none, true⟩,
      ⟨.call none "first" [], none, some 6, true⟩,
      ⟨.exprStmt 1, none, none, true⟩,
      ⟨.call none "second" [], none, some 4, false⟩,
      ⟨.exprStmt 3, none, some 5, false⟩,
      ⟨.block [4], none, some 6, false⟩,
      ⟨.ifStmt 1 5 none, none, some 7, false⟩,
      ⟨.unit [6], none, none, false⟩] }

/-- With the removal first, the call is erased before it becomes the condition. -/
theorem Build.commit_order_matters :
    guardedCalls.violations 7 = [] ∧ Built guardedCalls 7 [1] (guardedCalls.requestMove 1) ∧
      Independent guardedCalls [1] (guardedCalls.requestMove 1) 7 hoistedCall ∧
      Build.commit hoistedCall.reverse (guardedCalls.requestMove 1) =
        .ok ((), erasedCondition) ∧
      erasedCondition.isErased 1 = true ∧
      erasedCondition.violations 7 ≠ [] := by
  refine ⟨by decide +kernel, built_hoistedCall, independent_hoistedCall, ?_⟩
  decide +kernel

end CodeTidy
