import CodeTidy.Proofs.Confinement
import CodeTidy.Proofs.Workpiece

/-!
# Breaking loose trees apart

A negation may use parts of what it negates and drop the rest.  A subtree that was taken stays
where it is, and the parts are taken in its place (`Workpiece.dissolve_moved`).  A new tree is
erased down to its parts; those of them that were taken are on the move again
(`Workpiece.brokenUp`).
-/

namespace CodeTidy

/-! ## Parts of a taken subtree -/

theorem Store.mem_moving_forgetMove {store : Store} {id x : NodeId} :
    x ∈ (store.forgetMove id).moving ↔ x ∈ store.moving ∧ x ≠ id := by
  simp only [Store.moving, Store.forgetMove, List.mem_map, List.mem_filter, bne_iff_ne]
  constructor
  · rintro ⟨move, ⟨hmove, hother⟩, rfl⟩
    exact ⟨⟨move, hmove, rfl⟩, hother⟩
  · rintro ⟨⟨move, hmove, rfl⟩, hother⟩
    exact ⟨move, ⟨hmove, hother⟩, rfl⟩

namespace Build

variable {store later : Store} {ids : List NodeId} {children : List Child}

theorem mapM_take_cases (h : ids.mapM take store = .ok (children, later)) :
    later.nodes = store.nodes ∧ later.types = store.types ∧
      ∀ x, x ∈ later.moving ↔ x ∈ ids ∨ x ∈ store.moving := by
  induction ids generalizing store children with
  | nil =>
      cases h
      simp
  | cons id ids ih =>
      rw [List.mapM_cons] at h
      obtain ⟨child, middle, htake, h⟩ := exists_of_bind_ok h
      obtain ⟨rest, last, htakes, h⟩ := exists_of_bind_ok h
      cases h
      rw [run_take] at htake
      split at htake
      · cases htake
      · cases htake
        obtain ⟨hnodes, htypes, hmoving⟩ := ih htakes
        refine ⟨hnodes, htypes, fun x => ?_⟩
        rw [hmoving, List.mem_cons, or_comm, or_right_comm, or_assoc]
        simp only [Store.moving, Store.requestMove, List.map_cons, List.mem_cons]
        tauto

end Build

namespace Workpiece

variable {base store later : Store} {old tree : Tree} {taken : List NodeId}
  {trees parts : List Tree}

/-- A loose tree whose root is on the move is a subtree of the live tree. -/
theorem live_of_claim (h : Workpiece base old store taken trees) (hold : old.Rooted base)
    (htree : tree ∈ trees) (hclaim : store.claim? tree.id = some none) :
    tree ∈ old.subtrees ∧ tree ≠ old ∧ tree.Live base := by
  have hmoving : tree.id ∈ store.moving := Store.mem_moving_of_claim? hclaim
  obtain ⟨part, hpart, hid, hne, hlive⟩ := exists_live hold (h.below _ hmoving)
  obtain rfl := (h.draft.laid_old hlive.laid).unique (h.draft.laid htree) hid
  exact ⟨hpart, hne, hlive⟩

section Dissolved

variable (h : Workpiece base old store taken (tree :: trees)) (hold : old.Rooted base)
  (hclaim : store.claim? tree.id = some none) (hparts : ∀ part, part ∈ parts → part ∈ tree.subtrees)
  (hlater : ∀ x, x ∈ later.moving ↔
    x ∈ parts.map Tree.id ∨ (x ∈ store.moving ∧ x ≠ tree.id))

include h hold hclaim in
/-- Another taken subtree has no node in common with the tree. -/
theorem not_mem_of_other {root x : NodeId} (hroot : root ∈ store.moving) (hne : root ≠ tree.id)
    (hx : x ∈ tree.ids) : x ∉ base.preorder root := by
  intro hin
  obtain ⟨htree, -, hlive⟩ := h.live_of_claim hold (List.mem_cons_self ..) hclaim
  have hmoved : tree.id ∈ store.moving := Store.mem_moving_of_claim? hclaim
  obtain ⟨other, hother, rfl, -, hotherLive⟩ := exists_live hold (h.below root hroot)
  rw [hotherLive.preorder] at hin
  rcases Tree.nested_of_common_id hold.nodup htree hother hx hin with hnested | hnested
  · refine hne (h.apart _ _ hroot hmoved ?_).symm
    rw [hotherLive.preorder]
    exact Tree.ids_subset_of_mem hnested tree.id_mem_ids
  · refine hne (h.apart _ _ hmoved hroot ?_)
    rw [hlive.preorder]
    exact Tree.ids_subset_of_mem hnested other.id_mem_ids

include h hold hclaim hparts hlater in
theorem below_of_dissolved {id : NodeId} (hid : id ∈ later.moving) :
    id ∈ old.subs.flatMap Tree.ids := by
  obtain ⟨-, -, hlive⟩ := h.live_of_claim hold (List.mem_cons_self ..) hclaim
  rcases (hlater id).mp hid with hpart | ⟨hroot, -⟩
  · obtain ⟨part, hmem, rfl⟩ := List.mem_map.mp hpart
    refine preorder_subset hold (h.below _ (Store.mem_moving_of_claim? hclaim)) ?_
    rw [hlive.preorder]
    exact Tree.ids_subset_of_mem (hparts part hmem) part.id_mem_ids
  · exact h.below id hroot

include h hold hclaim hparts hlater in
/-- No taken subtree is below another one when the parts are taken in the place of the tree. -/
theorem apart_of_dissolved (hnodup : (parts.flatMap Tree.ids).Nodup) {root other : NodeId}
    (hroot : root ∈ later.moving) (hother : other ∈ later.moving)
    (hin : other ∈ base.preorder root) : other = root := by
  obtain ⟨-, -, hlive⟩ := h.live_of_claim hold (List.mem_cons_self ..) hclaim
  have hmoved : tree.id ∈ store.moving := Store.mem_moving_of_claim? hclaim
  rcases (hlater root).mp hroot with hpart | ⟨hroot, hne⟩
  · obtain ⟨part, hmem, rfl⟩ := List.mem_map.mp hpart
    rw [(hlive.of_mem (hparts part hmem)).preorder] at hin
    rcases (hlater other).mp hother with hpart' | ⟨hother, hotherNe⟩
    · obtain ⟨part', hmem', rfl⟩ := List.mem_map.mp hpart'
      exact congrArg Tree.id (Tree.eq_of_common_id hnodup hmem' hmem part'.id_mem_ids hin)
    · refine absurd (h.apart _ _ hmoved hother ?_) hotherNe
      rw [hlive.preorder]
      exact Tree.ids_subset_of_mem (hparts part hmem) hin
  · rcases (hlater other).mp hother with hpart' | ⟨hother, -⟩
    · obtain ⟨part', hmem', rfl⟩ := List.mem_map.mp hpart'
      exact absurd hin (h.not_mem_of_other hold hclaim hroot hne
        (Tree.ids_subset_of_mem (hparts part' hmem') part'.id_mem_ids))
    · exact h.apart root other hroot hother hin

include h hold hclaim hparts in
/-- Breaking a taken subtree apart takes parts of it in its place. -/
theorem dissolve_moved (hnodup : (parts.flatMap Tree.ids).Nodup) :
    ∃ later taken', Build.dissolve (.moved tree.id) (parts.map Tree.id) store =
        .ok (parts.map (fun part => Child.moved part.id), later) ∧
      (∀ id, id ∈ later.moving ↔ id ∈ parts.map Tree.id ∨ (id ∈ store.moving ∧ id ≠ tree.id)) ∧
      Workpiece base old later taken' (parts ++ trees) := by
  obtain ⟨-, -, hlive⟩ := h.live_of_claim hold (List.mem_cons_self ..) hclaim
  obtain ⟨later, hrun, hdraft⟩ := h.draft.dissolve_narrow hlive hparts hnodup
  obtain ⟨hnodes, -, hmoving⟩ := Build.mapM_take_cases
    ((Build.bind_ok (Build.run_modify _ store)).symm.trans hrun)
  have hlater : ∀ x, x ∈ later.moving ↔
      x ∈ parts.map Tree.id ∨ (x ∈ store.moving ∧ x ≠ tree.id) := by
    intro x
    rw [hmoving, Store.mem_moving_forgetMove]
  refine ⟨later, _, hrun, hlater, hdraft, fun id => h.below_of_dissolved hold hclaim hparts hlater,
    fun root other => h.apart_of_dissolved hold hclaim hparts hlater hnodup, fun x hx => ?_,
    fun x hnew hlt hnone hawake => ?_⟩
  · rcases List.mem_append.mp hx with hpart | hrest
    · obtain ⟨part, hmem, hin⟩ := List.mem_flatMap.mp hpart
      exact ⟨part.id, (hlater _).mpr (.inl (List.mem_map_of_mem hmem)),
        (hlive.of_mem (hparts part hmem)).preorder ▸ hin⟩
    · simp only [List.mem_filter, decide_eq_true_eq] at hrest
      obtain ⟨root, hroot, hin⟩ := h.taken x hrest.1
      refine ⟨root, (hlater root).mpr (.inr ⟨hroot, ?_⟩), hin⟩
      rintro rfl
      rw [hlive.preorder] at hin
      exact hrest.2 hin
  · have hsame : later.node x = store.node x := by
      rw [Store.node, hnodes]
      rfl
    rw [Store.parent, hsame] at hnone
    rw [Store.isErased, hsame] at hawake
    have hroot := h.loose x hnew (by rwa [Store.size, hnodes] at hlt) hnone hawake
    rw [List.map_append]
    refine List.mem_append_right _ ((List.mem_cons.mp hroot).resolve_left ?_)
    rintro rfl
    exact Nat.not_lt.mpr hnew (hlive.laid.lt tree.id_mem_ids)

end Dissolved

end Workpiece

/-! ## Parts of a new tree -/

namespace Store

variable {store : Store} {ids : List NodeId} {x : NodeId}

def clearParents (store : Store) (ids : List NodeId) : Store :=
  ids.foldl Store.clearParent store

theorem node_clearParent (id : NodeId) : (store.clearParent id).node x =
    if x = id then { store.node x with parent := none } else store.node x := by
  by_cases hx : x = id
  · subst hx
    rw [if_pos rfl]
    by_cases hlt : x < store.size
    · exact node_modify_self _ _ hlt
    · have hge := Nat.not_lt.mp hlt
      rw [node_of_size_le hge, node_of_size_le (by rwa [clearParent, size_modify])]
      rfl
  · rw [if_neg hx]
    exact node_modify_of_ne _ _ (fun he => hx he.symm)

theorem node_clearParents : (store.clearParents ids).node x =
    if x ∈ ids then { store.node x with parent := none } else store.node x := by
  induction ids generalizing store with
  | nil => simp [clearParents]
  | cons id ids ih =>
      have hnext : store.clearParents (id :: ids) = (store.clearParent id).clearParents ids := rfl
      rw [hnext, ih, node_clearParent]
      by_cases hid : x = id <;> by_cases hin : x ∈ ids <;> simp [hid, hin]

theorem fades_clearParents (ids : List NodeId) : store.Fades (store.clearParents ids) := by
  have hshape : (store.clearParents ids).size = store.size ∧
      (store.clearParents ids).types = store.types ∧
      (store.clearParents ids).moves = store.moves := by
    induction ids generalizing store with
    | nil => exact ⟨rfl, rfl, rfl⟩
    | cons id ids ih =>
        obtain ⟨hsize, htypes, hmoves⟩ := @ih (store.clearParent id)
        exact ⟨hsize.trans (store.size_modify _ _), htypes, hmoves⟩
  refine ⟨hshape.1, hshape.2.1, hshape.2.2, fun id => ?_, fun id => ?_, fun id h => ?_⟩
  · rw [kind, node_clearParents]
    split <;> rfl
  · rw [node_clearParents]
    split <;> rfl
  · rw [isErased, node_clearParents]
    split <;> exact h

/-- What is planned where a new node is broken apart: its taken parts are on the move again, and
its new ones have no parent. -/
def handOut (store : Store) (ids : List NodeId) : Store :=
  { store.clearParents (ids.filter (fun id => (store.claim? id).isNone)) with
    moves := store.moves.map (fun move => if move.node ∈ ids then ⟨move.node, none⟩ else move) }

theorem node_handOut : (store.handOut ids).node x =
    if x ∈ ids ∧ store.claim? x = none then { store.node x with parent := none }
    else store.node x := by
  have hnode : (store.handOut ids).node x =
      (store.clearParents (ids.filter (fun id => (store.claim? id).isNone))).node x := rfl
  rw [hnode, node_clearParents]
  simp only [List.mem_filter, Option.isNone_iff_eq_none]

/-- The plan after a new tree was broken up, down to what stands in the slots inside its
parentheses. -/
def brokenUp (store : Store) (tree : Tree) : Store :=
  (store.handOut (tree.bare.subs.map Tree.id)).erase tree.id

variable {tree : Tree}

theorem size_brokenUp : (store.brokenUp tree).size = store.size :=
  (fades_erase _).size.trans (fades_clearParents _).size

theorem types_brokenUp : (store.brokenUp tree).types = store.types :=
  (fades_erase _).types.trans (fades_clearParents _).types

theorem moves_brokenUp : (store.brokenUp tree).moves =
    store.moves.map (fun move =>
      if move.node ∈ tree.bare.subs.map Tree.id then ⟨move.node, none⟩ else move) :=
  (fades_erase _).moves

theorem moving_brokenUp (store : Store) (tree : Tree) :
    (store.brokenUp tree).moving = store.moving := by
  rw [moving, moves_brokenUp, List.map_map]
  refine List.map_congr_left fun move _ => ?_
  simp only [Function.comp_apply]
  split <;> rfl

theorem claim?_brokenUp : (store.brokenUp tree).claim? x =
    if x ∈ tree.bare.subs.map Tree.id then (store.claim? x).map (fun _ => none)
    else store.claim? x :=
  claim?_map_moves moves_brokenUp x

theorem grows_brokenUp : store.Grows (store.brokenUp tree) where
  size := Nat.le_of_eq size_brokenUp.symm
  types number desc hknown := by
    rw [types_brokenUp]
    exact hknown

end Store

namespace Tree

variable {tree : Tree} {x : NodeId}

/-- A node that is in no slot of what the parentheses hold has all of that below it. -/
theorem exists_above_bare (hx : x ∈ tree.ids) (hout : x ∉ tree.bare.subs.flatMap ids) :
    ∃ above ∈ tree.subtrees, above.id = x ∧ tree.bare ∈ above.subtrees := by
  induction tree with
  | node i head type subs ih =>
      rw [ids_node] at hx
      rcases List.mem_cons.mp hx with rfl | hx
      · exact ⟨_, mem_subtrees_self _, rfl, bare_mem_subtrees _⟩
      · unfold bare at hout ⊢
        split at hout
        · next type' inner heq =>
            cases heq
            rw [List.flatMap_singleton] at hx
            obtain ⟨above, habove, hid, hin⟩ := ih inner (List.mem_singleton_self _) hx hout
            exact ⟨above, mem_subtrees_of_sub (List.mem_singleton_self _) habove, hid, hin⟩
        · exact absurd hx hout

theorem mem_remnant_bare (hnodup : tree.ids.Nodup) :
    x ∈ tree.remnant (tree.bare.subs.map id) ↔
      x ∈ tree.ids ∧ x ∉ tree.bare.subs.flatMap ids := by
  rw [mem_remnant_iff hnodup]
  refine and_congr_right fun _ => ⟨fun hall hin => ?_, fun hout below hbelow hcut hin => ?_⟩
  · obtain ⟨sub, hsub, hin⟩ := List.mem_flatMap.mp hin
    exact hall sub (slot_mem_subtrees tree.bare_mem_subtrees hsub) (List.mem_map_of_mem hsub) hin
  · obtain ⟨sub, hsub, hid⟩ := List.mem_map.mp hcut
    obtain rfl := eq_of_id_eq hnodup
      (slot_mem_subtrees tree.bare_mem_subtrees hsub) hbelow hid
    exact hout (List.mem_flatMap.mpr ⟨sub, hsub, hin⟩)

theorem slots_bare_subset (tree : Tree) : tree.bare.subs.flatMap ids ⊆ tree.ids :=
  List.Subset.trans (slots_subset_ids _) (ids_subset_of_mem tree.bare_mem_subtrees)

theorem id_not_mem_slots_bare (hnodup : tree.ids.Nodup) :
    tree.id ∉ tree.bare.subs.flatMap ids := by
  intro hin
  obtain ⟨sub, hsub, hin⟩ := List.mem_flatMap.mp hin
  obtain ⟨below, hbelow, hid⟩ := mem_ids_iff.mp hin
  have hmem := mem_subtrees_trans hbelow (slot_mem_subtrees tree.bare_mem_subtrees hsub)
  exact id_ne_of_mem hnodup hmem (ne_of_mem_slot tree.bare_mem_subtrees hsub hbelow) hid.symm

end Tree

namespace Workpiece

variable {base store later : Store} {old tree : Tree} {taken : List NodeId} {trees : List Tree}
  {x : NodeId}

/-- An old node of a loose tree keeps its parent in the live tree. -/
theorem parent_lt (h : Workpiece base old store taken trees) (hold : old.Rooted base)
    (hx : x ∈ trees.flatMap Tree.ids) (hlt : x < base.size) :
    ∃ owner, owner < base.size ∧ store.parent x = some owner :=
  h.owned_of_below hold
    (h.taken_below hold ((h.draft.origin x hx).resolve_left (Nat.not_le.mpr hlt)))

/-- A tree whose inside is new holds old nodes in the slots of the inside only. -/
theorem new_of_left (h : Workpiece base old store taken (tree :: trees)) (hold : old.Rooted base)
    (hinner : base.size ≤ tree.bare.id) (hx : x ∈ tree.ids)
    (hout : x ∉ tree.bare.subs.flatMap Tree.ids) : base.size ≤ x := by
  by_contra hge
  have hlt := Nat.not_le.mp hge
  have htree : tree ∈ tree :: trees := List.mem_cons_self ..
  obtain ⟨above, habove, rfl, hbare⟩ := Tree.exists_above_bare hx hout
  have horigin := h.draft.origin above.id (List.mem_flatMap.mpr ⟨tree, htree, hx⟩)
  obtain ⟨part, hpart, hid, -, hlive⟩ := exists_live hold
    (h.taken_below hold (horigin.resolve_left hge))
  -- the subtree of an old node is the one of the live tree
  obtain rfl := (h.draft.laid_old hlive.laid).unique ((h.draft.laid htree).of_mem habove) hid
  exact absurd (hlive.laid.lt (Tree.ids_subset_of_mem hbare tree.bare.id_mem_ids))
    (Nat.not_lt.mpr hinner)

/-- A node in a slot of the inside is new and linked to it, or was taken and is claimed by it. -/
theorem slot_cases (h : Workpiece base old store taken (tree :: trees)) (hold : old.Rooted base)
    (hinner : base.size ≤ tree.bare.id) {sub : Tree} (hsub : sub ∈ tree.bare.subs) :
    (base.size ≤ sub.id ∧ store.claim? sub.id = none) ∨
      ((∃ owner, store.parent sub.id = some owner ∧ owner < base.size) ∧
        store.claim? sub.id = some (some tree.bare.id)) := by
  have htree : tree ∈ tree :: trees := List.mem_cons_self ..
  have hlink := ((h.draft.held tree htree).of_slot tree.bare_mem_subtrees hsub).link
  rw [Store.parent, h.draft.node_settle] at hlink
  have hin : sub.id ∈ tree.ids := Tree.ids_subset_of_mem
    (Tree.slot_mem_subtrees tree.bare_mem_subtrees hsub) sub.id_mem_ids
  by_cases hnew : base.size ≤ sub.id
  · exact .inl ⟨hnew, h.draft.claim?_new hnew⟩
  · obtain ⟨owner, hlt, howner⟩ := h.parent_lt hold
      (List.mem_flatMap.mpr ⟨tree, htree, hin⟩) (Nat.not_le.mp hnew)
    refine .inr ⟨⟨owner, howner, hlt⟩, ?_⟩
    have hraw : store.parent sub.id ≠ some tree.bare.id := by
      rw [howner]
      rintro ⟨⟩
      exact Nat.not_lt.mpr hinner hlt
    cases hclaim : store.claim? sub.id with
    | none => exact absurd ((Store.link_of_unclaimed (.inl hclaim)).symm.trans hlink) hraw
    | some claim =>
        cases claim with
        | none => exact absurd ((Store.link_of_unclaimed (.inr hclaim)).symm.trans hlink) hraw
        | some holder =>
            have hsame : some holder = some tree.bare.id :=
              (Store.link_of_claimed hclaim).symm.trans hlink
            rw [hsame]

/-- In a store that agrees with the workpiece on what is dropped, and in which no part is linked
to a new node, the parts of a tree are cut off. -/
theorem isCut (h : Workpiece base old store taken (tree :: trees)) (hold : old.Rooted base)
    (hinner : base.size ≤ tree.bare.id) (hkind : ∀ id, later.kind id = store.kind id)
    (hleft : ∀ id, id ∈ tree.remnant (tree.bare.subs.map Tree.id) →
      later.parent id = store.parent id)
    (hparts : ∀ id, id ∈ tree.bare.subs.map Tree.id → ∀ owner,
      later.parent id = some owner → owner < base.size) :
    later.IsCut (tree.bare.subs.map Tree.id) tree := by
  have htree : tree ∈ tree :: trees := List.mem_cons_self ..
  have hnodup := h.draft.nodup_ids htree
  have hnew : ∀ id, id ∈ tree.remnant (tree.bare.subs.map Tree.id) → base.size ≤ id := by
    intro id hid
    obtain ⟨hin, hout⟩ := (Tree.mem_remnant_bare hnodup).mp hid
    exact h.new_of_left hold hinner hin hout
  intro holder hholder hin
  refine ⟨?_, fun sub hsub => ?_⟩
  · have hlaid := (h.draft.laid htree).of_mem hholder
    rw [Store.children, hkind]
    cases holder with
    | node id head type subs => exact hlaid.shown_by.children
  · by_cases hcut : sub.id ∈ tree.bare.subs.map Tree.id
    · exact iff_of_false
        (fun hlink => Nat.not_lt.mpr (hnew _ hin) (hparts _ hcut _ hlink)) (not_not.mpr hcut)
    · refine iff_of_true ?_ hcut
      have hsubIn := Tree.slot_mem_remnant hnodup hholder hin hsub hcut
      have hlink := ((h.draft.held tree htree).of_slot hholder hsub).link
      rw [Store.parent, h.draft.node_settle] at hlink
      rw [hleft _ hsubIn, ← hlink]
      exact (Store.link_of_unclaimed (.inl (h.draft.claim?_new (hnew _ hsubIn)))).symm

section BrokenUp

variable (h : Workpiece base old store taken (tree :: trees)) (hold : old.Rooted base)
  (hinner : base.size ≤ tree.bare.id)

include h in
theorem nodup_tree : tree.ids.Nodup :=
  h.draft.nodup_ids (List.mem_cons_self ..)

include h in
theorem mem_remnant : x ∈ tree.remnant (tree.bare.subs.map Tree.id) ↔
    x ∈ tree.ids ∧ x ∉ tree.bare.subs.flatMap Tree.ids :=
  Tree.mem_remnant_bare h.nodup_tree

include h in
theorem id_not_mem_parts : tree.id ∉ tree.bare.subs.map Tree.id := by
  intro hin
  obtain ⟨sub, hsub, hid⟩ := List.mem_map.mp hin
  exact Tree.id_not_mem_slots_bare h.nodup_tree
    (List.mem_flatMap.mpr ⟨sub, hsub, hid ▸ sub.id_mem_ids⟩)

include h hold hinner in
theorem new_of_remnant (hx : x ∈ tree.remnant (tree.bare.subs.map Tree.id)) : base.size ≤ x :=
  h.new_of_left hold hinner (h.mem_remnant.mp hx).1 (h.mem_remnant.mp hx).2

include h in
theorem not_mem_parts (hx : x ∈ tree.remnant (tree.bare.subs.map Tree.id)) :
    x ∉ tree.bare.subs.map Tree.id := by
  intro hpart
  obtain ⟨sub, hsub, rfl⟩ := List.mem_map.mp hpart
  exact (h.mem_remnant.mp hx).2 (List.mem_flatMap.mpr ⟨sub, hsub, sub.id_mem_ids⟩)

include h hold hinner in
theorem node_brokenUp : (store.brokenUp tree).node x =
    if x ∈ tree.remnant (tree.bare.subs.map Tree.id) then (store.node x).retired
    else if x ∈ tree.bare.subs.map Tree.id ∧ store.claim? x = none then
      { store.node x with parent := none }
    else store.node x := by
  have hcut : (store.handOut (tree.bare.subs.map Tree.id)).IsCut
      (tree.bare.subs.map Tree.id) tree := by
    refine h.isCut hold hinner (fun id => ?_) (fun id hid => ?_) (fun id hid owner howner => ?_)
    · rw [Store.kind, Store.node_handOut]
      split <;> rfl
    · rw [Store.parent, Store.node_handOut, if_neg (fun hboth => h.not_mem_parts hid hboth.1)]
      rfl
    · obtain ⟨sub, hsub, rfl⟩ := List.mem_map.mp hid
      rw [Store.parent, Store.node_handOut] at howner
      rcases h.slot_cases hold hinner hsub with ⟨-, hclaim⟩ | ⟨⟨above, habove, hlt⟩, hclaim⟩
      · rw [if_pos ⟨hid, hclaim⟩] at howner
        cases howner
      · rw [if_neg (by simp [hclaim])] at howner
        rw [Store.parent, howner] at habove
        cases habove
        exact hlt
  have hlt : tree.id < (store.handOut (tree.bare.subs.map Tree.id)).size := by
    rw [show (store.handOut _).size = store.size from (Store.fades_clearParents _).size]
    exact h.draft.lt (List.mem_cons_self ..)
  rw [Store.brokenUp, Store.node_erase_cut hcut h.id_not_mem_parts hlt h.nodup_tree]
  split
  · next hin =>
      rw [Store.node_handOut, if_neg (fun hboth => h.not_mem_parts hin hboth.1)]
  · exact Store.node_handOut

include h hold hinner in
theorem node_brokenUp_of_not_mem (hx : x ∉ tree.remnant (tree.bare.subs.map Tree.id))
    (hpart : x ∉ tree.bare.subs.map Tree.id) : (store.brokenUp tree).node x = store.node x := by
  rw [h.node_brokenUp hold hinner, if_neg hx, if_neg (fun hboth => hpart hboth.1)]

include h hold hinner in
theorem node_brokenUp_of_lt (hx : x < base.size) : (store.brokenUp tree).node x = store.node x := by
  have hclaimed : ¬ (x ∈ tree.bare.subs.map Tree.id ∧ store.claim? x = none) := by
    rintro ⟨hpart, hclaim⟩
    obtain ⟨sub, hsub, rfl⟩ := List.mem_map.mp hpart
    rcases h.slot_cases hold hinner hsub with ⟨hnew, -⟩ | ⟨-, hsome⟩
    · exact Nat.not_lt.mpr hnew hx
    · rw [hclaim] at hsome
      cases hsome
  rw [h.node_brokenUp hold hinner,
    if_neg (fun hin => Nat.not_lt.mpr (h.new_of_remnant hold hinner hin) hx), if_neg hclaimed]

include h in
theorem node_settle_brokenUp : (store.brokenUp tree).settle.node x =
    { (store.brokenUp tree).node x with parent := (store.brokenUp tree).link x } := by
  have hnodup : ((store.brokenUp tree).moves.map Move.node).Nodup := by
    rw [show (store.brokenUp tree).moves.map Move.node = store.moves.map Move.node from
      Store.moving_brokenUp ..]
    exact h.draft.once
  refine Store.node_settle hnodup (fun move hmove => ?_) x
  have hin : move.node ∈ store.moving :=
    Store.moving_brokenUp store tree ▸ List.mem_map_of_mem hmove
  obtain ⟨before, hbefore, he⟩ := List.mem_map.mp hin
  rw [Store.size_brokenUp, ← he]
  exact h.draft.moved_lt hbefore

include h hold hinner in
theorem settle_brokenUp_of_not_mem (hx : x ∉ tree.remnant (tree.bare.subs.map Tree.id))
    (hpart : x ∉ tree.bare.subs.map Tree.id) :
    (store.brokenUp tree).settle.node x = store.settle.node x ∧
      (store.brokenUp tree).link x = store.link x := by
  have hnode := h.node_brokenUp_of_not_mem hold hinner hx hpart
  have hlink : (store.brokenUp tree).link x = store.link x := by
    rw [Store.link, Store.link, Store.claim?_brokenUp, if_neg hpart, Store.parent, hnode]
    rfl
  rw [h.node_settle_brokenUp, hnode, hlink, h.draft.node_settle]
  exact ⟨rfl, rfl⟩

include h hold hinner in
theorem held_part {sub : Tree} (hsub : sub ∈ tree.bare.subs) :
    sub.Held (store.brokenUp tree).settle ((store.brokenUp tree).link sub.id) := by
  have htree : tree ∈ tree :: trees := List.mem_cons_self ..
  have hin := Tree.slot_mem_subtrees tree.bare_mem_subtrees hsub
  refine ((h.draft.held tree htree).of_slot tree.bare_mem_subtrees hsub).relink
    Store.grows_brokenUp.settle ?_ (fun x hx => ?_)
  · have hleft : sub.id ∉ tree.remnant (tree.bare.subs.map Tree.id) := fun hleft =>
      h.not_mem_parts hleft (List.mem_map_of_mem hsub)
    rw [h.node_settle_brokenUp, h.node_brokenUp hold hinner, if_neg hleft, h.draft.node_settle]
    split <;> rfl
  · have hbelow : x ∈ sub.ids := Tree.slots_subset_ids _ hx
    have hslot : x ∈ tree.bare.subs.flatMap Tree.ids := List.mem_flatMap.mpr ⟨sub, hsub, hbelow⟩
    refine (h.settle_brokenUp_of_not_mem hold hinner
      (fun hleft => (h.mem_remnant.mp hleft).2 hslot) (fun hpart => ?_)).1
    obtain ⟨other, hother, rfl⟩ := List.mem_map.mp hpart
    have hslots := Tree.nodup_slots (Tree.nodup_ids_of_mem h.nodup_tree tree.bare_mem_subtrees)
    obtain rfl := Tree.eq_of_common_id hslots hother hsub other.id_mem_ids hbelow
    exact Tree.id_not_mem_slots (Tree.nodup_ids_of_mem h.nodup_tree hin) hx

include h in
/-- A node beside the tree is neither dropped nor a part. -/
theorem not_mem_of_rest {other : Tree} (hother : other ∈ trees) (hx : x ∈ other.ids) :
    x ∉ tree.remnant (tree.bare.subs.map Tree.id) ∧ x ∉ tree.bare.subs.map Tree.id := by
  have hapart := h.draft.apart
  rw [List.flatMap_cons, List.nodup_append'] at hapart
  have hout : x ∉ tree.ids := fun hin =>
    hapart.2.2 hin (List.mem_flatMap.mpr ⟨other, hother, hx⟩)
  refine ⟨fun hleft => hout (h.mem_remnant.mp hleft).1, fun hpart => hout ?_⟩
  obtain ⟨sub, hsub, rfl⟩ := List.mem_map.mp hpart
  exact tree.slots_bare_subset (List.mem_flatMap.mpr ⟨sub, hsub, sub.id_mem_ids⟩)

include h hold hinner in
theorem typed_brokenUp : (store.brokenUp tree).TypesKnown := by
  intro id number hnumber
  have htype : ((store.brokenUp tree).node id).type = (store.node id).type := by
    rw [h.node_brokenUp hold hinner]
    split
    · rfl
    · split <;> rfl
  rw [Store.types_brokenUp]
  exact h.draft.typed id number (htype ▸ hnumber)

include h hold hinner in
/-- A move of a part is unclaimed again, and no other move changes. -/
theorem moved_brokenUp {move : Move} (hmove : move ∈ (store.brokenUp tree).moves) :
    move.node < base.size ∧ move.node ∈ (tree.bare.subs ++ trees).flatMap Tree.ids ∧
      (move.claim = none → move.node ∈ (tree.bare.subs ++ trees).map Tree.id) ∧
      ∀ holder, move.claim = some holder → base.size ≤ holder := by
  rw [Store.moves_brokenUp] at hmove
  obtain ⟨before, hbefore, rfl⟩ := List.mem_map.mp hmove
  obtain ⟨hlt, hin, hroot, hholder⟩ := h.draft.moving before hbefore
  have hbelow : before.node ∈ (tree.bare.subs ++ trees).flatMap Tree.ids := by
    rw [List.flatMap_cons] at hin
    rw [List.flatMap_append]
    refine List.mem_append.mpr ((List.mem_append.mp hin).imp_left fun hin => ?_)
    by_contra hout
    exact Nat.not_lt.mpr (h.new_of_left hold hinner hin hout) hlt
  rw [List.map_append]
  by_cases hpart : before.node ∈ tree.bare.subs.map Tree.id
  · rw [if_pos hpart]
    exact ⟨hlt, hbelow, fun _ => List.mem_append_left _ hpart, fun _ hclaim => by cases hclaim⟩
  · rw [if_neg hpart]
    refine ⟨hlt, hbelow, fun hnone => List.mem_append_right _ ?_, hholder⟩
    refine (List.mem_cons.mp (hroot hnone)).resolve_left fun he => ?_
    have hnew := h.new_of_left hold hinner tree.id_mem_ids (Tree.id_not_mem_slots_bare h.nodup_tree)
    exact Nat.not_lt.mpr hnew (he ▸ hlt)

include h hold hinner in
/-- A part is on the move again, or has no parent. -/
theorem loose_part {sub : Tree} (hsub : sub ∈ tree.bare.subs) :
    (store.brokenUp tree).isErased sub.id = false ∧ (store.brokenUp tree).IsLoose sub.id ∧
      ((store.brokenUp tree).claim? sub.id = none → base.size ≤ sub.id) := by
  have hpart : sub.id ∈ tree.bare.subs.map Tree.id := List.mem_map_of_mem hsub
  have hleft : sub.id ∉ tree.remnant (tree.bare.subs.map Tree.id) := fun hleft =>
    h.not_mem_parts hleft hpart
  obtain ⟨owner, hbare⟩ :=
    (h.draft.held tree (List.mem_cons_self ..)).of_mem tree.bare_mem_subtrees
  have hlive := hbare.live hsub
  rw [Store.isErased, h.draft.node_settle] at hlive
  unfold Store.IsLoose
  rw [Store.isErased, Store.parent, h.node_brokenUp hold hinner, if_neg hleft,
    Store.claim?_brokenUp, if_pos hpart]
  rcases h.slot_cases hold hinner hsub with ⟨hnew, hclaim⟩ | ⟨⟨above, habove, -⟩, hclaim⟩
  · rw [if_pos ⟨hpart, hclaim⟩, hclaim]
    exact ⟨hlive, .inr ⟨rfl, rfl⟩, fun _ => hnew⟩
  · rw [if_neg (by simp [hclaim]), hclaim]
    refine ⟨hlive, .inl ⟨rfl, ?_⟩, fun hnone => by cases hnone⟩
    rw [Store.parent] at habove
    rw [habove]
    rfl

include h hold hinner in
theorem draft_brokenUp : Draft base taken (store.brokenUp tree) (tree.bare.subs ++ trees) where
  grows := h.draft.grows.trans Store.grows_brokenUp
  old x hx := by rw [h.node_brokenUp_of_lt hold hinner hx, h.draft.old x hx]
  typed := h.typed_brokenUp hold hinner
  once := by
    rw [show (store.brokenUp tree).moves.map Move.node = store.moves.map Move.node from
      Store.moving_brokenUp ..]
    exact h.draft.once
  moving _ hmove := h.moved_brokenUp hold hinner hmove
  held other hin := by
    rcases List.mem_append.mp hin with hsub | hin
    · exact h.held_part hold hinner hsub
    · have hsame := fun x hx => h.settle_brokenUp_of_not_mem hold hinner
        (h.not_mem_of_rest hin (x := x) hx).1 (h.not_mem_of_rest hin hx).2
      rw [(hsame other.id other.id_mem_ids).2]
      refine (h.draft.held other (List.mem_cons_of_mem _ hin)).mono
        Store.grows_brokenUp.settle (fun x hx => (hsame x (Tree.shown_subset_ids _ _ hx)).1)
  loose other hin := by
    rcases List.mem_append.mp hin with hsub | hin
    · exact h.loose_part hold hinner hsub
    · obtain ⟨hleft, hpart⟩ := h.not_mem_of_rest hin other.id_mem_ids
      unfold Store.IsLoose
      rw [Store.isErased, Store.parent, h.node_brokenUp_of_not_mem hold hinner hleft hpart,
        Store.claim?_brokenUp, if_neg hpart]
      exact h.draft.loose other (List.mem_cons_of_mem _ hin)
  apart := by
    have hapart := h.draft.apart
    rw [List.flatMap_cons, List.nodup_append'] at hapart
    rw [List.flatMap_append, List.nodup_append']
    exact ⟨Tree.nodup_slots (Tree.nodup_ids_of_mem hapart.1 tree.bare_mem_subtrees), hapart.2.1,
      fun x hx => hapart.2.2 (tree.slots_bare_subset hx)⟩
  origin x hx := by
    refine h.draft.origin x ?_
    rw [List.flatMap_append] at hx
    rw [List.flatMap_cons]
    exact List.mem_append.mpr ((List.mem_append.mp hx).imp_left (tree.slots_bare_subset ·))

include h hold hinner in
/-- Breaking a new tree up: what it held is loose, in its old place or without parent. -/
theorem brokenUp : Workpiece base old (store.brokenUp tree) taken (tree.bare.subs ++ trees) where
  draft := h.draft_brokenUp hold hinner
  below := Store.moving_brokenUp store tree ▸ h.below
  apart := Store.moving_brokenUp store tree ▸ h.apart
  taken := Store.moving_brokenUp store tree ▸ h.taken
  loose x hnew hlt hnone hlive := by
    rw [Store.size_brokenUp] at hlt
    rw [Store.parent, h.node_brokenUp hold hinner] at hnone
    rw [Store.isErased, h.node_brokenUp hold hinner] at hlive
    rw [List.map_append]
    have hleft : x ∉ tree.remnant (tree.bare.subs.map Tree.id) := by
      intro hleft
      rw [if_pos hleft] at hlive
      cases hlive
    by_cases hpart : x ∈ tree.bare.subs.map Tree.id
    · exact List.mem_append_left _ hpart
    · rw [if_neg hleft, if_neg (fun hboth => hpart hboth.1)] at hnone hlive
      refine List.mem_append_right _
        ((List.mem_cons.mp (h.loose x hnew hlt hnone hlive)).resolve_left ?_)
      rintro rfl
      exact hleft (Tree.id_mem_remnant h.id_not_mem_parts)

end BrokenUp

end Workpiece

end CodeTidy
