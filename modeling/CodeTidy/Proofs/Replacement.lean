import CodeTidy.Proofs.Building

/-!
# Replacing a subtree by one that is built from its parts

When a replacement is committed, it stands in the slot of the target, the taken subtrees are
where they were put, and what is left of the target is erased; nothing else changes
(`Build.commit_replacement`).
-/

namespace CodeTidy

/-! ## Committing -/

/-- The moment before a replacement is committed: `new` is the only loose tree that is on
the move, if it is. -/
structure Replacing (base : Store) (tree holder old : Tree) (store : Store) (taken : List NodeId)
    (trees : List Tree) (new : Tree) : Prop where
  piece : Workpiece base old store taken trees
  held : tree.Held base (base.parent tree.id)
  nodup : tree.ids.Nodup
  above : holder ∈ tree.subtrees
  slot : old ∈ holder.subs
  loose : new ∈ trees
  placed : ∀ move, move ∈ store.moves → move.claim = none → move.node = new.id

/-- The store after the slot of `old` in `holder`, which is now of the given kind, was handed
to `new`, and what was left of `old` was erased. -/
def Store.exchanged (store : Store) (holder old new : NodeId) (kind : Kind) : Store :=
  ((store.settle.setKind holder kind).placed new holder).erase old

theorem Store.keeps_exchanged (store : Store) (holder old new : NodeId) (kind : Kind) :
    store.settle.Keeps (store.exchanged holder old new kind) :=
  ((Store.keeps_setKind _ holder kind).trans (Store.keeps_placed _ new holder)).trans
    (Store.fades_erase old).keeps

namespace Replacing

variable {base store : Store} {tree holder old new : Tree} {taken : List NodeId}
  {trees : List Tree} {kind : Kind} {x : NodeId}

theorem old_mem (h : Replacing base tree holder old store taken trees new) :
    old ∈ tree.subtrees :=
  Tree.slot_mem_subtrees h.above h.slot

theorem live (h : Replacing base tree holder old store taken trees new) : old.Live base := by
  refine ⟨⟨holder.id, h.held.of_slot h.above h.slot⟩, ?_, Tree.nodup_ids_of_mem h.nodup h.old_mem⟩
  obtain ⟨above, habove⟩ := h.held.of_mem h.above
  exact habove.live h.slot

/-- The holder of the slot is not in the subtree of the target. -/
theorem holder_not_mem (h : Replacing base tree holder old store taken trees new) :
    holder.id ∉ old.ids :=
  Tree.id_not_mem_slot (Tree.nodup_ids_of_mem h.nodup h.above) h.slot

theorem lt_of_mem (h : Replacing base tree holder old store taken trees new) (hx : x ∈ tree.ids) :
    x < base.size :=
  h.held.laid.lt hx

theorem new_source (h : Replacing base tree holder old store taken trees new) :
    base.size ≤ new.id ∨ new.id ∈ store.moving := by
  rcases (h.piece.draft.loose new h.loose).2.1 with ⟨hclaim, -⟩ | ⟨hclaim, -⟩
  · exact .inr (Store.mem_moving_of_claim? hclaim)
  · exact .inl ((h.piece.draft.loose new h.loose).2.2 hclaim)

/-- A node of the live tree that is not below the target is not the replacement. -/
theorem ne_new (h : Replacing base tree holder old store taken trees new) (hx : x < base.size)
    (hmoving : x ∉ store.moving) : x ≠ new.id := by
  rintro rfl
  rcases h.new_source with hnew | hmove
  · exact Nat.not_lt.mpr hnew hx
  · exact hmoving hmove

theorem holder_not_moving (h : Replacing base tree holder old store taken trees new) :
    holder.id ∉ store.moving :=
  fun hmove => h.holder_not_mem (Tree.slots_subset_ids _ (h.piece.below _ hmove))

theorem node_settle_of_lt (h : Replacing base tree holder old store taken trees new)
    (hx : x < base.size) (hmoving : x ∉ store.moving) : store.settle.node x = base.node x := by
  have hclaim : store.claim? x = none := by
    rw [Store.claim?_eq_none_iff]
    rintro move hmove rfl
    exact hmoving (List.mem_map_of_mem hmove)
  have hlink : store.link x = (store.node x).parent := Store.link_of_unclaimed (.inl hclaim)
  rw [h.piece.draft.node_settle, hlink, h.piece.draft.old x hx]

theorem old_not_moving (h : Replacing base tree holder old store taken trees new) :
    old.id ∉ store.moving :=
  fun hmove => Tree.id_not_mem_slots h.live.nodup (h.piece.below _ hmove)

theorem parent_settle (h : Replacing base tree holder old store taken trees new) :
    store.settle.parent old.id = some holder.id := by
  rw [Store.parent, h.node_settle_of_lt (h.live.laid.lt old.id_mem_ids) h.old_not_moving]
  exact (h.held.of_slot h.above h.slot).link

theorem holder_lt (h : Replacing base tree holder old store taken trees new) :
    holder.id < base.size :=
  h.lt_of_mem (Tree.mem_ids_iff.mpr ⟨holder, h.above, rfl⟩)

/-- The store in which the slot was handed over and nothing is erased yet. -/
theorem node_placed (h : Replacing base tree holder old store taken trees new) (x : NodeId) :
    ((store.settle.setKind holder.id kind).placed new.id holder.id).node x =
      if x = new.id then { store.settle.node x with parent := some holder.id }
      else if x = holder.id then { store.settle.node x with kind := kind }
      else store.settle.node x := by
  have hholder : holder.id < store.settle.size := by
    rw [Store.size_settle]
    exact Nat.lt_of_lt_of_le h.holder_lt h.piece.draft.grows.size
  have hnew : new.id < (store.settle.setKind holder.id kind).size := by
    rw [Store.size_setKind, Store.size_settle]
    exact h.piece.draft.lt h.loose
  rw [Store.node_placed hnew, Store.node_setKind hholder]
  by_cases hx : x = new.id
  · have hne : x ≠ holder.id := by
      rintro rfl
      exact h.ne_new h.holder_lt h.holder_not_moving hx
    rw [if_pos hx, if_pos hx, if_neg hne]
  · rw [if_neg hx, if_neg hx]

/-- In the store before erasing, the subtrees of the moving nodes are cut off. -/
theorem isCut (h : Replacing base tree holder old store taken trees new) :
    ((store.settle.setKind holder.id kind).placed new.id holder.id).IsCut store.moving old := by
  intro above habove _
  have hlaid := h.live.laid.of_mem habove
  have hlt : ∀ id, id ∈ old.ids → id < base.size := fun id hid => h.live.laid.lt hid
  have haboveIn : above.id ∈ old.ids := Tree.mem_ids_iff.mpr ⟨above, habove, rfl⟩
  refine ⟨?_, fun sub hsub => ?_⟩
  · have hkind : ((store.settle.setKind holder.id kind).placed new.id holder.id).kind above.id =
        base.kind above.id := by
      have hne : above.id ≠ holder.id := fun he => h.holder_not_mem (he ▸ haboveIn)
      rw [Store.kind, h.node_placed, if_neg hne, h.piece.draft.node_settle,
        h.piece.draft.old _ (hlt _ haboveIn)]
      split <;> rfl
    rw [Store.children, hkind]
    cases above with
    | node id head type subs => exact hlaid.shown_by.children
  · have hsubIn : sub.id ∈ old.ids := Tree.mem_ids_iff.mpr
      ⟨sub, Tree.slot_mem_subtrees habove hsub, rfl⟩
    have hneHolder : sub.id ≠ holder.id := fun he => h.holder_not_mem (he ▸ hsubIn)
    by_cases hmoving : sub.id ∈ store.moving
    · refine iff_of_false ?_ (not_not.mpr hmoving)
      obtain ⟨move, hmove, hnode⟩ := List.mem_map.mp hmoving
      rw [Store.parent, h.node_placed]
      by_cases hne : sub.id = new.id
      · rw [if_pos hne]
        exact fun he => h.holder_not_mem (Option.some.inj he ▸ haboveIn)
      · rw [if_neg hne, if_neg hneHolder, h.piece.draft.node_settle]
        cases hclaim : move.claim with
        | none => exact absurd (hnode ▸ h.placed move hmove hclaim) hne
        | some claimer =>
            have hnew := (h.piece.draft.moving move hmove).2.2.2 claimer hclaim
            have hlink : store.link sub.id = some claimer := by
              rw [← hnode]
              exact Store.link_of_claimed
                (hclaim ▸ Store.claim?_eq_some h.piece.draft.once hmove)
            rw [hlink]
            intro he
            obtain rfl := Option.some.inj he
            exact absurd (hlt _ haboveIn) (Nat.not_lt.mpr hnew)
    · refine iff_of_true ?_ hmoving
      rw [Store.parent, h.node_placed, if_neg (h.ne_new (hlt _ hsubIn) hmoving), if_neg hneHolder,
        h.node_settle_of_lt (hlt _ hsubIn) hmoving]
      obtain ⟨owner, hheld⟩ := h.live.held
      exact (hheld.of_slot habove hsub).link

theorem mem_remnant (h : Replacing base tree holder old store taken trees new) :
    x ∈ old.remnant store.moving ↔ x ∈ base.preorder old.id ∧
      ∀ root, root ∈ store.moving → x ∉ base.preorder root := by
  rw [Tree.mem_remnant_iff h.live.nodup, h.live.preorder]
  refine and_congr_right (fun _ => ?_)
  constructor
  · intro hall root hroot
    obtain ⟨part, hpart, rfl, -, hlive⟩ :=
      Workpiece.exists_live h.live.rooted (h.piece.below root hroot)
    rw [hlive.preorder]
    exact hall part hpart hroot
  · intro hall below hbelow hroot
    rw [← (h.live.of_mem hbelow).preorder]
    exact hall below.id hroot

/-- The exact effect of the commit on every node. -/
theorem node_exchanged (h : Replacing base tree holder old store taken trees new) (x : NodeId) :
    (store.exchanged holder.id old.id new.id kind).node x =
      if x ∈ old.remnant store.moving then (base.node x).retired
      else if x = new.id then { store.settle.node x with parent := some holder.id }
      else if x = holder.id then { store.settle.node x with kind := kind }
      else store.settle.node x := by
  have hlt : old.id < ((store.settle.setKind holder.id kind).placed new.id holder.id).size := by
    rw [(Store.keeps_placed _ _ _).size, Store.size_setKind, Store.size_settle]
    exact Nat.lt_of_lt_of_le (h.live.laid.lt old.id_mem_ids) h.piece.draft.grows.size
  rw [Store.exchanged, Store.node_erase_cut h.isCut h.old_not_moving hlt h.live.nodup,
    h.node_placed]
  split
  · next hin =>
      have hx := h.live.laid.lt (Tree.remnant_subset_ids _ _ hin)
      have hmoving : x ∉ store.moving := by
        intro hmove
        obtain ⟨part, -, rfl, -, hlive⟩ :=
          Workpiece.exists_live h.live.rooted (h.piece.below x hmove)
        refine (h.mem_remnant.mp hin).2 part.id hmove ?_
        rw [hlive.preorder]
        exact part.id_mem_ids
      have hne : x ≠ holder.id := fun he =>
        h.holder_not_mem (he ▸ Tree.remnant_subset_ids _ _ hin)
      rw [if_neg (h.ne_new hx hmoving), if_neg hne, h.node_settle_of_lt hx hmoving]
  · rfl

/-- Nodes above the target and beside it: only the slot of the target changes. -/
theorem node_of_not_mem (h : Replacing base tree holder old store taken trees new)
    (hx : x < base.size) (hout : x ∉ old.ids) :
    (store.exchanged holder.id old.id new.id kind).node x =
      if x = holder.id then { base.node x with kind := kind } else base.node x := by
  have hmoving : x ∉ store.moving := by
    intro hmove
    rw [Tree.ids_eq] at hout
    exact hout (List.mem_cons_of_mem _ (h.piece.below x hmove))
  rw [h.node_exchanged, if_neg (fun hin => hout (Tree.remnant_subset_ids _ _ hin)),
    if_neg (h.ne_new hx hmoving), h.node_settle_of_lt hx hmoving]

/-- Nodes of a taken subtree: only the parent link of its root changes. -/
theorem node_of_taken (h : Replacing base tree holder old store taken trees new) (kind : Kind)
    {root : NodeId} (hroot : root ∈ store.moving) (hx : x ∈ base.preorder root) :
    (store.exchanged holder.id old.id new.id kind).kind x = base.kind x ∧
      ((store.exchanged holder.id old.id new.id kind).node x).type = (base.node x).type ∧
      (store.exchanged holder.id old.id new.id kind).isErased x = base.isErased x ∧
      (x ≠ root → (store.exchanged holder.id old.id new.id kind).parent x = base.parent x) := by
  obtain ⟨part, hpart, rfl, -, hlive⟩ :=
    Workpiece.exists_live h.live.rooted (h.piece.below root hroot)
  have hin : x ∈ part.ids := hlive.preorder ▸ hx
  have hlt : x < base.size := hlive.laid.lt hin
  have hold : x ∈ old.ids := Tree.ids_subset_of_mem hpart hin
  have hneHolder : x ≠ holder.id := fun he => h.holder_not_mem (he ▸ hold)
  have hout : x ∉ old.remnant store.moving :=
    fun hin' => (h.mem_remnant.mp hin').2 part.id hroot hx
  have hsame := h.piece.draft.old x hlt
  by_cases hself : x = part.id
  · refine ⟨?_, ?_, ?_, fun hne => absurd hself hne⟩
    all_goals
      simp only [Store.kind, Store.isErased, h.node_exchanged, if_neg hout, if_neg hneHolder,
        h.piece.draft.node_settle, hsame]
      split <;> rfl
  · have hmoving : x ∉ store.moving := fun hmove => hself (h.piece.apart _ _ hroot hmove hx)
    have hnode : (store.exchanged holder.id old.id new.id kind).node x = base.node x := by
      rw [h.node_exchanged, if_neg hout, if_neg (h.ne_new hlt hmoving), if_neg hneHolder,
        h.node_settle_of_lt hlt hmoving]
    simp only [Store.kind, Store.isErased, Store.parent, hnode, implies_true, and_self]

/-- Nodes of the replacement are neither left of the target nor the holder of its slot. -/
theorem mem_new (h : Replacing base tree holder old store taken trees new) (hx : x ∈ new.ids) :
    x ∉ old.remnant store.moving ∧ x ≠ holder.id := by
  rcases h.piece.draft.origin x (List.mem_flatMap.mpr ⟨new, h.loose, hx⟩) with hnew | htaken
  · refine ⟨fun hin => ?_, ?_⟩
    · exact Nat.not_lt.mpr hnew (h.live.laid.lt (Tree.remnant_subset_ids _ _ hin))
    · rintro rfl
      exact Nat.not_lt.mpr hnew h.holder_lt
  · obtain ⟨root, hroot, hin⟩ := h.piece.taken x htaken
    refine ⟨fun hleft => (h.mem_remnant.mp hleft).2 root hroot hin, ?_⟩
    rintro rfl
    exact h.holder_not_mem (Tree.slots_subset_ids _ (h.piece.taken_below h.live.rooted htaken))

theorem held_new (h : Replacing base tree holder old store taken trees new) :
    new.Held (store.exchanged holder.id old.id new.id kind) (some holder.id) := by
  refine (h.piece.draft.held new h.loose).relink (Store.keeps_exchanged ..).grows ?_ ?_
  · rw [h.node_exchanged, if_neg (h.mem_new new.id_mem_ids).1, if_pos rfl]
  · intro x hx
    have hin : x ∈ new.ids := Tree.slots_subset_ids _ hx
    have hne : x ≠ new.id := by
      rintro rfl
      exact Tree.id_not_mem_slots (h.piece.draft.nodup_ids h.loose) hx
    rw [h.node_exchanged, if_neg (h.mem_new hin).1, if_neg hne, if_neg (h.mem_new hin).2]

theorem taken_hidden (h : Replacing base tree holder old store taken trees new) :
    ∀ id, id ∈ taken → id ∉ tree.shown [old.id] :=
  fun _ hid =>
    Tree.not_mem_shown h.nodup h.old_mem (by simp) (h.piece.taken_below h.live.rooted hid)

theorem children_holder (h : Replacing base tree holder old store taken trees new) :
    base.children holder.id = holder.subs.map Tree.id := by
  have hlaid := h.held.laid.of_mem h.above
  cases holder with
  | node id head type subs => exact hlaid.shown_by.children

theorem nodup_slots (h : Replacing base tree holder old store taken trees new) :
    (base.children holder.id).Nodup := by
  rw [h.children_holder]
  exact Tree.nodup_map_id (Tree.nodup_slots (Tree.nodup_ids_of_mem h.nodup h.above))

theorem root_ne (h : Replacing base tree holder old store taken trees new) : tree.id ≠ old.id := by
  intro he
  have hself : tree = old := Tree.eq_of_id_eq h.nodup (Tree.mem_subtrees_self tree) h.old_mem he
  refine h.holder_not_mem ?_
  rw [← hself]
  exact Tree.mem_ids_iff.mpr ⟨holder, h.above, rfl⟩

/-- The store holds the tree with the replacement in the slot of the target. -/
theorem held_put (h : Replacing base tree holder old store taken trees new)
    (hkind : (base.kind holder.id).replaceChild? old.id new.id = some kind) :
    (tree.put old.id (some new)).Held (store.exchanged holder.id old.id new.id kind)
      (base.parent tree.id) := by
  have hstops := h.piece.draft.heldTo_settle h.held h.taken_hidden
  have hsettle : ∀ x, x ∈ tree.shown [old.id] → store.settle.node x = base.node x :=
    fun x hx => h.piece.draft.node_settle_shown h.held.laid h.taken_hidden hx
  have hnode : ∀ x, x ∈ tree.shown [old.id] → x ≠ old.id →
      (store.exchanged holder.id old.id new.id kind).node x =
        if x = holder.id then { base.node x with kind := kind } else base.node x := by
    intro x hx hne
    refine h.node_of_not_mem (h.lt_of_mem (Tree.shown_subset_ids _ _ hx)) ?_
    rw [Tree.ids_eq]
    intro hin
    rcases List.mem_cons.mp hin with he | hbelow
    · exact hne he
    · exact Tree.not_mem_shown h.nodup h.old_mem (by simp) hbelow hx
  refine hstops.put h.root_ne (Store.keeps_exchanged ..).grows ?_ ?_ ?_
  · intro x hx hne
    rw [Store.kind, Store.kind, Store.parent, Store.parent, Store.isErased, Store.isErased,
      hnode x hx hne, hsettle x hx]
    split
    · next he =>
        subst he
        exact ⟨Kind.head_of_replaceChild? hkind, rfl, rfl, rfl⟩
    · exact ⟨rfl, rfl, rfl, rfl⟩
  · intro x hx hgoes
    have hne : x ≠ old.id := by simpa using hgoes
    rw [Store.children, Store.children, Store.kind, Store.kind, hnode x hx hne, hsettle x hx]
    split
    · next he =>
        subst he
        rw [Kind.children_of_replaceChild? hkind]
        exact Tree.replace_eq_flatMap h.nodup_slots old.id new.id
    · next hother =>
        refine (Tree.flatMap_putId_of_not_mem ?_).symm
        intro hslot
        have hslot' : old.id ∈ store.settle.children x := by
          rw [Store.children, Store.kind, hsettle x hx]
          exact hslot
        have howner := hstops.parent_of_slot hx hgoes hslot'
        rw [h.parent_settle] at howner
        exact hother (Option.some.inj howner).symm
  · intro made owner hmade howner
    cases hmade
    rw [h.parent_settle] at howner
    obtain rfl := Option.some.inj howner
    refine ⟨h.held_new, ?_⟩
    rw [Store.isErased, h.node_exchanged, if_neg (h.mem_new new.id_mem_ids).1, if_pos rfl]
    exact h.piece.draft.live_settle h.loose

theorem nodup_put (h : Replacing base tree holder old store taken trees new) :
    (tree.put old.id (some new)).ids.Nodup := by
  have hapart := h.piece.draft.apart_shown h.held.laid
    (h.nodup.sublist (tree.shown_sublist_ids [old.id])) h.taken_hidden
  have hnew : new.ids.Sublist (trees.flatMap Tree.ids) :=
    List.sublist_flatten_of_mem (List.mem_map_of_mem h.loose)
  have hboth : (tree.shown [old.id] ++ new.ids ++ []).Nodup := by
    rw [List.append_nil]
    exact hapart.sublist (hnew.append_left _)
  rw [← Tree.shown_nil, Tree.shown_put h.root_ne (by simp)]
  simpa using Tree.nodup_flatMap_putId hboth

theorem run (h : Replacing base tree holder old store taken trees new)
    (hkind : (base.kind holder.id).replaceChild? old.id new.id = some kind) {child : Child}
    (hchild : child.node = new.id) :
    Build.commit [⟨old.id, .replace child⟩] store =
        .ok ((), store.exchanged holder.id old.id new.id kind) ∧
      (store.exchanged holder.id old.id new.id kind).moves = [] := by
  have hmoves : (store.exchanged holder.id old.id new.id kind).moves = [] := by
    rw [Store.exchanged, (Store.fades_erase _).moves]
    show (store.settle.moves.filter (fun move => move.node != new.id)) = []
    rw [List.filter_eq_nil_iff]
    intro move hmove
    obtain ⟨hmove, hnone⟩ := Draft.mem_moves_settle.mp hmove
    simpa using h.placed move hmove hnone
  have hkindSettle : store.settle.kind holder.id = base.kind holder.id := by
    rw [Store.kind, h.node_settle_of_lt h.holder_lt h.holder_not_moving]
    rfl
  have hlt : holder.id < store.settle.size := by
    rw [Store.size_settle]
    exact Nat.lt_of_lt_of_le h.holder_lt h.piece.draft.grows.size
  have hnewLt : new.id < store.settle.size := by
    rw [Store.size_settle]
    exact h.piece.draft.lt h.loose
  have hreplace := Build.replace_ok h.parent_settle hlt (hkindSettle ▸ hkind) hnewLt
    (fun he => h.ne_new (h.live.laid.lt old.id_mem_ids) h.old_not_moving he.symm)
    ((h.piece.draft.placeable h.loose).imp_right
      (fun hfree => ⟨hfree.1, hfree.2, h.piece.draft.live_settle h.loose⟩))
  rw [← hchild] at hreplace
  have hrun := Draft.run_applyEdit ⟨old.id, .replace child⟩ [] hreplace
  rw [hchild] at hrun
  exact ⟨Build.commit_ok hrun hmoves, hmoves⟩

end Replacing

/-! ## The whole replacement -/

/-- What committing a replacement does to the live tree below `root`. -/
structure Replaced (base store : Store) (taken : List NodeId) (later : Store)
    (root target replacement : NodeId) : Prop where
  accepted : later.violations root = []
  /-- The tree below the root is the old one with the replacement in the slot of the
  target. -/
  tree : ∃ before made : Tree, before.id = root ∧ before.Laid base ∧ made.id = replacement ∧
    made.Laid store ∧ (before.put target (some made)).Laid later
  /-- Taken subtrees are moved as they are. -/
  moved : ∀ part, part ∈ taken → later.preorder part = base.preorder part ∧
    ∀ id, id ∈ base.preorder part → later.kind id = base.kind id ∧
      (later.node id).type = (base.node id).type ∧ (id ≠ part → later.parent id = base.parent id)
  /-- What is left of the target is erased, and no other node of the live tree. -/
  erased : ∀ id, id < base.size → (later.isErased id = true ↔ base.isErased id = true ∨
    (id ∈ base.preorder target ∧ ∀ part, part ∈ taken → id ∉ base.preorder part))
  fresh : ∀ id, base.size ≤ id → later.isErased id = store.isErased id
  /-- Outside the target, the slot in its parent is the only change. -/
  others : ∃ owner kind, base.parent target = some owner ∧
    (base.kind owner).replaceChild? target replacement = some kind ∧
    later.node owner = { base.node owner with kind := kind } ∧
    ∀ id, id < base.size → id ∉ base.preorder target → id ≠ owner →
      later.node id = base.node id

namespace Replacing

variable {base store : Store} {tree holder old new : Tree} {taken : List NodeId}
  {trees : List Tree} {kind : Kind}

theorem isErased_iff (h : Replacing base tree holder old store taken trees new) (id : NodeId) :
    (store.exchanged holder.id old.id new.id kind).isErased id = true ↔
      store.isErased id = true ∨ id ∈ old.remnant store.moving := by
  have hsettle : store.settle.isErased id = store.isErased id := by
    rw [Store.isErased, h.piece.draft.node_settle]
    rfl
  rw [Store.isErased, h.node_exchanged]
  by_cases hin : id ∈ old.remnant store.moving
  · rw [if_pos hin]
    exact iff_of_true rfl (.inr hin)
  · rw [if_neg hin, or_iff_left hin, ← hsettle]
    split
    · rfl
    · split <;> rfl

theorem replaced (h : Replacing base tree holder old store taken trees new)
    (hkind : (base.kind holder.id).replaceChild? old.id new.id = some kind)
    (hidle : (store.exchanged holder.id old.id new.id kind).moves = []) :
    Replaced base store store.moving (store.exchanged holder.id old.id new.id kind) tree.id old.id
      new.id where
  accepted := by
    have hkeeps := Store.keeps_exchanged store holder.id old.id new.id kind
    have hlt : tree.id < (store.exchanged holder.id old.id new.id kind).size := by
      rw [hkeeps.size, Store.size_settle]
      exact Nat.lt_of_lt_of_le h.held.lt h.piece.draft.grows.size
    have hheld := h.held_put hkind
    have hlink := hheld.link
    rw [Tree.id_put] at hlink
    refine (Store.violations_eq_nil_iff
      (hkeeps.typesKnown h.piece.draft.typesKnown_settle) hlt).mpr
      ⟨hidle, _, Tree.id_put .., h.nodup_put, ?_⟩
    rw [hlink]
    exact hheld
  tree := ⟨tree, new, rfl, h.held.laid, rfl, h.piece.draft.laid h.loose, (h.held_put hkind).laid⟩
  moved part hpart := by
    obtain ⟨moved, -, rfl, -, hlive⟩ :=
      Workpiece.exists_live h.live.rooted (h.piece.below part hpart)
    have hsame := fun id (hid : id ∈ moved.ids) =>
      h.node_of_taken kind hpart (hlive.preorder.symm ▸ hid)
    have hgrows : base.Grows (store.exchanged holder.id old.id new.id kind) :=
      h.piece.draft.grows.trans ((Store.grows_settle store).trans (Store.keeps_exchanged ..).grows)
    have hlaid := hlive.laid.mono hgrows (fun id hid => ⟨(hsame id hid).1, (hsame id hid).2.1⟩)
    refine ⟨?_, fun id hid => ?_⟩
    · rw [hlive.preorder, hlaid.preorder_eq hlive.nodup]
    · obtain ⟨hkind, htype, -, hparent⟩ := hsame id (hlive.preorder ▸ hid)
      exact ⟨hkind, htype, hparent⟩
  erased id hid := by
    rw [h.isErased_iff, h.mem_remnant, Store.isErased, h.piece.draft.old id hid, Store.isErased]
  fresh id hid := by
    have hout : id ∉ old.remnant store.moving := fun hleft =>
      Nat.not_lt.mpr hid (h.live.laid.lt (Tree.remnant_subset_ids _ _ hleft))
    rw [Bool.eq_iff_iff, h.isErased_iff, or_iff_left hout]
  others := by
    refine ⟨holder.id, kind, (h.held.of_slot h.above h.slot).link, hkind, ?_, ?_⟩
    · rw [h.node_of_not_mem h.holder_lt h.holder_not_mem, if_pos rfl]
    · intro id hlt hout hne
      rw [h.live.preorder] at hout
      rw [h.node_of_not_mem hlt hout, if_neg hne]

end Replacing

theorem Replaced.of_plan {base store plan later : Store} {taken : List NodeId}
    {root target replacement : NodeId}
    (h : Replaced base plan plan.moving later root target replacement)
    (hplan : store.Anticipates plan) (htaken : ∀ id, id ∈ plan.moving ↔ id ∈ taken) :
    Replaced base store taken later root target replacement where
  accepted := h.accepted
  tree := by
    obtain ⟨before, made, hroot, hbefore, hid, hmade, hput⟩ := h.tree
    exact ⟨before, made, hroot, hbefore, hid, hplan.laid hmade, hput⟩
  moved part hpart := h.moved part ((htaken part).mpr hpart)
  erased id hid := by simpa only [htaken] using h.erased id hid
  fresh id hid := (h.fresh id hid).trans (hplan.isErased id)
  others := h.others

/-- Committing a replacement that was built from new nodes and from subtrees below its
target, in which every taken subtree has found a place. -/
theorem Build.commit_replacement {base store : Store} {root target replacement : NodeId}
    {taken : List NodeId} {child : Child} (hknown : base.TypesKnown)
    (hclean : base.violations root = []) (htarget : target ∈ base.preorder root)
    (hroot : target ≠ root) (hbuilt : Built base target taken store)
    (hlt : replacement < store.size) (hfree : base.IsFree store replacement)
    (hplaced : ∀ id, id ∈ taken → id = replacement ∨ base.IsPlaced store id)
    (hchild : child.node = replacement) :
    ∃ later, Build.commit [⟨target, .replace child⟩] store = .ok ((), later) ∧
      Replaced base store taken later root target replacement := by
  have hrootLt : root < base.size := by
    by_contra hge
    rw [Store.preorder_of_size_le (Nat.not_lt.mp hge)] at htarget
    exact hroot (List.mem_singleton.mp htarget)
  obtain ⟨hmoves, tree, rfl, hnodup, hheld⟩ :=
    (Store.violations_eq_nil_iff hknown hrootLt).mp hclean
  rw [hheld.laid.preorder_eq hnodup] at htarget
  obtain ⟨old, hold, rfl⟩ := Tree.mem_ids_iff.mp htarget
  obtain ⟨holder, hholder, hslot⟩ := Tree.exists_holder hold (fun he => hroot (he ▸ rfl))
  have hlive : old.Live base := by
    obtain ⟨above, habove⟩ := hheld.of_mem hholder
    exact ⟨⟨holder.id, hheld.of_slot hholder hslot⟩, habove.live hslot,
      Tree.nodup_ids_of_mem hnodup hold⟩
  have hplaced : ∀ id, id ∈ taken → id ∈ [replacement] ∨ base.IsPlaced store id :=
    fun id hid => (hplaced id hid).imp_left List.mem_singleton.mpr
  obtain ⟨plan, hplan, htaken, ⟨region, trees, hpiece⟩, hfree, hplaced, hcommit⟩ :=
    (hbuilt.underway hlive.rooted hmoves hknown).exists_plan hlive.rooted
      (by simpa using hfree) hplaced
  obtain ⟨new, hnew, rfl⟩ := List.mem_map.mp
    (hpiece.mem_roots (hplan.size ▸ hlt) (hfree replacement (List.mem_singleton_self _)))
  have h : Replacing base tree holder old plan region trees new :=
    ⟨hpiece, hheld, hnodup, hholder, hslot, hnew,
      fun move hmove hnone => List.mem_singleton.mp (hplaced move hmove hnone)⟩
  obtain ⟨kind, hkind⟩ : ∃ kind, (base.kind holder.id).replaceChild? old.id new.id = some kind := by
    refine Option.ne_none_iff_exists'.mp (fun hnone => ?_)
    refine Kind.replaceChild?_eq_none_iff.mp hnone ?_
    rw [show (base.kind holder.id).children = _ from h.children_holder]
    exact List.mem_map_of_mem hslot
  obtain ⟨hrun, hidle⟩ := h.run hkind hchild
  exact ⟨_, (hcommit _).trans hrun, (h.replaced hkind hidle).of_plan hplan htaken⟩

/-- The unit `a + b;`. -/
def sumStatement : Store :=
  { nodes := #[
      ⟨.name "a" none, none, some 2, false⟩,
      ⟨.name "b" none, none, some 2, false⟩,
      ⟨.chain .plus [0, 1], none, some 3, false⟩,
      ⟨.exprStmt 2, none, some 4, false⟩,
      ⟨.unit [3], none, none, false⟩] }

/-- Both names were taken for the comparison `b == a`. -/
def comparedSum : Store :=
  { nodes := sumStatement.nodes.push ⟨.chain .equals [1, 0], some 0, none, false⟩
    types := ⟨#[.boolean]⟩
    moves := [⟨0, some 5⟩, ⟨1, some 5⟩] }

/-- The sum is about to be replaced by the negation of the comparison, which has taken it
apart and owns the names. -/
def invertedSum : Store :=
  { nodes := #[
      ⟨.name "a" none, none, some 6, false⟩,
      ⟨.name "b" none, none, some 6, false⟩,
      ⟨.chain .plus [0, 1], none, some 3, false⟩,
      ⟨.exprStmt 2, none, some 4, false⟩,
      ⟨.unit [3], none, none, false⟩,
      ⟨.chain .equals [1, 0], some 0, none, true⟩,
      ⟨.chain .notEquals [1, 0], some 0, none, false⟩]
    types := ⟨#[.boolean]⟩ }

theorem built_invertedSum : Built sumStatement 2 [0, 1] invertedSum := by
  have hright : Build.take 1 sumStatement = .ok (.moved 1, sumStatement.requestMove 1) := rfl
  have hleft : Build.take 0 (sumStatement.requestMove 1) =
      .ok (.moved 0, (sumStatement.requestMove 1).requestMove 0) := rfl
  have hequals : Build.chain .equals [1, 0] ((sumStatement.requestMove 1).requestMove 0) =
      .ok (5, comparedSum) := by decide +kernel
  have hinverse : Build.negate (.fresh 5) true comparedSum = .ok (6, invertedSum) := by
    decide +kernel
  have hparts : ∀ node, node ∈ [1, 0] → node < 5 ∧ node ∈ (sumStatement.preorder 2).tail := by
    decide +kernel
  have htaken : Built sumStatement 2 [0, 1] ((sumStatement.requestMove 1).requestMove 0) :=
    .take (.take .start (by decide +kernel) (by decide) hright) (by decide +kernel)
      (by decide +kernel) hleft
  have hcompared : Built sumStatement 2 [0, 1] comparedSum :=
    .construct htaken (.chain .equals [1, 0])
      (fun node hnode => ⟨(hparts node hnode).1, .inr (hparts node hnode).2⟩) (by simp) hequals
  exact .negateApart hcompared ⟨by decide +kernel, .inl (by decide +kernel)⟩ (by decide +kernel)
    (by decide +kernel) hinverse

theorem Build.commit_replacement_inverted :
    sumStatement.violations 4 = [] ∧ ∃ later,
      Build.commit [⟨2, .replace (.fresh 6)⟩] invertedSum = .ok ((), later) ∧
        Replaced sumStatement invertedSum [0, 1] later 4 2 6 := by
  have hplaced : ∀ id, id ∈ [0, 1] → id = 6 ∨ sumStatement.IsPlaced invertedSum id := by
    intro id hid
    have hparent : ∀ id, id ∈ [0, 1] → invertedSum.parent id = some 6 := by decide +kernel
    exact .inr ⟨6, by decide +kernel, by decide +kernel, .inr (hparent id hid)⟩
  refine ⟨by decide +kernel, ?_⟩
  exact @Build.commit_replacement sumStatement invertedSum 4 2 6 [0, 1] (.fresh 6)
    (by decide +kernel) (by decide +kernel) (by decide +kernel) (by decide) built_invertedSum
    (by decide +kernel) (by decide +kernel) hplaced rfl

/-- Negates `!a` with the taken `a`, which gives `a` back, and puts it where the sum stands. -/
def replaceByOperand : Build Unit := do
  let name ← Build.take 0
  let negation ← Build.not name.node
  let operand ← Build.negate (.fresh negation) true
  Build.commit [⟨2, .replace (.fresh operand)⟩]

/-- The unit `!x;`. -/
def negatedStatement : Store :=
  { nodes := #[
      ⟨.name "x" none, none, some 1, false⟩,
      ⟨.prefixed .not 0, none, some 2, false⟩,
      ⟨.exprStmt 1, none, some 3, false⟩,
      ⟨.unit [2], none, none, false⟩] }

/-- Negates the taken `!x` in new parentheses, and puts `x` where the statement stands. -/
def replaceByInner : Build Unit := do
  let negation ← Build.take 1
  let wrapper ← Build.paren negation.node
  let operand ← Build.negate (.fresh wrapper) true
  let statement ← Build.exprStmt operand
  Build.commit [⟨2, .replace (.fresh statement)⟩]

/-- Negating a new node hands out its parts as if they were new.  A taken part stays claimed by
the node that is gone, and the link inside a taken part is cut. -/
theorem Build.commit_replacement_breaks_taken :
    (sumStatement.violations 4 = [] ∧ 0 ∈ (sumStatement.preorder 2).tail ∧
      replaceByOperand sumStatement = .error (.ownedChild 0 5)) ∧
    negatedStatement.violations 3 = [] ∧ 1 ∈ (negatedStatement.preorder 2).tail ∧
      ∃ later, replaceByInner negatedStatement = .ok ((), later) ∧
        negatedStatement.parent 0 = some 1 ∧ later.children 1 = [0] ∧ later.parent 0 = some 5 := by
  refine ⟨by decide +kernel, by decide +kernel, by decide +kernel, ?_⟩
  exact ⟨_, rfl, by decide +kernel⟩

end CodeTidy
