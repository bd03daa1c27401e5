import CodeTidy.Proofs.Construct
import CodeTidy.Proofs.Remnant

/-!
# Parts of a replacement

A replacement is built beside the live tree, out of new nodes and of subtrees that are taken
from below the target.  `Workpiece` describes a moment of this: the trees that are loose, and
where the taken subtrees come from.  Creating a node, adding a type and taking a subtree each
lead from one such moment to the next.
-/

namespace CodeTidy

/-! ## Calls that run through -/

namespace Build

variable {store later : Store} {holder child id : NodeId} {kind : Kind} {type : Option TypeId}

theorem moves_claimMove (store : Store) (child holder : NodeId) :
    (store.claimMove child holder).moves = store.moves.map (fun move =>
      if move.node ∈ [child] then ⟨move.node, some holder⟩ else move) := by
  apply List.map_congr_left
  intro move _
  by_cases hm : move.node = child <;> simp [hm]

/-- Adopting one node leaves the others as they are, with their claims. -/
theorem adopt_frame {other : NodeId} (h : adopt holder child store = .ok ((), later))
    (hne : other ≠ child) :
    later.node other = store.node other ∧ later.claim? other = store.claim? other := by
  obtain ⟨hlt, -, ⟨-, rfl⟩ | ⟨-, -, rfl⟩⟩ := adopt_cases h
  · refine ⟨Store.node_modify_of_ne _ _ (fun he => hne he.symm), ?_⟩
    simp only [Store.claim?, Store.setParent, Store.modify, Store.forgetMove, List.find?_filter]
    congr 2
    funext move
    by_cases hm : move.node = other <;> simp [hm, hne]
  · refine ⟨rfl, ?_⟩
    rw [Store.claim?_map_moves (moves_claimMove store child holder), if_neg (by simpa using hne)]

/-- A node that was adopted has a parent and is not up for a claim. -/
theorem adopt_owned (h : adopt holder child store = .ok ((), later)) :
    later.parent child ≠ none ∧ later.claim? child ≠ some none := by
  obtain ⟨hlt, -, ⟨-, rfl⟩ | ⟨hsome, hclaim, rfl⟩⟩ := adopt_cases h
  · have hnode := (store.forgetMove child).node_modify_self
      (fun old => { old with parent := some holder }) hlt
    have hnone : ((store.forgetMove child).setParent child holder).claim? child = none := by
      rw [Store.claim?_eq_none_iff]
      intro move hmove
      simpa using (List.mem_filter.mp hmove).2
    refine ⟨?_, by simp [hnone]⟩
    rw [Store.parent, Store.setParent, hnode]
    simp
  · refine ⟨fun hnone => ?_, ?_⟩
    · rw [show store.parent child = none from hnone] at hsome
      cases hsome
    · rw [Store.claim?_map_moves (moves_claimMove store child holder), if_pos (by simp), hclaim]
      simp

/-- Nodes that are adopted one after the other are distinct, and each could be adopted. -/
theorem forM_adopt_cases {children : List NodeId}
    (h : children.forM (adopt holder) store = .ok ((), later)) :
    children.Nodup ∧ ∀ child, child ∈ children → store.isErased child = false ∧
      (store.parent child = none ∨ store.claim? child = some none) := by
  induction children generalizing store with
  | nil => exact ⟨List.nodup_nil, by simp⟩
  | cons child children ih =>
      obtain ⟨⟨⟩, middle, hfirst, hrest⟩ := exists_of_bind_ok h
      obtain ⟨hnodup, hall⟩ := ih hrest
      have hnew : child ∉ children := by
        intro hmem
        rcases (hall child hmem).2 with hnone | hfree
        · exact (adopt_owned hfirst).1 hnone
        · exact (adopt_owned hfirst).2 hfree
      refine ⟨List.nodup_cons.mpr ⟨hnew, hnodup⟩, fun other hother => ?_⟩
      by_cases hself : other = child
      · subst hself
        obtain ⟨-, hlive, ⟨hnone, -⟩ | ⟨-, hfree, -⟩⟩ := adopt_cases hfirst
        · exact ⟨hlive, .inl hnone⟩
        · exact ⟨hlive, .inr hfree⟩
      · obtain ⟨hnode, hclaim⟩ := adopt_frame hfirst hself
        have hfacts := hall other ((List.mem_cons.mp hother).resolve_left hself)
        rwa [Store.isErased, Store.parent, hnode, hclaim] at hfacts

/-- Creating a node: its children are distinct, and each could be adopted. -/
theorem create_cases (h : create kind type store = .ok (id, later))
    (hlt : ∀ child, child ∈ kind.children → child < store.size) :
    kind.children.Nodup ∧ ∀ child, child ∈ kind.children → store.isErased child = false ∧
      (store.parent child = none ∨ store.claim? child = some none) := by
  obtain ⟨found, middle, hget, hnext⟩ := exists_of_bind_ok h
  cases hget
  obtain ⟨⟨⟩, middle, hset, hnext⟩ := exists_of_bind_ok hnext
  cases hset
  obtain ⟨⟨⟩, middle, hadopt, -⟩ := exists_of_bind_ok hnext
  change kind.children.forM (adopt store.size) (pushed store kind type) = _ at hadopt
  obtain ⟨hnodup, hall⟩ := forM_adopt_cases hadopt
  refine ⟨hnodup, fun child hchild => ?_⟩
  have hfacts := hall child hchild
  rwa [Store.isErased, Store.parent, node_pushed, if_neg (Nat.ne_of_lt (hlt child hchild))]
    at hfacts

end Build

/-! ## Parts of a replacement -/

/-- Trees with given numbers can be set apart from a list of trees. -/
theorem Tree.exists_perm_append {ids : List NodeId} {trees : List Tree} (hnodup : ids.Nodup)
    (hsub : ids ⊆ trees.map Tree.id) :
    ∃ subs rest, subs.map Tree.id = ids ∧ trees.Perm (subs ++ rest) := by
  induction ids generalizing trees with
  | nil => exact ⟨[], trees, rfl, .refl _⟩
  | cons id ids ih =>
      obtain ⟨hnew, hrestNodup⟩ := List.nodup_cons.mp hnodup
      obtain ⟨tree, hmem, rfl⟩ := List.mem_map.mp (hsub (List.mem_cons_self ..))
      obtain ⟨front, back, rfl⟩ := List.append_of_mem hmem
      have hrest : ids ⊆ (front ++ back).map Tree.id := by
        intro other hother
        have hin := hsub (List.mem_cons_of_mem _ hother)
        have hne : other ≠ tree.id := fun he => hnew (he ▸ hother)
        simpa [hne] using hin
      obtain ⟨subs, rest, rfl, hperm⟩ := ih hrestNodup hrest
      exact ⟨tree :: subs, rest, rfl, List.perm_middle.trans (hperm.cons tree)⟩

/-- Subtrees with a common node: one is at or below the other. -/
theorem Tree.nested_of_common_id {tree a b : Tree} (hnodup : tree.ids.Nodup)
    (ha : a ∈ tree.subtrees) (hb : b ∈ tree.subtrees) {id : NodeId} (hina : id ∈ a.ids)
    (hinb : id ∈ b.ids) : a ∈ b.subtrees ∨ b ∈ a.subtrees := by
  induction tree with
  | node i head type subs ih =>
      rcases mem_subtrees_iff.mp ha with rfl | ⟨subA, hsubA, hinA⟩
      · exact .inr hb
      rcases mem_subtrees_iff.mp hb with rfl | ⟨subB, hsubB, hinB⟩
      · exact .inl ha
      obtain rfl := eq_of_common_id (nodup_slots hnodup) hsubA hsubB (ids_subset_of_mem hinA hina)
        (ids_subset_of_mem hinB hinb)
      exact ih subA hsubA
        (nodup_ids_of_mem hnodup (sub_mem_subtrees hsubA)) hinA hinB

/-- A node that may be placed in a replacement: a new one, or one of `region`. -/
structure Store.IsPart (base : Store) (region : List NodeId) (store : Store) (id : NodeId) :
    Prop where
  lt : id < store.size
  source : base.size ≤ id ∨ id ∈ region

theorem Store.IsPart.mono {base store later : Store} {region : List NodeId} {id : NodeId}
    (h : base.IsPart region store id) (hsize : store.size ≤ later.size) :
    base.IsPart region later id :=
  ⟨Nat.lt_of_lt_of_le h.lt hsize, h.source⟩

/-- A node that can be placed: a new one that nobody owns and that is not erased, or one that
is on the move and that nobody has claimed. -/
def Store.IsFree (base store : Store) (id : NodeId) : Prop :=
  (base.size ≤ id ∧ store.parent id = none ∧ store.isErased id = false) ∨
    store.claim? id = some none

instance (base store : Store) (id : NodeId) : Decidable (base.IsFree store id) :=
  inferInstanceAs (Decidable (_ ∨ _))

/-- A tree that the store holds, at a root or in a slot. -/
structure Tree.Rooted (base : Store) (tree : Tree) : Prop where
  held : ∃ owner, tree.Held base owner
  nodup : tree.ids.Nodup

theorem Tree.Live.rooted {base : Store} {tree : Tree} (h : tree.Live base) : tree.Rooted base :=
  ⟨h.held.imp' some (fun _ hheld => hheld), h.nodup⟩

theorem Tree.Rooted.preorder {base : Store} {tree : Tree} (h : tree.Rooted base) :
    base.preorder tree.id = tree.ids := by
  obtain ⟨owner, hheld⟩ := h.held
  exact hheld.laid.preorder_eq h.nodup

/-- The listing of a live subtree names its nodes. -/
theorem Tree.Live.preorder {base : Store} {tree : Tree} (h : tree.Live base) :
    base.preorder tree.id = tree.ids :=
  h.rooted.preorder

theorem Store.preorder_of_size_le {store : Store} {id : NodeId} (h : store.size ≤ id) :
    store.preorder id = [id] := by
  have hchildren : store.children id = [] := by
    rw [Store.children, Store.kind, Store.node_of_size_le h]
    rfl
  rw [Store.preorder, Store.listing, Store.fold, Store.foldSteps_succ, hchildren, List.flatMap_nil]

def Store.moving (store : Store) : List NodeId :=
  store.moves.map Move.node

theorem Store.mem_moving_of_claim? {store : Store} {id : NodeId} {claim : Option NodeId}
    (h : store.claim? id = some claim) : id ∈ store.moving :=
  List.mem_map.mpr ⟨_, Store.mem_of_claim? h, rfl⟩

/-- A replacement of `old` while it is built: `trees` are all new trees that nobody holds
and all taken ones that nobody claims, and `taken` are the nodes of the taken subtrees. -/
structure Workpiece (base : Store) (old : Tree) (store : Store) (taken : List NodeId)
    (trees : List Tree) : Prop where
  draft : Draft base taken store trees
  below : ∀ id, id ∈ store.moving → id ∈ old.subs.flatMap Tree.ids
  /-- No taken subtree is below another. -/
  apart : ∀ id other, id ∈ store.moving → other ∈ store.moving →
    other ∈ base.preorder id → other = id
  taken : ∀ id, id ∈ taken → ∃ root ∈ store.moving, id ∈ base.preorder root
  /-- A new node that nobody owns is the root of a loose tree, unless it was broken apart. -/
  loose : ∀ id, base.size ≤ id → id < store.size → store.parent id = none →
    store.isErased id = false → id ∈ trees.map Tree.id

namespace Workpiece

variable {base store later : Store} {old : Tree} {taken : List NodeId} {trees : List Tree}
  {kind : Kind} {type : Option TypeId} {id : NodeId}

theorem exists_live (hold : old.Rooted base) (hid : id ∈ old.subs.flatMap Tree.ids) :
    ∃ part : Tree, part ∈ old.subtrees ∧ part.id = id ∧ part ≠ old ∧ part.Live base := by
  obtain ⟨sub, hsub, hin⟩ := List.mem_flatMap.mp hid
  obtain ⟨part, hpart, rfl⟩ := Tree.mem_ids_iff.mp hin
  obtain ⟨owner, hheld⟩ := hold.held
  have hlive : sub.Live base :=
    ⟨⟨old.id, hheld.sub hsub⟩, hheld.live hsub,
      Tree.nodup_ids_of_mem hold.nodup (Tree.slot_mem_subtrees old.mem_subtrees_self hsub)⟩
  refine ⟨part, Tree.mem_subtrees_of_sub hsub hpart, rfl, ?_, hlive.of_mem hpart⟩
  rintro rfl
  exact Tree.id_not_mem_slots hold.nodup hid

theorem preorder_subset (hold : old.Rooted base) (hid : id ∈ old.subs.flatMap Tree.ids) :
    base.preorder id ⊆ old.subs.flatMap Tree.ids := by
  obtain ⟨part, hpart, rfl, hne, hlive⟩ := exists_live hold hid
  intro x hx
  rw [hlive.preorder] at hx
  rcases Tree.mem_subtrees_iff.mp hpart with rfl | ⟨sub, hsub, hinside⟩
  · exact absurd rfl hne
  · exact List.mem_flatMap.mpr ⟨sub, hsub, Tree.ids_subset_of_mem hinside hx⟩

/-- The order of the loose trees does not matter. -/
theorem perm {others : List Tree} (h : Workpiece base old store taken trees)
    (hperm : trees.Perm others) : Workpiece base old store taken others where
  draft := h.draft.perm hperm
  below := h.below
  apart := h.apart
  taken := h.taken
  loose id hnew hlt hnone hlive := (hperm.map Tree.id).mem_iff.mp (h.loose id hnew hlt hnone hlive)

/-- A node that can be placed is the root of a loose tree. -/
theorem mem_roots (h : Workpiece base old store taken trees) (hlt : id < store.size)
    (hfree : base.IsFree store id) : id ∈ trees.map Tree.id := by
  rcases hfree with ⟨hnew, hnone, hlive⟩ | hclaim
  · exact h.loose id hnew hlt hnone hlive
  · exact (h.draft.moving _ (Store.mem_of_claim? hclaim)).2.2.1 rfl

theorem taken_below (h : Workpiece base old store taken trees) (hold : old.Rooted base)
    (hid : id ∈ taken) : id ∈ old.subs.flatMap Tree.ids := by
  obtain ⟨root, hroot, hin⟩ := h.taken id hid
  exact preorder_subset hold (h.below root hroot) hin

theorem owned_of_below (h : Workpiece base old store taken trees) (hold : old.Rooted base)
    (hid : id ∈ old.subs.flatMap Tree.ids) :
    ∃ owner, owner < base.size ∧ store.parent id = some owner := by
  obtain ⟨part, hpart, rfl, hne, hlive⟩ := exists_live hold hid
  obtain ⟨holder, hholder, hslot⟩ := Tree.exists_holder hpart hne
  obtain ⟨owner, hheld⟩ := hold.held
  refine ⟨holder.id, (hheld.laid.of_mem hholder).lt holder.id_mem_ids, ?_⟩
  rw [Store.parent, h.draft.old _ (hlive.laid.lt part.id_mem_ids)]
  exact (hheld.of_slot hholder hslot).link

theorem part_of_mem {tree : Tree} (h : Workpiece base old store taken trees)
    (hold : old.Rooted base) (htree : tree ∈ trees) (hid : id ∈ tree.ids) :
    base.IsPart (old.subs.flatMap Tree.ids) store id where
  lt := (h.draft.laid htree).lt hid
  source := (h.draft.origin id (List.mem_flatMap.mpr ⟨tree, htree, hid⟩)).imp_right
    (h.taken_below hold)

theorem new_of_parentless (h : Workpiece base old store taken trees) (hold : old.Rooted base)
    (hpart : base.IsPart (old.subs.flatMap Tree.ids) store id) (hnone : store.parent id = none) :
    base.size ≤ id := by
  refine hpart.source.resolve_right fun hin => ?_
  obtain ⟨owner, -, howner⟩ := h.owned_of_below hold hin
  rw [hnone] at howner
  cases howner

theorem create (h : Workpiece base old store taken trees) (hold : old.Rooted base)
    (hparts : ∀ child, child ∈ kind.children →
      base.IsPart (old.subs.flatMap Tree.ids) store child)
    (htype : ∀ number, type = some number → ∃ desc, store.types.get? number = some desc)
    (hrun : Build.create kind type store = .ok (id, later)) :
    id = store.size ∧ later.size = store.size + 1 ∧ store.Grows later ∧
      later.moving = store.moving ∧ ∃ trees', Workpiece base old later taken trees' := by
  have hlt := fun child hchild => (hparts child hchild).lt
  obtain ⟨hnodup, hall⟩ := Build.create_cases hrun hlt
  have hroots : kind.children ⊆ trees.map Tree.id := fun child hchild =>
    h.mem_roots (hlt child hchild) ((hall child hchild).2.imp_left fun hnone =>
      ⟨h.new_of_parentless hold (hparts child hchild) hnone, hnone, (hall child hchild).1⟩)
  obtain ⟨subs, rest, hsubs, hperm⟩ := Tree.exists_perm_append hnodup hroots
  have hdraft := h.draft.perm hperm
  obtain ⟨desc, hdesc⟩ : ∃ desc : Option TypeDesc, type.map store.types.get? = desc.map some := by
    cases type with
    | none => exact ⟨none, rfl⟩
    | some number =>
        obtain ⟨desc, hdesc⟩ := htype number rfl
        exact ⟨some desc, by simp [hdesc]⟩
  obtain ⟨after, hcreate, -, -, hnext⟩ := hdraft.create hsubs.symm hdesc
  obtain ⟨rfl, rfl⟩ := Build.ok_unique hrun hcreate
  have hloose : ∀ child, child ∈ kind.children → store.IsLoose child := by
    intro child hchild
    rw [← hsubs] at hchild
    obtain ⟨sub, hsub, rfl⟩ := List.mem_map.mp hchild
    exact (hdraft.loose sub (List.mem_append_left _ hsub)).2.1
  obtain ⟨again, hcreate', hcreated⟩ := @Build.create_loose store kind type hnodup hlt
    (fun child hchild => (hall child hchild).1) hloose
  obtain ⟨-, rfl⟩ := Build.ok_unique hrun hcreate'
  have hmoving : later.moving = store.moving := hcreated.moved_nodes
  refine ⟨rfl, hcreated.size, hcreated.grows, hmoving, _, hnext, hmoving ▸ h.below,
    hmoving ▸ h.apart, hmoving ▸ h.taken, ?_⟩
  intro x hnew hx hnone hlive
  by_cases hself : x = store.size
  · exact List.mem_cons.mpr (.inl hself)
  · have hmem : x ∉ kind.children := by
      intro hchild
      rw [Store.parent, hcreated.adopted.node, if_pos ⟨hchild, h.draft.claim?_new hnew⟩] at hnone
      cases hnone
    rw [Store.parent, hcreated.node_of_not_mem hself hmem] at hnone
    rw [Store.isErased, hcreated.node_of_not_mem hself hmem] at hlive
    have hroot := h.loose x hnew (by rw [hcreated.size] at hx; omega) hnone hlive
    rw [(hperm.map Tree.id).mem_iff, List.map_append, hsubs] at hroot
    exact List.mem_cons_of_mem _ ((List.mem_append.mp hroot).resolve_left hmem)

theorem intern (h : Workpiece base old store taken trees) {desc : TypeDesc} {number : TypeId}
    (hrun : Build.internType desc store = .ok (number, later)) :
    store.Grows later ∧ later.moving = store.moving ∧ later.types.get? number = some desc ∧
      Workpiece base old later taken trees := by
  obtain ⟨number', later', hrun', hnumber, hdraft⟩ := h.draft.intern desc
  obtain ⟨rfl, rfl⟩ := Build.ok_unique hrun hrun'
  have hlater : later = { store with types := (store.types.intern desc).2 } := by
    cases hrun
    rfl
  subst hlater
  exact ⟨⟨Nat.le_refl _, fun _ _ hknown => TypeTable.get?_intern_of_get? hknown⟩, rfl, hnumber,
    ⟨hdraft, h.below, h.apart, h.taken, h.loose⟩⟩

/-- Taking a subtree below the target that has no node in common with the taken ones. -/
theorem take (h : Workpiece base old store taken trees) (hold : old.Rooted base)
    (hbelow : id ∈ old.subs.flatMap Tree.ids)
    (hapart : ∀ root, root ∈ store.moving →
      id ∉ base.preorder root ∧ root ∉ base.preorder id)
    {child : Child} (hrun : Build.take id store = .ok (child, later)) :
    ∃ taken' trees', Workpiece base old later taken' trees' := by
  obtain ⟨part, hpart, rfl, -, hlive⟩ := exists_live hold hbelow
  have hdisjoint : List.Disjoint part.ids taken := by
    intro x hx htaken
    obtain ⟨root, hroot, hin⟩ := h.taken x htaken
    obtain ⟨other, hother, rfl, -, hotherLive⟩ := exists_live hold (h.below root hroot)
    obtain ⟨hout, hout'⟩ := hapart other.id hroot
    rw [hotherLive.preorder] at hin hout
    rw [hlive.preorder] at hout'
    rcases Tree.nested_of_common_id hold.nodup hpart hother hx hin with hnested | hnested
    · exact hout (Tree.ids_subset_of_mem hnested part.id_mem_ids)
    · exact hout' (Tree.ids_subset_of_mem hnested other.id_mem_ids)
  obtain ⟨later', hrun', hdraft⟩ := h.draft.take_live hlive hdisjoint
  obtain ⟨-, rfl⟩ := Build.ok_unique hrun hrun'
  obtain rfl : later = store.requestMove part.id := by
    rw [Build.run_take] at hrun
    split at hrun <;> cases hrun
    rfl
  have hmoving : (store.requestMove part.id).moving = part.id :: store.moving := rfl
  refine ⟨_, _, hdraft, ?_, ?_, ?_, ?_⟩
  · intro root hroot
    rcases List.mem_cons.mp (hmoving ▸ hroot) with rfl | hroot
    · exact hbelow
    · exact h.below root hroot
  · intro root other hroot hother hin
    rcases List.mem_cons.mp (hmoving ▸ hroot) with rfl | hroot
    · rcases List.mem_cons.mp (hmoving ▸ hother) with rfl | hother
      · rfl
      · exact absurd hin (hapart other hother).2
    · rcases List.mem_cons.mp (hmoving ▸ hother) with rfl | hother
      · exact absurd hin (hapart root hroot).1
      · exact h.apart root other hroot hother hin
  · intro x hx
    rcases List.mem_append.mp hx with hx | hx
    · exact ⟨part.id, List.mem_cons_self .., hlive.preorder ▸ hx⟩
    · obtain ⟨root, hroot, hin⟩ := h.taken x hx
      exact ⟨root, List.mem_cons_of_mem _ hroot, hin⟩
  · intro x hnew hlt hnone hlive
    exact List.mem_cons_of_mem _ (h.loose x hnew hlt hnone hlive)

end Workpiece

end CodeTidy
