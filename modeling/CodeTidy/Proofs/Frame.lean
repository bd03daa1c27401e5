import CodeTidy.Proofs.Commit

/-!
# What a commit leaves alone

An edit writes to the slot of its target, erases what is left of the target, and gives
the node it places another parent link.  `Store.SlotChanged` says so for one edit, and
`Store.KeepsOutside` for all edits of a commit, about every node of the store: also about
nodes that no slot of the tree leads to.
-/

namespace CodeTidy

/-! ## Slots -/

/-- Slots as they were, but those of the `spots` may hold other nodes or be lost. -/
inductive SlotsKeep (spots : List NodeId) : List NodeId → List NodeId → Prop where
  | nil : SlotsKeep spots [] []
  | keep {id : NodeId} {old new : List NodeId} (rest : SlotsKeep spots old new) :
      SlotsKeep spots (id :: old) (id :: new)
  | change {spot fresh : NodeId} {old new : List NodeId} (isSpot : spot ∈ spots)
      (rest : SlotsKeep spots old new) : SlotsKeep spots (spot :: old) (fresh :: new)
  | lose {spot : NodeId} {old new : List NodeId} (isSpot : spot ∈ spots)
      (rest : SlotsKeep spots old new) : SlotsKeep spots (spot :: old) new

namespace SlotsKeep

variable {spots others a b c : List NodeId}

theorem refl (spots : List NodeId) : ∀ a, SlotsKeep spots a a
  | [] => .nil
  | _ :: rest => .keep (refl spots rest)

theorem mono (h : SlotsKeep spots a b) (hsub : spots ⊆ others) : SlotsKeep others a b := by
  induction h with
  | nil => exact .nil
  | keep _ ih => exact .keep ih
  | change isSpot _ ih => exact .change (hsub isSpot) ih
  | lose isSpot _ ih => exact .lose (hsub isSpot) ih

theorem trans (h : SlotsKeep spots a b) (h' : SlotsKeep spots b c) : SlotsKeep spots a c := by
  induction h generalizing c with
  | nil => exact h'
  | keep _ ih =>
      cases h' with
      | keep rest => exact .keep (ih rest)
      | change isSpot rest => exact .change isSpot (ih rest)
      | lose isSpot rest => exact .lose isSpot (ih rest)
  | change isSpot _ ih =>
      cases h' with
      | keep rest => exact .change isSpot (ih rest)
      | change _ rest => exact .change isSpot (ih rest)
      | lose _ rest => exact .lose isSpot (ih rest)
  | lose isSpot _ ih => exact .lose isSpot (ih h')

theorem replace (target fresh : NodeId) (a : List NodeId) :
    SlotsKeep [target] a (a.replace target fresh) := by
  induction a with
  | nil => exact .nil
  | cons id rest ih =>
      rw [List.replace_cons]
      split
      · next heq =>
          rw [beq_iff_eq.mp heq]
          exact .change (List.mem_singleton_self _) (refl _ _)
      · exact .keep ih

theorem erase (target : NodeId) (a : List NodeId) : SlotsKeep [target] a (a.erase target) := by
  induction a with
  | nil => exact .nil
  | cons id rest ih =>
      rw [List.erase_cons]
      split
      · next heq =>
          rw [beq_iff_eq.mp heq]
          exact .lose (List.mem_singleton_self _) (refl _ _)
      · exact .keep ih

theorem toList_none (target : NodeId) : SlotsKeep [target] (some target).toList none.toList :=
  .lose (List.mem_singleton_self _) .nil

theorem of_dropChild? {kind changed : Kind} {child : NodeId}
    (h : kind.dropChild? child = some changed) :
    changed.head = kind.head ∧ SlotsKeep [child] kind.children changed.children := by
  cases kind with
  | block stmts | unit stmts =>
      simp only [Kind.dropChild?] at h
      split at h <;> cases h
      exact ⟨rfl, .erase child stmts⟩
  | switchStmt subject body =>
      simp only [Kind.dropChild?] at h
      split at h <;> cases h
      exact ⟨rfl, .keep (.erase child body)⟩
  | ifStmt cond thenBranch elseBranch =>
      simp only [Kind.dropChild?] at h
      split at h <;> cases h
      next heq =>
        subst heq
        exact ⟨rfl, .keep (.keep (toList_none child))⟩
  | varDecl text binding init | returnStmt init =>
      simp only [Kind.dropChild?] at h
      split at h <;> cases h
      next heq =>
        subst heq
        exact ⟨rfl, toList_none child⟩
  | _ => cases h

theorem of_replaceChild? {kind changed : Kind} {child fresh : NodeId}
    (h : kind.replaceChild? child fresh = some changed) :
    changed.head = kind.head ∧ SlotsKeep [child] kind.children changed.children := by
  refine ⟨Kind.head_of_replaceChild? h, ?_⟩
  rw [Kind.children_of_replaceChild? h]
  exact .replace child fresh kind.children

end SlotsKeep

/-! ## Single edits -/

def Store.IsClosed (store : Store) (inside : NodeId → Prop) : Prop :=
  ∀ id, inside id → ∀ child, child ∈ store.children id → inside child

/-- What a change at `target` does: the slot of the target in `holder` is filled or lost, a node
may be placed, and what is erased is in every closed set around the target. -/
structure Store.SlotChanged (store later : Store) (target : NodeId) (placed : Option NodeId)
    (holder : NodeId) (kind : Kind) : Prop where
  link : store.parent target = some holder
  head : kind.head = (store.kind holder).head
  slots : SlotsKeep [target] (store.children holder) kind.children
  grows : store.Grows later
  kinds : ∀ id, later.kind id = if id = holder then kind else store.kind id
  node : ∀ inside : NodeId → Prop, store.IsClosed inside → inside target →
    Not (inside holder) → ∀ id, Not (inside id) → id ∉ placed →
      later.node id =
        if id = holder then { store.node id with kind := kind } else store.node id

namespace Store

variable {store later : Store} {target holder : NodeId}

theorem kind_setParent (store : Store) (id owner other : NodeId) :
    (store.setParent id owner).kind other = store.kind other := by
  by_cases hne : id = other
  · subst hne
    by_cases hlt : id < store.size
    · rw [kind, setParent, node_modify_self _ _ hlt]
      rfl
    · have hsize : (store.setParent id owner).size ≤ id := by
        rw [size_setParent]
        exact Nat.le_of_not_lt hlt
      rw [kind, kind, node_of_size_le hsize, node_of_size_le (Nat.le_of_not_lt hlt)]
  · rw [kind, kind, setParent, node_modify_of_ne _ _ hne]

theorem IsClosed.node_erase {inside : NodeId → Prop} (h : store.IsClosed inside)
    (htarget : inside target) {id : NodeId} (hid : Not (inside id)) :
    (store.erase target).node id = store.node id :=
  @Store.node_erase store (fun id => Not (inside id)) target
    (fun x child hx hchild _ hkept => hkept (h x (not_not.mp hx) child hchild))
    (not_not.mpr htarget) id hid

/-- Only the kinds of the nodes in a set decide whether it is closed. -/
theorem IsClosed.congr {inside : NodeId → Prop} (h : store.IsClosed inside)
    (hkind : ∀ id, inside id → later.kind id = store.kind id) : later.IsClosed inside := by
  intro id hid child hchild
  rw [Store.children, hkind id hid] at hchild
  exact h id hid child hchild

end Store

namespace Build

variable {store later : Store} {target holder child : NodeId}

theorem place_frame (h : place holder child store = .ok ((), later)) :
    store.Grows later ∧ (∀ id, later.kind id = store.kind id) ∧
      ∀ id, id ≠ child → later.node id = store.node id := by
  have hplaced : store.Grows (store.placed child holder) ∧
      (∀ id, (store.placed child holder).kind id = store.kind id) ∧
      ∀ id, id ≠ child → (store.placed child holder).node id = store.node id :=
    ⟨(store.keeps_placed child holder).grows,
      (store.forgetMove child).kind_setParent child holder,
      fun _ hne => Store.node_modify_of_ne _ _ (Ne.symm hne)⟩
  unfold place at h
  rw [bind_ok (run_get store)] at h
  split at h
  · obtain ⟨found, middle, hfound, hset⟩ := exists_of_bind_ok h
    obtain ⟨rfl, -⟩ := lookup_cases hfound
    cases hset
    exact hplaced
  · obtain ⟨-, -, ⟨-, rfl⟩ | ⟨-, -, rfl⟩⟩ := adopt_cases h
    · exact hplaced
    · exact ⟨⟨Nat.le_refl _, fun _ _ hknown => hknown⟩, fun _ => rfl, fun _ _ => rfl⟩

theorem eraseIfOwned_cases (hlt : target < store.size)
    (h : eraseIfOwned target holder store = .ok ((), later)) :
    later = store ∨ later = store.erase target := by
  unfold eraseIfOwned at h
  rw [bind_ok (run_parentOf hlt)] at h
  split at h
  · unfold erase at h
    rw [bind_ok (run_lookup hlt)] at h
    cases h
    exact .inr rfl
  · cases h
    exact .inl rfl

/-- The slot changes first, then a node is placed, and then the target is erased. -/
theorem slotChanged_of_erase {middle : Store} {placed : Option NodeId} {kind : Kind}
    (hlink : store.parent target = some holder) (hlt : holder < store.size)
    (hhead : kind.head = (store.kind holder).head)
    (hslots : SlotsKeep [target] (store.children holder) kind.children)
    (hgrows : store.Grows middle)
    (hkinds : ∀ id, middle.kind id = (store.setKind holder kind).kind id)
    (hnode : ∀ id, id ∉ placed → middle.node id = (store.setKind holder kind).node id)
    (herase : eraseIfOwned target holder middle = .ok ((), later)) :
    store.SlotChanged later target placed holder kind := by
  have hmiddle : ∀ id, middle.kind id = if id = holder then kind else store.kind id := by
    intro id
    rw [hkinds, Store.kind, Store.node_setKind hlt]
    split <;> rfl
  have htarget : target < middle.size :=
    Nat.lt_of_lt_of_le (Store.lt_of_parent hlink) hgrows.size
  rcases eraseIfOwned_cases htarget herase with rfl | rfl
  · refine ⟨hlink, hhead, hslots, hgrows, hmiddle, fun inside _ _ _ id _ hplaced => ?_⟩
    rw [hnode id hplaced, Store.node_setKind hlt]
  · have hfades := middle.fades_erase target
    refine ⟨hlink, hhead, hslots, hgrows.trans hfades.keeps.grows,
      fun id => (hfades.kind id).trans (hmiddle id), ?_⟩
    intro inside hclosed hinside houtside id hid hplaced
    have hstill : middle.IsClosed inside := by
      refine hclosed.congr fun other hother => ?_
      rw [hmiddle, if_neg]
      rintro rfl
      exact houtside hother
    rw [hstill.node_erase hinside hid, hnode id hplaced, Store.node_setKind hlt]

theorem replace_frame (hlink : store.parent target = some holder) (hlt : holder < store.size)
    (h : replace target child store = .ok ((), later)) :
    ∃ kind, store.SlotChanged later target (some child) holder kind := by
  unfold replace at h
  rw [bind_ok (run_parentOf (Store.lt_of_parent hlink)), hlink] at h
  simp only at h
  rw [bind_ok (run_kindOf hlt)] at h
  cases hkind : (store.kind holder).replaceChild? target child with
  | none =>
      rw [hkind] at h
      cases h
  | some kind =>
      obtain ⟨hhead, hslots⟩ := SlotsKeep.of_replaceChild? hkind
      rw [hkind] at h
      simp only at h
      rw [bind_ok (run_modify _ store)] at h
      obtain ⟨_, middle, hplace, herase⟩ := exists_of_bind_ok h
      obtain ⟨hgrows, hkinds, hnode⟩ := place_frame hplace
      exact ⟨kind, slotChanged_of_erase hlink hlt hhead hslots
        ((store.keeps_setKind holder kind).grows.trans hgrows) hkinds
        (fun id hid => hnode id (fun he => hid (he ▸ rfl))) herase⟩

theorem remove_frame (hlink : store.parent target = some holder) (hlt : holder < store.size)
    (h : remove target store = .ok ((), later)) :
    ∃ kind, store.SlotChanged later target none holder kind := by
  unfold remove at h
  rw [bind_ok (run_parentOf (Store.lt_of_parent hlink)), hlink] at h
  simp only at h
  rw [bind_ok (run_kindOf hlt)] at h
  cases hkind : (store.kind holder).dropChild? target with
  | none =>
      unfold Kind.removeChild at h
      rw [hkind] at h
      by_cases hin : target ∈ (store.kind holder).children
      · simp only [if_pos hin] at h
        cases h
      · simp only [if_neg hin] at h
        cases h
  | some kind =>
      obtain ⟨hhead, hslots⟩ := SlotsKeep.of_dropChild? hkind
      unfold Kind.removeChild at h
      rw [hkind] at h
      simp only at h
      rw [bind_ok (run_modify _ store)] at h
      exact ⟨kind, slotChanged_of_erase hlink hlt hhead hslots
        (store.keeps_setKind holder kind).grows (fun _ => rfl) (fun _ _ => rfl) h⟩

end Build

/-! ## Whole commits -/

/-- The node is as it was, but for the slots that held a spot. -/
def Store.KeepsAround (base later : Store) (spots : List NodeId) (id : NodeId) : Prop :=
  ∃ kind, later.node id = { base.node id with kind := kind } ∧
    kind.head = (base.kind id).head ∧ SlotsKeep spots (base.children id) kind.children

/-- Only what stands at and below the spots changes, and the slots that held them. -/
structure Store.KeepsOutside (base later : Store) (spots : List NodeId) : Prop where
  /-- No number is lost, and recorded types mean what they meant. -/
  grows : base.Grows later
  /-- Nodes outside the subtrees of the spots that hold none of the spots stay. -/
  node : ∀ id, id < base.size → (∀ spot, spot ∈ spots → id ∉ base.preorder spot) →
    (∀ spot, spot ∈ spots → base.parent spot ≠ some id) → later.node id = base.node id
  /-- The holder of a spot may have something else in the slot of that spot, or lose it. -/
  holder : ∀ id, id < base.size → (∀ spot, spot ∈ spots → id ∉ base.preorder spot) →
    base.KeepsAround later spots id

/-- Targets of the edits of one commit: subtrees other than the whole, none below another. -/
structure Tree.Targets (tree : Tree) (olds : List Tree) : Prop where
  mem : ∀ old, old ∈ olds → old ∈ tree.subtrees ∧ old ≠ tree
  apart : (olds.flatMap Tree.ids).Nodup

/-- Between the edits of one commit: outside the targets only the slots that held them have
changed, and those in `pending` are still where they were. -/
structure Midway (base : Store) (olds : List Tree) (pending : List NodeId) (store : Store) :
    Prop where
  grows : base.Grows store
  kinds : ∀ id, id ∈ olds.flatMap Tree.ids → store.kind id = base.kind id
  link : ∀ id, id ∈ pending → store.parent id = base.parent id
  node : ∀ id, id < base.size → id ∉ olds.flatMap Tree.ids →
    (∀ old, old ∈ olds → base.parent old.id ≠ some id) → store.node id = base.node id
  holder : ∀ id, id < base.size → id ∉ olds.flatMap Tree.ids →
    base.KeepsAround store (olds.map Tree.id) id

section

variable {base store later : Store} {tree old : Tree} {olds trees : List Tree}
  {region pending : List NodeId}

theorem Tree.Targets.exists_holder (h : tree.Targets olds) (hbase : base.Holds tree)
    (hold : old ∈ olds) :
    ∃ holder, base.parent old.id = some holder ∧ holder < base.size ∧
      holder ∉ olds.flatMap Tree.ids := by
  obtain ⟨hmem, hne⟩ := h.mem old hold
  obtain ⟨holder, hholder, hslot⟩ := Tree.exists_holder hmem hne
  refine ⟨holder.id, (hbase.held.of_slot hholder hslot).link,
    hbase.laid.lt (Tree.ids_subset_of_mem hholder holder.id_mem_ids), ?_⟩
  intro hin
  obtain ⟨other, hother, hid⟩ := List.mem_flatMap.mp hin
  obtain ⟨below, hbelow, he⟩ := Tree.mem_ids_iff.mp hid
  obtain rfl : below = holder := Tree.eq_of_id_eq hbase.nodup
    (Tree.mem_subtrees_trans hbelow (h.mem other hother).1) hholder he
  -- a target below another one would share its numbers with it
  have hshared : old ∈ other.subtrees := Tree.slot_mem_subtrees hbelow hslot
  obtain rfl : other = old := Tree.eq_of_common_id h.apart hother hold
    (Tree.mem_ids_iff.mpr ⟨old, hshared, rfl⟩) old.id_mem_ids
  exact Tree.ne_of_mem_slot hbelow hslot (Tree.mem_subtrees_self _) rfl

/-- The numbers of a tree that the slots spell out are a closed set. -/
theorem Store.isClosed_ids (h : tree.Laid base) : base.IsClosed (fun id => id ∈ tree.ids) := by
  intro id hid child hchild
  obtain ⟨below, hbelow, rfl⟩ := Tree.mem_ids_iff.mp hid
  cases h.of_mem hbelow with
  | @node id head type subs shows _ =>
      have hchildren : base.children id = subs.map Tree.id := shows.children
      obtain ⟨sub, hsub, rfl⟩ := List.mem_map.mp (hchildren ▸ hchild)
      exact Tree.mem_ids_iff.mpr ⟨sub, Tree.slot_mem_subtrees hbelow hsub, rfl⟩

/-- A node that an edit places is new or stands strictly below a target. -/
def Placeable (base : Store) (olds : List Tree) (id : NodeId) : Prop :=
  base.size ≤ id ∨ ∃ old ∈ olds, id ∈ old.subs.flatMap Tree.ids

theorem Tree.Targets.ne_of_placeable (h : tree.Targets olds) (hbase : base.Holds tree)
    (hold : old ∈ olds) {id : NodeId} (hplace : Placeable base olds id) : id ≠ old.id := by
  rintro rfl
  rcases hplace with hnew | ⟨other, hother, hin⟩
  · exact Nat.not_lt.mpr hnew
      (hbase.laid.lt (Tree.ids_subset_of_mem (h.mem old hold).1 old.id_mem_ids))
  · have hids : old.id ∈ other.ids := Tree.slots_subset_ids _ hin
    obtain rfl := Tree.eq_of_common_id h.apart hother hold hids old.id_mem_ids
    exact Tree.id_not_mem_slots (Tree.nodup_ids_of_mem hbase.nodup (h.mem other hother).1) hin

theorem Midway.step {placed : Option NodeId} {holder : NodeId} {kind : Kind}
    (h : Midway base olds (old.id :: pending) store) (hbase : base.Holds tree)
    (htargets : tree.Targets olds) (hold : old ∈ olds) (hdone : old.id ∉ pending)
    (hpending : pending ⊆ olds.map Tree.id)
    (hplaced : ∀ id, id ∈ placed → Placeable base olds id)
    (hchange : store.SlotChanged later old.id placed holder kind) :
    Midway base olds pending later := by
  have hids : old.ids ⊆ olds.flatMap Tree.ids :=
    fun id hid => List.mem_flatMap.mpr ⟨old, hold, hid⟩
  obtain ⟨owner, howner, -, houtside⟩ := htargets.exists_holder hbase hold
  have hlink : base.parent old.id = some holder :=
    (h.link _ (List.mem_cons_self ..)).symm.trans hchange.link
  obtain rfl : owner = holder := Option.some.inj (howner.symm.trans hlink)
  -- kinds below the targets are as they were, so what is erased stays below this one
  have hclosed : store.IsClosed (fun id => id ∈ old.ids) :=
    (Store.isClosed_ids (hbase.laid.of_mem (htargets.mem old hold).1)).congr
      (fun id hid => h.kinds id (hids hid))
  have hnode : ∀ id, id ∉ old.ids → id ∉ placed → later.node id =
      if id = owner then { store.node id with kind := kind } else store.node id :=
    hchange.node _ hclosed old.id_mem_ids (fun hin => houtside (hids hin))
  -- what is placed is new or was taken from below a target
  have hunplaced : ∀ id, id < base.size → id ∉ olds.flatMap Tree.ids → id ∉ placed := by
    intro id hlt hout hin
    rcases hplaced id hin with hnew | ⟨other, hother, hbelow⟩
    · exact Nat.not_lt.mpr hnew hlt
    · exact hout (List.mem_flatMap.mpr ⟨other, hother, other.slots_subset_ids hbelow⟩)
  refine ⟨h.grows.trans hchange.grows, fun id hid => ?_, fun id hid => ?_,
    fun id hlt hout hnone => ?_, fun id hlt hout => ?_⟩
  · have hne : id ≠ owner := by
      rintro rfl
      exact houtside hid
    rw [hchange.kinds, if_neg hne]
    exact h.kinds id hid
  · obtain ⟨other, hother, rfl⟩ := List.mem_map.mp (hpending hid)
    have hapart : other.id ∉ old.ids := by
      intro hin
      obtain rfl := Tree.eq_of_common_id htargets.apart hother hold other.id_mem_ids hin
      exact hdone hid
    have hfree : other.id ∉ placed :=
      fun hin => htargets.ne_of_placeable hbase hother (hplaced _ hin) rfl
    rw [← h.link _ (List.mem_cons_of_mem _ hid), Store.parent, hnode _ hapart hfree]
    split <;> rfl
  · have hne : id ≠ owner := by
      rintro rfl
      exact hnone old hold hlink
    rw [hnode id (fun hin => hout (hids hin)) (hunplaced id hlt hout), if_neg hne]
    exact h.node id hlt hout hnone
  · have hlater := hnode id (fun hin => hout (hids hin)) (hunplaced id hlt hout)
    obtain ⟨former, hformer, hhead, hslots⟩ := h.holder id hlt hout
    by_cases hid : id = owner
    · subst hid
      have hkind : store.kind id = former := by rw [Store.kind, hformer]
      refine ⟨kind, ?_, ?_, hslots.trans ?_⟩
      · rw [hlater, if_pos rfl, hformer]
      · rw [hchange.head, hkind, hhead]
      · have hone : [old.id] ⊆ olds.map Tree.id := by
          simpa using ⟨old, hold, rfl⟩
        have hchanged := hchange.slots.mono hone
        rwa [Store.children, hkind] at hchanged
    · rw [if_neg hid] at hlater
      exact ⟨former, hlater.trans hformer, hhead, hslots⟩

/-- The edit replaces or removes a target, and what it places is at hand. -/
def Edit.IsAmong (edit : Edit) (base : Store) (olds : List Tree) : Prop :=
  edit.target ∈ olds.map Tree.id ∧ (edit.change = .remove ∨
    ∃ child, edit.change = .replace child ∧ Placeable base olds child.node)

theorem Build.applyEdit_frame {edit : Edit} {holder : NodeId} (hedit : edit.IsAmong base olds)
    (hlink : store.parent edit.target = some holder) (hlt : holder < store.size)
    (hrun : Build.applyEdit edit store = .ok ((), later)) :
    ∃ placed kind, (∀ id, id ∈ placed → Placeable base olds id) ∧
      store.SlotChanged later edit.target placed holder kind := by
  unfold Build.applyEdit at hrun
  rcases hedit.2 with hchange | ⟨child, hchange, hplace⟩
  · rw [hchange] at hrun
    obtain ⟨kind, hframe⟩ := Build.remove_frame hlink hlt hrun
    exact ⟨none, kind, by simp, hframe⟩
  · rw [hchange] at hrun
    obtain ⟨kind, hframe⟩ := Build.replace_frame hlink hlt hrun
    exact ⟨some child.node, kind, by simpa using hplace, hframe⟩

/-- A commit settles the claims, carries out the edits and changes no node after that. -/
theorem Build.exists_of_commit {edits : List Edit}
    (h : Build.commit edits store = .ok ((), later)) :
    ∃ middle, edits.forM Build.applyEdit store.settle = .ok ((), middle) ∧
      middle.Grows later ∧ ∀ id, later.node id = middle.node id := by
  unfold Build.commit at h
  rw [bind_ok (run_modify Store.settle store)] at h
  obtain ⟨_, middle, hrun, hrest⟩ := exists_of_bind_ok h
  refine ⟨middle, hrun, ?_⟩
  rw [bind_ok (run_get middle)] at hrest
  split at hrest
  · cases hrest
  · cases hrest
    exact ⟨⟨Nat.le_refl _, fun _ _ hknown => hknown⟩, fun _ => rfl⟩

/-- All edits of a commit, one after the other. -/
theorem Midway.run {edits : List Edit} (h : Midway base olds (edits.map Edit.target) store)
    (hbase : base.Holds tree) (htargets : tree.Targets olds)
    (hdistinct : (edits.map Edit.target).Nodup)
    (hedits : ∀ edit, edit ∈ edits → edit.IsAmong base olds)
    (hrun : edits.forM Build.applyEdit store = .ok ((), later)) : Midway base olds [] later := by
  induction edits generalizing store with
  | nil =>
      cases hrun
      exact h
  | cons edit rest ih =>
      obtain ⟨_, middle, hedit, hrest⟩ := Build.exists_of_bind_ok hrun
      have hfirst := hedits edit (List.mem_cons_self ..)
      obtain ⟨old, hold, hid⟩ := List.mem_map.mp hfirst.1
      obtain ⟨holder, howner, hlt, -⟩ := htargets.exists_holder hbase hold
      rw [List.map_cons] at h hdistinct
      rw [List.nodup_cons] at hdistinct
      have hlink : store.parent edit.target = some holder := by
        rw [h.link _ (List.mem_cons_self ..), ← hid]
        exact howner
      obtain ⟨placed, kind, hplaced, hchange⟩ :=
        Build.applyEdit_frame hfirst hlink (Nat.lt_of_lt_of_le hlt h.grows.size) hedit
      rw [← hid] at h hdistinct hchange
      have hpending : rest.map Edit.target ⊆ olds.map Tree.id := by
        intro id hin
        obtain ⟨other, hother, rfl⟩ := List.mem_map.mp hin
        exact (hedits other (List.mem_cons_of_mem _ hother)).1
      exact ih (h.step hbase htargets hold hdistinct.1 hpending hplaced hchange) hdistinct.2
        (fun other hother => hedits other (List.mem_cons_of_mem _ hother)) hrest

/-- Before the first edit, claims are settled: that changes nothing outside the targets. -/
theorem Draft.midway (h : Draft base region store trees) (hbase : base.Holds tree)
    (htargets : tree.Targets olds)
    (hregion : ∀ id, id ∈ region → ∃ old ∈ olds, id ∈ old.subs.flatMap Tree.ids) :
    Midway base olds (olds.map Tree.id) store.settle := by
  have hsettled : ∀ id, id < base.size → id ∉ region →
      store.settle.node id = base.node id := by
    intro id hlt hout
    refine h.settle_old hlt (h.claim?_eq_none fun hin => ?_)
    rcases h.origin id hin with hnew | hregion
    · exact Nat.not_lt.mpr hnew hlt
    · exact hout hregion
  have hbelow : ∀ id, id ∈ region → id ∈ olds.flatMap Tree.ids := by
    intro id hid
    obtain ⟨old, hold, hin⟩ := hregion id hid
    exact List.mem_flatMap.mpr ⟨old, hold, old.slots_subset_ids hin⟩
  have hltOf : ∀ id, id ∈ olds.flatMap Tree.ids → id < base.size := by
    intro id hid
    obtain ⟨old, hold, hin⟩ := List.mem_flatMap.mp hid
    exact hbase.laid.lt (Tree.ids_subset_of_mem (htargets.mem old hold).1 hin)
  refine ⟨h.grows.trans (Store.grows_settle store), fun id hid => ?_, fun id hid => ?_,
    fun id hlt hout _ => hsettled id hlt (fun hin => hout (hbelow id hin)), fun id hlt hout => ?_⟩
  · rw [Store.kind, h.node_settle, h.old id (hltOf id hid)]
    rfl
  · obtain ⟨old, hold, rfl⟩ := List.mem_map.mp hid
    have hlt := hltOf _ (List.mem_flatMap.mpr ⟨old, hold, old.id_mem_ids⟩)
    rw [Store.parent, hsettled _ hlt]
    · rfl
    · exact fun hin => htargets.ne_of_placeable hbase hold (.inr (hregion _ hin)) rfl
  · exact ⟨base.kind id, hsettled id hlt (fun hin => hout (hbelow id hin)), rfl, .refl ..⟩

/-- A commit of edits of the targets changes nothing outside them but the slots that held
them. -/
theorem Draft.commit_keepsOutside {edits : List Edit} (h : Draft base region store trees)
    (hbase : base.Holds tree) (htargets : tree.Targets olds)
    (hregion : ∀ id, id ∈ region → ∃ old ∈ olds, id ∈ old.subs.flatMap Tree.ids)
    (hids : edits.map Edit.target = olds.map Tree.id)
    (hchanges : ∀ edit, edit ∈ edits → edit.change = .remove ∨
      ∃ child, edit.change = .replace child ∧ child.node ∈ trees.map Tree.id)
    (hrun : Build.commit edits store = .ok ((), later)) :
    base.KeepsOutside later (olds.map Tree.id) := by
  have hedits : ∀ edit, edit ∈ edits → edit.IsAmong base olds := by
    intro edit hedit
    refine ⟨hids ▸ List.mem_map_of_mem hedit, (hchanges edit hedit).imp_right ?_⟩
    rintro ⟨child, hchange, hchild⟩
    obtain ⟨new, hnew, he⟩ := List.mem_map.mp hchild
    refine ⟨child, hchange, ?_⟩
    rw [← he]
    exact (h.origin _ (List.mem_flatMap.mpr ⟨new, hnew, new.id_mem_ids⟩)).imp_right (hregion _)
  have hstart := h.midway hbase htargets hregion
  obtain ⟨middle, hforM, hgrows, hnodes⟩ := Build.exists_of_commit hrun
  rw [← hids] at hstart
  have hend := hstart.run hbase htargets (hids ▸ Tree.nodup_map_id htargets.apart) hedits hforM
  have houtside : ∀ id, (∀ spot, spot ∈ olds.map Tree.id → id ∉ base.preorder spot) →
      id ∉ olds.flatMap Tree.ids := by
    intro id hout hin
    obtain ⟨old, hold, hid⟩ := List.mem_flatMap.mp hin
    refine hout old.id (List.mem_map_of_mem hold) ?_
    rwa [hbase.preorder_eq (htargets.mem old hold).1]
  refine ⟨hend.grows.trans hgrows, fun id hlt hout hnone => ?_, fun id hlt hout => ?_⟩
  · rw [hnodes]
    exact hend.node id hlt (houtside id hout) (fun old hold => hnone _ (List.mem_map_of_mem hold))
  · obtain ⟨kind, hnode, hkept⟩ := hend.holder id hlt (houtside id hout)
    exact ⟨kind, (hnodes id).trans hnode, hkept⟩

theorem Draft.commit_keepsOthers {change : Change} (h : Draft base region store trees)
    (hbase : base.Holds tree) (hold : old ∈ tree.subtrees) (hne : old ≠ tree)
    (hregion : region ⊆ old.subs.flatMap Tree.ids)
    (hchange : change = .remove ∨
      ∃ child, change = .replace child ∧ child.node ∈ trees.map Tree.id)
    (hrun : Build.commit [⟨old.id, change⟩] store = .ok ((), later)) :
    base.KeepsOutside later [old.id] := by
  have htargets : tree.Targets [old] :=
    ⟨by simpa using ⟨hold, hne⟩, by simpa using Tree.nodup_ids_of_mem hbase.nodup hold⟩
  refine h.commit_keepsOutside hbase htargets ?_ rfl (by simpa using hchange) hrun
  exact fun id hid => ⟨old, List.mem_singleton_self _, hregion hid⟩

/-- What is kept outside of subtrees below a node is kept outside of the node. -/
theorem Store.KeepsOutside.above (h : base.KeepsOutside later (olds.map Tree.id))
    (hbase : base.Holds tree) (hold : old ∈ tree.subtrees)
    (hbelow : ∀ inner, inner ∈ olds → inner ∈ old.subtrees ∧ inner ≠ old) :
    base.KeepsOutside later [old.id] := by
  have hnode : ∀ id, id < base.size → id ∉ old.ids → later.node id = base.node id := by
    intro id hlt hout
    refine h.node id hlt (fun spot hspot => ?_) (fun spot hspot => ?_)
    · obtain ⟨inner, hinner, rfl⟩ := List.mem_map.mp hspot
      have hmem := (hbelow inner hinner).1
      rw [hbase.preorder_eq (Tree.mem_subtrees_trans hmem hold)]
      exact fun hin => hout (Tree.ids_subset_of_mem hmem hin)
    · obtain ⟨inner, hinner, rfl⟩ := List.mem_map.mp hspot
      obtain ⟨holder, hholder, hslot⟩ :=
        Tree.exists_holder (hbelow inner hinner).1 (hbelow inner hinner).2
      rw [(hbase.held.of_slot (Tree.mem_subtrees_trans hholder hold) hslot).link]
      intro he
      exact hout (Option.some.inj he ▸ Tree.mem_ids_iff.mpr ⟨holder, hholder, rfl⟩)
  have houtside : ∀ id, (∀ spot, spot ∈ [old.id] → id ∉ base.preorder spot) →
      id ∉ old.ids := by
    intro id hout
    rw [← hbase.preorder_eq hold]
    exact hout old.id (List.mem_singleton_self _)
  exact ⟨h.grows, fun id hlt hout _ => hnode id hlt (houtside id hout),
    fun id hlt hout => ⟨base.kind id, hnode id hlt (houtside id hout), rfl, .refl ..⟩⟩

end

end CodeTidy
