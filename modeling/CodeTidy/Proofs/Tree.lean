import CodeTidy.Proofs.Term
import Mathlib.Algebra.Order.BigOperators.Group.List
import Mathlib.Algebra.Order.Ring.Nat
import Mathlib.Data.List.Nodup

/-!
# Trees of numbered nodes

A tree is a term whose nodes carry their numbers.  `Tree.Laid` says that the slots
of a store spell out a tree, and `Tree.Held` says in addition that every parent link
names the holder of the slot and that no node is erased.  The second is what a
sound compilation unit looks like; the first is all that the readings of a tree
depend on.
-/

namespace CodeTidy

/-- A term whose nodes are numbered. -/
inductive Tree where
  | node (id : NodeId) (head : Head) (type : Option TypeDesc) (subs : List Tree)

namespace Tree

def id : Tree → NodeId
  | node id _ _ _ => id

def subs : Tree → List Tree
  | node _ _ _ subs => subs

@[simp] theorem id_node (i : NodeId) (h : Head) (type : Option TypeDesc) (subs : List Tree) :
    (node i h type subs).id = i := rfl

@[simp] theorem subs_node (i : NodeId) (h : Head) (type : Option TypeDesc)
    (subs : List Tree) : (node i h type subs).subs = subs := rfl

/-- A property of every tree follows if it passes from the slots to the node. -/
@[elab_as_elim, induction_eliminator]
theorem induct {motive : Tree → Prop}
    (node : ∀ id head type subs, (∀ sub, sub ∈ subs → motive sub) →
      motive (.node id head type subs)) (tree : Tree) : motive tree :=
  @Tree.rec motive (fun subs => ∀ sub, sub ∈ subs → motive sub)
    node
    (fun _ hmem => nomatch hmem)
    (fun _ _ hfirst hrest _ hmem =>
      match List.mem_cons.mp hmem with
      | .inl heq => heq ▸ hfirst
      | .inr hlater => hrest _ hlater)
    tree

mutual

def fold {α : Type} (step : NodeId → Head → Option TypeDesc → List α → α) : Tree → α
  | node id head type subs => step id head type (foldList step subs)

def foldList {α : Type} (step : NodeId → Head → Option TypeDesc → List α → α) :
    List Tree → List α
  | [] => []
  | sub :: rest => fold step sub :: foldList step rest

end

@[simp] theorem fold_node {α : Type}
    (step : NodeId → Head → Option TypeDesc → List α → α) (id : NodeId) (head : Head)
    (type : Option TypeDesc) (subs : List Tree) :
    fold step (node id head type subs) = step id head type (subs.map (fold step)) := by
  have hlist : ∀ subs : List Tree, foldList step subs = subs.map (fold step) := by
    intro subs
    induction subs with
    | nil => rfl
    | cons sub rest ih => rw [foldList, ih, List.map_cons]
  rw [fold, hlist]

def term : Tree → Term :=
  fold (fun _ head type below => .node head type below)

@[simp] theorem term_node (id : NodeId) (head : Head) (type : Option TypeDesc)
    (subs : List Tree) :
    (node id head type subs).term = .node head type (subs.map term) := by
  simp [term]

def height : Tree → Nat :=
  fold (fun _ _ _ below => below.foldr max 0 + 1)

/-- The numbers of all nodes, every node before the nodes below it. -/
def ids : Tree → List NodeId :=
  fold (fun id _ _ below => id :: below.flatten)

@[simp] theorem ids_node (id : NodeId) (head : Head) (type : Option TypeDesc)
    (subs : List Tree) : (node id head type subs).ids = id :: subs.flatMap ids := by
  simp [ids, List.flatMap]

theorem ids_eq (tree : Tree) : tree.ids = tree.id :: tree.subs.flatMap ids := by
  cases tree
  rw [ids_node, id_node, subs_node]

theorem height_node (id : NodeId) (head : Head) (type : Option TypeDesc)
    (subs : List Tree) :
    (node id head type subs).height = (subs.map height).foldr max 0 + 1 := by
  simp [height]

theorem id_mem_ids (tree : Tree) : tree.id ∈ tree.ids := by
  cases tree
  simp

theorem le_foldr_max {heights : List Nat} {h : Nat} (hmem : h ∈ heights) :
    h ≤ heights.foldr max 0 := by
  induction heights with
  | nil => cases hmem
  | cons first rest ih =>
      rcases List.mem_cons.mp hmem with rfl | hrest
      · exact le_max_left _ _
      · exact le_trans (ih hrest) (le_max_right _ _)

theorem foldr_max_le {heights : List Nat} {bound : Nat}
    (h : ∀ x, x ∈ heights → x ≤ bound) : heights.foldr max 0 ≤ bound := by
  induction heights with
  | nil => exact Nat.zero_le _
  | cons first rest ih =>
      exact max_le (h first (by simp)) (ih (fun x hx => h x (by simp [hx])))

theorem height_lt_of_mem {tree sub : Tree} (hmem : sub ∈ tree.subs) :
    sub.height < tree.height := by
  cases tree with
  | node id head type subs =>
      rw [height_node]
      exact Nat.lt_succ_of_le (le_foldr_max (List.mem_map_of_mem hmem))

theorem height_slot_lt (id : NodeId) (head : Head) (type : Option TypeDesc)
    {subs : List Tree} {sub : Tree} (hmem : sub ∈ subs) :
    sub.height < (node id head type subs).height :=
  height_lt_of_mem hmem

theorem height_pos (tree : Tree) : 0 < tree.height := by
  cases tree
  rw [height_node]
  omega

theorem height_le_of_subs {tree : Tree} {bound : Nat}
    (h : ∀ sub, sub ∈ tree.subs → sub.height ≤ bound) : tree.height ≤ bound + 1 := by
  cases tree with
  | node id head type subs =>
      rw [height_node]
      refine Nat.succ_le_succ (foldr_max_le ?_)
      intro x hx
      obtain ⟨sub, hsub, rfl⟩ := List.mem_map.mp hx
      exact h sub hsub

theorem height_le_length_ids (tree : Tree) : tree.height ≤ tree.ids.length := by
  induction tree with
  | node id head type subs ih =>
      rw [ids_node, List.length_cons]
      apply height_le_of_subs
      intro sub hsub
      calc
        sub.height ≤ sub.ids.length := ih sub hsub
        _ ≤ (subs.flatMap ids).length := by
          rw [List.length_flatMap]
          exact List.le_sum_of_mem (List.mem_map_of_mem hsub)

/-! ## Subtrees -/

mutual

/-- All trees at and below a tree, every tree before the trees below it. -/
def subtrees : Tree → List Tree
  | node id head type subs => node id head type subs :: subtreesList subs

def subtreesList : List Tree → List Tree
  | [] => []
  | sub :: rest => subtrees sub ++ subtreesList rest

end

@[simp] theorem subtrees_node (id : NodeId) (head : Head) (type : Option TypeDesc)
    (subs : List Tree) :
    (node id head type subs).subtrees = node id head type subs :: subs.flatMap subtrees := by
  have hlist : ∀ subs : List Tree, subtreesList subs = subs.flatMap subtrees := by
    intro subs
    induction subs with
    | nil => rfl
    | cons sub rest ih => rw [subtreesList, ih, List.flatMap_cons]
  rw [subtrees, hlist]

theorem mem_subtrees_self (tree : Tree) : tree ∈ tree.subtrees := by
  cases tree
  simp

theorem mem_subtrees_of_sub {tree sub below : Tree} (hsub : sub ∈ tree.subs)
    (hbelow : below ∈ sub.subtrees) : below ∈ tree.subtrees := by
  cases tree with
  | node id head type subs =>
      rw [subtrees_node]
      exact List.mem_cons_of_mem _ (List.mem_flatMap.mpr ⟨sub, hsub, hbelow⟩)

theorem sub_mem_subtrees {tree sub : Tree} (hsub : sub ∈ tree.subs) : sub ∈ tree.subtrees :=
  mem_subtrees_of_sub hsub (mem_subtrees_self sub)

/-- A tree at or below another is the other, or is at or below one of its slots. -/
theorem mem_subtrees_iff {tree below : Tree} :
    below ∈ tree.subtrees ↔ below = tree ∨ ∃ sub ∈ tree.subs, below ∈ sub.subtrees := by
  cases tree with
  | node id head type subs => simp [List.mem_flatMap]

theorem mem_subtrees_trans {tree middle below : Tree} (hbelow : below ∈ middle.subtrees)
    (hmiddle : middle ∈ tree.subtrees) : below ∈ tree.subtrees := by
  induction tree with
  | node id head type subs ih =>
      rcases mem_subtrees_iff.mp hmiddle with rfl | ⟨sub, hsub, hin⟩
      · exact hbelow
      · exact mem_subtrees_of_sub hsub (ih sub hsub hin)

theorem slot_mem_subtrees {tree above sub : Tree} (habove : above ∈ tree.subtrees)
    (hsub : sub ∈ above.subs) : sub ∈ tree.subtrees :=
  mem_subtrees_trans (sub_mem_subtrees hsub) habove

theorem ids_eq_map_subtrees (tree : Tree) : tree.ids = tree.subtrees.map Tree.id := by
  induction tree with
  | node id head type subs ih =>
      rw [ids_node, subtrees_node, List.map_cons, id_node, List.map_flatMap]
      exact congrArg _ (List.flatMap_congr ih)

theorem mem_ids_iff {tree : Tree} {id : NodeId} :
    id ∈ tree.ids ↔ ∃ below ∈ tree.subtrees, below.id = id := by
  rw [ids_eq_map_subtrees, List.mem_map]

theorem ids_subset_of_mem {tree below : Tree} (h : below ∈ tree.subtrees) :
    below.ids ⊆ tree.ids := by
  intro id hid
  obtain ⟨found, hfound, rfl⟩ := mem_ids_iff.mp hid
  exact mem_ids_iff.mpr ⟨found, mem_subtrees_trans hfound h, rfl⟩

theorem height_le_of_mem {tree below : Tree} (h : below ∈ tree.subtrees) :
    below.height ≤ tree.height := by
  induction tree with
  | node id head type subs ih =>
      rcases mem_subtrees_iff.mp h with rfl | ⟨sub, hsub, hin⟩
      · exact Nat.le_refl _
      · exact Nat.le_of_lt (Nat.lt_of_le_of_lt (ih sub hsub hin) (height_lt_of_mem hsub))

/-- What stands in a slot of a subtree is not the tree itself. -/
theorem ne_of_mem_slot {tree above sub below : Tree} (habove : above ∈ tree.subtrees)
    (hsub : sub ∈ above.subs) (hbelow : below ∈ sub.subtrees) : below ≠ tree := by
  rintro rfl
  have h₁ := height_le_of_mem hbelow
  have h₂ := height_lt_of_mem hsub
  have h₃ := height_le_of_mem habove
  omega

/-- In a tree without repeated numbers, a number belongs to one subtree. -/
theorem eq_of_id_eq {tree a b : Tree} (hnodup : tree.ids.Nodup) (ha : a ∈ tree.subtrees)
    (hb : b ∈ tree.subtrees) (hid : a.id = b.id) : a = b := by
  rw [ids_eq_map_subtrees] at hnodup
  exact List.inj_on_of_nodup_map hnodup ha hb hid

theorem id_ne_of_mem {tree below : Tree} (hnodup : tree.ids.Nodup) (hbelow : below ∈ tree.subtrees)
    (hne : below ≠ tree) : tree.id ≠ below.id :=
  fun he => hne (eq_of_id_eq hnodup hbelow (mem_subtrees_self tree) he.symm)

theorem exists_holder {tree below : Tree} (h : below ∈ tree.subtrees) (hne : below ≠ tree) :
    ∃ holder ∈ tree.subtrees, below ∈ holder.subs := by
  induction tree with
  | node id head type subs ih =>
      rcases mem_subtrees_iff.mp h with heq | ⟨sub, hsub, hin⟩
      · exact absurd heq hne
      · by_cases heq : below = sub
        · exact ⟨_, mem_subtrees_self _, heq ▸ hsub⟩
        · obtain ⟨holder, hholder, hslot⟩ := ih sub hsub hin heq
          exact ⟨holder, mem_subtrees_of_sub hsub hholder, hslot⟩

theorem nodup_ids_of_mem {tree below : Tree} (hnodup : tree.ids.Nodup)
    (h : below ∈ tree.subtrees) : below.ids.Nodup := by
  induction tree with
  | node id head type subs ih =>
      rcases mem_subtrees_iff.mp h with rfl | ⟨sub, hsub, hin⟩
      · exact hnodup
      · rw [ids_node, List.nodup_cons, List.nodup_flatMap] at hnodup
        exact ih sub hsub (hnodup.2.1 sub hsub) hin

theorem slots_subset_ids (tree : Tree) : tree.subs.flatMap ids ⊆ tree.ids := by
  rw [ids_eq]
  exact List.subset_cons_self ..

theorem nodup_slots {tree : Tree} (hnodup : tree.ids.Nodup) : (tree.subs.flatMap ids).Nodup := by
  rw [ids_eq, List.nodup_cons] at hnodup
  exact hnodup.2

theorem id_not_mem_slots {tree : Tree} (hnodup : tree.ids.Nodup) :
    tree.id ∉ tree.subs.flatMap ids := by
  rw [ids_eq, List.nodup_cons] at hnodup
  exact hnodup.1

theorem id_not_mem_slot {tree sub : Tree} (hnodup : tree.ids.Nodup) (hsub : sub ∈ tree.subs) :
    tree.id ∉ sub.ids :=
  fun hin => id_not_mem_slots hnodup (List.mem_flatMap.mpr ⟨sub, hsub, hin⟩)

/-- Trees without common nodes: a number belongs to one of them. -/
theorem eq_of_common_id {trees : List Tree} (hnodup : (trees.flatMap ids).Nodup) {a b : Tree}
    (ha : a ∈ trees) (hb : b ∈ trees) {id : NodeId} (hina : id ∈ a.ids) (hinb : id ∈ b.ids) :
    a = b := by
  induction trees with
  | nil => cases ha
  | cons tree rest ih =>
      rw [List.flatMap_cons, List.nodup_append'] at hnodup
      obtain ⟨_, hrest, hapart⟩ := hnodup
      rcases List.mem_cons.mp ha with rfl | ha' <;> rcases List.mem_cons.mp hb with rfl | hb'
      · rfl
      · exact (hapart hina (List.mem_flatMap.mpr ⟨b, hb', hinb⟩)).elim
      · exact (hapart hinb (List.mem_flatMap.mpr ⟨a, ha', hina⟩)).elim
      · exact ih hrest ha' hb'

theorem nodup_map_id {trees : List Tree} (hnodup : (trees.flatMap ids).Nodup) :
    (trees.map Tree.id).Nodup := by
  induction trees with
  | nil => exact List.nodup_nil
  | cons tree rest ih =>
      rw [List.flatMap_cons, List.nodup_append'] at hnodup
      rw [List.map_cons, List.nodup_cons]
      refine ⟨?_, ih hnodup.2.1⟩
      intro hmem
      obtain ⟨other, hother, hid⟩ := List.mem_map.mp hmem
      exact hnodup.2.2 tree.id_mem_ids
        (List.mem_flatMap.mpr ⟨other, hother, hid ▸ other.id_mem_ids⟩)

theorem map_id_subset (trees : List Tree) : trees.map Tree.id ⊆ trees.flatMap ids := by
  intro id hid
  obtain ⟨tree, htree, rfl⟩ := List.mem_map.mp hid
  exact List.mem_flatMap.mpr ⟨tree, htree, tree.id_mem_ids⟩

/-! ## Replacing a subtree -/

mutual

/-- The tree with `fresh` in the slot of `target`, or without that slot. -/
def put (target : NodeId) (fresh : Option Tree) : Tree → Tree
  | node id head type subs => node id head type (putList target fresh subs)

def putList (target : NodeId) (fresh : Option Tree) : List Tree → List Tree
  | [] => []
  | sub :: rest =>
      (if sub.id = target then fresh.toList else [put target fresh sub]) ++
        putList target fresh rest

end

def putSlot (target : NodeId) (fresh : Option Tree) (sub : Tree) : List Tree :=
  if sub.id = target then fresh.toList else [sub.put target fresh]

@[simp] theorem put_node (target : NodeId) (fresh : Option Tree) (id : NodeId) (head : Head)
    (type : Option TypeDesc) (subs : List Tree) :
    put target fresh (node id head type subs) =
      node id head type (subs.flatMap (putSlot target fresh)) := by
  have hlist : ∀ subs : List Tree,
      putList target fresh subs = subs.flatMap (putSlot target fresh) := by
    intro subs
    induction subs with
    | nil => rfl
    | cons sub rest ih => rw [putList, ih, List.flatMap_cons, putSlot]
  rw [put, hlist]

@[simp] theorem id_put (target : NodeId) (fresh : Option Tree) (tree : Tree) :
    (put target fresh tree).id = tree.id := by
  cases tree
  simp

def putId (target : NodeId) (fresh : List NodeId) (id : NodeId) : List NodeId :=
  if id = target then fresh else [id]

theorem flatMap_putId_of_not_mem {target : NodeId} {fresh ids : List NodeId}
    (h : target ∉ ids) : ids.flatMap (putId target fresh) = ids := by
  have hid : ∀ id, id ∈ ids → putId target fresh id = [id] := by
    intro id hmem
    have hne : id ≠ target := fun he => h (he ▸ hmem)
    simp [putId, hne]
  rw [List.flatMap_congr hid]
  simp

theorem map_id_flatMap_putSlot (target : NodeId) (fresh : Option Tree) (subs : List Tree) :
    (subs.flatMap (putSlot target fresh)).map Tree.id =
      (subs.map Tree.id).flatMap (putId target (fresh.toList.map Tree.id)) := by
  induction subs with
  | nil => rfl
  | cons sub rest ih =>
      rw [List.flatMap_cons, List.map_append, ih, List.map_cons, List.flatMap_cons]
      congr 1
      unfold putSlot putId
      split <;> simp

theorem put_of_not_mem {target : NodeId} {fresh : Option Tree} {tree : Tree}
    (h : target ∉ tree.subs.flatMap ids) : tree.put target fresh = tree := by
  induction tree with
  | node id head type subs ih =>
      rw [put_node]
      congr 1
      have hslot : ∀ sub, sub ∈ subs → putSlot target fresh sub = [sub] := by
        intro sub hsub
        have hout : target ∉ sub.ids := fun hin =>
          h (List.mem_flatMap.mpr ⟨sub, hsub, hin⟩)
        have hid : sub.id ≠ target := fun he => hout (he ▸ id_mem_ids sub)
        have hsame : sub.put target fresh = sub := by
          apply ih sub hsub
          intro hin
          rw [ids_eq] at hout
          exact hout (List.mem_cons_of_mem _ hin)
        simp [putSlot, hid, hsame]
      rw [List.flatMap_congr hslot]
      simp

theorem put_eq_self {target : NodeId} {fresh : Option Tree} {tree : Tree}
    (h : target ∉ tree.ids) : tree.put target fresh = tree := by
  rw [ids_eq] at h
  exact put_of_not_mem (fun hin => h (List.mem_cons_of_mem _ hin))

/-! ## The part above some nodes -/

/-- The numbers down to the first node of `stops` on every path. -/
def shown (stops : List NodeId) : Tree → List NodeId :=
  fold (fun id _ _ below => if id ∈ stops then [id] else id :: below.flatten)

theorem shown_node (stops : List NodeId) (id : NodeId) (head : Head) (type : Option TypeDesc)
    (subs : List Tree) :
    (node id head type subs).shown stops =
      if id ∈ stops then [id] else id :: subs.flatMap (shown stops) := by
  simp [shown, List.flatMap]

theorem id_mem_shown (stops : List NodeId) (tree : Tree) : tree.id ∈ tree.shown stops := by
  cases tree
  rw [shown_node]
  split <;> simp

theorem shown_eq_ids {stops : List NodeId} {tree : Tree}
    (h : ∀ id, id ∈ tree.ids → id ∉ stops) : tree.shown stops = tree.ids := by
  induction tree with
  | node id head type subs ih =>
      have hid : id ∉ stops := h id (by simp)
      rw [shown_node, if_neg hid, ids_node]
      congr 1
      apply List.flatMap_congr
      intro sub hsub
      apply ih sub hsub
      intro i hi
      exact h i (by simpa using Or.inr ⟨sub, hsub, hi⟩)

theorem shown_nil (tree : Tree) : tree.shown [] = tree.ids :=
  shown_eq_ids (fun _ _ => List.not_mem_nil)

theorem shown_sublist_ids (stops : List NodeId) (tree : Tree) :
    (tree.shown stops).Sublist tree.ids := by
  induction tree with
  | node id head type subs ih =>
      rw [shown_node, ids_node]
      split
      · exact List.Sublist.cons_cons _ (List.nil_sublist _)
      · refine List.Sublist.cons_cons _ ?_
        clear * - ih
        induction subs with
        | nil => exact List.Sublist.refl _
        | cons sub rest ihList =>
            rw [List.flatMap_cons, List.flatMap_cons]
            exact (ih sub (by simp)).append
              (ihList (fun other hother => ih other (List.mem_cons_of_mem _ hother)))

theorem shown_subset_ids (stops : List NodeId) (tree : Tree) : tree.shown stops ⊆ tree.ids :=
  (tree.shown_sublist_ids stops).subset

theorem not_mem_shown {stops : List NodeId} {tree below : Tree} (hnodup : tree.ids.Nodup)
    (hbelow : below ∈ tree.subtrees) (hstop : below.id ∈ stops) {id : NodeId}
    (hid : id ∈ below.subs.flatMap ids) : id ∉ tree.shown stops := by
  induction tree with
  | node root head type subs ih =>
      have hinside : id ∈ below.ids := Tree.slots_subset_ids _ hid
      rw [ids_node, List.nodup_cons] at hnodup
      rcases mem_subtrees_iff.mp hbelow with rfl | ⟨sub, hsub, hin⟩
      · have hroot : root ∈ stops := hstop
        rw [shown_node, if_pos hroot, List.mem_singleton]
        rintro rfl
        exact hnodup.1 hid
      · have hidSub : id ∈ sub.ids := ids_subset_of_mem hin hinside
        have hidRoot : id ≠ root := by
          rintro rfl
          exact hnodup.1 (List.mem_flatMap.mpr ⟨sub, hsub, hidSub⟩)
        rw [shown_node]
        split
        · simpa using hidRoot
        · intro hmem
          rcases List.mem_cons.mp hmem with he | hmem
          · exact hidRoot he
          · obtain ⟨other, hother, hshown⟩ := List.mem_flatMap.mp hmem
            have hsame := eq_of_common_id hnodup.2 hother hsub (shown_subset_ids _ _ hshown) hidSub
            subst hsame
            exact ih other hsub ((List.nodup_flatMap.mp hnodup.2).1 other hsub) hin hshown

theorem mem_shown {stops : List NodeId} {tree below : Tree} (hbelow : below ∈ tree.subtrees)
    (houter : ∀ above, above ∈ tree.subtrees → above.id ∈ stops →
      below ∈ above.subtrees → above = below) : below.id ∈ tree.shown stops := by
  induction tree with
  | node root head type subs ih =>
      rcases mem_subtrees_iff.mp hbelow with rfl | ⟨sub, hsub, hin⟩
      · exact id_mem_shown _ _
      · rw [shown_node]
        split
        · next hstop =>
          have hsame := houter _ (mem_subtrees_self _) hstop hbelow
          rw [← hsame]
          simp
        · refine List.mem_cons_of_mem _ (List.mem_flatMap.mpr ⟨sub, hsub, ?_⟩)
          exact ih sub hsub hin
            (fun above habove => houter above (mem_subtrees_of_sub hsub habove))

/-- Replacing a stop by a tree shows that tree in its place and nothing else. -/
theorem shown_put {stops : List NodeId} {target : NodeId} {fresh : Option Tree} {tree : Tree}
    (hroot : tree.id ≠ target)
    (hfresh : ∀ new, new ∈ fresh → ∀ id, id ∈ new.ids → id ∉ stops) :
    (tree.put target fresh).shown stops =
      (tree.shown (target :: stops)).flatMap
        (putId target (fresh.toList.flatMap ids)) := by
  induction tree with
  | node id head type subs ih =>
      have hne : id ≠ target := hroot
      have hiff : id ∈ target :: stops ↔ id ∈ stops := by simp [hne]
      rw [put_node, shown_node, shown_node, if_congr hiff rfl rfl]
      split
      · simp [putId, hne]
      · rw [List.flatMap_cons, putId, if_neg hne, List.singleton_append]
        congr 1
        rw [List.flatMap_assoc, List.flatMap_assoc]
        apply List.flatMap_congr
        intro sub hsub
        by_cases hid : sub.id = target
        · have hsub_shown : sub.shown (target :: stops) = [target] := by
            cases sub with
            | node i h t ss =>
                rw [shown_node, if_pos (by simp_all)]
                simpa using hid
          rw [putSlot, if_pos hid, hsub_shown]
          simp only [List.flatMap_cons, List.flatMap_nil, List.append_nil, putId, if_true]
          apply List.flatMap_congr
          intro new hnew
          exact shown_eq_ids (hfresh new (by simpa using hnew))
        · rw [putSlot, if_neg hid]
          simpa using ih sub hsub hid

/-- What was shown beside a stop is still shown after the stop was replaced. -/
theorem mem_shown_put {stops : List NodeId} {target : NodeId} {fresh : Option Tree} {tree : Tree}
    (hroot : tree.id ≠ target)
    (hfresh : ∀ new, new ∈ fresh → ∀ id, id ∈ new.ids → id ∉ stops) {id : NodeId}
    (hid : id ∈ tree.shown (target :: stops)) (hne : id ≠ target) :
    id ∈ (tree.put target fresh).shown stops := by
  rw [shown_put hroot hfresh, List.mem_flatMap]
  exact ⟨id, hid, by rw [putId, if_neg hne]; exact List.mem_singleton_self id⟩

end Tree

end CodeTidy
