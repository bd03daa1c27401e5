import CodeTidy.Proofs.Erasure

/-!
# What is left of a tree

Erasing a node follows the links that are owned in both directions, so it stops at subtrees
that were taken out.  `Tree.remnant` are the nodes that are left of a tree without the subtrees
at given nodes.  They are what the root owns where just these subtrees are cut off
(`Store.IsCut.owns_iff`), so exactly they are erased (`Store.node_erase_cut`).
-/

namespace CodeTidy

/-! ## What is left of a tree -/

namespace Tree

variable {cut : List NodeId} {tree : Tree}

/-- The numbers that are left of a tree without the subtrees at `cut`. -/
def remnant (cut : List NodeId) : Tree → List NodeId :=
  fold (fun id _ _ below => if id ∈ cut then [] else id :: below.flatten)

theorem remnant_node (cut : List NodeId) (id : NodeId) (head : Head) (type : Option TypeDesc)
    (subs : List Tree) :
    (node id head type subs).remnant cut =
      if id ∈ cut then [] else id :: subs.flatMap (remnant cut) := by
  rw [remnant, fold_node, List.flatMap_def]

theorem remnant_of_mem (h : tree.id ∈ cut) : tree.remnant cut = [] := by
  cases tree with
  | node id head type subs => exact (remnant_node ..).trans (if_pos h)

theorem remnant_subset_ids (cut : List NodeId) (tree : Tree) : tree.remnant cut ⊆ tree.ids := by
  induction tree with
  | node id head type subs ih =>
      rw [remnant_node]
      split
      · exact List.nil_subset _
      · rw [ids_node]
        refine List.cons_subset_cons id fun other hother => ?_
        obtain ⟨sub, hsub, hin⟩ := List.mem_flatMap.mp hother
        exact List.mem_flatMap.mpr ⟨sub, hsub, ih sub hsub hin⟩

/-- A node is left if it is in none of the subtrees that are taken out. -/
theorem mem_remnant_iff (hnodup : tree.ids.Nodup) {id : NodeId} :
    id ∈ tree.remnant cut ↔ id ∈ tree.ids ∧
      ∀ below, below ∈ tree.subtrees → below.id ∈ cut → id ∉ below.ids := by
  induction tree with
  | node i head type subs ih =>
      have hslots := (List.nodup_cons.mp (ids_node i head type subs ▸ hnodup))
      have hsubs : ∀ sub, sub ∈ subs → sub.ids.Nodup := fun sub hsub =>
        nodup_ids_of_mem hnodup (sub_mem_subtrees hsub)
      rw [remnant_node]
      split
      · next hcut =>
          simp only [List.not_mem_nil, false_iff, not_and]
          intro hid hall
          exact hall _ (mem_subtrees_self _) hcut hid
      · next hcut =>
          rw [List.mem_cons, ids_node, List.mem_cons]
          constructor
          · rintro (rfl | hin)
            · refine ⟨.inl rfl, fun below hbelow hstop hself => ?_⟩
              rcases mem_subtrees_iff.mp hbelow with rfl | ⟨sub, hsub, hinside⟩
              · exact hcut hstop
              · exact hslots.1 (List.mem_flatMap.mpr
                  ⟨sub, hsub, ids_subset_of_mem hinside hself⟩)
            · obtain ⟨sub, hsub, hin⟩ := List.mem_flatMap.mp hin
              obtain ⟨hid, hall⟩ := (ih sub hsub (hsubs sub hsub)).mp hin
              refine ⟨.inr (List.mem_flatMap.mpr ⟨sub, hsub, hid⟩),
                fun below hbelow hstop hself => ?_⟩
              rcases mem_subtrees_iff.mp hbelow with rfl | ⟨other, hother, hinside⟩
              · exact hcut hstop
              · obtain rfl := eq_of_common_id hslots.2 hother hsub
                  (ids_subset_of_mem hinside hself) hid
                exact hall below hinside hstop hself
          · rintro ⟨rfl | hin, hall⟩
            · exact .inl rfl
            · obtain ⟨sub, hsub, hid⟩ := List.mem_flatMap.mp hin
              refine .inr (List.mem_flatMap.mpr ⟨sub, hsub, (ih sub hsub (hsubs sub hsub)).mpr
                ⟨hid, fun below hbelow => hall below (mem_subtrees_of_sub hsub hbelow)⟩⟩)

theorem id_mem_remnant (h : tree.id ∉ cut) : tree.id ∈ tree.remnant cut := by
  cases tree with
  | node id head type subs =>
      rw [id_node] at h
      rw [remnant_node, if_neg h]
      exact List.mem_cons_self ..

theorem remnant_slot_subset {sub : Tree} (hsub : sub ∈ tree.subs) (h : tree.id ∉ cut) :
    sub.remnant cut ⊆ tree.remnant cut := by
  cases tree with
  | node id head type subs =>
      rw [id_node] at h
      rw [remnant_node, if_neg h]
      exact fun x hx => List.mem_cons_of_mem _ (List.mem_flatMap.mpr ⟨sub, hsub, hx⟩)

/-- A slot of a node that is left is left, unless it is cut off itself. -/
theorem slot_mem_remnant {holder sub : Tree} (hnodup : tree.ids.Nodup)
    (hholder : holder ∈ tree.subtrees) (hleft : holder.id ∈ tree.remnant cut)
    (hsub : sub ∈ holder.subs) (hout : sub.id ∉ cut) : sub.id ∈ tree.remnant cut := by
  induction tree with
  | node i head type subs ih =>
      have hroot : i ∉ cut := by
        intro hcut
        rw [remnant_of_mem hcut] at hleft
        cases hleft
      rcases mem_subtrees_iff.mp hholder with rfl | ⟨below, hbelow, hinside⟩
      · exact remnant_slot_subset hsub hroot (id_mem_remnant hout)
      · obtain ⟨hi, hslots⟩ := List.nodup_cons.mp (ids_node i head type subs ▸ hnodup)
        have hin : holder.id ∈ below.ids := ids_subset_of_mem hinside holder.id_mem_ids
        rw [remnant_node, if_neg hroot] at hleft
        rcases List.mem_cons.mp hleft with rfl | hleft
        · exact absurd (List.mem_flatMap.mpr ⟨below, hbelow, hin⟩) hi
        · obtain ⟨other, hother, hleft⟩ := List.mem_flatMap.mp hleft
          obtain rfl :=
            eq_of_common_id hslots hother hbelow (remnant_subset_ids cut other hleft) hin
          exact remnant_slot_subset hother hroot
            (ih other hother (nodup_ids_of_mem hnodup (sub_mem_subtrees hother)) hinside hleft)

end Tree

/-! ## Erasing what is left -/

/-- An erased node: it keeps its kind and type, and belongs to nobody. -/
def Node.retired (node : Node) : Node :=
  { node with erased := true, parent := none }

namespace Store

variable {store : Store} {cut : List NodeId} {tree : Tree}

/-- What is left of the tree is spelled out by the slots, and a node in a slot of it is linked
to the holder unless it is one of `cut`. -/
def IsCut (store : Store) (cut : List NodeId) (tree : Tree) : Prop :=
  ∀ holder, holder ∈ tree.subtrees → holder.id ∈ tree.remnant cut →
    store.children holder.id = holder.subs.map Tree.id ∧
    ∀ sub, sub ∈ holder.subs → (store.parent sub.id = some holder.id ↔ sub.id ∉ cut)

theorem IsCut.sub {sub : Tree} (h : store.IsCut cut tree) (hroot : tree.id ∉ cut)
    (hsub : sub ∈ tree.subs) : store.IsCut cut sub :=
  fun holder hholder hleft => h holder
    (Tree.mem_subtrees_trans hholder (Tree.sub_mem_subtrees hsub))
    (Tree.remnant_slot_subset hsub hroot hleft)

theorem IsCut.owns_iff (hcut : store.IsCut cut tree) (hroot : tree.id ∉ cut)
    (hnodup : tree.ids.Nodup) {x : NodeId} :
    store.Owns tree.id x ↔ x ∈ tree.remnant cut := by
  constructor
  · intro howns
    induction howns with
    | self => exact Tree.id_mem_remnant hroot
    | slot above stands linked ih =>
        obtain ⟨holder, hholder, rfl⟩ := Tree.mem_ids_iff.mp (Tree.remnant_subset_ids cut tree ih)
        obtain ⟨hchildren, hlinks⟩ := hcut holder hholder ih
        rw [hchildren] at stands
        obtain ⟨sub, hsub, rfl⟩ := List.mem_map.mp stands
        exact Tree.slot_mem_remnant hnodup hholder ih hsub ((hlinks sub hsub).mp linked)
  · intro hleft
    induction tree with
    | node i head type subs ih =>
        obtain ⟨hchildren, hlinks⟩ := hcut _ (Tree.mem_subtrees_self _) (Tree.id_mem_remnant hroot)
        have hi : i ∉ cut := hroot
        rw [Tree.remnant_node, if_neg hi] at hleft
        rcases List.mem_cons.mp hleft with rfl | hleft
        · exact .self
        · obtain ⟨sub, hsub, hleft⟩ := List.mem_flatMap.mp hleft
          have hout : sub.id ∉ cut := by
            intro hstop
            rw [Tree.remnant_of_mem hstop] at hleft
            cases hleft
          have hslot : store.Owns i sub.id := by
            refine .slot .self ?_ ((hlinks sub hsub).mpr hout)
            exact hchildren ▸ List.mem_map_of_mem hsub
          exact hslot.trans (ih sub hsub (hcut.sub hroot hsub) hout
            (Tree.nodup_ids_of_mem hnodup (Tree.sub_mem_subtrees hsub)) hleft)

/-- Erasing a tree erases what is left of it without the subtrees at `cut`. -/
theorem node_erase_cut (hcut : store.IsCut cut tree) (hroot : tree.id ∉ cut)
    (hlt : tree.id < store.size) (hnodup : tree.ids.Nodup) (x : NodeId) :
    (store.erase tree.id).node x =
      if x ∈ tree.remnant cut then (store.node x).retired else store.node x := by
  obtain ⟨gone, hswept⟩ := exists_swept_erase hlt
  split
  · next hleft =>
      exact hswept.erased x (hswept.gone_iff.mpr ((hcut.owns_iff hroot hnodup).mpr hleft))
  · next hout =>
      exact hswept.kept x (fun hgone =>
        hout ((hcut.owns_iff hroot hnodup).mp (hswept.gone_iff.mp hgone)))

end Store

end CodeTidy
