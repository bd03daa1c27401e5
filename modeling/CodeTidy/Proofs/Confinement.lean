import CodeTidy.Proofs.Draft
import CodeTidy.Proofs.Swap

/-!
# Changes that stay inside a subtree

`Tree.Above` says which node is above which.  A commit takes subtrees from below the node
it is made for and puts them below that node again, together with new nodes.  So no node
comes below a node that it was not below before (`Tree.Within`), and what the commit was not
made for stays below the nodes it was below (`Tree.Confined`).
-/

namespace CodeTidy

namespace Tree

variable {store : Store} {tree old new below later last : Tree} {fresh : Option Tree}
  {target a id : NodeId} {bound : Nat} {inside : NodeId → Prop}

/-! ## Trees of a store -/

/-- Lists of trees with the same numbers are the same if a number determines a tree. -/
theorem eq_of_map_id_eq {subs others : List Tree} (hids : subs.map Tree.id = others.map Tree.id)
    (h : ∀ sub, sub ∈ subs → ∀ other, other ∈ others → sub.id = other.id →
      sub = other) : subs = others := by
  induction subs generalizing others with
  | nil => exact (List.map_eq_nil_iff.mp hids.symm).symm
  | cons sub rest ih =>
      cases others with
      | nil => cases hids
      | cons other others =>
          obtain ⟨hid, hrest⟩ := List.cons.inj hids
          rw [h sub (by simp) other (by simp) hid, ih hrest]
          exact fun sub hsub other hother =>
            h sub (List.mem_cons_of_mem _ hsub) other (List.mem_cons_of_mem _ hother)

/-- A store spells out one tree at a number. -/
theorem Laid.unique {other : Tree} (h : tree.Laid store) (hother : other.Laid store)
    (hid : tree.id = other.id) : tree = other := by
  induction tree generalizing other with
  | node i head type subs ih =>
      cases other with
      | node j head' type' subs' =>
          obtain rfl : i = j := hid
          have hshows := h.shown_by
          have hshows' := hother.shown_by
          have htype : type = type' := hshows.typeOf.symm.trans hshows'.typeOf
          have hsubs : subs = subs' := by
            refine eq_of_map_id_eq (hshows.children.symm.trans hshows'.children) ?_
            intro sub hsub sub' hsub' he
            exact ih sub hsub (h.sub hsub) (hother.sub hsub') he
          rw [← hshows.head, ← hshows'.head, htype, hsubs]

/-! ## Nodes above nodes -/

/-- The node `a` of the tree is `id` or stands above it. -/
def Above (tree : Tree) (a id : NodeId) : Prop :=
  ∃ up ∈ tree.subtrees, up.id = a ∧ id ∈ up.ids

theorem Above.mem_ids (h : tree.Above a id) : id ∈ tree.ids := by
  obtain ⟨up, hup, -, hid⟩ := h
  exact ids_subset_of_mem hup hid

theorem above_root (hid : id ∈ tree.ids) : tree.Above tree.id id :=
  ⟨tree, mem_subtrees_self tree, rfl, hid⟩

theorem above_of_mem (hbelow : below ∈ tree.subtrees) (hid : id ∈ below.ids) :
    tree.Above below.id id :=
  ⟨below, hbelow, rfl, hid⟩

theorem Above.of_mem (h : below.Above a id) (hbelow : below ∈ tree.subtrees) :
    tree.Above a id := by
  obtain ⟨up, hup, hid⟩ := h
  exact ⟨up, mem_subtrees_trans hup hbelow, hid⟩

/-- In a tree without repeated numbers, what is above is told by the subtree. -/
theorem above_iff (hnodup : tree.ids.Nodup) (hbelow : below ∈ tree.subtrees) :
    tree.Above below.id id ↔ id ∈ below.ids := by
  constructor
  · rintro ⟨up, hup, hid, hin⟩
    exact eq_of_id_eq hnodup hup hbelow hid ▸ hin
  · exact above_of_mem hbelow

/-- Only the tree itself is properly above what stands in its slots. -/
theorem eq_of_above_slot {sub up : Tree} (hnodup : tree.ids.Nodup) (hsub : sub ∈ tree.subs)
    (hup : up ∈ tree.subtrees) (hin : sub.id ∈ up.subs.flatMap ids) : up = tree := by
  rcases mem_subtrees_iff.mp hup with rfl | ⟨other, hother, hupOther⟩
  · rfl
  · have hupIds : sub.id ∈ up.ids := Tree.slots_subset_ids _ hin
    obtain rfl : other = sub := eq_of_common_id (nodup_slots hnodup) hother hsub
      (ids_subset_of_mem hupOther hupIds) sub.id_mem_ids
    obtain ⟨child, hchild, hid⟩ := List.mem_flatMap.mp hin
    have hbelow := mem_subtrees_of_id_mem hnodup (slot_mem_subtrees hup hchild)
      (sub_mem_subtrees hsub) hid
    have h₁ := height_le_of_mem hbelow
    have h₂ := height_lt_of_mem hchild
    have h₃ := height_le_of_mem hupOther
    omega

/-! ## Nodes of a changed tree -/

/-- A subtree of a changed tree is a changed subtree, or stands in the fresh tree. -/
theorem mem_subtrees_of_put (h : below ∈ (tree.put target fresh).subtrees) :
    (∃ former ∈ tree.subtrees, below = former.put target fresh) ∨
      ∃ new ∈ fresh, below ∈ new.subtrees := by
  induction tree with
  | node i head type subs ih =>
      rcases mem_subtrees_iff.mp h with rfl | ⟨sub, hsub, hin⟩
      · exact .inl ⟨_, mem_subtrees_self _, rfl⟩
      · rw [put_node, subs_node] at hsub
        obtain ⟨former, hformer, hslot⟩ := List.mem_flatMap.mp hsub
        unfold putSlot at hslot
        split at hslot
        · exact .inr ⟨sub, by simpa using hslot, hin⟩
        · rw [List.mem_singleton.mp hslot] at hin
          rcases ih former hformer hin with ⟨found, hfound, rfl⟩ | hnew
          · exact .inl ⟨found, mem_subtrees_of_sub hformer hfound, rfl⟩
          · exact .inr hnew

/-- A number of a changed tree was there before, or is one of the fresh tree, which then
stands below. -/
theorem mem_ids_of_put (h : id ∈ (tree.put target fresh).ids) :
    id ∈ tree.ids ∨ target ∈ tree.subs.flatMap ids ∧ ∃ new ∈ fresh, id ∈ new.ids := by
  induction tree with
  | node i head type subs ih =>
      rw [put_node, ids_node] at h
      rcases List.mem_cons.mp h with rfl | hin
      · exact .inl (id_mem_ids (node id head type subs))
      · obtain ⟨sub, hsub, hid⟩ := List.mem_flatMap.mp hin
        obtain ⟨former, hformer, hslot⟩ := List.mem_flatMap.mp hsub
        unfold putSlot at hslot
        split at hslot
        · next htarget =>
          exact .inr ⟨List.mem_flatMap.mpr ⟨former, hformer, htarget ▸ former.id_mem_ids⟩,
            sub, by simpa using hslot, hid⟩
        · rw [List.mem_singleton.mp hslot] at hid
          rcases ih former hformer hid with hold | ⟨htarget, hnew⟩
          · refine .inl (ids_subset_of_mem (sub_mem_subtrees hformer) hold)
          · exact .inr ⟨List.mem_flatMap.mpr ⟨former, hformer, slots_subset_ids _ htarget⟩, hnew⟩

/-- What stood at or below a replaced node is there again only as a part of the fresh tree. -/
theorem mem_fresh_of_put (hnodup : tree.ids.Nodup) (hold : old ∈ tree.subtrees) (hne : old ≠ tree)
    (hid : id ∈ old.ids) (h : id ∈ (tree.put old.id fresh).ids) : ∃ new ∈ fresh, id ∈ new.ids := by
  have hroot : tree.id ≠ old.id := id_ne_of_mem hnodup hold hne
  rw [← shown_nil, shown_put hroot (by simp)] at h
  obtain ⟨place, hplace, hin⟩ := List.mem_flatMap.mp h
  unfold putId at hin
  split at hin
  · simpa using hin
  · next hplaceNe =>
    obtain rfl := List.mem_singleton.mp hin
    rw [ids_eq] at hid
    have hbelow := (List.mem_cons.mp hid).resolve_left hplaceNe
    exact absurd hplace (not_mem_shown hnodup hold (List.mem_singleton_self _) hbelow)

/-- What is not at or below the replaced node stays below what it was below. -/
theorem above_put (hnodup : tree.ids.Nodup) (hold : old ∈ tree.subtrees) (hid : id ∉ old.ids)
    (h : tree.Above a id) : (tree.put old.id fresh).Above a id := by
  obtain ⟨up, hup, rfl, hin⟩ := h
  obtain ⟨found, hfound, rfl⟩ := mem_ids_iff.mp hin
  have hout : ∀ above, found ∈ above.subtrees → above ∉ old.subtrees := by
    intro above hbelow habove
    exact hid (mem_ids_iff.mpr ⟨found, mem_subtrees_trans hbelow habove, rfl⟩)
  refine ⟨up.put old.id fresh, mem_subtrees_put_of_not_mem hnodup hold hup (hout up hfound),
    id_put .., mem_ids_iff.mpr ⟨found.put old.id fresh, ?_, id_put ..⟩⟩
  have hsame : ∀ above, above ∈ up.subtrees → above.id = old.id → above = old :=
    fun above habove he => eq_of_id_eq hnodup (mem_subtrees_trans habove hup) hold he
  apply mem_subtrees_put hfound
  · intro he
    exact hout up hfound (hsame up (mem_subtrees_self up) he ▸ mem_subtrees_self up)
  · intro above habove he
    rw [hsame above habove he]
    exact fun hin => hout found (mem_subtrees_self found) hin

/-! ## Trees made of the nodes of another -/

/-- Apart from new nodes, the tree `new` has nodes of `old` only, below nodes that they were
below in `old`. -/
structure Within (bound : Nat) (old new : Tree) : Prop where
  ids : ∀ id, id < bound → id ∈ new.ids → id ∈ old.ids
  above : ∀ a id, a < bound → id < bound → new.Above a id → old.Above a id

theorem Within.refl (bound : Nat) (tree : Tree) : Within bound tree tree where
  ids _ _ h := h
  above _ _ _ _ h := h

theorem Within.trans {bound' : Nat} (h : Within bound tree later) (hle : bound ≤ bound')
    (h' : Within bound' later last) : Within bound tree last where
  ids id hid hin := h.ids id hid (h'.ids id (Nat.lt_of_lt_of_le hid hle) hin)
  above a id ha hid hin := h.above a id ha hid
    (h'.above a id (Nat.lt_of_lt_of_le ha hle) (Nat.lt_of_lt_of_le hid hle) hin)

theorem Within.of_mem (h : Within bound below new) (hbelow : below ∈ tree.subtrees) :
    Within bound tree new where
  ids id hid hin := ids_subset_of_mem hbelow (h.ids id hid hin)
  above a id ha hid hin := (h.above a id ha hid hin).of_mem hbelow

theorem within_of_fresh (hnew : ∀ id, id ∈ new.ids → bound ≤ id) : Within bound old new where
  ids id hid hin := absurd hid (Nat.not_lt.mpr (hnew id hin))
  above _ id _ hid hin := absurd hid (Nat.not_lt.mpr (hnew id hin.mem_ids))

/-- A change stays within a tree if the fresh tree does, and if every node above the target is
above the nodes of the fresh tree. -/
theorem within_put_of_above (hfresh : ∀ new, new ∈ fresh → Within bound tree new)
    (habove : ∀ up new, up ∈ tree.subtrees → target ∈ up.subs.flatMap Tree.ids →
      new ∈ fresh → ∀ id, id ∈ new.ids → id < bound → id ∈ up.ids) :
    Within bound tree (tree.put target fresh) where
  ids id hid hin := by
    rcases mem_ids_of_put hin with hin | ⟨-, new, hnew, hin⟩
    · exact hin
    · exact (hfresh new hnew).ids id hid hin
  above a id ha hid hin := by
    obtain ⟨up', hup', hupId, hin⟩ := hin
    rcases mem_subtrees_of_put hup' with ⟨up, hup, rfl⟩ | ⟨new, hnew, hup⟩
    · rw [id_put] at hupId
      refine ⟨up, hup, hupId, ?_⟩
      rcases mem_ids_of_put hin with hin | ⟨htarget, new, hnew, hin⟩
      · exact hin
      · exact habove up new hup htarget hnew id hin hid
    · exact (hfresh new hnew).above a id ha hid ⟨up', hup, hupId, hin⟩

theorem within_put (hnodup : tree.ids.Nodup) (hold : old ∈ tree.subtrees)
    (hfresh : ∀ new, new ∈ fresh → Within bound old new) :
    Within bound tree (tree.put old.id fresh) := by
  refine within_put_of_above (fun new hnew => (hfresh new hnew).of_mem hold) ?_
  intro up new hup htarget hnew id hin hid
  have hmem : old.id ∈ up.ids := Tree.slots_subset_ids _ htarget
  exact ids_subset_of_mem (mem_subtrees_of_id_mem hnodup hup hold hmem)
    ((hfresh new hnew).ids id hid hin)

theorem within_put_fresh
    (hfresh : ∀ new, new ∈ fresh → ∀ id, id ∈ new.ids → bound ≤ id) :
    Within bound tree (tree.put target fresh) := by
  refine within_put_of_above (fun new hnew => within_of_fresh (hfresh new hnew)) ?_
  intro up new _ _ hnew id hin hid
  exact absurd hid (Nat.not_lt.mpr (hfresh new hnew id hin))

/-- A change of a slot by a tree that is within the whole tree. -/
theorem within_put_slot {sub : Tree} (hnodup : tree.ids.Nodup) (hsub : sub ∈ tree.subs)
    (hfresh : ∀ new, new ∈ fresh → Within bound tree new) :
    Within bound tree (tree.put sub.id fresh) := by
  refine within_put_of_above hfresh ?_
  intro up new hup htarget hnew id hin hid
  rw [eq_of_above_slot hnodup hsub hup htarget]
  exact (hfresh new hnew).ids id hid hin

/-! ## Confined changes -/

/-- The later tree is made of the nodes of the tree and of new nodes, and a node stays below
what it was below unless it is gone or was inside. -/
structure Confined (bound : Nat) (inside : NodeId → Prop) (tree later : Tree) : Prop extends
    Within bound tree later where
  stays : ∀ a id, id < bound → tree.Above a id → id ∈ later.ids → ¬ inside id →
    later.Above a id

theorem Confined.refl (bound : Nat) (tree : Tree) : Confined bound inside tree tree where
  toWithin := .refl bound tree
  stays _ _ _ h _ _ := h

theorem Confined.trans {bound' : Nat} (h : Confined bound inside tree later)
    (h' : Confined bound' inside later last) (hle : bound ≤ bound') :
    Confined bound inside tree last where
  toWithin := h.toWithin.trans hle h'.toWithin
  stays a id hid habove hin hout := by
    have hlt : id < bound' := Nat.lt_of_lt_of_le hid hle
    have hlater : id ∈ later.ids := h'.ids id hlt hin
    exact h'.stays a id hlt (h.stays a id hid habove hlater hout) hin hout

theorem Confined.mono {inside' : NodeId → Prop} (h : Confined bound inside tree later)
    (hinside : ∀ id, inside id → inside' id) : Confined bound inside' tree later where
  toWithin := h.toWithin
  stays a id hid habove hin hout :=
    h.stays a id hid habove hin (fun hin' => hout (hinside id hin'))

/-- A change is confined to the nodes of the replaced tree that stand in the fresh one. -/
theorem confined_put (hnodup : tree.ids.Nodup) (hold : old ∈ tree.subtrees) (hne : old ≠ tree)
    (hwithin : Within bound tree (tree.put old.id fresh))
    (hinside : ∀ id, id < bound → id ∈ old.ids → ∀ new, new ∈ fresh →
      id ∈ new.ids → inside id) :
    Confined bound inside tree (tree.put old.id fresh) where
  toWithin := hwithin
  stays a id hid habove hin hout := by
    refine above_put hnodup hold ?_ habove
    intro hidOld
    obtain ⟨new, hnew, hidNew⟩ := mem_fresh_of_put hnodup hold hne hidOld hin
    exact hout (hinside id hid hidOld new hnew hidNew)

/-- A change by a tree of new nodes leaves every other node where it is. -/
theorem confined_put_fresh (hnodup : tree.ids.Nodup) (hold : old ∈ tree.subtrees)
    (hne : old ≠ tree)
    (hfresh : ∀ new, new ∈ fresh → ∀ id, id ∈ new.ids → bound ≤ id) :
    Confined bound inside tree (tree.put old.id fresh) := by
  refine confined_put hnodup hold hne (within_put_fresh hfresh) ?_
  intro id hid _ new hnew hin
  exact absurd hid (Nat.not_lt.mpr (hfresh new hnew id hin))

end Tree

/-- A drafted tree is made of new nodes and of the nodes of the tree it was taken from. -/
theorem Draft.within {base drafted : Store} {region : List NodeId} {trees : List Tree}
    {old new : Tree} (h : Draft base region drafted trees) (hnew : new ∈ trees)
    (hlaid : old.Laid base) (hregion : region ⊆ old.ids) : old.Within base.size new := by
  have hids : ∀ id, id < base.size → id ∈ new.ids → id ∈ old.ids := by
    intro id hid hin
    rcases h.origin id (List.mem_flatMap.mpr ⟨new, hnew, hin⟩) with hge | hmem
    · exact absurd hid (Nat.not_lt.mpr hge)
    · exact hregion hmem
  refine ⟨hids, ?_⟩
  rintro a id ha hid ⟨up, hup, rfl, hin⟩
  obtain ⟨found, hfound, he⟩ := Tree.mem_ids_iff.mp
    (hids up.id ha (Tree.ids_subset_of_mem hup up.id_mem_ids))
  have hsame : found = up :=
    ((h.laid_old hlaid).of_mem hfound).unique ((h.laid hnew).of_mem hup) he
  exact ⟨up, hsame ▸ hfound, rfl, hin⟩

end CodeTidy
