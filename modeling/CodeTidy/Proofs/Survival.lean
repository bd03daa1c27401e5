import CodeTidy.Proofs.Splice

/-!
# What survives a splice

Erasing an old subtree erases all that is linked to it, also a subtree that is about to be put
into another slot.  `Intact` describes a moment between two splices at which nothing was
erased too early: what is shown is linked to its holders, and the trees still to be placed are
as they were.  It is kept by every splice that has no root of such a tree in its old subtree
(`Intact.run`).
-/

namespace CodeTidy

open Splice

/-! ## Ownership in a held tree -/

namespace Tree

variable {store : Store} {tree : Tree} {owner : Option NodeId} {id child : NodeId}

/-- The slots of a held tree are linked to their holder, and none is erased. -/
theorem Held.owned (h : tree.Held store owner) (hid : id ∈ tree.ids)
    (hchild : child ∈ store.children id) :
    store.parent child = some id ∧ store.isErased child = false := by
  obtain ⟨below, hbelow, rfl⟩ := mem_ids_iff.mp hid
  obtain ⟨above, hheld⟩ := h.of_mem hbelow
  cases below with
  | node i head type subs =>
      rw [id_node, hheld.laid.shown_by.children] at hchild
      obtain ⟨sub, hsub, rfl⟩ := List.mem_map.mp hchild
      exact ⟨(hheld.sub hsub).link, hheld.live hsub⟩

/-- Slots that are linked to their holder make a held tree. -/
theorem Laid.held (h : tree.Laid store) (howned : ∀ id, id ∈ tree.ids →
      ∀ child, child ∈ store.children id →
        store.parent child = some id ∧ store.isErased child = false) :
    tree.Held store (store.parent tree.id) := by
  induction h with
  | @node i head type subs shows slots ih =>
      have hslot : ∀ sub, sub ∈ subs →
          store.parent sub.id = some i ∧ store.isErased sub.id = false := by
        intro sub hsub
        refine howned i (by simp) sub.id ?_
        rw [shows.children]
        exact List.mem_map_of_mem hsub
      refine .node List.not_mem_nil shows rfl (fun sub hsub => (hslot sub hsub).2) ?_
      intro sub hsub
      rw [← (hslot sub hsub).1]
      refine ih sub hsub fun id hid => howned id ?_
      rw [ids_node]
      exact List.mem_cons_of_mem _ (List.mem_flatMap.mpr ⟨sub, hsub, hid⟩)

theorem Laid.id_not_mem_children (h : tree.Laid store) (hnodup : tree.ids.Nodup)
    (hid : id ∈ tree.ids) : tree.id ∉ store.children id := by
  obtain ⟨below, hbelow, rfl⟩ := mem_ids_iff.mp hid
  intro hchild
  have hlaid := h.of_mem hbelow
  cases below with
  | node i head type subs =>
      rw [id_node, hlaid.shown_by.children] at hchild
      obtain ⟨sub, hsub, he⟩ := List.mem_map.mp hchild
      have hmem := slot_mem_subtrees hbelow hsub
      exact ne_of_mem_slot hbelow hsub sub.mem_subtrees_self
        (eq_of_id_eq hnodup hmem tree.mem_subtrees_self he)

end Tree

/-! ## Orders that erase nothing too early -/

/-- No new tree stands in the old subtree of an earlier step. -/
def Splice.Spares (steps : List Splice) : Prop :=
  steps.Pairwise (fun step later => ∀ new, new ∈ later.new → new.id ∉ step.old.ids)

theorem Splice.spares_cons {step : Splice} {steps : List Splice} :
    Spares (step :: steps) ↔
      (∀ new, new ∈ news steps → new.id ∉ step.old.ids) ∧ Spares steps := by
  rw [Spares, List.pairwise_cons]
  refine and_congr_left fun _ => ⟨fun hall new hnew => ?_, fun hall later hlater new hnew => ?_⟩
  · obtain ⟨later, hlater, hmem⟩ := List.mem_flatMap.mp hnew
    exact hall later hlater new (by simpa using hmem)
  · exact hall new (mem_news hlater hnew)

/-- What is known before the first splice of the trees that must survive; `spare` are those
that find no place in the tree. -/
structure Guarded (start : Store) (root : NodeId) (steps : List Splice) (spare : List Tree) :
    Prop where
  held : ∀ new, new ∈ news steps ++ spare →
    new.Held start (start.parent new.id) ∧ start.isErased new.id = false ∧ new.ids.Nodup
  root : ∀ step, step ∈ steps → root ∉ step.old.ids
  holders : ∀ step, step ∈ steps → ∀ new, new ∈ news steps ++ spare →
    step.holder ∉ new.ids
  targets : ∀ step, step ∈ steps → ∀ new, new ∈ news steps ++ spare →
    step.old.id ∉ new.ids
  spare : ∀ step, step ∈ steps → ∀ new, new ∈ spare → new.id ∉ step.old.ids

/-- A moment at which nothing was erased too early: the shown slots are linked to their
holders, and the trees still to be placed are as they were. -/
structure Intact (start current : Store) (steps : List Splice) (spare : List Tree) (tree : Tree)
    (todo : List Splice) : Prop where
  course : Course start current steps tree todo
  apart : (tree.shown (targets todo) ++ (news todo ++ spare).flatMap Tree.ids).Nodup
  owned : ∀ x, x ∈ tree.shown (targets todo) → x ∉ targets todo →
    ∀ child, child ∈ current.children x →
      current.parent child = some x ∧ current.isErased child = false
  waiting : ∀ new, new ∈ news todo ++ spare → ∀ x, x ∈ new.ids →
    current.node x = start.node x
  alive : ∀ x, x ∈ (news steps ++ spare).flatMap Tree.ids → current.isErased x = false ∧
    (x ∈ tree.shown (targets todo) ∨ x ∈ (news todo ++ spare).flatMap Tree.ids)

namespace Intact

variable {start current middle : Store} {steps todo : List Splice} {spare : List Tree}
  {tree : Tree} {step : Splice} {kind : Kind} {x : NodeId}

def Kept (tree : Tree) (step : Splice) (todo : List Splice) (spare : List Tree)
    (x : NodeId) : Prop :=
  x ∉ step.old.ids ∨ (x ∈ tree.shown (targets (step :: todo)) ∧ x ≠ step.old.id) ∨
    x ∈ (news (step :: todo) ++ spare).flatMap Tree.ids

theorem loose_subset (h : Intact start current steps spare tree todo) :
    news todo ++ spare ⊆ news steps ++ spare :=
  List.append_subset.mpr ⟨fun _ hnew => List.mem_append_left _ (h.course.news_subset hnew),
    List.subset_append_right _ _⟩

/-- The new tree of a step has no node in common with the trees of later steps. -/
theorem not_new_of_later (h : Intact start current steps spare tree (step :: todo)) {new : Tree}
    (hnew : new ∈ news todo ++ spare) (hx : x ∈ new.ids) :
    x ∉ step.new.toList.flatMap Tree.ids := by
  have hnodup := (List.nodup_append'.mp h.apart).2.1
  rw [news_cons, List.append_assoc, List.flatMap_append, List.nodup_append'] at hnodup
  exact fun hin => hnodup.2.2 hin (List.mem_flatMap.mpr ⟨new, hnew, hx⟩)

/-- A node of a loose tree, other than its root, keeps its link in the splice. -/
theorem parent_of_loose (h : Intact start current steps spare tree (step :: todo))
    (hslotted : step.Slotted current middle kind) {new : Tree}
    (hnew : new ∈ news (step :: todo) ++ spare) (hx : x ∈ new.ids) (hne : x ≠ new.id) :
    middle.parent x = start.parent x := by
  have hout : x ∉ step.new.toList.map Tree.id := by
    rw [news_cons, List.append_assoc, List.mem_append] at hnew
    intro hroot
    rcases hnew with hself | hlater
    · obtain ⟨other, hother, he⟩ := List.mem_map.mp hroot
      rw [Option.mem_toList] at hself hother
      obtain rfl : other = new := Option.some.inj (hother.symm.trans hself)
      exact hne he.symm
    · exact h.not_new_of_later hlater hx (Tree.map_id_subset _ hroot)
  rw [hslotted.parent_of_not_new hout, Store.parent, h.waiting new hnew x hx]
  rfl

/-- Erasing the old subtree does not enter what must be kept, if no root of a tree still to be
placed stands in it. -/
theorem node_erase (h : Intact start current steps spare tree (step :: todo))
    (harranged : Arrangement start steps) (hguarded : Guarded start tree.id steps spare)
    (hslotted : step.Slotted current middle kind)
    (hsafe : ∀ new, new ∈ news todo → new.id ∉ step.old.ids)
    (hx : Kept tree step todo spare x) :
    (middle.erase step.old.id).node x = middle.node x := by
  have hstep : step ∈ step :: todo := List.mem_cons_self ..
  have hin := h.course.coming step hstep
  refine Store.node_erase ?_ ?_ hx
  · intro y child hy hchild hlink hkept
    have hyOld : y ∈ step.old.ids := by
      by_contra hout
      exact hy (.inl hout)
    have hother : ∀ other, other ∈ steps → y ≠ other.holder := by
      rintro other hin' rfl
      exact harranged.holders other hin' step hin hyOld
    rw [Store.children, hslotted.kind_of_ne (hother step hin), h.course.kinds y hother] at hchild
    have hchildOld := (harranged.laid step hin).children_subset hyOld hchild
    rcases hkept with hout | ⟨hshown, hne⟩ | hloose
    · exact hout hchildOld
    · -- a shown node is linked to a shown holder
      have hroot : child ≠ tree.id := fun he => hguarded.root step hin (he ▸ hchildOld)
      obtain ⟨holder, hholder, hgoes, hslot⟩ := h.course.laid.slot_of_mem_shown hshown hroot
      rw [hslotted.parent_of_not_new (h.course.not_new_of_shown hshown),
        (h.owned holder hholder hgoes child hslot).1, Option.some.injEq] at hlink
      subst hlink
      exact hy (.inr (.inl ⟨hholder, fun he => hgoes (he ▸ List.mem_cons_self ..)⟩))
    · -- a node of a loose tree is linked to a node of that tree, unless it is the root
      obtain ⟨new, hnew, hid⟩ := List.mem_flatMap.mp hloose
      by_cases hroot : child = new.id
      · rw [news_cons, List.append_assoc, List.mem_append, List.mem_append] at hnew
        rcases hnew with hself | hlater | hspare
        · have hnode := hslotted.node child
          have hne : child ≠ step.holder := by
            rintro rfl
            exact harranged.holders step hin step hin hchildOld
          rw [if_neg hne, if_pos (hroot ▸ List.mem_map_of_mem hself)] at hnode
          rw [Store.parent, hnode] at hlink
          exact hother step hin (Option.some.inj hlink).symm
        · exact hsafe new hlater (hroot ▸ hchildOld)
        · exact hguarded.spare step hin new hspare (hroot ▸ hchildOld)
      · rw [h.parent_of_loose hslotted hnew hid hroot] at hlink
        have hheld := (hguarded.held new (h.loose_subset hnew)).1
        exact hy (.inr (.inr (List.mem_flatMap.mpr
          ⟨new, hnew, hheld.parent_mem_ids hid hroot hlink⟩)))
  · rintro (hout | ⟨-, hne⟩ | hloose)
    · exact hout step.old.id_mem_ids
    · exact hne rfl
    · obtain ⟨new, hnew, hid⟩ := List.mem_flatMap.mp hloose
      exact hguarded.targets step hin new (h.loose_subset hnew) hid

/-- A kept node is erased after the splice only if it was before. -/
theorem isErased_erase (h : Intact start current steps spare tree (step :: todo))
    (harranged : Arrangement start steps) (hguarded : Guarded start tree.id steps spare)
    (hslotted : step.Slotted current middle kind)
    (hsafe : ∀ new, new ∈ news todo → new.id ∉ step.old.ids)
    (hx : Kept tree step todo spare x) :
    (middle.erase step.old.id).isErased x = current.isErased x := by
  rw [Store.isErased, h.node_erase harranged hguarded hslotted hsafe hx]
  exact hslotted.isErased x

theorem waiting_next (h : Intact start current steps spare tree (step :: todo))
    (harranged : Arrangement start steps) (hguarded : Guarded start tree.id steps spare)
    (hslotted : step.Slotted current middle kind)
    (hsafe : ∀ new, new ∈ news todo → new.id ∉ step.old.ids) {new : Tree}
    (hnew : new ∈ news todo ++ spare) (hx : x ∈ new.ids) :
    (middle.erase step.old.id).node x = start.node x := by
  have hall : new ∈ news (step :: todo) ++ spare := by
    rw [news_cons, List.append_assoc]
    exact List.mem_append_right _ hnew
  have hne : x ≠ step.holder := by
    rintro rfl
    exact hguarded.holders step (h.course.coming step (List.mem_cons_self ..)) new
      (h.loose_subset hall) hx
  rw [h.node_erase harranged hguarded hslotted hsafe
      (.inr (.inr (List.mem_flatMap.mpr ⟨new, hall, hx⟩))),
    hslotted.node_of_ne hne
      (fun hroot => h.not_new_of_later hnew hx (Tree.map_id_subset _ hroot))]
  exact h.waiting new hall x hx

theorem owned_shown (h : Intact start current steps spare tree (step :: todo))
    (harranged : Arrangement start steps) (hguarded : Guarded start tree.id steps spare)
    (hslotted : step.Slotted current middle kind)
    (hsafe : ∀ new, new ∈ news todo → new.id ∉ step.old.ids)
    (hx : x ∈ tree.shown (targets (step :: todo))) (hgoes : x ∉ targets (step :: todo))
    {child : NodeId} (hchild : child ∈ (middle.erase step.old.id).children x) :
    (middle.erase step.old.id).parent child = some x ∧
      (middle.erase step.old.id).isErased child = false := by
  rw [h.course.children_erase hslotted hx hgoes, List.mem_flatMap] at hchild
  obtain ⟨slot, hslot, hput⟩ := hchild
  unfold Tree.putId at hput
  split at hput
  · next he =>
    subst he
    obtain rfl := h.course.sole step (List.mem_cons_self ..) x hx hgoes hslot
    obtain ⟨new, hnew, rfl⟩ := List.mem_map.mp hput
    have hall : new ∈ news (step :: todo) ++ spare :=
      List.mem_append_left _ (List.mem_append_left _ hnew)
    have hloose := h.loose_subset hall
    have hkept : Kept tree step todo spare new.id :=
      .inr (.inr (List.mem_flatMap.mpr ⟨new, hall, new.id_mem_ids⟩))
    have hne : new.id ≠ step.holder := fun he =>
      hguarded.holders step (h.course.coming step (List.mem_cons_self ..)) new hloose
        (he ▸ new.id_mem_ids)
    refine ⟨?_, ?_⟩
    · rw [Store.parent, h.node_erase harranged hguarded hslotted hsafe hkept, hslotted.node,
        if_neg hne, if_pos hput]
    · rw [h.isErased_erase harranged hguarded hslotted hsafe hkept]
      exact (h.alive new.id (List.mem_flatMap.mpr ⟨new, hloose, new.id_mem_ids⟩)).1
  · next hne =>
    obtain rfl := List.mem_singleton.mp hput
    obtain ⟨hlink, hlive⟩ := h.owned x hx hgoes child hslot
    have hshown := (h.course.laid.children_sublist hx hgoes).subset hslot
    have hkept : Kept tree step todo spare child := .inr (.inl ⟨hshown, hne⟩)
    refine ⟨?_, ?_⟩
    · rw [Store.parent, h.node_erase harranged hguarded hslotted hsafe hkept]
      exact (hslotted.parent_of_not_new (h.course.not_new_of_shown hshown)).trans hlink
    · rw [h.isErased_erase harranged hguarded hslotted hsafe hkept]
      exact hlive

theorem owned_new (h : Intact start current steps spare tree (step :: todo))
    (harranged : Arrangement start steps) (hguarded : Guarded start tree.id steps spare)
    (hslotted : step.Slotted current middle kind)
    (hsafe : ∀ new, new ∈ news todo → new.id ∉ step.old.ids) {new : Tree}
    (hnew : new ∈ step.new) (hx : x ∈ new.ids) {child : NodeId}
    (hchild : child ∈ (middle.erase step.old.id).children x) :
    (middle.erase step.old.id).parent child = some x ∧
      (middle.erase step.old.id).isErased child = false := by
  have hin := h.course.coming step (List.mem_cons_self ..)
  have hmem := mem_news (List.mem_cons_self .. : step ∈ step :: todo) hnew
  have hall : new ∈ news (step :: todo) ++ spare := List.mem_append_left _ hmem
  have hloose := h.loose_subset hall
  obtain ⟨hheld, -, hnodup⟩ := hguarded.held new hloose
  have hother : ∀ other, other ∈ steps → x ≠ other.holder := by
    rintro other hin' rfl
    exact hguarded.holders other hin' new hloose hx
  rw [Store.children, Course.kind_erase_of_ne hslotted (hother step hin),
    h.course.kinds x hother] at hchild
  have hchildIn := hheld.laid.children_subset hx hchild
  have hne : child ≠ new.id := by
    rintro rfl
    exact hheld.laid.id_not_mem_children hnodup hx hchild
  have hkept : Kept tree step todo spare child :=
    .inr (.inr (List.mem_flatMap.mpr ⟨new, hall, hchildIn⟩))
  refine ⟨?_, ?_⟩
  · rw [Store.parent, h.node_erase harranged hguarded hslotted hsafe hkept]
    exact (h.parent_of_loose hslotted hall hchildIn hne).trans (hheld.owned hx hchild).1
  · rw [h.isErased_erase harranged hguarded hslotted hsafe hkept]
    exact (h.alive child (List.mem_flatMap.mpr ⟨new, hloose, hchildIn⟩)).1

theorem alive_next (h : Intact start current steps spare tree (step :: todo))
    (harranged : Arrangement start steps) (hguarded : Guarded start tree.id steps spare)
    (hslotted : step.Slotted current middle kind)
    (hsafe : ∀ new, new ∈ news todo → new.id ∉ step.old.ids)
    (hx : x ∈ (news steps ++ spare).flatMap Tree.ids) :
    (middle.erase step.old.id).isErased x = false ∧
      (x ∈ (step.apply tree).shown (targets todo) ∨
        x ∈ (news todo ++ spare).flatMap Tree.ids) := by
  obtain ⟨hlive, hplace⟩ := h.alive x hx
  rcases hplace with hshown | hloose
  · have hne : x ≠ step.old.id := by
      rintro rfl
      obtain ⟨new, hnew, hid⟩ := List.mem_flatMap.mp hx
      exact hguarded.targets step (h.course.coming step (List.mem_cons_self ..)) new hnew hid
    rw [h.isErased_erase harranged hguarded hslotted hsafe (.inr (.inl ⟨hshown, hne⟩))]
    exact ⟨hlive, .inl (h.course.mem_shown_apply hshown hne)⟩
  · rw [h.isErased_erase harranged hguarded hslotted hsafe (.inr (.inr hloose))]
    refine ⟨hlive, ?_⟩
    rw [news_cons, List.append_assoc, List.flatMap_append, List.mem_append] at hloose
    refine hloose.imp_left fun hself => ?_
    obtain ⟨new, hnew, hid⟩ := List.mem_flatMap.mp hself
    exact h.course.mem_shown_new (by simpa using hnew) hid

/-- A step of the commit erases nothing too early, if no root of a tree still to be placed
stands in the old subtree. -/
theorem next (h : Intact start current steps spare tree (step :: todo))
    (harranged : Arrangement start steps) (hguarded : Guarded start tree.id steps spare)
    (hslotted : step.Slotted current middle kind)
    (hsafe : ∀ new, new ∈ news todo → new.id ∉ step.old.ids) :
    Intact start (middle.erase step.old.id) steps spare (step.apply tree) todo where
  course := h.course.next harranged hslotted
  apart := by
    have hapart := h.apart
    rw [news_cons, List.append_assoc, List.flatMap_append, ← List.append_assoc] at hapart
    rw [Splice.apply, Tree.shown_put h.course.root_ne
      (fun new hnew id hid => h.course.new_not_stop hnew hid)]
    exact Tree.nodup_flatMap_putId hapart
  owned x hx hgoes child hchild := by
    rcases h.course.mem_shown_cases hx with ⟨hshown, hne⟩ | ⟨new, hnew, hid⟩
    · refine h.owned_shown harranged hguarded hslotted hsafe hshown ?_ hchild
      rw [targets_cons, List.mem_cons, not_or]
      exact ⟨hne, hgoes⟩
    · exact h.owned_new harranged hguarded hslotted hsafe hnew hid hchild
  waiting _ hnew _ hx := h.waiting_next harranged hguarded hslotted hsafe hnew hx
  alive _ hx := h.alive_next harranged hguarded hslotted hsafe hx

/-- A whole commit erases nothing too early, if it spares the new trees. -/
theorem run {edits : List Edit} (h : Intact start current steps spare tree todo)
    (harranged : Arrangement start steps) (hguarded : Guarded start tree.id steps spare)
    (hasks : List.Forall₂ Edit.Asks edits todo) (hsafe : Spares todo) :
    ∃ final, edits.forM Build.applyEdit current = .ok ((), final) ∧
      Intact start final steps spare (todo.foldl Splice.apply tree) [] := by
  induction hasks generalizing current tree with
  | nil => exact ⟨current, rfl, h⟩
  | @cons edit step edits todo hask _ ih =>
      obtain ⟨hout, hrest⟩ := spares_cons.mp hsafe
      have hroot : (step.apply tree).id = tree.id := Tree.id_put ..
      obtain ⟨middle, kind, hrun, hslotted⟩ := h.course.exists_slotted harranged hask
      obtain ⟨final, hruns, hfinal⟩ := ih (h.next harranged hguarded hslotted hout)
        (hroot ▸ hguarded) hrest
      exact ⟨final, (Draft.run_applyEdit edit edits hrun).trans hruns, hfinal⟩

/-- After the last splice the store holds the tree. -/
theorem held (h : Intact start current steps spare tree []) :
    tree.Held current (current.parent tree.id) := by
  refine h.course.laid.laid.held fun id hid child hchild => ?_
  rw [← tree.shown_nil] at hid
  exact h.owned id hid List.not_mem_nil child hchild

end Intact

/-! ## What is erased -/

/-- Erasing a tree erases a node of it if the links down to the node are those of `base`, where
the tree was held. -/
theorem Store.isErased_erase_of_linked {base store : Store} {old : Tree} {owner : Option NodeId}
    (hheld : old.Held base owner) (hnodup : old.ids.Nodup) (hsize : base.size ≤ store.size)
    (hkinds : ∀ id, id ∈ old.ids → store.kind id = base.kind id) {x : NodeId}
    (hx : x ∈ old.ids)
    (hlinks : ∀ below, below ∈ old.subtrees → below ≠ old → x ∈ below.ids →
      store.parent below.id = base.parent below.id) :
    (store.erase old.id).isErased x = true := by
  let cut := old.ids.filter fun id =>
    decide (id ≠ old.id ∧ store.parent id ≠ base.parent id)
  have hmem : ∀ id, id ∈ cut ↔
      id ∈ old.ids ∧ id ≠ old.id ∧ store.parent id ≠ base.parent id := by
    intro id
    simp [cut]
  have hcut : store.IsCut cut old := by
    intro holder hholder _
    have hholderIn : holder.id ∈ old.ids := Tree.mem_ids_iff.mpr ⟨holder, hholder, rfl⟩
    refine ⟨?_, fun sub hsub => ?_⟩
    · have hlaid := hheld.laid.of_mem hholder
      rw [Store.children, hkinds _ hholderIn]
      cases holder with
      | node id head type subs => exact hlaid.shown_by.children
    · have hin := Tree.slot_mem_subtrees hholder hsub
      have hne : sub.id ≠ old.id := (Tree.id_ne_of_mem hnodup hin
        (Tree.ne_of_mem_slot hholder hsub sub.mem_subtrees_self)).symm
      rw [hmem, (hheld.of_slot hholder hsub).link]
      simp [hne, Tree.mem_ids_iff.mpr ⟨sub, hin, rfl⟩]
  have hroot : old.id ∉ cut := fun hin => ((hmem _).mp hin).2.1 rfl
  have hlt : old.id < store.size := Nat.lt_of_lt_of_le hheld.lt hsize
  have hleft : x ∈ old.remnant cut := by
    refine (Tree.mem_remnant_iff hnodup).mpr ⟨hx, fun below hbelow hstop hin => ?_⟩
    obtain ⟨-, hne, hlink⟩ := (hmem _).mp hstop
    exact hlink (hlinks below hbelow (fun he => hne (he ▸ rfl)) hin)
  rw [Store.isErased, Store.node_erase_cut hcut hroot hlt hnodup, if_pos hleft]
  rfl

end CodeTidy
