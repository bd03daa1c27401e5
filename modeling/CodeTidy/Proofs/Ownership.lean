import CodeTidy.Proofs.Held
import CodeTidy.Store.Ownership

/-!
# The ownership check and held trees

The check finds nothing exactly when no move is waiting and the slots below the root
form a tree that the store holds.  One direction reads a tree off a search that
found nothing; the other follows a search through a tree.
-/

namespace CodeTidy

namespace Store

variable {store : Store} {holder : NodeId} {seen slots : List NodeId}

/-- Every recorded type is in the type table. -/
def TypesKnown (store : Store) : Prop :=
  ∀ id number, (store.node id).type = some number →
    ∃ desc, store.types.get? number = some desc

instance (store : Store) : Decidable store.TypesKnown :=
  decidable_of_iff
    (∀ id, id < store.size → ∀ number, number ∈ (store.node id).type →
      (store.types.get? number).isSome = true) <| by
    constructor
    · intro h id number htype
      by_cases hlt : id < store.size
      · exact Option.isSome_iff_exists.mp (h id hlt number htype)
      · have hleaf : store.node id = Node.leaf :=
          Array.getD_eq_getD_getElem?.trans
            (by rw [Array.getElem?_eq_none (Nat.not_lt.mp hlt)]; rfl)
        rw [hleaf] at htype
        cases htype
    · exact fun h id _ number htype => Option.isSome_iff_exists.mpr (h id number htype)

theorem lt_of_parent {id owner : NodeId} (h : store.parent id = some owner) :
    id < store.size := by
  by_contra hge
  have hnone : store.nodes[id]? = none := Array.getElem?_eq_none (Nat.le_of_not_lt hge)
  simp [Store.parent, Store.node, Array.getD_eq_getD_getElem?, hnone, Node.leaf] at h

/-! ## The slots of one node -/

/-- Slots without violations hold new and distinct nodes that are linked to the
holder. -/
theorem of_inspectSlots_found (h : (store.inspectSlots holder seen slots).found = []) :
    (store.inspectSlots holder seen slots).met = slots ∧ slots.Nodup ∧
      ∀ child, child ∈ slots → child ∉ seen ∧ store.parent child = some holder ∧
        store.isErased child = false := by
  induction slots generalizing seen with
  | nil => simp [inspectSlots]
  | cons child rest ih =>
      by_cases hseen : child ∈ seen
      · simp [inspectSlots, hseen] at h
      · simp only [inspectSlots, hseen, if_false, List.append_eq_nil_iff,
          childViolations] at h ⊢
        obtain ⟨⟨herased, hparent⟩, hrest⟩ := h
        obtain ⟨hmet, hnodup, hall⟩ := ih hrest
        have hlive : store.isErased child = false := by
          by_contra hne
          simp [hne] at herased
        have hlink : store.parent child = some holder := by
          by_contra hne
          simp [hne] at hparent
        refine ⟨by rw [hmet], List.nodup_cons.mpr ⟨?_, hnodup⟩, ?_⟩
        · intro hmem
          exact (hall child hmem).1 (by simp)
        · intro other hother
          rcases List.mem_cons.mp hother with rfl | hlater
          · exact ⟨hseen, hlink, hlive⟩
          · have hfacts := hall other hlater
            exact ⟨fun hs => hfacts.1 (List.mem_cons_of_mem _ hs), hfacts.2⟩

/-- New and distinct nodes that are linked to the holder give no violation. -/
theorem inspectSlots_eq (hnodup : slots.Nodup)
    (hall : ∀ child, child ∈ slots → child ∉ seen ∧ store.parent child = some holder ∧
      store.isErased child = false) :
    store.inspectSlots holder seen slots = ⟨[], slots⟩ := by
  induction slots generalizing seen with
  | nil => rfl
  | cons child rest ih =>
      obtain ⟨hnew, hlink, hlive⟩ := hall child (by simp)
      rw [List.nodup_cons] at hnodup
      have hrest : store.inspectSlots holder (child :: seen) rest = ⟨[], rest⟩ := by
        apply ih hnodup.2
        intro other hother
        have hfacts := hall other (List.mem_cons_of_mem _ hother)
        refine ⟨?_, hfacts.2⟩
        intro hmem
        rcases List.mem_cons.mp hmem with rfl | hseen
        · exact hnodup.1 hother
        · exact hfacts.1 hseen
      simp [inspectSlots, hnew, hrest, childViolations, hlive, hlink]

/-! ## From a search to a tree -/

def unmet (store : Store) (seen : List NodeId) : List NodeId :=
  (List.range store.size).filter (fun id => id ∉ seen)

theorem length_unmet_root (store : Store) (root : NodeId) :
    (store.unmet [root]).length + [root].length ≤ store.size + 1 := by
  have hall := List.length_filter_le (fun id => decide (id ∉ [root])) (List.range store.size)
  rw [List.length_range] at hall
  exact Nat.add_le_add_right hall 1

theorem length_unmet_append {met : List NodeId} (hnodup : met.Nodup)
    (hnew : ∀ id, id ∈ met → id ∉ seen ∧ id < store.size) :
    (store.unmet (met ++ seen)).length + met.length ≤ (store.unmet seen).length := by
  have hnodupAll : (store.unmet (met ++ seen) ++ met).Nodup := by
    rw [List.nodup_append']
    refine ⟨List.nodup_range.filter _, hnodup, ?_⟩
    intro id hunmet hmet
    have hout : id ∉ met ++ seen := by simpa [unmet] using (List.mem_filter.mp hunmet).2
    exact hout (List.mem_append_left _ hmet)
  have hsub : store.unmet (met ++ seen) ++ met ⊆ store.unmet seen := by
    intro id hid
    rcases List.mem_append.mp hid with hunmet | hmet
    · have hmem := List.mem_filter.mp hunmet
      simp only [List.mem_append, not_or, decide_eq_true_eq] at hmem
      exact List.mem_filter.mpr ⟨hmem.1, by simp [hmem.2.2]⟩
    · have hfacts := hnew id hmet
      exact List.mem_filter.mpr ⟨List.mem_range.mpr hfacts.2, by simp [hfacts.1]⟩
  simpa using List.Nodup.length_le_of_subset hnodupAll hsub

theorem Shows.of_known (hknown : store.TypesKnown) {id : NodeId} (hlt : id < store.size) :
    store.Shows id (store.kind id).head (store.typeOf id) (store.children id) where
  lt := hlt
  head := rfl
  children := rfl
  type := by
    unfold Store.typeOf
    cases hrec : (store.node id).type with
    | none => rfl
    | some number =>
        obtain ⟨desc, hdesc⟩ := hknown id number hrec
        simp [hdesc]

/-- Trees for the nodes that a search still has to look into: they have no node in common,
and the search met none of the nodes below their roots. -/
structure Grown (store : Store) (seen waiting : List NodeId) (trees : List Tree) : Prop where
  roots : trees.map Tree.id = waiting
  held : ∀ tree, tree ∈ trees → tree.Held store (store.parent tree.id)
  apart : (trees.flatMap Tree.ids).Nodup
  fresh : ∀ tree, tree ∈ trees → ∀ id, id ∈ tree.subs.flatMap Tree.ids → id ∉ seen

/-- Trees for the slots of a node make a tree for the node. -/
theorem Grown.gather {waiting : List NodeId} {below others : List Tree}
    (h : store.Grown (store.children holder ++ seen) ((store.children holder).reverse ++ waiting)
      (below ++ others))
    (hbelow : below.map Tree.id = (store.children holder).reverse)
    (hknown : store.TypesKnown) (hlt : holder < store.size) (hholder : holder ∈ seen)
    (hwaiting : holder ∉ waiting)
    (hslots : ∀ child, child ∈ store.children holder → child ∉ seen ∧
      store.parent child = some holder ∧ store.isErased child = false) :
    store.Grown seen (holder :: waiting)
      (.node holder (store.kind holder).head (store.typeOf holder) below.reverse :: others) := by
  have hids : below.reverse.map Tree.id = store.children holder := by
    rw [List.map_reverse, hbelow, List.reverse_reverse]
  have hslot : ∀ sub, sub ∈ below.reverse → sub.id ∈ store.children holder :=
    fun sub hsub => hids ▸ List.mem_map_of_mem hsub
  have hperm : ((below ++ others).flatMap Tree.ids).Perm
      (below.reverse.flatMap Tree.ids ++ others.flatMap Tree.ids) := by
    rw [List.flatMap_append]
    exact List.Perm.append_right _ ((List.reverse_perm below).symm.flatMap_right _)
  have hothers : others.map Tree.id = waiting := by
    have hroots := h.roots
    rw [List.map_append, hbelow] at hroots
    exact List.append_cancel_left hroots
  refine ⟨by simp [hothers], ?_, ?_, ?_⟩
  · intro tree htree
    rcases List.mem_cons.mp htree with rfl | hother
    · refine .node (by simp) ?_ rfl (fun sub hsub => (hslots sub.id (hslot sub hsub)).2.2) ?_
      · rw [hids]
        exact .of_known hknown hlt
      · intro sub hsub
        have hheld := h.held sub (List.mem_append_left _ (List.mem_reverse.mp hsub))
        rwa [(hslots sub.id (hslot sub hsub)).2.1] at hheld
    · exact h.held tree (List.mem_append_right _ hother)
  · rw [List.flatMap_cons, Tree.ids_node, List.cons_append, List.nodup_cons]
    refine ⟨?_, hperm.nodup_iff.mp h.apart⟩
    intro hmem
    rw [← hperm.mem_iff] at hmem
    obtain ⟨tree, htree, hin⟩ := List.mem_flatMap.mp hmem
    rw [Tree.ids_eq] at hin
    rcases List.mem_cons.mp hin with heq | hinside
    · have hwaits : holder ∈ (store.children holder).reverse ++ waiting := by
        rw [← h.roots, heq]
        exact List.mem_map_of_mem htree
      rcases List.mem_append.mp hwaits with hslot | hwait
      · exact (hslots holder (List.mem_reverse.mp hslot)).1 hholder
      · exact hwaiting hwait
    · exact h.fresh tree htree holder hinside (List.mem_append_right _ hholder)
  · intro tree htree id hid hmem
    rcases List.mem_cons.mp htree with rfl | hother
    · obtain ⟨sub, hsub, hin⟩ := List.mem_flatMap.mp hid
      rw [Tree.ids_eq] at hin
      rcases List.mem_cons.mp hin with rfl | hinside
      · exact (hslots sub.id (hslot sub hsub)).1 hmem
      · exact h.fresh sub (List.mem_append_left _ (List.mem_reverse.mp hsub)) id hinside
          (List.mem_append_right _ hmem)
    · exact h.fresh tree (List.mem_append_right _ hother) id hid (List.mem_append_right _ hmem)

/-- A search that found nothing walked through trees without common nodes. -/
theorem exists_trees_of_search (hknown : store.TypesKnown) {steps : Nat}
    {seen waiting : List NodeId} (hnodup : waiting.Nodup) (hseen : waiting ⊆ seen)
    (hlt : ∀ id, id ∈ waiting → id < store.size)
    (hsteps : (store.unmet seen).length + waiting.length ≤ steps)
    (hsearch : store.searchSteps steps seen waiting = []) :
    ∃ trees, store.Grown seen waiting trees := by
  induction steps generalizing seen waiting with
  | zero =>
      have hempty : waiting = [] := List.length_eq_zero_iff.mp (by omega)
      subst hempty
      exact ⟨[], rfl, by simp, by simp, by simp⟩
  | succ steps ih =>
      cases waiting with
      | nil => exact ⟨[], rfl, by simp, by simp, by simp⟩
      | cons holder waiting =>
          simp only [searchSteps, List.append_eq_nil_iff] at hsearch
          obtain ⟨hfound, hrest⟩ := hsearch
          obtain ⟨hmet, hslots, hall⟩ := of_inspectSlots_found hfound
          rw [hmet] at hrest
          have hltSlots : ∀ id, id ∈ store.children holder → id < store.size :=
            fun id hid => lt_of_parent (hall id hid).2.1
          rw [List.nodup_cons] at hnodup
          have hcount : (store.unmet (store.children holder ++ seen)).length +
              (store.children holder).length ≤ (store.unmet seen).length :=
            length_unmet_append hslots (fun id hid => ⟨(hall id hid).1, hltSlots id hid⟩)
          have hnext : ((store.children holder).reverse ++ waiting).Nodup := by
            rw [List.nodup_append']
            refine ⟨List.nodup_reverse.mpr hslots, hnodup.2, ?_⟩
            intro id hslot hwait
            exact (hall id (List.mem_reverse.mp hslot)).1
              (hseen (List.mem_cons_of_mem _ hwait))
          obtain ⟨trees, hgrown⟩ := ih hnext
            (by
              intro id hid
              rcases List.mem_append.mp hid with hslot | hwait
              · exact List.mem_append_left _ (List.mem_reverse.mp hslot)
              · exact List.mem_append_right _ (hseen (List.mem_cons_of_mem _ hwait)))
            (by
              intro id hid
              rcases List.mem_append.mp hid with hslot | hwait
              · exact hltSlots id (List.mem_reverse.mp hslot)
              · exact hlt id (List.mem_cons_of_mem _ hwait))
            (by
              simp only [List.length_append, List.length_reverse, List.length_cons] at hsteps ⊢
              omega)
            hrest
          -- The trees of the slots come first and in reverse; they form the holder's tree.
          obtain ⟨below, others, rfl, hbelow, -⟩ := List.map_eq_append_iff.mp hgrown.roots
          exact ⟨_, hgrown.gather hbelow hknown (hlt holder (by simp)) (hseen (by simp))
            hnodup.1 hall⟩

/-! ## From a tree to a search -/

/-- A search through trees without common nodes finds nothing. -/
theorem searchSteps_eq_nil {steps : Nat} {seen : List NodeId} {trees : List Tree}
    (hheld : ∀ tree, tree ∈ trees → ∃ owner, tree.Held store owner)
    (hdistinct : (trees.flatMap Tree.ids).Nodup)
    (hseen : ∀ tree, tree ∈ trees → tree.id ∈ seen)
    (hfresh : ∀ tree, tree ∈ trees → ∀ id, id ∈ tree.subs.flatMap Tree.ids →
      id ∉ seen) :
    store.searchSteps steps seen (trees.map Tree.id) = [] := by
  induction steps generalizing seen trees with
  | zero => rfl
  | succ steps ih =>
      cases trees with
      | nil => rfl
      | cons tree others =>
          cases tree with
          | node holder head type subs =>
              obtain ⟨owner, htree⟩ := hheld _ (List.mem_cons_self ..)
              have hchildren : store.children holder = subs.map Tree.id :=
                htree.laid.shown_by.children
              rw [List.flatMap_cons, Tree.ids_node, List.cons_append, List.nodup_cons,
                List.nodup_append'] at hdistinct
              obtain ⟨hholder, hsubs, hothers, hapart⟩ := hdistinct
              have hslots : store.inspectSlots holder seen (store.children holder) =
                  ⟨[], subs.map Tree.id⟩ := by
                rw [hchildren]
                apply inspectSlots_eq (Tree.nodup_map_id hsubs)
                intro child hchild
                obtain ⟨sub, hsub, rfl⟩ := List.mem_map.mp hchild
                refine ⟨?_, (htree.sub hsub).link, htree.live hsub⟩
                exact hfresh _ (List.mem_cons_self ..) _
                  (List.mem_flatMap.mpr ⟨sub, hsub, sub.id_mem_ids⟩)
              have hperm : ((subs.reverse ++ others).flatMap Tree.ids).Perm
                  (subs.flatMap Tree.ids ++ others.flatMap Tree.ids) := by
                rw [List.flatMap_append]
                exact List.Perm.append_right _ ((List.reverse_perm subs).flatMap_right _)
              simp only [List.map_cons, Tree.id_node, searchSteps, hslots, List.nil_append]
              rw [← List.map_reverse, ← List.map_append]
              apply ih
              · intro tree hmem
                rcases List.mem_append.mp hmem with hsub | hother
                · exact ⟨_, htree.sub (List.mem_reverse.mp hsub)⟩
                · exact hheld tree (List.mem_cons_of_mem _ hother)
              · exact hperm.nodup_iff.mpr (List.nodup_append'.mpr ⟨hsubs, hothers, hapart⟩)
              · intro tree hmem
                rcases List.mem_append.mp hmem with hsub | hother
                · exact List.mem_append_left _ (List.mem_map_of_mem (List.mem_reverse.mp hsub))
                · exact List.mem_append_right _ (hseen tree (List.mem_cons_of_mem _ hother))
              · intro tree hmem id hid hmet
                have hin : id ∈ tree.ids := Tree.slots_subset_ids _ hid
                rcases List.mem_append.mp hmet with hroot | hseenId
                · -- A root of the new trees is not below another of them.
                  obtain ⟨sub, hsub, rfl⟩ := List.mem_map.mp hroot
                  have htwice := hperm.nodup_iff.mpr
                    (List.nodup_append'.mpr ⟨hsubs, hothers, hapart⟩)
                  have hsub' : sub ∈ subs.reverse ++ others :=
                    List.mem_append_left _ (List.mem_reverse.mpr hsub)
                  have heq : tree = sub :=
                    Tree.eq_of_common_id htwice hmem hsub' hin sub.id_mem_ids
                  subst heq
                  exact Tree.id_not_mem_slots ((List.nodup_flatMap.mp htwice).1 tree hmem) hid
                · rcases List.mem_append.mp hmem with hsub | hother
                  · exact hfresh _ (List.mem_cons_self ..) id
                      (List.mem_flatMap.mpr ⟨tree, List.mem_reverse.mp hsub, hin⟩) hseenId
                  · exact hfresh tree (List.mem_cons_of_mem _ hother) id hid hseenId

theorem violations_eq_nil_iff_search (store : Store) (root : NodeId) :
    store.violations root = [] ↔
      store.moves = [] ∧ store.searchSteps (store.size + 1) [root] [root] = [] := by
  have hmoves : (if store.moves.isEmpty then [] else [Violation.waitingMoves]) = [] ↔
      store.moves = [] := by
    cases store.moves <;> simp
  rw [violations, List.append_eq_nil_iff, hmoves]

/-- The check finds nothing exactly when no move is waiting and the store holds the
tree below the root. -/
theorem violations_eq_nil_iff (hknown : store.TypesKnown) {root : NodeId}
    (hroot : root < store.size) :
    store.violations root = [] ↔
      store.moves = [] ∧ ∃ tree : Tree, tree.id = root ∧ tree.ids.Nodup ∧
        tree.Held store (store.parent root) := by
  rw [violations_eq_nil_iff_search]
  refine and_congr_right (fun _ => ?_)
  constructor
  · intro hsearch
    obtain ⟨trees, hgrown⟩ := exists_trees_of_search hknown
      (List.nodup_singleton root) (List.Subset.refl _)
      (by intro id hid; rw [List.mem_singleton.mp hid]; exact hroot)
      (store.length_unmet_root root) hsearch
    obtain ⟨tree, rfl, rfl⟩ := List.map_eq_singleton_iff.mp hgrown.roots
    exact ⟨tree, rfl, by simpa using hgrown.apart, hgrown.held tree (by simp)⟩
  · rintro ⟨tree, rfl, hnodup, hheld⟩
    have hsearch : store.searchSteps (store.size + 1) [tree.id] ([tree].map Tree.id) = [] := by
      apply searchSteps_eq_nil
      · intro t ht
        rw [List.mem_singleton.mp ht]
        exact ⟨_, hheld⟩
      · simpa using hnodup
      · simp
      · intro t ht id hid hmem
        rw [List.mem_singleton.mp ht] at hid
        rw [List.mem_singleton.mp hmem] at hid
        exact Tree.id_not_mem_slots hnodup hid
    simpa using hsearch

end Store

end CodeTidy
