import CodeTidy.Proofs.Tree
import CodeTidy.Tree.Traversal

/-!
# Trees in a store

When the slots of a store spell out a tree, `Store.fold` is an ordinary recursion
over it: the bound on its steps is never reached, because no path of a tree is
longer than the store.  `Store.fold_laid` is that equation, and the reading of
terms and the listing of nodes follow from it.
-/

namespace CodeTidy

/-! ## One node -/

structure Store.Shows (store : Store) (id : NodeId) (head : Head) (type : Option TypeDesc)
    (children : List NodeId) : Prop where
  lt : id < store.size
  head : (store.kind id).head = head
  children : store.children id = children
  /-- A recorded type is in the type table. -/
  type : (store.node id).type.map store.types.get? = type.map some

namespace Store

variable {store later : Store} {id : NodeId} {head : Head} {type : Option TypeDesc}
  {children : List NodeId}

theorem Shows.typeOf (h : store.Shows id head type children) : store.typeOf id = type := by
  have htype := h.type
  unfold Store.typeOf
  cases hrec : (store.node id).type with
  | none => cases type <;> simp_all
  | some number => cases type <;> simp_all

/-- Later stores have all nodes and all types of earlier ones. -/
structure Grows (store later : Store) : Prop where
  size : store.size ≤ later.size
  types : ∀ number desc, store.types.get? number = some desc →
    later.types.get? number = some desc

theorem Grows.refl (store : Store) : store.Grows store where
  size := Nat.le_refl _
  types _ _ h := h

theorem Grows.trans {last : Store} (h₁ : store.Grows later) (h₂ : later.Grows last) :
    store.Grows last where
  size := Nat.le_trans h₁.size h₂.size
  types number desc h := h₂.types number desc (h₁.types number desc h)

/-- A recorded type means the same in a later store. -/
theorem Grows.recorded (h : store.Grows later) {number : Option TypeId}
    (hrec : number.map store.types.get? = type.map some) :
    number.map later.types.get? = type.map some := by
  cases number with
  | none => exact hrec
  | some number =>
      cases type with
      | none => cases hrec
      | some desc =>
          simp only [Option.map_some, Option.some.injEq] at hrec ⊢
          exact h.types number desc hrec

/-- What a node shows depends on its kind and its type only. -/
theorem Shows.mono (h : store.Shows id head type children) (hgrows : store.Grows later)
    (hkind : later.kind id = store.kind id)
    (htype : (later.node id).type = (store.node id).type) :
    later.Shows id head type children where
  lt := Nat.lt_of_lt_of_le h.lt hgrows.size
  head := by rw [hkind, h.head]
  children := by
    have hchildren := h.children
    unfold Store.children at hchildren ⊢
    rw [hkind, hchildren]
  type := by
    rw [htype]
    exact hgrows.recorded h.type

end Store

namespace Tree

/-! ## Slots -/

/-- The slots of the store spell out the tree. -/
inductive Laid (store : Store) : Tree → Prop where
  | node {id : NodeId} {head : Head} {type : Option TypeDesc} {subs : List Tree}
      (shows : store.Shows id head type (subs.map Tree.id))
      (slots : ∀ sub, sub ∈ subs → Laid store sub) :
      Laid store (.node id head type subs)

variable {store later : Store} {tree below : Tree} {owner : Option NodeId}
  {stops : List NodeId}

theorem Laid.shown_by {id : NodeId} {head : Head} {type : Option TypeDesc}
    {subs : List Tree} (h : Laid store (.node id head type subs)) :
    store.Shows id head type (subs.map Tree.id) := by
  cases h with
  | node shows _ => exact shows

theorem Laid.sub (h : tree.Laid store) {sub : Tree} (hsub : sub ∈ tree.subs) :
    sub.Laid store := by
  cases h with
  | node _ slots => exact slots sub hsub

theorem Laid.of_mem (h : tree.Laid store) (hmem : below ∈ tree.subtrees) :
    below.Laid store := by
  induction tree with
  | node id head type subs ih =>
      rcases mem_subtrees_iff.mp hmem with rfl | ⟨sub, hsub, hin⟩
      · exact h
      · exact ih sub hsub (h.sub hsub) hin

theorem Laid.lt (h : tree.Laid store) {id : NodeId} (hid : id ∈ tree.ids) :
    id < store.size := by
  obtain ⟨found, hfound, rfl⟩ := mem_ids_iff.mp hid
  cases h.of_mem hfound with
  | node shows _ => exact shows.lt

/-- Slots stay as they are if the kinds and types of the nodes do. -/
theorem Laid.mono (h : tree.Laid store) (hgrows : store.Grows later)
    (hsame : ∀ id, id ∈ tree.ids → later.kind id = store.kind id ∧
      (later.node id).type = (store.node id).type) : tree.Laid later := by
  induction h with
  | @node id head type subs shows slots ih =>
      have hroot := hsame id (by simp)
      refine .node (shows.mono hgrows hroot.1 hroot.2) ?_
      intro sub hsub
      apply ih sub hsub
      intro i hi
      exact hsame i (by rw [ids_node]; simpa using Or.inr ⟨sub, hsub, hi⟩)

theorem Laid.height_le (h : tree.Laid store) (hnodup : tree.ids.Nodup) :
    tree.height ≤ store.size := by
  have hsub : tree.ids ⊆ List.range store.size := fun id hid => List.mem_range.mpr (h.lt hid)
  calc
    tree.height ≤ tree.ids.length := tree.height_le_length_ids
    _ ≤ (List.range store.size).length := List.Nodup.length_le_of_subset hnodup hsub
    _ = store.size := List.length_range

/-! ## Slots and parent links -/

/-- The store holds the tree down to the nodes of `stops`: slots and parent links
agree, and no node in a slot is erased.  At a stop only the link to its holder is
promised. -/
inductive HeldTo (store : Store) (stops : List NodeId) : Option NodeId → Tree → Prop where
  | stop {owner : Option NodeId} {tree : Tree} (isStop : tree.id ∈ stops)
      (lt : tree.id < store.size) (link : store.parent tree.id = owner) :
      HeldTo store stops owner tree
  | node {owner : Option NodeId} {id : NodeId} {head : Head} {type : Option TypeDesc}
      {subs : List Tree} (goesOn : id ∉ stops)
      (shows : store.Shows id head type (subs.map Tree.id))
      (link : store.parent id = owner)
      (live : ∀ sub, sub ∈ subs → store.isErased sub.id = false)
      (slots : ∀ sub, sub ∈ subs → HeldTo store stops (some id) sub) :
      HeldTo store stops owner (.node id head type subs)

/-- The store holds the whole tree below `owner`. -/
abbrev Held (store : Store) (owner : Option NodeId) (tree : Tree) : Prop :=
  tree.HeldTo store [] owner

theorem HeldTo.link (h : tree.HeldTo store stops owner) : store.parent tree.id = owner := by
  cases h with
  | stop _ _ link => exact link
  | node _ _ link _ _ => exact link

theorem HeldTo.lt (h : tree.HeldTo store stops owner) : tree.id < store.size := by
  cases h with
  | stop _ lt _ => exact lt
  | node _ shows _ _ _ => exact shows.lt

theorem Held.live (h : tree.Held store owner) {sub : Tree} (hsub : sub ∈ tree.subs) :
    store.isErased sub.id = false := by
  cases h with
  | stop isStop _ _ => cases isStop
  | node _ _ _ live _ => exact live sub hsub

theorem Held.sub (h : tree.Held store owner) {sub : Tree} (hsub : sub ∈ tree.subs) :
    sub.Held store (some tree.id) := by
  cases h with
  | stop isStop _ _ => cases isStop
  | node _ _ _ _ slots => exact slots sub hsub

theorem Held.laid (h : tree.Held store owner) : tree.Laid store := by
  induction tree generalizing owner with
  | node id head type subs ih =>
      cases h with
      | stop isStop _ _ => cases isStop
      | node _ shows _ _ slots => exact .node shows (fun sub hsub => ih sub hsub (slots sub hsub))

/-- Every subtree is held by the node in whose slot it stands. -/
theorem Held.of_mem (h : tree.Held store owner) (hmem : below ∈ tree.subtrees) :
    ∃ holder, below.Held store holder := by
  induction tree generalizing owner with
  | node id head type subs ih =>
      rcases mem_subtrees_iff.mp hmem with rfl | ⟨sub, hsub, hin⟩
      · exact ⟨owner, h⟩
      · exact ih sub hsub (h.sub hsub) hin

theorem Held.of_slot (h : tree.Held store owner) {holder : Tree}
    (hholder : holder ∈ tree.subtrees) (hslot : below ∈ holder.subs) :
    below.Held store (some holder.id) := by
  obtain ⟨above, habove⟩ := h.of_mem hholder
  exact habove.sub hslot

/-- The parent link of a node of the tree leads to a node of the tree, unless it is the
root. -/
theorem HeldTo.parent_of_mem_shown (h : tree.HeldTo store stops owner) {id : NodeId}
    (hid : id ∈ tree.shown stops) :
    (id = tree.id ∧ store.parent id = owner) ∨
      ∃ holder ∈ tree.shown stops, holder ∉ stops ∧ store.parent id = some holder := by
  induction h with
  | stop isStop lt link =>
      rename_i tree
      cases tree with
      | node i head type subs =>
          have hstop : i ∈ stops := isStop
          rw [shown_node, if_pos hstop, List.mem_singleton] at hid
          exact .inl ⟨hid, hid ▸ link⟩
  | @node above i head type subs goesOn shows link live slots ih =>
      rw [shown_node, if_neg goesOn] at hid ⊢
      rcases List.mem_cons.mp hid with rfl | hbelow
      · exact .inl ⟨rfl, link⟩
      · obtain ⟨sub, hsub, hin⟩ := List.mem_flatMap.mp hbelow
        rcases ih sub hsub hin with ⟨rfl, hlink⟩ | ⟨holder, hholder, hgoes, hlink⟩
        · exact .inr ⟨i, by simp, goesOn, hlink⟩
        · refine .inr ⟨holder, List.mem_cons_of_mem _ ?_, hgoes, hlink⟩
          exact List.mem_flatMap.mpr ⟨sub, hsub, hholder⟩

theorem Held.parent_mem_ids (h : tree.Held store owner) {id above : NodeId} (hid : id ∈ tree.ids)
    (hne : id ≠ tree.id) (hlink : store.parent id = some above) : above ∈ tree.ids := by
  rw [← tree.shown_nil] at hid ⊢
  rcases h.parent_of_mem_shown hid with ⟨he, _⟩ | ⟨holder, hholder, _, hlink'⟩
  · exact absurd he hne
  · rw [hlink', Option.some.injEq] at hlink
    exact hlink ▸ hholder

/-- A store in which the shown nodes did not change holds the same tree. -/
theorem HeldTo.mono (h : tree.HeldTo store stops owner) (hgrows : store.Grows later)
    (hsame : ∀ id, id ∈ tree.shown stops → later.node id = store.node id) :
    tree.HeldTo later stops owner := by
  induction h with
  | stop isStop lt link =>
      rename_i tree
      have hroot := hsame tree.id (id_mem_shown stops tree)
      refine .stop isStop (Nat.lt_of_lt_of_le lt hgrows.size) ?_
      rw [Store.parent, hroot]
      exact link
  | @node above i head type subs goesOn shows link live slots ih =>
      rw [shown_node, if_neg goesOn] at hsame
      have hroot := hsame i (by simp)
      refine .node goesOn (shows.mono hgrows ?_ ?_) ?_ ?_ ?_
      · rw [Store.kind, hroot]; rfl
      · rw [hroot]
      · rw [Store.parent, hroot]; exact link
      · intro sub hsub
        have hslot := hsame sub.id (List.mem_cons_of_mem _
          (List.mem_flatMap.mpr ⟨sub, hsub, id_mem_shown stops sub⟩))
        rw [Store.isErased, hslot]
        exact live sub hsub
      · intro sub hsub
        apply ih sub hsub
        intro id hid
        exact hsame id (List.mem_cons_of_mem _ (List.mem_flatMap.mpr ⟨sub, hsub, hid⟩))

end Tree

/-! ## Recursion over a tree -/

namespace Store

variable {store : Store} {tree : Tree} {α : Type}

/-- A step that looks only at the values of the children. -/
def IsLocal (store : Store) (step : NodeId → Node → (NodeId → α) → α) : Prop :=
  ∀ id (f g : NodeId → α), (∀ child, child ∈ store.children id → f child = g child) →
    step id (store.node id) f = step id (store.node id) g

theorem foldSteps_eq {bottom : α} {step : NodeId → Node → (NodeId → α) → α}
    (hlocal : store.IsLocal step) (hlaid : tree.Laid store) {m n : Nat}
    (hm : tree.height ≤ m) (hn : tree.height ≤ n) :
    store.foldSteps bottom step m tree.id = store.foldSteps bottom step n tree.id := by
  induction tree generalizing m n with
  | node id head type subs ih =>
      have hpos := Tree.height_pos (.node id head type subs)
      obtain ⟨m, rfl⟩ : ∃ m', m = m' + 1 := ⟨m - 1, by omega⟩
      obtain ⟨n, rfl⟩ : ∃ n', n = n' + 1 := ⟨n - 1, by omega⟩
      rw [foldSteps_succ, foldSteps_succ]
      apply hlocal
      intro child hchild
      rw [Tree.id_node, hlaid.shown_by.children] at hchild
      obtain ⟨sub, hsub, rfl⟩ := List.mem_map.mp hchild
      have hlt := Tree.height_slot_lt id head type hsub
      exact ih sub hsub (hlaid.sub hsub) (by omega) (by omega)

/-- On a tree, the bound on the steps of `fold` plays no part. -/
theorem fold_laid {bottom : α} {step : NodeId → Node → (NodeId → α) → α}
    (hlocal : store.IsLocal step) (hlaid : tree.Laid store) (hheight : tree.height ≤ store.size) :
    store.fold bottom step tree.id =
      step tree.id (store.node tree.id) (store.fold bottom step) := by
  unfold fold
  rw [foldSteps_succ]
  apply hlocal
  intro child hchild
  cases tree with
  | node id head type subs =>
      rw [Tree.id_node, hlaid.shown_by.children] at hchild
      obtain ⟨sub, hsub, rfl⟩ := List.mem_map.mp hchild
      have hlt := Tree.height_slot_lt id head type hsub
      exact foldSteps_eq hlocal (hlaid.sub hsub) (by omega) (by omega)

/-- The term at the root of a tree is the tree without its numbers. -/
theorem term_laid (hlaid : tree.Laid store) (hheight : tree.height ≤ store.size) :
    store.term tree.id = tree.term := by
  induction tree with
  | node id head type subs ih =>
      have hlocal : store.IsLocal (fun here found below =>
          Term.node found.kind.head (store.typeOf here) (found.kind.children.map below)) := by
        intro here f g hsame
        simp only [Term.node.injEq, true_and]
        exact List.map_congr_left hsame
      have hshows := hlaid.shown_by
      have hchildren : (store.node id).kind.children = subs.map Tree.id := hshows.children
      have hhead : (store.node id).kind.head = head := hshows.head
      unfold term
      rw [fold_laid hlocal hlaid hheight]
      simp only [Tree.id_node, hhead, hshows.typeOf, hchildren, List.map_map,
        Tree.term_node, Term.node.injEq, true_and]
      apply List.map_congr_left
      intro sub hsub
      have hlt := Tree.height_slot_lt id head type hsub
      exact ih sub hsub (hlaid.sub hsub) (by omega)

theorem preorder_laid (hlaid : tree.Laid store) (hheight : tree.height ≤ store.size) :
    store.preorder tree.id = tree.ids := by
  induction tree with
  | node id head type subs ih =>
      have hlocal : store.IsLocal (fun here _ (below : NodeId → List NodeId) =>
          here :: (store.children here).flatMap below) := by
        intro here f g hsame
        simp only [List.cons.injEq, true_and]
        exact List.flatMap_congr hsame
      unfold preorder listing
      rw [fold_laid hlocal hlaid hheight, Tree.ids_node, Tree.id_node,
        hlaid.shown_by.children, List.flatMap_map]
      congr 1
      apply List.flatMap_congr
      intro sub hsub
      have hlt := Tree.height_slot_lt id head type hsub
      exact ih sub hsub (hlaid.sub hsub) (by omega)

end Store

/-- No tree without repetitions is deeper than the store it is laid out in is large. -/
theorem Tree.Laid.preorder_eq {store : Store} {tree : Tree} (h : tree.Laid store)
    (hnodup : tree.ids.Nodup) : store.preorder tree.id = tree.ids :=
  Store.preorder_laid h (h.height_le hnodup)

end CodeTidy
