import CodeTidy.Proofs.Rendering

/-!
# Copies

A copy gives every node of a tree a new number, children before their parent.  The number
is told by the place of the node in the post-order of the original, so a copy is described
by one renumbering (`Store.copyIn`).  `Store.Copied` says what a row of copies leaves, and
has a lemma for each way in which copies are put together: one after the other, and under
a new node.
-/

namespace CodeTidy

namespace Tree

variable {tree : Tree}

def postorder : Tree → List NodeId :=
  fold (fun id _ _ below => below.flatten ++ [id])

@[simp] theorem postorder_node (id : NodeId) (head : Head) (type : Option TypeDesc)
    (subs : List Tree) :
    (node id head type subs).postorder = subs.flatMap postorder ++ [id] := by
  rw [postorder, fold_node, List.flatMap_def]

theorem postorder_perm (tree : Tree) : tree.postorder.Perm tree.ids := by
  induction tree with
  | node id head type subs ih =>
      rw [postorder_node, ids_node]
      refine List.perm_append_singleton .. |>.trans (.cons id ?_)
      exact List.Perm.flatMap_left subs ih

theorem mem_postorder {id : NodeId} : id ∈ tree.postorder ↔ id ∈ tree.ids :=
  tree.postorder_perm.mem_iff

theorem length_postorder (tree : Tree) : tree.postorder.length = tree.ids.length :=
  tree.postorder_perm.length_eq

abbrev postorders (trees : List Tree) : List NodeId :=
  trees.flatMap postorder

theorem postorders_perm (trees : List Tree) :
    (postorders trees).Perm (trees.flatMap ids) :=
  List.Perm.flatMap_left trees (fun tree _ => tree.postorder_perm)

theorem postorders_node (id : NodeId) (head : Head) (type : Option TypeDesc) (subs : List Tree) :
    postorders [.node id head type subs] = postorders subs ++ [id] := by
  rw [postorders, List.flatMap_singleton, postorder_node]

end Tree

namespace Build

variable {store : Store} {holder : NodeId} {children : List NodeId}

/-- Nodes without a parent can be adopted, whether or not a move of them is requested. -/
theorem forM_adopt_parentless (hnodup : children.Nodup)
    (hlt : ∀ child, child ∈ children → child < store.size)
    (hlive : ∀ child, child ∈ children → store.isErased child = false)
    (hfree : ∀ child, child ∈ children → store.parent child = none) :
    ∃ later, children.forM (adopt holder) store = .ok ((), later) ∧
      later.size = store.size ∧ later.types = store.types ∧
      (∀ id, later.node id = if id ∈ children then
        { store.node id with parent := some holder } else store.node id) ∧
      later.moves = store.moves.filter (fun move => move.node ∉ children) := by
  induction children generalizing store with
  | nil => exact ⟨store, rfl, rfl, rfl, fun id => by simp, by simp⟩
  | cons child rest ih =>
      rw [List.nodup_cons] at hnodup
      have hchild := hlt child (List.mem_cons_self ..)
      have hadopt : adopt holder child store = .ok ((), store.placed child holder) := by
        have hlink : (store.node child).parent = none := hfree child (List.mem_cons_self ..)
        have halive : (store.node child).erased = false := hlive child (List.mem_cons_self ..)
        rw [run_adopt, Store.get_eq_ok hchild]
        simp only [halive, hlink]
        rfl
      have hother : ∀ id, id ≠ child →
          (store.placed child holder).node id = store.node id := by
        intro id hne
        rw [Store.node_placed hchild, if_neg hne]
      have hsame : ∀ id, id ∈ rest → (store.placed child holder).node id = store.node id :=
        fun id hid => hother id (fun he => hnodup.1 (he ▸ hid))
      have hin : ∀ id, id ∈ rest → id ∈ child :: rest :=
        fun id hid => List.mem_cons_of_mem _ hid
      have hsize := (Store.keeps_placed store child holder).size
      obtain ⟨later, hrun, hsize', htypes, hnode, hmoves⟩ := @ih (store.placed child holder)
        hnodup.2 (fun id hid => hsize ▸ hlt id (hin id hid))
        (fun id hid => by rw [Store.isErased, hsame id hid]; exact hlive id (hin id hid))
        (fun id hid => by rw [Store.parent, hsame id hid]; exact hfree id (hin id hid))
      refine ⟨later, (bind_ok hadopt).trans hrun, hsize'.trans hsize,
        htypes.trans (Store.keeps_placed ..).types, fun id => ?_, ?_⟩
      · rw [hnode]
        by_cases he : id = child
        · subst he
          rw [if_neg hnodup.1, if_pos (List.mem_cons_self ..), Store.node_placed hchild,
            if_pos rfl]
        · rw [hother id he]
          simp [he]
      · rw [hmoves]
        show ((store.moves.filter (fun move => move.node != child)).filter _) = _
        rw [List.filter_filter]
        refine List.filter_congr (fun move _ => ?_)
        by_cases he : move.node = child <;> by_cases hin : move.node ∈ rest <;>
          simp [he, hin]

theorem create_parentless {kind : Kind} (type : Option TypeId) (hnodup : kind.children.Nodup)
    (hlt : ∀ child, child ∈ kind.children → child < store.size)
    (hlive : ∀ child, child ∈ kind.children → store.isErased child = false)
    (hfree : ∀ child, child ∈ kind.children → store.parent child = none) :
    ∃ later, create kind type store = .ok (store.size, later) ∧
      later.size = store.size + 1 ∧ later.types = store.types ∧
      (∀ id, later.node id =
        if id = store.size then { kind := kind, type := type }
        else if id ∈ kind.children then { store.node id with parent := some store.size }
        else store.node id) ∧
      later.moves = store.moves.filter (fun move => move.node ∉ kind.children) := by
  have hold : ∀ child, child ∈ kind.children →
      (pushed store kind type).node child = store.node child := by
    intro child hchild
    rw [node_pushed, if_neg (Nat.ne_of_lt (hlt child hchild))]
  obtain ⟨later, hrun, hsize, htypes, hnode, hmoves⟩ :=
    @forM_adopt_parentless (pushed store kind type) store.size _ hnodup
      (fun child hchild => by rw [size_pushed]; exact Nat.lt_succ_of_lt (hlt child hchild))
      (fun child hchild => by rw [Store.isErased, hold child hchild]; exact hlive child hchild)
      (fun child hchild => by rw [Store.parent, hold child hchild]; exact hfree child hchild)
  refine ⟨later, ?_, hsize.trans (size_pushed ..), htypes, fun id => ?_, hmoves⟩
  · have hset : (set (pushed store kind type) : Build PUnit) store =
        .ok ((), pushed store kind type) := rfl
    unfold create
    rw [bind_ok (run_get store)]
    refine (bind_ok hset).trans ?_
    rw [bind_ok hrun]
    rfl
  · rw [hnode, node_pushed]
    by_cases he : id = store.size
    · have hout : id ∉ kind.children := fun hin => Nat.lt_irrefl _ (he ▸ hlt id hin)
      rw [if_neg hout, if_pos he, if_pos he]
    · rw [if_neg he, if_neg he]

end Build

/-! ## Copies of several trees -/

namespace Store

/-- The number of the copy of a node, when nodes are copied in the given order. -/
def copyIn (store : Store) (order : List NodeId) (id : NodeId) : NodeId :=
  store.size + order.idxOf id

/-- Trees were copied one after the other.  The copy of a node has the number that its place
in the post-order tells. -/
structure Copied (store later : Store) (trees : List Tree) : Prop where
  size : later.size = store.size + (Tree.postorders trees).length
  types : later.types = store.types
  old : ∀ id, id < store.size → later.node id = store.node id
  /-- Only moves of numbers that no node had are forgotten. -/
  moves : ∃ lost : List NodeId, (∀ id, id ∈ lost → store.size ≤ id) ∧
    later.moves = store.moves.filter (fun move => move.node ∉ lost)
  kind : ∀ id, id ∈ Tree.postorders trees →
    later.kind (store.copyIn (Tree.postorders trees) id) =
      (store.kind id).mapChildren (store.copyIn (Tree.postorders trees))
  type : ∀ id, id ∈ Tree.postorders trees →
    (later.node (store.copyIn (Tree.postorders trees) id)).type = (store.node id).type
  live : ∀ id, id ∈ Tree.postorders trees →
    later.isErased (store.copyIn (Tree.postorders trees) id) = false
  roots : ∀ tree, tree ∈ trees →
    later.parent (store.copyIn (Tree.postorders trees) tree.id) = none
  links : ∀ id, id ∈ Tree.postorders trees → ∀ child, child ∈ store.children id →
    later.parent (store.copyIn (Tree.postorders trees) child) =
      some (store.copyIn (Tree.postorders trees) id)

variable {store middle later : Store} {order rest : List NodeId} {id : NodeId} {tree : Tree}
  {trees subs : List Tree}

theorem copyIn_lt (h : id ∈ order) : store.copyIn order id < store.size + order.length :=
  Nat.add_lt_add_left (List.idxOf_lt_length_of_mem h) _

theorem le_copyIn : store.size ≤ store.copyIn order id :=
  Nat.le_add_right ..

theorem copyIn_append_of_mem (h : id ∈ order) :
    store.copyIn (order ++ rest) id = store.copyIn order id := by
  rw [copyIn, copyIn, List.idxOf_append_of_mem h]

/-- Copies of later trees begin where the copies of the earlier ones end. -/
theorem copyIn_append_of_not_mem (hsize : middle.size = store.size + order.length)
    (h : id ∉ order) : store.copyIn (order ++ rest) id = middle.copyIn rest id := by
  rw [copyIn, copyIn, List.idxOf_append_of_notMem h, hsize, Nat.add_assoc]

theorem filter_moves_append (moves : List Move) (lost lost' : List NodeId) :
    (moves.filter (fun move => move.node ∉ lost)).filter (fun move => move.node ∉ lost') =
      moves.filter (fun move => move.node ∉ lost ++ lost') := by
  rw [List.filter_filter]
  refine List.filter_congr (fun move _ => ?_)
  simp only [List.mem_append, not_or, Bool.decide_and, Bool.and_comm]

theorem copyIn_inj (hid : id ∈ order) {other : NodeId}
    (h : store.copyIn order id = store.copyIn order other) : id = other :=
  List.idxOf_inj hid |>.mp (Nat.add_left_cancel h)

theorem children_of_laid (hlaid : tree.Laid store.untyped) :
    store.children tree.id = tree.subs.map Tree.id := by
  cases hlaid with
  | node shows _ => exact (children_untyped store _).symm.trans shows.children

/-- Slots spell out a tree, whatever the types of the nodes are. -/
theorem laid_untyped {head : Head} (hlt : id < store.size) (hhead : (store.kind id).head = head)
    (hchildren : store.children id = subs.map Tree.id)
    (hslots : ∀ sub, sub ∈ subs → sub.Laid store.untyped) :
    (Tree.node id head none subs).Laid store.untyped := by
  refine .node ⟨size_untyped store ▸ hlt, ?_, (children_untyped store id).trans hchildren, ?_⟩
    hslots
  · rw [Store.kind, node_untyped]
    exact hhead
  · rw [node_untyped]
    rfl

theorem exists_slot (hlaid : tree.Laid store.untyped) (hid : id ∈ tree.ids) {child : NodeId}
    (hchild : child ∈ store.children id) :
    ∃ above ∈ tree.subtrees, above.id = id ∧ ∃ sub ∈ above.subs, sub.id = child := by
  obtain ⟨above, habove, rfl⟩ := Tree.mem_ids_iff.mp hid
  rw [children_of_laid (hlaid.of_mem habove)] at hchild
  obtain ⟨sub, hsub, rfl⟩ := List.mem_map.mp hchild
  exact ⟨above, habove, rfl, sub, hsub, rfl⟩

/-- What stands in the slots of a node of a tree is in the tree. -/
theorem mem_postorder_of_slot (hlaid : tree.Laid store.untyped) (hid : id ∈ tree.postorder)
    {child : NodeId} (hchild : child ∈ store.children id) : child ∈ tree.postorder := by
  rw [Tree.mem_postorder] at hid ⊢
  obtain ⟨above, habove, -, sub, hsub, rfl⟩ := exists_slot hlaid hid hchild
  exact Tree.mem_ids_iff.mpr ⟨sub, Tree.slot_mem_subtrees habove hsub, rfl⟩

/-- No node below a slot of a node has a slot in common with the node. -/
theorem not_slot_below {holder x child : NodeId} {head : Head} {type : Option TypeDesc}
    (hlaid : (Tree.node holder head type subs).Laid store.untyped)
    (hnodup : (subs.flatMap Tree.ids).Nodup) (hx : x ∈ Tree.postorders subs)
    (hchild : child ∈ store.children x) : child ∉ store.children holder := by
  intro hin
  rw [show store.children holder = subs.map Tree.id from children_of_laid hlaid] at hin
  obtain ⟨other, hother, rfl⟩ := List.mem_map.mp hin
  obtain ⟨sub, hsub, hxsub⟩ := List.mem_flatMap.mp hx
  obtain ⟨above, habove, -, slot, hslot, he⟩ :=
    exists_slot (hlaid.sub hsub) (Tree.mem_postorder.mp hxsub) hchild
  have hbelow : slot ∈ sub.subtrees := Tree.slot_mem_subtrees habove hslot
  obtain rfl : sub = other := Tree.eq_of_common_id hnodup hsub hother
    (he ▸ Tree.mem_ids_iff.mpr ⟨slot, hbelow, rfl⟩) other.id_mem_ids
  have hids : sub.ids.Nodup := (List.nodup_flatMap.mp hnodup).1 sub hsub
  exact Tree.ne_of_mem_slot habove hslot (Tree.mem_subtrees_self slot)
    (Tree.eq_of_id_eq hids hbelow (Tree.mem_subtrees_self sub) he)

theorem mem_postorders_of_slot (hlaid : ∀ tree, tree ∈ trees → tree.Laid store.untyped)
    (hid : id ∈ Tree.postorders trees) {child : NodeId} (hchild : child ∈ store.children id) :
    child ∈ Tree.postorders trees := by
  obtain ⟨tree, htree, hin⟩ := List.mem_flatMap.mp hid
  exact List.mem_flatMap.mpr ⟨tree, htree, mem_postorder_of_slot (hlaid tree htree) hin hchild⟩

theorem lt_of_mem_postorders (hlaid : ∀ tree, tree ∈ trees → tree.Laid store.untyped)
    (hid : id ∈ Tree.postorders trees) : id < store.size := by
  obtain ⟨tree, htree, hin⟩ := List.mem_flatMap.mp hid
  rw [← size_untyped]
  exact (hlaid tree htree).lt (Tree.mem_postorder.mp hin)

/-- What stands in the slots of a node is copied before the node. -/
theorem children_subset_postorders {head : Head} {type : Option TypeDesc}
    (hlaid : (Tree.node id head type subs).Laid store.untyped) :
    store.children id ⊆ Tree.postorders subs := by
  rw [show store.children id = subs.map Tree.id from children_of_laid hlaid]
  exact fun child hchild =>
    (Tree.postorders_perm subs).mem_iff.mpr (Tree.map_id_subset subs hchild)

theorem id_mem_postorders (htree : tree ∈ trees) : tree.id ∈ Tree.postorders trees :=
  List.mem_flatMap.mpr ⟨tree, htree, Tree.mem_postorder.mpr tree.id_mem_ids⟩

theorem Copied.refl (store : Store) : store.Copied store [] where
  size := rfl
  types := rfl
  old _ _ := rfl
  moves := ⟨[], by simp, by simp⟩
  kind := by simp
  type := by simp
  live := by simp
  roots := by simp
  links := by simp

theorem Copied.append (hlaid : ∀ tree, tree ∈ trees ++ subs → tree.Laid store.untyped)
    (hnodup : (Tree.postorders (trees ++ subs)).Nodup) (h : store.Copied middle trees)
    (h' : middle.Copied later subs) : store.Copied later (trees ++ subs) := by
  have horder : Tree.postorders (trees ++ subs) =
      Tree.postorders trees ++ Tree.postorders subs := List.flatMap_append
  have hcases : ∀ {id}, id ∈ Tree.postorders (trees ++ subs) →
      id ∈ Tree.postorders trees ∨ id ∈ Tree.postorders subs :=
    fun hid => List.mem_append.mp (horder ▸ hid)
  have hfirst : ∀ tree, tree ∈ trees → tree.Laid store.untyped :=
    fun tree htree => hlaid tree (List.mem_append_left _ htree)
  have hsecond : ∀ tree, tree ∈ subs → tree.Laid store.untyped :=
    fun tree htree => hlaid tree (List.mem_append_right _ htree)
  rw [horder, List.nodup_append'] at hnodup
  have hnot : ∀ {id}, id ∈ Tree.postorders subs → id ∉ Tree.postorders trees :=
    fun hid hin => hnodup.2.2 hin hid
  -- the earlier trees keep their numbers, and those of the later ones begin after them
  have hleft : ∀ {id}, id ∈ Tree.postorders trees →
      store.copyIn (Tree.postorders (trees ++ subs)) id =
        store.copyIn (Tree.postorders trees) id := by
    intro id hid
    rw [horder, copyIn_append_of_mem hid]
  have hright : ∀ {id}, id ∈ Tree.postorders subs →
      store.copyIn (Tree.postorders (trees ++ subs)) id =
        middle.copyIn (Tree.postorders subs) id := by
    intro id hid
    rw [horder, copyIn_append_of_not_mem h.size (hnot hid)]
  have hkept : ∀ {id}, id ∈ Tree.postorders trees →
      later.node (store.copyIn (Tree.postorders trees) id) =
        middle.node (store.copyIn (Tree.postorders trees) id) := by
    intro id hid
    exact h'.old _ (h.size.symm ▸ copyIn_lt hid)
  have hsame : ∀ {id}, id ∈ Tree.postorders subs → middle.node id = store.node id :=
    fun hid => h.old _ (lt_of_mem_postorders hsecond hid)
  have hslots : ∀ {id}, id ∈ Tree.postorders subs →
      middle.children id = store.children id := by
    intro id hid
    rw [children, Store.kind, hsame hid]
    rfl
  exact {
    size := by rw [h'.size, h.size, horder, List.length_append, Nat.add_assoc]
    types := h'.types.trans h.types
    old := fun id hid => (h'.old id (by have := h.size; omega)).trans (h.old id hid)
    moves := by
      obtain ⟨lost, hlost, hmoves⟩ := h.moves
      obtain ⟨lost', hlost', hmoves'⟩ := h'.moves
      refine ⟨lost ++ lost', fun id hid => ?_, by rw [hmoves', hmoves, filter_moves_append]⟩
      rcases List.mem_append.mp hid with hid | hid
      · exact hlost id hid
      · have := hlost' id hid
        have := h.size
        omega
    kind := by
      intro id hid
      rcases hcases hid with hid | hid
      · rw [hleft hid, Store.kind, hkept hid]
        refine (h.kind id hid).trans (Kind.mapChildren_congr (fun child hchild => ?_))
        exact (hleft (mem_postorders_of_slot hfirst hid hchild)).symm
      · rw [hright hid, h'.kind id hid, Store.kind, hsame hid]
        refine Kind.mapChildren_congr (fun child hchild => ?_)
        exact (hright (mem_postorders_of_slot hsecond hid hchild)).symm
    type := by
      intro id hid
      rcases hcases hid with hid | hid
      · rw [hleft hid, hkept hid]
        exact h.type id hid
      · rw [hright hid, h'.type id hid, hsame hid]
    live := by
      intro id hid
      rcases hcases hid with hid | hid
      · rw [hleft hid, isErased, hkept hid]
        exact h.live id hid
      · rw [hright hid]
        exact h'.live id hid
    roots := by
      intro tree htree
      rcases List.mem_append.mp htree with htree | htree
      · have hin := id_mem_postorders htree
        rw [hleft hin, Store.parent, hkept hin]
        exact h.roots tree htree
      · rw [hright (id_mem_postorders htree)]
        exact h'.roots tree htree
    links := by
      intro id hid child hchild
      rcases hcases hid with hid | hid
      · have hin := mem_postorders_of_slot hfirst hid hchild
        rw [hleft hid, hleft hin, Store.parent, hkept hin]
        exact h.links id hid child hchild
      · rw [hright hid, hright (mem_postorders_of_slot hsecond hid hchild)]
        exact h'.links id hid child (hslots hid ▸ hchild) }

theorem copyIn_mem_iff {ids : List NodeId} (hids : ids ⊆ order) {other : NodeId} :
    store.copyIn order other ∈ ids.map (store.copyIn order) ↔ other ∈ ids := by
  refine ⟨fun hin => ?_, List.mem_map_of_mem⟩
  obtain ⟨id, hid, he⟩ := List.mem_map.mp hin
  exact copyIn_inj (hids hid) he ▸ hid

/-- After the nodes below a node were copied, a copy of the node can be created around the
copies of what stands in its slots. -/
theorem Copied.create {head : Head} {type : Option TypeDesc}
    (hlaid : (Tree.node id head type subs).Laid store.untyped)
    (hnodup : (Tree.node id head type subs).ids.Nodup) (h : store.Copied middle subs) :
    ∃ later, Build.create ((store.kind id).mapChildren (store.copyIn (Tree.postorders subs)))
        (store.node id).type middle = .ok (middle.size, later) ∧
      later.size = middle.size + 1 ∧ later.types = store.types ∧
      (∀ x, x < store.size → later.node x = store.node x) ∧
      (∃ lost : List NodeId, (∀ x, x ∈ lost → store.size ≤ x) ∧
        later.moves = store.moves.filter (fun move => move.node ∉ lost)) ∧
      later.node middle.size = ⟨(store.kind id).mapChildren
        (store.copyIn (Tree.postorders subs)), (store.node id).type, none, false⟩ ∧
      ∀ x, x ∈ Tree.postorders subs →
        later.node (store.copyIn (Tree.postorders subs) x) =
          if x ∈ store.children id then
            { middle.node (store.copyIn (Tree.postorders subs) x) with parent := some middle.size }
          else middle.node (store.copyIn (Tree.postorders subs) x) := by
  have hchildren : store.children id = subs.map Tree.id := children_of_laid hlaid
  have hsubs := children_subset_postorders hlaid
  have hbelow : ∀ x, x ∈ Tree.postorders subs →
      store.copyIn (Tree.postorders subs) x < middle.size :=
    fun x hx => h.size.symm ▸ copyIn_lt hx
  have hslot : ∀ x,
      x ∈ ((store.kind id).mapChildren (store.copyIn (Tree.postorders subs))).children →
      ∃ sub ∈ subs, sub.id ∈ Tree.postorders subs ∧
        store.copyIn (Tree.postorders subs) sub.id = x := by
    intro x hx
    rw [Kind.children_mapChildren] at hx
    obtain ⟨child, hchild, rfl⟩ := List.mem_map.mp hx
    have hin : child ∈ store.children id := hchild
    rw [hchildren] at hin
    obtain ⟨sub, hsub, rfl⟩ := List.mem_map.mp hin
    exact ⟨sub, hsub, hsubs hchild, rfl⟩
  obtain ⟨later, hrun, hsize, htypes, hnode, hmoved⟩ :=
    @Build.create_parentless middle
      ((store.kind id).mapChildren (store.copyIn (Tree.postorders subs))) (store.node id).type
      (by
        rw [Kind.children_mapChildren]
        refine List.Nodup.map_on (fun x hx y _ he => copyIn_inj (hsubs hx) he) ?_
        show (store.children id).Nodup
        rw [hchildren]
        exact Tree.nodup_map_id (Tree.nodup_slots hnodup))
      (fun x hx => by obtain ⟨sub, -, hin, rfl⟩ := hslot x hx; exact hbelow _ hin)
      (fun x hx => by obtain ⟨sub, -, hin, rfl⟩ := hslot x hx; exact h.live _ hin)
      (fun x hx => by obtain ⟨sub, hsub, -, rfl⟩ := hslot x hx; exact h.roots sub hsub)
  refine ⟨later, hrun, hsize, htypes.trans h.types, fun x hx => ?_, ?_, ?_, fun x hx => ?_⟩
  · have hlt : x < middle.size := by have := h.size; omega
    have hout : x ∉ ((store.kind id).mapChildren
        (store.copyIn (Tree.postorders subs))).children := by
      intro hin
      obtain ⟨sub, -, -, rfl⟩ := hslot x hin
      exact absurd hx (Nat.not_lt.mpr le_copyIn)
    rw [hnode, if_neg (Nat.ne_of_lt hlt), if_neg hout]
    exact h.old x hx
  · obtain ⟨lost, hlost, hmoves⟩ := h.moves
    refine ⟨lost ++ ((store.kind id).mapChildren
      (store.copyIn (Tree.postorders subs))).children, fun x hx => ?_, ?_⟩
    · rcases List.mem_append.mp hx with hx | hx
      · exact hlost x hx
      · obtain ⟨sub, -, -, rfl⟩ := hslot x hx
        exact le_copyIn
    · rw [hmoved, hmoves, filter_moves_append]
  · rw [hnode, if_pos rfl]
  · have hiff : store.copyIn (Tree.postorders subs) x ∈
        ((store.kind id).mapChildren (store.copyIn (Tree.postorders subs))).children ↔
          x ∈ store.children id := by
      rw [Kind.children_mapChildren]
      exact copyIn_mem_iff hsubs
    rw [hnode, if_neg (Nat.ne_of_lt (hbelow x hx))]
    exact if_congr hiff rfl rfl

theorem Copied.copyIn_root {head : Head} {type : Option TypeDesc} (h : store.Copied middle subs)
    (hnodup : (Tree.node id head type subs).ids.Nodup) :
    store.copyIn (Tree.postorders [.node id head type subs]) id = middle.size := by
  have hid : id ∉ Tree.postorders subs :=
    fun hin => Tree.id_not_mem_slots hnodup ((Tree.postorders_perm subs).mem_iff.mp hin)
  rw [Tree.postorders_node, copyIn_append_of_not_mem h.size hid]
  simp [copyIn]

/-- Copying a node after the nodes below it. -/
theorem Copied.node {head : Head} {type : Option TypeDesc}
    (hlaid : (Tree.node id head type subs).Laid store.untyped)
    (hnodup : (Tree.node id head type subs).ids.Nodup) (h : store.Copied middle subs) :
    ∃ later, Build.create ((store.kind id).mapChildren (store.copyIn (Tree.postorders subs)))
        (store.node id).type middle = .ok (middle.size, later) ∧
      store.Copied later [.node id head type subs] := by
  obtain ⟨later, hrun, hsize, htypes, hrest, hmoves, hnew, hcopy⟩ := h.create hlaid hnodup
  refine ⟨later, hrun, ?_⟩
  have hslots : ∀ tree, tree ∈ subs → tree.Laid store.untyped := fun tree htree =>
    hlaid.sub htree
  have hsubs := children_subset_postorders hlaid
  have horder := Tree.postorders_node id head type subs
  have hself := @Copied.copyIn_root _ _ _ _ head type h hnodup
  have hold : ∀ {x}, x ∈ Tree.postorders subs →
      store.copyIn (Tree.postorders [Tree.node id head type subs]) x =
        store.copyIn (Tree.postorders subs) x := by
    intro x hx
    rw [horder, copyIn_append_of_mem hx]
  have hkind : ∀ {x}, x ∈ Tree.postorders subs ∨ x = id →
      (store.kind x).mapChildren (store.copyIn (Tree.postorders subs)) =
        (store.kind x).mapChildren
          (store.copyIn (Tree.postorders [Tree.node id head type subs])) := by
    rintro x hx
    refine Kind.mapChildren_congr (fun child hchild => (hold ?_).symm)
    rcases hx with hx | rfl
    · exact mem_postorders_of_slot hslots hx hchild
    · exact hsubs hchild
  have hcases : ∀ {x}, x ∈ Tree.postorders [Tree.node id head type subs] →
      x ∈ Tree.postorders subs ∨ x = id := by
    intro x hx
    simpa [horder] using hx
  exact {
    size := by
      rw [hsize, h.size, horder, List.length_append, Nat.add_assoc]
      rfl
    types := htypes
    old := hrest
    moves := hmoves
    kind := by
      intro x hx
      rcases hcases hx with hx | rfl
      · rw [hold hx, ← hkind (.inl hx), ← h.kind x hx, Store.kind, hcopy x hx]
        split <;> rfl
      · rw [hself, Store.kind, hnew]
        exact hkind (.inr rfl)
    type := by
      intro x hx
      rcases hcases hx with hx | rfl
      · rw [hold hx, ← h.type x hx, hcopy x hx]
        split <;> rfl
      · rw [hself, hnew]
    live := by
      intro x hx
      rcases hcases hx with hx | rfl
      · rw [hold hx, ← h.live x hx, isErased, hcopy x hx]
        split <;> rfl
      · rw [hself, isErased, hnew]
    roots := by
      intro tree htree
      rw [List.mem_singleton] at htree
      subst htree
      rw [Tree.id_node, hself, Store.parent, hnew]
    links := by
      intro x hx child hchild
      rcases hcases hx with hx | rfl
      · have hin := mem_postorders_of_slot hslots hx hchild
        have hout := not_slot_below hlaid (Tree.nodup_slots hnodup) hx hchild
        rw [hold hx, hold hin, Store.parent, hcopy _ hin, if_neg hout]
        exact h.links x hx child hchild
      · rw [hself, hold (hsubs hchild), Store.parent, hcopy _ (hsubs hchild), if_pos hchild] }

/-- The nodes that were copied are as they were. -/
theorem Copied.laid (h : store.Copied later trees) (hlaid : tree.Laid store.untyped) :
    tree.Laid later.untyped := by
  have hsame : ∀ id, id ∈ tree.ids → later.untyped.node id = store.untyped.node id := by
    intro id hid
    rw [node_untyped, node_untyped, h.old id (size_untyped store ▸ hlaid.lt hid)]
  refine hlaid.mono ⟨?_, fun number desc hdesc => ?_⟩ (fun id hid => ?_)
  · rw [size_untyped, size_untyped, h.size]
    exact Nat.le_add_right ..
  · exact h.types ▸ hdesc
  · rw [Store.kind, hsame id hid]
    exact ⟨rfl, rfl⟩

end Store

/-! ## Copying a tree -/

namespace Build

variable {store : Store} {tree : Tree} {trees : List Tree}

/-- Trees are copied one after the other if each of them can be copied. -/
theorem mapM_copies {steps : Nat} (hcopy : ∀ tree, tree ∈ trees → ∀ store : Store,
      tree.Laid store.untyped → ∃ later, copySteps steps tree.id store =
        .ok (store.copyIn (Tree.postorders [tree]) tree.id, later) ∧ store.Copied later [tree])
    (hlaid : ∀ tree, tree ∈ trees → tree.Laid store.untyped)
    (hnodup : (Tree.postorders trees).Nodup) :
    ∃ later, (trees.map Tree.id).mapM (copySteps steps) store =
        .ok (trees.map (fun tree => store.copyIn (Tree.postorders trees) tree.id), later) ∧
      store.Copied later trees := by
  induction trees generalizing store with
  | nil => exact ⟨store, rfl, .refl store⟩
  | cons tree rest ih =>
      obtain ⟨middle, hrun, hfirst⟩ := hcopy tree (List.mem_cons_self ..) store
        (hlaid tree (List.mem_cons_self ..))
      have hsplit : Tree.postorders (tree :: rest) =
          Tree.postorders [tree] ++ Tree.postorders rest := by
        simp [Tree.postorders]
      have happart := hsplit ▸ hnodup
      rw [List.nodup_append'] at happart
      obtain ⟨later, hruns, hrest⟩ := ih
        (fun other hother => hcopy other (List.mem_cons_of_mem _ hother))
        (fun other hother => hfirst.laid (hlaid other (List.mem_cons_of_mem _ hother)))
        happart.2.1
      have happend : store.Copied later ([tree] ++ rest) := .append hlaid hnodup hfirst hrest
      refine ⟨later, ?_, happend⟩
      have hroot : tree.id ∈ Tree.postorders [tree] :=
        Store.id_mem_postorders (List.mem_singleton_self tree)
      have hroots : rest.map (fun other => store.copyIn (Tree.postorders (tree :: rest)) other.id) =
          rest.map (fun other => middle.copyIn (Tree.postorders rest) other.id) := by
        refine List.map_congr_left (fun other hother => ?_)
        rw [hsplit, Store.copyIn_append_of_not_mem hfirst.size
          (fun hfirst => happart.2.2 hfirst (Store.id_mem_postorders hother))]
      rw [List.map_cons, List.mapM_cons, bind_ok hrun, bind_ok hruns, List.map_cons, hroots,
        hsplit, Store.copyIn_append_of_mem hroot]
      rfl

theorem run_copySteps {steps : Nat} (hsteps : tree.height ≤ steps)
    (hlaid : tree.Laid store.untyped) (hnodup : tree.ids.Nodup) :
    ∃ later, copySteps steps tree.id store =
        .ok (store.copyIn (Tree.postorders [tree]) tree.id, later) ∧
      store.Copied later [tree] := by
  induction tree generalizing steps store with
  | node id head type subs ih =>
      have hpos := Tree.height_pos (.node id head type subs)
      obtain ⟨steps, rfl⟩ : ∃ rest, steps = rest + 1 := ⟨steps - 1, by omega⟩
      have hslots := Tree.nodup_slots hnodup
      obtain ⟨middle, hruns, hsubs⟩ := @mapM_copies store subs steps
        (fun sub hsub other hsub' => by
          have hlt := Tree.height_slot_lt id head type hsub
          exact ih sub hsub (by omega) hsub' ((List.nodup_flatMap.mp hslots).1 sub hsub))
        (fun sub hsub => hlaid.sub hsub)
        ((Tree.postorders_perm subs).nodup_iff.mpr hslots)
      obtain ⟨later, hrun, hcopied⟩ := hsubs.node hlaid hnodup
      refine ⟨later, ?_, hcopied⟩
      have hchildren : (store.node id).kind.children = subs.map Tree.id :=
        Store.children_of_laid hlaid
      have hkind : (store.node id).kind.mapChildrenM (copySteps steps) store =
          .ok ((store.kind id).mapChildren (store.copyIn (Tree.postorders subs)), middle) := by
        rw [Kind.mapChildrenM, hchildren, bind_ok hruns, Kind.mapChildren,
          show (store.kind id).children = _ from hchildren, List.map_map]
        rfl
      have hlt : id < store.size := Store.size_untyped store ▸ hlaid.shown_by.lt
      rw [Tree.id_node, hsubs.copyIn_root hnodup, copySteps, bind_ok (run_lookup hlt),
        bind_ok hkind, hrun]

end Build

/-! ## What a copy leaves -/

namespace Store

variable {store later : Store} {tree : Tree}

abbrev copyOf (store : Store) (tree : Tree) : NodeId → NodeId :=
  store.copyIn tree.postorder

structure Duplicated (store later : Store) (tree : Tree) : Prop where
  size : later.size = store.size + tree.ids.length
  types : later.types = store.types
  /-- The new numbers are handed out in post-order, children in source order. -/
  numbers : tree.postorder.map (store.copyOf tree) = List.range' store.size tree.ids.length
  /-- Copies are what the originals are, with copies in their slots. -/
  kind : ∀ id, id ∈ tree.ids →
    later.kind (store.copyOf tree id) = (store.kind id).mapChildren (store.copyOf tree)
  type : ∀ id, id ∈ tree.ids →
    (later.node (store.copyOf tree id)).type = (store.node id).type
  subtree : later.preorder (store.copyOf tree tree.id) = tree.ids.map (store.copyOf tree)
  root : later.parent (store.copyOf tree tree.id) = none
  links : ∀ id, id ∈ tree.ids → ∀ child, child ∈ store.children id →
    later.parent (store.copyOf tree child) = some (store.copyOf tree id)
  live : ∀ id, id ∈ tree.ids → later.isErased (store.copyOf tree id) = false
  /-- No node changes, nor a move of a node. -/
  old : ∀ id, id < store.size → later.node id = store.node id
  claims : ∀ id, id < store.size → later.claim? id = store.claim? id
  /-- The premise is that every pending move names a node of the store, as moves that were
  taken there do. -/
  moves : (∀ move, move ∈ store.moves → move.node < store.size) →
    later.moves = store.moves
  text : store.HasExpressions tree.id → later.text (store.copyOf tree tree.id) = store.text tree.id

theorem copyOf_eq (store : Store) (tree : Tree) :
    store.copyOf tree = store.copyIn (Tree.postorders [tree]) := by
  simp [copyOf, Tree.postorders]

theorem map_copyOf (hnodup : tree.ids.Nodup) :
    tree.postorder.map (store.copyOf tree) = List.range' store.size tree.ids.length := by
  have hnodup' : tree.postorder.Nodup := tree.postorder_perm.nodup_iff.mpr hnodup
  refine List.ext_getElem (by simp [Tree.length_postorder]) (fun place h _ => ?_)
  have hlt : place < tree.postorder.length := by simpa using h
  have hplace : tree.postorder.idxOf tree.postorder[place] = place :=
    hnodup'.idxOf_getElem place _
  simp only [List.getElem_map, List.getElem_range', copyIn, hplace, Nat.one_mul]

theorem isBounded_of_laid (hlaid : tree.Laid store.untyped) (hnodup : tree.ids.Nodup) :
    store.IsBounded tree.id := by
  have hheight := hlaid.height_le hnodup
  rw [size_untyped] at hheight
  exact (grounded_of_laid hlaid hheight).of_untyped

theorem preorder_of_laid (hlaid : tree.Laid store.untyped) (hbounded : store.IsBounded tree.id) :
    store.preorder tree.id = tree.ids := by
  induction tree with
  | node id head type subs ih =>
      have hchildren := children_of_laid hlaid
      rw [hbounded.preorder_eq, hchildren, Tree.id_node, Tree.ids_node, List.flatMap_map]
      congr 1
      refine List.flatMap_congr (fun sub hsub => ih sub hsub (hlaid.sub hsub) ?_)
      exact hbounded.slot (hchildren ▸ List.mem_map_of_mem hsub)

theorem Copied.renumbered (h : store.Copied later [tree]) (hlaid : tree.Laid store.untyped)
    (hnodup : tree.ids.Nodup) : store.Renumbered later (store.copyOf tree) tree.id := by
  have hin : ∀ {id}, id ∈ store.preorder tree.id → id ∈ Tree.postorders [tree] := by
    intro id hid
    rw [preorder_of_laid hlaid (isBounded_of_laid hlaid hnodup)] at hid
    simpa [Tree.postorders, Tree.mem_postorder] using hid
  rw [copyOf_eq]
  refine ⟨h.size ▸ Nat.le_add_right .., fun id hid => ?_, fun id hid => h.kind id (hin hid),
    fun id hid => ?_⟩
  · rw [h.size]
    exact copyIn_lt (hin hid)
  · rw [typeOf, typeOf, h.type id (hin hid), h.types]

theorem Copied.claim?_eq (h : store.Copied later [tree]) {id : NodeId} (hid : id < store.size) :
    later.claim? id = store.claim? id := by
  obtain ⟨lost, hlost, hmoves⟩ := h.moves
  rw [claim?, claim?, hmoves, List.find?_filter]
  congr 1
  congr 1
  funext move
  by_cases he : move.node = id
  · have hkept : id ∉ lost := fun hin => absurd hid (Nat.not_lt.mpr (hlost id hin))
    simp [he, hkept]
  · simp [he]

theorem Copied.duplicated (h : store.Copied later [tree]) (hlaid : tree.Laid store.untyped)
    (hnodup : tree.ids.Nodup) : store.Duplicated later tree := by
  have hbounded := isBounded_of_laid hlaid hnodup
  have hrenumbered := h.renumbered hlaid hnodup
  have horder : Tree.postorders [tree] = tree.postorder := by simp [Tree.postorders]
  have hin : ∀ {id}, id ∈ tree.ids → id ∈ Tree.postorders [tree] := by
    intro id hid
    rwa [horder, Tree.mem_postorder]
  refine
    { size := ?_, types := h.types, numbers := map_copyOf hnodup, kind := ?_, type := ?_
      subtree := ?_, root := ?_, links := ?_, live := ?_, old := h.old
      claims := fun id hid => h.claim?_eq hid, moves := ?_
      text := text_renumbered hbounded hrenumbered }
  · rw [h.size, horder, Tree.length_postorder]
  · intro id hid
    rw [copyOf_eq]
    exact h.kind id (hin hid)
  · intro id hid
    rw [copyOf_eq]
    exact h.type id (hin hid)
  · rw [hrenumbered.preorder hbounded, preorder_of_laid hlaid hbounded]
  · rw [copyOf_eq]
    exact h.roots tree (List.mem_singleton_self tree)
  · intro id hid
    rw [copyOf_eq]
    exact h.links id (hin hid)
  · intro id hid
    rw [copyOf_eq]
    exact h.live id (hin hid)
  · intro hmoves
    obtain ⟨lost, hlost, hfilter⟩ := h.moves
    rw [hfilter, List.filter_eq_self]
    intro move hmove
    have hlt := hmoves move hmove
    exact decide_eq_true (fun hin => absurd hlt (Nat.not_lt.mpr (hlost _ hin)))

end Store

/-- Copying a tree succeeds.  The copy is a tree without a holder that looks like the original
and has the next free numbers, and nothing that was there before changes. -/
theorem Build.deepCopy_duplicates {store : Store} {tree : Tree} (h : tree.Laid store.untyped)
    (hnodup : tree.ids.Nodup) :
    ∃ later, Build.deepCopy tree.id store = .ok (store.copyOf tree tree.id, later) ∧
      store.Duplicated later tree := by
  have hheight := h.height_le hnodup
  rw [Store.size_untyped] at hheight
  obtain ⟨later, hrun, hcopied⟩ := run_copySteps (Nat.le_succ_of_le hheight) h hnodup
  refine ⟨later, ?_, hcopied.duplicated h hnodup⟩
  rw [deepCopy, bind_ok (run_get store), hrun, Store.copyOf_eq]

/-- A conditional `if (true) { }` in a unit, whose block is to be moved. -/
def Store.conditional : Store where
  nodes := #[
    ⟨.unit [3], none, none, false⟩,
    ⟨.literal (.bool true), some 0, some 3, false⟩,
    ⟨.block [], none, some 3, false⟩,
    ⟨.ifStmt 1 2 none, none, some 0, false⟩]
  types := { types := #[.primitive "boolean"] }
  moves := [⟨2, none⟩]

theorem Build.deepCopy_duplicates_conditional :
    ∃ later, Build.deepCopy 3 Store.conditional = .ok (6, later) ∧ later.size = 7 ∧
      later.kind 6 = .ifStmt 4 5 none ∧ later.typeOf 4 = some (.primitive "boolean") ∧
      later.moves = [⟨2, none⟩] ∧ later.text 6 = Store.conditional.text 3 := by
  obtain ⟨later, hrun, hcopy⟩ := @Build.deepCopy_duplicates Store.conditional
    (.node 3 .ifStmt none [.node 1 (.literal (.bool true)) none [], .node 2 .block none []])
    (Store.laid_untyped (by decide) rfl rfl (by
      simp only [List.mem_cons, List.not_mem_nil, or_false, forall_eq_or_imp, forall_eq]
      exact ⟨Store.laid_untyped (by decide) rfl rfl (by simp),
        Store.laid_untyped (by decide) rfl rfl (by simp)⟩))
    (by decide)
  refine ⟨later, hrun, hcopy.size, hcopy.kind 3 (by decide), ?_, hcopy.moves (by decide),
    hcopy.text ?_⟩
  · have htype : (later.node 4).type = some 0 := hcopy.type 1 (by decide)
    rw [Store.typeOf, hcopy.types, htype]
    rfl
  · unfold Store.HasExpressions
    decide

end CodeTidy
