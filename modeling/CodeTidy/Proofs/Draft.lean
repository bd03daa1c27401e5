import CodeTidy.Proofs.Links

/-!
# Drafts

While a rule answers, the live tree stays as it is and new trees are drafted beside
it, out of new nodes and of subtrees taken from the live tree.  `Draft` describes
such a moment: the trees that are loose, which are all there is to place, have no
node in common, and will be held once the claims are settled.

Each primitive of `Build` has one lemma here that says which loose trees it uses up
and which it leaves.
-/

namespace CodeTidy

/-- A type that is in the table keeps its number when another is added. -/
theorem TypeTable.get?_intern_of_get? {table : TypeTable} {desc known : TypeDesc} {number : TypeId}
    (h : table.get? number = some known) : (table.intern desc).2.get? number = some known := by
  unfold TypeTable.intern
  split
  · exact h
  · have hlt : number < table.types.size := by
      by_contra hge
      rw [TypeTable.get?, Array.getElem?_eq_none (Nat.le_of_not_lt hge)] at h
      cases h
    simpa [TypeTable.get?, Array.getElem?_push, Nat.ne_of_lt hlt] using h

namespace Tree

variable {store later : Store} {tree : Tree} {owner holder : Option NodeId}

/-- A tree whose root was given another parent link. -/
theorem Held.relink (h : tree.Held store owner) (hgrows : store.Grows later)
    (hroot : later.node tree.id = { store.node tree.id with parent := holder })
    (hbelow : ∀ id, id ∈ tree.subs.flatMap ids → later.node id = store.node id) :
    tree.Held later holder := by
  cases h with
  | stop isStop _ _ => cases isStop
  | @node _ id head type subs _ shows link live slots =>
      have hslot : ∀ sub, sub ∈ subs → ∀ i, i ∈ sub.ids →
          later.node i = store.node i :=
        fun sub hsub i hi => hbelow i (List.mem_flatMap.mpr ⟨sub, hsub, hi⟩)
      have hnode : later.node id = { store.node id with parent := holder } := hroot
      refine .node (by simp) (shows.mono hgrows ?_ ?_) ?_ ?_ ?_
      · rw [Store.kind, hnode]; rfl
      · rw [hnode]
      · rw [Store.parent, hnode]
      · intro sub hsub
        rw [Store.isErased, hslot sub hsub sub.id sub.id_mem_ids]
        exact live sub hsub
      · intro sub hsub
        apply (slots sub hsub).mono hgrows
        intro i hi
        exact hslot sub hsub i (shown_subset_ids _ _ hi)

theorem Held.laid_of_settle (h : tree.Held store.settle owner)
    (hnodup : (store.moves.map Move.node).Nodup)
    (hlt : ∀ move, move ∈ store.moves → move.node < store.size) : tree.Laid store := by
  refine h.laid.mono ⟨by simp, by simp⟩ ?_
  intro id _
  rw [Store.kind, Store.kind, Store.node_settle hnodup hlt]
  exact ⟨rfl, rfl⟩

end Tree

/-- The loose trees at a moment of building.  `base` is the store at the start, and
`region` names the nodes of the live tree that may be taken. -/
structure Draft (base : Store) (region : List NodeId) (store : Store) (trees : List Tree) :
    Prop where
  grows : base.Grows store
  /-- The live tree is untouched. -/
  old : ∀ id, id < base.size → store.node id = base.node id
  typed : store.TypesKnown
  once : (store.moves.map Move.node).Nodup
  /-- Only nodes of the live tree are moved; an unclaimed one is a loose tree, and a
  claimed one is inside a loose tree, held by a new node. -/
  moving : ∀ move, move ∈ store.moves → move.node < base.size ∧
    move.node ∈ trees.flatMap Tree.ids ∧
    (move.claim = none → move.node ∈ trees.map Tree.id) ∧
    ∀ holder, move.claim = some holder → base.size ≤ holder
  held : ∀ tree, tree ∈ trees → tree.Held store.settle (store.link tree.id)
  loose : ∀ tree, tree ∈ trees → store.isErased tree.id = false ∧
    store.IsLoose tree.id ∧ (store.claim? tree.id = none → base.size ≤ tree.id)
  apart : (trees.flatMap Tree.ids).Nodup
  origin : ∀ id, id ∈ trees.flatMap Tree.ids → base.size ≤ id ∨ id ∈ region

namespace Draft

variable {base store : Store} {region : List NodeId} {tree : Tree} {trees rest : List Tree}

theorem moved_lt (h : Draft base region store trees) {move : Move} (hmove : move ∈ store.moves) :
    move.node < store.size :=
  Nat.lt_of_lt_of_le (h.moving move hmove).1 h.grows.size

theorem node_settle (h : Draft base region store trees) (id : NodeId) :
    store.settle.node id = { store.node id with parent := store.link id } :=
  Store.node_settle h.once (fun _ hmove => h.moved_lt hmove) id

theorem laid (h : Draft base region store trees) {tree : Tree} (hmem : tree ∈ trees) :
    tree.Laid store :=
  (h.held tree hmem).laid_of_settle h.once (fun _ hmove => h.moved_lt hmove)

theorem nodup_ids (h : Draft base region store trees) {tree : Tree} (hmem : tree ∈ trees) :
    tree.ids.Nodup :=
  (List.nodup_flatMap.mp h.apart).1 tree hmem

theorem height_le (h : Draft base region store trees) {tree : Tree} (hmem : tree ∈ trees) :
    tree.height ≤ store.size :=
  (h.laid hmem).height_le (h.nodup_ids hmem)

theorem lt (h : Draft base region store trees) {tree : Tree} (hmem : tree ∈ trees) :
    tree.id < store.size :=
  (h.laid hmem).lt tree.id_mem_ids

theorem laid_old (h : Draft base region store trees) {tree : Tree} (hlaid : tree.Laid base) :
    tree.Laid store := by
  refine hlaid.mono h.grows ?_
  intro id hid
  have hsame := h.old id (hlaid.lt hid)
  rw [Store.kind, Store.kind, hsame]
  exact ⟨rfl, rfl⟩

/-- The order of the loose trees does not matter. -/
theorem perm (h : Draft base region store trees) {others : List Tree}
    (hperm : trees.Perm others) : Draft base region store others where
  grows := h.grows
  old := h.old
  typed := h.typed
  once := h.once
  moving move hmove := by
    obtain ⟨hlt, hin, hloose, hclaim⟩ := h.moving move hmove
    refine ⟨hlt, (hperm.flatMap_right _).mem_iff.mp hin, ?_, hclaim⟩
    exact fun hnone => (hperm.map _).mem_iff.mp (hloose hnone)
  held tree hmem := h.held tree (hperm.mem_iff.mpr hmem)
  loose tree hmem := h.loose tree (hperm.mem_iff.mpr hmem)
  apart := (hperm.flatMap_right _).nodup_iff.mp h.apart
  origin id hid := h.origin id ((hperm.flatMap_right _).mem_iff.mpr hid)

theorem start (hmoves : base.moves = []) (hknown : base.TypesKnown) :
    Draft base region base [] where
  grows := .refl base
  old _ _ := rfl
  typed := hknown
  once := by simp [hmoves]
  moving move hmove := by simp [hmoves] at hmove
  held tree hmem := by cases hmem
  loose tree hmem := by cases hmem
  apart := by simp
  origin id hid := by simp at hid

theorem claim?_eq_none (h : Draft base region store trees) {id : NodeId}
    (hid : id ∉ trees.flatMap Tree.ids) : store.claim? id = none := by
  rw [Store.claim?_eq_none_iff]
  intro move hmove he
  exact hid (he ▸ (h.moving move hmove).2.1)

/-! ## Taking and giving up -/

/-- A request for a node outside the loose trees moves it once. -/
theorem once_requestMove (h : Draft base region store trees) {id : NodeId}
    (hclaim : store.claim? id = none) :
    ((store.requestMove id).moves.map Move.node).Nodup := by
  simp only [Store.requestMove, List.map_cons, List.nodup_cons]
  refine ⟨?_, h.once⟩
  intro hmem
  obtain ⟨move, hmove, he⟩ := List.mem_map.mp hmem
  exact Store.claim?_eq_none_iff.mp hclaim move hmove he

/-- A request for a node of the live tree leaves what the claims settle to. -/
theorem settle_requestMove (h : Draft base region store trees) {id : NodeId}
    (hclaim : store.claim? id = none) (hlt : id < base.size) (other : NodeId) :
    (store.requestMove id).settle.node other = store.settle.node other := by
  have hmoved : ∀ move, move ∈ (store.requestMove id).moves →
      move.node < (store.requestMove id).size := by
    intro move hmove
    rcases List.mem_cons.mp hmove with rfl | hmove
    · exact Nat.lt_of_lt_of_le hlt h.grows.size
    · exact h.moved_lt hmove
  rw [Store.node_settle (h.once_requestMove hclaim) hmoved, h.node_settle,
    Store.link_requestMove hclaim]
  rfl

/-- Where no node is on the move, settling changes nothing of the live tree. -/
theorem settle_old (h : Draft base region store trees) {id : NodeId} (hlt : id < base.size)
    (hclaim : store.claim? id = none) : store.settle.node id = base.node id := by
  rw [h.node_settle, Store.link_of_unclaimed (.inl hclaim), Store.parent, h.old id hlt]

/-- Taking a subtree of the live tree makes it loose. -/
theorem take (h : Draft base region store trees) {tree : Tree} {owner : NodeId}
    (hheld : tree.Held base (some owner)) (hlive : base.isErased tree.id = false)
    (hnodup : tree.ids.Nodup) (hregion : tree.ids ⊆ region)
    (hapart : List.Disjoint tree.ids (trees.flatMap Tree.ids)) :
    ∃ later, Build.take tree.id store = .ok (.moved tree.id, later) ∧
      Draft base region later (tree :: trees) := by
  have hlt : ∀ id, id ∈ tree.ids → id < base.size := fun id hid => hheld.laid.lt hid
  have hunclaimed : ∀ id, id ∈ tree.ids → store.claim? id = none :=
    fun id hid => h.claim?_eq_none (fun hin => hapart hid hin)
  have hclaim := hunclaimed _ tree.id_mem_ids
  have hroot := h.old _ (hlt _ tree.id_mem_ids)
  have hparent : store.parent tree.id = some owner := by
    rw [Store.parent, hroot]
    exact hheld.link
  have hsettle := h.settle_requestMove hclaim (hlt _ tree.id_mem_ids)
  have hmoving : store.isMoving tree.id = false := by
    rw [← Store.claim?_isSome, hclaim]
    rfl
  have hgrows : base.Grows (store.requestMove tree.id) := ⟨h.grows.size, h.grows.types⟩
  refine ⟨store.requestMove tree.id, ?run, ?draft⟩
  case run => rw [Build.run_take, if_neg (by simp [hmoving])]
  case draft =>
    exact {
      grows := hgrows
      old := h.old
      typed := h.typed
      once := h.once_requestMove hclaim
      moving := by
        intro move hmove
        rw [List.flatMap_cons]
        rcases List.mem_cons.mp hmove with rfl | hmove
        · exact ⟨hlt _ tree.id_mem_ids, List.mem_append_left _ tree.id_mem_ids, by simp, by simp⟩
        · obtain ⟨hbase, hin, hloose, hholder⟩ := h.moving move hmove
          exact ⟨hbase, List.mem_append_right _ hin,
            fun hnone => List.mem_cons_of_mem _ (hloose hnone), hholder⟩
      held := by
        intro other hother
        rw [Store.link_requestMove hclaim]
        rcases List.mem_cons.mp hother with rfl | hother
        · rw [Store.link_of_unclaimed (.inl hclaim), hparent]
          refine hheld.mono (hgrows.trans (Store.grows_settle _)) ?_
          intro id hid
          have hin := Tree.shown_subset_ids _ _ hid
          rw [hsettle, h.settle_old (hlt id hin) (hunclaimed id hin)]
        · exact (h.held other hother).mono
            (Store.Grows.settle ⟨Nat.le_refl store.size, fun _ _ hknown => hknown⟩)
            (fun id _ => hsettle id)
      loose := by
        intro other hother
        unfold Store.IsLoose
        rw [Store.claim?_requestMove]
        rcases List.mem_cons.mp hother with rfl | hother
        · rw [if_pos rfl]
          refine ⟨?_, .inl ⟨rfl, ?_⟩, fun hnone => by cases hnone⟩
          · show (store.node other.id).erased = false
            rw [hroot]
            exact hlive
          · show (store.parent other.id).isSome
            rw [hparent]
            rfl
        · have hne : other.id ≠ tree.id := by
            intro he
            exact hapart (he ▸ tree.id_mem_ids)
              (List.mem_flatMap.mpr ⟨other, hother, other.id_mem_ids⟩)
          rw [if_neg hne]
          exact h.loose other hother
      apart := by
        rw [List.flatMap_cons, List.nodup_append']
        exact ⟨hnodup, h.apart, hapart⟩
      origin := by
        intro id hid
        rw [List.flatMap_cons] at hid
        rcases List.mem_append.mp hid with hin | hin
        · exact .inr (hregion hin)
        · exact h.origin id hin }

/-- A claimed node has a new holder, so it is not inside a loose tree of live nodes. -/
theorem not_mem_of_moving (h : Draft base region store (tree :: trees))
    (hlt : ∀ id, id ∈ tree.ids → id < base.size) {move : Move} (hmove : move ∈ store.moves)
    (hne : move.node ≠ tree.id) : move.node ∉ tree.ids := by
  intro hin
  obtain ⟨_, _, hroot, hholder⟩ := h.moving move hmove
  cases hclaim : move.claim with
  | none =>
      obtain ⟨other, hother, he⟩ := List.mem_map.mp (hroot hclaim)
      have hsame := Tree.eq_of_common_id h.apart hother (by simp) (he ▸ other.id_mem_ids) hin
      exact hne (hsame ▸ he.symm)
  | some holder =>
      have hlinked : store.settle.parent move.node = some holder := by
        rw [Store.parent, h.node_settle]
        exact Store.link_of_claimed (hclaim ▸ Store.claim?_eq_some h.once hmove)
      have habove := (h.held tree (by simp)).parent_mem_ids hin hne hlinked
      exact Nat.not_lt.mpr (hholder holder hclaim) (hlt holder habove)

/-- Giving up a subtree of the live tree that was taken and not claimed. -/
theorem release (h : Draft base region store (tree :: trees)) {owner : Option NodeId}
    (hold : tree.Held base owner) :
    Draft base region (store.forgetMove tree.id) trees := by
  have hapart := h.apart
  rw [List.flatMap_cons, List.nodup_append'] at hapart
  obtain ⟨_, hrest, hdisjoint⟩ := hapart
  have honce : ((store.forgetMove tree.id).moves.map Move.node).Nodup :=
    h.once.sublist (List.filter_sublist.map _)
  have hne : ∀ other, other ∈ trees → ∀ id, id ∈ other.ids → id ≠ tree.id := by
    intro other hother id hid he
    exact hdisjoint (he ▸ tree.id_mem_ids) (List.mem_flatMap.mpr ⟨other, hother, hid⟩)
  refine ⟨⟨h.grows.size, h.grows.types⟩, h.old, h.typed, honce, ?_, ?_, ?_, hrest, ?_⟩
  · intro move hmove
    obtain ⟨hmove, hother⟩ := Store.mem_moves_forgetMove.mp hmove
    obtain ⟨hbase, hin, hroot, hholder⟩ := h.moving move hmove
    refine ⟨hbase, ?_, fun hnone => (List.mem_cons.mp (hroot hnone)).resolve_left hother, hholder⟩
    rw [List.flatMap_cons] at hin
    exact (List.mem_append.mp hin).resolve_left
      (h.not_mem_of_moving (fun id hid => hold.laid.lt hid) hmove hother)
  · intro other hother
    rw [Store.link_forgetMove_of_ne (hne other hother _ other.id_mem_ids)]
    refine (h.held other (List.mem_cons_of_mem _ hother)).mono
      (Store.Grows.settle ⟨Nat.le_refl store.size, fun _ _ hknown => hknown⟩) ?_
    intro id hid
    rw [h.node_settle, Store.node_settle honce
      (fun move hmove => h.moved_lt (Store.mem_moves_forgetMove.mp hmove).1),
      Store.link_forgetMove_of_ne (hne other hother id (Tree.shown_subset_ids _ _ hid))]
    rfl
  · intro other hother
    unfold Store.IsLoose
    rw [Store.claim?_forgetMove_of_ne (hne other hother _ other.id_mem_ids)]
    exact h.loose other (List.mem_cons_of_mem _ hother)
  · intro id hid
    exact h.origin id (by rw [List.flatMap_cons]; exact List.mem_append_right _ hid)

/-! ## Creating -/

/-- Adding types to the table changes no tree. -/
theorem intern (h : Draft base region store trees) (desc : TypeDesc) :
    ∃ number later, Build.internType desc store = .ok (number, later) ∧
      later.types.get? number = some desc ∧ Draft base region later trees := by
  have hgrows : store.Grows { store with types := (store.types.intern desc).2 } := by
    refine ⟨Nat.le_refl store.size, ?_⟩
    intro number known hknown
    exact TypeTable.get?_intern_of_get? hknown
  refine ⟨(store.types.intern desc).1, { store with types := (store.types.intern desc).2 },
    rfl, store.types.get?_intern desc, ?_⟩
  refine ⟨h.grows.trans hgrows, h.old, ?_, h.once, h.moving, ?_, h.loose, h.apart, h.origin⟩
  · intro id number hnumber
    obtain ⟨known, hknown⟩ := h.typed id number hnumber
    exact ⟨known, hgrows.types number known hknown⟩
  · intro tree hmem
    refine (h.held tree hmem).mono hgrows.settle ?_
    intro id _
    rw [h.node_settle]
    exact @Store.node_settle { store with types := (store.types.intern desc).2 } h.once
      (fun move hmove => h.moved_lt hmove) id

section Create

variable {subs : List Tree} {kind : Kind} {number : Option TypeId} {type : Option TypeDesc}
  {later : Store} {id : NodeId}

theorem ne_size (h : Draft base region store trees) (hmem : tree ∈ trees) (hid : id ∈ tree.ids) :
    id ≠ store.size :=
  Nat.ne_of_lt ((h.laid hmem).lt hid)

theorem eq_id_of_mem_children (h : Draft base region store (subs ++ trees))
    (hkind : kind.children = subs.map Tree.id) (hmem : tree ∈ subs ++ trees) (hid : id ∈ tree.ids)
    (hchild : id ∈ kind.children) : tree ∈ subs ∧ id = tree.id := by
  rw [hkind] at hchild
  obtain ⟨sub, hsub, rfl⟩ := List.mem_map.mp hchild
  have he := Tree.eq_of_common_id h.apart hmem (List.mem_append_left _ hsub) hid sub.id_mem_ids
  exact ⟨he ▸ hsub, he ▸ rfl⟩

theorem not_mem_children (h : Draft base region store (subs ++ trees))
    (hkind : kind.children = subs.map Tree.id) (hmem : tree ∈ trees) (hid : id ∈ tree.ids) :
    id ∉ kind.children := by
  intro hchild
  have hsub := (h.eq_id_of_mem_children hkind (List.mem_append_right _ hmem) hid hchild).1
  have hapart := h.apart
  rw [List.flatMap_append, List.nodup_append'] at hapart
  exact hapart.2.2 (List.mem_flatMap.mpr ⟨tree, hsub, hid⟩) (List.mem_flatMap.mpr ⟨tree, hmem, hid⟩)

/-- A node can be created around the first of the loose trees. -/
theorem exists_created (h : Draft base region store (subs ++ trees))
    (hkind : kind.children = subs.map Tree.id) :
    ∃ later, Build.create kind number store = .ok (store.size, later) ∧
      store.Created kind number later := by
  have hsub : ∀ child, child ∈ kind.children → ∃ sub ∈ subs ++ trees, sub.id = child := by
    intro child hchild
    rw [hkind] at hchild
    obtain ⟨sub, hmem, he⟩ := List.mem_map.mp hchild
    exact ⟨sub, List.mem_append_left _ hmem, he⟩
  have hapart := h.apart
  rw [List.flatMap_append, List.nodup_append'] at hapart
  refine Build.create_loose (hkind ▸ Tree.nodup_map_id hapart.1) ?_ ?_ ?_
  all_goals
    intro child hchild
    obtain ⟨sub, hmem, rfl⟩ := hsub child hchild
  · exact h.lt hmem
  · exact (h.loose sub hmem).1
  · exact (h.loose sub hmem).2.1

theorem settle_created (h : Draft base region store trees)
    (hcreated : store.Created kind number later) (id : NodeId) :
    later.settle.node id = { later.node id with parent := later.link id } := by
  refine Store.node_settle (hcreated.moved_nodes ▸ h.once) ?_ id
  intro move hmove
  have hin : move.node ∈ store.moves.map Move.node :=
    hcreated.moved_nodes ▸ List.mem_map_of_mem hmove
  obtain ⟨before, hbefore, he⟩ := List.mem_map.mp hin
  exact he ▸ Nat.lt_of_lt_of_le (h.moved_lt hbefore) hcreated.grows.size

theorem settle_created_of_not_mem (h : Draft base region store trees)
    (hcreated : store.Created kind number later) (hid : id ≠ store.size)
    (hout : id ∉ kind.children) : later.settle.node id = store.settle.node id := by
  rw [h.settle_created hcreated, h.node_settle, hcreated.node_of_not_mem hid hout,
    hcreated.link_of_not_mem hid hout]

theorem held_slot (h : Draft base region store (subs ++ trees))
    (hkind : kind.children = subs.map Tree.id) (hcreated : store.Created kind number later)
    (hmem : tree ∈ subs) : tree.Held later.settle (some store.size) := by
  have hall : tree ∈ subs ++ trees := List.mem_append_left _ hmem
  have hchild : tree.id ∈ kind.children := hkind ▸ List.mem_map_of_mem hmem
  apply (h.held tree hall).relink hcreated.grows.settle
  · obtain ⟨link, hnode⟩ := hcreated.exists_node (h.ne_size hall tree.id_mem_ids)
    rw [h.settle_created hcreated, h.node_settle, hnode, hcreated.link_of_mem hchild]
  · intro id hid
    have hin : id ∈ tree.ids := Tree.slots_subset_ids _ hid
    apply h.settle_created_of_not_mem hcreated (h.ne_size hall hin)
    intro hc
    exact Tree.id_not_mem_slots (h.nodup_ids hall)
      ((h.eq_id_of_mem_children hkind hall hin hc).2 ▸ hid)

theorem held_new (h : Draft base region store (subs ++ trees))
    (hkind : kind.children = subs.map Tree.id)
    (htype : number.map store.types.get? = type.map some)
    (hcreated : store.Created kind number later) :
    (Tree.node store.size kind.head type subs).Held later.settle (later.link store.size) := by
  have hnew : later.settle.node store.size =
      { kind := kind, type := number, parent := later.link store.size } := by
    rw [h.settle_created hcreated, hcreated.node_new]
  refine .node (by simp) ⟨?_, ?_, ?_, ?_⟩ ?_ ?_ (fun sub hsub => h.held_slot hkind hcreated hsub)
  · rw [Store.size_settle, hcreated.size]
    exact Nat.lt_succ_self _
  · rw [Store.kind, hnew]
  · rw [Store.children, Store.kind, hnew, hkind]
  · rw [hnew, Store.types_settle, hcreated.types]
    exact htype
  · rw [Store.parent, hnew]
  · intro sub hsub
    have hall : sub ∈ subs ++ trees := List.mem_append_left _ hsub
    obtain ⟨link, hnode⟩ := hcreated.exists_node (h.ne_size hall sub.id_mem_ids)
    rw [Store.isErased, h.settle_created hcreated, hnode]
    exact (h.loose sub hall).1

theorem held_rest (h : Draft base region store (subs ++ trees))
    (hkind : kind.children = subs.map Tree.id) (hcreated : store.Created kind number later)
    (hmem : tree ∈ trees) : tree.Held later.settle (later.link tree.id) := by
  have hall : tree ∈ subs ++ trees := List.mem_append_right _ hmem
  rw [hcreated.link_of_not_mem (h.ne_size hall tree.id_mem_ids)
    (h.not_mem_children hkind hmem tree.id_mem_ids)]
  apply (h.held tree hall).mono hcreated.grows.settle
  intro id hid
  have hin := Tree.shown_subset_ids _ _ hid
  exact h.settle_created_of_not_mem hcreated (h.ne_size hall hin)
    (h.not_mem_children hkind hmem hin)

/-- Creating a node changes no node of the live tree: one in a slot is on the move. -/
theorem old_created (h : Draft base region store (subs ++ trees))
    (hkind : kind.children = subs.map Tree.id) (hcreated : store.Created kind number later)
    (hid : id < base.size) : later.node id = base.node id := by
  have hlt := Nat.lt_of_lt_of_le hid h.grows.size
  rw [hcreated.adopted.node, Build.claim?_pushed, Build.node_pushed, if_neg (Nat.ne_of_lt hlt),
    if_neg, h.old id hid]
  rintro ⟨hmem, hnone⟩
  rw [hkind] at hmem
  obtain ⟨sub, hsub, rfl⟩ := List.mem_map.mp hmem
  exact Nat.not_lt.mpr ((h.loose sub (List.mem_append_left _ hsub)).2.2 hnone) hid

theorem typed_created (h : Draft base region store trees)
    (htype : number.map store.types.get? = type.map some)
    (hcreated : store.Created kind number later) : later.TypesKnown := by
  intro id known hknown
  rw [hcreated.types]
  by_cases hid : id = store.size
  · rw [hid, hcreated.node_new] at hknown
    have hnumber : number = some known := hknown
    rw [hnumber] at htype
    cases type with
    | none => cases htype
    | some desc => exact ⟨desc, by simpa using htype⟩
  · obtain ⟨link, hnode⟩ := hcreated.exists_node hid
    rw [hnode] at hknown
    exact h.typed id known hknown

end Create

/-- A new node uses up the loose trees in its slots and is loose itself. -/
theorem create {subs : List Tree} (h : Draft base region store (subs ++ trees)) {kind : Kind}
    {number : Option TypeId} {type : Option TypeDesc} (hkind : kind.children = subs.map Tree.id)
    (htype : number.map store.types.get? = type.map some) :
    ∃ later, Build.create kind number store = .ok (store.size, later) ∧
      later.types = store.types ∧ later.node store.size = { kind := kind, type := number } ∧
      Draft base region later (.node store.size kind.head type subs :: trees) := by
  obtain ⟨later, hrun, hcreated⟩ := @exists_created _ _ _ _ _ _ number h hkind
  have hids : (Tree.node store.size kind.head type subs :: trees).flatMap Tree.ids =
      store.size :: (subs ++ trees).flatMap Tree.ids := by
    rw [List.flatMap_cons, Tree.ids_node, List.cons_append, ← List.flatMap_append]
  refine ⟨later, hrun, hcreated.types, hcreated.node_new, ?_⟩
  exact {
    grows := h.grows.trans hcreated.grows
    old := fun id hid => h.old_created hkind hcreated hid
    typed := h.typed_created htype hcreated
    once := hcreated.moved_nodes ▸ h.once
    moving := by
      intro move hmove
      rw [hcreated.moves] at hmove
      obtain ⟨before, hbefore, rfl⟩ := List.mem_map.mp hmove
      obtain ⟨hbase, hin, hroot, hholder⟩ := h.moving before hbefore
      rw [hids]
      split
      · refine ⟨hbase, List.mem_cons_of_mem _ hin, by simp, ?_⟩
        intro holder hsome
        cases hsome
        exact h.grows.size
      · next hchild =>
          refine ⟨hbase, List.mem_cons_of_mem _ hin, ?_, hholder⟩
          intro hnone
          have hmem := hroot hnone
          rw [List.map_append, ← hkind] at hmem
          exact List.mem_cons_of_mem _ ((List.mem_append.mp hmem).resolve_left hchild)
    held := by
      intro tree hmem
      rcases List.mem_cons.mp hmem with rfl | hmem
      · exact h.held_new hkind htype hcreated
      · exact h.held_rest hkind hcreated hmem
    loose := by
      intro tree hmem
      rcases List.mem_cons.mp hmem with rfl | hmem
      · have hclaim : later.claim? store.size = none := by
          rw [hcreated.claim?, if_neg hcreated.not_mem, Store.claim?_eq_none_iff]
          intro move hmove he
          exact Nat.lt_irrefl _ (he ▸ h.moved_lt hmove)
        refine ⟨?_, .inr ⟨hclaim, ?_⟩, fun _ => h.grows.size⟩
        · rw [Tree.id_node, Store.isErased, hcreated.node_new]
        · rw [Tree.id_node, Store.parent, hcreated.node_new]
      · have hall : tree ∈ subs ++ trees := List.mem_append_right _ hmem
        have hout := h.not_mem_children hkind hmem tree.id_mem_ids
        have hfacts := h.loose tree hall
        unfold Store.IsLoose Store.parent Store.isErased at hfacts ⊢
        rw [hcreated.claim?, if_neg hout,
          hcreated.node_of_not_mem (h.ne_size hall tree.id_mem_ids) hout]
        exact hfacts
    apart := by
      rw [hids, List.nodup_cons]
      refine ⟨?_, h.apart⟩
      intro hmem
      obtain ⟨tree, htree, hin⟩ := List.mem_flatMap.mp hmem
      exact h.ne_size htree hin rfl
    origin := by
      intro id hid
      rw [hids] at hid
      rcases List.mem_cons.mp hid with rfl | hin
      · exact .inl h.grows.size
      · exact h.origin id hin }

end Draft

end CodeTidy
