import CodeTidy.Proofs.Draft
import CodeTidy.Store.Edit
import Mathlib.Data.List.Flatten

/-!
# Committing edits

The effect of single edits on the tree that a store holds.  An edit changes the slot
of its target and erases what is left of the target; everything whose parent links
lead elsewhere survives.  Between two edits of one commit the tree is held only down
to the targets that are still to come, because what stands below those may already
have moved.
-/

namespace CodeTidy

namespace Store

variable {store : Store}

/-! ## Erasing -/

/-- Nodes may lose their parent link and may be erased; all else stays. -/
structure Fades (store later : Store) : Prop where
  size : later.size = store.size
  types : later.types = store.types
  moves : later.moves = store.moves
  kind : ∀ id, later.kind id = store.kind id
  type : ∀ id, (later.node id).type = (store.node id).type
  erased : ∀ id, store.isErased id = true → later.isErased id = true

theorem Fades.refl (store : Store) : store.Fades store :=
  ⟨rfl, rfl, rfl, fun _ => rfl, fun _ => rfl, fun _ h => h⟩

theorem Fades.trans {middle later : Store} (h₁ : store.Fades middle) (h₂ : middle.Fades later) :
    store.Fades later where
  size := h₂.size.trans h₁.size
  types := h₂.types.trans h₁.types
  moves := h₂.moves.trans h₁.moves
  kind id := (h₂.kind id).trans (h₁.kind id)
  type id := (h₂.type id).trans (h₁.type id)
  erased id h := h₂.erased id (h₁.erased id h)

theorem node_retire (id other : NodeId) : (store.retire id).node other =
    if id = other ∧ id < store.size then { store.node other with erased := true, parent := none }
    else store.node other := by
  by_cases hlt : id < store.size
  · rw [retire, node_modify _ hlt]
    by_cases he : id = other <;> simp [he, hlt]
    subst he
    simp [hlt]
  · have hsize : (store.retire id).size = store.size := store.size_modify _ _
    rw [if_neg (fun h => hlt h.2)]
    by_cases he : id = other
    · subst he
      rw [node_of_size_le (Nat.le_of_not_lt hlt),
        node_of_size_le (by rw [hsize]; exact Nat.le_of_not_lt hlt)]
    · exact store.node_modify_of_ne _ he

theorem fades_retire (id : NodeId) : store.Fades (store.retire id) where
  size := store.size_modify _ _
  types := rfl
  moves := rfl
  kind other := by
    rw [Store.kind, node_retire]
    split <;> rfl
  type other := by
    rw [node_retire]
    split <;> rfl
  erased other h := by
    rw [isErased, node_retire]
    split
    · rfl
    · exact h

theorem fades_eraseSteps (steps : Nat) (id : NodeId) : store.Fades (eraseSteps steps id store) := by
  induction steps generalizing id store with
  | zero => exact .refl store
  | succ steps ih =>
      rw [eraseSteps]
      generalize store.children id = children
      have hstart : store.Fades (store.retire id) := fades_retire id
      generalize store.retire id = rest at hstart
      induction children generalizing rest with
      | nil => exact hstart
      | cons child others ihList =>
          rw [List.foldl_cons]
          apply ihList
          split
          · exact hstart.trans (ih child)
          · exact hstart

theorem fades_erase (id : NodeId) : store.Fades (store.erase id) :=
  fades_eraseSteps _ _

/-- Erasing goes from a node to the children that are linked to it: a set of nodes that is
never entered on the way stays as it is. -/
theorem node_eraseSteps {kept : NodeId → Prop} {steps : Nat} {id : NodeId}
    (hclosed : ∀ x child, Not (kept x) → child ∈ store.children x →
      store.parent child = some x → Not (kept child))
    (hid : Not (kept id)) (x : NodeId) (hx : kept x) :
    (eraseSteps steps id store).node x = store.node x := by
  induction steps generalizing id store x with
  | zero => rfl
  | succ steps ih =>
      rw [eraseSteps]
      generalize hchildren : store.children id = children
      have hall : ∀ child, child ∈ children → child ∈ store.children id :=
        fun _ hchild => hchildren ▸ hchild
      have hstart : ∀ y, kept y → (store.retire id).node y = store.node y := by
        intro y hy
        rw [node_retire, if_neg]
        rintro ⟨rfl, _⟩
        exact hid hy
      have hfades : store.Fades (store.retire id) := fades_retire id
      clear hchildren
      generalize store.retire id = rest at hstart hfades
      induction children generalizing rest with
      | nil => exact hstart x hx
      | cons child others ihList =>
          rw [List.foldl_cons]
          have hothers : ∀ other, other ∈ others → other ∈ store.children id :=
            fun other hother => hall other (List.mem_cons_of_mem _ hother)
          split
          · next hlink =>
            have hchild : Not (kept child) := by
              intro hkept
              rw [Store.parent, hstart child hkept] at hlink
              exact hclosed id child hid (hall child (List.mem_cons_self ..)) hlink hkept
            refine ihList hothers _ (fun y hy => ?_) (hfades.trans (fades_eraseSteps _ _))
            rw [ih (fun z below hz hbelow hlink hkept => ?_) hchild y hy, hstart y hy]
            rw [Store.parent, hstart below hkept] at hlink
            rw [Store.children, hfades.kind] at hbelow
            exact hclosed z below hz hbelow hlink hkept
          · exact ihList hothers _ hstart hfades

theorem node_erase {kept : NodeId → Prop} {id : NodeId}
    (hclosed : ∀ x child, Not (kept x) → child ∈ store.children x →
      store.parent child = some x → Not (kept child))
    (hid : Not (kept id)) {x : NodeId} (hx : kept x) :
    (store.erase id).node x = store.node x :=
  node_eraseSteps hclosed hid x hx

theorem isErased_erase {id : NodeId} (hlt : id < store.size) :
    (store.erase id).isErased id = true := by
  obtain ⟨steps, hsteps⟩ : ∃ steps, store.size = steps + 1 := ⟨store.size - 1, by
    have hpos : 0 < store.size := Nat.lt_of_le_of_lt (Nat.zero_le id) hlt
    omega⟩
  rw [erase, hsteps, eraseSteps]
  generalize store.children id = children
  have hstart : (store.retire id).isErased id = true := by
    rw [isErased, node_retire, if_pos ⟨rfl, hlt⟩]
  generalize store.retire id = rest at hstart
  induction children generalizing rest with
  | nil => exact hstart
  | cons child others ih =>
      rw [List.foldl_cons]
      apply ih
      split
      · exact (fades_eraseSteps _ _).erased id hstart
      · exact hstart

end Store

namespace Tree

variable {store later : Store} {tree : Tree} {owner : Option NodeId} {stops : List NodeId}

/-! ## Trees down to their targets -/

theorem Held.to_stops (h : tree.Held store owner) (stops : List NodeId) :
    tree.HeldTo store stops owner := by
  induction tree generalizing owner with
  | node id head type subs ih =>
      by_cases hstop : id ∈ stops
      · exact .stop hstop h.lt h.link
      · refine .node hstop h.laid.shown_by h.link (fun sub hsub => h.live hsub) ?_
        exact fun sub hsub => ih sub hsub (h.sub hsub)

theorem map_id_sublist_shown (stops : List NodeId) (subs : List Tree) :
    (subs.map Tree.id).Sublist (subs.flatMap (shown stops)) := by
  induction subs with
  | nil => exact List.Sublist.refl _
  | cons first rest ih =>
      rw [List.map_cons, List.flatMap_cons]
      exact (List.singleton_sublist.mpr (id_mem_shown stops first)).append ih

/-- A shown node other than the root stands in a slot of the node that its parent link
names. -/
theorem HeldTo.slot_of_mem_shown (h : tree.HeldTo store stops owner) {id : NodeId}
    (hid : id ∈ tree.shown stops) (hne : id ≠ tree.id) :
    ∃ holder ∈ tree.shown stops, holder ∉ stops ∧ store.parent id = some holder ∧
      id ∈ store.children holder ∧ (store.children holder).Sublist (tree.shown stops) := by
  induction h with
  | @stop above tree isStop lt link =>
      cases tree with
      | node i head type subs =>
          have hstop : i ∈ stops := isStop
          rw [shown_node, if_pos hstop, List.mem_singleton] at hid
          exact absurd hid hne
  | @node above i head type subs goesOn shows link live slots ih =>
      rw [shown_node, if_neg goesOn] at hid ⊢
      rcases List.mem_cons.mp hid with rfl | hbelow
      · exact absurd rfl hne
      · obtain ⟨sub, hsub, hin⟩ := List.mem_flatMap.mp hbelow
        have hwhole : (sub.shown stops).Sublist (subs.flatMap (shown stops)) := by
          rw [List.flatMap_def]
          exact List.sublist_flatten_of_mem (List.mem_map_of_mem hsub)
        by_cases hroot : id = sub.id
        · refine ⟨i, by simp, goesOn, hroot ▸ (slots sub hsub).link, ?_, ?_⟩
          · rw [shows.children, hroot]
            exact List.mem_map_of_mem hsub
          · rw [shows.children]
            exact List.Sublist.cons _ (map_id_sublist_shown stops subs)
        · obtain ⟨holder, hholder, hgoes, hlink, hslot, hsubl⟩ := ih sub hsub hin hroot
          refine ⟨holder, List.mem_cons_of_mem _ (hwhole.subset hholder), hgoes, hlink, hslot, ?_⟩
          exact List.Sublist.cons _ (hsubl.trans hwhole)

theorem HeldTo.parent_of_slot (h : tree.HeldTo store stops owner) {id child : NodeId}
    (hid : id ∈ tree.shown stops) (hgoes : id ∉ stops) (hslot : child ∈ store.children id) :
    store.parent child = some id := by
  induction h with
  | @stop above tree isStop lt link =>
      cases tree with
      | node i head type subs =>
          have hstop : i ∈ stops := isStop
          rw [shown_node, if_pos hstop, List.mem_singleton] at hid
          exact absurd (hid ▸ hstop) hgoes
  | @node above i head type subs goesOn shows link live slots ih =>
      rw [shown_node, if_neg goesOn] at hid
      rcases List.mem_cons.mp hid with rfl | hbelow
      · rw [shows.children] at hslot
        obtain ⟨sub, hsub, rfl⟩ := List.mem_map.mp hslot
        exact (slots sub hsub).link
      · obtain ⟨sub, hsub, hin⟩ := List.mem_flatMap.mp hbelow
        exact ih sub hsub hin

/-- A held tree in which the slot of a target was given to a fresh tree, or dropped. -/
theorem HeldTo.put {target : NodeId} {fresh : Option Tree}
    (h : tree.HeldTo store (target :: stops) owner) (hroot : tree.id ≠ target)
    (hgrows : store.Grows later)
    (hnode : ∀ x, x ∈ tree.shown (target :: stops) → x ≠ target →
      (later.kind x).head = (store.kind x).head ∧
      (later.node x).type = (store.node x).type ∧
      later.parent x = store.parent x ∧ later.isErased x = store.isErased x)
    (hslots : ∀ x, x ∈ tree.shown (target :: stops) → x ∉ target :: stops →
      later.children x = (store.children x).flatMap (putId target (fresh.toList.map Tree.id)))
    (hfresh : ∀ new holder, new ∈ fresh → store.parent target = some holder →
      new.HeldTo later stops (some holder) ∧ later.isErased new.id = false) :
    (tree.put target fresh).HeldTo later stops owner := by
  induction h with
  | @stop above tree isStop lt link =>
      have hstop : tree.id ∈ stops := by
        rcases List.mem_cons.mp isStop with he | hmem
        · exact absurd he hroot
        · exact hmem
      have hfacts := hnode tree.id (id_mem_shown _ _) hroot
      refine .stop ?_ ?_ ?_
      · rw [id_put]; exact hstop
      · rw [id_put]; exact Nat.lt_of_lt_of_le lt hgrows.size
      · rw [id_put, hfacts.2.2.1]; exact link
  | @node above i head type subs goesOn shows link live slots ih =>
      rw [shown_node, if_neg goesOn] at hnode hslots
      have hfacts := hnode i (by simp) hroot
      have hbelow : ∀ sub, sub ∈ subs → ∀ x, x ∈ sub.shown (target :: stops) →
          x ∈ i :: subs.flatMap (shown (target :: stops)) :=
        fun sub hsub x hx => List.mem_cons_of_mem _ (List.mem_flatMap.mpr ⟨sub, hsub, hx⟩)
      have hchildren := hslots i (by simp) goesOn
      rw [put_node]
      -- Every slot now holds either what was there, or the fresh tree.
      have hslot : ∀ new, new ∈ subs.flatMap (putSlot target fresh) →
          new.HeldTo later stops (some i) ∧ later.isErased new.id = false := by
        intro new hnew
        obtain ⟨sub, hsub, hin⟩ := List.mem_flatMap.mp hnew
        by_cases hid : sub.id = target
        · rw [putSlot, if_pos hid] at hin
          have hlink := (slots sub hsub).link
          rw [hid] at hlink
          exact hfresh new i (by simpa using hin) hlink
        · rw [putSlot, if_neg hid, List.mem_singleton] at hin
          subst hin
          have hsubFacts := hnode sub.id (hbelow sub hsub _ (id_mem_shown _ sub)) hid
          refine ⟨?_, ?_⟩
          · exact ih sub hsub hid (fun x hx => hnode x (hbelow sub hsub x hx))
              (fun x hx => hslots x (hbelow sub hsub x hx))
          · rw [id_put, hsubFacts.2.2.2]
            exact live sub hsub
      refine .node (fun hmem => goesOn (List.mem_cons_of_mem _ hmem)) ⟨?_, ?_, ?_, ?_⟩ ?_
        (fun new hnew => (hslot new hnew).2) (fun new hnew => (hslot new hnew).1)
      · exact Nat.lt_of_lt_of_le shows.lt hgrows.size
      · rw [hfacts.1, shows.head]
      · rw [hchildren, shows.children, map_id_flatMap_putSlot]
      · rw [hfacts.2.1]
        exact hgrows.recorded shows.type
      · rw [hfacts.2.2.1]
        exact link

end Tree

/-! ## Single edits -/

/-- Edits keep the numbers and types of all nodes and bring no node back. -/
structure Store.Keeps (store later : Store) : Prop where
  size : later.size = store.size
  types : later.types = store.types
  type : ∀ id, (later.node id).type = (store.node id).type
  erased : ∀ id, store.isErased id = true → later.isErased id = true

namespace Store

variable {store middle later : Store}

theorem Keeps.refl (store : Store) : store.Keeps store :=
  ⟨rfl, rfl, fun _ => rfl, fun _ h => h⟩

theorem Keeps.trans (h₁ : store.Keeps middle) (h₂ : middle.Keeps later) : store.Keeps later where
  size := h₂.size.trans h₁.size
  types := h₂.types.trans h₁.types
  type id := (h₂.type id).trans (h₁.type id)
  erased id h := h₂.erased id (h₁.erased id h)

theorem Keeps.grows (h : store.Keeps later) : store.Grows later where
  size := Nat.le_of_eq h.size.symm
  types _ _ hd := h.types ▸ hd

theorem Keeps.typesKnown (h : store.Keeps later) (hknown : store.TypesKnown) :
    later.TypesKnown := by
  intro id number hnumber
  rw [h.type] at hnumber
  rw [h.types]
  exact hknown id number hnumber

theorem Fades.keeps (h : store.Fades later) : store.Keeps later :=
  ⟨h.size, h.types, h.type, h.erased⟩

theorem keeps_modify {id : NodeId} {f : Node → Node}
    (htype : ∀ node, (f node).type = node.type)
    (herased : ∀ node, (f node).erased = node.erased) :
    store.Keeps (store.modify id f) := by
  have hnode : ∀ other, ((store.modify id f).node other).type = (store.node other).type ∧
      ((store.modify id f).node other).erased = (store.node other).erased := by
    intro other
    by_cases hlt : id < store.size
    · rw [node_modify f hlt]
      split
      · exact ⟨htype _, herased _⟩
      · exact ⟨rfl, rfl⟩
    · by_cases he : id = other
      · subst he
        have hsize := store.size_modify id f
        rw [node_of_size_le (Nat.le_of_not_lt hlt),
          node_of_size_le (by rw [hsize]; exact Nat.le_of_not_lt hlt)]
        exact ⟨rfl, rfl⟩
      · rw [node_modify_of_ne _ _ he]
        exact ⟨rfl, rfl⟩
  exact ⟨store.size_modify id f, rfl, fun other => (hnode other).1, fun other h => by
    rw [isErased, (hnode other).2]
    exact h⟩

end Store

namespace Store

variable {store : Store} {id other holder : NodeId}

theorem size_setKind (store : Store) (id : NodeId) (kind : Kind) :
    (store.setKind id kind).size = store.size :=
  store.size_modify _ _

theorem node_setKind {kind : Kind} (hlt : id < store.size) :
    (store.setKind id kind).node other =
      if other = id then { store.node other with kind := kind } else store.node other := by
  rw [setKind, node_modify _ hlt]
  exact if_congr eq_comm rfl rfl

theorem keeps_setKind (store : Store) (id : NodeId) (kind : Kind) :
    store.Keeps (store.setKind id kind) :=
  keeps_modify (fun _ => rfl) (fun _ => rfl)

def placed (store : Store) (id holder : NodeId) : Store :=
  (store.forgetMove id).setParent id holder

theorem node_placed (hlt : id < store.size) :
    (store.placed id holder).node other =
      if other = id then { store.node other with parent := some holder }
      else store.node other := by
  have hmodify : (store.placed id holder).node other =
      if id = other then { store.node other with parent := some holder } else store.node other :=
    node_modify _ hlt other
  rw [hmodify]
  exact if_congr eq_comm rfl rfl

theorem keeps_placed (store : Store) (id holder : NodeId) :
    store.Keeps (store.placed id holder) :=
  (⟨rfl, rfl, fun _ => rfl, fun _ h => h⟩ : store.Keeps (store.forgetMove id)).trans
    (keeps_modify (fun _ => rfl) (fun _ => rfl))

end Store

namespace Build

variable {store : Store} {id holder : NodeId}

theorem place_ok (hlt : id < store.size)
    (hplace : store.isMoving id = true ∨
      (store.claim? id = none ∧ store.parent id = none ∧ store.isErased id = false)) :
    place holder id store = .ok ((), store.placed id holder) := by
  unfold place
  rw [bind_ok (run_get store)]
  rcases hplace with hmoving | ⟨hclaim, hparent, hlive⟩
  · rw [if_pos hmoving, bind_ok (run_lookup hlt)]
    rfl
  · have hstill : store.isMoving id = false := by
      rw [← Store.claim?_isSome, hclaim]
      rfl
    have hfound : (store.node id).parent = none := hparent
    have herased : (store.node id).erased = false := hlive
    rw [if_neg (by simp [hstill]), run_adopt, Store.get_eq_ok hlt]
    simp [herased, hfound, Store.placed]

theorem eraseIfOwned_ok (hlt : id < store.size) (hlink : store.parent id = some holder) :
    eraseIfOwned id holder store = .ok ((), store.erase id) := by
  unfold eraseIfOwned
  rw [bind_ok (run_parentOf hlt), if_pos hlink]
  unfold erase
  rw [bind_ok (run_lookup hlt)]
  rfl

theorem replace_ok {target : NodeId} {kind : Kind} (hlink : store.parent target = some holder)
    (hlt : holder < store.size) (hkind : (store.kind holder).replaceChild? target id = some kind)
    (hid : id < store.size) (hneTarget : id ≠ target)
    (hplace : store.isMoving id = true ∨
      (store.claim? id = none ∧ store.parent id = none ∧ store.isErased id = false)) :
    replace target id store =
      .ok ((), ((store.setKind holder kind).placed id holder).erase target) := by
  have hidLt : id < (store.setKind holder kind).size := by
    rw [Store.size_setKind]
    exact hid
  have hplaceRun : place holder id (store.setKind holder kind) =
      .ok ((), (store.setKind holder kind).placed id holder) := by
    apply place_ok hidLt
    rw [Store.parent, Store.isErased, Store.node_setKind hlt]
    split <;> exact hplace
  have hlinkPlaced : ((store.setKind holder kind).placed id holder).parent target =
      some holder := by
    rw [Store.parent, Store.node_placed hidLt, if_neg (fun he => hneTarget he.symm),
      Store.node_setKind hlt]
    split <;> exact hlink
  unfold replace
  rw [bind_ok (run_parentOf (Store.lt_of_parent hlink)), hlink]
  simp only
  rw [bind_ok (run_kindOf hlt), hkind]
  simp only
  rw [bind_ok (run_modify _ store), bind_ok hplaceRun]
  exact eraseIfOwned_ok (Store.lt_of_parent hlinkPlaced) hlinkPlaced

theorem remove_ok {target : NodeId} {kind : Kind} (hlink : store.parent target = some holder)
    (hlt : holder < store.size) (hkind : (store.kind holder).dropChild? target = some kind)
    (hne : target ≠ holder) :
    remove target store = .ok ((), (store.setKind holder kind).erase target) := by
  have hremoval : (store.kind holder).removeChild target = .done kind := by
    unfold Kind.removeChild
    rw [hkind]
  have hlinkChanged : (store.setKind holder kind).parent target = some holder := by
    rw [Store.parent, Store.node_setKind hlt, if_neg hne]
    exact hlink
  unfold remove
  rw [bind_ok (run_parentOf (Store.lt_of_parent hlink)), hlink]
  simp only
  rw [bind_ok (run_kindOf hlt), hremoval]
  simp only
  rw [bind_ok (run_modify _ store)]
  exact eraseIfOwned_ok (Store.lt_of_parent hlinkChanged) hlinkChanged

end Build

/-- A moment between the edits of one commit: the tree is held down to the targets
that are still to come, and `spare` are the fresh trees that are still to be
placed. -/
structure Site (store : Store) (stops : List NodeId) (tree : Tree) (spare : List Tree) :
    Prop where
  held : tree.HeldTo store stops none
  root : tree.id ∉ stops
  apart : (tree.shown stops ++ spare.flatMap Tree.ids).Nodup
  ready : ∀ other, other ∈ spare → other.Held store none ∧
    store.isErased other.id = false ∧ store.claim? other.id = none

namespace Tree

theorem replace_eq_flatMap {ids : List NodeId} (hnodup : ids.Nodup) (target fresh : NodeId) :
    ids.replace target fresh = ids.flatMap (putId target [fresh]) := by
  induction ids with
  | nil => rfl
  | cons id rest ih =>
      rw [List.nodup_cons] at hnodup
      rw [List.flatMap_cons, List.replace_cons]
      by_cases hid : target = id
      · subst hid
        rw [flatMap_putId_of_not_mem hnodup.1]
        simp [putId]
      · have hid' : id ≠ target := fun he => hid he.symm
        have hbeq : (target == id) = false := beq_eq_false_iff_ne.mpr hid
        simp [hbeq, putId, hid', ih hnodup.2]

theorem erase_eq_flatMap {ids : List NodeId} (hnodup : ids.Nodup) (target : NodeId) :
    ids.erase target = ids.flatMap (putId target []) := by
  induction ids with
  | nil => rfl
  | cons id rest ih =>
      rw [List.nodup_cons] at hnodup
      rw [List.flatMap_cons, List.erase_cons]
      by_cases hid : id = target
      · subst hid
        rw [flatMap_putId_of_not_mem hnodup.1]
        simp [putId]
      · have hbeq : (id == target) = false := beq_eq_false_iff_ne.mpr hid
        simp [hbeq, putId, hid, ih hnodup.2]

theorem nodup_flatMap_putId {ids fresh rest : List NodeId} {target : NodeId}
    (h : (ids ++ fresh ++ rest).Nodup) :
    (ids.flatMap (putId target fresh) ++ rest).Nodup := by
  by_cases hmem : target ∈ ids
  · rw [List.append_assoc, List.nodup_append'] at h
    obtain ⟨hids, hrest, hapart⟩ := h
    obtain ⟨before, after, rfl⟩ := List.append_of_mem hmem
    rw [List.nodup_append'] at hids
    obtain ⟨_, hafter, hsplit⟩ := hids
    rw [List.nodup_cons] at hafter
    have hbefore : target ∉ before := fun hin => hsplit hin (by simp)
    rw [List.flatMap_append, List.flatMap_cons, flatMap_putId_of_not_mem hbefore,
      flatMap_putId_of_not_mem hafter.1]
    simp only [putId, if_true]
    have hperm : (before ++ (fresh ++ after) ++ rest).Perm
        ((before ++ after) ++ (fresh ++ rest)) := by
      rw [List.append_assoc, List.append_assoc, List.append_assoc]
      refine List.Perm.append_left before ?_
      rw [← List.append_assoc, ← List.append_assoc]
      exact List.Perm.append_right rest List.perm_append_comm
    rw [hperm.nodup_iff, List.nodup_append']
    refine ⟨?_, hrest, ?_⟩
    · rw [List.nodup_append']
      exact ⟨‹before.Nodup›, hafter.2, fun x hx hy => hsplit hx (List.mem_cons_of_mem _ hy)⟩
    · intro x hx
      apply hapart
      rcases List.mem_append.mp hx with hx | hx
      · exact List.mem_append_left _ hx
      · exact List.mem_append_right _ (List.mem_cons_of_mem _ hx)
  · rw [flatMap_putId_of_not_mem hmem]
    rw [List.append_assoc] at h
    exact h.sublist (List.Sublist.append_left (List.sublist_append_right fresh rest) ids)

end Tree

/-- The nodes of a site after the slot of `target` was given to the nodes `fresh`. -/
structure Site.Filled (store later : Store) (stops : List NodeId) (tree : Tree)
    (target : NodeId) (fresh : List NodeId) : Prop where
  head : ∀ x, x ∈ tree.shown (target :: stops) → x ≠ target →
    (later.kind x).head = (store.kind x).head
  parent : ∀ x, x ∈ tree.shown (target :: stops) → x ≠ target →
    later.parent x = store.parent x
  slots : ∀ x, x ∈ tree.shown (target :: stops) → x ∉ target :: stops →
    later.children x = (store.children x).flatMap (Tree.putId target fresh)
  erased : ∀ x, x ∈ tree.shown (target :: stops) → x ≠ target →
    later.isErased x = store.isErased x

theorem Tree.length_flatMap_putId (target fresh : NodeId) (ids : List NodeId) :
    (ids.flatMap (Tree.putId target [fresh])).length = ids.length := by
  induction ids with
  | nil => rfl
  | cons id rest ih =>
      rw [List.flatMap_cons, List.length_append, ih, Tree.putId]
      split <;> simp [Nat.add_comm]

/-- Whether a slot may be dropped depends on its position, which stays when another slot
is given to a fresh node. -/
theorem Kind.isSome_dropChild?_of_slots {kind changed : Kind} {target fresh child : NodeId}
    (hhead : changed.head = kind.head)
    (hslots : changed.children = kind.children.flatMap (Tree.putId target [fresh]))
    (hnodup : kind.children.Nodup) (hchanged : changed.children.Nodup)
    (hchild : child ∈ kind.children) (hne : child ≠ target) :
    (changed.dropChild? child).isSome = (kind.dropChild? child).isSome := by
  obtain ⟨before, after, hsplit⟩ := List.append_of_mem hchild
  have hlater : changed.children = before.flatMap (Tree.putId target [fresh]) ++
      child :: after.flatMap (Tree.putId target [fresh]) := by
    rw [hslots, hsplit, List.flatMap_append, List.flatMap_cons, Tree.putId, if_neg hne]
    rfl
  rw [Kind.isSome_dropChild? hlater hchanged, Kind.isSome_dropChild? hsplit hnodup, hhead,
    Tree.length_flatMap_putId]

theorem Site.Filled.isSome_dropChild? {store later : Store} {stops : List NodeId} {tree : Tree}
    {target fresh x child : NodeId} (h : Site.Filled store later stops tree target [fresh])
    (hx : x ∈ tree.shown (target :: stops)) (hpass : x ∉ target :: stops)
    (hchild : child ∈ store.children x) (hne : child ≠ target)
    (hnodup : (store.children x).Nodup) (hlater : (later.children x).Nodup) :
    ((later.kind x).dropChild? child).isSome = ((store.kind x).dropChild? child).isSome := by
  have hhead := h.head x hx (fun he => hpass (he ▸ List.mem_cons_self))
  exact Kind.isSome_dropChild?_of_slots hhead (h.slots x hx hpass) hnodup hlater hchild hne

/-- A site in which the slot of the first target was given to a fresh tree, or dropped,
while the target itself is still to be erased. -/
structure Site.Slotted (store middle : Store) (stops : List NodeId) (tree : Tree)
    (spare : List Tree) (target holder : NodeId) (kind : Kind) (fresh : Option Tree) :
    Prop where
  site : Site store (target :: stops) tree spare
  built : ∀ new, new ∈ fresh → (∃ owner, new.Held store owner) ∧
    store.isErased new.id = false ∧ ∀ id, id ∈ new.ids → id ∉ stops
  apart : (tree.shown (target :: stops) ++ fresh.toList.flatMap Tree.ids ++
    spare.flatMap Tree.ids).Nodup
  shown : target ∈ tree.shown (target :: stops)
  link : store.parent target = some holder
  head : kind.head = (store.kind holder).head
  children : kind.children =
    (store.children holder).flatMap (Tree.putId target (fresh.toList.map Tree.id))
  keeps : store.Keeps middle
  node : ∀ x, middle.node x =
    if x = holder then { store.node x with kind := kind }
    else if x ∈ fresh.toList.map Tree.id then { store.node x with parent := some holder }
    else store.node x
  claim : ∀ other, other ∈ spare → middle.claim? other.id = none

/-- The nodes that stay when the target is erased: those shown, those of the fresh tree,
and the spare ones. -/
def Site.Kept (stops : List NodeId) (tree : Tree) (spare : List Tree) (target : NodeId)
    (fresh : Option Tree) (x : NodeId) : Prop :=
  (x ∈ tree.shown (target :: stops) ∧ x ≠ target) ∨ x ∈ fresh.toList.flatMap Tree.ids ∨
    x ∈ spare.flatMap Tree.ids

namespace Site

variable {store middle : Store} {stops : List NodeId} {tree : Tree} {spare : List Tree}
  {target holder x : NodeId} {kind : Kind} {fresh : Option Tree}

theorem ne_target (h : Site store (target :: stops) tree spare) : tree.id ≠ target :=
  fun he => h.root (he ▸ List.mem_cons_self)

namespace Slotted

theorem holder_shown (h : Slotted store middle stops tree spare target holder kind fresh) :
    holder ∈ tree.shown (target :: stops) ∧ holder ≠ target := by
  obtain ⟨above, habove, hpass, hlink, _, _⟩ :=
    h.site.held.slot_of_mem_shown h.shown (fun he => h.site.ne_target he.symm)
  obtain rfl : above = holder := Option.some.inj (hlink.symm.trans h.link)
  exact ⟨habove, fun he => hpass (he ▸ List.mem_cons_self)⟩

theorem not_shown_of_fresh (h : Slotted store middle stops tree spare target holder kind fresh)
    (hx : x ∈ fresh.toList.flatMap Tree.ids) : x ∉ tree.shown (target :: stops) :=
  fun hshown => (List.nodup_append'.mp (List.nodup_append'.mp h.apart).1).2.2 hshown hx

theorem not_shown_of_spare (h : Slotted store middle stops tree spare target holder kind fresh)
    (hx : x ∈ spare.flatMap Tree.ids) : x ∉ tree.shown (target :: stops) :=
  fun hshown => (List.nodup_append'.mp h.apart).2.2 (List.mem_append_left _ hshown) hx

theorem node_of_spare (h : Slotted store middle stops tree spare target holder kind fresh)
    (hx : x ∈ spare.flatMap Tree.ids) : middle.node x = store.node x := by
  rw [h.node, if_neg, if_neg]
  · intro hroot
    exact (List.nodup_append'.mp h.apart).2.2
      (List.mem_append_right _ (Tree.map_id_subset _ hroot)) hx
  · rintro rfl
    exact h.not_shown_of_spare hx h.holder_shown.1

theorem node_of_fresh (h : Slotted store middle stops tree spare target holder kind fresh)
    (hx : x ∈ fresh.toList.flatMap Tree.ids) (hroot : x ∉ fresh.toList.map Tree.id) :
    middle.node x = store.node x := by
  rw [h.node, if_neg, if_neg hroot]
  rintro rfl
  exact h.not_shown_of_fresh hx h.holder_shown.1

theorem node_of_root (h : Slotted store middle stops tree spare target holder kind fresh)
    (hx : x ∈ fresh.toList.map Tree.id) :
    middle.node x = { store.node x with parent := some holder } := by
  rw [h.node, if_neg, if_pos hx]
  rintro rfl
  exact h.not_shown_of_fresh (Tree.map_id_subset _ hx) h.holder_shown.1

theorem node_of_shown (h : Slotted store middle stops tree spare target holder kind fresh)
    (hx : x ∈ tree.shown (target :: stops)) :
    middle.node x = if x = holder then { store.node x with kind := kind } else store.node x := by
  rw [h.node, if_neg (fun hroot => h.not_shown_of_fresh (Tree.map_id_subset _ hroot) hx)]

theorem parent_of_shown (h : Slotted store middle stops tree spare target holder kind fresh)
    (hx : x ∈ tree.shown (target :: stops)) : middle.parent x = store.parent x := by
  rw [Store.parent, h.node_of_shown hx]
  split <;> rfl

/-! ### The nodes that stay -/

theorem not_kept_target (h : Slotted store middle stops tree spare target holder kind fresh) :
    Not (Kept stops tree spare target fresh target) := by
  rintro (⟨_, hself⟩ | hin | hin)
  · exact hself rfl
  · exact h.not_shown_of_fresh hin h.shown
  · exact h.not_shown_of_spare hin h.shown

/-- No parent link leads from a node that stays to one that does not. -/
theorem kept_parent (h : Slotted store middle stops tree spare target holder kind fresh)
    {owner : NodeId} (hx : Kept stops tree spare target fresh x)
    (howner : middle.parent x = some owner) : Kept stops tree spare target fresh owner := by
  rcases hx with ⟨hx, _⟩ | hx | hx
  · rw [h.parent_of_shown hx] at howner
    rcases h.site.held.parent_of_mem_shown hx with ⟨_, hnone⟩ | ⟨up, hup, hpass, hlink⟩
    · rw [hnone] at howner
      cases howner
    · rw [hlink, Option.some.injEq] at howner
      subst howner
      exact .inl ⟨hup, fun he => hpass (he ▸ List.mem_cons_self)⟩
  · by_cases hroot : x ∈ fresh.toList.map Tree.id
    · rw [Store.parent, h.node_of_root hroot] at howner
      cases howner
      exact .inl h.holder_shown
    · obtain ⟨new, hnew, hin⟩ := List.mem_flatMap.mp hx
      obtain ⟨⟨_, hheld⟩, _⟩ := h.built new (by simpa using hnew)
      rw [Store.parent, h.node_of_fresh hx hroot] at howner
      have hne : x ≠ new.id := fun he => hroot (he ▸ List.mem_map_of_mem hnew)
      exact .inr (.inl (List.mem_flatMap.mpr ⟨new, hnew, hheld.parent_mem_ids hin hne howner⟩))
  · obtain ⟨other, hother, hin⟩ := List.mem_flatMap.mp hx
    have hheld := (h.site.ready other hother).1
    rw [Store.parent, h.node_of_spare hx] at howner
    have hne : x ≠ other.id := by
      rintro rfl
      exact absurd (howner.symm.trans hheld.link) (by simp)
    exact .inr (.inr (List.mem_flatMap.mpr ⟨other, hother, hheld.parent_mem_ids hin hne howner⟩))

theorem node_erase (h : Slotted store middle stops tree spare target holder kind fresh)
    (hx : Kept stops tree spare target fresh x) :
    (middle.erase target).node x = middle.node x :=
  Store.node_erase (fun _ _ hout _ hlink hkept => hout (h.kept_parent hkept hlink))
    h.not_kept_target hx

theorem keeps_erase (h : Slotted store middle stops tree spare target holder kind fresh) :
    store.Keeps (middle.erase target) :=
  h.keeps.trans (middle.fades_erase target).keeps

/-! ### The trees that stay -/

theorem filled (h : Slotted store middle stops tree spare target holder kind fresh) :
    Filled store (middle.erase target) stops tree target (fresh.toList.map Tree.id) where
  head x hx hne := by
    rw [Store.kind, h.node_erase (.inl ⟨hx, hne⟩), h.node_of_shown hx]
    split
    · next he => subst he; exact h.head
    · rfl
  parent x hx hne := by
    rw [Store.parent, h.node_erase (.inl ⟨hx, hne⟩)]
    exact h.parent_of_shown hx
  slots x hx hpass := by
    have hne : x ≠ target := fun he => hpass (he ▸ List.mem_cons_self)
    rw [Store.children, Store.kind, h.node_erase (.inl ⟨hx, hne⟩), h.node_of_shown hx]
    by_cases hxa : x = holder
    · subst hxa
      rw [if_pos rfl]
      exact h.children
    · have hnotSlot : target ∉ store.children x := by
        intro hmem
        have hup := h.site.held.parent_of_slot hx hpass hmem
        rw [h.link, Option.some.injEq] at hup
        exact hxa hup.symm
      rw [if_neg hxa]
      exact (Tree.flatMap_putId_of_not_mem hnotSlot).symm
  erased x hx hne := by
    rw [Store.isErased, h.node_erase (.inl ⟨hx, hne⟩), h.node_of_shown hx]
    split <;> rfl

theorem held_fresh (h : Slotted store middle stops tree spare target holder kind fresh)
    {new : Tree} (hnew : new ∈ fresh) : new.Held (middle.erase target) (some holder) ∧
      (middle.erase target).isErased new.id = false := by
  obtain rfl : fresh = some new := hnew
  obtain ⟨⟨_, hheld⟩, hlive, _⟩ := h.built new rfl
  have hin : ∀ x, x ∈ new.ids → x ∈ (some new).toList.flatMap Tree.ids :=
    fun x hx => List.mem_flatMap.mpr ⟨new, by simp, hx⟩
  have hself := (List.nodup_flatMap.mp
    (List.nodup_append'.mp (List.nodup_append'.mp h.apart).1).2.1).1 new (by simp)
  have hroot : (middle.erase target).node new.id =
      { store.node new.id with parent := some holder } := by
    rw [h.node_erase (.inr (.inl (hin _ new.id_mem_ids))), h.node_of_root (by simp)]
  refine ⟨hheld.relink h.keeps_erase.grows hroot ?_, ?_⟩
  · intro x hx
    have hxin : x ∈ (some new).toList.flatMap Tree.ids :=
      hin x (Tree.slots_subset_ids _ hx)
    rw [h.node_erase (.inr (.inl hxin)), h.node_of_fresh hxin]
    intro hmem
    exact Tree.id_not_mem_slots hself ((by simpa using hmem : x = new.id) ▸ hx)
  · rw [Store.isErased, hroot]
    exact hlive

theorem ready (h : Slotted store middle stops tree spare target holder kind fresh) {other : Tree}
    (hother : other ∈ spare) : other.Held (middle.erase target) none ∧
      (middle.erase target).isErased other.id = false ∧
      (middle.erase target).claim? other.id = none := by
  have hsame : ∀ x, x ∈ other.ids → (middle.erase target).node x = store.node x := by
    intro x hx
    have hin : x ∈ spare.flatMap Tree.ids := List.mem_flatMap.mpr ⟨other, hother, hx⟩
    rw [h.node_erase (.inr (.inr hin)), h.node_of_spare hin]
  obtain ⟨hheld, hlive, _⟩ := h.site.ready other hother
  refine ⟨?_, ?_, ?_⟩
  · exact hheld.mono h.keeps_erase.grows (fun x hx => hsame x (Tree.shown_subset_ids _ _ hx))
  · rw [Store.isErased, hsame _ other.id_mem_ids]
    exact hlive
  · unfold Store.claim?
    rw [(middle.fades_erase target).moves]
    exact h.claim other hother

/-- What is left of the site once the target is erased. -/
theorem erase (h : Slotted store middle stops tree spare target holder kind fresh) :
    Site (middle.erase target) stops (tree.put target fresh) spare ∧
      (middle.erase target).isErased target = true := by
  refine ⟨⟨?_, ?_, ?_, fun other hother => h.ready hother⟩, ?_⟩
  · refine h.site.held.put h.site.ne_target h.keeps_erase.grows ?_ h.filled.slots ?_
    · intro x hx hne
      exact ⟨h.filled.head x hx hne, h.keeps_erase.type x, h.filled.parent x hx hne,
        h.filled.erased x hx hne⟩
    · intro new up hnew hup
      obtain rfl : holder = up := Option.some.inj (h.link.symm.trans hup)
      obtain ⟨hheld, hlive⟩ := h.held_fresh hnew
      exact ⟨hheld.to_stops stops, hlive⟩
  · rw [Tree.id_put]
    exact fun hmem => h.site.root (List.mem_cons_of_mem _ hmem)
  · rw [Tree.shown_put h.site.ne_target (fun new hnew => (h.built new hnew).2.2)]
    exact Tree.nodup_flatMap_putId h.apart
  · apply Store.isErased_erase
    rw [h.keeps.size]
    exact Store.lt_of_parent h.link

end Slotted

theorem erased_root {later : Store} {fresh : List NodeId}
    (h : Site store (target :: stops) tree spare)
    (hfilled : Filled store later stops tree target fresh) :
    later.isErased tree.id = store.isErased tree.id :=
  hfilled.erased tree.id (Tree.id_mem_shown _ tree) h.ne_target

/-- A target stands in a slot of the node that its parent link names, once. -/
theorem slot (h : Site store (target :: stops) tree spare)
    (htarget : target ∈ tree.shown (target :: stops)) :
    ∃ holder ∈ tree.shown (target :: stops), holder ≠ target ∧
      store.parent target = some holder ∧ holder < store.size ∧
      target ∈ store.children holder ∧ (store.children holder).Nodup := by
  obtain ⟨holder, hshown, hpass, hlink, hslot, hsub⟩ :=
    h.held.slot_of_mem_shown htarget (fun he => h.ne_target he.symm)
  have hnodup := (List.nodup_append'.mp h.apart).1
  refine ⟨holder, hshown, fun he => hpass (he ▸ List.mem_cons_self), hlink, ?_, hslot,
    hnodup.sublist hsub⟩
  by_contra hge
  have hleaf := Store.node_of_size_le (Nat.le_of_not_lt hge)
  rw [Store.children, Store.kind, hleaf] at hslot
  exact absurd hslot List.not_mem_nil

/-- Replacing a target puts a tree into its slot. -/
theorem replace {new : Tree} {owner : Option NodeId}
    (h : Site store (target :: stops) tree spare)
    (htarget : target ∈ tree.shown (target :: stops))
    (hnew : new.Held store owner) (hlive : store.isErased new.id = false)
    (hplace : store.isMoving new.id = true ∨
      (store.claim? new.id = none ∧ store.parent new.id = none))
    (hstops : ∀ id, id ∈ new.ids → id ∉ stops)
    (hapart : (tree.shown (target :: stops) ++ new.ids ++ spare.flatMap Tree.ids).Nodup) :
    ∃ later, Build.replace target new.id store = .ok ((), later) ∧
      Site later stops (tree.put target (some new)) spare ∧ later.isErased target = true ∧
      store.Keeps later ∧ later.moves = (store.forgetMove new.id).moves ∧
      Filled store later stops tree target [new.id] := by
  obtain ⟨holder, hshown, hneTarget, hlink, hlt, hslot, hslotsNodup⟩ := h.slot htarget
  obtain ⟨kind, hkind⟩ : ∃ kind, (store.kind holder).replaceChild? target new.id = some kind := by
    refine Option.ne_none_iff_exists'.mp ?_
    intro hnone
    exact Kind.replaceChild?_eq_none_iff.mp hnone hslot
  have hout : ∀ x, x ∈ tree.shown (target :: stops) → x ≠ new.id := by
    intro x hx he
    rw [List.append_assoc, List.nodup_append'] at hapart
    exact hapart.2.2 hx (List.mem_append_left _ (he ▸ new.id_mem_ids))
  have hne : new.id ≠ holder := fun he => hout holder hshown he.symm
  have hnewLt : new.id < (store.setKind holder kind).size := by
    rw [Store.size_setKind]
    exact hnew.lt
  let middle := (store.setKind holder kind).placed new.id holder
  have hnode : ∀ x, middle.node x =
      if x = holder then { store.node x with kind := kind }
      else if x ∈ (some new).toList.map Tree.id then { store.node x with parent := some holder }
      else store.node x := by
    intro x
    rw [Store.node_placed hnewLt, Store.node_setKind hlt]
    by_cases hx : x = new.id
    · subst hx
      simp [hne]
    · simp [hx]
  have hkeeps : store.Keeps middle :=
    (Store.keeps_setKind store holder kind).trans (Store.keeps_placed _ new.id holder)
  have hclaimSpare : ∀ other, other ∈ spare → middle.claim? other.id = none := by
    intro other hother
    rw [Store.claim?_eq_none_iff]
    intro move hmove
    have hmem : move ∈ store.moves := (List.mem_filter.mp hmove).1
    exact Store.claim?_eq_none_iff.mp (h.ready other hother).2.2 move hmem
  have hchildren : kind.children = (store.children holder).flatMap
      (Tree.putId target ((some new).toList.map Tree.id)) := by
    rw [Kind.children_of_replaceChild? hkind]
    exact Tree.replace_eq_flatMap hslotsNodup target new.id
  have hslotted : Slotted store middle stops tree spare target holder kind (some new) := by
    refine ⟨h, ?_, by simpa using hapart, htarget, hlink, Kind.head_of_replaceChild? hkind,
      hchildren, hkeeps, hnode, hclaimSpare⟩
    intro other hother
    cases hother
    exact ⟨⟨owner, hnew⟩, hlive, hstops⟩
  obtain ⟨hsite, herased⟩ := hslotted.erase
  refine ⟨middle.erase target, ?_, hsite, herased, hslotted.keeps_erase, ?_, hslotted.filled⟩
  · exact Build.replace_ok hlink hlt hkind hnew.lt (fun he => hout target htarget he.symm)
      (hplace.imp_right (fun hfree => ⟨hfree.1, hfree.2, hlive⟩))
  · rw [(middle.fades_erase target).moves]
    rfl

theorem remove (h : Site store (target :: stops) tree spare)
    (htarget : target ∈ tree.shown (target :: stops))
    (hdrop : ∀ holder, store.parent target = some holder →
      ((store.kind holder).dropChild? target).isSome = true) :
    ∃ later, Build.remove target store = .ok ((), later) ∧
      Site later stops (tree.put target none) spare ∧ later.isErased target = true ∧
      store.Keeps later ∧ later.moves = store.moves ∧
      Filled store later stops tree target [] := by
  obtain ⟨holder, hshown, hneTarget, hlink, hlt, hslot, hslotsNodup⟩ := h.slot htarget
  obtain ⟨kind, hkind⟩ := Option.isSome_iff_exists.mp (hdrop holder hlink)
  obtain ⟨hhead, hchildren, _⟩ := Kind.of_dropChild? hkind hslotsNodup
  let middle := store.setKind holder kind
  have hnode : ∀ x, middle.node x =
      if x = holder then { store.node x with kind := kind }
      else if x ∈ (none : Option Tree).toList.map Tree.id
        then { store.node x with parent := some holder }
      else store.node x := by
    intro x
    rw [Store.node_setKind hlt]
    simp
  have hslotted : Slotted store middle stops tree spare target holder kind none := by
    refine ⟨h, ?_, by simpa using h.apart, htarget, hlink, hhead, ?_,
      Store.keeps_setKind store holder kind, hnode, fun other hother => (h.ready other hother).2.2⟩
    · intro other hother
      cases hother
    · rw [hchildren]
      exact Tree.erase_eq_flatMap hslotsNodup target
  obtain ⟨hsite, herased⟩ := hslotted.erase
  refine ⟨middle.erase target, ?_, hsite, herased, hslotted.keeps_erase, ?_, hslotted.filled⟩
  · exact Build.remove_ok hlink hlt hkind hneTarget.symm
  · rw [(middle.fades_erase target).moves]
    rfl

/-- The next targets are still shown after a change at another target. -/
theorem mem_shown_put (h : Site store (target :: stops) tree spare) {fresh : Option Tree}
    (hfresh : ∀ new, new ∈ fresh → ∀ id, id ∈ new.ids → id ∉ stops) {id : NodeId}
    (hid : id ∈ tree.shown (target :: stops)) (hne : id ≠ target) :
    id ∈ (tree.put target fresh).shown stops :=
  Tree.mem_shown_put h.ne_target hfresh hid hne

/-- Replacing target after target by the spare trees. -/
theorem replaceAll {pairs : List (NodeId × Tree)}
    (h : Site store (pairs.map Prod.fst) tree (pairs.map Prod.snd))
    (hdistinct : (pairs.map Prod.fst).Nodup)
    (htargets : ∀ pair, pair ∈ pairs → pair.1 ∈ tree.shown (pairs.map Prod.fst)) :
    ∃ later, (pairs.map (fun pair => Edit.mk pair.1 (.replace (.fresh pair.2.id)))).forM
        Build.applyEdit store = .ok ((), later) ∧
      Site later [] (pairs.foldl (fun tree pair => tree.put pair.1 (some pair.2)) tree) [] ∧
      (∀ pair, pair ∈ pairs → later.isErased pair.1 = true) ∧ store.Keeps later ∧
      later.moves = store.moves ∧ later.isErased tree.id = store.isErased tree.id := by
  induction pairs generalizing store tree with
  | nil => exact ⟨store, rfl, h, by simp, .refl store, rfl, rfl⟩
  | cons pair pairs ih =>
      obtain ⟨target, new⟩ := pair
      simp only [List.map_cons] at h hdistinct htargets
      rw [List.nodup_cons] at hdistinct
      have hapart := h.apart
      rw [List.flatMap_cons] at hapart
      obtain ⟨hheld, hlive, hclaim⟩ := h.ready new (by simp)
      have hnewOut : ∀ id, id ∈ new.ids → id ∉ pairs.map Prod.fst := by
        intro id hid hstop
        obtain ⟨pair, hpair, rfl⟩ := List.mem_map.mp hstop
        rw [List.nodup_append'] at hapart
        exact hapart.2.2 (htargets pair (List.mem_cons_of_mem _ hpair))
          (List.mem_append_left _ hid)
      have hsite : Site store (target :: pairs.map Prod.fst) tree (pairs.map Prod.snd) := by
        refine ⟨h.held, h.root, ?_, fun other hother =>
          h.ready other (List.mem_cons_of_mem _ hother)⟩
        exact hapart.sublist (List.Sublist.append_left (List.sublist_append_right _ _) _)
      obtain ⟨middle, hrun, hmiddle, herased, hkeeps, hmoves, hfilled⟩ := hsite.replace
        (htargets (target, new) (by simp)) hheld hlive (.inr ⟨hclaim, hheld.link⟩) hnewOut
        (by rwa [List.append_assoc])
      have hmoves' : middle.moves = store.moves := by
        rw [hmoves, Store.forgetMove_of_not_moving hclaim]
      obtain ⟨later, hruns, hlater, hall, hkeeps', hmoves'', hroot⟩ := ih hmiddle hdistinct.2 (by
        intro pair hpair
        refine hsite.mem_shown_put (fun other hother => ?_)
          (htargets pair (List.mem_cons_of_mem _ hpair)) ?_
        · cases hother
          exact hnewOut
        · intro he
          exact hdistinct.1 (he ▸ List.mem_map_of_mem hpair))
      rw [Tree.id_put] at hroot
      refine ⟨later, ?_, hlater, ?_, hkeeps.trans hkeeps', hmoves''.trans hmoves',
        hroot.trans (hsite.erased_root hfilled)⟩
      · exact (Build.bind_ok hrun).trans hruns
      · intro pair hpair
        rcases List.mem_cons.mp hpair with rfl | hrest
        · exact hkeeps'.erased target herased
        · exact hall pair hrest

end Site

/-! ## Whole commits -/

/-- A store that holds a tree and has nothing else to do: the state between offers. -/
structure Store.Holds (store : Store) (tree : Tree) : Prop where
  held : tree.Held store none
  nodup : tree.ids.Nodup
  idle : store.moves = []
  typed : store.TypesKnown

namespace Store

variable {store : Store} {tree : Tree}

theorem Holds.laid (h : store.Holds tree) : tree.Laid store :=
  h.held.laid

theorem Holds.height_le (h : store.Holds tree) : tree.height ≤ store.size :=
  h.laid.height_le h.nodup

theorem Holds.term_eq (h : store.Holds tree) : store.term tree.id = tree.term :=
  Store.term_laid h.laid h.height_le

theorem Holds.preorder_eq {below : Tree} (h : store.Holds tree) (hbelow : below ∈ tree.subtrees) :
    store.preorder below.id = below.ids :=
  (h.laid.of_mem hbelow).preorder_eq (Tree.nodup_ids_of_mem h.nodup hbelow)

theorem Holds.of_site {spare : List Tree} (h : Site store [] tree spare)
    (hmoves : store.moves = []) (hknown : store.TypesKnown) : store.Holds tree where
  held := h.held
  nodup := by
    have hnodup := (List.nodup_append'.mp h.apart).1
    rwa [tree.shown_nil] at hnodup
  idle := hmoves
  typed := hknown

end Store

/-- The later store has all nodes of the earlier one.  Nothing erased has come back, and the
root of the tree is as it was. -/
structure Store.Ages (base later : Store) (root : NodeId) : Prop where
  size : base.size ≤ later.size
  erased : ∀ id, base.isErased id = true → later.isErased id = true
  root : later.isErased root = base.isErased root

/-- Edits that run through leave a committed store, if no move is left. -/
theorem Build.commit_ok {edits : List Edit} {store later : Store}
    (hrun : edits.forM Build.applyEdit store.settle = .ok ((), later)) (hmoves : later.moves = []) :
    Build.commit edits store = .ok ((), later) := by
  unfold Build.commit
  rw [bind_ok (run_modify Store.settle store), bind_ok hrun, bind_ok (run_get later), hmoves]
  have hsame : later.forgetMoves = later := by
    cases later
    simp_all [Store.forgetMoves]
  show Except.ok ((), later.forgetMoves) = _
  rw [hsame]

namespace Draft

variable {base store : Store} {region stops : List NodeId} {tree new : Tree}
  {trees : List Tree}

theorem typesKnown_settle (h : Draft base region store trees) : store.settle.TypesKnown := by
  intro id number hnumber
  rw [h.node_settle] at hnumber
  rw [Store.types_settle]
  exact h.typed id number hnumber

/-- Settling does not touch the nodes of the live tree that could not be taken. -/
theorem node_settle_shown (h : Draft base region store trees) (hlaid : tree.Laid base)
    (hregion : ∀ id, id ∈ region → id ∉ tree.shown stops) {id : NodeId}
    (hid : id ∈ tree.shown stops) : store.settle.node id = base.node id := by
  have hlt := hlaid.lt (Tree.shown_subset_ids _ _ hid)
  have hclaim : store.claim? id = none := by
    apply h.claim?_eq_none
    intro hin
    rcases h.origin id hin with hge | hreg
    · exact absurd hlt (Nat.not_lt.mpr hge)
    · exact hregion id hreg hid
  exact h.settle_old hlt hclaim

/-- Settling leaves the live tree as it is down to the targets, if all that was taken
stood below them. -/
theorem heldTo_settle {owner : Option NodeId} (h : Draft base region store trees)
    (htree : tree.Held base owner) (hregion : ∀ id, id ∈ region → id ∉ tree.shown stops) :
    tree.HeldTo store.settle stops owner :=
  (htree.to_stops stops).mono (h.grows.trans (Store.grows_settle store))
    (fun _ hid => h.node_settle_shown htree.laid hregion hid)

theorem apart_shown (h : Draft base region store trees) (hlaid : tree.Laid base)
    (hnodup : (tree.shown stops).Nodup)
    (hregion : ∀ id, id ∈ region → id ∉ tree.shown stops) :
    (tree.shown stops ++ trees.flatMap Tree.ids).Nodup := by
  rw [List.nodup_append']
  refine ⟨hnodup, h.apart, ?_⟩
  intro id hshown hin
  rcases h.origin id hin with hge | hreg
  · exact absurd (hlaid.lt (Tree.shown_subset_ids _ _ hshown)) (Nat.not_lt.mpr hge)
  · exact hregion id hreg hshown

theorem mem_moves_settle {move : Move} :
    move ∈ store.settle.moves ↔ move ∈ store.moves ∧ move.claim = none := by
  simp [Store.settle]

/-- After settling, a loose tree is on the move or has no parent. -/
theorem placeable (h : Draft base region store trees) (hmem : new ∈ trees) :
    store.settle.isMoving new.id = true ∨
      (store.settle.claim? new.id = none ∧ store.settle.parent new.id = none) := by
  rcases (h.loose new hmem).2.1 with ⟨hclaim, _⟩ | ⟨hclaim, hparent⟩
  · left
    have hmove : ⟨new.id, none⟩ ∈ store.settle.moves :=
      mem_moves_settle.mpr ⟨Store.mem_of_claim? hclaim, rfl⟩
    simp only [Store.isMoving, List.any_eq_true]
    exact ⟨_, hmove, by simp⟩
  · right
    refine ⟨?_, ?_⟩
    · rw [Store.claim?_eq_none_iff]
      intro move hmove
      exact Store.claim?_eq_none_iff.mp hclaim move (mem_moves_settle.mp hmove).1
    · rw [Store.parent, h.node_settle]
      show store.link new.id = none
      rw [Store.link_of_unclaimed (.inl hclaim), hparent]

theorem live_settle (h : Draft base region store trees) (hmem : new ∈ trees) :
    store.settle.isErased new.id = false := by
  rw [Store.isErased, h.node_settle]
  exact (h.loose new hmem).1

/-- Once no loose tree is on the move, settling leaves no move. -/
theorem moves_settle (h : Draft base region store trees)
    (hfresh : ∀ other, other ∈ trees → store.claim? other.id = none) :
    store.settle.moves = [] := by
  rw [List.eq_nil_iff_forall_not_mem]
  intro move hmove
  obtain ⟨hmem, hnone⟩ := mem_moves_settle.mp hmove
  obtain ⟨other, hother, hid⟩ := List.mem_map.mp ((h.moving move hmem).2.2.1 hnone)
  exact Store.claim?_eq_none_iff.mp (hfresh other hother) move hmem hid.symm

/-- If only one loose tree is on the move, no move is left after it is placed. -/
theorem forgetMove_settle {spare : List Tree} (h : Draft base region store (new :: spare))
    (hspare : ∀ other, other ∈ spare → store.claim? other.id = none) :
    (store.settle.forgetMove new.id).moves = [] := by
  rw [Store.forgetMove, List.filter_eq_nil_iff]
  intro move hmove
  obtain ⟨hmove, hnone⟩ := mem_moves_settle.mp hmove
  have hroot := (h.moving move hmove).2.2.1 hnone
  rw [List.map_cons, List.mem_cons] at hroot
  rcases hroot with hself | hother
  · simpa using hself
  · obtain ⟨other, hmem, hid⟩ := List.mem_map.mp hother
    exact absurd hid.symm (Store.claim?_eq_none_iff.mp (hspare other hmem) move hmove)

/-- The site of a commit: `spare` are the loose trees that are not on the move. -/
theorem site {spare : List Tree} (h : Draft base region store trees) (hbase : base.Holds tree)
    (hspare : spare.Sublist trees)
    (hfresh : ∀ other, other ∈ spare → store.claim? other.id = none)
    (hroot : tree.id ∉ stops) (hregion : ∀ id, id ∈ region → id ∉ tree.shown stops) :
    Site store.settle stops tree spare := by
  have hshown : (tree.shown stops).Nodup := hbase.nodup.sublist (tree.shown_sublist_ids stops)
  have hapart := h.apart_shown hbase.laid hshown hregion
  refine ⟨h.heldTo_settle hbase.held hregion, hroot, ?_, ?_⟩
  · exact hapart.sublist (List.Sublist.append_left (hspare.flatMap _) _)
  · intro other hother
    have hmem := hspare.subset hother
    have hclaim := hfresh other hother
    rcases h.placeable hmem with hmoving | ⟨hnone, hparent⟩
    · rw [← Store.claim?_isSome] at hmoving
      obtain ⟨claim, hsome⟩ := Option.isSome_iff_exists.mp hmoving
      have hmove := (mem_moves_settle.mp (Store.mem_of_claim? hsome)).1
      exact absurd rfl (Store.claim?_eq_none_iff.mp hclaim _ hmove)
    · refine ⟨?_, h.live_settle hmem, hnone⟩
      have hheld := h.held other hmem
      have hlink := hheld.link
      rw [hparent] at hlink
      rwa [← hlink] at hheld

theorem commit_of_site {spare : List Tree} {edits : List Edit} {later : Store}
    (h : Draft base region store trees)
    (hrun : edits.forM Build.applyEdit store.settle = .ok ((), later))
    (hsite : Site later [] tree spare) (hkeeps : store.settle.Keeps later)
    (hmoves : later.moves = []) {root : NodeId} (hlt : root < base.size)
    (hroot : later.isErased root = store.settle.isErased root) :
    Build.commit edits store = .ok ((), later) ∧ later.Holds tree ∧ base.Ages later root := by
  have hsettled : ∀ id, id < base.size → store.settle.isErased id = base.isErased id := by
    intro id hid
    rw [Store.isErased, h.node_settle, h.old id hid]
    rfl
  refine ⟨Build.commit_ok hrun hmoves,
    .of_site hsite hmoves (hkeeps.typesKnown h.typesKnown_settle), ?_, ?_, ?_⟩
  · rw [hkeeps.size, Store.size_settle]
    exact h.grows.size
  · intro id hid
    apply hkeeps.erased
    have hlt : id < base.size := by
      by_contra hge
      rw [Store.isErased, Store.node_of_size_le (Nat.le_of_not_lt hge)] at hid
      cases hid
    rw [hsettled id hlt]
    exact hid
  · rw [hroot, hsettled root hlt]

theorem run_applyEdit (edit : Edit) {middle : Store} (edits : List Edit)
    (h : Build.applyEdit edit store = .ok ((), middle)) :
    (edit :: edits).forM Build.applyEdit store = edits.forM Build.applyEdit middle :=
  Build.bind_ok h

/-- Committing the replacement of one node by a tree drafted from what is below it. -/
theorem commit_replace {old : Tree} (h : Draft base region store [new]) (hbase : base.Holds tree)
    (hold : old ∈ tree.subtrees) (hne : old ≠ tree) (hregion : region ⊆ old.subs.flatMap Tree.ids)
    {child : Child} (hchild : child.node = new.id) :
    ∃ later, Build.commit [⟨old.id, .replace child⟩] store = .ok ((), later) ∧
      later.Holds (tree.put old.id (some new)) ∧
      base.Ages later tree.id := by
  have hout : ∀ id, id ∈ region → id ∉ tree.shown [old.id] :=
    fun id hid => Tree.not_mem_shown hbase.nodup hold (by simp) (hregion hid)
  have hroot : tree.id ∉ [old.id] := by simpa using Tree.id_ne_of_mem hbase.nodup hold hne
  have hsite : Site store.settle [old.id] tree [] :=
    h.site hbase (List.nil_sublist _) (by simp) hroot hout
  have htarget : old.id ∈ tree.shown [old.id] := by
    apply Tree.mem_shown hold
    intro above habove hid _
    exact Tree.eq_of_id_eq hbase.nodup habove hold (by simpa using hid)
  have hapart := h.apart_shown hbase.laid
    (hbase.nodup.sublist (tree.shown_sublist_ids [old.id])) hout
  obtain ⟨later, hrun, hsite', _, hkeeps, hmoves, hfilled⟩ := hsite.replace htarget
    (h.held new (by simp)) (h.live_settle (by simp)) (h.placeable (by simp)) (by simp)
    (by simpa using hapart)
  rw [h.forgetMove_settle (by simp)] at hmoves
  rw [← hchild] at hrun
  exact ⟨later, h.commit_of_site (run_applyEdit ⟨old.id, .replace child⟩ [] hrun) hsite' hkeeps
    hmoves (hbase.laid.lt tree.id_mem_ids) (hsite.erased_root hfilled)⟩

/-- Committing the removal of one node from a slot that may be empty. -/
theorem commit_remove {old : Tree} (h : Draft base region store []) (hbase : base.Holds tree)
    (hold : old ∈ tree.subtrees) (hne : old ≠ tree) (hremove : base.canRemove old.id = true) :
    ∃ later, Build.commit [⟨old.id, .remove⟩] store = .ok ((), later) ∧
      later.Holds (tree.put old.id none) ∧
      base.Ages later tree.id := by
  have hroot : tree.id ∉ [old.id] := by simpa using Tree.id_ne_of_mem hbase.nodup hold hne
  -- No loose tree means that nothing was taken, whatever the region allowed.
  have h' : Draft base [] store [] := { h with origin := by simp }
  have hsite : Site store.settle [old.id] tree [] :=
    h'.site hbase (List.nil_sublist _) (by simp) hroot (by simp)
  have htarget : old.id ∈ tree.shown [old.id] := by
    apply Tree.mem_shown hold
    intro above habove hid _
    exact Tree.eq_of_id_eq hbase.nodup habove hold (by simpa using hid)
  obtain ⟨holder, hholder, hslot⟩ := Tree.exists_holder hold hne
  have hlink : base.parent old.id = some holder.id := (hbase.held.of_slot hholder hslot).link
  have hsame : ∀ id, id ∈ tree.ids → store.settle.node id = base.node id :=
    fun id hid => h.settle_old (hbase.laid.lt hid) (h.claim?_eq_none (by simp))
  have hdrop : ∀ up, store.settle.parent old.id = some up →
      ((store.settle.kind up).dropChild? old.id).isSome = true := by
    intro up hup
    rw [Store.parent, hsame _ (Tree.ids_subset_of_mem hold old.id_mem_ids)] at hup
    have hbaseUp : base.parent old.id = some up := hup
    rw [hlink, Option.some.injEq] at hbaseUp
    subst hbaseUp
    rw [Store.canRemove, hlink] at hremove
    rw [Store.kind, hsame _ (Tree.ids_subset_of_mem hholder holder.id_mem_ids)]
    exact hremove
  obtain ⟨later, hrun, hsite', _, hkeeps, hmoves, hfilled⟩ := hsite.remove htarget hdrop
  rw [h.moves_settle (by simp)] at hmoves
  exact ⟨later, h.commit_of_site (run_applyEdit ⟨old.id, .remove⟩ [] hrun) hsite' hkeeps hmoves
    (hbase.laid.lt tree.id_mem_ids) (hsite.erased_root hfilled)⟩

theorem mem_shown_of_apart {olds : List Tree} (hnodup : tree.ids.Nodup)
    (holds : ∀ old, old ∈ olds → old ∈ tree.subtrees)
    (hapart : (olds.flatMap Tree.ids).Nodup) {old : Tree} (hold : old ∈ olds) :
    old.id ∈ tree.shown (olds.map Tree.id) := by
  apply Tree.mem_shown (holds old hold)
  intro above habove hid hin
  obtain ⟨other, hother, he⟩ := List.mem_map.mp hid
  have heq : other = above := Tree.eq_of_id_eq hnodup (holds other hother) habove he
  subst heq
  exact Tree.eq_of_common_id hapart hother hold (Tree.mem_ids_iff.mpr ⟨old, hin, rfl⟩)
    old.id_mem_ids

/-- Committing the replacement of several nodes, none below another, by new trees. -/
theorem commit_replaceAll {pairs : List (Tree × Tree)}
    (h : Draft base region store (pairs.map Prod.snd)) (hbase : base.Holds tree)
    (hfresh : ∀ pair, pair ∈ pairs → store.claim? pair.2.id = none)
    (holds : ∀ pair, pair ∈ pairs → pair.1 ∈ tree.subtrees ∧ pair.1 ≠ tree)
    (hapart : ((pairs.map Prod.fst).flatMap Tree.ids).Nodup)
    (hregion : ∀ id, id ∈ region → ∃ pair ∈ pairs, id ∈ pair.1.subs.flatMap Tree.ids) :
    ∃ later, Build.commit
        (pairs.map (fun pair => Edit.mk pair.1.id (.replace (.fresh pair.2.id)))) store =
        .ok ((), later) ∧
      (later.Holds (pairs.foldl (fun tree pair => tree.put pair.1.id (some pair.2)) tree) ∧
        base.Ages later tree.id) ∧
      ∀ pair, pair ∈ pairs → later.isErased pair.1.id = true := by
  let targets : List (NodeId × Tree) := pairs.map (fun pair => (pair.1.id, pair.2))
  have hfst : targets.map Prod.fst = (pairs.map Prod.fst).map Tree.id := by
    simp [targets, Function.comp_def]
  have hsnd : targets.map Prod.snd = pairs.map Prod.snd := by
    simp [targets, Function.comp_def]
  have hmem : ∀ old, old ∈ pairs.map Prod.fst → old ∈ tree.subtrees := by
    intro old hold
    obtain ⟨pair, hpair, rfl⟩ := List.mem_map.mp hold
    exact (holds pair hpair).1
  have hclaims : ∀ other, other ∈ pairs.map Prod.snd → store.claim? other.id = none := by
    intro other hother
    obtain ⟨pair, hpair, rfl⟩ := List.mem_map.mp hother
    exact hfresh pair hpair
  have hsite : Site store.settle (targets.map Prod.fst) tree (targets.map Prod.snd) := by
    rw [hfst, hsnd]
    refine h.site hbase (List.Sublist.refl _) hclaims ?_ ?_
    · intro hroot
      obtain ⟨old, hold, he⟩ := List.mem_map.mp hroot
      obtain ⟨pair, hpair, rfl⟩ := List.mem_map.mp hold
      exact Tree.id_ne_of_mem hbase.nodup (holds pair hpair).1 (holds pair hpair).2 he.symm
    · intro id hid
      obtain ⟨pair, hpair, hin⟩ := hregion id hid
      exact Tree.not_mem_shown hbase.nodup (holds pair hpair).1
        (List.mem_map_of_mem (List.mem_map_of_mem hpair)) hin
  obtain ⟨later, hrun, hlater, herased, hkeeps, hmoves, hroot⟩ := hsite.replaceAll
    (by rw [hfst]; exact Tree.nodup_map_id hapart) (by
      intro target htarget
      obtain ⟨pair, hpair, rfl⟩ := List.mem_map.mp htarget
      rw [hfst]
      exact mem_shown_of_apart hbase.nodup hmem hapart (List.mem_map_of_mem hpair))
  rw [h.moves_settle hclaims] at hmoves
  have hedits : targets.map (fun pair => Edit.mk pair.1 (.replace (.fresh pair.2.id))) =
      pairs.map (fun pair => Edit.mk pair.1.id (.replace (.fresh pair.2.id))) := by
    simp [targets, Function.comp_def]
  have htree : targets.foldl (fun tree pair => tree.put pair.1 (some pair.2)) tree =
      pairs.foldl (fun tree pair => tree.put pair.1.id (some pair.2)) tree := by
    simp only [targets, List.foldl_map]
  rw [hedits] at hrun
  rw [htree] at hlater
  obtain ⟨hcommit, hholds⟩ := h.commit_of_site hrun hlater hkeeps hmoves
    (hbase.laid.lt tree.id_mem_ids) hroot
  refine ⟨later, hcommit, hholds, ?_⟩
  intro pair hpair
  exact herased (pair.1.id, pair.2) (List.mem_map_of_mem hpair)

/-! ## Two edits -/

/-- The first of two edits puts a tree drafted from below the second target into the slot
of the first. -/
theorem replace_first {first second : Tree} {spare : List Tree}
    (h : Draft base region store (new :: spare)) (hbase : base.Holds tree)
    (hspare : ∀ other, other ∈ spare → store.claim? other.id = none)
    (hfirst : first ∈ tree.subtrees) (hfirstNe : first ≠ tree)
    (hsecond : second ∈ tree.subtrees) (hsecondNe : second ≠ tree)
    (hapart : ([first, second].flatMap Tree.ids).Nodup)
    (hregion : region ⊆ second.subs.flatMap Tree.ids) :
    ∃ middle, Build.replace first.id new.id store.settle = .ok ((), middle) ∧
      Site middle [second.id] (tree.put first.id (some new)) spare ∧
      second.id ∈ (tree.put first.id (some new)).shown [second.id] ∧
      store.settle.Keeps middle ∧ middle.moves = [] ∧
      middle.isErased tree.id = store.settle.isErased tree.id ∧
      Site.Filled store.settle middle [second.id] tree first.id [new.id] := by
  have hmem : ∀ old, old ∈ [first, second] → old ∈ tree.subtrees := by
    simp [hfirst, hsecond]
  have hshown := fun old (hold : old ∈ [first, second]) =>
    mem_shown_of_apart hbase.nodup hmem hapart hold
  have hroot : tree.id ∉ [first.id, second.id] := by
    simp only [List.mem_cons, List.not_mem_nil, or_false, not_or]
    exact ⟨Tree.id_ne_of_mem hbase.nodup hfirst hfirstNe,
      Tree.id_ne_of_mem hbase.nodup hsecond hsecondNe⟩
  have hout : ∀ id, id ∈ region → id ∉ tree.shown [first.id, second.id] :=
    fun id hid => Tree.not_mem_shown hbase.nodup hsecond (by simp) (hregion hid)
  have hsite : Site store.settle [first.id, second.id] tree spare :=
    h.site hbase (List.sublist_cons_self _ _) hspare hroot hout
  have hall := h.apart_shown hbase.laid
    (hbase.nodup.sublist (tree.shown_sublist_ids [first.id, second.id])) hout
  have hnewOut : ∀ id, id ∈ new.ids → id ∉ [second.id] := by
    intro id hid hstop
    rw [List.mem_singleton] at hstop
    rw [List.nodup_append', List.flatMap_cons] at hall
    exact hall.2.2 (hshown second (by simp)) (List.mem_append_left _ (hstop ▸ hid))
  obtain ⟨middle, hrun, hmiddle, -, hkeeps, hmoves, hfilled⟩ := hsite.replace
    (hshown first (by simp)) (h.held new (by simp)) (h.live_settle (by simp))
    (h.placeable (by simp)) hnewOut (by simpa [List.append_assoc] using hall)
  rw [h.forgetMove_settle hspare] at hmoves
  have hne : second.id ≠ first.id := by
    intro he
    have hids := Tree.nodup_map_id hapart
    simp [he] at hids
  refine ⟨middle, hrun, hmiddle, ?_, hkeeps, hmoves, hsite.erased_root hfilled, hfilled⟩
  refine hsite.mem_shown_put (fun other hother => ?_) (hshown second (by simp)) hne
  cases hother
  exact hnewOut

/-- Committing a replacement and the replacement of the node that it was drafted from. -/
theorem commit_replace_replace {first second last : Tree}
    (h : Draft base region store [new, last]) (hbase : base.Holds tree)
    (hlast : store.claim? last.id = none)
    (hfirst : first ∈ tree.subtrees) (hfirstNe : first ≠ tree)
    (hsecond : second ∈ tree.subtrees) (hsecondNe : second ≠ tree)
    (hapart : ([first, second].flatMap Tree.ids).Nodup)
    (hregion : region ⊆ second.subs.flatMap Tree.ids) {child : Child}
    (hchild : child.node = new.id) :
    ∃ later, Build.commit [⟨first.id, .replace child⟩, ⟨second.id, .replace (.fresh last.id)⟩]
        store = .ok ((), later) ∧
      later.Holds ((tree.put first.id (some new)).put second.id (some last)) ∧
      base.Ages later tree.id := by
  obtain ⟨middle, hrun, hmiddle, hshown, hkeeps, hmoves, hroot, -⟩ := h.replace_first hbase
    (by simpa using hlast) hfirst hfirstNe hsecond hsecondNe hapart hregion
  obtain ⟨later, hruns, hlater, -, hkeeps', hmoves', hroot'⟩ :=
    @Site.replaceAll middle (tree.put first.id (some new)) [(second.id, last)] hmiddle
      (by simp) (by simpa using hshown)
  rw [← hchild] at hrun
  rw [hmoves] at hmoves'
  rw [Tree.id_put] at hroot'
  refine ⟨later, h.commit_of_site ?_ hlater (hkeeps.trans hkeeps') hmoves'
    (hbase.laid.lt tree.id_mem_ids) (hroot'.trans hroot)⟩
  exact (run_applyEdit ⟨first.id, .replace child⟩ _ hrun).trans hruns

/-- Committing a replacement and the removal of the node that it was drafted from. -/
theorem commit_replace_remove {first second : Tree} (h : Draft base region store [new])
    (hbase : base.Holds tree) (hfirst : first ∈ tree.subtrees) (hfirstNe : first ≠ tree)
    (hsecond : second ∈ tree.subtrees) (hsecondNe : second ≠ tree)
    (hapart : ([first, second].flatMap Tree.ids).Nodup)
    (hregion : region ⊆ second.subs.flatMap Tree.ids)
    (hremove : base.canRemove second.id = true) {child : Child} (hchild : child.node = new.id) :
    ∃ later, Build.commit [⟨first.id, .replace child⟩, ⟨second.id, .remove⟩] store =
        .ok ((), later) ∧
      later.Holds ((tree.put first.id (some new)).put second.id none) ∧
      base.Ages later tree.id := by
  obtain ⟨middle, hrun, hmiddle, hshown, hkeeps, hmoves, hroot, hfilled⟩ := h.replace_first hbase
    (by simp) hfirst hfirstNe hsecond hsecondNe hapart hregion
  have hout : ∀ id, id ∈ region → id ∉ tree.shown [first.id, second.id] :=
    fun id hid => Tree.not_mem_shown hbase.nodup hsecond (by simp) (hregion hid)
  have hsame := fun id (hid : id ∈ tree.shown [first.id, second.id]) =>
    h.node_settle_shown hbase.laid hout hid
  have hsecondShown : second.id ∈ tree.shown [first.id, second.id] :=
    mem_shown_of_apart hbase.nodup (by simp [hfirst, hsecond]) hapart (by simp)
  have hne : second.id ≠ first.id := by
    intro he
    have hids := Tree.nodup_map_id hapart
    simp [he] at hids
  obtain ⟨holder, hholder, hpass, hlink, hslot, hslots⟩ :=
    (h.heldTo_settle hbase.held hout).slot_of_mem_shown hsecondShown
      (Tree.id_ne_of_mem hbase.nodup hsecond hsecondNe).symm
  have hdropSettle : ((store.settle.kind holder).dropChild? second.id).isSome = true := by
    have hbaseLink : base.parent second.id = some holder := by
      rw [Store.parent, ← hsame _ hsecondShown]
      exact hlink
    rw [Store.canRemove, hbaseLink] at hremove
    rw [Store.kind, hsame _ hholder]
    exact hremove
  have hdrop : ∀ up, middle.parent second.id = some up →
      ((middle.kind up).dropChild? second.id).isSome = true := by
    intro up hup
    obtain ⟨up', -, -, hlink', -, -, hnodup⟩ := hmiddle.slot hshown
    obtain rfl : up = up' := Option.some.inj (hup.symm.trans hlink')
    obtain rfl : holder = up := by
      rw [hfilled.parent _ hsecondShown hne, hlink] at hup
      exact Option.some.inj hup
    rw [hfilled.isSome_dropChild? hholder hpass hslot hne
      ((hbase.nodup.sublist (tree.shown_sublist_ids _)).sublist hslots) hnodup]
    exact hdropSettle
  obtain ⟨later, hruns, hlater, -, hkeeps', hmoves', hfilled'⟩ := hmiddle.remove hshown hdrop
  have hroot' := hmiddle.erased_root hfilled'
  rw [Tree.id_put] at hroot'
  rw [← hchild] at hrun
  rw [hmoves] at hmoves'
  refine ⟨later, h.commit_of_site ?_ hlater (hkeeps.trans hkeeps') hmoves'
    (hbase.laid.lt tree.id_mem_ids) (hroot'.trans hroot)⟩
  exact (run_applyEdit ⟨first.id, .replace child⟩ _ hrun).trans
    (run_applyEdit ⟨second.id, .remove⟩ [] hruns)

end Draft

end CodeTidy
