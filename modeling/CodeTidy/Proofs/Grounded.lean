import CodeTidy.Proofs.Ownership
import Mathlib.Data.Fintype.EquivFin
import Mathlib.Logic.Relation

/-!
# Paths that end

Below a node of a valid tree every path through the slots ends, and none is longer than the
store.  That is all that a recursion along the slots needs: its bound is never reached
(`Store.IsBounded.fold_eq`), whatever the types of the nodes are and however often a node is
held.

A visit of rules follows fewer paths, for it leaves out children that are erased or owned by
another node.  It ends if no path of this kind leads from the node back to itself
(`Store.Walkable`), because nodes on such paths have one parent each.
-/

namespace CodeTidy

namespace Store

variable {store : Store}

/-! ## Valid trees -/

/-- The node exists, and the ownership check finds nothing at or below it. -/
def ValidAt (store : Store) (id : NodeId) : Prop :=
  id < store.size ∧ store.violations id = []

instance (store : Store) (id : NodeId) : Decidable (store.ValidAt id) :=
  inferInstanceAs (Decidable (_ ∧ _))

/-- Every path from the node through the slots ends after this many nodes at most. -/
inductive Grounded (store : Store) : Nat → NodeId → Prop where
  | node {height : Nat} {id : NodeId} (lt : id < store.size)
      (slots : ∀ child, child ∈ store.children id → Grounded store height child) :
      Grounded store (height + 1) id

theorem Grounded.lt {height : Nat} {id : NodeId} (h : store.Grounded height id) :
    id < store.size := by
  cases h with
  | node lt _ => exact lt

theorem Grounded.slot {height : Nat} {id child : NodeId} (h : store.Grounded height id)
    (hchild : child ∈ store.children id) : store.Grounded (height - 1) child := by
  cases h with
  | node _ slots => exact slots child hchild

theorem Grounded.mono {height bound : Nat} {id : NodeId} (h : store.Grounded height id)
    (hle : height ≤ bound) : store.Grounded bound id := by
  induction h generalizing bound with
  | @node height id lt slots ih =>
      cases bound with
      | zero => omega
      | succ bound => exact .node lt (fun child hchild => ih child hchild (by omega))

theorem grounded_of_laid {tree : Tree} (h : tree.Laid store) {height : Nat}
    (hheight : tree.height ≤ height) : store.Grounded height tree.id := by
  induction tree generalizing height with
  | node id head type subs ih =>
      have hpos := Tree.height_pos (.node id head type subs)
      cases height with
      | zero => omega
      | succ height =>
          refine .node h.shown_by.lt ?_
          intro child hchild
          rw [Tree.id_node, h.shown_by.children] at hchild
          obtain ⟨sub, hsub, rfl⟩ := List.mem_map.mp hchild
          have hlt := Tree.height_slot_lt id head type hsub
          exact ih sub hsub (h.sub hsub) (by omega)

def untyped (store : Store) : Store :=
  { store with nodes := store.nodes.map (fun found => { found with type := none }) }

theorem node_untyped (store : Store) (id : NodeId) :
    store.untyped.node id = { store.node id with type := none } := by
  unfold node untyped
  rw [Array.getD_eq_getD_getElem?, Array.getD_eq_getD_getElem?, Array.getElem?_map]
  cases store.nodes[id]? <;> rfl

theorem size_untyped (store : Store) : store.untyped.size = store.size :=
  Array.size_map ..

theorem children_untyped (store : Store) (id : NodeId) :
    store.untyped.children id = store.children id := by
  unfold children kind
  rw [node_untyped]

theorem inspectSlots_untyped (store : Store) (holder : NodeId) (seen slots : List NodeId) :
    store.untyped.inspectSlots holder seen slots = store.inspectSlots holder seen slots := by
  induction slots generalizing seen with
  | nil => rfl
  | cons child rest ih =>
      unfold inspectSlots
      simp only [ih, childViolations, isErased, parent, node_untyped]
      rfl

/-- The ownership check does not look at types. -/
theorem violations_untyped (store : Store) (root : NodeId) :
    store.untyped.violations root = store.violations root := by
  have hsearch : ∀ steps seen waiting, store.untyped.searchSteps steps seen waiting =
      store.searchSteps steps seen waiting := by
    intro steps
    induction steps with
    | zero => exact fun _ _ => rfl
    | succ steps ih =>
        intro seen waiting
        cases waiting with
        | nil => rfl
        | cons holder waiting =>
            unfold searchSteps
            simp only [ih, inspectSlots_untyped, children_untyped]
  unfold violations
  rw [hsearch, size_untyped]
  rfl

theorem Grounded.of_untyped {height : Nat} {id : NodeId} (h : store.untyped.Grounded height id) :
    store.Grounded height id := by
  induction h with
  | @node height id lt slots ih =>
      rw [children_untyped] at ih
      exact .node (size_untyped store ▸ lt) ih

/-- No path of a valid tree is longer than the store. -/
theorem ValidAt.grounded {id : NodeId} (h : store.ValidAt id) :
    store.Grounded store.size id := by
  have hknown : store.untyped.TypesKnown := by
    intro other number htype
    rw [node_untyped] at htype
    cases htype
  have hnone : store.untyped.violations id = [] := (violations_untyped store id).trans h.2
  obtain ⟨-, tree, rfl, hnodup, hheld⟩ :=
    (violations_eq_nil_iff hknown (by rw [size_untyped]; exact h.1)).mp hnone
  have hheight := hheld.laid.height_le hnodup
  rw [size_untyped] at hheight
  exact (grounded_of_laid hheld.laid hheight).of_untyped

theorem ValidAt.moves {id : NodeId} (h : store.ValidAt id) : store.moves = [] := by
  have hnone := (List.append_eq_nil_iff.mp h.2).1
  by_contra hne
  simp [hne] at hnone

theorem forgetMoves_of_nil (h : store.moves = []) : store.forgetMoves = store := by
  unfold forgetMoves
  rw [← h]

/-! ## Recursion along bounded paths -/

/-- Every path from the node through the slots ends, and none is longer than the store. -/
def IsBounded (store : Store) (id : NodeId) : Prop :=
  store.Grounded store.size id

theorem ValidAt.isBounded {id : NodeId} (h : store.ValidAt id) : store.IsBounded id :=
  h.grounded

namespace IsBounded

variable {id child root : NodeId} {α : Type}

theorem slot (h : store.IsBounded id) (hchild : child ∈ store.children id) :
    store.IsBounded child :=
  (Grounded.slot h hchild).mono (Nat.sub_le ..)

/-- A property of a node follows if it passes from the slots to the node. -/
@[elab_as_elim]
theorem induct {motive : ∀ id, store.IsBounded id → Prop}
    (node : ∀ id (h : store.IsBounded id),
      (∀ child (hchild : child ∈ store.children id), motive child (h.slot hchild)) →
        motive id h)
    (h : store.IsBounded id) : motive id h := by
  have hany : ∀ height id, store.Grounded height id → height ≤ store.size →
      ∀ h : store.IsBounded id, motive id h := by
    intro height id hground
    induction hground with
    | @node height id lt slots ih =>
        intro hle h
        exact node id h (fun child hchild => ih child hchild (by omega) (h.slot hchild))
  exact hany store.size id h (Nat.le_refl _) h

/-- Neither the bound on the steps nor the value at the end of endless paths plays a part. -/
theorem foldSteps_eq {bottom bottom' : α} {step : NodeId → Node → (NodeId → α) → α}
    (hlocal : store.IsLocal step) {height m n : Nat} (h : store.Grounded height id)
    (hm : height ≤ m) (hn : height ≤ n) :
    store.foldSteps bottom step m id = store.foldSteps bottom' step n id := by
  induction h generalizing m n with
  | @node height id lt slots ih =>
      obtain ⟨m, rfl⟩ : ∃ m', m = m' + 1 := ⟨m - 1, by omega⟩
      obtain ⟨n, rfl⟩ : ∃ n', n = n' + 1 := ⟨n - 1, by omega⟩
      rw [foldSteps_succ, foldSteps_succ]
      apply hlocal
      intro child hchild
      exact ih child hchild (by omega) (by omega)

theorem fold_eq {bottom bottom' : α} {step : NodeId → Node → (NodeId → α) → α}
    (h : store.IsBounded id) (hlocal : store.IsLocal step) :
    store.fold bottom step id = step id (store.node id) (store.fold bottom' step) := by
  unfold fold
  rw [foldSteps_succ]
  apply hlocal
  intro child hchild
  exact foldSteps_eq hlocal (h.slot hchild) (Nat.le_refl _) (Nat.le_succ _)

/-- A listing that follows slots only, one node after the other. -/
theorem listing_eq {next : NodeId → List NodeId} (h : store.IsBounded id)
    (hnext : ∀ here, next here ⊆ store.children here) :
    store.listing next id = id :: (next id).flatMap (store.listing next) := by
  have hlocal : store.IsLocal (fun here _ (below : NodeId → List NodeId) =>
      here :: (next here).flatMap below) := by
    intro here f g hsame
    simp only [List.cons.injEq, true_and]
    exact List.flatMap_congr (fun child hchild => hsame child (hnext here hchild))
  exact h.fold_eq hlocal

theorem preorder_eq (h : store.IsBounded id) :
    store.preorder id = id :: (store.children id).flatMap store.preorder :=
  h.listing_eq (fun _ => List.Subset.refl _)

theorem of_mem_preorder (h : store.IsBounded root) (hid : id ∈ store.preorder root) :
    store.IsBounded id := by
  induction h using induct with
  | node root hroot ih =>
      rw [hroot.preorder_eq, List.mem_cons, List.mem_flatMap] at hid
      rcases hid with rfl | ⟨child, hchild, hbelow⟩
      · exact hroot
      · exact ih child hchild hbelow

end IsBounded

/-! ## Walks along owned links -/

/-- A visit goes on from the holder to the child: the child stands in a slot of the holder,
its parent link names the holder, and it is not erased. -/
def Enters (store : Store) (holder child : NodeId) : Prop :=
  child ∈ store.children holder ∧ store.isErased child = false ∧ store.parent child = some holder

instance (store : Store) (holder child : NodeId) : Decidable (store.Enters holder child) :=
  inferInstanceAs (Decidable (_ ∧ _ ∧ _))

/-- Walks from the node meet only nodes of the store, and none of them comes back to it. -/
structure Walkable (store : Store) (top : NodeId) : Prop where
  lt : top < store.size
  slots : ∀ id, Relation.ReflTransGen store.Enters top id →
    ∀ child, child ∈ store.children id → child < store.size
  apart : ¬ Relation.TransGen store.Enters top top

namespace Walkable

variable {top id : NodeId}

theorem lt_of_reach (h : store.Walkable top) (hreach : Relation.ReflTransGen store.Enters top id) :
    id < store.size := by
  cases hreach with
  | refl => exact h.lt
  | tail hbefore hlast => exact h.slots _ hbefore _ hlast.1

/-- A circle on the way would go through the parent of its entry, and so back to the top. -/
theorem apart_of_reach (h : store.Walkable top)
    (hreach : Relation.ReflTransGen store.Enters top id) :
    ¬ Relation.TransGen store.Enters id id := by
  induction hreach with
  | refl => exact h.apart
  | @tail holder child _ hlast ih =>
      intro hcircle
      obtain ⟨owner, hback, howner⟩ := Relation.TransGen.tail'_iff.mp hcircle
      obtain rfl : owner = holder := Option.some.inj (howner.2.2.symm.trans hlast.2.2)
      exact ih (.head' hlast hback)

theorem of_reach (h : store.Walkable top) (hreach : Relation.ReflTransGen store.Enters top id) :
    store.Walkable id where
  lt := h.lt_of_reach hreach
  slots _ hbelow := h.slots _ (hreach.trans hbelow)
  apart := h.apart_of_reach hreach

theorem of_enters {child : NodeId} (h : store.Walkable top) (henters : store.Enters top child) :
    store.Walkable child :=
  h.of_reach (.single henters)

/-- A property of a node follows if it passes to the node from those that a visit enters. -/
@[elab_as_elim]
theorem induct {motive : ∀ id, store.Walkable id → Prop}
    (node : ∀ id (h : store.Walkable id),
      (∀ child (henters : store.Enters id child), motive child (h.of_enters henters)) → motive id h)
    (h : store.Walkable top) : motive top h := by
  let Region := { id // Relation.ReflTransGen store.Enters top id }
  have hfinite : Finite Region :=
    Finite.of_injective (fun here : Region => (⟨here.1, h.lt_of_reach here.2⟩ : Fin store.size))
      (fun _ _ hsame => Subtype.ext (Fin.mk.inj hsame))
  let Below (low high : Region) : Prop := Relation.TransGen store.Enters high.1 low.1
  have htrans : IsTrans Region Below := ⟨fun _ _ _ hlow hhigh => hhigh.trans hlow⟩
  have hirrefl : Std.Irrefl Below := ⟨fun here => h.apart_of_reach here.2⟩
  have hregion : ∀ here : Region, motive here.1 (h.of_reach here.2) := by
    intro here
    induction here using (Finite.wellFounded_of_trans_of_irrefl Below).induction with
    | _ here ih =>
        refine node here.1 (h.of_reach here.2) ?_
        exact fun child henters => ih ⟨child, here.2.tail henters⟩ (.single henters)
  exact hregion ⟨top, .refl⟩

end Walkable

namespace IsBounded

variable {id top : NodeId}

theorem of_reach (h : store.IsBounded top) (hreach : Relation.ReflTransGen store.Enters top id) :
    store.IsBounded id := by
  induction hreach with
  | refl => exact h
  | tail _ hlast ih => exact ih.slot hlast.1

theorem walkable (h : store.IsBounded top) : store.Walkable top where
  lt := Grounded.lt h
  slots _ hreach _ hchild := ((h.of_reach hreach).slot hchild).lt
  apart := by
    induction h using induct with
    | node top _ ih =>
        intro hcircle
        obtain ⟨child, henters, hback⟩ := Relation.TransGen.head'_iff.mp hcircle
        exact ih child henters.1 (.tail' hback henters)

end IsBounded

theorem ValidAt.walkable {id : NodeId} (h : store.ValidAt id) : store.Walkable id :=
  h.isBounded.walkable

/-- Requested moves do not change where a visit goes. -/
theorem walkable_forgetMoves {id : NodeId} :
    store.forgetMoves.Walkable id ↔ store.Walkable id :=
  ⟨fun h => ⟨h.lt, h.slots, h.apart⟩, fun h => ⟨h.lt, h.slots, h.apart⟩⟩

end Store

end CodeTidy
