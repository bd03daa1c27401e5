import CodeTidy.Proofs.Dissolution

/-!
# Parts that are adopted before the commit

Breaking a new node up takes the parent links of its parts away at once, also where a part was
taken from the live tree.  The next holder of such a part owns it from then on, without waiting
for the commit.  `Store.Anticipates` compares the store with a plan in which such parts are on
the move like all that was taken.  Building goes on alike in both, and once every part has found
a place, settling the claims leaves no difference (`Store.Anticipates.settle_eq`).
-/

namespace CodeTidy

def Node.alone (node : Node) : Node :=
  { node with parent := none }

namespace Store

variable {store plan later after : Store} {id child holder x : NodeId}

/-! ## Comparing a store with a plan -/

/-- How a node stands in the store, compared with the plan. -/
inductive Stands (store plan : Store) (id : NodeId) : Prop where
  | planned (parent : store.parent id = plan.parent id) (claim : store.claim? id = plan.claim? id)
  /-- The node that has claimed it in the plan owns it already. -/
  | adopted {holder : NodeId} (owned : plan.parent id ≠ none)
      (claim : plan.claim? id = some (some holder)) (parent : store.parent id = some holder)
      (idle : store.claim? id = none)
  /-- It belongs to nobody; if a claim is left, then by a node that was broken up. -/
  | handed (owned : plan.parent id ≠ none) (claim : plan.claim? id = some none)
      (parent : store.parent id = none)
      (void : ∀ claim, store.claim? id = some claim →
        ∃ holder, claim = some holder ∧ store.isErased holder = true)

/-- Nothing but moves and parent links differs. -/
structure Relinks (store later : Store) : Prop where
  size : later.size = store.size
  types : later.types = store.types
  alone : ∀ id, (later.node id).alone = (store.node id).alone

/-- The store is as planned, but for moves that were carried out before the commit. -/
structure Anticipates (store plan : Store) : Prop extends store.Relinks plan where
  order : (store.moves.map Move.node).Sublist (plan.moves.map Move.node)
  stands : ∀ id, store.Stands plan id

theorem Relinks.kind (h : store.Relinks later) (id : NodeId) : later.kind id = store.kind id := by
  have hnode := congrArg Node.kind (h.alone id)
  exact hnode

theorem Relinks.type (h : store.Relinks later) (id : NodeId) :
    (later.node id).type = (store.node id).type := by
  have hnode := congrArg Node.type (h.alone id)
  exact hnode

theorem Relinks.isErased (h : store.Relinks later) (id : NodeId) :
    later.isErased id = store.isErased id := by
  have hnode := congrArg Node.erased (h.alone id)
  exact hnode

theorem Stands.frame (h : store.Stands plan id) (hparent : later.parent id = store.parent id)
    (hclaim : later.claim? id = store.claim? id) (hparent' : after.parent id = plan.parent id)
    (hclaim' : after.claim? id = plan.claim? id)
    (herased : ∀ x, store.isErased x = true → later.isErased x = true) : later.Stands after id := by
  cases h with
  | planned parent claim =>
      exact .planned (hparent.trans (parent.trans hparent'.symm))
        (hclaim.trans (claim.trans hclaim'.symm))
  | adopted owned claim parent idle =>
      exact .adopted (hparent' ▸ owned) (hclaim'.trans claim) (hparent.trans parent)
        (hclaim.trans idle)
  | handed owned claim parent void =>
      refine .handed (hparent' ▸ owned) (hclaim'.trans claim) (hparent.trans parent) ?_
      intro left hleft
      obtain ⟨holder, rfl, hgone⟩ := void left (hclaim ▸ hleft)
      exact ⟨holder, rfl, herased holder hgone⟩

/-- A node that is not on the move in the plan stands as planned. -/
theorem Stands.of_idle (h : store.Stands plan id) (hidle : plan.claim? id = none) :
    store.parent id = plan.parent id ∧ store.claim? id = none := by
  cases h with
  | planned parent claim => exact ⟨parent, claim.trans hidle⟩
  | adopted _ claim => rw [hidle] at claim; cases claim
  | handed _ claim => rw [hidle] at claim; cases claim

/-- A node that is on the move and unclaimed is so in the plan. -/
theorem Stands.of_moving (h : store.Stands plan id) (hclaim : store.claim? id = some none) :
    store.parent id = plan.parent id ∧ plan.claim? id = some none := by
  cases h with
  | planned parent claim => exact ⟨parent, claim.symm.trans hclaim⟩
  | adopted _ _ _ idle => rw [hclaim] at idle; cases idle
  | handed _ _ _ void =>
      obtain ⟨holder, hholder, -⟩ := void none hclaim
      cases hholder

namespace Anticipates

theorem refl (store : Store) : store.Anticipates store :=
  ⟨⟨rfl, rfl, fun _ => rfl⟩, .refl _, fun _ => .planned rfl rfl⟩

theorem grows (h : store.Anticipates plan) (hlater : later.Anticipates after)
    (hgrows : plan.Grows after) : store.Grows later where
  size := by
    rw [← h.size, ← hlater.size]
    exact hgrows.size
  types := by
    rw [← h.types, ← hlater.types]
    exact hgrows.types

theorem laid {tree : Tree} (h : store.Anticipates plan) (hlaid : tree.Laid plan) :
    tree.Laid store :=
  hlaid.mono ⟨Nat.le_of_eq h.size, fun _ _ hknown => h.types ▸ hknown⟩
    (fun id _ => ⟨(h.kind id).symm, (h.type id).symm⟩)

theorem legible {tree : Tree} (h : store.Anticipates plan) (hlegible : tree.Legible plan) :
    tree.Legible store :=
  ⟨h.laid hlegible.laid, h.size ▸ hlegible.height_le⟩

theorem isFree {base : Store} (h : store.Anticipates plan) (hfree : base.IsFree store id) :
    base.IsFree plan id := by
  rcases hfree with ⟨hnew, hnone, hlive⟩ | hclaim
  · cases h.stands id with
    | planned parent claim => exact .inl ⟨hnew, parent ▸ hnone, (h.isErased id).trans hlive⟩
    | adopted _ _ parent => rw [hnone] at parent; cases parent
    | handed _ claim => exact .inr claim
  · exact .inr ((h.stands id).of_moving hclaim).2

end Anticipates

end Store

/-! ## Adopting -/

namespace Build

variable {store later : Store} {holder child : NodeId}

theorem adopt_parentless (hlt : child < store.size) (hlive : store.isErased child = false)
    (hnone : store.parent child = none) :
    adopt holder child store = .ok ((), store.placed child holder) := by
  have herased : (store.node child).erased = false := hlive
  have hparent : (store.node child).parent = none := hnone
  rw [run_adopt, Store.get_eq_ok hlt]
  simp [herased, hparent, Store.placed]

theorem adopt_moving (hlt : child < store.size) (hlive : store.isErased child = false)
    (howned : store.parent child ≠ none) (hclaim : store.claim? child = some none) :
    adopt holder child store = .ok ((), store.claimMove child holder) := by
  have herased : (store.node child).erased = false := hlive
  obtain ⟨owner, howner⟩ := Option.ne_none_iff_exists'.mp howned
  have hparent : (store.node child).parent = some owner := howner
  rw [run_adopt, Store.get_eq_ok hlt]
  simp [herased, hparent, hclaim]

end Build

namespace Store

variable {store plan later after : Store} {id child holder x : NodeId}

theorem claim?_placed : (store.placed child holder).claim? x =
    if x = child then none else store.claim? x := by
  have hclaim : (store.placed child holder).claim? x = (store.forgetMove child).claim? x := rfl
  rw [hclaim]
  split
  · next he =>
      subst he
      rw [claim?_eq_none_iff]
      exact fun move hmove => (mem_moves_forgetMove.mp hmove).2
  · next hne => exact claim?_forgetMove_of_ne hne

theorem claim?_claimMove : (store.claimMove child holder).claim? x =
    if x = child then (store.claim? x).map (fun _ => some holder) else store.claim? x := by
  rw [claim?_map_moves (Build.moves_claimMove store child holder)]
  simp only [List.mem_singleton]

theorem relinks_placed (hlt : child < store.size) :
    store.Relinks (store.placed child holder) where
  size := size_modify ..
  types := rfl
  alone x := by
    rw [node_placed hlt]
    split <;> rfl

theorem parent_placed (hlt : child < store.size) : (store.placed child holder).parent x =
    if x = child then some holder else store.parent x := by
  rw [parent, node_placed hlt]
  split <;> rfl

theorem nodes_forgetMove (store : Store) (child : NodeId) :
    (store.forgetMove child).moves.map Move.node =
    (store.moves.map Move.node).filter (fun id => id != child) := by
  rw [List.filter_map]
  rfl

theorem nodes_claimMove (store : Store) (child holder : NodeId) :
    (store.claimMove child holder).moves.map Move.node = store.moves.map Move.node := by
  rw [Build.moves_claimMove, List.map_map]
  refine List.map_congr_left fun move _ => ?_
  simp only [Function.comp_apply]
  split <;> rfl

/-- A change of one node, in the store and in the plan. -/
theorem Anticipates.change (child : NodeId) (h : store.Anticipates plan)
    (hlater : store.Relinks later) (hafter : plan.Relinks after)
    (horder : (later.moves.map Move.node).Sublist (after.moves.map Move.node))
    (hsame : ∀ x, x ≠ child → later.parent x = store.parent x ∧ later.claim? x = store.claim? x ∧
      after.parent x = plan.parent x ∧ after.claim? x = plan.claim? x)
    (hself : later.Stands after child) : later.Anticipates after where
  size := by rw [hlater.size, hafter.size, h.size]
  types := by rw [hlater.types, hafter.types, h.types]
  alone x := by rw [hlater.alone, hafter.alone, h.alone]
  order := horder
  stands x := by
    by_cases hx : x = child
    · exact hx ▸ hself
    · obtain ⟨hparent, hclaim, hparent', hclaim'⟩ := hsame x hx
      exact (h.stands x).frame hparent hclaim hparent' hclaim'
        (fun y hy => (hlater.isErased y).trans hy)

theorem moves_settle_eq (honce : (store.moves.map Move.node).Nodup) :
    store.settle.moves = ((store.moves.map Move.node).filter
      (fun id => store.claim? id = some none)).map (fun id => ⟨id, none⟩) := by
  have hfilter : store.settle.moves =
      store.moves.filter (fun move => store.claim? move.node = some none) := by
    refine List.filter_congr fun move hmove => ?_
    rw [claim?_eq_some honce hmove]
    cases move.claim <;> rfl
  rw [List.filter_map, List.map_map, ← List.map_id store.settle.moves, hfilter]
  refine List.map_congr_left fun move hmove => ?_
  obtain ⟨hmove, hclaim⟩ := List.mem_filter.mp hmove
  have hnone := (claim?_eq_some honce hmove).symm.trans (of_decide_eq_true hclaim)
  cases move
  cases hnone
  rfl

/-- The store after a new tree was broken up: what it held has no parent, the taken parts
included. -/
def dismantled (store : Store) (tree : Tree) : Store :=
  (store.clearParents (tree.bare.subs.map Tree.id)).erase tree.id

theorem fades_dismantled {tree : Tree} : store.Fades (store.dismantled tree) :=
  (fades_clearParents _).trans (fades_erase _)

theorem claim?_dismantled {tree : Tree} : (store.dismantled tree).claim? x = store.claim? x := by
  rw [claim?, fades_dismantled.moves, claim?]

namespace Anticipates

/-- What is adopted in the store can be adopted in the plan. -/
theorem adopt (h : store.Anticipates plan)
    (hrun : Build.adopt holder child store = .ok ((), later)) :
    ∃ after, Build.adopt holder child plan = .ok ((), after) ∧ later.Anticipates after := by
  obtain ⟨hlt, hlive, hcase⟩ := Build.adopt_cases hrun
  have hlt' : child < plan.size := h.size ▸ hlt
  have hlive' : plan.isErased child = false := (h.isErased child).trans hlive
  have hplaced : store.Relinks (store.placed child holder) := relinks_placed hlt
  have hclaimed : plan.Relinks (plan.claimMove child holder) := ⟨rfl, rfl, fun _ => rfl⟩
  have hfiltered := (List.filter_sublist (l := store.moves.map Move.node)
    (p := fun id => id != child)).trans h.order
  rcases hcase with ⟨hnone, hlater⟩ | ⟨hsome, hclaim, rfl⟩
  · obtain rfl : later = store.placed child holder := hlater
    cases h.stands child with
    | planned parent claim =>
        refine ⟨_, Build.adopt_parentless hlt' hlive' (parent ▸ hnone), ?_⟩
        refine h.change child hplaced (relinks_placed hlt') ?_ (fun x hx => ?_) (.planned ?_ ?_)
        · exact nodes_forgetMove plan child ▸ nodes_forgetMove store child ▸ h.order.filter _
        · rw [parent_placed hlt, parent_placed hlt', claim?_placed, claim?_placed]
          simp only [if_neg hx, and_self]
        · rw [parent_placed hlt, parent_placed hlt', if_pos rfl, if_pos rfl]
        · rw [claim?_placed, claim?_placed, if_pos rfl, if_pos rfl]
    | adopted _ _ parent => rw [hnone] at parent; cases parent
    | handed owned claim =>
        refine ⟨_, Build.adopt_moving hlt' hlive' owned claim, ?_⟩
        refine h.change child hplaced hclaimed ?_ (fun x hx => ?_)
          (.adopted owned (?_ : _ = some (some holder)) ?_ ?_)
        · exact nodes_claimMove plan child holder ▸ nodes_forgetMove store child ▸ hfiltered
        · rw [parent_placed hlt, claim?_placed, claim?_claimMove]
          rw [if_neg hx, if_neg hx, if_neg hx]
          exact ⟨rfl, rfl, rfl, rfl⟩
        · rw [claim?_claimMove, if_pos rfl, claim]
          rfl
        · rw [parent_placed hlt, if_pos rfl]
        · rw [claim?_placed, if_pos rfl]
  · obtain ⟨hparent, hmoving⟩ := (h.stands child).of_moving hclaim
    have howned : plan.parent child ≠ none := by
      rw [← hparent]
      exact Option.isSome_iff_ne_none.mp hsome
    refine ⟨_, Build.adopt_moving hlt' hlive' howned hmoving, ?_⟩
    refine h.change child ⟨rfl, rfl, fun _ => rfl⟩ hclaimed ?_ (fun x hx => ?_)
      (.planned hparent ?_)
    · exact nodes_claimMove plan child holder ▸ nodes_claimMove store child holder ▸ h.order
    · rw [claim?_claimMove, claim?_claimMove, if_neg hx, if_neg hx]
      exact ⟨rfl, rfl, rfl, rfl⟩
    · rw [claim?_claimMove, claim?_claimMove, if_pos rfl, if_pos rfl, hclaim, hmoving]

theorem forM_adopt {children : List NodeId} (h : store.Anticipates plan)
    (hrun : children.forM (Build.adopt holder) store = .ok ((), later)) :
    ∃ after, children.forM (Build.adopt holder) plan = .ok ((), after) ∧
      later.Anticipates after := by
  induction children generalizing store plan with
  | nil =>
      cases hrun
      exact ⟨plan, rfl, h⟩
  | cons child children ih =>
      obtain ⟨⟨⟩, middle, hfirst, hrest⟩ := Build.exists_of_bind_ok hrun
      obtain ⟨middle', hfirst', hmiddle⟩ := h.adopt hfirst
      obtain ⟨after, hrest', hafter⟩ := ih hmiddle hrest
      exact ⟨after, (Build.bind_ok hfirst').trans hrest', hafter⟩

theorem pushed (h : store.Anticipates plan) (kind : Kind) (type : Option TypeId) :
    (Build.pushed store kind type).Anticipates (Build.pushed plan kind type) where
  size := by rw [Build.size_pushed, Build.size_pushed, h.size]
  types := h.types
  alone x := by
    rw [Build.node_pushed, Build.node_pushed, h.size]
    split
    · rfl
    · exact h.alone x
  order := h.order
  stands x := by
    have hclaim : ∀ store : Store, (Build.pushed store kind type).claim? x = store.claim? x :=
      fun store => Build.claim?_pushed kind type x
    by_cases hx : x = store.size
    · -- a node that is not there yet has no parent
      have hnone : ∀ store : Store, x = store.size →
          (Build.pushed store kind type).parent x = none := by
        intro store hx
        rw [parent, Build.node_pushed, if_pos hx]
      refine .planned ((hnone store hx).trans (hnone plan (hx.trans h.size.symm)).symm) ?_
      rw [hclaim, hclaim]
      have hleaf : plan.parent x = none := by
        rw [parent, node_of_size_le (Nat.le_of_eq (h.size.trans hx.symm))]
        rfl
      cases h.stands x with
      | planned _ claim => exact claim
      | adopted owned => exact absurd hleaf owned
      | handed owned => exact absurd hleaf owned
    · have hnode : (Build.pushed store kind type).node x = store.node x := by
        rw [Build.node_pushed, if_neg hx]
      have hnode' : (Build.pushed plan kind type).node x = plan.node x := by
        rw [Build.node_pushed, if_neg (fun he => hx (he.trans h.size))]
      refine (h.stands x).frame (congrArg Node.parent hnode) (hclaim store)
        (congrArg Node.parent hnode') (hclaim plan) (fun y hy => ?_)
      rw [isErased, Build.node_pushed]
      split
      · next he =>
          rw [isErased, node_of_size_le (Nat.le_of_eq he.symm)] at hy
          cases hy
      · exact hy

/-- What is created in the store can be created in the plan. -/
theorem create {kind : Kind} {type : Option TypeId} (h : store.Anticipates plan)
    (hrun : Build.create kind type store = .ok (id, later)) :
    ∃ after, Build.create kind type plan = .ok (id, after) ∧ later.Anticipates after := by
  obtain ⟨found, middle, hget, hnext⟩ := Build.exists_of_bind_ok hrun
  cases hget
  obtain ⟨⟨⟩, middle, hset, hnext⟩ := Build.exists_of_bind_ok hnext
  cases hset
  obtain ⟨⟨⟩, middle, hadopt, hpure⟩ := Build.exists_of_bind_ok hnext
  cases hpure
  obtain ⟨after, hadopt', hafter⟩ := (h.pushed kind type).forM_adopt hadopt
  refine ⟨after, ?_, hafter⟩
  rw [← h.size] at hadopt' ⊢
  have hset : (set (Build.pushed plan kind type) : Build PUnit) plan =
      .ok ((), Build.pushed plan kind type) := rfl
  unfold Build.create
  rw [Build.bind_ok (Build.run_get plan)]
  refine (Build.bind_ok hset).trans ?_
  rw [Build.bind_ok hadopt']
  rfl

theorem intern {desc : TypeDesc} {number : TypeId} (h : store.Anticipates plan)
    (hrun : Build.internType desc store = .ok (number, later)) :
    ∃ after, Build.internType desc plan = .ok (number, after) ∧ later.Anticipates after := by
  cases hrun
  refine ⟨{ plan with types := (plan.types.intern desc).2 }, ?_, ⟨h.size, ?_, h.alone⟩, h.order,
    fun x => (h.stands x).frame rfl rfl rfl rfl (fun _ hy => hy)⟩
  · rw [← h.types]
    rfl
  · show (plan.types.intern desc).2 = (store.types.intern desc).2
    rw [h.types]

/-! ## Taking -/

theorem take {child child' : Child} (h : store.Anticipates plan)
    (hrun : Build.take id store = .ok (child, later))
    (hrun' : Build.take id plan = .ok (child', after)) :
    child = child' ∧ later.Anticipates after := by
  rw [Build.run_take] at hrun hrun'
  split at hrun <;> cases hrun
  split at hrun'
  · cases hrun'
  · next hidle =>
      cases hrun'
      have hclaim : plan.claim? id = none := by
        rw [← Option.not_isSome_iff_eq_none, claim?_isSome]
        exact hidle
      refine ⟨rfl, h.change id ⟨rfl, rfl, fun _ => rfl⟩ ⟨rfl, rfl, fun _ => rfl⟩
        (h.order.cons_cons id) (fun x hx => ?_) (.planned ((h.stands id).of_idle hclaim).1 ?_)⟩
      · rw [claim?_requestMove, claim?_requestMove, if_neg hx, if_neg hx]
        exact ⟨rfl, rfl, rfl, rfl⟩
      · rw [claim?_requestMove_self, claim?_requestMove_self]

theorem mapM_take {ids : List NodeId} {children children' : List Child}
    (h : store.Anticipates plan) (hrun : ids.mapM Build.take store = .ok (children, later))
    (hrun' : ids.mapM Build.take plan = .ok (children', after)) :
    children = children' ∧ later.Anticipates after := by
  induction ids generalizing store plan children children' with
  | nil =>
      cases hrun
      cases hrun'
      exact ⟨rfl, h⟩
  | cons id ids ih =>
      rw [List.mapM_cons] at hrun hrun'
      obtain ⟨child, middle, hfirst, hrun⟩ := Build.exists_of_bind_ok hrun
      obtain ⟨rest, last, hrest, hrun⟩ := Build.exists_of_bind_ok hrun
      cases hrun
      obtain ⟨child', middle', hfirst', hrun'⟩ := Build.exists_of_bind_ok hrun'
      obtain ⟨rest', last', hrest', hrun'⟩ := Build.exists_of_bind_ok hrun'
      cases hrun'
      obtain ⟨rfl, hmiddle⟩ := h.take hfirst hfirst'
      obtain ⟨rfl, hlast⟩ := ih hmiddle hrest hrest'
      exact ⟨rfl, hlast⟩

theorem forgetMove (h : store.Anticipates plan) (hclaim : store.claim? id = some none) :
    (store.forgetMove id).Anticipates (plan.forgetMove id) := by
  have hidle : ∀ store : Store, (store.forgetMove id).claim? id = none := fun store =>
    claim?_eq_none_iff.mpr fun move hmove => (mem_moves_forgetMove.mp hmove).2
  refine h.change id ⟨rfl, rfl, fun _ => rfl⟩ ⟨rfl, rfl, fun _ => rfl⟩ ?_ (fun x hx => ?_)
    (.planned ((h.stands id).of_moving hclaim).1 ((hidle store).trans (hidle plan).symm))
  · rw [nodes_forgetMove, nodes_forgetMove]
    exact h.order.filter _
  · rw [claim?_forgetMove_of_ne hx, claim?_forgetMove_of_ne hx]
    exact ⟨rfl, rfl, rfl, rfl⟩

/-! ## Breaking up -/

section Dismantled

variable {base : Store} {old tree : Tree} {region : List NodeId} {trees : List Tree}
  (h : store.Anticipates plan) (hpiece : Workpiece base old plan region (tree :: trees))
  (hold : old.Rooted base) (hinner : base.size ≤ tree.bare.id)

include h hpiece hold hinner in
theorem stands_of_remnant (hx : x ∈ tree.remnant (tree.bare.subs.map Tree.id)) :
    store.parent x = plan.parent x ∧ store.claim? x = none ∧ plan.claim? x = none := by
  have hidle := hpiece.draft.claim?_new (hpiece.new_of_remnant hold hinner hx)
  obtain ⟨hparent, hclaim⟩ := (h.stands x).of_idle hidle
  exact ⟨hparent, hclaim, hidle⟩

include h hpiece hold hinner in
theorem node_dismantled : (store.dismantled tree).node x =
    if x ∈ tree.remnant (tree.bare.subs.map Tree.id) then (store.node x).retired
    else if x ∈ tree.bare.subs.map Tree.id then { store.node x with parent := none }
    else store.node x := by
  have hcut : (store.clearParents (tree.bare.subs.map Tree.id)).IsCut
      (tree.bare.subs.map Tree.id) tree := by
    refine hpiece.isCut hold hinner (fun x => ?_) (fun x hx => ?_) (fun x hx owner howner => ?_)
    · exact ((fades_clearParents _).kind x).trans (h.kind x).symm
    · rw [parent, node_clearParents, if_neg (hpiece.not_mem_parts hx)]
      exact (h.stands_of_remnant hpiece hold hinner hx).1
    · rw [parent, node_clearParents, if_pos hx] at howner
      cases howner
  have hlt : tree.id < (store.clearParents (tree.bare.subs.map Tree.id)).size := by
    rw [(fades_clearParents _).size, ← h.size]
    exact hpiece.draft.lt (List.mem_cons_self ..)
  rw [dismantled, node_erase_cut hcut hpiece.id_not_mem_parts hlt hpiece.nodup_tree,
    node_clearParents]
  split
  · next hx => rw [if_neg (hpiece.not_mem_parts hx)]
  · rfl

include h hpiece hold hinner in
/-- What held the parts is gone, so a claim that it has left is void. -/
theorem isErased_bare_dismantled : (store.dismantled tree).isErased tree.bare.id = true := by
  have hbare := tree.bare_mem_subtrees
  rw [isErased, h.node_dismantled hpiece hold hinner, if_pos (hpiece.mem_remnant.mpr
    ⟨Tree.ids_subset_of_mem hbare tree.bare.id_mem_ids,
      Tree.id_not_mem_slots (Tree.nodup_ids_of_mem hpiece.nodup_tree hbare)⟩)]
  rfl

include h hpiece hold hinner in
theorem stands_part {sub : Tree} (hsub : sub ∈ tree.bare.subs) :
    (store.dismantled tree).Stands (plan.brokenUp tree) sub.id := by
  have hpart : sub.id ∈ tree.bare.subs.map Tree.id := List.mem_map_of_mem hsub
  have hleft : sub.id ∉ tree.remnant (tree.bare.subs.map Tree.id) := fun hleft =>
    hpiece.not_mem_parts hleft hpart
  have hparent : (store.dismantled tree).parent sub.id = none := by
    rw [parent, h.node_dismantled hpiece hold hinner, if_neg hleft, if_pos hpart]
  rcases hpiece.slot_cases hold hinner hsub with ⟨-, hidle⟩ | ⟨⟨owner, howner, -⟩, hheld⟩
  · refine .planned (hparent.trans ?_) ?_
    · rw [parent, hpiece.node_brokenUp hold hinner, if_neg hleft, if_pos ⟨hpart, hidle⟩]
    · rw [claim?_dismantled, claim?_brokenUp, if_pos hpart, hidle,
        ((h.stands sub.id).of_idle hidle).2]
      rfl
  · refine .handed ?_ ?_ hparent (fun claim hsome => ?_)
    · rw [parent, hpiece.node_brokenUp hold hinner, if_neg hleft, if_neg (by simp [hheld])]
      rw [parent] at howner
      rw [howner]
      exact Option.some_ne_none owner
    · rw [claim?_brokenUp, if_pos hpart, hheld]
      rfl
    · rw [claim?_dismantled] at hsome
      cases h.stands sub.id with
      | planned _ claimed =>
          rw [claimed, hheld] at hsome
          cases hsome
          exact ⟨tree.bare.id, rfl, h.isErased_bare_dismantled hpiece hold hinner⟩
      | adopted _ _ _ idle => rw [idle] at hsome; cases hsome
      | handed _ unclaimed => rw [hheld] at unclaimed; cases unclaimed

include h hpiece hold hinner in
/-- A new tree is dismantled in the store while it is broken up in the plan. -/
theorem dismantled : (store.dismantled tree).Anticipates (plan.brokenUp tree) where
  size := by rw [size_brokenUp, fades_dismantled.size, h.size]
  types := by rw [types_brokenUp, fades_dismantled.types, h.types]
  alone x := by
    have halone := h.alone x
    have hretired := congrArg Node.retired halone
    rw [hpiece.node_brokenUp hold hinner, h.node_dismantled hpiece hold hinner]
    split
    · exact congrArg Node.alone hretired
    · refine Eq.trans ?_ (halone.trans (Eq.symm ?_)) <;> split <;> rfl
  order := by
    rw [fades_dismantled.moves, show (plan.brokenUp tree).moves.map Move.node =
      plan.moves.map Move.node from moving_brokenUp ..]
    exact h.order
  stands x := by
    by_cases hleft : x ∈ tree.remnant (tree.bare.subs.map Tree.id)
    · obtain ⟨-, hclaim, hidle⟩ := h.stands_of_remnant hpiece hold hinner hleft
      refine .planned ?_ ?_
      · rw [parent, parent, h.node_dismantled hpiece hold hinner, hpiece.node_brokenUp hold hinner,
          if_pos hleft, if_pos hleft]
        rfl
      · rw [claim?_dismantled, claim?_brokenUp, if_neg (hpiece.not_mem_parts hleft), hclaim, hidle]
    · by_cases hpart : x ∈ tree.bare.subs.map Tree.id
      · obtain ⟨sub, hsub, rfl⟩ := List.mem_map.mp hpart
        exact h.stands_part hpiece hold hinner hsub
      · refine (h.stands x).frame ?_ claim?_dismantled ?_ ?_ fades_dismantled.erased
        · rw [parent, h.node_dismantled hpiece hold hinner, if_neg hleft, if_neg hpart]
          rfl
        · rw [parent, hpiece.node_brokenUp_of_not_mem hold hinner hleft hpart]
          rfl
        · rw [claim?_brokenUp, if_neg hpart]

end Dismantled

/-! ## Settling -/

/-- If everything that is unclaimed in the plan is so in the store, settling the claims makes
the two the same. -/
theorem settle_eq (h : store.Anticipates plan) (honce : (plan.moves.map Move.node).Nodup)
    (hlt : ∀ id, id ∈ plan.moves.map Move.node → id < plan.size)
    (hopen : ∀ id, plan.claim? id = some none → store.claim? id = some none) :
    store.settle = plan.settle := by
  have honce' := honce.sublist h.order
  have hlink : ∀ x, store.link x = plan.link x := by
    intro x
    cases h.stands x with
    | planned parent claim => rw [link, link, claim, parent]
    | adopted _ claim parent idle =>
        rw [link_of_unclaimed (.inl idle), parent, link_of_claimed claim]
    | handed _ claim _ void =>
        obtain ⟨holder, hnone, -⟩ := void none (hopen x claim)
        cases hnone
  have hsame : ∀ id, store.claim? id = some none ↔ plan.claim? id = some none :=
    fun id => ⟨fun hclaim => ((h.stands id).of_moving hclaim).2, hopen id⟩
  have hwaiting : (store.moves.map Move.node).filter (fun id => store.claim? id = some none) =
      (plan.moves.map Move.node).filter (fun id => plan.claim? id = some none) := by
    simp only [hsame]
    refine (h.order.filter _).eq_of_length_le
      ((honce.filter _).length_le_of_subset fun id hid => ?_)
    obtain ⟨-, hclaim⟩ := List.mem_filter.mp hid
    have hmove := mem_of_claim? ((hsame id).mpr (of_decide_eq_true hclaim))
    exact List.mem_filter.mpr ⟨List.mem_map.mpr ⟨_, hmove, rfl⟩, hclaim⟩
  refine eq_of_node ?_ ?_ ?_ (fun x => ?_)
  · rw [size_settle, size_settle, h.size]
  · rw [types_settle, types_settle, h.types]
  · rw [moves_settle_eq honce', moves_settle_eq honce, hwaiting]
  · rw [node_settle honce (fun move hmove => hlt _ (List.mem_map_of_mem hmove)),
      node_settle honce' (fun move hmove => h.size ▸ hlt _ (h.order.subset
        (List.mem_map_of_mem hmove))), hlink x]
    have hnode := congrArg (fun node : Node => { node with parent := plan.link x }) (h.alone x)
    exact hnode.symm

end Anticipates

end Store

/-- A commit looks at the store in which the claims are settled. -/
theorem Build.commit_eq_of_settle {store plan : Store} (h : store.settle = plan.settle)
    (edits : List Edit) : Build.commit edits store = Build.commit edits plan := by
  unfold Build.commit
  rw [bind_ok (run_modify Store.settle store), bind_ok (run_modify Store.settle plan), h]

end CodeTidy
