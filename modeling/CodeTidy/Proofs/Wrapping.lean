import CodeTidy.Proofs.Grounded
import CodeTidy.Proofs.Replacement

/-!
# Wrapping a node in its own replacement

A replacement may be built around its own target, which is then on the move.  Claims are
settled before the edit looks for the slot, and from then on the parent link of the target
leads into the replacement.  So the edit works on the slot inside: the replacement is put
there, below itself, and the target is erased with all below it, while its old slot still
names it (`Build.commit_wrapping`).  The condition that fails is that the holder of the slot
is not inside the replacement.
-/

namespace CodeTidy

structure Wrapped (base store later : Store) (root target wrapper claimer : NodeId) : Prop where
  /-- The target is erased, and all below it. -/
  erased : ∀ id, id ∈ base.preorder target → later.node id = (base.node id).retired
  /-- No other old node changes. -/
  others : ∀ id, id < base.size → id ∉ base.preorder target → later.node id = base.node id
  /-- The holder of the target still has it in its slot. -/
  slot : ∃ owner ∈ base.preorder root, base.parent target = some owner ∧
    target ∈ later.children owner
  /-- The wrapper stands in the slot inside that claimed the target. -/
  inside : (store.kind claimer).replaceChild? target wrapper = some (later.kind claimer) ∧
    later.parent wrapper = some claimer
  /-- Below the root nothing is replaced. -/
  below : later.preorder root = base.preorder root ∧ wrapper ∉ later.preorder root
  rejected : later.violations root ≠ []

/-- The moment before such a replacement is committed: `old` is the only subtree on the move,
and `claimer` has claimed it for the new tree `new`. -/
structure Wrapping (base : Store) (tree holder old : Tree) (store : Store) (taken : List NodeId)
    (trees : List Tree) (new : Tree) (claimer : NodeId) : Prop where
  piece : Workpiece base tree store taken trees
  held : tree.Held base (base.parent tree.id)
  nodup : tree.ids.Nodup
  above : holder ∈ tree.subtrees
  slot : old ∈ holder.subs
  moving : store.moving = [old.id]
  claimed : store.claim? old.id = some (some claimer)
  loose : new ∈ trees
  fresh : base.size ≤ new.id
  parentless : store.parent new.id = none
  around : old.id ∈ new.ids

namespace Wrapping

variable {base store : Store} {tree holder old new : Tree} {taken : List NodeId}
  {trees : List Tree} {claimer x : NodeId} {kind : Kind}

theorem old_mem (h : Wrapping base tree holder old store taken trees new claimer) :
    old ∈ tree.subtrees :=
  Tree.slot_mem_subtrees h.above h.slot

theorem old_lt (h : Wrapping base tree holder old store taken trees new claimer)
    (hx : x ∈ old.ids) : x < base.size :=
  h.held.laid.lt (Tree.ids_subset_of_mem h.old_mem hx)

theorem ne_new (h : Wrapping base tree holder old store taken trees new claimer)
    (hx : x < base.size) : x ≠ new.id := by
  rintro rfl
  exact Nat.not_lt.mpr h.fresh hx

theorem claim?_eq_none (h : Wrapping base tree holder old store taken trees new claimer)
    (hx : x ≠ old.id) : store.claim? x = none := by
  rw [Store.claim?_eq_none_iff]
  rintro move hmove rfl
  have hin : move.node ∈ store.moving := List.mem_map_of_mem hmove
  rw [h.moving, List.mem_singleton] at hin
  exact hx hin

/-- Once the claim is settled, the target is linked to the node that claimed it. -/
theorem node_settle (h : Wrapping base tree holder old store taken trees new claimer)
    (x : NodeId) :
    store.settle.node x =
      if x = old.id then { store.node x with parent := some claimer } else store.node x := by
  rw [h.piece.draft.node_settle]
  split
  · next he => rw [he, Store.link_of_claimed h.claimed]
  · next hne => rw [Store.link_of_unclaimed (.inl (h.claim?_eq_none hne))]; rfl

theorem parent_settle (h : Wrapping base tree holder old store taken trees new claimer) :
    store.settle.parent old.id = some claimer := by
  rw [Store.parent, h.node_settle, if_pos rfl]

theorem moves_settle (h : Wrapping base tree holder old store taken trees new claimer) :
    store.settle.moves = [] := by
  refine List.eq_nil_iff_forall_not_mem.mpr (fun move hmove => ?_)
  obtain ⟨hmem, hnone⟩ := Draft.mem_moves_settle.mp hmove
  have hin : move.node ∈ store.moving := List.mem_map_of_mem hmem
  rw [h.moving, List.mem_singleton] at hin
  have hclaim := Store.claim?_eq_some h.piece.draft.once hmem
  rw [hin, h.claimed, hnone] at hclaim
  cases hclaim

/-- The node that claimed the target is a new node of the replacement, and has the target in
a slot. -/
theorem claimer_spec (h : Wrapping base tree holder old store taken trees new claimer) :
    base.size ≤ claimer ∧ claimer ∈ new.ids ∧ old.id ∈ store.children claimer := by
  have hnew : new.Held store.settle (store.link new.id) := h.piece.draft.held new h.loose
  have hne : old.id ≠ new.id := h.ne_new (h.old_lt old.id_mem_ids)
  obtain ⟨above, habove, -, hlink, hslot, -⟩ :=
    hnew.slot_of_mem_shown (by rw [Tree.shown_nil]; exact h.around) hne
  rw [h.parent_settle, Option.some.injEq] at hlink
  subst hlink
  refine ⟨?_, Tree.shown_nil new ▸ habove, ?_⟩
  · exact (h.piece.draft.moving _ (Store.mem_of_claim? h.claimed)).2.2.2 _ rfl
  · rw [Store.children, Store.kind, h.node_settle] at hslot
    rw [Store.children, Store.kind]
    split at hslot <;> exact hslot

theorem claimer_lt (h : Wrapping base tree holder old store taken trees new claimer) :
    claimer < store.size :=
  (h.piece.draft.laid h.loose).lt h.claimer_spec.2.1

theorem new_lt (h : Wrapping base tree holder old store taken trees new claimer) :
    new.id < (store.settle.setKind claimer kind).size := by
  rw [Store.size_setKind, Store.size_settle]
  exact h.piece.draft.lt h.loose

theorem node_placed (h : Wrapping base tree holder old store taken trees new claimer)
    (x : NodeId) :
    ((store.settle.setKind claimer kind).placed new.id claimer).node x =
      if x = new.id then
        { (store.settle.setKind claimer kind).node x with parent := some claimer }
      else if x = claimer then { store.settle.node x with kind := kind }
      else store.settle.node x := by
  have hclaimer : claimer < store.settle.size := by
    rw [Store.size_settle]
    exact h.claimer_lt
  rw [Store.node_placed h.new_lt]
  split
  · rfl
  · rw [Store.node_setKind hclaimer]

/-- Before anything is erased, old nodes are as they were but for the link of the target. -/
theorem node_placed_of_lt (h : Wrapping base tree holder old store taken trees new claimer)
    (hx : x < base.size) :
    ((store.settle.setKind claimer kind).placed new.id claimer).node x =
      if x = old.id then { base.node x with parent := some claimer } else base.node x := by
  have hne : x ≠ claimer := by
    rintro rfl
    exact Nat.not_lt.mpr h.claimer_spec.1 hx
  rw [h.node_placed, if_neg (h.ne_new hx), if_neg hne, h.node_settle, h.piece.draft.old x hx]

/-- Nothing below the target is on the move any more, so all of it is owned. -/
theorem isCut (h : Wrapping base tree holder old store taken trees new claimer) :
    ((store.settle.setKind claimer kind).placed new.id claimer).IsCut [] old := by
  intro above habove _
  have hlt : above.id < base.size := h.old_lt (Tree.mem_ids_iff.mpr ⟨above, habove, rfl⟩)
  have hlaid := h.held.laid.of_mem (Tree.mem_subtrees_trans habove h.old_mem)
  refine ⟨?_, fun sub hsub => ?_⟩
  · rw [Store.children, Store.kind, h.node_placed_of_lt hlt]
    cases above with
    | node id head type subs =>
        refine Eq.trans ?_ hlaid.shown_by.children
        split <;> rfl
  · have hbelow : sub ∈ old.subtrees := Tree.slot_mem_subtrees habove hsub
    have hne : sub.id ≠ old.id := by
      intro he
      refine Tree.ne_of_mem_slot habove hsub (Tree.mem_subtrees_self sub) ?_
      exact Tree.eq_of_id_eq (Tree.nodup_ids_of_mem h.nodup h.old_mem) hbelow
        (Tree.mem_subtrees_self old) he
    have hsubLt : sub.id < base.size := h.old_lt (Tree.mem_ids_iff.mpr ⟨sub, hbelow, rfl⟩)
    rw [Store.parent, h.node_placed_of_lt hsubLt, if_neg hne]
    have hlink := (h.held.of_slot (Tree.mem_subtrees_trans habove h.old_mem) hsub).link
    exact iff_of_true hlink List.not_mem_nil

theorem node_exchanged (h : Wrapping base tree holder old store taken trees new claimer)
    (x : NodeId) :
    (store.exchanged claimer old.id new.id kind).node x =
      if x ∈ old.ids then (base.node x).retired
      else ((store.settle.setKind claimer kind).placed new.id claimer).node x := by
  have hsize : ((store.settle.setKind claimer kind).placed new.id claimer).size = store.size := by
    rw [(Store.keeps_placed ..).size, Store.size_setKind, Store.size_settle]
  have hremnant : x ∈ old.remnant [] ↔ x ∈ old.ids := by
    rw [Tree.mem_remnant_iff (Tree.nodup_ids_of_mem h.nodup h.old_mem)]
    simp
  have hlt : old.id < ((store.settle.setKind claimer kind).placed new.id claimer).size := by
    rw [hsize]
    exact Nat.lt_of_lt_of_le (h.old_lt old.id_mem_ids) h.piece.draft.grows.size
  rw [Store.exchanged, Store.node_erase_cut h.isCut List.not_mem_nil hlt
    (Tree.nodup_ids_of_mem h.nodup h.old_mem)]
  by_cases hx : x ∈ old.ids
  · rw [if_pos (hremnant.mpr hx), if_pos hx, h.node_placed_of_lt (h.old_lt hx)]
    split <;> rfl
  · rw [if_neg (fun hin => hx (hremnant.mp hin)), if_neg hx]

theorem node_of_not_mem (h : Wrapping base tree holder old store taken trees new claimer)
    (hx : x < base.size) (hout : x ∉ old.ids) :
    (store.exchanged claimer old.id new.id kind).node x = base.node x := by
  have hne : x ≠ old.id := fun he => hout (he ▸ old.id_mem_ids)
  rw [h.node_exchanged, if_neg hout, h.node_placed_of_lt hx, if_neg hne]

theorem preorder_old (h : Wrapping base tree holder old store taken trees new claimer) :
    base.preorder old.id = old.ids :=
  (h.held.laid.of_mem h.old_mem).preorder_eq (Tree.nodup_ids_of_mem h.nodup h.old_mem)

/-- The tree below the root is spelled out as before. -/
theorem laid (h : Wrapping base tree holder old store taken trees new claimer) (kind : Kind) :
    tree.Laid (store.exchanged claimer old.id new.id kind) := by
  have hgrows : base.Grows (store.exchanged claimer old.id new.id kind) :=
    h.piece.draft.grows.trans ((Store.grows_settle store).trans (Store.keeps_exchanged ..).grows)
  refine h.held.laid.mono hgrows (fun id hid => ?_)
  by_cases hin : id ∈ old.ids
  · rw [Store.kind, h.node_exchanged, if_pos hin]
    exact ⟨rfl, rfl⟩
  · rw [Store.kind, h.node_of_not_mem (h.held.laid.lt hid) hin]
    exact ⟨rfl, rfl⟩

theorem children_holder (h : Wrapping base tree holder old store taken trees new claimer)
    (kind : Kind) :
    (store.exchanged claimer old.id new.id kind).children holder.id = holder.subs.map Tree.id := by
  have hlaid := (h.laid kind).of_mem h.above
  cases hlaid with
  | node shows _ => exact shows.children

theorem run (h : Wrapping base tree holder old store taken trees new claimer)
    (hkind : (store.kind claimer).replaceChild? old.id new.id = some kind) {child : Child}
    (hchild : child.node = new.id) :
    Build.commit [⟨old.id, .replace child⟩] store =
      .ok ((), store.exchanged claimer old.id new.id kind) := by
  have hne : claimer ≠ old.id := by
    rintro rfl
    exact Nat.not_lt.mpr h.claimer_spec.1 (h.old_lt old.id_mem_ids)
  have hkindSettle : store.settle.kind claimer = store.kind claimer := by
    rw [Store.kind, h.node_settle, if_neg hne]
    rfl
  have hlt : claimer < store.settle.size := by
    rw [Store.size_settle]
    exact h.claimer_lt
  have hneNew : new.id ≠ old.id := (h.ne_new (h.old_lt old.id_mem_ids)).symm
  have hnewLt : new.id < store.settle.size := by
    rw [Store.size_settle]
    exact h.piece.draft.lt h.loose
  have hnode : store.settle.node new.id = store.node new.id := by
    rw [h.node_settle, if_neg hneNew]
  have hreplace := Build.replace_ok h.parent_settle hlt (hkindSettle ▸ hkind) hnewLt hneNew
    (.inr ⟨by rw [Store.claim?, h.moves_settle]; rfl,
      by rw [Store.parent, hnode]; exact h.parentless,
      by rw [Store.isErased, hnode]; exact (h.piece.draft.loose new h.loose).1⟩)
  rw [← hchild] at hreplace
  have hrun := Draft.run_applyEdit ⟨old.id, .replace child⟩ [] hreplace
  rw [hchild] at hrun
  refine Build.commit_ok hrun ?_
  rw [Store.exchanged, (Store.fades_erase _).moves]
  show (store.settle.moves.filter (fun move => move.node != new.id)) = []
  rw [h.moves_settle]
  rfl

theorem preorder_root (h : Wrapping base tree holder old store taken trees new claimer)
    (kind : Kind) :
    (store.exchanged claimer old.id new.id kind).preorder tree.id = tree.ids :=
  Store.preorder_laid (h.laid kind) ((h.laid kind).height_le h.nodup)

/-- An erased node in a slot below the root is reported. -/
theorem rejected (h : Wrapping base tree holder old store taken trees new claimer) :
    (store.exchanged claimer old.id new.id kind).violations tree.id ≠ [] := by
  intro hclean
  have hknown : (store.exchanged claimer old.id new.id kind).TypesKnown :=
    (Store.keeps_exchanged ..).typesKnown h.piece.draft.typesKnown_settle
  obtain ⟨-, found, hid, hnodup, hheld⟩ :=
    (Store.violations_eq_nil_iff hknown ((h.laid kind).lt tree.id_mem_ids)).mp hclean
  have hids : found.ids = tree.ids := by
    rw [← h.preorder_root kind, ← hid]
    exact (Store.preorder_laid hheld.laid (hheld.laid.height_le hnodup)).symm
  obtain ⟨above, habove, he⟩ :=
    Tree.mem_ids_iff.mp (hids ▸ Tree.mem_ids_iff.mpr ⟨holder, h.above, rfl⟩)
  obtain ⟨owner, hown⟩ := hheld.of_mem habove
  have hslots : above.subs.map Tree.id = holder.subs.map Tree.id := by
    rw [← h.children_holder kind, ← he]
    cases hown.laid with
    | node shows _ => exact shows.children.symm
  obtain ⟨sub, hsub, hsubId⟩ := List.mem_map.mp (hslots ▸ List.mem_map_of_mem h.slot)
  have hlive := hown.live hsub
  rw [hsubId, Store.isErased, h.node_exchanged, if_pos old.id_mem_ids] at hlive
  cases hlive

theorem wrapped (h : Wrapping base tree holder old store taken trees new claimer)
    (hkind : (store.kind claimer).replaceChild? old.id new.id = some kind) :
    Wrapped base store (store.exchanged claimer old.id new.id kind) tree.id old.id new.id
      claimer where
  erased id hid := by
    rw [h.preorder_old] at hid
    rw [h.node_exchanged, if_pos hid]
  others id hlt hout := by
    rw [h.preorder_old] at hout
    exact h.node_of_not_mem hlt hout
  slot := by
    refine ⟨holder.id, ?_, (h.held.of_slot h.above h.slot).link, ?_⟩
    · rw [Store.preorder_laid h.held.laid (h.held.laid.height_le h.nodup)]
      exact Tree.mem_ids_iff.mpr ⟨holder, h.above, rfl⟩
    · rw [h.children_holder]
      exact List.mem_map_of_mem h.slot
  inside := by
    have hout : ∀ {x}, base.size ≤ x → x ∉ old.ids :=
      fun hx hin => Nat.not_lt.mpr hx (h.old_lt hin)
    constructor
    · rw [hkind, Store.kind, h.node_exchanged, if_neg (hout h.claimer_spec.1), h.node_placed,
        Store.node_setKind (by rw [Store.size_settle]; exact h.claimer_lt)]
      split
      · next he => rw [if_pos rfl]
      · rw [if_pos rfl]
    · rw [Store.parent, h.node_exchanged, if_neg (hout h.fresh), h.node_placed, if_pos rfl]
  below := by
    rw [h.preorder_root, Store.preorder_laid h.held.laid (h.held.laid.height_le h.nodup)]
    exact ⟨rfl, fun hin => h.ne_new (h.held.laid.lt hin) rfl⟩
  rejected := h.rejected

end Wrapping

/-- Committing a replacement that was built around its taken target.  The target is erased,
all of it, and the replacement ends up below itself and outside the tree. -/
theorem Build.commit_wrapping {base store : Store} {root target wrapper : NodeId} {child : Child}
    (hknown : base.TypesKnown) (hvalid : base.ValidAt root)
    (hbuilt : Built base root [target] store) (hmoving : store.moving = [target])
    (hnew : base.size ≤ wrapper) (hfree : base.IsFree store wrapper)
    (haround : target ∈ store.preorder wrapper) (hchild : child.node = wrapper) :
    ∃ claimer later, claimer ∈ store.preorder wrapper ∧
      store.claim? target = some (some claimer) ∧
      Build.commit [⟨target, .replace child⟩] store = .ok ((), later) ∧
      Wrapped base store later root target wrapper claimer := by
  obtain ⟨hmoves, tree, rfl, hnodup, hheld⟩ :=
    (Store.violations_eq_nil_iff hknown hvalid.1).mp hvalid.2
  have hrooted : tree.Rooted base := ⟨⟨_, hheld⟩, hnodup⟩
  obtain ⟨plan, hplan, htaken, region, trees, hpiece⟩ := hbuilt.underway hrooted hmoves hknown
  have honly : plan.moving = [target] := List.perm_singleton.mp
    ((List.perm_ext_iff_of_nodup hpiece.draft.once (List.nodup_singleton _)).mpr htaken)
  have htarget := hpiece.below target (honly ▸ List.mem_singleton_self target)
  obtain ⟨old, hold, rfl, hne, hlive⟩ := Workpiece.exists_live hrooted htarget
  obtain ⟨holder, hholder, hslot⟩ := Tree.exists_holder hold hne
  have hlt : wrapper < store.size := by
    by_contra hge
    rw [Store.preorder_of_size_le (Nat.not_lt.mp hge), List.mem_singleton] at haround
    exact Nat.not_lt.mpr hnew (haround ▸ hlive.laid.lt old.id_mem_ids)
  have hfree := hplan.isFree hfree
  have hloose : plan.parent wrapper = none :=
    (hfree.resolve_right (by simp [hpiece.draft.claim?_new hnew])).2.1
  obtain ⟨new, hmem, rfl⟩ := List.mem_map.mp (hpiece.mem_roots (hplan.size ▸ hlt) hfree)
  have hlegible := hplan.legible (hpiece.draft.legible hmem)
  have hpreorder : store.preorder new.id = new.ids :=
    Store.preorder_laid hlegible.laid hlegible.height_le
  rw [hpreorder] at haround
  obtain ⟨claimer, hclaimed⟩ : ∃ claimer, plan.claim? old.id = some (some claimer) := by
    have hmove : old.id ∈ plan.moving := honly ▸ List.mem_singleton_self _
    obtain ⟨⟨node, claim⟩, hmove, rfl⟩ := List.mem_map.mp hmove
    cases claim with
    | some claimer => exact ⟨claimer, Store.claim?_eq_some hpiece.draft.once hmove⟩
    | none =>
        -- an unclaimed subtree is loose itself, so it is not inside the replacement
        obtain ⟨other, hother, he⟩ :=
          List.mem_map.mp ((hpiece.draft.moving _ hmove).2.2.1 rfl)
        have hsame : other = new := Tree.eq_of_common_id hpiece.draft.apart hother hmem
          other.id_mem_ids (he ▸ haround)
        subst hsame
        have hsameId : other.id = old.id := he
        exact absurd (hlive.laid.lt old.id_mem_ids) (Nat.not_lt.mpr (hsameId ▸ hnew))
  have h : Wrapping base tree holder old plan region trees new claimer :=
    ⟨hpiece, hheld, hnodup, hholder, hslot, honly, hclaimed, hmem, hnew, hloose, haround⟩
  obtain ⟨kind, hkind⟩ :
      ∃ kind, (plan.kind claimer).replaceChild? old.id new.id = some kind := by
    refine Option.ne_none_iff_exists'.mp (fun hnone => ?_)
    exact Kind.replaceChild?_eq_none_iff.mp hnone h.claimer_spec.2.2
  have hsettle : store.settle = plan.settle := by
    refine hplan.settle_eq hpiece.draft.once (fun id hid => ?_) (fun id hnone => ?_)
    · obtain ⟨move, hmove, rfl⟩ := List.mem_map.mp hid
      exact hpiece.draft.moved_lt hmove
    · have hid : id ∈ plan.moving := Store.mem_moving_of_claim? hnone
      rw [honly, List.mem_singleton] at hid
      rw [hid, hclaimed] at hnone
      cases hnone
  have hclaim : store.claim? old.id = some (some claimer) := by
    cases hplan.stands old.id with
    | planned _ claim => exact claim.trans hclaimed
    | adopted _ _ _ idle =>
        obtain ⟨move, hmove, hid⟩ := List.mem_map.mp
          (show old.id ∈ store.moving from hmoving ▸ List.mem_singleton_self _)
        exact absurd hid (Store.claim?_eq_none_iff.mp idle move hmove)
    | handed _ claim => rw [hclaimed] at claim; cases claim
  refine ⟨claimer, _, hpreorder ▸ h.claimer_spec.2.1, hclaim,
    (Build.commit_eq_of_settle hsettle _).trans (h.run hkind hchild),
    { h.wrapped hkind with inside := ?_ }⟩
  rw [← hplan.kind]
  exact (h.wrapped hkind).inside

/-- In the unit `a + b;` the name `a` was put in parentheses. -/
def parenthesizedOperand : Store :=
  { nodes := sumStatement.nodes.push ⟨.paren 0, none, none, false⟩
    moves := [⟨0, some 5⟩] }

/-- The name is about to be replaced by `-(a)`. -/
def negatedOperand : Store :=
  { nodes := (sumStatement.nodes.push ⟨.paren 0, none, some 6, false⟩).push
      ⟨.prefixed .minus 5, none, none, false⟩
    moves := [⟨0, some 5⟩] }

theorem built_negatedOperand : Built sumStatement 4 [0] negatedOperand := by
  have htake : Build.take 0 sumStatement = .ok (.moved 0, sumStatement.requestMove 0) := rfl
  have hparen : Build.paren 0 (sumStatement.requestMove 0) = .ok (5, parenthesizedOperand) := by
    decide +kernel
  have hminus : Build.create (.prefixed .minus 5) none parenthesizedOperand =
      .ok (6, negatedOperand) := by decide +kernel
  refine .construct (.construct (.take .start ?_ ?_ htake) (.paren 0) ?_ ?_ hparen)
    (.create (.prefixed .minus 5) none) ?_ ?_ hminus
  · decide +kernel
  · decide +kernel
  · intro node hnode
    obtain rfl := List.mem_singleton.mp hnode
    exact ⟨by decide +kernel, .inr (by decide +kernel)⟩
  · simp
  · intro node hnode
    obtain rfl := List.mem_singleton.mp hnode
    exact ⟨by decide +kernel, .inl (by decide +kernel)⟩
  · simp

theorem Build.commit_wrapping_operand :
    sumStatement.ValidAt 4 ∧ ∃ claimer later,
      Build.commit [⟨0, .replace (.fresh 6)⟩] negatedOperand = .ok ((), later) ∧
        Wrapped sumStatement negatedOperand later 4 0 6 claimer := by
  have hvalid : sumStatement.ValidAt 4 := by decide +kernel
  obtain ⟨claimer, later, -, -, hrun, hwrapped⟩ :=
    @Build.commit_wrapping sumStatement negatedOperand 4 0 6 (.fresh 6) (by decide +kernel) hvalid
      built_negatedOperand (by decide +kernel) (by decide +kernel) (by decide +kernel)
      (by decide +kernel) rfl
  exact ⟨hvalid, claimer, later, hrun, hwrapped⟩

/-- The unit `flag;`. -/
def flagStatement : Store :=
  { nodes := #[
      ⟨.name "flag" none, none, some 1, false⟩,
      ⟨.exprStmt 0, none, some 2, false⟩,
      ⟨.unit [1], none, none, false⟩] }

def parenthesizeFlag : Build Unit := do
  let name ← Build.take 0
  let wrapper ← Build.paren name.node
  Build.commit [⟨0, .replace (.fresh wrapper)⟩]

def lostFlag : Store :=
  { nodes := #[
      ⟨.name "flag" none, none, none, true⟩,
      ⟨.exprStmt 0, none, some 2, false⟩,
      ⟨.unit [1], none, none, false⟩,
      ⟨.paren 3, none, some 3, false⟩] }

/-- The statement still holds the name, which is erased, and the parentheses hold themselves. -/
theorem Build.commit_wrapping_breaks_ownership :
    flagStatement.ValidAt 2 ∧ parenthesizeFlag flagStatement = .ok ((), lostFlag) ∧
      lostFlag.children 1 = [0] ∧ lostFlag.isErased 0 = true ∧
      lostFlag.violations 2 = [.erased 0 1, .strayParent 0 1 none] := by
  decide +kernel

end CodeTidy
