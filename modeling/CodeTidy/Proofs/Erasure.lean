import CodeTidy.Proofs.Commit
import Mathlib.Data.Finset.Card
import Mathlib.Data.Finset.Range

/-!
# What erasing takes along

A node owns the children that are linked to it, and what these own.  Erasing a node erases
exactly what it owns, on every store, also where slots share nodes or run in circles
(`Build.erase_takes_owned`).

The nodes to erase are found by recursion (`Store.erase`) or by a loop over nodes that wait
(`Store.Emptied`).  The loop ends, because every turn clears a link or takes away a waiting node
that has none.  `Store.Swept` is the invariant of both.
-/

namespace CodeTidy

namespace Store

variable {start current store later : Store} {root id child : NodeId} {waiting : List NodeId}
  {gone : NodeId → Prop}

/-! ## Owned nodes -/

/-- The nodes that `root` owns: the least set that holds the root and, with a node, every child
in its slots whose parent link names it. -/
inductive Owns (store : Store) (root : NodeId) : NodeId → Prop where
  | self : Owns store root root
  | slot {holder child : NodeId} (above : Owns store root holder)
      (stands : child ∈ store.children holder) (linked : store.parent child = some holder) :
      Owns store root child

theorem Owns.lt (h : store.Owns root id) (hroot : root < store.size) : id < store.size := by
  cases h with
  | self => exact hroot
  | slot _ _ linked => exact lt_of_parent linked

theorem Owns.trans {middle : NodeId} (h : store.Owns root middle) (hnext : store.Owns middle id) :
    store.Owns root id := by
  induction hnext with
  | self => exact h
  | slot above stands linked ih => exact .slot ih stands linked

def linkedSlots (store : Store) (holder : NodeId) : List NodeId :=
  (store.children holder).filter (fun child => store.parent child = some holder)

theorem mem_linkedSlots {holder : NodeId} : child ∈ store.linkedSlots holder ↔
    child ∈ store.children holder ∧ store.parent child = some holder := by
  rw [linkedSlots, List.mem_filter, decide_eq_true_eq]

/-! ## The loop over waiting nodes -/

/-- The waiting nodes are erased, the latest first, until no node waits.  An erased node loses
its own link first, and then the children that are linked to it begin to wait.  One rule applies
to each list of waiting nodes, so a derivation is a whole run of the loop. -/
inductive Emptied : Store → List NodeId → Store → Prop where
  | done {store : Store} : Emptied store [] store
  | next {store later : Store} {id : NodeId} {waiting : List NodeId}
      (rest : Emptied (store.retire id) (((store.retire id).linkedSlots id).reverse ++ waiting)
        later) :
      Emptied store (id :: waiting) later

def linked (store : Store) : Finset NodeId :=
  (Finset.range store.size).filter (fun id => (store.parent id).isSome = true)

theorem parent_retire (id other : NodeId) :
    (store.retire id).parent other = if other = id then none else store.parent other := by
  rw [parent, node_retire]
  by_cases he : other = id
  · subst he
    rw [if_pos rfl]
    split
    · rfl
    · next hout =>
        rw [node_of_size_le (Nat.not_lt.mp fun hlt => hout ⟨rfl, hlt⟩)]
        rfl
  · rw [if_neg he, if_neg fun h => he h.1.symm]
    rfl

theorem size_retire (id : NodeId) : (store.retire id).size = store.size :=
  (fades_retire id).size

theorem mem_linked : id ∈ store.linked ↔ (store.parent id).isSome = true := by
  rw [linked, Finset.mem_filter, Finset.mem_range, and_iff_right_iff_imp]
  intro hsome
  obtain ⟨holder, hlink⟩ := Option.isSome_iff_exists.mp hsome
  exact lt_of_parent hlink

theorem linked_retire (id : NodeId) : (store.retire id).linked = store.linked.erase id := by
  ext other
  rw [mem_linked, Finset.mem_erase, mem_linked, parent_retire]
  by_cases he : other = id <;> simp [he]

def unlinked (store : Store) (waiting : List NodeId) : List NodeId :=
  waiting.filter (fun id => (store.parent id).isNone)

/-- A node without a link does not wait again, and it clears no link of a waiting node. -/
theorem unlinked_retire (h : store.parent id = none) :
    (store.retire id).unlinked (((store.retire id).linkedSlots id).reverse ++ waiting) =
      store.unlinked waiting := by
  have hslots : (store.retire id).unlinked ((store.retire id).linkedSlots id).reverse = [] := by
    refine List.filter_eq_nil_iff.mpr fun child hchild => ?_
    rw [(mem_linkedSlots.mp (List.mem_reverse.mp hchild)).2]
    exact Bool.false_ne_true
  have hsame : (store.retire id).parent = store.parent := by
    funext other
    rw [parent_retire]
    split
    · next he => rw [he, h]
    · rfl
  rw [unlinked, List.filter_append, ← unlinked, hslots, List.nil_append, unlinked, hsame]

/-- The loop ends on every store, whatever nodes wait. -/
theorem exists_emptied (store : Store) (waiting : List NodeId) :
    ∃ later, Emptied store waiting later := by
  match waiting with
  | [] => exact ⟨store, .done⟩
  | id :: waiting =>
      obtain ⟨later, hrest⟩ := exists_emptied (store.retire id)
        (((store.retire id).linkedSlots id).reverse ++ waiting)
      exact ⟨later, .next hrest⟩
termination_by (store.linked.card, (store.unlinked waiting).length)
decreasing_by
  rw [linked_retire]
  cases hlink : store.parent id with
  | some holder =>
      exact Prod.Lex.left _ _ (Finset.card_erase_lt_of_mem (mem_linked.mpr (by rw [hlink]; rfl)))
  | none =>
      have hout : id ∉ store.linked := by
        rw [mem_linked, hlink]
        exact Bool.false_ne_true
      rw [Finset.erase_eq_of_notMem hout, unlinked_retire hlink]
      refine Prod.Lex.right _ ?_
      rw [unlinked, unlinked, List.filter_cons_of_pos (by rw [hlink]; rfl), List.length_cons]
      exact Nat.lt_succ_self _

/-! ## A moment of erasing -/

theorem eq_of_node (hsize : store.size = later.size) (htypes : store.types = later.types)
    (hmoves : store.moves = later.moves) (hnode : ∀ id, store.node id = later.node id) :
    store = later := by
  have hnodes : store.nodes = later.nodes := by
    refine Array.ext hsize fun id hlt hlt' => ?_
    have hsame := hnode id
    rw [node, node, Array.getD_eq_getD_getElem?, Array.getD_eq_getD_getElem?,
      Array.getElem?_eq_getElem hlt, Array.getElem?_eq_getElem hlt'] at hsame
    exact hsame
  cases store
  cases later
  cases hnodes
  cases htypes
  cases hmoves
  rfl

/-- The nodes of `gone` were erased and all else is as at the start.  Only owned nodes are
concerned, and every child that is linked to an erased node was erased too or waits. -/
structure Swept (start : Store) (root : NodeId) (gone : NodeId → Prop) (waiting : List NodeId)
    (current : Store) : Prop where
  fades : start.Fades current
  erased : ∀ id, gone id →
    current.node id = { start.node id with erased := true, parent := none }
  kept : ∀ id, ¬ gone id → current.node id = start.node id
  owned : ∀ id, gone id ∨ id ∈ waiting → start.Owns root id
  reached : gone root ∨ root ∈ waiting
  closed : ∀ holder, gone holder → ∀ child, child ∈ start.linkedSlots holder →
    gone child ∨ child ∈ waiting

theorem swept_root (store : Store) (root : NodeId) :
    store.Swept root (fun _ => False) [root] store where
  fades := .refl store
  erased _ h := h.elim
  kept _ _ := rfl
  owned id h := by
    rw [List.mem_singleton.mp (h.resolve_left fun h => h)]
    exact .self
  reached := .inr (List.mem_singleton_self root)
  closed _ h := h.elim

namespace Swept

theorem parent_eq_some_iff (h : start.Swept root gone waiting current) {holder : NodeId} :
    current.parent id = some holder ↔ start.parent id = some holder ∧ ¬ gone id := by
  by_cases hgone : gone id
  · rw [parent, h.erased id hgone]
    simp [hgone]
  · rw [parent, h.kept id hgone]
    simp [hgone, parent]

theorem mem_linkedSlots_iff (h : start.Swept root gone waiting current) {holder : NodeId} :
    child ∈ current.linkedSlots holder ↔ child ∈ start.linkedSlots holder ∧ ¬ gone child := by
  rw [mem_linkedSlots, mem_linkedSlots, children, h.fades.kind, h.parent_eq_some_iff, and_assoc]
  rfl

theorem owns_next (h : start.Swept root gone (id :: waiting) current) : start.Owns root id :=
  h.owned id (.inr (List.mem_cons_self ..))

theorem node_retire_next (h : start.Swept root gone (id :: waiting) current)
    (hroot : root < start.size) (other : NodeId) : (current.retire id).node other =
      if id = other then { current.node other with erased := true, parent := none }
      else current.node other := by
  rw [node_retire, h.fades.size]
  simp [h.owns_next.lt hroot]

/-- Erasing the next node.  Its own children begin to wait, at least those of them that were not
erased before. -/
theorem visit (h : start.Swept root gone (id :: waiting) current) (hroot : root < start.size)
    {fresh : List NodeId} (hfresh : fresh ⊆ start.linkedSlots id)
    (hall : ∀ child, child ∈ start.linkedSlots id → ¬ gone child → child ≠ id →
      child ∈ fresh) :
    start.Swept root (fun other => gone other ∨ other = id) (fresh ++ waiting)
      (current.retire id) where
  fades := h.fades.trans (fades_retire id)
  erased other hother := by
    rw [h.node_retire_next hroot]
    by_cases hgone : gone other
    · rw [h.erased other hgone]
      split <;> rfl
    · rw [if_pos (hother.resolve_left hgone).symm, h.kept other hgone]
  kept other hother := by
    rw [not_or] at hother
    rw [h.node_retire_next hroot, if_neg (Ne.symm hother.2), h.kept other hother.1]
  owned := by
    rintro other ((hgone | rfl) | hwait)
    · exact h.owned other (.inl hgone)
    · exact h.owns_next
    · rcases List.mem_append.mp hwait with hnew | hold
      · obtain ⟨hslot, hlink⟩ := mem_linkedSlots.mp (hfresh hnew)
        exact .slot h.owns_next hslot hlink
      · exact h.owned other (.inr (List.mem_cons_of_mem _ hold))
  reached := by
    rcases h.reached with hgone | hwait
    · exact .inl (.inl hgone)
    · rcases List.mem_cons.mp hwait with heq | hlater
      · exact .inl (.inr heq)
      · exact .inr (List.mem_append_right _ hlater)
  closed holder hholder child hchild := by
    by_cases hdone : gone child ∨ child = id
    · exact .inl hdone
    · refine .inr (List.mem_append.mpr ?_)
      rcases hholder with hgone | rfl
      · -- the child waited before, behind the node that was erased now
        have hwait := (h.closed holder hgone child hchild).resolve_left fun hc => hdone (.inl hc)
        exact .inr ((List.mem_cons.mp hwait).resolve_left fun he => hdone (.inr he))
      · rw [not_or] at hdone
        exact .inl (hall child hchild hdone.1 hdone.2)

/-- A waiting node that was erased in the meantime need not be visited. -/
theorem skip (h : start.Swept root gone (child :: waiting) current) (hgone : gone child) :
    start.Swept root gone waiting current := by
  have hdrop : ∀ id, gone id ∨ id ∈ child :: waiting → gone id ∨ id ∈ waiting := by
    rintro id (hid | hid)
    · exact .inl hid
    · rcases List.mem_cons.mp hid with rfl | hid
      · exact .inl hgone
      · exact .inr hid
  exact
    { fades := h.fades, erased := h.erased, kept := h.kept
      owned := fun id hid => h.owned id (hid.imp_right (List.mem_cons_of_mem _))
      reached := hdrop root h.reached
      closed := fun holder hholder id hid => hdrop id (h.closed holder hholder id hid) }

/-- Once no node waits, exactly the owned nodes were erased. -/
theorem gone_iff (h : start.Swept root gone [] current) : gone id ↔ start.Owns root id := by
  constructor
  · exact fun hid => h.owned id (.inl hid)
  · intro howns
    induction howns with
    | self => exact h.reached.resolve_right List.not_mem_nil
    | @slot holder child _ stands linked ih =>
        exact (h.closed holder ih child (mem_linkedSlots.mpr ⟨stands, linked⟩)).resolve_right
          List.not_mem_nil

/-- What is left when no node waits does not depend on the order of the visits. -/
theorem unique {gone' : NodeId → Prop} (h : start.Swept root gone [] current)
    (h' : start.Swept root gone' [] later) : current = later := by
  have hnode : ∀ id, current.node id = later.node id := by
    intro id
    by_cases howns : start.Owns root id
    · rw [h.erased id (h.gone_iff.mpr howns), h'.erased id (h'.gone_iff.mpr howns)]
    · rw [h.kept id (mt h.gone_iff.mp howns), h'.kept id (mt h'.gone_iff.mp howns)]
  exact eq_of_node (h.fades.size.trans h'.fades.size.symm) (h.fades.types.trans h'.fades.types.symm)
    (h.fades.moves.trans h'.fades.moves.symm) hnode

/-! ## The loop and the recursion -/

theorem emptied (h : start.Swept root gone waiting current) (hroot : root < start.size)
    (hloop : Emptied current waiting later) : ∃ gone', start.Swept root gone' [] later := by
  induction hloop generalizing gone with
  | done => exact ⟨gone, h⟩
  | @next current later id waiting rest ih =>
      have hvisit := h.visit hroot (List.Subset.refl _) (fun _ hchild _ _ => hchild)
      refine ih (h.visit hroot ?_ ?_)
      · intro child hchild
        exact (hvisit.mem_linkedSlots_iff.mp (List.mem_reverse.mp hchild)).1
      · intro child hchild hlive hne
        have hlinked := hvisit.mem_linkedSlots_iff.mpr ⟨hchild, not_or.mpr ⟨hlive, hne⟩⟩
        exact List.mem_reverse.mpr hlinked

/-- The recursion visits those slots of a node that are still linked to it. -/
theorem foldl_slots {bound : Nat} {erase : NodeId → Store → Store}
    (herase : ∀ child gone waiting current, start.Swept root gone (child :: waiting) current →
      (current.parent child).isSome = true → current.linked.card ≤ bound →
      ∃ gone', start.Swept root gone' waiting (erase child current) ∧
        (erase child current).linked.card ≤ bound)
    (slots : List NodeId)
    (h : start.Swept root gone
      (slots.filter (fun child => start.parent child = some id) ++ waiting) current)
    (hbound : current.linked.card ≤ bound) :
    ∃ gone' last, slots.foldl (fun rest child =>
        if rest.parent child = some id then erase child rest else rest) current = last ∧
      start.Swept root gone' waiting last ∧ last.linked.card ≤ bound := by
  induction slots generalizing gone current with
  | nil => exact ⟨gone, current, rfl, h, hbound⟩
  | cons child slots ih =>
      rw [List.foldl_cons]
      by_cases hlink : start.parent child = some id
      · rw [List.filter_cons_of_pos (by simpa using hlink), List.cons_append] at h
        split
        · next hthere =>
            obtain ⟨gone', hnext, hless⟩ :=
              herase child gone _ current h (by rw [hthere]; rfl) hbound
            exact ih hnext hless
        · next hcleared =>
            -- the child was erased in the meantime, in another slot or from below
            have hgone : gone child := by
              by_contra hlive
              exact hcleared (h.parent_eq_some_iff.mpr ⟨hlink, hlive⟩)
            exact ih (h.skip hgone) hbound
      · rw [List.filter_cons_of_neg (by simpa using hlink)] at h
        rw [if_neg fun hthere => hlink (h.parent_eq_some_iff.mp hthere).1]
        exact ih h hbound

/-- The recursion erases what is owned, if it has as many steps as there are links. -/
theorem eraseSteps (h : start.Swept root gone (id :: waiting) current) (hroot : root < start.size)
    {steps : Nat} (hsteps : (current.retire id).linked.card < steps) :
    ∃ gone', start.Swept root gone' waiting (Store.eraseSteps steps id current) ∧
      (Store.eraseSteps steps id current).linked.card ≤ (current.retire id).linked.card := by
  induction steps generalizing id gone waiting current with
  | zero => exact absurd hsteps (Nat.not_lt_zero _)
  | succ steps ih =>
      have hslot : ∀ child gone waiting middle,
          start.Swept root gone (child :: waiting) middle →
          (middle.parent child).isSome = true →
          middle.linked.card ≤ (current.retire id).linked.card →
          ∃ gone', start.Swept root gone' waiting (Store.eraseSteps steps child middle) ∧
            (Store.eraseSteps steps child middle).linked.card ≤
              (current.retire id).linked.card := by
        intro child gone waiting middle hmiddle hlink hless
        have hfewer : (middle.retire child).linked.card < middle.linked.card := by
          rw [linked_retire]
          exact Finset.card_erase_lt_of_mem (mem_linked.mpr hlink)
        obtain ⟨gone', hnext, hend⟩ := ih hmiddle (by omega)
        exact ⟨gone', hnext, by omega⟩
      rw [Store.eraseSteps, children, h.fades.kind]
      obtain ⟨gone', last, rfl, hswept, hless⟩ := foldl_slots hslot (start.children id)
        (h.visit hroot (List.Subset.refl _) (fun _ hchild _ _ => hchild)) (Nat.le_refl _)
      exact ⟨gone', hswept, hless⟩

end Swept

/-- A node of the store has enough steps to erase what it owns. -/
theorem exists_swept_erase (hroot : root < store.size) :
    ∃ gone, store.Swept root gone [] (store.erase root) := by
  have hsteps : (store.retire root).linked.card < store.size := by
    -- the node has no link to itself any more
    have hsub : (store.retire root).linked ⊂ Finset.range store.size := by
      refine Finset.ssubset_iff_of_subset (fun id hid => ?_) |>.mpr ⟨root, ?_, ?_⟩
      · rw [linked, size_retire] at hid
        exact (Finset.mem_filter.mp hid).1
      · exact Finset.mem_range.mpr hroot
      · rw [linked_retire]
        exact Finset.notMem_erase root _
    have hcard := Finset.card_lt_card hsub
    rwa [Finset.card_range] at hcard
  obtain ⟨gone, hswept, -⟩ := (store.swept_root root).eraseSteps hroot hsteps
  exact ⟨gone, hswept⟩

end Store

/-- Erasing a node of the store succeeds, and the loop over waiting nodes ends with the same
result.  Exactly the nodes that the given one owns are marked as erased and lose their parent
link; every other node is unchanged, and no kind or type changes. -/
theorem Build.erase_takes_owned {store : Store} {root : NodeId} (hroot : root < store.size) :
    ∃ later, Build.erase root store = .ok ((), later) ∧ Store.Emptied store [root] later ∧
      later.size = store.size ∧ later.types = store.types ∧ later.moves = store.moves ∧
      (∀ id, store.Owns root id →
        later.node id = { store.node id with erased := true, parent := none }) ∧
      ∀ id, ¬ store.Owns root id → later.node id = store.node id := by
  obtain ⟨gone, hswept⟩ := Store.exists_swept_erase hroot
  obtain ⟨later, hloop⟩ := Store.exists_emptied store [root]
  obtain ⟨gone', hemptied⟩ := (store.swept_root root).emptied hroot hloop
  obtain rfl := hswept.unique hemptied
  have hrun : Build.erase root store = .ok ((), store.erase root) :=
    (bind_ok (run_lookup hroot)).trans (run_modify _ store)
  exact ⟨_, hrun, hloop, hswept.fades.size, hswept.fades.types, hswept.fades.moves,
    fun id howns => hswept.erased id (hswept.gone_iff.mpr howns),
    fun id howns => hswept.kept id (mt hswept.gone_iff.mp howns)⟩

/-- Two blocks that stand in each other, the second of them twice.  The first block also holds a
block that is linked to the last one, and the break of the second stands in the last one too. -/
def Store.tangle : Store where
  nodes := #[
    ⟨.block [1, 1, 2], none, some 1, false⟩,
    ⟨.block [0, 3], none, some 0, false⟩,
    ⟨.block [], none, some 4, false⟩,
    ⟨.breakStmt none, none, some 1, false⟩,
    ⟨.block [2, 3], none, none, false⟩]

/-- Erasing the first block takes the second one and its break along, and nothing else. -/
theorem Build.erase_takes_owned_tangle :
    0 < Store.tangle.size ∧ ∃ later, Build.erase 0 Store.tangle = .ok ((), later) ∧
      Store.Emptied Store.tangle [0] later ∧
      (∀ id, id ∈ [0, 1, 3] → later.isErased id = true ∧ later.parent id = none) ∧
      ∀ id, id ∈ [2, 4] → later.node id = Store.tangle.node id := by
  have hroot : 0 < Store.tangle.size := by decide
  obtain ⟨later, hrun, hloop, -, -, -, hgone, hkept⟩ := Build.erase_takes_owned hroot
  have hsecond : Store.tangle.Owns 0 1 := .slot .self (by decide) rfl
  have hbreak : Store.tangle.Owns 0 3 := .slot hsecond (by decide) rfl
  have hlast : ¬ Store.tangle.Owns 0 4 := by
    rintro (_ | ⟨-, -, hlink⟩)
    cases hlink
  have hother : ¬ Store.tangle.Owns 0 2 := by
    rintro (_ | ⟨habove, -, hlink⟩)
    cases hlink
    exact hlast habove
  refine ⟨hroot, later, hrun, hloop, fun id hid => ?_, fun id hid => hkept id ?_⟩
  · have howns : Store.tangle.Owns 0 id := by
      rcases List.mem_cons.mp hid with rfl | hid
      · exact .self
      · rcases List.mem_pair.mp hid with rfl | rfl
        · exact hsecond
        · exact hbreak
    rw [Store.isErased, Store.parent, hgone id howns]
    exact ⟨rfl, rfl⟩
  · rcases List.mem_pair.mp hid with rfl | rfl
    · exact hother
    · exact hlast

end CodeTidy
