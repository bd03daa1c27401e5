import CodeTidy.Proofs.Grounded
import Mathlib.Logic.Relation

/-!
# What the ownership check decides

The check is a search with a set of nodes that were met, and it is right on every store, also
where slots share nodes or run in circles.  It ends, because every node is met once, and it
finds nothing exactly when no move is waiting and the nodes below the root own each other
(`Store.violations_decide_ownership`).
-/

namespace CodeTidy

namespace Store

variable {store : Store} {root holder id child : NodeId} {seen waiting slots : List NodeId}
  {found : List Violation}

/-! ## Nodes that own each other -/

def Reachable (store : Store) (root id : NodeId) : Prop :=
  Relation.ReflTransGen (fun holder child => child ∈ store.children holder) root id

/-- The nodes that can be reached from the root form a tree whose parent links are right. -/
structure OwnsBelow (store : Store) (root : NodeId) : Prop where
  /-- The root stands in no slot. -/
  free : ∀ holder, store.Reachable root holder → root ∉ store.children holder
  /-- Every other node stands in one slot only, which has an owner and a position. -/
  once : ∀ id, store.Reachable root id → id ≠ root →
    ∃! slot : NodeId × Nat,
      store.Reachable root slot.1 ∧ (store.children slot.1)[slot.2]? = some id
  /-- The parent link names the owner of the slot. -/
  linked : ∀ holder, store.Reachable root holder → ∀ child,
    child ∈ store.children holder → store.parent child = some holder
  live : ∀ id, store.Reachable root id → id ≠ root → store.isErased id = false

def HasSlots (store : Store) : Prop :=
  ∀ holder, holder < store.size → ∀ child, child ∈ store.children holder →
    child < store.size

instance (store : Store) : Decidable store.HasSlots :=
  inferInstanceAs (Decidable (∀ holder, holder < store.size → _))

theorem Reachable.slot (h : store.Reachable root holder) (hchild : id ∈ store.children holder) :
    store.Reachable root id :=
  Relation.ReflTransGen.tail h hchild

theorem HasSlots.lt (h : store.HasSlots) (hchild : id ∈ store.children holder) :
    id < store.size := by
  by_cases hlt : holder < store.size
  · exact h holder hlt id hchild
  · rw [children, kind, node_of_size_le (Nat.not_lt.mp hlt)] at hchild
    cases hchild

/-! ## Paths without circles -/

namespace IsBounded

theorem not_reachable (h : store.IsBounded id) (hchild : child ∈ store.children id) :
    ¬ store.Reachable child id := by
  induction h using IsBounded.induct generalizing child with
  | node id h ih =>
      intro hback
      obtain rfl | ⟨next, hnext, hreach⟩ := Relation.ReflTransGen.cases_head hback
      · exact ih child hchild hchild .refl
      · exact ih child hchild hnext (Reachable.slot hreach hchild)

theorem eq_of_reachable (h : store.IsBounded id) {other : NodeId}
    (hdown : store.Reachable id other) (hback : store.Reachable other id) : other = id := by
  obtain heq | ⟨child, hchild, hreach⟩ := Relation.ReflTransGen.cases_head hdown
  · exact heq.symm
  · exact absurd (Relation.ReflTransGen.trans hreach hback) (h.not_reachable hchild)

/-- The nodes at and below a node are those that can be reached from it. -/
theorem mem_preorder_iff (h : store.IsBounded root) :
    id ∈ store.preorder root ↔ store.Reachable root id := by
  induction h using IsBounded.induct with
  | node root h ih =>
      rw [h.preorder_eq, List.mem_cons, List.mem_flatMap]
      constructor
      · rintro (rfl | ⟨child, hchild, hbelow⟩)
        · exact .refl
        · exact Relation.ReflTransGen.head hchild ((ih child hchild).mp hbelow)
      · intro hreach
        obtain heq | ⟨child, hchild, hbelow⟩ := Relation.ReflTransGen.cases_head hreach
        · exact .inl heq.symm
        · exact .inr ⟨child, hchild, (ih child hchild).mpr hbelow⟩

end IsBounded

namespace OwnsBelow

theorem holder_unique (h : store.OwnsBelow root) {other : NodeId}
    (hholder : store.Reachable root holder) (hother : store.Reachable root other)
    (hin : id ∈ store.children holder) (hin' : id ∈ store.children other) : holder = other := by
  have hlink := h.linked holder hholder id hin
  rw [h.linked other hother id hin', Option.some.injEq] at hlink
  exact hlink.symm

theorem ne_root (h : store.OwnsBelow root) (hholder : store.Reachable root holder)
    (hin : id ∈ store.children holder) : id ≠ root := by
  rintro rfl
  exact h.free holder hholder hin

theorem child_unique (h : store.OwnsBelow root) (hholder : store.Reachable root holder)
    (hbounded : store.IsBounded holder) {other : NodeId} (hchild : child ∈ store.children holder)
    (hother : other ∈ store.children holder) (hin : store.Reachable child id)
    (hin' : store.Reachable other id) : child = other := by
  -- the two paths are followed upwards until one of them ends, which it does below the holder
  induction hin with
  | refl =>
      obtain heq | ⟨above, habove, hslot⟩ := Relation.ReflTransGen.cases_tail hin'
      · exact heq
      · have hreach := Relation.ReflTransGen.trans (hholder.slot hother) habove
        obtain rfl := h.holder_unique hholder hreach hchild hslot
        exact absurd habove (hbounded.not_reachable hother)
  | @tail middle last hmiddle hslot ih =>
      have hreach := Relation.ReflTransGen.trans (hholder.slot hchild) hmiddle
      obtain rfl | ⟨above, habove, hslot'⟩ := Relation.ReflTransGen.cases_tail hin'
      · obtain rfl := h.holder_unique hholder hreach hother hslot
        exact absurd hmiddle (hbounded.not_reachable hchild)
      · have habove' := Relation.ReflTransGen.trans (hholder.slot hother) habove
        obtain rfl := h.holder_unique hreach habove' hslot hslot'
        exact ih habove

theorem nodup_children (h : store.OwnsBelow root) (hholder : store.Reachable root holder) :
    (store.children holder).Nodup := by
  rw [List.nodup_iff_getElem?_ne_getElem?]
  intro i j hij hj hsame
  have hthere : (store.children holder)[j]? = some (store.children holder)[j] :=
    List.getElem?_eq_getElem hj
  have hin : (store.children holder)[j] ∈ store.children holder := List.getElem_mem hj
  have hunique : (holder, i) = (holder, j) :=
    (h.once _ (hholder.slot hin) (h.ne_root hholder hin)).unique
      ⟨hholder, hsame.trans hthere⟩ ⟨hholder, hthere⟩
  have hpositions : i = j := congrArg Prod.snd hunique
  omega

end OwnsBelow

/-! ## The search -/

/-- The search from the waiting nodes, the latest first, until no node waits.  Nodes that were
seen before are not searched again. -/
inductive Searched (store : Store) : List NodeId → List NodeId → List Violation → Prop where
  | done {seen : List NodeId} : Searched store seen [] []
  | look {seen waiting : List NodeId} {holder : NodeId} {later : List Violation}
      (rest : Searched store
        ((store.inspectSlots holder seen (store.children holder)).met ++ seen)
        ((store.inspectSlots holder seen (store.children holder)).met.reverse ++ waiting) later) :
      Searched store seen (holder :: waiting)
        ((store.inspectSlots holder seen (store.children holder)).found ++ later)

/-- A node is met once, in a slot, and only if it was not met before. -/
theorem met_inspectSlots (store : Store) (holder : NodeId) (seen slots : List NodeId) :
    (store.inspectSlots holder seen slots).met.Nodup ∧
      ∀ id, id ∈ (store.inspectSlots holder seen slots).met → id ∉ seen ∧ id ∈ slots := by
  induction slots generalizing seen with
  | nil => simp [inspectSlots]
  | cons child rest ih =>
      by_cases hseen : child ∈ seen
      · simp only [inspectSlots, hseen, if_true]
        exact ⟨(ih seen).1,
          fun id hid => ((ih seen).2 id hid).imp_right (List.mem_cons_of_mem child)⟩
      · simp only [inspectSlots, hseen, if_false]
        obtain ⟨hnodup, hall⟩ := ih (child :: seen)
        refine ⟨List.nodup_cons.mpr ⟨?_, hnodup⟩, ?_⟩
        · intro hmem
          exact (hall child hmem).1 (List.mem_cons_self ..)
        · intro id hid
          rcases List.mem_cons.mp hid with rfl | hlater
          · exact ⟨hseen, List.mem_cons_self ..⟩
          · obtain ⟨hnew, hslot⟩ := hall id hlater
            exact ⟨fun hmem => hnew (List.mem_cons_of_mem _ hmem), List.mem_cons_of_mem _ hslot⟩

/-- The search ends within as many steps as there are nodes to look into or to meet. -/
theorem searched_searchSteps {steps : Nat}
    (hslots : store.HasSlots ∨ store.searchSteps steps seen waiting = [])
    (hsteps : (store.unmet seen).length + waiting.length ≤ steps) :
    store.Searched seen waiting (store.searchSteps steps seen waiting) := by
  induction steps generalizing seen waiting with
  | zero =>
      obtain rfl : waiting = [] := List.length_eq_zero_iff.mp (by omega)
      exact .done
  | succ steps ih =>
      cases waiting with
      | nil => exact .done
      | cons holder waiting =>
          rw [searchSteps, List.append_eq_nil_iff] at hslots
          obtain ⟨hnodup, hmet⟩ := met_inspectSlots store holder seen (store.children holder)
          -- what is met is a node, as a slot of the store or because its parent link is right
          have hlt : ∀ id,
              id ∈ (store.inspectSlots holder seen (store.children holder)).met →
                id < store.size := by
            intro id hid
            rcases hslots with hall | ⟨hfound, -⟩
            · exact hall.lt (hmet id hid).2
            · exact lt_of_parent ((of_inspectSlots_found hfound).2.2 id (hmet id hid).2).2.1
          have hcount := length_unmet_append hnodup
            (fun id hid => ⟨(hmet id hid).1, hlt id hid⟩)
          refine .look (ih (hslots.imp_right And.right) ?_)
          simp only [List.length_append, List.length_reverse, List.length_cons] at hsteps ⊢
          omega

/-! ## From a search to nodes that own each other -/

/-- The slots of the node hold distinct nodes other than the root that were met and are linked
to it. -/
structure InOrder (store : Store) (root : NodeId) (seen : List NodeId) (holder : NodeId) :
    Prop where
  nodup : (store.children holder).Nodup
  slots : ∀ child, child ∈ store.children holder →
    child ∈ seen ∧ child ≠ root ∧ store.parent child = some holder ∧ store.isErased child = false

theorem InOrder.mono {later : List NodeId} (h : store.InOrder root seen holder)
    (hsub : seen ⊆ later) : store.InOrder root later holder where
  nodup := h.nodup
  slots child hchild := (h.slots child hchild).imp_left (fun hmem => hsub hmem)

/-- A search that finds nothing ends with nodes that are all in order.  Before its end those
are in order that were met and are not waiting. -/
theorem Searched.exists_inOrder (h : store.Searched seen waiting found) (hfound : found = [])
    (hroot : root ∈ seen)
    (hdone : ∀ id, id ∈ seen → id ∉ waiting → store.InOrder root seen id) :
    ∃ all, root ∈ all ∧ ∀ id, id ∈ all → store.InOrder root all id := by
  induction h with
  | @done seen => exact ⟨seen, hroot, fun id hid => hdone id hid (by simp)⟩
  | @look seen waiting holder later rest ih =>
      obtain ⟨hnone, hlater⟩ := List.append_eq_nil_iff.mp hfound
      obtain ⟨hmet, hnodup, hslots⟩ := of_inspectSlots_found hnone
      rw [hmet] at ih
      refine ih hlater (List.mem_append_right _ hroot) ?_
      intro id hid hout
      simp only [List.mem_append, List.mem_reverse, not_or] at hid hout
      have hmem : id ∈ seen := hid.resolve_left hout.1
      by_cases heq : id = holder
      · subst heq
        refine ⟨hnodup, fun child hchild => ?_⟩
        obtain ⟨hnew, hlink, hlive⟩ := hslots child hchild
        refine ⟨List.mem_append_left _ hchild, ?_, hlink, hlive⟩
        rintro rfl
        exact hnew hroot
      · refine (hdone id hmem ?_).mono (List.subset_append_right ..)
        intro hwait
        rcases List.mem_cons.mp hwait with rfl | hwait
        · exact heq rfl
        · exact hout.2 hwait

theorem OwnsBelow.of_inOrder {all : List NodeId} (hroot : root ∈ all)
    (hall : ∀ id, id ∈ all → store.InOrder root all id) : store.OwnsBelow root := by
  have hmem : ∀ {id}, store.Reachable root id → id ∈ all := by
    intro id hid
    induction hid with
    | refl => exact hroot
    | @tail holder id _ hchild ih => exact ((hall holder ih).slots id hchild).1
  refine ⟨?_, ?_, ?_, ?_⟩
  · intro holder hholder hin
    exact ((hall holder (hmem hholder)).slots root hin).2.1 rfl
  · intro id hid hne
    obtain heq | ⟨holder, hholder, hchild⟩ := Relation.ReflTransGen.cases_tail hid
    · exact absurd heq.symm (Ne.symm hne)
    · obtain ⟨position, hlt, hslot⟩ := List.getElem_of_mem hchild
      have hthere : (store.children holder)[position]? = some id := by
        rw [List.getElem?_eq_getElem hlt, hslot]
      refine ⟨(holder, position), ⟨hholder, hthere⟩, ?_⟩
      rintro ⟨other, place⟩ ⟨hother, hin⟩
      have hlink := ((hall holder (hmem hholder)).slots id hchild).2.2.1
      have hlink' := ((hall other (hmem hother)).slots id (List.mem_of_getElem? hin)).2.2.1
      obtain rfl : holder = other := by
        rw [hlink, Option.some.injEq] at hlink'
        exact hlink'
      have hsame : position = place :=
        (List.getElem?_inj hlt (hall holder (hmem hholder)).nodup).mp (hthere.trans hin.symm)
      rw [hsame]
  · intro holder hholder child hchild
    exact ((hall holder (hmem hholder)).slots child hchild).2.2.1
  · intro id hid hne
    obtain heq | ⟨holder, hholder, hchild⟩ := Relation.ReflTransGen.cases_tail hid
    · exact absurd heq.symm (Ne.symm hne)
    · exact ((hall holder (hmem hholder)).slots id hchild).2.2.2

/-! ## From nodes that own each other to a search -/

/-- The course of a search through nodes that own each other: what was met can be reached,
and every node but the root was met in a slot of a node that does not wait any more. -/
structure OnCourse (store : Store) (root : NodeId) (seen waiting : List NodeId) : Prop where
  nodup : waiting.Nodup
  met : waiting ⊆ seen
  reachable : ∀ id, id ∈ seen → store.Reachable root id
  holder : ∀ id, id ∈ seen → id = root ∨
    ∃ holder ∈ seen, holder ∉ waiting ∧ id ∈ store.children holder

theorem OnCourse.not_mem (h : store.OnCourse root seen (holder :: waiting))
    (hown : store.OwnsBelow root) (hchild : id ∈ store.children holder) : id ∉ seen := by
  intro hmem
  have hreach := h.reachable holder (h.met (List.mem_cons_self ..))
  rcases h.holder id hmem with rfl | ⟨other, hother, hout, hin⟩
  · exact hown.free holder hreach hchild
  · obtain rfl := hown.holder_unique hreach (h.reachable other hother) hchild hin
    exact hout (List.mem_cons_self ..)

/-- Looking at the slots of the next node keeps the course. -/
theorem OnCourse.next (h : store.OnCourse root seen (holder :: waiting))
    (hown : store.OwnsBelow root) :
    store.OnCourse root (store.children holder ++ seen)
      ((store.children holder).reverse ++ waiting) := by
  have hholder : holder ∈ seen := h.met (List.mem_cons_self ..)
  have hreach := h.reachable holder hholder
  have hout : holder ∉ (store.children holder).reverse ++ waiting := by
    rw [List.mem_append, List.mem_reverse, not_or]
    exact ⟨fun hin => h.not_mem hown hin hholder, (List.nodup_cons.mp h.nodup).1⟩
  refine ⟨?_, ?_, ?_, ?_⟩
  · rw [List.nodup_append']
    refine ⟨List.nodup_reverse.mpr (hown.nodup_children hreach),
      (List.nodup_cons.mp h.nodup).2, ?_⟩
    intro id hchild hwait
    exact h.not_mem hown (List.mem_reverse.mp hchild) (h.met (List.mem_cons_of_mem _ hwait))
  · intro id hid
    rcases List.mem_append.mp hid with hchild | hwait
    · exact List.mem_append_left _ (List.mem_reverse.mp hchild)
    · exact List.mem_append_right _ (h.met (List.mem_cons_of_mem _ hwait))
  · intro id hid
    rcases List.mem_append.mp hid with hchild | hmem
    · exact hreach.slot hchild
    · exact h.reachable id hmem
  · intro id hid
    rcases List.mem_append.mp hid with hchild | hmem
    · exact .inr ⟨holder, List.mem_append_right _ hholder, hout, hchild⟩
    · refine (h.holder id hmem).imp_right ?_
      rintro ⟨other, hother, hnot, hin⟩
      refine ⟨other, List.mem_append_right _ hother, ?_, hin⟩
      rw [List.mem_append, List.mem_reverse, not_or]
      exact ⟨fun hchild => h.not_mem hown hchild hother,
        fun hwait => hnot (List.mem_cons_of_mem _ hwait)⟩

theorem OnCourse.searchSteps_eq_nil (hown : store.OwnsBelow root) {steps : Nat}
    (h : store.OnCourse root seen waiting) : store.searchSteps steps seen waiting = [] := by
  induction steps generalizing seen waiting with
  | zero => rfl
  | succ steps ih =>
      cases waiting with
      | nil => rfl
      | cons holder waiting =>
          have hreach := h.reachable holder (h.met (List.mem_cons_self ..))
          have hlook : store.inspectSlots holder seen (store.children holder) =
              ⟨[], store.children holder⟩ := by
            refine inspectSlots_eq (hown.nodup_children hreach) ?_
            intro child hchild
            exact ⟨h.not_mem hown hchild, hown.linked holder hreach child hchild,
              hown.live child (hreach.slot hchild) (hown.ne_root hreach hchild)⟩
          rw [searchSteps, hlook]
          exact ih (h.next hown)

theorem onCourse_root (store : Store) (root : NodeId) : store.OnCourse root [root] [root] where
  nodup := List.nodup_singleton root
  met := List.Subset.refl _
  reachable id hid := by
    rw [List.mem_singleton.mp hid]
    exact .refl
  holder id hid := .inl (List.mem_singleton.mp hid)

/-- The search finds nothing exactly in nodes that own each other. -/
theorem searchSteps_root_eq_nil_iff (store : Store) (root : NodeId) :
    store.searchSteps (store.size + 1) [root] [root] = [] ↔ store.OwnsBelow root := by
  constructor
  · intro hnone
    have hsearched := searched_searchSteps (.inr hnone) (length_unmet_root store root)
    obtain ⟨all, hroot, hall⟩ :=
      @Searched.exists_inOrder store root _ _ _ hsearched hnone (List.mem_singleton_self root)
        (fun id hid hout => absurd hid hout)
    exact .of_inOrder hroot hall
  · exact fun hown => (onCourse_root store root).searchSteps_eq_nil hown

/-- The check ends on every store, and it finds nothing exactly if no move is waiting and the
nodes below the root own each other. -/
theorem violations_decide_ownership (store : Store) (root : NodeId) :
    (store.HasSlots → ∃ found, store.Searched [root] [root] found ∧
      store.violations root =
        (if store.moves.isEmpty then [] else [.waitingMoves]) ++ found) ∧
    (store.violations root = [] ↔ store.moves = [] ∧ store.OwnsBelow root) := by
  constructor
  · intro hslots
    exact ⟨_, searched_searchSteps (.inl hslots) (length_unmet_root store root), rfl⟩
  · rw [violations_eq_nil_iff_search, searchSteps_root_eq_nil_iff]

/-- Two blocks, each of which stands in the other. -/
def circle : Store where
  nodes := #[
    ⟨.block [1], none, some 1, false⟩,
    ⟨.block [0], none, some 0, false⟩]

/-- The search of the circle ends where it comes back to its first block. -/
theorem violations_decide_ownership_circle :
    circle.HasSlots ∧ (∃ found, circle.Searched [0] [0] found) ∧
      circle.violations 0 = [.shared 0] ∧ ¬ circle.OwnsBelow 0 := by
  have hslots : circle.HasSlots := by decide
  have hfound : circle.violations 0 = [.shared 0] := by decide
  obtain ⟨hends, hiff⟩ := violations_decide_ownership circle 0
  obtain ⟨found, hsearched, -⟩ := hends hslots
  refine ⟨hslots, ⟨found, hsearched⟩, hfound, fun hown => ?_⟩
  rw [hiff.mpr ⟨rfl, hown⟩] at hfound
  cases hfound

end Store

end CodeTidy
