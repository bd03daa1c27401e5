import CodeTidy.Proofs.Reading

/-!
# Changing one subtree

`Tree.put` changes one slot of a tree.  This module says what that does to the terms
(`Term.Swap`), how two changes combine, and what stays beside the changed slot
(`Tree.Beside`), which is what a visit of the tree relies on when it goes on.
-/

namespace CodeTidy

/-! ## Demands of a slot -/

theorem InfixOp.strength_lt_unary (op : InfixOp) : op.strength < Strength.unary := by
  cases op <;> decide

namespace Head

def demand? : Head → Nat → Option Nat
  | chain op, _ => some op.strength
  | prefixed _, _ => some Strength.unary
  | postfixed _, _ => some Strength.trailing
  | field _, _ => some Strength.primary
  | call true _, 0 => some Strength.primary
  | assign _, 0 => some Strength.primary
  | _, _ => none

def strength (head : Head) : Nat :=
  head.strength?.getD Strength.primary

/-- Whether an expression needs no parentheses wherever a strength is demanded: it binds
tighter, or equally and at least as tight as a unary operator. -/
def meets (head : Head) (outer : Nat) : Bool :=
  decide (outer < head.strength) || (outer == head.strength && decide (Strength.unary ≤ outer))

def suits (holder : Head) (position : Nat) (head : Head) : Bool :=
  (holder.demand? position).all head.meets

theorem demand?_le {holder : Head} {position outer : Nat}
    (h : holder.demand? position = some outer) : outer ≤ Strength.primary := by
  unfold demand? at h
  split at h <;> cases h
  · exact Nat.le_trans (Nat.le_of_lt (InfixOp.strength_lt_unary _)) (by decide)
  all_goals decide

theorem meets_of_primary {head : Head} {outer : Nat} (h : head.strength = Strength.primary)
    (hle : outer ≤ Strength.primary) : head.meets outer = true := by
  simp only [meets, h, Bool.or_eq_true, Bool.and_eq_true, beq_iff_eq, decide_eq_true_eq]
  simp only [Strength.primary, Strength.unary] at hle ⊢
  omega

theorem suits_of_primary {holder head : Head} {position : Nat}
    (h : head.strength = Strength.primary) : holder.suits position head = true := by
  unfold suits
  cases hdemand : holder.demand? position with
  | none => rfl
  | some outer => exact meets_of_primary h (demand?_le hdemand)

end Head

/-! ## Terms -/

/-- A term in which one subterm is exchanged for a fresh one, or dropped from a slot
that may be empty.  A fresh expression binds as tight as its slot demands. -/
inductive Term.Swap (old : Term) (fresh : Option Term) : Term → Term → Prop where
  | here {head : Head} {type : Option TypeDesc} {before after : List Term}
      (hdrop : fresh = none → head.canDrop before.length = true)
      (hsuits : old.head.isExpression = true → ∀ new, new ∈ fresh →
        head.suits before.length new.head = true) :
      Swap old fresh (.node head type (before ++ old :: after))
        (.node head type (before ++ (fresh.toList ++ after)))
  | deeper {head : Head} {type : Option TypeDesc} {before after : List Term} {a b : Term}
      (h : Swap old fresh a b) :
      Swap old fresh (.node head type (before ++ a :: after))
        (.node head type (before ++ b :: after))

namespace Tree

variable {tree old below holder : Tree} {fresh : Option Tree} {target : NodeId}

/-! ## How a change acts on the slots -/

theorem flatMap_putSlot_of_not_mem {subs : List Tree} (h : target ∉ subs.flatMap ids) :
    subs.flatMap (putSlot target fresh) = subs := by
  induction subs with
  | nil => rfl
  | cons sub rest ih =>
      rw [List.flatMap_cons, List.mem_append, not_or] at h
      have hne : sub.id ≠ target := fun he => h.1 (he ▸ sub.id_mem_ids)
      rw [List.flatMap_cons, ih h.2, putSlot, if_neg hne, put_eq_self h.1]
      rfl

theorem flatMap_putSlot {before after : List Tree} {sub : Tree}
    (hnodup : ((before ++ sub :: after).flatMap ids).Nodup) (hin : target ∈ sub.ids) :
    (before ++ sub :: after).flatMap (putSlot target fresh) =
      before ++ (putSlot target fresh sub ++ after) := by
  rw [List.flatMap_append, List.flatMap_cons, List.nodup_append', List.nodup_append'] at hnodup
  obtain ⟨_, ⟨_, _, hafter⟩, hbefore⟩ := hnodup
  have hb : target ∉ before.flatMap ids := fun h => hbefore h (List.mem_append_left _ hin)
  have ha : target ∉ after.flatMap ids := fun h => hafter hin h
  rw [List.flatMap_append, List.flatMap_cons, flatMap_putSlot_of_not_mem hb,
    flatMap_putSlot_of_not_mem ha]

def Suits (tree old new : Tree) : Prop :=
  ∀ holder before after, holder ∈ tree.subtrees →
    holder.subs = before ++ old :: after → holder.head.suits before.length new.head = true

theorem suits_of_primary {new : Tree} (h : new.head.strength = Strength.primary) :
    Suits tree old new :=
  fun _ _ _ _ _ => Head.suits_of_primary h

theorem swap_put (hnodup : tree.ids.Nodup) (hold : old ∈ tree.subtrees) (hne : old ≠ tree)
    (hdrop : fresh = none → ∀ holder before after, holder ∈ tree.subtrees →
      holder.subs = before ++ old :: after → holder.head.canDrop before.length = true)
    (hsuits : old.head.isExpression = true → ∀ new, new ∈ fresh → tree.Suits old new) :
    Term.Swap old.term (fresh.map term) tree.term (tree.put old.id fresh).term := by
  induction tree with
  | node i head type subs ih =>
      obtain ⟨sub, hsub, hin⟩ := (mem_subtrees_iff.mp hold).resolve_left hne
      obtain ⟨before, after, rfl⟩ := List.append_of_mem hsub
      have hmem : old.id ∈ sub.ids := mem_ids_iff.mpr ⟨old, hin, rfl⟩
      rw [put_node, flatMap_putSlot (nodup_slots hnodup) hmem, term_node, term_node,
        List.map_append, List.map_append, List.map_append, List.map_cons]
      by_cases hid : sub.id = old.id
      · have heq : sub = old := eq_of_id_eq hnodup
          (sub_mem_subtrees hsub) hold hid
        subst heq
        have hterms : (putSlot sub.id fresh sub).map term = (fresh.map term).toList := by
          rw [putSlot, if_pos rfl]
          cases fresh <;> rfl
        rw [hterms]
        apply Term.Swap.here
        · intro hnone
          rw [List.length_map]
          exact hdrop (by simpa using hnone) _ before after (mem_subtrees_self _) rfl
        · intro hexpr new hnew
          obtain ⟨put, hput, rfl⟩ := Option.map_eq_some_iff.mp hnew
          rw [List.length_map, head_term]
          rw [head_term] at hexpr
          exact hsuits hexpr put hput _ before after (mem_subtrees_self _) rfl
      · have hslot : putSlot old.id fresh sub = [sub.put old.id fresh] := by
          rw [putSlot, if_neg hid]
        rw [hslot]
        apply Term.Swap.deeper
        apply ih sub hsub (nodup_ids_of_mem hnodup
          (sub_mem_subtrees hsub)) hin (fun he => hid (he ▸ rfl))
        · intro hnone up before' after' hup
          exact hdrop hnone up before' after' (mem_subtrees_of_sub hsub hup)
        · intro hexpr new hnew up before' after' hup
          exact hsuits hexpr new hnew up before' after' (mem_subtrees_of_sub hsub hup)

/-! ## Two changes -/

theorem put_self (hnodup : tree.ids.Nodup) (hold : old ∈ tree.subtrees) :
    tree.put old.id (some old) = tree := by
  induction tree with
  | node i head type subs ih =>
      rw [put_node]
      congr 1
      conv_rhs => rw [← List.flatMap_singleton' subs]
      apply List.flatMap_congr
      intro sub hsub
      have hmem : sub ∈ (node i head type subs).subtrees :=
        sub_mem_subtrees hsub
      unfold putSlot
      by_cases hid : sub.id = old.id
      · rw [if_pos hid, eq_of_id_eq hnodup hmem hold hid]
        rfl
      · rw [if_neg hid]
        by_cases hin : old ∈ sub.subtrees
        · rw [ih sub hsub (nodup_ids_of_mem hnodup hmem) hin]
        · rw [put_eq_self]
          intro hid'
          obtain ⟨other, hother, he⟩ := mem_ids_iff.mp hid'
          exact hin (eq_of_id_eq hnodup (mem_subtrees_of_sub hsub hother) hold he ▸ hother)

theorem put_put {new : Tree} {inner : Option Tree} (hnodup : tree.ids.Nodup)
    (hold : old ∈ tree.subtrees) (hne : old ≠ tree) (hid : new.id = old.id)
    (htarget : target ∈ old.subs.flatMap ids) :
    (tree.put old.id (some new)).put target inner =
      tree.put old.id (some (new.put target inner)) := by
  have hout : new.id ≠ target := by
    rw [hid]
    exact fun he => id_not_mem_slots (nodup_ids_of_mem hnodup hold) (he ▸ htarget)
  induction tree with
  | node i head type subs ih =>
      obtain ⟨sub, hsub, hin⟩ := (mem_subtrees_iff.mp hold).resolve_left hne
      obtain ⟨before, after, rfl⟩ := List.append_of_mem hsub
      have hmem : old.id ∈ sub.ids := mem_ids_iff.mpr ⟨old, hin, rfl⟩
      have hslots := nodup_slots hnodup
      have htargetIn : target ∈ sub.ids :=
        ids_subset_of_mem hin (slots_subset_ids _ htarget)
      rw [subs_node, List.flatMap_append, List.flatMap_cons, List.nodup_append',
        List.nodup_append'] at hslots
      obtain ⟨_, ⟨_, _, hafter⟩, hbefore⟩ := hslots
      have hb : target ∉ before.flatMap ids :=
        fun h => hbefore h (List.mem_append_left _ htargetIn)
      have ha : target ∉ after.flatMap ids := fun h => hafter htargetIn h
      rw [put_node, put_node, put_node, flatMap_putSlot (nodup_slots hnodup) hmem,
        flatMap_putSlot (nodup_slots hnodup) hmem, List.flatMap_append, List.flatMap_append,
        flatMap_putSlot_of_not_mem hb, flatMap_putSlot_of_not_mem ha]
      by_cases hroot : sub.id = old.id
      · simp [putSlot, hroot, hout]
      · have hsubOut : sub.id ≠ target := by
          intro he
          have hself := nodup_ids_of_mem hnodup
            (sub_mem_subtrees hsub)
          obtain ⟨above, habove, hslot⟩ := (mem_subtrees_iff.mp hin).resolve_left
            (fun heq => hroot (heq ▸ rfl))
          refine id_not_mem_slots hself (List.mem_flatMap.mpr ⟨above, habove, ?_⟩)
          exact he ▸ ids_subset_of_mem hslot (slots_subset_ids _ htarget)
        have hih := ih sub hsub (nodup_ids_of_mem hnodup
          (sub_mem_subtrees hsub)) hin (fun he => hroot (he ▸ rfl))
        simp [putSlot, hroot, hsubOut, hih]

theorem put_inside (hnodup : tree.ids.Nodup) (hold : old ∈ tree.subtrees) (hne : old ≠ tree)
    (htarget : target ∈ old.subs.flatMap ids) :
    tree.put target fresh = tree.put old.id (some (old.put target fresh)) := by
  conv_lhs => rw [← put_self hnodup hold]
  exact put_put hnodup hold hne rfl htarget

theorem put_comm {a b : NodeId} {x y : Option Tree} (hab : a ≠ b)
    (hx : ∀ new, new ∈ x → b ∉ new.ids) (hy : ∀ new, new ∈ y → a ∉ new.ids) :
    (tree.put a x).put b y = (tree.put b y).put a x := by
  have hstays : ∀ {c : NodeId} {fresh other : Option Tree},
      (∀ new, new ∈ other → c ∉ new.ids) →
      other.toList.flatMap (putSlot c fresh) = other.toList := by
    intro c fresh other hother
    cases other with
    | none => rfl
    | some new =>
        have hout := hother new rfl
        have hne : new.id ≠ c := fun he => hout (he ▸ new.id_mem_ids)
        simp [putSlot, hne, put_eq_self hout]
  induction tree with
  | node i head type subs ih =>
      rw [put_node, put_node, put_node, put_node, List.flatMap_assoc, List.flatMap_assoc]
      congr 1
      apply List.flatMap_congr
      intro sub hsub
      by_cases ha : sub.id = a
      · have hb : sub.id ≠ b := fun he => hab (ha.symm.trans he)
        have hput : (sub.put b y).id = a := by rw [id_put, ha]
        rw [putSlot, if_pos ha, putSlot, if_neg hb, List.flatMap_singleton, putSlot, if_pos hput]
        exact hstays hx
      · by_cases hb : sub.id = b
        · have hput : (sub.put a x).id = b := by rw [id_put, hb]
          rw [putSlot, if_neg ha, putSlot, if_pos hb, List.flatMap_singleton, putSlot, if_pos hput]
          exact (hstays hy).symm
        · simp [putSlot, ha, hb, ih sub hsub]

/-! ## Subtrees beside a change -/

/-- A subtree that is not below the target is still there, changed or not. -/
theorem mem_subtrees_put (hbelow : below ∈ tree.subtrees) (hroot : tree.id ≠ target)
    (hout : ∀ above, above ∈ tree.subtrees → above.id = target →
      below ∉ above.subtrees) :
    below.put target fresh ∈ (tree.put target fresh).subtrees := by
  induction tree with
  | node i head type subs ih =>
      rcases mem_subtrees_iff.mp hbelow with rfl | ⟨sub, hsub, hin⟩
      · exact mem_subtrees_self _
      · have hmem := sub_mem_subtrees hsub
        have hsubOut : sub.id ≠ target := fun he => hout sub hmem he hin
        have hih := ih sub hsub hin hsubOut
          (fun above habove => hout above (mem_subtrees_of_sub hsub habove))
        refine mem_subtrees_of_sub ?_ hih
        rw [put_node, subs_node, List.mem_flatMap]
        exact ⟨sub, hsub, by rw [putSlot, if_neg hsubOut]; exact List.mem_singleton_self _⟩

/-- A change by a tree that is not higher makes no tree higher. -/
theorem height_put_le (hfresh : ∀ above new, above ∈ tree.subtrees → above.id = target →
      fresh = some new → new.height ≤ above.height) :
    (tree.put target fresh).height ≤ tree.height := by
  induction tree with
  | node i head type subs ih =>
      have hpos := height_pos (node i head type subs)
      have hbound : (put target fresh (node i head type subs)).height ≤
          (node i head type subs).height - 1 + 1 := by
        apply height_le_of_subs
        intro new hnew
        rw [put_node, subs_node, List.mem_flatMap] at hnew
        obtain ⟨sub, hsub, hnew⟩ := hnew
        have hlt := height_slot_lt i head type hsub
        have hmem : sub ∈ (node i head type subs).subtrees :=
          sub_mem_subtrees hsub
        unfold putSlot at hnew
        split at hnew
        · next he =>
            have hle := hfresh sub new hmem he (by simpa using hnew)
            omega
        · rw [List.mem_singleton] at hnew
          subst hnew
          have hle := ih sub hsub
            (fun above other habove => hfresh above other (mem_subtrees_of_sub hsub habove))
          omega
      omega

/-- What stays when the subtree at `inner` changes: every node above it keeps its other
children, which grow no higher, unless they are gone. -/
def Beside (gone : NodeId → Prop) (inner : NodeId) (tree later : Tree) : Prop :=
  ∀ up, up ∈ tree.subtrees → inner ∈ up.subs.flatMap ids →
    ∃ up' ∈ later.subtrees, up'.id = up.id ∧
      ∀ child, child ∈ up.subs → child.id ≠ inner →
        (gone child.id ∧ inner ∉ child.ids) ∨
          ∃ child' ∈ up'.subs, child'.id = child.id ∧
            (inner ∉ child.ids → child'.height ≤ child.height)

def Around (gone : NodeId → Prop) (inner : NodeId) (tree later : Tree) : Prop :=
  ∀ up, up ∈ tree.subtrees → inner ∈ up.ids →
    ∃ up' ∈ later.subtrees, up'.id = up.id ∧ inner ∈ up'.ids ∧
      (up.id ≠ inner → ∀ child, child ∈ up.subs →
        (gone child.id ∧ inner ∉ child.ids) ∨
          ∃ child' ∈ up'.subs, child'.id = child.id ∧
            (inner ∉ child.ids → child'.height ≤ child.height))

variable {gone : NodeId → Prop} {later last : Tree} {inner : NodeId}

theorem Around.refl (tree : Tree) : Around gone inner tree tree := by
  intro up hup hin
  refine ⟨up, hup, rfl, hin, ?_⟩
  intro _ child hchild
  exact .inr ⟨child, hchild, rfl, fun _ => Nat.le_refl _⟩

theorem Around.mem_child_iff (h : Around gone inner tree later) (htree : tree.ids.Nodup)
    (hlater : later.ids.Nodup) {up up' child child' : Tree} (hup : up ∈ tree.subtrees)
    (hin : inner ∈ up.ids) (hne : up.id ≠ inner) (hup' : up' ∈ later.subtrees)
    (hid : up'.id = up.id) (hchild : child ∈ up.subs) (hchild' : child' ∈ up'.subs)
    (hcid : child'.id = child.id) : inner ∈ child'.ids ↔ inner ∈ child.ids := by
  have hkept : ∀ (c c' : Tree), c ∈ up.subs → c' ∈ up'.subs → c'.id = c.id →
      inner ∈ c.ids → inner ∈ c'.ids := by
    intro c c' hc hc' hsame hcin
    obtain ⟨c₁, hc₁, hid₁, hin₁, -⟩ := h c (slot_mem_subtrees hup hc) hcin
    have heq : c₁ = c' := eq_of_id_eq hlater hc₁ (slot_mem_subtrees hup' hc')
      (hid₁.trans hsame.symm)
    exact heq ▸ hin₁
  refine ⟨?_, hkept child child' hchild hchild' hcid⟩
  intro hin'
  by_contra hout
  -- another child holds `inner`, and its successor then shares it with `child'`
  rw [ids_eq] at hin
  have hbelow := (List.mem_cons.mp hin).resolve_left (fun he => hne he.symm)
  obtain ⟨other, hother, hotherIn⟩ := List.mem_flatMap.mp hbelow
  obtain ⟨up₁, hup₁, hid₁, -, hslots⟩ := h up hup (by rw [ids_eq]; exact hin)
  have heq : up₁ = up' := eq_of_id_eq hlater hup₁ hup' (hid₁.trans hid.symm)
  subst heq
  rcases hslots hne other hother with ⟨_, hnot⟩ | ⟨other', hother', hoid, -⟩
  · exact hnot hotherIn
  · have hself := nodup_ids_of_mem hlater hup'
    have hsame := eq_of_common_id (nodup_slots hself) hchild' hother' hin'
      (hkept other other' hother hother' hoid hotherIn)
    have hchildEq : child = other := eq_of_id_eq htree
      (slot_mem_subtrees hup hchild)
      (slot_mem_subtrees hup hother)
      (by rw [← hcid, hsame, hoid])
    exact hout (hchildEq ▸ hotherIn)

theorem Around.trans (htree : tree.ids.Nodup) (hlater : later.ids.Nodup)
    (h₁ : Around gone inner tree later) (h₂ : Around gone inner later last) :
    Around gone inner tree last := by
  intro up hup hin
  obtain ⟨up₁, hup₁, hid₁, hin₁, hslots₁⟩ := h₁ up hup hin
  obtain ⟨up₂, hup₂, hid₂, hin₂, hslots₂⟩ := h₂ up₁ hup₁ hin₁
  refine ⟨up₂, hup₂, hid₂.trans hid₁, hin₂, ?_⟩
  intro hne child hchild
  rcases hslots₁ hne child hchild with hgone | ⟨child₁, hchild₁, hcid₁, hheight₁⟩
  · exact .inl hgone
  · have hiff := h₁.mem_child_iff htree hlater hup hin hne hup₁ hid₁ hchild hchild₁ hcid₁
    rcases hslots₂ (by rwa [hid₁]) child₁ hchild₁ with ⟨hgone, hout⟩ |
      ⟨child₂, hchild₂, hcid₂, hheight₂⟩
    · exact .inl ⟨hcid₁ ▸ hgone, fun hmem => hout (hiff.mpr hmem)⟩
    · refine .inr ⟨child₂, hchild₂, hcid₂.trans hcid₁, ?_⟩
      intro hout
      exact Nat.le_trans (hheight₂ (fun hmem => hout (hiff.mp hmem))) (hheight₁ hout)

theorem Around.mono {gone' : NodeId → Prop} (h : Around gone inner tree later)
    (hgone : ∀ id, gone id → gone' id) : Around gone' inner tree later := by
  intro up hup hin
  obtain ⟨up', hup', hid, hin', hslots⟩ := h up hup hin
  refine ⟨up', hup', hid, hin', ?_⟩
  intro hne child hchild
  exact (hslots hne child hchild).imp_left (fun hg => ⟨hgone _ hg.1, hg.2⟩)

theorem Around.beside (h : Around gone inner tree later) (htree : tree.ids.Nodup) :
    Beside gone inner tree later := by
  intro up hup hin
  have hne : up.id ≠ inner :=
    fun he => id_not_mem_slots (nodup_ids_of_mem htree hup) (he ▸ hin)
  obtain ⟨up', hup', hid, -, hslots⟩ := h up hup (Tree.slots_subset_ids _ hin)
  exact ⟨up', hup', hid, fun child hchild _ => hslots hne child hchild⟩

theorem mem_subtrees_of_id_mem {above : Tree} (htree : tree.ids.Nodup)
    (habove : above ∈ tree.subtrees) (hbelow : below ∈ tree.subtrees)
    (hid : below.id ∈ above.ids) : below ∈ above.subtrees := by
  obtain ⟨found, hfound, he⟩ := mem_ids_iff.mp hid
  exact eq_of_id_eq htree (mem_subtrees_trans hfound habove) hbelow he ▸ hfound

/-- What stays beside a child of a node stays around the node. -/
theorem Beside.around {up child : Tree} (h : Beside gone child.id tree later)
    (htree : tree.ids.Nodup) (hlater : later.ids.Nodup) (hup : up ∈ tree.subtrees)
    (hchild : child ∈ up.subs) : Around gone up.id tree later := by
  have hchildUp : ∀ above : Tree, up ∈ above.subtrees → child.id ∈ above.ids := by
    intro above habove
    exact ids_subset_of_mem habove
      (slots_subset_ids _ (List.mem_flatMap.mpr ⟨child, hchild, child.id_mem_ids⟩))
  -- no node above the child has its number
  have hneAbove : ∀ above, above ∈ tree.subtrees → up ∈ above.subtrees →
      above.id ≠ child.id := by
    intro above habove hin he
    have heq : above = child := eq_of_id_eq htree habove
      (slot_mem_subtrees hup hchild) he
    have h₁ := height_lt_of_mem hchild
    have h₂ := height_le_of_mem hin
    rw [heq] at h₂
    omega
  intro above
  induction above with
  | node i head type subs ih =>
      intro habove hin
      have hupIn := mem_subtrees_of_id_mem htree habove hup hin
      have hself := nodup_ids_of_mem htree habove
      have hstrict : child.id ∈ subs.flatMap ids := by
        have hmem := hchildUp _ hupIn
        rw [ids_node] at hmem
        exact (List.mem_cons.mp hmem).resolve_left
          (fun he => hneAbove _ habove hupIn he.symm)
      obtain ⟨above', habove', hid', hslots⟩ := h _ habove hstrict
      have hslotMem : ∀ sub, sub ∈ subs → sub ∈ tree.subtrees := fun sub hsub =>
        slot_mem_subtrees habove hsub
      by_cases hroot : i = up.id
      · refine ⟨above', habove', hid', ?_, fun hne => absurd hroot hne⟩
        rw [id_node, hroot] at hid'
        exact hid' ▸ above'.id_mem_ids
      obtain ⟨mid, hmid, hupMid⟩ := (mem_subtrees_iff.mp hupIn).resolve_left
        (fun he => hroot (by rw [he]; rfl))
      have hmidChild : child.id ∈ mid.ids := hchildUp mid hupMid
      have honly : ∀ sub, sub ∈ subs → child.id ∈ sub.ids → sub = mid :=
        fun sub hsub hsubIn => eq_of_common_id (nodup_slots hself) hsub hmid hsubIn hmidChild
      refine ⟨above', habove', hid', ?_, ?_⟩
      · rcases hslots mid hmid (hneAbove mid (hslotMem mid hmid) hupMid) with ⟨_, hout⟩ |
          ⟨mid', hmid', hmidId, -⟩
        · exact absurd hmidChild hout
        · obtain ⟨mid₁, hmid₁, hmidId₁, hin₁, -⟩ := ih mid hmid (hslotMem mid hmid)
            (mem_ids_iff.mpr ⟨up, hupMid, rfl⟩)
          have hmidMem : mid' ∈ later.subtrees :=
            slot_mem_subtrees habove' hmid'
          have heq : mid₁ = mid' := eq_of_id_eq hlater hmid₁ hmidMem
            (hmidId₁.trans hmidId.symm)
          subst heq
          exact slots_subset_ids _ (List.mem_flatMap.mpr ⟨mid₁, hmid', hin₁⟩)
      · intro _ sub hsub
        have hsubNe : sub.id ≠ child.id := by
          intro he
          have hsame := honly sub hsub (he ▸ sub.id_mem_ids)
          exact hneAbove mid (hslotMem mid hmid) hupMid (hsame ▸ he)
        have houtIff : up.id ∉ sub.ids → child.id ∉ sub.ids := by
          intro hout hsubIn
          rw [honly sub hsub hsubIn] at hout
          exact hout (mem_ids_iff.mpr ⟨up, hupMid, rfl⟩)
        rcases hslots sub hsub hsubNe with ⟨hgone, hout⟩ | ⟨sub', hsub', hsubId, hheight⟩
        · refine .inl ⟨hgone, fun hmem => hout (hchildUp sub ?_)⟩
          exact mem_subtrees_of_id_mem htree (hslotMem sub hsub) hup hmem
        · exact .inr ⟨sub', hsub', hsubId, fun hout => hheight (houtIff hout)⟩

/-! ## Changes and what stays beside them -/

theorem mem_subs_put {child : Tree} (hchild : child ∈ tree.subs) (hne : child.id ≠ target) :
    child.put target fresh ∈ (tree.put target fresh).subs := by
  cases tree with
  | node i head type subs =>
      rw [put_node, subs_node, List.mem_flatMap]
      exact ⟨child, hchild, by rw [putSlot, if_neg hne]; exact List.mem_singleton_self _⟩

/-- A subtree that is not below `old` is still there when `old` changes. -/
theorem mem_subtrees_put_of_not_mem (hnodup : tree.ids.Nodup) (hold : old ∈ tree.subtrees)
    (hbelow : below ∈ tree.subtrees) (hout : below ∉ old.subtrees) :
    below.put old.id fresh ∈ (tree.put old.id fresh).subtrees := by
  have hsame : ∀ above, above ∈ tree.subtrees → above.id = old.id → above = old :=
    fun above habove he => eq_of_id_eq hnodup habove hold he
  apply mem_subtrees_put hbelow
  · intro he
    exact hout (hsame tree (mem_subtrees_self tree) he ▸ hbelow)
  · intro above habove he
    rw [hsame above habove he]
    exact hout

theorem new_mem_subtrees_put {new : Tree} (hnodup : tree.ids.Nodup) (hold : old ∈ tree.subtrees)
    (hne : old ≠ tree) : new ∈ (tree.put old.id (some new)).subtrees := by
  obtain ⟨holder, hholder, hslot⟩ := exists_holder hold hne
  have hout : holder ∉ old.subtrees := by
    intro hmem
    have hlt := height_lt_of_mem hslot
    have hle := height_le_of_mem hmem
    omega
  refine mem_subtrees_trans ?_ (mem_subtrees_put_of_not_mem hnodup hold hholder hout)
  apply sub_mem_subtrees
  cases holder with
  | node i head type subs =>
      rw [put_node, subs_node, List.mem_flatMap]
      exact ⟨old, hslot, by rw [putSlot, if_pos rfl]; exact List.mem_singleton_self new⟩

theorem beside_put (hnodup : tree.ids.Nodup) (hold : old ∈ tree.subtrees) :
    Beside gone old.id tree (tree.put old.id fresh) := by
  intro up hup hin
  have hout : up ∉ old.subtrees := by
    intro hmem
    obtain ⟨sub, hsub, hidIn⟩ := List.mem_flatMap.mp hin
    have hsubMem := slot_mem_subtrees hup hsub
    have h₁ := height_le_of_mem (mem_subtrees_of_id_mem hnodup hsubMem hold hidIn)
    have h₂ := height_le_of_mem hmem
    have h₃ := height_lt_of_mem hsub
    omega
  refine ⟨up.put old.id fresh, mem_subtrees_put_of_not_mem hnodup hold hup hout, id_put .., ?_⟩
  intro child hchild hne
  refine .inr ⟨child.put old.id fresh, mem_subs_put hchild hne, id_put .., ?_⟩
  intro houtChild
  rw [put_eq_self houtChild]

/-- A change of a subtree that does not hold `inner`, by one that is not higher. -/
theorem around_put {new : Tree} (hnodup : tree.ids.Nodup) (hold : old ∈ tree.subtrees)
    (hinner : inner ∉ old.ids) (hheight : new.height ≤ old.height) (hgone : gone old.id) :
    Around gone inner tree (tree.put old.id (some new)) := by
  intro up hup hin
  have hout : up ∉ old.subtrees := fun hmem => hinner (ids_subset_of_mem hmem hin)
  have hbelow : ∀ below, below ∈ up.subtrees → below ∈ tree.subtrees :=
    fun below hmem => mem_subtrees_trans hmem hup
  refine ⟨up.put old.id (some new), mem_subtrees_put_of_not_mem hnodup hold hup hout,
    id_put .., ?_, ?_⟩
  · obtain ⟨found, hfound, rfl⟩ := mem_ids_iff.mp hin
    have hfoundOut : found ∉ old.subtrees :=
      fun hmem => hinner (mem_ids_iff.mpr ⟨found, hmem, rfl⟩)
    refine mem_ids_iff.mpr ⟨found.put old.id (some new), ?_, id_put ..⟩
    apply mem_subtrees_put hfound
    · intro he
      exact hout (eq_of_id_eq hnodup hup hold he ▸ mem_subtrees_self up)
    · intro above habove he
      rw [eq_of_id_eq hnodup (hbelow above habove) hold he]
      exact hfoundOut
  · intro _ child hchild
    have hchildMem := hbelow child (sub_mem_subtrees hchild)
    by_cases he : child.id = old.id
    · have heq := eq_of_id_eq hnodup hchildMem hold he
      exact .inl ⟨heq ▸ hgone, heq ▸ hinner⟩
    · refine .inr ⟨child.put old.id (some new), mem_subs_put hchild he, id_put .., ?_⟩
      intro _
      apply height_put_le
      intro above other habove hid hother
      cases hother
      rw [eq_of_id_eq hnodup (mem_subtrees_trans habove hchildMem) hold hid]
      exact hheight

end Tree

end CodeTidy
