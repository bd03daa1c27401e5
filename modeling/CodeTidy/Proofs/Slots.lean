import CodeTidy.Proofs.Term

/-!
# The slots of a kind

Listing, mapping, replacing, removing and inserting children agree on the slots of every kind and
on their order (`Kind.slots_agree`).  What each of them does is told by positions in the list of
children: that list and the head determine the kind (`Kind.eq_of_slots`).

`Kind.visitSlotsM` names the slots of every kind on its own.  Mapping the children is such a visit
(`Kind.mapChildrenM_eq_visitSlotsM`), and so is replacing one (`Kind.replaceChild?_eq_swapChild?`).
-/

namespace CodeTidy

namespace Kind

variable {m : Type → Type} [Monad m] {kind changed other : Kind} {child old fresh anchor : NodeId}
  {slots before after : List NodeId} {side : Side}

theorem toList_inj {a b : Option NodeId} : a.toList = b.toList ↔ a = b := by
  cases a <;> cases b <;> simp

theorem eq_of_slots (hhead : other.head = kind.head) (hchildren : other.children = kind.children) :
    other = kind := by
  cases kind with
  | call receiver method args =>
      cases other <;> simp only [head, reduceCtorEq, Head.call.injEq] at hhead
      next receiver' method' args' =>
        -- the head tells where the arguments begin
        cases receiver <;> cases receiver' <;> simp_all [children]
  | _ =>
      cases other <;> cases hhead
      simp_all [children, toList_inj]

/-! ## Visiting the slots -/

/-- Runs `f` on one slot after the other, in source order, and puts the results into the slots. -/
def visitSlotsM (f : NodeId → m NodeId) : Kind → m Kind
  | literal value => return literal value
  | name text binding => return name text binding
  | qualified qualifier simple => return qualified (← f qualifier) (← f simple)
  | field target label => return field (← f target) label
  | paren inner => return paren (← f inner)
  | prefixed op operand => return prefixed op (← f operand)
  | postfixed op operand => return postfixed op (← f operand)
  | chain op operands => return chain op (← operands.mapM f)
  | assign op target value => return assign op (← f target) (← f value)
  | call receiver method args => return call (← receiver.mapM f) method (← args.mapM f)
  | creation args => return creation (← args.mapM f)
  | exprStmt expr => return exprStmt (← f expr)
  | varDecl text binding init => return varDecl text binding (← init.mapM f)
  | block stmts => return block (← stmts.mapM f)
  | ifStmt cond thenBranch elseBranch =>
      return ifStmt (← f cond) (← f thenBranch) (← elseBranch.mapM f)
  | whileStmt cond body => return whileStmt (← f cond) (← f body)
  | switchStmt subject body => return switchStmt (← f subject) (← body.mapM f)
  | caseLabel label => return caseLabel (← label.mapM f)
  | breakStmt label => return breakStmt label
  | continueStmt label => return continueStmt label
  | returnStmt value => return returnStmt (← value.mapM f)
  | throwStmt expr => return throwStmt (← f expr)
  | unit members => return unit (← members.mapM f)

theorem mapChildrenM_eq_visitSlotsM [LawfulMonad m] (f : NodeId → m NodeId) (kind : Kind) :
    kind.mapChildrenM f = kind.visitSlotsM f := by
  cases kind with
  | call receiver method args =>
      cases receiver <;> simp [mapChildrenM, visitSlotsM, children, withChildren]
  | varDecl text binding init =>
      cases init <;> simp [mapChildrenM, visitSlotsM, children, withChildren]
  | ifStmt cond thenBranch elseBranch =>
      cases elseBranch <;> simp [mapChildrenM, visitSlotsM, children, withChildren]
  | caseLabel label => cases label <;> simp [mapChildrenM, visitSlotsM, children, withChildren]
  | returnStmt value => cases value <;> simp [mapChildrenM, visitSlotsM, children, withChildren]
  | _ => simp [mapChildrenM, visitSlotsM, children, withChildren]

/-- A visit runs `f` on the list of children.  The results become the children, and the head
stays. -/
theorem slots_visitSlotsM [LawfulMonad m] (f : NodeId → m NodeId) (kind : Kind) :
    (fun changed => (changed.head, changed.children)) <$> kind.visitSlotsM f =
      (fun results => (kind.head, results)) <$> kind.children.mapM f := by
  cases kind with
  | call receiver method args => cases receiver <;> simp [visitSlotsM, children, head]
  | varDecl text binding init => cases init <;> simp [visitSlotsM, children, head]
  | ifStmt cond thenBranch elseBranch => cases elseBranch <;> simp [visitSlotsM, children, head]
  | caseLabel label => cases label <;> simp [visitSlotsM, children, head]
  | returnStmt value => cases value <;> simp [visitSlotsM, children, head]
  | _ => simp [visitSlotsM, children, head]

/-! ## Replacing -/

/-- Puts `fresh` in the place of the first `old`.  The state tells whether `old` was met. -/
def swapFirst (old fresh slot : NodeId) : StateM Bool NodeId := fun met =>
  if slot = old ∧ met = false then (fresh, true) else (slot, met)

/-- Visits the slots with `swapFirst`; fails if `old` is not met. -/
def swapChild? (kind : Kind) (old fresh : NodeId) : Option Kind :=
  let (changed, met) := Id.run ((kind.visitSlotsM (swapFirst old fresh)).run false)
  if met then some changed else none

@[simp] theorem run_swapFirst (old fresh slot : NodeId) (met : Bool) :
    (swapFirst old fresh slot).run met =
      pure (if slot = old ∧ met = false then (fresh, true) else (slot, met)) := rfl

theorem mapM_swapFirst_met (old fresh : NodeId) (slots : List NodeId) :
    (slots.mapM (swapFirst old fresh)).run true = pure (slots, true) := by
  induction slots with
  | nil => rfl
  | cons slot rest ih => simp [ih]

theorem mapM_swapFirst (old fresh : NodeId) (slots : List NodeId) :
    (slots.mapM (swapFirst old fresh)).run false =
      pure (slots.replace old fresh, decide (old ∈ slots)) := by
  induction slots with
  | nil => rfl
  | cons slot rest ih =>
      by_cases he : slot = old
      · simp [he, mapM_swapFirst_met]
      · have hne : (old == slot) = false := beq_eq_false_iff_ne.mpr (Ne.symm he)
        simp [he, ih, Ne.symm he, hne, List.replace_cons]

/-- Replacing a child is visiting the slots until the child is met. -/
theorem replaceChild?_eq_swapChild? (kind : Kind) (old fresh : NodeId) :
    kind.replaceChild? old fresh = kind.swapChild? old fresh := by
  rw [swapChild?, ← mapChildrenM_eq_visitSlotsM, mapChildrenM]
  simp [replaceChild?, mapM_swapFirst]

theorem not_mem_of_nodup (h : (before ++ child :: after).Nodup) : child ∉ before := by
  rw [List.nodup_append] at h
  exact fun hin => h.2.2 child hin child (List.mem_cons_self ..) rfl

theorem children_of_replaceChild?_append (h : kind.replaceChild? old fresh = some changed)
    (hnodup : kind.children.Nodup) (hslots : kind.children = before ++ old :: after) :
    changed.children = before ++ fresh :: after := by
  rw [children_of_replaceChild? h, hslots,
    List.replace_append_right (not_mem_of_nodup (hslots ▸ hnodup)), List.replace_cons_self]

/-! ## Removing -/

inductive InList : Kind → NodeId → Prop where
  | block {stmts : List NodeId} {child : NodeId} (item : child ∈ stmts) :
      InList (.block stmts) child
  | body {subject child : NodeId} {body : List NodeId} (item : child ∈ body) :
      InList (.switchStmt subject body) child
  | member {members : List NodeId} {child : NodeId} (item : child ∈ members) :
      InList (.unit members) child

/-- The child is an item of the statement list, an else branch, an initializer or the value of a
return statement. -/
inductive MayLose : Kind → NodeId → Prop where
  | item {kind : Kind} {child : NodeId} (listed : kind.InList child) : MayLose kind child
  | elseBranch {cond thenBranch child : NodeId} :
      MayLose (.ifStmt cond thenBranch (some child)) child
  | initializer {text : String} {binding : Option BindingId} {child : NodeId} :
      MayLose (.varDecl text binding (some child)) child
  | value {child : NodeId} : MayLose (.returnStmt (some child)) child

theorem isSome_dropChild?_iff : (kind.dropChild? child).isSome = true ↔ kind.MayLose child := by
  constructor
  · intro h
    cases kind with
    | block stmts =>
        have hin : child ∈ stmts := by simpa [dropChild?] using h
        exact .item (.block hin)
    | switchStmt subject body =>
        have hin : child ∈ body := by simpa [dropChild?] using h
        exact .item (.body hin)
    | unit members =>
        have hin : child ∈ members := by simpa [dropChild?] using h
        exact .item (.member hin)
    | ifStmt cond thenBranch elseBranch =>
        obtain rfl : elseBranch = some child := by simpa [dropChild?] using h
        exact .elseBranch
    | varDecl text binding init =>
        obtain rfl : init = some child := by simpa [dropChild?] using h
        exact .initializer
    | returnStmt value =>
        obtain rfl : value = some child := by simpa [dropChild?] using h
        exact .value
    | _ => cases h
  · intro h
    cases h with
    | item listed => cases listed <;> simp_all [dropChild?]
    | elseBranch | initializer | value => simp [dropChild?]

theorem dropChild?_eq_none_iff : kind.dropChild? child = none ↔ ¬ kind.MayLose child := by
  rw [← isSome_dropChild?_iff, Bool.not_eq_true, Option.isSome_eq_false_iff,
    Option.isNone_iff_eq_none]

theorem MayLose.mem (h : kind.MayLose child) : child ∈ kind.children := by
  cases h with
  | item listed => cases listed <;> simp_all [children]
  | elseBranch | initializer | value => simp [children]

theorem removeChild_eq_done_iff {rest : Kind} :
    kind.removeChild child = .done rest ↔ kind.dropChild? child = some rest := by
  unfold removeChild
  split
  · next hdrop => simp [hdrop]
  · next hdrop =>
      rw [hdrop]
      split <;> simp

theorem removeChild_eq_required_iff :
    kind.removeChild child = .required ↔ child ∈ kind.children ∧ ¬ kind.MayLose child := by
  rw [← dropChild?_eq_none_iff]
  unfold removeChild
  split
  · next rest hdrop => simp [hdrop]
  · next hdrop => by_cases hmem : child ∈ kind.children <;> simp [hdrop, hmem]

theorem removeChild_eq_absent_iff_not_mem :
    kind.removeChild child = .absent ↔ child ∉ kind.children := by
  rw [removeChild_eq_absent_iff, dropChild?_eq_none_iff, and_iff_right_iff_imp]
  exact mt MayLose.mem

theorem children_of_dropChild?_append {rest : Kind} (h : kind.dropChild? child = some rest)
    (hnodup : kind.children.Nodup) (hslots : kind.children = before ++ child :: after) :
    rest.children = before ++ after := by
  rw [(of_dropChild? h hnodup).2.1, hslots,
    List.erase_append_right _ (not_mem_of_nodup (hslots ▸ hnodup)), List.erase_cons_head]

/-! ## Inserting -/

def Side.pair (side : Side) (anchor fresh : NodeId) : List NodeId :=
  match side with
  | .before => [fresh, anchor]
  | .after => [anchor, fresh]

theorem insertBeside_append (h : anchor ∉ before) :
    insertBeside anchor fresh side (before ++ anchor :: after) =
      before ++ side.pair anchor fresh ++ after := by
  induction before with
  | nil => cases side <;> simp [insertBeside, Side.pair]
  | cons node rest ih =>
      rw [List.mem_cons, not_or] at h
      simp [insertBeside, Ne.symm h.1, ih h.2]

theorem isSome_insertChild?_iff :
    (kind.insertChild? anchor fresh side).isSome = true ↔ kind.InList anchor := by
  constructor
  · intro h
    cases kind with
    | block stmts => exact .block (by simpa [insertChild?, statementList?] using h)
    | switchStmt subject body => exact .body (by simpa [insertChild?, statementList?] using h)
    | unit members => exact .member (by simpa [insertChild?, statementList?] using h)
    | _ => cases h
  · intro h
    cases h <;> simp_all [insertChild?, statementList?]

theorem exists_list_of_insertChild? (h : kind.insertChild? anchor fresh side = some changed) :
    ∃ list, kind.statementList? = some list ∧ anchor ∈ list ∧
      kind.withStatementList (insertBeside anchor fresh side list) = changed := by
  unfold insertChild? at h
  split at h
  · next list hlist =>
      split at h
      · next hin => exact ⟨list, hlist, hin, Option.some.inj h⟩
      · cases h
  · cases h

theorem head_of_insertChild? (h : kind.insertChild? anchor fresh side = some changed) :
    changed.head = kind.head := by
  obtain ⟨list, hlist, -, rfl⟩ := exists_list_of_insertChild? h
  cases kind <;> cases hlist <;> rfl

/-- The new statement stands beside the anchor, and all other slots stay. -/
theorem children_of_insertChild?_append (h : kind.insertChild? anchor fresh side = some changed)
    (hnodup : kind.children.Nodup) (hslots : kind.children = before ++ anchor :: after) :
    changed.children = before ++ side.pair anchor fresh ++ after := by
  obtain ⟨list, hlist, hin, rfl⟩ := exists_list_of_insertChild? h
  rw [← insertBeside_append (not_mem_of_nodup (hslots ▸ hnodup)), ← hslots]
  cases kind with
  | block stmts | unit stmts =>
      cases hlist
      rfl
  | switchStmt subject body =>
      cases hlist
      have hne : subject ≠ anchor := fun he => (List.nodup_cons.mp hnodup).1 (he ▸ hin)
      exact (if_neg hne).symm
  | _ => cases hlist

/-! ## All together -/

/-- What the accessors of the children of a kind say about its slots. -/
structure SlotsAgree (kind : Kind) : Prop where
  /-- Nothing but the head and the children can change. -/
  determined : ∀ other : Kind, other.head = kind.head → other.children = kind.children →
    other = kind
  /-- Mapping visits one slot after the other. -/
  visits : ∀ (m : Type → Type) [Monad m] [LawfulMonad m] (f : NodeId → m NodeId),
    kind.mapChildrenM f = kind.visitSlotsM f
  /-- The slots are visited in the order of the children, and the results become the children. -/
  results : ∀ (m : Type → Type) [Monad m] [LawfulMonad m] (f : NodeId → m NodeId),
    (fun changed => (changed.head, changed.children)) <$> kind.mapChildrenM f =
      (fun results => (kind.head, results)) <$> kind.children.mapM f
  /-- Replacing visits the slots until it meets the old child. -/
  swaps : ∀ old fresh, kind.replaceChild? old fresh = kind.swapChild? old fresh
  replaces : ∀ old fresh,
    (kind.replaceChild? old fresh).isSome = true ↔ old ∈ kind.children
  replaced : ∀ old fresh changed, kind.replaceChild? old fresh = some changed →
    changed.head = kind.head ∧ ∀ before after,
      kind.children = before ++ old :: after → changed.children = before ++ fresh :: after
  removes : ∀ child, (∃ rest, kind.removeChild child = .done rest) ↔ kind.MayLose child
  removed : ∀ child rest, kind.removeChild child = .done rest →
    rest.head = kind.head ∧ ∀ before after,
      kind.children = before ++ child :: after → rest.children = before ++ after
  required : ∀ child,
    kind.removeChild child = .required ↔ child ∈ kind.children ∧ ¬ kind.MayLose child
  absent : ∀ child, kind.removeChild child = .absent ↔ child ∉ kind.children
  inserts : ∀ anchor fresh side,
    (kind.insertChild? anchor fresh side).isSome = true ↔ kind.InList anchor
  inserted : ∀ anchor fresh side changed,
    kind.insertChild? anchor fresh side = some changed →
      changed.head = kind.head ∧ ∀ before after,
        kind.children = before ++ anchor :: after →
          changed.children = before ++ side.pair anchor fresh ++ after

/-- The accessors of the children agree on every kind in which no child is repeated. -/
theorem slots_agree (hnodup : kind.children.Nodup) : kind.SlotsAgree where
  determined _ hhead hchildren := eq_of_slots hhead hchildren
  visits _ _ _ f := mapChildrenM_eq_visitSlotsM f kind
  results _ _ _ f := by rw [mapChildrenM_eq_visitSlotsM, slots_visitSlotsM]
  swaps := kind.replaceChild?_eq_swapChild?
  replaces _ _ := by simp [replaceChild?]
  replaced old fresh changed h :=
    ⟨head_of_replaceChild? h, fun _ _ hslots => children_of_replaceChild?_append h hnodup hslots⟩
  removes child := by
    simp only [removeChild_eq_done_iff, ← Option.isSome_iff_exists, isSome_dropChild?_iff]
  removed child rest h := by
    have hdrop := removeChild_eq_done_iff.mp h
    exact ⟨(of_dropChild? hdrop hnodup).1,
      fun _ _ hslots => children_of_dropChild?_append hdrop hnodup hslots⟩
  required _ := removeChild_eq_required_iff
  absent _ := removeChild_eq_absent_iff_not_mem
  inserts _ _ _ := isSome_insertChild?_iff
  inserted _ _ _ _ h :=
    ⟨head_of_insertChild? h, fun _ _ hslots => children_of_insertChild?_append h hnodup hslots⟩

/-- A switch on node 3 with two items.  Numbering its slots from 10 onwards begins at the subject,
the subject is required, and an item that is put in front of the second one stands after the
first. -/
theorem slots_agree_switch : (switchStmt 3 [1, 2]).children.Nodup ∧
    (switchStmt 3 [1, 2]).SlotsAgree ∧
    ((switchStmt 3 [1, 2]).mapChildrenM fun _ => modifyGet fun next => (next, next + 1) :
      StateM Nat Kind).run 10 = pure (switchStmt 10 [11, 12], 13) ∧
    (switchStmt 3 [1, 2]).removeChild 3 = .required ∧
    ∃ changed, (switchStmt 3 [1, 2]).insertChild? 2 7 .before = some changed ∧
      changed.children = [3, 1] ++ [7, 2] ++ [] := by
  have hnodup : (switchStmt 3 [1, 2]).children.Nodup := by decide
  have h := slots_agree hnodup
  refine ⟨hnodup, h, ?_, ?_, ?_⟩
  · rw [h.visits]
    rfl
  · refine (h.required 3).mpr ⟨by decide, ?_⟩
    rintro (⟨_ | ⟨hitem⟩ | _⟩)
    exact absurd hitem (by decide)
  · have hlisted : (switchStmt 3 [1, 2]).InList 2 := .body (by decide)
    obtain ⟨changed, hchanged⟩ := Option.isSome_iff_exists.mp ((h.inserts 2 7 .before).mpr hlisted)
    exact ⟨changed, hchanged, (h.inserted 2 7 .before changed hchanged).2 [3, 1] [] rfl⟩

end Kind

end CodeTidy
