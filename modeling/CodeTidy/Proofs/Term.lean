import CodeTidy.Store.Basic

/-!
# Terms

A term is what a subtree says, without the numbers of its nodes: the head of every
node, what is known about its type, and the terms in its slots.  A head is a kind
whose slots are left out, so a kind is its head together with its children.

`Store.term` reads the term at a node.  Everything that does not depend on node
numbers (meaning, weight, well-formedness) is a function of the term.
-/

namespace CodeTidy

/-! ## Heads -/

/-- A kind without the nodes in its slots.  Only a call remembers which of its slots
are filled, because its receiver and its arguments stand in one list. -/
inductive Head where
  | literal (value : Literal)
  | name (text : String) (binding : Option BindingId)
  | qualified
  | field (name : String)
  | paren
  | prefixed (op : PrefixOp)
  | postfixed (op : PostfixOp)
  | chain (op : InfixOp)
  | assign (op : Option InfixOp)
  | call (hasReceiver : Bool) (name : String)
  | creation
  | exprStmt
  | varDecl (name : String) (binding : Option BindingId)
  | block
  | ifStmt
  | whileStmt
  | switchStmt
  | caseLabel
  | breakStmt (label : Option String)
  | continueStmt (label : Option String)
  | returnStmt
  | throwStmt
  | unit
deriving DecidableEq

namespace Kind

def head : Kind → Head
  | literal value => .literal value
  | name text binding => .name text binding
  | qualified _ _ => .qualified
  | field _ label => .field label
  | paren _ => .paren
  | prefixed op _ => .prefixed op
  | postfixed op _ => .postfixed op
  | chain op _ => .chain op
  | assign op _ _ => .assign op
  | call receiver method _ => .call receiver.isSome method
  | creation _ => .creation
  | exprStmt _ => .exprStmt
  | varDecl text binding _ => .varDecl text binding
  | block _ => .block
  | ifStmt _ _ _ => .ifStmt
  | whileStmt _ _ => .whileStmt
  | switchStmt _ _ => .switchStmt
  | caseLabel _ => .caseLabel
  | breakStmt label => .breakStmt label
  | continueStmt label => .continueStmt label
  | returnStmt _ => .returnStmt
  | throwStmt _ => .throwStmt
  | unit _ => .unit

theorem head_withChildren (kind : Kind) (nodes : List NodeId) :
    (kind.withChildren nodes).head = kind.head := by
  unfold withChildren
  split <;> rfl

theorem head_of_replaceChild? {kind changed : Kind} {old fresh : NodeId}
    (h : kind.replaceChild? old fresh = some changed) : changed.head = kind.head := by
  unfold replaceChild? at h
  split at h
  · cases h
    exact head_withChildren kind _
  · cases h

/-- Dropping a child keeps the head and takes the child out of the list. -/
theorem of_dropChild? {kind changed : Kind} {child : NodeId}
    (h : kind.dropChild? child = some changed) (hnodup : kind.children.Nodup) :
    changed.head = kind.head ∧ changed.children = kind.children.erase child ∧
      child ∈ kind.children := by
  cases kind with
  | block stmts =>
      simp only [dropChild?] at h
      split at h <;> cases h
      exact ⟨rfl, rfl, by assumption⟩
  | unit members =>
      simp only [dropChild?] at h
      split at h <;> cases h
      exact ⟨rfl, rfl, by assumption⟩
  | switchStmt subject body =>
      simp only [dropChild?] at h
      split at h <;> cases h
      next hmem =>
        have hne : subject ≠ child := by
          rintro rfl
          exact (List.nodup_cons.mp hnodup).1 hmem
        refine ⟨rfl, ?_, List.mem_cons_of_mem _ hmem⟩
        simp [children, hne]
  | ifStmt cond thenBranch elseBranch =>
      simp only [dropChild?] at h
      split at h <;> cases h
      next heq =>
        subst heq
        simp only [children, Option.toList_some, List.nodup_cons, List.mem_cons,
          List.not_mem_nil, or_false, not_or] at hnodup
        refine ⟨rfl, ?_, by simp [children]⟩
        simp [children, hnodup.1.2, hnodup.2.1]
  | varDecl text binding init =>
      simp only [dropChild?] at h
      split at h <;> cases h
      next heq => subst heq; exact ⟨rfl, by simp [children], by simp [children]⟩
  | returnStmt value =>
      simp only [dropChild?] at h
      split at h <;> cases h
      next heq => subst heq; exact ⟨rfl, by simp [children], by simp [children]⟩
  | _ => simp [dropChild?] at h

end Kind

/-! ## Slots that may be left empty -/

def Head.canDrop : Head → Nat → Bool
  | block, _ | unit, _ | varDecl _ _, _ | returnStmt, _ => true
  | switchStmt, position => decide (0 < position)
  | ifStmt, position => decide (position = 2)
  | _, _ => false

/-- A child can be dropped if the position of its slot allows it. -/
theorem Kind.isSome_dropChild? {kind : Kind} {child : NodeId} {before after : List NodeId}
    (hslots : kind.children = before ++ child :: after) (hnodup : kind.children.Nodup) :
    (kind.dropChild? child).isSome = kind.head.canDrop before.length := by
  have hmem : child ∈ kind.children := by rw [hslots]; simp
  cases kind with
  | block stmts =>
      have hin : child ∈ stmts := hmem
      simp [dropChild?, head, Head.canDrop, hin]
  | unit members =>
      have hin : child ∈ members := hmem
      simp [dropChild?, head, Head.canDrop, hin]
  | switchStmt subject body =>
      simp only [children, dropChild?, head, Head.canDrop] at *
      cases before with
      | nil =>
          simp only [List.nil_append, List.cons.injEq] at hslots
          obtain ⟨rfl, rfl⟩ := hslots
          simp [(List.nodup_cons.mp hnodup).1]
      | cons first before =>
          simp only [List.cons_append, List.cons.injEq] at hslots
          simp [hslots.2]
  | ifStmt cond thenBranch elseBranch =>
      cases elseBranch with
      | none =>
          rcases before with _ | ⟨a, _ | ⟨b, _ | ⟨c, before⟩⟩⟩ <;>
            simp [children, dropChild?, head, Head.canDrop] at hslots ⊢
      | some branch =>
          simp only [children, Option.toList_some, List.nodup_cons, List.mem_cons,
            List.not_mem_nil, or_false, not_or] at hnodup
          obtain ⟨⟨_, hcond⟩, hthen, _⟩ := hnodup
          rcases before with _ | ⟨a, _ | ⟨b, _ | ⟨c, before⟩⟩⟩ <;>
            simp [children] at hslots
          · obtain ⟨rfl, _⟩ := hslots
            simpa [dropChild?, head, Head.canDrop] using Ne.symm hcond
          · obtain ⟨_, rfl, _⟩ := hslots
            simpa [dropChild?, head, Head.canDrop] using Ne.symm hthen
          · obtain ⟨_, _, rfl, _⟩ := hslots
            simp [dropChild?, head, Head.canDrop]
  | varDecl text binding init =>
      cases init with
      | none => simp [children] at hslots
      | some expr =>
          have hin : child = expr := by simpa [children] using hmem
          simp [dropChild?, head, Head.canDrop, hin]
  | returnStmt value =>
      cases value with
      | none => simp [children] at hslots
      | some expr =>
          have hin : child = expr := by simpa [children] using hmem
          simp [dropChild?, head, Head.canDrop, hin]
  | _ => simp [dropChild?, head, Head.canDrop]

/-! ## Terms -/

/-- What a subtree says: a head, what is known about the type, and the terms in the
slots. -/
inductive Term where
  | node (head : Head) (type : Option TypeDesc) (subs : List Term)

namespace Term

def head : Term → Head
  | node head _ _ => head

def type : Term → Option TypeDesc
  | node _ type _ => type

def subs : Term → List Term
  | node _ _ subs => subs

@[simp] theorem head_node (h : Head) (type : Option TypeDesc) (subs : List Term) :
    (node h type subs).head = h := rfl

@[simp] theorem type_node (h : Head) (type : Option TypeDesc) (subs : List Term) :
    (node h type subs).type = type := rfl

@[simp] theorem subs_node (h : Head) (type : Option TypeDesc) (subs : List Term) :
    (node h type subs).subs = subs := rfl

/-- A property of every term follows if it passes from the slots to the node. -/
@[elab_as_elim, induction_eliminator]
theorem induct {motive : Term → Prop}
    (node : ∀ head type subs, (∀ sub, sub ∈ subs → motive sub) →
      motive (.node head type subs)) (term : Term) : motive term :=
  @Term.rec motive (fun subs => ∀ sub, sub ∈ subs → motive sub)
    node
    (fun _ hmem => nomatch hmem)
    (fun _ _ hfirst hrest _ hmem =>
      match List.mem_cons.mp hmem with
      | .inl heq => heq ▸ hfirst
      | .inr hlater => hrest _ hlater)
    term

mutual

/-- The value of a term, where `step` computes it from a head, a type and the values
of the slots. -/
def fold {α : Type} (step : Head → Option TypeDesc → List α → α) : Term → α
  | node head type subs => step head type (foldList step subs)

def foldList {α : Type} (step : Head → Option TypeDesc → List α → α) : List Term → List α
  | [] => []
  | sub :: rest => fold step sub :: foldList step rest

end

theorem foldList_eq_map {α : Type} (step : Head → Option TypeDesc → List α → α)
    (subs : List Term) : foldList step subs = subs.map (fold step) := by
  induction subs with
  | nil => rfl
  | cons sub rest ih => rw [foldList, ih, List.map_cons]

@[simp] theorem fold_node {α : Type} (step : Head → Option TypeDesc → List α → α)
    (head : Head) (type : Option TypeDesc) (subs : List Term) :
    fold step (node head type subs) = step head type (subs.map (fold step)) := by
  rw [fold, foldList_eq_map]

mutual

def all (holds : Term → Bool) : Term → Bool
  | node head type subs => holds (node head type subs) && allList holds subs

def allList (holds : Term → Bool) : List Term → Bool
  | [] => true
  | sub :: rest => all holds sub && allList holds rest

end

theorem allList_eq_all (holds : Term → Bool) (subs : List Term) :
    allList holds subs = subs.all (all holds) := by
  induction subs with
  | nil => rfl
  | cons sub rest ih => rw [allList, ih, List.all_cons]

@[simp] theorem all_node (holds : Term → Bool) (head : Head) (type : Option TypeDesc)
    (subs : List Term) :
    all holds (node head type subs) =
      (holds (node head type subs) && subs.all (all holds)) := by
  rw [all, allList_eq_all]

theorem holds_of_all {holds : Term → Bool} {term : Term} (h : term.all holds = true) :
    holds term = true := by
  cases term with
  | node head type subs =>
      rw [all_node, Bool.and_eq_true] at h
      exact h.1

theorem all_sub {holds : Term → Bool} {term sub : Term} (h : term.all holds = true)
    (hmem : sub ∈ term.subs) : sub.all holds = true := by
  cases term with
  | node head type subs =>
      rw [all_node, Bool.and_eq_true, List.all_eq_true] at h
      exact h.2 sub hmem

end Term

/-! ## Reading -/

def Store.term (store : Store) (id : NodeId) : Term :=
  store.fold (.node (.literal .null) none [])
    (fun here found below =>
      .node found.kind.head (store.typeOf here) (found.kind.children.map below))
    id

end CodeTidy
