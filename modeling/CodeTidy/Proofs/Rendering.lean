import CodeTidy.Proofs.Grounded
import CodeTidy.Proofs.Commit
import CodeTidy.Tree.Text

/-!
# Text and numbers

The text of a node is made from what the nodes below it are, not from their numbers, unless a
statement stands where an expression belongs: there the numbers of its slots are written.
`Store.text_renumbered` compares two nodes, in two stores, that differ in their numbers only.
-/

namespace CodeTidy

/-! ## Renumbered slots -/

namespace Kind

def mapChildren (f : NodeId → NodeId) (kind : Kind) : Kind :=
  kind.withChildren (kind.children.map f)

@[simp] theorem children_mapChildren (f : NodeId → NodeId) (kind : Kind) :
    (kind.mapChildren f).children = kind.children.map f :=
  children_withChildren (List.length_map f)

theorem mapChildren_congr {f g : NodeId → NodeId} {kind : Kind}
    (h : ∀ child, child ∈ kind.children → f child = g child) :
    kind.mapChildren f = kind.mapChildren g := by
  rw [mapChildren, mapChildren, List.map_congr_left h]

theorem mapChildren_id (kind : Kind) : kind.mapChildren id = kind := by
  rw [mapChildren, List.map_id, withChildren_children]

def exprSlots : Kind → List NodeId
  | exprStmt expr => [expr]
  | varDecl _ _ init => init.toList
  | ifStmt cond _ _ => [cond]
  | whileStmt cond _ => [cond]
  | switchStmt subject _ => [subject]
  | caseLabel label => label.toList
  | returnStmt value => value.toList
  | throwStmt expr => [expr]
  | block _ | unit _ => []
  | kind => kind.children

theorem exprSlots_of_isExpression {kind : Kind} (h : kind.isExpression = true) :
    kind.exprSlots = kind.children := by
  cases kind with
  | exprStmt _ | varDecl _ _ _ | block _ | ifStmt _ _ _ | whileStmt _ _ | switchStmt _ _
  | caseLabel _ | returnStmt _ | throwStmt _ | unit _ => cases h
  | _ => rfl

@[simp] theorem isExpression_mapChildren (f : NodeId → NodeId) (kind : Kind) :
    (kind.mapChildren f).isExpression = kind.isExpression := by
  unfold mapChildren withChildren
  split <;> rfl

@[simp] theorem isBlock_mapChildren (f : NodeId → NodeId) (kind : Kind) :
    (kind.mapChildren f).isBlock = kind.isBlock := by
  unfold mapChildren withChildren
  split <;> rfl

@[simp] theorem isCaseLabel_mapChildren (f : NodeId → NodeId) (kind : Kind) :
    (kind.mapChildren f).isCaseLabel = kind.isCaseLabel := by
  unfold mapChildren withChildren
  split <;> rfl

end Kind

namespace Store

variable {store later : Store} {f : NodeId → NodeId} {id there : NodeId}

/-! ## One node -/

/-- The text of an expression, node by node: only the texts in the slots and the type count. -/
theorem exprStep_renumbered {found other : Node} {below below' : NodeId → String}
    (hexpr : found.kind.isExpression = true) (hkind : other.kind = found.kind.mapChildren f)
    (htype : later.typeOf there = store.typeOf id)
    (hbelow : ∀ child, child ∈ found.kind.children → below' (f child) = below child) :
    later.exprStep there other below' = store.exprStep id found below := by
  have hmap : ∀ nodes : List NodeId, nodes ⊆ found.kind.children →
      (nodes.map f).map below' = nodes.map below := by
    intro nodes hnodes
    rw [List.map_map]
    exact List.map_congr_left (fun child hchild => hbelow child (hnodes hchild))
  unfold exprStep
  rw [hkind]
  cases hfound : found.kind with
  | literal _ | name _ _ => rfl
  | qualified _ _ | field _ _ | paren _ | prefixed _ _ | postfixed _ _ | assign _ _ _ =>
      simp only [hfound, Kind.children, List.mem_cons, List.not_mem_nil, or_false,
        forall_eq_or_imp, forall_eq] at hbelow
      simp only [Kind.mapChildren, Kind.children, Kind.withChildren, List.map_cons, List.map_nil,
        hbelow]
  | chain _ operands =>
      have hoperands := hmap operands (by rw [hfound]; exact List.Subset.refl _)
      simp only [Kind.mapChildren, Kind.children, Kind.withChildren, hoperands]
  | creation args =>
      have hargs := hmap args (by rw [hfound]; exact List.Subset.refl _)
      simp only [Kind.mapChildren, Kind.children, Kind.withChildren, hargs, htype]
  | call receiver _ args =>
      have hargs := hmap args (by rw [hfound]; exact List.subset_append_right _ _)
      cases receiver with
      | none => simp [Kind.mapChildren, Kind.children, Kind.withChildren, hargs]
      | some receiver =>
          have hreceiver := hbelow receiver (by simp [hfound, Kind.children])
          simp [Kind.mapChildren, Kind.children, Kind.withChildren, hargs, hreceiver]
  | _ => rw [hfound] at hexpr; cases hexpr

theorem isLocal_exprStep : store.IsLocal store.exprStep := by
  intro id f g hsame
  cases hexpr : (store.node id).kind.isExpression with
  | true =>
      exact exprStep_renumbered (f := fun child => child) hexpr (Kind.mapChildren_id _).symm rfl
        hsame
  | false =>
      unfold exprStep
      cases hkind : (store.node id).kind <;> first | rfl | (rw [hkind] at hexpr; cases hexpr)

theorem IsBounded.exprText_eq (h : store.IsBounded id) :
    store.exprText id = store.exprStep id (store.node id) store.exprText :=
  h.fold_eq isLocal_exprStep

/-- Branches are laid out alike: that depends on what their nodes are. -/
theorem branchText_renumbered {below below' : NodeId → Nat → String} {branch : Nat} (depth : Nat)
    (hkind : later.kind (f branch) = (store.kind branch).mapChildren f)
    (hbelow : below' (f branch) = below branch) :
    later.branchText below' (f branch) depth = store.branchText below branch depth := by
  simp only [branchText, hkind, hbelow, Kind.isBlock_mapChildren]

theorem elseText_renumbered {below below' : NodeId → Nat → String}
    {thenBranch branch : Nat} (depth : Nat)
    (hthen : later.kind (f thenBranch) = (store.kind thenBranch).mapChildren f)
    (hkind : later.kind (f branch) = (store.kind branch).mapChildren f)
    (hbelow : below' (f branch) = below branch) :
    later.elseText below' (f thenBranch) (f branch) depth =
      store.elseText below thenBranch branch depth := by
  have hrest := branchText_renumbered depth hkind hbelow
  simp only [elseText, hthen, hkind, hbelow, hrest, Kind.isBlock_mapChildren]
  cases store.kind branch with
  | call receiver _ _ => cases receiver <;> rfl
  | varDecl _ _ init => cases init <;> rfl
  | ifStmt _ _ elseBranch => cases elseBranch <;> rfl
  | caseLabel label => cases label <;> rfl
  | returnStmt value => cases value <;> rfl
  | _ => rfl

theorem switchLine_renumbered {below below' : NodeId → Nat → String} {depth item : Nat}
    (hkind : later.kind (f item) = (store.kind item).mapChildren f)
    (hbelow : below' (f item) = below item) :
    later.switchLine below' depth (f item) = store.switchLine below depth item := by
  simp only [switchLine, hkind, hbelow, Kind.isCaseLabel_mapChildren]

/-- The text of a statement, node by node: the texts in the slots count, the type, and for the
layout what stands in the slots. -/
theorem statementStep_renumbered {found other : Node} {below below' : NodeId → Nat → String}
    {depth : Nat} (hkind : other.kind = found.kind.mapChildren f)
    (htype : later.typeOf there = store.typeOf id)
    (hself : found.kind.isExpression = true → later.exprText there = store.exprText id)
    (hexprs : ∀ slot, slot ∈ found.kind.exprSlots →
      later.exprText (f slot) = store.exprText slot)
    (hbelow : ∀ child, child ∈ found.kind.children → below' (f child) = below child)
    (hslots : ∀ child, child ∈ found.kind.children →
      later.kind (f child) = (store.kind child).mapChildren f) :
    later.statementStep there other below' depth = store.statementStep id found below depth := by
  unfold statementStep
  rw [hkind]
  cases hfound : found.kind with
  | literal _ | name _ _ | qualified _ _ | field _ _ | paren _ | prefixed _ _ | postfixed _ _
  | chain _ _ | assign _ _ _ | creation _ => exact hself (by rw [hfound]; rfl)
  | call receiver _ _ =>
      cases receiver <;> exact hself (by rw [hfound]; rfl)
  | breakStmt label | continueStmt label => cases label <;> rfl
  | exprStmt expr | throwStmt expr =>
      have hexpr := hexprs expr (by simp [hfound, Kind.exprSlots])
      simp only [Kind.mapChildren, Kind.children, Kind.withChildren, List.map_cons, List.map_nil,
        hexpr]
  | varDecl text binding init =>
      cases init with
      | none => simp only [Kind.mapChildren, Kind.withChildren, htype]
      | some init =>
          have hexpr := hexprs init (by simp [hfound, Kind.exprSlots])
          simp [Kind.mapChildren, Kind.children, Kind.withChildren, htype, hexpr]
  | caseLabel label | returnStmt label =>
      cases label with
      | none => rfl
      | some label =>
          have hexpr := hexprs label (by simp [hfound, Kind.exprSlots])
          simp [Kind.mapChildren, Kind.children, Kind.withChildren, hexpr]
  | block stmts =>
      have hstmts : ∀ stmt, stmt ∈ stmts → below' (f stmt) = below stmt :=
        fun stmt hstmt => hbelow stmt (by rw [hfound]; exact hstmt)
      cases stmts with
      | nil => rfl
      | cons first rest =>
          have hlines : ((first :: rest).map f).map (fun stmt =>
                indent (depth + 1) ++ below' stmt (depth + 1) ++ "\n") =
              (first :: rest).map (fun stmt =>
                indent (depth + 1) ++ below stmt (depth + 1) ++ "\n") := by
            rw [List.map_map]
            exact List.map_congr_left (fun stmt hstmt => by
              rw [Function.comp_apply, hstmts stmt hstmt])
          exact congrArg (fun lines => "\x7b\n" ++ String.join lines ++ indent depth ++ "\x7d")
            hlines
  | unit members =>
      have hmembers : (members.map f).map (fun member => indent depth ++ below' member depth) =
          members.map (fun member => indent depth ++ below member depth) := by
        rw [List.map_map]
        exact List.map_congr_left (fun member hmember => by
          rw [Function.comp_apply, hbelow member (by rw [hfound]; exact hmember)])
      exact congrArg (String.intercalate "\n") hmembers
  | ifStmt cond thenBranch elseBranch =>
      have hcond := hexprs cond (by simp [hfound, Kind.exprSlots])
      have hin : thenBranch ∈ found.kind.children := by simp [hfound, Kind.children]
      have hthen := branchText_renumbered depth (hslots _ hin) (hbelow _ hin)
      cases elseBranch with
      | none => simp [Kind.mapChildren, Kind.children, Kind.withChildren, hcond, hthen]
      | some branch =>
          have hin' : branch ∈ found.kind.children := by simp [hfound, Kind.children]
          have helse := elseText_renumbered depth (hslots _ hin) (hslots _ hin')
            (hbelow _ hin')
          simp [Kind.mapChildren, Kind.children, Kind.withChildren, hcond, hthen, helse]
  | whileStmt cond body =>
      have hcond := hexprs cond (by simp [hfound, Kind.exprSlots])
      have hin : body ∈ found.kind.children := by simp [hfound, Kind.children]
      have hbody := branchText_renumbered depth (hslots _ hin) (hbelow _ hin)
      simp [Kind.mapChildren, Kind.children, Kind.withChildren, hcond, hbody]
  | switchStmt subject body =>
      have hsubject := hexprs subject (by simp [hfound, Kind.exprSlots])
      have hlines : (body.map f).map (later.switchLine below' depth) =
          body.map (store.switchLine below depth) := by
        rw [List.map_map]
        refine List.map_congr_left (fun item hitem => ?_)
        have hin : item ∈ found.kind.children := by
          rw [hfound]
          exact List.mem_cons_of_mem _ hitem
        exact switchLine_renumbered (hslots item hin) (hbelow item hin)
      simp only [Kind.mapChildren, Kind.children, Kind.withChildren, List.map_cons, hsubject,
        hlines]

theorem isLocal_statementStep : store.IsLocal store.statementStep := by
  intro id below below' hsame
  funext depth
  exact statementStep_renumbered (f := fun child => child) (Kind.mapChildren_id _).symm rfl
    (fun _ => rfl) (fun _ _ => rfl) hsame (fun child _ => (Kind.mapChildren_id _).symm)

theorem IsBounded.statementText_eq (h : store.IsBounded id) :
    store.statementText id = store.statementStep id (store.node id) store.statementText :=
  h.fold_eq isLocal_statementStep

/-! ## A node and all below it -/

/-- Below the image of a node of `store`, `later` looks the same with other numbers. -/
structure Renumbered (store later : Store) (f : NodeId → NodeId) (root : NodeId) : Prop where
  size : store.size ≤ later.size
  lt : ∀ id, id ∈ store.preorder root → f id < later.size
  kind : ∀ id, id ∈ store.preorder root → later.kind (f id) = (store.kind id).mapChildren f
  typeOf : ∀ id, id ∈ store.preorder root → later.typeOf (f id) = store.typeOf id

/-- No statement stands where an expression belongs, at the node and below it. -/
def HasExpressions (store : Store) (root : NodeId) : Prop :=
  ∀ id, id ∈ store.preorder root → ∀ slot, slot ∈ (store.kind id).exprSlots →
    (store.kind slot).isExpression = true

variable {root child : NodeId}

theorem IsBounded.mem_preorder_self (hbounded : store.IsBounded root) :
    root ∈ store.preorder root := by
  rw [hbounded.preorder_eq]
  exact List.mem_cons_self ..

theorem IsBounded.preorder_slot_subset (hbounded : store.IsBounded root)
    (hchild : child ∈ store.children root) : store.preorder child ⊆ store.preorder root := by
  intro id hid
  rw [hbounded.preorder_eq]
  exact List.mem_cons_of_mem _ (List.mem_flatMap.mpr ⟨child, hchild, hid⟩)

namespace Renumbered

theorem slot (h : store.Renumbered later f root) (hbounded : store.IsBounded root)
    (hchild : child ∈ store.children root) : store.Renumbered later f child where
  size := h.size
  lt id hid := h.lt id (hbounded.preorder_slot_subset hchild hid)
  kind id hid := h.kind id (hbounded.preorder_slot_subset hchild hid)
  typeOf id hid := h.typeOf id (hbounded.preorder_slot_subset hchild hid)

theorem children (h : store.Renumbered later f root) (hbounded : store.IsBounded root) :
    later.children (f root) = (store.children root).map f := by
  rw [Store.children, h.kind root hbounded.mem_preorder_self]
  exact Kind.children_mapChildren ..

theorem grounded {height : Nat} (hground : store.Grounded height root)
    (h : store.Renumbered later f root) (hbounded : store.IsBounded root) :
    later.Grounded height (f root) := by
  induction hground with
  | @node height root lt slots ih =>
      refine .node (h.lt root hbounded.mem_preorder_self) (fun child hchild => ?_)
      rw [h.children hbounded] at hchild
      obtain ⟨slot, hslot, rfl⟩ := List.mem_map.mp hchild
      exact ih slot hslot (h.slot hbounded hslot) (hbounded.slot hslot)

theorem isBounded (h : store.Renumbered later f root) (hbounded : store.IsBounded root) :
    later.IsBounded (f root) :=
  (grounded hbounded h hbounded).mono h.size

theorem preorder (h : store.Renumbered later f root) (hbounded : store.IsBounded root) :
    later.preorder (f root) = (store.preorder root).map f := by
  induction hbounded using IsBounded.induct with
  | node root hbounded ih =>
      rw [(h.isBounded hbounded).preorder_eq, hbounded.preorder_eq, h.children hbounded,
        List.flatMap_map, List.map_cons, List.map_flatMap]
      congr 1
      exact List.flatMap_congr (fun child hchild => ih child hchild (h.slot hbounded hchild))

end Renumbered

theorem HasExpressions.slot (h : store.HasExpressions root) (hbounded : store.IsBounded root)
    (hchild : child ∈ store.children root) : store.HasExpressions child :=
  fun id hid => h id (hbounded.preorder_slot_subset hchild hid)

theorem exprSlots_subset (id : NodeId) : (store.kind id).exprSlots ⊆ store.children id := by
  unfold Store.children
  cases store.kind id <;> simp [Kind.exprSlots, Kind.children]

theorem exprText_renumbered (hbounded : store.IsBounded root)
    (h : store.Renumbered later f root) (hexprs : store.HasExpressions root)
    (hexpr : (store.kind root).isExpression = true) :
    later.exprText (f root) = store.exprText root := by
  induction hbounded using IsBounded.induct with
  | node root hbounded ih =>
      have hroot := hbounded.mem_preorder_self
      rw [(h.isBounded hbounded).exprText_eq, hbounded.exprText_eq]
      refine exprStep_renumbered hexpr (h.kind root hroot) (h.typeOf root hroot)
        (fun child hchild => ?_)
      refine ih child hchild (h.slot hbounded hchild) (hexprs.slot hbounded hchild) ?_
      exact hexprs root hroot child (by rw [Kind.exprSlots_of_isExpression hexpr]; exact hchild)

theorem statementText_renumbered (hbounded : store.IsBounded root)
    (h : store.Renumbered later f root) (hexprs : store.HasExpressions root) :
    later.statementText (f root) = store.statementText root := by
  induction hbounded using IsBounded.induct with
  | node root hbounded ih =>
      have hroot := hbounded.mem_preorder_self
      rw [(h.isBounded hbounded).statementText_eq, hbounded.statementText_eq]
      funext depth
      refine statementStep_renumbered (h.kind root hroot) (h.typeOf root hroot)
        (exprText_renumbered hbounded h hexprs) (fun slot hslot => ?_) (fun child hchild => ?_)
        (fun child hchild => ?_)
      · have hin := exprSlots_subset root hslot
        exact exprText_renumbered (hbounded.slot hin) (h.slot hbounded hin)
          (hexprs.slot hbounded hin) (hexprs root hroot slot hslot)
      · exact ih child hchild (h.slot hbounded hchild) (hexprs.slot hbounded hchild)
      · exact (h.slot hbounded hchild).kind child (hbounded.slot hchild).mem_preorder_self

/-- Nodes that differ in their numbers only have the same text. -/
theorem text_renumbered (hbounded : store.IsBounded root) (h : store.Renumbered later f root)
    (hexprs : store.HasExpressions root) : later.text (f root) = store.text root := by
  have hkind := h.kind root hbounded.mem_preorder_self
  unfold text
  rw [hkind, Kind.isExpression_mapChildren, statementText_renumbered hbounded h hexprs]
  split
  · next hexpr => exact exprText_renumbered hbounded h hexprs hexpr
  · rfl

end Store

end CodeTidy
