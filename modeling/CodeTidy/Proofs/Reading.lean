import CodeTidy.Proofs.Grounded
import CodeTidy.Tree.Analysis

/-!
# Readings of terms

What the rules ask about a subtree is a question about its term.  Each reading of a
store has a counterpart on terms here, and on a legible tree the two agree.
-/

namespace CodeTidy

/-! ## Heads -/

namespace Head

def strength? : Head → Option Nat
  | literal _ | name _ _ | qualified | field _ | paren | call _ _ | creation =>
      some Strength.primary
  | postfixed _ => some Strength.trailing
  | prefixed _ => some Strength.unary
  | chain op => some op.strength
  | assign _ => some Strength.assignment
  | _ => none

def isExpression (head : Head) : Bool :=
  head.strength?.isSome

def catchesBreak : Head → Bool
  | whileStmt | switchStmt => true
  | _ => false

def isJump : Head → Bool
  | breakStmt _ | continueStmt _ | returnStmt | throwStmt => true
  | _ => false

def mentioned? : Head → Option BindingId
  | name _ binding => binding
  | _ => none

def declared? : Head → Option BindingId
  | varDecl _ binding => binding
  | _ => none

end Head

theorem Kind.strength?_eq (kind : Kind) : kind.strength? = kind.head.strength? := by
  cases kind <;> rfl

/-! ## Terms -/

namespace Term

def bare : Term → Term
  | node .paren _ [inner] => bare inner
  | term => term

theorem bare_of_ne_paren {term : Term} (h : term.head ≠ .paren) : term.bare = term := by
  unfold bare
  split
  · exact absurd rfl h
  · rfl

theorem bare_paren (type : Option TypeDesc) (inner : Term) :
    (node .paren type [inner]).bare = inner.bare := by
  rw [bare]

def boolLiteral? (term : Term) : Option Bool :=
  match term.bare.head with
  | .literal (.bool value) => some value
  | _ => none

def intLiteral? (term : Term) : Option Int :=
  match term.bare.head with
  | .literal (.int value) => some value
  | _ => none

def isPassive : Term → Bool :=
  fold (fun head _ below =>
    match head with
    | .literal _ | .name _ _ | .qualified => true
    | .field _ | .paren | .chain _ => below.all id
    | .prefixed op => !op.hasSideEffect && below.all id
    | _ => false)

theorem isPassive_node (head : Head) (type : Option TypeDesc) (subs : List Term) :
    isPassive (node head type subs) =
      match head with
      | .literal _ | .name _ _ | .qualified => true
      | .field _ | .paren | .chain _ => subs.all isPassive
      | .prefixed op => !op.hasSideEffect && subs.all isPassive
      | _ => false := by
  have hall : (subs.map isPassive).all id = subs.all isPassive := by
    rw [List.all_map, Function.id_comp]
  rw [← hall]
  exact fold_node _ head type subs

def endsWithJump : Term → Bool :=
  fold (fun head _ below =>
    match head, below with
    | .breakStmt _, _ | .continueStmt _, _ | .returnStmt, _ | .throwStmt, _ => true
    | .block, _ => below.getLast?.any id
    | .ifStmt, [_, thenJumps, elseJumps] => thenJumps && elseJumps
    | _, _ => false)

theorem endsWithJump_block (type : Option TypeDesc) (subs : List Term) :
    endsWithJump (node .block type subs) = subs.getLast?.any endsWithJump := by
  have hany : (subs.map endsWithJump).getLast?.any id = subs.getLast?.any endsWithJump := by
    rw [List.getLast?_map]
    cases subs.getLast? <;> rfl
  rw [← hany]
  exact fold_node _ .block type subs

theorem endsWithJump_ifStmt (type : Option TypeDesc) (cond thenBranch elseBranch : Term) :
    endsWithJump (node .ifStmt type [cond, thenBranch, elseBranch]) =
      (thenBranch.endsWithJump && elseBranch.endsWithJump) := by
  rw [endsWithJump, fold_node]
  rfl

def hasLooseBreak : Term → Bool :=
  fold (fun head _ below =>
    head == .breakStmt none || (!head.catchesBreak && below.any id))

theorem hasLooseBreak_node (head : Head) (type : Option TypeDesc) (subs : List Term) :
    hasLooseBreak (node head type subs) =
      (head == .breakStmt none || (!head.catchesBreak && subs.any hasLooseBreak)) := by
  have hany : (subs.map hasLooseBreak).any id = subs.any hasLooseBreak := by
    rw [List.any_map, Function.id_comp]
  rw [← hany]
  exact fold_node _ head type subs

/-- A property of all jumps holds of every statement that ends with a jump, if it passes from
the last statement to the block and from both branches to the conditional. -/
@[elab_as_elim]
theorem endsWithJump_induct {motive : Term → Prop}
    (jump : ∀ head type subs, head.isJump = true → motive (node head type subs))
    (block : ∀ type stmts last, stmts.getLast? = some last → motive last →
      motive (node .block type stmts))
    (ifElse : ∀ type cond thenBranch elseBranch, motive thenBranch → motive elseBranch →
      motive (node .ifStmt type [cond, thenBranch, elseBranch]))
    {term : Term} (h : term.endsWithJump = true) : motive term := by
  induction term with
  | node head type subs ih =>
      cases head with
      | block =>
          rw [endsWithJump_block, Option.any_eq_true] at h
          obtain ⟨last, hlast, hends⟩ := h
          exact block type subs last hlast (ih last (List.mem_of_getLast? hlast) hends)
      | ifStmt =>
          rcases subs with _ | ⟨cond, _ | ⟨thenBranch, _ | ⟨elseBranch, _ | _⟩⟩⟩
          case cons.cons.cons.nil =>
            rw [endsWithJump_ifStmt, Bool.and_eq_true] at h
            exact ifElse type cond thenBranch elseBranch (ih _ (by simp) h.1) (ih _ (by simp) h.2)
          all_goals cases h
      | breakStmt label => exact jump _ _ _ rfl
      | continueStmt label => exact jump _ _ _ rfl
      | returnStmt => exact jump _ _ _ rfl
      | throwStmt => exact jump _ _ _ rfl
      | _ => cases h

/-- A property holds of every statement without a loose break, if it passes from the slots to the
node, plain breaks aside, and holds of loops and switches whatever stands in them. -/
@[elab_as_elim]
theorem hasLooseBreak_induct {motive : Term → Prop}
    (node : ∀ head type subs, head ≠ .breakStmt none →
      (head.catchesBreak = false → ∀ sub, sub ∈ subs → motive sub) →
        motive (.node head type subs))
    {term : Term} (h : term.hasLooseBreak = false) : motive term := by
  induction term with
  | node head type subs ih =>
      rw [hasLooseBreak_node, Bool.or_eq_false_iff, Bool.and_eq_false_iff] at h
      obtain ⟨hhead, hsubs⟩ := h
      refine node head type subs (beq_eq_false_iff_ne.mp hhead) fun hcatches sub hsub => ?_
      have hany : subs.any hasLooseBreak = false := hsubs.resolve_left (by simp [hcatches])
      exact ih sub hsub (by simpa using List.any_eq_false.mp hany sub hsub)

def isTotallyOrdered (term : Term) : Bool :=
  term.type.any (fun type => !type.isOneOf Store.floatingTypes)

def isInvertible (term : Term) : Bool :=
  match term.bare with
  | node (.chain op) _ subs =>
      subs.length == 2 && op.inverse?.isSome &&
        (!op.isOrdering || subs.all isTotallyOrdered)
  | _ => false

def bindings (entity : Head → Option BindingId) : Term → List BindingId :=
  fold (fun head _ below => (entity head).toList ++ below.flatten)

def mentions : Term → List BindingId :=
  bindings Head.mentioned?

theorem bindings_node (entity : Head → Option BindingId) (head : Head) (type : Option TypeDesc)
    (subs : List Term) :
    bindings entity (node head type subs) =
      (entity head).toList ++ subs.flatMap (bindings entity) := by
  rw [bindings, fold_node, List.flatMap_def]

def statements (term : Term) : List Term :=
  if term.head = .block then term.subs else [term]

def isEmptyBranch (branch : Option Term) : Bool :=
  branch.all (fun term => term.head == .block && term.subs.isEmpty)

end Term

/-! ## Bounded nodes -/

namespace Store

variable {store : Store} {id : NodeId}

theorem IsBounded.term_eq (h : store.IsBounded id) :
    store.term id =
      .node (store.kind id).head (store.typeOf id) ((store.children id).map store.term) := by
  refine h.fold_eq ?_
  intro here f g hsame
  rw [Term.node.injEq]
  exact ⟨rfl, rfl, List.map_congr_left hsame⟩

/-- A reading that looks at heads, types and the values of the slots only is a recursion
over the term. -/
theorem IsBounded.fold_term {α : Type} {bottom : α} {step : NodeId → Node → (NodeId → α) → α}
    {stepTerm : Head → Option TypeDesc → List α → α} (h : store.IsBounded id)
    (hstep : ∀ i below, step i (store.node i) below =
      stepTerm (store.kind i).head (store.typeOf i) ((store.children i).map below)) :
    store.fold bottom step id = (store.term id).fold stepTerm := by
  have hlocal : store.IsLocal step := by
    intro i f g hsame
    rw [hstep, hstep, List.map_congr_left hsame]
  induction h using IsBounded.induct with
  | node id h ih =>
      rw [h.fold_eq hlocal, hstep, h.term_eq, Term.fold_node, List.map_map]
      congr 1
      exact List.map_congr_left ih

theorem IsBounded.isPassive_term (h : store.IsBounded id) :
    store.isPassive id = (store.term id).isPassive := by
  apply h.fold_term
  intro i below
  unfold children kind
  cases (store.node i).kind <;> simp [Kind.head, Kind.children]

theorem IsBounded.endsWithJump_term (h : store.IsBounded id) :
    store.endsWithJump id = (store.term id).endsWithJump := by
  apply h.fold_term
  intro i below
  unfold children kind
  cases (store.node i).kind with
  | ifStmt cond thenBranch elseBranch =>
      cases elseBranch <;> simp [Kind.head, Kind.children]
  | block stmts => simp [Kind.head, Kind.children, List.getLast?_map, Option.any_map]
  | _ => simp [Kind.head, Kind.children]

theorem isPlainBreak_eq (store : Store) (id : NodeId) :
    store.isPlainBreak id = ((store.kind id).head == .breakStmt none) := by
  unfold isPlainBreak
  split
  · next hkind => rw [hkind]; rfl
  · next hkind =>
      symm
      rw [beq_eq_false_iff_ne]
      intro hhead
      cases hk : store.kind id <;> rw [hk] at hhead <;> cases hhead
      exact hkind hk

theorem catchesBreak_eq (store : Store) (id : NodeId) :
    store.catchesBreak id = (store.kind id).head.catchesBreak := by
  unfold catchesBreak
  cases store.kind id <;> rfl

theorem childrenUnless_subset (store : Store) (closed : NodeId → Bool) (id : NodeId) :
    store.childrenUnless closed id ⊆ store.children id := by
  unfold childrenUnless
  split
  · exact List.nil_subset _
  · exact List.Subset.refl _

/-- Loose breaks are those of the slots, unless the node is a loop or a switch. -/
theorem IsBounded.hasLooseBreak_eq (h : store.IsBounded id) :
    store.hasLooseBreak id = (store.isPlainBreak id ||
      (!store.catchesBreak id && (store.children id).any store.hasLooseBreak)) := by
  rw [hasLooseBreak, h.listing_eq (store.childrenUnless_subset _), List.any_cons, List.any_flatMap,
    childrenUnless]
  cases store.catchesBreak id with
  | true => rfl
  | false => rfl

theorem IsBounded.hasLooseBreak_term (h : store.IsBounded id) :
    store.hasLooseBreak id = (store.term id).hasLooseBreak := by
  induction h using IsBounded.induct with
  | node id h ih =>
      have hany : (store.children id).any store.hasLooseBreak =
          ((store.children id).map store.term).any Term.hasLooseBreak := by
        rw [List.any_map, Bool.eq_iff_iff, List.any_eq_true, List.any_eq_true]
        refine exists_congr fun child => and_congr_right fun hchild => ?_
        rw [ih child hchild, Function.comp_apply]
      rw [h.hasLooseBreak_eq, h.term_eq, Term.hasLooseBreak_node, isPlainBreak_eq,
        catchesBreak_eq, hany]

def bareStep (here : NodeId) (found : Node) (below : NodeId → NodeId) : NodeId :=
  match found.kind with
  | .paren inner => below inner
  | _ => here

theorem isLocal_bareStep (store : Store) : store.IsLocal bareStep := by
  intro here f g hsame
  unfold children kind at hsame
  unfold bareStep
  cases hkind : (store.node here).kind <;> simp_all [Kind.children]

end Store

/-! ## Legible trees -/

namespace Tree

def head : Tree → Head
  | node _ head _ _ => head

def type : Tree → Option TypeDesc
  | node _ _ type _ => type

@[simp] theorem head_node (i : NodeId) (h : Head) (type : Option TypeDesc)
    (subs : List Tree) : (node i h type subs).head = h := rfl

@[simp] theorem type_node (i : NodeId) (h : Head) (type : Option TypeDesc)
    (subs : List Tree) : (node i h type subs).type = type := rfl

@[simp] theorem head_term (tree : Tree) : tree.term.head = tree.head := by
  cases tree
  simp

@[simp] theorem type_term (tree : Tree) : tree.term.type = tree.type := by
  cases tree
  simp

@[simp] theorem subs_term (tree : Tree) : tree.term.subs = tree.subs.map term := by
  cases tree
  simp

def bare : Tree → Tree
  | node _ .paren _ [inner] => bare inner
  | tree => tree

/-- The slots of the store spell out the tree, and no path is too long to be read. -/
structure Legible (store : Store) (tree : Tree) : Prop where
  laid : tree.Laid store
  height_le : tree.height ≤ store.size

variable {store : Store} {tree below : Tree}

theorem Legible.of_mem (h : tree.Legible store) (hmem : below ∈ tree.subtrees) :
    below.Legible store where
  laid := h.laid.of_mem hmem
  height_le := Nat.le_trans (height_le_of_mem hmem) h.height_le

theorem Legible.sub (h : tree.Legible store) (hsub : below ∈ tree.subs) :
    below.Legible store :=
  h.of_mem (sub_mem_subtrees hsub)

theorem Legible.kind_head (h : tree.Legible store) : (store.kind tree.id).head = tree.head := by
  cases tree
  exact h.laid.shown_by.head

theorem Legible.children (h : tree.Legible store) :
    store.children tree.id = tree.subs.map id := by
  cases tree
  exact h.laid.shown_by.children

theorem Legible.typeOf (h : tree.Legible store) : store.typeOf tree.id = tree.type := by
  cases tree
  exact h.laid.shown_by.typeOf

theorem Legible.of_kind (h : tree.Legible store) {kind : Kind}
    (hkind : store.kind tree.id = kind) :
    ∃ subs, tree = .node tree.id kind.head tree.type subs ∧ subs.map id = kind.children := by
  have hhead := h.kind_head
  have hchildren := h.children
  unfold Store.children at hchildren
  rw [hkind] at hhead hchildren
  cases tree with
  | node i head type subs =>
      simp only [head_node] at hhead
      subst hhead
      exact ⟨subs, rfl, hchildren.symm⟩

theorem Legible.lt (h : tree.Legible store) : tree.id < store.size :=
  h.laid.lt tree.id_mem_ids

theorem Legible.isBounded (h : tree.Legible store) : store.IsBounded tree.id :=
  Store.grounded_of_laid h.laid h.height_le

theorem Legible.term_eq (h : tree.Legible store) : store.term tree.id = tree.term :=
  Store.term_laid h.laid h.height_le

theorem Legible.preorder_eq (h : tree.Legible store) : store.preorder tree.id = tree.ids :=
  Store.preorder_laid h.laid h.height_le

/-! ## Recursive readings -/

theorem Legible.isPassive (h : tree.Legible store) :
    store.isPassive tree.id = tree.term.isPassive := by
  rw [← h.term_eq]
  exact h.isBounded.isPassive_term

theorem Legible.endsWithJump (h : tree.Legible store) :
    store.endsWithJump tree.id = tree.term.endsWithJump := by
  rw [← h.term_eq]
  exact h.isBounded.endsWithJump_term

theorem Legible.isPlainBreak (h : tree.Legible store) :
    store.isPlainBreak tree.id = (tree.head == .breakStmt none) := by
  rw [← h.kind_head]
  exact store.isPlainBreak_eq tree.id

theorem Legible.hasLooseBreak (h : tree.Legible store) :
    store.hasLooseBreak tree.id = tree.term.hasLooseBreak := by
  rw [← h.term_eq]
  exact h.isBounded.hasLooseBreak_term

/-! ## Names and declarations -/

theorem mem_bindings_iff {entity : Head → Option BindingId} {binding : BindingId} :
    binding ∈ tree.term.bindings entity ↔
      ∃ below ∈ tree.subtrees, entity below.head = some binding := by
  induction tree with
  | node i head type subs ih =>
      simp only [term_node, Term.bindings_node, List.mem_append, Option.mem_toList,
        List.mem_flatMap, List.mem_map]
      constructor
      · rintro (hself | ⟨_, ⟨sub, hsub, rfl⟩, hin⟩)
        · exact ⟨_, mem_subtrees_self _, hself⟩
        · obtain ⟨below, hbelow, hentity⟩ := (ih sub hsub).mp hin
          exact ⟨below, mem_subtrees_of_sub hsub hbelow, hentity⟩
      · rintro ⟨below, hbelow, hentity⟩
        rcases mem_subtrees_iff.mp hbelow with rfl | ⟨sub, hsub, hin⟩
        · exact .inl hentity
        · exact .inr ⟨sub.term, ⟨sub, hsub, rfl⟩, (ih sub hsub).mpr ⟨below, hin, hentity⟩⟩

theorem Legible.mentions (h : tree.Legible store) {bindings : List BindingId}
    {binding : BindingId} (hmem : binding ∈ bindings) (hname : binding ∈ tree.term.mentions) :
    store.mentions tree.id bindings = true := by
  obtain ⟨below, hbelow, hentity⟩ := mem_bindings_iff.mp hname
  rw [Store.mentions, h.preorder_eq, List.any_eq_true]
  refine ⟨below.id, mem_ids_iff.mpr ⟨below, hbelow, rfl⟩, ?_⟩
  have hkind := (h.of_mem hbelow).kind_head
  rw [← hkind] at hentity
  unfold Store.isNameOf
  cases hk : store.kind below.id <;> rw [hk] at hentity <;> cases hentity
  simpa using hmem

/-- What a statement declares is among its locals. -/
theorem Legible.declaredLocals (h : tree.Legible store) {locals : List BindingId}
    {binding : BindingId} (hdeclared : tree.head.declared? = some binding)
    (hlocals : store.declaredLocals tree.id = some locals) : binding ∈ locals := by
  have hkind := h.kind_head
  have hself : store.declared? tree.id = some (some binding) := by
    rw [← hkind] at hdeclared
    unfold Store.declared?
    cases hk : store.kind tree.id <;> rw [hk] at hdeclared <;> cases hdeclared
    rfl
  have hblock : (store.kind tree.id).isBlock = false := by
    unfold Store.declared? at hself
    split at hself
    · next hk => rw [hk]; rfl
    · cases hself
  have hlocal : store.IsLocal (fun here _ (below : NodeId → List NodeId) =>
      here :: (store.childrenInScope here).flatMap below) := by
    intro here f g hsame
    simp only [List.cons.injEq, true_and]
    exact List.flatMap_congr fun child hchild => hsame child (List.mem_of_mem_filter hchild)
  unfold Store.declaredLocals Store.statementScope Store.listing at hlocals
  rw [hblock, if_neg Bool.false_ne_true, Store.fold_laid hlocal h.laid h.height_le,
    List.filterMap_cons, hself] at hlocals
  -- The statement itself is the first node of its scope.
  simp only [List.mapM_cons, id_eq, Option.pure_def, Option.bind_eq_bind,
    Option.bind_some] at hlocals
  obtain ⟨others, -, hothers⟩ := Option.bind_eq_some_iff.mp hlocals
  rw [← Option.some.inj hothers]
  exact List.mem_cons_self ..

/-! ## Parentheses -/

theorem bare_mem_subtrees (tree : Tree) : tree.bare ∈ tree.subtrees := by
  induction tree with
  | node i head type subs ih =>
      unfold bare
      split
      · next _ type' inner heq =>
          cases heq
          exact mem_subtrees_of_sub (List.mem_singleton_self inner)
            (ih inner (List.mem_singleton_self inner))
      · exact mem_subtrees_self _

theorem term_bare (tree : Tree) : tree.bare.term = tree.term.bare := by
  induction tree with
  | node i head type subs ih =>
      unfold bare
      split
      · next _ type' inner heq =>
          cases heq
          rw [term_node, List.map_singleton, Term.bare]
          exact ih inner (List.mem_singleton_self inner)
      · next hne =>
          rw [term_node]
          unfold Term.bare
          split
          · next type' inner heq =>
              obtain ⟨hhead, htype, hsubs⟩ := Term.node.inj heq
              obtain ⟨sub, rfl, rfl⟩ := List.map_eq_singleton_iff.mp hsubs
              exact (hne i type sub (by rw [hhead])).elim
          · rfl

theorem Legible.unparenthesized (h : tree.Legible store) :
    store.unparenthesized tree.id = tree.bare.id := by
  have hlocal := store.isLocal_bareStep
  -- the value at the end of endless paths differs from node to node and plays no part
  have hany : ∀ (tree : Tree) (bottom : NodeId), tree.Legible store →
      store.fold bottom Store.bareStep tree.id = tree.bare.id := by
    intro tree bottom
    induction tree with
    | node i head type subs ih =>
        intro h
        rw [Store.fold_laid hlocal h.laid h.height_le]
        have hhead : (store.kind i).head = head := h.kind_head
        have hids : (store.kind i).children = subs.map id := h.children
        unfold Store.bareStep
        cases hkind : store.kind i with
        | paren inner =>
            rw [hkind] at hhead hids
            subst hhead
            obtain ⟨sub, rfl, rfl⟩ := List.map_eq_singleton_iff.mp hids.symm
            unfold Store.kind at hkind
            simp only [id_node, hkind, Kind.head, bare]
            exact ih sub (List.mem_singleton_self sub) (h.sub (List.mem_singleton_self sub))
        | _ =>
            rw [hkind] at hhead
            subst hhead
            unfold Store.kind at hkind
            simp only [id_node, hkind, Kind.head, bare]
  exact hany tree tree.id h

theorem Legible.bare (h : tree.Legible store) : tree.bare.Legible store :=
  h.of_mem tree.bare_mem_subtrees

/-- What stands inside all parentheses has no parentheses of its own. -/
theorem Legible.head_bare (h : tree.Legible store) : tree.bare.head ≠ .paren := by
  induction tree with
  | node i head type subs ih =>
      unfold Tree.bare
      split
      · next inner heq =>
          cases heq
          exact ih inner (List.mem_singleton_self inner) (h.sub (List.mem_singleton_self inner))
      · next hne =>
          rintro rfl
          have hhead := h.kind_head
          have hids : (store.kind i).children = subs.map id := h.children
          simp only [id_node, head_node] at hhead
          cases hkind : store.kind i <;> rw [hkind] at hhead hids <;> cases hhead
          obtain ⟨sub, rfl, -⟩ := List.map_eq_singleton_iff.mp hids.symm
          exact hne i type sub rfl

/-! ## Readings that look inside parentheses -/

theorem Legible.boolLiteral? (h : tree.Legible store) :
    store.boolLiteral? tree.id = tree.term.boolLiteral? := by
  unfold Store.boolLiteral? Term.boolLiteral?
  rw [h.unparenthesized, ← term_bare, head_term, ← h.bare.kind_head]
  cases store.kind tree.bare.id with
  | literal value => cases value <;> rfl
  | _ => rfl

theorem Legible.intLiteral? (h : tree.Legible store) :
    store.intLiteral? tree.id = tree.term.intLiteral? := by
  unfold Store.intLiteral? Term.intLiteral?
  rw [h.unparenthesized, ← term_bare, head_term, ← h.bare.kind_head]
  cases store.kind tree.bare.id with
  | literal value => cases value <;> rfl
  | _ => rfl

theorem Legible.isTotallyOrdered (h : tree.Legible store) :
    store.isTotallyOrdered tree.id = tree.term.isTotallyOrdered := by
  unfold Store.isTotallyOrdered Term.isTotallyOrdered
  rw [h.typeOf, type_term]

theorem Legible.isInvertible (h : tree.Legible store) :
    store.isInvertible tree.id = tree.term.isInvertible := by
  unfold Store.isInvertible Term.isInvertible
  rw [h.unparenthesized, ← term_bare]
  have hbare := h.bare
  generalize tree.bare = inner at hbare ⊢
  cases inner with
  | node i head type subs =>
      have hhead : (store.kind i).head = head := hbare.kind_head
      have hids : (store.kind i).children = subs.map id := hbare.children
      have hordered : (subs.map id).all store.isTotallyOrdered =
          (subs.map term).all Term.isTotallyOrdered := by
        rw [List.all_map, List.all_map, Bool.eq_iff_iff, List.all_eq_true, List.all_eq_true]
        apply forall_congr'
        intro sub
        apply imp_congr_right
        intro hsub
        rw [Function.comp_apply, Function.comp_apply, (hbare.sub hsub).isTotallyOrdered]
      rw [id_node, term_node]
      cases hkind : store.kind i <;> rw [hkind] at hhead hids <;> subst hhead
      case chain op operands =>
        simp only [Kind.children] at hids
        subst hids
        simp only [Kind.head, hordered, List.length_map]
      all_goals rfl

/-! ## Branches -/

def statements (tree : Tree) : List Tree :=
  if tree.head = .block then tree.subs else [tree]

theorem term_statements (tree : Tree) :
    tree.statements.map term = tree.term.statements := by
  unfold statements Term.statements
  rw [head_term, subs_term]
  split <;> rfl

theorem Legible.statementsOf (h : tree.Legible store) :
    store.statementsOf (some tree.id) = tree.statements.map id := by
  have hhead := h.kind_head
  have hids : (store.kind tree.id).children = tree.subs.map id := h.children
  unfold Store.statementsOf statements
  rw [← hhead]
  cases hkind : store.kind tree.id with
  | block stmts =>
      rw [hkind] at hids
      simpa [Kind.head, Kind.children, hkind] using hids
  | _ => simp [Kind.head, hkind]

theorem Legible.isEmptyBranch (h : tree.Legible store) :
    store.isEmptyBranch (some tree.id) = Term.isEmptyBranch (some tree.term) := by
  have hhead := h.kind_head
  have hids : (store.kind tree.id).children = tree.subs.map id := h.children
  unfold Store.isEmptyBranch Term.isEmptyBranch
  rw [Option.all_some, head_term, subs_term, ← hhead]
  cases hkind : store.kind tree.id with
  | block stmts =>
      rw [hkind] at hids
      simp only [Kind.children] at hids
      simp [Kind.head, hkind, hids]
  | _ => simp [Kind.head, hkind]

theorem isEmptyBranch_map {branch : Option Tree}
    (h : ∀ tree, tree ∈ branch → tree.Legible store) :
    store.isEmptyBranch (branch.map id) = Term.isEmptyBranch (branch.map term) := by
  cases branch with
  | none => rfl
  | some tree => exact (h tree rfl).isEmptyBranch

theorem Legible.of_ifStmt (h : tree.Legible store) {cond thenBranch : NodeId}
    {elseBranch : Option NodeId}
    (hkind : store.kind tree.id = .ifStmt cond thenBranch elseBranch) :
    ∃ (c t : Tree) (e : Option Tree), c.id = cond ∧ t.id = thenBranch ∧ e.map id = elseBranch ∧
      tree = .node tree.id .ifStmt tree.type (c :: t :: e.toList) := by
  obtain ⟨subs, hform, hids⟩ := h.of_kind hkind
  obtain ⟨c, rest, rfl, hcond, hrest⟩ := List.map_eq_cons_iff.mp hids
  obtain ⟨t, rest, rfl, hthen, hlast⟩ := List.map_eq_cons_iff.mp hrest
  cases elseBranch with
  | none =>
      rw [List.map_eq_nil_iff.mp hlast] at hform
      exact ⟨c, t, none, hcond, hthen, rfl, hform⟩
  | some branch =>
      obtain ⟨e, rfl, rfl⟩ := List.map_eq_singleton_iff.mp hlast
      exact ⟨c, t, some e, hcond, hthen, rfl, hform⟩

end Tree

end CodeTidy
