import CodeTidy.Proofs.Run

/-!
# Forgetting what names and types mean

`Store.forget` takes away what some names and declarations are bound to, and the types of some
nodes.  The shape of the tree stays as it is.  What is told of types, of expressions that are
alike and of declared locals with less information is told with more as well.  Uses of locals
are another matter: a name that is no longer bound does not count as one.
`Store.KeepsLocals.isNameOf_eq` says when none is overlooked.
-/

namespace CodeTidy

/-! ## Forgetting -/

def Kind.unbound : Kind → Kind
  | name text _ => name text none
  | varDecl text _ init => varDecl text none init
  | kind => kind

def Node.forget (unbound untyped : Bool) (node : Node) : Node :=
  { node with
    kind := if unbound then node.kind.unbound else node.kind
    type := if untyped then none else node.type }

namespace Store

/-- The store without the bindings of some nodes and without the types of some nodes. -/
def forget (unbound untyped : NodeId → Bool) (store : Store) : Store :=
  { store with
    nodes := store.nodes.mapIdx (fun id node => node.forget (unbound id) (untyped id)) }

/-- No name of the tree loses its binding to a local that is declared in the tree, unless the
declaration loses it too. -/
def KeepsLocals (store : Store) (root : NodeId) (unbound : NodeId → Bool) : Prop :=
  ∀ name, name ∈ store.preorder root → ∀ decl, decl ∈ store.preorder root →
    ∀ binding, store.isNameOf [binding] name = true →
      store.declared? decl = some (some binding) → unbound name = true → unbound decl = true

/-- What the bindings refer to is declared in the tree. -/
def Declares (store : Store) (root : NodeId) (bindings : List BindingId) : Prop :=
  ∀ binding, binding ∈ bindings → ∃ decl ∈ store.preorder root,
    store.declared? decl = some (some binding)

variable {store : Store} {unbound untyped : NodeId → Bool} {id : NodeId}

theorem node_forget : (store.forget unbound untyped).node id =
    (store.node id).forget (unbound id) (untyped id) := by
  unfold node forget
  rw [Array.getD_eq_getD_getElem?, Array.getD_eq_getD_getElem?, Array.getElem?_mapIdx]
  cases store.nodes[id]? with
  | some found => rfl
  | none => cases unbound id <;> cases untyped id <;> rfl

theorem size_forget : (store.forget unbound untyped).size = store.size := by
  simp [size, forget]

theorem parent_forget : (store.forget unbound untyped).parent id = store.parent id := by
  rw [parent, node_forget]
  rfl

theorem kind_forget : (store.forget unbound untyped).kind id =
    if unbound id then (store.kind id).unbound else store.kind id := by
  rw [kind, node_forget]
  rfl

theorem kind_forget_cases (store : Store) (unbound untyped : NodeId → Bool) (id : NodeId) :
    (store.forget unbound untyped).kind id = (store.kind id).unbound ∨
      (store.forget unbound untyped).kind id = store.kind id := by
  rw [kind_forget]
  split
  · exact .inl rfl
  · exact .inr rfl

theorem read_forget {α : Type} (read : Kind → α)
    (hread : ∀ kind : Kind, read kind.unbound = read kind) :
    read ((store.forget unbound untyped).kind id) = read (store.kind id) := by
  rcases kind_forget_cases store unbound untyped id with hkind | hkind
  · rw [hkind, hread]
  · rw [hkind]

theorem kind_of_forget {kind : Kind} (h : (store.forget unbound untyped).kind id = kind)
    (hname : ∀ text, kind ≠ .name text none)
    (hdecl : ∀ text init, kind ≠ .varDecl text none init) : store.kind id = kind := by
  rw [kind_forget] at h
  split at h
  · cases hkind : store.kind id <;> rw [hkind] at h <;> subst h
    case name text _ => exact absurd rfl (hname text)
    case varDecl text _ init => exact absurd rfl (hdecl text init)
    all_goals rfl
  · exact h

theorem typeOf_of_forget {type : TypeDesc}
    (h : (store.forget unbound untyped).typeOf id = some type) : store.typeOf id = some type := by
  unfold typeOf at h ⊢
  rw [node_forget, show (store.forget unbound untyped).types = store.types from rfl] at h
  unfold Node.forget at h
  cases hlost : untyped id with
  | true => simp [hlost] at h
  | false => simpa [hlost] using h

theorem any_typeOf_of_forget {p : TypeDesc → Bool}
    (h : ((store.forget unbound untyped).typeOf id).any p = true) :
    (store.typeOf id).any p = true := by
  obtain ⟨type, htype, hp⟩ := (Option.any_eq_true _ _).mp h
  rw [typeOf_of_forget htype]
  exact hp

/-! ## The shape of the tree -/

theorem fold_forget {α : Type} {bottom : α} {step : NodeId → Node → (NodeId → α) → α}
    (hstep : ∀ here found below (unbound untyped : Bool),
      step here (found.forget unbound untyped) below = step here found below) :
    (store.forget unbound untyped).fold bottom step id = store.fold bottom step id := by
  unfold fold
  rw [size_forget]
  generalize store.size + 1 = steps
  induction steps generalizing id with
  | zero => rfl
  | succ steps ih =>
      rw [foldSteps_succ, foldSteps_succ, node_forget, hstep]
      congr 1
      exact funext fun _ => ih

theorem children_forget : (store.forget unbound untyped).children id = store.children id :=
  read_forget Kind.children (by rintro ⟨⟩ <;> rfl)

theorem unparenthesized_forget :
    (store.forget unbound untyped).unparenthesized id = store.unparenthesized id := by
  refine fold_forget ?_
  rintro here ⟨kind, _, _, _⟩ below unbound untyped
  cases unbound <;> cases kind <;> rfl

theorem isPassive_forget : (store.forget unbound untyped).isPassive id = store.isPassive id := by
  refine fold_forget ?_
  rintro here ⟨kind, _, _, _⟩ below unbound untyped
  cases unbound <;> cases kind <;> rfl

theorem endsWithJump_forget :
    (store.forget unbound untyped).endsWithJump id = store.endsWithJump id := by
  refine fold_forget ?_
  rintro here ⟨kind, _, _, _⟩ below unbound untyped
  cases unbound <;> cases kind <;> rfl

theorem listing_forget (next : NodeId → List NodeId) :
    (store.forget unbound untyped).listing next id = store.listing next id :=
  fold_forget (fun _ _ _ _ _ => rfl)

theorem preorder_forget : (store.forget unbound untyped).preorder id = store.preorder id := by
  unfold preorder
  rw [show (store.forget unbound untyped).children = store.children from
    funext fun _ => children_forget]
  exact listing_forget _

theorem isBlock_forget :
    ((store.forget unbound untyped).kind id).isBlock = (store.kind id).isBlock :=
  read_forget Kind.isBlock (by rintro ⟨⟩ <;> rfl)

theorem statementScope_forget :
    (store.forget unbound untyped).statementScope id = store.statementScope id := by
  have hnext : (store.forget unbound untyped).childrenInScope = store.childrenInScope := by
    funext id
    simp only [childrenInScope, children_forget, isBlock_forget]
  unfold statementScope
  rw [hnext]
  exact listing_forget _

theorem isPlainBreak_forget :
    (store.forget unbound untyped).isPlainBreak id = store.isPlainBreak id := by
  unfold isPlainBreak
  rcases kind_forget_cases store unbound untyped id with hkind | hkind <;>
    rw [hkind]
  cases store.kind id <;> rfl

theorem catchesBreak_forget :
    (store.forget unbound untyped).catchesBreak id = store.catchesBreak id := by
  unfold catchesBreak
  rcases kind_forget_cases store unbound untyped id with hkind | hkind <;>
    rw [hkind]
  cases store.kind id <;> rfl

theorem hasLooseBreak_forget :
    (store.forget unbound untyped).hasLooseBreak id = store.hasLooseBreak id := by
  have hnext : (store.forget unbound untyped).childrenUnless
      (store.forget unbound untyped).catchesBreak = store.childrenUnless store.catchesBreak := by
    funext id
    simp only [childrenUnless, catchesBreak_forget, children_forget]
  unfold hasLooseBreak
  rw [hnext, listing_forget, show (store.forget unbound untyped).isPlainBreak = store.isPlainBreak
    from funext fun _ => isPlainBreak_forget]

theorem boolLiteral?_forget :
    (store.forget unbound untyped).boolLiteral? id = store.boolLiteral? id := by
  unfold boolLiteral?
  rw [unparenthesized_forget]
  rcases kind_forget_cases store unbound untyped (store.unparenthesized id) with hkind | hkind <;>
    rw [hkind]
  cases store.kind (store.unparenthesized id) <;> rfl

theorem intLiteral?_forget :
    (store.forget unbound untyped).intLiteral? id = store.intLiteral? id := by
  unfold intLiteral?
  rw [unparenthesized_forget]
  rcases kind_forget_cases store unbound untyped (store.unparenthesized id) with hkind | hkind <;>
    rw [hkind]
  cases store.kind (store.unparenthesized id) <;> rfl

theorem isEmptyBranch_forget {branch : Option NodeId} :
    (store.forget unbound untyped).isEmptyBranch branch = store.isEmptyBranch branch := by
  cases branch with
  | none => rfl
  | some stmt =>
      simp only [isEmptyBranch]
      rcases kind_forget_cases store unbound untyped stmt with hkind | hkind <;>
        rw [hkind]
      cases store.kind stmt <;> rfl

theorem statementsOf_forget {branch : Option NodeId} :
    (store.forget unbound untyped).statementsOf branch = store.statementsOf branch := by
  cases branch with
  | none => rfl
  | some stmt =>
      simp only [statementsOf]
      rcases kind_forget_cases store unbound untyped stmt with hkind | hkind <;>
        rw [hkind]
      cases store.kind stmt <;> rfl

/-! ## Comparisons and matches -/

theorem isTotallyOrdered_of_forget
    (h : (store.forget unbound untyped).isTotallyOrdered id = true) :
    store.isTotallyOrdered id = true :=
  any_typeOf_of_forget h

theorem isInvertible_of_forget (h : (store.forget unbound untyped).isInvertible id = true) :
    store.isInvertible id = true := by
  unfold isInvertible at h ⊢
  rw [unparenthesized_forget] at h
  split at h
  · next op operands hkind =>
    rw [kind_of_forget hkind (by simp) (by simp)]
    simp only [Bool.and_eq_true, Bool.or_eq_true, List.all_eq_true] at h ⊢
    exact ⟨h.1, h.2.imp_right fun hall x hx => isTotallyOrdered_of_forget (hall x hx)⟩
  · cases h

theorem allMatch_mono {same same' : NodeId → NodeId → Bool}
    (hsame : ∀ a b, same' a b = true → same a b = true) {as bs : List NodeId}
    (h : allMatch same' as bs = true) : allMatch same as bs = true := by
  induction as generalizing bs with
  | nil => cases bs <;> exact h
  | cons a as ih =>
      cases bs with
      | nil => exact h
      | cons b bs =>
          simp only [allMatch, Bool.and_eq_true] at h ⊢
          exact ⟨hsame a b h.1, ih h.2⟩

theorem optionMatch_mono {same same' : NodeId → NodeId → Bool}
    (hsame : ∀ a b, same' a b = true → same a b = true) {a b : Option NodeId}
    (h : optionMatch same' a b = true) : optionMatch same a b = true := by
  cases a <;> cases b <;> first | exact h | exact hsame _ _ h

theorem swapMatch_of_forget {same same' : NodeId → NodeId → Bool}
    (hsame : ∀ a b, same' a b = true → same a b = true) {op op' : InfixOp}
    {as bs : List NodeId}
    (h : (store.forget unbound untyped).swapMatch same' op op' as bs = true) :
    store.swapMatch same op op' as bs = true := by
  unfold swapMatch at h ⊢
  split at h
  · simp only [Bool.and_eq_true, List.all_eq_true, isPassive_forget] at h ⊢
    exact ⟨⟨h.1.1, hsame _ _ h.1.2⟩, hsame _ _ h.2⟩
  · cases h

theorem kindsMatch_of_forget {same same' : NodeId → NodeId → Bool}
    (hsame : ∀ a b, same' a b = true → same a b = true) {a b : NodeId}
    (h : (store.forget unbound untyped).kindsMatch same' ((store.forget unbound untyped).kind a)
      ((store.forget unbound untyped).kind b) = true) :
    store.kindsMatch same (store.kind a) (store.kind b) = true := by
  unfold kindsMatch at h
  split at h
  case h_10 => cases h
  all_goals
    rename_i ha hb
    rw [kind_of_forget ha (by simp) (by simp), kind_of_forget hb (by simp) (by simp)]
    simp only [kindsMatch, Bool.and_eq_true, Bool.or_eq_true] at h ⊢
  · exact h
  · exact h
  · exact ⟨hsame _ _ h.1, hsame _ _ h.2⟩
  · exact ⟨h.1, hsame _ _ h.2⟩
  · exact ⟨h.1, hsame _ _ h.2⟩
  · exact ⟨h.1, hsame _ _ h.2⟩
  · exact h.imp (fun hchain => ⟨hchain.1, allMatch_mono hsame hchain.2⟩)
      (fun hswap => swapMatch_of_forget hsame hswap)
  · exact ⟨⟨h.1.1, hsame _ _ h.1.2⟩, hsame _ _ h.2⟩
  · exact ⟨⟨h.1.1, optionMatch_mono hsame h.1.2⟩, allMatch_mono hsame h.2⟩

/-- Expressions that are told to be alike without some bindings are alike. -/
theorem alike_of_forget {a b : NodeId} (h : (store.forget unbound untyped).alike a b = true) :
    store.alike a b = true := by
  unfold alike fold at h ⊢
  rw [size_forget] at h
  generalize store.size + 1 = steps at h ⊢
  induction steps generalizing a b with
  | zero => exact h
  | succ steps ih =>
      rw [foldSteps_succ] at h ⊢
      split at h
      · next inner hkind =>
        have hsame : store.kind a = .paren inner := kind_of_forget hkind (by simp) (by simp)
        rw [show (store.node a).kind = .paren inner from hsame]
        exact ih h
      · next hother =>
        split
        · next inner hkind =>
          have hparen : (store.forget unbound untyped).kind a = .paren inner := by
            rw [kind_forget, show store.kind a = .paren inner from hkind]
            split <;> rfl
          exact absurd hparen (hother inner)
        · rw [unparenthesized_forget] at h
          simp only [Bool.or_eq_true] at h ⊢
          exact h.imp_right (kindsMatch_of_forget (fun _ _ => ih))

/-! ## Locals and their names -/

theorem declared?_of_forget {binding : BindingId}
    (h : (store.forget unbound untyped).declared? id = some (some binding)) :
    store.declared? id = some (some binding) := by
  unfold declared? at h ⊢
  split at h
  · next text found init hkind =>
    obtain rfl : found = some binding := Option.some.inj h
    rw [kind_of_forget hkind (by simp) (by simp)]
  · cases h

theorem kept_of_declared?_forget {binding : BindingId}
    (h : (store.forget unbound untyped).declared? id = some (some binding)) :
    unbound id = false := by
  cases hlost : unbound id with
  | false => rfl
  | true =>
      unfold declared? at h
      rw [kind_forget, hlost] at h
      cases hkind : store.kind id <;> rw [hkind] at h <;> cases h

theorem declared?_eq_none_of_forget
    (h : (store.forget unbound untyped).declared? id = none) : store.declared? id = none := by
  unfold declared? at h ⊢
  rw [kind_forget] at h
  cases hlost : unbound id <;> cases hkind : store.kind id <;> simp_all [Kind.unbound]

end Store

/-- Where each element gives a result, each result comes from an element. -/
theorem exists_of_mem_mapM {α β : Type} {f : α → Option β} {list : List α} {found : List β}
    {result : β} (h : list.mapM f = some found) (hmem : result ∈ found) :
    ∃ item ∈ list, f item = some result := by
  induction list generalizing found with
  | nil =>
      cases h
      cases hmem
  | cons first rest ih =>
      rw [List.mapM_cons] at h
      obtain ⟨head, hhead, hrest⟩ := Option.bind_eq_some_iff.mp h
      obtain ⟨others, hothers, hall⟩ := Option.bind_eq_some_iff.mp hrest
      cases hall
      rcases List.mem_cons.mp hmem with rfl | hmem
      · exact ⟨first, List.mem_cons_self .., hhead⟩
      · obtain ⟨item, hitem, hresult⟩ := ih hothers hmem
        exact ⟨item, List.mem_cons_of_mem _ hitem, hresult⟩

/-- A computation that gives the same result wherever it gives one does so for lists. -/
theorem mapM_mono {α β : Type} {f f' : α → Option β} {list : List α} {found : List β}
    (hsame : ∀ item result, f' item = some result → f item = some result)
    (h : list.mapM f' = some found) : list.mapM f = some found := by
  induction list generalizing found with
  | nil => exact h
  | cons first rest ih =>
      rw [List.mapM_cons] at h ⊢
      obtain ⟨head, hhead, hrest⟩ := Option.bind_eq_some_iff.mp h
      obtain ⟨others, hothers, hall⟩ := Option.bind_eq_some_iff.mp hrest
      rw [hsame first head hhead, ih hothers]
      exact hall

/-- Where every declaration is resolved without some bindings, it is resolved with them. -/
theorem Store.mapM_declared?_of_forget {store : Store} {unbound untyped : NodeId → Bool}
    {ids : List NodeId} {bindings : List BindingId}
    (h : (ids.filterMap (store.forget unbound untyped).declared?).mapM id = some bindings) :
    (ids.filterMap store.declared?).mapM id = some bindings := by
  induction ids generalizing bindings with
  | nil => exact h
  | cons first rest ih =>
      cases hfirst : (store.forget unbound untyped).declared? first with
      | none =>
          rw [List.filterMap_cons_none hfirst] at h
          rw [List.filterMap_cons_none (declared?_eq_none_of_forget hfirst)]
          exact ih h
      | some found =>
          rw [List.filterMap_cons_some hfirst, List.mapM_cons] at h
          obtain ⟨binding, hbinding, hrest⟩ := Option.bind_eq_some_iff.mp h
          obtain ⟨others, hothers, hall⟩ := Option.bind_eq_some_iff.mp hrest
          obtain rfl : found = some binding := hbinding
          rw [List.filterMap_cons_some (declared?_of_forget hfirst), List.mapM_cons, ih hothers]
          exact hall

namespace Store

variable {store : Store} {unbound untyped : NodeId → Bool} {id : NodeId}

theorem declaredLocals_of_forget {bindings : List BindingId}
    (h : (store.forget unbound untyped).declaredLocals id = some bindings) :
    store.declaredLocals id = some bindings := by
  unfold declaredLocals at h ⊢
  rw [isBlock_forget, statementScope_forget] at h
  split at h
  · next hblock =>
    rw [if_pos hblock]
    exact h
  · next hblock =>
    rw [if_neg hblock]
    exact mapM_declared?_of_forget h

theorem isNameOf_forget {bindings : List BindingId} (hkept : unbound id = false) :
    (store.forget unbound untyped).isNameOf bindings id = store.isNameOf bindings id := by
  unfold isNameOf
  rw [kind_forget, hkept]
  rfl

/-- Names of locals are still recognized if their declarations are. -/
theorem KeepsLocals.isNameOf_eq {root : NodeId} (h : store.KeepsLocals root unbound)
    {bindings : List BindingId} (hid : id ∈ store.preorder root)
    (hdeclared : (store.forget unbound untyped).Declares root bindings) :
    (store.forget unbound untyped).isNameOf bindings id = store.isNameOf bindings id := by
  cases hlost : unbound id with
  | false => exact isNameOf_forget hlost
  | true =>
      have hless : (store.forget unbound untyped).isNameOf bindings id = false := by
        unfold isNameOf
        rw [kind_forget, hlost]
        cases store.kind id <;> rfl
      have hmore : store.isNameOf bindings id = false := by
        unfold isNameOf
        split
        · next text binding hkind =>
          by_contra hin
          have hmem : binding ∈ bindings := by simpa using hin
          obtain ⟨decl, hdecl, hbound⟩ := hdeclared binding hmem
          rw [preorder_forget] at hdecl
          have hname : store.isNameOf [binding] id = true := by simp [isNameOf, hkind]
          have hforgot := h id hid decl hdecl binding hname (declared?_of_forget hbound) hlost
          rw [kept_of_declared?_forget hbound] at hforgot
          cases hforgot
        · rfl
      rw [hless, hmore]

/-! ## Where locals are declared -/

variable {tree : Tree} {owner : NodeId}

theorem Holds.mem_preorder_iff (h : store.Holds tree) :
    id ∈ store.preorder tree.id ↔ id ∈ tree.ids := by
  rw [h.preorder_eq tree.mem_subtrees_self]

theorem Holds.preorder_subset {below : Tree} (h : store.Holds tree)
    (hbelow : below ∈ tree.subtrees) : store.preorder below.id ⊆ store.preorder tree.id := by
  intro id hid
  rw [h.preorder_eq hbelow] at hid
  exact h.mem_preorder_iff.mpr (Tree.ids_subset_of_mem hbelow hid)

theorem Holds.parent_mem_ids (h : store.Holds tree) (hid : id ∈ tree.ids)
    (hparent : store.parent id = some owner) : owner ∈ tree.ids := by
  refine h.held.parent_mem_ids hid ?_ hparent
  rintro rfl
  rw [h.held.link] at hparent
  cases hparent

theorem listing_subset {next next' : NodeId → List NodeId} (h : ∀ id, next id ⊆ next' id) :
    store.listing next id ⊆ store.listing next' id := by
  unfold listing fold
  generalize store.size + 1 = steps
  induction steps generalizing id with
  | zero => exact List.Subset.refl _
  | succ steps ih =>
      rw [foldSteps_succ, foldSteps_succ]
      intro other hother
      rcases List.mem_cons.mp hother with rfl | hother
      · exact List.mem_cons_self ..
      · obtain ⟨below, hbelow, hin⟩ := List.mem_flatMap.mp hother
        exact List.mem_cons_of_mem _ (List.mem_flatMap.mpr ⟨below, h id hbelow, ih hin⟩)

theorem statementScope_subset : store.statementScope id ⊆ store.preorder id :=
  listing_subset (fun _ => List.filter_subset_self _)

theorem exists_decl_of_declaredLocals {bindings : List BindingId} {binding : BindingId}
    (h : store.declaredLocals id = some bindings) (hmem : binding ∈ bindings) :
    ∃ decl ∈ store.preorder id, store.declared? decl = some (some binding) := by
  unfold declaredLocals at h
  split at h
  · cases h
    cases hmem
  · obtain ⟨found, hfound, hbinding⟩ := exists_of_mem_mapM h hmem
    obtain ⟨decl, hdecl, hdeclared⟩ := List.mem_filterMap.mp hfound
    have hsome : found = some binding := hbinding
    exact ⟨decl, statementScope_subset hdecl, hsome ▸ hdeclared⟩

end Store

end CodeTidy
