import CodeTidy.Proofs.Reading
import CodeTidy.Tree.Matching

/-!
# Expressions that mean the same

`Store.alike` compares two expressions part by part, inside their parentheses.  `Agreement` is
one step of that comparison, stated for anything that has a head and slots.  What the step asks
of the parts it passes on to the whole: it can be turned round, it can be composed, and it keeps
passivity.  So `Store.alike` is a partial equivalence on the nodes of a valid tree.
-/

namespace CodeTidy

/-! ## One step -/

namespace Head

/-- What a comparison sees of a head with so many slots.  A name counts by what it is bound to;
what is not compared part by part does not count at all. -/
def sense? : Head → Nat → Option Head
  | literal value, 0 => some (literal value)
  | name _ (some binding), 0 => some (name "" (some binding))
  | qualified, 2 => some qualified
  | field label, 1 => some (field label)
  | prefixed op, 1 => some (prefixed op)
  | postfixed op, 1 => some (postfixed op)
  | chain op, _ => some (chain op)
  | assign op, 2 => some (assign op)
  | call hasReceiver method, _ => some (call hasReceiver method)
  | _, _ => none

/-- What a comparison sees is the head itself, but for the text of a name. -/
theorem sense?_eq_some {head sense : Head} {count : Nat} (h : head.sense? count = some sense) :
    head = sense ∨
      ∃ text binding, head = .name text (some binding) ∧ sense = .name "" (some binding) := by
  unfold sense? at h
  split at h <;> cases h
  case h_2 text binding => exact .inr ⟨text, binding, rfl, rfl⟩
  all_goals exact .inl rfl

/-- Where a comparison sees the same, the heads are the same, or name the same entity. -/
theorem eq_or_names {head head' sense : Head} {count count' : Nat}
    (h : head.sense? count = some sense) (h' : head'.sense? count' = some sense) :
    head = head' ∨ ∃ text text' binding,
      head = .name text (some binding) ∧ head' = .name text' (some binding) := by
  rcases sense?_eq_some h with rfl | ⟨text, binding, rfl, rfl⟩
  · rcases sense?_eq_some h' with rfl | ⟨text', binding, rfl, rfl⟩
    · exact .inl rfl
    · exact .inr ⟨"", text', binding, rfl, rfl⟩
  · rcases sense?_eq_some h' with rfl | ⟨text', binding', rfl, heq⟩
    · exact .inr ⟨text, "", binding, rfl, rfl⟩
    · cases heq
      exact .inr ⟨text, text', binding, rfl, rfl⟩

theorem eq_chain_of_sense? {head : Head} {count : Nat} {op : InfixOp}
    (h : head.sense? count = some (.chain op)) : head = .chain op := by
  rcases sense?_eq_some h with heq | ⟨text, binding, -, hname⟩
  · exact heq
  · cases hname

end Head

/-- Two nodes agree: they show the same and their slots are related in order, or they are
comparisons of passive operands that stand the other way round. -/
inductive Agreement {α : Type} (passive : α → Bool) (related : α → α → Prop) :
    Head → List α → Head → List α → Prop where
  | parts {sense head head' : Head} {xs ys : List α} (hsense : head.sense? xs.length = some sense)
      (hsense' : head'.sense? ys.length = some sense) (hslots : List.Forall₂ related xs ys) :
      Agreement passive related head xs head' ys
  | swapped {op : InfixOp} {x y z w : α} (hop : op.isComparison = true)
      (hpassive : [x, y, z, w].all passive = true) (hfirst : related x w)
      (hsecond : related y z) :
      Agreement passive related (.chain op) [x, y] (.chain op.swapped) [z, w]

namespace Agreement

variable {α β : Type} {passive : α → Bool} {related : α → α → Prop} {head head' head'' : Head}
  {xs ys zs : List α}

theorem forall₂_mem (h : List.Forall₂ related xs ys) :
    List.Forall₂ (fun x y => x ∈ xs ∧ y ∈ ys ∧ related x y) xs ys := by
  rw [List.forall₂_iff_zip] at h ⊢
  refine ⟨h.1, ?_⟩
  intro x y hpair
  obtain ⟨hx, hy⟩ := List.of_mem_zip hpair
  exact ⟨hx, hy, h.2 hpair⟩

theorem forall₂_comp {first second : α → α → Prop} (h : List.Forall₂ first xs ys)
    (h' : List.Forall₂ second ys zs) :
    List.Forall₂ (fun x z => ∃ y, first x y ∧ second y z) xs zs := by
  induction h generalizing zs with
  | nil =>
      cases h'
      exact .nil
  | @cons x y _ _ hfirst _ ih =>
      cases h' with
      | cons hfirst' hrest' => exact .cons ⟨y, hfirst, hfirst'⟩ (ih hrest')

/-- An agreement of what stands in the slots is an agreement of anything read from it. -/
theorem map {f : α → β} {passive' : β → Bool} {related' : β → β → Prop}
    (h : Agreement passive related head xs head' ys)
    (hpassive : ∀ x, x ∈ xs ++ ys → passive x = true → passive' (f x) = true)
    (hrelated : ∀ x y, x ∈ xs → y ∈ ys → related x y → related' (f x) (f y)) :
    Agreement passive' related' head (xs.map f) head' (ys.map f) := by
  cases h with
  | parts hsense hsense' hslots =>
      refine .parts (by rwa [List.length_map]) (by rwa [List.length_map]) ?_
      rw [List.forall₂_map_left_iff, List.forall₂_map_right_iff]
      exact (forall₂_mem hslots).imp (fun x y hxy => hrelated x y hxy.1 hxy.2.1 hxy.2.2)
  | @swapped op x y z w hop hall hfirst hsecond =>
      refine .swapped hop ?_ (hrelated x w (by simp) (by simp) hfirst)
        (hrelated y z (by simp) (by simp) hsecond)
      rw [List.all_eq_true] at hall
      simp only [List.all_cons, List.all_nil, Bool.and_true, Bool.and_eq_true]
      exact ⟨hpassive x (by simp) (hall x (by simp)), hpassive y (by simp) (hall y (by simp)),
        hpassive z (by simp) (hall z (by simp)), hpassive w (by simp) (hall w (by simp))⟩

theorem imp {related' : α → α → Prop} (h : Agreement passive related head xs head' ys)
    (hrelated : ∀ x y, x ∈ xs → y ∈ ys → related x y → related' x y) :
    Agreement passive related' head xs head' ys := by
  have hmap := @map _ _ _ _ _ _ _ _ id passive related' h (fun _ _ hx => hx) hrelated
  rwa [List.map_id, List.map_id] at hmap

theorem symm (h : Agreement passive related head xs head' ys)
    (hsymm : ∀ x y, x ∈ xs → y ∈ ys → related x y → related y x) :
    Agreement passive related head' ys head xs := by
  cases h with
  | parts hsense hsense' hslots =>
      refine .parts hsense' hsense (List.Forall₂.flip ?_)
      exact (forall₂_mem hslots).imp (fun x y hxy => hsymm x y hxy.1 hxy.2.1 hxy.2.2)
  | @swapped op x y z w hop hall hfirst hsecond =>
      have hall' : [z, w, x, y].all passive = true := by
        simp only [List.all_cons, List.all_nil, Bool.and_true, Bool.and_eq_true] at hall ⊢
        exact ⟨hall.2.2.1, hall.2.2.2, hall.1, hall.2.1⟩
      have hback : Agreement passive related (.chain op.swapped) [z, w]
          (.chain op.swapped.swapped) [x, y] :=
        .swapped (op.isComparison_swapped.trans hop) hall'
          (hsymm y z (by simp) (by simp) hsecond) (hsymm x w (by simp) (by simp) hfirst)
      rwa [InfixOp.swapped_swapped] at hback

/-- Agreements compose, whichever of them turn a comparison round: the operands of the outer two
are as passive as those in the middle. -/
theorem trans (h : Agreement passive related head xs head' ys)
    (h' : Agreement passive related head' ys head'' zs)
    (hsame : ∀ x y, x ∈ xs → y ∈ ys → related x y → passive x = passive y)
    (hsame' : ∀ y z, y ∈ ys → z ∈ zs → related y z → passive y = passive z)
    (htrans : ∀ x y z, x ∈ xs → y ∈ ys → z ∈ zs → related x y → related y z →
      related x z) : Agreement passive related head xs head'' zs := by
  cases h with
  | parts hsense hmiddle hslots =>
      cases h' with
      | parts hmiddle' hsense' hslots' =>
          rw [hmiddle] at hmiddle'
          cases hmiddle'
          refine .parts hsense hsense' ((forall₂_comp (forall₂_mem hslots)
            (forall₂_mem hslots')).imp ?_)
          rintro x z ⟨y, ⟨hx, hy, hxy⟩, -, hz, hyz⟩
          exact htrans x y z hx hy hz hxy hyz
      | @swapped op x' y' z w hop hall hfirst hsecond =>
          cases hmiddle
          cases Head.eq_chain_of_sense? hsense
          rcases hslots with _ | ⟨hx, _ | ⟨hy, _ | _⟩⟩
          simp only [List.all_cons, List.all_nil, Bool.and_true, Bool.and_eq_true] at hall
          refine .swapped hop ?_ (htrans _ _ _ (by simp) (by simp) (by simp) hx hfirst)
            (htrans _ _ _ (by simp) (by simp) (by simp) hy hsecond)
          simp [hsame _ _ (by simp) (by simp) hx, hsame _ _ (by simp) (by simp) hy, hall]
  | @swapped op x y z w hop hall hfirst hsecond =>
      simp only [List.all_cons, List.all_nil, Bool.and_true, Bool.and_eq_true] at hall
      generalize hother : Head.chain op.swapped = other at h'
      generalize hlist : [z, w] = list at h'
      cases h' with
      | @parts sense _ _ _ _ hmiddle hsense' hslots =>
          subst hother hlist
          cases hmiddle
          cases Head.eq_chain_of_sense? hsense'
          rcases hslots with _ | ⟨hz, _ | ⟨hw, _ | _⟩⟩
          refine .swapped hop ?_ (htrans _ _ _ (by simp) (by simp) (by simp) hfirst hw)
            (htrans _ _ _ (by simp) (by simp) (by simp) hsecond hz)
          simp [← hsame' _ _ (by simp) (by simp) hz, ← hsame' _ _ (by simp) (by simp) hw, hall]
      | @swapped op' z' w' u v hop' hall' hfirst' hsecond' =>
          cases hother
          cases hlist
          rw [InfixOp.swapped_swapped]
          refine .parts rfl rfl (.cons ?_ (.cons ?_ .nil))
          · exact htrans _ _ _ (by simp) (by simp) (by simp) hfirst hsecond'
          · exact htrans _ _ _ (by simp) (by simp) (by simp) hsecond hfirst'

end Agreement

/-! ## Relations that the steps pass on -/

namespace Term

theorem isPassive_bare (term : Term) : term.bare.isPassive = term.isPassive := by
  induction term with
  | node head type subs ih =>
      unfold bare
      split
      · next type' inner heq =>
          cases heq
          rw [ih inner (List.mem_singleton_self inner), isPassive_node]
          simp
      · rfl

/-- Whether an expression is passive can be told from what a comparison sees of it. -/
theorem isPassive_of_sense? {head sense : Head} {subs : List Term}
    (h : head.sense? subs.length = some sense) (type type' : Option TypeDesc) :
    isPassive (.node head type subs) = isPassive (.node sense type' subs) := by
  rw [isPassive_node, isPassive_node]
  unfold Head.sense? at h
  split at h <;> cases h <;> rfl

/-- Expressions that agree are equally passive, if their parts are. -/
theorem isPassive_of_agreement {head head' : Head} {xs ys : List Term}
    (h : Agreement isPassive (fun x y => x.isPassive = y.isPassive) head xs head' ys)
    (type type' : Option TypeDesc) :
    isPassive (.node head type xs) = isPassive (.node head' type' ys) := by
  cases h with
  | @parts sense _ _ _ _ hsense hsense' hslots =>
      rw [isPassive_of_sense? hsense type none, isPassive_of_sense? hsense' type' none,
        isPassive_node, isPassive_node]
      have hall : xs.all isPassive = ys.all isPassive := by
        clear hsense hsense'
        induction hslots with
        | nil => rfl
        | cons hfirst _ ih => rw [List.all_cons, List.all_cons, hfirst, ih]
      rw [hall]
  | swapped hop hall hfirst hsecond =>
      simp only [List.all_cons, List.all_nil, Bool.and_true, Bool.and_eq_true] at hall
      simp [isPassive_node, hall]

/-- A relation that passes from the parts of expressions to the expressions, parentheses
aside. -/
structure Congruent (related : Term → Term → Prop) : Prop where
  same {a b : Term} (h : a.bare = b.bare) : related a b
  agree {a b : Term}
    (h : Agreement isPassive related a.bare.head a.bare.subs b.bare.head b.bare.subs) :
    related a b

theorem congruent_isPassive : Congruent (fun a b => a.isPassive = b.isPassive) where
  same := by
    intro a b h
    rw [← a.isPassive_bare, ← b.isPassive_bare, h]
  agree := by
    intro a b h
    rw [← a.isPassive_bare, ← b.isPassive_bare]
    cases ha : a.bare with
    | node head type subs =>
        cases hb : b.bare with
        | node head' type' subs' =>
            rw [ha, hb] at h
            exact isPassive_of_agreement h type type'

end Term

namespace Store

variable {store : Store} {id a b c root : NodeId}

/-! ## Inside the parentheses -/

namespace IsBounded

theorem unparenthesized_paren (h : store.IsBounded id) {inner : NodeId}
    (hkind : store.kind id = .paren inner) :
    store.unparenthesized id = store.unparenthesized inner := by
  have hstep : store.unparenthesized id =
      bareStep id (store.node id) (store.fold inner bareStep) := h.fold_eq store.isLocal_bareStep
  rw [hstep]
  unfold bareStep
  unfold kind at hkind
  rw [hkind]
  rfl

theorem unparenthesized_eq_self (h : store.IsBounded id) (hne : (store.kind id).head ≠ .paren) :
    store.unparenthesized id = id := by
  have hstep : store.unparenthesized id =
      bareStep id (store.node id) (store.fold id bareStep) := h.fold_eq store.isLocal_bareStep
  rw [hstep]
  unfold bareStep
  split
  · next inner hkind =>
      rw [kind, hkind] at hne
      exact absurd rfl hne
  · rfl

theorem of_unparenthesized {motive : NodeId → NodeId → Prop} (h : store.IsBounded id)
    (paren : ∀ id inner, store.IsBounded id → store.kind id = .paren inner →
      motive inner (store.unparenthesized inner) → motive id (store.unparenthesized inner))
    (other : ∀ id, store.IsBounded id → (store.kind id).head ≠ .paren → motive id id) :
    motive id (store.unparenthesized id) := by
  induction h using induct with
  | node id h ih =>
      cases hkind : store.kind id with
      | paren inner =>
          rw [h.unparenthesized_paren hkind]
          exact paren id inner h hkind (ih inner (by simp [children, hkind, Kind.children]))
      | _ =>
          have hne : (store.kind id).head ≠ .paren := by simp [hkind, Kind.head]
          rw [h.unparenthesized_eq_self hne]
          exact other id h hne

theorem unparenthesized (h : store.IsBounded id) :
    store.IsBounded (store.unparenthesized id) := by
  refine h.of_unparenthesized (motive := fun _ inside => store.IsBounded inside) ?_ ?_
  · exact fun _ _ _ _ hinside => hinside
  · exact fun _ hself _ => hself

theorem bare_term (h : store.IsBounded id) :
    (store.term id).bare = store.term (store.unparenthesized id) := by
  refine h.of_unparenthesized
    (motive := fun id inside => (store.term id).bare = store.term inside) ?_ ?_
  · intro id inner hself hkind hinside
    have hinner : store.children id = [inner] := by simp [children, hkind, Kind.children]
    rw [hself.term_eq, hkind, hinner, Kind.head, List.map_singleton, Term.bare_paren]
    exact hinside
  · intro id hself hne
    apply Term.bare_of_ne_paren
    rw [hself.term_eq]
    exact hne

/-- A property of an expression follows if it passes to it from the slots of what stands inside
its parentheses. -/
@[elab_as_elim]
theorem bareInduct {motive : ∀ id, store.IsBounded id → Prop}
    (node : ∀ id (h : store.IsBounded id),
      (∀ child (hchild : child ∈ store.children (store.unparenthesized id)),
        motive child (h.unparenthesized.slot hchild)) → motive id h)
    (h : store.IsBounded id) : motive id h := by
  have hslots : ∀ id, store.IsBounded id →
      ∀ child, child ∈ store.children (store.unparenthesized id) →
      ∀ h : store.IsBounded child, motive child h := by
    intro id h
    induction h using induct with
    | node id h ih =>
        cases hkind : store.kind id with
        | paren inner =>
            rw [h.unparenthesized_paren hkind]
            exact ih inner (by simp [children, hkind, Kind.children])
        | _ =>
            rw [h.unparenthesized_eq_self (by simp [hkind, Kind.head])]
            intro child hchild hbounded
            exact node child hbounded (fun sub hsub => ih child hchild sub hsub _)
  exact node id h (fun child hchild => hslots id h child hchild _)

end IsBounded

/-! ## The steps of the comparison -/

theorem allMatch_iff {same : NodeId → NodeId → Bool} {xs ys : List NodeId} :
    allMatch same xs ys = true ↔ List.Forall₂ (fun x y => same x y = true) xs ys := by
  induction xs generalizing ys with
  | nil => cases ys <;> simp [allMatch]
  | cons x xs ih => cases ys <;> simp [allMatch, ih]

theorem swapMatch_iff {same : NodeId → NodeId → Bool} {op op' : InfixOp} {xs ys : List NodeId} :
    store.swapMatch same op op' xs ys = true ↔
      ∃ x y z w, xs = [x, y] ∧ ys = [z, w] ∧ op' = op.swapped ∧ op.isComparison = true ∧
        [x, y, z, w].all store.isPassive = true ∧ same x w = true ∧ same y z = true := by
  unfold swapMatch
  split
  · simp only [Bool.and_eq_true, beq_iff_eq]
    grind
  · next hne =>
      simp only [Bool.false_eq_true, false_iff, not_exists]
      rintro x y z w ⟨rfl, rfl, -⟩
      exact hne x y z w rfl rfl

theorem agreement_of_kindsMatch {same : NodeId → NodeId → Bool} {kind kind' : Kind}
    (h : store.kindsMatch same kind kind' = true) :
    Agreement store.isPassive (fun x y => same x y = true) kind.head kind.children kind'.head
      kind'.children := by
  unfold kindsMatch at h
  split at h
  · rw [eq_of_beq h]
    exact .parts rfl rfl .nil
  · rw [eq_of_beq h]
    exact .parts rfl rfl .nil
  · rw [Bool.and_eq_true] at h
    exact .parts rfl rfl (.cons h.2 (.cons h.1 .nil))
  · rw [Bool.and_eq_true, beq_iff_eq] at h
    obtain ⟨rfl, htarget⟩ := h
    exact .parts rfl rfl (.cons htarget .nil)
  · rw [Bool.and_eq_true, beq_iff_eq] at h
    obtain ⟨rfl, hoperand⟩ := h
    exact .parts rfl rfl (.cons hoperand .nil)
  · rw [Bool.and_eq_true, beq_iff_eq] at h
    obtain ⟨rfl, hoperand⟩ := h
    exact .parts rfl rfl (.cons hoperand .nil)
  · rw [Bool.or_eq_true, Bool.and_eq_true, beq_iff_eq, allMatch_iff, swapMatch_iff] at h
    rcases h with ⟨rfl, hall⟩ | ⟨x, y, z, w, rfl, rfl, rfl, hop, hpassive, hfirst, hsecond⟩
    · exact .parts rfl rfl hall
    · exact .swapped hop hpassive hfirst hsecond
  · simp only [Bool.and_eq_true, beq_iff_eq] at h
    obtain ⟨⟨rfl, htarget⟩, hvalue⟩ := h
    exact .parts rfl rfl (.cons htarget (.cons hvalue .nil))
  · next receiver method args receiver' method' args' =>
      simp only [Bool.and_eq_true, beq_iff_eq, allMatch_iff] at h
      obtain ⟨⟨rfl, hreceiver⟩, hargs⟩ := h
      cases receiver <;> cases receiver' <;>
        simp only [optionMatch, Bool.false_eq_true] at hreceiver
      · exact .parts rfl rfl hargs
      · exact .parts rfl rfl (.cons hreceiver hargs)
  · cases h

/-- Kinds match if a comparison sees the same of them, and if their slots match in order. -/
theorem kindsMatch_of_sense? {same : NodeId → NodeId → Bool} {kind kind' : Kind} {sense : Head}
    (h : kind.head.sense? kind.children.length = some sense)
    (h' : kind'.head.sense? kind'.children.length = some sense)
    (hslots : List.Forall₂ (fun x y => same x y = true) kind.children kind'.children) :
    store.kindsMatch same kind kind' = true := by
  rcases Head.eq_or_names h h' with heq | ⟨text, text', binding, hname, hname'⟩
  · cases kind
    case literal value =>
      cases kind' <;> cases heq
      exact beq_self_eq_true value
    case name text binding =>
      cases kind' <;> cases heq
      cases binding with
      | none => cases h
      | some binding => exact beq_self_eq_true binding
    case qualified qualifier simple =>
      cases kind' <;> cases heq
      rcases hslots with _ | ⟨hqualifier, _ | ⟨hsimple, _⟩⟩
      exact Bool.and_eq_true_iff.mpr ⟨hsimple, hqualifier⟩
    case field target label =>
      cases kind' <;> cases heq
      rcases hslots with _ | ⟨htarget, _⟩
      exact Bool.and_eq_true_iff.mpr ⟨beq_self_eq_true label, htarget⟩
    case prefixed op operand =>
      cases kind' <;> cases heq
      rcases hslots with _ | ⟨hoperand, _⟩
      exact Bool.and_eq_true_iff.mpr ⟨beq_self_eq_true op, hoperand⟩
    case postfixed op operand =>
      cases kind' <;> cases heq
      rcases hslots with _ | ⟨hoperand, _⟩
      exact Bool.and_eq_true_iff.mpr ⟨beq_self_eq_true op, hoperand⟩
    case chain op operands =>
      cases kind' <;> cases heq
      next operands' =>
        have hall : allMatch same operands operands' = true := allMatch_iff.mpr hslots
        simp [kindsMatch, hall]
    case assign op target value =>
      cases kind' <;> cases heq
      rcases hslots with _ | ⟨htarget, _ | ⟨hvalue, _⟩⟩
      simp [kindsMatch, htarget, hvalue]
    case call receiver method args =>
      cases kind' <;> injection heq
      next receiver' method' args' hfilled hmethod =>
        subst hmethod
        cases receiver <;> cases receiver' <;> cases hfilled
        · have hall : allMatch same args args' = true := allMatch_iff.mpr hslots
          simp [kindsMatch, optionMatch, hall]
        · rcases hslots with _ | ⟨hreceiver, hargs⟩
          have hall : allMatch same args args' = true := allMatch_iff.mpr hargs
          simp [kindsMatch, optionMatch, hreceiver, hall]
    all_goals cases h
  · cases kind <;> cases hname
    cases kind' <;> cases hname'
    exact beq_self_eq_true binding

theorem kindsMatch_iff {same : NodeId → NodeId → Bool} {kind kind' : Kind} :
    store.kindsMatch same kind kind' = true ↔
      Agreement store.isPassive (fun x y => same x y = true) kind.head kind.children kind'.head
        kind'.children := by
  refine ⟨agreement_of_kindsMatch, ?_⟩
  intro h
  generalize hhead : kind.head = head at h
  generalize hchildren : kind.children = xs at h
  generalize hhead' : kind'.head = head' at h
  generalize hchildren' : kind'.children = ys at h
  cases h with
  | parts hsense hsense' hslots =>
      subst hhead hchildren hhead' hchildren'
      exact kindsMatch_of_sense? hsense hsense' hslots
  | swapped hop hpassive hfirst hsecond =>
      cases kind <;> cases hhead
      cases kind' <;> cases hhead'
      cases hchildren
      cases hchildren'
      exact Bool.or_eq_true_iff.mpr
        (.inr (swapMatch_iff.mpr ⟨_, _, _, _, rfl, rfl, rfl, hop, hpassive, hfirst, hsecond⟩))

def alikeStep (store : Store) (here : NodeId) (found : Node) (below : NodeId → NodeId → Bool)
    (other : NodeId) : Bool :=
  match found.kind with
  | .paren inner => below inner other
  | kind =>
      let there := store.unparenthesized other
      here == there || store.kindsMatch below kind (store.kind there)

theorem alikeStep_of_ne_paren {here : NodeId} {below : NodeId → NodeId → Bool}
    {other : NodeId} (h : (store.kind here).head ≠ .paren) :
    store.alikeStep here (store.node here) below other =
      (here == store.unparenthesized other ||
        store.kindsMatch below (store.kind here) (store.kind (store.unparenthesized other))) := by
  unfold alikeStep
  split
  · next inner hkind =>
      rw [Store.kind, hkind] at h
      exact absurd rfl h
  · rfl

theorem alikeStep_paren {here inner : NodeId} {below : NodeId → NodeId → Bool} {other : NodeId}
    (h : store.kind here = .paren inner) :
    store.alikeStep here (store.node here) below other = below inner other := by
  unfold alikeStep
  unfold kind at h
  rw [h]

theorem isLocal_alikeStep (store : Store) : store.IsLocal store.alikeStep := by
  intro here f g hsame
  funext other
  by_cases hparen : (store.kind here).head = .paren
  · cases hkind : store.kind here <;> rw [hkind] at hparen <;> cases hparen
    next inner =>
      rw [alikeStep_paren hkind, alikeStep_paren hkind,
        hsame inner (by simp [children, hkind, Kind.children])]
  · rw [alikeStep_of_ne_paren hparen, alikeStep_of_ne_paren hparen]
    congr 1
    rw [Bool.eq_iff_iff, kindsMatch_iff, kindsMatch_iff]
    constructor
    · intro h
      exact h.imp (fun x y hx _ hxy => (congrFun (hsame x hx) y) ▸ hxy)
    · intro h
      exact h.imp (fun x y hx _ hxy => (congrFun (hsame x hx) y) ▸ hxy)

/-- Inside their parentheses, expressions that are alike are the same node, or they agree and
their slots are alike. -/
theorem IsBounded.alike_iff (h : store.IsBounded a) :
    store.alike a b = true ↔ store.unparenthesized a = store.unparenthesized b ∨
      Agreement store.isPassive (fun x y => store.alike x y = true)
        (store.kind (store.unparenthesized a)).head (store.children (store.unparenthesized a))
        (store.kind (store.unparenthesized b)).head
        (store.children (store.unparenthesized b)) := by
  have hstep : ∀ a, store.IsBounded a →
      store.alike a b = store.alikeStep a (store.node a) store.alike b :=
    fun a h => congrFun (h.fold_eq store.isLocal_alikeStep) b
  refine h.of_unparenthesized (motive := fun a inside => store.alike a b = true ↔
    inside = store.unparenthesized b ∨ Agreement store.isPassive
      (fun x y => store.alike x y = true) (store.kind inside).head (store.children inside)
      (store.kind (store.unparenthesized b)).head (store.children (store.unparenthesized b))) ?_ ?_
  · intro id inner hself hkind hinside
    rw [hstep id hself, alikeStep_paren hkind]
    exact hinside
  · intro id hself hne
    rw [hstep id hself, alikeStep_of_ne_paren hne, Bool.or_eq_true, beq_iff_eq, kindsMatch_iff]
    rfl

/-- Whatever passes from the parts of expressions to the expressions holds of the terms of
expressions that are alike. -/
theorem IsBounded.of_alike {related : Term → Term → Prop} (hrelated : Term.Congruent related)
    (ha : store.IsBounded a) (hb : store.IsBounded b) (h : store.alike a b = true) :
    related (store.term a) (store.term b) := by
  induction ha using IsBounded.bareInduct generalizing b with
  | node a ha ih =>
      rcases ha.alike_iff.mp h with hsame | hagree
      · apply hrelated.same
        rw [ha.bare_term, hb.bare_term, hsame]
      · apply hrelated.agree
        rw [ha.bare_term, hb.bare_term, ha.unparenthesized.term_eq, hb.unparenthesized.term_eq]
        refine hagree.map ?_ ?_
        · intro x hx hpassive
          have hbounded : store.IsBounded x := by
            rcases List.mem_append.mp hx with hx | hx
            · exact ha.unparenthesized.slot hx
            · exact hb.unparenthesized.slot hx
          rwa [← hbounded.isPassive_term]
        · intro x y hx hy hxy
          exact ih x hx (hb.unparenthesized.slot hy) hxy

/-! ## A partial equivalence -/

theorem IsBounded.isPassive_eq_of_alike (ha : store.IsBounded a) (hb : store.IsBounded b)
    (h : store.alike a b = true) : store.isPassive a = store.isPassive b := by
  rw [ha.isPassive_term, hb.isPassive_term]
  exact ha.of_alike Term.congruent_isPassive hb h

theorem IsBounded.alike_symm (ha : store.IsBounded a) (hb : store.IsBounded b)
    (h : store.alike a b = true) : store.alike b a = true := by
  induction ha using IsBounded.bareInduct generalizing b with
  | node a ha ih =>
      rw [hb.alike_iff]
      rcases ha.alike_iff.mp h with hsame | hagree
      · exact .inl hsame.symm
      · refine .inr (hagree.symm ?_)
        intro x y hx hy hxy
        exact ih x hx (hb.unparenthesized.slot hy) hxy

theorem IsBounded.alike_trans (ha : store.IsBounded a) (hb : store.IsBounded b)
    (hc : store.IsBounded c) (hab : store.alike a b = true) (hbc : store.alike b c = true) :
    store.alike a c = true := by
  induction ha using IsBounded.bareInduct generalizing b c with
  | node a ha ih =>
      rw [ha.alike_iff]
      rcases ha.alike_iff.mp hab with hsame | hagree
      · rw [hsame, ← hb.alike_iff]
        exact hbc
      · rcases hb.alike_iff.mp hbc with hsame' | hagree'
        · rw [← hsame']
          exact .inr hagree
        · refine .inr (hagree.trans hagree' ?_ ?_ ?_)
          · intro x y hx hy hxy
            exact (ha.unparenthesized.slot hx).isPassive_eq_of_alike
              (hb.unparenthesized.slot hy) hxy
          · intro y z hy hz hyz
            exact (hb.unparenthesized.slot hy).isPassive_eq_of_alike
              (hc.unparenthesized.slot hz) hyz
          · intro x y z hx hy hz hxy hyz
            exact ih x hx (hb.unparenthesized.slot hy) (hc.unparenthesized.slot hz) hxy hyz

/-- On the nodes of a valid tree, being alike is symmetric and transitive, and expressions that
are alike are equally passive. -/
theorem alike_partial_equivalence (hroot : store.ValidAt root) (ha : a ∈ store.preorder root)
    (hb : b ∈ store.preorder root) (hc : c ∈ store.preorder root) :
    (store.alike a b = true → store.alike b a = true) ∧
      (store.alike a b = true → store.alike b c = true → store.alike a c = true) ∧
      (store.alike a b = true → store.isPassive a = store.isPassive b) := by
  have hbounded := hroot.isBounded
  have ha' := hbounded.of_mem_preorder ha
  have hb' := hbounded.of_mem_preorder hb
  exact ⟨ha'.alike_symm hb', ha'.alike_trans hb' (hbounded.of_mem_preorder hc),
    ha'.isPassive_eq_of_alike hb'⟩

/-- The unit `f((x < -y), -(y) > x, z < -y);`, where `z` is another name of `x`. -/
def turnedComparisons : Store where
  nodes := #[
    ⟨.name "x" (some 0), none, some 3, false⟩,
    ⟨.name "y" (some 1), none, some 2, false⟩,
    ⟨.prefixed .minus 1, none, some 3, false⟩,
    ⟨.chain .less [0, 2], none, some 4, false⟩,
    ⟨.paren 3, none, some 14, false⟩,
    ⟨.name "y" (some 1), none, some 6, false⟩,
    ⟨.paren 5, none, some 7, false⟩,
    ⟨.prefixed .minus 6, none, some 9, false⟩,
    ⟨.name "x" (some 0), none, some 9, false⟩,
    ⟨.chain .greater [7, 8], none, some 14, false⟩,
    ⟨.name "z" (some 0), none, some 13, false⟩,
    ⟨.name "y" (some 1), none, some 12, false⟩,
    ⟨.prefixed .minus 11, none, some 13, false⟩,
    ⟨.chain .less [10, 12], none, some 14, false⟩,
    ⟨.call none "f" [4, 9, 13], none, some 15, false⟩,
    ⟨.exprStmt 14, none, some 16, false⟩,
    ⟨.unit [15], none, none, false⟩]
  types := ⟨#[]⟩

/-- Two comparisons that are both turned round are alike in order. -/
theorem alike_partial_equivalence_turned :
    turnedComparisons.alike 4 9 = true ∧ turnedComparisons.alike 9 13 = true ∧
      turnedComparisons.alike 9 4 = true ∧ turnedComparisons.alike 4 13 = true ∧
      turnedComparisons.isPassive 4 = turnedComparisons.isPassive 9 := by
  have hvalid : turnedComparisons.ValidAt 16 := by decide +kernel
  have hfirst : turnedComparisons.alike 4 9 = true := by decide +kernel
  have hsecond : turnedComparisons.alike 9 13 = true := by decide +kernel
  obtain ⟨hsymm, htrans, hpassive⟩ := @alike_partial_equivalence turnedComparisons 4 9 13 16 hvalid
    (by decide +kernel) (by decide +kernel) (by decide +kernel)
  exact ⟨hfirst, hsecond, hsymm hfirst, htrans hfirst hsecond, hpassive hfirst⟩

end Store

/-! ## Passive expressions -/

namespace Term

def Alike (a b : Term) : Prop :=
  ∀ related, Congruent related → related a b

/-- What a relation between passive expressions and expressions has to do in order to
hold wherever `Store.alike` does.  Dotted names and fields are related to everything. -/
structure Likeness (related : Term → Term → Prop) : Prop where
  same {a b : Term} (h : b.bare = a) : related a b
  paren {type : Option TypeDesc} {inner b : Term} (h : related inner b) :
    related (.node .paren type [inner]) b
  literal {value : Literal} {type : Option TypeDesc} {b : Term}
    (h : b.bare.head = .literal value) : related (.node (.literal value) type []) b
  name {text text' : String} {binding : BindingId} {type : Option TypeDesc} {b : Term}
    (h : b.bare.head = .name text' (some binding)) :
    related (.node (.name text (some binding)) type []) b
  qualified {type : Option TypeDesc} {subs : List Term} {b : Term} :
    related (.node .qualified type subs) b
  field {label : String} {type : Option TypeDesc} {subs : List Term} {b : Term} :
    related (.node (.field label) type subs) b
  prefixed {op : PrefixOp} {type type' : Option TypeDesc} {x y b : Term}
    (h : b.bare = .node (.prefixed op) type' [y]) (hsub : related x y) :
    related (.node (.prefixed op) type [x]) b
  chain {op : InfixOp} {type type' : Option TypeDesc} {xs ys : List Term} {b : Term}
    (h : b.bare = .node (.chain op) type' ys) (hsub : List.Forall₂ related xs ys) :
    related (.node (.chain op) type xs) b
  swap {op : InfixOp} {type type' : Option TypeDesc} {x y c d b : Term}
    (hop : op.isComparison = true) (h : b.bare = .node (.chain op.swapped) type' [c, d])
    (hpassive : [x, y, c, d].all Term.isPassive = true) (hfirst : related x d)
    (hsecond : related y c) : related (.node (.chain op) type [x, y]) b

namespace Likeness

variable {related : Term → Term → Prop} {a b : Term}

theorem of_bare (h : Likeness related) (hbare : related a.bare b) : related a b := by
  induction a with
  | node head type subs ih =>
      unfold bare at hbare
      split at hbare
      · next type' inner heq =>
          cases heq
          exact h.paren (ih inner (List.mem_singleton_self inner) hbare)
      · exact hbare

/-- Passive expressions that agree are related if their parts are. -/
theorem of_agreement (h : Likeness related) {head head' : Head} {xs ys : List Term}
    {type type' : Option TypeDesc} (hb : b.bare = .node head' type' ys)
    (hpassive : isPassive (.node head type xs) = true)
    (hagree : Agreement isPassive (fun x y => x.isPassive = true → related x y) head xs head' ys) :
    related (.node head type xs) b := by
  rw [isPassive_node] at hpassive
  cases hagree with
  | swapped hop hall hfirst hsecond =>
      simp only [List.all_cons, List.all_nil, Bool.and_true, Bool.and_eq_true] at hall
      exact h.swap hop hb (by simp [hall]) (hfirst hall.1) (hsecond hall.2.1)
  | parts hsense hsense' hslots =>
      rcases Head.eq_or_names hsense hsense' with rfl | ⟨text, text', binding, rfl, rfl⟩
      · cases head
        case literal value =>
          rcases hslots with _ | _
          · exact h.literal (by rw [hb]; rfl)
          · cases hsense
        case name text binding =>
          rcases hslots with _ | _
          · cases binding with
            | none => cases hsense
            | some binding => exact h.name (by rw [hb]; rfl)
          · cases binding <;> cases hsense
        case qualified => exact h.qualified
        case field => exact h.field
        case prefixed op =>
          rcases hslots with _ | ⟨hoperand, _ | _⟩
          · cases hsense
          · simp only [List.all_cons, List.all_nil, Bool.and_true, Bool.and_eq_true] at hpassive
            exact h.prefixed hb (hoperand hpassive.2)
          · cases hsense
        case chain op =>
          refine h.chain hb ((Agreement.forall₂_mem hslots).imp ?_)
          intro x y hxy
          exact hxy.2.2 (List.all_eq_true.mp hpassive x hxy.1)
        case paren => cases hsense
        all_goals cases hpassive
      · rcases hslots with _ | _
        · exact h.name (by rw [hb]; rfl)
        · cases hsense

theorem congruent (h : Likeness related) :
    Congruent (fun a b => a.isPassive = true → related a b) where
  same := by
    intro a b hsame _
    exact h.of_bare (h.same hsame.symm)
  agree := by
    intro a b hagree hpassive
    apply h.of_bare
    rw [← isPassive_bare] at hpassive
    cases ha : a.bare with
    | node head type xs =>
        cases hb : b.bare with
        | node head' type' ys =>
            rw [ha, hb] at hagree
            rw [ha] at hpassive
            exact h.of_agreement hb hpassive hagree

end Likeness

end Term

theorem Tree.Legible.alike_term {store : Store} {a b : Tree} (ha : a.Legible store)
    (hb : b.Legible store) (h : store.alike a.id b.id = true) : a.term.Alike b.term := by
  intro related hrelated
  rw [← ha.term_eq, ← hb.term_eq]
  exact ha.isBounded.of_alike hrelated hb.isBounded h

end CodeTidy
