import CodeTidy.Proofs.Invariant

/-!
# Parentheses stay sufficient

A tree is well grouped if its text reads as the tree is built: whatever stands in a slot
that demands a strength binds tight enough (`Term.isGrouped`).

Rules put parentheses where they build an operand, with one exception: the test of a
switch label compares the label as it stands, and for a constant of an enumeration also the
subject.  Labels that bind tighter than `==` and stay so, and subjects that bind at least
as tight before a constant (`Term.hasTightLabels`), need no parentheses there.
-/

namespace CodeTidy

/-! ## Groups in a store -/

def Kind.isFirstOperand : Kind → NodeId → Bool
  | chain _ operands, child => operands.head? == some child
  | _, _ => false

namespace Store

def isFirstOperand (store : Store) (id : NodeId) : Bool :=
  (store.parent id).any (fun owner => (store.kind owner).isFirstOperand id)

/-- Whether a node needs no parentheses in its slot: it binds tighter than the slot demands,
or equally, where the slot is that of a unary operator or tighter, or of a first operand. -/
def isGrouped (store : Store) (id : NodeId) : Bool :=
  (store.slotStrength? id).all fun outer =>
    let inner := (store.kind id).strength?.getD Strength.primary
    decide (outer < inner) ||
      (inner == outer && (decide (Strength.unary ≤ outer) || store.isFirstOperand id))

end Store

/-- Every expression is grouped in the text as it is in the tree. -/
def Source.IsGrouped (source : Source) : Prop :=
  ∀ id, id ∈ source.store.preorder source.root → source.store.isGrouped id = true

instance (source : Source) : Decidable source.IsGrouped :=
  inferInstanceAs (Decidable (∀ id, id ∈ _ → _))

/-! ## Groups in a term -/

namespace Head

def isChain : Head → Bool
  | chain _ => true
  | _ => false

def groups (holder : Head) (position : Nat) (head : Head) : Bool :=
  (holder.demand? position).all fun outer =>
    head.meets outer || (outer == head.strength && (position == 0 && holder.isChain))

theorem groups_of_suits {holder head : Head} {position : Nat}
    (h : holder.suits position head = true) : holder.groups position head = true := by
  unfold suits at h
  unfold groups
  cases hdemand : holder.demand? position with
  | none => rfl
  | some outer =>
      rw [hdemand] at h
      simp only [Option.all_some] at h ⊢
      rw [h, Bool.true_or]

theorem groups_of_demand?_none {holder head : Head} {position : Nat}
    (h : holder.demand? position = none) : holder.groups position head = true := by
  rw [groups, h]
  rfl

theorem demand?_succ (holder : Head) (position : Nat) :
    holder.demand? (position + 1) = holder.demand? 1 := by
  unfold demand?
  split <;> simp_all

theorem groups_succ (holder head : Head) (position : Nat) :
    holder.groups (position + 1) head = holder.groups 1 head := by
  simp [groups, demand?_succ]

theorem demand?_of_canDrop {holder : Head} {position : Nat}
    (h : holder.canDrop position = true) (other : Nat) : holder.demand? other = none := by
  cases holder <;> first | rfl | cases h

end Head

namespace Term

def kernel : Term → Term
  | node .paren _ [inner] => kernel inner
  | node (.prefixed .not) _ [inner] => kernel inner
  | term => term

def isEqualityTest (term : Term) : Bool :=
  match term.kernel.head with
  | .chain op => op.strength == Strength.equality
  | _ => false

/-- Whether the test of a label needs no parentheses that it does not get.  No equality
test stands behind negations, which rules take away. -/
def isTight (subject label : Term) : Bool :=
  decide (Strength.equality < label.strength) && !label.isEqualityTest &&
    (!label.isConstant || decide (Strength.equality ≤ subject.strength))

/-- Whether the labels of a switch can be compared with its subject as they stand. -/
def hasTightLabels : Term → Bool
  | node .switchStmt _ (subject :: body) =>
      body.all (fun item => item.head != .caseLabel || item.subs.all (isTight subject))
  | _ => true

def isGrouped (term : Term) : Bool :=
  match term.subs with
  | [] => true
  | first :: rest =>
      term.head.groups 0 first.head && rest.all (fun sub => term.head.groups 1 sub.head)

def isReadable (term : Term) : Bool :=
  term.isGrouped && term.hasTightLabels

variable {old a b term : Term} {fresh : Option Term} {terms : List Term} {strict : Bool}

theorem isGrouped_of_readable (h : term.all isReadable = true) : term.isGrouped = true :=
  (Bool.and_eq_true_iff.mp (holds_of_all h)).1

theorem isTight_iff {subject label : Term} : isTight subject label = true ↔
    Strength.equality < label.strength ∧ label.isEqualityTest = false ∧
      (label.isConstant = true → Strength.equality ≤ subject.strength) := by
  simp only [isTight, Bool.and_eq_true, decide_eq_true_eq, Bool.not_eq_true', Bool.or_eq_true,
    and_assoc]
  cases label.isConstant <;> simp

theorem hasTightLabels_iff {head : Head} {type : Option TypeDesc} {subs : List Term} :
    (node head type subs).hasTightLabels = true ↔
      ∀ subject body, head = .switchStmt → subs = subject :: body →
        ∀ item, item ∈ body → item.head = .caseLabel →
          ∀ label, label ∈ item.subs → isTight subject label = true := by
  constructor
  · rintro h subject body rfl rfl item hitem hhead label hlabel
    simp only [hasTightLabels, List.all_eq_true, Bool.or_eq_true, bne_iff_ne] at h
    exact (h item hitem).resolve_left (fun hne => hne hhead) label hlabel
  · intro h
    unfold hasTightLabels
    split
    · next subject body heq =>
        cases heq
        simp only [List.all_eq_true, Bool.or_eq_true, bne_iff_ne]
        intro item hitem
        by_cases hhead : item.head = .caseLabel
        · exact .inr (fun label hlabel => h subject body rfl rfl item hitem hhead label hlabel)
        · exact .inl hhead
    · rfl

theorem isGrouped_iff {head : Head} {type : Option TypeDesc} {subs : List Term} :
    (node head type subs).isGrouped = true ↔
      ∀ before sub after, subs = before ++ sub :: after →
        head.groups before.length sub.head = true := by
  cases subs with
  | nil => simp [isGrouped]
  | cons first rest =>
      simp only [isGrouped, subs_node, head_node, Bool.and_eq_true, List.all_eq_true]
      constructor
      · rintro ⟨hfirst, hrest⟩ before sub after hsplit
        cases before with
        | nil =>
            cases hsplit
            exact hfirst
        | cons other before =>
            cases hsplit
            rw [List.length_cons, Head.groups_succ]
            exact hrest sub (by simp)
      · intro h
        refine ⟨h [] first rest rfl, ?_⟩
        intro sub hsub
        obtain ⟨before, after, rfl⟩ := List.append_of_mem hsub
        rw [← Head.groups_succ _ _ before.length]
        exact h (first :: before) sub after rfl

/-- The content of one slot may change to what is read as one there. -/
theorem isGrouped_slots {head : Head} {type : Option TypeDesc} {before after : List Term}
    {c d : Term} (h : (node head type (before ++ c :: after)).isGrouped = true)
    (hslot : head.groups before.length c.head = true →
      head.groups before.length d.head = true) :
    (node head type (before ++ d :: after)).isGrouped = true := by
  have hd := hslot (isGrouped_iff.mp h before c after rfl)
  cases before with
  | nil =>
      simp only [isGrouped, List.nil_append, subs_node, head_node, Bool.and_eq_true] at h ⊢
      exact ⟨hd, h.2⟩
  | cons first before =>
      rw [List.length_cons, Head.groups_succ] at hd
      simp only [isGrouped, List.cons_append, subs_node, head_node, all_slots,
        Bool.and_eq_true] at h ⊢
      exact ⟨h.1, h.2.1, hd, h.2.2.2⟩

theorem isGrouped_of_demand?_none {head : Head} {type : Option TypeDesc} {subs : List Term}
    (h : ∀ position, head.demand? position = none) :
    (node head type subs).isGrouped = true :=
  isGrouped_iff.mpr fun _ _ _ _ => Head.groups_of_demand?_none (h _)

theorem readable_node {head : Head} {type : Option TypeDesc} {subs : List Term}
    (hhead : head ≠ .switchStmt) (hself : (node head type subs).isGrouped = true)
    (hsubs : ∀ sub, sub ∈ subs → sub.all isReadable = true) :
    (node head type subs).all isReadable = true := by
  have hlabels : (node head type subs).hasTightLabels = true :=
    hasTightLabels_iff.mpr fun _ _ hswitch => absurd hswitch hhead
  rw [all_node, isReadable, hself, hlabels, List.all_eq_true.mpr hsubs]
  rfl

/-- A node whose slots demand nothing, or one strength that all of its slots meet. -/
theorem readable_of_suits {head : Head} {type : Option TypeDesc} {subs : List Term}
    (hhead : head ≠ .switchStmt)
    (hself : ∀ position sub, sub ∈ subs → head.suits position sub.head = true)
    (hsubs : ∀ sub, sub ∈ subs → sub.all isReadable = true) :
    (node head type subs).all isReadable = true := by
  refine readable_node hhead (isGrouped_iff.mpr ?_) hsubs
  rintro before sub after rfl
  exact Head.groups_of_suits (hself _ sub (by simp))

/-! ## Constructed terms -/

theorem readable_paren (h : term.all isReadable = true) : term.paren.all isReadable = true :=
  readable_node (by simp) (isGrouped_of_demand?_none fun _ => rfl) (by simpa using h)

theorem readable_wrap (h : term.all isReadable = true) (outer : Nat) :
    (term.wrap outer).all isReadable = true := by
  unfold wrap
  split
  · exact readable_paren h
  · exact h

theorem readable_fit (h : term.all isReadable = true) (outer : Option Nat) :
    (term.fit outer).all isReadable = true := by
  cases outer with
  | none => exact h
  | some outer => exact readable_wrap h outer

theorem readable_leaf (head : Head) (type : Option TypeDesc) :
    (node head type []).all isReadable = true := by
  have hlabels : (node head type []).hasTightLabels = true := hasTightLabels_iff.mpr (by simp)
  rw [all_node, isReadable, hlabels]
  rfl

theorem readable_not (h : term.all isReadable = true) : term.not.all isReadable = true := by
  refine readable_of_suits (by simp) ?_ (by simpa using readable_wrap h Strength.unary)
  intro position sub hsub
  obtain rfl := List.mem_singleton.mp hsub
  simpa [Head.suits, Head.demand?] using meets_wrap (by decide) term

theorem InfixOp.strength_le_primary (op : InfixOp) : op.strength ≤ Strength.primary :=
  Nat.le_trans (Nat.le_of_lt op.strength_lt_unary) (by decide)

theorem readable_chain {op : InfixOp}
    (hmeets : ∀ term, term ∈ terms → term.head.meets op.strength = true)
    (h : ∀ term, term ∈ terms → term.all isReadable = true) :
    (chain op terms).all isReadable = true :=
  readable_of_suits (by simp)
    (fun _ sub hsub => by simpa [Head.suits, Head.demand?] using hmeets sub hsub) h

theorem readable_join {op : InfixOp}
    (h : ∀ term, term ∈ terms → term.all isReadable = true) :
    (join op terms).all isReadable = true := by
  unfold join
  split
  · next operand => exact h operand (List.mem_singleton_self _)
  · refine readable_chain ?_ ?_
    · intro term hterm
      obtain ⟨inner, -, rfl⟩ := List.mem_map.mp hterm
      exact meets_wrap (InfixOp.strength_le_primary op) inner
    · intro term hterm
      obtain ⟨inner, hinner, rfl⟩ := List.mem_map.mp hterm
      exact readable_wrap (h inner hinner) _

theorem readable_call {method : String} (h : term.all isReadable = true)
    (hargs : ∀ arg, arg ∈ terms → arg.all isReadable = true) :
    (term.call method terms).all isReadable = true := by
  refine readable_node (by simp) (isGrouped_iff.mpr ?_) ?_
  · intro before sub after hsplit
    cases before with
    | nil =>
        cases hsplit
        exact Head.groups_of_suits
          (by simpa [Head.suits, Head.demand?] using meets_wrap (Nat.le_refl _) term)
    | cons first before => exact Head.groups_of_demand?_none rfl
  · intro sub hsub
    rcases List.mem_cons.mp hsub with rfl | hsub
    · exact readable_wrap h _
    · exact hargs sub hsub

theorem readable_qualified {qualifier simple : Term} (hqualifier : qualifier.all isReadable = true)
    (hsimple : simple.all isReadable = true) :
    (qualified qualifier simple).all isReadable = true :=
  readable_node (by simp) (isGrouped_of_demand?_none fun _ => rfl) (by simp [hqualifier, hsimple])

theorem readable_typeName (dotted : String) : (typeName dotted).all isReadable = true := by
  unfold typeName
  have hstep : ∀ (segments : List String) (start : Term), start.all isReadable = true →
      (segments.foldl (fun qualifier segment => qualified qualifier (bareName segment)) start).all
        isReadable = true := by
    intro segments
    induction segments with
    | nil => exact fun _ hstart => hstart
    | cons segment segments ih =>
        exact fun start hstart => ih _ (readable_qualified hstart (readable_leaf ..))
  exact hstep _ _ (readable_leaf ..)

theorem InfixOp.strength_inverse {op inverse : InfixOp} (h : op.inverse? = some inverse) :
    inverse.strength = op.strength := by
  cases op <;> cases h <;> rfl

/-- The operands of a chain stay grouped under an operator that binds equally. -/
theorem readable_chain_of_eq {op other : InfixOp} {type : Option TypeDesc}
    (h : (node (.chain op) type terms).all isReadable = true)
    (heq : other.strength = op.strength) : (chain other terms).all isReadable = true := by
  refine readable_node (by simp) (isGrouped_iff.mpr ?_) (fun sub hsub => all_sub h hsub)
  intro before sub after hsplit
  have hgroups := isGrouped_iff.mp (isGrouped_of_readable h) before sub after hsplit
  simpa [Head.groups, Head.demand?, Head.isChain, heq] using hgroups

theorem readable_negate (h : term.all isReadable = true) (invert : Bool) :
    (term.negate invert).all isReadable = true := by
  have hbare := all_bare h
  rcases negate_cases invert term with ⟨type, operand, heq, hnegate⟩ | ⟨value, hnegate⟩ |
    ⟨op, inverse, type, left, right, heq, hop, hnegate⟩ | hnegate <;> rw [hnegate]
  · rw [heq] at hbare
    exact all_sub hbare (List.mem_singleton_self _)
  · exact readable_leaf ..
  · rw [heq] at hbare
    exact readable_chain_of_eq hbare (InfixOp.strength_inverse hop)
  · exact readable_not h

theorem readable_push (h : term.all isReadable = true) : term.push.all isReadable = true := by
  induction term with
  | node head type subs ih =>
      rcases push_form (.node head type subs) with
        ⟨_, inner, ⟨⟩⟩ | ⟨op, dual, _, _, ⟨⟩, hdual⟩ | ⟨-, hnegate⟩
      · rw [push_paren]
        exact ih inner (List.mem_singleton_self _) (all_sub h (List.mem_singleton_self _))
      · rw [push_of_dual type subs hdual]
        refine readable_paren (readable_join ?_)
        intro sub hsub
        obtain ⟨inner, hinner, rfl⟩ := List.mem_map.mp hsub
        exact ih inner hinner (all_sub h hinner)
      · rw [hnegate]
        exact readable_negate h _

/-! ## Equality tests behind negations -/

theorem kernel_paren (type : Option TypeDesc) (inner : Term) :
    (node .paren type [inner]).kernel = inner.kernel := by
  rw [kernel]

theorem kernel_prefixed (type : Option TypeDesc) (inner : Term) :
    (node (.prefixed .not) type [inner]).kernel = inner.kernel := by
  rw [kernel]

theorem kernel_of_ne (hparen : term.head ≠ .paren) (hnot : term.head ≠ .prefixed .not) :
    term.kernel = term := by
  unfold kernel
  split
  · exact absurd rfl hparen
  · exact absurd rfl hnot
  · rfl

theorem kernel_wrap (outer : Nat) (term : Term) : (term.wrap outer).kernel = term.kernel := by
  unfold wrap
  split
  · exact kernel_paren ..
  · rfl

theorem kernel_fit (outer : Option Nat) (term : Term) : (term.fit outer).kernel = term.kernel := by
  cases outer with
  | none => rfl
  | some outer => exact kernel_wrap outer term

theorem kernel_not (term : Term) : term.not.kernel = term.kernel :=
  (kernel_prefixed ..).trans (kernel_wrap ..)

theorem isEqualityTest_congr (h : a.kernel = b.kernel) :
    a.isEqualityTest = b.isEqualityTest := by
  rw [isEqualityTest, isEqualityTest, h]

theorem isEqualityTest_chain (op : InfixOp) (type : Option TypeDesc) (subs : List Term) :
    (node (.chain op) type subs).isEqualityTest = (op.strength == Strength.equality) := by
  rw [isEqualityTest, kernel_of_ne (by simp) (by simp)]
  rfl

theorem isEqualityTest_of_strength (h : term.strength = Strength.equality) :
    term.isEqualityTest = true := by
  cases term with
  | node head type subs =>
      cases head
      case chain op =>
        rw [isEqualityTest_chain]
        exact beq_iff_eq.mpr h
      all_goals cases h

/-- The negation of an expression is an equality test only if the expression is. -/
theorem isEqualityTest_negate {invert : Bool} (hbare : term.bare = term)
    (h : (term.negate invert).isEqualityTest = true) : term.isEqualityTest = true := by
  rcases negate_cases invert term with ⟨type, operand, heq, hnegate⟩ | ⟨value, hnegate⟩ |
    ⟨op, inverse, type, left, right, heq, hop, hnegate⟩ | hnegate <;> rw [hnegate] at h
  · rw [hbare] at heq
    rwa [heq, isEqualityTest_congr (kernel_prefixed ..)]
  · cases h
  · rw [hbare] at heq
    rw [chain, isEqualityTest_chain, InfixOp.strength_inverse hop] at h
    rwa [heq, isEqualityTest_chain]
  · rwa [isEqualityTest_congr (kernel_not term)] at h

theorem isEqualityTest_push (hexpr : term.IsExpr strict)
    (h : term.push.isEqualityTest = true) : term.isEqualityTest = true := by
  induction term with
  | node head type subs ih =>
      rcases push_form (.node head type subs) with
        ⟨_, inner, ⟨⟩⟩ | ⟨op, dual, _, _, ⟨⟩, hdual⟩ | ⟨hbare, hnegate⟩
      · rw [push_paren] at h
        rw [isEqualityTest_congr (kernel_paren ..)]
        exact ih inner (List.mem_singleton_self _) (hexpr.of_mem (List.mem_singleton_self _)) h
      · -- a dual chain has two operands, so the parentheses hold no single operand
        rw [push_of_dual type subs hdual, paren, isEqualityTest_congr (kernel_paren ..)] at h
        have harity := holds_of_all hexpr.sound
        rcases subs with _ | ⟨first, _ | ⟨second, rest⟩⟩
        · simp [isSound, isOrderly, hasArity] at harity
        · simp [isSound, isOrderly, hasArity] at harity
        · have hjoin : join dual ((first :: second :: rest).map push) =
              chain dual (((first :: second :: rest).map push).map (wrap dual.strength)) := rfl
          rw [hjoin, chain, isEqualityTest_chain] at h
          cases op <;> cases hdual <;> cases h
      · rw [hnegate] at h
        exact isEqualityTest_negate hbare h

/-- An operand of a negation binds at least as tight as the negation. -/
theorem unary_le_strength {type : Option TypeDesc} {operand : Term}
    (h : (node (.prefixed .not) type [operand]).isGrouped = true) :
    Strength.unary ≤ operand.strength := by
  have hgroups := isGrouped_iff.mp h [] operand [] rfl
  have hstrength : operand.head.strength = operand.strength := rfl
  simp only [Head.groups, Head.demand?, Option.all_some, Head.meets, hstrength, Bool.or_eq_true,
    Bool.and_eq_true, decide_eq_true_eq, beq_iff_eq] at hgroups
  omega

/-- The negation of a grouped expression binds at least as tight as `==`. -/
theorem equality_le_strength_push (h : term.all isReadable = true) :
    Strength.equality ≤ term.push.strength := by
  induction term with
  | node head type subs ih =>
      rcases push_form (.node head type subs) with
        ⟨_, inner, ⟨⟩⟩ | ⟨op, dual, _, _, ⟨⟩, hdual⟩ | ⟨hbare, hpush⟩
      · rw [push_paren]
        exact ih inner (List.mem_singleton_self _) (all_sub h (List.mem_singleton_self _))
      · rw [push_of_dual type subs hdual]
        show Strength.equality ≤ Strength.primary
        decide
      · rw [hpush]
        rcases negate_cases _ (node head type subs) with ⟨type', operand, heq, hnegate⟩ |
          ⟨value, hnegate⟩ | ⟨op, inverse, type', left, right, heq, hop, hnegate⟩ | hnegate <;>
          rw [hnegate]
        · rw [← hbare, heq] at h
          exact Nat.le_trans (by decide) (unary_le_strength (isGrouped_of_readable h))
        · show Strength.equality ≤ Strength.primary
          decide
        · show Strength.equality ≤ inverse.strength
          cases op <;> cases hop <;> decide
        · show Strength.equality ≤ Strength.unary
          decide

end Term

/-! ## Rules -/

variable {old a b : Term} {fresh : Option Term} {strict : Bool}

theorem StringConversion.Rewrite.readable (h : StringConversion.Rewrite old fresh)
    (hall : old.all Term.isReadable = true) {new : Term} (hnew : new ∈ fresh) :
    new.all Term.isReadable = true := by
  cases h <;> cases hnew
  all_goals
    refine Term.readable_call (Term.readable_leaf ..) ?_
    intro arg harg
    obtain rfl := List.mem_singleton.mp harg
    exact Term.all_sub hall (by simp)

theorem EmptinessTest.Rewrite.readable (h : EmptinessTest.Rewrite old fresh)
    (hall : old.all Term.isReadable = true) {new : Term} (hnew : new ∈ fresh) :
    new.all Term.isReadable = true := by
  cases h with
  | @states op type left right receiver verdict outer hreads hpassive =>
      cases hnew
      have hreceiver : receiver.all Term.isReadable = true := by
        rcases hreads with hreads | hreads
        · exact hreads.all_receiver (Term.all_sub hall (by simp))
        · exact hreads.all_receiver (Term.all_sub hall (by simp))
      refine Term.readable_fit ?_ outer
      cases verdict with
      | always value => exact Term.readable_leaf ..
      | empty => exact Term.readable_call hreceiver (by simp)
      | notEmpty => exact Term.readable_not (Term.readable_call hreceiver (by simp))

theorem NegationDescent.Rewrite.readable (h : NegationDescent.Rewrite old fresh)
    (hall : old.all Term.isReadable = true) {new : Term} (hnew : new ∈ fresh) :
    new.all Term.isReadable = true := by
  cases h with
  | @push type operand outer hcovered =>
      cases hnew
      exact Term.readable_fit (Term.readable_push (Term.all_sub hall (by simp))) outer

theorem Term.readable_stmt {head : Head} {type : Option TypeDesc} {subs : List Term}
    (hhead : head.isStatement = true) (hswitch : head ≠ .switchStmt)
    (hsubs : ∀ sub, sub ∈ subs → sub.all isReadable = true) :
    (node head type subs).all isReadable = true := by
  refine readable_node hswitch (isGrouped_of_demand?_none ?_) hsubs
  intro position
  cases head <;> first | rfl | cases hhead

theorem Vanished.readable (h : Vanished fresh) {new : Term} (hnew : new ∈ fresh) :
    new.all Term.isReadable = true := by
  cases h <;> cases hnew
  rfl

theorem DeadBranch.Rewrite.readable (h : DeadBranch.Rewrite old fresh)
    (hall : old.all Term.isReadable = true) {new : Term} (hnew : new ∈ fresh) :
    new.all Term.isReadable = true := by
  have hsub : ∀ {sub}, sub ∈ old.subs → sub.all Term.isReadable = true :=
    fun hmem => Term.all_sub hall hmem
  cases h with
  | takeThen hcond => cases hnew; exact hsub (by simp)
  | takeElse hcond => cases hnew; exact hsub (by simp)
  | dropIf hcond hfresh => exact hfresh.readable hnew
  | dropLoop hcond hfresh => exact hfresh.readable hnew
  | dropEmpty hthen helse hcond hfresh => exact hfresh.readable hnew
  | @keepCondition type cond thenBranch elseBranch hthen helse hcond =>
      cases hnew
      have hcond : cond.all Term.isReadable = true := hsub (by simp)
      exact Term.readable_stmt rfl (by simp) (by simpa using Term.all_bare hcond)
  | @dropElse type cond thenBranch elseBranch helse =>
      cases hnew
      have hcond : cond.all Term.isReadable = true := hsub (by simp)
      have hthen : thenBranch.all Term.isReadable = true := hsub (by simp)
      exact Term.readable_stmt rfl (by simp) (by simp [hcond, hthen])
  | @invert type cond thenBranch elseBranch hthen =>
      cases hnew
      have hcond : cond.all Term.isReadable = true := hsub (by simp)
      have helse : elseBranch.all Term.isReadable = true := hsub (by simp)
      have hblock : (asBlock elseBranch).all Term.isReadable = true := by
        unfold asBlock
        split
        · exact helse
        · exact Term.readable_stmt rfl (by simp) (by simpa using helse)
      exact Term.readable_stmt rfl (by simp) (by simp [Term.readable_negate hcond, hblock])

namespace SetUpdate

theorem readable_remains {branch new : Term} (h : branch.all Term.isReadable = true)
    (hnew : new ∈ remains branch) : new.all Term.isReadable = true := by
  unfold remains at hnew
  split at hnew
  · cases hnew
    exact Term.readable_stmt rfl (by simp)
      (fun stmt hstmt => Term.all_sub h (List.mem_of_mem_tail hstmt))
  · cases hnew

/-- The update that becomes a condition is grouped as it was. -/
theorem Repeats.readable {cond branch stmt call : Term} {inThen : Bool} {rest : List Term}
    (h : Repeats cond stmt call inThen) (hbranch : branch.statements = stmt :: rest)
    (hall : branch.all Term.isReadable = true) :
    stmt.all Term.isReadable = true ∧ call.all Term.isReadable = true := by
  have hstmt : stmt.all Term.isReadable = true :=
    Term.all_statements hall (by rw [hbranch]; exact List.mem_cons_self ..)
  obtain ⟨_, _, _, _, _, type, _, _, _, _, rfl, _⟩ := h
  exact ⟨hstmt, Term.all_sub hstmt (List.mem_singleton_self _)⟩

theorem Rewrite.readable (h : Rewrite old fresh) (hall : old.all Term.isReadable = true)
    {new : Term} (hnew : new ∈ fresh) : new.all Term.isReadable = true := by
  have hsub : ∀ {sub}, sub ∈ old.subs → sub.all Term.isReadable = true :=
    fun hmem => Term.all_sub hall hmem
  cases h with
  | @onlyThen type cond thenBranch stmt call elseBranch hrepeats hthen helse =>
      cases hnew
      exact (hrepeats.readable hthen (hsub (by simp))).1
  | @onlyElse type cond thenBranch elseBranch stmt call hrepeats hthen helse =>
      cases hnew
      exact (hrepeats.readable helse (hsub (by simp))).1
  | @inThen type cond thenBranch stmt call rest elseBranch hrepeats hthen =>
      cases hnew
      have hbranch : thenBranch.all Term.isReadable = true := hsub (by simp)
      have hrest : ((remains thenBranch).getD (.block [])).all Term.isReadable = true := by
        cases hremains : remains thenBranch with
        | some left => exact readable_remains hbranch hremains
        | none => rfl
      refine Term.readable_stmt rfl (by simp) ?_
      intro sub hmem
      rcases List.mem_cons.mp hmem with rfl | hmem
      · exact (hrepeats.readable hthen hbranch).2
      · rcases List.mem_cons.mp hmem with rfl | hmem
        · exact hrest
        · exact hsub (by simp [hmem])
  | @inElse type cond thenBranch elseBranch stmt call rest hrepeats helse =>
      cases hnew
      have hbranch : elseBranch.all Term.isReadable = true := hsub (by simp)
      refine Term.readable_stmt rfl (by simp) ?_
      intro sub hmem
      rcases List.mem_cons.mp hmem with rfl | hmem
      · exact Term.readable_not (hrepeats.readable helse hbranch).2
      · rcases List.mem_cons.mp hmem with rfl | hmem
        · exact hsub (by simp)
        · exact readable_remains hbranch (by simpa using hmem)

end SetUpdate

namespace TwoWaySwitch

/-- The test of a tight label needs no parentheses beyond those it gets. -/
theorem readable_labelTerm {subject label : Term} (hsubject : subject.all Term.isReadable = true)
    (hlabel : label.all Term.isReadable = true) (htight : Term.isTight subject label = true) :
    (labelTerm subject label).all Term.isReadable = true := by
  obtain ⟨hstrength, -, hconstant⟩ := Term.isTight_iff.mp htight
  unfold labelTerm
  split
  · exact Term.readable_call hlabel (by simpa using hsubject)
  · next typeText htype =>
      have hle := hconstant (isConstant_of_constant htype)
      have hqualified := Term.readable_qualified (Term.readable_typeName typeText) hlabel
      refine Term.readable_node (by simp) ?_ (by simp [hsubject, hqualified])
      have hfirst : (Head.chain .equals).groups 0 subject.head = true := by
        have hsame : subject.head.strength = subject.strength := rfl
        have hequals : InfixOp.strength .equals = Strength.equality := rfl
        simp only [Head.groups, Head.demand?, Option.all_some, Head.meets, Head.isChain, hsame,
          hequals, Bool.or_eq_true, Bool.and_eq_true, decide_eq_true_eq, beq_iff_eq, and_true]
        omega
      simp only [Term.isGrouped, Term.subs_node, Term.head_node, hfirst, Bool.true_and,
        List.all_cons, List.all_nil, Bool.and_true]
      exact Head.groups_of_suits (Head.suits_of_primary rfl)
  · refine Term.readable_chain ?_ ?_
    · intro term hterm
      rcases List.mem_cons.mp hterm with rfl | hterm
      · exact Term.meets_wrap (by decide) subject
      · obtain rfl := List.mem_singleton.mp hterm
        have hlt : InfixOp.strength .equals < term.head.strength := hstrength
        simp [Head.meets, hlt]
    · intro term hterm
      rcases List.mem_cons.mp hterm with rfl | hterm
      · exact Term.readable_wrap hsubject _
      · obtain rfl := List.mem_singleton.mp hterm
        exact hlabel

theorem readable_conditionalTerm {subject : Term} {groups : List (Group Term)}
    (hsubject : subject.all Term.isReadable = true)
    (hgroups : ∀ group, group ∈ groups →
      (∀ stmt, stmt ∈ group.stmts → stmt.all Term.isReadable = true) ∧
      ∀ label, label ∈ group.labels →
        label.all Term.isReadable = true ∧ Term.isTight subject label = true) {new : Term}
    (hnew : new ∈ conditionalTerm subject groups) : new.all Term.isReadable = true := by
  induction groups generalizing new with
  | nil => cases hnew
  | cons group groups ih =>
      obtain ⟨hstmts, hlabels⟩ := hgroups group (List.mem_cons_self ..)
      have hrest : ∀ stmt, stmt ∈ conditionalTerm subject groups →
          stmt.all Term.isReadable = true :=
        fun stmt => ih fun other hother => hgroups other (List.mem_cons_of_mem _ hother)
      have hblock : (Term.block group.stmts).all Term.isReadable = true :=
        Term.readable_stmt rfl (by simp) hstmts
      have htest : (groupTerm subject group.labels).all Term.isReadable = true := by
        refine Term.readable_join ?_
        intro test htest
        obtain ⟨label, hlabel, rfl⟩ := List.mem_map.mp htest
        exact readable_labelTerm hsubject (hlabels label hlabel).1 (hlabels label hlabel).2
      have hstep : new ∈ statementTerm subject group (conditionalTerm subject groups) := hnew
      rcases statementTerm_cases hstep with ⟨-, rfl⟩ | ⟨-, rfl⟩
      · exact hblock
      · refine Term.readable_stmt rfl (by simp) ?_
        simpa [htest, hblock] using hrest

theorem Rewrite.readable (h : Rewrite old fresh) (hall : old.all Term.isReadable = true)
    {new : Term} (hnew : new ∈ fresh) : new.all Term.isReadable = true := by
  have htight := (Bool.and_eq_true_iff.mp (Term.holds_of_all hall)).2
  obtain ⟨type, subject, body, groups, rfl, hfresh, hgroups⟩ := h.exists_groups
  rcases mem_of_becomes hfresh hnew with hresult | hvanished
  · refine readable_conditionalTerm (Term.all_sub hall (List.mem_cons_self ..)) ?_ hresult
    intro group hgroup
    have hfrom := hgroups group hgroup
    refine ⟨fun stmt hstmt => Term.all_sub hall (List.mem_cons_of_mem _ (hfrom.stmts stmt hstmt)),
      ?_⟩
    intro label hlabel
    obtain ⟨item, hitem, hsub⟩ := List.mem_flatMap.mp hlabel
    obtain ⟨hbody, hhead⟩ := hfrom.items item hitem
    have hitemAll : item.all Term.isReadable = true :=
      Term.all_sub hall (List.mem_cons_of_mem _ hbody)
    exact ⟨Term.all_sub hitemAll hsub,
      Term.hasTightLabels_iff.mp htight subject body rfl rfl item hbody hhead label hsub⟩
  · exact hvanished.readable hnew

end TwoWaySwitch

namespace Term

theorem Exchanged.readable (h : Exchanged old fresh) (hall : old.all isReadable = true)
    {new : Term} (hnew : new ∈ fresh) : new.all isReadable = true := by
  cases h with
  | retype h => cases h <;> (cases hnew; rfl)
  | rule h =>
      cases h with
      | switch h => exact h.readable hall hnew
      | set h => exact h.readable hall hnew
      | dead h => exact h.readable hall hnew
      | table h => cases h <;> (cases hnew; exact hall)
      | negation h => exact h.readable hall hnew
      | emptiness h => exact h.readable hall hnew
      | string h => exact h.readable hall hnew

/-! ## Labels in a run -/

theorem strength_le_primary (term : Term) : term.strength ≤ Strength.primary := by
  cases term with
  | node head type subs =>
      cases head
      case chain op => exact InfixOp.strength_le_primary op
      all_goals exact Nat.le_of_ble_eq_true rfl

theorem strength_le_fit (outer : Option Nat) (term : Term) :
    term.strength ≤ (term.fit outer).strength := by
  cases outer with
  | none => exact Nat.le_refl _
  | some outer =>
      unfold fit wrap
      dsimp only
      split
      · exact strength_le_primary term
      · exact Nat.le_refl _

theorem strength_of_isStatement {term : Term} (h : term.head.isStatement = true) :
    term.strength = Strength.primary := by
  cases term with
  | node head type subs => cases head <;> first | rfl | cases h

/-- What an exchange puts in place binds at least as tight as `==`. -/
theorem Exchanged.equality_le_strength {new : Term} (h : Exchanged old (some new))
    (horder : old.all isOrderly = true) (hall : old.all isReadable = true) :
    Strength.equality ≤ new.strength := by
  have hexchange := h.exchange ((all_isSound_false old).trans horder)
  rcases h.sort with hexpr | hstmt
  · cases h with
    | retype h => cases h <;> (show _ ≤ Strength.primary; decide)
    | rule h =>
        cases h with
        | switch h => cases h <;> cases hexpr
        | set h => cases h <;> cases hexpr
        | dead h => cases h <;> cases hexpr
        | table h => cases h <;> (show _ ≤ Strength.primary; decide)
        | string h => cases h <;> (show _ ≤ Strength.primary; decide)
        | negation h =>
            cases h with
            | push hcovered =>
                exact Nat.le_trans (equality_le_strength_push (all_sub hall (by simp)))
                  (strength_le_fit ..)
        | emptiness h =>
            cases h with
            | @states op type left right receiver verdict outer hreads hpassive =>
                refine Nat.le_trans ?_ (strength_le_fit ..)
                cases verdict <;> exact Nat.le_of_ble_eq_true rfl
  · rw [strength_of_isStatement (hexchange.statement hstmt new rfl)]
    decide

/-- No exchange makes an equality test out of another expression. -/
theorem Exchanged.isEqualityTest {new : Term} (h : Exchanged old (some new))
    (hold : old.IsExpr false) (hnew : new.isEqualityTest = true) : old.isEqualityTest = true := by
  have hexpr := hold.head
  cases h with
  | retype h => cases h <;> cases hnew
  | rule h =>
      cases h with
      | switch h => cases h <;> cases hexpr
      | set h => cases h <;> cases hexpr
      | dead h => cases h <;> cases hexpr
      | table h => cases h <;> cases hnew
      | string h => cases h <;> cases hnew
      | negation h =>
          cases h with
          | push hcovered =>
              rw [isEqualityTest_congr (kernel_fit ..)] at hnew
              rw [isEqualityTest_congr (kernel_prefixed ..)]
              exact isEqualityTest_push (hold.of_mem (List.mem_singleton_self _)) hnew
      | emptiness h =>
          cases h with
          | @states op type left right receiver verdict outer hreads hpassive =>
              rw [isEqualityTest_congr (kernel_fit ..)] at hnew
              cases verdict with
              | always value => cases hnew
              | empty => cases hnew
              | notEmpty =>
                  rw [EmptinessTest.statement, isEqualityTest_congr (kernel_not _)] at hnew
                  cases hnew

theorem kernel_slots {head : Head} {before after : List Term} (type : Option TypeDesc)
    (term : Term) (h : ¬((head = .paren ∨ head = .prefixed .not) ∧ before = [] ∧ after = [])) :
    (node head type (before ++ term :: after)).kernel =
      node head type (before ++ term :: after) := by
  unfold kernel
  split
  · next heq =>
      obtain ⟨hhead, -, hsubs⟩ := node.inj heq
      rw [List.append_eq_singleton_iff] at hsubs
      simp_all
  · next heq =>
      obtain ⟨hhead, -, hsubs⟩ := node.inj heq
      rw [List.append_eq_singleton_iff] at hsubs
      simp_all
  · rfl

theorem isEqualityTest_slots {head : Head} {type : Option TypeDesc} {before after : List Term}
    {c d : Term} (hslot : d.isEqualityTest = true → c.isEqualityTest = true)
    (h : (node head type (before ++ d :: after)).isEqualityTest = true) :
    (node head type (before ++ c :: after)).isEqualityTest = true := by
  by_cases hthrough : (head = .paren ∨ head = .prefixed .not) ∧ before = [] ∧ after = []
  · obtain ⟨rfl | rfl, rfl, rfl⟩ := hthrough
    · rw [List.nil_append, isEqualityTest_congr (kernel_paren ..)] at h ⊢
      exact hslot h
    · rw [List.nil_append, isEqualityTest_congr (kernel_prefixed ..)] at h ⊢
      exact hslot h
  · rw [isEqualityTest, kernel_slots _ _ hthrough] at h ⊢
    exact h

theorem Swap.isEqualityTest {new : Term} (h : Swap old (some new) a b)
    (hnew : new.isEqualityTest = true → old.isEqualityTest = true)
    (hb : b.isEqualityTest = true) : a.isEqualityTest = true := by
  induction h with
  | here hdrop hsuits => exact isEqualityTest_slots hnew hb
  | deeper hswap ih => exact isEqualityTest_slots ih hb

theorem mem_slots {before after : List Term} {label x y : Term}
    (h : label ∈ before ++ y :: after) : label = y ∨ label ∈ before ++ x :: after := by
  simp only [List.mem_append, List.mem_cons] at h ⊢
  tauto

theorem Exchanged.isTight_new {subject new : Term} (h : Exchanged old (some new))
    (hold : old.IsExpr true) (hreadable : old.all isReadable = true)
    (hboolean : old.all isBoolean = true) (htight : isTight subject old = true) :
    isTight subject new = true := by
  have horder := all_isOrderly hold.sound
  obtain ⟨-, htest, -⟩ := isTight_iff.mp htight
  have hle := h.equality_le_strength horder hreadable
  have hnot : new.isEqualityTest = false := by
    by_contra hyes
    have hwas := h.isEqualityTest ⟨hold.head, (all_isSound_false old).trans horder⟩
      (Bool.eq_true_of_not_eq_false hyes)
    rw [htest] at hwas
    cases hwas
  have hne : new.strength ≠ Strength.equality := by
    intro heq
    rw [isEqualityTest_of_strength heq] at hnot
    cases hnot
  have hconstant := ((h.exchange hold.sound).boolean hold.head hboolean new rfl).2.1
  exact isTight_iff.mpr ⟨by omega, hnot, by simp [hconstant]⟩

theorem Exchanged.isTight_inside {subject : Term} (h : Exchanged old fresh)
    (hswap : Swap old fresh a b) (ha : a.IsExpr true) (htight : isTight subject a = true) :
    isTight subject b = true := by
  have horder := all_isOrderly ha.sound
  have hexpr := hswap.isExpression horder ha.head
  obtain ⟨new, rfl⟩ :=
    Option.ne_none_iff_exists'.mp ((h.exchange (hswap.all_old ha.sound)).stays hexpr)
  obtain ⟨hstrength, htest, hconstant⟩ := isTight_iff.mp htight
  have hsame : b.strength = a.strength := by rw [strength, strength, hswap.head_eq]
  refine isTight_iff.mpr ⟨hsame ▸ hstrength, ?_, isConstant_congr hswap.type_eq ▸ hconstant⟩
  by_contra hyes
  have hwas := hswap.isEqualityTest
    (h.isEqualityTest ⟨hexpr, (all_isSound_false old).trans (hswap.all_old horder)⟩)
    (Bool.eq_true_of_not_eq_false hyes)
  rw [htest] at hwas
  cases hwas

/-- The expressions of a label are in order, and their logical operators have no constants
as operands. -/
theorem label_of_sound {type : Option TypeDesc} {subs : List Term} {label : Term}
    (h : (node .caseLabel type subs).all (isSound true) = true) (hlabel : label ∈ subs) :
    label.IsExpr true ∧ label.all isBoolean = true := by
  have hself := holds_of_all h
  simp only [isSound, isOrderly, isTestable, head_node, subs_node, Bool.not_true, Bool.false_or,
    Bool.and_eq_true, List.all_eq_true] at hself
  obtain ⟨before, after, rfl⟩ := List.append_of_mem hlabel
  exact ⟨⟨isExpression_of_label (holds_of_all (all_isOrderly h)), all_sub h hlabel⟩,
    hself.2.2 label hlabel⟩

/-- The labels of a switch stay tight when one is exchanged, or something in it. -/
theorem Exchanged.isTight_labels {subject c d : Term} (h : Exchanged old fresh)
    (hswap : Swap old fresh c d) (hhead : c.head = .caseLabel)
    (hsound : c.all (isSound true) = true) (hreadable : c.all isReadable = true)
    (htight : ∀ label, label ∈ c.subs → isTight subject label = true) {label : Term}
    (hlabel : label ∈ d.subs) : isTight subject label = true := by
  have hexchange := h.exchange (hswap.all_old hsound)
  cases hswap with
  | @here head type before after hdrop hsuits =>
      obtain rfl : head = .caseLabel := hhead
      have hmem : old ∈ before ++ old :: after := by simp
      obtain ⟨hexpr, hboolean⟩ := label_of_sound hsound hmem
      obtain ⟨new, rfl⟩ := Option.ne_none_iff_exists'.mp (hexchange.stays hexpr.head)
      rcases mem_slots (x := old) hlabel with rfl | hother
      · exact h.isTight_new hexpr (all_sub hreadable hmem) hboolean (htight old hmem)
      · exact htight label hother
  | @deeper head type before after x y hinner =>
      obtain rfl : head = .caseLabel := hhead
      have hmem : x ∈ before ++ x :: after := by simp
      rcases mem_slots (x := x) hlabel with rfl | hother
      · exact h.isTight_inside hinner (label_of_sound hsound hmem).1 (htight x hmem)
      · exact htight label hother

theorem isTight_of_le {subject subject' label : Term} (h : isTight subject label = true)
    (hle : Strength.equality ≤ subject.strength → Strength.equality ≤ subject'.strength) :
    isTight subject' label = true := by
  obtain ⟨hstrength, htest, hconstant⟩ := isTight_iff.mp h
  exact isTight_iff.mpr ⟨hstrength, htest, fun hyes => hle (hconstant hyes)⟩

theorem Exchanged.hasTightLabels_here {head : Head} {type : Option TypeDesc}
    {before after : List Term} (h : Exchanged old fresh) (horder : old.all isOrderly = true)
    (hreadable : old.all isReadable = true)
    (hdrop : fresh = none → head.canDrop before.length = true)
    (htight : (node head type (before ++ old :: after)).hasTightLabels = true) :
    (node head type (before ++ (fresh.toList ++ after))).hasTightLabels = true := by
  have hexchange := h.exchange ((all_isSound_false old).trans horder)
  rw [hasTightLabels_iff] at htight ⊢
  rintro subject body rfl hsubs item hitem hhead label hlabel
  cases before with
  | nil =>
      -- the subject itself is exchanged, and cannot be dropped
      obtain ⟨new, rfl⟩ := Option.ne_none_iff_exists'.mp
        (fun hnone => by cases hdrop hnone : fresh ≠ none)
      cases hsubs
      exact isTight_of_le (htight old after rfl rfl item hitem hhead label hlabel)
        (fun _ => h.equality_le_strength horder hreadable)
  | cons first before =>
      cases hsubs
      refine htight subject _ rfl rfl item ?_ hhead label hlabel
      -- no label is put in the place of a statement
      rcases List.mem_append.mp hitem with hmem | hmem
      · exact List.mem_append_left _ hmem
      · rcases List.mem_append.mp hmem with hmem | hmem
        · obtain rfl : fresh = some item := by simpa using hmem
          exact absurd hhead (hexchange.new_ne_label h.sort)
        · exact List.mem_append_right _ (List.mem_cons_of_mem _ hmem)

theorem Exchanged.hasTightLabels_deep {head : Head} {type : Option TypeDesc}
    {before after : List Term} {c d : Term} (h : Exchanged old fresh) (hswap : Swap old fresh c d)
    (hsound : c.all (isSound true) = true) (hreadable : c.all isReadable = true)
    (htight : (node head type (before ++ c :: after)).hasTightLabels = true) :
    (node head type (before ++ d :: after)).hasTightLabels = true := by
  rw [hasTightLabels_iff] at htight ⊢
  rintro subject body rfl hsubs item hitem hhead label hlabel
  cases before with
  | nil =>
      cases hsubs
      have hsame : d.strength = c.strength := by rw [strength, strength, hswap.head_eq]
      exact isTight_of_le (htight c after rfl rfl item hitem hhead label hlabel)
        (fun hle => hsame ▸ hle)
  | cons first before =>
      cases hsubs
      have hbefore := htight subject _ rfl rfl
      rcases mem_slots (x := c) hitem with rfl | hother
      · exact h.isTight_labels hswap (hswap.head_eq ▸ hhead) hsound hreadable
          (hbefore c (by simp) (hswap.head_eq ▸ hhead)) hlabel
      · exact hbefore item hother hhead label hlabel

theorem Exchanged.isGrouped_here {head : Head} {type : Option TypeDesc}
    {before after : List Term} (h : Exchanged old fresh) (horder : old.all isOrderly = true)
    (hdrop : fresh = none → head.canDrop before.length = true)
    (hsuits : old.head.isExpression = true → ∀ new, new ∈ fresh →
      head.suits before.length new.head = true)
    (hself : (node head type (before ++ old :: after)).isGrouped = true) :
    (node head type (before ++ (fresh.toList ++ after))).isGrouped = true := by
  have hexchange := h.exchange ((all_isSound_false old).trans horder)
  cases fresh with
  | none => exact isGrouped_of_demand?_none (Head.demand?_of_canDrop (hdrop rfl))
  | some new =>
      refine isGrouped_slots hself (fun _ => Head.groups_of_suits ?_)
      rcases h.sort with hexpr | hstmt
      · exact hsuits hexpr new rfl
      · exact Head.suits_of_primary (strength_of_isStatement (hexchange.statement hstmt new rfl))

theorem Exchanged.swap_readable (h : Exchanged old fresh) (hswap : Swap old fresh a b)
    (hsound : a.all (isSound true) = true) (hall : a.all isReadable = true) :
    b.all isReadable = true := by
  have horder := hswap.all_old (all_isOrderly hsound)
  refine hswap.all hall (fun new hmem hold => h.readable hold hmem) ?_ ?_
  · intro head type before after hold hself hdrop hsuits
    obtain ⟨hgrouped, htight⟩ := Bool.and_eq_true_iff.mp hself
    rw [isReadable, h.isGrouped_here horder hdrop hsuits hgrouped,
      h.hasTightLabels_here horder hold hdrop htight]
    rfl
  · intro head type before after c d hcd hbelow hself
    obtain ⟨hgrouped, htight⟩ := Bool.and_eq_true_iff.mp hself
    rw [isReadable, isGrouped_slots hgrouped (fun hc => hcd.head_eq ▸ hc),
      h.hasTightLabels_deep hcd (hbelow _ hsound) (hbelow _ hall) htight]
    rfl

end Term

/-! ## Runs -/

/-- A child is the first operand of a chain if it stands in the first slot. -/
theorem Kind.isFirstOperand_eq {kind : Kind} {child : NodeId} {before after : List NodeId}
    (hslots : kind.children = before ++ child :: after)
    (hnodup : (before ++ child :: after).Nodup) :
    kind.isFirstOperand child = (before.length == 0 && kind.head.isChain) := by
  cases kind
  case chain op operands =>
    obtain rfl : operands = before ++ child :: after := hslots
    cases before with
    | nil => simp [isFirstOperand, head, Head.isChain]
    | cons first before =>
        have hne : first ≠ child := by
          rintro rfl
          exact (List.nodup_cons.mp hnodup).1 (by simp)
        simp [isFirstOperand, hne]
  all_goals simp [isFirstOperand, head, Head.isChain]

theorem Store.Holds.isGrouped_eq {store : Store} {tree holder old : Tree}
    {before after : List Tree} (h : store.Holds tree) (hholder : holder ∈ tree.subtrees)
    (hslots : holder.subs = before ++ old :: after) :
    store.isGrouped old.id = holder.head.groups before.length old.head := by
  obtain ⟨hlink, hsplit, hnodup⟩ := h.slots hholder hslots
  have hlegible := Tree.Legible.of_holds h hholder
  have hold : old ∈ tree.subtrees := Tree.slot_mem_subtrees hholder (by rw [hslots]; simp)
  have hfirst : store.isFirstOperand old.id = (before.length == 0 && holder.head.isChain) := by
    rw [← hlegible.kind_head, ← List.length_map Tree.id, ← Kind.isFirstOperand_eq hsplit hnodup,
      isFirstOperand, hlink]
    rfl
  have hstrength : (store.kind old.id).strength?.getD Strength.primary = old.head.strength := by
    rw [Kind.strength?_eq, (Tree.Legible.of_holds h hold).kind_head]
    rfl
  rw [Store.isGrouped, Draft.slotStrength?_eq_demand? h hholder hslots, hfirst]
  simp only [hstrength, Head.groups, Head.meets]
  congr 1
  funext outer
  rw [show (old.head.strength == outer) = (outer == old.head.strength) from Bool.beq_comm ..,
    Bool.and_or_distrib_left, Bool.or_assoc]

theorem Store.Holds.isGrouped_iff {store : Store} {tree : Tree} (h : store.Holds tree) :
    Source.IsGrouped ⟨store, tree.id⟩ ↔ tree.term.all Term.isGrouped = true := by
  have hlegible := Tree.Legible.of_holds h tree.mem_subtrees_self
  rw [Tree.all_iff, Source.IsGrouped, hlegible.preorder_eq]
  constructor
  · intro hall holder hholder
    cases holder with
    | node id head type subs =>
        rw [Tree.term_node, Term.isGrouped_iff]
        intro before sub after hsplit
        obtain ⟨befores, rest, rfl, rfl, hrest⟩ := List.map_eq_append_iff.mp hsplit
        obtain ⟨old, afters, rfl, rfl, rfl⟩ := List.map_eq_cons_iff.mp hrest
        rw [List.length_map, Tree.head_term]
        refine (h.isGrouped_eq hholder rfl).symm.trans
          (hall old.id (Tree.mem_ids_iff.mpr ⟨old, ?_, rfl⟩))
        exact Tree.slot_mem_subtrees hholder (by simp)
  · intro hall id hid
    obtain ⟨old, hold, rfl⟩ := Tree.mem_ids_iff.mp hid
    by_cases hroot : old = tree
    · have hlink : store.parent old.id = none := hroot ▸ h.held.link
      rw [Store.isGrouped, Store.slotStrength?, hlink]
      rfl
    · obtain ⟨holder, hholder, hslot⟩ := Tree.exists_holder hold hroot
      obtain ⟨before, after, hslots⟩ := List.append_of_mem hslot
      rw [h.isGrouped_eq hholder hslots]
      have hself := hall holder hholder
      cases holder with
      | node id head type subs =>
          obtain rfl : subs = _ := hslots
          rw [Tree.term_node, List.map_append, List.map_cons, Term.isGrouped_iff] at hself
          simpa using hself _ _ _ rfl

/-- Every label can be compared with the subject of its switch as it stands. -/
def Source.HasTightLabels (source : Source) : Prop :=
  (source.store.term source.root).all Term.hasTightLabels = true

instance (source : Source) : Decidable source.HasTightLabels :=
  inferInstanceAs (Decidable (_ = true))

namespace Engine

variable {engine : Engine} {source : Source} {cancelled : Bool}

/-- If the labels of all switches can be compared as they stand, every expression stays
grouped in the text as it is in the tree. -/
theorem run_keeps_groups
    (hrules : ∀ rule, rule ∈ engine.rules → rule ∈ Registry.rules)
    (h : source.WellFormed) (hgrouped : source.IsGrouped)
    (htestable : source.HasTestableLabels) (htight : source.HasTightLabels) :
    ∃ report final stores, engine.run source cancelled = .ok (report, ⟨final, source.root⟩) ∧
      Trail engine.settings.options engine.rules source.root source.store report.log stores
        final ∧
      ∀ store, store ∈ final :: stores → Source.IsGrouped ⟨store, source.root⟩ := by
  obtain ⟨tree, hholds, hid, -, hterm⟩ := h.toProper.exists_tree
  have hreadable : (source.store.term source.root).all Term.isReadable = true := by
    have hterms : tree.term.all Term.isGrouped = true := by
      rw [← hholds.isGrouped_iff, hid]
      exact hgrouped
    unfold Term.isReadable
    rw [Term.all_and, ← hterm, hterms, hterm, htight]
    rfl
  have hsound : (source.store.term source.root).all (Term.isSound true) = true := by
    rw [Term.all_isSound_true, h.orderly, h.named, htestable]
    rfl
  obtain ⟨report, final, stores, hrun, htrail, hkept⟩ :=
    @run_keeps engine source cancelled
      (fun term => term.all (Term.isSound true) = true ∧ term.all Term.isReadable = true) hrules
      h.toProper
      (fun hexchanged hswap _ hkeeps =>
        ⟨(hexchanged.exchange (hswap.all_old hkeeps.1)).swap hswap hkeeps.1,
          hexchanged.swap_readable hswap hkeeps.1 hkeeps.2⟩)
      ⟨hsound, hreadable⟩
  refine ⟨report, final, stores, hrun, htrail, ?_⟩
  intro store hstore
  obtain ⟨hproper, -, hall⟩ := hkept store hstore
  obtain ⟨later, hlater, hlaterId, -, hlaterTerm⟩ := hproper.exists_tree
  rw [show source.root = later.id from hlaterId.symm, hlater.isGrouped_iff, hlaterTerm]
  exact Term.all_imp (fun _ hself => (Bool.and_eq_true_iff.mp hself).1) hall

/-- The unit `switch (k & 1) { case 2: a(); }`. -/
def maskedSubject : Source where
  store :=
    { nodes := #[
        ⟨.name "k" none, none, some 2, false⟩,
        ⟨.literal (.int 1), none, some 2, false⟩,
        ⟨.chain .bitAnd [0, 1], none, some 7, false⟩,
        ⟨.literal (.int 2), none, some 4, false⟩,
        ⟨.caseLabel (some 3), none, some 7, false⟩,
        ⟨.call none "a" [], none, some 6, false⟩,
        ⟨.exprStmt 5, none, some 7, false⟩,
        ⟨.switchStmt 2 [4, 6], none, some 8, false⟩,
        ⟨.unit [7], none, none, false⟩] }
  root := 8

/-- The subject gets parentheses where it is compared with the label. -/
theorem run_keeps_groups_masked :
    maskedSubject.IsGrouped ∧ ∃ report final,
      Engine.run ⟨{}, [TwoWaySwitch.rule]⟩ maskedSubject false = .ok (report, ⟨final, 8⟩) ∧
      report.changes = 1 ∧ Source.IsGrouped ⟨final, 8⟩ := by
  have hgrouped : maskedSubject.IsGrouped := by decide +kernel
  obtain ⟨report, after, hrun, hchanges⟩ :=
    @exists_outcome false ⟨{}, [TwoWaySwitch.rule]⟩ maskedSubject
      (fun outcome => outcome.1.changes == 1) (by decide +kernel)
  obtain ⟨report', final, stores, hrun', -, hkept⟩ :=
    @run_keeps_groups ⟨{}, [TwoWaySwitch.rule]⟩ maskedSubject false
      (by simp [Registry.rules]) (by decide +kernel) hgrouped (by decide +kernel)
      (by decide +kernel)
  rw [hrun'] at hrun
  cases hrun
  exact ⟨hgrouped, report, final, hrun', eq_of_beq hchanges,
    hkept final (List.mem_cons_self ..)⟩

/-- The unit `switch (k) { case 1 & 2: a(); }`. -/
def maskedLabel : Source where
  store :=
    { nodes := #[
        ⟨.name "k" none, none, some 7, false⟩,
        ⟨.literal (.int 1), none, some 3, false⟩,
        ⟨.literal (.int 2), none, some 3, false⟩,
        ⟨.chain .bitAnd [1, 2], none, some 4, false⟩,
        ⟨.caseLabel (some 3), none, some 7, false⟩,
        ⟨.call none "a" [], none, some 6, false⟩,
        ⟨.exprStmt 5, none, some 7, false⟩,
        ⟨.switchStmt 0 [4, 6], none, some 8, false⟩,
        ⟨.unit [7], none, none, false⟩] }
  root := 8

/-- The label gets none, and `k == 1 & 2` is read as another expression. -/
theorem run_loses_group :
    maskedLabel.WellFormed ∧ maskedLabel.IsGrouped ∧
      ∃ report after, Engine.run ⟨{}, [TwoWaySwitch.rule]⟩ maskedLabel false =
        .ok (report, after) ∧ ¬ after.IsGrouped := by
  obtain ⟨report, after, hrun, hlost⟩ :=
    @exists_outcome false ⟨{}, [TwoWaySwitch.rule]⟩ maskedLabel
      (fun outcome => !decide outcome.2.IsGrouped) (by decide +kernel)
  exact ⟨by decide +kernel, by decide +kernel, report, after, hrun, by simpa using hlost⟩

end Engine

end CodeTidy
