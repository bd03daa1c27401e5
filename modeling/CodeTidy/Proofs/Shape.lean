import CodeTidy.Proofs.Construct
import CodeTidy.Proofs.Swap

/-!
# The shape of a tree

What stands in the slots of a tree: expressions where expressions belong and statements
where statements belong, chains with two operands or more, and switches with one default
label at most.  `Term.isOrderly` checks one node, and a change of a subtree keeps the
check of every node if the new subtree fits where the old one stood (`Exchange`).
-/

namespace CodeTidy

/-! ## Slots -/

namespace Head

def isStatement : Head → Bool
  | exprStmt | varDecl _ _ | block | ifStmt | whileStmt | switchStmt | breakStmt _
  | continueStmt _ | returnStmt | throwStmt => true
  | _ => false

def leads : Head → Head → Bool
  | block, sub | unit, sub => sub.isStatement
  | _, sub => sub.isExpression

def follows : Head → Head → Bool
  | block, sub | unit, sub | ifStmt, sub | whileStmt, sub => sub.isStatement
  | switchStmt, sub => sub.isStatement || sub == caseLabel
  | _, sub => sub.isExpression

def isNaming : Head → Bool
  | name _ _ | qualified => true
  | _ => false

def isLogical : Head → Bool
  | prefixed .not => true
  | chain op => op.dual?.isSome
  | _ => false

end Head

namespace Term

def slotsFit (head : Head) : List Term → Bool
  | [] => true
  | first :: rest => head.leads first.head && rest.all (fun sub => head.follows sub.head)

def isDefault (item : Term) : Bool :=
  item.head == .caseLabel && item.subs.isEmpty

/-- Whether a node has as many slots of a sort as it may have. -/
def hasArity (head : Head) (subs : List Term) : Bool :=
  match head with
  | .chain _ => decide (2 ≤ subs.length)
  | .switchStmt => decide (subs.countP isDefault ≤ 1)
  | _ => true

def isOrderly (term : Term) : Bool :=
  slotsFit term.head term.subs && hasArity term.head term.subs

/-! ## Names and labels -/

def isConstant (term : Term) : Bool :=
  term.type.any (fun type => type.sort == .enumeration)

def isPlain (term : Term) : Bool :=
  match term.head with
  | .name _ _ => true
  | _ => !term.isConstant

/-- A qualified name is made of names, and a label that is a constant is a simple
name. -/
def isNamed (term : Term) : Bool :=
  match term.head with
  | .qualified => term.subs.all (fun sub => sub.head.isNaming)
  | .caseLabel => term.subs.all isPlain
  | _ => true

/-- No operand of a logical operator is a constant of an enumeration. -/
def isBoolean (term : Term) : Bool :=
  !term.head.isLogical || term.subs.all (fun sub => !sub.isConstant && !sub.bare.isConstant)

def isTestable (term : Term) : Bool :=
  match term.head with
  | .caseLabel => term.subs.all (all isBoolean)
  | _ => true

/-! ## Changing a subtree -/

variable {old a b : Term} {fresh : Option Term} {holds : Term → Bool}

theorem Swap.head_eq (h : Swap old fresh a b) : b.head = a.head := by
  cases h <;> rfl

theorem Swap.type_eq (h : Swap old fresh a b) : b.type = a.type := by
  cases h <;> rfl

/-- A change keeps a property of every node if the new subtree has it, and if no node
loses it when the change is in one of its slots or below. -/
theorem Swap.all (h : Swap old fresh a b) (hall : a.all holds = true)
    (hfresh : ∀ new, new ∈ fresh → old.all holds = true → new.all holds = true)
    (hhere : ∀ head type before after, old.all holds = true →
      holds (.node head type (before ++ old :: after)) = true →
      (fresh = none → head.canDrop before.length = true) →
      (old.head.isExpression = true → ∀ new, new ∈ fresh →
        head.suits before.length new.head = true) →
      holds (.node head type (before ++ (fresh.toList ++ after))) = true)
    (hdeep : ∀ head type before after c d, Swap old fresh c d →
      (∀ other, a.all other = true → c.all other = true) →
      holds (.node head type (before ++ c :: after)) = true →
      holds (.node head type (before ++ d :: after)) = true) : b.all holds = true := by
  induction h with
  | @here head type before after hdrop hsuits =>
      rw [all_node, Bool.and_eq_true] at hall ⊢
      rw [List.all_append, List.all_cons, Bool.and_eq_true, Bool.and_eq_true] at hall
      obtain ⟨hself, hbefore, hold, hafter⟩ := hall
      refine ⟨hhere head type before after hold hself hdrop hsuits, ?_⟩
      rw [List.all_append, List.all_append, Bool.and_eq_true, Bool.and_eq_true]
      refine ⟨hbefore, ?_, hafter⟩
      rw [List.all_eq_true]
      intro new hnew
      exact hfresh new (by simpa using hnew) hold
  | @deeper head type before after c d hswap ih =>
      rw [all_node, Bool.and_eq_true] at hall ⊢
      rw [List.all_append, List.all_cons, Bool.and_eq_true, Bool.and_eq_true] at hall
      obtain ⟨hself, hbefore, hc, hafter⟩ := hall
      have hsub : ∀ other, (node head type (before ++ c :: after)).all other = true →
          c.all other = true := fun other h => all_sub h (by simp)
      refine ⟨hdeep head type before after c d hswap hsub hself, ?_⟩
      rw [List.all_append, List.all_cons, Bool.and_eq_true, Bool.and_eq_true]
      refine ⟨hbefore, ih hc ?_, hafter⟩
      intro head' type' before' after' c' d' hswap' hbelow
      exact hdeep head' type' before' after' c' d' hswap'
        (fun other h => hbelow other (hsub other h))

/-- The new subtree fits where the old one stands. -/
structure Fits (old : Term) (fresh : Option Term) : Prop where
  /-- A label is never exchanged. -/
  label : old.head ≠ .caseLabel
  /-- An expression is never dropped. -/
  stays : old.head.isExpression = true → fresh ≠ none
  expression : old.head.isExpression = true → ∀ new, new ∈ fresh →
    new.head.isExpression = true
  statement : old.head.isStatement = true → ∀ new, new ∈ fresh →
    new.head.isStatement = true

theorem Fits.leads {new : Term} {head : Head} (h : Fits old (some new))
    (hold : head.leads old.head = true) : head.leads new.head = true := by
  unfold Head.leads at hold ⊢
  split at hold
  · exact h.statement hold new rfl
  · exact h.statement hold new rfl
  · exact h.expression hold new rfl

theorem Fits.follows {new : Term} {head : Head} (h : Fits old (some new))
    (hold : head.follows old.head = true) : head.follows new.head = true := by
  unfold Head.follows at hold ⊢
  split at hold
  · exact h.statement hold new rfl
  · exact h.statement hold new rfl
  · exact h.statement hold new rfl
  · exact h.statement hold new rfl
  · have hstatement : old.head.isStatement = true := by simpa [h.label] using hold
    simp [h.statement hstatement new rfl]
  · exact h.expression hold new rfl

/-- Where a subtree can be dropped, the first slot is no different from the others. -/
theorem Fits.leads_of_none {head sub : Head} (h : Fits old none)
    (hold : head.leads old.head = true) (hsub : head.follows sub = true) :
    head.leads sub = true := by
  unfold Head.leads at hold ⊢
  split at hold
  · exact hsub
  · exact hsub
  · exact absurd rfl (h.stays hold)

theorem slotsFit_append {head : Head} {before rest : List Term} (hbefore : before ≠ []) :
    slotsFit head (before ++ rest) =
      (slotsFit head before && rest.all (fun sub => head.follows sub.head)) := by
  cases before with
  | nil => exact absurd rfl hbefore
  | cons first before =>
      simp only [slotsFit, List.cons_append, List.all_append, Bool.and_assoc]

theorem Fits.slotsFit {head : Head} {before after : List Term} (h : Fits old fresh)
    (hold : slotsFit head (before ++ old :: after) = true) :
    Term.slotsFit head (before ++ (fresh.toList ++ after)) = true := by
  by_cases hbefore : before = []
  · subst hbefore
    simp only [List.nil_append, Term.slotsFit, Bool.and_eq_true, List.all_eq_true] at hold ⊢
    obtain ⟨hfirst, hrest⟩ := hold
    cases fresh with
    | some new =>
        simp only [Option.toList_some, List.singleton_append, Bool.and_eq_true, List.all_eq_true]
        exact ⟨h.leads hfirst, hrest⟩
    | none =>
        cases after with
        | nil => rfl
        | cons sub after =>
            simp only [Option.toList_none, List.nil_append, Bool.and_eq_true, List.all_eq_true]
            exact ⟨h.leads_of_none hfirst (hrest sub (List.mem_cons_self ..)),
              fun other hother => hrest other (List.mem_cons_of_mem _ hother)⟩
  · rw [slotsFit_append hbefore, Bool.and_eq_true, List.all_eq_true] at hold ⊢
    refine ⟨hold.1, ?_⟩
    intro sub hsub
    rcases List.mem_append.mp hsub with hsub | hsub
    · obtain rfl : fresh = some sub := by simpa using hsub
      exact h.follows (hold.2 old (List.mem_cons_self ..))
    · exact hold.2 sub (List.mem_cons_of_mem _ hsub)

/-- What stands in a slot is an expression, a statement or a label. -/
theorem sort_of_slotsFit {head : Head} {sub : Term} {subs : List Term}
    (h : slotsFit head subs = true) (hsub : sub ∈ subs) :
    sub.head.isExpression = true ∨ sub.head.isStatement = true ∨ sub.head = .caseLabel := by
  have hfollows : head.follows sub.head = true ∨ head.leads sub.head = true := by
    cases subs with
    | nil => cases hsub
    | cons first rest =>
        simp only [Term.slotsFit, Bool.and_eq_true, List.all_eq_true] at h
        rcases List.mem_cons.mp hsub with rfl | hsub
        · exact .inr h.1
        · exact .inl (h.2 sub hsub)
  rcases hfollows with hfollows | hleads
  · unfold Head.follows at hfollows
    split at hfollows <;> simp_all
  · unfold Head.leads at hleads
    split at hleads <;> simp_all

theorem not_isDefault_of_ne {term : Term} (h : term.head ≠ .caseLabel) :
    term.isDefault = false := by
  simp [isDefault, h]

theorem head_ne_caseLabel {head : Head}
    (h : head.isExpression = true ∨ head.isStatement = true) : head ≠ .caseLabel := by
  rintro rfl
  rcases h with h | h <;> cases h

theorem Fits.new_ne_label {new : Term} (h : Fits old (some new))
    (hold : old.head.isExpression = true ∨ old.head.isStatement = true) :
    new.head ≠ .caseLabel := by
  apply head_ne_caseLabel
  rcases hold with hold | hold
  · exact .inl (h.expression hold new rfl)
  · exact .inr (h.statement hold new rfl)

theorem Fits.isOrderly {head : Head} {type : Option TypeDesc} {before after : List Term}
    (h : Fits old fresh)
    (hold : (node head type (before ++ old :: after)).isOrderly = true)
    (hdrop : fresh = none → head.canDrop before.length = true) :
    (node head type (before ++ (fresh.toList ++ after))).isOrderly = true := by
  simp only [Term.isOrderly, head_node, subs_node, Bool.and_eq_true] at hold ⊢
  refine ⟨h.slotsFit hold.1, ?_⟩
  have hsort : old.head.isExpression = true ∨ old.head.isStatement = true := by
    rcases sort_of_slotsFit hold.1 (List.mem_append_right _ (List.mem_cons_self ..)) with
      hsort | hsort | hsort
    · exact .inl hsort
    · exact .inr hsort
    · exact absurd hsort h.label
  have hfew := hold.2
  unfold hasArity at hfew ⊢
  split at hfew
  · next op =>
      cases fresh with
      | some new => simpa using hfew
      | none => cases hdrop rfl
  · have hdefault := not_isDefault_of_ne h.label
    have hnew : fresh.toList.countP isDefault = 0 := by
      rw [List.countP_eq_zero]
      intro new hnew
      obtain rfl : fresh = some new := by simpa using hnew
      simp [not_isDefault_of_ne (h.new_ne_label hsort)]
    simp only [List.countP_append, List.countP_cons, hdefault, hnew, decide_eq_true_eq] at hfew ⊢
    simpa using hfew
  · rfl

theorem isEmpty_slots (before after : List Term) (term : Term) :
    (before ++ term :: after).isEmpty = false := by
  cases before <;> rfl

/-- A change below a label leaves it a label with or without an expression. -/
theorem Swap.isDefault_eq (h : Swap old fresh a b) : b.isDefault = a.isDefault := by
  cases h with
  | @here head type before after hdrop hsuits =>
      unfold isDefault
      by_cases hlabel : head = .caseLabel
      · cases fresh with
        | some new => simp [isEmpty_slots]
        | none =>
            rw [hlabel] at hdrop
            cases hdrop rfl
      · simp [beq_eq_false_iff_ne.mpr hlabel]
  | deeper h => simp [isDefault, isEmpty_slots]

theorem slotsFit_congr {head : Head} {before after : List Term} (hhead : b.head = a.head) :
    slotsFit head (before ++ b :: after) = slotsFit head (before ++ a :: after) := by
  cases before <;> simp [slotsFit, hhead]

theorem Swap.isOrderly_deep (h : Swap old fresh a b) {head : Head} {type : Option TypeDesc}
    {before after : List Term} :
    (node head type (before ++ b :: after)).isOrderly =
      (node head type (before ++ a :: after)).isOrderly := by
  simp only [isOrderly, head_node, subs_node, slotsFit_congr h.head_eq]
  congr 1
  unfold hasArity
  split
  · simp
  · simp [List.countP_append, List.countP_cons, h.isDefault_eq]
  · rfl

/-- Whether a node is in order, and with `strict` whether its names and labels are. -/
def isSound (strict : Bool) (term : Term) : Bool :=
  term.isOrderly && (!strict || (term.isNamed && term.isTestable))

/-- The new subtree can take the place of the old one. -/
structure Exchange (strict : Bool) (old : Term) (fresh : Option Term) : Prop
    extends Fits old fresh where
  sound : ∀ new, new ∈ fresh → new.all (isSound strict) = true
  naming : old.head.isNaming = true → ∀ new, new ∈ fresh → new.head.isNaming = true
  boolean : old.head.isExpression = true → old.all isBoolean = true →
    ∀ new, new ∈ fresh → new.all isBoolean = true ∧ new.isConstant = false ∧
      new.bare.isConstant = false

theorem isConstant_congr (h : b.type = a.type) : b.isConstant = a.isConstant := by
  rw [isConstant, h, isConstant]

theorem isPlain_congr (hhead : b.head = a.head) (htype : b.type = a.type) :
    b.isPlain = a.isPlain := by
  rw [isPlain, hhead, isConstant_congr htype, isPlain]

theorem isExpression_of_slotsFit {head : Head} {sub : Term} {subs : List Term}
    (h : slotsFit head subs = true) (hsub : sub ∈ subs) (hhead : head.isExpression = true) :
    sub.head.isExpression = true := by
  cases subs with
  | nil => cases hsub
  | cons first rest =>
      simp only [slotsFit, Bool.and_eq_true, List.all_eq_true] at h
      rcases List.mem_cons.mp hsub with rfl | hsub
      · have hleads := h.1
        unfold Head.leads at hleads
        split at hleads
        · cases hhead
        · cases hhead
        · exact hleads
      · have hfollows := h.2 sub hsub
        unfold Head.follows at hfollows
        split at hfollows
        · cases hhead
        · cases hhead
        · cases hhead
        · cases hhead
        · cases hhead
        · exact hfollows

theorem Swap.isExpression (h : Swap old fresh a b) (horder : a.all isOrderly = true)
    (hexpr : a.head.isExpression = true) : old.head.isExpression = true := by
  induction h with
  | @here head type before after hdrop hsuits =>
      have hself := holds_of_all horder
      simp only [isOrderly, head_node, subs_node, Bool.and_eq_true] at hself
      exact isExpression_of_slotsFit hself.1 (by simp) hexpr
  | @deeper head type before after c d hswap ih =>
      have hself := holds_of_all horder
      simp only [isOrderly, head_node, subs_node, Bool.and_eq_true] at hself
      exact ih (all_sub horder (by simp)) (isExpression_of_slotsFit hself.1 (by simp) hexpr)

theorem bare_slots {head : Head} {before after : List Term} (type : Option TypeDesc)
    (term : Term) (h : ¬(head = .paren ∧ before = [] ∧ after = [])) :
    (node head type (before ++ term :: after)).bare =
      node head type (before ++ term :: after) := by
  unfold bare
  split
  · next heq =>
      obtain ⟨hhead, -, hsubs⟩ := node.inj heq
      rw [List.append_eq_singleton_iff] at hsubs
      simp_all
  · rfl

/-- What is left without parentheses keeps its type, or it is the new subtree without
parentheses. -/
theorem Swap.bare_type {new : Term} (h : Swap old (some new) a b) :
    b.bare.type = a.bare.type ∨ b.bare = new.bare := by
  induction h with
  | @here head type before after hdrop hsuits =>
      by_cases hparen : head = .paren ∧ before = [] ∧ after = []
      · obtain ⟨rfl, rfl, rfl⟩ := hparen
        exact .inr (bare_paren type new)
      · rw [bare_slots type old hparen]
        left
        rw [Option.toList_some, List.singleton_append, bare_slots type new hparen]
        rfl
  | @deeper head type before after c d hswap ih =>
      by_cases hparen : head = .paren ∧ before = [] ∧ after = []
      · obtain ⟨rfl, rfl, rfl⟩ := hparen
        rw [List.nil_append, List.nil_append, bare_paren, bare_paren]
        exact ih
      · rw [bare_slots type c hparen, bare_slots type d hparen]
        exact .inl rfl

/-! ## Sound exchanges -/

variable {strict : Bool}

theorem all_slots {p : Term → Bool} {before after : List Term} {term : Term} :
    (before ++ term :: after).all p = (before.all p && (p term && after.all p)) := by
  rw [List.all_append, List.all_cons]

theorem all_isOrderly (h : a.all (isSound strict) = true) : a.all isOrderly = true := by
  induction a with
  | node head type subs ih =>
      rw [all_node, Bool.and_eq_true] at h ⊢
      rw [List.all_eq_true] at h ⊢
      simp only [isSound, Bool.and_eq_true] at h
      exact ⟨h.1.1, fun sub hsub => ih sub hsub (h.2 sub hsub)⟩

theorem Swap.all_old (h : Swap old fresh a b) (hall : a.all holds = true) :
    old.all holds = true := by
  induction h with
  | here hdrop hsuits => exact all_sub hall (by simp)
  | deeper hswap ih => exact ih (all_sub hall (by simp))

/-- An exchange inside an expression keeps the operands of logical operators in order. -/
theorem Exchange.swap_boolean (h : Exchange strict old fresh) (hswap : Swap old fresh a b)
    (horder : a.all isOrderly = true) (hexpr : a.head.isExpression = true)
    (hboolean : a.all isBoolean = true) : b.all isBoolean = true := by
  have hold := hswap.isExpression horder hexpr
  obtain ⟨new, rfl⟩ := Option.ne_none_iff_exists'.mp (h.stays hold)
  obtain ⟨hnew, hconstant, hbare⟩ := h.boolean hold (hswap.all_old hboolean) new rfl
  refine hswap.all hboolean ?_ ?_ ?_
  · intro other hother _
    obtain rfl : new = other := by simpa using hother
    exact hnew
  · intro head type before after _ hself _ _
    simp only [isBoolean, head_node, subs_node, Option.toList_some, List.singleton_append,
      all_slots, Bool.or_eq_true, Bool.and_eq_true] at hself ⊢
    refine hself.imp_right ?_
    rintro ⟨hbefore, -, hafter⟩
    exact ⟨hbefore, by simp [hconstant, hbare], hafter⟩
  · intro head type before after c d hcd _ hself
    simp only [isBoolean, head_node, subs_node, all_slots, Bool.or_eq_true, Bool.and_eq_true]
      at hself ⊢
    refine hself.imp_right ?_
    rintro ⟨hbefore, ⟨hc, hcBare⟩, hafter⟩
    refine ⟨hbefore, ⟨?_, ?_⟩, hafter⟩
    · rwa [isConstant_congr hcd.type_eq]
    · rcases hcd.bare_type with htype | hsame
      · rwa [isConstant_congr htype]
      · simp [hsame, hbare]

theorem isPlain_of_not_constant (h : a.isConstant = false) : a.isPlain = true := by
  unfold isPlain
  split
  · rfl
  · simp [h]

theorem isExpression_of_label {type : Option TypeDesc} {before after : List Term}
    (h : (node .caseLabel type (before ++ a :: after)).isOrderly = true) :
    a.head.isExpression = true := by
  simp only [isOrderly, head_node, subs_node, Bool.and_eq_true] at h
  cases before with
  | nil =>
      simp only [List.nil_append, slotsFit, Bool.and_eq_true] at h
      exact h.1.1
  | cons first before =>
      simp only [List.cons_append, slotsFit, Bool.and_eq_true, List.all_eq_true] at h
      exact h.1.2 a (by simp)

theorem Exchange.isNamed (h : Exchange strict old fresh) {head : Head} {type : Option TypeDesc}
    {before after : List Term}
    (horder : (node head type (before ++ old :: after)).isOrderly = true)
    (hnamed : (node head type (before ++ old :: after)).isNamed = true)
    (htestable : (node head type (before ++ old :: after)).isTestable = true) :
    (node head type (before ++ (fresh.toList ++ after))).isNamed = true ∧
      (node head type (before ++ (fresh.toList ++ after))).isTestable = true := by
  unfold Term.isNamed isTestable at *
  simp only [head_node, subs_node] at *
  split at hnamed
  · simp only [List.all_append, List.all_cons, Bool.and_eq_true, List.all_eq_true] at hnamed ⊢
    refine ⟨⟨hnamed.1, ?_, hnamed.2.2⟩, trivial⟩
    intro new hnew
    exact h.naming hnamed.2.1 new (by simpa using hnew)
  · simp only [List.all_append, List.all_cons, Bool.and_eq_true, List.all_eq_true]
      at hnamed htestable ⊢
    have hold := isExpression_of_label horder
    have hnew : ∀ new, new ∈ fresh.toList → new.isPlain = true ∧
        new.all isBoolean = true := by
      intro new hnew
      obtain ⟨hboolean, hconstant, -⟩ :=
        h.boolean hold htestable.2.1 new (by simpa using hnew)
      exact ⟨isPlain_of_not_constant hconstant, hboolean⟩
    exact ⟨⟨hnamed.1, fun new hmem => (hnew new hmem).1, hnamed.2.2⟩,
      ⟨htestable.1, fun new hmem => (hnew new hmem).2, htestable.2.2⟩⟩
  · next hqualified hlabel =>
      refine ⟨rfl, ?_⟩
      split
      · exact absurd rfl hlabel
      · rfl

theorem Exchange.isNamed_deep (h : Exchange strict old fresh) (hswap : Swap old fresh a b)
    (hall : a.all isOrderly = true) {head : Head} {type : Option TypeDesc}
    {before after : List Term}
    (horder : (node head type (before ++ a :: after)).isOrderly = true)
    (hnamed : (node head type (before ++ a :: after)).isNamed = true)
    (htestable : (node head type (before ++ a :: after)).isTestable = true) :
    (node head type (before ++ b :: after)).isNamed = true ∧
      (node head type (before ++ b :: after)).isTestable = true := by
  unfold Term.isNamed isTestable at *
  simp only [head_node, subs_node] at *
  split at hnamed
  · simp only [all_slots, Bool.and_eq_true] at hnamed ⊢
    rw [hswap.head_eq]
    exact ⟨hnamed, trivial⟩
  · simp only [all_slots, Bool.and_eq_true] at hnamed htestable ⊢
    rw [isPlain_congr hswap.head_eq hswap.type_eq]
    exact ⟨hnamed, htestable.1,
      h.swap_boolean hswap hall (isExpression_of_label horder) htestable.2.1, htestable.2.2⟩
  · next hqualified hlabel =>
      refine ⟨rfl, ?_⟩
      split
      · exact absurd rfl hlabel
      · rfl

/-- An exchange keeps every node in order. -/
theorem Exchange.swap (h : Exchange strict old fresh) (hswap : Swap old fresh a b)
    (hall : a.all (isSound strict) = true) : b.all (isSound strict) = true := by
  refine hswap.all hall (fun new hnew _ => h.sound new hnew) ?_ ?_
  · intro head type before after _ hself hdrop _
    simp only [isSound, Bool.and_eq_true, Bool.or_eq_true] at hself ⊢
    exact ⟨h.isOrderly hself.1 hdrop,
      hself.2.imp_right (fun hnames => h.isNamed hself.1 hnames.1 hnames.2)⟩
  · intro head type before after c d hcd hc hself
    simp only [isSound, Bool.and_eq_true, Bool.or_eq_true] at hself ⊢
    refine ⟨by rw [hcd.isOrderly_deep]; exact hself.1, hself.2.imp_right ?_⟩
    exact fun hnames => h.isNamed_deep hcd (all_isOrderly (hc _ hall)) hself.1 hnames.1 hnames.2

/-! ## Constructed terms -/

structure IsExpr (strict : Bool) (term : Term) : Prop where
  head : term.head.isExpression = true
  sound : term.all (isSound strict) = true

structure IsStmt (strict : Bool) (term : Term) : Prop where
  head : term.head.isStatement = true
  sound : term.all (isSound strict) = true

variable {term : Term} {terms : List Term}

theorem sound_node {head : Head} {type : Option TypeDesc} {subs : List Term}
    (hslots : slotsFit head subs = true) (harity : hasArity head subs = true)
    (hname : head ≠ .qualified) (hlabel : head ≠ .caseLabel)
    (hsubs : ∀ sub, sub ∈ subs → sub.all (isSound strict) = true) :
    (node head type subs).all (isSound strict) = true := by
  rw [all_node, Bool.and_eq_true, List.all_eq_true]
  refine ⟨?_, hsubs⟩
  have hnamed : (node head type subs).isNamed = true := by
    unfold isNamed
    split <;> simp_all
  have htestable : (node head type subs).isTestable = true := by
    unfold isTestable
    split <;> simp_all
  simp [isSound, isOrderly, hslots, harity, hnamed, htestable]

theorem slotsFit_of_isExpr {head : Head} {subs : List Term} (hhead : head.isExpression = true)
    (hsubs : ∀ sub, sub ∈ subs → sub.IsExpr strict) : slotsFit head subs = true := by
  have hleads : ∀ sub : Head, head.leads sub = sub.isExpression := by
    intro sub
    unfold Head.leads
    split
    · cases hhead
    · cases hhead
    · rfl
  have hfollows : ∀ sub : Head, head.follows sub = sub.isExpression := by
    intro sub
    unfold Head.follows
    split
    · cases hhead
    · cases hhead
    · cases hhead
    · cases hhead
    · cases hhead
    · rfl
  cases subs with
  | nil => rfl
  | cons first rest =>
      simp only [slotsFit, Bool.and_eq_true, List.all_eq_true, hleads, hfollows]
      exact ⟨(hsubs first (List.mem_cons_self ..)).head,
        fun sub hsub => (hsubs sub (List.mem_cons_of_mem _ hsub)).head⟩

theorem isExpr_node {head : Head} {type : Option TypeDesc} {subs : List Term}
    (hhead : head.isExpression = true) (hname : head ≠ .qualified)
    (harity : hasArity head subs = true)
    (hsubs : ∀ sub, sub ∈ subs → sub.IsExpr strict) :
    (node head type subs).IsExpr strict where
  head := hhead
  sound := sound_node (slotsFit_of_isExpr hhead hsubs) harity hname
    (by rintro rfl; cases hhead) (fun sub hsub => (hsubs sub hsub).sound)

theorem IsExpr.of_mem {sub : Term} (h : term.IsExpr strict) (hsub : sub ∈ term.subs) :
    sub.IsExpr strict where
  head := by
    have hself := holds_of_all h.sound
    simp only [isSound, isOrderly, Bool.and_eq_true] at hself
    exact isExpression_of_slotsFit hself.1.1 hsub h.head
  sound := all_sub h.sound hsub

/-- What holds of every expression holds at every node of one. -/
theorem IsExpr.all_of {holds : Term → Bool} (h : term.IsExpr strict)
    (hholds : ∀ expr : Term, expr.head.isExpression = true → holds expr = true) :
    term.all holds = true := by
  induction term with
  | node head type subs ih =>
      rw [all_node, hholds _ h.head, Bool.true_and, List.all_eq_true]
      exact fun sub hsub => ih sub hsub (h.of_mem hsub)

theorem IsExpr.bare (h : term.IsExpr strict) : term.bare.IsExpr strict := by
  induction term with
  | node head type subs ih =>
      unfold Term.bare
      split
      · next inner heq =>
          cases heq
          exact ih inner (List.mem_singleton_self _) (h.of_mem (List.mem_singleton_self _))
      · exact h

theorem IsExpr.paren (h : term.IsExpr strict) : term.paren.IsExpr strict :=
  isExpr_node rfl (by simp) rfl (by simpa using h)

theorem IsExpr.wrap (h : term.IsExpr strict) (outer : Nat) :
    (term.wrap outer).IsExpr strict := by
  unfold Term.wrap
  split
  · exact h.paren
  · exact h

theorem IsExpr.fit (h : term.IsExpr strict) (outer : Option Nat) :
    (term.fit outer).IsExpr strict := by
  cases outer with
  | some outer => exact h.wrap outer
  | none => exact h

theorem isExpr_boolLit (value : Bool) : (boolLit value).IsExpr strict :=
  isExpr_node rfl (by simp) rfl (by simp)

theorem isExpr_bareName (text : String) : (bareName text).IsExpr strict :=
  isExpr_node rfl (by simp) rfl (by simp)

theorem IsExpr.not (h : term.IsExpr strict) : term.not.IsExpr strict :=
  isExpr_node rfl (by simp) rfl (by simpa using h.wrap _)

theorem isExpr_chain {op : InfixOp} (h : ∀ term, term ∈ terms → term.IsExpr strict)
    (hlength : 2 ≤ terms.length) : (chain op terms).IsExpr strict :=
  isExpr_node rfl (by simp) (by simpa [hasArity] using hlength) h

theorem isExpr_join {op : InfixOp} (h : ∀ term, term ∈ terms → term.IsExpr strict)
    (hne : terms ≠ []) : (join op terms).IsExpr strict := by
  match terms with
  | [] => exact absurd rfl hne
  | [term] => exact h term (List.mem_singleton_self _)
  | first :: second :: rest =>
      refine isExpr_chain ?_ (by simp)
      intro term hterm
      obtain ⟨inner, hinner, rfl⟩ := List.mem_map.mp hterm
      exact (h inner hinner).wrap _

theorem IsExpr.call {method : String} (h : term.IsExpr strict)
    (hargs : ∀ arg, arg ∈ terms → arg.IsExpr strict) :
    (term.call method terms).IsExpr strict := by
  refine isExpr_node rfl (by simp) rfl ?_
  intro sub hsub
  rcases List.mem_cons.mp hsub with rfl | hsub
  · exact h.wrap _
  · exact hargs sub hsub

theorem isExpr_qualified {qualifier simple : Term} (hqualifier : qualifier.IsExpr strict)
    (hsimple : simple.IsExpr strict)
    (hnames : strict = true → qualifier.head.isNaming = true ∧ simple.head.isNaming = true) :
    (qualified qualifier simple).IsExpr strict where
  head := rfl
  sound := by
    have hsubs : ∀ sub, sub ∈ [qualifier, simple] → sub.IsExpr strict := by
      simp [hqualifier, hsimple]
    have hslots := @slotsFit_of_isExpr _ .qualified _ rfl hsubs
    rw [qualified, all_node, Bool.and_eq_true, List.all_eq_true]
    refine ⟨?_, fun sub hsub => (hsubs sub hsub).sound⟩
    cases strict with
    | false => simp [isSound, isOrderly, hslots, hasArity]
    | true =>
        obtain ⟨hq, hs⟩ := hnames rfl
        simp [isSound, isOrderly, hslots, hasArity, isNamed, isTestable, hq, hs]

theorem isExpr_typeName (dotted : String) :
    (typeName dotted).IsExpr strict ∧ (typeName dotted).head.isNaming = true := by
  have hsegments : ∀ (segments : List String) (qualifier : Term),
      qualifier.IsExpr strict ∧ qualifier.head.isNaming = true →
      (segments.foldl (fun qualifier segment => qualified qualifier (bareName segment))
        qualifier).IsExpr strict ∧
      (segments.foldl (fun qualifier segment => qualified qualifier (bareName segment))
        qualifier).head.isNaming = true := by
    intro segments
    induction segments with
    | nil => exact fun qualifier h => h
    | cons segment segments ih =>
        intro qualifier h
        exact ih _ ⟨isExpr_qualified h.1 (isExpr_bareName segment) (fun _ => ⟨h.2, rfl⟩), rfl⟩
  exact hsegments _ _ ⟨isExpr_bareName _, rfl⟩

theorem IsExpr.negate (h : term.IsExpr strict) (invert : Bool) :
    (term.negate invert).IsExpr strict := by
  have hbare := h.bare
  unfold Term.negate
  split
  · next operand heq =>
      rw [heq] at hbare
      exact hbare.of_mem (List.mem_singleton_self _)
  · exact isExpr_boolLit _
  · next op type left right heq =>
      rw [heq] at hbare
      split
      · refine isExpr_chain ?_ (by simp)
        exact fun sub hsub => hbare.of_mem hsub
      · exact h.not
  · exact h.not

theorem isStmt_exprStmt (h : term.IsExpr strict) (type : Option TypeDesc) :
    (node .exprStmt type [term]).IsStmt strict where
  head := rfl
  sound := sound_node (by simpa [slotsFit, Head.leads] using h.head) rfl (by simp) (by simp)
    (by simpa using h.sound)

theorem isStmt_block (h : ∀ stmt, stmt ∈ terms → stmt.IsStmt strict)
    (type : Option TypeDesc) : (node .block type terms).IsStmt strict where
  head := rfl
  sound := by
    refine sound_node ?_ rfl (by simp) (by simp) (fun stmt hstmt => (h stmt hstmt).sound)
    cases terms with
    | nil => rfl
    | cons first rest =>
        simp only [slotsFit, Bool.and_eq_true, List.all_eq_true]
        exact ⟨(h first (List.mem_cons_self ..)).head,
          fun stmt hstmt => (h stmt (List.mem_cons_of_mem _ hstmt)).head⟩

theorem isStmt_ifStmt {cond : Term} (hcond : cond.IsExpr strict)
    (h : ∀ stmt, stmt ∈ terms → stmt.IsStmt strict) (type : Option TypeDesc) :
    (node .ifStmt type (cond :: terms)).IsStmt strict where
  head := rfl
  sound := by
    refine sound_node ?_ rfl (by simp) (by simp) ?_
    · simp only [slotsFit, Bool.and_eq_true, List.all_eq_true]
      exact ⟨hcond.head, fun stmt hstmt => (h stmt hstmt).head⟩
    · intro sub hsub
      rcases List.mem_cons.mp hsub with rfl | hsub
      · exact hcond.sound
      · exact (h sub hsub).sound

theorem parts_of_ifStmt {cond : Term} {type : Option TypeDesc}
    (h : (node .ifStmt type (cond :: terms)).all (isSound strict) = true) :
    cond.IsExpr strict ∧ ∀ stmt, stmt ∈ terms → stmt.IsStmt strict := by
  have hself := holds_of_all h
  simp only [isSound, isOrderly, head_node, subs_node, slotsFit, Bool.and_eq_true,
    List.all_eq_true] at hself
  exact ⟨⟨hself.1.1.1, all_sub h (List.mem_cons_self ..)⟩,
    fun stmt hstmt => ⟨hself.1.1.2 stmt hstmt, all_sub h (List.mem_cons_of_mem _ hstmt)⟩⟩

theorem IsStmt.of_block {type : Option TypeDesc} {stmt : Term}
    (h : (node .block type terms).all (isSound strict) = true) (hstmt : stmt ∈ terms) :
    stmt.IsStmt strict where
  head := by
    have hself := holds_of_all h
    simp only [isSound, isOrderly, head_node, subs_node, Bool.and_eq_true] at hself
    cases terms with
    | nil => cases hstmt
    | cons first rest =>
        have hslots := hself.1.1
        simp only [slotsFit, Bool.and_eq_true, List.all_eq_true] at hslots
        rcases List.mem_cons.mp hstmt with rfl | hstmt
        · exact hslots.1
        · exact hslots.2 stmt hstmt
  sound := all_sub h hstmt

/-- The statements of a branch are statements. -/
theorem IsStmt.statements {stmt : Term} (h : term.IsStmt strict) (hstmt : stmt ∈ term.statements) :
    stmt.IsStmt strict := by
  cases term with
  | node head type subs =>
      unfold Term.statements at hstmt
      split at hstmt
      · next hhead =>
          obtain rfl : head = .block := hhead
          exact .of_block h.sound hstmt
      · rw [List.mem_singleton.mp hstmt]
        exact h

/-! ## Operands of logical operators -/

/-- An expression whose logical operators have no constants as operands, and that can be
such an operand. -/
structure Neutral (term : Term) : Prop where
  all : term.all isBoolean = true
  value : term.isConstant = false
  bare : term.bare.isConstant = false

theorem all_isBoolean_of_ne {head : Head} {type : Option TypeDesc} {subs : List Term}
    (hhead : head.isLogical = false)
    (hsubs : ∀ sub, sub ∈ subs → sub.all isBoolean = true) :
    (node head type subs).all isBoolean = true := by
  rw [all_node, Bool.and_eq_true, List.all_eq_true]
  exact ⟨by simp [isBoolean, hhead], hsubs⟩

theorem all_isBoolean_of_neutral {head : Head} {type : Option TypeDesc} {subs : List Term}
    (hsubs : ∀ sub, sub ∈ subs → sub.Neutral) :
    (node head type subs).all isBoolean = true := by
  rw [all_node, Bool.and_eq_true, List.all_eq_true]
  refine ⟨?_, fun sub hsub => (hsubs sub hsub).all⟩
  simp only [isBoolean, head_node, subs_node, Bool.or_eq_true, List.all_eq_true]
  refine .inr (fun sub hsub => ?_)
  simp [(hsubs sub hsub).value, (hsubs sub hsub).bare]

theorem Neutral.of_operand {type : Option TypeDesc} {head : Head}
    (h : (node head type terms).all isBoolean = true) (hlogical : head.isLogical = true)
    (hterm : term ∈ terms) : term.Neutral := by
  have hself := holds_of_all h
  simp only [isBoolean, head_node, subs_node, hlogical, Bool.not_true, Bool.false_or,
    List.all_eq_true, Bool.and_eq_true, Bool.not_eq_true'] at hself
  exact ⟨all_sub h hterm, (hself term hterm).1, (hself term hterm).2⟩

theorem Neutral.paren (h : term.Neutral) : term.paren.Neutral where
  all := all_isBoolean_of_ne rfl (by simpa using h.all)
  value := h.value
  bare := by rw [Term.paren, bare_paren]; exact h.bare

theorem Neutral.wrap (h : term.Neutral) (outer : Nat) : (term.wrap outer).Neutral := by
  unfold Term.wrap
  split
  · exact h.paren
  · exact h

theorem Neutral.fit (h : term.Neutral) (outer : Option Nat) : (term.fit outer).Neutral := by
  cases outer with
  | some outer => exact h.wrap outer
  | none => exact h

/-- A node that is not in parentheses is judged by its own type. -/
theorem Neutral.of_ne_paren {head : Head} {type : Option TypeDesc} {subs : List Term}
    (hhead : head ≠ .paren) (hall : (node head type subs).all isBoolean = true)
    (htype : (node head type subs).isConstant = false) : (node head type subs).Neutral where
  all := hall
  value := htype
  bare := by
    rw [bare_of_ne_paren (show (node head type subs).head ≠ .paren from hhead)]
    exact htype

theorem neutral_boolLit (value : Bool) : (boolLit value).Neutral :=
  .of_ne_paren (by simp) (all_isBoolean_of_ne rfl (by simp)) rfl

theorem Neutral.not (h : term.Neutral) : term.not.Neutral :=
  .of_ne_paren (by simp) (all_isBoolean_of_neutral (by simpa using h.wrap _)) rfl

theorem neutral_chain {op : InfixOp} (h : ∀ term, term ∈ terms → term.Neutral) :
    (chain op terms).Neutral := by
  refine .of_ne_paren (by simp) (all_isBoolean_of_neutral h) ?_
  unfold isConstant type
  dsimp only
  split
  · rfl
  · cases terms with
    | nil => rfl
    | cons first rest => exact (h first (List.mem_cons_self ..)).value

theorem neutral_join {op : InfixOp} (h : ∀ term, term ∈ terms → term.Neutral) :
    (join op terms).Neutral := by
  unfold join
  split
  · exact h _ (List.mem_singleton_self _)
  · refine neutral_chain ?_
    intro term hterm
    obtain ⟨inner, hinner, rfl⟩ := List.mem_map.mp hterm
    exact (h inner hinner).wrap _

theorem neutral_call {method : String} (h : term.all isBoolean = true)
    (hargs : ∀ arg, arg ∈ terms → arg.all isBoolean = true) :
    (term.call method terms).Neutral := by
  refine .of_ne_paren (by simp) (all_isBoolean_of_ne rfl ?_) ?_
  · intro sub hsub
    rcases List.mem_cons.mp hsub with rfl | hsub
    · unfold Term.wrap
      split
      · exact all_isBoolean_of_ne rfl (by simpa using h)
      · exact h
    · exact hargs sub hsub
  · unfold isConstant type Build.resultType?
    dsimp only
    split
    · rfl
    · split <;> rfl

theorem all_bare {holds : Term → Bool} (h : term.all holds = true) :
    term.bare.all holds = true := by
  induction term with
  | node head type subs ih =>
      unfold Term.bare
      split
      · next inner heq =>
          cases heq
          exact ih inner (List.mem_singleton_self _) (all_sub h (List.mem_singleton_self _))
      · exact h

theorem Neutral.negate (h : term.Neutral) (invert : Bool) : (term.negate invert).Neutral := by
  have hbare := all_bare h.all
  unfold Term.negate
  split
  · next operand heq =>
      rw [heq] at hbare
      exact .of_operand hbare rfl (List.mem_singleton_self _)
  · exact neutral_boolLit _
  · next op type left right heq =>
      rw [heq] at hbare
      split
      · next inverse hinverse =>
          have hnotLogical : (Head.chain inverse).isLogical = false := by
            cases invert
            · cases hinverse
            · cases op <;> cases hinverse <;> rfl
          have hboolean : inverse.isComparison = true := by
            cases invert
            · cases hinverse
            · cases op <;> cases hinverse <;> rfl
          refine .of_ne_paren (by simp) (all_isBoolean_of_ne hnotLogical ?_) ?_
          · exact fun sub hsub => all_sub hbare hsub
          · simp only [isConstant, type_node, hboolean, Bool.true_or, if_true]
            rfl
      · exact h.not
  · exact h.not

end Term

end CodeTidy
