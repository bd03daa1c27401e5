import CodeTidy.Proofs.Run
import Mathlib.Data.Prod.Lex
import Mathlib.Order.WellFounded

/-!
# Rules end

No size of a tree alone gets smaller with every commit: the switch rule copies the
subject, and a negation that is pushed down is multiplied.  Three numbers in a row do.
There are fewer switches; or as many, and less of what the other rules take away; or as
much of both, and the negations stand over less.
-/

namespace CodeTidy

namespace Term

/-! ## Sums over nodes -/

/-- The sum of the weights of all nodes; a weight may depend on the number of slots. -/
def total (weight : Head → Option TypeDesc → Nat → Nat) : Term → Nat :=
  fold (fun head type below => weight head type below.length + below.sum)

theorem total_node (weight : Head → Option TypeDesc → Nat → Nat) (head : Head)
    (type : Option TypeDesc) (subs : List Term) :
    total weight (node head type subs) =
      weight head type subs.length + (subs.map (total weight)).sum := by
  simp [total]

def switchWeight (head : Head) (_ : Option TypeDesc) (_ : Nat) : Nat :=
  if head = .switchStmt then 1 else 0

def switches : Term → Nat :=
  total switchWeight

/-- What the other rules take away: chains, calls, loops, conditionals and their second
branches, and creations of tables. -/
def loadWeight (head : Head) (type : Option TypeDesc) (slots : Nat) : Nat :=
  match head with
  | .chain _ => 2
  | .call _ _ => 1
  | .ifStmt => if 3 ≤ slots then 2 else 1
  | .whileStmt => 1
  | .creation => if type.any (fun type => type.name == LocalTable.tableType) then 1 else 0
  | _ => 0

def load : Term → Nat :=
  total loadWeight

/-! ## What negations stand over -/

/-- Number of nodes without parentheses and negations, and the sum of these numbers over
the operands of all negations. -/
def weigh : Term → Nat × Nat :=
  fold (fun head _ below =>
    let core := (below.map Prod.fst).sum
    (match head with
      | .paren | .prefixed .not => max 1 core
      | _ => core + 1,
    (if head = .prefixed .not then core else 0) + (below.map Prod.snd).sum))

def core (term : Term) : Nat :=
  (weigh term).1

def strain (term : Term) : Nat :=
  (weigh term).2

theorem core_node (head : Head) (type : Option TypeDesc) (subs : List Term) :
    core (node head type subs) =
      match head with
      | .paren | .prefixed .not => max 1 (subs.map core).sum
      | _ => (subs.map core).sum + 1 := by
  unfold core weigh
  rw [fold_node]
  simp only [List.map_map]
  rfl

theorem strain_node (head : Head) (type : Option TypeDesc) (subs : List Term) :
    strain (node head type subs) =
      (if head = .prefixed .not then (subs.map core).sum else 0) + (subs.map strain).sum := by
  unfold strain core weigh
  rw [fold_node]
  simp only [List.map_map]
  rfl

theorem core_pos (term : Term) : 0 < core term := by
  cases term with
  | node head type subs =>
      rw [core_node]
      split <;> omega

/-! ## Changing a subtree -/

variable {old a b : Term} {fresh : Option Term}
  {weight : Head → Option TypeDesc → Nat → Nat}

theorem sum_slots (f : Term → Nat) (before after : List Term) (term : Term) :
    ((before ++ term :: after).map f).sum =
      (before.map f).sum + f term + (after.map f).sum := by
  simp [Nat.add_assoc]

theorem sum_toList (f : Term → Nat) (before after : List Term) (fresh : Option Term) :
    ((before ++ (fresh.toList ++ after)).map f).sum =
      (before.map f).sum + (fresh.map f).getD 0 + (after.map f).sum := by
  cases fresh <;> simp [Nat.add_assoc]

/-- A change of a subtree changes a sum by what the subtree contributes, and a slot that
is gone adds nothing. -/
theorem Swap.total_le (hweight : ∀ head type slots, weight head type slots ≤
      weight head type (slots + 1)) (h : Swap old fresh a b) :
    total weight b + total weight old ≤ total weight a + (fresh.map (total weight)).getD 0 := by
  induction h with
  | @here head type before after hdrop hsuits =>
      rw [total_node, total_node, sum_slots, sum_toList]
      have hslots : weight head type (before ++ (fresh.toList ++ after)).length ≤
          weight head type (before ++ old :: after).length := by
        cases fresh with
        | some new => simp
        | none =>
            simp only [Option.toList_none, List.nil_append, List.length_append, List.length_cons]
            rw [← Nat.add_assoc]
            exact hweight head type _
      omega
  | @deeper head type before after c d hswap ih =>
      rw [total_node, total_node, sum_slots, sum_slots]
      have hslots : (before ++ d :: after).length = (before ++ c :: after).length := by simp
      rw [hslots]
      omega

theorem switchWeight_le (head : Head) (type : Option TypeDesc) (slots : Nat) :
    switchWeight head type slots ≤ switchWeight head type (slots + 1) :=
  Nat.le_refl _

theorem loadWeight_le (head : Head) (type : Option TypeDesc) (slots : Nat) :
    loadWeight head type slots ≤ loadWeight head type (slots + 1) := by
  unfold loadWeight
  split
  · exact Nat.le_refl _
  · exact Nat.le_refl _
  · split <;> split <;> omega
  · exact Nat.le_refl _
  · exact Nat.le_refl _
  · exact Nat.le_refl _

theorem Swap.core_le {new : Term} (h : Swap old (some new) a b) (hcore : core new ≤ core old) :
    core b ≤ core a := by
  induction h with
  | @here head type before after hdrop hsuits =>
      rw [core_node, core_node, Option.toList_some, List.singleton_append, sum_slots, sum_slots]
      split <;> omega
  | @deeper head type before after c d hswap ih =>
      rw [core_node, core_node, sum_slots, sum_slots]
      split <;> omega

theorem Swap.strain_le {new : Term} (h : Swap old (some new) a b)
    (hcore : core new ≤ core old) : strain b + strain old ≤ strain a + strain new := by
  induction h with
  | @here head type before after hdrop hsuits =>
      simp only [strain_node, Option.toList_some, List.singleton_append, sum_slots]
      split <;> omega
  | @deeper head type before after c d hswap ih =>
      have hbelow := hswap.core_le hcore
      simp only [strain_node, sum_slots]
      split <;> omega

/-! ## The measure -/

/-- The numbers that decide, the first that differs before the others. -/
def rank (term : Term) : Nat ×ₗ (Nat ×ₗ Nat) :=
  toLex (switches term, toLex (load term, strain term))

inductive Lowers (old : Term) (fresh : Option Term) : Prop where
  | switches (h : (fresh.map switches).getD 0 < old.switches)
  | load (hswitches : (fresh.map Term.switches).getD 0 ≤ old.switches)
      (h : (fresh.map load).getD 0 < old.load)
  | strain {new : Term} (hfresh : fresh = some new) (hswitches : new.switches ≤ old.switches)
      (hload : new.load ≤ old.load) (hcore : new.core ≤ old.core)
      (h : new.strain < old.strain)

theorem rank_lt_of_switches (h : b.switches < a.switches) : b.rank < a.rank :=
  Prod.Lex.toLex_lt_toLex.mpr (.inl h)

theorem rank_lt_of_load (hswitches : b.switches ≤ a.switches) (h : b.load < a.load) :
    b.rank < a.rank := by
  rcases Nat.lt_or_eq_of_le hswitches with hlt | heq
  · exact rank_lt_of_switches hlt
  · exact Prod.Lex.toLex_lt_toLex.mpr (.inr ⟨heq, Prod.Lex.toLex_lt_toLex.mpr (.inl h)⟩)

theorem rank_lt_of_strain (hswitches : b.switches ≤ a.switches) (hload : b.load ≤ a.load)
    (h : b.strain < a.strain) : b.rank < a.rank := by
  rcases Nat.lt_or_eq_of_le hswitches with hlt | heq
  · exact rank_lt_of_switches hlt
  · rcases Nat.lt_or_eq_of_le hload with hlt | heq'
    · exact rank_lt_of_load hswitches hlt
    · exact Prod.Lex.toLex_lt_toLex.mpr
        (.inr ⟨heq, Prod.Lex.toLex_lt_toLex.mpr (.inr ⟨heq', h⟩)⟩)

theorem Lowers.rank_lt (h : Lowers old fresh) (hswap : Swap old fresh a b) :
    b.rank < a.rank := by
  have hswitches : b.switches + old.switches ≤ a.switches + (fresh.map Term.switches).getD 0 :=
    hswap.total_le switchWeight_le
  have hload : b.load + old.load ≤ a.load + (fresh.map Term.load).getD 0 :=
    hswap.total_le loadWeight_le
  cases h with
  | switches hless => exact rank_lt_of_switches (by omega)
  | load hsame hless => exact rank_lt_of_load (by omega) (by omega)
  | strain hfresh hsame hsame' hcore hless =>
      subst hfresh
      have hstrain := hswap.strain_le hcore
      simp only [Option.map_some, Option.getD_some] at hswitches hload
      exact rank_lt_of_strain (by omega) (by omega) (by omega)

/-! ## Sums of constructed terms -/

/-- A weight that parentheses, negations, literals and blocks do not have, and that all
chains have alike. -/
structure Steady (weight : Head → Option TypeDesc → Nat → Nat) : Prop where
  paren : ∀ type slots, weight .paren type slots = 0
  negation : ∀ type slots, weight (.prefixed .not) type slots = 0
  literal : ∀ value type slots, weight (.literal value) type slots = 0
  name : ∀ text binding type slots, weight (.name text binding) type slots = 0
  block : ∀ type slots, weight .block type slots = 0
  exprStmt : ∀ type slots, weight .exprStmt type slots = 0
  varDecl : ∀ text binding type slots, weight (.varDecl text binding) type slots = 0
  chain : ∀ op type slots op' type' slots',
    weight (.chain op) type slots = weight (.chain op') type' slots'

theorem steady_switchWeight : Steady switchWeight := by
  constructor <;> intros <;> rfl

theorem steady_loadWeight : Steady loadWeight := by
  constructor <;> intros <;> rfl

variable {term : Term}

theorem Steady.total_paren (h : Steady weight) (term : Term) :
    total weight term.paren = total weight term := by
  simp [Term.paren, total_node, h.paren]

theorem Steady.total_wrap (h : Steady weight) (outer : Nat) (term : Term) :
    total weight (term.wrap outer) = total weight term := by
  unfold wrap
  split
  · exact h.total_paren term
  · rfl

theorem Steady.total_fit (h : Steady weight) (outer : Option Nat) (term : Term) :
    total weight (term.fit outer) = total weight term := by
  cases outer with
  | none => rfl
  | some outer => exact h.total_wrap outer term

theorem Steady.total_bare (h : Steady weight) (term : Term) :
    total weight term.bare = total weight term := by
  induction term with
  | node head type subs ih =>
      unfold bare
      split
      · next type' inner heq =>
          cases heq
          rw [ih inner (List.mem_singleton_self _), total_node, h.paren]
          simp
      · rfl

theorem Steady.total_boolLit (h : Steady weight) (value : Bool) :
    total weight (boolLit value) = 0 := by
  simp [boolLit, total_node, h.literal]

theorem Steady.total_not (h : Steady weight) (term : Term) :
    total weight term.not = total weight term := by
  simp [Term.not, total_node, h.negation, h.total_wrap]

theorem Steady.total_negate_le (h : Steady weight) (invert : Bool) (term : Term) :
    total weight (term.negate invert) ≤ total weight term := by
  rw [← h.total_bare term]
  unfold negate
  split
  · next type operand hbare => rw [hbare, total_node]; simp
  · rw [h.total_boolLit]
    exact Nat.zero_le _
  · next op type left right hbare =>
      split
      · rw [hbare, Term.chain, total_node, total_node]
        exact Nat.le_of_eq (congrArg (· + _) (h.chain ..))
      · rw [h.total_not, h.total_bare]
  · rw [h.total_not, h.total_bare]

theorem Steady.total_join_le (h : Steady weight) (op op' : InfixOp) (type : Option TypeDesc)
    (terms : List Term) :
    total weight (join op terms) ≤ total weight (node (.chain op') type terms) := by
  unfold join
  split
  · rw [total_node]
    simp
  · rw [Term.chain, total_node, total_node, List.map_map]
    have hwrap : total weight ∘ wrap op.strength = total weight :=
      funext (h.total_wrap op.strength)
    rw [hwrap]
    exact Nat.le_of_eq (congrArg (· + _) (h.chain ..))

theorem sum_map_le {f g : Term → Nat} {terms : List Term}
    (h : ∀ term, term ∈ terms → f term ≤ g term) :
    (terms.map f).sum ≤ (terms.map g).sum := by
  induction terms with
  | nil => exact Nat.le_refl _
  | cons term rest ih =>
      have hrest := ih fun other hother => h other (List.mem_cons_of_mem _ hother)
      have hterm := h term (List.mem_cons_self ..)
      simp only [List.map_cons, List.sum_cons]
      omega

theorem Steady.total_push_le (h : Steady weight) (term : Term) :
    total weight term.push ≤ total weight term := by
  induction term with
  | node head type subs ih =>
      rcases push_form (.node head type subs) with
        ⟨_, inner, ⟨⟩⟩ | ⟨op, dual, _, _, ⟨⟩, hdual⟩ | ⟨-, hnegate⟩
      · rw [push_paren, total_node, h.paren]
        simpa using ih inner (List.mem_singleton_self _)
      · rw [push_of_dual type subs hdual, h.total_paren]
        refine Nat.le_trans (h.total_join_le dual op type _) ?_
        rw [total_node, total_node, List.length_map, List.map_map]
        exact Nat.add_le_add_left (sum_map_le ih) _
      · rw [hnegate]
        exact h.total_negate_le _ _

/-! ## Negations pushed down -/

theorem core_paren (term : Term) : core term.paren = core term := by
  have hpos := core_pos term
  simp only [paren, core_node, List.map_cons, List.map_nil, List.sum_singleton]
  omega

theorem strain_paren (term : Term) : strain term.paren = strain term := by
  simp [paren, strain_node]

theorem core_wrap (outer : Nat) (term : Term) : core (term.wrap outer) = core term := by
  unfold wrap
  split
  · exact core_paren term
  · rfl

theorem strain_wrap (outer : Nat) (term : Term) : strain (term.wrap outer) = strain term := by
  unfold wrap
  split
  · exact strain_paren term
  · rfl

theorem core_fit (outer : Option Nat) (term : Term) : core (term.fit outer) = core term := by
  cases outer with
  | none => rfl
  | some outer => exact core_wrap outer term

theorem strain_fit (outer : Option Nat) (term : Term) :
    strain (term.fit outer) = strain term := by
  cases outer with
  | none => rfl
  | some outer => exact strain_wrap outer term

theorem core_not (term : Term) : core term.not = core term := by
  have hpos := core_pos term
  simp only [Term.not, core_node, List.map_cons, List.map_nil, List.sum_singleton, core_wrap]
  omega

theorem strain_not (term : Term) : strain term.not = core term + strain term := by
  simp [Term.not, strain_node, core_wrap, strain_wrap]

theorem core_join_le (op op' : InfixOp) (type : Option TypeDesc) (terms : List Term) :
    core (join op terms) ≤ core (node (.chain op') type terms) := by
  unfold join
  split
  · simp [core_node]
  · have hwrap : core ∘ wrap op.strength = core := funext (core_wrap op.strength)
    simp only [chain, core_node, List.map_map, hwrap]
    exact Nat.le_refl _

theorem strain_join (op : InfixOp) (terms : List Term) :
    strain (join op terms) = (terms.map strain).sum := by
  unfold join
  split
  · simp
  · have hwrap : strain ∘ wrap op.strength = strain := funext (strain_wrap op.strength)
    simp [chain, strain_node, List.map_map, hwrap]

theorem core_negate_le (invert : Bool) (term : Term) (hbare : term.bare = term) :
    core (term.negate invert) ≤ core term := by
  have hpos := core_pos term
  unfold negate
  rw [hbare]
  split
  · simp only [core_node, List.map_cons, List.map_nil, List.sum_singleton]
    omega
  · simp only [boolLit, core_node, List.map_nil, List.sum_nil]
    omega
  · split
    · simp only [chain, core_node]
      exact Nat.le_refl _
    · exact Nat.le_of_eq (core_not _)
  · exact Nat.le_of_eq (core_not _)

theorem strain_negate_le (invert : Bool) (term : Term) (hbare : term.bare = term) :
    strain (term.negate invert) ≤ core term + strain term := by
  unfold negate
  rw [hbare]
  split
  · simp only [strain_node, List.map_cons, List.map_nil, List.sum_singleton]
    omega
  · simp [boolLit, strain_node]
  · split
    · simp [chain, strain_node]
    · exact Nat.le_of_eq (strain_not _)
  · exact Nat.le_of_eq (strain_not _)

theorem negate_not (invert : Bool) (type : Option TypeDesc) (operand : Term) :
    negate invert (node (.prefixed .not) type [operand]) = operand := by
  unfold negate
  rw [bare_of_ne_paren (by simp)]

theorem negate_literal (invert value : Bool) (type : Option TypeDesc) (subs : List Term) :
    negate invert (node (.literal (.bool value)) type subs) = boolLit !value := by
  unfold negate
  rw [bare_of_ne_paren (by simp)]

theorem negate_of_inverse {op inverse : InfixOp} (type : Option TypeDesc) (left right : Term)
    (h : op.inverse? = some inverse) :
    negate true (node (.chain op) type [left, right]) = chain inverse [left, right] := by
  unfold negate
  rw [bare_of_ne_paren (by simp)]
  simp only [if_true, h]

theorem covered_form (hbare : term.bare = term) (h : term.isCovered = true) :
    (∃ type operand, term = node (.prefixed .not) type [operand]) ∨
      (∃ value type subs, term = node (.literal (.bool value)) type subs) ∨
      (∃ op dual type subs, term = node (.chain op) type subs ∧ op.dual? = some dual) ∨
      (∃ op inverse type left right, term = node (.chain op) type [left, right] ∧
        term.isInvertible = true ∧ op.inverse? = some inverse) := by
  cases term with
  | node head type subs =>
      unfold isCovered at h
      rw [hbare, head_node, subs_node] at h
      split at h
      · obtain ⟨operand, rfl⟩ := List.length_eq_one_iff.mp (by simpa using h)
        exact .inl ⟨type, operand, rfl⟩
      · next op =>
          rcases Bool.or_eq_true_iff.mp h with hdual | hinvert
          · obtain ⟨dual, hdual⟩ := Option.isSome_iff_exists.mp hdual
            exact .inr (.inr (.inl ⟨op, dual, type, subs, rfl, hdual⟩))
          · have hform := hinvert
            unfold isInvertible at hform
            rw [hbare] at hform
            simp only [Bool.and_eq_true, beq_iff_eq] at hform
            obtain ⟨left, right, rfl⟩ := List.length_eq_two.mp hform.1.1
            obtain ⟨inverse, hinverse⟩ := Option.isSome_iff_exists.mp hform.1.2
            exact .inr (.inr (.inr ⟨op, inverse, type, left, right, rfl, hinvert, hinverse⟩))
      · unfold boolLiteral? at h
        rw [hbare, head_node] at h
        split at h
        · exact .inr (.inl ⟨_, type, subs, rfl⟩)
        · cases h

theorem core_push_le (term : Term) : core term.push ≤ core term := by
  induction term with
  | node head type subs ih =>
      rcases push_form (.node head type subs) with
        ⟨_, inner, ⟨⟩⟩ | ⟨op, dual, _, _, ⟨⟩, hdual⟩ | ⟨hbare, hnegate⟩
      · have hinner := ih inner (List.mem_singleton_self _)
        rw [push_paren]
        simp only [core_node, List.map_cons, List.map_nil, List.sum_singleton]
        omega
      · rw [push_of_dual type subs hdual, core_paren]
        refine Nat.le_trans (core_join_le dual op type _) ?_
        simp only [core_node, List.map_map]
        exact Nat.add_le_add_right (sum_map_le ih) 1
      · rw [hnegate]
        exact core_negate_le _ _ hbare

theorem strain_push_of_dual {op dual : InfixOp} (type : Option TypeDesc) {subs : List Term}
    (hdual : op.dual? = some dual)
    (hsubs : ∀ sub, sub ∈ subs → strain sub.push ≤ core sub + strain sub) :
    strain (push (node (.chain op) type subs)) <
      core (node (.chain op) type subs) + strain (node (.chain op) type subs) := by
  have hsum := sum_map_le (g := fun sub => core sub + strain sub) hsubs
  rw [List.sum_map_add] at hsum
  rw [push_of_dual type subs hdual, strain_paren, strain_join, List.map_map]
  simp only [core_node, strain_node, reduceCtorEq, if_false]
  have hcomp : (strain ∘ push) = fun sub => strain sub.push := rfl
  rw [hcomp]
  omega

theorem strain_push_le (term : Term) : strain term.push ≤ core term + strain term := by
  induction term with
  | node head type subs ih =>
      rcases push_form (.node head type subs) with
        ⟨_, inner, ⟨⟩⟩ | ⟨op, dual, _, _, ⟨⟩, hdual⟩ | ⟨hbare, hnegate⟩
      · have hinner := ih inner (List.mem_singleton_self _)
        rw [push_paren]
        simp only [core_node, strain_node, List.map_cons, List.map_nil, List.sum_singleton]
        omega
      · exact Nat.le_of_lt (strain_push_of_dual type hdual ih)
      · rw [hnegate]
        exact strain_negate_le _ _ hbare

theorem bare_bare (term : Term) : term.bare.bare = term.bare := by
  induction term with
  | node head type subs ih =>
      rcases push_form (.node head type subs) with
        ⟨_, inner, ⟨⟩⟩ | ⟨op, dual, _, _, ⟨⟩, hdual⟩ | ⟨hbare, -⟩
      · rw [bare_paren]
        exact ih inner (List.mem_singleton_self _)
      · have hbare : (node (.chain op) type subs).bare = _ := bare_of_ne_paren (by simp)
        rw [hbare, hbare]
      · rw [hbare, hbare]

theorem core_bare (term : Term) : core term.bare = core term := by
  induction term with
  | node head type subs ih =>
      unfold bare
      split
      · next type' inner heq =>
          cases heq
          have hpos := core_pos inner
          rw [ih inner (List.mem_singleton_self _), core_node]
          simp only [List.map_cons, List.map_nil, List.sum_singleton]
          omega
      · rfl

theorem strain_bare (term : Term) : strain term.bare = strain term := by
  induction term with
  | node head type subs ih =>
      unfold bare
      split
      · next type' inner heq =>
          cases heq
          rw [ih inner (List.mem_singleton_self _), strain_node]
          simp
      · rfl

theorem strain_push_lt (hcovered : term.isCovered = true) :
    strain term.push < core term + strain term := by
  have hbare : term.bare.bare = term.bare := bare_bare term
  have hself : term.bare.isCovered = true := by
    unfold isCovered at hcovered ⊢
    rwa [hbare]
  rw [← push_bare, ← core_bare, ← strain_bare term]
  have hpos := core_pos term.bare
  rcases covered_form hbare hself with ⟨type, operand, hform⟩ | ⟨value, type, subs, hform⟩ |
    ⟨op, dual, type, subs, hform, hdual⟩ | ⟨op, inverse, type, left, right, hform, hinvert, hop⟩
  · have hoperand := core_pos operand
    rw [hform, push_eq_negate (by simp) (by simp), negate_not]
    simp only [strain_node, core_node, List.map_cons, List.map_nil, List.sum_singleton]
    omega
  · rw [hform] at hpos ⊢
    rw [push_eq_negate (by simp) (by simp), negate_literal]
    simp only [boolLit, strain_node, List.map_nil, List.sum_nil, reduceCtorEq, if_false]
    omega
  · rw [hform]
    exact strain_push_of_dual type hdual fun sub _ => strain_push_le sub
  · rw [hform] at hpos hinvert ⊢
    by_cases hdual : op.dual?.isSome = true
    · obtain ⟨dual, hdual⟩ := Option.isSome_iff_exists.mp hdual
      exact strain_push_of_dual type hdual fun sub _ => strain_push_le sub
    · rw [push_eq_negate (by simp) (by rintro _ ⟨⟩; simpa using hdual), hinvert]
      rw [negate_of_inverse type left right hop]
      simp only [chain, strain_node, reduceCtorEq, if_false]
      omega

end Term

end CodeTidy
