import CodeTidy.Proofs.Calculation
import CodeTidy.Proofs.Caution

/-!
# Passive expressions that are dropped

A passive expression of a valid tree does as foretold in every world that binds its names, so it
has a value unless its evaluation comes to a division by zero or to a field of nothing.  Three
rules drop passive expressions.  Where there is a value, that makes no difference
(`Store.passive_is_droppable`).
-/

namespace CodeTidy

/-! ## Passive expressions -/

namespace Store

def isQualified (store : Store) (id : NodeId) : Bool :=
  match store.kind id with
  | .qualified _ _ => true
  | _ => false

def isName (store : Store) (id : NodeId) : Bool :=
  match store.kind id with
  | .name _ _ | .qualified _ _ => true
  | _ => false

/-- The names at or below a node.  What stands in a qualified name is not a name by itself. -/
def names (store : Store) (id : NodeId) : List NodeId :=
  (store.listing (store.childrenUnless store.isQualified) id).filter store.isName

variable {store : Store} {id child : NodeId}

theorem IsBounded.names_eq (h : store.IsBounded id) :
    store.names id = [id].filter store.isName ++
      (store.childrenUnless store.isQualified id).flatMap store.names := by
  rw [names, h.listing_eq (store.childrenUnless_subset _), ← List.singleton_append,
    List.filter_append, List.filter_flatMap]
  rfl

theorem IsBounded.mem_names (h : store.IsBounded id) (hname : store.isName id = true) :
    id ∈ store.names id := by
  rw [h.names_eq]
  exact List.mem_append_left _ (by simp [hname])

theorem IsBounded.names_subset (h : store.IsBounded id) (hopen : store.isQualified id = false)
    (hchild : child ∈ store.children id) : store.names child ⊆ store.names id := by
  intro name hname
  rw [h.names_eq]
  refine List.mem_append_right _ (List.mem_flatMap.mpr ⟨child, ?_, hname⟩)
  rwa [childrenUnless, hopen]

variable {World Val Thrown : Type} {calculation : Calculation World Val Thrown} {world : World}

open Calculation in
/-- A passive expression does as foretold in every world that binds its names. -/
theorem IsBounded.foretold (h : store.IsBounded id) (hpassive : store.isPassive id = true)
    (hbound : ∀ name, name ∈ store.names id → calculation.Binds world (store.term name)) :
    calculation.Foretold world (store.term id) := by
  rw [h.isPassive_term] at hpassive
  induction h using IsBounded.induct with
  | node id h ih =>
      have hterm := h.term_eq
      rw [hterm, Term.isPassive_node] at hpassive
      -- unless the node is a dotted name, its slots are passive too and have no other names
      have hslots : store.isQualified id = false →
          ((store.children id).map store.term).all Term.isPassive = true →
          ∀ child, child ∈ store.children id →
            calculation.Foretold world (store.term child) := by
        intro hopen hall child hchild
        refine ih child hchild ?_ ?_
        · exact List.all_eq_true.mp hall _ (List.mem_map_of_mem hchild)
        · exact fun name hname => hbound name (h.names_subset hopen hchild hname)
      have hself : store.isName id = true → calculation.Binds world (store.term id) :=
        fun hname => hbound id (h.mem_names hname)
      unfold children at hterm hslots hpassive
      unfold isQualified at hslots
      unfold isName at hself
      rw [hterm] at hself ⊢
      generalize store.kind id = kind at hpassive hslots hself ⊢
      cases kind with
      | literal value => exact foretold_literal value _
      | name text binding => exact foretold_name (hself rfl)
      | qualified qualifier simple => exact foretold_qualified (hself rfl)
      | field target label =>
          exact foretold_field (hslots rfl hpassive target (List.mem_singleton_self _)) label _
      | paren inner =>
          exact foretold_paren (hslots rfl hpassive inner (List.mem_singleton_self _)) _
      | prefixed op operand =>
          obtain ⟨hop, hall⟩ := Bool.and_eq_true_iff.mp hpassive
          rw [Bool.not_eq_true'] at hop
          exact foretold_prefixed hop (hslots rfl hall operand (List.mem_singleton_self _)) _
      | chain op operands =>
          refine foretold_chain (fun operand hoperand => ?_) op _
          obtain ⟨child, hchild, rfl⟩ := List.mem_map.mp hoperand
          exact hslots rfl hpassive child hchild
      | _ => cases hpassive

end Store

/-! ## Rules that drop them -/

/-- Expressions that are statements by themselves when they are kept. -/
def Kind.standsAlone : Kind → Bool
  | call _ _ _ | assign _ _ _ => true
  | _ => false

/-- A rule acts on a node of the tree, and where the old code evaluates an expression the new code
may leave that out. -/
inductive Dropped (options : Options) (store : Store) (root : NodeId) : NodeId → Prop where
  /-- The condition of a conditional without statements, unless it is kept. -/
  | condition {node cond thenBranch : NodeId} {elseBranch : Option NodeId} {response : Response}
      {drafted : Store} (hnode : node ∈ store.preorder root)
      (hkind : store.kind node = .ifStmt cond thenBranch elseBranch)
      (hthen : store.isEmptyBranch (some thenBranch) = true)
      (helse : store.isEmptyBranch elseBranch = true)
      (hrun : DeadBranch.respond options node store = .ok (response, drafted))
      (hedits : response.edits ≠ [])
      (hlost : (store.kind (store.unparenthesized cond)).standsAlone = false) :
      Dropped options store root cond
  /-- The subject of a switch: each label is tested by itself. -/
  | subject {node subject : NodeId} {body : List NodeId} {response : Response} {drafted : Store}
      (hnode : node ∈ store.preorder root) (hkind : store.kind node = .switchStmt subject body)
      (hrun : TwoWaySwitch.respond options node store = .ok (response, drafted))
      (hedits : response.edits ≠ []) : Dropped options store root subject
  /-- The receiver of a size test that always has the same answer. -/
  | receiver {node receiver : NodeId} {value : Bool} {response : Response} {drafted : Store}
      (hnode : node ∈ store.preorder root)
      (htest : EmptinessTest.sizeTest? store options (store.kind node) =
        some (receiver, .always value))
      (hrun : EmptinessTest.respond options node store = .ok (response, drafted))
      (hedits : response.edits ≠ []) : Dropped options store root receiver

theorem Decides.of_edits {computation : Build Response} {store drafted : Store} {wanted : Bool}
    {response : Response} (h : Decides computation store wanted)
    (hrun : computation store = .ok (response, drafted)) (hedits : response.edits ≠ []) :
    wanted = true := by
  cases wanted with
  | true => rfl
  | false =>
      rw [show computation store = .ok (.decline, store) from h] at hrun
      cases hrun
      exact absurd rfl hedits

theorem DeadBranch.wantsEmptyIf_eq (store : Store) (cond : NodeId) :
    wantsEmptyIf store cond = (store.isPassive cond ||
      (store.kind (store.unparenthesized cond)).standsAlone) := by
  unfold wantsEmptyIf
  cases store.kind (store.unparenthesized cond) <;> rfl

namespace Store

variable {store : Store} {root expr : NodeId} {options : Options}

theorem IsBounded.isPassive_unparenthesized (h : store.IsBounded expr) :
    store.isPassive (store.unparenthesized expr) = store.isPassive expr := by
  rw [h.unparenthesized.isPassive_term, h.isPassive_term, ← h.bare_term, Term.isPassive_bare]

theorem IsBounded.isPassive_of_boolLiteral? (h : store.IsBounded expr)
    (hliteral : (store.boolLiteral? expr).isSome = true) : store.isPassive expr = true := by
  rw [← h.isPassive_unparenthesized, h.unparenthesized.isPassive_term,
    h.unparenthesized.term_eq, Term.isPassive_node]
  unfold boolLiteral? at hliteral
  split at hliteral
  · next value hkind => rw [hkind]; rfl
  · cases hliteral

theorem IsBounded.isPassive_of_dropped (hroot : store.IsBounded root)
    (h : Dropped options store root expr) : store.isPassive expr = true := by
  cases h with
  | @condition node _ thenBranch elseBranch _ _ hnode hkind hthen helse hrun hedits hlost =>
      have hbounded := hroot.of_mem_preorder hnode
      have hcond : store.IsBounded expr :=
        hbounded.slot (by rw [children, hkind]; exact List.mem_cons_self ..)
      have hwants := (DeadBranch.decides_respond hbounded.lt).of_edits hrun hedits
      simp only [DeadBranch.wants, DeadBranch.wantsIf, hkind, hthen, helse, Bool.and_self,
        if_true, DeadBranch.wantsEmptyIf_eq, hlost, Bool.or_false] at hwants
      split at hwants
      · next hliteral => exact hcond.isPassive_of_boolLiteral? hliteral
      · exact hwants
  | subject hnode hkind hrun hedits =>
      have hbounded := hroot.of_mem_preorder hnode
      have hwants := (TwoWaySwitch.decides_respond hbounded.lt).of_edits hrun hedits
      simp only [TwoWaySwitch.wants, hkind, TwoWaySwitch.plan?] at hwants
      split at hwants
      · assumption
      · cases hwants
  | receiver hnode htest hrun hedits =>
      have hbounded := hroot.of_mem_preorder hnode
      have hwants := (EmptinessTest.decides_respond hbounded.lt).of_edits hrun hedits
      unfold EmptinessTest.wants at hwants
      rw [htest] at hwants
      exact hwants

variable {State Effect Val Thrown : Type}

/-- Evaluating a passive expression, in a world that binds its names, changes neither the state
nor the trace.  It throws exactly if it comes to a division of an integer by zero or to a field
of nothing; otherwise it has a value, and whatever comes next does the same without it.  What
the rules drop is passive. -/
theorem passive_is_droppable (hroot : store.ValidAt root) (hexpr : expr ∈ store.preorder root)
    (hpassive : store.isPassive expr = true ∨ Dropped options store root expr)
    (calculation : Calculation (Traced State Effect) Val Thrown) (world : Traced State Effect)
    (hbound : ∀ name, name ∈ store.names expr → calculation.Binds world (store.term name)) :
    ((calculation.eval (store.term expr)).Throws world ↔
      calculation.Fails world (store.term expr)) ∧
    (¬ calculation.Fails world (store.term expr) →
      (∃ value, (calculation.eval (store.term expr)).Reads world value) ∧
      ∀ (Result : Type) (next : Action (Traced State Effect) Thrown Result),
        (calculation.eval (store.term expr) >>= fun _ => next).outcome world =
          next.outcome world) := by
  have hbounded := hroot.isBounded.of_mem_preorder hexpr
  have hsure : store.isPassive expr = true :=
    hpassive.elim id (fun hdropped => hroot.isBounded.isPassive_of_dropped hdropped)
  cases hbounded.foretold hsure hbound with
  | value result reads safe =>
      refine ⟨iff_of_false reads.not_throws safe, fun _ => ⟨⟨result, reads⟩, ?_⟩⟩
      exact fun Result next => reads.outcome_bind
  | thrown throws failed => exact ⟨iff_of_true throws failed, fun hsafe => absurd failed hsafe⟩

/-- The unit `if (y != 0 && x / y == 1) {}`. -/
def guardedQuotient : Store where
  nodes := #[
    ⟨.name "y" none, none, some 2, false⟩,
    ⟨.literal (.int 0), none, some 2, false⟩,
    ⟨.chain .notEquals [0, 1], none, some 8, false⟩,
    ⟨.name "x" none, none, some 5, false⟩,
    ⟨.name "y" none, none, some 5, false⟩,
    ⟨.chain .divide [3, 4], none, some 7, false⟩,
    ⟨.literal (.int 1), none, some 7, false⟩,
    ⟨.chain .equals [5, 6], none, some 8, false⟩,
    ⟨.chain .conditionalAnd [2, 7], none, some 10, false⟩,
    ⟨.block [], none, some 10, false⟩,
    ⟨.ifStmt 8 9 none, none, some 11, false⟩,
    ⟨.unit [10], none, none, false⟩]

/-- Where `y` is zero, nothing is divided by it. -/
theorem passive_is_droppable_guarded :
    Dropped {} guardedQuotient 11 8 ∧
      ¬ Calculator.calculation.Fails ⟨⟨fun _ => .int 0, fun _ _ => .null⟩, []⟩
        (guardedQuotient.term 8) ∧
      ∀ next : Calculator.Act Unit,
        (Calculator.calculation.eval (guardedQuotient.term 8) >>= fun _ => next).outcome
            ⟨⟨fun _ => .int 0, fun _ _ => .null⟩, []⟩ =
          next.outcome ⟨⟨fun _ => .int 0, fun _ _ => .null⟩, []⟩ := by
  obtain ⟨response, drafted, hrun, hsome⟩ :=
    @Build.exists_outcome guardedQuotient _ (DeadBranch.respond {} 10)
      (fun outcome => !outcome.1.edits.isEmpty) (by decide +kernel)
  have hdropped : Dropped {} guardedQuotient 11 8 :=
    .condition (by decide +kernel) rfl rfl rfl hrun (by simpa using hsome) rfl
  have hreads : (Calculator.calculation.eval (guardedQuotient.term 8)).Reads
      ⟨⟨fun _ => .int 0, fun _ _ => .null⟩, []⟩ (.bool false) := rfl
  have hnames : guardedQuotient.names 8 = [0, 3, 4] := by decide +kernel
  obtain ⟨hfails, hdrop⟩ := @passive_is_droppable guardedQuotient 11 8 {} _ _ _ _
    (by decide +kernel) (by decide +kernel) (.inr hdropped) Calculator.calculation
    ⟨⟨fun _ => .int 0, fun _ _ => .null⟩, []⟩ (by
      intro name hname
      simp only [hnames, List.mem_cons, List.not_mem_nil, or_false] at hname
      rcases hname with rfl | rfl | rfl <;> exact .inl ⟨.int 0, rfl⟩)
  have hsafe := mt hfails.mpr hreads.not_throws
  exact ⟨hdropped, hsafe, (hdrop hsafe).2 Unit⟩

end Store

namespace Engine

/-- The unit `if (1 / 0 == 1) {} after();`. -/
def lostDivision : Source where
  store :=
    { nodes := #[
        ⟨.literal (.int 1), none, some 2, false⟩,
        ⟨.literal (.int 0), none, some 2, false⟩,
        ⟨.chain .divide [0, 1], none, some 4, false⟩,
        ⟨.literal (.int 1), none, some 4, false⟩,
        ⟨.chain .equals [2, 3], none, some 6, false⟩,
        ⟨.block [], none, some 6, false⟩,
        ⟨.ifStmt 4 5 none, none, some 9, false⟩,
        ⟨.call none "after" [], none, some 8, false⟩,
        ⟨.exprStmt 7, none, some 9, false⟩,
        ⟨.unit [6, 8], none, none, false⟩] }
  root := 9

/-- The condition is passive and throws in every world.  The run leaves only the call. -/
theorem run_drops_exception :
    lostDivision.WellFormed ∧ lostDivision.store.isPassive 4 = true ∧
      lostDivision.store.names 4 = [] ∧
      (∀ world,
        (Calculator.calculation.eval (lostDivision.store.term 4)).Throws world) ∧
      ∃ report after, Engine.run ⟨{}, [DeadBranch.rule]⟩ lostDivision false =
        .ok (report, after) ∧ after.store.children after.root = [8] :=
  ⟨by decide +kernel, by decide +kernel, by decide +kernel, fun _ => ⟨.arithmetic, rfl⟩, _, _,
    rfl, by decide +kernel⟩

end Engine

end CodeTidy
