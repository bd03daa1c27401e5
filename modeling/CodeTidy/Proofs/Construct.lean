import CodeTidy.Proofs.Commit
import CodeTidy.Proofs.Reading
import CodeTidy.Store.Construct

/-!
# Constructed trees

Each constructor of `Build` has a counterpart on terms, and its lemma says that it
never faults on loose trees and drafts a tree with that term.
-/

namespace CodeTidy

/-! ## Live subtrees -/

/-- A subtree that stands in a slot of the live tree. -/
structure Tree.Live (base : Store) (tree : Tree) : Prop where
  held : ∃ owner, tree.Held base (some owner)
  live : base.isErased tree.id = false
  nodup : tree.ids.Nodup

namespace Tree

variable {base : Store} {tree below : Tree}

theorem Live.sub (h : tree.Live base) (hsub : below ∈ tree.subs) : below.Live base where
  held := by
    obtain ⟨owner, hheld⟩ := h.held
    exact ⟨tree.id, hheld.sub hsub⟩
  live := by
    obtain ⟨owner, hheld⟩ := h.held
    exact hheld.live hsub
  nodup := nodup_ids_of_mem h.nodup (sub_mem_subtrees hsub)

theorem Live.of_mem (h : tree.Live base) (hmem : below ∈ tree.subtrees) : below.Live base := by
  induction tree with
  | node id head type subs ih =>
      rcases mem_subtrees_iff.mp hmem with rfl | ⟨sub, hsub, hin⟩
      · exact h
      · exact ih sub hsub (h.sub hsub) hin

theorem Live.laid (h : tree.Live base) : tree.Laid base := by
  obtain ⟨owner, hheld⟩ := h.held
  exact hheld.laid

theorem Live.legible (h : tree.Live base) : tree.Legible base where
  laid := h.laid
  height_le := h.laid.height_le h.nodup

end Tree

theorem Tree.Held.live_of_mem {store : Store} {tree below : Tree} {owner : Option NodeId}
    (h : tree.Held store owner) (hnodup : tree.ids.Nodup) (hmem : below ∈ tree.subtrees)
    (hne : below ≠ tree) : below.Live store := by
  obtain ⟨holder, hholder, hslot⟩ := Tree.exists_holder hmem hne
  refine ⟨⟨holder.id, h.of_slot hholder hslot⟩, ?_, Tree.nodup_ids_of_mem hnodup hmem⟩
  obtain ⟨above, habove⟩ := h.of_mem hholder
  exact habove.live hslot

theorem Store.Holds.live {store : Store} {tree below : Tree} (h : store.Holds tree)
    (hmem : below ∈ tree.subtrees) (hne : below ≠ tree) : below.Live store :=
  h.held.live_of_mem h.nodup hmem hne

namespace Draft

variable {base store : Store} {region : List NodeId} {tree : Tree} {trees : List Tree}

/-! ## Taking and breaking apart -/

/-- The nodes that may be taken can only become more. -/
theorem widen {wider : List NodeId} (h : Draft base region store trees)
    (hsub : region ⊆ wider) : Draft base wider store trees :=
  ⟨h.grows, h.old, h.typed, h.once, h.moving, h.held, h.loose, h.apart,
    fun id hid => (h.origin id hid).imp_right (fun hin => hsub hin)⟩

/-- They can become fewer as far as no loose tree has them. -/
theorem narrow {fewer : List NodeId} (h : Draft base region store trees)
    (hkeep : ∀ id, id ∈ trees.flatMap Tree.ids → id ∈ region → id ∈ fewer) :
    Draft base fewer store trees :=
  ⟨h.grows, h.old, h.typed, h.once, h.moving, h.held, h.loose, h.apart,
    fun id hid => (h.origin id hid).imp_right (hkeep id hid)⟩

theorem legible_live (h : Draft base region store trees) (hlive : tree.Live base) :
    tree.Legible store where
  laid := h.laid_old hlive.laid
  height_le := Nat.le_trans hlive.legible.height_le h.grows.size

theorem claim?_new (h : Draft base region store trees) {id : NodeId} (hid : base.size ≤ id) :
    store.claim? id = none := by
  rw [Store.claim?_eq_none_iff]
  rintro move hmove rfl
  exact absurd (h.moving move hmove).1 (Nat.not_lt.mpr hid)

theorem legible (h : Draft base region store trees) (hmem : tree ∈ trees) :
    tree.Legible store :=
  ⟨h.laid hmem, h.height_le hmem⟩

theorem take_live (h : Draft base region store trees) (hlive : tree.Live base)
    (hnew : List.Disjoint tree.ids region) :
    ∃ later, Build.take tree.id store = .ok (.moved tree.id, later) ∧
      Draft base (tree.ids ++ region) later (tree :: trees) := by
  obtain ⟨owner, hheld⟩ := hlive.held
  apply (h.widen (List.subset_append_right tree.ids region)).take hheld hlive.live hlive.nodup
    (List.subset_append_left _ _)
  intro id hid hother
  rcases h.origin id hother with hfresh | hin
  · exact absurd (hlive.laid.lt hid) (Nat.not_lt.mpr hfresh)
  · exact hnew hid hin

theorem take_all {parts : List Tree} (h : Draft base region store trees)
    (hlive : ∀ part, part ∈ parts → part.Live base)
    (hnodup : (parts.flatMap Tree.ids).Nodup)
    (hnew : List.Disjoint (parts.flatMap Tree.ids) region) :
    ∃ later, (parts.map Tree.id).mapM Build.take store =
        .ok (parts.map (fun part => Child.moved part.id), later) ∧
      Draft base (parts.flatMap Tree.ids ++ region) later (parts ++ trees) := by
  induction parts generalizing region store trees with
  | nil => exact ⟨store, rfl, h⟩
  | cons part parts ih =>
      rw [List.flatMap_cons, List.nodup_append'] at hnodup
      rw [List.flatMap_cons, List.disjoint_append_left] at hnew
      obtain ⟨middle, hrun, hmiddle⟩ := h.take_live (hlive part (by simp)) hnew.1
      obtain ⟨later, hruns, hlater⟩ := ih hmiddle
        (fun other hother => hlive other (List.mem_cons_of_mem _ hother)) hnodup.2.1
        (List.disjoint_append_right.mpr ⟨List.disjoint_symm hnodup.2.2, hnew.2⟩)
      refine ⟨later, ?_, ?_⟩
      · rw [List.map_cons, List.mapM_cons, Build.bind_ok hrun, Build.bind_ok hruns]
        rfl
      · refine (hlater.perm List.perm_middle).widen ?_
        intro id hid
        simp only [List.flatMap_cons, List.mem_append] at hid ⊢
        tauto

/-- Breaking a taken tree apart hands out parts of it, and what is left of it may be taken
again. -/
theorem dissolve_narrow {parts : List Tree} (h : Draft base region store (tree :: trees))
    (hlive : tree.Live base) (hparts : ∀ part, part ∈ parts → part ∈ tree.subtrees)
    (hnodup : (parts.flatMap Tree.ids).Nodup) :
    ∃ later, Build.dissolve (.moved tree.id) (parts.map Tree.id) store =
        .ok (parts.map (fun part => Child.moved part.id), later) ∧
      Draft base (parts.flatMap Tree.ids ++ region.filter (fun id => id ∉ tree.ids)) later
        (parts ++ trees) := by
  obtain ⟨owner, hheld⟩ := hlive.held
  have hapart := h.apart
  rw [List.flatMap_cons, List.nodup_append'] at hapart
  have hnarrow : Draft base (region.filter (fun id => id ∉ tree.ids))
      (store.forgetMove tree.id) trees := by
    refine (h.release hheld).narrow (fun id hid hin => ?_)
    simp only [List.mem_filter, decide_eq_true_eq]
    exact ⟨hin, fun htree => hapart.2.2 htree hid⟩
  obtain ⟨later, hrun, hlater⟩ := hnarrow.take_all
    (fun part hpart => hlive.of_mem (hparts part hpart)) hnodup (by
      intro id hid hin
      simp only [List.mem_filter, decide_eq_true_eq] at hin
      obtain ⟨part, hpart, hinside⟩ := List.mem_flatMap.mp hid
      exact hin.2 (Tree.ids_subset_of_mem (hparts part hpart) hinside))
  exact ⟨later, (Build.bind_ok (Build.run_modify _ store)).trans hrun, hlater⟩

theorem dissolve {parts : List Tree} (h : Draft base region store (tree :: trees))
    (hlive : tree.Live base) (hparts : ∀ part, part ∈ parts → part ∈ tree.subtrees)
    (hnodup : (parts.flatMap Tree.ids).Nodup) :
    ∃ later, Build.dissolve (.moved tree.id) (parts.map Tree.id) store =
        .ok (parts.map (fun part => Child.moved part.id), later) ∧
      Draft base region later (parts ++ trees) := by
  have hregion : tree.ids ⊆ region := by
    intro id hid
    have horigin := h.origin id (by
      rw [List.flatMap_cons]
      exact List.mem_append_left _ hid)
    exact horigin.resolve_left (Nat.not_le.mpr (hlive.laid.lt hid))
  obtain ⟨later, hrun, hlater⟩ := h.dissolve_narrow hlive hparts hnodup
  refine ⟨later, hrun, hlater.widen fun id hid => ?_⟩
  rcases List.mem_append.mp hid with hpart | hin
  · obtain ⟨part, hmem, hinside⟩ := List.mem_flatMap.mp hpart
    exact hregion (Tree.ids_subset_of_mem (hparts part hmem) hinside)
  · exact List.mem_of_mem_filter hin

end Draft

/-! ## Terms of the constructors -/

namespace Term

def strength (term : Term) : Nat :=
  term.head.strength?.getD Strength.primary

def paren (term : Term) : Term :=
  .node .paren term.type [term]

def wrap (outer : Nat) (term : Term) : Term :=
  if term.strength < outer || (term.strength == outer && term.strength < Strength.unary) then
    term.paren
  else
    term

theorem bare_wrap (outer : Nat) (term : Term) : (term.wrap outer).bare = term.bare := by
  unfold wrap
  split
  · exact bare_paren _ _
  · rfl

/-- The expression with the parentheses that a slot needs, if the slot demands any
strength. -/
def fit (outer : Option Nat) (term : Term) : Term :=
  match outer with
  | some outer => term.wrap outer
  | none => term

def boolLit (value : Bool) : Term :=
  .node (.literal (.bool value)) (some .boolean) []

def bareName (text : String) : Term :=
  .node (.name text none) none []

def qualified (qualifier simple : Term) : Term :=
  .node .qualified simple.type [qualifier, simple]

def typeName (dotted : String) : Term :=
  (Dotted.segments dotted).2.foldl
    (fun qualifier segment => qualified qualifier (bareName segment))
    (bareName (Dotted.segments dotted).1)

def not (term : Term) : Term :=
  .node (.prefixed .not) (some .boolean) [term.wrap Strength.unary]

def chain (op : InfixOp) (operands : List Term) : Term :=
  .node (.chain op)
    (if op.isComparison || op.isConditional then some .boolean else operands.head?.bind type)
    operands

def join (op : InfixOp) (operands : List Term) : Term :=
  match operands with
  | [operand] => operand
  | _ => chain op (operands.map (wrap op.strength))

def call (receiver : Term) (method : String) (args : List Term) : Term :=
  .node (.call true method) (Build.resultType? method) (receiver.wrap Strength.primary :: args)

def negate (invert : Bool) (term : Term) : Term :=
  match term.bare with
  | node (.prefixed .not) _ [operand] => operand
  | node (.literal (.bool value)) _ _ => boolLit !value
  | node (.chain op) _ [left, right] =>
      match (if invert then op.inverse? else none) with
      | some inverse => chain inverse [left, right]
      | none => term.not
  | _ => term.not

def exprStmt (expr : Term) : Term :=
  .node .exprStmt none [expr]

def block (stmts : List Term) : Term :=
  .node .block none stmts

def ifStmt (cond thenBranch : Term) (elseBranch : Option Term) : Term :=
  .node .ifStmt none (cond :: thenBranch :: elseBranch.toList)

end Term

/-! ## Computations that draft one tree -/

/-- The computation succeeds and drafts a tree with the given term beside `trees`. -/
def Yields (base : Store) (region : List NodeId) (store : Store) (trees : List Tree)
    (make : Build NodeId) (term : Term) : Prop :=
  ∃ later new, make store = .ok (new.id, later) ∧ Draft base region later (new :: trees) ∧
    new.term = term

variable {base store : Store} {region wider : List NodeId} {tree : Tree}
  {trees others subs : List Tree} {make : Build NodeId} {term term' : Term}

theorem Yields.bind {next : NodeId → Build NodeId} (h : Yields base region store trees make term)
    (hnext : ∀ later new, Draft base region later (new :: trees) → new.term = term →
      Yields base wider later others (next new.id) term') :
    Yields base wider store others (make >>= next) term' := by
  obtain ⟨middle, new, hrun, hdraft, hterm⟩ := h
  obtain ⟨later, last, hruns, hlast, hlastTerm⟩ := hnext middle new hdraft hterm
  exact ⟨later, last, (Build.bind_ok hrun).trans hruns, hlast, hlastTerm⟩

theorem Yields.of_bind_ok {α : Type} {first : Build α} {next : α → Build NodeId} {value : α}
    {middle : Store} (hrun : first store = .ok (value, middle))
    (h : Yields base region middle trees (next value) term) :
    Yields base region store trees (first >>= next) term := by
  obtain ⟨later, new, hruns, hdraft, hterm⟩ := h
  exact ⟨later, new, (Build.bind_ok hrun).trans hruns, hdraft, hterm⟩

namespace Draft

theorem yields_self (h : Draft base region store (tree :: trees)) :
    Yields base region store trees (pure tree.id) tree.term :=
  ⟨store, tree, rfl, h, rfl⟩

theorem yields_create (h : Draft base region store (subs ++ trees)) {kind : Kind}
    {number : Option TypeId} {type : Option TypeDesc} (hkind : kind.children = subs.map Tree.id)
    (htype : number.map store.types.get? = type.map some) :
    Yields base region store trees (Build.create kind number)
      (.node kind.head type (subs.map Tree.term)) := by
  obtain ⟨later, hrun, -, -, hdraft⟩ := h.create hkind htype
  exact ⟨later, .node store.size kind.head type subs, hrun, hdraft, by rw [Tree.term_node]⟩

theorem yields_create_typed (h : Draft base region store (subs ++ trees)) {kind : Kind}
    {desc : TypeDesc} (hkind : kind.children = subs.map Tree.id) :
    Yields base region store trees
      (Build.internType desc >>= fun type => Build.create kind (some type))
      (.node kind.head (some desc) (subs.map Tree.term)) := by
  obtain ⟨number, middle, hrun, hnumber, hmiddle⟩ := h.intern desc
  apply Yields.of_bind_ok hrun
  exact hmiddle.yields_create hkind (by simp [hnumber])

/-- The recorded type of a loose tree is its type. -/
theorem recorded (h : Draft base region store trees) (hmem : tree ∈ trees) :
    (store.node tree.id).type.map store.types.get? = tree.type.map some := by
  have hlaid := h.laid hmem
  cases tree
  exact hlaid.shown_by.type

/-! ## Expressions -/

theorem yields_boolLit (h : Draft base region store trees) (value : Bool) :
    Yields base region store trees (Build.boolLit value) (.boolLit value) :=
  @yields_create_typed _ _ _ _ [] h _ _ rfl

theorem yields_name (h : Draft base region store trees) (text : String) :
    Yields base region store trees (Build.name text none none) (.bareName text) :=
  @yields_create _ _ _ _ [] h _ _ none rfl rfl

theorem yields_paren (h : Draft base region store (tree :: trees)) :
    Yields base region store trees (Build.paren tree.id) tree.term.paren := by
  apply Yields.of_bind_ok (Build.run_typeIdOf (h.lt (List.mem_cons_self ..)))
  rw [Term.paren, Tree.type_term]
  exact @yields_create _ _ _ _ [tree] h _ _ _ rfl (h.recorded (List.mem_cons_self ..))

theorem yields_parenthesize (h : Draft base region store (tree :: trees)) (outer : Nat) :
    Yields base region store trees (Build.parenthesize tree.id outer)
      (tree.term.wrap outer) := by
  have hlegible := h.legible (List.mem_cons_self ..)
  have hstrength : (store.kind tree.id).strength?.getD Strength.primary = tree.term.strength := by
    rw [Kind.strength?_eq, hlegible.kind_head, Term.strength, Tree.head_term]
  apply Yields.of_bind_ok (Build.run_kindOf hlegible.lt)
  simp only [hstrength]
  unfold Term.wrap
  split
  · exact h.yields_paren
  · exact h.yields_self

theorem yields_parenthesizeFor (h : Draft base region store (tree :: trees)) {target : NodeId}
    (hlt : target < store.size) :
    Yields base region store trees (Build.parenthesizeFor tree.id target)
      (tree.term.fit (store.slotStrength? target)) := by
  apply Yields.of_bind_ok (Build.run_lookup hlt)
  apply Yields.of_bind_ok (Build.run_get store)
  unfold Term.fit
  cases store.slotStrength? target with
  | none => exact h.yields_self
  | some outer => exact h.yields_parenthesize outer

theorem yields_not (h : Draft base region store (tree :: trees)) :
    Yields base region store trees (Build.not tree.id) tree.term.not := by
  apply (h.yields_parenthesize Strength.unary).bind
  intro later new hdraft hterm
  rw [Term.not, ← hterm]
  exact @yields_create_typed _ _ _ _ [new] hdraft (.prefixed .not new.id) _ rfl

theorem yields_qualified {simple : Tree}
    (h : Draft base region store (tree :: simple :: trees)) :
    Yields base region store trees (Build.qualified tree.id simple.id)
      (.qualified tree.term simple.term) := by
  have hmem : simple ∈ tree :: simple :: trees := by simp
  apply Yields.of_bind_ok (Build.run_typeIdOf (h.lt hmem))
  rw [Term.qualified, Tree.type_term]
  exact @yields_create _ _ _ _ [tree, simple] h _ _ _ rfl (h.recorded hmem)

theorem yields_appendSegment (h : Draft base region store (tree :: trees)) (segment : String) :
    Yields base region store trees (Build.appendSegment tree.id segment)
      (.qualified tree.term (.bareName segment)) := by
  apply (h.yields_name segment).bind
  intro later new hdraft hterm
  rw [← hterm]
  exact (hdraft.perm (List.Perm.swap ..)).yields_qualified

theorem yields_segments (h : Draft base region store (tree :: trees)) (segments : List String) :
    Yields base region store trees (segments.foldlM Build.appendSegment tree.id)
      (segments.foldl (fun qualifier segment => .qualified qualifier (.bareName segment))
        tree.term) := by
  induction segments generalizing store tree with
  | nil => exact h.yields_self
  | cons segment segments ih =>
      rw [List.foldlM_cons, List.foldl_cons]
      apply (h.yields_appendSegment segment).bind
      intro later new hdraft hterm
      rw [← hterm]
      exact ih hdraft

theorem yields_typeName (h : Draft base region store trees) (dotted : String) :
    Yields base region store trees (Build.typeName dotted) (.typeName dotted) := by
  apply (h.yields_name (Dotted.segments dotted).1).bind
  intro later new hdraft hterm
  rw [Term.typeName, ← hterm]
  exact hdraft.yields_segments (Dotted.segments dotted).2

theorem yields_chain {first second : Tree} {rest : List Tree} (op : InfixOp)
    (h : Draft base region store ((first :: second :: rest) ++ trees)) :
    Yields base region store trees
      (Build.chain op ((first :: second :: rest).map Tree.id))
      (.chain op ((first :: second :: rest).map Tree.term)) := by
  have hmem : first ∈ (first :: second :: rest) ++ trees := by simp
  rw [Term.chain]
  simp only [List.map_cons, Build.chain, List.head?_cons, Option.bind_some]
  split
  · simp only [pure_bind]
    exact h.yields_create_typed rfl
  · apply Yields.of_bind_ok (Build.run_typeIdOf (h.lt hmem))
    rw [Tree.type_term]
    exact h.yields_create rfl (h.recorded hmem)

/-- Making one tree after the other.  Each step may use up some loose trees and take
some nodes of the live tree. -/
theorem mapM_yields {α : Type} {input : Tree → α} {f : α → Build NodeId}
    {result : Tree → Term} {used : Tree → List Tree} {taken : Tree → List NodeId}
    {items : List Tree}
    (hstep : ∀ item, item ∈ items → ∀ region store others,
      List.Disjoint (taken item) region → Draft base region store (used item ++ others) →
      Yields base (taken item ++ region) store others (f (input item)) (result item))
    (h : Draft base region store (items.flatMap used ++ trees))
    (hnodup : (items.flatMap taken).Nodup) (hnew : List.Disjoint (items.flatMap taken) region) :
    ∃ later news, (items.map input).mapM f store = .ok (news.map Tree.id, later) ∧
      Draft base (items.flatMap taken ++ region) later (news ++ trees) ∧
      news.map Tree.term = items.map result := by
  induction items generalizing region store trees with
  | nil => exact ⟨store, [], rfl, h, rfl⟩
  | cons item items ih =>
      rw [List.flatMap_cons, List.nodup_append'] at hnodup
      rw [List.flatMap_cons, List.disjoint_append_left] at hnew
      rw [List.flatMap_cons, List.append_assoc] at h
      obtain ⟨middle, new, hrun, hmiddle, hterm⟩ :=
        hstep item (by simp) region store _ hnew.1 h
      obtain ⟨later, news, hruns, hlater, hterms⟩ := @ih middle (taken item ++ region)
        (new :: trees) (fun other hother => hstep other (List.mem_cons_of_mem _ hother))
        (hmiddle.perm List.perm_middle.symm) hnodup.2.1
        (List.disjoint_append_right.mpr ⟨List.disjoint_symm hnodup.2.2, hnew.2⟩)
      refine ⟨later, new :: news, ?_, ?_, by rw [List.map_cons, List.map_cons, hterm, hterms]⟩
      · rw [List.map_cons, List.mapM_cons, Build.bind_ok hrun, Build.bind_ok hruns]
        rfl
      · refine (hlater.perm List.perm_middle).widen ?_
        intro id hid
        simp only [List.flatMap_cons, List.mem_append] at hid ⊢
        tauto

theorem mapM_yields_each {α : Type} {input : Tree → α} {f : α → Build NodeId}
    {result : Tree → Term} {items : List Tree}
    (hstep : ∀ item, item ∈ items → ∀ region store others,
      Draft base region store (item :: others) →
      Yields base region store others (f (input item)) (result item))
    (h : Draft base region store (items ++ trees)) :
    ∃ later news, (items.map input).mapM f store = .ok (news.map Tree.id, later) ∧
      Draft base region later (news ++ trees) ∧ news.map Tree.term = items.map result := by
  have hused : items.flatMap (fun item => [item]) = items := List.flatMap_singleton' items
  have htaken : items.flatMap (fun _ => ([] : List NodeId)) = [] := by simp
  rw [← hused] at h
  have hstep' : ∀ item, item ∈ items → ∀ region store others,
      List.Disjoint (([] : List NodeId)) region → Draft base region store ([item] ++ others) →
      Yields base ([] ++ region) store others (f (input item)) (result item) :=
    fun item hitem region store others _ => hstep item hitem region store others
  obtain ⟨later, news, hrun, hdraft, hterms⟩ := mapM_yields hstep' h
    (by rw [htaken]; exact List.nodup_nil) (by rw [htaken]; exact List.disjoint_nil_left region)
  rw [htaken] at hdraft
  exact ⟨later, news, hrun, hdraft, hterms⟩

theorem yields_join {first : Tree} {rest : List Tree} (op : InfixOp)
    (h : Draft base region store ((first :: rest) ++ trees)) :
    Yields base region store trees (Build.join op ((first :: rest).map Tree.id))
      (.join op ((first :: rest).map Tree.term)) := by
  cases rest with
  | nil => exact h.yields_self
  | cons second rest =>
      have hwrap : ∀ item, item ∈ first :: second :: rest → ∀ region store others,
          Draft base region store (item :: others) → Yields base region store others
            (Build.parenthesize (Tree.id item) op.strength) (item.term.wrap op.strength) :=
        fun item _ _ _ _ hitem => hitem.yields_parenthesize op.strength
      obtain ⟨later, news, hrun, hdraft, hterms⟩ :=
        @mapM_yields_each _ _ _ _ _ Tree.id (fun id => Build.parenthesize id op.strength) _ _
          hwrap h
      apply Yields.of_bind_ok hrun
      rcases news with _ | ⟨newFirst, _ | ⟨newSecond, newRest⟩⟩
      · simp at hterms
      · simp at hterms
      · have hjoin : Term.join op ((first :: second :: rest).map Tree.term) =
            .chain op ((newFirst :: newSecond :: newRest).map Tree.term) := by
          rw [hterms]
          simp [Term.join, Function.comp_def]
        rw [hjoin]
        exact yields_chain op hdraft

theorem yields_call {receiver : Tree} {args : List Tree} (method : String)
    (h : Draft base region store ((receiver :: args) ++ trees)) :
    Yields base region store trees
      (Build.call (some receiver.id) method (args.map Tree.id))
      (.call receiver.term method (args.map Tree.term)) := by
  obtain ⟨middle, new, hrun, hdraft, hterm⟩ :=
    Draft.yields_parenthesize h Strength.primary
  have hreceiver : (some receiver.id).mapM
      (fun target => Build.parenthesize target Strength.primary) store =
        .ok (some new.id, middle) := Build.map_ok hrun
  apply Yields.of_bind_ok hreceiver
  rw [Term.call, ← hterm]
  cases Build.resultType? method with
  | none => exact @yields_create _ _ _ _ (new :: args) hdraft _ _ none rfl rfl
  | some desc =>
      obtain ⟨number, later, hintern, hnumber, hlater⟩ := hdraft.intern desc
      have htype : (some desc).mapM Build.internType middle = .ok (some number, later) :=
        Build.map_ok hintern
      apply Yields.of_bind_ok htype
      exact @yields_create _ _ _ _ (new :: args) hlater _ _ (some desc) rfl (by simp [hnumber])

/-! ## Statements -/

theorem yields_exprStmt (h : Draft base region store (tree :: trees)) :
    Yields base region store trees (Build.exprStmt tree.id) (.exprStmt tree.term) :=
  @yields_create _ _ _ _ [tree] h _ _ none rfl rfl

theorem yields_block (h : Draft base region store (subs ++ trees)) :
    Yields base region store trees (Build.block (subs.map Tree.id))
      (.block (subs.map Tree.term)) :=
  h.yields_create rfl rfl

theorem yields_ifStmt {cond thenBranch : Tree} {elseBranch : Option Tree}
    (h : Draft base region store ((cond :: thenBranch :: elseBranch.toList) ++ trees)) :
    Yields base region store trees
      (Build.ifStmt cond.id thenBranch.id (elseBranch.map Tree.id))
      (.ifStmt cond.term thenBranch.term (elseBranch.map Tree.term)) := by
  have hcreate := @yields_create _ _ _ _ _ h
    (.ifStmt cond.id thenBranch.id (elseBranch.map Tree.id)) none none
  cases elseBranch with
  | none => exact hcreate rfl rfl
  | some branch => exact hcreate rfl rfl

/-! ## Copies -/

theorem mapM_yields_new {α : Type} {input : Tree → α} {f : α → Build NodeId}
    {result : Tree → Term} {items : List Tree}
    (hstep : ∀ item, item ∈ items → ∀ region store others,
      Draft base region store others →
      Yields base region store others (f (input item)) (result item))
    (h : Draft base region store trees) :
    ∃ later news, (items.map input).mapM f store = .ok (news.map Tree.id, later) ∧
      Draft base region later (news ++ trees) ∧ news.map Tree.term = items.map result := by
  have hused : items.flatMap (fun _ => ([] : List Tree)) = [] := by simp
  have htaken : items.flatMap (fun _ => ([] : List NodeId)) = [] := by simp
  rw [← List.nil_append trees, ← hused] at h
  have hstep' : ∀ item, item ∈ items → ∀ region store others,
      List.Disjoint (([] : List NodeId)) region → Draft base region store ([] ++ others) →
      Yields base ([] ++ region) store others (f (input item)) (result item) :=
    fun item hitem region store others _ => hstep item hitem region store others
  obtain ⟨later, news, hrun, hdraft, hterms⟩ := mapM_yields hstep' h
    (by rw [htaken]; exact List.nodup_nil) (by rw [htaken]; exact List.disjoint_nil_left region)
  rw [htaken] at hdraft
  exact ⟨later, news, hrun, hdraft, hterms⟩

theorem yields_copySteps {steps : Nat} (h : Draft base region store trees)
    (hlaid : tree.Laid base) (hsteps : tree.height ≤ steps) :
    Yields base region store trees (Build.copySteps steps tree.id) tree.term := by
  induction tree generalizing region store trees steps with
  | node id head type subs ih =>
      have hpos := Tree.height_pos (.node id head type subs)
      obtain ⟨steps, rfl⟩ : ∃ n, steps = n + 1 := ⟨steps - 1, by omega⟩
      have hshows := (h.laid_old hlaid).shown_by
      have hcopies : ∀ item, item ∈ subs → ∀ region store others,
          Draft base region store others →
          Yields base region store others (Build.copySteps steps (Tree.id item)) item.term := by
        intro item hitem region store others hdraft
        have hlt := Tree.height_slot_lt id head type hitem
        exact ih item hitem hdraft (hlaid.sub hitem) (by omega)
      obtain ⟨later, news, hrun, hdraft, hterms⟩ := mapM_yields_new hcopies h
      have hlength : news.length = (store.kind id).children.length := by
        have hlen := congrArg List.length hterms
        rw [List.length_map, List.length_map] at hlen
        rw [hlen, show (store.kind id).children = subs.map Tree.id from hshows.children,
          List.length_map]
      have hkind : (store.kind id).mapChildrenM (Build.copySteps steps) store =
          .ok ((store.kind id).withChildren (news.map Tree.id), later) := by
        unfold Kind.mapChildrenM
        rw [show (store.kind id).children = subs.map Tree.id from hshows.children]
        exact (Build.bind_ok hrun).trans rfl
      have hnode : later.node id = store.node id := by
        rw [hdraft.old id (hlaid.lt (by simp)), h.old id (hlaid.lt (by simp))]
      have hchildren : ((store.kind id).withChildren (news.map Tree.id)).children =
          news.map Tree.id := Kind.children_withChildren (by rw [List.length_map, hlength])
      have htype : (store.node id).type.map later.types.get? = type.map some := by
        rw [← hnode]
        exact (hdraft.laid_old hlaid).shown_by.type
      apply Yields.of_bind_ok (Build.run_lookup hshows.lt)
      apply Yields.of_bind_ok hkind
      have hyields := hdraft.yields_create hchildren htype
      rw [Kind.head_withChildren, hshows.head, hterms] at hyields
      rw [Tree.term_node]
      exact hyields

theorem yields_deepCopy (h : Draft base region store trees) (hlive : tree.Live base) :
    Yields base region store trees (Build.deepCopy tree.id) tree.term := by
  apply Yields.of_bind_ok (Build.run_get store)
  apply h.yields_copySteps hlive.laid
  exact Nat.le_succ_of_le (h.legible_live hlive).height_le

/-! ## Negations -/

theorem yields_negate (h : Draft base region store (tree :: trees)) (hlive : tree.Live base)
    (invert : Bool) :
    Yields base region store trees (Build.negate (.moved tree.id) invert)
      (tree.term.negate invert) := by
  have hlegible := h.legible (List.mem_cons_self ..)
  apply Yields.of_bind_ok (Build.run_lookup hlegible.lt)
  apply Yields.of_bind_ok (Build.run_get store)
  have hmem := tree.bare_mem_subtrees
  obtain ⟨subs, hform, hids⟩ := hlegible.bare.of_kind rfl
  have hterm : tree.term.bare =
      .node (store.kind tree.bare.id).head tree.bare.type (subs.map Tree.term) := by
    rw [← Tree.term_bare, hform, Tree.term_node]
    rfl
  have hsub : ∀ sub, sub ∈ subs → sub ∈ tree.subtrees := by
    intro sub hsub
    refine Tree.slot_mem_subtrees hmem ?_
    rw [hform]
    exact hsub
  have hnodup : (subs.flatMap Tree.ids).Nodup := by
    have hslots := Tree.nodup_slots (Tree.nodup_ids_of_mem hlive.nodup hmem)
    rwa [hform] at hslots
  simp only [Child.node, hlegible.unparenthesized]
  rw [Term.negate, hterm]
  cases hkind : store.kind tree.bare.id with
  | prefixed op operand =>
      rw [hkind] at hids
      obtain ⟨sub, rfl, rfl⟩ := List.map_eq_singleton_iff.mp hids
      cases op with
      | not =>
          obtain ⟨later, hrun, hdraft⟩ := h.dissolve hlive hsub hnodup
          exact Yields.of_bind_ok hrun hdraft.yields_self
      | _ => exact h.yields_not
  | literal value =>
      cases value with
      | bool value =>
          obtain ⟨owner, hheld⟩ := hlive.held
          exact Yields.of_bind_ok (Build.run_modify _ store) ((h.release hheld).yields_boolLit _)
      | _ => exact h.yields_not
  | chain op operands =>
      rw [hkind] at hids
      simp only [Kind.children] at hids
      subst hids
      rcases subs with _ | ⟨left, _ | ⟨right, _ | _⟩⟩
      · exact h.yields_not
      · exact h.yields_not
      · simp only [List.map_cons, List.map_nil, Kind.head]
        cases (if invert then op.inverse? else none) with
        | none => exact h.yields_not
        | some inverse =>
            obtain ⟨later, hrun, hdraft⟩ := h.dissolve hlive hsub hnodup
            apply Yields.of_bind_ok hrun
            have hchain := yields_chain inverse hdraft
            simpa only [List.map_cons, List.map_nil, Child.node] using hchain
      · exact h.yields_not
  | _ => exact h.yields_not

end Draft

end CodeTidy
