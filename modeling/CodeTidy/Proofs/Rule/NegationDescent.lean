import CodeTidy.Proofs.Effect
import CodeTidy.Rule.NegationDescent

/-!
# What the negation rule does

A negation moves into its operand as far as it goes.
-/

namespace CodeTidy

namespace Term

mutual

/-- The negation of an expression, with every `!` as far down as it goes. -/
def push : Term → Term
  | node .paren _ [inner] => push inner
  | node (.chain op) type subs =>
      match op.dual? with
      | some dual => (join dual (pushList subs)).paren
      | none => negate (node (.chain op) type subs).isInvertible (node (.chain op) type subs)
  | term => negate term.isInvertible term

def pushList : List Term → List Term
  | [] => []
  | term :: rest => push term :: pushList rest

end

theorem pushList_eq_map (terms : List Term) : pushList terms = terms.map push := by
  induction terms with
  | nil => rfl
  | cons term rest ih => rw [pushList, ih, List.map_cons]

theorem push_paren (type : Option TypeDesc) (inner : Term) :
    push (node .paren type [inner]) = push inner := by
  rw [push]

theorem push_of_dual {op dual : InfixOp} (type : Option TypeDesc) (subs : List Term)
    (h : op.dual? = some dual) :
    push (node (.chain op) type subs) = (join dual (subs.map push)).paren := by
  rw [push, h, pushList_eq_map]

theorem push_eq_negate {term : Term} (hparen : term.head ≠ .paren)
    (hdual : ∀ op, term.head = .chain op → op.dual? = none) :
    push term = negate term.isInvertible term := by
  unfold push
  split
  · exact absurd rfl hparen
  · next op type subs => rw [hdual op rfl]
  · rfl

/-- Parentheses around an expression do not matter to its negation. -/
theorem push_bare (term : Term) : push term.bare = push term := by
  induction term with
  | node head type subs ih =>
      unfold bare
      split
      · next type' inner heq =>
          cases heq
          rw [push_paren]
          exact ih inner (List.mem_singleton_self inner)
      · rfl

def isCovered (term : Term) : Bool :=
  match term.bare.head with
  | .prefixed .not => term.bare.subs.length == 1
  | .chain op => op.dual?.isSome || term.bare.isInvertible
  | _ => term.bare.boolLiteral?.isSome

end Term

namespace NegationDescent

/-- A negation whose operand is covered is pushed down. -/
inductive Rewrite : Rewriting where
  | push {type : Option TypeDesc} {operand : Term} {outer : Option Nat}
      (hcovered : operand.isCovered = true) :
      Rewrite (.node (.prefixed .not) type [operand]) (some (operand.push.fit outer))

variable {base store : Store} {tree old : Tree} {trees : List Tree} {region : List NodeId}
  {options : Options}

theorem isCovered_eq (h : tree.Legible store) :
    isCovered store tree.id = tree.term.isCovered := by
  unfold isCovered Term.isCovered
  simp only [h.unparenthesized]
  have hlength : tree.bare.term.subs.length = (store.kind tree.bare.id).children.length := by
    rw [Tree.subs_term, List.length_map, ← List.length_map Tree.id, ← h.bare.children]
    rfl
  rw [h.bare.isInvertible, h.bare.boolLiteral?, ← Tree.term_bare, Tree.head_term,
    ← h.bare.kind_head, hlength]
  cases store.kind tree.bare.id with
  | prefixed op operand => cases op <;> rfl
  | _ => rfl

theorem run_withoutParens (h : Draft base region store (tree :: trees))
    (hlive : tree.Live base) :
    ∃ later, withoutParens (.moved tree.id) store = .ok (.moved tree.bare.id, later) ∧
      Draft base region later (tree.bare :: trees) := by
  have hlegible := h.legible (List.mem_cons_self ..)
  unfold withoutParens
  rw [Build.bind_ok (Build.run_get store)]
  have hinner : store.unparenthesized (Child.moved tree.id).node = tree.bare.id :=
    hlegible.unparenthesized
  by_cases hid : store.unparenthesized (Child.moved tree.id).node = (Child.moved tree.id).node
  · rw [if_pos hid]
    rw [hinner] at hid
    have heq : tree.bare = tree :=
      Tree.eq_of_id_eq hlive.nodup tree.bare_mem_subtrees tree.mem_subtrees_self hid
    rw [heq]
    exact ⟨store, rfl, h⟩
  · rw [if_neg hid, hinner]
    obtain ⟨later, hrun, hdraft⟩ := @Draft.dissolve _ _ _ _ _ [tree.bare] h hlive
      (by simpa using tree.bare_mem_subtrees)
      (by simpa using (hlive.of_mem tree.bare_mem_subtrees).nodup)
    exact ⟨later, (Build.bind_ok hrun).trans rfl, hdraft⟩

theorem push_eq_negate_of_dualChain? (h : tree.Legible store) (hparen : tree.head ≠ .paren)
    (hdual : dualChain? (store.kind tree.id) = none) :
    tree.term.push = tree.term.negate (store.isInvertible tree.id) := by
  have hnone : ∀ op, tree.term.head = .chain op → op.dual? = none := by
    intro op hop
    rw [Tree.head_term, ← h.kind_head] at hop
    cases hkind : store.kind tree.id <;> rw [hkind] at hop hdual <;> cases hop
    simpa [dualChain?] using hdual
  rw [Term.push_eq_negate (by rwa [Tree.head_term]) hnone, ← h.isInvertible]

theorem of_dualChain? {kind : Kind} {dual : InfixOp} {operands : List NodeId}
    (h : dualChain? kind = some (dual, operands)) :
    ∃ op, kind = .chain op operands ∧ op.dual? = some dual := by
  cases kind <;> simp only [dualChain?, Option.map_eq_some_iff, Prod.mk.injEq, reduceCtorEq] at h
  next op ids =>
    obtain ⟨dual, hop, rfl, rfl⟩ := h
    exact ⟨op, rfl, hop⟩

/-- A chain with a dual is taken apart, and its dual is put together from what its operands are
pushed to. -/
theorem yields_dual {op dual : InfixOp} {operands : List NodeId} {push : Child → Build NodeId}
    (h : Draft base region store (tree :: trees)) (hlive : tree.Live base)
    (hkind : store.kind tree.id = .chain op operands) (hop : op.dual? = some dual)
    (hne : tree.subs ≠ [])
    (hpush : ∀ item, item ∈ tree.subs → ∀ region store others,
      Draft base region store (item :: others) →
      Yields base region store others (push (.moved (Tree.id item))) item.term.push) :
    Yields base region store trees (do
      let parts ← Build.dissolve (.moved tree.id) operands
      let negated ← parts.mapM push
      let joined ← Build.join dual negated
      Build.paren joined) tree.term.push := by
  obtain ⟨subs, hform, hids⟩ := (h.legible (List.mem_cons_self ..)).of_kind hkind
  simp only [Kind.children] at hids
  subst hids
  have hsubs : tree.subs = subs := by rw [hform]; rfl
  rw [hsubs] at hne hpush
  have hmem : ∀ sub, sub ∈ subs → sub ∈ tree.subtrees := fun sub hsub =>
    Tree.mem_subtrees_of_sub (hsubs ▸ hsub) (Tree.mem_subtrees_self sub)
  have hterm : tree.term = .node (.chain op) tree.type (subs.map Tree.term) := by
    rw [hform]
    simp [Kind.head]
  obtain ⟨opened, hdissolve, hopened⟩ :=
    h.dissolve hlive hmem (hsubs ▸ Tree.nodup_slots hlive.nodup)
  obtain ⟨pushed, news, hmapM, hpushed, hterms⟩ :=
    @Draft.mapM_yields_each _ _ _ _ _ (fun item => Child.moved (Tree.id item)) push _ _ hpush
      hopened
  apply Yields.of_bind_ok hdissolve
  apply Yields.of_bind_ok hmapM
  rw [hterm, Term.push_of_dual _ _ hop, List.map_map]
  rw [show subs.map (Term.push ∘ Tree.term) = news.map Tree.term from hterms.symm]
  cases news with
  | nil =>
      have hlength := congrArg List.length hterms
      simp only [List.map_nil, List.length_nil, List.length_map] at hlength
      exact absurd (List.length_eq_zero_iff.mp hlength.symm) hne
  | cons first rest =>
      apply (Draft.yields_join dual hpushed).bind
      intro later new hdraft hnew
      rw [← hnew]
      exact hdraft.yields_paren

theorem yields_pushSteps {steps : Nat} (h : Draft base region store (tree :: trees))
    (hlive : tree.Live base)
    (hwide : ∀ below, below ∈ tree.subtrees → ∀ op, below.head = .chain op →
      below.subs ≠ [])
    (hsteps : tree.height ≤ steps) :
    Yields base region store trees (pushSteps steps (.moved tree.id)) tree.term.push := by
  induction steps generalizing tree region store trees with
  | zero =>
      have hpos := tree.height_pos
      omega
  | succ steps ih =>
      obtain ⟨middle, hrun, hmiddle⟩ := run_withoutParens h hlive
      have hbareLive := hlive.of_mem tree.bare_mem_subtrees
      have hlegible := hmiddle.legible (List.mem_cons_self ..)
      have hheight := Tree.height_le_of_mem tree.bare_mem_subtrees
      apply Yields.of_bind_ok hrun
      apply Yields.of_bind_ok (Build.run_get middle)
      rw [← Term.push_bare, ← Tree.term_bare]
      simp only [Child.node]
      cases hdual : dualChain? (middle.kind tree.bare.id) with
      | none =>
          rw [push_eq_negate_of_dualChain? hlegible
            (h.legible (List.mem_cons_self ..)).head_bare hdual]
          exact hmiddle.yields_negate hbareLive _
      | some found =>
          obtain ⟨dual, operands⟩ := found
          obtain ⟨op, hkind, hop⟩ := of_dualChain? hdual
          have hhead : tree.bare.head = .chain op := by
            rw [← hlegible.kind_head, hkind]
            rfl
          refine yields_dual hmiddle hbareLive hkind hop
            (hwide _ tree.bare_mem_subtrees op hhead) fun item hitem _ _ _ hdraft => ?_
          have hmem := Tree.slot_mem_subtrees tree.bare.mem_subtrees_self hitem
          have hlt := Tree.height_lt_of_mem hitem
          refine ih hdraft (hbareLive.of_mem hmem) (fun below hbelow => ?_) (by omega)
          exact hwide below (Tree.mem_subtrees_trans (Tree.mem_subtrees_trans hbelow hmem)
            tree.bare_mem_subtrees)

theorem yields_pushDown (h : Draft base region store (tree :: trees)) (hlive : tree.Live base)
    (hwide : ∀ below, below ∈ tree.subtrees → ∀ op, below.head = .chain op →
      below.subs ≠ []) :
    Yields base region store trees (pushDown (.moved tree.id)) tree.term.push := by
  apply Yields.of_bind_ok (Build.run_get store)
  exact yields_pushSteps h hlive hwide
    (Nat.le_succ_of_le (h.legible (List.mem_cons_self ..)).height_le)

/-- What the rule drafts for a negation, if it does not decline. -/
theorem responds (hbase : base.Holds tree) (hold : old ∈ tree.subtrees) (hne : old ≠ tree)
    (hwide : ∀ below, below ∈ tree.subtrees → ∀ op, below.head = .chain op →
      below.subs ≠ []) :
    respond options old.id base = .ok (.decline, base) ∨
      ∃ operand type outer region child drafted new,
        old.term = .node (.prefixed .not) type [operand] ∧ operand.isCovered = true ∧
        respond options old.id base = .ok (.edit [⟨old.id, .replace child⟩], drafted) ∧
        child.node = new.id ∧ Draft base region drafted [new] ∧
        region ⊆ old.subs.flatMap Tree.ids ∧ new.term = operand.push.fit outer ∧
        tree.Suits old new := by
  have hlegible := Tree.Legible.of_holds hbase hold
  have hlive := hbase.live hold hne
  have hstart : Draft base [] base [] := .start hbase.idle hbase.typed
  have hbegin : respond options old.id base = _ :=
    Build.bind_ok (Build.run_kindOf hlegible.lt)
  cases hkind : base.kind old.id <;> rw [hkind] at hbegin
  case prefixed op operand =>
    obtain ⟨subs, hform, hids⟩ := hlegible.of_kind hkind
    obtain ⟨sub, rfl, rfl⟩ := List.map_eq_singleton_iff.mp hids
    have hsub : sub ∈ old.subs := by rw [hform]; exact List.mem_singleton_self sub
    have hterm : old.term = .node (.prefixed op) old.type [sub.term] := by
      rw [hform]
      simp [Kind.head]
    cases op
    case not =>
      simp only at hbegin
      rw [Build.bind_ok (Build.run_get base)] at hbegin
      have hcovered := isCovered_eq (hlegible.sub hsub)
      by_cases hyes : isCovered base sub.id = true
      · rw [if_pos hyes] at hbegin
        obtain ⟨taken, htake, htaken⟩ := hstart.take_live (hlive.sub hsub)
          (List.disjoint_nil_right _)
        obtain ⟨middle, pushed, hpush, hmiddle, hpushTerm⟩ := yields_pushDown htaken
          (hlive.sub hsub) (fun below hbelow => hwide below (Tree.mem_subtrees_trans
            (Tree.mem_subtrees_of_sub hsub hbelow) hold))
        obtain ⟨drafted, new, hnew, hdraft, hnewTerm⟩ := hmiddle.yields_parenthesizeFor
          (Nat.lt_of_lt_of_le hlegible.lt hmiddle.grows.size)
        obtain ⟨child, hasChild, hchild⟩ := Build.run_asChild new.id drafted
        rw [Build.bind_ok htake, Build.bind_ok hpush, Build.bind_ok hnew,
          Build.bind_ok hasChild] at hbegin
        have hregion : sub.ids ++ [] ⊆ old.subs.flatMap Tree.ids := by
          intro id hid
          rw [List.append_nil] at hid
          exact List.mem_flatMap.mpr ⟨sub, hsub, hid⟩
        have hsuits := hmiddle.suits_fit hbase hold hne hnewTerm
        rw [hpushTerm] at hnewTerm
        exact .inr ⟨_, _, _, _, child, drafted, new, hterm, hcovered ▸ hyes, hbegin, hchild,
          hdraft, hregion, hnewTerm, hsuits⟩
      · rw [if_neg hyes] at hbegin
        exact .inl hbegin
    all_goals exact .inl hbegin
  all_goals exact .inl hbegin

theorem answers (hbase : base.Holds tree) (hold : old ∈ tree.subtrees) (hne : old ≠ tree)
    (hwide : ∀ below, below ∈ tree.subtrees → ∀ op, below.head = .chain op →
      below.subs ≠ []) :
    Answers (respond options old.id) base tree old.id
      (tree.RewrittenBy Rewrite old.term) := by
  rcases @responds _ _ _ options hbase hold hne hwide with hdecline |
    ⟨operand, type, outer, region, child, drafted, new, hterm, hcovered, hrun, hchild, hdraft,
      hregion, hnew, hsuits⟩
  · exact .inl hdecline
  · refine hdraft.answers_replace hbase hold hne hregion hchild hrun ?_ (fun _ => hsuits)
    rw [hterm, hnew]
    exact .push hcovered

end NegationDescent

end CodeTidy
