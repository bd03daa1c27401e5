import CodeTidy.Proofs.Effect
import CodeTidy.Rule.DeadBranch

/-!
# What the dead-branch rule does

A conditional or loop that cannot do everything it says becomes what it does.
-/

namespace CodeTidy

namespace DeadBranch

def asBlock (stmt : Term) : Term :=
  if stmt.head = .block then stmt else .block [stmt]

inductive Rewrite : Rewriting where
  /-- The condition is true. -/
  | takeThen {type : Option TypeDesc} {cond thenBranch : Term} {rest : List Term}
      (hcond : cond.boolLiteral? = some true) :
      Rewrite (.node .ifStmt type (cond :: thenBranch :: rest)) (some thenBranch)
  /-- The condition is false. -/
  | takeElse {type : Option TypeDesc} {cond thenBranch elseBranch : Term}
      (hcond : cond.boolLiteral? = some false) :
      Rewrite (.node .ifStmt type [cond, thenBranch, elseBranch]) (some elseBranch)
  | dropIf {type : Option TypeDesc} {cond thenBranch : Term} {fresh : Option Term}
      (hcond : cond.boolLiteral? = some false) (hfresh : Vanished fresh) :
      Rewrite (.node .ifStmt type [cond, thenBranch]) fresh
  | dropLoop {type : Option TypeDesc} {cond body : Term} {fresh : Option Term}
      (hcond : cond.boolLiteral? = some false) (hfresh : Vanished fresh) :
      Rewrite (.node .whileStmt type [cond, body]) fresh
  /-- Both branches are empty and the condition has no effect. -/
  | dropEmpty {type : Option TypeDesc} {cond thenBranch : Term} {elseBranch : Option Term}
      {fresh : Option Term} (hthen : Term.isEmptyBranch (some thenBranch) = true)
      (helse : Term.isEmptyBranch elseBranch = true) (hcond : cond.isPassive = true)
      (hfresh : Vanished fresh) :
      Rewrite (.node .ifStmt type (cond :: thenBranch :: elseBranch.toList)) fresh
  /-- Both branches are empty and the condition is a statement by itself. -/
  | keepCondition {type : Option TypeDesc} {cond thenBranch : Term} {elseBranch : Option Term}
      (hthen : Term.isEmptyBranch (some thenBranch) = true)
      (helse : Term.isEmptyBranch elseBranch = true) (hcond : cond.bare.head.isExpression = true) :
      Rewrite (.node .ifStmt type (cond :: thenBranch :: elseBranch.toList))
        (some (.exprStmt cond.bare))
  | dropElse {type : Option TypeDesc} {cond thenBranch elseBranch : Term}
      (helse : Term.isEmptyBranch (some elseBranch) = true) :
      Rewrite (.node .ifStmt type [cond, thenBranch, elseBranch])
        (some (.node .ifStmt type [cond, thenBranch]))
  | invert {type : Option TypeDesc} {cond thenBranch elseBranch : Term}
      (hthen : Term.isEmptyBranch (some thenBranch) = true) :
      Rewrite (.node .ifStmt type [cond, thenBranch, elseBranch])
        (some (.ifStmt (cond.negate cond.isInvertible) (asBlock elseBranch) none))

variable {base : Store} {tree old : Tree} {options : Options}

theorem answers_dropEmptyIf {cond thenBranch : Tree} {elseBranch : Option Tree}
    (hbase : base.Holds tree) (hold : old ∈ tree.subtrees) (hne : old ≠ tree)
    (hform : old = .node old.id .ifStmt old.type (cond :: thenBranch :: elseBranch.toList))
    (hthen : Term.isEmptyBranch (some thenBranch.term) = true)
    (helse : Term.isEmptyBranch (elseBranch.map Tree.term) = true) :
    Answers (dropEmptyIf old.id cond.id) base tree old.id
      (tree.RewrittenBy Rewrite old.term) := by
  have hlive := hbase.live hold hne
  have hstart : Draft base [] base [] := .start hbase.idle hbase.typed
  have hcond : cond ∈ old.subs := by rw [hform]; simp
  have hlegible := (hlive.sub hcond).legible
  have hterm : old.term = .node .ifStmt old.type
      (cond.term :: thenBranch.term :: (elseBranch.map Tree.term).toList) := by
    rw [hform]
    cases elseBranch <;> simp
  have hbegin : dropEmptyIf old.id cond.id base = _ := Build.bind_ok (Build.run_get base)
  by_cases hpassive : base.isPassive cond.id = true
  · rw [if_pos hpassive] at hbegin
    refine hstart.answers_drop hbase hold hne hbegin ?_
    intro fresh hfresh
    rw [hterm]
    exact .dropEmpty hthen helse (hlegible.isPassive ▸ hpassive) hfresh
  · rw [if_neg hpassive] at hbegin
    simp only [hlegible.unparenthesized] at hbegin
    have hkept : ∀ kind, base.kind cond.bare.id = kind →
        kind.head.isExpression = true →
        dropEmptyIf old.id cond.id base = (do
          let moved ← Build.take cond.bare.id
          let stmt ← Build.exprStmt moved.node
          return Response.replaceBy old.id stmt : Build Response) base →
        Answers (dropEmptyIf old.id cond.id) base tree old.id
          (tree.RewrittenBy Rewrite old.term) := by
      intro kind hkind hexpr hrun
      have hbareLive := (hlive.sub hcond).of_mem cond.bare_mem_subtrees
      obtain ⟨taken, htake, htaken⟩ := hstart.take_live hbareLive (List.disjoint_nil_right _)
      obtain ⟨drafted, new, hnew, hdraft, hnewTerm⟩ := htaken.yields_exprStmt
      rw [Build.bind_ok htake] at hrun
      simp only [Child.node] at hrun
      rw [Build.bind_ok hnew] at hrun
      refine hdraft.answers_replace hbase hold hne ?_ rfl hrun ?_
        (by rw [hform]; intro hexpr; cases hexpr)
      · intro id hid
        rw [List.append_nil] at hid
        exact List.mem_flatMap.mpr ⟨cond, hcond,
          Tree.ids_subset_of_mem cond.bare_mem_subtrees hid⟩
      · have hhead : cond.term.bare.head = kind.head := by
          rw [← Tree.term_bare, Tree.head_term, ← hlegible.bare.kind_head, hkind]
        rw [hterm, hnewTerm, Tree.term_bare]
        exact .keepCondition hthen helse (hhead ▸ hexpr)
    cases hkind : base.kind cond.bare.id <;> rw [hkind] at hbegin
    case call receiver method args =>
      exact hkept _ hkind rfl hbegin
    case assign op target value =>
      exact hkept _ hkind rfl hbegin
    all_goals exact .inl hbegin

theorem answers_takeBranch {branch : Option Tree} (hbase : base.Holds tree)
    (hold : old ∈ tree.subtrees) (hne : old ≠ tree) (hstmt : old.head.isExpression = false)
    (hbranch : ∀ stmt, branch = some stmt → stmt ∈ old.subs)
    (hsome : ∀ stmt, branch = some stmt → Rewrite old.term (some stmt.term))
    (hnone : branch = none → ∀ fresh, Vanished fresh → Rewrite old.term fresh) :
    Answers (takeBranch old.id (branch.map Tree.id)) base tree old.id
      (tree.RewrittenBy Rewrite old.term) := by
  have hlive := hbase.live hold hne
  have hstart : Draft base [] base [] := .start hbase.idle hbase.typed
  cases branch with
  | none => exact hstart.answers_drop hbase hold hne rfl (hnone rfl)
  | some stmt =>
      have hslot := hbranch stmt rfl
      obtain ⟨drafted, htake, hdraft⟩ := hstart.take_live (hlive.sub hslot)
        (List.disjoint_nil_right _)
      refine hdraft.answers_replace hbase hold hne ?_ rfl ((Build.bind_ok htake).trans rfl)
        (hsome stmt rfl) (by simp [hstmt])
      intro id hid
      rw [List.append_nil] at hid
      exact List.mem_flatMap.mpr ⟨stmt, hslot, hid⟩

theorem answers_invertIf {cond thenBranch elseBranch : Tree}
    (hbase : base.Holds tree) (hold : old ∈ tree.subtrees) (hne : old ≠ tree)
    (hform : old = .node old.id .ifStmt old.type [cond, thenBranch, elseBranch])
    (hthen : Term.isEmptyBranch (some thenBranch.term) = true) :
    Answers (invertIf old.id cond.id elseBranch.id) base tree old.id
      (tree.RewrittenBy Rewrite old.term) := by
  have hlive := hbase.live hold hne
  have hstart : Draft base [] base [] := .start hbase.idle hbase.typed
  have hsubs : old.subs = [cond, thenBranch, elseBranch] := by rw [hform]; rfl
  have hcond : cond ∈ old.subs := by rw [hsubs]; simp
  have helse : elseBranch ∈ old.subs := by rw [hsubs]; simp
  have hcondLegible := (hlive.sub hcond).legible
  have hapart : List.Disjoint elseBranch.ids (cond.ids ++ []) := by
    have hslots := Tree.nodup_slots hlive.nodup
    rw [hsubs] at hslots
    simp only [List.flatMap_cons, List.flatMap_nil, List.nodup_append', List.append_nil] at hslots
    rw [List.append_nil]
    intro id hid hin
    exact hslots.2.2 hin (List.mem_append_right _ hid)
  obtain ⟨taken, htake, htaken⟩ := hstart.take_live (hlive.sub hcond)
    (List.disjoint_nil_right _)
  obtain ⟨middle, negated, hnegate, hmiddle, hnegTerm⟩ :=
    htaken.yields_negate (hlive.sub hcond) (base.isInvertible cond.id)
  obtain ⟨both, htakeElse, hboth⟩ := hmiddle.take_live (hlive.sub helse) hapart
  have hkind : (both.kind elseBranch.id).isBlock = decide (elseBranch.head = .block) := by
    rw [← (hboth.legible (List.mem_cons_self ..)).kind_head]
    cases both.kind elseBranch.id <;> rfl
  have hbody : Yields base (elseBranch.ids ++ (cond.ids ++ [])) both [negated]
      (if (both.kind elseBranch.id).isBlock then pure elseBranch.id
        else Build.block [elseBranch.id]) (asBlock elseBranch.term) := by
    rw [hkind]
    unfold asBlock
    rw [Tree.head_term]
    by_cases hblock : elseBranch.head = .block
    · simp only [hblock, decide_true, if_true]
      exact hboth.yields_self
    · simp only [hblock, decide_false, Bool.false_eq_true, if_false]
      exact @Draft.yields_block _ _ _ [negated] [elseBranch] hboth
  obtain ⟨bodied, body, hbodyRun, hbodied, hbodyTerm⟩ := hbody
  obtain ⟨drafted, new, hnew, hdraft, hnewTerm⟩ :=
    @Draft.yields_ifStmt _ _ _ [] negated body none (hbodied.perm (List.Perm.swap ..))
  have hrun : invertIf old.id cond.id elseBranch.id base =
      .ok (.edit [⟨old.id, .replace (.fresh new.id)⟩], drafted) := by
    unfold invertIf
    rw [Build.bind_ok (Build.run_get base), Build.bind_ok htake, Build.bind_ok hnegate,
      Build.bind_ok htakeElse, Build.bind_ok (Build.run_get both)]
    simp only [Child.node]
    by_cases hblock : (both.kind elseBranch.id).isBlock = true
    · rw [if_pos hblock] at hbodyRun ⊢
      exact (Build.bind_ok hbodyRun).trans ((Build.bind_ok hnew).trans rfl)
    · rw [if_neg hblock] at hbodyRun ⊢
      exact (Build.bind_ok hbodyRun).trans ((Build.bind_ok hnew).trans rfl)
  refine hdraft.answers_replace hbase hold hne ?_ rfl hrun ?_
    (by rw [hform]; intro hexpr; cases hexpr)
  · intro id hid
    simp only [List.append_nil, List.mem_append] at hid
    rcases hid with hid | hid
    · exact List.mem_flatMap.mpr ⟨elseBranch, helse, hid⟩
    · exact List.mem_flatMap.mpr ⟨cond, hcond, hid⟩
  · rw [hnewTerm, hnegTerm, hbodyTerm, hcondLegible.isInvertible, hform, Tree.term_node]
    exact .invert hthen

theorem answers_dropElse {cond thenBranch elseBranch : Tree}
    (hbase : base.Holds tree) (hold : old ∈ tree.subtrees) (hne : old ≠ tree)
    (hkind : base.kind old.id = .ifStmt cond.id thenBranch.id (some elseBranch.id))
    (hform : old = .node old.id .ifStmt old.type [cond, thenBranch, elseBranch])
    (helse : Term.isEmptyBranch (some elseBranch.term) = true) :
    Answers (pure (.edit [⟨elseBranch.id, .remove⟩])) base tree old.id
      (tree.RewrittenBy Rewrite old.term) := by
  have hstart : Draft base [] base [] := .start hbase.idle hbase.typed
  have hsubs : old.subs = [cond, thenBranch, elseBranch] := by rw [hform]; rfl
  have hslot : elseBranch ∈ old.subs := by rw [hsubs]; simp
  have hmem : elseBranch ∈ tree.subtrees := Tree.slot_mem_subtrees hold hslot
  have hneTree : elseBranch ≠ tree :=
    Tree.ne_of_mem_slot hold hslot (Tree.mem_subtrees_self elseBranch)
  have hremove : base.canRemove elseBranch.id = true := by
    rw [Store.canRemove, (hbase.held.of_slot hold hslot).link]
    simp [hkind, Kind.dropChild?]
  obtain ⟨final, hcommit, hholds, hages⟩ := hstart.commit_remove hbase hmem hneTree hremove
  have htarget : elseBranch.id ∈ old.subs.flatMap Tree.ids :=
    List.mem_flatMap.mpr ⟨elseBranch, hslot, elseBranch.id_mem_ids⟩
  have hput : (old.put elseBranch.id none).term =
      .node .ifStmt old.type [cond.term, thenBranch.term] := by
    have hnodup := Tree.nodup_ids_of_mem hbase.nodup hold
    rw [hform] at hnodup ⊢
    have hsplit := @Tree.flatMap_putSlot none elseBranch.id [cond, thenBranch] [] elseBranch
      (Tree.nodup_slots hnodup) elseBranch.id_mem_ids
    rw [Tree.put_node, show [cond, thenBranch, elseBranch] =
      [cond, thenBranch] ++ elseBranch :: [] from rfl, hsplit]
    simp [Tree.putSlot]
  have hkept : base.KeepsOutside final ([elseBranch].map Tree.id) :=
    hstart.commit_keepsOthers hbase hmem hneTree (List.nil_subset _) (.inl rfl) hcommit
  have hinside : ∀ inner, inner ∈ [elseBranch] → inner ∈ old.subtrees ∧ inner ≠ old := by
    intro inner hinner
    rw [List.mem_singleton.mp hinner]
    exact ⟨Tree.sub_mem_subtrees hslot, Tree.ne_of_mem_slot (Tree.mem_subtrees_self old) hslot
      (Tree.mem_subtrees_self elseBranch)⟩
  refine .inr ⟨_, base, final, _, by simp, rfl, hcommit,
    ⟨hholds, hages, Tree.beside_inside hbase.nodup hold hne htarget,
      Tree.confined_put_fresh hbase.nodup hmem hneTree (by simp), Tree.id_put ..,
      [], by simp, hkept.above hbase hold hinside⟩,
    Tree.rewrittenBy_inside hbase.nodup hold hne (by rw [hform]; rfl) htarget ?_⟩
  rw [hput, hform, Tree.term_node]
  exact .dropElse helse

theorem answers_respondIf {cond thenBranch : Tree} {elseBranch : Option Tree}
    (hbase : base.Holds tree) (hold : old ∈ tree.subtrees) (hne : old ≠ tree)
    (hkind : base.kind old.id = .ifStmt cond.id thenBranch.id (elseBranch.map Tree.id))
    (hform : old = .node old.id .ifStmt old.type (cond :: thenBranch :: elseBranch.toList)) :
    Answers (respondIf old.id cond.id thenBranch.id (elseBranch.map Tree.id)) base tree old.id
      (tree.RewrittenBy Rewrite old.term) := by
  have hlegible := Tree.Legible.of_holds hbase hold
  have hsubs : old.subs = cond :: thenBranch :: elseBranch.toList := by rw [hform]; rfl
  have hterm : old.term = .node .ifStmt old.type
      (cond.term :: thenBranch.term :: (elseBranch.map Tree.term).toList) := by
    rw [hform]
    cases elseBranch <;> simp
  have hstmt : old.head.isExpression = false := by rw [hform]; rfl
  have hcondLegible : cond.Legible base := hlegible.sub (by rw [hsubs]; simp)
  have hthenLegible : thenBranch.Legible base := hlegible.sub (by rw [hsubs]; simp)
  have helseEmpty : base.isEmptyBranch (elseBranch.map Tree.id) =
      Term.isEmptyBranch (elseBranch.map Tree.term) := by
    apply Tree.isEmptyBranch_map
    rintro branch rfl
    exact hlegible.sub (by rw [hsubs]; simp)
  refine Answers.congr ?_ (Build.bind_ok (Build.run_get base))
  rw [hcondLegible.boolLiteral?, hthenLegible.isEmptyBranch, helseEmpty]
  cases hliteral : cond.term.boolLiteral? with
  | some value =>
      cases value with
      | true =>
          refine @answers_takeBranch _ _ _ (some thenBranch) hbase hold hne hstmt ?_ ?_ ?_
          · rintro stmt ⟨⟩
            rw [hsubs]
            simp
          · rintro stmt ⟨⟩
            rw [hterm]
            exact .takeThen hliteral
          · intro hnone
            cases hnone
      | false =>
          refine @answers_takeBranch _ _ _ elseBranch hbase hold hne hstmt ?_ ?_ ?_
          · rintro stmt rfl
            rw [hsubs]
            simp
          · rintro stmt rfl
            rw [hterm]
            exact .takeElse hliteral
          · rintro rfl fresh hfresh
            rw [hterm]
            exact .dropIf hliteral hfresh
  | none =>
      simp only
      by_cases hthen : Term.isEmptyBranch (some thenBranch.term) = true
      · by_cases helse : Term.isEmptyBranch (elseBranch.map Tree.term) = true
        · rw [hthen, helse]
          exact answers_dropEmptyIf hbase hold hne hform hthen helse
        · cases elseBranch with
          | none => exact absurd rfl helse
          | some branch =>
              rw [Bool.not_eq_true] at helse
              rw [hthen, helse]
              exact answers_invertIf hbase hold hne hform hthen
      · rw [Bool.not_eq_true] at hthen
        rw [hthen]
        cases elseBranch with
        | none => exact .inl rfl
        | some branch =>
            by_cases helse : Term.isEmptyBranch (some branch.term) = true
            · simp only [Option.map_some, helse]
              exact answers_dropElse hbase hold hne hkind hform helse
            · rw [Bool.not_eq_true] at helse
              simp only [Option.map_some, helse]
              exact .inl rfl

theorem answers (hbase : base.Holds tree) (hold : old ∈ tree.subtrees) (hne : old ≠ tree) :
    Answers (respond options old.id) base tree old.id
      (tree.RewrittenBy Rewrite old.term) := by
  have hlegible := Tree.Legible.of_holds hbase hold
  have hstart : Draft base [] base [] := .start hbase.idle hbase.typed
  have hbegin : respond options old.id base = _ :=
    Build.bind_ok (Build.run_kindOf hlegible.lt)
  cases hkind : base.kind old.id <;> rw [hkind] at hbegin
  case ifStmt cond thenBranch elseBranch =>
    obtain ⟨c, t, e, rfl, rfl, rfl, hform⟩ := hlegible.of_ifStmt hkind
    exact (answers_respondIf hbase hold hne hkind hform).congr hbegin
  case whileStmt cond body =>
    obtain ⟨subs, hform, hids⟩ := hlegible.of_kind hkind
    obtain ⟨c, rest, rfl, rfl, hrest⟩ := List.map_eq_cons_iff.mp hids
    obtain ⟨b, rfl, rfl⟩ := List.map_eq_singleton_iff.mp hrest
    have hcond : c.Legible base := hlegible.sub (by rw [hform]; simp)
    have hterm : old.term = .node .whileStmt old.type [c.term, b.term] := by
      rw [hform]
      simp [Kind.head]
    simp only at hbegin
    rw [Build.bind_ok (Build.run_get base), hcond.boolLiteral?] at hbegin
    by_cases hfalse : c.term.boolLiteral? = some false
    · rw [if_pos hfalse] at hbegin
      refine hstart.answers_drop hbase hold hne hbegin ?_
      intro fresh hfresh
      rw [hterm]
      exact .dropLoop hfalse hfresh
    · rw [if_neg hfalse] at hbegin
      exact .inl hbegin
  all_goals exact .inl hbegin

end DeadBranch

end CodeTidy
