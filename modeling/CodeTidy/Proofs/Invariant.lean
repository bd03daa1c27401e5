import CodeTidy.Proofs.Termination

/-!
# What a run keeps

A property of the tree that no exchange destroys holds at every store a run passes
through.
-/

namespace CodeTidy

namespace Term

/-! ## Properties of every node -/

theorem all_imp {p q : Term → Bool} (himp : ∀ term, p term = true → q term = true)
    {term : Term} (h : term.all p = true) : term.all q = true := by
  induction term with
  | node head type subs ih =>
      rw [all_node, Bool.and_eq_true, List.all_eq_true] at h ⊢
      exact ⟨himp _ h.1, fun sub hsub => ih sub hsub (h.2 sub hsub)⟩

/-- A property of every node passes to the statements of a branch. -/
theorem all_statements {holds : Term → Bool} {branch stmt : Term}
    (h : branch.all holds = true) (hstmt : stmt ∈ branch.statements) :
    stmt.all holds = true := by
  unfold statements at hstmt
  split at hstmt
  · exact all_sub h hstmt
  · obtain rfl := List.mem_singleton.mp hstmt
    exact h

end Term

theorem EmptinessTest.Reads.all_receiver {op : InfixOp} {size literal receiver : Term}
    {verdict : Verdict} {holds : Term → Bool} (h : Reads op size literal receiver verdict)
    (hall : size.all holds = true) : receiver.all holds = true := by
  obtain ⟨method, type, value, hbare, -⟩ := h
  have hcall := Term.all_bare hall
  rw [hbare] at hcall
  exact Term.all_sub hcall (List.mem_singleton_self _)

namespace Term

/-! ## Exchanges -/

/-- An exchange in the course of a commit: a rule makes it, or a name is retyped. -/
inductive Exchanged : Rewriting where
  | rule {old : Term} {fresh : Option Term} (h : Rewritten old fresh) : Exchanged old fresh
  | retype {old : Term} {fresh : Option Term} (h : LocalTable.Retype old fresh) :
      Exchanged old fresh

variable {strict : Bool} {old a b : Term} {fresh : Option Term}

theorem Exchanged.exchange (h : Exchanged old fresh) (hall : old.all (isSound strict) = true) :
    Exchange strict old fresh := by
  cases h with
  | rule h => exact h.exchange hall
  | retype h => exact h.exchange

/-- Only expressions and statements are exchanged. -/
theorem Exchanged.sort (h : Exchanged old fresh) :
    old.head.isExpression = true ∨ old.head.isStatement = true := by
  cases h with
  | retype h => cases h <;> simp [Head.isExpression, Head.strength?, Head.isStatement]
  | rule h =>
      cases h with
      | switch h => cases h <;> exact .inr rfl
      | set h => cases h <;> exact .inr rfl
      | dead h => cases h <;> exact .inr rfl
      | table h => cases h <;> simp [Head.isExpression, Head.strength?, Head.isStatement]
      | negation h => cases h; exact .inl rfl
      | emptiness h => cases h; exact .inl rfl
      | string h => cases h <;> exact .inl rfl

/-- Expressions are exchanged for expressions in order. -/
theorem Exchanged.isExpr {new : Term} (h : Exchanged old (some new))
    (hall : old.all isOrderly = true) (hold : old.head.isExpression = true) :
    new.IsExpr false := by
  have hexchange := h.exchange ((all_isSound_false old).trans hall)
  exact ⟨hexchange.expression hold new rfl, hexchange.sound new rfl⟩

/-- What every exchange keeps, a commit keeps. -/
theorem Commit.keeps {keeps : Term → Prop}
    (hswap : ∀ {old fresh a b}, Exchanged old fresh → Swap old fresh a b →
      a.all isOrderly = true → keeps a → keeps b)
    (h : Commit a b) (horder : a.all isOrderly = true) (hkeeps : keeps a) : keeps b := by
  obtain ⟨middle, hretouch, old, fresh, hrewrite, hlast⟩ := h
  have hmiddle : middle.all isOrderly = true ∧ keeps middle := by
    clear hlast
    induction hretouch with
    | refl => exact ⟨horder, hkeeps⟩
    | tail _ hstep ih =>
        obtain ⟨old', fresh', hretype, hstep⟩ := hstep
        refine ⟨?_, hswap (.retype hretype) hstep ih.1 ih.2⟩
        rw [← all_isSound_false]
        exact hretype.exchange.swap hstep ((all_isSound_false _).trans ih.1)
  exact hswap (.rule hrewrite) hlast hmiddle.1 hmiddle.2

end Term

variable {engine : Engine} {source : Source} {cancelled : Bool}

/-- A run ends, and what every exchange keeps holds at every store it passes through. -/
theorem Engine.run_keeps {keeps : Term → Prop} (hrules : Selected engine.rules)
    (h : source.Proper)
    (hswap : ∀ {old fresh a b}, Term.Exchanged old fresh → Term.Swap old fresh a b →
      a.all Term.isOrderly = true → keeps a → keeps b)
    (hkeeps : keeps (source.store.term source.root)) :
    ∃ report final stores, engine.run source cancelled = .ok (report, ⟨final, source.root⟩) ∧
      Trail engine.settings.options engine.rules source.root source.store report.log stores
        final ∧
      ∀ store, store ∈ final :: stores → Source.Proper ⟨store, source.root⟩ ∧
        keeps (store.term source.root) :=
  run_of_outcomes hrules hrules.outcomes id h (fun hcommitted => hcommitted.keeps hswap) hkeeps

theorem Engine.exists_outcome {engine : Engine} {source : Source}
    {check : Report × Source → Bool}
    (h : (engine.run source cancelled).toOption.any check = true) :
    ∃ report after, engine.run source cancelled = .ok (report, after) ∧
      check (report, after) = true := by
  cases hrun : engine.run source cancelled with
  | error fault =>
      rw [hrun] at h
      cases h
  | ok outcome =>
      rw [hrun] at h
      exact ⟨outcome.1, outcome.2, rfl, h⟩

end CodeTidy
