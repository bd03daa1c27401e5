import CodeTidy.Proofs.Effect
import CodeTidy.Rule.EmptinessTest

/-!
# What the emptiness rule does

A comparison of a size with a literal becomes what it says about the receiver.
-/

namespace CodeTidy

namespace EmptinessTest

def statement (receiver : Term) : Verdict → Term
  | .always value => .boolLit value
  | .empty => .call receiver "isEmpty" []
  | .notEmpty => Term.not (.call receiver "isEmpty" [])

/-- `size op literal` gives the verdict about the receiver. -/
def Reads (op : InfixOp) (size literal receiver : Term) (verdict : Verdict) : Prop :=
  ∃ method type value, size.bare = .node (.call true method) type [receiver] ∧
    (method = "size" ∨ method = "length") ∧ literal.intLiteral? = some value ∧
    verdict? op value = some verdict

/-- A comparison, with the size on either side, becomes the statement of its verdict.  A
verdict that does not mention the receiver needs a passive one. -/
inductive Rewrite : Rewriting where
  | states {op : InfixOp} {type : Option TypeDesc} {left right receiver : Term}
      {verdict : Verdict} {outer : Option Nat}
      (hreads : Reads op left right receiver verdict ∨
        Reads op.swapped right left receiver verdict)
      (hpassive : ∀ value, verdict = .always value → receiver.isPassive = true) :
      Rewrite (.node (.chain op) type [left, right])
        (some ((statement receiver verdict).fit outer))

variable {base : Store} {tree old call literal receiver : Tree} {options : Options}
  {verdict : Verdict}

theorem of_sizedReceiver? (h : call.Legible base) {id : NodeId}
    (hreceiver : sizedReceiver? base options call.id = some id) :
    ∃ receiver ∈ call.subtrees, receiver.id = id ∧ ∃ method type,
      call.term.bare = .node (.call true method) type [receiver.term] ∧
      (method = "size" ∨ method = "length") := by
  unfold sizedReceiver? at hreceiver
  rw [h.unparenthesized] at hreceiver
  split at hreceiver
  · next target method hkind =>
      obtain ⟨subs, hform, hids⟩ := h.bare.of_kind hkind
      obtain ⟨receiver, rfl, rfl⟩ := List.map_eq_singleton_iff.mp hids
      split at hreceiver
      · next type htype =>
          split at hreceiver
          · next hsize =>
              cases hreceiver
              refine ⟨receiver, ?_, rfl, method, call.bare.type, ?_, ?_⟩
              · refine Tree.slot_mem_subtrees call.bare_mem_subtrees ?_
                rw [hform]
                exact List.mem_singleton_self receiver
              · rw [← Tree.term_bare, hform]
                simp [Kind.head]
              · unfold isSizeMethod at hsize
                split at hsize
                · exact .inl ‹_›
                · split at hsize
                  · exact .inr ‹_›
                  · cases hsize
          · cases hreceiver
      · cases hreceiver
  · cases hreceiver

theorem of_readTest? (hcall : call.Legible base) (hliteral : literal.Legible base)
    {op : InfixOp} {id : NodeId}
    (hread : readTest? base options op call.id literal.id = some (id, verdict)) :
    ∃ receiver ∈ call.subtrees, receiver.id = id ∧
      Reads op call.term literal.term receiver.term verdict := by
  unfold readTest? at hread
  split at hread
  · next target value htarget hvalue =>
      obtain ⟨receiver, hmem, rfl, method, type, hbare, hmethod⟩ :=
        of_sizedReceiver? hcall htarget
      simp only [Option.map_eq_some_iff, Prod.mk.injEq] at hread
      obtain ⟨found, hfound, rfl, rfl⟩ := hread
      rw [hliteral.intLiteral?] at hvalue
      exact ⟨receiver, hmem, rfl, method, type, value, hbare, hmethod, hvalue, hfound⟩
  · cases hread

theorem of_sizeTest? (h : old.Legible base) {id : NodeId}
    (htest : sizeTest? base options (base.kind old.id) = some (id, verdict)) :
    ∃ receiver ∈ old.subs.flatMap Tree.subtrees, receiver.id = id ∧
      ∀ outer, (∀ value, verdict = .always value → receiver.term.isPassive = true) →
        Rewrite old.term (some ((statement receiver.term verdict).fit outer)) := by
  unfold sizeTest? at htest
  split at htest
  · next op left right hkind =>
      obtain ⟨subs, hform, hids⟩ := h.of_kind hkind
      obtain ⟨l, rest, rfl, rfl, hrest⟩ := List.map_eq_cons_iff.mp hids
      obtain ⟨r, rfl, rfl⟩ := List.map_eq_singleton_iff.mp hrest
      have hterm : old.term = .node (.chain op) old.type [l.term, r.term] := by
        rw [hform]
        simp [Kind.head]
      have hsubs : old.subs = [l, r] := by rw [hform]; rfl
      have hl : l.Legible base := h.sub (by rw [hsubs]; simp)
      have hr : r.Legible base := h.sub (by rw [hsubs]; simp)
      rw [hterm, hsubs]
      split at htest
      · cases hfirst : readTest? base options op l.id r.id with
        | some found =>
            rw [hfirst] at htest
            cases htest
            obtain ⟨receiver, hmem, hid, hreads⟩ := of_readTest? hl hr hfirst
            exact ⟨receiver, by simp [hmem], hid, fun outer hpassive =>
              .states (.inl hreads) hpassive⟩
        | none =>
            rw [hfirst] at htest
            obtain ⟨receiver, hmem, hid, hreads⟩ := of_readTest? hr hl htest
            exact ⟨receiver, by simp [hmem], hid, fun outer hpassive =>
              .states (.inr hreads) hpassive⟩
      · cases htest
  · cases htest

theorem yields_verdictExpr (h : Draft base [] base []) (hlive : receiver.Live base)
    (verdict : Verdict) :
    Yields base (receiver.ids ++ []) base [] (verdictExpr receiver.id verdict)
      (statement receiver.term verdict) := by
  cases verdict with
  | always value => exact (h.widen (List.nil_subset _)).yields_boolLit value
  | empty =>
      obtain ⟨middle, htake, hmiddle⟩ := h.take_live hlive (List.disjoint_nil_right _)
      apply Yields.of_bind_ok htake
      exact @Draft.yields_call _ _ _ [] receiver [] "isEmpty" hmiddle
  | notEmpty =>
      obtain ⟨middle, htake, hmiddle⟩ := h.take_live hlive (List.disjoint_nil_right _)
      apply Yields.of_bind_ok htake
      apply (@Draft.yields_call _ _ _ [] receiver [] "isEmpty" hmiddle).bind
      intro later new hdraft hterm
      rw [statement, ← show new.term = .call receiver.term "isEmpty" [] from hterm]
      exact hdraft.yields_not

theorem answers (hbase : base.Holds tree) (hold : old ∈ tree.subtrees) (hne : old ≠ tree) :
    Answers (respond options old.id) base tree old.id
      (tree.RewrittenBy Rewrite old.term) := by
  have hlegible := Tree.Legible.of_holds hbase hold
  have hlive := hbase.live hold hne
  have hstart : Draft base [] base [] := .start hbase.idle hbase.typed
  have hbegin : respond options old.id base = _ :=
    (Build.bind_ok (Build.run_kindOf hlegible.lt)).trans (Build.bind_ok (Build.run_get base))
  cases htest : sizeTest? base options (base.kind old.id) with
  | none =>
      rw [htest] at hbegin
      exact .inl hbegin
  | some found =>
      obtain ⟨id, verdict⟩ := found
      obtain ⟨receiver, hreceiver, rfl, hrel⟩ := of_sizeTest? hlegible htest
      obtain ⟨side, hside, hin⟩ := List.mem_flatMap.mp hreceiver
      have hreceiverLive := (hlive.sub hside).of_mem hin
      rw [htest] at hbegin
      simp only at hbegin
      by_cases hstatable : isStatable base receiver.id verdict = true
      · obtain ⟨middle, stated, hstated, hmiddle, hstatedTerm⟩ :=
          yields_verdictExpr hstart hreceiverLive verdict
        obtain ⟨drafted, new, hnew, hdraft, hterm⟩ := hmiddle.yields_parenthesizeFor
          (Nat.lt_of_lt_of_le hlegible.lt hmiddle.grows.size)
        have hrun : respond options old.id base =
            .ok (.edit [⟨old.id, .replace (.fresh new.id)⟩], drafted) := by
          rw [hbegin, if_pos hstatable, Build.bind_ok hstated]
          exact (Build.bind_ok hnew).trans rfl
        refine hdraft.answers_replace hbase hold hne ?_ rfl hrun ?_
          (fun _ => hmiddle.suits_fit hbase hold hne hterm)
        · intro id hid
          rw [List.append_nil] at hid
          exact List.mem_flatMap.mpr ⟨side, hside, Tree.ids_subset_of_mem hin hid⟩
        · rw [hterm, hstatedTerm]
          apply hrel
          intro value hvalue
          subst hvalue
          rw [← hreceiverLive.legible.isPassive]
          exact hstatable
      · rw [if_neg hstatable] at hbegin
        exact .inl hbegin

end EmptinessTest

end CodeTidy
