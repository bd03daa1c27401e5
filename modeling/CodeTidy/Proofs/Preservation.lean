import CodeTidy.Proofs.Selection

/-!
# Runs of the engine show nothing

What a unit shows when it is run, it shows after any number of runs of the engine over it.
Two conditions on the unit are needed, and every commit keeps them: the labels of a switch
are literals of different values (`Term.hasPlainLabels`), and names share a binding exactly
when they share their text (`Term.isKnown`).
-/

namespace CodeTidy

namespace Term

/-! ## Checks of names and switches -/

/-- The check concerns only switches and resolved names, and not what is known about their
types. -/
structure Lenient (holds : Term → Bool) : Prop where
  free : ∀ {head : Head} {type : Option TypeDesc} {subs : List Term},
    head ≠ .switchStmt → head.mentioned? = none → holds (.node head type subs) = true
  retype : ∀ {head : Head} {type type' : Option TypeDesc} {subs : List Term},
    holds (.node head type subs) = true → holds (.node head type' subs) = true

theorem lenient_isKnown (known : List (String × BindingId)) : Lenient (isKnown known) where
  free := by
    intro head type subs _ hname
    unfold isKnown
    split
    · next hhead =>
        rw [show head = _ from hhead] at hname
        cases hname
    · rfl
  retype h := h

theorem lenient_hasPlainLabels : Lenient hasPlainLabels where
  free := fun hswitch _ => hasPlainLabels_iff.mpr fun hhead => absurd hhead hswitch
  retype h := h

namespace Lenient

variable {holds : Term → Bool} {term : Term} {terms : List Term} {old : Term}
  {fresh : Option Term}

theorem node (h : Lenient holds) {head : Head} {type : Option TypeDesc} {subs : List Term}
    (hswitch : head ≠ .switchStmt) (hname : head.mentioned? = none)
    (hsubs : ∀ sub, sub ∈ subs → sub.all holds = true) :
    (Term.node head type subs).all holds = true := by
  rw [all_node, Bool.and_eq_true, List.all_eq_true]
  exact ⟨h.free hswitch hname, hsubs⟩

theorem retyped (h : Lenient holds) {head : Head} {type type' : Option TypeDesc}
    {subs : List Term} (hall : (Term.node head type subs).all holds = true) :
    (Term.node head type' subs).all holds = true := by
  rw [all_node, Bool.and_eq_true] at hall ⊢
  exact ⟨h.retype hall.1, hall.2⟩

/-! ### Constructed terms -/

theorem paren (h : Lenient holds) (hterm : term.all holds = true) :
    term.paren.all holds = true :=
  h.node (by simp) rfl (by simpa using hterm)

theorem wrap (h : Lenient holds) (hterm : term.all holds = true) (outer : Nat) :
    (term.wrap outer).all holds = true := by
  unfold Term.wrap
  split
  · exact h.paren hterm
  · exact hterm

theorem fit (h : Lenient holds) (hterm : term.all holds = true) (outer : Option Nat) :
    (term.fit outer).all holds = true := by
  cases outer with
  | none => exact hterm
  | some outer => exact h.wrap hterm outer

theorem not (h : Lenient holds) (hterm : term.all holds = true) : term.not.all holds = true :=
  h.node (by simp) rfl (by simpa using h.wrap hterm _)

theorem bareName (h : Lenient holds) (text : String) : (bareName text).all holds = true :=
  h.node (by simp) rfl (by simp)

theorem boolLit (h : Lenient holds) (value : Bool) : (boolLit value).all holds = true :=
  h.node (by simp) rfl (by simp)

theorem chain (h : Lenient holds) {op : InfixOp}
    (hterms : ∀ term, term ∈ terms → term.all holds = true) :
    (chain op terms).all holds = true :=
  h.node (by simp) rfl hterms

theorem join (h : Lenient holds) {op : InfixOp}
    (hterms : ∀ term, term ∈ terms → term.all holds = true) :
    (join op terms).all holds = true := by
  unfold Term.join
  split
  · exact hterms _ (List.mem_singleton_self _)
  · refine h.chain ?_
    intro term hterm
    obtain ⟨inner, hinner, rfl⟩ := List.mem_map.mp hterm
    exact h.wrap (hterms inner hinner) _

theorem call (h : Lenient holds) {method : String} (hterm : term.all holds = true)
    (hargs : ∀ arg, arg ∈ terms → arg.all holds = true) :
    (term.call method terms).all holds = true := by
  refine h.node (by simp) rfl ?_
  intro sub hsub
  rcases List.mem_cons.mp hsub with rfl | hsub
  · exact h.wrap hterm _
  · exact hargs sub hsub

theorem qualified (h : Lenient holds) {qualifier simple : Term}
    (hqualifier : qualifier.all holds = true) (hsimple : simple.all holds = true) :
    (qualified qualifier simple).all holds = true :=
  h.node (by simp) rfl (by simp [hqualifier, hsimple])

theorem typeName (h : Lenient holds) (dotted : String) : (typeName dotted).all holds = true := by
  unfold Term.typeName
  have hstep : ∀ (segments : List String) (start : Term), start.all holds = true →
      (segments.foldl (fun qualifier segment =>
        Term.qualified qualifier (Term.bareName segment)) start).all holds = true := by
    intro segments
    induction segments with
    | nil => exact fun _ hstart => hstart
    | cons segment segments ih =>
        exact fun start hstart => ih _ (h.qualified hstart (h.bareName segment))
  exact hstep _ _ (h.bareName _)

theorem negate (h : Lenient holds) (hterm : term.all holds = true) (invert : Bool) :
    (term.negate invert).all holds = true := by
  have hbare := all_bare hterm
  rcases negate_cases invert term with ⟨type, operand, heq, hnegate⟩ | ⟨value, hnegate⟩ |
    ⟨op, inverse, type, left, right, heq, hop, hnegate⟩ | hnegate <;> rw [hnegate]
  · rw [heq] at hbare
    exact all_sub hbare (List.mem_singleton_self _)
  · exact h.boolLit value
  · rw [heq] at hbare
    exact h.chain fun operand hoperand => all_sub hbare hoperand
  · exact h.not hterm

theorem push (h : Lenient holds) (hterm : term.all holds = true) :
    term.push.all holds = true := by
  induction term with
  | node head type subs ih =>
      rcases push_form (.node head type subs) with
        ⟨_, inner, ⟨⟩⟩ | ⟨op, dual, _, _, ⟨⟩, hdual⟩ | ⟨-, hnegate⟩
      · rw [push_paren]
        exact ih inner (List.mem_singleton_self _) (all_sub hterm (List.mem_singleton_self _))
      · rw [push_of_dual type subs hdual]
        refine h.paren (h.join ?_)
        intro sub hsub
        obtain ⟨inner, hinner, rfl⟩ := List.mem_map.mp hsub
        exact ih inner hinner (all_sub hterm hinner)
      · rw [hnegate]
        exact h.negate hterm _

theorem block (h : Lenient holds) (hterms : ∀ stmt, stmt ∈ terms → stmt.all holds = true) :
    (block terms).all holds = true :=
  h.node (by simp) rfl hterms

/-! ### Rules -/

theorem vanished (h : Lenient holds) (hfresh : Vanished fresh) {new : Term} (hnew : new ∈ fresh) :
    new.all holds = true := by
  cases hfresh <;> cases hnew
  exact h.block (by simp)

theorem string (h : Lenient holds) (hrewrite : StringConversion.Rewrite old fresh)
    (hall : old.all holds = true) {new : Term} (hnew : new ∈ fresh) : new.all holds = true := by
  cases hrewrite <;> cases hnew
  all_goals
    refine h.call (h.bareName _) ?_
    intro arg harg
    obtain rfl := List.mem_singleton.mp harg
    exact all_sub hall (by simp)

theorem emptiness (h : Lenient holds) (hrewrite : EmptinessTest.Rewrite old fresh)
    (hall : old.all holds = true) {new : Term} (hnew : new ∈ fresh) : new.all holds = true := by
  cases hrewrite with
  | @states op type left right receiver verdict outer hreads hpassive =>
      cases hnew
      have hreceiver : receiver.all holds = true := by
        rcases hreads with hreads | hreads
        · exact hreads.all_receiver (all_sub hall (by simp))
        · exact hreads.all_receiver (all_sub hall (by simp))
      refine h.fit ?_ outer
      cases verdict with
      | always value => exact h.boolLit value
      | empty => exact h.call hreceiver (by simp)
      | notEmpty => exact h.not (h.call hreceiver (by simp))

theorem dead (h : Lenient holds) (hrewrite : DeadBranch.Rewrite old fresh)
    (hall : old.all holds = true) {new : Term} (hnew : new ∈ fresh) : new.all holds = true := by
  have hsub : ∀ {sub}, sub ∈ old.subs → sub.all holds = true :=
    fun hmem => all_sub hall hmem
  cases hrewrite with
  | takeThen hcond => cases hnew; exact hsub (by simp)
  | takeElse hcond => cases hnew; exact hsub (by simp)
  | dropIf hcond hfresh => exact h.vanished hfresh hnew
  | dropLoop hcond hfresh => exact h.vanished hfresh hnew
  | dropEmpty hthen helse hcond hfresh => exact h.vanished hfresh hnew
  | @keepCondition type cond thenBranch elseBranch hthen helse hcond =>
      cases hnew
      have hcond : cond.all holds = true := hsub (by simp)
      exact h.node (by simp) rfl (by simpa using all_bare hcond)
  | @dropElse type cond thenBranch elseBranch helse =>
      cases hnew
      have hcond : cond.all holds = true := hsub (by simp)
      have hthen : thenBranch.all holds = true := hsub (by simp)
      exact h.node (by simp) rfl (by simp [hcond, hthen])
  | @invert type cond thenBranch elseBranch hthen =>
      cases hnew
      have hcond : cond.all holds = true := hsub (by simp)
      have helse : elseBranch.all holds = true := hsub (by simp)
      have hblock : (DeadBranch.asBlock elseBranch).all holds = true := by
        unfold DeadBranch.asBlock
        split
        · exact helse
        · exact h.block (by simpa using helse)
      exact h.node (by simp) rfl (by simp [h.negate hcond, hblock])

theorem remains (h : Lenient holds) {branch new : Term} (hall : branch.all holds = true)
    (hnew : new ∈ SetUpdate.remains branch) : new.all holds = true := by
  unfold SetUpdate.remains at hnew
  split at hnew
  · cases hnew
    exact h.node (by simp) rfl (fun stmt hstmt => all_sub hall (List.mem_of_mem_tail hstmt))
  · cases hnew

theorem set (h : Lenient holds) (hrewrite : SetUpdate.Rewrite old fresh)
    (hall : old.all holds = true) {new : Term} (hnew : new ∈ fresh) : new.all holds = true := by
  have hsub : ∀ {sub}, sub ∈ old.subs → sub.all holds = true :=
    fun hmem => all_sub hall hmem
  cases hrewrite with
  | @onlyThen type cond thenBranch stmt call elseBranch hrepeats hthen helse =>
      cases hnew
      exact all_statements (hsub (by simp)) (hthen ▸ List.mem_singleton_self _)
  | @onlyElse type cond thenBranch elseBranch stmt call hrepeats hthen helse =>
      cases hnew
      exact all_statements (hsub (by simp)) (helse ▸ List.mem_singleton_self _)
  | @inThen type cond thenBranch stmt call rest elseBranch hrepeats hthen =>
      cases hnew
      have hbranch : thenBranch.all holds = true := hsub (by simp)
      have hcall := hrepeats.all (all_statements hbranch (hthen ▸ List.mem_cons_self ..))
      have hrest : ((SetUpdate.remains thenBranch).getD (Term.block [])).all holds = true := by
        cases hremains : SetUpdate.remains thenBranch with
        | some left => exact h.remains hbranch hremains
        | none => exact h.block (by simp)
      refine h.node (by simp) rfl ?_
      intro sub hmem
      rcases List.mem_cons.mp hmem with rfl | hmem
      · exact hcall
      · rcases List.mem_cons.mp hmem with rfl | hmem
        · exact hrest
        · exact hsub (by simp [hmem])
  | @inElse type cond thenBranch elseBranch stmt call rest hrepeats helse =>
      cases hnew
      have hbranch : elseBranch.all holds = true := hsub (by simp)
      have hcall := hrepeats.all (all_statements hbranch (helse ▸ List.mem_cons_self ..))
      refine h.node (by simp) rfl ?_
      intro sub hmem
      rcases List.mem_cons.mp hmem with rfl | hmem
      · exact h.not hcall
      · rcases List.mem_cons.mp hmem with rfl | hmem
        · exact hsub (by simp)
        · exact h.remains hbranch (by simpa using hmem)

theorem labelTerm (h : Lenient holds) {subject label : Term} (hsubject : subject.all holds = true)
    (hlabel : label.all holds = true) :
    (TwoWaySwitch.labelTerm subject label).all holds = true := by
  unfold TwoWaySwitch.labelTerm
  split
  · exact h.call hlabel (by simpa using hsubject)
  · next typeText _ =>
      exact h.chain (by simp [hsubject, h.qualified (h.typeName typeText) hlabel])
  · exact h.chain (by simp [h.wrap hsubject, hlabel])

theorem conditionalTerm (h : Lenient holds) {subject : Term}
    {groups : List (TwoWaySwitch.Group Term)} (hsubject : subject.all holds = true)
    (hgroups : ∀ group, group ∈ groups →
      (∀ stmt, stmt ∈ group.stmts → stmt.all holds = true) ∧
      ∀ label, label ∈ group.labels → label.all holds = true) {new : Term}
    (hnew : new ∈ TwoWaySwitch.conditionalTerm subject groups) : new.all holds = true := by
  induction groups generalizing new with
  | nil => cases hnew
  | cons group groups ih =>
      obtain ⟨hstmts, hlabels⟩ := hgroups group (List.mem_cons_self ..)
      have hrest : ∀ stmt, stmt ∈ TwoWaySwitch.conditionalTerm subject groups →
          stmt.all holds = true :=
        fun stmt => ih fun other hother => hgroups other (List.mem_cons_of_mem _ hother)
      have hblock := h.block hstmts
      have htest : (TwoWaySwitch.groupTerm subject group.labels).all holds = true := by
        refine h.join ?_
        intro test htest
        obtain ⟨label, hlabel, rfl⟩ := List.mem_map.mp htest
        exact h.labelTerm hsubject (hlabels label hlabel)
      have hstep : new ∈ TwoWaySwitch.statementTerm subject group
          (TwoWaySwitch.conditionalTerm subject groups) := hnew
      rcases TwoWaySwitch.statementTerm_cases hstep with ⟨-, rfl⟩ | ⟨-, rfl⟩
      · exact hblock
      · refine h.node (by simp) rfl ?_
        simpa [htest, hblock] using hrest

theorem switch (h : Lenient holds) (hrewrite : TwoWaySwitch.Rewrite old fresh)
    (hall : old.all holds = true) {new : Term} (hnew : new ∈ fresh) : new.all holds = true := by
  obtain ⟨type, subject, body, groups, rfl, hfresh, hgroups⟩ := hrewrite.exists_groups
  rcases TwoWaySwitch.mem_of_becomes hfresh hnew with hresult | hvanished
  · refine h.conditionalTerm (all_sub hall (List.mem_cons_self ..)) ?_ hresult
    intro group hgroup
    have hfrom := hgroups group hgroup
    refine ⟨fun stmt hstmt => all_sub hall (List.mem_cons_of_mem _ (hfrom.stmts stmt hstmt)), ?_⟩
    intro label hlabel
    obtain ⟨item, hitem, hsub⟩ := List.mem_flatMap.mp hlabel
    exact all_sub (all_sub hall (List.mem_cons_of_mem _ (hfrom.items item hitem).1)) hsub
  · exact h.vanished hvanished hnew

/-- What an exchange puts in place is made of what was there. -/
theorem exchanged (h : Lenient holds) (hexchanged : Exchanged old fresh)
    (hall : old.all holds = true) {new : Term} (hnew : new ∈ fresh) : new.all holds = true := by
  cases hexchanged with
  | retype hretype =>
      cases hretype with
      | name =>
          cases hnew
          exact h.retyped hall
      | synonym =>
          cases hnew
          have hsource := all_sub hall (List.mem_singleton_self _)
          exact h.node (by simp) rfl (by simpa using h.retyped hsource)
  | rule hrule =>
      cases hrule with
      | switch hrewrite => exact h.switch hrewrite hall hnew
      | set hrewrite => exact h.set hrewrite hall hnew
      | dead hrewrite => exact h.dead hrewrite hall hnew
      | string hrewrite => exact h.string hrewrite hall hnew
      | emptiness hrewrite => exact h.emptiness hrewrite hall hnew
      | negation hrewrite =>
          cases hrewrite
          cases hnew
          exact h.fit (h.push (all_sub hall (by simp))) _
      | table hrewrite =>
          cases hrewrite with
          | creation htable =>
              cases hnew
              exact h.retyped hall
          | initializer htable =>
              cases hnew
              have hmade := all_sub hall (List.mem_singleton_self _)
              exact h.node (by simp) rfl (by simpa using h.retyped hmade)

end Lenient

/-! ## Names and labels in a run -/

variable {old a b : Term} {fresh : Option Term} {known : List (String × BindingId)}

theorem Exchanged.swap_isKnown (h : Exchanged old fresh) (hswap : Swap old fresh a b)
    (hall : a.all (isKnown known) = true) : b.all (isKnown known) = true :=
  hswap.all hall (fun _ hnew hold => (lenient_isKnown known).exchanged h hold hnew)
    (fun _ _ _ _ _ hself _ _ => hself) (fun _ _ _ _ _ _ _ _ hself => hself)

theorem Exchanged.not_literal (h : Exchanged old fresh) (value : Literal) :
    old.head ≠ .literal value := by
  intro hhead
  cases h with
  | retype h => cases h <;> cases hhead
  | rule h =>
      cases h with
      | switch h => cases h <;> cases hhead
      | set h => cases h <;> cases hhead
      | dead h => cases h <;> cases hhead
      | table h => cases h <;> cases hhead
      | negation h => cases h; cases hhead
      | emptiness h => cases h; cases hhead
      | string h => cases h <;> cases hhead

theorem not_isPlainLiteral (h : ∀ value, a.head ≠ .literal value) :
    a.isPlainLiteral = false := by
  unfold isPlainLiteral
  split
  · next value hhead => exact absurd hhead (h value)
  · rfl

/-- An exchange inside a plain label leaves it as it is. -/
theorem Exchanged.plainLabel (h : Exchanged old fresh) (hswap : Swap old fresh a b)
    (hhead : a.head = .caseLabel) (hplain : a.isPlainLabel = true) :
    b.isPlainLabel = true ∧ b.labelValues = a.labelValues := by
  have hhead' : b.head = .caseLabel := hswap.head_eq.trans hhead
  unfold labelValues
  rw [if_pos hhead, if_pos hhead']
  unfold isPlainLabel at hplain ⊢
  cases hswap with
  | @here head type before after hdrop hsuits =>
      -- the label itself would have been exchanged
      have hnot := not_isPlainLiteral h.not_literal
      rcases before with _ | ⟨first, _ | _⟩ <;> rcases after with _ | ⟨second, _⟩ <;>
        simp [hnot] at hplain
  | @deeper head type before after c d hswap =>
      rcases before with _ | ⟨first, _ | _⟩ <;> rcases after with _ | ⟨second, _⟩ <;>
        simp at hplain
      have hsame : d.head = c.head ∧ d.type = c.type := ⟨hswap.head_eq, hswap.type_eq⟩
      simp only [subs_node, List.nil_append, List.map_cons, List.map_nil]
      unfold isPlainLiteral literalValue? at *
      rw [hsame.1, hsame.2]
      exact ⟨hplain, rfl⟩

theorem labelValues_of_ne (h : a.head ≠ .caseLabel) : a.labelValues = [] :=
  if_neg h

theorem Exchanged.swap_hasPlainLabels (h : Exchanged old fresh) (hswap : Swap old fresh a b)
    (horder : a.all isOrderly = true) (hall : a.all hasPlainLabels = true) :
    b.all hasPlainLabels = true := by
  have hexchange := h.exchange ((all_isSound_false old).trans (hswap.all_old horder))
  have hold : old.head ≠ .caseLabel := head_ne_caseLabel h.sort
  have hnew : ∀ new, new ∈ fresh → new.head ≠ .caseLabel := by
    intro new hnew
    refine head_ne_caseLabel (h.sort.imp ?_ ?_)
    · exact fun hexpr => hexchange.expression hexpr new hnew
    · exact fun hstmt => hexchange.statement hstmt new hnew
  refine hswap.all hall (fun _ hnew hold => lenient_hasPlainLabels.exchanged h hold hnew) ?_ ?_
  · intro head type before after _ hself _ _
    refine hasPlainLabels_iff.mpr fun hhead => ?_
    obtain ⟨hitems, hnodup⟩ := hasPlainLabels_iff.mp hself hhead
    refine ⟨?_, ?_⟩
    · intro item hitem hlabel
      rcases List.mem_append.mp hitem with hin | hin
      · exact hitems item (List.mem_append_left _ hin) hlabel
      · rcases List.mem_append.mp hin with hin | hin
        · exact absurd hlabel (hnew item (by simpa using hin))
        · exact hitems item (List.mem_append_right _ (List.mem_cons_of_mem _ hin)) hlabel
    · have hfresh : fresh.toList.flatMap labelValues = [] :=
        List.flatMap_eq_nil_iff.mpr fun new hin => labelValues_of_ne (hnew new (by simpa using hin))
      simpa [labelValues_of_ne hold, hfresh] using hnodup
  · intro head type before after c d hcd hsub hself
    refine hasPlainLabels_iff.mpr fun hhead => ?_
    obtain ⟨hitems, hnodup⟩ := hasPlainLabels_iff.mp hself hhead
    have hslot : (d.head = .caseLabel → d.isPlainLabel = true) ∧
        d.labelValues = c.labelValues := by
      by_cases hlabel : c.head = .caseLabel
      · obtain ⟨hplain, hvalues⟩ := h.plainLabel hcd hlabel (hitems c (by simp) hlabel)
        exact ⟨fun _ => hplain, hvalues⟩
      · have hlabel' : d.head ≠ .caseLabel := by rwa [hcd.head_eq]
        exact ⟨fun hd => absurd hd hlabel',
          (labelValues_of_ne hlabel').trans (labelValues_of_ne hlabel).symm⟩
    refine ⟨?_, ?_⟩
    · intro item hitem hlabel
      rcases List.mem_append.mp hitem with hin | hin
      · exact hitems item (List.mem_append_left _ hin) hlabel
      · rcases List.mem_cons.mp hin with rfl | hin
        · exact hslot.1 hlabel
        · exact hitems item (List.mem_append_right _ (List.mem_cons_of_mem _ hin)) hlabel
    · simpa [hslot.2] using hnodup

/-! ## Exchanges show nothing -/

theorem Exchanged.conserves (h : Exchanged old fresh) (hconsistent : Consistent known)
    (horder : old.all isOrderly = true) (hknown : old.all (isKnown known) = true)
    (hlabels : old.all hasPlainLabels = true) : Conserves old fresh := by
  have hsound : old.all (isSound false) = true := (all_isSound_false old).trans horder
  cases h with
  | retype h => exact h.refines
  | rule h =>
      cases h with
      | switch h => exact h.conserves hsound (holds_of_all hlabels)
      | set h => exact h.conserves hsound hconsistent hknown
      | dead h => exact h.conserves hsound
      | table h => exact h.conserves
      | negation h => exact h.conserves hsound
      | emptiness h => exact h.conserves hsound
      | string h => exact h.conserves hsound

/-- The unit shows what another one shows, and its names and labels allow it to keep on doing
so. -/
structure Shows (known : List (String × BindingId)) (unit term : Term) : Prop where
  refines : Run.Refines unit.exec term.exec
  known : term.all (isKnown known) = true
  labels : term.all hasPlainLabels = true

theorem Exchanged.swap_shows {unit : Term} (h : Exchanged old fresh) (hswap : Swap old fresh a b)
    (hconsistent : Consistent known) (horder : a.all isOrderly = true)
    (hshows : Shows known unit a) : Shows known unit b where
  refines := by
    obtain ⟨hnew, hnone⟩ := h.conserves hconsistent (hswap.all_old horder)
      (hswap.all_old hshows.known) (hswap.all_old hshows.labels)
    exact hshows.refines.trans (hswap.refines hnew hnone).exec
  known := h.swap_isKnown hswap hshows.known
  labels := h.swap_hasPlainLabels hswap horder hshows.labels

end Term

/-! ## Runs -/

def Kind.resolved? : Kind → Option (String × BindingId)
  | name text (some binding) => some (text, binding)
  | _ => none

instance (known : List (String × BindingId)) : Decidable (Consistent known) :=
  inferInstanceAs (Decidable (∀ _, _ → ∀ _, _ → (_ ↔ _)))

namespace Source

def names (source : Source) : List (String × BindingId) :=
  (source.store.preorder source.root).filterMap (fun id => (source.store.kind id).resolved?)

/-- Two resolved names share a binding exactly when they share their text. -/
def HasConsistentNames (source : Source) : Prop :=
  Consistent source.names

instance (source : Source) : Decidable source.HasConsistentNames :=
  inferInstanceAs (Decidable (Consistent _))

/-- The labels of every switch are literals of different values, and none of a type that is
not compared with `==`. -/
def HasPlainLabels (source : Source) : Prop :=
  (source.store.term source.root).all Term.hasPlainLabels = true

instance (source : Source) : Decidable source.HasPlainLabels :=
  inferInstanceAs (Decidable (_ = true))

def execute (source : Source) (vars : String → Option Value) : Option Observation :=
  (source.store.term source.root).execute vars

theorem Proper.all_isKnown {source : Source} (h : source.Proper) :
    (source.store.term source.root).all (Term.isKnown source.names) = true := by
  obtain ⟨tree, hholds, hid, -, hterm⟩ := h.exists_tree
  rw [← hterm, Tree.all_iff]
  intro sub hsub
  have hkind := (Tree.Legible.of_holds hholds hsub).kind_head
  unfold Term.isKnown
  rw [Tree.head_term]
  split
  · next text binding hhead =>
      rw [List.contains_iff_mem, names, List.mem_filterMap]
      refine ⟨sub.id, ?_, ?_⟩
      · rw [← hid, hholds.preorder_eq tree.mem_subtrees_self]
        exact Tree.mem_ids_iff.mpr ⟨sub, hsub, rfl⟩
      · rw [hhead] at hkind
        cases hk : source.store.kind sub.id <;> rw [hk] at hkind <;> cases hkind
        rfl
  · rfl

end Source

theorem Term.execute_of_refines {a b : Term} (h : Run.Refines a.exec b.exec)
    {vars : String → Option Value} {observation : Observation}
    (hrun : a.execute vars = some observation) : b.execute vars = some observation := by
  obtain ⟨result, hresult, rfl⟩ := Option.map_eq_some_iff.mp hrun
  exact Option.map_eq_some_iff.mpr ⟨result, h _ _ hresult, rfl⟩

namespace Engine

variable {engine : Engine} {source : Source}

def rerun (engine : Engine) (cancelled : List Bool) (source : Source) : Except Fault Source :=
  cancelled.foldlM (fun source flag => return (← engine.run source flag).2) source

theorem selected_of_make {settings : Settings} (h : make settings = .ok engine) :
    Selected engine.rules := by
  unfold make at h
  cases hvalid : settings.validate with
  | error reason =>
      rw [hvalid] at h
      cases h
  | ok _ =>
      rw [hvalid] at h
      cases hknown : unknownRule? settings with
      | some name =>
          simp only [hknown] at h
          cases h
      | none =>
          simp only [hknown] at h
          cases h
          exact fun rule hrule => List.mem_of_mem_filter hrule

theorem rerun_shows {known : List (String × BindingId)} {unit : Term}
    (hrules : Selected engine.rules) (hconsistent : Consistent known) (cancelled : List Bool)
    (h : source.Proper) (hshows : Term.Shows known unit (source.store.term source.root)) :
    ∃ after, engine.rerun cancelled source = .ok after ∧
      Term.Shows known unit (after.store.term after.root) := by
  induction cancelled generalizing source with
  | nil => exact ⟨source, rfl, hshows⟩
  | cons flag cancelled ih =>
      obtain ⟨report, final, stores, hrun, -, hkept⟩ :=
        @run_keeps engine source flag (Term.Shows known unit) hrules h
          (fun hexchanged hswap horder => hexchanged.swap_shows hswap hconsistent horder) hshows
      obtain ⟨hproper, hfinal⟩ := hkept final (List.mem_cons_self ..)
      obtain ⟨after, hafter, hlast⟩ := ih hproper hfinal
      refine ⟨after, ?_, hlast⟩
      rw [rerun, List.foldlM_cons, hrun]
      exact hafter

/-- Whatever a unit shows when it is run, it shows after any number of runs of the engine
over it. -/
theorem rerun_keeps_behaviour {settings : Settings} (hmake : make settings = .ok engine)
    (h : source.Proper) (hlabels : source.HasPlainLabels) (hnames : source.HasConsistentNames)
    (cancelled : List Bool) :
    ∃ after, engine.rerun cancelled source = .ok after ∧
      ∀ vars observation, source.execute vars = some observation →
        after.execute vars = some observation := by
  obtain ⟨after, hrun, hshows⟩ :=
    rerun_shows (selected_of_make hmake) hnames cancelled h ⟨.refl _, h.all_isKnown, hlabels⟩
  exact ⟨after, hrun, fun vars observation => Term.execute_of_refines hshows.refines⟩

/-- The unit `switch (k) { case 1: f(); break; default: g(); }`. -/
def choice : Source where
  store :=
    { nodes := #[
        ⟨.name "k" (some 0), none, some 9, false⟩,
        ⟨.literal (.int 1), none, some 2, false⟩,
        ⟨.caseLabel (some 1), none, some 9, false⟩,
        ⟨.call none "f" [], none, some 4, false⟩,
        ⟨.exprStmt 3, none, some 9, false⟩,
        ⟨.breakStmt none, none, some 9, false⟩,
        ⟨.caseLabel none, none, some 9, false⟩,
        ⟨.call none "g" [], none, some 8, false⟩,
        ⟨.exprStmt 7, none, some 9, false⟩,
        ⟨.switchStmt 0 [2, 4, 5, 6, 8], none, some 10, false⟩,
        ⟨.unit [9], none, none, false⟩] }
  root := 10

/-- The conditional that the switch becomes calls the function that the switch calls. -/
theorem rerun_keeps_behaviour_choice :
    ∃ after, complete.rerun [false, false] choice = .ok after ∧ after ≠ choice ∧
      (after.execute (fun text => if text = "k" then some (.int 1) else none)).map
        Observation.trace = some ["f()"] := by
  obtain ⟨after, hrun, hkept⟩ :=
    @rerun_keeps_behaviour complete choice {} rfl (by decide +kernel) (by decide +kernel)
      (by decide +kernel) [false, false]
  have hchanged : (complete.rerun [false, false] choice).toOption.all (· != choice) = true := by
    decide +kernel
  rw [hrun] at hchanged
  refine ⟨after, hrun, by simpa [Except.toOption] using hchanged, ?_⟩
  have htrace : (choice.execute (fun text => if text = "k" then some (.int 1) else none)).map
      Observation.trace = some ["f()"] := by
    decide +kernel
  obtain ⟨observation, hshown, hcalls⟩ := Option.map_eq_some_iff.mp htrace
  rw [hkept _ _ hshown, Option.map_some, hcalls]

end Engine

end CodeTidy
