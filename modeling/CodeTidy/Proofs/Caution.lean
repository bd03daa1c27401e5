import CodeTidy.Proofs.Forgetting

/-!
# Rules that know less

`Cautious` says of a rule that it acts with more information wherever it acts with less.
Types and matches of names are read in favour of acting only, so most rules are cautious
whatever is forgotten.  Two rules look for uses of locals and do not see a name that no longer
tells which local it names; they are cautious as long as no such name is forgotten.
`Registry.forgetting_enables_nothing` says it of all rules.
-/

namespace CodeTidy

/-! ## What makes a rule act -/

/-- The computation answers with edits if it answers. -/
def Skips (computation : Build Response) : Prop :=
  ∀ store response later, computation store = .ok (response, later) →
    response.signal = .skip

theorem skips_pure {response : Response} (h : response.signal = .skip) :
    Skips (pure response) := by
  intro store found later hrun
  cases hrun
  exact h

theorem Skips.bind {α : Type} {first : Build α} {next : α → Build Response}
    (h : ∀ value, Skips (next value)) : Skips (first >>= next) := by
  intro store response later hrun
  obtain ⟨value, middle, -, hnext⟩ := Build.exists_of_bind_ok hrun
  exact h value middle response later hnext

/-- The computation answers with edits if they are wanted, and declines otherwise. -/
def Decides (computation : Build Response) (store : Store) : Bool → Prop
  | true => ∀ response later, computation store = .ok (response, later) →
      response.signal = .skip
  | false => computation store = .ok (.decline, store)

theorem Skips.decides {computation : Build Response} (h : Skips computation) (store : Store) :
    Decides computation store true :=
  h store

theorem decides_decline (store : Store) : Decides (pure .decline) store false := rfl

theorem Skips.decides_ite {computation : Build Response} (h : Skips computation) (store : Store)
    (wanted : Bool) :
    Decides (if wanted = true then computation else pure .decline) store wanted := by
  cases wanted with
  | true => exact h store
  | false => exact decides_decline store

theorem Decides.congr {computation other : Build Response} {store : Store} {wanted : Bool}
    (h : Decides other store wanted) (hsame : computation store = other store) :
    Decides computation store wanted := by
  cases wanted with
  | true =>
      intro response later hrun
      exact h response later (hsame.symm.trans hrun)
  | false => exact hsame.trans h

/-- With more information the rule acts wherever it acts with less, if `kept` holds of what
is forgotten. -/
def Cautious (respond : Options → NodeId → Build Response)
    (kept : Store → NodeId → (NodeId → Bool) → Prop) : Prop :=
  ∃ wants : Options → Store → NodeId → Bool,
    (∀ {options store node}, node < store.size →
      Decides (respond options node) store (wants options store node)) ∧
    ∀ {options : Options} {store : Store} {tree old : Tree} {unbound untyped : NodeId → Bool},
      store.Holds tree → old ∈ tree.subtrees → kept store tree.id unbound →
      wants options (store.forget unbound untyped) old.id = true →
      wants options store old.id = true

def Anything (_ : Store) (_ : NodeId) (_ : NodeId → Bool) : Prop := True

variable {store : Store} {unbound untyped : NodeId → Bool}

namespace NegationDescent

def wants (_ : Options) (store : Store) (node : NodeId) : Bool :=
  match store.kind node with
  | .prefixed .not operand => isCovered store operand
  | _ => false

theorem isCovered_of_forget {operand : NodeId}
    (h : isCovered (store.forget unbound untyped) operand = true) :
    isCovered store operand = true := by
  unfold isCovered at h ⊢
  simp only [Store.unparenthesized_forget] at h ⊢
  split at h
  · next inner hkind => rw [Store.kind_of_forget hkind (by simp) (by simp)]
  · next op operands hkind =>
    rw [Store.kind_of_forget hkind (by simp) (by simp)]
    rw [Bool.or_eq_true] at h ⊢
    exact h.imp_right Store.isInvertible_of_forget
  · next hnot hchain =>
    rw [Store.boolLiteral?_forget] at h
    split
    · rfl
    · next op operands hkind =>
      exact absurd (by rw [Store.kind_forget, hkind]; split <;> rfl) (hchain op operands)
    · exact h

theorem decides_respond {options : Options} {node : NodeId} (hlt : node < store.size) :
    Decides (respond options node) store (wants options store node) := by
  refine .congr ?_ (Build.bind_ok (Build.run_kindOf hlt))
  unfold wants
  generalize store.kind node = kind
  cases kind with
  | prefixed op operand =>
      cases op with
      | not =>
          refine .congr (Skips.decides_ite ?_ _ _) (Build.bind_ok (Build.run_get store))
          exact .bind fun _ => .bind fun _ => .bind fun _ => .bind fun _ => skips_pure rfl
      | _ => exact decides_decline store
  | _ => exact decides_decline store

theorem cautious : Cautious respond Anything := by
  refine ⟨wants, decides_respond, ?_⟩
  intro options store tree old unbound untyped _ _ _ hwants
  unfold wants at hwants ⊢
  split at hwants
  · next operand hkind =>
    rw [Store.kind_of_forget hkind (by simp) (by simp)]
    exact isCovered_of_forget hwants
  · cases hwants

end NegationDescent

namespace EmptinessTest

def wants (options : Options) (store : Store) (node : NodeId) : Bool :=
  match sizeTest? store options (store.kind node) with
  | some (receiver, verdict) => isStatable store receiver verdict
  | none => false

theorem decides_respond {options : Options} {node : NodeId} (hlt : node < store.size) :
    Decides (respond options node) store (wants options store node) := by
  refine .congr ?_ (Build.bind_ok (Build.run_kindOf hlt))
  refine .congr ?_ (Build.bind_ok (Build.run_get store))
  unfold wants
  cases sizeTest? store options (store.kind node) with
  | none => exact decides_decline store
  | some found => exact Skips.decides_ite (.bind fun _ => .bind fun _ => skips_pure rfl) _ _

variable {options : Options}

theorem sizedReceiver?_of_forget {call receiver : NodeId}
    (h : sizedReceiver? (store.forget unbound untyped) options call = some receiver) :
    sizedReceiver? store options call = some receiver := by
  unfold sizedReceiver? at h ⊢
  rw [Store.unparenthesized_forget] at h
  split at h
  · next found method hkind =>
    rw [Store.kind_of_forget hkind (by simp) (by simp)]
    split at h
    · next type htype =>
      simp only [Store.typeOf_of_forget htype]
      exact h
    · cases h
  · cases h

theorem readTest?_of_forget {op : InfixOp} {call literal : NodeId} {found : NodeId × Verdict}
    (h : readTest? (store.forget unbound untyped) options op call literal = some found) :
    readTest? store options op call literal = some found := by
  unfold readTest? at h ⊢
  rw [Store.intLiteral?_forget] at h
  split at h
  · next receiver value hreceiver hvalue =>
    rw [sizedReceiver?_of_forget hreceiver, hvalue]
    exact h
  · cases h

/-- A comparison is read in one direction only: a literal is no call. -/
theorem readTest?_eq_none {op op' : InfixOp} {left right : NodeId} {found : NodeId × Verdict}
    (h : readTest? store options op' right left = some found) :
    readTest? store options op left right = none := by
  have hliteral : (store.intLiteral? left).isSome = true := by
    unfold readTest? at h
    split at h
    · next receiver value _ hvalue => rw [hvalue]; rfl
    · cases h
  have hnone : sizedReceiver? store options left = none := by
    unfold Store.intLiteral? at hliteral
    unfold sizedReceiver?
    split at hliteral
    · next value hkind => rw [hkind]
    · cases hliteral
  unfold readTest?
  rw [hnone]

theorem sizeTest?_of_forget {node : NodeId} {found : NodeId × Verdict}
    (h : sizeTest? (store.forget unbound untyped) options
      ((store.forget unbound untyped).kind node) = some found) :
    sizeTest? store options (store.kind node) = some found := by
  unfold sizeTest? at h
  split at h
  · next op left right hkind =>
    rw [Store.kind_of_forget hkind (by simp) (by simp)]
    simp only [sizeTest?]
    split at h
    · next hcomparison =>
      rw [if_pos hcomparison]
      cases hleft : readTest? (store.forget unbound untyped) options op left right with
      | some other =>
          rw [hleft] at h
          rw [readTest?_of_forget hleft]
          exact h
      | none =>
          rw [hleft] at h
          have hright := readTest?_of_forget h
          rw [readTest?_eq_none hright]
          exact hright
    · cases h
  · cases h

theorem cautious : Cautious respond Anything := by
  refine ⟨wants, decides_respond, ?_⟩
  intro options store tree old unbound untyped _ _ _ hwants
  unfold wants at hwants ⊢
  split at hwants
  · next receiver verdict htest =>
    simp only [sizeTest?_of_forget htest]
    unfold isStatable at hwants ⊢
    cases verdict with
    | always value =>
        rw [Store.isPassive_forget] at hwants
        exact hwants
    | _ => rfl
  · cases hwants

end EmptinessTest

namespace StringConversion

def wants (_ : Options) (store : Store) (node : NodeId) : Bool :=
  match converted? store (store.kind node) with
  | some value => isConvertible store value
  | none => false

theorem decides_respond {options : Options} {node : NodeId} (hlt : node < store.size) :
    Decides (respond options node) store (wants options store node) := by
  refine .congr ?_ (Build.bind_ok (Build.run_kindOf hlt))
  refine .congr ?_ (Build.bind_ok (Build.run_get store))
  unfold wants
  cases converted? store (store.kind node) with
  | none => exact decides_decline store
  | some value =>
      exact Skips.decides_ite (.bind fun _ => .bind fun _ => .bind fun _ => skips_pure rfl) _ _

theorem isEmptyString_forget {expr : NodeId} :
    isEmptyString (store.forget unbound untyped) expr = isEmptyString store expr := by
  unfold isEmptyString
  rcases store.kind_forget_cases unbound untyped expr with hkind | hkind <;>
    rw [hkind]
  cases store.kind expr <;> rfl

theorem cautious : Cautious respond Anything := by
  refine ⟨wants, decides_respond, ?_⟩
  intro options store tree old unbound untyped _ _ _ hwants
  unfold wants at hwants ⊢
  split at hwants
  · next value hvalue =>
    have hsame : converted? store (store.kind old.id) = some value := by
      unfold converted? at hvalue
      split at hvalue
      · next left right hkind =>
        rw [Store.kind_of_forget hkind (by simp) (by simp)]
        unfold converted?
        rwa [isEmptyString_forget, isEmptyString_forget] at hvalue
      · cases hvalue
    rw [hsame]
    exact Store.any_typeOf_of_forget hwants
  · cases hwants

end StringConversion

namespace SetUpdate

def wants (_ : Options) (store : Store) (node : NodeId) : Bool :=
  (plan? store (store.kind node)).isSome

theorem decides_respond {options : Options} {node : NodeId} (hlt : node < store.size) :
    Decides (respond options node) store (wants options store node) := by
  refine .congr ?_ (Build.bind_ok (Build.run_kindOf hlt))
  refine .congr ?_ (Build.bind_ok (Build.run_get store))
  unfold wants
  cases plan? store (store.kind node) with
  | none => exact decides_decline store
  | some plan => exact Skips.decides (.bind fun _ => skips_pure rfl) _

theorem setCall?_of_forget {expr : NodeId} {method : String} {call : SetCall}
    (h : setCall? (store.forget unbound untyped) expr method = some call) :
    setCall? store expr method = some call := by
  unfold setCall? at h ⊢
  rw [Store.unparenthesized_forget] at h
  split at h
  · next receiver called argument hkind =>
    simp only [Store.kind_of_forget hkind (by simp) (by simp)]
    split at h
    · next hfits =>
      rw [Bool.and_eq_true] at hfits
      rw [hfits.1, Store.any_typeOf_of_forget hfits.2]
      exact h
    · cases h
  · cases h

theorem membershipTest?_of_forget {cond : NodeId} {test : SetCall × Bool}
    (h : membershipTest? (store.forget unbound untyped) cond = some test) :
    membershipTest? store cond = some test := by
  unfold membershipTest? at h ⊢
  simp only [Store.unparenthesized_forget] at h ⊢
  split at h
  · next operand hkind =>
    rw [Store.kind_of_forget hkind (by simp) (by simp)]
    obtain ⟨call, hcall, rfl⟩ := Option.map_eq_some_iff.mp h
    simp only [setCall?_of_forget hcall, Option.map_some]
  · next hother =>
    obtain ⟨call, hcall, rfl⟩ := Option.map_eq_some_iff.mp h
    split
    · next operand hkind =>
      exact absurd (by rw [Store.kind_forget, hkind]; split <;> rfl) (hother operand)
    · rw [setCall?_of_forget hcall, Option.map_some]

theorem update?_of_forget {test : SetCall} {candidate : Candidate} {update : Update}
    (h : update? (store.forget unbound untyped) test candidate = some update) :
    update? store test candidate = some update := by
  unfold update? at h ⊢
  rw [Store.statementsOf_forget] at h
  split at h
  · next first rest hstmts =>
    split at h
    · next call hkind =>
      split at h
      · next found hfound =>
        split at h
        · next halike =>
          rw [Bool.and_eq_true] at halike
          rw [Store.isEmptyBranch_forget] at h
          simp only [Store.kind_of_forget hkind (by simp) (by simp),
            setCall?_of_forget hfound, Store.alike_of_forget halike.1,
            Store.alike_of_forget halike.2, Bool.and_true, if_true]
          exact h
        · cases h
      · cases h
    · cases h
  · cases h

theorem cautious : Cautious respond Anything := by
  refine ⟨wants, decides_respond, ?_⟩
  intro options store tree old unbound untyped _ _ _ hwants
  obtain ⟨⟨cond, update⟩, hplan⟩ := Option.isSome_iff_exists.mp hwants
  unfold plan? at hplan
  split at hplan
  · next condition thenBranch elseBranch hkind =>
    unfold wants plan?
    rw [Store.kind_of_forget hkind (by simp) (by simp)]
    split at hplan
    · next test negated htest =>
      simp only [membershipTest?_of_forget htest]
      rw [Store.isPassive_forget, Store.isPassive_forget] at hplan
      split at hplan
      · next hpassive =>
        rw [if_pos hpassive]
        obtain ⟨found, hfound, -⟩ := Option.map_eq_some_iff.mp hplan
        obtain ⟨candidate, hmem, hupdate⟩ := List.exists_of_findSome?_eq_some hfound
        rw [Option.isSome_map, List.findSome?_isSome_iff]
        exact ⟨candidate, hmem, by rw [update?_of_forget hupdate]; rfl⟩
      · cases hplan
    · cases hplan
  · cases hplan

end SetUpdate

namespace DeadBranch

def wantsEmptyIf (store : Store) (cond : NodeId) : Bool :=
  store.isPassive cond ||
    match store.kind (store.unparenthesized cond) with
    | .call _ _ _ | .assign _ _ _ => true
    | _ => false

def wantsIf (store : Store) (cond thenBranch : NodeId) (elseBranch : Option NodeId) : Bool :=
  if (store.boolLiteral? cond).isSome then true
  else if store.isEmptyBranch (some thenBranch) && store.isEmptyBranch elseBranch then
    wantsEmptyIf store cond
  else
    elseBranch.isSome && (store.isEmptyBranch elseBranch || store.isEmptyBranch (some thenBranch))

def wants (_ : Options) (store : Store) (node : NodeId) : Bool :=
  match store.kind node with
  | .ifStmt cond thenBranch elseBranch => wantsIf store cond thenBranch elseBranch
  | .whileStmt cond _ => store.boolLiteral? cond = some false
  | _ => false

theorem wantsEmptyIf_forget {cond : NodeId} :
    wantsEmptyIf (store.forget unbound untyped) cond = wantsEmptyIf store cond := by
  unfold wantsEmptyIf
  rw [Store.isPassive_forget, Store.unparenthesized_forget]
  congr 1
  exact Store.read_forget (fun kind => match kind with
    | .call _ _ _ | .assign _ _ _ => true
    | _ => false) (by rintro ⟨⟩ <;> rfl)

theorem wantsIf_forget {cond thenBranch : NodeId} {elseBranch : Option NodeId} :
    wantsIf (store.forget unbound untyped) cond thenBranch elseBranch =
      wantsIf store cond thenBranch elseBranch := by
  unfold wantsIf
  rw [Store.boolLiteral?_forget, Store.isEmptyBranch_forget, Store.isEmptyBranch_forget,
    wantsEmptyIf_forget]

theorem decides_dropEmptyIf (node cond : NodeId) (store : Store) :
    Decides (dropEmptyIf node cond) store (wantsEmptyIf store cond) := by
  refine .congr ?_ (Build.bind_ok (Build.run_get store))
  unfold wantsEmptyIf
  cases hpassive : store.isPassive cond with
  | true => exact Skips.decides (.bind fun _ => skips_pure rfl) _
  | false =>
      simp only [Bool.false_eq_true, if_false, Bool.false_or]
      generalize store.kind (store.unparenthesized cond) = kind
      cases kind with
      | call receiver method args =>
          exact Skips.decides (.bind fun _ => .bind fun _ => skips_pure rfl) _
      | assign op target value =>
          exact Skips.decides (.bind fun _ => .bind fun _ => skips_pure rfl) _
      | _ => exact decides_decline store

theorem skips_takeBranch (node : NodeId) (branch : Option NodeId) :
    Skips (takeBranch node branch) := by
  cases branch with
  | some branch => exact .bind fun _ => skips_pure rfl
  | none => exact .bind fun _ => skips_pure rfl

theorem skips_invertIf (node cond elseBranch : NodeId) :
    Skips (invertIf node cond elseBranch) := by
  refine .bind fun _ => .bind fun _ => .bind fun _ => .bind fun _ => .bind fun store => ?_
  cases (store.kind elseBranch).isBlock with
  | true => exact .bind fun _ => .bind fun _ => skips_pure rfl
  | false => exact .bind fun _ => .bind fun _ => skips_pure rfl

theorem decides_respondIf (node cond thenBranch : NodeId) (elseBranch : Option NodeId)
    (store : Store) :
    Decides (respondIf node cond thenBranch elseBranch) store
      (wantsIf store cond thenBranch elseBranch) := by
  refine .congr ?_ (Build.bind_ok (Build.run_get store))
  unfold wantsIf
  cases store.boolLiteral? cond with
  | some value => exact (skips_takeBranch _ _).decides store
  | none =>
      simp only [Option.isSome_none, Bool.false_eq_true, if_false]
      by_cases hempty : (store.isEmptyBranch (some thenBranch) &&
          store.isEmptyBranch elseBranch) = true
      · simp only [if_pos hempty]
        exact decides_dropEmptyIf node cond store
      · simp only [if_neg hempty]
        cases elseBranch with
        | none => exact decides_decline store
        | some branch =>
            simp only [Option.isSome_some, Bool.true_and]
            cases store.isEmptyBranch (some branch) with
            | true => exact Skips.decides (skips_pure rfl) _
            | false =>
                simp only [Bool.false_or, Bool.false_eq_true, if_false]
                exact (skips_invertIf _ _ _).decides_ite store _

theorem decides_respond {options : Options} {node : NodeId} (hlt : node < store.size) :
    Decides (respond options node) store (wants options store node) := by
  refine .congr ?_ (Build.bind_ok (Build.run_kindOf hlt))
  unfold wants
  generalize store.kind node = kind
  cases kind with
  | ifStmt cond thenBranch elseBranch =>
      exact decides_respondIf node cond thenBranch elseBranch store
  | whileStmt cond body =>
      refine .congr ?_ (Build.bind_ok (Build.run_get store))
      by_cases hnever : store.boolLiteral? cond = some false
      · simp only [hnever, decide_true]
        exact Skips.decides (.bind fun _ => skips_pure rfl) _
      · simp only [hnever, decide_false]
        exact decides_decline store
  | _ => exact decides_decline store

theorem cautious : Cautious respond Anything := by
  refine ⟨wants, decides_respond, ?_⟩
  intro options store tree old unbound untyped _ _ _ hwants
  unfold wants at hwants ⊢
  split at hwants
  · next cond thenBranch elseBranch hkind =>
    rw [Store.kind_of_forget hkind (by simp) (by simp)]
    rwa [wantsIf_forget] at hwants
  · next cond body hkind =>
    rw [Store.kind_of_forget hkind (by simp) (by simp)]
    rwa [Store.boolLiteral?_forget] at hwants
  · cases hwants

end DeadBranch

/-! ## Rules that look for uses of locals -/

namespace TwoWaySwitch

def wants (_ : Options) (store : Store) (node : NodeId) : Bool :=
  match store.kind node with
  | .switchStmt subject body => (plan? store subject body).isSome
  | _ => false

theorem decides_respond {options : Options} {node : NodeId} (hlt : node < store.size) :
    Decides (respond options node) store (wants options store node) := by
  refine .congr ?_ (Build.bind_ok (Build.run_kindOf hlt))
  unfold wants
  generalize store.kind node = kind
  cases kind with
  | switchStmt subject body =>
      refine .congr ?_ (Build.bind_ok (Build.run_get store))
      simp only
      cases plan? store subject body with
      | none => exact decides_decline store
      | some groups =>
          refine Skips.decides (.bind fun result => ?_) store
          cases result with
          | some stmt => exact skips_pure rfl
          | none => exact .bind fun _ => skips_pure rfl
  | _ => exact decides_decline store

theorem ofBody_forget (body : List NodeId) :
    Split.ofBody (store.forget unbound untyped) body = Split.ofBody store body := by
  have hitem : Split.addItem (store.forget unbound untyped) = Split.addItem store := by
    funext item rest
    unfold Split.addItem
    rcases store.kind_forget_cases unbound untyped item with hkind | hkind <;>
      rw [hkind]
    cases store.kind item <;> rfl
  unfold Split.ofBody
  rw [hitem]

theorem closed?_forget (isLast : Bool) (group : CaseGroup) :
    group.closed? (store.forget unbound untyped) isLast = group.closed? store isLast := by
  unfold CaseGroup.closed?
  rw [show (store.forget unbound untyped).endsWithJump = store.endsWithJump from
      funext fun _ => Store.endsWithJump_forget,
    show (store.forget unbound untyped).isPlainBreak = store.isPlainBreak from
      funext fun _ => Store.isPlainBreak_forget,
    show (store.forget unbound untyped).hasLooseBreak = store.hasLooseBreak from
      funext fun _ => Store.hasLooseBreak_forget]

theorem closedGroups?_forget (groups : List CaseGroup) :
    closedGroups? (store.forget unbound untyped) groups = closedGroups? store groups := by
  fun_induction closedGroups? store groups <;> simp_all [closedGroups?, closed?_forget]

theorem locals?_of_forget {group : CaseGroup} {locals : List BindingId}
    (h : group.locals? (store.forget unbound untyped) = some locals) :
    group.locals? store = some locals := by
  obtain ⟨lists, hlists, rfl⟩ := Option.map_eq_some_iff.mp h
  unfold CaseGroup.locals?
  rw [mapM_mono (fun _ _ => Store.declaredLocals_of_forget) hlists]
  rfl

theorem exists_decl_of_locals? {group : CaseGroup} {locals : List BindingId} {binding : BindingId}
    (h : group.locals? store = some locals) (hmem : binding ∈ locals) :
    ∃ stmt ∈ group.stmts, ∃ decl ∈ store.preorder stmt,
      store.declared? decl = some (some binding) := by
  obtain ⟨lists, hlists, rfl⟩ := Option.map_eq_some_iff.mp h
  obtain ⟨own, hown, hin⟩ := List.mem_flatten.mp hmem
  obtain ⟨stmt, hstmt, hlocals⟩ := exists_of_mem_mapM hlists hown
  exact ⟨stmt, hstmt, Store.exists_decl_of_declaredLocals hlocals hin⟩

def CaseGroup.Inside (store : Store) (root : NodeId) (group : CaseGroup) : Prop :=
  ∀ stmt, stmt ∈ group.stmts → store.preorder stmt ⊆ store.preorder root

theorem any_congr_mem {ids : List NodeId} {p q : NodeId → Bool}
    (h : ∀ id, id ∈ ids → p id = q id) : ids.any p = ids.any q := by
  rw [Bool.eq_iff_iff, List.any_eq_true, List.any_eq_true]
  exact exists_congr fun id => and_congr_right fun hid => by rw [h id hid]

theorem uses_forget {root : NodeId} {first second : CaseGroup} {locals : List BindingId}
    (hkept : store.KeepsLocals root unbound) (hfirst : first.Inside store root)
    (hsecond : second.Inside store root)
    (hlocals : first.locals? (store.forget unbound untyped) = some locals) :
    second.uses (store.forget unbound untyped) locals = second.uses store locals := by
  have hdeclared : (store.forget unbound untyped).Declares root locals := by
    intro binding hbinding
    obtain ⟨stmt, hstmt, decl, hdecl, hbound⟩ := exists_decl_of_locals? hlocals hbinding
    rw [Store.preorder_forget] at hdecl ⊢
    exact ⟨decl, hfirst stmt hstmt hdecl, hbound⟩
  unfold CaseGroup.uses
  refine any_congr_mem fun stmt hstmt => ?_
  unfold Store.mentions
  rw [Store.preorder_forget]
  exact any_congr_mem fun id hid => hkept.isNameOf_eq (hsecond stmt hstmt hid) hdeclared

theorem caseGroups?_of_forget {root : NodeId} {body : List NodeId} {groups : List CaseGroup}
    (hkept : store.KeepsLocals root unbound)
    (hinside : ∀ group, group ∈ (Split.ofBody store body).groups → group.Inside store root)
    (h : caseGroups? (store.forget unbound untyped) body = some groups) :
    caseGroups? store body = some groups := by
  unfold caseGroups? at h ⊢
  rw [ofBody_forget] at h
  split at h
  · next only hsplit =>
    obtain ⟨locals, hlocals, rfl⟩ := Option.map_eq_some_iff.mp h
    simp only [locals?_of_forget hlocals, Option.map_some]
  · next first second hsplit =>
    rw [hsplit] at hinside
    split at h
    · next locals others hlocals hothers =>
      rw [uses_forget hkept (hinside first (by simp)) (hinside second (by simp)) hlocals] at h
      simp only [locals?_of_forget hlocals, locals?_of_forget hothers]
      exact h
    · cases h
  · cases h

theorem inside_of_split {tree : Tree} {body : List Tree} {group : CaseGroup}
    (htree : store.Holds tree) (hbody : ∀ item, item ∈ body → item ∈ tree.subtrees)
    (hgroup : group ∈ (Split.ofBody store (body.map Tree.id)).groups) :
    group.Inside store tree.id := by
  obtain ⟨stmts, parts, hsplit, hsame, -, -⟩ :=
    exists_split (fun item hitem => Tree.Legible.of_holds htree (hbody item hitem))
  rw [hsplit] at hgroup
  obtain ⟨part, hpart, rfl⟩ := List.mem_map.mp hgroup
  intro id hid
  obtain ⟨stmt, hstmt, rfl⟩ := List.mem_map.mp hid
  refine htree.preorder_subset (hbody stmt ?_)
  rw [hsame]
  exact List.mem_append_right _ (List.mem_flatMap.mpr ⟨part, hpart, List.mem_append_right _ hstmt⟩)

theorem cautious : Cautious respond Store.KeepsLocals := by
  refine ⟨wants, decides_respond, ?_⟩
  intro options store tree old unbound untyped htree hold hkept hwants
  unfold wants at hwants ⊢
  split at hwants
  · next subject body hkind =>
    have hsame := Store.kind_of_forget hkind (by simp) (by simp)
    obtain ⟨subs, hform, hsubs⟩ := (Tree.Legible.of_holds htree hold).of_kind hsame
    obtain ⟨first, rest, rfl, -, rfl⟩ := List.map_eq_cons_iff.mp hsubs
    have hbody : ∀ item, item ∈ rest → item ∈ tree.subtrees := by
      intro item hitem
      refine Tree.slot_mem_subtrees hold ?_
      rw [hform]
      exact List.mem_cons_of_mem _ hitem
    rw [hsame]
    unfold plan? at hwants ⊢
    rw [Store.isPassive_forget] at hwants
    simp only
    split at hwants
    · next hpassive =>
      rw [if_pos hpassive]
      rw [Option.isSome_map] at hwants ⊢
      cases hgroups : caseGroups? (store.forget unbound untyped) (rest.map Tree.id) with
      | none =>
          rw [hgroups] at hwants
          cases hwants
      | some groups =>
          rw [hgroups, Option.bind_some, closedGroups?_forget] at hwants
          rw [caseGroups?_of_forget hkept (fun group => inside_of_split htree hbody) hgroups]
          exact hwants
    · cases hwants
  · cases hwants

end TwoWaySwitch

namespace LocalTable

def wants (_ : Options) (store : Store) (node : NodeId) : Bool :=
  match store.kind node with
  | .varDecl _ (some binding) (some init) =>
      isTable store node && isTableCreation store init && (localUses? store node binding).isSome
  | .creation _ => isTable store node && isSafeReceiver store node
  | _ => false

theorem decides_respond {options : Options} {node : NodeId} (hlt : node < store.size) :
    Decides (respond options node) store (wants options store node) := by
  refine .congr ?_ (Build.bind_ok (Build.run_kindOf hlt))
  refine .congr ?_ (Build.bind_ok (Build.run_get store))
  unfold wants
  generalize store.kind node = kind
  cases kind with
  | varDecl text binding init =>
      cases binding with
      | none => exact decides_decline store
      | some binding =>
          cases init with
          | none => exact decides_decline store
          | some init =>
              simp only
              cases isTable store node && isTableCreation store init with
              | false => exact decides_decline store
              | true =>
                  cases localUses? store node binding with
                  | none => exact decides_decline store
                  | some uses => exact Skips.decides (.bind fun _ => skips_pure rfl) store
  | creation args => exact Skips.decides_ite (.bind fun _ => skips_pure rfl) _ _
  | _ => exact decides_decline store

theorem isTable_of_forget {id : NodeId} (h : isTable (store.forget unbound untyped) id = true) :
    isTable store id = true :=
  Store.any_typeOf_of_forget h

theorem isTableCreation_of_forget {expr : NodeId}
    (h : isTableCreation (store.forget unbound untyped) expr = true) :
    isTableCreation store expr = true := by
  unfold isTableCreation at h ⊢
  split at h
  · next args hkind =>
    rw [Store.kind_of_forget hkind (by simp) (by simp)]
    exact isTable_of_forget h
  · cases h

theorem isSafeReceiver_forget {id : NodeId} :
    isSafeReceiver (store.forget unbound untyped) id = isSafeReceiver store id := by
  unfold isSafeReceiver
  rw [Store.parent_forget]
  cases store.parent id with
  | none => rfl
  | some owner =>
      simp only [Option.map_some]
      rcases store.kind_forget_cases unbound untyped owner with hkind | hkind <;>
        rw [hkind]
      cases store.kind owner <;> rfl

theorem laterStatements?_forget {decl : NodeId} :
    laterStatements? (store.forget unbound untyped) decl = laterStatements? store decl := by
  unfold laterStatements?
  have hlist : (fun owner => ((store.forget unbound untyped).kind owner).statementList?) =
      fun owner => (store.kind owner).statementList? :=
    funext fun _ => Store.read_forget Kind.statementList? (by rintro ⟨⟩ <;> rfl)
  rw [Store.parent_forget, hlist]

theorem synonym?_of_forget {id : NodeId} {use : Use}
    (h : synonym? (store.forget unbound untyped) id = some use) : synonym? store id = some use := by
  unfold synonym? at h ⊢
  rw [Store.parent_forget] at h
  split at h
  · next owner hparent =>
    split at h
    · next text binding init hkind =>
      rw [Store.kind_of_forget hkind (by simp) (by simp)]
      split at h
      · next hfits =>
        rw [Bool.and_eq_true] at hfits
        simp only [hfits.1, isTable_of_forget hfits.2, Bool.and_true, if_true]
        exact h
      · cases h
    · cases h
  · cases h

theorem use?_of_forget {id : NodeId} {use : Use}
    (h : use? (store.forget unbound untyped) id = some use) : use? store id = some use := by
  unfold use? at h ⊢
  rw [isSafeReceiver_forget] at h
  split at h
  · next hsafe => rwa [if_pos hsafe]
  · next hsafe =>
    rw [if_neg hsafe]
    exact synonym?_of_forget h

theorem declares_add {tree : Tree} {tracking : Tracking} {id : NodeId} {use : Use}
    (h : (store.forget unbound untyped).Declares tree.id tracking.locals)
    (htree : store.Holds tree) (hid : id ∈ tree.ids)
    (huse : use? (store.forget unbound untyped) id = some use) :
    (store.forget unbound untyped).Declares tree.id (tracking.add use).locals := by
  rcases of_use? huse with rfl | ⟨owner, text, found, hparent, hkind, rfl⟩
  · exact h
  · intro binding hbinding
    rcases List.mem_cons.mp hbinding with rfl | hbinding
    · rw [Store.parent_forget] at hparent
      have howner := htree.mem_preorder_iff.mpr (htree.parent_mem_ids hid hparent)
      rw [← @Store.preorder_forget _ unbound untyped] at howner
      exact ⟨owner, howner, by simp [Store.declared?, hkind]⟩
    · exact h binding hbinding

/-- One step of a walk, which follows the same locals with less information and with more. -/
theorem visit_of_forget {tree : Tree} {tracking next : Tracking} {id : NodeId}
    (htree : store.Holds tree) (hkept : store.KeepsLocals tree.id unbound)
    (hdeclared : (store.forget unbound untyped).Declares tree.id tracking.locals)
    (hid : id ∈ store.preorder tree.id)
    (h : tracking.visit (store.forget unbound untyped) id = some next) :
    tracking.visit store id = some next ∧
      (store.forget unbound untyped).Declares tree.id next.locals := by
  unfold Tracking.visit at h ⊢
  rw [hkept.isNameOf_eq hid hdeclared] at h
  split at h
  · next hname =>
    rw [if_pos hname]
    obtain ⟨use, huse, rfl⟩ := Option.map_eq_some_iff.mp h
    rw [use?_of_forget huse]
    exact ⟨rfl, declares_add hdeclared htree (htree.mem_preorder_iff.mp hid) huse⟩
  · next hname =>
    rw [if_neg hname]
    cases h
    exact ⟨rfl, hdeclared⟩

/-- A walk that finds no escape with less information finds none with more. -/
theorem visits_of_forget {tree : Tree} {ids : List NodeId} {tracking final : Tracking}
    (htree : store.Holds tree) (hkept : store.KeepsLocals tree.id unbound)
    (hdeclared : (store.forget unbound untyped).Declares tree.id tracking.locals)
    (hids : ids ⊆ store.preorder tree.id)
    (h : ids.foldlM (Tracking.visit (store.forget unbound untyped)) tracking = some final) :
    ids.foldlM (Tracking.visit store) tracking = some final := by
  induction ids generalizing tracking with
  | nil => exact h
  | cons id ids ih =>
      rw [List.foldlM_cons] at h ⊢
      obtain ⟨next, hnext, hrest⟩ := Option.bind_eq_some_iff.mp h
      obtain ⟨hvisit, hstill⟩ :=
        visit_of_forget htree hkept hdeclared (hids (List.mem_cons_self ..)) hnext
      rw [hvisit]
      exact ih hstill (fun other hother => hids (List.mem_cons_of_mem _ hother)) hrest

theorem localUses?_of_forget {tree old : Tree} {text : String} {binding : BindingId}
    {init : Option NodeId} {uses : List Use} (htree : store.Holds tree)
    (hold : old ∈ tree.subtrees) (hkept : store.KeepsLocals tree.id unbound)
    (hkind : (store.forget unbound untyped).kind old.id = .varDecl text (some binding) init)
    (h : localUses? (store.forget unbound untyped) old.id binding = some uses) :
    localUses? store old.id binding = some uses := by
  unfold localUses? at h ⊢
  rw [laterStatements?_forget] at h
  split at h
  · next stmts hstmts =>
    obtain ⟨final, hfinal, rfl⟩ := Option.map_eq_some_iff.mp h
    have hne : old ≠ tree := by
      rintro rfl
      unfold laterStatements? at hstmts
      rw [htree.held.link] at hstmts
      cases hstmts
    obtain ⟨holder, before, after, hlisted, rfl⟩ :=
      exists_later htree.held htree.nodup hold hne hstmts
    rw [show (store.forget unbound untyped).preorder = store.preorder from
      funext fun _ => Store.preorder_forget] at hfinal
    have hlater : (after.map Tree.id).flatMap store.preorder ⊆ store.preorder tree.id := by
      intro id hid
      obtain ⟨item, hitem, hbelow⟩ := List.mem_flatMap.mp hid
      obtain ⟨stmt, hstmt, rfl⟩ := List.mem_map.mp hitem
      exact htree.preorder_subset (hlisted.mem_subtrees hstmt) hbelow
    have hdeclared : (store.forget unbound untyped).Declares tree.id [binding] := by
      intro other hother
      obtain rfl := List.mem_singleton.mp hother
      have hreach := htree.mem_preorder_iff.mpr (Tree.ids_subset_of_mem hold old.id_mem_ids)
      rw [← @Store.preorder_forget _ unbound untyped] at hreach
      exact ⟨old.id, hreach, by simp [Store.declared?, hkind]⟩
    simp only [visits_of_forget htree hkept hdeclared hlater hfinal, Option.map_some]
  · cases h

theorem cautious : Cautious respond Store.KeepsLocals := by
  refine ⟨wants, decides_respond, ?_⟩
  intro options store tree old unbound untyped htree hold hkept hwants
  unfold wants at hwants ⊢
  split at hwants
  · next text binding init hkind =>
    simp only [Bool.and_eq_true] at hwants
    obtain ⟨uses, huses⟩ := Option.isSome_iff_exists.mp hwants.2
    rw [Store.kind_of_forget hkind (by simp) (by simp)]
    simp only [isTable_of_forget hwants.1.1, isTableCreation_of_forget hwants.1.2,
      localUses?_of_forget htree hold hkept hkind huses, Option.isSome_some, Bool.and_self]
  · next args hkind =>
    rw [Store.kind_of_forget hkind (by simp) (by simp)]
    rw [isSafeReceiver_forget, Bool.and_eq_true] at hwants
    simp only [isTable_of_forget hwants.1, hwants.2, Bool.and_true]
  · cases hwants

end LocalTable

/-! ## All rules -/

namespace Registry

def FollowsLocals (rule : Rule Unit) : Prop :=
  rule.name = TwoWaySwitch.ruleName ∨ rule.name = LocalTable.ruleName

/-- Every rule answers, and is cautious if what is forgotten keeps the locals it follows. -/
theorem exists_cautious {rule : Rule Unit} (h : rule ∈ Registry.rules) :
    ∃ name respond kept, rule = .plain name respond ∧ Responsive respond ∧
      Cautious respond kept ∧
      ∀ store root unbound, (FollowsLocals rule → Store.KeepsLocals store root unbound) →
        kept store root unbound := by
  simp only [rules, List.mem_cons, List.not_mem_nil, or_false] at h
  rcases h with rfl | rfl | rfl | rfl | rfl | rfl | rfl
  · exact ⟨_, _, _, rfl, responsive_switch, TwoWaySwitch.cautious,
      fun _ _ _ hkept => hkept (.inl rfl)⟩
  · exact ⟨_, _, _, rfl, responsive_negation, NegationDescent.cautious, fun _ _ _ _ => trivial⟩
  · exact ⟨_, _, _, rfl, responsive_emptiness, EmptinessTest.cautious, fun _ _ _ _ => trivial⟩
  · exact ⟨_, _, _, rfl, responsive_set, SetUpdate.cautious, fun _ _ _ _ => trivial⟩
  · exact ⟨_, _, _, rfl, responsive_string, StringConversion.cautious, fun _ _ _ _ => trivial⟩
  · exact ⟨_, _, _, rfl, responsive_table, LocalTable.cautious,
      fun _ _ _ hkept => hkept (.inr rfl)⟩
  · exact ⟨_, _, _, rfl, responsive_dead, DeadBranch.cautious, fun _ _ _ _ => trivial⟩

/-- A rule that asks for edits wherever it answers does so in a well-formed unit. -/
theorem exists_edits {respond : Options → NodeId → Build Response} {options : Options}
    {source : Source} {tree old : Tree} (h : source.WellFormed) (htree : source.store.Holds tree)
    (hroot : tree.id = source.root) (horder : tree.Orderly) (hold : old ∈ tree.subtrees)
    (hresponsive : Responsive respond)
    (hdecides : Decides (respond options old.id) source.store true) :
    ∃ edits drafted, edits ≠ [] ∧
      respond options old.id source.store = .ok (.edit edits, drafted) := by
  by_cases hne : old = tree
  · subst hne
    have hlt := (Tree.Legible.of_holds htree hold).lt
    have hunit := h.unit
    rw [← hroot] at hunit
    cases hdecides _ _ (hresponsive.root hlt hunit)
  · rcases @Responsive.answers respond hresponsive options _ _ _ htree horder hold hne with
      hdecline | ⟨edits, drafted, final, later, hedits, hrun, -⟩
    · cases hdecides _ _ hdecline
    · exact ⟨edits, drafted, hedits, hrun⟩

/-- A rule that asks for edits at a node of a well-formed unit of which bindings and types are
forgotten asks for edits at that node of the unit itself, unless it follows locals and a name of
a declared local is forgotten without the declaration. -/
theorem forgetting_enables_nothing {rule : Rule Unit} {options : Options} {source : Source}
    {unbound untyped : NodeId → Bool} {node : NodeId} {response : Response} {drafted : Store}
    (hrule : rule ∈ rules) (h : source.WellFormed)
    (hnode : node ∈ source.store.preorder source.root)
    (hkept : FollowsLocals rule → source.store.KeepsLocals source.root unbound)
    (hrun : Runs (rule.respond options node) (source.store.forget unbound untyped) response drafted)
    (hedits : response.edits ≠ []) :
    ∃ response' drafted', Runs (rule.respond options node) source.store response' drafted' ∧
      response'.edits ≠ [] := by
  obtain ⟨tree, htree, hroot, horder, -⟩ := h.toProper.exists_tree
  obtain ⟨name, respond, kept, rfl, hresponsive, ⟨wants, hdecides, hmono⟩, hkeeps⟩ :=
    exists_cautious hrule
  have hstill := hkeeps source.store source.root unbound hkept
  rw [← hroot] at hnode hstill
  obtain ⟨old, hold, rfl⟩ := Tree.mem_ids_iff.mp (htree.mem_preorder_iff.mp hnode)
  have hlt := (Tree.Legible.of_holds htree hold).lt
  have hless : wants options (source.store.forget unbound untyped) old.id = true := by
    by_contra hnot
    have hdecline := @hdecides options (source.store.forget unbound untyped) old.id
      (by rwa [Store.size_forget])
    rw [Bool.not_eq_true] at hnot
    rw [hnot] at hdecline
    obtain ⟨rfl, -⟩ := hrun.unique (runs_plain hdecline)
    exact hedits rfl
  have hmore := @hdecides options source.store old.id hlt
  rw [hmono htree hold hstill hless] at hmore
  obtain ⟨edits, drafted', hne, hrun'⟩ :=
    exists_edits h htree hroot horder hold hresponsive hmore
  exact ⟨.edit edits, drafted', runs_plain hrun', hne⟩

/-- The unit `{ Hashtable h = new Hashtable(); int n = 0; h.get(n); }`. -/
def tableAndCount : Source where
  store :=
    { nodes := #[
        ⟨.creation [], some 0, some 1, false⟩,
        ⟨.varDecl "h" (some 0) (some 0), some 0, some 8, false⟩,
        ⟨.literal (.int 0), none, some 3, false⟩,
        ⟨.varDecl "n" (some 1) (some 2), none, some 8, false⟩,
        ⟨.name "h" (some 0), some 0, some 6, false⟩,
        ⟨.name "n" (some 1), none, some 6, false⟩,
        ⟨.call (some 4) "get" [5], none, some 7, false⟩,
        ⟨.exprStmt 6, none, some 8, false⟩,
        ⟨.block [1, 3, 7], none, some 9, false⟩,
        ⟨.unit [8], none, none, false⟩]
      types := ⟨#[{ name := LocalTable.tableType, sort := .reference, supertypes := [] }]⟩ }
  root := 9

/-- A table is replaced by a map whether or not it is known what the argument names. -/
theorem forgetting_enables_nothing_table :
    (∃ response drafted, Runs (LocalTable.rule.respond {} 1)
      (tableAndCount.store.forget (fun id => id == 3 || id == 5) (fun id => id == 4))
      response drafted ∧ response.edits ≠ []) ∧
    ∃ response drafted, Runs (LocalTable.rule.respond {} 1) tableAndCount.store response drafted ∧
      response.edits ≠ [] := by
  have hless : ∃ response drafted, Runs (LocalTable.rule.respond {} 1)
      (tableAndCount.store.forget (fun id => id == 3 || id == 5) (fun id => id == 4))
      response drafted ∧ response.edits ≠ [] := ⟨_, _, rfl, by decide +kernel⟩
  have hkept : tableAndCount.store.KeepsLocals tableAndCount.root
      (fun id => id == 3 || id == 5) := by
    have hall : ∀ name, name ∈ tableAndCount.store.preorder tableAndCount.root →
        ∀ decl, decl ∈ tableAndCount.store.preorder tableAndCount.root →
        ∀ binding, binding ∈ tableAndCount.store.declared? decl →
          tableAndCount.store.isNameOf binding.toList name = true →
          (name == 3 || name == 5) = true → (decl == 3 || decl == 5) = true := by
      decide +kernel
    intro name hname decl hdecl binding hbound hdeclared
    exact hall name hname decl hdecl (some binding) hdeclared hbound
  obtain ⟨response, drafted, hrun, hedits⟩ := hless
  exact ⟨⟨response, drafted, hrun, hedits⟩,
    @forgetting_enables_nothing LocalTable.rule {} tableAndCount _ _ 1 response drafted
      (by simp [rules]) (by decide +kernel) (by decide +kernel) (fun _ => hkept) hrun hedits⟩

/-- The unit `switch (k) { case 1: int x = 5; break; default: use(x); }`. -/
def sharedLocal : Source where
  store :=
    { nodes := #[
        ⟨.name "k" (some 0), none, some 10, false⟩,
        ⟨.literal (.int 1), none, some 2, false⟩,
        ⟨.caseLabel (some 1), none, some 10, false⟩,
        ⟨.literal (.int 5), none, some 4, false⟩,
        ⟨.varDecl "x" (some 1) (some 3), none, some 10, false⟩,
        ⟨.breakStmt none, none, some 10, false⟩,
        ⟨.caseLabel none, none, some 10, false⟩,
        ⟨.name "x" (some 1), none, some 8, false⟩,
        ⟨.call none "use" [7], none, some 9, false⟩,
        ⟨.exprStmt 8, none, some 10, false⟩,
        ⟨.switchStmt 0 [2, 4, 5, 6, 9], none, some 11, false⟩,
        ⟨.unit [10], none, none, false⟩] }
  root := 11

/-- A switch is turned into a conditional although its second group uses a local of the first,
once the name of the local is not bound. -/
theorem forgetting_enables_switch :
    sharedLocal.WellFormed ∧ (TwoWaySwitch.rule : Rule Unit) ∈ rules ∧
      10 ∈ sharedLocal.store.preorder sharedLocal.root ∧
      Runs (TwoWaySwitch.rule.respond {} 10) sharedLocal.store .decline sharedLocal.store ∧
      ∃ response drafted, Runs (TwoWaySwitch.rule.respond {} 10)
        (sharedLocal.store.forget (fun id => id == 7) (fun _ => false)) response drafted ∧
        response.edits ≠ [] := by
  refine ⟨by decide +kernel, by simp [rules], by decide +kernel, by rfl, ?_⟩
  exact ⟨_, _, rfl, by decide +kernel⟩

end Registry

end CodeTidy
