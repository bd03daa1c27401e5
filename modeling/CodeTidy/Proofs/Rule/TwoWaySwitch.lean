import CodeTidy.Proofs.Effect
import CodeTidy.Rule.TwoWaySwitch

/-!
# What the switch rule does

A switch body is a list of groups: labels that stand together, and the statements
after them.  A switch with one or two groups becomes a conditional that is built from
the last group on.
-/

namespace CodeTidy

namespace TwoWaySwitch

/-! ## Groups of terms and of trees -/

structure Group (α : Type) where
  items : List α
  stmts : List α

namespace Group

variable {α β : Type}

def map (f : α → β) (group : Group α) : Group β :=
  ⟨group.items.map f, group.stmts.map f⟩

def body (group : Group α) : List α :=
  group.items ++ group.stmts

def labels (group : Group Term) : List Term :=
  group.items.flatMap Term.subs

def hasDefault (group : Group Term) : Bool :=
  group.items.any (fun item => item.subs.isEmpty)

def trim (isBreak : α → Bool) (group : Group α) : Group α :=
  ⟨group.items,
    if group.stmts.getLast?.any isBreak then group.stmts.dropLast else group.stmts⟩

def close : Group Term → Group Term :=
  trim (fun stmt => stmt.head == .breakStmt none)

/-- The group begins with a label and has no label among its statements. -/
structure IsSplit (group : Group Term) : Prop where
  nonempty : group.items ≠ []
  items : ∀ item, item ∈ group.items → item.head = .caseLabel
  stmts : ∀ stmt, stmt ∈ group.stmts → stmt.head ≠ .caseLabel

/-- No break is left that would end something else once the switch is gone. -/
def IsClosed (group : Group Term) : Prop :=
  ∀ stmt, stmt ∈ group.close.stmts → stmt.hasLooseBreak = false

/-- No statement of the second group names what a statement of the first declares. -/
def Apart (first second : Group Term) : Prop :=
  ∀ stmt, stmt ∈ first.stmts → ∀ binding, stmt.head.declared? = some binding →
    ∀ other, other ∈ second.stmts → binding ∉ other.mentions

end Group

/-! ## The conditional -/

def labelTerm (subject label : Term) : Term :=
  match TestForm.ofType label.type with
  | .equalsCall => .call label "equals" [subject]
  | .constant typeText => .chain .equals [subject, .qualified (.typeName typeText) label]
  | .comparison => .chain .equals [subject.wrap Strength.equality, label]

def groupTerm (subject : Term) (labels : List Term) : Term :=
  .join .conditionalOr (labels.map (labelTerm subject))

def statementTerm (subject : Term) (group : Group Term) (rest : Option Term) : Option Term :=
  match rest with
  | none =>
      if group.stmts.isEmpty then none
      else if group.hasDefault then some (.block group.stmts)
      else some (.ifStmt (groupTerm subject group.labels) (.block group.stmts) none)
  | some elseBranch =>
      some (.ifStmt (groupTerm subject group.labels) (.block group.stmts) (some elseBranch))

def conditionalTerm (subject : Term) (groups : List (Group Term)) : Option Term :=
  groups.foldr (statementTerm subject) none

/-- Two groups with the one that has the default label at the end. -/
def inOrder (first second : Group Term) : List (Group Term) :=
  if first.hasDefault then [second, first] else [first, second]

/-- The conditional takes the place of the switch; without one the switch disappears. -/
def Becomes (result fresh : Option Term) : Prop :=
  match result with
  | some stmt => fresh = some stmt
  | none => Vanished fresh

/-- The statement for a group is its block, or a conditional around it. -/
theorem statementTerm_cases {subject new : Term} {group : Group Term} {rest : Option Term}
    (h : new ∈ statementTerm subject group rest) :
    (rest = none ∧ new = .block group.stmts) ∨
      ((rest = none → group.hasDefault = false) ∧
        new = .ifStmt (groupTerm subject group.labels) (.block group.stmts) rest) := by
  unfold statementTerm at h
  split at h
  · split at h
    · cases h
    · split at h
      · cases h
        exact .inl ⟨rfl, rfl⟩
      · next hdefault =>
          cases h
          exact .inr ⟨fun _ => Bool.eq_false_iff.mpr hdefault, rfl⟩
  · cases h
    exact .inr ⟨by simp, rfl⟩

theorem mem_of_becomes {result fresh : Option Term} {new : Term} (h : Becomes result fresh)
    (hnew : new ∈ fresh) : new ∈ result ∨ Vanished fresh := by
  cases result with
  | some stmt =>
      cases h
      exact .inl hnew
  | none => exact .inr h

inductive Rewrite : Rewriting where
  | one {type : Option TypeDesc} {subject : Term} {group : Group Term} {fresh : Option Term}
      (hpassive : subject.isPassive = true) (hsplit : group.IsSplit) (hclosed : group.IsClosed)
      (hfresh : Becomes (conditionalTerm subject [group.close]) fresh) :
      Rewrite (.node .switchStmt type (subject :: group.body)) fresh
  | two {type : Option TypeDesc} {subject : Term} {first second : Group Term}
      {fresh : Option Term} (hpassive : subject.isPassive = true)
      (hsplit : first.IsSplit) (hsplit' : second.IsSplit)
      (hclosed : first.IsClosed) (hclosed' : second.IsClosed)
      (hjump : first.stmts.getLast?.any Term.endsWithJump = true) (hapart : first.Apart second)
      (hfresh : Becomes (conditionalTerm subject (inOrder first.close second.close)) fresh) :
      Rewrite (.node .switchStmt type (subject :: (first.body ++ second.body))) fresh

structure Group.From (body : List Term) (group : Group Term) : Prop where
  items : ∀ item, item ∈ group.items → item ∈ body ∧ item.head = .caseLabel
  stmts : ∀ stmt, stmt ∈ group.stmts → stmt ∈ body

theorem Group.mem_of_close {group : Group Term} {stmt : Term} (h : stmt ∈ group.close.stmts) :
    stmt ∈ group.stmts := by
  unfold close trim at h
  dsimp only at h
  split at h
  · exact List.dropLast_subset _ h
  · exact h

theorem Group.IsSplit.from_close {group : Group Term} {body : List Term} (h : group.IsSplit)
    (hbody : group.body ⊆ body) : group.close.From body where
  items item hitem := ⟨hbody (List.mem_append_left _ hitem), h.items item hitem⟩
  stmts _ hstmt := hbody (List.mem_append_right _ (Group.mem_of_close hstmt))

/-- In whatever order its groups are tested, a switch becomes a conditional made of them. -/
theorem Rewrite.exists_groups {old : Term} {fresh : Option Term} (h : Rewrite old fresh) :
    ∃ type subject body groups, old = .node .switchStmt type (subject :: body) ∧
      Becomes (conditionalTerm subject groups) fresh ∧
      ∀ group, group ∈ groups → group.From body := by
  cases h with
  | @one type subject group fresh hpassive hsplit hclosed hfresh =>
      refine ⟨type, subject, _, _, rfl, hfresh, ?_⟩
      intro other hother
      obtain rfl := List.mem_singleton.mp hother
      exact hsplit.from_close (List.Subset.refl _)
  | @two type subject first second fresh hpassive hsplit hsplit' hclosed hclosed' hjump hapart
      hfresh =>
      refine ⟨type, subject, _, _, rfl, hfresh, ?_⟩
      intro other hother
      have hmem : other = first.close ∨ other = second.close := by
        unfold inOrder at hother
        split at hother
        · simpa [or_comm] using hother
        · simpa using hother
      rcases hmem with rfl | rfl
      · exact hsplit.from_close (List.subset_append_left ..)
      · exact hsplit'.from_close (List.subset_append_right ..)

/-! ## Reading the plan -/

variable {base store : Store} {tree old subject label : Tree} {trees : List Tree}
  {region : List NodeId} {options : Options}

/-- The numbers of a group of trees, as the rule sees it. -/
def Group.ids (group : Group Tree) : CaseGroup :=
  ⟨(group.items.flatMap Tree.subs).map Tree.id, group.stmts.map Tree.id,
    group.items.any (fun item => item.subs.isEmpty)⟩

def Group.closed : Group Tree → Group Tree :=
  trim (fun stmt => stmt.head == .breakStmt none)

theorem Group.map_closed (group : Group Tree) :
    group.closed.map Tree.term = (group.map Tree.term).close := by
  have hlast : (group.stmts.map Tree.term).getLast?.any (fun stmt => stmt.head == .breakStmt none) =
      group.stmts.getLast?.any (fun stmt => stmt.head == .breakStmt none) := by
    simp [List.getLast?_map, Option.any_map]
  unfold closed close trim map
  simp only [hlast]
  split
  · rw [List.map_dropLast]
  · rfl

theorem Group.closed_items (group : Group Tree) : group.closed.items = group.items := rfl

theorem Group.closed_stmts_sublist (group : Group Tree) :
    group.closed.stmts.Sublist group.stmts := by
  unfold closed trim
  dsimp only
  split
  · exact List.dropLast_sublist _
  · exact List.Sublist.refl _

theorem Group.hasDefault_ids (group : Group Tree) :
    group.ids.hasDefault = (group.map Tree.term).hasDefault := by
  simp only [ids, hasDefault, map, List.any_map]
  congr 1
  funext item
  simp

theorem Group.term_labels (group : Group Tree) :
    (group.items.flatMap Tree.subs).map Tree.term = (group.map Tree.term).labels := by
  unfold labels map
  simp [List.map_flatMap, List.flatMap_map]

theorem addLabel_ids {item : Tree} {label : Option NodeId} (group : Group Tree)
    (hlabel : item.subs.map Tree.id = label.toList) :
    group.ids.addLabel label = Group.ids ⟨item :: group.items, group.stmts⟩ := by
  cases label with
  | none =>
      have hsubs : item.subs = [] := List.map_eq_nil_iff.mp hlabel
      simp [CaseGroup.addLabel, Group.ids, hsubs]
  | some label =>
      obtain ⟨sub, hsubs, rfl⟩ := List.map_eq_singleton_iff.mp hlabel
      simp [CaseGroup.addLabel, Group.ids, hsubs]

theorem exists_label {item : Tree} (hlegible : item.Legible base)
    (hhead : item.head = .caseLabel) :
    ∃ label, base.kind item.id = .caseLabel label ∧ item.subs.map Tree.id = label.toList := by
  have hkind := hlegible.kind_head
  have hchildren : (base.kind item.id).children = item.subs.map Tree.id := hlegible.children
  rw [hhead] at hkind
  cases hk : base.kind item.id
  all_goals rw [hk] at hkind; cases hkind
  next label =>
    rw [hk] at hchildren
    exact ⟨label, rfl, hchildren.symm⟩

theorem addItem_of_ne {item : Tree} {rest : Split} (hlegible : item.Legible base)
    (hne : item.head ≠ .caseLabel) :
    Split.addItem base item.id rest = ⟨item.id :: rest.stmts, rest.groups⟩ := by
  have hkind := hlegible.kind_head
  unfold Split.addItem
  cases hk : base.kind item.id <;> rw [hk] at hkind
  exact absurd hkind.symm hne

theorem Group.IsSplit.cons {item : Tree} {group : Group Tree}
    (h : (group.map Tree.term).IsSplit) (hhead : item.head = .caseLabel) :
    (Group.map Tree.term ⟨item :: group.items, group.stmts⟩).IsSplit where
  nonempty := by simp [Group.map]
  items := by
    intro other hother
    rcases List.mem_cons.mp hother with rfl | hother
    · rwa [Tree.head_term]
    · exact h.items other hother
  stmts := h.stmts

theorem addItem_join {item : Tree} {group : Group Tree} {others : List CaseGroup}
    (hlegible : item.Legible base) (hhead : item.head = .caseLabel) :
    Split.addItem base item.id ⟨[], group.ids :: others⟩ =
      ⟨[], Group.ids ⟨item :: group.items, group.stmts⟩ :: others⟩ := by
  obtain ⟨label, hkind, hids⟩ := exists_label hlegible hhead
  unfold Split.addItem
  rw [hkind, ← addLabel_ids group hids]

theorem addItem_new {item : Tree} {stmts : List Tree} {groups : List (Group Tree)}
    (hlegible : item.Legible base) (hhead : item.head = .caseLabel)
    (hnew : ¬(stmts = [] ∧ groups ≠ [])) :
    Split.addItem base item.id ⟨stmts.map Tree.id, groups.map Group.ids⟩ =
      ⟨[], Group.ids ⟨[item], stmts⟩ :: groups.map Group.ids⟩ := by
  obtain ⟨label, hkind, hids⟩ := exists_label hlegible hhead
  have hgroup : CaseGroup.addLabel ⟨[], stmts.map Tree.id, false⟩ label =
      Group.ids ⟨[item], stmts⟩ := addLabel_ids ⟨[], stmts⟩ hids
  unfold Split.addItem
  rw [hkind, ← hgroup]
  cases stmts with
  | cons stmt stmts => rfl
  | nil =>
      cases groups with
      | nil => rfl
      | cons group others => exact absurd ⟨rfl, List.cons_ne_nil _ _⟩ hnew

/-- A body is split into statements before the first label and groups. -/
theorem exists_split {body : List Tree} (hlegible : ∀ item, item ∈ body → item.Legible base) :
    ∃ (stmts : List Tree) (groups : List (Group Tree)),
      Split.ofBody base (body.map Tree.id) = ⟨stmts.map Tree.id, groups.map Group.ids⟩ ∧
      body = stmts ++ groups.flatMap Group.body ∧
      (∀ stmt, stmt ∈ stmts → stmt.term.head ≠ .caseLabel) ∧
      ∀ group, group ∈ groups → (group.map Tree.term).IsSplit := by
  induction body with
  | nil => exact ⟨[], [], rfl, rfl, by simp, by simp⟩
  | cons item body ih =>
      obtain ⟨stmts, groups, hsplit, hbody, hstmts, hgroups⟩ :=
        ih (fun other hother => hlegible other (List.mem_cons_of_mem _ hother))
      have hitem := hlegible item (List.mem_cons_self ..)
      have hstep : Split.ofBody base ((item :: body).map Tree.id) =
          Split.addItem base item.id ⟨stmts.map Tree.id, groups.map Group.ids⟩ := by
        rw [← hsplit]
        rfl
      by_cases hhead : item.head = .caseLabel
      · by_cases hjoin : stmts = [] ∧ groups ≠ []
        · obtain ⟨rfl, hne⟩ := hjoin
          obtain ⟨group, others, rfl⟩ := List.exists_cons_of_ne_nil hne
          have hgroup := hgroups group (List.mem_cons_self ..)
          refine ⟨[], ⟨item :: group.items, group.stmts⟩ :: others, ?_, by rw [hbody]; rfl,
            by simp, ?_⟩
          · exact hstep.trans (addItem_join hitem hhead)
          · intro other hother
            rcases List.mem_cons.mp hother with rfl | hother
            · exact hgroup.cons hhead
            · exact hgroups other (List.mem_cons_of_mem _ hother)
        · refine ⟨[], ⟨[item], stmts⟩ :: groups, ?_, by rw [hbody]; rfl, by simp, ?_⟩
          · rw [hstep, addItem_new hitem hhead hjoin]
            rfl
          · intro other hother
            rcases List.mem_cons.mp hother with rfl | hother
            · exact ⟨by simp [Group.map], by simpa [Group.map] using hhead,
                by simpa [Group.map] using hstmts⟩
            · exact hgroups other hother
      · refine ⟨item :: stmts, groups, ?_, by rw [hbody]; rfl, ?_, hgroups⟩
        · rw [hstep, addItem_of_ne hitem hhead]
          rfl
        · intro stmt hstmt
          rcases List.mem_cons.mp hstmt with rfl | hrest
          · rwa [Tree.head_term]
          · exact hstmts stmt hrest

theorem any_getLast?_ids {items : List Tree} {p : NodeId → Bool} {q : Tree → Bool}
    (h : ∀ item, item ∈ items → p item.id = q item) :
    (items.map Tree.id).getLast?.any p = items.getLast?.any q := by
  rw [List.getLast?_map, Option.any_map]
  cases hlast : items.getLast? with
  | none => rfl
  | some item => exact h item (List.mem_of_getLast? hlast)

theorem of_closed? {isLast : Bool} {group : Group Tree} {found : CaseGroup}
    (hlegible : ∀ stmt, stmt ∈ group.stmts → stmt.Legible base)
    (h : group.ids.closed? base isLast = some found) :
    found = group.closed.ids ∧ (group.map Tree.term).IsClosed ∧
      (isLast = false → (group.map Tree.term).stmts.getLast?.any Term.endsWithJump = true) := by
  have hstmts : (if group.ids.stmts.getLast?.any base.isPlainBreak then
      group.ids.stmts.dropLast else group.ids.stmts) = group.closed.stmts.map Tree.id := by
    unfold Group.closed Group.trim Group.ids
    dsimp only
    rw [any_getLast?_ids (fun stmt hstmt => (hlegible stmt hstmt).isPlainBreak)]
    split
    · rw [List.map_dropLast]
    · rfl
  have hjump : group.ids.stmts.getLast?.any base.endsWithJump =
      (group.map Tree.term).stmts.getLast?.any Term.endsWithJump := by
    unfold Group.map Group.ids
    dsimp only
    rw [any_getLast?_ids (fun stmt hstmt => (hlegible stmt hstmt).endsWithJump),
      List.getLast?_map, Option.any_map]
  unfold CaseGroup.closed? at h
  dsimp only at h
  rw [hstmts, hjump] at h
  by_cases hends : (!isLast && !(group.map Tree.term).stmts.getLast?.any Term.endsWithJump) = true
  · rw [if_pos hends] at h
    cases h
  · rw [if_neg hends] at h
    by_cases hloose : (group.closed.stmts.map Tree.id).any base.hasLooseBreak = true
    · rw [if_pos hloose] at h
      cases h
    · rw [if_neg hloose] at h
      cases h
      refine ⟨rfl, ?_, ?_⟩
      · intro stmt hstmt
        rw [← Group.map_closed] at hstmt
        obtain ⟨item, hitem, rfl⟩ := List.mem_map.mp hstmt
        rw [← (hlegible item (group.closed_stmts_sublist.subset hitem)).hasLooseBreak]
        simp only [List.any_map, List.any_eq_true, not_exists, not_and] at hloose
        simpa using hloose item hitem
      · intro hlast
        simpa [hlast] using hends

/-- The groups of a body in the order in which the conditional tests them. -/
inductive Plan : List Tree → List (Group Tree) → Prop where
  | one {group : Group Tree} (hsplit : (group.map Tree.term).IsSplit)
      (hclosed : (group.map Tree.term).IsClosed) : Plan group.body [group.closed]
  | two {first second : Group Tree} (hsplit : (first.map Tree.term).IsSplit)
      (hsplit' : (second.map Tree.term).IsSplit) (hclosed : (first.map Tree.term).IsClosed)
      (hclosed' : (second.map Tree.term).IsClosed)
      (hjump : (first.map Tree.term).stmts.getLast?.any Term.endsWithJump = true)
      (hapart : (first.map Tree.term).Apart (second.map Tree.term)) :
      Plan (first.body ++ second.body)
        (if first.ids.hasDefault then [second.closed, first.closed]
          else [first.closed, second.closed])

theorem defaultLast_pair (first second : CaseGroup) :
    defaultLast [first, second] =
      if first.hasDefault then [second, first] else [first, second] := by
  unfold defaultLast
  cases hfirst : first.hasDefault <;> cases hsecond : second.hasDefault <;>
    simp [hfirst, hsecond]

theorem exists_declaredLocals {labels stmts : List NodeId} {hasDefault : Bool} {stmt : NodeId}
    {locals : List BindingId} (h : CaseGroup.locals? base ⟨labels, stmts, hasDefault⟩ = some locals)
    (hstmt : stmt ∈ stmts) : ∃ own, base.declaredLocals stmt = some own ∧ own ⊆ locals := by
  obtain ⟨lists, hlists, rfl⟩ := Option.map_eq_some_iff.mp h
  dsimp only at hlists
  clear h
  induction stmts generalizing lists with
  | nil => cases hstmt
  | cons other stmts ih =>
      rw [List.mapM_cons] at hlists
      obtain ⟨own, hown, hrest⟩ := Option.bind_eq_some_iff.mp hlists
      obtain ⟨others, hothers, hlists⟩ := Option.bind_eq_some_iff.mp hrest
      cases hlists
      rcases List.mem_cons.mp hstmt with rfl | hstmt
      · exact ⟨own, hown, List.subset_append_left ..⟩
      · obtain ⟨found, hfound, hsub⟩ := ih hstmt others hothers
        exact ⟨found, hfound, List.Subset.trans hsub (List.subset_append_right ..)⟩

theorem apart_of_uses {first second : Group Tree} {locals : List BindingId}
    (hfirst : ∀ stmt, stmt ∈ first.stmts → stmt.Legible base)
    (hsecond : ∀ stmt, stmt ∈ second.stmts → stmt.Legible base)
    (hlocals : first.ids.locals? base = some locals)
    (huses : second.ids.uses base locals = false) :
    (first.map Tree.term).Apart (second.map Tree.term) := by
  intro term hterm binding hdeclared term' hterm' hmention
  obtain ⟨stmt, hstmt, rfl⟩ := List.mem_map.mp hterm
  obtain ⟨other, hother, rfl⟩ := List.mem_map.mp hterm'
  obtain ⟨own, hown, hsub⟩ := exists_declaredLocals hlocals (List.mem_map_of_mem hstmt)
  rw [Tree.head_term] at hdeclared
  have hlocal : binding ∈ locals := hsub ((hfirst stmt hstmt).declaredLocals hdeclared hown)
  have hused : second.ids.uses base locals = true :=
    List.any_eq_true.mpr ⟨other.id, List.mem_map_of_mem hother,
      (hsecond other hother).mentions hlocal hmention⟩
  rw [huses] at hused
  cases hused

theorem exists_plan {body : List Tree} {groups : List CaseGroup}
    (hlegible : ∀ item, item ∈ body → item.Legible base)
    (h : ((caseGroups? base (body.map Tree.id)).bind (closedGroups? base)).map defaultLast =
      some groups) :
    ∃ ordered, groups = ordered.map Group.ids ∧ Plan body ordered := by
  obtain ⟨stmts, parts, hsplit, hbody, -, hparts⟩ := exists_split hlegible
  obtain ⟨closed, hclosed, rfl⟩ := Option.map_eq_some_iff.mp h
  obtain ⟨found, hfound, hclosed⟩ := Option.bind_eq_some_iff.mp hclosed
  unfold caseGroups? at hfound
  rw [hsplit] at hfound
  split at hfound
  · next only heq =>
      obtain ⟨hstmts, hgroups⟩ := Split.mk.inj heq
      obtain rfl := List.map_eq_nil_iff.mp hstmts
      obtain ⟨group, rfl, rfl⟩ := List.map_eq_singleton_iff.mp hgroups
      obtain ⟨-, -, rfl⟩ := Option.map_eq_some_iff.mp hfound
      obtain ⟨last, hlast, rfl⟩ := Option.map_eq_some_iff.mp hclosed
      have hbody : body = group.body := by simpa using hbody
      subst hbody
      obtain ⟨rfl, hgroup, -⟩ := of_closed?
        (fun stmt hstmt => hlegible stmt (List.mem_append_right _ hstmt)) hlast
      refine ⟨[group.closed], ?_, .one (hparts group (List.mem_singleton_self _)) hgroup⟩
      unfold defaultLast
      cases hdefault : group.closed.ids.hasDefault <;> simp [hdefault]
  · next first second heq =>
      obtain ⟨hstmts, hgroups⟩ := Split.mk.inj heq
      obtain rfl := List.map_eq_nil_iff.mp hstmts
      obtain ⟨first, rest, rfl, rfl, hrest⟩ := List.map_eq_cons_iff.mp hgroups
      obtain ⟨second, rfl, rfl⟩ := List.map_eq_singleton_iff.mp hrest
      have hbody : body = first.body ++ second.body := by simpa using hbody
      subst hbody
      have hfirstLegible : ∀ stmt, stmt ∈ first.stmts → stmt.Legible base :=
        fun stmt hstmt =>
          hlegible stmt (List.mem_append_left _ (List.mem_append_right _ hstmt))
      have hsecondLegible : ∀ stmt, stmt ∈ second.stmts → stmt.Legible base :=
        fun stmt hstmt =>
          hlegible stmt (List.mem_append_right _ (List.mem_append_right _ hstmt))
      obtain ⟨rfl, hapart⟩ : found = [first.ids, second.ids] ∧
          (first.map Tree.term).Apart (second.map Tree.term) := by
        split at hfound
        · next locals _ hlocals _ =>
            split at hfound <;> cases hfound
            next huses =>
              exact ⟨rfl, apart_of_uses hfirstLegible hsecondLegible hlocals
                (Bool.eq_false_iff.mpr huses)⟩
        · cases hfound
      unfold closedGroups? at hclosed
      split at hclosed
      · next first' rest' hfirst hrest =>
          cases hclosed
          obtain ⟨second', hsecond, rfl⟩ := Option.map_eq_some_iff.mp hrest
          obtain ⟨rfl, hfirstClosed, hjump⟩ := of_closed? hfirstLegible hfirst
          obtain ⟨rfl, hsecondClosed, -⟩ := of_closed? hsecondLegible hsecond
          refine ⟨_, ?_, .two (hparts first (by simp)) (hparts second (by simp))
            hfirstClosed hsecondClosed (hjump rfl) hapart⟩
          rw [defaultLast_pair]
          rw [apply_ite (List.map Group.ids)]
          rfl
      · cases hclosed
  · cases hfound

/-! ## Building the conditional -/

theorem yields_labelTest (h : Draft base region store trees) (hsubject : subject.Live base)
    (hlabel : label.Live base) (hnew : List.Disjoint label.ids region) :
    Yields base (label.ids ++ region) store trees (labelTest subject.id label.id)
      (labelTerm subject.term label.term) := by
  apply Yields.of_bind_ok (Build.run_get store)
  rw [(h.legible_live hlabel).typeOf, ← Tree.type_term]
  apply (h.yields_deepCopy hsubject).bind
  intro copied copy hcopied hcopy
  obtain ⟨taken, htake, htaken⟩ := hcopied.take_live hlabel hnew
  apply Yields.of_bind_ok htake
  unfold labelTerm
  rw [← hcopy]
  cases TestForm.ofType label.term.type with
  | equalsCall => exact @Draft.yields_call _ _ _ trees label [copy] "equals" htaken
  | constant typeText =>
      apply (htaken.yields_typeName typeText).bind
      intro typed qualifier htyped hqualifier
      apply (Draft.yields_qualified htyped).bind
      intro later constant hlater hconstant
      have hpair := hlater.perm (List.Perm.swap copy constant trees)
      dsimp only
      rw [← hqualifier, ← hconstant]
      exact @Draft.yields_chain _ _ _ trees copy constant [] .equals hpair
  | comparison =>
      have hpair := htaken.perm (List.Perm.swap copy label trees)
      apply (hpair.yields_parenthesize Strength.equality).bind
      intro later left hlater hleft
      dsimp only
      rw [← hleft]
      exact @Draft.yields_chain _ _ _ trees left label [] .equals hlater

theorem yields_groupTest {labels : List Tree} (h : Draft base region store trees)
    (hsubject : subject.Live base) (hne : labels ≠ [])
    (hlabels : ∀ label, label ∈ labels → label.Live base)
    (hnodup : (labels.flatMap Tree.ids).Nodup)
    (hnew : List.Disjoint (labels.flatMap Tree.ids) region) :
    Yields base (labels.flatMap Tree.ids ++ region) store trees
      (groupTest subject.id (labels.map Tree.id))
      (groupTerm subject.term (labels.map Tree.term)) := by
  have hnone : Draft base region store (labels.flatMap (fun _ => []) ++ trees) := by
    rwa [List.flatMap_eq_nil_iff.mpr (fun _ _ => rfl)]
  obtain ⟨later, tests, hrun, hdraft, hterms⟩ :=
    @Draft.mapM_yields _ _ _ _ _ Tree.id (labelTest subject.id)
      (fun label => labelTerm subject.term label.term) (fun _ => []) Tree.ids labels
      (fun label hlabel _ _ _ hnew h => yields_labelTest h hsubject (hlabels label hlabel) hnew)
      hnone hnodup hnew
  apply Yields.of_bind_ok hrun
  have htests : tests ≠ [] := by
    rintro rfl
    exact hne (List.map_eq_nil_iff.mp hterms.symm)
  obtain ⟨first, rest, rfl⟩ := List.exists_cons_of_ne_nil htests
  unfold groupTerm
  rw [List.map_map]
  have hsame : labels.map (labelTerm subject.term ∘ Tree.term) =
      (first :: rest).map Tree.term := hterms.symm
  rw [hsame]
  exact hdraft.yields_join .conditionalOr

def Group.taken (group : Group Tree) : List NodeId :=
  (group.items.flatMap Tree.subs).flatMap Tree.ids ++ group.stmts.flatMap Tree.ids

/-- A group that the rule can take apart: its trees are live and stand beside each other. -/
structure Group.Ready (base : Store) (group : Group Tree) : Prop where
  labels : ∀ label, label ∈ group.items.flatMap Tree.subs → label.Live base
  stmts : ∀ stmt, stmt ∈ group.stmts → stmt.Live base
  nodup : group.taken.Nodup

/-- What a conditional for a group needs so that its test has a label. -/
def Group.Testable (group : Group Tree) (isLast : Bool) : Prop :=
  (isLast = true ∧ group.ids.hasDefault = true) ∨ group.items.flatMap Tree.subs ≠ []

theorem groupTest_nil (subject : NodeId) (store : Store) :
    groupTest subject [] store = .error .noOperands := rfl

/-- The conditional for a group whose statements are taken already. -/
theorem run_conditional {labels stmts : List Tree} {rest : Option Tree}
    (h : Draft base region store (stmts ++ (rest.toList ++ trees))) (hsubject : subject.Live base)
    (hne : labels ≠ []) (hlabels : ∀ label, label ∈ labels → label.Live base)
    (hnodup : (labels.flatMap Tree.ids).Nodup)
    (hnew : List.Disjoint (labels.flatMap Tree.ids) region) :
    ∃ later new, (do
        let cond ← groupTest subject.id (labels.map Tree.id)
        let thenBranch ← Build.block (stmts.map Tree.id)
        return some (← Build.ifStmt cond thenBranch (rest.map Tree.id)) : Build (Option NodeId))
          store = .ok (some (Tree.id new), later) ∧
      Draft base (labels.flatMap Tree.ids ++ region) later (new :: trees) ∧
      new.term = .ifStmt (groupTerm subject.term (labels.map Tree.term))
        (.block (stmts.map Tree.term)) (rest.map Tree.term) := by
  obtain ⟨tested, cond, hcond, htested, hcondTerm⟩ :=
    yields_groupTest h hsubject hne hlabels hnodup hnew
  have hfront := htested.perm (@List.perm_middle _ cond stmts (rest.toList ++ trees)).symm
  obtain ⟨blocked, body, hbody, hblocked, hbodyTerm⟩ := hfront.yields_block
  have hswap := hblocked.perm (List.Perm.swap cond body (rest.toList ++ trees))
  obtain ⟨later, new, hif, hlater, hterm⟩ := @Draft.yields_ifStmt _ _ _ trees cond body rest hswap
  refine ⟨later, new, ?_, hlater, ?_⟩
  · rw [Build.bind_ok hcond, Build.bind_ok hbody, Build.bind_ok hif]
    rfl
  · rw [hterm, hcondTerm, hbodyTerm]

/-- The same for the labels and statements of a group, which may have no label to test. -/
theorem run_tested {group : Group Tree} {rest : Option Tree}
    (h : Draft base (group.stmts.flatMap Tree.ids ++ region) store
      (group.stmts ++ (rest.toList ++ trees)))
    (hsubject : subject.Live base) (hready : group.Ready base)
    (hnew : List.Disjoint group.taken region) {run : Build (Option NodeId)}
    (hrun : run = do
      let cond ← groupTest subject.id group.ids.labels
      let thenBranch ← Build.block (group.stmts.map Tree.id)
      return some (← Build.ifStmt cond thenBranch (rest.map Tree.id))) :
    (group.items.flatMap Tree.subs = [] ∧ run store = .error .noOperands) ∨
    ∃ later new, run store = .ok (some (Tree.id new), later) ∧
      Draft base (group.taken ++ region) later (new :: trees) ∧
      new.term = .ifStmt (groupTerm subject.term (group.map Tree.term).labels)
        (.block (group.stmts.map Tree.term)) (rest.map Tree.term) := by
  obtain ⟨hlabelsNodup, -, hapart⟩ := List.nodup_append'.mp hready.nodup
  have hnewLabels := List.disjoint_of_disjoint_append_left_left hnew
  by_cases hne : group.items.flatMap Tree.subs = []
  · have hlabels : group.ids.labels = [] := by simp [Group.ids, hne]
    rw [hlabels] at hrun
    rw [hrun]
    exact .inl ⟨hne, Build.bind_error (groupTest_nil ..)⟩
  · obtain ⟨later, new, hconditional, hlater, hterm⟩ := run_conditional h hsubject hne
      hready.labels hlabelsNodup (List.disjoint_append_right.mpr ⟨hapart, hnewLabels⟩)
    rw [hrun]
    refine .inr ⟨later, new, hconditional, ?_, ?_⟩
    · rwa [Group.taken, List.append_assoc]
    · rw [hterm, Group.term_labels]

/-- The statement for a group: none, a block, or a conditional. -/
theorem run_groupStatement {group : Group Tree} {rest : Option Tree}
    (h : Draft base region store (rest.toList ++ trees)) (hsubject : subject.Live base)
    (hready : group.Ready base) (hnew : List.Disjoint group.taken region) :
    (¬ group.Testable rest.isNone ∧
      groupStatement subject.id group.ids (rest.map Tree.id) store = .error .noOperands) ∨
    ∃ later new, groupStatement subject.id group.ids (rest.map Tree.id) store =
        .ok (Option.map Tree.id new, later) ∧
      Draft base (group.taken ++ region) later (new.toList ++ trees) ∧
      new.map Tree.term =
        statementTerm subject.term (group.map Tree.term) (rest.map Tree.term) := by
  obtain ⟨-, hstmtsNodup, -⟩ := List.nodup_append'.mp hready.nodup
  obtain ⟨taken, htake, htaken⟩ := h.take_all hready.stmts hstmtsNodup
    (List.disjoint_of_disjoint_append_left_right hnew)
  have hnodes : (group.stmts.map (fun stmt => Child.moved stmt.id)).map Child.node =
      group.stmts.map Tree.id := by
    rw [List.map_map]
    rfl
  have hbegin : groupStatement subject.id group.ids (rest.map Tree.id) store = _ :=
    Build.bind_ok htake
  have hregion : group.stmts.flatMap Tree.ids ++ region ⊆ group.taken ++ region := by
    unfold Group.taken
    intro id hid
    simp only [List.mem_append] at hid ⊢
    tauto
  rw [hnodes] at hbegin
  cases rest with
  | none =>
      by_cases hempty : group.stmts = []
      · refine .inr ⟨taken, none, ?_, ?_, ?_⟩
        · rw [hbegin]
          dsimp only [Option.map_none]
          rw [if_pos (by simp [hempty])]
          rfl
        · rw [hempty] at htaken
          exact htaken.widen (fun id hid => List.mem_append_right _ hid)
        · simp [statementTerm, Group.map, hempty]
      · have hfull : (group.stmts.map Tree.id).isEmpty = false := by simp [hempty]
        have hfullTerm : (group.map Tree.term).stmts.isEmpty = false := by
          simp [Group.map, hempty]
        by_cases hdefault : group.ids.hasDefault = true
        · obtain ⟨later, new, hnew, hlater, hterm⟩ := htaken.yields_block
          refine .inr ⟨later, some new, ?_, hlater.widen hregion, ?_⟩
          · rw [hbegin]
            dsimp only [Option.map_none]
            rw [hfull, if_neg (by simp), if_pos hdefault]
            exact (Build.bind_ok hnew).trans rfl
          · rw [Group.hasDefault_ids] at hdefault
            simp only [Option.map_some, hterm, statementTerm, hdefault, hfullTerm]
            rfl
        · dsimp only [Option.map_none] at hbegin
          rw [hfull, if_neg (by simp), if_neg hdefault] at hbegin
          rcases @run_tested _ _ _ _ _ _ none htaken hsubject hready hnew _ rfl with
            ⟨hnone, hfault⟩ | ⟨later, new, hrun, hlater, hterm⟩
          · exact .inl ⟨by simp [Group.Testable, hdefault, hnone], hbegin.trans hfault⟩
          · refine .inr ⟨later, some new, hbegin.trans hrun, hlater, ?_⟩
            rw [Group.hasDefault_ids] at hdefault
            simp only [Option.map_some, hterm, statementTerm, hdefault, hfullTerm]
            rfl
  | some elseBranch =>
      rcases @run_tested _ _ _ _ _ _ (some elseBranch) htaken hsubject hready hnew _ rfl with
        ⟨hnone, hfault⟩ | ⟨later, new, hrun, hlater, hterm⟩
      · exact .inl ⟨by simp [Group.Testable, hnone], hbegin.trans hfault⟩
      · refine .inr ⟨later, some new, hbegin.trans hrun, hlater, ?_⟩
        simp only [Option.map_some, hterm, statementTerm]
        rfl

def AllTestable (groups : List (Group Tree)) : Prop :=
  ∀ before group after, groups = before ++ group :: after → group.Testable after.isEmpty

theorem run_conditionals {groups : List (Group Tree)} (h : Draft base region store trees)
    (hsubject : subject.Live base) (hready : ∀ group, group ∈ groups → group.Ready base)
    (hnodup : (groups.flatMap Group.taken).Nodup)
    (hnew : List.Disjoint (groups.flatMap Group.taken) region) :
    (¬ AllTestable groups ∧
      conditional subject.id (groups.map Group.ids) store = .error .noOperands) ∨
    ∃ later new, conditional subject.id (groups.map Group.ids) store =
        .ok (Option.map Tree.id new, later) ∧
      Draft base (groups.flatMap Group.taken ++ region) later (new.toList ++ trees) ∧
      new.map Tree.term =
        conditionalTerm subject.term (groups.map (Group.map Tree.term)) := by
  induction groups with
  | nil => exact .inr ⟨store, none, rfl, h, rfl⟩
  | cons group groups ih =>
      obtain ⟨hgroupNodup, hrestNodup, hapart⟩ := List.nodup_append'.mp hnodup
      have hnewGroup := List.disjoint_of_disjoint_append_left_left hnew
      have hnewRest := List.disjoint_of_disjoint_append_left_right hnew
      unfold conditional at ih ⊢
      rw [List.map_cons, List.foldrM_cons]
      rcases ih (fun other hother => hready other (List.mem_cons_of_mem _ hother)) hrestNodup
        hnewRest with ⟨hnot, hfault⟩ | ⟨middle, rest, hrest, hmiddle, hterm⟩
      · refine .inl ⟨fun htest => hnot ?_, Build.bind_error hfault⟩
        exact fun before other after heq => htest (group :: before) other after (by rw [heq]; rfl)
      rw [Build.bind_ok hrest]
      rcases run_groupStatement hmiddle hsubject (hready group (List.mem_cons_self ..))
        (List.disjoint_append_right.mpr ⟨hapart, hnewGroup⟩) with
        ⟨hnot, hfault⟩ | ⟨later, new, hrun, hlater, hnewTerm⟩
      · refine .inl ⟨fun htest => hnot ?_, hfault⟩
        rcases htest [] group groups rfl with ⟨hempty, hdefault⟩ | hlabels
        · have hnil : groups = [] := List.isEmpty_iff.mp hempty
          have hnone : rest = none := by
            rw [hnil] at hterm
            exact Option.map_eq_none_iff.mp hterm
          exact .inl ⟨by rw [hnone]; rfl, hdefault⟩
        · exact .inr hlabels
      · refine .inr ⟨later, new, hrun, ?_, ?_⟩
        · rwa [List.flatMap_cons, List.append_assoc]
        · rw [hnewTerm, hterm]
          rfl

theorem Group.map_body (group : Group Tree) :
    group.body.map Tree.term = (group.map Tree.term).body :=
  List.map_append

theorem Plan.rewrite {type : Option TypeDesc} {body : List Tree} {ordered : List (Group Tree)}
    {subject : Term} {fresh : Option Term} (h : Plan body ordered)
    (hpassive : subject.isPassive = true)
    (hfresh : Becomes (conditionalTerm subject (ordered.map (Group.map Tree.term))) fresh) :
    Rewrite (.node .switchStmt type (subject :: body.map Tree.term)) fresh := by
  cases h with
  | one hsplit hclosed =>
      rw [List.map_singleton, Group.map_closed] at hfresh
      rw [Group.map_body]
      exact .one hpassive hsplit hclosed hfresh
  | @two first second hsplit hsplit' hclosed hclosed' hjump hapart =>
      rw [List.map_append, Group.map_body, Group.map_body]
      refine .two hpassive hsplit hsplit' hclosed hclosed' hjump hapart ?_
      have horder : (if first.ids.hasDefault then [second.closed, first.closed]
            else [first.closed, second.closed]).map (Group.map Tree.term) =
          inOrder (first.map Tree.term).close (second.map Tree.term).close := by
        rw [apply_ite (List.map (Group.map Tree.term)), Group.hasDefault_ids]
        simp only [List.map_cons, List.map_nil, Group.map_closed]
        rfl
      rwa [horder] at hfresh

/-- A group of a body has a label to test, unless it has the default label. -/
theorem Group.labels_ne_nil {group : Group Tree} (hsplit : (group.map Tree.term).IsSplit)
    (hdefault : group.ids.hasDefault = false) : group.items.flatMap Tree.subs ≠ [] := by
  have hne : group.items ≠ [] := by simpa [Group.map] using hsplit.nonempty
  obtain ⟨item, items, hitems⟩ := List.exists_cons_of_ne_nil hne
  intro hnil
  have hitem : item.subs = [] :=
    List.flatMap_eq_nil_iff.mp hnil item (by rw [hitems]; exact List.mem_cons_self ..)
  simp [Group.ids, hitems, hitem] at hdefault

theorem Group.countP_pos {group : Group Tree} (hsplit : (group.map Tree.term).IsSplit)
    (hdefault : group.ids.hasDefault = true) :
    0 < group.body.countP (fun item => item.head == .caseLabel && item.subs.isEmpty) := by
  obtain ⟨item, hitem, hempty⟩ := List.any_eq_true.mp hdefault
  refine List.countP_pos_iff.mpr ⟨item, List.mem_append_left _ hitem, ?_⟩
  have hhead := hsplit.items item.term (List.mem_map_of_mem hitem)
  rw [Tree.head_term] at hhead
  simp [hhead, hempty]

theorem Group.testable_closed {group : Group Tree} {isLast : Bool}
    (hsplit : (group.map Tree.term).IsSplit)
    (hlast : group.ids.hasDefault = true → isLast = true) : group.closed.Testable isLast := by
  by_cases hdefault : group.ids.hasDefault = true
  · exact .inl ⟨hlast hdefault, hdefault⟩
  · have hlabels : group.items.flatMap Tree.subs ≠ [] :=
      labels_ne_nil hsplit (by simpa using hdefault)
    exact .inr hlabels

theorem allTestable_singleton {group : Group Tree} (h : group.Testable true) :
    AllTestable [group] := by
  intro before found after heq
  obtain ⟨rfl, rfl, rfl⟩ : before = [] ∧ found = group ∧ after = [] := by
    simpa [List.singleton_eq_append_iff] using heq
  exact h

theorem allTestable_pair {first second : Group Tree} (h : first.Testable false)
    (h' : second.Testable true) : AllTestable [first, second] := by
  intro before found after heq
  cases before with
  | nil =>
      obtain ⟨rfl, rfl⟩ := List.cons.inj heq
      exact h
  | cons other before =>
      exact allTestable_singleton h' before found after (List.cons.inj heq).2

theorem Plan.allTestable {body : List Tree} {ordered : List (Group Tree)} (h : Plan body ordered)
    (hdefaults : body.countP (fun item => item.head == .caseLabel && item.subs.isEmpty) ≤ 1) :
    AllTestable ordered := by
  cases h with
  | one hsplit hclosed => exact allTestable_singleton (Group.testable_closed hsplit fun _ => rfl)
  | @two first second hsplit hsplit' hclosed hclosed' hjump hapart =>
      rw [List.countP_append] at hdefaults
      by_cases hfirst : first.ids.hasDefault = true
      · have hsecond : second.ids.hasDefault ≠ true := by
          intro hsecond
          have := Group.countP_pos hsplit hfirst
          have := Group.countP_pos hsplit' hsecond
          omega
        rw [if_pos hfirst]
        exact allTestable_pair (Group.testable_closed hsplit' fun h => absurd h hsecond)
          (Group.testable_closed hsplit fun _ => rfl)
      · rw [if_neg hfirst]
        exact allTestable_pair (Group.testable_closed hsplit fun h => absurd h hfirst)
          (Group.testable_closed hsplit' fun _ => rfl)

theorem Group.taken_closed_sublist (group : Group Tree) :
    group.closed.taken.Sublist (group.body.flatMap Tree.ids) := by
  unfold taken body
  rw [List.flatMap_append, List.flatMap_assoc, closed_items]
  refine List.Sublist.append (List.Sublist.flatMap_right _ ?_)
    (group.closed_stmts_sublist.flatMap Tree.ids)
  intro item _
  rw [Tree.ids_eq]
  exact List.sublist_cons_self ..

theorem Group.ready_closed {group : Group Tree}
    (hlive : ∀ item, item ∈ group.body → item.Live base)
    (hnodup : (group.body.flatMap Tree.ids).Nodup) : group.closed.Ready base where
  labels := by
    intro label hlabel
    obtain ⟨item, hitem, hsub⟩ := List.mem_flatMap.mp hlabel
    exact (hlive item (List.mem_append_left _ hitem)).sub hsub
  stmts := fun stmt hstmt =>
    hlive stmt (List.mem_append_right _ (group.closed_stmts_sublist.subset hstmt))
  nodup := hnodup.sublist group.taken_closed_sublist

theorem Plan.ready {body : List Tree} {ordered : List (Group Tree)} (h : Plan body ordered)
    (hlive : ∀ item, item ∈ body → item.Live base) (hnodup : (body.flatMap Tree.ids).Nodup) :
    (∀ group, group ∈ ordered → group.Ready base) ∧
      (ordered.flatMap Group.taken).Nodup ∧
      ordered.flatMap Group.taken ⊆ body.flatMap Tree.ids := by
  cases h with
  | @one group hsplit hclosed =>
      have hsub := group.taken_closed_sublist
      refine ⟨?_, ?_, ?_⟩
      · simpa using Group.ready_closed hlive hnodup
      · simpa using hnodup.sublist hsub
      · simpa using hsub.subset
  | @two first second hsplit hsplit' hclosed hclosed' hjump hapart =>
      have hperm : (if first.ids.hasDefault then [second.closed, first.closed]
          else [first.closed, second.closed]).Perm [first.closed, second.closed] := by
        split
        · exact List.Perm.swap ..
        · exact List.Perm.refl _
      have hsub : ([first.closed, second.closed].flatMap Group.taken).Sublist
          ((first.body ++ second.body).flatMap Tree.ids) := by
        rw [List.flatMap_append]
        simpa using first.taken_closed_sublist.append second.taken_closed_sublist
      have htaken := hperm.flatMap_right Group.taken
      rw [List.flatMap_append] at hnodup
      refine ⟨?_, ?_, ?_⟩
      · intro group hgroup
        have hmem : group = first.closed ∨ group = second.closed := by
          simpa using hperm.subset hgroup
        rcases hmem with rfl | rfl
        · exact Group.ready_closed (fun item hitem => hlive item (List.mem_append_left _ hitem))
            hnodup.of_append_left
        · exact Group.ready_closed (fun item hitem => hlive item (List.mem_append_right _ hitem))
            hnodup.of_append_right
      · rw [← List.flatMap_append] at hnodup
        exact htaken.nodup_iff.mpr (hnodup.sublist hsub)
      · exact List.Subset.trans htaken.subset hsub.subset

/-- What the rule does at a switch, if it does not decline: it has no label for a test, or it
drafts the conditional for the groups, or nothing. -/
theorem responds (hidle : base.moves = []) (htyped : base.TypesKnown) (hlegible : old.Legible base)
    (hlive : ∀ sub, sub ∈ old.subs → sub.Live base) (hnodup : old.ids.Nodup) :
    respond options old.id base = .ok (.decline, base) ∨
      ∃ type subject body ordered,
        old.term = .node .switchStmt type (Tree.term subject :: body.map Tree.term) ∧
        old.subs = subject :: body ∧ subject.term.isPassive = true ∧ Plan body ordered ∧
        ((¬ AllTestable ordered ∧ respond options old.id base = .error .noOperands) ∨
          ∃ region drafted, region ⊆ old.subs.flatMap Tree.ids ∧
          ((∃ new, conditionalTerm subject.term (ordered.map (Group.map Tree.term)) =
              some new.term ∧ Draft base region drafted [new] ∧
              respond options old.id base =
                .ok (.edit [⟨old.id, .replace (.fresh new.id)⟩], drafted)) ∨
            conditionalTerm subject.term (ordered.map (Group.map Tree.term)) = none ∧
              Draft base region drafted [] ∧
              respond options old.id base =
                (Build.dropStatement old.id >>= fun edit => pure (.edit [edit])) drafted)) := by
  have hstart : Draft base [] base [] := .start hidle htyped
  have hbegin : respond options old.id base = _ := Build.bind_ok (Build.run_kindOf hlegible.lt)
  cases hkind : base.kind old.id with
  | switchStmt subject body =>
      obtain ⟨subs, hform, hids⟩ := hlegible.of_kind hkind
      obtain ⟨subject, body, rfl, rfl, rfl⟩ := List.map_eq_cons_iff.mp hids
      have hsubs : old.subs = subject :: body := by rw [hform]; rfl
      have hterm : old.term = .node .switchStmt old.type (subject.term :: body.map Tree.term) := by
        rw [hform]
        simp [Kind.head]
      have hsubject : subject.Live base := hlive subject (by rw [hsubs]; simp)
      have hbody : ∀ item, item ∈ body → item.Live base := fun item hitem =>
        hlive item (by rw [hsubs]; exact List.mem_cons_of_mem _ hitem)
      have hbodyNodup : (body.flatMap Tree.ids).Nodup := by
        rw [Tree.ids_eq, hsubs, List.flatMap_cons] at hnodup
        exact (List.nodup_cons.mp hnodup).2.of_append_right
      rw [hkind] at hbegin
      have hread := hbegin.trans (Build.bind_ok (Build.run_get base))
      cases hplan : plan? base subject.id (body.map Tree.id) with
      | none =>
          rw [hplan] at hread
          exact .inl hread
      | some groups =>
          rw [hplan] at hread
          have hpassive : subject.term.isPassive = true := by
            rw [← hsubject.legible.isPassive]
            by_contra hnot
            rw [plan?, if_neg hnot] at hplan
            cases hplan
          rw [plan?, hsubject.legible.isPassive, if_pos hpassive] at hplan
          obtain ⟨ordered, rfl, hordered⟩ :=
            exists_plan (fun item hitem => (hbody item hitem).legible) hplan
          obtain ⟨hready, htakenNodup, hinside⟩ := hordered.ready hbody hbodyNodup
          refine .inr ⟨old.type, subject, body, ordered, hterm, hsubs, hpassive, hordered, ?_⟩
          rcases run_conditionals hstart hsubject hready htakenNodup
            (List.disjoint_nil_right _) with ⟨hnot, hfault⟩ | ⟨drafted, new, hrun, hdraft, hnew⟩
          · exact .inl ⟨hnot, hread.trans (Build.bind_error hfault)⟩
          rw [List.append_nil, List.append_nil] at hdraft
          refine .inr ⟨ordered.flatMap Group.taken, drafted, ?_, ?_⟩
          · rw [hsubs, List.flatMap_cons]
            exact List.Subset.trans hinside (List.subset_append_right ..)
          · cases new with
            | some new =>
                refine .inl ⟨new, hnew.symm, hdraft, ?_⟩
                rw [hread]
                exact (Build.bind_ok hrun).trans rfl
            | none =>
                refine .inr ⟨hnew.symm, hdraft, ?_⟩
                rw [hread]
                exact Build.bind_ok hrun
  | _ =>
      rw [hkind] at hbegin
      exact .inl hbegin

theorem answers (hbase : base.Holds tree) (hold : old ∈ tree.subtrees) (hne : old ≠ tree)
    (hdefaults : old.head = .switchStmt →
      old.subs.countP (fun item => item.head == .caseLabel && item.subs.isEmpty) ≤ 1) :
    Answers (respond options old.id) base tree old.id
      (tree.RewrittenBy Rewrite old.term) := by
  have hlive := hbase.live hold hne
  rcases @responds _ _ options hbase.idle hbase.typed (Tree.Legible.of_holds hbase hold)
      (fun sub hsub => hlive.sub hsub) hlive.nodup with
    hdecline | ⟨type, subject, body, ordered, hterm, hsubs, hpassive, hordered, hresult⟩
  · exact .inl hdecline
  have hhead : old.head = .switchStmt := by rw [← Tree.head_term, hterm]; rfl
  have hcount : body.countP (fun item => item.head == .caseLabel && item.subs.isEmpty) ≤ 1 := by
    have hall := hdefaults hhead
    rw [hsubs] at hall
    exact Nat.le_trans ((List.sublist_cons_self subject body).countP_le) hall
  rcases hresult with ⟨hnot, -⟩ |
    ⟨region, drafted, hregion, ⟨new, hnew, hdraft, hrun⟩ | ⟨hnone, hdraft, hrun⟩⟩
  · exact absurd (hordered.allTestable hcount) hnot
  · refine hdraft.answers_replace hbase hold hne hregion rfl hrun ?_ ?_
    · rw [hterm]
      refine hordered.rewrite hpassive ?_
      rw [hnew]
      rfl
    · rw [hhead]
      intro hexpr
      cases hexpr
  · refine hdraft.answers_drop hbase hold hne hrun ?_
    intro fresh hfresh
    rw [hterm]
    refine hordered.rewrite hpassive ?_
    rw [hnone]
    exact hfresh

end TwoWaySwitch

end CodeTidy
