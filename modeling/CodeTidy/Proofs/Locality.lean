import CodeTidy.Proofs.Retyping
import CodeTidy.Proofs.Run

/-!
# Commits are local

A commit at a node changes the subtree of that node and the slot in which it stands.
Nothing else in the store is touched, with one exception: a table that becomes a map takes
the uses of its local along, which stand in later statements.
-/

namespace CodeTidy

/-! ## Uses in later statements -/

/-- A name of one of the locals, or a local of the table's type that such a name initializes. -/
inductive LocalTable.IsUse (store : Store) (locals : BindingId → Prop) : NodeId → Prop where
  | name {id : NodeId} (named : store.Names locals id) : IsUse store locals id
  | synonym {id source : NodeId} {text : String} {binding : BindingId}
      (table : isTable store id = true)
      (kind : store.kind id = .varDecl text (some binding) (some source))
      (named : store.Names locals source) : IsUse store locals id

/-- A use of the table of the local `decl`, or of a synonym for it, in a statement after `decl` in
the same statement list. -/
def LocalTable.LaterUse (store : Store) (decl use : NodeId) : Prop :=
  ∃ text binding init holder before after,
    store.kind decl = .varDecl text (some binding) (some init) ∧
    store.parent decl = some holder ∧
    (store.kind holder).statementList? = some (before ++ decl :: after) ∧
    use ∈ after.flatMap store.preorder ∧
    IsUse store (Reaches store (after.flatMap store.preorder) binding) use

namespace LocalTable

variable {store : Store} {within : List NodeId} {binding : BindingId} {id : NodeId}
  {tracking next final : Tracking} {tree holder old : Tree} {before after : List Tree}

/-- The statements after a local are the end of the list that it stands in. -/
theorem split_of_laterStatements? {decl : NodeId} {stmts : List NodeId}
    (h : laterStatements? store decl = some stmts) :
    ∃ holder before, store.parent decl = some holder ∧
      (store.kind holder).statementList? = some (before ++ decl :: stmts) := by
  unfold laterStatements? at h
  split at h
  · next list heq =>
      obtain ⟨holder, hholder, hlist⟩ := Option.map_eq_some_iff.mp heq
      split at h
      · next hmem =>
          cases h
          obtain ⟨before, rest, rfl, hout⟩ := List.eq_append_cons_of_mem hmem
          rw [drop_dropWhile_split hout]
          exact ⟨holder, before, hholder, hlist⟩
      · cases h
  · cases h

/-- Only locals that hold the table are followed, and only their names are uses. -/
structure Followed (store : Store) (within : List NodeId) (binding : BindingId)
    (tracking : Tracking) : Prop where
  locals : ∀ held, held ∈ tracking.locals → Reaches store within binding held
  uses : ∀ use, use ∈ tracking.uses → store.Names (Reaches store within binding) use.source

/-- A visit of a node keeps to the locals that hold the table, if the local that the node may
initialize is among the nodes that are looked at. -/
theorem Followed.visit (h : Followed store within binding tracking)
    (hdecl : ∀ use, use? store id = some use →
      (∃ text binding, store.kind id = .name text binding) → use.edited ∈ within)
    (hvisit : tracking.visit store id = some next) : Followed store within binding next := by
  unfold Tracking.visit at hvisit
  split at hvisit
  · next hnamed =>
      obtain ⟨use, huse, rfl⟩ := Option.map_eq_some_iff.mp hvisit
      obtain ⟨label, held, hkind, hheld⟩ := Store.isNameOf_iff.mp hnamed
      have hnames : store.Names (Reaches store within binding) use.source := by
        rw [source_of_use? huse]
        exact ⟨label, held, hkind, h.locals held hheld⟩
      have huses : ∀ other, other ∈ tracking.uses ++ [use] →
          store.Names (Reaches store within binding) other.source := by
        intro other hother
        rcases List.mem_append.mp hother with hother | hother
        · exact h.uses other hother
        · rwa [List.mem_singleton.mp hother]
      have hin := hdecl use huse ⟨label, _, hkind⟩
      cases use with
      | receiver name => exact ⟨h.locals, huses⟩
      | synonym decl text other source =>
          obtain ⟨-, -, htable, hdeclared⟩ := of_synonym_use huse
          refine ⟨fun bound hbound => ?_, huses⟩
          rcases List.mem_cons.mp hbound with rfl | hbound
          · exact .synonym hin htable hdeclared hkind (h.locals held hheld)
          · exact h.locals bound hbound
  · cases hvisit
    exact h

/-- A walk keeps to the locals that hold the table. -/
theorem Followed.run {ids : List NodeId} (h : Followed store within binding tracking)
    (hdecl : ∀ id, id ∈ ids → ∀ use, use? store id = some use →
      (∃ text binding, store.kind id = .name text binding) → use.edited ∈ within)
    (hrun : ids.foldlM (Tracking.visit store) tracking = some final) :
    Followed store within binding final := by
  induction ids generalizing tracking with
  | nil =>
      cases hrun
      exact h
  | cons id rest ih =>
      rw [List.foldlM_cons] at hrun
      obtain ⟨next, hvisit, hrest⟩ := Option.bind_eq_some_iff.mp hrun
      exact ih (h.visit (hdecl id (List.mem_cons_self ..)) hvisit)
        (fun other hother => hdecl other (List.mem_cons_of_mem _ hother)) hrest

/-- What a use changes is a name of a local that holds the table, or a local that is initialized
by one. -/
theorem Followed.isUse {use : Use} (h : Followed store within binding final)
    (hmem : use ∈ final.uses) (huse : use? store use.source = some use) :
    IsUse store (Reaches store within binding) use.edited := by
  have hnames := h.uses use hmem
  cases use with
  | receiver name => exact .name hnames
  | synonym decl text other source =>
      obtain ⟨-, -, htable, hkind⟩ := of_synonym_use huse
      exact .synonym htable hkind hnames

/-- What is replaced together with a local is a use in a later statement. -/
theorem Replaces.laterUse {node : NodeId} (h : Replaces store old.id node)
    (hbase : store.Holds tree) (hold : old ∈ tree.subtrees) (hne : old ≠ tree) :
    LaterUse store old.id node := by
  obtain ⟨text, binding, init, uses, hkind, huses, hnode⟩ := h
  obtain ⟨use, huse, rfl⟩ := List.mem_map.mp hnode
  obtain ⟨holder, before, after, final, hlisted, hlater, hwalk, rfl⟩ :=
    exists_walk hbase.held hbase.nodup hold hne huses
  obtain ⟨owner, former, howner, hlist⟩ := split_of_laterStatements? hlater
  have hwithin := hlisted.preorder hbase.held hbase.nodup
  have hedited : ∀ id, id ∈ after.flatMap Tree.ids → ∀ use, use? store id = some use →
      (∃ text binding, store.kind id = .name text binding) →
      use.edited ∈ after.flatMap Tree.ids := by
    intro id hid use huse hname
    obtain ⟨stmt, hstmt, hin⟩ := List.mem_flatMap.mp hid
    obtain rfl : use.source = id := source_of_use? huse
    obtain ⟨found, hfound, hat⟩ :=
      exists_at hbase.held hbase.nodup hlisted hstmt huse hname hin
    rw [hat.edited]
    exact List.mem_flatMap.mpr ⟨stmt, hstmt, Tree.mem_ids_iff.mpr ⟨found, hfound, rfl⟩⟩
  have hfollowed : Followed store (after.flatMap Tree.ids) binding final := by
    refine Followed.run ⟨fun held hheld => ?_, by simp⟩ hedited hwalk
    rw [List.mem_singleton.mp hheld]
    exact .self
  obtain ⟨found, hfound, hsources, hfacts⟩ := of_visits hwalk
  rw [List.nil_append] at hfound
  have huseOf := hfacts use (hfound ▸ huse)
  have hsource : use.source ∈ after.flatMap Tree.ids :=
    hsources.subset (List.mem_map_of_mem (hfound ▸ huse))
  refine ⟨text, binding, init, owner, former, after.map Tree.id, hkind, howner, hlist, ?_, ?_⟩
  · rw [hwithin]
    exact hedited _ hsource use huseOf.1 huseOf.2
  · rw [hwithin]
    exact hfollowed.isUse huse huseOf.1

end LocalTable

/-! ## The commit -/

theorem Registry.declines_varDecl {rule : Rule Unit} {options : Options} {store : Store}
    {node : NodeId} {text : String} {binding : Option BindingId} {init : Option NodeId}
    (hrule : rule ∈ Registry.rules) (hname : rule.name ≠ LocalTable.ruleName)
    (hlt : node < store.size) (hkind : store.kind node = .varDecl text binding init) :
    rule.Declines options store node := by
  have hfound := hkind ▸ Build.run_kindOf hlt
  simp only [Registry.rules, List.mem_cons, List.not_mem_nil, or_false] at hrule
  rcases hrule with rfl | rfl | rfl | rfl | rfl | rfl | rfl
  any_goals exact runs_plain (Build.bind_ok hfound)
  exact absurd rfl hname

/-- A commit changes nothing outside the subtree of its target but the slot of the target, and
brings no erased node back.  The table rule also replaces the uses of a local in the statements
after it. -/
theorem Registry.commit_is_local {source : Source} {options : Options} {applied : Applied}
    {later : Store} (h : source.Proper)
    (hcommit : source.store.Commits options Registry.rules source.root applied later) :
    ∃ uses, (∀ use, use ∈ uses → applied.rule = LocalTable.ruleName ∧
        LocalTable.LaterUse source.store applied.target use ∧ later.isErased use = true) ∧
      source.store.KeepsOutside later (applied.target :: uses) ∧
      ∀ id, source.store.isErased id = true → later.isErased id = true := by
  obtain ⟨tree, hbase, hroot, horder, -⟩ := h.exists_tree
  have hselected : Selected Registry.rules := fun _ hrule => hrule
  rw [← hroot] at hcommit
  obtain ⟨_, heffect, -⟩ := hcommit.exists_effect hselected hselected.outcomes hbase horder
  obtain ⟨hreach, rule, hrule, hname, response, drafted, hedits, hrun, -⟩ := hcommit
  have hacts : Not (rule.Declines options source.store applied.target) :=
    fun hdeclines => hedits (congrArg Response.edits (hrun.unique hdeclines).1)
  rw [hbase.preorder_eq tree.mem_subtrees_self] at hreach
  obtain ⟨old, hold, htarget⟩ := Tree.mem_ids_iff.mp hreach
  rw [← htarget] at heffect hacts ⊢
  have hne : old ≠ tree := by
    rintro rfl
    exact hacts (declines_root hselected hbase horder hrule)
  obtain ⟨uses, huses, hkept⟩ := heffect.frame
  refine ⟨uses, fun use huse => ?_, hkept, heffect.ages.erased⟩
  obtain ⟨hreplaces, herased⟩ := huses use huse
  refine ⟨?_, hreplaces.laterUse hbase hold hne, herased⟩
  obtain ⟨text, binding, init, -, hkind, -, -⟩ := hreplaces
  by_contra hother
  exact hacts (Registry.declines_varDecl hrule (hname ▸ hother)
    (hbase.laid.lt (Tree.ids_subset_of_mem hold old.id_mem_ids)) hkind)

/-- A table, a synonym for it in the next statement, and a call of the synonym in the one
after that. -/
theorem Registry.commit_is_local_synonymous :
    ∃ later uses, LocalTable.synonymousTables.Commits {} Registry.rules 8
        ⟨1, LocalTable.ruleName, 2⟩ later ∧
      (∀ use, use ∈ uses → LocalTable.LaterUse LocalTable.synonymousTables 2 use ∧
        later.isErased use = true) ∧
      LocalTable.synonymousTables.KeepsOutside later (2 :: uses) := by
  obtain ⟨response, later, hmake, hne⟩ := @Build.exists_outcome LocalTable.synonymousTables _
    (do
      let response ← LocalTable.respond {} 2
      Build.commit response.edits
      return response)
    (fun outcome => !outcome.1.edits.isEmpty) (by decide +kernel)
  obtain ⟨answer, drafted, hrun, hrest⟩ := Build.exists_of_bind_ok hmake
  obtain ⟨_, final, hcommit, hpure⟩ := Build.exists_of_bind_ok hrest
  cases hpure
  have hcommits : LocalTable.synonymousTables.Commits {} Registry.rules 8
      ⟨1, LocalTable.ruleName, 2⟩ later :=
    ⟨by decide +kernel, LocalTable.rule, by simp [Registry.rules], rfl, response, drafted,
      by simpa using hne, runs_plain hrun, hcommit⟩
  obtain ⟨uses, huses, hkept, -⟩ :=
    @Registry.commit_is_local ⟨LocalTable.synonymousTables, 8⟩ _ _ _ (by decide +kernel) hcommits
  exact ⟨later, uses, hcommits, fun use huse => (huses use huse).2, hkept⟩

end CodeTidy
