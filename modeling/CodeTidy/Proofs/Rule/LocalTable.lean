import CodeTidy.Proofs.Effect
import CodeTidy.Rule.LocalTable
import Mathlib.Logic.Relation

/-!
# What the table rule does

A table that becomes a map is replaced together with the names that stand for it.  These
get another type and stay the names they are.
-/

namespace CodeTidy

namespace LocalTable

/-! ## Other types for names -/

/-- A name, or a local initialized by a name, gets the type of the map. -/
inductive Retype : Rewriting where
  | name {text : String} {binding : Option BindingId} {type : Option TypeDesc} :
      Retype (.node (.name text binding) type [])
        (some (.node (.name text binding) (some mapType) []))
  | synonym {text source : String} {binding binding' : Option BindingId}
      {type type' : Option TypeDesc} :
      Retype (.node (.varDecl text binding) type [.node (.name source binding') type' []])
        (some (.node (.varDecl text binding) (some mapType)
          [.node (.name source binding') (some mapType) []]))

def Retouch (a b : Term) : Prop :=
  ∃ old fresh, Retype old fresh ∧ Term.Swap old fresh a b

/-- A creation of a table becomes a creation of a map, and with it the local it
initializes. -/
inductive Rewrite : Rewriting where
  | creation {type : TypeDesc} {args : List Term} (htable : type.name = tableType) :
      Rewrite (.node .creation (some type) args)
        (some (.node .creation (some mapType) args))
  | initializer {text : String} {binding : Option BindingId} {type : Option TypeDesc}
      {made : TypeDesc} {args : List Term} (htable : made.name = tableType) :
      Rewrite (.node (.varDecl text binding) type [.node .creation (some made) args])
        (some (.node (.varDecl text binding) (some mapType)
          [.node .creation (some mapType) args]))

theorem Retype.strength_eq {old new : Term} (h : Retype old (some new)) :
    new.head.strength = Strength.primary := by
  cases h <;> rfl

theorem Rewrite.strength_eq {old new : Term} (h : Rewrite old (some new)) :
    new.head.strength = Strength.primary := by
  cases h <;> rfl

/-- Names are retyped, and then the table is replaced. -/
def Outcome (tree : Tree) (old : Term) (later : Tree) : Prop :=
  ∃ middle fresh, Relation.ReflTransGen Retouch tree.term middle ∧ Rewrite old fresh ∧
    Term.Swap old fresh middle later.term

/-! ## Several places at once -/

end LocalTable

namespace Tree

variable {tree old new kept : Tree} {gone : NodeId → Prop}

def putAll (pairs : List (Tree × Tree)) (tree : Tree) : Tree :=
  pairs.foldl (fun tree pair => tree.put pair.1.id (some pair.2)) tree

theorem nodup_put (hnodup : tree.ids.Nodup) (hroot : tree.id ≠ old.id) (hnew : new.ids.Nodup)
    (hapart : List.Disjoint tree.ids new.ids) : (tree.put old.id (some new)).ids.Nodup := by
  rw [← shown_nil, shown_put hroot (by simp)]
  have hshown : (tree.shown [old.id] ++ new.ids ++ []).Nodup := by
    rw [List.append_nil, List.nodup_append']
    exact ⟨hnodup.sublist (shown_sublist_ids ..), hnew,
      fun id hid => hapart (shown_subset_ids _ _ hid)⟩
  simpa using nodup_flatMap_putId hshown

theorem Around.trans_put {last : Tree} {inner : NodeId} (hnodup : tree.ids.Nodup)
    (hold : old ∈ tree.subtrees) (hinner : inner ∉ old.ids)
    (hheight : new.height ≤ old.height) (hgone : gone old.id)
    (hlater : (tree.put old.id (some new)).ids.Nodup)
    (h : Around gone inner (tree.put old.id (some new)) last) : Around gone inner tree last :=
  .trans hnodup hlater (around_put hnodup hold hinner hheight hgone) h

theorem Around.trans_beside {later last : Tree} {inner : NodeId} (htree : tree.ids.Nodup)
    (hlater : later.ids.Nodup) (h : Around gone inner tree later)
    (h' : Beside gone inner later last) : Beside gone inner tree last := by
  intro up hup hin
  have hne : up.id ≠ inner :=
    fun he => id_not_mem_slots (nodup_ids_of_mem htree hup) (he ▸ hin)
  have hinUp : inner ∈ up.ids := Tree.slots_subset_ids _ hin
  obtain ⟨up', hup', hid, hin', hslots⟩ := h up hup hinUp
  have hbelow : inner ∈ up'.subs.flatMap ids := by
    rw [ids_eq] at hin'
    exact (List.mem_cons.mp hin').resolve_left (fun he => hne (hid ▸ he.symm))
  obtain ⟨last', hlast', hlastId, hlastSlots⟩ := h' up' hup' hbelow
  refine ⟨last', hlast', hlastId.trans hid, ?_⟩
  intro child hchild hchildNe
  rcases hslots hne child hchild with hgone | ⟨child', hchild', hcid, hheight⟩
  · exact .inl hgone
  · have hiff := h.mem_child_iff htree hlater hup hinUp hne hup' hid hchild hchild' hcid
    rcases hlastSlots child' hchild' (hcid ▸ hchildNe) with ⟨hgone, hout⟩ |
      ⟨child'', hchild'', hcid', hheight'⟩
    · exact .inl ⟨hcid ▸ hgone, fun hmem => hout (hiff.mpr hmem)⟩
    · refine .inr ⟨child'', hchild'', hcid'.trans hcid, ?_⟩
      intro hout
      exact Nat.le_trans (hheight' (fun hmem => hout (hiff.mp hmem))) (hheight hout)

theorem mem_subtrees_put_of_disjoint {below : Tree} (hnodup : tree.ids.Nodup)
    (hold : old ∈ tree.subtrees) (hbelow : below ∈ tree.subtrees)
    (hapart : List.Disjoint old.ids below.ids) :
    below ∈ (tree.put old.id (some new)).subtrees := by
  have hout : below ∉ old.subtrees := fun hin =>
    hapart (ids_subset_of_mem hin below.id_mem_ids) below.id_mem_ids
  have hput := @mem_subtrees_put_of_not_mem _ _ _ (some new) hnodup hold hbelow hout
  rwa [put_eq_self (fun hin => hapart old.id_mem_ids hin)] at hput

structure Apart (tree kept : Tree) (pairs : List (Tree × Tree)) : Prop where
  nodup : tree.ids.Nodup
  stays : kept ∈ tree.subtrees
  old : ∀ pair, pair ∈ pairs → pair.1 ∈ tree.subtrees ∧ pair.1 ≠ tree ∧
    List.Disjoint pair.1.ids kept.ids
  olds : ((pairs.map Prod.fst).flatMap ids).Nodup
  news : ((pairs.map Prod.snd).flatMap ids).Nodup
  fresh : List.Disjoint tree.ids ((pairs.map Prod.snd).flatMap ids)

/-- After the first replacement the others still stand apart. -/
theorem Apart.step {pairs : List (Tree × Tree)} (h : tree.Apart kept ((old, new) :: pairs)) :
    (tree.put old.id (some new)).Apart kept pairs := by
  obtain ⟨hold, hne, hkept⟩ := h.old (old, new) (List.mem_cons_self ..)
  have hroot : tree.id ≠ old.id := id_ne_of_mem h.nodup hold hne
  obtain ⟨-, holds, hbeside⟩ := List.nodup_append'.mp h.olds
  obtain ⟨hnew, hnews, hnewBeside⟩ := List.nodup_append'.mp h.news
  have hfresh := List.disjoint_append_right.mp h.fresh
  constructor
  · exact nodup_put h.nodup hroot hnew hfresh.1
  · exact mem_subtrees_put_of_disjoint h.nodup hold h.stays hkept
  · intro pair hpair
    obtain ⟨hother, hotherNe, hotherKept⟩ := h.old pair (List.mem_cons_of_mem _ hpair)
    refine ⟨mem_subtrees_put_of_disjoint h.nodup hold hother ?_, ?_, hotherKept⟩
    · intro id hid hin
      exact hbeside hid (List.mem_flatMap.mpr ⟨pair.1, List.mem_map_of_mem hpair, hin⟩)
    · intro he
      exact id_ne_of_mem h.nodup hother hotherNe (by rw [he, id_put])
  · exact holds
  · exact hnews
  · intro id hid hin
    rcases mem_ids_of_put hid with hid | ⟨-, _, ⟨⟩, hid⟩
    · exact hfresh.2 hid hin
    · exact hnewBeside hid hin

/-- After all replacements the subtree apart from them is still there. -/
theorem Apart.last {pairs : List (Tree × Tree)} (h : tree.Apart kept pairs) :
    (tree.putAll pairs).Apart kept [] := by
  induction pairs generalizing tree with
  | nil => exact h
  | cons pair pairs ih => exact ih h.step

theorem around_putAll {pairs : List (Tree × Tree)} (h : tree.Apart kept pairs)
    (hheight : ∀ pair, pair ∈ pairs → pair.2.height ≤ pair.1.height)
    (hgone : ∀ pair, pair ∈ pairs → gone pair.1.id) :
    tree.Around gone kept.id (tree.putAll pairs) := by
  induction pairs generalizing tree with
  | nil => exact .refl tree
  | cons pair pairs ih =>
      obtain ⟨old, new⟩ := pair
      obtain ⟨hold, hne, hkept⟩ := h.old (old, new) (List.mem_cons_self ..)
      have haround := ih h.step
        (fun pair hpair => hheight pair (List.mem_cons_of_mem _ hpair))
        (fun pair hpair => hgone pair (List.mem_cons_of_mem _ hpair))
      exact .trans_put h.nodup hold (fun hin => hkept hin kept.id_mem_ids)
        (hheight (old, new) (List.mem_cons_self ..)) (hgone (old, new) (List.mem_cons_self ..))
        h.step.nodup haround

/-- Replacements by new trees leave every other node where it is. -/
theorem confined_putAll {pairs : List (Tree × Tree)} {bound : Nat} {inside : NodeId → Prop}
    (h : tree.Apart kept pairs)
    (hfresh : ∀ pair, pair ∈ pairs → ∀ id, id ∈ pair.2.ids → bound ≤ id) :
    tree.Confined bound inside (tree.putAll pairs) := by
  induction pairs generalizing tree with
  | nil => exact .refl bound tree
  | cons pair pairs ih =>
      obtain ⟨old, new⟩ := pair
      obtain ⟨hold, hne, -⟩ := h.old (old, new) (List.mem_cons_self ..)
      have hfirst : tree.Confined bound inside (tree.put old.id (some new)) := by
        refine confined_put_fresh h.nodup hold hne ?_
        rintro _ ⟨⟩
        exact hfresh (old, new) (List.mem_cons_self ..)
      exact hfirst.trans (ih h.step (fun pair hpair => hfresh pair (List.mem_cons_of_mem _ hpair)))
        (Nat.le_refl bound)

theorem id_putAll (pairs : List (Tree × Tree)) (tree : Tree) :
    (tree.putAll pairs).id = tree.id := by
  induction pairs generalizing tree with
  | nil => rfl
  | cons pair pairs ih => rw [putAll, List.foldl_cons, ← putAll, ih, id_put]

theorem putAll_put {pairs : List (Tree × Tree)} (tree : Tree)
    (hid : ∀ pair, pair ∈ pairs → old.id ≠ pair.1.id ∧ pair.1.id ∉ new.ids ∧
      old.id ∉ pair.2.ids) :
    (tree.put old.id (some new)).putAll pairs = (tree.putAll pairs).put old.id (some new) := by
  induction pairs generalizing tree with
  | nil => rfl
  | cons pair pairs ih =>
      obtain ⟨hne, hin, hout⟩ := hid pair (List.mem_cons_self ..)
      simp only [putAll, List.foldl_cons]
      rw [put_comm hne (by rintro _ ⟨⟩; exact hin) (by rintro _ ⟨⟩; exact hout)]
      exact ih _ (fun pair hpair => hid pair (List.mem_cons_of_mem _ hpair))

/-- A replacement of the subtree that stands apart may come first or last, if the new trees have
no other old nodes than those below it. -/
theorem Apart.putAll_cons {pairs : List (Tree × Tree)} {bound : Nat} (h : tree.Apart old pairs)
    (hlt : ∀ id, id ∈ tree.ids → id < bound)
    (hfresh : ∀ pair, pair ∈ pairs → ∀ id, id ∈ pair.2.ids → bound ≤ id)
    (hnew : ∀ id, id ∈ new.ids → bound ≤ id ∨ id ∈ old.subs.flatMap ids) :
    tree.putAll ((old, new) :: pairs) = (tree.putAll pairs).put old.id (some new) := by
  refine putAll_put tree fun pair hpair => ?_
  obtain ⟨hin, -, hdisjoint⟩ := h.old pair hpair
  refine ⟨fun he => hdisjoint pair.1.id_mem_ids (he ▸ old.id_mem_ids), ?_, ?_⟩
  · intro hmem
    rcases hnew _ hmem with hge | hbelow
    · exact Nat.not_lt.mpr hge (hlt _ (ids_subset_of_mem hin pair.1.id_mem_ids))
    · exact hdisjoint pair.1.id_mem_ids (slots_subset_ids _ hbelow)
  · intro hmem
    exact Nat.not_lt.mpr (hfresh pair hpair _ hmem)
      (hlt _ (ids_subset_of_mem h.stays old.id_mem_ids))

theorem retouch_putAll {pairs : List (Tree × Tree)} (h : tree.Apart kept pairs)
    (htouch : ∀ pair, pair ∈ pairs →
      LocalTable.Retype pair.1.term (some pair.2.term)) :
    Relation.ReflTransGen LocalTable.Retouch tree.term (tree.putAll pairs).term := by
  induction pairs generalizing tree with
  | nil => exact .refl
  | cons pair pairs ih =>
      obtain ⟨old, new⟩ := pair
      obtain ⟨hold, hne, -⟩ := h.old (old, new) (List.mem_cons_self ..)
      have hretype := htouch (old, new) (List.mem_cons_self ..)
      have hfirst : LocalTable.Retouch tree.term (tree.put old.id (some new)).term := by
        refine ⟨old.term, some new.term, hretype,
          @swap_put _ _ (some new) h.nodup hold hne (by simp) ?_⟩
        rintro - _ ⟨⟩
        exact suits_of_primary (new.head_term ▸ hretype.strength_eq)
      exact .head hfirst (ih h.step (fun pair hpair => htouch pair (List.mem_cons_of_mem _ hpair)))

end Tree

theorem Build.create_leaf {kind : Kind} (type : Option TypeId) (store : Store)
    (hleaf : kind.children = []) :
    Build.create kind type store =
      .ok (store.size,
        { store with nodes := store.nodes.push { kind := kind, type := type } }) := by
  unfold Build.create
  rw [hleaf]
  rfl

theorem Build.setType_push {node : Node} (store : Store) (type : TypeId) :
    Build.setType store.size type { store with nodes := store.nodes.push node } =
      .ok ((), { store with nodes := store.nodes.push { node with type := some type } }) := by
  unfold Build.setType
  rw [Build.bind_ok (Build.run_lookup (by simp [Store.size])), Build.run_modify]
  unfold Store.setType Store.modify
  congr 3
  ext1
  · simp
  · simp only [Store.size, Array.getElem_modify, Array.getElem_push]
    grind

namespace LocalTable

variable {base store : Store} {region : List NodeId} {tree old : Tree} {trees : List Tree}
  {map : TypeId}

/-- Copying a name with another type is creating a name of that type. -/
theorem run_retypedCopy {id : NodeId} {text : String} {binding : Option BindingId}
    (hlt : id < store.size) (hkind : store.kind id = .name text binding) :
    retypedCopy id map store = Build.create (.name text binding) (some map) store := by
  have hcopy : Build.deepCopy id store =
      Build.create (.name text binding) (store.node id).type store := by
    unfold Build.deepCopy Build.copySteps
    rw [Build.bind_ok (Build.run_get store), Build.bind_ok (Build.run_lookup hlt)]
    have hmap : (store.node id).kind.mapChildrenM (Build.copySteps store.size) store =
        .ok (.name text binding, store) := by
      rw [show (store.node id).kind = .name text binding from hkind]
      rfl
    rw [Build.bind_ok hmap]
  unfold retypedCopy
  rw [Build.create_leaf _ _ rfl] at hcopy
  rw [Build.bind_ok hcopy, Build.bind_ok (Build.setType_push store map),
    Build.create_leaf _ _ rfl]
  rfl

inductive Use.At : Use → Tree → Prop where
  | receiver {id : NodeId} {text : String} {binding : Option BindingId}
      {type : Option TypeDesc} : At (.receiver id) (.node id (.name text binding) type [])
  | synonym {decl source : NodeId} {text text' : String} {binding : BindingId}
      {binding' : Option BindingId} {type type' : Option TypeDesc} :
      At (.synonym decl text binding source)
        (.node decl (.varDecl text (some binding)) type
          [.node source (.name text' binding') type' []])

theorem Use.At.edited {use : Use} (h : use.At old) : use.edited = old.id := by
  cases h <;> rfl

theorem kind_name {id : NodeId} {text : String} {binding : Option BindingId}
    {type : Option TypeDesc}
    (h : (Tree.node id (.name text binding) type []).Legible store) :
    store.kind id = .name text binding := by
  have hhead := h.kind_head
  simp only [Tree.id_node, Tree.head_node] at hhead
  cases hk : store.kind id <;> rw [hk] at hhead <;> cases hhead
  rfl

theorem run_retypeUse {use : Use} (h : Draft base region store trees)
    (hmap : store.types.get? map = some mapType) (hat : use.At old) (hlive : old.Live base) :
    ∃ later new, retypeUse map use store =
        .ok (⟨old.id, .replace (.fresh (Tree.id new))⟩, later) ∧
      later.types = store.types ∧ Draft base region later (new :: trees) ∧
      Retype old.term (some new.term) ∧ new.height ≤ old.height ∧
      ∀ id, id ∈ new.ids → base.size ≤ id := by
  have hsize := h.grows.size
  cases hat with
  | @receiver id text binding type =>
      have hlegible := h.legible_live hlive
      obtain ⟨later, hcreate, htypes, -, hlater⟩ :=
        @Draft.create _ _ _ _ [] h (.name text binding) (some map) (some mapType) rfl
          (by simp [hmap])
      refine ⟨later, _, ?_, htypes, hlater, .name, by simp [Tree.height], ?_⟩
      · rw [← run_retypedCopy hlegible.lt (kind_name hlegible)] at hcreate
        exact (Build.bind_ok hcreate).trans rfl
      · simpa using hsize
  | @synonym decl source text text' binding binding' type type' =>
      have hlegible := (h.legible_live hlive).sub (List.mem_singleton_self _)
      obtain ⟨copied, hcopy, htypes, -, hcopied⟩ :=
        @Draft.create _ _ _ _ [] h (.name text' binding') (some map) (some mapType) rfl
          (by simp [hmap])
      obtain ⟨later, hcreate, htypes', -, hlater⟩ :=
        @Draft.create _ _ _ _ [_] hcopied (.varDecl text (some binding) (some store.size))
          (some map) (some mapType) rfl (by simp [htypes, hmap])
      refine ⟨later, _, ?_, by rw [htypes', htypes], hlater, .synonym, by simp [Tree.height], ?_⟩
      · rw [← run_retypedCopy hlegible.lt (kind_name hlegible)] at hcopy
        exact (Build.bind_ok hcopy).trans ((Build.bind_ok hcreate).trans rfl)
      · have hgrown := hcopied.grows.size
        simpa using ⟨hgrown, hsize⟩

theorem run_retypeUses {uses : List Use} {olds : List Tree} (h : Draft base region store trees)
    (hmap : store.types.get? map = some mapType) (hat : List.Forall₂ Use.At uses olds)
    (hlive : ∀ old, old ∈ olds → old.Live base) :
    ∃ later news, uses.mapM (retypeUse map) store =
        .ok ((olds.zip news).map (fun pair => Edit.mk pair.1.id (.replace (.fresh pair.2.id))),
          later) ∧
      Draft base region later (news ++ trees) ∧ olds.length = news.length ∧
      (∀ pair, pair ∈ olds.zip news → Retype pair.1.term (some pair.2.term) ∧
        pair.2.height ≤ pair.1.height ∧ ∀ id, id ∈ pair.2.ids → base.size ≤ id) := by
  induction hat generalizing store trees with
  | nil => exact ⟨store, [], rfl, h, rfl, by simp⟩
  | @cons use old uses olds hfirst hrest ih =>
      obtain ⟨middle, new, hrun, htypes, hmiddle, hnew⟩ :=
        run_retypeUse h hmap hfirst (hlive old (List.mem_cons_self ..))
      obtain ⟨later, news, hruns, hlater, hlength, hnews⟩ := ih hmiddle (by rw [htypes, hmap])
        (fun old hold => hlive old (List.mem_cons_of_mem _ hold))
      refine ⟨later, new :: news, ?_, hlater.perm List.perm_middle, by simp [hlength], ?_⟩
      · rw [List.mapM_cons, Build.bind_ok hrun, Build.bind_ok hruns]
        rfl
      · intro pair hpair
        rcases List.mem_cons.mp hpair with rfl | hpair
        · exact hnew
        · exact hnews pair hpair

/-! ## Creating the map -/

def KeepsTypes (store later : Store) : Prop :=
  ∀ number desc, store.types.get? number = some desc → later.types.get? number = some desc

theorem types_take {id : NodeId} {child : Child} {later : Store}
    (h : Build.take id store = .ok (child, later)) : later.types = store.types := by
  unfold Build.take at h
  rw [Build.bind_ok (Build.run_get store)] at h
  by_cases hmoving : store.isMoving id = true
  · rw [if_pos hmoving] at h
    cases h
  · rw [if_neg hmoving] at h
    cases h
    rfl

theorem types_takes {ids : List NodeId} {children : List Child} {later : Store}
    (h : ids.mapM Build.take store = .ok (children, later)) : later.types = store.types := by
  induction ids generalizing store children with
  | nil =>
      cases h
      rfl
  | cons id ids ih =>
      rw [List.mapM_cons] at h
      obtain ⟨child, middle, hfirst, h⟩ := Build.exists_of_bind_ok h
      obtain ⟨rest, last, hrest, h⟩ := Build.exists_of_bind_ok h
      cases h
      rw [ih hrest, types_take hfirst]

theorem run_mapCreation {made : Tree} (h : Draft base region store trees)
    (hlive : made.Live base) (hnew : List.Disjoint (made.subs.flatMap Tree.ids) region) :
    ∃ later new, mapCreation made.id store = .ok (Tree.id new, later) ∧
      Draft base (made.subs.flatMap Tree.ids ++ region) later (new :: trees) ∧
      new = .node new.id .creation (some mapType) made.subs ∧ KeepsTypes store later := by
  have hnodup : (made.subs.flatMap Tree.ids).Nodup := Tree.nodup_slots hlive.nodup
  obtain ⟨taken, htake, htaken⟩ := h.take_all (fun sub hsub => hlive.sub hsub) hnodup hnew
  have hchildren : store.children made.id = made.subs.map Tree.id :=
    (h.legible_live hlive).children
  obtain ⟨map, typed, hintern, hmap, htyped⟩ := htaken.intern mapType
  obtain ⟨later, hcreate, htypes, -, hlater⟩ :=
    @Draft.create _ _ _ _ made.subs htyped (.creation (made.subs.map Tree.id)) (some map)
      (some mapType) rfl (by simp [hmap])
  refine ⟨later, _, ?_, hlater, rfl, ?_⟩
  · unfold mapCreation
    rw [Build.bind_ok (Build.run_get store), hchildren, Build.bind_ok htake,
      Build.bind_ok hintern]
    have hnodes : (made.subs.map (fun part => Child.moved part.id)).map Child.node =
        made.subs.map Tree.id := by
      rw [List.map_map]
      rfl
    rw [hnodes]
    exact hcreate
  · intro number desc hget
    rw [htypes]
    cases hintern
    apply TypeTable.get?_intern_of_get?
    rwa [types_takes htake]

/-! ## Finding the uses -/

def Use.source : Use → NodeId
  | .receiver id => id
  | .synonym _ _ _ source => source

theorem of_use? {id : NodeId} {use : Use} (h : use? base id = some use) :
    use = .receiver id ∨ ∃ owner text binding, base.parent id = some owner ∧
      base.kind owner = .varDecl text (some binding) (some id) ∧
      use = .synonym owner text binding id := by
  unfold use? at h
  split at h
  · cases h
    exact .inl rfl
  · unfold synonym? at h
    split at h
    · next owner hparent =>
        split at h
        · next text binding init hkind =>
            split at h
            · next hinit =>
                cases h
                have hinit : init = some id := by simp_all
                exact .inr ⟨owner, text, binding, hparent, hinit ▸ hkind, rfl⟩
            · cases h
        · cases h
    · cases h

theorem source_of_use? {id : NodeId} {use : Use} (h : use? base id = some use) :
    use.source = id := by
  rcases of_use? h with rfl | ⟨_, _, _, _, _, rfl⟩ <;> rfl

/-- The uses that a walk finds are uses of names, each found once. -/
theorem of_visits {ids : List NodeId} {tracking final : Tracking}
    (h : ids.foldlM (Tracking.visit base) tracking = some final) :
    ∃ found : List Use, final.uses = tracking.uses ++ found ∧
      (found.map Use.source).Sublist ids ∧
      ∀ use, use ∈ found → use? base use.source = some use ∧
        ∃ text binding, base.kind use.source = .name text binding := by
  induction ids generalizing tracking with
  | nil =>
      cases h
      exact ⟨[], by simp, by simp, by simp⟩
  | cons id ids ih =>
      rw [List.foldlM_cons] at h
      obtain ⟨next, hnext, hrest⟩ := Option.bind_eq_some_iff.mp h
      obtain ⟨found, huses, hsub, hfound⟩ := ih hrest
      unfold Tracking.visit at hnext
      split at hnext
      · next hname =>
          obtain ⟨use, huse, rfl⟩ := Option.map_eq_some_iff.mp hnext
          have hsource := source_of_use? huse
          have hadd : (tracking.add use).uses = tracking.uses ++ [use] := by
            cases use <;> rfl
          refine ⟨use :: found, by rw [huses, hadd]; simp, ?_, ?_⟩
          · rw [List.map_cons, hsource]
            exact hsub.cons_cons id
          · intro other hother
            rcases List.mem_cons.mp hother with rfl | hother
            · rw [hsource]
              refine ⟨huse, ?_⟩
              unfold Store.isNameOf at hname
              split at hname
              · next text binding hkind => exact ⟨text, some binding, hkind⟩
              · cases hname
            · exact hfound other hother
      · cases hnext
        exact ⟨found, huses, hsub.cons id, hfound⟩

/-- A subtree stands in the statement list of a node, between the subtrees `before` and
`after`. -/
structure Listed (base : Store) (tree holder old : Tree) (before after : List Tree) : Prop where
  mem : holder ∈ tree.subtrees
  subs : holder.subs = before ++ old :: after
  list : (base.kind holder.id).statementList?.isSome = true

namespace Listed

variable {holder stmt : Tree} {before after : List Tree}

theorem slot (h : Listed base tree holder old before after) (hstmt : stmt ∈ after) :
    stmt ∈ holder.subs := by
  rw [h.subs]
  simp [hstmt]

theorem mem_subtrees (h : Listed base tree holder old before after) (hstmt : stmt ∈ after) :
    stmt ∈ tree.subtrees :=
  Tree.slot_mem_subtrees h.mem (h.slot hstmt)

theorem old_mem (h : Listed base tree holder old before after) : old ∈ holder.subs := by
  rw [h.subs]
  simp

theorem nodup_slots (h : Listed base tree holder old before after) (hnodup : tree.ids.Nodup) :
    (before.flatMap Tree.ids ++ (old.ids ++ after.flatMap Tree.ids)).Nodup := by
  have hslots := Tree.nodup_slots (Tree.nodup_ids_of_mem hnodup h.mem)
  rwa [h.subs, List.flatMap_append, List.flatMap_cons] at hslots

end Listed

theorem children_of_statementList? {kind : Kind} {list : List NodeId}
    (h : kind.statementList? = some list) : ∃ first, kind.children = first ++ list := by
  cases kind <;> cases h
  · exact ⟨[], rfl⟩
  · next subject => exact ⟨[subject], rfl⟩
  · exact ⟨[], rfl⟩

theorem exists_listed {holder : Tree} {owner : Option NodeId} {first before after : List NodeId}
    {id : NodeId} (hheld : tree.Held base owner) (hholder : holder ∈ tree.subtrees)
    (hlist : (base.kind holder.id).statementList? = some (before ++ id :: after))
    (hfirst : (base.kind holder.id).children = first ++ (before ++ id :: after)) :
    ∃ former item later, Listed base tree holder item former later ∧ item.id = id ∧
      former.map Tree.id = first ++ before ∧ later.map Tree.id = after := by
  obtain ⟨above, habove⟩ := hheld.of_mem hholder
  have hchildren : (base.kind holder.id).children = holder.subs.map Tree.id := by
    cases holder with
    | node i head type subs => exact habove.laid.shown_by.children
  rw [hfirst, ← List.append_assoc] at hchildren
  obtain ⟨former, others, hsubs, hformer, hothers⟩ := List.map_eq_append_iff.mp hchildren.symm
  obtain ⟨item, later, rfl, hid, hlater⟩ := List.map_eq_cons_iff.mp hothers
  exact ⟨former, item, later, ⟨hholder, hsubs, by rw [hlist]; rfl⟩, hid, hformer, hlater⟩

theorem drop_dropWhile_split {before after : List NodeId} {id : NodeId} (hout : id ∉ before) :
    ((before ++ id :: after).dropWhile (fun item => item != id)).drop 1 = after := by
  rw [List.dropWhile_append_of_pos (by
    intro item hitem
    simpa using fun he : item = id => hout (he ▸ hitem))]
  simp

/-- The statements after a local are subtrees in the slots after it. -/
theorem exists_later {stmts : List NodeId} {owner : Option NodeId} (hheld : tree.Held base owner)
    (hnodup : tree.ids.Nodup) (hold : old ∈ tree.subtrees) (hne : old ≠ tree)
    (h : laterStatements? base old.id = some stmts) :
    ∃ holder before after, Listed base tree holder old before after ∧
      stmts = after.map Tree.id := by
  obtain ⟨holder, hholder, hslot⟩ := Tree.exists_holder hold hne
  have hlink : base.parent old.id = some holder.id := (hheld.of_slot hholder hslot).link
  unfold laterStatements? at h
  rw [hlink, Option.map_some] at h
  split at h
  · next list heq =>
      have hlist : (base.kind holder.id).statementList? = some list := Option.some.inj heq
      obtain ⟨first, hfirst⟩ := children_of_statementList? hlist
      split at h
      · next hmem =>
          cases h
          obtain ⟨skipped, rest, rfl, hskipped⟩ := List.eq_append_cons_of_mem hmem
          rw [drop_dropWhile_split hskipped]
          obtain ⟨former, found, later, hlisted, hid, -, hlater⟩ :=
            exists_listed hheld hholder hlist hfirst
          have hfound : found = old := by
            refine Tree.eq_of_id_eq hnodup (Tree.slot_mem_subtrees hholder ?_) hold hid
            rw [hlisted.subs]
            simp
          exact ⟨holder, former, later, hfound ▸ hlisted, hlater.symm⟩
      · cases h
  · cases h

/-- The tree that a use in a later statement changes is part of that statement. -/
theorem exists_at {holder stmt : Tree} {before after : List Tree} {owner : Option NodeId}
    {use : Use} (hheld : tree.Held base owner) (hnodup : tree.ids.Nodup)
    (hlisted : Listed base tree holder old before after) (hstmt : stmt ∈ after)
    (huse : use? base use.source = some use)
    (hname : ∃ text binding, base.kind use.source = .name text binding)
    (hin : use.source ∈ stmt.ids) : ∃ found ∈ stmt.subtrees, use.At found := by
  obtain ⟨name, hnameIn, hid⟩ := Tree.mem_ids_iff.mp hin
  have hstmtIn := hlisted.mem_subtrees hstmt
  have hlegible := Tree.Legible.of_held hheld hnodup (Tree.mem_subtrees_trans hnameIn hstmtIn)
  obtain ⟨text, binding, hkind⟩ := hname
  rw [← hid] at hkind
  obtain ⟨subs, hform, hsubs⟩ := hlegible.of_kind hkind
  have hsubs : subs = [] := List.map_eq_nil_iff.mp hsubs
  subst hsubs
  rcases of_use? huse with heq | ⟨above, label, declared, hparent, habove, heq⟩
  · refine ⟨name, hnameIn, ?_⟩
    rw [heq, ← hid, hform]
    exact .receiver
  · -- the statement itself stands in a statement list and not in a local
    have hne : name ≠ stmt := by
      rintro rfl
      have hlink := (hheld.of_slot hlisted.mem (hlisted.slot hstmt)).link
      have hlist := hlisted.list
      rw [hid, hparent] at hlink
      rw [← Option.some.inj hlink, habove] at hlist
      cases hlist
    obtain ⟨decl, hdecl, hslot⟩ := Tree.exists_holder hnameIn hne
    have hdeclIn := Tree.mem_subtrees_trans hdecl hstmtIn
    have hlink := (hheld.of_slot hdeclIn hslot).link
    rw [hid, hparent] at hlink
    rw [Option.some.inj hlink] at habove heq
    obtain ⟨slots, hdeclForm, hslots⟩ :=
      (Tree.Legible.of_held hheld hnodup hdeclIn).of_kind habove
    obtain ⟨only, rfl, -⟩ := List.map_eq_singleton_iff.mp hslots
    have honly : only = name := by
      rw [hdeclForm] at hslot
      exact (List.mem_singleton.mp hslot).symm
    refine ⟨decl, hdecl, ?_⟩
    rw [heq, hdeclForm, honly, ← hid, hform]
    exact .synonym

/-- Uses of different names change trees that have no node in common. -/
theorem Use.At.disjoint {use use' : Use} {other : Tree} (h : use.At old) (h' : use'.At other)
    (hnodup : tree.ids.Nodup) (hold : old ∈ tree.subtrees) (hother : other ∈ tree.subtrees)
    (hne : use.source ≠ use'.source) : List.Disjoint old.ids other.ids := by
  have hsub : ∀ {above below : Tree}, above ∈ tree.subtrees → below ∈ above.subs →
      below ∈ tree.subtrees := fun habove hbelow =>
    Tree.slot_mem_subtrees habove hbelow
  intro id hid hid'
  cases h with
  | receiver =>
      cases h' with
      | receiver => simp_all [Use.source]
      | synonym =>
          simp only [Tree.ids_node, List.flatMap_cons, List.flatMap_nil, List.append_nil,
            List.mem_cons, List.not_mem_nil, or_false] at hid hid'
          rcases hid' with rfl | rfl
          · cases Tree.eq_of_id_eq hnodup hold hother hid.symm
          · exact hne hid.symm
  | synonym =>
      cases h' with
      | receiver =>
          simp only [Tree.ids_node, List.flatMap_cons, List.flatMap_nil, List.append_nil,
            List.mem_cons, List.not_mem_nil, or_false] at hid hid'
          rcases hid with rfl | rfl
          · cases Tree.eq_of_id_eq hnodup hold hother hid'
          · exact hne hid'
      | synonym =>
          simp only [Tree.ids_node, List.flatMap_cons, List.flatMap_nil, List.append_nil,
            List.mem_cons, List.not_mem_nil, or_false] at hid hid'
          rcases hid with rfl | rfl
          · rcases hid' with he | he
            · cases Tree.eq_of_id_eq hnodup hold hother he
              exact hne rfl
            · cases Tree.eq_of_id_eq hnodup hold (hsub hother (List.mem_singleton_self _)) he
          · rcases hid' with he | he
            · cases Tree.eq_of_id_eq hnodup (hsub hold (List.mem_singleton_self _)) hother he
            · exact hne he

theorem exists_of_mem_right {α β : Type} {R : α → β → Prop} {xs : List α} {ys : List β} {y : β}
    (h : List.Forall₂ R xs ys) (hy : y ∈ ys) : ∃ x ∈ xs, R x y := by
  induction h with
  | nil => cases hy
  | @cons x first xs ys hfirst hrest ih =>
      rcases List.mem_cons.mp hy with rfl | hy
      · exact ⟨x, List.mem_cons_self .., hfirst⟩
      · obtain ⟨found, hfound, hrel⟩ := ih hy
        exact ⟨found, List.mem_cons_of_mem _ hfound, hrel⟩

theorem nodup_olds {uses : List Use} {olds : List Tree} (hat : List.Forall₂ Use.At uses olds)
    (hnodup : tree.ids.Nodup) (hin : ∀ old, old ∈ olds → old ∈ tree.subtrees)
    (hsources : (uses.map Use.source).Nodup) : (olds.flatMap Tree.ids).Nodup := by
  induction hat with
  | nil => exact List.nodup_nil
  | @cons use old uses olds hfirst hrest ih =>
      rw [List.map_cons, List.nodup_cons] at hsources
      rw [List.flatMap_cons, List.nodup_append']
      refine ⟨Tree.nodup_ids_of_mem hnodup (hin old (List.mem_cons_self ..)),
        ih (fun other hother => hin other (List.mem_cons_of_mem _ hother)) hsources.2, ?_⟩
      intro id hid hmem
      obtain ⟨other, hother, hotherId⟩ := List.mem_flatMap.mp hmem
      obtain ⟨use', huse', hat'⟩ := exists_of_mem_right hrest hother
      refine hfirst.disjoint hat' hnodup (hin old (List.mem_cons_self ..))
        (hin other (List.mem_cons_of_mem _ hother)) ?_ hid hotherId
      intro he
      exact hsources.1 (he ▸ List.mem_map_of_mem huse')

theorem exists_forall₂ {uses : List Use} {inside : Tree → Prop}
    (h : ∀ use, use ∈ uses → ∃ other, use.At other ∧ inside other) :
    ∃ olds, List.Forall₂ Use.At uses olds ∧ ∀ other, other ∈ olds → inside other := by
  induction uses with
  | nil => exact ⟨[], .nil, by simp⟩
  | cons use uses ih =>
      obtain ⟨other, hat, hother⟩ := h use (List.mem_cons_self ..)
      obtain ⟨olds, hats, holds⟩ := ih (fun use huse => h use (List.mem_cons_of_mem _ huse))
      refine ⟨other :: olds, .cons hat hats, ?_⟩
      intro found hfound
      rcases List.mem_cons.mp hfound with rfl | hfound
      · exact hother
      · exact holds found hfound

/-- The listing of the statements after a local. -/
theorem Listed.preorder {holder : Tree} {before after : List Tree} {owner : Option NodeId}
    (h : Listed base tree holder old before after) (hheld : tree.Held base owner)
    (hnodup : tree.ids.Nodup) :
    (after.map Tree.id).flatMap base.preorder = after.flatMap Tree.ids := by
  rw [List.flatMap_map]
  apply List.flatMap_congr
  intro stmt hstmt
  have hmem := h.mem_subtrees hstmt
  exact (hheld.laid.of_mem hmem).preorder_eq (Tree.nodup_ids_of_mem hnodup hmem)

/-- What changes in the statements after a local stands apart from the local. -/
theorem Listed.apart {holder other : Tree} {before after : List Tree}
    (h : Listed base tree holder old before after) (hnodup : tree.ids.Nodup)
    (hother : ∃ stmt ∈ after, other ∈ stmt.subtrees) :
    other ∈ tree.subtrees ∧ other ≠ tree ∧ List.Disjoint other.ids old.ids := by
  obtain ⟨stmt, hstmt, hbelow⟩ := hother
  have hslots := (List.nodup_append'.mp (h.nodup_slots hnodup)).2.1
  refine ⟨Tree.mem_subtrees_trans hbelow (h.mem_subtrees hstmt),
    Tree.ne_of_mem_slot h.mem (h.slot hstmt) hbelow, ?_⟩
  intro id hid hin
  exact (List.nodup_append'.mp hslots).2.2 hin
    (List.mem_flatMap.mpr ⟨stmt, hstmt, Tree.ids_subset_of_mem hbelow hid⟩)

theorem exists_olds {holder : Tree} {before after : List Tree} {owner : Option NodeId}
    {binding : BindingId} {final : Tracking} (hheld : tree.Held base owner)
    (hnodup : tree.ids.Nodup) (hlisted : Listed base tree holder old before after)
    (h : (after.flatMap Tree.ids).foldlM (Tracking.visit base) ⟨[binding], []⟩ = some final) :
    ∃ olds, List.Forall₂ Use.At final.uses olds ∧ (olds.flatMap Tree.ids).Nodup ∧
      ∀ other, other ∈ olds → ∃ stmt ∈ after, other ∈ stmt.subtrees := by
  obtain ⟨found, hfound, hsources, hspec⟩ := of_visits h
  rw [List.nil_append] at hfound
  have hslots := (List.nodup_append'.mp (hlisted.nodup_slots hnodup)).2.1
  obtain ⟨-, hafterNodup, -⟩ := List.nodup_append'.mp hslots
  have hplace : ∀ use, use ∈ found → ∃ other, use.At other ∧ ∃ stmt ∈ after,
      other ∈ stmt.subtrees := by
    intro use huse
    obtain ⟨stmt, hstmt, hid⟩ := List.mem_flatMap.mp
      (hsources.subset (List.mem_map_of_mem huse))
    obtain ⟨hread, hname⟩ := hspec use huse
    obtain ⟨other, hother, hat⟩ := exists_at hheld hnodup hlisted hstmt hread hname hid
    exact ⟨other, hat, stmt, hstmt, hother⟩
  obtain ⟨olds, hat, holds⟩ := exists_forall₂ hplace
  rw [hfound]
  exact ⟨olds, hat, nodup_olds hat hnodup
    (fun other hother => (hlisted.apart hnodup (holds other hother)).1)
    (hafterNodup.sublist hsources), holds⟩

/-- The uses of a local come from a walk over the statements after it. -/
theorem exists_walk {binding : BindingId} {uses : List Use} {owner : Option NodeId}
    (hheld : tree.Held base owner) (hnodup : tree.ids.Nodup) (hold : old ∈ tree.subtrees)
    (hne : old ≠ tree) (h : localUses? base old.id binding = some uses) :
    ∃ holder before after final, Listed base tree holder old before after ∧
      laterStatements? base old.id = some (after.map Tree.id) ∧
      (after.flatMap Tree.ids).foldlM (Tracking.visit base) ⟨[binding], []⟩ = some final ∧
      final.uses = uses := by
  unfold localUses? at h
  split at h
  · next stmts hlater =>
      obtain ⟨holder, before, after, hlisted, rfl⟩ := exists_later hheld hnodup hold hne hlater
      obtain ⟨final, hfinal, huses⟩ := Option.map_eq_some_iff.mp h
      rw [hlisted.preorder hheld hnodup] at hfinal
      exact ⟨holder, before, after, final, hlisted, hlater, hfinal, huses⟩
  · cases h

/-! ## The answer -/

/-- A local and its uses, each with the tree that is about to stand in its place. -/
structure Planned (base : Store) (tree old new : Tree) (region : List NodeId) (drafted : Store)
    (pairs : List (Tree × Tree)) : Prop where
  holds : base.Holds tree
  mem : old ∈ tree.subtrees
  ne : old ≠ tree
  draft : Draft base region drafted (new :: pairs.map Prod.snd)
  region : region ⊆ old.subs.flatMap Tree.ids
  fresh : base.size ≤ new.id
  olds : ((pairs.map Prod.fst).flatMap Tree.ids).Nodup
  beside : ∀ pair, pair ∈ pairs →
    pair.1 ∈ tree.subtrees ∧ pair.1 ≠ tree ∧ List.Disjoint pair.1.ids old.ids
  retype : ∀ pair, pair ∈ pairs → Retype pair.1.term (some pair.2.term)
  height : ∀ pair, pair ∈ pairs → pair.2.height ≤ pair.1.height
  news : ∀ pair, pair ∈ pairs → ∀ id, id ∈ pair.2.ids → base.size ≤ id

namespace Planned

variable {new : Tree} {drafted : Store} {pairs : List (Tree × Tree)}

/-- The trees for the uses are new, so each replacement leaves the others to be made. -/
theorem apart (h : Planned base tree old new region drafted pairs) : tree.Apart old pairs where
  nodup := h.holds.nodup
  stays := h.mem
  old := h.beside
  olds := h.olds
  news := by
    have hall := h.draft.apart
    rw [List.flatMap_cons] at hall
    exact hall.of_append_right
  fresh id hid hmem := by
    obtain ⟨other, hother, hin⟩ := List.mem_flatMap.mp hmem
    obtain ⟨pair, hpair, rfl⟩ := List.mem_map.mp hother
    exact Nat.not_lt.mpr (h.news pair hpair id hin) (h.holds.laid.lt hid)

theorem targets (h : Planned base tree old new region drafted pairs) :
    tree.Targets (old :: pairs.map Prod.fst) := by
  refine ⟨fun other hother => ?_, ?_⟩
  · rcases List.mem_cons.mp hother with rfl | hother
    · exact ⟨h.mem, h.ne⟩
    · obtain ⟨pair, hpair, rfl⟩ := List.mem_map.mp hother
      exact ⟨(h.beside pair hpair).1, (h.beside pair hpair).2.1⟩
  · rw [List.flatMap_cons, List.nodup_append']
    refine ⟨Tree.nodup_ids_of_mem h.holds.nodup h.mem, h.olds, ?_⟩
    intro id hid hmem
    obtain ⟨other, hother, hin⟩ := List.mem_flatMap.mp hmem
    obtain ⟨pair, hpair, rfl⟩ := List.mem_map.mp hother
    exact (h.beside pair hpair).2.2 hin hid

/-- The tree for the local is new, or stood below it. -/
theorem within (h : Planned base tree old new region drafted pairs) :
    old.Within base.size new :=
  h.draft.within (List.mem_cons_self ..) (h.holds.laid.of_mem h.mem)
    (fun _ hid => old.slots_subset_ids (h.region hid))

/-- All at once is the same as the uses first, which are new leaves, and then the local. -/
theorem foldl_put (h : Planned base tree old new region drafted pairs) :
    ((old, new) :: pairs).foldl (fun tree pair => tree.put pair.1.id (some pair.2)) tree =
      (tree.putAll pairs).put old.id (some new) := by
  refine h.apart.putAll_cons (fun id hid => h.holds.laid.lt hid) h.news ?_
  intro id hid
  refine (h.draft.origin id (List.mem_flatMap.mpr ⟨new, List.mem_cons_self .., hid⟩)).imp_right ?_
  exact fun hin => h.region hin

/-- The commit runs through, and erases the local and its uses. -/
theorem exists_commit (h : Planned base tree old new region drafted pairs) :
    ∃ final, Build.commit
        (((old, new) :: pairs).map (fun pair => Edit.mk pair.1.id (.replace (.fresh pair.2.id))))
        drafted = .ok ((), final) ∧
      final.Holds ((tree.putAll pairs).put old.id (some new)) ∧ base.Ages final tree.id ∧
      (∀ pair, pair ∈ pairs → final.isErased pair.1.id = true) ∧
      base.KeepsOutside final (old.id :: (pairs.map Prod.fst).map Tree.id) := by
  have hregion : ∀ id, id ∈ region → ∃ pair ∈ (old, new) :: pairs,
      id ∈ pair.1.subs.flatMap Tree.ids :=
    fun id hid => ⟨(old, new), List.mem_cons_self .., h.region hid⟩
  obtain ⟨final, hcommit, ⟨hholds, hages⟩, hgone⟩ :=
    @Draft.commit_replaceAll _ _ _ _ ((old, new) :: pairs) h.draft h.holds
      (by
        intro pair hpair
        apply h.draft.claim?_new
        rcases List.mem_cons.mp hpair with rfl | hpair
        · exact h.fresh
        · exact h.news pair hpair _ pair.2.id_mem_ids)
      (fun pair hpair => h.targets.mem _ (List.mem_map_of_mem hpair)) h.targets.apart hregion
  refine ⟨final, hcommit, h.foldl_put ▸ hholds, hages,
    fun pair hpair => hgone pair (List.mem_cons_of_mem _ hpair), ?_⟩
  refine h.draft.commit_keepsOutside h.holds h.targets
    (fun id hid => ⟨old, List.mem_cons_self .., h.region hid⟩) ?_ ?_ hcommit
  · simp [Function.comp_def]
  · intro edit hedit
    obtain ⟨pair, hpair, rfl⟩ := List.mem_map.mp hedit
    exact .inr ⟨_, rfl, List.mem_map_of_mem (List.mem_map_of_mem hpair)⟩

theorem stays_ne (h : Planned base tree old new region drafted pairs) :
    old ≠ tree.putAll pairs := by
  intro he
  exact Tree.id_ne_of_mem h.holds.nodup h.mem h.ne (by rw [he, Tree.id_putAll])

theorem confined (h : Planned base tree old new region drafted pairs) :
    tree.Confined base.size (tree.Above old.id) ((tree.putAll pairs).put old.id (some new)) := by
  obtain ⟨hmiddle, hstays, -, -, -, -⟩ := h.apart.last
  refine (Tree.confined_putAll h.apart h.news).trans
    (Tree.confined_put hmiddle hstays h.stays_ne (Tree.within_put hmiddle hstays ?_) ?_)
    (Nat.le_refl _)
  · rintro _ ⟨⟩
    exact h.within
  · exact fun id _ hid _ _ _ => Tree.above_of_mem h.mem hid

theorem beside_putAll {gone : NodeId → Prop} (h : Planned base tree old new region drafted pairs)
    (hgone : ∀ pair, pair ∈ pairs → gone pair.1.id) :
    tree.Beside gone old.id ((tree.putAll pairs).put old.id (some new)) :=
  (Tree.around_putAll h.apart h.height hgone).trans_beside h.holds.nodup h.apart.last.nodup
    (Tree.beside_put h.apart.last.nodup h.apart.last.stays)

theorem answers {respond : Build Response} (h : Planned base tree old new region drafted pairs)
    (hrel : Rewrite old.term (some new.term))
    (huses : ∀ pair, pair ∈ pairs → Replaces base old.id pair.1.id)
    (hrun : respond base = .ok (.edit (((old, new) :: pairs).map
      (fun pair => Edit.mk pair.1.id (.replace (.fresh pair.2.id)))), drafted)) :
    Answers respond base tree old.id (Outcome tree old.term) := by
  obtain ⟨final, hcommit, hholds, hages, hgone, hkept⟩ := h.exists_commit
  obtain ⟨hmiddle, hstays, -, -, -, -⟩ := h.apart.last
  refine .inr ⟨_, drafted, final, _, List.cons_ne_nil _ _, hrun, hcommit,
    ⟨hholds, hages, h.beside_putAll hgone, h.confined, by rw [Tree.id_put, Tree.id_putAll],
      (pairs.map Prod.fst).map Tree.id, ?_, hkept⟩, _, some new.term,
    Tree.retouch_putAll h.apart h.retype, hrel, ?_⟩
  · intro use huse
    obtain ⟨other, hother, rfl⟩ := List.mem_map.mp huse
    obtain ⟨pair, hpair, rfl⟩ := List.mem_map.mp hother
    exact ⟨huses pair hpair, hgone pair hpair⟩
  · refine @Tree.swap_put _ _ (some new) hmiddle hstays h.stays_ne (by simp) ?_
    rintro - _ ⟨⟩
    exact Tree.suits_of_primary (new.head_term ▸ hrel.strength_eq)

end Planned

theorem isTable_eq (h : old.Legible base) :
    isTable base old.id = old.type.any (fun type => type.name == tableType) := by
  rw [isTable, h.typeOf]

theorem exists_table (h : isTable base old.id = true) (hlegible : old.Legible base) :
    ∃ type, old.type = some type ∧ type.name = tableType := by
  rw [isTable_eq hlegible] at h
  cases htype : old.type with
  | none => simp [htype] at h
  | some type => exact ⟨type, rfl, by simpa [htype] using h⟩

/-- Answer for a table that is created as the receiver of a call. -/
theorem answers_creation {respond : Build Response} {args : List NodeId} (hbase : base.Holds tree)
    (hold : old ∈ tree.subtrees) (hne : old ≠ tree) (hkind : base.kind old.id = .creation args)
    (htable : isTable base old.id = true)
    (hrun : respond base =
      (mapCreation old.id >>= fun made => pure (Response.replaceBy old.id made)) base) :
    Answers respond base tree old.id (Outcome tree old.term) := by
  have hlegible := Tree.Legible.of_holds hbase hold
  have hstart : Draft base [] base [] := .start hbase.idle hbase.typed
  obtain ⟨type, htype, hname⟩ := exists_table htable hlegible
  obtain ⟨drafted, new, hmade, hdraft, hterm, -⟩ :=
    run_mapCreation hstart (hbase.live hold hne) (List.disjoint_nil_right _)
  rw [List.append_nil] at hdraft
  rw [Build.bind_ok hmade] at hrun
  have hrel : Rewrite old.term (some new.term) := by
    obtain ⟨subs, hform, -⟩ := hlegible.of_kind hkind
    have hsubs : old.subs = subs := by rw [hform]; rfl
    have hold : old.term = .node .creation (some type) (subs.map Tree.term) := by
      rw [← htype, hform]
      simp [Kind.head]
    rw [hold, hterm, hsubs, Tree.term_node]
    exact .creation hname
  refine (hdraft.answers_replace hbase hold hne (List.Subset.refl _) rfl hrun hrel
    (fun _ => Tree.suits_of_primary (new.head_term ▸ hrel.strength_eq))).imp ?_
  rintro later ⟨fresh, hrel, hswap⟩
  exact ⟨tree.term, fresh, .refl, hrel, hswap⟩

/-- Retyping a local and its uses drafts a declaration of the map, with the arguments of the
table, and a tree for every use. -/
theorem run_retypeLocal {made : Tree} {decl : NodeId} {text : String} {binding : BindingId}
    {uses : List Use} {olds : List Tree} (hidle : base.moves = []) (hknown : base.TypesKnown)
    (hmade : made.Live base) (hat : List.Forall₂ Use.At uses olds)
    (hlive : ∀ other, other ∈ olds → other.Live base) :
    ∃ drafted creation new news,
      retypeLocal decl text binding made.id uses base =
        .ok (⟨decl, .replace (.fresh (Tree.id new))⟩ ::
          (olds.zip news).map (fun pair => Edit.mk pair.1.id (.replace (.fresh pair.2.id))),
          drafted) ∧
      Draft base (made.subs.flatMap Tree.ids) drafted (news ++ [new]) ∧
      new = .node new.id (.varDecl text (some binding)) (some mapType)
        [.node creation .creation (some mapType) made.subs] ∧
      base.size ≤ new.id ∧ olds.length = news.length ∧
      ∀ pair, pair ∈ olds.zip news → Retype pair.1.term (some pair.2.term) ∧
        pair.2.height ≤ pair.1.height ∧ ∀ id, id ∈ pair.2.ids → base.size ≤ id := by
  have hstart : Draft base [] base [] := .start hidle hknown
  obtain ⟨map, typed, hintern, hmap, htyped⟩ := hstart.intern mapType
  obtain ⟨created, creation, hcreate, hcreated, hform, hkeeps⟩ :=
    run_mapCreation htyped hmade (List.disjoint_nil_right _)
  obtain ⟨declared, hdeclare, htypes, -, hdeclared⟩ :=
    @Draft.create _ _ _ _ [creation] hcreated (.varDecl text (some binding) (some creation.id))
      (some map) (some mapType) rfl (by simp [hkeeps map mapType hmap])
  obtain ⟨drafted, news, hretype, hdrafted, hlength, hpairs⟩ := run_retypeUses hdeclared
    (by rw [htypes]; exact hkeeps map mapType hmap) hat hlive
  rw [List.append_nil] at hdrafted
  refine ⟨drafted, creation.id, _, news, ?_, hdrafted, by rw [← hform]; rfl,
    hcreated.grows.size, hlength, hpairs⟩
  exact (Build.bind_ok hintern).trans ((Build.bind_ok hcreate).trans
    ((Build.bind_ok hdeclare).trans (Build.bind_ok hretype)))

/-- The declaration of a table becomes the declaration of a map. -/
theorem rewrite_varDecl {made new : Tree} {text : String} {binding : BindingId}
    {creation : NodeId} (hlegible : old.Legible base)
    (hkind : base.kind old.id = .varDecl text (some binding) (some made.id))
    (hsubs : old.subs = [made]) (hcreation : isTableCreation base made.id = true)
    (hnew : new = .node new.id (.varDecl text (some binding)) (some mapType)
      [.node creation .creation (some mapType) made.subs]) :
    Rewrite old.term (some new.term) := by
  have hmade : made.Legible base := hlegible.of_mem
    (Tree.slot_mem_subtrees old.mem_subtrees_self (by rw [hsubs]; exact List.mem_singleton_self _))
  unfold isTableCreation at hcreation
  split at hcreation
  · next args hmadeKind =>
      obtain ⟨type, htype, hname⟩ := exists_table hcreation hmade
      obtain ⟨subs, hform, -⟩ := hmade.of_kind hmadeKind
      obtain ⟨slots, holdForm, -⟩ := hlegible.of_kind hkind
      have hslots : slots = [made] := by
        rw [← hsubs, holdForm]
        rfl
      have hmadeSubs : made.subs = subs := by rw [hform]; rfl
      have hmadeTerm : made.term = .node .creation (some type) (subs.map Tree.term) := by
        rw [← htype, hform]
        simp [Kind.head]
      have holdTerm : old.term = .node (.varDecl text (some binding)) old.type [made.term] := by
        rw [holdForm, hslots]
        simp [Kind.head]
      rw [holdTerm, hmadeTerm, hnew, Tree.term_node, List.map_singleton, Tree.term_node, hmadeSubs]
      exact .initializer hname
  · cases hcreation

theorem answers_varDecl {respond : Build Response} {made : Tree} {text : String}
    {binding : BindingId} {uses : List Use} (hbase : base.Holds tree)
    (hold : old ∈ tree.subtrees) (hne : old ≠ tree)
    (hkind : base.kind old.id = .varDecl text (some binding) (some made.id))
    (hsubs : old.subs = [made]) (hcreation : isTableCreation base made.id = true)
    (huses : localUses? base old.id binding = some uses)
    (hrun : respond base =
      (retypeLocal old.id text binding made.id uses >>= fun edits => pure (.edit edits)) base) :
    Answers respond base tree old.id (Outcome tree old.term) := by
  have hmade : made.Live base :=
    (hbase.live hold hne).sub (by rw [hsubs]; exact List.mem_singleton_self _)
  obtain ⟨holder, before, after, final, hlisted, -, hfinal, rfl⟩ :=
    exists_walk hbase.held hbase.nodup hold hne huses
  obtain ⟨olds, hat, holdsNodup, hafter⟩ := exists_olds hbase.held hbase.nodup hlisted hfinal
  have holds := fun other hother => hlisted.apart hbase.nodup (hafter other hother)
  obtain ⟨drafted, creation, new, news, hretype, hdrafted, hnew, hsize, hlength, hpairs⟩ :=
    @run_retypeLocal _ _ old.id text binding _ _ hbase.idle hbase.typed hmade hat
      (fun other hother => hbase.live (holds other hother).1 (holds other hother).2.1)
  have hplanned : Planned base tree old new (made.subs.flatMap Tree.ids) drafted
      (olds.zip news) :=
    { holds := hbase
      mem := hold
      ne := hne
      draft := by
        rw [List.map_snd_zip (by omega)]
        exact hdrafted.perm List.perm_append_comm
      region := by
        rw [hsubs, List.flatMap_cons, List.flatMap_nil, List.append_nil]
        exact made.slots_subset_ids
      fresh := hsize
      olds := by rwa [List.map_fst_zip (by omega)]
      beside := fun pair hpair => holds pair.1 (List.of_mem_zip hpair).1
      retype := fun pair hpair => (hpairs pair hpair).1
      height := fun pair hpair => (hpairs pair hpair).2.1
      news := fun pair hpair => (hpairs pair hpair).2.2 }
  refine hplanned.answers
    (rewrite_varDecl (Tree.Legible.of_holds hbase hold) hkind hsubs hcreation hnew) ?_ ?_
  · intro pair hpair
    obtain ⟨use, huse, hother⟩ := exists_of_mem_right hat (List.of_mem_zip hpair).1
    exact ⟨text, binding, made.id, _, hkind, huses, List.mem_map.mpr ⟨use, huse, hother.edited⟩⟩
  · rw [hrun, Build.bind_ok hretype]
    rfl

theorem answers {options : Options} (hbase : base.Holds tree) (hold : old ∈ tree.subtrees)
    (hne : old ≠ tree) :
    Answers (respond options old.id) base tree old.id (Outcome tree old.term) := by
  have hlegible := Tree.Legible.of_holds hbase hold
  have hlive := hbase.live hold hne
  have hstart : Draft base [] base [] := .start hbase.idle hbase.typed
  have hbegin : respond options old.id base = _ :=
    (Build.bind_ok (Build.run_kindOf hlegible.lt)).trans (Build.bind_ok (Build.run_get base))
  cases hkind : base.kind old.id with
  | creation args =>
      rw [hkind] at hbegin
      simp only at hbegin
      by_cases hfits : (isTable base old.id && isSafeReceiver base old.id) = true
      · rw [if_pos hfits] at hbegin
        exact answers_creation hbase hold hne hkind (Bool.and_eq_true_iff.mp hfits).1 hbegin
      · rw [if_neg hfits] at hbegin
        exact .inl hbegin
  | varDecl text binding init =>
      rw [hkind] at hbegin
      match binding, init with
      | some binding, some init =>
          obtain ⟨subs, hform, hids⟩ := hlegible.of_kind hkind
          obtain ⟨made, rfl, rfl⟩ := List.map_eq_singleton_iff.mp hids
          simp only at hbegin
          by_cases hfits : (isTable base old.id && isTableCreation base made.id) = true
          · rw [if_pos hfits] at hbegin
            cases huses : localUses? base old.id binding with
            | none =>
                rw [huses] at hbegin
                exact .inl hbegin
            | some uses =>
                rw [huses] at hbegin
                exact answers_varDecl hbase hold hne hkind (by rw [hform]; rfl)
                  (Bool.and_eq_true_iff.mp hfits).2 huses hbegin
          · rw [if_neg hfits] at hbegin
            exact .inl hbegin
      | some _, none => exact .inl hbegin
      | none, _ => exact .inl hbegin
  | _ =>
      rw [hkind] at hbegin
      exact .inl hbegin

end LocalTable

end CodeTidy
