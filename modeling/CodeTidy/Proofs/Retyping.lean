import CodeTidy.Proofs.EditOrder
import CodeTidy.Proofs.Escape
import CodeTidy.Proofs.Idle

/-!
# From the table to the map

A local that holds a table which stays local becomes a local that holds a map, with all that
names it and all that it initializes (`LocalTable.table_becomes_map`).  Every edit gives one
place its new type; the nodes that no edit covers keep their types, so it is enough that the
walk recorded every name and every declaration.
-/

namespace CodeTidy

/-! ## Terms without types -/

def Term.untyped : Term → Term :=
  fold (fun head _ subs => .node head none subs)

theorem Term.untyped_node (head : Head) (type : Option TypeDesc) (subs : List Term) :
    (node head type subs).untyped = node head none (subs.map untyped) :=
  fold_node ..

/-- Exchanging a subterm for one that differs in its types changes types only. -/
theorem Term.Swap.untyped_eq {old new a b : Term} (h : Swap old (some new) a b)
    (hsame : new.untyped = old.untyped) : b.untyped = a.untyped := by
  induction h with
  | here => simp [untyped_node, hsame]
  | deeper h ih => simp [untyped_node, ih]

namespace LocalTable

theorem Retype.untyped_eq {old new : Term} (h : Retype old (some new)) :
    new.untyped = old.untyped := by
  cases h <;> simp [Term.untyped_node]

theorem untyped_eq_of_retouch {a b : Term} (h : Relation.ReflTransGen Retouch a b) :
    b.untyped = a.untyped := by
  induction h with
  | refl => rfl
  | tail _ hlast ih =>
      obtain ⟨old, fresh, hretype, hswap⟩ := hlast
      cases fresh with
      | none => cases hretype
      | some new => rw [hswap.untyped_eq hretype.untyped_eq, ih]

theorem Retype.type_eq {old : Term} {new below : Tree} (h : Retype old (some new.term))
    (hbelow : below ∈ new.subtrees) : below.type = some mapType := by
  obtain ⟨id, head, type, subs⟩ := new
  rw [Tree.term_node] at h
  generalize hterms : subs.map Tree.term = terms at h
  cases h with
  | name =>
      obtain rfl := List.map_eq_nil_iff.mp hterms
      rcases Tree.mem_subtrees_iff.mp hbelow with rfl | ⟨sub, hsub, -⟩
      · rfl
      · cases hsub
  | synonym =>
      obtain ⟨⟨source, sourceHead, sourceType, parts⟩, rfl, hsource⟩ :=
        List.map_eq_singleton_iff.mp hterms
      rw [Tree.term_node] at hsource
      injection hsource with _ htype hparts
      obtain rfl := List.map_eq_nil_iff.mp hparts
      rcases Tree.mem_subtrees_iff.mp hbelow with rfl | ⟨sub, hsub, hin⟩
      · rfl
      · obtain rfl := List.mem_singleton.mp hsub
        rcases Tree.mem_subtrees_iff.mp hin with rfl | ⟨part, hpart, -⟩
        · exact htype
        · cases hpart

end LocalTable

/-! ## Where the nodes of a changed tree come from -/

namespace Tree

variable {tree old new kept below : Tree} {pairs : List (Tree × Tree)}

def SameNode (a b : Tree) : Prop :=
  a.id = b.id ∧ a.head = b.head ∧ a.type = b.type

theorem SameNode.trans {a b c : Tree} (h : a.SameNode b) (h' : b.SameNode c) : a.SameNode c :=
  ⟨h.1.trans h'.1, h.2.1.trans h'.2.1, h.2.2.trans h'.2.2⟩

/-- A node of a changed tree is one of the new tree, or was there before, outside of the old
one. -/
theorem shown_of_mem_put {target : NodeId} (hroot : tree.id ≠ target)
    (h : below ∈ (tree.put target (some new)).subtrees) :
    below ∈ new.subtrees ∨ ∃ origin ∈ tree.subtrees, origin.SameNode below ∧
      origin.id ∈ tree.shown [target] ∧ origin.id ≠ target := by
  induction tree with
  | node i head type subs ih =>
      have hstop : i ∉ [target] := by simpa using hroot
      rw [put_node] at h
      rcases mem_subtrees_iff.mp h with rfl | ⟨slot, hslot, hin⟩
      · exact .inr ⟨_, mem_subtrees_self _, ⟨rfl, rfl, rfl⟩, id_mem_shown .., hroot⟩
      · obtain ⟨sub, hsub, hput⟩ := List.mem_flatMap.mp hslot
        by_cases hid : sub.id = target
        · rw [putSlot, if_pos hid] at hput
          obtain rfl : slot = new := by simpa using hput
          exact .inl hin
        · rw [putSlot, if_neg hid, List.mem_singleton] at hput
          subst hput
          rcases ih sub hsub hid hin with hnew | ⟨origin, horigin, hsame, hshown, hne⟩
          · exact .inl hnew
          · refine .inr ⟨origin, mem_subtrees_of_sub hsub horigin, hsame, ?_, hne⟩
            rw [shown_node, if_neg hstop]
            exact List.mem_cons_of_mem _ (List.mem_flatMap.mpr ⟨sub, hsub, hshown⟩)

theorem origin_of_mem_put (hnodup : tree.ids.Nodup) (hold : old ∈ tree.subtrees)
    (hne : old ≠ tree) (h : below ∈ (tree.put old.id (some new)).subtrees) :
    below ∈ new.subtrees ∨
      ∃ origin ∈ tree.subtrees, origin.SameNode below ∧ origin.id ∉ old.ids := by
  rcases shown_of_mem_put (id_ne_of_mem hnodup hold hne) h with
    hnew | ⟨origin, horigin, hsame, hshown, hother⟩
  · exact .inl hnew
  · refine .inr ⟨origin, horigin, hsame, ?_⟩
    rw [ids_eq, List.mem_cons, not_or]
    exact ⟨hother, fun hin => not_mem_shown hnodup hold (List.mem_singleton_self _) hin hshown⟩

/-- A node of a tree after several changes is one of a new tree, or was there before, outside
of the old ones. -/
theorem Apart.origin (h : tree.Apart kept pairs) (hmem : below ∈ (tree.putAll pairs).subtrees) :
    (∃ pair ∈ pairs, ∃ origin ∈ pair.2.subtrees, origin.SameNode below) ∨
      ∃ origin ∈ tree.subtrees, origin.SameNode below ∧
        ∀ pair, pair ∈ pairs → origin.id ∉ pair.1.ids := by
  induction pairs generalizing tree with
  | nil => exact .inr ⟨below, hmem, ⟨rfl, rfl, rfl⟩, by simp⟩
  | cons pair pairs ih =>
      obtain ⟨old, new⟩ := pair
      obtain ⟨hold, hne, -⟩ := h.old (old, new) (List.mem_cons_self ..)
      rcases ih h.step hmem with ⟨pair, hpair, hfound⟩ | ⟨middle, hmiddle, hsame, hout⟩
      · exact .inl ⟨pair, List.mem_cons_of_mem _ hpair, hfound⟩
      · rcases origin_of_mem_put h.nodup hold hne hmiddle with
          hnew | ⟨origin, horigin, hsame', hout'⟩
        · exact .inl ⟨(old, new), List.mem_cons_self .., middle, hnew, hsame⟩
        · refine .inr ⟨origin, horigin, hsame'.trans hsame, ?_⟩
          intro pair hpair
          rcases List.mem_cons.mp hpair with rfl | hpair
          · exact hout'
          · rw [hsame'.1]
            exact hout pair hpair

theorem Apart.mem_putAll (h : tree.Apart kept pairs) (hbelow : below ∈ tree.subtrees)
    (hout : ∀ pair, pair ∈ pairs → below.id ∉ pair.1.ids) :
    below.putAll pairs ∈ (tree.putAll pairs).subtrees := by
  induction pairs generalizing tree below with
  | nil => exact hbelow
  | cons pair pairs ih =>
      obtain ⟨old, new⟩ := pair
      obtain ⟨hold, -, -⟩ := h.old (old, new) (List.mem_cons_self ..)
      refine ih h.step (mem_subtrees_put_of_not_mem h.nodup hold hbelow ?_) ?_
      · intro hin
        exact hout (old, new) (List.mem_cons_self ..) (mem_ids_iff.mpr ⟨below, hin, rfl⟩)
      · intro pair hpair
        rw [id_put]
        exact hout pair (List.mem_cons_of_mem _ hpair)

def putSlots (pairs : List (Tree × Tree)) (subs : List Tree) : List Tree :=
  pairs.foldl (fun subs pair => subs.flatMap (putSlot pair.1.id (some pair.2))) subs

theorem putAll_node (pairs : List (Tree × Tree)) (id : NodeId) (head : Head)
    (type : Option TypeDesc) (subs : List Tree) :
    (node id head type subs).putAll pairs = node id head type (putSlots pairs subs) := by
  induction pairs generalizing subs with
  | nil => rfl
  | cons pair pairs ih =>
      rw [putAll, List.foldl_cons, put_node]
      exact ih _

theorem putSlots_append (pairs : List (Tree × Tree)) (subs others : List Tree) :
    putSlots pairs (subs ++ others) = putSlots pairs subs ++ putSlots pairs others := by
  induction pairs generalizing subs others with
  | nil => rfl
  | cons pair pairs ih =>
      simp only [putSlots, List.foldl_cons, List.flatMap_append]
      exact ih _ _

theorem putSlots_of_not_mem {subs : List Tree}
    (h : ∀ pair, pair ∈ pairs → pair.1.id ∉ subs.flatMap ids) :
    putSlots pairs subs = subs := by
  induction pairs with
  | nil => rfl
  | cons pair pairs ih =>
      rw [putSlots, List.foldl_cons, flatMap_putSlot_of_not_mem (h pair (List.mem_cons_self ..))]
      exact ih (fun pair hpair => h pair (List.mem_cons_of_mem _ hpair))

end Tree

/-! ## Building the new trees -/

section Building

variable {base store later : Store} {tree other : Tree} {kind : Kind} {type : Option TypeId}
  {id : NodeId}

theorem Known.mono (h : Known type store) (hgrows : store.Grows later) : Known type later := by
  intro number hnumber
  obtain ⟨desc, hdesc⟩ := h number hnumber
  exact ⟨desc, hgrows.types number desc hdesc⟩

/-- A node around parts of a replacement is a part of it. -/
theorem Prepared.create (h : Prepared base tree store) (hbase : base.Hosts tree)
    (hparts : ∀ child, child ∈ kind.children → Part base tree child store)
    (htype : Known type store) (hrun : Build.create kind type store = .ok (id, later)) :
    Prepared base tree later ∧ store.Grows later ∧ Part base tree id later := by
  obtain ⟨region, trees, hpiece⟩ := h
  obtain ⟨rfl, hsize, hgrows, -, hlast⟩ := hpiece.create hbase.rooted hparts htype hrun
  exact ⟨⟨region, hlast⟩, hgrows, hsize ▸ Nat.lt_succ_self _, .inl hpiece.draft.grows.size⟩

theorem Prepared.intern {desc : TypeDesc} {number : TypeId} (h : Prepared base tree store)
    (hrun : Build.internType desc store = .ok (number, later)) :
    Prepared base tree later ∧ store.Grows later ∧ later.moving = store.moving ∧
      Known (some number) later := by
  obtain ⟨region, trees, hpiece⟩ := h
  obtain ⟨hgrows, hmoving, hnumber, hlast⟩ := hpiece.intern hrun
  refine ⟨⟨region, trees, hlast⟩, hgrows, hmoving, fun other he => ?_⟩
  cases he
  exact ⟨desc, hnumber⟩

theorem Prepared.legible (h : Prepared base tree store) (hlive : other.Live base) :
    other.Legible store := by
  obtain ⟨region, trees, hpiece⟩ := h
  exact hpiece.draft.legible_live hlive

/-- Taking subtrees that have no node in common. -/
theorem Prepared.takes {parts : List Tree} {children : List Child} (h : Prepared base tree store)
    (hbase : base.Hosts tree)
    (hbelow : ∀ part, part ∈ parts → part.id ∈ tree.subs.flatMap Tree.ids)
    (hlive : ∀ part, part ∈ parts → part.Live base)
    (hnodup : (parts.flatMap Tree.ids).Nodup)
    (hmoving : ∀ root, root ∈ store.moving → ∀ part, part ∈ parts →
      part.id ∉ base.preorder root ∧ root ∉ base.preorder part.id)
    (hrun : (parts.map Tree.id).mapM Build.take store = .ok (children, later)) :
    Prepared base tree later ∧ children.map Child.node = parts.map Tree.id ∧
      store.Grows later := by
  induction parts generalizing store children with
  | nil =>
      cases hrun
      exact ⟨h, rfl, .refl _⟩
  | cons part parts ih =>
      rw [List.map_cons, List.mapM_cons] at hrun
      obtain ⟨child, middle, hfirst, hrun⟩ := Build.exists_of_bind_ok hrun
      obtain ⟨rest, last, hrest, hrun⟩ := Build.exists_of_bind_ok hrun
      cases hrun
      rw [List.flatMap_cons, List.nodup_append'] at hnodup
      obtain ⟨-, hrestNodup, hapart⟩ := hnodup
      have hself : part ∈ part :: parts := List.mem_cons_self ..
      have htaken : Prepared base tree middle := by
        obtain ⟨region, trees, hpiece⟩ := h
        exact hpiece.take hbase.rooted (hbelow part hself)
          (fun root hroot => hmoving root hroot part hself) hfirst
      rw [Build.run_take] at hfirst
      split at hfirst <;> cases hfirst
      obtain ⟨hbuilt, hnodes, hgrows⟩ := ih htaken
        (fun part hpart => hbelow part (List.mem_cons_of_mem _ hpart))
        (fun part hpart => hlive part (List.mem_cons_of_mem _ hpart)) hrestNodup (by
          intro root hroot other hother
          rcases List.mem_cons.mp hroot with rfl | hroot
          · rw [(hlive part hself).preorder,
              (hlive other (List.mem_cons_of_mem _ hother)).preorder]
            have hin : other.ids ⊆ parts.flatMap Tree.ids :=
              fun id hid => List.mem_flatMap.mpr ⟨other, hother, hid⟩
            exact ⟨fun hmem => hapart hmem (hin other.id_mem_ids),
              fun hmem => hapart part.id_mem_ids (hin hmem)⟩
          · exact hmoving root hroot other (List.mem_cons_of_mem _ hother)) hrest
      exact ⟨hbuilt, by rw [List.map_cons, List.map_cons, hnodes]; rfl, hgrows.size, hgrows.types⟩

end Building

namespace LocalTable

section Building

variable {base store later : Store} {tree made other : Tree} {map : TypeId} {id : NodeId}

theorem prepared_mapCreation (h : Prepared base tree store) (hbase : base.Hosts tree)
    (hmade : made ∈ tree.subtrees) (hlive : made.Live base) (hmoving : store.moving = [])
    (hrun : mapCreation made.id store = .ok (id, later)) :
    Prepared base tree later ∧ store.Grows later ∧ Part base tree id later := by
  have hbelow : made.subs.flatMap Tree.ids ⊆ tree.subs.flatMap Tree.ids := by
    rcases Tree.mem_subtrees_iff.mp hmade with rfl | ⟨sub, hsub, hin⟩
    · exact fun _ hid => hid
    · intro id hid
      exact List.mem_flatMap.mpr
        ⟨sub, hsub, Tree.ids_subset_of_mem hin (made.slots_subset_ids hid)⟩
  have hnodup : (made.subs.flatMap Tree.ids).Nodup := Tree.nodup_slots hlive.nodup
  unfold mapCreation at hrun
  rw [Build.bind_ok (Build.run_get store), (h.legible hlive).children] at hrun
  obtain ⟨args, taken, htakes, hrun⟩ := Build.exists_of_bind_ok hrun
  obtain ⟨map, typed, hintern, hcreate⟩ := Build.exists_of_bind_ok hrun
  obtain ⟨htaken, hnodes, hgrows⟩ := h.takes hbase
    (fun part hpart => hbelow (List.mem_flatMap.mpr ⟨part, hpart, part.id_mem_ids⟩))
    (fun part hpart => hlive.sub hpart) hnodup (by simp [hmoving]) htakes
  obtain ⟨htyped, hgrowsTyped, -, hmap⟩ := htaken.intern hintern
  obtain ⟨hbuilt, hgrows', hpart⟩ := htyped.create hbase (by
    intro child hchild
    rw [show (Kind.creation (args.map Child.node)).children = made.subs.map Tree.id from hnodes]
      at hchild
    obtain ⟨part, hpart, rfl⟩ := List.mem_map.mp hchild
    refine ⟨?_, .inr (hbelow (List.mem_flatMap.mpr ⟨part, hpart, part.id_mem_ids⟩))⟩
    exact (htyped.legible (hlive.sub hpart)).lt) hmap hcreate
  exact ⟨hbuilt, (hgrows.trans hgrowsTyped).trans hgrows', hpart⟩

theorem prepared_retypedCopy {source : NodeId} {text : String} {binding : Option BindingId}
    {type : Option TypeDesc} (h : Prepared base tree store) (hbase : base.Hosts tree)
    (hlive : (Tree.node source (.name text binding) type []).Live base)
    (hmap : Known (some map) store) (hrun : retypedCopy source map store = .ok (id, later)) :
    Prepared base tree later ∧ store.Grows later ∧ Part base tree id later := by
  have hlegible := h.legible hlive
  have hlt : source < store.size := hlegible.lt
  rw [run_retypedCopy hlt (kind_name hlegible)] at hrun
  exact h.create hbase (by simp [Kind.children]) hmap hrun

theorem prepared_retypeUse {use : Use} {edit : Edit} (h : Prepared base tree store)
    (hbase : base.Hosts tree) (hat : use.At other) (hlive : other.Live base)
    (hmap : Known (some map) store) (hrun : retypeUse map use store = .ok (edit, later)) :
    Prepared base tree later ∧ store.Grows later := by
  cases hat with
  | receiver =>
      obtain ⟨copy, copied, hcopy, hrun⟩ := Build.exists_of_bind_ok hrun
      cases hrun
      obtain ⟨hbuilt, hgrows, -⟩ := prepared_retypedCopy h hbase hlive hmap hcopy
      exact ⟨hbuilt, hgrows⟩
  | synonym =>
      obtain ⟨copy, copied, hcopy, hrun⟩ := Build.exists_of_bind_ok hrun
      obtain ⟨replacement, last, hdeclare, hrun⟩ := Build.exists_of_bind_ok hrun
      cases hrun
      obtain ⟨hcopied, hgrows, hpart⟩ := prepared_retypedCopy h hbase
        (hlive.sub (List.mem_singleton_self _)) hmap hcopy
      obtain ⟨hbuilt, hgrows', -⟩ := hcopied.create hbase
        (by simpa [Kind.children] using hpart) (hmap.mono hgrows) hdeclare
      exact ⟨hbuilt, hgrows.trans hgrows'⟩

theorem prepared_retypeUses {uses : List Use} {olds : List Tree} {edits : List Edit}
    (h : Prepared base tree store) (hbase : base.Hosts tree)
    (hat : List.Forall₂ Use.At uses olds) (hlive : ∀ old, old ∈ olds → old.Live base)
    (hmap : Known (some map) store) (hrun : uses.mapM (retypeUse map) store = .ok (edits, later)) :
    Prepared base tree later := by
  induction hat generalizing store edits with
  | nil =>
      cases hrun
      exact h
  | @cons use old uses olds hfirst hrest ih =>
      rw [List.mapM_cons] at hrun
      obtain ⟨edit, middle, huse, hrun⟩ := Build.exists_of_bind_ok hrun
      obtain ⟨rest, last, huses, hrun⟩ := Build.exists_of_bind_ok hrun
      cases hrun
      obtain ⟨hmiddle, hgrows⟩ :=
        prepared_retypeUse h hbase hfirst (hlive old (List.mem_cons_self ..)) hmap huse
      exact ih hmiddle (fun old hold => hlive old (List.mem_cons_of_mem _ hold))
        (hmap.mono hgrows) huses

/-- Retyping a local builds its replacements from parts of the tree. -/
theorem prepared_retypeLocal {decl : NodeId} {text : String} {binding : BindingId}
    {uses : List Use} {olds : List Tree} {edits : List Edit} (hbase : base.Hosts tree)
    (hmade : made ∈ tree.subtrees) (hmadeLive : made.Live base)
    (hat : List.Forall₂ Use.At uses olds) (hlive : ∀ old, old ∈ olds → old.Live base)
    (hrun : retypeLocal decl text binding made.id uses base = .ok (edits, later)) :
    Prepared base tree later := by
  obtain ⟨map, typed, hintern, hrun⟩ := Build.exists_of_bind_ok hrun
  obtain ⟨creation, created, hcreate, hrun⟩ := Build.exists_of_bind_ok hrun
  obtain ⟨replacement, declared, hdeclare, hrun⟩ := Build.exists_of_bind_ok hrun
  obtain ⟨others, last, huses, hrun⟩ := Build.exists_of_bind_ok hrun
  cases hrun
  obtain ⟨htyped, -, hsame, hknown⟩ := (Prepared.start hbase.idle hbase.typed).intern hintern
  have hmoving : typed.moving = [] := by
    rw [hsame, Store.moving, hbase.idle, List.map_nil]
  obtain ⟨hcreated, hgrows, hpart⟩ :=
    prepared_mapCreation htyped hbase hmade hmadeLive hmoving hcreate
  have hmap : Known (some map) created := Known.mono hknown hgrows
  obtain ⟨hdeclared, hgrows', -⟩ := hcreated.create hbase
    (by simpa [Kind.children] using hpart) hmap hdeclare
  exact prepared_retypeUses hdeclared hbase hat hlive (hmap.mono hgrows') huses

end Building

/-! ## The local and its uses -/

theorem Use.At.source_mem {use : Use} {other : Tree} (h : use.At other) :
    use.source ∈ other.ids := by
  cases h <;> simp [Use.source]

theorem Use.At.decl_eq {decl source : NodeId} {text : String} {binding : BindingId} {other : Tree}
    (h : (Use.synonym decl text binding source).At other) : other.id = decl := by
  cases h
  rfl

/-- The uses of a table in the statements after a local, and what takes their place. -/
structure Retyping (base : Store) (tree holder old : Tree) (before after : List Tree)
    (pairs : List (Tree × Tree)) : Prop where
  listed : Listed base tree holder old before after
  inside : ∀ pair, pair ∈ pairs → ∃ stmt ∈ after, pair.1 ∈ stmt.subtrees
  olds : ((pairs.map Prod.fst).flatMap Tree.ids).Nodup
  news : ((pairs.map Prod.snd).flatMap Tree.ids).Nodup
  fresh : ∀ pair, pair ∈ pairs → ∀ id, id ∈ pair.2.ids → base.size ≤ id
  retype : ∀ pair, pair ∈ pairs → Retype pair.1.term (some pair.2.term)

namespace Retyping

variable {base : Store} {tree holder old new up below made stmt : Tree} {before after : List Tree}
  {pairs : List (Tree × Tree)} {text : String} {binding : BindingId} {creation : NodeId}

theorem mem_after (h : Retyping base tree holder old before after pairs) {pair : Tree × Tree}
    (hpair : pair ∈ pairs) {id : NodeId} (hid : id ∈ pair.1.ids) : id ∈ after.flatMap Tree.ids := by
  obtain ⟨stmt, hstmt, hin⟩ := h.inside pair hpair
  exact List.mem_flatMap.mpr ⟨stmt, hstmt, Tree.ids_subset_of_mem hin hid⟩

/-- In every subtree that has the list, the uses stand apart from the local. -/
theorem apart (h : Retyping base tree holder old before after pairs) (hbase : base.Hosts tree)
    (hup : up ∈ tree.subtrees) (hholder : holder ∈ up.subtrees) : up.Apart old pairs where
  nodup := Tree.nodup_ids_of_mem hbase.nodup hup
  stays := Tree.slot_mem_subtrees hholder h.listed.old_mem
  old pair hpair := by
    obtain ⟨stmt, hstmt, hin⟩ := h.inside pair hpair
    exact ⟨Tree.mem_subtrees_trans hin (Tree.slot_mem_subtrees hholder (h.listed.slot hstmt)),
      Tree.ne_of_mem_slot hholder (h.listed.slot hstmt) hin,
      (h.listed.apart hbase.nodup ⟨stmt, hstmt, hin⟩).2.2⟩
  olds := h.olds
  news := h.news
  fresh id hid hmem := by
    obtain ⟨new, hnew, hin⟩ := List.mem_flatMap.mp hmem
    obtain ⟨pair, hpair, rfl⟩ := List.mem_map.mp hnew
    exact Nat.not_lt.mpr (h.fresh pair hpair id hin) ((hbase.held.laid.of_mem hup).lt hid)

theorem holder_putAll (h : Retyping base tree holder old before after pairs)
    (hbase : base.Hosts tree) :
    holder.putAll pairs =
      .node holder.id holder.head holder.type (before ++ old :: Tree.putSlots pairs after) := by
  have hslots := List.nodup_append'.mp (h.listed.nodup_slots hbase.nodup)
  have hbefore : Tree.putSlots pairs before = before := by
    refine Tree.putSlots_of_not_mem fun pair hpair hin => ?_
    exact hslots.2.2 hin (List.mem_append_right _ (h.mem_after hpair pair.1.id_mem_ids))
  have hold : Tree.putSlots pairs [old] = [old] := by
    refine Tree.putSlots_of_not_mem fun pair hpair hin => ?_
    refine (List.nodup_append'.mp hslots.2.1).2.2 (by simpa using hin)
      (h.mem_after hpair pair.1.id_mem_ids)
  cases holder with
  | node id head type subs =>
      have hsubs : subs = before ++ ([old] ++ after) := h.listed.subs
      rw [Tree.putAll_node, hsubs, Tree.putSlots_append, Tree.putSlots_append, hbefore, hold]
      rfl

theorem holder_mem (h : Retyping base tree holder old before after pairs)
    (hbase : base.Hosts tree) (new : Tree) :
    .node holder.id holder.head holder.type (before ++ new :: Tree.putSlots pairs after) ∈
      ((tree.putAll pairs).put old.id (some new)).subtrees := by
  have hself := h.listed.mem
  have htree := h.apart hbase tree.mem_subtrees_self hself
  have hlist := (h.apart hbase hself holder.mem_subtrees_self).last.nodup
  rw [h.holder_putAll hbase] at hlist
  have hslots : (holder.putAll pairs).put old.id (some new) =
      .node holder.id holder.head holder.type (before ++ new :: Tree.putSlots pairs after) := by
    rw [h.holder_putAll hbase, Tree.put_node,
      Tree.flatMap_putSlot (Tree.nodup_slots hlist) old.id_mem_ids, Tree.putSlot, if_pos rfl]
    rfl
  have hout : ∀ pair, pair ∈ pairs → holder.id ∉ pair.1.ids := by
    intro pair hpair hin
    refine Tree.id_not_mem_slots (Tree.nodup_ids_of_mem hbase.nodup hself) ?_
    rw [h.listed.subs, List.flatMap_append, List.flatMap_cons]
    exact List.mem_append_right _ (List.mem_append_right _ (h.mem_after hpair hin))
  rw [← hslots]
  refine Tree.mem_subtrees_put_of_not_mem htree.last.nodup htree.last.stays
    (htree.mem_putAll hself hout) ?_
  intro hin
  have hslot : old ∈ (holder.putAll pairs).subs := by
    rw [h.holder_putAll hbase]
    simp
  exact Tree.ne_of_mem_slot (Tree.mem_subtrees_self _) hslot hin rfl

/-- A node in the statements after the local has the type of the map, or it was there before and
no edit covers it. -/
theorem later_cases (h : Retyping base tree holder old before after pairs)
    (hbase : base.Hosts tree) (hstmt : stmt ∈ Tree.putSlots pairs after)
    (hbelow : below ∈ stmt.subtrees) :
    below.type = some mapType ∨ ∃ origin ∈ tree.subtrees, origin.SameNode below ∧
      origin.id ∈ after.flatMap Tree.ids ∧ ∀ pair, pair ∈ pairs → origin.id ∉ pair.1.ids := by
  have happart := h.apart hbase h.listed.mem holder.mem_subtrees_self
  have hlast := happart.last.nodup
  have hin : below ∈ (holder.putAll pairs).subtrees := by
    refine Tree.mem_subtrees_trans hbelow (Tree.sub_mem_subtrees ?_)
    rw [h.holder_putAll hbase]
    simp [hstmt]
  rcases happart.origin hin with ⟨pair, hpair, found, hfound, hsame⟩ |
    ⟨origin, horigin, hsame, hout⟩
  · exact .inl (hsame.2.2 ▸ (h.retype pair hpair).type_eq hfound)
  · refine .inr ⟨origin, Tree.mem_subtrees_trans horigin h.listed.mem, hsame, ?_, hout⟩
    -- the node is not in the part of the list that stays
    rw [h.holder_putAll hbase, Tree.ids_node, List.nodup_cons, List.flatMap_append,
      List.flatMap_cons] at hlast
    have hid : origin.id ∈ (Tree.putSlots pairs after).flatMap Tree.ids :=
      List.mem_flatMap.mpr ⟨stmt, hstmt, hsame.1 ▸ Tree.mem_ids_iff.mpr ⟨below, hbelow, rfl⟩⟩
    have hmem := Tree.mem_ids_iff.mpr ⟨origin, horigin, rfl⟩
    obtain ⟨-, hrest, hbefore⟩ := List.nodup_append'.mp hlast.2
    rw [Tree.ids_eq, h.listed.subs, List.flatMap_append, List.flatMap_cons] at hmem
    rcases List.mem_cons.mp hmem with hroot | hmem
    · exact absurd (hroot ▸ List.mem_append_right _ (List.mem_append_right _ hid)) hlast.1
    · rcases List.mem_append.mp hmem with hmem | hmem
      · exact absurd (List.mem_append_right _ hid) (fun hin => hbefore hmem hin)
      · exact (List.mem_append.mp hmem).resolve_left
          (fun hmem => (List.nodup_append'.mp hrest).2.2 hmem hid)

/-- A node of the whole tree has the type of the map, or it was there before and no edit covers
it. -/
theorem all_cases (h : Retyping base tree holder old before after pairs) (hbase : base.Hosts tree)
    (hsubs : old.subs = [made])
    (hnew : new = .node new.id (.varDecl text (some binding)) (some mapType)
      [.node creation .creation (some mapType) made.subs])
    (hbelow : below ∈ ((tree.putAll pairs).put old.id (some new)).subtrees) :
    below.type = some mapType ∨ ∃ origin ∈ tree.subtrees, origin.SameNode below ∧
      origin.id ≠ old.id ∧ ∀ pair, pair ∈ pairs → origin.id ∉ pair.1.ids := by
  have htree := h.apart hbase tree.mem_subtrees_self h.listed.mem
  have hold : old ∈ tree.subtrees := Tree.slot_mem_subtrees h.listed.mem h.listed.old_mem
  have hne : old ≠ tree.putAll pairs := by
    intro he
    refine Tree.id_ne_of_mem hbase.nodup hold ?_ (by rw [he, Tree.id_putAll])
    exact Tree.ne_of_mem_slot h.listed.mem h.listed.old_mem old.mem_subtrees_self
  rcases Tree.origin_of_mem_put htree.last.nodup htree.last.stays hne hbelow with
    hin | ⟨middle, hmiddle, hsame, hout⟩
  · rw [hnew] at hin
    rcases Tree.mem_subtrees_iff.mp hin with rfl | ⟨sub, hsub, hin⟩
    · exact .inl rfl
    · obtain rfl := List.mem_singleton.mp hsub
      rcases Tree.mem_subtrees_iff.mp hin with rfl | ⟨arg, harg, hin⟩
      · exact .inl rfl
      · -- a node of an argument, which stays
        have hmade : made ∈ old.subs := by rw [hsubs]; exact List.mem_singleton_self _
        have hbelow : below ∈ made.subtrees := Tree.mem_subtrees_of_sub harg hin
        have hmadeIn := Tree.slot_mem_subtrees hold hmade
        refine .inr ⟨below, Tree.mem_subtrees_trans hbelow hmadeIn, ⟨rfl, rfl, rfl⟩, ?_, ?_⟩
        · intro he
          exact Tree.ne_of_mem_slot old.mem_subtrees_self hmade hbelow
            (Tree.eq_of_id_eq hbase.nodup (Tree.mem_subtrees_trans hbelow hmadeIn) hold he)
        · intro pair hpair hid
          obtain ⟨-, -, hdisjoint⟩ := htree.old pair hpair
          exact hdisjoint hid (Tree.mem_ids_iff.mpr
            ⟨below, Tree.mem_subtrees_of_sub hmade hbelow, rfl⟩)
  · rcases htree.origin hmiddle with ⟨pair, hpair, found, hfound, hsame'⟩ |
      ⟨origin, horigin, hsame', houts⟩
    · exact .inl ((hsame'.trans hsame).2.2 ▸ (h.retype pair hpair).type_eq hfound)
    · refine .inr ⟨origin, horigin, hsame'.trans hsame, ?_, houts⟩
      rintro he
      exact hout (hsame'.1 ▸ he ▸ old.id_mem_ids)

theorem untyped_eq (h : Retyping base tree holder old before after pairs)
    (hbase : base.Hosts tree) :
    (Tree.putSlots pairs after).map (fun stmt => stmt.term.untyped) =
      after.map (fun stmt => stmt.term.untyped) := by
  have happart := h.apart hbase h.listed.mem holder.mem_subtrees_self
  have hsame := untyped_eq_of_retouch (Tree.retouch_putAll happart h.retype)
  rw [h.holder_putAll hbase] at hsame
  cases holder with
  | node id head type subs =>
      have hsubs : subs = before ++ old :: after := h.listed.subs
      rw [hsubs] at hsame
      simpa [Term.untyped_node, Function.comp_def] using hsame

end Retyping

/-! ## Nothing is overlooked -/

theorem names_iff {store : Store} {tree : Tree} {locals : BindingId → Prop}
    (h : tree.Legible store) :
    store.Names locals tree.id ↔
      ∃ text binding, tree.head = .name text (some binding) ∧ locals binding := by
  unfold Store.Names
  rw [← h.kind_head]
  cases store.kind tree.id <;> simp [Kind.head]

theorem bound?_eq_some_iff {store : Store} {tree : Tree} {binding : BindingId}
    (h : tree.Legible store) :
    store.bound? tree.id = some binding ↔ ∃ text, tree.head = .varDecl text (some binding) := by
  rw [Store.bound?_eq_some_iff, ← h.kind_head]
  cases store.kind tree.id <;> simp [Kind.head]

/-- The edits cover the names of the locals that hold the table, in the statements after the
first of them, and the declarations of the other ones. -/
structure Covers (base : Store) (tree old : Tree) (within : List NodeId) (binding : BindingId)
    (pairs : List (Tree × Tree)) : Prop where
  names : ∀ id, id ∈ within → base.Names (Reaches base within binding) id →
    ∃ pair ∈ pairs, id ∈ pair.1.ids
  locals : ∀ id, id ∈ tree.ids → ∀ held, base.bound? id = some held →
    Reaches base within binding held → id = old.id ∨ ∃ pair ∈ pairs, id ∈ pair.1.ids

theorem Tracked.covers {base : Store} {tree holder old : Tree} {before after : List Tree}
    {binding : BindingId} {final : Tracking} {pairs : List (Tree × Tree)}
    (h : Tracked base (after.flatMap Tree.ids) binding (after.flatMap Tree.ids) final)
    (hbase : base.Hosts tree) (hfirst : base.DeclaresFirst tree.id)
    (hlisted : Listed base tree holder old before after)
    (hbinding : base.bound? old.id = some binding)
    (hat : List.Forall₂ Use.At final.uses (pairs.map Prod.fst)) :
    Covers base tree old (after.flatMap Tree.ids) binding pairs := by
  have hstretch := hlisted.stretch hbase.held hbase.nodup hfirst
  have hfound : ∀ use, use ∈ final.uses → ∃ pair ∈ pairs, use.At pair.1 := by
    intro use huse
    obtain ⟨other, hother, hother'⟩ := exists_of_mem_right hat.flip huse
    obtain ⟨pair, hpair, rfl⟩ := List.mem_map.mp hother
    exact ⟨pair, hpair, hother'⟩
  refine ⟨?_, ?_⟩
  · intro id hid hnames
    obtain ⟨use, huse, hread⟩ := h.uses id hid hnames
    obtain ⟨pair, hpair, hplace⟩ := hfound use huse
    exact ⟨pair, hpair, source_of_use? hread ▸ hplace.source_mem⟩
  · intro id hid held hbound hreaches
    have hlisting := hbase.preorder
    cases hreaches with
    | self =>
        left
        refine hfirst.once old.id ?_ id (hlisting ▸ hid) (by rw [hbinding]; rfl)
          (hbound.trans hbinding.symm)
        rw [hlisting]
        exact Tree.mem_ids_iff.mpr
          ⟨old, Tree.slot_mem_subtrees hlisted.mem hlisted.old_mem, rfl⟩
    | @synonym decl source text label _ held' declared table kind named holds =>
        right
        have hdecl := Store.bound?_eq_some_iff.mpr ⟨text, some source, kind⟩
        have hsame : id = decl := hfirst.once decl (hlisting ▸ hlisted.sublist.subset declared) id
          (hlisting ▸ hid) (by rw [hdecl]; rfl) (hbound.trans hdecl.symm)
        have hslot : source ∈ base.children decl := by
          simp [Store.children, kind, Kind.children]
        obtain ⟨use, huse, hread⟩ := h.uses source (hstretch.below decl declared source hslot).1
          ⟨label, held', named, holds⟩
        rw [hstretch.use?_of_synonym declared table kind] at hread
        cases hread
        obtain ⟨pair, hpair, hplace⟩ := hfound _ huse
        refine ⟨pair, hpair, ?_⟩
        rw [hsame, ← hplace.decl_eq]
        exact pair.1.id_mem_ids

/-! ## The store after the commit -/

theorem statementList?_of_slots {kind changed : Kind} {first list fresh : List NodeId}
    (hlist : kind.statementList? = some list) (hchildren : kind.children = first ++ list)
    (hhead : changed.head = kind.head) (hchanged : changed.children = first ++ fresh) :
    changed.statementList? = some fresh := by
  have hlength := congrArg List.length hchildren
  rw [List.length_append] at hlength
  cases kind <;> cases hlist <;> cases changed <;> cases hhead
  · obtain rfl := List.length_eq_zero_iff.mp (by simpa [Kind.children] using hlength)
    exact congrArg some hchanged
  · obtain ⟨subject, rfl⟩ := List.length_eq_one_iff.mp (show first.length = 1 by
      simp only [Kind.children, List.length_cons] at hlength
      omega)
    exact congrArg some (List.cons.inj hchanged).2
  · obtain rfl := List.length_eq_zero_iff.mp (by simpa [Kind.children] using hlength)
    exact congrArg some hchanged

theorem kind_varDecl {kind : Kind} {text : String} {binding : Option BindingId} {init : NodeId}
    (hhead : kind.head = .varDecl text binding) (hchildren : kind.children = [init]) :
    kind = .varDecl text binding (some init) := by
  cases kind <;> cases hhead
  next slot =>
    cases slot <;> cases hchildren
    rfl

theorem kind_creation {kind : Kind} (hhead : kind.head = .creation) :
    kind = .creation kind.children := by
  cases kind <;> cases hhead
  rfl

namespace Retyping

variable {base final : Store} {tree holder old new made : Tree} {before after : List Tree}
  {pairs : List (Tree × Tree)} {text : String} {binding : BindingId} {creation : NodeId}

/-- Committing the new declaration together with what takes the place of the uses. -/
theorem commit {drafted : Store} {region : List NodeId}
    (h : Retyping base tree holder old before after pairs) (hbase : base.Hosts tree)
    (hdraft : Draft base region drafted (new :: pairs.map Prod.snd))
    (hplan : Prepared base tree drafted) (hregion : region ⊆ old.subs.flatMap Tree.ids)
    (hnew : base.size ≤ new.id) :
    ∃ final, Build.commit (((old, new) :: pairs).map
        (fun pair => Edit.mk pair.1.id (.replace (.fresh pair.2.id)))) drafted = .ok ((), final) ∧
      final.Hosts ((tree.putAll pairs).put old.id (some new)) := by
  have htree := h.apart hbase tree.mem_subtrees_self h.listed.mem
  have hold : old ∈ tree.subtrees := htree.stays
  have hne : old ≠ tree :=
    Tree.ne_of_mem_slot h.listed.mem h.listed.old_mem old.mem_subtrees_self
  obtain ⟨final, hcommit, hfinal⟩ := @Draft.commit_hosts _ _ _ _ ((old, new) :: pairs) hdraft
    hplan hbase
    (by
      intro pair hpair
      rcases List.mem_cons.mp hpair with rfl | hpair
      · exact hnew
      · exact h.fresh pair hpair _ pair.2.id_mem_ids)
    (by
      intro pair hpair
      rcases List.mem_cons.mp hpair with rfl | hpair
      · exact ⟨hold, hne⟩
      · exact ⟨(htree.old pair hpair).1, (htree.old pair hpair).2.1⟩)
    (by
      rw [List.map_cons, List.flatMap_cons, List.nodup_append']
      refine ⟨Tree.nodup_ids_of_mem hbase.nodup hold, htree.olds, ?_⟩
      intro id hid hmem
      obtain ⟨other, hother, hin⟩ := List.mem_flatMap.mp hmem
      obtain ⟨pair, hpair, rfl⟩ := List.mem_map.mp hother
      exact (htree.old pair hpair).2.2 hin hid)
    (fun id hid => ⟨(old, new), List.mem_cons_self .., hregion hid⟩)
  -- no use is in the declaration, so it may as well be replaced last
  have hlast : ((old, new) :: pairs).foldl (fun tree pair => tree.put pair.1.id (some pair.2))
      tree = (tree.putAll pairs).put old.id (some new) := by
    refine htree.putAll_cons (fun id hid => hbase.held.laid.lt hid) h.fresh ?_
    intro id hid
    refine (hdraft.origin id (List.mem_flatMap.mpr ⟨new, by simp, hid⟩)).imp_right ?_
    exact fun hin => hregion hin
  rw [hlast] at hfinal
  exact ⟨final, hcommit, hfinal⟩

/-- The names in the statements after the local have the type of the map. -/
theorem names_retyped (h : Retyping base tree holder old before after pairs)
    (hbase : base.Hosts tree)
    (hcovers : Covers base tree old (after.flatMap Tree.ids) binding pairs)
    (hfinal : final.Hosts ((tree.putAll pairs).put old.id (some new))) {id : NodeId}
    (hid : id ∈ ((Tree.putSlots pairs after).map Tree.id).flatMap final.preorder)
    (hnames : final.Names (Reaches base (after.flatMap Tree.ids) binding) id) :
    final.typeOf id = some mapType := by
  obtain ⟨item, hitem, hin⟩ := List.mem_flatMap.mp hid
  obtain ⟨stmt, hstmt, rfl⟩ := List.mem_map.mp hitem
  have hstmtIn : stmt ∈ ((tree.putAll pairs).put old.id (some new)).subtrees :=
    Tree.slot_mem_subtrees (h.holder_mem hbase new) (by simp [hstmt])
  have hlegible := hfinal.legible hstmtIn
  rw [hlegible.preorder_eq] at hin
  obtain ⟨below, hbelow, rfl⟩ := Tree.mem_ids_iff.mp hin
  have hbelowLegible := hlegible.of_mem hbelow
  rw [hbelowLegible.typeOf]
  rcases h.later_cases hbase hstmt hbelow with htype | ⟨origin, horigin, hsame, hafter, hout⟩
  · exact htype
  · rw [names_iff hbelowLegible, ← hsame.2.1,
      ← names_iff (hbase.legible horigin)] at hnames
    obtain ⟨pair, hpair, hcovered⟩ := hcovers.names origin.id hafter hnames
    exact absurd hcovered (hout pair hpair)

theorem locals_retyped (h : Retyping base tree holder old before after pairs)
    (hbase : base.Hosts tree)
    (hcovers : Covers base tree old (after.flatMap Tree.ids) binding pairs)
    (hsubs : old.subs = [made])
    (hnew : new = .node new.id (.varDecl text (some binding)) (some mapType)
      [.node creation .creation (some mapType) made.subs])
    (hfinal : final.Hosts ((tree.putAll pairs).put old.id (some new))) {id : NodeId}
    {held : BindingId} (hid : id ∈ final.preorder tree.id) (hbound : final.bound? id = some held)
    (hreaches : Reaches base (after.flatMap Tree.ids) binding held) :
    final.typeOf id = some mapType := by
  have hlisting := hfinal.preorder
  rw [Tree.id_put, Tree.id_putAll] at hlisting
  rw [hlisting] at hid
  obtain ⟨below, hbelow, rfl⟩ := Tree.mem_ids_iff.mp hid
  have hlegible := hfinal.legible hbelow
  rw [hlegible.typeOf]
  rcases h.all_cases hbase hsubs hnew hbelow with htype | ⟨origin, horigin, hsame, hne, hout⟩
  · exact htype
  · rw [bound?_eq_some_iff hlegible, ← hsame.2.1,
      ← bound?_eq_some_iff (hbase.legible horigin)] at hbound
    rcases hcovers.locals origin.id (Tree.mem_ids_iff.mpr ⟨origin, horigin, rfl⟩) held hbound
      hreaches with hself | ⟨pair, hpair, hcovered⟩
    · exact absurd hself hne
    · exact absurd hcovered (hout pair hpair)

/-- The statement list has the new declaration and the changed statements in their places. -/
theorem list_retyped (h : Retyping base tree holder old before after pairs)
    (hbase : base.Hosts tree) (hfinal : final.Hosts ((tree.putAll pairs).put old.id (some new)))
    {first front list : List NodeId} (hlist : (base.kind holder.id).statementList? = some list)
    (hchildren : (base.kind holder.id).children = first ++ list)
    (hbefore : before.map Tree.id = first ++ front) :
    (final.kind holder.id).statementList? =
      some (front ++ new.id :: (Tree.putSlots pairs after).map Tree.id) := by
  have hlegible := hfinal.legible (h.holder_mem hbase new)
  refine statementList?_of_slots hlist hchildren ?_ ?_
  · rw [(hbase.legible h.listed.mem).kind_head]
    exact hlegible.kind_head
  · rw [← List.append_assoc, ← hbefore]
    refine Eq.trans hlegible.children ?_
    simp

theorem statements_retyped (h : Retyping base tree holder old before after pairs)
    (hbase : base.Hosts tree) (hfinal : final.Hosts ((tree.putAll pairs).put old.id (some new))) :
    ((Tree.putSlots pairs after).map Tree.id).map (fun stmt => (final.term stmt).untyped) =
      (after.map Tree.id).map (fun stmt => (base.term stmt).untyped) := by
  rw [List.map_map, List.map_map]
  calc
    _ = (Tree.putSlots pairs after).map (fun stmt => stmt.term.untyped) := by
      refine List.map_congr_left fun stmt hstmt => congrArg Term.untyped ?_
      have hlegible := hfinal.legible
        (Tree.slot_mem_subtrees (h.holder_mem hbase new) (show stmt ∈ _ by simp [hstmt]))
      exact hlegible.term_eq
    _ = after.map (fun stmt => stmt.term.untyped) := h.untyped_eq hbase
    _ = _ := by
      refine List.map_congr_left fun stmt hstmt => congrArg Term.untyped ?_
      have hlegible := hbase.legible (h.listed.mem_subtrees hstmt)
      exact hlegible.term_eq.symm

/-- The new declaration creates a map with the arguments of the table. -/
theorem creation_retyped (h : Retyping base tree holder old before after pairs)
    (hbase : base.Hosts tree) (hsubs : old.subs = [made])
    (hnew : new = .node new.id (.varDecl text (some binding)) (some mapType)
      [.node creation .creation (some mapType) made.subs])
    (hfinal : final.Hosts ((tree.putAll pairs).put old.id (some new))) :
    final.kind new.id = .varDecl text (some binding) (some creation) ∧
      final.kind creation = .creation (made.subs.map Tree.id) ∧
      final.typeOf creation = some mapType ∧
      ∀ arg, arg ∈ made.subs → final.term arg.id = base.term arg.id := by
  have hmem : new ∈ ((tree.putAll pairs).put old.id (some new)).subtrees :=
    Tree.slot_mem_subtrees (h.holder_mem hbase new) (by simp)
  have hlegible := hfinal.legible hmem
  have hhead := hlegible.kind_head
  have hchildren : (final.kind new.id).children = new.subs.map Tree.id := hlegible.children
  have hmade : Tree.node creation .creation (some mapType) made.subs ∈ new.subs := by
    rw [hnew]
    exact List.mem_singleton_self _
  have hmadeLegible := hlegible.sub hmade
  have hmadeHead : (final.kind creation).head = .creation := hmadeLegible.kind_head
  have hmadeChildren : (final.kind creation).children = made.subs.map Tree.id :=
    hmadeLegible.children
  refine ⟨?_, ?_, hmadeLegible.typeOf, fun arg harg => ?_⟩
  · refine kind_varDecl (hhead.trans ?_) (hchildren.trans ?_)
    · rw [hnew]
      rfl
    · rw [hnew]
      rfl
  · rw [kind_creation hmadeHead, hmadeChildren]
  · have hargLegible := hmadeLegible.sub harg
    have hargBefore := hbase.legible (Tree.slot_mem_subtrees
      (Tree.slot_mem_subtrees (Tree.slot_mem_subtrees h.listed.mem h.listed.old_mem)
        (show made ∈ old.subs by rw [hsubs]; simp)) harg)
    rw [hargLegible.term_eq, hargBefore.term_eq]

end Retyping

/-! ## Tables become maps -/

theorem laterStatements?_eq {store : Store} {holder decl : NodeId} {before after : List NodeId}
    (hparent : store.parent decl = some holder)
    (hlist : (store.kind holder).statementList? = some (before ++ decl :: after))
    (hout : decl ∉ before) : laterStatements? store decl = some after := by
  unfold laterStatements?
  rw [hparent, Option.map_some, hlist]
  simp only [List.mem_append, List.mem_cons, true_or, or_true, if_true]
  rw [drop_dropWhile_split hout]

theorem respond_varDecl {store : Store} {options : Options} {decl init : NodeId} {text : String}
    {binding : BindingId} (hlt : decl < store.size)
    (hkind : store.kind decl = .varDecl text (some binding) (some init))
    (htable : isTable store decl = true) (hcreates : isTableCreation store init = true) :
    respond options decl store =
      match localUses? store decl binding with
      | some uses =>
          (retypeLocal decl text binding init uses >>= fun edits => pure (.edit edits)) store
      | none => .ok (.decline, store) := by
  have hbegin : respond options decl store = _ :=
    (Build.bind_ok (Build.run_kindOf hlt)).trans (Build.bind_ok (Build.run_get store))
  rw [hbegin, hkind]
  simp only [htable, hcreates, Bool.and_self, if_true]
  cases localUses? store decl binding <;> rfl

/-- If the walk goes through, the local and the uses it found are replaced by trees of the type
of the map, and the commit leaves them in the tree. -/
theorem exists_retyping {base : Store} {tree holder old made : Tree} {before after : List Tree}
    {text : String} {binding : BindingId} {walked : Tracking} (hbase : base.Hosts tree)
    (hfirst : base.DeclaresFirst tree.id) (hlisted : Listed base tree holder old before after)
    (hsubs : old.subs = [made]) (hbinding : base.bound? old.id = some binding)
    (hwalk : (after.flatMap Tree.ids).foldlM (Tracking.visit base) ⟨[binding], []⟩ = some walked)
    (htracked : Tracked base (after.flatMap Tree.ids) binding (after.flatMap Tree.ids) walked) :
    ∃ edits drafted final creation new pairs,
      retypeLocal old.id text binding made.id walked.uses base = .ok (edits, drafted) ∧
      edits ≠ [] ∧ Build.commit edits drafted = .ok ((), final) ∧
      final.Hosts ((tree.putAll pairs).put old.id (some new)) ∧
      new = .node new.id (.varDecl text (some binding)) (some mapType)
        [.node creation .creation (some mapType) made.subs] ∧
      Retyping base tree holder old before after pairs ∧
      Covers base tree old (after.flatMap Tree.ids) binding pairs := by
  have hold : old ∈ tree.subtrees := Tree.slot_mem_subtrees hlisted.mem hlisted.old_mem
  have hne : old ≠ tree :=
    Tree.ne_of_mem_slot hlisted.mem hlisted.old_mem old.mem_subtrees_self
  have hmadeSlot : made ∈ old.subs := by rw [hsubs]; exact List.mem_singleton_self _
  have hmade := Tree.slot_mem_subtrees hold hmadeSlot
  have hmadeLive := (hbase.held.live_of_mem hbase.nodup hold hne).sub hmadeSlot
  obtain ⟨olds, hat, holdsNodup, hafter⟩ := exists_olds hbase.held hbase.nodup hlisted hwalk
  have holds := fun other hother => hlisted.apart hbase.nodup (hafter other hother)
  have hlive : ∀ other, other ∈ olds → other.Live base := fun other hother =>
    hbase.held.live_of_mem hbase.nodup (holds other hother).1 (holds other hother).2.1
  obtain ⟨drafted, creation, new, news, hrun, hdraft, hnew, hsize, hlength, hpairs⟩ :=
    @run_retypeLocal _ _ old.id text binding _ _ hbase.idle hbase.typed hmadeLive hat hlive
  have hfst : (olds.zip news).map Prod.fst = olds := List.map_fst_zip (by omega)
  have hsnd : (olds.zip news).map Prod.snd = news := List.map_snd_zip (by omega)
  have hretyping : Retyping base tree holder old before after (olds.zip news) := by
    refine ⟨hlisted, fun pair hpair => hafter pair.1 (List.of_mem_zip hpair).1, ?_, ?_,
      fun pair hpair => (hpairs pair hpair).2.2, fun pair hpair => (hpairs pair hpair).1⟩
    · rwa [hfst]
    · have hall := hdraft.apart
      rw [List.flatMap_append] at hall
      rw [hsnd]
      exact hall.of_append_left
  have hregion : made.subs.flatMap Tree.ids ⊆ old.subs.flatMap Tree.ids := by
    intro id hid
    simp only [hsubs, List.flatMap_cons, List.flatMap_nil, List.append_nil]
    exact made.slots_subset_ids hid
  obtain ⟨final, hcommit, hfinal⟩ := hretyping.commit hbase
    (by rw [hsnd]; exact hdraft.perm List.perm_append_comm)
    (prepared_retypeLocal hbase hmade hmadeLive hat hlive hrun) hregion hsize
  exact ⟨_, drafted, final, creation, new, olds.zip news, hrun, List.cons_ne_nil _ _, hcommit,
    hfinal, hnew, hretyping, htracked.covers hbase hfirst hlisted hbinding (by rwa [hfst])⟩

/-- A local that holds a table becomes a local that holds a map exactly if the table stays local:
every name of it, and of the locals that it comes to be held by, has only methods called on it
that the map has too, or initializes such a local.  After the commit all these locals and the
names in the statements after the first declaration have the type of the map, and the map is
created with the arguments of the table. -/
theorem table_becomes_map {store : Store} {root holder decl init : NodeId} {options : Options}
    {text : String} {binding : BindingId} {before after args : List NodeId}
    (htyped : store.TypesKnown) (hvalid : store.ValidAt root) (hfirst : store.DeclaresFirst root)
    (hholder : holder ∈ store.preorder root)
    (hlist : (store.kind holder).statementList? = some (before ++ decl :: after))
    (hkind : store.kind decl = .varDecl text (some binding) (some init))
    (htable : isTable store decl = true) (hinit : store.kind init = .creation args)
    (hcreates : isTable store init = true) :
    ∃ response drafted, respond options decl store = .ok (response, drafted) ∧
      (response.edits ≠ [] ↔ StaysLocal store (after.flatMap store.preorder) binding) ∧
      (response.edits ≠ [] → ∃ final made creation later,
        Build.commit response.edits drafted = .ok ((), final) ∧ final.violations root = [] ∧
        (final.kind holder).statementList? = some (before ++ made :: later) ∧
        later.map (fun stmt => (final.term stmt).untyped) =
          after.map (fun stmt => (store.term stmt).untyped) ∧
        final.kind made = .varDecl text (some binding) (some creation) ∧
        final.kind creation = .creation args ∧ final.typeOf creation = some mapType ∧
        args.map final.term = args.map store.term ∧
        (∀ id, id ∈ later.flatMap final.preorder →
          final.Names (Reaches store (after.flatMap store.preorder) binding) id →
          final.typeOf id = some mapType) ∧
        ∀ id, id ∈ final.preorder root → ∀ held, final.bound? id = some held →
          Reaches store (after.flatMap store.preorder) binding held →
          final.typeOf id = some mapType) := by
  obtain ⟨tree, rfl, hbase⟩ := Store.Hosts.of_violations htyped hvalid.1 hvalid.2
  rw [hbase.preorder] at hholder
  obtain ⟨holder, hin, rfl⟩ := Tree.mem_ids_iff.mp hholder
  obtain ⟨first, hchildren⟩ := children_of_statementList? hlist
  obtain ⟨former, old, later, hlisted, rfl, hformer, rfl⟩ :=
    exists_listed hbase.held hin hlist hchildren
  have hold : old ∈ tree.subtrees := Tree.slot_mem_subtrees hlisted.mem hlisted.old_mem
  have hlegible := hbase.legible hold
  obtain ⟨subs, hform, hids⟩ := hlegible.of_kind hkind
  obtain ⟨made, rfl, rfl⟩ := List.map_eq_singleton_iff.mp hids
  have hsubs : old.subs = [made] := by rw [hform]; rfl
  have hmadeLegible := hlegible.sub (show made ∈ old.subs by rw [hsubs]; simp)
  obtain ⟨argTrees, hmadeForm, rfl⟩ := hmadeLegible.of_kind hinit
  have hmadeSubs : made.subs = argTrees := by rw [hmadeForm]; rfl
  have hlater : laterStatements? store old.id = some (later.map Tree.id) := by
    refine laterStatements?_eq (hbase.held.of_slot hin hlisted.old_mem).link hlist ?_
    intro hbefore
    have hslots := List.nodup_append'.mp (hlisted.nodup_slots hbase.nodup)
    refine hslots.2.2 (Tree.map_id_subset former ?_) (List.mem_append_left _ old.id_mem_ids)
    rw [hformer]
    exact List.mem_append_right _ hbefore
  have hrespond := @respond_varDecl store options _ _ _ _ hlegible.lt hkind htable
    (by rw [isTableCreation, hinit]; exact hcreates)
  have hpreorder := hlisted.preorder hbase.held hbase.nodup
  rw [localUses?, hlater] at hrespond
  simp only [hpreorder] at hrespond ⊢
  rcases (hlisted.stretch hbase.held hbase.nodup hfirst).walk binding with
    ⟨hescapes, hwalk⟩ | ⟨hstays, walked, hwalk, htracked⟩
  · rw [hwalk] at hrespond
    exact ⟨.decline, store, hrespond, iff_of_false (fun hedits => hedits rfl) hescapes,
      fun hedits => absurd rfl hedits⟩
  · obtain ⟨edits, drafted, final, creation, new, pairs, hrun, hedits, hcommit, hfinal, hnew,
      hretyping, hcovers⟩ := @exists_retyping _ _ _ _ _ _ _ text _ _ hbase hfirst hlisted hsubs
        (Store.bound?_eq_some_iff.mpr ⟨text, _, hkind⟩) hwalk htracked
    rw [hwalk] at hrespond
    refine ⟨.edit edits, drafted, hrespond.trans (Build.bind_ok hrun),
      iff_of_true hedits hstays, fun _ => ?_⟩
    obtain ⟨hdeclared, hcreated, htype, hterms⟩ :=
      hretyping.creation_retyped hbase hsubs hnew hfinal
    have hclean := hfinal.violations
    rw [Tree.id_put, Tree.id_putAll] at hclean
    refine ⟨final, new.id, creation, (Tree.putSlots pairs later).map Tree.id, hcommit, hclean,
      hretyping.list_retyped hbase hfinal hlist hchildren hformer,
      hretyping.statements_retyped hbase hfinal, hdeclared, hmadeSubs ▸ hcreated, htype, ?_,
      fun id hid hnames => hretyping.names_retyped hbase hcovers hfinal hid hnames,
      fun id hid held hbound hreaches =>
        hretyping.locals_retyped hbase hcovers hsubs hnew hfinal hid hbound hreaches⟩
    rw [hmadeSubs] at hterms
    simpa using hterms

/-- The unit `Hashtable first = new Hashtable(10); Hashtable second = first; second.size();`. -/
def synonymousTables : Store :=
  { nodes := #[
      ⟨.literal (.int 10), none, some 1, false⟩,
      ⟨.creation [0], some 0, some 2, false⟩,
      ⟨.varDecl "first" (some 0) (some 1), some 0, some 8, false⟩,
      ⟨.name "first" (some 0), some 0, some 4, false⟩,
      ⟨.varDecl "second" (some 1) (some 3), some 0, some 8, false⟩,
      ⟨.name "second" (some 1), some 0, some 6, false⟩,
      ⟨.call (some 5) "size" [], none, some 7, false⟩,
      ⟨.exprStmt 6, none, some 8, false⟩,
      ⟨.unit [2, 4, 7], none, none, false⟩],
    types := ⟨#[{ name := tableType, sort := .reference, supertypes := [] }]⟩ }

/-- Both locals and both names get the type of the map. -/
theorem table_becomes_map_synonymous :
    ∃ response drafted final made creation later,
      respond {} 2 synonymousTables = .ok (response, drafted) ∧
      StaysLocal synonymousTables [4, 3, 7, 6, 5] 0 ∧
      Build.commit response.edits drafted = .ok ((), final) ∧ final.violations 8 = [] ∧
      (final.kind 8).statementList? = some (made :: later) ∧
      final.kind creation = .creation [0] ∧ final.typeOf creation = some mapType ∧
      (∀ id, id ∈ later.flatMap final.preorder →
        final.Names (fun binding => binding = 0 ∨ binding = 1) id →
        final.typeOf id = some mapType) ∧
      ∀ id, id ∈ final.preorder 8 →
        final.bound? id = some 0 ∨ final.bound? id = some 1 → final.typeOf id = some mapType := by
  have hwithin : [4, 7].flatMap synonymousTables.preorder = [4, 3, 7, 6, 5] := by decide +kernel
  have hfirst : Reaches synonymousTables [4, 3, 7, 6, 5] 0 0 := .self
  have hsecond : Reaches synonymousTables [4, 3, 7, 6, 5] 0 1 :=
    .synonym (List.mem_cons_self ..) (by decide +kernel) rfl rfl hfirst
  obtain ⟨response, drafted, hrun, hiff, hall⟩ :=
    @table_becomes_map synonymousTables 8 8 2 1 {} "first" 0 [] [4, 7] [0] (by decide +kernel)
      (by decide +kernel) (by decide +kernel) (by decide +kernel) rfl rfl (by decide +kernel) rfl
      (by decide +kernel)
  obtain ⟨answer, outcome, hanswer, hedits⟩ :=
    @Build.exists_outcome synonymousTables _ (respond {} 2)
      (fun outcome => !outcome.1.edits.isEmpty) (by decide +kernel)
  obtain ⟨rfl, rfl⟩ := Build.ok_unique hrun hanswer
  have hne : response.edits ≠ [] := by simpa using hedits
  obtain ⟨final, made, creation, later, hcommit, hclean, hlist, -, -, hcreated, htype, -, hnames,
    hlocals⟩ := hall hne
  rw [hwithin] at hiff hnames hlocals
  refine ⟨response, drafted, final, made, creation, later, hrun, hiff.mp hne, hcommit, hclean,
    hlist, hcreated, htype, ?_, ?_⟩
  · rintro id hid ⟨text, binding, hkind, hbinding⟩
    refine hnames id hid ⟨text, binding, hkind, ?_⟩
    rcases hbinding with rfl | rfl
    · exact hfirst
    · exact hsecond
  · rintro id hid (hbound | hbound)
    · exact hlocals id hid 0 hbound hfirst
    · exact hlocals id hid 1 hbound hsecond

end LocalTable

end CodeTidy
