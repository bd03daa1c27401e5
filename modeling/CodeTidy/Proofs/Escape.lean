import CodeTidy.Proofs.Rule.LocalTable
import CodeTidy.Proofs.Survival

/-!
# Tables that do not escape

A table stays local if every name of a local that holds it only has methods called on it that
the map has too, or initializes another local of the table's type.  That local then holds the
table as well, and its names count too.  The walk over the statements after the first local
learns of the others on its way.  Where declarations come before names it learns of each local
in time, so that it decides whether the table stays local (`Stretch.walk`).
-/

namespace CodeTidy

/-! ## Declarations before names -/

namespace Store

def bound? (store : Store) (id : NodeId) : Option BindingId :=
  (store.declared? id).join

def Names (store : Store) (locals : BindingId → Prop) (id : NodeId) : Prop :=
  ∃ text binding, store.kind id = .name text (some binding) ∧ locals binding

/-- In the tree below `root` every binding is declared at most once, and its names come after
the declaration. -/
structure DeclaresFirst (store : Store) (root : NodeId) : Prop where
  once : ∀ decl, decl ∈ store.preorder root → ∀ other, other ∈ store.preorder root →
    (store.bound? decl).isSome = true → store.bound? other = store.bound? decl → other = decl
  first : ∀ decl, decl ∈ store.preorder root → ∀ name, name ∈ store.preorder root →
    store.isNameOf (store.bound? decl).toList name = true →
    [decl, name].Sublist (store.preorder root)

instance (store : Store) (root : NodeId) : Decidable (store.DeclaresFirst root) :=
  decidable_of_iff (_ ∧ _) ⟨fun h => ⟨h.1, h.2⟩, fun h => ⟨h.once, h.first⟩⟩

theorem bound?_eq_some_iff {store : Store} {id : NodeId} {binding : BindingId} :
    store.bound? id = some binding ↔
      ∃ text init, store.kind id = .varDecl text (some binding) init := by
  unfold bound? declared?
  cases store.kind id <;> simp

theorem isNameOf_iff {store : Store} {bindings : List BindingId} {id : NodeId} :
    store.isNameOf bindings id = true ↔ store.Names (fun binding => binding ∈ bindings) id := by
  unfold isNameOf Names
  cases hkind : store.kind id with
  | name text binding => cases binding <;> simp
  | _ => simp

end Store

theorem not_sublist_swap {ids : List NodeId} {a b : NodeId} (hnodup : ids.Nodup)
    (h : [a, b].Sublist ids) : ¬ [b, a].Sublist ids := by
  induction ids with
  | nil => cases h
  | cons id ids ih =>
      obtain ⟨hid, hrest⟩ := List.nodup_cons.mp hnodup
      intro hswap
      cases h with
      | cons _ h =>
          cases hswap with
          | cons _ hswap => exact ih hrest h hswap
          | cons_cons _ hswap => exact hid (h.subset (by simp))
      | cons_cons _ h =>
          cases hswap with
          | cons _ hswap => exact hid (hswap.subset (by simp))
          | cons_cons _ hswap => exact hid (h.subset (by simp))

namespace Tree

theorem ids_infix {tree below : Tree} (h : below ∈ tree.subtrees) : below.ids <:+: tree.ids := by
  induction tree with
  | node id head type subs ih =>
      rcases mem_subtrees_iff.mp h with rfl | ⟨sub, hsub, hin⟩
      · exact List.infix_rfl
      · rw [ids_node]
        have hslot : sub.ids <:+: subs.flatMap ids := by
          rw [List.flatMap_def]
          exact List.infix_of_mem_flatten (List.mem_map_of_mem hsub)
        exact ((ih sub hsub hin).trans hslot).trans (List.suffix_cons _ _).isInfix

end Tree

namespace LocalTable

/-! ## Staying local -/

/-- The locals that hold the table of `binding` among the nodes `within`: the local itself, and
every local of the table's type that is initialized by the name of a local that holds it. -/
inductive Reaches (store : Store) (within : List NodeId) (binding : BindingId) :
    BindingId → Prop where
  | self : Reaches store within binding binding
  | synonym {decl source : NodeId} {text label : String} {other held : BindingId}
      (declared : decl ∈ within) (table : isTable store decl = true)
      (kind : store.kind decl = .varDecl text (some other) (some source))
      (named : store.kind source = .name label (some held))
      (holds : Reaches store within binding held) : Reaches store within binding other

/-- Uses of a name that the map supports: a call on it of a method that the map has too, or the
declaration of a local of the table's type that it initializes. -/
inductive Supported (store : Store) (within : List NodeId) (id : NodeId) : Prop where
  | receiver {call : NodeId} {method : String} {args : List NodeId} (calls : call ∈ within)
      (kind : store.kind call = .call (some id) method args)
      (shared : method ∉ tableOnlyMethods) : Supported store within id
  | synonym {decl : NodeId} {text : String} {other : BindingId} (declared : decl ∈ within)
      (table : isTable store decl = true)
      (kind : store.kind decl = .varDecl text (some other) (some id)) : Supported store within id

def StaysLocal (store : Store) (within : List NodeId) (binding : BindingId) : Prop :=
  ∀ id, id ∈ within → store.Names (Reaches store within binding) id →
    Supported store within id

/-! ## Uses -/

/-- The nodes of some statements of a list.  Slots and links agree, links lead out of the
statements only to the list, and the initializer of a local comes before its names. -/
structure Stretch (store : Store) (within : List NodeId) : Prop where
  nodup : within.Nodup
  below : ∀ up, up ∈ within → ∀ child, child ∈ store.children up →
    child ∈ within ∧ store.parent child = some up
  above : ∀ id, id ∈ within → ∀ up, store.parent id = some up →
    up ∈ within ∨ (store.kind up).statementList?.isSome = true
  first : ∀ decl, decl ∈ within → ∀ text other source,
    store.kind decl = .varDecl text (some other) (some source) →
    ∀ label held, store.kind source = .name label (some held) →
    ∀ name, name ∈ within → store.Names (fun binding => binding = other) name →
    name ≠ source → [source, name].Sublist within

variable {store : Store} {within seen rest : List NodeId} {binding : BindingId} {id : NodeId}
  {tracking : Tracking}

theorem isSafeReceiver_iff :
    isSafeReceiver store id = true ↔ ∃ call method args, store.parent id = some call ∧
      store.kind call = .call (some id) method args ∧ method ∉ tableOnlyMethods := by
  unfold isSafeReceiver
  cases hparent : store.parent id with
  | none => simp
  | some up =>
      rw [Option.map_some]
      cases hkind : store.kind up with
      | call receiver method args =>
          constructor
          · intro h
            rw [Bool.and_eq_true] at h
            exact ⟨up, method, args, rfl, by simpa [hkind] using h.1, by simpa using h.2⟩
          · rintro ⟨_, _, _, ⟨⟩, hcall, hmethod⟩
            rw [hkind] at hcall
            cases hcall
            simpa using hmethod
      | _ => simp [hkind]

theorem synonym?_eq_some_iff {use : Use} :
    synonym? store id = some use ↔ ∃ decl text other, store.parent id = some decl ∧
      store.kind decl = .varDecl text (some other) (some id) ∧ isTable store decl = true ∧
      use = .synonym decl text other id := by
  unfold synonym?
  cases hparent : store.parent id with
  | none => simp
  | some up =>
      cases hkind : store.kind up with
      | varDecl text other init =>
          cases other with
          | none => simp [hkind]
          | some other =>
              simp only [hkind]
              constructor
              · intro h
                split at h
                · next hinit =>
                    rw [Bool.and_eq_true, decide_eq_true_eq] at hinit
                    exact ⟨up, text, other, rfl, hinit.1 ▸ hkind, hinit.2,
                      (Option.some.inj h).symm⟩
                · cases h
              · rintro ⟨_, _, _, ⟨⟩, hdecl, htable, rfl⟩
                rw [hkind] at hdecl
                cases hdecl
                simp [htable]
      | _ => simp [hkind]

theorem of_synonym_use {decl source : NodeId} {text : String} {other : BindingId}
    (h : use? store id = some (.synonym decl text other source)) :
    source = id ∧ store.parent id = some decl ∧ isTable store decl = true ∧
      store.kind decl = .varDecl text (some other) (some id) := by
  unfold use? at h
  split at h
  · cases h
  · obtain ⟨_, _, _, hparent, hkind, htable, heq⟩ := synonym?_eq_some_iff.mp h
    cases heq
    exact ⟨rfl, hparent, htable, hkind⟩

namespace Stretch

theorem use?_isSome_iff (h : Stretch store within) (hid : id ∈ within) :
    (use? store id).isSome = true ↔ Supported store within id := by
  constructor
  · intro hsome
    unfold use? at hsome
    split at hsome
    · next hsafe =>
        obtain ⟨call, method, args, hparent, hkind, hmethod⟩ := isSafeReceiver_iff.mp hsafe
        refine .receiver ((h.above id hid call hparent).resolve_right ?_) hkind hmethod
        simp [hkind, Kind.statementList?]
    · obtain ⟨use, huse⟩ := Option.isSome_iff_exists.mp hsome
      obtain ⟨decl, text, other, hparent, hkind, htable, -⟩ := synonym?_eq_some_iff.mp huse
      refine .synonym ((h.above id hid decl hparent).resolve_right ?_) htable hkind
      simp [hkind, Kind.statementList?]
  · intro hsupported
    unfold use?
    cases hsupported with
    | @receiver call method args calls kind shared =>
        have hslot : id ∈ store.children call := by simp [Store.children, kind, Kind.children]
        rw [if_pos (isSafeReceiver_iff.mpr
          ⟨call, method, args, (h.below call calls id hslot).2, kind, shared⟩)]
        rfl
    | @synonym decl text other declared table kind =>
        have hslot : id ∈ store.children decl := by simp [Store.children, kind, Kind.children]
        split
        · rfl
        · exact Option.isSome_iff_exists.mpr ⟨_, synonym?_eq_some_iff.mpr
            ⟨decl, text, other, (h.below decl declared id hslot).2, kind, table, rfl⟩⟩

/-- The use of a name that initializes a local of the table's type is that synonym. -/
theorem use?_of_synonym (h : Stretch store within) {decl : NodeId} {text : String}
    {other : BindingId} (hdecl : decl ∈ within) (htable : isTable store decl = true)
    (hkind : store.kind decl = .varDecl text (some other) (some id)) :
    use? store id = some (.synonym decl text other id) := by
  have hslot : id ∈ store.children decl := by simp [Store.children, hkind, Kind.children]
  have hparent := (h.below decl hdecl id hslot).2
  have hsafe : isSafeReceiver store id ≠ true := by
    intro hsafe
    obtain ⟨call, method, args, hcall, hcallKind, -⟩ := isSafeReceiver_iff.mp hsafe
    rw [hparent] at hcall
    rw [← Option.some.inj hcall, hkind] at hcallKind
    cases hcallKind
  rw [use?, if_neg hsafe]
  exact synonym?_eq_some_iff.mpr ⟨decl, text, other, hparent, hkind, htable, rfl⟩

theorem of_use?_synonym (h : Stretch store within) (hid : id ∈ within) {decl source : NodeId}
    {text : String} {other : BindingId}
    (huse : use? store id = some (.synonym decl text other source)) :
    decl ∈ within ∧ isTable store decl = true ∧
      store.kind decl = .varDecl text (some other) (some id) ∧ source = id := by
  obtain ⟨rfl, hparent, htable, hkind⟩ := of_synonym_use huse
  refine ⟨(h.above _ hid decl hparent).resolve_right ?_, htable, hkind, rfl⟩
  simp [hkind, Kind.statementList?]

end Stretch

/-! ## The walk -/

/-- What is known after the nodes `seen` were visited: only locals that hold the table are
followed, all those among them that `seen` initializes, and all uses in `seen` are recorded. -/
structure Tracked (store : Store) (within : List NodeId) (binding : BindingId)
    (seen : List NodeId) (tracking : Tracking) : Prop where
  self : binding ∈ tracking.locals
  sound : ∀ held, held ∈ tracking.locals → Reaches store within binding held
  closed : ∀ decl, decl ∈ within → isTable store decl = true → ∀ text other source,
    store.kind decl = .varDecl text (some other) (some source) → source ∈ seen →
    store.Names (Reaches store within binding) source → other ∈ tracking.locals
  uses : ∀ id, id ∈ seen → store.Names (Reaches store within binding) id →
    ∃ use ∈ tracking.uses, use? store id = some use

namespace Tracked

theorem start : Tracked store within binding [] ⟨[binding], []⟩ where
  self := List.mem_singleton_self _
  sound held hheld := List.mem_singleton.mp hheld ▸ .self
  closed := by simp
  uses := by simp

/-- A local that holds the table is followed when one of its names is visited. -/
theorem follows (h : Tracked store within binding seen tracking) (hstretch : Stretch store within)
    (hsplit : within = seen ++ id :: rest) {text : String} {held : BindingId}
    (hkind : store.kind id = .name text (some held))
    (hreaches : Reaches store within binding held) : held ∈ tracking.locals := by
  have hid : id ∈ within := by simp [hsplit]
  induction hreaches with
  | self => exact h.self
  | @synonym decl source text' label other held declared table kind named holds ih =>
      by_cases hsame : id = source
      · -- a local that is initialized by its own name
        rw [← hsame, hkind] at named
        cases named
        exact ih hkind
      · refine h.closed decl declared table text' other source kind ?_ ⟨label, held, named, holds⟩
        have hbefore := hstretch.first decl declared text' other source kind label held named id
          hid ⟨text, other, hkind, rfl⟩ hsame
        have hsource : source ∈ within := hbefore.subset (by simp)
        rw [hsplit, List.mem_append, List.mem_cons] at hsource
        rcases hsource with hseen | rfl | hrest
        · exact hseen
        · exact absurd rfl hsame
        · refine absurd ?_ (not_sublist_swap hstretch.nodup hbefore)
          rw [hsplit]
          exact ((List.singleton_sublist.mpr hrest).cons_cons id).trans
            (List.sublist_append_right _ _)

theorem isNameOf_iff (h : Tracked store within binding seen tracking)
    (hstretch : Stretch store within) (hsplit : within = seen ++ id :: rest) :
    store.isNameOf tracking.locals id = true ↔
      store.Names (Reaches store within binding) id := by
  rw [Store.isNameOf_iff]
  constructor
  · rintro ⟨text, held, hkind, hheld⟩
    exact ⟨text, held, hkind, h.sound held hheld⟩
  · rintro ⟨text, held, hkind, hheld⟩
    exact ⟨text, held, hkind, h.follows hstretch hsplit hkind hheld⟩

/-- A name that is supported is recorded, and the local it initializes is followed. -/
theorem add (h : Tracked store within binding seen tracking) (hstretch : Stretch store within)
    (hid : id ∈ within) (hnames : store.Names (Reaches store within binding) id) {use : Use}
    (huse : use? store id = some use) :
    Tracked store within binding (seen ++ [id]) (tracking.add use) := by
  have hlocals : tracking.locals ⊆ (tracking.add use).locals := by
    cases use with
    | receiver name => exact fun _ hheld => hheld
    | synonym decl text other source => exact List.subset_cons_self _ _
  have huses : (tracking.add use).uses = tracking.uses ++ [use] := by cases use <;> rfl
  refine ⟨hlocals h.self, ?_, ?_, ?_⟩
  · intro held hheld
    cases use with
    | receiver name => exact h.sound held hheld
    | synonym decl text other source =>
        rcases List.mem_cons.mp hheld with rfl | hheld
        · obtain ⟨label, source', hkind, hreaches⟩ := hnames
          obtain ⟨hdecl, htable, hdeclKind, rfl⟩ := hstretch.of_use?_synonym hid huse
          exact .synonym hdecl htable hdeclKind hkind hreaches
        · exact h.sound held hheld
  · intro decl hdecl htable text other source hkind hsource hreaches
    rcases List.mem_append.mp hsource with hseen | hlast
    · exact hlocals (h.closed decl hdecl htable text other source hkind hseen hreaches)
    · obtain rfl := List.mem_singleton.mp hlast
      rw [hstretch.use?_of_synonym hdecl htable hkind] at huse
      cases huse
      exact List.mem_cons_self ..
  · intro other hother hreaches
    rcases List.mem_append.mp hother with hseen | hlast
    · obtain ⟨found, hfound, hread⟩ := h.uses other hseen hreaches
      exact ⟨found, by rw [huses]; exact List.mem_append_left _ hfound, hread⟩
    · obtain rfl := List.mem_singleton.mp hlast
      exact ⟨use, by rw [huses]; simp, huse⟩

theorem skip (h : Tracked store within binding seen tracking)
    (hnames : ¬ store.Names (Reaches store within binding) id) :
    Tracked store within binding (seen ++ [id]) tracking := by
  refine ⟨h.self, h.sound, ?_, ?_⟩
  · intro decl hdecl htable text other source hkind hsource hreaches
    rcases List.mem_append.mp hsource with hseen | hlast
    · exact h.closed decl hdecl htable text other source hkind hseen hreaches
    · exact absurd (List.mem_singleton.mp hlast ▸ hreaches) hnames
  · intro other hother hreaches
    rcases List.mem_append.mp hother with hseen | hlast
    · exact h.uses other hseen hreaches
    · exact absurd (List.mem_singleton.mp hlast ▸ hreaches) hnames

/-- A visit goes on unless the table escapes at the node. -/
theorem visit (h : Tracked store within binding seen tracking) (hstretch : Stretch store within)
    (hsplit : within = seen ++ id :: rest) :
    (store.Names (Reaches store within binding) id ∧ ¬ Supported store within id ∧
      tracking.visit store id = none) ∨
    ((store.Names (Reaches store within binding) id → Supported store within id) ∧
      ∃ next, tracking.visit store id = some next ∧
        Tracked store within binding (seen ++ [id]) next) := by
  have hid : id ∈ within := by simp [hsplit]
  have hiff := h.isNameOf_iff hstretch hsplit
  unfold Tracking.visit
  by_cases hnames : store.Names (Reaches store within binding) id
  · rw [if_pos (hiff.mpr hnames)]
    cases huse : use? store id with
    | none =>
        have hunsupported : ¬ Supported store within id := by
          rw [← hstretch.use?_isSome_iff hid, huse]
          simp
        exact .inl ⟨hnames, hunsupported, rfl⟩
    | some use =>
        have hsupported : Supported store within id := by
          rw [← hstretch.use?_isSome_iff hid, huse]
          rfl
        exact .inr ⟨fun _ => hsupported, _, rfl, h.add hstretch hid hnames huse⟩
  · rw [if_neg (fun hname => hnames (hiff.mp hname))]
    exact .inr ⟨fun hin => absurd hin hnames, tracking, rfl, h.skip hnames⟩

/-- The rest of a walk goes through unless the table escapes in it. -/
theorem run (h : Tracked store within binding seen tracking) (hstretch : Stretch store within)
    (hsplit : within = seen ++ rest) :
    ((∃ id ∈ rest, store.Names (Reaches store within binding) id ∧ ¬ Supported store within id) ∧
      rest.foldlM (Tracking.visit store) tracking = none) ∨
    ((∀ id, id ∈ rest → store.Names (Reaches store within binding) id →
        Supported store within id) ∧
      ∃ final, rest.foldlM (Tracking.visit store) tracking = some final ∧
        Tracked store within binding within final) := by
  induction rest generalizing seen tracking with
  | nil =>
      rw [List.append_nil] at hsplit
      exact .inr ⟨by simp, tracking, rfl, hsplit ▸ h⟩
  | cons id rest ih =>
      rw [List.foldlM_cons]
      rcases h.visit hstretch hsplit with ⟨hnames, hunsupported, hvisit⟩ |
        ⟨hsupported, next, hvisit, hnext⟩
      · exact .inl ⟨⟨id, List.mem_cons_self .., hnames, hunsupported⟩, by rw [hvisit]; rfl⟩
      · rw [hvisit]
        rcases ih hnext (by rw [hsplit]; simp) with ⟨⟨other, hother, hescapes⟩, hfold⟩ |
          ⟨hall, final, hfold, hfinal⟩
        · exact .inl ⟨⟨other, List.mem_cons_of_mem _ hother, hescapes⟩, hfold⟩
        · refine .inr ⟨?_, final, hfold, hfinal⟩
          intro other hother
          rcases List.mem_cons.mp hother with rfl | hother
          · exact hsupported
          · exact hall other hother

end Tracked

/-- The walk over the statements goes through exactly if the table stays local. -/
theorem Stretch.walk (h : Stretch store within) (binding : BindingId) :
    (¬ StaysLocal store within binding ∧
      within.foldlM (Tracking.visit store) ⟨[binding], []⟩ = none) ∨
    (StaysLocal store within binding ∧
      ∃ final, within.foldlM (Tracking.visit store) ⟨[binding], []⟩ = some final ∧
        Tracked store within binding within final) := by
  rcases Tracked.start.run h rfl with ⟨⟨id, hid, hnames, hunsupported⟩, hfold⟩ | hstays
  · exact .inl ⟨fun hstays => hunsupported (hstays id hid hnames), hfold⟩
  · exact .inr hstays

/-! ## The statements after a local -/

section Statements

variable {tree holder old : Tree} {before after : List Tree} {owner : Option NodeId}

/-- The initializer of a local is listed right after the declaration. -/
theorem Listed.initializer_infix (h : Listed store tree holder old before after)
    (hheld : tree.Held store owner) (hnodup : tree.ids.Nodup) {decl source : NodeId}
    {text label : String} {other held : Option BindingId} (hdecl : decl ∈ after.flatMap Tree.ids)
    (hkind : store.kind decl = .varDecl text other (some source))
    (hsource : store.kind source = .name label held) :
    [decl, source] <:+: after.flatMap Tree.ids := by
  obtain ⟨stmt, hstmt, hin⟩ := List.mem_flatMap.mp hdecl
  obtain ⟨found, hfound, rfl⟩ := Tree.mem_ids_iff.mp hin
  have hlegible := Tree.Legible.of_held hheld hnodup
    (Tree.mem_subtrees_trans hfound (h.mem_subtrees hstmt))
  obtain ⟨subs, hform, hids⟩ := hlegible.of_kind hkind
  obtain ⟨init, rfl, rfl⟩ := List.map_eq_singleton_iff.mp hids
  have hslot : init ∈ found.subs := by
    rw [hform]
    exact List.mem_singleton_self _
  obtain ⟨parts, hinitForm, hparts⟩ := (hlegible.sub hslot).of_kind hsource
  have hnone : parts = [] := List.map_eq_nil_iff.mp hparts
  have hfoundIds : found.ids = [found.id, init.id] := by
    rw [hform, hinitForm, hnone]
    rfl
  rw [← hfoundIds, List.flatMap_def]
  exact (Tree.ids_infix hfound).trans (List.infix_of_mem_flatten (List.mem_map_of_mem hstmt))

theorem Listed.sublist (h : Listed store tree holder old before after) :
    (after.flatMap Tree.ids).Sublist tree.ids := by
  refine List.Sublist.trans ?_ (Tree.ids_infix h.mem).sublist
  rw [Tree.ids_eq, h.subs, List.flatMap_append, List.flatMap_cons]
  exact (((List.suffix_append _ _).trans (List.suffix_append _ _)).trans
    (List.suffix_cons _ _)).sublist

/-- In the statements after an item of a list, links lead up to the list, and initializers
come before names if declarations do. -/
theorem Listed.stretch (h : Listed store tree holder old before after)
    (hheld : tree.Held store owner) (hnodup : tree.ids.Nodup)
    (hfirst : store.DeclaresFirst tree.id) : Stretch store (after.flatMap Tree.ids) where
  nodup := hnodup.sublist h.sublist
  below up hup child hchild := by
    obtain ⟨stmt, hstmt, hin⟩ := List.mem_flatMap.mp hup
    have hslot := hheld.of_slot h.mem (h.slot hstmt)
    exact ⟨List.mem_flatMap.mpr ⟨stmt, hstmt, hslot.laid.children_subset hin hchild⟩,
      (hslot.owned hin hchild).1⟩
  above id hid up hup := by
    obtain ⟨stmt, hstmt, hin⟩ := List.mem_flatMap.mp hid
    have hslot := hheld.of_slot h.mem (h.slot hstmt)
    by_cases hroot : id = stmt.id
    · right
      have hlink := hslot.link
      rw [← hroot, hup] at hlink
      rw [Option.some.inj hlink]
      exact h.list
    · exact .inl (List.mem_flatMap.mpr ⟨stmt, hstmt, hslot.parent_mem_ids hin hroot hup⟩)
  first decl hdecl text other source hkind label held hsource name hname hnames hne := by
    have hlisting : store.preorder tree.id = tree.ids := hheld.laid.preorder_eq hnodup
    have hbound := Store.bound?_eq_some_iff.mpr ⟨text, some source, hkind⟩
    have hbefore := hfirst.first decl (hlisting ▸ h.sublist.subset hdecl) name
      (hlisting ▸ h.sublist.subset hname) (by
        rw [hbound, Store.isNameOf_iff]
        simpa using hnames)
    rw [hlisting] at hbefore
    obtain ⟨former, later, hsplit⟩ := h.initializer_infix hheld hnodup hdecl hkind hsource
    rw [← hsplit, List.append_assoc] at hname ⊢
    rcases List.mem_append.mp hname with hformer | hname
    · -- a name before the declaration
      have hswap : [name, decl].Sublist (after.flatMap Tree.ids) := by
        rw [← hsplit, List.append_assoc]
        exact (List.singleton_sublist.mpr hformer).append
          (List.singleton_sublist.mpr (List.mem_cons_self ..))
      exact absurd (hswap.trans h.sublist) (not_sublist_swap hnodup hbefore)
    · rcases List.mem_cons.mp hname with rfl | hname
      · obtain ⟨_, _, hself, -⟩ := hnames
        rw [hkind] at hself
        cases hself
      · have hlater := (List.mem_cons.mp hname).resolve_left hne
        exact (((List.singleton_sublist.mpr hlater).cons_cons source).trans
          (List.sublist_cons_self decl _)).trans (List.sublist_append_right _ _)

end Statements

end LocalTable

end CodeTidy
