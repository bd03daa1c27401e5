import CodeTidy.Proofs.Anticipation

/-!
# Building a replacement

Every call that constructs a node, wraps one or negates one carries the plan of a replacement on
(`Carries`), so there is one at every store that is `Built` from the live tree by such calls and
by taking subtrees below the target.
-/

namespace CodeTidy

/-! ## Calls that construct -/

section Calls

variable {base store later : Store} {old : Tree} {taken : List NodeId} {α β : Type}

/-- A replacement of `old` is prepared: there is a workpiece. -/
def Prepared (base : Store) (old : Tree) (plan : Store) : Prop :=
  ∃ region trees, Workpiece base old plan region trees

theorem Prepared.start (hmoves : base.moves = []) (hknown : base.TypesKnown) :
    Prepared base old base := by
  have hmoving : base.moving = [] := by rw [Store.moving, hmoves, List.map_nil]
  refine ⟨[], [], .start hmoves hknown, by simp [hmoving], by simp [hmoving], by simp, ?_⟩
  intro id hnew hlt
  exact absurd hlt (Nat.not_lt.mpr hnew)

/-- A replacement of `old` is being built out of new nodes and of the subtrees at `taken`. -/
def Underway (base : Store) (old : Tree) (taken : List NodeId) (store : Store) : Prop :=
  ∃ plan, store.Anticipates plan ∧ (∀ id, id ∈ plan.moving ↔ id ∈ taken) ∧ Prepared base old plan

/-- A call that, if it returns, carries the plan on and takes nothing. -/
def Carries (base : Store) (old : Tree) (taken : List NodeId) (store : Store) (call : Build α)
    (post : α → Store → Prop) : Prop :=
  ∀ value later, Underway base old taken store → call store = .ok (value, later) →
    store.Grows later ∧ post value later ∧ Underway base old taken later

abbrev Part (base : Store) (old : Tree) (id : NodeId) (store : Store) : Prop :=
  base.IsPart (old.subs.flatMap Tree.ids) store id

def Known (type : Option TypeId) (store : Store) : Prop :=
  ∀ number, type = some number → ∃ desc, store.types.get? number = some desc

namespace Carries

theorem pure {value : α} {post : α → Store → Prop} (h : post value store) :
    Carries base old taken store (Pure.pure value) post := by
  intro result later hpiece hrun
  cases hrun
  exact ⟨.refl _, h, hpiece⟩

theorem fail (fault : Fault) {post : α → Store → Prop} :
    Carries base old taken store (throw fault) post := by
  intro value later hpiece hrun
  cases hrun

theorem bind {first : Build α} {next : α → Build β} {mid : α → Store → Prop}
    {post : β → Store → Prop} (h : Carries base old taken store first mid)
    (hnext : ∀ value later, store.Grows later → mid value later →
      Carries base old taken later (next value) post) :
    Carries base old taken store (first >>= next) post := by
  intro result later hpiece hrun
  obtain ⟨value, middle, hfirst, hrest⟩ := Build.exists_of_bind_ok hrun
  obtain ⟨hgrows, hmid, hpiece'⟩ := h value middle hpiece hfirst
  obtain ⟨hgrows', hpost, hlast⟩ := hnext value middle hgrows hmid result later hpiece' hrest
  exact ⟨hgrows.trans hgrows', hpost, hlast⟩

theorem map {call : Build α} {f : α → β} {mid : α → Store → Prop} {post : β → Store → Prop}
    (h : Carries base old taken store call mid)
    (hpost : ∀ value later, mid value later → post (f value) later) :
    Carries base old taken store (f <$> call) post := by
  rw [map_eq_pure_bind]
  exact h.bind (fun value later _ hmid => pure (hpost value later hmid))

/-! ### Primitives -/

theorem create {kind : Kind} {type : Option TypeId} (hold : old.Rooted base)
    (hparts : ∀ child, child ∈ kind.children → Part base old child store)
    (htype : Known type store) :
    Carries base old taken store (Build.create kind type) (Part base old) := by
  rintro id later ⟨plan, hplan, htaken, region, trees, hpiece⟩ hrun
  obtain ⟨after, hrun', hafter⟩ := hplan.create hrun
  have hparts' : ∀ child, child ∈ kind.children → Part base old child plan := fun child hchild =>
    ⟨hplan.size ▸ (hparts child hchild).lt, (hparts child hchild).source⟩
  have htype' : Known type plan := fun number hnumber => hplan.types ▸ htype number hnumber
  obtain ⟨rfl, hsize, hgrows, hmoving, hlast⟩ := hpiece.create hold hparts' htype' hrun'
  refine ⟨hplan.grows hafter hgrows, ⟨?_, .inl hpiece.draft.grows.size⟩, after, hafter, ?_, _,
    hlast⟩
  · rw [← hafter.size, hsize]
    exact Nat.lt_succ_self _
  · rw [hmoving]
    exact htaken

theorem intern (desc : TypeDesc) :
    Carries base old taken store (Build.internType desc)
      (fun number => Known (some number)) := by
  rintro number later ⟨plan, hplan, htaken, region, trees, hpiece⟩ hrun
  obtain ⟨after, hrun', hafter⟩ := hplan.intern hrun
  obtain ⟨hgrows, hmoving, hnumber, hlast⟩ := hpiece.intern hrun'
  refine ⟨hplan.grows hafter hgrows, ?_, after, hafter, hmoving ▸ htaken, region, trees, hlast⟩
  intro other he
  cases he
  exact ⟨desc, hafter.types ▸ hnumber⟩

theorem here : Carries base old taken store (get : Build Store) (fun _ _ => True) := by
  intro found later hpiece hrun
  cases hrun
  exact ⟨.refl _, trivial, hpiece⟩

theorem lookup (id : NodeId) :
    Carries base old taken store (Build.lookup id) (fun found later => found = later.node id) := by
  intro found later hpiece hrun
  obtain ⟨rfl, rfl⟩ := Build.lookup_cases hrun
  exact ⟨.refl _, rfl, hpiece⟩

theorem kindOf (id : NodeId) : Carries base old taken store (Build.kindOf id) (fun _ _ => True) :=
  (lookup id).bind (fun _ _ _ _ => pure trivial)

theorem typeIdOf (id : NodeId) : Carries base old taken store (Build.typeIdOf id) Known := by
  apply (lookup id).bind
  rintro found later - rfl type last ⟨plan, hplan, htaken, region, trees, hpiece⟩ hrun
  cases hrun
  refine ⟨.refl _, fun number hnumber => ?_, plan, hplan, htaken, region, trees, hpiece⟩
  rw [← hplan.types]
  exact hpiece.draft.typed id number ((hplan.type id).trans hnumber)

theorem create_typed {kind : Kind} {desc : TypeDesc} (hold : old.Rooted base)
    (hparts : ∀ child, child ∈ kind.children → Part base old child store) :
    Carries base old taken store
      (Build.internType desc >>= fun type => Build.create kind (some type))
      (Part base old) := by
  apply (intern desc).bind
  intro number later hgrows hknown
  exact create hold (fun child hchild => (hparts child hchild).mono hgrows.size) hknown

theorem create_like (kind : Kind) (hold : old.Rooted base)
    (hparts : ∀ child, child ∈ kind.children → Part base old child store) (model : NodeId) :
    Carries base old taken store (Build.typeIdOf model >>= fun type => Build.create kind type)
      (Part base old) := by
  apply (typeIdOf model).bind
  intro type later hgrows hknown
  exact create hold (fun child hchild => (hparts child hchild).mono hgrows.size) hknown

/-! ### Constructors -/

variable {id : NodeId}

theorem paren (hold : old.Rooted base) (hid : Part base old id store) :
    Carries base old taken store (Build.paren id) (Part base old) :=
  create_like (.paren id) hold (by simpa [Kind.children] using hid) id

theorem parenthesize (hold : old.Rooted base) (hid : Part base old id store) (outer : Nat) :
    Carries base old taken store (Build.parenthesize id outer) (Part base old) := by
  apply (kindOf id).bind
  intro kind later hgrows _
  have hid' := hid.mono hgrows.size
  dsimp only
  split
  · exact paren hold hid'
  · exact pure hid'

theorem parenthesizeFor (hold : old.Rooted base) (hid : Part base old id store) (target : NodeId) :
    Carries base old taken store (Build.parenthesizeFor id target) (Part base old) := by
  apply (lookup target).bind
  intro _ later hgrows _
  apply (here).bind
  intro found last hgrows' _
  have hid' := hid.mono (hgrows.trans hgrows').size
  split
  · exact parenthesize hold hid' _
  · exact pure hid'

theorem prefixed (hold : old.Rooted base) (hid : Part base old id store) (op : PrefixOp) :
    Carries base old taken store (Build.prefixed op id) (Part base old) := by
  have hparts : ∀ child, child ∈ (Kind.prefixed op id).children →
      Part base old child store := by simpa [Kind.children] using hid
  cases op with
  | not => exact create_typed hold hparts
  | _ => exact create_like _ hold hparts id

theorem not (hold : old.Rooted base) (hid : Part base old id store) :
    Carries base old taken store (Build.not id) (Part base old) :=
  (parenthesize hold hid Strength.unary).bind (fun _ _ _ hinner => prefixed hold hinner .not)

theorem chain {operands : List NodeId} (hold : old.Rooted base)
    (hids : ∀ id, id ∈ operands → Part base old id store) (op : InfixOp) :
    Carries base old taken store (Build.chain op operands) (Part base old) := by
  rcases operands with _ | ⟨first, _ | ⟨second, rest⟩⟩
  · exact fail _
  · exact fail _
  · simp only [Build.chain]
    split
    · simp only [pure_bind]
      exact create_typed hold hids
    · exact create_like (.chain op _) hold hids first

theorem mapM {ids : List NodeId} {call : NodeId → Build NodeId}
    (hcall : ∀ id store, Part base old id store →
      Carries base old taken store (call id) (Part base old))
    (hids : ∀ id, id ∈ ids → Part base old id store) :
    Carries base old taken store (ids.mapM call)
      (fun made later => ∀ id, id ∈ made → Part base old id later) := by
  induction ids generalizing store with
  | nil => exact pure (by simp)
  | cons id ids ih =>
      rw [List.mapM_cons]
      apply (hcall id store (hids id (by simp))).bind
      intro first later hgrows hfirst
      apply (ih (fun other hother =>
        (hids other (List.mem_cons_of_mem _ hother)).mono hgrows.size)).bind
      intro rest last hgrows' hrest
      refine pure (fun other hother => ?_)
      rcases List.mem_cons.mp hother with rfl | hother
      · exact hfirst.mono hgrows'.size
      · exact hrest other hother

theorem join {operands : List NodeId} (hold : old.Rooted base)
    (hids : ∀ id, id ∈ operands → Part base old id store) (op : InfixOp) :
    Carries base old taken store (Build.join op operands) (Part base old) := by
  rcases operands with _ | ⟨first, _ | ⟨second, rest⟩⟩
  · exact fail _
  · exact pure (hids first (by simp))
  · apply (mapM (fun id store hid => parenthesize hold hid op.strength) hids).bind
    intro wrapped later hgrows hwrapped
    exact chain hold hwrapped op

theorem assign {target value : NodeId} (hold : old.Rooted base)
    (hids : ∀ id, id ∈ [target, value] → Part base old id store) :
    Carries base old taken store (Build.assign target value) (Part base old) :=
  create_like (.assign none target value) hold hids target

theorem qualified {qualifier simple : NodeId} (hold : old.Rooted base)
    (hids : ∀ id, id ∈ [qualifier, simple] → Part base old id store) :
    Carries base old taken store (Build.qualified qualifier simple) (Part base old) :=
  create_like (.qualified qualifier simple) hold hids simple

theorem name (hold : old.Rooted base) (text : String) :
    Carries base old taken store (Build.name text none none) (Part base old) :=
  create hold (by simp [Kind.children]) (by intro number h; cases h)

theorem segments (hold : old.Rooted base) (hid : Part base old id store) (segments : List String) :
    Carries base old taken store (segments.foldlM Build.appendSegment id) (Part base old) := by
  induction segments generalizing store id with
  | nil => exact pure hid
  | cons segment segments ih =>
      rw [List.foldlM_cons]
      have hnext : Carries base old taken store (Build.appendSegment id segment)
          (Part base old) := by
        apply (name hold segment).bind
        intro simple later hgrows hsimple
        exact qualified hold (by simpa using ⟨hid.mono hgrows.size, hsimple⟩)
      exact hnext.bind (fun _ _ _ hmade => ih hmade)

theorem typeName (hold : old.Rooted base) (dotted : String) :
    Carries base old taken store (Build.typeName dotted) (Part base old) :=
  (name hold (Dotted.segments dotted).1).bind
    (fun _ _ _ hstart => segments hold hstart (Dotted.segments dotted).2)

theorem call {receiver : Option NodeId} {args : List NodeId} (hold : old.Rooted base)
    (hids : ∀ id, id ∈ receiver.toList ++ args → Part base old id store) (method : String) :
    Carries base old taken store (Build.call receiver method args) (Part base old) := by
  have hreceiver : Carries base old taken store
      (receiver.mapM (fun target => Build.parenthesize target Strength.primary))
      (fun made later => ∀ id, id ∈ made.toList → Part base old id later) := by
    cases receiver with
    | none => exact pure (by simp)
    | some target =>
        exact (parenthesize hold (hids target (by simp)) Strength.primary).map
          (fun made later hmade => by simpa using hmade)
  have htype : ∀ later, Carries base old taken later
      ((Build.resultType? method).mapM Build.internType) Known := by
    intro later
    cases Build.resultType? method with
    | none => exact pure (by intro number h; cases h)
    | some desc => exact (intern desc).map (fun _ _ hknown => hknown)
  apply hreceiver.bind
  intro made later hgrows hmade
  apply (htype later).bind
  intro type last hgrows' hknown
  refine create hold (fun child hchild => ?_) hknown
  rcases List.mem_append.mp hchild with hchild | hchild
  · exact (hmade child hchild).mono hgrows'.size
  · exact (hids child (List.mem_append_right _ hchild)).mono (hgrows.trans hgrows').size

end Carries

end Calls

/-! ## Negating -/

/-- Whether the negation of a node takes it apart, and does not put a `!` in front. -/
def Store.breaksApart (store : Store) (id : NodeId) (invert : Bool) : Bool :=
  match store.kind (store.unparenthesized id) with
  | .prefixed .not _ => true
  | .literal (.bool _) => true
  | .chain op [_, _] => invert && op.inverse?.isSome
  | _ => false

/-- The nodes in the slots of what stands inside the parentheses. -/
def Store.innerSlots (store : Store) (id : NodeId) : List NodeId :=
  store.children (store.unparenthesized id)

/-- A child that can be taken apart.  A taken one is unclaimed, and a new one belongs to nobody
and has no node of the live tree inside its parentheses. -/
def Child.IsWhole (base store : Store) : Child → Prop
  | .moved id => store.claim? id = some none
  | .fresh id => store.parent id = none ∧ store.isErased id = false ∧
      base.size ≤ store.unparenthesized id

instance (base store : Store) (whole : Child) : Decidable (whole.IsWhole base store) :=
  match whole with
  | .moved _ => inferInstanceAs (Decidable (_ = _))
  | .fresh _ => inferInstanceAs (Decidable (_ ∧ _))

/-- What is taken once a child was taken apart: in the place of a taken child its parts. -/
def Child.retaken (store : Store) (taken : List NodeId) : Child → List NodeId
  | .moved id => store.innerSlots id ++ taken.filter (fun other => other != id)
  | .fresh _ => taken

namespace Build

variable {store later : Store} {whole : Child} {invert : Bool} {id : NodeId}

theorem negate_eq_not (hlt : whole.node < store.size)
    (h : store.breaksApart whole.node invert = false) :
    negate whole invert store = not whole.node store := by
  unfold negate
  rw [bind_ok (run_lookup hlt), bind_ok (run_get store)]
  unfold Store.breaksApart at h
  cases hkind : store.kind (store.unparenthesized whole.node) with
  | prefixed op operand =>
      cases op with
      | not => simp [hkind] at h
      | _ => rfl
  | literal value =>
      cases value with
      | bool value => simp [hkind] at h
      | _ => rfl
  | chain op operands =>
      rcases operands with _ | ⟨left, _ | ⟨right, _ | _⟩⟩
      · rfl
      · rfl
      · have hnone : (if invert = true then op.inverse? else none) = none := by
          cases invert with
          | false => rfl
          | true => simpa [hkind] using h
        simp only [hnone]
      · rfl
  | _ => rfl

inductive Finishes (parts : List NodeId) : Build NodeId → Prop where
  | part {id : NodeId} (mem : id ∈ parts) : Finishes parts (return id)
  | literal (value : Bool) : Finishes parts (boolLit value)
  | inverse (op : InfixOp) : Finishes parts (chain op parts)

theorem dissolve_nil (hrun : release whole store = .ok ((), later)) :
    dissolve whole [] store = .ok ([], later) := by
  cases whole with
  | moved id =>
      cases hrun
      rfl
  | fresh id => exact (bind_ok hrun : (release (.fresh id) >>= fun _ => pure []) store = _)

theorem nodes_dissolve {ids : List NodeId} {children : List Child}
    (hrun : dissolve whole ids store = .ok (children, later)) : children.map Child.node = ids := by
  cases whole with
  | moved id =>
      obtain ⟨⟨⟩, middle, -, htakes⟩ := exists_of_bind_ok hrun
      clear hrun
      induction ids generalizing middle children with
      | nil =>
          cases htakes
          rfl
      | cons id ids ih =>
          rw [List.mapM_cons] at htakes
          obtain ⟨child, next, htake, htakes⟩ := exists_of_bind_ok htakes
          obtain ⟨rest, last, hrest, htakes⟩ := exists_of_bind_ok htakes
          cases htakes
          rw [run_take] at htake
          split at htake <;> cases htake
          rw [List.map_cons, ih _ hrest]
          rfl
  | fresh id =>
      obtain ⟨⟨⟩, middle, -, hrest⟩ := exists_of_bind_ok hrun
      obtain ⟨⟨⟩, last, -, hrest⟩ := exists_of_bind_ok hrest
      cases hrest
      rw [List.map_map]
      exact List.map_id ids

theorem negate_cases (hlt : whole.node < store.size)
    (h : store.breaksApart whole.node invert = true)
    (hrun : negate whole invert store = .ok (id, later)) :
    ∃ children middle finish, dissolve whole (store.innerSlots whole.node) store =
        .ok (children, middle) ∧
      Finishes (store.innerSlots whole.node) finish ∧ finish middle = .ok (id, later) := by
  unfold negate at hrun
  rw [bind_ok (run_lookup hlt), bind_ok (run_get store)] at hrun
  unfold Store.breaksApart at h
  unfold Store.innerSlots Store.children
  cases hkind : store.kind (store.unparenthesized whole.node) with
  | prefixed op operand =>
      cases op with
      | not =>
          simp only [hkind] at hrun
          obtain ⟨children, middle, hdissolve, hrun⟩ := exists_of_bind_ok hrun
          exact ⟨children, middle, _, hdissolve, .part (List.mem_singleton_self operand), hrun⟩
      | _ => simp [hkind] at h
  | literal value =>
      cases value with
      | bool value =>
          simp only [hkind] at hrun
          obtain ⟨⟨⟩, middle, hrelease, hrun⟩ := exists_of_bind_ok hrun
          exact ⟨[], middle, _, dissolve_nil hrelease, .literal _, hrun⟩
      | _ => simp [hkind] at h
  | chain op operands =>
      rcases operands with _ | ⟨left, _ | ⟨right, _ | _⟩⟩
      · simp [hkind] at h
      · simp [hkind] at h
      · simp only [hkind, Bool.and_eq_true] at h
        obtain ⟨inverse, hinverse⟩ := Option.isSome_iff_exists.mp h.2
        simp only [hkind, h.1, if_true, hinverse] at hrun
        obtain ⟨children, middle, hdissolve, hrun⟩ := exists_of_bind_ok hrun
        rw [nodes_dissolve hdissolve] at hrun
        exact ⟨children, middle, _, hdissolve, .inverse inverse, hrun⟩
      · simp [hkind] at h
  | _ => simp [hkind] at h

theorem erase_cases (hrun : erase id store = .ok ((), later)) : later = store.erase id := by
  obtain ⟨found, same, hlookup, hmodify⟩ := exists_of_bind_ok hrun
  obtain ⟨rfl, rfl⟩ := lookup_cases hlookup
  cases hmodify
  rfl

theorem forM_clearParent_cases {ids : List NodeId}
    (hrun : (ids.forM (fun part => do
      let _ ← lookup part
      modify (fun store => store.clearParent part)) : Build Unit) store = .ok ((), later)) :
    later = store.clearParents ids := by
  induction ids generalizing store with
  | nil =>
      cases hrun
      rfl
  | cons part ids ih =>
      obtain ⟨⟨⟩, middle, hfirst, hrest⟩ := exists_of_bind_ok hrun
      obtain ⟨found, same, hlookup, hmodify⟩ := exists_of_bind_ok hfirst
      obtain ⟨rfl, rfl⟩ := lookup_cases hlookup
      cases hmodify
      exact ih hrest

theorem dissolve_fresh_cases {ids : List NodeId} {children : List Child}
    (hrun : dissolve (.fresh id) ids store = .ok (children, later)) :
    later = (store.clearParents ids).erase id := by
  obtain ⟨⟨⟩, middle, hclear, hrest⟩ := exists_of_bind_ok hrun
  obtain ⟨⟨⟩, last, herase, hrest⟩ := exists_of_bind_ok hrest
  cases hrest
  rw [erase_cases herase, forM_clearParent_cases hclear]

end Build

section Negations

variable {base store later : Store} {old : Tree} {taken : List NodeId} {whole : Child}
  {invert : Bool} {id : NodeId}

section Whole

variable {plan : Store} {region : List NodeId} {trees : List Tree} {children : List Child}
  (hplan : store.Anticipates plan) (hold : old.Rooted base)

include hplan hold in
/-- A child that can be taken apart is the root of a loose tree of the plan. -/
theorem Child.IsWhole.exists_tree (hpiece : Workpiece base old plan region trees)
    (hpart : Part base old whole.node store) (hwhole : whole.IsWhole base store) :
    ∃ tree rest, Workpiece base old plan region (tree :: rest) ∧ tree.id = whole.node ∧
      store.unparenthesized whole.node = tree.bare.id ∧
      store.innerSlots whole.node = tree.bare.subs.map Tree.id := by
  have hfree : base.IsFree plan whole.node := by
    cases whole with
    | moved id => exact .inr ((hplan.stands id).of_moving hwhole).2
    | fresh id =>
        obtain ⟨hnone, hlive, -⟩ := hwhole
        cases hplan.stands id with
        | planned parent claim =>
            have hnone' : plan.parent id = none := parent ▸ hnone
            exact .inl ⟨hpiece.new_of_parentless hold ⟨hplan.size ▸ hpart.lt, hpart.source⟩ hnone',
              hnone', (hplan.isErased id).trans hlive⟩
        | adopted _ _ parent =>
            exact absurd (hnone.symm.trans parent) (Option.some_ne_none _).symm
        | handed _ claim => exact .inr claim
  obtain ⟨tree, htree, hid⟩ :=
    List.mem_map.mp (hpiece.mem_roots (hplan.size ▸ hpart.lt) hfree)
  obtain ⟨front, back, rfl⟩ := List.append_of_mem htree
  have hpiece := hpiece.perm List.perm_middle
  have hlegible := hplan.legible (hpiece.draft.legible (List.mem_cons_self ..))
  have hinner : store.unparenthesized whole.node = tree.bare.id := hid ▸ hlegible.unparenthesized
  refine ⟨tree, front ++ back, hpiece, hid, hinner, ?_⟩
  rw [Store.innerSlots, hinner]
  exact hlegible.bare.children

variable {tree : Tree} (hpiece : Workpiece base old plan region (tree :: trees))

include hplan hold hpiece in
theorem Underway.dissolve_moved (hclaim : store.claim? tree.id = some none)
    (hrun : Build.dissolve (.moved tree.id) (tree.bare.subs.map Tree.id) store =
      .ok (children, later)) :
    ∃ after, later.Anticipates after ∧ plan.Grows after ∧ Prepared base old after ∧
      ∀ x, x ∈ after.moving ↔
        x ∈ tree.bare.subs.map Tree.id ∨ (x ∈ plan.moving ∧ x ≠ tree.id) := by
  obtain ⟨after, region', hrun', hmoving, hlast⟩ := hpiece.dissolve_moved hold
    ((hplan.stands _).of_moving hclaim).2
    (fun sub hsub => Tree.slot_mem_subtrees tree.bare_mem_subtrees hsub)
    (Tree.nodup_slots (Tree.nodup_ids_of_mem hpiece.nodup_tree tree.bare_mem_subtrees))
  have htakes := (Build.bind_ok (Build.run_modify _ store)).symm.trans hrun
  have htakes' := (Build.bind_ok (Build.run_modify _ plan)).symm.trans hrun'
  obtain ⟨-, hafter⟩ := (hplan.forgetMove hclaim).mapM_take htakes htakes'
  obtain ⟨hnodes, htypes, -⟩ := Build.mapM_take_cases htakes'
  exact ⟨after, hafter,
    ⟨Nat.le_of_eq (congrArg Array.size hnodes.symm), fun _ _ hknown => htypes ▸ hknown⟩,
    ⟨region', _, hlast⟩, hmoving⟩

include hplan hold hpiece in
theorem Underway.dissolve_fresh (hinner : base.size ≤ tree.bare.id)
    (hrun : Build.dissolve (.fresh tree.id) (tree.bare.subs.map Tree.id) store =
      .ok (children, later)) :
    ∃ after, later.Anticipates after ∧ plan.Grows after ∧ Prepared base old after ∧
      after.moving = plan.moving := by
  obtain rfl := Build.dissolve_fresh_cases hrun
  exact ⟨_, hplan.dismantled hpiece hold hinner, Store.grows_brokenUp,
    ⟨region, _, hpiece.brokenUp hold hinner⟩, Store.moving_brokenUp plan tree⟩

end Whole

/-- Taking a child apart carries the plan on, and its parts can be placed. -/
theorem Underway.dissolve {children : List Child} (h : Underway base old taken store)
    (hold : old.Rooted base) (hpart : Part base old whole.node store)
    (hwhole : whole.IsWhole base store)
    (hrun : Build.dissolve whole (store.innerSlots whole.node) store = .ok (children, later)) :
    store.Grows later ∧ (∀ part, part ∈ store.innerSlots whole.node → Part base old part later) ∧
      Underway base old (whole.retaken store taken) later := by
  obtain ⟨plan, hplan, htaken, region, trees, hpiece⟩ := h
  obtain ⟨tree, rest, hpiece, hid, hinner, hslots⟩ := hwhole.exists_tree hplan hold hpiece hpart
  obtain ⟨after, hafter, hgrows, hprepared, hmoving⟩ : ∃ after, later.Anticipates after ∧
      plan.Grows after ∧ Prepared base old after ∧
      ∀ x, x ∈ after.moving ↔ x ∈ whole.retaken store taken := by
    rw [hslots] at hrun
    cases whole with
    | moved id =>
        obtain rfl : tree.id = id := hid
        obtain ⟨after, hafter, hgrows, hprepared, hmoving⟩ :=
          Underway.dissolve_moved hplan hold hpiece hwhole hrun
        refine ⟨after, hafter, hgrows, hprepared, fun x => ?_⟩
        rw [hmoving, Child.retaken, List.mem_append, show store.innerSlots tree.id = _ from hslots,
          List.mem_filter, htaken, bne_iff_ne]
    | fresh id =>
        obtain rfl : tree.id = id := hid
        obtain ⟨after, hafter, hgrows, hprepared, hmoving⟩ :=
          Underway.dissolve_fresh hplan hold hpiece (hinner ▸ hwhole.2.2) hrun
        exact ⟨after, hafter, hgrows, hprepared, fun x => hmoving ▸ htaken x⟩
  refine ⟨hplan.grows hafter hgrows, fun part hin => ?_, after, hafter, hmoving, hprepared⟩
  rw [hslots] at hin
  obtain ⟨sub, hsub, rfl⟩ := List.mem_map.mp hin
  have hpart := hpiece.part_of_mem hold (List.mem_cons_self ..) (Tree.ids_subset_of_mem
    (Tree.slot_mem_subtrees tree.bare_mem_subtrees hsub) sub.id_mem_ids)
  exact ⟨hafter.size ▸ Nat.lt_of_lt_of_le hpart.lt hgrows.size, hpart.source⟩

/-- Going on with the parts constructs at most one node. -/
theorem Build.Finishes.carries {parts : List NodeId} {finish : Build NodeId}
    (h : Build.Finishes parts finish) (hold : old.Rooted base)
    (hparts : ∀ part, part ∈ parts → Part base old part store) :
    Carries base old taken store finish (Part base old) := by
  cases h with
  | part mem => exact .pure (hparts _ mem)
  | literal value => exact .create_typed hold (by simp [Kind.children])
  | inverse op => exact .chain hold hparts op

theorem Underway.negate (h : Underway base old taken store) (hold : old.Rooted base)
    (hpart : Part base old whole.node store)
    (happart : store.breaksApart whole.node invert = true) (hwhole : whole.IsWhole base store)
    (hrun : Build.negate whole invert store = .ok (id, later)) :
    Underway base old (whole.retaken store taken) later := by
  obtain ⟨children, middle, finish, hdissolve, hfinish, hrest⟩ :=
    Build.negate_cases hpart.lt happart hrun
  obtain ⟨-, hparts, hmiddle⟩ := h.dissolve hold hpart hwhole hdissolve
  exact (hfinish.carries hold hparts _ _ hmiddle hrest).2.2

end Negations

/-! ## Building step by step -/

/-- The calls that construct one node or wrap one, with the nodes and the types they are
given.  The other constructors are `create` of one kind. -/
inductive Construction : Build NodeId → List NodeId → List TypeId → Prop where
  | create (kind : Kind) (type : Option TypeId) :
      Construction (Build.create kind type) kind.children type.toList
  | boolLit (value : Bool) : Construction (Build.boolLit value) [] []
  | intLit (value : Int) : Construction (Build.intLit value) [] []
  | charLit (value : Char) : Construction (Build.charLit value) [] []
  | stringLit (value : String) : Construction (Build.stringLit value) [] []
  | qualified (qualifier simple : NodeId) :
      Construction (Build.qualified qualifier simple) [qualifier, simple] []
  | typeName (dotted : String) : Construction (Build.typeName dotted) [] []
  | paren (inner : NodeId) : Construction (Build.paren inner) [inner] []
  | parenthesize (expr : NodeId) (outer : Nat) :
      Construction (Build.parenthesize expr outer) [expr] []
  | parenthesizeFor (expr slot : NodeId) :
      Construction (Build.parenthesizeFor expr slot) [expr] []
  | prefixed (op : PrefixOp) (operand : NodeId) :
      Construction (Build.prefixed op operand) [operand] []
  | not (operand : NodeId) : Construction (Build.not operand) [operand] []
  | chain (op : InfixOp) (operands : List NodeId) :
      Construction (Build.chain op operands) operands []
  | join (op : InfixOp) (operands : List NodeId) :
      Construction (Build.join op operands) operands []
  | assign (target value : NodeId) : Construction (Build.assign target value) [target, value] []
  | call (receiver : Option NodeId) (method : String) (args : List NodeId) :
      Construction (Build.call receiver method args) (receiver.toList ++ args) []

/-- The stores that are reached by building a replacement of `target`: by constructing and
negating nodes around parts, and by taking subtrees below the target, none below another.  The
list names the nodes that are taken. -/
inductive Built (base : Store) (target : NodeId) : List NodeId → Store → Prop where
  | start : Built base target [] base
  | intern {taken : List NodeId} {store later : Store} {desc : TypeDesc} {type : TypeId}
      (before : Built base target taken store)
      (run : Build.internType desc store = .ok (type, later)) : Built base target taken later
  | construct {taken : List NodeId} {store later : Store} {make : Build NodeId}
      {nodes : List NodeId} {types : List TypeId} {id : NodeId}
      (before : Built base target taken store) (call : Construction make nodes types)
      (parts : ∀ node, node ∈ nodes → base.IsPart (base.preorder target).tail store node)
      (known : ∀ type, type ∈ types → ∃ desc, store.types.get? type = some desc)
      (run : make store = .ok (id, later)) : Built base target taken later
  | negate {taken : List NodeId} {store later : Store} {whole : Child} {invert : Bool}
      {id : NodeId} (before : Built base target taken store)
      (part : base.IsPart (base.preorder target).tail store whole.node)
      (kept : store.breaksApart whole.node invert = false)
      (run : Build.negate whole invert store = .ok (id, later)) : Built base target taken later
  | negateApart {taken : List NodeId} {store later : Store} {whole : Child} {invert : Bool}
      {id : NodeId} (before : Built base target taken store)
      (part : base.IsPart (base.preorder target).tail store whole.node)
      (apart : store.breaksApart whole.node invert = true) (free : whole.IsWhole base store)
      (run : Build.negate whole invert store = .ok (id, later)) :
      Built base target (whole.retaken store taken) later
  | take {taken : List NodeId} {store later : Store} {id : NodeId} {child : Child}
      (before : Built base target taken store) (below : id ∈ (base.preorder target).tail)
      (apart : ∀ root, root ∈ taken → id ∉ base.preorder root ∧ root ∉ base.preorder id)
      (run : Build.take id store = .ok (child, later)) : Built base target (id :: taken) later

theorem Construction.carries {make : Build NodeId} {nodes : List NodeId} {types : List TypeId}
    {base store : Store} {old : Tree} (h : Construction make nodes types) (hold : old.Rooted base)
    (hparts : ∀ node, node ∈ nodes → Part base old node store)
    (hknown : ∀ type, type ∈ types → ∃ desc, store.types.get? type = some desc) :
    Carries base old taken store make (Part base old) := by
  cases h with
  | create kind type =>
      exact .create hold hparts (fun number he => hknown number (by simp [he]))
  | boolLit value => exact .create_typed hold hparts
  | intLit value => exact .create_typed hold hparts
  | charLit value => exact .create_typed hold hparts
  | stringLit value => exact .create_typed hold hparts
  | qualified qualifier simple => exact .qualified hold hparts
  | typeName dotted => exact .typeName hold dotted
  | paren inner => exact .paren hold (hparts inner (by simp))
  | parenthesize expr outer => exact .parenthesize hold (hparts expr (by simp)) outer
  | parenthesizeFor expr slot => exact .parenthesizeFor hold (hparts expr (by simp)) slot
  | prefixed op operand => exact .prefixed hold (hparts operand (by simp)) op
  | not operand => exact .not hold (hparts operand (by simp))
  | chain op operands => exact .chain hold hparts op
  | join op operands => exact .join hold hparts op
  | assign target value => exact .assign hold hparts
  | call receiver method args => exact .call hold hparts method

/-- Taking a subtree below the target that has no node in common with the taken ones. -/
theorem Underway.take {base store later : Store} {old : Tree} {taken : List NodeId} {id : NodeId}
    {child : Child} (h : Underway base old taken store) (hold : old.Rooted base)
    (hbelow : id ∈ old.subs.flatMap Tree.ids)
    (hapart : ∀ root, root ∈ taken → id ∉ base.preorder root ∧ root ∉ base.preorder id)
    (hrun : Build.take id store = .ok (child, later)) :
    Underway base old (id :: taken) later := by
  obtain ⟨plan, hplan, htaken, region, trees, hpiece⟩ := h
  have hout : id ∉ plan.moving := by
    intro hmoving
    obtain ⟨part, -, rfl, -, hlive⟩ := Workpiece.exists_live hold hbelow
    refine (hapart part.id ((htaken _).mp hmoving)).1 ?_
    rw [hlive.preorder]
    exact part.id_mem_ids
  have hidle : plan.isMoving id = false := by
    rw [← Store.claim?_isSome, Option.isSome_eq_false_iff, Option.isNone_iff_eq_none,
      Store.claim?_eq_none_iff]
    rintro move hmove rfl
    exact hout (List.mem_map_of_mem hmove)
  have hrun' : Build.take id plan = .ok (.moved id, plan.requestMove id) := by
    rw [Build.run_take, if_neg (by simp [hidle])]
  obtain ⟨-, hafter⟩ := hplan.take hrun hrun'
  obtain ⟨region', trees', hlast⟩ := hpiece.take hold hbelow
    (fun root hroot => hapart root ((htaken root).mp hroot)) hrun'
  refine ⟨_, hafter, fun x => ?_, region', trees', hlast⟩
  have hmoving : (plan.requestMove id).moving = id :: plan.moving := rfl
  rw [hmoving, List.mem_cons, List.mem_cons, htaken]

/-- There is a plan at every store that is reached by building. -/
theorem Built.underway {base store : Store} {old : Tree} {taken : List NodeId}
    (h : Built base old.id taken store) (hold : old.Rooted base) (hmoves : base.moves = [])
    (hknown : base.TypesKnown) : Underway base old taken store := by
  have hregion : (base.preorder old.id).tail = old.subs.flatMap Tree.ids := by
    rw [hold.preorder, Tree.ids_eq, List.tail_cons]
  induction h with
  | start =>
      have hmoving : base.moving = [] := by rw [Store.moving, hmoves, List.map_nil]
      exact ⟨base, .refl base, by simp [hmoving], .start hmoves hknown⟩
  | intern _ run ih => exact (Carries.intern _ _ _ ih run).2.2
  | construct _ call parts known run ih =>
      refine (call.carries hold (fun node hnode => ?_) known _ _ ih run).2.2
      have hpart := parts node hnode
      rwa [hregion] at hpart
  | negate _ part kept run ih =>
      rw [hregion] at part
      rw [Build.negate_eq_not part.lt kept] at run
      exact (Carries.not hold part _ _ ih run).2.2
  | negateApart _ part apart free run ih =>
      rw [hregion] at part
      exact ih.negate hold part apart free run
  | take _ below apart run ih => exact ih.take hold (hregion ▸ below) apart run

/-! ## When everything has found a place -/

/-- A taken node that has found a place: a new node has claimed it or owns it already. -/
def Store.IsPlaced (base store : Store) (id : NodeId) : Prop :=
  ∃ holder, base.size ≤ holder ∧ store.isErased holder = false ∧
    (store.claim? id = some (some holder) ∨ store.parent id = some holder)

/-- A node that has found a place, or can be placed, waits in the plan only if it waits in the
store. -/
theorem Store.Anticipates.open_of_placed {base store plan : Store} {old : Tree}
    {region news : List NodeId} {trees : List Tree} {id : NodeId} (h : store.Anticipates plan)
    (hpiece : Workpiece base old plan region trees) (hold : old.Rooted base)
    (hfree : ∀ new, new ∈ news → base.IsFree store new)
    (hplaced : id ∈ news ∨ base.IsPlaced store id) (hclaim : plan.claim? id = some none) :
    id ∈ news ∧ store.claim? id = some none := by
  have hmove := Store.mem_of_claim? hclaim
  obtain ⟨owner, hlt, howner⟩ :=
    hpiece.owned_of_below hold (hpiece.below id (List.mem_map.mpr ⟨_, hmove, rfl⟩))
  rcases hplaced with hnew | ⟨holder, hge, hlive, hheld⟩
  · refine ⟨hnew, (hfree id hnew).resolve_left fun hfresh => ?_⟩
    obtain ⟨hbase, -⟩ := hpiece.draft.moving _ hmove
    exact Nat.not_lt.mpr hfresh.1 hbase
  · exfalso
    cases h.stands id with
    | planned parent claim =>
        rcases hheld with hclaimed | hparent
        · rw [claim, hclaim] at hclaimed
          cases hclaimed
        · rw [parent, howner] at hparent
          cases hparent
          exact Nat.not_lt.mpr hge hlt
    | adopted _ claim => rw [hclaim] at claim; cases claim
    | handed _ _ parent void =>
        rcases hheld with hclaimed | hparent
        · obtain ⟨other, hother, hgone⟩ := void _ hclaimed
          cases hother
          rw [hlive] at hgone
          cases hgone
        · rw [parent] at hparent
          cases hparent

/-- If every taken node has found a place, or is one of `news`, the commit sees what was
planned. -/
theorem Underway.exists_plan {base store : Store} {old : Tree} {taken news : List NodeId}
    (h : Underway base old taken store) (hold : old.Rooted base)
    (hfree : ∀ new, new ∈ news → base.IsFree store new)
    (hplaced : ∀ id, id ∈ taken → id ∈ news ∨ base.IsPlaced store id) :
    ∃ plan, store.Anticipates plan ∧ (∀ id, id ∈ plan.moving ↔ id ∈ taken) ∧
      Prepared base old plan ∧ (∀ new, new ∈ news → base.IsFree plan new) ∧
      (∀ move, move ∈ plan.moves → move.claim = none → move.node ∈ news) ∧
      ∀ edits, Build.commit edits store = Build.commit edits plan := by
  obtain ⟨plan, hplan, htaken, region, trees, hpiece⟩ := h
  have hopen : ∀ id, plan.claim? id = some none → id ∈ news ∧ store.claim? id = some none := by
    intro id hclaim
    have hmoving : id ∈ plan.moving := Store.mem_moving_of_claim? hclaim
    exact hplan.open_of_placed hpiece hold hfree (hplaced id ((htaken id).mp hmoving)) hclaim
  refine ⟨plan, hplan, htaken, ⟨region, trees, hpiece⟩,
    fun new hnew => hplan.isFree (hfree new hnew), fun move hmove hnone => ?_,
    Build.commit_eq_of_settle ?_⟩
  · exact (hopen _ (hnone ▸ Store.claim?_eq_some hpiece.draft.once hmove)).1
  · refine hplan.settle_eq hpiece.draft.once (fun id hid => ?_)
      (fun id hclaim => (hopen id hclaim).2)
    obtain ⟨move, hmove, rfl⟩ := List.mem_map.mp hid
    exact hpiece.draft.moved_lt hmove

end CodeTidy
