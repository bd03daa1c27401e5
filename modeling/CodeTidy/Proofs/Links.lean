import CodeTidy.Proofs.Ownership
import CodeTidy.Store.Build

/-!
# Parent links while a rule builds

A rule builds new nodes around subtrees that it takes from the live tree.  A taken
subtree keeps its parent link until the claims are settled.  `Store.link` is the
link a node will have then, and `Store.node_settle` says so.  The other lemmas give
the effect of each primitive on nodes, claims and links.
-/

namespace CodeTidy

namespace Store

variable {store : Store}

/-! ## Single changes -/

theorem node_modify {id : NodeId} (f : Node → Node) (h : id < store.size) (other : NodeId) :
    (store.modify id f).node other = if id = other then f (store.node other)
      else store.node other := by
  split
  · next he => subst he; exact store.node_modify_self f h
  · next hne => exact store.node_modify_of_ne f hne

theorem size_setParent (store : Store) (id owner : NodeId) :
    (store.setParent id owner).size = store.size :=
  store.size_modify _ _

theorem get_eq_ok {id : NodeId} (h : id < store.size) : store.get id = .ok (store.node id) := by
  have hsome : store.nodes[id]? = some store.nodes[id] := Array.getElem?_eq_getElem h
  simp [Store.get, Store.node, Array.getD_eq_getD_getElem?, hsome]

/-! ## Claims and links -/

theorem claim?_eq_none_iff {id : NodeId} :
    store.claim? id = none ↔ ∀ move, move ∈ store.moves → move.node ≠ id := by
  simp [claim?]

theorem claim?_eq_some {move : Move} (hnodup : (store.moves.map Move.node).Nodup)
    (hmem : move ∈ store.moves) : store.claim? move.node = some move.claim := by
  unfold claim?
  generalize hmoves : store.moves = moves at hnodup hmem
  clear hmoves
  induction moves with
  | nil => cases hmem
  | cons first rest ih =>
      rw [List.map_cons, List.nodup_cons] at hnodup
      rcases List.mem_cons.mp hmem with rfl | hrest
      · simp
      · have hne : first.node ≠ move.node := fun he =>
          hnodup.1 (he ▸ List.mem_map_of_mem hrest)
        have hbeq : (first.node == move.node) = false := beq_eq_false_iff_ne.mpr hne
        rw [List.find?_cons, hbeq]
        exact ih hnodup.2 hrest

theorem mem_of_claim? {id : NodeId} {claim : Option NodeId} (h : store.claim? id = some claim) :
    ⟨id, claim⟩ ∈ store.moves := by
  obtain ⟨move, hfind, hclaim⟩ := Option.map_eq_some_iff.mp h
  have hid : move.node = id := by simpa using List.find?_some hfind
  have hmove : move = ⟨id, claim⟩ := by
    cases move
    simp_all
  exact hmove ▸ List.mem_of_find?_eq_some hfind

/-- The parent link of a node after the claims are settled. -/
def link (store : Store) (id : NodeId) : Option NodeId :=
  match store.claim? id with
  | some (some holder) => some holder
  | _ => store.parent id

theorem link_of_unclaimed {id : NodeId} (h : store.claim? id = none ∨ store.claim? id = some none) :
    store.link id = store.parent id := by
  unfold link
  rcases h with h | h <;> rw [h]

theorem link_of_claimed {id holder : NodeId} (h : store.claim? id = some (some holder)) :
    store.link id = some holder := by
  unfold link
  rw [h]

theorem node_foldl_setParent {moves : List Move} (hnodup : (moves.map Move.node).Nodup)
    (hlt : ∀ move, move ∈ moves → move.node < store.size) (id : NodeId) :
    (moves.foldl (fun rest move =>
        match move.claim with
        | some holder => rest.setParent move.node holder
        | none => rest) store).node id =
      match (moves.find? (fun move => move.node == id)).map Move.claim with
      | some (some holder) => { store.node id with parent := some holder }
      | _ => store.node id := by
  induction moves generalizing store with
  | nil => rfl
  | cons move rest ih =>
      rw [List.map_cons, List.nodup_cons] at hnodup
      rw [List.foldl_cons]
      by_cases hid : move.node = id
      · have hrest : rest.find? (fun other => other.node == id) = none := by
          rw [List.find?_eq_none]
          intro other hother heq
          have hother' : other.node = id := by simpa using heq
          exact hnodup.1 (hid ▸ hother' ▸ List.mem_map_of_mem hother)
        have hbeq : (move.node == id) = true := by simpa using hid
        rw [List.find?_cons, hbeq]
        cases hclaim : move.claim with
        | none =>
            rw [ih hnodup.2 (fun m hm => hlt m (List.mem_cons_of_mem _ hm)), hrest]
            simp [hclaim]
        | some holder =>
            have hlt' : ∀ m, m ∈ rest → m.node < (store.setParent move.node holder).size :=
              fun m hm => (store.size_setParent _ _).symm ▸ hlt m (List.mem_cons_of_mem _ hm)
            rw [ih hnodup.2 hlt', hrest]
            simp only [Option.map_none, Option.map_some, hclaim]
            rw [setParent, node_modify _ (hlt move (by simp)), if_pos hid]
      · have hbeq : (move.node == id) = false := beq_eq_false_iff_ne.mpr hid
        rw [List.find?_cons, hbeq]
        cases hclaim : move.claim with
        | none => exact ih hnodup.2 (fun m hm => hlt m (List.mem_cons_of_mem _ hm))
        | some holder =>
            have hlt' : ∀ m, m ∈ rest → m.node < (store.setParent move.node holder).size :=
              fun m hm => (store.size_setParent _ _).symm ▸ hlt m (List.mem_cons_of_mem _ hm)
            have hnode : (store.setParent move.node holder).node id = store.node id :=
              store.node_modify_of_ne _ hid
            simp only [ih hnodup.2 hlt', hnode]

theorem size_foldl_setParent (moves : List Move) :
    (moves.foldl (fun rest move =>
        match move.claim with
        | some holder => rest.setParent move.node holder
        | none => rest) store).size = store.size := by
  induction moves generalizing store with
  | nil => rfl
  | cons move rest ih =>
      rw [List.foldl_cons, ih]
      cases move.claim with
      | none => rfl
      | some holder => exact store.size_modify _ _

theorem types_foldl_setParent (moves : List Move) :
    (moves.foldl (fun rest move =>
        match move.claim with
        | some holder => rest.setParent move.node holder
        | none => rest) store).types = store.types := by
  induction moves generalizing store with
  | nil => rfl
  | cons move rest ih =>
      rw [List.foldl_cons, ih]
      cases move.claim <;> rfl

@[simp] theorem size_settle (store : Store) : store.settle.size = store.size :=
  size_foldl_setParent store.moves

@[simp] theorem types_settle (store : Store) : store.settle.types = store.types :=
  types_foldl_setParent store.moves

/-- Settling gives every node the link that its claim promises and changes nothing
else. -/
theorem node_settle (hnodup : (store.moves.map Move.node).Nodup)
    (hlt : ∀ move, move ∈ store.moves → move.node < store.size) (id : NodeId) :
    store.settle.node id = { store.node id with parent := store.link id } := by
  have hfold := node_foldl_setParent hnodup hlt id
  have hsettle : store.settle.node id =
      (store.moves.foldl (fun rest move =>
        match move.claim with
        | some holder => rest.setParent move.node holder
        | none => rest) store).node id := rfl
  rw [hsettle, hfold]
  unfold link claim?
  split <;> simp_all [Store.parent]

theorem grows_settle (store : Store) : store.Grows store.settle :=
  ⟨by simp, by simp⟩

theorem Grows.settle {later : Store} (h : store.Grows later) :
    store.settle.Grows later.settle :=
  ⟨by simpa using h.size, by simpa using h.types⟩

/-! ## Requesting and forgetting a move -/

theorem claim?_requestMove (id other : NodeId) :
    (store.requestMove id).claim? other = if other = id then some none else store.claim? other := by
  unfold claim? requestMove
  rw [List.find?_cons]
  by_cases hid : id = other
  · simp [hid]
  · have hne : other ≠ id := fun he => hid he.symm
    have hbeq : (id == other) = false := beq_eq_false_iff_ne.mpr hid
    simp [hbeq, hne]

theorem link_requestMove {id : NodeId} (h : store.claim? id = none) (other : NodeId) :
    (store.requestMove id).link other = store.link other := by
  by_cases hid : other = id
  · subst hid
    rw [link_of_unclaimed (.inr (store.claim?_requestMove_self other)),
      link_of_unclaimed (.inl h)]
    rfl
  · unfold link
    rw [claim?_requestMove, if_neg hid]
    rfl

theorem mem_moves_forgetMove {id : NodeId} {move : Move} :
    move ∈ (store.forgetMove id).moves ↔ move ∈ store.moves ∧ move.node ≠ id := by
  simp [forgetMove]

theorem claim?_forgetMove_of_ne {id other : NodeId} (h : other ≠ id) :
    (store.forgetMove id).claim? other = store.claim? other := by
  unfold claim? forgetMove
  rw [List.find?_filter]
  congr 2
  funext move
  by_cases hm : move.node = other <;> simp [hm, h]

theorem link_forgetMove_of_ne {id other : NodeId} (h : other ≠ id) :
    (store.forgetMove id).link other = store.link other := by
  unfold link
  rw [claim?_forgetMove_of_ne h]
  rfl

/-! ## Adopting -/

theorem forgetMove_of_not_moving {id : NodeId} (h : store.claim? id = none) :
    store.forgetMove id = store := by
  have hmoves : store.moves.filter (fun move => move.node != id) = store.moves := by
    rw [List.filter_eq_self]
    intro move hmove
    simpa using claim?_eq_none_iff.mp h move hmove
  unfold forgetMove
  rw [hmoves]

/-- The store in which `holder` adopted the given children: a child on the move is
claimed, another gets its parent link. -/
structure AdoptedBy (store : Store) (holder : NodeId) (children : List NodeId)
    (later : Store) : Prop where
  size : later.size = store.size
  types : later.types = store.types
  node : ∀ id, later.node id =
    if id ∈ children ∧ store.claim? id = none then { store.node id with parent := some holder }
    else store.node id
  moves : later.moves = store.moves.map (fun move =>
    if move.node ∈ children then ⟨move.node, some holder⟩ else move)

theorem claim?_map_moves {children : List NodeId} {claim : Option NodeId} {later : Store}
    (hmoves : later.moves = store.moves.map (fun move =>
      if move.node ∈ children then ⟨move.node, claim⟩ else move)) (id : NodeId) :
    later.claim? id = if id ∈ children then (store.claim? id).map (fun _ => claim)
      else store.claim? id := by
  unfold claim?
  rw [hmoves, List.find?_map]
  have hcomp : ((fun move : Move => move.node == id) ∘ fun move =>
      if move.node ∈ children then ⟨move.node, claim⟩ else move) =
      fun move => move.node == id := by
    funext move
    simp only [Function.comp_apply]
    split <;> rfl
  rw [hcomp]
  cases hfind : store.moves.find? (fun move => move.node == id) with
  | none => simp
  | some move =>
      have hid : move.node = id := by simpa using List.find?_some hfind
      subst hid
      simp only [Option.map_some]
      split <;> rfl

/-- A node that may be given a holder: on the move and unclaimed, or without parent. -/
def IsLoose (store : Store) (id : NodeId) : Prop :=
  (store.claim? id = some none ∧ (store.parent id).isSome) ∨
    (store.claim? id = none ∧ store.parent id = none)

theorem AdoptedBy.claim? {holder : NodeId} {children : List NodeId} {later : Store}
    (h : store.AdoptedBy holder children later) (id : NodeId) :
    later.claim? id = if id ∈ children then (store.claim? id).map (fun _ => some holder)
      else store.claim? id :=
  claim?_map_moves h.moves id

theorem AdoptedBy.moved_nodes {holder : NodeId} {children : List NodeId} {later : Store}
    (h : store.AdoptedBy holder children later) :
    later.moves.map Move.node = store.moves.map Move.node := by
  rw [h.moves, List.map_map]
  apply List.map_congr_left
  intro move _
  simp only [Function.comp_apply]
  split <;> rfl

theorem AdoptedBy.node_of_not_mem {holder id : NodeId} {children : List NodeId} {later : Store}
    (h : store.AdoptedBy holder children later) (hid : id ∉ children) :
    later.node id = store.node id := by
  rw [h.node, if_neg (fun hc => hid hc.1)]

theorem AdoptedBy.link_of_mem {holder id : NodeId} {children : List NodeId} {later : Store}
    (h : store.AdoptedBy holder children later) (hid : id ∈ children)
    (hloose : store.IsLoose id) : later.link id = some holder := by
  have hclaim := h.claim? id
  rw [if_pos hid] at hclaim
  rcases hloose with ⟨hmoving, _⟩ | ⟨hstill, _⟩
  · rw [hmoving] at hclaim
    exact link_of_claimed hclaim
  · rw [hstill] at hclaim
    rw [link_of_unclaimed (.inl hclaim), Store.parent, h.node, if_pos ⟨hid, hstill⟩]

end Store

namespace Build

variable {store : Store}

theorem bind_ok {α β : Type} {first : Build α} {next : α → Build β} {value : α}
    {middle : Store} (h : first store = .ok (value, middle)) :
    (first >>= next) store = next value middle := by
  simp only [bind, StateT.bind, h, Except.bind]

theorem bind_error {α β : Type} {first : Build α} {next : α → Build β} {fault : Fault}
    (h : first store = .error fault) : (first >>= next) store = .error fault := by
  simp only [bind, StateT.bind, h, Except.bind]

theorem exists_of_bind_ok {α β : Type} {first : Build α} {next : α → Build β} {result : β}
    {later : Store} (h : (first >>= next) store = .ok (result, later)) :
    ∃ value middle, first store = .ok (value, middle) ∧
      next value middle = .ok (result, later) := by
  simp only [bind, StateT.bind] at h
  cases hfirst : first store with
  | error fault =>
      rw [hfirst] at h
      cases h
  | ok pair =>
      rw [hfirst] at h
      exact ⟨pair.1, pair.2, rfl, h⟩

theorem ok_unique {α : Type} {call : Build α} {value other : α} {later last : Store}
    (h : call store = .ok (value, later)) (hother : call store = .ok (other, last)) :
    value = other ∧ later = last :=
  Prod.mk.inj (Except.ok.inj (h.symm.trans hother))

theorem map_ok {α β : Type} {first : Build α} {f : α → β} {value : α} {later : Store}
    (h : first store = .ok (value, later)) : (f <$> first) store = .ok (f value, later) := by
  simp only [Functor.map, StateT.map, bind, h, Except.bind, pure, Except.pure]

theorem run_get (store : Store) : (get : Build Store) store = .ok (store, store) := rfl

theorem run_modify (f : Store → Store) (store : Store) :
    (modify f : Build Unit) store = .ok ((), f store) := rfl

theorem run_lookup {id : NodeId} (h : id < store.size) :
    lookup id store = .ok (store.node id, store) := by
  simp [lookup, bind, StateT.bind, get, getThe, MonadStateOf.get, StateT.get, pure, Except.pure,
    Except.bind, Store.get_eq_ok h, liftM, monadLift, MonadLift.monadLift, StateT.lift]

theorem get_eq_error {id : NodeId} (h : Not (id < store.size)) :
    store.get id = .error (.outOfRange store.size id) := by
  unfold Store.get
  rw [Array.getElem?_eq_none (Nat.not_lt.mp h)]

theorem lookup_cases {id : NodeId} {later : Store} {found : Node}
    (h : lookup id store = .ok (found, later)) : later = store ∧ found = store.node id := by
  by_cases hlt : id < store.size
  · rw [run_lookup hlt] at h
    cases h
    exact ⟨rfl, rfl⟩
  · unfold lookup at h
    rw [bind_ok (run_get store), get_eq_error hlt] at h
    cases h

theorem run_kindOf {id : NodeId} (h : id < store.size) :
    kindOf id store = .ok (store.kind id, store) := by
  unfold kindOf
  rw [bind_ok (run_lookup h)]
  rfl

theorem store_of_kindOf {id : NodeId} {later : Store} {kind : Kind}
    (h : kindOf id store = .ok (kind, later)) : later = store := by
  obtain ⟨found, middle, hlookup, hpure⟩ := exists_of_bind_ok h
  cases hpure
  exact (lookup_cases hlookup).1

theorem run_parentOf {id : NodeId} (h : id < store.size) :
    parentOf id store = .ok (store.parent id, store) := by
  unfold parentOf
  rw [bind_ok (run_lookup h)]
  rfl

theorem run_typeIdOf {id : NodeId} (h : id < store.size) :
    typeIdOf id store = .ok ((store.node id).type, store) := by
  unfold typeIdOf
  rw [bind_ok (run_lookup h)]
  rfl

/-! ## Creating -/

theorem run_take (id : NodeId) (store : Store) :
    take id store = if store.isMoving id then .error (.alreadyMoving id)
      else .ok (.moved id, store.requestMove id) := by
  unfold take
  rw [bind_ok (run_get store)]
  cases store.isMoving id <;> rfl

theorem run_asChild (id : NodeId) (store : Store) :
    ∃ child, asChild id store = .ok (child, store) ∧ child.node = id := by
  unfold asChild
  rw [bind_ok (run_get store)]
  cases store.claim? id with
  | none => exact ⟨.fresh id, rfl, rfl⟩
  | some claim =>
      cases claim with
      | none => exact ⟨.moved id, rfl, rfl⟩
      | some holder => exact ⟨.fresh id, rfl, rfl⟩

theorem run_adopt (holder child : NodeId) (store : Store) :
    adopt holder child store =
      match store.get child with
      | .error fault => .error fault
      | .ok found =>
          if found.erased then .error (.erasedChild child)
          else
            match found.parent, store.claim? child with
            | none, _ => .ok ((), (store.forgetMove child).setParent child holder)
            | some _, some none => .ok ((), store.claimMove child holder)
            | some _, some (some other) => .error (.placedTwice child other)
            | some owner, none => .error (.ownedChild child owner) := by
  unfold adopt
  rw [bind_ok (run_get store)]
  cases store.get child with
  | error fault => rfl
  | ok found =>
      have hfound : (liftM (Except.ok found : Except Fault Node) : Build Node) store =
          .ok (found, store) := rfl
      rw [bind_ok hfound]
      by_cases herased : found.erased = true
      · simp only [herased, if_true]
        rfl
      · simp only [herased]
        rcases found.parent with _ | owner
        · rfl
        · rcases store.claim? child with _ | _ | other <;> rfl

/-- A node is adopted if it has no parent, or if its move was requested and not claimed. -/
theorem adopt_cases {holder child : NodeId} {later : Store}
    (h : adopt holder child store = .ok ((), later)) :
    child < store.size ∧ store.isErased child = false ∧
      ((store.parent child = none ∧ later = (store.forgetMove child).setParent child holder) ∨
        ((store.parent child).isSome = true ∧ store.claim? child = some none ∧
          later = store.claimMove child holder)) := by
  rw [run_adopt] at h
  by_cases hlt : child < store.size
  · rw [Store.get_eq_ok hlt] at h
    dsimp only at h
    split at h
    · cases h
    · next herased =>
        refine ⟨hlt, Bool.eq_false_iff.mpr herased, ?_⟩
        split at h <;> cases h
        · next hparent => exact .inl ⟨hparent, rfl⟩
        · next hparent hclaim =>
            exact .inr ⟨by rw [Store.parent, hparent]; rfl, hclaim, rfl⟩
  · rw [get_eq_error hlt] at h
    cases h

theorem adopt_loose {holder child : NodeId} (hlt : child < store.size)
    (hlive : store.isErased child = false) (hloose : store.IsLoose child) :
    ∃ later, adopt holder child store = .ok ((), later) ∧
      store.AdoptedBy holder [child] later := by
  have hget := Store.get_eq_ok hlt
  have herased : (store.node child).erased = false := hlive
  rcases hloose with ⟨hclaim, hparent⟩ | ⟨hclaim, hparent⟩
  · obtain ⟨owner, howner⟩ := Option.isSome_iff_exists.mp hparent
    have hfound : (store.node child).parent = some owner := howner
    refine ⟨store.claimMove child holder, ?_, ⟨rfl, rfl, ?_, ?_⟩⟩
    · rw [run_adopt, hget]
      simp [herased, hfound, hclaim]
    · intro id
      rw [if_neg]
      · rfl
      · rintro ⟨hmem, hnone⟩
        rw [List.mem_singleton.mp hmem, hclaim] at hnone
        cases hnone
    · simp only [Store.claimMove, List.mem_singleton]
      apply List.map_congr_left
      intro move _
      by_cases hid : move.node = child <;> simp [hid]
  · have hfound : (store.node child).parent = none := hparent
    refine ⟨store.setParent child holder, ?_, ⟨store.size_setParent _ _, rfl, ?_, ?_⟩⟩
    · rw [run_adopt, hget]
      simp [herased, hfound, Store.forgetMove_of_not_moving hclaim]
    · intro id
      rw [Store.setParent, Store.node_modify _ hlt]
      by_cases hid : child = id
      · subst hid
        simp [hclaim]
      · have hid' : id ≠ child := fun he => hid he.symm
        simp [hid, hid']
    · have hout := Store.claim?_eq_none_iff.mp hclaim
      have hsame : store.moves.map (fun move =>
          if move.node ∈ [child] then ⟨move.node, some holder⟩ else move) = store.moves := by
        conv => rhs; rw [← List.map_id store.moves]
        apply List.map_congr_left
        intro move hmove
        simp [hout move hmove]
      exact hsame.symm

theorem forM_adopt_loose {holder : NodeId} {children : List NodeId} (hnodup : children.Nodup)
    (hlt : ∀ child, child ∈ children → child < store.size)
    (hlive : ∀ child, child ∈ children → store.isErased child = false)
    (hloose : ∀ child, child ∈ children → store.IsLoose child) :
    ∃ later, children.forM (adopt holder) store = .ok ((), later) ∧
      store.AdoptedBy holder children later := by
  induction children generalizing store with
  | nil =>
      refine ⟨store, rfl, ⟨rfl, rfl, ?_, ?_⟩⟩
      · intro id
        simp
      · simp
  | cons child rest ih =>
      rw [List.nodup_cons] at hnodup
      obtain ⟨middle, hfirst, hadopted⟩ := @adopt_loose store holder child
        (hlt child (by simp)) (hlive child (by simp)) (hloose child (by simp))
      have hout : ∀ id, id ∈ rest → id ∉ [child] := by
        intro id hid hmem
        rw [List.mem_singleton.mp hmem] at hid
        exact hnodup.1 hid
      have hnode : ∀ id, id ∈ rest → middle.node id = store.node id :=
        fun id hid => hadopted.node_of_not_mem (hout id hid)
      have hclaim : ∀ id, id ∈ rest → middle.claim? id = store.claim? id :=
        fun id hid => by rw [hadopted.claim?, if_neg (hout id hid)]
      obtain ⟨later, hrest, hlater⟩ := @ih middle hnodup.2
        (fun id hid => by rw [hadopted.size]; exact hlt id (List.mem_cons_of_mem _ hid))
        (fun id hid => by
          rw [Store.isErased, hnode id hid]
          exact hlive id (List.mem_cons_of_mem _ hid))
        (fun id hid => by
          rw [Store.IsLoose, Store.parent, hclaim id hid, hnode id hid]
          exact hloose id (List.mem_cons_of_mem _ hid))
      refine ⟨later, ?_, ⟨?_, ?_, ?_, ?_⟩⟩
      · show (adopt holder child >>= fun _ => rest.forM (adopt holder)) store = _
        rw [bind_ok hfirst]
        exact hrest
      · rw [hlater.size, hadopted.size]
      · rw [hlater.types, hadopted.types]
      · intro id
        rw [hlater.node, hadopted.node, hadopted.claim?]
        by_cases hid : id = child
        · subst hid
          simp [hnodup.1]
        · simp [hid]
      · rw [hlater.moves, hadopted.moves, List.map_map]
        apply List.map_congr_left
        intro move _
        by_cases hid : move.node = child
        · simp [hid, hnodup.1]
        · simp [hid]

def pushed (store : Store) (kind : Kind) (type : Option TypeId) : Store :=
  { store with nodes := store.nodes.push { kind := kind, type := type } }

theorem size_pushed (kind : Kind) (type : Option TypeId) :
    (pushed store kind type).size = store.size + 1 := by
  simp [pushed, Store.size]

theorem node_pushed (kind : Kind) (type : Option TypeId) (id : NodeId) :
    (pushed store kind type).node id =
      if id = store.size then { kind := kind, type := type } else store.node id := by
  simp only [pushed, Store.node, Store.size, Array.getD_eq_getD_getElem?, Array.getElem?_push]
  split <;> simp

theorem claim?_pushed (kind : Kind) (type : Option TypeId) (id : NodeId) :
    (pushed store kind type).claim? id = store.claim? id :=
  rfl

theorem isLoose_pushed {kind : Kind} {type : Option TypeId} {id : NodeId} (hid : id < store.size)
    (h : store.IsLoose id) : (pushed store kind type).IsLoose id := by
  unfold Store.IsLoose Store.parent at h ⊢
  rw [claim?_pushed, node_pushed, if_neg (Nat.ne_of_lt hid)]
  exact h

end Build

/-- The store in which a node was created around loose nodes of `store`. -/
structure Store.Created (store : Store) (kind : Kind) (type : Option TypeId) (later : Store) :
    Prop where
  lt : ∀ child, child ∈ kind.children → child < store.size
  loose : ∀ child, child ∈ kind.children → store.IsLoose child
  adopted : (Build.pushed store kind type).AdoptedBy store.size kind.children later

namespace Store.Created

variable {store later : Store} {kind : Kind} {type : Option TypeId} {id : NodeId}

theorem size (h : store.Created kind type later) : later.size = store.size + 1 := by
  rw [h.adopted.size, Build.size_pushed]

theorem types (h : store.Created kind type later) : later.types = store.types :=
  h.adopted.types

theorem grows (h : store.Created kind type later) : store.Grows later :=
  ⟨h.size ▸ Nat.le_succ _, fun _ _ hknown => h.types ▸ hknown⟩

theorem not_mem (h : store.Created kind type later) : store.size ∉ kind.children :=
  fun hmem => Nat.lt_irrefl _ (h.lt _ hmem)

theorem node_new (h : store.Created kind type later) :
    later.node store.size = { kind := kind, type := type } := by
  rw [h.adopted.node_of_not_mem h.not_mem, Build.node_pushed, if_pos rfl]

theorem node_of_not_mem (h : store.Created kind type later) (hid : id ≠ store.size)
    (hout : id ∉ kind.children) : later.node id = store.node id := by
  rw [h.adopted.node_of_not_mem hout, Build.node_pushed, if_neg hid]

/-- Creating a node changes no other node but for the parent link. -/
theorem exists_node (h : store.Created kind type later) (hid : id ≠ store.size) :
    ∃ link, later.node id = { store.node id with parent := link } := by
  rw [h.adopted.node, Build.node_pushed, if_neg hid]
  split
  · exact ⟨_, rfl⟩
  · exact ⟨(store.node id).parent, rfl⟩

theorem claim? (h : store.Created kind type later) (id : NodeId) :
    later.claim? id = if id ∈ kind.children then (store.claim? id).map (fun _ => some store.size)
      else store.claim? id := by
  rw [h.adopted.claim?, Build.claim?_pushed]

theorem moves (h : store.Created kind type later) :
    later.moves = store.moves.map (fun move =>
      if move.node ∈ kind.children then ⟨move.node, some store.size⟩ else move) :=
  h.adopted.moves

theorem moved_nodes (h : store.Created kind type later) :
    later.moves.map Move.node = store.moves.map Move.node :=
  h.adopted.moved_nodes

theorem link_of_mem (h : store.Created kind type later) (hid : id ∈ kind.children) :
    later.link id = some store.size :=
  h.adopted.link_of_mem hid (Build.isLoose_pushed (h.lt id hid) (h.loose id hid))

theorem link_of_not_mem (h : store.Created kind type later) (hid : id ≠ store.size)
    (hout : id ∉ kind.children) : later.link id = store.link id := by
  unfold Store.link Store.parent
  rw [h.claim?, if_neg hout, h.node_of_not_mem hid hout]

end Store.Created

/-- Creating a node around loose nodes gives it the next number. -/
theorem Build.create_loose {store : Store} {kind : Kind} {type : Option TypeId}
    (hnodup : kind.children.Nodup)
    (hlt : ∀ child, child ∈ kind.children → child < store.size)
    (hlive : ∀ child, child ∈ kind.children → store.isErased child = false)
    (hloose : ∀ child, child ∈ kind.children → store.IsLoose child) :
    ∃ later, create kind type store = .ok (store.size, later) ∧
      store.Created kind type later := by
  obtain ⟨later, hrun, hadopted⟩ := @forM_adopt_loose (pushed store kind type) store.size _ hnodup
    (fun id hid => by rw [size_pushed]; exact Nat.lt_succ_of_lt (hlt id hid))
    (fun id hid => by
      rw [Store.isErased, node_pushed, if_neg (Nat.ne_of_lt (hlt id hid))]
      exact hlive id hid)
    (fun id hid => isLoose_pushed (hlt id hid) (hloose id hid))
  refine ⟨later, ?_, hlt, hloose, hadopted⟩
  have hset : (set (pushed store kind type) : Build PUnit) store =
      .ok ((), pushed store kind type) := rfl
  unfold create
  rw [bind_ok (run_get store)]
  refine (bind_ok hset).trans ?_
  rw [bind_ok hrun]
  rfl

end CodeTidy
