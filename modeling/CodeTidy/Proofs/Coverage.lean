import CodeTidy.Proofs.Recording
import CodeTidy.Proofs.Run

/-!
# What a pass offers

A pass walks down the tree while its commits change the tree.  The recorded calls of a pass
(`Rule.recorded`) say which nodes it offers to which rules.  `Coverage` describes the calls of
a part of a pass: they concern the nodes below the visited roots and new nodes, no rule is
called twice for one node, and a node is left out only if it is gone or if a commit was made
at or above it.  Visits one after the other add up (`Coverage.cons`), and so a whole pass
covers the tree.
-/

namespace CodeTidy

/-! ## Nodes with common nodes below them -/

namespace Tree

variable {tree later : Tree} {a b id : NodeId} {bound : Nat}

theorem Above.top_mem_ids (h : tree.Above a id) : a ∈ tree.ids := by
  obtain ⟨up, hup, rfl, -⟩ := h
  exact mem_ids_iff.mpr ⟨up, hup, rfl⟩

theorem above_self (h : id ∈ tree.ids) : tree.Above id id := by
  obtain ⟨found, hfound, rfl⟩ := mem_ids_iff.mp h
  exact above_of_mem hfound found.id_mem_ids

/-- Some node is at or below both nodes. -/
def Meets (tree : Tree) (a b : NodeId) : Prop :=
  ∃ id, tree.Above a id ∧ tree.Above b id

/-- Of two subtrees with a common number, one stands in the other. -/
theorem mem_subtrees_or_of_common {first second : Tree} (hnodup : tree.ids.Nodup)
    (hfirst : first ∈ tree.subtrees) (hsecond : second ∈ tree.subtrees)
    (hid : id ∈ first.ids) (hid' : id ∈ second.ids) :
    first ∈ second.subtrees ∨ second ∈ first.subtrees := by
  induction tree with
  | node i head type subs ih =>
      rcases mem_subtrees_iff.mp hfirst with rfl | ⟨sub, hsub, hin⟩
      · exact .inr hsecond
      · rcases mem_subtrees_iff.mp hsecond with rfl | ⟨sub', hsub', hin'⟩
        · exact .inl hfirst
        · obtain rfl : sub = sub' := eq_of_common_id (nodup_slots hnodup) hsub hsub'
            (ids_subset_of_mem hin hid) (ids_subset_of_mem hin' hid')
          exact ih sub hsub (nodup_ids_of_mem hnodup (sub_mem_subtrees hsub)) hin hin'

theorem Meets.above (h : tree.Meets a b) (hnodup : tree.ids.Nodup) :
    tree.Above a b ∨ tree.Above b a := by
  obtain ⟨id, ⟨up, hup, rfl, hid⟩, ⟨up', hup', rfl, hid'⟩⟩ := h
  rcases mem_subtrees_or_of_common hnodup hup hup' hid hid' with hin | hin
  · exact .inr (above_of_mem hup' (mem_ids_iff.mpr ⟨up, hin, rfl⟩))
  · exact .inl (above_of_mem hup (mem_ids_iff.mpr ⟨up', hin, rfl⟩))

/-- Nodes that meet in a tree made of the nodes of another have met before. -/
theorem Within.meets (h : tree.Within bound later) (hnodup : later.ids.Nodup) (ha : a < bound)
    (hb : b < bound) (hmeets : later.Meets a b) : tree.Meets a b := by
  rcases hmeets.above hnodup with hab | hba
  · have hold := h.above a b ha hb hab
    exact ⟨b, hold, above_self hold.mem_ids⟩
  · have hold := h.above b a hb ha hba
    exact ⟨a, above_self hold.mem_ids, hold⟩

theorem not_meets_of_slots {holder child other : Tree} (hnodup : tree.ids.Nodup)
    (hholder : holder ∈ tree.subtrees) (hchild : child ∈ holder.subs) (hother : other ∈ holder.subs)
    (hne : child.id ≠ other.id) : ¬ tree.Meets child.id other.id := by
  rintro ⟨id, habove, habove'⟩
  rw [above_iff hnodup (slot_mem_subtrees hholder hchild)] at habove
  rw [above_iff hnodup (slot_mem_subtrees hholder hother)] at habove'
  have hself := nodup_ids_of_mem hnodup hholder
  exact hne (congrArg Tree.id (eq_of_common_id (nodup_slots hself) hchild hother habove habove'))

end Tree

/-- No reachable node is erased but the root, which stands in no slot. -/
theorem Store.Holds.eq_root {store : Store} {tree : Tree} {id : NodeId} (h : store.Holds tree)
    (hid : id ∈ tree.ids) (herased : store.isErased id = true) : id = tree.id := by
  obtain ⟨found, hfound, rfl⟩ := Tree.mem_ids_iff.mp hid
  by_contra hne
  have hlive := (h.live hfound (fun heq => hne (congrArg Tree.id heq))).live
  rw [hlive] at herased
  cases herased

/-! ## Calls -/

def Call.offer (call : Call) : String × NodeId :=
  (call.rule, call.node)

/-- No commit was made for a node that the given node was at or below. -/
def Spared (calls : List Call) (id : NodeId) : Prop :=
  ∀ call, call ∈ calls → call.response.edits ≠ [] →
    id ∉ call.before.preorder call.node

instance (calls : List Call) (id : NodeId) : Decidable (Spared calls id) :=
  inferInstanceAs (Decidable (∀ call, call ∈ calls → call.response.edits ≠ [] →
    id ∉ call.before.preorder call.node))

theorem spared_append {calls calls' : List Call} {id : NodeId} :
    Spared (calls ++ calls') id ↔ Spared calls id ∧ Spared calls' id := by
  simp only [Spared, List.mem_append, or_imp, forall_and]

def Rule.declined (store : Store) (node : NodeId) (rule : Rule Unit) : Call :=
  ⟨rule.name, node, store, .decline, store⟩

/-! ## Offered nodes -/

/-- Where the calls of a part of a pass have been made, if the nodes below `roots` were
visited. -/
structure Offers (base : Store) (tree : Tree) (roots : List NodeId) (calls : List Call)
    (final : Store) (later : Tree) : Prop where
  /-- An offered node is reachable, and not erased unless it is a root that was erased before. -/
  live : ∀ call, call ∈ calls → call.node ∈ call.before.preorder tree.id ∧
    (call.before.isErased call.node = true → call.node = tree.id ∧ base.isErased tree.id = true)
  /-- An offered node is below a root, or new. -/
  origin : ∀ call, call ∈ calls →
    (∃ top ∈ roots, tree.Above top call.node) ∨ base.size ≤ call.node
  bounded : ∀ call, call ∈ calls → call.node < final.size
  once : (calls.map Call.offer).Nodup
  /-- Beside the roots nothing was offered, and no offered node has come there. -/
  apart : ∀ a, a < base.size → (∀ top, top ∈ roots → ¬ tree.Meets top a) →
    ∀ call, call ∈ calls → ¬ later.Above a call.node

namespace Offers

variable {base middle final : Store} {tree between later old : Tree} {roots rest : List NodeId}
  {top : NodeId} {calls calls' : List Call}

theorem nil : Offers base tree roots [] final later where
  live := by simp
  origin := by simp
  bounded := by simp
  once := List.nodup_nil
  apart := by simp

theorem here (hbase : base.Holds tree)
    (hold : old ∈ tree.subtrees) (hsize : base.size ≤ final.size)
    (hwithin : tree.Within base.size later)
    (hcalls : ∀ call, call ∈ calls → call.node = old.id ∧ call.before = base)
    (hnames : (calls.map Call.rule).Nodup) : Offers base tree [old.id] calls final later := by
  have hin : old.id ∈ tree.ids := Tree.ids_subset_of_mem hold old.id_mem_ids
  have hlt : old.id < base.size := hbase.laid.lt hin
  have honce : ((calls.map Call.offer).map Prod.fst).Nodup := by
    rw [List.map_map]
    exact hnames
  refine ⟨?_, ?_, ?_, honce.of_map _, ?_⟩
  · intro call hcall
    obtain ⟨hnode, hbefore⟩ := hcalls call hcall
    rw [hnode, hbefore, hbase.preorder_eq tree.mem_subtrees_self]
    refine ⟨hin, fun herased => ?_⟩
    have hroot := hbase.eq_root hin herased
    exact ⟨hroot, hroot ▸ herased⟩
  · intro call hcall
    rw [(hcalls call hcall).1]
    exact .inl ⟨old.id, List.mem_singleton_self _, Tree.above_self hin⟩
  · intro call hcall
    rw [(hcalls call hcall).1]
    exact Nat.lt_of_lt_of_le hlt hsize
  · intro a ha hmeets call hcall habove
    rw [(hcalls call hcall).1] at habove
    exact hmeets old.id (List.mem_singleton_self _)
      ⟨old.id, Tree.above_self hin, hwithin.above a old.id ha hlt habove⟩

/-- Offers below some roots are offers below every root above them. -/
theorem widen (h : Offers base tree rest calls final later)
    (habove : ∀ top id, top ∈ rest → tree.Above top id → ∃ other ∈ roots,
      tree.Above other id) : Offers base tree roots calls final later where
  live := h.live
  origin call hcall := by
    rcases h.origin call hcall with ⟨top, htop, hin⟩ | hnew
    · exact .inl (habove top _ htop hin)
    · exact .inr hnew
  bounded := h.bounded
  once := h.once
  apart a ha hmeets := by
    refine h.apart a ha ?_
    rintro top htop ⟨id, hid, haId⟩
    obtain ⟨other, hother, hotherId⟩ := habove top id htop hid
    exact hmeets other hother ⟨id, hotherId, haId⟩

theorem append (h : Offers base tree roots calls final later)
    (h' : Offers base tree roots calls' final later)
    (hapart : List.Disjoint (calls.map Call.offer) (calls'.map Call.offer)) :
    Offers base tree roots (calls ++ calls') final later where
  live call hcall := (List.mem_append.mp hcall).elim (h.live call) (h'.live call)
  origin call hcall := (List.mem_append.mp hcall).elim (h.origin call) (h'.origin call)
  bounded call hcall := (List.mem_append.mp hcall).elim (h.bounded call) (h'.bounded call)
  once := by
    rw [List.map_append, List.nodup_append']
    exact ⟨h.once, h'.once, hapart⟩
  apart a ha hmeets call hcall :=
    (List.mem_append.mp hcall).elim (h.apart a ha hmeets call) (h'.apart a ha hmeets call)

/-- Offers that were made when the tree was still the earlier one. -/
theorem before (h : Offers base tree roots calls middle between)
    (hsize : base.size ≤ middle.size) (hsize' : middle.size ≤ final.size)
    (hwithin : between.Within middle.size later) :
    Offers base tree roots calls final later where
  live := h.live
  origin := h.origin
  bounded call hcall := Nat.lt_of_lt_of_le (h.bounded call hcall) hsize'
  once := h.once
  apart a ha hmeets call hcall habove := h.apart a ha hmeets call hcall
    (hwithin.above a call.node (Nat.lt_of_lt_of_le ha hsize) (h.bounded call hcall) habove)

/-- Offers that were made when the tree had become the later one. -/
theorem after (h : Offers middle between roots calls final later)
    (hsize : base.size ≤ middle.size) (hsame : between.id = tree.id)
    (hroot : middle.isErased between.id = base.isErased tree.id)
    (hnodup : between.ids.Nodup) (hwithin : tree.Within base.size between)
    (hlt : ∀ top, top ∈ roots → top < base.size) :
    Offers base tree roots calls final later where
  live := by
    rw [← hsame] at hroot ⊢
    rw [← hroot]
    exact h.live
  origin call hcall := by
    rcases h.origin call hcall with ⟨top, htop, habove⟩ | hnew
    · by_cases hold : call.node < base.size
      · exact .inl ⟨top, htop, hwithin.above top call.node (hlt top htop) hold habove⟩
      · exact .inr (Nat.not_lt.mp hold)
    · exact .inr (Nat.le_trans hsize hnew)
  bounded := h.bounded
  once := h.once
  apart a ha hmeets := by
    refine h.apart a (Nat.lt_of_lt_of_le ha hsize) ?_
    intro top htop hbetween
    exact hmeets top htop (hwithin.meets hnodup (hlt top htop) ha hbetween)

/-- What was offered first is old by the time of the second visit, and it is not beside its
root. -/
theorem disjoint (h : Offers base tree [top] calls middle between)
    (h' : Offers middle between rest calls' final later)
    (hlt : ∀ other, other ∈ rest → other < base.size)
    (hbeside : ∀ other, other ∈ rest → ¬ tree.Meets top other) :
    List.Disjoint (calls.map Call.offer) (calls'.map Call.offer) := by
  intro offer hfirst hsecond
  obtain ⟨call, hcall, rfl⟩ := List.mem_map.mp hfirst
  obtain ⟨call', hcall', hsame⟩ := List.mem_map.mp hsecond
  have hnode : call'.node = call.node := congrArg Prod.snd hsame
  rcases h'.origin call' hcall' with ⟨other, hother, habove⟩ | hnew
  · rw [hnode] at habove
    refine h.apart other (hlt other hother) ?_ call hcall habove
    intro top' htop'
    rw [List.mem_singleton.mp htop']
    exact hbeside other hother
  · rw [hnode] at hnew
    exact Nat.not_lt.mpr hnew (h.bounded call hcall)

end Offers

/-! ## Coverage -/

/-- What the calls of a part of a pass cover: a node below the roots is offered to every rule
unless it is gone or was not spared, and a node that was spared has stayed where it was. -/
structure Coverage (rules : List (Rule Unit)) (base : Store) (tree : Tree) (roots : List NodeId)
    (calls : List Call) (final : Store) (later : Tree) : Prop extends
    Offers base tree roots calls final later where
  holds : final.Holds later
  same : later.id = tree.id
  awake : final.isErased later.id = base.isErased tree.id
  size : base.size ≤ final.size
  confined : tree.Confined base.size (fun id => ¬ Spared calls id) later
  offered : ∀ top id, top ∈ roots → tree.Above top id → id ∈ later.ids →
    Spared calls id → ∀ rule, rule ∈ rules →
    ∃ call ∈ calls, call.rule = rule.name ∧ call.node = id

namespace Coverage

variable {options : Options} {rules : List (Rule Unit)} {base middle final drafted : Store}
  {tree between later old : Tree} {roots rest : List NodeId} {top : NodeId}
  {calls calls' : List Call}

/-- Nothing is offered where no rule is left, or nothing is visited. -/
theorem idle (hbase : base.Holds tree)
    (hnone : ∀ top id, top ∈ roots → tree.Above top id → rules = []) :
    Coverage rules base tree roots [] base tree where
  toOffers := .nil
  holds := hbase
  same := rfl
  awake := rfl
  size := Nat.le_refl _
  confined := .refl _ tree
  offered top id htop habove _ _ := by simp [hnone top id htop habove]

/-- A root that is not in the tree does not matter. -/
theorem skip (h : Coverage rules base tree rest calls final later) (hout : top ∉ tree.ids) :
    Coverage rules base tree (top :: rest) calls final later where
  toOffers := h.toOffers.widen
    (fun other _ hother habove => ⟨other, List.mem_cons_of_mem _ hother, habove⟩)
  holds := h.holds
  same := h.same
  awake := h.awake
  size := h.size
  confined := h.confined
  offered other id hother habove := by
    rcases List.mem_cons.mp hother with rfl | hother
    · exact absurd habove.top_mem_ids hout
    · exact h.offered other id hother habove

/-- Visits one after the other: the second part starts where the first has ended, and visits
what is beside the first root. -/
theorem cons (h : Coverage rules base tree [top] calls middle between)
    (h' : Coverage rules middle between rest calls' final later) (hbase : base.Holds tree)
    (hlt : ∀ other, other ∈ rest → other < base.size)
    (hbeside : ∀ other, other ∈ rest → ¬ tree.Meets top other) :
    Coverage rules base tree (top :: rest) (calls ++ calls') final later where
  toOffers := by
    have hfirst := h.toOffers.before h.size h'.size h'.confined.toWithin
    have hsecond := h'.toOffers.after h.size h.same h.awake h.holds.nodup h.confined.toWithin hlt
    refine .append (hfirst.widen ?_) (hsecond.widen ?_)
      (h.toOffers.disjoint h'.toOffers hlt hbeside)
    · intro other id hother habove
      exact ⟨other, List.mem_cons.mpr (.inl (List.mem_singleton.mp hother)), habove⟩
    · exact fun other id hother habove => ⟨other, List.mem_cons_of_mem _ hother, habove⟩
  holds := h'.holds
  same := h'.same.trans h.same
  awake := h'.awake.trans h.awake
  size := Nat.le_trans h.size h'.size
  confined := by
    refine (h.confined.mono ?_).trans (h'.confined.mono ?_) h.size
    · exact fun id hin hspared => hin (spared_append.mp hspared).1
    · exact fun id hin hspared => hin (spared_append.mp hspared).2
  offered other id hother habove hlater hspared rule hrule := by
    obtain ⟨hfirst, hsecond⟩ := spared_append.mp hspared
    have hid : id < base.size := hbase.laid.lt habove.mem_ids
    have hbetween : id ∈ between.ids := h'.confined.ids id (Nat.lt_of_lt_of_le hid h.size) hlater
    rcases List.mem_cons.mp hother with rfl | hother
    · obtain ⟨call, hcall, hoffer⟩ :=
        h.offered other id (List.mem_singleton_self _) habove hbetween hfirst rule hrule
      exact ⟨call, List.mem_append_left _ hcall, hoffer⟩
    · have hstill := h.confined.stays other id hid habove hbetween (fun hin => hin hfirst)
      obtain ⟨call, hcall, hoffer⟩ := h'.offered other id hother hstill hlater hsecond rule hrule
      exact ⟨call, List.mem_append_right _ hcall, hoffer⟩

/-! ## One node -/

theorem of_mem_declined {first : List (Rule Unit)} {node : NodeId} {call : Call}
    (h : call ∈ first.map (Rule.declined base node)) :
    call.node = node ∧ call.before = base ∧ call.response.edits = [] := by
  obtain ⟨rule, -, rfl⟩ := List.mem_map.mp h
  exact ⟨rfl, rfl, rfl⟩

theorem map_rule_declined (first : List (Rule Unit)) (node : NodeId) :
    (first.map (Rule.declined base node)).map Call.rule = first.map Rule.name := by
  rw [List.map_map]
  rfl

/-- All rules decline a node, and what is below it is visited. -/
theorem of_declined (h : Coverage rules base tree (old.subs.map Tree.id) calls final later)
    (hbase : base.Holds tree) (hold : old ∈ tree.subtrees)
    (hnames : (rules.map Rule.name).Nodup) :
    Coverage rules base tree [old.id] (rules.map (Rule.declined base old.id) ++ calls) final
      later := by
  have hslot : ∀ top id, top ∈ old.subs.map Tree.id → tree.Above top id →
      id ∈ old.subs.flatMap Tree.ids := by
    intro top id htop habove
    obtain ⟨child, hchild, rfl⟩ := List.mem_map.mp htop
    rw [Tree.above_iff hbase.nodup (Tree.slot_mem_subtrees hold hchild)] at habove
    exact List.mem_flatMap.mpr ⟨child, hchild, habove⟩
  have hself : old.id ∉ old.subs.flatMap Tree.ids :=
    Tree.id_not_mem_slots (Tree.nodup_ids_of_mem hbase.nodup hold)
  have hhere : Offers base tree [old.id] (rules.map (Rule.declined base old.id)) final later := by
    refine .here hbase hold h.size h.confined.toWithin ?_ (map_rule_declined .. ▸ hnames)
    exact fun call hcall => ⟨(of_mem_declined hcall).1, (of_mem_declined hcall).2.1⟩
  have hbelow : Offers base tree [old.id] calls final later := by
    refine h.toOffers.widen ?_
    intro top id htop habove
    exact ⟨old.id, List.mem_singleton_self _,
      Tree.above_of_mem hold (old.slots_subset_ids (hslot top id htop habove))⟩
  have hapart : List.Disjoint ((rules.map (Rule.declined base old.id)).map Call.offer)
      (calls.map Call.offer) := by
    intro offer hfirst hsecond
    obtain ⟨call, hcall, rfl⟩ := List.mem_map.mp hfirst
    obtain ⟨call', hcall', hsame⟩ := List.mem_map.mp hsecond
    have hnode : call'.node = old.id :=
      (congrArg Prod.snd hsame).trans (of_mem_declined hcall).1
    rcases h.origin call' hcall' with ⟨top, htop, habove⟩ | hnew
    · exact hself (hslot top old.id htop (hnode ▸ habove))
    · rw [hnode] at hnew
      exact Nat.not_lt.mpr hnew (Tree.Legible.of_holds hbase hold).lt
  refine ⟨hhere.append hbelow hapart, h.holds, h.same, h.awake, h.size, h.confined.mono ?_, ?_⟩
  · exact fun id hnot hall => hnot (spared_append.mp hall).2
  · intro top id htop habove hlater hall rule hrule
    rw [List.mem_singleton.mp htop, Tree.above_iff hbase.nodup hold, Tree.ids_eq] at habove
    rcases List.mem_cons.mp habove with rfl | hid
    · exact ⟨rule.declined base old.id, List.mem_append_left _ (List.mem_map_of_mem hrule), rfl,
        rfl⟩
    · obtain ⟨child, hchild, hin⟩ := List.mem_flatMap.mp hid
      obtain ⟨call, hcall, hoffer⟩ := h.offered child.id id (List.mem_map_of_mem hchild)
        (Tree.above_of_mem (Tree.slot_mem_subtrees hold hchild) hin) hlater
        (spared_append.mp hall).2 rule hrule
      exact ⟨call, List.mem_append_right _ hcall, hoffer⟩

theorem of_commit {first others : List (Rule Unit)} {rule : Rule Unit} {response : Response}
    (hbase : base.Holds tree) (hold : old ∈ tree.subtrees)
    (hnames : ((first ++ rule :: others).map Rule.name).Nodup) (hedits : response.edits ≠ [])
    (heffect : Effect base tree old.id final later) :
    Coverage (first ++ rule :: others) base tree [old.id]
      (first.map (Rule.declined base old.id) ++ [⟨rule.name, old.id, base, response, drafted⟩])
      final later := by
  have hrewritten : ∀ id, tree.Above old.id id → ¬ Spared
      (first.map (Rule.declined base old.id) ++ [⟨rule.name, old.id, base, response, drafted⟩])
      id := by
    intro id habove hall
    refine hall _ (List.mem_append_right _ (List.mem_singleton_self _)) hedits ?_
    rw [hbase.preorder_eq hold]
    exact (Tree.above_iff hbase.nodup hold).mp habove
  refine ⟨.here hbase hold heffect.ages.size heffect.confined.toWithin ?_ ?_, heffect.holds,
    heffect.root, ?_, heffect.ages.size, heffect.confined.mono hrewritten, ?_⟩
  · intro call hcall
    rcases List.mem_append.mp hcall with hcall | hcall
    · exact ⟨(of_mem_declined hcall).1, (of_mem_declined hcall).2.1⟩
    · rw [List.mem_singleton.mp hcall]
      exact ⟨rfl, rfl⟩
  · rw [List.map_append, map_rule_declined]
    rw [List.map_append, List.map_cons] at hnames
    exact hnames.sublist
      (List.Sublist.append_left (List.Sublist.cons_cons _ (List.nil_sublist _)) _)
  · rw [heffect.root, heffect.ages.root]
  · intro top id htop habove _ hall
    rw [List.mem_singleton.mp htop] at habove
    exact absurd hall (hrewritten id habove)

end Coverage

/-! ## Recorded visits -/

section

variable {options : Options} {rules : List (Rule Unit)} {base final : Store} {tree old later : Tree}
  {node : NodeId}

/-- The recorded computation ends, whatever was recorded before, and adds these calls. -/
def Records {α : Type} (computation : StateT (Unit × List Call) Build α) (store : Store) (value : α)
    (calls : List Call) (later : Store) : Prop :=
  ∀ before, Ends computation ((), before) store value ((), before ++ calls) later

theorem Records.bind {α β : Type} {computation : StateT (Unit × List Call) Build α}
    {next : α → StateT (Unit × List Call) Build β} {store middle later : Store} {value : α}
    {result : β} {calls calls' : List Call} (h : Records computation store value calls middle)
    (hnext : Records (next value) middle result calls' later) :
    Records (computation >>= next) store result (calls ++ calls') later := by
  intro before
  rw [← List.append_assoc]
  exact (h before).bind (hnext (before ++ calls))

theorem records_pure {α : Type} (value : α) (store : Store) :
    Records (pure value) store value [] store := by
  intro before
  rw [List.append_nil]
  exact ends_pure value _ store

theorem records_lift {α : Type} {action : Build α} {store later : Store} {value : α}
    (h : action store = .ok (value, later)) : Records (liftM action) store value [] later := by
  intro before
  rw [List.append_nil]
  exact ends_lift h

theorem Records.bind_silent {α β : Type} {computation : StateT (Unit × List Call) Build α}
    {next : α → StateT (Unit × List Call) Build β} {store middle later : Store} {value : α}
    {result : β} {calls : List Call} (h : Records computation store value calls middle)
    (hnext : Records (next value) middle result [] later) :
    Records (computation >>= next) store result calls later := by
  have hbind := h.bind hnext
  rwa [List.append_nil] at hbind

theorem records_rule {rule : Rule Unit} {response : Response} {drafted : Store}
    (h : Runs (rule.respond options node) base response drafted) :
    Records (rule.recorded.respond options node) base response
      [⟨rule.name, node, base, response, drafted⟩] drafted :=
  fun _ => Rule.ends_recorded.mpr ⟨h, rfl⟩

theorem records_forgetMoves (hidle : base.moves = []) :
    Records (liftM Build.forgetMoves) base () [] base := by
  refine records_lift ((Build.run_modify Store.forgetMoves base).trans ?_)
  have hsame : base.forgetMoves = base := by
    unfold Store.forgetMoves
    rw [← hidle]
  rw [hsame]

theorem records_offer_declined (hidle : base.moves = [])
    (h : ∀ rule, rule ∈ rules → rule.Declines options base node) :
    Records (Schedule.offer options node (rules.map Rule.recorded)) base
      (.declined (rules.map Rule.recorded)) (rules.map (Rule.declined base node)) base := by
  induction rules with
  | nil => exact records_pure _ base
  | cons rule rest ih =>
      have hrest := ih (fun other hother => h other (List.mem_cons_of_mem _ hother))
      exact (records_rule (h rule (List.mem_cons_self ..))).bind
        ((records_forgetMoves hidle).bind (hrest.bind_silent (records_pure _ _)))

/-- Offering a node to recorded rules of which the first that does not decline commits. -/
theorem records_offer_committed {first rest : List (Rule Unit)} {rule : Rule Unit}
    {response : Response} {drafted : Store} (hidle : base.moves = [])
    (hfirst : ∀ other, other ∈ first → other.Declines options base node)
    (hne : response.edits ≠ []) (hrun : Runs (rule.respond options node) base response drafted)
    (hcommit : Build.commit response.edits drafted = .ok ((), final)) :
    Records (Schedule.offer options node ((first ++ rule :: rest).map Rule.recorded)) base
      (.committed rule.name)
      (first.map (Rule.declined base node) ++ [⟨rule.name, node, base, response, drafted⟩])
      final := by
  induction first with
  | nil =>
      refine (records_rule hrun).bind_silent ?_
      have hfull : response.edits.isEmpty = false := by simpa using hne
      rw [hfull]
      exact (records_lift hcommit).bind (records_pure _ final)
  | cons other first ih =>
      have hrest := ih (fun another hanother => hfirst another (List.mem_cons_of_mem _ hanother))
      exact (records_rule (hfirst other (List.mem_cons_self ..))).bind
        ((records_forgetMoves hidle).bind (hrest.bind_silent (records_pure _ _)))

/-- The recorded computation visits every node of the given height or less and covers what is
below it. -/
def Covers (options : Options) (rules : List (Rule Unit)) (steps : Nat)
    (visit : NodeId → StateT (Unit × List Call) Build Tally) : Prop :=
  ∀ {base : Store} {tree old : Tree}, base.Holds tree → tree.Orderly →
    old ∈ tree.subtrees → old.height ≤ steps →
    ∃ log calls final later, Records (visit old.id) base (.ofLog log) calls final ∧
      Visit options rules base tree old log final later ∧
      Coverage rules base tree [old.id] calls final later

/-- After the visit of a child the other children are still listed. -/
theorem Listed.next {holder child : Tree} {steps : Nat} {ids : List NodeId} {log : List Applied}
    (h : Listed base holder steps (child.id :: ids)) (hbase : base.Holds tree)
    (hholder : holder ∈ tree.subtrees) (hchild : child ∈ holder.subs)
    (hvisit : Visit options rules base tree child log final later) :
    ∃ holder' ∈ later.subtrees, holder'.id = holder.id ∧ Listed final holder' steps ids := by
  by_cases hquiet : log = []
  · obtain ⟨rfl, rfl⟩ := hvisit.quiet hquiet
    exact ⟨holder, hholder, rfl, h.tail⟩
  · exact h.step hbase.nodup hholder hchild hvisit hquiet

/-- The other listed children do not meet a child, as the root is not among them. -/
theorem Listed.beside {holder child : Tree} {steps : Nat} {ids : List NodeId}
    (h : Listed base holder steps (child.id :: ids)) (hbase : base.Holds tree)
    (hroot : tree.id ∉ ids) (hholder : holder ∈ tree.subtrees)
    (hchild : child ∈ holder.subs) {other : NodeId} (hother : other ∈ ids) :
    other < base.size ∧ ¬ tree.Meets child.id other := by
  rcases h.2 other (List.mem_cons_of_mem _ hother) with herased | ⟨sub, hsub, rfl, -⟩
  · refine ⟨Store.lt_of_isErased herased, ?_⟩
    rintro ⟨id, -, habove⟩
    exact hroot (hbase.eq_root habove.top_mem_ids herased ▸ hother)
  · refine ⟨(Tree.Legible.of_holds hbase (Tree.slot_mem_subtrees hholder hsub)).lt, ?_⟩
    apply Tree.not_meets_of_slots hbase.nodup hholder hchild hsub
    intro he
    exact (List.nodup_cons.mp h.1).1 (he ▸ hother)

theorem records_visitOwned {visit : NodeId → StateT (Unit × List Call) Build Tally}
    {steps : Nat} (hcovers : Covers options rules steps visit) {base : Store} {tree holder : Tree}
    {ids : List NodeId} (hbase : base.Holds tree) (horder : tree.Orderly)
    (hroot : tree.id ∉ ids) (hholder : holder ∈ tree.subtrees)
    (hlisted : Listed base holder steps ids) :
    ∃ log calls final later,
      Records (Schedule.visitOwned visit holder.id ids) base (.ofLog log) calls final ∧
      Coverage rules base tree ids calls final later := by
  induction ids generalizing base tree holder with
  | nil => exact ⟨[], [], base, tree, records_pure Tally.empty base, .idle hbase (by simp)⟩
  | cons id ids ih =>
      have hrest : tree.id ∉ ids := fun hin => hroot (List.mem_cons_of_mem _ hin)
      by_cases herased : base.isErased id = true
      · -- an erased child is passed over
        obtain ⟨log, calls, final, later, hrun, hcoverage⟩ :=
          ih hbase horder hrest hholder hlisted.tail
        refine ⟨log, calls, final, later, ?_, hcoverage.skip ?_⟩
        · refine (records_lift (Build.run_lookup (Store.lt_of_isErased herased))).bind ?_
          rw [if_pos (passes_erased herased holder.id), ← Tally.empty_append (.ofLog log)]
          exact (records_pure Tally.empty base).bind (hrun.bind_silent (records_pure _ final))
        · intro hin
          exact hroot (hbase.eq_root hin herased ▸ List.mem_cons_self ..)
      · obtain ⟨child, hchild, rfl, hheight⟩ :=
          (hlisted.2 id (List.mem_cons_self ..)).resolve_left herased
        have hchildIn : child ∈ tree.subtrees := Tree.slot_mem_subtrees hholder hchild
        obtain ⟨first, calls, middle, between, hfirst, hvisit, hcoverage⟩ :=
          hcovers hbase horder hchildIn hheight
        obtain ⟨holder', hholder', hid, hlisted'⟩ := hlisted.next hbase hholder hchild hvisit
        obtain ⟨log, calls', final, later, hrun, hcoverage'⟩ :=
          ih hvisit.holds hvisit.order (hvisit.root ▸ hrest) hholder' hlisted'
        rw [hid] at hrun
        refine ⟨first ++ log, calls ++ calls', final, later, ?_, hcoverage.cons hcoverage' hbase
          (fun other hother => (hlisted.beside hbase hrest hholder hchild hother).1)
          (fun other hother => (hlisted.beside hbase hrest hholder hchild hother).2)⟩
        refine (records_lift (Build.run_lookup (Tree.Legible.of_holds hbase hchildIn).lt)).bind ?_
        rw [if_neg (visits_slot hbase hholder hchild herased), Tally.ofLog_append]
        exact hfirst.bind (hrun.bind_silent (records_pure _ final))

theorem visit_of_records {visit : NodeId → StateT Unit Build Tally}
    {recorded : NodeId → StateT (Unit × List Call) Build Tally} {steps : Nat}
    {log : List Applied} {calls : List Call} (hvisits : Visits options rules steps visit)
    (hmirrors : Mirrors Eq (recorded old.id) (visit old.id)) (hbase : base.Holds tree)
    (horder : tree.Orderly) (hold : old ∈ tree.subtrees) (hheight : old.height ≤ steps)
    (hrecords : Records (recorded old.id) base (.ofLog log) calls final)
    (hholds : final.Holds later) (hid : later.id = tree.id) :
    Visit options rules base tree old log final later := by
  obtain ⟨log', final', later', hrun, hvisit⟩ := hvisits hbase horder hold hheight
  obtain ⟨_, rfl, hplain⟩ := hmirrors.of_ends (hrecords [])
  obtain ⟨hlog, rfl⟩ := Runs.unique hrun hplain
  obtain rfl : log' = log := congrArg Tally.log hlog
  have hsame : later' = later := hvisit.holds.laid.unique hholds.laid (hvisit.root.trans hid.symm)
  exact hsame ▸ hvisit

theorem covers_visitSteps (pass : Nat) (hrules : Selected rules)
    (hnames : (rules.map Rule.name).Nodup) (steps : Nat) :
    Covers options rules steps
      (Schedule.visitSteps options pass steps (rules.map Rule.recorded)) := by
  induction steps with
  | zero =>
      intro base tree old _ _ _ hheight
      have hpos := old.height_pos
      omega
  | succ steps ih =>
      intro base tree old hbase horder hold hheight
      have hcovered : ∃ log calls final later,
          Records (Schedule.visitSteps options pass (steps + 1) (rules.map Rule.recorded) old.id)
            base (.ofLog log) calls final ∧
          Coverage rules base tree [old.id] calls final later := by
        rcases @answers_cases options _ _ _ _ hrules hbase horder hold with hdeclined |
          ⟨first, rule, rest, response, drafted, final, later, rfl, hfirst, -, hedits, hrun,
            hcommit, heffect, -⟩
        · have hoffer := records_offer_declined hbase.idle hdeclined
          cases rules with
          | nil =>
              exact ⟨[], [], base, tree, hoffer.bind (records_pure Tally.empty base),
                .idle hbase (fun _ _ _ _ => rfl)⟩
          | cons rule rest =>
              have hlegible := Tree.Legible.of_holds hbase hold
              have hids : (base.kind old.id).children = old.subs.map Tree.id := hlegible.children
              have hlisted : Listed base old steps (base.kind old.id).children := by
                rw [hids]
                exact .of_subs (Tree.nodup_ids_of_mem hbase.nodup hold) hheight
              have hroot : tree.id ∉ (base.kind old.id).children := by
                rw [hids]
                intro hin
                obtain ⟨child, hchild, hid⟩ := List.mem_map.mp hin
                have hlink := (hbase.held.of_slot hold hchild).link
                rw [hid, hbase.held.link] at hlink
                cases hlink
              obtain ⟨log, calls, final, later, hrun, hcoverage⟩ :=
                records_visitOwned ih hbase horder hroot hold hlisted
              rw [hids] at hcoverage
              exact ⟨log, _, final, later,
                hoffer.bind ((records_lift (Build.run_kindOf hlegible.lt)).bind hrun),
                hcoverage.of_declined hbase hold hnames⟩
        · refine ⟨[⟨pass, rule.name, old.id⟩], _, final, later,
            (records_offer_committed hbase.idle hfirst hedits hrun hcommit).bind_silent
              (records_pure _ final), ?_⟩
          exact .of_commit hbase hold hnames hedits heffect
      obtain ⟨log, calls, final, later, hrecords, hcoverage⟩ := hcovered
      refine ⟨log, calls, final, later, hrecords, ?_, hcoverage⟩
      exact visit_of_records (runs_visitSteps pass hrules (steps + 1)) Schedule.mirrors_visitSteps
        hbase horder hold hheight hrecords hcoverage.holds hcoverage.same

/-- A recorded pass covers the tree. -/
theorem covers_runPass {schedule : Schedule Unit} (pass : Nat) (hrules : Selected schedule.rules)
    (hnames : (schedule.rules.map Rule.name).Nodup) (hbase : base.Holds tree)
    (horder : tree.Orderly) :
    ∃ log calls final later,
      Records (schedule.recorded.runPass pass tree.id) base (.ofLog log) calls final ∧
      Visit schedule.options schedule.rules base tree tree log final later ∧
      Coverage schedule.rules base tree [tree.id] calls final later := by
  have hsteps : tree.height ≤ base.size + schedule.slack :=
    Nat.le_add_right_of_le hbase.height_le
  obtain ⟨log, calls, final, later, hrun, hcovered⟩ :=
    covers_visitSteps pass hrules hnames _ hbase horder tree.mem_subtrees_self hsteps
  exact ⟨log, calls, final, later, fun before => hrun before, hcovered⟩

end

/-! ## Passes -/

/-- The stores between passes: the one at the start, and the one after each further pass. -/
inductive Schedule.Reaches (schedule : Schedule Unit) (root : NodeId) (start : Store) :
    Nat → Store → Prop where
  | start : Reaches schedule root start 0 start
  | pass {passes : Nat} {store later : Store} {tally : Tally}
      (before : Reaches schedule root start passes store)
      (run : Runs (schedule.runPass (passes + 1) root) store tally later) :
      Reaches schedule root start (passes + 1) later

theorem Schedule.Reaches.exists_tree {schedule : Schedule Unit} {start store : Store} {tree : Tree}
    {passes : Nat} (h : schedule.Reaches tree.id start passes store)
    (hrules : Selected schedule.rules) (hnames : (schedule.rules.map Rule.name).Nodup)
    (hstart : start.Holds tree) (horder : tree.Orderly) :
    ∃ between, store.Holds between ∧ between.id = tree.id ∧ between.Orderly ∧
      store.isErased between.id = start.isErased tree.id := by
  induction h with
  | start => exact ⟨tree, hstart, rfl, horder, rfl⟩
  | @pass passes store later tally _ hrun ih =>
      obtain ⟨between, hholds, hid, hbetween, hawake⟩ := ih
      obtain ⟨log, calls, final, last, hrecords, hvisit, hcoverage⟩ :=
        covers_runPass (passes + 1) hrules hnames hholds hbetween
      obtain ⟨_, rfl, hplain⟩ := Schedule.mirrors_runPass.of_ends (hrecords [])
      rw [hid] at hplain
      obtain ⟨-, rfl⟩ := hrun.unique hplain
      exact ⟨last, hvisit.holds, hvisit.root.trans hid, hvisit.order,
        hcoverage.awake.trans hawake⟩

namespace Engine

variable {engine : Engine} {source : Source} {cancelled : Bool} {passes : Nat} {start : Store}

/-- Every pass over a well-formed unit ends.  It offers reachable nodes, none of them twice to
one rule and none that is erased, unless it is the root and was erased before the run.  A node
that is reachable before and after the pass is offered to every rule, unless a commit was made
for a node that it was at or below. -/
theorem pass_covers_tree (hrules : engine.rules.Sublist Registry.rules) (h : source.WellFormed)
    (hstart : (engine.schedule cancelled).Reaches source.root source.store passes start) :
    ∃ tally calls final,
      Runs ((engine.schedule cancelled).runPass (passes + 1) source.root) start tally final ∧
      Ends ((engine.schedule cancelled).recorded.runPass (passes + 1) source.root) ((), []) start
        tally ((), calls) final ∧
      (∀ call, call ∈ calls → call.node ∈ call.before.preorder source.root ∧
        (call.before.isErased call.node = true →
          call.node = source.root ∧ source.store.isErased source.root = true)) ∧
      (calls.map Call.offer).Nodup ∧
      ∀ id, id ∈ start.preorder source.root → id ∈ final.preorder source.root →
        Spared calls id → ∀ rule, rule ∈ engine.rules →
        ∃ call ∈ calls, call.rule = rule.name ∧ call.node = id := by
  have hselected : Selected engine.rules := fun rule hrule => hrules.subset hrule
  have hnames : (engine.rules.map Rule.name).Nodup := by
    have hall : ((Registry.rules : List (Rule Unit)).map Rule.name).Nodup := by decide
    exact hall.sublist (hrules.map _)
  obtain ⟨tree, htree, hroot, horder, -⟩ := h.toProper.exists_tree
  rw [← hroot] at hstart ⊢
  obtain ⟨between, hholds, hid, hbetween, hawake⟩ :=
    hstart.exists_tree hselected hnames htree horder
  obtain ⟨log, calls, final, later, hrecords, -, hcoverage⟩ :=
    @covers_runPass _ _ (engine.schedule cancelled) (passes + 1) hselected hnames hholds hbetween
  obtain ⟨_, rfl, hplain⟩ := Schedule.mirrors_runPass.of_ends (hrecords [])
  have hends := hrecords []
  have hlive := hcoverage.live
  rw [hid] at hplain
  rw [hid, List.nil_append] at hends
  rw [hawake, hid] at hlive
  refine ⟨_, calls, final, hplain, hends, hlive, hcoverage.once, ?_⟩
  intro id hbefore hafter hspared rule hrule
  rw [← hid, hholds.preorder_eq between.mem_subtrees_self] at hbefore
  rw [← hid, ← hcoverage.same, hcoverage.holds.preorder_eq later.mem_subtrees_self] at hafter
  exact hcoverage.offered between.id id (List.mem_singleton_self _) (Tree.above_root hbefore)
    hafter hspared rule hrule

/-- The first pass over the sample commits once, and offers the root to every rule. -/
theorem pass_covers_tree_sample :
    ∃ tally calls final,
      Ends ((complete.schedule false).recorded.runPass 1 3) ((), []) Source.sample.store tally
        ((), calls) final ∧ tally.changes = 1 ∧ (calls.map Call.offer).Nodup ∧
      ∀ rule, rule ∈ (Registry.rules : List (Rule Unit)) →
        ∃ call ∈ calls, call.rule = rule.name ∧ call.node = 3 := by
  have hrun : ∃ tally calls final,
      Ends ((complete.schedule false).recorded.runPass 1 3) ((), []) Source.sample.store tally
        ((), calls) final ∧ tally.changes = 1 ∧ 3 ∈ final.preorder 3 ∧ Spared calls 3 :=
    ⟨_, _, _, rfl, by decide +kernel, by decide +kernel, by decide +kernel⟩
  obtain ⟨tally, calls, final, hends, hchanges, hreach, hspared⟩ := hrun
  obtain ⟨tally', calls', final', -, hends', -, honce, hoffered⟩ :=
    @pass_covers_tree complete .sample false 0 Source.sample.store (List.Sublist.refl _)
      Source.sample_wellFormed .start
  cases hends.symm.trans hends'
  exact ⟨tally, calls, final, hends, hchanges, honce,
    hoffered 3 (by decide +kernel) hreach hspared⟩

/-- An empty unit that was erased.  The ownership check looks for erased nodes in slots only. -/
def erasedUnit : Source where
  store := { nodes := #[⟨.unit [], none, none, true⟩] }
  root := 0

/-- An erased root is offered as any other node. -/
theorem pass_offers_erased_root :
    erasedUnit.WellFormed ∧ ∃ tally calls final,
      Ends ((complete.schedule false).recorded.runPass 1 0) ((), []) erasedUnit.store tally
        ((), calls) final ∧
      ∃ call ∈ calls, call.before.isErased call.node = true :=
  ⟨by decide +kernel, _, _, _, rfl, by decide +kernel⟩

end Engine

end CodeTidy
