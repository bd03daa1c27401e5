import CodeTidy.Proofs.Grounded
import CodeTidy.Proofs.Recording
import CodeTidy.Proofs.Links
import CodeTidy.Rule.DeadBranch

/-!
# Rules that never edit

A rule that never asks for edits can be added to a list of rules at any place: the run
ends with the same report and the same store (`Schedule.run_insert_idle`).  The added rule
is offered subtrees that no other rule wants to see, so the run is longer, and it ends only
if walks through those subtrees end (`Call.Sound`).  A valid tree at the root is not enough:
a rule that declines may have tied the node it was offered into a circle beside the tree
(`Schedule.run_insert_idle_endless`).
-/

namespace CodeTidy

variable {Memory Own : Type}

/-! ## Rules beside other rules -/

def Rule.widen (rule : Rule Memory) : Rule (Memory × Own) where
  name := rule.name
  respond options node := do
    let (memory, own) ← get
    let (response, memory) ← (rule.respond options node).run memory
    set (memory, own)
    return response

/-- The rule answers every offer without edits, with either signal.  It changes no memory
but its own, and of a store only the requested moves. -/
def Rule.Idle (rule : Rule (Memory × Own)) : Prop :=
  ∀ options node memory own store, ∃ signal own' moves,
    Ends (rule.respond options node) (memory, own) store ⟨[], signal⟩ (memory, own')
      { store with moves := moves }

theorem Rule.respond_widen (rule : Rule Memory) (options : Options) (node : NodeId)
    (memory : Memory) (own : Own) (store : Store) :
    rule.widen.respond options node (memory, own) store =
      (rule.respond options node memory store >>= fun (pair, later) =>
        .ok ((pair.1, (pair.2, own)), later)) := by
  have hrun : rule.widen.respond options node (memory, own) store =
      (((rule.respond options node memory >>= fun pair => pure (pair, (memory, own))) store) >>=
        fun (pair, later) => .ok ((pair.1.1, (pair.1.2, own)), later)) := rfl
  have hlift : (rule.respond options node memory >>= fun pair => pure (pair, (memory, own))) store =
      (rule.respond options node memory store >>= fun (pair, later) =>
        .ok ((pair, (memory, own)), later)) := rfl
  rw [hrun, hlift]
  cases rule.respond options node memory store <;> rfl

theorem Rule.ends_widen {rule : Rule Memory} {options : Options} {node : NodeId}
    {memory memory' : Memory} {store later : Store} {response : Response}
    (h : Ends (rule.respond options node) memory store response memory' later) (own : Own) :
    Ends (rule.widen.respond options node) (memory, own) store response (memory', own) later := by
  unfold Ends at h ⊢
  rw [respond_widen, h]
  rfl

/-- The second list has the rules of the first in their order, and idle rules anywhere. -/
inductive Interleaved : List (Rule Memory) → List (Rule (Memory × Own)) → Prop where
  | nil : Interleaved [] []
  | keep (rule : Rule Memory) {rules : List (Rule Memory)} {more : List (Rule (Memory × Own))}
      (rest : Interleaved rules more) : Interleaved (rule :: rules) (rule.widen :: more)
  | add {idle : Rule (Memory × Own)} {rules : List (Rule Memory)}
      {more : List (Rule (Memory × Own))} (isIdle : idle.Idle) (rest : Interleaved rules more) :
      Interleaved rules (idle :: more)

namespace Interleaved

variable {rules : List (Rule Memory)} {more : List (Rule (Memory × Own))}

theorem of_widen (rules : List (Rule Memory)) :
    Interleaved rules (rules.map (Rule.widen : Rule Memory → Rule (Memory × Own))) := by
  induction rules with
  | nil => exact .nil
  | cons rule rules ih => exact .keep rule ih

theorem of_insert {idle : Rule (Memory × Own)} (h : idle.Idle) (first last : List (Rule Memory)) :
    Interleaved (first ++ last) (first.map Rule.widen ++ idle :: last.map Rule.widen) := by
  induction first with
  | nil => exact .add h (of_widen last)
  | cons rule first ih => exact .keep rule ih

theorem ne_nil (h : Interleaved rules more) (hne : rules ≠ []) : more ≠ [] := by
  cases h with
  | nil => exact absurd rfl hne
  | keep rule rest => exact List.cons_ne_nil _ _
  | add isIdle rest => exact List.cons_ne_nil _ _

end Interleaved

/-! ## Offers -/

theorem Build.moves_of_commit {edits : List Edit} {store later : Store}
    (h : Build.commit edits store = .ok ((), later)) : later.moves = [] := by
  obtain ⟨-, settled, -, h⟩ := Build.exists_of_bind_ok h
  obtain ⟨-, edited, -, h⟩ := Build.exists_of_bind_ok h
  obtain ⟨found, kept, hget, h⟩ := Build.exists_of_bind_ok h
  cases hget
  by_cases hwaiting : (!edited.moves.isEmpty) = true
  · rw [if_pos hwaiting] at h
    cases h
  · rw [if_neg hwaiting] at h
    cases h
    rfl

/-- If the rule asked for nothing, it left no way for a visit to go on from the node that was
offered and come back to it. -/
def Call.Sound (call : Call) : Prop :=
  call.response.edits = [] → call.after.Walkable call.node

theorem Call.sound_of_validAt {call : Call}
    (h : call.response.edits = [] → call.after.forgetMoves.ValidAt call.node) : call.Sound :=
  fun hedits => Store.walkable_forgetMoves.mp (h hedits).walkable

namespace Schedule

variable {options : Options} {pass : Nat} {rules : List (Rule Memory)} {node : NodeId}
  {more : List (Rule (Memory × Own))} {memory memory' : Memory} {calls calls' : List Call}
  {store later : Store}

/-- What the calls of an offer show: no move is left waiting, and if the rules decline, the
last of them left the store as the offer does. -/
theorem calls_of_offer {outcome : Offer (Memory × List Call)} (hidle : store.moves = [])
    (h : Ends (offer options node (rules.map Rule.recorded)) (memory, calls) store outcome
      (memory', calls') later) :
    later.moves = [] ∧ ∃ made, calls' = calls ++ made ∧
      ∀ active, outcome = .declined active → rules ≠ [] →
        ∃ call ∈ made, call.node = node ∧ call.response.edits = [] ∧
          call.after.forgetMoves = later := by
  induction rules generalizing memory calls store outcome with
  | nil =>
      obtain ⟨-, hmemory, rfl⟩ := Ends.of_pure h
      cases hmemory
      exact ⟨hidle, [], (List.append_nil _).symm, fun _ _ hne => absurd rfl hne⟩
  | cons rule rest ih =>
      obtain ⟨response, ⟨memory₁, calls₁⟩, answered, hrespond, h⟩ := Ends.of_bind h
      obtain ⟨-, hcalls⟩ := Rule.ends_recorded.mp hrespond
      by_cases hempty : response.edits.isEmpty = true
      · rw [if_pos hempty] at h
        obtain ⟨_, _, forgotten, hlift, h⟩ := Ends.of_bind h
        obtain ⟨hforget, rfl⟩ := Ends.of_lift hlift
        obtain rfl : forgotten = answered.forgetMoves := by cases hforget; rfl
        obtain ⟨outcome', ⟨memory₂, calls₂⟩, last, hrest, h⟩ := Ends.of_bind h
        obtain ⟨rfl, hsame, rfl⟩ := Ends.of_pure h
        cases hsame
        obtain ⟨hmoves, made, hmade, hdeclined⟩ := ih rfl hrest
        refine ⟨hmoves, ⟨rule.name, node, store, response, answered⟩ :: made, ?_, ?_⟩
        · rw [hmade, hcalls, List.append_assoc, List.singleton_append]
        · intro active hactive _
          cases rest with
          | nil =>
              obtain ⟨-, -, rfl⟩ := Ends.of_pure hrest
              exact ⟨_, List.mem_cons_self .., rfl, List.isEmpty_iff.mp hempty, rfl⟩
          | cons other rest =>
              cases outcome' with
              | committed name => cases hactive
              | declined below =>
                  obtain ⟨call, hcall, hfacts⟩ := hdeclined below rfl (List.cons_ne_nil _ _)
                  exact ⟨call, List.mem_cons_of_mem _ hcall, hfacts⟩
      · rw [if_neg hempty] at h
        obtain ⟨_, _, committed, hlift, h⟩ := Ends.of_bind h
        obtain ⟨hcommit, rfl⟩ := Ends.of_lift hlift
        obtain ⟨rfl, hsame, rfl⟩ := Ends.of_pure h
        cases hsame
        exact ⟨Build.moves_of_commit hcommit, [_], hcalls, by rintro _ ⟨⟩⟩

inductive Offer.Interleaved : Offer Memory → Offer (Memory × Own) → Prop where
  | committed (name : String) : Offer.Interleaved (.committed name) (.committed name)
  | declined {active : List (Rule Memory)} {more : List (Rule (Memory × Own))}
      (rules : CodeTidy.Interleaved active more) :
      Offer.Interleaved (.declined active) (.declined more)

theorem Offer.Interleaved.keep {plain : Offer Memory} {wide : Offer (Memory × Own)}
    (h : Offer.Interleaved plain wide) (rule : Rule Memory) (signal : Signal) :
    Offer.Interleaved (plain.keep rule signal) (wide.keep rule.widen signal) := by
  cases h with
  | committed name => exact .committed name
  | declined rules =>
      cases signal with
      | advance => exact .declined (.keep rule rules)
      | skip => exact .declined rules

theorem Offer.Interleaved.add {plain : Offer Memory} {wide : Offer (Memory × Own)}
    (h : Offer.Interleaved plain wide) {idle : Rule (Memory × Own)} (hidle : idle.Idle)
    (signal : Signal) : Offer.Interleaved plain (wide.keep idle signal) := by
  cases h with
  | committed name => exact .committed name
  | declined rules =>
      cases signal with
      | advance => exact .declined (.add hidle rules)
      | skip => exact .declined rules

/-- An offer comes to the same with idle rules among the others. -/
theorem ends_offer_interleaved {plain : Offer Memory} (hrules : CodeTidy.Interleaved rules more)
    (hidle : store.moves = [])
    (h : Ends (offer options node rules) memory store plain memory' later) (own : Own) :
    ∃ own' wide, Offer.Interleaved plain wide ∧
      Ends (offer options node more) (memory, own) store wide (memory', own') later := by
  induction hrules generalizing memory store plain own with
  | nil =>
      obtain ⟨rfl, rfl, rfl⟩ := Ends.of_pure h
      exact ⟨own, .declined [], .declined .nil, ends_pure _ _ _⟩
  | @keep rule rules more rest ih =>
      obtain ⟨response, memory₁, answered, hrespond, h⟩ := Ends.of_bind h
      have hwide := Rule.ends_widen hrespond own
      by_cases hempty : response.edits.isEmpty = true
      · rw [if_pos hempty] at h
        obtain ⟨_, _, forgotten, hlift, hnext⟩ := Ends.of_bind h
        obtain ⟨hforget, rfl⟩ := Ends.of_lift hlift
        obtain ⟨plain', memory₂, last, hrest, hpure⟩ := Ends.of_bind hnext
        obtain ⟨rfl, rfl, rfl⟩ := Ends.of_pure hpure
        have hmoves : forgotten.moves = [] := by cases hforget; rfl
        obtain ⟨own', wide, hwides, hmore⟩ := ih hmoves hrest own
        refine ⟨own', _, hwides.keep rule response.signal, .bind hwide ?_⟩
        rw [if_pos hempty]
        exact .bind (ends_lift hforget) (.bind hmore (ends_pure _ _ _))
      · rw [if_neg hempty] at h
        obtain ⟨_, _, committed, hlift, hpure⟩ := Ends.of_bind h
        obtain ⟨hcommit, rfl⟩ := Ends.of_lift hlift
        obtain ⟨rfl, rfl, rfl⟩ := Ends.of_pure hpure
        refine ⟨own, _, .committed rule.name, .bind hwide ?_⟩
        rw [if_neg hempty]
        exact .bind (ends_lift hcommit) (ends_pure _ _ _)
  | @add idle rules more isIdle rest ih =>
      obtain ⟨signal, own₁, moves, hanswer⟩ := isIdle options node memory own store
      obtain ⟨own', wide, hwides, hmore⟩ := ih hidle h own₁
      refine ⟨own', _, hwides.add isIdle signal, .bind hanswer ?_⟩
      refine .bind (ends_lift (Build.run_modify Store.forgetMoves _)) ?_
      have hsame : Store.forgetMoves { store with moves := moves } = store :=
        Store.forgetMoves_of_nil hidle
      rw [hsame]
      exact .bind hmore (ends_pure _ _ _)

/-! ## Visits -/

/-- From some number of steps on, the computations of the family commit nothing and leave the
store and the memory of the other rules as they are. -/
def Idles {ι : Type} (memory : Memory) (store : Store)
    (family : ι → Nat → StateT (Memory × Own) Build Tally) : Prop :=
  ∃ bound, ∀ index steps, bound ≤ steps → ∀ own, ∃ own',
    Ends (family index steps) (memory, own) store .empty (memory, own') store

theorem idles_visitOwned {ι : Type} {holder : NodeId} {ids : List NodeId}
    {visit : ι → Nat → NodeId → StateT (Memory × Own) Build Tally}
    (hlt : ∀ id, id ∈ ids → id < store.size)
    (hvisit : ∀ id, id ∈ ids → store.isErased id = false → store.parent id = some holder →
      Idles memory store (fun index steps => visit index steps id)) :
    Idles memory store (fun index steps => visitOwned (visit index steps) holder ids) := by
  induction ids with
  | nil => exact ⟨0, fun _ _ _ own => ⟨own, ends_pure _ _ _⟩⟩
  | cons id ids ih =>
      have hlookup := Build.run_lookup (hlt id (List.mem_cons_self ..))
      obtain ⟨bound, hrest⟩ := ih (fun other hother => hlt other (List.mem_cons_of_mem _ hother))
        (fun other hother => hvisit other (List.mem_cons_of_mem _ hother))
      by_cases hskip : ((store.node id).erased || (store.node id).parent != some holder) = true
      · refine ⟨bound, fun index steps hsteps own => ?_⟩
        obtain ⟨own', hends⟩ := hrest index steps hsteps own
        refine ⟨own', .bind (ends_lift hlookup) ?_⟩
        rw [if_pos hskip]
        exact .bind (ends_pure _ _ _) (.bind hends (ends_pure _ _ _))
      · obtain ⟨hlive, hlink⟩ : store.isErased id = false ∧ store.parent id = some holder := by
          simpa [Store.isErased, Store.parent] using hskip
        obtain ⟨bound', hhere⟩ := hvisit id (List.mem_cons_self ..) hlive hlink
        refine ⟨max bound bound', fun index steps hsteps own => ?_⟩
        obtain ⟨own₁, hhere⟩ := hhere index steps (by omega) own
        obtain ⟨own', hends⟩ := hrest index steps (by omega) own₁
        refine ⟨own', .bind (ends_lift hlookup) ?_⟩
        rw [if_neg hskip]
        exact .bind hhere (.bind hends (ends_pure _ _ _))

abbrev OnlyIdle (Memory Own : Type) : Type :=
  { more : List (Rule (Memory × Own)) // CodeTidy.Interleaved ([] : List (Rule Memory)) more }

/-- Idle rules alone go on from a node as far as they visit what is entered from it. -/
theorem idles_below (hwalk : store.Walkable node)
    (hbelow : ∀ child, store.Enters node child → Idles memory store
      (fun (more : OnlyIdle Memory Own) steps => visitSteps options pass steps more.1 child)) :
    Idles memory store (fun (more : OnlyIdle Memory Own) steps => do
      let kind ← Build.kindOf node
      visitOwned (visitSteps options pass steps more.1) node kind.children) := by
  obtain ⟨bound, hchildren⟩ := idles_visitOwned (hwalk.slots _ .refl)
    (fun child hchild hlive hlink => hbelow child ⟨hchild, hlive, hlink⟩)
  refine ⟨bound, fun more steps hsteps own => ?_⟩
  obtain ⟨own', hends⟩ := hchildren more steps hsteps own
  exact ⟨own', .bind (ends_lift (Build.run_kindOf hwalk.lt)) hends⟩

/-- A visit of a node that all rules but the idle ones turn away from. -/
theorem exists_ends_withdrawn {steps : Nat} (hrules : CodeTidy.Interleaved rules more)
    (hidle : store.moves = [])
    (hoffer : Ends (offer options node rules) memory store (.declined []) memory' later)
    (hbelow : ∀ (others : OnlyIdle Memory Own) own, ∃ own', Ends
      (do
        let kind ← Build.kindOf node
        visitOwned (visitSteps options pass steps others.1) node kind.children)
      (memory', own) later .empty (memory', own') later) (own : Own) :
    ∃ own', Ends (visitSteps options pass (steps + 1) more node) (memory, own) store .empty
      (memory', own') later := by
  obtain ⟨own₁, wide, hwide, hmore⟩ := ends_offer_interleaved hrules hidle hoffer own
  cases hwide with
  | @declined _ others hothers =>
      cases others with
      | nil => exact ⟨own₁, .bind hmore (ends_pure _ _ _)⟩
      | cons idle others =>
          obtain ⟨own', hends⟩ := hbelow ⟨_, hothers⟩ own₁
          exact ⟨own', .bind hmore hends⟩

theorem exists_ends_committed {name : String} {steps : Nat}
    (hrules : CodeTidy.Interleaved rules more) (hidle : store.moves = [])
    (hoffer : Ends (offer options node rules) memory store (.committed name) memory' later)
    (own : Own) :
    ∃ own', Ends (visitSteps options pass (steps + 1) more node) (memory, own) store
      (.single ⟨pass, name, node⟩) (memory', own') later := by
  obtain ⟨own', wide, hwide, hmore⟩ := ends_offer_interleaved hrules hidle hoffer own
  cases hwide with
  | committed => exact ⟨own', .bind hmore (ends_pure _ _ _)⟩

/-- A visit that goes on below the node with the rules still active. -/
theorem exists_ends_active {rule : Rule Memory} {active : List (Rule Memory)} {steps : Nat}
    {tally : Tally} {memory₁ : Memory} {middle : Store}
    (hrules : CodeTidy.Interleaved rules more) (hidle : store.moves = [])
    (hoffer : Ends (offer options node rules) memory store (.declined (rule :: active)) memory₁
      middle)
    (hbelow : ∀ (others : { others : List (Rule (Memory × Own)) //
        CodeTidy.Interleaved (rule :: active) others }) own, ∃ own', Ends
      (do
        let kind ← Build.kindOf node
        visitOwned (visitSteps options pass steps others.1) node kind.children)
      (memory₁, own) middle tally (memory', own') later) (own : Own) :
    ∃ own', Ends (visitSteps options pass (steps + 1) more node) (memory, own) store tally
      (memory', own') later := by
  obtain ⟨own₁, wide, hwide, hmore⟩ := ends_offer_interleaved hrules hidle hoffer own
  cases hwide with
  | @declined _ others hothers =>
      obtain ⟨own', hends⟩ := hbelow ⟨others, hothers⟩ own₁
      cases others with
      | nil => exact absurd rfl (hothers.ne_nil (List.cons_ne_nil _ _))
      | cons first others => exact ⟨own', .bind hmore hends⟩

/-- Idle rules alone walk along owned links and leave everything as it is. -/
theorem idles_visitSteps (hidle : store.moves = []) (hwalk : store.Walkable node) :
    Idles memory store
      (fun (more : OnlyIdle Memory Own) steps => visitSteps options pass steps more.1 node) := by
  induction hwalk using Store.Walkable.induct with
  | node id hwalk ih =>
      obtain ⟨bound, hbelow⟩ := idles_below hwalk ih
      refine ⟨bound + 1, fun more steps hsteps own => ?_⟩
      obtain ⟨steps, rfl⟩ : ∃ fewer, steps = fewer + 1 := ⟨steps - 1, by omega⟩
      exact exists_ends_withdrawn more.2 hidle (ends_pure _ _ _)
        (fun others own => hbelow others steps (by omega) own) own

/-- Whenever the recorded computation ends and its calls are sound, the computations of the
family end in the same way, from some number of steps on. -/
def Follows {α ι : Type} (plain : StateT (Memory × List Call) Build α)
    (family : ι → Nat → StateT (Memory × Own) Build α) : Prop :=
  ∀ memory calls store value memory' calls' later, store.moves = [] →
    Ends plain (memory, calls) store value (memory', calls') later →
    later.moves = [] ∧ ∃ made, calls' = calls ++ made ∧
      ((∀ call, call ∈ made → call.Sound) → ∃ bound, ∀ index steps, bound ≤ steps →
        ∀ own, ∃ own', Ends (family index steps) (memory, own) store value (memory', own')
          later)

namespace Follows

variable {α β ι : Type}

theorem pure (value : α) :
    Follows (Pure.pure value : StateT (Memory × List Call) Build α)
      (fun (_ : ι) _ => (Pure.pure value : StateT (Memory × Own) Build α)) := by
  intro memory calls store found memory' calls' later hidle h
  obtain ⟨rfl, hmemory, rfl⟩ := Ends.of_pure h
  cases hmemory
  exact ⟨hidle, [], (List.append_nil _).symm, fun _ => ⟨0, fun _ _ _ own => ⟨own, ends_pure _ _ _⟩⟩⟩

theorem lift {action : Build α}
    (hreads : ∀ store value later, action store = .ok (value, later) → later = store) :
    Follows (liftM action : StateT (Memory × List Call) Build α)
      (fun (_ : ι) _ => (liftM action : StateT (Memory × Own) Build α)) := by
  intro memory calls store value memory' calls' later hidle h
  obtain ⟨haction, hmemory⟩ := Ends.of_lift h
  cases hmemory
  refine ⟨hreads _ _ _ haction ▸ hidle, [], (List.append_nil _).symm, fun _ => ⟨0, ?_⟩⟩
  exact fun _ _ _ own => ⟨own, ends_lift haction⟩

theorem bind {plain : StateT (Memory × List Call) Build α}
    {family : ι → Nat → StateT (Memory × Own) Build α}
    {next : α → StateT (Memory × List Call) Build β}
    {nextFamily : α → ι → Nat → StateT (Memory × Own) Build β} (h : Follows plain family)
    (hnext : ∀ value, Follows (next value) (nextFamily value)) :
    Follows (plain >>= next)
      (fun index steps => family index steps >>= fun value => nextFamily value index steps) := by
  intro memory calls store value memory' calls' later hidle hends
  obtain ⟨found, ⟨memory₁, calls₁⟩, middle, hfirst, hrest⟩ := Ends.of_bind hends
  obtain ⟨hmiddle, made₁, rfl, hfamily⟩ := h _ _ _ _ _ _ _ hidle hfirst
  obtain ⟨hlater, made₂, rfl, hnextFamily⟩ := hnext found _ _ _ _ _ _ _ hmiddle hrest
  refine ⟨hlater, made₁ ++ made₂, List.append_assoc .., ?_⟩
  intro hsound
  obtain ⟨bound₁, hbound₁⟩ := hfamily (fun call hcall => hsound call (List.mem_append_left _ hcall))
  obtain ⟨bound₂, hbound₂⟩ :=
    hnextFamily (fun call hcall => hsound call (List.mem_append_right _ hcall))
  refine ⟨max bound₁ bound₂, ?_⟩
  intro index steps hsteps own
  obtain ⟨own₁, hends₁⟩ := hbound₁ index steps (by omega) own
  obtain ⟨own₂, hends₂⟩ := hbound₂ index steps (by omega) own₁
  exact ⟨own₂, .bind hends₁ hends₂⟩

theorem ite {condition : Prop} [Decidable condition]
    {yes no : StateT (Memory × List Call) Build α}
    {yesFamily noFamily : ι → Nat → StateT (Memory × Own) Build α}
    (hyes : condition → Follows yes yesFamily) (hno : ¬ condition → Follows no noFamily) :
    Follows (if condition then yes else no)
      (fun index steps => if condition then yesFamily index steps else noFamily index steps) := by
  by_cases h : condition
  · simp only [if_pos h]
    exact hyes h
  · simp only [if_neg h]
    exact hno h

end Follows

theorem follows_visitOwned {ι : Type}
    {plain : NodeId → StateT (Memory × List Call) Build Tally}
    {family : NodeId → ι → Nat → StateT (Memory × Own) Build Tally}
    (h : ∀ id, Follows (plain id) (family id)) (holder : NodeId) (ids : List NodeId) :
    Follows (visitOwned plain holder ids)
      (fun index steps => visitOwned (fun id => family id index steps) holder ids) := by
  induction ids with
  | nil => exact .pure Tally.empty
  | cons child rest ih =>
      refine .bind (.lift (fun _ _ _ hlookup => (Build.lookup_cases hlookup).1)) ?_
      intro found
      exact .ite
        (fun _ =>
          .bind (.pure Tally.empty) (fun here => .bind ih (fun later => .pure (here ++ later))))
        (fun _ => .bind (h child) (fun here => .bind ih (fun later => .pure (here ++ later))))

/-- What is below a node is visited in the same way as soon as its children are. -/
theorem follows_below {steps : Nat}
    (h : ∀ child, Follows (visitSteps options pass steps (rules.map Rule.recorded) child)
      (fun (more : { more : List (Rule (Memory × Own)) // CodeTidy.Interleaved rules more })
        steps => visitSteps options pass steps more.1 child)) (node : NodeId) :
    Follows
      (do
        let kind ← Build.kindOf node
        visitOwned (visitSteps options pass steps (rules.map Rule.recorded)) node kind.children)
      (fun (more : { more : List (Rule (Memory × Own)) // CodeTidy.Interleaved rules more })
          steps => do
        let kind ← Build.kindOf node
        visitOwned (visitSteps options pass steps more.1) node kind.children) :=
  .bind (.lift (fun _ _ _ hkind => Build.store_of_kindOf hkind))
    (fun kind => follows_visitOwned h node kind.children)

/-- Visits with idle rules among the others come to the same. -/
theorem follows_visitSteps (steps : Nat) (hne : rules ≠ []) :
    Follows (visitSteps options pass steps (rules.map Rule.recorded) node)
      (fun (more : { more : List (Rule (Memory × Own)) // CodeTidy.Interleaved rules more })
        steps => visitSteps options pass steps more.1 node) := by
  induction steps generalizing rules node with
  | zero =>
      intro memory calls store value memory' calls' later _ h
      cases h
  | succ steps ih =>
      intro memory calls store value memory' calls' later hidle h
      obtain ⟨outcome, ⟨memory₁, calls₁⟩, middle, hoffer, h⟩ := Ends.of_bind h
      obtain ⟨hmiddle, made, rfl, hlast⟩ := calls_of_offer hidle hoffer
      obtain ⟨plain, hplain, hends⟩ := mirrors_offer.of_ends hoffer
      cases hplain with
      | committed name =>
          obtain ⟨rfl, hsame, rfl⟩ := Ends.of_pure h
          cases hsame
          refine ⟨hmiddle, made, rfl, fun _ => ⟨1, fun more steps hsteps own => ?_⟩⟩
          obtain ⟨steps, rfl⟩ : ∃ fewer, steps = fewer + 1 := ⟨steps - 1, by omega⟩
          exact exists_ends_committed more.2 hidle hends own
      | declined active =>
          cases active with
          | nil =>
              -- every rule withdrew: only idle rules go on below the node
              obtain ⟨rfl, hsame, rfl⟩ := Ends.of_pure h
              cases hsame
              refine ⟨hmiddle, made, rfl, ?_⟩
              intro hsound
              obtain ⟨call, hcall, rfl, hedits, rfl⟩ := hlast _ rfl hne
              have hwalk := Store.walkable_forgetMoves.mpr (hsound call hcall hedits)
              obtain ⟨bound, hbelow⟩ := idles_below hwalk
                (fun child henters => idles_visitSteps hmiddle (hwalk.of_enters henters))
              refine ⟨bound + 1, fun more steps hsteps own => ?_⟩
              obtain ⟨steps, rfl⟩ : ∃ fewer, steps = fewer + 1 := ⟨steps - 1, by omega⟩
              exact exists_ends_withdrawn more.2 hidle hends
                (fun others own => hbelow others steps (by omega) own) own
          | cons rule active =>
              obtain ⟨hlater, below, rfl, hbound⟩ := follows_below
                (fun _ => ih (List.cons_ne_nil rule active)) node _ _ _ _ _ _ _ hmiddle h
              refine ⟨hlater, made ++ below, List.append_assoc .., ?_⟩
              intro hsound
              obtain ⟨bound, hbound⟩ :=
                hbound (fun call hcall => hsound call (List.mem_append_right _ hcall))
              refine ⟨bound + 1, fun more steps hsteps own => ?_⟩
              obtain ⟨steps, rfl⟩ : ∃ fewer, steps = fewer + 1 := ⟨steps - 1, by omega⟩
              exact exists_ends_active more.2 hidle hends
                (fun others own => hbound others steps (by omega) own) own

/-! ## Runs -/

variable {schedule : Schedule Memory} {root : NodeId}

def withRules (schedule : Schedule Memory) (rules : List (Rule (Memory × Own))) (slack : Nat) :
    Schedule (Memory × Own) where
  rules := rules
  options := schedule.options
  maxPasses := schedule.maxPasses
  cancelled := schedule.cancelled
  slack := slack

theorem follows_runPass (hne : schedule.rules ≠ []) :
    Follows (schedule.recorded.runPass pass root)
      (fun (more : { more : List (Rule (Memory × Own)) //
          CodeTidy.Interleaved schedule.rules more }) slack =>
        (schedule.withRules more.1 slack).runPass pass root) := by
  intro memory calls store applied memory' calls' later hidle h
  obtain ⟨hlater, made, hmade, hbound⟩ :=
    follows_visitSteps (store.size + schedule.slack) hne _ _ _ _ _ _ _ hidle h
  refine ⟨hlater, made, hmade, ?_⟩
  intro hsound
  obtain ⟨bound, hbound⟩ := hbound hsound
  refine ⟨bound, ?_⟩
  intro more slack hslack own
  exact hbound more (store.size + slack) (by omega) own

theorem follows_runPasses (hne : schedule.rules ≠ []) (remaining : Nat) (done : Report) :
    Follows (schedule.recorded.runPasses root remaining done)
      (fun (more : { more : List (Rule (Memory × Own)) //
          CodeTidy.Interleaved schedule.rules more }) slack =>
        (schedule.withRules more.1 slack).runPasses root remaining done) := by
  induction remaining generalizing done with
  | zero => exact .pure _
  | succ remaining ih =>
      refine .ite (fun _ => .pure _) (fun _ => .bind (follows_runPass hne) ?_)
      exact fun applied => .ite (fun _ => .pure _) (fun _ => ih _)

theorem of_runPass_nil {tally : Tally} (hnil : schedule.rules = []) (hroot : root < store.size)
    (h : Ends (schedule.runPass pass root) memory store tally memory' later) :
    tally = .empty ∧ memory' = memory ∧ later = store := by
  obtain ⟨steps, hsteps⟩ : ∃ steps, store.size + schedule.slack = steps + 1 :=
    Nat.exists_eq_add_one.mpr (Nat.add_pos_left (Nat.zero_lt_of_lt hroot) _)
  have hvisit : Ends (visitSteps schedule.options pass (store.size + schedule.slack)
    schedule.rules root) memory store tally memory' later := h
  rw [hnil, hsteps] at hvisit
  exact hvisit.of_pure

/-- Without any other rule, idle rules find nothing to do in one pass. -/
theorem ends_run_idle (hrules : CodeTidy.Interleaved ([] : List (Rule Memory)) more)
    (hnil : schedule.rules = []) (hvalid : store.ValidAt root) {report : Report}
    (h : Ends (schedule.run root) memory store report memory' later) :
    ∃ bound, ∀ slack, bound ≤ slack → ∀ own : Own, ∃ own',
      Ends ((schedule.withRules more slack).run root) (memory, own) store report
        (memory', own') later := by
  unfold run at h ⊢
  cases hpasses : schedule.maxPasses with
  | zero =>
      rw [hpasses] at h
      obtain ⟨rfl, rfl, rfl⟩ := Ends.of_pure h
      refine ⟨0, fun slack _ own => ⟨own, ?_⟩⟩
      rw [show (schedule.withRules more slack).maxPasses = 0 from hpasses]
      exact ends_pure _ _ _
  | succ passes =>
      rw [hpasses] at h
      unfold runPasses at h
      by_cases hcancelled : schedule.cancelled = true
      · rw [if_pos hcancelled] at h
        obtain ⟨rfl, rfl, rfl⟩ := Ends.of_pure h
        refine ⟨0, fun slack _ own => ⟨own, ?_⟩⟩
        rw [show (schedule.withRules more slack).maxPasses = passes + 1 from hpasses]
        unfold runPasses
        rw [if_pos (show (schedule.withRules more slack).cancelled = true from hcancelled)]
        exact ends_pure _ _ _
      · rw [if_neg hcancelled] at h
        obtain ⟨tally, memory₁, middle, hpass, hpure⟩ := Ends.of_bind h
        obtain ⟨rfl, rfl, rfl⟩ := of_runPass_nil hnil hvalid.1 hpass
        obtain ⟨rfl, rfl, rfl⟩ := Ends.of_pure hpure
        obtain ⟨bound, hidles⟩ := idles_visitSteps hvalid.moves hvalid.walkable
        refine ⟨bound, fun slack hslack own => ?_⟩
        obtain ⟨own', hvisit⟩ := hidles ⟨more, hrules⟩ (later.size + slack) (by omega) own
        refine ⟨own', ?_⟩
        rw [show (schedule.withRules more slack).maxPasses = passes + 1 from hpasses]
        unfold runPasses
        rw [if_neg (show ¬ (schedule.withRules more slack).cancelled = true from hcancelled)]
        exact .bind hvisit (ends_pure _ _ _)

/-- A rule that never asks for edits is invisible, wherever it stands among the others: the
run with it ends with the report, the memory and the store of the run without it, once its
paths may be long enough.  The run without it must end, from a valid tree, and no rule that
declines a node may tie that node into a circle. -/
theorem run_insert_idle {first last : List (Rule Memory)} {idle : Rule (Memory × Own)}
    {report : Report} {final : Store} (hidle : idle.Idle) (hrules : schedule.rules = first ++ last)
    (hvalid : store.ValidAt root)
    (hrun : Ends (schedule.run root) memory store report memory' final)
    (hsound : ∀ call, call ∈ schedule.calls root memory store → call.Sound) :
    ∃ bound, ∀ slack, bound ≤ slack → ∀ own, ∃ own',
      Ends ((schedule.withRules (first.map Rule.widen ++ idle :: last.map Rule.widen) slack).run
        root) (memory, own) store report (memory', own') final := by
  have hmore : CodeTidy.Interleaved schedule.rules
      (first.map Rule.widen ++ idle :: last.map Rule.widen) := hrules ▸ .of_insert hidle first last
  by_cases hnil : schedule.rules = []
  · rw [hnil] at hmore
    exact ends_run_idle hmore hnil hvalid hrun
  · obtain ⟨_, calls, rfl, hrecorded⟩ := mirrors_run.exists_ends hrun []
    have hcalls : schedule.calls root memory store = calls := by
      have hok : schedule.recorded.run root (memory, []) store = .ok ((_, (_, calls)), _) :=
        hrecorded
      unfold Schedule.calls
      rw [hok]
    obtain ⟨-, made, hmade, hbound⟩ :=
      follows_runPasses hnil schedule.maxPasses _ _ _ _ _ _ _ _ hvalid.moves hrecorded
    rw [hcalls, hmade, List.nil_append] at hsound
    obtain ⟨bound, hbound⟩ := hbound hsound
    exact ⟨bound, fun slack hslack own => hbound ⟨_, hmore⟩ slack hslack own⟩

def outsideLoops : Rule Unit :=
  .plain "OutsideLoops" (fun options node => do
    match ← Build.kindOf node with
    | .whileStmt _ _ => return ⟨[], .skip⟩
    | _ => DeadBranch.respond options node)

/-- Counts its offers, asks for a move of what it is offered and turns away from every third
node. -/
def counting : Rule (Unit × Nat) where
  name := "Counting"
  respond _ node := do
    let (memory, count) ← get
    set (memory, count + 1)
    modifyThe Store (fun store => store.requestMove node)
    return ⟨[], if count % 3 = 2 then .skip else .advance⟩

/-- The unit `if (true) {} while (c) {}`. -/
def deadBeforeLoop : Store where
  nodes := #[
    ⟨.literal (.bool true), none, some 2, false⟩,
    ⟨.block [], none, some 2, false⟩,
    ⟨.ifStmt 0 1 none, none, some 6, false⟩,
    ⟨.name "c" none, none, some 5, false⟩,
    ⟨.block [], none, some 5, false⟩,
    ⟨.whileStmt 3 4, none, some 6, false⟩,
    ⟨.unit [2, 5], none, none, false⟩]

/-- Counting goes into the loop that the other rule leaves alone, and nothing shows. -/
theorem run_insert_idle_counting :
    ∃ report final, Ends (Schedule.run ⟨[outsideLoops], {}, 10, false, 0⟩ 6) () deadBeforeLoop
        report () final ∧
      report.changes = 1 ∧ ∃ bound, ∀ slack, bound ≤ slack → ∀ own, ∃ own',
        Ends (Schedule.run ⟨[counting, outsideLoops.widen], {}, 10, false, slack⟩ 6)
          ((), own) deadBeforeLoop report ((), own') final := by
  have hrun : ∃ report final, Ends (Schedule.run ⟨[outsideLoops], {}, 10, false, 0⟩ 6) ()
      deadBeforeLoop report () final ∧ report.changes = 1 := ⟨_, _, rfl, by decide +kernel⟩
  obtain ⟨report, final, hrun, hchanges⟩ := hrun
  have hidle : counting.Idle := fun _ _ _ _ _ => ⟨_, _, _, rfl⟩
  have hsound : ∀ call, call ∈ Schedule.calls ⟨[outsideLoops], {}, 10, false, 0⟩ 6 ()
      deadBeforeLoop →
        call.response.edits = [] → call.after.forgetMoves.ValidAt call.node := by
    decide +kernel
  exact ⟨report, final, hrun, hchanges,
    run_insert_idle hidle (List.nil_append _).symm (by decide +kernel) hrun
      (fun call hcall => Call.sound_of_validAt (hsound call hcall))⟩

/-! ## Circles beside the tree -/

/-- The computation follows a path that is longer than it may be. -/
def Endless {α : Type} (computation : StateT Memory Build α) (memory : Memory) (store : Store) :
    Prop :=
  computation memory store = .error .endlessPath

namespace Endless

variable {α β : Type} {first : StateT Memory Build α} {next : α → StateT Memory Build β}

theorem bind (h : Endless first memory store) : Endless (first >>= next) memory store := by
  have hrun : (first >>= next) memory store =
      (first memory store >>= fun (pair, later) => next pair.1 pair.2 later) := rfl
  unfold Endless at h ⊢
  rw [hrun, h]
  rfl

theorem bind_next {value : α} (h : Ends first memory store value memory' later)
    (hnext : Endless (next value) memory' later) : Endless (first >>= next) memory store := by
  have hrun : (first >>= next) memory store =
      (first memory store >>= fun (pair, later) => next pair.1 pair.2 later) := rfl
  unfold Ends at h
  unfold Endless at hnext ⊢
  rw [hrun, h]
  exact hnext

end Endless

theorem endless_visitSteps {steps : Nat} {rule : Rule Memory} {active : List (Rule Memory)}
    {child : NodeId} {rest : List NodeId}
    (hoffer : Ends (offer options node rules) memory store (.declined (rule :: active)) memory'
      later) (hlt : node < later.size) (hslots : (later.kind node).children = child :: rest)
    (hchild : child < later.size) (henters : later.Enters node child)
    (hbelow : Endless (visitSteps options pass steps (rule :: active) child) memory' later) :
    Endless (visitSteps options pass (steps + 1) rules node) memory store := by
  refine .bind_next hoffer (.bind_next (ends_lift (Build.run_kindOf hlt)) ?_)
  rw [hslots]
  refine .bind_next (ends_lift (Build.run_lookup hchild)) ?_
  have hgoes : ((later.node child).erased || (later.node child).parent != some node) ≠ true := by
    simpa [Store.isErased, Store.parent] using henters.2
  rw [if_neg hgoes]
  exact hbelow.bind

def watching : Rule (Unit × Unit) where
  name := "Watching"
  respond _ _ := return .decline

/-- Puts block 2 below itself and an empty block into its place, and then turns away. -/
def knotting : Rule Unit :=
  .plain "Knotting" (fun _ node => do
    if node = 2 then
      let _ ← Build.take 2
      Build.replace 0 2
      let empty ← Build.block []
      Build.replace 3 empty
      return ⟨[], .skip⟩
    else
      return .decline)

/-- The unit `{ { { break; } } }`. -/
def nestedBlocks : Store where
  nodes := #[
    ⟨.breakStmt none, none, some 1, false⟩,
    ⟨.block [0], none, some 2, false⟩,
    ⟨.block [1], none, some 3, false⟩,
    ⟨.block [2], none, some 4, false⟩,
    ⟨.unit [3], none, none, false⟩]

/-- The unit `{}` beside two blocks that hold each other. -/
def knotted : Store where
  nodes := #[
    ⟨.breakStmt none, none, none, true⟩,
    ⟨.block [2], none, some 2, false⟩,
    ⟨.block [1], none, some 1, false⟩,
    ⟨.block [2], none, none, true⟩,
    ⟨.unit [5], none, none, false⟩,
    ⟨.block [], none, some 4, false⟩]

theorem endless_knotted (steps : Nat) :
    Endless (visitSteps {} 1 steps [watching] 1) ((), ()) knotted ∧
      Endless (visitSteps {} 1 steps [watching] 2) ((), ()) knotted := by
  induction steps with
  | zero => exact ⟨rfl, rfl⟩
  | succ steps ih =>
      exact ⟨endless_visitSteps rfl (by decide) rfl (by decide) (by decide +kernel) ih.2,
        endless_visitSteps rfl (by decide) rfl (by decide) (by decide +kernel) ih.1⟩

/-- The visit of the watching rule comes into the circle as soon as the other rule has tied it. -/
theorem endless_nestedBlocks (steps : Nat) :
    Endless (visitSteps {} 1 steps [knotting.widen, watching] 4) ((), ()) nestedBlocks := by
  have hblock : ∀ steps, Endless (visitSteps {} 1 steps [knotting.widen, watching] 2) ((), ())
      nestedBlocks := by
    rintro (_ | steps)
    · rfl
    · exact @endless_visitSteps _ _ _ _ _ _ _ nestedBlocks knotted _ watching [] 1 [] rfl
        (by decide) rfl (by decide) (by decide +kernel) (endless_knotted steps).1
  have houter : ∀ steps, Endless (visitSteps {} 1 steps [knotting.widen, watching] 3) ((), ())
      nestedBlocks := by
    rintro (_ | steps)
    · rfl
    · exact endless_visitSteps rfl (by decide) rfl (by decide) (by decide +kernel) (hblock steps)
  rcases steps with _ | steps
  · rfl
  · exact endless_visitSteps rfl (by decide) rfl (by decide) (by decide +kernel) (houter steps)

/-- A tree that is valid from the root is not enough.  Without the watching rule the run
converges, and its tree is valid after every call; with it no bound on the paths is enough. -/
theorem run_insert_idle_endless :
    watching.Idle ∧ nestedBlocks.ValidAt 4 ∧
      (∃ report final, Ends (Schedule.run ⟨[knotting], {}, 10, false, 0⟩ 4) () nestedBlocks report
        () final ∧ report = ⟨.converged, 1, 0, []⟩) ∧
      (∀ call, call ∈ Schedule.calls ⟨[knotting], {}, 10, false, 0⟩ 4 () nestedBlocks →
        call.response.edits = [] ∧ call.after.forgetMoves.ValidAt 4) ∧
      ∀ slack report memory final,
        ¬ Ends (Schedule.run ⟨[knotting.widen, watching], {}, 10, false, slack⟩ 4) ((), ())
          nestedBlocks report memory final := by
  refine ⟨fun _ _ _ _ store => ⟨.advance, (), store.moves, rfl⟩, by decide +kernel,
    ⟨_, _, rfl, by decide +kernel⟩, by decide +kernel, ?_⟩
  intro slack report memory final hends
  have hpass : Endless (Schedule.runPass ⟨[knotting.widen, watching], {}, 10, false, slack⟩ 1 4)
      ((), ()) nestedBlocks := endless_nestedBlocks (nestedBlocks.size + slack)
  unfold run runPasses at hends
  rw [if_neg Bool.false_ne_true] at hends
  cases hends.symm.trans hpass.bind

end Schedule

end CodeTidy
