import CodeTidy.Pass

/-!
# Recorded runs

A rule sees a node when it is offered that node.  `Rule.recorded` keeps a list of these
calls in the memory of the rule, with the stores before and after each of them, so that
statements can be made about what a run offers to whom.  Recording changes nothing else:
a recorded run ends with the result, the memory and the store of the plain run
(`Schedule.mirrors_run`).
-/

namespace CodeTidy

/-- One offer of a node to a rule. -/
structure Call where
  rule : String
  node : NodeId
  /-- The store when the node was offered. -/
  before : Store
  response : Response
  /-- The store when the rule had answered. -/
  after : Store
deriving DecidableEq

variable {Memory Extra : Type}

def Rule.recorded (rule : Rule Memory) : Rule (Memory × List Call) where
  name := rule.name
  respond options node := do
    let (memory, calls) ← get
    let before ← getThe Store
    let (response, memory) ← (rule.respond options node).run memory
    let after ← getThe Store
    set (memory, calls ++ [⟨rule.name, node, before, response, after⟩])
    return response

namespace Schedule

def recorded (schedule : Schedule Memory) : Schedule (Memory × List Call) where
  rules := schedule.rules.map Rule.recorded
  options := schedule.options
  maxPasses := schedule.maxPasses
  cancelled := schedule.cancelled
  slack := schedule.slack

/-- The calls that a run makes, in order; none if it ends in a fault. -/
def calls (schedule : Schedule Memory) (root : NodeId) (memory : Memory) (store : Store) :
    List Call :=
  match schedule.recorded.run root (memory, []) store with
  | .ok ((_, (_, calls)), _) => calls
  | .error _ => []

end Schedule

/-! ## Computations with a memory -/

/-- The computation ends with a value, and leaves this memory and this store. -/
def Ends {α : Type} (computation : StateT Memory Build α) (memory : Memory) (store : Store)
    (value : α) (memory' : Memory) (later : Store) : Prop :=
  computation memory store = .ok ((value, memory'), later)

section

variable {α β : Type} {computation : StateT Memory Build α} {next : α → StateT Memory Build β}
  {memory memory' middleMemory : Memory} {store middle later : Store} {value : α} {result : β}

theorem Ends.bind (h : Ends computation memory store value middleMemory middle)
    (hnext : Ends (next value) middleMemory middle result memory' later) :
    Ends (computation >>= next) memory store result memory' later := by
  have hrun : (computation >>= next) memory store =
      (computation memory store >>= fun (pair, later) => next pair.1 pair.2 later) := rfl
  unfold Ends at h ⊢
  rw [hrun, h]
  exact hnext

theorem Ends.of_bind (h : Ends (computation >>= next) memory store result memory' later) :
    ∃ value middleMemory middle, Ends computation memory store value middleMemory middle ∧
      Ends (next value) middleMemory middle result memory' later := by
  have hrun : (computation >>= next) memory store =
      (computation memory store >>= fun (pair, later) => next pair.1 pair.2 later) := rfl
  unfold Ends at h ⊢
  rw [hrun] at h
  cases hfirst : computation memory store with
  | error fault =>
      rw [hfirst] at h
      cases h
  | ok pair =>
      rw [hfirst] at h
      exact ⟨pair.1.1, pair.1.2, pair.2, rfl, h⟩

theorem ends_pure (value : α) (memory : Memory) (store : Store) :
    Ends (pure value) memory store value memory store := rfl

theorem Ends.of_pure {found : α} (h : Ends (pure value) memory store found memory' later) :
    found = value ∧ memory' = memory ∧ later = store := by
  cases h
  exact ⟨rfl, rfl, rfl⟩

theorem ends_lift {action : Build α} (h : action store = .ok (value, later)) :
    Ends (liftM action) memory store value memory later := by
  have hrun : (liftM action : StateT Memory Build α) memory store =
      (action store >>= fun (value, later) => .ok ((value, memory), later)) := rfl
  unfold Ends
  rw [hrun, h]
  rfl

/-- A computation on the store alone leaves the memory as it is. -/
theorem Ends.of_lift {action : Build α} (h : Ends (liftM action) memory store value memory' later) :
    action store = .ok (value, later) ∧ memory' = memory := by
  have hrun : (liftM action : StateT Memory Build α) memory store =
      (action store >>= fun (value, later) => .ok ((value, memory), later)) := rfl
  unfold Ends at h
  rw [hrun] at h
  cases haction : action store with
  | error fault =>
      rw [haction] at h
      cases h
  | ok pair =>
      rw [haction] at h
      cases h
      exact ⟨rfl, rfl⟩

end

/-! ## Computations with more memory -/

/-- Both computations end with the same fault, or with the same memory, the same store and
related values, whatever the additional memory is. -/
def Mirrors {α β : Type} (rel : β → α → Prop) (wide : StateT (Memory × Extra) Build β)
    (plain : StateT Memory Build α) : Prop :=
  ∀ memory extra store,
    (∃ fault, plain memory store = .error fault ∧ wide (memory, extra) store = .error fault) ∨
      ∃ value value' memory' extra' later, rel value' value ∧
        plain memory store = .ok ((value, memory'), later) ∧
        wide (memory, extra) store = .ok ((value', (memory', extra')), later)

namespace Mirrors

variable {α β γ δ : Type} {rel : β → α → Prop} {rel' : δ → γ → Prop}

theorem bind {wide : StateT (Memory × Extra) Build β} {plain : StateT Memory Build α}
    {wideNext : β → StateT (Memory × Extra) Build δ} {plainNext : α → StateT Memory Build γ}
    (h : Mirrors rel wide plain)
    (hnext : ∀ value' value, rel value' value →
      Mirrors rel' (wideNext value') (plainNext value)) :
    Mirrors rel' (wide >>= wideNext) (plain >>= plainNext) := by
  intro memory extra store
  have hplain : (plain >>= plainNext) memory store =
      (plain memory store >>= fun (pair, later) => plainNext pair.1 pair.2 later) := rfl
  have hwide : (wide >>= wideNext) (memory, extra) store =
      (wide (memory, extra) store >>= fun (pair, later) => wideNext pair.1 pair.2 later) := rfl
  rw [hplain, hwide]
  rcases h memory extra store with
    ⟨fault, hfault, hfault'⟩ | ⟨value, value', memory', extra', later, hrel, hok, hok'⟩
  · rw [hfault, hfault']
    exact .inl ⟨fault, rfl, rfl⟩
  · rw [hok, hok']
    exact hnext value' value hrel memory' extra' later

theorem pure {value : α} {value' : β} (h : rel value' value) :
    Mirrors rel (Pure.pure value' : StateT (Memory × Extra) Build β)
      (Pure.pure value : StateT Memory Build α) :=
  fun memory extra store => .inr ⟨value, value', memory, extra, store, h, rfl, rfl⟩

/-- A computation on the store alone does not see the memory. -/
theorem lift (computation : Build α) :
    Mirrors Eq (liftM computation : StateT (Memory × Extra) Build α)
      (liftM computation : StateT Memory Build α) := by
  intro memory extra store
  have hplain : (liftM computation : StateT Memory Build α) memory store =
      (computation store >>= fun (value, later) => .ok ((value, memory), later)) := rfl
  have hwide : (liftM computation : StateT (Memory × Extra) Build α) (memory, extra) store =
      (computation store >>= fun (value, later) => .ok ((value, (memory, extra)), later)) := rfl
  rw [hplain, hwide]
  cases computation store with
  | error fault => exact .inl ⟨fault, rfl, rfl⟩
  | ok pair => exact .inr ⟨pair.1, pair.1, memory, extra, pair.2, rfl, rfl, rfl⟩

theorem ite {condition : Prop} [Decidable condition]
    {wideYes wideNo : StateT (Memory × Extra) Build β} {plainYes plainNo : StateT Memory Build α}
    (hyes : condition → Mirrors rel wideYes plainYes)
    (hno : ¬ condition → Mirrors rel wideNo plainNo) :
    Mirrors rel (if condition then wideYes else wideNo)
      (if condition then plainYes else plainNo) := by
  by_cases h : condition
  · rw [if_pos h, if_pos h]
    exact hyes h
  · rw [if_neg h, if_neg h]
    exact hno h

/-- If the computation with more memory ends, so does the other one. -/
theorem of_ends {wide : StateT (Memory × Extra) Build β} {plain : StateT Memory Build α}
    (h : Mirrors rel wide plain) {memory memory' : Memory} {extra extra' : Extra}
    {store later : Store} {value' : β}
    (hends : Ends wide (memory, extra) store value' (memory', extra') later) :
    ∃ value, rel value' value ∧ Ends plain memory store value memory' later := by
  rcases h memory extra store with
    ⟨fault, -, hfault⟩ | ⟨value, found, memory₁, extra₁, last, hrel, hok, hok'⟩
  · cases hends.symm.trans hfault
  · cases hends.symm.trans hok'
    exact ⟨value, hrel, hok⟩

/-- If the plain computation ends, so does the one with more memory. -/
theorem exists_ends {wide : StateT (Memory × Extra) Build β} {plain : StateT Memory Build α}
    (h : Mirrors rel wide plain) {memory memory' : Memory} {store later : Store} {value : α}
    (hends : Ends plain memory store value memory' later) (extra : Extra) :
    ∃ value' extra', rel value' value ∧
      Ends wide (memory, extra) store value' (memory', extra') later := by
  rcases h memory extra store with
    ⟨fault, hfault, -⟩ | ⟨found, value', memory₁, extra₁, last, hrel, hok, hok'⟩
  · cases hends.symm.trans hfault
  · cases hends.symm.trans hok
    exact ⟨value', extra₁, hrel, hok'⟩

end Mirrors

/-! ## Recorded computations -/

/-- What a recorded rule does: it does what the rule does and adds the call. -/
theorem Rule.respond_recorded (rule : Rule Memory) (options : Options) (node : NodeId)
    (memory : Memory) (calls : List Call) (store : Store) :
    rule.recorded.respond options node (memory, calls) store =
      (rule.respond options node memory store >>= fun (pair, later) =>
        .ok ((pair.1, (pair.2, calls ++ [⟨rule.name, node, store, pair.1, later⟩])), later)) := by
  have hrun : rule.recorded.respond options node (memory, calls) store =
      (((rule.respond options node memory >>= fun pair => pure (pair, (memory, calls))) store) >>=
        fun (pair, later) => .ok ((pair.1.1, (pair.1.2, calls ++
          [⟨rule.name, node, store, pair.1.1, later⟩])), later)) := rfl
  have hlift : (rule.respond options node memory >>= fun pair =>
        pure (pair, (memory, calls))) store =
      (rule.respond options node memory store >>= fun (pair, later) =>
        .ok ((pair, (memory, calls)), later)) := rfl
  rw [hrun, hlift]
  cases rule.respond options node memory store <;> rfl

/-- A recorded rule answers as the rule does, and the call is added. -/
theorem Rule.ends_recorded {rule : Rule Memory} {options : Options} {node : NodeId}
    {memory memory' : Memory} {calls calls' : List Call} {store later : Store}
    {response : Response} :
    Ends (rule.recorded.respond options node) (memory, calls) store response (memory', calls')
        later ↔
      Ends (rule.respond options node) memory store response memory' later ∧
        calls' = calls ++ [⟨rule.name, node, store, response, later⟩] := by
  unfold Ends
  rw [respond_recorded]
  cases rule.respond options node memory store with
  | error fault => simp [bind, Except.bind]
  | ok pair =>
      simp only [bind, Except.bind, Except.ok.injEq, Prod.ext_iff]
      constructor
      · rintro ⟨⟨rfl, rfl, rfl⟩, rfl⟩
        simp
      · rintro ⟨⟨⟨rfl, rfl⟩, rfl⟩, rfl⟩
        simp

theorem Rule.mirrors_recorded (rule : Rule Memory) (options : Options) (node : NodeId) :
    Mirrors Eq (rule.recorded.respond options node) (rule.respond options node) := by
  intro memory calls store
  rw [respond_recorded]
  cases rule.respond options node memory store with
  | error fault => exact .inl ⟨fault, rfl, rfl⟩
  | ok pair => exact .inr ⟨_, _, _, _, _, rfl, rfl, rfl⟩

namespace Schedule

variable {options : Options} {pass steps : Nat} {rules : List (Rule Memory)} {node : NodeId}

inductive Offer.Recorded : Offer (Memory × List Call) → Offer Memory → Prop where
  | committed (name : String) : Offer.Recorded (.committed name) (.committed name)
  | declined (active : List (Rule Memory)) :
      Offer.Recorded (.declined (active.map Rule.recorded)) (.declined active)

theorem Offer.Recorded.keep {wide : Offer (Memory × List Call)} {plain : Offer Memory}
    (h : Offer.Recorded wide plain) (rule : Rule Memory) (signal : Signal) :
    Offer.Recorded (wide.keep rule.recorded signal) (plain.keep rule signal) := by
  cases h with
  | committed name => exact .committed name
  | declined active =>
      cases signal with
      | advance => exact .declined (rule :: active)
      | skip => exact .declined active

theorem mirrors_offer :
    Mirrors Offer.Recorded (offer options node (rules.map Rule.recorded))
      (offer options node rules) := by
  induction rules with
  | nil => exact .pure (.declined [])
  | cons rule rest ih =>
      refine .bind (rule.mirrors_recorded options node) ?_
      rintro response _ rfl
      refine .ite (fun _ => .bind (.lift Build.forgetMoves) ?_) (fun _ => ?_)
      · exact fun _ _ _ => .bind ih (fun _ _ hoffer => .pure (hoffer.keep rule response.signal))
      · exact .bind (.lift (Build.commit response.edits)) (fun _ _ _ => .pure (.committed _))

theorem mirrors_visitOwned {wide : NodeId → StateT (Memory × List Call) Build Tally}
    {plain : NodeId → StateT Memory Build Tally}
    (h : ∀ id, Mirrors Eq (wide id) (plain id)) (holder : NodeId) (ids : List NodeId) :
    Mirrors Eq (visitOwned wide holder ids) (visitOwned plain holder ids) := by
  induction ids with
  | nil => exact .pure rfl
  | cons child rest ih =>
      refine .bind (.lift (Build.lookup child)) ?_
      rintro found _ rfl
      have hrest : ∀ here : Tally,
          Mirrors Eq (do return here ++ (← visitOwned wide holder rest))
            (do return here ++ (← visitOwned plain holder rest)) := by
        intro here
        refine .bind ih ?_
        rintro later _ rfl
        exact .pure rfl
      refine .ite (fun _ => .bind (.pure rfl) ?_) (fun _ => .bind (h child) ?_)
      · rintro here _ rfl
        exact hrest here
      · rintro here _ rfl
        exact hrest here

theorem mirrors_visitSteps :
    Mirrors Eq (visitSteps options pass steps (rules.map Rule.recorded) node)
      (visitSteps options pass steps rules node) := by
  induction steps generalizing rules node with
  | zero => exact fun _ _ _ => .inl ⟨.endlessPath, rfl, rfl⟩
  | succ steps ih =>
      refine .bind mirrors_offer ?_
      rintro _ _ (name | active)
      · exact .pure rfl
      · cases active with
        | nil => exact .pure rfl
        | cons rule rest =>
            refine .bind (.lift (Build.kindOf node)) ?_
            rintro kind _ rfl
            exact mirrors_visitOwned (fun id => ih) node kind.children

variable {schedule : Schedule Memory} {root : NodeId}

theorem mirrors_runPass :
    Mirrors Eq (schedule.recorded.runPass pass root) (schedule.runPass pass root) := by
  intro memory calls store
  exact mirrors_visitSteps memory calls store

theorem mirrors_runPasses (remaining : Nat) (done : Report) :
    Mirrors Eq (schedule.recorded.runPasses root remaining done)
      (schedule.runPasses root remaining done) := by
  induction remaining generalizing done with
  | zero => exact .pure rfl
  | succ remaining ih =>
      refine .ite (fun _ => .pure rfl) (fun _ => .bind mirrors_runPass ?_)
      rintro applied _ rfl
      exact .ite (fun _ => .pure rfl) (fun _ => ih _)

theorem mirrors_run : Mirrors Eq (schedule.recorded.run root) (schedule.run root) :=
  mirrors_runPasses schedule.maxPasses _

theorem calls_of_ends {memory memory' : Memory} {calls : List Call} {store later : Store}
    {report : Report} (h : Ends (schedule.recorded.run root) (memory, []) store report
      (memory', calls) later) : schedule.calls root memory store = calls := by
  unfold Ends at h
  rw [Schedule.calls, h]

end Schedule

end CodeTidy
