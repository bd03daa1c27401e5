import CodeTidy.Proofs.Meaning
import CodeTidy.Proofs.Shape

/-!
# Runs that show the same

One computation refines another if the other one gives the same result wherever the first
does not give up.  Every form of the language keeps this order, so an exchange of a subtree
by one that refines it shows nothing outside, and neither does the loss of a statement that
does nothing.
-/

namespace CodeTidy

namespace Run

variable {α β : Type}

/-! ## Results of computations -/

theorem bind_eq_some {f : Run α} {g : α → Run β} {machine : Machine} {result : β × Machine} :
    (f >>= g) machine = some result ↔
      ∃ value middle, f machine = some (value, middle) ∧ g value middle = some result := by
  change (f machine).bind (fun (value, middle) => g value middle) = some result ↔ _
  rw [Option.bind_eq_some_iff]
  constructor
  · rintro ⟨⟨value, middle⟩, hfirst, hnext⟩
    exact ⟨value, middle, hfirst, hnext⟩
  · rintro ⟨value, middle, hfirst, hnext⟩
    exact ⟨(value, middle), hfirst, hnext⟩

theorem pure_eq_some {value : α} {machine : Machine} {result : α × Machine} :
    (pure value : Run α) machine = some result ↔ result = (value, machine) := by
  change some (value, machine) = some result ↔ _
  rw [Option.some_inj, eq_comm]

theorem lift_eq_some {result : Option α} {value : α} {machine later : Machine} :
    lift result machine = some (value, later) ↔ result = some value ∧ later = machine := by
  unfold lift
  rw [Option.map_eq_some_iff]
  constructor
  · rintro ⟨found, hfound, heq⟩
    cases heq
    exact ⟨hfound, rfl⟩
  · rintro ⟨hfound, rfl⟩
    exact ⟨value, hfound, rfl⟩

theorem failure_eq_none (machine : Machine) : (failure : Run α) machine = none := rfl

theorem bind_of_some {f : Run α} {g : α → Run β} {machine middle : Machine} {value : α}
    (h : f machine = some (value, middle)) : (f >>= g) machine = g value middle := by
  change (f machine).bind _ = _
  rw [h]
  rfl

theorem lift_some (value : α) (machine : Machine) :
    lift (some value) machine = some (value, machine) := rfl

/-! ## Refinement -/

/-- Wherever the first computation has a result, the second has the same. -/
def Refines (f g : Run α) : Prop :=
  ∀ machine result, f machine = some result → g machine = some result

theorem Refines.refl (f : Run α) : Refines f f :=
  fun _ _ h => h

theorem Refines.trans {f g h : Run α} (hfirst : Refines f g) (hsecond : Refines g h) :
    Refines f h :=
  fun machine result hrun => hsecond machine result (hfirst machine result hrun)

theorem Refines.of_failure (g : Run α) : Refines failure g := by
  intro machine result hrun
  rw [failure_eq_none] at hrun
  cases hrun

theorem Refines.bind {f f' : Run α} {g g' : α → Run β} (h : Refines f f')
    (hnext : ∀ value, Refines (g value) (g' value)) : Refines (f >>= g) (f' >>= g') := by
  intro machine result hrun
  obtain ⟨value, middle, hfirst, hrest⟩ := bind_eq_some.mp hrun
  exact bind_eq_some.mpr ⟨value, middle, h _ _ hfirst, hnext value _ _ hrest⟩

theorem Refines.chainFrom {op : InfixOp} {fs gs : List (Run Value)}
    (h : List.Forall₂ Refines fs gs) (value : Value) :
    Refines (Run.chainFrom op value fs) (Run.chainFrom op value gs) := by
  induction h generalizing value with
  | nil => exact .refl _
  | cons hfirst _ ih =>
      unfold Run.chainFrom
      cases op.stop? with
      | none => exact hfirst.bind fun next => (Refines.refl _).bind fun value => ih value
      | some stop =>
          refine (Refines.refl _).bind fun flag => ?_
          split
          · exact .refl _
          · exact hfirst.bind fun next => (Refines.refl _).bind fun value => ih _

theorem Refines.chain {op : InfixOp} {fs gs : List (Run Value)}
    (h : List.Forall₂ Refines fs gs) : Refines (Run.chain op fs) (Run.chain op gs) := by
  cases h with
  | nil => exact .refl _
  | cons hfirst hrest => exact hfirst.bind fun value => .chainFrom hrest value

theorem Refines.inTurn {fs gs : List (Run Value)} (h : List.Forall₂ Refines fs gs) :
    Refines (Run.inTurn fs) (Run.inTurn gs) := by
  induction h with
  | nil => exact .refl _
  | cons hfirst _ ih => exact hfirst.bind fun value => ih.bind fun values => .refl _

theorem Refines.branch {cond cond' : Run Value} {thenBranch thenBranch' elseBranch elseBranch' :
      Run Flow} (hcond : Refines cond cond') (hthen : Refines thenBranch thenBranch')
    (helse : Refines elseBranch elseBranch') :
    Refines (Run.branch cond thenBranch elseBranch) (Run.branch cond' thenBranch' elseBranch') := by
  refine hcond.bind fun value => (Refines.refl _).bind fun flag => ?_
  cases flag with
  | true => exact hthen
  | false => exact helse

theorem Refines.loopSteps {cond cond' : Run Value} {body body' : Run Flow}
    (hcond : Refines cond cond') (hbody : Refines body body') (rounds : Nat) :
    Refines (Run.loopSteps cond body rounds) (Run.loopSteps cond' body' rounds) := by
  induction rounds with
  | zero => exact .refl _
  | succ rounds ih =>
      refine hcond.branch ((Refines.refl _).bind fun _ => hbody.bind fun flow => ?_) (.refl _)
      cases flow with
      | broke => exact .refl _
      | returned value => exact .refl _
      | normal => exact ih
      | continued => exact ih

theorem Refines.loop {cond cond' : Run Value} {body body' : Run Flow}
    (hcond : Refines cond cond') (hbody : Refines body body') :
    Refines (Run.loop cond body) (Run.loop cond' body') :=
  fun machine result hrun => hcond.loopSteps hbody (machine.fuel + 1) machine result hrun

/-! ## Statements that do nothing -/

def Idle (f : Run Flow) : Prop :=
  ∀ machine result, f machine = some result → result = (.normal, machine)

end Run

/-- A list follows another: its members refine those of the other, of which some that do
nothing may be missing. -/
inductive Tracks {α : Type} (refines : α → α → Prop) (idle : α → Prop) :
    List α → List α → Prop where
  | nil : Tracks refines idle [] []
  | cons {a b : α} {as bs : List α} (first : refines a b) (rest : Tracks refines idle as bs) :
      Tracks refines idle (a :: as) (b :: bs)
  | skip {a : α} {as bs : List α} (first : idle a) (rest : Tracks refines idle as bs) :
      Tracks refines idle (a :: as) bs

namespace Tracks

variable {α β : Type} {refines : α → α → Prop} {idle : α → Prop} {refines' : β → β → Prop}
  {idle' : β → Prop}

theorem of_forall₂ {as bs : List α} (h : List.Forall₂ refines as bs) :
    Tracks refines idle as bs := by
  induction h with
  | nil => exact .nil
  | cons hfirst _ ih => exact .cons hfirst ih

theorem map {f : α → β} (hrefines : ∀ a b, refines a b → refines' (f a) (f b))
    (hidle : ∀ a, idle a → idle' (f a)) {as bs : List α} (h : Tracks refines idle as bs) :
    Tracks refines' idle' (as.map f) (bs.map f) := by
  induction h with
  | nil => exact .nil
  | cons hfirst _ ih => exact .cons (hrefines _ _ hfirst) ih
  | skip hfirst _ ih => exact .skip (hidle _ hfirst) ih

theorem drop (hrefl : ∀ a, refines a a) {a : α} (h : idle a) (before after : List α) :
    Tracks refines idle (before ++ a :: after) (before ++ after) := by
  induction before with
  | nil => exact .skip h (.of_forall₂ (List.forall₂_same.mpr fun b _ => hrefl b))
  | cons first before ih => exact .cons (hrefl first) ih

end Tracks

namespace Run

theorem Refines.sequence {fs gs : List (Run Flow)} (h : Tracks Refines Idle fs gs) :
    Refines (Run.sequence fs) (Run.sequence gs) := by
  induction h with
  | nil => exact .refl _
  | cons hfirst _ ih =>
      refine hfirst.bind fun flow => ?_
      split
      · exact ih
      · exact .refl _
  | skip hfirst _ ih =>
      intro machine result hrun
      obtain ⟨flow, middle, hstmt, hrest⟩ := bind_eq_some.mp hrun
      obtain ⟨rfl, rfl⟩ := Prod.mk.inj (hfirst _ _ hstmt)
      exact ih _ _ hrest

inductive Item.Refines : Item → Item → Prop where
  | label {f g : Run Value} (h : Run.Refines f g) : Refines (.label f) (.label g)
  | default : Refines .default .default
  | stmt {f g : Run Flow} (h : Run.Refines f g) : Refines (.stmt f) (.stmt g)

theorem Item.Refines.refl (item : Item) : Item.Refines item item := by
  cases item with
  | label value => exact .label (.refl _)
  | default => exact .default
  | stmt run => exact .stmt (.refl _)

def Item.Idle (item : Item) : Prop :=
  ∃ run, item = .stmt run ∧ Run.Idle run

abbrev TracksItems : List Item → List Item → Prop :=
  Tracks Item.Refines Item.Idle

theorem Refines.follow {as bs : List Item} (h : TracksItems as bs) :
    Refines (Run.follow as) (Run.follow bs) := by
  induction h with
  | nil => exact .refl _
  | cons hfirst _ ih =>
      cases hfirst with
      | label _ => exact ih
      | default => exact ih
      | stmt hstmt =>
          refine Refines.bind hstmt fun flow => ?_
          cases flow with
          | normal => exact ih
          | broke => exact .refl _
          | continued => exact .refl _
          | returned value => exact .refl _
  | skip hfirst _ ih =>
      obtain ⟨run, rfl, hidle⟩ := hfirst
      intro machine result hrun
      obtain ⟨flow, middle, hstmt, hrest⟩ := bind_eq_some.mp hrun
      obtain ⟨rfl, rfl⟩ := Prod.mk.inj (hidle _ _ hstmt)
      exact ih _ _ hrest

/-- Bodies that follow each other are entered at places that follow each other. -/
theorem entry_tracks {key : Value} {as bs : List Item} (h : TracksItems as bs)
    {fallback fallback' : Option (List Item)}
    (hfallback : Option.Rel TracksItems fallback fallback')
    {machine later : Machine} {found : Option (List Item)}
    (hrun : entry key fallback as machine = some (found, later)) :
    ∃ found', entry key fallback' bs machine = some (found', later) ∧
      Option.Rel TracksItems found found' := by
  induction h generalizing fallback fallback' machine with
  | nil =>
      cases hrun
      exact ⟨fallback', rfl, hfallback⟩
  | @cons a b as bs hfirst hrest ih =>
      cases hfirst with
      | default => exact ih (.some hrest) hrun
      | stmt _ => exact ih hfallback hrun
      | label hlabel =>
          obtain ⟨value, middle, hvalue, hnext⟩ := bind_eq_some.mp hrun
          by_cases hkey : value = key
          · rw [if_pos hkey] at hnext
            cases hnext
            refine ⟨some bs, ?_, .some hrest⟩
            refine bind_eq_some.mpr ⟨value, later, hlabel _ _ hvalue, ?_⟩
            rw [if_pos hkey]
            rfl
          · rw [if_neg hkey] at hnext
            obtain ⟨found', hfound, hrel⟩ := ih hfallback hnext
            refine ⟨found', bind_eq_some.mpr ⟨value, middle, hlabel _ _ hvalue, ?_⟩, hrel⟩
            rwa [if_neg hkey]
  | skip hfirst _ ih =>
      obtain ⟨run, rfl, -⟩ := hfirst
      exact ih hfallback hrun

theorem Refines.select {subject subject' : Run Value} {as bs : List Item}
    (hsubject : Refines subject subject') (h : TracksItems as bs) :
    Refines (Run.select subject as) (Run.select subject' bs) := by
  refine hsubject.bind fun key => ?_
  intro machine result hrun
  obtain ⟨found, middle, hentry, hrest⟩ := bind_eq_some.mp hrun
  obtain ⟨found', hentry', hrel⟩ := entry_tracks h .none hentry
  refine bind_eq_some.mpr ⟨found', middle, hentry', ?_⟩
  cases hrel with
  | none => exact hrest
  | some htracks => exact Refines.follow htracks _ _ hrest

end Run

/-! ## Terms -/

namespace Term

theorem evalAll_eq_map (terms : List Term) : evalAll terms = terms.map eval := by
  induction terms with
  | nil => rfl
  | cons term rest ih => rw [evalAll, ih, List.map_cons]

theorem execAll_eq_map (terms : List Term) : execAll terms = terms.map exec := by
  induction terms with
  | nil => rfl
  | cons term rest ih => rw [execAll, ih, List.map_cons]

/-- What a term is to a switch that has it in its body. -/
def item (term : Term) : Run.Item :=
  match term.head, term.subs with
  | .caseLabel, label :: _ => .label (eval label)
  | .caseLabel, [] => .default
  | _, _ => .stmt (exec term)

theorem itemAll_eq_map (terms : List Term) : itemAll terms = terms.map item := by
  induction terms with
  | nil => rfl
  | cons term rest ih =>
      rw [itemAll, ih, List.map_cons]
      rfl

theorem item_of_ne_label {term : Term} (h : term.head ≠ .caseLabel) :
    term.item = .stmt term.exec := by
  unfold item
  split
  · next hhead _ => exact absurd hhead h
  · next hhead _ => exact absurd hhead h
  · rfl

/-- A term can stand for another one wherever that one does not give up.  What names a
variable stays as it is, since it may be assigned or called on. -/
structure Refines (a b : Term) : Prop where
  eval : Run.Refines a.eval b.eval
  exec : Run.Refines a.exec b.exec
  name : ∀ text binding, a.bare.head = .name text binding →
    b.head = a.head ∧ b.bare.head = a.bare.head
  item : Run.Item.Refines a.item b.item

theorem Refines.refl (term : Term) : Refines term term :=
  ⟨.refl _, .refl _, fun _ _ _ => ⟨rfl, rfl⟩, .refl _⟩

structure Idle (term : Term) : Prop where
  eval : term.eval = failure
  exec : Run.Idle term.exec
  label : term.head ≠ .caseLabel
  name : ∀ text binding, term.bare.head ≠ .name text binding

variable {head : Head} {type type' : Option TypeDesc} {subs subs' : List Term}

theorem refines_evalAll (h : List.Forall₂ Refines subs subs') :
    List.Forall₂ Run.Refines (evalAll subs) (evalAll subs') := by
  rw [evalAll_eq_map, evalAll_eq_map, List.forall₂_map_left_iff, List.forall₂_map_right_iff]
  exact h.imp fun _ _ hsub => hsub.eval

theorem tracks_execAll (h : Tracks Refines Idle subs subs') :
    Tracks Run.Refines Run.Idle (execAll subs) (execAll subs') := by
  rw [execAll_eq_map, execAll_eq_map]
  exact h.map (fun _ _ hsub => hsub.exec) (fun _ hidle => hidle.exec)

theorem tracks_itemAll (h : Tracks Refines Idle subs subs') :
    Run.TracksItems (itemAll subs) (itemAll subs') := by
  rw [itemAll_eq_map, itemAll_eq_map]
  refine h.map (fun _ _ hsub => hsub.item) (fun a hidle => ⟨a.exec, ?_, hidle.exec⟩)
  exact item_of_ne_label hidle.label

theorem Refines.invoke {receiver receiver' : Term} (h : Refines receiver receiver')
    (method : String) (args : List Value) :
    Run.Refines (Run.invoke receiver method args) (Run.invoke receiver' method args) := by
  intro machine result hrun
  cases hname : receiver.bare.head with
  | name text binding =>
      obtain ⟨hhead, hbare⟩ := h.name text binding hname
      unfold Run.invoke at hrun ⊢
      rwa [hhead, hbare]
  | _ =>
      unfold Run.invoke at hrun
      rw [hname] at hrun
      split at hrun
      · next hspecial =>
          have hself : receiver.bare = receiver := bare_of_ne_paren (by rw [hspecial.1]; simp)
          rw [hself, hspecial.1] at hname
          cases hname
      · cases hrun

theorem Refines.assign {target target' : Term} (h : Refines target target') (value : Value) :
    Run.Refines
      (match target.head with
        | .name text _ => do
            Run.assign text value
            return value
        | _ => failure)
      (match target'.head with
        | .name text _ => do
            Run.assign text value
            return value
        | _ => failure) := by
  cases hname : target.head with
  | name text binding =>
      have hself : target.bare = target := bare_of_ne_paren (by rw [hname]; simp)
      have hhead := (h.name text binding (by rw [hself, hname])).1
      rw [hhead, hname]
      exact .refl _
  | _ => exact .of_failure _

theorem refines_eval (h : List.Forall₂ Refines subs subs') :
    Run.Refines (node head type subs).eval (node head type' subs').eval := by
  cases head with
  | literal value => exact .refl _
  | name text binding => exact .refl _
  | paren =>
      rcases h with _ | ⟨hfirst, _ | _⟩
      · exact .refl _
      · exact hfirst.eval
      · exact .of_failure _
  | prefixed op =>
      rcases h with _ | ⟨hfirst, _ | _⟩
      · exact .refl _
      · exact hfirst.eval.bind fun value => .refl _
      · exact .of_failure _
  | chain op => exact .chain (refines_evalAll h)
  | assign op =>
      rcases op with _ | op
      · rcases h with _ | ⟨htarget, _ | ⟨hvalue, _ | _⟩⟩
        · exact .refl _
        · exact .refl _
        · exact hvalue.eval.bind fun value => htarget.assign value
        · exact .of_failure _
      · exact .refl _
  | call hasReceiver method =>
      cases hasReceiver with
      | false => exact (Run.Refines.inTurn (refines_evalAll h)).bind fun args => .refl _
      | true =>
          cases h with
          | nil => exact .refl _
          | cons hreceiver hargs =>
              exact (Run.Refines.inTurn (refines_evalAll hargs)).bind
                fun args => hreceiver.invoke method args
  | _ => exact .refl _

theorem refines_exec (h : List.Forall₂ Refines subs subs') :
    Run.Refines (node head type subs).exec (node head type' subs').exec := by
  have htracks : Tracks Refines Idle subs subs' := .of_forall₂ h
  cases head with
  | unit => exact .sequence (tracks_execAll htracks)
  | block => exact .sequence (tracks_execAll htracks)
  | exprStmt =>
      rcases h with _ | ⟨hfirst, _ | _⟩
      · exact .refl _
      · exact hfirst.eval.bind fun value => .refl _
      · exact .of_failure _
  | varDecl text binding =>
      cases h with
      | nil => exact .refl _
      | cons hfirst _ => exact hfirst.eval.bind fun value => .refl _
  | ifStmt =>
      rcases h with _ | ⟨hcond, _ | ⟨hthen, _ | ⟨helse, _ | _⟩⟩⟩
      · exact .refl _
      · exact .refl _
      · exact hcond.eval.branch hthen.exec (.refl _)
      · exact hcond.eval.branch hthen.exec helse.exec
      · exact .of_failure _
  | whileStmt =>
      rcases h with _ | ⟨hcond, _ | ⟨hbody, _ | _⟩⟩
      · exact .refl _
      · exact .refl _
      · exact hcond.eval.loop hbody.exec
      · exact .of_failure _
  | switchStmt =>
      cases h with
      | nil => exact .refl _
      | cons hsubject hbody => exact hsubject.eval.select (tracks_itemAll (.of_forall₂ hbody))
  | returnStmt =>
      cases h with
      | nil => exact .refl _
      | cons hfirst _ => exact hfirst.eval.bind fun value => .refl _
  | breakStmt label => cases label <;> exact .refl _
  | continueStmt label => cases label <;> exact .refl _
  | _ => exact .refl _

/-- Terms in slots may be exchanged for terms that refine them. -/
theorem Refines.node (h : List.Forall₂ Refines subs subs') :
    Refines (.node head type subs) (.node head type' subs') where
  eval := refines_eval h
  exec := refines_exec h
  name := by
    intro text binding hname
    refine ⟨rfl, ?_⟩
    by_cases hparen : head = .paren
    · subst hparen
      rcases h with _ | ⟨hfirst, _ | _⟩
      · rfl
      · rw [bare_paren] at hname ⊢
        rw [bare_paren]
        exact (hfirst.name text binding hname).2
      · cases hname
    · rw [bare_of_ne_paren (by simpa using hparen), bare_of_ne_paren (by simpa using hparen)]
      rfl
  item := by
    by_cases hlabel : head = .caseLabel
    · subst hlabel
      cases h with
      | nil => exact .default
      | cons hfirst _ => exact .label hfirst.eval
    · rw [item_of_ne_label (by simpa using hlabel), item_of_ne_label (by simpa using hlabel)]
      exact .stmt (refines_exec h)

theorem Idle.refines_normal {old : Term} (h : old.Idle) :
    Run.Refines old.exec (pure .normal) := by
  intro machine result hrun
  exact Run.pure_eq_some.mpr (h.exec machine result hrun)

theorem refines_exec_drop {old : Term} {before after : List Term} (hold : old.Idle)
    (hdrop : head.canDrop before.length = true) :
    Run.Refines (node head type (before ++ old :: after)).exec
      (node head type (before ++ after)).exec := by
  have hfail : ∀ {β : Type} (next : Value → Run β) (g : Run β),
      Run.Refines (old.eval >>= next) g := by
    intro β next g machine result hrun
    rw [hold.eval] at hrun
    cases hrun
  cases head with
  | block => exact .sequence (tracks_execAll (.drop Refines.refl hold before after))
  | unit => exact .sequence (tracks_execAll (.drop Refines.refl hold before after))
  | switchStmt =>
      cases before with
      | nil => cases hdrop
      | cons subject before =>
          exact (Run.Refines.refl _).select (tracks_itemAll (.drop Refines.refl hold before after))
  | ifStmt =>
      obtain ⟨cond, thenBranch, rfl⟩ := List.length_eq_two.mp (of_decide_eq_true hdrop)
      cases after with
      | nil => exact (Run.Refines.refl _).branch (.refl _) hold.refines_normal
      | cons sub after => exact .of_failure _
  | varDecl text binding =>
      cases before with
      | nil => exact hfail _ _
      | cons init before => exact .refl _
  | returnStmt =>
      cases before with
      | nil => exact hfail _ _
      | cons value before => exact .refl _
  | _ => cases hdrop

/-- Refinement of terms that are statements to all that hold them. -/
theorem Refines.of_exec {a b : Term} (heval : a.eval = failure)
    (hname : ∀ text binding, a.bare.head ≠ .name text binding) (hlabel : a.head ≠ .caseLabel)
    (hlabel' : b.head ≠ .caseLabel) (h : Run.Refines a.exec b.exec) : Refines a b where
  eval := by
    rw [heval]
    exact .of_failure _
  exec := h
  name := fun text binding hhead => absurd hhead (hname text binding)
  item := by
    rw [item_of_ne_label hlabel, item_of_ne_label hlabel']
    exact .stmt h

/-- Refinement of terms that are expressions to all that hold them. -/
theorem Refines.of_eval {a b : Term} (hexec : a.exec = failure)
    (hname : ∀ text binding, a.bare.head ≠ .name text binding) (hlabel : a.head ≠ .caseLabel)
    (hlabel' : b.head ≠ .caseLabel) (h : Run.Refines a.eval b.eval) : Refines a b where
  eval := h
  exec := by
    rw [hexec]
    exact .of_failure _
  name := fun text binding hhead => absurd hhead (hname text binding)
  item := by
    rw [item_of_ne_label hlabel, item_of_ne_label hlabel', hexec]
    exact .stmt (.of_failure _)

/-- A statement that does nothing may be left out. -/
theorem Refines.drop {old : Term} {before after : List Term} (hold : old.Idle)
    (hdrop : head.canDrop before.length = true) :
    Refines (.node head type (before ++ old :: after)) (.node head type (before ++ after)) := by
  have hhead : head ≠ .paren ∧ head ≠ .caseLabel ∧
      ∀ text binding, head ≠ .name text binding := by
    refine ⟨?_, ?_, ?_⟩
    · rintro rfl
      cases hdrop
    · rintro rfl
      cases hdrop
    · rintro text binding rfl
      cases hdrop
  refine .of_exec ?_ ?_ hhead.2.1 hhead.2.1 (refines_exec_drop hold hdrop)
  · cases head <;> first
      | rfl
      | cases hdrop
  · rw [bare_of_ne_paren (by simpa using hhead.1)]
    exact hhead.2.2

/-- What becomes of a term when a subtree is exchanged for one that refines it. -/
theorem Swap.refines {old a b : Term} {fresh : Option Term} (h : Swap old fresh a b)
    (hnew : ∀ new, new ∈ fresh → Refines old new) (hnone : fresh = none → old.Idle) :
    Refines a b := by
  induction h with
  | @here head type before after hdrop hsuits =>
      cases fresh with
      | none => exact .drop (hnone rfl) (hdrop rfl)
      | some new =>
          exact .node (List.rel_append (List.forall₂_same.mpr fun sub _ => .refl sub)
            (.cons (hnew new rfl) (List.forall₂_same.mpr fun sub _ => .refl sub)))
  | deeper _ ih =>
      exact .node (List.rel_append (List.forall₂_same.mpr fun sub _ => .refl sub)
        (.cons ih (List.forall₂_same.mpr fun sub _ => .refl sub)))

end Term

end CodeTidy
