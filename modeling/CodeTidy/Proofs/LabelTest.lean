import CodeTidy.Proofs.Fallthrough

/-!
# Tests of labels

A switch looks at what values stand for, and so does `equals`.  The operator `==` tells two
strings or two boxed values apart although they stand for the same.  Which of the two tests a
label depends on the recorded type of the label alone: where that says what the values are, the
test decides whether the switch selects the label.  Where it does not, the test misses a label
that is another object than the subject (`TwoWaySwitch.reads_labelTerm`).
-/

namespace CodeTidy

/-! ## Values that are objects -/

/-- What the values of a language stand for, and which of them are objects, so that two that
stand for the same can be told apart. -/
structure ObjectModel (Val Content : Type) where
  /-- The text of a string, the number in a box, any other value itself. -/
  content : Val → Content
  isString : Val → Bool
  isBoxed : Val → Bool

namespace ObjectModel

variable {Val Content : Type} (model : ObjectModel Val Content)

def areObjects (x y : Val) : Bool :=
  (model.isString x && model.isString y) || (model.isBoxed x && model.isBoxed y)

/-- The recorded type of an expression, if there is one, is right about its value. -/
structure Fits (type : Option TypeDesc) (value : Val) : Prop where
  string : ∀ found, type = some found → found.name = "java.lang.String" →
    model.isString value = true
  boxed : ∀ found, type = some found → found.sort = .boxed → model.isBoxed value = true
  plain : ∀ found, type = some found → found.sort = .primitive ∨ found.sort = .enumeration →
    model.isString value = false ∧ model.isBoxed value = false

theorem fits_none (value : Val) : model.Fits none value where
  string := by simp
  boxed := by simp
  plain := by simp

variable [DecidableEq Content]

/-- Whether two values stand for the same.  A switch selects the labels that stand for the same
as its subject. -/
def same (x y : Val) : Bool :=
  decide (model.content x = model.content y)

theorem same_comm (x y : Val) : model.same x y = model.same y x :=
  decide_eq_decide.mpr eq_comm

variable [DecidableEq Val]

/-- Whether `==` holds of two values: objects have to be the same object. -/
def equal (x y : Val) : Bool :=
  if model.areObjects x y then decide (x = y) else model.same x y

/-- Values that are equal stand for the same, and only objects that stand for the same need not
be equal. -/
theorem equal_eq (x y : Val) :
    model.equal x y = (model.same x y && !(model.areObjects x y && decide (x ≠ y))) := by
  unfold equal
  cases model.areObjects x y with
  | false => simp
  | true =>
      by_cases hxy : x = y
      · simp [hxy, same]
      · simp [hxy]

theorem equal_of_plain {x y : Val} (hstring : model.isString y = false)
    (hboxed : model.isBoxed y = false) : model.equal x y = model.same x y := by
  simp [equal, areObjects, hstring, hboxed]

end ObjectModel

/-- What expressions do in a language in which strings and boxed values are objects. -/
structure ObjectEvaluation (World Val Thrown Content : Type) [DecidableEq Val]
    [DecidableEq Content] extends Evaluation World Val Thrown, ObjectModel Val Content where
  value_paren : ∀ type inner, value (.node .paren type [inner]) = value inner
  /-- A constant of an enumeration may be qualified by its type. -/
  value_constant : ∀ label type, label.type = some type → type.sort = .enumeration →
    value (.qualified (.typeName type.name) label) = value label
  test_comparison : ∀ type left right world x y,
    (value left).Reads world x → (value right).Reads world y →
    (test (.node (.chain .equals) type [left, right])).Reads world (toObjectModel.equal x y)
  test_equalsCall : ∀ type receiver argument world x y,
    (value receiver).Reads world x → (value argument).Reads world y →
    (isString x || isBoxed x) = true →
    (test (.node (.call true "equals") type [receiver, argument])).Reads world
      (toObjectModel.same x y)

theorem ObjectEvaluation.value_wrap {World Val Thrown Content : Type} [DecidableEq Val]
    [DecidableEq Content] (evaluation : ObjectEvaluation World Val Thrown Content) (outer : Nat)
    (term : Term) : evaluation.value (term.wrap outer) = evaluation.value term := by
  unfold Term.wrap
  split
  · exact evaluation.value_paren ..
  · rfl

namespace TwoWaySwitch

/-! ## One label -/

/-- Whether a recorded type says how the values of the type are compared. -/
def isTelling : Option TypeDesc → Bool
  | none => false
  | some type =>
      type.sort = .boxed || type.name = "java.lang.String" || type.sort = .enumeration ||
        type.sort = .primitive

/-- The form of a test is chosen from a type that says what the values are, or it is `==`. -/
theorem TestForm.ofType_cases (type : Option TypeDesc) :
    (∃ found, type = some found ∧ (found.sort = .boxed ∨ found.name = "java.lang.String") ∧
      ofType type = equalsCall) ∨
    (∃ found, type = some found ∧ found.sort = .enumeration ∧
      ofType type = constant found.name) ∨
    (ofType type = comparison ∧
      (isTelling type = true → ∃ found, type = some found ∧ found.sort = .primitive)) := by
  cases type with
  | none => exact .inr (.inr ⟨rfl, fun h => by cases h⟩)
  | some found =>
      by_cases hobject : found.sort = .boxed ∨ found.name = "java.lang.String"
      · exact .inl ⟨found, rfl, hobject, if_pos (by simpa using hobject)⟩
      have hnext : ofType (some found) = _ := if_neg (by simpa using hobject)
      by_cases henum : found.sort = .enumeration
      · exact .inr (.inl ⟨found, rfl, henum, hnext.trans (if_pos henum)⟩)
      · refine .inr (.inr ⟨hnext.trans (if_neg henum), fun htelling => ⟨found, rfl, ?_⟩⟩)
        simp only [isTelling, Bool.or_eq_true, decide_eq_true_eq] at htelling
        tauto

variable {World Val Thrown Content : Type} [DecidableEq Val] [DecidableEq Content]

/-- Whether the test of a label compares two objects where the switch looks at what they stand
for. -/
def confuses (model : ObjectModel Val Content) (type : Option TypeDesc) (key value : Val) : Bool :=
  !isTelling type && (model.areObjects key value && decide (key ≠ value))

theorem same_of_telling {model : ObjectModel Val Content} {type : Option TypeDesc}
    {key value : Val} (h : isTelling type = true) :
    (model.same key value && !confuses model type key value) = model.same key value := by
  simp [confuses, h]

variable {evaluation : ObjectEvaluation World Val Thrown Content} {world : World}
  {subject label : Term} {key value : Val}

theorem reads_equalsCall (hsubject : (evaluation.value subject).Reads world key)
    (hlabel : (evaluation.value label).Reads world value)
    (hobject : (evaluation.isString value || evaluation.isBoxed value) = true) :
    (evaluation.test (.call label "equals" [subject])).Reads world
      (evaluation.same key value) := by
  rw [evaluation.same_comm]
  refine evaluation.test_equalsCall _ _ _ _ _ _ ?_ hsubject hobject
  rwa [evaluation.value_wrap]

theorem reads_comparison (hsubject : (evaluation.value subject).Reads world key)
    (hlabel : (evaluation.value label).Reads world value) :
    (evaluation.test (.chain .equals [subject.wrap Strength.equality, label])).Reads world
      (evaluation.equal key value) := by
  refine evaluation.test_comparison _ _ _ _ _ _ ?_ hlabel
  rwa [evaluation.value_wrap]

/-- The test of a label has no effect.  It tells whether the switch selects the label, unless the
recorded type leaves open what the label is, and label and subject are two objects. -/
theorem reads_labelTerm (hsubject : (evaluation.value subject).Reads world key)
    (hlabel : (evaluation.value label).Reads world value)
    (hfits : evaluation.Fits label.type value) :
    (evaluation.test (labelTerm subject label)).Reads world
      (evaluation.same key value && !confuses evaluation.toObjectModel label.type key value) := by
  unfold labelTerm
  rcases TestForm.ofType_cases label.type with ⟨type, htype, hobject, hform⟩ |
    ⟨type, htype, henum, hform⟩ | ⟨hform, htelling⟩ <;> rw [hform]
  · have htelling : isTelling label.type = true := by
      rcases hobject with h | h <;> simp [htype, isTelling, h]
    rw [same_of_telling htelling]
    refine reads_equalsCall hsubject hlabel ?_
    rcases hobject with hboxed | hstring
    · simp [hfits.boxed type htype hboxed]
    · simp [hfits.string type htype hstring]
  · have htelling : isTelling label.type = true := by simp [htype, isTelling, henum]
    obtain ⟨hstring, hboxed⟩ := hfits.plain type htype (.inr henum)
    rw [same_of_telling htelling, ← evaluation.equal_of_plain hstring hboxed]
    refine evaluation.test_comparison _ _ _ _ _ _ hsubject ?_
    rwa [evaluation.value_constant label type htype henum]
  · have hcompared := reads_comparison hsubject hlabel
    cases hopen : isTelling label.type with
    | true =>
        obtain ⟨type, htype, hprimitive⟩ := htelling hopen
        obtain ⟨hstring, hboxed⟩ := hfits.plain type htype (.inl hprimitive)
        rwa [same_of_telling hopen, ← evaluation.equal_of_plain hstring hboxed]
    | false =>
        rw [confuses, hopen, Bool.not_false, Bool.true_and, ← evaluation.equal_eq]
        exact hcompared

/-! ## All labels of a switch -/

/-- The conditional that takes the place of a switch is made of groups that have the labels of
the switch. -/
theorem Rewrite.exists_items {old subject : Term} {fresh : Option Term} {body : List Term}
    {type : Option TypeDesc} (h : Rewrite old fresh)
    (hold : old = .node .switchStmt type (subject :: body)) :
    ∃ groups, Becomes (conditionalTerm subject groups) fresh ∧
      (groups.flatMap Group.items).Perm (body.filter (fun item => item.head == .caseLabel)) := by
  cases h with
  | @one type' subject' group fresh hpassive hsplit hclosed hfresh =>
      obtain ⟨rfl, rfl, rfl⟩ : type' = type ∧ subject' = subject ∧ group.body = body := by
        simpa using hold
      refine ⟨[group.close], hfresh, ?_⟩
      rw [hsplit.filter_body, List.flatMap_singleton]
      exact List.Perm.refl _
  | @two type' subject' first second fresh hpassive hsplit hsplit' hclosed hclosed' hjump hapart
      hfresh =>
      obtain ⟨rfl, rfl, rfl⟩ : type' = type ∧ subject' = subject ∧
          first.body ++ second.body = body := by
        simpa using hold
      refine ⟨inOrder first.close second.close, hfresh, ?_⟩
      have hpair : (inOrder first.close second.close).Perm [first.close, second.close] := by
        unfold inOrder
        split
        · exact List.Perm.swap ..
        · exact List.Perm.refl _
      rw [List.filter_append, hsplit.filter_body, hsplit'.filter_body]
      refine (hpair.flatMap_right Group.items).trans ?_
      rw [List.flatMap_cons, List.flatMap_singleton]
      exact List.Perm.refl _

/-- What the rule puts in the place of a switch is made of groups that have the labels of the
switch. -/
theorem exists_tested {store drafted : Store} {root node subject : NodeId} {body : List NodeId}
    {options : Options} {response : Response} (htyped : store.TypesKnown)
    (hvalid : store.ValidAt root) (hnode : node ∈ store.preorder root)
    (hkind : store.kind node = .switchStmt subject body)
    (hrun : respond options node store = .ok (response, drafted)) (hedits : response.edits ≠ []) :
    ∃ (result : Option Term) (groups : List (Group Term)),
      ((∃ child, response.edits = [⟨node, .replace child⟩] ∧
          result = some (drafted.term child.node)) ∨
        response.edits = [⟨node, .remove⟩] ∧ result = none) ∧
      Becomes (conditionalTerm (store.term subject) groups) result ∧
      (groups.flatMap Group.items).Perm
        ((body.map store.term).filter (fun item => item.head == .caseLabel)) := by
  have hbounded := hvalid.isBounded.of_mem_preorder hnode
  have hterm : store.term node =
      .node .switchStmt (store.typeOf node) (store.term subject :: body.map store.term) := by
    rw [hbounded.term_eq, Store.children, hkind]
    rfl
  obtain ⟨result, hresult, hrewrite⟩ := exists_result htyped hvalid hnode hrun hedits
  obtain ⟨groups, hbecomes, hitems⟩ := hrewrite.exists_items hterm
  exact ⟨result, groups, hresult, hbecomes, hitems⟩

/-- Whatever the rule puts in the place of a switch, its groups have the labels of the switch,
and in every world in which subject and label have values that fit their types the test of a
label tells whether the switch selects the label, unless it confuses the two. -/
theorem label_tests_decide_selection {store drafted : Store} {root node subject : NodeId}
    {body : List NodeId} {options : Options} {response : Response} (htyped : store.TypesKnown)
    (hvalid : store.ValidAt root) (hnode : node ∈ store.preorder root)
    (hkind : store.kind node = .switchStmt subject body)
    (hrun : respond options node store = .ok (response, drafted)) (hedits : response.edits ≠ []) :
    ∃ (result : Option Term) (groups : List (Group Term)),
      ((∃ child, response.edits = [⟨node, .replace child⟩] ∧
          result = some (drafted.term child.node)) ∨
        response.edits = [⟨node, .remove⟩] ∧ result = none) ∧
      Becomes (conditionalTerm (store.term subject) groups) result ∧
      (groups.flatMap Group.items).Perm
        ((body.map store.term).filter (fun item => item.head == .caseLabel)) ∧
      ∀ group, group ∈ groups → ∀ label, label ∈ group.labels →
        ∀ (evaluation : ObjectEvaluation World Val Thrown Content) (world : World)
          (key value : Val),
          (evaluation.value (store.term subject)).Reads world key →
          (evaluation.value label).Reads world value → evaluation.Fits label.type value →
          (evaluation.test (labelTerm (store.term subject) label)).Reads world
            (evaluation.same key value &&
              !confuses evaluation.toObjectModel label.type key value) := by
  obtain ⟨result, groups, hresult, hbecomes, hitems⟩ :=
    exists_tested htyped hvalid hnode hkind hrun hedits
  exact ⟨result, groups, hresult, hbecomes, hitems,
    fun group _ label _ evaluation world key value hsubject hlabel hfits =>
      reads_labelTerm hsubject hlabel hfits⟩

end TwoWaySwitch

/-! ## A machine with strings -/

namespace ObjectMachine

/-- Strings and boxed numbers are kept at a place. -/
inductive Datum where
  | number (value : Int)
  | string (place : Nat) (text : String)
  | boxed (place : Nat) (value : Int)
deriving DecidableEq

abbrev World := String → Datum

abbrev Act := Action World Unit

def model : ObjectModel Datum (Int ⊕ String) where
  content
    | .number value => .inl value
    | .string _ text => .inr text
    | .boxed _ value => .inl value
  isString
    | .string .. => true
    | _ => false
  isBoxed
    | .boxed .. => true
    | _ => false

structure Meaning where
  value : Act Datum
  test : Act Bool

/-- Names are variables, and all literals with one text are one object. -/
def step (head : Head) (_ : Option TypeDesc) (subs : List Meaning) : Meaning where
  value :=
    match head, subs with
    | .paren, [inner] => inner.value
    | .qualified, [_, simple] => simple.value
    | .literal (.int value), _ => return .number value
    | .literal (.str text), _ => return .string 0 text
    | .name text _, _ => do return (← getThe World) text
    | _, _ => throw ()
  test :=
    match head, subs with
    | .paren, [inner] => inner.test
    | .chain .conditionalOr, _ => .untilStop true (subs.map Meaning.test)
    | .chain .equals, [left, right] => do
        let first ← left.value
        let second ← right.value
        return model.equal first second
    | .call true "equals", [receiver, argument] => do
        let first ← receiver.value
        let second ← argument.value
        return model.same first second
    | _, _ => throw ()

def meaning : Term → Meaning :=
  Term.fold step

theorem meaning_node (head : Head) (type : Option TypeDesc) (subs : List Term) :
    meaning (.node head type subs) = step head type (subs.map meaning) :=
  Term.fold_node ..

theorem fits_string (place : Nat) (text : String) :
    model.Fits (some .string) (.string place text) where
  string _ _ _ := rfl
  boxed := by rintro _ ⟨⟩ ⟨⟩
  plain := by rintro _ ⟨⟩ (⟨⟨⟩⟩ | ⟨⟨⟩⟩)

theorem reads_both {first second : Act Datum} {world : World} {x y : Datum}
    (h : first.Reads world x) (h' : second.Reads world y) (flag : Datum → Datum → Bool) :
    Action.Reads (do
      let left ← first
      let right ← second
      return flag left right) world (flag x y) := by
  unfold Action.Reads
  rw [h.outcome_bind, h'.outcome_bind]
  rfl

def evaluation : ObjectEvaluation World Datum Unit (Int ⊕ String) where
  toObjectModel := model
  value term := (meaning term).value
  test term := (meaning term).test
  test_paren type inner := by rw [meaning_node]; rfl
  test_or type operands := by
    rw [meaning_node]
    show Action.untilStop true ((operands.map meaning).map Meaning.test) = _
    rw [List.map_map]
    rfl
  value_paren type inner := by rw [meaning_node]; rfl
  value_constant label type htype hsort := by rw [Term.qualified, meaning_node]; rfl
  test_comparison type left right world x y hleft hright := by
    rw [meaning_node]
    exact reads_both hleft hright model.equal
  test_equalsCall type receiver argument world x y hreceiver hargument hobject := by
    rw [meaning_node]
    exact reads_both hreceiver hargument model.same

end ObjectMachine

namespace TwoWaySwitch

/-- The unit `switch (s) { case "hello": greet(); break; default: other(); }`. -/
def greeting : Store where
  nodes := #[
    ⟨.name "s" none, some 0, some 9, false⟩,
    ⟨.literal (.str "hello"), some 0, some 2, false⟩,
    ⟨.caseLabel (some 1), none, some 9, false⟩,
    ⟨.call none "greet" [], none, some 4, false⟩,
    ⟨.exprStmt 3, none, some 9, false⟩,
    ⟨.breakStmt none, none, some 9, false⟩,
    ⟨.caseLabel none, none, some 9, false⟩,
    ⟨.call none "other" [], none, some 8, false⟩,
    ⟨.exprStmt 7, none, some 9, false⟩,
    ⟨.switchStmt 0 [2, 4, 5, 6, 8], none, some 10, false⟩,
    ⟨.unit [9], none, none, false⟩]
  types := ⟨#[.string]⟩

/-- The string in the variable is another object than the one in the label. -/
theorem label_tests_decide_selection_greeting :
    ∃ response drafted, respond {} 9 greeting = .ok (response, drafted) ∧ response.edits ≠ [] ∧
      Action.Reads (ObjectMachine.evaluation.test (labelTerm (greeting.term 0) (greeting.term 1)))
        (fun _ => .string 7 "hello") true := by
  obtain ⟨response, drafted, hrun, hedits⟩ :=
    @Build.exists_outcome greeting _ (respond {} 9)
      (fun outcome => !outcome.1.edits.isEmpty) (by decide +kernel)
  have hsome : response.edits ≠ [] := by simpa using hedits
  obtain ⟨result, groups, -, -, hitems, htests⟩ := @label_tests_decide_selection
    ObjectMachine.World ObjectMachine.Datum Unit (Int ⊕ String) _ _ greeting drafted 10 9 0
    [2, 4, 5, 6, 8] {} response (by decide +kernel) (by decide +kernel) (by decide +kernel) rfl hrun
    hsome
  have hitem : greeting.term 2 ∈ groups.flatMap Group.items :=
    hitems.symm.subset (List.mem_cons_self ..)
  obtain ⟨group, hgroup, hmem⟩ := List.mem_flatMap.mp hitem
  have hsubs : (greeting.term 2).subs = [.node (.literal (.str "hello")) (some .string) []] := rfl
  have hlabel : greeting.term 1 = .node (.literal (.str "hello")) (some .string) [] := rfl
  have hmem' : greeting.term 1 ∈ group.labels :=
    List.mem_flatMap.mpr ⟨greeting.term 2, hmem, by rw [hsubs, hlabel]; simp⟩
  have htype : (greeting.term 1).type = some .string := by rw [hlabel]; rfl
  have hreads := htests group hgroup _ hmem' ObjectMachine.evaluation (fun _ => .string 7 "hello")
    (.string 7 "hello") (.string 0 "hello") rfl rfl
    (by rw [htype]; exact ObjectMachine.fits_string ..)
  have htelling : isTelling (greeting.term 1).type = true := by
    simp [htype, isTelling, TypeDesc.string, TypeDesc.reference]
  have hsame : ObjectMachine.evaluation.same (.string 7 "hello") (.string 0 "hello") = true :=
    decide_eq_true rfl
  rw [same_of_telling htelling, hsame] at hreads
  exact ⟨response, drafted, hrun, hsome, hreads⟩

/-- The unit `switch (s) { case A: a(); }`, in which nothing is known about the label. -/
def untypedLabel : Store where
  nodes := #[
    ⟨.name "s" none, some 0, some 5, false⟩,
    ⟨.name "A" none, none, some 2, false⟩,
    ⟨.caseLabel (some 1), none, some 5, false⟩,
    ⟨.call none "a" [], none, some 4, false⟩,
    ⟨.exprStmt 3, none, some 5, false⟩,
    ⟨.switchStmt 0 [2, 4], none, some 6, false⟩,
    ⟨.unit [5], none, none, false⟩]
  types := ⟨#[.string]⟩

/-- The switch selects the label `A`, and the test that is made of it fails. -/
theorem label_test_confuses_strings :
    ∃ response drafted child groups group, respond {} 5 untypedLabel = .ok (response, drafted) ∧
      response.edits = [⟨5, .replace child⟩] ∧
      conditionalTerm (untypedLabel.term 0) groups = some (drafted.term child.node) ∧
      group ∈ groups ∧ group.hasDefault = false ∧ untypedLabel.term 1 ∈ group.labels ∧
      ∃ world key value,
        Action.Reads (ObjectMachine.evaluation.value (untypedLabel.term 0)) world key ∧
        Action.Reads (ObjectMachine.evaluation.value (untypedLabel.term 1)) world value ∧
        ObjectMachine.evaluation.Fits (untypedLabel.term 0).type key ∧
        ObjectMachine.evaluation.Fits (untypedLabel.term 1).type value ∧
        ObjectMachine.evaluation.same key value = true ∧
        Action.Reads (ObjectMachine.evaluation.test
          (labelTerm (untypedLabel.term 0) (untypedLabel.term 1))) world false := by
  have hlabel : untypedLabel.term 1 = .node (.name "A" none) none [] := rfl
  have hitem : untypedLabel.term 2 = .node .caseLabel none [.node (.name "A" none) none []] := rfl
  obtain ⟨response, drafted, hrun, hcheck⟩ :=
    @Build.exists_outcome untypedLabel _ (respond {} 5)
      (fun outcome => outcome.1.edits == [⟨5, .replace (.fresh 10)⟩] &&
        (outcome.2.term 10).head == .ifStmt) (by decide +kernel)
  obtain ⟨hedits, hhead⟩ : response.edits = [⟨5, .replace (.fresh 10)⟩] ∧
      (drafted.term 10).head = .ifStmt := by simpa using hcheck
  obtain ⟨result, groups, hresult, hbecomes, hitems⟩ :=
    @exists_tested untypedLabel drafted 6 5 0 [2, 4] {} response (by decide +kernel)
      (by decide +kernel) (by decide +kernel) rfl hrun (by simp [hedits])
  obtain rfl : result = some (drafted.term 10) := by
    rcases hresult with ⟨child, hchild, rfl⟩ | ⟨hremove, -⟩
    · rw [hedits] at hchild
      cases hchild
      rfl
    · rw [hedits] at hremove
      cases hremove
  have hfilter : ([2, 4].map untypedLabel.term).filter (fun item => item.head == .caseLabel) =
      [untypedLabel.term 2] := rfl
  rw [hfilter] at hitems
  obtain ⟨group, hgroup, hin⟩ :=
    List.mem_flatMap.mp (hitems.symm.subset (List.mem_singleton_self _))
  refine ⟨response, drafted, .fresh 10, groups, group, hrun, hedits, ?_, hgroup, ?_, ?_, ?_⟩
  · rcases mem_of_becomes hbecomes rfl with hsome | hvanished
    · exact hsome
    · generalize drafted.term 10 = stmt at hvanished hhead
      cases hvanished
      cases hhead
  · refine List.any_eq_false.mpr fun item hmem => ?_
    have honly := hitems.subset (List.mem_flatMap.mpr ⟨group, hgroup, hmem⟩)
    rw [List.mem_singleton.mp honly, hitem]
    exact Bool.false_ne_true
  · refine List.mem_flatMap.mpr ⟨untypedLabel.term 2, hin, ?_⟩
    rw [hitem, hlabel]
    exact List.mem_singleton_self _
  · refine ⟨fun name => if name = "s" then .string 7 "hello" else .string 0 "hello",
      .string 7 "hello", .string 0 "hello", rfl, rfl, ?_, ?_, decide_eq_true rfl, rfl⟩
    · exact ObjectMachine.fits_string ..
    · rw [hlabel]
      exact ObjectModel.fits_none ..

end TwoWaySwitch

end CodeTidy
