import CodeTidy.Proofs.Invariant
import Mathlib.Data.List.TakeWhile

/-!
# Scopes of local variables

A local variable is declared in a statement list and may be named in the items after its
declaration (`Source.IsScoped`).  On terms this is a check of every node: what is declared
in one slot is named in no other one, except that the items of a list see what an item
before them declares.

The groups of a switch share one list.  When they become blocks of their own, the second
group loses sight of the locals of the first.  The switch rule looks for such a use in the
statements of a group, but not in its labels, so scopes are only kept if no label names a
local of its own switch (`Term.hasFreeLabels`).
-/

namespace CodeTidy

/-! ## Scopes in a store -/

def Kind.items : Kind → List NodeId
  | block stmts => stmts
  | switchStmt _ body => body
  | unit members => members
  | _ => []

namespace Store

/-- The items after a node in the statement list that holds it. -/
def scope? (store : Store) (id : NodeId) : Option (List NodeId) :=
  (store.parent id).bind fun holder =>
    ((store.kind holder).items.dropWhile (· != id)).tail?

def mentioned? (store : Store) (id : NodeId) : Option BindingId :=
  (store.kind id).head.mentioned?

end Store

/-- Every declaration stands in a statement list, and what it declares is named only in
the items after it. -/
def Source.IsScoped (source : Source) : Prop :=
  ∀ decl, decl ∈ source.store.preorder source.root →
    (source.store.declared? decl).isSome = true →
    (source.store.scope? decl).isSome = true ∧
    ∀ name, name ∈ source.store.preorder source.root →
      (source.store.mentioned? name).isSome = true →
      source.store.declared? decl = some (source.store.mentioned? name) →
      name ∈ ((source.store.scope? decl).getD []).flatMap source.store.preorder

instance (source : Source) : Decidable source.IsScoped :=
  inferInstanceAs (Decidable (∀ _, _ → _))

/-! ## Scopes in a term -/

namespace Head

def isDecl : Head → Bool
  | varDecl _ _ => true
  | _ => false

theorem declared?_eq_none {head : Head} (h : head.isDecl = false) : head.declared? = none := by
  cases head <;> first | rfl | cases h

end Head

namespace Term

def declares : Term → List BindingId :=
  bindings Head.declared?

def inner (term : Term) : List BindingId :=
  term.subs.flatMap declares

theorem mentions_node (head : Head) (type : Option TypeDesc) (subs : List Term) :
    mentions (node head type subs) = head.mentioned?.toList ++ subs.flatMap mentions :=
  bindings_node ..

theorem declares_eq (term : Term) : term.declares = term.head.declared?.toList ++ term.inner := by
  cases term
  exact bindings_node ..

theorem inner_subset (term : Term) : term.inner ⊆ term.declares := by
  rw [declares_eq]
  exact List.subset_append_right ..

theorem declares_of_not_decl {term : Term} (h : term.head.isDecl = false) :
    term.declares = term.inner := by
  rw [declares_eq, Head.declared?_eq_none h]
  rfl

theorem mentions_sub {term sub : Term} (h : sub ∈ term.subs) : sub.mentions ⊆ term.mentions := by
  cases term
  rw [mentions_node]
  exact fun _ hbinding => List.mem_append_right _ (List.mem_flatMap.mpr ⟨sub, h, hbinding⟩)

theorem declares_sub {term sub : Term} (h : sub ∈ term.subs) : sub.declares ⊆ term.inner :=
  fun _ hbinding => List.mem_flatMap.mpr ⟨sub, h, hbinding⟩

theorem flatMap_subset {reading : Term → List BindingId} {subs : List Term}
    {bindings : List BindingId} (h : ∀ sub, sub ∈ subs → reading sub ⊆ bindings) :
    subs.flatMap reading ⊆ bindings := by
  intro binding hbinding
  obtain ⟨sub, hsub, hin⟩ := List.mem_flatMap.mp hbinding
  exact h sub hsub hin

/-- Two slots of a node, the first before the second: of what one declares, the other may
only name what the first declares itself. -/
def Apart (x y : Term) : Prop :=
  (∀ binding, binding ∈ y.declares → binding ∉ x.mentions) ∧
    ∀ binding, binding ∈ x.inner → binding ∉ y.mentions

instance (x y : Term) : Decidable (Apart x y) :=
  inferInstanceAs (Decidable (_ ∧ _))

def listsDecls (head : Head) (subs : List Term) : Bool :=
  match head with
  | .block | .unit => true
  | .switchStmt => !subs.head?.any (fun sub => sub.head.isDecl)
  | _ => !subs.any (fun sub => sub.head.isDecl)

def isScoped (term : Term) : Bool :=
  listsDecls term.head term.subs &&
    term.subs.all (fun sub =>
      sub.head.declared?.all (fun binding => !sub.mentions.contains binding)) &&
    decide (term.subs.Pairwise Apart)

/-- Two items of a switch, the first before the second: if the second is a label, it does
not name what the first declares. -/
def Free (item label : Term) : Prop :=
  label.head = .caseLabel → ∀ binding, binding ∈ item.head.declared? →
    binding ∉ label.mentions

instance (item label : Term) : Decidable (Free item label) :=
  inferInstanceAs (Decidable (_ → _))

def hasFreeLabels (term : Term) : Bool :=
  term.head != .switchStmt || decide (term.subs.Pairwise Free)

/-- Whether scopes are right and stay so when the groups of a switch are separated. -/
def isSeparable (term : Term) : Bool :=
  term.isScoped && term.hasFreeLabels

variable {head : Head} {type : Option TypeDesc} {subs before after : List Term}

theorem isScoped_iff : (node head type subs).isScoped = true ↔
    listsDecls head subs = true ∧
    (∀ sub, sub ∈ subs → ∀ binding, sub.head.declared? = some binding →
      binding ∉ sub.mentions) ∧ subs.Pairwise Apart := by
  rw [isScoped, Bool.and_eq_true, decide_eq_true_iff]
  simp [Option.all_eq_true, and_assoc]

theorem hasFreeLabels_iff : (node head type subs).hasFreeLabels = true ↔
    (head = .switchStmt → subs.Pairwise Free) := by
  rw [hasFreeLabels, Bool.or_eq_true, decide_eq_true_iff]
  simp [or_iff_not_imp_left]

theorem isSeparable_iff : (node head type subs).isSeparable = true ↔
    (listsDecls head subs = true ∧
      (∀ sub, sub ∈ subs → ∀ binding, sub.head.declared? = some binding →
        binding ∉ sub.mentions) ∧ subs.Pairwise Apart) ∧
    (head = .switchStmt → subs.Pairwise Free) := by
  rw [isSeparable, Bool.and_eq_true, isScoped_iff, hasFreeLabels_iff]

/-! ## Narrower terms -/

structure Narrows (old new : Term) : Prop where
  mentions : new.mentions ⊆ old.mentions
  inner : new.inner ⊆ old.inner
  declared : ∀ binding, new.head.declared? = some binding →
    old.head.declared? = some binding
  decl : new.head.isDecl = true → old.head.isDecl = true
  label : new.head = .caseLabel → old.head = .caseLabel

variable {old new a b x y : Term} {fresh : Option Term} {strict : Bool}

theorem Narrows.refl (term : Term) : Narrows term term :=
  ⟨List.Subset.refl _, List.Subset.refl _, fun _ h => h, id, id⟩

theorem Narrows.declares (h : Narrows old new) : new.declares ⊆ old.declares := by
  rw [declares_eq, declares_eq]
  refine List.append_subset.mpr ⟨?_, List.subset_append_of_subset_right _ h.inner⟩
  intro binding hbinding
  exact List.mem_append_left _ (Option.mem_toList.mpr
    (h.declared binding (Option.mem_toList.mp hbinding)))

theorem Apart.mono (h : Apart x y) (hx : Narrows x a) (hy : Narrows y b) : Apart a b :=
  ⟨fun binding hb ha => h.1 binding (hy.declares hb) (hx.mentions ha),
    fun binding ha hb => h.2 binding (hx.inner ha) (hy.mentions hb)⟩

theorem Free.mono (h : Free x y) (hx : Narrows x a) (hy : Narrows y b) : Free a b :=
  fun hlabel binding ha hb => h (hy.label hlabel) binding (hx.declared binding ha)
    (hy.mentions hb)

/-- A relation between the slots of a node survives a change of one of them. -/
theorem pairwise_slots {related : Term → Term → Prop}
    (h : (before ++ a :: after).Pairwise related)
    (hfirst : ∀ x, related x a → related x b)
    (hsecond : ∀ y, related a y → related b y) :
    (before ++ b :: after).Pairwise related := by
  rw [List.pairwise_append, List.pairwise_cons] at h ⊢
  obtain ⟨hbefore, ⟨ha, hafter⟩, hacross⟩ := h
  refine ⟨hbefore, ⟨fun y hy => hsecond y (ha y hy), hafter⟩, ?_⟩
  intro x hx y hy
  rcases List.mem_cons.mp hy with rfl | hy
  · exact hfirst x (hacross x hx a (List.mem_cons_self ..))
  · exact hacross x hx y (List.mem_cons_of_mem _ hy)

theorem Narrows.listsDecls (h : Narrows a b)
    (hlists : listsDecls head (before ++ a :: after) = true) :
    Term.listsDecls head (before ++ b :: after) = true := by
  have hdecl : b.head.isDecl = true → a.head.isDecl = true := h.decl
  unfold Term.listsDecls at hlists ⊢
  split
  · rfl
  · rfl
  · cases before <;> simp_all
  · simp_all

theorem Narrows.isSeparable_slots (h : Narrows a b)
    (hself : (node head type (before ++ a :: after)).isSeparable = true) :
    (node head type (before ++ b :: after)).isSeparable = true := by
  rw [isSeparable_iff] at hself ⊢
  obtain ⟨⟨hlists, hown, hapart⟩, hfree⟩ := hself
  refine ⟨⟨h.listsDecls hlists, ?_, ?_⟩, fun hhead => ?_⟩
  · intro sub hsub binding hdeclared hmention
    rcases List.mem_append.mp hsub with hsub | hsub
    · exact hown sub (List.mem_append_left _ hsub) binding hdeclared hmention
    · rcases List.mem_cons.mp hsub with rfl | hsub
      · exact hown a (by simp) binding (h.declared binding hdeclared) (h.mentions hmention)
      · exact hown sub (by simp [hsub]) binding hdeclared hmention
  · exact pairwise_slots hapart (fun x hx => hx.mono (.refl x) h) (fun y hy => hy.mono h (.refl y))
  · exact pairwise_slots (hfree hhead) (fun x hx => hx.mono (.refl x) h)
      (fun y hy => hy.mono h (.refl y))

theorem isSeparable_drop (hdrop : head.canDrop before.length = true)
    (hself : (node head type (before ++ old :: after)).isSeparable = true) :
    (node head type (before ++ after)).isSeparable = true := by
  have hsub : (before ++ after).Sublist (before ++ old :: after) :=
    (List.sublist_cons_self old after).append_left before
  rw [isSeparable_iff] at hself ⊢
  obtain ⟨⟨hlists, hown, hapart⟩, hfree⟩ := hself
  refine ⟨⟨?_, fun sub hmem => hown sub (hsub.subset hmem), hapart.sublist hsub⟩,
    fun hhead => (hfree hhead).sublist hsub⟩
  unfold listsDecls at hlists ⊢
  split
  · rfl
  · rfl
  · cases before with
    | nil => cases hdrop
    | cons first before => exact hlists
  · simp_all

/-- A change by a narrower term is a narrower term. -/
theorem Swap.narrows (h : Swap old fresh a b)
    (hfresh : ∀ new, new ∈ fresh → Narrows old new) : Narrows a b := by
  have hslots : ∀ {reading : Term → List BindingId} {before middle after : List Term}
      {c : Term}, middle.flatMap reading ⊆ reading c →
      (before ++ (middle ++ after)).flatMap reading ⊆ (before ++ c :: after).flatMap reading := by
    intro reading before middle after c hmiddle binding
    simp only [List.flatMap_append, List.flatMap_cons, List.mem_append]
    exact Or.imp_right (Or.imp_left fun hin => hmiddle hin)
  have hnode : ∀ {head type before middle after} {c : Term},
      middle.flatMap Term.mentions ⊆ c.mentions → middle.flatMap Term.declares ⊆ c.declares →
      Narrows (node head type (before ++ c :: after))
        (node head type (before ++ (middle ++ after))) := by
    intro head type before middle after c hmentions hdeclares
    refine ⟨?_, hslots hdeclares, fun _ h => h, id, id⟩
    rw [mentions_node, mentions_node]
    exact List.append_subset.mpr ⟨List.subset_append_left ..,
      List.subset_append_of_subset_right _ (hslots hmentions)⟩
  induction h with
  | @here head type before after hdrop hsuits =>
      cases fresh with
      | none => exact hnode (by simp) (by simp)
      | some new =>
          have hnew := hfresh new rfl
          exact hnode (by simpa using hnew.mentions) (by simpa using hnew.declares)
  | @deeper head type before after c d hswap ih =>
      have hboth := @hnode head type before [d] after c (by simpa using ih.mentions)
        (by simpa using ih.declares)
      exact hboth

/-- A change keeps scopes if the new subtree is narrower. -/
theorem Swap.separable (h : Swap old fresh a b) (hall : a.all isSeparable = true)
    (hfresh : ∀ new, new ∈ fresh → old.all isSeparable = true →
      new.all isSeparable = true)
    (hnarrows : ∀ new, new ∈ fresh → Narrows old new) : b.all isSeparable = true := by
  refine h.all hall hfresh ?_ ?_
  · intro head type before after _ hself hdrop _
    cases fresh with
    | none => exact isSeparable_drop (hdrop rfl) hself
    | some new => exact (hnarrows new rfl).isSeparable_slots hself
  · intro head type before after c d hcd _ hself
    exact (hcd.narrows hnarrows).isSeparable_slots hself

/-! ## Expressions -/

theorem IsExpr.not_decl {term : Term} (h : term.IsExpr strict) : term.head.isDecl = false := by
  have hhead := h.head
  cases hterm : term.head <;> rw [hterm] at hhead <;> first | rfl | cases hhead

theorem IsExpr.declares_eq_nil {term : Term} (h : term.IsExpr strict) : term.declares = [] := by
  induction term with
  | node head type subs ih =>
      rw [declares_of_not_decl h.not_decl]
      exact List.flatMap_eq_nil_iff.mpr fun sub hsub => ih sub hsub (h.of_mem hsub)

theorem IsExpr.inner_eq_nil {term : Term} (h : term.IsExpr strict) : term.inner = [] := by
  rw [← declares_of_not_decl h.not_decl, h.declares_eq_nil]

theorem IsExpr.separable {term : Term} (h : term.IsExpr strict) :
    term.all isSeparable = true := by
  induction term with
  | node head type subs ih =>
      have hsubs : ∀ sub, sub ∈ subs → sub.IsExpr strict := fun sub hsub => h.of_mem hsub
      have hlists : listsDecls head subs = true := by
        have hno : subs.any (fun sub => sub.head.isDecl) = false :=
          List.any_eq_false.mpr fun sub hsub => by simp [(hsubs sub hsub).not_decl]
        unfold listsDecls
        split
        · rfl
        · rfl
        · cases h.head
        · rw [hno]; rfl
      rw [all_node, Bool.and_eq_true, isSeparable_iff, List.all_eq_true]
      refine ⟨⟨⟨hlists, ?_, ?_⟩, ?_⟩, fun sub hsub => ih sub hsub (hsubs sub hsub)⟩
      · intro sub hsub binding hdeclared
        rw [Head.declared?_eq_none (hsubs sub hsub).not_decl] at hdeclared
        cases hdeclared
      · refine List.pairwise_of_forall_mem_list fun x hx y hy => ⟨?_, ?_⟩
        · rw [(hsubs y hy).declares_eq_nil]; nofun
        · rw [(hsubs x hx).inner_eq_nil]; nofun
      · rintro rfl
        cases h.head

theorem Narrows.of_expr (hnew : new.IsExpr strict) (hmentions : new.mentions ⊆ old.mentions) :
    Narrows old new where
  mentions := hmentions
  inner := by rw [hnew.inner_eq_nil]; exact List.nil_subset _
  declared := by rw [Head.declared?_eq_none hnew.not_decl]; nofun
  decl := by rw [hnew.not_decl]; nofun
  label := by
    intro hlabel
    have hhead := hnew.head
    rw [hlabel] at hhead
    cases hhead

/-! ## Names in constructed expressions -/

variable {term : Term} {terms : List Term}

theorem mentions_paren (term : Term) : term.paren.mentions = term.mentions := by
  simp [paren, mentions_node, Head.mentioned?]

theorem mentions_wrap (outer : Nat) (term : Term) : (term.wrap outer).mentions = term.mentions := by
  unfold wrap
  split
  · exact mentions_paren term
  · rfl

theorem mentions_fit (outer : Option Nat) (term : Term) :
    (term.fit outer).mentions = term.mentions := by
  cases outer
  · rfl
  · exact mentions_wrap _ term

theorem mentions_bare (term : Term) : term.bare.mentions = term.mentions := by
  induction term with
  | node head type subs ih =>
      unfold bare
      split
      · next type' inner heq =>
          cases heq
          rw [ih inner (List.mem_singleton_self _), mentions_node]
          simp [Head.mentioned?]
      · rfl

theorem mentions_not (term : Term) : term.not.mentions = term.mentions := by
  simp [Term.not, mentions_node, mentions_wrap, Head.mentioned?]

theorem mentions_chain (op : InfixOp) (terms : List Term) :
    (chain op terms).mentions = terms.flatMap mentions := by
  simp [chain, mentions_node, Head.mentioned?]

theorem mentions_join (op : InfixOp) (terms : List Term) :
    (join op terms).mentions = terms.flatMap mentions := by
  unfold join
  split
  · simp
  · rw [mentions_chain, List.flatMap_map]
    simp only [mentions_wrap]

theorem mentions_call (method : String) (term : Term) (terms : List Term) :
    (term.call method terms).mentions = term.mentions ++ terms.flatMap mentions := by
  simp [call, mentions_node, mentions_wrap, Head.mentioned?]

theorem mentions_bareName (text : String) : (bareName text).mentions = [] := by
  simp [bareName, mentions_node, Head.mentioned?]

theorem mentions_qualified (qualifier simple : Term) :
    (qualified qualifier simple).mentions = qualifier.mentions ++ simple.mentions := by
  simp [qualified, mentions_node, Head.mentioned?]

theorem mentions_typeName (dotted : String) : (typeName dotted).mentions = [] := by
  have hfold : ∀ (segments : List String) (qualifier : Term), qualifier.mentions = [] →
      (segments.foldl (fun qualifier segment => qualified qualifier (bareName segment))
        qualifier).mentions = [] := by
    intro segments
    induction segments with
    | nil => exact fun _ h => h
    | cons segment segments ih =>
        intro qualifier h
        exact ih _ (by rw [mentions_qualified, h, mentions_bareName]; rfl)
  exact hfold _ _ (mentions_bareName _)

theorem mentions_negate_subset (invert : Bool) (term : Term) :
    (term.negate invert).mentions ⊆ term.mentions := by
  rcases negate_cases invert term with ⟨type, operand, heq, hnegate⟩ | ⟨value, hnegate⟩ |
    ⟨op, inverse, type, left, right, heq, hop, hnegate⟩ | hnegate <;> rw [hnegate]
  · rw [← mentions_bare term, heq]
    exact mentions_sub (List.mem_singleton_self _)
  · exact List.nil_subset _
  · rw [← mentions_bare term, heq, mentions_chain, mentions_node]
    exact List.subset_append_right ..
  · rw [mentions_not]
    exact List.Subset.refl _

theorem mentions_push_subset (term : Term) : term.push.mentions ⊆ term.mentions := by
  induction term with
  | node head type subs ih =>
      rcases push_form (.node head type subs) with
        ⟨_, inner, ⟨⟩⟩ | ⟨op, dual, _, _, ⟨⟩, hdual⟩ | ⟨-, hnegate⟩
      · rw [push_paren]
        exact List.Subset.trans (ih inner (List.mem_singleton_self _))
          (mentions_sub (List.mem_singleton_self _))
      · rw [push_of_dual type subs hdual, mentions_paren, mentions_join, List.flatMap_map,
          mentions_node]
        intro binding hbinding
        obtain ⟨sub, hsub, hin⟩ := List.mem_flatMap.mp hbinding
        exact List.mem_append_right _ (List.mem_flatMap.mpr ⟨sub, hsub, ih sub hsub hin⟩)
      · rw [hnegate]
        exact mentions_negate_subset _ _

/-! ## Statements -/

structure Listed (items : List Term) : Prop where
  all : ∀ item, item ∈ items → item.all isSeparable = true
  own : ∀ item, item ∈ items → ∀ binding, item.head.declared? = some binding →
    binding ∉ item.mentions
  apart : items.Pairwise Apart

theorem Listed.of_node (h : (node head type subs).all isSeparable = true) : Listed subs := by
  obtain ⟨⟨-, hown, hapart⟩, -⟩ := isSeparable_iff.mp (holds_of_all h)
  exact ⟨fun item hitem => all_sub h hitem, hown, hapart⟩

theorem Listed.sublist {items items' : List Term} (h : Listed items)
    (hsub : items'.Sublist items) : Listed items' :=
  ⟨fun item hitem => h.all item (hsub.subset hitem),
    fun item hitem => h.own item (hsub.subset hitem), h.apart.sublist hsub⟩

theorem Listed.of_not_decl {items : List Term}
    (hall : ∀ item, item ∈ items → item.all isSeparable = true)
    (hdecl : ∀ item, item ∈ items → item.head.isDecl = false)
    (hapart : items.Pairwise Apart) : Listed items where
  all := hall
  own item hitem := by rw [Head.declared?_eq_none (hdecl item hitem)]; nofun
  apart := hapart

theorem Listed.node (h : Listed subs) (hlists : listsDecls head subs = true)
    (hswitch : head ≠ .switchStmt) : (Term.node head type subs).all isSeparable = true := by
  rw [all_node, Bool.and_eq_true, isSeparable_iff, List.all_eq_true]
  exact ⟨⟨⟨hlists, h.own, h.apart⟩, fun hhead => absurd hhead hswitch⟩, h.all⟩

theorem Listed.block (h : Listed subs) : (Term.node .block type subs).all isSeparable = true :=
  h.node rfl (by simp)

theorem Listed.ifStmt (h : Listed subs)
    (hdecl : ∀ sub, sub ∈ subs → sub.head.isDecl = false) :
    (Term.node .ifStmt type subs).all isSeparable = true := by
  refine h.node ?_ (by simp)
  simpa [listsDecls] using hdecl

theorem not_decl_of_ifStmt (h : (node .ifStmt type subs).all isSeparable = true) {sub : Term}
    (hsub : sub ∈ subs) : sub.head.isDecl = false := by
  obtain ⟨⟨hlists, -, -⟩, -⟩ := isSeparable_iff.mp (holds_of_all h)
  have hno : ∀ sub, sub ∈ subs → sub.head.isDecl = false := by simpa [listsDecls] using hlists
  exact hno sub hsub

structure Settles (old new : Term) : Prop extends Narrows old new where
  separable : new.all isSeparable = true

theorem Settles.refl (h : old.all isSeparable = true) : Settles old old :=
  { Narrows.refl old with separable := h }

/-- What declares nothing itself is exchanged for such a thing. -/
theorem Narrows.not_decl (h : Narrows old new) (hdecl : old.head.isDecl = false) :
    new.head.isDecl = false := by
  by_contra hnew
  rw [h.decl (by simpa using hnew)] at hdecl
  cases hdecl

theorem exists_settled {olds news : List Term} (h : List.Forall₂ Settles olds news) {new : Term}
    (hnew : new ∈ news) : ∃ old ∈ olds, Settles old new := by
  induction h with
  | nil => cases hnew
  | @cons old _ olds news hfirst hrest ih =>
      rcases List.mem_cons.mp hnew with rfl | hnew
      · exact ⟨old, List.mem_cons_self .., hfirst⟩
      · obtain ⟨later, hlater, hsettles⟩ := ih hnew
        exact ⟨later, List.mem_cons_of_mem _ hlater, hsettles⟩

theorem Listed.settle {olds news : List Term} (h : Listed olds)
    (hsettles : List.Forall₂ Settles olds news) : Listed news := by
  induction hsettles with
  | nil => exact h
  | @cons old new olds news hnew hnews ih =>
      have hrest := ih (h.sublist (List.sublist_cons_self ..))
      refine ⟨?_, ?_, List.pairwise_cons.mpr ⟨?_, hrest.apart⟩⟩
      · exact List.forall_mem_cons.mpr ⟨hnew.separable, hrest.all⟩
      · refine List.forall_mem_cons.mpr ⟨?_, hrest.own⟩
        intro binding hdeclared hmention
        exact h.own old (List.mem_cons_self ..) binding (hnew.declared binding hdeclared)
          (hnew.mentions hmention)
      · intro later hlater
        obtain ⟨before, hbefore, hsettled⟩ := exists_settled hnews hlater
        exact ((List.pairwise_cons.mp h.apart).1 before hbefore).mono hnew.toNarrows
          hsettled.toNarrows

theorem Settles.of_stmt (hdecl : new.head.isDecl = false) (hlabel : new.head ≠ .caseLabel)
    (hmentions : new.mentions ⊆ old.mentions) (hdeclares : new.declares ⊆ old.inner)
    (hseparable : new.all isSeparable = true) : Settles old new where
  mentions := hmentions
  inner := List.Subset.trans new.inner_subset hdeclares
  declared := by rw [Head.declared?_eq_none hdecl]; nofun
  decl := by rw [hdecl]; nofun
  label h := absurd h hlabel
  separable := hseparable

theorem Settles.of_expr (hnew : new.IsExpr strict) (hmentions : new.mentions ⊆ old.mentions) :
    Settles old new :=
  { Narrows.of_expr hnew hmentions with separable := hnew.separable }

theorem Settles.exprStmt {type : Option TypeDesc} {expr : Term} (hexpr : expr.IsExpr strict)
    (hmentions : expr.mentions ⊆ old.mentions) : Settles old (.node .exprStmt type [expr]) := by
  have hdeclares : (Term.node .exprStmt type [expr]).declares = [] := by
    rw [declares_of_not_decl rfl, Term.inner, subs_node, List.flatMap_singleton,
      hexpr.declares_eq_nil]
  refine .of_stmt rfl (by simp) ?_ (by rw [hdeclares]; exact List.nil_subset _) ?_
  · simpa [mentions_node, Head.mentioned?] using hmentions
  · refine Listed.node ?_ (by simp [listsDecls, hexpr.not_decl]) (by simp)
    exact .of_not_decl (by simpa using hexpr.separable) (by simpa using hexpr.not_decl)
      (List.pairwise_singleton ..)

theorem Settles.ifStmt {type : Option TypeDesc} (hlisted : Listed subs)
    (hdecl : ∀ sub, sub ∈ subs → sub.head.isDecl = false)
    (hmentions : ∀ sub, sub ∈ subs → sub.mentions ⊆ old.mentions)
    (hdeclares : ∀ sub, sub ∈ subs → sub.declares ⊆ old.inner) :
    Settles old (.node .ifStmt type subs) := by
  refine .of_stmt rfl (by simp) ?_ ?_ (hlisted.ifStmt hdecl)
  · rw [mentions_node]
    exact List.append_subset.mpr ⟨List.nil_subset _, flatMap_subset hmentions⟩
  · rw [declares_of_not_decl rfl]
    exact flatMap_subset hdeclares

/-- A conditional with some of its slots exchanged and the others left out. -/
theorem Settles.conditional {type type' : Option TypeDesc} {olds news : List Term}
    (hsub : olds.Sublist subs) (hall : (node .ifStmt type subs).all isSeparable = true)
    (hsettles : List.Forall₂ Settles olds news) :
    Settles (.node .ifStmt type subs) (.node .ifStmt type' news) := by
  refine .ifStmt (((Listed.of_node hall).sublist hsub).settle hsettles) ?_ ?_ ?_ <;>
    intro new hnew <;> obtain ⟨old, hold, hsettled⟩ := exists_settled hsettles hnew
  · exact hsettled.not_decl (not_decl_of_ifStmt hall (hsub.subset hold))
  · exact List.Subset.trans hsettled.mentions (mentions_sub (hsub.subset hold))
  · exact List.Subset.trans hsettled.declares (declares_sub (hsub.subset hold))

/-- A conditional with another condition, which names nothing that the branches declare. -/
theorem Settles.newCondition {type type' : Option TypeDesc} {cond cond' : Term}
    {branches olds news : List Term} (hsub : olds.Sublist branches)
    (hall : (node .ifStmt type (cond :: branches)).all isSeparable = true)
    (hcond : cond'.IsExpr strict)
    (hmentions : cond'.mentions ⊆ (node .ifStmt type (cond :: branches)).mentions)
    (hsettles : List.Forall₂ Settles olds news)
    (hfree : ∀ new, new ∈ news → ∀ binding, binding ∈ new.declares →
      binding ∉ cond'.mentions) :
    Settles (.node .ifStmt type (cond :: branches)) (.node .ifStmt type' (cond' :: news)) := by
  have hkept : Settles (.node .ifStmt type (cond :: branches)) (.node .ifStmt type' news) :=
    .conditional (hsub.cons cond) hall hsettles
  have hrest : Listed news := .of_node hkept.separable
  have hdecl : ∀ new, new ∈ news → new.head.isDecl = false :=
    fun new hnew => not_decl_of_ifStmt hkept.separable hnew
  refine .ifStmt ⟨?_, ?_, List.pairwise_cons.mpr ⟨?_, hrest.apart⟩⟩ ?_ ?_ ?_
  · exact List.forall_mem_cons.mpr ⟨hcond.separable, hrest.all⟩
  · refine List.forall_mem_cons.mpr ⟨?_, hrest.own⟩
    rw [Head.declared?_eq_none hcond.not_decl]
    nofun
  · intro new hnew
    refine ⟨hfree new hnew, ?_⟩
    rw [hcond.inner_eq_nil]
    nofun
  · exact List.forall_mem_cons.mpr ⟨hcond.not_decl, hdecl⟩
  · exact List.forall_mem_cons.mpr ⟨hmentions, fun new hnew _ hin =>
      hkept.mentions (mentions_sub hnew hin)⟩
  · refine List.forall_mem_cons.mpr ⟨?_, fun new hnew _ hin => hkept.inner (declares_sub hnew hin)⟩
    rw [hcond.declares_eq_nil]
    exact List.nil_subset _

/-- A slot that declares nothing itself takes the place of its node. -/
theorem Settles.of_sub (h : old.all isSeparable = true) (hsub : new ∈ old.subs)
    (hdecl : new.head.isDecl = false) (hlabel : new.head ≠ .caseLabel) : Settles old new :=
  .of_stmt hdecl hlabel (mentions_sub hsub) (declares_sub hsub) (all_sub h hsub)

end Term

/-! ## Rules -/

variable {old a b : Term} {fresh : Option Term} {strict : Bool}

open Term

theorem StringConversion.Rewrite.mentions (h : StringConversion.Rewrite old fresh) {new : Term}
    (hnew : new ∈ fresh) : new.mentions ⊆ old.mentions := by
  cases h <;> cases hnew
  all_goals
    rw [mentions_call, mentions_bareName, List.nil_append, List.flatMap_singleton]
    exact mentions_sub (by simp)

theorem EmptinessTest.Reads.mentions {op : InfixOp} {size literal receiver : Term}
    {verdict : Verdict} (h : Reads op size literal receiver verdict) :
    receiver.mentions ⊆ size.mentions := by
  obtain ⟨method, type, value, hbare, -⟩ := h
  rw [← mentions_bare size, hbare]
  exact mentions_sub (List.mem_singleton_self _)

theorem EmptinessTest.Rewrite.mentions (h : EmptinessTest.Rewrite old fresh) {new : Term}
    (hnew : new ∈ fresh) : new.mentions ⊆ old.mentions := by
  cases h with
  | @states op type left right receiver verdict outer hreads hpassive =>
      cases hnew
      have hreceiver : receiver.mentions ⊆ (Term.node (.chain op) type [left, right]).mentions := by
        rcases hreads with hreads | hreads
        · exact List.Subset.trans hreads.mentions (mentions_sub (by simp))
        · exact List.Subset.trans hreads.mentions (mentions_sub (by simp))
      rw [mentions_fit]
      cases verdict with
      | always value => exact List.nil_subset _
      | empty => simpa [statement, mentions_call] using hreceiver
      | notEmpty => simpa [statement, mentions_not, mentions_call] using hreceiver

theorem NegationDescent.Rewrite.mentions (h : NegationDescent.Rewrite old fresh) {new : Term}
    (hnew : new ∈ fresh) : new.mentions ⊆ old.mentions := by
  cases h with
  | @push type operand outer hcovered =>
      cases hnew
      rw [mentions_fit]
      exact List.Subset.trans (mentions_push_subset operand)
        (mentions_sub (List.mem_singleton_self _))

theorem Vanished.settles (h : Vanished fresh) {new : Term} (hnew : new ∈ fresh) :
    Settles old new := by
  cases h <;> cases hnew
  exact .of_stmt rfl (by simp [Term.block]) (List.nil_subset _) (List.nil_subset _) rfl

theorem DeadBranch.settles_asBlock {stmt : Term} (hall : stmt.all isSeparable = true)
    (hdecl : stmt.head.isDecl = false) : Settles stmt (asBlock stmt) := by
  unfold asBlock
  split
  · exact .refl hall
  · refine .of_stmt rfl (by simp [Term.block]) ?_ ?_ ?_
    · simp [Term.block, mentions_node, Head.mentioned?]
    · rw [Term.block, declares_of_not_decl rfl, ← declares_of_not_decl hdecl]
      simp [Term.inner]
    · exact Listed.block (.of_not_decl (by simpa using hall) (by simpa using hdecl)
        (List.pairwise_singleton ..))

theorem DeadBranch.Rewrite.settles (h : DeadBranch.Rewrite old fresh)
    (horder : old.all (isSound strict) = true) (hall : old.all isSeparable = true) {new : Term}
    (hnew : new ∈ fresh) : Settles old new := by
  cases h with
  | @takeThen type cond thenBranch rest hcond =>
      cases hnew
      have hstmt := (parts_of_ifStmt horder).2 new (by simp)
      exact .of_sub hall (by simp) (not_decl_of_ifStmt hall (by simp))
        (head_ne_caseLabel (.inr hstmt.head))
  | @takeElse type cond thenBranch elseBranch hcond =>
      cases hnew
      have hstmt := (parts_of_ifStmt horder).2 new (by simp)
      exact .of_sub hall (by simp) (not_decl_of_ifStmt hall (by simp))
        (head_ne_caseLabel (.inr hstmt.head))
  | dropIf hcond hfresh => exact hfresh.settles hnew
  | dropLoop hcond hfresh => exact hfresh.settles hnew
  | dropEmpty hthen helse hcond hfresh => exact hfresh.settles hnew
  | @keepCondition type cond thenBranch elseBranch hthen helse hcond =>
      cases hnew
      refine .exprStmt (parts_of_ifStmt horder).1.bare ?_
      rw [mentions_bare]
      exact mentions_sub (by simp)
  | @dropElse type cond thenBranch elseBranch helse =>
      cases hnew
      have hsub : [cond, thenBranch].Sublist [cond, thenBranch, elseBranch] := by simp
      exact .conditional hsub hall (.cons (.refl (all_sub hall (by simp)))
        (.cons (.refl (all_sub hall (by simp))) .nil))
  | @invert type cond thenBranch elseBranch hthen =>
      cases hnew
      have hnegate := (parts_of_ifStmt horder).1.negate cond.isInvertible
      have helse : elseBranch.head.isDecl = false := not_decl_of_ifStmt hall (by simp)
      have hblock : Settles elseBranch (asBlock elseBranch) :=
        settles_asBlock (all_sub hall (by simp)) helse
      have hcond : Settles cond (cond.negate cond.isInvertible) :=
        .of_expr hnegate (mentions_negate_subset _ _)
      have hsub : [cond, elseBranch].Sublist [cond, thenBranch, elseBranch] := by simp
      exact .conditional hsub hall (.cons hcond (.cons hblock .nil))

namespace SetUpdate

theorem settles_remains {branch new : Term} (hall : branch.all isSeparable = true)
    (hnew : new ∈ remains branch) : Settles branch new := by
  unfold remains at hnew
  split at hnew
  · next hblock =>
      cases hnew
      cases branch with
      | node head type subs =>
          obtain rfl : head = .block := hblock
          have htail : subs.tail.Sublist subs := List.tail_sublist subs
          refine .of_stmt rfl (by simp) ?_ ?_ ((Listed.of_node hall).sublist htail).block
          · rw [mentions_node]
            exact flatMap_subset fun sub hsub => mentions_sub (htail.subset hsub)
          · rw [declares_of_not_decl rfl]
            exact flatMap_subset fun sub hsub => declares_sub (htail.subset hsub)
  · cases hnew

theorem settles_rest {branch : Term} (hall : branch.all isSeparable = true) :
    Settles branch ((remains branch).getD (.block [])) := by
  cases hrest : remains branch with
  | some new => exact settles_remains hall hrest
  | none =>
      exact .of_stmt rfl (by simp [Term.block]) (List.nil_subset _) (List.nil_subset _) rfl

/-- What is left of a branch declares nothing that its first statement names. -/
theorem apart_remains {branch stmt new : Term} {rest : List Term}
    (hall : branch.all isSeparable = true) (hbranch : branch.statements = stmt :: rest)
    (hnew : new ∈ remains branch) {binding : BindingId} (hin : binding ∈ new.declares) :
    binding ∉ stmt.mentions := by
  unfold remains at hnew
  split at hnew
  · next hblock =>
      cases hnew
      cases branch with
      | node head type subs =>
          obtain rfl : head = .block := hblock
          obtain rfl : subs = stmt :: rest := hbranch
          rw [declares_of_not_decl rfl] at hin
          obtain ⟨later, hlater, hin⟩ := List.mem_flatMap.mp hin
          have hapart := (List.pairwise_cons.mp (Listed.of_node hall).apart).1 later hlater
          exact hapart.1 binding hin
  · cases hnew

/-- The update that is tested for: an expression that names what its branch names. -/
theorem Repeats.mentions {cond branch stmt call : Term} {inThen : Bool} {rest : List Term}
    (h : Repeats cond stmt call inThen) (hbranch : branch.statements = stmt :: rest) :
    call.mentions ⊆ stmt.mentions ∧ stmt.mentions ⊆ branch.mentions := by
  have hstmt : stmt ∈ branch.statements := by rw [hbranch]; exact List.mem_cons_self ..
  obtain ⟨_, _, _, _, _, type, _, _, _, _, rfl, _⟩ := h
  refine ⟨mentions_sub (List.mem_singleton_self _), ?_⟩
  unfold Term.statements at hstmt
  split at hstmt
  · exact mentions_sub hstmt
  · rw [List.mem_singleton.mp hstmt]
    exact List.Subset.refl _

theorem Rewrite.settles (h : Rewrite old fresh) (horder : old.all (isSound strict) = true)
    (hall : old.all isSeparable = true) {new : Term} (hnew : new ∈ fresh) : Settles old new := by
  have hstmts : ∀ {type cond branches branch stmt rest},
      old = .node .ifStmt type (cond :: branches) → branch ∈ branches →
      branch.statements = stmt :: rest → stmt.IsStmt strict := by
    rintro type cond branches branch stmt rest rfl hmem hbranch
    exact ((parts_of_ifStmt horder).2 branch hmem).statements
      (by rw [hbranch]; exact List.mem_cons_self ..)
  cases h with
  | @onlyThen type cond thenBranch stmt call elseBranch hrepeats hthen helse =>
      cases hnew
      have hcall := hrepeats.expr (hstmts rfl (by simp) hthen)
      obtain ⟨hmentions, hmentions'⟩ := hrepeats.mentions hthen
      obtain ⟨_, _, _, _, _, type', _, _, _, _, rfl, _⟩ := hrepeats
      exact .exprStmt hcall fun _ hin => mentions_sub (by simp) (hmentions' (hmentions hin))
  | @onlyElse type cond thenBranch elseBranch stmt call hrepeats hthen helse =>
      cases hnew
      have hcall := hrepeats.expr (hstmts rfl (by simp) helse)
      obtain ⟨hmentions, hmentions'⟩ := hrepeats.mentions helse
      obtain ⟨_, _, _, _, _, type', _, _, _, _, rfl, _⟩ := hrepeats
      exact .exprStmt hcall fun _ hin => mentions_sub (by simp) (hmentions' (hmentions hin))
  | @inThen type cond thenBranch stmt call rest elseBranch hrepeats hthen =>
      cases hnew
      have hcall := hrepeats.expr (hstmts rfl (by simp) hthen)
      obtain ⟨hmentions, hmentions'⟩ := hrepeats.mentions hthen
      have hbranch : thenBranch.all isSeparable = true := all_sub hall (by simp)
      have hkept : List.Forall₂ Settles elseBranch elseBranch := List.forall₂_same.mpr
        fun stmt hstmt => .refl (all_sub hall (by simp [hstmt]))
      refine .newCondition (List.Sublist.refl _) hall hcall
        (fun _ hin => mentions_sub (by simp) (hmentions' (hmentions hin)))
        (.cons (settles_rest hbranch) hkept) ?_
      rw [List.forall_mem_cons]
      refine ⟨fun binding hin hnamed => ?_, fun stmt hstmt binding hin hnamed => ?_⟩
      · cases hrest : remains thenBranch with
        | none =>
            rw [hrest] at hin
            cases hin
        | some new =>
            rw [hrest] at hin
            exact apart_remains hbranch hthen hrest hin (hmentions hnamed)
      · have hapart := (List.pairwise_cons.mp (List.pairwise_cons.mp
          (Listed.of_node hall).apart).2).1 stmt hstmt
        exact hapart.1 binding hin (hmentions' (hmentions hnamed))
  | @inElse type cond thenBranch elseBranch stmt call rest hrepeats helse =>
      cases hnew
      have hcall := hrepeats.expr (hstmts rfl (by simp) helse)
      obtain ⟨hmentions, hmentions'⟩ := hrepeats.mentions helse
      have hbranch : elseBranch.all isSeparable = true := all_sub hall (by simp)
      have hthen : Settles thenBranch thenBranch := .refl (all_sub hall (by simp))
      have hnamed : ∀ {binding}, binding ∈ call.not.mentions → binding ∈ stmt.mentions := by
        intro binding hin
        rw [mentions_not] at hin
        exact hmentions hin
      have hapart : ∀ binding, binding ∈ thenBranch.declares →
          binding ∉ call.not.mentions := by
        intro binding hin hmention
        have hslots := (List.pairwise_cons.mp (List.pairwise_cons.mp
          (Listed.of_node hall).apart).2).1 elseBranch (by simp)
        rw [declares_of_not_decl (not_decl_of_ifStmt hall (by simp))] at hin
        exact hslots.2 binding hin (hmentions' (hnamed hmention))
      have hcond : call.not.mentions ⊆
          (Term.node .ifStmt type [cond, thenBranch, elseBranch]).mentions :=
        fun _ hin => mentions_sub (by simp) (hmentions' (hnamed hin))
      cases hrest : remains elseBranch with
      | none =>
          have hsub : [thenBranch].Sublist [thenBranch, elseBranch] := by simp
          exact .newCondition hsub hall hcall.not hcond (.cons hthen .nil) (by simpa using hapart)
      | some new =>
          refine .newCondition (List.Sublist.refl _) hall hcall.not hcond
            (.cons hthen (.cons (settles_remains hbranch hrest) .nil)) ?_
          rw [List.forall_mem_cons, Option.toList_some, List.forall_mem_singleton]
          exact ⟨hapart, fun binding hin hmention =>
            apart_remains hbranch helse hrest hin (hnamed hmention)⟩

end SetUpdate

namespace TwoWaySwitch

namespace Group

def mentions (group : Group Term) : List BindingId :=
  group.body.flatMap Term.mentions

def declares (group : Group Term) : List BindingId :=
  group.stmts.flatMap Term.declares

/-- The group can be a block of its own, with a test of its labels before it. -/
structure IsFree (subject : Term) (group : Group Term) : Prop where
  listed : Term.Listed group.stmts
  subject : ∀ binding, binding ∈ group.declares → binding ∉ subject.mentions
  labels : ∀ binding, binding ∈ group.declares → ∀ item, item ∈ group.items →
    binding ∉ item.mentions

def Separate (first second : Group Term) : Prop :=
  (∀ binding, binding ∈ first.declares → binding ∉ second.mentions) ∧
    ∀ binding, binding ∈ second.declares → binding ∉ first.mentions

variable {first second group : Group Term} {subject : Term}

theorem Separate.symm (h : first.Separate second) : second.Separate first :=
  ⟨h.2, h.1⟩

theorem close_stmts_sublist (group : Group Term) : group.close.stmts.Sublist group.stmts := by
  unfold close trim
  dsimp only
  split
  · exact List.dropLast_sublist _
  · exact List.Sublist.refl _

theorem mentions_close (group : Group Term) : group.close.mentions ⊆ group.mentions :=
  flatMap_subset fun item hitem => fun _ hin => List.mem_flatMap.mpr ⟨item, by
    rcases List.mem_append.mp hitem with hitem | hitem
    · exact List.mem_append_left _ hitem
    · exact List.mem_append_right _ (group.close_stmts_sublist.subset hitem), hin⟩

theorem declares_close (group : Group Term) : group.close.declares ⊆ group.declares :=
  flatMap_subset fun stmt hstmt => fun _ hin =>
    List.mem_flatMap.mpr ⟨stmt, group.close_stmts_sublist.subset hstmt, hin⟩

theorem IsFree.close (h : group.IsFree subject) : group.close.IsFree subject where
  listed := h.listed.sublist group.close_stmts_sublist
  subject binding hin := h.subject binding (group.declares_close hin)
  labels binding hin := h.labels binding (group.declares_close hin)

theorem Separate.close (h : first.Separate second) : first.close.Separate second.close :=
  ⟨fun binding hin hmention =>
      h.1 binding (first.declares_close hin) (second.mentions_close hmention),
    fun binding hin hmention =>
      h.2 binding (second.declares_close hin) (first.mentions_close hmention)⟩

end Group

/-! ### Groups of a body -/

/-- What comes before a statement names nothing that it declares. -/
theorem not_mem_of_apart {item : Term} {group : Group Term}
    (h : ∀ stmt, stmt ∈ group.stmts → Apart item stmt) {binding : BindingId}
    (hin : binding ∈ group.declares) : binding ∉ item.mentions := by
  obtain ⟨stmt, hstmt, hin⟩ := List.mem_flatMap.mp hin
  exact (h stmt hstmt).1 binding hin

theorem isFree_of_body {subject : Term} {group : Group Term} {body : List Term}
    (h : Term.Listed (subject :: body)) (hbody : group.body.Sublist body) :
    group.IsFree subject := by
  have hlisted := h.sublist (List.Sublist.cons_cons subject hbody)
  obtain ⟨hsubject, hrest⟩ := List.pairwise_cons.mp hlisted.apart
  obtain ⟨-, -, hacross⟩ := List.pairwise_append.mp hrest
  refine ⟨h.sublist ?_, fun binding hin => ?_, fun binding hin item hitem => ?_⟩
  · exact ((List.sublist_append_right ..).trans hbody).cons subject
  · exact not_mem_of_apart (fun stmt hstmt => hsubject stmt (List.mem_append_right _ hstmt)) hin
  · exact not_mem_of_apart (hacross item hitem) hin

theorem separate_of_body {first second : Group Term} (hsplit : second.IsSplit)
    (hlisted : (first.body ++ second.body).Pairwise Apart)
    (hfree : (first.body ++ second.body).Pairwise Free) (hapart : first.Apart second) :
    first.Separate second := by
  obtain ⟨-, -, hacross⟩ := List.pairwise_append.mp hlisted
  obtain ⟨-, -, hlabels⟩ := List.pairwise_append.mp hfree
  refine ⟨fun binding hin hmention => ?_, fun binding hin hmention => ?_⟩
  · obtain ⟨stmt, hstmt, hin⟩ := List.mem_flatMap.mp hin
    obtain ⟨item, hitem, hmention⟩ := List.mem_flatMap.mp hmention
    have hbody : stmt ∈ first.body := List.mem_append_right _ hstmt
    rw [declares_eq, List.mem_append, Option.mem_toList] at hin
    rcases hin with hown | hinner
    · -- a local of the first group is named neither in a label nor in a statement of the second
      rcases List.mem_append.mp hitem with hlabel | hother
      · exact hlabels stmt hbody item hitem (hsplit.items item hlabel) binding hown hmention
      · exact hapart stmt hstmt binding hown item hother hmention
    · exact (hacross stmt hbody item hitem).2 binding hinner hmention
  · obtain ⟨item, hitem, hmention⟩ := List.mem_flatMap.mp hmention
    refine not_mem_of_apart (fun stmt hstmt => ?_) hin hmention
    exact hacross item hitem stmt (List.mem_append_right _ hstmt)

/-! ### The conditional -/

theorem mentions_labelTerm (subject label : Term) :
    (labelTerm subject label).mentions ⊆ subject.mentions ++ label.mentions := by
  unfold labelTerm
  split
  · rw [mentions_call, List.flatMap_singleton]
    exact List.append_subset.mpr ⟨List.subset_append_right .., List.subset_append_left ..⟩
  · simp [mentions_chain, mentions_qualified, mentions_typeName]
  · simp [mentions_chain, mentions_wrap]

theorem mentions_groupTerm {subject : Term} {group : Group Term} :
    (groupTerm subject group.labels).mentions ⊆
      subject.mentions ++ group.items.flatMap Term.mentions := by
  rw [groupTerm, mentions_join, List.flatMap_map]
  intro binding hin
  obtain ⟨label, hlabel, hin⟩ := List.mem_flatMap.mp hin
  obtain ⟨item, hitem, hsub⟩ := List.mem_flatMap.mp hlabel
  rcases List.mem_append.mp (mentions_labelTerm _ _ hin) with hin | hin
  · exact List.mem_append_left _ hin
  · exact List.mem_append_right _ (List.mem_flatMap.mpr ⟨item, hitem, mentions_sub hsub hin⟩)

/-- The statement for the groups: it names and declares what they do. -/
structure Stands (subject : Term) (groups : List (Group Term)) (stmt : Term) : Prop where
  separable : stmt.all isSeparable = true
  decl : stmt.head.isDecl = false
  label : stmt.head ≠ .caseLabel
  mentions : stmt.mentions ⊆ subject.mentions ++ groups.flatMap Group.mentions
  declares : stmt.declares ⊆ groups.flatMap Group.declares

theorem mentions_block_subset (group : Group Term) :
    (Term.block group.stmts).mentions ⊆ group.mentions := by
  rw [Term.block, mentions_node]
  exact flatMap_subset fun stmt hstmt => fun _ hin =>
    List.mem_flatMap.mpr ⟨stmt, List.mem_append_right _ hstmt, hin⟩

theorem declares_block (group : Group Term) :
    (Term.block group.stmts).declares = group.declares :=
  declares_of_not_decl rfl

theorem stands_block {subject : Term} {group : Group Term} {groups : List (Group Term)}
    (h : group.IsFree subject) : Stands subject (group :: groups) (.block group.stmts) where
  separable := h.listed.block
  decl := rfl
  label := by simp [Term.block]
  mentions := fun _ hin => List.mem_append_right _
    (List.mem_append_left _ (mentions_block_subset group hin))
  declares := by
    rw [declares_block]
    exact List.subset_append_left ..

theorem not_mem_groupTerm {subject : Term} {group other : Group Term} {binding : BindingId}
    (hfree : other.IsFree subject) (hin : binding ∈ other.declares)
    (hlabels : ∀ item, item ∈ group.items → binding ∉ item.mentions) :
    binding ∉ (groupTerm subject group.labels).mentions := by
  intro hmention
  rcases List.mem_append.mp (mentions_groupTerm hmention) with hmention | hmention
  · exact hfree.subject binding hin hmention
  · obtain ⟨item, hitem, hmention⟩ := List.mem_flatMap.mp hmention
    exact hlabels item hitem hmention

theorem mentions_groupTerm_subset (subject : Term) (group : Group Term) :
    (groupTerm subject group.labels).mentions ⊆ subject.mentions ++ group.mentions := by
  intro binding hin
  rcases List.mem_append.mp (mentions_groupTerm hin) with hin | hin
  · exact List.mem_append_left _ hin
  · refine List.mem_append_right _ ?_
    rw [Group.mentions, Group.body, List.flatMap_append]
    exact List.mem_append_left _ hin

/-- The statement for some groups, beside another one. -/
theorem Stands.cons {subject stmt : Term} {groups : List (Group Term)}
    (h : Stands subject groups stmt) (group : Group Term) :
    Stands subject (group :: groups) stmt where
  separable := h.separable
  decl := h.decl
  label := h.label
  mentions binding hin := by
    rcases List.mem_append.mp (h.mentions hin) with hin | hin
    · exact List.mem_append_left _ hin
    · exact List.mem_append_right _ (List.mem_append_right _ hin)
  declares _ hin := List.mem_append_right _ (h.declares hin)

/-- The test of a group and its block see only what they may see. -/
theorem apart_test_block {subject : Term} {group : Group Term}
    (hcond : (groupTerm subject group.labels).IsExpr strict) (hgroup : group.IsFree subject) :
    Apart (groupTerm subject group.labels) (.block group.stmts) := by
  refine ⟨fun binding hin => ?_, by simp [hcond.inner_eq_nil]⟩
  rw [declares_block] at hin
  exact not_mem_groupTerm hgroup hin (hgroup.labels binding hin)

/-- So do the test of a group and the statement for the others. -/
theorem apart_test_rest {subject stmt : Term} {group : Group Term} {groups : List (Group Term)}
    (hcond : (groupTerm subject group.labels).IsExpr strict)
    (hgroups : ∀ other, other ∈ groups → other.IsFree subject ∧ group.Separate other)
    (h : Stands subject groups stmt) : Apart (groupTerm subject group.labels) stmt := by
  refine ⟨fun binding hin => ?_, by simp [hcond.inner_eq_nil]⟩
  obtain ⟨other, hother, hin⟩ := List.mem_flatMap.mp (h.declares hin)
  obtain ⟨hfree, hseparate⟩ := hgroups other hother
  refine not_mem_groupTerm hfree hin fun item hitem hmention => ?_
  exact hseparate.2 binding hin
    (List.mem_flatMap.mpr ⟨item, List.mem_append_left _ hitem, hmention⟩)

/-- So do the block of a group and the statement for the others. -/
theorem apart_block_rest {subject stmt : Term} {group : Group Term} {groups : List (Group Term)}
    (hgroup : group.IsFree subject)
    (hgroups : ∀ other, other ∈ groups → other.IsFree subject ∧ group.Separate other)
    (h : Stands subject groups stmt) : Apart (.block group.stmts) stmt := by
  refine ⟨fun binding hin hmention => ?_, fun binding hin hmention => ?_⟩
  · obtain ⟨other, hother, hin⟩ := List.mem_flatMap.mp (h.declares hin)
    exact (hgroups other hother).2.2 binding hin (mentions_block_subset group hmention)
  · have hown : binding ∈ group.declares := hin
    rcases List.mem_append.mp (h.mentions hmention) with hmention | hmention
    · exact hgroup.subject binding hown hmention
    · obtain ⟨other, hother, hmention⟩ := List.mem_flatMap.mp hmention
      exact (hgroups other hother).2.1 binding hown hmention

theorem stands_ifStmt {subject : Term} {group : Group Term} {groups : List (Group Term)}
    {rest : Option Term} (hcond : (groupTerm subject group.labels).IsExpr strict)
    (hgroup : group.IsFree subject)
    (hgroups : ∀ other, other ∈ groups → other.IsFree subject ∧ group.Separate other)
    (hrest : ∀ stmt, stmt ∈ rest → Stands subject groups stmt) :
    Stands subject (group :: groups)
      (.ifStmt (groupTerm subject group.labels) (.block group.stmts) rest) := by
  have htest : Stands subject (group :: groups) (groupTerm subject group.labels) :=
    { separable := hcond.separable
      decl := hcond.not_decl
      label := head_ne_caseLabel (.inl hcond.head)
      mentions := fun binding hin => by
        have hin := mentions_groupTerm_subset subject group hin
        rw [List.flatMap_cons, ← List.append_assoc]
        exact List.mem_append_left _ hin
      declares := by
        rw [hcond.declares_eq_nil]
        exact List.nil_subset _ }
  have hslots : ∀ sub, sub ∈ groupTerm subject group.labels :: Term.block group.stmts ::
      rest.toList → Stands subject (group :: groups) sub := by
    rw [List.forall_mem_cons, List.forall_mem_cons]
    exact ⟨htest, stands_block hgroup,
      fun stmt hstmt => (hrest stmt (Option.mem_toList.mp hstmt)).cons group⟩
  have hapart : (groupTerm subject group.labels :: Term.block group.stmts ::
      rest.toList).Pairwise Apart := by
    rw [List.pairwise_cons, List.pairwise_cons, List.forall_mem_cons]
    refine ⟨⟨apart_test_block hcond hgroup, fun stmt hstmt => ?_⟩, fun stmt hstmt => ?_, ?_⟩
    · exact apart_test_rest hcond hgroups (hrest stmt (Option.mem_toList.mp hstmt))
    · exact apart_block_rest hgroup hgroups (hrest stmt (Option.mem_toList.mp hstmt))
    · cases rest <;> simp
  have hdecl : ∀ sub, sub ∈ groupTerm subject group.labels :: Term.block group.stmts ::
      rest.toList → sub.head.isDecl = false := fun sub hsub => (hslots sub hsub).decl
  have hlisted := Term.Listed.of_not_decl (fun sub hsub => (hslots sub hsub).separable) hdecl
    hapart
  refine ⟨hlisted.ifStmt hdecl, rfl, by simp [Term.ifStmt], ?_, ?_⟩
  · rw [Term.ifStmt, mentions_node]
    exact flatMap_subset fun sub hsub => (hslots sub hsub).mentions
  · rw [Term.ifStmt, declares_of_not_decl rfl]
    exact flatMap_subset fun sub hsub => (hslots sub hsub).declares

theorem stands_conditionalTerm {subject : Term} {groups : List (Group Term)}
    (h : ∀ stmt, stmt ∈ conditionalTerm subject groups → stmt.IsStmt strict)
    (hfree : ∀ group, group ∈ groups → group.IsFree subject)
    (hseparate : groups.Pairwise Group.Separate) {new : Term}
    (hnew : new ∈ conditionalTerm subject groups) : Stands subject groups new := by
  induction groups generalizing new with
  | nil => cases hnew
  | cons group groups ih =>
      have hgroup := hfree group (List.mem_cons_self ..)
      obtain ⟨hfirst, hothers⟩ := List.pairwise_cons.mp hseparate
      have hgroups : ∀ other, other ∈ groups →
          other.IsFree subject ∧ group.Separate other := fun other hother =>
        ⟨hfree other (List.mem_cons_of_mem _ hother), hfirst other hother⟩
      have hrest : ∀ stmt, stmt ∈ conditionalTerm subject groups →
          Stands subject groups stmt := fun stmt hstmt =>
        ih (fun other hother => isStmt_of_rest h hother)
          (fun other hother => (hgroups other hother).1) hothers hstmt
      have hstmt := (h new hnew).sound
      rcases statementTerm_cases hnew with ⟨-, rfl⟩ | ⟨-, rfl⟩
      · exact stands_block hgroup
      · exact stands_ifStmt (parts_of_ifStmt hstmt).1 hgroup hgroups hrest

theorem Stands.settles {type : Option TypeDesc} {subject new : Term} {body : List Term}
    {groups : List (Group Term)} (h : Stands subject groups new)
    (hgroups : ∀ group, group ∈ groups → group.body ⊆ body) :
    Settles (.node .switchStmt type (subject :: body)) new := by
  refine .of_stmt h.decl h.label (fun binding hin => ?_) (fun binding hin => ?_) h.separable
  · rcases List.mem_append.mp (h.mentions hin) with hin | hin
    · exact mentions_sub (by simp) hin
    · obtain ⟨group, hgroup, hin⟩ := List.mem_flatMap.mp hin
      obtain ⟨item, hitem, hin⟩ := List.mem_flatMap.mp hin
      exact mentions_sub (List.mem_cons_of_mem _ (hgroups group hgroup hitem)) hin
  · obtain ⟨group, hgroup, hin⟩ := List.mem_flatMap.mp (h.declares hin)
    obtain ⟨stmt, hstmt, hin⟩ := List.mem_flatMap.mp hin
    exact declares_sub (List.mem_cons_of_mem _
      (hgroups group hgroup (List.mem_append_right _ hstmt))) hin

theorem Group.close_body_subset (group : Group Term) : group.close.body ⊆ group.body :=
  List.append_subset.mpr ⟨List.subset_append_left ..,
    fun _ hstmt => List.mem_append_right _ (group.close_stmts_sublist.subset hstmt)⟩

/-- Groups that are free and separate can become a conditional. -/
theorem settles_of_becomes {type : Option TypeDesc} {subject new : Term} {body : List Term}
    {groups : List (Group Term)}
    (hexchange : Exchange strict (.node .switchStmt type (subject :: body)) fresh)
    (hfresh : Becomes (conditionalTerm subject groups) fresh)
    (hgroups : ∀ group, group ∈ groups → group.IsFree subject ∧ group.body ⊆ body)
    (hseparate : groups.Pairwise Group.Separate) (hnew : new ∈ fresh) :
    Settles (.node .switchStmt type (subject :: body)) new := by
  rcases mem_of_becomes hfresh hnew with hresult | hvanished
  · have hstands : Stands subject groups new := by
      refine @stands_conditionalTerm strict subject groups ?_
        (fun group hgroup => (hgroups group hgroup).1) hseparate new hresult
      intro other hother
      obtain rfl : other = new := Option.mem_unique hother hresult
      exact ⟨hexchange.statement rfl other hnew, hexchange.sound other hnew⟩
    exact hstands.settles fun group hgroup => (hgroups group hgroup).2
  · exact hvanished.settles hnew

theorem Rewrite.settles (h : Rewrite old fresh) (horder : old.all (isSound strict) = true)
    (hall : old.all isSeparable = true) {new : Term} (hnew : new ∈ fresh) : Settles old new := by
  have hexchange := h.exchange horder
  cases h with
  | @one type subject group fresh hpassive hsplit hclosed hfresh =>
      refine settles_of_becomes hexchange hfresh ?_ (List.pairwise_singleton ..) hnew
      rw [List.forall_mem_singleton]
      exact ⟨(isFree_of_body (.of_node hall) (List.Sublist.refl _)).close,
        group.close_body_subset⟩
  | @two type subject first second fresh hpassive hsplit hsplit' hclosed hclosed' hjump hapart
      hfresh =>
      have hlisted : Term.Listed (subject :: (first.body ++ second.body)) := .of_node hall
      have hfree := (isSeparable_iff.mp (holds_of_all hall)).2 rfl
      have hfirst : first.close.IsFree subject ∧ first.close.body ⊆ first.body ++ second.body :=
        ⟨(isFree_of_body hlisted (List.sublist_append_left ..)).close,
          List.subset_append_of_subset_left _ first.close_body_subset⟩
      have hsecond : second.close.IsFree subject ∧
          second.close.body ⊆ first.body ++ second.body :=
        ⟨(isFree_of_body hlisted (List.sublist_append_right ..)).close,
          List.subset_append_of_subset_right _ second.close_body_subset⟩
      have hseparate : first.close.Separate second.close :=
        (separate_of_body hsplit' (List.pairwise_cons.mp hlisted.apart).2
          (List.pairwise_cons.mp hfree).2 hapart).close
      unfold inOrder at hfresh
      split at hfresh
      · exact settles_of_becomes hexchange hfresh (by simpa using ⟨hsecond, hfirst⟩)
          (List.pairwise_pair.mpr hseparate.symm) hnew
      · exact settles_of_becomes hexchange hfresh (by simpa using ⟨hfirst, hsecond⟩)
          (List.pairwise_pair.mpr hseparate) hnew

end TwoWaySwitch

/-! ## Commits and runs -/

namespace Term

theorem Exchanged.settles (h : Exchanged old fresh) (horder : old.all isOrderly = true)
    (hall : old.all isSeparable = true) {new : Term} (hnew : new ∈ fresh) : Settles old new := by
  have hsound := (all_isSound_false old).trans horder
  by_cases hexpr : old.head.isExpression = true
  · cases hnew
    refine .of_expr (h.isExpr horder hexpr) ?_
    cases h with
    | retype h =>
        cases h with
        | name => exact List.Subset.refl _
        | synonym => cases hexpr
    | rule h =>
        cases h with
        | negation h => exact h.mentions rfl
        | emptiness h => exact h.mentions rfl
        | string h => exact h.mentions rfl
        | table h =>
            cases h with
            | creation => exact List.Subset.refl _
            | initializer => cases hexpr
        | switch h => cases h <;> cases hexpr
        | set h => cases h <;> cases hexpr
        | dead h => cases h <;> cases hexpr
  · cases h with
    | retype h =>
        cases h with
        | name => exact absurd rfl hexpr
        | synonym =>
            cases hnew
            exact ⟨⟨List.Subset.refl _, List.Subset.refl _, fun _ h => h, id, id⟩, hall⟩
    | rule h =>
        cases h with
        | switch h => exact h.settles hsound hall hnew
        | set h => exact h.settles hsound hall hnew
        | dead h => exact h.settles hsound hall hnew
        | table h =>
            cases h with
            | creation => exact absurd rfl hexpr
            | initializer =>
                cases hnew
                exact ⟨⟨List.Subset.refl _, List.Subset.refl _, fun _ h => h, id, id⟩, hall⟩
        | negation h => cases h; exact absurd rfl hexpr
        | emptiness h => cases h; exact absurd rfl hexpr
        | string h => cases h <;> exact absurd rfl hexpr

theorem Exchanged.swap_separable (h : Exchanged old fresh) (hswap : Swap old fresh a b)
    (horder : a.all isOrderly = true) (hall : a.all isSeparable = true) :
    b.all isSeparable = true := by
  have hsettles : ∀ new, new ∈ fresh → Settles old new := fun _ hnew =>
    h.settles (hswap.all_old horder) (hswap.all_old hall) hnew
  exact hswap.separable hall (fun new hnew _ => (hsettles new hnew).separable)
    (fun new hnew => (hsettles new hnew).toNarrows)

end Term

/-! ## Scopes of a held tree -/

def Head.lists : Head → Nat → Bool
  | block, _ | unit, _ => true
  | switchStmt, position => decide (0 < position)
  | _, _ => false

theorem Term.listsDecls_iff {head : Head} {subs : List Term} :
    Term.listsDecls head subs = true ↔ ∀ before sub after, subs = before ++ sub :: after →
      sub.head.isDecl = true → head.lists before.length = true := by
  constructor
  · rintro h before sub after rfl hdecl
    unfold Term.listsDecls at h
    split at h
    · rfl
    · rfl
    · cases before with
      | nil => simp [hdecl] at h
      | cons first before => simp [Head.lists]
    · simp [hdecl] at h
  · intro h
    unfold Term.listsDecls
    split
    · rfl
    · rfl
    · cases subs with
      | nil => rfl
      | cons first rest =>
          by_contra hdecl
          cases h [] first rest rfl (by simpa using hdecl)
    · next hblock hunit hswitch =>
        by_contra hsome
        obtain ⟨sub, hsub, hdecl⟩ : ∃ sub ∈ subs, sub.head.isDecl = true := by simpa using hsome
        obtain ⟨before, after, rfl⟩ := List.append_of_mem hsub
        have hlists := h before sub after rfl hdecl
        unfold Head.lists at hlists
        split at hlists <;> simp_all

namespace Store

variable {store : Store} {tree : Tree}

theorem dropWhile_ne {before after : List NodeId} {id : NodeId} (h : id ∉ before) :
    (before ++ id :: after).dropWhile (· != id) = id :: after := by
  rw [List.dropWhile_append_of_pos]
  · simp
  · rintro other hother
    rw [bne_iff_ne]
    rintro rfl
    exact h hother

/-- The scope of a node is what follows it in a statement list. -/
theorem Holds.scope?_eq {holder decl : Tree} {before after : List Tree} (h : store.Holds tree)
    (hholder : holder ∈ tree.subtrees) (hslots : holder.subs = before ++ decl :: after) :
    store.scope? decl.id =
      if holder.head.lists before.length then some (after.map Tree.id) else none := by
  obtain ⟨hlink, hsplit, hnodup⟩ := h.slots hholder hslots
  have hhead := (Tree.Legible.of_holds h hholder).kind_head
  have hnew : decl.id ∉ before.map Tree.id := by
    intro hmem
    exact List.disjoint_of_nodup_append hnodup hmem (List.mem_cons_self ..)
  rw [scope?, hlink, Option.bind_some]
  cases hkind : store.kind holder.id <;> rw [hkind] at hhead hsplit <;> rw [← hhead]
  case block stmts =>
    obtain rfl : stmts = _ := hsplit
    simp [Kind.items, Kind.head, Head.lists, dropWhile_ne hnew]
  case unit members =>
    obtain rfl : members = _ := hsplit
    simp [Kind.items, Kind.head, Head.lists, dropWhile_ne hnew]
  case switchStmt subject body =>
    cases before with
    | nil =>
        obtain ⟨rfl, rfl⟩ := List.cons.inj hsplit
        have hout : decl.id ∉ after.map Tree.id := (List.nodup_cons.mp hnodup).1
        have hnone : (after.map Tree.id).dropWhile (· != decl.id) = [] := by
          rw [List.dropWhile_eq_nil_iff]
          rintro other hother
          rw [bne_iff_ne]
          rintro rfl
          exact hout hother
        simp [Kind.items, Kind.head, Head.lists, hnone]
    | cons first before =>
        obtain ⟨rfl, rfl⟩ := List.cons.inj hsplit
        rw [List.map_cons, List.mem_cons, not_or] at hnew
        simp [Kind.items, Kind.head, Head.lists, dropWhile_ne hnew.2]
  all_goals rfl

theorem Holds.declared?_eq {decl : Tree} (h : store.Holds tree) (hdecl : decl ∈ tree.subtrees) :
    store.declared? decl.id = if decl.head.isDecl then some decl.head.declared? else none := by
  have hhead := (Tree.Legible.of_holds h hdecl).kind_head
  rw [← hhead]
  unfold declared?
  cases store.kind decl.id <;> rfl

theorem Holds.mentioned?_eq {name : Tree} (h : store.Holds tree) (hname : name ∈ tree.subtrees) :
    store.mentioned? name.id = name.head.mentioned? := by
  rw [mentioned?, (Tree.Legible.of_holds h hname).kind_head]

end Store

/-- Every declaration in the tree stands in a statement list, and what it declares is named
only in the slots after it. -/
def Tree.IsScoped (tree : Tree) : Prop :=
  ∀ holder, holder ∈ tree.subtrees → ∀ before decl after,
    holder.subs = before ++ decl :: after → decl.head.isDecl = true →
    holder.head.lists before.length = true ∧
    ∀ name, name ∈ tree.subtrees → ∀ binding, name.head.mentioned? = some binding →
      decl.head.declared? = some binding → name.id ∈ after.flatMap Tree.ids

theorem Store.Holds.isScoped_source {store : Store} {tree : Tree} (h : store.Holds tree)
    (hroot : tree.head.isDecl = false) : Source.IsScoped ⟨store, tree.id⟩ ↔ tree.IsScoped := by
  have hlegible := Tree.Legible.of_holds h tree.mem_subtrees_self
  have hpreorder := hlegible.preorder_eq
  have hitems : ∀ {items : List Tree}, (∀ item, item ∈ items → item ∈ tree.subtrees) →
      (items.map Tree.id).flatMap store.preorder = items.flatMap Tree.ids := by
    intro items hmem
    rw [List.flatMap_map]
    exact List.flatMap_congr fun item hitem => h.preorder_eq (hmem item hitem)
  unfold Source.IsScoped
  rw [hpreorder]
  constructor
  · intro hscoped holder hholder before decl after hslots hisDecl
    have hdecl : decl ∈ tree.subtrees := Tree.slot_mem_subtrees hholder (by rw [hslots]; simp)
    obtain ⟨hsome, hnames⟩ := hscoped decl.id (Tree.mem_ids_iff.mpr ⟨decl, hdecl, rfl⟩)
      (by rw [h.declared?_eq hdecl, hisDecl]; rfl)
    rw [h.scope?_eq hholder hslots] at hsome hnames
    have hlists : holder.head.lists before.length = true := by
      by_contra hnot
      rw [if_neg hnot] at hsome
      cases hsome
    refine ⟨hlists, fun name hname binding hmention hdeclared => ?_⟩
    have hin := hnames name.id (Tree.mem_ids_iff.mpr ⟨name, hname, rfl⟩)
      (by rw [h.mentioned?_eq hname, hmention]; rfl)
      (by rw [h.mentioned?_eq hname, h.declared?_eq hdecl, hisDecl, hmention, hdeclared]; rfl)
    rw [if_pos hlists, Option.getD_some, hitems] at hin
    · exact hin
    · intro item hitem
      exact Tree.slot_mem_subtrees hholder (by rw [hslots]; simp [hitem])
  · intro hscoped id hid hsome
    obtain ⟨decl, hdecl, rfl⟩ := Tree.mem_ids_iff.mp hid
    have hisDecl : decl.head.isDecl = true := by
      by_contra hnot
      rw [h.declared?_eq hdecl, if_neg hnot] at hsome
      cases hsome
    have hne : decl ≠ tree := by
      rintro rfl
      rw [hroot] at hisDecl
      cases hisDecl
    obtain ⟨holder, hholder, hslot⟩ := Tree.exists_holder hdecl hne
    obtain ⟨before, after, hslots⟩ := List.append_of_mem hslot
    obtain ⟨hlists, hnames⟩ := hscoped holder hholder before decl after hslots hisDecl
    rw [h.scope?_eq hholder hslots, if_pos hlists]
    refine ⟨rfl, fun other hother hmention hdeclared => ?_⟩
    obtain ⟨name, hname, rfl⟩ := Tree.mem_ids_iff.mp hother
    rw [h.mentioned?_eq hname] at hmention hdeclared
    rw [h.declared?_eq hdecl, if_pos hisDecl] at hdeclared
    obtain ⟨binding, hbinding⟩ := Option.isSome_iff_exists.mp hmention
    rw [Option.getD_some, hitems]
    · exact hnames name hname binding hbinding (by rw [Option.some.inj hdeclared, hbinding])
    · intro item hitem
      exact Tree.slot_mem_subtrees hholder (by rw [hslots]; simp [hitem])

namespace Tree

variable {tree below sub : Tree} {binding : BindingId}

/-- What is declared below a tree is declared in a slot of one of its subtrees. -/
theorem mem_inner_iff : binding ∈ tree.term.inner ↔
    ∃ holder ∈ tree.subtrees, ∃ decl ∈ holder.subs, decl.head.declared? = some binding := by
  rw [Term.inner, subs_term, List.flatMap_map, List.mem_flatMap]
  constructor
  · rintro ⟨sub, hsub, hin⟩
    obtain ⟨decl, hdecl, hdeclared⟩ := mem_bindings_iff.mp hin
    have hne : decl ≠ tree := ne_of_mem_slot (mem_subtrees_self tree) hsub hdecl
    obtain ⟨holder, hholder, hslot⟩ := exists_holder (mem_subtrees_of_sub hsub hdecl) hne
    exact ⟨holder, hholder, decl, hslot, hdeclared⟩
  · rintro ⟨holder, hholder, decl, hslot, hdeclared⟩
    rcases mem_subtrees_iff.mp hholder with rfl | ⟨sub, hsub, hin⟩
    · exact ⟨decl, hslot, mem_bindings_iff.mpr ⟨decl, mem_subtrees_self decl, hdeclared⟩⟩
    · exact ⟨sub, hsub, mem_bindings_iff.mpr ⟨decl,
        slot_mem_subtrees hin hslot, hdeclared⟩⟩

theorem isDecl_of_declared {head : Head} (h : head.declared? = some binding) :
    head.isDecl = true := by
  by_contra hdecl
  rw [Head.declared?_eq_none (by simpa using hdecl)] at h
  cases h

theorem IsScoped.mem_ids (h : tree.IsScoped) (hbelow : below ∈ tree.subtrees)
    (hinner : binding ∈ below.term.inner) {name : Tree} (hname : name ∈ tree.subtrees)
    (hmention : name.head.mentioned? = some binding) : name.id ∈ below.ids := by
  obtain ⟨holder, hholder, decl, hslot, hdeclared⟩ := mem_inner_iff.mp hinner
  obtain ⟨before, after, hslots⟩ := List.append_of_mem hslot
  have hin := (h holder (mem_subtrees_trans hholder hbelow) before decl after hslots
    (isDecl_of_declared hdeclared)).2 name hname binding hmention hdeclared
  refine ids_subset_of_mem hholder ?_
  rw [ids_eq, hslots, List.flatMap_append, List.flatMap_cons]
  simp [hin]

theorem IsScoped.isScoped_term (h : tree.IsScoped) (hnodup : tree.ids.Nodup)
    (hbelow : below ∈ tree.subtrees) : below.term.isScoped = true := by
  cases below with
  | node id head type subs =>
      have hslots : (subs.flatMap ids).Nodup := nodup_slots (nodup_ids_of_mem hnodup hbelow)
      have hmem : ∀ sub, sub ∈ subs → sub ∈ tree.subtrees := fun sub hsub =>
        slot_mem_subtrees hbelow hsub
      -- what a slot declares itself is named in the slots after it
      have hafter : ∀ {before sub after name binding}, subs = before ++ sub :: after →
          name ∈ tree.subtrees → sub.head.declared? = some binding →
          name.head.mentioned? = some binding → name.id ∈ after.flatMap ids :=
        fun hsplit hname hdeclared hmention => (h _ hbelow _ _ _ hsplit
          (isDecl_of_declared hdeclared)).2 _ hname _ hmention hdeclared
      rw [term_node, Term.isScoped_iff, Term.listsDecls_iff]
      refine ⟨?_, ?_, ?_⟩
      · intro before term after hsplit hdecl
        obtain ⟨befores, rest, rfl, rfl, hrest⟩ := List.map_eq_append_iff.mp hsplit
        obtain ⟨sub, afters, rfl, rfl, rfl⟩ := List.map_eq_cons_iff.mp hrest
        rw [List.length_map]
        exact (h _ hbelow befores sub afters rfl (by simpa using hdecl)).1
      · intro term hterm binding hdeclared hmention
        obtain ⟨sub, hsub, rfl⟩ := List.mem_map.mp hterm
        obtain ⟨name, hname, hmention⟩ := mem_bindings_iff.mp hmention
        obtain ⟨before, after, rfl⟩ := List.append_of_mem hsub
        have hin := hafter rfl (mem_subtrees_trans hname (hmem sub hsub))
          (by simpa using hdeclared) hmention
        rw [List.flatMap_append, List.flatMap_cons] at hslots
        exact List.disjoint_of_nodup_append hslots.of_append_right
          (mem_ids_iff.mpr ⟨name, hname, rfl⟩) hin
      · rw [List.pairwise_map, List.pairwise_iff_forall_sublist]
        intro x y hpair
        obtain ⟨before, rest, rfl, hx, hy⟩ := List.cons_sublist_iff.mp hpair
        rw [List.singleton_sublist] at hy
        have hxmem : x ∈ tree.subtrees := hmem x (List.mem_append_left _ hx)
        have hymem : y ∈ tree.subtrees := hmem y (List.mem_append_right _ hy)
        have hdisjoint : ∀ name, name ∈ x.subtrees → name.id ∈ rest.flatMap ids → False := by
          intro name hname hin
          rw [List.flatMap_append] at hslots
          exact List.disjoint_of_nodup_append hslots
            (List.mem_flatMap.mpr ⟨x, hx, mem_ids_iff.mpr ⟨name, hname, rfl⟩⟩) hin
        refine ⟨fun binding hin hmention => ?_, fun binding hin hmention => ?_⟩
        · obtain ⟨name, hname, hmention⟩ := mem_bindings_iff.mp hmention
          have hnameMem := mem_subtrees_trans hname hxmem
          rw [Term.declares_eq, List.mem_append, Option.mem_toList, head_term] at hin
          rcases hin with hown | hinner
          · obtain ⟨mid, after, rfl⟩ := List.append_of_mem hy
            have hin := @hafter (before ++ mid) y after name binding (by rw [List.append_assoc])
              hnameMem hown hmention
            exact hdisjoint name hname (by
              rw [List.flatMap_append, List.flatMap_cons]
              simp [hin])
          · exact hdisjoint name hname (List.mem_flatMap.mpr
              ⟨y, hy, h.mem_ids hymem hinner hnameMem hmention⟩)
        · obtain ⟨name, hname, hmention⟩ := mem_bindings_iff.mp hmention
          have hin := h.mem_ids hxmem hin (mem_subtrees_trans hname hymem) hmention
          obtain ⟨other, hother, hid⟩ := mem_ids_iff.mp hin
          exact hdisjoint other hother (List.mem_flatMap.mpr
            ⟨y, hy, mem_ids_iff.mpr ⟨name, hname, hid.symm⟩⟩)

/-- Names of what a slot declares stand in the slots after it. -/
theorem mem_after_of_isScoped {holder decl name : Tree} {before after : List Tree}
    (horder : tree.term.all Term.isOrderly = true) (hall : tree.term.all Term.isScoped = true)
    (hholder : holder ∈ tree.subtrees) (hslots : holder.subs = before ++ decl :: after)
    (hdeclared : decl.head.declared? = some binding) (hname : name ∈ tree.subtrees)
    (hmention : name.head.mentioned? = some binding) : name.id ∈ after.flatMap ids := by
  induction tree with
  | node id head type subs ih =>
      have hinner : binding ∈ (node id head type subs).term.inner :=
        mem_inner_iff.mpr ⟨holder, hholder, decl, by rw [hslots]; simp, hdeclared⟩
      obtain ⟨-, hown, hapart⟩ := Term.isScoped_iff.mp
        (show (Term.node head type (subs.map term)).isScoped = true by
          simpa using Term.holds_of_all hall)
      rw [List.pairwise_map] at hapart
      have hnamed : ∀ {sub : Tree}, name ∈ sub.subtrees → binding ∈ sub.term.mentions :=
        fun hin => mem_bindings_iff.mpr ⟨name, hin, hmention⟩
      rcases mem_subtrees_iff.mp hname with rfl | ⟨sub, hsub, hin⟩
      · -- a name is an expression, and nothing is declared in it
        have hexpr : (node id head type subs).term.IsExpr false := by
          refine ⟨?_, (Term.all_isSound_false _).trans horder⟩
          rw [head_term]
          cases head <;> first | rfl | cases hmention
        rw [hexpr.inner_eq_nil] at hinner
        cases hinner
      · rcases mem_subtrees_iff.mp hholder with rfl | ⟨other, hother, hinside⟩
        · obtain rfl : subs = _ := hslots
          obtain ⟨-, hrest, hacross⟩ := List.pairwise_append.mp hapart
          have hdeclares : binding ∈ decl.term.declares := by
            rw [Term.declares_eq, head_term, hdeclared]
            simp
          rcases List.mem_append.mp hsub with hbefore | hsub
          · exact absurd (hnamed hin)
              ((hacross sub hbefore decl (List.mem_cons_self ..)).1 binding hdeclares)
          · rcases List.mem_cons.mp hsub with rfl | hsub
            · exact absurd (hnamed hin) (hown sub.term (by simp) binding (by simpa using hdeclared))
            · exact List.mem_flatMap.mpr ⟨sub, hsub, mem_ids_iff.mpr ⟨name, hin, rfl⟩⟩
        · have hbelow : binding ∈ other.term.inner :=
            mem_inner_iff.mpr ⟨holder, hinside, decl, by rw [hslots]; simp, hdeclared⟩
          obtain ⟨before', after', rfl⟩ := List.append_of_mem hother
          obtain ⟨-, hrest, hacross⟩ := List.pairwise_append.mp hapart
          rcases List.mem_append.mp hsub with hbefore | hsub
          · exact absurd (hnamed hin) ((hacross sub hbefore other (List.mem_cons_self ..)).1 binding
              (Term.inner_subset _ hbelow))
          · rcases List.mem_cons.mp hsub with rfl | hsub
            · exact ih sub (by simp) (Term.all_sub horder (by simp)) (Term.all_sub hall (by simp))
                hinside hin
            · exact absurd (hnamed hin)
                (((List.pairwise_cons.mp hrest).1 sub hsub).2 binding hbelow)

theorem isScoped_iff (hnodup : tree.ids.Nodup) (horder : tree.term.all Term.isOrderly = true) :
    tree.IsScoped ↔ tree.term.all Term.isScoped = true := by
  constructor
  · intro h
    exact all_iff.mpr fun below hbelow => h.isScoped_term hnodup hbelow
  · intro h holder hholder before decl after hslots hdecl
    refine ⟨?_, fun name hname binding hmention hdeclared =>
      mem_after_of_isScoped horder h hholder hslots hdeclared hname hmention⟩
    have hself := all_iff.mp h holder hholder
    cases holder with
    | node id head type subs =>
        obtain rfl : subs = _ := hslots
        rw [term_node, Term.isScoped_iff, Term.listsDecls_iff] at hself
        have hlists := hself.1 (before.map term) decl.term (after.map term) (by simp)
          (by simpa using hdecl)
        rwa [List.length_map] at hlists

end Tree

/-- No label of a switch names a local that is declared before it in the body. -/
def Source.HasFreeLabels (source : Source) : Prop :=
  (source.store.term source.root).all Term.hasFreeLabels = true

instance (source : Source) : Decidable source.HasFreeLabels :=
  inferInstanceAs (Decidable (_ = true))

theorem Source.Proper.isScoped_iff {source : Source} (h : source.Proper) :
    source.IsScoped ↔ (source.store.term source.root).all Term.isScoped = true := by
  obtain ⟨tree, hholds, hid, ⟨hhead, horder⟩, hterm⟩ := h.exists_tree
  rw [← hterm, ← Tree.isScoped_iff hholds.nodup horder,
    ← hholds.isScoped_source (by rw [hhead]; rfl), hid]

namespace Engine

variable {engine : Engine} {source : Source} {cancelled : Bool}

/-- If no label names a local of its own switch, every name stays in the scope of what it
names. -/
theorem run_keeps_scopes
    (hrules : ∀ rule, rule ∈ engine.rules → rule ∈ Registry.rules)
    (h : source.WellFormed) (hscoped : source.IsScoped) (hfree : source.HasFreeLabels) :
    ∃ report final stores, engine.run source cancelled = .ok (report, ⟨final, source.root⟩) ∧
      Trail engine.settings.options engine.rules source.root source.store report.log stores
        final ∧
      ∀ store, store ∈ final :: stores → Source.IsScoped ⟨store, source.root⟩ := by
  have hseparable : (source.store.term source.root).all Term.isSeparable = true := by
    unfold Term.isSeparable
    rw [Term.all_and, h.toProper.isScoped_iff.mp hscoped, hfree]
    rfl
  obtain ⟨report, final, stores, hrun, htrail, hkept⟩ :=
    @run_keeps engine source cancelled (fun term => term.all Term.isSeparable = true) hrules
      h.toProper Term.Exchanged.swap_separable hseparable
  refine ⟨report, final, stores, hrun, htrail, ?_⟩
  intro store hstore
  obtain ⟨hproper, hall⟩ := hkept store hstore
  exact hproper.isScoped_iff.mpr
    (Term.all_imp (fun _ hself => (Bool.and_eq_true_iff.mp hself).1) hall)

/-- The unit `switch (k) { case 1: int x = 0; use(x); break; case 2: b(); }`. -/
def localOfGroup : Source where
  store :=
    { nodes := #[
        ⟨.name "k" (some 0), none, some 13, false⟩,
        ⟨.literal (.int 1), none, some 2, false⟩,
        ⟨.caseLabel (some 1), none, some 13, false⟩,
        ⟨.literal (.int 0), none, some 4, false⟩,
        ⟨.varDecl "x" (some 1) (some 3), none, some 13, false⟩,
        ⟨.name "x" (some 1), none, some 6, false⟩,
        ⟨.call none "use" [5], none, some 7, false⟩,
        ⟨.exprStmt 6, none, some 13, false⟩,
        ⟨.breakStmt none, none, some 13, false⟩,
        ⟨.literal (.int 2), none, some 10, false⟩,
        ⟨.caseLabel (some 9), none, some 13, false⟩,
        ⟨.call none "b" [], none, some 12, false⟩,
        ⟨.exprStmt 11, none, some 13, false⟩,
        ⟨.switchStmt 0 [2, 4, 7, 8, 10, 12], none, some 14, false⟩,
        ⟨.unit [13], none, none, false⟩] }
  root := 14

/-- A local that only its own group uses moves into the block of the group. -/
theorem run_keeps_scopes_local :
    localOfGroup.IsScoped ∧ ∃ report final,
      Engine.run ⟨{}, [TwoWaySwitch.rule]⟩ localOfGroup false = .ok (report, ⟨final, 14⟩) ∧
      report.changes = 1 ∧ Source.IsScoped ⟨final, 14⟩ := by
  have hscoped : localOfGroup.IsScoped := by decide +kernel
  obtain ⟨report, after, hrun, hchanges⟩ :=
    @exists_outcome false ⟨{}, [TwoWaySwitch.rule]⟩ localOfGroup
      (fun outcome => outcome.1.changes == 1) (by decide +kernel)
  obtain ⟨report', final, stores, hrun', -, hkept⟩ :=
    @run_keeps_scopes ⟨{}, [TwoWaySwitch.rule]⟩ localOfGroup false
      (by simp [Registry.rules]) (by decide +kernel) hscoped (by decide +kernel)
  rw [hrun'] at hrun
  cases hrun
  exact ⟨hscoped, report, final, hrun', eq_of_beq hchanges,
    hkept final (List.mem_cons_self ..)⟩

/-- The unit `switch (k) { case 1: int x = 5; break; case x: b(); }`. -/
def localInLabel : Source where
  store :=
    { nodes := #[
        ⟨.name "k" (some 0), none, some 10, false⟩,
        ⟨.literal (.int 1), none, some 2, false⟩,
        ⟨.caseLabel (some 1), none, some 10, false⟩,
        ⟨.literal (.int 5), none, some 4, false⟩,
        ⟨.varDecl "x" (some 1) (some 3), none, some 10, false⟩,
        ⟨.breakStmt none, none, some 10, false⟩,
        ⟨.name "x" (some 1), none, some 7, false⟩,
        ⟨.caseLabel (some 6), none, some 10, false⟩,
        ⟨.call none "b" [], none, some 9, false⟩,
        ⟨.exprStmt 8, none, some 10, false⟩,
        ⟨.switchStmt 0 [2, 4, 5, 7, 9], none, some 11, false⟩,
        ⟨.unit [10], none, none, false⟩] }
  root := 11

/-- The local moves into a block, and the test of the label is outside of it. -/
theorem run_loses_scope :
    localInLabel.WellFormed ∧ localInLabel.IsScoped ∧
      ∃ report after, Engine.run ⟨{}, [TwoWaySwitch.rule]⟩ localInLabel false =
        .ok (report, after) ∧ ¬ after.IsScoped := by
  obtain ⟨report, after, hrun, hlost⟩ :=
    @exists_outcome false ⟨{}, [TwoWaySwitch.rule]⟩ localInLabel
      (fun outcome => !decide outcome.2.IsScoped) (by decide +kernel)
  exact ⟨by decide +kernel, by decide +kernel, report, after, hrun, by simpa using hlost⟩

end Engine

end CodeTidy
