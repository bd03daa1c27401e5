import CodeTidy.Proofs.Effect
import CodeTidy.Rule.StringConversion

/-!
# What the conversion rule does

A value joined to an empty string becomes the argument of a call.
-/

namespace CodeTidy

namespace StringConversion

def emptyString (type : Option TypeDesc) : Term :=
  .node (.literal (.str "")) type []

/-- A value joined to the empty string on either side becomes `String.valueOf`. -/
inductive Rewrite : Rewriting where
  | left {type stringType : Option TypeDesc} {value : Term} :
      Rewrite (.node (.chain .plus) type [emptyString stringType, value])
        (some (.call (.bareName "String") "valueOf" [value]))
  | right {type stringType : Option TypeDesc} {value : Term} :
      Rewrite (.node (.chain .plus) type [value, emptyString stringType])
        (some (.call (.bareName "String") "valueOf" [value]))

variable {base : Store} {tree old value : Tree} {options : Options}

theorem term_of_isEmptyString (h : value.Legible base)
    (hempty : isEmptyString base value.id = true) : value.term = emptyString value.type := by
  unfold isEmptyString at hempty
  split at hempty
  · next text hkind =>
      obtain ⟨subs, hform, hids⟩ := h.of_kind hkind
      have hsubs : subs = [] := List.map_eq_nil_iff.mp hids
      rw [hform, hsubs, Tree.term_node, eq_of_beq hempty]
      rfl
  · cases hempty

theorem of_converted? (h : old.Legible base) {id : NodeId}
    (hconverted : converted? base (base.kind old.id) = some id) :
    ∃ value ∈ old.subs, value.id = id ∧
      Rewrite old.term (some (.call (.bareName "String") "valueOf" [value.term])) := by
  unfold converted? at hconverted
  split at hconverted
  · next left right hkind =>
      obtain ⟨subs, hform, hids⟩ := h.of_kind hkind
      obtain ⟨l, rest, rfl, rfl, hrest⟩ := List.map_eq_cons_iff.mp hids
      obtain ⟨r, rfl, rfl⟩ := List.map_eq_singleton_iff.mp hrest
      have hterm : old.term = .node (.chain .plus) old.type [l.term, r.term] := by
        rw [hform]
        simp [Kind.head]
      have hl : l.Legible base := h.sub (by rw [hform]; simp)
      have hr : r.Legible base := h.sub (by rw [hform]; simp)
      split at hconverted
      · next hempty =>
          cases hconverted
          refine ⟨r, by rw [hform]; simp, rfl, ?_⟩
          rw [hterm, term_of_isEmptyString hl hempty]
          exact .left
      · split at hconverted
        · next hempty =>
            cases hconverted
            refine ⟨l, by rw [hform]; simp, rfl, ?_⟩
            rw [hterm, term_of_isEmptyString hr hempty]
            exact .right
        · cases hconverted
  · cases hconverted

theorem respond_of_converted?_none (hlt : old.id < base.size)
    (h : converted? base (base.kind old.id) = none) :
    respond options old.id base = .ok (.decline, base) := by
  unfold respond
  rw [Build.bind_ok (Build.run_kindOf hlt), Build.bind_ok (Build.run_get base), h]
  rfl

theorem answers (hbase : base.Holds tree) (hold : old ∈ tree.subtrees) (hne : old ≠ tree) :
    Answers (respond options old.id) base tree old.id
      (tree.RewrittenBy Rewrite old.term) := by
  have hlegible := Tree.Legible.of_holds hbase hold
  have hstart : Draft base [] base [] := .start hbase.idle hbase.typed
  cases hconverted : converted? base (base.kind old.id) with
  | none => exact .inl (respond_of_converted?_none hlegible.lt hconverted)
  | some id =>
      obtain ⟨value, hvalue, rfl, hrel⟩ := of_converted? hlegible hconverted
      by_cases hconvertible : isConvertible base value.id = true
      · obtain ⟨middle, htake, hmiddle⟩ := hstart.take_live
          ((hbase.live hold hne).sub hvalue) (List.disjoint_nil_right _)
        obtain ⟨named, target, hname, hnamed, hnameTerm⟩ := hmiddle.yields_name "String"
        obtain ⟨drafted, new, hcall, hdraft, hterm⟩ :=
          @Draft.yields_call base named _ [] target [value] "valueOf" hnamed
        have hrun : respond options old.id base =
            .ok (.edit [⟨old.id, .replace (.fresh new.id)⟩], drafted) := by
          unfold respond
          rw [Build.bind_ok (Build.run_kindOf hlegible.lt), Build.bind_ok (Build.run_get base),
            hconverted]
          simp only [hconvertible, if_true]
          rw [Build.bind_ok htake, Build.bind_ok hname]
          exact (Build.bind_ok hcall).trans rfl
        rw [hnameTerm, List.map_singleton] at hterm
        rw [← hterm] at hrel
        refine hdraft.answers_replace hbase hold hne ?_ rfl hrun hrel
          (fun _ => Tree.suits_of_primary (by rw [← Tree.head_term, hterm]; rfl))
        intro id hid
        rw [List.append_nil] at hid
        exact List.mem_flatMap.mpr ⟨value, hvalue, hid⟩
      · refine .inl ?_
        unfold respond
        rw [Build.bind_ok (Build.run_kindOf hlegible.lt), Build.bind_ok (Build.run_get base),
          hconverted]
        simp only [hconvertible]
        rfl

end StringConversion

end CodeTidy
