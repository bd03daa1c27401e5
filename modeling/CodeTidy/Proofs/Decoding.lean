import CodeTidy.Proofs.Spelling
import CodeTidy.Settings
import Mathlib.Data.List.Nodup

/-!
# Settings and their texts

Settings are written as an object with some of their fields, in any order; a field that is left
out has its default.  Reading inverts writing, in whatever way the object is spelled, and an
object with one more member is refused.
-/

namespace CodeTidy

namespace Settings

def rulesJson : Option (List String) → Json
  | none => .null
  | some names => .array (names.map .string)

def fields (settings : Settings) : List (String × Json) :=
  [("language_level", .number ⟨false, settings.languageLevel, false⟩),
    ("max_iterations", .number ⟨false, settings.maxPasses, false⟩),
    ("enabled_rules", rulesJson settings.enabledRules)]

/-- Some fields of the settings, each once, and all that do not have their default. -/
structure IsWritten (settings : Settings) (members : List (String × Json)) : Prop where
  subset : members ⊆ settings.fields
  once : (members.map Prod.fst).Nodup
  level : "language_level" ∉ members.map Prod.fst → settings.languageLevel = 8
  passes : "max_iterations" ∉ members.map Prod.fst → settings.maxPasses = 10
  rules : "enabled_rules" ∉ members.map Prod.fst → settings.enabledRules = none

variable {settings : Settings} {members : List (String × Json)} {name : String} {value : Json}

theorem strings?_map (names : List String) :
    (Json.array (names.map .string)).strings? = some names := by
  show (names.map Json.string).mapM Json.string? = some names
  induction names with
  | nil => rfl
  | cons name names ih => simp [Json.string?, ih]

theorem ruleNames?_rulesJson (rules : Option (List String)) :
    ruleNames? (rulesJson rules) = some rules := by
  cases rules with
  | none => rfl
  | some names =>
      show (Json.array (names.map .string)).strings?.map some = _
      rw [strings?_map]
      rfl

theorem natBelow?_number {limit whole : Nat} (h : whole < limit) :
    (Json.number ⟨false, whole, false⟩).natBelow? limit = some whole := by
  simp [Json.natBelow?, h]

/-- A field is decoded from the member that holds it, or is left out and has its default. -/
theorem field?_eq {α : Type} {decode : Json → Option α} {default actual : α}
    (hvalue : ∀ value, (name, value) ∈ members → decode value = some actual)
    (hdefault : name ∉ members.map Prod.fst → actual = default) :
    field? members name default decode = some actual := by
  unfold field?
  cases hlookup : members.lookup name with
  | none =>
      rw [List.lookup_eq_none_iff] at hlookup
      rw [hdefault]
      intro hin
      obtain ⟨member, hmember, rfl⟩ := List.mem_map.mp hin
      simpa using hlookup member hmember
  | some value =>
      obtain ⟨front, back, rfl, -⟩ := List.lookup_eq_some_iff.mp hlookup
      exact hvalue value (by simp)

namespace IsWritten

theorem keysFit (h : settings.IsWritten members) : Json.keysFit fieldNames members = true := by
  have hnames : ∀ key, key ∈ members.map Prod.fst → key ∈ fieldNames := by
    intro key hkey
    obtain ⟨member, hmember, rfl⟩ := List.mem_map.mp hkey
    have hfield := h.subset hmember
    simp only [fields, List.mem_cons, List.not_mem_nil, or_false] at hfield
    rcases hfield with rfl | rfl | rfl <;> simp [fieldNames]
  simp only [Json.keysFit, Bool.and_eq_true, List.all_eq_true, List.contains_iff_mem,
    decide_eq_true_eq]
  exact ⟨hnames, h.once⟩

theorem ofFields?_eq (h : settings.IsWritten members) (hlevel : settings.languageLevel < 2 ^ 32)
    (hpasses : settings.maxPasses < 2 ^ 64) : ofFields? members = some settings := by
  have hlevelField : field? members "language_level" 8 (Json.natBelow? levelLimit) =
      some settings.languageLevel := by
    refine field?_eq (fun value hmember => ?_) h.level
    obtain rfl : value = .number ⟨false, settings.languageLevel, false⟩ := by
      simpa [fields] using h.subset hmember
    exact natBelow?_number hlevel
  have hpassesField : field? members "max_iterations" 10 (Json.natBelow? passLimit) =
      some settings.maxPasses := by
    refine field?_eq (fun value hmember => ?_) h.passes
    obtain rfl : value = .number ⟨false, settings.maxPasses, false⟩ := by
      simpa [fields] using h.subset hmember
    exact natBelow?_number hpasses
  have hrulesField : field? members "enabled_rules" none ruleNames? =
      some settings.enabledRules := by
    refine field?_eq (fun value hmember => ?_) h.rules
    obtain rfl : value = rulesJson settings.enabledRules := by
      simpa [fields] using h.subset hmember
    exact ruleNames?_rulesJson _
  simp only [ofFields?, hlevelField, hpassesField, hrulesField]

end IsWritten

theorem read_of_parse {text : String} {fields : List (String × Json)}
    (hparse : Json.parse? text = some (.object fields)) :
    Settings.read text = if Json.keysFit fieldNames fields then
      match ofFields? fields with
      | none => .error .malformed
      | some settings => settings.validate.map (fun _ => settings)
    else .error .malformed := by
  unfold Settings.read
  rw [hparse]
  simp only [Option.bind_some, Json.record?]
  cases Json.keysFit fieldNames fields <;> rfl

/-- Reading inverts writing, however the text is spelled, and refuses any other key and any
key that stands there twice. -/
theorem read_inverts_writing (hlevel : settings.languageLevel < 2 ^ 32)
    (hpasses : settings.maxPasses < 2 ^ 64) (hwritten : settings.IsWritten members) :
    (∀ text, Json.SpellsText (.object members) text → Settings.read text =
      if settings.maxPasses = 0 then .error .noPasses else .ok settings) ∧
    ∀ front back added text, members = front ++ back →
      added.1 ∉ fieldNames ∨ added.1 ∈ members.map Prod.fst →
      Json.SpellsText (.object (front ++ added :: back)) text →
      Settings.read text = .error .malformed := by
  constructor
  · intro text htext
    rw [read_of_parse (Json.parse?_of_spells htext), if_pos hwritten.keysFit,
      hwritten.ofFields?_eq hlevel hpasses]
    simp only [validate]
    split <;> rfl
  · rintro front back ⟨key, value⟩ text rfl hkey htext
    rw [read_of_parse (Json.parse?_of_spells htext), if_neg]
    intro hfit
    simp only [Json.keysFit, Bool.and_eq_true, List.all_eq_true, List.contains_iff_mem,
      decide_eq_true_eq] at hfit
    rcases hkey with hunknown | hrepeated
    · exact hunknown (hfit.1 key (by simp))
    · have hnodup := hfit.2
      simp only [List.map_append, List.map_cons] at hnodup hrepeated
      exact (List.nodup_middle.mp hnodup |> List.nodup_cons.mp).1 hrepeated

/-- Three passes, with a blank on each side of the colon and the first letter of the key
written by its code. -/
def threePasses : String := "\x7b\"\\u006Dax_iterations\" : 3\x7d"

theorem spells_threePasses :
    Json.SpellsText (.object [("max_iterations", .number ⟨false, 3, false⟩)]) threePasses := by
  have hcode : Json.SpellsCode 'm'.toNat ['0', '0', '6', 'D'] :=
    .digits (a := 0) (b := 0) (c := 6) (d := 13) ⟨by decide, .inl rfl⟩ ⟨by decide, .inl rfl⟩
      ⟨by decide, .inl rfl⟩ ⟨by decide, .inr rfl⟩
  have hchars : Json.SpellsChars "max_iterations".toList
      (['\\', 'u', '0', '0', '6', 'D'] ++ "ax_iterations".toList) :=
    .cons (.code hcode) (.plain (by decide))
  have hnumber : Json.SpellsNumber ⟨false, 3, false⟩ ['3'] := .parts .absent .absent
  have hblank : Json.Blanks [' '] := by simp [Json.Blanks]
  have hnone : Json.Blanks [] := by simp [Json.Blanks]
  have hmembers := Json.SpellsMembers.one hnone (.quoted hchars) hblank hblank (.number hnumber)
    hnone
  exact Json.SpellsText.text hnone (.object hmembers) hnone

theorem read_inverts_writing_threePasses :
    ({ maxPasses := 3 } : Settings).IsWritten [("max_iterations", .number ⟨false, 3, false⟩)] ∧
      Settings.read threePasses = .ok { maxPasses := 3 } := by
  have hwritten : ({ maxPasses := 3 } : Settings).IsWritten
      [("max_iterations", .number ⟨false, 3, false⟩)] :=
    ⟨by simp [fields], by simp, fun _ => rfl, by simp, fun _ => rfl⟩
  exact ⟨hwritten,
    (read_inverts_writing (by decide) (by decide) hwritten).1 threePasses spells_threePasses⟩

end Settings

end CodeTidy
