import Arbor.Settings.Files
import Arbor.Proofs.Value.Shown

set_option autoImplicit false

/-! # Loading settings

Every field of the loaded settings is what the file says if that is valid for the field, and the default
otherwise, whatever else is in the file (`Settings.load_fieldwise`). There are two exceptions, both about
the wording of warnings. Keys that do not exist are sorted for the warning about them: loading fails if
they are of different kinds. And if a warning would have to show an integer of too many digits, the whole
file is left aside. -/

namespace Arbor

/-! ## Sorting keys -/

/-- Whether a key is a number. Truth values are numbers. -/
def Scalar.IsNumber : Scalar → Prop
  | .bool _ | .int _ | .float _ => True
  | _ => False

def Scalar.IsText : Scalar → Prop
  | .text _ => True
  | _ => False

namespace Settings

/-- Keys that have an order: texts among themselves, and numbers. -/
def Comparable (a b : Key) : Prop := (a.IsText ∧ b.IsText) ∨ (a.IsNumber ∧ b.IsNumber)

theorem Comparable.symm {a b : Key} (h : Comparable a b) : Comparable b a := h.imp And.symm And.symm

theorem Comparable.trans {a b c : Key} (hab : Comparable a b) (hbc : Comparable b c) :
    Comparable a c := by
  cases b <;> simp_all [Comparable, Scalar.IsText, Scalar.IsNumber]

theorem isSome_scaled? (key : Key) : (scaled? key).isSome ↔ key.IsNumber := by
  cases key with
  | bool | int | float => exact iff_of_true rfl trivial
  | null | text => exact iff_of_false Bool.false_ne_true id

theorem isSome_keyBefore? (a b : Key) : (keyBefore? a b).isSome ↔ Comparable a b := by
  unfold keyBefore?
  split
  · exact iff_of_true rfl (.inl ⟨trivial, trivial⟩)
  · have hnumbers : Comparable a b ↔ a.IsNumber ∧ b.IsNumber := by
      cases a <;> cases b <;> simp_all [Comparable, Scalar.IsText, Scalar.IsNumber]
    rw [hnumbers, ← isSome_scaled? a, ← isSome_scaled? b]
    cases scaled? a <;> cases scaled? b <;> simp

theorem keyBefore?_eq_none {a b : Key} (h : ¬ Comparable a b) : keyBefore? a b = none := by
  rwa [← isSome_keyBefore?, Bool.not_eq_true, Option.isSome_eq_false_iff, Option.isNone_iff_eq_none] at h

/-- A key that is comparable to all others finds its place among them. -/
theorem insertKey_perm {key : Key} {keys : List Key} (h : ∀ other ∈ keys, Comparable key other) :
    ∃ sorted, insertKey key keys = .ok sorted ∧ sorted.Perm (key :: keys) := by
  induction keys with
  | nil => exact ⟨[key], rfl, .refl _⟩
  | cons other rest ih =>
    obtain ⟨hother, hrest⟩ := List.forall_mem_cons.1 h
    obtain ⟨sorted, hsorted, hperm⟩ := ih hrest
    obtain ⟨before, hbefore⟩ := Option.isSome_iff_exists.1 ((isSome_keyBefore? key other).2 hother)
    cases before with
    | true => exact ⟨key :: other :: rest, by rw [insertKey, hbefore], .refl _⟩
    | false =>
      refine ⟨other :: sorted, by rw [insertKey, hbefore, hsorted]; rfl, ?_⟩
      exact (hperm.cons other).trans (List.Perm.swap key other rest)

/-- Keys that are comparable among themselves are all comparable to a further key, or else the first one
    is not. -/
theorem insertKey_incomparable {key : Key} {keys : List Key} (hkeys : keys.Pairwise Comparable)
    (h : ¬ ∀ other ∈ keys, Comparable key other) : insertKey key keys = .error .incomparable := by
  cases keys with
  | nil => exact absurd (fun _ hother => absurd hother List.not_mem_nil) h
  | cons other rest =>
    have hother : ¬ Comparable key other := fun hc =>
      h (List.forall_mem_cons.2 ⟨hc, fun _ hr => hc.trans (List.rel_of_pairwise_cons hkeys hr)⟩)
    rw [insertKey, keyBefore?_eq_none hother]

/-- Keys can be sorted if each two of them are comparable. -/
theorem sortKeys_perm {keys : List Key} (h : keys.Pairwise Comparable) :
    ∃ sorted, sortKeys keys = .ok sorted ∧ sorted.Perm keys := by
  induction keys with
  | nil => exact ⟨[], rfl, .refl _⟩
  | cons key rest ih =>
    obtain ⟨hkey, hrest⟩ := List.pairwise_cons.1 h
    obtain ⟨sorted, hsorted, hperm⟩ := ih hrest
    obtain ⟨whole, hwhole, hperm'⟩ := insertKey_perm fun other ho => hkey other (hperm.mem_iff.1 ho)
    exact ⟨whole, by rw [sortKeys, hsorted]; exact hwhole, hperm'.trans (hperm.cons key)⟩

/-- Keys of which two are not comparable cannot be sorted. -/
theorem sortKeys_incomparable {keys : List Key} (h : ¬ keys.Pairwise Comparable) :
    sortKeys keys = .error .incomparable := by
  induction keys with
  | nil => exact absurd List.Pairwise.nil h
  | cons key rest ih =>
    by_cases hrest : rest.Pairwise Comparable
    · obtain ⟨sorted, hsorted, hperm⟩ := sortKeys_perm hrest
      rw [sortKeys, hsorted]
      refine insertKey_incomparable ((hperm.pairwise_iff Comparable.symm).2 hrest) fun hall => h ?_
      exact List.pairwise_cons.2 ⟨fun other ho => hall other (hperm.mem_iff.2 ho), hrest⟩
    · rw [sortKeys, ih hrest]
      rfl

/-! ## The value of a field -/

/-- What `source_type` may be. -/
def IsSourceType (v : Value) : Prop := v = .text "module" ∨ v = .text "script"

/-- What `default_lang` may be. -/
def IsLanguageName (v : Value) : Prop :=
  v = .text "js" ∨ v = .text "jsx" ∨ v = .text "ts" ∨ v = .text "tsx"

/-- What `preserve_exited_scopes` may be. -/
def IsFlag (v : Value) : Prop := ∃ b, v = .bool b

theorem validSourceType_iff (v : Value) : validSourceType v = true ↔ IsSourceType v := by
  unfold validSourceType
  split <;> simp_all [IsSourceType, Value.text]

theorem validLanguage_iff (v : Value) : validLanguage v = true ↔ IsLanguageName v := by
  unfold validLanguage Language.named?
  split
  · rw [List.find?_isSome]
    simp [IsLanguageName, Value.text, Language.all]
    rfl
  · simp_all [IsLanguageName, Value.text]

theorem validPreserve_iff (v : Value) : validPreserve v = true ↔ IsFlag v := by
  unfold validPreserve
  split <;> simp_all [IsFlag, Value.bool]

/-- The value of a field: what is given for it if that is valid, else the default. -/
def IsSetting (Valid : Value → Prop) (given? : Option Value) (fallback v : Value) : Prop :=
  (∃ given, given? = some given ∧ Valid given ∧ v = given) ∨
    ((∀ given, given? = some given → ¬ Valid given) ∧ v = fallback)

/-- Settings that hold, field by field, what a file with these fields says. -/
structure FieldWise (fields : List (Key × Value)) (s : Settings) : Prop where
  sourceType :
    IsSetting IsSourceType (Fields.get? fields sourceTypeKey) default.sourceType s.sourceType
  defaultLanguage :
    IsSetting IsLanguageName (Fields.get? fields defaultLanguageKey) default.defaultLanguage
      s.defaultLanguage
  preserveExitedScopes :
    IsSetting IsFlag (Fields.get? fields preserveKey) default.preserveExitedScopes
      s.preserveExitedScopes

/-- A field is checked after the default has been put in the place of a missing value. -/
theorem isSetting_checked {Valid : Value → Prop} {valid : Value → Bool}
    (hvalid : ∀ v, valid v = true ↔ Valid v) (given? : Option Value) (fallback : Value)
    (complaint : Complaint) :
    IsSetting Valid given? fallback (checked valid fallback (given?.getD fallback) complaint).1 := by
  cases given? with
  | none =>
    refine .inr ⟨fun _ h => (nomatch h), ?_⟩
    rw [Option.getD_none, checked]
    split <;> rfl
  | some given =>
    by_cases h : valid given = true
    · exact .inl ⟨given, rfl, (hvalid given).1 h, by rw [Option.getD_some, checked, if_pos h]⟩
    · refine .inr ⟨fun v hv hV => h ((hvalid given).2 (Option.some.inj hv ▸ hV)), ?_⟩
      rw [Option.getD_some, checked, if_neg h]

theorem fieldWise_validated (fields : List (Key × Value)) :
    FieldWise fields (merge fields).validated.1 where
  sourceType := isSetting_checked validSourceType_iff _ _ _
  defaultLanguage := isSetting_checked validLanguage_iff _ _ _
  preserveExitedScopes := isSetting_checked validPreserve_iff _ _ _

/-! ## What warnings show -/

/-- The keys that are no settings. -/
def unknownKeys (fields : List (Key × Value)) : List Key :=
  (Fields.keys fields).filter fun key => !isKnown key

/-- The scalars that a warning may show: the keys that are no settings, and what is in the values that are
    quoted if they are not valid. -/
def quotable (fields : List (Key × Value)) : List Scalar :=
  unknownKeys fields ++
    ((Fields.get? fields sourceTypeKey).toList.flatMap Value.scalars ++
      (Fields.get? fields defaultLanguageKey).toList.flatMap Value.scalars)

theorem voiced_all (complaints : List Complaint) :
    (voiced complaints).2 = complaints.all Except.isOk := by
  induction complaints with
  | nil => rfl
  | cons complaint rest ih =>
    cases complaint with
    | error f => rfl
    | ok warning => exact ih

theorem isOk_unknownComplaint (path : Text) (keys : List Key) :
    (unknownComplaint path keys).all Except.isOk = keys.all Scalar.isShort := by
  unfold unknownComplaint
  split
  · next h => rw [List.isEmpty_iff.1 h]; rfl
  · rw [List.all_cons, List.all_nil, Bool.and_true, isOk_map, isOk_mapM]
    simp only [Value.isOk_plain_scalar]

/-- What is valid for a field that takes texts can always be shown, as can the default. -/
theorem isOk_checked_shown {valid : Value → Bool} {fallback : Value}
    (hvalid : ∀ v, valid v = true → v.scalars.all Scalar.isShort = true)
    (hfallback : fallback.scalars.all Scalar.isShort = true) (given? : Option Value)
    (warning : Text → Warning) :
    (checked valid fallback (given?.getD fallback) ((given?.getD fallback).shown.map warning)).2.all
        Except.isOk =
      (given?.toList.flatMap Value.scalars).all Scalar.isShort := by
  have hgiven : (given?.toList.flatMap Value.scalars).all Scalar.isShort =
      (given?.getD fallback).scalars.all Scalar.isShort := by
    cases given? with
    | none => exact hfallback.symm
    | some given => rw [Option.toList_some, List.flatMap_singleton, Option.getD_some]
  rw [hgiven, checked]
  split
  · next h => exact (hvalid _ h).symm
  · rw [List.all_cons, List.all_nil, Bool.and_true, isOk_map, Value.isOk_shown]

theorem isShort_of_validSourceType (v : Value) (h : validSourceType v = true) :
    v.scalars.all Scalar.isShort = true := by
  obtain rfl | rfl := (validSourceType_iff v).1 h <;> rfl

theorem isShort_of_validLanguage (v : Value) (h : validLanguage v = true) :
    v.scalars.all Scalar.isShort = true := by
  obtain rfl | rfl | rfl | rfl := (validLanguage_iff v).1 h <;> rfl

theorem isOk_validated (fields : List (Key × Value)) :
    (merge fields).validated.2.all Except.isOk =
      ((Fields.get? fields sourceTypeKey).toList.flatMap Value.scalars ++
        (Fields.get? fields defaultLanguageKey).toList.flatMap Value.scalars).all Scalar.isShort := by
  have hpreserve : ∀ v : Value, (checked validPreserve default.preserveExitedScopes v
      (.ok .badPreserve)).2.all Except.isOk = true := by
    intro v
    rw [checked]
    split <;> rfl
  simp only [validated, merge, List.all_append, hpreserve, Bool.and_true]
  rw [isOk_checked_shown isShort_of_validSourceType rfl, isOk_checked_shown isShort_of_validLanguage rfl]

/-! ## Loading -/

/-- What loading gives for a file with these fields. -/
def Loads (fields : List (Key × Value)) (outcome : Except Fault (Settings × List Warning)) : Prop :=
  (¬ (unknownKeys fields).Pairwise Comparable → outcome = .error .incomparable) ∧
    ((unknownKeys fields).Pairwise Comparable → ∃ s warnings, outcome = .ok (s, warnings) ∧
      ((∀ x ∈ quotable fields, x.isShort = true) → FieldWise fields s) ∧
      ((∃ x ∈ quotable fields, x.isShort = false) → s = default))

theorem loads_ofFields (path : Text) (fields : List (Key × Value)) :
    Loads fields (ofFields path fields) := by
  constructor
  · intro h
    have hsort := sortKeys_incomparable h
    rw [unknownKeys] at hsort
    rw [ofFields, hsort]
    rfl
  · intro h
    obtain ⟨unknown, hsort, hperm⟩ := sortKeys_perm h
    have hall : (voiced (unknownComplaint path unknown ++ (merge fields).validated.2)).2 =
        (quotable fields).all Scalar.isShort := by
      rw [voiced_all, List.all_append, isOk_unknownComplaint, isOk_validated, quotable,
        List.all_append, List.all_append, hperm.all_eq, List.all_append]
    rw [unknownKeys] at hsort
    have hload : ofFields path fields = .ok
        (if (quotable fields).all Scalar.isShort then
          ((merge fields).validated.1,
            (voiced (unknownComplaint path unknown ++ (merge fields).validated.2)).1)
        else (default,
          (voiced (unknownComplaint path unknown ++ (merge fields).validated.2)).1 ++
            [.unreadable path])) := by
      rw [← hall, ofFields, hsort]
      rfl
    cases hshort : (quotable fields).all Scalar.isShort with
    | true =>
      rw [hshort, if_pos rfl] at hload
      refine ⟨_, _, hload, fun _ => fieldWise_validated fields, ?_⟩
      rintro ⟨x, hx, hlong⟩
      rw [List.all_eq_true.1 hshort x hx] at hlong
      cases hlong
    | false =>
      rw [hshort, if_neg Bool.false_ne_true] at hload
      refine ⟨_, _, hload, fun h => ?_, fun _ => rfl⟩
      rw [List.all_eq_true.2 h] at hshort
      cases hshort

/-- A file without fields sets nothing. -/
theorem loads_default (warnings : List Warning) : Loads [] (.ok (default, warnings)) := by
  refine ⟨fun h => absurd List.Pairwise.nil h, fun _ => ⟨default, warnings, rfl, fun _ => ?_, fun _ => rfl⟩⟩
  constructor <;> exact .inr ⟨fun _ h => (nomatch h), rfl⟩

/-- The fields in a settings file. Only a record has any. -/
def Content.fields : Content → List (Key × Value)
  | .data (.record fields) => fields
  | _ => []

theorem loads_ofContent (path : Text) (content : Content) :
    Loads content.fields (ofContent path content) := by
  cases content with
  | malformed => exact loads_default _
  | directory => exact loads_default _
  | data v =>
    cases v with
    | record fields =>
      cases fields with
      | nil => exact loads_ofFields path []
      | cons field rest => exact loads_ofFields path (field :: rest)
    | scalar x =>
      change Loads [] (if !(Value.scalar x).isTruthy then ofFields path []
        else .ok (default, [.notAMapping path]))
      split
      · exact loads_ofFields path []
      · exact loads_default _
    | list items =>
      change Loads [] (if !(Value.list items).isTruthy then ofFields path []
        else .ok (default, [.notAMapping path]))
      split
      · exact loads_ofFields path []
      · exact loads_default _

/-- What is at a path, if anything is. -/
def contentAt? (fs : FileSystem) (path : Text) : Option Content :=
  (if path.isEmpty then none else (fs.resolve path).toOption).bind fs.content?

/-- The fields in the settings file at a path. Without a path or a file there are none. -/
def fieldsAt (fs : FileSystem) (path? : Option Text) : List (Key × Value) :=
  ((path?.bind (contentAt? fs)).map Content.fields).getD []

/-- Settings are loaded field by field from whatever is at a path. Loading fails if two of the keys that
    are no settings are not comparable, and the whole file is left aside if a warning shows an integer of
    too many digits. -/
theorem load_fieldwise (fs : FileSystem) (path? : Option Text) :
    Loads (fieldsAt fs path?) (load fs path?) := by
  cases path? with
  | none => exact loads_default _
  | some path =>
    rw [load, fieldsAt, Option.bind_some]
    split
    · next h =>
      rw [contentAt?, h]
      exact loads_default _
    · next content h =>
      rw [contentAt?, h]
      exact loads_ofContent path content

namespace Sample

/-- A file system with one settings file. -/
def disk (fields : List (Key × Value)) : FileSystem where
  contents := [([Text.ofString "a.yml"], .data (.record fields))]
  workingDirectory := []

example : load (disk [(.text "a", .int 0), (sourceTypeKey, .list []), (defaultLanguageKey, .text "ts")])
      (some "a.yml") =
    .ok (⟨.text "module", .text "ts", .bool false⟩,
      [.unknownKeys "a.yml" ["a"], .badSourceType "[]"]) := rfl

/-- A number and a text as keys that are no settings: what the file says of the language is lost. -/
theorem load_incomparable :
    load (disk [(.int 1, .int 0), (.text "a", .int 0), (defaultLanguageKey, .text "ts")])
      (some "a.yml") = .error .incomparable := rfl

end Sample

end Settings

end Arbor
