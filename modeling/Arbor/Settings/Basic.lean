import Arbor.Fault
import Arbor.Language

set_option autoImplicit false

/-! # Settings

The defaults for parsing and for scope tracking. Settings that are put together by a program are
taken as they are; settings that come from a file are checked, and every value that is not valid
for its field is replaced by the default of the field, whatever the other fields hold. -/

namespace Arbor

/-- The settings. -/
structure Settings where
  sourceType : Value
  defaultLanguage : Value
  preserveExitedScopes : Value

namespace Settings

/-- The settings without a file. -/
def default : Settings := ⟨.text "module", .text "js", .bool false⟩

/-- The keys of the settings. -/
def sourceTypeKey : Key := .text "source_type"

def defaultLanguageKey : Key := .text "default_lang"

def preserveKey : Key := .text "preserve_exited_scopes"

def isKnown (key : Key) : Bool :=
  key = sourceTypeKey || key = defaultLanguageKey || key = preserveKey

/-- The settings with these fields, and the defaults for those that are absent. -/
def merge (fields : List (Key × Value)) : Settings where
  sourceType := (Fields.get? fields sourceTypeKey).getD default.sourceType
  defaultLanguage := (Fields.get? fields defaultLanguageKey).getD default.defaultLanguage
  preserveExitedScopes := (Fields.get? fields preserveKey).getD default.preserveExitedScopes

/-- The settings that a program puts together from a record. Fields that do not exist are
    refused. -/
def ofValue : Value → Except Fault Settings
  | .record fields =>
    if fields.all fun (key, _) => isKnown key then .ok (merge fields) else .error .badArgument
  | _ => .error .badArgument

/-- The settings as a record. -/
def toValue (s : Settings) : Value :=
  .record [(defaultLanguageKey, s.defaultLanguage), (preserveKey, s.preserveExitedScopes),
    (sourceTypeKey, s.sourceType)]

/-! ## Valid values -/

def validSourceType : Value → Bool
  | .scalar (.text t) => t = "module" || t = "script"
  | _ => false

def validLanguage (v : Value) : Bool := (Language.named? v).isSome

def validPreserve : Value → Bool
  | .scalar (.bool _) => true
  | _ => false

/-! ## Warnings -/

/-- What is wrong with a settings file. Values are held as they are shown. -/
inductive Warning where
  /-- The file holds keys that do not exist. -/
  | unknownKeys (path : Text) (names : List Text)
  | badSourceType (shown : Text)
  | badLanguage (shown : Text)
  | badPreserve
  /-- The file does not hold a record. -/
  | notAMapping (path : Text)
  /-- The file cannot be read; the reason is not ours to word. -/
  | unreadable (path : Text)

/-- The wording of a warning. -/
def Warning.message : Warning → Text
  | unknownKeys path names =>
    "Ignoring unknown config keys in " ++ path ++ ": " ++ Text.join ", " names
  | badSourceType shown => "Invalid source_type " ++ shown ++ ", using 'module'"
  | badLanguage shown => "Invalid default_lang " ++ shown ++ ", using 'js'"
  | badPreserve => "preserve_exited_scopes must be a boolean, using False"
  | notAMapping path =>
    "Failed to load config from " ++ path ++
      ": top-level value must be a mapping. Using default configuration."
  | unreadable path => "Failed to load config from " ++ path ++ ": <error>"

/-- A warning that is due: its wording, or the fault that what it shows has no text. -/
abbrev Complaint := Except Fault Warning

/-- The warnings that are given for complaints, in order up to the first one that cannot be worded,
    and whether there is none of those. -/
def voiced : List Complaint → List Warning × Bool
  | [] => ([], true)
  | .error _ :: _ => ([], false)
  | .ok warning :: rest =>
    let (warnings, all) := voiced rest
    (warning :: warnings, all)

/-! ## Checking -/

/-- The value if it is valid, else the default and a complaint. -/
def checked (valid : Value → Bool) (fallback v : Value) (complaint : Complaint) :
    Value × List Complaint :=
  if valid v then (v, []) else (fallback, [complaint])

/-- The settings with every value that is not valid replaced by its default. -/
def validated (s : Settings) : Settings × List Complaint :=
  let (sourceType, c₁) :=
    checked validSourceType default.sourceType s.sourceType
      (s.sourceType.shown.map .badSourceType)
  let (language, c₂) :=
    checked validLanguage default.defaultLanguage s.defaultLanguage
      (s.defaultLanguage.shown.map .badLanguage)
  let (preserve, c₃) :=
    checked validPreserve default.preserveExitedScopes s.preserveExitedScopes (.ok .badPreserve)
  (⟨sourceType, language, preserve⟩, c₁ ++ c₂ ++ c₃)

/-! ## Sorting keys -/

/-- A number as a multiple of the smallest positive floating-point number; infinities lie beyond
    all other numbers. -/
def scaled? : Key → Option Int
  | .bool b => some (if b then (Nat.pow 2 1074 : Nat) else 0)
  | .int n => some (n * (Nat.pow 2 1074 : Nat))
  | .float x =>
    let (m, q) := x.parts
    let magnitude : Int := (m * Nat.pow 2 q : Nat)
    some (if x.isNegative then -magnitude else magnitude)
  | _ => none

/-- Whether a key goes before another one: numbers by size, texts by code points. Keys of different
    kinds have no order. -/
def keyBefore? (a b : Key) : Option Bool :=
  match a, b with
  | .text a, .text b => some (a.before b)
  | a, b =>
    match scaled? a, scaled? b with
    | some m, some n => some (m < n)
    | _, _ => none

/-- Put a key in its place among sorted keys. -/
def insertKey (key : Key) : List Key → Except Fault (List Key)
  | [] => .ok [key]
  | other :: rest =>
    match keyBefore? key other with
    | none => .error .incomparable
    | some true => .ok (key :: other :: rest)
    | some false => (insertKey key rest).map (other :: ·)

/-- Keys in order. -/
def sortKeys : List Key → Except Fault (List Key)
  | [] => .ok []
  | key :: rest => do insertKey key (← sortKeys rest)

/-! ## Settings from a file -/

/-- What a settings file holds. -/
inductive Content where
  | data (v : Value)
  /-- Text that is no settings file. -/
  | malformed
  | directory

/-- The complaint about keys that do not exist, if there are any. -/
def unknownComplaint (path : Text) (keys : List Key) : List Complaint :=
  if keys.isEmpty then []
  else [(keys.mapM fun key => Value.plain (.scalar key)).map (.unknownKeys path)]

/-- The settings in a file that holds `fields`. A file of which something cannot be worded counts as
    one that cannot be read. -/
def ofFields (path : Text) (fields : List (Key × Value)) :
    Except Fault (Settings × List Warning) := do
  let unknown ← sortKeys ((Fields.keys fields).filter (!isKnown ·))
  let (settings, complaints) := (merge fields).validated
  let (warnings, all) := voiced (unknownComplaint path unknown ++ complaints)
  pure (if all then (settings, warnings) else (default, warnings ++ [.unreadable path]))

/-- The settings in a file with a given content. A file that holds nothing sets nothing. -/
def ofContent (path : Text) : Content → Except Fault (Settings × List Warning)
  | .malformed => .ok (default, [.unreadable path])
  | .directory => .ok (default, [.unreadable path])
  | .data v =>
    if !v.isTruthy then ofFields path []
    else match v with
      | .record fields => ofFields path fields
      | _ => .ok (default, [.notAMapping path])

/-! ## Writing -/

/-- A value as it is written to a file. -/
def written : Value → Except Fault Text
  | .scalar (.text t) => .ok t
  | .scalar (.bool b) => .ok (if b then "true" else "false")
  | .scalar .null => .ok "null"
  | v => v.shown

/-- The text of a settings file: one line for each key, the keys in order. -/
def toText (s : Settings) : Except Fault Text := do
  let line (key : Text) (v : Value) : Except Fault Text := do
    return key ++ ": " ++ (← written v) ++ "\n"
  return (← line "default_lang" s.defaultLanguage) ++
    (← line "preserve_exited_scopes" s.preserveExitedScopes) ++
    (← line "source_type" s.sourceType)

end Settings

end Arbor
