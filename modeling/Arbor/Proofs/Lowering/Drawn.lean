import Arbor.Lowering.Rule
import Arbor.Proofs.Value.Occurrences

set_option autoImplicit false

/-! # Drawn values

What lowering makes of a stretch of a source is drawn from it (`Survey.Drawn`): its records are sound nodes, they
end before a limit and start in given spans of the source, and they start in order if the spans stand in order. A
sound node (`Survey.Sound`) begins with its type and its range; it tells the text of its range if it is of a type
that tells one; and all that it holds lies inside its range. What is asked of the nodes depends on the tree, so it
is collected in a `Survey`: any tree gives nodes of this form that tell their text, and ranges are asked for only
where those of the tree nest.

Drawn values are put together as nodes are: side by side (`Drawn.append`), inside a node (`drawn_node`), and by
storing a field in a node that has been built (`drawn_set`). -/

namespace Arbor

/-- The range of a token. -/
def Token.span (t : Token) : Span := ⟨t.start, t.stop⟩

namespace Lowering

open Value (nodeFields headKeys Apart IsHeaded typeOf? startOf? rangeOf? records recordsOfItems recordsOfFields)

/-! ## What nodes tell -/

/-- The types of names. -/
def nameTypes : List Text := ["Identifier", "JSXIdentifier"]

/-- The types of nodes that tell the text of their range. -/
def tellingTypes : List Text := ["Identifier", "JSXIdentifier", "JSXText", "Literal", "TemplateElement"]

/-- Whether there is a text or a number. -/
def isWritten : Option Value → Bool
  | some (.scalar (.text _)) => true
  | some (.scalar (.int _)) => true
  | some (.scalar (.float _)) => true
  | _ => false

/-- What a node gives as the text of its range: a name, if it is a text; the raw text of a literal, unless it
    stands for a truth value or for null; the raw text of other literal text. Other nodes give none. -/
def told? (fields : List (Key × Value)) : Option (Option Value) :=
  let field (name : Text) : Option Value := Fields.get? fields (.text name)
  match typeOf? fields with
  | none => none
  | some type =>
    if type ∈ nameTypes then
      match field "name" with
      | some (.scalar (.text name)) => some (some (.text name))
      | _ => none
    else if type = "JSXText" then some (field "raw")
    else if type = "Literal" then
      if (field "regex").isSome || isWritten (field "value") then some (field "raw") else none
    else if type = "TemplateElement" then some ((field "value").bind (Value.field? · "raw"))
    else none

/-- A node tells the text of its range, if it tells one. -/
def Spells (source : Source) (fields : List (Key × Value)) : Prop :=
  ∀ text?, told? fields = some text? →
    ∃ start stop : Nat, rangeOf? fields = some ⟨start, stop⟩ ∧
      text? = some (.text (source.slice start stop))

/-- The fields that tell the text of a node, or that exempt the node from telling it. -/
def tellingKeys : List Key :=
  [.text "name", .text "raw", .text "value", .text "regex", .text "typeAnnotation"]

theorem told?_eq_none {fields : List (Key × Value)} {type : Text} (htype : typeOf? fields = some type)
    (h : type ∉ tellingTypes) : told? fields = none := by
  simp only [tellingTypes, List.mem_cons, List.not_mem_nil, or_false, not_or] at h
  simp [told?, htype, nameTypes, h]

theorem spells_of_untold {source : Source} {fields : List (Key × Value)} {type : Text}
    (htype : typeOf? fields = some type) (h : type ∉ tellingTypes) : Spells source fields := by
  intro text? htext
  rw [told?_eq_none htype h] at htext
  cases htext

section

variable {source : Source} {type : Text} {start stop : Nat} {rest : List (Key × Value)}

theorem name_not_mem_headKeys : (.text "name" : Key) ∉ headKeys := by decide

theorem raw_not_mem_headKeys : (.text "raw" : Key) ∉ headKeys := by decide

/-- A name tells its text if it has no other text as its name. -/
theorem spells_name (htype : type ∈ nameTypes)
    (h : ∀ name, Fields.get? rest (.text "name") = some (.text name) → name = source.slice start stop) :
    Spells source (nodeFields type start stop rest) := by
  intro text? htext
  have htold : told? (nodeFields type start stop rest) =
      match Fields.get? rest (.text "name") with
      | some (.scalar (.text name)) => some (some (.text name))
      | _ => none := by
    rw [← Value.get?_nodeFields type start stop rest name_not_mem_headKeys]
    exact if_pos htype
  rw [htold] at htext
  refine ⟨start, stop, rfl, ?_⟩
  split at htext
  · next name hname =>
    cases htext
    rw [h name hname]
  · cases htext

/-- Literal text is told by its raw text. -/
theorem spells_raw (htype : type = "JSXText" ∨ type = "Literal")
    (h : Fields.get? rest (.text "raw") = some (.text (source.slice start stop))) :
    Spells source (nodeFields type start stop rest) := by
  have hname : type ∉ nameTypes := by
    rcases htype with rfl | rfl <;> decide
  have hraw : Fields.get? (nodeFields type start stop rest) (.text "raw") =
      some (.text (source.slice start stop)) := by
    rw [Value.get?_nodeFields _ _ _ _ raw_not_mem_headKeys, h]
  intro text? htext
  refine ⟨start, stop, rfl, ?_⟩
  simp only [told?, Value.typeOf?_nodeFields, hname, if_false, hraw] at htext
  split at htext
  · exact (Option.some.inj htext).symm
  · split at htext
    · split at htext
      · exact (Option.some.inj htext).symm
      · cases htext
    · next hjsx hliteral => exact absurd htype (by simp [hjsx, hliteral])

/-- A truth value or null does not tell how it is spelled. -/
theorem spells_mute (hregex : Fields.get? rest (.text "regex") = none)
    (hvalue : isWritten (Fields.get? rest (.text "value")) = false) :
    Spells source (nodeFields "Literal" start stop rest) := by
  have hget {key : Key} (h : key ∉ headKeys) := Value.get?_nodeFields "Literal" start stop rest h
  have htold : told? (nodeFields "Literal" start stop rest) = none := by
    simp [told?, nameTypes, hget, show (.text "regex" : Key) ∉ headKeys by decide,
      show (.text "value" : Key) ∉ headKeys by decide, hregex, hvalue]
  intro text? htext
  rw [htold] at htext
  cases htext

end

/-- A field that tells nothing may be stored in a node. -/
theorem told?_set {fields : List (Key × Value)} {key : Key} (v : Value) (hhead : key ∉ headKeys)
    (hkey : key ∉ tellingKeys) : told? (Fields.set fields key v) = told? fields := by
  simp only [headKeys, tellingKeys, List.mem_cons, List.not_mem_nil, or_false, not_or] at hhead hkey
  have hget {name : Text} (h : key ≠ .text name) :
      Fields.get? (Fields.set fields key v) (.text name) = Fields.get? fields (.text name) :=
    Fields.get?_set_of_ne fields v h
  simp only [told?, typeOf?, hget hhead.1, hget hkey.1, hget hkey.2.1, hget hkey.2.2.1,
    hget hkey.2.2.2.1]

/-! ## Sound nodes -/

/-- The fields that hold a record that is no node. -/
def bareHolders : List Holder := [⟨"Literal", .text "regex"⟩, ⟨"TemplateElement", .text "value"⟩]

/-- The fields whose names are told without their ranges. -/
def metaHolders : List Holder :=
  [⟨"MetaProperty", .text "meta"⟩, ⟨"MetaProperty", .text "property"⟩]

/-- The field that holds the parameter of a catch clause. -/
def caughtHolder : Holder := ⟨"CatchClause", .text "param"⟩

/-- The types whose fields are looked at. -/
def holdingTypes : List Text := ["Literal", "TemplateElement", "MetaProperty", "CatchClause"]

/-- Whether a value is a part that a node may keep: a node, or a list. -/
def isKept : Value → Bool
  | .scalar _ => false
  | .list _ => true
  | .record fields => (typeOf? fields).isSome

/-- The fields from which the text of a node of some type is told. A template element tells it from its value
    alone. -/
def partKeys (type : Text) : List Key :=
  if type = "TemplateElement" then [.text "value"]
  else [.text "name", .text "raw", .text "value", .text "regex"]

/-- Nothing but parts stands in the fields from which the text of a node is told. -/
def Parted (type : Text) (rest : List (Key × Value)) : Prop :=
  ∀ key ∈ partKeys type, ∀ v, Fields.get? rest key = some v → isKept v = true

/-- A node without a rule that gives no text of its own: it has the type and the range of a token, and keeps the
    parts of it. -/
def KeepsParts (t : Token) (fields : List (Key × Value)) : Prop :=
  ∃ rest, Parted (genericType t.kind) rest ∧ fields = nodeFields (genericType t.kind) t.start t.stop rest

theorem partKeys_subset (type : Text) : partKeys type ⊆ tellingKeys := by
  unfold partKeys
  split <;> decide

theorem Parted.set {type : Text} {rest : List (Key × Value)} (h : Parted type rest) {key : Key}
    (hkey : key ∉ partKeys type) (v : Value) : Parted type (Fields.set rest key v) := by
  intro part hpart w hget
  have hne : key ≠ part := fun heq => hkey (heq ▸ hpart)
  rw [Fields.get?_set_of_ne _ _ hne] at hget
  exact h part hpart w hget

/-- What is asked of the nodes that a tree is lowered to. -/
structure Survey where
  source : Source
  /-- The tokens of the tree. -/
  knows : Token → Prop
  /-- Whether the ranges of nodes have to nest. -/
  nests : Prop
  /-- Whether nodes have to start in order. -/
  ordered : Prop
  nests_of_ordered : ordered → nests

namespace Survey

variable (S : Survey)

/-- A node that keeps the parts of a token whose kind has no rule, and no text. -/
def Kept (fields : List (Key × Value)) : Prop :=
  ∃ t, S.knows t ∧ rules.lookup t.kind = none ∧ genericType t.kind ∉ nameTypes ∧ KeepsParts t fields

/-- A node tells the text of its range. A type may extend the range, the names of a meta property are told by
    what stands around a point, and what has no rule tells what its parts are. -/
def Spelled (holder? : Option Holder) (fields : List (Key × Value)) : Prop :=
  (Fields.get? fields (.text "typeAnnotation")).isSome = true ∨
    (∃ type ∈ nameTypes, typeOf? fields = some type ∧ ∃ h ∈ metaHolders, holder? = some h) ∨
    S.Kept fields ∨ Spells S.source fields

/-- A record that lowering may make: one of those that are no nodes, or a node that tells its text and holds
    what lies in its range. Only the type of the parameter of a catch clause may lie outside of it. -/
inductive Sound : Option Holder → List (Key × Value) → Prop
  | bare {holder : Holder} {fields : List (Key × Value)} (holder_mem : holder ∈ bareHolders)
      (type?_eq : typeOf? fields = none) (start?_eq : startOf? fields = none) : Sound (some holder) fields
  | node {holder? : Option Holder} {type : Text} {start stop : Int} {rest : List (Key × Value)}
      (apart : Apart rest) (spelled : S.Spelled holder? (nodeFields type start stop rest))
      (nested : S.nests → ∀ f ∈ rest, (f.1 = .text "typeAnnotation" → holder? ≠ some caughtHolder) →
        ∀ o ∈ records none f.2, o.Within ⟨start, stop⟩) :
      Sound holder? (nodeFields type start stop rest)

/-- Records that are drawn from spans of a source, up to a limit. -/
structure Drawn (limit : Int) (spans : List Span) (os : List Occurrence) : Prop where
  sound : ∀ o ∈ os, S.Sound o.holder? o.fields
  ends : S.nests → ∀ o ∈ os, ∀ range, rangeOf? o.fields = some range → range.stop ≤ limit
  covered : S.nests → ∀ n ∈ starts os, ∃ span ∈ spans, span.start ≤ n ∧ n ≤ span.stop
  sorted : S.ordered → spans.Pairwise Span.Before → (starts os).Pairwise (· ≤ ·)

end Survey

section

variable {S : Survey} {holder? : Option Holder} {limit limit' : Int} {p q : List Span}
  {os os' : List Occurrence}

theorem spelled_of_untold {fields : List (Key × Value)} {type : Text}
    (htype : typeOf? fields = some type) (h : type ∉ tellingTypes) : S.Spelled holder? fields :=
  .inr (.inr (.inr (spells_of_untold htype h)))

/-- A node is sound wherever it stands. -/
theorem Survey.Sound.placed {fields : List (Key × Value)} (h : S.Sound none fields) : S.Sound holder? fields := by
  cases h with
  | node apart spelled nested =>
    refine .node apart ?_ fun hn f hf _ => nested hn f hf fun _ => by simp
    rcases spelled with h | ⟨_, _, _, _, _, h⟩ | h
    · exact .inl h
    · cases h
    · exact .inr (.inr h)

/-- A node that is held by a field at which nothing is looked is sound by itself. -/
theorem Survey.Sound.unplaced {type : Text} {key : Key} {fields : List (Key × Value)} (htype : type ∉ holdingTypes)
    (h : S.Sound (some ⟨type, key⟩) fields) : S.Sound none fields := by
  simp only [holdingTypes, List.mem_cons, List.not_mem_nil, or_false, not_or] at htype
  obtain ⟨hliteral, htemplate, hmeta, hcatch⟩ := htype
  generalize hholder : (some (⟨type, key⟩ : Holder)) = holder? at h
  cases h with
  | bare holder_mem =>
    cases hholder
    simp [bareHolders, hliteral, htemplate] at holder_mem
  | node apart spelled nested =>
    subst hholder
    refine .node apart ?_ fun hn f hf _ => nested hn f hf fun _ => by simp [caughtHolder, hcatch]
    rcases spelled with h | ⟨_, _, _, holder, hmem, heq⟩ | h
    · exact .inl h
    · cases heq
      simp [metaHolders, hmeta] at hmem
    · exact .inr (.inr h)

/-! ## Drawn records -/

namespace Survey.Drawn

theorem nil : S.Drawn limit p [] :=
  ⟨by simp, by simp, by simp, by simp⟩

theorem append (h : S.Drawn limit p os) (h' : S.Drawn limit q os') :
    S.Drawn limit (p ++ q) (os ++ os') := by
  refine ⟨?_, fun hn => ?_, fun hn => ?_, fun ho hp => ?_⟩
  · exact List.forall_mem_append.2 ⟨h.sound, h'.sound⟩
  · exact List.forall_mem_append.2 ⟨h.ends hn, h'.ends hn⟩
  · rw [starts_append]
    refine List.forall_mem_append.2 ⟨fun n hmem => ?_, fun n hmem => ?_⟩
    · obtain ⟨span, hspan, hin⟩ := h.covered hn n hmem
      exact ⟨span, List.mem_append_left _ hspan, hin⟩
    · obtain ⟨span, hspan, hin⟩ := h'.covered hn n hmem
      exact ⟨span, List.mem_append_right _ hspan, hin⟩
  · obtain ⟨hleft, hright, hacross⟩ := List.pairwise_append.1 hp
    rw [starts_append]
    refine List.pairwise_append.2 ⟨h.sorted ho hleft, h'.sorted ho hright, fun m hm n hmem => ?_⟩
    have hn := S.nests_of_ordered ho
    obtain ⟨a, ha, -, hma⟩ := h.covered hn m hm
    obtain ⟨b, hb, hbn, -⟩ := h'.covered hn n hmem
    exact Int.le_trans hma (Int.le_trans (hacross a ha b hb) hbn)

/-- What is drawn from stretches is drawn from stretches around them. -/
theorem coarsen (h : S.Drawn limit p os) (hin : S.nests → ∀ a ∈ p, ∃ b ∈ q, a.Inside b)
    (hord : S.ordered → q.Pairwise Span.Before → p.Pairwise Span.Before) : S.Drawn limit q os := by
  refine ⟨h.sound, h.ends, fun hn n hmem => ?_, fun ho hq => h.sorted ho (hord ho hq)⟩
  obtain ⟨a, ha, hstart, hstop⟩ := h.covered hn n hmem
  obtain ⟨b, hb, hab⟩ := hin hn a ha
  exact ⟨b, hb, Int.le_trans hab.1 hstart, Int.le_trans hstop hab.2⟩

/-- Records that are drawn from some spans are drawn from more of them. -/
theorem weaken (h : S.Drawn limit p os) (hsub : p.Sublist q) : S.Drawn limit q os :=
  h.coarsen (fun _ a ha => ⟨a, hsub.subset ha, Int.le_refl _, Int.le_refl _⟩) fun _ hq => hq.sublist hsub

theorem raise (h : S.Drawn limit p os) (hle : S.nests → limit ≤ limit') : S.Drawn limit' p os :=
  ⟨h.sound, fun hn o ho range hrange => Int.le_trans (h.ends hn o ho range hrange) (hle hn),
    h.covered, h.sorted⟩

/-- Sound records that are among those that are drawn are drawn, if they start in the same order. -/
theorem among (h : S.Drawn limit p os) (hsound : ∀ o ∈ os', S.Sound o.holder? o.fields)
    (hmem : ∀ o ∈ os', o.fields ∈ os.map Occurrence.fields)
    (hstarts : S.ordered → (starts os').Sublist (starts os)) : S.Drawn limit p os' := by
  refine ⟨hsound, fun hn o ho => ?_, fun hn n hn' => ?_, fun ho hp => (h.sorted ho hp).sublist (hstarts ho)⟩
  · obtain ⟨o', ho', heq⟩ := List.mem_map.1 (hmem o ho)
    exact heq ▸ h.ends hn o' ho'
  · obtain ⟨o, ho, hstart⟩ := mem_starts.1 hn'
    obtain ⟨o', ho', heq⟩ := List.mem_map.1 (hmem o ho)
    exact h.covered hn n (mem_starts.2 ⟨o', ho', heq ▸ hstart⟩)

theorem restrict (h : S.Drawn limit p os) (hsub : os' ⊆ os)
    (hstarts : S.ordered → (starts os').Sublist (starts os)) : S.Drawn limit p os' :=
  h.among (fun o ho => h.sound o (hsub ho)) (fun _ ho => List.mem_map_of_mem (hsub ho)) hstarts

theorem sublist (h : S.Drawn limit p os) (hsub : os'.Sublist os) : S.Drawn limit p os' :=
  h.restrict hsub.subset fun _ => hsub.filterMap _

/-- A record before others that start later. -/
theorem cons (h : S.Drawn limit p os) {fields : List (Key × Value)} {range : Span}
    (hsound : S.Sound holder? fields) (hrange : rangeOf? fields = some range)
    (hstop : S.nests → range.stop ≤ limit)
    (hstart : S.nests → ∃ span ∈ p, span.start ≤ range.start ∧ range.start ≤ span.stop)
    (hfirst : S.ordered → p.Pairwise Span.Before → ∀ n ∈ starts os, range.start ≤ n) :
    S.Drawn limit p (⟨holder?, fields⟩ :: os) := by
  have hstarts : starts (⟨holder?, fields⟩ :: os) = range.start :: starts os := by
    exact List.filterMap_cons_some (Value.startOf?_of_rangeOf? hrange)
  refine ⟨List.forall_mem_cons.2 ⟨hsound, h.sound⟩,
    fun hn => List.forall_mem_cons.2 ⟨fun r hr => ?_, h.ends hn⟩, fun hn => ?_, fun ho hp => ?_⟩
  · rw [hrange] at hr
    cases hr
    exact hstop hn
  · rw [hstarts]
    exact List.forall_mem_cons.2 ⟨hstart hn, h.covered hn⟩
  · rw [hstarts]
    exact List.pairwise_cons.2 ⟨hfirst ho hp, h.sorted ho hp⟩

/-- What is drawn from spans inside a stretch is drawn from the stretch. -/
theorem gather (h : S.Drawn limit p os) {span : Span}
    (hin : S.nests → ∀ s ∈ p, s.Inside span) (hord : S.ordered → p.Pairwise Span.Before) :
    S.Drawn limit [span] os :=
  h.coarsen (fun hn s hs => ⟨span, List.mem_singleton_self _, hin hn s hs⟩) fun ho _ => hord ho

/-- Only the soundness of records depends on what holds them. -/
theorem of_map_fields (h : S.Drawn limit p os) (hmap : os'.map Occurrence.fields = os.map Occurrence.fields)
    (hsound : ∀ o ∈ os', S.Sound o.holder? o.fields) : S.Drawn limit p os' := by
  refine h.among hsound (fun o ho => hmap ▸ List.mem_map_of_mem ho) fun _ => ?_
  rw [starts_eq, starts_eq, hmap]

/-- What a value holds may be held anywhere. -/
theorem placed {v : Value} (h : S.Drawn limit p (records none v)) :
    S.Drawn limit p (records holder? v) := by
  refine h.of_map_fields (Value.map_fields_records holder? v) fun o ho => ?_
  rcases Value.mem_records holder? ho with ho | ⟨ho, heq⟩
  · exact h.sound o ho
  · exact (h.sound _ ho).placed

theorem placedIn {type? : Option Text} {fields : List (Key × Value)}
    (h : S.Drawn limit p (recordsOfFields none fields)) :
    S.Drawn limit p (recordsOfFields type? fields) := by
  refine h.of_map_fields (Value.map_fields_recordsOfFields type? fields) fun o ho => ?_
  obtain ⟨f, hf, ho⟩ := (Value.mem_recordsOfFields type?).1 ho
  rcases Value.mem_records _ ho with ho | ⟨ho, heq⟩
  · exact h.sound o ((Value.mem_recordsOfFields none).2 ⟨f, hf, ho⟩)
  · exact (h.sound _ ((Value.mem_recordsOfFields none).2 ⟨f, hf, ho⟩)).placed

/-- What a node holds in fields at which nothing is looked may be held anywhere. -/
theorem unplacedIn {type : Text} {fields : List (Key × Value)} (htype : type ∉ holdingTypes)
    (h : S.Drawn limit p (recordsOfFields (some type) fields)) :
    S.Drawn limit p (recordsOfFields none fields) := by
  refine h.of_map_fields (Value.map_fields_recordsOfFields (some type) fields).symm fun o ho => ?_
  obtain ⟨⟨key, v⟩, hf, ho⟩ := (Value.mem_recordsOfFields none).1 ho
  have hsound : ∀ o ∈ records (some ⟨type, key⟩) v, S.Sound o.holder? o.fields := fun o ho =>
    h.sound o ((Value.mem_recordsOfFields (some type)).2 ⟨(key, v), hf, ho⟩)
  cases v with
  | record fields =>
    obtain ⟨hhead, htail⟩ := List.forall_mem_cons.1 hsound
    rcases List.mem_cons.1 ho with rfl | ho
    · exact hhead.unplaced htype
    · exact htail o ho
  | _ => exact hsound o ho

/-- What the elements of a list hold, the list holds. -/
theorem list {items : List Value} (h : S.Drawn limit p (recordsOfItems items)) :
    S.Drawn limit p (records holder? (.list items)) := h

/-- A field more of a node. -/
theorem field {type : Text} {name : String} {v : Value} {fields : List (String × Value)}
    (hv : S.Drawn limit p (records (some ⟨type, .text name⟩) v))
    (h : S.Drawn limit q (recordsOfFields (some type) (namedFields fields))) :
    S.Drawn limit (p ++ q) (recordsOfFields (some type) (namedFields ((name, v) :: fields))) :=
  hv.append h

/-- A field that holds a scalar holds no record. -/
theorem flat {type : Text} {name : String} {c : Scalar} {fields : List (String × Value)}
    (h : S.Drawn limit p (recordsOfFields (some type) (namedFields fields))) :
    S.Drawn limit p (recordsOfFields (some type) (namedFields ((name, .scalar c) :: fields))) := h

/-- The last field of a node. -/
theorem last {type : Text} {name : String} {v : Value}
    (hv : S.Drawn limit p (records (some ⟨type, .text name⟩) v)) :
    S.Drawn limit p (recordsOfFields (some type) (namedFields [(name, v)])) := by
  show S.Drawn limit p (records _ v ++ [])
  rwa [List.append_nil]

end Survey.Drawn

/-! ## Nodes -/

/-- A node is drawn from its range if what it holds is drawn from inside of it. Since a node starts where it
    starts, the range may be cut after all that it holds. -/
theorem drawn_node {type : Text} {start stop reach : Int} {rest : List (Key × Value)} (hapart : Apart rest)
    (hspelled : S.Spelled holder? (nodeFields type start stop rest))
    (hrest : S.Drawn stop p (recordsOfFields (some type) rest))
    (hin : S.nests → start ≤ reach ∧ ∀ s ∈ p, s.Inside ⟨start, reach⟩)
    (hord : S.ordered → p.Pairwise Span.Before) :
    S.Drawn stop [⟨start, reach⟩] (records holder? (.record (nodeFields type start stop rest))) := by
  have hbelow : S.Drawn stop [⟨start, reach⟩] (recordsOfFields (some type) rest) :=
    hrest.gather (fun hn => (hin hn).2) hord
  have hafter : S.nests → ∀ n ∈ starts (recordsOfFields (some type) rest), start ≤ n := by
    intro hn n hmem
    obtain ⟨s, hs, hle, -⟩ := hbelow.covered hn n hmem
    rw [List.mem_singleton.1 hs] at hle
    exact hle
  rw [Value.records_nodeFields]
  refine hbelow.cons (.node hapart hspelled fun hn f hf _ o ho range hrange => ?_) rfl
    (fun _ => Int.le_refl _) (fun hn => ⟨_, List.mem_singleton_self _, Int.le_refl _, (hin hn).1⟩)
    fun ho _ => hafter (S.nests_of_ordered ho)
  obtain ⟨o', ho', heq⟩ := Value.fields_mem_recordsOfFields (some type) hf ho
  rw [← heq] at hrange
  exact ⟨hafter hn _ (mem_starts.2 ⟨o', ho', Value.startOf?_of_rangeOf? hrange⟩),
    hrest.ends hn o' ho' range hrange⟩

/-- A record that is no node is drawn from anywhere. -/
theorem drawn_bare {holder : Holder} (hmem : holder ∈ bareHolders) {fields : List (Key × Value)}
    (htype : typeOf? fields = none) (hstart : startOf? fields = none) (hflat : recordsOfFields none fields = []) :
    S.Drawn limit p (records (some holder) (.record fields)) := by
  have hstarts : starts [(⟨some holder, fields⟩ : Occurrence)] = [] := by
    simp [starts, hstart]
  rw [Value.records_record, htype, hflat]
  refine ⟨List.forall_mem_singleton.2 (.bare hmem htype hstart), fun _ => List.forall_mem_singleton.2 fun range h => ?_,
    fun _ n hn => ?_, fun _ _ => ?_⟩
  · rw [Value.startOf?_of_rangeOf? h] at hstart
    cases hstart
  · rw [hstarts] at hn
    cases hn
  · rw [hstarts]
    exact .nil

/-! ## Fields that are stored in nodes -/

/-- A node stays drawn when a field is stored in it: a new one after the others, or one without records. -/
theorem drawn_set {type : Text} {start stop stop' : Int} {rest : List (Key × Value)} {key : Key} {w : Value}
    (hnode : S.Drawn limit p (records none (.record (nodeFields type start stop rest))))
    (hw : S.Drawn limit q (records none w))
    (hsound : S.Sound holder? (nodeFields type start stop' (Fields.set rest key w)))
    (hlimit : S.nests → stop' ≤ limit)
    (hnew : S.ordered → Fields.get? rest key = none ∨ records none w = []) :
    S.Drawn limit (p ++ q)
      (records holder? (.record (nodeFields type start stop' (Fields.set rest key w)))) := by
  have hboth := hnode.append hw
  rw [Value.records_nodeFields, List.cons_append] at hboth
  obtain ⟨pre, post, hset, hsub, hlast⟩ := Fields.exists_set_eq rest key w
  have hrecords : recordsOfFields (some type) (Fields.set rest key w) =
      recordsOfFields (some type) pre ++ (records (some ⟨type, key⟩) w ++ recordsOfFields (some type) post) := by
    rw [hset, Value.recordsOfFields_append]
    rfl
  have hw_fields := Value.map_fields_records (some ⟨type, key⟩) w
  have hw_starts : starts (records (some ⟨type, key⟩) w) = starts (records none w) := by
    rw [starts_eq, starts_eq, hw_fields]
  have hold := Value.recordsOfFields_sublist (some type) hsub
  rw [Value.recordsOfFields_append] at hold
  have hmem : ∀ o ∈ recordsOfFields (some type) (Fields.set rest key w),
      o.fields ∈ (recordsOfFields (some type) rest ++ records none w).map Occurrence.fields := by
    intro o ho
    rw [hrecords, List.mem_append, List.mem_append] at ho
    rw [List.map_append, ← hw_fields]
    rcases ho with ho | ho | ho
    · exact List.mem_append_left _ (List.mem_map_of_mem (hold.subset (List.mem_append_left _ ho)))
    · exact List.mem_append_right _ (List.mem_map_of_mem ho)
    · exact List.mem_append_left _ (List.mem_map_of_mem (hold.subset (List.mem_append_right _ ho)))
  have hbelow : S.Drawn limit (p ++ q) (recordsOfFields (some type) (Fields.set rest key w)) := by
    refine (hboth.sublist (List.sublist_cons_self _ _)).among ?_ hmem fun ho => ?_
    · have hrest := (hnode.sublist (List.sublist_cons_self _ _)).sublist hold
      rw [hrecords]
      simp only [List.forall_mem_append]
      exact ⟨fun o ho => hrest.sound o (List.mem_append_left _ ho), hw.placed.sound,
        fun o ho => hrest.sound o (List.mem_append_right _ ho)⟩
    · rw [hrecords]
      simp only [starts_append, hw_starts]
      rcases hnew ho with hnone | hempty
      · obtain ⟨rfl, rfl⟩ := hlast ((Fields.get?_eq_none_iff rest key).1 hnone)
        simp
      · rw [hempty, starts_nil, List.nil_append, List.append_nil, ← starts_append]
        exact hold.filterMap _
  rw [Value.records_nodeFields]
  refine hbelow.cons hsound rfl hlimit (fun hn => ?_) fun ho hp n hn => ?_
  · exact hboth.covered hn start (mem_starts.2 ⟨_, List.mem_cons_self .., rfl⟩)
  · obtain ⟨o, ho', hstart⟩ := mem_starts.1 hn
    obtain ⟨o', ho', heq⟩ := List.mem_map.1 (hmem o ho')
    have hsorted : (start :: starts (recordsOfFields (some type) rest ++ records none w)).Pairwise (· ≤ ·) :=
      hboth.sorted ho hp
    exact List.rel_of_pairwise_cons hsorted (mem_starts.2 ⟨o', ho', heq ▸ hstart⟩)

/-- What a node is that is sound by itself. -/
theorem Survey.Sound.exists_eq {fields : List (Key × Value)} (h : S.Sound none fields) :
    ∃ type start stop rest, fields = nodeFields type start stop rest ∧ Apart rest ∧
      S.Spelled none (nodeFields type start stop rest) ∧
      (S.nests → ∀ f ∈ rest, ∀ o ∈ records none f.2, o.Within ⟨start, stop⟩) := by
  cases h with
  | node apart spelled nested =>
    exact ⟨_, _, _, _, rfl, apart, spelled, fun hn f hf => nested hn f hf fun _ => by simp⟩

/-- What a record is that is drawn by itself. -/
theorem Survey.Drawn.exists_eq {fields : List (Key × Value)}
    (h : S.Drawn limit p (records none (.record fields))) :
    ∃ type start stop rest, fields = nodeFields type start stop rest ∧ Apart rest ∧
      S.Spelled none (nodeFields type start stop rest) ∧
      (S.nests → ∀ f ∈ rest, ∀ o ∈ records none f.2, o.Within ⟨start, stop⟩) :=
  (h.sound _ (List.mem_cons_self ..)).exists_eq

/-- A node tells its text also after a field has been stored that tells nothing. -/
theorem spelled_set {type : Text} {start stop : Int} {rest : List (Key × Value)} {key : Key} {v : Value}
    (h : S.Spelled holder? (nodeFields type start stop rest)) (hhead : key ∉ headKeys)
    (hkey : key ∉ tellingKeys) :
    S.Spelled holder? (nodeFields type start stop (Fields.set rest key v)) := by
  have htyped : key ≠ .text "typeAnnotation" := by
    rintro rfl
    exact hkey (by decide)
  rcases h with h | ⟨type', hname, htype, h⟩ | ⟨t, hknown, hlookup, hname, rest', hparted, heq⟩ | h
  · left
    rwa [← Value.set_nodeFields _ _ _ _ hhead, Fields.get?_set_of_ne _ _ htyped]
  · exact .inr (.inl ⟨type', hname, htype, h⟩)
  · cases heq
    refine .inr (.inr (.inl ⟨t, hknown, hlookup, hname, _, hparted.set ?_ v, rfl⟩))
    exact fun hmem => hkey (partKeys_subset _ hmem)
  · refine .inr (.inr (.inr fun text? htext => ?_))
    rw [← Value.set_nodeFields _ _ _ _ hhead, told?_set v hhead hkey] at htext
    exact h text? htext

/-- A scalar that tells nothing may be stored in a node. -/
theorem drawn_flag {fields : List (Key × Value)} {key : Key}
    (h : S.Drawn limit p (records none (.record fields))) (hhead : key ∉ headKeys)
    (hkey : key ∉ tellingKeys) (c : Scalar) :
    S.Drawn limit p (records none (.record (Fields.set fields key (.scalar c)))) := by
  obtain ⟨type, start, stop, rest, rfl, apart, spelled, nested⟩ := h.exists_eq
  rw [Value.set_nodeFields _ _ _ _ hhead]
  have hsound : S.Sound none (nodeFields type start stop (Fields.set rest key (.scalar c))) := by
    refine .node (apart.set hhead _) (spelled_set spelled hhead hkey) fun hn f hf _ o ho => ?_
    rcases Fields.mem_set hf with rfl | hf
    · cases ho
    · exact nested hn f hf o ho
  have hset := drawn_set (q := []) h .nil hsound
    (fun hn => h.ends hn _ (List.mem_cons_self ..) _ rfl) fun _ => .inr rfl
  rwa [List.append_nil] at hset

theorem typeAnnotation_not_mem_headKeys : (.text "typeAnnotation" : Key) ∉ headKeys := by decide

theorem get?_typeAnnotation_set (type : Text) (start stop : Int) (rest : List (Key × Value)) (w : Value) :
    (Fields.get? (nodeFields type start stop (Fields.set rest (.text "typeAnnotation") w))
      (.text "typeAnnotation")).isSome = true := by
  rw [Value.get?_nodeFields _ _ _ _ typeAnnotation_not_mem_headKeys, Fields.get?_set_self]
  rfl

/-- A pattern takes up a type that stands after it, and its range then ends with the type. -/
theorem drawn_typed {fields : List (Key × Value)} {w : Value} {n t : Token}
    (hp : S.Drawn n.stop [n.span] (records none (.record fields)))
    (hw : S.Drawn t.stop [t.span] (records none w))
    (hafter : S.nests → n.stop ≤ t.start ∧ t.start ≤ t.stop)
    (hnew : S.ordered → Fields.get? fields (.text "typeAnnotation") = none) :
    S.Drawn t.stop [n.span, t.span] (records none (.record
      (Fields.set (Fields.set fields (.text "typeAnnotation") w) (.text "end") (.int t.stop)))) := by
  obtain ⟨type, start, stop, rest, rfl, apart, spelled, nested⟩ := hp.exists_eq
  rw [Value.set_nodeFields _ _ _ _ typeAnnotation_not_mem_headKeys, Value.set_nodeFields_end]
  rw [Value.get?_nodeFields _ _ _ _ typeAnnotation_not_mem_headKeys] at hnew
  have hle : S.nests → n.stop ≤ t.stop := fun hn => Nat.le_trans (hafter hn).1 (hafter hn).2
  have hstart : S.nests → start ≤ n.stop := fun hn => by
    obtain ⟨s, hs, -, h⟩ := hp.covered hn start (mem_starts.2 ⟨_, List.mem_cons_self .., rfl⟩)
    rwa [List.mem_singleton.1 hs] at h
  have hstop : S.nests → stop ≤ n.stop := fun hn => hp.ends hn _ (List.mem_cons_self ..) _ rfl
  refine drawn_set (hp.raise fun hn => by exact_mod_cast hle hn) hw ?_ (fun _ => Int.le_refl _)
    fun ho => .inl (hnew ho)
  refine .node (apart.set typeAnnotation_not_mem_headKeys _)
    (.inl (get?_typeAnnotation_set type start t.stop rest w)) fun hn f hf _ o ho range hrange => ?_
  have hafter := hafter hn
  have hstart := hstart hn
  have hstop := hstop hn
  rcases Fields.mem_set hf with rfl | hf
  · -- the type lies after the pattern
    obtain ⟨s, hs, hcovered, -⟩ :=
      hw.covered hn range.start (mem_starts.2 ⟨o, ho, Value.startOf?_of_rangeOf? hrange⟩)
    rw [List.mem_singleton.1 hs] at hcovered
    have hbefore : (n.stop : Int) ≤ t.span.start := Int.ofNat_le.2 hafter.1
    exact ⟨Int.le_trans hstart (Int.le_trans hbefore hcovered), hw.ends hn o ho range hrange⟩
  · obtain ⟨hs, he⟩ := nested hn f hf o ho range hrange
    have hle : (n.stop : Int) ≤ t.stop := by exact_mod_cast hle hn
    exact ⟨hs, Int.le_trans he (Int.le_trans hstop hle)⟩

/-- The parameter of a catch clause takes up a type and keeps its range. -/
theorem drawn_caught {fields : List (Key × Value)} {w : Value}
    (hp : S.Drawn limit p (records none (.record fields)))
    (hw : S.Drawn limit q (records none w))
    (hnew : S.ordered → Fields.get? fields (.text "typeAnnotation") = none) :
    S.Drawn limit (p ++ q) (records (some caughtHolder)
      (.record (Fields.set fields (.text "typeAnnotation") w))) := by
  obtain ⟨type, start, stop, rest, rfl, apart, spelled, nested⟩ := hp.exists_eq
  rw [Value.set_nodeFields _ _ _ _ typeAnnotation_not_mem_headKeys]
  rw [Value.get?_nodeFields _ _ _ _ typeAnnotation_not_mem_headKeys] at hnew
  refine drawn_set hp hw ?_ (fun hn => hp.ends hn _ (List.mem_cons_self ..) _ rfl) fun ho => .inl (hnew ho)
  refine .node (apart.set typeAnnotation_not_mem_headKeys _)
    (.inl (get?_typeAnnotation_set type start stop rest w)) fun hn f hf hother => ?_
  rcases Fields.mem_set hf with rfl | hf
  · exact absurd rfl (hother rfl)
  · exact nested hn f hf

/-- A node of another type holds the same, if nothing is looked at in the fields of either type. -/
theorem drawn_retyped {fields : List (Key × Value)} {type type' : Text}
    (h : S.Drawn limit p (records none (.record fields))) (htype : typeOf? fields = some type)
    (hplain : type ∉ holdingTypes) (huntold : type' ∉ tellingTypes) :
    S.Drawn limit p (records none (.record (Fields.set fields (.text "type") (.text type')))) := by
  obtain ⟨type, start, stop, rest, rfl, apart, -, nested⟩ := h.exists_eq
  cases htype
  rw [Value.set_nodeFields_type]
  rw [Value.records_nodeFields] at h ⊢
  have hbelow : S.Drawn limit p (recordsOfFields (some type') rest) :=
    ((h.sublist (List.sublist_cons_self _ _)).unplacedIn hplain).placedIn
  refine hbelow.cons (.node apart (spelled_of_untold rfl huntold) fun hn f hf _ => nested hn f hf) rfl
    (fun hn => h.ends hn _ (List.mem_cons_self ..) _ rfl)
    (fun hn => h.covered hn start (mem_starts.2 ⟨_, List.mem_cons_self .., rfl⟩)) fun ho hp => ?_
  have hsorted : (start :: starts (recordsOfFields (some type) rest)).Pairwise (· ≤ ·) := h.sorted ho hp
  rw [starts_eq, Value.map_fields_recordsOfFields, ← Value.map_fields_recordsOfFields (some type), ← starts_eq]
  exact fun n => List.rel_of_pairwise_cons hsorted

end

end Lowering

end Arbor
