import Arbor.Proofs.Lowering.Kept
import Arbor.Proofs.Lowering.Patterns
import Arbor.Proofs.Value.Grouping

set_option autoImplicit false

/-! # What a node without a rule gathers

A node of a kind without a rule keeps what its parts become, each part under the name of its field, and neither
loses nor repeats any of it (`lower_gathered`). A field with one part holds what it becomes, and a field with several
parts a list, in order. This supposes that of several parts of a field the first does not itself become a list, for
the others would be put into that one (`Sample.lower_merged`). The trees of the grammars have no such parts
(`KeptPart.separate_of_grammatical`). -/

namespace Arbor

open Lowering (addToField genericKey genericType lower lowered ruleOf)
open Value (nodeFields)

/-- What a part of a node becomes, with the field that holds it. -/
abbrev KeptPart := Option String × Value

namespace KeptPart

/-- The parts under fields, with the keys under which they are kept. -/
def named (kept : List KeptPart) : List (Key × Value) :=
  kept.filterMap fun e => e.1.map fun field => (.text (genericKey field), e.2)

/-- The parts without a field. -/
def unnamed (kept : List KeptPart) : List Value :=
  kept.filterMap fun e => if e.1.isNone then some e.2 else none

/-- What a field holds: a single value as it is, and several in a list. -/
def slot : List Value → Value
  | [v] => v
  | vs => .list vs

/-- The fields for parts under fields, each where its first part stands. -/
def fields (entries : List (Key × Value)) : List (Key × Value) :=
  (groupKeys entries).map fun key => (key, slot (group entries key))

/-- The field for the parts without a field, if there are any. -/
def children : List Value → List (Key × Value)
  | [] => []
  | vs => [(.text "children", .list vs)]

/-- Of several parts under one name the first does not become a list. -/
def Separate (entries : List (Key × Value)) : Prop :=
  ∀ key v w rest, group entries key = v :: w :: rest → ∀ items, v ≠ .list items

/-- Parts are separate if none of them becomes a list. -/
theorem separate_of_forall {kept : List KeptPart} (h : ∀ e ∈ kept, ∀ items, e.2 ≠ .list items) :
    Separate (named kept) := by
  intro key v w rest hgroup
  obtain ⟨e, he, heq⟩ := List.mem_filterMap.1 (mem_of_mem_group (hgroup ▸ List.mem_cons_self ..))
  obtain ⟨field, -, hpair⟩ := Option.map_eq_some_iff.1 heq
  obtain rfl : e.2 = v := congrArg Prod.snd hpair
  exact h e he

theorem Separate.of_concat {entries : List (Key × Value)} {e : Key × Value} (h : Separate (entries ++ [e])) :
    Separate entries := by
  intro key v w rest hgroup
  obtain ⟨key', x⟩ := e
  by_cases hkey : key' = key
  · exact h key v w (rest ++ [x]) (by rw [group_concat, if_pos hkey, hgroup]; rfl)
  · exact h key v w rest (by rw [group_concat, if_neg hkey, hgroup])

/-- What the parts of a node become is either under a name or without one. -/
theorem perm_named_unnamed (kept : List KeptPart) :
    ((named kept).map Prod.snd ++ unnamed kept).Perm (kept.map Prod.snd) := by
  induction kept with
  | nil => exact .refl _
  | cons e rest ih =>
    obtain ⟨field?, v⟩ := e
    cases field? with
    | none => exact List.perm_middle.trans (ih.cons v)
    | some field => exact ih.cons v

/-! ## Adding one part -/

/-- What a field holds after a value has been added to what it held before. -/
def joined (held? : Option Value) (w : Value) : Value :=
  match held? with
  | none => w
  | some (.list items) => .list (items ++ [w])
  | some other => .list [other, w]

theorem addToField_eq (fs : List (Key × Value)) (name : Text) (w : Value) :
    addToField fs name w = Fields.set fs (.text name) (joined (Fields.get? fs (.text name)) w) := rfl

theorem joined_slot {vs : List Value} (h : ∀ v, vs = [v] → ∀ items, v ≠ .list items) (w : Value) :
    joined (if vs = [] then none else some (slot vs)) w = slot (vs ++ [w]) := by
  match vs with
  | [] => rfl
  | [v] =>
    cases v with
    | list items => exact absurd rfl (h _ rfl items)
    | scalar s => rfl
    | record fields => rfl
  | v :: v' :: rest => rfl

theorem addToField_fields {entries : List (Key × Value)} {name : Text} {v : Value}
    (h : Separate (entries ++ [(.text name, v)])) :
    addToField (fields entries) name v = fields (entries ++ [(.text name, v)]) := by
  have hheld : Fields.get? (fields entries) (.text name) =
      if group entries (.text name) = [] then none else some (slot (group entries (.text name))) := by
    rw [fields, Fields.get?_map]
    simp only [group_eq_nil_iff, ite_not]
  have hfirst : ∀ w, group entries (.text name) = [w] → ∀ items, w ≠ .list items :=
    fun w hw => h (.text name) w v [] (by rw [group_concat, if_pos rfl, hw]; rfl)
  have hgroup : group (entries ++ [(.text name, v)]) (.text name) = group entries (.text name) ++ [v] := by
    rw [group_concat, if_pos rfl]
  rw [addToField_eq, hheld, joined_slot hfirst, ← hgroup, fields, fields, groupKeys_concat]
  refine Fields.set_map (g := fun key => slot (group (entries ++ [(.text name, v)]) key))
    (nodup_eraseDups _) fun key hkey => ?_
  rw [group_concat, if_neg (Ne.symm hkey)]

/-- A part that is added to the fields of a node. -/
def addTo (fs : List (Key × Value)) (e : KeptPart) : List (Key × Value) :=
  match e.1 with
  | none => fs
  | some field => addToField fs (genericKey field) e.2

theorem foldl_addTo {type : Text} {start stop : Int} {kept : List KeptPart} (h : Separate (named kept)) :
    kept.foldl addTo (nodeFields type start stop []) = nodeFields type start stop (fields (named kept)) := by
  induction kept using List.reverseRecOn with
  | nil => rfl
  | append_singleton kept e ih =>
    obtain ⟨field?, v⟩ := e
    rw [List.foldl_append, List.foldl_cons, List.foldl_nil]
    cases field? with
    | none =>
      have hnamed : named (kept ++ [(none, v)]) = named kept := by simp [named]
      rw [hnamed] at h ⊢
      exact ih h
    | some field =>
      have hnamed : named (kept ++ [(some field, v)]) = named kept ++ [(.text (genericKey field), v)] := by
        simp [named]
      rw [hnamed] at h ⊢
      rw [ih h.of_concat, ← addToField_fields h]
      exact Lowering.addToField_nodeFields _ _ _ (Lowering.genericKey_not_mem_headKeys field) v

end KeptPart

namespace Lowering

open Value (headKeys)

/-! ## Adding all parts -/

/-- What several trees become, each with the field that holds it, without those that become nothing. -/
def keptOf (source : Source) (parent? : Option String) : List Cst → Except Fault (List KeptPart)
  | [] => .ok []
  | c :: rest => do
    let v ← lower source parent? c
    (keptOf source parent? rest).map fun kept =>
      if v.isNull then kept else (c.token.field?, v) :: kept

theorem genericFields_lowered (source : Source) (parent? : Option String) (parts : List Cst)
    (fs : List (Key × Value)) (unnamed : List Value) :
    genericFields fs unnamed (parts.map (lowered source parent?)) =
      (keptOf source parent? parts).map fun kept =>
        (kept.foldl KeptPart.addTo fs, unnamed ++ KeptPart.unnamed kept) := by
  induction parts generalizing fs unnamed with
  | nil => simp [genericFields, keptOf, KeptPart.unnamed, Except.map]
  | cons c rest ih =>
    have hvalue : (lowered source parent? c).value = lower source parent? c := rfl
    rw [List.map_cons, genericFields, keptOf, token_lowered, hvalue]
    cases lower source parent? c with
    | error f => rfl
    | ok v =>
      have hbind {α : Type} (f : Value → Except Fault α) : (Except.ok v >>= f) = f v := rfl
      rw [hbind, hbind]
      cases hnull : v.isNull with
      | true =>
        rw [if_pos rfl, ih]
        cases keptOf source parent? rest <;> rfl
      | false =>
        rw [if_neg Bool.false_ne_true]
        -- the part goes to its field, or behind the others without one
        cases c.token.field? <;> simp only [ih] <;>
          cases keptOf source parent? rest <;> simp [Except.map, KeptPart.unnamed, KeptPart.addTo]

variable {source : Source} {t : Cst}

/-- What the parts of a node become, each with the field that holds it, without those that become nothing. -/
def keptParts (source : Source) (t : Cst) : Except Fault (List KeptPart) := keptOf source (some t.kind) t.parts

/-- A node of a kind without a rule keeps its parts, unless it is left out itself. -/
theorem lower_eq_genericOf (hkind : ruleOf t.kind = .generic) (hskip : t.token.isSkipped = false)
    (parent? : Option String) : lower source parent? t = genericOf source (siteOf source t) := by
  cases t with
  | node token note children =>
    have hskip : token.isSkipped = false := hskip
    have hkind : ruleOf token.kind = .generic := hkind
    rw [lower, lowered, Branch.value, Tree.note_node, loweredAll_eq, readingOf, hskip]
    change (ruleOf token.kind).lower source parent? _ = _
    rw [hkind]
    rfl

/-- What is kept is what a part becomes, under the field of the part. -/
theorem keptOf_lowered (parent? : Option String) (parts : List Cst) :
    IfOk (fun kept => ∀ e ∈ kept, ∃ c ∈ parts, c.token.field? = e.1 ∧ lower source parent? c = .ok e.2)
      (keptOf source parent? parts) := by
  induction parts with
  | nil => exact Yields.ok.2 (List.forall_mem_nil _)
  | cons c rest ih =>
    rw [keptOf]
    cases hvalue : lower source parent? c with
    | error f => trivial
    | ok v =>
      refine Yields.map ih fun kept hkept => ?_
      have hrest : ∀ e ∈ kept, ∃ c' ∈ c :: rest, c'.token.field? = e.1 ∧ lower source parent? c' = .ok e.2 :=
        fun e he => (hkept e he).imp fun c' hc' => ⟨List.mem_cons_of_mem _ hc'.1, hc'.2⟩
      split
      · exact hrest
      · exact List.forall_mem_cons.2 ⟨⟨c, List.mem_cons_self .., rfl, hvalue⟩, hrest⟩

/-- A key that no part has stays free. -/
theorem not_mem_keys_fields {kept : List KeptPart} (hkept : keptParts source t = .ok kept) {name : String}
    (hname : name ≠ "typeAnnotation") (h : ∀ c ∈ t.parts, c.token.field? ≠ some name) :
    (.text name : Key) ∉ Fields.keys (KeptPart.fields (KeptPart.named kept)) := by
  have hkeys : Fields.keys (KeptPart.fields (KeptPart.named kept)) = groupKeys (KeptPart.named kept) := by
    rw [Fields.keys, KeptPart.fields, List.map_map]
    exact List.map_id _
  rw [hkeys, groupKeys, List.mem_eraseDups, List.mem_map]
  rintro ⟨_, he, hkey⟩
  obtain ⟨e, hmem, heq⟩ := List.mem_filterMap.1 he
  obtain ⟨field, hfield, rfl⟩ := Option.map_eq_some_iff.1 heq
  obtain ⟨c, hc, hheld, -⟩ := (keptOf_lowered (some t.kind) t.parts).of_eq_ok hkept e hmem
  have hspelled : genericKey field = name := Scalar.text.inj hkey
  unfold genericKey at hspelled
  split at hspelled
  · exact hname (Text.ofString_inj.1 hspelled).symm
  · obtain rfl : field = name := Text.ofString_inj.1 hspelled
    exact h c hc (hheld.trans hfield)

/-- The fields of a node without a rule, beside its type and its range. -/
def partFields (source : Source) (t : Cst) (kept : List KeptPart) : List (Key × Value) :=
  if t.parts = [] then [(.text "raw", .text (t.token.text source))]
  else KeptPart.fields (KeptPart.named kept) ++ KeptPart.children (KeptPart.unnamed kept)

/-- The text of a node is among its fields only if there are no parts. -/
theorem get?_raw_partFields {kept : List KeptPart} (hkept : keptParts source t = .ok kept)
    (hfields : ∀ c ∈ t.parts, c.token.field? ≠ some "raw") :
    (Fields.get? (partFields source t kept) (.text "raw")).isSome ↔ t.parts = [] := by
  rw [partFields]
  by_cases hparts : t.parts = []
  · simp [hparts, Fields.get?_cons]
  · have hfree := not_mem_keys_fields hkept (show "raw" ≠ "typeAnnotation" by decide) hfields
    have hnone : Fields.get? (KeptPart.fields (KeptPart.named kept) ++ KeptPart.children (KeptPart.unnamed kept))
        (.text "raw") = none := by
      rw [Fields.get?_eq_none_iff, Fields.keys, List.map_append, List.mem_append, not_or]
      refine ⟨hfree, ?_⟩
      cases KeptPart.unnamed kept with
      | nil => exact List.not_mem_nil
      | cons v rest => exact (by decide : (.text "raw" : Key) ∉ [(.text "children" : Key)])
    rw [if_neg hparts, hnone]
    exact iff_of_false Bool.false_ne_true hparts

/-- The parts are kept, unless one of them would take the place of those without a field, or would be put into a
    list that another has become. -/
theorem genericOf_siteOf
    (hfields : ∀ c ∈ t.parts, c.token.field? ≠ some "children")
    (hseparate : ∀ kept, keptParts source t = .ok kept → KeptPart.Separate (KeptPart.named kept)) :
    genericOf source (siteOf source t) = (keptParts source t).map fun kept =>
      .record (nodeFields (genericType t.kind) t.token.start t.token.stop (partFields source t kept)) := by
  unfold genericOf partFields
  rw [parts_siteOf, List.isEmpty_map]
  by_cases hparts : t.parts = []
  · rw [keptParts, hparts]
    rfl
  · have hempty : t.parts.isEmpty = false := by rwa [List.isEmpty_eq_false_iff]
    have hgather := genericFields_lowered source (some t.kind) t.parts
      (nodeFields (genericType t.kind) t.token.start t.token.stop []) []
    dsimp only
    rw [hempty, if_neg Bool.false_ne_true]
    change (genericFields (nodeFields (genericType t.kind) t.token.start t.token.stop []) [] _ >>= _) = _
    rw [hgather, ← keptParts]
    cases hkept : keptParts source t with
    | error f => rfl
    | ok kept =>
      have hfree := not_mem_keys_fields hkept (show "children" ≠ "typeAnnotation" by decide) hfields
      change Except.ok (Value.record (if (KeptPart.unnamed kept).isEmpty then kept.foldl KeptPart.addTo _
        else Fields.set (kept.foldl KeptPart.addTo _) (.text "children") (.list (KeptPart.unnamed kept)))) =
          Except.ok (Value.record _)
      rw [KeptPart.foldl_addTo (hseparate kept hkept), if_neg hparts]
      cases KeptPart.unnamed kept with
      | nil => rw [KeptPart.children, List.append_nil]; rfl
      | cons v rest =>
        rw [Value.set_nodeFields _ _ _ _ (show (.text "children" : Key) ∉ headKeys by decide),
          Fields.set_of_not_mem hfree]
        rfl

end Lowering

open Lowering (partFields keptParts)

/-- In a tree that is as the grammars tell, the parts of a node without a rule are separate: only arguments become a
    list, and only calls hold arguments. -/
theorem KeptPart.separate_of_grammatical {source : Source} {t : Cst} (hkind : ruleOf t.kind = .generic)
    (hskip : t.token.isSkipped = false) (hg : GrammaticalTree t) {kept : List KeptPart}
    (hkept : keptParts source t = .ok kept) : Separate (named kept) := by
  have hnocall : t.kind ∉ Lowering.callKinds := by
    -- calls have rules of their own, and `ERROR` nodes are left out
    intro hmem
    simp only [Lowering.callKinds, List.mem_cons, List.not_mem_nil, or_false] at hmem
    rcases hmem with hcall | hnew | herror
    · rw [hcall] at hkind
      cases hkind
    · rw [hnew] at hkind
      cases hkind
    · rw [(Token.isSkipped_iff t.token).2 (by rw [show t.token.kind = "ERROR" from herror]; decide)] at hskip
      cases hskip
  refine separate_of_forall fun e he items hitems => ?_
  obtain ⟨c, hc, -, hvalue⟩ := (Lowering.keptOf_lowered (some t.kind) t.parts).of_eq_ok hkept e he
  have hchild : c ∈ t.children := List.mem_of_mem_filter hc
  have hplain : c.kind ≠ "arguments" := fun h =>
    hnocall (hg.here.arguments c.token (List.mem_map_of_mem hchild) h)
  have hbecomes := (Lowering.lowered_behaves (allows_of_grammatical (hg.child hchild) source)
    (some t.kind)).here.value.of_eq_ok hvalue
  obtain ⟨⟨hfault, -⟩, -⟩ := hbecomes.list (by rwa [Lowering.kind_lowered]) items hitems
  rcases hfault with h | h <;> cases h

open KeptPart (Separate named unnamed)

/-- A node of a kind without a rule becomes a node with a field for each name under which its parts stand, in the
    order in which the names occur first, and then one for the parts without a field. Each part is in exactly one of
    these places, in order, and the text of the node is there instead if it has no parts. Where a part is not lowered,
    the node is not. -/
theorem lower_gathered {source : Source} {t : Cst} (hkind : ruleOf t.kind = .generic)
    (hskip : t.token.isSkipped = false)
    (hfields : ∀ c ∈ t.parts, c.token.field? ≠ some "children" ∧ c.token.field? ≠ some "raw")
    (hseparate : ∀ kept, keptParts source t = .ok kept → Separate (named kept)) (parent? : Option String) :
    lower source parent? t = (keptParts source t).map (fun kept =>
        .record (nodeFields (genericType t.kind) t.token.start t.token.stop (partFields source t kept))) ∧
      (∀ kept, keptParts source t = .ok kept →
        ((groupKeys (named kept)).flatMap (group (named kept)) ++ unnamed kept).Perm (kept.map Prod.snd)) ∧
      ∀ fields, lower source parent? t = .ok (.record fields) →
        ((Fields.get? fields (.text "raw")).isSome ↔ t.parts = []) := by
  have hlower := (Lowering.lower_eq_genericOf hkind hskip parent?).trans
    (Lowering.genericOf_siteOf (fun c hc => (hfields c hc).1) hseparate)
  refine ⟨hlower, fun kept _ => ?_, fun fields hok => ?_⟩
  · exact ((perm_groups (named kept)).append_right _).trans (KeptPart.perm_named_unnamed kept)
  · rw [hlower] at hok
    cases hkept : keptParts source t with
    | error f =>
      rw [hkept] at hok
      cases hok
    | ok kept =>
      rw [hkept] at hok
      cases hok
      rw [Value.get?_nodeFields _ _ _ _ Lowering.raw_not_mem_headKeys]
      exact Lowering.get?_raw_partFields hkept fun c hc => (hfields c hc).2

namespace Sample

/-- The source `{A,B=1,C}`. -/
def enumSource : Source := .ofText "\x7bA,B=1,C\x7d"

/-- Three members, of which the second is no name and stands under no field. -/
def enumBody : Cst :=
  .branch "enum_body" 0 9 (some "body") [
    .leaf "\x7b" false 0 1 none,
    .leaf "property_identifier" true 1 2 (some "name"),
    .leaf "," false 2 3 none,
    .branch "enum_assignment" 3 6 none [
      .leaf "property_identifier" true 3 4 (some "name"),
      .leaf "=" false 4 5 none,
      .leaf "number" true 5 6 (some "value")],
    .leaf "," false 6 7 none,
    .leaf "property_identifier" true 7 8 (some "name"),
    .leaf "\x7d" false 8 9 none]

/-- The names are gathered before the member without a field. -/
theorem lower_gathered_enum :
    ruleOf enumBody.kind = .generic ∧ ∃ a b c,
      keptParts enumSource enumBody = .ok [(some "name", a), (none, b), (some "name", c)] ∧
      lower enumSource none enumBody = .ok (.record (nodeFields "TSEnumBody" 0 9
        [(.text "name", .list [a, c]), (.text "children", .list [b])])) := by
  obtain ⟨a, b, c, hkept⟩ : ∃ a b c,
      keptParts enumSource enumBody = .ok [(some "name", a), (none, b), (some "name", c)] := ⟨_, _, _, rfl⟩
  have hseparate : ∀ kept, keptParts enumSource enumBody = .ok kept → Separate (named kept) :=
    fun _ => KeptPart.separate_of_grammatical rfl rfl (by decide)
  obtain ⟨hlower, -, -⟩ := lower_gathered rfl rfl (by decide) hseparate none
  exact ⟨rfl, a, b, c, hkept, by rw [hlower, hkept]; rfl⟩

/-- Arguments in parentheses and a name, both under one field. -/
def mergedAssignment : Cst :=
  .branch "enum_assignment" 0 4 none [
    .branch "parenthesized_expression" 0 3 (some "value") [
      .leaf "(" false 0 1 none,
      .branch "arguments" 1 2 none [.leaf "identifier" true 1 2 none],
      .leaf ")" false 2 3 none],
    .leaf "identifier" true 3 4 (some "value")]

/-- The name is put into the list of the arguments. -/
theorem lower_merged :
    ruleOf mergedAssignment.kind = .generic ∧
      (∀ c ∈ mergedAssignment.children, c.kind ≠ "arguments" ∧ c.token.field? = some "value") ∧
      ∃ a b, keptParts (.ofText "(a)b") mergedAssignment = .ok [(some "value", .list [a]), (some "value", b)] ∧
        lower (.ofText "(a)b") none mergedAssignment = .ok (.record (nodeFields "TSEnumAssignment" 0 4
          [(.text "value", .list [a, b])])) ∧
        Value.list [a, b] ≠ .list [.list [a], b] :=
  ⟨rfl, by decide, _, _, rfl, rfl, by simp [Lowering.nodeOf_eq]⟩

end Sample

end Arbor
