import Arbor.Proofs.Lowering.Filling
import Arbor.Proofs.Lowering.Places

set_option autoImplicit false

/-! # What statements and patterns leave

Statements and patterns whose rule is no list of fillers leave what is drawn from their range. -/

namespace Arbor.Lowering

open Value (nodeFields headKeys Apart typeOf? startOf? rangeOf? records recordsOfItems recordsOfFields)

section

variable {S : Survey} {s : Site} {b : Branch} {limit : Int}

/-! ## Statements -/

theorem ifStatement_drawn (hs : s.Drawn S) (hkind : s.token.kind = "if_statement") :
    IfOk (S.From s.token) (ifStatement s) := by
  have halternative := field_drawn hs "alternative"
  have rest {alternate : Value}
      (h : S.Drawn s.token.stop (Reach.reads s (.field "alternative")) (records none alternate)) :
      IfOk (S.From s.token) (do
        let test ← valueOf (s.field? "condition")
        let consequent ← valueOf (s.field? "consequence")
        pure (nodeOf "IfStatement" s.token
          [("test", test), ("consequent", consequent), ("alternate", alternate)])) := by
    refine (valueOf_drawn (field_drawn hs "condition")).bind fun test htest => ?_
    refine (valueOf_drawn (field_drawn hs "consequence")).bind fun consequent hconsequent => ?_
    exact node_drawn hs [.field "condition", .field "consequence", .field "alternative"] rfl (by decide)
      (fun _ => by rw [hkind]; decide) (.field htest.placed (.field hconsequent.placed (.field h.placed .nil)))
  unfold ifStatement
  cases hclause : s.field? "alternative" with
  | none => exact rest .nil
  | some clause =>
    rw [hclause] at halternative
    rw [reads_field hclause] at rest
    exact (firstWithin_drawn halternative).bind fun _ hv => rest hv

theorem tryStatement_drawn (hs : s.Drawn S) (hkind : s.token.kind = "try_statement") :
    IfOk (S.From s.token) (tryStatement s) := by
  have hfinalizer := field_drawn hs "finalizer"
  have rest {finalizer : Value}
      (h : S.Drawn s.token.stop (Reach.reads s (.field "finalizer")) (records none finalizer)) :
      IfOk (S.From s.token) (do
        let block ← valueOf (s.field? "body")
        let handler ← valueOf (s.field? "handler")
        pure (nodeOf "TryStatement" s.token
          [("block", block), ("handler", handler), ("finalizer", finalizer)])) := by
    refine (valueOf_drawn (field_drawn hs "body")).bind fun block hblock => ?_
    refine (valueOf_drawn (field_drawn hs "handler")).bind fun handler hhandler => ?_
    exact node_drawn hs [.field "body", .field "handler", .field "finalizer"] rfl (by decide)
      (fun _ => by rw [hkind]; decide) (.field hblock.placed (.field hhandler.placed (.field h.placed .nil)))
  unfold tryStatement
  cases hclause : s.field? "finalizer" with
  | none => exact rest .nil
  | some clause =>
    rw [hclause] at hfinalizer
    rw [reads_field hclause] at rest
    exact (valueWithin_drawn hfinalizer (field?_sublist clause.site "body")).bind fun _ hv => rest hv

theorem switchStatement_drawn (hs : s.Drawn S) (hkind : s.token.kind = "switch_statement") :
    IfOk (S.From s.token) (switchStatement s) := by
  have hbody := field_drawn hs "body"
  have rest {cases : List Value}
      (h : S.Drawn s.token.stop (Reach.reads s (.field "body")) (recordsOfItems cases)) :
      IfOk (S.From s.token) (do
        let discriminant ← valueOf (s.field? "value")
        pure (nodeOf "SwitchStatement" s.token
          [("discriminant", discriminant), ("cases", .list cases)])) := by
    refine (valueOf_drawn (field_drawn hs "value")).bind fun discriminant hdiscriminant => ?_
    exact node_drawn hs [.field "value", .field "body"] rfl (by decide) (fun _ => by rw [hkind]; decide)
      (.field hdiscriminant.placed (.field h.list .nil))
  unfold switchStatement
  cases hclause : s.field? "body" with
  | none => exact rest .nil
  | some body =>
    rw [hclause] at hbody
    rw [reads_field hclause] at rest
    exact (partsWithin_drawn hbody).bind fun _ hv => rest hv

/-! ## Loops -/

/-- What a loop head declares goes from the word to the end of the pattern. -/
def loopSpans (s : Site) : List Span :=
  match s.mark? "kind", s.field? "left" with
  | some word, some left => [⟨word.token.start, left.token.stop⟩]
  | _, left? => spansOf left?.toList

/-- A declarator around a pattern has the range of the pattern. -/
theorem declarator_drawn {p : List Span} {type : Text} {start stop : Int} {rest : List (Key × Value)}
    (h : S.Drawn limit p (records none (.record (nodeFields type start stop rest)))) :
    S.Drawn limit p (records none (nodeAt "VariableDeclarator" start stop
      [("id", .record (nodeFields type start stop rest)), ("init", .null)])) := by
  have hfields : S.Drawn limit p (recordsOfFields (some "VariableDeclarator")
      (namedFields [("id", .record (nodeFields type start stop rest)), ("init", .null)])) := by
    have hinit : S.Drawn limit [] (recordsOfFields (some "VariableDeclarator")
        (namedFields [("init", Value.null)])) := .nil
    rw [← List.append_nil p]
    exact .field h.placed hinit
  have hsorted : S.ordered → p.Pairwise Span.Before →
      (start :: starts (recordsOfFields (some type) rest)).Pairwise (· ≤ ·) := h.sorted
  have hstarts : starts (recordsOfFields (some "VariableDeclarator")
      (namedFields [("id", .record (nodeFields type start stop rest)), ("init", .null)])) =
      start :: starts (recordsOfFields (some type) rest) := by
    show starts (records _ (Value.record (nodeFields type start stop rest)) ++ []) = _
    rw [List.append_nil]
    rfl
  have hin : S.nests → ∀ o ∈ records none (.record (nodeFields type start stop rest)),
      o.Within ⟨start, stop⟩ := by
    intro hn
    obtain ⟨type', start', stop', rest', heq, -, -, nested⟩ := h.exists_eq
    cases heq
    rw [Value.records_nodeFields]
    refine List.forall_mem_cons.2 ⟨fun range hrange => ?_, fun o ho => ?_⟩
    · cases hrange
      exact ⟨Int.le_refl _, Int.le_refl _⟩
    · obtain ⟨f, hf, ho⟩ := (Value.mem_recordsOfFields _).1 ho
      rcases Value.mem_records _ ho with ho | ⟨ho, -⟩
      · exact nested hn f hf o ho
      · exact nested hn f hf ⟨none, o.fields⟩ ho
  rw [nodeAt_eq, Value.records_nodeFields]
  refine hfields.cons (.node (apart_namedFields rfl) (spelled_of_untold rfl (by decide)) fun hn f hf _ => ?_) rfl
    (fun hn => h.ends hn _ (List.mem_cons_self ..) _ rfl)
    (fun hn => h.covered hn start (mem_starts.2 ⟨_, List.mem_cons_self .., rfl⟩)) fun ho hp n hmem => ?_
  · simp only [namedFields, List.map_cons, List.map_nil, List.mem_cons, List.not_mem_nil, or_false] at hf
    rcases hf with rfl | rfl
    · exact hin hn
    · exact fun o ho => absurd ho List.not_mem_nil
  · rw [hstarts] at hmem
    rcases List.mem_cons.1 hmem with rfl | hmem
    · exact Int.le_refl _
    · exact List.rel_of_pairwise_cons (hsorted ho hp) hmem

theorem of_mem_mark? {field : String} (h : s.mark? field = some b) :
    b ∈ s.children ∧ b.token.field? = some field :=
  ⟨List.mem_of_find?_eq_some h, by simpa using List.find?_some h⟩

/-- The word of a loop stands before the variable. -/
theorem word_before (hs : s.Drawn S) (hkind : s.token.kind = "for_in_statement") (hn : S.nests)
    {word left : Branch} (hword : s.mark? "kind" = some word) (hleft : s.field? "left" = some left) :
    (word.token.start : Int) ≤ left.token.start := by
  obtain ⟨hmem, hfield⟩ := of_mem_mark? hword
  have hleft : left ∈ (s.field? "left").toList := Option.mem_toList.2 hleft
  have hbefore : word.token.stop ≤ left.token.start :=
    (hs.lies.nests hn).aligned ("for_in_statement", .under "kind", .under "left") (by decide) hkind.symm _
      (List.mem_map_of_mem hmem) _ (List.mem_map_of_mem ((field?_sublist s "left").subset hleft)) hfield
      (of_mem_field? hleft)
  have hwide : word.token.start ≤ word.token.stop := ((hs.children word hmem).here.lies.nests hn).wide
  exact Int.ofNat_le.2 (Nat.le_trans hwide hbefore)

theorem loopVariable_drawn (hs : s.Drawn S) (hkind : s.token.kind = "for_in_statement") :
    IfOk (fun v => S.Drawn s.token.stop (loopSpans s) (records none v))
      (loopVariable S.source (s.mark? "kind") (s.field? "left")) := by
  have hfield := field_drawn hs "left"
  unfold loopVariable loopSpans
  cases hleft : s.field? "left" with
  | none =>
    cases s.mark? "kind" with
    | none => exact Yields.ok.2 .nil
    | some word => exact Yields.ok.2 .nil
  | some left =>
    rw [hleft] at hfield
    have hlimit : S.nests → (left.token.stop : Int) ≤ s.token.stop :=
      fun hn => (hfield left (List.mem_singleton_self left)).2 hn
    refine hfield.here.value.bind fun v hv => ?_
    cases hword : s.mark? "kind" with
    | none => exact Survey.Drawn.within hv hfield
    | some word =>
      cases v with
      | scalar c => exact Yields.ok.2 .nil
      | list items => trivial
      | record fields =>
        obtain ⟨type, start, stop, rest, rfl, -⟩ := hv.exists_eq
        have hwide : S.nests → (left.token.start : Int) ≤ left.token.stop :=
          fun hn => Int.ofNat_le.2 (hfield.here.lies.nests hn).wide
        have hbefore := fun hn => word_before hs hkind hn hword hleft
        have hitem : S.Drawn left.token.stop [left.token.span] (recordsOfItems [nodeAt "VariableDeclarator" start stop
            [("id", .record (nodeFields type start stop rest)), ("init", .null)]]) := by
          rw [recordsOfItems, Value.recordsOfItems_nil, List.append_nil]
          exact declarator_drawn hv
        refine Survey.Drawn.raise (drawn_node (apart_namedFields rfl) (spelled_of_untold rfl (by decide))
          (.flat (.last hitem.list)) (fun hn => ⟨?_, ?_⟩) ?_) hlimit
        · exact Int.le_trans (hbefore hn) (hwide hn)
        · simpa [Span.Inside, Token.span] using hbefore hn
        · simp

/-- What a loop head declares ends with its pattern and lies inside the loop. -/
theorem loopSpans_eq (hs : s.Drawn S) {a : Span} (ha : a ∈ loopSpans s) :
    ∃ left ∈ (s.field? "left").toList, a.stop = left.token.stop ∧ (S.nests → a.Inside s.token.span) := by
  unfold loopSpans at ha
  split at ha
  · next word left hword hleft =>
    have hmem : left ∈ (s.field? "left").toList := Option.mem_toList.2 hleft
    rw [List.mem_singleton.1 ha]
    refine ⟨left, hmem, rfl, fun hn => ⟨?_, ?_⟩⟩
    · exact (child_inside hs hn (of_mem_mark? hword).1).1
    · exact (child_inside hs hn ((field?_sublist s "left").subset hmem)).2
  · obtain ⟨left, hmem, rfl⟩ := List.mem_map.1 ha
    exact ⟨left, hmem, rfl, fun hn => child_inside hs hn ((field?_sublist s "left").subset hmem)⟩

theorem loopSpans_apart (s : Site) : (loopSpans s).Pairwise Span.Before := by
  unfold loopSpans
  split
  · exact List.pairwise_singleton _ _
  · cases s.field? "left" <;> simp [spansOf]

theorem forInStatement_drawn (hs : s.Drawn S) (hkind : s.token.kind = "for_in_statement") :
    IfOk (S.From s.token) (forInStatement S.source s) := by
  refine (loopVariable_drawn hs hkind).bind fun left hleft => ?_
  refine (valueOf_drawn (field_drawn hs "right")).bind fun right hright => ?_
  refine (valueOf_drawn (field_drawn hs "body")).bind fun body hbody => ?_
  let spans := [Reach.field "right", .field "body"].flatMap (Reach.reads s)
  have hfields (type : Text) : S.Drawn s.token.stop (loopSpans s ++ spans)
      (recordsOfFields (some type) (namedFields [("left", left), ("right", right), ("body", body)])) :=
    .field hleft.placed (.field hright.placed (.field hbody.placed .nil))
  have hin : S.nests → ∀ span ∈ loopSpans s ++ spans, span.Inside s.token.span := by
    refine fun hn => List.forall_mem_append.2 ⟨fun a ha => ?_, fun a ha => ?_⟩
    · obtain ⟨_, _, _, hin⟩ := loopSpans_eq hs ha
      exact hin hn
    · obtain ⟨r, -, ha⟩ := List.mem_flatMap.1 ha
      exact reads_inside hs hn r a ha
  have hord : S.ordered → (loopSpans s ++ spans).Pairwise Span.Before := by
    intro ho
    have hall : Reach.follow (grammarOrder s.token.kind) [.field "left", .field "right", .field "body"] = true := by
      rw [hkind]
      decide
    obtain ⟨-, hafter, hbefore⟩ := List.pairwise_append.1 (reads_apart hs ho hall)
    refine List.pairwise_append.2 ⟨loopSpans_apart s, hafter, fun a ha b hb => ?_⟩
    obtain ⟨left, hmem, hstop, -⟩ := loopSpans_eq hs ha
    have hle : left.token.span.Before b := hbefore _ (List.mem_map_of_mem hmem) b hb
    rw [Span.Before, hstop]
    exact hle
  have hloop (operator : Text) : IfOk (S.From s.token)
      (if operator = "of" then
        pure (nodeOf "ForOfStatement" s.token (("await", .bool (s.hasToken "await")) ::
          [("left", left), ("right", right), ("body", body)]))
      else pure (nodeOf "ForInStatement" s.token
        [("left", left), ("right", right), ("body", body)])) := by
    split
    · exact nodeOf_drawn hs rfl (by decide) (.flat (hfields _)) hin hord
    · exact nodeOf_drawn hs rfl (by decide) (hfields _) hin hord
  exact hloop _

/-! ## Patterns -/

/-- A flag that tells nothing is stored in a pattern. -/
theorem setField_flag {p : List Span} {pattern : Value} (h : S.Drawn limit p (records none pattern)) {name : Text}
    (hhead : (.text name : Key) ∉ headKeys) (htell : (.text name : Key) ∉ tellingKeys) (c : Scalar) :
    IfOk (fun v => S.Drawn limit p (records none v) ∧
      v.field? "typeAnnotation" = pattern.field? "typeAnnotation") (setField pattern name (.scalar c)) := by
  cases pattern with
  | record fields =>
    refine Yields.ok.2 ⟨drawn_flag h hhead htell c, ?_⟩
    refine Fields.get?_set_of_ne fields (.scalar c) fun heq => htell ?_
    rw [heq]
    decide
  | _ => trivial

theorem withAccess_drawn {p : List Span} {pattern : Value} (h : S.Drawn limit p (records none pattern))
    (source : Source) (branches : List Branch) :
    IfOk (fun v => S.Drawn limit p (records none v)) (withAccess source pattern branches) := by
  induction branches generalizing pattern with
  | nil => exact Yields.ok.2 h
  | cons b rest ih =>
    rw [withAccess]
    split
    · exact (setField_flag h (by decide) (by decide) _).bind fun _ hv => ih hv.1
    · exact ih h

theorem typedPattern_drawn (hs : s.Drawn S)
    (hkind : s.token.kind = "required_parameter" ∨ s.token.kind = "optional_parameter")
    (hb : b ∈ (s.field? "pattern").toList) {pattern : Value} (hpattern : S.From b.token pattern)
    (hnew : S.ordered → (s.field? "type").isSome = true → pattern.field? "typeAnnotation" = none) :
    IfOk (S.From s.token) (typedPattern S.source s pattern) := by
  have hentry : (s.token.kind, Seat.under "pattern", Seat.under "type") ∈ alignments := by
    rcases hkind with hkind | hkind <;> rw [hkind] <;> decide
  have hsteady : Reach.isSteady (grammarOrder s.token.kind) (.typed "pattern") = true := by
    rcases hkind with hkind | hkind <;> rw [hkind] <;> decide
  refine (withType_drawn hs hb hentry hpattern hnew).bind fun pattern hpattern => ?_
  refine (withAccess_drawn hpattern S.source s.parts).bind fun pattern hpattern => ?_
  refine (valueOf_drawn (field_drawn hs "value")).bind fun value hvalue => ?_
  split
  · exact Yields.pure.2 (hpattern.gather (fun hn => reads_inside hs hn _) fun ho => reads_steady hs ho hsteady)
  · refine node_drawn hs [.typed "pattern", .field "value"] rfl (by decide) (fun _ => ?_)
      (.field hpattern.placed (.field hvalue.placed .nil))
    rcases hkind with hkind | hkind <;> rw [hkind] <;> decide

theorem typedParameter_drawn (hs : s.Drawn S)
    (hkind : s.token.kind = "required_parameter" ∨ s.token.kind = "optional_parameter") (optional : Bool) :
    IfOk (S.From s.token) (typedParameter S.source s optional) := by
  rw [typedParameter_eq]
  cases hfield : s.field? "pattern" with
  | none => exact Yields.pure.2 .nil
  | some b =>
    have hb : b ∈ (s.field? "pattern").toList := Option.mem_toList.2 hfield
    have hdrawn := ((field_drawn hs "pattern").singleton hb).here
    have hseat : (s.token.kind, "pattern") ∈ typedSeats := by
      rcases hkind with hkind | hkind <;> rw [hkind] <;> decide
    refine (hdrawn.value.and (untyped_pattern hs hseat hb)).bind fun pattern hpattern => ?_
    split
    · exact Yields.pure.2 .nil
    split
    · refine (setField_flag hpattern.1 (by decide) (by decide) _).bind fun v hv => ?_
      refine typedPattern_drawn hs hkind hb hv.1 ?_
      rw [hv.2]
      exact hpattern.2
    · exact typedPattern_drawn hs hkind hb hpattern.1 hpattern.2

section

variable (hs : s.Drawn S) {left : Branch} (hfield : s.field? "left" = some left)

include hs hfield

/-- The name of a shorthand with a default value is drawn from the place where it starts. -/
theorem shorthand_inside (hn : S.nests) : Span.Inside ⟨left.token.start, left.token.start⟩ s.token.span := by
  have hleft := field_drawn hs "left"
  rw [hfield] at hleft
  have hchild := child_inside hs hn ((field?_sublist s "left").subset (Option.mem_toList.2 hfield))
  exact ⟨hchild.1, Int.le_trans (Int.ofNat_le.2 (hleft.here.lies.nests hn).wide) hchild.2⟩

theorem shorthand_drawn :
    S.Drawn s.token.stop [⟨left.token.start, left.token.start⟩] (records none (identifierOf S.source left.token)) :=
  (identifierOf_drawn left.token).raise fun hn =>
    (child_inside hs hn ((field?_sublist s "left").subset (Option.mem_toList.2 hfield))).2

/-- The name comes before the default value. -/
theorem defaultedShorthand_drawn (hkind : s.token.kind = "object_assignment_pattern") {right : Value}
    (hright : S.Drawn s.token.stop (Reach.reads s (.field "right")) (records none right)) :
    S.From s.token (nodeOf "AssignmentPattern" s.token
      [("left", identifierOf S.source left.token), ("right", right)]) := by
  have hleft := field_drawn hs "left"
  rw [hfield] at hleft
  refine nodeOf_drawn hs rfl (by decide) (.field (shorthand_drawn hs hfield).placed (.last hright.placed))
    (fun hn => ?_) fun ho => ?_
  · exact List.forall_mem_append.2
      ⟨by simpa using shorthand_inside hs hfield hn, reads_inside hs hn (.field "right")⟩
  · refine List.pairwise_append.2 ⟨List.pairwise_singleton _ _, reads_steady hs ho (r := .field "right") rfl,
      fun a ha c hc => ?_⟩
    have hprecedes : Reach.precedes (grammarOrder s.token.kind) (.field "left") (.field "right") = true := by
      rw [hkind]
      decide
    have hbefore : left.token.span.Before c :=
      reads_before hs ho hprecedes _ (List.mem_map_of_mem (Option.mem_toList.2 hfield)) c hc
    rw [List.mem_singleton.1 ha]
    exact Int.le_trans (Int.ofNat_le.2 (hleft.here.lies.nests (S.nests_of_ordered ho)).wide) hbefore

end

theorem defaultedMember_drawn (hs : s.Drawn S) (hkind : s.token.kind = "object_assignment_pattern") :
    IfOk (S.From s.token) (defaultedMember S.source s) := by
  have hleft := field_drawn hs "left"
  have hfollow (rs : List Reach)
      (h : Reach.follow (grammarOrder "object_assignment_pattern") rs = true) :
      S.ordered → Reach.follow (grammarOrder s.token.kind) rs = true := fun _ => by rwa [hkind]
  refine (valueOf_drawn (field_drawn hs "right")).bind fun right hright => ?_
  split
  · exact node_drawn hs [.field "right"] rfl (by decide) (hfollow _ (by decide))
      (.flat (.field hright.placed .nil))
  · next left hfield =>
    rw [hfield] at hleft
    dsimp only
    split
    · next hshort =>
      -- the name and the default value start where the member starts
      have hmem : left ∈ (s.field? "left").toList := Option.mem_toList.2 hfield
      have hchild := (field?_sublist s "left").subset hmem
      refine nodeOf_drawn hs rfl (by decide) (.flat (.flat (.flat (.flat
        (.field (shorthand_drawn hs hfield).placed (.last (defaultedShorthand_drawn hs hfield hkind hright).placed))))))
        (fun hn => ?_) fun ho => ?_
      · simpa [Span.Inside] using shorthand_inside hs hfield hn
      · have hstart : left.token.start = s.token.start :=
          (hs.lies.inOrder ho).defaulted hkind _ (List.mem_map_of_mem hchild) (of_mem_field? hmem) hshort
        simp [Span.Before, Token.span, hstart]
    · refine hleft.here.value.bind fun v hv => ?_
      refine node_drawn hs [.field "left", .field "right"] rfl (by decide) (hfollow _ (by decide)) ?_
      rw [List.flatMap_cons, reads_field hfield]
      exact .field (Survey.Drawn.within hv hleft).placed (.field hright.placed .nil)

end

end Arbor.Lowering
