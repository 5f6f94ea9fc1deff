import Arbor.Parsed
import Arbor.Proofs.Literal.Escape
import Arbor.Proofs.Lowering.Outcome
import Arbor.Proofs.Text.Utf8

set_option autoImplicit false

/-! # Parsing comes to an end

Errors in the syntax of a source are noted down and stop nothing: whatever a grammar makes of the source, with
nodes that are missing or out of place, the source is parsed. There is one exception. An escape in a string
or template literal may denote a number beyond the last code point, which the grammar admits, and then there
is no program (`parses_unless_overlong`).

A source may be given as a text or as its bytes. Both are parsed alike (`parses_alike`), since the text of the
bytes is the text itself. -/

namespace Arbor

open Literal (Overlong TooLarge)
open Lowering (callKinds literalBodies)

/-- What the grammars tell of a node, by its token and those of its children: a declaration starts with its
    word, and arguments are held by calls. What stands in an `ERROR` node can be anything. -/
structure Grammatical (t : Token) (children : List Token) : Prop where
  word : t.kind = "lexical_declaration" → children ≠ []
  arguments : ∀ c ∈ children, c.kind = "arguments" → t.kind ∈ callKinds

instance (t : Token) (children : List Token) : Decidable (Grammatical t children) :=
  decidable_of_iff ((t.kind = "lexical_declaration" → children ≠ []) ∧
      ∀ c ∈ children, c.kind = "arguments" → t.kind ∈ callKinds)
    ⟨fun h => ⟨h.1, h.2⟩, fun h => ⟨h.word, h.arguments⟩⟩

/-- A tree of which all nodes are as the grammars tell. -/
abbrev GrammaticalTree (root : Cst) : Prop :=
  root.Everywhere fun u => Grammatical u.token (u.children.map Tree.token)

/-- In some literal of a tree an escape denotes no code point. -/
def HasOverlong (source : Source) (root : Cst) : Prop :=
  ∃ u ∈ root.nodes, ∃ body ∈ literalBodies source u.token (u.children.map Tree.token), Overlong body

/-- Lowering such a tree fails only at an escape that denotes no code point. -/
theorem allows_of_grammatical {root : Cst} (hg : GrammaticalTree root) (source : Source) :
    root.Everywhere fun u => Lowering.Allows (fun f => TooLarge f ∧ HasOverlong source root) source u.token
      (u.children.map Tree.token) := by
  intro u hu
  refine ⟨fun body hbody => ?_, fun hkind hchildren => ?_, fun c hc hkind => ?_⟩
  · cases hraw : Literal.unescape body with
    | ok text => trivial
    | error f =>
      obtain ⟨hfault, hlong⟩ := Literal.overlong_of_unescape_eq_error hraw
      exact ⟨hfault, u, hu, body, hbody, hlong⟩
  · exact absurd hchildren ((hg u hu).word hkind)
  · exact .inl ((hg u hu).arguments c hc hkind)

/-- There is a program unless an escape denotes no code point. -/
theorem programOf_unless_overlong {root : Cst} (hg : GrammaticalTree root) (source : Source)
    (sourceType : Value) :
    (∃ program, Lowering.programOf source sourceType root = .ok program) ∨
      ∃ f, Lowering.programOf source sourceType root = .error f ∧ TooLarge f ∧
        HasOverlong source root := by
  have hyields := Lowering.programOf_yields (allows_of_grammatical hg source) sourceType
  cases hprogram : Lowering.programOf source sourceType root with
  | ok program => exact .inl ⟨program, rfl⟩
  | error f =>
    rw [hprogram] at hyields
    exact .inr ⟨f, rfl, hyields⟩

/-- A supported language is found by its name. -/
theorem Language.named_name (l : Language) : Language.named (.text l.name) = .ok l := by
  cases l <;> rfl

theorem Parsed.chooseLanguage_ok (filename : Text) {wanted : Value}
    (hwanted : wanted = .null ∨ ∃ l : Language, wanted = .text l.name) :
    ∃ language, Parsed.chooseLanguage filename wanted = .ok language := by
  rcases hwanted with rfl | ⟨l, rfl⟩
  · exact ⟨_, rfl⟩
  · exact ⟨l, Language.named_name l⟩

/-- A parse with a result, in which what is wrong with the syntax is noted down, or one that stops at an
    escape that denotes no code point. -/
def Parsed.Ends (source : Source) (root : Cst) (x : Except Fault Parsed) : Prop :=
  (∃ p, x = .ok p ∧ p.diagnostics = Arbor.diagnostics source root) ∨
    ∃ f, x = .error f ∧ TooLarge f ∧ HasOverlong source root

theorem Parsed.ofSource_ends {root : Cst} (hg : GrammaticalTree root) (language : Language)
    (source : Source) (text : Text) (sourceType : Value) :
    Parsed.Ends source root (Parsed.ofSource language source text sourceType root) := by
  unfold Parsed.ofSource
  rcases programOf_unless_overlong hg source sourceType with ⟨program, hprogram⟩ | ⟨f, hprogram, hfault⟩
  · rw [hprogram]
    exact .inl ⟨_, rfl, rfl⟩
  · rw [hprogram]
    exact .inr ⟨f, rfl, hfault⟩

/-- Every text without surrogates and all bytes are parsed, in each of the supported languages and with
    every tree that is as the grammars tell, whatever is missing or out of place in it. Only an escape
    beyond the last code point, in a literal of the tree, keeps them from it. -/
theorem parses_unless_overlong {root : Cst} (hg : GrammaticalTree root) (filename : Text)
    {wanted : Value} (hwanted : wanted = .null ∨ ∃ l : Language, wanted = .text l.name)
    (sourceType : Value) :
    (∀ text : Text, text.hasSurrogate = false →
      Parsed.Ends (.ofText text) root (Parsed.ofText filename text wanted sourceType root)) ∧
    ∀ source : Source, Parsed.Ends source root (Parsed.ofBytes filename source wanted sourceType root) := by
  obtain ⟨language, hlanguage⟩ := Parsed.chooseLanguage_ok filename hwanted
  constructor
  · intro text htext
    rw [Parsed.ofText, hlanguage]
    simp only [bind, Except.bind, htext]
    exact Parsed.ofSource_ends hg language (.ofText text) text sourceType
  · intro source
    rw [Parsed.ofBytes, hlanguage]
    exact Parsed.ofSource_ends hg language source source.toText sourceType

namespace Sample

/-- The syntax of `let a = b(`, in which a parenthesis is missing. -/
def unclosed : Cst :=
  .branch "program" 0 10 none [
    .branch "lexical_declaration" 0 10 none [
      .leaf "let" false 0 3 (some "kind"),
      .branch "variable_declarator" 4 10 none [
        .leaf "identifier" true 4 5 (some "name"),
        .leaf "=" false 6 7 none,
        .branch "call_expression" 8 10 (some "value") [
          .leaf "identifier" true 8 9 (some "function"),
          .branch "arguments" 9 10 (some "arguments") [
            .leaf "(" false 9 10 none,
            .node ⟨")", false, true, 10, 10, none⟩ () []]]]]]

/-- The source is parsed, and the parenthesis is noted down as missing. -/
theorem parses_unless_overlong_unclosed :
    ∃ p, Parsed.ofText "a.js" "let a = b(" .null (.text "module") unclosed = .ok p ∧
      p.diagnostics.length = 1 := by
  have hnone : ∀ u ∈ unclosed.nodes,
      literalBodies (.ofText "let a = b(") u.token (u.children.map Tree.token) = [] := by decide
  have hgrammatical : GrammaticalTree unclosed := by decide
  obtain ⟨htext, -⟩ := parses_unless_overlong hgrammatical "a.js" (.inl rfl) (.text "module")
  rcases htext "let a = b(" (by decide) with ⟨p, hp, hdiagnostics⟩ | ⟨f, -, -, u, hu, body, hbody, -⟩
  · exact ⟨p, hp, by rw [hdiagnostics]; decide⟩
  · rw [hnone u hu] at hbody
    cases hbody

/-- The syntax of a string literal that holds one escape. -/
def escaped : Cst :=
  .branch "program" 0 12 none [
    .branch "expression_statement" 0 12 none [
      .branch "string" 0 12 none [
        .leaf "\"" false 0 1 none,
        .leaf "escape_sequence" true 1 11 none,
        .leaf "\"" false 11 12 none]]]

/-- The grammars admit an escape beyond the last code point, and it cannot be decoded. -/
theorem ofText_overlong :
    GrammaticalTree escaped ∧ Text.hasSurrogate "\"\\u\x7b110000\x7d\"" = false ∧
      Parsed.ofText "a.js" "\"\\u\x7b110000\x7d\"" .null (.text "module") escaped =
        .error .codePointTooLarge :=
  ⟨by decide, by decide, rfl⟩

end Sample

/-! ## Text and bytes -/

/-- The text of a source is the text that it was made of. -/
theorem Source.toText_ofText {text : Text} (htext : text.hasSurrogate = false) :
    (Source.ofText text).toText = text := by
  rw [Source.toText, Source.ofText, List.toList_toArray, Utf8.decode_encode htext]

/-- What a parse keeps of what it is asked for. -/
theorem Parsed.ofSource_keeps {language : Language} {source : Source} {text : Text} {sourceType : Value} {root : Cst}
    {p : Parsed} (h : Parsed.ofSource language source text sourceType root = .ok p) :
    p.language = language ∧ p.sourceType = sourceType ∧ p.text = text := by
  unfold Parsed.ofSource at h
  cases hprogram : Lowering.programOf source sourceType root with
  | error f =>
    rw [hprogram] at h
    cases h
  | ok program =>
    rw [hprogram] at h
    cases h
    exact ⟨rfl, rfl, rfl⟩

/-- A text without surrogates and its bytes, of which the grammar makes the same tree, are parsed alike: there is
    the same result or the same fault, and the text in a result is the text itself. -/
theorem parses_alike {text : Text} (htext : text.hasSurrogate = false) (filename : Text) (wanted sourceType : Value)
    (root : Cst) :
    Parsed.ofText filename text wanted sourceType root =
        Parsed.ofBytes filename (.ofText text) wanted sourceType root ∧
      ∀ p, Parsed.ofBytes filename (.ofText text) wanted sourceType root = .ok p →
        p.text = text ∧ p.sourceType = sourceType ∧ Parsed.chooseLanguage filename wanted = .ok p.language := by
  rw [Parsed.ofText, Parsed.ofBytes, Source.toText_ofText htext]
  cases Parsed.chooseLanguage filename wanted with
  | error f => exact ⟨rfl, fun p hp => by cases hp⟩
  | ok language =>
    refine ⟨?_, fun p hp => ?_⟩
    · simp only [bind, Except.bind, htext]
      rfl
    · obtain ⟨rfl, hsourceType, hsame⟩ := Parsed.ofSource_keeps hp
      exact ⟨hsame, hsourceType, rfl⟩

namespace Sample

/-- The syntax of a string literal of characters with two, three and four bytes. -/
def manifold : Cst :=
  .branch "program" 0 11 none [
    .branch "expression_statement" 0 11 none [
      .branch "string" 0 11 none [
        .leaf "\"" false 0 1 none,
        .leaf "string_fragment" true 1 10 none,
        .leaf "\"" false 10 11 none]]]

/-- The literal has its text back, whether it is given as a text or as bytes. -/
theorem parses_alike_manifold :
    ∃ p, Parsed.ofBytes "a.ts" (.ofText "\"é€😀\"") .null (.text "module") manifold = .ok p ∧
      Parsed.ofText "a.ts" "\"é€😀\"" .null (.text "module") manifold = .ok p ∧
      p.text = "\"é€😀\"" ∧ p.language = .ts := by
  have htext : Text.hasSurrogate "\"é€😀\"" = false := by decide
  obtain ⟨halike, hkept⟩ := parses_alike htext "a.ts" .null (.text "module") manifold
  obtain ⟨p, hp⟩ : ∃ p, Parsed.ofText "a.ts" "\"é€😀\"" .null (.text "module") manifold = .ok p :=
    ⟨_, rfl⟩
  have hbytes := halike.symm.trans hp
  obtain ⟨hsame, -, hlanguage⟩ := hkept p hbytes
  exact ⟨p, hbytes, hp, hsame, (Except.ok.inj hlanguage).symm⟩

end Sample

end Arbor
