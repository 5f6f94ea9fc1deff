import Arbor.Parsed
import Arbor.Proofs.Concrete.Tree

set_option autoImplicit false

/-! # What a pass over a source finds

Every node of a tree has a place: the way from the root to it, which tells the position of a child at each
step, and the nodes around it (`Tree.places`). The places are in document order, which is the order of the
ways, and there is one for each way that leads somewhere (`Tree.pairwise_places`, `Tree.mem_places_iff`).

One pass collects comments and problems, with a flag that silences errors inside errors and with no look into
comments. What it finds is told place by place, from the nodes around each place alone (`Finding.ofTree_eq`).
So nothing is lost where nodes are left out of the program: each of them lies in a comment or under a problem
that is reported (`findings_exact`). -/

namespace Arbor

namespace Tree

/-- A node of a tree: the positions of the children that lead to it, the nodes around it from the root
    inwards, and what it is. -/
structure Place where
  path : List Nat
  around : List Token
  token : Token
  deriving DecidableEq

namespace Place

/-- A place of a child, as a place of the tree around: `t` is the root, and the child is its `i`-th. -/
def inside (t : Token) (i : Nat) (p : Place) : Place :=
  ⟨i :: p.path, t :: p.around, p.token⟩

@[simp] theorem path_inside (t : Token) (i : Nat) (p : Place) : (p.inside t i).path = i :: p.path := rfl

@[simp] theorem around_inside (t : Token) (i : Nat) (p : Place) :
    (p.inside t i).around = t :: p.around := rfl

@[simp] theorem token_inside (t : Token) (i : Nat) (p : Place) : (p.inside t i).token = p.token := rfl

def inComment (p : Place) : Bool := p.around.any Token.isComment

/-- Whether a place lies in what the grammar could not place. -/
def inError (p : Place) : Bool := p.around.any fun t => t.isError && !t.missing

/-- Whether a comment stands here that is no part of another one. -/
def isComment (p : Place) : Bool := p.token.isComment && !p.inComment

/-- Whether a node that is neither a comment nor a part of one stands here. -/
def isOutside (p : Place) : Bool := !p.token.isComment && !p.inComment

/-- Whether a node stands here that is missing, or the outermost of several that are out of place. -/
def isProblem (p : Place) : Bool :=
  p.isOutside && (p.token.missing || p.token.isError && !p.inError)

/-- Whether a node stands here that is left out of programs, by itself or with one around it. The root of a
    tree is read in any case. -/
def isLeftOut (p : Place) : Bool := (p.around ++ [p.token]).tail.any Token.isSkipped

/-- The comment that stands here. -/
def comment (source : Source) (p : Place) : Comment :=
  .ofText (p.token.text source) p.token.start p.token.stop

/-- The problem that lies here. -/
def diagnostic (source : Source) (p : Place) : Diagnostic where
  problem := if p.token.missing then .missing p.token.kind else .unexpected (p.token.text source)
  start := p.token.start
  stop := p.token.stop

@[simp] theorem inComment_inside (t : Token) (i : Nat) (p : Place) :
    (p.inside t i).inComment = (t.isComment || p.inComment) := rfl

@[simp] theorem inError_inside (t : Token) (i : Nat) (p : Place) :
    (p.inside t i).inError = ((t.isError && !t.missing) || p.inError) := rfl

@[simp] theorem comment_inside (source : Source) (t : Token) (i : Nat) (p : Place) :
    (p.inside t i).comment source = p.comment source := rfl

@[simp] theorem diagnostic_inside (source : Source) (t : Token) (i : Nat) (p : Place) :
    (p.inside t i).diagnostic source = p.diagnostic source := rfl

end Place

variable {α : Type}

/-! ## Places -/

mutual

/-- The places of a tree, in document order. -/
def places : Tree α → List Place
  | node t _ children => ⟨[], [], t⟩ :: placesFrom t 0 children

/-- The places of the children of `t` from the `i`-th on. -/
def placesFrom (t : Token) (i : Nat) : List (Tree α) → List Place
  | [] => []
  | c :: rest => (places c).map (Place.inside t i) ++ placesFrom t (i + 1) rest

end

/-- The place that a way leads to. -/
def place? (t : Tree α) : List Nat → Option Place
  | [] => some ⟨[], [], t.token⟩
  | i :: path => t.children[i]?.bind fun c => (c.place? path).map (Place.inside t.token i)

theorem mem_placesFrom {t : Token} {p : Place} {i : Nat} {children : List (Tree α)} :
    p ∈ placesFrom t i children ↔
      ∃ (j : Nat) (c : Tree α), children[j]? = some c ∧ ∃ q ∈ c.places, q.inside t (i + j) = p := by
  induction children generalizing i with
  | nil => simp [placesFrom]
  | cons c rest ih =>
    rw [placesFrom, List.mem_append, List.mem_map, ih]
    constructor
    · rintro (⟨q, hq, rfl⟩ | ⟨j, d, hd, q, hq, rfl⟩)
      · exact ⟨0, c, rfl, q, hq, rfl⟩
      · exact ⟨j + 1, d, hd, q, hq, by rw [Nat.add_right_comm, Nat.add_assoc]⟩
    · rintro ⟨j, d, hd, q, hq, rfl⟩
      cases j with
      | zero =>
        cases hd
        exact .inl ⟨q, hq, rfl⟩
      | succ j => exact .inr ⟨j, d, hd, q, hq, by rw [Nat.add_right_comm, Nat.add_assoc]⟩

/-- The places of a tree are where the ways lead. -/
theorem mem_places_iff {t : Tree α} {p : Place} : p ∈ t.places ↔ t.place? p.path = some p := by
  induction t using Tree.induction generalizing p with
  | node t note children ih =>
    rw [places, List.mem_cons, mem_placesFrom]
    constructor
    · rintro (rfl | ⟨i, c, hc, q, hq, rfl⟩)
      · rfl
      · have hplace := (ih c (List.mem_of_getElem? hc)).1 hq
        simp [place?, hc, hplace]
    · intro h
      cases hpath : p.path with
      | nil =>
        rw [hpath, place?, Option.some.injEq] at h
        exact .inl h.symm
      | cons i path =>
        simp only [hpath, place?, children_node, Option.bind_eq_some_iff, Option.map_eq_some_iff] at h
        obtain ⟨c, hc, q, hq, hp⟩ := h
        -- the rest of the way is the way of the place in the child
        have hqpath : q.path = path := by
          have := congrArg Place.path hp
          simpa [hpath] using this
        refine .inr ⟨i, c, hc, q, (ih c (List.mem_of_getElem? hc)).2 (hqpath ▸ hq), ?_⟩
        rw [Nat.zero_add]
        exact hp

theorem pairwise_placesFrom {t : Token} {i : Nat} {children : List (Tree α)}
    (h : ∀ c ∈ children, c.places.Pairwise fun p q => p.path < q.path) :
    (placesFrom t i children).Pairwise fun p q => p.path < q.path := by
  induction children generalizing i with
  | nil => exact .nil
  | cons c rest ih =>
    obtain ⟨hc, hrest⟩ := List.forall_mem_cons.1 h
    rw [placesFrom, List.pairwise_append, List.pairwise_map]
    refine ⟨hc.imp fun hlt => by simpa using hlt, ih hrest, ?_⟩
    intro p hp q hq
    obtain ⟨p, -, rfl⟩ := List.mem_map.1 hp
    obtain ⟨j, d, -, q, -, rfl⟩ := mem_placesFrom.1 hq
    exact List.cons_lt_cons_iff.2 (.inl (by omega))

/-- The places of a tree are in document order: a node comes before what is in it, and what is in it before
    the nodes that follow. None comes twice. -/
theorem pairwise_places (t : Tree α) : t.places.Pairwise fun p q => p.path < q.path := by
  induction t using Tree.induction with
  | node t note children ih =>
    rw [places, List.pairwise_cons]
    refine ⟨fun p hp => ?_, pairwise_placesFrom ih⟩
    obtain ⟨j, c, -, q, -, rfl⟩ := mem_placesFrom.1 hp
    exact List.nil_lt_cons _ _

/-! ## What is left out of programs -/

/-- The first of the nodes on the way to a place is the root. -/
theorem exists_tokens_of_mem_places {t : Tree α} {p : Place} (h : p ∈ t.places) :
    ∃ rest, p.around ++ [p.token] = t.token :: rest := by
  cases t with
  | node t note children =>
    rw [places, List.mem_cons, mem_placesFrom] at h
    rcases h with rfl | ⟨i, c, -, q, -, rfl⟩
    · exact ⟨[], rfl⟩
    · exact ⟨q.around ++ [q.token], rfl⟩

theorem isLeftOut_inside {c : Tree α} {p : Place} (h : p ∈ c.places) (t : Token) (i : Nat) :
    (p.inside t i).isLeftOut = (c.token.isSkipped || p.isLeftOut) := by
  obtain ⟨rest, hrest⟩ := exists_tokens_of_mem_places h
  simp [Place.isLeftOut, hrest]

theorem tokens_prunedAll {t : Token} {i : Nat} {children : List (Tree α)}
    (ih : ∀ c ∈ children, c.pruned.nodes.map Tree.token =
      (c.places.filter fun p => !p.isLeftOut).map Place.token) :
    (nodesOf (prunedAll children)).map Tree.token =
      ((placesFrom t i children).filter fun p => !p.isLeftOut).map Place.token := by
  induction children generalizing i with
  | nil => rfl
  | cons c rest ihrest =>
    obtain ⟨hc, hrest⟩ := List.forall_mem_cons.1 ih
    have hhere : (c.places.map (Place.inside t i)).filter (fun p => !p.isLeftOut) =
        (c.places.filter fun p => !(c.token.isSkipped || p.isLeftOut)).map (Place.inside t i) := by
      rw [List.filter_map]
      congr 1
      exact List.filter_congr fun p hp => by simp [isLeftOut_inside hp]
    rw [prunedAll, placesFrom, List.filter_append, hhere, List.map_append, List.map_map,
      ← ihrest (i := i + 1) hrest]
    by_cases hskipped : c.token.isSkipped = true
    · simp [hskipped]
    · simp only [hskipped, Bool.false_eq_true, if_false, Bool.false_or, nodesOf, List.map_append, hc]
      rfl

/-- The nodes that stay when a tree is pruned are those of the places that are not left out. -/
theorem tokens_pruned (t : Tree α) :
    t.pruned.nodes.map Tree.token = (t.places.filter fun p => !p.isLeftOut).map Place.token := by
  induction t using Tree.induction with
  | node t note children ih =>
    rw [pruned, nodes, places, List.map_cons, tokens_prunedAll ih]
    rfl

/-- Over a place that lies in an error or is one, comments apart, there is a problem. -/
theorem exists_problem {t : Tree α} {p : Place} (hp : p ∈ t.places) (houtside : p.isOutside = true)
    (herror : (p.around ++ [p.token]).any Token.isError = true) :
    ∃ q ∈ t.places, q.isProblem = true ∧ q.path <+: p.path := by
  induction t using Tree.induction generalizing p with
  | node t note children ih =>
    have hroot (h : t.isComment = false) (h' : t.isError = true) :
        (⟨[], [], t⟩ : Place).isProblem = true := by
      simp [Place.isProblem, Place.isOutside, Place.inComment, Place.inError, h, h']
    rw [places, List.mem_cons, mem_placesFrom] at hp
    rcases hp with rfl | ⟨i, c, hc, p, hp, rfl⟩
    · refine ⟨_, List.mem_cons_self, hroot ?_ (by simpa using herror), List.prefix_rfl⟩
      simpa [Place.isOutside, Place.inComment] using houtside
    · simp only [Place.isOutside, Place.token_inside, Place.inComment_inside, Bool.not_or,
        Bool.and_eq_true, Bool.not_eq_true'] at houtside
      obtain ⟨htoken, hcomment, houtside⟩ := houtside
      by_cases hhere : t.isError = true
      · exact ⟨_, List.mem_cons_self, hroot hcomment hhere, List.nil_prefix⟩
      · -- the error is in the child, and so is the problem
        have hbelow : (p.around ++ [p.token]).any Token.isError = true := by
          simpa [hhere] using herror
        obtain ⟨q, hq, hproblem, hprefix⟩ := ih c (List.mem_of_getElem? hc) hp
          (by simp [Place.isOutside, htoken, houtside]) hbelow
        have hmem : q.inside t (0 + i) ∈ placesFrom t 0 children :=
          mem_placesFrom.2 ⟨i, c, hc, q, hq, rfl⟩
        refine ⟨_, List.mem_cons_of_mem _ hmem, ?_, (List.prefix_cons_inj _).2 hprefix⟩
        simpa [Place.isProblem, Place.isOutside, hcomment, hhere] using hproblem

end Tree

namespace Finding

variable {α : Type} {source : Source} {inError : Bool}

/-! ## What is found -/

/-- What is found at a place of a tree, which may lie in an error as a whole. -/
def at? (source : Source) (inError : Bool) (p : Tree.Place) : Option Finding :=
  if p.isComment then some (comment (p.comment source))
  else if p.isOutside && (p.token.missing || p.token.isError && !(inError || p.inError)) then
    some (diagnostic (p.diagnostic source))
  else none

theorem at?_inside_comment {t : Token} (h : t.isComment = true) (i : Nat) (p : Tree.Place) :
    at? source inError (p.inside t i) = none := by
  simp [at?, Tree.Place.isComment, Tree.Place.isOutside, h]

theorem at?_inside {t : Token} (h : t.isComment = false) (i : Nat) (p : Tree.Place) :
    at? source inError (p.inside t i) = at? source (inError || (t.isError && !t.missing)) p := by
  simp only [at?, Tree.Place.isComment, Tree.Place.isOutside, Tree.Place.inComment_inside,
    Tree.Place.inError_inside, Tree.Place.token_inside, Tree.Place.comment_inside,
    Tree.Place.diagnostic_inside, h, Bool.false_or, Bool.or_assoc]

/-- At the root of a tree nothing is around. -/
theorem toList_at?_root (t : Token) :
    (at? source inError ⟨[], [], t⟩).toList =
      if t.isComment then [comment (.ofText (t.text source) t.start t.stop)]
      else atToken source inError t := by
  simp only [at?, Tree.Place.isComment, Tree.Place.isOutside, Tree.Place.inComment, Tree.Place.inError,
    Tree.Place.comment, Tree.Place.diagnostic, atToken, List.any_nil, Bool.not_false, Bool.and_true, Bool.or_false]
  cases t.isComment <;> cases t.missing <;> cases t.isError <;> cases inError <;> rfl

theorem filterMap_placesFrom_comment {t : Token} (h : t.isComment = true) (i : Nat)
    (children : List (Tree α)) : (Tree.placesFrom t i children).filterMap (at? source inError) = [] := by
  rw [List.filterMap_eq_nil_iff]
  intro p hp
  obtain ⟨j, c, -, q, -, rfl⟩ := Tree.mem_placesFrom.1 hp
  exact at?_inside_comment h _ q

theorem filterMap_placesFrom {t : Token} (h : t.isComment = false) (i : Nat)
    {children : List (Tree α)}
    (ih : ∀ c ∈ children, ∀ inError, ofTree source inError c = c.places.filterMap (at? source inError)) :
    (Tree.placesFrom t i children).filterMap (at? source inError) =
      ofTrees source (inError || (t.isError && !t.missing)) children := by
  induction children generalizing i with
  | nil => rfl
  | cons c rest ihrest =>
    obtain ⟨hc, hrest⟩ := List.forall_mem_cons.1 ih
    have hinside : at? source inError ∘ Tree.Place.inside t i =
        at? source (inError || (t.isError && !t.missing)) := funext fun p => at?_inside h i p
    rw [Tree.placesFrom, List.filterMap_append, List.filterMap_map, hinside, ihrest (i + 1) hrest,
      ofTrees, hc]

/-- What a pass finds is found place by place: what it has noted on its way is what is around a place. -/
theorem ofTree_eq (source : Source) (inError : Bool) (t : Tree α) :
    ofTree source inError t = t.places.filterMap (at? source inError) := by
  induction t using Tree.induction generalizing inError with
  | node t note children ih =>
    have hsplit : (Tree.node t note children).places.filterMap (at? source inError) =
        (at? source inError ⟨[], [], t⟩).toList ++
          (Tree.placesFrom t 0 children).filterMap (at? source inError) := by
      rw [Tree.places, List.filterMap_cons]
      cases at? source inError ⟨[], [], t⟩ <;> rfl
    rw [ofTree, hsplit, toList_at?_root]
    by_cases hcomment : t.isComment = true
    · rw [filterMap_placesFrom_comment hcomment]
      simp [hcomment]
    · rw [filterMap_placesFrom (by simpa using hcomment) 0 ih]
      simp [hcomment]

/-- What is found at a place of a source. -/
theorem at?_false (source : Source) (p : Tree.Place) :
    at? source false p =
      if p.isComment then some (comment (p.comment source))
      else if p.isProblem then some (diagnostic (p.diagnostic source)) else none := rfl

end Finding

theorem Tree.Place.isComment_of_isProblem {p : Tree.Place} (h : p.isProblem = true) :
    p.isComment = false := by
  simp only [isProblem, isOutside, Bool.and_eq_true, Bool.not_eq_true'] at h
  simp [isComment, h.1.1]

theorem comments_eq (source : Source) (root : Cst) :
    comments source root = (root.places.filter Tree.Place.isComment).map (Tree.Place.comment source) := by
  rw [comments, Finding.ofTree_eq, List.filterMap_filterMap, ← List.filterMap_eq_map,
    List.filterMap_filter]
  congr 1
  funext p
  rw [Finding.at?_false]
  cases p.isComment <;> cases p.isProblem <;> rfl

theorem diagnostics_eq (source : Source) (root : Cst) :
    diagnostics source root = (root.places.filter Tree.Place.isProblem).map (Tree.Place.diagnostic source) := by
  rw [diagnostics, Finding.ofTree_eq, List.filterMap_filterMap, ← List.filterMap_eq_map,
    List.filterMap_filter]
  congr 1
  funext p
  rw [Finding.at?_false]
  by_cases hproblem : p.isProblem = true
  · simp [hproblem, Tree.Place.isComment_of_isProblem hproblem]
  · cases p.isComment <;> simp [hproblem]

/-- A source has no errors when nothing is missing or out of place in it, comments apart. -/
theorem diagnostics_eq_nil_iff {source : Source} {root : Cst} :
    diagnostics source root = [] ↔
      ∀ p ∈ root.places, p.isOutside = true → p.token.missing = false ∧ p.token.isError = false := by
  rw [diagnostics_eq, List.map_eq_nil_iff, List.filter_eq_nil_iff]
  constructor
  · intro h p hp houtside
    refine ⟨Bool.eq_false_iff.2 fun hmissing => h p hp ?_, Bool.eq_false_iff.2 fun herror => ?_⟩
    · simp [Tree.Place.isProblem, houtside, hmissing]
    · obtain ⟨q, hq, hproblem, -⟩ := Tree.exists_problem hp houtside (by simp [herror])
      exact h q hq hproblem
  · intro h p hp hproblem
    have houtside : p.isOutside = true := (Bool.and_eq_true_iff.1 hproblem).1
    simp [Tree.Place.isProblem, h p hp houtside] at hproblem

/-- Of a source and its tree, whatever is damaged in it:

    - The comments are those of the tree that are no parts of others, also where they stand in errors, and
      the problems are the nodes outside of comments that are missing or the outermost of those that are out
      of place. Both are told in document order and once each, with the ranges of their nodes.
    - A node outside of comments that is out of place or left out of the program lies under a problem that
      is told. What is not left out is what stays of the tree when it is pruned.
    - A parsed source tells these comments and problems. It has no errors if and only if nothing outside of
      comments is missing or out of place. -/
theorem findings_exact (source : Source) (root : Cst) :
    (root.places.Pairwise (fun p q => p.path < q.path) ∧
      (∀ p : Tree.Place, p ∈ root.places ↔ root.place? p.path = some p) ∧
      comments source root = (root.places.filter Tree.Place.isComment).map (Tree.Place.comment source) ∧
      diagnostics source root = (root.places.filter Tree.Place.isProblem).map (Tree.Place.diagnostic source)) ∧
    ((∀ p ∈ root.places, p.isOutside = true → p.token.isError = true ∨ p.isLeftOut = true →
        ∃ q ∈ root.places, q.isProblem = true ∧ q.path <+: p.path) ∧
      root.pruned.nodes.map Tree.token = (root.places.filter fun p => !p.isLeftOut).map Tree.Place.token) ∧
    ∀ (language : Language) (text : Text) (sourceType : Value) (parsed : Parsed),
      Parsed.ofSource language source text sourceType root = .ok parsed →
      parsed.comments = comments source root ∧ parsed.diagnostics = diagnostics source root ∧
      (parsed.hasErrors = false ↔
        ∀ p ∈ root.places, p.isOutside = true → p.token.missing = false ∧ p.token.isError = false) := by
  refine ⟨⟨root.pairwise_places, fun p => Tree.mem_places_iff, comments_eq source root,
    diagnostics_eq source root⟩, ⟨fun p hp houtside hskipped => ?_, root.tokens_pruned⟩, ?_⟩
  · refine Tree.exists_problem hp houtside ?_
    rcases hskipped with herror | hleft
    · simp [herror]
    · -- what is left out without a comment is left out for an error
      obtain ⟨t, ht, hskipped⟩ := List.any_eq_true.1 hleft
      have hmem := List.mem_of_mem_tail ht
      refine List.any_eq_true.2 ⟨t, hmem, ?_⟩
      have hcomment : t.isComment = false := by
        simp only [Tree.Place.isOutside, Tree.Place.inComment, Bool.and_eq_true, Bool.not_eq_true',
          List.any_eq_false] at houtside
        rcases List.mem_append.1 hmem with hmem | hmem
        · simpa using houtside.2 t hmem
        · rw [List.mem_singleton.1 hmem]
          exact houtside.1
      simpa [Token.isSkipped, hcomment] using hskipped
  · intro language text sourceType parsed hparsed
    unfold Parsed.ofSource at hparsed
    cases hprogram : Lowering.programOf source sourceType root with
    | error f => simp [hprogram, bind, Except.bind] at hparsed
    | ok program =>
      rw [hprogram] at hparsed
      cases hparsed
      refine ⟨rfl, rfl, ?_⟩
      rw [Parsed.hasErrors, ← diagnostics_eq_nil_iff, Bool.not_eq_false', List.isEmpty_iff]

namespace Sample

/-- The syntax of the source `f(#/**/@`, in which a parenthesis is missing, and `#/**/@` and `@` in it are
    out of place. -/
def damaged : Cst :=
  .branch "program" 0 8 none [
    .branch "expression_statement" 0 8 none [
      .branch "call_expression" 0 8 none [
        .leaf "identifier" true 0 1 (some "function"),
        .branch "arguments" 1 8 (some "arguments") [
          .leaf "(" false 1 2 none,
          .branch "ERROR" 2 8 none [
            .leaf "#" false 2 3 none,
            .leaf "comment" true 3 7 none,
            .branch "ERROR" 7 8 none [.leaf "@" false 7 8 none]],
          .node ⟨")", false, true, 8, 8, none⟩ () []]]]]

/-- The comment in the error is told, and of the two errors the outer one. -/
theorem findings_exact_damaged :
    comments (.ofText "f(#/**/@") damaged = [⟨true, "", 3, 7⟩] ∧
      diagnostics (.ofText "f(#/**/@") damaged =
        [⟨.unexpected "#/**/@", 2, 8⟩, ⟨.missing ")", 8, 8⟩] := by
  obtain ⟨⟨-, -, hcomments, hdiagnostics⟩, -⟩ := findings_exact (.ofText "f(#/**/@") damaged
  rw [hcomments, hdiagnostics]
  decide

end Sample

end Arbor
