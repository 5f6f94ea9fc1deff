import Arbor.Proofs.Scope.Keys
import Mathlib.Data.List.Infix

set_option autoImplicit false

/-! # Ancestry by keys

Keys tell the scopes around a scope as faithfully as paths do (`ScopePath.keys_faithful`). One key lies under
another one exactly if its path goes on from the other path, and, unless the other scope is the root, exactly if
its text goes on from the other text with a hyphen (`ScopePath.startsWith_key_iff`). So digits that go on from
other digits are never taken for a scope inside. -/

namespace Arbor.ScopePath

/-! ## Keys that are written -/

/-- The key of a path as it is written. -/
def written (path : ScopePath) : Except Fault Text := hyphenated (path.map fun n : Nat => (n : Int))

theorem mapM_written_of_isWritable {path : ScopePath} (h : path.IsWritable) :
    (path.map fun n : Nat => (n : Int)).mapM Integer.written = .ok (path.map fun n : Nat => Text.ofInt n) := by
  induction path with
  | nil => rfl
  | cons n path ih =>
    obtain ⟨hn, hpath⟩ := List.forall_mem_cons.1 h
    have hwritten : Integer.written n = .ok (Text.ofInt n) := if_neg (Nat.not_lt.2 hn)
    rw [List.map_cons, List.mapM_cons, hwritten, ih hpath]
    rfl

theorem written_of_isWritable {path : ScopePath} (h : path.IsWritable) : path.written = .ok path.key := by
  rw [written, hyphenated, mapM_written_of_isWritable h]
  rfl

theorem keyIsUnder_key {inner outer : ScopePath} (hinner : inner.IsWritable) (houter : outer.IsWritable) :
    keyIsUnder inner.key outer.key = .ok (inner.isUnder outer) := by
  rw [keyIsUnder, ofKey_key hinner, ofKey_key houter]
  rfl

/-! ## Proper beginnings -/

theorem isUnder_iff_begins (inner outer : ScopePath) :
    inner.isUnder outer = true ↔ outer <+: inner ∧ outer ≠ inner := by
  rw [isUnder, Bool.and_eq_true, decide_eq_true_eq, List.isPrefixOf_iff_prefix]
  constructor
  · rintro ⟨hlt, hbegins⟩
    refine ⟨hbegins, ?_⟩
    rintro rfl
    exact absurd hlt (Nat.lt_irrefl _)
  · rintro ⟨hbegins, hne⟩
    refine ⟨Nat.lt_of_not_le fun hle => hne ?_, hbegins⟩
    exact hbegins.eq_of_length_le hle

theorem isUnder_trans {p q r : ScopePath} (hpq : p.isUnder q = true) (hqr : q.isUnder r = true) :
    p.isUnder r = true := by
  obtain ⟨n, more, rfl⟩ := (isUnder_iff p q).1 hpq
  obtain ⟨m, rest, rfl⟩ := (isUnder_iff q r).1 hqr
  exact (isUnder_iff _ r).2 ⟨m, rest ++ n :: more, by rw [List.append_assoc, List.cons_append]⟩

/-- Of two scopes around the same one, one is around the other. -/
theorem isUnder_total {p q r : ScopePath} (hpq : p.isUnder q = true) (hpr : p.isUnder r = true) :
    q = r ∨ q.isUnder r = true ∨ r.isUnder q = true := by
  obtain ⟨hq, -⟩ := (isUnder_iff_begins p q).1 hpq
  obtain ⟨hr, -⟩ := (isUnder_iff_begins p r).1 hpr
  by_cases heq : q = r
  · exact .inl heq
  · obtain h | h := List.prefix_or_prefix_of_prefix hq hr
    · exact .inr (.inr ((isUnder_iff_begins r q).2 ⟨h, heq⟩))
    · exact .inr (.inl ((isUnder_iff_begins q r).2 ⟨h, Ne.symm heq⟩))

/-! ## Beginnings of keys -/

/-- The key of a path that goes on from another one goes on from its key with a hyphen. -/
theorem key_append {path more : ScopePath} (hpath : path ≠ []) (hmore : more ≠ []) :
    (key (path ++ more)).points = path.key.points ++ CodePoint.ofChar '-' :: more.key.points := by
  rw [key, List.map_append]
  exact Text.join_append "-" (by simpa using hpath) (by simpa using hmore)

/-- Inside a scope that is not the root are the scopes whose keys go on from its key with a hyphen. -/
theorem startsWith_key_iff {inner outer : ScopePath} (houter : outer ≠ []) :
    inner.key.startsWith (outer.key ++ "-") = true ↔ inner.isUnder outer = true := by
  rw [Text.startsWith, List.isPrefixOf_iff_prefix]
  constructor
  · rintro ⟨rest, hrest⟩
    have hpoints : inner.key.points = outer.key.points ++ CodePoint.ofChar '-' :: rest := by
      rw [← hrest, Text.points_append, List.append_assoc]
      rfl
    have hinner : inner ≠ [] := by
      rintro rfl
      simp [key, Text.join] at hpoints
    -- the pieces of the longer key begin with those of the shorter one, and at least one more follows
    have hpieces : inner.map (fun n : Nat => Text.ofInt n) =
        outer.map (fun n : Nat => Text.ofInt n) ++ Text.split ⟨rest⟩ '-' := by
      rw [← split_key inner hinner, ← split_key outer houter]
      exact Text.split_append hpoints
    obtain ⟨common, ⟨more, rfl⟩, hcommon⟩ := List.prefix_map_iff.1 ⟨_, hpieces.symm⟩
    obtain rfl : outer = common := (List.map_inj_right fun _ _ => Text.ofNat_inj.1).1 hcommon
    rw [List.map_append] at hpieces
    have hmore : more ≠ [] := by
      rintro rfl
      exact Text.split_ne_nil ⟨rest⟩ (List.append_cancel_left hpieces).symm
    obtain ⟨n, more, rfl⟩ := List.exists_cons_of_ne_nil hmore
    exact (isUnder_iff _ outer).2 ⟨n, more, rfl⟩
  · intro h
    obtain ⟨n, more, rfl⟩ := (isUnder_iff inner outer).1 h
    refine ⟨(key (n :: more)).points, ?_⟩
    rw [key_append houter (List.cons_ne_nil n more), Text.points_append, List.append_assoc]
    rfl

/-- Paths whose keys can be written have keys that tell everything about them:

    - A key is read as its path, so different paths have different keys.
    - One key lies under another one exactly if the other path is a proper beginning of its path and, unless the
      other path is that of the root, exactly if it goes on from the other key with a hyphen.
    - So no key lies under itself, what lies under a key lies under all that the key lies under, and of two keys
      that a key lies under, one lies under the other. -/
theorem keys_faithful {p q r : ScopePath} (hp : p.IsWritable) (hq : q.IsWritable) (hr : r.IsWritable) :
    ∃ a b c, p.written = .ok a ∧ q.written = .ok b ∧ r.written = .ok c ∧
      ofKey a = .ok p ∧ (a = b → p = q) ∧
      (∃ under, keyIsUnder a b = .ok under ∧ (under = true ↔ q <+: p ∧ q ≠ p) ∧
        (q ≠ [] → (under = true ↔ a.startsWith (b ++ "-") = true))) ∧
      keyIsUnder a a = .ok false ∧
      (keyIsUnder a b = .ok true → keyIsUnder b c = .ok true → keyIsUnder a c = .ok true) ∧
      (keyIsUnder a b = .ok true → keyIsUnder a c = .ok true →
        b = c ∨ keyIsUnder b c = .ok true ∨ keyIsUnder c b = .ok true) := by
  refine ⟨p.key, q.key, r.key, written_of_isWritable hp, written_of_isWritable hq, written_of_isWritable hr,
    ofKey_key hp, fun h => key_injective h, ?_, ?_, ?_, ?_⟩
  · refine ⟨p.isUnder q, keyIsUnder_key hp hq, isUnder_iff_begins p q, fun hne => ?_⟩
    exact (startsWith_key_iff hne).symm
  · rw [keyIsUnder_key hp hp, not_isUnder_self]
  · rw [keyIsUnder_key hp hq, keyIsUnder_key hq hr, keyIsUnder_key hp hr]
    simp only [Except.ok.injEq]
    exact isUnder_trans
  · rw [keyIsUnder_key hp hq, keyIsUnder_key hp hr, keyIsUnder_key hq hr, keyIsUnder_key hr hq]
    simp only [Except.ok.injEq]
    intro hpq hpr
    exact (isUnder_total hpq hpr).imp_left (congrArg key)

example : keyIsUnder "10-0" "1" = .ok false := rfl

namespace Sample

/-- The scope `1-10` lies in `1`, and so does `1-10-2`, which lies in `1-10`. -/
theorem keys_faithful_nested :
    IsWritable [1, 10, 2] ∧ IsWritable [1, 10] ∧ IsWritable [1] ∧
      keyIsUnder "1-10-2" "1-10" = .ok true ∧ keyIsUnder "1-10" "1" = .ok true ∧
      keyIsUnder "1-10-2" "1" = .ok true := by
  have hp : IsWritable [1, 10, 2] := by decide
  have hq : IsWritable [1, 10] := by decide
  have hr : IsWritable [1] := by decide
  obtain ⟨a, b, c, ha, hb, hc, -, -, -, -, htrans, -⟩ := keys_faithful hp hq hr
  obtain rfl : "1-10-2" = a := Except.ok.inj ha
  obtain rfl : "1-10" = b := Except.ok.inj hb
  obtain rfl : "1" = c := Except.ok.inj hc
  exact ⟨hp, hq, hr, rfl, rfl, htrans rfl rfl⟩

end Sample

end Arbor.ScopePath
