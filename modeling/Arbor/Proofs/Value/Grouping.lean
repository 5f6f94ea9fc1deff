import Arbor.Fields
import Mathlib.Data.List.Induction
import Mathlib.Data.List.Nodup
import Mathlib.Data.List.Perm.Basic

set_option autoImplicit false

/-! # Grouping by keys

Values that come with keys are grouped: the keys stand in the order of their first occurrence, and the values of a
key in their own order. Grouping neither loses nor repeats a value (`perm_groups`). Fields that hold what a function
says of each of several keys change, when one of them is stored, as the function does (`Fields.set_map`). -/

namespace Arbor

theorem eraseDups_concat {α : Type} [DecidableEq α] (l : List α) (a : α) :
    (l ++ [a]).eraseDups = if a ∈ l then l.eraseDups else l.eraseDups ++ [a] := by
  rw [List.eraseDups_append]
  split
  · next ha => simp [List.removeAll, ha]
  · next ha => simp [List.removeAll, ha, List.eraseDups_cons]

theorem nodup_eraseDups {α : Type} [DecidableEq α] (l : List α) : l.eraseDups.Nodup := by
  induction l using List.reverseRecOn with
  | nil => exact .nil
  | append_singleton l a ih =>
    rw [eraseDups_concat]
    split
    · exact ih
    · next ha =>
      refine List.nodup_append.2 ⟨ih, List.nodup_singleton a, fun b hb c hc hbc => ha ?_⟩
      rwa [← List.mem_singleton.1 hc, ← hbc, ← List.mem_eraseDups]

section

variable {K V : Type} [DecidableEq K]

/-- The keys in the order of their first occurrence. -/
def groupKeys (entries : List (K × V)) : List K := (entries.map Prod.fst).eraseDups

/-- The values of a key, in order. -/
def group (entries : List (K × V)) (key : K) : List V := (entries.filter fun e => e.1 = key).map Prod.snd

theorem groupKeys_concat (entries : List (K × V)) (key : K) (v : V) :
    groupKeys (entries ++ [(key, v)]) =
      if key ∈ groupKeys entries then groupKeys entries else groupKeys entries ++ [key] := by
  simp only [groupKeys, List.map_append, List.map_singleton, eraseDups_concat, List.mem_eraseDups]

theorem group_concat (entries : List (K × V)) (key key' : K) (v : V) :
    group (entries ++ [(key, v)]) key' =
      if key = key' then group entries key' ++ [v] else group entries key' := by
  by_cases h : key = key'
  · simp [group, h]
  · simp [group, h]

theorem group_eq_nil_iff (entries : List (K × V)) (key : K) :
    group entries key = [] ↔ key ∉ groupKeys entries := by
  rw [group, List.map_eq_nil_iff, List.filter_eq_nil_iff, groupKeys, List.mem_eraseDups]
  simp only [List.mem_map, decide_eq_true_eq, not_exists, not_and]

theorem mem_of_mem_group {entries : List (K × V)} {key : K} {v : V} (h : v ∈ group entries key) :
    (key, v) ∈ entries := by
  obtain ⟨e, he, rfl⟩ := List.mem_map.1 h
  obtain ⟨hmem, hkey⟩ := List.mem_filter.1 he
  rwa [← of_decide_eq_true hkey]

/-- The groups of all keys together hold each value exactly once. -/
theorem perm_groups (entries : List (K × V)) :
    ((groupKeys entries).flatMap (group entries)).Perm (entries.map Prod.snd) := by
  induction h : entries.length using Nat.strongRecOn generalizing entries with
  | ind n ih =>
    cases entries with
    | nil => exact .refl _
    | cons e rest =>
      obtain ⟨key, v⟩ := e
      -- the first key takes its group, and the others are grouped as if it had never been there
      let others := rest.filter fun e => !decide (e.1 = key)
      have hkeys : groupKeys ((key, v) :: rest) = key :: groupKeys others := by
        rw [groupKeys, groupKeys, List.map_cons, List.eraseDups_cons, List.filter_map]
        congr 3
      have hgroup : ∀ other ∈ groupKeys others, group ((key, v) :: rest) other = group others other := by
        intro other hother
        obtain ⟨e, he, rfl⟩ := List.mem_map.1 (List.mem_eraseDups.1 hother)
        have hne : ¬ e.1 = key := by simpa using (List.mem_filter.1 he).2
        rw [group, List.filter_cons_of_neg (by simp [Ne.symm hne]), group, List.filter_filter]
        congr 1
        exact List.filter_congr fun e' _ => by
          by_cases heq : e'.1 = e.1
          · simp [heq, hne]
          · simp [heq]
      have hshort : others.length < n := by
        rw [← h, List.length_cons]
        exact Nat.lt_succ_of_le (List.length_filter_le _ _)
      have hfirst : group ((key, v) :: rest) key = v :: group rest key := by simp [group]
      rw [hkeys, List.flatMap_cons, hfirst, List.flatMap_congr hgroup, List.map_cons, List.cons_append]
      refine ((ih _ hshort others rfl).append_left _).trans ?_ |>.cons v
      rw [group, ← List.map_append]
      exact (List.filter_append_perm _ rest).map Prod.snd

namespace Fields

/-- Fields that hold what `f` says of several keys. -/
theorem get?_map (keys : List K) (f : K → V) (key : K) :
    get? (keys.map fun k => (k, f k)) key = if key ∈ keys then some (f key) else none := by
  induction keys with
  | nil => rfl
  | cons k keys ih =>
    rw [List.map_cons, get?_cons, ih]
    by_cases h : k = key
    · simp [h]
    · simp [h, Ne.symm h]

/-- When one of the keys is stored, its place stays and the others hold what they held. -/
theorem set_map {keys : List K} (hnodup : keys.Nodup) {f g : K → V} {key : K}
    (hg : ∀ k, k ≠ key → g k = f k) :
    set (keys.map fun k => (k, f k)) key (g key) =
      (if key ∈ keys then keys else keys ++ [key]).map fun k => (k, g k) := by
  have hsame (l : List K) (hl : key ∉ l) : (l.map fun k => (k, f k)) = l.map fun k => (k, g k) :=
    List.map_congr_left fun k hk => by rw [hg k fun heq => hl (heq ▸ hk)]
  induction keys with
  | nil => rfl
  | cons k keys ih =>
    obtain ⟨hk, hkeys⟩ := List.nodup_cons.1 hnodup
    by_cases h : k = key
    · subst h
      simp [set, hsame keys hk]
    · have hmem : key ∈ k :: keys ↔ key ∈ keys := by simp [Ne.symm h]
      simp only [List.map_cons, set, if_neg h, ih hkeys, hmem]
      split <;> simp [hg k h]

end Fields

end

end Arbor
