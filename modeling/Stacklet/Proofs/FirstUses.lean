/-
  Lists without repeats, and pools as such lists.

  `firstUses key` keeps, of all values with one key, the first. A pool filled
  from a list holds the first uses of the list.

  * `mem_of_mem_firstUses`, `nodup_firstUses`: only values of the list are kept, and
    one for each key;
  * `find?_firstUses`: the value that is kept for a key is the first with it;
  * `length_firstUses`: as many values are kept as there are keys;
  * `values_intern_firstUses`, `getElem?_intern`: what interning does to the
    values of a pool, and where it says that a value is.
-/
import Mathlib.Data.Finset.Card
import Stacklet.Pool

namespace Stacklet

/-- Values with one key stand in one place, if no key is repeated. -/
theorem eq_of_getElem?_key {α κ : Type} {key : α → κ} {as : List α} (hn : (as.map key).Nodup)
    {k n : Nat} {a b : α} (ha : as[k]? = some a) (hb : as[n]? = some b)
    (hkey : key a = key b) : k = n := by
  obtain ⟨hk, rfl⟩ := List.getElem?_eq_some_iff.1 ha
  obtain ⟨hl, rfl⟩ := List.getElem?_eq_some_iff.1 hb
  rw [← List.length_map key] at hk hl
  have hmap : (as.map key)[k] = (as.map key)[n] := by
    rw [List.getElem_map, List.getElem_map, hkey]
  exact hn.getElem_inj_iff.1 hmap

section
variable {α κ : Type} [DecidableEq κ] (key : α → κ)

/-- Appends a value unless one with its key is there already. -/
def addNew (seen : List α) (a : α) : List α :=
  if key a ∈ seen.map key then seen else seen ++ [a]

/-- The values of a list without those whose key an earlier one has. -/
def firstUses (as : List α) : List α := as.foldl (addNew key) []

variable {key}

theorem mem_map_addNew {seen : List α} {a : α} {k : κ} :
    k ∈ (addNew key seen a).map key ↔ k ∈ seen.map key ∨ k = key a := by
  unfold addNew
  split_ifs with h
  · constructor
    · exact Or.inl
    · rintro (hk | rfl)
      · exact hk
      · exact h
  · simp

theorem mem_map_foldl_addNew {as seen : List α} {k : κ} :
    k ∈ (as.foldl (addNew key) seen).map key ↔ k ∈ seen.map key ∨ k ∈ as.map key := by
  induction as generalizing seen with
  | nil => simp
  | cons a as ih => rw [List.foldl_cons, ih, mem_map_addNew, or_assoc, List.map_cons, List.mem_cons]

theorem mem_of_mem_foldl_addNew {as seen : List α} {a : α} (h : a ∈ as.foldl (addNew key) seen) :
    a ∈ seen ∨ a ∈ as := by
  induction as generalizing seen with
  | nil => exact Or.inl h
  | cons b as ih =>
    rcases ih h with h | h
    · unfold addNew at h
      split_ifs at h
      · exact Or.inl h
      · rcases List.mem_append.1 h with h | h
        · exact Or.inl h
        · exact Or.inr (List.mem_cons.2 (Or.inl (List.mem_singleton.1 h)))
    · exact Or.inr (List.mem_cons_of_mem b h)

/-- Only values of the list are kept. -/
theorem mem_of_mem_firstUses {as : List α} {a : α} (h : a ∈ firstUses key as) : a ∈ as :=
  (mem_of_mem_foldl_addNew h).resolve_left List.not_mem_nil

theorem prefix_addNew (seen : List α) (a : α) : seen <+: addNew key seen a := by
  unfold addNew
  split_ifs
  · exact List.prefix_rfl
  · exact List.prefix_append _ _

theorem prefix_foldl_addNew (as seen : List α) : seen <+: as.foldl (addNew key) seen := by
  induction as generalizing seen with
  | nil => exact List.prefix_rfl
  | cons a as ih => exact (prefix_addNew seen a).trans (ih _)

theorem nodup_addNew {seen : List α} (h : (seen.map key).Nodup) (a : α) :
    ((addNew key seen a).map key).Nodup := by
  unfold addNew
  split_ifs with ha
  · exact h
  · rw [List.map_append, List.map_singleton]
    exact (List.concat_eq_append ▸ h.concat ha)

theorem nodup_foldl_addNew {seen : List α} (h : (seen.map key).Nodup) (as : List α) :
    ((as.foldl (addNew key) seen).map key).Nodup := by
  induction as generalizing seen with
  | nil => exact h
  | cons a as ih => exact ih (nodup_addNew h a)

theorem nodup_firstUses (as : List α) : ((firstUses key as).map key).Nodup :=
  nodup_foldl_addNew (by exact List.nodup_nil) as

theorem mem_map_firstUses {as : List α} {k : κ} :
    k ∈ (firstUses key as).map key ↔ k ∈ as.map key := by
  rw [firstUses, mem_map_foldl_addNew]
  simp

theorem firstUses_append (as more : List α) :
    firstUses key (as ++ more) = more.foldl (addNew key) (firstUses key as) :=
  List.foldl_append

/-- What is kept of a list stands in front of what is kept of a longer one. -/
theorem prefix_firstUses_append (as more : List α) :
    firstUses key as <+: firstUses key (as ++ more) := by
  rw [firstUses_append]
  exact prefix_foldl_addNew more _

/-- A last value with a key of its own is kept. -/
theorem firstUses_concat {as : List α} {a : α} (h : key a ∉ as.map key) :
    firstUses key (as ++ [a]) = firstUses key as ++ [a] := by
  rw [firstUses_append]
  exact if_neg (mt mem_map_firstUses.1 h)

theorem find?_addNew (seen : List α) (a : α) (k : κ) :
    (addNew key seen a).find? (key · = k) = (seen ++ [a]).find? (key · = k) := by
  unfold addNew
  split_ifs with h
  · rw [List.find?_append]
    cases hs : seen.find? (key · = k) with
    | some b => rfl
    | none =>
      -- no value has the key `k`, but one has that of `a`
      have hk : key a ≠ k := by
        rintro rfl
        obtain ⟨b, hb, hba⟩ := List.mem_map.1 h
        simpa [hba] using List.find?_eq_none.1 hs b hb
      simp [hk]
  · rfl

theorem find?_foldl_addNew (as seen : List α) (k : κ) :
    (as.foldl (addNew key) seen).find? (key · = k) = (seen ++ as).find? (key · = k) := by
  induction as generalizing seen with
  | nil => simp
  | cons a as ih =>
    rw [List.foldl_cons, ih, List.find?_append, find?_addNew, ← List.find?_append,
      List.append_assoc, List.singleton_append]

/-- The value kept for a key is the first that has it. -/
theorem find?_firstUses (as : List α) (k : κ) :
    (firstUses key as).find? (key · = k) = as.find? (key · = k) := by
  rw [firstUses, find?_foldl_addNew, List.nil_append]

/-- As many values are kept as there are keys. -/
theorem length_firstUses (as : List α) :
    (firstUses key as).length = (as.map key).toFinset.card := by
  have hn : ((firstUses key as).map key).Nodup := nodup_firstUses as
  have hm : ((firstUses key as).map key).toFinset = (as.map key).toFinset := by
    ext k
    rw [List.mem_toFinset, List.mem_toFinset, mem_map_firstUses]
  rw [← hm, List.toFinset_card_of_nodup hn, List.length_map]

end

/-! ## Pools -/

namespace Pool

variable {α κ : Type} [DecidableEq κ] [Hashable κ] {key : α → κ}

theorem isSome_place? {p : Pool key} {a : α} :
    (p.place? a).isSome ↔ key a ∈ p.values.toList.map key := by
  rw [Option.isSome_iff_ne_none, ne_eq, place?_eq_none_iff]
  simp only [List.mem_map, Array.mem_toList_iff, ne_eq, not_forall, not_not, exists_prop]

theorem values_intern_toList (p : Pool key) (a : α) :
    (p.intern a).2.values.toList = addNew key p.values.toList a := by
  rw [values_intern, addNew]
  by_cases h : key a ∈ p.values.toList.map key
  · rw [if_pos (isSome_place?.2 h), if_pos h]
  · rw [if_neg (mt isSome_place?.1 h), if_neg h, Array.toList_push]

/-- A pool that holds the first uses goes on holding them. -/
theorem values_intern_firstUses {p : Pool key} {as : List α}
    (h : p.values.toList = firstUses key as) (a : α) :
    (p.intern a).2.values.toList = firstUses key (as ++ [a]) := by
  rw [values_intern_toList, h, firstUses_append]
  rfl

/-- The number of a value is where one with its key is. -/
theorem getElem?_intern (p : Pool key) (a : α) :
    (p.intern a).2.values[(p.intern a).1]?.map key = some (key a) := by
  unfold intern
  split
  · rename_i i h
    exact place?_eq_some_iff.1 h
  · simp [values_push]

/-- A new value gets the next number. -/
theorem fst_intern_of_new {p : Pool key} {a : α} (h : key a ∉ p.values.toList.map key) :
    (p.intern a).1 = p.values.toList.length := by
  unfold intern
  split
  · rename_i i hi
    exact absurd (isSome_place?.1 (by rw [hi]; rfl)) h
  · simp

theorem fst_intern_lt (p : Pool key) (a : α) :
    (p.intern a).1 < (addNew key p.values.toList a).length := by
  obtain ⟨b, hb, -⟩ := Option.map_eq_some_iff.1 (getElem?_intern p a)
  obtain ⟨hi, -⟩ := Array.getElem?_eq_some_iff.1 hb
  rwa [← Array.length_toList, values_intern_toList] at hi

end Pool

end Stacklet
