/-
  Pools: values numbered in the order of their first use.

  Values with one key share a number, and the first of them represents them.
  A hash map beside the values finds a number fast; `places_iff` says that it
  knows exactly the values.

  * `place?_eq_some_iff`: looking up a value gives the place that holds one
    with its key;
  * `values_intern`: interning appends a value that is new and changes nothing
    otherwise.
-/
import Std.Data.HashMap

namespace Stacklet

variable {α κ : Type} [BEq κ] [LawfulBEq κ] [Hashable κ] {key : α → κ}

/-- Distinct values, each with a number. -/
structure Pool {α κ : Type} [BEq κ] [LawfulBEq κ] [Hashable κ] (key : α → κ) where
  values : Array α
  places : Std.HashMap κ Nat
  places_iff : ∀ k i, places[k]? = some i ↔ values[i]?.map key = some k

namespace Pool

/-- Nothing interned. -/
def empty : Pool key where
  values := #[]
  places := ∅
  places_iff k i := by simp

/-- How many values there are. -/
def size (p : Pool key) : Nat := p.values.size

/-- The number of a value, if one with its key has been interned. -/
def place? (p : Pool key) (a : α) : Option Nat := p.places[key a]?

theorem place?_eq_some_iff {p : Pool key} {a : α} {i : Nat} :
    p.place? a = some i ↔ p.values[i]?.map key = some (key a) :=
  p.places_iff _ _

theorem place?_eq_none_iff {p : Pool key} {a : α} :
    p.place? a = none ↔ ∀ b ∈ p.values, key b ≠ key a := by
  rw [Option.eq_none_iff_forall_ne_some]
  simp only [ne_eq, place?_eq_some_iff, Array.mem_iff_getElem?]
  constructor
  · rintro h b ⟨i, hi⟩ hk
    exact h i (by simp [hi, hk])
  · intro h i hi
    obtain ⟨b, hb, hk⟩ := Option.map_eq_some_iff.1 hi
    exact h b ⟨i, hb⟩ hk

/-- Appends a value whose key is not there yet. -/
def push (p : Pool key) (a : α) (h : p.place? a = none) : Pool key :=
  match p, h with
  | ⟨values, places, places_iff⟩, h =>
    let more := places.insert (key a) values.size
    { values := values.push a
      places := more
      places_iff := by
        intro k i
        have hnew : ∀ j, values[j]?.map key ≠ some (key a) := fun j hj => by
          have := (places_iff (key a) j).2 hj
          simp only [place?] at h
          simp [h] at this
        rw [Std.HashMap.getElem?_insert, Array.getElem?_push]
        by_cases hk : key a = k
        · subst hk
          by_cases hi : i = values.size
          · simp [hi]
          · simpa [hi, Ne.symm hi] using fun x hx hkx => hnew i (by simp [hx, hkx])
        · by_cases hi : i = values.size
          · have hn : values[i]? = none := by simp [hi]
            have : places[k]? ≠ some i := fun hp => by
              simpa [hn] using (places_iff k i).1 hp
            simpa [hk, hi] using hi ▸ this
          · simp [hk, hi, places_iff] }

/-- The number of a value, which is appended if it is new. -/
def intern (p : Pool key) (a : α) : Nat × Pool key :=
  match h : p.place? a with
  | some i => (i, p)
  | none => (p.values.size, p.push a h)

theorem values_push (p : Pool key) (a : α) (h : p.place? a = none) :
    (p.push a h).values = p.values.push a := rfl

theorem values_intern (p : Pool key) (a : α) :
    (p.intern a).2.values =
      if (p.place? a).isSome then p.values else p.values.push a := by
  unfold intern
  split
  · rename_i i h
    simp [h]
  · rename_i h
    simp [h, values_push]

end Pool

end Stacklet
