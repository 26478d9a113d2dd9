/-
  The value stack.

  The height is kept beside the values, because it is compared with a limit
  before every instruction; `height_eq` ties the two.

  * `pop?_push`, `popMany?_eq`: what the operations do to the list of values.
-/
import Stacklet.Host.Value

namespace Stacklet

/-- Values, the top one first, and their number. -/
structure Stack where
  values : List Value
  height : Nat
  height_eq : height = values.length

namespace Stack

def empty : Stack := ⟨[], 0, rfl⟩

def push (s : Stack) (v : Value) : Stack :=
  ⟨v :: s.values, s.height + 1, by simp [s.height_eq]⟩

/-- The top value and what is below it. -/
def pop? (s : Stack) : Option (Value × Stack) :=
  match s with
  | ⟨[], _, _⟩ => none
  | ⟨v :: vs, height, h⟩ => some (v, ⟨vs, height - 1, by simp [h]⟩)

/-- The `count` top values, the topmost last, and what is below them. -/
def popMany? (s : Stack) (count : Nat) : Option (List Value × Stack) :=
  if count ≤ s.height then
    some ((s.values.take count).reverse,
      ⟨s.values.drop count, s.height - count, by simp [s.height_eq]⟩)
  else none

theorem ext {s t : Stack} (h : s.values = t.values) : s = t := by
  cases s
  cases t
  simp_all

@[simp] theorem values_push (s : Stack) (v : Value) : (s.push v).values = v :: s.values := rfl

@[simp] theorem height_push (s : Stack) (v : Value) : (s.push v).height = s.height + 1 := rfl

theorem pop?_push (s : Stack) (v : Value) : (s.push v).pop? = some (v, s) := by
  simp only [push, pop?, Option.some.injEq, Prod.mk.injEq, true_and]
  exact ext rfl

theorem pop?_eq_some_iff {s t : Stack} {v : Value} :
    s.pop? = some (v, t) ↔ s.values = v :: t.values := by
  obtain ⟨vs, height, h⟩ := s
  cases vs with
  | nil => simp [pop?]
  | cons w ws =>
    simp only [pop?, Option.some.injEq, Prod.mk.injEq, List.cons.injEq]
    constructor
    · rintro ⟨rfl, rfl⟩
      exact ⟨rfl, rfl⟩
    · rintro ⟨rfl, hw⟩
      exact ⟨rfl, ext hw⟩

theorem pop?_eq_none_iff {s : Stack} : s.pop? = none ↔ s.values = [] := by
  obtain ⟨vs, height, h⟩ := s
  cases vs <;> simp [pop?]

theorem popMany?_eq (s : Stack) (args : List Value) (t : Stack)
    (h : s.values = args.reverse ++ t.values) : s.popMany? args.length = some (args, t) := by
  have hs : args.length ≤ s.height := by simp [s.height_eq, h]
  simp only [popMany?, hs, ↓reduceIte, Option.some.injEq, Prod.mk.injEq]
  refine ⟨?_, ext ?_⟩
  · rw [h, List.take_append_of_le_length (by simp), List.take_of_length_le (by simp)]
    simp
  · show s.values.drop args.length = t.values
    rw [h, List.drop_append_of_le_length (by simp), List.drop_of_length_le (by simp)]
    rfl

end Stack

end Stacklet
