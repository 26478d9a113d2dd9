/-
  A pool in use.

  Whatever a caller asks of a pool and in whatever order, the values interned so
  far decide the reply. The pool lists them without those that have the key of an
  earlier one, and a number that it has given to a value stays that of the value.

  Keys are what is equal about values: those of doubles tell no zeros and no NaNs
  apart (`Constant.key_eq_key_iff`), those of names are the names.

  * `firstUses_eq_eraseDupsBy`: the list without repeats, from the front;
  * `values_answer` is the step and `values_serve` the run: what requests make of
    the values;
  * `expected_answer`, `exists_reply`: the reply to a request alone and among others;
  * `serve_spec`: all replies, and the values in the end.
-/
import Stacklet.Constant
import Stacklet.Proofs.FirstUses

namespace Stacklet

/-! ## Equal keys -/

namespace Binary64

theorem not_isNaN_of_isZero {x : Binary64} (h : x.isZero) : x.isNaN = false := by
  have hword : x.word % signBit = 0 := by simpa [isZero] using h
  have hfield : x.exponentField = 0 := by
    have := x.bits.toNat_lt
    simp only [exponentField, leadingOne, signBit, word] at hword ⊢
    omega
  simp [isNaN, hfield]

theorem isNaN_canonical (x : Binary64) : x.canonical.isNaN = x.isNaN := by
  unfold canonical
  split_ifs with hnan hzero
  · rw [hnan]; rfl
  · rw [not_isNaN_of_isZero hzero]; rfl
  · rfl

theorem isZero_canonical (x : Binary64) : x.canonical.isZero = x.isZero := by
  unfold canonical
  split_ifs with hnan hzero
  · cases hzero : x.isZero
    · rfl
    · rw [not_isNaN_of_isZero hzero] at hnan
      cases hnan
  · rw [hzero]; rfl
  · rfl

/-- Doubles have one canonical word if they are the same, both NaNs or both
    zeros. -/
theorem canonical_eq_canonical_iff {x y : Binary64} :
    x.canonical = y.canonical ↔ x = y ∨ x.isNaN ∧ y.isNaN ∨ x.isZero ∧ y.isZero := by
  constructor
  · intro h
    have hnan : x.isNaN = y.isNaN := by rw [← x.isNaN_canonical, h, y.isNaN_canonical]
    have hzero : x.isZero = y.isZero := by rw [← x.isZero_canonical, h, y.isZero_canonical]
    by_cases hxnan : x.isNaN
    · exact Or.inr (Or.inl ⟨hxnan, hnan ▸ hxnan⟩)
    · by_cases hxzero : x.isZero
      · exact Or.inr (Or.inr ⟨hxzero, hzero ▸ hxzero⟩)
      · left
        rwa [canonical, if_neg hxnan, if_neg hxzero, canonical, if_neg (hnan ▸ hxnan),
          if_neg (hzero ▸ hxzero)] at h
  · rintro (rfl | ⟨hx, hy⟩ | ⟨hx, hy⟩)
    · rfl
    · rw [canonical, if_pos hx, canonical, if_pos hy]
    · simp [canonical, not_isNaN_of_isZero, hx, hy]

end Binary64

/-- Constants share a number if they are the same, both NaNs or both zeros. -/
theorem Constant.key_eq_key_iff {c d : Constant} :
    c.key = d.key ↔ c = d ∨ ∃ x y, c = .float x ∧ d = .float y ∧
      (x.isNaN ∧ y.isNaN ∨ x.isZero ∧ y.isZero) := by
  cases c with
  | float x =>
    cases d with
    | float y => simp [Constant.key, Binary64.canonical_eq_canonical_iff]
    | none | int => simp [Constant.key]
  | none | int => cases d <;> simp [Constant.key]

/-! ## From the front -/

section
variable {α κ : Type} [DecidableEq κ] {key : α → κ}

theorem foldl_addNew_eq (as seen : List α) :
    as.foldl (addNew key) seen =
      seen ++ (as.filter fun a => key a ∉ seen.map key).eraseDupsBy fun a b => key a = key b := by
  induction as generalizing seen with
  | nil => simp
  | cons a as ih =>
    rw [List.foldl_cons, ih, addNew]
    by_cases ha : key a ∈ seen.map key
    · rw [if_pos ha, List.filter_cons_of_neg (by simpa using ha)]
    · rw [if_neg ha, List.filter_cons_of_pos (by simpa using ha), List.eraseDupsBy_cons,
        List.filter_filter, List.append_assoc, List.singleton_append]
      congr 3
      refine List.filter_congr fun b _ => ?_
      rw [Bool.eq_iff_iff]
      simp only [List.map_append, List.map_singleton, List.mem_append, List.mem_singleton,
        Bool.and_eq_true, decide_eq_true_eq, decide_eq_false_iff_not, not_or]
      exact and_comm

/-- The first uses are what is left when, behind every value, those with its key
    are dropped. -/
theorem firstUses_eq_eraseDupsBy (as : List α) :
    firstUses key as = as.eraseDupsBy fun a b => key a = key b := by
  rw [firstUses, foldl_addNew_eq]
  simp

end

/-! ## Requests -/

/-- What is asked of a pool. -/
inductive Request (α : Type) where
  | intern (a : α)
  | lookup (a : α)
  | snapshot
  | size
  | isEmpty

/-- What it answers. -/
inductive Reply (α : Type) where
  | place (i : Nat)
  | found (i : Option Nat)
  | values (as : List α)
  | count (n : Nat)
  | truth (b : Bool)

/-- The value that a request interns. -/
def Request.interned? {α : Type} : Request α → Option α
  | intern a => some a
  | _ => none

/-- The values that requests intern. -/
def internedBy {α : Type} (rs : List (Request α)) : List α := rs.filterMap Request.interned?

namespace Pool

variable {α κ : Type} [DecidableEq κ] [Hashable κ] {key : α → κ}

/-- Answers a request. -/
def answer (p : Pool key) : Request α → Reply α × Pool key
  | .intern a => (.place (p.intern a).1, (p.intern a).2)
  | .lookup a => (.found (p.place? a), p)
  | .snapshot => (.values p.values.toList, p)
  | .size => (.count p.size, p)
  | .isEmpty => (.truth p.values.isEmpty, p)

/-- Answers requests in turn. -/
def serve (p : Pool key) : List (Request α) → List (Reply α) × Pool key
  | [] => ([], p)
  | r :: rs =>
    match p.answer r with
    | (reply, p) =>
      match p.serve rs with
      | (replies, p) => (reply :: replies, p)

/-- The answer that the values `as` interned so far decide. -/
inductive Expected (key : α → κ) (as : List α) : Request α → Reply α → Prop
  /-- a place that holds the value then, or one with its key -/
  | intern {a i} : (firstUses key (as ++ [a]))[i]?.map key = some (key a) →
      Expected key as (.intern a) (.place i)
  | known {a i} : key a ∈ as.map key → (firstUses key as)[i]?.map key = some (key a) →
      Expected key as (.lookup a) (.found (some i))
  | unknown {a} : key a ∉ as.map key → Expected key as (.lookup a) (.found none)
  | snapshot : Expected key as .snapshot (.values (firstUses key as))
  | size : Expected key as .size (.count (firstUses key as).length)
  | isEmpty : Expected key as .isEmpty (.truth as.isEmpty)

/-- What one request makes of the values. -/
theorem values_answer {p : Pool key} {as : List α} (h : p.values.toList = firstUses key as)
    (r : Request α) : (p.answer r).2.values.toList = firstUses key (as ++ internedBy [r]) := by
  cases r with
  | intern a => exact values_intern_firstUses h a
  | lookup | snapshot | size | isEmpty => exact (List.append_nil as).symm ▸ h

/-- **The reply to one request.** -/
theorem expected_answer {p : Pool key} {as : List α} (h : p.values.toList = firstUses key as)
    (r : Request α) : Expected key as r (p.answer r).1 := by
  cases r with
  | intern a =>
    have hplace := p.getElem?_intern a
    rw [← Array.getElem?_toList, values_intern_firstUses h a] at hplace
    exact .intern hplace
  | lookup a =>
    have hknown : (p.place? a).isSome ↔ key a ∈ as.map key := by
      rw [isSome_place?, h, mem_map_firstUses]
    rw [answer]
    rcases hplace : p.place? a with _ | i
    · rw [hplace] at hknown
      exact .unknown fun ha => by cases hknown.2 ha
    · have hi := place?_eq_some_iff.1 hplace
      rw [← Array.getElem?_toList, h] at hi
      exact .known (hknown.1 (by rw [hplace]; rfl)) hi
  | snapshot =>
    rw [answer, h]
    exact .snapshot
  | size =>
    rw [answer, size, ← Array.length_toList, h]
    exact .size
  | isEmpty =>
    have hempty : p.values.isEmpty = as.isEmpty := by
      rw [← Array.isEmpty_toList, h]
      cases as with
      | nil => rfl
      | cons a as => rw [firstUses_eq_eraseDupsBy, List.eraseDupsBy_cons]; rfl
    rw [answer, hempty]
    exact .isEmpty

theorem serve_cons (p : Pool key) (r : Request α) (rs : List (Request α)) :
    p.serve (r :: rs) =
      ((p.answer r).1 :: ((p.answer r).2.serve rs).1, ((p.answer r).2.serve rs).2) := rfl

theorem serve_append (p : Pool key) (rs more : List (Request α)) :
    p.serve (rs ++ more) =
      ((p.serve rs).1 ++ ((p.serve rs).2.serve more).1, ((p.serve rs).2.serve more).2) := by
  induction rs generalizing p with
  | nil => rfl
  | cons r rs ih => rw [List.cons_append, serve_cons, ih, serve_cons, List.cons_append]

theorem length_serve (p : Pool key) (rs : List (Request α)) :
    (p.serve rs).1.length = rs.length := by
  induction rs generalizing p with
  | nil => rfl
  | cons r rs ih => rw [serve_cons, List.length_cons, ih, List.length_cons]

/-- **Requests in turn.** -/
theorem values_serve {p : Pool key} {as : List α} (h : p.values.toList = firstUses key as)
    (rs : List (Request α)) :
    (p.serve rs).2.values.toList = firstUses key (as ++ internedBy rs) := by
  induction rs generalizing p as with
  | nil => exact (List.append_nil as).symm ▸ h
  | cons r rs ih =>
    have hrs := ih (values_answer h r)
    rwa [List.append_assoc, internedBy, internedBy, ← List.filterMap_append] at hrs

theorem values_serve_empty (rs : List (Request α)) :
    ((empty : Pool key).serve rs).2.values.toList = firstUses key (internedBy rs) := by
  have hempty : (empty : Pool key).values.toList = firstUses key [] := rfl
  exact values_serve hempty rs

/-- A request among others, between those before it and those behind it. -/
theorem serve_eq_of_lt (p : Pool key) {rs : List (Request α)} {i : Nat} (hi : i < rs.length) :
    p.serve rs =
      ((p.serve (rs.take i)).1 ++ ((p.serve (rs.take i)).2.serve (rs[i] :: rs.drop (i + 1))).1,
        ((p.serve (rs.take i)).2.serve (rs[i] :: rs.drop (i + 1))).2) := by
  rw [← serve_append, ← List.drop_eq_getElem_cons hi, List.take_append_drop]

theorem length_serve_take (p : Pool key) {rs : List (Request α)} {i : Nat} (hi : i < rs.length) :
    (p.serve (rs.take i)).1.length = i := by
  rw [length_serve, List.length_take_of_le hi.le]

/-- **The reply to a request among others.** -/
theorem exists_reply (rs : List (Request α)) {i : Nat} {r : Request α} (h : rs[i]? = some r) :
    ∃ reply, ((empty : Pool key).serve rs).1[i]? = some reply ∧
      Expected key (internedBy (rs.take i)) r reply := by
  obtain ⟨hi, rfl⟩ := List.getElem?_eq_some_iff.1 h
  have hvalues : ((empty : Pool key).serve (rs.take i)).2.values.toList = _ :=
    values_serve_empty (rs.take i)
  have hlength := length_serve_take (empty : Pool key) hi
  refine ⟨_, ?_, expected_answer hvalues rs[i]⟩
  rw [serve_eq_of_lt _ hi, List.getElem?_append_right hlength.le, hlength, Nat.sub_self]
  rfl

/-- A snapshot shows the values interned so far. -/
theorem eq_of_values {rs : List (Request α)} {i : Nat} {as : List α}
    (h : ((empty : Pool key).serve rs).1[i]? = some (.values as)) :
    as = firstUses key (internedBy (rs.take i)) := by
  obtain ⟨hi, -⟩ := List.getElem?_eq_some_iff.1 h
  rw [length_serve] at hi
  obtain ⟨reply, hreply, hexpected⟩ : ∃ reply, ((empty : Pool key).serve rs).1[i]? = some reply ∧
      Expected key (internedBy (rs.take i)) rs[i] reply :=
    exists_reply rs (List.getElem?_eq_getElem hi)
  rw [h] at hreply
  obtain rfl := Option.some.inj hreply
  generalize rs[i] = r at hexpected
  cases hexpected with
  | snapshot => rfl

/-- Without a request that interns nothing, the others have the same replies. -/
theorem serve_eraseIdx (p : Pool key) {rs : List (Request α)} {i : Nat} {r : Request α}
    (h : rs[i]? = some r) (hr : r.interned? = none) :
    p.serve (rs.eraseIdx i) = ((p.serve rs).1.eraseIdx i, (p.serve rs).2) := by
  obtain ⟨hi, rfl⟩ := List.getElem?_eq_some_iff.1 h
  have hsame (p : Pool key) : (p.answer rs[i]).2 = p := by
    generalize rs[i] = r at hr
    cases r with
    | intern => cases hr
    | _ => rfl
  have hlength := p.length_serve_take hi
  rw [List.eraseIdx_eq_take_drop_succ, serve_append, p.serve_eq_of_lt hi, serve_cons, hsame,
    List.eraseIdx_append_of_length_le hlength.le, hlength, Nat.sub_self, List.eraseIdx_cons_zero]

/-- **A pool in use.** From an empty pool on, every request has a reply, and the
    values interned before decide it; a request that interns nothing changes
    neither the pool nor the other replies. Of the values interned the pool lists
    those whose key no earlier one has, in their order, and what it has listed once
    it goes on to list at the same places. So no two values in it have one key, and
    the first with a key stands for all of them.

    Values are equal here if their keys are. Any equality that can be decided is of
    this kind, with the class of a value as its key. -/
theorem serve_spec (rs : List (Request α)) :
    ∃ (replies : List (Reply α)) (p : Pool key),
      empty.serve rs = (replies, p) ∧ replies.length = rs.length ∧
      (∀ i r, rs[i]? = some r → ∃ reply, replies[i]? = some reply ∧
        Expected key (internedBy (rs.take i)) r reply) ∧
      (∀ i r, rs[i]? = some r → r.interned? = none →
        (empty : Pool key).serve (rs.eraseIdx i) = (replies.eraseIdx i, p)) ∧
      (∀ (i j : Nat) (as bs : List α), i ≤ j → replies[i]? = some (.values as) →
        replies[j]? = some (.values bs) → as <+: bs) ∧
      (∀ (i : Nat) (as : List α), replies[i]? = some (.values as) → as <+: p.values.toList ∧
        (internedBy (rs.drop i) = [] → as = p.values.toList)) ∧
      p.values.toList = (internedBy rs).eraseDupsBy (fun a b => key a = key b) ∧
      (p.values.toList.map key).Nodup ∧
      ∀ k, p.values.toList.find? (key · = k) = (internedBy rs).find? (key · = k) := by
  have hvalues : ((empty : Pool key).serve rs).2.values.toList = _ := values_serve_empty rs
  have hfinal (i : Nat) : internedBy rs = internedBy (rs.take i) ++ internedBy (rs.drop i) := by
    rw [internedBy, internedBy, internedBy, ← List.filterMap_append, List.take_append_drop]
  refine ⟨_, _, rfl, length_serve _ rs, fun i r => exists_reply rs, fun i r => serve_eraseIdx _,
    fun i j as bs hij has hbs => ?_, fun i as has => ?_, ?_, ?_, fun k => ?_⟩
  · rw [eq_of_values has, eq_of_values hbs]
    obtain ⟨more, hmore⟩ := List.take_prefix_take_left (l := rs) hij
    rw [← hmore, internedBy, internedBy, List.filterMap_append]
    exact prefix_firstUses_append _ _
  · rw [eq_of_values has, hvalues, hfinal i]
    exact ⟨prefix_firstUses_append _ _, fun h => by rw [h, List.append_nil]⟩
  · rw [hvalues, firstUses_eq_eraseDupsBy]
  · rw [hvalues]
    exact nodup_firstUses _
  · rw [hvalues, find?_firstUses]

/-- Of two zeros the one interned first is listed. -/
example : firstUses Constant.key [.float (.neg .zero), .float .nan, .float .zero, .int 0] =
    [.float (.neg .zero), .float .nan, .int 0] := by
  decide

end Pool

end Stacklet
