/-
  A parser called again and again.

  A parser that has read a block, or has failed to, can be called again; it goes
  on with the tokens that are left. What it has read before makes no difference:
  its counter is back at zero, and the last position it took is looked at only
  behind the last token, where nothing at all is a block.

  * `ofStream_fresh`: a stream is read like its unread tokens alone;
  * `Cursor.Calls`: calls of one parser in turn;
  * `AfterCalls.call`, `Cursor.Calls.after`: what one call keeps, and so all of
    them;
  * `calls_fresh`: every call does what the first call of a new parser does with
    the tokens that are left.
-/
import Stacklet.Proofs.Descent
import Stacklet.Proofs.Unplaced

namespace Stacklet

open Rule Grammar

/-! ## Streams -/

/-- Behind a block stands the end of input. -/
theorem ofStream_ok {s s' : TokenStream} {t : Tree} (h : Tree.ofStream s = (.ok t, s')) :
    s'.next = .endOfInput := by
  obtain ⟨ts, -, hnext, -⟩ := reads_block.sound trivial h
  exact hnext

/-- In front of the end of input stands the empty block. -/
theorem ofStream_of_end {s : TokenStream} (h : s.next = .endOfInput) :
    (Tree.ofStream s).1 = .ok (.block []) := by
  have hblank : Phrase.Block [] (.block []) := .blank (List.forall_mem_nil _)
  have htokens : s.tokens = [] ++ [] := TokenStream.tokens_eq_nil h
  obtain ⟨s', hs', -⟩ := reads_block.complete trivial htokens ⟨rfl, hblank⟩
  rw [Tree.ofStream, hs']

theorem exists_settles_block (s : TokenStream) :
    ∃ taken, Settles block s taken (Tree.ofStream s) :=
  block_eq_blockOf ▸ agrees_blockOf (agrees_expressionIn maxNesting maxNesting) s trivial

/-- Streams from which the same tokens were taken stand at the same place, unless
    there were no tokens at all. -/
theorem Passes.place_eq {s s' s₁ s₁' : TokenStream} {taken : List PlacedToken}
    (h : Passes s taken s₁) (h' : Passes s' taken s₁') (hahead : s₁.ahead = s₁'.ahead)
    (hne : s.ahead ≠ []) : s₁.place = s₁'.place := by
  rw [TokenStream.place, TokenStream.place, ← hahead]
  cases hs : s₁.ahead with
  | cons p ps => rfl
  | nil =>
    have htaken : taken ≠ [] := by
      rintro rfl
      exact hne (h.ahead.trans hs)
    rw [h.last, h'.last, List.getLast?_eq_some_getLast htaken]
    rfl

/-- **A stream is read like its unread tokens alone**: the tree or the error is
    the same, with its position. -/
theorem ofStream_fresh (s : TokenStream) : (Tree.ofStream s).1 = Tree.ofTokens s.ahead := by
  by_cases hempty : s.ahead = []
  · have hend : s.next = .endOfInput := by rw [TokenStream.next, hempty]
    rw [ofStream_of_end hend, hempty, Tree.ofTokens, ofStream_of_end rfl]
  obtain ⟨taken, hpasses, hplace, -⟩ := exists_settles_block s
  obtain ⟨taken', hpasses', hplace', -⟩ := exists_settles_block (.ofTokens s.ahead)
  obtain ⟨hresult, halike⟩ := seesTokens_block s (.ofTokens s.ahead) rfl
  -- as many tokens are left by both, so they have taken the same ones
  have hsplit : taken ++ (Tree.ofStream s).2.ahead =
      taken' ++ (Tree.ofStream (.ofTokens s.ahead)).2.ahead :=
    hpasses.ahead.symm.trans hpasses'.ahead
  have hlength := congrArg List.length halike
  rw [List.length_map, List.length_map] at hlength
  obtain ⟨rfl, hahead⟩ := List.append_inj' hsplit hlength
  have hplaces := hpasses.place_eq hpasses' hahead hempty
  rw [Tree.ofTokens]
  change (Tree.ofStream s).1.mapError _ =
    (Tree.ofStream (.ofTokens s.ahead)).1.mapError _ at hresult
  rcases hs : (Tree.ofStream s).1 with e | t
  · rcases ht : (Tree.ofStream (.ofTokens s.ahead)).1 with e' | t'
    · rw [hs, ht] at hresult
      have hfault : e.fault = e'.fault := Except.error.inj hresult
      have hposition : e.position = e'.position := by
        rw [hplace e hs, hplace' e' ht, hplaces]
      obtain ⟨fault, position⟩ := e
      cases hfault
      cases hposition
      rfl
    · rw [hs, ht] at hresult
      cases hresult
  · rcases ht : (Tree.ofStream (.ofTokens s.ahead)).1 with e' | t'
    · rw [hs, ht] at hresult
      cases hresult
    · rw [hs, ht] at hresult
      exact congrArg Except.ok (Except.ok.inj hresult)

/-! ## Calls -/

namespace Cursor

/-- A new parser. -/
def ofTokens (tokens : List PlacedToken) : Cursor := ⟨.ofTokens tokens, 0⟩

/-- Calls of one parser in turn: what they have returned, and where it stands
    then. -/
inductive Calls (c : Cursor) : List (Except ParseError Tree) → Cursor → Prop
  | none : Calls c [] c
  | more {c₁ c₂ results result} : Calls c results c₁ →
      Descent.Returns Descent.block c₁ result c₂ → Calls c (results ++ [result]) c₂

end Cursor

/-- What holds of a parser of `tokens` behind calls that returned `results`. -/
structure AfterCalls (tokens : List PlacedToken) (results : List (Except ParseError Tree))
    (c : Cursor) : Prop where
  depth : c.depth = 0
  ahead : c.stream.ahead <:+ tokens
  /-- behind a tree nothing is left -/
  finished : ∀ t, .ok t ∈ results → c.stream.next = .endOfInput
  empty : results.Pairwise fun r r' => ∀ t, r = .ok t → r' = .ok (.block [])

/-- A call does what a new parser would do with the tokens that are left. -/
theorem block_returns {c : Cursor} (h : c.depth = 0) :
    Descent.Returns Descent.block c (Tree.ofTokens c.stream.ahead)
      ⟨(Tree.ofStream c.stream).2, 0⟩ := by
  obtain ⟨s, d⟩ := c
  cases h
  rw [← ofStream_fresh]
  exact follows_block s

/-- One call. -/
theorem AfterCalls.call {tokens : List PlacedToken} {results : List (Except ParseError Tree)}
    {c : Cursor} (h : AfterCalls tokens results c) :
    AfterCalls tokens (results ++ [Tree.ofTokens c.stream.ahead])
      ⟨(Tree.ofStream c.stream).2, 0⟩ := by
  -- behind a tree, whether an earlier call or this one has returned it
  have hempty (t : Tree) (ht : .ok t ∈ results) :
      Tree.ofTokens c.stream.ahead = .ok (.block []) := by
    rw [← ofStream_fresh]
    exact ofStream_of_end (h.finished t ht)
  have hend (t : Tree) (ht : Tree.ofTokens c.stream.ahead = .ok t) :
      (Tree.ofStream c.stream).2.next = .endOfInput := by
    rw [← ofStream_fresh] at ht
    exact ofStream_ok (Prod.ext ht rfl)
  refine ⟨rfl, ?_, fun t ht => ?_, ?_⟩
  · obtain ⟨taken, hpasses, -⟩ := exists_settles_block c.stream
    have hsuffix : (Tree.ofStream c.stream).2.ahead <:+ c.stream.ahead :=
      ⟨taken, hpasses.ahead.symm⟩
    exact hsuffix.trans h.ahead
  · rcases List.mem_append.1 ht with ht | ht
    · exact hend _ (hempty t ht)
    · exact hend t (List.mem_singleton.1 ht).symm
  · refine List.pairwise_append.2 ⟨h.empty, List.pairwise_singleton _ _, fun r hr r' hr' t ht => ?_⟩
    obtain rfl := List.mem_singleton.1 hr'
    exact hempty t (ht ▸ hr)

/-- Any number of calls. -/
theorem Cursor.Calls.after {tokens : List PlacedToken} {results : List (Except ParseError Tree)}
    {c : Cursor} (h : Calls (.ofTokens tokens) results c) : AfterCalls tokens results c := by
  induction h with
  | none => exact ⟨rfl, List.suffix_rfl, nofun, .nil⟩
  | more _ hreturns ih =>
    obtain ⟨rfl, rfl⟩ := hreturns.unique (block_returns ih.depth)
    exact ih.call

/-- All calls come back. -/
theorem Cursor.exists_calls (tokens : List PlacedToken) (count : Nat) :
    ∃ results c, results.length = count ∧ Calls (.ofTokens tokens) results c := by
  induction count with
  | zero => exact ⟨[], .ofTokens tokens, rfl, .none⟩
  | succ n ih =>
    obtain ⟨results, c, rfl, hcalls⟩ := ih
    exact ⟨_, _, List.length_append, hcalls.more (block_returns hcalls.after.depth)⟩

/-- **A parser can be called again, whatever its calls have returned**, and as often
    as one likes. Behind any calls its counter is back at zero; the next call
    returns the tree or the error, with its position, that the first call of a
    new parser returns for the tokens that are left; and behind a tree all calls
    return the empty block. -/
theorem calls_fresh (tokens : List PlacedToken) :
    (∀ count, ∃ results c, results.length = count ∧
        Cursor.Calls (.ofTokens tokens) results c) ∧
      ∀ results c, Cursor.Calls (.ofTokens tokens) results c →
        c.depth = 0 ∧
        c.stream.ahead <:+ tokens ∧
        (∃ c', Descent.Returns Descent.block c (Tree.ofTokens c.stream.ahead) c') ∧
        (∃ c', Descent.Returns Descent.block (.ofTokens c.stream.ahead)
          (Tree.ofTokens c.stream.ahead) c') ∧
        results.Pairwise fun r r' => ∀ t, r = .ok t → r' = .ok (.block []) := by
  refine ⟨Cursor.exists_calls tokens, fun results c hcalls => ?_⟩
  have hafter := hcalls.after
  exact ⟨hafter.depth, hafter.ahead, ⟨_, block_returns hafter.depth⟩, ⟨_, block_returns rfl⟩,
    hafter.empty⟩

end Stacklet
