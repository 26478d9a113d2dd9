/-
  What rules read.

  A `Language` says which tokens stand for which values in front of which next
  token. A rule reads a language (`Reads`) if it takes exactly the tokens of
  the language from a stream: what it takes belongs to the language, and where
  the language has something to offer, the rule takes it.

  * `Reads.succeed`, `Reads.fail`, `Reads.advance`, `Reads.andThen`,
    `Reads.peekThen`: one lemma for each way to build a rule;
  * `Reads.loop`: rounds of a loop one by one, with a last one that reads no
    item where the closing token comes next.
-/
import Mathlib.Data.List.TakeWhile
import Stacklet.Proofs.Phrases

namespace Stacklet

open Phrase

/-! ## Streams as token lists -/

namespace TokenStream

/-- The tokens in front of the end of input. -/
def tokens (s : TokenStream) : List Token :=
  (s.ahead.map PlacedToken.token).takeWhile (· ≠ .endOfInput)

theorem next_eq (s : TokenStream) : s.next = s.tokens.headD .endOfInput := by
  obtain ⟨ahead, last⟩ := s
  cases ahead with
  | nil => rfl
  | cons t ts =>
    by_cases h : t.token = .endOfInput
    · simp [next, tokens, h]
    · simp [next, tokens, h]

theorem next_of_tokens {s : TokenStream} {ts rest : List Token} (h : s.tokens = ts ++ rest) :
    s.next = ts.headD (rest.headD .endOfInput) := by
  rw [next_eq, h]
  cases ts <;> rfl

theorem tokens_rest {s : TokenStream} (h : s.next ≠ .endOfInput) :
    s.tokens = s.next :: s.rest.tokens := by
  obtain ⟨ahead, last⟩ := s
  cases ahead with
  | nil => exact absurd rfl h
  | cons t ts =>
    have ht : t.token ≠ .endOfInput := h
    simp [tokens, rest, next, ht]

theorem endOfInput_notMem_tokens (s : TokenStream) : Token.endOfInput ∉ s.tokens := by
  intro h
  simpa using List.mem_takeWhile_imp h

/-- The rest of a stream whose tokens begin with a given one. -/
theorem next_and_rest {s : TokenStream} {t : Token} {ts : List Token}
    (h : s.tokens = t :: ts) : s.next = t ∧ s.rest.tokens = ts := by
  have hnext : s.next = t := by rw [next_eq, h, List.headD_cons]
  have hne : s.next ≠ .endOfInput := fun he =>
    s.endOfInput_notMem_tokens (by rw [h, ← hnext, he]; exact List.mem_cons_self)
  have hrest := tokens_rest hne
  rw [h] at hrest
  exact ⟨hnext, (List.cons.inj hrest).2.symm⟩

theorem tokens_eq_nil {s : TokenStream} (h : s.next = .endOfInput) : s.tokens = [] := by
  cases htokens : s.tokens with
  | nil => rfl
  | cons t ts =>
    obtain ⟨hnext, -⟩ := next_and_rest htokens
    exact absurd (by simp [htokens, ← hnext, h]) s.endOfInput_notMem_tokens

end TokenStream

/-! ## Languages -/

/-- Which tokens stand for which values in front of which next token. -/
abbrev Language (α : Type) : Type := List Token → Token → α → Prop

/-- In front of a token that `start` allows, a rule takes the tokens of a
    language and no others. -/
structure Reads {α : Type} (start : Token → Prop) (r : Rule α) (L : Language α) : Prop where
  sound : ∀ {s a s'}, start s.next → r.read s = (.ok a, s') →
    ∃ ts, s.tokens = ts ++ s'.tokens ∧ L ts s'.next a
  complete : ∀ {s ts rest a}, start s.next → s.tokens = ts ++ rest →
    L ts (rest.headD .endOfInput) a → ∃ s', r.read s = (.ok a, s') ∧ s'.tokens = rest

/-- An item behind a token that a loop accepts. -/
inductive Behind {α γ : Type} (accepts : Token → Option γ) (item : Phrase α) : Phrase (γ × α)
  | mk {t c ts a} : accepts t = some c → item ts a → Behind accepts item (t :: ts) (c, a)

/-- Any token may come next. -/
def Anywhere : Token → Prop := fun _ => True

namespace Reads
variable {α β : Type} {start : Token → Prop}

theorem congr {r : Rule α} {L M : Language α} (h : Reads start r L)
    (hLM : ∀ ts next a, L ts next a ↔ M ts next a) : Reads start r M where
  sound hs hr := by
    obtain ⟨ts, hts, hL⟩ := h.sound hs hr
    exact ⟨ts, hts, (hLM _ _ _).1 hL⟩
  complete hs hts hM := h.complete hs hts ((hLM _ _ _).2 hM)

theorem succeed (a : α) : Reads start (Rule.succeed a) fun ts _ b => ts = [] ∧ b = a where
  sound _ hr := by
    cases hr
    exact ⟨[], rfl, rfl, rfl⟩
  complete _ hts h := by
    obtain ⟨rfl, rfl⟩ := h
    exact ⟨_, rfl, hts⟩

theorem fail (fault : ParseFault) : Reads start (Rule.fail fault : Rule α) fun _ _ _ => False where
  sound _ hr := by cases hr
  complete _ _ h := h.elim

theorem advance {t : Token} (ht : t ≠ .endOfInput) :
    Reads (· = t) Rule.advance fun ts _ _ => ts = [t] where
  sound {s _ _} hs hr := by
    cases hr
    exact ⟨[t], hs ▸ TokenStream.tokens_rest (hs ▸ ht), rfl⟩
  complete {s _ rest _} hs hts h := by
    subst h
    have hrest := TokenStream.tokens_rest (s := s) (hs ▸ ht)
    rw [hts] at hrest
    exact ⟨s.rest, rfl, (List.cons.inj hrest).2.symm⟩

/-- One rule behind the other. The second may rely on what the first says
    about the token between them. -/
theorem andThen {r : Rule α} {f : α → Rule β} {L : Language α} {M : α → Language β}
    (mid : α → Token → Prop) (hr : Reads start r L)
    (hf : ∀ a, Reads (mid a) (f a) (M a))
    (hmid : ∀ {ts next a}, L ts next a → mid a next) :
    Reads start (r.andThen f) fun ts next b =>
      ∃ us vs a, ts = us ++ vs ∧ L us (vs.headD next) a ∧ M a vs next b where
  sound {s b s'} hs h := by
    rw [Rule.andThen] at h
    rcases hra : r.read s with ⟨e | a, s₁⟩
    · simp [hra] at h
    · simp only [hra] at h
      obtain ⟨us, hus, hL⟩ := hr.sound hs hra
      obtain ⟨vs, hvs, hM⟩ := (hf a).sound (hmid hL) h
      rw [TokenStream.next_of_tokens hvs, ← TokenStream.next_eq] at hL
      exact ⟨us ++ vs, by rw [hus, hvs, List.append_assoc], us, vs, a, rfl, hL, hM⟩
  complete {s ts rest b} hs hts h := by
    obtain ⟨us, vs, a, rfl, hL, hM⟩ := h
    have hnext : vs.headD (rest.headD .endOfInput) = (vs ++ rest).headD .endOfInput := by
      cases vs <;> rfl
    rw [hnext] at hL
    rw [List.append_assoc] at hts
    obtain ⟨s₁, hra, hs₁⟩ := hr.complete hs hts hL
    rw [← hs₁, ← TokenStream.next_eq] at hL
    obtain ⟨s₂, hfa, hs₂⟩ := (hf a).complete (hmid hL) hs₁ hM
    refine ⟨s₂, ?_, hs₂⟩
    rw [Rule.andThen]
    simp only [hra, hfa]

/-- A rule whose value is changed. -/
theorem map {r : Rule α} {L : Language α} (h : Reads start r L) (f : α → β) :
    Reads start (r.andThen fun a => Rule.succeed (f a)) fun ts next b =>
      ∃ a, L ts next a ∧ b = f a := by
  refine (h.andThen (fun _ => Anywhere) (fun a => Reads.succeed (f a)) fun _ => trivial).congr
    fun ts next b => ?_
  constructor
  · rintro ⟨us, vs, a, rfl, hL, rfl, rfl⟩
    rw [List.append_nil]
    exact ⟨a, hL, rfl⟩
  · rintro ⟨a, hL, rfl⟩
    exact ⟨ts, [], a, (List.append_nil ts).symm, hL, rfl, rfl⟩

theorem weaken {r : Rule α} {L : Language α} (h : Reads Anywhere r L) : Reads start r L where
  sound _ hr := h.sound trivial hr
  complete _ hts hL := h.complete trivial hts hL

/-- A rule that looks at the next token and goes on accordingly. -/
theorem peekThen {f : Token → Rule β} {M : Token → Language β}
    (hf : ∀ t, start t → Reads (· = t) (f t) (M t)) :
    Reads start (Rule.peek.andThen f) fun ts next b => M (ts.headD next) ts next b where
  sound {s b s'} hs h := by
    obtain ⟨ts, hts, hM⟩ := (hf s.next hs).sound rfl h
    rw [TokenStream.next_of_tokens hts, ← TokenStream.next_eq] at hM
    exact ⟨ts, hts, hM⟩
  complete {s ts rest b} hs hts hM := by
    rw [← TokenStream.next_of_tokens hts] at hM
    exact (hf s.next hs).complete rfl hts hM

/-- A rule that depends on whether some token comes next. -/
theorem ifNext {t : Token} {r r' : Rule β} {L L' : Language β} (h : Reads Anywhere r L)
    (h' : Reads Anywhere r' L') :
    Reads Anywhere (Rule.peek.andThen fun u => if u = t then r else r') fun ts next b =>
      ts.headD next = t ∧ L ts next b ∨ ts.headD next ≠ t ∧ L' ts next b := by
  refine peekThen (M := fun u ts next b => u = t ∧ L ts next b ∨ u ≠ t ∧ L' ts next b) fun u _ => ?_
  by_cases hu : u = t
  · rw [if_pos hu]
    refine (h.congr fun ts next b => ?_).weaken
    simp [hu]
  · rw [if_neg hu]
    refine (h'.congr fun ts next b => ?_).weaken
    simp [hu]

/-! ## Loops -/

/-- A token with which an item begins, or else the one behind all items. -/
theorem stop_headD {γ : Type} {accepts : Token → Option γ} {item : Phrase β} {stop : Token → Prop}
    (hstop : ∀ t c, accepts t = some c → stop t) {us vs : List Token} {xs : List (γ × β)}
    (hmany : Many (Behind accepts item) us xs) {next : Token} (h : stop (vs.headD next)) :
    stop ((us ++ vs).headD next) := by
  cases hmany with
  | nil => exact h
  | cons hx _ =>
    obtain ⟨hc, -⟩ := hx
    exact hstop _ _ hc

section
variable {γ : Type} {accepts : Token → Option γ} {body : γ → α → Rule α}

theorem loopFrom_of_none {s : TokenStream} (h : accepts s.next = none) (a : α) :
    Rule.loopFrom accepts body a s = (.ok a, s) := by
  obtain ⟨ahead, last⟩ := s
  cases ahead with
  | nil => rw [Rule.loopFrom]
  | cons t ts =>
    rw [Rule.loopFrom]
    simp only [show accepts t.token = none from h]

variable (heof : accepts .endOfInput = none)
include heof

theorem loopFrom_of_some {s : TokenStream} {c : γ} (h : accepts s.next = some c) (a : α) :
    Rule.loopFrom accepts body a s =
      match (body c a).read s.rest with
      | (.ok a', s') => Rule.loopFrom accepts body a' s'
      | (.error e, s') => (.error e, s') := by
  obtain ⟨ahead, last⟩ := s
  cases ahead with
  | nil => exact absurd (heof.symm.trans h) nofun
  | cons t ts =>
    rw [Rule.loopFrom]
    simp only [show accepts t.token = some c from h, TokenStream.rest]
    rcases (body c a).read ⟨ts, some t.position⟩ with ⟨e | a', s'⟩ <;> rfl

variable {β : Type} {item : Phrase β} {trail : List Token → Prop} {step : α → γ × β → α}
  {stop : Token → Prop} {close : Token} (hclose : accepts close = none)
  (hbody : ∀ c a, Reads Anywhere (body c a) fun ts next a' =>
    (∃ b, item ts b ∧ stop next ∧ a' = step a (c, b)) ∨ (trail ts ∧ next = close ∧ a' = a))
include hclose hbody

theorem loopFrom_sound {a a' : α} {s s' : TokenStream} (hs : stop s.next)
    (h : Rule.loopFrom accepts body a s = (.ok a', s')) :
    ∃ us vs xs, s.tokens = us ++ vs ++ s'.tokens ∧ Many (Behind accepts item) us xs ∧
      a' = xs.foldl step a ∧
      (vs = [] ∧ stop s'.next ∧ accepts s'.next = none ∨
        s'.next = close ∧ ∃ t c ws, accepts t = some c ∧ vs = t :: ws ∧ trail ws) := by
  induction hn : s.tokens.length using Nat.strong_induction_on generalizing a s with
  | _ n ih =>
    subst hn
    cases hc : accepts s.next with
    | none =>
      rw [loopFrom_of_none hc] at h
      cases h
      exact ⟨[], [], [], rfl, .nil, rfl, Or.inl ⟨rfl, hs, hc⟩⟩
    | some c =>
      have hne : s.next ≠ .endOfInput := fun he => by simp [he, heof] at hc
      rw [loopFrom_of_some heof hc] at h
      rcases hb : (body c a).read s.rest with ⟨e | a₁, s₁⟩
      · simp [hb] at h
      simp only [hb] at h
      have htokens := TokenStream.tokens_rest hne
      obtain ⟨ts, hts, ⟨b, hitem, hs₁, rfl⟩ | ⟨htrail, hs₁, rfl⟩⟩ := (hbody c a).sound trivial hb
      · have hlt : s₁.tokens.length < s.tokens.length := by
          rw [htokens, hts, List.length_cons, List.length_append]
          omega
        obtain ⟨us, vs, xs, hus, hmany, rfl, hend⟩ := ih _ hlt hs₁ h rfl
        refine ⟨s.next :: ts ++ us, vs, (c, b) :: xs, ?_, .cons (.mk hc hitem) hmany, rfl, hend⟩
        rw [htokens, hts, hus]
        simp
      · -- the closing token comes next, so this was the last round
        rw [loopFrom_of_none (hs₁ ▸ hclose)] at h
        cases h
        refine ⟨[], s.next :: ts, [], ?_, .nil, rfl, Or.inr ⟨hs₁, s.next, c, ts, hc, rfl, htrail⟩⟩
        rw [htokens, hts]
        rfl

variable (hstop : ∀ t c, accepts t = some c → stop t)
include hstop

theorem loopFrom_complete {us vs rest : List Token} {xs : List (γ × β)} {a : α} {s : TokenStream}
    (hmany : Many (Behind accepts item) us xs) (hs : s.tokens = us ++ vs ++ rest)
    (hend : vs = [] ∧ stop (rest.headD .endOfInput) ∧ accepts (rest.headD .endOfInput) = none ∨
      rest.headD .endOfInput = close ∧ ∃ t c ws, accepts t = some c ∧ vs = t :: ws ∧ trail ws) :
    ∃ s', Rule.loopFrom accepts body a s = (.ok (xs.foldl step a), s') ∧ s'.tokens = rest := by
  induction hmany generalizing a s with
  | nil =>
    rcases hend with ⟨rfl, -, hnone⟩ | ⟨hnext, t, c, ws, hc, rfl, htrail⟩
    · have hnext : s.next = rest.headD .endOfInput := by
        rw [TokenStream.next_eq, hs]
        rfl
      exact ⟨s, loopFrom_of_none (hnext ▸ hnone) a, hs⟩
    · obtain ⟨hst, hsrest⟩ := TokenStream.next_and_rest hs
      obtain ⟨s₁, hb, hs₁⟩ :=
        (hbody c a).complete trivial hsrest (Or.inr ⟨htrail, hnext, rfl⟩)
      have hs₁next : s₁.next = close := by rw [TokenStream.next_eq, hs₁, hnext]
      refine ⟨s₁, ?_, hs₁⟩
      rw [loopFrom_of_some heof (hst ▸ hc)]
      simp only [hb]
      exact loopFrom_of_none (hs₁next ▸ hclose) a
  | @cons ts us x xs hx hmany ih =>
    have hnext : stop ((us ++ vs ++ rest).headD .endOfInput) := by
      rw [List.append_assoc]
      refine stop_headD hstop hmany ?_
      rcases hend with ⟨rfl, hs, -⟩ | ⟨-, t, c, ws, hc, rfl, -⟩
      · exact hs
      · exact hstop t c hc
    obtain ⟨hc, hitem⟩ := hx
    rename_i t c ts b
    have hs : s.tokens = t :: (ts ++ (us ++ vs ++ rest)) := by
      rw [hs]
      simp
    obtain ⟨hst, hsrest⟩ := TokenStream.next_and_rest hs
    obtain ⟨s₁, hb, hs₁⟩ :=
      (hbody c a).complete trivial hsrest (Or.inl ⟨b, hitem, hnext, rfl⟩)
    obtain ⟨s', hloop, hs'⟩ := ih hs₁
    refine ⟨s', ?_, hs'⟩
    rw [loopFrom_of_some heof (hst ▸ hc)]
    simp only [hb]
    exact hloop

variable (item trail step close) in
/-- **What a loop reads**: rounds that each read an item, and perhaps a last one
    in front of the closing token that reads none. -/
theorem loop (a : α) :
    Reads stop (Rule.loop accepts body a) fun ts next a' =>
      ∃ us vs xs, ts = us ++ vs ∧ Many (Behind accepts item) us xs ∧
        a' = xs.foldl step a ∧
        (vs = [] ∧ stop next ∧ accepts next = none ∨
          next = close ∧ ∃ t c ws, accepts t = some c ∧ vs = t :: ws ∧ trail ws) where
  sound hs hr := by
    obtain ⟨us, vs, xs, hus, hmany, ha, hend⟩ := loopFrom_sound heof hclose hbody hs hr
    exact ⟨us ++ vs, hus, us, vs, xs, rfl, hmany, ha, hend⟩
  complete _ hts h := by
    obtain ⟨us, vs, xs, rfl, hmany, rfl, hend⟩ := h
    exact loopFrom_complete heof hclose hbody hstop hmany hts hend

end

/-! ## Items in loops -/

section
variable {γ : Type} {accepts : Token → Option γ} {I : Phrase β} {stop : Token → Prop}
  (hstop : ∀ t c, accepts t = some c → stop t)
include hstop

/-- A loop that reads an item in every round. -/
theorem items (step : α → γ × β → α) (heof : accepts .endOfInput = none) {body : γ → α → Rule α}
    (hbody : ∀ c a, Reads Anywhere (body c a) fun ts next a' =>
      ∃ b, (I ts b ∧ stop next) ∧ a' = step a (c, b)) (a : α) :
    Reads stop (Rule.loop accepts body a) fun ts next a' =>
      ∃ xs, Many (Behind accepts I) ts xs ∧ a' = xs.foldl step a ∧ accepts next = none ∧
        stop next := by
  have hbody (c : γ) (a : α) : Reads Anywhere (body c a) fun ts next a' =>
      (∃ b, I ts b ∧ stop next ∧ a' = step a (c, b)) ∨ (False ∧ next = .endOfInput ∧ a' = a) := by
    refine (hbody c a).congr fun ts next a' => ?_
    simp only [false_and, or_false, and_assoc]
  have hloop := Reads.loop heof I (fun _ => False) step .endOfInput heof hbody hstop a
  refine hloop.congr fun ts next a' => ?_
  constructor
  · rintro ⟨us, vs, xs, rfl, hmany, rfl, ⟨rfl, hs, hnone⟩ | ⟨-, -, -, -, -, -, hf⟩⟩
    · rw [List.append_nil]
      exact ⟨xs, hmany, rfl, hnone, hs⟩
    · exact hf.elim
  · rintro ⟨xs, hmany, rfl, hnone, hs⟩
    exact ⟨ts, [], xs, (List.append_nil ts).symm, hmany, rfl, Or.inl ⟨rfl, hs, hnone⟩⟩

/-- Something else first, and then a rule that reads items. -/
theorem firstThen {δ ε : Type} {first : Rule δ} {F : Phrase δ} {more : δ → Rule ε}
    {value : δ → List (γ × β) → ε}
    (hfirst : Reads Anywhere first fun ts next d => F ts d ∧ stop next)
    (hmore : ∀ d, Reads stop (more d) fun ts next e =>
      ∃ xs, Many (Behind accepts I) ts xs ∧ e = value d xs ∧ accepts next = none ∧ stop next) :
    Reads Anywhere (first.andThen more) fun ts next e =>
      (∃ us vs d xs, ts = us ++ vs ∧ F us d ∧ Many (Behind accepts I) vs xs ∧ e = value d xs) ∧
        accepts next = none ∧ stop next := by
  refine (hfirst.andThen (fun _ => stop) hmore fun h => h.2).congr fun ts next e => ?_
  constructor
  · rintro ⟨us, vs, d, rfl, ⟨hF, -⟩, xs, hmany, rfl, hnone, hs⟩
    exact ⟨⟨us, vs, d, xs, rfl, hF, hmany, rfl⟩, hnone, hs⟩
  · rintro ⟨⟨us, vs, d, xs, rfl, hF, hmany, rfl⟩, hnone, hs⟩
    have hnext : stop ((vs ++ []).headD next) := stop_headD hstop hmany hs
    rw [List.append_nil] at hnext
    exact ⟨us, vs, d, rfl, ⟨hF, hnext⟩, xs, hmany, rfl, hnone, hs⟩

end

end Reads

end Stacklet
