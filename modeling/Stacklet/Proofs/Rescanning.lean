/-
  Calls of one scanner.

  A scanner can be run again after any result. It then goes on where it stands:
  at the end of the text, in front of a character at which it is stuck, or behind
  an integer that is too large. Told from the text, all calls together read it
  once from the left (`ReadUpTo`), and each halts in one of these ways (`Halts`).

  * `StandsIn.halts_run`: how a call halts that begins where others have read up
    to;
  * `answer_of_ok`, `answer_of_stuck`, `after_of_large`: what later calls yield;
  * `exists_reported`: which calls report integers that are too large;
  * `answer_again`: all of it for the calls of one scanner.
-/
import Mathlib.Data.List.Nodup
import Stacklet.Proofs.ScanFaults

namespace Stacklet

/-- The fault is an integer that exceeds 64 bits. -/
def ScanFault.IsLarge (cause : ScanFault) : Prop := ∃ digits, cause = .invalidInteger digits

theorem IsFault.ne_nil {depth : Nat} {behind lexeme : List Char} {cause : ScanFault}
    (h : IsFault depth behind lexeme cause) : lexeme ≠ [] := by
  rintro rfl
  cases h

theorem Position.behind_append_ne (text : List Char) {more : List Char} (h : more ≠ []) :
    behind (text ++ more) ≠ behind text := by
  intro heq
  simp only [behind, mk.injEq, List.count_append, List.reverse_append] at heq
  obtain ⟨hline, hcolumn⟩ := heq
  have hnone : more.count '\n' = 0 := by omega
  have hall : ∀ c ∈ more.reverse, decide (c ≠ '\n') := fun c hc => by
    simpa using fun he : c = '\n' => List.count_eq_zero.1 hnone (he ▸ List.mem_reverse.1 hc)
  rw [List.takeWhile_append_of_pos hall, List.length_append, List.length_reverse] at hcolumn
  exact h (List.length_eq_zero_iff.1 (by omega))

namespace Scanner

/-! ## Calls -/

/-- The scanner of a source after some calls. -/
def after (source : String) : (calls : Nat) → Scanner
  | 0 => .ofString source
  | calls + 1 => (after source calls).run.2

/-- The result of the call that `calls` others precede. -/
def answer (source : String) (calls : Nat) : Except ScanError (List PlacedToken) :=
  (after source calls).run.1

/-! ## Text that is read -/

/-- From its beginning up to `behind`, a text consists of gaps, of the lexemes of
    the tokens, and of integers that are too large, which are the errors. -/
inductive ReadUpTo (source : List Char) :
    (front behind : List Char) → (tokens : List Token) → (larges : List ScanError) → Prop
  | start : ReadUpTo source [] source [] []
  | gap {front gap behind tokens larges} : ReadUpTo source front (gap ++ behind) tokens larges →
      Gap (openParens tokens) behind gap → ReadUpTo source (front ++ gap) behind tokens larges
  | lexeme {front lexeme t behind tokens larges} :
      ReadUpTo source front (lexeme ++ behind) tokens larges →
      IsLexeme (openParens tokens) lexeme t behind →
      ReadUpTo source (front ++ lexeme) behind (tokens ++ [t]) larges
  | large {front lexeme behind tokens larges e} :
      ReadUpTo source front (lexeme ++ behind) tokens larges →
      IsFault (openParens tokens) behind lexeme e.fault → e.fault.IsLarge →
      e.position = .behind front →
      ReadUpTo source (front ++ lexeme) behind tokens (larges ++ [e])

/-- An integer of the text exceeds 64 bits, and the error says so and where it
    begins. -/
def LargeIn (source : List Char) (e : ScanError) : Prop :=
  e.fault.IsLarge ∧ ∃ front lexeme behind depth, source = front ++ (lexeme ++ behind) ∧
    IsFault depth behind lexeme e.fault ∧ e.position = .behind front

/-- The position of the error is one before the end of a text. -/
def StandsBefore (e : ScanError) (text : List Char) : Prop :=
  ∃ before more, text = before ++ more ∧ more ≠ [] ∧ e.position = .behind before

theorem StandsBefore.append {e : ScanError} {text : List Char} (h : StandsBefore e text)
    (more : List Char) : StandsBefore e (text ++ more) := by
  obtain ⟨before, between, rfl, hne, hposition⟩ := h
  exact ⟨before, between ++ more, List.append_assoc .., List.append_ne_nil_of_left_ne_nil hne _,
    hposition⟩

namespace ReadUpTo
variable {source front behind : List Char} {tokens : List Token} {larges : List ScanError}
  (h : ReadUpTo source front behind tokens larges)
include h

theorem text : source = front ++ behind := by
  induction h with
  | start => rfl
  | gap _ _ ih | lexeme _ _ ih | large _ _ _ _ ih => rw [ih, List.append_assoc]

theorem count_le : tokens.count .closeParen ≤ tokens.count .openParen := by
  induction h with
  | start => exact le_rfl
  | gap _ _ ih | large _ _ _ _ ih => exact ih
  | lexeme _ hlexeme ih => exact (openParens_concat ih hlexeme.closeParen).1

theorem largeIn : ∀ e ∈ larges, LargeIn source e := by
  induction h with
  | start => exact nofun
  | gap _ _ ih | lexeme _ _ ih => exact ih
  | large h hfault hlarge hposition ih =>
    exact List.forall_mem_append.2
      ⟨ih, List.forall_mem_singleton.2 ⟨hlarge, _, _, _, _, h.text, hfault, hposition⟩⟩

/-- Every error takes up a character at least. -/
theorem length_le : larges.length ≤ front.length := by
  induction h with
  | start => exact le_rfl
  | gap _ _ ih | lexeme _ _ ih =>
    rw [List.length_append]
    exact Nat.le_add_right_of_le ih
  | large _ hfault _ _ ih =>
    rw [List.length_append, List.length_append, List.length_singleton]
    exact Nat.add_le_add ih (List.length_pos_iff.2 hfault.ne_nil)

/-- The errors stand in what is read, before its end. -/
theorem standsBefore : ∀ e ∈ larges, StandsBefore e front := by
  induction h with
  | start => exact nofun
  | gap _ _ ih | lexeme _ _ ih => exact fun e he => (ih e he).append _
  | large _ hfault _ hposition ih =>
    exact List.forall_mem_append.2 ⟨fun e he => (ih e he).append _,
      List.forall_mem_singleton.2 ⟨_, _, rfl, hfault.ne_nil, hposition⟩⟩

/-- No two errors stand at one place. -/
theorem nodup_positions : (larges.map ScanError.position).Nodup := by
  induction h with
  | start => exact List.nodup_nil
  | gap _ _ ih | lexeme _ _ ih => exact ih
  | large h _ _ hposition ih =>
    rw [List.map_append, List.map_singleton, List.nodup_append]
    refine ⟨ih, List.nodup_singleton _, fun p hp q hq hsame => ?_⟩
    obtain ⟨e, he, rfl⟩ := List.mem_map.1 hp
    obtain ⟨before, more, rfl, hmore, hbefore⟩ := h.standsBefore e he
    rw [List.mem_singleton.1 hq, hbefore, hposition] at hsame
    exact Position.behind_append_ne before hmore hsame.symm

end ReadUpTo

/-! ## One call -/

/-- A scanner stands where a text is read up to. -/
structure StandsIn (s : Scanner) (source front : List Char) (tokens : List Token)
    (larges : List ScanError) : Prop where
  read : ReadUpTo source front s.ahead tokens larges
  position : s.position = .behind front
  depth : s.depth = openParens tokens

/-- How a call ends: at the end of the text, behind an integer that is too large,
    or in front of another fault. -/
inductive Halts (source : List Char) (larges : List ScanError) :
    Except ScanError (List PlacedToken) × Scanner → Prop
  | finished {found tokens} : ReadUpTo source source [] tokens larges →
      Halts source larges (.ok (found ++ [⟨.endOfInput, .behind source⟩]),
        ⟨[], .behind source, openParens tokens⟩)
  | large {front lexeme behind tokens e} : ReadUpTo source front (lexeme ++ behind) tokens larges →
      IsFault (openParens tokens) behind lexeme e.fault → e.fault.IsLarge →
      e.position = .behind front →
      Halts source larges (.error e, ⟨behind, .behind (front ++ lexeme), openParens tokens⟩)
  | stuck {front lexeme behind tokens e} : ReadUpTo source front (lexeme ++ behind) tokens larges →
      IsFault (openParens tokens) behind lexeme e.fault → ¬ e.fault.IsLarge →
      e.position = .behind front →
      Halts source larges (.error e, ⟨lexeme ++ behind, .behind front, openParens tokens⟩)

section
variable {depth : Nat} {c : Char} {rest passed : List Char} {cause : ScanFault}

theorem passed_of_front (h : front depth c rest = .fault cause passed) :
    cause.IsLarge ∧ passed = c :: numberMore rest ∨ ¬ cause.IsLarge ∧ passed = [] := by
  unfold front at h
  split_ifs at h with hblank hcomment hdigit hpoint hident
  · simp only [numberFront] at h
    split at h
    · cases h
    · split at h
      · cases h
      · cases h
        exact Or.inl ⟨⟨_, rfl⟩, rfl⟩
  · obtain ⟨rfl, ⟨-, -, rfl⟩ | ⟨-, rfl⟩⟩ := symbolFront_eq_fault_iff.1 h
    all_goals exact Or.inr ⟨by simp [ScanFault.IsLarge], rfl⟩

/-- The fault that one look finds, and what of it is passed over: all of an
    integer, and nothing of any other. -/
theorem fault_of_front (h : front depth c rest = .fault cause passed) :
    ∃ lexeme behind, c :: rest = lexeme ++ behind ∧ IsFault depth behind lexeme cause ∧
      (cause.IsLarge ∧ passed = lexeme ∨ ¬ cause.IsLarge ∧ passed = []) := by
  obtain ⟨more, behind, rfl, hfault⟩ := exists_isFault_of_front h
  refine ⟨c :: more, behind, rfl, hfault, ?_⟩
  rcases passed_of_front h with ⟨⟨digits, rfl⟩, rfl⟩ | hother
  · cases hfault with
    | integer _ hmore hbehind _ =>
      have hwhole : numberMore (more ++ behind) = more :=
        numberMore_whole hmore (fun d hd => (hbehind d hd).1) fun hd => (hbehind '.' hd).2 rfl
      exact Or.inl ⟨⟨_, rfl⟩, by rw [hwhole]⟩
  · exact Or.inr hother

end

/-- Scanning goes on where a text is read up to, and ends in one of the ways. -/
theorem halts_scan {source front ahead : List Char} {tokens : List Token}
    {larges : List ScanError} {p : Position} {depth : Nat} (found : Array PlacedToken)
    (h : ReadUpTo source front ahead tokens larges) (hp : p = .behind front)
    (hdepth : depth = openParens tokens) :
    Halts source larges (scan found ahead p depth) := by
  fun_induction scan found ahead p depth generalizing front tokens with
  | case1 found p depth =>
    subst hp hdepth
    obtain rfl : source = front := h.text.trans (List.append_nil _)
    rw [Array.toList_push]
    exact .finished h
  | case2 found c rest p depth more hfront ih =>
    subst hp hdepth
    obtain ⟨behind, rfl, hgap⟩ := gap_of_front hfront
    rw [List.drop_left] at ih ⊢
    exact ih (.gap h hgap) (Position.pastAll_behind _ _) rfl
  | case3 found c rest p depth t more hfront ih =>
    subst hp hdepth
    obtain ⟨behind, rfl, hlexeme⟩ := front_eq_lexeme_iff.1 hfront
    rw [List.drop_left] at ih ⊢
    exact ih (.lexeme h hlexeme) (Position.pastAll_behind _ _)
      (openParens_concat h.count_le hlexeme.closeParen).2.symm
  | case4 found c rest p depth cause passed hfront =>
    subst hp hdepth
    obtain ⟨lexeme, behind, htext, hfault, ⟨hlarge, rfl⟩ | ⟨hother, rfl⟩⟩ := fault_of_front hfront
    · rw [htext] at h ⊢
      rw [List.drop_left, Position.pastAll_behind]
      exact .large h hfault hlarge rfl
    · rw [htext] at h ⊢
      exact .stuck h hfault hother rfl

namespace Halts
variable {source : List Char} {larges : List ScanError}
  {outcome : Except ScanError (List PlacedToken) × Scanner} (h : Halts source larges outcome)
include h

/-- Every call ends where a text is read up to. -/
theorem standsIn : ∃ front tokens larges', outcome.2.StandsIn source front tokens larges' := by
  cases h with
  | finished h => exact ⟨_, _, _, h, rfl, rfl⟩
  | large h hfault hlarge hposition => exact ⟨_, _, _, .large h hfault hlarge hposition, rfl, rfl⟩
  | stuck h => exact ⟨_, _, _, h, rfl, rfl⟩

end Halts

theorem StandsIn.halts_run {s : Scanner} {source front : List Char} {tokens : List Token}
    {larges : List ScanError} (h : s.StandsIn source front tokens larges) :
    Halts source larges s.run :=
  halts_scan #[] h.read h.position h.depth

/-- A scanner that is stuck stays where it is. -/
theorem run_of_isFault {lexeme behind : List Char} {p : Position} {depth : Nat} {e : ScanError}
    (h : IsFault depth behind lexeme e.fault) (hother : ¬ e.fault.IsLarge) (hp : e.position = p) :
    (⟨lexeme ++ behind, p, depth⟩ : Scanner).run = (.error e, ⟨lexeme ++ behind, p, depth⟩) := by
  subst hp
  cases lexeme with
  | nil => cases h
  | cons c more =>
    obtain ⟨passed, hfront⟩ := h.front_eq
    obtain ⟨hlarge, -⟩ | ⟨-, rfl⟩ := passed_of_front hfront
    · exact absurd hlarge hother
    · rw [run, List.cons_append, scan, hfront]
      rfl

/-! ## All calls -/

theorem standsIn_after (source : String) (n : Nat) :
    ∃ front tokens larges, (after source n).StandsIn source.toList front tokens larges := by
  induction n with
  | zero => exact ⟨_, _, _, .start, rfl, rfl⟩
  | succ n ih =>
    obtain ⟨front, tokens, larges, h⟩ := ih
    exact h.halts_run.standsIn

/-- A scanner that a call leaves as it is stays so. -/
theorem after_of_fixed {source : String} {n : Nat} {s : Scanner} (h : after source n = s)
    (hfixed : s.run.2 = s) {m : Nat} (hm : n ≤ m) : after source m = s := by
  induction m, hm using Nat.le_induction with
  | base => exact h
  | succ m _ ih => rw [after, ih, hfixed]

section
variable {source : String} {n : Nat}

theorem halts_answer (source : String) (n : Nat) :
    ∃ larges, Halts source.toList larges (answer source n, after source (n + 1)) := by
  obtain ⟨front, tokens, larges, h⟩ := standsIn_after source n
  exact ⟨larges, h.halts_run⟩

/-- A call that has reached the end is followed by empty ones. -/
theorem answer_of_ok {tokens : List PlacedToken} (h : answer source n = .ok tokens) :
    (∃ found, tokens = found ++ [⟨.endOfInput, .behind source.toList⟩]) ∧
      ∀ m, n < m → answer source m = .ok [⟨.endOfInput, .behind source.toList⟩] := by
  obtain ⟨larges, hhalts⟩ := halts_answer source n
  rw [h] at hhalts
  generalize hnext : after source (n + 1) = s at hhalts
  cases hhalts with
  | @finished found tokens =>
    refine ⟨⟨found, rfl⟩, fun m hm => ?_⟩
    rw [answer, after_of_fixed hnext (by rw [run, scan]) hm, run, scan]
    rfl

/-- A call that is stuck is followed by others that are stuck there. -/
theorem answer_of_stuck {e : ScanError} (h : answer source n = .error e)
    (hother : ¬ e.fault.IsLarge) : ∀ m, n < m → answer source m = .error e := by
  obtain ⟨larges, hhalts⟩ := halts_answer source n
  rw [h] at hhalts
  generalize hnext : after source (n + 1) = s at hhalts
  cases hhalts with
  | large _ _ hlarge => exact absurd hlarge hother
  | stuck _ hfault _ hposition =>
    intro m hm
    have hrun := run_of_isFault hfault hother hposition
    rw [answer, after_of_fixed hnext (by rw [hrun]) hm, hrun]

/-- A call that passes an integer over is followed by one that begins behind it. -/
theorem after_of_large {e : ScanError} (h : answer source n = .error e) (hlarge : e.fault.IsLarge) :
    ∃ front lexeme behind tokens larges, source.toList = front ++ (lexeme ++ behind) ∧
      ReadUpTo source.toList front (lexeme ++ behind) tokens larges ∧
      IsFault (openParens tokens) behind lexeme e.fault ∧ e.position = .behind front ∧
      after source (n + 1) = ⟨behind, .behind (front ++ lexeme), openParens tokens⟩ := by
  obtain ⟨larges, hhalts⟩ := halts_answer source n
  rw [h] at hhalts
  generalize hnext : after source (n + 1) = s at hhalts ⊢
  cases hhalts with
  | large hread hfault _ hposition =>
    exact ⟨_, _, _, _, _, hread.text, hread, hfault, hposition, rfl⟩
  | stuck _ _ hother => exact absurd hlarge hother

end

/-- A text stops at its end, and at a fault that is no integer. -/
def StopsAt (depth : Nat) (ahead : List Char) : Prop :=
  ahead = [] ∨ ∃ lexeme behind cause, ahead = lexeme ++ behind ∧
    IsFault depth behind lexeme cause ∧ ¬ cause.IsLarge

/-- All integers that are too large, up to where the text stops, and the calls
    that report them: the first ones, each the next integer. -/
structure Reported (source : String) (larges : List ScanError) : Prop where
  read : ∃ front behind tokens, ReadUpTo source.toList front behind tokens larges ∧
    StopsAt (openParens tokens) behind
  answer_iff : ∀ n e, answer source n = .error e ∧ e.fault.IsLarge ↔ larges[n]? = some e

section
variable {source : String}

/-- The calls so far have reported the integers in what is read, and no later
    call reports one. -/
theorem answer_iff_of_settled {front behind : List Char} {tokens : List Token}
    {larges : List ScanError} {n : Nat} (hn : larges.length = n)
    (h : ReadUpTo source.toList front behind tokens larges)
    (hanswers : ∀ m e, larges[m]? = some e → answer source m = .error e)
    (hsettled : ∀ m e, n ≤ m → answer source m = .error e → ¬ e.fault.IsLarge) (m : Nat)
    (e : ScanError) : answer source m = .error e ∧ e.fault.IsLarge ↔ larges[m]? = some e := by
  constructor
  · rintro ⟨hanswer, hlarge⟩
    have hm : m < larges.length := by
      by_contra hle
      exact hsettled m e (hn ▸ Nat.le_of_not_lt hle) hanswer hlarge
    have hsame := hanswers m _ (List.getElem?_eq_getElem hm)
    rw [hanswer] at hsame
    rw [List.getElem?_eq_getElem hm, Except.error.inj hsame]
  · exact fun he => ⟨hanswers m e he, (h.largeIn e (List.mem_of_getElem? he)).1⟩

/-- Calls go on until the text stops. Every integer that is passed over takes one
    character at least, so they come to that. -/
theorem exists_reported_from {front : List Char} {tokens : List Token}
    {larges : List ScanError} {n : Nat} (hn : larges.length = n)
    (h : (after source n).StandsIn source.toList front tokens larges)
    (hanswers : ∀ m e, larges[m]? = some e → answer source m = .error e) :
    ∃ all, Reported source all := by
  have hhalts : Halts source.toList larges (answer source n, after source (n + 1)) := h.halts_run
  generalize hanswer : answer source n = result at hhalts
  generalize hnext : after source (n + 1) = s at hhalts
  cases hhalts with
  | finished hread =>
    refine ⟨larges, ⟨_, _, _, hread, Or.inl rfl⟩,
      answer_iff_of_settled hn hread hanswers fun m e hm he => ?_⟩
    rcases hm.eq_or_lt with rfl | hm
    · rw [hanswer] at he
      cases he
    · rw [(answer_of_ok hanswer).2 m hm] at he
      cases he
  | @stuck front lexeme behind tokens e' hread hfault hother _ =>
    refine ⟨larges, ⟨_, _, _, hread, Or.inr ⟨_, _, _, rfl, hfault, hother⟩⟩,
      answer_iff_of_settled hn hread hanswers fun m e hm he => ?_⟩
    have hsame : answer source m = .error e' := by
      rcases hm.eq_or_lt with rfl | hm
      · exact hanswer
      · exact answer_of_stuck hanswer hother m hm
    rw [hsame] at he
    cases he
    exact hother
  | @large front lexeme behind tokens e hread hfault hlarge hposition =>
    have hread' := hread.large hfault hlarge hposition
    have hroom : n < source.toList.length := by
      have hlength := hread'.length_le
      rw [List.length_append, List.length_singleton, hn] at hlength
      rw [hread'.text, List.length_append]
      omega
    have hstands : (after source (n + 1)).StandsIn source.toList (front ++ lexeme) tokens
        (larges ++ [e]) := by
      rw [hnext]
      exact ⟨hread', rfl, rfl⟩
    refine exists_reported_from (n := n + 1) ?_ hstands fun m e' he' => ?_
    · rw [List.length_append, List.length_singleton, hn]
    · rw [List.getElem?_append, List.getElem?_singleton] at he'
      split_ifs at he' with hm hlast
      · exact hanswers m e' he'
      · cases he'
        obtain rfl : m = n := by omega
        exact hanswer
termination_by source.toList.length - n

end

theorem exists_reported (source : String) : ∃ larges, Reported source larges :=
  exists_reported_from rfl (n := 0) ⟨.start, rfl, rfl⟩ (by simp)

/-- **Scanning again.** A call that reaches the end is followed by calls that find
    just the end, there; a call that finds another fault than an integer, by
    calls with the same error. Behind an integer that is too large, the next call
    begins with the line, the column and the open parentheses that the text in
    front has. So the calls that report such integers are the first ones, one for
    each that the text has up to where it stops, and no place is reported twice. -/
theorem answer_again (source : String) :
    (∀ n tokens, answer source n = .ok tokens →
      (∃ found, tokens = found ++ [⟨.endOfInput, .behind source.toList⟩]) ∧
        ∀ m, n < m → answer source m = .ok [⟨.endOfInput, .behind source.toList⟩]) ∧
      (∀ n e, answer source n = .error e → ¬ e.fault.IsLarge →
        ∀ m, n < m → answer source m = .error e) ∧
      (∀ n e, answer source n = .error e → e.fault.IsLarge →
        ∃ front lexeme behind tokens larges, source.toList = front ++ (lexeme ++ behind) ∧
          ReadUpTo source.toList front (lexeme ++ behind) tokens larges ∧
          IsFault (openParens tokens) behind lexeme e.fault ∧ e.position = .behind front ∧
          after source (n + 1) =
            ⟨behind, .behind (front ++ lexeme), openParens tokens⟩) ∧
      ∃ larges, Reported source larges ∧ (∀ e ∈ larges, LargeIn source.toList e) ∧
        (larges.map ScanError.position).Nodup := by
  refine ⟨fun n tokens h => answer_of_ok h, fun n e h hother => answer_of_stuck h hother,
    fun n e h hlarge => after_of_large h hlarge, ?_⟩
  obtain ⟨larges, h⟩ := exists_reported source
  obtain ⟨front, behind, tokens, hread, -⟩ := h.read
  exact ⟨larges, h, hread.largeIn, hread.nodup_positions⟩

/-- An integer that is too large in front of a parenthesis that closes none; and
    a text without faults. -/
theorem answer_again_unmatched :
    let source := "9223372036854775808)"
    let large : ScanError := ⟨.invalidInteger "9223372036854775808", ⟨1, 1⟩⟩
    answer source 0 = .error large ∧ (∃ larges, Reported source larges ∧ larges[0]? = some large) ∧
      (∃ front lexeme behind depth, source.toList = front ++ (lexeme ++ behind) ∧
        after source 1 = ⟨behind, .behind (front ++ lexeme), depth⟩) ∧
      (∀ m, 0 < m → answer source m = .error ⟨.unmatchedParen, ⟨1, 20⟩⟩) ∧
      ∀ m, 0 < m → answer "2" m = .ok [⟨.endOfInput, ⟨1, 2⟩⟩] := by
  intro source large
  have hfront : front 0 '9' "223372036854775808)".toList =
      .fault large.fault "9223372036854775808".toList := by decide +kernel
  have hstart : after source 0 = ⟨'9' :: "223372036854775808)".toList, .start, 0⟩ := by
    decide +kernel
  have hrun : (after source 0).run = (.error large, ⟨[')'], ⟨1, 20⟩, 0⟩) := by
    rw [hstart, run, scan, hfront]
    decide +kernel
  have hfirst : answer source 0 = .error large := by rw [answer, hrun]
  have hsecond : answer source 1 = .error ⟨.unmatchedParen, ⟨1, 20⟩⟩ := by
    rw [answer, after, hrun]
    with_unfolding_all rfl
  have htwo : answer "2" 0 = .ok [⟨.integer 2, ⟨1, 1⟩⟩, ⟨.endOfInput, ⟨1, 2⟩⟩] := by
    with_unfolding_all rfl
  have hother : ¬ (ScanFault.unmatchedParen).IsLarge := by simp [ScanFault.IsLarge]
  obtain ⟨-, hstuck, hbehind, larges, hreported, -⟩ := answer_again source
  refine ⟨hfirst, ⟨larges, hreported, ?_⟩, ?_, fun m hm => ?_, fun m hm => ?_⟩
  · exact (hreported.answer_iff 0 large).1 ⟨hfirst, _, rfl⟩
  · obtain ⟨front, lexeme, behind, tokens, -, htext, -, -, -, hafter⟩ :=
      hbehind 0 large hfirst ⟨_, rfl⟩
    exact ⟨front, lexeme, behind, openParens tokens, htext, hafter⟩
  · rcases Nat.eq_or_lt_of_le hm with rfl | hm
    · exact hsecond
    · exact hstuck 1 _ hsecond hother m hm
  · exact ((answer_again "2").1 0 _ htwo).2 m hm

end Scanner

end Stacklet
