/-
  Reading a token sequence by rules.

  A `TokenStream` is what is left of a token sequence; it is worth reading on
  after a failure, so a rule returns it in every case. A `Rule` never makes
  the stream longer, which is why `Rule.loop`, which takes a token before
  every round, comes to an end.

  * `Rule.loop` is the only repetition; all lists and chains are loops.
-/
import Stacklet.Token

namespace Stacklet

/-! ## Streams -/

/-- Unread tokens, and the position of the last one taken. Behind the last
    token the stream goes on with `Token.endOfInput`. -/
structure TokenStream where
  ahead : List PlacedToken
  lastTaken : Option Position
  deriving DecidableEq, Repr

namespace TokenStream

/-- The stream of a whole token sequence. -/
def ofTokens (tokens : List PlacedToken) : TokenStream := ⟨tokens, none⟩

/-- The next token. -/
def next (s : TokenStream) : Token :=
  match s.ahead with
  | [] => .endOfInput
  | t :: _ => t.token

/-- The stream behind its next token. -/
def rest (s : TokenStream) : TokenStream :=
  match s.ahead with
  | [] => s
  | t :: ts => ⟨ts, some t.position⟩

/-- Where a fault is reported: at the next token, behind the end at the last
    one taken, in an empty sequence at its start. -/
def place (s : TokenStream) : Position :=
  match s.ahead with
  | [] => s.lastTaken.getD .start
  | t :: _ => t.position

theorem rest_length_le (s : TokenStream) : s.rest.ahead.length ≤ s.ahead.length := by
  unfold rest
  split
  · exact Nat.le_refl _
  · rename_i h
    simp [h]

end TokenStream

/-! ## Faults -/

/-- What a closing parenthesis is missing for. -/
inductive Closing where
  | arguments
  | group
  deriving DecidableEq, Repr

/-- Why a token sequence cannot be read. -/
inductive ParseFault where
  | expectedExpression (found : Token)
  | expectedClosing (context : Closing) (found : Token)
  | expectedEndOfStatement (found : Token)
  /-- several values on the right of an assignment or as a statement -/
  | tupleValue
  | nestedTooDeep (limit : Nat)
  deriving DecidableEq, Repr

def Closing.text : Closing → String
  | arguments => "to close argument list"
  | group => "after parenthesized expression"

def ParseFault.text : ParseFault → String
  | expectedExpression found => "expected expression, found " ++ found.text
  | expectedClosing context found =>
    "expected ')' " ++ context.text ++ ", found " ++ found.text
  | expectedEndOfStatement found => "expected end of statement, found " ++ found.text
  | tupleValue => "tuple expressions are not supported"
  | nestedTooDeep limit =>
    "expression nested more than " ++ toString limit ++ " levels deep"

/-- A fault and where it is reported. -/
structure ParseError where
  fault : ParseFault
  position : Position
  deriving DecidableEq, Repr

def ParseError.message (e : ParseError) : String :=
  e.position.text ++ ": " ++ e.fault.text

/-! ## Rules -/

/-- What a rule makes of a stream: a value or an error, and what is left. -/
abbrev Outcome (α : Type) := Except ParseError α × TokenStream

/-- Reads an `α` from the front of a stream. -/
structure Rule (α : Type) where
  read : TokenStream → Outcome α
  shrinks : ∀ s, (read s).2.ahead.length ≤ s.ahead.length

namespace Rule

variable {α β γ : Type}

/-- Reads nothing. -/
def succeed (a : α) : Rule α where
  read s := (.ok a, s)
  shrinks _ := Nat.le_refl _

/-- Fails in front of the next token. -/
def fail (fault : ParseFault) : Rule α where
  read s := (.error ⟨fault, s.place⟩, s)
  shrinks _ := Nat.le_refl _

/-- The next token, which is not taken. -/
def peek : Rule Token where
  read s := (.ok s.next, s)
  shrinks _ := Nat.le_refl _

/-- Takes the next token. -/
def advance : Rule Unit where
  read s := (.ok (), s.rest)
  shrinks := TokenStream.rest_length_le

/-- One rule, and then the one that its value chooses. -/
def andThen (r : Rule α) (f : α → Rule β) : Rule β where
  read s :=
    match r.read s with
    | (.ok a, s') => (f a).read s'
    | (.error e, s') => (.error e, s')
  shrinks s := by
    have h := r.shrinks s
    split
    · rename_i a s' hr
      rw [hr] at h
      exact Nat.le_trans ((f a).shrinks s') h
    · rename_i e s' hr
      rwa [hr] at h

instance : Monad Rule where
  pure := succeed
  bind := andThen

/-- Runs `body` as long as `accepts` takes the next token. -/
def loopFrom (accepts : Token → Option γ) (body : γ → α → Rule α) (a : α) (s : TokenStream) :
    Outcome α :=
  match _hs : s.ahead with
  | [] => (.ok a, s)
  | t :: ts =>
    match accepts t.token with
    | none => (.ok a, s)
    | some c =>
      match _hb : (body c a).read ⟨ts, some t.position⟩ with
      | (.error e, s') => (.error e, s')
      | (.ok a', s') => loopFrom accepts body a' s'
termination_by s.ahead.length
decreasing_by
  have h := (body c a).shrinks ⟨ts, some t.position⟩
  rw [_hb] at h
  simp only [_hs, List.length_cons]
  exact Nat.lt_succ_of_le h

theorem loopFrom_shrinks (accepts : Token → Option γ) (body : γ → α → Rule α) (a : α)
    (s : TokenStream) : (loopFrom accepts body a s).2.ahead.length ≤ s.ahead.length := by
  fun_induction loopFrom accepts body a s with
  | case1 => exact Nat.le_refl _
  | case2 => exact Nat.le_refl _
  | case3 a s t ts hs c hc e s' hb =>
    have h := (body c a).shrinks ⟨ts, some t.position⟩
    rw [hb] at h
    simp only [hs, List.length_cons]
    exact Nat.le_succ_of_le h
  | case4 a s t ts hs c hc a' s' hb ih =>
    have h := (body c a).shrinks ⟨ts, some t.position⟩
    rw [hb] at h
    simp only [hs, List.length_cons]
    exact Nat.le_trans ih (Nat.le_succ_of_le h)

/-- While `accepts` says what the next token stands for, takes the token and
    continues with `body`; the value goes round. -/
def loop (accepts : Token → Option γ) (body : γ → α → Rule α) (a : α) : Rule α where
  read := loopFrom accepts body a
  shrinks := loopFrom_shrinks accepts body a

/-- The token `t` and no other. -/
def only (t : Token) : Token → Option Unit := fun u => if u = t then some () else none

/-- One or more items with `separator` between them. -/
def separated (separator : Token) (item : Rule α) : Rule (List α) := do
  let first ← item
  let all ← loop (only separator) (fun _ found => return found.push (← item)) #[first]
  return all.toList

end Rule

end Stacklet
