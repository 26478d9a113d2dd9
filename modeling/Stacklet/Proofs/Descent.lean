/-
  A parser that counts how deep it is.

  The grammar bounds nesting by the room that is left for it. The parser here
  has one counter for all its functions instead: a `Cursor` stands at a stream,
  inside some number of expressions. An expression looks at the counter, adds
  itself, and takes itself off again whatever has become of it; nothing else
  touches the counter, and errors leave at once. The functions call one another
  as often as they like. How many calls may be inside one another is a parameter
  of all of them, and a function comes back if it does so with every parameter
  that is large enough (`Returns`).

  * `Follows`: from some depth a function comes back, to the same depth, with
    what a rule makes of the stream;
  * `Follows.bind`, `Follows.call`, `Follows.loop`: functions behind one another,
    inside one another, and those that call themselves at the end;
  * `follows_expression`, `follows_block`: the parser follows the grammar.
-/
import Stacklet.Proofs.Lookahead

namespace Stacklet

open Rule Grammar

/-- Where a parser stands: at a stream, inside `depth` expressions. -/
structure Cursor where
  stream : TokenStream
  depth : Nat
  deriving DecidableEq

/-- What a function of the parser does at a cursor, if it comes back: it yields
    a value or an error, and the cursor is left where it then stands. -/
abbrev Descent (α : Type) : Type := ExceptT ParseError (StateT Cursor Option) α

namespace Descent
variable {α γ : Type}

/-- A call too many. -/
def deeper : Descent α := fun _ => none

/-! ## Tokens -/

def fail (fault : ParseFault) : Descent α := fun c =>
  some (.error ⟨fault, c.stream.place⟩, c)

/-- The next token, which is not taken. -/
def peek : Descent Token := fun c => some (.ok c.stream.next, c)

/-- Takes the next token. -/
def advance : Descent Unit := fun c => some (.ok (), { c with stream := c.stream.rest })

def closing (context : Closing) : Descent Unit := do
  match ← peek with
  | .closeParen => advance
  | found => fail (.expectedClosing context found)

/-! ## Expressions -/

/-- A literal or a name, which comes next. -/
def leaf : Token → Descent Tree
  | .integer n => do
    advance
    return .num (.int n)
  | .float x => do
    advance
    return .num (.float x)
  | .ident id => do
    advance
    return .name id
  | found => fail (.expectedExpression found)

mutual

/-- An expression, counted while it is read. -/
def expression : (calls : Nat) → Descent Tree
  | 0 => deeper
  | n + 1 => fun c =>
    if c.depth = maxNesting then (fail (.nestedTooDeep maxNesting)).run c
    else do
      let (result, c) ← (sum n).run.run { c with depth := c.depth + 1 }
      return (result, { c with depth := c.depth - 1 })

def sum : (calls : Nat) → Descent Tree
  | 0 => deeper
  | n + 1 => do sumFrom n (← product n)

/-- The rest of a sum, behind `left`. -/
def sumFrom : (calls : Nat) → (left : Tree) → Descent Tree
  | 0, _ => deeper
  | n + 1, left => do
    match sumOperator (← peek) with
    | none => return left
    | some op =>
      advance
      let right ← product n
      sumFrom n (.binary left op right)

def product : (calls : Nat) → Descent Tree
  | 0 => deeper
  | n + 1 => do productFrom n (← application n)

/-- The rest of a product, behind `left`. -/
def productFrom : (calls : Nat) → (left : Tree) → Descent Tree
  | 0, _ => deeper
  | n + 1, left => do
    match productOperator (← peek) with
    | none => return left
    | some op =>
      advance
      let right ← application n
      productFrom n (.binary left op right)

def application : (calls : Nat) → Descent Tree
  | 0 => deeper
  | n + 1 => do applicationFrom n (← atom n)

/-- The argument lists behind `callee`. -/
def applicationFrom : (calls : Nat) → (callee : Tree) → Descent Tree
  | 0, _ => deeper
  | n + 1, callee => do
    match only .openParen (← peek) with
    | none => return callee
    | some () =>
      advance
      let args ← arguments n
      closing .arguments
      applicationFrom n (.call callee args)

def arguments : (calls : Nat) → Descent (List Tree)
  | 0 => deeper
  | n + 1 => do
    if (← peek) = .closeParen then
      return []
    else
      let first ← expression n
      let all ← argumentsFrom n #[first]
      return all.toList

/-- The arguments behind those found. -/
def argumentsFrom : (calls : Nat) → (found : Array Tree) → Descent (Array Tree)
  | 0, _ => deeper
  | n + 1, found => do
    match only .comma (← peek) with
    | none => return found
    | some () =>
      advance
      let more ← (do
        if (← peek) = .closeParen then
          return found
        else
          return found.push (← expression n))
      argumentsFrom n more

def atom : (calls : Nat) → Descent Tree
  | 0 => deeper
  | n + 1 => do
    let t ← peek
    if t = .openParen then
      advance
      let inner ← expression n
      closing .group
      return inner
    else
      leaf t

end

/-! ## Blocks -/

/-- While `accepts` says what the next token stands for, takes the token and
    continues with `body`; the value goes round. -/
def loop (accepts : Token → Option γ) (body : Nat → γ → α → Descent α) :
    (calls : Nat) → α → Descent α
  | 0, _ => deeper
  | n + 1, a => do
    match accepts (← peek) with
    | none => return a
    | some c =>
      advance
      loop accepts body n (← body n c a)

/-- One or more items with `separator` between them. -/
def separated (separator : Token) (item : Nat → Descent α) (calls : Nat) :
    Descent (List α) := do
  let first ← item calls
  let all ← loop (only separator) (fun n _ found => return found.push (← item n)) calls #[first]
  return all.toList

def statement (calls : Nat) : Descent Tree := do
  let lists ← separated .assign (separated .comma expression) calls
  match lists.reverse with
  | [value] :: [] => return .expr value
  | [value] :: targets => return .assign (targets.reverse.map .ofList) value
  | _ => fail .tupleValue

def skipSeparators (calls : Nat) : Descent Unit :=
  loop separator (fun _ _ _ => return ()) calls ()

/-- Statements up to the end of input. -/
def block (calls : Nat) : Descent Tree := do
  skipSeparators calls
  if (← peek) = .endOfInput then
    return .block []
  else
    let first ← statement calls
    let body ← loop separator (fun n _ found => do
      skipSeparators n
      if (← peek) = .endOfInput then
        return found
      else
        return found.push (← statement n)) calls #[first]
    match ← peek with
    | .endOfInput => return .block body.toList
    | found => fail (.expectedEndOfStatement found)

/-! ## Functions that come back -/

/-- With any number of calls inside one another that is large enough, a function
    comes back from `c` to `c'`. -/
def Returns (f : Nat → Descent α) (c : Cursor) (result : Except ParseError α) (c' : Cursor) :
    Prop :=
  ∃ least, ∀ n, least ≤ n → f n c = some (result, c')

/-- It can come back in one way only. -/
theorem Returns.unique {f : Nat → Descent α} {c c₁ c₂ : Cursor} {r₁ r₂ : Except ParseError α}
    (h₁ : Returns f c r₁ c₁) (h₂ : Returns f c r₂ c₂) : r₁ = r₂ ∧ c₁ = c₂ := by
  obtain ⟨least₁, h₁⟩ := h₁
  obtain ⟨least₂, h₂⟩ := h₂
  have hsame := (h₁ _ (Nat.le_max_left least₁ least₂)).symm.trans (h₂ _ (Nat.le_max_right _ _))
  exact Prod.mk.inj (Option.some.inj hsame)

theorem Returns.of_forall {f : Nat → Descent α} {c c' : Cursor} {result : Except ParseError α}
    (h : ∀ n, f n c = some (result, c')) : Returns f c result c' := ⟨0, fun n _ => h n⟩

/-- A function that has another call inside. -/
theorem Returns.call {f body : Nat → Descent α} {c c' : Cursor} {result : Except ParseError α}
    (hf : ∀ n, f (n + 1) c = body n c) (h : Returns body c result c') : Returns f c result c' := by
  obtain ⟨least, h⟩ := h
  refine ⟨least + 1, fun n hn => ?_⟩
  obtain ⟨m, rfl⟩ : ∃ m, n = m + 1 := ⟨n - 1, by omega⟩
  rw [hf, h m (Nat.le_of_succ_le_succ hn)]

end Descent

/-! ## What rules do -/

/-- At the stream `s` and depth `d`, a function comes back to depth `d`, with
    what a rule makes of the stream. -/
def FollowsAt {α : Type} (d : Nat) (s : TokenStream) (f : Nat → Descent α) (r : Rule α) : Prop :=
  Descent.Returns f ⟨s, d⟩ (r.read s).1 ⟨(r.read s).2, d⟩

/-- From depth `d`, a function comes back to depth `d`, with what a rule makes
    of the stream. -/
def Follows {α : Type} (d : Nat) (f : Nat → Descent α) (r : Rule α) : Prop :=
  ∀ s, FollowsAt d s f r

/-- One function behind the other. -/
theorem FollowsAt.bind {α β : Type} {d : Nat} {s : TokenStream} {f : Nat → Descent α} {r : Rule α}
    {g : Nat → α → Descent β} {k : α → Rule β} (h : FollowsAt d s f r)
    (hg : ∀ a s', r.read s = (.ok a, s') → FollowsAt d s' (g · a) (k a)) :
    FollowsAt d s (fun n => f n >>= g n) (r.andThen k) := by
  have hbind (n : Nat) : (f n >>= g n) ⟨s, d⟩ =
      (f n ⟨s, d⟩).bind fun p => ExceptT.bindCont (g n) p.1 p.2 := rfl
  obtain ⟨least, h⟩ := h
  simp only [FollowsAt, Rule.andThen]
  rcases hr : r.read s with ⟨e | a, s'⟩
  · refine ⟨least, fun n hn => ?_⟩
    refine (hbind n).trans ?_
    rw [h n hn, hr]
    rfl
  · obtain ⟨more, hmore⟩ := hg a s' hr
    refine ⟨max least more, fun n hn => ?_⟩
    refine (hbind n).trans ?_
    rw [h n (le_trans (le_max_left _ _) hn), hr]
    exact hmore n (le_trans (le_max_right _ _) hn)

namespace Follows
variable {α β γ : Type} {d : Nat} {f f₁ : Nat → Descent α} {r r₁ : Rule α}

theorem succeed (a : α) : Follows d (fun _ => pure a) (Rule.succeed a) :=
  fun _ => .of_forall fun _ => rfl

theorem fail (fault : ParseFault) :
    Follows d (fun _ => (Descent.fail fault : Descent α)) (Rule.fail fault) :=
  fun _ => .of_forall fun _ => rfl

theorem advance : Follows d (fun _ => Descent.advance) Rule.advance :=
  fun _ => .of_forall fun _ => rfl

theorem bind {g : Nat → α → Descent β} {k : α → Rule β} (h : Follows d f r)
    (hg : ∀ a, Follows d (g · a) (k a)) : Follows d (fun n => f n >>= g n) (r.andThen k) :=
  fun s => (h s).bind fun a s' _ => hg a s'

/-- A function whose value is changed. -/
theorem map (h : Follows d f r) (g : α → β) :
    Follows d (fun n => f n >>= fun a => pure (g a)) (r.andThen fun a => Rule.succeed (g a)) :=
  h.bind fun a => .succeed (g a)

theorem peekThen {g : Nat → Token → Descent α} {k : Token → Rule α}
    (hg : ∀ t, Follows d (g · t) (k t)) :
    Follows d (fun n => Descent.peek >>= g n) (Rule.peek.andThen k) :=
  bind (fun _ => .of_forall fun _ => rfl) hg

/-- A function that does one thing or the other. -/
theorem either {p : Prop} [Decidable p] (h : p → Follows d f r) (h₁ : ¬ p → Follows d f₁ r) :
    Follows d (fun n => if p then f n else f₁ n) r := by
  by_cases hp : p
  · simp only [if_pos hp]
    exact h hp
  · simp only [if_neg hp]
    exact h₁ hp

/-- A function that depends on whether some token comes next. -/
theorem ifNext {t : Token} (h : Follows d f r) (h₁ : Follows d f₁ r₁) :
    Follows d (fun n => Descent.peek >>= fun u => if u = t then f n else f₁ n)
      (Rule.peek.andThen fun u => if u = t then r else r₁) := by
  refine peekThen fun u => either (fun hu => ?_) fun hu => ?_
  · rw [if_pos hu]
    exact h
  · rw [if_neg hu]
    exact h₁

/-- A function that has another call inside. -/
theorem call (hf : ∀ n, f (n + 1) = f₁ n) (h : Follows d f₁ r) : Follows d f r :=
  fun s => (h s).call fun n => congrFun (hf n) _

/-- **A function that calls itself behind every token that it accepts follows a
    loop**, if it follows the body of the loop in between. -/
theorem loop {accepts : Token → Option γ} (heof : accepts .endOfInput = none)
    {F : Nat → α → Descent α} {round : Nat → γ → α → Descent α} {body : γ → α → Rule α}
    (hnone : ∀ n a c, accepts c.stream.next = none → F (n + 1) a c = some (.ok a, c))
    (hsome : ∀ n a c x, accepts c.stream.next = some x →
      F (n + 1) a c = (Descent.advance >>= fun _ => round n x a >>= F n) c)
    (hround : ∀ x a, Follows d (round · x a) (body x a)) (a : α) :
    Follows d (F · a) (Rule.loop accepts body a) := by
  intro s
  induction hn : s.ahead.length using Nat.strong_induction_on generalizing a s with
  | _ n ih =>
    subst hn
    rw [FollowsAt]
    cases hx : accepts s.next with
    | none =>
      rw [Agrees.read_loop_of_none hx body a]
      exact Descent.Returns.call (fun n => hnone n a ⟨s, d⟩ hx) (succeed a s)
    | some x =>
      rw [Agrees.read_loop_of_some heof hx body a]
      refine Descent.Returns.call (fun n => hsome n a ⟨s, d⟩ x hx) ?_
      -- the token is taken, so what is left for the next round is shorter
      refine (advance s).bind fun _ s₁ hs₁ => ?_
      cases hs₁
      exact (hround x a s.rest).bind fun a' s₂ hs₂ =>
        ih _ (Agrees.round_length_lt heof hx hs₂) a' s₂ rfl

end Follows

/-! ## The functions of the parser -/

namespace Descent

theorem peek_bind {α : Type} (g : Token → Descent α) (c : Cursor) :
    (peek >>= g) c = g c.stream.next c := rfl

end Descent

section
variable {d : Nat} {r : Rule Tree}

theorem follows_closing (context : Closing) :
    Follows d (fun _ => Descent.closing context) (closing context) := by
  unfold closing
  refine Follows.peekThen fun t => ?_
  cases t
  case closeParen => exact .advance
  all_goals exact .fail _

/-- Operands with operators between them, by a function that calls itself behind
    every operator. -/
theorem follows_chain {accepts : Token → Option BinOp} (heof : accepts .endOfInput = none)
    {item : Nat → Descent Tree} {F : Nat → Tree → Descent Tree}
    (hnone : ∀ n left c, accepts c.stream.next = none → F (n + 1) left c = some (.ok left, c))
    (hsome : ∀ n left c op, accepts c.stream.next = some op → F (n + 1) left c =
      (Descent.advance >>= fun _ => item n >>= fun right => F n (.binary left op right)) c)
    (h : Follows d item r) : Follows d (fun n => item n >>= F n) (chain accepts r) := by
  refine h.bind fun first => Follows.loop heof hnone (fun n left c op hop => ?_)
    (fun op left => h.map (Tree.binary left op)) first
  rw [hsome n left c op hop]
  simp only [bind_assoc, pure_bind]

theorem follows_sum (h : Follows d Descent.product r) :
    Follows d Descent.sum (chain sumOperator r) := by
  refine Follows.call (fun n => by rw [Descent.sum]) <|
    follows_chain rfl (fun n left c hop => ?_) (fun n left c op hop => ?_) h
  · rw [Descent.sumFrom, Descent.peek_bind, hop]
    rfl
  · rw [Descent.sumFrom, Descent.peek_bind, hop]

theorem follows_product (h : Follows d Descent.application r) :
    Follows d Descent.product (chain productOperator r) := by
  refine Follows.call (fun n => by rw [Descent.product]) <|
    follows_chain rfl (fun n left c hop => ?_) (fun n left c op hop => ?_) h
  · rw [Descent.productFrom, Descent.peek_bind, hop]
    rfl
  · rw [Descent.productFrom, Descent.peek_bind, hop]

theorem follows_arguments (h : Follows d Descent.expression r) :
    Follows d Descent.arguments (arguments r) := by
  have hmore (found : Array Tree) : Follows d (Descent.argumentsFrom · found)
      (loop (only .comma) (fun _ => argumentRound r) found) := by
    have heof : only .comma .endOfInput = none := rfl
    refine Follows.loop heof (fun n found c hc => ?_) (fun n found c x hc => ?_)
      (fun _ found => .ifNext (.succeed found) (h.map found.push)) found
    · rw [Descent.argumentsFrom, Descent.peek_bind, hc]
      rfl
    · rw [Descent.argumentsFrom, Descent.peek_bind, hc]
  exact Follows.call (fun n => by rw [Descent.arguments]) <|
    Follows.ifNext (.succeed []) (h.bind fun first => (hmore #[first]).map Array.toList)

theorem follows_atom (h : Follows d Descent.expression r) :
    Follows d Descent.atom (atom r) := by
  refine Follows.call (fun n => by rw [Descent.atom]) ?_
  unfold atom
  refine Follows.peekThen fun t => Follows.either (fun ht => ?_) fun ht => ?_
  · subst ht
    exact Follows.advance.bind fun _ => h.bind fun inner =>
      (follows_closing .group).map fun _ => inner
  · cases t
    case openParen => exact absurd rfl ht
    case integer | float | ident => exact Follows.advance.map fun _ => _
    all_goals exact .fail _

theorem follows_application (h : Follows d Descent.expression r) :
    Follows d Descent.application (application r) := by
  refine Follows.call (fun n => by rw [Descent.application]) ?_
  refine (follows_atom h).bind fun callee => ?_
  refine Follows.loop rfl (fun n callee c hc => ?_) (fun n callee c x hc => ?_)
    (fun _ callee => (follows_arguments h).bind fun args =>
      (follows_closing .arguments).map fun _ => Tree.call callee args) callee
  · rw [Descent.applicationFrom, Descent.peek_bind, hc]
    rfl
  · rw [Descent.applicationFrom, Descent.peek_bind, hc]
    simp only [bind_assoc, pure_bind]

end

/-- **Expressions are read by the room that the counter leaves**, and the counter
    comes back to where it was. -/
theorem follows_expression {room d : Nat} (h : room + d = maxNesting) :
    Follows d Descent.expression (expressionIn room) := by
  induction room generalizing d with
  | zero =>
    intro s
    have hd : d = maxNesting := by omega
    refine Descent.Returns.call (fun n => ?_) (Follows.fail (.nestedTooDeep maxNesting) s)
    simp only [Descent.expression, if_pos hd]
    rfl
  | succ room ih =>
    have hinner : Follows (d + 1) Descent.expression (expressionIn room) := ih (by omega)
    have hsum := follows_sum (follows_product (follows_application hinner))
    intro s
    have hd : d ≠ maxNesting := by omega
    obtain ⟨least, hsum⟩ := hsum s
    refine ⟨least + 1, fun n hn => ?_⟩
    obtain ⟨m, rfl⟩ : ∃ m, n = m + 1 := ⟨n - 1, by omega⟩
    have hread : (Descent.sum m).run.run ⟨s, d + 1⟩ = _ := hsum m (Nat.le_of_succ_le_succ hn)
    simp only [Descent.expression, if_neg hd, hread]
    rfl

/-! ## Blocks -/

section
variable {α γ : Type} {d : Nat}

theorem follows_loop {accepts : Token → Option γ} (heof : accepts .endOfInput = none)
    {body : Nat → γ → α → Descent α} {rounds : γ → α → Rule α}
    (h : ∀ x a, Follows d (body · x a) (rounds x a)) (a : α) :
    Follows d (Descent.loop accepts body · a) (loop accepts rounds a) := by
  refine Follows.loop heof (fun n a c hc => ?_) (fun n a c x hc => ?_) h a
  · rw [Descent.loop, Descent.peek_bind, hc]
    rfl
  · rw [Descent.loop, Descent.peek_bind, hc]

theorem follows_separated {item : Nat → Descent α} {r : Rule α} (h : Follows d item r)
    (separator : Token) (heof : separator ≠ .endOfInput) :
    Follows d (Descent.separated separator item) (separated separator r) :=
  h.bind fun first => (follows_loop (only_eq_none_iff.2 heof.symm)
    (fun _ found => h.map found.push) #[first]).map Array.toList

theorem follows_skipSeparators : Follows d Descent.skipSeparators skipSeparators :=
  follows_loop rfl (fun _ _ => .succeed ()) ()

theorem follows_statement (h : Follows d Descent.expression expression) :
    Follows d Descent.statement statement := by
  refine (follows_separated (follows_separated h .comma nofun) .assign nofun).bind fun lists => ?_
  -- by the last list, and by whether there are others
  rcases lists.reverse with _ | ⟨_ | ⟨value, _ | _⟩, _ | _⟩
  case cons.cons.nil.nil | cons.cons.nil.cons => exact .succeed _
  all_goals exact .fail _

end

/-- **The parser that counts reads blocks as the grammar does**, and its counter
    is back at zero, with a tree and with an error. -/
theorem follows_block : Follows 0 Descent.block block := by
  have hstatement := follows_statement (follows_expression (Nat.add_zero maxNesting))
  refine follows_skipSeparators.bind fun _ => Follows.ifNext (.succeed _) ?_
  refine hstatement.bind fun first => (follows_loop rfl (fun _ found => ?_) #[first]).bind
    fun all => Follows.peekThen fun t => ?_
  · exact follows_skipSeparators.bind fun _ => .ifNext (.succeed found) (hstatement.map found.push)
  · cases t
    case endOfInput => exact .succeed _
    all_goals exact .fail _

end Stacklet
