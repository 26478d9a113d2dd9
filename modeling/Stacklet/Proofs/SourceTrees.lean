/-
  Trees that are read from source.

  The grammar alone allows for any tokens. The tokens of a source are spelled by
  some characters, so names in a tree are identifiers, integers are not negative
  and doubles are neither negative nor NaN; and a list is a target of its own
  only if it has one item. What is read from source is thus always made of
  statements that can be written as source (`Tree.IsStatement`), and these have
  no operands without a value.

  * `ofRatio_spec`: what a quotient of naturals is rounded to;
  * `yields_statement`: the statements whose tokens are spelled;
  * `ofSource_isStatement`: the statements of a source;
  * `Tree.IsStatement.filled`: nothing is missing in them;
  * `ofSource_wellFormed`: both, and which errors are left for compilations.
-/
import Stacklet.Proofs.Compilable
import Stacklet.Proofs.Parsing
import Stacklet.Proofs.RoundTrip

namespace Stacklet

open Phrase

/-! ## Spelled tokens -/

namespace Binary64

/-- What a quotient is rounded to has no sign, and is no NaN. -/
theorem ofRatio_spec (n d : Nat) : ¬ (ofRatio n d).isNaN ∧ ¬ (ofRatio n d).isNegative := by
  have hword : (ofRatio n d).word ≤ 2047 * 0x10000000000000 := by
    rw [word, ofRatio, UInt64.toNat_ofNat_of_lt' ((Nat.min_le_right _ _).trans_lt (by decide))]
    exact Nat.min_le_right _ _
  constructor
  · simp only [isNaN, exponentField, fraction, leadingOne, Bool.and_eq_true, beq_iff_eq,
      bne_iff_ne]
    omega
  · rw [isNegative, decide_eq_true_iff, signBit]
    omega

theorem ofDecimal_spec (digits : Nat) (exponent : Int) :
    ¬ (ofDecimal digits exponent).isNaN ∧ ¬ (ofDecimal digits exponent).isNegative := by
  cases exponent with
  | ofNat e => exact ofRatio_spec _ _
  | negSucc e => exact ofRatio_spec _ _

end Binary64

/-- What tokens with a value are like if some characters spell them. -/
theorem Spelling.spec {lexeme : List Char} {t : Token} (h : Spelling lexeme t) :
    match t with
    | .ident id => IsIdent id
    | .integer n => 0 ≤ n.toInt
    | .float x => ¬ x.isNaN ∧ ¬ x.isNegative
    | _ => True := by
  cases h with
  | symbol hc =>
    unfold symbol? at hc
    split at hc
    all_goals
      cases hc
      try exact trivial
  | ident hc hmore => exact ⟨_, _, String.toList_ofList, hc, hmore⟩
  | integer _ _ hn => exact hn.ge.trans' (Int.natCast_nonneg _)
  | float | point => exact Binary64.ofDecimal_spec _ _

/-- A token that is read from a source is spelled there. -/
theorem Scans.isSpelled {p : Position} {depth : Nat} {text : List Char} {tokens : List PlacedToken}
    (h : Scans p depth text tokens) : ∀ t ∈ tokens, t.token ≠ .endOfInput → t.token.IsSpelled := by
  induction h with
  | finish => exact List.forall_mem_singleton.2 fun hne => absurd rfl hne
  | token _ hlexeme _ ih => exact List.forall_mem_cons.2 ⟨fun _ => ⟨_, hlexeme.spelling⟩, ih⟩

/-! ## Phrases of spelled tokens -/

theorem yields_atom {E : Phrase Tree} (h : E.Yields Token.IsSpelled Tree.IsExpression) :
    (Atom E).Yields Token.IsSpelled Tree.IsExpression := by
  rintro _ _ (n | x | id | hgroup) hts
  · obtain ⟨lexeme, hlexeme⟩ := List.forall_mem_singleton.1 hts
    exact .int hlexeme.spec
  · obtain ⟨lexeme, hlexeme⟩ := List.forall_mem_singleton.1 hts
    exact .float hlexeme
  · obtain ⟨lexeme, hlexeme⟩ := List.forall_mem_singleton.1 hts
    exact .name hlexeme.spec
  · exact h.parenthesized _ _ hgroup hts

/-- Expressions at any depth can be written. -/
theorem yields_expression (room : Nat) :
    (Phrase.expression room).Yields Token.IsSpelled Tree.IsExpression := by
  induction room with
  | zero => exact nofun
  | succ room ih =>
    have happlication := ih.application (yields_atom ih) fun _ _ => .call
    have hproduct := happlication.chain ProductOperator (fun _ h => h) fun _ _ _ => .binary
    exact hproduct.chain SumOperator (fun _ h => h) fun _ _ _ => .binary

/-- A list of expressions is one target, or a tuple of two or more. -/
theorem isTarget_ofList {ts : List Tree} (hne : ts ≠ []) (h : ∀ t ∈ ts, t.IsExpression) :
    (Target.ofList ts).IsTarget := by
  have hplain (t : Tree) (ht : t ∈ ts) : (Target.ofTree t).IsPlain := by
    cases h t ht with
    | name hid => exact .name hid
    | int hn => exact .expr (.int hn) (by simp)
    | float hx => exact .expr (.float hx) (by simp)
    | binary hl hr => exact .expr (.binary hl hr) (by simp)
    | call hc ha => exact .expr (.call hc ha) (by simp)
  rcases ts with _ | ⟨t, _ | ⟨t', ts⟩⟩
  · exact absurd rfl hne
  · exact .plain (hplain t List.mem_cons_self)
  · refine .tuple ?_ (List.forall_mem_map.2 hplain)
    rw [List.length_map]
    exact Nat.le_add_left 2 _

theorem yields_statement : Statement.Yields Token.IsSpelled Tree.IsStatement := by
  have hexpression := yields_expression maxNesting
  rintro _ _ (hvalue | ⟨hlists, hne, hvalue⟩) hts
  · exact .expr (hexpression _ _ hvalue hts)
  · obtain ⟨hts, hus⟩ := List.forall_mem_append.1 hts
    have hlist := ((hexpression.listed .comma).before .assign).many _ _ hlists hts
    refine .assign (mt List.map_eq_nil_iff.1 hne) (List.forall_mem_map.2 fun ts hmem => ?_)
      (hexpression _ _ hvalue hus)
    exact isTarget_ofList (hlist ts hmem).1 (hlist ts hmem).2

/-! ## Trees of sources -/

/-- **A source is read as statements that can be written.** -/
theorem ofSource_isStatement {source : String} {tree : Tree} (h : Tree.ofSource source = .ok tree) :
    ∃ body, tree = .block body ∧ ∀ s ∈ body, s.IsStatement := by
  rw [Tree.ofSource] at h
  cases htokens : tokensOf source with
  | error e =>
    rw [htokens] at h
    cases h
  | ok tokens =>
    simp only [htokens] at h
    cases htree : Tree.ofTokens tokens with
    | error e =>
      rw [htree] at h
      cases h
    | ok tree' =>
      rw [htree] at h
      cases h
      refine yields_statement.block _ _ (block_of_ofTokens htree) fun t ht => ?_
      have hne : t ≠ .endOfInput := by simpa using List.mem_takeWhile_imp ht
      obtain ⟨placed, hplaced, rfl⟩ := List.mem_map.1 ((List.takeWhile_prefix _).subset ht)
      exact (tokensOf_iff_scans.1 htokens).isSpelled placed hplaced hne

namespace Tree

/-! ## Nothing is missing -/

theorem IsExpression.not_isSilent {e : Tree} (h : e.IsExpression) : ¬ e.isSilent := by
  cases h <;> exact nofun

/-- Everything in an expression is an expression. -/
theorem IsExpression.all {e : Tree} (h : e.IsExpression) : e.All IsExpression := by
  induction h with
  | name h => exact List.forall_mem_singleton.2 (.name h)
  | int h => exact List.forall_mem_singleton.2 (.int h)
  | float h => exact List.forall_mem_singleton.2 (.float h)
  | binary hl hr ihl ihr => exact all_binary.2 ⟨.binary hl hr, ihl, ihr⟩
  | call hc ha ihc iha => exact all_call.2 ⟨.call hc ha, ihc, iha⟩

/-- A double in an expression is neither negative nor NaN. -/
theorem IsExpression.float_spec {e : Tree} (h : e.IsExpression) {x : Binary64}
    (hx : .num (.float x) ∈ e.nodes) : ¬ x.isNaN ∧ ¬ x.isNegative := by
  cases h.all _ hx with
  | float h => exact h.spec

theorem IsExpression.filled {e : Tree} (h : e.IsExpression) : e.Filled := by
  intro node hnode operand hoperand
  cases h.all node hnode with
  | name | int | float => cases hoperand
  | binary hl hr =>
    rcases List.mem_pair.1 hoperand with rfl | rfl
    · exact hl.not_isSilent
    · exact hr.not_isSilent
  | call hc ha =>
    rcases List.mem_cons.1 hoperand with rfl | hoperand
    · exact hc.not_isSilent
    · exact (ha _ hoperand).not_isSilent

theorem IsStatement.wholes {s : Tree} (h : s.IsStatement) : ∀ e ∈ s.wholes, e.IsExpression := by
  cases h with
  | expr h => exact List.forall_mem_singleton.2 h
  | assign _ htargets h =>
    refine List.forall_mem_append.2 ⟨fun e he => ?_, List.forall_mem_singleton.2 h⟩
    obtain ⟨target, htarget, he⟩ := List.mem_flatMap.1 he
    exact (htargets target htarget).parts_spec.2.2 e he

theorem IsStatement.filled {s : Tree} (h : s.IsStatement) : s.Filled := by
  cases h with
  | expr h => exact filled_expr.2 h.filled
  | assign _ _ h => exact filled_assign.2 ⟨h.not_isSilent, h.filled⟩

end Tree

/-! ## Errors of compilations -/

namespace Tree

/-- Emission refuses a node because of its operator or because of its targets. -/
inductive Refused : Tree → CompileError → Prop
  | operator {left op right} : op ≠ .add →
      Refused (.binary left op right) (.unsupportedOperator op)
  | targets {targets value} : (¬ ∃ id, targets = [.name id]) →
      Refused (.assign targets value) (.ofTargets targets)

variable {e : CompileError}

theorem reject_notMem_refusals (t : Tree) (h : t.All fun node => ¬ node.Refused e) :
    .reject e ∉ t.refusals := by
  induction t with
  | binary left op right ihl =>
    obtain ⟨hop, hl, -⟩ := all_binary.1 h
    rw [refusals_binary]
    split_ifs with hadd
    · exact ihl hl
    · rintro hmem
      rcases List.mem_cons.1 hmem with hmem | hmem
      · cases hmem
        exact hop (.operator hadd)
      · exact ihl hl hmem
  | call callee args ihc => exact ihc (all_call.1 h).2.1
  | block | expr | assign | name | num => exact nofun

/-- Actions are refused for nodes only. -/
theorem reject_notMem_actions (t : Tree) (h : t.All fun node => ¬ node.Refused e) :
    .reject e ∉ t.actions := by
  induction t with
  | block body ih =>
    obtain ⟨-, hbody⟩ := all_block.1 h
    rw [actions, actionsOfEach_eq, mem_joined (.reject e) (by simp)]
    rintro ⟨as, has, hmem⟩
    obtain ⟨t, ht, rfl⟩ := List.mem_map.1 has
    exact ih t ht (hbody t ht) hmem
  | expr value ih => exact ih (all_expr.1 h).2
  | assign targets value ih =>
    obtain ⟨htargets, hvalue⟩ := all_assign.1 h
    by_cases hname : ∃ id, targets = [.name id]
    · obtain ⟨id, rfl⟩ := hname
      simp [actions, ih hvalue]
    · rw [actions_assign_unsupported hname, List.mem_singleton]
      rintro ⟨⟩
      exact htargets (.targets hname)
  | name | num => simp [actions]
  | binary left op right ihl ihr =>
    obtain ⟨-, hl, hr⟩ := all_binary.1 h
    simp [actions, reject_notMem_refusals _ h, ihl hl, ihr hr]
  | call callee args ihc iha =>
    obtain ⟨-, hc, ha⟩ := all_call.1 h
    simp only [actions, actionsOfEach_eq, List.mem_append, List.mem_flatten, List.mem_map,
      exists_exists_and_eq_and, List.mem_singleton, reduceCtorEq, or_false,
      reject_notMem_refusals _ hc, ihc hc, false_or]
    rintro ⟨t, ht, hmem⟩
    exact iha t ht (ha t ht) hmem

end Tree

theorem overflow?_eq_some {κ : Type} [DecidableEq κ] {context : String} {before : List κ} {k : κ}
    {e : CompileError} (h : overflow? context before k = some e) :
    ∃ value context, maxOperand < value ∧ e = .operandOverflow value context := by
  rw [overflow?] at h
  split_ifs at h with hfits
  cases h
  exact ⟨_, _, Nat.lt_of_not_le (not_or.1 hfits).2, rfl⟩

/-- A violation is a refusal or an operand that is too large. -/
theorem firstViolation?_eq_some {before as : List Action} {e : CompileError}
    (h : firstViolation? before as = some e) :
    .reject e ∈ as ∨ ∃ value context, maxOperand < value ∧ e = .operandOverflow value context := by
  induction as generalizing before with
  | nil => cases h
  | cons a as ih =>
    rw [firstViolation?] at h
    cases hv : a.violation? before with
    | none =>
      rw [hv] at h
      exact (ih h).imp_left (List.mem_cons_of_mem a)
    | some e' =>
      rw [hv] at h
      cases h
      cases a with
      | load | fetch | store => exact Or.inr (overflow?_eq_some hv)
      | call count =>
        rw [Action.violation?] at hv
        split_ifs at hv with hcount
        cases hv
        exact Or.inr ⟨_, _, Nat.lt_of_not_le hcount, rfl⟩
      | reject =>
        cases hv
        exact Or.inl List.mem_cons_self
      | add | drop | dup | ret => cases hv

/-- **A tree in which nothing is missing compiles**, unless one of its nodes is
    refused or an operand is too large. -/
theorem CodeUnit.ofTree_eq_error {t : Numbering} {options : UnitOptions} {tree : Tree}
    {e : CompileError} (hf : tree.Filled) (h : ofTree t options tree = .error e) :
    (∃ node ∈ tree.nodes, node.Refused e) ∨
      ∃ value context, maxOperand < value ∧ e = .operandOverflow value context := by
  cases hv : firstViolation? [] tree.unitActions with
  | none =>
    obtain ⟨u, hu⟩ := ofTree_of_filled t options tree hv (supported_of_no_violation tree hv) hf
    cases h.symm.trans hu
  | some e' =>
    cases h.symm.trans (ofTree_of_violation t options tree hv)
    refine (firstViolation?_eq_some hv).imp_left fun hreject => ?_
    rw [Tree.unitActions, mem_joined (.reject e) (by simp)] at hreject
    obtain ⟨as, has, hreject⟩ := hreject
    by_contra hnone
    have hall : tree.All fun node => ¬ node.Refused e := fun node hnode hrefused =>
      hnone ⟨node, hnode, hrefused⟩
    simp only [List.mem_cons, List.not_mem_nil, or_false] at has
    rcases has with rfl | rfl
    · exact tree.reject_notMem_actions hall hreject
    · simp at hreject

/-- **Source is read as well-formed trees, and these compile but for what source
    can say and units cannot.** A source is read as statements that can be
    written: expressions and assignments over names, numbers, operations and
    calls, the numbers without sign. An error of the compilation is that of an
    operator or of targets in the tree, or that of an operand that is too
    large. -/
theorem ofSource_wellFormed {source : String} {tree : Tree} (h : Tree.ofSource source = .ok tree) :
    (∃ body, tree = .block body ∧ ∀ s ∈ body, s.IsStatement ∧
        ∀ e ∈ s.wholes, ∀ x, .num (.float x) ∈ e.nodes → ¬ x.isNaN ∧ ¬ x.isNegative) ∧
      ∀ t options e, CodeUnit.ofTree t options tree = .error e →
        (∃ left op right, .binary left op right ∈ tree.nodes ∧ op ≠ .add ∧
            e = .unsupportedOperator op) ∨
          (∃ targets value, .assign targets value ∈ tree.nodes ∧ (¬ ∃ id, targets = [.name id]) ∧
            e = .ofTargets targets) ∨
          ∃ value context, maxOperand < value ∧ e = .operandOverflow value context := by
  obtain ⟨body, rfl, hbody⟩ := ofSource_isStatement h
  refine ⟨⟨body, rfl, fun s hs => ⟨hbody s hs, fun e he x hx => ?_⟩⟩, fun t options e he => ?_⟩
  · exact ((hbody s hs).wholes e he).float_spec hx
  · have hfilled : (Tree.block body).Filled := Tree.filled_block.2 fun s hs => (hbody s hs).filled
    rcases CodeUnit.ofTree_eq_error hfilled he with ⟨node, hnode, hrefused⟩ | hoverflow
    · cases hrefused with
      | operator hop => exact Or.inl ⟨_, _, _, hnode, hop, rfl⟩
      | targets htargets => exact Or.inr (Or.inl ⟨_, _, hnode, htargets, rfl⟩)
    · exact Or.inr (Or.inr hoverflow)

/-- Without an assignment, no targets are refused. -/
theorem ofSource_wellFormed_scaled :
    Tree.ofSource "(a - 1) * f(b)" = .ok (.block [.expr .scaled]) ∧
      ∀ t options e, CodeUnit.ofTree t options (.block [.expr .scaled]) = .error e →
        (∃ op, e = .unsupportedOperator op) ∨
          ∃ value context, e = .operandOverflow value context := by
  obtain ⟨ts, hwrites, hspells⟩ := isWritten_scaled
  have hnesting : ∀ e ∈ (Tree.expr .scaled).wholes, e.nesting 0 < maxNesting :=
    List.forall_mem_singleton.2 (by decide)
  have hblock := hwrites.block
    (List.forall_mem_singleton.2 (statement_tokens isStatement_scaled hnesting))
  have hsource := ofSource_of_spells hblock hspells
  refine ⟨hsource, fun t options e he => ?_⟩
  rcases (ofSource_wellFormed hsource).2 t options e he with ⟨-, op, -, -, -, rfl⟩ |
    ⟨targets, value, hnode, -, -⟩ | ⟨value, context, -, rfl⟩
  · exact Or.inl ⟨op, rfl⟩
  · simp [Tree.nodes, Tree.scaled] at hnode
  · exact Or.inr ⟨value, context, rfl⟩

end Stacklet
