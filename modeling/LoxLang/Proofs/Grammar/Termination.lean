import LoxLang.Proofs.Grammar.Pace
import LoxLang.Proofs.Grammar.Joining

/-! # Reading ends

A declaration may fail before it has read a token, reading then goes on where the next one may
begin, and that may be at once; and a block or a class body goes on inside a declaration that does
all this.  Still each of them reads a token before it comes back, whatever the tokens are
(`declaration_advances`), so no loop goes round without end (`loopsUnlimited`), and no reader goes
deeper than the tokens lead it (`fault_of_parse`).

All of it comes from one contract, which each reader keeps with itself at another limit of nesting
and on tokens that differ behind their first end token (`Reader.Paced`).  What reads an expression
keeps it on tokens that differ behind their first semicolon, too.  The mark `k` of that
contract is the limit of nesting for declarations, and one, two and three more for statements,
expressions and operands, into which they lead without reading a token.  The main statement is
`parse_ends`. -/

namespace LoxLang
namespace Grammar

open Reader

variable {z : Stretch} {same : Prop} {m : Bool} {k k' : Nat}
  {operand operand' value value' : Reader (Expr Unit)}

/-! ## Expressions -/

section
variable (h : Paced z same m k operand operand')

include h

theorem paced_factor : Paced z same m k (factor operand) (factor operand') :=
  h.leftChain (Stretch.unwanted rfl rfl)

theorem paced_term : Paced z same m k (term operand) (term operand') :=
  (paced_factor h).leftChain (Stretch.unwanted rfl rfl)

theorem paced_comparison : Paced z same m k (comparison operand) (comparison operand') :=
  (paced_term h).leftChain (Stretch.unwanted rfl rfl)

theorem paced_equality : Paced z same m k (equality operand) (equality operand') :=
  (paced_comparison h).leftChain (Stretch.unwanted rfl rfl)

theorem paced_conjunction : Paced z same m k (conjunction operand) (conjunction operand') :=
  (paced_equality h).leftChain (Stretch.unwanted rfl rfl)

theorem paced_disjunction : Paced z same m k (disjunction operand) (disjunction operand') :=
  (paced_conjunction h).leftChain (Stretch.unwanted rfl rfl)

end

theorem paced_assignment (h : Paced z same m k operand operand')
    (hvalue : Paced z same true k' value value') (hk : k ≤ k' + 2) :
    Paced z same m k (assignment operand value) (assignment operand' value') := by
  rw [← Bool.or_false m]
  refine (paced_disjunction h).bind fun target s s' hs => ?_
  refine .accept?_bind (n := false) hs (Stretch.unwanted rfl rfl) hk (fun equals u u' _ _ hu => ?_)
    (pacedAt_pure target)
  refine (hvalue u u' hu).loosen.bind (n := false) fun v t t' _ _ htogether _ => ?_
  have hkept : Paced z same false k' (do record .invalidTarget equals; return target)
      (do record .invalidTarget equals; return target) :=
    (paced_record .invalidTarget equals).bind fun _ => paced_pure target
  cases target with
  | nameRef ref => exact pacedAt_pure (Expr.assign ref v)
  | get object name => exact pacedAt_pure (Expr.set object name v)
  | _ => exact hkept t t' (htogether.same hu)

section
variable (h : Paced z same true k value value')

include h

theorem paced_primary : Paced z same true (k + 2) (primary value) (primary value') := by
  refine .peek_bind fun t rest rest' errors errors' hs => ?_
  have single : ¬ z.Ends t.kind → ∀ e : Expr Unit, PacedAt z same ⟨t :: rest, errors⟩
      ⟨t :: rest', errors'⟩ true (k + 2) (do skip; return e) (do skip; return e) :=
    fun ht e => .skip_bind ht hs (Nat.le_refl _) (paced_pure e)
  split
  case h_1 ht | h_2 ht | h_3 ht | h_4 ht | h_5 ht | h_7 ht | h_8 ht =>
    exact single (Stretch.not_ends (by simp [ht]) (by simp [ht])) _
  case h_6 ht =>
    exact .skip_bind (Stretch.not_ends (by simp [ht]) (by simp [ht])) hs (Nat.le_refl _)
      ((paced_expect _ (Stretch.not_ends (by decide) (by decide))).bind fun _ =>
        (paced_expect _ (Stretch.not_ends (by decide) (by decide))).bind fun name =>
          paced_pure (Expr.superRef (reference t) name))
  case h_9 ht =>
    exact .skip_bind (Stretch.not_ends (by simp [ht]) (by simp [ht])) hs (Nat.le_refl _)
      (h.bind fun e => (paced_expect _ (Stretch.not_ends (by decide) (by decide))).bind fun _ =>
        paced_pure (Expr.group e))
  case h_10 => exact paced_fail _ _ _ hs

theorem paced_arguments : Paced z same false k (arguments value) (arguments value') :=
  .sees_bind fun _ => (paced_pure []).ite h.commaSeparated

/-- The turns of a chain of calls and accesses. -/
theorem pacedAt_callChain (turns turns' : List Token) (callee : Expr Unit) (s s' : Cursor)
    (hs : SameTo z s.rest s'.rest) (hturns : s.rest.length ≤ turns.length)
    (hturns' : s'.rest.length ≤ turns'.length) :
    PacedAt z same s s' false (k + 2) (callChain value turns callee)
      (callChain value' turns' callee) := by
  have hnil : ∀ (value : Reader (Expr Unit)) turns callee errors,
      callChain value turns callee ⟨[], errors⟩ = .error (.fault .outOfTokens) ⟨[], errors⟩ := by
    intro value turns callee errors
    cases turns <;> rfl
  refine pacedAt_turns (hnil value) (hnil value') ?_ turns turns' callee s s' hs hturns hturns'
  intro turn turns turn' turns' callee t rest rest' errors errors' hs hmore
  have hparen : ¬ z.Ends .leftParen := Stretch.not_ends (by decide) (by decide)
  have hdot : ¬ z.Ends .dot := Stretch.not_ends (by decide) (by decide)
  refine .skipped_bind (n := false) hs hparen (Nat.le_refl _) ?_
    (.skipped_bind (n := false) hs hdot (Nat.le_refl _) ?_ (pacedAt_pure callee))
  · intro _ u u' hu hu' hsame
    obtain ⟨_, rfl⟩ := List.cons.inj hu
    obtain ⟨_, rfl⟩ := List.cons.inj hu'
    refine (paced_arguments h u u' hsame).bind (n := false) fun es v v' _ _ hv _ => ?_
    have hend : ¬ z.Ends .rightParen := Stretch.not_ends (by decide) (by decide)
    refine (paced_expect (k := k) .argumentsEnd hend v v' (hv.same hsame)).loosen.bind
      (n := false) fun paren w w' _ _ hw _ => ?_
    exact (hmore (.call callee paren es) w w' (hw.same (hv.same hsame))
      (Nat.le_trans hw.first.length_le hv.first.length_le)
      (Nat.le_trans hw.second.length_le hv.second.length_le)).weaken id (Nat.le_add_right k 2)
  · intro _ u u' hu hu' hsame
    obtain ⟨_, rfl⟩ := List.cons.inj hu
    obtain ⟨_, rfl⟩ := List.cons.inj hu'
    have hname : ¬ z.Ends .identifier := Stretch.not_ends (by decide) (by decide)
    refine (paced_expect (k := k) .propertyName hname u u' hsame).loosen.bind
      (n := false) fun name v v' _ _ hv _ => ?_
    exact (hmore (.get callee name) v v' (hv.same hsame) hv.first.length_le
      hv.second.length_le).weaken id (Nat.le_add_right k 2)

theorem paced_call : Paced z same true (k + 2) (call value) (call value') := by
  refine .upcoming_bind fun s s' hs => ?_
  refine (paced_primary h s s' hs).bind (n := false) fun e t t' _ _ htogether _ => ?_
  exact pacedAt_callChain h s.rest s'.rest e t t' (htogether.same hs)
    htogether.first.length_le htogether.second.length_le

end

/-- Expressions and operands. -/
theorem paced_expression_and_unary (depth depth' : Nat) (hdepth : depth ≤ depth')
    (hsame : same → depth' = depth) :
    Paced z same true (depth + 2) (expression depth) (expression depth') ∧
      Paced z same true (depth + 3) (unary depth) (unary depth') := by
  induction depth generalizing depth' with
  | zero =>
    exact ⟨paced_stop (by omega) fun h => by rw [hsame h]; rfl,
      paced_stop (by omega) fun h => by rw [hsame h]; rfl⟩
  | succ depth ih =>
    obtain ⟨depth', rfl⟩ : ∃ d, depth' = d + 1 := ⟨depth' - 1, by omega⟩
    obtain ⟨hexpression, hunary⟩ := ih depth' (by omega) fun h => by have := hsame h; omega
    refine ⟨paced_assignment (hunary.atMost (by omega)) hexpression (by omega), fun s s' hs => ?_⟩
    exact .accept?_bind (n := true) hs (Stretch.unwanted rfl rfl) (by omega)
      (fun op u u' _ _ hu =>
        hunary.bind (n := false) (fun operand => paced_pure (Expr.unary op operand)) u u' hu)
      (paced_call hexpression s s' hs)

theorem paced_expression {depth depth' : Nat} (hdepth : depth ≤ depth')
    (hsame : same → depth' = depth) :
    Paced z same true (depth + 2) (expression depth) (expression depth') :=
  (paced_expression_and_unary depth depth' hdepth hsame).1

/-! ## Statements and declarations -/

/-- The contract of two readers of declarations, which are read before any but the end token. -/
def PacedDeclaration (same : Prop) (k : Nat) (d d' : Reader (Option (Stmt Unit))) : Prop :=
  ∀ t rest rest' errors errors', t.kind ≠ .eof → SameToEnd (t :: rest) (t :: rest') →
    PacedAt .program same ⟨t :: rest, errors⟩ ⟨t :: rest', errors'⟩ true k d d'

section
variable {d d' : Reader (Option (Stmt Unit))} {s s' : Reader (Stmt Unit)}
  {e e' : Reader (Expr Unit)}

theorem sees_endsBody_nil (errors : List SyntaxError) :
    (return (← sees .rightBrace) || (← sees .eof) : Reader Bool) ⟨[], errors⟩ =
      .error (.fault .outOfTokens) ⟨[], errors⟩ := rfl

section
variable (hd : PacedDeclaration same k d d')

include hd

theorem paced_block : Paced .program same true k (block d) (block d') :=
  (Paced.manyUntil sees_endsBody_nil sees_endsBody rfl hd).bind fun body =>
    (paced_expect _ (by decide)).bind fun _ => paced_pure body

omit hd in
theorem paced_parameters : Paced z same false k parameters parameters :=
  .sees_bind fun _ => (paced_pure []).ite
    (paced_expect _ (Stretch.not_ends (by decide) (by decide))).commaSeparated

theorem paced_function (kind : CallableKind) :
    Paced .program same true k (function kind d) (function kind d') :=
  (paced_expect _ (by decide)).bind fun name => (paced_expect _ (by decide)).bind fun _ =>
    paced_parameters.bind fun params => (paced_expect _ (by decide)).bind fun _ =>
      (paced_expect _ (by decide)).bind fun _ => (paced_block hd).bind fun body =>
        paced_pure (⟨name, params, body⟩ : Function Unit)

omit hd in
theorem paced_superclass : Paced z same false k superclass superclass :=
  .skipped_bind (Stretch.not_ends (by decide) (by decide)) (Nat.le_add_right k 2)
    ((paced_expect _ (Stretch.not_ends (by decide) (by decide))).loosen.bind fun name =>
      paced_pure (some (reference name)))
    (paced_pure none)

theorem paced_classOf : Paced .program same true k (classOf d) (classOf d') := by
  have hmethod := (paced_function hd .method).map some
  exact (paced_expect _ (by decide)).bind fun name => paced_superclass.bind fun parent =>
    (paced_expect _ (by decide)).bind fun _ =>
      (Paced.manyUntil sees_endsBody_nil sees_endsBody rfl
        fun t rest rest' errors errors' _ hs => hmethod _ _ hs).bind fun methods =>
      (paced_expect _ (by decide)).bind fun _ => paced_pure (Stmt.classOf name parent methods)

end

theorem paced_unlessSees (he : Paced z same true k e e') (kind : Kind) :
    Paced z same false k (unlessSees kind e) (unlessSees kind e') :=
  .sees_bind fun _ => (paced_pure none).ite (he.map some).loosen

section
variable (he : Paced .program same true k e e')

include he

theorem paced_var : Paced .program same true k (var e) (var e') := by
  refine (paced_expect _ (by decide)).bind (n := true) fun name => ?_
  have hend : ∀ initial : Option (Expr Unit), Paced .program same true k (do
      let _ ← expect .semicolon .variableEnd
      return Stmt.var name initial) (do
      let _ ← expect .semicolon .variableEnd
      return Stmt.var name initial) :=
    fun initial => (paced_expect _ (by decide)).bind fun _ => paced_pure (Stmt.var name initial)
  exact .skipped_bind (by decide) (Nat.le_add_right k 2) ((he.map some).bind hend)
    ((paced_pure none).bind hend)

theorem paced_expressionStatement :
    Paced .program same true k (expressionStatement e) (expressionStatement e') :=
  he.bind fun value => (paced_expect _ (by decide)).bind fun _ => paced_pure (Stmt.expression value)

theorem paced_print : Paced .program same true k (print e) (print e') :=
  he.bind fun value => (paced_expect _ (by decide)).bind fun _ => paced_pure (Stmt.print value)

theorem paced_returnFrom (keyword : Token) :
    Paced .program same true k (returnFrom keyword e) (returnFrom keyword e') :=
  (paced_unlessSees he _).bind fun value => (paced_expect _ (by decide)).bind fun _ =>
    paced_pure (Stmt.returnFrom keyword value)

theorem paced_forInitial : Paced .program same true k (forInitial e) (forInitial e') :=
  .skipped_bind (by decide) (Nat.le_add_right k 2) (paced_pure none)
    (.skipped_bind (by decide) (Nat.le_add_right k 2) ((paced_var he).map some)
      ((paced_expressionStatement he).map some))

section
variable (hs : Paced .program same true k s s')

include hs

theorem paced_forLoop : Paced .program same true k (forLoop e s) (forLoop e' s') :=
  (paced_expect _ (by decide)).bind fun _ => (paced_forInitial he).bind fun initial =>
    (paced_unlessSees he _).bind fun condition => (paced_expect _ (by decide)).bind fun _ =>
      (paced_unlessSees he _).bind fun step => (paced_expect _ (by decide)).bind fun _ =>
        hs.bind fun body => paced_pure (Stmt.forLoop initial condition step body)

theorem paced_conditional : Paced .program same true k (conditional e s) (conditional e' s') := by
  refine (paced_expect _ (by decide)).bind fun _ => he.bind fun condition =>
    (paced_expect _ (by decide)).bind fun _ => hs.bind (n := false) fun body => ?_
  exact .skipped_bind (by decide) (Nat.le_add_right k 2)
    (hs.loosen.bind fun other => paced_pure (Stmt.ifElse condition body other))
    (paced_pure (Stmt.ifThen condition body))

theorem paced_whileLoop : Paced .program same true k (whileLoop e s) (whileLoop e' s') :=
  (paced_expect _ (by decide)).bind fun _ => he.bind fun condition =>
    (paced_expect _ (by decide)).bind fun _ => hs.bind fun body =>
      paced_pure (Stmt.whileLoop condition body)

end

end

end

/-- Declarations and statements. -/
theorem paced_declaration_and_statement (depth depth' : Nat) (hdepth : depth ≤ depth')
    (hsame : same → depth' = depth) :
    PacedDeclaration same depth (declaration depth) (declaration depth') ∧
      Paced .program same true (depth + 1) (statement depth) (statement depth') := by
  induction depth generalizing depth' with
  | zero =>
    have hstop : ∀ {α} {r' : Nat → Reader α}, r' 0 = stop .tooDeep → same →
        r' depth' = stop .tooDeep :=
      fun h hs => by rw [hsame hs, h]
    exact ⟨fun t rest rest' errors errors' _ hs => paced_stop (by omega) (hstop rfl) _ _ hs,
      paced_stop (by omega) (hstop rfl)⟩
  | succ depth ih =>
    obtain ⟨depth', rfl⟩ : ∃ d, depth' = d + 1 := ⟨depth' - 1, by omega⟩
    have hsame' : same → depth' = depth := fun h => by have := hsame h; omega
    obtain ⟨hdeclaration, hstatement⟩ := ih depth' (by omega) hsame'
    have he := paced_expression (z := .program) (Nat.le_of_succ_le_succ hdepth) hsame'
    constructor
    · intro t rest rest' errors errors' ht hs
      refine .recover ht hs (Paced.peek_bind (fun t rest rest' errors errors' hs => ?_) _ _ hs)
      split
      case h_1 hk => exact .skip_bind (by simp [hk]) hs (by omega) (paced_classOf hdeclaration)
      case h_2 hk =>
        exact .skip_bind (by simp [hk]) hs (by omega) ((paced_function hdeclaration _).bind fun f =>
          paced_pure (Stmt.function f))
      case h_3 hk => exact .skip_bind (by simp [hk]) hs (by omega) (paced_var he)
      case h_4 => exact hstatement _ _ hs
    · refine .peek_bind fun t rest rest' errors errors' hs => ?_
      split
      case h_1 hk =>
        exact .skip_bind (by simp [hk]) hs (by omega)
          (paced_forLoop (he.atMost (by omega)) hstatement)
      case h_2 hk =>
        exact .skip_bind (by simp [hk]) hs (by omega)
          (paced_conditional (he.atMost (by omega)) hstatement)
      case h_3 hk => exact .skip_bind (by simp [hk]) hs (by omega) (paced_print he)
      case h_4 hk => exact .skip_bind (by simp [hk]) hs (by omega) (paced_returnFrom he t)
      case h_5 hk =>
        exact .skip_bind (by simp [hk]) hs (by omega)
          (paced_whileLoop (he.atMost (by omega)) hstatement)
      case h_6 hk =>
        exact .skip_bind (by simp [hk]) hs (by omega) ((paced_block hdeclaration).bind fun body =>
          paced_pure (Stmt.block body))
      case h_7 => exact paced_expressionStatement (he.atMost (by omega)) _ _ hs

theorem sees_eof_nil (errors : List SyntaxError) :
    sees .eof ⟨[], errors⟩ = .error (.fault .outOfTokens) ⟨[], errors⟩ := rfl

theorem paced_program {depth depth' : Nat} (hdepth : depth ≤ depth')
    (hsame : same → depth' = depth) :
    Paced .program same false depth (program depth) (program depth') :=
  .manyUntil sees_eof_nil sees_endsProgram rfl
    (paced_declaration_and_statement depth depth' hdepth hsame).1

/-- **A declaration reads a token.** Before any token but the end token, the reader of declarations
leaves at most the tokens behind that one, also when the declaration fails and the reader goes on
where the next one may begin. -/
theorem declaration_advances (depth : Nat) {t : Token} (rest : List Token)
    (errors : List SyntaxError) (ht : t.kind ≠ .eof) :
    (∃ declared s, declaration depth ⟨t :: rest, errors⟩ = .ok declared s ∧ s.rest <:+ rest) ∨
      (∃ s, declaration depth ⟨t :: rest, errors⟩ = .error (.fault .outOfTokens) s ∧
        NoEnd (t :: rest)) ∨
      ∃ s, declaration depth ⟨t :: rest, errors⟩ = .error (.fault .tooDeep) s ∧
        depth ≤ 2 * (t :: rest).length + 3 := by
  have hdeclaration : PacedDeclaration True depth (declaration depth) (declaration depth) :=
    (paced_declaration_and_statement depth depth (Nat.le_refl _) fun _ => rfl).1
  have h := hdeclaration t rest rest errors errors ht (.refl _)
  unfold PacedAt at h
  cases hrun : declaration depth ⟨t :: rest, errors⟩ with
  | ok declared s =>
    rw [hrun] at h
    obtain ⟨_, read, _, _, htogether, hread⟩ := h
    have hrest : t :: rest = read ++ s.rest := htogether.first.rest_eq
    cases read with
    | nil => exact absurd rfl (hread rfl)
    | cons _ read => exact .inl ⟨declared, s, rfl, read, (List.cons.inj hrest).2.symm⟩
  | error i s =>
    rw [hrun] at h
    cases i with
    | syntaxError =>
      cases depth with
      | zero => cases hrun
      | succ depth => exact absurd hrun (persists_recover _ _)
    | fault f =>
      rcases h.1 with ⟨rfl, hend⟩ | ⟨rfl, hdepth⟩
      · exact .inr (.inl ⟨s, rfl, hend⟩)
      · exact .inr (.inr ⟨s, rfl, hdepth⟩)

end Grammar

/-! ## Loops -/

namespace Reader

/-- Whatever turns a loop is given, it goes on as with one turn for each token that is left, if
there are at least as many of them.  So it never stops because its turns are used up. -/
def Unlimited {α : Type} (loop : List Token → Reader α) : Prop :=
  ∀ s turns, s.rest ≠ [] → s.rest.length ≤ turns.length → loop turns s = loop s.rest s

theorem ne_nil_of_length_le {tokens turns : List Token} (h : tokens ≠ [])
    (hturns : tokens.length ≤ turns.length) : turns ≠ [] :=
  List.length_pos_iff.mp (Nat.lt_of_lt_of_le (List.length_pos_iff.mpr h) hturns)

end Reader

namespace Grammar

open Reader

/-- No loop of the grammar stops because its turns are used up. -/
structure LoopsUnlimited (depth : Nat) : Prop where
  program : ∀ items, Unlimited fun turns =>
    manyUntil.more (sees .eof) (declaration depth) turns items
  block : ∀ items, Unlimited fun turns =>
    manyUntil.more (return (← sees .rightBrace) || (← sees .eof)) (declaration depth) turns items
  classBody : ∀ items, Unlimited fun turns =>
    manyUntil.more (return (← sees .rightBrace) || (← sees .eof))
      (some <$> function .method (declaration depth)) turns items
  parameters : ∀ count items, Unlimited fun turns =>
    commaSeparated.more .tooManyParameters (expect .identifier .parameterName) turns count items
  arguments : ∀ count items, Unlimited fun turns =>
    commaSeparated.more .tooManyArguments (expression depth) turns count items
  calls : ∀ callee, Unlimited fun turns => callChain (expression depth) turns callee
  operators : ∀ level ∈ [(isFactorOp, unary depth), (isTermOp, factor (unary depth)),
      (isComparisonOp, term (unary depth)), (isEqualityOp, comparison (unary depth)),
      (fun kind => kind = .andWord, equality (unary depth)),
      (fun kind => kind = .orWord, conjunction (unary depth))],
    ∀ join left, Unlimited fun turns => leftChain.more level.1 join level.2 turns left

theorem unlimited_leftChain {ops : Kind → Bool} {r : Reader (Expr Unit)}
    (hend : ∀ kind, Stretch.program.Ends kind → ops kind = false)
    (h : Paced .program True true k r r) (join : Expr Unit → Token → Expr Unit → Expr Unit)
    (left : Expr Unit) : Unlimited fun turns => leftChain.more ops join r turns left :=
  fun s turns _ hturns => (pacedAt_leftChain_more hend h s.rest turns left s s (.refl _)
    (Nat.le_refl _) hturns).eq trivial

theorem loopsUnlimited (depth : Nat) : LoopsUnlimited depth := by
  have hdeclaration : PacedDeclaration True depth (declaration depth) (declaration depth) :=
    (paced_declaration_and_statement depth depth (Nat.le_refl _) fun _ => rfl).1
  have hexpression : Paced .program True true (depth + 2) (expression depth) (expression depth) :=
    paced_expression (Nat.le_refl _) fun _ => rfl
  have hunary : Paced .program True true (depth + 3) (unary depth) (unary depth) :=
    (paced_expression_and_unary depth depth (Nat.le_refl _) fun _ => rfl).2
  have hmethod := (paced_function hdeclaration .method).map some
  exact {
    program := fun items s turns _ hturns =>
      (pacedAt_manyUntil_more sees_eof_nil sees_endsProgram rfl hdeclaration s.rest turns items s s
        (.refl _) (Nat.le_refl _) hturns).eq trivial
    block := fun items s turns _ hturns =>
      (pacedAt_manyUntil_more sees_endsBody_nil sees_endsBody rfl hdeclaration s.rest turns items s
        s (.refl _) (Nat.le_refl _) hturns).eq trivial
    classBody := fun items s turns _ hturns =>
      (pacedAt_manyUntil_more sees_endsBody_nil sees_endsBody rfl
        (fun t rest rest' errors errors' _ hs => hmethod _ _ hs) s.rest turns items s s (.refl _)
        (Nat.le_refl _) hturns).eq trivial
    parameters := fun count items s turns hne hturns =>
      (pacedAt_commaSeparated_more (z := .program) (k := 0) (paced_expect _ (by decide)) s.rest
        turns count items s s (.refl _) (Nat.le_refl _) hne hturns (ne_nil_of_length_le hne hturns)).eq trivial
    arguments := fun count items s turns hne hturns =>
      (pacedAt_commaSeparated_more hexpression s.rest turns count items s s (.refl _)
        (Nat.le_refl _) hne hturns (ne_nil_of_length_le hne hturns)).eq trivial
    calls := fun callee s turns _ hturns =>
      (pacedAt_callChain hexpression s.rest turns callee s s (.refl _) (Nat.le_refl _) hturns).eq
        trivial
    operators := by
      simp only [List.forall_mem_cons, List.not_mem_nil, false_imp_iff, implies_true, and_true]
      exact ⟨unlimited_leftChain (Stretch.unwanted rfl rfl) hunary,
        unlimited_leftChain (Stretch.unwanted rfl rfl) (paced_factor hunary),
        unlimited_leftChain (Stretch.unwanted rfl rfl) (paced_term hunary),
        unlimited_leftChain (Stretch.unwanted rfl rfl) (paced_comparison hunary),
        unlimited_leftChain (Stretch.unwanted rfl rfl) (paced_equality hunary),
        unlimited_leftChain (Stretch.unwanted rfl rfl) (paced_conjunction hunary)⟩ }

/-! ## Programs -/

/-- A reader that only looks at the cursor. -/
theorem sees_stays {kind : Kind} {s s' : Cursor} {b : Bool} (h : sees kind s = .ok b s') :
    s' = s := by
  obtain ⟨rest, errors⟩ := s
  cases rest with
  | nil => cases h
  | cons t rest =>
    cases h
    rfl

/-- The declarations of a program end before an end token. -/
theorem sees_eof_of_program {depth : Nat} {s s' : Cursor} {program : List (Stmt Unit)}
    (h : Grammar.program depth s = .ok program s') : sees .eof s' = .ok true s' := by
  -- the loop returns from the test alone, so the end token is still next then
  have more : ∀ turns items s, manyUntil.more (sees .eof) (declaration depth) turns items s =
      .ok program s' → sees .eof s' = .ok true s' := by
    intro turns
    induction turns with
    | nil => exact fun items s h => nomatch h
    | cons turn turns ih =>
      intro items s h
      rw [manyUntil_more_cons] at h
      cases hsees : sees .eof s with
      | error i t =>
        rw [EStateM.bind_error hsees] at h
        cases h
      | ok b t =>
        obtain rfl := sees_stays hsees
        rw [EStateM.bind_ok hsees] at h
        cases b with
        | true =>
          cases h
          exact hsees
        | false =>
          cases hdeclaration : declaration depth t with
          | error i u =>
            rw [if_neg Bool.false_ne_true, EStateM.bind_error hdeclaration] at h
            cases h
          | ok o u =>
            rw [if_neg Bool.false_ne_true, EStateM.bind_ok hdeclaration] at h
            exact ih _ u h
  exact more s.rest [] s h

end Grammar

open Reader

section
variable {depth depth' : Nat} {tokens tokens' : List Token}

/-- Parsing yields a program only if the tokens have an end. -/
theorem hasEnd_of_parse {parsed : Parsed} (h : parse depth tokens = .ok parsed) :
    HasEnd tokens := by
  obtain ⟨s, hprogram, _⟩ := parse_eq_ok h
  have hpaced : PacedAt .program True ⟨tokens, []⟩ ⟨tokens, []⟩ false depth (Grammar.program depth)
      (Grammar.program depth) :=
    Grammar.paced_program (Nat.le_refl depth) (fun _ => rfl) _ _ (.refl tokens)
  unfold PacedAt at hpaced
  rw [hprogram] at hpaced
  obtain ⟨_, read, _, _, htogether, _⟩ := hpaced
  have hsees := Grammar.sees_eof_of_program hprogram
  have htokens : tokens = read ++ s.rest := htogether.first.rest_eq
  obtain ⟨rest, errors⟩ := s
  cases rest with
  | nil => cases hsees
  | cons t rest =>
    rw [Grammar.sees_endsProgram] at hsees
    have ht : Grammar.endsProgram t.kind = true := by
      injection hsees
    exact ⟨t, by simp [htokens], of_decide_eq_true ht⟩

/-- What parsing two token lists comes to, where the readers keep pace. -/
theorem parse_of_pacedAt {same : Prop} {m : Bool} {k : Nat}
    (h : PacedAt .program same ⟨tokens, []⟩ ⟨tokens', []⟩ m k (Grammar.program depth)
      (Grammar.program depth')) :
    (∀ f, parse depth tokens = .error f →
      f = .outOfTokens ∧ NoEnd tokens ∨ f = .tooDeep ∧ k ≤ 2 * tokens.length + 3) ∧
      ((parse depth tokens = .error .tooDeep → same) →
        parse depth' tokens' = parse depth tokens) := by
  unfold PacedAt at h
  unfold parse
  cases hprogram : Grammar.program depth ⟨tokens, []⟩ with
  | ok program s =>
    rw [hprogram] at h
    obtain ⟨s', read, found, hprogram', htogether, _⟩ := h
    refine ⟨nofun, fun _ => ?_⟩
    rw [hprogram']
    dsimp only
    rw [htogether.first.errors_eq, htogether.second.errors_eq]
  | error i s =>
    rw [hprogram] at h
    cases i with
    | syntaxError => exact absurd hprogram (Grammar.persists_program depth _ _)
    | fault f =>
      refine ⟨fun f' hf => ?_, fun hsame => ?_⟩
      · obtain rfl : f = f' := Except.error.inj hf
        exact h.1
      · obtain ⟨s', _, _, hprogram', _⟩ := h.2 fun hf => hsame (by cases hf; rfl)
        rw [hprogram']

/-- Parsing stops for nothing but the end of the tokens, if no end token is among them, and its
limit of nesting. -/
theorem fault_of_parse {f : Fault} (h : parse depth tokens = .error f) :
    f = .outOfTokens ∧ NoEnd tokens ∨ f = .tooDeep ∧ depth ≤ 2 * tokens.length + 3 :=
  (parse_of_pacedAt (Grammar.paced_program (Nat.le_refl depth) (fun _ : True => rfl)
    ⟨tokens, []⟩ ⟨tokens, []⟩ (.refl tokens))).1 f h

/-- A higher limit of nesting changes nothing but that parsing stops at it. -/
theorem parse_of_le (hdepth : depth ≤ depth') (h : parse depth tokens ≠ .error .tooDeep) :
    parse depth' tokens = parse depth tokens :=
  (parse_of_pacedAt (Grammar.paced_program hdepth False.elim ⟨tokens, []⟩ ⟨tokens, []⟩
    (.refl tokens))).2 fun hdeep => h hdeep

/-- Tokens behind the first end token do not matter. -/
theorem parse_of_same (h : SameToEnd tokens tokens') : parse depth tokens' = parse depth tokens :=
  (parse_of_pacedAt (Grammar.paced_program (Nat.le_refl depth) (fun _ : True => rfl)
    ⟨tokens, []⟩ ⟨tokens', []⟩ h)).2 fun _ => trivial

end

/-- **Reading ends for every list of tokens, whatever their kinds.**

Each token list has one outcome: parsing comes to it unless the limit of nesting stops it, and it
does not if the limit is more than twice the number of tokens and three.  If there is an end token
the outcome is a program with the errors found, and otherwise that the tokens have run out.

What comes behind the first end token does not matter.  A declaration before any other token reads
at least one token, also when it fails.  And no loop of the grammar is ever stopped by the count of
its turns. -/
theorem parse_ends :
    (∀ tokens, ∃ outcome,
      (∀ depth, parse depth tokens = .error .tooDeep ∨ parse depth tokens = outcome) ∧
      (∀ depth, 2 * tokens.length + 3 < depth → parse depth tokens = outcome) ∧
      (HasEnd tokens → ∃ parsed, outcome = .ok parsed) ∧
      (NoEnd tokens → outcome = .error .outOfTokens)) ∧
    (∀ depth before last after after', last.kind = .eof →
      parse depth (before ++ last :: after) = parse depth (before ++ last :: after')) ∧
    (∀ depth t rest errors, t.kind ≠ .eof →
      (∃ declared s, Grammar.declaration depth ⟨t :: rest, errors⟩ = .ok declared s ∧
        s.rest <:+ rest) ∨
      (∃ s, Grammar.declaration depth ⟨t :: rest, errors⟩ = .error (.fault .outOfTokens) s ∧
        NoEnd (t :: rest)) ∨
      ∃ s, Grammar.declaration depth ⟨t :: rest, errors⟩ = .error (.fault .tooDeep) s ∧
        depth ≤ 2 * (t :: rest).length + 3) ∧
    ∀ depth, Grammar.LoopsUnlimited depth := by
  refine ⟨fun tokens => ?_, fun depth before last after after' hlast => ?_,
    fun depth _ rest errors => Grammar.declaration_advances depth rest errors,
    Grammar.loopsUnlimited⟩
  -- the outcome is that of the least limit that the tokens cannot reach
  · have henough : parse (2 * tokens.length + 4) tokens ≠ .error .tooDeep := by
      intro h
      rcases fault_of_parse h with ⟨hf, _⟩ | ⟨_, hdepth⟩
      · cases hf
      · omega
    refine ⟨parse (2 * tokens.length + 4) tokens, fun depth => ?_,
      fun depth hdepth => parse_of_le hdepth henough, fun hend => ?_, fun hend => ?_⟩
    · by_cases hdeep : parse depth tokens = .error .tooDeep
      · exact .inl hdeep
      · refine .inr ?_
        rcases Nat.le_total depth (2 * tokens.length + 4) with hle | hle
        · exact (parse_of_le hle hdeep).symm
        · exact parse_of_le hle henough
    · cases hparse : parse (2 * tokens.length + 4) tokens with
      | ok parsed => exact ⟨parsed, rfl⟩
      | error f =>
        obtain ⟨t, ht, hkind⟩ := hend
        rcases fault_of_parse hparse with ⟨_, hnone⟩ | ⟨rfl, _⟩
        · exact absurd hkind (hnone t ht)
        · exact absurd hparse henough
    · cases hparse : parse (2 * tokens.length + 4) tokens with
      | ok parsed =>
        obtain ⟨t, ht, hkind⟩ := hasEnd_of_parse hparse
        exact absurd hkind (hend t ht)
      | error f =>
        rcases fault_of_parse hparse with ⟨rfl, _⟩ | ⟨rfl, _⟩
        · rfl
        · exact absurd hparse henough
  · exact parse_of_same ((SameToEnd.stop hlast after' after).append before)

/-- The tokens of `) print ;`: neither of the two declarations begins as one can. -/
def strayParenthesis : List Token :=
  [⟨.rightParen, ")", .nil, 1⟩, ⟨.printWord, "print", .nil, 1⟩, ⟨.semicolon, ";", .nil, 1⟩,
    ⟨.eof, "", .nil, 1⟩]

/-- With their end token these tokens form a program, and without it they run out. -/
theorem parse_ends_strayParenthesis :
    (HasEnd strayParenthesis ∧ ∃ parsed, parse 12 strayParenthesis = .ok parsed) ∧
      NoEnd (strayParenthesis.take 3) ∧
        parse 10 (strayParenthesis.take 3) = .error .outOfTokens := by
  have hend : HasEnd strayParenthesis := ⟨⟨.eof, "", .nil, 1⟩, by simp [strayParenthesis], rfl⟩
  have hnone : NoEnd (strayParenthesis.take 3) := by simp [NoEnd, strayParenthesis]
  obtain ⟨outcome, _, henough, hok, _⟩ := parse_ends.1 strayParenthesis
  obtain ⟨outcome', _, henough', _, hout⟩ := parse_ends.1 (strayParenthesis.take 3)
  refine ⟨⟨hend, ?_⟩, hnone, ?_⟩
  · obtain ⟨parsed, hparsed⟩ := hok hend
    exact ⟨parsed, (henough 12 (by decide)).trans hparsed⟩
  · exact (henough' 10 (by decide)).trans (hout hnone)

end LoxLang
