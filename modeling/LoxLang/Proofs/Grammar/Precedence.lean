import LoxLang.Proofs.Grammar.Soundness
import LoxLang.Proofs.Grammar.Takes

/-! # Precedence

What the readers of expressions take where the tokens to come are known.  Two things make them
come out at the derivation.  A phrase begins with a token that no other choice begins with
(`Derives.begins`).  And the kinds that carry on an expression of a level are those of its own
operators and of the tighter ones (`Level.continuing`): an operator of a level ends all operands
of the tighter levels, and what stands behind a whole expression ends it on each level.

A left operand may be of the level of its operator, so the reader of a level is followed to where
it has an expression in hand (`ArrivesAt`); that expression is its result if a token follows that
ends the level, and the left operand if an operator of the level does. -/

namespace LoxLang
namespace Grammar

open Reader

/-! ## Where phrases begin -/

/-- The kinds with which an operand without a sign begins. -/
def beginsOperand : Kind → Bool
  | .falseWord | .trueWord | .nilWord | .number | .text | .superWord | .thisWord | .identifier
  | .leftParen => true
  | _ => false

/-- The kinds with which an expression of a level begins. -/
def Level.begins : Level → Kind → Bool
  | .call | .primary => beginsOperand
  | _ => fun k => beginsOperand k || isSign k

/-- The kinds with which a statement begins. -/
def beginsStatement : Kind → Bool
  | .forWord | .ifWord | .printWord | .returnWord | .whileWord | .leftBrace => true
  | k => Level.assignment.begins k

/-- The kinds with which a declaration begins. -/
def beginsDeclaration : Kind → Bool
  | .classWord | .funWord | .varWord => true
  | k => beginsStatement k

/-- The kinds with which a phrase begins. -/
def Phrase.begins : Phrase → Kind → Bool
  | .expression level _ => level.begins
  | .optional _ | .arguments _ => Level.assignment.begins
  | .parameters _ | .function _ | .methods _ => (· = .identifier)
  | .initial _ => fun k => k = .semicolon || k = .varWord || Level.assignment.begins k
  | .statement _ _ => beginsStatement
  | .variable _ => (· = .varWord)
  | .declaration _ | .declarations _ => beginsDeclaration

/-- Whether a phrase is one without tokens. -/
def Phrase.isEmpty : Phrase → Bool
  | .optional none | .arguments [] | .parameters [] | .methods [] | .declarations [] => true
  | _ => false

/-- Whether the tokens begin as the phrase does. -/
def Phrase.Begins (p : Phrase) : List Token → Prop
  | [] => p.isEmpty = true
  | t :: _ => p.begins t.kind = true

theorem Level.begins_of_operand {k : Kind} (h : beginsOperand k = true) (level : Level) :
    level.begins k = true := by
  cases level <;> simp [begins, h]

theorem Level.begins_of_tighter {level : Level} {k : Kind} (h : level.tighter.begins k = true) :
    level.begins k = true := by
  cases level <;> simp_all [begins, tighter]

theorem begins_assignment {l : Level} {k : Kind} (h : l.begins k = true) :
    Level.assignment.begins k = true := by
  cases l <;> simp_all [Level.begins]

theorem beginsStatement_of_expression {k : Kind} (h : Level.assignment.begins k = true) :
    beginsStatement k = true := by
  unfold beginsStatement
  split <;> first | rfl | exact h

theorem beginsDeclaration_of_statement {k : Kind} (h : beginsStatement k = true) :
    beginsDeclaration k = true := by
  unfold beginsDeclaration
  split <;> first | rfl | exact h

/-- What begins as a phrase that has tokens still does with others behind it. -/
theorem Phrase.Begins.append {p q : Phrase} {u : List Token} (h : p.Begins u)
    (hp : p.isEmpty = false) (hq : ∀ k, p.begins k = true → q.begins k = true)
    (v : List Token) : q.Begins (u ++ v) := by
  cases u with
  | nil => exact absurd (hp.symm.trans h) Bool.false_ne_true
  | cons t u => exact hq _ h

theorem Phrase.Begins.exists_cons {p : Phrase} {u : List Token} (h : p.Begins u)
    (hp : p.isEmpty = false) : ∃ t v, u = t :: v ∧ p.begins t.kind = true := by
  cases u with
  | nil => exact absurd (hp.symm.trans h) Bool.false_ne_true
  | cons t u => exact ⟨t, u, rfl, h⟩

/-- A phrase begins with one of its kinds. -/
theorem Derives.begins {p : Phrase} {u : List Token} (h : Derives p u) : p.Begins u := by
  induction h with
  | absent | noArguments | noParameters | noMethods | noDeclarations => rfl
  | falseLiteral ht | trueLiteral ht | nilLiteral ht | superMethod ht | this ht | name ht
  | group ht => exact Level.begins_of_operand (by rw [ht]; rfl) .primary
  | assign ht => exact Level.begins_of_operand (by rw [ht]; rfl) .assignment
  | literal ht =>
    refine Level.begins_of_operand ?_ .primary
    rcases ht with ht | ht <;> rw [ht] <;> rfl
  | unary hop =>
    simp only [signs, List.mem_cons, List.not_mem_nil, or_false] at hop
    simp [Phrase.Begins, Phrase.begins, Level.begins, isSign, hop]
  | call _ _ _ _ _ ih =>
    rw [List.append_assoc]
    exact ih.append rfl (fun _ h => h) _
  | get _ _ _ ih | binary _ _ _ ih => exact ih.append rfl (fun _ h => h) _
  | set _ _ _ _ _ ih =>
    exact ih.append (q := .expression .assignment _) rfl
      (fun _ h => begins_assignment (l := .call) h) _
  | tighter _ ih =>
    obtain ⟨t, v, rfl, ht⟩ := ih.exists_cons rfl
    exact Level.begins_of_tighter ht
  | present _ ih | lastArgument _ ih =>
    obtain ⟨t, v, rfl, ht⟩ := ih.exists_cons rfl
    exact ht
  | argument _ _ _ ih => exact ih.append rfl (fun _ h => h) _
  | lastParameter h | parameter h | function h =>
    show decide _ = true
    exact decide_eq_true h
  | method _ _ ih => exact ih.append rfl (fun _ h => h) _
  | noInitial h =>
    show (decide _ || decide _ || _) = true
    simp [h]
  | initialVariable _ ih =>
    obtain ⟨t, v, rfl, ht⟩ := ih.exists_cons rfl
    show (decide _ || decide _ || _) = true
    simp [of_decide_eq_true ht]
  | initialExpression _ _ ih =>
    refine ih.append rfl (fun k hk => ?_) _
    show (decide _ || decide _ || _) = true
    rw [show Level.assignment.begins k = true from hk, Bool.or_true]
  | expressionStatement _ _ ih =>
    exact ih.append (q := .statement false _) rfl (fun _ h => beginsStatement_of_expression h) _
  | print h | returnFrom h | block h | whileLoop h | forLoop h | ifThen h | ifElse h =>
    show beginsStatement _ = true
    rw [h]
    rfl
  | var h | varInitial h =>
    show decide _ = true
    exact decide_eq_true h
  | «variable» _ ih =>
    obtain ⟨t, v, rfl, ht⟩ := ih.exists_cons rfl
    show beginsDeclaration _ = true
    rw [of_decide_eq_true ht]
    rfl
  | functionDeclaration h | classOf h | subclassOf h =>
    show beginsDeclaration _ = true
    rw [h]
    rfl
  | statement _ ih =>
    obtain ⟨t, v, rfl, ht⟩ := ih.exists_cons rfl
    exact beginsDeclaration_of_statement ht
  | declaration _ _ ih => exact ih.append rfl (fun _ h => h) _

/-! ## Where expressions end -/

/-- The kinds that carry on an expression of a level. -/
def Level.continuing : Level → List Kind
  | .primary => []
  | .call | .unary => [.leftParen, .dot]
  | .factor => [.slash, .star, .leftParen, .dot]
  | .term => [.minus, .plus, .slash, .star, .leftParen, .dot]
  | .comparison =>
    [.greater, .greaterEqual, .less, .lessEqual, .minus, .plus, .slash, .star, .leftParen, .dot]
  | .equality =>
    [.bangEqual, .equalEqual, .greater, .greaterEqual, .less, .lessEqual, .minus, .plus, .slash,
      .star, .leftParen, .dot]
  | .conjunction =>
    [.andWord, .bangEqual, .equalEqual, .greater, .greaterEqual, .less, .lessEqual, .minus, .plus,
      .slash, .star, .leftParen, .dot]
  | .disjunction =>
    [.orWord, .andWord, .bangEqual, .equalEqual, .greater, .greaterEqual, .less, .lessEqual,
      .minus, .plus, .slash, .star, .leftParen, .dot]
  | .assignment =>
    [.equal, .orWord, .andWord, .bangEqual, .equalEqual, .greater, .greaterEqual, .less,
      .lessEqual, .minus, .plus, .slash, .star, .leftParen, .dot]

namespace Level

/-- A token of the kind ends an expression of the level. -/
abbrev Ends (level : Level) (k : Kind) : Prop := k ∉ level.continuing

theorem Ends.tighter {level : Level} {k : Kind} (h : level.Ends k) : level.tighter.Ends k := by
  cases level <;> simp_all [Ends, Level.tighter, continuing]

theorem Ends.not_mem_operators {level : Level} {k : Kind} (h : level.Ends k) :
    k ∉ level.operators := by
  cases level <;> simp_all [Ends, operators, continuing]

/-- An operator of a level ends its operands. -/
theorem ends_of_mem_operators {level : Level} {k : Kind} (h : k ∈ level.operators) :
    level.tighter.Ends k := by
  cases level <;> simp only [operators, List.mem_cons, List.not_mem_nil, or_false] at h <;>
    rcases h with rfl | rfl | rfl | rfl <;> decide

/-- Whether a kind is an operator of the level, as the readers ask for it. -/
def isOperator : Level → Kind → Bool
  | disjunction => (· = .orWord)
  | conjunction => (· = .andWord)
  | equality => isEqualityOp
  | comparison => isComparisonOp
  | term => isTermOp
  | factor => isFactorOp
  | assignment | unary | call | primary => fun _ => false

theorem isOperator_eq (level : Level) (k : Kind) :
    level.isOperator k = decide (k ∈ level.operators) := by
  cases level <;>
    simp [isOperator, operators, isEqualityOp, isComparisonOp, isTermOp, isFactorOp]

end Level

/-! ## Readers of the levels -/

namespace Level

/-- The reader of the expressions of a level, where they may nest `depth` deep. -/
def reader (depth : Nat) : Level → Reader (Expr Unit)
  | assignment => expression (depth + 2)
  | disjunction => Grammar.disjunction (Grammar.unary (depth + 1))
  | conjunction => Grammar.conjunction (Grammar.unary (depth + 1))
  | equality => Grammar.equality (Grammar.unary (depth + 1))
  | comparison => Grammar.comparison (Grammar.unary (depth + 1))
  | term => Grammar.term (Grammar.unary (depth + 1))
  | factor => Grammar.factor (Grammar.unary (depth + 1))
  | unary => Grammar.unary (depth + 1)
  | call => Grammar.call (expression depth)
  | primary => Grammar.primary (expression depth)

/-- What the reader of a level goes on with when it has an expression in hand. -/
def more (depth : Nat) (level : Level) : List Token → Expr Unit → Reader (Expr Unit) :=
  match level with
  | assignment | unary | primary => fun _ e => pure e
  | call => callChain (expression depth)
  | level => leftChain.more level.isOperator level.combine (level.tighter.reader depth)

/-- The kinds before which the reader of a level has an expression in hand. -/
def Stands (level : Level) (k : Kind) : Prop :=
  match level with
  | assignment => assignment.Ends k
  | call | primary => True
  | level => level.tighter.Ends k

end Level

/-- The reader of a level comes to the end of the tokens with the expression in hand. -/
def ArrivesAt (depth : Nat) (level : Level) (u : List Token) (e : Expr Unit) : Prop :=
  Arrives level.Stands (level.reader depth) (level.more depth) u e

/-- The reader of a level takes the tokens as the expression. -/
abbrev TakesAt (depth : Nat) (level : Level) (u : List Token) (e : Expr Unit) : Prop :=
  Takes level.Ends (level.reader depth) u e

variable {depth : Nat} {inner operand value argument : Reader (Expr Unit)} {u v : List Token}
  {e : Expr Unit}

/-! ### Operands -/

section
variable {t : Token}

/-- An operand of one token. -/
theorem takes_word
    (h : ∀ rest errors, primary inner ⟨t :: rest, errors⟩ = .ok e ⟨rest, errors⟩) :
    Takes (fun _ => True) (primary inner) [t] e :=
  fun t' rest errors _ => h (t' :: rest) errors

theorem takes_literal (ht : t.kind = .number ∨ t.kind = .text) :
    Takes (fun _ => True) (primary inner) [t] (.literal t.literal) := by
  refine takes_word fun rest errors => ?_
  rw [primary, peek_bind_cons]
  rcases ht with ht | ht
  · rw [ht]
    rfl
  · rw [ht]
    rfl

theorem takes_name (ht : t.kind = .identifier) :
    Takes (fun _ => True) (primary inner) [t] (.nameRef ⟨(), t⟩) :=
  takes_word fun rest errors => by rw [primary, peek_bind_cons, ht]; rfl

theorem takes_superMethod {dot name : Token} (ht : t.kind = .superWord) (hdot : dot.kind = .dot)
    (hname : name.kind = .identifier) :
    Takes (fun _ => True) (primary inner) [t, dot, name] (.superRef ⟨(), t⟩ name) := by
  intro t' rest errors _
  rw [primary]
  simp only [List.cons_append, List.nil_append, peek_bind_cons, ht, skip_bind_cons]
  rw [EStateM.bind_ok (expect_of_eq hdot _ _ _), EStateM.bind_ok (expect_of_eq hname _ _ _)]
  rfl

theorem takes_group {l r : Token} (hl : l.kind = .leftParen)
    (he : Takes Level.assignment.Ends inner u e) (hr : r.kind = .rightParen) :
    Takes (fun _ => True) (primary inner) (l :: u ++ [r]) (.group e) := by
  intro t rest errors _
  have hend : Level.assignment.Ends r.kind := by rw [hr]; decide
  rw [primary]
  simp only [List.cons_append, List.append_assoc, List.nil_append, peek_bind_cons, hl,
    skip_bind_cons]
  rw [EStateM.bind_ok (he r _ _ hend), EStateM.bind_ok (expect_of_eq hr _ _ _)]
  rfl

end

/-! ### Calls -/

/-- A call chain begins with an operand. -/
theorem arrives_call (h : Takes (fun _ => True) (primary inner) u e) :
    Arrives (fun _ => True) (call inner) (callChain inner) u e := by
  intro t rest errors ht
  refine ⟨u ++ t :: rest, by simp, ?_⟩
  show (primary inner >>= fun e => callChain inner _ e) _ = _
  rw [EStateM.bind_ok (h t rest errors ht)]

/-- A call chain goes on with the arguments of a call. -/
theorem arrives_call_call {l r : Token} {es : List (Expr Unit)}
    (h : Arrives (fun _ => True) (call inner) (callChain inner) u e) (hl : l.kind = .leftParen)
    (hes : Takes (· = .rightParen) (arguments inner) v es) (hr : r.kind = .rightParen) :
    Arrives (fun _ => True) (call inner) (callChain inner) (u ++ l :: v ++ [r])
      (.call e r es) := by
  intro t rest errors ht
  obtain ⟨turns, hlen, heq⟩ := h l (v ++ r :: t :: rest) errors trivial
  cases turns with
  | nil => simp at hlen
  | cons turn turns =>
    refine ⟨turns, by simp at hlen ⊢; omega, ?_⟩
    simp only [List.append_assoc, List.cons_append, List.nil_append]
    rw [heq, callChain, EStateM.bind_ok (skipped_of_eq hl _ _), if_pos rfl,
      EStateM.bind_ok (hes r _ _ hr), EStateM.bind_ok (expect_of_eq hr _ _ _)]

/-- A call chain goes on with a point and the name of a property. -/
theorem arrives_call_get {dot name : Token}
    (h : Arrives (fun _ => True) (call inner) (callChain inner) u e) (hdot : dot.kind = .dot)
    (hname : name.kind = .identifier) :
    Arrives (fun _ => True) (call inner) (callChain inner) (u ++ [dot, name]) (.get e name) := by
  intro t rest errors ht
  obtain ⟨turns, hlen, heq⟩ := h dot (name :: t :: rest) errors trivial
  have hparen : dot.kind ≠ .leftParen := by simp [hdot]
  cases turns with
  | nil => simp at hlen
  | cons turn turns =>
    refine ⟨turns, by simp at hlen ⊢; omega, ?_⟩
    simp only [List.append_assoc, List.cons_append, List.nil_append]
    rw [heq, callChain, EStateM.bind_ok (skipped_of_ne hparen _ _),
      if_neg Bool.false_ne_true, EStateM.bind_ok (skipped_of_eq hdot _ _), if_pos rfl,
      EStateM.bind_ok (expect_of_eq hname _ _ _)]

/-- A call chain is over where neither arguments nor a property follow. -/
theorem takes_call (h : Arrives (fun _ => True) (call inner) (callChain inner) u e) :
    Takes Level.call.Ends (call inner) u e := by
  intro t rest errors ht
  obtain ⟨turns, hlen, heq⟩ := h t rest errors trivial
  have hparen : t.kind ≠ .leftParen := fun hk => ht (by rw [hk]; decide)
  have hdot : t.kind ≠ .dot := fun hk => ht (by rw [hk]; decide)
  cases turns with
  | nil => simp at hlen
  | cons turn turns =>
    rw [heq, callChain, EStateM.bind_ok (skipped_of_ne hparen _ _),
      if_neg Bool.false_ne_true, EStateM.bind_ok (skipped_of_ne hdot _ _),
      if_neg Bool.false_ne_true]
    rfl

theorem takes_noArguments : Takes (· = .rightParen) (arguments argument) [] [] := by
  intro t rest errors ht
  rw [arguments, List.nil_append, EStateM.bind_ok (sees_cons _ t rest errors), ht]
  rfl

theorem takes_arguments {es : List (Expr Unit)}
    (hes : Separates .tooManyArguments argument u es) (hcount : es.length ≤ itemLimit)
    (hbegin : ∃ t v, u = t :: v ∧ t.kind ≠ .rightParen) :
    Takes (· = .rightParen) (arguments argument) u es := by
  intro t rest errors ht
  obtain ⟨t₀, v, rfl, hne⟩ := hbegin
  rw [arguments, List.cons_append, EStateM.bind_ok (sees_cons _ t₀ _ errors),
    if_neg (by simpa using hne), ← List.cons_append, hes.takes hcount t rest errors ht]

/-! ### Signs -/

/-- A sign before an operand with or without a sign. -/
theorem takes_unary {op : Token} (hop : op.kind ∈ signs)
    (he : Takes Level.unary.Ends (unary depth) u e) :
    Takes Level.unary.Ends (unary (depth + 1)) (op :: u) (.unary op e) := by
  intro t rest errors ht
  have hsign : isSign op.kind = true := by
    simp only [signs, List.mem_cons, List.not_mem_nil, or_false] at hop
    simp [isSign, hop]
  rw [unary, List.cons_append, EStateM.bind_ok (accept?_of_wanted hsign)]
  simp only
  rw [EStateM.bind_ok (he t rest errors ht)]
  rfl

/-- An operand without a sign. -/
theorem takes_unary_of_call (hbegin : ∃ t v, u = t :: v ∧ isSign t.kind = false)
    (he : Takes Level.call.Ends (call (expression depth)) u e) :
    Takes Level.unary.Ends (unary (depth + 1)) u e := by
  intro t rest errors ht
  obtain ⟨t₀, v, rfl, hsign⟩ := hbegin
  rw [unary, List.cons_append, EStateM.bind_ok (accept?_of_unwanted hsign), ← List.cons_append]
  exact he t rest errors ht

/-! ### Assignments -/

/-- An expression that nothing is assigned to. -/
theorem takes_assignment_of_disjunction (he : Takes Level.disjunction.Ends (disjunction operand) u e) :
    Takes Level.assignment.Ends (assignment operand value) u e := by
  intro t rest errors ht
  have hequal : t.kind ≠ .equal := fun hk => ht (by rw [hk]; decide)
  rw [assignment, EStateM.bind_ok (he t rest errors ht.tighter),
    EStateM.bind_ok (accept?_of_unwanted (decide_eq_false hequal))]
  rfl

section
variable {equals : Token} {e' : Expr Unit} (hequals : equals.kind = .equal)
  (hvalue : Takes Level.assignment.Ends value v e')

include hequals hvalue

theorem takes_assign {ref : Ref Unit}
    (htarget : Takes Level.disjunction.Ends (disjunction operand) u (.nameRef ref)) :
    Takes Level.assignment.Ends (assignment operand value) (u ++ equals :: v)
      (.assign ref e') := by
  intro t rest errors ht
  have hend : Level.disjunction.Ends equals.kind := by rw [hequals]; decide
  rw [assignment, List.append_assoc, List.cons_append,
    EStateM.bind_ok (htarget equals _ errors hend),
    EStateM.bind_ok (accept?_of_wanted (decide_eq_true hequals))]
  simp only
  rw [EStateM.bind_ok (hvalue t rest errors ht)]
  rfl

theorem takes_set {object : Expr Unit} {name : Token}
    (htarget : Takes Level.disjunction.Ends (disjunction operand) u (.get object name)) :
    Takes Level.assignment.Ends (assignment operand value) (u ++ equals :: v)
      (.set object name e') := by
  intro t rest errors ht
  have hend : Level.disjunction.Ends equals.kind := by rw [hequals]; decide
  rw [assignment, List.append_assoc, List.cons_append,
    EStateM.bind_ok (htarget equals _ errors hend),
    EStateM.bind_ok (accept?_of_wanted (decide_eq_true hequals))]
  simp only
  rw [EStateM.bind_ok (hvalue t rest errors ht)]
  rfl

end

/-! ### From level to level -/

/-- An expression in hand is the result where a token follows that ends the level. -/
theorem ArrivesAt.takes {level : Level} (h : ArrivesAt depth level u e) :
    TakesAt depth level u e := by
  have chain : ∀ k, level.Ends k → level.isOperator k = false := fun k hk => by
    rw [Level.isOperator_eq]
    exact decide_eq_false hk.not_mem_operators
  cases level with
  | assignment => exact Arrives.takes h
  | unary => exact (Arrives.takes h).mono fun k hk => hk.tighter
  | call => exact takes_call h
  | primary => exact (Arrives.takes h).mono fun _ _ => trivial
  | _ => exact Arrives.stop h (fun k hk => hk.tighter) chain

/-- An expression of a tighter level stands on a looser one.  Before an operand without a sign the
reader of signs has to see that there is none. -/
theorem TakesAt.loosen {level : Level} (h : TakesAt depth level.tighter u e)
    (hbegin : ∃ t v, u = t :: v ∧ (level = .unary → isSign t.kind = false)) :
    ArrivesAt depth level u e := by
  cases level with
  | assignment => exact (takes_assignment_of_disjunction h).arrives
  | unary =>
    obtain ⟨t, v, rfl, hsign⟩ := hbegin
    exact (takes_unary_of_call ⟨t, v, rfl, hsign rfl⟩ h).arrives
  | call => exact arrives_call (h.mono fun _ _ => List.not_mem_nil)
  | primary => exact h.arrives.mono fun _ _ => List.not_mem_nil
  | _ => exact h.leftChain

/-- A call chain is the target of an assignment where an equals sign follows. -/
theorem ArrivesAt.target (h : ArrivesAt depth .call u e)
    (hbegin : ∃ t v, u = t :: v ∧ isSign t.kind = false) :
    TakesAt depth .disjunction u e := by
  have up : ∀ level : Level, TakesAt depth level.tighter u e → TakesAt depth level u e := by
    obtain ⟨t, v, rfl, hsign⟩ := hbegin
    exact fun level h => (h.loosen ⟨t, v, rfl, fun _ => hsign⟩).takes
  exact up .disjunction <| up .conjunction <| up .equality <| up .comparison <| up .term <|
    up .factor <| up .unary h.takes

end Grammar
end LoxLang
