import LoxLang.Proofs.Grammar.Precedence

/-! # What derives is read

The converse of soundness: a token list that derives a program parses without errors, and yields
just that program (`parse_of_derives`).  So the grammar is unambiguous, and the readers look far
enough: wherever a loop of theirs ends, the token that follows tells it so, and an `if` that has no
`else` is not followed by one.

What nests needs tokens, so the limit of nesting is stated in the number of tokens. -/

namespace LoxLang
namespace Grammar

open Reader

variable {depth : Nat} {e : Expr Unit} {s : Stmt Unit} {u v x : List Token}

/-- The reader takes the tokens whatever follows. -/
abbrev TakesWhole {α : Type} (r : Reader α) (u : List Token) (a : α) : Prop :=
  Takes (fun _ => True) r u a

/-- The reader takes the tokens as an expression wherever one may end. -/
abbrev TakesExpr (r : Reader (Expr Unit)) (u : List Token) (e : Expr Unit) : Prop :=
  Takes Level.assignment.Ends r u e

/-- The reader takes the tokens as a statement, behind which there is no `else` if it ends with an
`if` that has none. -/
abbrev TakesStmt (r : Reader (Stmt Unit)) (dangling : Bool) (u : List Token) (s : Stmt Unit) :
    Prop :=
  Takes (fun k => dangling = true → k ≠ .elseWord) r u s

section
variable {expression : Reader (Expr Unit)} {statement : Reader (Stmt Unit)}
  {declaration : Reader (Option (Stmt Unit))}

theorem TakesExpr.run (h : TakesExpr expression u e) {t : Token} {k : Kind} (ht : t.kind = k)
    (hk : Level.assignment.Ends k) (rest : List Token) (errors : List SyntaxError) :
    expression ⟨u ++ t :: rest, errors⟩ = .ok e ⟨t :: rest, errors⟩ :=
  h t rest errors (ht ▸ hk)

/-! ## Parts of statements -/

theorem takes_unlessSees_none {stop : Kind} :
    Takes (· = stop) (unlessSees stop expression) [] none := by
  intro t rest errors ht
  rw [unlessSees, List.nil_append, EStateM.bind_ok (sees_cons _ t rest errors),
    if_pos (decide_eq_true ht)]
  rfl

theorem takes_unlessSees_some {stop : Kind} {t : Token}
    (he : TakesExpr expression (t :: u) e) (hstop : Level.assignment.Ends stop)
    (hbegin : t.kind ≠ stop) : Takes (· = stop) (unlessSees stop expression) (t :: u) (some e) := by
  intro t' rest errors ht'
  rw [unlessSees, List.cons_append, EStateM.bind_ok (sees_cons _ t _ errors),
    if_neg (by simpa using hbegin), ← List.cons_append]
  exact he.map some t' rest errors (ht' ▸ hstop)

/-- Whether a block stops before a token. -/
def endsBlock (k : Kind) : Bool := decide (k = .rightBrace) || decide (k = .eof)

theorem sees_endsBlock (t : Token) (rest : List Token) (errors : List SyntaxError) :
    (do return (← sees .rightBrace) || (← sees .eof) : Reader Bool) ⟨t :: rest, errors⟩ =
      .ok (endsBlock t.kind) ⟨t :: rest, errors⟩ := rfl

theorem takes_block {r : Token} {body : List (Stmt Unit)} (hr : r.kind = .rightBrace)
    (hbody : Collects (do return (← sees .rightBrace) || (← sees .eof)) endsBlock declaration u
      body) : TakesWhole (block declaration) (u ++ [r]) body := by
  intro t rest errors _
  have hend : endsBlock r.kind = true := by rw [hr]; rfl
  rw [block, List.append_assoc, List.singleton_append,
    EStateM.bind_ok (hbody.takes r _ errors hend), EStateM.bind_ok (expect_of_eq hr _ _ _)]
  rfl

theorem takes_noParameters : Takes (· = .rightParen) parameters [] [] := by
  intro t rest errors ht
  rw [parameters, List.nil_append, EStateM.bind_ok (sees_cons _ t rest errors),
    if_pos (decide_eq_true ht)]
  rfl

theorem takes_parameters {t : Token} {names : List Token} (ht : t.kind = .identifier)
    (hnames : Separates .tooManyParameters (expect .identifier .parameterName) (t :: u) names)
    (hcount : names.length ≤ itemLimit) : Takes (· = .rightParen) parameters (t :: u) names := by
  intro t' rest errors ht'
  rw [parameters, List.cons_append, EStateM.bind_ok (sees_cons _ t _ errors),
    if_neg (by simp [ht]), ← List.cons_append, hnames.takes hcount t' rest errors ht']

theorem takes_function (kind : CallableKind) {name l r lb rb : Token} {params : List Token}
    {body : List (Stmt Unit)} (hname : name.kind = .identifier) (hl : l.kind = .leftParen)
    (hparams : Takes (· = .rightParen) parameters u params) (hr : r.kind = .rightParen)
    (hlb : lb.kind = .leftBrace) (hbody : TakesWhole (block declaration) (v ++ [rb]) body) :
    TakesWhole (function kind declaration) (name :: l :: u ++ r :: lb :: v ++ [rb])
      ⟨name, params, body⟩ := by
  intro t rest errors _
  have hblock := hbody t rest errors trivial
  simp only [List.append_assoc, List.cons_append, List.nil_append] at hblock ⊢
  rw [function, EStateM.bind_ok (expect_of_eq hname _ _ _),
    EStateM.bind_ok (expect_of_eq hl _ _ _), EStateM.bind_ok (hparams r _ errors hr),
    EStateM.bind_ok (expect_of_eq hr _ _ _), EStateM.bind_ok (expect_of_eq hlb _ _ _),
    EStateM.bind_ok hblock]
  rfl

/-- A class behind its first word, given what its superclass is. -/
theorem takes_classOf {name lb rb : Token} {parent : Option (Ref Unit)} {w : List Token}
    {methods : List (Function Unit)} (hname : name.kind = .identifier)
    (hparent : Takes (· = .leftBrace) superclass w parent) (hlb : lb.kind = .leftBrace)
    (hmethods : Collects (do return (← sees .rightBrace) || (← sees .eof)) endsBlock
      (some <$> function .method declaration) u methods) (hrb : rb.kind = .rightBrace) :
    TakesWhole (classOf declaration) (name :: w ++ lb :: u ++ [rb])
      (.classOf name parent methods) := by
  intro t rest errors _
  have hend : endsBlock rb.kind = true := by rw [hrb]; rfl
  simp only [List.append_assoc, List.cons_append, List.nil_append]
  rw [classOf, EStateM.bind_ok (expect_of_eq hname _ _ _),
    EStateM.bind_ok (hparent lb _ errors hlb), EStateM.bind_ok (expect_of_eq hlb _ _ _),
    EStateM.bind_ok (hmethods.takes rb _ errors hend), EStateM.bind_ok (expect_of_eq hrb _ _ _)]
  rfl

theorem takes_superclass_none : Takes (· = .leftBrace) superclass [] none := by
  intro t rest errors ht
  have hless : t.kind ≠ .less := by simp [ht]
  rw [superclass, List.nil_append, EStateM.bind_ok (skipped_of_ne hless _ _),
    if_neg Bool.false_ne_true]
  rfl

theorem takes_superclass_some {less parent : Token} (hless : less.kind = .less)
    (hparent : parent.kind = .identifier) :
    Takes (· = .leftBrace) superclass [less, parent] (some ⟨(), parent⟩) := by
  intro t rest errors _
  rw [superclass, List.cons_append, EStateM.bind_ok (skipped_of_eq hless _ _), if_pos rfl,
    List.singleton_append, EStateM.bind_ok (expect_of_eq hparent _ _ _)]
  rfl

theorem takes_var_none {name semi : Token} (hname : name.kind = .identifier)
    (hsemi : semi.kind = .semicolon) :
    TakesWhole (var expression) [name, semi] (.var name none) := by
  intro t rest errors _
  have hequal : semi.kind ≠ .equal := by simp [hsemi]
  simp only [List.cons_append, List.nil_append]
  rw [var, EStateM.bind_ok (expect_of_eq hname _ _ _),
    EStateM.bind_ok (skipped_of_ne hequal _ _), if_neg Bool.false_ne_true, pure_bind]
  dsimp only
  rw [EStateM.bind_ok (expect_of_eq hsemi _ _ _)]
  rfl

theorem takes_var_some {name equals semi : Token} (hname : name.kind = .identifier)
    (hequals : equals.kind = .equal) (he : TakesExpr expression u e)
    (hsemi : semi.kind = .semicolon) :
    TakesWhole (var expression) (name :: equals :: u ++ [semi]) (.var name (some e)) := by
  intro t rest errors _
  have hinitial := he.map some semi (t :: rest) errors (by rw [hsemi]; decide)
  simp only [List.append_assoc, List.cons_append, List.nil_append]
  rw [var, EStateM.bind_ok (expect_of_eq hname _ _ _),
    EStateM.bind_ok (skipped_of_eq hequals _ _), if_pos rfl, EStateM.bind_ok hinitial]
  dsimp only
  rw [EStateM.bind_ok (expect_of_eq hsemi _ _ _)]
  rfl

theorem takes_expressionStatement {semi : Token} (he : TakesExpr expression u e)
    (hsemi : semi.kind = .semicolon) :
    TakesWhole (expressionStatement expression) (u ++ [semi]) (.expression e) := by
  intro t rest errors _
  rw [List.append_assoc, List.singleton_append, expressionStatement,
    EStateM.bind_ok (he.run hsemi (by decide) _ _), EStateM.bind_ok (expect_of_eq hsemi _ _ _)]
  rfl

theorem takes_print {semi : Token} (he : TakesExpr expression u e)
    (hsemi : semi.kind = .semicolon) :
    TakesWhole (print expression) (u ++ [semi]) (.print e) := by
  intro t rest errors _
  rw [List.append_assoc, List.singleton_append, print,
    EStateM.bind_ok (he.run hsemi (by decide) _ _), EStateM.bind_ok (expect_of_eq hsemi _ _ _)]
  rfl

theorem takes_returnFrom {w semi : Token} {value : Option (Expr Unit)}
    (hvalue : Takes (· = .semicolon) (unlessSees .semicolon expression) u value)
    (hsemi : semi.kind = .semicolon) :
    TakesWhole (returnFrom w expression) (u ++ [semi]) (.returnFrom w value) := by
  intro t rest errors _
  rw [List.append_assoc, List.singleton_append, returnFrom,
    EStateM.bind_ok (hvalue semi _ errors hsemi), EStateM.bind_ok (expect_of_eq hsemi _ _ _)]
  rfl

/-! ## Statements with bodies -/

section
variable {l r : Token} {condition : Expr Unit} {body : Stmt Unit} {dangling : Bool}
  (hl : l.kind = .leftParen) (hcondition : TakesExpr expression u condition)
  (hr : r.kind = .rightParen)

include hl hcondition hr

theorem takes_whileLoop (hbody : TakesStmt statement dangling v body) :
    TakesStmt (whileLoop expression statement) dangling (l :: u ++ r :: v)
      (.whileLoop condition body) := by
  intro t rest errors ht
  simp only [List.append_assoc, List.cons_append]
  rw [whileLoop, EStateM.bind_ok (expect_of_eq hl _ _ _),
    EStateM.bind_ok (hcondition.run hr (by decide) _ _),
    EStateM.bind_ok (expect_of_eq hr _ _ _), EStateM.bind_ok (hbody t rest errors ht)]
  rfl

/-- An `if` without `else`, if none follows. -/
theorem takes_ifThen (hbody : TakesStmt statement dangling v body) :
    TakesStmt (conditional expression statement) true (l :: u ++ r :: v)
      (.ifThen condition body) := by
  intro t rest errors ht
  simp only [List.append_assoc, List.cons_append]
  rw [conditional, EStateM.bind_ok (expect_of_eq hl _ _ _),
    EStateM.bind_ok (hcondition.run hr (by decide) _ _),
    EStateM.bind_ok (expect_of_eq hr _ _ _),
    EStateM.bind_ok (hbody t rest errors fun _ => ht rfl),
    EStateM.bind_ok (skipped_of_ne (ht rfl) _ _), if_neg Bool.false_ne_true]
  rfl

theorem takes_ifElse {otherwise : Token} {other : Stmt Unit}
    (hbody : TakesStmt statement false v body) (hotherwise : otherwise.kind = .elseWord)
    (hother : TakesStmt statement dangling x other) :
    TakesStmt (conditional expression statement) dangling (l :: u ++ r :: v ++ otherwise :: x)
      (.ifElse condition body other) := by
  intro t rest errors ht
  simp only [List.append_assoc, List.cons_append]
  rw [conditional, EStateM.bind_ok (expect_of_eq hl _ _ _),
    EStateM.bind_ok (hcondition.run hr (by decide) _ _),
    EStateM.bind_ok (expect_of_eq hr _ _ _),
    EStateM.bind_ok (hbody otherwise _ errors fun h => absurd h Bool.false_ne_true),
    EStateM.bind_ok (skipped_of_eq hotherwise _ _), if_pos rfl,
    EStateM.bind_ok (hother t rest errors ht)]
  rfl

end

/-! ## Loops with clauses -/

theorem takes_forInitial_none {semi : Token} (hsemi : semi.kind = .semicolon) :
    TakesWhole (forInitial expression) [semi] none := by
  intro t rest errors _
  rw [forInitial, List.singleton_append, EStateM.bind_ok (skipped_of_eq hsemi _ _), if_pos rfl]
  rfl

theorem takes_forInitial_var {w : Token} (hw : w.kind = .varWord)
    (hs : TakesWhole (var expression) u s) :
    TakesWhole (forInitial expression) (w :: u) (some s) := by
  intro t rest errors _
  have hsemi : w.kind ≠ .semicolon := by simp [hw]
  rw [forInitial, List.cons_append, EStateM.bind_ok (skipped_of_ne hsemi _ _),
    if_neg Bool.false_ne_true, EStateM.bind_ok (skipped_of_eq hw _ _), if_pos rfl,
    hs.map some t rest errors trivial]

theorem takes_forInitial_expression {t : Token} (hsemi : t.kind ≠ .semicolon)
    (hvar : t.kind ≠ .varWord) (hs : TakesWhole (expressionStatement expression) (t :: u) s) :
    TakesWhole (forInitial expression) (t :: u) (some s) := by
  intro t' rest errors _
  rw [forInitial, List.cons_append, EStateM.bind_ok (skipped_of_ne hsemi _ _),
    if_neg Bool.false_ne_true, EStateM.bind_ok (skipped_of_ne hvar _ _),
    if_neg Bool.false_ne_true, ← List.cons_append, hs.map some t' rest errors trivial]

theorem takes_forLoop {l semi r : Token} {initial : Option (Stmt Unit)}
    {condition step : Option (Expr Unit)} {body : Stmt Unit} {dangling : Bool} {w : List Token}
    (hl : l.kind = .leftParen) (hinitial : TakesWhole (forInitial expression) w initial)
    (hcondition : Takes (· = .semicolon) (unlessSees .semicolon expression) u condition)
    (hsemi : semi.kind = .semicolon)
    (hstep : Takes (· = .rightParen) (unlessSees .rightParen expression) v step)
    (hr : r.kind = .rightParen) (hbody : TakesStmt statement dangling x body) :
    TakesStmt (forLoop expression statement) dangling (l :: w ++ u ++ semi :: v ++ r :: x)
      (.forLoop initial condition step body) := by
  intro t rest errors ht
  have hfirst : forInitial expression ⟨w ++ (u ++ semi :: (v ++ r :: (x ++ t :: rest))), errors⟩ =
      .ok initial ⟨u ++ semi :: (v ++ r :: (x ++ t :: rest)), errors⟩ := by
    cases u with
    | nil => exact hinitial semi _ errors trivial
    | cons t' u => exact hinitial t' _ errors trivial
  simp only [List.append_assoc, List.cons_append]
  rw [forLoop, EStateM.bind_ok (expect_of_eq hl _ _ _), EStateM.bind_ok hfirst,
    EStateM.bind_ok (hcondition semi _ errors hsemi), EStateM.bind_ok (expect_of_eq hsemi _ _ _),
    EStateM.bind_ok (hstep r _ errors hr), EStateM.bind_ok (expect_of_eq hr _ _ _),
    EStateM.bind_ok (hbody t rest errors ht)]
  rfl

end

/-! ## Statements and declarations by their first token -/

section
variable {t : Token}

/-- Where an expression begins, so does a statement of it. -/
theorem statement_of_expression (hbegin : Level.assignment.begins t.kind = true)
    (rest : List Token) (errors : List SyntaxError) :
    statement (depth + 1) ⟨t :: rest, errors⟩ =
      expressionStatement (expression depth) ⟨t :: rest, errors⟩ := by
  refine statement_eq_expressionStatement (fun hk => ?_) depth rest errors
  have hbegins : ∀ k ∈ [Kind.forWord, .ifWord, .printWord, .returnWord, .whileWord, .leftBrace],
      Level.assignment.begins k = false := by decide
  exact Bool.false_ne_true ((hbegins t.kind hk).symm.trans hbegin)

/-- Where a statement begins, no other declaration does. -/
theorem attempted_of_statement (hbegin : beginsStatement t.kind = true) (rest : List Token)
    (errors : List SyntaxError) :
    attempted depth ⟨t :: rest, errors⟩ = statement depth ⟨t :: rest, errors⟩ := by
  refine attempted_eq_statement (fun hk => ?_) depth rest errors
  have hbegins : ∀ k ∈ [Kind.classWord, .funWord, .varWord], beginsStatement k = false := by decide
  exact Bool.false_ne_true ((hbegins t.kind hk).symm.trans hbegin)

/-- What a word leads to behind it is the statement from that word on. -/
theorem takes_statement {dangling : Bool} {r : Reader (Stmt Unit)}
    (hr : TakesStmt r dangling u s)
    (h : ∀ rest errors, statement (depth + 1) ⟨t :: rest, errors⟩ = r ⟨rest, errors⟩) :
    TakesStmt (statement (depth + 1)) dangling (t :: u) s := by
  intro t' rest errors ht'
  rw [List.cons_append, h]
  exact hr t' rest errors ht'

/-- What a word leads to behind it is the declaration from that word on. -/
theorem takes_declaration {r : Reader (Stmt Unit)} (hr : TakesWhole r u s)
    (h : ∀ rest errors, attempted depth ⟨t :: rest, errors⟩ = r ⟨rest, errors⟩) :
    Takes (· ≠ .elseWord) (declaration (depth + 1)) (t :: u) (some s) := by
  rw [declaration_succ]
  refine Takes.recover fun t' rest errors _ => ?_
  rw [List.cons_append, h]
  exact hr t' rest errors trivial

theorem takes_declaration_of_statement {dangling : Bool} (hbegin : beginsStatement t.kind = true)
    (hs : TakesStmt (statement depth) dangling (t :: u) s) :
    Takes (· ≠ .elseWord) (declaration (depth + 1)) (t :: u) (some s) := by
  rw [declaration_succ]
  refine Takes.recover fun t' rest errors ht' => ?_
  rw [List.cons_append, attempted_of_statement hbegin]
  exact hs t' rest errors fun _ => ht'

end

/-! ## Derivations -/

/-- What the reader of a phrase takes it for, if it may go deep enough for so many tokens. -/
def Completes : Phrase → List Token → Prop
  | .expression level e, u => ∀ depth, u.length ≤ depth → ArrivesAt depth level u e
  | .optional e, u => ∀ depth stop, u.length + 2 ≤ depth → stop = .semicolon ∨ stop = .rightParen →
    Takes (· = stop) (unlessSees stop (expression depth)) u e
  | .arguments es, u => ∀ depth, u.length + 2 ≤ depth → es ≠ [] →
    Separates .tooManyArguments (expression depth) u es
  | .parameters names, u => names ≠ [] →
    Separates .tooManyParameters (expect .identifier .parameterName) u names
  | .function f, u => ∀ depth kind, u.length ≤ depth →
    TakesWhole (function kind (declaration depth)) u f
  | .methods fs, u => ∀ depth, u.length ≤ depth →
    Collects (do return (← sees .rightBrace) || (← sees .eof)) endsBlock
      (some <$> function .method (declaration depth)) u fs
  | .initial s, u => ∀ depth, u.length + 2 ≤ depth →
    TakesWhole (forInitial (expression depth)) u s
  | .statement dangling s, u => ∀ depth, u.length + 2 ≤ depth →
    TakesStmt (statement depth) dangling u s
  | .variable s, u => ∀ depth, u.length + 2 ≤ depth →
    ∃ w v, u = w :: v ∧ w.kind = .varWord ∧ TakesWhole (var (expression depth)) v s
  | .declaration s, u => ∀ depth, u.length + 3 ≤ depth →
    Takes (· ≠ .elseWord) (declaration depth) u (some s)
  | .declarations ss, u => ∀ depth done stops, u.length + 3 ≤ depth →
    (∀ t rest errors, done ⟨t :: rest, errors⟩ = .ok (stops t.kind) ⟨t :: rest, errors⟩) →
    (∀ k, stops k = true → k = .rightBrace ∨ k = .eof) →
    Collects done stops (declaration depth) u ss

/-! ### Expressions -/

/-- A whole expression in hand is taken where an expression may end. -/
theorem Completes.takes {d : Nat} (h : Completes (.expression .assignment e) u)
    (hdepth : u.length + 2 ≤ d) : TakesExpr (expression d) u e := by
  obtain ⟨depth, rfl⟩ : ∃ depth, d = depth + 2 := ⟨d - 2, by omega⟩
  exact (h depth (by omega)).takes

theorem completes_operand (h : ∀ inner, TakesWhole (primary inner) u e) :
    Completes (.expression .primary e) u :=
  fun depth _ => (h (expression depth)).arrives

theorem completes_group {l r : Token} (hl : l.kind = .leftParen)
    (he : Completes (.expression .assignment e) u) (hr : r.kind = .rightParen) :
    Completes (.expression .primary (.group e)) (l :: u ++ [r]) := by
  intro depth hdepth
  have hinner := he.takes (d := depth) (by simp at hdepth; omega)
  exact (takes_group hl hinner hr).arrives

theorem isSign_of_beginsOperand {k : Kind} (h : beginsOperand k = true) : isSign k = false := by
  unfold beginsOperand at h
  split at h <;> first | rfl | cases h

/-- A kind with which a phrase begins is none with which it does not. -/
theorem ne_of_begins {k k' : Kind} {begins : Kind → Bool} (h : begins k = true)
    (h' : begins k' = false) : k ≠ k' := by
  rintro rfl
  exact Bool.false_ne_true (h'.symm.trans h)

theorem completes_call {l r : Token} {es : List (Expr Unit)}
    (hcallee : Completes (.expression .call e) u) (hl : l.kind = .leftParen)
    (hes : Derives (.arguments es) v) (hcount : es.length ≤ itemLimit)
    (hr : r.kind = .rightParen) (h : Completes (.arguments es) v) :
    Completes (.expression .call (.call e r es)) (u ++ l :: v ++ [r]) := by
  intro depth hdepth
  simp only [List.length_append, List.length_cons, List.length_nil] at hdepth
  have harguments : Takes (· = .rightParen) (arguments (expression depth)) v es := by
    cases es with
    | nil =>
      cases hes
      exact takes_noArguments
    | cons e' es =>
      obtain ⟨t, v, rfl, ht⟩ := hes.begins.exists_cons rfl
      exact takes_arguments (h depth (by omega) (List.cons_ne_nil _ _)) hcount
        ⟨t, v, rfl, ne_of_begins ht rfl⟩
  exact arrives_call_call (hcallee depth (by omega)) hl harguments hr

/-- Two operands and an operator of their level. -/
theorem completes_binary {level : Level} {op : Token} {left right : Expr Unit}
    (hleft : Completes (.expression level left) u) (hop : op.kind ∈ level.operators)
    (hright : Completes (.expression level.tighter right) v) :
    Completes (.expression level (level.combine left op right)) (u ++ op :: v) := by
  intro depth hdepth
  simp only [List.length_append, List.length_cons] at hdepth
  have hl : ArrivesAt depth level u left := hleft depth (by omega)
  have hr : TakesAt depth level.tighter v right := (hright depth (by omega)).takes
  have hend := Level.ends_of_mem_operators hop
  have hwanted : level.isOperator op.kind = true := by
    rw [Level.isOperator_eq]
    exact decide_eq_true hop
  cases level with
  | assignment | unary | call | primary => cases hop
  | _ => exact Arrives.next hl hend hwanted hr

theorem completes_assign {name equals : Token} (hname : name.kind = .identifier)
    (hequals : equals.kind = .equal) (he : Completes (.expression .assignment e) v) :
    Completes (.expression .assignment (.assign ⟨(), name⟩ e)) (name :: equals :: v) := by
  intro depth hdepth
  simp only [List.length_cons] at hdepth
  have hvalue : TakesExpr (expression (depth + 1)) v e := he.takes (by omega)
  have htarget : TakesAt depth .disjunction [name] (.nameRef ⟨(), name⟩) :=
    ArrivesAt.target (arrives_call (takes_name hname)) ⟨name, [], rfl, by rw [hname]; rfl⟩
  exact (takes_assign hequals hvalue htarget).arrives

theorem completes_set {dot name equals : Token} {object : Expr Unit}
    (hobject : Completes (.expression .call object) u)
    (hbegin : ∃ t v, u = t :: v ∧ isSign t.kind = false) (hdot : dot.kind = .dot)
    (hname : name.kind = .identifier) (hequals : equals.kind = .equal)
    (he : Completes (.expression .assignment e) v) :
    Completes (.expression .assignment (.set object name e))
      (u ++ dot :: name :: equals :: v) := by
  intro depth hdepth
  simp only [List.length_append, List.length_cons] at hdepth
  have hvalue : TakesExpr (expression (depth + 1)) v e := he.takes (by omega)
  have hget : ArrivesAt depth .call (u ++ [dot, name]) (.get object name) :=
    arrives_call_get (hobject depth (by omega)) hdot hname
  obtain ⟨t, u, rfl, hsign⟩ := hbegin
  have htarget := hget.target ⟨t, u ++ [dot, name], rfl, hsign⟩
  have h := takes_set hequals hvalue htarget
  rw [List.append_assoc] at h
  exact h.arrives

/-- An expression of a tighter level on a looser one. -/
theorem completes_tighter {level : Level} (he : Derives (.expression level.tighter e) u)
    (h : Completes (.expression level.tighter e) u) : Completes (.expression level e) u := by
  intro depth hdepth
  refine (h depth hdepth).takes.loosen ?_
  obtain ⟨t, v, rfl, ht⟩ := he.begins.exists_cons rfl
  refine ⟨t, v, rfl, ?_⟩
  rintro rfl
  exact isSign_of_beginsOperand ht

theorem completes_present (he : Derives (.expression .assignment e) u)
    (h : Completes (.expression .assignment e) u) : Completes (.optional (some e)) u := by
  intro depth stop hdepth hstop
  have hexpr := h.takes hdepth
  obtain ⟨t, v, rfl, ht⟩ := he.begins.exists_cons rfl
  rcases hstop with rfl | rfl
  · exact takes_unlessSees_some hexpr (by decide) (ne_of_begins ht rfl)
  · exact takes_unlessSees_some hexpr (by decide) (ne_of_begins ht rfl)

/-- An argument ends before a comma and before the closing parenthesis. -/
theorem Completes.takes_item {depth : Nat} (h : Completes (.expression .assignment e) u)
    (hdepth : u.length + 2 ≤ depth) :
    Takes (fun k => k = .comma ∨ k = .rightParen) (expression depth) u e := by
  refine (h.takes hdepth).mono ?_
  rintro k (rfl | rfl) <;> decide

theorem completes_argument {comma : Token} {es : List (Expr Unit)}
    (he : Completes (.expression .assignment e) u) (hcomma : comma.kind = .comma)
    (hes : Completes (.arguments es) v) (hne : es ≠ []) :
    Completes (.arguments (e :: es)) (u ++ comma :: v) := by
  intro depth hdepth _
  simp only [List.length_append, List.length_cons] at hdepth
  exact (he.takes_item (by omega)).separates_cons hcomma (hes depth (by omega) hne)

theorem takes_parameterName {name : Token} (hname : name.kind = .identifier) :
    Takes (fun k => k = .comma ∨ k = .rightParen) (expect .identifier .parameterName) [name]
      name :=
  (takes_expect hname .parameterName).mono fun _ _ => trivial

/-! ### Functions and classes -/

theorem endsBlock_cases {k : Kind} (h : endsBlock k = true) : k = .rightBrace ∨ k = .eof := by
  simpa [endsBlock] using h

theorem completes_block {depth : Nat} {r : Token} {body : List (Stmt Unit)}
    (hbody : Completes (.declarations body) u) (hr : r.kind = .rightBrace)
    (hdepth : u.length + 3 ≤ depth) : TakesWhole (block (declaration depth)) (u ++ [r]) body :=
  takes_block hr (hbody depth _ endsBlock hdepth sees_endsBlock fun _ => endsBlock_cases)

theorem completes_function {name l r lb rb : Token} {params : List Token}
    {body : List (Stmt Unit)} (hname : name.kind = .identifier) (hl : l.kind = .leftParen)
    (hparams : Derives (.parameters params) u) (hcount : params.length ≤ itemLimit)
    (hr : r.kind = .rightParen) (hlb : lb.kind = .leftBrace)
    (hbody : Completes (.declarations body) v) (hrb : rb.kind = .rightBrace)
    (h : Completes (.parameters params) u) :
    Completes (.function ⟨name, params, body⟩) (name :: l :: u ++ r :: lb :: v ++ [rb]) := by
  intro depth kind hdepth
  simp only [List.length_append, List.length_cons, List.length_nil] at hdepth
  have hnames : Takes (· = .rightParen) parameters u params := by
    cases params with
    | nil =>
      cases hparams
      exact takes_noParameters
    | cons name names =>
      obtain ⟨t, u, rfl, ht⟩ := hparams.begins.exists_cons rfl
      exact takes_parameters (of_decide_eq_true ht) (h (List.cons_ne_nil _ _)) hcount
  exact takes_function kind hname hl hnames hr hlb (completes_block hbody hrb (by omega))

theorem completes_method {f : Function Unit} {fs : List (Function Unit)}
    (hf : Derives (.function f) u) (h : Completes (.function f) u)
    (hfs : Completes (.methods fs) v) : Completes (.methods (f :: fs)) (u ++ v) := by
  intro depth hdepth
  simp only [List.length_append] at hdepth
  have hfirst := (h depth .method (by omega)).map some
  have hrest := hfs depth (by omega)
  obtain ⟨t, u, rfl, ht⟩ := hf.begins.exists_cons rfl
  have hgoes : endsBlock t.kind = false := by
    rw [of_decide_eq_true ht]
    rfl
  exact hfirst.collects_cons sees_endsBlock hgoes (fun _ _ => trivial) (fun _ _ => trivial) hrest

/-- A class behind its first word. -/
theorem completes_classOf {d : Nat} {name lb rb : Token} {parent : Option (Ref Unit)}
    {methods : List (Function Unit)} (hname : name.kind = .identifier)
    (hparent : Takes (· = .leftBrace) superclass u parent) (hlb : lb.kind = .leftBrace)
    (hmethods : Completes (.methods methods) v) (hrb : rb.kind = .rightBrace)
    (hdepth : v.length ≤ d) :
    TakesWhole (classOf (declaration d)) (name :: u ++ lb :: v ++ [rb])
      (.classOf name parent methods) :=
  takes_classOf hname hparent hlb (hmethods d hdepth) hrb

/-! ### Statements -/

theorem completes_expressionStatement {semi : Token} (he : Derives (.expression .assignment e) u)
    (h : Completes (.expression .assignment e) u) (hsemi : semi.kind = .semicolon) :
    Completes (.statement false (.expression e)) (u ++ [semi]) := by
  intro depth hdepth
  simp only [List.length_append, List.length_cons, List.length_nil] at hdepth
  obtain ⟨d, rfl⟩ := Nat.exists_eq_add_one_of_ne_zero (n := depth) (by omega)
  have hs := takes_expressionStatement (h.takes (d := d) (by omega)) hsemi
  obtain ⟨t, v, rfl, ht⟩ := he.begins.exists_cons rfl
  intro t' rest errors _
  rw [List.cons_append, List.cons_append, statement_of_expression ht]
  exact hs t' rest errors trivial

/-- A statement that begins with a word, given what the reader behind the word takes. -/
theorem completes_statement {w : Token} {dangling : Bool} {r : Nat → Reader (Stmt Unit)}
    (hr : ∀ depth, u.length + 2 ≤ depth → TakesStmt (r depth) dangling u s)
    (h : ∀ depth rest errors, statement (depth + 1) ⟨w :: rest, errors⟩ =
      r depth ⟨rest, errors⟩) : Completes (.statement dangling s) (w :: u) := by
  intro depth hdepth
  rw [List.length_cons] at hdepth
  obtain ⟨d, rfl⟩ := Nat.exists_eq_add_one_of_ne_zero (n := depth) (by omega)
  exact takes_statement (hr d (by omega)) (h d)

/-- A declaration that begins with a word, given what the reader behind the word takes. -/
theorem completes_declaration {w : Token} {r : Nat → Reader (Stmt Unit)}
    (hr : ∀ depth, u.length + 3 ≤ depth → TakesWhole (r depth) u s)
    (h : ∀ depth rest errors, attempted depth ⟨w :: rest, errors⟩ = r depth ⟨rest, errors⟩) :
    Completes (.declaration s) (w :: u) := by
  intro depth hdepth
  rw [List.length_cons] at hdepth
  obtain ⟨d, rfl⟩ := Nat.exists_eq_add_one_of_ne_zero (n := depth) (by omega)
  exact takes_declaration (hr d (by omega)) (h d)

theorem completes_declaration_of_statement {dangling : Bool}
    (hs : Derives (.statement dangling s) u) (h : Completes (.statement dangling s) u) :
    Completes (.declaration s) u := by
  intro depth hdepth
  obtain ⟨d, rfl⟩ := Nat.exists_eq_add_one_of_ne_zero (n := depth) (by omega)
  have hstatement := h d (by omega)
  obtain ⟨t, v, rfl, ht⟩ := hs.begins.exists_cons rfl
  exact takes_declaration_of_statement ht hstatement

theorem completes_declaration_of_variable (h : Completes (.variable s) u) :
    Completes (.declaration s) u := by
  obtain ⟨w, v, rfl, hw, -⟩ := h _ (Nat.le_refl _)
  refine completes_declaration (r := fun depth => var (expression depth)) ?_ ?_
  · intro depth hdepth
    obtain ⟨w', v', hcons, -, hvar⟩ := h depth (by rw [List.length_cons]; omega)
    obtain ⟨rfl, rfl⟩ := List.cons.inj hcons
    exact hvar
  · intro depth rest errors
    rw [attempted, peek_bind_cons, hw]
    rfl

theorem beginsDeclaration_not_stop {k : Kind} (h : beginsDeclaration k = true) :
    k ≠ .rightBrace ∧ k ≠ .eof ∧ k ≠ .elseWord :=
  ⟨ne_of_begins h rfl, ne_of_begins h rfl, ne_of_begins h rfl⟩

/-- A declaration stands before others: none of them begins with an `else`. -/
theorem completes_declarations {ss : List (Stmt Unit)} (hs : Derives (.declaration s) u)
    (h : Completes (.declaration s) u) (hss : Derives (.declarations ss) v)
    (ih : Completes (.declarations ss) v) : Completes (.declarations (s :: ss)) (u ++ v) := by
  intro depth done stops hdepth hdone hstops
  rw [List.length_append] at hdepth
  have hfirst := h depth (by omega)
  have hrest := ih depth done stops (by omega) hdone hstops
  obtain ⟨t, u, rfl, ht⟩ := hs.begins.exists_cons rfl
  obtain ⟨hbrace, heof, -⟩ := beginsDeclaration_not_stop ht
  refine hfirst.collects_cons hdone ?_ ?_ ?_ hrest
  · refine Bool.eq_false_iff.mpr fun hk => ?_
    rcases hstops _ hk with hk | hk
    · exact hbrace hk
    · exact heof hk
  · intro k hk
    rcases hstops k hk with rfl | rfl <;> decide
  · intro t' ht'
    cases v with
    | nil => cases ht'
    | cons t'' v =>
      rw [List.head?_cons, Option.some.injEq] at ht'
      subst ht'
      exact (beginsDeclaration_not_stop hss.begins).2.2

/-! ### All phrases -/

/-- **The reader of a phrase takes what derives it as just that phrase.** -/
theorem Derives.completes {p : Phrase} {u : List Token} (h : Derives p u) : Completes p u := by
  induction h with
  | falseLiteral ht | trueLiteral ht | nilLiteral ht | this ht =>
    refine completes_operand fun inner => takes_word fun rest errors => ?_
    -- the kind of the first token decides what `primary` reads, and so in the cases below
    rw [primary, peek_bind_cons, ht]
    rfl
  | literal ht => exact completes_operand fun inner => takes_literal ht
  | superMethod ht hdot hname => exact completes_operand fun inner => takes_superMethod ht hdot hname
  | name ht => exact completes_operand fun inner => takes_name ht
  | group hl _ hr ih => exact completes_group hl ih hr
  | call _ hl hes hcount hr ih ihes => exact completes_call ih hl hes hcount hr ihes
  | get _ hdot hname ih =>
    intro depth hdepth
    rw [List.length_append] at hdepth
    exact arrives_call_get (ih depth (by omega)) hdot hname
  | unary hop _ ih =>
    intro depth hdepth
    rw [List.length_cons] at hdepth
    obtain ⟨d, rfl⟩ := Nat.exists_eq_add_one_of_ne_zero (n := depth) (by omega)
    exact (takes_unary hop (ih d (by omega)).takes).arrives
  | binary _ hop _ ihleft ihright => exact completes_binary ihleft hop ihright
  | assign hname hequals _ ih => exact completes_assign hname hequals ih
  | set hobject hdot hname hequals _ ihobject ih =>
    obtain ⟨t, v, rfl, ht⟩ := hobject.begins.exists_cons rfl
    exact completes_set ihobject ⟨t, v, rfl, isSign_of_beginsOperand ht⟩ hdot hname hequals ih
  | tighter he ih => exact completes_tighter he ih
  | absent => exact fun _ _ _ _ => takes_unlessSees_none
  | present he ih => exact completes_present he ih
  | noArguments => exact fun _ _ hne => absurd rfl hne
  | noParameters => exact fun hne => absurd rfl hne
  | lastArgument _ ih => exact fun depth hdepth _ => (ih.takes_item hdepth).separates
  | argument _ hcomma _ ih ihes => exact completes_argument ih hcomma ihes (List.cons_ne_nil _ _)
  | lastParameter hname => exact fun _ => (takes_parameterName hname).separates
  | parameter hname hcomma _ ih =>
    exact fun _ => (takes_parameterName hname).separates_cons hcomma (ih (List.cons_ne_nil _ _))
  | function hname hl hparams hcount hr hlb _ hrb ihparams ihbody =>
    exact completes_function hname hl hparams hcount hr hlb ihbody hrb ihparams
  | noMethods => exact fun _ _ => collects_nil sees_endsBlock
  | method hf _ ih ihfs => exact completes_method hf ih ihfs
  | noInitial hsemi => exact fun _ _ => takes_forInitial_none hsemi
  | initialVariable _ ih =>
    intro depth hdepth
    obtain ⟨w, v, rfl, hw, hvar⟩ := ih depth hdepth
    exact takes_forInitial_var hw hvar
  | initialExpression he hsemi ih =>
    intro depth hdepth
    rw [List.length_append] at hdepth
    have hs := takes_expressionStatement (ih.takes (d := depth) (by omega)) hsemi
    -- an expression begins neither with `;` nor with `var`
    obtain ⟨t, v, rfl, ht⟩ := he.begins.exists_cons rfl
    exact takes_forInitial_expression (ne_of_begins ht rfl) (ne_of_begins ht rfl) hs
  | expressionStatement he hsemi ih => exact completes_expressionStatement he ih hsemi
  | print hw _ hsemi ih =>
    refine completes_statement (r := fun depth => Grammar.print (expression depth))
      (fun depth hdepth => ?_) fun depth rest errors => ?_
    · simp only [List.append_eq, List.length_append] at hdepth
      exact (takes_print (ih.takes (d := depth) (by omega)) hsemi).mono fun _ _ => trivial
    · rw [Grammar.statement, peek_bind_cons, hw]
      rfl
  | @returnFrom w _ _ _ hw _ hsemi ih =>
    refine completes_statement (r := fun depth => Grammar.returnFrom w (expression depth))
      (fun depth hdepth => ?_) fun depth rest errors => ?_
    · simp only [List.append_eq, List.length_append] at hdepth
      have hvalue := ih depth .semicolon (by omega) (.inl rfl)
      exact (takes_returnFrom hvalue hsemi).mono fun _ _ => trivial
    · rw [Grammar.statement, peek_bind_cons, hw]
      rfl
  | block hlb _ hrb ih =>
    refine completes_statement
      (r := fun depth => Stmt.block <$> Grammar.block (Grammar.declaration depth))
      (fun depth hdepth => ?_) fun depth rest errors => ?_
    · simp only [List.append_eq, List.length_append, List.length_singleton] at hdepth
      exact ((completes_block ih hrb (by omega)).map Stmt.block).mono fun _ _ => trivial
    · rw [Grammar.statement, peek_bind_cons, hlb, map_eq_pure_bind]
      rfl
  | whileLoop hw hl _ hr _ ihcondition ih =>
    refine completes_statement
      (r := fun depth => Grammar.whileLoop (expression depth) (Grammar.statement depth))
      (fun depth hdepth => ?_) fun depth rest errors => ?_
    · simp only [List.append_eq, List.cons_append, List.length_append, List.length_cons] at hdepth
      exact takes_whileLoop hl (ihcondition.takes (d := depth) (by omega)) hr
        (ih depth (by omega))
    · rw [Grammar.statement, peek_bind_cons, hw]
      rfl
  | forLoop hw hl _ _ hsemi _ hr _ ihinitial ihcondition ihstep ih =>
    refine completes_statement
      (r := fun depth => Grammar.forLoop (expression depth) (Grammar.statement depth))
      (fun depth hdepth => ?_) fun depth rest errors => ?_
    · simp only [List.append_eq, List.cons_append, List.length_append, List.length_cons] at hdepth
      exact takes_forLoop hl (ihinitial depth (by omega))
        (ihcondition depth .semicolon (by omega) (.inl rfl)) hsemi
        (ihstep depth .rightParen (by omega) (.inr rfl)) hr (ih depth (by omega))
    · rw [Grammar.statement, peek_bind_cons, hw]
      rfl
  | ifThen hw hl _ hr _ ihcondition ih =>
    refine completes_statement
      (r := fun depth => conditional (expression depth) (Grammar.statement depth))
      (fun depth hdepth => ?_) fun depth rest errors => ?_
    · simp only [List.append_eq, List.cons_append, List.length_append, List.length_cons] at hdepth
      exact takes_ifThen hl (ihcondition.takes (d := depth) (by omega)) hr
        (ih depth (by omega))
    · rw [Grammar.statement, peek_bind_cons, hw]
      rfl
  | ifElse hw hl _ hr _ hotherwise _ ihcondition ihbody ihother =>
    refine completes_statement
      (r := fun depth => conditional (expression depth) (Grammar.statement depth))
      (fun depth hdepth => ?_) fun depth rest errors => ?_
    · simp only [List.append_eq, List.cons_append, List.length_append, List.length_cons] at hdepth
      exact takes_ifElse hl (ihcondition.takes (d := depth) (by omega)) hr
        (ihbody depth (by omega)) hotherwise (ihother depth (by omega))
    · rw [Grammar.statement, peek_bind_cons, hw]
      rfl
  | var hw hname hsemi => exact fun _ _ => ⟨_, _, rfl, hw, takes_var_none hname hsemi⟩
  | varInitial hw hname hequals _ hsemi ih =>
    intro depth hdepth
    simp only [List.length_append, List.length_cons] at hdepth
    have hexpr := ih.takes (d := depth) (by omega)
    exact ⟨_, _, rfl, hw, takes_var_some hname hequals hexpr hsemi⟩
  | «variable» _ ih => exact completes_declaration_of_variable ih
  | functionDeclaration hw _ ih =>
    refine completes_declaration
      (r := fun depth => Stmt.function <$> Grammar.function .function (Grammar.declaration depth))
      (fun depth hdepth => ?_) fun depth rest errors => ?_
    · exact (ih depth .function (by omega)).map Stmt.function
    · rw [attempted, peek_bind_cons, hw, map_eq_pure_bind]
      rfl
  | classOf hw hname hlb _ hrb ih =>
    refine completes_declaration (r := fun depth => Grammar.classOf (Grammar.declaration depth))
      (fun depth hdepth => ?_) fun depth rest errors => ?_
    · simp only [List.append_eq, List.cons_append, List.length_append, List.length_cons] at hdepth
      exact completes_classOf (d := depth) hname takes_superclass_none hlb ih hrb (by omega)
    · rw [attempted, peek_bind_cons, hw]
      rfl
  | subclassOf hw hname hless hparent hlb _ hrb ih =>
    refine completes_declaration (r := fun depth => Grammar.classOf (Grammar.declaration depth))
      (fun depth hdepth => ?_) fun depth rest errors => ?_
    · simp only [List.append_eq, List.cons_append, List.length_append, List.length_cons] at hdepth
      exact completes_classOf (d := depth) hname (takes_superclass_some hless hparent) hlb ih
        hrb (by omega)
    · rw [attempted, peek_bind_cons, hw]
      rfl
  | statement hs ih => exact completes_declaration_of_statement hs ih
  | noDeclarations => exact fun _ _ _ _ hdone _ => collects_nil hdone
  | declaration hs hss ih ihss => exact completes_declarations hs ih hss ihss

end Grammar

/-- **A token list that derives a program parses to it**, without errors, if programs may nest as
deep as so many tokens can.  What stands behind the end token does not matter. -/
theorem parse_of_derives {program : List (Stmt Unit)} {u : List Token}
    (h : Grammar.Derives (.declarations program) u) {t : Token} (ht : t.kind = .eof)
    (rest : List Token) {depth : Nat} (hdepth : u.length + 3 ≤ depth) :
    parse depth (u ++ t :: rest) = .ok ⟨program, []⟩ := by
  have hcollects := h.completes depth (Reader.sees .eof) (fun k => decide (k = .eof)) hdepth
    (fun t rest errors => Reader.sees_cons .eof t rest errors)
    fun k hk => .inr (of_decide_eq_true hk)
  have hprogram := hcollects.takes t rest [] (decide_eq_true ht)
  rw [parse, Grammar.program, hprogram]

end LoxLang
