import LoxLang.Grammar.Program
import LoxLang.Proofs.Computation
import LoxLang.Proofs.Syntax.Map

/-! # Reading changed tokens

The readers of the grammar look at the kinds of tokens, and take over the data of literals.  So from
tokens that are changed in all but these, they read what they read from the tokens before, changed
in the same way: with the same errors, at the changed tokens, with the same recovery, and with the
same end if they stop.  Nothing is assumed of the tokens: they need form no program.

A reader `Follows` another one if it does so; the readers of the grammar follow themselves. -/

namespace LoxLang

/-- The same error at a changed token. -/
def SyntaxError.map (φ : Token → Token) (e : SyntaxError) : SyntaxError := ⟨e.fault, φ e.place⟩

/-- The same tokens and errors, changed. -/
def Cursor.map (φ : Token → Token) (s : Cursor) : Cursor :=
  ⟨s.rest.map φ, s.errors.map (SyntaxError.map φ)⟩

/-- What was read from changed tokens. -/
def Parsed.map (φ : Token → Token) (p : Parsed) : Parsed :=
  ⟨p.program.map (Stmt.map id φ), p.errors.map (SyntaxError.map φ)⟩

namespace Reader

variable {α β γ δ : Type} {φ : Token → Token}

/-- The same end of a reader, changed. -/
def retell (φ : Token → Token) (p : α → β) :
    EStateM.Result Interrupt Cursor α → EStateM.Result Interrupt Cursor β
  | .ok a s => .ok (p a) (s.map φ)
  | .error i s => .error i (s.map φ)

/-- The second reader reads from changed tokens what the first one reads, changed by `p`. -/
def Follows (φ : Token → Token) (p : α → β) (x : Reader α) (y : Reader β) : Prop :=
  ∀ s, y (s.map φ) = retell φ p (x s)

section
variable {p : α → β} {x : Reader α} {y : Reader β}

theorem follows_pure (a : α) : Follows φ p (pure a) (pure (p a)) := fun _ => rfl

theorem follows_stop (fault : Fault) : Follows φ p (stop fault) (stop fault) := fun _ => rfl

theorem follows_skip : Follows φ (fun a => a) skip skip := fun s => by
  simp only [skip, retell, Cursor.map, List.map_tail]

theorem follows_record (fault : SyntaxFault) (place : Token) :
    Follows φ (fun a => a) (record fault place) (record fault (φ place)) := fun s => by
  simp only [record, retell, Cursor.map, List.map_append, List.map_cons, List.map_nil]
  rfl

theorem follows_upcoming : Follows φ (List.map φ) upcoming upcoming := fun _ => rfl

theorem follows_peek : Follows φ φ peek peek := fun s => by
  obtain ⟨rest, errors⟩ := s
  cases rest <;> rfl

theorem Follows.bind {f : α → Reader γ} {k : β → Reader δ} {q : γ → δ} (hx : Follows φ p x y)
    (hf : ∀ a, Follows φ q (f a) (k (p a))) : Follows φ q (x >>= f) (y >>= k) := by
  intro s
  rw [EStateM.bind_apply, EStateM.bind_apply, hx s]
  cases x s with
  | ok a s' => exact hf a s'
  | error i s' => rfl

theorem Follows.map {f : α → γ} {g : β → δ} {q : γ → δ} (hx : Follows φ p x y)
    (h : ∀ a, g (p a) = q (f a)) : Follows φ q (f <$> x) (g <$> y) := by
  intro s
  have hy := hx s
  simp only [Functor.map, EStateM.map, hy]
  cases x s with
  | ok a s' => exact congrArg (EStateM.Result.ok · _) (h a)
  | error i s' => rfl

theorem follows_fail (what : Expectation) : Follows φ p (fail what) (fail what) :=
  follows_peek.bind fun t => (follows_record (.expected what) t).bind fun _ => fun _ => rfl

theorem Follows.ite {b b' : Bool} {x' : Reader α} {y' : Reader β} (hb : b' = b)
    (hx : Follows φ p x y) (hy : Follows φ p x' y') :
    Follows φ p (if b then x else x') (if b' then y else y') := by
  subst hb
  cases b'
  · exact hy
  · exact hx

end

/-! ## Looking at the next token -/

section
variable (hkind : ∀ t, (φ t).kind = t.kind)
include hkind

theorem follows_accept? (wanted : Kind → Bool) :
    Follows φ (Option.map φ) (accept? wanted) (accept? wanted) :=
  follows_peek.bind fun t =>
    .ite (congrArg wanted (hkind t)) (follows_skip.bind fun _ => follows_pure (some t))
      (follows_pure none)

theorem follows_skipped (kind : Kind) : Follows φ (fun b => b) (skipped kind) (skipped kind) :=
  (follows_accept? hkind _).bind fun o => by
    cases o with
    | none => exact follows_pure false
    | some t => exact follows_pure true

theorem follows_sees (kind : Kind) : Follows φ (fun b => b) (sees kind) (sees kind) :=
  follows_peek.bind fun t => by
    rw [hkind]
    exact follows_pure _

theorem follows_expect (kind : Kind) (what : Expectation) :
    Follows φ φ (expect kind what) (expect kind what) :=
  (follows_accept? hkind _).bind fun o => by
    cases o with
    | none => exact follows_fail what
    | some t => exact follows_pure t

/-! ## Repetition -/

theorem follows_leftChain {ops : Kind → Bool} {join : α → Token → α → α} {join' : β → Token → β → β}
    {p : α → β} {operand : Reader α} {operand' : Reader β}
    (hjoin : ∀ a op b, join' (p a) (φ op) (p b) = p (join a op b))
    (h : Follows φ p operand operand') :
    Follows φ p (leftChain ops join operand) (leftChain ops join' operand') := by
  have hmore : ∀ turns left, Follows φ p (leftChain.more ops join operand turns left)
      (leftChain.more ops join' operand' (turns.map φ) (p left)) := by
    intro turns
    induction turns with
    | nil => exact fun _ => follows_stop _
    | cons t turns ih =>
      intro left
      refine (follows_accept? hkind ops).bind fun o => ?_
      cases o with
      | none => exact follows_pure left
      | some op =>
        refine h.bind fun right => ?_
        rw [hjoin]
        exact ih (join left op right)
  exact follows_upcoming.bind fun turns => h.bind fun left => hmore turns left

theorem follows_commaSeparated {excess : SyntaxFault} {p : α → β} {item : Reader α}
    {item' : Reader β} (h : Follows φ p item item') :
    Follows φ (List.map p) (commaSeparated excess item) (commaSeparated excess item') := by
  have hmore : ∀ turns count items,
      Follows φ (List.map p) (commaSeparated.more excess item turns count items)
        (commaSeparated.more excess item' (turns.map φ) count (items.map p)) := by
    intro turns
    induction turns with
    | nil => exact fun _ _ => follows_stop _
    | cons t turns ih =>
      intro count items
      have hrest : Follows φ (List.map p)
          (do
            let items := (← item) :: items
            if ← skipped .comma then commaSeparated.more excess item turns (count + 1) items
            else return items.reverse)
          (do
            let items := (← item') :: items.map p
            if ← skipped .comma then
              commaSeparated.more excess item' (turns.map φ) (count + 1) items
            else return items.reverse) := by
        refine h.bind fun a => (follows_skipped hkind .comma).bind fun b => ?_
        refine .ite rfl (ih (count + 1) (a :: items)) ?_
        rw [← List.map_cons, ← List.map_reverse]
        exact follows_pure (a :: items).reverse
      rw [commaSeparated.more, List.map_cons, commaSeparated.more]
      by_cases hcount : maxItems ≤ count
      · simp only [hcount, if_true]
        exact follows_peek.bind fun t => (follows_record excess t).bind fun _ => hrest
      · simp only [hcount, if_false]
        exact hrest
  exact follows_upcoming.bind fun turns => hmore turns 0 []

omit hkind in
theorem follows_manyUntil {done : Reader Bool} {p : α → β} {item : Reader (Option α)}
    {item' : Reader (Option β)} (hdone : Follows φ (fun b => b) done done)
    (h : Follows φ (Option.map p) item item') :
    Follows φ (List.map p) (manyUntil done item) (manyUntil done item') := by
  have hmore : ∀ turns items, Follows φ (List.map p) (manyUntil.more done item turns items)
      (manyUntil.more done item' (turns.map φ) (items.map p)) := by
    intro turns
    induction turns with
    | nil => exact fun _ => follows_stop _
    | cons t turns ih =>
      intro items
      refine hdone.bind fun b => .ite rfl ?_ (h.bind fun o => ?_)
      · rw [← List.map_reverse]
        exact follows_pure items.reverse
      · cases o with
        | none => exact ih items
        | some a => exact ih (a :: items)
  exact follows_upcoming.bind fun turns => hmore turns []

/-! ## Recovery -/

theorem resumeAfter_map (last : Kind) (ts : List Token) :
    resumeAfter last (ts.map φ) = (resumeAfter last ts).map (List.map φ) := by
  induction ts generalizing last with
  | nil => rfl
  | cons t ts ih =>
    rw [List.map_cons, resumeAfter, resumeAfter, hkind, ih]
    split <;> rfl

theorem resume_map (ts : List Token) :
    resume (ts.map φ) = (resume ts).map (List.map φ) := by
  cases ts with
  | nil => rfl
  | cons t ts =>
    rw [List.map_cons, resume, resume, hkind, resumeAfter_map hkind]
    split <;> rfl

theorem follows_recover {p : α → β} {x : Reader α} {y : Reader β} (h : Follows φ p x y) :
    Follows φ (Option.map p) (recover x) (recover y) := by
  intro s
  unfold recover
  rw [h s]
  cases x s with
  | ok a s' => rfl
  | error i s' =>
    cases i with
    | fault f => rfl
    | syntaxError =>
      have hresume : resume (s'.map φ).rest = (resume s'.rest).map (List.map φ) :=
        resume_map hkind s'.rest
      simp only [retell, hresume]
      cases resume s'.rest <;> rfl

end

end Reader

namespace Grammar

open Reader

variable {φ : Token → Token} (hkind : ∀ t, (φ t).kind = t.kind)
  (hliteral : ∀ t, (φ t).literal = t.literal)

/-! ## Expressions -/

/-- A reader of expressions follows itself. -/
abbrev FollowsExpr (φ : Token → Token) (r : Reader (Expr Unit)) : Prop :=
  Follows φ (Expr.map id φ) r r

section
variable {operand value inner argument : Reader (Expr Unit)}
include hkind

theorem follows_disjunction (h : FollowsExpr φ operand) : FollowsExpr φ (disjunction operand) := by
  have hfactor : FollowsExpr φ (factor operand) := follows_leftChain hkind (fun _ _ _ => rfl) h
  have hterm : FollowsExpr φ (term operand) := follows_leftChain hkind (fun _ _ _ => rfl) hfactor
  have hcomparison : FollowsExpr φ (comparison operand) :=
    follows_leftChain hkind (fun _ _ _ => rfl) hterm
  have hequality : FollowsExpr φ (equality operand) :=
    follows_leftChain hkind (fun _ _ _ => rfl) hcomparison
  have hconjunction : FollowsExpr φ (conjunction operand) :=
    follows_leftChain hkind (fun _ _ _ => rfl) hequality
  exact follows_leftChain hkind (fun _ _ _ => rfl) hconjunction

theorem follows_assignment (hoperand : FollowsExpr φ operand) (hvalue : FollowsExpr φ value) :
    FollowsExpr φ (assignment operand value) := by
  refine (follows_disjunction hkind hoperand).bind fun target => ?_
  refine (follows_accept? hkind _).bind fun o => ?_
  cases o with
  | none => exact follows_pure target
  | some equals =>
    refine hvalue.bind fun v => ?_
    cases target with
    | nameRef ref => exact follows_pure (Expr.assign ref v)
    | get object name => exact follows_pure (Expr.set object name v)
    | _ => exact (follows_record .invalidTarget equals).bind fun _ => follows_pure _

include hliteral in
theorem follows_primary (hinner : FollowsExpr φ inner) : FollowsExpr φ (primary inner) := by
  refine follows_peek.bind fun t => ?_
  rw [hkind]
  split
  case h_1 | h_2 | h_3 => exact follows_skip.bind fun _ => follows_pure (Expr.literal _)
  case h_4 | h_5 =>
    rw [hliteral]
    exact follows_skip.bind fun _ => follows_pure (Expr.literal t.literal)
  case h_6 =>
    refine follows_skip.bind fun _ => (follows_expect hkind _ _).bind fun _ => ?_
    exact (follows_expect hkind _ _).bind fun name =>
      follows_pure (Expr.superRef (reference t) name)
  case h_7 => exact follows_skip.bind fun _ => follows_pure (Expr.thisRef (reference t))
  case h_8 => exact follows_skip.bind fun _ => follows_pure (Expr.nameRef (reference t))
  case h_9 =>
    refine follows_skip.bind fun _ => hinner.bind fun e => ?_
    exact (follows_expect hkind _ _).bind fun _ => follows_pure (Expr.group e)
  case h_10 => exact follows_fail _

theorem follows_arguments (hargument : FollowsExpr φ argument) :
    Follows φ (List.map (Expr.map id φ)) (arguments argument) (arguments argument) :=
  (follows_sees hkind .rightParen).bind fun _ =>
    .ite rfl (follows_pure []) (follows_commaSeparated hkind hargument)

theorem follows_callChain (hargument : FollowsExpr φ argument) (turns : List Token)
    (callee : Expr Unit) :
    Follows φ (Expr.map id φ) (callChain argument turns callee)
      (callChain argument (turns.map φ) (callee.map id φ)) := by
  induction turns generalizing callee with
  | nil => exact follows_stop _
  | cons t turns ih =>
    refine (follows_skipped hkind .leftParen).bind fun _ => .ite rfl ?_ ?_
    · refine (follows_arguments hkind hargument).bind fun as => ?_
      refine (follows_expect hkind _ _).bind fun paren => ?_
      have hcall := ih (.call callee paren as)
      rwa [Expr.map, Expr.mapAll_eq] at hcall
    · refine (follows_skipped hkind .dot).bind fun _ => .ite rfl ?_ (follows_pure callee)
      exact (follows_expect hkind _ _).bind fun name => ih (.get callee name)

include hliteral

theorem follows_call (hinner : FollowsExpr φ inner) : FollowsExpr φ (call inner) :=
  follows_upcoming.bind fun turns => (follows_primary hkind hliteral hinner).bind fun callee =>
    follows_callChain hkind hinner turns callee

theorem follows_expression (depth : Nat) :
    FollowsExpr φ (expression depth) ∧ FollowsExpr φ (unary depth) := by
  induction depth with
  | zero => exact ⟨follows_stop _, follows_stop _⟩
  | succ depth ih =>
    obtain ⟨hexpression, hunary⟩ := ih
    refine ⟨follows_assignment hkind hunary hexpression, ?_⟩
    refine (follows_accept? hkind isSign).bind fun o => ?_
    cases o with
    | none => exact follows_call hkind hliteral hexpression
    | some op => exact hunary.bind fun e => follows_pure (Expr.unary op e)

end

/-! ## Statements -/

/-- A reader of statements follows itself. -/
abbrev FollowsStmt (φ : Token → Token) (r : Reader (Stmt Unit)) : Prop :=
  Follows φ (Stmt.map id φ) r r

/-- A reader of declarations, which may be left out, follows itself. -/
abbrev FollowsDeclaration (φ : Token → Token) (r : Reader (Option (Stmt Unit))) : Prop :=
  Follows φ (Option.map (Stmt.map id φ)) r r

section
variable {expression : Reader (Expr Unit)} {statement : Reader (Stmt Unit)}
  {declaration : Reader (Option (Stmt Unit))}
include hkind

/-- The end of a body is seen by its closing brace or the end of the tokens. -/
theorem follows_atBodyEnd :
    Follows φ (fun b => b) (return (← sees .rightBrace) || (← sees .eof))
      (return (← sees .rightBrace) || (← sees .eof)) :=
  (follows_sees hkind _).bind fun _ => (follows_sees hkind _).bind fun _ => follows_pure _

theorem follows_block (h : FollowsDeclaration φ declaration) :
    Follows φ (List.map (Stmt.map id φ)) (block declaration) (block declaration) :=
  (follows_manyUntil (follows_atBodyEnd hkind) h).bind fun body =>
    (follows_expect hkind _ _).bind fun _ => follows_pure body

theorem follows_parameters : Follows φ (List.map φ) parameters parameters :=
  (follows_sees hkind _).bind fun _ =>
    .ite rfl (follows_pure []) (follows_commaSeparated hkind (follows_expect hkind _ _))

theorem follows_function (kind : CallableKind) (h : FollowsDeclaration φ declaration) :
    Follows φ (Function.map id φ) (function kind declaration) (function kind declaration) := by
  refine (follows_expect hkind _ _).bind fun name => (follows_expect hkind _ _).bind fun _ => ?_
  refine (follows_parameters hkind).bind fun params => (follows_expect hkind _ _).bind fun _ => ?_
  refine (follows_expect hkind _ _).bind fun _ => (follows_block hkind h).bind fun body => ?_
  rw [← Function.map_eq id φ ⟨name, params, body⟩]
  exact follows_pure (⟨name, params, body⟩ : Function Unit)

theorem follows_superclass : Follows φ (Option.map (Ref.map id φ)) superclass superclass :=
  (follows_skipped hkind _).bind fun _ =>
    .ite rfl ((follows_expect hkind _ _).bind fun name => follows_pure (some (reference name)))
      (follows_pure none)

theorem follows_classOf (h : FollowsDeclaration φ declaration) :
    FollowsStmt φ (classOf declaration) := by
  refine (follows_expect hkind _ _).bind fun name => ?_
  refine (follows_superclass hkind).bind fun parent => (follows_expect hkind _ _).bind fun _ => ?_
  have hmethod : Follows φ (Option.map (Function.map id φ)) (some <$> function .method declaration)
      (some <$> function .method declaration) :=
    (follows_function hkind .method h).map fun _ => rfl
  refine (follows_manyUntil (follows_atBodyEnd hkind) hmethod).bind fun methods => ?_
  refine (follows_expect hkind _ _).bind fun _ => ?_
  rw [← Function.mapAll_eq]
  exact follows_pure (Stmt.classOf name parent methods)

theorem follows_var (h : FollowsExpr φ expression) : FollowsStmt φ (var expression) := by
  refine (follows_expect hkind _ _).bind fun name => ?_
  have hrest : ∀ initial : Option (Expr Unit), Follows φ (Stmt.map id φ)
      (do let _ ← expect .semicolon .variableEnd; return .var name initial)
      (do let _ ← expect .semicolon .variableEnd
          return .var (φ name) (initial.map (Expr.map id φ))) := fun initial =>
    (follows_expect hkind _ _).bind fun _ => follows_pure (Stmt.var name initial)
  refine (follows_skipped hkind _).bind fun _ => .ite rfl ?_ (hrest none)
  exact (h.map (q := Option.map (Expr.map id φ)) fun _ => rfl).bind hrest

theorem follows_expressionStatement (h : FollowsExpr φ expression) :
    FollowsStmt φ (expressionStatement expression) :=
  h.bind fun e => (follows_expect hkind _ _).bind fun _ => follows_pure (Stmt.expression e)

theorem follows_unlessSees (kind : Kind) (h : FollowsExpr φ expression) :
    Follows φ (Option.map (Expr.map id φ)) (unlessSees kind expression)
      (unlessSees kind expression) :=
  (follows_sees hkind _).bind fun _ => .ite rfl (follows_pure none) (h.map fun _ => rfl)

theorem follows_forInitial (h : FollowsExpr φ expression) :
    FollowsDeclaration φ (forInitial expression) := by
  refine (follows_skipped hkind _).bind fun _ => .ite rfl (follows_pure none) ?_
  refine (follows_skipped hkind _).bind fun _ => .ite rfl ?_ ?_
  · exact (follows_var hkind h).map fun _ => rfl
  · exact (follows_expressionStatement hkind h).map fun _ => rfl

theorem follows_forLoop (h : FollowsExpr φ expression) (hbody : FollowsStmt φ statement) :
    FollowsStmt φ (forLoop expression statement) := by
  refine (follows_expect hkind _ _).bind fun _ => ?_
  refine (follows_forInitial hkind h).bind fun initial => ?_
  refine (follows_unlessSees hkind _ h).bind fun condition => ?_
  refine (follows_expect hkind _ _).bind fun _ => (follows_unlessSees hkind _ h).bind fun step => ?_
  refine (follows_expect hkind _ _).bind fun _ => hbody.bind fun body => ?_
  rw [← Stmt.map_forLoop]
  exact follows_pure (Stmt.forLoop initial condition step body)

theorem follows_conditional (h : FollowsExpr φ expression) (hbody : FollowsStmt φ statement) :
    FollowsStmt φ (conditional expression statement) := by
  refine (follows_expect hkind _ _).bind fun _ => h.bind fun condition => ?_
  refine (follows_expect hkind _ _).bind fun _ => hbody.bind fun body => ?_
  refine (follows_skipped hkind _).bind fun _ => .ite rfl ?_ ?_
  · exact hbody.bind fun other => follows_pure (Stmt.ifElse condition body other)
  · exact follows_pure (Stmt.ifThen condition body)

theorem follows_print (h : FollowsExpr φ expression) : FollowsStmt φ (print expression) :=
  h.bind fun e => (follows_expect hkind _ _).bind fun _ => follows_pure (Stmt.print e)

theorem follows_returnFrom (keyword : Token) (h : FollowsExpr φ expression) :
    Follows φ (Stmt.map id φ) (returnFrom keyword expression) (returnFrom (φ keyword) expression) :=
  (follows_unlessSees hkind _ h).bind fun value =>
    (follows_expect hkind _ _).bind fun _ => follows_pure (Stmt.returnFrom keyword value)

theorem follows_whileLoop (h : FollowsExpr φ expression) (hbody : FollowsStmt φ statement) :
    FollowsStmt φ (whileLoop expression statement) := by
  refine (follows_expect hkind _ _).bind fun _ => h.bind fun condition => ?_
  refine (follows_expect hkind _ _).bind fun _ => hbody.bind fun body => ?_
  exact follows_pure (Stmt.whileLoop condition body)

end

include hkind hliteral

theorem follows_declaration (depth : Nat) :
    FollowsDeclaration φ (declaration depth) ∧ FollowsStmt φ (statement depth) := by
  induction depth with
  | zero => exact ⟨follows_stop _, follows_stop _⟩
  | succ depth ih =>
    obtain ⟨hdeclaration, hstatement⟩ := ih
    have hexpression : FollowsExpr φ (expression depth) :=
      (follows_expression hkind hliteral depth).1
    constructor
    · refine follows_recover hkind (follows_peek.bind fun t => ?_)
      rw [hkind]
      split
      · exact follows_skip.bind fun _ => follows_classOf hkind hdeclaration
      · refine follows_skip.bind fun _ => ?_
        exact (follows_function hkind .function hdeclaration).map fun _ => rfl
      · exact follows_skip.bind fun _ => follows_var hkind hexpression
      · exact hstatement
    · refine follows_peek.bind fun t => ?_
      rw [hkind]
      split
      · exact follows_skip.bind fun _ => follows_forLoop hkind hexpression hstatement
      · exact follows_skip.bind fun _ => follows_conditional hkind hexpression hstatement
      · exact follows_skip.bind fun _ => follows_print hkind hexpression
      · exact follows_skip.bind fun _ => follows_returnFrom hkind t hexpression
      · exact follows_skip.bind fun _ => follows_whileLoop hkind hexpression hstatement
      · refine follows_skip.bind fun _ => (follows_block hkind hdeclaration).bind fun body => ?_
        rw [← Stmt.mapAll_eq]
        exact follows_pure (Stmt.block body)
      · exact follows_expressionStatement hkind hexpression

theorem follows_program (depth : Nat) :
    Follows φ (List.map (Stmt.map id φ)) (program depth) (program depth) :=
  follows_manyUntil (follows_sees hkind _) (follows_declaration hkind hliteral depth).1

end Grammar

/-- **Changed tokens form the changed program**, with the same errors at the changed tokens, if
their kinds and literals are kept. -/
theorem parse_map {φ : Token → Token} (hkind : ∀ t, (φ t).kind = t.kind)
    (hliteral : ∀ t, (φ t).literal = t.literal) (depth : Nat) (tokens : List Token) :
    parse depth (tokens.map φ) = (parse depth tokens).map (Parsed.map φ) := by
  have hprogram : Grammar.program depth ⟨tokens.map φ, []⟩ = _ :=
    Grammar.follows_program hkind hliteral depth ⟨tokens, []⟩
  unfold parse
  rw [hprogram]
  cases Grammar.program depth ⟨tokens, []⟩ with
  | ok program s => rfl
  | error i s => cases i <;> rfl

end LoxLang
