import LoxLang.Grammar.Program
import LoxLang.Proofs.Grammar.Lookahead
import LoxLang.Proofs.Grammar.Soundness
import LoxLang.Proofs.Syntax.Label

/-! # Joining token lists

Each reader of the grammar looks no further than to the kind of the next token, and behind a whole
statement only for an `else`.  So if a token list forms a program and another one does, they form
the two programs one behind the other when the end token of the first is left out: no statement
begins with an `else`.  The tokens of the second may have been changed meanwhile in what the
grammar does not look at, such as their lines. -/

namespace LoxLang
namespace Grammar

open Reader

/-- Telling all kinds apart. -/
theorem eq_refl (k : Kind) : k = k := rfl

section
variable {φ : Token → Token} (hφ : ∀ t, (φ t).kind = t.kind)
  (hliteral : ∀ t, (φ t).literal = t.literal) {m : Bool}
  {operand value inner argument : Reader (Expr Unit)}

/-! ## Expressions -/

/-- A reader of expressions whose results carry over. -/
abbrev LocalExpr (φ : Token → Token) (m : Bool) (r : Reader (Expr Unit)) : Prop :=
  Local φ m Eq (Expr.map id φ) r

include hφ

theorem local_disjunction (h : LocalExpr φ m operand) : LocalExpr φ m (disjunction operand) := by
  have hfactor : LocalExpr φ m (factor operand) :=
    reads_leftChain_carries hφ rfl (fun _ _ _ => rfl) h
  have hterm : LocalExpr φ m (term operand) :=
    reads_leftChain_carries hφ rfl (fun _ _ _ => rfl) hfactor
  have hcomparison : LocalExpr φ m (comparison operand) :=
    reads_leftChain_carries hφ rfl (fun _ _ _ => rfl) hterm
  have hequality : LocalExpr φ m (equality operand) :=
    reads_leftChain_carries hφ rfl (fun _ _ _ => rfl) hcomparison
  have hconjunction : LocalExpr φ m (conjunction operand) :=
    reads_leftChain_carries hφ (by decide) (fun _ _ _ => rfl) hequality
  exact reads_leftChain_carries hφ (by decide) (fun _ _ _ => rfl) hconjunction

theorem local_assignment (hoperand : LocalExpr φ m operand) (hvalue : LocalExpr φ true value) :
    LocalExpr φ m (assignment operand value) := by
  rw [← Bool.or_false m]
  refine (local_disjunction hφ hoperand).carries_andThen hφ eq_refl fun target => ?_
  refine (reads_accept?_carries (by decide) (fun _ _ h => by rw [h]) hφ).carries_andThen
    (n := false) hφ eq_refl fun o => ?_
  cases o with
  | none => exact reads_pure_carries target
  | some equals =>
    refine (hvalue.carries_andThen (n := false) hφ eq_refl fun value => ?_).weaken
    have invalid : ∀ {q' : Reader (Expr Unit)},
        Reads false (do record .invalidTarget equals; return target)
          (Carries φ Eq (Expr.map id φ) q') := by
      intro q'
      refine ((reads_record .invalidTarget equals).bind (n := false) fun _ => .pure ?_)
      exact fun _ _ h => h.elim
    cases target with
    | nameRef ref => exact reads_pure_carries (Expr.assign ref value)
    | get object name => exact reads_pure_carries (Expr.set object name value)
    | _ => exact invalid

include hliteral

theorem local_primary (hinner : LocalExpr φ true inner) : LocalExpr φ true (primary inner) := by
  refine .peek_bind fun t rest errors hs => ?_
  have single : ∀ e, t.kind ≠ .eof → (∀ rest errors, primary inner ⟨φ t :: rest, errors⟩ =
        (pure (e.map id φ) : Reader (Expr Unit)) ⟨rest, errors⟩) →
      ReadsAt ⟨t :: rest, errors⟩ true (do skip; return e)
        (Carries φ Eq (Expr.map id φ) (primary inner)) := by
    intro e ht hstep
    exact .skip_bind ht hs ((reads_pure_carries e).imp fun _ _ _ h => h.skip hstep)
  split
  case h_1 hk | h_2 hk | h_3 hk | h_7 hk | h_8 hk =>
    refine single _ (by simp [hk]) fun rest errors => ?_
    rw [primary, peek_bind_cons, hφ, hk]
    rfl
  -- a number or a text is read off the literal of its token
  case h_4 hk | h_5 hk =>
    refine single _ (by simp [hk]) fun rest errors => ?_
    rw [primary, peek_bind_cons, hφ, hk, hliteral]
    rfl
  case h_6 hk =>
    have hsuper : ∀ t, Reads true (do
          let _ ← expect .dot .superDot
          return .superRef (reference t) (← expect .identifier .superMethodName))
        (Carries φ Eq (Expr.map id φ) (do
          let _ ← expect .dot .superDot
          return .superRef (reference (φ t)) (← expect .identifier .superMethodName))) := by
      intro t
      exact reads_expect_then_carries hφ (by decide) fun _ =>
        reads_expect_then_carries hφ (by decide) fun name =>
          reads_pure_carries (Expr.superRef (reference t) name)
    refine .skip_bind (by simp [hk]) hs ((hsuper t).imp fun _ _ _ h => h.skip fun rest errors => ?_)
    rw [primary, peek_bind_cons, hφ, hk]
    rfl
  case h_9 hk =>
    have hgroup : Local φ true Eq (Expr.map id φ) (do
        let e ← inner
        let _ ← expect .rightParen .groupEnd
        return .group e) := by
      refine hinner.carries_before hφ eq_refl fun e => ?_
      exact reads_expect_then_carries hφ (by decide) fun _ => reads_pure_carries (Expr.group e)
    refine .skip_bind (by simp [hk]) hs (hgroup.imp fun _ _ _ h => h.skip fun rest errors => ?_)
    rw [primary, peek_bind_cons, hφ, hk]
    rfl
  case h_10 => exact reads_fail _ _ hs

omit hliteral

theorem local_arguments (hargument : LocalExpr φ true argument) :
    Local φ false Eq (List.map (Expr.map id φ)) (arguments argument) := by
  refine (reads_sees_carries fun _ _ h => by rw [h]).carries_andThen (n := false) hφ eq_refl
    fun b => ?_
  cases b with
  | true => exact reads_pure_carries []
  | false => exact reads_commaSeparated_carries hφ hargument

theorem readsAt_callChain_carries (hargument : LocalExpr φ true argument) :
    ∀ turns callee s, HasEnd s.rest → s.rest.length ≤ turns.length →
      ReadsAt s false (callChain argument turns callee)
        (CarriesTurns φ Eq (Expr.map id φ) fun turns =>
          callChain argument turns (callee.map id φ)) := by
  refine readsAt_turns fun turn turns callee s hs hgo => ?_
  refine .skipped_bind (n := true) hs (by decide) ?_ fun hparen => ?_
  · intro l s' hrest hs' hl
    rw [if_pos rfl]
    refine ((local_arguments hφ hargument) s' hs').bind (n := true)
      fun es s₁ u _ hreach₁ _ => ?_
    have hexpect : Local φ true Eq φ (expect .rightParen .argumentsEnd) :=
      reads_expect_carries hφ _ _ (by decide)
    refine (hexpect s₁ (hreach₁.hasEnd hs')).bind (n := false) fun r s₂ v _ hreach₂ _ => ?_
    have hreach := hreach₁.trans hreach₂
    refine (hgo (.call callee r es) s₂ (hreach.hasEnd hs') (hreach.length_lt_of_cons hrest)).imp ?_
    intro w rest e hw hv hu
    have hcall : Expr.map id φ (.call callee r es) =
        .call (callee.map id φ) (φ r) (es.map (Expr.map id φ)) := by
      rw [Expr.map, Expr.mapAll_eq]
    rw [hcall] at hw
    rw [← List.append_assoc, ← List.cons_append]
    refine .turn (List.cons_ne_nil l _) (fun t rest' errors turn turns ht => ?_) hw
    have harguments := hu.before (t := t) hφ eq_refl (.inr ht) rest' errors
    have hparen := hv.before (t := t) hφ eq_refl (.inr ht) rest' errors
    rw [List.map_append, List.append_assoc] at harguments
    rw [List.map_cons, List.map_append, List.cons_append, List.append_assoc, callChain,
      EStateM.bind_ok (skipped_of_eq ((hφ l).trans hl) _ _), if_pos rfl,
      EStateM.bind_ok harguments, EStateM.bind_ok hparen]
  · rw [if_neg (by simp)]
    refine .skipped_bind (n := true) hs (by decide) ?_ fun hnodot => ?_
    · intro dot s' hrest hs' hdot
      rw [if_pos rfl]
      have hexpect : Local φ true Eq φ (expect .identifier .propertyName) :=
        reads_expect_carries hφ _ _ (by decide)
      refine (hexpect s' hs').bind (n := false) fun name s₁ v _ hreach _ => ?_
      refine (hgo (.get callee name) s₁ (hreach.hasEnd hs') (hreach.length_lt_of_cons hrest)).imp ?_
      intro w rest e hw hv
      rw [← List.cons_append]
      refine .turn (List.cons_ne_nil dot v) (fun t rest' errors turn turns ht => ?_) hw
      have hname := hv.before (t := t) hφ eq_refl (.inr ht) rest' errors
      have hnoparen : (φ dot).kind ≠ .leftParen := by rw [hφ, hdot]; decide
      rw [List.map_cons, List.cons_append, callChain,
        EStateM.bind_ok (skipped_of_ne hnoparen _ _), if_neg Bool.false_ne_true,
        EStateM.bind_ok (skipped_of_eq ((hφ dot).trans hdot) _ _), if_pos rfl,
        EStateM.bind_ok hname]
      rfl
    · rw [if_neg (by simp)]
      refine .pure (.last fun t rest' errors turn turns ht => ?_)
      obtain ⟨t₀, ht₀, hlike⟩ := ht
      have hparen' : t.kind ≠ .leftParen := by rw [← hlike]; exact hparen t₀ ht₀
      have hdot' : t.kind ≠ .dot := by rw [← hlike]; exact hnodot t₀ ht₀
      rw [List.map_nil, List.nil_append, callChain,
        EStateM.bind_ok (skipped_of_ne hparen' _ _), if_neg Bool.false_ne_true,
        EStateM.bind_ok (skipped_of_ne hdot' _ _), if_neg Bool.false_ne_true]
      rfl

include hliteral

theorem local_call (hinner : LocalExpr φ true inner) : LocalExpr φ true (call inner) := by
  intro s hs
  refine .upcoming_bind ?_
  refine (local_primary hφ hliteral hinner s hs).bind (n := false) fun e s' u _ hreach _ => ?_
  exact (readsAt_callChain_carries hφ hinner s.rest e s' (hreach.hasEnd hs) hreach.length_le).imp
    fun v rest e' hv hu => hv.carries_behind hφ eq_refl hu

theorem local_expression_and_unary (depth : Nat) :
    LocalExpr φ true (expression depth) ∧ LocalExpr φ true (unary depth) := by
  induction depth with
  | zero => exact ⟨reads_stop, reads_stop⟩
  | succ depth ih =>
    obtain ⟨hexpression, hunary⟩ := ih
    refine ⟨local_assignment hφ hunary hexpression, ?_⟩
    refine (reads_accept?_carries (by decide) (fun _ _ h => by rw [h]) hφ).carries_andThen
      (n := true) hφ eq_refl fun o => ?_
    cases o with
    | none => exact local_call hφ hliteral hexpression
    | some op =>
      exact hunary.carries_andThen hφ eq_refl fun e => reads_pure_carries (Expr.unary op e)

theorem local_expression (depth : Nat) : LocalExpr φ true (expression depth) :=
  (local_expression_and_unary hφ hliteral depth).1

/-! ## Statements and declarations -/

omit hliteral

variable {declaration : Reader (Option (Stmt Unit))} {expression : Reader (Expr Unit)}
  {statement : Reader (Stmt Unit)}

omit hφ

/-- A reader of declarations whose results carry over. -/
def LocalDeclaration (φ : Token → Token) (r : Reader (Option (Stmt Unit))) : Prop :=
  ∀ t rest errors, HasEnd (t :: rest) → t.kind ≠ .eof →
    ReadsAt ⟨t :: rest, errors⟩ true r (fun u rest o => ∃ s, o = some s ∧
      Carries φ TellsElse (Option.map (Stmt.map id φ)) r u rest o)

/-- A reader of statements whose results carry over. -/
abbrev LocalStmt (φ : Token → Token) (r : Reader (Stmt Unit)) : Prop :=
  Local φ true TellsElse (Stmt.map id φ) r

/-- Whether a block or a class body stops before a token. -/
def endsBody (k : Kind) : Bool := decide (k = .rightBrace) || decide (k = .eof)

theorem sees_endsBody (t : Token) (rest : List Token) (errors : List SyntaxError) :
    (return (← sees .rightBrace) || (← sees .eof) : Reader Bool) ⟨t :: rest, errors⟩ =
      .ok (endsBody t.kind) ⟨t :: rest, errors⟩ := rfl

include hφ

theorem local_block (hdeclaration : LocalDeclaration φ declaration) :
    Local φ true AllAlike (List.map (Stmt.map id φ)) (block declaration) := by
  refine (reads_manyUntil_carries hφ TellsElse.refl sees_endsBody rfl hdeclaration).carries_before
    hφ eq_refl fun ss => ?_
  exact reads_expect_then_carries hφ (by decide) fun _ => reads_pure_carries ss

theorem local_parameters : Local φ false Eq (List.map φ) parameters := by
  refine (reads_sees_carries fun _ _ h => by rw [h]).carries_andThen (n := false) hφ eq_refl
    fun b => ?_
  cases b with
  | true => exact reads_pure_carries []
  | false =>
    exact reads_commaSeparated_carries hφ (reads_expect_carries hφ _ _ (by decide))

theorem local_function (kind : CallableKind) (hdeclaration : LocalDeclaration φ declaration) :
    Local φ true AllAlike (Function.map id φ) (function kind declaration) := by
  refine reads_expect_then_carries (n := true) hφ (by decide) fun name => ?_
  refine reads_expect_then_carries (n := true) hφ (by decide) fun _ => ?_
  refine (local_parameters hφ).carries_before hφ eq_refl fun params => ?_
  refine reads_expect_then_carries (n := true) hφ (by decide) fun _ => ?_
  refine reads_expect_then_carries (n := true) hφ (by decide) fun _ => ?_
  refine (local_block hφ hdeclaration).carries_freely (n := false) hφ fun body => ?_
  have hmap : Function.map id φ ⟨name, params, body⟩ =
      ⟨φ name, params.map φ, body.map (Stmt.map id φ)⟩ := Function.map_eq ..
  rw [← hmap]
  exact reads_pure_carries _

theorem local_superclass : Local φ false Eq (Option.map (Ref.map id φ)) superclass := by
  refine (reads_skipped_carries (by decide) (fun _ _ h => by rw [h]) hφ).carries_andThen
    (n := false) hφ eq_refl fun b => ?_
  cases b with
  | false => exact reads_pure_carries none
  | true =>
    exact (reads_expect_then_carries hφ (by decide) fun name =>
      reads_pure_carries (some (reference name))).weaken

theorem local_classOf (hdeclaration : LocalDeclaration φ declaration) :
    Local φ true AllAlike (Stmt.map id φ) (classOf declaration) := by
  refine reads_expect_then_carries (n := true) hφ (by decide) fun name => ?_
  refine (local_superclass hφ).carries_before hφ eq_refl fun parent => ?_
  refine reads_expect_then_carries (n := true) hφ (by decide) fun _ => ?_
  have hmethods : Local φ false Eq (List.map (Function.map id φ))
      (manyUntil (return (← sees .rightBrace) || (← sees .eof))
        (some <$> function .method declaration)) := by
    refine reads_manyUntil_carries hφ AllAlike.refl sees_endsBody rfl ?_
    exact fun t rest errors hs _ => (local_function hφ .method hdeclaration _ hs).mapSome_carries
  refine hmethods.carries_before hφ eq_refl fun methods => ?_
  refine reads_expect_then_carries (n := false) hφ (by decide) fun _ => ?_
  have hmap : Stmt.map id φ (.classOf name parent methods) =
      .classOf (φ name) (parent.map (Ref.map id φ)) (methods.map (Function.map id φ)) := by
    rw [Stmt.map, Function.mapAll_eq]
  rw [← hmap]
  exact reads_pure_carries _

theorem local_var (hexpression : LocalExpr φ true expression) :
    Local φ true AllAlike (Stmt.map id φ) (var expression) := by
  refine reads_expect_then_carries (n := true) hφ (by decide) fun name => ?_
  have hend : ∀ initial : Option (Expr Unit),
      Reads true (do let _ ← expect .semicolon .variableEnd; return .var name initial)
        (Carries φ AllAlike (Stmt.map id φ) (do
          let _ ← expect .semicolon .variableEnd
          return .var (φ name) (initial.map (Expr.map id φ)))) :=
    fun initial => reads_expect_then_carries hφ (by decide) fun _ =>
      reads_pure_carries (Stmt.var name initial)
  refine (reads_skipped_carries (by decide) (fun _ _ h => by rw [h]) hφ).carries_before
    hφ eq_refl fun b => ?_
  cases b with
  | true => exact hexpression.mapSome_carries.carries_before hφ eq_refl hend
  | false => exact hend none

theorem local_expressionStatement (hexpression : LocalExpr φ true expression) :
    Local φ true AllAlike (Stmt.map id φ) (expressionStatement expression) := by
  refine hexpression.carries_before hφ eq_refl fun e => ?_
  exact reads_expect_then_carries hφ (by decide) fun _ => reads_pure_carries (Stmt.expression e)

theorem local_unlessSees (kind : Kind) (hexpression : LocalExpr φ true expression) :
    Local φ false Eq (Option.map (Expr.map id φ)) (unlessSees kind expression) := by
  refine (reads_sees_carries fun _ _ h => by rw [h]).carries_andThen (n := false) hφ eq_refl
    fun b => ?_
  cases b with
  | true => exact reads_pure_carries none
  | false => exact hexpression.mapSome_carries.weaken

theorem local_forInitial (hexpression : LocalExpr φ true expression) :
    Local φ false Eq (Option.map (Stmt.map id φ)) (forInitial expression) := by
  refine (reads_skipped_carries (by decide) (fun _ _ h => by rw [h]) hφ).carries_andThen
    (n := false) hφ eq_refl fun b => ?_
  cases b with
  | true => exact reads_pure_carries none
  | false =>
    refine (reads_skipped_carries (by decide) (fun _ _ h => by rw [h]) hφ).carries_andThen
      (n := false) hφ eq_refl fun b => ?_
    cases b with
    | true =>
      exact (local_var hφ hexpression).mapSome_carries.weaken.imp fun _ _ _ h => h.ofAllAlike
    | false =>
      exact (local_expressionStatement hφ hexpression).mapSome_carries.weaken.imp
        fun _ _ _ h => h.ofAllAlike

theorem local_forLoop (hexpression : LocalExpr φ true expression)
    (hstatement : LocalStmt φ statement) :
    Local φ true TellsElse (Stmt.map id φ) (forLoop expression statement) := by
  refine reads_expect_then_carries (n := true) hφ (by decide) fun _ => ?_
  refine (local_forInitial hφ hexpression).carries_before hφ eq_refl fun initial => ?_
  refine (local_unlessSees hφ .semicolon hexpression).carries_before hφ eq_refl fun condition => ?_
  refine reads_expect_then_carries (n := true) hφ (by decide) fun _ => ?_
  refine (local_unlessSees hφ .rightParen hexpression).carries_before hφ eq_refl fun step => ?_
  refine reads_expect_then_carries (n := true) hφ (by decide) fun _ => ?_
  refine hstatement.carries_andThen (n := false) hφ TellsElse.refl fun body => ?_
  rw [← Stmt.map_forLoop]
  exact reads_pure_carries _

theorem local_conditional (hexpression : LocalExpr φ true expression)
    (hstatement : LocalStmt φ statement) :
    Local φ true TellsElse (Stmt.map id φ) (conditional expression statement) := by
  refine reads_expect_then_carries (n := true) hφ (by decide) fun _ => ?_
  refine hexpression.carries_before hφ eq_refl fun condition => ?_
  refine reads_expect_then_carries (n := true) hφ (by decide) fun _ => ?_
  refine hstatement.carries_andThen (n := false) hφ TellsElse.refl fun body => ?_
  refine (reads_skipped_carries (by decide) (fun _ _ h => h) hφ).carries_andThen (n := false)
    hφ TellsElse.refl fun b => ?_
  cases b with
  | true =>
    exact (hstatement.carries_andThen hφ TellsElse.refl fun other =>
      reads_pure_carries (Stmt.ifElse condition body other)).weaken
  | false => exact reads_pure_carries (Stmt.ifThen condition body)

theorem local_print (hexpression : LocalExpr φ true expression) :
    Local φ true AllAlike (Stmt.map id φ) (print expression) := by
  refine hexpression.carries_before hφ eq_refl fun e => ?_
  exact reads_expect_then_carries hφ (by decide) fun _ => reads_pure_carries (Stmt.print e)

theorem local_returnFrom (keyword : Token) (hexpression : LocalExpr φ true expression) :
    Reads true (returnFrom keyword expression)
      (Carries φ AllAlike (Stmt.map id φ) (returnFrom (φ keyword) expression)) := by
  refine (local_unlessSees hφ .semicolon hexpression).carries_before hφ eq_refl fun value => ?_
  exact reads_expect_then_carries hφ (by decide) fun _ =>
    reads_pure_carries (Stmt.returnFrom keyword value)

theorem local_whileLoop (hexpression : LocalExpr φ true expression)
    (hstatement : LocalStmt φ statement) :
    Local φ true TellsElse (Stmt.map id φ) (whileLoop expression statement) := by
  refine reads_expect_then_carries (n := true) hφ (by decide) fun _ => ?_
  refine hexpression.carries_before hφ eq_refl fun condition => ?_
  refine reads_expect_then_carries (n := true) hφ (by decide) fun _ => ?_
  exact hstatement.carries_andThen hφ TellsElse.refl fun body =>
    reads_pure_carries (Stmt.whileLoop condition body)

include hliteral

theorem local_attempted {depth : Nat} (hdeclaration : LocalDeclaration φ (Grammar.declaration depth))
    (hstatement : LocalStmt φ (Grammar.statement depth)) : LocalStmt φ (attempted depth) := by
  have hexpression := local_expression hφ hliteral depth
  refine .peek_bind fun t rest errors hs => ?_
  -- behind its keyword a declaration is read as with changed tokens
  have skips : ∀ {r r' : Reader (Stmt Unit)}, t.kind ≠ .eof →
      (∀ rest errors, attempted depth ⟨φ t :: rest, errors⟩ = r' ⟨rest, errors⟩) →
      Reads true r (Carries φ AllAlike (Stmt.map id φ) r') →
      ReadsAt ⟨t :: rest, errors⟩ true (do skip; r)
        (Carries φ TellsElse (Stmt.map id φ) (attempted depth)) :=
    fun ht hstep hr => .skip_bind ht hs (hr.imp fun _ _ _ h => h.ofAllAlike.skip hstep)
  split
  case h_1 hk =>
    refine skips (by simp [hk]) (fun rest errors => ?_) (local_classOf hφ hdeclaration)
    rw [attempted, peek_bind_cons, hφ, hk]
    rfl
  case h_2 hk =>
    have hfunction : Local φ true AllAlike (Stmt.map id φ)
        (do return .function (← function .function (Grammar.declaration depth))) :=
      (local_function hφ .function hdeclaration).carries_freely (n := false) hφ
        fun f => reads_pure_carries (Stmt.function f)
    refine skips (by simp [hk]) (fun rest errors => ?_) hfunction
    rw [attempted, peek_bind_cons, hφ, hk]
    rfl
  case h_3 hk =>
    refine skips (by simp [hk]) (fun rest errors => ?_) (local_var hφ hexpression)
    rw [attempted, peek_bind_cons, hφ, hk]
    rfl
  -- no keyword begins the declaration, nor does one once the token has changed
  case h_4 hclass hfun hvar =>
    have hother : (φ t).kind ∉ [.classWord, .funWord, .varWord] := by
      rw [hφ]
      simpa using ⟨hclass, hfun, hvar⟩
    refine ((hstatement _ hs).read_eq).imp ?_
    rintro u rest' s ⟨h, hread, hne⟩
    exact h.stay (attempted_eq_statement hother depth) (hne rfl) hread

theorem local_statement_succ {depth : Nat}
    (hdeclaration : LocalDeclaration φ (Grammar.declaration depth))
    (hstatement : LocalStmt φ (Grammar.statement depth)) :
    LocalStmt φ (Grammar.statement (depth + 1)) := by
  have hexpression := local_expression hφ hliteral depth
  refine .peek_bind fun t rest errors hs => ?_
  -- behind its first token each statement is read as with changed tokens
  have skips : ∀ {r r' : Reader (Stmt Unit)}, t.kind ≠ .eof →
      (∀ rest errors, Grammar.statement (depth + 1) ⟨φ t :: rest, errors⟩ =
        r' ⟨rest, errors⟩) →
      Reads true r (Carries φ TellsElse (Stmt.map id φ) r') →
      ReadsAt ⟨t :: rest, errors⟩ true (do skip; r)
        (Carries φ TellsElse (Stmt.map id φ) (Grammar.statement (depth + 1))) :=
    fun ht hstep hr => .skip_bind ht hs (hr.imp fun _ _ _ h => h.skip hstep)
  split
  case h_1 hk =>
    refine skips (by simp [hk]) (fun rest errors => ?_) (local_forLoop hφ hexpression hstatement)
    rw [Grammar.statement, peek_bind_cons, hφ, hk]
    rfl
  case h_2 hk =>
    refine skips (by simp [hk]) (fun rest errors => ?_)
      (local_conditional hφ hexpression hstatement)
    rw [Grammar.statement, peek_bind_cons, hφ, hk]
    rfl
  case h_3 hk =>
    refine skips (by simp [hk]) (fun rest errors => ?_)
      ((local_print hφ hexpression).imp fun _ _ _ h => h.ofAllAlike)
    rw [Grammar.statement, peek_bind_cons, hφ, hk]
    rfl
  case h_4 hk =>
    refine skips (by simp [hk]) (fun rest errors => ?_)
      ((local_returnFrom hφ t hexpression).imp fun _ _ _ h => h.ofAllAlike)
    rw [Grammar.statement, peek_bind_cons, hφ, hk]
    rfl
  case h_5 hk =>
    refine skips (by simp [hk]) (fun rest errors => ?_) (local_whileLoop hφ hexpression hstatement)
    rw [Grammar.statement, peek_bind_cons, hφ, hk]
    rfl
  case h_6 hk =>
    have hblock : Local φ true AllAlike (Stmt.map id φ)
        (do return .block (← block (Grammar.declaration depth))) := by
      refine (local_block hφ hdeclaration).carries_freely (n := false) hφ fun body => ?_
      have hmap : Stmt.map id φ (.block body) = .block (body.map (Stmt.map id φ)) := by
        rw [Stmt.map, Stmt.mapAll_eq]
      rw [← hmap]
      exact reads_pure_carries _
    refine skips (by simp [hk]) (fun rest errors => ?_) (hblock.imp fun _ _ _ h => h.ofAllAlike)
    rw [Grammar.statement, peek_bind_cons, hφ, hk]
    rfl
  -- no keyword begins the statement, nor does one once the token has changed
  case h_7 hfor hif hprint hreturn hwhile hbrace =>
    have hother : (φ t).kind ∉
        [.forWord, .ifWord, .printWord, .returnWord, .whileWord, .leftBrace] := by
      rw [hφ]
      simpa using ⟨hfor, hif, hprint, hreturn, hwhile, hbrace⟩
    refine ((local_expressionStatement hφ hexpression _ hs).read_eq).imp ?_
    rintro u rest' s ⟨h, hread, hne⟩
    exact h.ofAllAlike.stay (statement_eq_expressionStatement hother depth) (hne rfl) hread

/-- What the two readers that lead into each other carry over, at each depth. -/
theorem local_declaration_and_statement (depth : Nat) :
    LocalDeclaration φ (Grammar.declaration depth) ∧ LocalStmt φ (Grammar.statement depth) := by
  induction depth with
  | zero => exact ⟨fun _ _ _ hs _ => reads_stop _ hs, reads_stop⟩
  | succ depth ih =>
    obtain ⟨hdeclaration, hstatement⟩ := ih
    have hattempted := local_attempted hφ hliteral hdeclaration hstatement
    refine ⟨fun t rest errors hs ht => ?_, local_statement_succ hφ hliteral hdeclaration hstatement⟩
    refine ((hattempted _ hs).recover hs ht).imp ?_
    rintro u rest' _ ⟨s, rfl, hcarries⟩
    exact ⟨s, rfl, hcarries.recover⟩

end

/-! ## No phrase begins with an `else` -/

/-- The first token, if there is one, is no `else`. -/
def BeginsNoElse (u : List Token) : Prop := ∀ t, u.head? = some t → t.kind ≠ .elseWord

theorem beginsNoElse_cons {t : Token} (h : t.kind ≠ .elseWord) (u : List Token) :
    BeginsNoElse (t :: u) := by
  intro t' ht'
  rw [List.head?_cons, Option.some.injEq] at ht'
  exact ht' ▸ h

theorem BeginsNoElse.append {u v : List Token} (hu : BeginsNoElse u) (hv : BeginsNoElse v) :
    BeginsNoElse (u ++ v) := by
  cases u with
  | nil => exact hv
  | cons t u => exact beginsNoElse_cons (hu t rfl) _

theorem Derives.beginsNoElse {p : Phrase} {u : List Token} (h : Derives p u) : BeginsNoElse u := by
  induction h with
  | absent | noArguments | noParameters | noMethods | noDeclarations => exact fun _ h => nomatch h
  | literal ht =>
    rcases ht with ht | ht
    · exact beginsNoElse_cons (by simp [ht]) _
    · exact beginsNoElse_cons (by simp [ht]) _
  | unary hop =>
    refine beginsNoElse_cons (fun h => ?_) _
    rw [h] at hop
    exact absurd hop (by decide)
  | @binary level _ _ _ _ _ _ hop _ ih =>
    refine ih.append (beginsNoElse_cons (fun h => ?_) _)
    rw [h] at hop
    cases level <;> exact absurd hop (by decide)
  | call _ hl _ _ _ ih =>
    rw [List.append_assoc]
    exact ih.append (beginsNoElse_cons (by simp [hl]) _)
  | get _ hdot _ ih | set _ hdot _ _ _ ih =>
    exact ih.append (beginsNoElse_cons (by simp [hdot]) _)
  | argument _ hcomma _ ih => exact ih.append (beginsNoElse_cons (by simp [hcomma]) _)
  | initialExpression _ hsemi ih | expressionStatement _ hsemi ih =>
    exact ih.append (beginsNoElse_cons (by simp [hsemi]) _)
  | method _ _ ih ih' | declaration _ _ ih ih' => exact ih.append ih'
  | tighter _ ih | present _ ih | lastArgument _ ih | initialVariable _ ih | «variable» _ ih
  | statement _ ih => exact ih
  | falseLiteral h | trueLiteral h | nilLiteral h | superMethod h | this h | name h | group h
  | assign h | lastParameter h | parameter h | function h | noInitial h | print h | returnFrom h
  | block h | whileLoop h | forLoop h | ifThen h | ifElse h | var h | varInitial h
  | functionDeclaration h | classOf h | subclassOf h =>
    exact beginsNoElse_cons (by simp [h]) _

/-! ## Programs -/

/-- Whether a program stops before a token. -/
def endsProgram (k : Kind) : Bool := decide (k = .eof)

theorem sees_endsProgram (t : Token) (rest : List Token) (errors : List SyntaxError) :
    sees .eof ⟨t :: rest, errors⟩ = .ok (endsProgram t.kind) ⟨t :: rest, errors⟩ := rfl

/-- A token list that parses without errors is read up to its end token, and the loop that reads it
goes on behind its declarations where other tokens follow. -/
theorem goesOn_of_parse {φ : Token → Token} (hφ : ∀ t, (φ t).kind = t.kind)
    (hliteral : ∀ t, (φ t).literal = t.literal) {depth : Nat} {tokens : List Token}
    (hend : HasEnd tokens) {program : List (Stmt Unit)}
    (h : parse depth tokens = .ok ⟨program, []⟩) :
    ∃ e rest, tokens = beforeEnd tokens ++ e :: rest ∧ e.kind = .eof ∧
      GoesOn φ TellsElse (Stmt.map id φ) (sees .eof) endsProgram
        (declaration depth) [] (beforeEnd tokens) (e :: rest) program := by
  obtain ⟨s, hprogram, hs⟩ := parse_eq_ok h
  have hdeclaration := (local_declaration_and_statement hφ hliteral depth).1
  have hreads := readsAt_manyUntil_more hφ TellsElse.refl sees_endsProgram rfl hdeclaration tokens
    [] ⟨tokens, []⟩ hend (Nat.le_refl _)
  have hmore : manyUntil.more (sees .eof) (declaration depth) tokens [] ⟨tokens, []⟩ =
      .ok program s := hprogram
  unfold ReadsAt at hreads
  rw [hmore] at hreads
  obtain ⟨u, found, hreach, _, hgoes⟩ := hreads
  have hfound : found = [] := by simpa [hs] using hreach.errors_eq
  obtain ⟨e, rest, hrest⟩ := (hreach.hasEnd hend).exists_cons
  have hgo := hgoes hfound
  rw [hrest] at hgo
  have he : e.kind = .eof := by
    obtain ⟨_, _, hstops, _⟩ := hgo
    simpa [endsProgram] using hstops e rfl
  have htokens : tokens = u ++ e :: rest := by simpa [hrest] using hreach.rest_eq
  have hbefore : beforeEnd tokens = u := by
    rw [htokens]
    exact beforeEnd_append hreach.noEnd he
  rw [hbefore]
  exact ⟨e, rest, htokens, he, hgo⟩

/-- A token list that parses without errors does not begin with an `else`. -/
theorem beginsNoElse_of_parse {depth : Nat} {tokens : List Token} (hend : HasEnd tokens)
    {program : List (Stmt Unit)} (h : parse depth tokens = .ok ⟨program, []⟩) :
    BeginsNoElse tokens := by
  obtain ⟨e, rest, htokens, he, _⟩ :=
    goesOn_of_parse (fun _ => rfl) (fun _ => rfl) (φ := id) hend h
  rw [htokens]
  have hderives := derives_of_parse hend h rfl
  exact hderives.beginsNoElse.append (beginsNoElse_cons (by simp [he]) rest)

end Grammar

/-- **Two token lists that parse without errors form the two programs one behind the other** when
the end token of the first is left out, also if the tokens of the second are changed in what the
grammar does not look at. -/
theorem parse_append {φ : Token → Token} (hφ : ∀ t, (φ t).kind = t.kind)
    (hliteral : ∀ t, (φ t).literal = t.literal) {depth : Nat} {u v : List Token} {e : Token}
    (hu : NoEnd u) (he : e.kind = .eof) (hv : HasEnd v) {program more : List (Stmt Unit)}
    (hprogram : parse depth (u ++ [e]) = .ok ⟨program, []⟩)
    (hmore : parse depth v = .ok ⟨more, []⟩) :
    parse depth (u ++ v.map φ) = .ok ⟨program ++ more.map (Stmt.map id φ), []⟩ := by
  have hend : HasEnd (u ++ [e]) := ⟨e, by simp, he⟩
  have hbefore : beforeEnd (u ++ [e]) = u := beforeEnd_append hu he
  obtain ⟨e₁, rest₁, htokens, he₁, as, has, _, hgo⟩ :=
    Grammar.goesOn_of_parse (fun _ => rfl) (fun _ => rfl) (φ := id) hend hprogram
  obtain ⟨e₂, rest₂, hv₂, he₂, bs, hbs, _, hgo'⟩ := Grammar.goesOn_of_parse hφ hliteral hv hmore
  obtain rfl : as = program := has.symm
  obtain rfl : bs = more := hbs.symm
  have hsame : as.map (Stmt.map id id) = as :=
    (List.map_congr_left fun s _ => Stmt.unmark_eq s).trans (List.map_id' as)
  rw [hbefore, List.map_id, hsame] at hgo
  -- The loop goes on behind the first program: the tokens left begin with no `else`.
  obtain ⟨t, v', rfl⟩ := hv.exists_cons
  have hlike : Reader.Like Reader.TellsElse (e₁ :: rest₁) (φ t) := by
    have ht := Grammar.beginsNoElse_of_parse hv hmore t rfl
    exact ⟨e₁, rfl, by simp [Reader.TellsElse, he₁, hφ, ht]⟩
  obtain ⟨turns, hturns, hfirst⟩ :=
    hgo (φ t) (v'.map φ) [] (u ++ (t :: v').map φ) [] hlike (Nat.le_refl _)
  -- It goes on behind the second, up to the end token.
  have hlike' : Reader.Like Reader.TellsElse (e₂ :: rest₂) (φ e₂) :=
    ⟨e₂, rfl, by simp [Reader.TellsElse, hφ]⟩
  have hmap : (t :: v').map φ = (beforeEnd (t :: v')).map φ ++ φ e₂ :: rest₂.map φ := by
    rw [← List.map_cons, ← List.map_append, ← hv₂]
  rw [← List.map_cons, hmap] at hturns hfirst
  obtain ⟨turns', hturns', hsecond⟩ :=
    hgo' (φ e₂) (rest₂.map φ) [] turns (as.reverse ++ []) hlike' hturns
  have hstop : Grammar.endsProgram (φ e₂).kind = true := by simp [Grammar.endsProgram, hφ, he₂]
  have hrun : Grammar.program depth ⟨u ++ (t :: v').map φ, []⟩ =
      .ok (as ++ bs.map (Stmt.map id φ)) ⟨φ e₂ :: rest₂.map φ, []⟩ := by
    rw [hmap]
    refine (hfirst.trans hsecond).trans ?_
    rw [Reader.manyUntil_more_of_stops Grammar.sees_endsProgram hstop hturns']
    simp
  rw [parse, hrun]

end LoxLang
