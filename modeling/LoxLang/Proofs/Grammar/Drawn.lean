import LoxLang.Proofs.Grammar.Changing
import LoxLang.Proofs.Grammar.Termination
import LoxLang.Proofs.Scope.References
import Mathlib.Algebra.BigOperators.Group.List.Basic
import Mathlib.Algebra.Order.Group.Multiset
import Mathlib.Tactic.Abel

/-! # References are drawn from tokens

Each reference of a program that was parsed is made of a token of its own: of one occurrence in the
token list, which no other reference is made of.  This holds whatever errors the tokens have.  It is
the same occurrence in all token lists of the same kinds and data, so it is no matter whether tokens
look alike (`parse_references`).

The argument treats tokens as a stock that is used up.  A reader `Draws` what its result is made of
from the tokens that it holds and those that are left; what it does not use is gone.  A reader that
made two references of one token, moved a clause to two places, or went back over tokens it had
read would break the contract.  Read from a token list whose tokens are numbered, and so differ, the
references then have different numbers. -/

namespace LoxLang

/-- The tokens that references are made of. -/
def drawn {ι : Type} (rs : List (RefUse × Ref ι)) : Multiset Token := ↑(rs.map fun r => r.2.name)

section
variable {ι : Type}

@[simp] theorem drawn_nil : drawn ([] : List (RefUse × Ref ι)) = 0 := rfl

@[simp] theorem drawn_cons (r : RefUse × Ref ι) (rs : List (RefUse × Ref ι)) :
    drawn (r :: rs) = {r.2.name} + drawn rs := rfl

@[simp] theorem drawn_append (rs rs' : List (RefUse × Ref ι)) :
    drawn (rs ++ rs') = drawn rs + drawn rs' := by
  rw [drawn, List.map_append, ← Multiset.coe_add]
  rfl

/-- What is made of a list, item by item. -/
theorem drawn_flatMap {α : Type} (f : α → List (RefUse × Ref ι)) (as : List α) :
    drawn (as.flatMap f) = (as.map fun a => drawn (f a)).sum := by
  induction as with
  | nil => rfl
  | cons a as ih => rw [List.flatMap_cons, drawn_append, ih, List.map_cons, List.sum_cons]

end

namespace Reader

variable {α β : Type}

/-- The contract of a reader at one cursor that holds some tokens: what its result is made of, and
the tokens that are left then, come from those it holds and those that were left before. -/
def DrawsAt (s : Cursor) (held : Multiset Token) (r : Reader α) (T : α → Multiset Token) : Prop :=
  match r s with
  | .ok a s' => T a + s'.rest ≤ held + s.rest
  | .error _ s' => (s'.rest : Multiset Token) ≤ held + s.rest

/-- The contract of a reader that holds some tokens. -/
def Draws (held : Multiset Token) (r : Reader α) (T : α → Multiset Token) : Prop :=
  ∀ s, DrawsAt s held r T

/-- What an optional result is made of. -/
def ifAny (T : α → Multiset Token) : Option α → Multiset Token
  | none => 0
  | some a => T a

variable {held : Multiset Token} {r : Reader α} {T : α → Multiset Token} {U : β → Multiset Token}

/-! ## Composition -/

theorem draws_pure {a : α} (h : T a ≤ held) : Draws held (pure a) T :=
  fun _ => add_le_add_left h _

/-- What is read behind a reader may be made of what that reader has drawn. -/
theorem DrawsAt.bind {s : Cursor} {q : α → Reader β} (hr : DrawsAt s 0 r T)
    (hq : ∀ a, Draws (T a + held) (q a) U) : DrawsAt s held (r >>= q) U := by
  unfold DrawsAt at hr ⊢
  rw [EStateM.bind_apply]
  cases hrun : r s with
  | ok a s' =>
    rw [hrun, zero_add] at hr
    have hall : T a + held + s'.rest ≤ held + s.rest := by
      rw [add_comm (T a), add_assoc]
      exact add_le_add_right hr held
    have hgo := hq a s'
    unfold DrawsAt at hgo
    dsimp only
    split at hgo
    all_goals
      rename_i heq
      rw [heq]
      exact hgo.trans hall
  | error i s' =>
    rw [hrun, zero_add] at hr
    exact hr.trans (Multiset.le_add_left _ _)

theorem Draws.bind {q : α → Reader β} (hr : Draws 0 r T)
    (hq : ∀ a, Draws (T a + held) (q a) U) : Draws held (r >>= q) U :=
  fun s => (hr s).bind hq

/-- What was drawn need not be used. -/
theorem DrawsAt.imp {s : Cursor} {T' : α → Multiset Token} (h : DrawsAt s held r T)
    (hT : ∀ a, T' a ≤ T a) : DrawsAt s held r T' := by
  unfold DrawsAt at h ⊢
  split at h
  · exact (add_le_add_left (hT _) _).trans h
  · exact h

theorem Draws.imp {T' : α → Multiset Token} (h : Draws held r T) (hT : ∀ a, T' a ≤ T a) :
    Draws held r T' :=
  fun s => (h s).imp hT

/-- More may be held than is used. -/
theorem Draws.hold {held' : Multiset Token} (h : Draws held' r T) (hheld : held' ≤ held) :
    Draws held r T := by
  intro s
  have hs := h s
  have hall := add_le_add_left hheld (s.rest : Multiset Token)
  unfold DrawsAt at hs ⊢
  split at hs
  all_goals exact hs.trans hall

theorem Draws.ignore (h : Draws held r T) : Draws held r fun _ => 0 :=
  h.imp fun a => Multiset.zero_le (T a)

theorem Draws.map {f : α → β} (h : Draws 0 r T) (hf : ∀ a, U (f a) ≤ T a) :
    Draws 0 (f <$> r) U := by
  rw [map_eq_pure_bind]
  exact h.bind fun a => draws_pure ((hf a).trans (Multiset.le_add_right _ _))

theorem Draws.ite {p : Prop} [Decidable p] {r' : Reader α} (h : Draws held r T)
    (h' : Draws held r' T) : Draws held (if p then r else r') T := by
  split
  · exact h
  · exact h'

/-! ## Steps -/

theorem draws_stop (fault : Fault) : Draws 0 (stop fault : Reader α) T :=
  fun s => Multiset.le_add_left (s.rest : Multiset Token) 0

theorem draws_throw : Draws held (throw .syntaxError : Reader α) T :=
  fun s => Multiset.le_add_left (s.rest : Multiset Token) held

/-- To look at the next token draws nothing. -/
theorem DrawsAt.peek_bind {s : Cursor} {f : Token → Reader α}
    (h : ∀ t rest errors, s = ⟨t :: rest, errors⟩ → DrawsAt s held (f t) T) :
    DrawsAt s held (peek >>= f) T := by
  obtain ⟨rest, errors⟩ := s
  cases rest with
  | nil => exact Multiset.le_add_left _ held
  | cons t rest => exact h t rest errors rfl

theorem Draws.peek_bind {f : Token → Reader α} (h : ∀ t, Draws held (f t) T) :
    Draws held (peek >>= f) T :=
  fun s => .peek_bind fun t _ _ _ => h t s

/-- A token that is taken is held. -/
theorem DrawsAt.skip_bind {t : Token} {rest : List Token} {errors : List SyntaxError}
    {q : Reader α} (h : Draws ({t} + held) q T) :
    DrawsAt ⟨t :: rest, errors⟩ held (skip >>= fun _ => q) T := by
  have h := h ⟨rest, errors⟩
  have hall : ({t} + held + rest : Multiset Token) = held + (t :: rest : List Token) := by
    rw [← Multiset.cons_coe, ← Multiset.singleton_add]
    abel
  unfold DrawsAt at h ⊢
  change match q ⟨rest, errors⟩ with
    | .ok a s' => T a + (s'.rest : Multiset Token) ≤ held + (t :: rest : List Token)
    | .error _ s' => (s'.rest : Multiset Token) ≤ held + (t :: rest : List Token)
  rw [← hall]
  exact h

theorem draws_record (fault : SyntaxFault) (place : Token) :
    Draws 0 (record fault place) fun _ => 0 :=
  fun _ => le_refl _

theorem draws_fail (what : Expectation) : Draws 0 (fail what : Reader α) T :=
  .peek_bind fun t => (draws_record (.expected what) t).bind fun _ => draws_throw

theorem draws_upcoming : Draws 0 upcoming fun _ => 0 := fun _ => le_refl _

theorem draws_accept? (wanted : Kind → Bool) : Draws 0 (accept? wanted) (ifAny ({·})) := by
  refine fun s => .peek_bind fun t rest errors hs => ?_
  split
  · rw [hs]
    exact .skip_bind (draws_pure (Multiset.le_add_right _ _))
  · exact draws_pure (le_refl 0) s

theorem draws_skipped (kind : Kind) : Draws 0 (skipped kind) fun _ => 0 :=
  (draws_accept? _).bind fun _ => draws_pure (Multiset.zero_le _)

theorem draws_sees (kind : Kind) : Draws 0 (sees kind) fun _ => 0 :=
  .peek_bind fun _ => draws_pure (le_refl 0)

theorem draws_expect (kind : Kind) (what : Expectation) : Draws 0 (expect kind what) ({·}) := by
  refine (draws_accept? _).bind fun o => ?_
  cases o with
  | none => exact draws_fail what
  | some t => exact draws_pure (Multiset.le_add_right _ _)

/-- A token that has to be there, and that nothing is made of. -/
theorem draws_passed (kind : Kind) (what : Expectation) :
    Draws 0 (expect kind what) fun _ => 0 :=
  (draws_expect kind what).ignore

/-! ## Repetition and recovery -/

theorem draws_leftChain {ops : Kind → Bool} {join : α → Token → α → α} (h : Draws 0 r T)
    (hjoin : ∀ a op b, T (join a op b) ≤ T b + T a) : Draws 0 (leftChain ops join r) T := by
  have more : ∀ turns left, Draws (T left) (leftChain.more ops join r turns left) T := by
    intro turns
    induction turns with
    | nil => exact fun left s => Multiset.le_add_left _ (T left)
    | cons turn turns ih =>
      intro left
      refine (draws_accept? ops).ignore.bind fun o => ?_
      rw [zero_add]
      cases o with
      | none => exact draws_pure (le_refl _)
      | some op => exact h.bind fun b => (ih (join left op b)).hold (hjoin left op b)
  refine draws_upcoming.bind fun turns => h.bind fun a => ?_
  rw [zero_add, add_zero]
  exact more turns a

theorem draws_commaSeparated {excess : SyntaxFault} (h : Draws 0 r T) :
    Draws 0 (commaSeparated excess r) fun as => (as.map T).sum := by
  have more : ∀ turns count items, Draws (items.map T).sum
      (commaSeparated.more excess r turns count items) fun as => (as.map T).sum := by
    intro turns
    induction turns with
    | nil => exact fun count items s => Multiset.le_add_left _ (items.map T).sum
    | cons turn turns ih =>
      intro count items
      have hitem : Draws (items.map T).sum (do
          let items := (← r) :: items
          if ← skipped .comma then commaSeparated.more excess r turns (count + 1) items
          else return items.reverse) fun as => (as.map T).sum := by
        refine h.bind fun a => (draws_skipped _).bind fun _ => ?_
        rw [zero_add, ← List.sum_cons, ← List.map_cons]
        refine (ih _ _).ite (draws_pure ?_)
        rw [List.map_reverse, List.sum_reverse]
      rw [commaSeparated.more]
      split
      · refine .peek_bind fun t => (draws_record excess t).bind fun _ => ?_
        rw [zero_add]
        exact hitem
      · exact hitem
  refine draws_upcoming.bind fun turns => ?_
  rw [zero_add]
  exact more turns 0 []

theorem draws_manyUntil {done : Reader Bool} {item : Reader (Option α)}
    (hdone : Draws 0 done fun _ => 0) (h : Draws 0 item (ifAny T)) :
    Draws 0 (manyUntil done item) fun as => (as.map T).sum := by
  have more : ∀ turns items, Draws (items.map T).sum (manyUntil.more done item turns items)
      fun as => (as.map T).sum := by
    intro turns
    induction turns with
    | nil => exact fun items s => Multiset.le_add_left _ (items.map T).sum
    | cons turn turns ih =>
      intro items
      refine hdone.bind fun b => ?_
      rw [zero_add]
      refine Draws.ite (draws_pure ?_) (h.bind fun o => ?_)
      · rw [List.map_reverse, List.sum_reverse]
      · cases o with
        | none => exact (ih items).hold (Multiset.le_add_left _ _)
        | some a =>
          refine (ih (a :: items)).hold ?_
          rw [List.map_cons, List.sum_cons]
          exact le_refl _
  refine draws_upcoming.bind fun turns => ?_
  rw [zero_add]
  exact more turns []

theorem draws_recover (h : Draws 0 r T) : Draws 0 (recover r) (ifAny T) := by
  intro s
  have hs := h s
  unfold DrawsAt at hs ⊢
  unfold recover
  cases hrun : r s with
  | ok a s' =>
    rw [hrun] at hs
    exact hs
  | error i s' =>
    rw [hrun] at hs
    cases i with
    | fault f => exact hs
    | syntaxError =>
      cases hresume : resume s'.rest with
      | none => simpa only [hresume] using hs
      | some rest =>
        have hle : (rest : Multiset Token) ≤ s'.rest :=
          Multiset.coe_le.mpr (suffix_of_resume hresume).sublist.subperm
        simp only [hresume]
        calc ifAny T none + (rest : Multiset Token) = rest := zero_add _
          _ ≤ s'.rest := hle
          _ ≤ 0 + s.rest := hs

end Reader

namespace Grammar

open Reader

/-! ## Expressions -/

/-- A reader of expressions draws their references. -/
def DrawsExpr (e : Reader (Expr Unit)) : Prop := Draws 0 e fun e => drawn e.references

section
variable {e e' : Reader (Expr Unit)} (h : DrawsExpr e)

include h

theorem draws_binaryChain (ops : Kind → Bool) : DrawsExpr (leftChain ops .binary e) :=
  draws_leftChain h fun _ _ _ => by simp [Expr.references, add_comm]

theorem draws_disjunction : DrawsExpr (disjunction e) := by
  have hequality := draws_binaryChain (draws_binaryChain (draws_binaryChain
    (draws_binaryChain h isFactorOp) isTermOp) isComparisonOp) isEqualityOp
  have hlogical : ∀ (left : Expr Unit) op right,
      drawn (Expr.logical left op right).references ≤
        drawn right.references + drawn left.references := by simp [Expr.references, add_comm]
  exact draws_leftChain (draws_leftChain hequality hlogical) hlogical

/-- A target that turns out to be assigned to is taken apart, and its reference is used once. -/
theorem draws_assignment (h' : DrawsExpr e') : DrawsExpr (assignment e e') := by
  refine (draws_disjunction h).bind fun target => (draws_accept? _).ignore.bind fun o => ?_
  rw [add_zero, zero_add]
  cases o with
  | none => exact draws_pure (le_refl _)
  | some equals =>
    refine h'.bind fun value => ?_
    have hkept : Draws (drawn value.references + drawn target.references) (do
        record .invalidTarget equals
        return target) fun e => drawn e.references := by
      refine (draws_record _ equals).bind fun _ => draws_pure ?_
      rw [zero_add]
      exact Multiset.le_add_left _ _
    cases target with
    | nameRef ref => exact draws_pure (by simp [Expr.references])
    | get object name => exact draws_pure (by simp [Expr.references])
    | _ => exact hkept

theorem draws_primary : DrawsExpr (primary e) := by
  refine fun s => .peek_bind fun t rest errors hs => ?_
  rw [hs]
  split
  case h_1 | h_2 | h_3 | h_4 | h_5 => exact .skip_bind (draws_pure (by simp [Expr.references]))
  case h_6 =>
    exact .skip_bind ((draws_passed _ _).bind fun _ => (draws_passed _ _).bind fun _ =>
      draws_pure (by simp [Expr.references, reference]))
  case h_7 | h_8 => exact .skip_bind (draws_pure (by simp [Expr.references, reference]))
  case h_9 =>
    exact .skip_bind (h.bind fun inner => (draws_passed _ _).bind fun _ =>
      draws_pure (by simp [Expr.references]))
  case h_10 => exact (draws_fail _).hold (Multiset.zero_le _) _

theorem draws_arguments :
    Draws 0 (arguments e) fun es => (es.map fun e => drawn e.references).sum :=
  (draws_sees _).bind fun _ =>
    (draws_pure (le_refl _)).ite ((draws_commaSeparated h).hold (Multiset.zero_le _))

theorem draws_callChain (turns : List Token) (callee : Expr Unit) :
    Draws (drawn callee.references) (callChain e turns callee) fun e => drawn e.references := by
  induction turns generalizing callee with
  | nil => exact (draws_stop _).hold (Multiset.zero_le _)
  | cons turn turns ih =>
    refine (draws_skipped _).bind fun _ => Draws.ite ?_ ?_
    · refine (draws_arguments h).bind fun es => (draws_passed _ _).bind fun paren =>
        (ih (.call callee paren es)).hold ?_
      simp [Expr.references, Expr.referencesAll_eq, drawn_flatMap, add_comm]
    · refine (draws_skipped _).bind fun _ => Draws.ite ?_ (draws_pure (by simp))
      exact (draws_passed _ _).bind fun name =>
        (ih (.get callee name)).hold (by simp [Expr.references])

theorem draws_call : DrawsExpr (call e) :=
  draws_upcoming.bind fun turns => (draws_primary h).bind fun callee =>
    (draws_callChain h turns callee).hold (by simp)

end

/-- Expressions and operands, by the depth to which they may nest. -/
theorem draws_expression (depth : Nat) :
    DrawsExpr (expression depth) ∧ DrawsExpr (unary depth) := by
  induction depth with
  | zero => exact ⟨draws_stop _, draws_stop _⟩
  | succ depth ih =>
    refine ⟨draws_assignment ih.2 ih.1, (draws_accept? _).ignore.bind fun o => ?_⟩
    cases o with
    | none => exact draws_call ih.1
    | some op => exact ih.2.bind fun operand => draws_pure (by simp [Expr.references])

/-! ## Statements and declarations -/

/-- A reader of statements draws their references. -/
def DrawsStmt (s : Reader (Stmt Unit)) : Prop := Draws 0 s fun s => drawn s.references

/-- A reader of declarations, which may fail, draws their references. -/
def DrawsDeclaration (d : Reader (Option (Stmt Unit))) : Prop :=
  Draws 0 d (ifAny fun s => drawn s.references)

section
variable {d : Reader (Option (Stmt Unit))} {e : Reader (Expr Unit)} {s : Reader (Stmt Unit)}

theorem drawn_body (body : List (Stmt Unit)) :
    drawn (Stmt.referencesAll body) = (body.map fun s => drawn s.references).sum := by
  rw [Stmt.referencesAll_eq, drawn_flatMap]

theorem draws_blockEnd : Draws 0 (return (← sees .rightBrace) || (← sees .eof))
    fun _ : Bool => 0 :=
  (draws_sees _).bind fun _ => (draws_sees _).bind fun _ => draws_pure (Multiset.zero_le _)

theorem draws_block (h : DrawsDeclaration d) :
    Draws 0 (block d) fun body => drawn (Stmt.referencesAll body) := by
  refine (draws_manyUntil draws_blockEnd h).bind fun body => (draws_passed _ _).bind fun _ =>
    draws_pure ?_
  simp [drawn_body]

theorem draws_parameters : Draws 0 parameters fun _ => 0 :=
  (draws_sees _).bind fun _ => (draws_pure (le_refl _)).ite
    ((draws_commaSeparated (draws_passed _ _)).ignore.hold (Multiset.zero_le _))

theorem draws_function (kind : CallableKind) (h : DrawsDeclaration d) :
    Draws 0 (function kind d) fun f => drawn (Function.references f) :=
  (draws_passed _ _).bind fun _ => (draws_passed _ _).bind fun _ =>
    draws_parameters.bind fun _ => (draws_passed _ _).bind fun _ =>
      (draws_passed _ _).bind fun _ => (draws_block h).bind fun _ =>
        draws_pure (by simp [Function.references])

theorem draws_superclass :
    Draws 0 superclass (ifAny fun parent => ({parent.name} : Multiset Token)) := by
  refine (draws_skipped _).bind fun _ => Draws.ite ?_ (draws_pure (Multiset.zero_le _))
  exact (draws_expect _ _).bind fun name => draws_pure (by simp [ifAny, reference])

theorem draws_classOf (h : DrawsDeclaration d) : DrawsStmt (classOf d) := by
  have hmethod : Draws 0 (some <$> function .method d)
      (ifAny fun f => drawn (Function.references f)) :=
    (draws_function _ h).map fun _ => le_refl _
  refine (draws_passed _ _).bind fun name => draws_superclass.bind fun parent =>
    (draws_passed _ _).bind fun _ => (draws_manyUntil draws_blockEnd hmethod).bind
      fun methods => (draws_passed _ _).bind fun _ => draws_pure ?_
  have hmethods := drawn_flatMap Function.references methods
  rw [← Function.referencesAll_eq] at hmethods
  cases parent with
  | none => simp [Stmt.references, hmethods, ifAny]
  | some parent => simp [Stmt.references, hmethods, ifAny, add_comm]

section
variable (he : DrawsExpr e)

include he

theorem draws_someExpression :
    Draws 0 (some <$> e) fun o => drawn (Expr.referencesOption o) :=
  he.map fun _ => le_refl _

theorem draws_unlessSees (kind : Kind) :
    Draws 0 (unlessSees kind e) fun o => drawn (Expr.referencesOption o) := by
  refine (draws_sees _).bind fun _ => Draws.ite ?_ ?_
  · exact draws_pure (Multiset.zero_le _)
  · exact (draws_someExpression he).hold (Multiset.zero_le _)

theorem draws_var : DrawsStmt (var e) := by
  refine (draws_passed _ _).bind fun name => ?_
  have hend : ∀ initial : Option (Expr Unit), Draws (drawn (Expr.referencesOption initial)) (do
      let _ ← expect .semicolon .variableEnd
      return Stmt.var name initial) fun s => drawn s.references :=
    fun initial => (draws_passed _ _).bind fun _ => draws_pure (by simp [Stmt.references])
  refine (draws_skipped _).bind fun _ => Draws.ite ?_ ?_
  · exact (draws_someExpression he).bind fun o => (hend o).hold (by simp)
  · exact (hend none).hold (Multiset.zero_le _)

theorem draws_expressionStatement : DrawsStmt (expressionStatement e) :=
  he.bind fun _ => (draws_passed _ _).bind fun _ => draws_pure (by simp [Stmt.references])

theorem draws_print : DrawsStmt (print e) :=
  he.bind fun _ => (draws_passed _ _).bind fun _ => draws_pure (by simp [Stmt.references])

theorem draws_returnFrom (keyword : Token) : DrawsStmt (returnFrom keyword e) :=
  (draws_unlessSees he _).bind fun _ => (draws_passed _ _).bind fun _ =>
    draws_pure (by simp [Stmt.references])

theorem draws_forInitial : DrawsDeclaration (forInitial e) := by
  have hsome : ∀ {s : Reader (Stmt Unit)}, DrawsStmt s → DrawsDeclaration (some <$> s) :=
    fun hs => hs.map fun _ => le_refl _
  refine (draws_skipped _).bind fun _ => Draws.ite (draws_pure (Multiset.zero_le _)) ?_
  refine (draws_skipped _).bind fun _ => Draws.ite ?_ ?_
  · exact (hsome (draws_var he)).hold (Multiset.zero_le _)
  · exact (hsome (draws_expressionStatement he)).hold (Multiset.zero_le _)

omit he in
/-- Each clause of a loop comes to stand in one place. -/
theorem drawn_forLoop (initial : Option (Stmt Unit)) (condition step : Option (Expr Unit))
    (body : Stmt Unit) :
    drawn (Stmt.forLoop initial condition step body).references =
      ifAny (fun s => drawn s.references) initial + drawn (Expr.referencesOption condition) +
        drawn (Expr.referencesOption step) + drawn body.references := by
  cases initial <;> cases condition <;> cases step <;>
    simp [Stmt.forLoop, Stmt.references, Stmt.referencesAll, Expr.referencesOption,
      Expr.references, ifAny, add_comm, add_left_comm, add_assoc]

theorem draws_forLoop (hs : DrawsStmt s) : DrawsStmt (forLoop e s) := by
  refine (draws_passed _ _).bind fun _ => (draws_forInitial he).bind fun initial =>
    (draws_unlessSees he _).bind fun condition => (draws_passed _ _).bind fun _ =>
      (draws_unlessSees he _).bind fun step => (draws_passed _ _).bind fun _ =>
        hs.bind fun body => draws_pure ?_
  rw [drawn_forLoop]
  simp [add_comm, add_left_comm]

theorem draws_conditional (hs : DrawsStmt s) : DrawsStmt (conditional e s) := by
  refine (draws_passed _ _).bind fun _ => he.bind fun condition =>
    (draws_passed _ _).bind fun _ => hs.bind fun body =>
      (draws_skipped _).bind fun _ => Draws.ite ?_ ?_
  · exact hs.bind fun other => draws_pure
      (by simp [Stmt.references, add_comm, add_assoc])
  · exact draws_pure (by simp [Stmt.references, add_comm])

theorem draws_whileLoop (hs : DrawsStmt s) : DrawsStmt (whileLoop e s) :=
  (draws_passed _ _).bind fun _ => he.bind fun condition =>
    (draws_passed _ _).bind fun _ => hs.bind fun body =>
      draws_pure (by simp [Stmt.references, add_comm])

end

end

/-- Declarations and statements, by the depth to which they may nest. -/
theorem draws_declaration (depth : Nat) :
    DrawsDeclaration (declaration depth) ∧ DrawsStmt (statement depth) := by
  induction depth with
  | zero => exact ⟨draws_stop _, draws_stop _⟩
  | succ depth ih =>
    obtain ⟨hdeclaration, hstatement⟩ := ih
    have he := (draws_expression depth).1
    constructor
    · refine draws_recover fun s => .peek_bind fun t rest errors hs => ?_
      rw [hs]
      split
      · exact .skip_bind ((draws_classOf hdeclaration).hold (Multiset.zero_le _))
      · exact .skip_bind ((draws_function _ hdeclaration).bind fun f =>
          draws_pure (by simp [Stmt.references]))
      · exact .skip_bind ((draws_var he).hold (Multiset.zero_le _))
      · exact hstatement _
    · refine fun s => .peek_bind fun t rest errors hs => ?_
      rw [hs]
      split
      · exact .skip_bind ((draws_forLoop he hstatement).hold (Multiset.zero_le _))
      · exact .skip_bind ((draws_conditional he hstatement).hold (Multiset.zero_le _))
      · exact .skip_bind ((draws_print he).hold (Multiset.zero_le _))
      · exact .skip_bind ((draws_returnFrom he _).hold (Multiset.zero_le _))
      · exact .skip_bind ((draws_whileLoop he hstatement).hold (Multiset.zero_le _))
      · exact .skip_bind ((draws_block hdeclaration).bind fun body =>
          draws_pure (by simp [Stmt.references]))
      · exact draws_expressionStatement he _

/-- Whatever errors the tokens have, what is parsed from them has its references from the tokens. -/
theorem drawn_of_parse {depth : Nat} {tokens : List Token} {parsed : Parsed}
    (h : parse depth tokens = .ok parsed) :
    drawn (Stmt.referencesAll parsed.program) ≤ tokens := by
  obtain ⟨s, hprogram, _⟩ := parse_eq_ok h
  have hdraws : DrawsAt ⟨tokens, []⟩ 0 (program depth) _ :=
    draws_manyUntil (draws_sees .eof) (draws_declaration depth).1 _
  unfold DrawsAt at hdraws
  rw [hprogram, zero_add] at hdraws
  rw [drawn_body]
  exact (Multiset.le_add_right _ _).trans hdraws

end Grammar

/-! ## Positions of tokens -/

/-- Two tokens are of the same kind and carry the same data. -/
def Token.SameForm (t t' : Token) : Prop := t'.kind = t.kind ∧ t'.literal = t.literal

/-- Two token lists are of the same forms, one token after the other. -/
abbrev SameForms (tokens tokens' : List Token) : Prop := List.Forall₂ Token.SameForm tokens tokens'

/-- The tokens, each with its position for a line. -/
def numbered (tokens : List Token) : List Token := tokens.mapIdx fun i t => { t with line := i }

/-- The position of a numbered token. -/
def Token.position (t : Token) : Nat := t.line.toNat

/-- A numbered token with the text and the line of the token at its position. -/
def textFrom (tokens : List Token) (t : Token) : Token :=
  let t' : Token := tokens[t.position]?.getD t
  { t with lexeme := t'.lexeme, line := t'.line }

section
variable {tokens tokens' : List Token}

theorem map_position_numbered (tokens : List Token) :
    (numbered tokens).map Token.position = List.range tokens.length := by
  refine List.ext_getElem (by simp [numbered]) fun i _ _ => ?_
  simp [numbered, Token.position]

/-- In a list of the same forms stands, at a position, the numbered token with its text. -/
theorem textFrom_numbered (h : SameForms tokens tokens') {t : Token} {i : Nat}
    (ht : (numbered tokens)[i]? = some t) :
    t.position = i ∧ tokens'[i]? = some (textFrom tokens' t) := by
  rw [numbered, List.getElem?_mapIdx] at ht
  obtain ⟨u, hu, rfl⟩ := Option.map_eq_some_iff.mp ht
  obtain ⟨hi, rfl⟩ := List.getElem?_eq_some_iff.mp hu
  have hi' : i < tokens'.length := h.length_eq ▸ hi
  obtain ⟨hkind, hliteral⟩ := h.get hi hi'
  have htext : textFrom tokens' { tokens[i] with line := (i : Int) } =
      ⟨tokens[i].kind, tokens'[i].lexeme, tokens[i].literal, tokens'[i].line⟩ := by
    simp [textFrom, Token.position, hi']
  refine ⟨rfl, ?_⟩
  rw [htext, List.getElem?_eq_getElem hi', ← show tokens'[i].kind = tokens[i].kind from hkind,
    ← show tokens'[i].literal = tokens[i].literal from hliteral]

theorem map_textFrom_numbered (h : SameForms tokens tokens') :
    (numbered tokens).map (textFrom tokens') = tokens' := by
  refine List.ext_getElem? fun i => ?_
  rw [List.getElem?_map]
  cases ht : (numbered tokens)[i]? with
  | some t => exact (textFrom_numbered h ht).2.symm
  | none =>
    have hlength : (numbered tokens).length = tokens'.length := by
      rw [numbered, List.length_mapIdx, h.length_eq]
    rw [List.getElem?_eq_none_iff, hlength, ← List.getElem?_eq_none_iff] at ht
    exact ht.symm

end

/-- **Each reference of a parsed program is made of a token of its own**, whatever errors the tokens
have: there are positions in the token list, one for each reference and no two of them the same, at
which the tokens of the references stand.  The positions depend only on the forms of the tokens. -/
theorem parse_references {depth : Nat} {tokens : List Token} {parsed : Parsed}
    (h : parse depth tokens = .ok parsed) :
    ∃ positions : List Nat, positions.Nodup ∧ (∀ p ∈ positions, p < tokens.length) ∧
      ∀ tokens', SameForms tokens tokens' → ∃ parsed', parse depth tokens' = .ok parsed' ∧
        (Stmt.referencesAll parsed'.program).map (fun r => some r.2.name) =
          positions.map fun p => tokens'[p]? := by
  -- the tokens are the numbered ones with their texts, and any of the same forms are, too
  have hread : ∀ tokens', SameForms tokens tokens' → parse depth tokens' =
      (parse depth (numbered tokens)).map (Parsed.map (textFrom tokens')) := fun tokens' hforms =>
    (congrArg (parse depth) (map_textFrom_numbered hforms)).symm.trans
      (parse_map (φ := textFrom tokens') (fun _ => rfl) (fun _ => rfl) depth (numbered tokens))
  have hsame : SameForms tokens tokens := List.forall₂_same.mpr fun t _ => ⟨rfl, rfl⟩
  obtain ⟨found, hfound⟩ : ∃ found, parse depth (numbered tokens) = .ok found := by
    rw [hread tokens hsame] at h
    cases hnumbered : parse depth (numbered tokens) with
    | ok found => exact ⟨found, rfl⟩
    | error f =>
      rw [hnumbered] at h
      cases h
  have hdrawn := Grammar.drawn_of_parse hfound
  have hpositions : (((Stmt.referencesAll found.program).map fun r => r.2.name).map
      Token.position).Subperm (List.range tokens.length) := by
    rw [← map_position_numbered]
    exact Multiset.coe_le.mp (Multiset.map_le_map hdrawn)
  refine ⟨_, ?_, fun p hp => List.mem_range.mp (hpositions.subset hp), fun tokens' hforms => ?_⟩
  · exact Multiset.coe_nodup.mp
      (Multiset.nodup_of_le (Multiset.coe_le.mpr hpositions) (Multiset.coe_nodup.mpr List.nodup_range))
  · refine ⟨_, (hread tokens' hforms).trans (congrArg _ hfound), ?_⟩
    rw [Parsed.map, Stmt.referencesAll_map, List.map_map, List.map_map, List.map_map]
    refine List.map_congr_left fun r hr => ?_
    have hmem : r.2.name ∈ numbered tokens := by
      refine Multiset.mem_coe.mp (Multiset.mem_of_le hdrawn ?_)
      exact Multiset.mem_coe.mpr (List.mem_map_of_mem hr)
    obtain ⟨i, hi⟩ := List.mem_iff_getElem?.mp hmem
    obtain ⟨hposition, hthere⟩ := textFrom_numbered hforms hi
    exact hthere.symm.trans (congrArg (tokens'[·]?) hposition.symm)

end LoxLang
