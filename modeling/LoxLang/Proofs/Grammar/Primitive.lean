import LoxLang.Proofs.Grammar.Yields
import LoxLang.Proofs.Source.Spelling
import LoxLang.Proofs.Syntax.Turn

/-! # Reading loops as they are meant

`parsePrimitive` reads programs as `parse` does, but for what it makes of a `for` statement: not the
blocks and the `while` loop, but the loop itself (`Stmt.primitiveFor`).  The two readers take the
same tokens and report the same errors, and what the one reads unfolds to what the other does
(`parse_unfolds`). -/

namespace LoxLang
namespace Grammar

open Reader

/-- A `for` statement, behind its first word, as the loop that it means. -/
def primitiveFor (expression : Reader (Expr Unit)) (statement : Reader (Stmt Unit)) :
    Reader (Stmt Unit) := do
  let _ ← expect .leftParen .forClausesStart
  let initial ← forInitial expression
  let condition ← unlessSees .semicolon expression
  let _ ← expect .semicolon .loopConditionEnd
  let step ← unlessSees .rightParen expression
  let _ ← expect .rightParen .forClausesEnd
  return .primitiveFor initial condition step (← statement)

mutual

/-- A declaration, or a statement; none if it fails. -/
def primitiveDeclaration : Nat → Reader (Option (Stmt Unit))
  | 0 => stop .tooDeep
  | depth + 1 => recover do
    let t ← peek
    match t.kind with
    | .classWord =>
      skip
      classOf (primitiveDeclaration depth)
    | .funWord =>
      skip
      return .function (← function .function (primitiveDeclaration depth))
    | .varWord =>
      skip
      var (expression depth)
    | _ => primitiveStatement depth

/-- A statement that declares nothing. -/
def primitiveStatement : Nat → Reader (Stmt Unit)
  | 0 => stop .tooDeep
  | depth + 1 => do
    let t ← peek
    match t.kind with
    | .forWord =>
      skip
      primitiveFor (expression depth) (primitiveStatement depth)
    | .ifWord =>
      skip
      conditional (expression depth) (primitiveStatement depth)
    | .printWord =>
      skip
      print (expression depth)
    | .returnWord =>
      skip
      returnFrom t (expression depth)
    | .whileWord =>
      skip
      whileLoop (expression depth) (primitiveStatement depth)
    | .leftBrace =>
      skip
      return .block (← block (primitiveDeclaration depth))
    | _ => expressionStatement (expression depth)

end

end Grammar

/-- The program that a token list forms, with each `for` statement as the loop that it means, and
what is wrong with the list. -/
def parsePrimitive (depth : Nat) (tokens : List Token) : Except Fault Parsed :=
  match Reader.manyUntil (Reader.sees .eof) (Grammar.primitiveDeclaration depth) ⟨tokens, []⟩ with
  | .ok program s => .ok ⟨program, s.errors⟩
  | .error (.fault f) _ => .error f
  | .error .syntaxError _ => .error .outOfTokens

/-! ## Readers side by side -/

namespace Reader

section
variable {α β γ δ : Type}

/-- Two readers have taken the same tokens and found the same errors; their results are related if
there are any, and the tokens that are left are spelled. -/
inductive Matched (R : α → β → Prop) :
    EStateM.Result Interrupt Cursor α → EStateM.Result Interrupt Cursor β → Prop
  | ok {a : α} {b : β} {s : Cursor} (hs : Ahead s) (hab : R a b) : Matched R (.ok a s) (.ok b s)
  | error (i : Interrupt) {s : Cursor} (hs : Ahead s) : Matched R (.error i s) (.error i s)

/-- Two readers take the same spelled tokens and find the same errors, and `R` relates their
results. -/
def Alongside (R : α → β → Prop) (r : Reader α) (r' : Reader β) : Prop :=
  ∀ s, Ahead s → Matched R (r s) (r' s)

variable {R : α → β → Prop} {r : Reader α} {r' : Reader β}

/-- What a reader yields it yields next to itself. -/
theorem Yields.alongside {P : α → Prop} {r : Reader α} {R : α → α → Prop} (h : Yields r P)
    (hR : ∀ a, P a → R a a) : Alongside R r r := by
  intro s hs
  have hyields := h s hs
  cases hr : r s with
  | ok a s' =>
    rw [hr] at hyields
    exact .ok hyields.1 (hR a hyields.2)
  | error i s' =>
    rw [hr] at hyields
    exact .error i hyields

theorem alongside_pure {a : α} {b : β} (hab : R a b) : Alongside R (pure a) (pure b) :=
  fun _ hs => .ok hs hab

theorem Alongside.bind {q : α → Reader γ} {q' : β → Reader δ} {S : γ → δ → Prop}
    (h : Alongside R r r') (hq : ∀ a b, R a b → Alongside S (q a) (q' b)) :
    Alongside S (r >>= q) (r' >>= q') := by
  intro s hs
  have hmatched := h s hs
  rw [EStateM.bind_apply, EStateM.bind_apply]
  generalize r s = x, r' s = y at hmatched
  cases hmatched with
  | ok hs' hab => exact hq _ _ hab _ hs'
  | error i hs' => exact .error i hs'

/-- The same reader goes before. -/
theorem Yields.andThen {P : α → Prop} {r : Reader α} {q : α → Reader γ} {q' : α → Reader δ}
    {S : γ → δ → Prop} (h : Yields r P) (hq : ∀ a, P a → Alongside S (q a) (q' a)) :
    Alongside S (r >>= q) (r >>= q') :=
  (h.alongside (R := fun a b => a = b ∧ P a) fun _ ha => ⟨rfl, ha⟩).bind fun a _ h => h.1 ▸ hq a h.2

theorem Alongside.imp {S : α → β → Prop} (h : Alongside R r r') (hS : ∀ a b, R a b → S a b) :
    Alongside S r r' := by
  intro s hs
  have hmatched := h s hs
  generalize r s = x, r' s = y at hmatched
  cases hmatched with
  | ok hs' hab => exact .ok hs' (hS _ _ hab)
  | error i hs' => exact .error i hs'

theorem Alongside.map {f : α → γ} {g : β → δ} {S : γ → δ → Prop} (h : Alongside R r r')
    (hS : ∀ a b, R a b → S (f a) (g b)) : Alongside S (f <$> r) (g <$> r') := by
  rw [map_eq_pure_bind, map_eq_pure_bind]
  exact h.bind fun a b hab => alongside_pure (hS a b hab)

theorem Alongside.ite {p : Prop} [Decidable p] {q : Reader α} {q' : Reader β}
    (h : Alongside R r r') (h' : Alongside R q q') :
    Alongside R (if p then r else q) (if p then r' else q') := by
  split
  · exact h
  · exact h'

theorem Alongside.recover (h : Alongside R r r') :
    Alongside (Option.Rel R) (Reader.recover r) (Reader.recover r') := by
  intro s hs
  have hmatched := h s hs
  unfold Reader.recover
  generalize r s = x, r' s = y at hmatched
  cases hmatched with
  | ok hs' hab => exact .ok hs' (.some hab)
  | error i hs' =>
    cases i with
    | fault f => exact .error _ hs'
    | syntaxError =>
      dsimp only
      split
      · rename_i rest hresume
        exact .ok (fun t ht => hs' t ((suffix_of_resume hresume).subset ht)) .none
      · exact .error _ hs'

theorem Alongside.manyUntil {done : Reader Bool} {item : Reader (Option α)}
    {item' : Reader (Option β)} (hdone : Yields done fun _ => True)
    (h : Alongside (Option.Rel R) item item') :
    Alongside (List.Forall₂ R) (manyUntil done item) (manyUntil done item') := by
  have more : ∀ turns items items', List.Forall₂ R items items' →
      Alongside (List.Forall₂ R) (manyUntil.more done item turns items)
        (manyUntil.more done item' turns items') := by
    intro turns
    induction turns with
    | nil => exact fun _ _ _ _ hs => .error _ hs
    | cons turn turns ih =>
      intro items items' hitems
      refine hdone.andThen fun b _ => ?_
      refine Alongside.ite (alongside_pure (List.rel_reverse hitems)) ?_
      refine h.bind fun o o' ho => ?_
      cases ho with
      | none => exact ih items items' hitems
      | some hab => exact ih _ _ (.cons hab hitems)
  exact yields_upcoming.andThen fun turns _ => more turns [] [] .nil

end

end Reader

namespace Grammar

open Reader

/-! ## Conditions are not marked -/

section
variable {e e' : Reader (Expr Unit)} (h : Yields e fun e => e.isTurnMark = false)
include h

theorem unmarked_assignment (h' : Yields e' fun e => e.isTurnMark = false) :
    Yields (assignment e e') fun e => e.isTurnMark = false := by
  have hbinary : ∀ ops : Kind → Bool, ∀ {r : Reader (Expr Unit)},
      (Yields r fun e => e.isTurnMark = false) →
      Yields (leftChain ops .binary r) fun e => e.isTurnMark = false :=
    fun _ _ hr => yields_leftChain hr fun _ _ _ _ _ => rfl
  have hlogical : ∀ ops : Kind → Bool, ∀ {r : Reader (Expr Unit)},
      (Yields r fun e => e.isTurnMark = false) →
      Yields (leftChain ops .logical r) fun e => e.isTurnMark = false :=
    fun _ _ hr => yields_leftChain hr fun _ _ _ _ _ => rfl
  have hdisjunction := hlogical (· = .orWord) (hlogical (· = .andWord) (hbinary isEqualityOp
    (hbinary isComparisonOp (hbinary isTermOp (hbinary isFactorOp h)))))
  refine hdisjunction.bind fun target htarget => (yields_accept? _).bind fun o _ => ?_
  cases o with
  | none => exact yields_pure htarget
  | some equals =>
    refine h'.bind fun value _ => ?_
    have hkept : Yields (do
        record .invalidTarget equals
        return target) fun e => e.isTurnMark = false :=
      (yields_record _ equals).bind fun _ _ => yields_pure htarget
    cases target with
    | nameRef ref => exact yields_pure rfl
    | get object name => exact yields_pure rfl
    | _ => exact hkept

theorem unmarked_primary : Yields (primary e) fun e => e.isTurnMark = false := by
  refine yields_peek.bind fun t _ => ?_
  split
  case h_6 => exact yields_skip.bind fun _ _ => (yields_expect _ _).bind fun _ _ =>
    (yields_expect _ _).bind fun _ _ => yields_pure rfl
  case h_9 => exact yields_skip.bind fun _ _ => h.bind fun _ _ =>
    (yields_expect _ _).bind fun _ _ => yields_pure rfl
  case h_10 => exact yields_fail _
  all_goals exact yields_skip.bind fun _ _ => yields_pure rfl

theorem unmarked_call : Yields (call e) fun e => e.isTurnMark = false := by
  have hchain : ∀ turns callee, callee.isTurnMark = false →
      Yields (callChain e turns callee) fun e => e.isTurnMark = false := by
    intro turns
    induction turns with
    | nil => exact fun _ _ => yields_stop _
    | cons turn turns ih =>
      intro callee hcallee
      have harguments : Yields (arguments e) fun _ => True := (yields_sees _).bind fun _ _ =>
        (yields_pure trivial).ite ((yields_commaSeparated h).imp fun _ _ => trivial)
      refine (yields_skipped _).bind fun _ _ => Yields.ite ?_ ?_
      · exact harguments.bind fun _ _ => (yields_expect _ _).bind fun _ _ => ih _ rfl
      · refine (yields_skipped _).bind fun _ _ => Yields.ite ?_ (yields_pure hcallee)
        exact (yields_expect _ _).bind fun _ _ => ih _ rfl
  exact yields_upcoming.bind fun turns _ => (unmarked_primary h).bind fun callee hcallee =>
    hchain turns callee hcallee

end

/-- No expression that is read marks a turn. -/
theorem unmarked_expression (depth : Nat) :
    (Yields (expression depth) fun e => e.isTurnMark = false) ∧
      Yields (unary depth) fun e => e.isTurnMark = false := by
  induction depth with
  | zero => exact ⟨yields_stop _, yields_stop _⟩
  | succ depth ih =>
    refine ⟨unmarked_assignment ih.2 ih.1, (yields_accept? _).bind fun o ho => ?_⟩
    cases o with
    | none => exact unmarked_call ih.1
    | some op =>
      have hsign : op.kind = .bang ∨ op.kind = .minus := by
        simpa [isSign] using (ho op rfl).2
      refine ih.2.bind fun _ _ => yields_pure ?_
      rcases hsign with hsign | hsign <;> simp [Expr.isTurnMark, hsign]

/-! ## Statements and declarations -/

/-- Statements, of which the second is the first one unfolded, and which declare nothing. -/
def UnfoldsPlain (s s' : Stmt Unit) : Prop := s.Unfolds s' ∧ s.declares = []

section
variable {d d' : Reader (Option (Stmt Unit))} {e : Reader (Expr Unit)} {s s' : Reader (Stmt Unit)}
  (he : Yields e fun e => e.isTurnMark = false)

theorem alongside_block (h : Alongside (Option.Rel Stmt.Unfolds) d d') :
    Alongside (List.Forall₂ Stmt.Unfolds) (block d) (block d') :=
  (Alongside.manyUntil yields_blockEnd h).bind fun _ _ hbody =>
    (yields_expect _ _).andThen fun _ _ => alongside_pure hbody

theorem alongside_function (kind : CallableKind) (h : Alongside (Option.Rel Stmt.Unfolds) d d') :
    Alongside Function.Unfolds (function kind d) (function kind d') :=
  (yields_expect _ _).andThen fun name _ => (yields_expect _ _).andThen fun _ _ =>
    yields_parameters.andThen fun params _ => (yields_expect _ _).andThen fun _ _ =>
      (yields_expect _ _).andThen fun _ _ => (alongside_block h).bind fun _ _ hbody =>
        alongside_pure (.intro name params hbody)

theorem alongside_classOf (h : Alongside (Option.Rel Stmt.Unfolds) d d') :
    Alongside Stmt.Unfolds (classOf d) (classOf d') := by
  have hmethod : Alongside (Option.Rel Function.Unfolds) (some <$> function .method d)
      (some <$> function .method d') := (alongside_function _ h).map fun _ _ hf => .some hf
  exact (yields_expect _ _).andThen fun name _ => yields_superclass.andThen fun parent _ =>
    (yields_expect _ _).andThen fun _ _ => (Alongside.manyUntil yields_blockEnd hmethod).bind
      fun _ _ hmethods => (yields_expect _ _).andThen fun _ _ =>
        alongside_pure (.classOf name parent hmethods)

include he

theorem yields_unlessSees_any (kind : Kind) : Yields (unlessSees kind e) fun _ => True :=
  (yields_sees _).bind fun _ _ => (yields_pure trivial).ite (he.map fun _ _ => trivial)

theorem unfolds_var : Yields (var e) fun s => s.Unfolds s := by
  refine (yields_expect _ _).bind fun name _ => ?_
  have hend : ∀ initial : Option (Expr Unit), True → Yields (do
      let _ ← expect .semicolon .variableEnd
      return Stmt.var name initial) fun s => s.Unfolds s :=
    fun initial _ => (yields_expect _ _).bind fun _ _ => yields_pure (.var name initial)
  refine (yields_skipped _).bind fun _ _ => Yields.ite ?_ ?_
  · exact (he.map fun _ _ => trivial).bind hend
  · exact (yields_pure trivial).bind hend

theorem unfolds_expressionStatement :
    Yields (expressionStatement e) fun s => UnfoldsPlain s s :=
  he.bind fun value _ => (yields_expect _ _).bind fun _ _ => yields_pure ⟨.expression value, rfl⟩

theorem unfolds_print : Yields (print e) fun s => UnfoldsPlain s s :=
  he.bind fun value _ => (yields_expect _ _).bind fun _ _ => yields_pure ⟨.print value, rfl⟩

theorem unfolds_returnFrom (keyword : Token) :
    Yields (returnFrom keyword e) fun s => UnfoldsPlain s s :=
  (yields_unlessSees_any he _).bind fun value _ => (yields_expect _ _).bind fun _ _ =>
    yields_pure ⟨.returnFrom keyword value, rfl⟩

theorem unfolds_forInitial : Yields (forInitial e) fun o => ∀ s ∈ o, s.Unfolds s := by
  refine (yields_skipped _).bind fun _ _ => Yields.ite (yields_pure (by simp)) ?_
  refine (yields_skipped _).bind fun _ _ => Yields.ite ((unfolds_var he).map (by simp)) ?_
  exact (unfolds_expressionStatement he).map (by simpa [UnfoldsPlain] using fun _ h _ => h)

/-- The loop that is meant is read where its tree is. -/
theorem alongside_forLoop (hs : Alongside UnfoldsPlain s s') :
    Alongside UnfoldsPlain (Grammar.primitiveFor e s) (forLoop e s') :=
  (yields_expect _ _).andThen fun _ _ => (unfolds_forInitial he).andThen fun _ hinitial =>
    (yields_unlessSees_any he _).andThen fun _ _ => (yields_expect _ _).andThen fun _ _ =>
      (yields_unlessSees_any he _).andThen fun _ _ => (yields_expect _ _).andThen fun _ _ =>
        hs.bind fun _ _ hbody => alongside_pure (Stmt.Unfolds.primitiveFor hinitial hbody.1 hbody.2)

theorem alongside_conditional (hs : Alongside UnfoldsPlain s s') :
    Alongside UnfoldsPlain (conditional e s) (conditional e s') := by
  refine (yields_expect _ _).andThen fun _ _ => he.andThen fun condition hcondition =>
    (yields_expect _ _).andThen fun _ _ => hs.bind fun body body' hbody =>
      (yields_skipped _).andThen fun _ _ => Alongside.ite ?_ ?_
  · exact hs.bind fun other other' hother => alongside_pure
      ⟨.ifElse hcondition hbody.1 hother.1, by simp [Stmt.declares, hbody.2, hother.2]⟩
  · exact alongside_pure ⟨.ifThen condition hbody.1, hbody.2⟩

theorem alongside_whileLoop (hs : Alongside UnfoldsPlain s s') :
    Alongside UnfoldsPlain (whileLoop e s) (whileLoop e s') :=
  (yields_expect _ _).andThen fun _ _ => he.andThen fun condition _ =>
    (yields_expect _ _).andThen fun _ _ => hs.bind fun _ _ hbody =>
      alongside_pure ⟨.whileLoop condition hbody.1, hbody.2⟩

end

/-- Declarations and statements, by the depth to which they may nest. -/
theorem alongside_declaration (depth : Nat) :
    Alongside (Option.Rel Stmt.Unfolds) (primitiveDeclaration depth) (declaration depth) ∧
      Alongside UnfoldsPlain (primitiveStatement depth) (statement depth) := by
  induction depth with
  | zero => exact ⟨fun _ hs => .error _ hs, fun _ hs => .error _ hs⟩
  | succ depth ih =>
    obtain ⟨hdeclaration, hstatement⟩ := ih
    have he := (unmarked_expression depth).1
    constructor
    · refine Alongside.recover (yields_peek.andThen fun t _ => ?_)
      cases t.kind with
      | classWord => exact yields_skip.andThen fun _ _ => alongside_classOf hdeclaration
      | funWord =>
        exact yields_skip.andThen fun _ _ => (alongside_function _ hdeclaration).bind
          fun _ _ hf => alongside_pure (.function hf)
      | varWord => exact yields_skip.andThen fun _ _ => (unfolds_var he).alongside fun _ hs => hs
      | _ => exact hstatement.imp fun _ _ hs => hs.1
    · refine yields_peek.andThen fun t _ => ?_
      cases t.kind with
      | forWord => exact yields_skip.andThen fun _ _ => alongside_forLoop he hstatement
      | ifWord => exact yields_skip.andThen fun _ _ => alongside_conditional he hstatement
      | printWord =>
        exact yields_skip.andThen fun _ _ => (unfolds_print he).alongside fun _ hs => hs
      | returnWord =>
        exact yields_skip.andThen fun _ _ => (unfolds_returnFrom he t).alongside fun _ hs => hs
      | whileWord => exact yields_skip.andThen fun _ _ => alongside_whileLoop he hstatement
      | leftBrace =>
        exact yields_skip.andThen fun _ _ => (alongside_block hdeclaration).bind
          fun _ _ hbody => alongside_pure ⟨.block hbody, rfl⟩
      | _ => exact (unfolds_expressionStatement he).alongside fun _ hs => hs

end Grammar

/-- **What is read with loops as they are meant unfolds to what is read.**  The two readings of a
token list report the same errors, or stop for the same reason. -/
theorem parse_unfolds {tokens : List Token} (hspelled : ∀ t ∈ tokens, t.Spelled) (depth : Nat) :
    (∃ f, parsePrimitive depth tokens = .error f ∧ parse depth tokens = .error f) ∨
      ∃ reference program errors, parsePrimitive depth tokens = .ok ⟨reference, errors⟩ ∧
        parse depth tokens = .ok ⟨program, errors⟩ ∧
        List.Forall₂ Stmt.Unfolds reference program := by
  have hmatched := Reader.Alongside.manyUntil (Reader.yields_sees .eof)
    (Grammar.alongside_declaration depth).1 ⟨tokens, []⟩ hspelled
  unfold parsePrimitive parse Grammar.program
  generalize
    Reader.manyUntil (Reader.sees .eof) (Grammar.primitiveDeclaration depth) ⟨tokens, []⟩ = x,
    Reader.manyUntil (Reader.sees .eof) (Grammar.declaration depth) ⟨tokens, []⟩ = y at hmatched ⊢
  cases hmatched with
  | ok _ hprogram => exact .inr ⟨_, _, _, rfl, rfl, hprogram⟩
  | error i _ => cases i <;> exact .inl ⟨_, rfl, rfl⟩

end LoxLang
