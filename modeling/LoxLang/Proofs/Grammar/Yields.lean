import LoxLang.Proofs.Grammar.Changing
import LoxLang.Proofs.Syntax.Label
import LoxLang.Proofs.Syntax.WellFormed

/-! # What readers yield

`Yields r Q` says of a reader that its result satisfies `Q`, provided that the tokens are spelled by
their kinds.  Nothing is said of which tokens were read, and errors may have been taken down: a
program is well-formed even if declarations that failed are missing from it, or if an argument too
many was read all the same (`wellFormed_of_parse_spelled`).

The readers do not look at the texts of tokens.  So from tokens that are not spelled by their kinds
they read a program of the same shape as from the same tokens spelled so (`shaped_of_parse`). -/

namespace LoxLang
namespace Reader

variable {α β : Type}

/-- The tokens that are left are spelled by their kinds. -/
def Ahead (s : Cursor) : Prop := ∀ t ∈ s.rest, t.Spelled

/-- On spelled tokens, a result of the reader satisfies `Q`, and the tokens that are left are
spelled, also if there is no result. -/
def Yields (r : Reader α) (Q : α → Prop) : Prop :=
  ∀ s, Ahead s →
    match r s with
    | .ok a s' => Ahead s' ∧ Q a
    | .error _ s' => Ahead s'

variable {r : Reader α} {P : α → Prop} {Q : β → Prop}

/-! ## Composition -/

theorem yields_pure {a : α} (h : P a) : Yields (pure a) P := fun _ hs => ⟨hs, h⟩

theorem Yields.bind {q : α → Reader β} (hr : Yields r P) (hq : ∀ a, P a → Yields (q a) Q) :
    Yields (r >>= q) Q := by
  intro s hs
  have hr := hr s hs
  rw [EStateM.bind_apply]
  cases h : r s with
  | ok a s' =>
    rw [h] at hr
    exact hq a hr.2 s' hr.1
  | error i s' =>
    rw [h] at hr
    exact hr

theorem Yields.imp {P' : α → Prop} (h : Yields r P) (hP : ∀ a, P a → P' a) : Yields r P' := by
  intro s hs
  have h := h s hs
  cases hr : r s with
  | ok a s' =>
    rw [hr] at h
    exact ⟨h.1, hP a h.2⟩
  | error i s' =>
    rw [hr] at h
    exact h

theorem Yields.map {f : α → β} (h : Yields r P) (hf : ∀ a, P a → Q (f a)) : Yields (f <$> r) Q := by
  rw [map_eq_pure_bind]
  exact h.bind fun a ha => yields_pure (hf a ha)

theorem Yields.ite {p : Prop} [Decidable p] {r' : Reader α} (h : Yields r P) (h' : Yields r' P) :
    Yields (if p then r else r') P := by
  split
  · exact h
  · exact h'

/-! ## Steps -/

theorem yields_stop (fault : Fault) : Yields (stop fault : Reader α) P := fun _ hs => hs

theorem yields_peek : Yields peek Token.Spelled := by
  rintro ⟨rest, errors⟩ hs
  cases rest with
  | nil => exact hs
  | cons t rest => exact ⟨hs, hs t List.mem_cons_self⟩

theorem yields_skip : Yields skip fun _ => True :=
  fun _ hs => ⟨fun t ht => hs t (List.mem_of_mem_tail ht), trivial⟩

theorem yields_record (fault : SyntaxFault) (place : Token) :
    Yields (record fault place) fun _ => True :=
  fun _ hs => ⟨hs, trivial⟩

theorem yields_throw : Yields (throw .syntaxError : Reader α) P := fun _ hs => hs

theorem yields_fail (what : Expectation) : Yields (fail what : Reader α) P :=
  yields_peek.bind fun t _ => (yields_record (.expected what) t).bind fun _ _ => yields_throw

theorem yields_upcoming : Yields upcoming fun _ => True := fun _ hs => ⟨hs, trivial⟩

theorem yields_accept? (wanted : Kind → Bool) :
    Yields (accept? wanted) fun o => ∀ t ∈ o, t.Spelled ∧ wanted t.kind = true := by
  refine yields_peek.bind fun t ht => ?_
  split
  · rename_i hwanted
    refine yields_skip.bind fun _ _ => yields_pure ?_
    rintro t' ht'
    cases ht'
    exact ⟨ht, hwanted⟩
  · exact yields_pure (by simp)

theorem yields_skipped (kind : Kind) : Yields (skipped kind) fun _ => True :=
  (yields_accept? _).bind fun _ _ => yields_pure trivial

theorem yields_sees (kind : Kind) : Yields (sees kind) fun _ => True :=
  yields_peek.bind fun _ _ => yields_pure trivial

theorem yields_expect (kind : Kind) (what : Expectation) :
    Yields (expect kind what) fun t => t.Spelled ∧ t.kind = kind := by
  refine (yields_accept? _).bind fun o ho => ?_
  cases o with
  | none => exact yields_fail what
  | some t =>
    obtain ⟨ht, hk⟩ := ho t rfl
    exact yields_pure ⟨ht, of_decide_eq_true hk⟩

/-- A name that has to be there. -/
theorem yields_expect_identifier (what : Expectation) :
    Yields (expect .identifier what) Token.IsName :=
  (yields_expect .identifier what).imp fun _ ht => ht.1.name ht.2

/-! ## Repetition and recovery -/

theorem yields_leftChain {ops : Kind → Bool} {join : α → Token → α → α} (h : Yields r P)
    (hjoin : ∀ a op b, P a → P b → P (join a op b)) : Yields (leftChain ops join r) P := by
  have more : ∀ turns left, P left → Yields (leftChain.more ops join r turns left) P := by
    intro turns
    induction turns with
    | nil => exact fun left _ => yields_stop _
    | cons turn turns ih =>
      intro left hleft
      refine (yields_accept? ops).bind fun o _ => ?_
      cases o with
      | none => exact yields_pure hleft
      | some op => exact h.bind fun b hb => ih _ (hjoin left op b hleft hb)
  exact yields_upcoming.bind fun turns _ => h.bind fun a ha => more turns a ha

theorem yields_commaSeparated {excess : SyntaxFault} (h : Yields r P) :
    Yields (commaSeparated excess r) fun as => ∀ a ∈ as, P a := by
  have more : ∀ turns count items, (∀ a ∈ items, P a) →
      Yields (commaSeparated.more excess r turns count items) fun as => ∀ a ∈ as, P a := by
    intro turns
    induction turns with
    | nil => exact fun count items _ => yields_stop _
    | cons turn turns ih =>
      intro count items hitems
      have hitem : Yields (do
          let items := (← r) :: items
          if ← skipped .comma then commaSeparated.more excess r turns (count + 1) items
          else return items.reverse) fun as => ∀ a ∈ as, P a := by
        refine h.bind fun a ha => (yields_skipped _).bind fun _ _ => ?_
        have hall := List.forall_mem_cons.mpr ⟨ha, hitems⟩
        exact (ih _ _ hall).ite (yields_pure fun b hb => hall b (List.mem_reverse.mp hb))
      rw [commaSeparated.more]
      split
      · exact yields_peek.bind fun t _ => (yields_record excess t).bind fun _ _ => hitem
      · exact hitem
  exact yields_upcoming.bind fun turns _ => more turns 0 [] (List.forall_mem_nil _)

theorem yields_manyUntil {done : Reader Bool} {item : Reader (Option α)}
    (hdone : Yields done fun _ => True) (h : Yields item fun o => ∀ a ∈ o, P a) :
    Yields (manyUntil done item) fun as => ∀ a ∈ as, P a := by
  have more : ∀ turns items, (∀ a ∈ items, P a) →
      Yields (manyUntil.more done item turns items) fun as => ∀ a ∈ as, P a := by
    intro turns
    induction turns with
    | nil => exact fun items _ => yields_stop _
    | cons turn turns ih =>
      intro items hitems
      refine hdone.bind fun b _ => ?_
      refine Yields.ite (yields_pure fun a ha => hitems a (List.mem_reverse.mp ha)) ?_
      refine h.bind fun o ho => ?_
      cases o with
      | none => exact ih items hitems
      | some a => exact ih _ (List.forall_mem_cons.mpr ⟨ho a rfl, hitems⟩)
  exact yields_upcoming.bind fun turns _ => more turns [] (List.forall_mem_nil _)

/-- The tokens from which to go on are some of those that are left. -/
theorem suffix_of_resumeAfter {last : Kind} {tokens rest : List Token}
    (h : resumeAfter last tokens = some rest) : rest <:+ tokens := by
  induction tokens generalizing last with
  | nil => cases h
  | cons t tokens ih =>
    rw [resumeAfter] at h
    split at h
    · cases h
      exact List.suffix_rfl
    · exact (ih h).trans (List.suffix_cons t tokens)

theorem suffix_of_resume {tokens rest : List Token} (h : resume tokens = some rest) :
    rest <:+ tokens := by
  cases tokens with
  | nil => cases h
  | cons t tokens =>
    rw [resume] at h
    split at h
    · cases h
      exact List.suffix_rfl
    · exact (suffix_of_resumeAfter h).trans (List.suffix_cons t tokens)

theorem yields_recover (h : Yields r P) : Yields (recover r) fun o => ∀ a ∈ o, P a := by
  intro s hs
  have h := h s hs
  unfold recover
  cases hr : r s with
  | ok a s' =>
    rw [hr] at h
    refine ⟨h.1, ?_⟩
    rintro a' ha'
    cases ha'
    exact h.2
  | error i s' =>
    rw [hr] at h
    cases i with
    | fault f => exact h
    | syntaxError =>
      cases hresume : resume s'.rest with
      | none => simpa only [hresume] using h
      | some rest =>
        simp only [hresume]
        exact ⟨fun t ht => h t ((suffix_of_resume hresume).subset ht), by simp⟩

end Reader

namespace Grammar

open Reader

/-! ## Expressions -/

section
variable {e e' : Reader (Expr Unit)} (h : Yields e Expr.WellFormed)

include h

theorem yields_binaryChain (ops : Kind → Bool) :
    Yields (leftChain ops .binary e) Expr.WellFormed :=
  yields_leftChain h fun _ _ _ => .binary

theorem yields_disjunction : Yields (disjunction e) Expr.WellFormed := by
  have hequality := yields_binaryChain (yields_binaryChain (yields_binaryChain
    (yields_binaryChain h isFactorOp) isTermOp) isComparisonOp) isEqualityOp
  have hlogical : ∀ left op right, left.WellFormed → right.WellFormed →
      (Expr.logical left op right : Expr Unit).WellFormed := fun _ _ _ => .logical
  exact yields_leftChain (yields_leftChain hequality hlogical) hlogical

theorem yields_assignment (h' : Yields e' Expr.WellFormed) :
    Yields (assignment e e') Expr.WellFormed := by
  refine (yields_disjunction h).bind fun target htarget => (yields_accept? _).bind fun o _ => ?_
  cases o with
  | none => exact yields_pure htarget
  | some equals =>
    refine h'.bind fun value hvalue => ?_
    have hkept : Yields (do
        record .invalidTarget equals
        return target) Expr.WellFormed :=
      (yields_record _ equals).bind fun _ _ => yields_pure htarget
    cases htarget with
    | nameRef hname => exact yields_pure (.assign hname hvalue)
    | get hobject => exact yields_pure (.set hobject hvalue)
    | _ => exact hkept

theorem yields_primary : Yields (primary e) Expr.WellFormed := by
  refine yields_peek.bind fun t ht => ?_
  split
  case h_1 | h_2 | h_3 | h_4 | h_5 =>
    exact yields_skip.bind fun _ _ => yields_pure (.literal _)
  case h_6 hsuper =>
    exact yields_skip.bind fun _ _ => (yields_expect _ _).bind fun _ _ =>
      (yields_expect _ _).bind fun _ _ => yields_pure (.superRef (ht.super hsuper))
  case h_7 hthis => exact yields_skip.bind fun _ _ => yields_pure (.thisRef (ht.this hthis))
  case h_8 hname => exact yields_skip.bind fun _ _ => yields_pure (.nameRef (ht.name hname))
  case h_9 =>
    exact yields_skip.bind fun _ _ => h.bind fun inner hinner =>
      (yields_expect _ _).bind fun _ _ => yields_pure (.group hinner)
  case h_10 => exact yields_fail _

theorem yields_arguments : Yields (arguments e) fun es => ∀ a ∈ es, a.WellFormed :=
  (yields_sees _).bind fun _ _ =>
    (yields_pure (List.forall_mem_nil _)).ite (yields_commaSeparated h)

theorem yields_callChain (turns : List Token) {callee : Expr Unit} (hcallee : callee.WellFormed) :
    Yields (callChain e turns callee) Expr.WellFormed := by
  induction turns generalizing callee with
  | nil => exact yields_stop _
  | cons turn turns ih =>
    refine (yields_skipped _).bind fun _ _ => Yields.ite ?_ ?_
    · exact (yields_arguments h).bind fun es hes => (yields_expect _ _).bind fun _ _ =>
        ih (.call hcallee hes)
    · refine (yields_skipped _).bind fun _ _ => Yields.ite ?_ (yields_pure hcallee)
      exact (yields_expect _ _).bind fun _ _ => ih (.get hcallee)

theorem yields_call : Yields (call e) Expr.WellFormed :=
  yields_upcoming.bind fun turns _ => (yields_primary h).bind fun _ hcallee =>
    yields_callChain h turns hcallee

end

/-- Expressions and operands, by the depth to which they may nest. -/
theorem yields_expression (depth : Nat) :
    Yields (expression depth) Expr.WellFormed ∧ Yields (unary depth) Expr.WellFormed := by
  induction depth with
  | zero => exact ⟨yields_stop _, yields_stop _⟩
  | succ depth ih =>
    refine ⟨yields_assignment ih.2 ih.1, (yields_accept? _).bind fun o _ => ?_⟩
    cases o with
    | none => exact yields_call ih.1
    | some op => exact ih.2.bind fun _ hoperand => yields_pure (.unary hoperand)

/-! ## Statements and declarations -/

/-- A well-formed statement that declares nothing. -/
def IsPlain (s : Stmt Unit) : Prop := s.WellFormed ∧ s.declares = []

section
variable {d : Reader (Option (Stmt Unit))} {e : Reader (Expr Unit)} {s : Reader (Stmt Unit)}

/-- Whether a block or the body of a class ends is found out without reading on. -/
theorem yields_blockEnd : Yields (return (← sees .rightBrace) || (← sees .eof))
    fun _ : Bool => True :=
  (yields_sees _).bind fun _ _ => (yields_sees _).bind fun _ _ => yields_pure trivial

theorem yields_block (h : Yields d fun o => ∀ s ∈ o, s.WellFormed) :
    Yields (block d) fun body => ∀ s ∈ body, s.WellFormed :=
  (yields_manyUntil yields_blockEnd h).bind fun _ hbody =>
    (yields_expect _ _).bind fun _ _ => yields_pure hbody

theorem yields_parameters : Yields parameters fun params => ∀ p ∈ params, p.IsName :=
  (yields_sees _).bind fun _ _ => (yields_pure (List.forall_mem_nil _)).ite
    (yields_commaSeparated (yields_expect_identifier _))

theorem yields_function (kind : CallableKind) (h : Yields d fun o => ∀ s ∈ o, s.WellFormed) :
    Yields (function kind d) fun f => f.name.IsName ∧ f.WellFormed :=
  (yields_expect_identifier _).bind fun _ hname => (yields_expect _ _).bind fun _ _ =>
    yields_parameters.bind fun _ hparams => (yields_expect _ _).bind fun _ _ =>
      (yields_expect _ _).bind fun _ _ => (yields_block h).bind fun _ hbody =>
        yields_pure ⟨hname, hparams, hbody⟩

theorem yields_superclass :
    Yields superclass fun parent => ∀ ref ∈ parent, ref.name.IsName := by
  refine (yields_skipped _).bind fun _ _ => Yields.ite ?_ (yields_pure (by simp))
  exact (yields_expect_identifier _).bind fun _ hname => yields_pure (by simpa [reference] using hname)

theorem yields_classOf (h : Yields d fun o => ∀ s ∈ o, s.WellFormed) :
    Yields (classOf d) Stmt.WellFormed := by
  have hmethod : Yields (some <$> function .method d) fun o => ∀ m ∈ o, m.WellFormed :=
    (yields_function _ h).map (by simp)
  exact (yields_expect_identifier _).bind fun _ hname => yields_superclass.bind fun _ hparent =>
    (yields_expect _ _).bind fun _ _ => (yields_manyUntil yields_blockEnd hmethod).bind
      fun _ hmethods => (yields_expect _ _).bind fun _ _ => yields_pure
        (.classOf hname hparent (fun m hm => (hmethods m hm).params)
          fun m hm => (hmethods m hm).body)

section
variable (he : Yields e Expr.WellFormed)

include he

theorem yields_someExpression : Yields (some <$> e) fun o => ∀ e' ∈ o, e'.WellFormed :=
  he.map (by simp)

theorem yields_unlessSees (kind : Kind) :
    Yields (unlessSees kind e) fun o => ∀ e' ∈ o, e'.WellFormed :=
  (yields_sees _).bind fun _ _ => (yields_pure (by simp)).ite (yields_someExpression he)

theorem yields_var : Yields (var e) Stmt.WellFormed := by
  refine (yields_expect_identifier _).bind fun name hname => ?_
  have hend : ∀ initial : Option (Expr Unit), (∀ e' ∈ initial, e'.WellFormed) →
      Yields (do
        let _ ← expect .semicolon .variableEnd
        return Stmt.var name initial) Stmt.WellFormed :=
    fun initial hinitial => (yields_expect _ _).bind fun _ _ => yields_pure (.var hname hinitial)
  refine (yields_skipped _).bind fun _ _ => Yields.ite ?_ ?_
  · exact (yields_someExpression he).bind hend
  · exact (yields_pure (by simp)).bind hend

theorem yields_expressionStatement : Yields (expressionStatement e) IsPlain :=
  he.bind fun _ hvalue => (yields_expect _ _).bind fun _ _ =>
    yields_pure ⟨.expression hvalue, rfl⟩

theorem yields_print : Yields (print e) IsPlain :=
  he.bind fun _ hvalue => (yields_expect _ _).bind fun _ _ => yields_pure ⟨.print hvalue, rfl⟩

theorem yields_returnFrom (keyword : Token) : Yields (returnFrom keyword e) IsPlain :=
  (yields_unlessSees he _).bind fun _ hvalue => (yields_expect _ _).bind fun _ _ =>
    yields_pure ⟨.returnFrom hvalue, rfl⟩

theorem yields_forInitial : Yields (forInitial e) fun o => ∀ s ∈ o, s.WellFormed := by
  refine (yields_skipped _).bind fun _ _ => Yields.ite (yields_pure (by simp)) ?_
  refine (yields_skipped _).bind fun _ _ => Yields.ite ((yields_var he).map (by simp)) ?_
  exact (yields_expressionStatement he).map (by simpa [IsPlain] using fun _ h _ => h)

theorem yields_forLoop (hs : Yields s IsPlain) : Yields (forLoop e s) IsPlain :=
  (yields_expect _ _).bind fun _ _ => (yields_forInitial he).bind fun _ hinitial =>
    (yields_unlessSees he _).bind fun _ hcondition => (yields_expect _ _).bind fun _ _ =>
      (yields_unlessSees he _).bind fun _ hstep => (yields_expect _ _).bind fun _ _ =>
        hs.bind fun _ hbody => yields_pure
          (Stmt.wellFormed_forLoop hinitial hcondition hstep hbody.1 hbody.2)

theorem yields_conditional (hs : Yields s IsPlain) : Yields (conditional e s) IsPlain := by
  refine (yields_expect _ _).bind fun _ _ => he.bind fun _ hcondition =>
    (yields_expect _ _).bind fun _ _ => hs.bind fun _ hbody =>
      (yields_skipped _).bind fun _ _ => Yields.ite ?_ ?_
  · exact hs.bind fun _ hother => yields_pure
      ⟨.ifElse hcondition hbody.1 hbody.2 hother.1 hother.2,
        by simp [Stmt.declares, hbody.2, hother.2]⟩
  · exact yields_pure ⟨.ifThen hcondition hbody.1 hbody.2, hbody.2⟩

theorem yields_whileLoop (hs : Yields s IsPlain) : Yields (whileLoop e s) IsPlain :=
  (yields_expect _ _).bind fun _ _ => he.bind fun _ hcondition =>
    (yields_expect _ _).bind fun _ _ => hs.bind fun _ hbody =>
      yields_pure ⟨.whileLoop hcondition hbody.1 hbody.2, hbody.2⟩

end

end

/-- Declarations and statements, by the depth to which they may nest. -/
theorem yields_declaration (depth : Nat) :
    Yields (declaration depth) (fun o => ∀ s ∈ o, s.WellFormed) ∧
      Yields (statement depth) IsPlain := by
  induction depth with
  | zero => exact ⟨yields_stop _, yields_stop _⟩
  | succ depth ih =>
    obtain ⟨hdeclaration, hstatement⟩ := ih
    have he := (yields_expression depth).1
    constructor
    · refine yields_recover (yields_peek.bind fun t _ => ?_)
      split
      · exact yields_skip.bind fun _ _ => yields_classOf hdeclaration
      · exact yields_skip.bind fun _ _ => (yields_function _ hdeclaration).bind fun _ hf =>
          yields_pure (.function hf.1 hf.2.params hf.2.body)
      · exact yields_skip.bind fun _ _ => yields_var he
      · exact hstatement.imp fun _ hs => hs.1
    · refine yields_peek.bind fun t _ => ?_
      split
      · exact yields_skip.bind fun _ _ => yields_forLoop he hstatement
      · exact yields_skip.bind fun _ _ => yields_conditional he hstatement
      · exact yields_skip.bind fun _ _ => yields_print he
      · exact yields_skip.bind fun _ _ => yields_returnFrom he _
      · exact yields_skip.bind fun _ _ => yields_whileLoop he hstatement
      · exact yields_skip.bind fun _ _ => (yields_block hdeclaration).bind fun _ hbody =>
          yields_pure ⟨.block hbody, rfl⟩
      · exact yields_expressionStatement he

end Grammar

/-- **What is parsed from well-spelled tokens is well-formed**, whatever errors the tokens have. -/
theorem wellFormed_of_parse_spelled {depth : Nat} {tokens : List Token} {parsed : Parsed}
    (hspelled : ∀ t ∈ tokens, t.Spelled) (h : parse depth tokens = .ok parsed) :
    ∀ s ∈ parsed.program, s.WellFormed := by
  have hprogram := Reader.yields_manyUntil (Reader.yields_sees .eof)
    (Grammar.yields_declaration depth).1 ⟨tokens, []⟩ hspelled
  unfold parse Grammar.program at h
  split at hprogram
  · rename_i hok
    rw [hok] at h
    cases h
    exact hprogram.2
  · rename_i i s' herror
    rw [herror] at h
    cases i <;> cases h

/-- The token with a text that fits its kind. -/
def Token.respelled (t : Token) : Token :=
  { t with
    lexeme := match t.kind with
      | .thisWord => "this"
      | .superWord => "super"
      | _ => "" }

theorem Token.spelled_respelled (t : Token) : t.respelled.Spelled := by
  have hkind : t.respelled.kind = t.kind := rfl
  constructor <;> rw [hkind] <;> intro hkind
  · simp [Token.IsName, respelled, hkind]
  · simp only [respelled, hkind]
  · simp only [respelled, hkind]

/-- What is parsed from any tokens is a program of the shape that the grammar gives it. -/
theorem shaped_of_parse {depth : Nat} {tokens : List Token} {parsed : Parsed}
    (h : parse depth tokens = .ok parsed) : ∀ s ∈ parsed.program, s.Shaped := by
  have hspelled : ∀ t ∈ tokens.map Token.respelled, t.Spelled := by
    intro t ht
    obtain ⟨t, _, rfl⟩ := List.mem_map.mp ht
    exact t.spelled_respelled
  have hparse : parse depth (tokens.map Token.respelled) = .ok (parsed.map Token.respelled) := by
    rw [parse_map (φ := Token.respelled) (fun _ => rfl) (fun _ => rfl), h]
    rfl
  intro s hs
  exact Stmt.shaped_of_map
    (wellFormed_of_parse_spelled hspelled hparse _ (List.mem_map_of_mem hs)).shaped

end LoxLang
