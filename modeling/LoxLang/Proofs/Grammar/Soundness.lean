import LoxLang.Grammar.Program
import LoxLang.Proofs.Grammar.Derivation
import LoxLang.Proofs.Grammar.Reads

/-! # What the readers read derives

Each reader of the grammar keeps the contract `Reads` with the phrase that it is to read.  The main
statement is `parse_derives`: a token list that parses without errors is, up to its end token, a
derivation of the program that parsing yields.  With the contract it also says that parsing stops
for nothing but its limit of nesting.
-/

namespace LoxLang
namespace Grammar

open Reader

/-- A reader of the expressions of a level. -/
abbrev ReadsLevel (m : Bool) (level : Level) (r : Reader (Expr Unit)) : Prop :=
  Reads m r (fun u _ e => Derives (.expression level e) u)

/-! ## Expressions -/

/-- A chain of the operators of a level over operands of the next tighter level. -/
theorem reads_level {m : Bool} {l : Level} {ops : Kind → Bool}
    {operand : Reader (Expr Unit)} (hops : ∀ k, ops k = true → k ∈ l.operators)
    (hend : ops .eof = false)
    (hoperand : ReadsLevel m l.tighter operand) :
    ReadsLevel m l (leftChain ops l.combine operand) :=
  hoperand.leftChain hend (fun _ _ => .tighter)
    fun _ _ _ _ _ hleft hop hright => .binary hleft (hops _ hop) hright

variable {m : Bool} {operand value inner argument : Reader (Expr Unit)}

theorem reads_disjunction (h : ReadsLevel m .unary operand) :
    ReadsLevel m .disjunction (disjunction operand) := by
  have hfactor : ReadsLevel m .factor (factor operand) :=
    reads_level (l := .factor) (by simp [isFactorOp, Level.operators]) rfl h
  have hterm : ReadsLevel m .term (term operand) :=
    reads_level (l := .term) (by simp [isTermOp, Level.operators]) rfl hfactor
  have hcomparison : ReadsLevel m .comparison (comparison operand) :=
    reads_level (l := .comparison) (by simp [isComparisonOp, Level.operators]) rfl hterm
  have hequality : ReadsLevel m .equality (equality operand) :=
    reads_level (l := .equality) (by simp [isEqualityOp, Level.operators]) rfl hcomparison
  have hconjunction : ReadsLevel m .conjunction (conjunction operand) :=
    reads_level (l := .conjunction) (by simp [Level.operators]) (by decide) hequality
  exact reads_level (l := .disjunction) (by simp [Level.operators]) (by decide) hconjunction

theorem reads_assignment (hoperand : ReadsLevel m .unary operand)
    (hvalue : ReadsLevel true .assignment value) :
    ReadsLevel m .assignment (assignment operand value) := by
  intro s hs
  refine ((reads_disjunction hoperand s hs).bind (n := false)
    fun target s' u _ hreach _ => ?_).weaken (by simp) fun _ _ _ h => h
  refine .accept?_bind (n := true) (hreach.hasEnd hs) (by decide) ?_ ?_
  · intro equals t _ ht hequals
    have hequals : equals.kind = .equal := by simpa using hequals
    refine (hvalue t ht).bind (n := false) fun value t' v _ hreach' _ => ?_
    split
    · rename_i ref
      refine .pure fun hv htarget => ?_
      obtain ⟨rfl, hname⟩ := Derives.of_nameRef htarget
      simpa using Derives.assign hname hequals hv
    · rename_i object name
      refine .pure fun hv htarget => ?_
      obtain ⟨x, dot, rfl, hobject, hdot, hname⟩ := Derives.of_get htarget
      simpa using Derives.set hobject hdot hname hequals hv
    · refine ((reads_record _ equals t' (hreach'.hasEnd ht)).bind (n := false)
        fun _ _ _ _ _ _ => ?_)
      exact .pure fun h => h.elim
  · intro _
    exact .pure fun h => by simpa using Derives.tighter (l := .assignment) h

theorem reads_primary (hinner : ReadsLevel true .assignment inner) :
    ReadsLevel true .primary (primary inner) := by
  refine .peek_bind fun t rest errors hs => ?_
  have single : ∀ e, t.kind ≠ .eof → Derives (.expression .primary e) [t] →
      ReadsAt ⟨t :: rest, errors⟩ true (do skip; return e)
        (fun u _ e => Derives (.expression .primary e) u) := by
    intro e ht he
    refine (readsAt_skip ht).bind (n := false) fun _ s' u _ _ _ => .pure fun hu => ?_
    simpa [hu] using he
  split
  case h_1 hk => exact single _ (by simp [hk]) (.falseLiteral hk)
  case h_2 hk => exact single _ (by simp [hk]) (.trueLiteral hk)
  case h_3 hk => exact single _ (by simp [hk]) (.nilLiteral hk)
  case h_4 hk => exact single _ (by simp [hk]) (.literal (.inl hk))
  case h_5 hk => exact single _ (by simp [hk]) (.literal (.inr hk))
  case h_6 hk =>
    refine (readsAt_skip (by simp [hk])).bind (n := true) fun _ s' u _ hreach _ => ?_
    refine ((reads_expect .dot .superDot (by decide)).bind (n := true) fun dot => ?_)
      s' (hreach.hasEnd hs)
    refine (reads_expect .identifier .superMethodName (by decide)).bind (n := false)
      fun name => .pure ?_
    rintro rest' _ ⟨rfl, hname⟩ _ ⟨rfl, hdot⟩ rfl
    exact .superMethod hk hdot hname
  case h_7 hk => exact single _ (by simp [hk]) (.this hk)
  case h_8 hk => exact single _ (by simp [hk]) (.name hk)
  case h_9 hk =>
    refine (readsAt_skip (by simp [hk])).bind (n := true) fun _ s' u _ hreach _ => ?_
    refine (hinner.bind (n := true) fun e => ?_) s' (hreach.hasEnd hs)
    refine (reads_expect .rightParen .groupEnd (by decide)).bind (n := false)
      fun r => .pure ?_
    rintro rest' _ ⟨rfl, hr⟩ v he rfl
    simpa using Derives.group hk he hr
  case h_10 => exact reads_fail _ _ hs

theorem reads_arguments (hargument : ReadsLevel true .assignment argument) :
    Reads false (arguments argument)
      (fun u _ es => Derives (.arguments es) u ∧ es.length ≤ itemLimit) := by
  intro s hs
  refine .sees_bind hs fun t _ => ?_
  split
  · exact .pure ⟨.noArguments, by decide⟩
  · refine hargument.commaSeparated (I := fun u es => Derives (.arguments es) u)
      (fun _ _ he => .lastArgument he) ?_ s hs
    exact fun _ _ _ _ _ _ he ht hes => .argument he ht hes

theorem readsAt_callChain (hargument : ReadsLevel true .assignment argument) :
    ∀ turns callee s, HasEnd s.rest → s.rest.length ≤ turns.length →
      ReadsAt s false (callChain argument turns callee)
        (fun u _ e => ∀ v, Derives (.expression .call callee) v →
          Derives (.expression .call e) (v ++ u)) := by
  refine readsAt_turns fun turn turns callee s hs hgo => ?_
  refine .skipped_bind (n := true) hs (by decide) ?_ fun _ => ?_
  · intro l s' hrest hs' hl
    rw [if_pos rfl]
    refine ((reads_arguments hargument) s' hs').bind (n := true)
      fun es s₁ u _ hreach₁ _ => ?_
    refine (reads_expect .rightParen .argumentsEnd (by decide) s₁ (hreach₁.hasEnd hs')).bind
      (n := false) fun r s₂ _ _ hreach₂ _ => ?_
    have hreach := hreach₁.trans hreach₂
    refine (hgo (.call callee r es) s₂ (hreach.hasEnd hs') (hreach.length_lt_of_cons hrest)).imp ?_
    rintro w _ e hw ⟨rfl, hr⟩ ⟨hes, hcount⟩ v hv
    simpa using hw _ (.call hv hl hes hcount hr)
  · rw [if_neg (by simp)]
    refine .skipped_bind (n := true) hs (by decide) ?_ fun _ => ?_
    · intro dot s' hrest hs' hdot
      rw [if_pos rfl]
      refine (reads_expect .identifier .propertyName (by decide) s' hs').bind
        (n := false) fun name s₁ _ _ hreach _ => ?_
      refine (hgo (.get callee name) s₁ (hreach.hasEnd hs') (hreach.length_lt_of_cons hrest)).imp ?_
      rintro w _ e hw ⟨rfl, hname⟩ v hv
      simpa using hw _ (.get hv hdot hname)
    · rw [if_neg (by simp)]
      exact .pure fun v hv => by simpa using hv

theorem reads_call (hinner : ReadsLevel true .assignment inner) :
    ReadsLevel true .call (call inner) := by
  intro s hs
  refine .upcoming_bind ?_
  refine (reads_primary hinner s hs).bind (n := false) fun e s' u _ hreach _ => ?_
  exact (readsAt_callChain hinner s.rest e s' (hreach.hasEnd hs) hreach.length_le).imp
    fun v _ e' hv hu => hv u (.tighter (l := .call) hu)

/-- What the two readers that lead into each other read, at each depth. -/
theorem reads_expression_and_unary (depth : Nat) :
    ReadsLevel true .assignment (expression depth) ∧
      ReadsLevel true .unary (unary depth) := by
  induction depth with
  | zero => exact ⟨reads_stop, reads_stop⟩
  | succ depth ih =>
    obtain ⟨hexpression, hunary⟩ := ih
    refine ⟨reads_assignment hunary hexpression, fun s hs => ?_⟩
    refine .accept?_bind (n := true) hs (by decide) ?_ fun _ => ?_
    · intro op s' _ hs' hop
      refine (hunary s' hs').bind (n := false) fun e _ _ _ _ _ => .pure fun he => ?_
      exact .unary (by simpa [isSign, signs] using hop) (by simpa using he)
    · exact (reads_call hexpression s hs).imp fun _ _ _ h => .tighter (l := .unary) h

theorem reads_expression (depth : Nat) :
    ReadsLevel true .assignment (expression depth) :=
  (reads_expression_and_unary depth).1

/-! ## Statements and declarations

The readers lead back to the readers of expressions, statements and declarations; what those read
is assumed here and provided by the induction on the depth below.  A reader of statements says in
addition that behind a dangling statement no `else` follows. -/

/-- A reader of declarations, which stands in front of a token that is no end token. -/
def ReadsDeclaration (r : Reader (Option (Stmt Unit))) : Prop :=
  ∀ t rest errors, HasEnd (t :: rest) → t.kind ≠ .eof →
    ReadsAt ⟨t :: rest, errors⟩ true r
      (fun u _ o => ∃ s, o = some s ∧ Derives (.declaration s) u)

/-- A reader of statements. -/
def ReadsStatement (r : Reader (Stmt Unit)) : Prop :=
  Reads true r (fun u rest s => ∃ dangling, Derives (.statement dangling s) u ∧
    (dangling = true → ∀ t, rest.head? = some t → t.kind ≠ .elseWord))

variable {declaration : Reader (Option (Stmt Unit))} {expression : Reader (Expr Unit)}
  {statement : Reader (Stmt Unit)}

/-- The end of a block or a class body: a closing brace or the end of the tokens. -/
theorem sees_rightBrace_or_eof (t : Token) (rest : List Token) (errors : List SyntaxError) :
    ∃ b, (return (← sees .rightBrace) || (← sees .eof) : Reader Bool) ⟨t :: rest, errors⟩ =
      .ok b ⟨t :: rest, errors⟩ ∧ if b then True else t.kind ≠ .eof := by
  refine ⟨decide (t.kind = .rightBrace) || decide (t.kind = .eof), rfl, ?_⟩
  split
  · trivial
  · rename_i h
    exact fun ht => h (by simp [ht])

theorem reads_block (hdeclaration : ReadsDeclaration declaration) :
    Reads true (block declaration) (fun u _ ss => ∃ v rb, u = v ++ [rb] ∧
      Derives (.declarations ss) v ∧ rb.kind = .rightBrace) := by
  refine (Reads.manyUntil (E := fun _ => True) (I := fun u ss => Derives (.declarations ss) u)
    sees_rightBrace_or_eof hdeclaration .noDeclarations
    fun _ _ _ _ hs hss => .declaration hs hss).bind (n := true) fun ss => ?_
  refine (reads_expect .rightBrace .blockEnd (by decide)).bind (n := false) fun rb => .pure ?_
  rintro rest _ ⟨rfl, hrb⟩ v ⟨hss, -⟩
  exact ⟨v, rb, by simp, hss, hrb⟩

theorem reads_parameters :
    Reads false parameters (fun u _ ps => Derives (.parameters ps) u ∧ ps.length ≤ itemLimit) := by
  intro s hs
  refine .sees_bind hs fun t _ => ?_
  split
  · exact .pure ⟨.noParameters, by decide⟩
  · refine (reads_expect .identifier .parameterName (by decide)).commaSeparated
      (O := fun u t => u = [t] ∧ t.kind = .identifier)
      (I := fun u ps => Derives (.parameters ps) u) ?_ ?_ s hs
    · rintro u a ⟨rfl, ha⟩
      exact .lastParameter ha
    · rintro u a comma v b bs ⟨rfl, ha⟩ hcomma hbs
      exact .parameter ha hcomma hbs

theorem reads_function (kind : CallableKind) (hdeclaration : ReadsDeclaration declaration) :
    Reads true (function kind declaration) (fun u _ f => Derives (.function f) u) := by
  refine (reads_expect .identifier (.callableName kind) (by decide)).bind (n := true)
    fun name => ?_
  refine (reads_expect .leftParen (.parametersStart kind) (by decide)).bind (n := true)
    fun l => ?_
  refine reads_parameters.bind (n := true) fun params => ?_
  refine (reads_expect .rightParen .parametersEnd (by decide)).bind (n := true) fun r => ?_
  refine (reads_expect .leftBrace (.bodyStart kind) (by decide)).bind (n := true)
    fun lb => ?_
  refine (reads_block hdeclaration).bind (n := false) fun body => .pure ?_
  rintro rest _ ⟨v, rb, rfl, hbody, hrb⟩ _ ⟨rfl, hlb⟩ _ ⟨rfl, hr⟩ u ⟨hparams, hcount⟩ _ ⟨rfl, hl⟩
    _ ⟨rfl, hname⟩
  simpa using Derives.function hname hl hparams hcount hr hlb hbody hrb

theorem reads_superclass :
    Reads false superclass (fun u _ o => match o with
      | none => u = []
      | some ref => ∃ less, u = [less, ref.name] ∧ less.kind = .less ∧
          ref.name.kind = .identifier) := by
  intro s hs
  refine .skipped_bind (n := true) hs (by decide) ?_ fun _ => ?_
  · intro less s' _ hs' hless
    rw [if_pos rfl]
    refine (reads_expect .identifier .superclassName (by decide) s' hs').bind (n := false)
      fun parent _ _ _ _ _ => .pure ?_
    rintro ⟨rfl, hparent⟩
    exact ⟨less, rfl, hless, hparent⟩
  · exact .pure rfl

theorem reads_classOf {w : Token} (hw : w.kind = .classWord)
    (hdeclaration : ReadsDeclaration declaration) :
    Reads true (classOf declaration) (fun u _ s => Derives (.declaration s) (w :: u)) := by
  refine (reads_expect .identifier .className (by decide)).bind (n := true) fun name => ?_
  refine reads_superclass.bind (n := true) fun parent => ?_
  refine (reads_expect .leftBrace .classBodyStart (by decide)).bind (n := true) fun lb => ?_
  refine (Reads.manyUntil (E := fun _ => True) (O := fun u f => Derives (.function f) u)
    (I := fun u fs => Derives (.methods fs) u) sees_rightBrace_or_eof ?_ .noMethods
    fun _ _ _ _ hf hfs => .method hf hfs).bind (n := true) fun methods => ?_
  · intro t rest errors hs _
    exact (reads_function .method hdeclaration _ hs).bind (n := false)
      fun f _ _ _ _ _ => .pure fun hf => ⟨f, rfl, by simpa using hf⟩
  refine (reads_expect .rightBrace .classBodyEnd (by decide)).bind (n := false)
    fun rb => .pure ?_
  rintro rest _ ⟨rfl, hrb⟩ u ⟨hmethods, -⟩ _ ⟨rfl, hlb⟩ x hparent _ ⟨rfl, hname⟩
  cases parent with
  | none => simpa [hparent] using Derives.classOf hw hname hlb hmethods hrb
  | some ref =>
    obtain ⟨less, rfl, hless, hidentifier⟩ := hparent
    simpa using Derives.subclassOf hw hname hless hidentifier hlb hmethods hrb

theorem reads_var {w : Token} (hw : w.kind = .varWord)
    (hexpression : ReadsLevel true .assignment expression) :
    Reads true (var expression) (fun u _ s => Derives (.variable s) (w :: u)) := by
  refine (reads_expect .identifier .variableName (by decide)).bind (n := true) fun name => ?_
  intro s hs
  refine .skipped_bind (n := true) hs (by decide) ?_ fun _ => ?_
  · intro equals s' _ hs' hequals
    dsimp only
    rw [if_pos rfl]
    refine (hexpression s' hs').map.bind (n := true) fun o s'' _ _ hreach _ => ?_
    refine (reads_expect .semicolon .variableEnd (by decide) s'' (hreach.hasEnd hs')).bind
      (n := false) fun semi _ _ _ _ _ => .pure ?_
    rintro ⟨rfl, hsemi⟩ ⟨e, rfl, he⟩ _ ⟨rfl, hname⟩
    simpa using Derives.varInitial hw hname hequals he hsemi
  · refine (reads_expect .semicolon .variableEnd (by decide) s hs).bind (n := false)
      fun semi _ _ _ _ _ => .pure ?_
    rintro ⟨rfl, hsemi⟩ _ ⟨rfl, hname⟩
    simpa using Derives.var hw hname hsemi

theorem reads_expressionStatement (hexpression : ReadsLevel true .assignment expression) :
    Reads true (expressionStatement expression) (fun u _ s => ∃ v semi e, u = v ++ [semi] ∧
      s = .expression e ∧ Derives (.expression .assignment e) v ∧ semi.kind = .semicolon) := by
  refine hexpression.bind (n := true) fun e => ?_
  refine (reads_expect .semicolon .expressionEnd (by decide)).bind (n := false)
    fun semi => .pure ?_
  rintro rest _ ⟨rfl, hsemi⟩ v he
  exact ⟨v, semi, e, by simp, rfl, he, hsemi⟩

theorem reads_unlessSees (kind : Kind) (hexpression : ReadsLevel true .assignment expression) :
    Reads false (unlessSees kind expression) (fun u _ o => Derives (.optional o) u) := by
  intro s hs
  refine .sees_bind hs fun t _ => ?_
  split
  · exact .pure .absent
  · refine (hexpression s hs).map.weaken nofun ?_
    rintro u _ _ ⟨e, rfl, he⟩
    exact .present he

theorem reads_forInitial (hexpression : ReadsLevel true .assignment expression) :
    Reads true (forInitial expression) (fun u _ o => Derives (.initial o) u) := by
  intro s hs
  refine .skipped_bind (n := false) hs (by decide) ?_ fun _ => ?_
  · intro semi s' _ _ hsemi
    rw [if_pos rfl]
    exact .pure (.noInitial hsemi)
  · rw [if_neg (by simp)]
    refine .skipped_bind (n := true) hs (by decide) ?_ fun _ => ?_
    · intro w s' _ hs' hw
      rw [if_pos rfl]
      refine (reads_var hw hexpression s' hs').map.imp ?_
      rintro u _ _ ⟨v, rfl, hv⟩
      exact .initialVariable hv
    · rw [if_neg (by simp)]
      refine (reads_expressionStatement hexpression s hs).map.imp ?_
      rintro _ _ _ ⟨_, rfl, u, semi, e, rfl, rfl, he, hsemi⟩
      exact .initialExpression he hsemi

theorem reads_forLoop {w : Token} (hw : w.kind = .forWord)
    (hexpression : ReadsLevel true .assignment expression) (hstatement : ReadsStatement statement) :
    Reads true (forLoop expression statement) (fun u rest s => ∃ dangling,
      Derives (.statement dangling s) (w :: u) ∧
      (dangling = true → ∀ t, rest.head? = some t → t.kind ≠ .elseWord)) := by
  refine (reads_expect .leftParen .forClausesStart (by decide)).bind (n := true) fun l => ?_
  refine (reads_forInitial hexpression).bind (n := true) fun initial => ?_
  refine (reads_unlessSees .semicolon hexpression).bind (n := true) fun condition => ?_
  refine (reads_expect .semicolon .loopConditionEnd (by decide)).bind (n := true)
    fun semi => ?_
  refine (reads_unlessSees .rightParen hexpression).bind (n := true) fun step => ?_
  refine (reads_expect .rightParen .forClausesEnd (by decide)).bind (n := true) fun r => ?_
  refine hstatement.bind (n := false) fun body => .pure ?_
  rintro rest x ⟨dangling, hbody, hfollow⟩ _ ⟨rfl, hr⟩ v hstep _ ⟨rfl, hsemi⟩ u hcondition t hinitial
    _ ⟨rfl, hl⟩
  have h := Derives.forLoop hw hl hinitial hcondition hsemi hstep hr hbody
  exact ⟨dangling, by simpa using h, hfollow⟩

theorem reads_conditional {w : Token} (hw : w.kind = .ifWord)
    (hexpression : ReadsLevel true .assignment expression) (hstatement : ReadsStatement statement) :
    Reads true (conditional expression statement) (fun u rest s => ∃ dangling,
      Derives (.statement dangling s) (w :: u) ∧
      (dangling = true → ∀ t, rest.head? = some t → t.kind ≠ .elseWord)) := by
  refine (reads_expect .leftParen .ifConditionStart (by decide)).bind (n := true) fun l => ?_
  refine hexpression.bind (n := true) fun condition => ?_
  refine (reads_expect .rightParen .ifConditionEnd (by decide)).bind (n := true) fun r => ?_
  intro s hs
  refine (hstatement s hs).bind (n := false) fun body s' _ _ hreach _ => ?_
  refine .skipped_bind (n := true) (hreach.hasEnd hs) (by decide) ?_ ?_
  · intro otherwise s'' _ hs'' hotherwise
    refine (hstatement s'' hs'').bind (n := false) fun other _ _ _ _ _ => .pure ?_
    rintro ⟨dangling, hother, hfollow⟩ ⟨dangling', hbody, hfollow'⟩ _ ⟨rfl, hr⟩ u hcondition _
      ⟨rfl, hl⟩
    cases dangling' with
    | true => exact absurd hotherwise (hfollow' rfl _ rfl)
    | false =>
      have h := Derives.ifElse hw hl hcondition hr hbody hotherwise hother
      exact ⟨dangling, by simpa using h, by simpa using hfollow⟩
  · intro hfollow
    refine .pure ?_
    rintro ⟨dangling, hbody, _⟩ _ ⟨rfl, hr⟩ u hcondition _ ⟨rfl, hl⟩
    exact ⟨true, by simpa using Derives.ifThen hw hl hcondition hr hbody, fun _ => hfollow⟩

theorem reads_print {w : Token} (hw : w.kind = .printWord)
    (hexpression : ReadsLevel true .assignment expression) :
    Reads true (print expression) (fun u _ s => Derives (.statement false s) (w :: u)) := by
  refine hexpression.bind (n := true) fun e => ?_
  refine (reads_expect .semicolon .printEnd (by decide)).bind (n := false) fun semi => .pure ?_
  rintro rest _ ⟨rfl, hsemi⟩ v he
  simpa using Derives.print hw he hsemi

theorem reads_returnFrom {w : Token} (hw : w.kind = .returnWord)
    (hexpression : ReadsLevel true .assignment expression) :
    Reads true (returnFrom w expression) (fun u _ s => Derives (.statement false s) (w :: u)) := by
  refine (reads_unlessSees .semicolon hexpression).bind (n := true) fun value => ?_
  refine (reads_expect .semicolon .returnEnd (by decide)).bind (n := false)
    fun semi => .pure ?_
  rintro rest _ ⟨rfl, hsemi⟩ v hvalue
  simpa using Derives.returnFrom hw hvalue hsemi

theorem reads_whileLoop {w : Token} (hw : w.kind = .whileWord)
    (hexpression : ReadsLevel true .assignment expression) (hstatement : ReadsStatement statement) :
    Reads true (whileLoop expression statement) (fun u rest s => ∃ dangling,
      Derives (.statement dangling s) (w :: u) ∧
      (dangling = true → ∀ t, rest.head? = some t → t.kind ≠ .elseWord)) := by
  refine (reads_expect .leftParen .whileConditionStart (by decide)).bind (n := true)
    fun l => ?_
  refine hexpression.bind (n := true) fun condition => ?_
  refine (reads_expect .rightParen .whileConditionEnd (by decide)).bind (n := true)
    fun r => ?_
  refine hstatement.bind (n := false) fun body => .pure ?_
  rintro rest v ⟨dangling, hbody, hfollow⟩ _ ⟨rfl, hr⟩ u hcondition _ ⟨rfl, hl⟩
  exact ⟨dangling, by simpa using Derives.whileLoop hw hl hcondition hr hbody, hfollow⟩

/-- A declaration or statement, read without recovery from errors. -/
def attempted (depth : Nat) : Reader (Stmt Unit) := do
  let t ← peek
  match t.kind with
  | .classWord =>
    skip
    classOf (Grammar.declaration depth)
  | .funWord =>
    skip
    return .function (← function .function (Grammar.declaration depth))
  | .varWord =>
    skip
    var (Grammar.expression depth)
  | _ => Grammar.statement depth

theorem declaration_succ (depth : Nat) :
    Grammar.declaration (depth + 1) = recover (attempted depth) := rfl

/-- What begins as no other declaration is a statement. -/
theorem attempted_eq_statement {t : Token} (ht : t.kind ∉ [.classWord, .funWord, .varWord])
    (depth : Nat) (rest : List Token) (errors : List SyntaxError) :
    attempted depth ⟨t :: rest, errors⟩ = Grammar.statement depth ⟨t :: rest, errors⟩ := by
  rw [attempted, peek_bind_cons]
  refine congrFun ?_ _
  split
  case h_4 => rfl
  case h_1 hk | h_2 hk | h_3 hk => simp [hk] at ht

/-- What begins as no other statement is an expression. -/
theorem statement_eq_expressionStatement {t : Token}
    (ht : t.kind ∉ [.forWord, .ifWord, .printWord, .returnWord, .whileWord, .leftBrace])
    (depth : Nat) (rest : List Token) (errors : List SyntaxError) :
    Grammar.statement (depth + 1) ⟨t :: rest, errors⟩ =
      expressionStatement (Grammar.expression depth) ⟨t :: rest, errors⟩ := by
  rw [Grammar.statement, peek_bind_cons]
  refine congrFun ?_ _
  split
  case h_7 => rfl
  case h_1 hk | h_2 hk | h_3 hk | h_4 hk | h_5 hk | h_6 hk => simp [hk] at ht

theorem reads_attempted {depth : Nat} (hdeclaration : ReadsDeclaration (Grammar.declaration depth))
    (hstatement : ReadsStatement (Grammar.statement depth)) :
    Reads true (attempted depth) (fun u _ s => Derives (.declaration s) u) := by
  have hexpression := reads_expression depth
  refine .peek_bind fun t rest errors hs => ?_
  split
  case h_1 hk => exact .skip_bind (by simp [hk]) hs (reads_classOf hk hdeclaration)
  case h_2 hk =>
    refine .skip_bind (by simp [hk]) hs ((reads_function .function hdeclaration).bind (n := false)
      fun f => .pure fun _ u hf => ?_)
    simpa using Derives.functionDeclaration hk hf
  case h_3 hk =>
    exact .skip_bind (by simp [hk]) hs ((reads_var hk hexpression).imp fun _ _ _ => .variable)
  case h_4 =>
    refine (hstatement _ hs).imp ?_
    rintro u _ s ⟨dangling, hs, _⟩
    exact .statement hs

theorem reads_statement_succ {depth : Nat}
    (hdeclaration : ReadsDeclaration (Grammar.declaration depth))
    (hstatement : ReadsStatement (Grammar.statement depth)) :
    ReadsStatement (Grammar.statement (depth + 1)) := by
  have hexpression := reads_expression depth
  refine .peek_bind fun t rest errors hs => ?_
  -- these statements are no `if` and end in none, so an `else` may follow them
  have plain : ∀ {r : Reader (Stmt Unit)}, t.kind ≠ .eof →
      Reads true r (fun u _ s => Derives (.statement false s) (t :: u)) →
      ReadsAt ⟨t :: rest, errors⟩ true (do skip; r) (fun u rest s => ∃ dangling,
        Derives (.statement dangling s) u ∧
        (dangling = true → ∀ t, rest.head? = some t → t.kind ≠ .elseWord)) :=
    fun ht hr => .skip_bind ht hs (hr.imp fun _ _ _ h => ⟨false, h, nofun⟩)
  split
  case h_1 hk => exact .skip_bind (by simp [hk]) hs (reads_forLoop hk hexpression hstatement)
  case h_2 hk => exact .skip_bind (by simp [hk]) hs (reads_conditional hk hexpression hstatement)
  case h_3 hk => exact plain (by simp [hk]) (reads_print hk hexpression)
  case h_4 hk => exact plain (by simp [hk]) (reads_returnFrom hk hexpression)
  case h_5 hk => exact .skip_bind (by simp [hk]) hs (reads_whileLoop hk hexpression hstatement)
  case h_6 hk =>
    refine plain (by simp [hk]) ((reads_block hdeclaration).bind (n := false)
      fun body => .pure ?_)
    rintro _ _ ⟨v, rb, rfl, hbody, hrb⟩
    simpa using Derives.block hk hbody hrb
  case h_7 =>
    refine (reads_expressionStatement hexpression _ hs).imp ?_
    rintro _ _ _ ⟨u, semi, e, rfl, rfl, he, hsemi⟩
    exact ⟨false, .expressionStatement he hsemi, nofun⟩

/-- What the two readers that lead into each other read, at each depth. -/
theorem reads_declaration_and_statement (depth : Nat) :
    ReadsDeclaration (Grammar.declaration depth) ∧ ReadsStatement (Grammar.statement depth) := by
  induction depth with
  | zero => exact ⟨fun _ _ _ hs _ => reads_stop _ hs, reads_stop⟩
  | succ depth ih =>
    obtain ⟨hdeclaration, hstatement⟩ := ih
    exact ⟨fun t rest errors hs ht => .recover hs ht (reads_attempted hdeclaration hstatement _ hs),
      reads_statement_succ hdeclaration hstatement⟩

/-! ## Programs -/

theorem reads_program (depth : Nat) :
    Reads false (program depth) (fun u rest ss => Derives (.declarations ss) u ∧
      ∀ t, rest.head? = some t → t.kind = .eof) := by
  refine Reads.manyUntil (E := fun t => t.kind = .eof)
    (O := fun u s => Derives (.declaration s) u) (I := fun u ss => Derives (.declarations ss) u)
    ?_ (reads_declaration_and_statement depth).1 .noDeclarations
    fun _ _ _ _ hs hss => .declaration hs hss
  intro t rest errors
  refine ⟨decide (t.kind = .eof), rfl, ?_⟩
  split
  · rename_i h
    simpa using h
  · rename_i h
    simpa using h

theorem persists_program (depth : Nat) : Persists (program depth) := by
  refine persists_manyUntil (persists_sees .eof) ?_
  cases depth with
  | zero => exact fun s s' h => nomatch h
  | succ depth => exact persists_recover

end Grammar

/-- What comes before the end token. -/
def beforeEnd (tokens : List Token) : List Token := tokens.takeWhile (fun t => t.kind ≠ .eof)

theorem beforeEnd_append {u : List Token} {t : Token} {rest : List Token} (hu : NoEnd u)
    (ht : t.kind = .eof) : beforeEnd (u ++ t :: rest) = u := by
  rw [beforeEnd, List.takeWhile_append_of_pos fun x hx => decide_eq_true (hu x hx),
    List.takeWhile_cons_of_neg (by simp [ht]), List.append_nil]

/-- What a run of the parser amounts to. -/
theorem parse_eq_ok {depth : Nat} {tokens : List Token} {parsed : Parsed}
    (h : parse depth tokens = .ok parsed) :
    ∃ s, Grammar.program depth ⟨tokens, []⟩ = .ok parsed.program s ∧
      s.errors = parsed.errors := by
  unfold parse at h
  split at h
  · rename_i program s hprogram
    cases h
    exact ⟨s, hprogram, rfl⟩
  · cases h
  · cases h

/-- Parsing stops for nothing but its limit of nesting. -/
theorem eq_tooDeep_of_parse {depth : Nat} {tokens : List Token} (hend : HasEnd tokens) {f : Fault}
    (h : parse depth tokens = .error f) : f = .tooDeep := by
  have hreads := Grammar.reads_program depth ⟨tokens, []⟩ hend
  unfold Reader.ReadsAt at hreads
  unfold parse at h
  split at h
  · cases h
  · rename_i hprogram
    rw [hprogram] at hreads
    cases h
    exact hreads
  · rename_i hprogram
    exact absurd hprogram (Grammar.persists_program depth _ _)

/-- The tokens before the end, all of them, derive what parsing them without errors yields. -/
theorem derives_of_parse {depth : Nat} {tokens : List Token} (hend : HasEnd tokens)
    {parsed : Parsed} (h : parse depth tokens = .ok parsed) (herrors : parsed.errors = []) :
    Grammar.Derives (.declarations parsed.program) (beforeEnd tokens) := by
  obtain ⟨s, hprogram, hs⟩ := parse_eq_ok h
  have hreads := Grammar.reads_program depth ⟨tokens, []⟩ hend
  unfold Reader.ReadsAt at hreads
  rw [hprogram] at hreads
  obtain ⟨u, found, hreach, _, hderives⟩ := hreads
  have hfound : found = [] := by simpa [hs, herrors] using hreach.errors_eq
  obtain ⟨hd, ht⟩ := hderives hfound
  obtain ⟨t, rest, hrest⟩ := (hreach.hasEnd hend).exists_cons
  have htokens : tokens = u ++ t :: rest := by simpa [hrest] using hreach.rest_eq
  rw [htokens, beforeEnd_append hreach.noEnd (ht t (by rw [hrest]; rfl))]
  exact hd

/-- **A token list that parses without errors derives its program.** All tokens before the first
end token, in their order, are a derivation of the program that parsing yields.  Parsing a token
list that has an end stops for nothing but its limit of nesting. -/
theorem parse_derives (depth : Nat) (tokens : List Token) (hend : HasEnd tokens) :
    (∀ f, parse depth tokens = .error f → f = .tooDeep) ∧
      ∀ parsed, parse depth tokens = .ok parsed → parsed.errors = [] →
        Grammar.Derives (.declarations parsed.program) (beforeEnd tokens) :=
  ⟨fun _ h => eq_tooDeep_of_parse hend h, fun _ h herrors => derives_of_parse hend h herrors⟩

/-- The tokens of `if (a) if (b) x.y = 1; else z;`. -/
def nestedConditional : List Token :=
  [⟨.ifWord, "if", .nil, 1⟩, ⟨.leftParen, "(", .nil, 1⟩, ⟨.identifier, "a", .nil, 1⟩,
    ⟨.rightParen, ")", .nil, 1⟩, ⟨.ifWord, "if", .nil, 1⟩, ⟨.leftParen, "(", .nil, 1⟩,
    ⟨.identifier, "b", .nil, 1⟩, ⟨.rightParen, ")", .nil, 1⟩, ⟨.identifier, "x", .nil, 1⟩,
    ⟨.dot, ".", .nil, 1⟩, ⟨.identifier, "y", .nil, 1⟩, ⟨.equal, "=", .nil, 1⟩,
    ⟨.number, "1", .number 1, 1⟩, ⟨.semicolon, ";", .nil, 1⟩, ⟨.elseWord, "else", .nil, 1⟩,
    ⟨.identifier, "z", .nil, 1⟩, ⟨.semicolon, ";", .nil, 1⟩, ⟨.eof, "", .nil, 1⟩]

/-- The `else` belongs to the inner `if`, and all tokens before the end take part. -/
theorem parse_derives_nestedConditional :
    HasEnd nestedConditional ∧
      Grammar.Derives
        (.declarations [.ifThen (.nameRef ⟨(), ⟨.identifier, "a", .nil, 1⟩⟩)
          (.ifElse (.nameRef ⟨(), ⟨.identifier, "b", .nil, 1⟩⟩)
            (.expression (.set (.nameRef ⟨(), ⟨.identifier, "x", .nil, 1⟩⟩)
              ⟨.identifier, "y", .nil, 1⟩ (.literal (.number 1))))
            (.expression (.nameRef ⟨(), ⟨.identifier, "z", .nil, 1⟩⟩)))])
        (nestedConditional.take 17) := by
  have hend : HasEnd nestedConditional := ⟨⟨.eof, "", .nil, 1⟩, by simp [nestedConditional], rfl⟩
  exact ⟨hend, (parse_derives 9 nestedConditional hend).2 _ rfl rfl⟩

end LoxLang
