import LoxLang.Proofs.Grammar.Termination

/-! # Errors stay in their statement

A token list that parses without errors, or that is a single flat statement, whatever is wrong with
it, does not show in how the tokens behind it are read, nor do these show in how it is read.  A flat
statement has its only semicolon at its end, and nothing inside that opens a block or begins another
statement.

The argument follows the reading of a flat statement with two different continuations behind its
semicolon (`Settles`).  Readers of expressions keep pace up to the semicolon, which none of them
takes (`Reader.Paced` at the stretch `clause`).  So either the statement is read to its end, and
both runs stand behind the semicolon, or both fail at the same token before that; and then recovery
skips to behind the semicolon, because nothing in between is a place to go on.  A class or a
function always fails, for want of a brace.

What a program yields is then put together from its parts (`parse_isolated`): the loop that reads
it comes to the boundary with the declarations and errors of the first part (`Passes`), and from
there it goes on as if it began there (`parse_of_passes`). -/

namespace LoxLang

open Reader

/-! ## Flat statements -/

/-- A statement with its only semicolon at its end, and with nothing inside that opens a block or
begins another statement. A loop with clauses is not flat. -/
structure IsFlat (p : List Token) : Prop where
  semicolon : p.getLast?.map Token.kind = some .semicolon
  noOther : ∀ t ∈ p.dropLast, t.kind ≠ .semicolon
  noBrace : ∀ t ∈ p, t.kind ≠ .leftBrace
  noFor : p.head?.map Token.kind ≠ some .forWord
  noStart : ∀ t ∈ p.tail, t.kind.startsStatement = false

instance (p : List Token) : Decidable (IsFlat p) :=
  decidable_of_iff (p.getLast?.map Token.kind = some .semicolon ∧
      (∀ t ∈ p.dropLast, t.kind ≠ .semicolon) ∧ (∀ t ∈ p, t.kind ≠ .leftBrace) ∧
      p.head?.map Token.kind ≠ some .forWord ∧ ∀ t ∈ p.tail, t.kind.startsStatement = false)
    ⟨fun h => ⟨h.1, h.2.1, h.2.2.1, h.2.2.2.1, h.2.2.2.2⟩,
      fun h => ⟨h.1, h.2, h.3, h.4, h.5⟩⟩

/-- A token inside a flat statement, behind its first word. -/
structure Token.Inner (t : Token) : Prop where
  noEnd : t.kind ≠ .eof
  noSemicolon : t.kind ≠ .semicolon
  noBrace : t.kind ≠ .leftBrace
  noStart : t.kind.startsStatement = false

/-- A flat statement is an empty one, or a first token that is neither a brace nor a `for`, then
tokens of its inside, and the semicolon. -/
theorem IsFlat.shape {p : List Token} (h : IsFlat p) (hend : NoEnd p) :
    ∃ semi, semi.kind = .semicolon ∧ ∃ body, p = body ++ [semi] ∧
      (∀ t ∈ body.tail, t.Inner) ∧
      ∀ t, body.head? = some t →
        t.kind ≠ .forWord ∧ (t.kind.startsStatement = false → t.Inner) := by
  obtain ⟨semi, hlast, hsemi⟩ := Option.map_eq_some_iff.mp h.semicolon
  obtain ⟨body, rfl⟩ := List.getLast?_eq_some_iff.mp hlast
  have hbody : ∀ t ∈ body, t.kind ≠ .semicolon := by
    intro t ht
    exact h.noOther t (by rwa [List.dropLast_concat])
  have hinner : ∀ t ∈ body, t.kind.startsStatement = false → t.Inner := fun t ht hstart =>
    ⟨hend t (List.mem_append_left _ ht), hbody t ht, h.noBrace t (List.mem_append_left _ ht),
      hstart⟩
  refine ⟨semi, hsemi, body, rfl, fun t ht => ?_, fun t ht => ⟨?_, hinner t ?_⟩⟩
  · refine hinner t (List.mem_of_mem_tail ht) (h.noStart t ?_)
    cases body with
    | nil => cases ht
    | cons _ body => exact List.mem_append_left _ ht
  · intro hfor
    refine h.noFor ?_
    rw [List.head?_append, ht]
    exact congrArg some hfor
  · exact List.mem_of_mem_head? ht

namespace Grammar

/-- Tokens that may stand behind a statement: there is a first, and it is no `else`. -/
def MayFollow (tokens : List Token) : Prop := ∃ t rest, tokens = t :: rest ∧ t.kind ≠ .elseWord

theorem BeginsNoElse.mayFollow {q : List Token} (hq : BeginsNoElse q) {e : Token}
    (he : e.kind = .eof) : MayFollow (q ++ [e]) := by
  cases q with
  | nil => exact ⟨e, [], rfl, by simp [he]⟩
  | cons t q => exact ⟨t, q ++ [e], rfl, hq t rfl⟩

theorem beginsNoElse_flatten {us : List (List Token)} (h : ∀ u ∈ us, BeginsNoElse u) :
    BeginsNoElse us.flatten := by
  induction us with
  | nil => exact fun _ h => nomatch h
  | cons u us ih =>
    rw [List.forall_mem_cons] at h
    exact h.1.append (ih h.2)

/-! ## Two continuations -/

section
variable {semi : Token} {X Y : List Token} {s s' t t' : Cursor} {α β : Type}

/-- Two cursors inside a flat statement, before the same tokens up to its semicolon. -/
def Within (semi : Token) (X Y : List Token) (s s' : Cursor) : Prop :=
  ∃ body, (∀ t ∈ body, t.Inner) ∧ s.rest = body ++ semi :: X ∧ s'.rest = body ++ semi :: Y

/-- Two runs of a reader come to the same end: behind the semicolon with the same result, or to the
same interrupt, and if that is a syntax error, then before the semicolon. Both take down the same
errors. -/
def Settles (semi : Token) (X Y : List Token) (s s' : Cursor) (r : Reader α) : Prop :=
  match r s with
  | .ok a t => ∃ found, t = ⟨X, s.errors ++ found⟩ ∧ r s' = .ok a ⟨Y, s'.errors ++ found⟩
  | .error i t => ∃ t' found, r s' = .error i t' ∧ (i = .syntaxError → Within semi X Y t t') ∧
      t.errors = s.errors ++ found ∧ t'.errors = s'.errors ++ found

/-- Two runs that go on as others do, behind errors they have taken down. -/
theorem Settles.behind {r x : Reader α} {found : List SyntaxError} (hrun : x s = r t)
    (hrun' : x s' = r t') (herrors : t.errors = s.errors ++ found)
    (herrors' : t'.errors = s'.errors ++ found) (h : Settles semi X Y t t' r) :
    Settles semi X Y s s' x := by
  unfold Settles at h ⊢
  rw [hrun, hrun']
  cases hr : r t with
  | ok a u =>
    rw [hr] at h
    obtain ⟨others, rfl, hok⟩ := h
    rw [herrors, herrors'] at *
    exact ⟨found ++ others, by rw [List.append_assoc], by rw [hok, List.append_assoc]⟩
  | error i u =>
    rw [hr] at h
    obtain ⟨u', others, herror, hwithin, hu, hu'⟩ := h
    refine ⟨u', found ++ others, herror, hwithin, ?_, ?_⟩
    · rw [hu, herrors, List.append_assoc]
    · rw [hu', herrors', List.append_assoc]

/-- Runs that keep pace up to the semicolon stay inside the statement. -/
theorem Within.together (h : Within semi X Y s s') (hsemi : semi.kind = .semicolon)
    {read : List Token} {found : List SyntaxError}
    (htogether : Together .clause s s' t t' read found) : Within semi X Y t t' := by
  obtain ⟨body, hbody, hs, hs'⟩ := h
  have hfirst := htogether.first.rest_eq
  have hsecond := htogether.second.rest_eq
  rw [hs] at hfirst
  rw [hs'] at hsecond
  rcases List.append_eq_append_iff.mp hfirst with ⟨more, rfl, hmore⟩ | ⟨rest, rfl, hrest⟩
  · -- more than the inside would have been read, with the semicolon
    cases more with
    | nil =>
      refine ⟨[], List.forall_mem_nil _, by simpa using hmore.symm, ?_⟩
      rw [List.append_nil] at hsecond
      exact (List.append_cancel_left hsecond).symm
    | cons t more =>
      obtain ⟨rfl, _⟩ := List.cons.inj hmore
      exact absurd (Stretch.ends_semicolon hsemi) (htogether.before semi (by simp))
  · refine ⟨rest, fun t ht => hbody t (List.mem_append_right _ ht), hrest, ?_⟩
    rw [List.append_assoc] at hsecond
    exact (List.append_cancel_left hsecond).symm

theorem Within.same (h : Within semi X Y s s') (hsemi : semi.kind = .semicolon) :
    SameTo .clause s.rest s'.rest := by
  obtain ⟨body, _, hs, hs'⟩ := h
  rw [hs, hs']
  exact (SameTo.stop (Stretch.ends_semicolon hsemi) X Y).append body

/-- The next token is none that cannot stand inside a flat statement. -/
theorem Within.exists_cons (h : Within semi X Y s s') (hsemi : semi.kind = .semicolon) :
    ∃ t rest rest', s.rest = t :: rest ∧ s'.rest = t :: rest' ∧ t.kind ≠ .leftBrace ∧
      t.kind.startsStatement = false := by
  obtain ⟨body, hbody, hs, hs'⟩ := h
  cases body with
  | nil => exact ⟨semi, X, Y, hs, hs', by simp [hsemi], by rw [hsemi]; rfl⟩
  | cons t body =>
    have ht := hbody t List.mem_cons_self
    exact ⟨t, _, _, hs, hs', ht.noBrace, ht.noStart⟩

section
variable (hsemi : semi.kind = .semicolon) (hs : Within semi X Y s s')

include hsemi hs

/-- A reader that keeps pace up to the semicolon, and what settles the rest. -/
theorem settles_bind {m : Bool} {k : Nat} {r : Reader α} {q : α → Reader β}
    (hr : Paced .clause True m k r r)
    (hq : ∀ a t t', Within semi X Y t t' → Settles semi X Y t t' (q a)) :
    Settles semi X Y s s' (r >>= q) := by
  have h := hr s s' (hs.same hsemi)
  unfold PacedAt at h
  cases hrs : r s with
  | ok a t =>
    rw [hrs] at h
    obtain ⟨t', read, found, hrs', htogether, _⟩ := h
    exact (hq a t t' (hs.together hsemi htogether)).behind (EStateM.bind_ok hrs)
      (EStateM.bind_ok hrs') htogether.first.errors_eq htogether.second.errors_eq
  | error i t =>
    rw [hrs] at h
    obtain ⟨t', read, found, hrs', htogether⟩ := h.2 fun _ => trivial
    unfold Settles
    rw [EStateM.bind_error hrs]
    exact ⟨t', found, EStateM.bind_error hrs', fun _ => hs.together hsemi htogether,
      htogether.first.errors_eq, htogether.second.errors_eq⟩

/-- A token that has to be there is missing. -/
theorem settles_missing {kind : Kind} (hne : ∀ t, s.rest.head? = some t → t.kind ≠ kind)
    (what : Expectation) (q : Token → Reader α) :
    Settles semi X Y s s' (expect kind what >>= q) := by
  obtain ⟨t, rest, rest', ht, ht', _⟩ := hs.exists_cons hsemi
  have hkind : t.kind ≠ kind := hne t (by rw [ht]; rfl)
  obtain ⟨tokens, errors⟩ := s
  obtain ⟨tokens', errors'⟩ := s'
  obtain rfl : tokens = t :: rest := ht
  obtain rfl : tokens' = t :: rest' := ht'
  have hfails : ∀ rest errors, (expect kind what >>= q) ⟨t :: rest, errors⟩ =
      .error .syntaxError ⟨t :: rest, errors ++ [⟨.expected what, t⟩]⟩ := by
    intro rest errors
    rw [EStateM.bind_error]
    rw [expect_of_ne hkind]
    rfl
  unfold Settles
  rw [hfails]
  exact ⟨_, [⟨.expected what, t⟩], hfails rest' errors', fun _ => hs, rfl, rfl⟩

/-- The semicolon ends the statement. -/
theorem settles_semicolon (what : Expectation) (a : α) :
    Settles semi X Y s s' (do let _ ← expect .semicolon what; return a) := by
  obtain ⟨body, hbody, hrest, hrest'⟩ := id hs
  cases body with
  | nil =>
    obtain ⟨tokens, errors⟩ := s
    obtain ⟨tokens', errors'⟩ := s'
    obtain rfl : tokens = semi :: X := hrest
    obtain rfl : tokens' = semi :: Y := hrest'
    have htaken : ∀ rest errors, (do let _ ← expect .semicolon what; return a : Reader α)
        ⟨semi :: rest, errors⟩ = .ok a ⟨rest, errors⟩ := by
      intro rest errors
      rw [EStateM.bind_ok (expect_of_eq hsemi what rest errors)]
      rfl
    unfold Settles
    rw [htaken]
    exact ⟨[], by simp, by rw [htaken]; simp⟩
  | cons t body =>
    refine settles_missing hsemi hs (fun t' ht' => ?_) _ _
    rw [hrest, List.cons_append, List.head?_cons, Option.some.injEq] at ht'
    exact ht' ▸ (hbody t List.mem_cons_self).noSemicolon

/-- No brace is there. -/
theorem settles_brace (what : Expectation) (q : Token → Reader α) :
    Settles semi X Y s s' (expect .leftBrace what >>= q) := by
  obtain ⟨t, rest, _, ht, _, hbrace, _⟩ := hs.exists_cons hsemi
  refine settles_missing hsemi hs (fun t' ht' => ?_) _ _
  rw [ht, List.head?_cons, Option.some.injEq] at ht'
  exact ht' ▸ hbrace

end

/-- What is done behind the semicolon reads nothing. -/
theorem Settles.andThen {r : Reader α} {q : α → Reader β} (h : Settles semi X Y s s' r)
    (hq : ∀ a, ∃ b, ∀ Z ∈ [X, Y], ∀ errors, q a ⟨Z, errors⟩ = .ok b ⟨Z, errors⟩) :
    Settles semi X Y s s' (r >>= q) := by
  unfold Settles at h ⊢
  cases hr : r s with
  | ok a t =>
    rw [hr] at h
    obtain ⟨found, rfl, hr'⟩ := h
    obtain ⟨b, hb⟩ := hq a
    rw [EStateM.bind_ok hr, hb X (by simp)]
    exact ⟨found, rfl, by rw [EStateM.bind_ok hr', hb Y (by simp)]⟩
  | error i t =>
    rw [hr] at h
    obtain ⟨t', found, hr', hwithin, hfound⟩ := h
    rw [EStateM.bind_error hr]
    exact ⟨t', found, EStateM.bind_error hr', hwithin, hfound⟩

/-- A reader that begins with a token it has looked at. -/
theorem Settles.skip {first : Token} {rest rest' : List Token} {errors errors' : List SyntaxError}
    {r x : Reader α} (hstep : ∀ rest errors, x ⟨first :: rest, errors⟩ = r ⟨rest, errors⟩)
    (h : Settles semi X Y ⟨rest, errors⟩ ⟨rest', errors'⟩ r) :
    Settles semi X Y ⟨first :: rest, errors⟩ ⟨first :: rest', errors'⟩ x :=
  h.behind (hstep rest errors) (hstep rest' errors') (List.append_nil _).symm
    (List.append_nil _).symm

/-- A reader that does with the next token what another one does. -/
theorem Settles.stays {first : Token} {rest rest' : List Token} {r x : Reader α}
    (h : Settles semi X Y s s' r) (hs : s.rest = first :: rest) (hs' : s'.rest = first :: rest')
    (hstep : ∀ rest errors, x ⟨first :: rest, errors⟩ = r ⟨first :: rest, errors⟩) :
    Settles semi X Y s s' x := by
  obtain ⟨tokens, errors⟩ := s
  obtain ⟨tokens', errors'⟩ := s'
  obtain rfl : tokens = first :: rest := hs
  obtain rfl : tokens' = first :: rest' := hs'
  exact h.behind (hstep rest errors) (hstep rest' errors') (List.append_nil _).symm
    (List.append_nil _).symm

theorem settles_stop (f : Fault) : Settles semi X Y s s' (stop f : Reader α) :=
  ⟨s', [], rfl, nofun, by simp, by simp⟩

/-! ## The statements -/

section
variable {k : Nat} {e : Reader (Expr Unit)} (hsemi : semi.kind = .semicolon)
  (he : Paced .clause True true k e e)

include hsemi he

theorem settles_expressionStatement (hs : Within semi X Y s s') :
    Settles semi X Y s s' (expressionStatement e) :=
  settles_bind hsemi hs he fun value _ _ h => settles_semicolon hsemi h _ (Stmt.expression value)

theorem settles_print (hs : Within semi X Y s s') : Settles semi X Y s s' (print e) :=
  settles_bind hsemi hs he fun value _ _ h => settles_semicolon hsemi h _ (Stmt.print value)

theorem settles_returnFrom (keyword : Token) (hs : Within semi X Y s s') :
    Settles semi X Y s s' (returnFrom keyword e) :=
  settles_bind hsemi hs (paced_unlessSees he _) fun value _ _ h =>
    settles_semicolon hsemi h _ (Stmt.returnFrom keyword value)

omit he

/-- Taking a token that is neither the end nor a semicolon. -/
theorem settles_expect_bind {kind : Kind} (hk : kind ≠ .eof) (hk' : kind ≠ .semicolon)
    (what : Expectation) {q : Token → Reader α} (hs : Within semi X Y s s')
    (hq : ∀ a t t', Within semi X Y t t' → Settles semi X Y t t' (q a)) :
    Settles semi X Y s s' (expect kind what >>= q) :=
  settles_bind (k := 0) hsemi hs (paced_expect what (Stretch.not_ends hk hk')) hq

include he

theorem settles_var (hs : Within semi X Y s s') : Settles semi X Y s s' (var e) := by
  refine settles_expect_bind hsemi (by decide) (by decide) _ hs fun name t t' ht => ?_
  have hequal : ¬ Stretch.clause.Ends .equal := by decide
  refine settles_bind (k := 0) hsemi ht (paced_skipped hequal) fun b u u' hu => ?_
  cases b with
  | true =>
    exact settles_bind hsemi hu (he.map some) fun initial _ _ h =>
      settles_semicolon hsemi h _ (Stmt.var name initial)
  | false => exact settles_semicolon hsemi hu _ (Stmt.var name none)

omit he

/-- A function has no body. -/
theorem settles_function (kind : CallableKind) (d : Reader (Option (Stmt Unit)))
    (hs : Within semi X Y s s') : Settles semi X Y s s' (function kind d) := by
  refine settles_expect_bind hsemi (by decide) (by decide) _ hs fun name t t' ht => ?_
  refine settles_expect_bind hsemi (by decide) (by decide) _ ht fun _ u u' hu => ?_
  refine settles_bind (k := 0) hsemi hu paced_parameters fun params v v' hv => ?_
  exact settles_expect_bind hsemi (by decide) (by decide) _ hv fun _ _ _ h =>
    settles_brace hsemi h _ _

/-- A class has no body. -/
theorem settles_classOf (d : Reader (Option (Stmt Unit))) (hs : Within semi X Y s s') :
    Settles semi X Y s s' (classOf d) := by
  refine settles_expect_bind hsemi (by decide) (by decide) _ hs fun name t t' ht => ?_
  exact settles_bind (k := 0) hsemi ht paced_superclass fun _ _ _ h => settles_brace hsemi h _ _

include he

section
variable {r : Reader (Stmt Unit)} (hr : ∀ t t', Within semi X Y t t' → Settles semi X Y t t' r)

include hr

theorem settles_whileLoop (hs : Within semi X Y s s') :
    Settles semi X Y s s' (whileLoop e r) := by
  refine settles_expect_bind hsemi (by decide) (by decide) _ hs fun _ t t' ht => ?_
  refine settles_bind hsemi ht he fun condition u u' hu => ?_
  refine settles_expect_bind hsemi (by decide) (by decide) _ hu fun _ v v' hv => ?_
  exact (hr v v' hv).andThen fun body => ⟨Stmt.whileLoop condition body, fun _ _ _ => rfl⟩

/-- An `if` looks across the semicolon, but only for an `else`. -/
theorem settles_conditional (hnext : ∀ Z ∈ [X, Y], MayFollow Z)
    (hs : Within semi X Y s s') : Settles semi X Y s s' (conditional e r) := by
  refine settles_expect_bind hsemi (by decide) (by decide) _ hs fun _ t t' ht => ?_
  refine settles_bind hsemi ht he fun condition u u' hu => ?_
  refine settles_expect_bind hsemi (by decide) (by decide) _ hu fun _ v v' hv => ?_
  refine (hr v v' hv).andThen fun body => ⟨Stmt.ifThen condition body, fun Z hZ errors => ?_⟩
  obtain ⟨next, rest, rfl, hne⟩ := hnext Z hZ
  rw [EStateM.bind_ok (skipped_of_ne hne rest errors)]
  rfl

end

end

section
variable (hsemi : semi.kind = .semicolon)

include hsemi

/-- Inside a flat statement there is no other statement than an expression. -/
theorem settles_statement (depth : Nat) (hs : Within semi X Y s s') :
    Settles semi X Y s s' (statement depth) := by
  cases depth with
  | zero => exact settles_stop .tooDeep
  | succ depth =>
    obtain ⟨t, rest, rest', ht, ht', hbrace, hstart⟩ := hs.exists_cons hsemi
    have hother : t.kind ∉
        [Kind.forWord, .ifWord, .printWord, .returnWord, .whileWord, .leftBrace] := by
      intro hk
      have hstarts : ∀ k ∈ [Kind.forWord, .ifWord, .printWord, .returnWord, .whileWord, .leftBrace],
          k = .leftBrace ∨ k.startsStatement = true := by decide
      rcases hstarts t.kind hk with hk | hk
      · exact hbrace hk
      · exact Bool.false_ne_true (hstart.symm.trans hk)
    have he := paced_expression (z := .clause) (Nat.le_refl depth) fun _ : True => rfl
    exact (settles_expressionStatement hsemi he hs).stays ht ht'
      (statement_eq_expressionStatement hother depth)

variable (hnext : ∀ Z ∈ [X, Y], MayFollow Z)

include hnext

/-- A flat statement that begins with a word of its own. -/
theorem settles_keyword (depth : Nat) {t : Token} (hstart : t.kind.startsStatement = true)
    (hfor : t.kind ≠ .forWord) {rest rest' : List Token} {errors errors' : List SyntaxError}
    (hs : Within semi X Y ⟨rest, errors⟩ ⟨rest', errors'⟩) :
    Settles semi X Y ⟨t :: rest, errors⟩ ⟨t :: rest', errors'⟩ (attempted depth) := by
  have he : Paced .clause True true (depth + 2) (expression depth) (expression depth) :=
    paced_expression (Nat.le_refl depth) fun _ => rfl
  by_cases hdeclares : t.kind ∈ [.classWord, .funWord, .varWord]
  · simp only [List.mem_cons, List.not_mem_nil, or_false] at hdeclares
    rcases hdeclares with hk | hk | hk
    · refine (settles_classOf hsemi (declaration depth) hs).skip fun rest errors => ?_
      rw [attempted, peek_bind_cons, hk]
      rfl
    · have hfunction := (settles_function hsemi .function (declaration depth) hs).andThen
        (q := fun f => pure (Stmt.function f)) fun f => ⟨_, fun _ _ _ => rfl⟩
      refine hfunction.skip fun rest errors => ?_
      rw [attempted, peek_bind_cons, hk]
      rfl
    · refine (settles_var hsemi he hs).skip fun rest errors => ?_
      rw [attempted, peek_bind_cons, hk]
      rfl
  · refine Settles.stays (r := statement depth) ?_ rfl rfl (attempted_eq_statement hdeclares depth)
    cases depth with
    | zero => exact settles_stop .tooDeep
    | succ depth =>
      have he : Paced .clause True true (depth + 2) (expression depth) (expression depth) :=
        paced_expression (Nat.le_refl depth) fun _ => rfl
      have hr : ∀ t t', Within semi X Y t t' → Settles semi X Y t t' (statement depth) :=
        fun _ _ => settles_statement hsemi depth
      unfold Kind.startsStatement at hstart
      split at hstart
      case h_1 hk | h_2 hk | h_3 hk => simp [hk] at hdeclares
      case h_4 hk => exact absurd hk hfor
      case h_5 hk =>
        refine (settles_conditional hsemi he hr hnext hs).skip fun rest errors => ?_
        rw [statement, peek_bind_cons, hk]
        rfl
      case h_6 hk =>
        refine (settles_whileLoop hsemi he hr hs).skip fun rest errors => ?_
        rw [statement, peek_bind_cons, hk]
        rfl
      case h_7 hk =>
        refine (settles_print hsemi he hs).skip fun rest errors => ?_
        rw [statement, peek_bind_cons, hk]
        rfl
      case h_8 hk =>
        refine (settles_returnFrom hsemi he t hs).skip fun rest errors => ?_
        rw [statement, peek_bind_cons, hk]
        rfl
      case h_9 => cases hstart

/-- **A flat statement is settled before its continuation.** -/
theorem settles_flat (depth : Nat) {body : List Token} (htail : ∀ t ∈ body.tail, t.Inner)
    (hhead : ∀ t, body.head? = some t →
      t.kind ≠ .forWord ∧ (t.kind.startsStatement = false → t.Inner))
    (errors errors' : List SyntaxError) :
    Settles semi X Y ⟨body ++ semi :: X, errors⟩ ⟨body ++ semi :: Y, errors'⟩
      (attempted depth) := by
  -- a statement that begins with no word of its own is inside from its first token on
  have hplain : (∀ t ∈ body, t.Inner) → Settles semi X Y ⟨body ++ semi :: X, errors⟩
      ⟨body ++ semi :: Y, errors'⟩ (attempted depth) := by
    intro hbody
    have hs : Within semi X Y ⟨body ++ semi :: X, errors⟩ ⟨body ++ semi :: Y, errors'⟩ :=
      ⟨body, hbody, rfl, rfl⟩
    obtain ⟨t, rest, rest', ht, ht', _, hstart⟩ := hs.exists_cons hsemi
    refine (settles_statement hsemi depth hs).stays ht ht' (attempted_eq_statement ?_ depth)
    rintro hdeclares
    simp only [List.mem_cons, List.not_mem_nil, or_false] at hdeclares
    rcases hdeclares with hk | hk | hk <;> rw [hk] at hstart <;> cases hstart
  cases body with
  | nil => exact hplain (List.forall_mem_nil _)
  | cons t body =>
    obtain ⟨hfor, hinner⟩ := hhead t rfl
    cases hstart : t.kind.startsStatement with
    | false => exact hplain (List.forall_mem_cons.mpr ⟨hinner hstart, htail⟩)
    | true => exact settles_keyword hsemi hnext depth hstart hfor ⟨body, htail, rfl, rfl⟩

end

end

/-! ## Recovery -/

section
variable {semi : Token} {X : List Token} (hsemi : semi.kind = .semicolon) (hX : X ≠ [])

include hsemi hX

theorem resumeAfter_flat {body : List Token} (hbody : ∀ t ∈ body, t.Inner) {last : Kind}
    (hlast : last ≠ .semicolon) : resumeAfter last (body ++ semi :: X) = some X := by
  induction body generalizing last with
  | nil =>
    obtain ⟨t, rest, rfl⟩ := List.exists_cons_of_ne_nil hX
    simp [resumeAfter, hsemi, hlast, Kind.startsStatement]
  | cons t body ih =>
    rw [List.forall_mem_cons] at hbody
    have hskip : ¬ (t.kind = .eof ∨ last = .semicolon ∨ t.kind.startsStatement) := by
      simp [hbody.1.noEnd, hlast, hbody.1.noStart]
    rw [List.cons_append, resumeAfter, if_neg hskip]
    exact ih hbody.2 hbody.1.noSemicolon

/-- Recovery inside a flat statement goes on behind it. -/
theorem resume_flat {body : List Token} (hbody : ∀ t ∈ body, t.Inner) :
    resume (body ++ semi :: X) = some X := by
  cases body with
  | nil =>
    obtain ⟨t, rest, rfl⟩ := List.exists_cons_of_ne_nil hX
    simp [resume, resumeAfter, hsemi]
  | cons t body =>
    rw [List.forall_mem_cons] at hbody
    rw [List.cons_append, resume, if_neg hbody.1.noEnd]
    exact resumeAfter_flat hsemi hX hbody.2 hbody.1.noSemicolon

end

/-- A flat statement is read the same way whatever stands behind it. -/
theorem declaration_flat {p : List Token} (hflat : IsFlat p) (hend : NoEnd p) (depth : Nat) :
    (∃ o found, ∀ X errors, MayFollow X →
        declaration depth ⟨p ++ X, errors⟩ = .ok o ⟨X, errors ++ found⟩) ∨
      ∃ f, ∀ X errors, MayFollow X →
        ∃ t, declaration depth ⟨p ++ X, errors⟩ = .error (.fault f) t := by
  cases depth with
  | zero => exact .inr ⟨.tooDeep, fun X errors _ => ⟨_, rfl⟩⟩
  | succ depth =>
    obtain ⟨semi, hsemi, body, rfl, htail, hhead⟩ := hflat.shape hend
    have hcons : ∀ X, body ++ [semi] ++ X = body ++ semi :: X := fun X => by simp
    -- the run before the end token alone shows how all others go
    have halone : MayFollow [⟨.eof, "", .nil, 1⟩] := ⟨_, _, rfl, nofun⟩
    have hsettles : ∀ Y errors, MayFollow Y → Settles semi [⟨.eof, "", .nil, 1⟩] Y
        ⟨body ++ semi :: [⟨.eof, "", .nil, 1⟩], []⟩ ⟨body ++ semi :: Y, errors⟩
        (attempted depth) := by
      intro Y errors hY
      refine settles_flat hsemi (fun Z hZ => ?_) depth htail hhead [] errors
      simp only [List.mem_cons, List.not_mem_nil, or_false] at hZ
      rcases hZ with rfl | rfl
      · exact halone
      · exact hY
    unfold Settles at hsettles
    simp only [hcons, declaration_succ, Reader.recover]
    cases hrun : attempted depth ⟨body ++ semi :: [⟨.eof, "", .nil, 1⟩], []⟩ with
    | ok a t =>
      refine .inl ⟨some a, t.errors, fun Y errors hY => ?_⟩
      have h := hsettles Y errors hY
      rw [hrun] at h
      obtain ⟨found, rfl, hrun'⟩ := h
      simp [hrun']
    | error i t =>
      cases i with
      | fault f =>
        refine .inr ⟨f, fun Y errors hY => ?_⟩
        have h := hsettles Y errors hY
        rw [hrun] at h
        obtain ⟨t', _, hrun', _⟩ := h
        exact ⟨t', by rw [hrun']⟩
      | syntaxError =>
        refine .inl ⟨none, t.errors, fun Y errors hY => ?_⟩
        have h := hsettles Y errors hY
        rw [hrun] at h
        obtain ⟨t', found, hrun', hwithin, hfound, hfound'⟩ := h
        obtain ⟨left, hleft, _, hrest'⟩ := hwithin rfl
        have hY' : Y ≠ [] := by
          obtain ⟨_, _, rfl, _⟩ := hY
          exact List.cons_ne_nil _ _
        simp only [hrun', hrest', resume_flat hsemi hY' hleft, hfound, hfound', List.nil_append]

/-! ## Programs -/

/-- The turns of the loop that reads a program. -/
abbrev declarations (depth : Nat) (turns : List Token) (items : List (Stmt Unit)) :
    Reader (List (Stmt Unit)) :=
  manyUntil.more (sees .eof) (declaration depth) turns items

/-- The loop that reads a program passes over a part: whatever stands behind the part, the loop
comes to there with the part's declarations and errors. -/
def Passes (depth : Nat) (part : List Token) (program : List (Stmt Unit))
    (found : List SyntaxError) : Prop :=
  ∀ X turns items errors, MayFollow X → (part ++ X).length ≤ turns.length →
    ∃ turns', X.length ≤ turns'.length ∧ declarations depth turns items ⟨part ++ X, errors⟩ =
      declarations depth turns' (program.reverse ++ items) ⟨X, errors ++ found⟩

/-- The loop that reads a program stops for good in a part, whatever stands behind it. -/
def Stops (depth : Nat) (part : List Token) (f : Fault) : Prop :=
  ∀ X turns items errors, MayFollow X → (part ++ X).length ≤ turns.length →
    ∃ t, declarations depth turns items ⟨part ++ X, errors⟩ = .error (.fault f) t

/-- What parses without errors is passed over. -/
theorem passes_of_parse {depth : Nat} {part : List Token} {e : Token} {program : List (Stmt Unit)}
    (hend : NoEnd part) (he : e.kind = .eof) (h : parse depth (part ++ [e]) = .ok ⟨program, []⟩) :
    Passes depth part program [] := by
  obtain ⟨e', rest, htokens, he', as, has, _, hgo⟩ :=
    goesOn_of_parse (φ := id) (fun _ => rfl) (fun _ => rfl) ⟨e, by simp, he⟩ h
  obtain rfl : as = program := has.symm
  have hsame : as.map (Stmt.map id id) = as :=
    (List.map_congr_left fun s _ => Stmt.unmark_eq s).trans (List.map_id' as)
  rw [beforeEnd_append hend he, List.map_id, hsame] at hgo
  rintro X turns items errors ⟨t, rest', rfl, ht⟩ hturns
  have hlike : Like TellsElse (e' :: rest) t := ⟨e', rfl, by simp [TellsElse, he', ht]⟩
  rw [List.append_nil]
  exact hgo t rest' errors turns items hlike hturns

/-- A flat statement is passed over, if it does not nest too deep. -/
theorem passes_or_stops_of_flat {part : List Token} (hflat : IsFlat part) (hend : NoEnd part)
    (depth : Nat) :
    (∃ program found, Passes depth part program found) ∨ ∃ f, Stops depth part f := by
  obtain ⟨t, part', rfl⟩ : ∃ t part', part = t :: part' := by
    obtain ⟨semi, hlast, _⟩ := Option.map_eq_some_iff.mp hflat.semicolon
    exact List.exists_cons_of_ne_nil (List.ne_nil_of_mem (List.mem_of_getLast? hlast))
  have hturn : ∀ X turn turns items errors, declarations depth (turn :: turns) items
      ⟨t :: part' ++ X, errors⟩ = (declaration depth >>= fun o =>
        declarations depth turns (o.toList ++ items)) ⟨t :: part' ++ X, errors⟩ := by
    intro X turn turns items errors
    have ht : endsProgram t.kind = false := decide_eq_false (hend t List.mem_cons_self)
    rw [declarations, manyUntil_more_cons, List.cons_append,
      EStateM.bind_ok (sees_endsProgram t _ errors), ht]
    rfl
  have hcons : ∀ {X turns : List Token}, (t :: part' ++ X).length ≤ turns.length →
      ∃ turn more, turns = turn :: more ∧ X.length ≤ more.length := by
    intro X turns hturns
    cases turns with
    | nil => simp at hturns
    | cons turn more =>
      refine ⟨turn, more, rfl, ?_⟩
      simp only [List.cons_append, List.length_cons, List.length_append] at hturns
      omega
  rcases declaration_flat hflat hend depth with ⟨o, found, hread⟩ | ⟨f, hstop⟩
  · refine .inl ⟨o.toList, found, fun X turns items errors hX hturns => ?_⟩
    obtain ⟨turn, more, rfl, hmore⟩ := hcons hturns
    refine ⟨more, hmore, ?_⟩
    rw [hturn, EStateM.bind_ok (hread X errors hX)]
    cases o <;> rfl
  · refine .inr ⟨f, fun X turns items errors hX hturns => ?_⟩
    obtain ⟨turn, more, rfl, _⟩ := hcons hturns
    obtain ⟨u, hu⟩ := hstop X errors hX
    exact ⟨u, by rw [hturn, EStateM.bind_error hu]⟩

/-- Declarations that were read before stand in front. -/
theorem declarations_eq_map (depth : Nat) (turns : List Token) (items : List (Stmt Unit)) :
    declarations depth turns items = (items.reverse ++ ·) <$> declarations depth turns [] := by
  induction turns generalizing items with
  | nil => rfl
  | cons turn turns ih =>
    rw [declarations, declarations, manyUntil_more_cons, manyUntil_more_cons, map_bind]
    refine bind_congr fun b => ?_
    cases b with
    | true => simp
    | false =>
      rw [if_neg Bool.false_ne_true, if_neg Bool.false_ne_true, map_bind]
      refine bind_congr fun o => ?_
      rw [← declarations, ← declarations, ih (o.toList ++ items), ih (o.toList ++ []),
        ← comp_map]
      refine congrArg (· <$> _) (funext fun ss => ?_)
      simp

/-- Neither the errors found before nor the turns that are left matter to how a program goes on. -/
theorem pacedAt_declarations (depth : Nat) {X turns : List Token} (hturns : X.length ≤ turns.length)
    (errors : List SyntaxError) :
    PacedAt .program True ⟨X, []⟩ ⟨X, errors⟩ false depth (declarations depth X [])
      (declarations depth turns []) :=
  pacedAt_manyUntil_more sees_eof_nil sees_endsProgram rfl
    (paced_declaration_and_statement depth depth (Nat.le_refl _) fun _ => rfl).1 X turns [] ⟨X, []⟩
    ⟨X, errors⟩ (.refl X) (Nat.le_refl _) hturns

end Grammar

/-- What two parts of a token list yield, one behind the other. -/
def Parsed.append (a b : Parsed) : Parsed := ⟨a.program ++ b.program, a.errors ++ b.errors⟩

section
variable {depth : Nat} {part X : List Token} {program : List (Stmt Unit)}
  {found : List SyntaxError}

/-- Behind a part that is passed over, parsing goes on as if it began there. -/
theorem parse_of_passes (h : Grammar.Passes depth part program found)
    (hX : Grammar.MayFollow X) :
    parse depth (part ++ X) = (Parsed.append ⟨program, found⟩) <$> parse depth X := by
  obtain ⟨turns, hturns, hrun⟩ := h X (part ++ X) [] [] hX (Nat.le_refl _)
  have hpaced := Grammar.pacedAt_declarations depth hturns found
  rw [List.append_nil, List.nil_append,
    Grammar.declarations_eq_map depth turns, List.reverse_reverse, map_eq_pure_bind] at hrun
  have hjoint : Grammar.program depth ⟨part ++ X, []⟩ = _ := hrun
  unfold PacedAt at hpaced
  unfold parse
  rw [hjoint]
  have halone : Grammar.program depth ⟨X, []⟩ = Grammar.declarations depth X [] ⟨X, []⟩ := rfl
  rw [halone]
  cases hx : Grammar.declarations depth X [] ⟨X, []⟩ with
  | ok more t =>
    rw [hx] at hpaced
    obtain ⟨t', read, others, hx', htogether, _⟩ := hpaced
    rw [EStateM.bind_ok hx']
    have herrors : t.errors = others := by simpa using htogether.first.errors_eq
    show Except.ok _ = Except.ok _
    rw [Parsed.append, htogether.second.errors_eq, herrors]
  | error i t =>
    rw [hx] at hpaced
    obtain ⟨t', _, _, hx', _⟩ := hpaced.2 fun _ => trivial
    rw [EStateM.bind_error hx']
    cases i <;> rfl

/-- In a part that stops the reader for good, parsing stops. -/
theorem parse_of_stops {f : Fault} (h : Grammar.Stops depth part f) (hX : Grammar.MayFollow X) :
    parse depth (part ++ X) = .error f := by
  obtain ⟨t, hrun⟩ := h X (part ++ X) [] [] hX (Nat.le_refl _)
  have hjoint : Grammar.program depth ⟨part ++ X, []⟩ = _ := hrun
  rw [parse, hjoint]

end

/-- A part of a token list that stands for itself: it parses without errors, or is a flat
statement. -/
def StandsAlone (depth : Nat) (e : Token) (part : List Token) : Prop :=
  (∃ program, parse depth (part ++ [e]) = .ok ⟨program, []⟩) ∨ IsFlat part

section
variable {depth : Nat} {e : Token} (he : e.kind = .eof)

include he

/-- A part that stands for itself and what stands behind it are read each as if it stood alone. -/
theorem parse_append_of_standsAlone {part X : List Token} (hend : NoEnd part)
    (h : StandsAlone depth e part) (hX : Grammar.MayFollow X) :
    parse depth (part ++ X) = do
      let a ← parse depth (part ++ [e])
      let b ← parse depth X
      return a.append b := by
  have halone : Grammar.MayFollow [e] := ⟨e, [], rfl, by simp [he]⟩
  have hnothing : parse depth [e] = .ok ⟨[], []⟩ := by
    have hstop : Grammar.program depth ⟨[e], []⟩ = .ok [] ⟨[e], []⟩ :=
      manyUntil_more_of_stops Grammar.sees_endsProgram (decide_eq_true he) (Nat.le_refl _) [] []
    rw [parse, hstop]
  have hcases : (∃ program found, Grammar.Passes depth part program found) ∨
      ∃ f, Grammar.Stops depth part f := by
    rcases h with ⟨program, hparse⟩ | hflat
    · exact .inl ⟨program, [], Grammar.passes_of_parse hend he hparse⟩
    · exact Grammar.passes_or_stops_of_flat hflat hend depth
  rcases hcases with ⟨program, found, hpasses⟩ | ⟨f, hstops⟩
  · rw [parse_of_passes hpasses hX, parse_of_passes hpasses halone, hnothing]
    simp [Parsed.append]
    rfl
  · rw [parse_of_stops hstops hX, parse_of_stops hstops halone]
    rfl

end

/-- The results of several parts of a token list, put together. -/
def Parsed.join (parts : List Parsed) : Parsed :=
  ⟨parts.flatMap Parsed.program, parts.flatMap Parsed.errors⟩

theorem Parsed.map_join_cons {α : Type} (f : α → Except Fault Parsed) (x : α) (xs : List α) :
    Parsed.join <$> (x :: xs).mapM f = do
      let a ← f x
      let b ← Parsed.join <$> xs.mapM f
      return a.append b := by
  rw [List.mapM_cons]
  simp only [map_bind, bind_map_left, map_pure]
  rfl

/-- **Errors are isolated by statement.** Let a part of a token list parse without errors, or be
flat: it ends with its only semicolon, holds no brace that opens a block, does not begin with a
`for`, and no token behind its first begins a statement. Then the part and any tokens behind it that
do not begin with an `else` are read each as if they stood alone: they yield the declarations of the
part and then those of the rest, and the errors of the part and then those of the rest. So any
number of such parts in a row yield what they yield one by one. -/
theorem parse_isolated {depth : Nat} {e : Token} (he : e.kind = .eof) :
    (∀ p q, NoEnd p → Grammar.BeginsNoElse q → StandsAlone depth e p →
      parse depth (p ++ q ++ [e]) = do
        let a ← parse depth (p ++ [e])
        let b ← parse depth (q ++ [e])
        return ⟨a.program ++ b.program, a.errors ++ b.errors⟩) ∧
    ∀ ps q, (∀ p ∈ ps, NoEnd p ∧ StandsAlone depth e p) →
      (∀ u ∈ (ps ++ [q]).tail, Grammar.BeginsNoElse u) →
      parse depth ((ps ++ [q]).flatten ++ [e]) =
        Parsed.join <$> (ps ++ [q]).mapM fun p => parse depth (p ++ [e]) := by
  have hpair : ∀ p q, NoEnd p → Grammar.BeginsNoElse q → StandsAlone depth e p →
      parse depth (p ++ q ++ [e]) = do
        let a ← parse depth (p ++ [e])
        let b ← parse depth (q ++ [e])
        return a.append b := by
    intro p q hp hq h
    rw [List.append_assoc]
    exact parse_append_of_standsAlone he hp h (hq.mayFollow he)
  refine ⟨hpair, fun ps q hps hnext => ?_⟩
  induction ps with
  | nil =>
    have hone : ∀ b : Parsed, b.append (.join []) = b := fun b => by
      simp [Parsed.append, Parsed.join]
    rw [List.nil_append, List.flatten_singleton, Parsed.map_join_cons, List.mapM_nil, map_pure]
    simp only [pure_bind, hone, bind_pure]
  | cons p ps ih =>
    rw [List.forall_mem_cons] at hps
    have hrest : parse depth ((ps ++ [q]).flatten ++ [e]) = _ :=
      ih hps.2 fun u hu => hnext u (List.mem_of_mem_tail hu)
    rw [List.cons_append, List.flatten_cons, Parsed.map_join_cons, ← hrest]
    exact hpair p _ hps.1.1 (Grammar.beginsNoElse_flatten hnext) hps.1.2

/-- The tokens of `if (a;`, of `\x7b print b; \x7d` and of `a =;`. The block is right and the two
flat statements are wrong. -/
def brokenStatements : List (List Token) :=
  [[⟨.ifWord, "if", .nil, 1⟩, ⟨.leftParen, "(", .nil, 1⟩, ⟨.identifier, "a", .nil, 1⟩,
      ⟨.semicolon, ";", .nil, 1⟩],
    [⟨.leftBrace, "\x7b", .nil, 2⟩, ⟨.printWord, "print", .nil, 2⟩, ⟨.identifier, "b", .nil, 2⟩,
      ⟨.semicolon, ";", .nil, 2⟩, ⟨.rightBrace, "\x7d", .nil, 2⟩],
    [⟨.identifier, "a", .nil, 3⟩, ⟨.equal, "=", .nil, 3⟩, ⟨.semicolon, ";", .nil, 3⟩]]

/-- In front of a block that does not end, they are read as they are alone. -/
theorem parse_isolated_brokenStatements :
    (∀ p ∈ brokenStatements, NoEnd p ∧ StandsAlone 9 ⟨.eof, "", .nil, 4⟩ p) ∧
      (parse 9 ((brokenStatements ++ [[(⟨.leftBrace, "\x7b", .nil, 4⟩ : Token)]]).flatten ++
          [⟨.eof, "", .nil, 4⟩])).toOption.map (fun parsed =>
        (parsed.program.length, parsed.errors.map fun e => e.diagnostic.render)) =
      some (1, ["[line 1] Error at ';': Expect ')' after if condition.",
        "[line 3] Error at ';': Expect expression.",
        "[line 4] Error at end: Expect '\x7d' after block."]) := by
  have halone : ∀ p ∈ brokenStatements, NoEnd p ∧ StandsAlone 9 ⟨.eof, "", .nil, 4⟩ p := by
    simp only [brokenStatements, List.forall_mem_cons, List.not_mem_nil, false_imp_iff,
      implies_true, and_true]
    exact ⟨⟨by simp [NoEnd], .inr (by decide)⟩, ⟨by simp [NoEnd], .inl ⟨_, rfl⟩⟩,
      by simp [NoEnd], .inr (by decide)⟩
  refine ⟨halone, ?_⟩
  rw [(parse_isolated rfl).2 brokenStatements _ halone (by
    simp [brokenStatements, Grammar.BeginsNoElse])]
  decide +kernel

end LoxLang
