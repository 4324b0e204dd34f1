import LoxLang.Proofs.Grammar.Lookahead

/-! # Two readers side by side

Two readers of one part of the grammar are run on token lists that are the same up to their first
end token, if they have one.  The second may nest at least as deep as the first, and the loops of
the two may count their turns by different lists.  Then both read the same tokens, take down the
same errors and come to the same end, unless the first nests too deep (`PacedAt`).  What reads no
semicolon keeps pace already on token lists that are the same up to their first semicolon: the
stretch `z` says up to where they are.

The contract also says when a reader stops for good.  It runs off the tokens only if there is no
end token among them.  It nests too deep only if its mark `k`, which stands for its limit of
nesting, is at most twice the number of tokens that are left and three.  From a declaration the
grammar leads into a statement, an expression and an operand without a token, but on into the next
expression, statement or declaration only behind one; so two levels of nesting take a token at
least, and a token that is read pays for two levels (`MayStop.behind`).

No end token is assumed.  A reader that returns only behind a token it has read (`m`) cannot make a
loop go round without end, and with recovery this holds behind a syntax error too
(`PacedAt.recover`). -/

namespace LoxLang

/-- How far one goes in a token list: up to its end token, or up to its first semicolon. -/
inductive Stretch
  | program
  | clause

/-- The kinds of the tokens that end a stretch. -/
def Stretch.Ends : Stretch → Kind → Prop
  | program, k => k = .eof
  | clause, k => k = .eof ∨ k = .semicolon

namespace Stretch

variable {z : Stretch} {k : Kind}

instance : Decidable (z.Ends k) :=
  match z with
  | program => inferInstanceAs (Decidable (k = .eof))
  | clause => inferInstanceAs (Decidable (k = .eof ∨ k = .semicolon))

@[simp] theorem ends_program : program.Ends k ↔ k = .eof := Iff.rfl

theorem ends_eof : z.Ends .eof := by
  cases z with
  | program => rfl
  | clause => exact .inl rfl

theorem ends_semicolon (h : k = .semicolon) : clause.Ends k := .inr h

theorem ne_eof (h : ¬ z.Ends k) : k ≠ .eof := fun he => h (he ▸ ends_eof)

/-- No stretch ends at other kinds. -/
theorem not_ends (h : k ≠ .eof) (h' : k ≠ .semicolon) : ¬ z.Ends k := by
  cases z with
  | program => exact h
  | clause => exact fun hk => hk.elim h h'

/-- What is wanted neither at the end nor at a semicolon ends no stretch. -/
theorem unwanted {wanted : Kind → Bool} (h : wanted .eof = false) (h' : wanted .semicolon = false) :
    ∀ k, z.Ends k → wanted k = false := by
  intro k hk
  cases hw : wanted k with
  | false => rfl
  | true =>
    exact absurd hk (not_ends (by rintro rfl; simp [h] at hw) (by rintro rfl; simp [h'] at hw))

end Stretch

/-- Two token lists are the same up to and with the first token that ends a stretch. -/
inductive SameTo (z : Stretch) : List Token → List Token → Prop
  | nil : SameTo z [] []
  | stop {last : Token} (h : z.Ends last.kind) (rest rest' : List Token) :
      SameTo z (last :: rest) (last :: rest')
  | cons (t : Token) {rest rest' : List Token} (h : SameTo z rest rest') :
      SameTo z (t :: rest) (t :: rest')

namespace SameTo

variable {z : Stretch}

theorem refl : ∀ tokens, SameTo z tokens tokens
  | [] => nil
  | t :: rest => cons t (refl rest)

theorem append (before : List Token) {rest rest' : List Token} (h : SameTo z rest rest') :
    SameTo z (before ++ rest) (before ++ rest') := by
  induction before with
  | nil => exact h
  | cons t before ih => exact cons t ih

theorem tail {t t' : Token} {rest rest' : List Token} (h : SameTo z (t :: rest) (t' :: rest'))
    (ht : ¬ z.Ends t.kind) : SameTo z rest rest' := by
  cases h with
  | stop hlast => exact absurd hlast ht
  | cons _ h => exact h

theorem of_append {read rest rest' : List Token} (h : SameTo z (read ++ rest) (read ++ rest'))
    (hread : ∀ t ∈ read, ¬ z.Ends t.kind) : SameTo z rest rest' := by
  induction read with
  | nil => exact h
  | cons t read ih =>
    rw [List.forall_mem_cons] at hread
    exact ih (h.tail hread.1) hread.2

end SameTo

/-- Two token lists are the same up to and with their first end token. -/
abbrev SameToEnd : List Token → List Token → Prop := SameTo .program

theorem SameToEnd.stop {last : Token} (h : last.kind = .eof) (rest rest' : List Token) :
    SameToEnd (last :: rest) (last :: rest') := SameTo.stop (z := .program) h rest rest'

namespace Reader

variable {α β : Type}

/-- Two runs have read the same tokens, up to the end of the stretch at most, and taken down the
same errors. -/
structure Together (z : Stretch) (s s' t t' : Cursor) (read : List Token)
    (found : List SyntaxError) : Prop where
  first : Reaches s t read found
  second : Reaches s' t' read found
  before : ∀ r ∈ read, ¬ z.Ends r.kind

namespace Together

variable {z : Stretch} {s s' t t' u u' : Cursor} {read more : List Token}
  {found others : List SyntaxError}

theorem refl (s s' : Cursor) : Together z s s' s s' [] [] :=
  ⟨.refl s, .refl s', List.forall_mem_nil _⟩

theorem trans (h : Together z s s' t t' read found) (h' : Together z t t' u u' more others) :
    Together z s s' u u' (read ++ more) (found ++ others) :=
  ⟨h.first.trans h'.first, h.second.trans h'.second,
    List.forall_mem_append.mpr ⟨h.before, h'.before⟩⟩

/-- Two runs have read a token. -/
theorem token {r : Token} (h : ¬ z.Ends r.kind) (rest rest' : List Token)
    (errors errors' : List SyntaxError) :
    Together z ⟨r :: rest, errors⟩ ⟨r :: rest', errors'⟩ ⟨rest, errors⟩ ⟨rest', errors'⟩ [r] [] :=
  ⟨⟨rfl, noEnd_singleton (Stretch.ne_eof h), (List.append_nil _).symm⟩,
    ⟨rfl, noEnd_singleton (Stretch.ne_eof h), (List.append_nil _).symm⟩,
    List.forall_mem_singleton.mpr h⟩

/-- Two runs have taken down an error. -/
theorem error (e : SyntaxError) (rest rest' : List Token) (errors errors' : List SyntaxError) :
    Together z ⟨rest, errors⟩ ⟨rest', errors'⟩ ⟨rest, errors ++ [e]⟩ ⟨rest', errors' ++ [e]⟩
      [] [e] :=
  ⟨⟨rfl, noEnd_nil, rfl⟩, ⟨rfl, noEnd_nil, rfl⟩, List.forall_mem_nil _⟩

theorem same (h : Together z s s' t t' read found) (hs : SameTo z s.rest s'.rest) :
    SameTo z t.rest t'.rest := by
  rw [h.first.rest_eq, h.second.rest_eq] at hs
  exact hs.of_append h.before

/-- From one cursor the two runs come to one cursor. -/
theorem eq (h : Together z s s t t' read found) : t' = t := by
  obtain ⟨rest, errors⟩ := t
  obtain ⟨rest', errors'⟩ := t'
  obtain rfl : rest' = rest :=
    List.append_cancel_left (h.second.rest_eq.symm.trans h.first.rest_eq)
  obtain rfl : errors' = errors := h.second.errors_eq.trans h.first.errors_eq.symm
  rfl

end Together

/-- What may end a run on the given tokens that has no result. -/
def MayStop (tokens : List Token) (k : Nat) : Interrupt → Prop
  | .syntaxError => True
  | .fault f => f = .outOfTokens ∧ NoEnd tokens ∨ f = .tooDeep ∧ k ≤ 2 * tokens.length + 3

section
variable {s s' t t' : Cursor} {k k' : Nat} {i : Interrupt} {read : List Token}
  {found : List SyntaxError}

theorem MayStop.mono {tokens : List Token} (h : MayStop tokens k i) (hk : k' ≤ k) :
    MayStop tokens k' i := by
  cases i with
  | syntaxError => trivial
  | fault f => exact h.imp id fun h => ⟨h.1, Nat.le_trans hk h.2⟩

/-- A run that stops behind tokens it has read.  Each of them pays for two levels. -/
theorem MayStop.behind (h : MayStop t.rest k i) (hreach : Reaches s t read found) :
    MayStop s.rest (k + 2 * read.length) i := by
  cases i with
  | syntaxError => trivial
  | fault f =>
    refine h.imp (fun h => ⟨h.1, ?_⟩) fun h => ⟨h.1, ?_⟩
    · rw [hreach.rest_eq]
      exact hreach.noEnd.append h.2
    · have hlength := congrArg List.length hreach.rest_eq
      rw [List.length_append] at hlength
      omega

/-- The contract of two readers at two cursors, for readers whose limits of nesting are the same
if `same` holds. -/
def PacedAt (z : Stretch) (same : Prop) (s s' : Cursor) (m : Bool) (k : Nat) (r r' : Reader α) :
    Prop :=
  match r s with
  | .ok a t => ∃ t' read found, r' s' = .ok a t' ∧ Together z s s' t t' read found ∧
      (m = true → read ≠ [])
  | .error i t => MayStop s.rest k i ∧ ((i = .fault .tooDeep → same) →
      ∃ t' read found, r' s' = .error i t' ∧ Together z s s' t t' read found)

/-- The contract of two readers on token lists that are the same up to where the stretch ends. -/
def Paced (z : Stretch) (same : Prop) (m : Bool) (k : Nat) (r r' : Reader α) : Prop :=
  ∀ s s', SameTo z s.rest s'.rest → PacedAt z same s s' m k r r'

variable {z : Stretch} {same : Prop} {m n : Bool} {r r' : Reader α} {q q' : α → Reader β}

/-! ## Composition -/

theorem PacedAt.weaken (h : PacedAt z same s s' m k r r') (hm : n = true → m = true) (hk : k' ≤ k) :
    PacedAt z same s s' n k' r r' := by
  unfold PacedAt at h ⊢
  split at h
  · obtain ⟨t', read, found, hrun, htogether, hne⟩ := h
    exact ⟨t', read, found, hrun, htogether, fun hn => hne (hm hn)⟩
  · exact ⟨h.1.mono hk, h.2⟩

/-- What reads a token reads it, whether one asks for that or not. -/
theorem PacedAt.loosen (h : PacedAt z same s s' m k r r') : PacedAt z same s s' false k r r' :=
  h.weaken (fun h => absurd h Bool.false_ne_true) (Nat.le_refl k)

theorem Paced.weaken (h : Paced z same m k r r') (hm : n = true → m = true) (hk : k' ≤ k) :
    Paced z same n k' r r' :=
  fun s s' hs => (h s s' hs).weaken hm hk

theorem Paced.loosen (h : Paced z same m k r r') : Paced z same false k r r' :=
  fun s s' hs => (h s s' hs).loosen

/-- A lower mark for the limit of nesting. -/
theorem Paced.atMost (h : Paced z same m k r r') (hk : k' ≤ k) : Paced z same m k' r r' :=
  h.weaken id hk

theorem pacedAt_pure (a : α) : PacedAt z same s s' false k (pure a) (pure a) :=
  ⟨s', [], [], rfl, .refl s s', nofun⟩

theorem paced_pure (a : α) : Paced z same false k (pure a) (pure a) := fun _ _ _ => pacedAt_pure a

/-- Two runs that go on as others do, behind tokens they have read.  Each of these pays for two
levels. -/
theorem PacedAt.behind {x x' y y' : Reader β} (hrun : x s = y t) (hrun' : x' s' = y' t')
    (htogether : Together z s s' t t' read found) (hread : n = true → m = true ∨ read ≠ [])
    (h : PacedAt z same t t' m k y y') : PacedAt z same s s' n (k + 2 * read.length) x x' := by
  unfold PacedAt at h ⊢
  rw [hrun, hrun']
  cases hy : y t with
  | ok b u =>
    rw [hy] at h
    obtain ⟨u', more, others, hy', hgo, hmore⟩ := h
    refine ⟨u', read ++ more, found ++ others, hy', htogether.trans hgo, fun hn hnil => ?_⟩
    obtain ⟨hnil, hnil'⟩ := List.append_eq_nil_iff.mp hnil
    exact (hread hn).elim (fun hm => hmore hm hnil') fun hne => hne hnil
  | error i u =>
    rw [hy] at h
    refine ⟨h.1.behind htogether.first, fun hsame => ?_⟩
    obtain ⟨u', more, others, hy', hgo⟩ := h.2 hsame
    exact ⟨u', read ++ more, found ++ others, hy', htogether.trans hgo⟩

/-- One reader behind another. -/
theorem PacedAt.bind (hr : PacedAt z same s s' m k r r')
    (hq : ∀ a t t' read found, Together z s s' t t' read found → (m = true → read ≠ []) →
      PacedAt z same t t' n k (q a) (q' a)) :
    PacedAt z same s s' (m || n) k (r >>= q) (r' >>= q') := by
  unfold PacedAt at hr
  cases hrs : r s with
  | ok a t =>
    rw [hrs] at hr
    obtain ⟨t', read, found, hrs', htogether, hne⟩ := hr
    have hgo := hq a t t' read found htogether hne
    refine (hgo.behind (EStateM.bind_ok hrs) (EStateM.bind_ok hrs') htogether
      fun hmn => ?_).weaken id (Nat.le_add_right k _)
    exact (Bool.or_eq_true_iff.mp hmn).elim (fun hm => .inr (hne hm)) .inl
  | error i t =>
    rw [hrs] at hr
    unfold PacedAt
    rw [EStateM.bind_error hrs]
    refine ⟨hr.1, fun hsame => ?_⟩
    obtain ⟨t', read, found, hrs', htogether⟩ := hr.2 hsame
    exact ⟨t', read, found, EStateM.bind_error hrs', htogether⟩

theorem Paced.bind (hr : Paced z same m k r r') (hq : ∀ a, Paced z same n k (q a) (q' a)) :
    Paced z same (m || n) k (r >>= q) (r' >>= q') :=
  fun s s' hs => (hr s s' hs).bind fun a t t' _ _ htogether _ => hq a t t' (htogether.same hs)

theorem Paced.map (hr : Paced z same m k r r') (f : α → β) :
    Paced z same m k (f <$> r) (f <$> r') := by
  rw [map_eq_pure_bind, map_eq_pure_bind, ← Bool.or_false m]
  exact hr.bind fun a => paced_pure (f a)

theorem Paced.ite {p : Prop} [Decidable p] {x x' : Reader α} (h : Paced z same m k r r')
    (h' : Paced z same m k x x') :
    Paced z same m k (if p then r else x) (if p then r' else x') := by
  split
  · exact h
  · exact h'

/-- Runs from one cursor come to the same end, where the limits of nesting are the same. -/
theorem PacedAt.eq (h : PacedAt z same s s m k r r') (hsame : same) : r' s = r s := by
  unfold PacedAt at h
  cases hrun : r s with
  | ok a t =>
    rw [hrun] at h
    obtain ⟨t', read, found, hrun', htogether, _⟩ := h
    rw [hrun', htogether.eq]
  | error i t =>
    rw [hrun] at h
    obtain ⟨t', read, found, hrun', htogether⟩ := h.2 fun _ => hsame
    rw [hrun', htogether.eq]

/-! ## Steps -/

/-- Both runs run off the tokens. -/
theorem pacedAt_outOfTokens {errors errors' : List SyntaxError}
    (h : r ⟨[], errors⟩ = .error (.fault .outOfTokens) ⟨[], errors⟩)
    (h' : r' ⟨[], errors'⟩ = .error (.fault .outOfTokens) ⟨[], errors'⟩) :
    PacedAt z same ⟨[], errors⟩ ⟨[], errors'⟩ m k r r' := by
  unfold PacedAt
  rw [h]
  exact ⟨.inl ⟨rfl, noEnd_nil⟩, fun _ => ⟨_, [], [], h', .refl _ _⟩⟩

/-- Both runs look at the next token, or there is none. -/
theorem pacedAt_of_tokens (hs : SameTo z s.rest s'.rest)
    (hnil : ∀ errors, r ⟨[], errors⟩ = .error (.fault .outOfTokens) ⟨[], errors⟩)
    (hnil' : ∀ errors, r' ⟨[], errors⟩ = .error (.fault .outOfTokens) ⟨[], errors⟩)
    (hcons : ∀ t rest rest' errors errors', SameTo z (t :: rest) (t :: rest') →
      s = ⟨t :: rest, errors⟩ → s' = ⟨t :: rest', errors'⟩ →
      PacedAt z same ⟨t :: rest, errors⟩ ⟨t :: rest', errors'⟩ m k r r') :
    PacedAt z same s s' m k r r' := by
  obtain ⟨tokens, errors⟩ := s
  obtain ⟨tokens', errors'⟩ := s'
  cases hs with
  | nil => exact pacedAt_outOfTokens (hnil errors) (hnil' errors')
  | stop h rest rest' => exact hcons _ rest rest' errors errors' (.stop h rest rest') rfl rfl
  | cons t h => exact hcons t _ _ errors errors' (.cons t h) rfl rfl

/-- Stopping at the limit of nesting. -/
theorem paced_stop (hk : k ≤ 3) (h : same → r' = stop .tooDeep) :
    Paced z same m k (stop .tooDeep) r' := by
  intro s s' _
  refine ⟨.inr ⟨rfl, Nat.le_trans hk (Nat.le_add_left 3 _)⟩, fun hsame => ?_⟩
  rw [h (hsame rfl)]
  exact ⟨s', [], [], rfl, .refl s s'⟩

/-- Looking at the next token and going on with what depends on it. -/
theorem Paced.peek_bind {q q' : Token → Reader β}
    (hq : ∀ t rest rest' errors errors', SameTo z (t :: rest) (t :: rest') →
      PacedAt z same ⟨t :: rest, errors⟩ ⟨t :: rest', errors'⟩ m k (q t) (q' t)) :
    Paced z same m k (peek >>= q) (peek >>= q') :=
  fun _ _ hs => pacedAt_of_tokens hs (fun _ => rfl) (fun _ => rfl)
    fun t rest rest' errors errors' hs _ _ => hq t rest rest' errors errors' hs

theorem paced_peek : Paced z same false k peek peek := by
  rw [← bind_pure peek]
  exact .peek_bind fun t _ _ _ _ _ => pacedAt_pure t

/-- Dropping the next token, which is known, and going on. -/
theorem PacedAt.skip_bind {q q' : Unit → Reader β} {t : Token} {rest rest' : List Token}
    {errors errors' : List SyntaxError} (ht : ¬ z.Ends t.kind)
    (hs : SameTo z (t :: rest) (t :: rest')) (hk : k ≤ k' + 2)
    (hq : Paced z same m k' (q ()) (q' ())) :
    PacedAt z same ⟨t :: rest, errors⟩ ⟨t :: rest', errors'⟩ true k (skip >>= q) (skip >>= q') :=
  ((hq ⟨rest, errors⟩ ⟨rest', errors'⟩ (hs.tail ht)).behind (skip_bind_cons q t rest errors)
    (skip_bind_cons q' t rest' errors') (.token ht rest rest' errors errors')
    fun _ => .inr (List.cons_ne_nil t [])).weaken id hk

/-- Taking the next token if it is wanted, and going on either way. -/
theorem PacedAt.accept?_bind {wanted : Kind → Bool} {q q' : Option Token → Reader β}
    (hs : SameTo z s.rest s'.rest) (hend : ∀ kind, z.Ends kind → wanted kind = false)
    (hk : k ≤ k' + 2)
    (hsome : ∀ t u u', s.rest = t :: u.rest → s'.rest = t :: u'.rest →
      SameTo z u.rest u'.rest → PacedAt z same u u' n k' (q (some t)) (q' (some t)))
    (hnone : PacedAt z same s s' m k (q none) (q' none)) :
    PacedAt z same s s' m k (accept? wanted >>= q) (accept? wanted >>= q') := by
  refine pacedAt_of_tokens hs (fun _ => rfl) (fun _ => rfl) ?_
  rintro t rest rest' errors errors' hs rfl rfl
  cases hw : wanted t.kind with
  | true =>
    have ht : ¬ z.Ends t.kind := fun he => by rw [hend t.kind he] at hw; cases hw
    have hgo := hsome t ⟨rest, errors⟩ ⟨rest', errors'⟩ rfl rfl (hs.tail ht)
    exact (hgo.behind (EStateM.bind_ok (accept?_of_wanted hw))
      (EStateM.bind_ok (accept?_of_wanted hw)) (.token ht rest rest' errors errors')
      fun _ => .inr (List.cons_ne_nil t [])).weaken id hk
  | false =>
    exact (hnone.behind (EStateM.bind_ok (accept?_of_unwanted hw))
      (EStateM.bind_ok (accept?_of_unwanted hw)) (.refl _ _) .inl).weaken id (Nat.le_refl k)

/-- Taking the next token if it is of the given kind, and going on either way. -/
theorem PacedAt.skipped_bind {kind : Kind} {q q' : Bool → Reader β}
    (hs : SameTo z s.rest s'.rest) (hend : ¬ z.Ends kind) (hk : k ≤ k' + 2)
    (htrue : ∀ t u u', s.rest = t :: u.rest → s'.rest = t :: u'.rest →
      SameTo z u.rest u'.rest → PacedAt z same u u' n k' (q true) (q' true))
    (hfalse : PacedAt z same s s' m k (q false) (q' false)) :
    PacedAt z same s s' m k (skipped kind >>= q) (skipped kind >>= q') := by
  rw [skipped, bind_assoc, bind_assoc]
  simp only [pure_bind]
  refine .accept?_bind hs (fun k hk => decide_eq_false ?_) hk htrue hfalse
  rintro rfl
  exact hend hk

theorem Paced.skipped_bind {kind : Kind} {q q' : Bool → Reader β} (hend : ¬ z.Ends kind)
    (hk : k ≤ k' + 2) (htrue : Paced z same n k' (q true) (q' true))
    (hfalse : Paced z same m k (q false) (q' false)) :
    Paced z same m k (skipped kind >>= q) (skipped kind >>= q') :=
  fun s s' hs => .skipped_bind hs hend hk (fun _ u u' _ _ hu => htrue u u' hu) (hfalse s s' hs)

theorem paced_skipped {kind : Kind} (hend : ¬ z.Ends kind) :
    Paced z same false k (skipped kind) (skipped kind) := by
  rw [← bind_pure (skipped kind)]
  exact .skipped_bind hend (Nat.le_add_right k 2) (paced_pure true) (paced_pure false)

/-- Looking whether a token of the given kind is next, and going on either way. -/
theorem Paced.sees_bind {kind : Kind} {q q' : Bool → Reader β}
    (hq : ∀ b, Paced z same m k (q b) (q' b)) :
    Paced z same m k (sees kind >>= q) (sees kind >>= q') := by
  rw [sees, bind_assoc, bind_assoc]
  exact .peek_bind fun t _ _ _ _ hs => hq (decide (t.kind = kind)) _ _ hs

theorem paced_record (fault : SyntaxFault) (place : Token) :
    Paced z same false k (record fault place) (record fault place) :=
  fun s s' _ => ⟨_, [], [⟨fault, place⟩], rfl, .error _ s.rest s'.rest s.errors s'.errors, nofun⟩

theorem paced_fail (what : Expectation) :
    Paced z same m k (fail what : Reader α) (fail what) := by
  refine .peek_bind (β := α) (q := fun t => do record (.expected what) t; throw .syntaxError)
    fun t rest rest' errors errors' _ => ?_
  exact ⟨trivial, fun _ => ⟨_, [], [⟨.expected what, t⟩], rfl, .error _ _ _ _ _⟩⟩

/-- Taking a token that has to be there. -/
theorem paced_expect {kind : Kind} (what : Expectation) (hend : ¬ z.Ends kind) :
    Paced z same true k (expect kind what) (expect kind what) := by
  intro s s' hs
  refine pacedAt_of_tokens hs (fun _ => rfl) (fun _ => rfl) ?_
  rintro t rest rest' errors errors' hs rfl rfl
  by_cases ht : t.kind = kind
  · unfold PacedAt
    rw [expect_of_eq ht]
    exact ⟨⟨rest', errors'⟩, [t], [], expect_of_eq ht what rest' errors',
      .token (ht ▸ hend) rest rest' errors errors', fun _ => List.cons_ne_nil t []⟩
  · exact (paced_fail what _ _ hs).behind (expect_of_ne ht what rest errors)
      (expect_of_ne ht what rest' errors') (.refl _ _) .inl

/-! ## Repetition -/

/-- Counting the turns of a loop by the tokens that are left. -/
theorem Paced.upcoming_bind {q q' : List Token → Reader β}
    (hq : ∀ s s', SameTo z s.rest s'.rest → PacedAt z same s s' m k (q s.rest) (q' s'.rest)) :
    Paced z same m k (upcoming >>= q) (upcoming >>= q') := hq

/-- The turns of a loop, which carries `x` from turn to turn and looks at the next token in each.
In a turn the loop may be taken to go on well with the turns that are left. -/
theorem pacedAt_turns {γ : Type} {loop loop' : List Token → γ → Reader β}
    (hnil : ∀ turns x errors, loop turns x ⟨[], errors⟩ =
      .error (.fault .outOfTokens) ⟨[], errors⟩)
    (hnil' : ∀ turns x errors, loop' turns x ⟨[], errors⟩ =
      .error (.fault .outOfTokens) ⟨[], errors⟩)
    (hturn : ∀ turn turns turn' turns' x t rest rest' errors errors',
      SameTo z (t :: rest) (t :: rest') →
      (∀ x u u', SameTo z u.rest u'.rest → u.rest.length ≤ rest.length →
        u'.rest.length ≤ rest'.length →
        PacedAt z same u u' false k (loop turns x) (loop' turns' x)) →
      PacedAt z same ⟨t :: rest, errors⟩ ⟨t :: rest', errors'⟩ false k
        (loop (turn :: turns) x) (loop' (turn' :: turns') x)) :
    ∀ (turns turns' : List Token) (x : γ) (s s' : Cursor), SameTo z s.rest s'.rest →
      s.rest.length ≤ turns.length → s'.rest.length ≤ turns'.length →
      PacedAt z same s s' false k (loop turns x) (loop' turns' x) := by
  intro turns
  induction turns with
  | nil =>
    intro turns' x s s' hs hturns _
    refine pacedAt_of_tokens hs (hnil [] x) (hnil' turns' x) ?_
    rintro t rest rest' errors errors' hs rfl rfl
    simp at hturns
  | cons turn turns ih =>
    intro turns' x s s' hs hturns hturns'
    refine pacedAt_of_tokens hs (hnil (turn :: turns) x) (hnil' turns' x) ?_
    rintro t rest rest' errors errors' hs rfl rfl
    cases turns' with
    | nil => simp at hturns'
    | cons turn' turns' =>
      refine hturn turn turns turn' turns' x t rest rest' errors errors' hs ?_
      intro x u u' hu hlength hlength'
      simp only [List.length_cons, Nat.add_le_add_iff_right] at hturns hturns'
      exact ih turns' x u u' hu (Nat.le_trans hlength hturns) (Nat.le_trans hlength' hturns')

/-- The turns of a loop that groups to the left. -/
theorem pacedAt_leftChain_more {ops : Kind → Bool} {join : α → Token → α → α}
    (hend : ∀ kind, z.Ends kind → ops kind = false) (hr : Paced z same m k r r')
    (turns turns' : List Token) (left : α)
    (s s' : Cursor) (hs : SameTo z s.rest s'.rest) (hturns : s.rest.length ≤ turns.length)
    (hturns' : s'.rest.length ≤ turns'.length) :
    PacedAt z same s s' false k (leftChain.more ops join r turns left)
      (leftChain.more ops join r' turns' left) := by
  have hnil : ∀ (r : Reader α) turns left errors,
      leftChain.more ops join r turns left ⟨[], errors⟩ =
        .error (.fault .outOfTokens) ⟨[], errors⟩ := by
    intro r turns left errors
    cases turns <;> rfl
  refine pacedAt_turns (hnil r) (hnil r') ?_ turns turns' left s s' hs hturns hturns'
  intro turn turns turn' turns' left t rest rest' errors errors' hs hmore
  refine .accept?_bind (n := false) hs hend (Nat.le_add_right k 2)
    (fun op u u' hu hu' hsame => ?_) (pacedAt_pure left)
  obtain ⟨_, rfl⟩ := List.cons.inj hu
  obtain ⟨_, rfl⟩ := List.cons.inj hu'
  refine (hr u u' hsame).loosen.bind (n := false) fun b t t' read found htogether _ => ?_
  exact hmore (join left op b) t t' (htogether.same hsame) htogether.first.length_le
    htogether.second.length_le

/-- A loop that groups to the left. -/
theorem Paced.leftChain {ops : Kind → Bool} {join : α → Token → α → α}
    (hend : ∀ kind, z.Ends kind → ops kind = false) (hr : Paced z same m k r r') :
    Paced z same m k (leftChain ops join r) (leftChain ops join r') := by
  refine .upcoming_bind fun s s' hs => ?_
  rw [← Bool.or_false m]
  refine (hr s s' hs).bind fun a t t' read found htogether _ => ?_
  exact pacedAt_leftChain_more hend hr s.rest s'.rest a t t' (htogether.same hs)
    htogether.first.length_le htogether.second.length_le

/-- The turns of a loop over items with commas between them.  There has to be a turn for each token
that is left, and one if there is none: the loop does not look at the next token, but a turn reads
two of them before the next. -/
theorem pacedAt_commaSeparated_more {excess : SyntaxFault} (hr : Paced z same true k r r') :
    ∀ (turns turns' : List Token) (count : Nat) (items : List α) (s s' : Cursor),
      SameTo z s.rest s'.rest → s.rest.length ≤ turns.length → turns ≠ [] →
      s'.rest.length ≤ turns'.length → turns' ≠ [] →
      PacedAt z same s s' false k (commaSeparated.more excess r turns count items)
        (commaSeparated.more excess r' turns' count items) := by
  intro turns
  induction turns with
  | nil => exact fun _ _ _ _ _ _ _ hne => absurd rfl hne
  | cons turn turns ih =>
    intro turns' count items s s' hs hturns _ hturns' hne'
    obtain ⟨turn', turns', rfl⟩ := List.exists_cons_of_ne_nil hne'
    -- what a turn does behind the test of the count
    have hitem : ∀ s s' : Cursor, SameTo z s.rest s'.rest → s.rest.length ≤ turns.length + 1 →
        s'.rest.length ≤ turns'.length + 1 → PacedAt z same s s' false k (do
          let items := (← r) :: items
          if ← skipped .comma then commaSeparated.more excess r turns (count + 1) items
          else return items.reverse) (do
          let items := (← r') :: items
          if ← skipped .comma then commaSeparated.more excess r' turns' (count + 1) items
          else return items.reverse) := by
      intro s s' hs hturns hturns'
      refine ((hr s s' hs).bind (n := false) fun a t t' read found htogether hread => ?_).loosen
      -- the item has a token and the comma is another, so a turn is left for the next item
      have hpos := List.length_pos_iff.mpr (hread rfl)
      have hlength := congrArg List.length htogether.first.rest_eq
      have hlength' := congrArg List.length htogether.second.rest_eq
      rw [List.length_append] at hlength hlength'
      refine .skipped_bind (n := false) (htogether.same hs) (Stretch.not_ends (by decide) (by decide))
        (Nat.le_add_right k 2) (fun comma u u' hu hu' hsame => ?_) (pacedAt_pure _)
      rw [hu, List.length_cons] at hlength
      rw [hu', List.length_cons] at hlength'
      exact ih turns' (count + 1) (a :: items) u u' hsame (by omega)
        (List.length_pos_iff.mp (by omega)) (by omega) (List.length_pos_iff.mp (by omega))
    rw [List.length_cons] at hturns hturns'
    rw [commaSeparated.more, commaSeparated.more]
    split
    · refine (paced_peek s s' hs).bind (n := false) fun place t t' _ _ htogether _ => ?_
      have hsame := htogether.same hs
      refine (paced_record excess place t t' hsame).bind (n := false)
        fun _ u u' _ _ htogether' _ => ?_
      exact hitem u u' (htogether'.same hsame)
        (Nat.le_trans htogether'.first.length_le (Nat.le_trans htogether.first.length_le hturns))
        (Nat.le_trans htogether'.second.length_le (Nat.le_trans htogether.second.length_le hturns'))
    · exact hitem s s' hs hturns hturns'

/-- Items with commas between them. -/
theorem Paced.commaSeparated {excess : SyntaxFault} (hr : Paced z same true k r r') :
    Paced z same false k (commaSeparated excess r) (commaSeparated excess r') := by
  refine .upcoming_bind fun s s' hs => ?_
  obtain ⟨tokens, errors⟩ := s
  obtain ⟨tokens', errors'⟩ := s'
  cases tokens with
  | nil =>
    cases hs
    exact pacedAt_outOfTokens rfl rfl
  | cons t rest =>
    have hne : tokens' ≠ [] := by
      rintro rfl
      cases hs
    exact pacedAt_commaSeparated_more hr _ tokens' 0 [] _ _ hs (Nat.le_refl _)
      (List.cons_ne_nil t rest) (Nat.le_refl _) hne

section
variable {done : Reader Bool} {stops : Kind → Bool} {item item' : Reader (Option α)}

/-- The turns of a loop over items up to where `done` says so, which only asks for the kind of the
next token.  Before the end token it has to say so, and before any other token the items read at
least one. -/
theorem pacedAt_manyUntil_more
    (hnone : ∀ errors, done ⟨[], errors⟩ = .error (.fault .outOfTokens) ⟨[], errors⟩)
    (hdone : ∀ t rest errors, done ⟨t :: rest, errors⟩ = .ok (stops t.kind) ⟨t :: rest, errors⟩)
    (hstops : stops .eof = true)
    (hitem : ∀ t rest rest' errors errors', t.kind ≠ .eof → SameToEnd (t :: rest) (t :: rest') →
      PacedAt .program same ⟨t :: rest, errors⟩ ⟨t :: rest', errors'⟩ true k item item')
    (turns turns' : List Token) (items : List α) (s s' : Cursor) (hs : SameToEnd s.rest s'.rest)
    (hturns : s.rest.length ≤ turns.length) (hturns' : s'.rest.length ≤ turns'.length) :
    PacedAt .program same s s' false k (manyUntil.more done item turns items)
      (manyUntil.more done item' turns' items) := by
  have hnil : ∀ (item : Reader (Option α)) turns items errors,
      manyUntil.more done item turns items ⟨[], errors⟩ =
        .error (.fault .outOfTokens) ⟨[], errors⟩ := by
    intro item turns items errors
    cases turns with
    | nil => rfl
    | cons turn turns => rw [manyUntil_more_cons, EStateM.bind_error (hnone errors)]
  refine pacedAt_turns (hnil item) (hnil item') ?_ turns turns' items s s' hs hturns hturns'
  intro turn turns turn' turns' items t rest rest' errors errors' hs hmore
  have hasked : ∀ (q : Bool → Reader (List α)) rest errors,
      (done >>= q) ⟨t :: rest, errors⟩ = q (stops t.kind) ⟨t :: rest, errors⟩ :=
    fun q rest errors => EStateM.bind_ok (hdone t rest errors)
  rw [manyUntil_more_cons, manyUntil_more_cons]
  refine PacedAt.behind (m := false) (hasked _ rest errors) (hasked _ rest' errors') (.refl _ _)
    .inl ?_
  cases hstop : stops t.kind with
  | true => exact pacedAt_pure items.reverse
  | false =>
    have ht : t.kind ≠ .eof := by
      intro he
      rw [he, hstops] at hstop
      cases hstop
    refine ((hitem t rest rest' errors errors' ht hs).bind (n := false)
      fun o u u' read found htogether hread => ?_).loosen
    -- this is where the item has to read a token: the next turn has one less of them
    have hpos := List.length_pos_iff.mpr (hread rfl)
    have hlength := congrArg List.length htogether.first.rest_eq
    have hlength' := congrArg List.length htogether.second.rest_eq
    rw [List.length_append, List.length_cons] at hlength hlength'
    exact hmore (o.toList ++ items) u u' (htogether.same hs) (by omega) (by omega)

/-- Items up to where `done` says so. -/
theorem Paced.manyUntil
    (hnone : ∀ errors, done ⟨[], errors⟩ = .error (.fault .outOfTokens) ⟨[], errors⟩)
    (hdone : ∀ t rest errors, done ⟨t :: rest, errors⟩ = .ok (stops t.kind) ⟨t :: rest, errors⟩)
    (hstops : stops .eof = true)
    (hitem : ∀ t rest rest' errors errors', t.kind ≠ .eof → SameToEnd (t :: rest) (t :: rest') →
      PacedAt .program same ⟨t :: rest, errors⟩ ⟨t :: rest', errors'⟩ true k item item') :
    Paced .program same false k (manyUntil done item) (manyUntil done item') :=
  .upcoming_bind fun s s' hs => pacedAt_manyUntil_more hnone hdone hstops hitem s.rest s'.rest [] s
    s' hs (Nat.le_refl _) (Nat.le_refl _)

end

/-! ## Recovery -/

/-- Where to go on behind a skipped token is found by the tokens up to the first end token. -/
theorem resumeAfter_same {tokens tokens' : List Token} (hs : SameToEnd tokens tokens')
    (last : Kind) :
    (resumeAfter last tokens = none ∧ resumeAfter last tokens' = none ∧ NoEnd tokens) ∨
      ∃ read rest rest', resumeAfter last tokens = some rest ∧
        resumeAfter last tokens' = some rest' ∧ tokens = read ++ rest ∧ tokens' = read ++ rest' ∧
        NoEnd read := by
  induction hs generalizing last with
  | nil => exact .inl ⟨rfl, rfl, noEnd_nil⟩
  | stop h rest rest' =>
    refine .inr ⟨[], _, _, ?_, ?_, rfl, rfl, noEnd_nil⟩ <;> rw [resumeAfter, if_pos (.inl h)]
  | cons t h ih =>
    rw [resumeAfter, resumeAfter]
    split
    · exact .inr ⟨[], _, _, rfl, rfl, rfl, rfl, noEnd_nil⟩
    · rename_i hstop
      have ht : NoEnd [t] := noEnd_singleton fun he => hstop (.inl he)
      rcases ih t.kind with
        ⟨hnone, hnone', hend⟩ | ⟨read, rest, rest', hsome, hsome', hrest, hrest', hread⟩
      · exact .inl ⟨hnone, hnone', ht.append hend⟩
      · exact .inr ⟨t :: read, rest, rest', hsome, hsome', by rw [hrest]; rfl, by rw [hrest']; rfl,
          ht.append hread⟩

/-- Where to go on after an error is found by the tokens up to the first end token, and lies behind
at least one of them unless that is the first. -/
theorem resume_same {tokens tokens' : List Token} (hs : SameToEnd tokens tokens') :
    (resume tokens = none ∧ resume tokens' = none ∧ NoEnd tokens) ∨
      ∃ read rest rest', resume tokens = some rest ∧ resume tokens' = some rest' ∧
        tokens = read ++ rest ∧ tokens' = read ++ rest' ∧ NoEnd read ∧
        (read = [] → ∃ t, tokens.head? = some t ∧ t.kind = .eof) := by
  cases hs with
  | nil => exact .inl ⟨rfl, rfl, noEnd_nil⟩
  | stop h rest rest' =>
    rw [Stretch.ends_program] at h
    refine .inr ⟨[], _, _, ?_, ?_, rfl, rfl, noEnd_nil, fun _ => ⟨_, rfl, h⟩⟩ <;>
      rw [resume, if_pos h]
  | cons t h =>
    rw [resume, resume]
    split
    · rename_i ht
      exact .inr ⟨[], _, _, rfl, rfl, rfl, rfl, noEnd_nil, fun _ => ⟨t, rfl, ht⟩⟩
    · rename_i ht
      rcases resumeAfter_same h t.kind with
        ⟨hnone, hnone', hend⟩ | ⟨read, rest, rest', hsome, hsome', hrest, hrest', hread⟩
      · exact .inl ⟨hnone, hnone', (noEnd_singleton ht).append hend⟩
      · exact .inr ⟨t :: read, rest, rest', hsome, hsome', by rw [hrest]; rfl, by rw [hrest']; rfl,
          (noEnd_singleton ht).append hread, fun h => absurd h (List.cons_ne_nil t read)⟩

/-- A reader with recovery reads a token before any but the end token, also when the reader has
failed before it has read one. -/
theorem PacedAt.recover {t : Token} {rest rest' : List Token} {errors errors' : List SyntaxError}
    (ht : t.kind ≠ .eof) (hs : SameToEnd (t :: rest) (t :: rest'))
    (hr : PacedAt .program same ⟨t :: rest, errors⟩ ⟨t :: rest', errors'⟩ true k r r') :
    PacedAt .program same ⟨t :: rest, errors⟩ ⟨t :: rest', errors'⟩ true k (recover r)
      (recover r') := by
  unfold PacedAt at hr
  unfold PacedAt Reader.recover
  cases hrun : r ⟨t :: rest, errors⟩ with
  | ok a u =>
    rw [hrun] at hr
    obtain ⟨u', read, found, hrun', htogether, hne⟩ := hr
    exact ⟨u', read, found, by rw [hrun'], htogether, hne⟩
  | error i u =>
    rw [hrun] at hr
    cases i with
    | fault f =>
      refine ⟨hr.1, fun hsame => ?_⟩
      obtain ⟨u', read, found, hrun', htogether⟩ := hr.2 hsame
      exact ⟨u', read, found, by rw [hrun'], htogether⟩
    | syntaxError =>
      obtain ⟨u', read, found, hrun', htogether⟩ := hr.2 nofun
      -- the reader has failed; going on skips a token unless it has come to an end token
      rcases resume_same (htogether.same hs) with
        ⟨hnone, hnone', hend⟩ |
          ⟨skipped, left, left', hresume, hresume', hleft, hleft', hskipped, hstart⟩
      · simp only [hnone]
        refine ⟨.inl ⟨rfl, ?_⟩, fun _ => ⟨u', read, found, by simp only [hrun', hnone'], htogether⟩⟩
        have hrest : t :: rest = read ++ u.rest := htogether.first.rest_eq
        rw [hrest]
        exact htogether.first.noEnd.append hend
      · simp only [hresume]
        have hgo : Together .program u u' ⟨left, u.errors⟩ ⟨left', u'.errors⟩ skipped [] :=
          ⟨⟨hleft, hskipped, (List.append_nil _).symm⟩,
            ⟨hleft', hskipped, (List.append_nil _).symm⟩, hskipped⟩
        refine ⟨⟨left', u'.errors⟩, read ++ skipped, found ++ [], by simp only [hrun', hresume'],
          htogether.trans hgo, fun _ hnil => ?_⟩
        -- nothing read and nothing skipped: `t` would be the end token
        obtain ⟨rfl, rfl⟩ := List.append_eq_nil_iff.mp hnil
        obtain ⟨t', ht', hend⟩ := hstart rfl
        rw [← List.nil_append u.rest, ← htogether.first.rest_eq, List.head?_cons,
          Option.some.injEq] at ht'
        exact ht (ht' ▸ hend)

end

end Reader
end LoxLang
