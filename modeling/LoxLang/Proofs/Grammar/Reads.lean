import LoxLang.Grammar.Cursor
import LoxLang.Proofs.Computation

/-! # What readers do to a cursor

`Reads m r P` is the contract of a reader on a token list that has an end token.  If `r`
succeeds it has read some tokens from the front, none of them the end token and, if `m` is
set, at least one, and it has taken down some errors behind those there were; if it has taken down
none, the tokens read, those left and the result satisfy `P`.  If `r` gives up it has taken down
an error.  And `r` stops for good only at the limit of nesting: it does not run off the tokens,
and none of its loops comes to the end of its turns.

So a run that takes down no error never gave up anywhere, not even inside a `recover`, and `P`
holds of every part of it.  The contract composes (`ReadsAt.bind`), and each way to repeat a
reader keeps it (`Reads.leftChain`, `Reads.commaSeparated`, `Reads.manyUntil`).
-/

namespace LoxLang

/-- Some token is the end token. -/
def HasEnd (tokens : List Token) : Prop := ∃ t ∈ tokens, t.kind = .eof

/-- No token is the end token. -/
def NoEnd (tokens : List Token) : Prop := ∀ t ∈ tokens, t.kind ≠ .eof

theorem noEnd_nil : NoEnd [] := fun _ ht => nomatch ht

theorem NoEnd.append {u v : List Token} (hu : NoEnd u) (hv : NoEnd v) : NoEnd (u ++ v) := by
  intro t ht
  rcases List.mem_append.mp ht with ht | ht
  · exact hu t ht
  · exact hv t ht

theorem noEnd_singleton {t : Token} (h : t.kind ≠ .eof) : NoEnd [t] := by
  intro t' ht'
  rcases List.mem_singleton.mp ht' with rfl
  exact h

/-- The end token is not among tokens read from the front that are no end tokens. -/
theorem HasEnd.of_append {u v : List Token} (h : HasEnd (u ++ v)) (hu : NoEnd u) : HasEnd v := by
  obtain ⟨t, ht, hk⟩ := h
  rcases List.mem_append.mp ht with ht | ht
  · exact absurd hk (hu t ht)
  · exact ⟨t, ht, hk⟩

theorem HasEnd.exists_cons {tokens : List Token} (h : HasEnd tokens) :
    ∃ t rest, tokens = t :: rest := by
  obtain ⟨t, ht, _⟩ := h
  exact List.exists_cons_of_ne_nil (List.ne_nil_of_mem ht)

/-- What is left behind a first token that is no end token has an end as well. -/
theorem HasEnd.tail {t : Token} {rest : List Token} (h : HasEnd (t :: rest))
    (ht : t.kind ≠ .eof) : HasEnd rest :=
  HasEnd.of_append (u := [t]) h (noEnd_singleton ht)

namespace Reader

variable {α β : Type}

/-- The cursor `s'` comes from `s` by reading `read` and taking down `found`. -/
structure Reaches (s s' : Cursor) (read : List Token) (found : List SyntaxError) : Prop where
  rest_eq : s.rest = read ++ s'.rest
  noEnd : NoEnd read
  errors_eq : s'.errors = s.errors ++ found

theorem Reaches.refl (s : Cursor) : Reaches s s [] [] :=
  ⟨rfl, noEnd_nil, (List.append_nil _).symm⟩

theorem Reaches.trans {s s' s'' : Cursor} {u v : List Token} {e f : List SyntaxError}
    (h : Reaches s s' u e) (h' : Reaches s' s'' v f) : Reaches s s'' (u ++ v) (e ++ f) where
  rest_eq := by rw [h.rest_eq, h'.rest_eq, List.append_assoc]
  noEnd := h.noEnd.append h'.noEnd
  errors_eq := by rw [h'.errors_eq, h.errors_eq, List.append_assoc]

theorem Reaches.hasEnd {s s' : Cursor} {u : List Token} {e : List SyntaxError}
    (h : Reaches s s' u e) (hs : HasEnd s.rest) : HasEnd s'.rest :=
  HasEnd.of_append (h.rest_eq ▸ hs) h.noEnd

theorem Reaches.length_le {s s' : Cursor} {u : List Token} {e : List SyntaxError}
    (h : Reaches s s' u e) : s'.rest.length ≤ s.rest.length := by
  rw [h.rest_eq, List.length_append]
  omega

theorem Reaches.length_lt {s s' : Cursor} {u : List Token} {e : List SyntaxError}
    (h : Reaches s s' u e) (hu : u ≠ []) : s'.rest.length < s.rest.length := by
  have := List.length_pos_iff.mpr hu
  rw [h.rest_eq, List.length_append]
  omega

/-- Behind a token that was dropped, fewer tokens are left. -/
theorem Reaches.length_lt_of_cons {s₀ s s' : Cursor} {t : Token} {u : List Token}
    {e : List SyntaxError} (h : Reaches s s' u e) (hs : s₀.rest = t :: s.rest) :
    s'.rest.length < s₀.rest.length := by
  rw [hs, List.length_cons]
  exact Nat.lt_succ_of_le h.length_le

/-- The contract of a reader at one cursor. -/
def ReadsAt (s : Cursor) (m : Bool) (r : Reader α)
    (P : List Token → List Token → α → Prop) : Prop :=
  match r s with
  | .ok a s' => ∃ read found, Reaches s s' read found ∧ (m = true → read ≠ []) ∧
      (found = [] → P read s'.rest a)
  | .error .syntaxError s' => ∃ read found, Reaches s s' read found ∧ found ≠ []
  | .error (.fault f) _ => f = .tooDeep

/-- The contract of a reader on token lists that have an end. -/
def Reads (m : Bool) (r : Reader α) (P : List Token → List Token → α → Prop) : Prop :=
  ∀ s : Cursor, HasEnd s.rest → ReadsAt s m r P

variable {s : Cursor} {m n : Bool} {r : Reader α}
  {P P' : List Token → List Token → α → Prop}

/-! ## Composition -/

theorem ReadsAt.weaken (h : ReadsAt s m r P) (hm : n = true → m = true)
    (hP : ∀ u rest a, P u rest a → P' u rest a) : ReadsAt s n r P' := by
  unfold ReadsAt at h ⊢
  split at h
  · obtain ⟨read, found, hr, hne, hp⟩ := h
    exact ⟨read, found, hr, fun hm' => hne (hm hm'), fun hf => hP _ _ _ (hp hf)⟩
  · exact h
  · exact h

theorem ReadsAt.imp (h : ReadsAt s m r P) (hP : ∀ u rest a, P u rest a → P' u rest a) :
    ReadsAt s m r P' :=
  h.weaken id hP

/-- What reads a token reads it, whether one asks for that or not. -/
theorem ReadsAt.loosen (h : ReadsAt s m r P) : ReadsAt s false r P :=
  h.weaken (fun h => absurd h Bool.false_ne_true) fun _ _ _ h => h

theorem Reads.imp (h : Reads m r P) (hP : ∀ u rest a, P u rest a → P' u rest a) :
    Reads m r P' :=
  fun s hs => (h s hs).imp hP

/-- Reading nothing. -/
theorem ReadsAt.pure {a : α} (h : P [] s.rest a) : ReadsAt s false (Pure.pure a) P :=
  ⟨[], [], .refl s, nofun, fun _ => h⟩

/-- One reader behind another. What the first has read stands in front of what the second reads. -/
theorem ReadsAt.bind {q : α → Reader β} {Q : List Token → List Token → β → Prop}
    (hr : ReadsAt s m r P)
    (hq : ∀ a s' u found, Reaches s s' u found → (m = true → u ≠ []) →
      ReadsAt s' n (q a) (fun v rest b => P u (v ++ rest) a → Q (u ++ v) rest b)) :
    ReadsAt s (m || n) (r >>= q) Q := by
  unfold ReadsAt at hr ⊢
  change match EStateM.bind r q s with
    | .ok a s' => _
    | .error .syntaxError s' => _
    | .error (.fault f) _ => _
  unfold EStateM.bind
  cases h : r s with
  | ok a s' =>
    rw [h] at hr
    obtain ⟨u, found, hreach, hne, hp⟩ := hr
    have hq' := hq a s' u found hreach hne
    unfold ReadsAt at hq'
    dsimp only
    cases h' : q a s' with
    | ok b s'' =>
      rw [h'] at hq'
      obtain ⟨v, found', hreach', hne', hp'⟩ := hq'
      refine ⟨u ++ v, found ++ found', hreach.trans hreach', ?_, ?_⟩
      · intro hm hnil
        obtain ⟨hu, hv⟩ := List.append_eq_nil_iff.mp hnil
        rcases Bool.or_eq_true_iff.mp hm with hm | hm
        · exact hne hm hu
        · exact hne' hm hv
      · intro hnil
        obtain ⟨hf, hf'⟩ := List.append_eq_nil_iff.mp hnil
        exact hp' hf' (hreach'.rest_eq ▸ hp hf)
    | error i s'' =>
      rw [h'] at hq'
      cases i with
      | syntaxError =>
        obtain ⟨v, found', hreach', hne'⟩ := hq'
        exact ⟨u ++ v, found ++ found', hreach.trans hreach',
          fun hnil => hne' (List.append_eq_nil_iff.mp hnil).2⟩
      | fault f => exact hq'
  | error i s' =>
    rw [h] at hr
    cases i <;> exact hr

theorem Reads.bind {q : α → Reader β} {Q : List Token → List Token → β → Prop}
    (hr : Reads m r P)
    (hq : ∀ a, Reads n (q a) (fun v rest b => ∀ u, P u (v ++ rest) a → Q (u ++ v) rest b)) :
    Reads (m || n) (r >>= q) Q := by
  intro s hs
  refine (hr s hs).bind fun a s' u _ hreach _ => ?_
  exact (hq a s' (hreach.hasEnd hs)).imp fun _ _ _ h => h u

theorem Reads.pure {a : α} (h : ∀ rest, P [] rest a) : Reads false (Pure.pure a) P :=
  fun _ _ => .pure (h _)

theorem ReadsAt.map {f : α → β} (hr : ReadsAt s m r P) :
    ReadsAt s m (f <$> r) (fun u rest b => ∃ a, b = f a ∧ P u rest a) := by
  rw [map_eq_pure_bind]
  refine (hr.bind (n := false) fun a _ _ _ _ _ => ?_).weaken (by simp) fun _ _ _ h => h
  exact .pure fun ha => ⟨a, rfl, by simpa using ha⟩

/-! ## Steps -/

theorem reads_stop : Reads m (stop .tooDeep : Reader α) P := fun _ _ => rfl

theorem peek_cons (t : Token) (rest : List Token) (errors : List SyntaxError) :
    peek ⟨t :: rest, errors⟩ = .ok t ⟨t :: rest, errors⟩ := rfl

theorem peek_bind_cons (q : Token → Reader α) (t : Token) (rest : List Token)
    (errors : List SyntaxError) : (peek >>= q) ⟨t :: rest, errors⟩ = q t ⟨t :: rest, errors⟩ := rfl

theorem skip_bind_cons (q : Unit → Reader α) (t : Token) (rest : List Token)
    (errors : List SyntaxError) : (skip >>= q) ⟨t :: rest, errors⟩ = q () ⟨rest, errors⟩ := rfl

/-- Looking at the next token. -/
theorem reads_peek : Reads false peek (fun u rest t => u = [] ∧ rest.head? = some t) := by
  intro s hs
  obtain ⟨t, rest, hrest⟩ := hs.exists_cons
  have h : peek s = .ok t s := by simp only [peek, hrest]
  unfold ReadsAt
  rw [h]
  exact ⟨[], [], .refl s, nofun, fun _ => ⟨rfl, by rw [hrest]; rfl⟩⟩

theorem ReadsAt.peek_bind {t : Token} {rest : List Token} {errors : List SyntaxError}
    {q : Token → Reader β} {Q : List Token → List Token → β → Prop}
    (hq : ReadsAt ⟨t :: rest, errors⟩ m (q t) Q) :
    ReadsAt ⟨t :: rest, errors⟩ m (peek >>= q) Q := hq

/-- Looking at the next token and going on with what depends on it. -/
theorem Reads.peek_bind {q : Token → Reader β} {Q : List Token → List Token → β → Prop}
    (hq : ∀ t rest errors, HasEnd (t :: rest) → ReadsAt ⟨t :: rest, errors⟩ m (q t) Q) :
    Reads m (peek >>= q) Q := by
  intro s hs
  obtain ⟨rest, errors⟩ := s
  obtain ⟨t, rest, rfl⟩ := hs.exists_cons
  exact .peek_bind (hq t rest errors hs)

/-- Dropping the next token, which is known. -/
theorem readsAt_skip {t : Token} {rest : List Token} {errors : List SyntaxError}
    (ht : t.kind ≠ .eof) :
    ReadsAt ⟨t :: rest, errors⟩ true skip (fun u _ _ => u = [t]) :=
  ⟨[t], [], ⟨rfl, noEnd_singleton ht, (List.append_nil _).symm⟩,
    fun _ => List.cons_ne_nil _ _, fun _ => rfl⟩

/-- Dropping the next token, which is known, and going on. -/
theorem ReadsAt.skip_bind {t : Token} {rest : List Token} {errors : List SyntaxError}
    {q : Unit → Reader β} {Q : List Token → List Token → β → Prop} (ht : t.kind ≠ .eof)
    (hs : HasEnd (t :: rest)) (hq : Reads m (q ()) (fun v rest b => Q (t :: v) rest b)) :
    ReadsAt ⟨t :: rest, errors⟩ true (skip >>= q) Q := by
  refine (readsAt_skip ht).bind (n := m) fun _ s' u _ hreach _ => ?_
  exact (hq s' (hreach.hasEnd hs)).imp fun v rest b h hu => by simpa [hu] using h

theorem accept?_of_wanted {wanted : Kind → Bool} {t : Token} {rest : List Token}
    {errors : List SyntaxError} (h : wanted t.kind = true) :
    accept? wanted ⟨t :: rest, errors⟩ = .ok (some t) ⟨rest, errors⟩ := by
  rw [accept?, EStateM.bind_ok (peek_cons t rest errors), if_pos h]
  rfl

theorem accept?_of_unwanted {wanted : Kind → Bool} {t : Token} {rest : List Token}
    {errors : List SyntaxError} (h : wanted t.kind = false) :
    accept? wanted ⟨t :: rest, errors⟩ = .ok none ⟨t :: rest, errors⟩ := by
  rw [accept?, EStateM.bind_ok (peek_cons t rest errors), if_neg (ne_true_of_eq_false h)]
  rfl

/-- Taking the next token if it is wanted, and going on either way. -/
theorem ReadsAt.accept?_bind {wanted : Kind → Bool} {q : Option Token → Reader β}
    {Q : List Token → List Token → β → Prop} (hs : HasEnd s.rest) (hend : wanted .eof = false)
    (hsome : ∀ t s', s.rest = t :: s'.rest → HasEnd s'.rest → wanted t.kind = true →
      ReadsAt s' n (q (some t)) (fun v rest b => Q (t :: v) rest b))
    (hnone : (∀ t, s.rest.head? = some t → wanted t.kind = false) → ReadsAt s m (q none) Q) :
    ReadsAt s m (accept? wanted >>= q) Q := by
  obtain ⟨rest, errors⟩ := s
  obtain ⟨t, rest, rfl⟩ := hs.exists_cons
  cases hw : wanted t.kind with
  | true =>
    have ht : t.kind ≠ .eof := fun he => by rw [he, hend] at hw; cases hw
    have hrest := hsome t ⟨rest, errors⟩ rfl (hs.tail ht) hw
    unfold ReadsAt at hrest ⊢
    rw [EStateM.bind_ok (accept?_of_wanted hw)]
    have hreach : Reaches ⟨t :: rest, errors⟩ ⟨rest, errors⟩ [t] [] :=
      ⟨rfl, noEnd_singleton ht, (List.append_nil _).symm⟩
    split at hrest
    · obtain ⟨v, found, hv, _, hq⟩ := hrest
      exact ⟨t :: v, found, hreach.trans hv, fun _ => List.cons_ne_nil _ _, hq⟩
    · obtain ⟨v, found, hv, hne⟩ := hrest
      exact ⟨t :: v, found, hreach.trans hv, hne⟩
    · exact hrest
  | false =>
    have hrest := hnone fun t' ht' => by
      rw [List.head?_cons, Option.some.injEq] at ht'
      exact ht' ▸ hw
    unfold ReadsAt at hrest ⊢
    rw [EStateM.bind_ok (accept?_of_unwanted hw)]
    exact hrest

/-- Taking the next token if it is of the given kind, and going on either way. -/
theorem ReadsAt.skipped_bind {kind : Kind} {q : Bool → Reader β}
    {Q : List Token → List Token → β → Prop} (hs : HasEnd s.rest) (hend : kind ≠ .eof)
    (htrue : ∀ t s', s.rest = t :: s'.rest → HasEnd s'.rest → t.kind = kind →
      ReadsAt s' n (q true) (fun v rest b => Q (t :: v) rest b))
    (hfalse : (∀ t, s.rest.head? = some t → t.kind ≠ kind) → ReadsAt s m (q false) Q) :
    ReadsAt s m (skipped kind >>= q) Q := by
  rw [skipped, bind_assoc]
  simp only [pure_bind]
  refine .accept?_bind (n := n) hs (by simpa using Ne.symm hend) ?_ ?_
  · intro t s' hrest hs' hk
    exact htrue t s' hrest hs' (by simpa using hk)
  · intro h
    exact hfalse fun t ht => by simpa using h t ht

/-- Looking whether a token of the given kind is next, and going on either way. -/
theorem ReadsAt.sees_bind {kind : Kind} {q : Bool → Reader β}
    {Q : List Token → List Token → β → Prop} (hs : HasEnd s.rest)
    (hq : ∀ t, s.rest.head? = some t → ReadsAt s m (q (decide (t.kind = kind))) Q) :
    ReadsAt s m (sees kind >>= q) Q := by
  obtain ⟨rest, errors⟩ := s
  obtain ⟨t, rest, rfl⟩ := hs.exists_cons
  exact hq t rfl

/-- Taking down an error: whatever is read with it was not read without errors. -/
theorem reads_record (fault : SyntaxFault) (place : Token) :
    Reads false (record fault place) (fun _ _ _ => False) :=
  fun _ _ => ⟨[], [⟨fault, place⟩], ⟨rfl, noEnd_nil, rfl⟩, nofun, nofun⟩

/-- Giving up takes down an error. -/
theorem reads_fail (what : Expectation) : Reads m (fail what : Reader α) P := by
  refine .peek_bind (β := α) (q := fun t => do record (.expected what) t; throw .syntaxError)
    fun t rest errors _ => ?_
  exact ⟨[], [⟨.expected what, t⟩], ⟨rfl, noEnd_nil, rfl⟩, List.cons_ne_nil _ _⟩

/-- Taking a token that has to be there. -/
theorem reads_expect (kind : Kind) (what : Expectation) (hend : kind ≠ .eof) :
    Reads true (expect kind what) (fun u _ t => u = [t] ∧ t.kind = kind) := by
  intro s hs
  obtain ⟨rest, errors⟩ := s
  obtain ⟨t, rest, rfl⟩ := hs.exists_cons
  by_cases hk : t.kind = kind
  · unfold ReadsAt
    rw [expect, EStateM.bind_ok (accept?_of_wanted (decide_eq_true hk))]
    exact ⟨[t], [], ⟨rfl, noEnd_singleton (hk ▸ hend), (List.append_nil _).symm⟩,
      fun _ => List.cons_ne_nil _ _, fun _ => ⟨rfl, hk⟩⟩
  · unfold ReadsAt
    rw [expect, EStateM.bind_ok (accept?_of_unwanted (decide_eq_false hk))]
    exact reads_fail (m := true) (P := fun u _ t => u = [t] ∧ t.kind = kind) what _ hs

/-! ## Repetition

The turns that a loop has left are at least as many as the tokens, and a turn reads a token, so the
turns do not run out. -/

/-- Counting the turns of a loop by the tokens that are left. -/
theorem ReadsAt.upcoming_bind {q : List Token → Reader β} {Q : List Token → List Token → β → Prop}
    (hq : ReadsAt s m (q s.rest) Q) : ReadsAt s m (upcoming >>= q) Q := hq

/-- There are no turns left only if there are no tokens left. -/
theorem not_hasEnd_of_length_le_zero {tokens : List Token} (h : tokens.length ≤ 0) :
    ¬ HasEnd tokens := by
  rintro ⟨t, ht, _⟩
  exact absurd (List.length_pos_of_mem ht) (by omega)

/-- **A loop that reads a token in each turn has enough turns.**  It is enough to show what a turn
reads if the loop reads what it is to from where fewer tokens are left. -/
theorem readsAt_turns {q : List Token → β → Reader α} {Q : β → List Token → List Token → α → Prop}
    (hturn : ∀ turn turns b s, HasEnd s.rest →
      (∀ b' s', HasEnd s'.rest → s'.rest.length < s.rest.length →
        ReadsAt s' false (q turns b') (Q b')) →
      ReadsAt s false (q (turn :: turns) b) (Q b)) :
    ∀ turns b s, HasEnd s.rest → s.rest.length ≤ turns.length →
      ReadsAt s false (q turns b) (Q b) := by
  intro turns
  induction turns with
  | nil => exact fun b s hs hlen => absurd hs (not_hasEnd_of_length_le_zero hlen)
  | cons turn turns ih =>
    intro b s hs hlen
    refine hturn turn turns b s hs fun b' s' hs' hless => ih b' s' hs' ?_
    rw [List.length_cons] at hlen
    omega

/-- A loop that groups to the left reads an operand and then, again and again, an operator and an
operand. -/
theorem Reads.leftChain {ops : Kind → Bool} {join : α → Token → α → α} {operand : Reader α}
    {O I : List Token → α → Prop} (hend : ops .eof = false)
    (hoperand : Reads m operand (fun u _ a => O u a)) (first : ∀ u a, O u a → I u a)
    (next : ∀ u a t v b, I u a → ops t.kind = true → O v b → I (u ++ t :: v) (join a t b)) :
    Reads m (leftChain ops join operand) (fun u _ a => I u a) := by
  have more : ∀ turns left s, HasEnd s.rest → s.rest.length ≤ turns.length →
      ReadsAt s false (leftChain.more ops join operand turns left)
        (fun u _ a => ∀ v, I v left → I (v ++ u) a) := by
    refine readsAt_turns fun turn turns left s hs hgo => ?_
    refine .accept?_bind (n := false) hs hend ?_ ?_
    · intro op s' hrest hs' hop
      refine ((hoperand s' hs').bind (n := false) fun b s'' v _ hreach _ => ?_).loosen
      refine (hgo (join left op b) s'' (hreach.hasEnd hs') (hreach.length_lt_of_cons hrest)).imp
        fun x _ a hx hv u hu => ?_
      simpa using hx _ (next u left op v b hu hop hv)
    · intro _
      exact .pure fun v hv => by simpa using hv
  intro s hs
  refine .upcoming_bind ?_
  refine ((hoperand s hs).bind (n := false) fun a s' u _ hreach _ => ?_).weaken
    (fun hm => by simpa using hm) fun _ _ _ h => h
  exact (more s.rest a s' (hreach.hasEnd hs) hreach.length_le).imp
    fun v _ b hv hu => hv u (first u a hu)

/-- A loop over items with commas between them reads at least one of them, and at most `maxItems`
if it takes down no error. -/
theorem Reads.commaSeparated {excess : SyntaxFault} {item : Reader α}
    {O : List Token → α → Prop} {I : List Token → List α → Prop}
    (hitem : Reads m item (fun u _ a => O u a)) (last : ∀ u a, O u a → I u [a])
    (next : ∀ u a t v b bs, O u a → t.kind = .comma → I v (b :: bs) →
      I (u ++ t :: v) (a :: b :: bs)) :
    Reads false (commaSeparated excess item)
      (fun u _ as => I u as ∧ as.length ≤ maxItems) := by
  have more : ∀ turns (b : Nat × List α) s, HasEnd s.rest → s.rest.length ≤ turns.length →
      ReadsAt s false (commaSeparated.more excess item turns b.1 b.2)
        (fun u _ all => ∃ a as, all = b.2.reverse ++ a :: as ∧ I u (a :: as) ∧
          b.1 + (a :: as).length ≤ maxItems) := by
    refine readsAt_turns ?_
    rintro turn turns ⟨count, items⟩ s hs hgo
    -- what a turn does behind the test of the count, which an error-free run passes
    have body : ∀ s', HasEnd s'.rest → s'.rest.length ≤ s.rest.length →
        ReadsAt s' false (do
            let items := (← item) :: items
            if ← skipped .comma then commaSeparated.more excess item turns (count + 1) items
            else return items.reverse)
          (fun u _ all => ∃ a as, all = items.reverse ++ a :: as ∧ I u (a :: as) ∧
            (as = [] ∨ count + (a :: as).length ≤ maxItems)) := by
      intro s' hs' hle
      refine ((hitem s' hs').bind (n := false) fun a s'' u _ hreach _ => ?_).loosen
      refine .skipped_bind (n := false) (hreach.hasEnd hs') (by decide) ?_ ?_
      · intro comma t hrest ht hcomma
        have hless : t.rest.length < s.rest.length := by
          have := hreach.length_le
          rw [hrest, List.length_cons] at this
          omega
        refine (hgo (count + 1, a :: items) t ht hless).imp ?_
        rintro v _ all ⟨b, bs, rfl, hI, hcount⟩ ha
        refine ⟨a, b :: bs, by simp, next u a comma v b bs ha hcomma hI, .inr ?_⟩
        simp only [List.length_cons] at hcount ⊢
        omega
      · intro _
        exact .pure fun ha => ⟨a, [], by simp, by simpa using last u a ha, .inl rfl⟩
    show ReadsAt s false (commaSeparated.more excess item (turn :: turns) count items) _
    rw [commaSeparated.more]
    split
    · refine ((reads_peek s hs).bind (n := false) fun t s' u _ hreach _ => ?_)
      refine ((reads_record excess t s' (hreach.hasEnd hs)).bind (n := false)
        fun _ s'' u _ hreach' _ => ?_)
      exact (body s'' (hreach'.hasEnd (hreach.hasEnd hs))
        (Nat.le_trans hreach'.length_le hreach.length_le)).imp fun _ _ _ _ h => h.elim
    · rename_i hcount
      refine (body s hs (Nat.le_refl _)).imp ?_
      rintro u _ all ⟨a, as, rfl, hI, has⟩
      refine ⟨a, as, rfl, hI, has.elim ?_ id⟩
      rintro rfl
      simp only [List.length_cons, List.length_nil]
      omega
  intro s hs
  refine .upcoming_bind ((more s.rest (0, []) s hs (Nat.le_refl _)).imp ?_)
  rintro u _ all ⟨a, as, rfl, hI, hcount⟩
  exact ⟨hI, by simpa using hcount⟩

/-- A turn of a loop over items. -/
theorem manyUntil_more_cons {done : Reader Bool} {item : Reader (Option α)} (turn : Token)
    (turns : List Token) (items : List α) :
    manyUntil.more done item (turn :: turns) items =
      done >>= fun b => if b then pure items.reverse
        else item >>= fun o => manyUntil.more done item turns (o.toList ++ items) := by
  rw [manyUntil.more]
  refine bind_congr fun b => ?_
  cases b with
  | true => rfl
  | false =>
    refine bind_congr fun o => ?_
    cases o <;> rfl

/-- A loop over items up to where `done` says so reads the items that have a result, one behind
the other.  Where `done` says no there has to be an item, and each item reads a token. -/
theorem Reads.manyUntil {done : Reader Bool} {item : Reader (Option α)} {E : Token → Prop}
    {O : List Token → α → Prop} {I : List Token → List α → Prop}
    (hdone : ∀ t rest errors, ∃ b, done ⟨t :: rest, errors⟩ = .ok b ⟨t :: rest, errors⟩ ∧
      if b then E t else t.kind ≠ .eof)
    (hitem : ∀ t rest errors, HasEnd (t :: rest) → t.kind ≠ .eof →
      ReadsAt ⟨t :: rest, errors⟩ true item (fun u _ o => ∃ a, o = some a ∧ O u a))
    (nil : I [] []) (next : ∀ u a v as, O u a → I v as → I (u ++ v) (a :: as)) :
    Reads false (manyUntil done item)
      (fun u rest as => I u as ∧ ∀ t, rest.head? = some t → E t) := by
  have more : ∀ turns items s, HasEnd s.rest → s.rest.length ≤ turns.length →
      ReadsAt s false (manyUntil.more done item turns items)
        (fun u rest all => ∃ as, all = items.reverse ++ as ∧ I u as ∧
          ∀ t, rest.head? = some t → E t) := by
    refine readsAt_turns fun turn turns items s hs hgo => ?_
    obtain ⟨rest, errors⟩ := s
    obtain ⟨t, rest, rfl⟩ := hs.exists_cons
    obtain ⟨b, hb, hE⟩ := hdone t rest errors
    have hstep : ReadsAt ⟨t :: rest, errors⟩ false
        (if b then (return items.reverse)
          else item >>= fun o => manyUntil.more done item turns (o.toList ++ items))
        (fun u rest all => ∃ as, all = items.reverse ++ as ∧ I u as ∧
          ∀ t, rest.head? = some t → E t) := by
      cases b with
      | true =>
        exact .pure ⟨[], by simp, nil, fun t' ht' => by
          rw [List.head?_cons, Option.some.injEq] at ht'
          exact ht' ▸ hE⟩
      | false =>
        refine ((hitem t rest errors hs hE).bind (n := false)
          fun o s' u _ hreach hne => ?_).loosen
        have hless := hreach.length_lt (hne rfl)
        cases o with
        | some a =>
          refine (hgo (a :: items) s' (hreach.hasEnd hs) hless).imp ?_
          rintro v _ all ⟨as, rfl, hI, hend⟩ ⟨a', ha', hO⟩
          rw [Option.some.injEq] at ha'
          exact ⟨a :: as, by simp, next u a v as (ha' ▸ hO) hI, hend⟩
        | none =>
          refine (hgo items s' (hreach.hasEnd hs) hless).imp ?_
          rintro v _ all _ ⟨a', ha', _⟩
          cases ha'
    unfold ReadsAt at hstep ⊢
    rw [manyUntil_more_cons, EStateM.bind_ok hb]
    exact hstep
  intro s hs
  refine .upcoming_bind ((more s.rest [] s hs (Nat.le_refl _)).imp ?_)
  rintro u _ all ⟨as, rfl, hI, hend⟩
  exact ⟨by simpa using hI, hend⟩

/-! ## Recovery -/

/-- Going on after a skipped token leaves tokens that have an end. -/
theorem resumeAfter_eq_some (last : Kind) {tokens : List Token} (h : HasEnd tokens) :
    ∃ u rest, resumeAfter last tokens = some rest ∧ tokens = u ++ rest ∧ NoEnd u := by
  induction tokens generalizing last with
  | nil => exact absurd h (not_hasEnd_of_length_le_zero (Nat.le_refl 0))
  | cons t rest ih =>
    rw [resumeAfter]
    split
    · exact ⟨[], t :: rest, rfl, rfl, noEnd_nil⟩
    · rename_i hstop
      have ht : t.kind ≠ .eof := fun he => hstop (.inl he)
      obtain ⟨u, rest', hresume, hrest, hu⟩ := ih t.kind (h.tail ht)
      exact ⟨t :: u, rest', hresume, by rw [hrest]; rfl, (noEnd_singleton ht).append hu⟩

/-- Going on after an error skips a token, unless the error is at the end. -/
theorem resume_eq_some {tokens : List Token} (h : HasEnd tokens) :
    ∃ u rest, resume tokens = some rest ∧ tokens = u ++ rest ∧ NoEnd u ∧
      (u = [] → ∃ t, tokens.head? = some t ∧ t.kind = .eof) := by
  obtain ⟨t, rest, rfl⟩ := h.exists_cons
  rw [resume]
  split
  · rename_i ht
    exact ⟨[], t :: rest, rfl, rfl, noEnd_nil, fun _ => ⟨t, rfl, ht⟩⟩
  · rename_i ht
    obtain ⟨u, rest', hresume, hrest, hu⟩ := resumeAfter_eq_some t.kind (h.tail ht)
    exact ⟨t :: u, rest', hresume, by rw [hrest]; rfl, (noEnd_singleton ht).append hu, nofun⟩

/-- A reader with recovery never gives up, and what it reads without errors is what the reader
reads.  In front of a token that is no end token it always reads a token. -/
theorem ReadsAt.recover {t : Token} {rest : List Token} {errors : List SyntaxError}
    (hs : HasEnd (t :: rest)) (ht : t.kind ≠ .eof)
    (hr : ReadsAt ⟨t :: rest, errors⟩ true r P) :
    ReadsAt ⟨t :: rest, errors⟩ true (recover r) (fun u rest o => ∃ a, o = some a ∧ P u rest a) := by
  unfold ReadsAt at hr
  unfold ReadsAt Reader.recover
  cases h : r ⟨t :: rest, errors⟩ with
  | ok a s' =>
    rw [h] at hr
    obtain ⟨u, found, hreach, hne, hp⟩ := hr
    exact ⟨u, found, hreach, hne, fun hf => ⟨a, rfl, hp hf⟩⟩
  | error i s' =>
    rw [h] at hr
    cases i with
    | syntaxError =>
      obtain ⟨u, found, hreach, hne⟩ := hr
      obtain ⟨v, rest', hresume, hrest, hv, hstart⟩ := resume_eq_some (hreach.hasEnd hs)
      simp only [hresume]
      have hreach' : Reaches s' ⟨rest', s'.errors⟩ v [] :=
        ⟨hrest, hv, (List.append_nil _).symm⟩
      refine ⟨u ++ v, found ++ [], hreach.trans hreach', fun _ hnil => ?_,
        fun hnil => absurd (List.append_eq_nil_iff.mp hnil).1 hne⟩
      obtain ⟨rfl, rfl⟩ := List.append_eq_nil_iff.mp hnil
      obtain ⟨t', ht', hk⟩ := hstart rfl
      rw [← List.nil_append s'.rest, ← hreach.rest_eq, List.head?_cons, Option.some.injEq] at ht'
      exact ht (ht' ▸ hk)
    | fault f => exact hr

/-- A reader that never gives up. -/
def Persists (r : Reader α) : Prop := ∀ s s', r s ≠ .error .syntaxError s'

theorem Persists.bind {q : α → Reader β} (hr : Persists r) (hq : ∀ a, Persists (q a)) :
    Persists (r >>= q) := by
  intro s s' h
  cases hrs : r s with
  | ok a s₁ =>
    rw [EStateM.bind_ok hrs] at h
    exact hq a s₁ s' h
  | error i s₁ =>
    rw [EStateM.bind_error hrs] at h
    cases h
    exact hr s s' hrs

theorem persists_sees (kind : Kind) : Persists (sees kind) := by
  have hpeek : Persists peek := by
    rintro ⟨rest, errors⟩ s' h
    cases rest <;> cases h
  exact hpeek.bind fun t s s' h => nomatch h

theorem persists_recover : Persists (Reader.recover r) := by
  intro s s' h
  unfold Reader.recover at h
  split at h
  · cases h
  · split at h <;> cases h
  · cases h

theorem persists_manyUntil {done : Reader Bool} {item : Reader (Option α)} (hdone : Persists done)
    (hitem : Persists item) : Persists (manyUntil done item) := by
  have more : ∀ turns items, Persists (manyUntil.more done item turns items) := by
    intro turns
    induction turns with
    | nil => exact fun items s s' h => nomatch h
    | cons turn turns ih =>
      intro items
      refine hdone.bind fun b => ?_
      cases b with
      | true => exact fun s s' h => nomatch h
      | false =>
        refine hitem.bind fun o => ?_
        cases o with
        | none => exact ih items
        | some x => exact ih (x :: items)
  exact fun s s' h => more s.rest [] s s' h

end Reader
end LoxLang
