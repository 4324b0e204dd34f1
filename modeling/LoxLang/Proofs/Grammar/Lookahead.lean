import LoxLang.Proofs.Grammar.Reads

/-! # How far readers look ahead

A reader that takes down no error depends on the tokens it reads and, of those behind them, on no
more than the kind of the first.  `Carries φ look f r' u rest a` says this of a result `a` that was
read from `u` in front of `rest`: if the tokens are changed by `φ`, which keeps their kinds, and
other tokens follow whose first looks as that of `rest` does, then `r'` reads the changed tokens
and yields the changed result `f a`.  What it is to look alike depends on the reader: most readers
tell all kinds apart, but behind a statement it only matters whether an `else` follows.

As a condition in the contract `Reads` this composes (`Reads.carries_bind`), and loops keep it. -/

namespace LoxLang
namespace Reader

variable {α β γ δ : Type}

/-- A token looks like the first of others. -/
def Like (look : Kind → Kind → Prop) (rest : List Token) (t : Token) : Prop :=
  ∃ t₀, rest.head? = some t₀ ∧ look t₀.kind t.kind

/-- A result carries over to changed tokens with others behind them. -/
def Carries (φ : Token → Token) (look : Kind → Kind → Prop) (f : α → β) (r' : Reader β)
    (u rest : List Token) (a : α) : Prop :=
  ∀ t rest' errors, Like look rest t →
    r' ⟨u.map φ ++ t :: rest', errors⟩ = .ok (f a) ⟨t :: rest', errors⟩

variable {φ : Token → Token} {look look' : Kind → Kind → Prop} {s : Cursor} {m n : Bool}
  {r : Reader α} {P P' : List Token → List Token → α → Prop}

/-! ## What a contract says besides -/

/-- What is read stands in front of what is left. -/
theorem ReadsAt.read_eq (h : ReadsAt s m r P) :
    ReadsAt s m r (fun u rest a => P u rest a ∧ s.rest = u ++ rest ∧ (m = true → u ≠ [])) := by
  unfold ReadsAt at h ⊢
  split at h
  · obtain ⟨read, found, hreach, hne, hp⟩ := h
    exact ⟨read, found, hreach, hne, fun hf => ⟨hp hf, hreach.rest_eq, hne⟩⟩
  · exact h
  · exact h

/-- Two contracts of one reader hold together. -/
theorem Reads.and (h : Reads m r P) (h' : Reads n r P') :
    Reads m r (fun u rest a => P u rest a ∧ P' u rest a) := by
  intro s hs
  have h₁ := h s hs
  have h₂ := h' s hs
  unfold ReadsAt at h₁ h₂ ⊢
  split at h₁
  · rename_i a s' heq
    rw [heq] at h₂
    obtain ⟨u, found, hreach, hne, hp⟩ := h₁
    obtain ⟨u', found', hreach', _, hp'⟩ := h₂
    have hu : u' = u := List.append_cancel_right (hreach'.rest_eq.symm.trans hreach.rest_eq)
    have hfound : found' = found :=
      List.append_cancel_left (hreach'.errors_eq.symm.trans hreach.errors_eq)
    subst hu hfound
    exact ⟨u', found', hreach, hne, fun hf => ⟨hp hf, hp' hf⟩⟩
  · exact h₁
  · exact h₁

/-- Telling no kinds apart. -/
def AllAlike (_ _ : Kind) : Prop := True

/-- Telling whether a kind is that of an `else`. -/
def TellsElse (k k' : Kind) : Prop := k = .elseWord ↔ k' = .elseWord

theorem AllAlike.refl (k : Kind) : AllAlike k k := trivial

theorem TellsElse.refl (k : Kind) : TellsElse k k := Iff.rfl

/-- A reader whose results carry over to itself. -/
abbrev Local (φ : Token → Token) (m : Bool) (look : Kind → Kind → Prop) (f : α → α)
    (r : Reader α) : Prop := Reads m r (Carries φ look f r)

/-! ## Composition -/

theorem Reads.weaken (h : Reads m r P) : Reads false r P :=
  fun s hs => (h s hs).loosen

section
variable {f : α → β} {g : γ → δ} {r' : Reader β}

/-- A result carries over with what is read next between what was read and what is left. -/
theorem Carries.before {u v rest : List Token} {a : α} {t : Token}
    (hφ : ∀ t, (φ t).kind = t.kind) (hlook : ∀ k, look k k)
    (hu : Carries φ look f r' u (v ++ rest) a)
    (hv : v ≠ [] ∨ Like look rest t)
    (rest' : List Token) (errors : List SyntaxError) :
    r' ⟨u.map φ ++ (v.map φ ++ t :: rest'), errors⟩ =
      .ok (f a) ⟨v.map φ ++ t :: rest', errors⟩ := by
  cases v with
  | nil =>
    rcases hv with hv | hv
    · exact absurd rfl hv
    · exact hu t rest' errors hv
  | cons t₁ v =>
    refine hu (φ t₁) (v.map φ ++ t :: rest') errors ⟨t₁, rfl, ?_⟩
    rw [hφ]
    exact hlook t₁.kind

/-- One reader behind another.  Either the second reads a token, so that the first looks no further
than to that, or it looks at what the first looks at. -/
theorem Reads.carries_bind (hφ : ∀ t, (φ t).kind = t.kind) (hlook : ∀ k, look k k)
    {q : α → Reader γ} {q' : β → Reader δ} (hr : Reads m r (Carries φ look f r'))
    (hq : ∀ a, Reads n (q a) (Carries φ look' g (q' (f a))))
    (hn : n = true ∨ ∀ k k', look' k k' → look k k') :
    Reads (m || n) (r >>= q) (Carries φ look' g (r' >>= q')) := by
  refine hr.bind fun a s hs => ((hq a s hs).read_eq).imp ?_
  rintro v rest c ⟨hv, -, hne⟩ u hu t rest' errors ht
  have hfirst := hu.before (t := t) hφ hlook
    (hn.imp hne fun hn => ht.imp fun _ h => ⟨h.1, hn _ _ h.2⟩) rest' errors
  rw [List.map_append, List.append_assoc, EStateM.bind_ok hfirst]
  exact hv t rest' errors ht

/-- One reader behind another that looks at what the first looks at. -/
theorem Reads.carries_andThen (hφ : ∀ t, (φ t).kind = t.kind) (hlook : ∀ k, look k k)
    {q : α → Reader γ} {q' : β → Reader δ} (hr : Reads m r (Carries φ look f r'))
    (hq : ∀ a, Reads n (q a) (Carries φ look g (q' (f a)))) :
    Reads (m || n) (r >>= q) (Carries φ look g (r' >>= q')) :=
  hr.carries_bind hφ hlook hq (.inr fun _ _ h => h)

/-- One reader behind another that reads a token. -/
theorem Reads.carries_before (hφ : ∀ t, (φ t).kind = t.kind) (hlook : ∀ k, look k k)
    {q : α → Reader γ} {q' : β → Reader δ} (hr : Reads m r (Carries φ look f r'))
    (hq : ∀ a, Reads true (q a) (Carries φ look' g (q' (f a)))) :
    Reads (m || true) (r >>= q) (Carries φ look' g (r' >>= q')) :=
  hr.carries_bind hφ hlook hq (.inl rfl)

/-- One reader behind another that does not look at what follows. -/
theorem Reads.carries_freely (hφ : ∀ t, (φ t).kind = t.kind)
    {q : α → Reader γ} {q' : β → Reader δ} (hr : Reads m r (Carries φ AllAlike f r'))
    (hq : ∀ a, Reads n (q a) (Carries φ look g (q' (f a)))) :
    Reads (m || n) (r >>= q) (Carries φ look g (r' >>= q')) :=
  hr.carries_bind hφ AllAlike.refl hq (.inr fun _ _ _ => trivial)

theorem reads_pure_carries (a : α) :
    Reads false (pure a) (Carries φ look f (pure (f a))) :=
  .pure fun _ _ _ _ _ => rfl

/-- A reader that does not look at what follows. -/
theorem Carries.ofAllAlike {u rest : List Token} {a : α} (h : Carries φ AllAlike f r' u rest a) :
    Carries φ look f r' u rest a :=
  fun t rest' errors ht => h t rest' errors (ht.imp fun _ h => ⟨h.1, trivial⟩)

theorem Carries.mapSome {u rest : List Token} {a : α} (h : Carries φ look f r' u rest a) :
    Carries φ look (Option.map f) (some <$> r') u rest (some a) := by
  intro t rest' errors ht
  rw [map_eq_pure_bind, EStateM.bind_ok (h t rest' errors ht)]
  rfl

/-- A reader that always has a result. -/
theorem ReadsAt.mapSome_carries (hr : ReadsAt s m r (Carries φ look f r')) :
    ReadsAt s m (some <$> r) (fun u rest o => ∃ a, o = some a ∧
      Carries φ look (Option.map f) (some <$> r') u rest o) := by
  refine hr.map.imp ?_
  rintro u rest _ ⟨a, rfl, ha⟩
  exact ⟨a, rfl, ha.mapSome⟩

theorem Reads.mapSome_carries (hr : Reads m r (Carries φ look f r')) :
    Reads m (some <$> r) (Carries φ look (Option.map f) (some <$> r')) := by
  intro s hs
  refine (hr s hs).mapSome_carries.imp ?_
  rintro u rest o ⟨_, _, h⟩
  exact h

/-- A reader that drops the token it has looked at, if what it does with the changed token is what
the reader behind it does. -/
theorem Carries.skip {t : Token} {q' : Reader δ} {r' : Reader δ} {v rest : List Token} {c : γ}
    (hstep : ∀ rest errors, r' ⟨φ t :: rest, errors⟩ = q' ⟨rest, errors⟩)
    (h : Carries φ look g q' v rest c) : Carries φ look g r' (t :: v) rest c := by
  intro t' rest' errors ht
  rw [List.map_cons, List.cons_append, hstep]
  exact h t' rest' errors ht

/-- A reader that does with the first token what another one does. -/
theorem Carries.stay {t : Token} {q' : Reader δ} {r' : Reader δ} {u rest rest₀ : List Token}
    {c : γ} (hstep : ∀ rest errors, r' ⟨φ t :: rest, errors⟩ = q' ⟨φ t :: rest, errors⟩)
    (hu : u ≠ []) (hrest : t :: rest₀ = u ++ rest) (h : Carries φ look g q' u rest c) :
    Carries φ look g r' u rest c := by
  intro t' rest' errors ht
  cases u with
  | nil => exact absurd rfl hu
  | cons t₁ u =>
    obtain ⟨rfl, _⟩ := List.cons.inj hrest
    have hrun := h t' rest' errors ht
    rw [List.map_cons, List.cons_append] at hrun ⊢
    rw [hstep]
    exact hrun

end

/-! ## Steps -/

/-- Taking a token of some kinds looks at whether the next token is of them. -/
theorem reads_accept?_carries {wanted : Kind → Bool} (hend : wanted .eof = false)
    (hlook : ∀ k k', look k k' → wanted k = wanted k') (hφ : ∀ t, (φ t).kind = t.kind) :
    Reads false (accept? wanted) (Carries φ look (Option.map φ) (accept? wanted)) := by
  intro s hs
  rw [← bind_pure (accept? wanted)]
  refine .accept?_bind (n := false) hs hend ?_ ?_
  · intro t s' hrest hs' hw
    refine .pure fun t' rest' errors _ => ?_
    rw [bind_pure]
    exact accept?_of_wanted (by rw [hφ]; exact hw)
  · intro hw
    refine .pure fun t' rest' errors ht => ?_
    rw [bind_pure]
    obtain ⟨t₀, ht₀, hlike⟩ := ht
    exact accept?_of_unwanted ((hlook _ _ hlike).symm.trans (hw t₀ ht₀))

theorem skipped_of_eq {kind : Kind} {t : Token} (h : t.kind = kind) (rest : List Token)
    (errors : List SyntaxError) : skipped kind ⟨t :: rest, errors⟩ = .ok true ⟨rest, errors⟩ := by
  rw [skipped, EStateM.bind_ok (accept?_of_wanted (decide_eq_true h))]
  rfl

theorem skipped_of_ne {kind : Kind} {t : Token} (h : t.kind ≠ kind) (rest : List Token)
    (errors : List SyntaxError) :
    skipped kind ⟨t :: rest, errors⟩ = .ok false ⟨t :: rest, errors⟩ := by
  rw [skipped, EStateM.bind_ok (accept?_of_unwanted (decide_eq_false h))]
  rfl

theorem expect_of_eq {kind : Kind} {t : Token} (h : t.kind = kind) (what : Expectation)
    (rest : List Token) (errors : List SyntaxError) :
    expect kind what ⟨t :: rest, errors⟩ = .ok t ⟨rest, errors⟩ := by
  rw [expect, EStateM.bind_ok (accept?_of_wanted (decide_eq_true h))]
  rfl

theorem expect_of_ne {kind : Kind} {t : Token} (h : t.kind ≠ kind) (what : Expectation)
    (rest : List Token) (errors : List SyntaxError) :
    expect kind what ⟨t :: rest, errors⟩ = (fail what : Reader Token) ⟨t :: rest, errors⟩ := by
  rw [expect, EStateM.bind_ok (accept?_of_unwanted (decide_eq_false h))]

theorem reads_skipped_carries {kind : Kind} (hend : kind ≠ .eof)
    (hlook : ∀ k k', look k k' → (k = kind ↔ k' = kind)) (hφ : ∀ t, (φ t).kind = t.kind) :
    Reads false (skipped kind) (Carries φ look id (skipped kind)) := by
  have haccept : Reads false (accept? (· = kind))
      (Carries φ look (Option.map φ) (accept? (· = kind))) :=
    reads_accept?_carries (by simpa using Ne.symm hend)
      (fun k k' hk => decide_eq_decide.mpr (hlook k k' hk)) hφ
  intro s hs
  refine (haccept s hs).bind (n := false) fun o s' u _ _ _ => .pure fun ho => ?_
  intro t rest' errors ht
  rw [List.append_nil, skipped, EStateM.bind_ok (ho t rest' errors ht)]
  cases o <;> rfl

theorem reads_sees_carries {kind : Kind} (hlook : ∀ k k', look k k' → (k = kind ↔ k' = kind)) :
    Reads false (sees kind) (Carries φ look id (sees kind)) := by
  intro s hs
  rw [← bind_pure (sees kind)]
  refine .sees_bind hs fun t₀ ht₀ => .pure fun t rest' errors ht => ?_
  obtain ⟨t₁, ht₁, hlike⟩ := ht
  obtain rfl : t₀ = t₁ := Option.some.inj (ht₀.symm.trans ht₁)
  rw [bind_pure, List.map_nil, List.nil_append]
  show EStateM.Result.ok (decide (t.kind = kind)) _ = _
  rw [decide_eq_decide.mpr (hlook _ _ hlike)]
  rfl

/-- Taking a token that has to be there looks no further. -/
theorem reads_expect_carries (hφ : ∀ t, (φ t).kind = t.kind) (kind : Kind) (what : Expectation)
    (hend : kind ≠ .eof) : Reads true (expect kind what) (Carries φ look φ (expect kind what)) := by
  refine (reads_expect kind what hend).imp ?_
  rintro u rest t ⟨rfl, hk⟩ t' rest' errors _
  exact expect_of_eq ((hφ t).trans hk) _ _ _

/-- Taking a token that has to be there, and going on. -/
theorem reads_expect_then_carries {q : Token → Reader γ} {q' : Token → Reader δ} {g : γ → δ}
    (hφ : ∀ t, (φ t).kind = t.kind) {kind : Kind} {what : Expectation} (hend : kind ≠ .eof)
    (hq : ∀ t, Reads n (q t) (Carries φ look g (q' (φ t)))) :
    Reads true (expect kind what >>= q) (Carries φ look g (expect kind what >>= q')) :=
  (reads_expect_carries hφ kind what hend).carries_freely hφ hq

/-! ## Repetition

A loop counts its turns by the tokens that are left, and these are not the same where the changed
tokens are read.  What a loop yields does not depend on its turns as long as they suffice. -/

section
variable {f : α → β} {g : γ → δ} {r' : Reader β} {q q' : List Token → Reader δ}
  {u v rest : List Token} {a : α} {c : γ}

/-- A result carries over to a loop, as long as the loop is given enough turns. -/
def CarriesTurns (φ : Token → Token) (look : Kind → Kind → Prop) (g : γ → δ)
    (q : List Token → Reader δ) (u rest : List Token) (c : γ) : Prop :=
  ∀ t rest' errors turns, Like look rest t → (u.map φ ++ t :: rest').length ≤ turns.length →
    q turns ⟨u.map φ ++ t :: rest', errors⟩ = .ok (g c) ⟨t :: rest', errors⟩

namespace CarriesTurns

/-- A turn that reads `v` and ends the loop. -/
theorem last
    (hstep : ∀ t rest' errors turn turns, Like look rest t →
      q (turn :: turns) ⟨v.map φ ++ t :: rest', errors⟩ = .ok (g c) ⟨t :: rest', errors⟩) :
    CarriesTurns φ look g q v rest c := by
  intro t rest' errors turns ht hturns
  cases turns with
  | nil => simp at hturns
  | cons turn turns => exact hstep t rest' errors turn turns ht

/-- A turn that reads `v` and goes on. -/
theorem turn (hv : v ≠ [])
    (hstep : ∀ t rest' errors turn turns, Like look rest t →
      q (turn :: turns) ⟨v.map φ ++ (u.map φ ++ t :: rest'), errors⟩ =
        q' turns ⟨u.map φ ++ t :: rest', errors⟩)
    (h : CarriesTurns φ look g q' u rest c) : CarriesTurns φ look g q (v ++ u) rest c := by
  intro t rest' errors turns ht hturns
  rw [List.map_append, List.append_assoc] at hturns ⊢
  cases turns with
  | nil => simp at hturns
  | cons turn turns =>
    rw [hstep t rest' errors turn turns ht]
    refine h t rest' errors turns ht ?_
    have hlen := List.length_pos_iff.mpr hv
    rw [List.length_append, List.length_map, List.length_cons] at hturns
    omega

/-- A loop that is given as many turns as there are tokens. -/
theorem carries (h : CarriesTurns φ look g q u rest c) :
    Carries φ look g (upcoming >>= q) u rest c :=
  fun t rest' errors ht => h t rest' errors _ ht (Nat.le_refl _)

/-- A loop that is given as many turns as there are tokens, and begins with what a reader reads. -/
theorem carries_behind {q : List Token → β → Reader δ} (hφ : ∀ t, (φ t).kind = t.kind)
    (hlook : ∀ k, look k k) (hu : Carries φ look f r' u (v ++ rest) a)
    (h : CarriesTurns φ look g (fun turns => q turns (f a)) v rest c) :
    Carries φ look g (do q (← upcoming) (← r')) (u ++ v) rest c := by
  intro t rest' errors ht
  have hfirst := hu.before (t := t) hφ hlook (.inr ht) rest' errors
  rw [List.map_append, List.append_assoc]
  show (r' >>= fun b => q _ b) _ = _
  rw [EStateM.bind_ok hfirst]
  exact h t rest' errors _ ht (List.suffix_append _ _).length_le

end CarriesTurns

/-- A loop that groups to the left, where changing tokens and joining operands may change places. -/
theorem reads_leftChain_carries {ops : Kind → Bool} {join : α → Token → α → α}
    {join' : β → Token → β → β} {operand : Reader α} {operand' : Reader β}
    (hφ : ∀ t, (φ t).kind = t.kind) (hend : ops .eof = false)
    (hjoin : ∀ a t b, join' (f a) (φ t) (f b) = f (join a t b))
    (hoperand : Reads m operand (Carries φ Eq f operand')) :
    Reads m (leftChain ops join operand) (Carries φ Eq f (leftChain ops join' operand')) := by
  have more : ∀ turns left s, HasEnd s.rest → s.rest.length ≤ turns.length →
      ReadsAt s false (leftChain.more ops join operand turns left)
        (CarriesTurns φ Eq f fun turns => leftChain.more ops join' operand' turns (f left)) := by
    refine readsAt_turns fun _ turns left s hs hgo => ?_
    refine .accept?_bind (n := false) hs hend ?_ ?_
    · intro op s' hrest hs' hop
      refine ((hoperand s' hs').bind (n := false) fun b s'' v _ hreach _ => ?_).loosen
      refine (hgo (join left op b) s'' (hreach.hasEnd hs') (hreach.length_lt_of_cons hrest)).imp
        fun w rest a hw hv => ?_
      refine .turn (v := op :: v) (List.cons_ne_nil op v) (fun t rest' errors _ turns ht => ?_) hw
      have hop' : ops (φ op).kind = true := by rw [hφ]; exact hop
      have hb := hv.before (t := t) hφ (fun _ => rfl) (.inr ht) rest' errors
      rw [List.map_cons, List.cons_append, leftChain.more,
        EStateM.bind_ok (accept?_of_wanted hop')]
      show (operand' >>= fun b => leftChain.more ops join' operand' turns
        (join' (f left) (φ op) b)) _ = _
      rw [EStateM.bind_ok hb, hjoin]
    · intro hop
      refine .pure (.last fun t rest' errors _ turns ht => ?_)
      obtain ⟨t₀, ht₀, hlike⟩ := ht
      have hop' : ops t.kind = false := by rw [← hlike]; exact hop t₀ ht₀
      rw [List.map_nil, List.nil_append, leftChain.more,
        EStateM.bind_ok (accept?_of_unwanted hop')]
      rfl
  intro s hs
  refine .upcoming_bind ?_
  refine ((hoperand s hs).bind (n := false) fun a s' u _ hreach _ => ?_).weaken
    (fun hm => by simpa using hm) fun _ _ _ h => h
  exact (more s.rest a s' (hreach.hasEnd hs) hreach.length_le).imp
    fun v rest b hv hu => hv.carries_behind hφ (fun _ => rfl) hu

/-- A loop over items with commas between them. -/
theorem reads_commaSeparated_carries {excess : SyntaxFault} {item : Reader α} {item' : Reader β}
    (hφ : ∀ t, (φ t).kind = t.kind) (hitem : Reads m item (Carries φ Eq f item')) :
    Reads false (commaSeparated excess item)
      (Carries φ Eq (List.map f) (commaSeparated excess item')) := by
  have more : ∀ turns (b : Nat × List α) s, HasEnd s.rest → s.rest.length ≤ turns.length →
      ReadsAt s false (commaSeparated.more excess item turns b.1 b.2)
        (CarriesTurns φ Eq (List.map f) fun turns =>
          commaSeparated.more excess item' turns b.1 (b.2.map f)) := by
    refine readsAt_turns ?_
    rintro turn turns ⟨count, items⟩ s hs hgo
    -- what a turn does behind the test of the count, which an error-free run passes
    have hstep (hcount : ¬ maxItems ≤ count) : ∀ turn turns,
        commaSeparated.more excess item' (turn :: turns) count (items.map f) =
          (item' >>= fun b => skipped .comma >>= fun go =>
            if go then commaSeparated.more excess item' turns (count + 1) (b :: items.map f)
            else pure (b :: items.map f).reverse) := by
      intro turn turns
      rw [commaSeparated.more, if_neg hcount]
    have body : ∀ s', HasEnd s'.rest → s'.rest.length ≤ s.rest.length →
        ReadsAt s' false (do
            let items := (← item) :: items
            if ← skipped .comma then commaSeparated.more excess item turns (count + 1) items
            else return items.reverse)
          (fun u rest all => ¬ maxItems ≤ count → CarriesTurns φ Eq (List.map f) (fun turns =>
            commaSeparated.more excess item' turns count (items.map f)) u rest all) := by
      intro s' hs' hle
      refine ((hitem s' hs').bind (n := false) fun a s'' v _ hreach _ => ?_).loosen
      refine .skipped_bind (n := false) (hreach.hasEnd hs') (by decide) ?_ ?_
      · intro comma s₃ hrest hs₃ hcomma
        have hless : s₃.rest.length < s.rest.length := by
          have := hreach.length_le
          rw [hrest, List.length_cons] at this
          omega
        refine (hgo (count + 1, a :: items) s₃ hs₃ hless).imp fun w rest all hw hv hcount => ?_
        rw [List.append_cons v comma w]
        refine .turn (by simp) (fun t rest' errors turn turns ht => ?_) hw
        have ha := hv.before (t := t) hφ (fun _ => rfl) (.inl (List.cons_ne_nil _ _)) rest' errors
        have hcomma' := skipped_of_eq ((hφ comma).trans hcomma) (w.map φ ++ t :: rest') errors
        rw [hstep hcount, List.map_append, List.append_assoc, List.map_singleton,
          List.singleton_append]
        rw [List.map_cons, List.cons_append] at ha
        rw [EStateM.bind_ok ha, EStateM.bind_ok hcomma', if_pos rfl]
        rfl
      · intro hnone
        refine .pure fun hv hcount => ?_
        rw [List.append_nil]
        refine .last fun t rest' errors turn turns ht => ?_
        have ha := hv t rest' errors ht
        obtain ⟨t₀, ht₀, hlike⟩ := ht
        have hnone' : t.kind ≠ .comma := by rw [← hlike]; exact hnone t₀ ht₀
        rw [hstep hcount, EStateM.bind_ok ha, EStateM.bind_ok (skipped_of_ne hnone' rest' errors),
          List.map_reverse]
        rfl
    show ReadsAt s false (commaSeparated.more excess item (turn :: turns) count items) _
    rw [commaSeparated.more]
    split
    · -- an item beyond the limit is an error, so there is nothing to show of it
      refine ((reads_peek s hs).bind (n := false) fun t s' u _ hreach _ => ?_)
      refine ((reads_record excess t s' (hreach.hasEnd hs)).bind (n := false)
        fun _ s'' u _ hreach' _ => ?_)
      exact (body s'' (hreach'.hasEnd (hreach.hasEnd hs))
        (Nat.le_trans hreach'.length_le hreach.length_le)).imp fun _ _ _ _ h => h.elim
    · rename_i hcount
      exact (body s hs (Nat.le_refl _)).imp fun _ _ _ h => h hcount
  intro s hs
  exact .upcoming_bind ((more s.rest (0, []) s hs (Nat.le_refl _)).imp fun _ _ _ h => h.carries)

/-- What a loop over items does behind the items `items` when it has read those that `all` has
besides: with changed tokens, and behind other items, it comes to the same place. -/
def GoesOn (φ : Token → Token) (look : Kind → Kind → Prop) (f : α → β) (done : Reader Bool)
    (stops : Kind → Bool) (item' : Reader (Option β)) (items : List α) (u rest : List Token)
    (all : List α) : Prop :=
  ∃ as, all = items.reverse ++ as ∧ (∀ t₀, rest.head? = some t₀ → stops t₀.kind = true) ∧
    ∀ t rest' errors turns' items', Like look rest t →
      (u.map φ ++ t :: rest').length ≤ turns'.length →
      ∃ turns'', (t :: rest').length ≤ turns''.length ∧
        manyUntil.more done item' turns' items' ⟨u.map φ ++ t :: rest', errors⟩ =
          manyUntil.more done item' turns'' ((as.map f).reverse ++ items') ⟨t :: rest', errors⟩

section
variable {done : Reader Bool} {stops : Kind → Bool} {item : Reader (Option α)}
  {item' : Reader (Option β)}

/-- A loop over items up to where `done` says so, which only asks for the kind of the next token,
goes on behind the items that it has read. -/
theorem readsAt_manyUntil_more (hφ : ∀ t, (φ t).kind = t.kind) (hlook : ∀ k, look k k)
    (hdone : ∀ t rest errors, done ⟨t :: rest, errors⟩ = .ok (stops t.kind) ⟨t :: rest, errors⟩)
    (hstops : stops .eof = true)
    (hitem : ∀ t rest errors, HasEnd (t :: rest) → t.kind ≠ .eof →
      ReadsAt ⟨t :: rest, errors⟩ true item (fun u rest o => ∃ a, o = some a ∧
        Carries φ look (Option.map f) item' u rest o)) :
    ∀ turns items s, HasEnd s.rest → s.rest.length ≤ turns.length →
      ReadsAt s false (manyUntil.more done item turns items)
        (GoesOn φ look f done stops item' items) := by
  refine readsAt_turns fun turn turns items s hs hgo => ?_
  obtain ⟨rest, errors⟩ := s
  obtain ⟨t₁, rest, rfl⟩ := hs.exists_cons
  unfold ReadsAt
  rw [manyUntil_more_cons, EStateM.bind_ok (hdone t₁ rest errors)]
  cases hstop : stops t₁.kind with
  | true =>
    rw [if_pos rfl]
    refine ⟨[], [], .refl _, fun h => absurd h Bool.false_ne_true, fun _ => ⟨[], by simp, ?_, ?_⟩⟩
    · intro t₀ ht₀
      obtain rfl : t₁ = t₀ := by simpa using ht₀
      exact hstop
    · intro t rest' errors' turns' items' _ hturns
      exact ⟨turns', hturns, rfl⟩
  | false =>
    -- an item is read, and the next turn goes on behind it, with changed tokens as without
    rw [if_neg Bool.false_ne_true]
    have hend : t₁.kind ≠ .eof := by
      intro he
      rw [he, hstops] at hstop
      cases hstop
    have hturn : ReadsAt ⟨t₁ :: rest, errors⟩ false
        (item >>= fun o => manyUntil.more done item turns (o.toList ++ items))
        (GoesOn φ look f done stops item' items) := by
      refine ((hitem t₁ rest errors hs hend).read_eq.bind (n := false)
        fun o s' u _ hreach hne => ?_).loosen
      have hless := hreach.length_lt (hne rfl)
      cases o with
      | none =>
        refine (hgo items s' (hreach.hasEnd hs) hless).imp ?_
        rintro v _ all _ ⟨⟨a', ha', _⟩, _⟩
        cases ha'
      | some a =>
        refine (hgo (a :: items) s' (hreach.hasEnd hs) hless).imp ?_
        rintro v rest₂ all ⟨as, rfl, hat, hgo'⟩ ⟨⟨_, _, hu⟩, hread, _⟩
        refine ⟨a :: as, by simp, hat, fun t rest' errors' turns' items' ht hturns => ?_⟩
        cases turns' with
        | nil => simp at hturns
        | cons turn' turns' =>
          cases u with
          | nil => exact absurd rfl (hne rfl)
          | cons t₂ u =>
            obtain ⟨rfl, _⟩ := List.cons.inj hread
            have ha := hu.before (t := t) hφ hlook (.inr ht) rest' errors'
            rw [List.map_append, List.append_assoc] at hturns ⊢
            obtain ⟨turns'', hlen'', heq⟩ := hgo' t rest' errors' turns' (f a :: items') ht (by
              simp only [List.length_append, List.length_cons, List.length_map] at hturns ⊢
              omega)
            refine ⟨turns'', hlen'', ?_⟩
            have hstop' : stops (φ t₁).kind = false := by rw [hφ]; exact hstop
            rw [List.map_cons, List.cons_append] at ha ⊢
            rw [manyUntil_more_cons, EStateM.bind_ok (hdone (φ t₁) _ _), hstop',
              if_neg Bool.false_ne_true, EStateM.bind_ok ha]
            show manyUntil.more done item' turns' (f a :: items') _ = _
            rw [heq]
            simp
    exact hturn

/-- Where the loop stops, it yields what it has. -/
theorem manyUntil_more_of_stops
    (hdone : ∀ t rest errors, done ⟨t :: rest, errors⟩ = .ok (stops t.kind) ⟨t :: rest, errors⟩)
    {t : Token} (ht : stops t.kind = true) {rest turns : List Token}
    (hturns : (t :: rest).length ≤ turns.length) (items : List β) (errors : List SyntaxError) :
    manyUntil.more done item' turns items ⟨t :: rest, errors⟩ =
      .ok items.reverse ⟨t :: rest, errors⟩ := by
  cases turns with
  | nil => simp at hturns
  | cons turn turns =>
    rw [manyUntil.more, EStateM.bind_ok (hdone t rest errors), ht]
    rfl

/-- A loop over items up to where `done` says so looks at no more than the next kind. -/
theorem reads_manyUntil_carries (hφ : ∀ t, (φ t).kind = t.kind) (hlook : ∀ k, look k k)
    (hdone : ∀ t rest errors, done ⟨t :: rest, errors⟩ = .ok (stops t.kind) ⟨t :: rest, errors⟩)
    (hstops : stops .eof = true)
    (hitem : ∀ t rest errors, HasEnd (t :: rest) → t.kind ≠ .eof →
      ReadsAt ⟨t :: rest, errors⟩ true item (fun u rest o => ∃ a, o = some a ∧
        Carries φ look (Option.map f) item' u rest o)) :
    Reads false (manyUntil done item) (Carries φ Eq (List.map f) (manyUntil done item')) := by
  intro s hs
  refine .upcoming_bind ((readsAt_manyUntil_more hφ hlook hdone hstops hitem s.rest [] s hs
    (Nat.le_refl _)).imp ?_)
  rintro u rest all ⟨as, rfl, hat, hgo⟩ t rest' errors ⟨t₀, ht₀, hkind⟩
  have hlike : Like look rest t := ⟨t₀, ht₀, hkind ▸ hlook t₀.kind⟩
  obtain ⟨turns, hturns, heq⟩ := hgo t rest' errors _ [] hlike (Nat.le_refl _)
  have hstop : stops t.kind = true := hkind ▸ hat t₀ ht₀
  show manyUntil.more done item' _ [] _ = _
  rw [heq, manyUntil_more_of_stops hdone hstop hturns]
  simp

end

/-! ## Recovery -/

/-- A reader with recovery carries over what the reader reads without errors. -/
theorem Carries.recover {r' : Reader β} {u rest : List Token} {a : α}
    (h : Carries φ look f r' u rest a) :
    Carries φ look (Option.map f) (Reader.recover r') u rest (some a) := by
  intro t rest' errors ht
  rw [Reader.recover, h t rest' errors ht]
  rfl

end

end Reader
end LoxLang
