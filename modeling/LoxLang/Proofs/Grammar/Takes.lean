import LoxLang.Proofs.Grammar.Lookahead

/-! # Taking given tokens

`Takes ends r u a` says what a reader does where the tokens to come are known: standing before
the tokens `u` with a token behind them at which it `ends`, it reads `u`, all of it and nothing
more, yields `a` and takes down no error.  Here are the laws of it for the readers that repeat
others.  A loop is followed turn by turn: `Arrives` says that it has come to the end of `u` with an
item in hand, and may still go on. -/

namespace LoxLang
namespace Reader

variable {α β : Type}

/-- The reader reads just `u` before a token at which it ends, without an error. -/
def Takes (ends : Kind → Prop) (r : Reader α) (u : List Token) (a : α) : Prop :=
  ∀ t rest errors, ends t.kind → r ⟨u ++ t :: rest, errors⟩ = .ok a ⟨t :: rest, errors⟩

variable {ends ends' : Kind → Prop} {r : Reader α} {u v : List Token} {a : α}

theorem Takes.mono (h : Takes ends r u a) (hends : ∀ k, ends' k → ends k) : Takes ends' r u a :=
  fun t rest errors ht => h t rest errors (hends _ ht)

theorem Takes.map (h : Takes ends r u a) (f : α → β) : Takes ends (f <$> r) u (f a) := by
  intro t rest errors ht
  rw [map_eq_pure_bind, EStateM.bind_ok (h t rest errors ht)]
  rfl

/-- Recovery has nothing to do. -/
theorem Takes.recover (h : Takes ends r u a) : Takes ends (Reader.recover r) u (some a) := by
  intro t rest errors ht
  rw [Reader.recover, h t rest errors ht]

theorem sees_cons (kind : Kind) (t : Token) (rest : List Token) (errors : List SyntaxError) :
    sees kind ⟨t :: rest, errors⟩ = .ok (decide (t.kind = kind)) ⟨t :: rest, errors⟩ := rfl

theorem takes_expect {kind : Kind} {t : Token} (h : t.kind = kind) (what : Expectation) :
    Takes (fun _ => True) (expect kind what) [t] t :=
  fun t' rest errors _ => expect_of_eq h what (t' :: rest) errors

/-! ## Chains -/

/-- The reader comes to where it has read `u` and holds `a`, with turns enough for what is left;
from there it goes on as `more`. -/
def Arrives (ends : Kind → Prop) (r : Reader α) (more : List Token → α → Reader α)
    (u : List Token) (a : α) : Prop :=
  ∀ t rest errors, ends t.kind → ∃ turns, (t :: rest).length ≤ turns.length ∧
    r ⟨u ++ t :: rest, errors⟩ = more turns a ⟨t :: rest, errors⟩

/-- What a reader takes without a loop it has in hand at the end. -/
theorem Takes.arrives (h : Takes ends r u a) : Arrives ends r (fun _ a => pure a) u a :=
  fun t rest errors ht => ⟨t :: rest, Nat.le_refl _, h t rest errors ht⟩

theorem Arrives.takes (h : Arrives ends r (fun _ a => pure a) u a) : Takes ends r u a := by
  intro t rest errors ht
  obtain ⟨turns, _, heq⟩ := h t rest errors ht
  exact heq

theorem Arrives.mono {more : List Token → α → Reader α} (h : Arrives ends r more u a)
    (hends : ∀ k, ends' k → ends k) : Arrives ends' r more u a :=
  fun t rest errors ht => h t rest errors (hends _ ht)

section
variable {ops : Kind → Bool} {join : α → Token → α → α} {operand : Reader α}

/-- A chain begins with an operand. -/
theorem Takes.leftChain (h : Takes ends operand u a) :
    Arrives ends (leftChain ops join operand) (leftChain.more ops join operand) u a := by
  intro t rest errors ht
  refine ⟨u ++ t :: rest, by simp, ?_⟩
  show (operand >>= fun a => leftChain.more ops join operand _ a) _ = _
  rw [EStateM.bind_ok (h t rest errors ht)]

/-- A chain goes on with an operator and an operand. -/
theorem Arrives.next {op : Token} {b : α}
    (h : Arrives ends (Reader.leftChain ops join operand) (leftChain.more ops join operand) u a)
    (hend : ends op.kind) (hop : ops op.kind = true) (hb : Takes ends operand v b) :
    Arrives ends (Reader.leftChain ops join operand) (leftChain.more ops join operand)
      (u ++ op :: v) (join a op b) := by
  intro t rest errors ht
  obtain ⟨turns, hlen, heq⟩ := h op (v ++ t :: rest) errors hend
  cases turns with
  | nil => simp at hlen
  | cons turn turns =>
    refine ⟨turns, by simp at hlen ⊢; omega, ?_⟩
    rw [List.append_assoc, List.cons_append, heq, leftChain.more,
      EStateM.bind_ok (accept?_of_wanted hop)]
    show (operand >>= fun b => leftChain.more ops join operand turns (join a op b)) _ = _
    rw [EStateM.bind_ok (hb t rest errors ht)]

/-- A chain is over where no operator follows. -/
theorem Arrives.stop
    (h : Arrives ends (Reader.leftChain ops join operand) (leftChain.more ops join operand) u a)
    (hends : ∀ k, ends' k → ends k) (hops : ∀ k, ends' k → ops k = false) :
    Takes ends' (Reader.leftChain ops join operand) u a := by
  intro t rest errors ht
  obtain ⟨turns, hlen, heq⟩ := h t rest errors (hends _ ht)
  cases turns with
  | nil => simp at hlen
  | cons turn turns =>
    rw [heq, leftChain.more, EStateM.bind_ok (accept?_of_unwanted (hops _ ht))]
    rfl

end

/-! ## Items with commas between them -/

section
variable {excess : SyntaxFault} {item : Reader α}

/-- The loop over items with commas between them takes `u` as the items `as`, up to a closing
parenthesis, whatever items stand before, if they are not too many together. -/
def Separates (excess : SyntaxFault) (item : Reader α) (u : List Token) (as : List α) : Prop :=
  ∀ turns count items t rest errors, count + as.length ≤ maxItems → t.kind = .rightParen →
    (u ++ t :: rest).length ≤ turns.length →
    commaSeparated.more excess item turns count items ⟨u ++ t :: rest, errors⟩ =
      .ok (items.reverse ++ as) ⟨t :: rest, errors⟩

/-- A turn of the loop within the limit. -/
theorem commaSeparated_more_cons {count : Nat} (hcount : count < maxItems) (turn : Token)
    (turns : List Token) (items : List α) :
    commaSeparated.more excess item (turn :: turns) count items =
      item >>= fun a => skipped .comma >>= fun b =>
        if b then commaSeparated.more excess item turns (count + 1) (a :: items)
        else pure (a :: items).reverse := by
  rw [commaSeparated.more, if_neg (by omega)]

theorem Takes.separates (h : Takes (fun k => k = .comma ∨ k = .rightParen) item u a) :
    Separates excess item u [a] := by
  intro turns count items t rest errors hcount ht hlen
  cases turns with
  | nil => simp at hlen
  | cons turn turns =>
    have hne : t.kind ≠ .comma := by simp [ht]
    rw [List.length_singleton] at hcount
    rw [commaSeparated_more_cons (by omega),
      EStateM.bind_ok (h t rest errors (.inr ht)), EStateM.bind_ok (skipped_of_ne hne rest errors)]
    simp

theorem Takes.separates_cons {comma : Token} {as : List α}
    (h : Takes (fun k => k = .comma ∨ k = .rightParen) item u a) (hcomma : comma.kind = .comma)
    (has : Separates excess item v as) : Separates excess item (u ++ comma :: v) (a :: as) := by
  intro turns count items t rest errors hcount ht hlen
  rw [List.length_cons] at hcount
  cases turns with
  | nil => simp at hlen
  | cons turn turns =>
    rw [List.append_assoc, List.cons_append, commaSeparated_more_cons (by omega),
      EStateM.bind_ok (h comma _ errors (.inl hcomma)),
      EStateM.bind_ok (skipped_of_eq hcomma _ errors), if_pos rfl,
      has turns (count + 1) (a :: items) t rest errors (by omega) ht]
    · simp
    · simp only [List.length_append, List.length_cons] at hlen ⊢
      omega

theorem Separates.takes {as : List α} (h : Separates excess item u as)
    (hcount : as.length ≤ maxItems) :
    Takes (· = .rightParen) (commaSeparated excess item) u as := by
  intro t rest errors ht
  exact h (u ++ t :: rest) 0 [] t rest errors (by omega) ht (Nat.le_refl _)

end

/-! ## Items up to a token that stops them -/

section
variable {done : Reader Bool} {stops : Kind → Bool} {item : Reader (Option α)}

/-- The loop over items takes `u` as the items `as`, up to a token that stops it, whatever items
stand before. -/
def Collects (done : Reader Bool) (stops : Kind → Bool) (item : Reader (Option α))
    (u : List Token) (as : List α) : Prop :=
  ∀ turns items t rest errors, stops t.kind = true → (u ++ t :: rest).length ≤ turns.length →
    manyUntil.more done item turns items ⟨u ++ t :: rest, errors⟩ =
      .ok (items.reverse ++ as) ⟨t :: rest, errors⟩

variable (hdone : ∀ t rest errors, done ⟨t :: rest, errors⟩ = .ok (stops t.kind) ⟨t :: rest, errors⟩)

include hdone

theorem collects_nil : Collects done stops item [] [] := by
  intro turns items t rest errors ht hlen
  rw [List.append_nil]
  exact manyUntil_more_of_stops hdone ht hlen items errors

/-- An item that does not begin where the loop stops stands before others if it ends where they
begin. -/
theorem Takes.collects_cons {t₀ : Token} {as : List α} (h : Takes ends item (t₀ :: u) (some a))
    (hgoes : stops t₀.kind = false) (hends : ∀ k, stops k = true → ends k)
    (hv : ∀ t, v.head? = some t → ends t.kind) (has : Collects done stops item v as) :
    Collects done stops item (t₀ :: u ++ v) (a :: as) := by
  intro turns items t rest errors ht hlen
  cases turns with
  | nil => simp at hlen
  | cons turn turns =>
    have hitem : item ⟨t₀ :: u ++ (v ++ t :: rest), errors⟩ =
        .ok (some a) ⟨v ++ t :: rest, errors⟩ := by
      cases v with
      | nil => exact h t rest errors (hends _ ht)
      | cons t' v => exact h t' _ errors (hv t' rfl)
    rw [List.append_assoc, manyUntil_more_cons, List.cons_append,
      EStateM.bind_ok (hdone t₀ _ errors), hgoes, if_neg Bool.false_ne_true]
    rw [List.cons_append] at hitem
    rw [EStateM.bind_ok hitem, has turns _ t rest errors ht]
    · simp
    · simp only [List.length_append, List.length_cons] at hlen ⊢
      omega

omit hdone in
theorem Collects.takes {as : List α} (h : Collects done stops item u as) :
    Takes (fun k => stops k = true) (manyUntil done item) u as :=
  fun t rest errors ht => h (u ++ t :: rest) [] t rest errors ht (Nat.le_refl _)

end

end Reader
end LoxLang
