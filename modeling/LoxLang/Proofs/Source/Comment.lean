import LoxLang.Proofs.Source.Joining

/-! # Block comments

A block comment is a text whose marks are balanced: the pairs `/*` and `*/`, taken from the left,
open and close, and whatever stands between the first and the last of them opens just what it
closes.  Looking for the end of a comment finds the comment with which a text begins
(`commentLength?_eq_some_iff`), and so finds none if the text begins with none. -/

namespace LoxLang
namespace Source

/-- What matters to the nesting of comments. -/
inductive Mark
  | opening
  | closing
  | other (c : Char)

/-- The characters of a mark. -/
def Mark.text : Mark → List Char
  | opening => ['/', '*']
  | closing => ['*', '/']
  | other c => [c]

/-- The marks of a text; the pairs that open and close are taken from the left. -/
def marksOf : List Char → List Mark
  | [] => []
  | '/' :: '*' :: rest => .opening :: marksOf rest
  | '*' :: '/' :: rest => .closing :: marksOf rest
  | c :: rest => .other c :: marksOf rest

/-- The characters of marks. -/
def textOf (ms : List Mark) : List Char := ms.flatMap Mark.text

/-- Marks that open just what they close. -/
inductive Balanced : List Mark → Prop
  | nil : Balanced []
  | other {ms : List Mark} (c : Char) (h : Balanced ms) : Balanced (.other c :: ms)
  | nested {inner ms : List Mark} (hinner : Balanced inner) (h : Balanced ms) :
      Balanced (.opening :: inner ++ .closing :: ms)

/-- A text is one closed block comment. -/
def IsBlockComment (text : List Char) : Prop :=
  ∃ inner, marksOf text = .opening :: inner ++ [.closing] ∧ Balanced inner

/-! ## Marks of texts -/

@[simp] theorem textOf_append (ms ms' : List Mark) : textOf (ms ++ ms') = textOf ms ++ textOf ms' :=
  List.flatMap_append

@[simp] theorem textOf_cons (m : Mark) (ms : List Mark) : textOf (m :: ms) = m.text ++ textOf ms :=
  List.flatMap_cons

/-- No character is lost among the marks. -/
theorem textOf_marksOf (text : List Char) : textOf (marksOf text) = text := by
  fun_induction marksOf text with
  | case1 => rfl
  | case2 rest ih | case3 rest ih => simp [Mark.text, ih]
  | case4 c rest _ _ ih => simp [Mark.text, ih]

/-- The marks of a text that ends with a closing one stay when more text follows. -/
theorem marksOf_append {text : List Char} {ms : List Mark} (h : marksOf text = ms ++ [.closing])
    (more : List Char) : marksOf (text ++ more) = marksOf text ++ marksOf more := by
  fun_induction marksOf text generalizing ms with
  | case1 => cases ms <;> cases h
  | case2 rest ih =>
    cases ms with
    | nil => cases h
    | cons m ms =>
      rw [List.cons_append, List.cons.injEq] at h
      simp [marksOf, ih h.2]
  | case3 rest ih =>
    cases ms with
    | nil =>
      have hrest : rest = [] := by
        rw [← textOf_marksOf rest, List.cons.inj h |>.2]
        rfl
      subst hrest
      simp [marksOf]
    | cons m ms =>
      rw [List.cons_append, List.cons.injEq] at h
      simp [marksOf, ih h.2]
  | case4 c rest hopen hclose ih =>
    cases ms with
    | nil => cases h
    | cons m ms =>
      rw [List.cons_append, List.cons.injEq] at h
      cases rest with
      | nil => cases ms <;> cases h.2
      | cons d rest =>
        -- the next two characters are those that they were, so they still open and close nothing
        rw [List.cons_append, List.cons_append, marksOf.eq_4 _ _ (no_pair_append hopen more)
          (no_pair_append hclose more), ← List.cons_append, ih h.2, List.cons_append]

/-- The first marks of a text are the marks of its beginning. -/
theorem marksOf_textOf {text : List Char} {ms ms' : List Mark} (h : marksOf text = ms ++ ms') :
    marksOf (textOf ms) = ms := by
  fun_induction marksOf text generalizing ms with
  | case1 =>
    obtain ⟨rfl, _⟩ := List.append_eq_nil_iff.mp h.symm
    rfl
  | case2 rest ih | case3 rest ih =>
    cases ms with
    | nil => rfl
    | cons m ms =>
      rw [List.cons_append, List.cons.injEq] at h
      obtain ⟨rfl, h⟩ := h
      simp [Mark.text, marksOf, ih h]
  | case4 c rest hopen hclose ih =>
    cases ms with
    | nil => rfl
    | cons m ms =>
      rw [List.cons_append, List.cons.injEq] at h
      obtain ⟨rfl, h⟩ := h
      have hrest : rest = textOf ms ++ textOf ms' := by
        rw [← textOf_marksOf rest, h, textOf_append]
      have hopen' : ∀ r, c = '/' → textOf ms = '*' :: r → False := fun r hc hr =>
        hopen (r ++ textOf ms') hc (by rw [hrest, hr, List.cons_append])
      have hclose' : ∀ r, c = '*' → textOf ms = '/' :: r → False := fun r hc hr =>
        hclose (r ++ textOf ms') hc (by rw [hrest, hr, List.cons_append])
      show marksOf (c :: textOf ms) = _
      rw [marksOf.eq_4 _ _ hopen' hclose', ih h]

/-- A block comment begins with an opening pair. -/
theorem IsBlockComment.exists_eq {text : List Char} (h : IsBlockComment text) :
    ∃ rest, text = '/' :: '*' :: rest := by
  obtain ⟨inner, hmarks, _⟩ := h
  refine ⟨textOf (inner ++ [.closing]), ?_⟩
  rw [← textOf_marksOf text, hmarks]
  rfl

/-! ## The end of a comment -/

/-- The number of characters up to the end of a comment, as marks show it. -/
def closeLength? (depth taken : Nat) : List Mark → Option Nat
  | [] => none
  | .opening :: ms => closeLength? (depth + 1) (taken + 2) ms
  | .closing :: ms =>
    match depth with
    | 0 => some (taken + 2)
    | depth + 1 => closeLength? depth (taken + 2) ms
  | .other _ :: ms => closeLength? depth (taken + 1) ms

theorem commentLength?_eq (depth taken : Nat) (text : List Char) :
    commentLength? depth taken text = closeLength? depth taken (marksOf text) := by
  fun_induction commentLength? depth taken text with
  | case1 => rfl
  | case2 depth taken rest ih => simpa [marksOf, closeLength?] using ih
  | case3 taken rest => simp [marksOf, closeLength?]
  | case4 taken rest depth ih => simpa [marksOf, closeLength?] using ih
  | case5 depth taken c rest hopen hclose ih =>
    rw [marksOf.eq_4 _ _ hopen hclose]
    simpa [closeLength?] using ih

/-- Marks that close what is open, `depth` comments inside another. -/
inductive Closes : Nat → List Mark → Prop
  | last {ms : List Mark} (h : Balanced ms) : Closes 0 (ms ++ [.closing])
  | outer {depth : Nat} {ms ms' : List Mark} (h : Balanced ms) (h' : Closes depth ms') :
      Closes (depth + 1) (ms ++ .closing :: ms')

theorem Closes.other {depth : Nat} {ms : List Mark} (h : Closes depth ms) (c : Char) :
    Closes depth (.other c :: ms) := by
  cases h with
  | last h => exact .last (h.other c)
  | outer h h' => exact .outer (h.other c) h'

/-- What is opened is closed first. -/
theorem Closes.opening {depth : Nat} {ms : List Mark} (h : Closes (depth + 1) ms) :
    Closes depth (.opening :: ms) := by
  cases h with
  | @outer _ inner _ hinner h' =>
    cases h' with
    | last h => simpa using Closes.last (hinner.nested h)
    | outer h h' => simpa using Closes.outer (hinner.nested h) h'

/-- The end that is found closes what is open. -/
theorem closes_of_closeLength? {depth taken length : Nat} {ms : List Mark}
    (h : closeLength? depth taken ms = some length) :
    ∃ closing rest, ms = closing ++ rest ∧ Closes depth closing ∧
      length = taken + (textOf closing).length := by
  fun_induction closeLength? depth taken ms with
  | case1 => cases h
  | case2 depth taken ms ih =>
    obtain ⟨closing, rest, rfl, hcloses, rfl⟩ := ih h
    refine ⟨.opening :: closing, rest, rfl, hcloses.opening, ?_⟩
    simp only [textOf_cons, Mark.text, List.length_append, List.length_cons, List.length_nil]
    omega
  | case3 taken ms =>
    cases h
    exact ⟨[.closing], ms, rfl, .last .nil, rfl⟩
  | case4 taken ms depth ih =>
    obtain ⟨closing, rest, rfl, hcloses, rfl⟩ := ih h
    refine ⟨.closing :: closing, rest, rfl, .outer .nil hcloses, ?_⟩
    simp only [textOf_cons, Mark.text, List.length_append, List.length_cons, List.length_nil]
    omega
  | case5 depth taken c ms ih =>
    obtain ⟨closing, rest, rfl, hcloses, rfl⟩ := ih h
    refine ⟨.other c :: closing, rest, rfl, hcloses.other c, ?_⟩
    simp only [textOf_cons, Mark.text, List.length_append, List.length_cons, List.length_nil]
    omega

/-- What opens just what it closes is passed over. -/
theorem Balanced.closeLength?_append {ms : List Mark} (h : Balanced ms) (depth taken : Nat)
    (rest : List Mark) :
    closeLength? depth taken (ms ++ rest) =
      closeLength? depth (taken + (textOf ms).length) rest := by
  induction h generalizing depth taken rest with
  | nil => rfl
  | other c h ih =>
    rw [List.cons_append, closeLength?, ih]
    simp [Mark.text, Nat.add_assoc, Nat.add_comm 1]
  | @nested inner ms hinner h ihinner ih =>
    have htext : (textOf (.opening :: inner ++ .closing :: ms)).length =
        2 + (textOf inner).length + 2 + (textOf ms).length := by
      simp only [List.cons_append, textOf_cons, textOf_append, Mark.text, List.length_append,
        List.length_cons, List.length_nil]
      omega
    have hmarks : Mark.opening :: inner ++ .closing :: ms ++ rest =
        .opening :: (inner ++ .closing :: (ms ++ rest)) := by simp
    rw [htext, hmarks, closeLength?, ihinner, closeLength?, ih]
    congr 1
    omega

/-- **The end of a comment is found where the comment ends.**  A text begins with a block comment
just if its end is found behind the opening pair. -/
theorem commentLength?_eq_some_iff {rest : List Char} {length : Nat} :
    commentLength? 0 1 rest = some length ↔
      ∃ text behind, '/' :: '*' :: rest = text ++ behind ∧ IsBlockComment text ∧
        text.length = length + 1 := by
  rw [commentLength?_eq]
  constructor
  · intro h
    obtain ⟨closing, rest', hmarks, hcloses, rfl⟩ := closes_of_closeLength? h
    have hrest : rest = textOf closing ++ textOf rest' := by
      rw [← textOf_marksOf rest, hmarks, textOf_append]
    cases hcloses with
    | @last inner hinner =>
      refine ⟨'/' :: '*' :: textOf (inner ++ [.closing]), textOf rest', by rw [hrest]; rfl,
        ⟨inner, ?_, hinner⟩, ?_⟩
      · rw [marksOf, marksOf_textOf hmarks]
        rfl
      · simp only [List.length_cons]
        omega
  · rintro ⟨text, behind, htext, ⟨inner, hmarks, hinner⟩, hlength⟩
    have happend : marksOf (text ++ behind) = marksOf text ++ marksOf behind :=
      marksOf_append hmarks behind
    rw [← htext, hmarks, marksOf] at happend
    have hrest : marksOf rest = inner ++ (.closing :: marksOf behind) := by
      simpa using happend
    have htaken : text.length = 2 + (textOf inner).length + 2 := by
      rw [← textOf_marksOf text, hmarks]
      have hnil : (textOf []).length = 0 := rfl
      simp only [List.cons_append, textOf_cons, textOf_append, Mark.text, List.length_append,
        List.length_cons, List.length_nil]
      omega
    rw [hrest, hinner.closeLength?_append, closeLength?, Option.some.injEq]
    omega

end Source
end LoxLang
