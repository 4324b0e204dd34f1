import LoxLang.Decimal.Numeral
import Mathlib.Data.List.TakeWhile

/-! # The characters of numerals

The numeral of a finite number is made of digits, points, signs and the letter of an exponent, and
behind its sign it begins with a digit (`numeral_characters`).  What has to be seen for that is that
there are digits at all: zeros at the end of a coefficient are dropped, which would leave none of a
coefficient that is zero.  But the decimals that read as a number other than zero do not reach down
to zero. -/

namespace LoxLang

/-- The characters that numerals have. -/
def isNumeralChar (c : Char) : Bool := c.isDigit || c ∈ ['.', 'e', '+', '-']

theorem isNumeralChar_of_isDigit {c : Char} (h : c.isDigit) : isNumeralChar c := by
  rw [isNumeralChar, h]
  rfl

/-- A digit, and behind it characters of numerals. -/
def IsMagnitude (text : List Char) : Prop :=
  ∃ c rest, text = c :: rest ∧ c.isDigit ∧ ∀ d ∈ rest, isNumeralChar d

theorem IsMagnitude.append {text more : List Char} (h : IsMagnitude text)
    (hmore : ∀ d ∈ more, isNumeralChar d) : IsMagnitude (text ++ more) := by
  obtain ⟨c, rest, rfl, hc, hrest⟩ := h
  exact ⟨c, rest ++ more, rfl, hc, List.forall_mem_append.mpr ⟨hrest, hmore⟩⟩

/-- Digits are a magnitude, if there are any. -/
theorem isMagnitude_of_digits {ds : List Char} (h : ∀ d ∈ ds, d.isDigit) (hne : ds ≠ []) :
    IsMagnitude ds := by
  cases ds with
  | nil => exact absurd rfl hne
  | cons c ds =>
    rw [List.forall_mem_cons] at h
    exact ⟨c, ds, rfl, h.1, fun d hd => isNumeralChar_of_isDigit (h.2 d hd)⟩

namespace Decimal

/-! ## Coefficients -/

namespace Window

variable {significand n : Nat} {exponent grid : Int}

/-- Zero does not read as a number that is not zero. -/
theorem holds_zero (h : 0 < significand) : (of significand exponent grid).holds 0 = false := by
  have hlow : 0 < (of significand exponent grid).low := by
    refine Nat.mul_pos ?_ (Nat.mul_pos (Nat.pow_pos (by decide)) (Nat.pow_pos (by decide)))
    split <;> omega
  unfold holds
  rw [Nat.zero_mul, decide_eq_false (Nat.not_le.mpr hlow),
    decide_eq_false (Nat.not_lt.mpr (Nat.zero_le _))]
  simp

theorem pos_of_holds (h : 0 < significand) (hn : (of significand exponent grid).holds n = true) :
    0 < n := by
  rcases Nat.eq_zero_or_pos n with rfl | hpos
  · rw [holds_zero h] at hn
    cases hn
  · exact hpos

theorem pos_of_point? (h : 0 < significand)
    (hn : (of significand exponent grid).point? = some n) : 0 < n := by
  unfold point? at hn
  dsimp only at hn
  split at hn
  · cases hn
  · rename_i hbelow _
    cases hn
    exact pos_of_holds h hbelow
  · cases hn
    exact Nat.succ_pos _
  · rename_i hbelow _
    have hpos := pos_of_holds h hbelow
    split at hn
    · cases hn
      exact hpos
    split at hn
    · cases hn
      exact Nat.succ_pos _
    · cases hn
      exact Nat.add_pos_left hpos _

end Window

/-- A decimal that is found for a number other than zero is not zero. -/
theorem coefficient_pos_of_search {significand fuel : Nat} {exponent grid : Int} {d : Decimal}
    (h : 0 < significand) (hd : search significand exponent fuel grid = some d) :
    0 < d.coefficient := by
  induction fuel generalizing grid with
  | zero => cases hd
  | succ fuel ih =>
    rw [search] at hd
    split at hd
    · rename_i hpoint
      cases hd
      exact Window.pos_of_point? h hpoint
    · exact ih hd

/-- The shortest decimal of a number other than zero is not zero; if none were found, it would be a
zero without an exponent. -/
theorem shortest_cases {significand : Nat} (exponent : Int) (h : 0 < significand) :
    0 < (shortest significand exponent).coefficient ∨ shortest significand exponent = ⟨0, 0⟩ := by
  unfold shortest
  cases hd : search significand exponent 24 (coarsestGrid significand exponent) with
  | none => exact .inr rfl
  | some d => exact .inl (coefficient_pos_of_search h hd)

/-! ## Digits -/

theorem isDigit_of_mem_digits {d : Decimal} {c : Char} (h : c ∈ d.digits.1) : c.isDigit := by
  have hall : c ∈ Nat.toDigits 10 d.coefficient := by
    rw [digits, List.mem_reverse] at h
    exact List.mem_reverse.mp ((List.dropWhile_suffix _).subset h)
  exact Nat.isDigit_of_mem_toDigits (by decide) (by decide) hall

/-- Zeros write zero. -/
theorem ofDigitChars_zeros {cs : List Char} (h : ∀ c ∈ cs, c = '0') :
    Nat.ofDigitChars 10 cs 0 = 0 := by
  induction cs with
  | nil => rfl
  | cons c cs ih =>
    rw [List.forall_mem_cons] at h
    obtain ⟨rfl, h⟩ := h
    exact ih h

/-- A coefficient that is not zero has digits besides the zeros at its end. -/
theorem digits_ne_nil {d : Decimal} (h : 0 < d.coefficient) : d.digits.1 ≠ [] := by
  intro hnil
  rw [digits, List.reverse_eq_nil_iff] at hnil
  have hzeros : ∀ c ∈ Nat.toDigits 10 d.coefficient, c = '0' := by
    simpa using List.dropWhile_eq_nil_iff.mp hnil
  have hread : Nat.ofDigitChars 10 (Nat.toDigits 10 d.coefficient) 0 = d.coefficient :=
    Nat.ofDigitChars_toDigits (by decide) (by decide)
  rw [ofDigitChars_zeros hzeros] at hread
  omega

/-! ## Layout -/

theorem isNumeralChar_of_mem_exponentText {e : Int} {c : Char} (h : c ∈ (exponentText e).toList) :
    isNumeralChar c := by
  have hdigits : ∀ d ∈ Nat.toDigits 10 e.natAbs, isNumeralChar d := fun d hd =>
    isNumeralChar_of_isDigit (Nat.isDigit_of_mem_toDigits (by decide) (by decide) hd)
  rw [exponentText, String.toList_append, List.mem_append, String.toList_ofList] at h
  rcases h with h | h
  · have hmark : ∀ d ∈ (if e < 0 then "e-" else "e+").toList, isNumeralChar d := by
      rw [← List.all_eq_true]
      split <;> rfl
    exact hmark c h
  · split at h
    · rcases List.mem_cons.mp h with rfl | h
      · rfl
      · exact hdigits c h
    · exact hdigits c h

theorem isNumeralChar_replicate {n : Nat} {c : Char} (h : c ∈ List.replicate n '0') :
    isNumeralChar c := by
  rw [List.eq_of_mem_replicate h]
  rfl

/-- Digits are laid out as a magnitude.  If there are none, the number has to be of a size at which
zeros stand in their places. -/
theorem isMagnitude_layOut {ds : List Char} {lead : Int} (h : ∀ d ∈ ds, d.isDigit)
    (hne : ds ≠ [] ∨ lead = 0) : IsMagnitude (layOut .display ds lead).toList := by
  have hnumeral : ∀ d ∈ ds, isNumeralChar d := fun d hd => isNumeralChar_of_isDigit (h d hd)
  have hzero : IsMagnitude ['0'] := ⟨'0', [], rfl, rfl, List.forall_mem_nil _⟩
  have htake : ∀ n, 0 < n → ds ≠ [] → IsMagnitude (ds.take n) := fun n hn hne =>
    isMagnitude_of_digits (fun d hd => h d (List.mem_of_mem_take hd)) fun hnil =>
      (List.take_eq_nil_iff.mp hnil).elim (Nat.ne_of_gt hn) hne
  unfold layOut
  split
  · split
    · -- a number below one
      have htext : ("0." ++ String.ofList (List.replicate (-lead - 1).toNat '0' ++ ds)).toList =
          ['0'] ++ '.' :: (List.replicate (-lead - 1).toNat '0' ++ ds) := by
        simp only [String.toList_append, String.toList_ofList]
        rfl
      rw [htext]
      refine hzero.append (List.forall_mem_cons.mpr ⟨rfl, ?_⟩)
      exact List.forall_mem_append.mpr ⟨fun _ => isNumeralChar_replicate, hnumeral⟩
    · dsimp only
      split
      · -- a whole number
        rw [String.toList_append, String.toList_ofList]
        refine IsMagnitude.append (isMagnitude_of_digits ?_ ?_) (by simp [NumeralStyle.display])
        · refine List.forall_mem_append.mpr ⟨h, fun d hd => ?_⟩
          rw [List.eq_of_mem_replicate hd]
          rfl
        · intro hnil
          have hlength := congrArg List.length hnil
          rw [List.length_append, List.length_replicate, List.length_nil] at hlength
          omega
      · -- a number with a fraction
        rename_i hlong
        have hsome : ds ≠ [] := by
          rintro rfl
          exact hlong (Nat.zero_le _)
        simp only [String.toList_append, String.toList_ofList, List.append_assoc]
        refine (htake _ (Nat.succ_pos _) hsome).append ?_
        exact List.forall_mem_cons.mpr ⟨rfl, fun d hd => hnumeral d (List.mem_of_mem_drop hd)⟩
  · -- a number with an exponent
    rename_i houtside
    have hsome : ds ≠ [] := by
      rcases hne with hne | rfl
      · exact hne
      · exact absurd (by decide) houtside
    dsimp only
    rw [String.toList_append, String.toList_ofList]
    refine IsMagnitude.append ?_ fun _ => isNumeralChar_of_mem_exponentText
    split
    · exact htake 1 Nat.one_pos hsome
    · refine (htake 1 Nat.one_pos hsome).append (List.forall_mem_cons.mpr ⟨rfl, fun d hd => ?_⟩)
      exact hnumeral d (List.mem_of_mem_drop hd)

/-- The shortest decimal of a number other than zero is written as a magnitude. -/
theorem isMagnitude_shortest {significand : Nat} (exponent : Int) (h : 0 < significand) :
    IsMagnitude (layOut .display (shortest significand exponent).digits.1
      (shortest significand exponent).digits.2).toList := by
  refine isMagnitude_layOut (fun _ => isDigit_of_mem_digits) ?_
  rcases shortest_cases exponent h with hpos | hzero
  · exact .inl (digits_ne_nil hpos)
  · rw [hzero]
    exact .inr rfl

end Decimal

/-- Whether a double stands for a number. -/
def Binary.isFinite : Binary → Bool
  | finite _ _ _ => true
  | _ => false

/-- **The numeral of a finite number** is a magnitude, behind a sign if the number is negative. -/
theorem numeral_characters {x : Float} (h : (Binary.ofFloat x).isFinite) :
    ∃ text, IsMagnitude text ∧
      ((numeral .display x).toList = text ∨ (numeral .display x).toList = '-' :: text) := by
  obtain ⟨negative, significand, exponent, hx⟩ : ∃ negative significand exponent,
      Binary.ofFloat x = .finite negative significand exponent := by
    cases hx : Binary.ofFloat x with
    | finite negative significand exponent => exact ⟨_, _, _, rfl⟩
    | notANumber | infinite =>
      rw [hx] at h
      cases h
  have hmagnitude : ∃ text : String, IsMagnitude text.toList ∧
      numeral .display x = (if negative then "-" else "") ++ text := by
    rw [numeral, hx]
    by_cases hzero : significand = 0
    · refine ⟨"0", ⟨'0', [], rfl, rfl, List.forall_mem_nil _⟩, ?_⟩
      simp [Binary.numeral, hzero, NumeralStyle.display]
    · refine ⟨_, Decimal.isMagnitude_shortest exponent (Nat.pos_of_ne_zero hzero), ?_⟩
      rw [Binary.numeral, if_neg hzero]
  obtain ⟨text, htext, hnumeral⟩ := hmagnitude
  refine ⟨text.toList, htext, ?_⟩
  rw [hnumeral, String.toList_append]
  cases negative with
  | false => exact .inl rfl
  | true => exact .inr rfl

end LoxLang
