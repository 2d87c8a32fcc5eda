import Schemata.Proofs.Rounding
import Schemata.Proofs.Scalars

/-!
# Numbers as they are written

A finite number is written as a number of the grammar, and the grammar gives that text the same
number again: an integer by its digits, a floating-point number by digits that round to it. It
does not matter where the point stands in those digits, and which zeros are written after them.
-/

namespace Schemata

open Json Grammar

/-! ### Digits -/

theorem Json.Grammar.decimal_append_zeros (digits : List Char) (zeros : Nat) :
    decimal (digits ++ List.replicate zeros '0') = decimal digits * 10 ^ zeros := by
  rw [decimal, Nat.ofDigitChars_append, Nat.ofDigitChars_replicate_zero, Nat.mul_comm]
  rfl

theorem Json.Grammar.decimal_zeros_append (digits : List Char) (zeros : Nat) :
    decimal (List.replicate zeros '0' ++ digits) = decimal digits := by
  rw [decimal, Nat.ofDigitChars_append, Nat.ofDigitChars_replicate_zero, Nat.mul_zero]
  rfl

theorem digits_toDigits (n : Nat) : Digits (Nat.toDigits 10 n) where
  ne_nil := Nat.toDigits_ne_nil
  isDigit _ hc := Nat.isDigit_of_mem_toDigits (by decide) (by decide) hc

theorem digits_leftpad (width : Nat) {digits : List Char} (h : Digits digits) :
    Digits (digits.leftpad width '0') where
  ne_nil := by simp [List.leftpad, h.ne_nil]
  isDigit c hc := by
    rcases List.mem_append.mp hc with hzero | hdigit
    · rw [List.eq_of_mem_replicate hzero]
      rfl
    · exact h.isDigit c hdigit

/-- Digits that start with another one than zero. -/
structure Leading (digits : List Char) : Prop extends Digits digits where
  head : digits.head? ≠ some '0'

theorem Leading.whole {digits : List Char} (h : Leading digits) : Whole digits :=
  ⟨h.toDigits, fun hzero => absurd hzero h.head⟩

theorem leading_toDigits {n : Nat} (hn : 0 < n) : Leading (Nat.toDigits 10 n) := by
  refine ⟨digits_toDigits n, ?_⟩
  induction n using Nat.strong_induction_on with
  | h n ih =>
    rw [Nat.toDigits_eq_if (by decide)]
    split
    next hless =>
      have hdigit : ∀ n < 10, 0 < n → [Nat.digitChar n].head? ≠ some '0' := by decide
      exact hdigit n hless hn
    next hgreater =>
      have hhead := ih (n / 10) (Nat.div_lt_self hn (by decide)) (by omega)
      rwa [List.head?_append_of_ne_nil _ Nat.toDigits_ne_nil]

theorem whole_toDigits (n : Nat) : Whole (Nat.toDigits 10 n) := by
  rcases Nat.eq_zero_or_pos n with rfl | hn
  · exact ⟨digits_toDigits 0, fun _ => rfl⟩
  · exact (leading_toDigits hn).whole

theorem decimal_toDigits (n : Nat) : decimal (Nat.toDigits 10 n) = n :=
  Nat.ofDigitChars_ten_toDigits

theorem decimal_lt {digits : List Char} (h : ∀ c ∈ digits, c.isDigit = true) :
    decimal digits < 10 ^ digits.length := by
  induction digits with
  | nil => simp [decimal]
  | cons c digits ih =>
      have hrest := ih fun other hother => h other (List.mem_cons_of_mem c hother)
      have hc : c.toNat - '0'.toNat ≤ 9 := by
        have hdigit := Char.isDigit_iff_toNat.mp (h c List.mem_cons_self)
        have hbounds : '0'.toNat = 48 ∧ '9'.toNat = 57 := ⟨rfl, rfl⟩
        omega
      have hfirst := Nat.mul_le_mul_left (10 ^ digits.length) hc
      rw [decimal] at hrest ⊢
      rw [Nat.ofDigitChars_cons, Nat.ofDigitChars_eq_ofDigitChars_zero, List.length_cons, pow_succ,
        Nat.mul_zero, Nat.zero_add]
      omega

/-! ### Integers -/

theorem isNumber_integer {limit : Nat} {n : Int} (hlimit : 0 < limit) (h : n.natAbs < 10 ^ limit) :
    IsNumber limit (Text.integer n) (.integer n) := by
  have hlength : (Nat.toDigits 10 n.natAbs).length ≤ limit :=
    (Nat.length_toDigits_le_iff (by decide) hlimit).mpr h
  cases n with
  | ofNat n =>
      have hnumber : IsNumber limit (minusSign false ++ _) _ :=
        .integer (whole_toDigits n) hlength
      rw [decimal_toDigits] at hnumber
      exact hnumber
  | negSucc n =>
      have hnumber : IsNumber limit (minusSign true ++ _) _ :=
        .integer (whole_toDigits (n + 1)) hlength
      rw [decimal_toDigits] at hnumber
      exact hnumber

/-! ### Points and powers of ten -/

/-- A text of digits with a point or a power of ten that stands for the given digits, with the
last one at the given power of ten. More zeros may be written after them. -/
structure Denotes (text digits : List Char) (last : Int) : Prop where
  parts : ∃ whole fraction decimals exponent power, text = whole ++ fraction ++ exponent ∧
    Whole whole ∧ Fraction fraction decimals ∧ Exponent exponent power ∧
    (fraction ≠ [] ∨ exponent ≠ []) ∧ ∃ zeros : Nat,
      decimal (whole ++ decimals) = decimal digits * 10 ^ zeros ∧
      power - decimals.length = last - zeros

/-- Such a text is read as the number nearest to what it stands for. -/
theorem Denotes.isNumber {text digits : List Char} {last : Int} (h : Denotes text digits last)
    (limit : Nat) (negative : Bool) :
    IsNumber limit (minusSign negative ++ text)
      (.float (.ofDecimal negative (decimal digits) last)) := by
  obtain ⟨whole, fraction, decimals, exponent, power, rfl, hwhole, hfraction, hexponent, hpart,
    zeros, hdigits, hpower⟩ := h.parts
  have hnumber : IsNumber limit (minusSign negative ++ whole ++ fraction ++ exponent) _ :=
    .float hwhole hfraction hexponent hpart
  rw [hdigits, hpower, Binary64.ofDecimal_mul_pow] at hnumber
  simpa only [List.append_assoc] using hnumber

section Positional

variable {digits : List Char} {exponent : Int}

theorem denotes_positional_small (hdigits : Leading digits) (hexponent : exponent < 0) :
    Denotes (PointRange.positional digits exponent) digits (exponent + 1 - digits.length) := by
  rw [PointRange.positional, if_pos hexponent]
  have hfraction : Digits (List.replicate (-exponent - 1).toNat '0' ++ digits) := by
    refine ⟨by simp [hdigits.ne_nil], fun c hc => ?_⟩
    rcases List.mem_append.mp hc with hzero | hdigit
    · rw [List.eq_of_mem_replicate hzero]
      rfl
    · exact hdigits.isDigit c hdigit
  refine ⟨['0'], _, _, [], 0, ?_, whole_toDigits 0, .point hfraction, .absent, .inl nofun, 0,
    ?_, ?_⟩
  · simp
  · have hzeros := decimal_zeros_append digits ((-exponent - 1).toNat + 1)
    rw [List.replicate_succ] at hzeros
    rw [pow_zero, Nat.mul_one, ← hzeros]
    rfl
  · rw [List.length_append, List.length_replicate]
    push_cast
    omega

/-- All digits stand before the point. -/
theorem denotes_positional_great (hdigits : Leading digits) (hexponent : 0 ≤ exponent)
    (hlength : digits.length ≤ exponent.toNat + 1) :
    Denotes (PointRange.positional digits exponent) digits (exponent + 1 - digits.length) := by
  rw [PointRange.positional, if_neg (not_lt.mpr hexponent)]
  dsimp only
  rw [List.take_of_length_le hlength, List.drop_eq_nil_of_le hlength, List.isEmpty_nil, if_pos rfl,
    List.rightpad]
  have hwhole : Leading (digits ++ List.replicate (exponent.toNat + 1 - digits.length) '0') := by
    refine ⟨⟨by simp [hdigits.ne_nil], fun c hc => ?_⟩, ?_⟩
    · rcases List.mem_append.mp hc with hdigit | hzero
      · exact hdigits.isDigit c hdigit
      · rw [List.eq_of_mem_replicate hzero]
        rfl
    · rw [List.head?_append_of_ne_nil _ hdigits.ne_nil]
      exact hdigits.head
  have hpoint : Fraction ['.', '0'] ['0'] := .point (digits_toDigits 0)
  refine ⟨_, _, ['0'], [], 0, ?_, hwhole.whole, hpoint, .absent, .inl nofun,
    exponent.toNat + 1 - digits.length + 1, ?_, ?_⟩
  · simp
  · have hzeros := decimal_append_zeros digits (exponent.toNat + 1 - digits.length + 1)
    rw [List.replicate_succ', ← List.append_assoc] at hzeros
    exact hzeros
  · simp only [List.length_singleton]
    omega

/-- The point stands between the digits. -/
theorem denotes_positional_between (hdigits : Leading digits) (hexponent : 0 ≤ exponent)
    (hlength : exponent.toNat + 1 < digits.length) :
    Denotes (PointRange.positional digits exponent) digits (exponent + 1 - digits.length) := by
  have htake : (digits.take (exponent.toNat + 1)).length = exponent.toNat + 1 :=
    List.length_take_of_le hlength.le
  have hdrop : digits.drop (exponent.toNat + 1) ≠ [] := by
    rw [ne_eq, List.drop_eq_nil_iff]
    omega
  rw [PointRange.positional, if_neg (not_lt.mpr hexponent)]
  dsimp only
  rw [List.isEmpty_eq_false_iff.mpr hdrop, if_neg Bool.false_ne_true, List.rightpad, htake,
    Nat.sub_self, List.replicate_zero, List.append_nil]
  have hwhole : Leading (digits.take (exponent.toNat + 1)) := by
    refine ⟨⟨?_, fun c hc => hdigits.isDigit c (List.mem_of_mem_take hc)⟩, ?_⟩
    · rw [← List.length_pos_iff, htake]
      omega
    · rw [List.head?_take, if_neg (by omega)]
      exact hdigits.head
  have hfraction : Digits (digits.drop (exponent.toNat + 1)) :=
    ⟨hdrop, fun c hc => hdigits.isDigit c (List.mem_of_mem_drop hc)⟩
  refine ⟨_, _, _, [], 0, ?_, hwhole.whole, .point hfraction, .absent, .inl nofun, 0, ?_, ?_⟩
  · simp
  · rw [List.take_append_drop, pow_zero, Nat.mul_one]
  · rw [List.length_drop]
    omega

theorem denotes_positional (hdigits : Leading digits) :
    Denotes (PointRange.positional digits exponent) digits (exponent + 1 - digits.length) := by
  by_cases hnegative : exponent < 0
  · exact denotes_positional_small hdigits hnegative
  by_cases hlength : digits.length ≤ exponent.toNat + 1
  · exact denotes_positional_great hdigits (not_lt.mp hnegative) hlength
  · exact denotes_positional_between hdigits (not_lt.mp hnegative) (not_le.mp hlength)

end Positional

theorem exponent_exponentText (exponent : Int) :
    Exponent ('e' :: PointRange.exponentText exponent) exponent := by
  have hdigits := digits_leftpad 2 (digits_toDigits exponent.natAbs)
  have hvalue : decimal ((Nat.toDigits 10 exponent.natAbs).leftpad 2 '0') = exponent.natAbs := by
    rw [List.leftpad, decimal_zeros_append, decimal_toDigits]
  unfold PointRange.exponentText
  split
  next hnegative =>
    have hminus : Exponent ('e' :: '-' :: _) _ := .minus (.inl rfl) hdigits
    rwa [hvalue, Int.ofNat_natAbs_of_nonpos hnegative.le, neg_neg] at hminus
  next hpositive =>
    have hplus : Exponent ('e' :: '+' :: _) _ := .plus (.inl rfl) hdigits
    rwa [hvalue, Int.natAbs_of_nonneg (not_lt.mp hpositive)] at hplus

theorem denotes_scientific {digits : List Char} (hdigits : Leading digits) (exponent : Int) :
    Denotes (PointRange.scientific digits exponent) digits (exponent + 1 - digits.length) := by
  cases digits with
  | nil => exact absurd rfl hdigits.ne_nil
  | cons first others =>
      have hwhole : Leading [first] :=
        ⟨⟨nofun, fun c hc =>
          hdigits.isDigit c (List.mem_cons.mpr (.inl (List.mem_singleton.mp hc)))⟩, hdigits.head⟩
      have hexponent := exponent_exponentText exponent
      unfold PointRange.scientific
      simp only [List.drop_one, List.tail_cons, List.take_succ_cons, List.take_zero]
      cases others with
      | nil =>
          refine ⟨[first], [], [], _, exponent, rfl, hwhole.whole, .absent, hexponent, .inr nofun,
            0, ?_, ?_⟩
          · simp
          · simp
      | cons second rest =>
          have hfraction : Digits (second :: rest) :=
            ⟨nofun, fun c hc => hdigits.isDigit c (List.mem_cons_of_mem first hc)⟩
          refine ⟨[first], _, _, _, exponent, rfl, hwhole.whole, .point hfraction, hexponent,
            .inl nofun, 0, ?_, ?_⟩
          · simp
          · simp only [List.length_cons]
            push_cast
            ring

/-! ### Decimals -/

/-- The digits of a number without the zeros at their end. -/
theorem exists_zeros {n : Nat} (hn : 0 < n) :
    ∃ zeros, Leading ((Nat.toDigits 10 n).reverse.dropWhile (· = '0')).reverse ∧
      Nat.toDigits 10 n = ((Nat.toDigits 10 n).reverse.dropWhile (· = '0')).reverse ++
        List.replicate zeros '0' := by
  have hall := leading_toDigits hn
  generalize Nat.toDigits 10 n = all at *
  have hsplit : all = (all.reverse.dropWhile (· = '0')).reverse ++
      (all.reverse.takeWhile (· = '0')).reverse := by
    rw [← List.reverse_append, List.takeWhile_append_dropWhile, List.reverse_reverse]
  have hzeros : (all.reverse.takeWhile (· = '0')).reverse =
      List.replicate (all.reverse.takeWhile (· = '0')).reverse.length '0' := by
    refine List.eq_replicate_of_mem fun c hc => ?_
    simpa using List.mem_takeWhile_imp (List.mem_reverse.mp hc)
  have hne : (all.reverse.dropWhile (· = '0')).reverse ≠ [] := by
    -- Otherwise all digits are zeros, also the first one.
    intro hnone
    rw [hnone, List.nil_append, hzeros] at hsplit
    have hhead := hall.head
    rw [hsplit, List.head?_replicate] at hhead
    split at hhead
    next hlength =>
      rw [hlength] at hsplit
      exact hall.ne_nil hsplit
    next => exact hhead rfl
  refine ⟨_, ⟨⟨hne, fun c hc => ?_⟩, ?_⟩, hzeros ▸ hsplit⟩
  · refine hall.isDigit c ?_
    rw [hsplit]
    exact List.mem_append_left _ hc
  · have hhead := hall.head
    rwa [hsplit, List.head?_append_of_ne_nil _ hne] at hhead

/-- The text of a positive decimal is read as the number nearest to it. -/
theorem isNumber_write (range : PointRange) {value : Decimal} (hdigits : 0 < value.digits)
    (limit : Nat) (negative : Bool) :
    IsNumber limit (minusSign negative ++ range.write value)
      (.float (.ofDecimal negative value.digits value.exponent)) := by
  obtain ⟨zeros, hleading, hall⟩ := exists_zeros hdigits
  have hvalue := decimal_toDigits value.digits
  unfold PointRange.write
  dsimp only
  generalize ((Nat.toDigits 10 value.digits).reverse.dropWhile (· = '0')).reverse = digits at *
  rw [hall, decimal_append_zeros] at hvalue
  have hpos := List.length_pos_iff.mpr hleading.ne_nil
  have hlast : value.exponent + ((Nat.toDigits 10 value.digits).length - 1 : Nat) + 1 -
      digits.length = value.exponent + zeros := by
    rw [hall, List.length_append, List.length_replicate]
    omega
  have hnumber : Binary64.ofDecimal negative (decimal digits) (value.exponent + zeros) =
      .ofDecimal negative value.digits value.exponent := by
    rw [← Binary64.ofDecimal_mul_pow _ _ zeros, hvalue, add_sub_cancel_right]
  rw [← hnumber, ← hlast]
  split
  · exact (denotes_positional hleading).isNumber limit negative
  · exact (denotes_scientific hleading _).isNumber limit negative

/-! ### The shortest decimal -/

namespace Decimal

/-- The quotient of a dyadic rational has its absolute value, and a power of two below. -/
theorem quotient_spec (value : Dyadic) :
    ∃ k, (quotient value).2 = 2 ^ k ∧
      ((quotient value).1 / (quotient value).2 : ℚ) = |value.toRat| := by
  cases value with
  | zero => exact ⟨0, rfl, by simp [quotient]⟩
  | ofOdd n k hodd =>
      rw [Dyadic.toRat_ofOdd_eq_mul_two_pow, abs_mul,
        abs_of_pos (zpow_pos two_pos (-k) : (0 : ℚ) < _)]
      by_cases hk : 0 ≤ k
      · obtain ⟨k, rfl⟩ := Int.eq_ofNat_of_zero_le hk
        simp only [quotient, if_pos hk]
        exact ⟨k, by simp, by simp [div_eq_mul_inv]⟩
      · obtain ⟨power, hpower⟩ := Int.eq_ofNat_of_zero_le (show 0 ≤ -k by omega)
        simp only [quotient, if_neg hk, hpower]
        exact ⟨0, rfl, by simp⟩

theorem quotient_pos (value : Dyadic) : 0 < (quotient value).2 := by
  obtain ⟨k, hpower, -⟩ := quotient_spec value
  rw [hpower]
  exact Nat.two_pow_pos k

/-- All digits of a quotient, with the point in place. -/
theorem exact_value (value : Dyadic) :
    ((exact (quotient value).1 (quotient value).2).digits : ℚ) *
      10 ^ (exact (quotient value).1 (quotient value).2).exponent = |value.toRat| := by
  obtain ⟨k, hpower, hvalue⟩ := quotient_spec value
  rw [← hvalue, hpower]
  simp only [exact, Nat.log2_two_pow, Nat.pow_eq, zpow_neg, zpow_natCast]
  push_cast
  rw [show (10 : ℚ) = 5 * 2 by norm_num, mul_pow]
  field_simp

open Binary64 in
/-- The shortest decimal of a number is read as the number. -/
theorem ofDecimal_shortest {value magnitude : Dyadic} {significand : Nat} {power : Int}
    (h : Fits magnitude significand power) (hvalue : |value.toRat| = magnitude.toRat) :
    ofDecimal false (shortest value).digits (shortest value).exponent = .finite magnitude := by
  have hexact : ofDecimal false (exact (quotient value).1 (quotient value).2).digits
      (exact (quotient value).1 (quotient value).2).exponent = .finite magnitude :=
    ofDecimal_of_fits h ((exact_value value).trans hvalue)
  have hquotient : ofQuotient false (quotient value).1 (quotient value).2 = .finite magnitude := by
    obtain ⟨k, -, habs⟩ := quotient_spec value
    exact ofQuotient_of_fits h (quotient_pos value) (habs.trans hvalue)
  unfold shortest
  dsimp only
  generalize hfound : (List.range 17).findSome? _ = found
  cases found with
  | none => exact hexact
  | some decimal =>
      obtain ⟨count, -, hcount⟩ := List.exists_of_findSome?_eq_some hfound
      have hread := List.find?_some hcount
      rw [decide_eq_true_eq] at hread
      exact hread.trans hquotient

end Decimal

/-! ### Floating-point numbers -/

theorem isNumber_zero (limit : Nat) (negative : Bool) :
    IsNumber limit (minusSign negative ++ ['0', '.', '0']) (.float (.zero negative)) := by
  have hfraction : Fraction ['.', '0'] ['0'] := .point (digits_toDigits 0)
  have hnumber : IsNumber limit (minusSign negative ++ ['0'] ++ ['.', '0'] ++ []) _ :=
    .float (whole_toDigits 0) hfraction .absent (.inl nofun)
  have hzero : Binary64.ofDecimal negative (decimal ['0', '0']) (-1) = .zero negative := rfl
  simpa [hzero] using hnumber

theorem isNumber_zeroText (limit : Nat) (negative : Bool) (infinity : String) :
    IsNumber limit ((Binary64.zero negative).text infinity).toList (.float (.zero negative)) := by
  have htext : ((Binary64.zero negative).text infinity).toList =
      minusSign negative ++ ['0', '.', '0'] := by
    cases negative with
    | false => simp [Binary64.zero, Binary64.text, minusSign]
    | true => simp [Binary64.zero, Binary64.text, minusSign]
  exact htext ▸ isNumber_zero limit negative

theorem digits_pos_of_fits {value : Dyadic} {significand digits : Nat} {exponent power : Int}
    (h : Binary64.Fits value significand power)
    (hread : Binary64.ofDecimal false digits exponent = .finite value) : 0 < digits := by
  rcases Nat.eq_zero_or_pos digits with rfl | hdigits
  · exact absurd (Binary64.finite.inj hread).symm h.ne_zero
  · exact hdigits

/-- The text of a finite number other than zero is read as the number. -/
theorem isNumber_finite {value magnitude : Dyadic} {significand : Nat} {power : Int}
    (h : Binary64.Fits magnitude significand power) (negative : Bool)
    (hvalue : value = if negative then -magnitude else magnitude) (limit : Nat)
    (infinity : String) :
    IsNumber limit ((Binary64.finite value).text infinity).toList (.float (.finite value)) := by
  have hpos := h.toRat_pos
  have hne := h.ne_zero
  have habs : |value.toRat| = magnitude.toRat := by
    cases negative with
    | false => simp [hvalue, abs_of_pos hpos]
    | true => simp [hvalue, Dyadic.toRat_neg, abs_of_pos hpos]
  have hread := Decimal.ofDecimal_shortest h habs
  have hwrite := isNumber_write .standard (digits_pos_of_fits h hread) limit negative
  have hsign : (value < 0) ↔ negative = true := by
    rw [← Dyadic.toRat_lt_toRat_iff, Dyadic.toRat_zero]
    cases negative with
    | false => simp [hvalue, hpos.le]
    | true => simp [hvalue, Dyadic.toRat_neg, hpos]
  have hzero : ¬ (value == 0) = true := by
    rw [beq_iff_eq, ← Dyadic.toRat_eq_zero_iff, ← abs_eq_zero, habs]
    exact hpos.ne'
  cases negative with
  | false =>
      simp only [hread, minusSign, Bool.false_eq_true, if_false, List.nil_append] at hwrite hvalue
      simp only [Binary64.text, if_neg hzero, hsign, Bool.false_eq_true, if_false,
        String.toList_ofList]
      exact hvalue ▸ hwrite
  | true =>
      rw [Binary64.ofDecimal_true, hread] at hwrite
      simp only [Binary64.neg, if_neg hne, minusSign, if_true] at hwrite hvalue
      simp only [Binary64.text, if_neg hzero, hsign, if_true, String.toList_append,
        String.toList_ofList]
      exact hvalue ▸ hwrite

/-- A number that decimals are rounded to has a text that is read as the number, unless it is
infinite. -/
theorem isNumber_ofDecimal {negative : Bool} {digits : Nat} {exponent : Int} {value : Binary64}
    (h : Binary64.ofDecimal negative digits exponent = value)
    (hfinite : ∀ sign, value ≠ .infinite sign) (limit : Nat) (infinity : String) :
    IsNumber limit (value.text infinity).toList (.float value) := by
  have hsigned : value = if negative = true then (Binary64.ofDecimal false digits exponent).neg
      else Binary64.ofDecimal false digits exponent := by
    cases negative with
    | false => rw [if_neg Bool.false_ne_true, h]
    | true => rw [if_pos rfl, ← Binary64.ofDecimal_true, h]
  cases hread : Binary64.ofDecimal false digits exponent with
  | infinite sign =>
      rw [hread, Binary64.neg, ← apply_ite] at hsigned
      exact absurd hsigned (hfinite _)
  | negativeZero =>
      have hzero : value = .zero !negative := by
        rw [hsigned, hread]
        cases negative <;> rfl
      exact hzero ▸ isNumber_zeroText limit (!negative) infinity
  | finite magnitude =>
      rw [hread] at hsigned
      rcases Binary64.fits_of_ofDecimal hread with rfl | ⟨significand, power, hfits⟩
      · have hzero : value = .zero negative := by
          rw [hsigned]
          cases negative <;> rfl
        exact hzero ▸ isNumber_zeroText limit negative infinity
      · have hvalue : value = .finite (if negative = true then -magnitude else magnitude) := by
          rw [hsigned, Binary64.neg, if_neg hfits.ne_zero, ← apply_ite]
        exact hvalue ▸ isNumber_finite hfits negative rfl limit infinity

/-! ### Numbers -/

/-- A number that some text is read as. -/
def HasText (limit : Nat) (number : Number) : Prop :=
  ∃ text, IsNumber limit text number

/-- A number that some text is read as is read again from its own text, unless it is infinite. -/
theorem isNumber_textWith {limit : Nat} {number : Number} (h : HasText limit number)
    (hlimit : 0 < limit)
    (hfinite : ∀ sign, number ≠ .float (.infinite sign)) (infinity : String) :
    IsNumber limit (number.textWith infinity).toList number := by
  obtain ⟨text, htext⟩ := h
  cases htext with
  | @integer negative whole hwhole hlength =>
      have hsize : decimal whole < 10 ^ limit :=
        (decimal_lt hwhole.isDigit).trans_le (Nat.pow_le_pow_right (by decide) hlength)
      have habs : (if negative = true then -(decimal whole : Int) else decimal whole).natAbs =
          decimal whole := by
        split <;> simp
      have hnumber := isNumber_integer hlimit (habs.trans_lt hsize)
      rwa [Number.textWith, Text.integerText, String.toList_ofList]
  | float =>
      exact isNumber_ofDecimal rfl (fun sign heq => hfinite sign (congrArg Number.float heq)) limit
        infinity

end Schemata
