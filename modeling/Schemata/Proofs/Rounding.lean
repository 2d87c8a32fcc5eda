import Mathlib.Data.Int.Log
import Mathlib.Data.Rat.Floor
import Mathlib.Tactic.FieldSimp
import Mathlib.Tactic.Linarith
import Mathlib.Tactic.Positivity
import Mathlib.Tactic.Qify
import Mathlib.Tactic.Ring
import Schemata.Number.Decimal

/-!
# Rounding to binary

The number nearest to a quotient depends on nothing but the value of the quotient, so a decimal
is read as the same number however many zeros its digits end with. What a quotient is rounded to
has at most 53 significant bits, and a quotient of as many is rounded to itself.
-/

namespace Schemata.Binary64

/-! ### Quotients of the same value -/

section Congr

variable {num den num' den' : Nat}

theorem roundQuotient_congr (hden : 0 < den) (hden' : 0 < den')
    (h : num * den' = num' * den) : roundQuotient num den = roundQuotient num' den' := by
  have hquotient : num / den = num' / den' := by
    rw [← Nat.mul_div_mul_right num den hden', ← Nat.mul_div_mul_right num' den' hden, h,
      Nat.mul_comm den den']
  have hremainder : num % den * den' = num' % den' * den := by
    rw [← Nat.mul_mod_mul_right, ← Nat.mul_mod_mul_right, h, Nat.mul_comm den den']
  have htwice : 2 * (num % den) * den' = 2 * (num' % den') * den := by
    rw [Nat.mul_assoc, hremainder, Nat.mul_assoc]
  have hbelow : 2 * (num % den) < den ↔ 2 * (num' % den') < den' := by
    rw [← Nat.mul_lt_mul_right hden', htwice, Nat.mul_comm den, Nat.mul_lt_mul_right hden]
  have habove : den < 2 * (num % den) ↔ den' < 2 * (num' % den') := by
    rw [← Nat.mul_lt_mul_right hden', htwice, Nat.mul_comm den, Nat.mul_lt_mul_right hden]
  simp only [roundQuotient, hquotient, hbelow, habove]

theorem scale_congr (h : num * den' = num' * den) (exponent : Int) :
    (scale num den exponent).1 * (scale num' den' exponent).2 =
      (scale num' den' exponent).1 * (scale num den exponent).2 := by
  unfold scale
  split
  · dsimp only
    rw [← Nat.mul_assoc, ← Nat.mul_assoc, h]
  · dsimp only
    rw [Nat.mul_right_comm, h, Nat.mul_right_comm]

theorem scale_pos (hden : 0 < den) (exponent : Int) : 0 < (scale num den exponent).2 := by
  unfold scale
  split
  · exact Nat.mul_pos hden (Nat.pow_pos Nat.two_pos)
  · exact hden

/-- A scaled quotient has the value of the quotient divided by the power of two. -/
theorem scale_value (num den : Nat) (exponent : Int) :
    ((scale num den exponent).1 : ℚ) / (scale num den exponent).2 =
      (num / den : ℚ) / 2 ^ exponent := by
  unfold scale
  split
  next hexponent =>
    obtain ⟨k, rfl⟩ := Int.eq_ofNat_of_zero_le hexponent
    simp [div_div]
  next hexponent =>
    obtain ⟨k, hk⟩ := Int.eq_ofNat_of_zero_le (show 0 ≤ -exponent by omega)
    obtain rfl : exponent = -k := by omega
    simp [div_eq_mul_inv, mul_right_comm]

end Congr

theorem log2_bounds {n : Nat} (h : 0 < n) :
    (2 : ℚ) ^ (n.log2 : Int) ≤ n ∧ (n : ℚ) < 2 ^ ((n.log2 : Int) + 1) := by
  have hlow : 2 ^ n.log2 ≤ n := Nat.log2_self_le h.ne'
  have hhigh : n < 2 ^ (n.log2 + 1) := Nat.lt_log2_self
  constructor
  · exact_mod_cast hlow
  · exact_mod_cast hhigh

/-- The exponent of the last significant bit goes by the value of the quotient. -/
theorem lastBitExponent_eq {num den : Nat} (hnum : 0 < num) (hden : 0 < den) :
    lastBitExponent num den = max (Int.log 2 (num / den : ℚ) - 52) leastExponent := by
  obtain ⟨hnumLow, hnumHigh⟩ := log2_bounds hnum
  obtain ⟨hdenLow, hdenHigh⟩ := log2_bounds hden
  have hnumPos : (0 : ℚ) < num := Nat.cast_pos.mpr hnum
  have hdenPos : (0 : ℚ) < den := Nat.cast_pos.mpr hden
  have hpos : (0 : ℚ) < num / den := div_pos hnumPos hdenPos
  -- The quotient lies between the powers of two next to the difference of the logarithms.
  have hlow : (2 : ℚ) ^ ((num.log2 : Int) - (den.log2 + 1)) ≤ num / den := by
    rw [zpow_sub₀ two_ne_zero]
    exact div_le_div₀ hnumPos.le hnumLow hdenPos hdenHigh.le
  have hhigh : (num / den : ℚ) < 2 ^ ((num.log2 : Int) + 1 - den.log2) := by
    rw [zpow_sub₀ two_ne_zero]
    exact div_lt_div₀ hnumHigh hdenLow (zpow_pos two_pos _).le (zpow_pos two_pos _)
  have hleast := (Int.zpow_le_iff_le_log one_lt_two hpos).mp hlow
  have hgreatest := (Int.lt_zpow_iff_log_lt one_lt_two hpos).mp hhigh
  -- The guess is one too high exactly if the scaled quotient has a bit less than it should.
  have htest : (scale num den ((num.log2 : Int) - den.log2 - (precision - 1 : Nat))).1 <
      (scale num den ((num.log2 : Int) - den.log2 - (precision - 1 : Nat))).2 *
        Nat.pow 2 (precision - 1) ↔ Int.log 2 (num / den : ℚ) < (num.log2 : Int) - den.log2 := by
    have hscaled : (0 : ℚ) <
        (scale num den ((num.log2 : Int) - den.log2 - (precision - 1 : Nat))).2 :=
      Nat.cast_pos.mpr (scale_pos hden _)
    have hpower : ((Nat.pow 2 (precision - 1) : Nat) : ℚ) *
        2 ^ ((num.log2 : Int) - den.log2 - (precision - 1 : Nat)) =
          2 ^ ((num.log2 : Int) - den.log2) := by
      rw [zpow_sub₀ two_ne_zero _ ((precision - 1 : Nat) : Int), ← mul_div_assoc, mul_comm,
        mul_div_assoc]
      norm_num [precision]
    rw [← Int.lt_zpow_iff_log_lt one_lt_two hpos, ← Nat.cast_lt (α := ℚ), Nat.cast_mul,
      mul_comm, ← div_lt_iff₀ hscaled, scale_value, div_lt_iff₀ (zpow_pos two_pos _), hpower,
      Nat.cast_ofNat]
  have hprecision : ((precision - 1 : Nat) : Int) = 52 := rfl
  unfold lastBitExponent
  dsimp only
  by_cases hless : Int.log 2 (num / den : ℚ) < (num.log2 : Int) - den.log2
  · rw [if_pos (htest.mpr hless)]
    omega
  · rw [if_neg (mt htest.mp hless)]
    omega

section Congr

variable {num den num' den' : Nat} (hden : 0 < den) (hden' : 0 < den')
  (h : num * den' = num' * den)

include hden hden' h

theorem div_congr : (num / den : ℚ) = num' / den' := by
  rw [div_eq_div_iff (Nat.cast_ne_zero.mpr hden.ne') (Nat.cast_ne_zero.mpr hden'.ne')]
  exact_mod_cast h

/-- The number nearest to a quotient depends on nothing but its value. -/
theorem ofQuotient_congr (negative : Bool) :
    ofQuotient negative num den = ofQuotient negative num' den' := by
  have hzero : num = 0 ↔ num' = 0 := by
    constructor
    all_goals
      rintro rfl
      simpa [hden.ne', hden'.ne'] using h
  unfold ofQuotient
  by_cases hnum : num = 0
  · rw [if_pos hnum, if_pos (hzero.mp hnum)]
  · have hexponent : lastBitExponent num den = lastBitExponent num' den' := by
      rw [lastBitExponent_eq (Nat.pos_of_ne_zero hnum) hden,
        lastBitExponent_eq (Nat.pos_of_ne_zero (mt hzero.mpr hnum)) hden', div_congr hden hden' h]
    have hround := roundQuotient_congr (scale_pos hden (lastBitExponent num' den'))
      (scale_pos hden' _) (scale_congr h _)
    rw [if_neg hnum, if_neg (mt hzero.mpr hnum)]
    simp only [hexponent, hround]

end Congr

/-! ### Numbers with 53 significant bits -/

/-- A positive number with at most 53 significant bits, none of which stands for a power of two
out of range. -/
structure Fits (value : Dyadic) (significand : Nat) (exponent : Int) : Prop where
  pos : 0 < significand
  bits : significand < 2 ^ precision
  least : leastExponent ≤ exponent
  greatest : exponent ≤ greatestExponent
  value_eq : value.toRat = significand * 2 ^ exponent

theorem Fits.toRat_pos {value : Dyadic} {significand : Nat} {exponent : Int}
    (h : Fits value significand exponent) : 0 < value.toRat := by
  rw [h.value_eq]
  exact mul_pos (Nat.cast_pos.mpr h.pos) (zpow_pos two_pos _)

theorem Fits.ne_zero {value : Dyadic} {significand : Nat} {exponent : Int}
    (h : Fits value significand exponent) : value ≠ 0 := fun hzero =>
  h.toRat_pos.ne' (Dyadic.toRat_eq_zero_iff.mpr hzero)

theorem roundQuotient_le {num den bound : Nat} (hden : 0 < den) (h : num < bound * den) :
    roundQuotient num den ≤ bound := by
  have hquotient : num / den < bound := (Nat.div_lt_iff_lt_mul hden).mpr h
  unfold roundQuotient
  dsimp only
  split
  · omega
  split
  · omega
  · omega

theorem roundQuotient_mul (n : Nat) {den : Nat} (hden : 0 < den) :
    roundQuotient (n * den) den = n := by
  simp [roundQuotient, Nat.mul_div_cancel _ hden, hden]

/-- A quotient fills at most 53 bits from its last significant one on. -/
theorem scale_lastBitExponent_lt {num den : Nat} (hnum : 0 < num) (hden : 0 < den) :
    (scale num den (lastBitExponent num den)).1 <
      2 ^ precision * (scale num den (lastBitExponent num den)).2 := by
  have hscaled : (0 : ℚ) < (scale num den (lastBitExponent num den)).2 :=
    Nat.cast_pos.mpr (scale_pos hden _)
  have hpos : (0 : ℚ) < num / den := div_pos (Nat.cast_pos.mpr hnum) (Nat.cast_pos.mpr hden)
  have hpower : ((2 ^ precision : Nat) : ℚ) * 2 ^ lastBitExponent num den =
      2 ^ (lastBitExponent num den + 53) := by
    rw [zpow_add₀ two_ne_zero, mul_comm]
    norm_num [precision]
  have hlog := lastBitExponent_eq hnum hden
  have hless : (num / den : ℚ) < ((2 : Nat) : ℚ) ^ (lastBitExponent num den + 53) := by
    rw [Int.lt_zpow_iff_log_lt one_lt_two hpos]
    omega
  rw [← Nat.cast_lt (α := ℚ), Nat.cast_mul, ← div_lt_iff₀ hscaled, scale_value,
    div_lt_iff₀ (zpow_pos two_pos _), hpower]
  exact hless

theorem eq_ofIntWithPrec {value : Dyadic} {n : Int} {exponent : Int}
    (h : value.toRat = n * 2 ^ exponent) : value = .ofIntWithPrec n (-exponent) := by
  rw [← Dyadic.toRat_inj, Dyadic.toRat_ofIntWithPrec_eq_mul_two_pow, neg_neg, h]

/-- What a quotient is rounded to is zero or fits. -/
theorem fits_of_ofQuotient {num den : Nat} {value : Dyadic} (hden : 0 < den)
    (h : ofQuotient false num den = .finite value) :
    value = 0 ∨ ∃ significand exponent, Fits value significand exponent := by
  unfold ofQuotient at h
  split at h
  · exact .inl (finite.inj h).symm
  next hnum =>
    dsimp only at h
    split at h
    · exact .inl (finite.inj h).symm
    next hsignificand =>
      split at h
      · cases h
      next hrange =>
        have hbound := roundQuotient_le (scale_pos hden _)
          (scale_lastBitExponent_lt (Nat.pos_of_ne_zero hnum) hden)
        have hleast : leastExponent ≤ lastBitExponent num den := le_max_right _ _
        have hvalue := finite.inj h
        generalize roundQuotient (scale num den (lastBitExponent num den)).1
          (scale num den (lastBitExponent num den)).2 = significand at *
        generalize lastBitExponent num den = exponent at *
        simp only [Bool.or_eq_true, decide_eq_true_eq, Bool.and_eq_true, not_or, not_lt,
          not_and] at hrange
        obtain ⟨hgreatest, hfull⟩ := hrange
        have hrat : value.toRat = significand * 2 ^ exponent := by
          rw [← hvalue]
          simp [Dyadic.toRat_ofIntWithPrec_eq_mul_two_pow]
        by_cases hpower : significand = 2 ^ precision
        · -- A significand of 54 bits is a power of two, and goes with the next exponent.
          refine .inr ⟨2 ^ (precision - 1), exponent + 1, by decide, by decide, by omega, ?_, ?_⟩
          · have hless : exponent ≠ greatestExponent := fun heq => hfull heq hpower
            omega
          · rw [hrat, hpower, zpow_add₀ two_ne_zero]
            norm_num [precision]
            ring
        · exact .inr ⟨significand, exponent, Nat.pos_of_ne_zero hsignificand,
            lt_of_le_of_ne hbound hpower, hleast, hgreatest, hrat⟩

/-- A quotient that fits is rounded to itself. -/
theorem ofQuotient_of_fits {num den : Nat} {value : Dyadic} {significand : Nat} {exponent : Int}
    (h : Fits value significand exponent) (hden : 0 < den)
    (hvalue : (num / den : ℚ) = value.toRat) : ofQuotient false num den = .finite value := by
  have hpositive : (0 : ℚ) < num / den := by
    rw [hvalue]
    exact h.toRat_pos
  have hnum : 0 < num := by
    rcases Nat.eq_zero_or_pos num with rfl | hnum
    · simp at hpositive
    · exact hnum
  have hlast : lastBitExponent num den ≤ exponent := by
    have hless : (num / den : ℚ) < ((2 : Nat) : ℚ) ^ (53 + exponent) := by
      rw [hvalue, h.value_eq, Nat.cast_ofNat, zpow_add₀ two_ne_zero]
      refine mul_lt_mul_of_pos_right ?_ (zpow_pos two_pos _)
      exact_mod_cast h.bits
    have hlog := (Int.lt_zpow_iff_log_lt one_lt_two hpositive).mp hless
    have hleast := h.least
    rw [lastBitExponent_eq hnum hden]
    omega
  obtain ⟨shift, hshift⟩ := Int.eq_ofNat_of_zero_le (Int.sub_nonneg.mpr hlast)
  have hrat : value.toRat = (significand * 2 ^ shift : Nat) * 2 ^ lastBitExponent num den := by
    have hsplit : exponent = shift + lastBitExponent num den := by omega
    rw [h.value_eq, hsplit, zpow_add₀ two_ne_zero]
    push_cast
    rw [zpow_natCast, mul_assoc]
  -- The scaled quotient is an integer.
  have hscaled : (scale num den (lastBitExponent num den)).1 =
      significand * 2 ^ shift * (scale num den (lastBitExponent num den)).2 := by
    have hdenominator : ((scale num den (lastBitExponent num den)).2 : ℚ) ≠ 0 :=
      Nat.cast_ne_zero.mpr (scale_pos hden _).ne'
    have hquotient := scale_value num den (lastBitExponent num den)
    rw [hvalue, hrat, mul_div_cancel_right₀ _ (zpow_pos two_pos _).ne',
      div_eq_iff hdenominator] at hquotient
    exact_mod_cast hquotient
  have hround : roundQuotient (scale num den (lastBitExponent num den)).1
      (scale num den (lastBitExponent num den)).2 = significand * 2 ^ shift := by
    rw [hscaled, roundQuotient_mul _ (scale_pos hden _)]
  have hbits : significand * 2 ^ shift < 2 ^ precision := by
    have hless := scale_lastBitExponent_lt hnum hden
    rw [hscaled] at hless
    exact Nat.lt_of_mul_lt_mul_right hless
  have hne : significand * 2 ^ shift ≠ 0 := (Nat.mul_pos h.pos (Nat.two_pow_pos shift)).ne'
  have hgreatest : ¬ (decide (greatestExponent < lastBitExponent num den) ||
      decide (lastBitExponent num den = greatestExponent) &&
        decide (significand * 2 ^ shift = Nat.pow 2 precision)) = true := by
    have hexponent := h.greatest
    simp only [Bool.or_eq_true, decide_eq_true_eq, Bool.and_eq_true, not_or, not_lt, not_and]
    exact ⟨by omega, fun _ => hbits.ne⟩
  have hrat' : value.toRat = ((significand * 2 ^ shift : Nat) : Int) *
      2 ^ lastBitExponent num den := by
    rw [hrat, Int.cast_natCast]
  unfold ofQuotient
  rw [if_neg hnum.ne']
  dsimp only
  rw [hround, if_neg hne, if_neg hgreatest, if_neg Bool.false_ne_true, ← eq_ofIntWithPrec hrat']

/-! ### Signs -/

/-- A number with the other sign. -/
def neg : Binary64 → Binary64
  | finite value => if value = 0 then negativeZero else finite (-value)
  | negativeZero => finite 0
  | infinite negative => infinite !negative

theorem ofQuotient_true (num den : Nat) :
    ofQuotient true num den = (ofQuotient false num den).neg := by
  unfold ofQuotient
  split
  · rfl
  dsimp only
  split
  · rfl
  next hsignificand =>
    split
    · rfl
    · have hne : Dyadic.ofIntWithPrec (roundQuotient (scale num den (lastBitExponent num den)).1
          (scale num den (lastBitExponent num den)).2) (-lastBitExponent num den) ≠ 0 := by
        rw [ne_eq, ← Dyadic.toRat_eq_zero_iff, Dyadic.toRat_ofIntWithPrec_eq_mul_two_pow]
        exact mul_ne_zero (by exact_mod_cast hsignificand) (zpow_pos two_pos _).ne'
      simp only [Bool.false_eq_true, if_false, if_true, neg, if_neg hne, Dyadic.neg_ofIntWithPrec]

theorem ofDecimal_true (digits : Nat) (exponent : Int) :
    ofDecimal true digits exponent = (ofDecimal false digits exponent).neg := by
  unfold ofDecimal
  dsimp only
  split
  · rfl
  split
  · rfl
  split
  · exact ofQuotient_true ..
  · exact ofQuotient_true ..

/-! ### Decimals -/

theorem toDigits_mul_pow {n : Nat} (hn : 0 < n) (zeros : Nat) :
    Nat.toDigits 10 (n * 10 ^ zeros) = Nat.toDigits 10 n ++ List.replicate zeros '0' := by
  induction zeros with
  | zero => simp
  | succ zeros ih =>
      have hpos : 0 < n * 10 ^ zeros := Nat.mul_pos hn (Nat.pow_pos (by decide))
      have hsplit : n * 10 ^ (zeros + 1) = 10 * (n * 10 ^ zeros) + 0 := by ring
      rw [hsplit, ← Nat.toDigits_append_toDigits (by decide) hpos (by decide), ih,
        List.replicate_succ', List.append_assoc]
      rfl

/-- Zeros that are added to the digits of a decimal change nothing if the exponent makes up for
them. -/
theorem ofDecimal_mul_pow (negative : Bool) (digits zeros : Nat) (exponent : Int) :
    ofDecimal negative (digits * 10 ^ zeros) (exponent - zeros) =
      ofDecimal negative digits exponent := by
  rcases Nat.eq_zero_or_pos digits with rfl | hdigits
  · simp [ofDecimal]
  have hlength : ((Nat.toDigits 10 (digits * 10 ^ zeros)).length : Int) + (exponent - zeros) =
      (Nat.toDigits 10 digits).length + exponent := by
    rw [toDigits_mul_pow hdigits, List.length_append, List.length_replicate]
    push_cast
    ring
  have hzero : digits * 10 ^ zeros = 0 ↔ digits = 0 := by simp
  unfold ofDecimal
  simp only [hlength, hzero]
  split
  · rfl
  split
  · rfl
  have hten : ∀ n, 0 < Nat.pow 10 n := fun n => Nat.pow_pos (by decide)
  split
  next hshifted =>
    obtain ⟨rest, hrest⟩ := Int.eq_ofNat_of_zero_le hshifted
    obtain rfl : exponent = zeros + rest := by omega
    rw [if_pos (by omega)]
    congr 1
    rw [hrest, show ((zeros : Int) + rest).toNat = zeros + rest by omega]
    simp only [Int.toNat_natCast, Nat.pow_eq]
    rw [pow_add, mul_assoc]
  next hshifted =>
    split
    next hexponent =>
      obtain ⟨rest, rfl⟩ := Int.eq_ofNat_of_zero_le hexponent
      apply ofQuotient_congr (hten _) Nat.one_pos
      rw [show (-((rest : Int) - zeros)).toNat = zeros - rest by omega, Int.toNat_natCast]
      simp only [Nat.pow_eq]
      rw [mul_one, mul_assoc, ← pow_add, Nat.add_sub_cancel' (by omega)]
    next hexponent =>
      apply ofQuotient_congr (hten _) (hten _)
      rw [show (-(exponent - zeros)).toNat = zeros + (-exponent).toNat by omega]
      simp only [Nat.pow_eq]
      rw [mul_assoc, ← pow_add]

theorem Fits.least_le {value : Dyadic} {significand : Nat} {exponent : Int}
    (h : Fits value significand exponent) : (10 : ℚ) ^ (-324 : Int) ≤ value.toRat := by
  have hpowers : 2 ^ 1074 ≤ 10 ^ 324 := by decide +kernel
  calc (10 : ℚ) ^ (-324 : Int) ≤ 2 ^ leastExponent := by
        rw [leastExponent, zpow_neg, zpow_neg]
        exact inv_anti₀ (zpow_pos two_pos _) (by exact_mod_cast hpowers)
    _ ≤ 2 ^ exponent := zpow_le_zpow_right₀ one_le_two h.least
    _ ≤ significand * 2 ^ exponent :=
      le_mul_of_one_le_left (zpow_pos two_pos _).le (Nat.one_le_cast.mpr h.pos)
    _ = value.toRat := h.value_eq.symm

theorem Fits.lt_greatest {value : Dyadic} {significand : Nat} {exponent : Int}
    (h : Fits value significand exponent) : value.toRat < 10 ^ (309 : Int) := by
  have hpowers : 2 ^ precision * 2 ^ 971 ≤ 10 ^ 309 := by decide +kernel
  calc value.toRat = significand * 2 ^ exponent := h.value_eq
    _ < (2 ^ precision : Nat) * 2 ^ exponent :=
      mul_lt_mul_of_pos_right (Nat.cast_lt.mpr h.bits) (zpow_pos two_pos _)
    _ ≤ (2 ^ precision : Nat) * 2 ^ greatestExponent :=
      mul_le_mul_of_nonneg_left (zpow_le_zpow_right₀ one_le_two h.greatest) (Nat.cast_nonneg _)
    _ ≤ 10 ^ (309 : Int) := by
        rw [greatestExponent]
        exact_mod_cast hpowers

theorem length_toDigits_bounds {n : Nat} (hn : 0 < n) :
    (10 : ℚ) ^ ((Nat.toDigits 10 n).length - 1 : Int) ≤ n ∧
      (n : ℚ) < 10 ^ ((Nat.toDigits 10 n).length : Int) := by
  have hpos : 0 < (Nat.toDigits 10 n).length := Nat.length_toDigits_pos
  obtain ⟨rest, hrest⟩ := Nat.exists_eq_succ_of_ne_zero hpos.ne'
  have hhigh : n < 10 ^ (Nat.toDigits 10 n).length :=
    (Nat.length_toDigits_le_iff (by decide) hpos).mp le_rfl
  have hlow : 10 ^ rest ≤ n := by
    by_contra hless
    rcases Nat.eq_zero_or_pos rest with rfl | hone
    · simp at hless
      omega
    · have hlength := (Nat.length_toDigits_le_iff (by decide) hone).mpr (not_le.mp hless)
      omega
  constructor
  · rw [hrest]
    simpa using (by exact_mod_cast hlow : (10 : ℚ) ^ rest ≤ n)
  · exact_mod_cast hhigh

/-- A decimal that fits is read as itself. -/
theorem ofDecimal_of_fits {digits significand : Nat} {exponent power : Int} {value : Dyadic}
    (h : Fits value significand power) (hvalue : (digits : ℚ) * 10 ^ exponent = value.toRat) :
    ofDecimal false digits exponent = .finite value := by
  have hten : (0 : ℚ) < 10 := by norm_num
  have hleast := h.least_le
  have hgreatest := h.lt_greatest
  have hdigits : 0 < digits := by
    rcases Nat.eq_zero_or_pos digits with rfl | hdigits
    · rw [← hvalue] at hleast
      rw [Nat.cast_zero, zero_mul] at hleast
      exact absurd hleast (not_le.mpr (zpow_pos hten _))
    · exact hdigits
  obtain ⟨hlow, hhigh⟩ := length_toDigits_bounds hdigits
  -- The number of digits and the exponent tell how great the value is.
  have habove : (10 : ℚ) ^ (-324 : Int) < 10 ^ ((Nat.toDigits 10 digits).length + exponent) := by
    refine hleast.trans_lt ?_
    rw [← hvalue, zpow_add₀ hten.ne']
    exact mul_lt_mul_of_pos_right hhigh (zpow_pos hten _)
  have hbelow : (10 : ℚ) ^ ((Nat.toDigits 10 digits).length - 1 + exponent) < 10 ^ (309 : Int) := by
    refine lt_of_le_of_lt ?_ hgreatest
    rw [← hvalue, zpow_add₀ hten.ne']
    exact mul_le_mul_of_nonneg_right hlow (zpow_pos hten _).le
  rw [zpow_lt_zpow_iff_right₀ (by norm_num)] at habove hbelow
  unfold ofDecimal
  dsimp only
  rw [if_neg (by simp; omega), if_neg (by omega)]
  split
  next hexponent =>
    obtain ⟨zeros, rfl⟩ := Int.eq_ofNat_of_zero_le hexponent
    refine ofQuotient_of_fits h Nat.one_pos ?_
    rw [← hvalue]
    simp
  next hexponent =>
    obtain ⟨places, hplaces⟩ := Int.eq_ofNat_of_zero_le (show 0 ≤ -exponent by omega)
    obtain rfl : exponent = -places := by omega
    refine ofQuotient_of_fits h (Nat.pow_pos (by decide)) ?_
    rw [← hvalue]
    simp [div_eq_mul_inv]

/-- What a decimal is rounded to is zero or fits. -/
theorem fits_of_ofDecimal {digits : Nat} {exponent : Int} {value : Dyadic}
    (h : ofDecimal false digits exponent = .finite value) :
    value = 0 ∨ ∃ significand power, Fits value significand power := by
  unfold ofDecimal at h
  dsimp only at h
  split at h
  · exact .inl (finite.inj h).symm
  split at h
  · cases h
  split at h
  · exact fits_of_ofQuotient Nat.one_pos h
  · exact fits_of_ofQuotient (Nat.pow_pos (by decide)) h

end Schemata.Binary64
