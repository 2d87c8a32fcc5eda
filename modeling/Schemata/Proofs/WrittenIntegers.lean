import Schemata.Proofs.Paragraphs
import Schemata.Proofs.Pointers

/-!
# The grammar of written integers

An integer is read from decimal digits of any script, at most 4300 of them, with single
underscores between digits, a sign before them and blanks around them. Nothing else is read as
an integer.
-/

namespace Schemata.Text

/-- One digit or more, with single underscores between them, and the digits alone. -/
inductive Grouped : List Char → List Char → Prop
  | one {c : Char} (hc : isDecimalDigit c = true) : Grouped [c] [c]
  | digit {c : Char} {body digits : List Char} (hc : isDecimalDigit c = true)
      (hrest : Grouped body digits) : Grouped (c :: body) (c :: digits)
  | underscore {c : Char} {body digits : List Char} (hc : isDecimalDigit c = true)
      (hrest : Grouped body digits) : Grouped (c :: '_' :: body) (c :: digits)

/-- A sign, which may be missing, and whether it is a minus sign. -/
inductive Sign : List Char → Bool → Prop
  | none : Sign [] false
  | plus : Sign ['+'] false
  | minus : Sign ['-'] true

/-- A text stands for an integer. -/
inductive WritesInteger : List Char → Int → Prop
  | intro {lead sign body digits trail : List Char} {negative : Bool}
      (hlead : ∀ c ∈ lead, isPadding c = true) (hsign : Sign sign negative)
      (hbody : Grouped body digits) (hlimit : digits.length ≤ digitLimit)
      (htrail : ∀ c ∈ trail, isPadding c = true) :
      WritesInteger (lead ++ (sign ++ body ++ trail))
        (if negative then -(digitsValue digits : Int) else digitsValue digits)

/-! ### Digits of any script -/

theorem decimalDigit?_eq_some {c : Char} {value : Nat} (h : decimalDigit? c = some value) :
    ∃ first ∈ zeros, first ≤ c.toNat ∧ c.toNat < first + 10 ∧ value = c.toNat - first := by
  obtain ⟨first, hfound, rfl⟩ := Option.map_eq_some_iff.mp h
  have hrun : first ≤ c.toNat ∧ c.toNat < first + 10 := by simpa using List.find?_some hfound
  exact ⟨first, List.mem_of_find?_eq_some hfound, hrun.1, hrun.2, rfl⟩

theorem not_isPadding_of_isDecimalDigit {c : Char} (h : isDecimalDigit c = true) :
    isPadding c = false := by
  -- No run of digits holds a blank.
  have hapart : ∀ first ∈ zeros, ∀ interval ∈ blanks.intervals,
      interval.2 < first ∨ first + 10 ≤ interval.1 := by decide
  obtain ⟨value, hvalue⟩ := Option.isSome_iff_exists.mp h
  obtain ⟨first, hfirst, hlow, hhigh, -⟩ := decimalDigit?_eq_some hvalue
  have hblank : isBlank c = false := by
    rw [isBlank, Bool.eq_false_iff, Ne, CharSet.contains_eq_true_iff]
    rintro ⟨interval, hinterval, hfrom, hto⟩
    have hdisjoint := hapart first hfirst interval hinterval
    omega
  rw [isPadding, hblank, Bool.false_and]

theorem digitsValue_lt (digits : List Char) : digitsValue digits < 10 ^ digits.length := by
  have hdigit : ∀ c : Char, (decimalDigit? c).getD 0 ≤ 9 := by
    intro c
    cases h : decimalDigit? c with
    | none => decide
    | some value =>
        obtain ⟨first, -, hlow, hhigh, rfl⟩ := decimalDigit?_eq_some h
        rw [Option.getD_some]
        omega
  have hfold : ∀ value, digits.foldl (fun n c => 10 * n + (decimalDigit? c).getD 0) value <
      (value + 1) * 10 ^ digits.length := by
    induction digits with
    | nil => intro value; simp
    | cons c rest ih =>
        intro value
        have hc := hdigit c
        calc (c :: rest).foldl (fun n c => 10 * n + (decimalDigit? c).getD 0) value
            < (10 * value + (decimalDigit? c).getD 0 + 1) * 10 ^ rest.length := ih _
          _ ≤ (10 * (value + 1)) * 10 ^ rest.length := Nat.mul_le_mul_right _ (by omega)
          _ = (value + 1) * 10 ^ (c :: rest).length := by
            rw [List.length_cons, Nat.pow_succ, Nat.mul_comm 10, Nat.mul_assoc, Nat.mul_comm 10]
  simpa [digitsValue] using hfold 0

theorem ne_underscore_of_isDecimalDigit {c : Char} (h : isDecimalDigit c = true) : c ≠ '_' := by
  rintro rfl
  exact absurd h (by decide)

/-! ### Digits with underscores between them -/

theorem underscoresBetween_cons {c : Char} (hc : c ≠ '_') (rest : List Char) :
    underscoresBetween (c :: rest) = underscoresBetween rest := by
  rw [underscoresBetween]
  · rintro rfl
    exact absurd rfl hc
  · rintro _ rfl
    exact absurd rfl hc

theorem underscoresBetween_underscore {c : Char} (hc : c ≠ '_') (rest : List Char) :
    underscoresBetween ('_' :: c :: rest) = underscoresBetween (c :: rest) := by
  rw [underscoresBetween]
  · exact fun _ h => absurd h (List.cons_ne_nil _ _)
  · exact fun _ _ h => absurd (List.cons.inj h).1 hc

namespace Grouped

variable {body digits : List Char}

theorem exists_cons (h : Grouped body digits) :
    ∃ c rest, body = c :: rest ∧ isDecimalDigit c = true := by
  cases h with
  | one hc => exact ⟨_, _, rfl, hc⟩
  | digit hc => exact ⟨_, _, rfl, hc⟩
  | underscore hc => exact ⟨_, _, rfl, hc⟩

theorem ne_nil (h : Grouped body digits) : body ≠ [] := by
  cases h <;> exact List.cons_ne_nil _ _

theorem digits_ne_nil (h : Grouped body digits) : digits ≠ [] := by
  cases h <;> exact List.cons_ne_nil _ _

theorem not_isPadding (h : Grouped body digits) : ∀ c ∈ body, isPadding c = false := by
  induction h with
  | one hc => simpa using not_isPadding_of_isDecimalDigit hc
  | digit hc _ ih =>
      exact List.forall_mem_cons.mpr ⟨not_isPadding_of_isDecimalDigit hc, ih⟩
  | underscore hc _ ih =>
      exact List.forall_mem_cons.mpr ⟨not_isPadding_of_isDecimalDigit hc,
        List.forall_mem_cons.mpr ⟨by decide, ih⟩⟩

theorem takeWhile_eq (h : Grouped body digits) :
    body.takeWhile (fun c => isDecimalDigit c || c = '_') = body := by
  induction h with
  | one hc => simp [hc]
  | digit hc _ ih => simp [hc, ih]
  | underscore hc _ ih => simp [hc, ih]

theorem filter_eq (h : Grouped body digits) : body.filter (· ≠ '_') = digits := by
  induction h with
  | one hc => simp [ne_underscore_of_isDecimalDigit hc]
  | digit hc _ ih => simp [ne_underscore_of_isDecimalDigit hc, ← ih]
  | underscore hc _ ih => simp [ne_underscore_of_isDecimalDigit hc, ← ih]

theorem underscoresBetween_eq (h : Grouped body digits) : underscoresBetween body = true := by
  induction h with
  | one hc => rw [underscoresBetween_cons (ne_underscore_of_isDecimalDigit hc), underscoresBetween]
  | digit hc _ ih => rw [underscoresBetween_cons (ne_underscore_of_isDecimalDigit hc), ih]
  | underscore hc hrest ih =>
      obtain ⟨next, rest, rfl, hnext⟩ := hrest.exists_cons
      rw [underscoresBetween_cons (ne_underscore_of_isDecimalDigit hc),
        underscoresBetween_underscore (ne_underscore_of_isDecimalDigit hnext), ih]

/-- A digit followed by digits and underscores is grouped if the underscores stand between
digits. -/
theorem of_underscoresBetween {c : Char} {run : List Char} (hc : isDecimalDigit c = true)
    (hrun : ∀ d ∈ run, isDecimalDigit d = true ∨ d = '_')
    (hbetween : underscoresBetween run = true) :
    Grouped (c :: run) (c :: run.filter (· ≠ '_')) := by
  induction run using underscoresBetween.induct generalizing c with
  | case1 => exact .one hc
  | case2 => exact absurd hbetween (by decide)
  | case3 => simp [underscoresBetween] at hbetween
  | case4 d rest hend htwice ih =>
      rw [underscoresBetween.eq_4 d rest hend htwice] at hbetween
      have hrest : ∀ e ∈ rest, isDecimalDigit e = true ∨ e = '_' :=
        fun e he => hrun e (List.mem_cons_of_mem _ he)
      rcases hrun d List.mem_cons_self with hd | rfl
      · rw [List.filter_cons_of_pos (by simpa using ne_underscore_of_isDecimalDigit hd)]
        exact .digit hc (ih hd hrest hbetween)
      -- After an underscore comes a digit, with which the rest is grouped.
      · have hgrouped := ih hc hrest hbetween
        rw [List.filter_cons_of_neg (by simp)]
        cases hgrouped with
        | one => exact absurd rfl (hend rfl)
        | digit _ hlater => exact .underscore hc hlater
        | underscore => exact absurd rfl (htwice _ rfl)

end Grouped

/-! ### Reading -/

theorem readNatural_eq_ok_iff {text : List Char} {n : Nat} :
    readNatural text = .ok n ↔
      ∃ digits, Grouped text digits ∧ digits.length ≤ digitLimit ∧ n = digitsValue digits := by
  constructor
  · intro h
    unfold readNatural at h
    dsimp only at h
    split at h
    · exact absurd h nofun
    next hplaced =>
      split at h
      · exact absurd h nofun
      next hlimit =>
        split at h
        · exact absurd h nofun
        next hwhole =>
          simp only [Bool.or_eq_true, decide_eq_true_eq, not_or, Bool.not_eq_true,
            Bool.not_eq_false', List.isEmpty_eq_false_iff] at hplaced hwhole
          -- The run of digits and underscores does not end before the text.
          have hrun := List.takeWhile_eq_self_iff.mp
            ((List.takeWhile_prefix _).eq_of_length_le (Nat.not_lt.mp hwhole.2))
          rw [List.takeWhile_eq_self_iff.mpr hrun] at h hplaced hlimit hwhole
          obtain ⟨c, rest, rfl⟩ : ∃ c rest, text = c :: rest := by
            refine List.exists_cons_of_ne_nil ?_
            rintro rfl
            exact hwhole.1 rfl
          have hfirst : c ≠ '_' := by simpa using hplaced.1
          simp only [Bool.or_eq_true, decide_eq_true_eq, List.forall_mem_cons] at hrun
          rw [underscoresBetween_cons hfirst] at hplaced
          have hgrouped := Grouped.of_underscoresBetween (hrun.1.resolve_right hfirst) hrun.2
            hplaced.2
          rw [← List.filter_cons_of_pos (by simpa using hfirst)] at hgrouped
          exact ⟨_, hgrouped, Nat.not_lt.mp hlimit, (Except.ok.inj h).symm⟩
  · rintro ⟨digits, hgrouped, hlimit, rfl⟩
    obtain ⟨c, rest, htext, hc⟩ := hgrouped.exists_cons
    have hhead : text.head? ≠ some '_' := by
      rw [htext, List.head?_cons, Ne, Option.some.injEq]
      exact ne_underscore_of_isDecimalDigit hc
    simp only [readNatural, hgrouped.takeWhile_eq, hgrouped.filter_eq,
      hgrouped.underscoresBetween_eq]
    simp [hgrouped.digits_ne_nil, hhead, hlimit]

theorem Sign.not_isPadding {sign : List Char} {negative : Bool} (h : Sign sign negative) :
    ∀ c ∈ sign, isPadding c = false := by
  cases h with
  | none => exact List.forall_mem_nil _
  | plus => exact List.forall_mem_singleton.mpr (by decide)
  | minus => exact List.forall_mem_singleton.mpr (by decide)

theorem sign_splitSign (text : List Char) :
    ∃ sign, Sign sign (splitSign text).1 ∧ text = sign ++ (splitSign text).2 := by
  unfold splitSign
  split
  · exact ⟨['+'], .plus, rfl⟩
  · exact ⟨['-'], .minus, rfl⟩
  · exact ⟨[], .none, rfl⟩

theorem splitSign_append {sign body digits : List Char} {negative : Bool}
    (hsign : Sign sign negative) (hbody : Grouped body digits) :
    splitSign (sign ++ body) = (negative, body) := by
  cases hsign with
  | plus | minus => rfl
  | none =>
      obtain ⟨c, rest, rfl, hc⟩ := hbody.exists_cons
      rw [List.nil_append, splitSign]
      all_goals
        rintro _ heq
        obtain ⟨rfl, -⟩ := List.cons.inj heq
        exact absurd hc (by decide)

theorem trim_padded {drop : Char → Bool} {lead core trail : List Char}
    (hlead : ∀ c ∈ lead, drop c = true) (hkept : ∀ c ∈ core, drop c = false) (hcore : core ≠ [])
    (htrail : ∀ c ∈ trail, drop c = true) : trim drop (lead ++ (core ++ trail)) = core := by
  obtain ⟨c, rest, rfl⟩ := List.exists_cons_of_ne_nil hcore
  have hfront : (c :: rest).dropWhile drop = c :: rest :=
    List.dropWhile_cons_of_neg (by simp [hkept c List.mem_cons_self])
  calc trim drop (lead ++ (c :: rest ++ trail))
      = trim drop (c :: rest) := by
        rw [trim, trim, List.dropWhile_append_of_pos hlead, hfront, List.cons_append,
          List.dropWhile_cons_of_neg (by simp [hkept c List.mem_cons_self]), ← List.cons_append,
          List.reverse_append, List.dropWhile_append_of_pos (by simpa using htrail)]
    _ = c :: rest := trim_eq_self hkept

theorem readInteger_eq (text : List Char) :
    readInteger text = (readNatural (splitSign (trim isPadding text)).2).map fun n : Nat =>
      if (splitSign (trim isPadding text)).1 then -(n : Int) else n := by
  cases h : readNatural (splitSign (trim isPadding text)).2 <;> simp only [readInteger, h] <;> rfl

/-- The integers that are read are those that the grammar derives. -/
theorem readInteger_eq_ok_iff {text : List Char} {n : Int} :
    readInteger text = .ok n ↔ WritesInteger text n := by
  rw [readInteger_eq]
  constructor
  · intro h
    obtain ⟨natural, hnatural, rfl⟩ := map_eq_ok.mp h
    obtain ⟨lead, trail, htext, hlead, htrail⟩ := exists_trimmed isPadding text
    obtain ⟨sign, hsign, htrimmed⟩ := sign_splitSign (trim isPadding text)
    obtain ⟨digits, hbody, hlimit, rfl⟩ := readNatural_eq_ok_iff.mp hnatural
    have hwrites := WritesInteger.intro hlead hsign hbody hlimit htrail
    rwa [← htrimmed, ← htext] at hwrites
  · rintro ⟨hlead, hsign, hbody, hlimit, htrail⟩
    have hcore : ∀ c ∈ _ ++ _, isPadding c = false := fun c hc =>
      (List.mem_append.mp hc).elim (hsign.not_isPadding c) (hbody.not_isPadding c)
    rw [trim_padded hlead hcore (List.append_ne_nil_of_right_ne_nil _ hbody.ne_nil) htrail,
      splitSign_append hsign hbody, readNatural_eq_ok_iff.mpr ⟨_, hbody, hlimit, rfl⟩]
    rfl

namespace WritesInteger

variable {text : List Char} {n : Int}

/-- What is read is not too long to be read again. -/
theorem natAbs_lt (h : WritesInteger text n) : n.natAbs < 10 ^ digitLimit := by
  obtain @⟨_, _, _, digits, _, negative, -, -, -, hlimit, -⟩ := h
  calc _ = digitsValue digits := by cases negative <;> simp
    _ < 10 ^ digits.length := digitsValue_lt digits
    _ ≤ 10 ^ digitLimit := Nat.pow_le_pow_right (by decide) hlimit

theorem nonneg (h : WritesInteger text n) (hminus : '-' ∉ text) : 0 ≤ n := by
  obtain @⟨_, _, _, digits, _, _, -, hsign, -, -, -⟩ := h
  cases hsign with
  | none | plus => simp
  | minus => simp at hminus

end WritesInteger

end Schemata.Text
