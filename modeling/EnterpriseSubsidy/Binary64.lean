import Mathlib

/-!
# Finite binary64 values, as Python's `float` rounds them

`price_for_content` converts the catalog's price with `int(float(price) * CENTS_PER_DOLLAR)`: a
conversion to the IEEE 754 binary64 value nearest the price, ties to even; a product rounded the
same way; and a truncation toward zero. A finite binary64 value is kept as its sign and its
magnitude in units of `2^-1074`, the smallest subnormal (`Binary64.mag`), so that a rounded value and
the exact value `a / d` it stands for compare as naturals: `x.mag * d` against `a`.

`round` finds the unit of the binade of `a / d` (`ulp`, the least exponent `p` with
`a < d * 2^(p + 53)`) and takes the nearest multiple of that unit (`rne`); a significand that rounds
up to `2^53` moves to the next binade, and past the largest binade the value is an infinity (`none`).
`ofDecimal` is `float` of a number written in decimal, `mulNat` the product by an `int` that `float`
holds exactly, and `toInt` is `int`. A finite result is within half a unit of `a / d`
(`round_error`), so within `2^-53` of a normal value relative to it (`round_rel_error`); it is finite
below `2^1023` (`round_isSome`); a value on its unit's grid is its own rounding (`round_exact`); and
a larger value never rounds to a smaller magnitude (`round_mono`).
-/

namespace EnterpriseSubsidy

/-- A number as it is written in decimal, in the catalog's JSON or in a string:
`digits * 10^exponent`. -/
structure Decimal where
  digits : Int
  exponent : Int
  deriving DecidableEq, Repr

/-- The value of a decimal number. -/
def Decimal.value (x : Decimal) : ℚ := x.digits * 10 ^ x.exponent

/-- A decimal is nonnegative exactly when its digits are. -/
theorem Decimal.value_nonneg_iff (x : Decimal) : 0 ≤ x.value ↔ 0 ≤ x.digits := by
  rw [Decimal.value, mul_nonneg_iff_of_pos_right (zpow_pos (by norm_num) _), Int.cast_nonneg]

/-- A decimal is negative exactly when its digits are. -/
theorem Decimal.value_neg_iff (x : Decimal) : x.value < 0 ↔ x.digits < 0 := by
  simpa only [not_le] using x.value_nonneg_iff.not

/-- The absolute value of a decimal is its digits' magnitude times `10^e` over `10^-e`, whichever
the sign of its exponent. -/
theorem Decimal.abs_value (x : Decimal) :
    |x.value| = ((x.digits.natAbs * 10 ^ x.exponent.toNat : ℕ) : ℚ) /
      ((10 ^ (-x.exponent).toNat : ℕ) : ℚ) := by
  rw [Decimal.value, abs_mul, abs_of_pos (zpow_pos (by norm_num : (0 : ℚ) < 10) _), Nat.cast_mul,
    Nat.cast_natAbs, Int.cast_abs]
  obtain ⟨k, hk | hk⟩ := Int.eq_nat_or_neg x.exponent <;> rw [hk]
  · simp
  · simp [div_eq_mul_inv]

/-- A finite binary64 value: its sign, and its magnitude `sig * 2^uexp` in units of `2^-1074`. The
significand has 53 bits unless the unit is the smallest, where the subnormal values are, and the
largest unit is `2^971`. -/
structure Binary64 where
  negative : Bool
  sig : Nat
  uexp : Nat
  sig_lt : sig < 2 ^ 53
  normal : uexp = 0 ∨ 2 ^ 52 ≤ sig
  uexp_le : uexp ≤ 2045
  deriving DecidableEq

namespace Binary64

section

-- the unit search compares with `d * 2^(p + 53)` for `p` up to `2045`: let those powers evaluate
set_option exponentiation.threshold 2200

/-- The magnitude, in units of `2^-1074`. -/
def mag (x : Binary64) : Nat := x.sig * 2 ^ x.uexp

/-! ## The nearest quotient, ties to even -/

/-- `a / d` rounded to the nearest natural, ties to the even one. -/
def rne (a d : Nat) : Nat :=
  if 2 * (a % d) < d then a / d
  else if d < 2 * (a % d) then a / d + 1
  else if a / d % 2 = 0 then a / d else a / d + 1

/-- `rne` rounds down, when the remainder is at most half of `d`, or up, when it is at least half. -/
theorem rne_cases (a d : Nat) :
    (rne a d = a / d ∧ 2 * (a % d) ≤ d) ∨ (rne a d = a / d + 1 ∧ d ≤ 2 * (a % d)) := by
  unfold rne
  split_ifs <;> omega

/-- The multiple of `d` that `rne` picks is within `d / 2` of `a`. -/
theorem rne_mul_near (a d : Nat) (hd : 0 < d) :
    2 * (rne a d * d) ≤ 2 * a + d ∧ 2 * a ≤ 2 * (rne a d * d) + d := by
  have ha := Nat.div_add_mod' a d
  have hr := Nat.mod_lt a hd
  rcases rne_cases a d with ⟨he, h2⟩ | ⟨he, h2⟩ <;> rw [he]
  · omega
  · rw [Nat.add_mul, Nat.one_mul]; omega

/-- A multiple of `d` is its own nearest. -/
theorem rne_mul_self (m d : Nat) (hd : 0 < d) : rne (m * d) d = m := by
  simp [rne, Nat.mul_mod_left, Nat.mul_div_cancel _ hd, hd]

/-- The nearest quotient is at most one above the quotient. -/
theorem rne_le (a d : Nat) : rne a d ≤ a / d + 1 := by
  rcases rne_cases a d with ⟨he, -⟩ | ⟨he, -⟩ <;> omega

/-- The nearest quotient is at least the quotient. -/
theorem div_le_rne (a d : Nat) : a / d ≤ rne a d := by
  rcases rne_cases a d with ⟨he, -⟩ | ⟨he, -⟩ <;> omega

/-- At a tie, `rne` takes the even quotient. -/
theorem rne_of_tie {a d : Nat} (h : 2 * (a % d) = d) :
    rne a d = if a / d % 2 = 0 then a / d else a / d + 1 := by
  unfold rne
  rw [if_neg (by omega), if_neg (by omega)]

/-- The nearest quotient is monotone in the value `a / d`; at two ties of the same value it takes
the same even quotient. -/
theorem rne_mono {a d a' d' : Nat} (hd : 0 < d) (hd' : 0 < d') (h : a * d' ≤ a' * d) :
    rne a d ≤ rne a' d' := by
  have hq : a / d ≤ a' / d' := by
    rw [Nat.le_div_iff_mul_le hd']
    refine Nat.le_of_mul_le_mul_right ?_ hd
    calc a / d * d' * d = a / d * d * d' := by ring
      _ ≤ a * d' := Nat.mul_le_mul_right _ (Nat.div_mul_le_self a d)
      _ ≤ a' * d := h
  rcases rne_cases a d with ⟨he, h2⟩ | ⟨he, h2⟩ <;>
    rcases rne_cases a' d' with ⟨he', h2'⟩ | ⟨he', h2'⟩ <;> rw [he, he'] <;> try omega
  -- `a` rounds up and `a'` down: with equal quotients, both are ties, broken the same way
  rcases Nat.lt_or_ge (a / d) (a' / d') with hlt | hge
  · omega
  have hqe : a / d = a' / d' := le_antisymm hq hge
  have hr : a % d * d' ≤ a' % d' * d := by
    have e : a * d' = a / d * (d * d') + a % d * d' := by
      conv_lhs => rw [← Nat.div_add_mod a d]
      ring
    have e' : a' * d = a' / d' * (d * d') + a' % d' * d := by
      conv_lhs => rw [← Nat.div_add_mod a' d']
      ring
    rw [e, e', hqe] at h
    omega
  have h1 : d * d' ≤ 2 * (a % d * d') := by
    rw [← Nat.mul_assoc]; exact Nat.mul_le_mul_right _ h2
  have h3 : 2 * (a' % d' * d) ≤ d * d' := by
    rw [← Nat.mul_assoc, Nat.mul_comm d]; exact Nat.mul_le_mul_right _ h2'
  have ht : 2 * (a % d) = d := Nat.eq_of_mul_eq_mul_right hd' (by rw [Nat.mul_assoc]; omega)
  have ht' : 2 * (a' % d') = d' :=
    Nat.eq_of_mul_eq_mul_right hd (by rw [Nat.mul_assoc, Nat.mul_comm d' d]; omega)
  rw [rne_of_tie ht] at he
  rw [rne_of_tie ht'] at he'
  split_ifs at he he' <;> omega

/-- The nearest quotient depends only on the fraction: scaling `a` and `d` by `k` leaves it. -/
theorem rne_mul_right {a d k : Nat} (hk : 0 < k) : rne (a * k) (d * k) = rne a d := by
  simp only [rne, Nat.mul_div_mul_right _ _ hk, Nat.mul_mod_mul_right, ← Nat.mul_assoc,
    Nat.mul_lt_mul_right hk]

/-! ## The unit of a binade -/

/-- The least `p` in `[lo, hi)` with `a < d * 2^(p + 53)`, so that `a / d` has at most 53 bits in
units of `2^p`, or `hi` when there is none: a binary search, in `k` halvings. -/
def unitExponent (a d : Nat) : Nat → Nat → Nat → Nat
  | 0, lo, _ => lo
  | k + 1, lo, hi =>
    if lo < hi then
      if a < d * 2 ^ ((lo + hi) / 2 + 53) then unitExponent a d k lo ((lo + hi) / 2)
      else unitExponent a d k ((lo + hi) / 2 + 1) hi
    else lo

variable {a d : Nat}

/-- The test only gets easier as the exponent grows. -/
theorem bound_mono {p q : Nat} (hpq : p ≤ q) : d * 2 ^ (p + 53) ≤ d * 2 ^ (q + 53) :=
  Nat.mul_le_mul_left d (Nat.pow_le_pow_right (by norm_num) (by omega))

/-- With enough halvings, the search finds the least exponent of `[lo, hi)` that passes the test,
or `hi`. -/
theorem unitExponent_spec {k lo hi : Nat} (hlo : lo ≤ hi) (hk : hi - lo < 2 ^ k) :
    lo ≤ unitExponent a d k lo hi ∧ unitExponent a d k lo hi ≤ hi ∧
      (unitExponent a d k lo hi < hi → a < d * 2 ^ (unitExponent a d k lo hi + 53)) ∧
      ∀ q, lo ≤ q → q < unitExponent a d k lo hi → d * 2 ^ (q + 53) ≤ a := by
  induction k generalizing lo hi with
  | zero =>
    have : hi = lo := by simp at hk; omega
    subst this
    simp only [unitExponent]
    exact ⟨le_rfl, le_rfl, fun h => absurd h (lt_irrefl _), fun q h h' => absurd h' (by omega)⟩
  | succ k ih =>
    simp only [unitExponent]
    have hk' : 2 ^ (k + 1) = 2 * 2 ^ k := by ring
    split_ifs with hlt hmid
    · -- the middle passes: the least is in the lower half
      obtain ⟨h1, h2, h3, h4⟩ := @ih lo ((lo + hi) / 2) (by omega) (by omega)
      refine ⟨h1, by omega, fun hr => ?_, h4⟩
      rcases Nat.lt_or_ge (unitExponent a d k lo ((lo + hi) / 2)) ((lo + hi) / 2) with h | h
      · exact h3 h
      · rwa [show unitExponent a d k lo ((lo + hi) / 2) = (lo + hi) / 2 by omega]
    · -- the middle fails, and so does every exponent below it
      obtain ⟨h1, h2, h3, h4⟩ := @ih ((lo + hi) / 2 + 1) hi (by omega) (by omega)
      refine ⟨by omega, h2, h3, fun q hq hqr => ?_⟩
      rcases Nat.lt_or_ge q ((lo + hi) / 2 + 1) with h | h
      · exact le_trans (bound_mono (by omega)) (Nat.le_of_not_lt hmid)
      · exact h4 q h hqr
    · exact ⟨le_rfl, hlo, fun h => absurd h (by omega), fun q h h' => absurd h' (by omega)⟩

/-- The unit search depends only on the fraction: its test is the same for `a * k` over `d * k`. -/
theorem unitExponent_mul_right {k : Nat} (hk : 0 < k) (n lo hi : Nat) :
    unitExponent (a * k) (d * k) n lo hi = unitExponent a d n lo hi := by
  induction n generalizing lo hi with
  | zero => rfl
  | succ n ih => simp only [unitExponent, ih, Nat.mul_right_comm d k, Nat.mul_lt_mul_right hk]

/-- The unit exponent of `a / d` in binary64: at most `2045`, or `2046` past the largest binade. -/
def ulp (a d : Nat) : Nat := unitExponent a d 12 0 2046

/-- The unit exponent depends only on the fraction. -/
theorem ulp_mul_right {k : Nat} (hk : 0 < k) : ulp (a * k) (d * k) = ulp a d :=
  unitExponent_mul_right hk _ _ _

/-- What the search finds for the unit exponent. -/
theorem ulp_spec :
    ulp a d ≤ 2046 ∧ (ulp a d < 2046 → a < d * 2 ^ (ulp a d + 53)) ∧
      ∀ q, q < ulp a d → d * 2 ^ (q + 53) ≤ a := by
  obtain ⟨-, h2, h3, h4⟩ := @unitExponent_spec a d 12 0 2046 (by norm_num) (by norm_num)
  exact ⟨h2, h3, fun q => h4 q (Nat.zero_le q)⟩

/-- Within the binades, `a / d` is below `2^53` units. -/
theorem lt_of_ulp_le (h : ulp a d ≤ 2045) : a < d * 2 ^ (ulp a d + 53) :=
  ulp_spec.2.1 (by omega)

/-- Above the smallest unit, `a / d` is at least `2^52` units. -/
theorem le_of_ulp_pos (h : 0 < ulp a d) : d * 2 ^ (ulp a d + 52) ≤ a := by
  have := (@ulp_spec a d).2.2 (ulp a d - 1) (by omega)
  rwa [show ulp a d - 1 + 53 = ulp a d + 52 by omega] at this

/-- The unit exponent is the least that passes the test. -/
theorem ulp_le_of_lt {q : Nat} (h : a < d * 2 ^ (q + 53)) : ulp a d ≤ q :=
  Nat.le_of_not_lt fun hlt => absurd (ulp_spec.2.2 q hlt) (Nat.not_le.mpr h)

/-- Within the binades the unit is positive: `d` is. -/
theorem unit_pos (h : ulp a d ≤ 2045) : 0 < d * 2 ^ ulp a d := by
  have h53 := lt_of_ulp_le h
  have hd : 0 < d := Nat.pos_of_ne_zero fun hd => by
    rw [hd, Nat.zero_mul] at h53
    exact Nat.not_lt_zero a h53
  exact Nat.mul_pos hd (Nat.two_pow_pos _)

/-- At its unit, `a / d` rounds to a significand of at most 53 bits. -/
theorem rne_ulp_le (h : ulp a d ≤ 2045) : rne a (d * 2 ^ ulp a d) ≤ 2 ^ 53 := by
  have hlt : a / (d * 2 ^ ulp a d) < 2 ^ 53 := by
    rw [Nat.div_lt_iff_lt_mul (unit_pos h)]
    calc a < d * 2 ^ (ulp a d + 53) := lt_of_ulp_le h
      _ = 2 ^ 53 * (d * 2 ^ ulp a d) := by ring
  have := rne_le a (d * 2 ^ ulp a d)
  omega

/-- At its unit, `a / d` rounds to a significand of 53 bits unless the unit is the smallest. -/
theorem rne_ulp_normal (h : ulp a d ≤ 2045) : ulp a d = 0 ∨ 2 ^ 52 ≤ rne a (d * 2 ^ ulp a d) := by
  rcases Nat.eq_zero_or_pos (ulp a d) with h0 | hpos
  · exact .inl h0
  · refine .inr (le_trans ?_ (div_le_rne a _))
    rw [Nat.le_div_iff_mul_le (unit_pos h)]
    calc 2 ^ 52 * (d * 2 ^ ulp a d) = d * 2 ^ (ulp a d + 52) := by ring
      _ ≤ a := le_of_ulp_pos hpos

/-! ## Rounding -/

/-- `±a / d`, in units of `2^-1074`, rounded to the nearest binary64 value, ties to even: the nearest
multiple of the unit of its binade, moved to the next binade when it reaches `2^53` units. `none` is
an infinity: the value rounds past the largest finite one. -/
def round (negative : Bool) (a d : Nat) : Option Binary64 :=
  if hp : ulp a d ≤ 2045 then
    if hm : rne a (d * 2 ^ ulp a d) < 2 ^ 53 then
      some ⟨negative, rne a (d * 2 ^ ulp a d), ulp a d, hm, rne_ulp_normal hp, hp⟩
    else if hc : ulp a d + 1 ≤ 2045 then
      some ⟨negative, 2 ^ 52, ulp a d + 1, by norm_num, .inr le_rfl, hc⟩
    else none
  else none

variable {s : Bool} {x : Binary64}

/-- A finite rounding keeps the sign, and its magnitude is the nearest multiple of the unit. -/
theorem round_eq_some (h : round s a d = some x) :
    x.negative = s ∧ ulp a d ≤ 2045 ∧ x.mag = rne a (d * 2 ^ ulp a d) * 2 ^ ulp a d := by
  unfold round at h
  split_ifs at h with hp hm hc <;> cases h
  · exact ⟨rfl, hp, rfl⟩
  · -- the significand rounded up to `2^53`: the same value, one binade up
    have h53 : rne a (d * 2 ^ ulp a d) = 2 ^ 53 := le_antisymm (rne_ulp_le hp) (Nat.not_lt.mp hm)
    refine ⟨rfl, hp, ?_⟩
    rw [h53, mag]
    ring

/-- Rounding depends only on the fraction: scaling `a` and `d` by `k` leaves it. -/
theorem round_mul_right {k : Nat} (hk : 0 < k) : round s (a * k) (d * k) = round s a d := by
  have hr : rne (a * k) (d * k * 2 ^ ulp a d) = rne a (d * 2 ^ ulp a d) := by
    rw [Nat.mul_right_comm d k, rne_mul_right hk]
  unfold round
  simp only [ulp_mul_right hk, hr]

/-- Two fractions of one value round alike. -/
theorem round_congr {a' d' : Nat} (hd : 0 < d) (hd' : 0 < d') (h : a * d' = a' * d) :
    round s a d = round s a' d' := by
  rw [← round_mul_right hd', h, Nat.mul_comm d d', round_mul_right hd]

/-- A finite rounding is within half a unit of `a / d`. -/
theorem round_error (h : round s a d = some x) :
    2 * (x.mag * d) ≤ 2 * a + d * 2 ^ ulp a d ∧ 2 * a ≤ 2 * (x.mag * d) + d * 2 ^ ulp a d := by
  obtain ⟨-, hp, hm⟩ := round_eq_some h
  have hd : x.mag * d = rne a (d * 2 ^ ulp a d) * (d * 2 ^ ulp a d) := by rw [hm]; ring
  rw [hd]
  exact rne_mul_near a _ (unit_pos hp)

/-- Relative to a normal value, at least `2^-1022`, a finite rounding is within `2^-53` of it. -/
theorem round_rel_error (h : round s a d = some x) (hn : d * 2 ^ 52 ≤ a) :
    2 ^ 53 * (x.mag * d) ≤ (2 ^ 53 + 1) * a ∧ (2 ^ 53 - 1) * a ≤ 2 ^ 53 * (x.mag * d) := by
  have he := round_error h
  -- half a unit is at most `2^-53` of the value
  have hu : 2 ^ 52 * (d * 2 ^ ulp a d) ≤ a := by
    rcases Nat.eq_zero_or_pos (ulp a d) with h0 | hpos
    · rw [h0]; simpa [Nat.mul_comm] using hn
    · calc 2 ^ 52 * (d * 2 ^ ulp a d) = d * 2 ^ (ulp a d + 52) := by ring
        _ ≤ a := le_of_ulp_pos hpos
  generalize d * 2 ^ ulp a d = u at he hu
  generalize x.mag * d = m at he
  constructor <;> omega

/-- Below `2^1023` in value, the rounding is finite. -/
theorem round_isSome (h : a < d * 2 ^ (2044 + 53)) : ∃ x, round s a d = some x := by
  have hp : ulp a d ≤ 2044 := ulp_le_of_lt h
  unfold round
  rw [dif_pos (by omega)]
  split_ifs with hm hc
  · exact ⟨_, rfl⟩
  · exact ⟨_, rfl⟩
  · exact absurd (by omega) hc

/-- A value on the grid of its unit is its own rounding. -/
theorem round_exact (h : round s a d = some x) (hdvd : d * 2 ^ ulp a d ∣ a) : x.mag * d = a := by
  obtain ⟨-, hp, hm⟩ := round_eq_some h
  obtain ⟨k, hk⟩ := hdvd
  have hu := unit_pos hp
  generalize ulp a d = p at hm hk hu
  subst hk
  rw [hm, Nat.mul_comm _ k, rne_mul_self k _ hu]
  ring

/-- Rounding is monotone: a larger value never rounds to a smaller magnitude. -/
theorem round_mono {a' d' : Nat} {s' : Bool} {x' : Binary64} (hd : 0 < d) (h : a * d' ≤ a' * d)
    (hx : round s a d = some x) (hx' : round s' a' d' = some x') : x.mag ≤ x'.mag := by
  obtain ⟨-, hp, hm⟩ := round_eq_some hx
  obtain ⟨-, hp', hm'⟩ := round_eq_some hx'
  -- the larger value has the larger unit
  have hpp : ulp a d ≤ ulp a' d' := by
    refine ulp_le_of_lt (Nat.lt_of_mul_lt_mul_right (show a * d' < _ * d' from ?_))
    calc a * d' ≤ a' * d := h
      _ < d' * 2 ^ (ulp a' d' + 53) * d := Nat.mul_lt_mul_of_pos_right (lt_of_ulp_le hp') hd
      _ = d * 2 ^ (ulp a' d' + 53) * d' := by ring
  rw [hm, hm']
  rcases Nat.lt_or_ge (ulp a d) (ulp a' d') with hlt | hge
  · -- a smaller unit: below `2^53` of its units, against at least `2^52` of the larger
    calc rne a (d * 2 ^ ulp a d) * 2 ^ ulp a d ≤ 2 ^ 53 * 2 ^ ulp a d :=
          Nat.mul_le_mul_right _ (rne_ulp_le hp)
      _ = 2 ^ 52 * 2 ^ (ulp a d + 1) := by ring
      _ ≤ 2 ^ 52 * 2 ^ ulp a' d' := Nat.mul_le_mul_left _ (Nat.pow_le_pow_right (by norm_num) hlt)
      _ ≤ rne a' (d' * 2 ^ ulp a' d') * 2 ^ ulp a' d' :=
          Nat.mul_le_mul_right _ ((rne_ulp_normal hp').resolve_left (by omega))
  · -- the same unit: the nearest quotients are ordered
    have hpe : ulp a d = ulp a' d' := le_antisymm hpp hge
    have hu := unit_pos hp
    rw [hpe] at hu ⊢
    refine Nat.mul_le_mul_right _ (rne_mono hu (unit_pos hp') ?_)
    calc a * (d' * 2 ^ ulp a' d') = a * d' * 2 ^ ulp a' d' := by ring
      _ ≤ a' * d * 2 ^ ulp a' d' := Nat.mul_le_mul_right _ h
      _ = a' * (d * 2 ^ ulp a' d') := by ring

/-- A natural below `2^53` is a binary64 value exactly. -/
theorem round_nat {n : Nat} (hn : n < 2 ^ 53) :
    ∃ x, round s (n * 2 ^ 1074) 1 = some x ∧ x.negative = s ∧ x.mag = n * 2 ^ 1074 := by
  have hlt : n * 2 ^ 1074 < 1 * 2 ^ (1074 + 53) := by
    rw [Nat.one_mul, Nat.pow_add, Nat.mul_comm (2 ^ 1074)]
    exact Nat.mul_lt_mul_of_pos_right hn (Nat.two_pow_pos _)
  obtain ⟨x, hx⟩ := @round_isSome _ _ s (lt_of_lt_of_le hlt (Nat.mul_le_mul_left 1
    (Nat.pow_le_pow_right (by norm_num) (by norm_num))))
  have hdvd : 1 * 2 ^ ulp (n * 2 ^ 1074) 1 ∣ n * 2 ^ 1074 := by
    rw [Nat.one_mul]
    exact Dvd.dvd.mul_left (Nat.pow_dvd_pow 2 (ulp_le_of_lt hlt)) n
  exact ⟨x, hx, (round_eq_some hx).1, by simpa using round_exact hx hdvd⟩

/-! ## The operations of `price_for_content` -/

/-- `float(x)` of a decimal number `x`: the binary64 value nearest it, or an infinity. -/
def ofDecimal (x : Decimal) : Option Binary64 :=
  round (decide (x.digits < 0)) (x.digits.natAbs * 10 ^ x.exponent.toNat * 2 ^ 1074)
    (10 ^ (-x.exponent).toNat)

/-- `float` of a decimal depends only on its value: `149.00` is `149`. -/
theorem ofDecimal_congr {p q : Decimal} (h : p.value = q.value) : ofDecimal p = ofDecimal q := by
  have hs : decide (p.digits < 0) = decide (q.digits < 0) := by
    simp only [← Decimal.value_neg_iff, h]
  have habs := congrArg abs h
  rw [Decimal.abs_value, Decimal.abs_value, div_eq_div_iff (by positivity) (by positivity)] at habs
  unfold ofDecimal
  rw [hs]
  refine round_congr (by positivity) (by positivity) ?_
  generalize p.digits.natAbs * 10 ^ p.exponent.toNat = A at habs ⊢
  generalize q.digits.natAbs * 10 ^ q.exponent.toNat = A' at habs ⊢
  rw [Nat.mul_right_comm A, Nat.mul_right_comm A']
  exact congrArg (· * 2 ^ 1074) (by exact_mod_cast habs)

/-- `x * n` for an `int` `n` that `float` holds exactly, such as `CENTS_PER_DOLLAR`: the exact product,
rounded once. -/
def mulNat (x : Binary64) (n : Nat) : Option Binary64 := round x.negative (x.mag * n) 1

/-- `int(x)`: the value truncated toward zero. -/
def toInt (x : Binary64) : Int :=
  if x.negative then -((x.mag / 2 ^ 1074 : Nat) : Int) else ((x.mag / 2 ^ 1074 : Nat) : Int)

/-- `int` of a nonnegative float is its magnitude's whole units. -/
theorem toInt_of_nonneg {y : Binary64} (hy : y.negative = false) :
    y.toInt = ((y.mag / 2 ^ 1074 : Nat) : Int) := by
  simp [toInt, hy]

/-- `int` of a negative float is minus its magnitude's whole units. -/
theorem toInt_of_negative {y : Binary64} (hy : y.negative = true) :
    y.toInt = -((y.mag / 2 ^ 1074 : Nat) : Int) := by
  simp [toInt, hy]

end

end Binary64

end EnterpriseSubsidy
