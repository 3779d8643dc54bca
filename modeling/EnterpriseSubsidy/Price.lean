import EnterpriseSubsidy.Binary64
import EnterpriseSubsidy.Runs

/-!
# `Subsidy.price_for_content`

`price_for_content` asks the catalog for the price of a content, in dollars, and converts it to the
cents that the ledger debits: `int(float(price) * CENTS_PER_DOLLAR)` (`priceForContent`). The
conversion to a float and the product both round to the nearest binary64 value, and `int` truncates
toward zero, so the conversion is not exact: `0.29` dollars give `28` cents. A price in whole dollars
converts exactly (`priceForContent_whole_dollars`), and a price in cents converts to those cents or to
one cent less, never more (`priceForContent_cents`). Every rounding keeps the order, so a larger price
never costs fewer cents (`priceForContent_mono`). Both roundings depend only on the price's value, so
the conversion does (`priceForContent_congr`): `149.00` dollars give `14900` cents, as `149` does.

A redemption debits the converted price from the balance (`redeem_created_currentBalance`), so a
learner is never debited more than the catalog's price in cents (`redeem_debits_catalog_cents`).

The catalog's price is the decimal number it writes: `float` of it is the same whether the catalog
answers a JSON number, a string or a `Decimal`. The `lru_cache` of `price_for_content` makes the two
reads of one call agree, so that the redemption model takes one answer per call (`Replies.price`).
-/

namespace EnterpriseSubsidy

open Binary64

section

-- a float's magnitude is counted in units of `2^-1074`: let the powers of two evaluate
set_option exponentiation.threshold 2200

/-- `CENTS_PER_DOLLAR`. -/
def centsPerDollar : Nat := 100

/-- `Subsidy.price_for_content`, once the catalog's `get_course_price` has answered `price`:
`int(float(price) * CENTS_PER_DOLLAR)`. An infinity, from a price or a product past the largest
float, makes `int` raise `OverflowError`. -/
def priceForContent (price : Decimal) : Except String Int :=
  match ofDecimal price with
  | none => .error "cannot convert float infinity to integer"
  | some x =>
    match x.mulNat centsPerDollar with
    | none => .error "cannot convert float infinity to integer"
    | some y => .ok y.toInt

/-- `priceForContent` on finite floats: the truncated product. -/
theorem priceForContent_of_some {price : Decimal} {x y : Binary64} (hx : ofDecimal price = some x)
    (hy : x.mulNat centsPerDollar = some y) : priceForContent price = .ok y.toInt := by
  rw [priceForContent, hx]
  dsimp only
  rw [hy]

/-- `price_for_content` depends only on the catalog price's value. -/
theorem priceForContent_congr {p q : Decimal} (h : p.value = q.value) :
    priceForContent p = priceForContent q := by
  rw [priceForContent, priceForContent, ofDecimal_congr h]

/-- What a price that converts to `c` went through: its float `x`, the product `y`, of the price's
sign, and `int(y) = c`. -/
theorem priceForContent_eq_ok {price : Decimal} {c : Int} (h : priceForContent price = .ok c) :
    ∃ x y, ofDecimal price = some x ∧ x.mulNat centsPerDollar = some y ∧
      y.negative = decide (price.digits < 0) ∧ y.toInt = c := by
  unfold priceForContent at h
  cases hx : ofDecimal price with
  | none => rw [hx] at h; cases h
  | some x =>
    rw [hx] at h
    cases hy : x.mulNat centsPerDollar with
    | none => simp only [hy] at h; cases h
    | some y =>
      simp only [hy, Except.ok.injEq] at h
      refine ⟨x, y, rfl, hy, ?_, h⟩
      rw [(round_eq_some hy).1, (round_eq_some hx).1]

/-- Of two prices, the one of smaller absolute value has the float of smaller magnitude. -/
theorem ofDecimal_mag_mono {p q : Decimal} {x x' : Binary64} (h : |p.value| ≤ |q.value|)
    (hx : ofDecimal p = some x) (hx' : ofDecimal q = some x') : x.mag ≤ x'.mag := by
  refine round_mono (Nat.pos_pow_of_pos _ (by norm_num)) ?_ hx hx'
  rw [Decimal.abs_value, Decimal.abs_value, div_le_div_iff₀ (by positivity) (by positivity)] at h
  rw [Nat.mul_right_comm _ (2 ^ 1074), Nat.mul_right_comm _ (2 ^ 1074)]
  exact Nat.mul_le_mul_right _ (by exact_mod_cast h)

/-- A product by a whole number keeps the order of magnitudes. -/
theorem mulNat_mag_mono {x x' y y' : Binary64} {n : Nat} (h : x.mag ≤ x'.mag)
    (hy : x.mulNat n = some y) (hy' : x'.mulNat n = some y') : y.mag ≤ y'.mag :=
  round_mono Nat.one_pos (by simpa using Nat.mul_le_mul_right n h) hy hy'

/-- A price no larger than another converts to no more cents: both roundings and the truncation
keep the order, on either side of zero. -/
theorem priceForContent_mono {p q : Decimal} {c c' : Int} (hpq : p.value ≤ q.value)
    (hc : priceForContent p = .ok c) (hc' : priceForContent q = .ok c') : c ≤ c' := by
  obtain ⟨x, y, hx, hy, hys, rfl⟩ := priceForContent_eq_ok hc
  obtain ⟨x', y', hx', hy', hys', rfl⟩ := priceForContent_eq_ok hc'
  by_cases hqn : q.digits < 0
  · -- both negative: the magnitudes are in the reverse order
    have hqv := q.value_neg_iff.mpr hqn
    have hpv := hpq.trans_lt hqv
    have hm := mulNat_mag_mono (ofDecimal_mag_mono
      (by rwa [abs_of_neg hqv, abs_of_neg hpv, neg_le_neg_iff]) hx' hx) hy' hy
    rw [toInt_of_negative (hys.trans (decide_eq_true (p.value_neg_iff.mp hpv))),
      toInt_of_negative (hys'.trans (decide_eq_true hqn))]
    exact neg_le_neg (Nat.cast_le.mpr (Nat.div_le_div_right hm))
  rw [toInt_of_nonneg (hys'.trans (decide_eq_false hqn))]
  by_cases hpn : p.digits < 0
  · -- a negative price against a nonnegative one
    rw [toInt_of_negative (hys.trans (decide_eq_true hpn))]
    exact (neg_nonpos.mpr (Nat.cast_nonneg _)).trans (Nat.cast_nonneg _)
  · -- both nonnegative
    have hm := mulNat_mag_mono (ofDecimal_mag_mono
      (by rwa [abs_of_nonneg (p.value_nonneg_iff.mpr (not_lt.mp hpn)),
        abs_of_nonneg (q.value_nonneg_iff.mpr (not_lt.mp hqn))]) hx hx') hy hy'
    rw [toInt_of_nonneg (hys.trans (decide_eq_false hpn))]
    exact Nat.cast_le.mpr (Nat.div_le_div_right hm)

/-- A catalog price of `0.29` dollars converts to no more than one of `0.3` dollars. -/
theorem price_of_29_cents_le_30_cents :
    Decimal.value ⟨29, -2⟩ ≤ Decimal.value ⟨3, -1⟩ ∧ priceForContent ⟨29, -2⟩ = .ok 28 ∧
      priceForContent ⟨3, -1⟩ = .ok 30 ∧ (28 : Int) ≤ 30 :=
  have h₁ : Decimal.value ⟨29, -2⟩ ≤ Decimal.value ⟨3, -1⟩ := by norm_num [Decimal.value]
  have h₂ : priceForContent ⟨29, -2⟩ = .ok 28 := rfl
  have h₃ : priceForContent ⟨3, -1⟩ = .ok 30 := rfl
  ⟨h₁, h₂, h₃, priceForContent_mono h₁ h₂ h₃⟩

/-! ## Whole dollars -/

/-- A price of `n` whole dollars is read as `n * 2^1074` units over `1`. -/
theorem ofDecimal_whole (n : Nat) : ofDecimal ⟨n, 0⟩ = round false (n * 2 ^ 1074) 1 := by
  simp [ofDecimal, show ¬ (n : Int) < 0 by omega]

/-- A price written `n` converts to its cents exactly, below `2^53` cents. -/
theorem priceForContent_whole (n : Nat) (h : 100 * n < 2 ^ 53) :
    priceForContent ⟨n, 0⟩ = .ok (100 * n) := by
  obtain ⟨x, hx, hxs, hxm⟩ := @round_nat false n (by omega)
  obtain ⟨y, hy, hys, hym⟩ := @round_nat false (100 * n) h
  have hmul : x.mulNat centsPerDollar = some y := by
    rw [mulNat, hxs, hxm, show n * 2 ^ 1074 * centsPerDollar = 100 * n * 2 ^ 1074 by
      unfold centsPerDollar; ring]
    exact hy
  rw [priceForContent_of_some ((ofDecimal_whole n).trans hx) hmul, toInt_of_nonneg hys, hym,
    Nat.mul_div_cancel _ (Nat.two_pow_pos _)]
  push_cast
  rfl

/-- A price of `n` whole dollars converts to its cents exactly, below `2^53` cents, however it is
written: `149`, `149.00` or `1.49e2`. -/
theorem priceForContent_whole_dollars (price : Decimal) (n : Nat) (hv : price.value = n)
    (h : 100 * n < 2 ^ 53) : priceForContent price = .ok (100 * n) := by
  rw [← priceForContent_whole n h]
  exact priceForContent_congr (hv.trans (by simp [Decimal.value]))

/-- A catalog price of `149.00` dollars. -/
theorem price_of_149_00_dollars :
    Decimal.value ⟨14900, -2⟩ = (149 : Nat) ∧ 100 * 149 < 2 ^ 53 ∧
      priceForContent ⟨14900, -2⟩ = .ok (100 * 149) :=
  have hv : Decimal.value ⟨14900, -2⟩ = (149 : Nat) := by norm_num [Decimal.value]
  ⟨hv, by norm_num, priceForContent_whole_dollars ⟨14900, -2⟩ 149 hv (by norm_num)⟩

/-! ## Prices in cents -/

/-- A price of `d` cents is read as `d * 2^1074` units over `100`. -/
theorem ofDecimal_cents (d : Nat) : ofDecimal ⟨d, -2⟩ = round false (d * 2 ^ 1074) 100 := by
  simp [ofDecimal, show ¬ (d : Int) < 0 by omega]

/-- The float of a price of `d` cents, `0 < d < 2^51`, is within `2^-53` of `d / 100`, relative to
it: in units, `100 * x.mag` against `d * 2^1074`. -/
theorem ofDecimal_cents_near {d : Nat} (hd : 0 < d) (h : d < 2 ^ 51) :
    ∃ x, ofDecimal ⟨d, -2⟩ = some x ∧ x.negative = false ∧
      2 ^ 53 * (x.mag * 100) ≤ (2 ^ 53 + 1) * (d * 2 ^ 1074) ∧
      (2 ^ 53 - 1) * (d * 2 ^ 1074) ≤ 2 ^ 53 * (x.mag * 100) := by
  have hfin : d * 2 ^ 1074 < 100 * 2 ^ (2044 + 53) :=
    calc d * 2 ^ 1074 < 2 ^ 51 * 2 ^ 1074 := Nat.mul_lt_mul_of_pos_right h (Nat.two_pow_pos _)
      _ ≤ 100 * 2 ^ (2044 + 53) := by norm_num
  have hnorm : 100 * 2 ^ 52 ≤ d * 2 ^ 1074 :=
    calc 100 * 2 ^ 52 ≤ 1 * 2 ^ 1074 := by norm_num
      _ ≤ d * 2 ^ 1074 := Nat.mul_le_mul_right _ hd
  obtain ⟨x, hx⟩ := @round_isSome _ _ false hfin
  rw [ofDecimal_cents]
  exact ⟨x, hx, (round_eq_some hx).1, round_rel_error hx hnorm⟩

/-- The product by `CENTS_PER_DOLLAR` of a nonnegative float of normal magnitude below `2^1023` is
within `2^-53` of the exact product, relative to it. -/
theorem mulNat_centsPerDollar_near {x : Binary64} (hx : x.negative = false)
    (h1 : 2 ^ 52 ≤ x.mag * 100) (h2 : x.mag * 100 < 2 ^ (2044 + 53)) :
    ∃ y, x.mulNat centsPerDollar = some y ∧ y.negative = false ∧
      2 ^ 53 * y.mag ≤ (2 ^ 53 + 1) * (x.mag * 100) ∧
      (2 ^ 53 - 1) * (x.mag * 100) ≤ 2 ^ 53 * y.mag := by
  obtain ⟨y, hy⟩ := @round_isSome (x.mag * 100) 1 false (by rwa [Nat.one_mul])
  have hrel := round_rel_error hy (by rwa [Nat.one_mul])
  rw [Nat.mul_one] at hrel
  refine ⟨y, ?_, (round_eq_some hy).1, hrel⟩
  rw [mulNat, hx]
  exact hy

/-- A price in cents, below `2^51` cents, converts to those cents or to one cent less: the two
roundings stay within one cent of the price, and `int` truncates. -/
theorem priceForContent_cents (d : Nat) (h : d < 2 ^ 51) :
    priceForContent ⟨d, -2⟩ = .ok (d : Int) ∨ priceForContent ⟨d, -2⟩ = .ok ((d : Int) - 1) := by
  rcases Nat.eq_zero_or_pos d with rfl | hd
  · exact .inl rfl
  obtain ⟨x, hx, hxs, hx1, hx2⟩ := ofDecimal_cents_near hd h
  -- the exact product `100 x` is normal and finite, as `d / 100` is
  have hE : 2 ^ 1074 ≤ d * 2 ^ 1074 := Nat.le_mul_of_pos_left _ hd
  have hE' : d * 2 ^ 1074 < 2 ^ 51 * 2 ^ 1074 := Nat.mul_lt_mul_of_pos_right h (Nat.two_pow_pos _)
  obtain ⟨y, hy, hys, hy1, hy2⟩ := mulNat_centsPerDollar_near hxs (by norm_num at *; omega)
    (by norm_num at *; omega)
  rw [priceForContent_of_some hx hy, toInt_of_nonneg hys]
  -- the two roundings leave `y` within one unit `2^1074` of `d * 2^1074`
  have hgap : (2 ^ 54 + 1) * (d * 2 ^ 1074) < 2 ^ 106 * 2 ^ 1074 := by
    rw [← Nat.mul_assoc]
    exact Nat.mul_lt_mul_of_pos_right (by omega) (Nat.two_pow_pos _)
  generalize x.mag * 100 = z at *
  generalize y.mag = m at *
  have hup : m < (d + 1) * 2 ^ 1074 := by norm_num at *; omega
  have hlo : (d - 1) * 2 ^ 1074 ≤ m := by norm_num at *; omega
  -- `int` truncates: `d` when `y` is at least `d`, and `d - 1` below
  by_cases hm : d * 2 ^ 1074 ≤ m
  · exact .inl (by rw [Nat.div_eq_of_lt_le hm hup])
  · refine .inr ?_
    rw [Nat.div_eq_of_lt_le hlo (by rw [Nat.sub_add_cancel hd]; omega)]
    congr 1
    omega

example : priceForContent ⟨29, -2⟩ = .ok 28 := rfl

/-! ## The debit of a redemption -/

variable {deriveKey : Int → Nat → String → String → String} {w w' : World} {c : Call}

/-- A call that creates a redemption at the price `p`, under a key that no row holds, lowers the
balance by `p`. -/
theorem redeem_created_currentBalance {p : Int} {t : Transaction} (hp : c.replies.price = .ok p)
    (hf : w.ledger.findByKey (idempotencyKeyFor deriveKey c.request (-1 * p)) = none)
    (h : redeem deriveKey w c = (.ok (some t, true), w')) :
    w'.currentBalance = w.currentBalance - p := by
  cases hg : getRedemption w.ledger c.request.learnerId c.request.contentKey with
  | some t' => rw [redeem_of_getRedemption_some hg] at h; cases h
  | none =>
    by_cases hb : p ≤ w.currentBalance
    · rw [redeem_of_le_balance hg hp hb] at h
      cases he : c.replies.enroll with
      | error exc => simp [createRedemption_of_enroll_error hp he, Except.map] at h
      | ok r =>
        obtain ⟨-, rfl⟩ := Prod.mk.inj h
        rw [createRedemption_currentBalance hp he, createPending_eq,
          (Ledger.createTransaction_of_none hf).1]
        simp [Ledger.newTransaction, Transaction.committedQuantity]
        ring
    · rw [redeem_of_balance_lt hg hp (not_le.mp hb)] at h
      cases h

/-- A redemption at a catalog price of `d` cents, below `2^51`, under a key that no row holds,
lowers the balance by `d` cents or by one cent less: a learner is never debited more than the
catalog's price. -/
theorem redeem_debits_catalog_cents {t : Transaction} {d : Nat} (hd : d < 2 ^ 51)
    (hp : c.replies.price = priceForContent ⟨d, -2⟩)
    (hf : ∀ p, c.replies.price = .ok p →
      w.ledger.findByKey (idempotencyKeyFor deriveKey c.request (-1 * p)) = none)
    (h : redeem deriveKey w c = (.ok (some t, true), w')) :
    w'.currentBalance = w.currentBalance - d ∨ w'.currentBalance = w.currentBalance - (d - 1) := by
  rcases priceForContent_cents d hd with hc | hc <;> rw [hc] at hp
  · exact .inl (redeem_created_currentBalance hp (hf _ hp) h)
  · exact .inr (redeem_created_currentBalance hp (hf _ hp) h)

/-- A call of learner `1` for `"c"` at a catalog price of `0.29` dollars. -/
def catalogCall : Call := ⟨⟨1, "c", "p", some "k"⟩, ⟨.ok 28, .ok (some "e")⟩⟩

/-- The redemption that `catalogCall` commits on an empty ledger. -/
def catalogRedemption : Transaction :=
  ⟨0, "k", 1, "c", "p", -28, .committed, some "e", some ocmEnrollmentReferenceType⟩

/-- `catalogCall` on a balance of `100` cents debits `28` of them, within a cent of the catalog's
`29`. -/
theorem catalogCall_debits_within_price :
    29 < 2 ^ 51 ∧ catalogCall.replies.price = priceForContent ⟨29, -2⟩ ∧
      (∀ p, catalogCall.replies.price = .ok p → Ledger.empty.findByKey
        (idempotencyKeyFor (fun _ _ _ _ => "") catalogCall.request (-1 * p)) = none) ∧
      redeem (fun _ _ _ _ => "") ⟨100, .empty, []⟩ catalogCall =
        (.ok (some catalogRedemption, true),
          (redeem (fun _ _ _ _ => "") ⟨100, .empty, []⟩ catalogCall).2) ∧
      ((redeem (fun _ _ _ _ => "") ⟨100, .empty, []⟩ catalogCall).2.currentBalance = 100 - 29 ∨
        (redeem (fun _ _ _ _ => "") ⟨100, .empty, []⟩ catalogCall).2.currentBalance =
          100 - (29 - 1)) :=
  have hp : catalogCall.replies.price = priceForContent ⟨29, -2⟩ := rfl
  have hf : ∀ p, catalogCall.replies.price = .ok p → Ledger.empty.findByKey
      (idempotencyKeyFor (fun _ _ _ _ => "") catalogCall.request (-1 * p)) = none :=
    fun _ _ => rfl
  have h : redeem (fun _ _ _ _ => "") ⟨100, .empty, []⟩ catalogCall =
      (.ok (some catalogRedemption, true),
        (redeem (fun _ _ _ _ => "") ⟨100, .empty, []⟩ catalogCall).2) := by
    decide
  ⟨by norm_num, hp, hf, h, redeem_debits_catalog_cents (by norm_num) hp hf h⟩

end

end EnterpriseSubsidy
