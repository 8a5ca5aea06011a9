import Mathlib.Algebra.Order.Field.Power
import Mathlib.Data.List.TakeWhile
import Mathlib.Data.Rat.Lemmas
import Mathlib.Tactic.FieldSimp
import Mathlib.Tactic.GCongr
import Mathlib.Tactic.Linarith
import Mathlib.Tactic.NormNum
import Mathlib.Tactic.Positivity
import Mathlib.Tactic.Ring
import ChartPipeline.Text.FloatText

/-!
# What the text of a float tells

The reals that round to one double and those that round to another are apart.  The decimal of the
fewest digits is among the reals that round to its double, since 17 digits always suffice, and a
text tells its decimal.  So the text of a finite float tells the float.

## Key results

- `RoundsTo.unique`: a number rounds to one double
- `Decimal.shortest_roundsTo`: the shortest decimal rounds to its double
- `FloatText.json_injective`: finite floats with one text are equal
-/

namespace ChartPipeline

/-! ### Rounding -/

/-- How far down the numbers that round to a double go, in quarters of its last place. -/
def gapBelow (m : Nat) (q : Int) : Nat := if m = 2 ^ 52 ∧ q > -1074 then 1 else 2

/-- The least number that may round to `m * 2 ^ q`. -/
def lowest (m : Nat) (q : Int) : ℚ := (m - gapBelow m q / 4) * 2 ^ q

/-- The greatest number that may round to `m * 2 ^ q`. -/
def greatest (m : Nat) (q : Int) : ℚ := (m + 1 / 2) * 2 ^ q

/-- A number that rounds to `m * 2 ^ q`; the ends of the interval only do if `m` is even. -/
structure RoundsTo (x : ℚ) (m : Nat) (q : Int) : Prop where
  low : lowest m q ≤ x
  high : x ≤ greatest m q
  inside : m % 2 = 1 → lowest m q < x ∧ x < greatest m q

/-- The mantissa and exponent of a double as its bits give them. -/
structure Canonical (m : Nat) (q : Int) : Prop where
  lt : m < 2 ^ 53
  least : -1074 ≤ q
  normal : 2 ^ 52 ≤ m ∨ q = -1074

/-- The numbers that round to a double go down no further than half its last place. -/
theorem gapBelow_le (m : Nat) (q : Int) : gapBelow m q ≤ 2 := by
  unfold gapBelow
  split <;> omega

/-- They do not begin below half a place under the double. -/
theorem lowest_ge (m : Nat) (q : Int) : ((m : ℚ) - 1 / 2) * 2 ^ q ≤ lowest m q := by
  have hgap : (gapBelow m q : ℚ) ≤ 2 := by exact_mod_cast gapBelow_le m q
  have hpos : (0 : ℚ) < 2 ^ q := by positivity
  exact mul_le_mul_of_nonneg_right (by linarith) hpos.le

/-- One place is two of half the width. -/
theorem two_zpow (q : Int) : (2 : ℚ) ^ q = 2 * 2 ^ (q - 1) := by
  rw [← zpow_one_add₀ (by norm_num), add_sub_cancel]

/-- The interval of a power of two begins where that below it, in steps of half the width, ends. -/
theorem lowest_power {q : Int} (hq : -1074 < q) :
    lowest (2 ^ 52) q = (2 ^ 53 - 1 / 2) * 2 ^ (q - 1) := by
  have hgap : gapBelow (2 ^ 52) q = 1 := if_pos ⟨rfl, hq⟩
  rw [lowest, hgap, two_zpow q]
  push_cast
  ring

namespace RoundsTo

variable {x : ℚ} {m m' : Nat} {q q' : Int}

/-- Zero rounds to zero. -/
theorem zero (q : Int) : RoundsTo 0 0 q := by
  have hpos : (0 : ℚ) < 2 ^ q := by positivity
  refine ⟨?_, ?_, by simp⟩
  · have hgap : (0 : ℚ) ≤ gapBelow 0 q / 4 * 2 ^ q := by positivity
    rw [lowest]
    push_cast
    linarith
  · rw [greatest]
    push_cast
    linarith

/-- With one exponent, intervals of different mantissas meet in an end at most, and only one of
    them has it. -/
theorem not_lt_of_eq (h : RoundsTo x m q) (h' : RoundsTo x m' q) : ¬ m < m' := by
  intro hlt
  have hpos : (0 : ℚ) < 2 ^ q := by positivity
  have hle : (m : ℚ) + 1 ≤ m' := by exact_mod_cast hlt
  have hlow := lowest_ge m' q
  have hmeet : ((m' : ℚ) - 1 / 2) * 2 ^ q ≤ (m + 1 / 2) * 2 ^ q :=
    (hlow.trans h'.low).trans (h.high.trans_eq rfl)
  -- the mantissas follow each other, so one of them is odd
  have hm' : (m' : ℚ) = m + 1 := by
    have := le_of_mul_le_mul_right hmeet hpos
    linarith
  have hend : greatest m q = ((m' : ℚ) - 1 / 2) * 2 ^ q := by rw [greatest, hm']; ring
  have hx : x = greatest m q := le_antisymm h.high (hend ▸ hlow.trans h'.low)
  have hx' : x = lowest m' q := le_antisymm (hx.trans hend ▸ hlow) h'.low
  have hodd : m % 2 = 1 ∨ m' % 2 = 1 := by
    have : m' = m + 1 := by exact_mod_cast hm'
    omega
  rcases hodd with hodd | hodd
  · exact absurd hx (h.inside hodd).2.ne
  · exact absurd hx' (h'.inside hodd).1.ne'

/-- Intervals with a greater exponent are further up. -/
theorem not_lt_exponent (hm : Canonical m q) (hm' : Canonical m' q') (h : RoundsTo x m q)
    (h' : RoundsTo x m' q') : ¬ q < q' := by
  intro hlt
  have hpos : (0 : ℚ) < 2 ^ (q' - 1) := by positivity
  have hscale : (2 : ℚ) ^ q ≤ 2 ^ (q' - 1) := zpow_le_zpow_right₀ (by norm_num) (by omega)
  -- the greater exponent is not the least, so its mantissa has all its bits
  have hbig : 2 ^ 52 ≤ m' := hm'.normal.resolve_right (by have := hm.least; omega)
  have hlow := h'.low
  have hhigh := h.high
  rw [greatest] at hhigh
  rcases hbig.eq_or_lt with rfl | hgt
  · -- only the greatest mantissa comes as far, and its interval, being odd, is open
    rw [lowest_power (by have := hm.least; omega)] at hlow
    have hup : (m + 1 / 2) * (2 : ℚ) ^ q ≤ (m + 1 / 2) * 2 ^ (q' - 1) := by gcongr
    have hmge : (2 : ℚ) ^ 53 - 1 / 2 ≤ m + 1 / 2 := by
      refine le_of_mul_le_mul_right ?_ hpos
      exact hlow.trans (hhigh.trans hup)
    have hm53 : m = 2 ^ 53 - 1 := by
      have hcast : (2 : ℚ) ^ 53 ≤ m + 1 := by linarith
      have : 2 ^ 53 ≤ m + 1 := by exact_mod_cast hcast
      have := hm.lt
      omega
    have hstrict := (h.inside (by rw [hm53]; norm_num)).2
    rw [greatest] at hstrict
    have hmq : (m : ℚ) + 1 / 2 = 2 ^ 53 - 1 / 2 := by
      rw [hm53]
      norm_num
    rw [hmq] at hup hstrict
    linarith
  · have hgt' : (2 : ℚ) ^ 52 + 1 ≤ m' := by exact_mod_cast hgt
    have hmle : (m : ℚ) + 1 ≤ 2 ^ 53 := by exact_mod_cast hm.lt
    have hge := lowest_ge m' q'
    rw [two_zpow q'] at hge
    have : (m + 1 / 2) * (2 : ℚ) ^ q ≤ (2 ^ 53 - 1 / 2) * 2 ^ (q' - 1) := by
      gcongr
      linarith
    nlinarith

/-- A number rounds to one double. -/
theorem unique (hm : Canonical m q) (hm' : Canonical m' q') (h : RoundsTo x m q)
    (h' : RoundsTo x m' q') : m = m' ∧ q = q' := by
  have hq : q = q' := by
    have := not_lt_exponent hm hm' h h'
    have := not_lt_exponent hm' hm h' h
    omega
  subst hq
  have := not_lt_of_eq h h'
  have := not_lt_of_eq h' h
  exact ⟨by omega, rfl⟩

end RoundsTo

/-! ### The shortest decimal -/

namespace Decimal

variable {m : Nat} {q : Int}

/-- The number that a decimal stands for. -/
def number (d : Decimal) : ℚ := d.digits * 10 ^ d.exponent

/-- A power with an integer exponent as a quotient of two with natural ones. -/
theorem pow_toNat {b : ℚ} (hb : b ≠ 0) (k : Int) : b ^ k.toNat = b ^ k * b ^ (-k).toNat := by
  rcases le_total 0 k with hk | hk
  · obtain ⟨n, rfl⟩ := Int.eq_ofNat_of_zero_le hk
    simp
  · obtain ⟨n, hn⟩ := Int.eq_ofNat_of_zero_le (neg_nonneg.2 hk)
    obtain rfl : k = -n := by omega
    simp [zpow_neg, hb]

/-- The denominator of a target that is scaled by a power of ten. -/
def scaledDenominator (q e : Int) : Nat := 2 ^ (2 - q).toNat * 10 ^ e.toNat

/-- The denominator is not zero. -/
theorem scaledDenominator_pos (q e : Int) : 0 < scaledDenominator q e := by
  unfold scaledDenominator
  positivity

/-- The denominator of a scaled target. -/
theorem denominator_scale (m : Nat) (q e : Int) :
    ((Target.ofDouble m q).scale (-e)).denominator = scaledDenominator q e := by
  rw [Target.scale, neg_neg]
  rfl

/-- A numerator of a scaled target, over its denominator. -/
theorem numerator_eq (n : Nat) (q e : Int) :
    ((n * 2 ^ (q - 2).toNat * 10 ^ (-e).toNat : Nat) : ℚ) =
      n / 4 * 2 ^ q / 10 ^ e * scaledDenominator q e := by
  have htwo := pow_toNat (b := 2) (by norm_num) (q - 2)
  have hten := pow_toNat (b := 10) (by norm_num) (-e)
  rw [neg_sub] at htwo
  rw [neg_neg] at hten
  rw [zpow_sub₀ (by norm_num)] at htwo
  rw [zpow_neg] at hten
  push_cast [scaledDenominator]
  rw [htwo, hten]
  norm_num
  ring

/-- The lower end of a scaled target is that of the interval of the double. -/
theorem low_scale (hm : 0 < m) (q e : Int) : (((Target.ofDouble m q).scale (-e)).low : ℚ) =
    lowest m q / 10 ^ e * scaledDenominator q e := by
  have hgap := gapBelow_le m q
  have hlow : ((Target.ofDouble m q).scale (-e)).low =
      (4 * m - gapBelow m q) * 2 ^ (q - 2).toNat * 10 ^ (-e).toNat := rfl
  rw [hlow, numerator_eq, Nat.cast_sub (by omega), lowest]
  push_cast
  ring

/-- The upper end of a scaled target is that of the interval of the double. -/
theorem high_scale (m : Nat) (q e : Int) : (((Target.ofDouble m q).scale (-e)).high : ℚ) =
    greatest m q / 10 ^ e * scaledDenominator q e := by
  have hhigh : ((Target.ofDouble m q).scale (-e)).high =
      (4 * m + 2) * 2 ^ (q - 2).toNat * 10 ^ (-e).toNat := rfl
  rw [hhigh, numerator_eq, greatest]
  push_cast
  ring

/-- The value of a scaled target is the double. -/
theorem value_scale (m : Nat) (q e : Int) : (((Target.ofDouble m q).scale (-e)).value : ℚ) =
    m * 2 ^ q / 10 ^ e * scaledDenominator q e := by
  have hvalue : ((Target.ofDouble m q).scale (-e)).value =
      4 * m * 2 ^ (q - 2).toNat * 10 ^ (-e).toNat := rfl
  rw [hvalue, numerator_eq]
  push_cast
  ring

/-- The natural numbers that a scaled target admits are those that round to the double. -/
theorem admits_iff (hm : 0 < m) (e : Int) (c : Nat) :
    ((Target.ofDouble m q).scale (-e)).admits c = true ↔ RoundsTo (c * 10 ^ e) m q := by
  have hden : (0 : ℚ) < scaledDenominator q e := by exact_mod_cast scaledDenominator_pos q e
  have hten : (0 : ℚ) < 10 ^ e := by positivity
  have hle {n : Nat} {y : ℚ} (hn : (n : ℚ) = y / 10 ^ e * scaledDenominator q e) :
      n ≤ c * scaledDenominator q e ↔ y ≤ c * 10 ^ e := by
    rw [← Nat.cast_le (α := ℚ), hn, Nat.cast_mul, mul_le_mul_iff_left₀ hden, div_le_iff₀ hten]
  have hge {n : Nat} {y : ℚ} (hn : (n : ℚ) = y / 10 ^ e * scaledDenominator q e) :
      c * scaledDenominator q e ≤ n ↔ c * 10 ^ e ≤ y := by
    rw [← Nat.cast_le (α := ℚ), hn, Nat.cast_mul, mul_le_mul_iff_left₀ hden, le_div_iff₀ hten]
  have hlt {n : Nat} {y : ℚ} (hn : (n : ℚ) = y / 10 ^ e * scaledDenominator q e) :
      n < c * scaledDenominator q e ↔ y < c * 10 ^ e := by rw [← not_le, hge hn, not_le]
  have hgt {n : Nat} {y : ℚ} (hn : (n : ℚ) = y / 10 ^ e * scaledDenominator q e) :
      c * scaledDenominator q e < n ↔ c * 10 ^ e < y := by rw [← not_le, hle hn, not_le]
  have hclosed : ((Target.ofDouble m q).scale (-e)).closed = (m % 2 = 0 : Bool) := rfl
  rw [Target.admits, denominator_scale, hclosed]
  -- the ends count if the mantissa is even
  by_cases heven : m % 2 = 0
  · simp only [heven, decide_true, if_true, Bool.and_eq_true, decide_eq_true_eq]
    rw [hle (low_scale hm q e), hge (high_scale m q e)]
    exact ⟨fun ⟨h₁, h₂⟩ => ⟨h₁, h₂, fun hodd => absurd heven (by omega)⟩, fun h => ⟨h.low, h.high⟩⟩
  · simp only [heven, decide_false, Bool.false_eq_true, if_false, Bool.and_eq_true,
      decide_eq_true_eq]
    rw [hlt (low_scale hm q e), hgt (high_scale m q e)]
    exact ⟨fun ⟨h₁, h₂⟩ => ⟨h₁.le, h₂.le, fun _ => ⟨h₁, h₂⟩⟩, fun h => h.inside (by omega)⟩

/-- One of the two natural numbers around a target is picked if it admits one. -/
theorem pick?_cases (tie : Tie) (t : Target) :
    (t.pick? tie = none ∧ t.admits (t.value / t.denominator) = false ∧
        t.admits (t.value / t.denominator + 1) = false) ∨
      ∃ c, t.pick? tie = some c ∧ t.admits c = true := by
  cases hc : t.admits (t.value / t.denominator) with
  | false =>
    cases hc' : t.admits (t.value / t.denominator + 1) with
    | false => exact .inl ⟨by simp [Target.pick?, hc, hc'], rfl, rfl⟩
    | true => exact .inr ⟨_, by simp [Target.pick?, hc, hc'], hc'⟩
  | true =>
    cases hc' : t.admits (t.value / t.denominator + 1) with
    | false => exact .inr ⟨_, by simp [Target.pick?, hc, hc'], hc⟩
    | true =>
      -- both are admitted, and the nearer one is picked, or by the rule for ties
      have hpick : t.pick? tie = some (t.value / t.denominator) ∨
          t.pick? tie = some (t.value / t.denominator + 1) := by
        cases tie <;> simp only [Target.pick?, hc, hc'] <;> split_ifs <;> simp
      rcases hpick with hpick | hpick
      · exact .inr ⟨_, hpick, hc⟩
      · exact .inr ⟨_, hpick, hc'⟩

/-- The natural numbers around a scaled target. -/
theorem floor_scale (m : Nat) (q e : Int) {t : Target}
    (ht : t = (Target.ofDouble m q).scale (-e)) :
    ((t.value / t.denominator : Nat) : ℚ) * 10 ^ e ≤ m * 2 ^ q ∧
      (m : ℚ) * 2 ^ q < ((t.value / t.denominator + 1 : Nat) : ℚ) * 10 ^ e := by
  have hden : (0 : ℚ) < scaledDenominator q e := by exact_mod_cast scaledDenominator_pos q e
  have hten : (0 : ℚ) < 10 ^ e := by positivity
  have hvalue : (t.value : ℚ) = m * 2 ^ q / 10 ^ e * scaledDenominator q e := by
    rw [ht, value_scale]
  have hdenominator : t.denominator = scaledDenominator q e := by rw [ht, denominator_scale]
  rw [hdenominator]
  -- the quotient is rounded down, so it is at most the value, and one more is above it
  constructor
  · have hle : ((t.value / scaledDenominator q e : Nat) : ℚ) * scaledDenominator q e ≤ t.value := by
      exact_mod_cast Nat.div_mul_le_self _ _
    rwa [hvalue, mul_le_mul_iff_left₀ hden, le_div_iff₀ hten] at hle
  · have hlt : (t.value : ℚ) <
        ((t.value / scaledDenominator q e + 1 : Nat) : ℚ) * scaledDenominator q e := by
      rw [mul_comm]
      exact_mod_cast Nat.lt_mul_div_succ t.value (scaledDenominator_pos q e)
    rwa [hvalue, mul_lt_mul_iff_left₀ hden, div_lt_iff₀ hten] at hlt

/-- A double is inside its interval. -/
theorem lowest_lt (m : Nat) (q : Int) : lowest m q < m * 2 ^ q := by
  have hgap : (1 : ℚ) ≤ gapBelow m q := by
    have : 1 ≤ gapBelow m q := by unfold gapBelow; split <;> omega
    exact_mod_cast this
  exact mul_lt_mul_of_pos_right (by linarith) (by positivity)

/-- A double is below the upper end of its interval. -/
theorem lt_greatest (m : Nat) (q : Int) : m * 2 ^ q < greatest m q :=
  mul_lt_mul_of_pos_right (by linarith) (by positivity)

/-- A grid of 17 digits is not as wide as the interval of a double. -/
theorem grid_lt_interval (hc : Canonical m q) {e : Int}
    (he : 10 ^ e * 10 ^ 16 ≤ (m : ℚ) * 2 ^ q) : (10 : ℚ) ^ e < greatest m q - lowest m q := by
  have htwo : (0 : ℚ) < 2 ^ q := by positivity
  have hwidth : greatest m q - lowest m q = (1 / 2 + gapBelow m q / 4) * 2 ^ q := by
    rw [greatest, lowest]
    ring
  have hgrid : (10 : ℚ) ^ e ≤ m / 10 ^ 16 * 2 ^ q := by linarith
  rw [hwidth]
  refine hgrid.trans_lt (mul_lt_mul_of_pos_right ?_ htwo)
  unfold gapBelow
  -- a quarter of a place less below a power of two, but then the mantissa is the least one
  split
  · next h =>
    rw [h.1]
    norm_num
  · have hm : (m : ℚ) < 2 ^ 53 := by exact_mod_cast hc.lt
    have hless : (m : ℚ) / 10 ^ 16 < 1 := by
      rw [div_lt_one (by norm_num)]
      norm_num at hm ⊢
      linarith
    norm_num at hless ⊢
    exact hless

/-- A grid that is fine enough has a point among the numbers that round to the double. -/
theorem exists_admitted (hc : Canonical m q) (hm : 0 < m) {e : Int}
    (he : 10 ^ e * 10 ^ 16 ≤ (m : ℚ) * 2 ^ q) {t : Target}
    (ht : t = (Target.ofDouble m q).scale (-e)) :
    t.admits (t.value / t.denominator) = true ∨
      t.admits (t.value / t.denominator + 1) = true := by
  obtain ⟨hbelow, habove⟩ := floor_scale m q e ht
  have hadmits (c : Nat) : t.admits c = true ↔ RoundsTo (c * 10 ^ e) m q := by
    rw [ht, admits_iff hm]
  by_contra hnone
  rw [not_or, hadmits, hadmits] at hnone
  obtain ⟨hlow, hhigh⟩ := hnone
  -- the points next to the double are outside its interval, so that it lies between them
  have hlow' : ((t.value / t.denominator : Nat) : ℚ) * 10 ^ e ≤ lowest m q := by
    by_contra hgt
    have hgt := not_le.1 hgt
    have hlt := hbelow.trans_lt (lt_greatest m q)
    exact hlow ⟨hgt.le, hlt.le, fun _ => ⟨hgt, hlt⟩⟩
  have hhigh' : greatest m q ≤ ((t.value / t.denominator + 1 : Nat) : ℚ) * 10 ^ e := by
    by_contra hlt
    have hlt := not_le.1 hlt
    have hgt := (lowest_lt m q).trans habove
    exact hhigh ⟨hgt.le, hlt.le, fun _ => ⟨hgt, hlt⟩⟩
  have hgrid := grid_lt_interval hc he
  push_cast at hlow' hhigh'
  linarith

/-- Thirty-three powers of two are less than ten powers of ten. -/
theorem two_pow_le_ten_pow {a b : Nat} (h : a ≤ 33 * b) : (2 : ℚ) ^ a ≤ 10 ^ (10 * b) := calc
  (2 : ℚ) ^ a ≤ 2 ^ (33 * b) := pow_le_pow_right₀ (by norm_num) h
  _ = (2 ^ 33) ^ b := pow_mul 2 33 b
  _ ≤ (10 ^ 10) ^ b := pow_le_pow_left₀ (by norm_num) (by norm_num) b
  _ = 10 ^ (10 * b) := (pow_mul 10 10 b).symm

/-- No double but zero is below this power of ten. -/
theorem ten_pow_le (hc : Canonical m q) (hm : 0 < m) : (10 : ℚ) ^ (-350 : ℤ) ≤ m * 2 ^ q := by
  have hleast : (10 : ℚ) ^ (-350 : ℤ) ≤ 2 ^ (-1074 : ℤ) := by
    have hpow := two_pow_le_ten_pow (a := 1074) (b := 35) (by decide)
    rw [← zpow_natCast, ← zpow_natCast] at hpow
    rw [zpow_neg, zpow_neg]
    exact inv_anti₀ (by positivity) hpow
  have hone : (1 : ℚ) ≤ m := by exact_mod_cast hm
  calc (10 : ℚ) ^ (-350 : ℤ) ≤ 2 ^ (-1074 : ℤ) := hleast
    _ ≤ 2 ^ q := zpow_le_zpow_right₀ (by norm_num) hc.least
    _ ≤ m * 2 ^ q := le_mul_of_one_le_left (by positivity) hone

/-- A natural number is as great as its leading digit says. -/
theorem pow_length_le {n : Nat} (hn : 0 < n) :
    (10 : ℚ) ^ ((Nat.toDigits 10 n).length - 1) ≤ n := by
  suffices 10 ^ ((Nat.toDigits 10 n).length - 1) ≤ n by exact_mod_cast this
  by_contra hlt
  rcases Nat.eq_zero_or_pos ((Nat.toDigits 10 n).length - 1) with hzero | hpos
  · rw [hzero] at hlt
    omega
  · have := (Nat.length_toDigits_le_iff (by decide) hpos).2 (not_le.1 hlt)
    omega

/-- The leading digit of a double is where its magnitude says. -/
theorem magnitude_le (hc : Canonical m q) (hm : 0 < m) :
    (10 : ℚ) ^ ((Target.ofDouble m q).magnitude - 1) ≤ m * 2 ^ q := by
  let t := Target.ofDouble m q
  let n := t.value * 10 ^ 350 / t.denominator
  have hscale : (t.scale (-(-350))).value / (t.scale (-(-350))).denominator = n := by
    show t.value * 10 ^ (-(-350) : ℤ).toNat / (t.denominator * 10 ^ (-(-(-350)) : ℤ).toNat) = n
    rw [show (-(-350) : ℤ).toNat = 350 from rfl, show (-(-(-350)) : ℤ).toNat = 0 from rfl,
      Nat.pow_zero, Nat.mul_one]
  obtain ⟨hbelow, habove⟩ := floor_scale m q (-350) (t := t.scale (-(-350))) rfl
  rw [hscale] at hbelow habove
  -- the double is not below the grid that its magnitude is read from
  have hn : 0 < n := by
    by_contra hzero
    rw [Nat.eq_zero_of_not_pos hzero, Nat.zero_add, Nat.cast_one, one_mul] at habove
    exact not_lt.2 (ten_pow_le hc hm) habove
  have hlen : 0 < (Nat.toDigits 10 n).length := Nat.length_toDigits_pos
  have hmagnitude : t.magnitude - 1 = ((Nat.toDigits 10 n).length - 1 : Nat) + (-350 : ℤ) := by
    rw [Nat.cast_sub hlen, Target.magnitude]
    ring
  rw [hmagnitude, zpow_add₀ (by norm_num), zpow_natCast]
  exact le_trans (mul_le_mul_of_nonneg_right (pow_length_le hn) (by positivity)) hbelow

/-- The digits of a decimal may end in zeros. -/
theorem number_trim (d : Decimal) (fuel : Nat) : (d.trim fuel).number = d.number := by
  induction fuel generalizing d with
  | zero => rfl
  | succ fuel ih =>
    rw [trim]
    split
    · next h =>
      rw [ih]
      have hdigits : (d.digits : ℚ) = (d.digits / 10 : Nat) * 10 := by
        have : d.digits = d.digits / 10 * 10 := by omega
        exact_mod_cast this
      rw [number, number, hdigits, zpow_add₀ (by norm_num)]
      ring
    · rfl

/-- The decimal with the `n`-th digit after the first as its last one, if one of those around the
    double reads back. -/
def onGrid (tie : Tie) (t : Target) (n : Nat) : Option Decimal :=
  ((t.scale (-(t.magnitude - (n + 1)))).pick? tie).map fun c => ⟨c, t.magnitude - (n + 1)⟩

/-- A decimal that is found reads back as the double. -/
theorem onGrid_roundsTo (hm : 0 < m) {tie : Tie} {n : Nat} {d : Decimal}
    (h : onGrid tie (Target.ofDouble m q) n = some d) : RoundsTo d.number m q := by
  obtain ⟨c, hpick, rfl⟩ := Option.map_eq_some_iff.1 h
  rcases pick?_cases tie ((Target.ofDouble m q).scale
    (-((Target.ofDouble m q).magnitude - (n + 1)))) with ⟨hnone, -⟩ | ⟨c', hc', hadmits⟩
  · rw [hpick] at hnone
    cases hnone
  · obtain rfl := Option.some.inj (hpick.symm.trans hc')
    exact (admits_iff hm _ _).1 hadmits

/-- Seventeen digits are enough. -/
theorem isSome_onGrid (tie : Tie) (hc : Canonical m q) (hm : 0 < m) :
    (onGrid tie (Target.ofDouble m q) 16).isSome = true := by
  let t := Target.ofDouble m q
  have he : (10 : ℚ) ^ (t.magnitude - (16 + 1)) * 10 ^ 16 ≤ m * 2 ^ q := by
    refine le_trans (le_of_eq ?_) (magnitude_le hc hm)
    rw [← zpow_natCast, ← zpow_add₀ (by norm_num)]
    congr 1
    push_cast
    ring
  rw [onGrid, Option.isSome_map]
  rcases pick?_cases tie (t.scale (-(t.magnitude - (16 + 1)))) with ⟨-, hlow, hhigh⟩ | ⟨c, hpick, -⟩
  · rcases exists_admitted hc hm he rfl with h | h
    · exact absurd (hlow.symm.trans h) (by simp)
    · exact absurd (hhigh.symm.trans h) (by simp)
  · exact Option.isSome_of_eq_some hpick

/-- The shortest decimal of a double rounds to the double. -/
theorem shortest_roundsTo (tie : Tie) (hc : Canonical m q) (hm : 0 < m) :
    RoundsTo (shortest tie m q).number m q := by
  have hshortest : shortest tie m q = (((List.range 17).findSome?
      (onGrid tie (Target.ofDouble m q))).getD ⟨0, 0⟩).trim 20 := rfl
  rw [hshortest, number_trim]
  cases hfound : (List.range 17).findSome? (onGrid tie (Target.ofDouble m q)) with
  | none =>
    -- the last grid that is tried has seventeen digits
    have hsome := isSome_onGrid tie hc hm
    rw [List.findSome?_eq_none_iff] at hfound
    rw [hfound 16 (by simp)] at hsome
    cases hsome
  | some d =>
    obtain ⟨n, -, hn⟩ := List.exists_of_findSome?_eq_some hfound
    exact onGrid_roundsTo hm hn

end Decimal

/-! ### Numbers in texts -/

/-- The number that digits with a point stand for. -/
def pointNumber (cs : List Char) : ℚ :=
  let whole := cs.takeWhile (· ≠ '.')
  let fraction := (cs.dropWhile (· ≠ '.')).tail
  Nat.ofDigitChars 10 (whole ++ fraction) 0 * 10 ^ (-(fraction.length : ℤ))

/-- The number that an exponent with its sign stands for. -/
def exponentNumber : List Char → ℤ
  | '-' :: ds => -(Nat.ofDigitChars 10 ds 0 : ℤ)
  | '+' :: ds => Nat.ofDigitChars 10 ds 0
  | _ => 0

/-- The number that a text without a sign stands for. -/
def textNumber (cs : List Char) : ℚ :=
  pointNumber (cs.takeWhile (· ≠ 'e')) * 10 ^ exponentNumber (cs.dropWhile (· ≠ 'e')).tail

/-- The characters before a mark and those after it. -/
theorem cut_at {cs : List Char} {mark : Char} (h : mark ∉ cs) (ds : List Char) :
    (cs ++ mark :: ds).takeWhile (· ≠ mark) = cs ∧
      (cs ++ mark :: ds).dropWhile (· ≠ mark) = mark :: ds := by
  have hne : ∀ c ∈ cs, decide (c ≠ mark) = true := by
    intro c hc
    rw [decide_eq_true_eq]
    rintro rfl
    exact h hc
  rw [List.takeWhile_append_of_pos hne, List.dropWhile_append_of_pos hne]
  simp

/-- Without the mark, all characters are before it. -/
theorem cut_nowhere {cs : List Char} {mark : Char} (h : mark ∉ cs) :
    cs.takeWhile (· ≠ mark) = cs ∧ cs.dropWhile (· ≠ mark) = [] := by
  have hne : ∀ c ∈ cs, decide (c ≠ mark) = true := by
    intro c hc
    rw [decide_eq_true_eq]
    rintro rfl
    exact h hc
  exact ⟨List.takeWhile_eq_self_iff.2 hne, List.dropWhile_eq_nil_iff.2 hne⟩

/-- Characters that are digits. -/
def AllDigits (cs : List Char) : Prop := ∀ c ∈ cs, c.isDigit = true

namespace AllDigits

variable {cs ds : List Char}

/-- A mark that is no digit is not among digits. -/
theorem not_mem (h : AllDigits cs) {mark : Char} (hmark : mark.isDigit = false) : mark ∉ cs := by
  intro hmem
  rw [h mark hmem] at hmark
  cases hmark

/-- Digits after digits are digits. -/
theorem append (h : AllDigits cs) (h' : AllDigits ds) : AllDigits (cs ++ ds) := by
  intro c hc
  rcases List.mem_append.1 hc with hc | hc
  · exact h c hc
  · exact h' c hc

/-- Zeros are digits. -/
theorem zeros (n : Nat) : AllDigits (List.replicate n '0') := by
  intro c hc
  rw [List.eq_of_mem_replicate hc]
  decide

/-- The digits of a number are digits. -/
theorem toDigits (n : Nat) : AllDigits (Nat.toDigits 10 n) :=
  fun _ hc => Nat.isDigit_of_mem_toDigits (by decide) (by decide) hc

end AllDigits

/-- The number of digits with a point among them. -/
theorem pointNumber_point {whole fraction : List Char} (hw : AllDigits whole) :
    pointNumber (whole ++ '.' :: fraction) =
      Nat.ofDigitChars 10 (whole ++ fraction) 0 * 10 ^ (-(fraction.length : ℤ)) := by
  have hmark : '.' ∉ whole := hw.not_mem (by decide)
  obtain ⟨htake, hdrop⟩ := cut_at hmark fraction
  rw [pointNumber, htake, hdrop]
  rfl

/-- The number of digits without a point. -/
theorem pointNumber_whole {whole : List Char} (hw : AllDigits whole) :
    pointNumber whole = Nat.ofDigitChars 10 whole 0 := by
  have hmark : '.' ∉ whole := hw.not_mem (by decide)
  obtain ⟨htake, hdrop⟩ := cut_nowhere hmark
  rw [pointNumber, htake, hdrop]
  simp

/-- The number of a text without an exponent. -/
theorem textNumber_plain {cs : List Char} (h : 'e' ∉ cs) : textNumber cs = pointNumber cs := by
  obtain ⟨htake, hdrop⟩ := cut_nowhere h
  rw [textNumber, htake, hdrop]
  simp [exponentNumber]

/-- The number of a text with an exponent. -/
theorem textNumber_exponent {cs ds : List Char} (h : 'e' ∉ cs) :
    textNumber (cs ++ 'e' :: ds) = pointNumber cs * 10 ^ exponentNumber ds := by
  obtain ⟨htake, hdrop⟩ := cut_at h ds
  rw [textNumber, htake, hdrop]
  rfl

/-- Zeros before digits tell nothing. -/
theorem ofDigitChars_zeros (n : Nat) (cs : List Char) :
    Nat.ofDigitChars 10 (List.replicate n '0' ++ cs) 0 = Nat.ofDigitChars 10 cs 0 := by
  rw [Nat.ofDigitChars_append, Nat.ofDigitChars_replicate_zero]
  simp

namespace Digits

variable {d : Digits}

/-- The number that digits with the place of their point stand for. -/
def number (d : Digits) : ℚ :=
  Nat.ofDigitChars 10 d.digits 0 * 10 ^ (d.point - d.digits.length)

/-- Digits with a point among or around them tell no exponent. -/
theorem textNumber_point {whole fraction : List Char} (hw : AllDigits whole)
    (hf : AllDigits fraction) : textNumber (whole ++ '.' :: fraction) =
      Nat.ofDigitChars 10 (whole ++ fraction) 0 * 10 ^ (-(fraction.length : ℤ)) := by
  have he : 'e' ∉ whole ++ '.' :: fraction := by
    have hwhole : 'e' ∉ whole := hw.not_mem (by decide)
    have hfraction : 'e' ∉ fraction := hf.not_mem (by decide)
    simp [hwhole, hfraction]
  rw [textNumber_plain he, pointNumber_point hw]

/-- A positional text tells its number. -/
theorem textNumber_positional (hd : AllDigits d.digits) :
    textNumber (d.positional ".0").toList = d.number := by
  rw [positional, number]
  -- the point stands before the digits, after them or among them
  split_ifs with hsmall hwhole
  · have htext : ("0." ++ String.ofList
        (List.replicate (-d.point).toNat '0' ++ d.digits)).toList =
          List.replicate 1 '0' ++ '.' :: (List.replicate (-d.point).toNat '0' ++ d.digits) := by
      simp
    rw [htext, textNumber_point (.zeros 1) ((AllDigits.zeros _).append hd), ← List.append_assoc,
      List.replicate_append_replicate, ofDigitChars_zeros, List.length_append,
      List.length_replicate]
    congr 2
    push_cast
    omega
  · obtain ⟨n, hn⟩ := Nat.exists_eq_add_of_le hwhole
    have htext : (String.ofList (d.digits ++ List.replicate n '0') ++ ".0").toList =
        (d.digits ++ List.replicate n '0') ++ '.' :: List.replicate 1 '0' := by
      simp
    rw [hn, Nat.add_sub_cancel_left, htext, textNumber_point (hd.append (.zeros _)) (.zeros 1),
      List.append_assoc, List.replicate_append_replicate, Nat.ofDigitChars_append,
      Nat.ofDigitChars_replicate_zero, show d.point - d.digits.length = (n : ℤ) by omega]
    push_cast
    rw [pow_succ, zpow_natCast]
    norm_num
    ring
  · rw [String.toList_ofList,
      textNumber_point (fun c hc => hd c (List.mem_of_mem_take hc))
        (fun c hc => hd c (List.mem_of_mem_drop hc)), List.take_append_drop, List.length_drop]
    congr 2
    omega

/-- The sign and the digits of an exponent tell it. -/
theorem exponentNumber_signed (e : ℤ) :
    exponentNumber ((if e < 0 then '-' else '+') :: Nat.toDigits 10 e.natAbs) = e := by
  split
  · rw [exponentNumber, Nat.ofDigitChars_ten_toDigits]
    omega
  · rw [exponentNumber, Nat.ofDigitChars_ten_toDigits]
    omega

/-- A scientific text tells its number. -/
theorem textNumber_scientific (hd : AllDigits d.digits) (hne : d.digits ≠ []) :
    textNumber d.scientific.toList = d.number := by
  have hexponent : ((if d.point - 1 < 0 then "e-" else "e+") ++
      toString (d.point - 1).natAbs).toList =
        'e' :: (if d.point - 1 < 0 then '-' else '+') :: Nat.toDigits 10 (d.point - 1).natAbs := by
    rw [String.toList_append, Nat.toString_eq_ofList_toDigits, String.toList_ofList]
    split <;> rfl
  have hten : (10 : ℚ) ≠ 0 := by norm_num
  rw [scientific, String.append_assoc, String.toList_append, hexponent, number]
  obtain ⟨digits, point⟩ := d
  -- with one digit there is no point
  match digits with
  | [] => exact absurd rfl hne
  | [c] =>
    have he : 'e' ∉ [c] := hd.not_mem (by decide)
    rw [String.toList_ofList, textNumber_exponent he, exponentNumber_signed, pointNumber_whole hd]
    rfl
  | c :: c' :: rest =>
    have hwhole : AllDigits [c] := fun _ h => hd _ (List.mem_append_left (c' :: rest) h)
    have he : 'e' ∉ [c] ++ '.' :: c' :: rest := by
      have hnot : 'e' ∉ c :: c' :: rest := hd.not_mem (by decide)
      simpa using hnot
    rw [String.toList_ofList, show c :: '.' :: c' :: rest = [c] ++ '.' :: c' :: rest from rfl,
      textNumber_exponent he, exponentNumber_signed, pointNumber_point hwhole, mul_assoc,
      ← zpow_add₀ hten]
    congr 2
    simp only [List.length_cons]
    push_cast
    ring

/-- A positional text begins with a digit. -/
theorem positional_head (hd : AllDigits d.digits) (hne : d.digits ≠ []) (whole : String) :
    ∃ c cs, (d.positional whole).toList = c :: cs ∧ c.isDigit = true := by
  obtain ⟨c, cs, hcs⟩ := List.exists_cons_of_ne_nil hne
  have hc : c.isDigit = true := hd c (by simp [hcs])
  rw [positional]
  split_ifs with hsmall
  · exact ⟨'0', _, by rw [String.toList_append]; rfl, rfl⟩
  · exact ⟨c, _, by rw [String.toList_append, String.toList_ofList, hcs]; rfl, hc⟩
  · obtain ⟨n, hn⟩ : ∃ n, d.point.toNat = n + 1 := ⟨d.point.toNat - 1, by omega⟩
    exact ⟨c, _, by rw [String.toList_ofList, hcs, hn]; rfl, hc⟩

/-- A scientific text begins with a digit. -/
theorem scientific_head (hd : AllDigits d.digits) (hne : d.digits ≠ []) :
    ∃ c cs, d.scientific.toList = c :: cs ∧ c.isDigit = true := by
  obtain ⟨digits, point⟩ := d
  match digits with
  | [] => exact absurd rfl hne
  | [c] => exact ⟨c, _, by simp [scientific]; rfl, hd c (by simp)⟩
  | c :: c' :: rest => exact ⟨c, _, by simp [scientific]; rfl, hd c (by simp)⟩

/-- A positional text has a point. -/
theorem point_mem_positional (d : Digits) : '.' ∈ (d.positional ".0").toList := by
  rw [positional]
  split_ifs <;> simp

/-- A scientific text has an exponent. -/
theorem exponent_mem_scientific (d : Digits) : 'e' ∈ d.scientific.toList := by
  simp only [scientific, String.toList_append, List.mem_append]
  exact .inl (.inr (by split_ifs <;> decide))

end Digits

/-- The digits of a decimal stand for its number. -/
theorem Decimal.number_toDigits (d : Decimal) : d.toDigits.number = d.number := by
  rw [toDigits, Digits.number, Nat.ofDigitChars_ten_toDigits, add_sub_cancel_left]
  rfl

/-! ### Doubles and their bits -/

namespace Double

/-- Mantissa and exponent of a double are the ones that its bits can have. -/
theorem canonical_of_bits {bits : UInt64} {negative : Bool} {m : Nat} {q : Int}
    (h : ofBits bits = finite negative m q) : Canonical m q := by
  simp only [ofBits] at h
  split_ifs at h with hmax hzero
  · cases h
    exact ⟨by omega, le_rfl, .inr rfl⟩
  · cases h
    exact ⟨by omega, by omega, .inl (by omega)⟩

/-- Bits of finite doubles are told by what they stand for. -/
theorem bits_eq {bits bits' : UInt64} {negative : Bool} {m : Nat} {q : Int}
    (h : ofBits bits = finite negative m q) (h' : ofBits bits' = finite negative m q) :
    bits = bits' := by
  have hlt := bits.toNat_lt
  have hlt' := bits'.toNat_lt
  simp only [ofBits] at h h'
  -- the sign is the first bit, and the other parts are read off the rest
  have hsign : bits.toNat / 2 ^ 63 = 1 ↔ bits'.toNat / 2 ^ 63 = 1 := by
    split_ifs at h h' <;> cases h <;> simpa using (Double.finite.inj h').1.symm
  refine UInt64.toNat_inj.1 ?_
  split_ifs at h h' <;> obtain ⟨-, hm, hq⟩ := Double.finite.inj (h.trans h'.symm) <;> omega

/-- A finite float is told by what it stands for. -/
theorem float_eq {x y : Float} {negative : Bool} {m : Nat} {q : Int}
    (hx : ofFloat x = finite negative m q) (hy : ofFloat y = finite negative m q) : x = y := by
  obtain ⟨⟨bits, hbits⟩⟩ := x
  obtain ⟨⟨bits', hbits'⟩⟩ := y
  obtain rfl : bits = bits' := bits_eq hx hy
  rfl

end Double

/-! ### Texts of floats -/

namespace FloatText

/-- The text of a double that is not zero: positional digits if the point is near. -/
theorem json_eq {x : Float} {negative : Bool} {m : Nat} {q : Int}
    (h : Double.ofFloat x = .finite negative m q) (hm : 0 < m) : json x = sign negative ++
      if -5 < (Decimal.shortest .even m q).toDigits.point ∧
          (Decimal.shortest .even m q).toDigits.point ≤ 16
      then (Decimal.shortest .even m q).toDigits.positional ".0"
      else (Decimal.shortest .even m q).toDigits.scientific := by
  rw [json, h]
  split
  · contradiction
  · contradiction
  · next heq =>
    cases heq
    exact absurd hm (Nat.lt_irrefl 0)
  · next heq =>
    cases heq
    rfl

/-- The text of zero tells zero. -/
theorem textNumber_zero : textNumber ['0', '.', '0'] = 0 := by
  have hpoint := Digits.textNumber_point (.zeros 1) (.zeros 1)
  rw [ofDigitChars_zeros] at hpoint
  simpa [Nat.ofDigitChars] using hpoint

/-- The text of a finite float: its sign, and then digits with a point or an exponent that tell a
    number that rounds to it. -/
theorem json_tells {x : Float} (hx : finite x = true) : ∃ negative m q c cs,
    Double.ofFloat x = .finite negative m q ∧
      (json x).toList = (sign negative).toList ++ c :: cs ∧ c.isDigit = true ∧
        ('.' ∈ c :: cs ∨ 'e' ∈ c :: cs) ∧ RoundsTo (textNumber (c :: cs)) m q := by
  cases hdouble : Double.ofFloat x with
  | nan => simp [finite, hdouble] at hx
  | infinite negative => simp [finite, hdouble] at hx
  | finite negative m q =>
    rcases Nat.eq_zero_or_pos m with rfl | hm
    · refine ⟨negative, 0, q, '0', ['.', '0'], rfl, ?_, rfl, .inl (by decide), ?_⟩
      · simp [json, hdouble]
      · exact textNumber_zero ▸ RoundsTo.zero q
    · have hround := Decimal.shortest_roundsTo .even (Double.canonical_of_bits hdouble) hm
      rw [← Decimal.number_toDigits] at hround
      have hd : AllDigits (Decimal.shortest .even m q).toDigits.digits := .toDigits _
      have hne : (Decimal.shortest .even m q).toDigits.digits ≠ [] := Nat.toDigits_ne_nil
      rw [json_eq hdouble hm, String.toList_append]
      -- from here on only the digits matter
      generalize (Decimal.shortest .even m q).toDigits = d at *
      split_ifs
      · obtain ⟨c, cs, htext, hc⟩ := d.positional_head hd hne ".0"
        refine ⟨negative, m, q, c, cs, rfl, by rw [htext], hc, .inl ?_, ?_⟩
        · exact htext ▸ d.point_mem_positional
        · rwa [← htext, d.textNumber_positional hd]
      · obtain ⟨c, cs, htext, hc⟩ := d.scientific_head hd hne
        refine ⟨negative, m, q, c, cs, rfl, by rw [htext], hc, .inr ?_, ?_⟩
        · exact htext ▸ d.exponent_mem_scientific
        · rwa [← htext, d.textNumber_scientific hd hne]

/-- Signs are told apart by the digit after them. -/
theorem sign_cancel {negative negative' : Bool} {c c' : Char} {cs cs' : List Char}
    (hc : c.isDigit = true) (hc' : c'.isDigit = true)
    (h : (sign negative).toList ++ c :: cs = (sign negative').toList ++ c' :: cs') :
    negative = negative' ∧ c :: cs = c' :: cs' := by
  cases negative <;> cases negative' <;> simp [sign] at h
  · simp [h]
  · rw [h.1] at hc
    cases hc
  · rw [← h.1] at hc'
    cases hc'
  · simp [h]

/-- Finite floats with one text are equal. -/
theorem json_injective {x y : Float} (hx : finite x = true) (hy : finite y = true)
    (h : json x = json y) : x = y := by
  obtain ⟨negative, m, q, c, cs, hxd, hxt, hc, -, hround⟩ := json_tells hx
  obtain ⟨negative', m', q', c', cs', hyd, hyt, hc', -, hround'⟩ := json_tells hy
  rw [h, hyt] at hxt
  obtain ⟨rfl, hbody⟩ := sign_cancel hc' hc hxt
  rw [hbody] at hround'
  obtain ⟨rfl, rfl⟩ := hround.unique (Double.canonical_of_bits hxd) (Double.canonical_of_bits hyd)
    hround'
  exact Double.float_eq hxd hyd

end FloatText

end ChartPipeline
