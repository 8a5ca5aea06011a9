import Mathlib
import ChartPipeline.Json.Number
import ChartPipeline.Text.FloatText

/-!
# Numbers that are read are finite

A numeral becomes a float by one product or by quotients.  A product of finite floats is not a
number only if it is infinite, and then the numeral has no value; a quotient by a power of ten is
not greater than what was divided.

## Key results

- `Numeral.value_plain`: a float that a numeral stands for is finite
- `finite_ofInt`: an integer of 64 bits becomes a finite float
-/

namespace ChartPipeline

open Float.Model Float.Model.UnpackedFloat

/-! ### Unpacked floats -/

/-- Zero, or a number with an exponent up to the given one. -/
def UpTo (top : Int) : UnpackedFloat → Prop
  | .zero _ => True
  | .finite _ _ e _ => e ≤ top
  | _ => False

/-- A number with an exponent up to a bound has one up to every greater bound. -/
theorem UpTo.mono {top top' : Int} {u : UnpackedFloat} (h : UpTo top u) (hle : top ≤ top') :
    UpTo top' u := by
  cases u with
  | zero => trivial
  | finite s m e hm => exact le_trans h hle
  | infinity => exact h
  | notANumber => exact h

/-- The exponent of a double is in the eleven bits above the lower 52. -/
theorem toNat_unpackExponent (b : BitVec 64) :
    (@unpackExponent Format.binary64 b).toNat = b.toNat / 2 ^ 52 % 2 ^ 11 := by
  simp [unpackExponent, Nat.shiftRight_eq_div_pow]

/-- The bias of the exponents, for numbers of 53 bits without a point. -/
theorem bias_binary64 : (Format.binary64.exponentBias : Int) +
    Format.binary64.mantissaBitsWithoutImplicit = 1075 := by
  decide

/-- With the greatest exponent, bits unpack to infinity or to no number. -/
theorem unpack_greatest {b : BitVec 64} (h : @unpackExponent Format.binary64 b = -1#_) :
    (∃ s, UnpackedFloat.unpack Format.binary64 b = .infinity s) ∨
      @unpackMantissa Format.binary64 b ≠ 0#_ ∧
        UnpackedFloat.unpack Format.binary64 b = .notANumber := by
  by_cases hzero : @unpackMantissa Format.binary64 b = 0#_
  · exact .inl ⟨_, by rw [UnpackedFloat.unpack, if_pos h, if_pos hzero]⟩
  · exact .inr ⟨hzero, by rw [UnpackedFloat.unpack, if_pos h, if_neg hzero]⟩

/-- With another exponent, they unpack to zero or to a number of at most 53 bits. -/
theorem unpack_lesser {b : BitVec 64} (h : @unpackExponent Format.binary64 b ≠ -1#_) :
    (∃ s, UnpackedFloat.unpack Format.binary64 b = .zero s) ∨
      ∃ s m e hm, UnpackedFloat.unpack Format.binary64 b = .finite s m e hm ∧ m < 2 ^ 53 ∧
        e = max ((@unpackExponent Format.binary64 b).toNat - 1075 : Int) (-1074) := by
  have hmantissa : (@unpackMantissa Format.binary64 b).toNat < 2 ^ 52 :=
    (@unpackMantissa Format.binary64 b).isLt
  have hbias := bias_binary64
  -- the least exponent is that of zero and of the subnormal numbers
  by_cases hleast : @unpackExponent Format.binary64 b = 0#_
  · by_cases hzero : @unpackMantissa Format.binary64 b = 0#_
    · exact .inl ⟨_, by rw [UnpackedFloat.unpack, if_neg h, if_pos hleast, dif_pos hzero]⟩
    · -- a subnormal number
      refine .inr ⟨_, _, _, _, by
        rw [UnpackedFloat.unpack, if_neg h, if_pos hleast, dif_neg hzero], ?_, ?_⟩
      · omega
      · rw [hbias, hleast]
        rfl
  · refine .inr ⟨_, _, _, _, by rw [UnpackedFloat.unpack, if_neg h, if_neg hleast], ?_, ?_⟩
    · exact (1#1 ++ @unpackMantissa Format.binary64 b).isLt
    · have hpos : (@unpackExponent Format.binary64 b).toNat ≠ 0 := fun h =>
        hleast (BitVec.eq_of_toNat_eq h)
      rw [hbias]
      omega

/-- What bits unpack to, by the exponent in them. -/
theorem unpack_cases (b : BitVec 64) :
    ((@unpackExponent Format.binary64 b).toNat = 2047 ∧
      ((∃ s, UnpackedFloat.unpack Format.binary64 b = .infinity s) ∨
        @unpackMantissa Format.binary64 b ≠ 0#_ ∧
          UnpackedFloat.unpack Format.binary64 b = .notANumber)) ∨
    ((@unpackExponent Format.binary64 b).toNat < 2047 ∧
      ((∃ s, UnpackedFloat.unpack Format.binary64 b = .zero s) ∨
        ∃ s m e hm, UnpackedFloat.unpack Format.binary64 b = .finite s m e hm ∧ m < 2 ^ 53 ∧
          e = max ((@unpackExponent Format.binary64 b).toNat - 1075 : Int) (-1074))) := by
  by_cases hmax : @unpackExponent Format.binary64 b = -1#_
  · exact .inl ⟨by rw [hmax]; rfl, unpack_greatest hmax⟩
  · have hlt : (@unpackExponent Format.binary64 b).toNat < 2048 :=
      (@unpackExponent Format.binary64 b).isLt
    have hne : (@unpackExponent Format.binary64 b).toNat ≠ 2047 := fun h =>
      hmax (BitVec.eq_of_toNat_eq h)
    exact .inr ⟨by omega, unpack_lesser hmax⟩

/-- Whether a float is finite is told by what it unpacks to. -/
theorem finite_eq_isFinite (x : Float) : FloatText.finite x = x.toModel.unpack.isFinite := by
  have hfield : (@unpackExponent Format.binary64 x.toModel.toBits.toBitVec).toNat =
      x.toBits.toNat / 2 ^ 52 % 2 ^ 11 := toNat_unpackExponent _
  rw [FloatText.finite, Double.ofFloat, Double.ofBits, Float.Model.unpack]
  -- both look at the exponent first: with the greatest one neither is finite
  rcases unpack_cases x.toModel.toBits.toBitVec with ⟨hmax, hcases⟩ | ⟨hlt, hcases⟩
  · have hnot : x.toBits.toNat / 2 ^ 52 % 2 ^ 11 = 2 ^ 11 - 1 := by omega
    rcases hcases with ⟨s, hs⟩ | ⟨-, hs⟩ <;>
      simp only [hnot, hs, UnpackedFloat.isFinite, if_true] <;> split_ifs <;> rfl
  · have hnot : ¬ x.toBits.toNat / 2 ^ 52 % 2 ^ 11 = 2 ^ 11 - 1 := by omega
    rcases hcases with ⟨s, hs⟩ | ⟨s, m, e, hm, hs, -⟩ <;>
      simp only [hnot, hs, UnpackedFloat.isFinite, if_false] <;> split_ifs <;> rfl

/-- What a float unpacks to: at most 53 bits, and an exponent in range. -/
theorem unpack_shape {v : Float.Model} {s : Sign} {m : Nat} {e : Int} {hm : 0 < m}
    (h : v.unpack = .finite s m e hm) : m < 2 ^ 53 ∧ e ≤ 971 := by
  rw [Float.Model.unpack] at h
  rcases unpack_cases v.toBits.toBitVec with ⟨-, hcases⟩ | ⟨hlt, hcases⟩
  · rcases hcases with ⟨s, hs⟩ | ⟨-, hs⟩ <;> simp [hs] at h
  · rcases hcases with ⟨s, hs⟩ | ⟨s, m, e, hm, hs, hlt, he⟩
    · simp [hs] at h
    · rw [hs] at h
      cases h
      exact ⟨hlt, by omega⟩

/-- What is packed with the greatest exponent is infinite. -/
theorem pack_infinite {u : UnpackedFloat} (hu : u ≠ .notANumber)
    (h : (@unpackExponent Format.binary64 (UnpackedFloat.pack Format.binary64 u)).toNat = 2047) :
    @unpackMantissa Format.binary64 (UnpackedFloat.pack Format.binary64 u) = 0#_ := by
  cases u with
  | notANumber => exact absurd rfl hu
  | infinity s => exact unpackMantissa_packComponents
  | zero s => exact unpackMantissa_packComponents
  | finite s m e hm =>
    rw [UnpackedFloat.pack] at h ⊢
    split_ifs at h ⊢ with hover
    · exact unpackMantissa_packComponents
    · rw [unpackExponent_packComponents, BitVec.toNat_ofNat] at h
      norm_num at hover h
      omega
    · rw [unpackExponent_packComponents] at h
      cases h

/-- The exponent that is packed. -/
theorem pack_exponent {top : Int} {u : UnpackedFloat} (hu : UpTo top u) (hhigh : top ≤ 971) :
    (@unpackExponent Format.binary64 (UnpackedFloat.pack Format.binary64 u)).toNat ≤
      (top + 1075).toNat := by
  cases u with
  | notANumber => cases hu
  | infinity s => cases hu
  | zero s =>
    have hzero : @unpackExponent Format.binary64 (UnpackedFloat.pack Format.binary64 (.zero s)) =
        0 := unpackExponent_packComponents
    rw [hzero]
    exact Nat.zero_le _
  | finite s m e hm =>
    have he : e ≤ top := hu
    have hbias := bias_binary64
    rw [UnpackedFloat.pack]
    -- an exponent that is too great, a normal number, and a subnormal one
    split_ifs with hover
    · have hbits : 2 ^ Format.binary64.exponentBits = 2048 := rfl
      omega
    · rw [unpackExponent_packComponents, BitVec.toNat_ofNat]
      refine (Nat.mod_le _ _).trans ?_
      omega
    · rw [unpackExponent_packComponents]
      exact Nat.zero_le _

/-- What is a number stays one when it is packed. -/
theorem unpack_pack_ne_nan {u : UnpackedFloat} (hu : u ≠ .notANumber) :
    (Float.Model.pack u).unpack ≠ .notANumber := by
  show UnpackedFloat.unpack Format.binary64 (UnpackedFloat.pack Format.binary64 u) ≠ .notANumber
  rcases unpack_cases (UnpackedFloat.pack Format.binary64 u) with ⟨hmax, hcases⟩ | ⟨-, hcases⟩
  · rcases hcases with ⟨s, hs⟩ | ⟨hmantissa, -⟩
    · simp [hs]
    · exact absurd (pack_infinite hu hmax) hmantissa
  · rcases hcases with ⟨s, hs⟩ | ⟨s, m, e, hm, hs, -⟩ <;> simp [hs]

/-- Packing a number in range and unpacking it keeps the bound on its exponent. -/
theorem unpack_pack_upTo {top : Int} {u : UnpackedFloat} (hu : UpTo top u) (hlow : -1074 ≤ top)
    (hhigh : top ≤ 971) : UpTo top (Float.Model.pack u).unpack := by
  show UpTo top (UnpackedFloat.unpack Format.binary64 (UnpackedFloat.pack Format.binary64 u))
  have hexponent := pack_exponent hu hhigh
  rcases unpack_cases (UnpackedFloat.pack Format.binary64 u) with ⟨hmax, -⟩ | ⟨-, hcases⟩
  · omega
  · rcases hcases with ⟨s, hs⟩ | ⟨s, m, e, hm, hs, -, he⟩
    · rw [hs]
      trivial
    · rw [hs]
      show e ≤ top
      omega

/-! ### Rounding -/

/-- Shifting a mantissa to the right divides it. -/
theorem mantissa_shift (em : ExtendedMantissa) (n : Nat) :
    (em >>> n).mantissa = em.mantissa / 2 ^ n := by
  induction n with
  | zero => exact (Nat.div_one _).symm
  | succ n ih =>
    have hstep : (em >>> (n + 1)).mantissa = (em >>> n).mantissa / 2 := rfl
    rw [hstep, ih, Nat.div_div_eq_div_mul, ← Nat.pow_succ]

/-- How exact a mantissa is leaves it as it is. -/
theorem mantissa_ofAccuracy (m : Nat) (accuracy : Accuracy) :
    (ExtendedMantissa.ofMantissaAndAccuracy m accuracy).mantissa = m := by
  rcases accuracy with _ | _ | _ | _ <;> rfl

/-- Rounding a mantissa adds one at most. -/
theorem roundedMantissa_le (em : ExtendedMantissa) : em.roundedMantissa ≤ em.mantissa + 1 := by
  obtain ⟨m, round, sticky⟩ := em
  cases round <;> cases sticky <;>
    simp only [ExtendedMantissa.roundedMantissa, ExtendedMantissa.accuracy,
      Accuracy.roundToNearestEven] <;> omega

/-- The exponent that a number is shifted to. -/
theorem exponent_shift (m : Nat) (e : Int) (accuracy : Accuracy) :
    (shiftToTargetExponent Format.binary64 m e accuracy).2 =
      max e (max (m.log2 + 1 + e - 53) (-1074)) := by
  have htarget : Format.binary64.targetExponent (totalExponent m e) =
      max (m.log2 + 1 + e - 53) (-1074) := rfl
  show e + (Format.binary64.targetExponent (totalExponent m e) - e).toNat = _
  rw [htarget]
  omega

/-- Shifting a number so that it has its exponent leaves it that many bits. -/
theorem mantissa_shift_lt (m : Nat) (e : Int) (accuracy : Accuracy) {k : Nat}
    (hk : (m.log2 : Int) + 1 + e ≤ (shiftToTargetExponent Format.binary64 m e accuracy).2 + k) :
    (shiftToTargetExponent Format.binary64 m e accuracy).1.mantissa < 2 ^ k := by
  let shift := (Format.binary64.targetExponent (totalExponent m e) - e).toNat
  have hexponent : (shiftToTargetExponent Format.binary64 m e accuracy).2 = e + shift := rfl
  have hmantissa : (shiftToTargetExponent Format.binary64 m e accuracy).1.mantissa =
      m / 2 ^ shift :=
    (mantissa_shift (.ofMantissaAndAccuracy m accuracy) shift).trans (by rw [mantissa_ofAccuracy])
  rw [hmantissa, Nat.div_lt_iff_lt_mul (by positivity), ← Nat.pow_add]
  exact Nat.lt_log2_self.trans_le (Nat.pow_le_pow_right (by decide) (by omega))

/-- A number below a power of two has a logarithm below the exponent. -/
theorem log2_le_of_lt_two_pow {n k : Nat} (h : n < 2 ^ (k + 1)) : n.log2 ≤ k := by
  rcases Nat.eq_zero_or_pos n with rfl | hn
  · exact Nat.zero_le _
  · exact Nat.le_of_lt_succ ((Nat.log2_lt hn.ne').2 h)

/-- Rounding raises the exponent to where 53 bits are left, and by one more if it carries. -/
theorem roundWithAccuracy_upTo (s : Sign) (m : Nat) (e : Int) (accuracy : Accuracy) :
    UpTo (max e (max (m.log2 + 1 + e - 52) (-1074)))
      (roundWithAccuracy Format.binary64 s m e accuracy) := by
  have hfirst := exponent_shift m e accuracy
  have hmantissa (k : Nat) := mantissa_shift_lt m e accuracy (k := k)
  rw [roundWithAccuracy]
  generalize shiftToTargetExponent Format.binary64 m e accuracy = first at hfirst hmantissa ⊢
  obtain ⟨em, e'⟩ := first
  -- a carry gives one bit more, which the second shift takes away
  have hlog : em.roundedMantissa.log2 ≤ (m.log2 + 1 + e - e').toNat :=
    log2_le_of_lt_two_pow (((roundedMantissa_le em).trans (hmantissa _ (by omega))).trans_lt
      (Nat.pow_lt_pow_right (by decide) (Nat.lt_succ_self _)))
  have hsecond := exponent_shift em.roundedMantissa e' .exact
  dsimp only at hfirst ⊢
  split
  · trivial
  · show (shiftToTargetExponent Format.binary64 em.roundedMantissa e' .exact).2 ≤ _
    rw [hsecond]
    omega

/-! ### Arithmetic -/

/-- A float that is zero or a number in range is finite. -/
theorem finite_of_upTo {x : Float} {top : Int} (h : UpTo top x.toModel.unpack) :
    FloatText.finite x = true := by
  rw [finite_eq_isFinite]
  cases hx : x.toModel.unpack <;> rw [hx] at h <;> first | rfl | cases h

/-- What a finite float unpacks to. -/
theorem unpack_of_finite {x : Float} (h : FloatText.finite x = true) :
    (∃ s, x.toModel.unpack = .zero s) ∨
      ∃ s m e hm, x.toModel.unpack = .finite s m e hm ∧ m < 2 ^ 53 ∧ e ≤ 971 := by
  rw [finite_eq_isFinite] at h
  cases hx : x.toModel.unpack with
  | zero s => exact .inl ⟨s, rfl⟩
  | finite s m e hm => exact .inr ⟨s, m, e, hm, rfl, unpack_shape hx⟩
  | infinity s => rw [hx] at h; cases h
  | notANumber => rw [hx] at h; cases h

/-- The negative of a finite float is finite. -/
theorem finite_neg {x : Float} (h : FloatText.finite x = true) : FloatText.finite (-x) = true := by
  have hneg : UpTo 971 x.toModel.unpack.neg := by
    rcases unpack_of_finite h with ⟨s, hs⟩ | ⟨s, m, e, hm, hs, -, he⟩ <;> rw [hs]
    · trivial
    · exact he
  exact finite_of_upTo (unpack_pack_upTo hneg (by decide) le_rfl)

/-- A number in range is a number. -/
theorem ne_nan_of_upTo {top : Int} {u : UnpackedFloat} (h : UpTo top u) : u ≠ .notANumber := by
  rintro rfl
  exact h

/-- The exponent of a product is bounded by the sum of the exponents and the bits that are rounded
    off. -/
theorem mul_upTo (s s' : Sign) {m m' : Nat} (e e' : Int) (hm : 0 < m) (hm' : 0 < m') :
    UpTo (max (e + e') (max ((m * m').log2 + 1 + (e + e') - 52) (-1074)))
      (UnpackedFloat.mul Format.binary64 (.finite s m e hm) (.finite s' m' e' hm')) :=
  roundWithAccuracy_upTo (s * s') (m * m') (e + e') .exact

/-- A product of finite floats is finite unless it is infinite. -/
theorem finite_mul {x y : Float} (hx : FloatText.finite x = true) (hy : FloatText.finite y = true)
    (h : (x * y).isInf = false) : FloatText.finite (x * y) = true := by
  -- a product with zero is zero
  have hne : UnpackedFloat.mul Format.binary64 x.toModel.unpack y.toModel.unpack ≠ .notANumber := by
    rcases unpack_of_finite hx with ⟨s, hs⟩ | ⟨s, m, e, hm, hs, -⟩ <;>
      rcases unpack_of_finite hy with ⟨s', hs'⟩ | ⟨s', m', e', hm', hs', -⟩ <;> rw [hs, hs']
    · exact nofun
    · exact nofun
    · exact nofun
    · exact ne_nan_of_upTo (mul_upTo s s' e e' hm hm')
  -- neither infinite nor no number, hence finite
  have hinf : (x * y).toModel.unpack.isInf = false := h
  have hnan : (x * y).toModel.unpack ≠ .notANumber := unpack_pack_ne_nan hne
  rw [finite_eq_isFinite]
  cases hu : (x * y).toModel.unpack <;> simp_all [UnpackedFloat.isFinite, UnpackedFloat.isInf]

/-- A quotient has at most the bits that the divisor leaves. -/
theorem log2_div_add_le {n d : Nat} (h : 0 < n / d) : (n / d).log2 + d.log2 ≤ n.log2 := by
  have hd : d ≠ 0 := fun hd => by simp [hd] at h
  have hn : n ≠ 0 := fun hn => by simp [hn] at h
  refine (Nat.le_log2 hn).2 ?_
  calc 2 ^ ((n / d).log2 + d.log2) = 2 ^ (n / d).log2 * 2 ^ d.log2 := Nat.pow_add ..
    _ ≤ n / d * d := Nat.mul_le_mul (Nat.log2_self_le h.ne') (Nat.log2_self_le hd)
    _ ≤ n := Nat.div_mul_le_self n d

/-- A shift to the left adds as many bits as it shifts at most. -/
theorem log2_shiftLeft_le (m shift : Nat) : (m <<< shift).log2 ≤ m.log2 + shift := by
  refine log2_le_of_lt_two_pow ?_
  calc m <<< shift = m * 2 ^ shift := Nat.shiftLeft_eq m shift
    _ < 2 ^ (m.log2 + 1) * 2 ^ shift :=
      Nat.mul_lt_mul_of_pos_right Nat.lt_log2_self (by positivity)
    _ = 2 ^ (m.log2 + shift + 1) := by rw [← Nat.pow_add, Nat.add_right_comm]

/-- A quotient by a float from 2 on is finite. -/
theorem finite_div {x y : Float} (hx : FloatText.finite x = true) {s' : Sign} {m' : Nat} {e' : Int}
    {hm' : 0 < m'} (hy : y.toModel.unpack = .finite s' m' e' hm') (hlarge : 1 ≤ m'.log2 + e') :
    FloatText.finite (x / y) = true := by
  have hdiv : UpTo 971 (UnpackedFloat.div Format.binary64 x.toModel.unpack y.toModel.unpack) := by
    rcases unpack_of_finite hx with ⟨s, hs⟩ | ⟨s, m, e, hm, hs, hlt, he⟩ <;> rw [hs, hy]
    · trivial
    -- the quotient is taken of a dividend that is shifted until it has enough bits
    · have hlog : m.log2 ≤ 52 := log2_le_of_lt_two_pow hlt
      let target : Int := min (e - e') (max (totalExponent m e - totalExponent m' e' - 53) (-1074))
      have htarget : target =
          min (e - e') (max (m.log2 + 1 + e - (m'.log2 + 1 + e') - 53) (-1074)) :=
        rfl
      let shift := (e - e' - target).toNat
      -- dividing takes at least as many bits away as the divisor adds to the exponent
      refine (roundWithAccuracy_upTo (s / s') ((m <<< shift) / m') target _).mono ?_
      rcases Nat.eq_zero_or_pos ((m <<< shift) / m') with hzero | hpos
      · rw [hzero, Nat.log2_zero]
        omega
      · have hquotient := (log2_div_add_le hpos).trans (log2_shiftLeft_le m shift)
        omega
  exact finite_of_upTo (unpack_pack_upTo hdiv (by decide) le_rfl)

/-! ### Integers -/

/-- Rounding a natural number of 64 bits leaves a small exponent. -/
theorem round_upTo (s : Sign) {n : Nat} (hn : n < 2 ^ 64) :
    UpTo 12 (UnpackedFloat.round Format.binary64 s n 0) := by
  have hlog : n.log2 ≤ 63 := log2_le_of_lt_two_pow hn
  let target : Int := max (totalExponent n 0 - 53) (-1074)
  let shift := (0 - target).toNat
  refine (roundWithAccuracy_upTo s (n <<< shift) (0 - shift) .exact).mono ?_
  have hshift := log2_shiftLeft_le n shift
  omega

/-- So does taking an integer of 64 bits for a float. -/
theorem normalize_upTo {n : Int} (hn : n.natAbs < 2 ^ 64) :
    UpTo 12 (UnpackedFloat.normalize Format.binary64 n 0 .positive) := by
  unfold UnpackedFloat.normalize
  split
  · exact round_upTo .negative (by omega)
  · trivial
  · exact round_upTo .positive (by omega)

/-- A small float times one is finite. -/
theorem finite_mul_one {x : Float} (hx : UpTo 12 x.toModel.unpack)
    (hlt : ∀ s m e hm, x.toModel.unpack = .finite s m e hm → m < 2 ^ 53) :
    FloatText.finite (x * Float.ofBits 0x3FF0000000000000) = true := by
  have hone : (Float.ofBits 0x3FF0000000000000).toModel.unpack =
      .finite .positive (2 ^ 52) (-52) (by decide) := by rfl
  -- the product has twice the bits at most, and so stays below the greatest exponent
  have hmul : UpTo 971 (UnpackedFloat.mul Format.binary64 x.toModel.unpack
      (Float.ofBits 0x3FF0000000000000).toModel.unpack) := by
    rw [hone]
    cases hu : x.toModel.unpack with
    | zero s => trivial
    | finite s m e hm =>
      have he : e ≤ 12 := by rwa [hu] at hx
      have hlog : (m * 2 ^ 52).log2 ≤ 104 := log2_le_of_lt_two_pow (by
        have := hlt s m e hm hu
        omega)
      exact (mul_upTo s .positive e (-52) hm _).mono (by omega)
    | infinity s => rw [hu] at hx; cases hx
    | notANumber => rw [hu] at hx; cases hx
  exact finite_of_upTo (unpack_pack_upTo hmul (by decide) le_rfl)

/-- A natural number of 64 bits is in range when it is read as a decimal. -/
theorem ofScientific_upTo {n : Nat} (hn : n < 2 ^ 64) (hpos : n ≠ 0) :
    UpTo 971 (UnpackedFloat.ofScientific Format.binary64 n 0) := by
  have hshift : 0 < n <<< 53 := by
    rw [Nat.shiftLeft_eq]
    positivity
  have hlog : (n <<< 53 * 1).log2 ≤ 116 := by
    have hn : n.log2 ≤ 63 := log2_le_of_lt_two_pow hn
    have hle := log2_shiftLeft_le n 53
    rw [Nat.mul_one]
    omega
  have hbits : (2 : Int) ^ Format.binary64.exponentBits = 2048 := rfl
  -- a whole number is a product with one, which is bounded like all products
  have hproduct : UnpackedFloat.ofScientific Format.binary64 n 0 =
      UnpackedFloat.mul Format.binary64 (.finite .positive (n <<< 53) (-53) hshift)
        (.finite .positive 1 0 Nat.one_pos) := by
    rw [UnpackedFloat.ofScientific, dif_neg hpos, if_neg (by omega), if_neg (by omega),
      if_pos le_rfl]
    rfl
  rw [hproduct]
  refine (mul_upTo .positive .positive (-53) 0 hshift Nat.one_pos).mono ?_
  generalize (n <<< 53 * 1).log2 = k at hlog
  omega

/-- A natural number of 64 bits becomes a finite float. -/
theorem finite_ofNat {n : Nat} (hn : n < 2 ^ 64) : FloatText.finite (Float.ofNat n) = true := by
  show FloatText.finite (Float.ofScientific n false 0) = true
  unfold Float.ofScientific
  -- a number that fits into an unsigned integer is converted and multiplied by one
  split
  · next hsmall =>
    have hup : UpTo 12 n.toUInt64.toFloat.toModel.unpack :=
      unpack_pack_upTo (normalize_upTo n.toUInt64.toNat_lt) (by decide) (by decide)
    exact finite_mul_one hup fun s m e hm h => (unpack_shape h).1
  · next hlarge =>
    have hpos : n ≠ 0 := by
      rintro rfl
      exact hlarge (by decide)
    exact finite_of_upTo (unpack_pack_upTo (ofScientific_upTo hn hpos) (by decide) le_rfl)

/-- An integer of 64 bits becomes a finite float. -/
theorem finite_ofInt {n : Int} (hn : n.natAbs < 2 ^ 64) :
    FloatText.finite (Float.ofInt n) = true := by
  cases n with
  | ofNat n => exact finite_ofNat hn
  | negSucc n => exact finite_neg (finite_ofNat hn)

/-! ### The float nearest to a decimal -/

/-- Bits without the greatest exponent are those of a finite float. -/
theorem finite_ofBits {bits : UInt64} (h : bits.toNat / 2 ^ 52 % 2 ^ 11 < 2047) :
    FloatText.finite (Float.ofBits bits) = true := by
  have hfield := toNat_unpackExponent bits.toBitVec
  have hup : UpTo 971 (UnpackedFloat.unpack Format.binary64 bits.toBitVec) := by
    rcases unpack_cases bits.toBitVec with ⟨hmax, -⟩ | ⟨hlt, hcases⟩
    · exact absurd (hfield.symm.trans hmax) h.ne
    · rcases hcases with ⟨s, hs⟩ | ⟨s, m, e, hm, hs, -, he⟩ <;> rw [hs]
      · trivial
      · show e ≤ 971
        omega
  exact finite_of_upTo (unpack_pack_upTo hup (by decide) le_rfl)

/-- A quotient below a power of two is rounded up to the power at most. -/
theorem roundedQuotient_le {n d k : Nat} (h : n < d * 2 ^ k) : roundedQuotient n d ≤ 2 ^ k := by
  have hquotient : n / d < 2 ^ k := Nat.div_lt_of_lt_mul h
  have hmod : n / d % 2 ≤ 1 := by omega
  simp only [roundedQuotient]
  split_ifs <;> omega

/-- The bits of a double with few bits and a small exponent. -/
theorem doubleBits_lt {m : Nat} {e : Int} (hm : m ≤ 2 ^ 54) (he : e ≤ 900) :
    doubleBits m e < 2046 * 2 ^ 52 := by
  simp only [doubleBits]
  split_ifs <;> omega

/-- The double nearest to a quotient that is not too large is finite. -/
theorem finite_nearestDouble {n d : Nat} (h : n.log2 ≤ d.log2 + 900) :
    FloatText.finite (nearestDouble n d) = true := by
  unfold nearestDouble
  split_ifs with hzero
  · exact finite_ofBits (by decide)
  · dsimp only
    generalize hguess : (n.log2 : Int) - d.log2 - 52 = guess
    generalize he : max (if n * 2 ^ (-guess).toNat < d * 2 ^ guess.toNat * 2 ^ 52 then guess - 1
      else guess) (-1074) = e
    -- the quotient after scaling has 54 bits at most
    have hscaled : n * 2 ^ (-e).toNat < d * 2 ^ e.toNat * 2 ^ 54 := calc
      n * 2 ^ (-e).toNat < 2 ^ (n.log2 + 1) * 2 ^ (-e).toNat :=
        Nat.mul_lt_mul_of_pos_right Nat.lt_log2_self (by positivity)
      _ = 2 ^ (n.log2 + 1 + (-e).toNat) := (Nat.pow_add ..).symm
      _ ≤ 2 ^ (d.log2 + e.toNat + 54) := Nat.pow_le_pow_right (by decide) (by omega)
      _ = 2 ^ d.log2 * 2 ^ e.toNat * 2 ^ 54 := by rw [Nat.pow_add, Nat.pow_add]
      _ ≤ d * 2 ^ e.toNat * 2 ^ 54 :=
        Nat.mul_le_mul_right _ (Nat.mul_le_mul_right _ (Nat.log2_self_le fun hd => hzero (.inr hd)))
    have hm := roundedQuotient_le hscaled
    -- rounding may give a bit more, and then the exponent is raised by one
    have hbits : (if roundedQuotient (n * 2 ^ (-e).toNat) (d * 2 ^ e.toNat) = 2 ^ 53
        then doubleBits (2 ^ 52) (e + 1)
        else doubleBits (roundedQuotient (n * 2 ^ (-e).toNat) (d * 2 ^ e.toNat)) e) <
          2046 * 2 ^ 52 := by
      split_ifs
      · exact doubleBits_lt (by decide) (by omega)
      · exact doubleBits_lt hm (by omega)
    exact finite_ofBits (by rw [UInt64.toNat_ofNat']; omega)

/-- The double nearest to an integer of 64 bits is finite. -/
theorem finite_nearestDecimal {digits : Nat} (h : digits < 2 ^ 64) :
    FloatText.finite (nearestDecimal digits 0) = true := by
  unfold nearestDecimal
  split_ifs with hzero hlarge hsmall
  · exact finite_ofBits (by decide)
  · omega
  · omega
  · exact finite_nearestDouble (by simpa using (log2_le_of_lt_two_pow h).trans (by omega))

/-! ### Numerals -/

/-- An integer of 64 bits or a finite float. -/
def Number.Plain : Number → Prop
  | .int n => n.natAbs < 2 ^ 64
  | .float x => FloatText.finite x = true

namespace Numeral

/-- Whether a float is not less than two in magnitude. -/
def isLarge (x : Float) : Bool :=
  match x.toModel.unpack with
  | .finite _ m e _ => 1 ≤ m.log2 + e
  | _ => false

/-- The powers of ten in range are not less than two. -/
theorem isLarge_power : ∀ k : Fin 308, isLarge (nearestDecimal 1 (k + 1)) = true := by
  decide +kernel

/-- What a power of ten in range unpacks to. -/
theorem exists_unpack_power {k : Nat} (hpos : 1 ≤ k) (hk : k ≤ 308) :
    ∃ s m e hm, (nearestDecimal 1 k).toModel.unpack = .finite s m e hm ∧ 1 ≤ m.log2 + e := by
  obtain ⟨i, rfl⟩ := Nat.exists_eq_add_of_le' hpos
  have hlarge : isLarge (nearestDecimal 1 (i + 1)) = true := isLarge_power ⟨i, by omega⟩
  unfold isLarge at hlarge
  split at hlarge
  · next s m e hm hunpack => exact ⟨s, m, e, hm, hunpack, of_decide_eq_true hlarge⟩
  · cases hlarge

/-- A power of ten in range is finite. -/
theorem finite_power {k : Nat} (hk : k ≤ 308) : FloatText.finite (nearestDecimal 1 k) = true := by
  rcases Nat.eq_zero_or_pos k with rfl | hpos
  · exact finite_nearestDecimal (by decide)
  · obtain ⟨s, m, e, hm, hunpack, -⟩ := exists_unpack_power hpos hk
    rw [finite_eq_isFinite, hunpack]
    rfl

/-- Scaling a finite float by a power of ten gives a finite float, if any. -/
theorem scale_finite {x y : Float} {e : Int} {fuel : Nat} (hx : FloatText.finite x = true)
    (h : scale x e fuel = some y) : FloatText.finite y = true := by
  induction fuel generalizing x e with
  | zero =>
    obtain rfl : x = y := Option.some.inj h
    exact hx
  | succ fuel ih =>
    simp only [scale] at h
    -- up to 308 one product or quotient does; beyond that zero stays, and others are divided again
    -- or are too large
    split_ifs at h with hsmall hup hinf hzero
    · obtain rfl := Option.some.inj h
      exact finite_mul hx (finite_power hsmall) (by simpa using hinf)
    · obtain ⟨s, m, e', hm, hunpack, hlarge⟩ :=
        exists_unpack_power (k := e.natAbs) (by omega) hsmall
      obtain rfl := Option.some.inj h
      exact finite_div hx hunpack hlarge
    · obtain rfl := Option.some.inj h
      exact hx
    · obtain ⟨s, m, e', hm, hunpack, hlarge⟩ := exists_unpack_power (k := 308) (by decide) le_rfl
      exact ih (finite_div hx hunpack hlarge) h

/-- A finite float is so with a sign. -/
theorem signed_finite {x : Float} (hx : FloatText.finite x = true) (negative : Bool) :
    FloatText.finite (signed negative x) = true := by
  cases negative with
  | false => exact hx
  | true => exact finite_neg hx

/-- The digits before the point that are kept do not go beyond the limit. -/
theorem digits_ofWhole {ds : List Nat} {s : Significand} (hs : s.digits ≤ limit) :
    (Significand.ofWhole ds s).digits ≤ limit := by
  induction ds generalizing s with
  | nil => exact hs
  | cons d ds ih =>
    rw [Significand.ofWhole]
    split
    · next hd => exact ih hd
    · exact hs

/-- Nor do those after the point. -/
theorem digits_withFraction {ds : List Nat} {s : Significand} (hs : s.digits ≤ limit) :
    (Significand.withFraction ds s).digits ≤ limit := by
  induction ds generalizing s with
  | nil => exact hs
  | cons d ds ih =>
    rw [Significand.withFraction]
    split
    · next hd => exact ih hd
    · exact hs

/-- A significand scaled and signed. -/
theorem scaled_plain {s : Significand} (hs : s.digits ≤ limit) {e : Int} {negative : Bool}
    {v : Number} (h : (scale (nearestDecimal s.digits 0) e 8).map
      (fun x => Number.float (signed negative x)) = some v) : v.Plain := by
  obtain ⟨x, hx, rfl⟩ := Option.map_eq_some_iff.1 h
  have hdigits : FloatText.finite (nearestDecimal s.digits 0) = true :=
    finite_nearestDecimal (Nat.lt_of_le_pred (by decide) hs)
  exact signed_finite (scale_finite hdigits hx) negative

/-- The value of a numeral is an integer of 64 bits or a finite float. -/
theorem value_plain {n : Numeral} {v : Number} (h : n.value = some v) : v.Plain := by
  have hwhole : (Significand.ofWhole n.whole ⟨0, 0⟩).digits ≤ limit :=
    digits_ofWhole (Nat.zero_le _)
  have hs (fraction : List Nat) :
      (Significand.withFraction fraction (.ofWhole n.whole ⟨0, 0⟩)).digits ≤ limit :=
    digits_withFraction hwhole
  have hlimit : limit < 2 ^ 64 := by decide
  have hzero : FloatText.finite 0 = true := finite_ofNat (by decide)
  simp only [value] at h
  split at h
  -- a numeral without a point or an exponent is an integer if it is not too long
  · split_ifs at h with hmore hplain hfloat
    · exact scaled_plain hwhole h
    · obtain rfl := Option.some.inj h
      exact hwhole.trans_lt hlimit
    · obtain rfl := Option.some.inj h
      exact finite_neg (finite_nearestDecimal (hwhole.trans_lt hlimit))
    · obtain rfl := Option.some.inj h
      have hint : (-((Significand.ofWhole n.whole ⟨0, 0⟩).digits : Int)).natAbs < 2 ^ 64 := by omega
      exact hint
  · -- with a point or an exponent it is a float, of zero or of the digits that are kept
    split at h
    · exact scaled_plain (hs _) h
    · split_ifs at h
      · obtain rfl := Option.some.inj h
        exact signed_finite hzero n.negative
      · exact scaled_plain (hs _) h
      · exact scaled_plain (hs _) h

end Numeral

end ChartPipeline
