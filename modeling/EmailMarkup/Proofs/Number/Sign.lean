import EmailMarkup.Number.Binary
import Mathlib

/-!
# Signs of double precision numbers

Widths are cut off at zero by comparing double precision numbers, and a width that is written out is
an integer turned into one. Here the sign of either is found. Turning an integer into a number
rounds it, and rounding keeps the sign of all that is not too close to zero
(`exists_roundWithAccuracy`). So a number that comes from an integer is at least zero exactly if the
integer is (`zero_le_ofInt_iff`).
-/

set_option autoImplicit false

namespace EmailMarkup.Number

open Float.Model Float.Model.UnpackedFloat

variable {m : Nat} {e : Int} {sign : Sign}

/-- Whether a number has a sign and is not zero. -/
def HasSign (sign : Sign) : UnpackedFloat → Prop
  | .infinity s => s = sign
  | .finite s _ _ _ => s = sign
  | .zero _ => False
  | .notANumber => False

/-! ### Rounding -/

/-- Shifting halves the mantissa at every step. -/
theorem mantissa_shiftRight (em : ExtendedMantissa) (k : Nat) :
    (em >>> k).mantissa = em.mantissa / 2 ^ k := by
  induction k with
  | zero => exact (Nat.div_one _).symm
  | succ k ih =>
    show (em >>> k).mantissa / 2 = em.mantissa / 2 ^ (k + 1)
    rw [ih, Nat.div_div_eq_div_mul, Nat.pow_succ]

/-- Rounding goes up if it goes anywhere. -/
theorem mantissa_le_rounded (em : ExtendedMantissa) : em.mantissa ≤ em.roundedMantissa := by
  obtain ⟨mantissa, roundBit, stickyBit⟩ := em
  cases roundBit with
  | false => cases stickyBit <;> exact Nat.le_refl _
  | true => cases stickyBit <;> exact Nat.le_add_right _ _

/-- What is not too close to zero is shifted to at most 53 bits, and at least one is left. -/
theorem shiftToTargetExponent_spec (hm : m ≠ 0) (he : -1074 ≤ (m.log2 : Int) + e) :
    (shiftToTargetExponent .binary64 m e .exact).1.mantissa ≠ 0 ∧
    (shiftToTargetExponent .binary64 m e .exact).1.mantissa < 2 ^ 53 ∧
    -1074 ≤ (shiftToTargetExponent .binary64 m e .exact).2 := by
  have htarget : Format.binary64.targetExponent (totalExponent m e) =
      max ((m.log2 : Int) + 1 + e - 53) (-1074) := rfl
  -- The number of bits that are dropped.
  generalize hk : (Format.binary64.targetExponent (totalExponent m e) - e).toNat = k
  have hshift : shiftToTargetExponent .binary64 m e .exact =
      ((⟨m, false, false⟩ : ExtendedMantissa) >>> k, e + k) := by
    rw [← hk]
    rfl
  rw [hshift, mantissa_shiftRight]
  rw [htarget] at hk
  refine ⟨?_, ?_, ?_⟩
  · have hlow : 2 ^ k ≤ m := (Nat.pow_le_pow_right (by decide) (by omega)).trans
      (Nat.log2_self_le hm)
    exact Nat.ne_of_gt (Nat.div_pos hlow (Nat.two_pow_pos k))
  · have hhigh : m < 2 ^ (53 + k) := Nat.lt_log2_self.trans_le
      (Nat.pow_le_pow_right (by decide) (by omega))
    rw [Nat.pow_add] at hhigh
    exact (Nat.div_lt_iff_lt_mul (Nat.two_pow_pos k)).mpr hhigh
  · show -1074 ≤ e + k
    omega

/-- Rounding keeps the sign of what is not too close to zero, and the result fits the format. -/
theorem exists_roundWithAccuracy (sign : Sign) (hm : m ≠ 0) (he : -1074 ≤ (m.log2 : Int) + e) :
    ∃ m' e' hpos, roundWithAccuracy .binary64 sign m e .exact = .finite sign m' e' hpos ∧
      m' < 2 ^ 53 ∧ -1074 ≤ e' := by
  obtain ⟨hfirst, -, hexponent⟩ := shiftToTargetExponent_spec hm he
  generalize hshift : shiftToTargetExponent .binary64 m e .exact = first at hfirst hexponent
  have hrounded : first.1.roundedMantissa ≠ 0 := by
    have := mantissa_le_rounded first.1
    omega
  -- Rounding may need one more bit, so there is a second shift.
  obtain ⟨hsecond, hsmall, hlast⟩ :=
    shiftToTargetExponent_spec (e := first.2) hrounded (by omega)
  refine ⟨_, _, Nat.pos_of_ne_zero hsecond, ?_, hsmall, hlast⟩
  unfold roundWithAccuracy
  rw [hshift]
  exact dif_neg hsecond

/-! ### Packing -/

/-- What is read back from parts that are not those of zero or of no number has their sign. -/
theorem hasSign_unpack_packComponents {spec : Format} (sign : Sign)
    {exponent : BitVec spec.exponentBits} {mantissa : BitVec spec.mantissaBitsWithoutImplicit}
    (hnumber : exponent = -1#_ → mantissa = 0#_) (hzero : exponent = 0#_ → mantissa ≠ 0#_) :
    HasSign sign (UnpackedFloat.unpack spec (packComponents spec sign exponent mantissa)) := by
  unfold UnpackedFloat.unpack
  simp only [unpackMantissa_packComponents, unpackExponent_packComponents,
    unpackSign_packComponents, Sign.ofBitVec_toBitVec]
  split
  · rename_i hlast
    rw [if_pos (hnumber hlast)]
    rfl
  · split
    · rename_i hfirst
      rw [dif_neg (hzero hfirst)]
      rfl
    · rfl

theorem hasSign_unpack_packedInfinity (sign : Sign) :
    HasSign sign (UnpackedFloat.unpack .binary64 (packedInfinity .binary64 sign)) :=
  hasSign_unpack_packComponents sign (fun _ => rfl) (by decide)

/-- A number that fits the format keeps its sign. -/
theorem hasSign_pack (sign : Sign) (hpos : 0 < m) (hm : m < 2 ^ 53) (he : -1074 ≤ e) :
    HasSign sign (Float.Model.pack (.finite sign m e hpos)).unpack := by
  show HasSign sign (UnpackedFloat.unpack .binary64 (UnpackedFloat.pack .binary64
    (.finite sign m e hpos)))
  unfold UnpackedFloat.pack
  simp only
  split
  · exact hasSign_unpack_packedInfinity sign
  · rename_i hlarge
    have hbias : (e + Format.binary64.exponentBias +
        Format.binary64.mantissaBitsWithoutImplicit).toNat = (e + 1075).toNat := by
      show (e + 1023 + 52).toNat = (e + 1075).toNat
      omega
    replace hlarge : ¬ 2 ^ 11 ≤ (e + 1075).toNat + 1 := by
      rwa [hbias] at hlarge
    rw [hbias]
    split
    · refine hasSign_unpack_packComponents sign (fun hlast => ?_) (fun hfirst => ?_)
      · have := congrArg BitVec.toNat hlast
        rw [BitVec.toNat_ofNat] at this
        replace this : (e + 1075).toNat % 2 ^ 11 = 2047 := this
        omega
      · have := congrArg BitVec.toNat hfirst
        rw [BitVec.toNat_ofNat] at this
        replace this : (e + 1075).toNat % 2 ^ 11 = 0 := this
        omega
    · rename_i hshort
      refine hasSign_unpack_packComponents sign (fun hlast => absurd hlast (by decide))
        (fun _ hnone => ?_)
      have hlow : m < 2 ^ 52 := by
        by_contra hfull
        have hlog : m.log2 = 52 := (Nat.log2_eq_iff hpos.ne').mpr ⟨by omega, hm⟩
        exact hshort (by rw [hlog]; rfl)
      have := congrArg BitVec.toNat hnone
      rw [BitVec.toNat_ofNat] at this
      replace this : m % 2 ^ 52 = 0 := this
      omega

/-- What is read from bits fits the format. -/
theorem bounds_of_unpack {b : BitVec Format.binary64.numBits} {hpos : 0 < m}
    (h : UnpackedFloat.unpack .binary64 b = .finite sign m e hpos) : m < 2 ^ 53 ∧ -1074 ≤ e := by
  have hmantissa : (unpackMantissa b).toNat < 2 ^ 52 := (unpackMantissa b).isLt
  have hbias : (Format.binary64.exponentBias : Int) + Format.binary64.mantissaBitsWithoutImplicit =
      1075 := rfl
  unfold UnpackedFloat.unpack at h
  simp only [hbias] at h
  split at h
  · split at h <;> cases h
  · split at h
    · split at h
      · cases h
      · cases h
        omega
    · rename_i hfirst
      cases h
      have hexponent : (unpackExponent b).toNat ≠ 0 := fun hzero =>
        hfirst (BitVec.eq_of_toNat_eq hzero)
      refine ⟨(1#1 ++ unpackMantissa b).isLt, ?_⟩
      omega

/-! ### Integers -/

theorem hasSign_pack_round (sign : Sign) (hm : m ≠ 0) (he : -1074 ≤ (m.log2 : Int) + e) :
    HasSign sign (Float.Model.pack (roundWithAccuracy .binary64 sign m e .exact)).unpack := by
  obtain ⟨m', e', hpos, hround, hm', he'⟩ := exists_roundWithAccuracy sign hm he
  rw [hround]
  exact hasSign_pack sign hpos hm' he'

/-- The number of bits grows with a power of two. -/
theorem log2_mul_two_pow {n : Nat} (hn : n ≠ 0) (k : Nat) : (n * 2 ^ k).log2 = n.log2 + k := by
  have hk : 0 < 2 ^ k := Nat.two_pow_pos k
  refine (Nat.log2_eq_iff (Nat.mul_ne_zero hn hk.ne')).mpr ⟨?_, ?_⟩
  · rw [Nat.pow_add]
    exact Nat.mul_le_mul_right _ (Nat.log2_self_le hn)
  · rw [Nat.add_right_comm, Nat.pow_add]
    exact Nat.mul_lt_mul_of_pos_right Nat.lt_log2_self hk

theorem sign_mul_positive (sign : Sign) : sign * .positive = sign := by
  cases sign <;> rfl

/-- Multiplying by one, in whatever form, keeps the sign. -/
theorem hasSign_mul_one {x one : Float.Model} (hx : HasSign sign x.unpack) {k : Nat}
    {hpos : 0 < 2 ^ k} (hone : one.unpack = .finite .positive (2 ^ k) (-k) hpos) :
    HasSign sign (x * one).unpack := by
  show HasSign sign (Float.Model.pack (UnpackedFloat.mul .binary64 x.unpack one.unpack)).unpack
  rw [hone]
  cases hunpack : x.unpack with
  | infinity s =>
    rw [hunpack] at hx
    obtain rfl : s = sign := hx
    rw [UnpackedFloat.mul, sign_mul_positive]
    exact hasSign_unpack_packedInfinity s
  | finite s m e hm =>
    rw [hunpack] at hx
    obtain rfl : s = sign := hx
    obtain ⟨-, hexponent⟩ := bounds_of_unpack hunpack
    rw [UnpackedFloat.mul, sign_mul_positive]
    refine hasSign_pack_round s (Nat.mul_ne_zero hm.ne' hpos.ne') ?_
    rw [log2_mul_two_pow hm.ne']
    omega
  | zero s | notANumber =>
    rw [hunpack] at hx
    exact hx.elim

theorem hasSign_toFloat {n : UInt64} (hn : n.toNat ≠ 0) :
    HasSign .positive n.toFloat.toModel.unpack := by
  have hround : n.toFloat.toModel =
      Float.Model.pack (UnpackedFloat.round .binary64 .positive n.toNat 0) := by
    show Float.Model.pack (UnpackedFloat.normalize .binary64 (n.toNat : Int) 0 .positive) = _
    unfold UnpackedFloat.normalize
    have hcompare : compare (n.toNat : Int) 0 = .gt := by
      rw [Int.compare_eq_gt]
      omega
    rw [hcompare]
    rfl
  rw [hround]
  unfold UnpackedFloat.round decreaseExponent
  simp only
  rw [Nat.shiftLeft_eq]
  refine hasSign_pack_round .positive (Nat.mul_ne_zero hn (Nat.two_pow_pos _).ne') ?_
  rw [log2_mul_two_pow hn]
  omega

/-- A number that comes from a positive integer is positive. -/
theorem hasSign_ofNat {n : Nat} (hn : n ≠ 0) :
    HasSign .positive (Float.ofNat n).toModel.unpack := by
  show HasSign .positive (Float.ofScientific n false 0).toModel.unpack
  unfold Float.ofScientific
  split
  · rename_i hsmall
    have hword : n.toUInt64.toNat = n := by
      rw [Nat.toUInt64_eq, UInt64.toNat_ofNat']
      omega
    have hone : (Float.ofBits 0x3FF0000000000000).toModel.unpack =
        .finite .positive (2 ^ 52) (-52) (Nat.two_pow_pos 52) := rfl
    exact hasSign_mul_one (hasSign_toFloat (by rwa [hword])) hone
  · have hscientific : UnpackedFloat.ofScientific .binary64 n 0 =
        roundWithAccuracy .binary64 .positive (n * 2 ^ 53) (-53) .exact := by
      unfold UnpackedFloat.ofScientific
      rw [dif_neg hn, if_neg (by decide), if_neg ?_, if_pos (by decide), UnpackedFloat.mul]
      · have hmantissa : n <<< Format.binary64.mantissaBits * 10 ^ Int.toNat 0 = n * 2 ^ 53 := by
          rw [Nat.shiftLeft_eq]
          exact Nat.mul_one _
        rw [hmantissa]
        rfl
      · have hbits : (2 : Int) ^ Format.binary64.exponentBits = 2048 := rfl
        rw [hbits]
        omega
    show HasSign .positive (Float.Model.pack (UnpackedFloat.ofScientific .binary64 n 0)).unpack
    rw [hscientific]
    refine hasSign_pack_round .positive (Nat.mul_ne_zero hn (Nat.two_pow_pos _).ne') ?_
    rw [log2_mul_two_pow hn]
    omega

theorem hasSign_neg {x : Float.Model} (hx : HasSign .positive x.unpack) :
    HasSign .negative (-x).unpack := by
  show HasSign .negative (Float.Model.pack x.unpack.neg).unpack
  cases hunpack : x.unpack with
  | infinity s =>
    rw [hunpack] at hx
    obtain rfl : s = .positive := hx
    exact hasSign_unpack_packedInfinity .negative
  | finite s m e hpos =>
    rw [hunpack] at hx
    obtain rfl : s = .positive := hx
    obtain ⟨hm, he⟩ := bounds_of_unpack hunpack
    exact hasSign_pack .negative hpos hm he
  | zero s | notANumber =>
    rw [hunpack] at hx
    exact hx.elim

/-! ### Comparing with zero -/

theorem zero_le_iff (x : Float) :
    0 ≤ x ↔ UnpackedFloat.le (.zero .positive) x.toModel.unpack = true :=
  decide_eq_true_iff

theorem zero_le_iff_of_hasSign {x : Float} (hx : HasSign sign x.toModel.unpack) :
    0 ≤ x ↔ sign = .positive := by
  rw [zero_le_iff]
  cases hunpack : x.toModel.unpack with
  | infinity s | finite s =>
    rw [hunpack] at hx
    obtain rfl : s = sign := hx
    cases s with
    | positive => exact iff_of_true rfl rfl
    | negative => exact iff_of_false Bool.false_ne_true nofun
  | zero s | notANumber =>
    rw [hunpack] at hx
    exact hx.elim

/-- A number that comes from an integer is at least zero exactly if the integer is. -/
theorem zero_le_ofInt_iff (n : Int) : 0 ≤ Float.ofInt n ↔ 0 ≤ n := by
  cases n with
  | ofNat n =>
    refine iff_of_true ?_ (Int.natCast_nonneg n)
    by_cases hn : n = 0
    · subst hn
      show (0 : Float) ≤ 0
      decide
    · exact (zero_le_iff_of_hasSign (hasSign_ofNat hn)).mpr rfl
  | negSucc n =>
    refine iff_of_false ?_ (Int.negSucc_not_nonneg n).mp
    have hsign := zero_le_iff_of_hasSign (hasSign_neg (hasSign_ofNat (Nat.succ_ne_zero n)))
    exact mt hsign.mp nofun

/-- What is cut off at zero is at least zero, also if it is not a number. -/
theorem zero_le_atLeastZero (x : Float) : 0 ≤ atLeastZero x := by
  unfold atLeastZero
  split
  · rename_i hx
    replace hx : UnpackedFloat.lt (.zero .positive) x.toModel.unpack = true :=
      decide_eq_true_iff.mp hx
    rw [zero_le_iff, UnpackedFloat.le]
    rw [UnpackedFloat.lt, beq_iff_eq] at hx
    rw [hx]
    rfl
  · decide

end EmailMarkup.Number
