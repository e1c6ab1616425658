import Mathlib
import TracingHeap.Duration

namespace TracingHeap

open Float.Model (Format UnpackedFloat totalExponent)
open Float.Model.UnpackedFloat

section

variable (b : BitVec 64)

theorem toNat_unpackMantissa :
    (@unpackMantissa Format.binary64 b).toNat = b.toNat % 2 ^ 52 := by
  simp [unpackMantissa, BitVec.extractLsb_toNat]

theorem toNat_unpackExponent :
    (@unpackExponent Format.binary64 b).toNat = b.toNat / 2 ^ 52 % 2 ^ 11 := by
  simp [unpackExponent, BitVec.extractLsb_toNat, Nat.shiftRight_eq_div_pow]

theorem toNat_unpackSign :
    (@unpackSign Format.binary64 b).toNat = b.toNat / 2 ^ 63 := by
  have := b.isLt
  simp [unpackSign, BitVec.extractLsb_toNat, Nat.shiftRight_eq_div_pow]
  omega

end

/-- The bits of a number of no sign. -/
theorem toNat_packComponents (e : BitVec 11) (m : BitVec 52) :
    (packComponents Format.binary64 .positive e m).toNat = e.toNat * 2 ^ 52 + m.toNat := by
  unfold packComponents
  rw [BitVec.toNat_append, BitVec.toNat_append, ← Nat.shiftLeft_add_eq_or_of_lt m.isLt, ← Nat.shiftLeft_add_eq_or_of_lt e.isLt]
  simp [Sign.toBitVec, Nat.shiftLeft_eq]

def magnitude? : UnpackedFloat → Option (Nat × Int)
  | .zero _ => some (0, -1074)
  | .finite _ m e _ => some (m, e)
  | _ => none

/-- The bits of a number that is neither infinite nor undefined, and its magnitude. -/
inductive Floating (n m : Nat) (e : Int) : Prop where
  | subnormal (field : n / 2 ^ 52 % 2 ^ 11 = 0) (mantissa : m = n % 2 ^ 52) (exponent : e = -1074)
  | normal (field : n / 2 ^ 52 % 2 ^ 11 ≠ 0) (finite : n / 2 ^ 52 % 2 ^ 11 ≠ 2047)
      (mantissa : m = 2 ^ 52 + n % 2 ^ 52) (exponent : e = (n / 2 ^ 52 % 2 ^ 11 : Nat) - 1075)

theorem Floating.of_unpack {x : Float.Model} {m : Nat} {e : Int}
    (h : magnitude? x.unpack = some (m, e)) : Floating x.toBits.toNat m e := by
  unfold Float.Model.unpack UnpackedFloat.unpack at h
  change Floating x.toBits.toBitVec.toNat m e
  generalize x.toBits.toBitVec = b at *
  have hmantissa := toNat_unpackMantissa b
  have hexponent := toNat_unpackExponent b
  dsimp only at h
  split at h
  · split at h <;> cases h
  · rename_i hinf
    split at h
    · rename_i hz
      rw [hz] at hexponent
      split at h
      · rename_i hm
        cases h
        rw [hm] at hmantissa
        exact .subnormal hexponent.symm hmantissa rfl
      · cases h
        exact .subnormal hexponent.symm hmantissa (by rw [hz]; rfl)
    · rename_i hz
      cases h
      refine .normal (fun h0 => hz (BitVec.eq_of_toNat_eq (hexponent.trans h0)))
        (fun h0 => hinf (BitVec.eq_of_toNat_eq (hexponent.trans h0))) ?_ ?_
      · rw [BitVec.toNat_append, ← Nat.shiftLeft_add_eq_or_of_lt (BitVec.isLt _), hmantissa]
        rfl
      · rw [hexponent]
        rfl

theorem Floating.shape {n m : Nat} {e : Int} (h : Floating n m e) :
    m < 2 ^ 53 ∧ -1074 ≤ e ∧ e ≤ 971 ∧ (2 ^ 52 ≤ m ∨ e = -1074) := by
  cases h <;> omega

theorem Floating.ofBits {n m : Nat} {e : Int} (h : Floating n m e) :
    Dyadic.ofBits n = ⟨decide (2 ^ 63 ≤ n), m, e⟩ := by
  cases h with
  | subnormal hfield hm he =>
    rw [hm, he]
    exact if_pos hfield
  | normal hfield _ hm he =>
    rw [hm, he]
    exact if_neg hfield

theorem Dyadic.ofFloat?_of_unpack {x : Float} {m : Nat} {e : Int}
    (h : magnitude? x.toModel.unpack = some (m, e)) :
    Dyadic.ofFloat? x = some ⟨decide (2 ^ 63 ≤ x.toBits.toNat), m, e⟩ := by
  have hfinite : x.isFinite = true := by
    change UnpackedFloat.isFinite x.toModel.unpack = true
    cases hu : x.toModel.unpack with
    | zero | finite => rfl
    | infinity | notANumber =>
      rw [hu] at h
      cases h
  exact (if_pos hfinite).trans (congrArg some (Floating.of_unpack h).ofBits)

theorem mantissa_shiftRight (em : ExtendedMantissa) (k : Nat) :
    (em >>> k).mantissa = em.mantissa / 2 ^ k := by
  induction k with
  | zero => exact (Nat.div_one _).symm
  | succ k ih =>
    change (em >>> k).mantissa / 2 = _
    rw [ih, Nat.div_div_eq_div_mul, Nat.pow_succ]

theorem roundedMantissa_bounds (em : ExtendedMantissa) :
    em.mantissa ≤ em.roundedMantissa ∧ em.roundedMantissa ≤ em.mantissa + 1 := by
  obtain ⟨m, round, sticky⟩ := em
  cases round <;> cases sticky <;>
    simp only [ExtendedMantissa.roundedMantissa, ExtendedMantissa.accuracy,
      Accuracy.roundToNearestEven] <;> omega

theorem mantissa_ofMantissaAndAccuracy (m : Nat) (a : Accuracy) :
    (ExtendedMantissa.ofMantissaAndAccuracy m a).mantissa = m := by
  cases a with
  | exact => rfl
  | inexact o => cases o <;> rfl

/-- How far a mantissa is shifted to have 53 bits at most. -/
def roundShift (m : Nat) (e : Int) : Nat := (max ((m.log2 : Int) + e - 52) (-1074) - e).toNat

theorem shiftToTargetExponent_eq (m : Nat) (e : Int) (a : Accuracy) :
    shiftToTargetExponent Format.binary64 m e a =
      (ExtendedMantissa.ofMantissaAndAccuracy m a >>> roundShift m e, e + roundShift m e) := by
  have htarget : Format.binary64.targetExponent (totalExponent m e) =
      max ((m.log2 : Int) + e - 52) (-1074) := by
    simp only [Format.targetExponent, totalExponent, Format.mantissaBits, Format.minExponent]
    norm_num
    omega
  unfold shiftToTargetExponent
  dsimp only
  rw [htarget]
  rfl

/-- The mantissa that rounding finds first; it may have one bit too many. -/
theorem firstRounded_bounds (m : Nat) (e : Int) (a : Accuracy) :
    m / 2 ^ roundShift m e ≤ (shiftToTargetExponent Format.binary64 m e a).1.roundedMantissa ∧
      (shiftToTargetExponent Format.binary64 m e a).1.roundedMantissa ≤
        m / 2 ^ roundShift m e + 1 := by
  have := roundedMantissa_bounds (shiftToTargetExponent Format.binary64 m e a).1
  rwa [shiftToTargetExponent_eq, mantissa_shiftRight, mantissa_ofMantissaAndAccuracy] at *

theorem div_roundShift_lt (m : Nat) (e : Int) : m / 2 ^ roundShift m e < 2 ^ 53 := by
  have hlog : m.log2 ≤ 52 + roundShift m e := by
    unfold roundShift
    omega
  rw [Nat.div_lt_iff_lt_mul (Nat.two_pow_pos _), ← Nat.pow_add]
  exact Nat.lt_of_lt_of_le Nat.lt_log2_self (Nat.pow_le_pow_right (by decide) (by omega))

theorem log2_le_of_le {r : Nat} (h : r ≤ 2 ^ 53) : r.log2 ≤ 53 := by
  rcases Nat.eq_zero_or_pos r with rfl | hpos
  · decide
  · exact Nat.lt_succ_iff.mp ((Nat.log2_lt hpos.ne').mpr (by omega))

/-- A number that is rounded to a small exponent. -/
theorem round_small {m : Nat} {e : Int} (bound : Int) (s : Sign) (a : Accuracy)
    (hvalue : (m.log2 : Int) + e ≤ bound + 52) (he : e ≤ bound) (hbound : -1074 ≤ bound) :
    roundWithAccuracy Format.binary64 s m e a = .zero s ∨
      ∃ r f hr, roundWithAccuracy Format.binary64 s m e a = .finite s r f hr ∧ r < 2 ^ 53 ∧
        f ≤ bound + 1 := by
  have hround := firstRounded_bounds m e a
  have hlt := div_roundShift_lt m e
  have hfirst : e + roundShift m e ≤ bound ∧ -1074 ≤ e + roundShift m e := by
    unfold roundShift
    omega
  unfold roundWithAccuracy
  rw [shiftToTargetExponent_eq] at hround ⊢
  dsimp only at hround ⊢
  generalize (ExtendedMantissa.ofMantissaAndAccuracy m a >>> roundShift m e).roundedMantissa = r at *
  generalize e + roundShift m e = f at *
  have hlog := log2_le_of_le (r := r) (by omega)
  rw [shiftToTargetExponent_eq]
  dsimp only
  split
  · exact .inl rfl
  · rename_i hne
    refine .inr ⟨_, _, Nat.pos_of_ne_zero hne, rfl, ?_, ?_⟩
    · rw [mantissa_shiftRight, mantissa_ofMantissaAndAccuracy]
      exact div_roundShift_lt r f
    · unfold roundShift
      omega

/-- A number with bits enough is rounded to 53 of them. -/
theorem round_normal {m k : Nat} {e : Int} (s : Sign) (a : Accuracy) (he : -1074 ≤ e)
    (hlow : 2 ^ (52 + k) ≤ m) (hhigh : m < 2 ^ (53 + k)) :
    ∃ r f hr, roundWithAccuracy Format.binary64 s m e a = .finite s r f hr ∧ 2 ^ 52 ≤ r ∧
      r < 2 ^ 53 ∧ (f = e + k ∨ f = e + k + 1 ∧ m / 2 ^ k + 1 = 2 ^ 53) := by
  have hlog : m.log2 = 52 + k := (Nat.log2_eq_iff (by have := Nat.two_pow_pos (52 + k); omega)).mpr
    ⟨hlow, by rwa [show 52 + k + 1 = 53 + k by omega]⟩
  have hshift : roundShift m e = k := by
    unfold roundShift
    omega
  have hround := firstRounded_bounds m e a
  have hlt := div_roundShift_lt m e
  have hge : 2 ^ 52 ≤ m / 2 ^ k := by
    rwa [Nat.le_div_iff_mul_le (Nat.two_pow_pos _), ← Nat.pow_add]
  unfold roundWithAccuracy
  rw [shiftToTargetExponent_eq, hshift] at hround ⊢
  rw [hshift] at hlt
  dsimp only at hround ⊢
  generalize (ExtendedMantissa.ofMantissaAndAccuracy m a >>> k).roundedMantissa = r at *
  rw [shiftToTargetExponent_eq]
  dsimp only
  rw [mantissa_shiftRight, mantissa_ofMantissaAndAccuracy]
  rcases Nat.lt_or_ge r (2 ^ 53) with hsmall | hcarry
  · have hshift : roundShift r (e + k) = 0 := by
      have := (Nat.log2_eq_iff (n := r) (k := 52) (by omega)).mpr ⟨by omega, by omega⟩
      unfold roundShift
      omega
    rw [hshift, Nat.pow_zero, Nat.div_one, dif_neg (by omega)]
    exact ⟨r, _, _, rfl, by omega, hsmall, .inl (Int.add_zero _)⟩
  · obtain rfl : r = 2 ^ 53 := by omega
    have hshift : roundShift (2 ^ 53) (e + k) = 1 := by
      unfold roundShift
      rw [Nat.log2_two_pow]
      omega
    rw [hshift, dif_neg (by decide)]
    exact ⟨2 ^ 52, _, _, rfl, by decide, by decide, .inr ⟨rfl, by omega⟩⟩

theorem toNat_pack {m : Nat} {e : Int} (hm : 0 < m) (hlt : m < 2 ^ 53) :
    (UnpackedFloat.pack Format.binary64 (.finite .positive m e hm)).toNat / 2 ^ 52 =
      if 2047 ≤ (e + 1075).toNat then 2047 else if 2 ^ 52 ≤ m then (e + 1075).toNat else 0 := by
  have hbiased : (e + (Format.binary64.exponentBias : Int) +
      (Format.binary64.mantissaBitsWithoutImplicit : Int)).toNat = (e + 1075).toNat := by
    simp only [Format.exponentBias]
    omega
  have hlog : m.log2 + 1 = Format.binary64.mantissaBits ↔ 2 ^ 52 ≤ m := by
    have := Nat.log2_eq_iff (n := m) (k := 52) (by omega)
    simp only [Format.mantissaBits]
    omega
  unfold UnpackedFloat.pack
  dsimp only
  rw [hbiased]
  simp only [hlog]
  generalize (e + 1075).toNat = field
  rcases Nat.lt_or_ge field 2047 with hfits | hover
  · rw [if_neg (by simpa using hfits), if_neg (Nat.not_le.mpr hfits)]
    split
    · rw [toNat_packComponents, BitVec.toNat_ofNat, BitVec.toNat_ofNat]
      omega
    · rw [toNat_packComponents, BitVec.toNat_ofNat, BitVec.toNat_ofNat]
      omega
  · rw [if_pos (by simpa using hover), if_pos hover]
    decide

theorem unpack_thousand :
    (1000.0 : Float).toModel.unpack = .finite .positive 8796093022208000 (-43) (by decide) := by
  have hbits : (1000.0 : Float).toModel = .ofBits 0x408f400000000000 := by decide +kernel
  rw [hbits]
  rfl

theorem toModel_div {x : Float} {m : Nat} {e : Int} {hm : 0 < m}
    (h : x.toModel.unpack = .finite .positive m e hm) (hlt : m < 2 ^ 53) :
    ∃ (shift : Nat) (accuracy : Accuracy), (20 ≤ e → 2 ^ 52 ≤ m → shift = 53) ∧ e + 43 - shift ≤ max (e - 10) (-1074) ∧
      (x / 1000.0).toModel = .pack (roundWithAccuracy Format.binary64 .positive
        (m * 2 ^ shift / 8796093022208000) (e + 43 - shift) accuracy) := by
  let target := min (e + 43) (max ((m.log2 : Int) + e - 62) (-1074))
  have hmin : min (e - -43) (Format.binary64.targetExponent
      (totalExponent m e - totalExponent 8796093022208000 (-43))) = target := by
    have : Nat.log2 8796093022208000 = 52 := by decide +kernel
    simp only [Format.targetExponent, totalExponent, Format.mantissaBits, Format.minExponent, this]
    norm_num
    omega
  refine ⟨(e + 43 - target).toNat, accuracyOfFraction (m * 2 ^ (e + 43 - target).toNat % 8796093022208000) 8796093022208000, ?_, ?_, ?_⟩
  · intro he hm
    have := (Nat.log2_eq_iff (n := m) (k := 52) (by omega)).mpr ⟨hm, hlt⟩
    omega
  · have := (Nat.log2_lt (n := m) (k := 53) (by omega)).mpr hlt
    omega
  · change Float.Model.pack (UnpackedFloat.div Format.binary64 x.toModel.unpack
      (1000.0 : Float).toModel.unpack) = _
    rw [h, unpack_thousand]
    unfold UnpackedFloat.div divCore
    dsimp only
    rw [hmin, Nat.shiftLeft_eq, show e - -43 - target = e + 43 - target by omega,
      show e + 43 - ((e + 43 - target).toNat : Int) = target by omega]
    rfl

/-- Twice the greatest mantissa over the least one. -/
theorem log2_quotient_le {m : Nat} (hlt : m < 2 ^ 53) (shift : Nat) :
    (m * 2 ^ shift / 8796093022208000).log2 ≤ shift := by
  rcases Nat.eq_zero_or_pos (m * 2 ^ shift / 8796093022208000) with h0 | hpos
  · rw [h0]
    exact Nat.zero_le _
  · refine Nat.lt_succ_iff.mp ((Nat.log2_lt hpos.ne').mpr ?_)
    rw [Nat.div_lt_iff_lt_mul (by decide), Nat.pow_succ]
    have := Nat.mul_lt_mul_of_pos_right hlt (Nat.two_pow_pos shift)
    omega

/-- A thousandth of a number is less than `2 ^ 64` if the number is less than a thousand times that;
rounding does not carry it over. The bits tell by their field of the exponent. -/
theorem field_div_thousand {x : Float} {m : Nat} {e : Int} {hm : 0 < m}
    (h : x.toModel.unpack = .finite .positive m e hm) :
    (x / 1000.0).toBits.toNat / 2 ^ 52 ≤ 2047 ∧
      ((x / 1000.0).toBits.toNat / 2 ^ 52 < 1087 ↔ e ≤ 20 ∨ e = 21 ∧ m < 125 * 2 ^ 46) := by
  obtain ⟨hlt, hleast, -, hnormal⟩ := (Floating.of_unpack (congrArg magnitude? h)).shape
  obtain ⟨shift, accuracy, hshift, hstart, hdiv⟩ := toModel_div h hlt
  have hbits : (x / 1000.0).toBits.toNat = (UnpackedFloat.pack Format.binary64
      (roundWithAccuracy Format.binary64 .positive (m * 2 ^ shift / 8796093022208000)
        (e + 43 - shift) accuracy)).toNat := by
    change (x / 1000.0).toModel.toBits.toNat = _
    rw [hdiv]
    rfl
  rw [hbits]
  rcases Int.lt_or_le e 20 with hsmall | hlarge
  · have hlog := log2_quotient_le hlt shift
    have hiff : e ≤ 20 ∨ e = 21 ∧ m < 125 * 2 ^ 46 := .inl (by omega)
    rcases round_small 10 .positive accuracy
        (show (((m * 2 ^ shift / 8796093022208000).log2 : Nat) : Int) + (e + 43 - shift) ≤ _ by omega)
        (by omega) (by omega) with hround | ⟨r, f, hr, hround, hrlt, hf⟩
    · rw [hround]
      exact ⟨by decide, iff_of_true (by decide) hiff⟩
    · rw [hround, toNat_pack hr hrlt, if_neg (by omega)]
      refine ⟨?_, iff_of_true ?_ hiff⟩ <;> split <;> omega
  · have hnormal : 2 ^ 52 ≤ m := hnormal.resolve_right (by omega)
    rw [hshift hlarge hnormal]
    have hquotient : m * 2 ^ 53 / 8796093022208000 = m * 128 / 125 := by omega
    rw [hquotient]
    have hround : ∃ r f hr, roundWithAccuracy Format.binary64 .positive (m * 128 / 125)
        (e + 43 - (53 : Nat)) accuracy = .finite .positive r f hr ∧ 2 ^ 52 ≤ r ∧ r < 2 ^ 53 ∧
          (f ≤ 11 ↔ e ≤ 20 ∨ e = 21 ∧ m < 125 * 2 ^ 46) := by
      rcases Nat.lt_or_ge m (125 * 2 ^ 46) with hbelow | habove
      · obtain ⟨r, f, hr, hround, hge, hrlt, hf⟩ := round_normal (k := 0)
          (e := e + 43 - (53 : Nat)) (m := m * 128 / 125) .positive accuracy (by omega) (by omega)
          (by omega)
        exact ⟨r, f, hr, hround, hge, hrlt, by omega⟩
      · obtain ⟨r, f, hr, hround, hge, hrlt, hf⟩ := round_normal (k := 1)
          (e := e + 43 - (53 : Nat)) (m := m * 128 / 125) .positive accuracy (by omega) (by omega)
          (by omega)
        exact ⟨r, f, hr, hround, hge, hrlt, by omega⟩
    obtain ⟨r, f, hr, hround, hge, hrlt, hf⟩ := hround
    rw [hround, toNat_pack hr hrlt, if_pos hge, ← hf]
    split <;> omega

/-- Whether a number is less than `a * 2 ^ p`, said by its parts. -/
theorem Dyadic.fraction_lt_iff (negative : Bool) {m a p : Nat} {e : Int} (hlt : m < 2 ^ 53)
    (hnormal : 2 ^ 52 ≤ m ∨ e < 0) (hlow : 2 ^ 52 ≤ a) (hhigh : a < 2 ^ 53) :
    (Dyadic.mk negative m e).fraction.1 < a * 2 ^ p * (Dyadic.mk negative m e).fraction.2 ↔
      e < p ∨ e = p ∧ m < a := by
  change m * 2 ^ e.toNat < a * 2 ^ p * 2 ^ (-e).toNat ↔ _
  rcases Int.lt_or_le e 0 with hneg | hpos
  · refine iff_of_true ?_ (.inl (by omega))
    have hscale : 2 ^ 1 ≤ 2 ^ (-e).toNat := Nat.pow_le_pow_right (by decide) (by omega)
    have hthreshold : 2 ^ 52 * 1 ≤ a * 2 ^ p := Nat.mul_le_mul hlow Nat.one_le_two_pow
    have := Nat.mul_le_mul hthreshold hscale
    rw [show e.toNat = 0 by omega]
    omega
  · obtain ⟨k, rfl⟩ := Int.eq_ofNat_of_zero_le hpos
    have hm : 2 ^ 52 ≤ m := hnormal.resolve_right (by omega)
    rw [show (-(k : Int)).toNat = 0 by omega, Int.toNat_natCast, Nat.pow_zero, Nat.mul_one]
    rcases Nat.lt_trichotomy k p with hlt' | rfl | hgt
    · refine iff_of_true ?_ (.inl (by omega))
      have hscale : 2 ^ (k + 1) ≤ 2 ^ p := Nat.pow_le_pow_right (by decide) hlt'
      have hleft : m * 2 ^ k < 2 ^ 53 * 2 ^ k := Nat.mul_lt_mul_of_pos_right hlt (Nat.two_pow_pos k)
      have := Nat.mul_le_mul hlow hscale
      rw [Nat.pow_succ] at this
      omega
    · rw [Nat.mul_lt_mul_right (Nat.two_pow_pos k)]
      omega
    · refine iff_of_false ?_ (by omega)
      have hscale : 2 ^ (p + 1) ≤ 2 ^ k := Nat.pow_le_pow_right (by decide) hgt
      have hright : a * 2 ^ p < 2 ^ 53 * 2 ^ p := Nat.mul_lt_mul_of_pos_right hhigh (Nat.two_pow_pos p)
      have := Nat.mul_le_mul hm hscale
      rw [Nat.pow_succ] at this
      omega

theorem isFinite_iff (x : Float) :
    x.isFinite = true ↔ x.toBits.toNat / 2 ^ 52 % 2 ^ 11 ≠ 2047 := by
  change UnpackedFloat.isFinite (UnpackedFloat.unpack Format.binary64 x.toModel.toBits.toBitVec) = true ↔
    x.toModel.toBits.toBitVec.toNat / 2 ^ 52 % 2 ^ 11 ≠ 2047
  generalize x.toModel.toBits.toBitVec = b
  have hexponent : @unpackExponent Format.binary64 b = -1#11 ↔
      b.toNat / 2 ^ 52 % 2 ^ 11 = 2047 := by
    rw [← toNat_unpackExponent]
    exact BitVec.toNat_inj.symm
  unfold UnpackedFloat.unpack
  dsimp only
  split
  · rename_i h
    refine iff_of_false ?_ (by simpa using hexponent.mp h)
    split <;> exact Bool.false_ne_true
  · rename_i h
    refine iff_of_true ?_ (fun h' => h (hexponent.mpr h'))
    split
    · split <;> rfl
    · rfl

/-- A number without a sign is not negative. -/
theorem not_lt_zero {x : Float} (h : x.toBits.toNat / 2 ^ 52 ≤ 2047) : ¬ x < 0.0 := by
  have hsign : Sign.ofBitVec (@unpackSign Format.binary64 x.toModel.toBits.toBitVec) =
      .positive := by
    have hzero : @unpackSign Format.binary64 x.toModel.toBits.toBitVec = 0#1 := by
      refine BitVec.eq_of_toNat_eq ((toNat_unpackSign _).trans ?_)
      change x.toBits.toNat / 2 ^ 63 = 0
      omega
    rw [hzero]
    rfl
  have hunpack : ∀ u, UnpackedFloat.unpack Format.binary64 x.toModel.toBits.toBitVec = u →
      u.lt (.zero .positive) = false := by
    intro u hu
    unfold UnpackedFloat.unpack at hu
    dsimp only at hu
    rw [hsign] at hu
    subst hu
    split
    · split <;> rfl
    · split
      · split <;> rfl
      · rfl
  intro hlt
  have hfalse : Float.lt x 0.0 = false := by
    change (decide (Float.Model.lt _ _ = true)) = false
    rw [show Float.Model.lt x.toModel (0.0 : Float).toModel = false from hunpack _ rfl]
    rfl
  exact Bool.false_ne_true (hfalse.symm.trans hlt)

/-- A number of seconds without a sign is a span if it is less than `2 ^ 64`. -/
theorem Duration.ofFloat_cases {x : Float} (h : x.toBits.toNat / 2 ^ 52 ≤ 2047) :
    (x.toBits.toNat / 2 ^ 52 < 1087 ∧ ∃ d, Duration.ofFloat x = .ok d) ∨
      ¬ x.toBits.toNat / 2 ^ 52 < 1087 ∧ Duration.ofFloat x = .error .durationRange := by
  have hfield : x.toBits.toNat / 2 ^ 52 % 2 ^ 11 = x.toBits.toNat / 2 ^ 52 :=
    Nat.mod_eq_of_lt (by omega)
  have hsign : decide (2 ^ 63 ≤ x.toBits.toNat) = false := decide_eq_false (by omega)
  by_cases hfinite : x.isFinite = true
  · have hfield' := (isFinite_iff x).mp hfinite
    obtain ⟨m, e, hfloating, he⟩ : ∃ m e, Floating x.toBits.toNat m e ∧
        (e < 12 ↔ x.toBits.toNat / 2 ^ 52 < 1087) := by
      by_cases hz : x.toBits.toNat / 2 ^ 52 % 2 ^ 11 = 0
      · exact ⟨_, _, .subnormal hz rfl rfl, by omega⟩
      · exact ⟨_, _, .normal hz hfield' rfl rfl, by omega⟩
    obtain ⟨hlt, -, -, hnormal⟩ := hfloating.shape
    have hvalue : Dyadic.ofFloat? x = some ⟨false, m, e⟩ :=
      (if_pos hfinite).trans (congrArg some (hfloating.ofBits.trans (by rw [hsign])))
    have hbound := Dyadic.fraction_lt_iff false (e := e) (p := 12) hlt (by omega)
      (Nat.le_refl (2 ^ 52)) (by decide)
    have hthreshold : sizeLimit = 2 ^ 52 * 2 ^ 12 := by decide
    unfold Duration.ofFloat
    rw [hvalue]
    dsimp only
    rw [hthreshold, Bool.false_and, if_neg Bool.false_ne_true]
    by_cases hsmall : x.toBits.toNat / 2 ^ 52 < 1087
    · rw [if_neg (Nat.not_le.mpr (hbound.mpr (.inl (he.mpr hsmall))))]
      exact .inl ⟨hsmall, _, rfl⟩
    · rw [if_pos (Nat.not_lt.mp (mt hbound.mp (by omega)))]
      exact .inr ⟨hsmall, rfl⟩
  · have hinf : x.toBits.toNat / 2 ^ 52 = 2047 := by
      rw [← hfield]
      exact not_not.mp fun hne => hfinite ((isFinite_iff x).mpr hne)
    refine .inr ⟨by omega, ?_⟩
    unfold Duration.ofFloat
    rw [show Dyadic.ofFloat? x = none from if_neg hfinite]
    dsimp only
    rw [if_neg (not_lt_zero h)]

end TracingHeap
