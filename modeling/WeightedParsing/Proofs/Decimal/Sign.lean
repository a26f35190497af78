import Mathlib
import WeightedParsing.Decimal.Reading
import WeightedParsing.Grammar.Text

/-!
# The sign of a written number

A number is written without a sign before its digits, so that the float it stands for
is not negative.  What a rule weight still has to pass is the test for infinity.
-/

namespace WeightedParsing.Decimal

open Float.Model (UnpackedFloat)
open Float.Model.UnpackedFloat

/-- Zero, infinity or a number in between, of positive sign. -/
def Unsigned : UnpackedFloat → Prop
  | .infinity sign => sign = .positive
  | .zero sign => sign = .positive
  | .finite sign _ _ _ => sign = .positive
  | .notANumber => False

/-- A number above zero that is not infinite. -/
def IsPositive : UnpackedFloat → Bool
  | .finite .positive _ _ _ => true
  | _ => false

theorem unsigned_roundWithAccuracy (spec : Float.Model.Format) (mantissa : Nat)
    (exponent : Int) (accuracy : Accuracy) :
    Unsigned (roundWithAccuracy spec .positive mantissa exponent accuracy) := by
  unfold roundWithAccuracy
  dsimp only
  split
  · exact rfl
  · exact rfl

theorem eq_finite_of_isPositive {b : UnpackedFloat} (hb : IsPositive b = true) :
    ∃ mantissa exponent pos, b = .finite .positive mantissa exponent pos := by
  unfold IsPositive at hb
  split at hb
  · exact ⟨_, _, _, rfl⟩
  · contradiction

theorem unsigned_mul (spec : Float.Model.Format) {a b : UnpackedFloat}
    (ha : Unsigned a) (hb : IsPositive b = true) : Unsigned (mul spec a b) := by
  obtain ⟨mantissa, exponent, pos, rfl⟩ := eq_finite_of_isPositive hb
  cases a with
  | infinity => subst ha; exact rfl
  | notANumber => exact ha
  | zero => subst ha; exact rfl
  | finite => subst ha; exact unsigned_roundWithAccuracy ..

theorem unsigned_div (spec : Float.Model.Format) {a b : UnpackedFloat}
    (ha : Unsigned a) (hb : IsPositive b = true) : Unsigned (div spec a b) := by
  obtain ⟨mantissa, exponent, pos, rfl⟩ := eq_finite_of_isPositive hb
  cases a with
  | infinity => subst ha; exact rfl
  | notANumber => exact ha
  | zero => subst ha; exact rfl
  | finite => subst ha; exact unsigned_roundWithAccuracy ..

theorem unsigned_ofNat (spec : Float.Model.Format) (n : Nat) :
    Unsigned (UnpackedFloat.ofNat spec n) := by
  change Unsigned (UnpackedFloat.normalize spec n 0 .positive)
  unfold UnpackedFloat.normalize
  split
  · rename_i h
    rw [Int.compare_eq_lt] at h
    omega
  · exact rfl
  · exact unsigned_roundWithAccuracy ..

theorem unsigned_ofScientific (spec : Float.Model.Format) (m : Nat) (e : Int) :
    Unsigned (UnpackedFloat.ofScientific spec m e) := by
  unfold UnpackedFloat.ofScientific
  split
  · exact rfl
  split
  · exact rfl
  split
  · exact rfl
  split
  · exact unsigned_mul _ rfl rfl
  · exact unsigned_div _ rfl rfl

theorem unpackSign_packComponents (spec : Float.Model.Format) (sign : Sign)
    (exponent : BitVec spec.exponentBits)
    (mantissa : BitVec spec.mantissaBitsWithoutImplicit) :
    unpackSign (packComponents spec sign exponent mantissa) = sign.toBitVec := by
  ext i hi
  have hi0 : i = 0 := by omega
  subst hi0
  simp [unpackSign, packComponents, BitVec.getLsbD_append, BitVec.getElem_append]

theorem unsigned_unpack (spec : Float.Model.Format) (exponent : BitVec spec.exponentBits)
    (mantissa : BitVec spec.mantissaBitsWithoutImplicit)
    (hnan : exponent = -1#_ → mantissa = 0#_) :
    Unsigned (unpack spec (packComponents spec .positive exponent mantissa)) := by
  unfold unpack
  simp only [unpackMantissa_packComponents, unpackExponent_packComponents,
    unpackSign_packComponents]
  split
  · rename_i hexponent
    rw [if_pos (hnan hexponent)]
    exact rfl
  split
  · split
    · exact rfl
    · exact rfl
  · exact rfl

/-- Packing may turn a large number into infinity, but leaves the sign alone. -/
theorem unsigned_unpack_pack (spec : Float.Model.Format) {f : UnpackedFloat}
    (hf : Unsigned f) : Unsigned (unpack spec (pack spec f)) := by
  have hexponent : BitVec.ofNat spec.exponentBits 0 ≠ -1#_ := by
    have hbits : 2 ^ 1 ≤ 2 ^ spec.exponentBits :=
      Nat.pow_le_pow_right (by decide) spec.he
    intro h
    have hvalue := congrArg BitVec.toNat h
    rw [BitVec.neg_one_eq_allOnes, BitVec.toNat_allOnes, BitVec.toNat_zero] at hvalue
    omega
  cases f with
  | notANumber => exact hf.elim
  | infinity =>
      subst hf
      exact unsigned_unpack _ _ _ fun _ => rfl
  | zero =>
      subst hf
      exact unsigned_unpack _ _ _ fun h => absurd h hexponent
  | finite _ mantissa exponent _ =>
      subst hf
      simp only [pack]
      split
      · exact unsigned_unpack _ _ _ fun _ => rfl
      split
      · rename_i hbound _
        apply unsigned_unpack
        intro h
        have hvalue := congrArg BitVec.toNat h
        rw [BitVec.toNat_ofNat, BitVec.neg_one_eq_allOnes, BitVec.toNat_allOnes,
          Nat.mod_eq_of_lt (by omega)] at hvalue
        omega
      · exact unsigned_unpack _ _ _ fun h => absurd h hexponent

/-! ## Machine floats -/

theorem unsigned_toFloat (n : UInt64) : Unsigned n.toFloat.toModel.unpack :=
  unsigned_unpack_pack _ (unsigned_ofNat _ _)

theorem isPositive_powersOfTen :
    ∀ e : Fin Float.exactlyRepresentablePowersOfTen.size,
      IsPositive Float.exactlyRepresentablePowersOfTen[e].toModel.unpack = true := by
  decide +kernel

theorem unsigned_floatOfScientific (m : Nat) (s : Bool) (e : Nat) :
    Unsigned (Float.ofScientific m s e).toModel.unpack := by
  unfold Float.ofScientific
  split
  · rename_i h
    have hsize : e < Float.exactlyRepresentablePowersOfTen.size :=
      Nat.lt_succ_of_le h.2
    dsimp only
    split
    · exact unsigned_unpack_pack _
        (unsigned_div _ (unsigned_toFloat _) (isPositive_powersOfTen ⟨e, hsize⟩))
    · exact unsigned_unpack_pack _
        (unsigned_mul _ (unsigned_toFloat _) (isPositive_powersOfTen ⟨e, hsize⟩))
  · exact unsigned_unpack_pack _ (unsigned_ofScientific _ _ _)

theorem unpack_zero : (0 : Float).toModel.unpack = .zero .positive := by
  rfl

theorem unpack_infinity : (1 / 0 : Float).toModel.unpack = .infinity .positive := by
  rfl

theorem NumberText.unsigned_toFloat (number : NumberText) :
    Unsigned number.toFloat.toModel.unpack := by
  unfold NumberText.toFloat Decimal.toFloat
  split
  · rw [unpack_zero]
    exact rfl
  dsimp only
  split
  · rw [unpack_infinity]
    exact rfl
  split
  · rw [unpack_zero]
    exact rfl
  · exact unsigned_floatOfScientific _ _ _

theorem le_float_iff (a b : Float) :
    Ranked.le a b = true ↔ a.toModel.unpack.le b.toModel.unpack = true := by
  change decide (a ≤ b) = true ↔ _
  rw [decide_eq_true_eq]
  exact decide_eq_true_iff

theorem lt_float_iff (a b : Float) :
    Ranked.lt a b = true ↔ a.toModel.unpack.lt b.toModel.unpack = true := by
  change decide (a < b) = true ↔ _
  rw [decide_eq_true_eq]
  exact decide_eq_true_iff

theorem NumberText.le_toFloat (number : NumberText) :
    Ranked.le (0 : Float) number.toFloat = true := by
  have hsign := number.unsigned_toFloat
  rw [le_float_iff, unpack_zero]
  cases hvalue : number.toFloat.toModel.unpack with
  | notANumber => rw [hvalue] at hsign; exact hsign.elim
  | infinity => rw [hvalue] at hsign; subst hsign; rfl
  | zero => rfl
  | finite => rw [hvalue] at hsign; subst hsign; rfl

theorem NumberText.lt_infinity_iff (number : NumberText) :
    Ranked.lt number.toFloat (1 / 0 : Float) = true ↔
      number.toFloat.isFinite = true := by
  have hsign := number.unsigned_toFloat
  rw [lt_float_iff, unpack_infinity]
  change _ ↔ number.toFloat.toModel.unpack.isFinite = true
  cases hvalue : number.toFloat.toModel.unpack with
  | notANumber => rw [hvalue] at hsign; exact hsign.elim
  | infinity => rw [hvalue] at hsign; subst hsign; decide
  | zero => exact ⟨fun _ => rfl, fun _ => rfl⟩
  | finite => rw [hvalue] at hsign; subst hsign; exact ⟨fun _ => rfl, fun _ => rfl⟩

end WeightedParsing.Decimal

namespace WeightedParsing.GrammarText

/-- A written number is a rule weight if it denotes a finite float. -/
theorem weightOfNumber?_eq_some {number : Decimal.NumberText}
    {weight : RuleWeight Float} :
    weightOfNumber? number = some weight ↔
      number.toFloat.isFinite = true ∧ weight.val = number.toFloat := by
  unfold weightOfNumber?
  dsimp only
  split
  · rename_i h
    have hfinite := number.lt_infinity_iff.mp h.2
    constructor
    · intro heq
      cases heq
      exact ⟨hfinite, rfl⟩
    · rintro ⟨_, heq⟩
      exact congrArg some (Subtype.ext heq.symm)
  · rename_i h
    constructor
    · intro heq
      contradiction
    · rintro ⟨hfinite, _⟩
      exact absurd ⟨number.le_toFloat, number.lt_infinity_iff.mpr hfinite⟩ h

end WeightedParsing.GrammarText
