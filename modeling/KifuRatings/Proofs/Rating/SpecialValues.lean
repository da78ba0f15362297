import KifuRatings.Proofs.Decimal.Magnitude
import KifuRatings.Proofs.Rating.Absorbing

/-!
# Doubles that are not finite numbers

What arithmetic does with infinities and not-a-number is decided by the kinds of its operands alone,
except that a finite result may be rounded to an infinity. Packing a result keeps what kind it is, so
the rules can be read off the unpacked operations.
-/

open Float.Model Float.Model.UnpackedFloat
open KifuRatings.Decimal

namespace KifuRatings.Double

/-! ## Packing -/

theorem unpack_infinity (sign : Sign) :
    (Float.Model.pack (.infinity sign)).unpack = .infinity sign := by
  cases sign <;> rfl

theorem pack_unpack (value : Float) : (⟨.pack value.toModel.unpack⟩ : Float) = value :=
  Float.ofBits_toBits value

/-- Rounding may end in an infinity, never in not-a-number. -/
theorem number_of_finite (sign : Sign) (mantissa : ℕ) (exponent : ℤ) (positive : 0 < mantissa) :
    (⟨.pack (.finite sign mantissa exponent positive)⟩ : Float).isNaN = false := by
  rw [Float.isNaN_eq_decide_eq_nan, decide_eq_false_iff_not]
  intro same
  have bits : UnpackedFloat.pack Format.binary64 (.finite sign mantissa exponent positive) =
      packedNaN Format.binary64 := congrArg (fun value : Float => value.toModel.toBits.toBitVec) same
  have fraction := congrArg unpackMantissa bits
  have top := congrArg unpackExponent bits
  unfold UnpackedFloat.pack packedNaN at fraction top
  dsimp only at fraction top
  split at fraction
  · rw [packedInfinity, unpackMantissa_packComponents, unpackMantissa_packComponents] at fraction
    exact absurd fraction (by decide)
  · rename_i inRange
    rw [if_neg inRange] at top
    split at top
    · rw [unpackExponent_packComponents, unpackExponent_packComponents, ← BitVec.toNat_inj,
        BitVec.toNat_ofNat] at top
      change _ % 2048 = 2047 at top
      change ¬ 2048 ≤ _ at inRange
      omega
    · rw [unpackExponent_packComponents, unpackExponent_packComponents] at top
      exact absurd top (by decide)

theorem nan_of_pack (value : UnpackedFloat) : (⟨.pack value⟩ : Float).isNaN = value.isNaN := by
  cases value with
  | infinity sign => cases sign <;> rfl
  | notANumber => rfl
  | zero sign => cases sign <;> rfl
  | finite sign mantissa exponent positive => exact number_of_finite sign mantissa exponent positive

theorem lost_of_pack {value : UnpackedFloat} (lost : value.isFinite = false) :
    (⟨.pack value⟩ : Float).isFinite = false := by
  cases value with
  | infinity sign => cases sign <;> rfl
  | notANumber => rfl
  | zero sign => cases lost
  | finite sign mantissa exponent positive => cases lost

/-! ## The kinds of results -/

section Kinds

variable {left right : UnpackedFloat}

theorem add_lost (lost : left.isFinite = false ∨ right.isFinite = false) :
    (UnpackedFloat.add Format.binary64 left right).isFinite = false := by
  cases left with
  | notANumber => rfl
  | infinity sign =>
      cases right with
      | infinity other => cases sign <;> cases other <;> rfl
      | _ => rfl
  | _ =>
      cases right with
      | notANumber | infinity => rfl
      | _ => simp [UnpackedFloat.isFinite] at lost

theorem sub_lost (lost : left.isFinite = false) :
    (UnpackedFloat.sub Format.binary64 left right).isFinite = false := by
  cases left with
  | notANumber => rfl
  | infinity sign =>
      cases right with
      | infinity other => cases sign <;> cases other <;> rfl
      | _ => rfl
  | _ => cases lost

theorem mul_lost (lost : left.isFinite = false ∨ right.isFinite = false) :
    (UnpackedFloat.mul Format.binary64 left right).isFinite = false := by
  cases left with
  | notANumber => rfl
  | infinity => cases right <;> rfl
  | _ =>
      cases right with
      | notANumber | infinity => rfl
      | _ => simp [UnpackedFloat.isFinite] at lost

theorem div_lost (lost : left.isFinite = false) :
    (UnpackedFloat.div Format.binary64 left right).isFinite = false := by
  cases left with
  | notANumber => rfl
  | infinity => cases right <;> rfl
  | _ => cases lost

theorem neg_lost (lost : left.isFinite = false) : left.neg.isFinite = false := by
  cases left with
  | notANumber | infinity => rfl
  | _ => cases lost

theorem add_nan (nan : left.isNaN = true ∨ right.isNaN = true) :
    (UnpackedFloat.add Format.binary64 left right).isNaN = true := by
  rcases nan with nan | nan
  · rw [isNaN_iff.mp nan]
    rfl
  · rw [isNaN_iff.mp nan]
    cases left <;> rfl

theorem mul_nan (nan : left.isNaN = true ∨ right.isNaN = true) :
    (UnpackedFloat.mul Format.binary64 left right).isNaN = true := by
  rcases nan with nan | nan
  · rw [isNaN_iff.mp nan]
    rfl
  · rw [isNaN_iff.mp nan]
    cases left <;> rfl

theorem rounded_number (sign : Sign) (mantissa : ℕ) (exponent : ℤ) (accuracy : Accuracy) :
    (roundWithAccuracy Format.binary64 sign mantissa exponent accuracy).isNaN = false := by
  unfold roundWithAccuracy
  dsimp only
  split
  · rfl
  · rfl

theorem normalized_number (mantissa exponent : ℤ) (sign : Sign) :
    (UnpackedFloat.normalize Format.binary64 mantissa exponent sign).isNaN = false := by
  unfold UnpackedFloat.normalize
  split
  · exact rounded_number ..
  · rfl
  · exact rounded_number ..

theorem add_number (finite : left.isFinite = true) (number : right.isNaN = false) :
    (UnpackedFloat.add Format.binary64 left right).isNaN = false := by
  cases left with
  | notANumber | infinity => cases finite
  | zero sign =>
      cases right with
      | notANumber => cases number
      | zero other => cases sign <;> cases other <;> rfl
      | _ => rfl
  | finite =>
      cases right with
      | notANumber => cases number
      | infinity | zero => rfl
      | finite => exact normalized_number ..

theorem mul_number (leftFinite : left.isFinite = true) (rightFinite : right.isFinite = true) :
    (UnpackedFloat.mul Format.binary64 left right).isNaN = false := by
  cases left with
  | notANumber | infinity => cases leftFinite
  | zero sign =>
      cases right with
      | notANumber | infinity => cases rightFinite
      | _ => rfl
  | finite =>
      cases right with
      | notANumber | infinity => cases rightFinite
      | zero => rfl
      | finite => exact rounded_number ..

theorem mul_number_of_nonzero {sign : Sign} {mantissa : ℕ} {exponent : ℤ} {positive : 0 < mantissa}
    (number : left.isNaN = false) :
    (UnpackedFloat.mul Format.binary64 left (.finite sign mantissa exponent positive)).isNaN =
      false := by
  cases left with
  | notANumber => cases number
  | infinity | zero => rfl
  | finite => exact rounded_number ..

end Kinds

/-! ## Lost values -/

/-- An infinity or not-a-number. -/
def Lost (value : Float) : Prop := value.isFinite = false

theorem lost_absorbing : Absorbing Lost where
  add_left _ _ lost := lost_of_pack (add_lost (.inl lost))
  add_right _ _ lost := lost_of_pack (add_lost (.inr lost))
  sub _ _ lost := lost_of_pack (sub_lost lost)
  mul_left _ _ lost := lost_of_pack (mul_lost (.inl lost))
  mul_right _ _ lost := lost_of_pack (mul_lost (.inr lost))
  div _ _ lost := lost_of_pack (div_lost lost)
  neg _ lost := lost_of_pack (neg_lost lost)

theorem nan_of_product {left right : Float} (nan : left.isNaN = true ∨ right.isNaN = true) :
    (left * right).isNaN = true :=
  (nan_of_pack _).trans (mul_nan nan)

theorem nan_of_sum {left right : Float} (nan : left.isNaN = true ∨ right.isNaN = true) :
    (left + right).isNaN = true :=
  (nan_of_pack _).trans (add_nan nan)

theorem number_of_sum {left right : Float} (finite : left.isFinite = true)
    (number : right.isNaN = false) : (left + right).isNaN = false :=
  (nan_of_pack _).trans (add_number finite number)

theorem number_of_finite_product {left right : Float} (leftFinite : left.isFinite = true)
    (rightFinite : right.isFinite = true) : (left * right).isNaN = false :=
  (nan_of_pack _).trans (mul_number leftFinite rightFinite)

def isNonzero (value : Float) : Bool :=
  match value.toModel.unpack with
  | .finite .. => true
  | _ => false

theorem finite_of_nonzero {value : Float} (nonzero : isNonzero value = true) :
    value.isFinite = true := by
  change value.toModel.unpack.isFinite = true
  unfold isNonzero at nonzero
  cases kind : value.toModel.unpack with
  | finite => rfl
  | _ => rw [kind] at nonzero; cases nonzero

theorem number_of_product {left right : Float} (number : left.isNaN = false)
    (nonzero : isNonzero right = true) : (left * right).isNaN = false := by
  refine (nan_of_pack _).trans ?_
  unfold isNonzero at nonzero
  cases kind : right.toModel.unpack with
  | finite => exact mul_number_of_nonzero number
  | _ => rw [kind] at nonzero; cases nonzero

theorem number_of_finite_value {value : Float} (finite : value.isFinite = true) :
    value.isNaN = false := by
  change value.toModel.unpack.isNaN = false
  change value.toModel.unpack.isFinite = true at finite
  cases kind : value.toModel.unpack with
  | notANumber => rw [kind] at finite; cases finite
  | _ => rfl

/-! ## Greatest magnitudes -/

theorem lt_iff {left right : Float} :
    left < right ↔ left.toModel.unpack.lt right.toModel.unpack = true :=
  decide_eq_true_iff

theorem le_iff {left right : Float} :
    left ≤ right ↔ left.toModel.unpack.le right.toModel.unpack = true :=
  decide_eq_true_iff

def infinity : Float := ⟨.pack (.infinity .positive)⟩

theorem abs_of_infinite {value : Float} (lost : Lost value) (number : value.isNaN = false) :
    value.abs = infinity := by
  change value.toModel.unpack.isFinite = false at lost
  change value.toModel.unpack.isNaN = false at number
  change (⟨.pack value.toModel.unpack.abs⟩ : Float) = _
  cases kind : value.toModel.unpack with
  | infinity => rfl
  | notANumber => rw [kind] at number; cases number
  | _ => rw [kind] at lost; cases lost

theorem not_infinity_lt (bound : Float) : ¬ infinity < bound := by
  rw [lt_iff]
  change ¬ UnpackedFloat.lt (.infinity .positive) bound.toModel.unpack = true
  cases bound.toModel.unpack with
  | infinity sign => cases sign <;> decide
  | _ => exact Bool.false_ne_true

theorem greater_infinity_left (value : Float) : greater infinity value = infinity := by
  unfold greater
  rw [if_neg (not_infinity_lt value), ite_self]
  rfl

theorem greater_infinity_right (value : Float) : greater value infinity = infinity := by
  have either : value.isNaN = true ∨ value < infinity ∨ value = infinity := by
    have packed := pack_unpack value
    rw [lt_iff]
    change value.toModel.unpack.isNaN = true ∨
      UnpackedFloat.lt value.toModel.unpack (.infinity .positive) = true ∨ _
    cases kind : value.toModel.unpack with
    | notANumber => exact .inl rfl
    | infinity sign =>
        cases sign with
        | positive =>
            rw [kind] at packed
            exact .inr (.inr packed.symm)
        | negative => exact .inr (.inl rfl)
    | _ => exact .inr (.inl rfl)
  unfold greater
  rcases either with nan | below | rfl
  · exact if_pos nan
  · rw [if_pos below, if_neg (by decide : ¬ infinity.isNaN = true), ite_self]
  · decide +kernel

theorem greatest_of_infinite {values : List Float} {start : Float}
    (gone : start = infinity ∨ ∃ value ∈ values, value.abs = infinity) :
    values.foldl (fun greatest value => greater greatest value.abs) start = infinity := by
  induction values generalizing start with
  | nil => exact gone.resolve_right (by simp)
  | cons first values induction =>
      apply induction
      rcases gone with rfl | ⟨value, member, infinite⟩
      · exact .inl (greater_infinity_left _)
      · rcases List.mem_cons.mp member with rfl | later
        · left
          dsimp only
          rw [infinite, greater_infinity_right]
        · exact .inr ⟨value, later, infinite⟩

/-- The greatest magnitude leaves out what is not a number. So below a bound nothing is lost but
what is not a number. -/
theorem nan_of_bounded {values : List Float} {bound : Float}
    (bounded : Scalar.greatestAbs values < bound) {value : Float} (member : value ∈ values)
    (lost : Lost value) : value.isNaN = true := by
  by_contra number
  rw [Bool.not_eq_true] at number
  have greatest : Scalar.greatestAbs values = infinity :=
    greatest_of_infinite (.inr ⟨value, member, abs_of_infinite lost number⟩)
  rw [greatest] at bounded
  exact not_infinity_lt bound bounded

theorem not_le_zero {value : Float} (positive : 0 < value) : ¬ value ≤ 0 := by
  rw [lt_iff] at positive
  rw [le_iff]
  change UnpackedFloat.lt (.zero .positive) value.toModel.unpack = true at positive
  change ¬ UnpackedFloat.le value.toModel.unpack (.zero .positive) = true
  cases kind : value.toModel.unpack with
  | notANumber => exact Bool.false_ne_true
  | zero => rw [kind] at positive; cases positive
  | infinity sign | finite sign =>
      rw [kind] at positive
      cases sign with
      | negative => cases positive
      | positive => exact Bool.false_ne_true

/-! ## Values that stay finite -/

theorem within_of_le {value bound : Float} {greatest : ℤ}
    (bounded : Within greatest bound.toModel.unpack) (below : value.abs ≤ bound) :
    Within greatest value.toModel.unpack := by
  rw [le_iff] at below
  change UnpackedFloat.le (Float.Model.pack value.toModel.unpack.abs).unpack _ = true at below
  cases shape_of value with
  | special notFinite =>
      change value.toModel.unpack.isFinite = false at notFinite
      cases special : value.toModel.unpack with
      | notANumber => rw [special] at below; cases below
      | infinity sign =>
          rw [special, UnpackedFloat.abs, unpack_infinity] at below
          cases kind : bound.toModel.unpack with
          | notANumber | infinity => rw [kind] at bounded; cases bounded
          | _ => rw [kind] at below; cases below
      | _ => rw [special] at notFinite; cases notFinite
  | zero sign => exact within_zero sign
  | finite sign isDouble =>
      rename_i place _
      rw [unpack_of_parts] at below ⊢
      change UnpackedFloat.le (ofParts .positive isDouble).toModel.unpack _ = true at below
      rw [unpack_of_parts] at below
      refine .finite isDouble.short ?_
      cases kind : bound.toModel.unpack with
      | notANumber | infinity => rw [kind] at bounded; cases bounded
      | zero => rw [kind] at below; cases below
      | finite boundSign mantissa exponent =>
          rw [kind] at bounded below
          cases boundSign with
          | negative => cases below
          | positive =>
              obtain _ | ⟨_, low⟩ := bounded
              apply le_trans _ low
              by_contra above
              have greater : compare place exponent = .gt :=
                compare_gt_iff_gt.mpr (not_le.mp above)
              change ((compare place exponent).then (compare _ mantissa)).isLE = true at below
              rw [greater] at below
              cases below

theorem greater_zero (value : Float) :
    greater value 0 = if value.isNaN = true ∨ value < 0 then 0 else value := by
  unfold greater
  rw [if_neg (by decide : ¬ Float.isNaN 0 = true)]
  split
  · rename_i nan
    rw [if_pos (.inl nan)]
  · rename_i number
    split
    · rename_i negative
      rw [if_pos (.inr negative)]
    · rename_i nonneg
      rw [if_neg (not_or.mpr ⟨number, nonneg⟩)]

/-- The root of a variance is far from the greatest double, unless the variance is infinite. A
variance that is negative or not a number counts as zero. -/
theorem root_within {variance : Float} (bounded : variance ≠ infinity) :
    Within 487 (Float.sqrt (greater variance 0)).toModel.unpack := by
  rw [greater_zero]
  split
  · exact .zero .positive
  · rename_i counts
    rw [lt_iff] at counts
    change ¬ (variance.toModel.unpack.isNaN = true ∨
      variance.toModel.unpack.lt (.zero .positive) = true) at counts
    change Within 487
      (Float.Model.pack (UnpackedFloat.sqrt Format.binary64 variance.toModel.unpack)).unpack
    have packed := pack_unpack variance
    have isFinite : variance.isFinite = variance.toModel.unpack.isFinite := rfl
    cases kind : variance.toModel.unpack with
    | notANumber =>
        rw [kind] at counts
        exact absurd (.inl rfl) counts
    | infinity sign =>
        rw [kind] at counts packed
        cases sign with
        | positive => exact absurd packed.symm bounded
        | negative => exact absurd (.inr rfl) counts
    | zero sign => exact within_zero sign
    | finite sign mantissa exponent positive =>
        rw [kind] at counts isFinite
        cases sign with
        | negative => exact absurd (.inr rfl) counts
        | positive =>
            have short := within_of_finite isFinite
            rw [kind] at short
            obtain _ | ⟨short, low⟩ := short
            exact within_of_root positive short low

theorem root_number (variance : Float) : (Float.sqrt (greater variance 0)).isNaN = false := by
  by_cases infinite : variance = infinity
  · subst infinite
    decide +kernel
  · exact number_of_finite_value (finite_of_within (root_within infinite))

end KifuRatings.Double
