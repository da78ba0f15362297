import KifuRatings.Decimal.Parts
import Mathlib

/-!
# The values of 64 bits

A double is known by its sign, the exponent field and the fraction field. Packing and
unpacking are inverse to each other on canonical doubles, and the parts from which numbers are
printed are the unpacked ones.
-/

open Float.Model Float.Model.UnpackedFloat

namespace KifuRatings.Decimal

/-- The mantissa and the exponent of a nonzero finite double. The mantissa is as long as it can
be, unless the exponent is the least one. -/
structure IsDouble (mantissa : ℕ) (exponent : ℤ) : Prop where
  positive : 0 < mantissa
  short : mantissa < 2 ^ 53
  least : -1074 ≤ exponent
  greatest : exponent ≤ 971
  long : 2 ^ 52 ≤ mantissa ∨ exponent = -1074

/-! ## The three fields -/

theorem to_nat_pack_components (sign : Sign) (exponent : BitVec 11) (fraction : BitVec 52) :
    (packComponents Format.binary64 sign exponent fraction).toNat =
      sign.toBitVec.toNat * 2 ^ 63 + exponent.toNat * 2 ^ 52 + fraction.toNat := by
  have exponentBound := exponent.isLt
  have fractionBound := fraction.isLt
  rw [packComponents, BitVec.toNat_append, ← Nat.shiftLeft_add_eq_or_of_lt fractionBound,
    BitVec.toNat_append, ← Nat.shiftLeft_add_eq_or_of_lt exponentBound, Nat.shiftLeft_eq,
    Nat.shiftLeft_eq]
  omega

theorem exists_pack_components (bits : BitVec 64) :
    ∃ (sign : Sign) (exponent : BitVec 11) (fraction : BitVec 52),
      bits = packComponents Format.binary64 sign exponent fraction :=
  ⟨_, _, _,
    (@packComponents_unpackSign_unpackExponent_unpackMantissa Format.binary64 bits).symm⟩

section Pack

variable (sign : Sign) {mantissa : ℕ} {exponent : ℤ}

theorem pack_normal (positive : 0 < mantissa) (long : 2 ^ 52 ≤ mantissa)
    (short : mantissa < 2 ^ 53) (greatest : exponent ≤ 971) :
    UnpackedFloat.pack Format.binary64 (.finite sign mantissa exponent positive) =
      packComponents Format.binary64 sign (BitVec.ofNat 11 (exponent + 1075).toNat)
        (BitVec.ofNat 52 mantissa) := by
  have bits : mantissa.log2 = 52 := by
    rw [Nat.log2_eq_iff positive.ne']
    exact ⟨long, short⟩
  have biased : exponent + (Format.exponentBias Format.binary64 : ℕ) +
      (Format.mantissaBitsWithoutImplicit Format.binary64 : ℕ) = exponent + 1075 := by
    rw [add_assoc]
    rfl
  have inRange : ¬ 2 ^ 11 ≤ (exponent + 1075).toNat + 1 := by omega
  simp only [UnpackedFloat.pack, biased, bits, inRange, if_false]
  rfl

theorem pack_subnormal (positive : 0 < mantissa) (short : mantissa < 2 ^ 52) :
    UnpackedFloat.pack Format.binary64 (.finite sign mantissa (-1074) positive) =
      packComponents Format.binary64 sign 0#11 (BitVec.ofNat 52 mantissa) := by
  have bits : mantissa.log2 < 52 := (Nat.log2_lt positive.ne').mpr short
  have notLong : ¬ mantissa.log2 + 1 = Format.binary64.mantissaBits := by
    change ¬ mantissa.log2 + 1 = 53
    omega
  have inRange : ¬ 2 ^ Format.binary64.exponentBits ≤
      (-1074 + (Format.binary64.exponentBias : ℤ) +
        (Format.binary64.mantissaBitsWithoutImplicit : ℕ)).toNat + 1 := by
    decide
  simp only [UnpackedFloat.pack, notLong, inRange, if_false]

end Pack

section Unpack

variable {sign : Sign} {exponent : BitVec 11} {fraction : BitVec 52}

theorem unpack_top :
    UnpackedFloat.unpack Format.binary64 (packComponents Format.binary64 sign (-1#11) fraction) =
      if fraction = 0#52 then .infinity sign else .notANumber := by
  simp only [UnpackedFloat.unpack, unpackExponent_packComponents, unpackMantissa_packComponents,
    unpackSign_packComponents, Sign.ofBitVec_toBitVec, if_true]

theorem unpack_subnormal (positive : 0 < fraction.toNat) :
    UnpackedFloat.unpack Format.binary64 (packComponents Format.binary64 sign 0#11 fraction) =
      .finite sign fraction.toNat (-1074) positive := by
  have nonzero : fraction ≠ 0#52 := by
    rintro rfl
    exact absurd positive (lt_irrefl 0)
  simp only [UnpackedFloat.unpack, unpackExponent_packComponents, unpackMantissa_packComponents,
    unpackSign_packComponents, Sign.ofBitVec_toBitVec, nonzero]
  rfl

theorem unpack_normal (notLeast : exponent ≠ 0#11) (notTop : exponent ≠ -1#11) :
    UnpackedFloat.unpack Format.binary64 (packComponents Format.binary64 sign exponent fraction) =
      .finite sign (2 ^ 52 + fraction.toNat) (exponent.toNat - 1075)
        (Nat.add_pos_left (Nat.two_pow_pos 52) _) := by
  have long : (1#1 ++ fraction).toNat = 2 ^ 52 + fraction.toNat := by
    rw [BitVec.toNat_append, ← Nat.shiftLeft_add_eq_or_of_lt fraction.isLt]
    rfl
  simp only [UnpackedFloat.unpack, unpackExponent_packComponents, unpackMantissa_packComponents,
    unpackSign_packComponents, Sign.ofBitVec_toBitVec, notLeast, notTop, if_false, long]
  rfl

end Unpack

/-! ## What a double can be -/

def isNegative : Sign → Bool
  | .negative => true
  | .positive => false

theorem parts_of_fields (sign : Sign) (exponent : BitVec 11) (fraction : BitVec 52) :
    Parts.ofBits (packComponents Format.binary64 sign exponent fraction).toNat =
      if exponent = -1#11 then
        if fraction = 0#52 then .infinite (isNegative sign) else .nan
      else if exponent = 0#11 then .finite (isNegative sign) fraction.toNat (-1074) false
      else .finite (isNegative sign) (2 ^ 52 + fraction.toNat) (exponent.toNat - 1075)
        (decide (fraction = 0#52 ∧ exponent ≠ 1#11)) := by
  have exponentBound := exponent.isLt
  have fractionBound := fraction.isLt
  have minus : (sign.toBitVec.toNat == 1) = isNegative sign := by cases sign <;> rfl
  rw [to_nat_pack_components]
  generalize total : sign.toBitVec.toNat * 2 ^ 63 + exponent.toNat * 2 ^ 52 + fraction.toNat = bits
  have signField : bits / (2048 * hiddenBit) = sign.toBitVec.toNat := by
    rw [hiddenBit]
    omega
  have exponentField : bits / hiddenBit % 2048 = exponent.toNat := by
    rw [hiddenBit]
    omega
  have fractionField : bits % hiddenBit = fraction.toNat := by
    rw [hiddenBit]
    omega
  simp only [Parts.ofBits, signField, exponentField, fractionField, minus]
  simp [← BitVec.toNat_inj, hiddenBit, bne, Bool.beq_eq_decide_eq]

def ofParts (sign : Sign) {mantissa : ℕ} {exponent : ℤ} (isDouble : IsDouble mantissa exponent) :
    Float :=
  ⟨.pack (.finite sign mantissa exponent isDouble.positive)⟩

def ofZero (sign : Sign) : Float := ⟨.pack (.zero sign)⟩

section OfParts

variable {sign : Sign} {mantissa : ℕ} {exponent : ℤ} (isDouble : IsDouble mantissa exponent)

/-- The exponent field of a double whose mantissa has its hidden bit. -/
theorem exponent_field (isDouble : IsDouble mantissa exponent) :
    (BitVec.ofNat 11 (exponent + 1075).toNat).toNat = (exponent + 1075).toNat := by
  have least := isDouble.least
  have greatest := isDouble.greatest
  rw [BitVec.toNat_ofNat]
  omega

theorem fraction_field (long : 2 ^ 52 ≤ mantissa) (short : mantissa < 2 ^ 53) :
    2 ^ 52 + (BitVec.ofNat 52 mantissa).toNat = mantissa := by
  rw [BitVec.toNat_ofNat]
  omega

theorem exponent_field_ne (isDouble : IsDouble mantissa exponent) (field : ℕ)
    (other : field < 2 ^ 11) (differs : (exponent + 1075).toNat ≠ field) :
    BitVec.ofNat 11 (exponent + 1075).toNat ≠ BitVec.ofNat 11 field := by
  intro same
  apply differs
  rw [← exponent_field isDouble, same, BitVec.toNat_ofNat, Nat.mod_eq_of_lt other]

theorem unpack_of_parts :
    (ofParts sign isDouble).toModel.unpack =
      .finite sign mantissa exponent isDouble.positive := by
  have least := isDouble.least
  have greatest := isDouble.greatest
  change UnpackedFloat.unpack Format.binary64 (UnpackedFloat.pack Format.binary64 _) = _
  rcases lt_or_ge mantissa (2 ^ 52) with short | long
  · obtain rfl := isDouble.long.resolve_left (not_le.mpr short)
    have field : (BitVec.ofNat 52 mantissa).toNat = mantissa := Nat.mod_eq_of_lt short
    rw [pack_subnormal _ _ short, unpack_subnormal (field.symm ▸ isDouble.positive)]
    simp only [field]
  · rw [pack_normal _ _ long isDouble.short greatest,
      unpack_normal (exponent_field_ne isDouble 0 (by norm_num) (by omega))
        (exponent_field_ne isDouble 2047 (by norm_num) (by omega))]
    simp only [fraction_field long isDouble.short, exponent_field isDouble]
    congr 1
    omega

theorem is_finite_of_parts : (ofParts sign isDouble).isFinite = true := by
  change UnpackedFloat.isFinite (ofParts sign isDouble).toModel.unpack = true
  rw [unpack_of_parts]
  rfl

theorem neg_of_parts : -ofParts .positive isDouble = ofParts .negative isDouble := by
  change (⟨.pack (ofParts .positive isDouble).toModel.unpack.neg⟩ : Float) = _
  rw [unpack_of_parts]
  rfl

end OfParts

theorem is_finite_of_zero (sign : Sign) : (ofZero sign).isFinite = true := by
  cases sign <;> rfl

/-- What a double is and into which parts it is taken. -/
inductive Shape : Float → Prop where
  | special {value : Float} (notFinite : value.isFinite = false)
      (parts : Parts.of value = .nan ∨ ∃ negative, Parts.of value = .infinite negative) :
      Shape value
  | zero (sign : Sign)
      (parts : Parts.of (ofZero sign) = .finite (isNegative sign) 0 (-1074) false) :
      Shape (ofZero sign)
  | finite (sign : Sign) {mantissa : ℕ} {exponent : ℤ} (isDouble : IsDouble mantissa exponent)
      (parts : Parts.of (ofParts sign isDouble) = .finite (isNegative sign) mantissa exponent
        (decide (mantissa = 2 ^ 52 ∧ exponent ≠ -1074))) :
      Shape (ofParts sign isDouble)

theorem eq_of_bits {value : Float} {unpacked : UnpackedFloat} {bits : BitVec 64}
    (known : value.toModel.toBits.toBitVec = bits)
    (packs : UnpackedFloat.pack Format.binary64 unpacked = bits) :
    value = ⟨.pack unpacked⟩ := by
  obtain ⟨⟨⟨word⟩, valid⟩⟩ := value
  subst packs known
  rfl

section Shapes

variable {value : Float} {sign : Sign} {exponent : BitVec 11} {fraction : BitVec 52}

theorem parts_of_bits
    (bits : value.toModel.toBits.toBitVec =
      packComponents Format.binary64 sign exponent fraction) :
    Parts.of value =
      Parts.ofBits (packComponents Format.binary64 sign exponent fraction).toNat :=
  congrArg (fun bits : BitVec 64 => Parts.ofBits bits.toNat) bits

theorem shape_of_top
    (bits : value.toModel.toBits.toBitVec =
      packComponents Format.binary64 sign (-1#11) fraction) :
    Shape value := by
  apply Shape.special
  · change UnpackedFloat.isFinite
      (UnpackedFloat.unpack Format.binary64 value.toModel.toBits.toBitVec) = false
    rw [bits, unpack_top]
    split <;> rfl
  · rw [parts_of_bits bits, parts_of_fields, if_pos rfl]
    split
    · exact .inr ⟨_, rfl⟩
    · exact .inl rfl

theorem shape_of_least
    (bits : value.toModel.toBits.toBitVec =
      packComponents Format.binary64 sign 0#11 fraction) :
    Shape value := by
  have parts := parts_of_bits bits
  rw [parts_of_fields, if_neg (by decide), if_pos rfl] at parts
  by_cases zero : fraction = 0#52
  · subst zero
    obtain rfl : value = ofZero sign := eq_of_bits bits rfl
    exact .zero sign parts
  · have positive : 0 < fraction.toNat := by
      rw [← BitVec.toNat_inj] at zero
      exact Nat.pos_of_ne_zero zero
    have short := fraction.isLt
    have isDouble : IsDouble fraction.toNat (-1074) :=
      ⟨positive, by omega, le_rfl, by norm_num, .inr rfl⟩
    have packs := pack_subnormal sign positive short
    rw [BitVec.ofNat_toNat, BitVec.setWidth_eq] at packs
    obtain rfl : value = ofParts sign isDouble := eq_of_bits bits packs
    apply Shape.finite sign isDouble
    simpa using parts

theorem shape_of_normal
    (bits : value.toModel.toBits.toBitVec =
      packComponents Format.binary64 sign exponent fraction)
    (notLeast : exponent ≠ 0#11) (notTop : exponent ≠ -1#11) : Shape value := by
  have exponentBound := exponent.isLt
  have fractionBound := fraction.isLt
  have positive : exponent.toNat ≠ 0 := fun same => notLeast (BitVec.eq_of_toNat_eq same)
  have below : exponent.toNat ≠ 2047 := fun same => notTop (BitVec.eq_of_toNat_eq same)
  have isDouble : IsDouble (2 ^ 52 + fraction.toNat) (exponent.toNat - 1075) :=
    ⟨by omega, by omega, by omega, by omega, .inl (by omega)⟩
  have packs := pack_normal sign isDouble.positive (Nat.le_add_right _ _)
    isDouble.short isDouble.greatest
  have exponentField : BitVec.ofNat 11 ((exponent.toNat : ℤ) - 1075 + 1075).toNat = exponent := by
    rw [sub_add_cancel, Int.toNat_natCast, BitVec.ofNat_toNat, BitVec.setWidth_eq]
  have fractionField : BitVec.ofNat 52 (2 ^ 52 + fraction.toNat) = fraction := by
    apply BitVec.eq_of_toNat_eq
    rw [BitVec.toNat_ofNat]
    omega
  rw [exponentField, fractionField] at packs
  obtain rfl : value = ofParts sign isDouble := eq_of_bits bits packs
  apply Shape.finite sign isDouble
  rw [parts_of_bits bits, parts_of_fields, if_neg notTop, if_neg notLeast]
  congr 1
  rw [decide_eq_decide, ← BitVec.toNat_inj, ne_eq, ← BitVec.toNat_inj]
  change fraction.toNat = 0 ∧ ¬ exponent.toNat = 1 ↔ _
  omega

end Shapes

theorem shape_of (value : Float) : Shape value := by
  obtain ⟨sign, exponent, fraction, bits⟩ :=
    exists_pack_components value.toModel.toBits.toBitVec
  by_cases top : exponent = -1#11
  · subst top
    exact shape_of_top bits
  by_cases least : exponent = 0#11
  · subst least
    exact shape_of_least bits
  · exact shape_of_normal bits least top

theorem beq_self {value : Float} (finite : value.isFinite = true) : (value == value) = true := by
  rw [Float.beq_self_iff]
  rintro rfl
  cases finite

end KifuRatings.Decimal
