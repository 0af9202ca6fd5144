import Mathlib.NumberTheory.LegendreSymbol.Basic
import Mathlib.Tactic.NormNum.Prime
import PrivateMatching.Proofs.Key
import PrivateMatching.Proofs.QuadraticResidue.Power
import PrivateMatching.Proofs.Reading
import PrivateMatching.QuadraticResidue.Suite

/-!
# The quadratic residues as a group

A residue is sound if it is below the prime and a root of one to the order, which
by Euler's criterion makes it a square (`Residue.Sound.isSquare`). Sound residues
are read as units modulo the prime (`reading`), and their encodings are canonical
(`reading_isCanonical`).
-/

namespace PrivateMatching

namespace QuadraticResidue

instance prime_modulus : Fact (Nat.Prime 2039) := ⟨by norm_num⟩

instance : Fact (Nat.Prime suite.order) := ⟨show Nat.Prime 1019 by norm_num⟩

instance : Fact (2 < suite.order) := ⟨show 2 < 1019 by norm_num⟩

namespace Residue

/-- A residue as an integer modulo the prime. -/
def toZMod (x : Residue) : ZMod 2039 := (x.value.toNat : ZMod 2039)

/-- The least representative of a root of one to the order. -/
structure Sound (x : Residue) : Prop where
  lt : x.value.toNat < 2039
  pow_order : x.toZMod ^ 1019 = 1

variable {x y : Residue}

theorem val_toZMod (hx : x.value.toNat < 2039) : x.toZMod.val = x.value.toNat :=
  ZMod.val_cast_of_lt hx

/-- Representatives below the prime are told apart modulo the prime. -/
theorem eq_of_toZMod_eq (hx : x.value.toNat < 2039) (hy : y.value.toNat < 2039)
    (h : x.toZMod = y.toZMod) : x = y := by
  have : x.value.toNat = y.value.toNat := by rw [← val_toZMod hx, ← val_toZMod hy, h]
  cases x
  cases y
  exact congrArg Residue.mk (UInt32.toNat_inj.1 this)

theorem toZMod_one : one.toZMod = 1 := Nat.cast_one

theorem Sound.ne_zero (hx : x.Sound) : x.toZMod ≠ 0 := by
  intro h
  have := hx.pow_order
  rw [h, zero_pow (by norm_num)] at this
  exact zero_ne_one this

/-- A root of one to the order is a square. -/
theorem Sound.isSquare (hx : x.Sound) : IsSquare x.toZMod :=
  (ZMod.euler_criterion 2039 hx.ne_zero).2 hx.pow_order

/-! ## Operations -/

/-- A residue of a power modulo the prime stands for the power. -/
theorem toZMod_modPow (v n : UInt32) :
    (⟨modPow v n prime⟩ : Residue).toZMod = (v.toNat : ZMod 2039) ^ n.toNat := by
  rw [toZMod, toNat_modPow v n (by decide), show prime.toNat = 2039 from rfl, ZMod.natCast_mod,
    Nat.cast_pow]

theorem modPow_lt (v n : UInt32) : (modPow v n prime).toNat < 2039 := by
  rw [toNat_modPow v n (by decide)]
  exact Nat.mod_lt _ (by decide)

theorem toZMod_exp (x : Residue) (s : Scalar order) : (x.exp s).toZMod = x.toZMod ^ s.val := by
  have hs : (UInt32.ofNat s.val).toNat = s.val :=
    UInt32.toNat_ofNat_of_lt' (s.isLt.trans (by decide))
  rw [exp, toZMod_modPow, hs, toZMod]

/-- A product is worked out without loss. -/
theorem toNat_mul (x y : Residue) :
    (x.mul y).value.toNat = x.value.toNat * y.value.toNat % 2039 :=
  toNat_mul_mod_toUInt32 x.value y.value (m := prime) (by decide)

theorem mul_lt (x y : Residue) : (x.mul y).value.toNat < 2039 := by
  rw [toNat_mul]
  exact Nat.mod_lt _ (by decide)

theorem toZMod_mul (x y : Residue) : (x.mul y).toZMod = x.toZMod * y.toZMod := by
  rw [toZMod, toNat_mul, ZMod.natCast_mod, Nat.cast_mul, toZMod, toZMod]

namespace Sound

theorem one : Residue.one.Sound := ⟨by decide, by rw [toZMod_one, one_pow]⟩

theorem generator : Residue.generator.Sound := ⟨by decide, by decide +kernel⟩

theorem mul (hx : x.Sound) (hy : y.Sound) : (x.mul y).Sound :=
  ⟨mul_lt x y, by rw [toZMod_mul, mul_pow, hx.pow_order, hy.pow_order, one_mul]⟩

theorem exp (hx : x.Sound) (s : Scalar order) : (x.exp s).Sound := by
  refine ⟨modPow_lt _ _, ?_⟩
  rw [toZMod_exp, ← pow_mul, mul_comm, pow_mul, hx.pow_order, one_pow]

end Sound

theorem isIdentity_iff (hx : x.Sound) : x.isIdentity = true ↔ x.toZMod = 1 := by
  rw [isIdentity, beq_iff_eq, ← toZMod_one]
  constructor
  · intro h
    rw [toZMod, h]
    rfl
  · intro h
    rw [eq_of_toZMod_eq hx.lt Sound.one.lt h]
    rfl

/-! ## Encoding -/

/-- The members are the sound residues. -/
theorem isMember_iff : isMember x.value = true ↔ x.Sound := by
  have hpow : modPow x.value (UInt32.ofNat order) prime = 1 ↔ x.toZMod ^ 1019 = 1 := by
    have hvalue : (⟨modPow x.value (UInt32.ofNat order) prime⟩ : Residue).toZMod =
        x.toZMod ^ 1019 := toZMod_modPow _ _
    rw [← hvalue, ← toZMod_one]
    constructor
    · intro h
      rw [h]
      rfl
    · intro h
      exact congrArg value (eq_of_toZMod_eq (modPow_lt _ _) Sound.one.lt h)
  simp only [isMember, Bool.and_eq_true, bne_iff_ne, decide_eq_true_eq, beq_iff_eq, hpow]
  constructor
  · rintro ⟨⟨_, hlt⟩, hone⟩
    exact ⟨hlt, hone⟩
  · intro h
    refine ⟨⟨?_, h.lt⟩, h.pow_order⟩
    intro hzero
    exact h.ne_zero (by rw [toZMod, hzero, UInt32.toNat_zero, Nat.cast_zero])

theorem toNatBE_encode (hx : x.value.toNat < 2039) : Bytes.toNatBE x.encode = x.value.toNat :=
  Bytes.toNat_ofNat .big (hx.trans (by decide))

/-- A string is read as an element if and only if it is the encoding of the
    element, which is sound and not the identity. -/
theorem decode_eq_ok {bytes : Bytes} :
    decode bytes = .ok x ↔ bytes = x.encode ∧ x.Sound ∧ x ≠ Residue.one := by
  constructor
  · intro h
    unfold decode at h
    split at h
    · cases h
    · rename_i hwidth
      have hlength : bytes.length = 2 := not_not.1 hwidth
      have hlt : Bytes.toNatBE bytes < 256 ^ 2 := hlength ▸ Bytes.toNat_lt .big bytes
      have hvalue : (UInt32.ofNat (Bytes.toNatBE bytes)).toNat = Bytes.toNatBE bytes :=
        UInt32.toNat_ofNat_of_lt' (hlt.trans (by decide))
      simp only [Bool.not_eq_true'] at h
      split at h
      · cases h
      · rename_i hmember
        split at h
        · cases h
        · rename_i hone
          cases h
          have hbytes := Bytes.ofNatBE_toNatBE bytes
          rw [hlength] at hbytes
          refine ⟨?_, isMember_iff.1 ((Bool.not_eq_false _).mp hmember), ?_⟩
          · rw [encode, hvalue]
            exact hbytes.symm
          · exact fun h => hone (congrArg value h)
  · rintro ⟨rfl, hx, hone⟩
    have hlength : x.encode.length = width := Bytes.length_ofNatBE _ _
    have hvalue : UInt32.ofNat (Bytes.toNatBE x.encode) = x.value := by
      rw [toNatBE_encode hx.lt]
      exact UInt32.ofNat_toNat
    have hne : x.value ≠ 1 := fun h => hone (congrArg mk h)
    simp only [decode, hlength, ne_eq, not_true, if_false, hvalue, isMember_iff.2 hx, Bool.not_true,
      Bool.false_eq_true, hne]

/-- The string of the identity is refused as such. -/
theorem decode_encode_one : decode Residue.one.encode = .error .identity := by decide +kernel

end Residue

/-! ## The reading -/

/-- The unit that a residue stands for. -/
noncomputable def unit (x : Residue) : (ZMod 2039)ˣ :=
  if h : x.toZMod = 0 then 1 else Units.mk0 x.toZMod h

theorem coe_unit {x : Residue} (hx : x.Sound) : (unit x : ZMod 2039) = x.toZMod := by
  rw [unit, dif_neg hx.ne_zero, Units.val_mk0]

theorem unit_eq_iff {x y : Residue} (hx : x.Sound) (hy : y.Sound) : unit x = unit y ↔ x = y := by
  rw [← Units.val_inj, coe_unit hx, coe_unit hy]
  exact ⟨Residue.eq_of_toZMod_eq hx.lt hy.lt, congrArg Residue.toZMod⟩

theorem unit_one : unit Residue.one = 1 :=
  Units.ext (by rw [coe_unit Residue.Sound.one, Residue.toZMod_one, Units.val_one])

theorem unit_mul {x y : Residue} (hx : x.Sound) (hy : y.Sound) :
    unit (x.mul y) = unit x * unit y := by
  refine Units.ext ?_
  rw [Units.val_mul, coe_unit (hx.mul hy), coe_unit hx, coe_unit hy]
  exact Residue.toZMod_mul x y

theorem unit_exp {x : Residue} (hx : x.Sound) (s : Scalar order) :
    unit (x.exp s) = unit x ^ s.val := by
  refine Units.ext ?_
  rw [Units.val_pow_eq_pow_val, coe_unit (hx.exp s), coe_unit hx]
  exact Residue.toZMod_exp x s

theorem unit_pow_order {x : Residue} (hx : x.Sound) : unit x ^ order = 1 := by
  refine Units.ext ?_
  rw [Units.val_pow_eq_pow_val, coe_unit hx, Units.val_one]
  exact hx.pow_order

/-- The toy suite, read in the units modulo the prime. -/
noncomputable def reading : suite.Reading (ZMod 2039)ˣ where
  Sound := Residue.Sound
  value := unit
  value_pow_order := unit_pow_order
  sound_one := Residue.Sound.one
  value_one := unit_one
  sound_generator := Residue.Sound.generator
  sound_mul := Residue.Sound.mul
  value_mul := unit_mul
  sound_exp := Residue.Sound.exp
  value_exp := unit_exp
  equal_iff hx hy := by
    rw [unit_eq_iff hx hy]
    exact beq_iff_eq
  isIdentity_iff hx := by
    rw [← Units.val_eq_one, coe_unit hx]
    exact Residue.isIdentity_iff hx
  sound_of_decode h := (Residue.decode_eq_ok.1 h).2.1
  value_ne_one_of_decode h := by
    obtain ⟨_, hx, hone⟩ := Residue.decode_eq_ok.1 h
    rw [← unit_one, Ne, unit_eq_iff hx Residue.Sound.one]
    exact hone

theorem reading_isCanonical : reading.IsCanonical where
  encode_congr hx hy h := by rw [(unit_eq_iff hx hy).1 h]
  encode_of_decode h := (Residue.decode_eq_ok.1 h).1.symm
  decode_encode {x} hx hone := by
    refine ⟨x, Residue.decode_eq_ok.2 ⟨rfl, hx, ?_⟩, rfl⟩
    rintro rfl
    exact hone unit_one

end QuadraticResidue

end PrivateMatching
