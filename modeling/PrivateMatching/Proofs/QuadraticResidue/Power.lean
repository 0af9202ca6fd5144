import Mathlib.Data.Nat.ModEq
import Mathlib.Data.Nat.Size
import Mathlib.Tactic.NormNum
import PrivateMatching.Proofs.Power
import PrivateMatching.QuadraticResidue.Power

/-!
# Modular powers in machine words are exact

The loop of `modPow` goes on for as long as its exponent is not zero. `LoopRun` says so without
a limit on the rounds, and keeps the words that each round starts from.

A round halves the exponent, so the loop ends (`exists_loopRun`), after as many rounds as the
exponent has bits. It keeps the words below the modulus (`LoopState.Reduced.next`), so a product
of two of them fits 64 bits (`mul_lt_of_lt`), and it keeps what is left to be worked out
(`LoopState.Reduced.product_next`). Hence the loop computes what it would compute with natural
numbers (`toNat_modPow`), and nothing is lost on the way (`modPow_exact`).
-/

namespace PrivateMatching

namespace QuadraticResidue

/-- A product of words below a 32-bit modulus fits 64 bits. -/
theorem mul_lt_of_lt {a b m : UInt64} (hm : m.toNat < 2 ^ 32) (ha : a.toNat < m.toNat)
    (hb : b.toNat < m.toNat) : a.toNat * b.toNat < 2 ^ 64 :=
  calc a.toNat * b.toNat < 2 ^ 32 * 2 ^ 32 := Nat.mul_lt_mul'' (ha.trans hm) (hb.trans hm)
    _ = 2 ^ 64 := by norm_num

/-- Such a product loses nothing. -/
theorem toNat_mul_mod {a b m : UInt64} (hm : m.toNat < 2 ^ 32) (ha : a.toNat < m.toNat)
    (hb : b.toNat < m.toNat) : (a * b % m).toNat = a.toNat * b.toNat % m.toNat := by
  rw [UInt64.toNat_mod, UInt64.toNat_mul, Nat.mod_eq_of_lt (mul_lt_of_lt hm ha hb)]

/-- A product of 32-bit words is taken in 64 bits, and its residue fits 32 bits again. -/
theorem toNat_mul_mod_toUInt32 (a b : UInt32) {m : UInt32} (hm : 0 < m.toNat) :
    (a.toUInt64 * b.toUInt64 % m.toUInt64).toUInt32.toNat = a.toNat * b.toNat % m.toNat := by
  have hproduct : a.toNat * b.toNat < 2 ^ 64 :=
    calc a.toNat * b.toNat < 2 ^ 32 * 2 ^ 32 := Nat.mul_lt_mul'' a.toNat_lt b.toNat_lt
      _ = 2 ^ 64 := by norm_num
  rw [UInt64.toNat_toUInt32, UInt64.toNat_mod, UInt64.toNat_mul, UInt32.toNat_toUInt64,
    UInt32.toNat_toUInt64, UInt32.toNat_toUInt64, Nat.mod_eq_of_lt hproduct]
  exact Nat.mod_eq_of_lt ((Nat.mod_lt _ hm).trans m.toNat_lt)

/-- Half of a number has one bit less. -/
theorem size_eq_size_half {n : ℕ} (h : n ≠ 0) : n.size = (n / 2).size + 1 := by
  have hbits : Nat.bit n.bodd n.div2 ≠ 0 := by rwa [Nat.bit_bodd_div2]
  conv_lhs => rw [← Nat.bit_bodd_div2 n]
  rw [Nat.size_bit hbits, Nat.div2_val]

/-! ## Rounds -/

/-- The words of the loop, between two rounds. -/
structure LoopState where
  /-- What has been multiplied so far. -/
  acc : UInt64
  /-- The base, squared as often as there were rounds. -/
  base : UInt64
  /-- The bits of the exponent that are left. -/
  exponent : UInt32

namespace LoopState

variable {m : UInt64} {s : LoopState}

/-- The words that the loop starts from. -/
def start (base exponent modulus : UInt32) : LoopState :=
  ⟨1, base.toUInt64 % modulus.toUInt64, exponent⟩

/-- The words after a round. -/
def next (m : UInt64) (s : LoopState) : LoopState where
  acc := if s.exponent &&& 1 = 1 then s.acc * s.base % m else s.acc
  base := s.base * s.base % m
  exponent := s.exponent >>> 1

/-- What the loop is to work out, modulo the modulus. -/
def product (s : LoopState) : ℕ := s.acc.toNat * s.base.toNat ^ s.exponent.toNat

/-- The words that are multiplied are below the modulus. -/
structure Reduced (m : UInt64) (s : LoopState) : Prop where
  acc_lt : s.acc.toNat < m.toNat
  base_lt : s.base.toNat < m.toNat

theorem toNat_exponent_next : (s.next m).exponent.toNat = s.exponent.toNat / 2 := by
  simp [next, UInt32.toNat_shiftRight, Nat.shiftRight_eq_div_pow]

theorem reduced_start (base exponent : UInt32) {modulus : UInt32} (h : 2 ≤ modulus.toNat) :
    Reduced modulus.toUInt64 (start base exponent modulus) := by
  refine ⟨?_, ?_⟩
  · change (1 : UInt64).toNat < _
    rw [UInt32.toNat_toUInt64, UInt64.toNat_one]
    omega
  · rw [start, UInt64.toNat_mod, UInt32.toNat_toUInt64, UInt32.toNat_toUInt64]
    exact Nat.mod_lt _ (by omega)

theorem Reduced.next (h : s.Reduced m) : (s.next m).Reduced m := by
  have hmod : ∀ w : UInt64, (w % m).toNat < m.toNat := by
    intro w
    rw [UInt64.toNat_mod]
    exact Nat.mod_lt _ ((Nat.zero_le _).trans_lt h.base_lt)
  refine ⟨?_, hmod _⟩
  rw [LoopState.next]
  split
  · exact hmod _
  · exact h.acc_lt

/-- A round keeps what the loop is to work out. -/
theorem Reduced.product_next (h : s.Reduced m) (hm : m.toNat < 2 ^ 32) :
    (s.next m).product ≡ s.product [MOD m.toNat] := by
  have hodd : s.exponent &&& 1 = 1 ↔ s.exponent.toNat % 2 = 1 := by
    rw [← UInt32.toNat_inj, UInt32.toNat_and, UInt32.toNat_one, Nat.and_one_is_mod]
  have hsquare : (s.next m).base.toNat ≡ s.base.toNat * s.base.toNat [MOD m.toNat] := by
    rw [LoopState.next, toNat_mul_mod hm h.base_lt h.base_lt]
    exact Nat.mod_modEq _ _
  -- The lowest bit of the exponent decides on the factor.
  have hacc : (s.next m).acc.toNat ≡
      s.acc.toNat * s.base.toNat ^ (s.exponent.toNat % 2) [MOD m.toNat] := by
    rw [LoopState.next]
    split
    · rename_i hbit
      rw [hodd.1 hbit, pow_one, toNat_mul_mod hm h.acc_lt h.base_lt]
      exact Nat.mod_modEq _ _
    · rename_i hbit
      rw [Nat.mod_two_ne_one.1 (hodd.not.1 hbit), pow_zero, mul_one]
  rw [product, product, toNat_exponent_next, pow_eq_pow_mod_two_mul s.base.toNat, ← mul_assoc]
  exact hacc.mul (hsquare.pow _)

end LoopState

/-! ## Runs -/

/-- The loop from some words to its end. The list has the words at the start of each round. -/
inductive LoopRun (m : UInt64) : LoopState → List LoopState → LoopState → Prop
  /-- The exponent is used up. -/
  | ends {s : LoopState} (h : s.exponent = 0) : LoopRun m s [] s
  /-- There is a round, and the loop goes on from the words after it. -/
  | round {s last : LoopState} {rounds : List LoopState} (h : s.exponent ≠ 0)
    (hrest : LoopRun m (s.next m) rounds last) : LoopRun m s (s :: rounds) last

/-- The loop ends, as the exponent gets smaller in every round. -/
theorem exists_loopRun (m : UInt64) (s : LoopState) : ∃ rounds last, LoopRun m s rounds last := by
  induction hn : s.exponent.toNat using Nat.strong_induction_on generalizing s with
  | _ n ih =>
    by_cases h : s.exponent = 0
    · exact ⟨[], s, .ends h⟩
    · have hpos : s.exponent.toNat ≠ 0 := fun hzero => h (UInt32.toNat_inj.1 hzero)
      have hlt : (s.next m).exponent.toNat < n := by
        rw [LoopState.toNat_exponent_next]
        omega
      obtain ⟨rounds, last, hrest⟩ := ih _ hlt (s.next m) rfl
      exact ⟨s :: rounds, last, .round h hrest⟩

namespace LoopRun

variable {m : UInt64} {s last : LoopState} {rounds : List LoopState}

/-- There are as many rounds as the exponent has bits. -/
theorem length_eq (h : LoopRun m s rounds last) : rounds.length = s.exponent.toNat.size := by
  induction h with
  | ends hzero => rw [hzero, UInt32.toNat_zero, Nat.size_zero, List.length_nil]
  | @round s _ _ hne _ ih =>
    have hpos : s.exponent.toNat ≠ 0 := fun hzero => hne (UInt32.toNat_inj.1 hzero)
    rw [List.length_cons, ih, LoopState.toNat_exponent_next, ← size_eq_size_half hpos]

theorem reduced (h : LoopRun m s rounds last) (hs : s.Reduced m) :
    (∀ r ∈ rounds, r.Reduced m) ∧ last.Reduced m := by
  induction h with
  | ends _ => exact ⟨fun _ hr => absurd hr List.not_mem_nil, hs⟩
  | round _ _ ih =>
    obtain ⟨hrounds, hlast⟩ := ih hs.next
    exact ⟨List.forall_mem_cons.2 ⟨hs, hrounds⟩, hlast⟩

/-- What is left at the end is what the loop was to work out. -/
theorem toNat_acc (h : LoopRun m s rounds last) (hs : s.Reduced m) (hm : m.toNat < 2 ^ 32) :
    last.acc.toNat = s.product % m.toNat := by
  induction h with
  | ends hzero =>
    rw [LoopState.product, hzero, UInt32.toNat_zero, pow_zero, mul_one, Nat.mod_eq_of_lt hs.acc_lt]
  | round _ _ ih =>
    rw [ih hs.next]
    exact hs.product_next hm

/-- A limit that is not below the number of rounds makes no difference. -/
theorem modPowLoop_eq (h : LoopRun m s rounds last) {bits : ℕ} (hbits : rounds.length ≤ bits) :
    modPowLoop m bits s.acc s.base s.exponent = last.acc := by
  induction h generalizing bits with
  | ends hzero =>
    cases bits with
    | zero => rfl
    | succ bits => rw [modPowLoop, if_pos hzero]
  | round hne _ ih =>
    cases bits with
    | zero => exact absurd hbits (Nat.not_succ_le_zero _)
    | succ bits =>
      rw [modPowLoop, if_neg hne]
      exact ih (Nat.le_of_succ_le_succ hbits)

end LoopRun

section ModPow

variable {base exponent modulus : UInt32} {rounds : List LoopState} {last : LoopState}

/-- What `modPow` gives is what the loop leaves, in 32 bits. -/
theorem LoopRun.modPow_eq
    (h : LoopRun modulus.toUInt64 (.start base exponent modulus) rounds last) :
    modPow base exponent modulus = last.acc.toUInt32 := by
  have hbits : rounds.length ≤ 32 := h.length_eq.trans_le (Nat.size_le.2 exponent.toNat_lt)
  rw [modPow]
  exact congrArg UInt64.toUInt32 (h.modPowLoop_eq hbits)

theorem LoopRun.toNat_acc_start
    (h : LoopRun modulus.toUInt64 (.start base exponent modulus) rounds last)
    (hmodulus : 2 ≤ modulus.toNat) :
    last.acc.toNat = base.toNat ^ exponent.toNat % modulus.toNat := by
  have hm : modulus.toUInt64.toNat < 2 ^ 32 := modulus.toNat_toUInt64 ▸ modulus.toNat_lt
  rw [h.toNat_acc (LoopState.reduced_start base exponent hmodulus) hm, LoopState.product,
    LoopState.start, UInt64.toNat_one, one_mul, UInt64.toNat_mod, UInt32.toNat_toUInt64,
    UInt32.toNat_toUInt64, ← Nat.pow_mod]

/-- What the loop leaves fits 32 bits. -/
theorem LoopRun.toNat_toUInt32_acc
    (h : LoopRun modulus.toUInt64 (.start base exponent modulus) rounds last)
    (hmodulus : 2 ≤ modulus.toNat) : last.acc.toUInt32.toNat = last.acc.toNat := by
  rw [UInt64.toNat_toUInt32, h.toNat_acc_start hmodulus]
  exact Nat.mod_eq_of_lt ((Nat.mod_lt _ (by omega)).trans modulus.toNat_lt)

end ModPow

/-- The power in machine words is the power of natural numbers, modulo the
    modulus. -/
theorem toNat_modPow (base exponent : UInt32) {modulus : UInt32} (h : 2 ≤ modulus.toNat) :
    (modPow base exponent modulus).toNat = base.toNat ^ exponent.toNat % modulus.toNat := by
  obtain ⟨rounds, last, hrun⟩ := exists_loopRun modulus.toUInt64 (.start base exponent modulus)
  rw [hrun.modPow_eq, hrun.toNat_toUInt32_acc h, hrun.toNat_acc_start h]

/-- Modular powers are worked out without overflow, for any words and a modulus of at least two.
    The loop ends, after as many rounds as the exponent has bits; every product in it is below
    2 ^ 64; what it leaves fits 32 bits; and this is the power modulo the modulus. -/
theorem modPow_exact (base exponent modulus : UInt32) (h : 2 ≤ modulus.toNat) :
    (∃ rounds last, LoopRun modulus.toUInt64 (.start base exponent modulus) rounds last) ∧
      ∀ rounds last, LoopRun modulus.toUInt64 (.start base exponent modulus) rounds last →
        rounds.length = exponent.toNat.size ∧
        (∀ s ∈ rounds, s.acc.toNat * s.base.toNat < 2 ^ 64 ∧
          s.base.toNat * s.base.toNat < 2 ^ 64) ∧
        last.acc.toUInt32.toNat = last.acc.toNat ∧
        modPow base exponent modulus = last.acc.toUInt32 ∧
        (modPow base exponent modulus).toNat = base.toNat ^ exponent.toNat % modulus.toNat := by
  have hm : modulus.toUInt64.toNat < 2 ^ 32 := modulus.toNat_toUInt64 ▸ modulus.toNat_lt
  refine ⟨exists_loopRun _ _, fun rounds last hrun => ?_⟩
  obtain ⟨hrounds, _⟩ := hrun.reduced (LoopState.reduced_start base exponent h)
  refine ⟨hrun.length_eq, fun s hs => ?_, hrun.toNat_toUInt32_acc h, hrun.modPow_eq,
    toNat_modPow base exponent h⟩
  have hs := hrounds s hs
  exact ⟨mul_lt_of_lt hm hs.acc_lt hs.base_lt, mul_lt_of_lt hm hs.base_lt hs.base_lt⟩

/-- With the largest modulus and the largest base below it, products come close to 2 ^ 64: the
    base stands for minus one, which is its own third power. -/
theorem modPow_exact_largest :
    2 ≤ (4294967295 : UInt32).toNat ∧
      (∃ rounds last, LoopRun 4294967295 (.start 4294967294 3 4294967295) rounds last ∧
        rounds.length = 2) ∧
      (modPow 4294967294 3 4294967295).toNat = 4294967294 := by
  have hmodulus : 2 ≤ (4294967295 : UInt32).toNat := by decide
  obtain ⟨⟨rounds, last, hrun⟩, hall⟩ := modPow_exact 4294967294 3 4294967295 hmodulus
  obtain ⟨hlength, _, _, _, hvalue⟩ := hall rounds last hrun
  refine ⟨hmodulus, ⟨rounds, last, hrun, hlength.trans ?_⟩, hvalue.trans ?_⟩
  · decide
  · decide

end QuadraticResidue

end PrivateMatching
