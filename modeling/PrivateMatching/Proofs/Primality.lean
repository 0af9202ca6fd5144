import Mathlib.NumberTheory.LucasPrimality
import PrivateMatching.Proofs.Power

/-!
# Certified primes

A number `n` is prime if some base has the order `n - 1` modulo `n`. To see that
it has, the primes that divide `n - 1` have to be known: they are small, or
certified in the same way. A certificate is a list of such steps, and
`Certificate.holds` checks it by calculation; the last of its numbers is then
prime (`Certificate.prime_of_mem`).
-/

namespace PrivateMatching

/-- A step of a certificate, for one number. -/
structure Certificate.Step where
  /-- The number that is prime. -/
  number : ℕ
  /-- A base whose order is the number less one. -/
  base : ℕ
  /-- The primes that divide the number less one. -/
  factors : List ℕ

/-- What makes some numbers prime, each by primes before it. -/
abbrev Certificate := List Certificate.Step

namespace Certificate

/-- The base raised to the exponent, modulo `n`. -/
def powMod (n base exponent : ℕ) : ℕ :=
  power (1 % n) (fun a b => a * b % n) (fun a => a * a % n) base exponent

theorem cast_powMod (n base exponent : ℕ) :
    (powMod n base exponent : ZMod n) = (base : ZMod n) ^ exponent := by
  refine map_power (P := fun _ => True) (f := fun a : ℕ => (a : ZMod n)) ⟨trivial, ?_⟩
    (fun a b _ _ => ⟨trivial, ?_⟩) (fun a _ => ⟨trivial, ?_⟩) trivial exponent
  · rw [ZMod.natCast_mod, Nat.cast_one]
  · rw [ZMod.natCast_mod, Nat.cast_mul]
  · rw [ZMod.natCast_mod, Nat.cast_mul]

/-- Whether a number below `2 ^ 16` is prime, by trial division. -/
def isSmallPrime (n : ℕ) : Bool :=
  2 ≤ n && n < 2 ^ 16 && (List.range 256).all fun d => d < 2 || n ≤ d || n % d != 0

theorem prime_of_isSmallPrime {n : ℕ} (h : isSmallPrime n = true) : n.Prime := by
  simp only [isSmallPrime, Bool.and_eq_true, decide_eq_true_eq, List.all_eq_true, List.mem_range,
    Bool.or_eq_true, bne_iff_ne] at h
  obtain ⟨⟨htwo, hsmall⟩, htrial⟩ := h
  refine Nat.prime_def_le_sqrt.2 ⟨htwo, fun d hd hsqrt hdvd => ?_⟩
  -- A divisor up to the root was tried.
  have hd256 : d < 256 := by
    have : d * d ≤ n := Nat.le_sqrt.1 hsqrt
    nlinarith
  rcases htrial d hd256 with (hlt | hle) | hmod
  · omega
  · have := Nat.sqrt_lt_self (show 1 < n by omega)
    omega
  · exact hmod (Nat.mod_eq_zero_of_dvd hdvd)

/-- Whether a step holds, given the numbers that are known to be prime. A number
    less than `2 ^ k` has no prime more than `k` times. -/
def Step.holds (known : List ℕ) (step : Step) : Bool :=
  1 < step.number &&
    step.factors.all (fun q => known.contains q || isSmallPrime q) &&
    step.factors.prod ^ (step.number.log2 + 1) % (step.number - 1) == 0 &&
    powMod step.number step.base (step.number - 1) % step.number == 1 &&
    step.factors.all fun q =>
      powMod step.number step.base ((step.number - 1) / q) % step.number != 1

/-- Whether all steps hold, each by the numbers of those before it. -/
def holds : List ℕ → Certificate → Bool
  | _, [] => true
  | known, step :: steps => step.holds known && holds (step.number :: known) steps

theorem cast_eq_one_iff {n a : ℕ} (hn : 1 < n) : (a : ZMod n) = 1 ↔ a % n = 1 := by
  rw [← Nat.cast_one, ZMod.natCast_eq_natCast_iff', Nat.mod_eq_of_lt hn]

/-- A number is prime if a step for it holds. -/
theorem Step.prime {known : List ℕ} {step : Step} (hknown : ∀ q ∈ known, q.Prime)
    (h : step.holds known = true) : step.number.Prime := by
  simp only [Step.holds, Bool.and_eq_true, decide_eq_true_eq, List.all_eq_true, Bool.or_eq_true,
    List.contains_iff_mem, beq_iff_eq, bne_iff_ne] at h
  obtain ⟨⟨⟨⟨hone, hfactors⟩, hall⟩, hfull⟩, hpart⟩ := h
  refine lucas_primality step.number step.base ?_ fun q hq hdvd => ?_
  · rw [← cast_powMod, cast_eq_one_iff hone, hfull]
  · -- A prime that divides the number less one divides the product of the factors.
    have hprod : q ∣ step.factors.prod :=
      hq.dvd_of_dvd_pow (hdvd.trans (Nat.dvd_of_mod_eq_zero hall))
    obtain ⟨r, hr, hqr⟩ := hq.prime.dvd_prod_iff.1 hprod
    have hrprime : r.Prime := (hfactors r hr).elim (hknown r) prime_of_isSmallPrime
    obtain rfl := (Nat.prime_dvd_prime_iff_eq hq hrprime).1 hqr
    rw [← cast_powMod, Ne, cast_eq_one_iff hone]
    exact hpart q hr

/-- The numbers of a certificate that holds are prime. -/
theorem prime_of_mem {known : List ℕ} {certificate : Certificate}
    (hknown : ∀ q ∈ known, q.Prime) (h : holds known certificate = true) :
    ∀ step ∈ certificate, step.number.Prime := by
  induction certificate generalizing known with
  | nil => exact fun _ hs => absurd hs List.not_mem_nil
  | cons step steps ih =>
    rw [holds, Bool.and_eq_true] at h
    have hstep : step.number.Prime := Step.prime hknown h.1
    intro s hs
    rcases List.mem_cons.1 hs with rfl | hs
    · exact hstep
    · refine ih (fun q hq => ?_) h.2 s hs
      rcases List.mem_cons.1 hq with rfl | hq
      · exact hstep
      · exact hknown q hq

/-- The last number of a certificate that holds is prime. -/
theorem prime_of_holds (certificate : Certificate) {n : ℕ} (h : holds [] certificate = true)
    (hn : (certificate.map Step.number).getLast? = some n) : n.Prime := by
  obtain ⟨step, hs, rfl⟩ := List.mem_map.1 (List.mem_of_getLast? hn)
  exact prime_of_mem (fun _ hq => absurd hq List.not_mem_nil) h step hs

end Certificate

end PrivateMatching
