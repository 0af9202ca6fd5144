import Mathlib.Data.Option.NAry
import PrivateMatching.Proofs.Context

/-!
# Calculating with elements is calculating with exponents

A term is a calculation in a suite: with scalars (`ScalarTerm`), or with elements
and, in the exponents, scalars (`ElementTerm`). It has no result if it inverts
zero. Beside what a term comes to in the suite (`eval`) stands what it means
modulo the order: the value of a scalar (`ScalarTerm.value`), and the exponent of
an element to the base of the generator (`ElementTerm.exponent`), in which
products are sums and powers are products.

In a group of prime order the two agree, by induction on the term: the scalars of
a term are its value (`ScalarTerm.map_eval`), and its element is the generator to
its exponent (`ElementTerm.rel_exponent`). So terms give equal elements if and
only if their exponents are equal (`Context.calculation_exact`).
-/

namespace PrivateMatching

open PrivateMatching.Modular

/-! ## Scalars -/

/-- A calculation with scalars. -/
inductive ScalarTerm where
  /-- The scalar zero. -/
  | zero
  /-- The scalar one. -/
  | one
  /-- The scalar of a number. -/
  | number (n : ℕ)
  /-- A sum. -/
  | add (s t : ScalarTerm)
  /-- A product. -/
  | mul (s t : ScalarTerm)
  /-- An inverse. -/
  | inv (s : ScalarTerm)

namespace ScalarTerm

/-- What a calculation comes to in a suite, unless it inverts zero. -/
def eval (C : Suite) : ScalarTerm → Option (Scalar C.order)
  | zero => some C.scalars.zero
  | one => some C.scalars.one
  | number n => some (C.scalars.ofNat n)
  | add s t => Option.map₂ (· + ·) (s.eval C) (t.eval C)
  | mul s t => Option.map₂ (· * ·) (s.eval C) (t.eval C)
  | inv s => (s.eval C).bind Scalar.inv?

/-- The value of a calculation modulo a number, unless it inverts zero. -/
def value (n : ℕ) : ScalarTerm → Option (ZMod n)
  | zero => some 0
  | one => some 1
  | number k => some k
  | add s t => Option.map₂ (· + ·) (s.value n) (t.value n)
  | mul s t => Option.map₂ (· * ·) (s.value n) (t.value n)
  | inv s => (s.value n).bind fun a => if a = 0 then none else some a⁻¹

end ScalarTerm

/-- The inverse of a scalar is that modulo the order, and zero has none. -/
theorem Scalar.map_inv? {n : ℕ} [Fact n.Prime] [Fact (2 < n)] (a : Scalar n) :
    a.inv?.map toZMod = if toZMod a = 0 then none else some (toZMod a)⁻¹ := by
  have hzero : a.val = 0 ↔ toZMod a = 0 := by rw [← val_toZMod, ZMod.val_eq_zero]
  rw [Scalar.inv?]
  split
  · rename_i h
    rw [if_pos (hzero.1 h), Option.map_none]
  · rename_i h
    rw [if_neg (mt hzero.2 h), Option.map_some, toZMod_inv]

section Scalars

variable {C : Suite}

theorem ScalarFormat.toZMod_zero : toZMod C.scalars.zero = 0 := Nat.cast_zero

theorem ScalarFormat.toZMod_one : toZMod C.scalars.one = 1 := Nat.cast_one

theorem ScalarFormat.toZMod_ofNat (n : ℕ) : toZMod (C.scalars.ofNat n) = n :=
  ZMod.natCast_mod n C.order

/-- A calculation with scalars comes to its value modulo the order. -/
theorem ScalarTerm.map_eval [Fact C.order.Prime] [Fact (2 < C.order)] (s : ScalarTerm) :
    (s.eval C).map toZMod = s.value C.order := by
  induction s with
  | zero => rw [eval, value, Option.map_some, ScalarFormat.toZMod_zero]
  | one => rw [eval, value, Option.map_some, ScalarFormat.toZMod_one]
  | number n => rw [eval, value, Option.map_some, ScalarFormat.toZMod_ofNat]
  | add s t hs ht => rw [eval, value, Option.map_map₂_distrib toZMod_add, hs, ht]
  | mul s t hs ht => rw [eval, value, Option.map_map₂_distrib toZMod_mul, hs, ht]
  | inv s hs =>
    rw [eval, value, ← hs]
    cases s.eval C with
    | none => rfl
    | some a => exact a.map_inv?

end Scalars

/-! ## Elements -/

/-- A calculation with elements. -/
inductive ElementTerm where
  /-- The identity. -/
  | one
  /-- The generator. -/
  | generator
  /-- A product. -/
  | mul (x y : ElementTerm)
  /-- A power. -/
  | exp (x : ElementTerm) (s : ScalarTerm)
  /-- A power of the generator. -/
  | generatorExp (s : ScalarTerm)

namespace ElementTerm

/-- What a calculation comes to in a suite, unless it inverts zero. -/
def eval (C : Suite) : ElementTerm → Option C.Element
  | one => some C.one
  | generator => some C.generator
  | mul x y => Option.map₂ C.mul (x.eval C) (y.eval C)
  | exp x s => Option.map₂ C.exp (x.eval C) (s.eval C)
  | generatorExp s => (s.eval C).map C.generatorExp

/-- The exponent of a calculation to the base of the generator, modulo a number,
    unless it inverts zero. -/
def exponent (n : ℕ) : ElementTerm → Option (ZMod n)
  | one => some 0
  | generator => some 1
  | mul x y => Option.map₂ (· + ·) (x.exponent n) (y.exponent n)
  | exp x s => Option.map₂ (· * ·) (x.exponent n) (s.value n)
  | generatorExp s => s.value n

end ElementTerm

namespace Suite

/-- The product of `n` copies of an element. -/
def repeated (C : Suite) (x : C.Element) : (n : ℕ) → C.Element
  | 0 => C.one
  | n + 1 => C.mul (C.repeated x n) x

namespace Reading

variable {C : Suite} {G : Type*} [CommGroup G] (R : C.Reading G)

/-- Repeated products are the powers of the group. -/
theorem repeated {x : C.Element} (hx : R.Sound x) (n : ℕ) :
    R.Sound (C.repeated x n) ∧ R.value (C.repeated x n) = R.value x ^ n := by
  induction n with
  | zero => exact ⟨R.sound_one, by rw [Suite.repeated, R.value_one, pow_zero]⟩
  | succ n ih =>
    refine ⟨R.sound_mul ih.1 hx, ?_⟩
    rw [Suite.repeated, R.value_mul ih.1 hx, ih.2, pow_succ]

/-- An element is the generator to an exponent modulo the order. -/
structure IsPower (x : C.Element) (d : ZMod C.order) : Prop where
  sound : R.Sound x
  value_eq : R.value x = R.value C.generator ^ d.val

namespace IsPower

variable {R} {x y : C.Element} {d e : ZMod C.order}

theorem one : R.IsPower C.one 0 :=
  ⟨R.sound_one, by rw [R.value_one, ZMod.val_zero, pow_zero]⟩

theorem generator [Fact (1 < C.order)] : R.IsPower C.generator 1 :=
  ⟨R.sound_generator, by rw [ZMod.val_one, pow_one]⟩

/-- Exponents are multiplied in powers. -/
theorem exp (hx : R.IsPower x d) (s : Scalar C.order) : R.IsPower (C.exp x s) (d * toZMod s) := by
  refine ⟨R.sound_exp hx.sound s, ?_⟩
  rw [R.value_exp hx.sound, hx.value_eq, ← val_toZMod s,
    pow_val_mul (R.value_pow_order R.sound_generator)]

variable [Fact C.order.Prime]

/-- Exponents are added in products. -/
theorem mul (hx : R.IsPower x d) (hy : R.IsPower y e) : R.IsPower (C.mul x y) (d + e) := by
  refine ⟨R.sound_mul hx.sound hy.sound, ?_⟩
  rw [R.value_mul hx.sound hy.sound, hx.value_eq, hy.value_eq, ← pow_add]
  refine R.pow_congr R.sound_generator ?_
  rw [Nat.cast_add, ZMod.natCast_zmod_val, ZMod.natCast_zmod_val, ZMod.natCast_zmod_val]

/-- Powers of the generator are equal if and only if their exponents are. -/
theorem equal_iff (hne : R.value C.generator ≠ 1) (hx : R.IsPower x d) (hy : R.IsPower y e) :
    C.equal x y = true ↔ d = e := by
  rw [R.equal_iff hx.sound hy.sound, hx.value_eq, hy.value_eq,
    R.pow_eq_pow_iff R.sound_generator hne, ZMod.natCast_zmod_val, ZMod.natCast_zmod_val]

/-- A power of the generator is the repeated product with that exponent. -/
theorem repeated_generator (n : ℕ) : R.IsPower (C.repeated C.generator n) n := by
  obtain ⟨hsound, hvalue⟩ := R.repeated R.sound_generator n
  refine ⟨hsound, hvalue.trans (R.pow_congr R.sound_generator ?_)⟩
  rw [ZMod.natCast_zmod_val]

end IsPower

end Reading

end Suite

/-! ## The simulation -/

/-- Operations that keep to relations keep to them where a value may be missing. -/
theorem rel_map₂ {α α' β β' γ γ' : Type*} {r : α → α' → Prop} {s : β → β' → Prop}
    {t : γ → γ' → Prop} {f : α → β → γ} {g : α' → β' → γ'}
    (hfg : ∀ a a' b b', r a a' → s b b' → t (f a b) (g a' b')) {a : Option α} {a' : Option α'}
    {b : Option β} {b' : Option β'} (ha : Option.Rel r a a') (hb : Option.Rel s b b') :
    Option.Rel t (Option.map₂ f a b) (Option.map₂ g a' b') := by
  rcases ha with ha | _
  · rcases hb with hb | _
    · exact .some (hfg _ _ _ _ ha hb)
    · exact .none
  · rw [Option.map₂_none_left, Option.map₂_none_left]
    exact .none

section Simulation

variable {C : Suite} [Fact C.order.Prime] [Fact (2 < C.order)]

theorem ScalarTerm.rel_value (s : ScalarTerm) :
    Option.Rel (fun a e => toZMod a = e) (s.eval C) (s.value C.order) := by
  rw [← s.map_eval]
  cases s.eval C with
  | none => exact .none
  | some a => exact .some rfl

/-- A calculation with elements comes to the generator to its exponent. -/
theorem ElementTerm.rel_exponent {G : Type*} [CommGroup G] (R : C.Reading G) (x : ElementTerm) :
    Option.Rel R.IsPower (x.eval C) (x.exponent C.order) := by
  have : Fact (1 < C.order) := ⟨Nat.lt_of_succ_lt Fact.out⟩
  induction x with
  | one => exact .some .one
  | generator => exact .some .generator
  | mul x y hx hy => exact rel_map₂ (fun _ _ _ _ => .mul) hx hy
  | exp x s hx =>
    refine rel_map₂ (fun _ _ a _ hx ha => ?_) hx s.rel_value
    exact ha ▸ hx.exp a
  | generatorExp s =>
    rw [eval, exponent, ← s.map_eval]
    cases s.eval C with
    | none => exact .none
    | some a => exact .some (one_mul (toZMod a) ▸ Suite.Reading.IsPower.generator.exp a)

/-- What a calculation comes to is the generator to its exponent, which it has. -/
theorem ElementTerm.isPower_of_eval {G : Type*} [CommGroup G] (R : C.Reading G) {x : ElementTerm}
    {y : C.Element} (h : x.eval C = some y) :
    ∃ d, x.exponent C.order = some d ∧ R.IsPower y d := by
  have hrel := x.rel_exponent R
  rw [h] at hrel
  generalize x.exponent C.order = d at hrel
  cases hrel with
  | some hpower => exact ⟨_, rfl, hpower⟩

end Simulation

/-- The generator of a context is not the identity. -/
theorem Context.isIdentity_generator (c : Context) :
    c.suite.isIdentity c.suite.generator = false := by
  cases c <;> decide +kernel

/-- Calculating with elements is calculating with exponents: scalars come to their
    values modulo the order, and elements to the repeated products of the generator
    whose number is their exponent; they are equal if and only if their exponents
    are. -/
theorem Context.calculation_exact (c : Context) :
    (∀ s : ScalarTerm, (s.eval c.suite).map toZMod = s.value c.suite.order) ∧
    (∀ x : ElementTerm, Option.Rel
      (fun y d => ∀ n : ℕ, c.suite.equal y (c.suite.repeated c.suite.generator n) = true ↔
        (n : ZMod c.suite.order) = d)
      (x.eval c.suite) (x.exponent c.suite.order)) ∧
    ∀ (x x' : ElementTerm) (y y' : c.suite.Element),
      x.eval c.suite = some y → x'.eval c.suite = some y' →
      (c.suite.equal y y' = true ↔ x.exponent c.suite.order = x'.exponent c.suite.order) := by
  have := Fact.mk c.isLawful.prime_order
  have := Fact.mk c.isLawful.two_lt_order
  obtain ⟨G, _, R, _⟩ := c.isLawful.exists_reading
  have hne : R.value c.suite.generator ≠ 1 := by
    rw [Ne, ← R.isIdentity_iff R.sound_generator, c.isIdentity_generator]
    exact Bool.false_ne_true
  refine ⟨ScalarTerm.map_eval, fun x => ?_, fun x x' y y' hx hx' => ?_⟩
  · have hrel := x.rel_exponent R
    generalize x.eval c.suite = y, x.exponent c.suite.order = d at hrel ⊢
    cases hrel with
    | none => exact .none
    | some hpower =>
      refine .some fun n => ?_
      rw [hpower.equal_iff hne (.repeated_generator n), eq_comm]
  · obtain ⟨d, hd, hy⟩ := x.isPower_of_eval R hx
    obtain ⟨d', hd', hy'⟩ := x'.isPower_of_eval R hx'
    rw [hy.equal_iff hne hy', hd, hd', Option.some.injEq]

/-- Two roots of the generator are worked out and multiplied. -/
theorem Context.calculation_exact_root :
    ∃ y, (ElementTerm.mul (.generatorExp (.inv (.number 2)))
        (.exp .generator (.inv (.number 2)))).eval toy.suite = some y ∧
      toy.suite.equal y toy.suite.generator = true := by
  have hroots : (ElementTerm.mul (.generatorExp (.inv (.number 2)))
      (.exp .generator (.inv (.number 2)))).eval toy.suite = some ⟨4⟩ := by rfl
  refine ⟨_, hroots, ((calculation_exact toy).2.2 _ .generator _ _ hroots rfl).2 ?_⟩
  decide +kernel

end PrivateMatching
