import PrivateMatching.Proofs.Exponent

/-!
# Exponents of the toy suite in machine words

The exponents of the toy suite are below 1019, so a 32-bit word holds one (`word`), and the
words below 1019 stand for one exponent each (`word_injective`, `exists_word_iff`). The
arithmetic of exponents can be done on the words: a sum of two is far below 2 ^ 32, a product
of two is taken in 64 bits, and an inverse is the power by the order less two, which `modPow`
works out modulo the order.

* Each of these operations gives the word of what the suite gives (`addWords_word`,
  `mulWords_word`, `invWord?_word`), so nothing is lost to overflow.
* Hence a whole calculation on words comes to the word of what it comes to in the suite, or
  to nothing in both, if it inverts zero (`ScalarTerm.evalWord_eq`).
* What is drawn is the word of a block modulo the order (`ofBlock_eq_mod`), and what is
  written are the low 16 bits of a word (`encode_eq_word`).
-/

namespace PrivateMatching

namespace QuadraticResidue

/-- The order as a word. -/
def orderWord : UInt32 := 1019

/-- The word that holds an exponent. -/
def word (a : Scalar order) : UInt32 := UInt32.ofNat a.val

theorem toNat_word (a : Scalar order) : (word a).toNat = a.val :=
  UInt32.toNat_ofNat_of_lt' (a.isLt.trans (by decide))

/-- Words are told apart as exponents are. -/
theorem word_injective : Function.Injective word := fun a b h =>
  Fin.ext (by rw [← toNat_word a, ← toNat_word b, h])

/-- The words of exponents are those below the order. -/
theorem exists_word_iff {w : UInt32} : (∃ a, word a = w) ↔ w < orderWord := by
  rw [UInt32.lt_iff_toNat_lt]
  constructor
  · rintro ⟨a, rfl⟩
    rw [toNat_word]
    exact a.isLt
  · intro h
    exact ⟨⟨w.toNat, h⟩, UInt32.ofNat_toNat⟩

theorem word_eq_zero_iff {a : Scalar order} : word a = 0 ↔ a.val = 0 := by
  rw [← UInt32.toNat_inj, toNat_word, UInt32.toNat_zero]

/-! ## Operations -/

/-- The sum of two exponents, in words. -/
def addWords (a b : UInt32) : UInt32 := (a + b) % orderWord

/-- The product of two exponents, in words. -/
def mulWords (a b : UInt32) : UInt32 :=
  (a.toUInt64 * b.toUInt64 % orderWord.toUInt64).toUInt32

/-- The inverse of an exponent, in words; zero has none. -/
def invWord? (a : UInt32) : Option UInt32 :=
  if a = 0 then none else some (modPow a (orderWord - 2) orderWord)

/-- A sum of exponents does not reach 2 ^ 32. -/
theorem addWords_word (a b : Scalar order) : addWords (word a) (word b) = word (a + b) := by
  have hsum : a.val + b.val < 2 ^ 32 :=
    calc a.val + b.val < 1019 + 1019 := Nat.add_lt_add a.isLt b.isLt
      _ < 2 ^ 32 := by norm_num
  refine UInt32.toNat_inj.1 ?_
  rw [addWords, UInt32.toNat_mod, UInt32.toNat_add, toNat_word, toNat_word, toNat_word,
    Nat.mod_eq_of_lt hsum, Fin.val_add]
  rfl

/-- A product of exponents is taken in 64 bits. -/
theorem mulWords_word (a b : Scalar order) : mulWords (word a) (word b) = word (a * b) := by
  refine UInt32.toNat_inj.1 ?_
  rw [mulWords, toNat_mul_mod_toUInt32 _ _ (by decide), toNat_word, toNat_word, toNat_word,
    Fin.val_mul]
  rfl

/-- The inverse is the power by the order less two. -/
theorem invWord?_word (a : Scalar order) : invWord? (word a) = a.inv?.map word := by
  rw [invWord?, Scalar.inv?]
  by_cases h : a.val = 0
  · rw [if_pos h, if_pos (word_eq_zero_iff.2 h), Option.map_none]
  · rw [if_neg h, if_neg (mt word_eq_zero_iff.1 h), Option.map_some, Option.some.injEq]
    refine UInt32.toNat_inj.1 ?_
    rw [toNat_modPow _ _ (by decide), toNat_word, toNat_word, Modular.inv, Modular.val_pow]
    rfl

/-- A word that is drawn is reduced modulo the order. -/
theorem ofBlock_eq_mod {block : Bytes} (h : block.length = scalarSampler.width) :
    (scalarSampler.ofBlock block).map word =
      some (UInt32.ofNat (Bytes.toNatLE block) % orderWord) := by
  have hlt : Bytes.toNatLE block < 2 ^ 32 := by
    have hblock := Bytes.toNatLE_lt block
    rwa [h] at hblock
  refine congrArg some (UInt32.toNat_inj.1 ((toNat_word _).trans ?_))
  rw [UInt32.toNat_mod, UInt32.toNat_ofNat_of_lt' hlt]
  rfl

/-- The low 16 bits of a word are all of it. -/
theorem encode_eq_word (a : Scalar order) :
    scalars.encode a = Bytes.ofNatBE 2 (word a).toUInt16.toNat := by
  have hlt : a.val < 2 ^ 16 := a.isLt.trans (by decide)
  rw [UInt32.toNat_toUInt16, toNat_word, Nat.mod_eq_of_lt hlt]
  rfl

end QuadraticResidue

open QuadraticResidue

/-! ## Calculations -/

/-- What a calculation with exponents of the toy suite comes to on words, unless it inverts
    zero. -/
def ScalarTerm.evalWord : ScalarTerm → Option UInt32
  | zero => some 0
  | one => some 1
  | number n => some (UInt32.ofNat (n % order))
  | add s t => Option.map₂ addWords s.evalWord t.evalWord
  | mul s t => Option.map₂ mulWords s.evalWord t.evalWord
  | inv s => s.evalWord.bind invWord?

/-- A calculation on words comes to the word of what it comes to in the toy suite. -/
theorem ScalarTerm.evalWord_eq (s : ScalarTerm) :
    s.evalWord = (s.eval QuadraticResidue.suite).map word := by
  induction s with
  | zero => rfl
  | one => rfl
  | number n => rfl
  | add s t hs ht =>
    rw [evalWord, eval, hs, ht]
    exact (Option.map_map₂_distrib fun a b => (addWords_word a b).symm).symm
  | mul s t hs ht =>
    rw [evalWord, eval, hs, ht]
    exact (Option.map_map₂_distrib fun a b => (mulWords_word a b).symm).symm
  | inv s hs =>
    rw [evalWord, eval, hs]
    cases s.eval QuadraticResidue.suite with
    | none => rfl
    | some a => exact invWord?_word a

end PrivateMatching
