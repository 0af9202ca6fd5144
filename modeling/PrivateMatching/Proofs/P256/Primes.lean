import PrivateMatching.P256.Suite
import PrivateMatching.Proofs.Primality

/-!
# The primes of P-256

The modulus of the field and the order of the group are prime.
-/

namespace PrivateMatching

namespace P256

/-- What makes the modulus of the field prime. -/
def fieldCertificate : Certificate :=
  [⟨65537, 3, [2]⟩,
   ⟨490463, 14, [2, 7, 53, 661]⟩,
   ⟨6700417, 5, [2, 3, 17449]⟩,
   ⟨204061199, 11, [2, 11, 23, 107, 3769]⟩,
   ⟨34282281433, 17, [2, 3, 7, 204061199]⟩,
   ⟨66417393611, 6, [2, 5, 53, 173, 197, 3677]⟩,
   ⟨11290956913871, 13, [2, 5, 17, 66417393611]⟩,
   ⟨78283, 3, [2, 3, 4349]⟩,
   ⟨704251, 2, [2, 3, 5, 313]⟩,
   ⟨46076956964474543, 5, [2, 23, 18169, 78283, 704251]⟩,
   ⟨774023187263532362759620327192479577272145303, 3,
    [2, 3, 2411, 34282281433, 11290956913871, 46076956964474543]⟩,
   ⟨835945042244614951780389953367877943453916927241, 11,
    [2, 3, 5, 774023187263532362759620327192479577272145303]⟩,
   ⟨fieldPrime, 6,
    [2, 3, 5, 17, 257, 641, 1531, 65537, 490463, 6700417,
     835945042244614951780389953367877943453916927241]⟩]

/-- What makes the order of the group prime. -/
def orderCertificate : Certificate :=
  [⟨9350987, 2, [2, 17, 229, 1201]⟩,
   ⟨187019741, 2, [2, 5, 9350987]⟩,
   ⟨311245691, 2, [2, 5, 7, 17, 29, 311]⟩,
   ⟨622491383, 5, [2, 311245691]⟩,
   ⟨126241, 7, [2, 3, 5, 263]⟩,
   ⟨104471, 11, [2, 5, 31, 337]⟩,
   ⟨3969899, 2, [2, 19, 104471]⟩,
   ⟨1002328039319, 19, [2, 126241, 3969899]⟩,
   ⟨155317, 5, [2, 3, 7, 43]⟩,
   ⟨191039911, 3, [2, 3, 5, 41, 155317]⟩,
   ⟨208150935158385979, 2, [2, 3, 11, 43, 127, 3023, 191039911]⟩,
   ⟨2624747550333869278416773953, 7, [2, 3, 1297, 16879, 208150935158385979]⟩,
   ⟨order, 7,
    [2, 3, 71, 131, 373, 3407, 17449, 38189, 187019741, 622491383, 1002328039319,
     2624747550333869278416773953]⟩]

theorem prime_fieldPrime : fieldPrime.Prime :=
  Certificate.prime_of_holds fieldCertificate (by decide +kernel) rfl

theorem prime_order : order.Prime :=
  Certificate.prime_of_holds orderCertificate (by decide +kernel) rfl

instance : Fact fieldPrime.Prime := ⟨prime_fieldPrime⟩

instance : Fact (2 < fieldPrime) := ⟨by decide⟩

instance : Fact suite.order.Prime := ⟨prime_order⟩

instance : Fact (2 < suite.order) := ⟨by decide⟩

end P256

end PrivateMatching
