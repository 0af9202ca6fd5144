import PrivateMatching.Proofs.Primality
import PrivateMatching.Ristretto.Suite

/-!
# The primes of ristretto255

The modulus of the field and the order of the group are prime.
-/

namespace PrivateMatching

namespace Ristretto

/-- What makes the modulus of the field prime. -/
def fieldCertificate : Certificate :=
  [⟨132049, 26, [2, 3, 7, 131]⟩,
   ⟨1923133, 2, [2, 3, 43, 3727]⟩,
   ⟨430751, 17, [2, 5, 1723]⟩,
   ⟨31757755568855353, 10, [2, 3, 31, 107, 223, 4153, 430751]⟩,
   ⟨75707, 2, [2, 37853]⟩,
   ⟨569003, 2, [2, 7, 97, 419]⟩,
   ⟨2773320623, 5, [2, 2437, 569003]⟩,
   ⟨72106336199, 7, [2, 13, 2773320623]⟩,
   ⟨8574133, 2, [2, 3, 7, 103, 991]⟩,
   ⟨1919519569386763, 2, [2, 3, 7, 19, 47, 127, 8574133]⟩,
   ⟨75445702479781427272750846543864801, 7, [2, 3, 5, 75707, 72106336199, 1919519569386763]⟩,
   ⟨74058212732561358302231226437062788676166966415465897661863160754340907, 2,
    [2, 3, 353, 57467, 132049, 1923133, 31757755568855353, 75445702479781427272750846543864801]⟩,
   ⟨fieldPrime, 2,
    [2, 3, 65147, 74058212732561358302231226437062788676166966415465897661863160754340907]⟩]

/-- What makes the order of the group prime. -/
def orderCertificate : Certificate :=
  [⟨409477, 2, [2, 3, 34123]⟩,
   ⟨14741173, 2, [2, 3, 409477]⟩,
   ⟨58964693, 2, [2, 14741173]⟩,
   ⟨82163, 2, [2, 41081]⟩,
   ⟨132667, 5, [2, 3, 22111]⟩,
   ⟨137849, 3, [2, 17231]⟩,
   ⟨3044861653679985063343, 5, [2, 3, 11, 30703, 82163, 132667, 137849]⟩,
   ⟨198211423230930754013084525763697, 5, [2, 3, 23, 58964693, 3044861653679985063343]⟩,
   ⟨292386187, 2, [2, 3, 307, 5879]⟩,
   ⟨213441916511, 13, [2, 5, 73, 292386187]⟩,
   ⟨1224481, 13, [2, 3, 5, 2551]⟩,
   ⟨531581, 2, [2, 5, 7, 3797]⟩,
   ⟨1257559732178653, 2, [2, 3, 7, 23, 1224481, 531581]⟩,
   ⟨4434155615661930479, 17, [2, 41, 43, 1257559732178653]⟩,
   ⟨172054593956031949258510691, 2, [2, 5, 1361, 2851, 4434155615661930479]⟩,
   ⟨19757330305831588566944191468367130476339, 2,
    [2, 269, 213441916511, 172054593956031949258510691]⟩,
   ⟨276602624281642239937218680557139826668747, 2,
    [2, 7, 19757330305831588566944191468367130476339]⟩,
   ⟨order, 2,
    [2, 3, 11, 198211423230930754013084525763697, 276602624281642239937218680557139826668747]⟩]

theorem prime_fieldPrime : fieldPrime.Prime :=
  Certificate.prime_of_holds fieldCertificate (by decide +kernel) rfl

theorem prime_order : order.Prime :=
  Certificate.prime_of_holds orderCertificate (by decide +kernel) rfl

instance : Fact fieldPrime.Prime := ⟨prime_fieldPrime⟩

instance : Fact (2 < fieldPrime) := ⟨by decide⟩

instance : Fact suite.order.Prime := ⟨prime_order⟩

instance : Fact (2 < suite.order) := ⟨by decide⟩

end Ristretto

end PrivateMatching
