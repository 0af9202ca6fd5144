import PrivateMatching.P256.Suite
import PrivateMatching.QuadraticResidue.Suite
import PrivateMatching.Ristretto.Suite

/-!
# Contexts

The parties of a match agree on a context, which fixes their suite.
-/

namespace PrivateMatching

/-- What parties can agree on. -/
inductive Context where
  /-- P-256, a curve of prime order. -/
  | p256
  /-- ristretto255, a group of prime order made from a curve. -/
  | ristretto255
  /-- Quadratic residues modulo a small prime, for working by hand. -/
  | toy
  deriving DecidableEq

/-- The suite of a context. -/
def Context.suite : Context → Suite
  | p256 => P256.suite
  | ristretto255 => Ristretto.suite
  | toy => QuadraticResidue.suite

end PrivateMatching
