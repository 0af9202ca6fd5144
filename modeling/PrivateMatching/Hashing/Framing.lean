import PrivateMatching.Bytes

/-!
# Framed streams

Several byte strings are hashed as one stream. Every string is framed: its
length goes before it as eight bytes, most significant first, so that the stream
tells where each string ends. Domain separation tags come before the inputs.
-/

namespace PrivateMatching

namespace Framing

/-- A byte string with its length before it. -/
def frame (bytes : Bytes) : Bytes := Bytes.ofNatBE 8 bytes.length ++ bytes

/-- The stream that is hashed for some inputs under some tags. -/
def stream (inputs tags : List Bytes) : Bytes := (tags ++ inputs).flatMap frame

theorem stream_eq_append (inputs tags : List Bytes) :
    stream inputs tags = tags.flatMap frame ++ inputs.flatMap frame := by
  simp [stream]

end Framing

end PrivateMatching
