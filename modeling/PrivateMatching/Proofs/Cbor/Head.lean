import PrivateMatching.Proofs.Bytes
import PrivateMatching.Proofs.Cbor.Reader

/-!
# Heads are read as they are written

The first byte of a head holds its major type and five bits of information, and
each is read back (`Major.ofByte_firstByte`, `Head.info_firstByte`). So an argument
is read back from all five forms that it may be written in (`Head.Written`); the
shortest one is among them (`Head.written_encode`). From a head that breaks off
nothing is read (`Head.extends_parse`).
-/

namespace PrivateMatching

namespace Cbor

/-! ## The first byte -/

/-- The five bits of information of a first byte are beside the major type. -/
theorem Major.ofByte_firstByte (major : Major) {info : ℕ} (h : info < 32) :
    Major.ofByte (Head.firstByte major (UInt8.ofNat info)) = major := by
  revert info
  cases major <;> decide

namespace Head

theorem info_firstByte (major : Major) {info : ℕ} (h : info < 32) :
    (firstByte major (UInt8.ofNat info) &&& 0x1f).toNat = info := by
  revert info
  cases major <;> decide

variable {major : Major} {info width argument : ℕ}

theorem info_le_of_widthOfInfo (h : widthOfInfo info = some width) : info ≤ 27 := by
  simp only [widthOfInfo] at h
  split_ifs at h <;> omega

/-! ## Reading -/

/-- An argument that is in the first byte is read. -/
theorem reads_parse_of_info (major : Major) (h : info < 24) :
    Reads parse [firstByte major (UInt8.ofNat info)] (.sized major 0 info) := by
  intro rest
  have hinfo : info < 32 := by omega
  have hne : info ≠ 31 := by omega
  rw [List.singleton_append, parse]
  simp only [Major.ofByte_firstByte major hinfo, info_firstByte major hinfo, if_neg hne,
    widthOfInfo, if_pos h]

/-- An argument that is behind the first byte is read. -/
theorem reads_parse_of_width (major : Major) (hwidth : widthOfInfo info = some (width + 1))
    (h : argument < 256 ^ (width + 1)) :
    Reads parse (firstByte major (UInt8.ofNat info) :: Bytes.ofNatBE (width + 1) argument)
      (.sized major (width + 1) argument) := by
  intro rest
  have hle := info_le_of_widthOfInfo hwidth
  have hinfo : info < 32 := by omega
  have hne : info ≠ 31 := by omega
  have hvalue : Bytes.toNatBE (Bytes.ofNatBE (width + 1) argument) = argument :=
    Bytes.toNat_ofNat .big h
  have hsplit : Bytes.splitAt? (width + 1) (Bytes.ofNatBE (width + 1) argument ++ rest) =
      some (Bytes.ofNatBE (width + 1) argument, rest) :=
    splitAt?_eq_some_iff.2 ⟨Bytes.length_ofNatBE _ _, rfl⟩
  rw [List.cons_append, parse]
  simp only [Major.ofByte_firstByte major hinfo, info_firstByte major hinfo, if_neg hne, hwidth,
    hsplit, Option.map_some, hvalue]

/-- The head of parts that go on up to a stop is read, and so is the stop. -/
theorem reads_parse_of_ofMajor? {head : Head} (h : ofMajor? major = some head) :
    Reads parse [firstByte major 31] head := by
  intro rest
  have hmajor : Major.ofByte (firstByte major 31) = major :=
    Major.ofByte_firstByte major (show 31 < 32 by decide)
  have hinfo : (firstByte major 31 &&& 0x1f).toNat = 31 :=
    info_firstByte major (show 31 < 32 by decide)
  rw [List.singleton_append, parse]
  simp only [hmajor, hinfo, if_true, h, Option.map_some]

/-- The bound of the arguments that a head can hold. -/
def bound : ℕ := 2 ^ 64

/-- A head with an argument is written in any of its five forms. -/
inductive Written (major : Major) : (argument : ℕ) → Bytes → Prop
  /-- A small argument is in the first byte. -/
  | inside {argument : ℕ} (h : argument < 24) :
    Written major argument [firstByte major (UInt8.ofNat argument)]
  /-- Any other is behind the first byte, in a width that it fits. -/
  | behind {info width argument : ℕ} (hwidth : widthOfInfo info = some (width + 1))
    (h : argument < 256 ^ (width + 1)) :
    Written major argument
      (firstByte major (UInt8.ofNat info) :: Bytes.ofNatBE (width + 1) argument)

/-- A head is read in any of its forms. -/
theorem Written.exists_reads_parse {bytes : Bytes} (h : Written major argument bytes) :
    ∃ width, Reads parse bytes (.sized major width argument) := by
  cases h with
  | inside h => exact ⟨0, reads_parse_of_info major h⟩
  | behind hwidth h => exact ⟨_, reads_parse_of_width major hwidth h⟩

/-- A head is at least one byte. -/
theorem Written.length_pos {bytes : Bytes} (h : Written major argument bytes) :
    0 < bytes.length := by
  cases h <;> exact Nat.succ_pos _

/-- The shortest head is one of the forms. -/
theorem written_encode (major : Major) (h : argument < bound) :
    Written major argument (encode major argument) := by
  unfold encode
  split_ifs with h0 h1 h2 h4
  · exact .inside h0
  · exact .behind (show widthOfInfo 24 = some 1 from rfl) h1
  · exact .behind (show widthOfInfo 25 = some 2 from rfl) h2
  · exact .behind (show widthOfInfo 26 = some 4 from rfl) h4
  · exact .behind (show widthOfInfo 27 = some 8 from rfl) h

/-- Nothing behind a head is looked at. -/
theorem extends_parse : Extends parse parse := by
  intro input head rest h more
  rcases input with _ | ⟨first, input⟩
  · cases h
  rw [List.cons_append]
  rw [parse] at h ⊢
  by_cases hinfo : (first &&& 0x1f).toNat = 31
  · simp only [if_pos hinfo] at h ⊢
    exact extends_give (ofMajor? (Major.ofByte first)) h more
  · simp only [if_neg hinfo] at h ⊢
    rcases hwidth : widthOfInfo (first &&& 0x1f).toNat with _ | _ | width
    · simp only [hwidth] at h
      cases h
    · simp only [hwidth] at h ⊢
      cases h
      rfl
    · simp only [hwidth] at h ⊢
      exact (extends_splitAt? (width + 1)).map
        (fun bytes => sized (Major.ofByte first) (width + 1) (Bytes.toNatBE bytes)) h more

end Head

end Cbor

end PrivateMatching
