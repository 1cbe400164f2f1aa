import AFSv1.Foundations.IStream

/-! The cache name of a path: the 64 lowercase hex digits of its SHA-256. -/
namespace AFSv1.Tables
open Foundations

/-- The digest function of the OpenSSL library, 32 bytes for every input. -/
abbrev Sha256 := Bytes → Fin 32 → UInt8

def hexDigit (n : ℕ) : UInt8 := UInt8.ofNat (if n < 10 then 48 + n else 87 + n)

/-- `setw(2) << setfill('0') << hex` of one digest byte. -/
def hexByte (b : UInt8) : Bytes := [hexDigit (b.toNat / 16), hexDigit (b.toNat % 16)]

def hashpath (sha256 : Sha256) (rel_path : Bytes) : Bytes :=
  (List.ofFn (sha256 rel_path.cString)).flatMap hexByte

/-- What every file name written to the tables' files looks like. -/
def IsHash (k : Bytes) : Prop := k.length = 64 ∧ newline ∉ k

lemma hexDigit_ne_newline (n : ℕ) (h : n < 16) : hexDigit n ≠ newline := by
  interval_cases n <;> decide

lemma newline_notMem_hexByte (b : UInt8) : newline ∉ hexByte b := by
  have h1 := hexDigit_ne_newline (b.toNat / 16) (by have := b.toNat_lt; omega)
  have h2 := hexDigit_ne_newline (b.toNat % 16) (Nat.mod_lt _ (by decide))
  simp [hexByte, h1.symm, h2.symm]

theorem hashpath_isHash (sha256 : Sha256) (rel_path : Bytes) : IsHash (hashpath sha256 rel_path) := by
  constructor
  · rw [hashpath, List.length_flatMap]
    simp [hexByte]
  · intro h
    obtain ⟨b, -, hb⟩ := List.mem_flatMap.mp h
    exact newline_notMem_hexByte b hb

end AFSv1.Tables
