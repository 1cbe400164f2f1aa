import Mathlib.Data.List.Basic
import Mathlib.Tactic

/-! Byte strings as file contents: positioned writes, truncation, and the split of a
content into the blocks a fixed-size read loop sees. -/
namespace AFSv1.Foundations

abbrev Bytes := List UInt8

namespace Bytes

/-- The bytes of an ASCII literal. -/
def ascii (s : String) : Bytes := s.toList.map fun c => UInt8.ofNat c.toNat

/-- The bytes up to the terminating zero, as `strlen` sees them. -/
def cString (s : Bytes) : Bytes := s.takeWhile (· ≠ 0)

/-- Content after `ftruncate`: cut, or padded with zero bytes. -/
def resize (file : Bytes) (n : ℕ) : Bytes := file.take n ++ List.replicate (n - file.length) 0

@[simp] theorem resize_length (file : Bytes) (n : ℕ) : (resize file n).length = n := by
  simp only [resize, List.length_append, List.length_take, List.length_replicate]
  omega

@[simp] theorem resize_self (file : Bytes) : resize file file.length = file := by simp [resize]

/-- Content after `pwrite`: nothing for an empty buffer, else the hole before the offset is
filled with zero bytes. -/
def overlay (file : Bytes) (off : ℕ) (data : Bytes) : Bytes :=
  if data = [] then file else
    (if file.length < off then resize file off else file.take off) ++ data ++ file.drop (off + data.length)

@[simp] theorem overlay_nil (file : Bytes) (off : ℕ) : overlay file off [] = file := by simp [overlay]

theorem overlay_length (file : Bytes) (off : ℕ) (data : Bytes) (h : data ≠ []) :
    (overlay file off data).length = max file.length (off + data.length) := by
  simp only [overlay, if_neg h]
  split_ifs with hoff
  · simp only [List.length_append, resize_length, List.length_drop]
    omega
  · simp only [List.length_append, List.length_take, List.length_drop]
    omega

/-- A write at the end of the file. -/
theorem overlay_append (file b : Bytes) : file.overlay file.length b = file ++ b := by
  unfold overlay
  split_ifs with hb h
  · simp [hb]
  · omega
  · simp

/-- Blocks delivered by a loop of `n`-byte reads: full blocks, then the short read that ends
the loop. The fuel is the length, since every full block consumes a byte. -/
def blocksAux (n : ℕ) : ℕ → Bytes → List Bytes
  | 0, data => [data]
  | fuel+1, data => if data.length < n then [data] else data.take n :: blocksAux n fuel (data.drop n)

attribute [local simp] blocksAux

def blocks (n : ℕ) (data : Bytes) : List Bytes := blocksAux n data.length data

theorem blocksAux_flatten (n fuel : ℕ) (data : Bytes) : (blocksAux n fuel data).flatten = data := by
  induction fuel generalizing data with
  | zero => simp
  | succ fuel ih =>
    simp only [blocksAux]
    split_ifs with h
    · simp
    · simp [ih]

@[simp] theorem blocks_flatten (n : ℕ) (data : Bytes) : (blocks n data).flatten = data :=
  blocksAux_flatten n data.length data

theorem blocksAux_ne_nil (n fuel : ℕ) (data : Bytes) : blocksAux n fuel data ≠ [] := by
  cases fuel with
  | zero => simp
  | succ fuel => simp only [blocksAux]; split_ifs <;> simp

theorem blocks_ne_nil (n : ℕ) (data : Bytes) : blocks n data ≠ [] := blocksAux_ne_nil n _ data

/-- More fuel than the length makes no difference. -/
theorem blocksAux_of_length_le {n fuel : ℕ} (hn : 0 < n) {data : Bytes} (h : data.length ≤ fuel) :
    blocksAux n fuel data = blocks n data := by
  induction fuel using Nat.strong_induction_on generalizing data with
  | _ fuel ih =>
    unfold blocks
    cases hlength : data.length with
    | zero => cases fuel <;> simp [hlength, hn]
    | succ k =>
      cases fuel with
      | zero => omega
      | succ fuel =>
        have hdrop : (data.drop n).length ≤ k := by
          rw [List.length_drop]
          omega
        simp only [blocksAux]
        split_ifs
        · rfl
        · rw [ih fuel (by omega) (by omega), ih k (by omega) hdrop]

/-- What one round of the read loop delivers. -/
theorem blocks_eq {n : ℕ} (hn : 0 < n) (data : Bytes) :
    blocks n data = if data.length < n then [data] else data.take n :: blocks n (data.drop n) := by
  rw [← blocksAux_of_length_le hn (Nat.le_succ data.length)]
  simp only [blocksAux]
  rw [blocksAux_of_length_le hn (by simp)]

theorem blocksAux_length_le {n fuel : ℕ} {data b : Bytes} (h : data.length ≤ fuel * n) (hb : b ∈ blocksAux n fuel data) :
    b.length ≤ n := by
  induction fuel generalizing data with
  | zero =>
    obtain rfl : b = data := by simpa using hb
    omega
  | succ fuel ih =>
    simp only [blocksAux] at hb
    split_ifs at hb with hshort
    · obtain rfl : b = data := by simpa using hb
      omega
    · rcases List.mem_cons.mp hb with rfl | hb
      · simp
      · apply ih _ hb
        rw [List.length_drop]
        rw [Nat.succ_mul] at h
        omega

/-- No block is longer than the buffer. -/
theorem blocks_length_le {n : ℕ} (hn : 0 < n) {data b : Bytes} (hb : b ∈ blocks n data) : b.length ≤ n :=
  blocksAux_length_le (Nat.le_mul_of_pos_right _ hn) hb

end Bytes
end AFSv1.Foundations
