import AFSv1.Foundations.Bytes

/-! A read-only `std::ifstream`: the unread bytes and the two state bits, with the library
calls a line-oriented loader uses. -/
namespace AFSv1.Foundations

def newline : UInt8 := 10

structure IStream where
  rest : Bytes
  eof : Bool := false
  fail : Bool := false
  deriving DecidableEq, Repr

namespace IStream

def good (s : IStream) : Bool := !s.eof && !s.fail

/-- `tellg` on a stream of `size` bytes; `none` is the failure value -1, also returned once
the end of the file has been hit. -/
def tellg (size : ℕ) (s : IStream) : Option ℕ := if s.good then some (size - s.rest.length) else none

/-- The bytes before the first newline, and what follows it (`none` without a newline). -/
def splitLine : Bytes → Bytes × Option Bytes
  | [] => ([], none)
  | c :: cs => if c = newline then ([], some cs) else ((c :: (splitLine cs).1), (splitLine cs).2)

/-- `std::getline(s, buf)`; a stream that is not good leaves `buf` alone. -/
def getline (s : IStream) (buf : Bytes) : Bytes × IStream :=
  if s.good then
    match s.rest with
    | [] => ([], { s with eof := true, fail := true })
    | _ => match splitLine s.rest with
      | (line, some rest) => (line, { s with rest := rest })
      | (line, none) => (line, { s with rest := [], eof := true })
  else (buf, { s with fail := true })

/-- `s.read(&buf[0], n)` overwrites the front of `buf` with the bytes it could read. -/
def read (s : IStream) (buf : Bytes) (n : ℕ) : Bytes × IStream :=
  if s.good then
    if n ≤ s.rest.length then (s.rest.take n ++ buf.drop n, { s with rest := s.rest.drop n })
    else (s.rest ++ buf.drop s.rest.length, { s with rest := [], eof := true, fail := true })
  else (buf, { s with fail := true })

/-- `s.get()` with its result dropped. -/
def get (s : IStream) : IStream :=
  if s.good then
    match s.rest with
    | [] => { s with eof := true, fail := true }
    | _ :: cs => { s with rest := cs }
  else { s with fail := true }

theorem splitLine_append {line : Bytes} (h : newline ∉ line) (rest : Bytes) :
    splitLine (line ++ newline :: rest) = (line, some rest) := by
  induction line with
  | nil => simp [splitLine]
  | cons c line ih =>
    have hc : c ≠ newline := fun e => h (by simp [e])
    have hl : newline ∉ line := fun m => h (by simp [m])
    simp [splitLine, hc, ih hl]

theorem splitLine_length {bs rest : Bytes} (h : (splitLine bs).2 = some rest) :
    rest.length < bs.length := by
  induction bs with
  | nil => simp [splitLine] at h
  | cons c cs ih =>
    by_cases hc : c = newline
    · simp only [splitLine, hc, if_true, Option.some.injEq] at h
      simp [h]
    · simp only [splitLine, if_neg hc] at h
      have := ih h
      simp only [List.length_cons]
      omega

/-- A complete line is delivered without its newline. -/
theorem getline_line {line : Bytes} (h : newline ∉ line) (rest buf : Bytes) :
    getline ⟨line ++ newline :: rest, false, false⟩ buf = (line, ⟨rest, false, false⟩) := by
  have hs := splitLine_append h rest
  cases line with
  | nil => simp [getline, good, splitLine]
  | cons c line =>
    rw [List.cons_append] at hs ⊢
    simp [getline, good, hs]

/-- Reading a line of a good, non-empty stream consumes a byte. -/
theorem getline_length (s : IStream) (buf : Bytes) (hg : s.good = true) (hr : s.rest ≠ []) :
    (s.getline buf).2.rest.length < s.rest.length := by
  obtain ⟨bs, e, f⟩ := s
  cases bs with
  | nil => exact absurd rfl hr
  | cons c cs =>
    simp only [getline, hg, if_true]
    cases hs : splitLine (c :: cs) with
    | mk line rest =>
      cases rest with
      | none => simp
      | some rest => exact splitLine_length (by rw [hs])

theorem read_length (s : IStream) (buf : Bytes) (n : ℕ) : (s.read buf n).2.rest.length ≤ s.rest.length := by
  simp only [read]
  split_ifs <;> simp

theorem get_length (s : IStream) : s.get.rest.length ≤ s.rest.length := by
  simp only [get]
  split_ifs
  · split <;> simp_all
  · simp

/-- A full read returns the bytes themselves. -/
theorem read_full {block : Bytes} (rest buf : Bytes) (h : buf.length = block.length) :
    read ⟨block ++ rest, false, false⟩ buf block.length = (block, ⟨rest, false, false⟩) := by
  have hb : List.drop block.length buf = [] := by simp [h]
  simp [read, good, hb]

/-- At the end of the file a read leaves the buffer as it was. -/
theorem read_empty (buf : Bytes) (n : ℕ) (hn : 0 < n) : read ⟨[], false, false⟩ buf n = (buf, ⟨[], true, true⟩) := by
  simp [read, good, Nat.not_le.mpr hn]

/-- The loop test of the loaders fails exactly at the end of a healthy stream. -/
theorem tellg_good (size : ℕ) (rest : Bytes) : tellg size ⟨rest, false, false⟩ = some (size - rest.length) := by
  simp [tellg, good]

end IStream
end AFSv1.Foundations
