import AFSv1.Foundations.Journal
import AFSv1.Tables.Hashpath

/-! The class `is_dirty_t`: one flag per cached path, held in memory and in a snapshot and a
log of 67-byte lines. Every call is a change of the object and a list of file effects. -/
namespace AFSv1.Tables
open Foundations

/-- The part of a call the code does not decide: whether the snapshot's temporary file opens,
and the traversal order of the hash table. -/
structure SnapshotEnv (V : Type) where
  tmpOpens : Bool
  order : IterationOrder Bytes V

/-- `snapshot_frequency`, the number of `set` records between snapshots. -/
def snapshotFrequency : ℤ := 10

structure IsDirty where
  table : Table Bytes Bool
  counter : ℤ

namespace IsDirty

variable (sha256 : Sha256)

def get (t : IsDirty) (filename : Bytes) : Bool := t.table.lookup (hashpath sha256 filename) = some true

/-- A line of the log or the snapshot: the hash, a blank and a digit. -/
def line (hashed_fn : Bytes) (digit : UInt8) : Bytes := hashed_fn ++ [32, digit, newline]

def digit (state : Bool) : UInt8 := if state then 49 else 48

def eraseDigit : UInt8 := 50

def doSnapshot (table : Table Bytes Bool) (env : SnapshotEnv Bool) : List DiskEffect :=
  if env.tmpOpens then
    DiskEffect.rotate ((env.order.entries table).entries.map fun entry => line entry.1 (digit entry.2))
  else []

def set (t : IsDirty) (filename : Bytes) (state : Bool) (env : SnapshotEnv Bool) :
    IsDirty × List DiskEffect :=
  let hashed_fn := hashpath sha256 filename
  if t.table.lookup hashed_fn = some state then (t, [])
  else
    let table := t.table.insert hashed_fn state
    -- the remainder truncates towards zero: a negative counter climbs to 0
    let counter := (t.counter + 1).tmod snapshotFrequency
    (⟨table, counter⟩, .logAppend (line hashed_fn (digit state)) ::
      if counter = 0 then doSnapshot table env else [])

def erase (t : IsDirty) (filename : Bytes) : IsDirty × List DiskEffect :=
  let hashed_fn := hashpath sha256 filename
  if (t.table.lookup hashed_fn).isSome then
    ({ t with table := t.table.erase hashed_fn }, [.logAppend (line hashed_fn eraseDigit)])
  else (t, [])

/-- The `switch` on the last character of a line. -/
def applyLine (buf : Bytes) (table : Table Bytes Bool) : Table Bytes Bool :=
  match buf.getLast? with
  | some 50 => table.erase (buf.take 64)
  | some 49 => table.insert (buf.take 64) true
  | some 48 => table.insert (buf.take 64) false
  | _ => table

/-- The `while` loop of the constructor on one file; `none` is a failed assertion. -/
def loadLoop (size : ℕ) (is : IStream) (buf : Bytes) (table : Table Bytes Bool) :
    Option (Table Bytes Bool) :=
  match _ht : is.tellg size with
  | none => some table
  | some pos =>
    if _hp : pos = size then some table
    else
      let line := (is.getline buf).1
      if line.length ≠ 66 then none
      else loadLoop size (is.getline buf).2 line (applyLine line table)
termination_by is.rest.length
decreasing_by
  have hg : is.good = true := by
    by_contra h
    simp [IStream.tellg, h] at _ht
  refine is.getline_length buf hg fun hr => _hp ?_
  simpa [IStream.tellg, hg, hr] using _ht.symm

def loadFile (file : Option Bytes) (table : Table Bytes Bool) : Option (Table Bytes Bool) :=
  match file with
  | none => some table
  | some content =>
    if 0 < content.length then loadLoop content.length ⟨content, false, false⟩ (List.replicate 100 0) table
    else some table

/-- The constructor's table: the snapshot, then the log. -/
def load (d : JournalDisk) : Option (Table Bytes Bool) := (loadFile d.snapshot ∅).bind (loadFile d.log)

/-- The constructor leaves the log open for appending, created if it was missing. -/
def openLog (d : JournalDisk) : JournalDisk := { d with log := some (d.log.getD []) }

/-- The digit recorded for one update of the table. -/
def opDigit : Update Bytes Bool → UInt8
  | .put _ state => digit state
  | .del _ => eraseDigit

def encode (u : Update Bytes Bool) : Bytes := line u.key (opDigit u)

lemma opDigit_ne_newline (u : Update Bytes Bool) : opDigit u ≠ newline := by
  rcases u with ⟨k, _ | _⟩ | k <;> (simp only [opDigit]; decide)

lemma encode_length (u : Update Bytes Bool) (h : IsHash u.key) : (encode u).length = 67 := by
  simp [encode, line, h.1]

lemma applyLine_encode (u : Update Bytes Bool) (h : IsHash u.key) (t : Table Bytes Bool) :
    applyLine (u.key ++ [32, opDigit u]) t = u.apply t := by
  have ht : (u.key ++ [32, opDigit u]).take 64 = u.key := by rw [← h.1, List.take_left]
  have hl : (u.key ++ [32, opDigit u]).getLast? = some (opDigit u) := by simp
  rw [applyLine, ht, hl]
  rcases u with ⟨k, _ | _⟩ | k <;> rfl

lemma loadLoop_done (size : ℕ) (buf : Bytes) (t : Table Bytes Bool) :
    loadLoop size ⟨[], false, false⟩ buf t = some t := by
  rw [loadLoop.eq_def, IStream.tellg_good]
  simp

/-- One turn of the loop on a well-formed line applies its update. -/
theorem loadLoop_encode (size : ℕ) (u : Update Bytes Bool) (hu : IsHash u.key) (rest buf : Bytes)
    (hsize : (encode u ++ rest).length ≤ size) (t : Table Bytes Bool) :
    loadLoop size ⟨encode u ++ rest, false, false⟩ buf t =
      loadLoop size ⟨rest, false, false⟩ (u.key ++ [32, opDigit u]) (u.apply t) := by
  have hlen := encode_length u hu
  have hline : newline ∉ u.key ++ [32, opDigit u] := by
    have h1 := opDigit_ne_newline u
    have h2 := hu.2
    simp only [List.mem_append, List.mem_cons, List.not_mem_nil, or_false, not_or]
    exact ⟨h2, by decide, h1.symm⟩
  have hshape : encode u ++ rest = (u.key ++ [32, opDigit u]) ++ newline :: rest := by simp [encode, line]
  rw [List.length_append, hlen] at hsize
  have htell : IStream.tellg size ⟨encode u ++ rest, false, false⟩ = some (size - (67 + rest.length)) := by
    rw [IStream.tellg_good, List.length_append, hlen]
  rw [loadLoop.eq_def, htell]
  simp only [hshape, IStream.getline_line hline]
  rw [dif_neg (by omega), if_neg (by simp [hu.1]), applyLine_encode u hu]

/-- A file of well-formed lines is replayed line by line, without a failed assertion. -/
theorem loadLoop_encodes (size : ℕ) (us : List (Update Bytes Bool)) (hus : ∀ u ∈ us, IsHash u.key)
    (buf : Bytes) (hsize : (us.flatMap encode).length ≤ size) (t : Table Bytes Bool) :
    loadLoop size ⟨us.flatMap encode, false, false⟩ buf t = some (Update.replay us t) := by
  induction us generalizing buf t with
  | nil => exact loadLoop_done size buf t
  | cons u us ih =>
    rw [List.flatMap_cons] at hsize ⊢
    rw [loadLoop_encode size u (hus u (by simp)) _ _ hsize, Update.replay_cons]
    rw [List.length_append] at hsize
    exact ih (fun v hv => hus v (by simp [hv])) _ (by omega) _

theorem loadFile_encodes (file : Option Bytes) (us : List (Update Bytes Bool))
    (hus : ∀ u ∈ us, IsHash u.key) (hfile : file.getD [] = us.flatMap encode) (t : Table Bytes Bool) :
    loadFile file t = some (Update.replay us t) := by
  cases file with
  | none =>
    cases us with
    | nil => rfl
    | cons u us =>
      have hlen := congrArg List.length hfile
      simp [encode_length u (hus u (by simp))] at hlen
      omega
  | some content =>
    subst hfile
    by_cases h : 0 < (us.flatMap encode).length
    · simp only [loadFile, if_pos h]
      exact loadLoop_encodes _ us hus _ le_rfl t
    · cases us with
      | nil => rfl
      | cons u us =>
        rw [List.flatMap_cons, List.length_append, encode_length u (hus u (by simp))] at h
        omega

end IsDirty
end AFSv1.Tables
