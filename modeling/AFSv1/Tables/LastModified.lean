import AFSv1.Foundations.Journal
import AFSv1.Tables.IsDirty

/-! The class `last_modified_t`: a string per cached path, logged as the hash on one line and
the raw value on the next, with 16 bytes 0xFF for an erased entry. -/
namespace AFSv1.Tables
open Foundations

/-- `LOCAL_CREAT_FILE`, stored in place of a timestamp for a file the server does not have. -/
def localCreatFile : Bytes := Bytes.ascii "locally_generated_file"

/-- `sizeof(struct timespec)`. -/
def timespecSize : ℕ := 16

/-- The bytes of a `struct timespec`. -/
abbrev Timestamp := { b : Bytes // b.length = timespecSize }

/-- A timestamp of one repeated byte. -/
def Timestamp.uniform (byte : UInt8) : Timestamp := ⟨List.replicate timespecSize byte, List.length_replicate⟩

/-- `std::string(sizeof(struct timespec), 255)`, the value that means erase. -/
def eraseMark : Bytes := List.replicate timespecSize 255

structure LastModified where
  table : Table Bytes Bytes
  counter : ℤ

namespace LastModified

variable (sha256 : Sha256)

def count (t : LastModified) (filename : Bytes) : ℕ :=
  if (t.table.lookup (hashpath sha256 filename)).isSome then 1 else 0

def get (t : LastModified) (filename : Bytes) : Bytes :=
  (t.table.lookup (hashpath sha256 filename)).getD (Bytes.ascii "not found")

/-- The two flushes of `log << hashed_fn << std::endl << state << std::endl`. -/
def pieces (hashed_fn state : Bytes) : List Bytes := [hashed_fn ++ [newline], state ++ [newline]]

def doSnapshot (table : Table Bytes Bytes) (env : SnapshotEnv Bytes) : List DiskEffect :=
  if env.tmpOpens then
    DiskEffect.rotate ((env.order.entries table).entries.flatMap fun entry => pieces entry.1 entry.2)
  else []

def set (t : LastModified) (filename state : Bytes) (env : SnapshotEnv Bytes) :
    LastModified × List DiskEffect :=
  let hashed_fn := hashpath sha256 filename
  if t.table.lookup hashed_fn = some state then (t, [])
  else
    let table := t.table.insert hashed_fn state
    let counter := (t.counter + 1).tmod snapshotFrequency
    (⟨table, counter⟩, (pieces hashed_fn state).map .logAppend ++
      if counter = 0 then doSnapshot table env else [])

def erase (t : LastModified) (filename : Bytes) : LastModified × List DiskEffect :=
  let hashed_fn := hashpath sha256 filename
  if (t.table.lookup hashed_fn).isSome then
    ({ t with table := t.table.erase hashed_fn }, (pieces hashed_fn eraseMark).map .logAppend)
  else (t, [])

/-- What the constructor does with one record it has read. -/
def applyRecord (fn ts : Bytes) (table : Table Bytes Bytes) : Table Bytes Bytes :=
  if ts = eraseMark ∧ (table.lookup fn).isSome then table.erase fn else table.insert fn ts

/-- The `while` loop of the constructor on one file: a line for the hash, a fixed-size read
into the reused buffer `ts`, one byte skipped. `none` is a failed assertion. -/
def loadLoop (size : ℕ) (is : IStream) (fn ts : Bytes) (table : Table Bytes Bytes) :
    Option (Table Bytes Bytes) :=
  match _ht : is.tellg size with
  | none => some table
  | some pos =>
    if _hp : pos = size then some table
    else
      let fn' := (is.getline fn).1
      if fn'.length ≠ 64 then none
      else
        let ts' := ((is.getline fn).2.read ts timespecSize).1
        -- `ts` is never resized, so the second assertion cannot be reached
        if ¬ (ts' = eraseMark ∧ (table.lookup fn').isSome) ∧ ts'.length ≠ timespecSize then none
        else loadLoop size ((is.getline fn).2.read ts timespecSize).2.get fn' ts' (applyRecord fn' ts' table)
termination_by is.rest.length
decreasing_by
  have hg : is.good = true := by
    by_contra h
    simp [IStream.tellg, h] at _ht
  refine lt_of_le_of_lt ((IStream.get_length _).trans (IStream.read_length _ ts timespecSize))
    (is.getline_length fn hg fun hr => _hp ?_)
  simpa [IStream.tellg, hg, hr] using _ht.symm

def loadFile (file : Option Bytes) (table : Table Bytes Bytes) : Option (Table Bytes Bytes) :=
  match file with
  | none => some table
  | some content =>
    if 0 < content.length then
      loadLoop content.length ⟨content, false, false⟩ (List.replicate 64 0) (List.replicate timespecSize 0) table
    else some table

def load (d : JournalDisk) : Option (Table Bytes Bytes) := (loadFile d.snapshot ∅).bind (loadFile d.log)

def openLog (d : JournalDisk) : JournalDisk := { d with log := some (d.log.getD []) }

/-- The bytes recorded after the hash for one update. -/
def recordValue : Update Bytes Bytes → Bytes
  | .put _ state => state
  | .del _ => eraseMark

def encode (u : Update Bytes Bytes) : Bytes := u.key ++ newline :: (recordValue u ++ [newline])

/-- How the constructor replays one update; an erase of an absent key stores the mark. -/
def decode (table : Table Bytes Bytes) (u : Update Bytes Bytes) : Table Bytes Bytes :=
  applyRecord u.key (recordValue u) table

lemma flatten_pieces (u : Update Bytes Bytes) : (pieces u.key (recordValue u)).flatten = encode u := by
  simp [pieces, encode]

lemma loadLoop_done (size : ℕ) (fn ts : Bytes) (t : Table Bytes Bytes) :
    loadLoop size ⟨[], false, false⟩ fn ts t = some t := by
  rw [loadLoop.eq_def, IStream.tellg_good]
  simp

lemma loadLoop_failed (size : ℕ) (rest fn ts : Bytes) (e : Bool) (t : Table Bytes Bytes) :
    loadLoop size ⟨rest, e, true⟩ fn ts t = some t := by
  have h : IStream.tellg size ⟨rest, e, true⟩ = none := by simp [IStream.tellg, IStream.good]
  rw [loadLoop.eq_def, h]

/-- One turn of the loop on a hash line followed by any bytes. -/
lemma loadLoop_line (size : ℕ) (k : Bytes) (hk : IsHash k) (rest fn ts : Bytes)
    (hsize : (k ++ newline :: rest).length ≤ size) (t : Table Bytes Bytes) :
    loadLoop size ⟨k ++ newline :: rest, false, false⟩ fn ts t =
      let ts' := (IStream.read ⟨rest, false, false⟩ ts timespecSize).1
      if ¬ (ts' = eraseMark ∧ (t.lookup k).isSome) ∧ ts'.length ≠ timespecSize then none
      else loadLoop size (IStream.read ⟨rest, false, false⟩ ts timespecSize).2.get k ts' (applyRecord k ts' t) := by
  have htell : IStream.tellg size ⟨k ++ newline :: rest, false, false⟩ = some (size - (65 + rest.length)) := by
    rw [IStream.tellg_good, List.length_append, List.length_cons, hk.1]
    congr 2
    omega
  rw [List.length_append, List.length_cons, hk.1] at hsize
  rw [loadLoop.eq_def, htell]
  simp only
  rw [dif_neg (by omega), IStream.getline_line hk.2, if_neg (by simp [hk.1])]

/-- A record with a 16-byte value is decoded and the loop goes on behind it. -/
theorem loadLoop_encode (size : ℕ) (u : Update Bytes Bytes) (hu : IsHash u.key)
    (hv : (recordValue u).length = timespecSize) (rest fn ts : Bytes) (hts : ts.length = timespecSize)
    (hsize : (encode u ++ rest).length ≤ size) (t : Table Bytes Bytes) :
    loadLoop size ⟨encode u ++ rest, false, false⟩ fn ts t =
      loadLoop size ⟨rest, false, false⟩ u.key (recordValue u) (decode t u) := by
  have hshape : encode u ++ rest = u.key ++ newline :: (recordValue u ++ newline :: rest) := by simp [encode]
  have hread := IStream.read_full (newline :: rest) ts (hts.trans hv.symm)
  rw [hv] at hread
  rw [hshape] at hsize ⊢
  rw [loadLoop_line size u.key hu _ fn ts hsize t]
  simp only [hread]
  rw [if_neg (by simp [hv])]
  simp [IStream.get, IStream.good, decode]

theorem loadLoop_encodes (size : ℕ) (us : List (Update Bytes Bytes)) (rest : Bytes)
    (hus : ∀ u ∈ us, IsHash u.key ∧ (recordValue u).length = timespecSize)
    (fn ts : Bytes) (hts : ts.length = timespecSize) (hsize : (us.flatMap encode ++ rest).length ≤ size)
    (t : Table Bytes Bytes) :
    ∃ fn' ts', ts'.length = timespecSize ∧
      loadLoop size ⟨us.flatMap encode ++ rest, false, false⟩ fn ts t =
        loadLoop size ⟨rest, false, false⟩ fn' ts' (us.foldl decode t) := by
  induction us generalizing fn ts t with
  | nil => exact ⟨fn, ts, hts, rfl⟩
  | cons u us ih =>
    obtain ⟨hk, hv⟩ := hus u (by simp)
    rw [List.flatMap_cons, List.append_assoc] at hsize ⊢
    rw [loadLoop_encode size u hk hv _ fn ts hts hsize, List.foldl_cons]
    rw [List.length_append] at hsize
    exact ih (fun v h => hus v (by simp [h])) _ _ hv (by omega) _

end LastModified
end AFSv1.Tables
