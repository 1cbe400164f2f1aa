import AFSv1.Tables.LastModified

/-! The files of `last_modified_t` as a base table and a list of records: what every call and
every crash does to them, and what the constructor reads back. -/
namespace AFSv1.Tables
open Foundations

namespace LastModified

/-- A call with its value of some type of states. -/
inductive Call (W : Type) where
  | set (filename : Bytes) (state : W)
  | erase (filename : Bytes)

def Call.map {W W' : Type} (f : W → W') : Call W → Call W'
  | .set filename state => .set filename (f state)
  | .erase filename => .erase filename

variable (sha256 : Sha256)

def Call.run (t : LastModified) (env : SnapshotEnv Bytes) : Call Bytes → LastModified × List DiskEffect
  | .set filename state => t.set sha256 filename state env
  | .erase filename => t.erase sha256 filename

def Call.update : Call Bytes → Update Bytes Bytes
  | .set filename state => .put (hashpath sha256 filename) state
  | .erase filename => .del (hashpath sha256 filename)

def Call.atomic (c : Call Bytes) (table : Table Bytes Bytes) : Table Bytes Bytes := (c.update sha256).apply table

structure Session where
  mem : LastModified
  disk : JournalDisk

structure Env extends SnapshotEnv Bytes where
  counter : ℤ

def Session.start (counter : ℤ) : Session := ⟨⟨∅, counter⟩, openLog {}⟩

def Session.call (s : Session) (env : SnapshotEnv Bytes) (c : Call Bytes) : Session :=
  let r := c.run sha256 s.mem env
  ⟨r.1, DiskEffect.applyAll r.2 s.disk⟩

def crashDisk (s : Session) (env : SnapshotEnv Bytes) (c : Call Bytes) (n : ℕ) : JournalDisk :=
  DiskEffect.applyAll ((c.run sha256 s.mem env).2.take n) s.disk

/-- The object together with what its files hold: the table of the last snapshot and the
records logged on top of it. -/
structure Journalled where
  table : Table Bytes Bytes
  counter : ℤ
  base : Table Bytes Bytes
  log : List (Update Bytes Bytes)

def Journalled.start (counter : ℤ) : Journalled := ⟨∅, counter, ∅, []⟩

/-- Whether a call changes the table, and so writes a record. -/
def Call.changes (table : Table Bytes Bytes) : Call Bytes → Prop
  | .set filename state => table.lookup (hashpath sha256 filename) ≠ some state
  | .erase filename => (table.lookup (hashpath sha256 filename)).isSome

instance (table : Table Bytes Bytes) (c : Call Bytes) : Decidable (c.changes sha256 table) := by
  cases c <;> unfold Call.changes <;> infer_instance

def Call.counter (counter : ℤ) : Call Bytes → ℤ
  | .set _ _ => (counter + 1).tmod snapshotFrequency
  | .erase _ => counter

/-- Whether the record of a call is followed by a snapshot. -/
def Call.rotates (counter : ℤ) (env : SnapshotEnv Bytes) : Call Bytes → Bool
  | .set _ _ => (counter + 1).tmod snapshotFrequency = 0 && env.tmpOpens
  | .erase _ => false

def Journalled.call (j : Journalled) (env : SnapshotEnv Bytes) (c : Call Bytes) : Journalled :=
  if c.changes sha256 j.table then
    let table := c.atomic sha256 j.table
    if c.rotates j.counter env then ⟨table, c.counter j.counter, table, []⟩
    else ⟨table, c.counter j.counter, j.base, j.log ++ [c.update sha256]⟩
  else j

/-- The files hold a listing of `base` and the records `log`. -/
structure Files (disk : JournalDisk) (base : Table Bytes Bytes) (log : List (Update Bytes Bytes)) : Prop where
  snapshot : ∃ l : AList (fun _ : Bytes => Bytes), l.toFinmap = base ∧
    disk.snapshot.getD [] = (Update.puts l.entries).flatMap encode
  records : disk.log.getD [] = log.flatMap encode
  base_keys : ∀ k v, base.lookup k = some v → IsHash k
  log_keys : ∀ u ∈ log, IsHash u.key

structure Stands (s : Session) (j : Journalled) : Prop where
  table : s.mem.table = j.table
  counter : s.mem.counter = j.counter
  files : Files s.disk j.base j.log
  keys : ∀ k v, j.table.lookup k = some v → IsHash k

theorem stands_start (counter : ℤ) : Stands (Session.start counter) (Journalled.start counter) := by
  refine ⟨rfl, rfl, ⟨⟨∅, rfl, rfl⟩, rfl, ?_, ?_⟩, ?_⟩ <;> simp [Journalled.start]

lemma Files.congr {disk disk' : JournalDisk} {base : Table Bytes Bytes} {log : List (Update Bytes Bytes)}
    (h : Files disk base log) (hs : disk'.snapshot.getD [] = disk.snapshot.getD [])
    (hl : disk'.log.getD [] = disk.log.getD []) : Files disk' base log := by
  obtain ⟨l, hbase, hsnapshot⟩ := h.snapshot
  exact ⟨⟨l, hbase, hs.trans hsnapshot⟩, hl.trans h.records, h.base_keys, h.log_keys⟩

lemma Files.openLog {disk : JournalDisk} {base : Table Bytes Bytes} {log : List (Update Bytes Bytes)}
    (h : Files disk base log) : Files (openLog disk) base log :=
  h.congr rfl (by simp [LastModified.openLog])

lemma Call.update_isHash (c : Call Bytes) : IsHash (c.update sha256).key := by
  cases c <;> exact hashpath_isHash sha256 _

lemma Call.atomic_keys (c : Call Bytes) {table : Table Bytes Bytes}
    (h : ∀ k v, table.lookup k = some v → IsHash k) (k v : Bytes)
    (hk : (c.atomic sha256 table).lookup k = some v) : IsHash k := by
  rw [Call.atomic, Update.lookup_apply] at hk
  split_ifs at hk with he
  · rw [he]; exact c.update_isHash sha256
  · exact h k v hk

/-- The effects of a call: nothing, or the two flushes of its record and possibly a rotation. -/
theorem Call.run_eq (c : Call Bytes) (t : LastModified) (env : SnapshotEnv Bytes) :
    c.run sha256 t env = if c.changes sha256 t.table then
      (⟨c.atomic sha256 t.table, c.counter t.counter⟩,
        (pieces (c.update sha256).key (recordValue (c.update sha256))).map .logAppend ++
          if c.rotates t.counter env then doSnapshot (c.atomic sha256 t.table) env else [])
      else (t, []) := by
  cases c with
  | set filename state =>
    by_cases h : t.table.lookup (hashpath sha256 filename) = some state
    · simp [Call.run, LastModified.set, Call.changes, h]
    · by_cases h10 : (t.counter + 1).tmod snapshotFrequency = 0 <;> cases ho : env.tmpOpens <;>
        simp [Call.run, LastModified.set, Call.changes, h, h10, ho, Call.atomic, Call.update, Update.apply, Call.counter,
          Call.rotates, Update.key, recordValue, doSnapshot]
  | erase filename =>
    by_cases h : (t.table.lookup (hashpath sha256 filename)).isSome
    · simp [Call.run, LastModified.erase, Call.changes, h, Call.atomic, Call.update, Update.apply, Call.counter,
        Call.rotates, Update.key, recordValue]
    · simp [Call.run, LastModified.erase, Call.changes, h]

lemma Call.atomic_of_not_changes (c : Call Bytes) {table : Table Bytes Bytes} (h : ¬ c.changes sha256 table) :
    c.atomic sha256 table = table := by
  refine Finmap.ext_lookup fun k => ?_
  rw [Call.atomic, Update.lookup_apply]
  split_ifs with hk
  · subst hk
    cases c with
    | set filename state => exact (not_not.mp h).symm
    | erase filename => exact (Option.not_isSome_iff_eq_none.mp h).symm
  · rfl

lemma Call.run_table (c : Call Bytes) (t : LastModified) (env : SnapshotEnv Bytes) :
    (c.run sha256 t env).1.table = c.atomic sha256 t.table := by
  rw [c.run_eq]
  by_cases hc : c.changes sha256 t.table
  · rw [if_pos hc]
  · rw [if_neg hc, c.atomic_of_not_changes sha256 hc]

/-- Both flushes of a record add it to the log. -/
theorem Files.append {disk : JournalDisk} {base : Table Bytes Bytes} {log : List (Update Bytes Bytes)}
    (h : Files disk base log) (u : Update Bytes Bytes) (hu : IsHash u.key) :
    Files (DiskEffect.applyAll ((pieces u.key (recordValue u)).map .logAppend) disk) base (log ++ [u]) := by
  refine ⟨h.snapshot, ?_, h.base_keys, ?_⟩
  · simp [pieces, DiskEffect.applyAll, DiskEffect.apply, h.records, encode]
  · intro v hv
    rcases List.mem_append.mp hv with hv | hv
    · exact h.log_keys v hv
    · rwa [List.mem_singleton.mp hv]

/-- The flushes of one snapshot. -/
def snapshotPieces (table : Table Bytes Bytes) (env : SnapshotEnv Bytes) : List Bytes :=
  (env.order.entries table).entries.flatMap fun entry => pieces entry.1 entry.2

lemma snapshotPieces_length (table : Table Bytes Bytes) (env : SnapshotEnv Bytes) :
    (snapshotPieces table env).length = 2 * table.keys.card := by
  rw [← env.order.length_entries, snapshotPieces, List.length_flatMap]
  simp [pieces, Nat.mul_comm]

lemma snapshotPieces_flatten (l : List (Σ _ : Bytes, Bytes)) :
    (l.flatMap fun entry => pieces entry.1 entry.2).flatten = (Update.puts l).flatMap encode := by
  induction l with
  | nil => rfl
  | cons e l ih =>
    simp only [List.flatMap_cons, List.flatten_append, Update.puts, List.map_cons] at ih ⊢
    rw [ih]
    congr 1
    exact flatten_pieces (.put e.1 e.2)

/-- A crash inside a rotation leaves the old files, the old log over the new snapshot, or the
new snapshot with an empty log. -/
theorem Files.take_doSnapshot {disk : JournalDisk} {base table : Table Bytes Bytes}
    {log : List (Update Bytes Bytes)} (h : Files disk base log)
    (ht : ∀ k v, table.lookup k = some v → IsHash k) (env : SnapshotEnv Bytes) (ho : env.tmpOpens = true) (n : ℕ) :
    (n < 2 * table.keys.card + 2 ∧ Files (DiskEffect.applyAll ((doSnapshot table env).take n) disk) base log) ∨
    (n = 2 * table.keys.card + 2 ∧ Files (DiskEffect.applyAll ((doSnapshot table env).take n) disk) table log) ∨
    (2 * table.keys.card + 2 < n ∧ Files (DiskEffect.applyAll ((doSnapshot table env).take n) disk) table []) := by
  have hsnap : ∃ l : AList (fun _ : Bytes => Bytes), l.toFinmap = table ∧
      (snapshotPieces table env).flatten = (Update.puts l.entries).flatMap encode :=
    ⟨env.order.entries table, env.order.complete table, snapshotPieces_flatten _⟩
  have hd : doSnapshot table env = DiskEffect.rotate (snapshotPieces table env) := by
    simp [doSnapshot, ho, snapshotPieces]
  rw [hd, ← snapshotPieces_length table env]
  rcases DiskEffect.take_rotate_cases (snapshotPieces table env) disk n with ⟨hn, hs, hl⟩ | ⟨hn, hs, hl⟩ | ⟨hn, hs, hl⟩
  · exact .inl ⟨hn, h.congr (by rw [hs]) (by rw [hl])⟩
  · refine .inr (.inl ⟨hn, ?_, by rw [hl, h.records], ht, h.log_keys⟩)
    rw [hs]; exact hsnap
  · refine .inr (.inr ⟨hn, ?_, by rw [hl]; rfl, ht, by simp⟩)
    rw [hs]; exact hsnap

theorem files_doSnapshot (disk : JournalDisk) {table : Table Bytes Bytes} (ht : ∀ k v, table.lookup k = some v → IsHash k)
    (env : SnapshotEnv Bytes) (ho : env.tmpOpens = true) :
    Files (DiskEffect.applyAll (doSnapshot table env) disk) table [] := by
  have hd : LastModified.doSnapshot table env = DiskEffect.rotate (snapshotPieces table env) := by
    simp [LastModified.doSnapshot, ho, snapshotPieces]
  rw [hd, DiskEffect.applyAll_rotate]
  exact ⟨⟨env.order.entries table, env.order.complete table, snapshotPieces_flatten _⟩, rfl, ht, by simp⟩

lemma Call.tmpOpens_of_rotates {c : Call Bytes} {counter : ℤ} {env : SnapshotEnv Bytes}
    (h : c.rotates counter env = true) : env.tmpOpens = true := by
  cases c <;> simp_all [Call.rotates]

/-- A complete call keeps the correspondence. -/
theorem Stands.call {s : Session} {j : Journalled} (h : Stands s j) (env : SnapshotEnv Bytes) (c : Call Bytes) :
    Stands (s.call sha256 env c) (j.call sha256 env c) := by
  unfold Session.call Journalled.call
  rw [c.run_eq, h.table, h.counter]
  by_cases hc : c.changes sha256 j.table
  · have hkeys := c.atomic_keys sha256 h.keys
    have happend := h.files.append (c.update sha256) (c.update_isHash sha256)
    simp only [if_pos hc]
    by_cases hr : c.rotates j.counter env = true
    · simp only [if_pos hr]
      refine ⟨rfl, rfl, ?_, hkeys⟩
      rw [DiskEffect.applyAll_append]
      exact files_doSnapshot _ hkeys env (Call.tmpOpens_of_rotates hr)
    · simp only [if_neg hr, List.append_nil]
      exact ⟨rfl, rfl, happend, hkeys⟩
  · simp only [if_neg hc]
    exact ⟨h.table, h.counter, h.files, h.keys⟩

/-- Every value in memory and in the files satisfies `P`. -/
structure Journalled.Holds (P : Bytes → Prop) (j : Journalled) : Prop where
  table : ∀ k v, j.table.lookup k = some v → P v
  base : ∀ k v, j.base.lookup k = some v → P v
  log : ∀ u ∈ j.log, P (recordValue u)

lemma Journalled.Holds.start (P : Bytes → Prop) (counter : ℤ) : (Journalled.start counter).Holds P := by
  constructor <;> simp [Journalled.start]

lemma Journalled.Holds.atomic {P : Bytes → Prop} {j : Journalled} (h : j.Holds P) (c : Call Bytes)
    (hc : P (recordValue (c.update sha256))) (k v : Bytes) (hk : (c.atomic sha256 j.table).lookup k = some v) : P v := by
  rw [Call.atomic, Update.lookup_apply] at hk
  split_ifs at hk
  · cases c with
    | set filename state => cases hk; exact hc
    | erase filename => cases hk
  · exact h.table k v hk

lemma Journalled.Holds.append {P : Bytes → Prop} {j : Journalled} (h : j.Holds P) {u : Update Bytes Bytes}
    (hu : P (recordValue u)) (v : Update Bytes Bytes) (hv : v ∈ j.log ++ [u]) : P (recordValue v) := by
  rcases List.mem_append.mp hv with hv | hv
  · exact h.log v hv
  · rwa [List.mem_singleton.mp hv]

theorem Journalled.Holds.call {P : Bytes → Prop} {j : Journalled} (h : j.Holds P) (env : SnapshotEnv Bytes)
    (c : Call Bytes) (hc : P (recordValue (c.update sha256))) : (j.call sha256 env c).Holds P := by
  have ht := h.atomic sha256 c hc
  unfold Journalled.call
  split_ifs
  · exact ⟨ht, ht, by simp⟩
  · exact ⟨ht, h.base, h.append hc⟩
  · exact h

/-- Sixteen-byte values throughout, the only ones the constructor can read. -/
def Sized (us : List (Update Bytes Bytes)) : Prop := ∀ u ∈ us, (recordValue u).length = timespecSize

instance (us : List (Update Bytes Bytes)) : Decidable (Sized us) := by unfold Sized; infer_instance

theorem loadFile_sized (file : Option Bytes) (us : List (Update Bytes Bytes)) (hus : ∀ u ∈ us, IsHash u.key)
    (hsized : Sized us) (hfile : file.getD [] = us.flatMap encode) (t : Table Bytes Bytes) :
    loadFile file t = some (us.foldl decode t) := by
  cases us with
  | nil =>
    cases file with
    | none => rfl
    | some content =>
      have hc : content = [] := hfile
      simp [loadFile, hc]
  | cons u us =>
    have hpos : 0 < ((u :: us).flatMap encode).length := by simp [encode]
    cases file with
    | none => rw [← hfile] at hpos; simp at hpos
    | some content =>
      have hc : content = (u :: us).flatMap encode := hfile
      subst hc
      obtain ⟨fn, ts, -, hl⟩ := loadLoop_encodes _ (u :: us) [] (fun v hv => ⟨hus v hv, hsized v hv⟩)
        (List.replicate 64 0) (List.replicate timespecSize 0) (by simp) (by rw [List.append_nil]) t
      rw [List.append_nil] at hl
      rw [loadFile, if_pos hpos, hl, loadLoop_done]

/-- Reading a listing into a table without its keys inserts the entries, the mark included. -/
lemma foldl_decode_puts (l : List (Σ _ : Bytes, Bytes)) (hl : l.NodupKeys) (t : Table Bytes Bytes)
    (ht : ∀ e ∈ l, t.lookup e.1 = none) : (Update.puts l).foldl decode t = Update.replay (Update.puts l) t := by
  induction l generalizing t with
  | nil => rfl
  | cons e l ih =>
    have hn := List.nodupKeys_cons.mp hl
    have he : t.lookup e.1 = none := ht e (by simp)
    have hd : decode t (.put e.1 e.2) = (Update.put e.1 e.2).apply t := by
      simp [decode, applyRecord, Update.key, recordValue, he, Update.apply]
    have htail : ∀ e' ∈ l, ((Update.put e.1 e.2).apply t).lookup e'.1 = none := by
      intro e' he'
      have hne : e'.1 ≠ (Update.put e.1 e.2).key := by
        intro h
        exact hn.1 (List.mem_map.mpr ⟨e', he', h⟩)
      rw [Update.lookup_apply, if_neg hne]
      exact ht e' (by simp [he'])
    rw [Update.puts, List.map_cons, List.foldl_cons, Update.replay_cons, hd]
    exact ih hn.2 _ htail

lemma mem_puts {l : AList (fun _ : Bytes => Bytes)} {u : Update Bytes Bytes} (h : u ∈ Update.puts l.entries) :
    l.toFinmap.lookup u.key = some (recordValue u) := by
  obtain ⟨e, he, rfl⟩ := List.mem_map.mp h
  rw [Finmap.lookup_toFinmap]
  exact AList.mem_lookup_iff.mpr he

/-- With readable values the constructor decodes the log over the base table. -/
theorem Files.load_sized {disk : JournalDisk} {base : Table Bytes Bytes} {log : List (Update Bytes Bytes)}
    (h : Files disk base log) (hbase : ∀ k v, base.lookup k = some v → v.length = timespecSize)
    (hlog : Sized log) : load disk = some (log.foldl decode base) := by
  obtain ⟨l, hl, hsnapshot⟩ := h.snapshot
  have hkeys : ∀ u ∈ Update.puts l.entries, IsHash u.key :=
    fun u hu => h.base_keys _ _ (hl ▸ mem_puts hu)
  have hsized : Sized (Update.puts l.entries) := fun u hu => hbase _ _ (hl ▸ mem_puts hu)
  rw [load, loadFile_sized _ _ hkeys hsized hsnapshot, Option.bind_some,
    loadFile_sized _ _ h.log_keys hlog h.records, foldl_decode_puts _ l.nodupKeys _ (by simp),
    Update.replay_puts, hl]

end LastModified
end AFSv1.Tables
