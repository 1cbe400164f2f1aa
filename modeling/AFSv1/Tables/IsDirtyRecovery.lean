import AFSv1.Tables.IsDirty

/-! Runs of `is_dirty_t` through calls, crashes and restarts: the files always stand for the
table, so the constructor recovers it. -/
namespace AFSv1.Tables
open Foundations

namespace IsDirty

variable (sha256 : Sha256)

inductive Call where
  | set (filename : Bytes) (state : Bool)
  | erase (filename : Bytes)

def Call.run (t : IsDirty) (env : SnapshotEnv Bool) : Call → IsDirty × List DiskEffect
  | .set filename state => t.set sha256 filename state env
  | .erase filename => t.erase sha256 filename

def Call.update : Call → Update Bytes Bool
  | .set filename state => .put (hashpath sha256 filename) state
  | .erase filename => .del (hashpath sha256 filename)

/-- The crash-atomic map: a call happens entirely or not at all. -/
def Call.atomic (c : Call) (table : Table Bytes Bool) : Table Bytes Bool := (c.update sha256).apply table

/-- The object and its files. -/
structure Session where
  mem : IsDirty
  disk : JournalDisk

/-- `crash c n` stops inside `c` after `n` of its file effects and restarts the client. -/
inductive Event where
  | call (c : Call)
  | crash (c : Call) (n : ℕ)

/-- What surrounds an event; `counter` is the uninitialised member after a restart. -/
structure Env extends SnapshotEnv Bool where
  counter : ℤ

def crashDisk (s : Session) (env : SnapshotEnv Bool) (c : Call) (n : ℕ) : JournalDisk :=
  DiskEffect.applyAll ((c.run sha256 s.mem env).2.take n) s.disk

/-- `none` when the constructor of the restarted client fails an assertion. -/
def step (s : Session) (env : Env) : Event → Option Session
  | .call c =>
    let r := c.run sha256 s.mem env.toSnapshotEnv
    some ⟨r.1, DiskEffect.applyAll r.2 s.disk⟩
  | .crash c n =>
    let disk := crashDisk sha256 s env.toSnapshotEnv c n
    (load disk).map fun table => ⟨⟨table, env.counter⟩, openLog disk⟩

def run (s : Session) : List (Env × Event) → Option Session
  | [] => some s
  | (env, e) :: es => (step sha256 s env e).bind fun s' => run s' es

/-- A client started on an empty cache directory. -/
def Session.start (counter : ℤ) : Session := ⟨⟨∅, counter⟩, openLog {}⟩

def atomicStep (table : Table Bytes Bool) : Event → Table Bytes Bool
  | .call c => c.atomic sha256 table
  | .crash c n => if n = 0 then table else c.atomic sha256 table

def atomicRun (table : Table Bytes Bool) (es : List Event) : Table Bytes Bool :=
  es.foldl (atomicStep sha256) table

/-- The files stand for the table: well-formed lines that replay to it. -/
structure Recorded (disk : JournalDisk) (table : Table Bytes Bool) : Prop where
  replays : ∃ base us : List (Update Bytes Bool), (∀ u ∈ base, IsHash u.key) ∧ (∀ u ∈ us, IsHash u.key) ∧
    disk.snapshot.getD [] = base.flatMap encode ∧ disk.log.getD [] = us.flatMap encode ∧
    Update.replay us (Update.replay base ∅) = table
  keys : ∀ k v, table.lookup k = some v → IsHash k

theorem load_of_recorded {disk : JournalDisk} {table : Table Bytes Bool} (h : Recorded disk table) :
    load disk = some table := by
  obtain ⟨base, us, hbase, hus, hsnapshot, hlog, hreplay⟩ := h.replays
  rw [load, loadFile_encodes _ base hbase hsnapshot, Option.bind_some, loadFile_encodes _ us hus hlog, hreplay]

theorem recorded_start : Recorded (openLog {}) ∅ :=
  ⟨⟨[], [], by simp, by simp, rfl, rfl, rfl⟩, by simp⟩

lemma Recorded.congr {disk disk' : JournalDisk} {table : Table Bytes Bool} (h : Recorded disk table)
    (hs : disk'.snapshot.getD [] = disk.snapshot.getD []) (hl : disk'.log.getD [] = disk.log.getD []) :
    Recorded disk' table := by
  obtain ⟨base, us, hbase, hus, hsnapshot, hlog, hreplay⟩ := h.replays
  exact ⟨⟨base, us, hbase, hus, hs.trans hsnapshot, hl.trans hlog, hreplay⟩, h.keys⟩

lemma Recorded.openLog {disk : JournalDisk} {table : Table Bytes Bool} (h : Recorded disk table) :
    Recorded (openLog disk) table := h.congr rfl (by simp [IsDirty.openLog])

theorem Recorded.append {disk : JournalDisk} {table : Table Bytes Bool} (h : Recorded disk table)
    (u : Update Bytes Bool) (hu : IsHash u.key) :
    Recorded ((DiskEffect.logAppend (encode u)).apply disk) (u.apply table) := by
  obtain ⟨base, us, hbase, hus, hsnapshot, hlog, hreplay⟩ := h.replays
  refine ⟨⟨base, us ++ [u], hbase, ?_, hsnapshot, ?_, ?_⟩, ?_⟩
  · intro v hv
    rcases List.mem_append.mp hv with hv | hv
    · exact hus v hv
    · rwa [List.mem_singleton.mp hv]
  · simp [DiskEffect.apply, hlog]
  · rw [Update.replay_append, hreplay]; rfl
  · intro k v hk
    rw [Update.lookup_apply] at hk
    split_ifs at hk with he
    · rwa [he]
    · exact h.keys k v hk

/-- A snapshot's lines are the updates that rebuild the table. -/
lemma snapshot_flatten (l : List (Σ _ : Bytes, Bool)) :
    (l.map fun entry => line entry.1 (digit entry.2)).flatten = (Update.puts l).flatMap encode := by
  induction l with
  | nil => rfl
  | cons e l ih => simp [Update.puts, encode, opDigit, Update.key] at ih ⊢; exact ih

/-- No prefix of a rotation loses the table: in the window between the rename and the
truncation the old log is replayed over a snapshot that already contains it. -/
theorem Recorded.take_doSnapshot {disk : JournalDisk} {table : Table Bytes Bool} (h : Recorded disk table)
    (env : SnapshotEnv Bool) (n : ℕ) :
    Recorded (DiskEffect.applyAll ((doSnapshot table env).take n) disk) table := by
  unfold doSnapshot
  split_ifs
  · obtain ⟨base, us, hbase, hus, hsnapshot, hlog, hreplay⟩ := h.replays
    have hputs : ∀ u ∈ Update.puts (env.order.entries table).entries, IsHash u.key := by
      intro u hu
      obtain ⟨e, he, rfl⟩ := List.mem_map.mp hu
      exact h.keys _ _ (env.order.lookup_of_mem he)
    rcases DiskEffect.take_rotate_cases ((env.order.entries table).entries.map
        fun entry => line entry.1 (digit entry.2)) disk n with ⟨-, hs, hl⟩ | ⟨-, hs, hl⟩ | ⟨-, hs, hl⟩
    · exact h.congr (by rw [hs]) (by rw [hl])
    · refine ⟨⟨_, us, hputs, hus, by rw [hs]; exact snapshot_flatten _, by rw [hl, hlog], ?_⟩, h.keys⟩
      rw [env.order.replay_puts, ← hreplay, Update.replay_replay]
    · exact ⟨⟨_, [], hputs, by simp, by rw [hs]; exact snapshot_flatten _, by rw [hl]; rfl,
        env.order.replay_puts table⟩, h.keys⟩
  · simpa using h

lemma Call.update_isHash (c : Call) : IsHash (c.update sha256).key := by
  cases c <;> exact hashpath_isHash sha256 _

/-- What a call can do: nothing, or one log line and possibly a rotation of the new table. -/
theorem Call.run_cases (c : Call) (t : IsDirty) (env : SnapshotEnv Bool) :
    (c.run sha256 t env = (t, []) ∧ c.atomic sha256 t.table = t.table) ∨
    ((c.run sha256 t env).1.table = c.atomic sha256 t.table ∧
      ∃ tail, (tail = [] ∨ tail = doSnapshot (c.atomic sha256 t.table) env) ∧
        (c.run sha256 t env).2 = .logAppend (encode (c.update sha256)) :: tail) := by
  cases c with
  | set filename state =>
    by_cases h : t.table.lookup (hashpath sha256 filename) = some state
    · refine .inl ⟨by simp [Call.run, IsDirty.set, h], Finmap.ext_lookup fun k => ?_⟩
      rw [Call.atomic, Update.lookup_apply]
      split_ifs with hk
      · rw [hk]; exact h.symm
      · rfl
    · refine .inr ⟨by simp [Call.run, IsDirty.set, h, Call.atomic, Call.update, Update.apply], ?_⟩
      refine ⟨_, ?_, by simp only [Call.run, IsDirty.set, if_neg h]; rfl⟩
      split_ifs
      · exact .inr rfl
      · exact .inl rfl
  | erase filename =>
    by_cases h : (t.table.lookup (hashpath sha256 filename)).isSome
    · exact .inr ⟨by simp [Call.run, IsDirty.erase, h, Call.atomic, Call.update, Update.apply],
        [], .inl rfl, by simp [Call.run, IsDirty.erase, h, Call.update, encode, opDigit, Update.key]⟩
    · refine .inl ⟨by simp [Call.run, IsDirty.erase, h], Finmap.ext_lookup fun k => ?_⟩
      rw [Call.atomic, Update.lookup_apply]
      split_ifs with hk
      · rw [hk]; exact (Option.not_isSome_iff_eq_none.mp h).symm
      · rfl

lemma Call.run_table (c : Call) (t : IsDirty) (env : SnapshotEnv Bool) :
    (c.run sha256 t env).1.table = c.atomic sha256 t.table := by
  rcases c.run_cases sha256 t env with ⟨hr, ha⟩ | ⟨ht, -⟩
  · rw [hr, ha]
  · exact ht

/-- After any prefix of a call's effects the files stand for the table before or after it. -/
theorem recorded_crashDisk {s : Session} (h : Recorded s.disk s.mem.table) (env : SnapshotEnv Bool)
    (c : Call) (n : ℕ) :
    Recorded (crashDisk sha256 s env c n) (if n = 0 then s.mem.table else c.atomic sha256 s.mem.table) := by
  unfold crashDisk
  rcases c.run_cases sha256 s.mem env with ⟨hr, ha⟩ | ⟨-, tail, htail, hr⟩
  · rw [hr, ha]
    simpa using h
  · rw [hr]
    cases n with
    | zero => simpa using h
    | succ n =>
      rw [List.take_succ_cons, DiskEffect.applyAll_cons, if_neg (Nat.succ_ne_zero n)]
      have hline := h.append (c.update sha256) (c.update_isHash sha256)
      rcases htail with rfl | rfl
      · simpa [Call.atomic] using hline
      · exact hline.take_doSnapshot env n

theorem recorded_step {s : Session} (h : Recorded s.disk s.mem.table) (env : Env) (e : Event) :
    ∃ s', step sha256 s env e = some s' ∧ Recorded s'.disk s'.mem.table ∧
      s'.mem.table = atomicStep sha256 s.mem.table e := by
  cases e with
  | call c =>
    refine ⟨_, rfl, ?_, c.run_table sha256 s.mem env.toSnapshotEnv⟩
    have hall := recorded_crashDisk sha256 h env.toSnapshotEnv c
      ((c.run sha256 s.mem env.toSnapshotEnv).2.length + 1)
    rw [crashDisk, List.take_of_length_le (by omega), if_neg (by omega)] at hall
    rwa [← c.run_table sha256 s.mem env.toSnapshotEnv] at hall
  | crash c n =>
    have hcrash := recorded_crashDisk sha256 h env.toSnapshotEnv c n
    exact ⟨_, by simp only [step, load_of_recorded hcrash]; rfl, hcrash.openLog, rfl⟩

theorem recorded_run {s : Session} (h : Recorded s.disk s.mem.table) (es : List (Env × Event)) :
    ∃ s', run sha256 s es = some s' ∧ Recorded s'.disk s'.mem.table ∧
      s'.mem.table = atomicRun sha256 s.mem.table (es.map Prod.snd) := by
  induction es generalizing s with
  | nil => exact ⟨s, rfl, h, rfl⟩
  | cons e es ih =>
    obtain ⟨env, e⟩ := e
    obtain ⟨s₁, hstep, hrec, htable⟩ := recorded_step sha256 h env e
    obtain ⟨s₂, hrun, hrec', htable'⟩ := ih hrec
    refine ⟨s₂, by rw [run, hstep]; exact hrun, hrec', ?_⟩
    rw [htable', htable]
    rfl

/-- `is_dirty_t` refines a crash-atomic map: through any calls, crashes and restarts the
constructor never fails, and both the table in memory and the table a crash would leave are
those of the map, whatever the counters, the traversal orders and the failed snapshots were. -/
theorem isDirty_refines_atomic_map (counter : ℤ) (es : List (Env × Event)) :
    ∃ s, run sha256 (Session.start counter) es = some s ∧
      s.mem.table = atomicRun sha256 ∅ (es.map Prod.snd) ∧
      ∀ (env : SnapshotEnv Bool) (c : Call) (n : ℕ),
        load (crashDisk sha256 s env c n) =
          some (if n = 0 then s.mem.table else c.atomic sha256 s.mem.table) := by
  obtain ⟨s, hrun, hrec, htable⟩ := recorded_run sha256 (s := Session.start counter) recorded_start es
  exact ⟨s, hrun, htable, fun env c n => load_of_recorded (recorded_crashDisk sha256 hrec env c n)⟩

end IsDirty
end AFSv1.Tables
