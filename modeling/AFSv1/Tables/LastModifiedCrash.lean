import AFSv1.Tables.LastModifiedRoundTrip
import Mathlib.Algebra.Ring.Parity

/-! Crashes inside the calls of `last_modified_t`: a torn record, a misread erase mark and an
old log over a new snapshot are the ways in which the constructor sees a third table. -/
namespace AFSv1.Tables
open Foundations

namespace LastModified

/-- `crash c n` stops inside `c` after `n` of its file effects and restarts the client. -/
inductive CrashEvent where
  | call (c : Call Timestamp)
  | crash (c : Call Timestamp) (n : ℕ)

/-- One value as the constructor reads it over what its key holds so far. -/
def reread (cur : Option Bytes) (state : Bytes) : Option Bytes :=
  if state = eraseMark ∧ cur.isSome then none else some state

def valuesOf (k : Bytes) (log : List (Update Bytes Bytes)) : List Bytes :=
  (log.filter fun u => u.key = k).map recordValue

/-- The log holds erase marks only for `k`, and an odd number of them: replayed over a table
that already contains them, it undoes the last one. -/
def Undone (k : Bytes) (log : List (Update Bytes Bytes)) : Prop :=
  (∀ state ∈ valuesOf k log, state = eraseMark) ∧ Odd (valuesOf k log).length

variable (sha256 : Sha256)

/-- At every crash the constructor succeeds and returns the table before or after the call in
progress, and the run goes on from what it returned. -/
def CrashAtomic (s : Session) : List (Env × CrashEvent) → Prop
  | [] => True
  | (env, .call c) :: es => CrashAtomic (s.call sha256 env.toSnapshotEnv (c.map Subtype.val)) es
  | (env, .crash c n) :: es =>
    let disk := crashDisk sha256 s env.toSnapshotEnv (c.map Subtype.val) n
    ∃ table, load disk = some table ∧
      (table = s.mem.table ∨ table = (c.map Subtype.val).atomic sha256 s.mem.table) ∧
      CrashAtomic ⟨⟨table, env.counter⟩, openLog disk⟩ es

/-- The number of effects up to and including the rename of a call that takes a snapshot. -/
def renamed (table : Table Bytes Bytes) : ℕ := 2 * table.keys.card + 4

/-- The journal found by a client restarted after `n` effects of a call that writes a record. -/
def History.crashed (h : History) (env : Env) (c : Call Bytes) (n : ℕ) : History :=
  let table := c.atomic sha256 h.table
  let log := h.log ++ [c.update sha256]
  if c.rotates h.counter env.toSnapshotEnv ∧ renamed table ≤ n then
    ⟨⟨table, env.counter, table, if n = renamed table then log else []⟩, fun _ => false⟩
  else ⟨⟨table, env.counter, h.base, log⟩, nextMasked h.table h.masked (c.update sha256)⟩

def History.crash (h : History) (env : Env) (c : Call Bytes) (n : ℕ) : History :=
  if c.changes sha256 h.table ∧ n ≠ 0 then h.crashed sha256 env c n else { h with counter := env.counter }

/-- The crashes that meet none of the three defects. -/
structure CrashGuard (h : History) (env : Env) (c : Call Bytes) (n : ℕ) : Prop where
  untorn : c.changes sha256 h.table → n ≠ 1
  unmasked : ∀ k, (h.crash sha256 env c n).masked k = false
  settled : c.changes sha256 h.table → c.rotates h.counter env.toSnapshotEnv = true →
    n = renamed (c.atomic sha256 h.table) →
    ∀ k, nextMasked h.table h.masked (c.update sha256) k = false ∧ ¬ Undone k (h.log ++ [c.update sha256])

def Guarded (h : History) : List (Env × CrashEvent) → Prop
  | [] => True
  | (env, .call c) :: es => Guarded (h.call sha256 env.toSnapshotEnv (c.map Subtype.val)) es
  | (env, .crash c n) :: es =>
    CrashGuard sha256 h env (c.map Subtype.val) n ∧ Guarded (h.crash sha256 env (c.map Subtype.val) n) es

lemma lookup_foldl_decode (log : List (Update Bytes Bytes)) (t : Table Bytes Bytes) (k : Bytes) :
    (log.foldl decode t).lookup k = (valuesOf k log).foldl reread (t.lookup k) := by
  induction log generalizing t with
  | nil => rfl
  | cons u log ih =>
    rw [List.foldl_cons, ih, lookup_decode]
    by_cases hk : k = u.key
    · have hv : valuesOf k (u :: log) = recordValue u :: valuesOf k log := by simp [valuesOf, hk]
      rw [hv, List.foldl_cons, if_pos hk]
      rfl
    · have hv : valuesOf k (u :: log) = valuesOf k log := by simp [valuesOf, Ne.symm hk]
      rw [hv, if_neg hk]

lemma reread_of_ne {state : Bytes} (h : state ≠ eraseMark) (cur : Option Bytes) : reread cur state = some state := by
  simp [reread, h]

lemma reread_mark_mark (cur : Option Bytes) : reread (reread cur eraseMark) eraseMark = cur.map fun _ => eraseMark := by
  cases cur <;> simp [reread]

/-- An even number of marks leaves the key present or absent as it was. -/
lemma foldl_reread_even (j : ℕ) (cur : Option Bytes) :
    (List.replicate (j + 1 + (j + 1)) eraseMark).foldl reread cur = cur.map fun _ => eraseMark := by
  induction j generalizing cur with
  | zero => exact reread_mark_mark cur
  | succ j ih =>
    have hr : List.replicate (j + 1 + 1 + (j + 1 + 1)) eraseMark =
        eraseMark :: eraseMark :: List.replicate (j + 1 + (j + 1)) eraseMark := by
      rw [← List.replicate_succ, ← List.replicate_succ]
      congr 1
      omega
    rw [hr, List.foldl_cons, List.foldl_cons, reread_mark_mark, ih]
    cases cur <;> rfl

/-- Reading the same values twice is reading them once, unless the second reading undoes the
first. -/
theorem foldl_reread_twice (states : List Bytes) (h : ¬ ((∀ s ∈ states, s = eraseMark) ∧ Odd states.length))
    (cur : Option Bytes) :
    states.foldl reread (states.foldl reread cur) = states.foldl reread cur := by
  by_cases hall : ∀ s ∈ states, s = eraseMark
  · obtain ⟨j, hj⟩ := Nat.not_odd_iff_even.mp fun hodd => h ⟨hall, hodd⟩
    have hs : states = List.replicate (j + j) eraseMark := List.eq_replicate_iff.mpr ⟨hj, hall⟩
    cases j with
    | zero => simp [hs]
    | succ j =>
      rw [hs, foldl_reread_even, foldl_reread_even]
      cases cur <;> rfl
  · obtain ⟨s, hs, hne⟩ : ∃ s ∈ states, s ≠ eraseMark := by simpa using hall
    obtain ⟨pre, post, rfl⟩ := List.append_of_mem hs
    simp [reread_of_ne hne]

/-- The old log over the new snapshot decodes to the snapshot. -/
theorem foldl_decode_twice {base table : Table Bytes Bytes} {log : List (Update Bytes Bytes)}
    (htable : ∀ k, (log.foldl decode base).lookup k = table.lookup k) (h : ∀ k, ¬ Undone k log) (k : Bytes) :
    (log.foldl decode table).lookup k = table.lookup k := by
  rw [lookup_foldl_decode, ← htable, lookup_foldl_decode, foldl_reread_twice _ (h k)]

/-- The table a recovered journal stands for is the one before or after the call. -/
lemma History.crash_table (h : History) (env : Env) (c : Call Bytes) (n : ℕ) :
    (h.crash sha256 env c n).table = h.table ∨ (h.crash sha256 env c n).table = c.atomic sha256 h.table := by
  unfold History.crash
  split_ifs
  · unfold History.crashed
    simp only
    split_ifs <;> exact .inr rfl
  · exact .inl rfl

/-- What is on disk after a crash that does not tear a record. -/
theorem files_crashDisk {s : Session} {h : History} (hs : Stands s h.toJournalled) (env : Env) (c : Call Bytes)
    (n : ℕ) (hn : c.changes sha256 h.table → n ≠ 1) :
    Files (crashDisk sha256 s env.toSnapshotEnv c n) (h.crash sha256 env c n).base (h.crash sha256 env c n).log := by
  unfold crashDisk History.crash
  rw [c.run_eq, hs.table, hs.counter]
  by_cases hc : c.changes sha256 h.table
  · rw [if_pos hc]
    by_cases h0 : n = 0
    · subst h0
      simpa using hs.files
    · obtain ⟨m, rfl⟩ : ∃ m, n = 2 + m := ⟨n - 2, by have := hn hc; omega⟩
      have happend := hs.files.append (c.update sha256) (c.update_isHash sha256)
      rw [if_pos (And.intro hc h0)]
      -- both flushes of the record are out; `m` effects of the rotation follow
      have htake (tail : List DiskEffect) :
          ((pieces (c.update sha256).key (recordValue (c.update sha256))).map DiskEffect.logAppend ++ tail).take (2 + m) =
            (pieces (c.update sha256).key (recordValue (c.update sha256))).map .logAppend ++ tail.take m := by
        rw [List.take_append, List.take_of_length_le (by simp [pieces])]
        simp [pieces]
      simp only [htake, DiskEffect.applyAll_append]
      by_cases hr : c.rotates h.counter env.toSnapshotEnv = true
      · rw [if_pos hr]
        have hkeys := c.atomic_keys sha256 hs.keys
        rcases happend.take_doSnapshot hkeys env.toSnapshotEnv (Call.tmpOpens_of_rotates hr) m with
          ⟨hm, hf⟩ | ⟨hm, hf⟩ | ⟨hm, hf⟩
        · rw [History.crashed, if_neg (by simp only [renamed]; omega)]
          exact hf
        · rw [History.crashed, if_pos ⟨hr, by simp only [renamed]; omega⟩]
          simp only
          rw [if_pos (by simp only [renamed]; omega)]
          exact hf
        · rw [History.crashed, if_pos ⟨hr, by simp only [renamed]; omega⟩]
          simp only
          rw [if_neg (by simp only [renamed]; omega)]
          exact hf
      · rw [if_neg hr, History.crashed, if_neg (by simp [hr])]
        simpa using happend
  · rw [if_neg hc, if_neg (by simp [hc])]
    simpa using hs.files

lemma Decodes.record {h : History} (hd : Decodes h) (env : Env) (c : Call Bytes) (hc : c.changes sha256 h.table) :
    Decodes ⟨⟨c.atomic sha256 h.table, env.counter, h.base, h.log ++ [c.update sha256]⟩,
      nextMasked h.table h.masked (c.update sha256)⟩ := by
  have hcall := hd.call sha256 ⟨false, env.order⟩ c
  have hrot : c.rotates h.counter ⟨false, env.order⟩ = false := by cases c <;> simp [Call.rotates]
  simpa [Decodes, History.call, Journalled.call, hc, hrot] using hcall

/-- A guarded crash leaves a journal whose files decode to its table. -/
theorem Decodes.crash {h : History} (hd : Decodes h) (env : Env) (c : Call Bytes) (n : ℕ)
    (hg : CrashGuard sha256 h env c n) : Decodes (h.crash sha256 env c n) := by
  have hsettled := hg.settled
  unfold History.crash
  split_ifs with hc
  · have hrec := hd.record sha256 env c hc.1
    unfold History.crashed
    simp only
    split_ifs with hr hn
    · intro k
      refine ⟨fun _ => ?_, by simp⟩
      exact foldl_decode_twice (fun k => (hrec k).1 (hsettled hc.1 hr.1 hn k).1)
        (fun k => (hsettled hc.1 hr.1 hn k).2) k
    · intro k
      simp
    · exact hrec
  · exact hd

lemma sized_record (c : Call Timestamp) :
    (recordValue ((c.map Subtype.val).update sha256)).length = timespecSize := by
  cases c with
  | set filename ts => exact ts.2
  | erase filename => exact List.length_replicate

/-- Sixteen-byte values stay so through a crash. -/
lemma holds_crash {P : Bytes → Prop} {h : History} (hp : h.Holds P) (env : Env) (c : Call Bytes)
    (hc : P (recordValue (c.update sha256))) (n : ℕ) : (h.crash sha256 env c n).Holds P := by
  have ht := hp.atomic sha256 c hc
  have hl := hp.append hc
  unfold History.crash
  split_ifs
  · unfold History.crashed
    simp only
    split_ifs
    · exact ⟨ht, ht, hl⟩
    · exact ⟨ht, ht, by simp⟩
    · exact ⟨ht, hp.base, hl⟩
  · exact ⟨hp.table, hp.base, hp.log⟩

lemma keys_crash {h : History} (hk : ∀ k v, h.table.lookup k = some v → IsHash k) (env : Env) (c : Call Bytes) (n : ℕ)
    (k v : Bytes) (hv : (h.crash sha256 env c n).table.lookup k = some v) : IsHash k := by
  rcases h.crash_table sha256 env c n with he | he <;> rw [he] at hv
  · exact hk k v hv
  · exact c.atomic_keys sha256 hk k v hv

/-- After a guarded crash the constructor returns the table of the recovered journal. -/
theorem load_crashDisk {s : Session} {h : History} (hs : Stands s h.toJournalled) (hd : Decodes h)
    (hsized : h.Holds fun state => state.length = timespecSize) (env : Env) (c : Call Timestamp) (n : ℕ)
    (hg : CrashGuard sha256 h env (c.map Subtype.val) n) :
    load (crashDisk sha256 s env.toSnapshotEnv (c.map Subtype.val) n) =
      some (h.crash sha256 env (c.map Subtype.val) n).table := by
  have hfiles := files_crashDisk sha256 hs env (c.map Subtype.val) n hg.untorn
  have hcrash := holds_crash sha256 hsized env (c.map Subtype.val) (sized_record sha256 c) n
  rw [hfiles.load_sized hcrash.base hcrash.log]
  congr 1
  apply Finmap.ext_lookup
  intro k
  exact (hd.crash sha256 env _ n hg k).1 (hg.unmasked k)

theorem crashAtomic_of_stands {s : Session} {h : History} (hs : Stands s h.toJournalled) (hd : Decodes h)
    (hsized : h.Holds fun state => state.length = timespecSize) (es : List (Env × CrashEvent))
    (hes : Guarded sha256 h es) : CrashAtomic sha256 s es := by
  induction es generalizing s h with
  | nil => trivial
  | cons e es ih =>
    obtain ⟨env, e⟩ := e
    cases e with
    | call c =>
      exact ih (hs.call sha256 env.toSnapshotEnv _) (hd.call sha256 env.toSnapshotEnv _)
        (hsized.call sha256 env.toSnapshotEnv _ (sized_record sha256 c)) hes
    | crash c n =>
      obtain ⟨hg, hrest⟩ := hes
      have htable := h.crash_table sha256 env (c.map Subtype.val) n
      have hfiles := files_crashDisk sha256 hs env (c.map Subtype.val) n hg.untorn
      have hcounter : (h.crash sha256 env (c.map Subtype.val) n).counter = env.counter := by
        unfold History.crash History.crashed
        simp only
        split_ifs <;> rfl
      have hnext : Stands ⟨⟨(h.crash sha256 env (c.map Subtype.val) n).table, env.counter⟩,
          openLog (crashDisk sha256 s env.toSnapshotEnv (c.map Subtype.val) n)⟩
          (h.crash sha256 env (c.map Subtype.val) n).toJournalled :=
        ⟨rfl, hcounter.symm, hfiles.openLog, keys_crash sha256 hs.keys env _ n⟩
      refine ⟨_, load_crashDisk sha256 hs hd hsized env c n hg, by rwa [hs.table], ?_⟩
      exact ih hnext (hd.crash sha256 env _ n hg)
        (holds_crash sha256 hsized env _ (sized_record sha256 c) n) hrest

/-- `last_modified_t` is crash-atomic in every run whose crashes tear no record, leave no misread
erase mark, and lay no log over a snapshot that the log would undo. -/
theorem crashAtomic_of_guarded (counter : ℤ) (es : List (Env × CrashEvent))
    (hes : Guarded sha256 (History.start counter) es) : CrashAtomic sha256 (Session.start counter) es :=
  crashAtomic_of_stands sha256 (stands_start counter) (decodes_start counter) (.start _ counter) es hes

/-- A torn record is read with the bytes left in the buffer by the record before it. -/
theorem loadLoop_torn (k : Bytes) (hk : IsHash k) (fn ts : Bytes) (hts : ts.length = timespecSize)
    (t : Table Bytes Bytes) :
    loadLoop (k ++ [newline]).length ⟨k ++ [newline], false, false⟩ fn ts t = some (applyRecord k ts t) := by
  rw [loadLoop_line _ k hk [] fn ts le_rfl t]
  simp only [IStream.read_empty ts timespecSize (by decide)]
  rw [if_neg (by simp [hts])]
  exact loadLoop_failed _ [] k ts true _

/-- A crash between the two flushes of the very first record: the constructor takes the zeros of
its fresh buffer for the timestamp. -/
theorem not_crashAtomic_torn :
    ¬ CrashAtomic (fun _ _ => 0) (Session.start 0)
      [(Env.plain, .crash (.set (Bytes.ascii "/a") (Timestamp.uniform 1)) 1)] := by
  rintro ⟨table, hload, htable, -⟩
  set k := hashpath (fun _ _ => 0) (Bytes.ascii "/a") with hk
  have hdisk : crashDisk (fun _ _ => 0) (Session.start 0) Env.plain.toSnapshotEnv
      ((Call.set (Bytes.ascii "/a") (Timestamp.uniform 1)).map Subtype.val) 1 =
        { log := some (k ++ [newline]) } := by
    simp [crashDisk, Call.run_eq, Call.map, Call.changes, Session.start, pieces, DiskEffect.applyAll,
      DiskEffect.apply, openLog, Call.update, Update.key, hk]
  have hzero : table = Finmap.insert k (List.replicate timespecSize 0) ∅ := by
    have hne : List.replicate timespecSize (0 : UInt8) ≠ eraseMark := by decide
    have htorn := loadLoop_torn k (hashpath_isHash _ _) (List.replicate 64 0) (List.replicate timespecSize 0)
      List.length_replicate ∅
    rw [hdisk] at hload
    simp only [load, loadFile, Option.bind_some] at hload
    rw [if_pos (by simp), htorn] at hload
    simpa [applyRecord, hne] using hload.symm
  have hlookup : table.lookup k = some (List.replicate timespecSize 0) := by rw [hzero, Finmap.lookup_insert]
  rcases htable with h | h <;> rw [h] at hlookup
  · cases hlookup
  · change (Finmap.insert k (List.replicate timespecSize (1 : UInt8)) (∅ : Table Bytes Bytes)).lookup k = _ at hlookup
    rw [Finmap.lookup_insert] at hlookup
    exact absurd (Option.some.inj hlookup) (by decide)

/-- A set that completes, a crash after both flushes of the next one, a crash before any effect. -/
theorem crashAtomic_of_guarded_untorn :
    CrashAtomic (fun _ _ => 0) (Session.start 0)
      [(Env.plain, .call (.set (Bytes.ascii "/a") (Timestamp.uniform 1))),
        (Env.plain, .crash (.set (Bytes.ascii "/a") (Timestamp.uniform 2)) 2),
        (Env.plain, .crash (.erase (Bytes.ascii "/a")) 0)] := by
  have h1 : (1 : ℤ).tmod snapshotFrequency = 1 := by decide
  have h2 : (2 : ℤ).tmod snapshotFrequency ≠ 0 := by decide
  have hm1 : List.replicate timespecSize (1 : UInt8) ≠ eraseMark := by decide
  have hm2 : List.replicate timespecSize (2 : UInt8) ≠ eraseMark := by decide
  have hne : List.replicate timespecSize (1 : UInt8) ≠ List.replicate timespecSize 2 := by decide
  refine crashAtomic_of_guarded _ 0 _ ⟨⟨by simp, ?_, ?_⟩, ⟨by simp, ?_, by simp [Call.map, Call.rotates]⟩, trivial⟩
  · simp [History.call, Journalled.call, History.start, Journalled.start, Call.map, Call.changes, Call.rotates,
      Call.update, Call.counter, Call.atomic, Update.apply, History.crash, History.crashed, nextMasked,
      Timestamp.uniform, h1, h2, hm1, hm2, hne]
  · simp [History.call, Journalled.call, History.start, Journalled.start, Call.map, Call.changes, Call.rotates,
      Call.update, Call.counter, Call.atomic, Update.apply, nextMasked,
      Timestamp.uniform, h1, h2, hm1, hm2, hne]
  · simp [History.call, Journalled.call, History.start, Journalled.start, Call.map, Call.changes, Call.rotates,
      Call.update, Call.counter, Call.atomic, Update.apply, History.crash, History.crashed, nextMasked,
      Timestamp.uniform, h1, h2, hm1, hm2, hne]

/-- A restart found the journal `h` in the files, and the new object stands for it. -/
structure Recovered (disk : JournalDisk) (counter : ℤ) (h : History) : Prop where
  load : load disk = some h.table
  stands : Stands ⟨⟨h.table, counter⟩, openLog disk⟩ h.toJournalled
  decodes : Decodes h
  storable : h.Holds Storable

/-- A crash that tears no record is survived if the files can be read back, whatever values the client stores. -/
theorem recovered_crash {s : Session} {h : History} (hs : Stands s h.toJournalled) (hd : Decodes h)
    (hst : h.Holds Storable) (env : Env) (c : Call Bytes) (hc : Storable (recordValue (c.update sha256))) (n : ℕ)
    (hg : CrashGuard sha256 h env c n) (hr : (h.crash sha256 env c n).Readable) :
    Recovered (crashDisk sha256 s env.toSnapshotEnv c n) env.counter (h.crash sha256 env c n) := by
  have hfiles := files_crashDisk sha256 hs env c n hg.untorn
  have hcrash := holds_crash sha256 hst env c hc n
  have hdecodes := hd.crash sha256 env c n hg
  have hcounter : (h.crash sha256 env c n).counter = env.counter := by
    unfold History.crash History.crashed
    simp only
    split_ifs <;> rfl
  refine ⟨?_, ⟨rfl, hcounter.symm, hfiles.openLog, keys_crash sha256 hs.keys env c n⟩, hdecodes, hcrash⟩
  have hbase : ∀ k v, (h.crash sha256 env c n).base.lookup k = some v → v.length = timespecSize := by
    intro k v hv
    exact storable_length (hcrash.base k v hv) fun hm => hr.base k (hm ▸ hv)
  have hlog : Sized (h.crash sha256 env c n).log := fun u hu => storable_length (hcrash.log u hu) (hr.log u hu)
  rw [hfiles.load_sized hbase hlog, Option.some.injEq]
  apply Finmap.ext_lookup
  intro k
  exact (hdecodes k).1 (hr.unmasked k)

/-- Between two calls nothing is torn. -/
theorem recovered_restart {s : Session} {h : History} (hs : Stands s h.toJournalled) (hd : Decodes h)
    (hst : h.Holds Storable) (counter : ℤ) (hr : h.Readable) :
    Recovered s.disk counter { h with counter := counter } := by
  refine ⟨?_, ⟨rfl, rfl, hs.files.openLog, hs.keys⟩, hd, ⟨hst.table, hst.base, hst.log⟩⟩
  rw [(load_eq_table_iff hs hst hd).mpr hr, hs.table]

end LastModified
end AFSv1.Tables
