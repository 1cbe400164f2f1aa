import AFSv1.Tables.LastModifiedJournal

/-! Clean restarts of `last_modified_t`: when the constructor reads back the table that was in
memory, for the values the client stores. -/
namespace AFSv1.Tables
open Foundations

namespace LastModified

/-- The values the client stores: a server timestamp, or the marker of a local file. -/
inductive StoredValue where
  | timestamp (ts : { b : Bytes // b.length = timespecSize })
  | localCreat

def StoredValue.bytes : StoredValue → Bytes
  | .timestamp ts => ts
  | .localCreat => localCreatFile

inductive Event where
  | call (c : Call StoredValue)
  | restart

variable (sha256 : Sha256)

/-- Every restart finds, without a failed assertion, exactly the table that was in memory. -/
def RoundTrips (s : Session) : List (Env × Event) → Prop
  | [] => True
  | (env, .call c) :: es => RoundTrips (s.call sha256 env.toSnapshotEnv (c.map StoredValue.bytes)) es
  | (env, .restart) :: es => load s.disk = some s.mem.table ∧
      RoundTrips ⟨⟨s.mem.table, env.counter⟩, openLog s.disk⟩ es

/-- A journal that also marks the keys whose existing entry was overwritten with the erase
mark since the last snapshot, and not set to other bytes after that. -/
structure History extends Journalled where
  masked : Bytes → Bool

def History.start (counter : ℤ) : History := ⟨Journalled.start counter, fun _ => false⟩

def nextMasked (table : Table Bytes Bytes) (masked : Bytes → Bool) : Update Bytes Bytes → Bytes → Bool
  | .put k state => Function.update masked k
      (if state = eraseMark then masked k || (table.lookup k).isSome else false)
  | .del _ => masked

def History.call (h : History) (env : SnapshotEnv Bytes) (c : Call Bytes) : History :=
  ⟨h.toJournalled.call sha256 env c,
    if c.changes sha256 h.table then
      if c.rotates h.counter env then fun _ => false else nextMasked h.table h.masked (c.update sha256)
    else h.masked⟩

/-- The files can be read back: no marker among the recorded values, no masked key. -/
structure History.Readable (h : History) : Prop where
  base : ∀ k, h.base.lookup k ≠ some localCreatFile
  log : ∀ u ∈ h.log, recordValue u ≠ localCreatFile
  unmasked : ∀ k, h.masked k = false

/-- The files are readable at every restart. -/
def ReadableAtRestarts (h : History) : List (Env × Event) → Prop
  | [] => True
  | (env, .call c) :: es => ReadableAtRestarts (h.call sha256 env.toSnapshotEnv (c.map StoredValue.bytes)) es
  | (env, .restart) :: es => h.Readable ∧ ReadableAtRestarts { h with counter := env.counter } es

/-- Values as the client stores them. -/
def Storable (state : Bytes) : Prop := state.length = timespecSize ∨ state = localCreatFile

lemma StoredValue.storable (v : StoredValue) : Storable v.bytes := by
  cases v with
  | timestamp ts => exact .inl ts.2
  | localCreat => exact .inr rfl

lemma storable_length {state : Bytes} (h : Storable state) (hm : state ≠ localCreatFile) :
    state.length = timespecSize := h.resolve_right hm

/-- The marker is longer than the loader's fixed-size read: the next line it sees is the
marker's tail, and the assertion on its length fails. -/
lemma loadLoop_marker (size : ℕ) (k rest fn ts : Bytes) (hk : IsHash k) (hts : ts.length = timespecSize)
    (hsize : (encode (.put k localCreatFile) ++ rest).length ≤ size) (t : Table Bytes Bytes) :
    loadLoop size ⟨encode (.put k localCreatFile) ++ rest, false, false⟩ fn ts t = none := by
  have hsplit : localCreatFile = Bytes.ascii "locally_generate" ++ 100 :: Bytes.ascii "_file" := by decide
  have hshape : encode (.put k localCreatFile) ++ rest =
      k ++ newline :: (Bytes.ascii "locally_generate" ++ 100 :: (Bytes.ascii "_file" ++ newline :: rest)) := by
    simp [encode, Update.key, recordValue, hsplit]
  have hread := IStream.read_full (100 :: (Bytes.ascii "_file" ++ newline :: rest)) ts
    (show ts.length = (Bytes.ascii "locally_generate").length from hts)
  have hlen : (Bytes.ascii "locally_generate").length = timespecSize := by decide
  rw [hlen] at hread
  rw [hshape] at hsize ⊢
  rw [loadLoop_line size k hk _ fn ts hsize t]
  simp only [hread]
  rw [if_neg (by simp [hlen])]
  have htail : newline ∉ Bytes.ascii "_file" := by decide
  have hget : IStream.get ⟨100 :: (Bytes.ascii "_file" ++ newline :: rest), false, false⟩ =
      ⟨Bytes.ascii "_file" ++ newline :: rest, false, false⟩ := by simp [IStream.get, IStream.good]
  have htell := IStream.tellg_good size (Bytes.ascii "_file" ++ newline :: rest)
  rw [hget, loadLoop.eq_def, htell]
  simp only [List.length_append, List.length_cons] at hsize ⊢
  rw [dif_neg (by omega), IStream.getline_line htail,
    if_pos (show (Bytes.ascii "_file").length ≠ 64 by decide)]

theorem loadFile_marker (file : Option Bytes) (us : List (Update Bytes Bytes)) (hus : ∀ u ∈ us, IsHash u.key)
    (hstore : ∀ u ∈ us, Storable (recordValue u)) (hfile : file.getD [] = us.flatMap encode)
    (hmarker : ∃ u ∈ us, recordValue u = localCreatFile) (t : Table Bytes Bytes) : loadFile file t = none := by
  obtain ⟨u, hu, hm⟩ := hmarker
  -- split at the first marker: everything before it has a readable value
  obtain ⟨pre, post, v, hus', hv, hpre⟩ : ∃ pre post v, us = pre ++ v :: post ∧
      recordValue v = localCreatFile ∧ ∀ w ∈ pre, recordValue w ≠ localCreatFile := by
    have hany : us.any (fun w => recordValue w = localCreatFile) = true := by
      simpa using ⟨u, hu, hm⟩
    obtain ⟨v, hfind⟩ := Option.isSome_iff_exists.mp (List.find?_isSome.mpr (by simpa using hany) :
      (us.find? fun w => recordValue w = localCreatFile).isSome)
    obtain ⟨hp, as, bs, hsplit, has⟩ := List.find?_eq_some_iff_append.mp hfind
    exact ⟨as, bs, v, hsplit, by simpa using hp, fun w hw => by simpa using has w hw⟩
  have hvk : v = .put v.key localCreatFile := by
    cases v with
    | put k state => simpa [recordValue, Update.key] using hv
    | del k => exact absurd hv (show eraseMark ≠ localCreatFile by decide)
  subst hus'
  have hkv := hus v (by simp)
  have hsized : ∀ w ∈ pre, IsHash w.key ∧ (recordValue w).length = timespecSize := fun w hw =>
    ⟨hus w (by simp [hw]), storable_length (hstore w (by simp [hw])) (hpre w hw)⟩
  have hshape : (pre ++ v :: post).flatMap encode =
      pre.flatMap encode ++ (encode (.put v.key localCreatFile) ++ post.flatMap encode) := by
    rw [← hvk]; simp
  rw [hshape] at hfile
  have hpos : 0 < (pre.flatMap encode ++ (encode (.put v.key localCreatFile) ++ post.flatMap encode)).length := by
    simp [encode]
  cases file with
  | none => rw [← hfile] at hpos; simp at hpos
  | some content =>
    have hc : content = _ := hfile
    subst hc
    obtain ⟨fn, ts, hts, hl⟩ := loadLoop_encodes _ pre _ hsized (List.replicate 64 0)
      (List.replicate timespecSize 0) (by simp) le_rfl t
    rw [loadFile, if_pos hpos, hl]
    exact loadLoop_marker _ _ _ _ _ hkv hts (by simp only [List.length_append]; omega) _

/-- The constructor on files with storable values: it aborts exactly on a marker, and else
decodes the log over the base table. -/
theorem Files.load_storable {disk : JournalDisk} {base : Table Bytes Bytes} {log : List (Update Bytes Bytes)}
    (h : Files disk base log) (hbase : ∀ k v, base.lookup k = some v → Storable v)
    (hlog : ∀ u ∈ log, Storable (recordValue u)) :
    ((∀ k, base.lookup k ≠ some localCreatFile) ∧ (∀ u ∈ log, recordValue u ≠ localCreatFile) ∧
      load disk = some (log.foldl decode base)) ∨
    (¬ ((∀ k, base.lookup k ≠ some localCreatFile) ∧ ∀ u ∈ log, recordValue u ≠ localCreatFile) ∧
      load disk = none) := by
  by_cases hb : ∀ k, base.lookup k ≠ some localCreatFile
  · by_cases hl : ∀ u ∈ log, recordValue u ≠ localCreatFile
    · refine .inl ⟨hb, hl, h.load_sized (fun k v hk => storable_length (hbase k v hk) fun hm => hb k (hm ▸ hk)) ?_⟩
      exact fun u hu => storable_length (hlog u hu) (hl u hu)
    · refine .inr ⟨fun hh => hl hh.2, ?_⟩
      have hm : ∃ u ∈ log, recordValue u = localCreatFile := by
        by_contra hno
        exact hl fun u hu he => hno ⟨u, hu, he⟩
      have hlogfile := loadFile_marker _ _ h.log_keys hlog h.records hm
      rw [load]
      cases loadFile disk.snapshot ∅ with
      | none => rfl
      | some t => exact hlogfile t
  · refine .inr ⟨fun hh => hb hh.1, ?_⟩
    obtain ⟨l, hl, hsnapshot⟩ := h.snapshot
    have hm : ∃ u ∈ Update.puts l.entries, recordValue u = localCreatFile := by
      obtain ⟨k, hk⟩ := not_forall.mp hb
      rw [← hl, Finmap.lookup_toFinmap, not_not] at hk
      exact ⟨.put k localCreatFile, List.mem_map.mpr ⟨⟨k, _⟩, AList.mem_lookup_iff.mp hk, rfl⟩, rfl⟩
    rw [load, loadFile_marker _ _ (fun u hu => h.base_keys _ _ (hl ▸ mem_puts hu))
      (fun u hu => hbase _ _ (hl ▸ mem_puts hu)) hsnapshot hm]
    rfl

lemma lookup_decode (t : Table Bytes Bytes) (u : Update Bytes Bytes) (k : Bytes) :
    (decode t u).lookup k = if k = u.key then
      (if recordValue u = eraseMark ∧ (t.lookup k).isSome then none else some (recordValue u))
      else t.lookup k := by
  unfold decode applyRecord
  by_cases hk : k = u.key
  · subst hk
    by_cases hm : recordValue u = eraseMark ∧ (t.lookup u.key).isSome
    · simp [hm]
    · simp only [if_true, if_neg hm, Finmap.lookup_insert]
  · simp only [if_neg hk]
    split_ifs
    · exact Finmap.lookup_erase_ne hk
    · exact Finmap.lookup_insert_of_ne _ hk

/-- Key by key, what the constructor decodes against what is in memory: equal when the key is
not masked, and exactly one of them holding the erase mark when it is. -/
def Decodes (h : History) : Prop := ∀ k,
  (h.masked k = false → (h.log.foldl decode h.base).lookup k = h.table.lookup k) ∧
  (h.masked k = true →
    (h.table.lookup k = some eraseMark ∧ (h.log.foldl decode h.base).lookup k = none) ∨
    (h.table.lookup k = none ∧ (h.log.foldl decode h.base).lookup k = some eraseMark))

theorem decodes_start (counter : ℤ) : Decodes (History.start counter) := by
  intro k
  simp [History.start, Journalled.start]

theorem Decodes.call {h : History} (hd : Decodes h) (env : SnapshotEnv Bytes) (c : Call Bytes) :
    Decodes (h.call sha256 env c) := by
  by_cases hc : c.changes sha256 h.table
  · by_cases hr : c.rotates h.counter env = true
    · intro k
      simp [History.call, Journalled.call, hc, hr]
    · intro k
      have ht : (h.call sha256 env c).table = (c.update sha256).apply h.table := by
        simp [History.call, Journalled.call, hc, hr, Call.atomic]
      have hl : (h.call sha256 env c).log.foldl decode (h.call sha256 env c).base =
          decode (h.log.foldl decode h.base) (c.update sha256) := by
        simp [History.call, Journalled.call, hc, hr]
      have hm : (h.call sha256 env c).masked = nextMasked h.table h.masked (c.update sha256) := by
        simp [History.call, hc, hr]
      obtain ⟨hfalse, htrue⟩ := hd k
      rw [ht, hl, hm, lookup_decode, Update.lookup_apply]
      by_cases hk : k = (c.update sha256).key
      · rw [if_pos hk, if_pos hk]
        cases c with
        | set filename state =>
          change k = hashpath sha256 filename at hk
          change h.table.lookup (hashpath sha256 filename) ≠ some state at hc
          rw [← hk] at hc
          simp only [Call.update, nextMasked, recordValue, Update.value, ← hk, Function.update_self]
          by_cases hs : state = eraseMark
          · subst hs
            cases hmask : h.masked k with
            | false =>
              rw [hfalse hmask]
              cases h.table.lookup k <;> simp
            | true =>
              rcases htrue hmask with ⟨h1, -⟩ | ⟨h1, h2⟩
              · exact absurd h1 hc
              · simp [h1, h2]
          · simp [hs]
        | erase filename =>
          change k = hashpath sha256 filename at hk
          change (h.table.lookup (hashpath sha256 filename)).isSome at hc
          rw [← hk] at hc
          simp only [Call.update, nextMasked, recordValue, Update.value]
          cases hmask : h.masked k with
          | false => simp [hfalse hmask, hc]
          | true =>
            rcases htrue hmask with ⟨-, h2⟩ | ⟨h1, -⟩
            · simp [h2]
            · simp [h1] at hc
      · have hmk : nextMasked h.table h.masked (c.update sha256) k = h.masked k := by
          cases c with
          | set filename state => exact Function.update_of_ne hk _ _
          | erase filename => rfl
        rw [if_neg hk, if_neg hk, hmk]
        exact ⟨hfalse, htrue⟩
  · have he : h.call sha256 env c = h := by simp [History.call, Journalled.call, hc]
    rwa [he]

lemma storable_record (c : Call StoredValue) :
    Storable (recordValue ((c.map StoredValue.bytes).update sha256)) := by
  cases c with
  | set filename v => exact v.storable
  | erase filename => exact .inl (show eraseMark.length = timespecSize by decide)

/-- At a restart the constructor returns the table in memory iff the files are readable. -/
theorem load_eq_table_iff {s : Session} {h : History} (hs : Stands s h.toJournalled) (hst : h.toJournalled.Holds Storable)
    (hd : Decodes h) : load s.disk = some s.mem.table ↔ h.Readable := by
  rw [hs.table]
  rcases hs.files.load_storable hst.base hst.log with ⟨hb, hl, hload⟩ | ⟨hno, hload⟩
  · rw [hload, Option.some.injEq]
    constructor
    · refine fun he => ⟨hb, hl, fun k => Bool.eq_false_iff.mpr fun hm => ?_⟩
      rcases (hd k).2 hm with ⟨h1, h2⟩ | ⟨h1, h2⟩ <;> rw [he, h1] at h2 <;> cases h2
    · exact fun hr => Finmap.ext_lookup fun k => (hd k).1 (hr.unmasked k)
  · rw [hload]
    constructor
    · intro he; cases he
    · exact fun hr => absurd ⟨hr.base, hr.log⟩ hno

theorem roundTrips_iff_of_stands {s : Session} {h : History} (hs : Stands s h.toJournalled)
    (hst : h.toJournalled.Holds Storable) (hd : Decodes h) (es : List (Env × Event)) :
    RoundTrips sha256 s es ↔ ReadableAtRestarts sha256 h es := by
  induction es generalizing s h with
  | nil => simp [RoundTrips, ReadableAtRestarts]
  | cons e es ih =>
    obtain ⟨env, e⟩ := e
    cases e with
    | call c =>
      exact ih (h := h.call sha256 env.toSnapshotEnv (c.map StoredValue.bytes))
        (hs.call sha256 env.toSnapshotEnv _) (hst.call sha256 env.toSnapshotEnv _ (storable_record sha256 c))
        (hd.call sha256 env.toSnapshotEnv _)
    | restart =>
      have hnext : Stands ⟨⟨s.mem.table, env.counter⟩, openLog s.disk⟩ { h.toJournalled with counter := env.counter } :=
        ⟨hs.table, rfl, hs.files.openLog, hs.keys⟩
      exact and_congr (load_eq_table_iff hs hst hd)
        (ih (h := { h with counter := env.counter }) hnext ⟨hst.table, hst.base, hst.log⟩ hd)

/-- Through any calls and clean restarts, the constructor returns the table that was in memory
at every restart iff at every restart the files hold no marker and no key is masked. -/
theorem roundTrips_iff (counter : ℤ) (es : List (Env × Event)) :
    RoundTrips sha256 (Session.start counter) es ↔ ReadableAtRestarts sha256 (History.start counter) es :=
  roundTrips_iff_of_stands sha256 (stands_start counter) (.start _ counter) (decodes_start counter) es

/-- An event in whose surroundings nothing fails. -/
noncomputable def Env.plain : Env := ⟨⟨true, Classical.choice inferInstance⟩, 0⟩

/-- One file created locally, then one clean restart: the constructor does not return. -/
theorem not_roundTrips_localCreat :
    ¬ RoundTrips (fun _ _ => 0) (Session.start 0)
      [(Env.plain, .call (.set (Bytes.ascii "/a") .localCreat)), (Env.plain, .restart)] := by
  rw [roundTrips_iff_of_stands _ (h := History.start 0) (stands_start 0) (.start _ 0) (decodes_start 0)]
  rintro ⟨hread, -⟩
  refine hread.log (.put (hashpath (fun _ _ => 0) (Bytes.ascii "/a")) localCreatFile) ?_ rfl
  have hrot : (1 : ℤ).tmod snapshotFrequency ≠ 0 := by decide
  simp [History.call, Journalled.call, History.start, Journalled.start, Call.map, Call.changes, Call.rotates,
    Call.update, StoredValue.bytes, hrot]

end LastModified
end AFSv1.Tables
