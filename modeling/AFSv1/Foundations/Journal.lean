import Mathlib.Data.Finmap
import AFSv1.Foundations.Bytes

/-! A finite map kept in a snapshot file and a log of updates: replay of keyed updates, the
file effects of appending and of rotating, and what a crash between two effects leaves. -/
namespace AFSv1.Foundations

variable {K V : Type} [DecidableEq K]

abbrev Table (K V : Type) := Finmap (fun _ : K => V)

inductive Update (K V : Type) where
  | put (k : K) (v : V)
  | del (k : K)
  deriving DecidableEq, Repr

namespace Update

def key : Update K V → K
  | .put k _ => k
  | .del k => k

def value : Update K V → Option V
  | .put _ v => some v
  | .del _ => none

def apply : Update K V → Table K V → Table K V
  | .put k v, t => t.insert k v
  | .del k, t => t.erase k

/-- Apply a log of updates, oldest first. -/
def replay (us : List (Update K V)) (t : Table K V) : Table K V := us.foldl (fun t u => u.apply t) t

@[simp] theorem replay_nil (t : Table K V) : replay [] t = t := rfl
@[simp] theorem replay_cons (u : Update K V) (us : List (Update K V)) (t : Table K V) :
    replay (u :: us) t = replay us (u.apply t) := rfl
theorem replay_append (us vs : List (Update K V)) (t : Table K V) :
    replay (us ++ vs) t = replay vs (replay us t) := List.foldl_append ..

theorem lookup_apply (u : Update K V) (t : Table K V) (k : K) :
    (u.apply t).lookup k = if k = u.key then u.value else t.lookup k := by
  cases u with
  | put k' v =>
    by_cases h : k = k'
    · subst h; simp [apply, key, value]
    · simp [apply, key, h, Finmap.lookup_insert_of_ne _ h]
  | del k' =>
    by_cases h : k = k'
    · subst h; simp [apply, key, value]
    · simp [apply, key, h, Finmap.lookup_erase_ne h]

/-- What the last update of `k` in a log leaves there; `none` when the log is silent on `k`. -/
def last (k : K) : List (Update K V) → Option (Option V)
  | [] => none
  | u :: us => match last k us with
    | some r => some r
    | none => if k = u.key then some u.value else none

/-- Replay is last-writer-wins, key by key. -/
theorem lookup_replay (us : List (Update K V)) (t : Table K V) (k : K) :
    (replay us t).lookup k = (last k us).getD (t.lookup k) := by
  induction us generalizing t with
  | nil => simp [last]
  | cons u us ih =>
    rw [replay_cons, ih, lookup_apply, last]
    cases last k us with
    | some r => simp
    | none => by_cases h : k = u.key <;> simp [h]

/-- Replaying a log over a map that already contains its effects changes nothing. -/
theorem replay_replay (us : List (Update K V)) (t : Table K V) : replay us (replay us t) = replay us t := by
  apply Finmap.ext_lookup
  intro k
  rw [lookup_replay, lookup_replay]
  cases last k us <;> simp

/-- The updates that rebuild a map from its listed entries. -/
def puts (l : List (Σ _ : K, V)) : List (Update K V) := l.map fun e => .put e.1 e.2

theorem last_puts (l : List (Σ _ : K, V)) (h : l.NodupKeys) (k : K) :
    last k (puts l) = (l.dlookup k).map some := by
  induction l with
  | nil => simp [puts, last]
  | cons e l ih =>
    obtain ⟨k', v⟩ := e
    have hn := List.nodupKeys_cons.mp h
    have ih := ih hn.2
    simp only [puts, List.map_cons, last] at ih ⊢
    rw [ih]
    by_cases hk : k = k'
    · subst hk
      have hnone : l.dlookup k = none := List.dlookup_eq_none.mpr hn.1
      simp [hnone, key, value]
    · rw [List.dlookup_cons_ne _ _ hk]
      cases l.dlookup k <;> simp [key, hk]

theorem replay_puts (s : AList (fun _ : K => V)) : replay (puts s.entries) ∅ = s.toFinmap := by
  apply Finmap.ext_lookup
  intro k
  rw [lookup_replay, last_puts _ s.nodupKeys, Finmap.lookup_toFinmap, AList.lookup, Finmap.lookup_empty]
  cases s.entries.dlookup k <;> rfl

end Update

/-- A traversal of a hash table: some listing of the entries, in an order the library chooses. -/
structure IterationOrder (K V : Type) where
  entries : Table K V → AList (fun _ : K => V)
  complete : ∀ t, (entries t).toFinmap = t

namespace IterationOrder

instance : Nonempty (IterationOrder K V) := by
  have h : ∀ t : Table K V, ∃ s : AList (fun _ : K => V), s.toFinmap = t :=
    fun t => t.induction_on fun s => ⟨s, rfl⟩
  choose entries complete using h
  exact ⟨⟨entries, complete⟩⟩

omit [DecidableEq K] in
/-- Every traversal lists as many entries as the map has keys. -/
theorem length_entries (order : IterationOrder K V) (t : Table K V) :
    (order.entries t).entries.length = t.keys.card := by
  have h := congrArg (fun t => t.keys.card) (order.complete t)
  simpa [Finmap.keys, AList.toFinmap, List.keys] using h

theorem replay_puts (order : IterationOrder K V) (t : Table K V) :
    Update.replay (Update.puts (order.entries t).entries) ∅ = t := by
  rw [Update.replay_puts, order.complete]

theorem lookup_of_mem (order : IterationOrder K V) {t : Table K V} {e : Σ _ : K, V}
    (h : e ∈ (order.entries t).entries) : t.lookup e.1 = some e.2 := by
  have := (order.entries t).mem_lookup_iff.mpr h
  rwa [Option.mem_def, ← Finmap.lookup_toFinmap, order.complete] at this

end IterationOrder

/-- The three files of one journalled map; `none` is a file that does not exist. -/
structure JournalDisk where
  snapshot : Option Bytes := none
  log : Option Bytes := none
  tmp : Option Bytes := none
  deriving DecidableEq, Repr

inductive DiskEffect where
  | logAppend (b : Bytes)
  | tmpCreate
  | tmpAppend (b : Bytes)
  | tmpRename
  | logTruncate
  deriving DecidableEq, Repr

namespace DiskEffect

def apply : DiskEffect → JournalDisk → JournalDisk
  | .logAppend b, d => { d with log := some (d.log.getD [] ++ b) }
  | .tmpCreate, d => { d with tmp := some [] }
  | .tmpAppend b, d => { d with tmp := some (d.tmp.getD [] ++ b) }
  | .tmpRename, d => match d.tmp with
    | some b => { d with snapshot := some b, tmp := none }
    | none => d
  | .logTruncate, d => { d with log := some [] }

def applyAll (es : List DiskEffect) (d : JournalDisk) : JournalDisk := es.foldl (fun d e => e.apply d) d

@[simp] theorem applyAll_nil (d : JournalDisk) : applyAll [] d = d := rfl
@[simp] theorem applyAll_cons (e : DiskEffect) (es : List DiskEffect) (d : JournalDisk) :
    applyAll (e :: es) d = applyAll es (e.apply d) := rfl
theorem applyAll_append (es fs : List DiskEffect) (d : JournalDisk) :
    applyAll (es ++ fs) d = applyAll fs (applyAll es d) := List.foldl_append ..

/-- Write a new snapshot beside the old one, move it in place, then empty the log. -/
def rotate (pieces : List Bytes) : List DiskEffect :=
  .tmpCreate :: (pieces.map .tmpAppend ++ [.tmpRename, .logTruncate])

theorem applyAll_tmpAppend (pieces : List Bytes) (d : JournalDisk) (b : Bytes) (h : d.tmp = some b) :
    applyAll (pieces.map .tmpAppend) d = { d with tmp := some (b ++ pieces.flatten) } := by
  induction pieces generalizing d b with
  | nil => cases d; simp_all
  | cons p pieces ih =>
    rw [List.map_cons, applyAll_cons, ih _ (b ++ p) (by simp [apply, h])]
    simp [apply]

/-- Before the rename a crash leaves both live files alone. -/
theorem take_rotate_before (pieces : List Bytes) (d : JournalDisk) (n : ℕ) (h : n ≤ pieces.length + 1) :
    (applyAll ((rotate pieces).take n) d).snapshot = d.snapshot ∧
      (applyAll ((rotate pieces).take n) d).log = d.log := by
  cases n with
  | zero => simp [rotate]
  | succ n =>
    have ht : (rotate pieces).take (n+1) = .tmpCreate :: (pieces.take n).map .tmpAppend := by
      rw [rotate, List.take_succ_cons, List.take_append_of_le_length (by simpa using h), List.map_take]
    rw [ht, applyAll_cons, applyAll_tmpAppend _ _ [] (by simp [apply])]
    simp [apply]

theorem applyAll_renamed (pieces : List Bytes) (d : JournalDisk) :
    applyAll (.tmpCreate :: (pieces.map .tmpAppend ++ [.tmpRename])) d =
      { d with snapshot := some pieces.flatten, tmp := none } := by
  rw [applyAll_cons, applyAll_append, applyAll_tmpAppend _ _ [] (by simp [apply])]
  simp [apply]

/-- Between the rename and the truncation the old log lies over the new snapshot. -/
theorem take_rotate_renamed (pieces : List Bytes) (d : JournalDisk) :
    applyAll ((rotate pieces).take (pieces.length + 2)) d =
      { d with snapshot := some pieces.flatten, tmp := none } := by
  have ht : (rotate pieces).take (pieces.length + 2) =
      .tmpCreate :: (pieces.map .tmpAppend ++ [.tmpRename]) := by
    rw [rotate, List.take_succ_cons, List.take_append]
    simp
  rw [ht, applyAll_renamed]

theorem applyAll_rotate (pieces : List Bytes) (d : JournalDisk) :
    applyAll (rotate pieces) d = ⟨some pieces.flatten, some [], none⟩ := by
  have hr : rotate pieces = (.tmpCreate :: (pieces.map .tmpAppend ++ [.tmpRename])) ++ [.logTruncate] := by
    simp [rotate]
  rw [hr, applyAll_append, applyAll_renamed]
  simp [apply]

@[simp] theorem rotate_length (pieces : List Bytes) : (rotate pieces).length = pieces.length + 3 := by
  simp [rotate]

/-- What is on disk after a crash inside a rotation. -/
theorem take_rotate_cases (pieces : List Bytes) (d : JournalDisk) (n : ℕ) :
    (n < pieces.length + 2 ∧ (applyAll ((rotate pieces).take n) d).snapshot = d.snapshot ∧
      (applyAll ((rotate pieces).take n) d).log = d.log) ∨
    (n = pieces.length + 2 ∧ (applyAll ((rotate pieces).take n) d).snapshot = some pieces.flatten ∧
      (applyAll ((rotate pieces).take n) d).log = d.log) ∨
    (pieces.length + 2 < n ∧ (applyAll ((rotate pieces).take n) d).snapshot = some pieces.flatten ∧
      (applyAll ((rotate pieces).take n) d).log = some []) := by
  rcases Nat.lt_trichotomy n (pieces.length + 2) with h | h | h
  · exact .inl ⟨h, take_rotate_before pieces d n (by omega)⟩
  · subst h
    exact .inr (.inl (by simp [take_rotate_renamed]))
  · rw [List.take_of_length_le (by rw [rotate_length]; omega), applyAll_rotate]
    exact .inr (.inr ⟨h, rfl, rfl⟩)

end DiskEffect
end AFSv1.Foundations
