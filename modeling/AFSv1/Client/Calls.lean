import AFSv1.Client.Handles

/-! What the calls do, one inversion lemma for each call with more than one outcome, and the rules for
a call at the head of a program. -/
namespace AFSv1.Client
open Foundations Tables

variable {Path : Type}

namespace Entry

@[simp] lemma setInode_last_modified (e : Entry) (i : ℕ) (b : Bytes) : (e.setInode i b).last_modified = e.last_modified := rfl
@[simp] lemma setInode_is_dirty (e : Entry) (i : ℕ) (b : Bytes) : (e.setInode i b).is_dirty = e.is_dirty := rfl
@[simp] lemma setInode_dirty (e : Entry) (i : ℕ) (b : Bytes) : (e.setInode i b).dirty = e.dirty := rfl
@[simp] lemma setInode_cache (e : Entry) (i : ℕ) (b : Bytes) : (e.setInode i b).cache = e.cache := rfl
@[simp] lemma setInode_inode_self (e : Entry) (i : ℕ) (b : Bytes) : (e.setInode i b).inode i = b := by simp [setInode]

lemma setInode_content (e : Entry) (i : ℕ) (b : Bytes) (h : e.cache = some i) : (e.setInode i b).content = some b := by
  simp [content, h]

/-- The inode that opening with `O_CREAT | O_TRUNC` gives. -/
lemma openTrunc_cache (e : Entry) : e.openTrunc.2.cache = some e.openTrunc.1 := by
  unfold openTrunc
  cases h : e.cache <;> simp [setInode, h]

lemma openTrunc_inode (e : Entry) : e.openTrunc.2.inode e.openTrunc.1 = [] := by
  unfold openTrunc
  cases e.cache <;> simp [setInode]

@[simp] lemma openTrunc_content (e : Entry) : e.openTrunc.2.content = some [] := by
  rw [content, openTrunc_cache, Option.map_some, openTrunc_inode]

@[simp] lemma openTrunc_last_modified (e : Entry) : e.openTrunc.2.last_modified = e.last_modified := by
  unfold openTrunc
  cases e.cache <;> rfl

@[simp] lemma openTrunc_is_dirty (e : Entry) : e.openTrunc.2.is_dirty = e.is_dirty := by
  unfold openTrunc
  cases e.cache <;> rfl

@[simp] lemma openTrunc_dirty (e : Entry) : e.openTrunc.2.dirty = e.dirty := by simp [dirty]

end Entry

lemma onCache_ok {env : Env} {l : Local Path} {path : Path} {i : ℕ} :
    onCache env l path = .ok i ↔ env.fault = none ∧ (l.entry path).cache = some i := by
  unfold onCache
  cases env.fault <;> cases (l.entry path).cache <;> simp

lemma onCache_error {env : Env} {l : Local Path} {path : Path} {e : Errno} (h : onCache env l path = .error e) :
    env.fault = some e ∨ (l.entry path).cache = none ∧ e = .ENOENT := by
  unfold onCache at h
  cases hf : env.fault <;> cases hc : (l.entry path).cache <;> simp_all

lemma onFile_ok {env : Env} {l : Local Path} {fh : ℕ} {f : Path × ℕ} :
    onFile env l fh = .ok f ↔ env.fault = none ∧ l.file fh = some f := by
  unfold onFile
  cases env.fault <;> cases l.file fh <;> simp

lemma onFile_error {env : Env} {l : Local Path} {fh : ℕ} {e : Errno} (h : onFile env l fh = .error e) :
    env.fault = some e ∨ l.file fh = none ∧ e = .EBADF := by
  unfold onFile at h
  cases hf : env.fault <;> cases hc : l.file fh <;> simp_all

lemma Local.allocate_eq_some {l l' : Local Path} {fd i : ℕ} {path : Path} :
    l.allocate fd path i = some l' ↔
      fd < 2 ^ 31 ∧ l.fds fd = none ∧ l' = { l with fds := Function.update l.fds fd (some (path, i)) } := by
  simp only [allocate, Option.ite_none_right_eq_some, Option.some.injEq, and_assoc, @eq_comm _ l']

variable [DecidableEq Path]

lemma onCreate_ok {env : Env} {l l' : Local Path} {path : Path} {excl : Bool} {i : ℕ}
    (h : onCreate env l path excl = .ok (i, l')) :
    env.fault = none ∧ (excl = true → (l.entry path).cache = none) ∧ i = (l.entry path).openTrunc.1 ∧
      l' = l.modify path fun e => e.openTrunc.2 := by
  unfold onCreate at h
  split at h
  · cases h
  · rename_i hf
    split_ifs at h with he
    cases h
    exact ⟨hf, by simpa using he, rfl, rfl⟩

lemma onCreate_error {env : Env} {l : Local Path} {path : Path} {excl : Bool} {e : Errno}
    (h : onCreate env l path excl = .error e) : env.fault = some e ∨ excl = true ∧ (l.entry path).cache.isSome := by
  unfold onCreate at h
  split at h
  · rename_i hf
    cases h
    exact .inl hf
  · split_ifs at h with he
    exact .inr he

namespace LocalCall

variable {env : Env} {l l' : Local Path} {path : Path}

-- every lemma about a call opens with the equations of `exec`
attribute [local simp] exec

lemma exec_openFile {r : Except Errno ℕ} (h : (openFile path).exec env l = some (r, l')) :
    (∃ i fd, env.fault = none ∧ (l.entry path).cache = some i ∧ fd < 2 ^ 31 ∧ l.fds fd = none ∧ r = .ok fd ∧
      l' = { l with fds := Function.update l.fds fd (some (path, i)) }) ∨
    ∃ e, r = .error e ∧ l' = l ∧ (env.fault = some e ∨ (l.entry path).cache = none) := by
  simp only [exec] at h
  split at h
  · rename_i i hi
    obtain ⟨hfault, hcache⟩ := onCache_ok.mp hi
    obtain ⟨l₁, hl, hr⟩ := Option.map_eq_some_iff.mp h
    cases hr
    obtain ⟨hlt, hfree, rfl⟩ := Local.allocate_eq_some.mp hl
    exact .inl ⟨i, env.fd, hfault, hcache, hlt, hfree, rfl, rfl⟩
  · rename_i e he
    cases h
    exact .inr ⟨e, rfl, rfl, (onCache_error he).imp_right And.left⟩

lemma exec_creat {r : Except Errno ℕ} (h : (creat path).exec env l = some (r, l')) :
    (∃ fd, env.fault = none ∧ fd < 2 ^ 31 ∧ l.fds fd = none ∧ r = .ok fd ∧
      l' = { (l.modify path fun e => e.openTrunc.2) with
        fds := Function.update l.fds fd (some (path, (l.entry path).openTrunc.1)) }) ∨
    ∃ e, r = .error e ∧ l' = l ∧ env.fault = some e := by
  simp only [exec] at h
  split at h
  · rename_i i l₁ hi
    obtain ⟨hfault, -, rfl, rfl⟩ := onCreate_ok hi
    obtain ⟨l₂, hl, hr⟩ := Option.map_eq_some_iff.mp h
    cases hr
    obtain ⟨hlt, hfree, rfl⟩ := Local.allocate_eq_some.mp hl
    exact .inl ⟨env.fd, hfault, hlt, hfree, rfl, rfl⟩
  · rename_i e he
    cases h
    exact .inr ⟨e, rfl, rfl, (onCreate_error he).resolve_right (by simp)⟩

lemma exec_openExcl {r : Except Errno ℕ} (h : (openExcl path).exec env l = some (r, l')) :
    (∃ fd, env.fault = none ∧ (l.entry path).cache = none ∧ fd < 2 ^ 31 ∧ l.fds fd = none ∧ r = .ok fd ∧
      l' = { (l.modify path fun e => e.openTrunc.2) with
        fds := Function.update l.fds fd (some (path, (l.entry path).openTrunc.1)) }) ∨
    ∃ e, r = .error e ∧ l' = l ∧ (env.fault = some e ∨ (l.entry path).cache.isSome) := by
  simp only [exec] at h
  split at h
  · rename_i i l₁ hi
    obtain ⟨hfault, hexcl, rfl, rfl⟩ := onCreate_ok hi
    obtain ⟨l₂, hl, hr⟩ := Option.map_eq_some_iff.mp h
    cases hr
    obtain ⟨hlt, hfree, rfl⟩ := Local.allocate_eq_some.mp hl
    exact .inl ⟨env.fd, hfault, hexcl rfl, hlt, hfree, rfl, rfl⟩
  · rename_i e he
    cases h
    exact .inr ⟨e, rfl, rfl, (onCreate_error he).imp_right And.right⟩

lemma exec_close {fd : ℕ} {r : Except Errno Unit} (h : (close fd).exec env l = some (r, l')) :
    (l.file fd).isSome ∧ r = .ok () ∧ l' = { l with fds := Function.update l.fds (intOf fd).toNat none } ∨
      l.file fd = none ∧ r = .error .EBADF ∧ l' = l := by
  simp only [exec] at h
  split_ifs at h with hfile <;> cases h
  · exact .inl ⟨hfile, rfl, rfl⟩
  · exact .inr ⟨by simpa using hfile, rfl, rfl⟩

lemma exec_unlink {r : Except Errno Unit} (h : (unlink path).exec env l = some (r, l')) :
    (env.fault = none ∧ r = .ok () ∧ l' = l.modify path fun e => { e with cache := none }) ∨
      ∃ e, r = .error e ∧ l' = l ∧ (env.fault = some e ∨ (l.entry path).cache = none) := by
  simp only [exec] at h
  split at h
  · rename_i i hi
    cases h
    exact .inl ⟨(onCache_ok.mp hi).1, rfl, rfl⟩
  · rename_i e he
    cases h
    exact .inr ⟨e, rfl, rfl, (onCache_error he).imp_right And.left⟩

lemma exec_ofstream {r : Option ℕ} (h : (ofstream path).exec env l = some (r, l')) :
    (env.fault = none ∧ r = some (l.entry path).openTrunc.1 ∧ l' = l.modify path fun e => e.openTrunc.2) ∨
      env.fault ≠ none ∧ r = none ∧ l' = l := by
  simp only [exec] at h
  split at h
  · rename_i i l₁ hi
    obtain ⟨hfault, -, rfl, rfl⟩ := onCreate_ok hi
    cases h
    exact .inl ⟨hfault, rfl, rfl⟩
  · rename_i e he
    cases h
    exact .inr ⟨by simp [(onCreate_error he).resolve_right (by simp)], rfl, rfl⟩

lemma exec_ofstreamWrite {i pos : ℕ} {b : Bytes} {r : Bool} (h : (ofstreamWrite path i pos b).exec env l = some (r, l')) :
    (r = true ∧ l' = l.modify path fun e => e.setInode i ((e.inode i).overlay pos b)) ∨
      r = false ∧ l' = l ∧ env.fault ≠ none ∧ b ≠ [] := by
  simp only [exec] at h
  split_ifs at h with hok <;> cases h
  · exact .inl ⟨rfl, rfl⟩
  · exact .inr ⟨rfl, rfl, not_or.mp hok⟩

lemma exec_ifstream {r : Option ℕ} (h : (ifstream path).exec env l = some (r, l')) :
    l' = l ∧ (env.fault = none ∧ r = (l.entry path).cache ∨ r = none ∧ env.fault ≠ none) := by
  simp only [exec] at h
  split at h
  · rename_i i hi
    cases h
    exact ⟨rfl, .inl ⟨(onCache_ok.mp hi).1, (onCache_ok.mp hi).2.symm⟩⟩
  · rename_i e he
    cases h
    refine ⟨rfl, ?_⟩
    by_cases hf : env.fault = none
    · have hc := (onCache_error he).resolve_left (by simp [hf])
      exact .inl ⟨hf, hc.1.symm⟩
    · exact .inr ⟨rfl, hf⟩

lemma exec_ifstreamRead {i pos : ℕ} {r : Option Bytes} (h : (ifstreamRead path i pos).exec env l = some (r, l')) :
    l' = l ∧ (env.fault = none ∧ r = some ((((l.entry path).inode i).drop pos).take BUFSIZE) ∨
      env.fault ≠ none ∧ r = none) := by
  simp only [exec] at h
  split at h
  · rename_i hf
    cases h
    exact ⟨rfl, .inr ⟨by simp [hf], rfl⟩⟩
  · rename_i hf
    cases h
    exact ⟨rfl, .inl ⟨hf, rfl⟩⟩

lemma exec_pwrite {fh offset : ℕ} {buf : Bytes} {r : Except Errno ℕ} (h : (pwrite fh buf offset).exec env l = some (r, l')) :
    (∃ f, env.fault = none ∧ l.file fh = some f ∧ r = .ok buf.length ∧
      l' = l.modify f.1 fun e => e.setInode f.2 ((e.inode f.2).overlay offset buf)) ∨
    ∃ e, r = .error e ∧ l' = l ∧ (env.fault = some e ∨ l.file fh = none) := by
  simp only [exec] at h
  split at h
  · rename_i f hf
    cases h
    exact .inl ⟨f, (onFile_ok.mp hf).1, (onFile_ok.mp hf).2, rfl, rfl⟩
  · rename_i e he
    cases h
    exact .inr ⟨e, rfl, rfl, (onFile_error he).imp_right And.left⟩

/-- The calls that change an entry, and how. -/
inductive Changes : LocalCall Path → Path → (Entry → Entry) → Prop
  | setTime (path : Path) (t : Bytes) : Changes (lastModifiedSet path t) path fun e => { e with last_modified := some t }
  | eraseTime (path : Path) : Changes (lastModifiedErase path) path fun e => { e with last_modified := none }
  | setDirty (path : Path) (d : Bool) : Changes (isDirtySet path d) path fun e => { e with is_dirty := some d }
  | eraseDirty (path : Path) : Changes (isDirtyErase path) path fun e => { e with is_dirty := none }
  | create (path : Path) (c : LocalCall Path) (hc : c = openExcl path ∨ c = creat path ∨ c = ofstream path) :
      Changes c path fun e => e.openTrunc.2
  | remove (path : Path) : Changes (unlink path) path fun e => { e with cache := none }
  | download (path : Path) (i pos : ℕ) (b : Bytes) :
      Changes (ofstreamWrite path i pos b) path fun e => e.setInode i ((e.inode i).overlay pos b)
  | pwrite (path : Path) (i fh offset : ℕ) (buf : Bytes) :
      Changes (pwrite fh buf offset) path fun e => e.setInode i ((e.inode i).overlay offset buf)
  | ftruncate (path : Path) (i fh offset : ℕ) :
      Changes (ftruncate fh offset) path fun e => e.setInode i ((e.inode i).resize offset)
  | truncate (path : Path) (i newsize : ℕ) :
      Changes (truncate path newsize) path fun e => e.setInode i ((e.inode i).resize newsize)

/-- A call changes one entry at most. -/
theorem exec_changes {c : LocalCall Path} {r : c.Answer} (h : c.exec env l = some (r, l')) :
    l'.entry = l.entry ∨ ∃ path f, c.Changes path f ∧ l'.entry = (l.modify path f).entry := by
  cases c with
  | lastModifiedSet q t => cases h; exact .inr ⟨q, _, .setTime q t, rfl⟩
  | lastModifiedErase q => cases h; exact .inr ⟨q, _, .eraseTime q, rfl⟩
  | isDirtySet q d => cases h; exact .inr ⟨q, _, .setDirty q d, rfl⟩
  | isDirtyErase q => cases h; exact .inr ⟨q, _, .eraseDirty q, rfl⟩
  | lastModifiedCount _ | lastModifiedGet _ | isDirtyGet _ => cases h; exact .inl rfl
  | openFile q => rcases exec_openFile h with ⟨i, fd, -, -, -, -, -, rfl⟩ | ⟨e, -, rfl, -⟩ <;> exact .inl rfl
  | openExcl q =>
    rcases exec_openExcl h with ⟨fd, -, -, -, -, -, rfl⟩ | ⟨e, -, rfl, -⟩
    · exact .inr ⟨q, _, .create q _ (.inl rfl), rfl⟩
    · exact .inl rfl
  | creat q =>
    rcases exec_creat h with ⟨fd, -, -, -, -, rfl⟩ | ⟨e, -, rfl, -⟩
    · exact .inr ⟨q, _, .create q _ (.inr (.inl rfl)), rfl⟩
    · exact .inl rfl
  | close fd => rcases exec_close h with ⟨-, -, rfl⟩ | ⟨-, -, rfl⟩ <;> exact .inl rfl
  | unlink q =>
    rcases exec_unlink h with ⟨-, -, rfl⟩ | ⟨e, -, rfl, -⟩
    · exact .inr ⟨q, _, .remove q, rfl⟩
    · exact .inl rfl
  | ofstream q =>
    rcases exec_ofstream h with ⟨-, -, rfl⟩ | ⟨-, -, rfl⟩
    · exact .inr ⟨q, _, .create q _ (.inr (.inr rfl)), rfl⟩
    · exact .inl rfl
  | ofstreamWrite q i pos b =>
    rcases exec_ofstreamWrite h with ⟨-, rfl⟩ | ⟨-, rfl, -⟩
    · exact .inr ⟨q, _, .download q i pos b, rfl⟩
    · exact .inl rfl
  | ifstream q => exact .inl (by rw [(exec_ifstream h).1])
  | ifstreamRead q i pos => exact .inl (by rw [(exec_ifstreamRead h).1])
  | pwrite fh buf offset =>
    rcases exec_pwrite h with ⟨f, -, -, -, rfl⟩ | ⟨e, -, rfl, -⟩
    · exact .inr ⟨f.1, _, .pwrite f.1 f.2 fh offset buf, rfl⟩
    · exact .inl rfl
  | ftruncate fh offset =>
    simp only [exec] at h
    split at h <;> cases h
    · exact .inr ⟨_, _, .ftruncate _ _ fh offset, rfl⟩
    · exact .inl rfl
  | truncate q newsize =>
    simp only [exec] at h
    split at h <;> cases h
    · exact .inr ⟨q, _, .truncate q _ newsize, rfl⟩
    · exact .inl rfl
  | pread _ _ _ | fsync _ =>
    simp only [exec] at h
    split at h <;> cases h <;> exact .inl rfl
  | exit => exact r.elim
  | diverge => exact r.elim

/-- A part of an entry that the changes a call makes leave alone stays as it is. -/
lemma exec_keeps {β : Type} (π : Entry → β) {c : LocalCall Path} {r : c.Answer} (h : c.exec env l = some (r, l'))
    (hπ : ∀ f, c.Changes path f → π (f (l.entry path)) = π (l.entry path)) : π (l'.entry path) = π (l.entry path) := by
  rcases exec_changes h with heq | ⟨q, f, hf, heq⟩
  · rw [heq]
  · rw [heq]
    by_cases hq : path = q
    · subst hq
      rw [Local.modify_entry_self, hπ f hf]
    · rw [Local.modify_entry_ne _ _ hq]

/-- The tables change by their own calls only. -/
lemma exec_last_modified (path : Path) {c : LocalCall Path} {r : c.Answer} (h : c.exec env l = some (r, l'))
    (hset : ∀ t, c ≠ lastModifiedSet path t) (herase : c ≠ lastModifiedErase path) :
    (l'.entry path).last_modified = (l.entry path).last_modified := by
  refine exec_keeps Entry.last_modified h fun f hf => ?_
  cases hf with
  | setTime _ t => exact absurd rfl (hset t)
  | eraseTime => exact absurd rfl herase
  | create => exact Entry.openTrunc_last_modified _
  | _ => rfl

lemma exec_is_dirty (path : Path) {c : LocalCall Path} {r : c.Answer} (h : c.exec env l = some (r, l'))
    (hset : ∀ d, c ≠ isDirtySet path d) (herase : c ≠ isDirtyErase path) :
    (l'.entry path).is_dirty = (l.entry path).is_dirty := by
  refine exec_keeps Entry.is_dirty h fun f hf => ?_
  cases hf with
  | setDirty _ d => exact absurd rfl (hset d)
  | eraseDirty => exact absurd rfl herase
  | create => exact Entry.openTrunc_is_dirty _
  | _ => rfl

end LocalCall

lemma RemoteCall.exec_GetContent {env : Env} {g g' : Remote Path} {path : Path} {r : List MetaContent × Bool}
    (h : (GetContent path).exec env g = some (r, g')) :
    g' = g ∧ (r = (g.getContent path, true) ∨ ∃ n, r = ((g.getContent path).take n, false)) := by
  simp only [exec] at h
  split at h <;> cases h
  · exact ⟨rfl, .inl rfl⟩
  · exact ⟨rfl, .inr ⟨_, rfl⟩⟩

omit [DecidableEq Path] in
/-- Every message of a download has the content's part and the time of one version. -/
lemma Remote.mem_getContent {g : Remote Path} {path : Path} {msg : MetaContent} (h : msg ∈ g.getContent path)
    (hexists : msg.file_exists = true) : ∃ v, g.files path = some v ∧ msg.timestamp = v.mtim := by
  unfold getContent at h
  split at h
  · rename_i v hv
    obtain ⟨b, -, rfl⟩ := List.mem_map.mp h
    exact ⟨v, hv, rfl⟩
  · rw [List.mem_singleton] at h
    rw [h] at hexists
    cases hexists

omit [DecidableEq Path] in
/-- The first message says whether the file exists. -/
lemma Remote.getContent_exists {g : Remote Path} {path : Path} {msg : MetaContent} {msgs : List MetaContent}
    (h : g.getContent path = msg :: msgs) : msg.file_exists = true ↔ g.files path ≠ none := by
  cases hv : g.files path with
  | none =>
    simp only [getContent, hv, List.cons.injEq] at h
    simp [← h.1]
  | some v =>
    have hmem : msg ∈ g.getContent path := by simp [h]
    simp only [getContent, hv] at hmem
    obtain ⟨b, -, rfl⟩ := List.mem_map.mp hmem
    simp

omit [DecidableEq Path] in
/-- The message read last has the time of the current version. -/
lemma Remote.getContent_timestamp {g : Remote Path} {path : Path} {v : Version} (hv : g.files path = some v)
    {msg : MetaContent} {msgs : List MetaContent} (h : g.getContent path = msg :: msgs) :
    (msgs.getLastD msg).timestamp = v.mtim := by
  have hmem : msgs.getLastD msg ∈ g.getContent path := h ▸ List.getLastD_mem_cons
  simp only [getContent, hv] at hmem
  obtain ⟨b, -, hb⟩ := List.mem_map.mp hmem
  rw [← hb]

omit [DecidableEq Path] in
lemma Remote.flatMap_getContent {g : Remote Path} {path : Path} {v : Version} (h : g.files path = some v) :
    (g.getContent path).flatMap MetaContent.b = v.content := by
  simp [getContent, h, List.flatMap_map, List.flatMap_id']

lemma RemoteCall.exec_Write_unbroken {env : Env} {g g' : Remote Path} {path : Path} {chunks : List Bytes} {broken : Bool}
    {reply : Meta} (h : (Write path chunks broken).exec env g = some ((.OK, reply), g')) : broken = false := by
  by_contra hbroken
  have hnone : exec env g (Write path chunks broken) = some ((.UNAVAILABLE, {}), g) := by simp [exec, hbroken]
  rw [hnone] at h
  cases h

/-- A stream that changes the server was complete and is published as one version. -/
lemma RemoteCall.exec_Write {env : Env} {g g' : Remote Path} {path : Path} {chunks : List Bytes} {broken : Bool}
    {r : Status × Meta} (h : (Write path chunks broken).exec env g = some (r, g')) :
    g' = g ∨ broken = false ∧ chunks ≠ [] ∧ ∃ hfresh : g.Fresh env.now,
      g' = g.publish path ⟨chunks.flatten, env.now⟩ hfresh := by
  simp only [exec] at h
  split_ifs at h with h₁ h₂ h₃ h₄ <;> cases h
  all_goals first
    | exact .inl rfl
    | exact .inr ⟨by simpa using (not_or.mp h₁).1, ‹_›, ‹_›, rfl⟩

/-- An upload that is acknowledged was published. -/
lemma RemoteCall.exec_Write_ok {env : Env} {g g' : Remote Path} {path : Path} {chunks : List Bytes} {broken : Bool}
    {reply : Meta} (h : (Write path chunks broken).exec env g = some ((.OK, reply), g')) (hchunks : chunks ≠ []) :
    broken = false ∧ env.outage = .none ∧ ∃ hfresh : g.Fresh env.now,
      g' = g.publish path ⟨chunks.flatten, env.now⟩ hfresh ∧ reply.timestamp = env.now := by
  simp only [exec, if_neg hchunks] at h
  split_ifs at h with h₁ h₂ h₃ <;> cases h
  exact ⟨by simpa using (not_or.mp h₁).1, h₃, h₂, rfl, rfl⟩

lemma machine_disk {env : Env} {c : LocalCall Path} {m m' : Mount Path} {g g' : Remote Path} {r : c.Answer}
    (h : (machine Path).exec env (.disk c) m g = some (r, m', g')) :
    ∃ l', c.exec env m.toLocal = some (r, l') ∧ m' = { m with toLocal := l' } ∧ g' = g := by
  simp only [machine, Call.exec, Option.map_map, Option.map_eq_some_iff, Function.comp_apply, Prod.exists,
    Prod.mk.injEq] at h
  obtain ⟨r', l', hexec, rfl, rfl, rfl⟩ := h
  exact ⟨l', hexec, rfl, rfl⟩

lemma machine_rpc {env : Env} {c : RemoteCall Path} {m m' : Mount Path} {g g' : Remote Path} {r : c.Answer}
    (h : (machine Path).exec env (.rpc c) m g = some (r, m', g')) : c.exec env g = some (r, g') ∧ m' = m := by
  simp only [machine, Call.exec, Option.map_map, Option.map_eq_some_iff, Function.comp_apply, Prod.exists,
    Prod.mk.injEq] at h
  obtain ⟨r', g'', hexec, rfl, rfl, rfl⟩ := h
  exact ⟨hexec, rfl⟩

lemma machine_evolves {env : Env} {c : Call Path} {m m' : Mount Path} {g g' : Remote Path} {r : c.Answer}
    (h : (machine Path).exec env c m g = some (r, m', g')) : g.Evolves g' := by
  cases c with
  | disk c =>
    obtain ⟨l', -, -, rfl⟩ := machine_disk h
    exact .refl g'
  | rpc c => exact RemoteCall.exec_evolves (machine_rpc h).1

/-! ### The calls that a program makes -/

omit [DecidableEq Path] in
lemma calls_disk {α : Type} {P : Call Path → Prop} {c : LocalCall Path} {f : c.Answer → Program Path α} (hc : P (.disk c))
    (h : ∀ r, (f r).Calls P) : (disk c >>= f).Calls P := ⟨hc, h⟩

omit [DecidableEq Path] in
lemma calls_rpc {α : Type} {P : Call Path → Prop} {c : RemoteCall Path} {f : c.Answer → Program Path α} (hc : P (.rpc c))
    (h : ∀ r, (f r).Calls P) : (rpc c >>= f).Calls P := ⟨hc, h⟩

lemma openHandle_calls (path : Path) : (openHandle path).Calls (· = .disk (.openFile path)) := by
  rw [openHandle_eq]
  exact ⟨rfl, fun _ => trivial⟩

omit [DecidableEq Path] in
lemma writeChunks_calls (path : Path) (ofile : Option (ℕ × ℕ)) (msgs : List MetaContent) :
    (writeChunks path ofile msgs).Calls fun c => ∃ i pos b, c = .disk (.ofstreamWrite path i pos b) := by
  induction msgs generalizing ofile with
  | nil => trivial
  | cons msg msgs ih =>
    cases ofile with
    | none => exact ih none
    | some f => exact ⟨⟨_, _, _, rfl⟩, fun good => ih _⟩

omit [DecidableEq Path] in
/-- The calls of an upload look at the cache file and send. -/
lemma upload_calls (path : Path) (i fuel pos : ℕ) (chunks : List Bytes) : (upload path i fuel pos chunks).Calls fun c =>
    c = .disk .diverge ∨ (∃ pos, c = .disk (.ifstreamRead path i pos)) ∨ c = .rpc .writerWrite := by
  induction fuel generalizing pos chunks with
  | zero => exact ⟨.inl rfl, nofun⟩
  | succ fuel ih =>
    refine calls_disk (.inr (.inl ⟨pos, rfl⟩)) fun r => ?_
    cases r with
    | none => trivial
    | some buf =>
      refine calls_rpc (.inr (.inr rfl)) fun sent => ?_
      split_ifs
      · trivial
      · exact ih _ _
      · trivial

/-! ### A call at the head of a program -/

section Rules

variable {ℒ : Prog.Logic (Call Path) Call.Answer Env (Mount Path) (Remote Path)} {α : Type}
  {post : α → Mount Path → Remote Path → Prop} {m : Mount Path} {g : Remote Path}

lemma safe_disk (hℒ : ℒ.exec = (machine Path).exec) {c : LocalCall Path} {k : c.Answer → Program Path α}
    (h : ∀ g', ℒ.rely (some (.disk c)) m g g' → ℒ.inv (some (.disk c)) m g' → ℒ.pre (.disk c) m g' ∧
      ∀ env r l', ℒ.ok env (.disk c) m g' → c.exec env m.toLocal = some (r, l') →
        ℒ.inv (k r).next { m with toLocal := l' } g' ∧ (k r).Safe ℒ post { m with toLocal := l' } g') :
    Prog.Safe ℒ post (.call (.disk c) k) m g := by
  refine fun g' hg hinv => ⟨(h g' hg hinv).1, fun env r m' g'' hok hexec => ?_⟩
  obtain ⟨l', hcall, rfl, rfl⟩ := machine_disk (hℒ ▸ hexec)
  exact (h _ hg hinv).2 env r l' hok hcall

lemma safe_rpc (hℒ : ℒ.exec = (machine Path).exec) {c : RemoteCall Path} {k : c.Answer → Program Path α}
    (h : ∀ g', ℒ.rely (some (.rpc c)) m g g' → ℒ.inv (some (.rpc c)) m g' → ℒ.pre (.rpc c) m g' ∧
      ∀ env r g'', ℒ.ok env (.rpc c) m g' → c.exec env g' = some (r, g'') →
        ℒ.inv (k r).next m g'' ∧ (k r).Safe ℒ post m g'') :
    Prog.Safe ℒ post (.call (.rpc c) k) m g := by
  refine fun g' hg hinv => ⟨(h g' hg hinv).1, fun env r m' g'' hok hexec => ?_⟩
  obtain ⟨hcall, rfl⟩ := machine_rpc (hℒ ▸ hexec)
  exact (h g' hg hinv).2 env r g'' hok hcall

end Rules

end AFSv1.Client
