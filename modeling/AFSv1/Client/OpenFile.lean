import AFSv1.Client.CrashOperations

/-! Between `afs_open` and `afs_release` a file is a file of the client's own disk: whatever the other clients and the
server do, and whatever the client does with other paths, reads return what the client itself wrote last. -/
namespace AFSv1.Client
open Foundations Tables

variable {Path : Type}

/-! ### A file on a disk of one's own -/

/-- What a completed operation does to the bytes `b` of the file at the path that the handles `mine` are open on. What
fails changes nothing. -/
def LocalStep (mine : ℕ → Prop) (path : Path) : Operation Path → Outcome → Bytes → Bytes → Prop
  | .read q fh size offset, out, b, b' => b' = b ∧ (q = path → mine fh → out.rc < 0 ∨
      out = { rc := ((b.drop offset).take size).length, buf := (b.drop offset).take size })
  | .write q buf offset fh, out, b, b' =>
    (q = path ∧ mine fh ∧ out.rc = buf.length ∧ b' = b.overlay offset buf) ∨ b' = b ∧ (q = path → mine fh → out.rc < 0)
  | .ftruncate q offset fh, out, b, b' =>
    (q = path ∧ mine fh ∧ out.rc = 0 ∧ b' = b.resize offset) ∨ b' = b ∧ (q = path → mine fh → out.rc < 0)
  | .truncate q newsize, out, b, b' =>
    (q = path ∧ out.rc = 0 ∧ b' = b.resize newsize) ∨ b' = b ∧ (q = path → out.rc < 0)
  | .open _, _, b, b' | .release _ _ _, _, b, b' | .fsync _ _, _, b, b' | .mknod _, _, b, b'
  | .unlink _, _, b, b' => b' = b

/-- A list of completed operations, in their order. -/
def LocalRun (mine : ℕ → Prop) (path : Path) : List (Operation Path × Option Outcome) → Bytes → Bytes → Prop
  | [], b, b' => b' = b
  | (op, some out) :: calls, b, b' => ∃ b₁, LocalStep mine path op out b b₁ ∧ LocalRun mine path calls b₁ b'
  | (_, none) :: _, _, _ => False

/-- The operations on a file that is open. -/
def Operation.OnOpenFile : Operation Path → Prop
  | .read _ _ _ _ | .write _ _ _ _ | .fsync _ _ | .ftruncate _ _ _ | .truncate _ _ => True
  | .open _ | .release _ _ _ | .mknod _ | .unlink _ => False

variable {mine : ℕ → Prop} {path : Path} {i : ℕ} {b b' : Bytes}

lemma localStep_elsewhere {op : Operation Path} (hop : op.path ≠ path) (out : Outcome) :
    LocalStep mine path op out b b := by
  cases op with
  | read q fh size offset => exact ⟨rfl, fun hq => absurd hq hop⟩
  | write q buf offset fh | ftruncate q offset fh | truncate q newsize => exact .inr ⟨rfl, fun hq => absurd hq hop⟩
  | «open» _ | release _ _ _ | fsync _ _ | mknod _ | unlink _ => rfl

lemma LocalRun.append {calls : List (Operation Path × Option Outcome)} (h : LocalRun mine path calls b b')
    {op : Operation Path} {out : Outcome} {b'' : Bytes} (hstep : LocalStep mine path op out b' b'') :
    LocalRun mine path (calls ++ [(op, some out)]) b b'' := by
  induction calls generalizing b with
  | nil =>
    obtain rfl : b' = b := h
    exact ⟨b'', hstep, rfl⟩
  | cons call calls ih =>
    obtain ⟨op', out' | out'⟩ := call
    · exact h.elim
    · obtain ⟨b₁, hfirst, hrest⟩ := h
      exact ⟨b₁, hfirst, ih hrest⟩

/-! ### The client's file -/

variable [DecidableEq Path] {H : List (Path × ℕ)} {m m' : Mount Path}

/-- The handles of the path are `H`, those that are `mine` are open on the cache file with the inode `i`. -/
structure FileOpen (H : List (Path × ℕ)) (mine : ℕ → Prop) (path : Path) (i : ℕ) (m : Mount Path) : Prop where
  handles : (m.handles.filter fun h => h.1 = path) = H
  files : ∀ h ∈ H, mine h.2 ↔ m.toLocal.file h.2 = some (path, i)
  cache : (m.entry path).cache = some i

lemma FileOpen.mem (h : FileOpen H mine path i m) {fh : ℕ} (hmem : (path, fh) ∈ m.handles) : (path, fh) ∈ H := by
  rw [← h.handles]
  exact List.mem_filter.mpr ⟨hmem, by simp⟩

lemma FileOpen.mem_handles (h : FileOpen H mine path i m) {a : Path × ℕ} (ha : a ∈ H) : a ∈ m.handles := by
  rw [← h.handles] at ha
  exact (List.mem_filter.mp ha).1

/-- Where a handle of the path leads. -/
lemma FileOpen.file (h : FileOpen H mine path i m) (hok : m.HandlesOk) {fh : ℕ} (hmem : (path, fh) ∈ m.handles)
    {f : Path × ℕ} (hf : m.toLocal.file fh = some f) : f.1 = path ∧ (mine fh ↔ f.2 = i) := by
  obtain ⟨q, j⟩ := f
  obtain rfl : q = path := hok.file hmem hf
  refine ⟨rfl, ?_⟩
  rw [h.files _ (h.mem hmem), hf]
  simp

/-- The logic of a file that is open. -/
def openFileLogic (H : List (Path × ℕ)) (mine : ℕ → Prop) (path : Path) (i : ℕ) :
    Prog.Logic (Call Path) Call.Answer Env (Mount Path) (Remote Path) where
  exec := (machine Path).exec
  ok _ c m _ := m.HandlesOk ∧ SparesHandles m c
  rely _ _ _ _ := True
  inv _ m _ := FileOpen H mine path i m
  rely_refl _ _ _ := trivial
  rely_trans _ _ _ _ _ _ _ := trivial
  inv_call _ _ _ := id

section Operations

variable {g : Remote Path} {post : Outcome → Mount Path → Remote Path → Prop}

/-- A call leaves the file open. -/
lemma FileOpen.exec (h : FileOpen H mine path i m) (hok : m.HandlesOk) {env : Env} {c : LocalCall Path} {r : c.Answer}
    {l' : Local Path} (hspares : SparesHandles m (.disk c)) (hexec : c.exec env m.toLocal = some (r, l'))
    (hcache : (l'.entry path).cache = (m.entry path).cache) :
    FileOpen H mine path i { m with toLocal := l' } := by
  refine ⟨h.handles, fun a ha => ?_, hcache.trans h.cache⟩
  have hfile : l'.file a.2 = m.toLocal.file a.2 := (hok.exec hspares hexec).2 a (h.mem_handles ha)
  rw [h.files a ha, ← hfile]

lemma local_disk {c : LocalCall Path} {k : c.Answer → Program Path Outcome}
    (h : ∀ env r l', m.HandlesOk → FileOpen H mine path i m → c.exec env m.toLocal = some (r, l') →
      (l'.entry path).cache = (m.entry path).cache ∧
        ∀ g, (k r).Safe (openFileLogic H mine path i) post { m with toLocal := l' } g) :
    Prog.Safe (openFileLogic H mine path i) post (.call (.disk c) k) m g := by
  refine safe_disk rfl fun g' _ hinv => ⟨trivial, fun env r l' hok hexec => ?_⟩
  obtain ⟨hcache, hsafe⟩ := h env r l' hok.1 hinv hexec
  exact ⟨hinv.exec hok.1 hok.2 hexec hcache, hsafe g'⟩

lemma local_ret {out : Outcome} (h : ∀ g, post out m g) :
    Prog.Safe (openFileLogic H mine path i) post (.ret out) m g := fun g' _ _ => h g'

/-- What an operation on the path has to do with the bytes of the file. -/
abbrev Leaves (mine : ℕ → Prop) (path : Path) (i : ℕ) (op : Operation Path) (b : Bytes) (out : Outcome) (m : Mount Path)
    (_ : Remote Path) : Prop :=
  LocalStep mine path op out b ((m.entry path).inode i)

lemma local_read {fh size offset : ℕ} (hmem : (path, fh) ∈ m.handles) : (afsRead fh size offset).Safe
    (openFileLogic H mine path i) (Leaves mine path i (.read path fh size offset) ((m.entry path).inode i)) m g := by
  refine local_disk fun env r l' hok hs hexec => ?_
  simp only [LocalCall.exec] at hexec
  split at hexec
  · rename_i f hf
    cases hexec
    obtain ⟨hpath, hiff⟩ := hs.file hok hmem (onFile_ok.mp hf).2
    refine ⟨rfl, fun _ => local_ret fun _ => ⟨rfl, fun _ hmine => .inr ?_⟩⟩
    rw [hpath, hiff.mp hmine]
  · rename_i e _
    cases hexec
    refine ⟨rfl, fun _ => local_ret fun _ => ⟨rfl, fun _ _ => .inl ?_⟩⟩
    have hpos := e.number_pos
    simpa using hpos

/-- A change through a handle is one of the file exactly if the handle is open on it. -/
lemma setInode_through {e : Entry} {j fh : ℕ} (hiff : mine fh ↔ j = i) (f : Bytes → Bytes) :
    mine fh ∧ (e.setInode j (f (e.inode j))).inode i = f (e.inode i) ∨
      ¬ mine fh ∧ (e.setInode j (f (e.inode j))).inode i = e.inode i := by
  by_cases hmine : mine fh
  · obtain rfl : j = i := hiff.mp hmine
    exact .inl ⟨hmine, by simp [Entry.setInode]⟩
  · have hne : i ≠ j := fun heq => hmine (hiff.mpr heq.symm)
    exact .inr ⟨hmine, by simp [Entry.setInode, Function.update_of_ne hne]⟩

lemma local_write {buf : Bytes} {offset fh : ℕ} (hmem : (path, fh) ∈ m.handles) : (afsWrite path buf offset fh).Safe
    (openFileLogic H mine path i) (Leaves mine path i (.write path buf offset fh) ((m.entry path).inode i)) m g := by
  refine local_disk fun env r l' _ _ hexec => ?_
  cases hexec
  refine ⟨by simp, fun _ => local_disk fun env r l' hok hs hexec => ?_⟩
  rcases LocalCall.exec_pwrite hexec with ⟨⟨q, j⟩, -, hf, rfl, rfl⟩ | ⟨e, rfl, rfl, -⟩
  · obtain ⟨rfl, hiff⟩ := hs.file hok hmem hf
    refine ⟨by simp [Entry.setInode], fun _ => local_ret fun _ => ?_⟩
    have hchange := setInode_through (e := { m.entry q with is_dirty := some true }) hiff fun b => b.overlay offset buf
    rcases hchange with ⟨hmine, hb⟩ | ⟨hmine, hb⟩
    · exact .inl ⟨rfl, hmine, rfl, by simpa using hb⟩
    · exact .inr ⟨by simpa using hb, fun _ h => absurd h hmine⟩
  · refine ⟨rfl, fun _ => local_ret fun _ => .inr ⟨by simp, fun _ _ => ?_⟩⟩
    have hpos := e.number_pos
    simpa using hpos

lemma failed_neg (e : Errno) : failed (.error e : Except Errno Unit) < 0 := by
  have hpos := e.number_pos
  simpa [failed] using hpos

lemma local_ftruncate {offset fh : ℕ} (hmem : (path, fh) ∈ m.handles) :
    (afsFtruncate offset fh : Program Path Outcome).Safe (openFileLogic H mine path i)
      (Leaves mine path i (.ftruncate path offset fh) ((m.entry path).inode i)) m g := by
  refine local_disk fun env r l' hok hs hexec => ?_
  simp only [LocalCall.exec] at hexec
  split at hexec
  · rename_i f hf
    cases hexec
    obtain ⟨q, j⟩ := f
    obtain ⟨rfl, hiff⟩ := hs.file hok hmem (onFile_ok.mp hf).2
    refine ⟨by simp [Entry.setInode], fun _ => local_ret fun _ => ?_⟩
    have hchange := setInode_through (e := m.entry q) hiff fun b => b.resize offset
    rcases hchange with ⟨hmine, hb⟩ | ⟨hmine, hb⟩
    · exact .inl ⟨rfl, hmine, rfl, by simpa using hb⟩
    · exact .inr ⟨by simpa using hb, fun _ h => absurd h hmine⟩
  · rename_i e _
    cases hexec
    exact ⟨rfl, fun _ => local_ret fun _ => .inr ⟨rfl, fun _ _ => failed_neg e⟩⟩

lemma local_truncate {newsize : ℕ} : (afsTruncate path newsize).Safe (openFileLogic H mine path i)
    (Leaves mine path i (.truncate path newsize) ((m.entry path).inode i)) m g := by
  refine local_disk fun env r l' hok hs hexec => ?_
  simp only [LocalCall.exec] at hexec
  split at hexec
  · rename_i j hj
    cases hexec
    obtain rfl : i = j := Option.some.inj (hs.cache.symm.trans (onCache_ok.mp hj).2)
    refine ⟨by simp [Entry.setInode], fun _ => local_ret fun _ => .inl ⟨rfl, rfl, by simp [Entry.setInode]⟩⟩
  · rename_i e _
    cases hexec
    exact ⟨rfl, fun _ => local_ret fun _ => .inr ⟨rfl, fun _ => failed_neg e⟩⟩

/-- An operation on another path. -/
lemma local_elsewhere {op : Operation Path} (hop : op.path ≠ path)
    (hfile : ∀ fh, op.file = some fh → (op.path, fh) ∈ m.handles) (hs : FileOpen H mine path i m) :
    op.program.Safe (openFileLogic H mine path i) (Leaves mine path i op ((m.entry path).inode i)) m g := by
  have hsafe : op.program.Safe (openFileLogic H mine path i) (fun _ m' _ => FileOpen H mine path i m' ∧
      m'.entry path = m.entry path ∧ m'.handles = m.handles) m g := by
    refine (program_on op).safe (J := fun m' _ => FileOpen H mine path i m' ∧ m'.entry path = m.entry path ∧
      m'.handles = m.handles) (fun _ _ _ _ h _ => h) (fun _ _ _ h => h.1) (fun _ _ _ _ _ => trivial)
        (fun env c m₁ g r m₂ g' hc h hok hexec => ?_) ⟨hs, rfl, rfl⟩
    obtain ⟨hs₁, hentry₁, hhandles₁⟩ := h
    cases c with
    | rpc c => rwa [(machine_rpc hexec).2, and_iff_right hs₁, and_iff_right hentry₁]
    | disk c =>
      obtain ⟨l', hexec', rfl, -⟩ := machine_disk hexec
      have hentry := exec_elsewhere hok.1 hop (by rw [hhandles₁]; exact hfile) hc hexec'
      exact ⟨hs₁.exec hok.1 hok.2 hexec' (by rw [hentry]), hentry.trans hentry₁, hhandles₁⟩
  refine hsafe.mono fun out m' _ _ h => ?_
  rw [Leaves, h.2.1]
  exact localStep_elsewhere hop out

end Operations

/-! ### Runs -/

section Runs

variable {A : Type} [DecidableEq A] {s s' : World A Path} {a : A} {m₀ : Mount Path} {op : Operation Path}
  {c : Call Path} {k : c.Answer → Program Path Outcome}

/-- The client from `m₀` on: what it has done with the file, and what the running operation will have done. -/
structure FileServed (m₀ : Mount Path) (mine : ℕ → Prop) (path : Path) (i : ℕ) (m : Mount Path)
    (running : Option (Operation Path × Program Path Outcome)) : Prop where
  isOpen : FileOpen (m₀.handles.filter fun h => h.1 = path) mine path i m
  allowed : ∀ op p, running = some (op, p) → op.path = path → op.OnOpenFile
  calls : ∃ calls b, m.calls = m₀.calls ++ calls ∧ LocalRun mine path calls ((m₀.entry path).inode i) b ∧
    (running = none → (m.entry path).inode i = b) ∧
      ∀ op p, running = some (op, p) → ∀ g, p.Safe
        (openFileLogic (m₀.handles.filter fun h => h.1 = path) mine path i) (Leaves mine path i op b) m g

/-- The client neither crashes nor opens, releases, creates or unlinks the path. -/
def StaysOpen (a : A) (path : Path) (e : WorldEvent A Path) : Prop :=
  e ≠ .crash a ∧ ∀ op, e = .start a op → op.path = path → op.OnOpenFile

lemma filter_erase {handles : List (Path × ℕ)} {a : Path × ℕ} (ha : a.1 ≠ path) :
    ((handles.erase a).filter fun h => h.1 = path) = handles.filter fun h => h.1 = path := by
  induction handles with
  | nil => rfl
  | cons h handles ih =>
    by_cases heq : h = a
    · subst heq
      simp [ha]
    · rw [List.erase_cons, if_neg (by simpa using heq), List.filter_cons, List.filter_cons, ih]

lemma FileServed.start {m m' : Mount Path} (h : FileServed m₀ mine path i m none) {op : Operation Path}
    (hop : op.path = path → op.OnOpenFile) (hbegin : Mount.begin op m = some m') :
    FileServed m₀ mine path i m' (some (op, op.program)) := by
  obtain ⟨calls, b, hcalls, hrun, hcontent, -⟩ := h.calls
  obtain rfl := hcontent rfl
  have hbegun : FileOpen (m₀.handles.filter fun h => h.1 = path) mine path i m' ∧ m'.entry = m.entry ∧
      m'.calls = m.calls ∧ ∀ fh, op.file = some fh → (op.path, fh) ∈ m'.handles := by
    cases op with
    | release fuel q fh =>
      obtain ⟨-, rfl⟩ := Mount.begin_release hbegin
      have hq : q ≠ path := hop
      have hhandles := (filter_erase (a := (q, fh)) hq).trans h.isOpen.handles
      exact ⟨⟨hhandles, h.isOpen.files, h.isOpen.cache⟩, rfl, rfl, by simp [Operation.file]⟩
    | read _ _ _ _ | write _ _ _ _ | fsync _ _ | ftruncate _ _ _ =>
      obtain ⟨rfl, hmem⟩ := Mount.begin_other hbegin (by simp)
      refine ⟨h.isOpen, rfl, rfl, fun fh hfh => ?_⟩
      cases hfh
      exact hmem _ rfl
    | «open» _ | mknod _ | unlink _ | truncate _ _ =>
      obtain ⟨rfl, -⟩ := Mount.begin_other hbegin (by simp)
      exact ⟨h.isOpen, rfl, rfl, by simp [Operation.file]⟩
  obtain ⟨hopen, hentry, hcalls', hmem⟩ := hbegun
  refine ⟨hopen, fun op' p hp => by cases hp; exact hop, calls, _, hcalls'.trans hcalls, hrun, by simp, ?_⟩
  intro op' p hp g
  cases hp
  rw [← hentry]
  by_cases hpath : op.path = path
  · have hallowed := hop hpath
    cases op with
    | read q fh size offset =>
      obtain rfl : q = path := hpath
      exact local_read (hmem fh rfl)
    | write q buf offset fh =>
      obtain rfl : q = path := hpath
      exact local_write (hmem fh rfl)
    | ftruncate q offset fh =>
      obtain rfl : q = path := hpath
      exact local_ftruncate (hmem fh rfl)
    | truncate q newsize =>
      obtain rfl : q = path := hpath
      exact local_truncate
    | fsync q fh =>
      refine local_disk fun env r l' _ _ hexec => ?_
      obtain rfl : l' = m'.toLocal := by
        simp only [LocalCall.exec] at hexec
        split at hexec <;> cases hexec <;> rfl
      exact ⟨rfl, fun _ => local_ret fun _ => rfl⟩
    | «open» q | release fuel q fh | mknod q | unlink q => exact hallowed.elim
  · exact local_elsewhere hpath hmem hopen

lemma FileServed.call (h : FileServed m₀ mine path i m (some (op, .call c k))) (hok : m.HandlesOk)
    (hspares : SparesHandles m c)
    {env : Env} {g g' : Remote Path} {r : c.Answer} (hexec : (machine Path).exec env c m g = some (r, m', g')) :
    FileServed m₀ mine path i m' (some (op, k r)) := by
  obtain ⟨calls, b, hcalls, hrun, -, hsafe⟩ := h.calls
  have hkeep : m'.calls = m.calls := by
    obtain ⟨x, -, hx⟩ := Option.map_eq_some_iff.mp hexec
    cases hx
    rfl
  have hnext := (hsafe op _ rfl g g trivial h.isOpen).2 env r m' g' ⟨hok, hspares⟩ hexec
  have hallowed := h.allowed op _ rfl
  refine ⟨hnext.1, fun op' p hp => by cases hp; exact hallowed, calls, b, hkeep.trans hcalls, hrun, by simp, ?_⟩
  intro op' p hp g''
  cases hp
  exact hnext.2.rely trivial

/-- The operation has ended, and its outcome is that of an operation on a file of one's own. -/
lemma FileServed.finish {out : Outcome} (h : FileServed m₀ mine path i m (some (op, .ret out))) :
    FileServed m₀ mine path i (Mount.finish op out m) none := by
  obtain ⟨calls, b, hcalls, hrun, -, hsafe⟩ := h.calls
  have hleaves : LocalStep mine path op out b ((m.entry path).inode i) := hsafe op _ rfl .empty .empty trivial h.isOpen
  have hop := h.allowed op _ rfl
  refine ⟨⟨?_, h.isOpen.files, h.isOpen.cache⟩, by simp, calls ++ [(op, some out)], (m.entry path).inode i, ?_,
    hrun.append hleaves, fun _ => rfl, by simp⟩
  · rw [← h.isOpen.handles]
    cases op with
    | «open» q =>
      have hq : q ≠ path := hop
      simp only [Mount.finish]
      split_ifs
      · simp [hq]
      · rfl
    | _ => rfl
  · rw [← List.append_assoc, ← hcalls]
    rfl

/-- One event at the client or elsewhere. -/
theorem FileServed.step (hall : OpenHandles s) (h : FileServed m₀ mine path i (s.locals a) (s.running a))
    {e : WorldEvent A Path} (he : StaysOpen a path e) (hs : s.step (machine Path) e = some s') :
    FileServed m₀ mine path i (s'.locals a) (s'.running a) := by
  by_cases hagent : e.agent = a
  · obtain ⟨hok, hspares⟩ := hall a
    cases e with
    | start b op =>
      obtain rfl : b = a := hagent
      simp only [System.step] at hs
      split at hs
      · rename_i hidle
        obtain ⟨m, hm, rfl⟩ := Option.map_eq_some_iff.mp hs
        rw [hidle] at h
        simpa [System.become, machine] using h.start (he.2 op rfl) hm
      · cases hs
    | call b env =>
      obtain rfl : b = a := hagent
      simp only [System.step] at hs
      split at hs
      · rename_i op c k hrunning
        obtain ⟨⟨r, m, g⟩, hexec, rfl⟩ := Option.map_eq_some_iff.mp hs
        rw [hrunning] at h
        have hnext : s.next b = some c := by rw [System.next, hrunning]; rfl
        simpa [System.become] using h.call hok (hspares c hnext) hexec
      · cases hs
    | finish b =>
      obtain rfl : b = a := hagent
      simp only [System.step] at hs
      split at hs
      · rename_i op out hrunning
        cases hs
        rw [hrunning] at h
        simpa [System.become, machine] using h.finish
      · cases hs
    | crash b =>
      obtain rfl : b = a := hagent
      exact absurd rfl he.1
  · have hrun : s.run (machine Path) [e] = some s' := by rw [System.run, hs]; rfl
    obtain ⟨hlocals, hrunning⟩ := System.run_others (a := a) (by simpa using hagent) hrun
    rwa [hlocals, hrunning]

lemma FileServed.run {g : Remote Path} {es es' : List (WorldEvent A Path)}
    (hrun : (World.start A g).run (machine Path) es = some s)
    (h : FileServed m₀ mine path i (s.locals a) (s.running a)) (hes' : ∀ e ∈ es', StaysOpen a path e)
    (hrun' : s.run (machine Path) es' = some s') : FileServed m₀ mine path i (s'.locals a) (s'.running a) := by
  induction es' generalizing s es with
  | nil =>
    cases hrun'
    exact h
  | cons e es' ih =>
    rw [System.run] at hrun'
    obtain ⟨s₁, hstep, hrest⟩ := Option.bind_eq_some_iff.mp hrun'
    have hrun₁ : (World.start A g).run (machine Path) (es ++ [e]) = some s₁ := by
      rw [System.run_append, hrun, Option.bind_some, System.run, hstep]
      rfl
    have hserved := h.step (openHandles_of_run hrun) (hes' e List.mem_cons_self) hstep
    exact ih hrun₁ hserved (fun e he => hes' e (List.mem_cons_of_mem _ he)) hrest

/-- While a file stays open at a client, whatever the other clients do and the client does elsewhere, its handles lead to
the same inode, and the operations on it return and leave what they would on a disk of the client's own. -/
theorem openFile_local (g : Remote Path) (es es' : List (WorldEvent A Path)) (s s' : World A Path) (a : A) (path : Path)
    (i : ℕ) (hrun : (World.start A g).run (machine Path) es = some s) (hidle : s.running a = none)
    (hcache : ((s.locals a).entry path).cache = some i) (hes' : ∀ e ∈ es', StaysOpen a path e)
    (hrun' : s.run (machine Path) es' = some s') :
    (∀ fh, (path, fh) ∈ (s.locals a).handles → (s.locals a).toLocal.file fh = some (path, i) →
      (path, fh) ∈ (s'.locals a).handles ∧ (s'.locals a).toLocal.file fh = some (path, i)) ∧
    (s'.running a = none → ∃ calls, (s'.locals a).calls = (s.locals a).calls ++ calls ∧
      LocalRun (fun fh => (s.locals a).toLocal.file fh = some (path, i)) path calls
        (((s.locals a).entry path).inode i) (((s'.locals a).entry path).inode i)) := by
  have hserved : FileServed (s.locals a) (fun fh => (s.locals a).toLocal.file fh = some (path, i)) path i (s'.locals a)
      (s'.running a) := by
    have hstart : FileServed (s.locals a) (fun fh => (s.locals a).toLocal.file fh = some (path, i)) path i (s.locals a)
        (s.running a) := by
      rw [hidle]
      exact ⟨⟨rfl, fun _ _ => Iff.rfl, hcache⟩, by simp, [], _, by simp, rfl, fun _ => rfl, by simp⟩
    exact hstart.run hrun hes' hrun'
  refine ⟨fun fh hmem hfile => ?_, fun hidle' => ?_⟩
  · have hin : (path, fh) ∈ (s.locals a).handles.filter fun h => h.1 = path := List.mem_filter.mpr ⟨hmem, by simp⟩
    exact ⟨hserved.isOpen.mem_handles hin, (hserved.isOpen.files _ hin).mp hfile⟩
  · obtain ⟨calls, b, hcalls, hlocal, hcontent, -⟩ := hserved.calls
    rw [hcontent hidle']
    exact ⟨calls, hcalls, hlocal⟩

end Runs

/-! ### An upload behind the open file -/

/-- One client opens a new file. -/
def openedFile : List (WorldEvent Bool Unit) := session false (.open ()) (quiet 7 1)

/-- While it is writing to the file, the other client uploads another content. -/
def behindOpenFile : List (WorldEvent Bool Unit) := List.flatten [
  [.start false (.write () (Bytes.ascii "x") 1 3), .call false { fd := 3, now := .uniform 1 }],
  session true (.open ()) (quiet 7 2), session true (.write () (Bytes.ascii "other") 0 3) (quiet 2 2),
  session true (.release 1 () 3) (quiet 8 2),
  [.call false { fd := 3, now := .uniform 3 }, .finish false], session false (.read () 3 2 0) (quiet 1 3)]

theorem openFile_local_behindOpenFile :
    ∃ s s', (World.start Bool .empty).run (machine Unit) openedFile = some s ∧
      s.run (machine Unit) behindOpenFile = some s' ∧ s'.shared.files () = some ⟨Bytes.ascii "other", .uniform 2⟩ ∧
      ∃ calls, (s'.locals false).calls = (s.locals false).calls ++ calls ∧
        LocalRun (fun fh => (s.locals false).toLocal.file fh = some ((), 0)) () calls
          (((s.locals false).entry ()).inode 0) (((s'.locals false).entry ()).inode 0) := by
  have hfirst : ∃ s, (World.start Bool .empty).run (machine Unit) openedFile = some s ∧ s.running false = none ∧
      ((s.locals false).entry ()).cache = some 0 ∧ ∃ s', s.run (machine Unit) behindOpenFile = some s' ∧
        s'.running false = none ∧ s'.shared.files () = some ⟨Bytes.ascii "other", .uniform 2⟩ := by
    decide +kernel
  obtain ⟨s, hs, hidle, hcache, s', hs', hidle', hfiles⟩ := hfirst
  have hstays : ∀ e ∈ behindOpenFile, StaysOpen false () e := by
    simp [behindOpenFile, session, quiet, StaysOpen, Operation.OnOpenFile]
  obtain ⟨-, hlocal⟩ := openFile_local .empty openedFile behindOpenFile s s' false () 0 hs hidle hcache hstays hs'
  exact ⟨s, s', hs, hs', hfiles, hlocal hidle'⟩

end AFSv1.Client
