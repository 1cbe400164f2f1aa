import AFSv1.Client.CrashConsistency
import AFSv1.Client.Upload

/-! The operations on the path keep it consistent, and the other operations do not touch it. -/
namespace AFSv1.Client
open Foundations Tables

variable {Path : Type} [DecidableEq Path] {path : Path} {m : Mount Path} {d : Diary Path} {g : Remote Path}

lemma Diary.pending_eq_none {op : Operation Path} (hcurrent : d.current = some op) (hop : op.writes path = none) :
    d.pending path = none := by simp [pending, hcurrent, hop]

/-! ### Opening -/

/-- What `afs_open` leaves behind: a usable cache file, and a handle of it unless the local open failed. -/
def OpenLeaves (path : Path) (out : Outcome) (l : Mount Path × Diary Path) (g : Remote Path) : Prop :=
  l.2.current = some (.open path) ∧ (out.rc = 0 → l.1.NoHandle path ∧ (l.1.entry path).UpToDate (g.files path) ∧
    ∀ i, l.1.toLocal.file out.fh = some (path, i) → (l.1.entry path).cache = some i)

lemma recovery_openHandle (hcurrent : d.current = some (.open path)) (hno : m.NoHandle path)
    (hup : (m.entry path).UpToDate (g.files path)) :
    (openHandle path).Safe (recoveryLogic path) (OpenLeaves path) (m, d) g := by
  rw [openHandle_eq]
  refine recovery_keep nofun nofun (fun _ => rfl) (fun env r l' hexec => ?_) fun g' env r l' hg _ _ hexec => ?_
  · rcases LocalCall.exec_openFile hexec with ⟨i, fd, -, -, -, -, -, rfl⟩ | ⟨e, -, rfl, -⟩ <;> rfl
  · refine recovery_ret fun g'' hg' _ => ⟨hcurrent, fun _ => ?_⟩
    rw [hg', hg]
    rcases LocalCall.exec_openFile hexec with ⟨i, fd, -, hcache, hlt, -, rfl, rfl⟩ | ⟨e, rfl, rfl, -⟩
    · refine ⟨hno, hup, fun j hj => ?_⟩
      simp only [returned, fhOf_natCast hlt] at hj
      rw [Local.file_of_lt _ hlt] at hj
      simp only [Function.update_self, Option.some.injEq, Prod.mk.injEq, true_and] at hj
      exact hj ▸ hcache
    · refine ⟨hno, hup, fun j hj => ?_⟩
      rw [show fhOf (returned (.error e)) = badHandle from rfl, Local.file_badHandle] at hj
      cases hj

/-- The end of a download: the time of the server's version is recorded, and the file is clean. -/
lemma recovery_settle {v : Version} (hcurrent : d.current = some (.open path)) (hno : m.NoHandle path)
    (hfiles : g.files path = some v) (hcontents : d.contents = [v.content])
    (hcontent : ∀ b, (m.entry path).content = some b → b = v.content) :
    (Prog.call (.disk (.lastModifiedSet path v.mtim)) fun _ => .call (.disk (.isDirtySet path false)) fun _ =>
      openHandle path : Program Path Outcome).Safe (recoveryLogic path) (OpenLeaves path) (m, d) g := by
  have hpossible : d.possible path = [v.content] := by
    rw [Diary.possible_of_none (Diary.pending_eq_none hcurrent rfl), hcontents]
  have hheld : Holding (some v) (d.possible path) := ⟨v, rfl, by simp [hpossible]⟩
  have hcached : ∀ b, (m.entry path).content = some b → b ∈ d.possible path := by
    intro b hb
    simpa [hpossible] using hcontent b hb
  rw [← hfiles] at hheld
  refine recovery_modify (fun e => { e with last_modified := some (v.mtim : Bytes) }) (by simp) hno (fun _ => rfl)
    (fun _ _ _ _ h => by cases h; rfl) (fun r _ => ?_) (.inl rfl) fun g₁ env r hg₁ _ _ => ?_
  · exact ⟨fun _ _ _ => hheld.ne_none, (by simp), fun _ => hcached, fun _ _ => hheld, fun _ => .inr (.inr ⟨rfl, hheld⟩)⟩
  · have hup : Entry.UpToDate { m.entry path with last_modified := some (v.mtim : Bytes), is_dirty := some false }
        (g.files path) := .inr ⟨v, hfiles, rfl⟩
    rw [← hg₁] at hheld hup
    refine recovery_modify (fun e => { e with is_dirty := some false }) (by simp) hno (fun _ => rfl)
      (fun _ _ _ _ h => by cases h; rfl) (fun r h => ?_) (.inr rfl) fun g₂ env r hg₂ _ _ => ?_
    · refine Entry.accounted_of_clean (fun _ _ _ => hheld.ne_none) (fun hnone => ?_) (fun _ b hb => ?_) (fun _ => hheld) rfl
      · simp at hnone
      · exact hcached b (by simpa [Entry.content] using hb)
    · refine recovery_openHandle hcurrent hno ?_
      rw [hg₂]
      simpa using hup

/-- While no time is recorded, the messages of a download go into the cache file. -/
lemma recovery_writeChunks (i : ℕ) (msgs : List MetaContent) (b : Bytes) (hno : m.NoHandle path)
    (hheld : Holding (g.files path) (d.possible path)) (hnone : (m.entry path).last_modified = none)
    (hcache : (m.entry path).cache = some i) (hinode : (m.entry path).inode i = b) :
    (writeChunks path (some (i, b.length)) msgs).Safe (recoveryLogic path) (fun _ l g' => l.2 = d ∧ l.1.NoHandle path ∧
      g'.files path = g.files path ∧ (l.1.entry path).content = some (b ++ msgs.flatMap MetaContent.b)) (m, d) g := by
  induction msgs generalizing m g b with
  | nil => exact recovery_ret fun g' hg _ => ⟨rfl, hno, hg, by simp [Entry.content, hcache, hinode]⟩
  | cons msg msgs ih =>
    refine recovery_modify (fun e => e.setInode i ((e.inode i).overlay b.length msg.b)) (by simp) hno (fun _ => rfl)
      (fun env r l' hok hexec => ?_) (fun r _ => ?_) (.inl rfl) fun g₁ env r hg₁ hok hexec => ?_
    · rcases LocalCall.exec_ofstreamWrite hexec with ⟨-, rfl⟩ | ⟨-, -, hfault, -⟩
      · rfl
      · exact absurd (hok.resolve_right id) hfault
    · exact Entry.accounted_of_none hnone (fun _ => hheld) fun h => absurd h hheld.ne_none
    · rcases LocalCall.exec_ofstreamWrite hexec with ⟨rfl, -⟩ | ⟨-, -, hfault, -⟩
      · have hrest := @ih (m.modify path fun e => e.setInode i ((e.inode i).overlay b.length msg.b)) g₁ (b ++ msg.b) hno
          (hg₁ ▸ hheld) (by simpa using hnone) (by simpa using hcache) (by simp [hinode, Bytes.overlay_append])
        rw [List.length_append, List.append_assoc, hg₁] at hrest
        exact hrest
      · exact absurd (hok.resolve_right id) hfault

/-- A local file that the server does not have: clean, unwritten and empty. -/
structure Blank (path : Path) (m : Mount Path) (d : Diary Path) : Prop where
  current : d.current = some (.open path)
  noHandle : m.NoHandle path
  contents : d.contents = [[]]
  wrote : d.wrote = false
  dirty : (m.entry path).dirty = false
  empty : ∀ b, (m.entry path).content = some b → b = []

lemma Blank.accounted {next : Option (Call Path)} {e : Entry} {S : Option Version} (h : Blank path m d)
    (hlocal : e.last_modified = some localCreatFile) (hdirty : e.dirty = false) (hempty : ∀ b, e.content = some b → b = []) :
    e.Accounted next path (d.possible path) d.wrote S := by
  refine Entry.accounted_of_clean (fun t ht hne => ?_) (fun hnone => ?_) (fun _ b hb => ?_) (fun hwrote => ?_) hdirty
  · rw [hlocal] at ht
    exact absurd (Option.some.inj ht).symm hne
  · simp [hlocal] at hnone
  · rw [Diary.possible_of_none (Diary.pending_eq_none h.current rfl), h.contents]
    simp [hempty b hb]
  · simp [h.wrote] at hwrote

lemma recovery_createLocal (h : Blank path m d) :
    (do
      disk (.lastModifiedSet path localCreatFile)
      let fd ← disk (.creat path)
      let _ ← disk (.close (fhOf (returned fd)))
      disk (.isDirtySet path false)
      openHandle path : Program Path Outcome).Safe (recoveryLogic path) (OpenLeaves path) (m, d) g := by
  refine recovery_modify (fun e => { e with last_modified := some localCreatFile }) (by simp) h.noHandle (fun _ => rfl)
    (fun _ _ _ _ hexec => by cases hexec; rfl) (fun r _ => ?_) (.inl rfl) fun g₁ env r hg₁ _ _ => ?_
  · exact h.accounted rfl h.dirty h.empty
  set m₁ := m.modify path fun e => { e with last_modified := some localCreatFile } with hm₁
  have hlocal₁ : (m₁.entry path).last_modified = some localCreatFile := by simp [hm₁]
  have h₁ : Blank path m₁ d :=
    ⟨h.current, h.noHandle, h.contents, h.wrote, by simpa [hm₁, Entry.dirty] using h.dirty, by simpa [hm₁, Entry.content] using h.empty⟩
  have hrest {m : Mount Path} {g : Remote Path} {r : Except Errno ℕ} (h : Blank path m d)
      (hlocal : (m.entry path).last_modified = some localCreatFile) :
      (do
        let _ ← disk (.close (fhOf (returned r)))
        disk (.isDirtySet path false)
        openHandle path : Program Path Outcome).Safe (recoveryLogic path) (OpenLeaves path) (m, d) g := by
    refine recovery_keep (by simp) (by simp) (fun _ => rfl) (fun env r l' hexec => ?_) fun g' env r l' hg _ _ hexec => ?_
    · rcases LocalCall.exec_close hexec with ⟨-, -, rfl⟩ | ⟨-, -, rfl⟩ <;> rfl
    · have hentry : l'.entry = m.entry := by
        rcases LocalCall.exec_close hexec with ⟨-, -, rfl⟩ | ⟨-, -, rfl⟩ <;> rfl
      refine recovery_modify (fun e => { e with is_dirty := some false }) (by simp) h.noHandle (fun _ => rfl)
        (fun _ _ _ _ hexec => by cases hexec; rfl) (fun r _ => ?_) (.inr rfl)
        fun g₂ env r hg₂ _ _ => recovery_openHandle h.current h.noHandle (.inl ?_)
      · rw [hentry]
        exact h.accounted hlocal rfl (by simpa [Entry.content] using h.empty)
      · simpa [hentry] using hlocal
  refine recovery_disk (by simp) fun g₂ env r l₂ hg₂ hinv₂ hok hhandles hfile hexec => ?_
  rcases LocalCall.exec_creat hexec with ⟨fd, -, -, -, rfl, rfl⟩ | ⟨e, rfl, rfl, -⟩
  · set m₂ : Mount Path := { m₁ with
      toLocal := { (m₁.toLocal.modify path fun e => e.openTrunc.2) with
        fds := Function.update m₁.fds fd (some (path, (m₁.entry path).openTrunc.1)) } } with hm₂
    have hlocal₂ : (m₂.entry path).last_modified = some localCreatFile := by simpa [hm₂] using hlocal₁
    have hdirty₂ : (m₂.entry path).dirty = (m₁.entry path).dirty := by simp [hm₂]
    have h₂ : Blank path m₂ d :=
      ⟨h.current, h.noHandle, h.contents, h.wrote, hdirty₂.trans h₁.dirty, by simp [hm₂, eq_comm]⟩
    refine ⟨⟨h₂.accounted hlocal₂ h₂.dirty h₂.empty, h₂.noHandle.right _, ?_⟩, hrest h₂ hlocal₂⟩
    rw [hdirty₂]
    exact hinv₂.returning
  · exact ⟨hinv₂.before (by simp) _, hrest h₁ hlocal₁⟩

/-- What a download is in the diary. -/
lemma Diary.call_getContent (d : Diary Path) (g : Remote Path) : d.call path (.rpc (.GetContent path)) (g.getContent path, true) =
    { d with contents := [((g.files path).map Version.content).getD []] } := by
  simp only [Diary.call, if_pos]
  cases hfiles : g.files path with
  | none => simp [Remote.getContent, hfiles, received]
  | some v =>
    obtain ⟨msg, msgs, hcons⟩ : ∃ msg msgs, g.getContent path = msg :: msgs := by
      apply List.exists_cons_of_ne_nil
      simp [Remote.getContent, hfiles, Bytes.blocks_ne_nil]
    have hexists : msg.file_exists = true := (Remote.getContent_exists hcons).mpr (by simp [hfiles])
    have hbytes := Remote.flatMap_getContent hfiles
    rw [hcons] at hbytes ⊢
    simp [received, hexists, ← hbytes]

/-- The server's version has arrived, but its time is not recorded yet. -/
structure Fetched (path : Path) (v : Version) (m : Mount Path) (d : Diary Path) : Prop where
  current : d.current = some (.open path)
  noHandle : m.NoHandle path
  contents : d.contents = [v.content]
  none : (m.entry path).last_modified = none

lemma Fetched.holding {v : Version} (h : Fetched path v m d) : Holding (some v) (d.possible path) := by
  rw [Diary.possible_of_none (Diary.pending_eq_none h.current rfl), h.contents]
  exact ⟨v, rfl, by simp⟩

lemma Fetched.consistent {v : Version} (h : Fetched path v m d) (hfiles : g.files path = some v)
    (hreturning : d.Returning path (m.entry path).dirty) (next : Option (Call Path)) : Consistent path next m d g := by
  refine ⟨?_, h.noHandle.right _, hreturning⟩
  rw [hfiles]
  exact Entry.accounted_of_none h.none (fun _ => h.holding) nofun

/-- While no time is recorded, the server has what a download may replace. -/
lemma Consistent.needed (h : Consistent path none m d g) (hcurrent : d.current = some (.open path))
    (hnone : (m.entry path).last_modified = none) (hneeded : (m.entry path).dirty = true ∨ d.wrote = true) :
    ∃ v, g.files path = some v ∧ v.content ∈ d.contents := by
  have hheld := h.accounted.holding (Entry.not_upToDate_of_none hnone) hneeded
  rwa [Diary.possible_of_none (Diary.pending_eq_none hcurrent rfl)] at hheld

lemma Consistent.returning_download (h : Consistent path none m d g) (hcurrent : d.current = some (.open path))
    (hnone : (m.entry path).last_modified = none) :
    Diary.Returning path { d with contents := [((g.files path).map Version.content).getD []] } (m.entry path).dirty := by
  refine ⟨h.returning.pending, fun hstage hwrote b hb => ?_, h.returning.recovered⟩
  obtain ⟨v, hv, hmem⟩ := h.needed hcurrent hnone (.inr hwrote)
  obtain rfl : b = v.content := by simpa [hv] using hb
  exact h.returning.atCrash hstage hwrote _ hmem

/-- The cache file is filled; if it could not be created, nothing is written. -/
lemma recovery_fill {v : Version} {msg : MetaContent} {msgs : List MetaContent} (h : Fetched path v m d)
    (hfiles : g.files path = some v) (hbytes : (msg :: msgs).flatMap MetaContent.b = v.content)
    (htime : (msgs.getLastD msg).timestamp = v.mtim) :
    (do
      let ofile ← disk (.ofstream path)
      writeChunks path (ofile.map fun i => (i, 0)) (msg :: msgs)
      if true then
        disk (.lastModifiedSet path (msgs.getLastD msg).timestamp)
        disk (.isDirtySet path false)
        openHandle path
      else return { rc := - Errno.EIO.number } : Program Path Outcome).Safe (recoveryLogic path) (OpenLeaves path)
        (m, d) g := by
  rw [htime]
  refine recovery_disk nofun fun g₁ env r l₁ hg₁ hinv₁ hok _ _ hexec => ?_
  rw [hfiles] at hg₁
  change _ ∧ Prog.Safe _ _ (writeChunks path _ (msg :: msgs) >>= _) (_, d) g₁
  rcases LocalCall.exec_ofstream hexec with ⟨-, rfl, rfl⟩ | ⟨hfault, rfl, rfl⟩
  · set m₁ : Mount Path := m.modify path fun e => e.openTrunc.2 with hm₁
    have h₁ : Fetched path v m₁ d := ⟨h.current, h.noHandle, h.contents, by simpa [hm₁] using h.none⟩
    have hdirty₁ : (m₁.entry path).dirty = (m.entry path).dirty := by simp [hm₁]
    have hinv (next : Option (Call Path)) : Consistent path next m₁ d g₁ :=
      h₁.consistent hg₁ (hdirty₁ ▸ hinv₁.returning) next
    refine ⟨hinv _, Prog.Safe.bind (hinv _) ?_⟩
    have hwrite := recovery_writeChunks (m.entry path).openTrunc.1 (msg :: msgs) [] h₁.noHandle (hg₁ ▸ h₁.holding) h₁.none
      (by simp [hm₁, Entry.openTrunc_cache]) (by simp [hm₁, Entry.openTrunc_inode])
    refine hwrite.mono fun _ l₂ g₂ _ h₂ => ?_
    obtain ⟨m₂, d₂⟩ := l₂
    obtain ⟨rfl, hno₂, hg₂, hcontent₂⟩ := h₂
    rw [hbytes, List.nil_append] at hcontent₂
    refine recovery_settle h₁.current hno₂ (hg₂.trans hg₁) h₁.contents fun b hb => ?_
    rw [hcontent₂, Option.some.injEq] at hb
    exact hb.symm
  · have hcache : (m.entry path).cache = none := hok.resolve_left hfault
    refine ⟨h.consistent hg₁ hinv₁.returning _, ?_⟩
    rw [Option.map_none, writeChunks_none]
    exact recovery_settle h.current h.noHandle hg₁ h.contents fun b hb => by simp [Entry.content, hcache] at hb

lemma recovery_download (hcurrent : d.current = some (.open path)) (hno : m.NoHandle path)
    (hnone : (m.entry path).last_modified = none) :
    (download path).Safe (recoveryLogic path) (OpenLeaves path) (m, d) g := by
  refine recovery_rpc fun g₁ env r g₁' _ hinv hsuccess hexec => ?_
  obtain ⟨rfl, rfl⟩ : r = (g₁.getContent path, true) ∧ g₁' = g₁ := by
    simp only [RemoteCall.exec, hsuccess.2, Option.some.injEq, Prod.mk.injEq] at hexec
    exact ⟨hexec.1.symm, hexec.2.symm⟩
  have hreturning := hinv.returning_download hcurrent hnone
  have hneeded := hinv.needed hcurrent hnone
  rw [Diary.call_getContent]
  cases hfiles : g₁'.files path with
  | none =>
    have hunneeded : ¬ ((m.entry path).dirty = true ∨ d.wrote = true) := by
      intro h
      obtain ⟨v, hv, -⟩ := hneeded h
      simp [hfiles] at hv
    have hempty := hinv.accounted.created hnone hfiles
    have hblank : Blank path m { d with contents := [((none : Option Version).map Version.content).getD []] } :=
      ⟨hcurrent, hno, rfl, by simpa using mt Or.inr hunneeded, by simpa using mt Or.inl hunneeded, hempty⟩
    rw [hfiles] at hreturning
    have haccounted {next : Option (Call Path)} {cs : List Bytes} :
        (m.entry path).Accounted next path cs d.wrote (g₁'.files path) :=
      Entry.accounted_of_none hnone (fun h => absurd h hunneeded) fun _ => hempty
    refine ⟨⟨haccounted, hno.right _, hreturning⟩, ?_⟩
    simp only [Remote.getContent, hfiles]
    exact recovery_createLocal hblank
  | some v =>
    obtain ⟨msg, msgs, hcons⟩ : ∃ msg msgs, g₁'.getContent path = msg :: msgs := by
      apply List.exists_cons_of_ne_nil
      simp [Remote.getContent, hfiles, Bytes.blocks_ne_nil]
    have hexists : msg.file_exists = true := (Remote.getContent_exists hcons).mpr (by simp [hfiles])
    have hbytes := Remote.flatMap_getContent hfiles
    have htime := Remote.getContent_timestamp hfiles hcons
    have hfetched : Fetched path v m { d with contents := [((some v).map Version.content).getD []] } :=
      ⟨hcurrent, hno, rfl, hnone⟩
    rw [hfiles] at hreturning
    rw [hcons] at hbytes ⊢
    refine ⟨hfetched.consistent hfiles hreturning _, ?_⟩
    dsimp only [Prog.bind]
    rw [if_pos hexists]
    exact recovery_fill hfetched hfiles hbytes htime

/-- An outdated cache file is thrown away. -/
lemma recovery_discard (hcurrent : d.current = some (.open path)) (hno : m.NoHandle path)
    (hnone : (m.entry path).last_modified = none) :
    (do
      let _ ← disk (.unlink path)
      download path : Program Path Outcome).Safe (recoveryLogic path) (OpenLeaves path) (m, d) g := by
  refine recovery_disk (by simp) fun g₁ env r l₁ _ hinv _ _ _ hexec => ?_
  rcases LocalCall.exec_unlink hexec with ⟨-, -, rfl⟩ | ⟨e, -, rfl, -⟩
  · set m₁ : Mount Path := m.modify path fun e => { e with cache := none } with hm₁
    have hno₁ : m₁.NoHandle path := hno
    have hnone₁ : (m₁.entry path).last_modified = none := by simpa [hm₁] using hnone
    have hdirty₁ : (m₁.entry path).dirty = (m.entry path).dirty := by simp [hm₁, Entry.dirty]
    have hheld := hinv.accounted.holding (Entry.not_upToDate_of_none hnone)
    refine ⟨⟨?_, hno₁.right _, hdirty₁ ▸ hinv.returning⟩, recovery_download hcurrent hno₁ hnone₁⟩
    exact Entry.accounted_of_none hnone₁ (hdirty₁ ▸ hheld) fun _ b hb => by simp [Entry.content] at hb
  · exact ⟨hinv.before (by simp) _, recovery_download hcurrent hno hnone⟩

theorem recovery_afsOpen (hcurrent : d.current = some (.open path)) (hno : m.NoHandle path) :
    (afsOpen path).Safe (recoveryLogic path) (OpenLeaves path) (m, d) g := by
  refine recovery_keep (by simp) (by simp) (fun _ => rfl) (fun _ _ _ hexec => by cases hexec; rfl) fun g₁ env count l₁ hg₁ _ _ hexec => ?_
  cases hexec
  dsimp only [Prog.bind]
  cases hlast : (m.entry path).last_modified with
  | none =>
    rw [if_neg (by simp)]
    exact recovery_download hcurrent hno hlast
  | some t =>
    rw [if_pos (by simp)]
    refine recovery_keep (by simp) (by simp) (fun _ => rfl) (fun _ _ _ hexec => by cases hexec; rfl)
      fun g₂ env t' l₂ hg₂ _ _ hexec => ?_
    cases hexec
    dsimp only [Prog.bind]
    rw [hlast, Option.getD_some]
    by_cases hlocal : t = localCreatFile
    · rw [if_pos hlocal]
      exact recovery_openHandle hcurrent hno (.inl (hlocal ▸ hlast))
    · rw [if_neg hlocal]
      refine recovery_rpc fun g₃ env stat_content g₃' hg₃ hinv₃ hsuccess hexec => ?_
      obtain ⟨rfl, rfl⟩ : stat_content = g₃.stat path ∧ g₃' = g₃ := by
        simp only [RemoteCall.exec, hsuccess.1, if_true, Option.some.injEq, Prod.mk.injEq] at hexec
        exact ⟨hexec.1.symm, hexec.2.symm⟩
      obtain ⟨v, hv⟩ := Option.ne_none_iff_exists'.mp (hinv₃.accounted.present t hlast hlocal)
      refine ⟨hinv₃.before (by simp) _, ?_⟩
      refine recovery_keep (by simp) (by simp) (fun _ => rfl) (fun _ _ _ hexec => by cases hexec; rfl)
        fun g₄ env t' l₄ hg₄ _ _ hexec => ?_
      cases hexec
      dsimp only [Prog.bind]
      rw [hlast, Option.getD_some, show (g₃'.stat path).st_mtim = v.mtim by simp [Remote.stat, hv]]
      rw [hv] at hg₄
      by_cases hmatch : (v.mtim : Bytes) = t
      · rw [if_pos hmatch]
        exact recovery_openHandle hcurrent hno (.inr ⟨v, hg₄, hmatch ▸ hlast⟩)
      · rw [if_neg hmatch]
        have hstale : ¬ (m.entry path).UpToDate (some v) := by
          rintro (heq | ⟨w, hw, heq⟩)
          · exact hlocal (Option.some.inj (hlast.symm.trans heq))
          · cases hw
            exact hmatch (Option.some.inj (hlast.symm.trans heq)).symm
        refine recovery_modify (fun e => { e with last_modified := none }) (by simp) hno (fun _ => rfl)
          (fun _ _ _ _ hexec => by cases hexec; rfl) (fun r h => ?_) (.inl rfl) fun g₅ env r hg₅ _ _ => ?_
        · rw [hg₄] at h ⊢
          exact Entry.accounted_of_none rfl (h.holding hstale) (by simp)
        · exact recovery_discard hcurrent hno (by simp)

/-! ### Releasing -/

/-- An upload sends the whole of the file. -/
lemma recovery_upload (i fuel pos : ℕ) (chunks : List Bytes) (hchunks : chunks.flatten = ((m.entry path).inode i).take pos) :
    (upload path i fuel pos chunks).Safe (recoveryLogic path) (fun r l g' => l = (m, d) ∧ g'.files path = g.files path ∧
      r.2 = false ∧ r.1 ≠ [] ∧ r.1.flatten = (m.entry path).inode i) (m, d) g := by
  induction fuel generalizing g pos chunks with
  | zero => exact recovery_disk (by simp) fun _ _ r => r.elim
  | succ fuel ih =>
    refine recovery_keep (by simp) (by simp) (fun _ => rfl) (fun _ _ _ hexec => by rw [(LocalCall.exec_ifstreamRead hexec).1])
      fun g₁ env r l₁ hg₁ _ hok hexec => ?_
    obtain ⟨rfl, ⟨-, rfl⟩ | ⟨hfault, -⟩⟩ := LocalCall.exec_ifstreamRead hexec
    · refine recovery_rpc fun g₂ env sent g₂' hg₂ hinv₂ hsuccess hexec => ?_
      obtain ⟨rfl, rfl⟩ : sent = true ∧ g₂' = g₂ := by
        simp only [RemoteCall.exec, hsuccess.1, decide_true, Option.some.injEq, Prod.mk.injEq] at hexec
        exact ⟨hexec.1.symm, hexec.2.symm⟩
      refine ⟨hinv₂.before (by simp) _, ?_⟩
      set buf := (((m.entry path).inode i).drop pos).take BUFSIZE with hbuf
      have hnext : (chunks ++ [buf]).flatten = ((m.entry path).inode i).take (pos + buf.length) := by
        rw [List.flatten_append, hchunks, List.take_add]
        simp [hbuf]
      dsimp only [Prog.bind]
      rw [if_pos rfl]
      by_cases hshort : buf.length < BUFSIZE
      · rw [if_pos hshort]
        refine recovery_ret fun g₃ hg₃ _ => ⟨rfl, (hg₃.trans hg₂).trans hg₁, rfl, by simp, ?_⟩
        rw [hnext, List.take_of_length_le]
        simp only [hbuf, List.length_take, List.length_drop] at hshort ⊢
        omega
      · rw [if_neg hshort]
        have hrest := @ih g₂' (pos + buf.length) (chunks ++ [buf]) hnext
        rwa [hg₂, hg₁] at hrest
    · exact absurd (hok.resolve_right id) hfault

/-- A complete stream becomes the server's version. -/
lemma RemoteCall.exec_Write_faithful {env : Env} {g g' : Remote Path} {chunks : List Bytes} {r : Status × Meta}
    (hsuccess : Successful env) (hne : chunks ≠ []) (h : (RemoteCall.Write path chunks false).exec env g = some (r, g')) :
    r = (.OK, { timestamp := env.now }) ∧ g'.files path = some ⟨chunks.flatten, env.now⟩ := by
  simp only [RemoteCall.exec, hsuccess.1, Bool.false_eq_true, reduceCtorEq, or_self, if_false, if_true, hne] at h
  split_ifs at h
  cases h
  exact ⟨rfl, by simp [Remote.publish]⟩

/-- The end of an upload: the cache file is the server's version from here on. -/
lemma recovery_acknowledge {v : Version} {fuel fh : ℕ} (hcurrent : d.current = some (.release fuel path fh)) (hno : m.NoHandle path)
    (hfiles : g.files path = some v) (hcontent : (m.entry path).content = some v.content)
    (hmem : v.content ∈ d.possible path) :
    (Prog.call (.disk (.isDirtySet path false)) fun _ => .call (.disk (.lastModifiedSet path v.mtim)) fun _ =>
      .ret { rc := 0 } : Program Path Outcome).Safe (recoveryLogic path)
        (fun _ l _ => l.2.current = some (.release fuel path fh) ∧ (l.1.entry path).dirty = false) (m, d) g := by
  refine recovery_modify (fun e => { e with is_dirty := some false }) nofun hno (fun _ => rfl)
    (fun _ _ _ _ hexec => by cases hexec; rfl) (fun r _ => ?_) (.inr rfl) fun g₁ env r hg₁ _ _ => ?_
  · rw [hfiles]
    exact Entry.accounted_of_same hcontent hmem
  refine recovery_modify (fun e => { e with last_modified := some (v.mtim : Bytes) }) nofun hno (fun _ => rfl)
    (fun _ _ _ _ hexec => by cases hexec; rfl) (fun r _ => ?_) (.inl rfl) fun g₂ env r hg₂ _ _ => ?_
  · rw [hg₁, hfiles]
    exact Entry.accounted_of_same (by simpa [Entry.content] using hcontent) hmem
  · exact recovery_ret fun _ _ _ => ⟨hcurrent, by simp [Entry.dirty]⟩

theorem recovery_afsRelease {fuel fh : ℕ} (hcurrent : d.current = some (.release fuel path fh)) (hno : m.NoHandle path)
    (hup : (m.entry path).UpToDate (g.files path)) :
    (afsRelease fuel path fh).Safe (recoveryLogic path)
      (fun _ l _ => l.2.current = some (.release fuel path fh) ∧ (l.1.entry path).dirty = false) (m, d) g := by
  have hentry {env : Env} {r : Except Errno Unit} {l' : Local Path}
      (hexec : (LocalCall.close fh).exec env m.toLocal = some (r, l')) : l'.entry = m.entry := (closed_of_exec hexec).entry
  refine recovery_keep (by simp) (by simp) (fun _ => rfl) (fun _ _ _ hexec => by rw [hentry hexec]) fun g₁ env r l₁ hg₁ _ _ hexec => ?_
  set m₁ : Mount Path := { m with toLocal := l₁ } with hm₁
  have hentry₁ : m₁.entry path = m.entry path := by simp [hm₁, hentry hexec]
  have hno₁ : m₁.NoHandle path := hno
  refine recovery_keep (by simp) (by simp) (fun _ => rfl) (fun _ _ _ hexec => by cases hexec; rfl)
    fun g₂ env dirty l₂ hg₂ _ _ hexec => ?_
  obtain ⟨rfl, rfl⟩ : dirty = (m₁.entry path).dirty ∧ l₂ = m₁.toLocal := by
    simp only [LocalCall.exec, Option.some.injEq, Prod.mk.injEq] at hexec
    exact ⟨hexec.1.symm, hexec.2.symm⟩
  cases hdirty : (m₁.entry path).dirty with
  | false => exact recovery_ret fun _ _ _ => ⟨hcurrent, hdirty⟩
  | true =>
    refine recovery_keep (by simp) (by simp) (fun _ => rfl) (fun _ _ _ hexec => by rw [(LocalCall.exec_ifstream hexec).1])
      fun g₃ env i l₃ hg₃ hinv₃ hok hexec => ?_
    have hup₃ : (m₁.entry path).UpToDate (g₃.files path) := by rwa [hg₃, hg₂, hg₁, hentry₁]
    have hcache : (m₁.entry path).cache ≠ none := by
      rcases hinv₃.accounted.dirty hdirty with ⟨-, hcache⟩ | ⟨hstale, -⟩ | ⟨hnext, -⟩
      · exact hcache
      · exact absurd hup₃ hstale
      · cases hnext
    obtain ⟨rfl, ⟨-, rfl⟩ | ⟨-, hfault⟩⟩ := LocalCall.exec_ifstream hexec
    · obtain ⟨i, hi⟩ := Option.ne_none_iff_exists'.mp hcache
      have hcontent : (m₁.entry path).content = some ((m₁.entry path).inode i) := by simp [Entry.content, hi]
      have hmem := hinv₃.accounted.cached hup₃ _ hcontent
      rw [hi]
      have hinv₃' : Consistent path (upload path i fuel 0 []).next m₁ d g₃ := hinv₃.before (by simp) _
      change Prog.Safe _ _ (upload path i fuel 0 [] >>= _) (m₁, d) g₃
      refine Prog.Safe.bind hinv₃' ((recovery_upload i fuel 0 [] (by simp)).mono fun r l₄ g₄ _ h₄ => ?_)
      obtain ⟨chunks, broken⟩ := r
      obtain ⟨rfl, -, rfl, hne, hflat⟩ := h₄
      refine recovery_rpc fun g₅ env r g₅' _ hinv₅ hsuccess hexec => ?_
      obtain ⟨rfl, hfiles⟩ := RemoteCall.exec_Write_faithful hsuccess hne hexec
      rw [show chunks.flatten = (m₁.entry path).inode i from hflat] at hfiles
      refine ⟨⟨?_, hno₁.right _, hinv₅.returning⟩, recovery_acknowledge hcurrent hno₁ hfiles hcontent hmem⟩
      rw [hfiles]
      exact Entry.accounted_of_same hcontent hmem
    · exact absurd (hok.resolve_right hcache) hfault

/-! ### Writing -/

/-- What `afs_write` leaves behind: a dirty cache file, with the write in it if that succeeded. -/
structure WriteLeaves (path : Path) (buf : Bytes) (offset fh : ℕ) (out : Outcome) (l : Mount Path × Diary Path)
    (g : Remote Path) : Prop where
  current : l.2.current = some (.write path buf offset fh)
  working : l.2.stage = .working
  dirty : (l.1.entry path).dirty = true
  upToDate : (l.1.entry path).UpToDate (g.files path)
  cache : (l.1.entry path).cache ≠ none
  content : ∀ b, (l.1.entry path).content = some b →
    if 0 ≤ out.rc then b ∈ l.2.contents.map fun b => b.overlay offset buf else b ∈ l.2.contents

lemma Diary.possible_write {buf : Bytes} {offset fh : ℕ} (hcurrent : d.current = some (.write path buf offset fh)) :
    d.possible path = d.contents ++ d.contents.map fun b => b.overlay offset buf := by
  simp [possible, pending, hcurrent, Operation.writes]

lemma recovery_pwrite {buf : Bytes} {offset fh : ℕ} (hcurrent : d.current = some (.write path buf offset fh))
    (hstage : d.stage = .working) (hmem : (path, fh) ∈ m.handles) (hcache : (m.entry path).cache ≠ none)
    (hdirty : (m.entry path).dirty = true) (hcontent : ∀ b, (m.entry path).content = some b → b ∈ d.contents) :
    (do
      match ← disk (.pwrite fh buf offset) with
      | .ok n => return { rc := n }
      | .error e => return { rc := -e.number } : Program Path Outcome).Safe (recoveryLogic path)
        (WriteLeaves path buf offset fh) (m, d) g := by
  refine recovery_disk (by simp) fun g₁ env r l₁ _ hinv _ hhandles hfile hexec => ?_
  have hup := hinv.handle.upToDate fh hmem
  rcases LocalCall.exec_pwrite hexec with ⟨f, -, hf, rfl, rfl⟩ | ⟨e, rfl, rfl, -⟩
  · obtain ⟨q, i⟩ := f
    obtain rfl : q = path := hhandles.file hmem hf
    have hi := hinv.handle.file fh i hmem hf
    have hold : (m.entry q).inode i ∈ d.contents := hcontent _ (by simp [Entry.content, hi])
    set m₁ : Mount Path := m.modify q fun e => e.setInode i ((e.inode i).overlay offset buf) with hm₁
    have hcache₁ : (m₁.entry q).cache = (m.entry q).cache := by simp [hm₁]
    have hlast₁ : (m₁.entry q).last_modified = (m.entry q).last_modified := by simp [hm₁]
    have hdirty₁ : (m₁.entry q).dirty = true := by simpa [hm₁] using hdirty
    have hcontent₁ : (m₁.entry q).content = some (((m.entry q).inode i).overlay offset buf) := by
      rw [hm₁, Local.modify_entry_self, Entry.setInode_content _ _ _ hi]
    have hup₁ : (m₁.entry q).UpToDate (g₁.files q) := by rwa [Entry.UpToDate, hlast₁]
    have hnew : ((m.entry q).inode i).overlay offset buf ∈ d.contents.map fun b => b.overlay offset buf :=
      List.mem_map_of_mem (f := fun b : Bytes => b.overlay offset buf) hold
    refine ⟨⟨?_, ?_, Diary.returning_of_working hstage⟩, recovery_ret fun g₂ _ hinv₂ => ?_⟩
    · refine Entry.accounted_of_dirty (hlast₁ ▸ hinv.accounted.present) hup₁ (hcache₁ ▸ hcache) hdirty₁ fun b hb => ?_
      rw [hcontent₁, Option.some.injEq] at hb
      exact Diary.possible_write hcurrent ▸ List.mem_append_right _ (hb ▸ hnew)
    · exact hinv.handle.step rfl hfile (fun _ => hup₁) fun i hi => hcache₁.trans hi
    · refine ⟨hcurrent, hstage, hdirty₁, hinv₂.handle.upToDate fh hmem, hcache₁ ▸ hcache, fun b hb => ?_⟩
      rw [hcontent₁, Option.some.injEq] at hb
      rw [if_pos (Int.natCast_nonneg _)]
      exact hb ▸ hnew
  · refine ⟨hinv.before (by simp) _, recovery_ret fun g₂ _ hinv₂ => ?_⟩
    refine ⟨hcurrent, hstage, hdirty, hinv₂.handle.upToDate fh hmem, hcache, fun b hb => ?_⟩
    have hneg : ¬ (0 : ℤ) ≤ -e.number := by
      have := e.number_pos
      omega
    rw [if_neg hneg]
    exact hcontent b hb

theorem recovery_afsWrite {buf : Bytes} {offset fh : ℕ} (hcurrent : d.current = some (.write path buf offset fh))
    (hstage : d.stage = .working) (hmem : (path, fh) ∈ m.handles) (hcache : (m.entry path).cache ≠ none)
    (hcontent : ∀ b, (m.entry path).content = some b → b ∈ d.contents) :
    (afsWrite path buf offset fh).Safe (recoveryLogic path) (WriteLeaves path buf offset fh) (m, d) g := by
  refine recovery_disk nofun fun g₁ env r l₁ _ hinv _ _ hfile hexec => ?_
  cases hexec
  set m₁ : Mount Path := m.modify path fun e => { e with is_dirty := some true } with hm₁
  have hlast₁ : (m₁.entry path).last_modified = (m.entry path).last_modified := by simp [hm₁]
  have hcache₁ : (m₁.entry path).cache = (m.entry path).cache := by simp [hm₁]
  have hcontent₁ : (m₁.entry path).content = (m.entry path).content := by simp [hm₁, Entry.content]
  have hdirty₁ : (m₁.entry path).dirty = true := by simp [hm₁, Entry.dirty]
  have hup₁ : (m₁.entry path).UpToDate (g₁.files path) := by
    rw [Entry.UpToDate, hlast₁]
    exact hinv.handle.upToDate fh hmem
  rw [← hcache₁] at hcache
  rw [← hcontent₁] at hcontent
  refine ⟨⟨?_, ?_, Diary.returning_of_working hstage⟩, recovery_pwrite hcurrent hstage hmem hcache hdirty₁ hcontent⟩
  · refine Entry.accounted_of_dirty (hlast₁ ▸ hinv.accounted.present) hup₁ hcache hdirty₁ fun b hb => ?_
    exact Diary.mem_possible (hcontent b hb)
  · exact hinv.handle.step rfl hfile (fun _ => hup₁) fun i hi => hcache₁.trans hi

/-! ### Creating -/

/-- The path is a new empty file, at the client or also at the server. -/
structure Made (path : Path) (m : Mount Path) (d : Diary Path) : Prop where
  current : d.current = some (.mknod path)
  working : d.stage = .working
  contents : d.contents = [[]]
  content : (m.entry path).content = some []
  unpublished : ∀ t, (m.entry path).last_modified = some t → t = localCreatFile

lemma Made.mem_possible (h : Made path m d) : [] ∈ d.possible path := by
  rw [Diary.possible_of_none (Diary.pending_eq_none h.current rfl), h.contents]
  simp

/-- The new file is published, and its time is recorded. -/
lemma recovery_announce (h : Made path m d) :
    (do
      let sent ← rpc .writerWrite
      match ← rpc (.Write path (if sent then [[]] else []) !sent) with
      | (.OK, reply) =>
        disk (.lastModifiedSet path reply.timestamp)
        return { rc := 0 }
      | _ => return { rc := Errno.EIO.number } : Program Path Outcome).Safe (recoveryLogic path)
        (fun _ l _ => l.2.current = some (.mknod path)) (m, d) g := by
  refine recovery_rpc fun g₁ env sent g₁' _ hinv₁ hsuccess hexec => ?_
  obtain ⟨rfl, rfl⟩ : sent = true ∧ g₁' = g₁ := by
    simp only [RemoteCall.exec, hsuccess.1, decide_true, Option.some.injEq, Prod.mk.injEq] at hexec
    exact ⟨hexec.1.symm, hexec.2.symm⟩
  refine ⟨hinv₁.before (by simp) _, recovery_rpc fun g₂ env r g₃ _ hinv₂ hsuccess hexec => ?_⟩
  obtain ⟨rfl, hfiles⟩ := RemoteCall.exec_Write_faithful hsuccess (by simp) hexec
  have haccounted {next : Option (Call Path)} {e : Entry} (hcontent : e.content = some []) :
      e.Accounted next path (d.possible path) d.wrote (some ⟨[], env.now⟩) :=
    Entry.accounted_of_same hcontent h.mem_possible
  refine ⟨⟨?_, ?_, Diary.returning_of_working h.working⟩, ?_⟩
  · rw [hfiles]
    exact haccounted h.content
  · refine hinv₂.handle.step rfl (fun _ _ => rfl) (fun hup => ?_) fun _ hi => hi
    rcases hup with hlocal | ⟨v, -, hv⟩
    · exact .inl hlocal
    · exact absurd (h.unpublished _ hv) (Remote.localCreatFile_ne v.mtim)
  · refine recovery_disk (by simp) fun g₄ env' r l₄ hg₄ hinv₄ _ _ hfile hexec => ?_
    cases hexec
    rw [hfiles] at hg₄
    refine ⟨⟨?_, ?_, Diary.returning_of_working h.working⟩, recovery_ret fun _ _ _ => h.current⟩
    · rw [hg₄]
      exact haccounted (by simpa [Entry.content] using h.content)
    · refine hinv₄.handle.step rfl hfile (fun _ => .inr ⟨_, hg₄, by simp⟩) fun i hi => by simpa using hi

/-- The cache file is created, unless it exists already. -/
lemma recovery_create (hcurrent : d.current = some (.mknod path)) (hstage : d.stage = .working)
    (hfiles : g.files path = none) :
    (do
      match ← disk (.openExcl path) with
      | .error e => return { rc := -e.number }
      | .ok fd =>
        match ← disk (.close fd) with
        | .error e => return { rc := -e.number }
        | .ok () =>
          let sent ← rpc .writerWrite
          match ← rpc (.Write path (if sent then [[]] else []) !sent) with
          | (.OK, reply) =>
            disk (.lastModifiedSet path reply.timestamp)
            return { rc := 0 }
          | _ => return { rc := Errno.EIO.number } : Program Path Outcome).Safe (recoveryLogic path)
        (fun _ l _ => l.2.current = some (.mknod path)) (m, d) g := by
  refine recovery_disk (by simp) fun g₁ env r l₁ hg₁ hinv _ _ hfile hexec => ?_
  rw [hfiles] at hg₁
  rcases LocalCall.exec_openExcl hexec with ⟨fd, -, hcache, -, -, rfl, rfl⟩ | ⟨e, rfl, rfl, -⟩
  · have hdirty : (m.entry path).dirty = false := by
      by_contra hdirty
      rcases hinv.accounted.dirty (by simpa using hdirty) with ⟨-, hsome⟩ | ⟨-, hheld⟩ | ⟨-, hheld⟩
      · exact hsome hcache
      · exact hheld.ne_none hg₁
      · exact hheld.ne_none hg₁
    have hwrote : ¬ d.wrote = true := fun hwrote => (hinv.accounted.clean hdirty hwrote).ne_none hg₁
    have hcall : d.call path (.disk (.openExcl path)) (.ok fd) = { d with contents := [[]] } := by simp [Diary.call]
    rw [hcall]
    set m₁ : Mount Path := { m with
      toLocal := { (m.toLocal.modify path fun e => e.openTrunc.2) with
        fds := Function.update m.fds fd (some (path, (m.entry path).openTrunc.1)) } } with hm₁
    have hlast₁ : (m₁.entry path).last_modified = (m.entry path).last_modified := by simp [hm₁]
    have hunpublished (t : Bytes) (ht : (m₁.entry path).last_modified = some t) : t = localCreatFile := by
      by_contra hne
      exact hinv.accounted.present t (hlast₁ ▸ ht) hne hg₁
    have hmade : Made path m₁ { d with contents := [[]] } := ⟨hcurrent, hstage, rfl, by simp [hm₁], hunpublished⟩
    refine ⟨⟨?_, ?_, Diary.returning_of_working hstage⟩, ?_⟩
    · refine Entry.accounted_of_clean (fun t ht hne => absurd (hunpublished t ht) hne) (fun _ _ b hb => ?_)
        (fun _ b hb => ?_) (fun h => absurd h hwrote) (by simpa [hm₁] using hdirty)
      · simpa [hm₁, eq_comm] using hb
      · rw [hmade.content, Option.some.injEq] at hb
        exact hb ▸ hmade.mem_possible
    · refine hinv.handle.step rfl hfile (fun hup => ?_) fun i hi => ?_
      · rwa [Entry.UpToDate, hlast₁]
      · rw [hcache] at hi
        cases hi
    · have hentry {env : Env} {r : Except Errno Unit} {l' : Local Path}
          (hexec : (LocalCall.close fd).exec env m₁.toLocal = some (r, l')) : l'.entry = m₁.entry := (closed_of_exec hexec).entry
      refine recovery_keep (by simp) (by simp) (fun _ => rfl) (fun _ _ _ hexec => by rw [hentry hexec]) fun g₂ env r l₂ _ _ _ hexec => ?_
      cases r with
      | error e => exact recovery_ret fun _ _ _ => hcurrent
      | ok u =>
        apply recovery_announce
        refine ⟨hcurrent, hstage, rfl, ?_, ?_⟩
        · rw [hentry hexec]
          exact hmade.content
        · rw [hentry hexec]
          exact hmade.unpublished
  · exact ⟨hinv.before (by simp) _, recovery_ret fun _ _ _ => hcurrent⟩

theorem recovery_afsMknod (hcurrent : d.current = some (.mknod path)) (hstage : d.stage = .working) :
    (afsMknod path).Safe (recoveryLogic path) (fun _ l _ => l.2.current = some (.mknod path)) (m, d) g := by
  refine recovery_rpc fun g₁ env stat_content g₁' _ hinv₁ hsuccess hexec => ?_
  obtain ⟨rfl, rfl⟩ : stat_content = g₁.stat path ∧ g₁' = g₁ := by
    simp only [RemoteCall.exec, hsuccess.1, if_true, Option.some.injEq, Prod.mk.injEq] at hexec
    exact ⟨hexec.1.symm, hexec.2.symm⟩
  refine ⟨hinv₁.before (by simp) _, ?_⟩
  dsimp only [Prog.bind]
  cases hfiles : g₁'.files path with
  | some v =>
    rw [if_pos (by simp [Remote.stat, hfiles])]
    exact recovery_ret fun _ _ _ => hcurrent
  | none =>
    rw [if_neg (by simp [Remote.stat, hfiles])]
    exact recovery_create hcurrent hstage hfiles

/-! ### The other operations -/

/-- The call works on the path, or on the open file. -/
def Call.On (path : Path) (file : Option ℕ) : Call Path → Prop
  | .disk (.lastModifiedCount q) | .disk (.lastModifiedGet q) | .disk (.lastModifiedSet q _) | .disk (.lastModifiedErase q)
  | .disk (.isDirtyGet q) | .disk (.isDirtySet q _) | .disk (.isDirtyErase q) | .disk (.openFile q) | .disk (.openExcl q)
  | .disk (.creat q) | .disk (.unlink q) | .disk (.ofstream q) | .disk (.ofstreamWrite q _ _ _) | .disk (.ifstream q)
  | .disk (.ifstreamRead q _ _) | .disk (.truncate q _) | .rpc (.Stat q) | .rpc (.GetContent q) | .rpc (.Write q _ _)
  | .rpc (.Unlink q) => q = path
  | .disk (.pread fh _ _) | .disk (.pwrite fh _ _) | .disk (.ftruncate fh _) | .disk (.fsync fh) => file = some fh
  | .disk (.close _) | .disk .exit | .disk .diverge | .rpc .writerWrite => True

/-- The open file that an operation reads or changes. -/
def Operation.file : Operation Path → Option ℕ
  | .read _ fh _ _ | .write _ _ _ fh | .fsync _ fh | .ftruncate _ _ fh => some fh
  | .open _ | .release _ _ _ | .mknod _ | .unlink _ | .truncate _ _ => none

section Calls

variable {file : Option ℕ}

lemma openHandle_on : (openHandle path).Calls (Call.On path file) := (openHandle_calls path).mono fun _ h => h ▸ rfl

lemma download_on : (download path).Calls (Call.On path file) := by
  refine calls_rpc rfl fun r => ?_
  obtain ⟨msgs, ok⟩ := r
  cases msgs with
  | nil => trivial
  | cons msg msgs =>
    dsimp only
    by_cases hexists : msg.file_exists = true
    · rw [if_pos hexists]
      refine calls_disk rfl fun ofile => ((writeChunks_calls path _ _).mono ?_).bind fun _ => ?_
      · rintro c ⟨i, pos, b, rfl⟩
        exact rfl
      · split_ifs
        · exact calls_disk rfl fun _ => calls_disk rfl fun _ => openHandle_on
        · trivial
    · rw [if_neg hexists]
      exact calls_disk rfl fun _ => calls_disk rfl fun _ => calls_disk trivial fun _ => calls_disk rfl fun _ => openHandle_on

lemma afsOpen_on : (afsOpen path).Calls (Call.On path file) := by
  refine calls_disk rfl fun count => ?_
  split_ifs
  · refine calls_disk rfl fun t => ?_
    split_ifs
    · exact openHandle_on
    · refine calls_rpc rfl fun stat_content => calls_disk rfl fun t => ?_
      split_ifs
      · exact openHandle_on
      · exact calls_disk rfl fun _ => calls_disk rfl fun _ => download_on
  · exact download_on

omit [DecidableEq Path] in
lemma afsRelease_on {fuel fh : ℕ} : (afsRelease fuel path fh).Calls (Call.On path file) := by
  refine calls_disk trivial fun _ => calls_disk rfl fun dirty => ?_
  cases dirty with
  | false => trivial
  | true =>
    refine calls_disk rfl fun i => ?_
    cases i with
    | none => exact ⟨trivial, nofun⟩
    | some i =>
      refine ((upload_calls path i fuel 0 []).mono ?_).bind fun r => calls_rpc rfl fun reply => ?_
      · rintro c (rfl | ⟨pos, rfl⟩ | rfl)
        · trivial
        · exact rfl
        · trivial
      · obtain ⟨status, reply⟩ := reply
        cases status with
        | OK => exact calls_disk rfl fun _ => calls_disk rfl fun _ => trivial
        | CANCELLED | NOT_FOUND | UNAVAILABLE => trivial

omit [DecidableEq Path] in
lemma afsMknod_on : (afsMknod path).Calls (Call.On path file) := by
  refine calls_rpc rfl fun stat_content => ?_
  split_ifs
  · trivial
  · refine calls_disk rfl fun r => ?_
    cases r with
    | error e => trivial
    | ok fd =>
      refine calls_disk trivial fun r => ?_
      cases r with
      | error e => trivial
      | ok u =>
        refine calls_rpc trivial fun sent => calls_rpc rfl fun r => ?_
        obtain ⟨status, reply⟩ := r
        cases status with
        | OK => exact calls_disk rfl fun _ => trivial
        | CANCELLED | NOT_FOUND | UNAVAILABLE => trivial

/-- An operation works on its own path and its own open file. -/
theorem program_on (op : Operation Path) : op.program.Calls (Call.On op.path op.file) := by
  cases op with
  | «open» q => exact afsOpen_on
  | release fuel q fh => exact afsRelease_on
  | mknod q => exact afsMknod_on
  | unlink q => exact calls_disk rfl fun _ => calls_disk rfl fun _ => calls_disk rfl fun _ => calls_rpc rfl fun _ => trivial
  | read q fh size offset =>
    refine calls_disk rfl fun r => ?_
    cases r <;> trivial
  | write q buf offset fh =>
    refine calls_disk rfl fun _ => calls_disk rfl fun r => ?_
    cases r <;> trivial
  | fsync q fh | ftruncate q offset fh | truncate q newsize => exact calls_disk rfl fun _ => trivial

end Calls

section Elsewhere

variable {q : Path} {file : Option ℕ}

/-- A call on another path leaves this one alone. -/
lemma exec_elsewhere {env : Env} {c : LocalCall Path} {r : c.Answer} {l' : Local Path} (hhandles : m.HandlesOk) (hq : q ≠ path)
    (hfile : ∀ fh, file = some fh → (q, fh) ∈ m.handles) (hc : Call.On q file (.disk c))
    (hexec : c.exec env m.toLocal = some (r, l')) : l'.entry path = m.entry path := by
  have hother {fh i : ℕ} {p : Path} (hfh : file = some fh) (hf : m.toLocal.file fh = some (p, i)) : path ≠ p := by
    rw [hhandles.file (hfile fh hfh) hf]
    exact hq.symm
  rcases LocalCall.exec_changes hexec with hsame | ⟨p, f, hf, hchange⟩
  · rw [hsame]
  · by_cases hp : p = path
    · subst hp
      cases hf with
      | pwrite i fh offset buf =>
        rcases LocalCall.exec_pwrite hexec with ⟨f, -, hf, -, rfl⟩ | ⟨e, -, rfl, -⟩
        · exact Local.modify_entry_ne _ _ (hother hc hf)
        · rfl
      | ftruncate i fh offset =>
        simp only [LocalCall.exec] at hexec
        split at hexec <;> cases hexec
        · rename_i f hf
          exact Local.modify_entry_ne _ _ (hother hc (onFile_ok.mp hf).2)
        · rfl
      | create _ _ hcreate => rcases hcreate with rfl | rfl | rfl <;> exact absurd hc.symm hq
      | _ => exact absurd hc.symm hq
    · rw [hchange, Local.modify_entry_ne _ _ (Ne.symm hp)]

lemma Diary.call_elsewhere {c : Call Path} {r : c.Answer} (hq : q ≠ path) (hc : c.On q file) : d.call path c r = d := by
  unfold call
  split
  · rw [if_neg (by rw [show _ = q from hc]; exact hq)]
  · rw [if_neg (by rw [show _ = q from hc]; exact hq)]
  · rfl

/-- Only an upload or an unlink of the path changes the server's file there. -/
lemma RemoteCall.exec_files {env : Env} {g g' : Remote Path} {c : RemoteCall Path} {r : c.Answer}
    (h : c.exec env g = some (r, g')) (hwrite : ∀ chunks broken, c ≠ .Write path chunks broken) (hunlink : c ≠ .Unlink path) :
    g'.files path = g.files path := by
  cases c with
  | Stat q => cases h; rfl
  | GetContent q => rw [(RemoteCall.exec_GetContent h).1]
  | writerWrite => cases h; rfl
  | Write q chunks broken =>
    have hq : path ≠ q := by
      rintro rfl
      exact hwrite chunks broken rfl
    rcases RemoteCall.exec_Write h with rfl | ⟨-, -, hfresh, rfl⟩
    · rfl
    · exact Function.update_of_ne hq ..
  | Unlink q =>
    have hq : path ≠ q := by
      rintro rfl
      exact hunlink rfl
    simp only [RemoteCall.exec] at h
    split_ifs at h <;> cases h
    · rfl
    · exact Function.update_of_ne hq ..
    · rfl
    · exact Function.update_of_ne hq ..

/-- An operation on another path. -/
theorem recovery_elsewhere {op : Operation Path} (hcurrent : d.current = some op) (hop : op.path ≠ path)
    (hfile : ∀ fh, op.file = some fh → (op.path, fh) ∈ m.handles) (hinv : Consistent path none m d g) :
    op.program.Safe (recoveryLogic path) (fun _ l _ => l.2.current = some op) (m, d) g := by
  have hsafe : op.program.Safe (recoveryLogic path) (fun _ l g => Consistent path none l.1 l.2 g ∧
      l.2.current = some op ∧ l.1.handles = m.handles) (m, d) g := by
    refine (program_on op).safe (J := fun (l : Mount Path × Diary Path) (g : Remote Path) => Consistent path none l.1 l.2 g ∧
      l.2.current = some op ∧ l.1.handles = m.handles) (fun _ _ _ _ hl hg => ⟨hl.1.rely hg, hl.2⟩)
      (fun next _ _ hl => hl.1.before (by simp) next) (fun c l g _ hl _ fuel fh heq => ?_)
      (fun env c l g r l' g' hc hl hok hexec => ?_) ⟨hinv, hcurrent, rfl⟩
    · rw [hl.2.1, Option.some.injEq] at heq
      exact hop (heq ▸ rfl)
    · obtain ⟨m₁, d₁⟩ := l
      obtain ⟨hinv₁, hcurrent₁, hhandles₁⟩ := hl
      obtain ⟨hcall, hd⟩ := diaries_exec hexec
      obtain ⟨m₂, d₂⟩ := l'
      obtain rfl : d₂ = d₁ := hd.trans (Diary.call_elsewhere hop hc)
      obtain ⟨-, hright, hspares⟩ := hok
      cases c with
      | disk c =>
        obtain ⟨l₂, hexec', rfl, rfl⟩ := machine_disk hcall
        have hentry := exec_elsewhere hright hop (by rw [hhandles₁]; exact hfile) hc hexec'
        exact ⟨hinv₁.keep hentry (hright.exec hspares hexec').2 none, hcurrent₁, hhandles₁⟩
      | rpc c =>
        obtain ⟨hexec', rfl⟩ := machine_rpc hcall
        refine ⟨hinv₁.rely (RemoteCall.exec_files hexec' ?_ ?_), hcurrent₁, hhandles₁⟩
        · rintro chunks broken rfl
          exact hop hc.symm
        · rintro rfl
          exact hop hc.symm
  exact hsafe.mono fun _ _ _ _ hl => hl.2.1

end Elsewhere

end AFSv1.Client
