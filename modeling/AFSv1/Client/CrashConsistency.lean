import AFSv1.Client.Diary
import AFSv1.Client.LocalMarker

/-! What holds at every moment at which a client may crash: the cache file, its dirty flag, its recorded time and the
server's version together still have a content that the diary allows, and the next `afs_open` finds it. -/
namespace AFSv1.Client
open Foundations Tables

/-! ### One path at the client and at the server -/

section Facts

variable {Path : Type} {next : Option (Call Path)} {path : Path} {e : Entry} {cs cs' : List Bytes} {wrote : Bool}
  {S : Option Version}

/-- `afs_open` takes the cache file as it is. -/
def Entry.UpToDate (e : Entry) (S : Option Version) : Prop :=
  e.last_modified = some localCreatFile ∨ ∃ v, S = some v ∧ e.last_modified = some (v.mtim : Bytes)

/-- The server has one of the contents. -/
def Holding (S : Option Version) (cs : List Bytes) : Prop := ∃ v, S = some v ∧ v.content ∈ cs

/-- One of the contents `cs` is not lost: a clean file is at the server, and a dirty one in the cache where the next
open uses it, or else at the server where the next open gets it. -/
structure Entry.Accounted (next : Option (Call Path)) (path : Path) (e : Entry) (cs : List Bytes) (wrote : Bool)
    (S : Option Version) : Prop where
  present : ∀ t, e.last_modified = some t → t ≠ localCreatFile → S ≠ none
  created : e.last_modified = none → S = none → ∀ b, e.content = some b → b = []
  cached : e.UpToDate S → ∀ b, e.content = some b → b ∈ cs
  clean : e.dirty = false → wrote = true → Holding S cs
  dirty : e.dirty = true → e.UpToDate S ∧ e.cache ≠ none ∨ ¬ e.UpToDate S ∧ Holding S cs ∨
    next = some (.disk (.isDirtySet path false)) ∧ Holding S cs

lemma Holding.mono (h : Holding S cs) (hcs : ∀ b ∈ cs, b ∈ cs') : Holding S cs' := by
  obtain ⟨v, hv, hmem⟩ := h
  exact ⟨v, hv, hcs _ hmem⟩

lemma Holding.ne_none (h : Holding S cs) : S ≠ none := by
  obtain ⟨v, rfl, -⟩ := h
  simp

lemma Entry.not_upToDate_of_none (h : e.last_modified = none) : ¬ e.UpToDate S := by simp [UpToDate, h]

lemma Entry.Accounted.mono (h : e.Accounted next path cs wrote S) (hcs : ∀ b ∈ cs, b ∈ cs') :
    e.Accounted next path cs' wrote S where
  present := h.present
  created := h.created
  cached hup b hb := hcs b (h.cached hup b hb)
  clean hclean hwrote := (h.clean hclean hwrote).mono hcs
  dirty hdirty := by
    rcases h.dirty hdirty with hused | ⟨hunused, hheld⟩ | ⟨hnext, hheld⟩
    · exact .inl hused
    · exact .inr (.inl ⟨hunused, hheld.mono hcs⟩)
    · exact .inr (.inr ⟨hnext, hheld.mono hcs⟩)

/-- Apart from one moment in `afs_open`, the next call does not matter. -/
lemma Entry.Accounted.before (h : e.Accounted next path cs wrote S)
    (hnext : next = some (.disk (.isDirtySet path false)) → e.dirty = true → e.cache ≠ none) (next' : Option (Call Path)) :
    e.Accounted next' path cs wrote S where
  present := h.present
  created := h.created
  cached := h.cached
  clean := h.clean
  dirty hdirty := by
    rcases h.dirty hdirty with hused | hunused | ⟨hset, hheld⟩
    · exact .inl hused
    · exact .inr (.inl hunused)
    · by_cases hup : e.UpToDate S
      · exact .inl ⟨hup, hnext hset hdirty⟩
      · exact .inr (.inl ⟨hup, hheld⟩)

/-- Without a recorded time the next open asks the server. -/
lemma Entry.accounted_of_none (hnone : e.last_modified = none) (hheld : e.dirty = true ∨ wrote = true → Holding S cs)
    (hcreated : S = none → ∀ b, e.content = some b → b = []) : e.Accounted next path cs wrote S where
  present t ht := by
    rw [hnone] at ht
    cases ht
  created _ := hcreated
  cached hup := absurd hup (not_upToDate_of_none hnone)
  clean _ hwrote := hheld (.inr hwrote)
  dirty hdirty := .inr (.inl ⟨not_upToDate_of_none hnone, hheld (.inl hdirty)⟩)

/-- A clean cache file with the server's content. -/
lemma Entry.accounted_of_clean (hpresent : ∀ t, e.last_modified = some t → t ≠ localCreatFile → S ≠ none)
    (hcreated : e.last_modified = none → S = none → ∀ b, e.content = some b → b = [])
    (hcached : e.UpToDate S → ∀ b, e.content = some b → b ∈ cs) (hclean : wrote = true → Holding S cs)
    (hdirty : e.dirty = false) : e.Accounted next path cs wrote S where
  present := hpresent
  created := hcreated
  cached := hcached
  clean _ := hclean
  dirty h := by
    rw [hdirty] at h
    cases h

/-- What was written is at the server when the next open does not use the cache file. -/
lemma Entry.Accounted.holding (h : e.Accounted next path cs wrote S) (hstale : ¬ e.UpToDate S)
    (hneeded : e.dirty = true ∨ wrote = true) : Holding S cs := by
  cases hdirty : e.dirty with
  | true =>
    rcases h.dirty hdirty with ⟨hup, -⟩ | ⟨-, hheld⟩ | ⟨-, hheld⟩
    · exact absurd hup hstale
    · exact hheld
    · exact hheld
  | false => exact h.clean hdirty (hneeded.resolve_left (by simp [hdirty]))

/-- A dirty cache file that the next open uses. -/
lemma Entry.accounted_of_dirty (hpresent : ∀ t, e.last_modified = some t → t ≠ localCreatFile → S ≠ none) (hup : e.UpToDate S) (hcache : e.cache ≠ none)
    (hdirty : e.dirty = true) (hcached : ∀ b, e.content = some b → b ∈ cs) : e.Accounted next path cs wrote S where
  present := hpresent
  created hnone := absurd hup (not_upToDate_of_none hnone)
  cached _ := hcached
  clean h := by
    rw [hdirty] at h
    cases h
  dirty _ := .inl ⟨hup, hcache⟩

/-- A cache file with the server's content is safe, whatever else is recorded. -/
lemma Entry.accounted_of_same {v : Version} (hcontent : e.content = some v.content) (hmem : v.content ∈ cs) :
    e.Accounted next path cs wrote (some v) where
  present _ _ _ := by simp
  created _ h := by cases h
  cached _ b hb := by
    rw [hcontent, Option.some.injEq] at hb
    exact hb ▸ hmem
  clean _ _ := ⟨v, rfl, hmem⟩
  dirty _ := by
    have hcache : e.cache ≠ none := by
      intro hnone
      simp [content, hnone] at hcontent
    by_cases hup : e.UpToDate (some v)
    · exact .inl ⟨hup, hcache⟩
    · exact .inr (.inl ⟨hup, v, rfl, hmem⟩)

/-- What the diary knows of the way back from a crash. -/
structure Diary.Returning (path : Path) (d : Diary Path) (dirty : Bool) [DecidableEq Path] : Prop where
  pending : d.stage ≠ .working → d.pending path = none
  atCrash : d.stage ≠ .working → d.wrote = true → ∀ b ∈ d.contents, b ∈ d.atCrash
  recovered : d.stage = .recovered → dirty = false

/-- The open handle of the path works on its cache file. -/
structure Mount.HandleRight (path : Path) (m : Mount Path) (S : Option Version) [DecidableEq Path] : Prop where
  single : m.handles.countP (·.1 = path) ≤ 1
  upToDate : ∀ fh, (path, fh) ∈ m.handles → (m.entry path).UpToDate S
  file : ∀ fh i, (path, fh) ∈ m.handles → m.toLocal.file fh = some (path, i) → (m.entry path).cache = some i

variable [DecidableEq Path]

structure Consistent (path : Path) (next : Option (Call Path)) (m : Mount Path) (d : Diary Path) (g : Remote Path) :
    Prop where
  accounted : (m.entry path).Accounted next path (d.possible path) d.wrote (g.files path)
  handle : m.HandleRight path (g.files path)
  returning : d.Returning path (m.entry path).dirty

lemma Mount.NoHandle.right {m : Mount Path} (h : m.NoHandle path) (S : Option Version) : m.HandleRight path S where
  single := by
    rw [List.countP_eq_zero.mpr fun a ha => by
      simp only [decide_eq_true_eq]
      rintro rfl
      exact h a.2 ha]
    omega
  upToDate fh hfh := absurd hfh (h fh)
  file fh i hfh := absurd hfh (h fh)

lemma Diary.Returning.clean {d : Diary Path} {dirty : Bool} (h : d.Returning path dirty) : d.Returning path false :=
  ⟨h.pending, h.atCrash, fun _ => rfl⟩

lemma Diary.returning_of_working {d : Diary Path} {dirty : Bool} (h : d.stage = .working) : d.Returning path dirty :=
  ⟨fun hne => absurd h hne, fun hne => absurd h hne, fun heq => by simp [h] at heq⟩

/-- A step that gives no handle another file. -/
lemma Mount.HandleRight.step {m m' : Mount Path} {S' : Option Version} (h : m.HandleRight path S)
    (hhandles : m'.handles = m.handles) (hfile : ∀ a ∈ m.handles, m'.toLocal.file a.2 = m.toLocal.file a.2)
    (hup : (m.entry path).UpToDate S → (m'.entry path).UpToDate S')
    (hcache : ∀ i, (m.entry path).cache = some i → (m'.entry path).cache = some i) : m'.HandleRight path S' where
  single := by
    rw [hhandles]
    exact h.single
  upToDate fh hfh := hup (h.upToDate fh (hhandles ▸ hfh))
  file fh i hfh hi := by
    rw [hhandles] at hfh
    rw [hfile _ hfh] at hi
    exact hcache i (h.file fh i hfh hi)

variable {m : Mount Path} {d : Diary Path} {g g' : Remote Path}

lemma Consistent.before (h : Consistent path next m d g)
    (hnext : next = some (.disk (.isDirtySet path false)) → (m.entry path).dirty = true → (m.entry path).cache ≠ none)
    (next' : Option (Call Path)) : Consistent path next' m d g :=
  ⟨h.accounted.before hnext next', h.handle, h.returning⟩

lemma Consistent.rely (h : Consistent path next m d g) (hfiles : g'.files path = g.files path) :
    Consistent path next m d g' := ⟨hfiles ▸ h.accounted, hfiles ▸ h.handle, h.returning⟩

/-- A call that leaves the path's entry alone. -/
lemma Consistent.keep (h : Consistent path none m d g) {l' : Local Path} (hentry : l'.entry path = m.entry path)
    (hfile : ∀ a ∈ m.handles, l'.file a.2 = m.toLocal.file a.2) (next' : Option (Call Path)) :
    Consistent path next' { m with toLocal := l' } d g where
  accounted := by
    rw [show ({ m with toLocal := l' } : Mount Path).entry path = m.entry path from hentry]
    exact h.accounted.before nofun next'
  handle := by
    refine h.handle.step rfl hfile (fun hup => ?_) fun i hi => ?_
    · exact (congrArg (Entry.UpToDate · (g.files path)) hentry).mpr hup
    · exact (congrArg Entry.cache hentry).trans hi
  returning := by
    rw [show ({ m with toLocal := l' } : Mount Path).entry path = m.entry path from hentry]
    exact h.returning

end Facts

/-! ### The logic -/

variable {Path : Type} [DecidableEq Path]

/-- The call works on a cache file that does not exist, or on a handle without a file. -/
def Absent (l : Local Path) : LocalCall Path → Prop
  | .openFile path | .openExcl path | .creat path | .unlink path | .ofstream path | .ifstream path | .truncate path _ =>
    (l.entry path).cache = none
  | .pread fh _ _ | .pwrite fh _ _ | .ftruncate fh _ | .fsync fh => l.file fh = none
  | _ => False

/-- Calls on cache files that exist succeed, and so do remote calls. -/
def Faithful (env : Env) (l : Local Path) : Call Path → Prop
  | .disk c => env.fault = none ∨ Absent l c
  | .rpc _ => Successful env

/-- The others leave the server's file at the path alone. A release of the path never gets to `exit`. -/
def recoveryLogic (path : Path) :
    Prog.Logic (Call Path) Call.Answer Env (Mount Path × Diary Path) (Remote Path) where
  exec := (diaries path).exec
  ok env c l _ := Faithful env l.1.toLocal c ∧ l.1.HandlesOk ∧ SparesHandles l.1 c
  rely _ _ g g' := g'.files path = g.files path
  inv next l g := Consistent path next l.1 l.2 g
  pre c l _ := c = .disk .exit → ∀ fuel fh, l.2.current ≠ some (.release fuel path fh)
  rely_refl _ _ _ := rfl
  rely_trans _ _ _ _ _ h h' := h'.trans h
  inv_call c _ _ h := h.before nofun (some c)

section Rules

variable {path : Path} {α : Type} {post : α → Mount Path × Diary Path → Remote Path → Prop} {m : Mount Path}
  {d : Diary Path} {g : Remote Path}

lemma recovery_disk {c : LocalCall Path} {k : c.Answer → Program Path α} (hexit : c ≠ .exit)
    (h : ∀ g' env r l', g'.files path = g.files path → Consistent path (some (.disk c)) m d g' →
      (env.fault = none ∨ Absent m.toLocal c) → m.HandlesOk →
      (∀ a ∈ m.handles, l'.file a.2 = m.toLocal.file a.2) → c.exec env m.toLocal = some (r, l') →
        Consistent path (k r).next { m with toLocal := l' } (d.call path (.disk c) r) g' ∧
          (k r).Safe (recoveryLogic path) post ({ m with toLocal := l' }, d.call path (.disk c) r) g') :
    Prog.Safe (recoveryLogic path) post (.call (.disk c) k) (m, d) g := by
  refine fun g' hg hinv => ⟨fun heq => absurd (by simpa using heq) hexit, fun env r l₁ g'' hok hexec => ?_⟩
  obtain ⟨hcall, hd⟩ := diaries_exec hexec
  obtain ⟨m₁, d₁⟩ := l₁
  obtain rfl : d₁ = d.call path (.disk c) r := hd
  obtain ⟨l', hexec', rfl, rfl⟩ := machine_disk hcall
  obtain ⟨hfaithful, hhandles, hspares⟩ := hok
  exact h g'' env r l' hg hinv hfaithful hhandles (hhandles.exec hspares hexec').2 hexec'

lemma recovery_rpc {c : RemoteCall Path} {k : c.Answer → Program Path α}
    (h : ∀ g' env r g'', g'.files path = g.files path → Consistent path none m d g' → Successful env →
      c.exec env g' = some (r, g'') →
        Consistent path (k r).next m (d.call path (.rpc c) r) g'' ∧
          (k r).Safe (recoveryLogic path) post (m, d.call path (.rpc c) r) g'') :
    Prog.Safe (recoveryLogic path) post (.call (.rpc c) k) (m, d) g := by
  refine fun g' hg hinv => ⟨nofun, fun env r l₁ g'' hok hexec => ?_⟩
  obtain ⟨hcall, hd⟩ := diaries_exec hexec
  obtain ⟨m₁, d₁⟩ := l₁
  obtain rfl : d₁ = d.call path (.rpc c) r := hd
  obtain ⟨hexec', rfl⟩ := machine_rpc hcall
  exact h g' env r g'' hg (hinv.before nofun none) hok.1 hexec'

lemma recovery_ret {a : α} (h : ∀ g', g'.files path = g.files path → Consistent path none m d g' → post a (m, d) g') :
    Prog.Safe (recoveryLogic path) post (.ret a) (m, d) g := fun g' hg hinv => h g' hg hinv

/-- A call that leaves the path's entry alone. -/
lemma recovery_keep {c : LocalCall Path} {k : c.Answer → Program Path α} (hexit : c ≠ .exit)
    (hset : c ≠ .isDirtySet path false) (hd : ∀ r, d.call path (.disk c) r = d)
    (hentry : ∀ env r l', c.exec env m.toLocal = some (r, l') → l'.entry path = m.entry path)
    (h : ∀ g' env r l', g'.files path = g.files path → Consistent path none m d g' →
      (env.fault = none ∨ Absent m.toLocal c) → c.exec env m.toLocal = some (r, l') →
        (k r).Safe (recoveryLogic path) post ({ m with toLocal := l' }, d) g') :
    Prog.Safe (recoveryLogic path) post (.call (.disk c) k) (m, d) g := by
  refine recovery_disk hexit fun g' env r l' hg hinv hfaithful _ hfile hexec => ?_
  have hinv' : Consistent path none m d g' := hinv.before (fun heq => absurd (by simpa using heq) hset) none
  rw [hd]
  exact ⟨hinv'.keep (hentry env r l' hexec) hfile _, h g' env r l' hg hinv' hfaithful hexec⟩

/-- A call that changes the entry of a path that is not open. -/
lemma recovery_modify {c : LocalCall Path} {k : c.Answer → Program Path α} (f : Entry → Entry) (hexit : c ≠ .exit)
    (hno : m.NoHandle path) (hd : ∀ r, d.call path (.disk c) r = d)
    (hc : ∀ env r l', (env.fault = none ∨ Absent m.toLocal c) → c.exec env m.toLocal = some (r, l') →
      l' = m.toLocal.modify path f)
    (hf : ∀ r, (m.entry path).Accounted (some (.disk c)) path (d.possible path) d.wrote (g.files path) →
      (f (m.entry path)).Accounted (k r).next path (d.possible path) d.wrote (g.files path))
    (hdirty : (f (m.entry path)).dirty = (m.entry path).dirty ∨ (f (m.entry path)).dirty = false)
    (h : ∀ g' env r, g'.files path = g.files path → (env.fault = none ∨ Absent m.toLocal c) →
      c.exec env m.toLocal = some (r, m.toLocal.modify path f) →
        (k r).Safe (recoveryLogic path) post (m.modify path f, d) g') :
    Prog.Safe (recoveryLogic path) post (.call (.disk c) k) (m, d) g := by
  refine recovery_disk hexit fun g' env r l' hg hinv hfaithful _ _ hexec => ?_
  obtain rfl := hc env r l' hfaithful hexec
  rw [hd]
  have hno' : Mount.NoHandle path (m.modify path f) := hno
  refine ⟨⟨?_, hno'.right _, ?_⟩, h g' env r hg hfaithful hexec⟩
  · have haccounted := hf r (hg ▸ hinv.accounted)
    rw [hg]
    simpa using haccounted
  · rw [Local.modify_entry_self]
    rcases hdirty with hsame | hclean
    · rw [hsame]
      exact hinv.returning
    · rw [hclean]
      exact hinv.returning.clean

end Rules

end AFSv1.Client
