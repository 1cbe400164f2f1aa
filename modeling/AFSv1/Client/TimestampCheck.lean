import AFSv1.Client.Calls

/-! The timestamp check of `afs_open`: a cache file that is not dirty and whose recorded time is that of
the server's version holds the content of that version, unless a failed transfer went unnoticed. -/
namespace AFSv1.Client
open Foundations Tables

/-- What the timestamp check relies on, for one path. -/
structure Entry.Sound {Path : Type} (g : Remote Path) (path : Path) (e : Entry) : Prop where
  known : ∀ t, e.last_modified = some t → g.Known t
  agrees : ∀ t b, e.last_modified = some t → e.content = some b → e.dirty = false → g.Agrees path t b

structure Mount.Checked {Path : Type} (m : Mount Path) (g : Remote Path) : Prop where
  entry : ∀ path, (m.entry path).Sound g path
  handles : m.HandlesOk

section Facts

variable {Path : Type} {m : Mount Path} {g g' : Remote Path} {path : Path} {e : Entry}

lemma Entry.Sound.evolves (h : e.Sound g path) (hg : g.Evolves g') : e.Sound g' path :=
  ⟨fun t ht => hg.known (h.known t ht), fun t b ht hb hd => hg.agrees (h.known t ht) (h.agrees t b ht hb hd)⟩

lemma Mount.Checked.evolves (h : m.Checked g) (hg : g.Evolves g') : m.Checked g' :=
  ⟨fun p => (h.entry p).evolves hg, h.handles⟩

lemma Mount.Checked.fds (h : m.Checked g) {fd : ℕ} (hfd : m.Unused fd) (f : Option (Path × ℕ)) :
    Mount.Checked { m with fds := Function.update m.fds fd f } g := ⟨h.entry, h.handles.update hfd f⟩

/-- A change of one entry. -/
lemma Mount.Checked.modify [DecidableEq Path] (h : m.Checked g) (f : Entry → Entry)
    (hf : (f (m.entry path)).Sound g path) : (m.modify path f).Checked g := by
  refine ⟨fun p => ?_, h.handles.modify path f⟩
  by_cases hp : p = path
  · subst hp
    simpa using hf
  · simpa [Local.modify_entry_ne _ _ hp] using h.entry p

/-- The recorded time, if any, is that of a current version with the given content, or outdated. -/
def Entry.Settled (g : Remote Path) (path : Path) (e : Entry) (P : Bytes → Prop) : Prop :=
  ∀ t, e.last_modified = some t → g.Known t ∧ ∀ b, P b → g.Agrees path t b

lemma Entry.Settled.evolves {P : Bytes → Prop} (h : e.Settled g path P) (hg : g.Evolves g') :
    e.Settled g' path P := fun t ht =>
  ⟨hg.known (h t ht).1, fun b hb => hg.agrees (h t ht).1 ((h t ht).2 b hb)⟩

lemma Entry.Settled.sound {P : Bytes → Prop} (h : e.Settled g path P)
    (hcontent : ∀ b, e.content = some b → P b) : e.Sound g path :=
  ⟨fun t ht => (h t ht).1, fun t b ht hb _ => (h t ht).2 b (hcontent b hb)⟩

lemma Entry.settled_of_none {P : Bytes → Prop} (h : e.last_modified = none) : e.Settled g path P := by
  intro t ht
  rw [h] at ht
  cases ht

lemma Entry.sound_of_none (h : e.last_modified = none) : e.Sound g path :=
  (settled_of_none (P := fun _ => True) h).sound fun _ _ => trivial

lemma Entry.settled_localCreatFile {P : Bytes → Prop} (h : e.last_modified = some localCreatFile) :
    e.Settled g path P := by
  intro t ht
  rw [h, Option.some.injEq] at ht
  exact ⟨.inl ht.symm, fun b _ => ht ▸ g.agrees_localCreatFile path b⟩

/-- Where the server has no file, no recorded time is current, whatever the cache holds. -/
lemma Entry.Sound.settled_of_absent (h : e.Sound g path) (hnone : g.files path = none) : e.Settled g path fun _ => True :=
  fun t ht => ⟨h.known t ht, fun b _ => Remote.agrees_of_none hnone t b⟩

/-- After a new version no older time is current. -/
lemma Entry.settled_publish [DecidableEq Path] (h : ∀ t, e.last_modified = some t → g.Known t) (v : Version)
    (hfresh : g.Fresh v.mtim) : e.Settled (g.publish path v hfresh) path fun _ => True := by
  intro t ht
  refine ⟨(g.evolves_publish path v hfresh).known (h t ht), fun b _ w hw hwt => ?_⟩
  simp only [Remote.publish, Function.update_self, Option.some.injEq] at hw
  subst hw
  rcases h t ht with rfl | ⟨x, hx, rfl⟩
  · exact absurd hwt (Remote.localCreatFile_ne v.mtim)
  · exact absurd (Subtype.ext hwt) (hfresh x hx)

end Facts

variable {Path : Type} [DecidableEq Path]

/-- The failures that the code does not notice do not happen: a download opens and writes the cache
file, an upload reads it to its end. -/
def Noticed (env : Env) (l : Local Path) : Call Path → Prop
  | .disk (.ofstream path) => env.fault = none ∨ (l.entry path).cache = none
  | .disk (.ofstreamWrite _ _ _ b) => env.fault = none ∨ b = []
  | .disk (.ifstreamRead path i pos) => env.fault = none ∨ 0 < pos ∧ ((l.entry path).inode i).length ≤ pos
  | _ => True

omit [DecidableEq Path] in
lemma noticed_of_quiet {env : Env} (h : env.fault = none) (l : Local Path) (c : Call Path) : Noticed env l c := by
  unfold Noticed
  split <;> first | exact .inl h | trivial

/-- The logic in which the operations keep the check sound. -/
def checkLogic (Path : Type) [DecidableEq Path] :
    Prog.Logic (Call Path) Call.Answer Env (Mount Path) (Remote Path) where
  exec := (machine Path).exec
  ok env c m _ := Noticed env m.toLocal c
  rely _ _ := Remote.Evolves
  inv _ := Mount.Checked
  rely_refl _ _ := .refl
  rely_trans _ _ _ _ _ := .trans
  inv_call _ _ _ := id

section Rules

variable {α : Type} {post : α → Mount Path → Remote Path → Prop} {m : Mount Path} {g : Remote Path} {path : Path}

lemma check_disk {c : LocalCall Path} {k : c.Answer → Program Path α}
    (h : ∀ g', g.Evolves g' → m.Checked g' → ∀ env r l', Noticed env m.toLocal (.disk c) →
      c.exec env m.toLocal = some (r, l') →
      Mount.Checked { m with toLocal := l' } g' ∧ (k r).Safe (checkLogic Path) post { m with toLocal := l' } g') :
    Prog.Safe (checkLogic Path) post (.call (.disk c) k) m g :=
  safe_disk rfl fun g' hg hinv => ⟨trivial, fun env r l' hok hexec => h g' hg hinv env r l' hok hexec⟩

lemma check_rpc {c : RemoteCall Path} {k : c.Answer → Program Path α}
    (h : ∀ g', g.Evolves g' → m.Checked g' → ∀ env r g'', c.exec env g' = some (r, g'') →
      m.Checked g'' → (k r).Safe (checkLogic Path) post m g'') :
    Prog.Safe (checkLogic Path) post (.call (.rpc c) k) m g := by
  refine safe_rpc rfl fun g' hg hinv => ⟨trivial, fun env r g'' hok hexec => ?_⟩
  have hinv' : m.Checked g'' := hinv.evolves (RemoteCall.exec_evolves hexec)
  exact ⟨hinv', h g' hg hinv env r g'' hexec hinv'⟩

/-- A call that only looks. -/
lemma check_query {c : LocalCall Path} {k : c.Answer → Program Path α}
    (hc : ∀ env r l', c.exec env m.toLocal = some (r, l') → l' = m.toLocal)
    (h : ∀ g', g.Evolves g' → m.Checked g' → ∀ env r, Noticed env m.toLocal (.disk c) →
      c.exec env m.toLocal = some (r, m.toLocal) → (k r).Safe (checkLogic Path) post m g') :
    Prog.Safe (checkLogic Path) post (.call (.disk c) k) m g := by
  refine check_disk fun g' hg hinv env r l' hok hexec => ?_
  obtain rfl := hc env r l' hexec
  exact ⟨hinv, h g' hg hinv env r hok hexec⟩

/-- A call that changes an entry. -/
lemma check_modify {c : LocalCall Path} {k : c.Answer → Program Path α} (f : Entry → Entry)
    (hc : ∀ env r l', c.exec env m.toLocal = some (r, l') → l' = m.toLocal.modify path f)
    (hf : ∀ g', g.Evolves g' → m.Checked g' → (f (m.entry path)).Sound g' path)
    (h : ∀ g' m' r, g.Evolves g' → m'.Checked g' → m'.entry path = f (m.entry path) → m'.fds = m.fds →
      m'.handles = m.handles → (k r).Safe (checkLogic Path) post m' g') :
    Prog.Safe (checkLogic Path) post (.call (.disk c) k) m g := by
  refine check_disk fun g' hg hinv env r l' hok hexec => ?_
  obtain rfl := hc env r l' hexec
  have hinv' := hinv.modify f (hf g' hg hinv)
  exact ⟨hinv', h g' _ r hg hinv' (by simp) rfl rfl⟩

end Rules

section Operations

variable {m : Mount Path} {g : Remote Path} {path : Path}

/-- What FUSE gets of an open. -/
def OpensHandle (path : Path) (out : Outcome) (m : Mount Path) (_ : Remote Path) : Prop :=
  out.rc = 0 → m.Opened path out.fh

theorem check_openHandle (path : Path) : (openHandle path).Safe (checkLogic Path) (OpensHandle path) m g := by
  rw [openHandle_eq]
  refine check_disk fun g' hg hinv env r l' hok hexec => ?_
  rcases LocalCall.exec_openFile hexec with ⟨i, fd, -, -, hlt, hfree, rfl, rfl⟩ | ⟨e, rfl, rfl, -⟩
  · have hunused := hinv.handles.unused hfree
    refine ⟨hinv.fds hunused _, fun g'' _ _ _ => .inr ?_⟩
    rw [show fhOf (returned (.ok fd)) = fd from fhOf_natCast hlt]
    exact ⟨hlt, ⟨i, by simp⟩, hunused⟩
  · exact ⟨hinv, fun g'' _ _ _ => .inl rfl⟩

omit [DecidableEq Path] in
/-- The stream failed before: nothing is written. -/
lemma writeChunks_none (path : Path) (msgs : List MetaContent) : writeChunks path none msgs = .ret () := by
  induction msgs with
  | nil => rfl
  | cons msg msgs ih => exact ih

/-- A stream whose writes are noticed leaves the messages' bytes in the cache file. -/
theorem check_writeChunks (i : ℕ) (msgs : List MetaContent) (b : Bytes) (hcache : (m.entry path).cache = some i)
    (hinode : (m.entry path).inode i = b) (hnone : (m.entry path).last_modified = none) (hinv : m.Checked g) :
    (writeChunks path (some (i, b.length)) msgs).Safe (checkLogic Path) (fun _ m' _ =>
      (m'.entry path).last_modified = none ∧ (m'.entry path).content = some (b ++ msgs.flatMap MetaContent.b)) m g := by
  induction msgs generalizing m g b with
  | nil =>
    intro g' _ _
    simp [hnone, Entry.content, hcache, hinode]
  | cons msg msgs ih =>
    refine check_disk fun g' hg hinv env r l' hok hexec => ?_
    rcases LocalCall.exec_ofstreamWrite hexec with ⟨rfl, rfl⟩ | ⟨-, -, hfault, hb⟩
    · set m' := m.modify path fun e => e.setInode i ((e.inode i).overlay b.length msg.b) with hm'
      have hnone' : (m'.entry path).last_modified = none := by simpa [hm'] using hnone
      have hinv' : m'.Checked g' := hinv.modify _ (Entry.sound_of_none hnone)
      have hrest := ih (b ++ msg.b) (by simpa [hm'] using hcache) (by simp [hm', hinode, Bytes.overlay_append]) hnone' hinv'
      rw [List.length_append, List.append_assoc] at hrest
      exact ⟨hinv', hrest⟩
    · exact absurd hok (by simp [Noticed, hfault, hb])

/-- The end of a download: the cache file has the content of the version whose time is recorded. -/
lemma check_settle {t : Bytes} {P : Bytes → Prop} (hknown : g.Known t) (hagrees : ∀ b, P b → g.Agrees path t b)
    (hcontent : ∀ b, (m.entry path).content = some b → P b) :
    (Prog.call (.disk (.lastModifiedSet path t)) fun _ => .call (.disk (.isDirtySet path false)) fun _ =>
      openHandle path : Program Path Outcome).Safe (checkLogic Path) (OpensHandle path) m g := by
  have hset : Entry.Settled g path { m.entry path with last_modified := some t } P := by
    rintro _ ⟨⟩
    exact ⟨hknown, hagrees⟩
  refine check_modify (fun e => { e with last_modified := some t }) (fun _ _ _ h => by cases h; rfl)
    (fun g' hg hinv => (hset.evolves hg).sound hcontent) fun g' m' r hg hinv hentry _ _ => ?_
  refine check_modify (fun e => { e with is_dirty := some false }) (fun _ _ _ h => by cases h; rfl)
    (fun g'' hg' hinv' => ?_) fun g'' m'' r hg' hinv' _ _ _ => check_openHandle path
  rw [hentry]
  exact Entry.Settled.sound (P := P) (fun t ht => ((hset.evolves hg).evolves hg') t ht) hcontent

/-- The rest of a download once the messages are in the cache file. -/
lemma check_received {msg : MetaContent} {msgs : List MetaContent} {ok : Bool} {v : Version} {g₀ : Remote Path}
    (hv : g₀.files path = some v) (hg₀ : g₀.Evolves g) (hok : ok = true → msg :: msgs = g₀.getContent path)
    (hcontent : ∀ b, (m.entry path).content = some b → b = (msg :: msgs).flatMap MetaContent.b) :
    (if ok = true then do
        disk (.lastModifiedSet path (msgs.getLastD msg).timestamp)
        disk (.isDirtySet path false)
        openHandle path
      else pure { rc := - Errno.EIO.number } : Program Path Outcome).Safe (checkLogic Path) (OpensHandle path) m g := by
  cases ok with
  | false => exact fun _ _ _ h => absurd h (by decide)
  | true =>
    have hmsgs := hok rfl
    have htime : (msgs.getLastD msg).timestamp = v.mtim := by
      have hmem : msgs.getLastD msg ∈ g₀.getContent path := by
        rw [← hmsgs, List.getLastD_eq_getLast?]
        cases hl : msgs.getLast? with
        | none => simp
        | some x => exact List.mem_cons_of_mem _ (List.mem_of_getLast? hl)
      rw [Remote.getContent, hv] at hmem
      obtain ⟨b, -, hb⟩ := List.mem_map.mp hmem
      rw [← hb]
    rw [hmsgs, Remote.flatMap_getContent hv] at hcontent
    rw [if_pos rfl, htime]
    refine check_settle (P := (· = v.content)) (hg₀.known (Remote.known_of_current hv)) ?_ hcontent
    rintro _ rfl
    exact hg₀.agrees (Remote.known_of_current hv) (Remote.agrees_of_current hv)

/-- A descriptor that no handle uses is closed. -/
lemma check_close {α : Type} {post : α → Mount Path → Remote Path → Prop} {fd : ℕ} {k : Except Errno Unit → Program Path α}
    (hfd : m.toLocal.file fd = none ∨ fd < 2 ^ 31 ∧ m.Unused fd)
    (h : ∀ g' m' r, g.Evolves g' → m'.Checked g' → m'.entry = m.entry → m'.handles = m.handles →
      (k r).Safe (checkLogic Path) post m' g') :
    Prog.Safe (checkLogic Path) post (.call (.disk (.close fd)) k) m g := by
  refine check_disk fun g' hg hinv env r l' _ hexec => ?_
  rcases LocalCall.exec_close hexec with ⟨hsome, -, rfl⟩ | ⟨-, -, rfl⟩
  · obtain ⟨hlt, hunused⟩ := hfd.resolve_left (by simpa [Option.isSome_iff_ne_none] using hsome)
    have hfd' : (intOf fd).toNat = fd := by rw [intOf_of_lt hlt, Int.toNat_natCast]
    rw [hfd']
    have hinv' := hinv.fds hunused none
    exact ⟨hinv', h g' _ r hg hinv' rfl rfl⟩
  · exact ⟨hinv, h g' m r hg hinv rfl rfl⟩

/-- A call that opens a file under a new descriptor. -/
lemma Mount.Checked.allocate (h : m.Checked g) (f : Entry → Entry) (hf : (f (m.entry path)).Sound g path) {fd i : ℕ}
    (hfree : m.fds fd = none) :
    Mount.Checked { m with toLocal := { m.toLocal.modify path f with fds := Function.update m.fds fd (some (path, i)) } } g :=
  (h.modify f hf).fds (h.handles.unused hfree) _

/-- The marker of a local file is never the time of a version. -/
lemma check_createLocal (path : Path) :
    (do
      disk (.lastModifiedSet path localCreatFile)
      let fd ← disk (.creat path)
      let _ ← disk (.close (fhOf (returned fd)))
      disk (.isDirtySet path false)
      openHandle path : Program Path Outcome).Safe (checkLogic Path) (OpensHandle path) m g := by
  have hlocal {e : Entry} {g : Remote Path} (h : e.last_modified = some localCreatFile) : e.Sound g path :=
    (Entry.settled_localCreatFile (P := fun _ => True) h).sound fun _ _ => trivial
  have hrest {m : Mount Path} {g : Remote Path} {r : Except Errno ℕ} (hlm : (m.entry path).last_modified = some localCreatFile)
      (hfd : m.toLocal.file (fhOf (returned r)) = none ∨ fhOf (returned r) < 2 ^ 31 ∧ m.Unused (fhOf (returned r))) :
      (do
        let _ ← disk (.close (fhOf (returned r)))
        disk (.isDirtySet path false)
        openHandle path : Program Path Outcome).Safe (checkLogic Path) (OpensHandle path) m g := by
    refine check_close hfd fun g' m' _ _ _ hentry _ => ?_
    refine check_modify (fun e => { e with is_dirty := some false }) (fun _ _ _ h => by cases h; rfl)
      (fun _ _ _ => hlocal (by rw [hentry]; exact hlm)) fun _ _ _ _ _ _ _ _ => check_openHandle path
  refine check_modify (fun e => { e with last_modified := some localCreatFile }) (fun _ _ _ h => by cases h; rfl)
    (fun _ _ _ => hlocal rfl) fun g₁ m₁ _ hg₁ hinv₁ hentry₁ _ _ => ?_
  have hlm₁ : (m₁.entry path).last_modified = some localCreatFile := by rw [hentry₁]
  refine check_disk fun g₂ hg₂ hinv₂ env₂ r₂ l₂ _ hexec₂ => ?_
  rcases LocalCall.exec_creat hexec₂ with ⟨fd, -, hlt, hfree, rfl, rfl⟩ | ⟨e, rfl, rfl, -⟩
  · have hlm₂ : ((m₁.entry path).openTrunc.2).last_modified = some localCreatFile := by simpa using hlm₁
    refine ⟨hinv₂.allocate (fun e => e.openTrunc.2) (hlocal hlm₂) hfree, hrest (by simpa using hlm₁) (.inr ?_)⟩
    rw [show fhOf (returned (.ok fd)) = fd from fhOf_natCast hlt]
    exact ⟨hlt, hinv₂.handles.unused hfree⟩
  · exact ⟨hinv₂, hrest hlm₁ (.inl (Local.file_badHandle _))⟩

theorem check_download (path : Path) (hnone : (m.entry path).last_modified = none) :
    (download path).Safe (checkLogic Path) (OpensHandle path) m g := by
  refine check_rpc fun g' hg hinv env r g'' hexec hinv' => ?_
  obtain ⟨rfl, hr⟩ := RemoteCall.exec_GetContent hexec
  obtain ⟨msgs, ok⟩ := r
  have hmem : ∀ msg ∈ msgs, msg ∈ g''.getContent path := by
    simp only [Prod.mk.injEq] at hr
    rcases hr with ⟨rfl, -⟩ | ⟨n, rfl, -⟩
    · exact fun _ h => h
    · exact fun _ h => List.mem_of_mem_take h
  cases msgs with
  | nil => exact fun _ _ _ h => absurd h (by decide)
  | cons msg msgs =>
    dsimp only [Prog.bind]
    by_cases hexists : msg.file_exists = true
    · obtain ⟨v, hv, -⟩ := Remote.mem_getContent (hmem msg (by simp)) hexists
      have hfull : ok = true → msg :: msgs = g''.getContent path := by
        rintro rfl
        simpa using hr
      rw [if_pos hexists]
      refine check_disk fun g₁ hg₁ hinv₁ env₁ r₁ l₁ hok₁ hexec₁ => ?_
      rcases LocalCall.exec_ofstream hexec₁ with ⟨-, rfl, rfl⟩ | ⟨hfault, rfl, rfl⟩
      · set m₁ := m.modify path fun e => e.openTrunc.2 with hm₁
        have hnone₁ : (m₁.entry path).last_modified = none := by simpa [hm₁] using hnone
        have hinv' : m₁.Checked g₁ := hinv₁.modify _ (Entry.sound_of_none (by simpa using hnone))
        have hwrite := check_writeChunks (m.entry path).openTrunc.1 (msg :: msgs) []
          (by simp [hm₁, Entry.openTrunc_cache]) (by simp [hm₁, Entry.openTrunc_inode]) hnone₁ hinv'
        refine ⟨hinv', ?_⟩
        change Prog.Safe _ _ (writeChunks path (some (_, 0)) (msg :: msgs) >>= _) m₁ g₁
        refine Prog.Safe.bind hinv' ?_
        refine (hwrite.remember (fun _ _ _ => .trans) (fun _ _ _ _ => id) (fun _ _ _ _ _ _ _ _ => machine_evolves) hg₁).mono fun _ m₂ g₂ hinv₂ h => ?_
        exact check_received hv h.1 hfull fun b hb => by simpa [h.2.2, eq_comm] using hb
      · have hcache : (m.entry path).cache = none := hok₁.resolve_left hfault
        refine ⟨hinv₁, ?_⟩
        have hskip := writeChunks_none path (msg :: msgs)
        have hrest := check_received (m := m) hv hg₁ hfull fun b hb => by simp [Entry.content, hcache] at hb
        dsimp only [Prog.bind, Option.map_none]
        rw [hskip]
        exact hrest
    · rw [if_neg hexists]
      exact check_createLocal path

theorem check_afsOpen (path : Path) : (afsOpen path).Safe (checkLogic Path) (OpensHandle path) m g := by
  refine check_query (fun _ _ _ h => by cases h; rfl) fun g₁ hg₁ hinv₁ env₁ count _ hcount => ?_
  dsimp only [Prog.bind]
  split_ifs with hone
  · refine check_query (fun _ _ _ h => by cases h; rfl) fun g₂ hg₂ hinv₂ env₂ t _ _ => ?_
    dsimp only [Prog.bind]
    split_ifs with hlocal
    · exact check_openHandle path
    · refine check_rpc fun g₃ hg₃ _ env₃ stat_content g₃' hstat hinv₃ => ?_
      refine check_query (fun _ _ _ h => by cases h; rfl) fun g₄ hg₄ hinv₄ env₄ t _ _ => ?_
      dsimp only [Prog.bind]
      split_ifs with hmatch
      · exact check_openHandle path
      · refine check_modify (fun e => { e with last_modified := none }) (fun _ _ _ h => by cases h; rfl)
          (fun _ _ _ => Entry.sound_of_none rfl) fun g₅ m₅ _ hg₅ hinv₅ hentry₅ _ _ => ?_
        have hnone₅ : (m₅.entry path).last_modified = none := by rw [hentry₅]
        refine check_disk fun g₆ hg₆ hinv₆ env₆ r₆ l₆ _ hexec₆ => ?_
        rcases LocalCall.exec_unlink hexec₆ with ⟨-, -, rfl⟩ | ⟨e, -, rfl, -⟩
        · exact ⟨hinv₆.modify _ (Entry.sound_of_none hnone₅), check_download path (by simpa using hnone₅)⟩
        · exact ⟨hinv₆, check_download path hnone₅⟩
  · have hnone : (m.entry path).last_modified = none := by
      cases hcount
      by_contra hsome
      exact hone (by simp [Option.isSome_iff_ne_none, hsome])
    exact check_download path hnone

/-- The chunks that an upload sends are the file, unless the stream breaks. -/
theorem check_upload (path : Path) (i : ℕ) (fuel pos : ℕ) (chunks : List Bytes)
    (hchunks : chunks.flatten = ((m.entry path).inode i).take pos) (hpos : 0 < pos → chunks ≠ []) (hinv : m.Checked g) :
    (upload path i fuel pos chunks).Safe (checkLogic Path) (fun r m' _ => m' = m ∧
      (r.2 = false → r.1 ≠ [] ∧ r.1.flatten = (m.entry path).inode i)) m g := by
  induction fuel generalizing g pos chunks with
  | zero => exact check_disk fun _ _ _ _ r => r.elim
  | succ fuel ih =>
    refine check_disk fun g₁ hg₁ hinv₁ env₁ r₁ l₁ hok₁ hexec₁ => ?_
    obtain ⟨rfl, ⟨-, rfl⟩ | ⟨hfault, rfl⟩⟩ := LocalCall.exec_ifstreamRead hexec₁
    · refine ⟨hinv₁, check_rpc fun g₂ hg₂ _ env₂ sent g₂' _ hinv₂ => ?_⟩
      set buf := (((m.entry path).inode i).drop pos).take BUFSIZE with hbuf
      have hnext : (chunks ++ [buf]).flatten = ((m.entry path).inode i).take (pos + buf.length) := by
        rw [List.flatten_append, hchunks, List.take_add]
        simp [hbuf]
      dsimp only [Prog.bind]
      split_ifs with hsent hshort
      · intro g' _ _
        refine ⟨rfl, fun _ => ⟨by simp, ?_⟩⟩
        rw [hnext, List.take_of_length_le]
        simp only [hbuf, List.length_take, List.length_drop] at hshort ⊢
        omega
      · exact ih _ _ hnext (fun _ => by simp) hinv₂
      · exact fun _ _ _ => ⟨rfl, fun h => by simp at h⟩
    · refine ⟨hinv₁, fun _ _ _ => ⟨rfl, fun _ => ?_⟩⟩
      obtain ⟨hlt, hend⟩ := hok₁.resolve_left hfault
      exact ⟨hpos hlt, by rw [hchunks, List.take_of_length_le hend]⟩

/-- The operations other than `afs_open` leave nothing for FUSE to note. -/
def Anything (_ : Outcome) (_ : Mount Path) (_ : Remote Path) : Prop := True

theorem check_afsRelease (fuel : ℕ) (path : Path) (fh : ℕ)
    (hfd : m.toLocal.file fh = none ∨ fh < 2 ^ 31 ∧ m.Unused fh) :
    (afsRelease fuel path fh).Safe (checkLogic Path) Anything m g := by
  refine check_close hfd fun g₁ m₁ _ hg₁ _ _ _ => ?_
  refine check_query (fun _ _ _ h => by cases h; rfl) fun g₂ hg₂ hinv₂ env₂ dirty _ _ => ?_
  cases dirty with
  | false => exact fun _ _ _ => trivial
  | true =>
    refine check_disk fun g₃ hg₃ hinv₃ env₃ r₃ l₃ _ hexec₃ => ?_
    obtain ⟨rfl, hr₃⟩ := LocalCall.exec_ifstream hexec₃
    refine ⟨hinv₃, ?_⟩
    cases r₃ with
    | none => exact check_disk fun _ _ _ _ r => r.elim
    | some i =>
      have hcache : (m₁.entry path).cache = some i := by
        rcases hr₃ with ⟨-, h⟩ | ⟨h, -⟩
        · exact h.symm
        · cases h
      change Prog.Safe _ _ (upload path i fuel 0 [] >>= _) m₁ g₃
      refine Prog.Safe.bind hinv₃ ?_
      refine (check_upload path i fuel 0 [] (by simp) (by simp) hinv₃).mono fun r m₄ g₄ hinv₄ h => ?_
      obtain ⟨rfl, hsent⟩ := h
      obtain ⟨chunks, broken⟩ := r
      refine check_rpc fun g₅ hg₅ hinv₅ env₅ r₅ g₅' hexec₅ hinv₅' => ?_
      obtain ⟨status, reply⟩ := r₅
      cases status with
      | OK =>
        obtain ⟨hne, hflat⟩ := hsent (RemoteCall.exec_Write_unbroken hexec₅)
        obtain ⟨-, -, hfresh, rfl, htime⟩ := RemoteCall.exec_Write_ok hexec₅ hne
        have hold : (m₄.entry path).Settled (g₅.publish path ⟨chunks.flatten, env₅.now⟩ hfresh) path fun _ => True :=
          Entry.settled_publish (hinv₅.entry path).known _ hfresh
        refine check_modify (fun e => { e with is_dirty := some false }) (fun _ _ _ h => by cases h; rfl)
          (fun g₆ hg₆ _ => ?_) fun g₆ m₆ _ hg₆ hinv₆ hentry₆ _ _ => ?_
        · exact Entry.Settled.sound (P := fun _ => True) (fun t ht => hold.evolves hg₆ t ht) fun _ _ => trivial
        refine check_modify (fun e => { e with last_modified := some reply.timestamp })
          (fun _ _ _ h => by cases h; rfl) (fun g₇ hg₇ _ => ?_) fun _ _ _ _ _ _ _ _ _ _ _ => trivial
        have hagrees := g₅.agrees_publish path ⟨chunks.flatten, env₅.now⟩ hfresh
        have hknown := g₅.known_publish path ⟨chunks.flatten, env₅.now⟩ hfresh
        have hset : Entry.Settled g₇ path { m₆.entry path with last_modified := some reply.timestamp }
            (· = chunks.flatten) := by
          rintro _ ⟨⟩
          rw [htime]
          refine ⟨hg₇.known (hg₆.known hknown), ?_⟩
          rintro _ rfl
          exact hg₇.agrees (hg₆.known hknown) (hg₆.agrees hknown hagrees)
        refine hset.sound fun b hb => ?_
        simpa [hentry₆, Entry.content, hcache, hflat, eq_comm] using hb
      | CANCELLED | NOT_FOUND | UNAVAILABLE => exact fun _ _ _ => trivial

theorem check_afsMknod (path : Path) : (afsMknod path).Safe (checkLogic Path) Anything m g := by
  refine check_rpc fun g₁ hg₁ _ env₁ stat_content g₁' hstat hinv₁ => ?_
  dsimp only [Prog.bind]
  split_ifs with hexists
  · exact fun _ _ _ => trivial
  have hset : (m.entry path).Settled g₁' path fun _ => True := by
    obtain ⟨rfl, rfl⟩ : g₁' = g₁ ∧ stat_content = if env₁.outage = .none then g₁.stat path else {} := by
      cases hstat
      exact ⟨rfl, rfl⟩
    refine (hinv₁.entry path).settled_of_absent ?_
    by_contra hsome
    obtain ⟨v, hv⟩ := Option.ne_none_iff_exists'.mp hsome
    refine hexists ?_
    split_ifs
    · simp [Remote.stat, hv]
    · rfl
  refine check_disk fun g₂ hg₂ hinv₂ env₂ r₂ l₂ _ hexec₂ => ?_
  rcases LocalCall.exec_openExcl hexec₂ with ⟨fd, -, -, hlt, hfree, rfl, rfl⟩ | ⟨e, rfl, rfl, -⟩
  · have hset₂ : Entry.Settled g₂ path (m.entry path).openTrunc.2 fun _ => True := by
      intro t ht
      exact hset.evolves hg₂ t (by simpa using ht)
    refine ⟨hinv₂.allocate (fun e => e.openTrunc.2) (hset₂.sound fun _ _ => trivial) hfree, ?_⟩
    refine check_close (.inr ⟨hlt, hinv₂.handles.unused hfree⟩) fun g₃ m₃ r₃ _ _ hentry₃ _ => ?_
    cases r₃ with
    | error e => exact fun _ _ _ => trivial
    | ok u =>
      refine check_rpc fun g₄ _ _ env₄ sent g₄' _ _ => ?_
      refine check_rpc fun g₅ hg₅ hinv₅ env₅ r₅ g₅' hexec₅ hinv₅' => ?_
      obtain ⟨status, reply⟩ := r₅
      cases status with
      | OK =>
        obtain rfl : sent = true := by simpa using RemoteCall.exec_Write_unbroken hexec₅
        obtain ⟨-, -, hfresh, rfl, htime⟩ := RemoteCall.exec_Write_ok hexec₅ (by simp)
        refine check_modify (fun e => { e with last_modified := some reply.timestamp })
          (fun _ _ _ h => by cases h; rfl) (fun g₆ hg₆ _ => ?_) fun _ _ _ _ _ _ _ _ _ _ _ => trivial
        have hagrees := g₅.agrees_publish path ⟨[], env₅.now⟩ hfresh
        have hknown := g₅.known_publish path ⟨[], env₅.now⟩ hfresh
        have hset' : Entry.Settled g₆ path { m₃.entry path with last_modified := some reply.timestamp } (· = []) := by
          rintro _ ⟨⟩
          rw [htime]
          refine ⟨hg₆.known hknown, ?_⟩
          rintro _ rfl
          exact hg₆.agrees hknown hagrees
        refine hset'.sound fun b hb => ?_
        have hcontent := Entry.openTrunc_content (m.entry path)
        simp only [Entry.content, hentry₃, Local.modify_entry_self] at hb hcontent
        rw [hcontent, Option.some.injEq] at hb
        exact hb.symm
      | CANCELLED | NOT_FOUND | UNAVAILABLE => exact fun _ _ _ => trivial
  · exact ⟨hinv₂, fun _ _ _ => trivial⟩

theorem check_afsUnlink (path : Path) : (afsUnlink path).Safe (checkLogic Path) Anything m g := by
  have hrest {m : Mount Path} {g : Remote Path} :
      (do
        disk (.lastModifiedErase path)
        disk (.isDirtyErase path)
        let res ← rpc (.Unlink path)
        return { rc := if res.return_code < 0 then -res.error_number else res.return_code } : Program Path Outcome).Safe
          (checkLogic Path) Anything m g := by
    refine check_modify (fun e => { e with last_modified := none }) (fun _ _ _ h => by cases h; rfl)
      (fun _ _ _ => Entry.sound_of_none rfl) fun g₁ m₁ _ _ _ hentry₁ _ _ => ?_
    refine check_modify (fun e => { e with is_dirty := none }) (fun _ _ _ h => by cases h; rfl)
      (fun _ _ _ => Entry.sound_of_none (by rw [hentry₁])) fun g₂ m₂ _ _ _ _ _ _ => ?_
    exact check_rpc fun _ _ _ _ _ _ _ _ _ _ _ => trivial
  refine check_disk fun g₁ hg₁ hinv₁ env₁ r₁ l₁ _ hexec₁ => ?_
  rcases LocalCall.exec_unlink hexec₁ with ⟨-, -, rfl⟩ | ⟨e, -, rfl, -⟩
  · refine ⟨hinv₁.modify _ ⟨(hinv₁.entry path).known, fun t b _ hb => ?_⟩, hrest⟩
    simp [Entry.content] at hb
  · exact ⟨hinv₁, hrest⟩

theorem check_afsWrite (path : Path) (buf : Bytes) (offset fh : ℕ) (hmem : (path, fh) ∈ m.handles) :
    (afsWrite path buf offset fh).Safe (checkLogic Path) Anything m g := by
  have hdirty (e : Entry) (g : Remote Path) (hknown : ∀ t, e.last_modified = some t → g.Known t)
      (hd : e.dirty = true) : e.Sound g path := by
    refine ⟨hknown, fun _ _ _ _ hclean => ?_⟩
    rw [hd] at hclean
    cases hclean
  refine check_modify (fun e => { e with is_dirty := some true }) (fun _ _ _ h => by cases h; rfl)
    (fun g₁ _ hinv₁ => hdirty _ _ (hinv₁.entry path).known rfl) fun g₁ m₁ _ _ _ hentry₁ _ hhandles₁ => ?_
  refine check_disk fun g₂ hg₂ hinv₂ env₂ r₂ l₂ _ hexec₂ => ?_
  rcases LocalCall.exec_pwrite hexec₂ with ⟨f, -, hfile, rfl, rfl⟩ | ⟨e, rfl, rfl, -⟩
  · obtain ⟨q, i⟩ := f
    obtain rfl := hinv₂.handles.file (hhandles₁ ▸ hmem) hfile
    refine ⟨hinv₂.modify _ (hdirty _ _ (hinv₂.entry q).known ?_), fun _ _ _ => trivial⟩
    rw [hentry₁]
    rfl
  · exact ⟨hinv₂, fun _ _ _ => trivial⟩

theorem check_afsRead (fh size offset : ℕ) : (afsRead fh size offset).Safe (checkLogic Path) Anything m g := by
  refine check_query (fun _ _ _ h => ?_) fun g₁ _ _ env₁ r₁ _ _ => ?_
  · simp only [LocalCall.exec] at h
    split at h <;> cases h <;> rfl
  · cases r₁ <;> exact fun _ _ _ => trivial

theorem check_afsFsync (fh : ℕ) : (afsFsync fh).Safe (checkLogic Path) Anything m g := by
  refine check_query (fun _ _ _ h => ?_) fun g₁ _ _ env₁ r₁ _ _ => fun _ _ _ => trivial
  simp only [LocalCall.exec] at h
  split at h <;> cases h <;> rfl

end Operations

end AFSv1.Client
