import AFSv1.Client.TimestampSound
import AFSv1.Foundations.Moments

/-! How current an open is and how lasting a release: the version behind an opened file was the server's at a moment
of the open, and a dirty file is the server's version at a moment of its release. -/
namespace AFSv1.Client
open Foundations Tables

variable {Path : Type} [DecidableEq Path]

/-- The entry has the time of a version that was current at one of the moments and, if it is clean, its content. -/
def Obtained (V : Remote Path → Prop) (path : Path) (e : Entry) : Prop :=
  ∃ g v, V g ∧ g.files path = some v ∧ e.last_modified = some (v.mtim : Bytes) ∧
    ∀ b, e.content = some b → e.dirty = false → b = v.content

/-- The entry is that of a local file, which it was before or the server has had none. -/
def LocallyCreated (V : Remote Path → Prop) (path : Path) (e₀ e : Entry) : Prop :=
  e.last_modified = some localCreatFile ∧ (e₀.last_modified = some localCreatFile ∨ ∃ g, V g ∧ g.files path = none)

/-- What an open leaves behind, begun with the entry `e₀`. A file behind the handle is the one in the cache. -/
def OpensCurrent (V : Remote Path → Prop) (path : Path) (e₀ : Entry) (out : Outcome) (m : Mount Path)
    (_ : Remote Path) : Prop :=
  out.rc = 0 → (Obtained V path (m.entry path) ∨ LocallyCreated V path e₀ (m.entry path)) ∧
    ∀ f, m.toLocal.file out.fh = some f → f.1 = path ∧ (m.entry path).cache = some f.2

/-- What a release leaves behind, begun with the entry `e₀`. -/
def ReleasesWhole (V : Remote Path → Prop) (path : Path) (e₀ : Entry) (out : Outcome) (m : Mount Path)
    (_ : Remote Path) : Prop :=
  out.rc = 0 → e₀.dirty = true → ∃ g v, V g ∧ g.files path = some v ∧ e₀.content = some v.content ∧
    m.entry path = { e₀ with is_dirty := some false, last_modified := some (v.mtim : Bytes) }

section Rules

variable {α : Type} {V : Remote Path → Prop} {post : α → Mount Path → Remote Path → Prop} {m : Mount Path}
  {g : Remote Path} {path : Path}

lemma ends_disk {c : LocalCall Path} {k : c.Answer → Program Path α}
    (h : ∀ g', m.Checked g' → V g' → ∀ env r l', Noticed env m.toLocal (.disk c) → c.exec env m.toLocal = some (r, l') →
      Mount.Checked { m with toLocal := l' } g' → (k r).Ends (checkLogic Path) V post { m with toLocal := l' } g') :
    Prog.Ends (checkLogic Path) V post (.call (.disk c) k) m g := by
  intro g' _ hinv hV env r m' g'' hok hexec hinv' _
  obtain ⟨l', hcall, rfl, rfl⟩ := machine_disk hexec
  exact h g'' hinv hV env r l' hok hcall hinv'

lemma ends_rpc {c : RemoteCall Path} {k : c.Answer → Program Path α}
    (h : ∀ g', m.Checked g' → V g' → ∀ env r g'', c.exec env g' = some (r, g'') → m.Checked g'' → V g'' →
      (k r).Ends (checkLogic Path) V post m g'') : Prog.Ends (checkLogic Path) V post (.call (.rpc c) k) m g := by
  intro g' _ hinv hV env r m' g'' _ hexec hinv' hV'
  obtain ⟨hcall, rfl⟩ := machine_rpc hexec
  exact h g' hinv hV env r g'' hcall hinv' hV'

/-- A call that only looks. -/
lemma ends_query {c : LocalCall Path} {k : c.Answer → Program Path α}
    (hc : ∀ env r l', c.exec env m.toLocal = some (r, l') → l' = m.toLocal)
    (h : ∀ g' env r, m.Checked g' → c.exec env m.toLocal = some (r, m.toLocal) →
      (k r).Ends (checkLogic Path) V post m g') : Prog.Ends (checkLogic Path) V post (.call (.disk c) k) m g := by
  refine ends_disk fun g' hinv _ env r l' _ hexec _ => ?_
  obtain rfl := hc env r l' hexec
  exact h g' env r hinv hexec

/-- A call that changes an entry. -/
lemma ends_modify {c : LocalCall Path} {k : c.Answer → Program Path α} (f : Entry → Entry)
    (hc : ∀ env r l', c.exec env m.toLocal = some (r, l') → l' = m.toLocal.modify path f)
    (h : ∀ g' m' r, m'.Checked g' → m'.entry path = f (m.entry path) → (k r).Ends (checkLogic Path) V post m' g') :
    Prog.Ends (checkLogic Path) V post (.call (.disk c) k) m g := by
  refine ends_disk fun g' _ _ env r l' _ hexec hinv' => ?_
  obtain rfl := hc env r l' hexec
  exact h g' _ r hinv' (by simp)

/-- A file is closed: the entries stay as they are. -/
lemma ends_close {fd : ℕ} {k : Except Errno Unit → Program Path α}
    (h : ∀ g' m' r, m'.Checked g' → m'.entry = m.entry → (k r).Ends (checkLogic Path) V post m' g') :
    Prog.Ends (checkLogic Path) V post (.call (.disk (.close fd)) k) m g := by
  refine ends_disk fun g' _ _ env r l' _ hexec hinv' => ?_
  rcases LocalCall.exec_close hexec with ⟨-, -, rfl⟩ | ⟨-, -, rfl⟩ <;> exact h g' _ r hinv' rfl

end Rules

section Open

variable {V : Remote Path → Prop} {path : Path} {e₀ : Entry} {m : Mount Path} {g : Remote Path}

lemma ends_openHandle (h : Obtained V path (m.entry path) ∨ LocallyCreated V path e₀ (m.entry path)) :
    (openHandle path).Ends (checkLogic Path) V (OpensCurrent V path e₀) m g := by
  rw [openHandle_eq]
  refine ends_disk fun g' _ _ env r l' _ hexec _ => ?_
  rcases LocalCall.exec_openFile hexec with ⟨i, fd, -, hcache, hlt, -, rfl, rfl⟩ | ⟨e, rfl, rfl, -⟩
  · intro g'' _ _ _ _
    refine ⟨h, fun f hf => ?_⟩
    rw [show fhOf (returned (.ok fd)) = fd from fhOf_natCast hlt, Local.file_of_lt _ hlt] at hf
    simp only [Function.update_self, Option.some.injEq] at hf
    subst hf
    exact ⟨rfl, hcache⟩
  · intro g'' _ _ _ _
    refine ⟨h, fun f hf => ?_⟩
    have hnone : m.toLocal.file (fhOf (returned (.error e))) = none := Local.file_badHandle _
    rw [hnone] at hf
    cases hf

/-- The messages have arrived, and the version that they were taken from was current at one of the moments. -/
lemma ends_received {msg : MetaContent} {msgs : List MetaContent} {ok : Bool} {v : Version} {g₀ : Remote Path}
    (hV : V g₀) (hv : g₀.files path = some v) (hok : ok = true → g₀.getContent path = msg :: msgs)
    (hcontent : ∀ b, (m.entry path).content = some b → b = (msg :: msgs).flatMap MetaContent.b) :
    (if ok = true then do
        disk (.lastModifiedSet path (msgs.getLastD msg).timestamp)
        disk (.isDirtySet path false)
        openHandle path
      else pure { rc := - Errno.EIO.number } : Program Path Outcome).Ends (checkLogic Path) V
        (OpensCurrent V path e₀) m g := by
  cases ok with
  | false => exact fun _ _ _ _ h => absurd h (by decide)
  | true =>
    have hmsgs := hok rfl
    rw [← hmsgs, Remote.flatMap_getContent hv] at hcontent
    refine ends_modify (fun e => { e with last_modified := some (msgs.getLastD msg).timestamp })
      (fun _ _ _ h => by cases h; rfl) fun g₁ m₁ _ _ hentry₁ => ?_
    refine ends_modify (fun e => { e with is_dirty := some false }) (fun _ _ _ h => by cases h; rfl)
      fun g₂ m₂ _ _ hentry₂ => ?_
    refine ends_openHandle (.inl ⟨g₀, v, hV, hv, ?_, fun b hb _ => hcontent b ?_⟩)
    · rw [hentry₂, hentry₁, Remote.getContent_timestamp hv hmsgs]
    · rw [← hb, hentry₂, hentry₁]
      rfl

/-- The server has no file. -/
lemma ends_createLocal {g₀ : Remote Path} (hV : V g₀) (hnone : g₀.files path = none) :
    (do
      disk (.lastModifiedSet path localCreatFile)
      let fd ← disk (.creat path)
      let _ ← disk (.close (fhOf (returned fd)))
      disk (.isDirtySet path false)
      openHandle path : Program Path Outcome).Ends (checkLogic Path) V (OpensCurrent V path e₀) m g := by
  refine ends_modify (fun e => { e with last_modified := some localCreatFile }) (fun _ _ _ h => by cases h; rfl)
    fun g₁ m₁ _ _ hentry₁ => ?_
  have htime₁ : (m₁.entry path).last_modified = some localCreatFile := by rw [hentry₁]
  refine ends_disk fun g₂ _ _ env₂ r₂ l₂ _ hexec₂ _ => ?_
  have htime₂ : (l₂.entry path).last_modified = some localCreatFile := by
    rw [LocalCall.exec_last_modified path hexec₂ (by simp) (by simp), htime₁]
  refine ends_close fun g₃ m₃ _ _ hentry₃ => ?_
  refine ends_modify (fun e => { e with is_dirty := some false }) (fun _ _ _ h => by cases h; rfl)
    fun g₄ m₄ _ _ hentry₄ => ?_
  refine ends_openHandle (.inr ⟨?_, .inr ⟨g₀, hV, hnone⟩⟩)
  rw [hentry₄, hentry₃]
  exact htime₂

lemma ends_download (hnone : (m.entry path).last_modified = none) :
    (download path).Ends (checkLogic Path) V (OpensCurrent V path e₀) m g := by
  refine ends_rpc fun g₀ _ _ env r g₀' hexec _ hV₀ => ?_
  obtain ⟨rfl, hr⟩ := RemoteCall.exec_GetContent hexec
  obtain ⟨msgs, ok⟩ := r
  have hfull : ok = true → g₀'.getContent path = msgs := by
    rintro rfl
    simpa [eq_comm] using hr
  have hmem : ∀ msg ∈ msgs, msg ∈ g₀'.getContent path := by
    simp only [Prod.mk.injEq] at hr
    rcases hr with ⟨rfl, -⟩ | ⟨n, rfl, -⟩
    · exact fun _ h => h
    · exact fun _ h => List.mem_of_mem_take h
  cases msgs with
  | nil => exact fun _ _ _ _ h => absurd h (by decide)
  | cons msg msgs =>
    dsimp only [Prog.bind]
    by_cases hexists : msg.file_exists = true
    · obtain ⟨v, hv, -⟩ := Remote.mem_getContent (hmem msg (by simp)) hexists
      rw [if_pos hexists]
      refine ends_disk fun g₁ _ hV₁ env₁ r₁ l₁ hok₁ hexec₁ hinv₁ => ?_
      rcases LocalCall.exec_ofstream hexec₁ with ⟨-, rfl, rfl⟩ | ⟨hfault, rfl, rfl⟩
      · set m₁ := m.modify path fun e => e.openTrunc.2 with hm₁
        have hnone₁ : (m₁.entry path).last_modified = none := by simpa [hm₁] using hnone
        have hwrite := check_writeChunks (m.entry path).openTrunc.1 (msg :: msgs) []
          (by simp [hm₁, Entry.openTrunc_cache]) (by simp [hm₁, Entry.openTrunc_inode]) hnone₁ hinv₁
        change Prog.Ends _ _ _ (writeChunks path (some (_, 0)) (msg :: msgs) >>= _) m₁ g₁
        refine Prog.Ends.bind (fun _ _ _ => id) hinv₁ hV₁ (hwrite.ends.mono fun _ m₂ g₂ _ _ h => ?_)
        exact ends_received hV₀ hv hfull fun b hb => by simpa [h.2, eq_comm] using hb
      · have hcache : (m.entry path).cache = none := hok₁.resolve_left hfault
        have hskip := writeChunks_none path (msg :: msgs)
        dsimp only [Prog.bind, Option.map_none]
        rw [hskip]
        exact ends_received hV₀ hv hfull fun b hb => by simp [Entry.content, hcache] at hb
    · have habsent : g₀'.files path = none := by
        cases hv : g₀'.files path with
        | none => rfl
        | some v =>
          have hin := hmem msg (by simp)
          simp only [Remote.getContent, hv] at hin
          obtain ⟨b, -, rfl⟩ := List.mem_map.mp hin
          exact absurd rfl hexists
      rw [if_neg hexists]
      exact ends_createLocal hV₀ habsent

/-- The time that `Stat` finds and the table has is that of the server's version. -/
lemma stat_current {env : Env} {r : StatContent} {t : Bytes} {g' : Remote Path} (hknown : g.Known t)
    (hexec : (RemoteCall.Stat path).exec env g = some (r, g')) (ht : r.st_mtim = t) :
    g' = g ∧ ∃ v, g.files path = some v ∧ t = v.mtim := by
  obtain ⟨rfl, rfl⟩ : g' = g ∧ r = if env.outage = .none then g.stat path else {} := by
    cases hexec
    exact ⟨rfl, rfl⟩
  have hne : t ≠ [] := by
    rintro rfl
    rcases hknown with hlocal | ⟨x, -, hx⟩
    · exact absurd hlocal (by decide)
    · have hlength := x.2.mtim.2
      rw [← hx] at hlength
      exact absurd hlength (by decide)
  refine ⟨rfl, ?_⟩
  split_ifs at ht
  · unfold Remote.stat at ht
    cases hv : g'.files path with
    | none =>
      rw [hv] at ht
      exact absurd ht.symm hne
    | some v =>
      rw [hv] at ht
      exact ⟨v, rfl, ht.symm⟩
  · exact absurd ht.symm hne

theorem ends_afsOpen (path : Path) : (afsOpen path).Ends (checkLogic Path) V (OpensCurrent V path (m.entry path)) m g := by
  refine ends_query (fun _ _ _ h => by cases h; rfl) fun g₁ env₁ count _ hcount => ?_
  dsimp only [Prog.bind]
  split_ifs with hone
  · obtain ⟨t, ht⟩ : ∃ t, (m.entry path).last_modified = some t := by
      cases hcount
      exact Option.ne_none_iff_exists'.mp (by simpa using hone)
    refine ends_query (fun _ _ _ h => by cases h; rfl) fun g₂ env₂ t₂ _ ht₂ => ?_
    obtain rfl : t₂ = t := by
      cases ht₂
      simp [ht]
    dsimp only [Prog.bind]
    split_ifs with hlocal
    · exact ends_openHandle (.inr ⟨by rw [ht, hlocal], .inl (by rw [ht, hlocal])⟩)
    · refine ends_rpc fun g₃ hinv₃ hV₃ env₃ stat_content g₃' hstat hinv₃' hV₃' => ?_
      refine ends_query (fun _ _ _ h => by cases h; rfl) fun g₄ env₄ t₄ _ ht₄ => ?_
      obtain rfl : t₄ = t₂ := by
        cases ht₄
        simp [ht]
      dsimp only [Prog.bind]
      split_ifs with hmatch
      · -- the cache is used: it has what the server has when `Stat` looks
        obtain ⟨rfl, v, hv, rfl⟩ := stat_current ((hinv₃.entry path).known _ ht) hstat hmatch
        refine ends_openHandle (.inl ⟨g₃', v, hV₃', hv, ht, fun b hb hclean => ?_⟩)
        exact ((hinv₃'.entry path).agrees _ b ht hb hclean v hv rfl).symm
      · refine ends_modify (fun e => { e with last_modified := none }) (fun _ _ _ h => by cases h; rfl)
          fun g₅ m₅ _ _ hentry₅ => ?_
        have hnone₅ : (m₅.entry path).last_modified = none := by rw [hentry₅]
        refine ends_disk fun g₆ _ _ env₆ r₆ l₆ _ hexec₆ _ => ends_download ?_
        rw [LocalCall.exec_last_modified path hexec₆ (by simp) (by simp), hnone₅]
  · refine ends_download ?_
    cases hcount
    simpa using hone

end Open

section Release

variable {V : Remote Path → Prop} {path : Path} {m : Mount Path} {g : Remote Path}

theorem ends_afsRelease (fuel fh : ℕ) :
    (afsRelease fuel path fh).Ends (checkLogic Path) V (ReleasesWhole V path (m.entry path)) m g := by
  refine ends_close fun g₁ m₁ _ _ hentry₁ => ?_
  refine ends_query (fun _ _ _ h => by cases h; rfl) fun g₂ env₂ dirty _ hdirty => ?_
  cases hdirty
  cases hd : (m₁.entry path).dirty with
  | false =>
    intro g' _ _ _ _ htrue
    rw [← hentry₁, hd] at htrue
    cases htrue
  | true =>
    refine ends_disk fun g₃ _ hV₃ env₃ r₃ l₃ _ hexec₃ hinv₃ => ?_
    obtain ⟨rfl, hr₃⟩ := LocalCall.exec_ifstream hexec₃
    cases r₃ with
    | none => exact ends_disk fun _ _ _ _ r => r.elim
    | some i =>
      have hcache : (m₁.entry path).cache = some i := by
        rcases hr₃ with ⟨-, h⟩ | ⟨h, -⟩
        · exact h.symm
        · cases h
      change Prog.Ends _ _ _ (upload path i fuel 0 [] >>= _) m₁ g₃
      refine Prog.Ends.bind (fun _ _ _ => id) hinv₃ hV₃ ?_
      refine (check_upload path i fuel 0 [] (by simp) (by simp) hinv₃).ends.mono fun r m₄ g₄ _ _ h => ?_
      obtain ⟨rfl, hsent⟩ := h
      obtain ⟨chunks, broken⟩ := r
      refine ends_rpc fun g₅ _ _ env₅ r₅ g₅' hexec₅ _ hV₅ => ?_
      obtain ⟨status, reply⟩ := r₅
      cases status with
      | OK =>
        obtain ⟨hne, hflat⟩ := hsent (RemoteCall.exec_Write_unbroken hexec₅)
        obtain ⟨-, -, hfresh, rfl, htime⟩ := RemoteCall.exec_Write_ok hexec₅ hne
        refine ends_modify (fun e => { e with is_dirty := some false }) (fun _ _ _ h => by cases h; rfl)
          fun g₆ m₆ _ _ hentry₆ => ?_
        refine ends_modify (fun e => { e with last_modified := some reply.timestamp }) (fun _ _ _ h => by cases h; rfl)
          fun g₇ m₇ _ _ hentry₇ => ?_
        intro g₈ _ _ _ _ _
        refine ⟨_, ⟨chunks.flatten, env₅.now⟩, hV₅, by simp [Remote.publish], ?_, ?_⟩
        · rw [← hentry₁, Entry.content, hcache, Option.map_some, hflat]
        · rw [hentry₇, hentry₆, hentry₁, htime]
      | CANCELLED | NOT_FOUND | UNAVAILABLE => exact fun _ _ _ _ h => absurd h (by decide)

end Release

end AFSv1.Client
