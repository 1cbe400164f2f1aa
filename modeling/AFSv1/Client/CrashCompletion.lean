import AFSv1.Client.CrashOperations

/-! After a crash the client can always come back: with calls that succeed, `afs_open` and `afs_release` run to their
ends. -/
namespace AFSv1.Client
open Foundations Tables

variable {Path : Type} [DecidableEq Path]

/-- Nothing fails. -/
def Calm (env : Env) : Prop := env.fault = none ∧ Successful env

/-- A client alone whose calls do not fail; each has to be answered. -/
def calmLogic (Path : Type) [DecidableEq Path] : Prog.Logic (Call Path) Call.Answer Env (Mount Path) (Remote Path) where
  __ := aloneLogic Path
  ok env _ _ _ := Calm env
  pre c m g := ∃ env, Calm env ∧ ((machine Path).exec env c m g).isSome

variable {α : Type} {post : α → Mount Path → Remote Path → Prop} {m : Mount Path} {g : Remote Path} {path : Path}

lemma calm_disk {c : LocalCall Path} {k : c.Answer → Program Path α} (fd : ℕ) (hsome : (c.exec { fd } m.toLocal).isSome)
    (h : ∀ env r l', Calm env → c.exec env m.toLocal = some (r, l') →
      (k r).Safe (calmLogic Path) post { m with toLocal := l' } g) :
    Prog.Safe (calmLogic Path) post (.call (.disk c) k) m g := by
  refine safe_disk rfl fun g' hg _ => ⟨⟨{ fd }, ⟨rfl, rfl, rfl⟩, ?_⟩, fun env r l' hok hexec => ⟨trivial, ?_⟩⟩
  · simpa [machine, Call.exec] using hsome
  · exact hg ▸ h env r l' hok hexec

lemma calm_rpc {c : RemoteCall Path} {k : c.Answer → Program Path α} (now : Timestamp) (hsome : (c.exec { now } g).isSome)
    (h : ∀ env r g', Calm env → c.exec env g = some (r, g') → (k r).Safe (calmLogic Path) post m g') :
    Prog.Safe (calmLogic Path) post (.call (.rpc c) k) m g := by
  refine safe_rpc rfl fun g' hg _ => ⟨⟨{ now }, ⟨rfl, rfl, rfl⟩, ?_⟩, fun env r g'' hok hexec => ⟨trivial, ?_⟩⟩
  · subst hg
    simpa [machine, Call.exec] using hsome
  · subst hg
    exact h env r g'' hok hexec

lemma calm_ret {a : α} (h : post a m g) : Prog.Safe (calmLogic Path) post (.ret a) m g := fun _ hg _ => hg ▸ h

/-- What is safe here runs to its end. -/
lemma calm_eval {p : Program Path α} (h : p.Safe (calmLogic Path) post m g) : ∃ envs a m' g', (∀ env ∈ envs, Calm env) ∧
    p.eval (machine Path).exec envs m g = some (a, m', g') ∧ post a m' g' := by
  have hrun : ∃ envs x, (∀ env ∈ envs, Calm env) ∧ p.eval (machine Path).exec envs m g = some x := by
    refine h.exists_eval (fun c m g hpre => ?_) trivial
    obtain ⟨env, hcalm, hsome⟩ := hpre
    obtain ⟨⟨r, m', g'⟩, hexec⟩ := Option.isSome_iff_exists.mp hsome
    exact ⟨env, r, m', g', hcalm, hcalm, hexec⟩
  obtain ⟨envs, ⟨a, m', g'⟩, henvs, heval⟩ := hrun
  exact ⟨envs, a, m', g', henvs, heval, (h.eval trivial (fun env henv _ _ _ => henvs env henv) heval).2⟩

/-- A descriptor is free. -/
def Local.Spare (l : Local Path) : Prop := ∃ fd < 2 ^ 31, l.fds fd = none

/-- What the open leaves for the release: a dirty file is there. -/
def Reopens (path : Path) (g : Remote Path) (out : Outcome) (m : Mount Path) (g' : Remote Path) : Prop :=
  out.rc = 0 ∧ g' = g ∧ ((m.entry path).dirty = true → (m.entry path).cache ≠ none)

lemma calm_openHandle (hspare : m.toLocal.Spare) (hbacked : (m.entry path).dirty = true → (m.entry path).cache ≠ none) :
    (openHandle path).Safe (calmLogic Path) (Reopens path g) m g := by
  obtain ⟨fd, hlt, hfree⟩ := hspare
  rw [openHandle_eq]
  refine calm_disk fd ?_ fun env r l' _ hexec => calm_ret ⟨rfl, rfl, ?_⟩
  · cases hcache : (m.entry path).cache with
    | none => simp [LocalCall.exec, onCache, hcache]
    | some i => simp [LocalCall.exec, onCache, hcache, Local.allocate, show fd < 2147483648 from hlt, hfree]
  · rcases LocalCall.exec_openFile hexec with ⟨i, fd, -, -, -, -, -, rfl⟩ | ⟨e, -, rfl, -⟩ <;> exact hbacked

/-- The end of a download. -/
lemma calm_clean (hspare : m.toLocal.Spare) :
    (Prog.call (.disk (.isDirtySet path false)) fun _ => openHandle path : Program Path Outcome).Safe (calmLogic Path)
      (Reopens path g) m g := by
  refine calm_disk 0 rfl fun env r l' _ hexec => ?_
  cases hexec
  exact calm_openHandle hspare (by simp [Entry.dirty])

lemma calm_writeChunks {ofile : Option (ℕ × ℕ)} {msgs : List MetaContent} (hspare : m.toLocal.Spare) :
    (writeChunks path ofile msgs).Safe (calmLogic Path) (fun _ m' g' => m'.toLocal.Spare ∧ g' = g) m g := by
  refine (writeChunks_calls path ofile msgs).safe (J := fun (m : Mount Path) (g' : Remote Path) => m.toLocal.Spare ∧ g' = g)
    (fun _ _ _ _ hl hg => ⟨hl.1, (Eq.symm hg).trans hl.2⟩) (fun _ _ _ _ => trivial) (fun c m g' hc _ => ?_)
    (fun env c m₁ g₁ r m₂ g₂ hc hl _ hexec => ?_) ⟨hspare, rfl⟩
  · obtain ⟨i, pos, b, rfl⟩ := hc
    exact ⟨{}, ⟨rfl, rfl, rfl⟩, rfl⟩
  · obtain ⟨i, pos, b, rfl⟩ := hc
    obtain ⟨l', hcall, rfl, rfl⟩ := machine_disk hexec
    rcases LocalCall.exec_ofstreamWrite hcall with ⟨-, rfl⟩ | ⟨-, rfl, -⟩ <;> exact hl

lemma calm_download (hspare : m.toLocal.Spare) : (download path).Safe (calmLogic Path) (Reopens path g) m g := by
  refine calm_rpc (.uniform 0) rfl fun env r g' hcalm hexec => ?_
  obtain ⟨rfl, rfl⟩ : r = (g.getContent path, true) ∧ g' = g := by
    simp only [RemoteCall.exec, hcalm.2.2, Option.some.injEq, Prod.mk.injEq] at hexec
    exact ⟨hexec.1.symm, hexec.2.symm⟩
  obtain ⟨msg, msgs, hcons⟩ : ∃ msg msgs, g'.getContent path = msg :: msgs := by
    apply List.exists_cons_of_ne_nil
    unfold Remote.getContent
    split <;> simp [Bytes.blocks_ne_nil]
  rw [hcons]
  dsimp only [Prog.bind]
  by_cases hexists : msg.file_exists = true
  · rw [if_pos hexists]
    refine calm_disk 0 rfl fun env r l₁ hcalm hexec => ?_
    have hspare₁ : l₁.Spare := by
      rcases LocalCall.exec_ofstream hexec with ⟨-, -, rfl⟩ | ⟨-, -, rfl⟩ <;> exact hspare
    change Prog.Safe _ _ (writeChunks path _ (msg :: msgs) >>= _) _ g'
    refine Prog.Safe.bind trivial ((calm_writeChunks hspare₁).mono fun _ m₂ g₂ _ h₂ => ?_)
    obtain ⟨hspare₂, rfl⟩ := h₂
    rw [if_pos rfl]
    refine calm_disk 0 rfl fun env r l₃ _ hexec => ?_
    cases hexec
    exact calm_clean hspare₂
  · rw [if_neg hexists]
    refine calm_disk 0 rfl fun env r l₁ _ hexec => ?_
    cases hexec
    obtain ⟨fd, hlt, hfree⟩ := hspare
    refine calm_disk fd ?_ fun env r l₂ hcalm hexec => ?_
    · simp [LocalCall.exec, onCreate, Local.allocate, show fd < 2147483648 from hlt, hfree]
    · rcases LocalCall.exec_creat hexec with ⟨fd', -, hlt', -, rfl, rfl⟩ | ⟨e, -, -, hfault⟩
      · -- the descriptor is free again after its close
        have hfd : fhOf (returned (.ok fd')) = fd' := fhOf_natCast hlt'
        refine calm_disk 0 ?_ fun env r l₃ _ hexec => calm_clean ?_
        · simp only [LocalCall.exec]
          split_ifs <;> rfl
        · have hclosed := (closed_of_exec hexec).file_lt (by rw [hfd]; exact hlt')
          rw [hfd] at hclosed
          exact ⟨fd', hlt', by rw [show l₃.fds = _ from hclosed, Function.update_self]⟩
      · rw [hcalm.1] at hfault
        cases hfault

/-- An open that may use the cache file only if that is there in case it is dirty. -/
theorem calm_afsOpen (hspare : m.toLocal.Spare)
    (hpresent : ∀ t, (m.entry path).last_modified = some t → t ≠ localCreatFile → g.files path ≠ none)
    (hbacked : (m.entry path).UpToDate (g.files path) → (m.entry path).dirty = true → (m.entry path).cache ≠ none) :
    (afsOpen path).Safe (calmLogic Path) (Reopens path g) m g := by
  refine calm_disk 0 rfl fun env count l₁ _ hexec => ?_
  cases hexec
  dsimp only [Prog.bind]
  cases hlast : (m.entry path).last_modified with
  | none =>
    rw [if_neg (by simp)]
    exact calm_download hspare
  | some t =>
    rw [if_pos (by simp)]
    refine calm_disk 0 rfl fun env t' l₁ _ hexec => ?_
    cases hexec
    dsimp only [Prog.bind]
    rw [hlast, Option.getD_some]
    by_cases hlocal : t = localCreatFile
    · rw [if_pos hlocal]
      exact calm_openHandle hspare (hbacked (.inl (hlocal ▸ hlast)))
    · rw [if_neg hlocal]
      refine calm_rpc (.uniform 0) rfl fun env stat_content g₁ hcalm hexec => ?_
      obtain ⟨rfl, rfl⟩ : stat_content = g.stat path ∧ g₁ = g := by
        simp only [RemoteCall.exec, hcalm.2.1, if_true, Option.some.injEq, Prod.mk.injEq] at hexec
        exact ⟨hexec.1.symm, hexec.2.symm⟩
      refine calm_disk 0 rfl fun env t' l₁ _ hexec => ?_
      cases hexec
      dsimp only [Prog.bind]
      obtain ⟨v, hv⟩ := Option.ne_none_iff_exists'.mp (hpresent t hlast hlocal)
      rw [hlast, Option.getD_some, show (g₁.stat path).st_mtim = v.mtim by simp [Remote.stat, hv]]
      by_cases hmatch : (v.mtim : Bytes) = t
      · rw [if_pos hmatch]
        exact calm_openHandle hspare (hbacked (.inr ⟨v, hv, hmatch ▸ hlast⟩))
      · rw [if_neg hmatch]
        refine calm_disk 0 rfl fun env r l₂ _ hexec => ?_
        cases hexec
        refine calm_disk 0 ?_ fun env r l₃ _ hexec => calm_download ?_
        · simp only [LocalCall.exec]
          split <;> rfl
        · rcases LocalCall.exec_unlink hexec with ⟨-, -, rfl⟩ | ⟨e, -, rfl, -⟩ <;> exact hspare

/-- An upload with enough rounds reads and sends the whole file. -/
lemma calm_upload {i : ℕ} (fuel pos : ℕ) (chunks : List Bytes)
    (hfuel : ((m.entry path).inode i).length - pos < fuel * BUFSIZE) :
    (upload path i fuel pos chunks).Safe (calmLogic Path) (fun r m' g' => r.2 = false ∧ m' = m ∧ g' = g) m g := by
  induction fuel generalizing pos chunks with
  | zero => omega
  | succ fuel ih =>
    refine calm_disk 0 rfl fun env r l₁ hcalm hexec => ?_
    obtain ⟨rfl, ⟨-, rfl⟩ | ⟨hfault, -⟩⟩ := LocalCall.exec_ifstreamRead hexec
    · refine calm_rpc (.uniform 0) rfl fun env sent g₁ hcalm hexec => ?_
      obtain ⟨rfl, rfl⟩ : sent = true ∧ g₁ = g := by
        simp only [RemoteCall.exec, hcalm.2.1, decide_true, Option.some.injEq, Prod.mk.injEq] at hexec
        exact ⟨hexec.1.symm, hexec.2.symm⟩
      dsimp only [Prog.bind]
      rw [if_pos rfl]
      by_cases hshort : ((((m.entry path).inode i).drop pos).take BUFSIZE).length < BUFSIZE
      · rw [if_pos hshort]
        exact calm_ret ⟨rfl, rfl, rfl⟩
      · rw [if_neg hshort]
        apply ih
        rw [List.length_take, List.length_drop] at hshort ⊢
        rw [Nat.succ_mul] at hfuel
        omega
    · exact absurd hcalm.1 hfault

/-- A release with enough rounds of which the cache file is there. -/
theorem calm_afsRelease {fuel fh : ℕ} (hbacked : (m.entry path).dirty = true → (m.entry path).cache ≠ none)
    (hfuel : ∀ i, (m.entry path).cache = some i → ((m.entry path).inode i).length < fuel * BUFSIZE)
    (hfresh : ∃ now, g.Fresh now) :
    (afsRelease fuel path fh).Safe (calmLogic Path) (fun _ _ _ => True) m g := by
  refine calm_disk 0 ?_ fun env r l₁ _ hexec => ?_
  · simp only [LocalCall.exec]
    split_ifs <;> rfl
  have hentry : l₁.entry = m.entry := (closed_of_exec hexec).entry
  refine calm_disk 0 rfl fun env r l₂ _ hexec => ?_
  obtain ⟨rfl, rfl⟩ : r = (l₁.entry path).dirty ∧ l₂ = l₁ := by
    simp only [LocalCall.exec, Option.some.injEq, Prod.mk.injEq] at hexec
    exact ⟨hexec.1.symm, hexec.2.symm⟩
  cases hdirty : (l₂.entry path).dirty with
  | false => exact calm_ret trivial
  | true =>
    rw [hentry] at hdirty
    obtain ⟨i, hi⟩ := Option.ne_none_iff_exists'.mp (hbacked hdirty)
    refine calm_disk 0 ?_ fun env r l₃ hcalm hexec => ?_
    · simp only [LocalCall.exec]
      split <;> rfl
    obtain ⟨rfl, hr⟩ := LocalCall.exec_ifstream hexec
    obtain ⟨-, rfl⟩ := hr.resolve_right fun h => h.2 hcalm.1
    rw [show (l₃.entry path).cache = some i by rw [hentry, hi]]
    change Prog.Safe _ _ (upload path i fuel 0 [] >>= _) _ g
    refine Prog.Safe.bind trivial ((calm_upload fuel 0 [] ?_).mono fun r m₄ g₄ _ h₄ => ?_)
    · rw [show (l₃.entry path).inode i = (m.entry path).inode i by rw [hentry]]
      simpa using hfuel i hi
    · obtain ⟨chunks, broken⟩ := r
      obtain ⟨rfl, rfl, rfl⟩ := h₄
      obtain ⟨now, hnow⟩ := hfresh
      refine calm_rpc now ?_ fun env r g₅ _ _ => ?_
      · simp only [RemoteCall.exec]
        split_ifs <;> rfl
      · obtain ⟨status, reply⟩ := r
        cases status with
        | OK => exact calm_disk 0 rfl fun _ _ _ _ _ => calm_disk 0 rfl fun _ _ _ _ _ => calm_ret trivial
        | CANCELLED | NOT_FOUND | UNAVAILABLE => exact calm_ret trivial

end AFSv1.Client
