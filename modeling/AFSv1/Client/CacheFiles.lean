import AFSv1.Client.Alone

/-! Which recorded entries have a cache file. Between two operations all have one, unless a crash hit one of the
two places where the record is ahead of the file, or the file could not be created. -/
namespace AFSv1.Client
open Foundations Tables

variable {A Path : Type} [DecidableEq A] [DecidableEq Path]

/-- Every path with an entry in `last_modified` has a cache file. -/
def Recorded (l : Local Path) : Prop := ∀ p, (l.entry p).last_modified ≠ none → (l.entry p).cache ≠ none

/-- The paths whose entry is ahead of their file: the file is about to be created, or its entry to be erased. -/
def Settling (next : Option (Call Path)) (p : Path) : Prop :=
  next = some (.disk (.creat p)) ∨ next = some (.disk (.lastModifiedErase p))

/-- A file that has to be created is created. -/
def Creates (env : Env) (l : Local Path) : Call Path → Prop
  | .disk (.ofstream p) | .disk (.creat p) => env.fault = none ∨ (l.entry p).cache ≠ none
  | _ => True

/-- The crash leaves no entry without its file. -/
def Survives (l : Local Path) : Call Path → Prop
  | .disk (.creat p) | .disk (.lastModifiedErase p) => (l.entry p).last_modified ≠ none → (l.entry p).cache ≠ none
  | _ => True

def filesLogic (Path : Type) [DecidableEq Path] : Prog.Logic (Call Path) Call.Answer Env (Mount Path) (Remote Path) where
  exec := (machine Path).exec
  ok env c m _ := Creates env m.toLocal c
  rely _ _ _ _ := True
  inv next m _ := ∀ p, (m.entry p).last_modified ≠ none → (m.entry p).cache ≠ none ∨ Settling next p
  rely_refl _ _ _ := trivial
  rely_trans _ _ _ _ _ _ _ := trivial
  inv_call _ _ _ h p hp := (h p hp).imp_right fun h => by simp [Settling] at h

/-- The call makes no entry ahead of its file. -/
def Orders (l : Local Path) : LocalCall Path → Prop
  | .lastModifiedSet p _ => (l.entry p).cache ≠ none
  | .unlink p => (l.entry p).last_modified = none
  | _ => True

variable {m m' : Mount Path} {g : Remote Path} {path : Path} {α : Type} {post : α → Mount Path → Remote Path → Prop}

lemma Recorded.exec {env : Env} {l l' : Local Path} {c : LocalCall Path} {r : c.Answer} (hl : Recorded l)
    (hc : Orders l c) (h : c.exec env l = some (r, l')) : Recorded l' := by
  rcases LocalCall.exec_changes h with heq | ⟨q, f, hf, heq⟩
  · intro p
    rw [heq]
    exact hl p
  · intro p
    rw [heq]
    by_cases hp : p = q
    · subst hp
      rw [Local.modify_entry_self]
      cases hf with
      | setTime => exact fun _ => hc
      | eraseTime => exact fun h => absurd rfl h
      | create => exact fun _ => by simp [Entry.openTrunc_cache]
      | remove => exact fun h => absurd hc h
      | _ => exact hl p
    · rw [Local.modify_entry_ne _ _ hp]
      exact hl p

/-- A cache file stays where it is, unless it is removed. -/
lemma exec_cache {env : Env} {l l' : Local Path} {c : LocalCall Path} {r : c.Answer} (h : c.exec env l = some (r, l'))
    (hc : c ≠ .unlink path) (hcache : (l.entry path).cache ≠ none) : (l'.entry path).cache ≠ none := by
  rcases LocalCall.exec_changes h with heq | ⟨q, f, hf, heq⟩
  · rwa [heq]
  · rw [heq]
    by_cases hp : path = q
    · subst hp
      rw [Local.modify_entry_self]
      cases hf with
      | create => simp [Entry.openTrunc_cache]
      | remove => exact absurd rfl hc
      | _ => exact hcache
    · rwa [Local.modify_entry_ne _ _ hp]

/-! ### The operations -/

lemma files_inv {next : Option (Call Path)} (hm : Recorded m.toLocal) : (filesLogic Path).inv next m g :=
  fun p hp => .inl (hm p hp)

lemma files_disk {c : LocalCall Path} {k : c.Answer → Program Path α} (hm : Recorded m.toLocal) (hc : Orders m.toLocal c)
    (h : ∀ env r l' g, Creates env m.toLocal (.disk c) → c.exec env m.toLocal = some (r, l') → Recorded l' →
      (k r).Safe (filesLogic Path) post { m with toLocal := l' } g) :
    Prog.Safe (filesLogic Path) post (.call (.disk c) k) m g := by
  refine safe_disk rfl fun g' _ _ => ⟨trivial, fun env r l' hok hexec => ?_⟩
  have hl' := hm.exec hc hexec
  exact ⟨files_inv hl', h env r l' g' hok hexec hl'⟩

lemma files_rpc {c : RemoteCall Path} {k : c.Answer → Program Path α} (hm : Recorded m.toLocal)
    (h : ∀ env r g g', c.exec env g = some (r, g') → (k r).Safe (filesLogic Path) post m g') :
    Prog.Safe (filesLogic Path) post (.call (.rpc c) k) m g :=
  safe_rpc rfl fun g' _ _ => ⟨trivial, fun env r g'' _ hexec => ⟨files_inv hm, h env r g' g'' hexec⟩⟩

/-- The calls that neither record a time nor remove a file. -/
def Plain (c : Call Path) : Prop := ∀ p t, c ≠ .disk (.lastModifiedSet p t) ∧ c ≠ .disk (.unlink p)

omit [DecidableEq Path] in
lemma Plain.orders {c : LocalCall Path} (h : Plain (.disk c)) (l : Local Path) : Orders l c := by
  cases c with
  | lastModifiedSet p t => exact absurd rfl (h p t).1
  | unlink p => exact absurd rfl (h p []).2
  | _ => trivial

/-- A program of such calls keeps the files. -/
lemma files_calls (path : Path) {p : Program Path α} (h : p.Calls Plain) (hm : Recorded m.toLocal) : p.Safe (filesLogic Path)
    (fun _ m' _ => Recorded m'.toLocal ∧ ((m.entry path).cache ≠ none → (m'.entry path).cache ≠ none)) m g := by
  let J (m' : Mount Path) (_ : Remote Path) := Recorded m'.toLocal ∧
    ((m.entry path).cache ≠ none → (m'.entry path).cache ≠ none)
  refine h.safe (J := J) (fun _ _ _ _ h _ => h) (fun _ _ _ h => files_inv h.1) (fun _ _ _ _ _ => trivial)
    (fun env c m₁ g₁ r m₂ g₂ hc hm₁ _ hexec => ?_) ⟨hm, id⟩
  cases c with
  | rpc c =>
    obtain ⟨-, rfl⟩ := machine_rpc hexec
    exact hm₁
  | disk c =>
    obtain ⟨l', hcall, rfl, -⟩ := machine_disk hexec
    have hunlink : c ≠ .unlink path := fun heq => (hc path []).2 (heq ▸ rfl)
    exact ⟨hm₁.1.exec (hc.orders _) hcall, fun hcache => exec_cache hcall hunlink (hm₁.2 hcache)⟩

/-- The files are there at the end. -/
def Kept (_ : Outcome) (m : Mount Path) (_ : Remote Path) : Prop := Recorded m.toLocal

lemma files_plain {p : Program Path Outcome} (h : p.Calls Plain) (hm : Recorded m.toLocal) :
    p.Safe (filesLogic Path) Kept m g := by
  induction p generalizing m g with
  | ret a => exact fun _ _ _ => hm
  | call c k ih =>
    cases c with
    | disk c => exact files_disk hm (h.1.orders _) fun _ r _ _ _ _ hl' => ih r (h.2 r) hl'
    | rpc c => exact files_rpc hm fun _ r _ _ _ => ih r (h.2 r) hm

lemma files_openHandle (hm : Recorded m.toLocal) : (openHandle path).Safe (filesLogic Path) Kept m g :=
  files_plain ((openHandle_calls path).mono fun _ h => h ▸ by simp [Plain]) hm

/-- The end of every `afs_open` that got a file. -/
lemma files_clean {path : Path} (hm : Recorded m.toLocal) : Prog.Safe (filesLogic Path) Kept
    (.call (.disk (.isDirtySet path false)) fun _ => openHandle path) m g :=
  files_disk hm trivial fun _ _ _ _ _ _ hl' => files_openHandle hl'

lemma files_download (path : Path) (hm : Recorded m.toLocal) : (download path).Safe (filesLogic Path) Kept m g := by
  refine files_rpc hm fun env r g g' hget => ?_
  obtain ⟨msgs, ok⟩ := r
  cases msgs with
  | nil => exact fun _ _ _ => hm
  | cons msg msgs =>
    dsimp only [Prog.bind]
    by_cases hexists : msg.file_exists = true
    · rw [if_pos hexists]
      refine files_disk hm trivial fun env r l₁ g₁ hcreates hexec hl₁ => ?_
      have hcache : (l₁.entry path).cache ≠ none := by
        rcases LocalCall.exec_ofstream hexec with ⟨-, -, rfl⟩ | ⟨hfault, -, rfl⟩
        · simp [Entry.openTrunc_cache]
        · exact hcreates.resolve_left hfault
      change Prog.Safe _ _ (writeChunks path _ (msg :: msgs) >>= _) _ _
      have hchunks := (writeChunks_calls path (r.map fun i => (i, 0)) (msg :: msgs)).mono (Q := Plain)
        fun c ⟨i, pos, b, hc⟩ => hc ▸ by simp [Plain]
      refine Prog.Safe.bind (files_inv hl₁) ((files_calls path hchunks hl₁).mono ?_)
      intro _ m₂ g₂ _ hm₂
      split_ifs
      · exact files_disk hm₂.1 (hm₂.2 hcache) fun _ _ _ _ _ _ hl₃ => files_clean hl₃
      · exact fun _ _ _ => hm₂.1
    · rw [if_neg hexists]
      -- the entry is recorded first, and the file is created then
      refine safe_disk rfl fun g₁ _ _ => ⟨trivial, fun env₁ r₁ l₁ _ hset => ?_⟩
      cases hset
      have hothers : ∀ p, p ≠ path → ((m.toLocal.modify path fun e => { e with last_modified := some localCreatFile }).entry
          p).last_modified ≠ none → ((m.toLocal.modify path fun e =>
            { e with last_modified := some localCreatFile }).entry p).cache ≠ none := by
        intro p hp
        rw [Local.modify_entry_ne _ _ hp]
        exact hm p
      refine ⟨fun p hp => ?_, safe_disk rfl fun g₂ _ _ => ⟨trivial, fun env₂ r₂ l₂ hcreates hcreat => ?_⟩⟩
      · by_cases hpath : p = path
        · exact .inr (.inl (by rw [hpath]; rfl))
        · exact .inl (hothers p hpath hp)
      · have hl₂ : Recorded l₂ := by
          rcases LocalCall.exec_creat hcreat with ⟨fd, -, -, -, -, rfl⟩ | ⟨e, -, rfl, hfault⟩
          · intro p hp
            by_cases hpath : p = path
            · subst hpath
              simp [Entry.openTrunc_cache]
            · simp only [Local.modify_entry_ne _ _ hpath] at hp ⊢
              exact hm p hp
          · intro p hp
            by_cases hpath : p = path
            · subst hpath
              exact hcreates.resolve_left (by simp [hfault])
            · exact hothers p hpath hp
        exact ⟨files_inv hl₂, files_disk hl₂ trivial fun _ _ _ _ _ _ hl₃ => files_clean hl₃⟩

lemma files_afsOpen (path : Path) (hm : Recorded m.toLocal) : (afsOpen path).Safe (filesLogic Path) Kept m g := by
  refine files_disk hm trivial fun env₁ count l₁ g₁ _ _ hl₁ => ?_
  dsimp only [Prog.bind]
  split_ifs
  · refine files_disk hl₁ trivial fun env₂ t l₂ g₂ _ _ hl₂ => ?_
    dsimp only [Prog.bind]
    split_ifs
    · exact files_openHandle hl₂
    · refine files_rpc hl₂ fun env₃ stat_content g₃ g₃' _ => ?_
      refine files_disk hl₂ trivial fun env₄ t l₄ g₄ _ _ hl₄ => ?_
      dsimp only [Prog.bind]
      split_ifs
      · exact files_openHandle hl₄
      · refine files_disk hl₄ trivial fun env₅ r₅ l₅ g₅ _ herase hl₅ => ?_
        cases herase
        refine files_disk hl₅ ?_ fun env₆ r₆ l₆ g₆ _ _ hl₆ => files_download path hl₆
        simp [Orders]
  · exact files_download path hl₁

lemma files_afsRelease (fuel : ℕ) (path : Path) (fh : ℕ) (hm : Recorded m.toLocal) :
    (afsRelease fuel path fh).Safe (filesLogic Path) Kept m g := by
  refine files_disk hm trivial fun env₁ r₁ l₁ g₁ _ _ hl₁ => ?_
  refine files_disk hl₁ trivial fun env₂ dirty l₂ g₂ _ _ hl₂ => ?_
  cases dirty with
  | false => exact fun _ _ _ => hl₂
  | true =>
    refine files_disk hl₂ trivial fun env₃ i l₃ g₃ _ hopen hl₃ => ?_
    cases i with
    | none => exact files_disk hl₃ trivial fun _ r => r.elim
    | some i =>
      have hcache : (l₃.entry path).cache ≠ none := by
        obtain ⟨rfl, ⟨-, hi⟩ | ⟨hi, -⟩⟩ := LocalCall.exec_ifstream hopen
        · exact hi ▸ Option.some_ne_none i
        · cases hi
      change Prog.Safe _ _ (upload path i fuel 0 [] >>= _) _ _
      have hupload := (upload_calls path i fuel 0 []).mono (Q := Plain) fun c hc => by
        rcases hc with rfl | ⟨pos, rfl⟩ | rfl <;> simp [Plain]
      refine Prog.Safe.bind (files_inv hl₃) ((files_calls path hupload hl₃).mono ?_)
      intro sent m₄ g₄ _ hm₄
      obtain ⟨chunks, broken⟩ := sent
      refine files_rpc hm₄.1 fun env₅ r₅ g₅ g₅' _ => ?_
      obtain ⟨status, reply⟩ := r₅
      cases status with
      | OK =>
        refine files_disk hm₄.1 trivial fun env₆ r₆ l₆ g₆ _ hclean hl₆ => ?_
        have hcache₆ := exec_cache hclean nofun (hm₄.2 hcache)
        exact files_disk hl₆ hcache₆ fun _ _ _ _ _ _ hl₇ => fun _ _ _ => hl₇
      | CANCELLED | NOT_FOUND | UNAVAILABLE => exact fun _ _ _ => hm₄.1

lemma files_afsMknod (path : Path) (hm : Recorded m.toLocal) : (afsMknod path).Safe (filesLogic Path) Kept m g := by
  refine files_rpc hm fun env₁ stat_content g₁ g₁' _ => ?_
  dsimp only [Prog.bind]
  split_ifs
  · exact fun _ _ _ => hm
  · refine files_disk hm trivial fun env₂ r₂ l₂ g₂ _ hexcl hl₂ => ?_
    cases r₂ with
    | error e => exact fun _ _ _ => hl₂
    | ok fd =>
      have hcache : (l₂.entry path).cache ≠ none := by
        rcases LocalCall.exec_openExcl hexcl with ⟨fd', -, -, -, -, -, rfl⟩ | ⟨e, hr, -⟩
        · simp [Entry.openTrunc_cache]
        · cases hr
      refine files_disk hl₂ trivial fun env₃ r₃ l₃ g₃ _ hclose hl₃ => ?_
      have hcache₃ := exec_cache hclose nofun hcache
      cases r₃ with
      | error e => exact fun _ _ _ => hl₃
      | ok u =>
        refine files_rpc hl₃ fun env₄ sent g₄ g₄' _ => files_rpc hl₃ fun env₅ r₅ g₅ g₅' _ => ?_
        obtain ⟨status, reply⟩ := r₅
        cases status with
        | OK => exact files_disk hl₃ hcache₃ fun _ _ _ _ _ _ hl₆ => fun _ _ _ => hl₆
        | CANCELLED | NOT_FOUND | UNAVAILABLE => exact fun _ _ _ => hl₃

/-- The file is removed first, and the entry is erased then. -/
lemma files_afsUnlink (path : Path) (hm : Recorded m.toLocal) : (afsUnlink path).Safe (filesLogic Path) Kept m g := by
  refine safe_disk rfl fun g₁ _ _ => ⟨trivial, fun env₁ r₁ l₁ _ hunlink => ?_⟩
  have hothers : ∀ p, p ≠ path → (l₁.entry p).last_modified ≠ none → (l₁.entry p).cache ≠ none := by
    intro p hp
    rcases LocalCall.exec_unlink hunlink with ⟨-, -, rfl⟩ | ⟨e, -, rfl, -⟩
    · rw [Local.modify_entry_ne _ _ hp]
      exact hm p
    · exact hm p
  refine ⟨fun p hp => ?_, safe_disk rfl fun g₂ _ _ => ⟨trivial, fun env₂ r₂ l₂ _ herase => ?_⟩⟩
  · by_cases hpath : p = path
    · exact .inr (.inr (by rw [hpath]; rfl))
    · exact .inl (hothers p hpath hp)
  · cases herase
    have hl₂ : Recorded (l₁.modify path fun e => { e with last_modified := none }) := by
      intro p hp
      by_cases hpath : p = path
      · subst hpath
        simp at hp
      · rw [Local.modify_entry_ne _ _ hpath] at hp ⊢
        exact hothers p hpath hp
    refine ⟨files_inv hl₂, files_disk hl₂ trivial fun _ _ l₃ g₃ _ _ hl₃ => ?_⟩
    exact files_rpc hl₃ fun _ _ _ _ _ => fun _ _ _ => hl₃

lemma files_program (op : Operation Path) (hm : Recorded m.toLocal) : op.program.Safe (filesLogic Path) Kept m g := by
  cases op with
  | «open» path => exact files_afsOpen path hm
  | release fuel path fh => exact files_afsRelease fuel path fh hm
  | mknod path => exact files_afsMknod path hm
  | unlink path => exact files_afsUnlink path hm
  | read path fh size offset =>
    refine files_plain ⟨by simp [Plain], fun r => ?_⟩ hm
    cases r <;> trivial
  | write path buf offset fh =>
    refine files_plain ⟨by simp [Plain], fun _ => ⟨by simp [Plain], fun r => ?_⟩⟩ hm
    cases r <;> trivial
  | fsync path fh => exact files_plain ⟨by simp [Plain], fun _ => trivial⟩ hm
  | ftruncate path offset fh => exact files_plain ⟨by simp [Plain], fun _ => trivial⟩ hm
  | truncate path newsize => exact files_plain ⟨by simp [Plain], fun _ => trivial⟩ hm

omit [DecidableEq A] in
lemma files_obligations : System.Obligations (machine Path) (fun _ : A => filesLogic Path) (fun _ _ => Kept)
    (fun _ _ _ _ => True) (fun _ next m _ => ∀ c, next = some c → Survives m.toLocal c) where
  exec _ := rfl
  stable _ _ _ _ _ h _ := h
  start _ op m m' g hinv _ hbegin := by
    have hm : Recorded m.toLocal := fun p hp => (hinv p hp).resolve_right (by simp [Settling])
    have hm' : Recorded m'.toLocal := Mount.begin_toLocal hbegin ▸ hm
    exact ⟨files_inv hm', files_program op hm'⟩
  finish _ op out m g hinv _ p hp := hinv p hp
  crash _ next op m g hinv hcrash p hp := by
    rcases hinv p hp with hcache | rfl | rfl
    · exact .inl hcache
    · exact .inl (hcrash _ rfl hp)
    · exact .inl (hcrash _ rfl hp)

/-! ### Runs -/

/-- No file that a download has to create is refused, and no crash comes between the record of a new file and its
creation, or between the removal of a file and of its record. -/
def Undisturbed (s : World A Path) : AgentEvent A (Operation Path) Env → Prop
  | .call a env => ∀ c, s.next a = some c → Creates env (s.locals a).toLocal c
  | .crash a => ∀ c, s.next a = some c → Survives (s.locals a).toLocal c
  | _ => True

/-- Clients between two operations have the files of all their entries. -/
def FilesExist (s : World A Path) : Prop := ∀ a, s.running a = none → Recorded (s.locals a).toLocal

instance [Fintype Path] (l : Local Path) : Decidable (Recorded l) := by unfold Recorded; infer_instance

instance [Fintype A] [Fintype Path] (s : World A Path) : Decidable (FilesExist s) := by
  unfold FilesExist
  infer_instance

instance (env : Env) (l : Local Path) (c : Call Path) : Decidable (Creates env l c) := by
  unfold Creates
  split <;> infer_instance

instance (l : Local Path) (c : Call Path) : Decidable (Survives l c) := by
  unfold Survives
  split <;> infer_instance

instance (s : World A Path) (e : AgentEvent A (Operation Path) Env) : Decidable (Undisturbed s e) := by
  induction e using AgentEvent.casesOn <;> unfold Undisturbed <;> infer_instance

/-- In undisturbed runs every recorded entry has its file. -/
theorem filesExist_of_undisturbed (g : Remote Path) (es : List (WorldEvent A Path)) (s : World A Path)
    (hundisturbed : (World.start A g).Along (machine Path) Undisturbed es)
    (hrun : (World.start A g).run (machine Path) es = some s) : FilesExist s := by
  have hallowed := hundisturbed.mono (Q := System.Allowed (fun _ => filesLogic Path) (fun _ _ _ _ => True)
    fun _ next m _ => ∀ c, next = some c → Survives m.toLocal c) fun s e _ h => by
      cases e with
      | call a env => exact fun op c k hc => ⟨h c (by simp [System.next, hc]), fun _ _ _ _ _ _ => trivial⟩
      | crash a => exact h
      | _ => trivial
  have hstart : (World.start A g).Sound (fun _ => filesLogic Path) fun _ _ => Kept :=
    fun a => ⟨fun p hp => absurd rfl hp, fun _ _ hp => by cases hp⟩
  intro a hidle p hp
  have hinv := ((hstart.run files_obligations hallowed hrun) a).1 p hp
  exact hinv.resolve_right (by simp [System.next, hidle, Settling])

/-- A file is created, published and removed again. -/
def unlinked (n : ℕ) : List (WorldEvent Unit Unit) := created ++ .start () (.unlink ()) :: (quiet n 2).map (.call ())

theorem filesExist_of_undisturbed_unlinked : ∃ s : World Unit Unit,
    (World.start Unit .empty).run (machine Unit) (unlinked 4 ++ [.crash ()]) = some s ∧ FilesExist s := by
  have hrun : ∃ s, (World.start Unit .empty).run (machine Unit) (unlinked 4 ++ [.crash ()]) = some s ∧ True := by
    decide +kernel
  obtain ⟨s, hs, -⟩ := hrun
  exact ⟨s, hs, filesExist_of_undisturbed _ _ s (by decide +kernel) hs⟩

/-- A crash between the removal of the cache file and of its entry, and one between the record of a new file and its
creation, leave an entry without a file. -/
theorem not_filesExist_crash :
    (∃ s, (World.start Unit .empty).run (machine Unit) (unlinked 1 ++ [.crash ()]) = some s ∧ ¬ FilesExist s) ∧
      ∃ s, (World.start Unit .empty).run (machine Unit)
        (.start () (.open ()) :: (quiet 3 1).map (.call ()) ++ [.crash ()]) = some s ∧ ¬ FilesExist s :=
  ⟨by decide +kernel, by decide +kernel⟩

end AFSv1.Client
