import AFSv1.Client.TimestampCheck

/-! The descriptors of open handles, over any run: no call closes one or gives it to another file. -/
namespace AFSv1.Client
open Foundations Tables

variable {Path : Type} {m m' : Mount Path} {path : Path}

/-- The call closes no descriptor of an open handle. -/
def SparesHandles (m : Mount Path) (c : Call Path) : Prop :=
  ∀ fd, c = .disk (.close fd) → m.toLocal.file fd = none ∨ fd < 2 ^ 31 ∧ m.Unused fd

lemma Mount.HandlesOk.congr (h : m.HandlesOk) (hfds : m'.fds = m.fds) (hhandles : m'.handles = m.handles) :
    m'.HandlesOk := ⟨by rw [hfds, hhandles]; exact h.valid, by rw [hhandles]; exact h.nodup⟩

/-- A descriptor that no handle uses is not the file of one. -/
lemma Mount.HandlesOk.file_update (h : m.HandlesOk) {fd : ℕ} (hfd : m.Unused fd) (f : Option (Path × ℕ)) {a : Path × ℕ}
    (ha : a ∈ m.handles) {l : Local Path} (hl : l.fds = Function.update m.fds fd f) :
    l.file a.2 = m.toLocal.file a.2 := by
  rcases h.valid a ha with hbad | ⟨hlt, -⟩
  · rw [hbad, Local.file_badHandle, Local.file_badHandle]
  · rw [Local.file_of_lt _ hlt, Local.file_of_lt _ hlt, hl, Function.update_of_ne (hfd a ha hlt)]

variable [DecidableEq Path]

/-- What a call does to the descriptors. -/
lemma LocalCall.exec_fds {env : Env} {l l' : Local Path} {c : LocalCall Path} {r : c.Answer} (h : c.exec env l = some (r, l')) :
    l'.fds = l.fds ∨ (∃ fd f, l.fds fd = none ∧ l'.fds = Function.update l.fds fd (some f)) ∨
      ∃ fd, c = close fd ∧ (l.file fd).isSome ∧ l'.fds = Function.update l.fds (intOf fd).toNat none := by
  cases c with
  | lastModifiedCount _ | lastModifiedGet _ | lastModifiedSet _ _ | lastModifiedErase _ | isDirtyGet _ | isDirtySet _ _
  | isDirtyErase _ => cases h; exact .inl rfl
  | openFile q =>
    rcases exec_openFile h with ⟨i, fd, -, -, -, hfree, -, rfl⟩ | ⟨e, -, rfl, -⟩
    · exact .inr (.inl ⟨fd, (q, i), hfree, rfl⟩)
    · exact .inl rfl
  | openExcl q =>
    rcases exec_openExcl h with ⟨fd, -, -, -, hfree, -, rfl⟩ | ⟨e, -, rfl, -⟩
    · exact .inr (.inl ⟨fd, _, hfree, rfl⟩)
    · exact .inl rfl
  | creat q =>
    rcases exec_creat h with ⟨fd, -, -, hfree, -, rfl⟩ | ⟨e, -, rfl, -⟩
    · exact .inr (.inl ⟨fd, _, hfree, rfl⟩)
    · exact .inl rfl
  | close fd =>
    rcases exec_close h with ⟨hsome, -, rfl⟩ | ⟨-, -, rfl⟩
    · exact .inr (.inr ⟨fd, rfl, hsome, rfl⟩)
    · exact .inl rfl
  | unlink q => rcases exec_unlink h with ⟨-, -, rfl⟩ | ⟨e, -, rfl, -⟩ <;> exact .inl rfl
  | ofstream q => rcases exec_ofstream h with ⟨-, -, rfl⟩ | ⟨-, -, rfl⟩ <;> exact .inl rfl
  | ofstreamWrite q i pos b => rcases exec_ofstreamWrite h with ⟨-, rfl⟩ | ⟨-, rfl, -⟩ <;> exact .inl rfl
  | ifstream q => exact .inl (by rw [(exec_ifstream h).1])
  | ifstreamRead q i pos => exact .inl (by rw [(exec_ifstreamRead h).1])
  | pwrite fh buf offset => rcases exec_pwrite h with ⟨f, -, -, -, rfl⟩ | ⟨e, -, rfl, -⟩ <;> exact .inl rfl
  | pread _ _ _ | ftruncate _ _ | truncate _ _ | fsync _ =>
    simp only [exec] at h
    split at h <;> cases h <;> exact .inl rfl
  | exit => exact r.elim
  | diverge => exact r.elim

/-- A call that spares the handles leaves each of them its file. -/
theorem Mount.HandlesOk.exec (h : m.HandlesOk) {env : Env} {c : LocalCall Path} {r : c.Answer} {l' : Local Path}
    (hspares : SparesHandles m (.disk c)) (hexec : c.exec env m.toLocal = some (r, l')) :
    Mount.HandlesOk { m with toLocal := l' } ∧ ∀ a ∈ m.handles, l'.file a.2 = m.toLocal.file a.2 := by
  have hupdate {fd : ℕ} {f : Option (Path × ℕ)} (hfd : m.Unused fd) (hl' : l'.fds = Function.update m.fds fd f) :
      Mount.HandlesOk { m with toLocal := l' } ∧ ∀ a ∈ m.handles, l'.file a.2 = m.toLocal.file a.2 :=
    ⟨(h.update hfd f).congr hl' rfl, fun a ha => h.file_update hfd f ha hl'⟩
  rcases LocalCall.exec_fds hexec with hsame | ⟨fd, f, hfree, hl'⟩ | ⟨fd, rfl, hsome, hl'⟩
  · refine ⟨h.congr hsame rfl, fun a _ => ?_⟩
    unfold Local.file
    rw [hsame]
  · exact hupdate (h.unused hfree) hl'
  · obtain ⟨hlt, hunused⟩ := (hspares fd rfl).resolve_left (Option.isSome_iff_ne_none.mp hsome)
    rw [intOf_of_lt hlt, Int.toNat_natCast] at hl'
    exact hupdate hunused hl'

/-- The logic of the handles. -/
def handlesLogic (Path : Type) [DecidableEq Path] : Prog.Logic (Call Path) Call.Answer Env (Mount Path) (Remote Path) where
  exec := (machine Path).exec
  rely _ _ _ _ := True
  inv _ m _ := m.HandlesOk
  pre c m _ := SparesHandles m c
  rely_refl _ _ _ := trivial
  rely_trans _ _ _ _ _ _ _ := trivial
  inv_call _ _ _ := id

section Rules

variable {α : Type} {post : α → Mount Path → Remote Path → Prop} {g : Remote Path}

lemma handles_disk {c : LocalCall Path} {k : c.Answer → Program Path α} (hspares : SparesHandles m (.disk c))
    (h : ∀ env r l' g, m.HandlesOk → c.exec env m.toLocal = some (r, l') →
      (k r).Safe (handlesLogic Path) post { m with toLocal := l' } g) :
    Prog.Safe (handlesLogic Path) post (.call (.disk c) k) m g :=
  safe_disk rfl fun g' _ hm => ⟨hspares, fun env r l' _ hexec => ⟨(hm.exec hspares hexec).1, h env r l' g' hm hexec⟩⟩

lemma handles_rpc {c : RemoteCall Path} {k : c.Answer → Program Path α}
    (h : ∀ r g, (k r).Safe (handlesLogic Path) post m g) : Prog.Safe (handlesLogic Path) post (.call (.rpc c) k) m g :=
  safe_rpc rfl fun _ _ hm => ⟨nofun, fun _ r g'' _ _ => ⟨hm, h r g''⟩⟩

/-- A program that closes nothing. -/
lemma handles_calls {p : Program Path α} (h : p.Calls fun c => ∀ fd, c ≠ .disk (.close fd)) (hm : m.HandlesOk) :
    p.Safe (handlesLogic Path) (fun _ m' _ => m'.HandlesOk) m g := by
  refine h.safe (J := fun (m : Mount Path) _ => m.HandlesOk) (fun _ _ _ _ hm _ => hm) (fun _ _ _ hm => hm)
    (fun c m g hc _ fd heq => absurd heq (hc fd)) (fun env c m g r m' g' hc hm _ hexec => ?_) hm
  cases c with
  | rpc c => rwa [(machine_rpc hexec).2]
  | disk c =>
    obtain ⟨l', hcall, rfl, -⟩ := machine_disk hexec
    exact (hm.exec (fun fd heq => absurd heq (hc fd)) hcall).1

end Rules

section Operations

variable {g : Remote Path}

lemma handles_openHandle : (openHandle path).Safe (handlesLogic Path) (OpensHandle path) m g := by
  rw [openHandle_eq]
  refine handles_disk nofun fun env r l' g hm hexec g' _ _ _ => ?_
  rcases LocalCall.exec_openFile hexec with ⟨i, fd, -, -, hlt, hfree, rfl, rfl⟩ | ⟨e, rfl, rfl, -⟩
  · rw [show fhOf (returned (.ok fd)) = fd from fhOf_natCast hlt]
    exact .inr ⟨hlt, ⟨i, by simp⟩, hm.unused hfree⟩
  · exact .inl rfl

/-- A descriptor that was just opened is free again. -/
lemma handles_close {α : Type} {post : α → Mount Path → Remote Path → Prop} {fd : ℕ} {k : Except Errno Unit → Program Path α}
    (hfd : m.toLocal.file fd = none ∨ fd < 2 ^ 31 ∧ m.Unused fd)
    (h : ∀ r (m' : Mount Path) g, m'.HandlesOk → (k r).Safe (handlesLogic Path) post m' g) :
    Prog.Safe (handlesLogic Path) post (.call (.disk (.close fd)) k) m g := by
  have hspares : SparesHandles m (.disk (.close fd)) := by
    rintro _ ⟨⟩
    exact hfd
  exact handles_disk hspares fun env r l' g hm hexec => h r _ g (hm.exec hspares hexec).1

lemma handles_download : (download path).Safe (handlesLogic Path) (OpensHandle path) m g := by
  refine handles_rpc fun r g₁ => ?_
  obtain ⟨msgs, ok⟩ := r
  cases msgs with
  | nil => exact fun _ _ _ h => absurd h (by decide)
  | cons msg msgs =>
    dsimp only [Prog.bind]
    by_cases hexists : msg.file_exists = true
    · rw [if_pos hexists]
      refine handles_disk nofun fun env ofile l₁ g₁ hm hexec => ?_
      change Prog.Safe _ _ (writeChunks path _ (msg :: msgs) >>= _) _ _
      have hspares : SparesHandles m (.disk (.ofstream path)) := nofun
      have hm₁ := (hm.exec hspares hexec).1
      refine Prog.Safe.bind hm₁ ((handles_calls ((writeChunks_calls path _ _).mono ?_) hm₁).mono fun _ m₂ g₂ _ _ => ?_)
      · rintro c ⟨i, pos, b, rfl⟩
        exact nofun
      · cases ok with
        | false => exact fun _ _ _ h => absurd h (by decide)
        | true => exact handles_disk nofun fun _ _ _ _ _ _ => handles_disk nofun fun _ _ _ _ _ _ => handles_openHandle
    · rw [if_neg hexists]
      refine handles_disk nofun fun _ _ l₁ g₁ _ _ => handles_disk nofun fun env fd l₂ g₂ hm hexec => ?_
      refine handles_close ?_ fun _ m₃ g₃ _ => handles_disk nofun fun _ _ _ _ _ _ => handles_openHandle
      rcases LocalCall.exec_creat hexec with ⟨fd, -, hlt, hfree, rfl, rfl⟩ | ⟨e, rfl, rfl, -⟩
      · rw [show fhOf (returned (.ok fd)) = fd from fhOf_natCast hlt]
        exact .inr ⟨hlt, hm.unused hfree⟩
      · exact .inl (Local.file_badHandle _)

lemma handles_afsOpen : (afsOpen path).Safe (handlesLogic Path) (OpensHandle path) m g := by
  refine handles_disk nofun fun _ count _ _ _ _ => ?_
  dsimp only [Prog.bind]
  split_ifs
  · refine handles_disk nofun fun _ t _ _ _ _ => ?_
    dsimp only [Prog.bind]
    split_ifs
    · exact handles_openHandle
    · refine handles_rpc fun stat_content g₁ => handles_disk nofun fun _ t _ _ _ _ => ?_
      dsimp only [Prog.bind]
      split_ifs
      · exact handles_openHandle
      · exact handles_disk nofun fun _ _ _ _ _ _ => handles_disk nofun fun _ _ _ _ _ _ => handles_download
  · exact handles_download

/-- The operations other than `afs_open` leave nothing for FUSE to note. -/
lemma handles_anything {p : Program Path Outcome} (h : p.Calls fun c => ∀ fd, c ≠ .disk (.close fd)) (hm : m.HandlesOk) :
    p.Safe (handlesLogic Path) Anything m g := (handles_calls h hm).mono fun _ _ _ _ _ => trivial

lemma handles_afsRelease {fuel fh : ℕ} (hfd : m.toLocal.file fh = none ∨ fh < 2 ^ 31 ∧ m.Unused fh) :
    (afsRelease fuel path fh).Safe (handlesLogic Path) Anything m g := by
  refine handles_close hfd fun _ m₁ g₁ hm₁ => handles_anything (calls_disk nofun fun dirty => ?_) hm₁
  cases dirty with
  | false => trivial
  | true =>
    refine calls_disk nofun fun i => ?_
    cases i with
    | none => exact ⟨nofun, nofun⟩
    | some i =>
      refine ((upload_calls path i fuel 0 []).mono ?_).bind fun r => calls_rpc nofun fun reply => ?_
      · rintro c (rfl | ⟨pos, rfl⟩ | rfl) <;> exact nofun
      · obtain ⟨status, reply⟩ := reply
        cases status with
        | OK => exact calls_disk nofun fun _ => calls_disk nofun fun _ => trivial
        | CANCELLED | NOT_FOUND | UNAVAILABLE => trivial

lemma handles_afsMknod : (afsMknod path).Safe (handlesLogic Path) Anything m g := by
  refine handles_rpc fun stat_content g₁ => ?_
  dsimp only [Prog.bind]
  split_ifs
  · exact fun _ _ _ => trivial
  · refine handles_disk nofun fun env r l₂ g₂ hm hexec => ?_
    rcases LocalCall.exec_openExcl hexec with ⟨fd, -, -, hlt, hfree, rfl, rfl⟩ | ⟨e, rfl, rfl, -⟩
    · refine handles_close (.inr ⟨hlt, hm.unused hfree⟩) fun r m₃ g₃ hm₃ => ?_
      cases r with
      | error e => exact fun _ _ _ => trivial
      | ok u =>
        refine handles_anything (calls_rpc nofun fun sent => calls_rpc nofun fun reply => ?_) hm₃
        obtain ⟨status, reply⟩ := reply
        cases status with
        | OK => exact calls_disk nofun fun _ => trivial
        | CANCELLED | NOT_FOUND | UNAVAILABLE => trivial
    · exact fun _ _ _ => trivial

/-- What an operation has to leave behind. -/
def HandlesPost : Operation Path → Outcome → Mount Path → Remote Path → Prop
  | .open path => OpensHandle path
  | _ => Anything

lemma handles_begin {op : Operation Path} (hm : m.HandlesOk) (h : Mount.begin op m = some m') :
    m'.HandlesOk ∧ op.program.Safe (handlesLogic Path) (HandlesPost op) m' g := by
  cases op with
  | release fuel path fh =>
    obtain ⟨hmem, rfl⟩ := Mount.begin_release h
    refine ⟨hm.erase _, handles_afsRelease ?_⟩
    rcases hm.valid _ hmem with hbad | ⟨hlt, -⟩
    · exact .inl (by rw [show fh = badHandle from hbad]; exact Local.file_badHandle _)
    · exact .inr ⟨hlt, hm.unused_erase hmem⟩
  | «open» path =>
    obtain ⟨rfl, -⟩ := Mount.begin_other h nofun
    exact ⟨hm, handles_afsOpen⟩
  | mknod path =>
    obtain ⟨rfl, -⟩ := Mount.begin_other h nofun
    exact ⟨hm, handles_afsMknod⟩
  | read path fh size offset =>
    obtain ⟨rfl, -⟩ := Mount.begin_other h nofun
    refine ⟨hm, handles_anything (calls_disk nofun fun r => ?_) hm⟩
    cases r <;> trivial
  | write path buf offset fh =>
    obtain ⟨rfl, -⟩ := Mount.begin_other h nofun
    refine ⟨hm, handles_anything (calls_disk nofun fun _ => calls_disk nofun fun r => ?_) hm⟩
    cases r <;> trivial
  | unlink path =>
    obtain ⟨rfl, -⟩ := Mount.begin_other h nofun
    exact ⟨hm, handles_anything (calls_disk nofun fun _ => calls_disk nofun fun _ => calls_disk nofun fun _ =>
      calls_rpc nofun fun _ => trivial) hm⟩
  | fsync _ _ | ftruncate _ _ _ | truncate _ _ =>
    obtain ⟨rfl, -⟩ := Mount.begin_other h nofun
    exact ⟨hm, handles_anything (calls_disk nofun fun _ => trivial) hm⟩

end Operations

variable {A : Type}

lemma handles_obligations : System.Obligations (machine Path) (fun _ : A => handlesLogic Path) (fun _ => HandlesPost)
    (fun _ _ _ _ => True) fun _ _ _ _ => True where
  exec _ := rfl
  stable _ _ _ _ _ hinv _ := hinv
  start _ _ _ _ _ hm _ h := handles_begin hm h
  finish _ op out m g hm hpost := hm.finish fun path hop hrc => by subst hop; exact hpost hrc
  crash _ _ op m _ _ _ := m.handlesOk_crash op

variable [DecidableEq A]

/-- The handles of all clients are right, and their next calls spare them. -/
def OpenHandles (s : World A Path) : Prop :=
  ∀ a, (s.locals a).HandlesOk ∧ ∀ c, s.next a = some c → SparesHandles (s.locals a) c

theorem openHandles_of_run {g : Remote Path} {es : List (WorldEvent A Path)} {s : World A Path}
    (hrun : (World.start A g).run (machine Path) es = some s) : OpenHandles s := by
  have hallowed : (World.start A g).Along (machine Path) (System.Allowed (fun _ => handlesLogic Path)
      (fun _ _ _ _ => True) fun _ _ _ _ => True) es := by
    refine System.along_of_forall (fun s e _ => ?_) _
    cases e with
    | call a env => exact fun _ _ _ _ => ⟨trivial, fun _ _ _ _ _ _ => trivial⟩
    | _ => trivial
  have hstart : (World.start A g).Sound (fun _ => handlesLogic Path) fun _ => HandlesPost :=
    fun _ => ⟨⟨nofun, .nil⟩, nofun⟩
  intro a
  have hsound := hstart.run handles_obligations hallowed hrun a
  refine ⟨hsound.1, fun c hc => ?_⟩
  obtain ⟨⟨op, p⟩, hrunning, hp⟩ := Option.bind_eq_some_iff.mp hc
  cases p with
  | ret out => cases hp
  | call c' k =>
    cases hp
    exact (hsound.2 op _ hrunning s.shared trivial hsound.1).1

end AFSv1.Client
