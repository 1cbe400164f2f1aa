import AFSv1.Client.CrashCompletion

/-! Recovery from a crash of the client: in every run that meets the conditions below, `afs_open` and `afs_release` after
the restart bring the written content to the server. -/
namespace AFSv1.Client
open Foundations Tables

variable {A Path : Type} [DecidableEq Path] {path : Path} {m m' : Mount Path} {d : Diary Path} {g : Remote Path}

/-! ### Begin, end and loss of an operation -/

/-- The client does not unlink the path, and opens it only while it is not open. -/
def Admitted (path : Path) (m : Mount Path) : Operation Path → Prop
  | .open q => q = path → m.NoHandle path
  | .unlink q => q ≠ path
  | _ => True

/-- A write of the path finds a cache file, and nothing else changes the path. -/
def Grounded (path : Path) (m : Mount Path) : Operation Path → Prop
  | .write q _ _ _ => q = path → (m.entry path).cache ≠ none
  | .truncate q _ | .ftruncate q _ _ => q ≠ path
  | _ => True

/-- What an operation leaves behind. -/
structure RecoveryPost (path : Path) (op : Operation Path) (out : Outcome) (l : Mount Path × Diary Path) (g : Remote Path) :
    Prop where
  current : l.2.current = some op
  opened : op = .open path → OpenLeaves path out l g
  released : ∀ fuel fh, op = .release fuel path fh → (l.1.entry path).dirty = false
  written : ∀ buf offset fh, op = .write path buf offset fh → WriteLeaves path buf offset fh out l g

lemma Mount.HandleRight.erase {S : Option Version} (h : m.HandleRight path S) (a : Path × ℕ) :
    Mount.HandleRight path { m with handles := m.handles.erase a } S where
  single := List.erase_sublist.countP_le.trans h.single
  upToDate fh hfh := h.upToDate fh (List.mem_of_mem_erase hfh)
  file fh i hfh := h.file fh i (List.mem_of_mem_erase hfh)

/-- The release of the only handle leaves none. -/
lemma Mount.HandleRight.noHandle {S : Option Version} {fh : ℕ} (h : m.HandleRight path S) (hmem : (path, fh) ∈ m.handles) :
    Mount.NoHandle path { m with handles := m.handles.erase (path, fh) } := by
  intro fh' hfh'
  have hperm := (List.perm_cons_erase hmem).countP_eq fun a => decide (a.1 = path)
  have hpos : 0 < (m.handles.erase (path, fh)).countP fun a => decide (a.1 = path) :=
    List.countP_pos_iff.mpr ⟨_, hfh', by simp⟩
  have hsingle := h.single
  rw [List.countP_cons_of_pos (by simp)] at hperm
  omega

/-- The start of an operation. -/
lemma Consistent.begin (h : Consistent path none m d g) (hcurrent : d.current = none) {op : Operation Path}
    (hbegin : Mount.begin op m = some m') (next : Option (Call Path)) : Consistent path next m' (d.begin path op) g := by
  have hlocal := Mount.begin_toLocal hbegin
  have hpossible : d.possible path = d.contents := Diary.possible_of_none (by simp [Diary.pending, hcurrent])
  have haccounted := h.accounted.before (by simp) next
  rw [hpossible] at haccounted
  refine ⟨?_, ?_, ?_⟩
  · rw [show m'.entry = m.entry by rw [hlocal]]
    exact haccounted.mono fun b hb => Diary.mem_possible hb
  · by_cases hop : ∃ fuel q fh, op = .release fuel q fh
    · obtain ⟨fuel, q, fh, rfl⟩ := hop
      obtain ⟨-, rfl⟩ := Mount.begin_release hbegin
      exact h.handle.erase _
    · rw [(Mount.begin_other hbegin fun fuel q fh heq => hop ⟨fuel, q, fh, heq⟩).1]
      exact h.handle
  · rw [show m'.entry = m.entry by rw [hlocal]]
    refine ⟨fun hstage => ?_, fun hstage => h.returning.atCrash fun hworking => ?_, fun hstage => ?_⟩
    · change op.writes path = none
      by_contra hwrites
      obtain ⟨w, hw⟩ := Option.ne_none_iff_exists'.mp hwrites
      obtain ⟨fh, rfl⟩ := Operation.writes_eq_some hw
      exact hstage (d.stage.begin_write _ _ fh)
    · rcases d.stage.begin_cases path op with heq | heq
      · exact hstage heq
      · exact hstage (heq.trans hworking)
    · rcases d.stage.begin_cases path op with heq | heq
      · cases heq.symm.trans hstage
      · exact h.returning.recovered (heq.symm.trans hstage)

lemma Mount.begin_file {op : Operation Path} {fh : ℕ} (hbegin : Mount.begin op m = some m') (hfile : op.file = some fh) :
    (op.path, fh) ∈ m'.handles := by
  cases op with
  | read _ _ _ _ | write _ _ _ _ | fsync _ _ | ftruncate _ _ _ =>
    obtain ⟨rfl, hmem⟩ := Mount.begin_other hbegin nofun
    cases hfile
    exact hmem _ rfl
  | _ => cases hfile

/-- What an operation is asked to do keeps the path consistent. -/
theorem recovery_begin {op : Operation Path} (h : Consistent path none m d g) (hcurrent : d.current = none)
    (hadmitted : Admitted path m op) (hgrounded : Grounded path m op) (hbegin : Mount.begin op m = some m') :
    Consistent path op.program.next m' (d.begin path op) g ∧
      op.program.Safe (recoveryLogic path) (RecoveryPost path op) (m', d.begin path op) g := by
  refine ⟨h.begin hcurrent hbegin _, ?_⟩
  have hcurrent' : (d.begin path op).current = some op := rfl
  have hinv := h.begin hcurrent hbegin none
  have hpost {p : Program Path Outcome} (hopen : op ≠ .open path) (hrelease : ∀ fuel fh, op ≠ .release fuel path fh)
      (hwrite : ∀ buf offset fh, op ≠ .write path buf offset fh)
      (hp : p.Safe (recoveryLogic path) (fun _ l _ => l.2.current = some op) (m', d.begin path op) g) :
      p.Safe (recoveryLogic path) (RecoveryPost path op) (m', d.begin path op) g :=
    hp.mono fun _ _ _ _ hl => ⟨hl, fun h => absurd h hopen, fun fuel fh h => absurd h (hrelease fuel fh),
      fun buf offset fh h => absurd h (hwrite buf offset fh)⟩
  by_cases hpath : op.path = path
  · cases op with
    | «open» q =>
      obtain rfl : q = path := hpath
      obtain ⟨rfl, -⟩ := Mount.begin_other hbegin (by simp)
      exact (recovery_afsOpen hcurrent' (hadmitted rfl)).mono fun _ _ _ _ hl => ⟨hl.1, fun _ => hl, (by simp), (by simp)⟩
    | release fuel q fh =>
      obtain rfl : q = path := hpath
      obtain ⟨hmem, rfl⟩ := Mount.begin_release hbegin
      have hno := h.handle.noHandle hmem
      exact (recovery_afsRelease hcurrent' hno (h.handle.upToDate fh hmem)).mono fun _ _ _ _ hl =>
        ⟨hl.1, (by simp), fun _ _ _ => hl.2, (by simp)⟩
    | write q buf offset fh =>
      obtain rfl : q = path := hpath
      obtain ⟨rfl, hmem⟩ := Mount.begin_other hbegin (by simp)
      have hpossible : d.possible q = d.contents := Diary.possible_of_none (by simp [Diary.pending, hcurrent])
      have hcontent : ∀ b, (m'.entry q).content = some b → b ∈ d.contents := by
        rw [← hpossible]
        exact h.accounted.cached (h.handle.upToDate fh (hmem _ rfl))
      refine (recovery_afsWrite hcurrent' (d.stage.begin_write buf offset fh) (hmem _ rfl) (hgrounded rfl) hcontent).mono
        fun _ _ _ _ hl => ⟨hl.current, (by simp), (by simp), fun _ _ _ heq => ?_⟩
      cases heq
      exact hl
    | mknod q =>
      obtain rfl : q = path := hpath
      obtain ⟨rfl, -⟩ := Mount.begin_other hbegin (by simp)
      exact hpost (by simp) (by simp) (by simp) (recovery_afsMknod hcurrent' d.stage.begin_mknod)
    | read q fh size offset =>
      refine hpost (by simp) (by simp) (by simp) (recovery_keep (by simp) (by simp) (fun _ => rfl) (fun env r l' hexec => ?_)
        fun g₁ env r l₁ _ _ _ _ => ?_)
      · simp only [LocalCall.exec] at hexec
        split at hexec <;> cases hexec <;> rfl
      · cases r <;> exact recovery_ret fun _ _ _ => hcurrent'
    | fsync q fh =>
      refine hpost (by simp) (by simp) (by simp) (recovery_keep (by simp) (by simp) (fun _ => rfl) (fun env r l' hexec => ?_)
        fun g₁ env r l₁ _ _ _ _ => recovery_ret fun _ _ _ => hcurrent')
      simp only [LocalCall.exec] at hexec
      split at hexec <;> cases hexec <;> rfl
    | unlink q => exact absurd hpath hadmitted
    | truncate q newsize | ftruncate q offset fh => exact absurd hpath hgrounded
  · have hne {op' : Operation Path} (h : op'.path = path) : op ≠ op' := by
      rintro rfl
      exact hpath h
    refine hpost (hne rfl) (fun fuel fh => hne rfl) (fun buf offset fh => hne rfl) ?_
    exact recovery_elsewhere hcurrent' hpath (fun fh hfile => Mount.begin_file hbegin hfile) hinv

lemma Diary.finish_other {op : Operation Path} (out : Outcome) (h : op.writes path = none) :
    d.finish path op out = { d with current := none, stage := d.stage.finish path op out } := by simp [Diary.finish, h]

/-- After a write the diary allows what is in the cache file. -/
lemma Diary.finish_write (out : Outcome) (buf : Bytes) (offset fh : ℕ) :
    (d.finish path (.write path buf offset fh) out).possible path =
        (if 0 ≤ out.rc then d.contents.map fun b => b.overlay offset buf else d.contents) ∧
      (d.finish path (.write path buf offset fh) out).stage = d.stage.finish path (.write path buf offset fh) out := by
  simp only [Diary.finish, Operation.writes, if_true]
  split_ifs <;> exact ⟨rfl, rfl⟩

/-- A finished open adds a handle, and nothing else does. -/
lemma Mount.HandleRight.finish {op : Operation Path} {out : Outcome} {S : Option Version} (h : m.HandleRight path S)
    (hopened : op = .open path → out.rc = 0 → m.NoHandle path ∧ (m.entry path).UpToDate S ∧
      ∀ i, m.toLocal.file out.fh = some (path, i) → (m.entry path).cache = some i) :
    (m.finish op out).HandleRight path S := by
  cases op with
  | «open» q =>
    by_cases hrc : out.rc = 0
    · by_cases hq : q = path
      · obtain ⟨hno, hup, hfile⟩ := hopened (hq ▸ rfl) hrc
        have hhandles : (m.finish (.open q) out).handles = (path, out.fh) :: m.handles := by simp [Mount.finish, hrc, hq]
        have hmem {fh : ℕ} (hfh : (path, fh) ∈ (m.finish (.open q) out).handles) : fh = out.fh := by
          rw [hhandles] at hfh
          rcases List.mem_cons.mp hfh with heq | hold
          · exact congrArg Prod.snd heq
          · exact absurd hold (hno fh)
        refine ⟨?_, fun _ _ => hup, fun fh i hfh hi => hfile i (hmem hfh ▸ hi)⟩
        have hzero : m.handles.countP (·.1 = path) = 0 := by
          rw [List.countP_eq_zero]
          rintro ⟨p, fh⟩ hfh
          simp only [decide_eq_true_eq]
          rintro rfl
          exact hno fh hfh
        rw [hhandles, List.countP_cons_of_pos (by simp), hzero]
      · have hhandles : (m.finish (.open q) out).handles = (q, out.fh) :: m.handles := by simp [Mount.finish, hrc]
        have hmem {fh : ℕ} (hfh : (path, fh) ∈ (m.finish (.open q) out).handles) : (path, fh) ∈ m.handles := by
          rw [hhandles] at hfh
          refine (List.mem_cons.mp hfh).resolve_left fun heq => hq (congrArg Prod.fst heq).symm
        refine ⟨?_, fun fh hfh => h.upToDate fh (hmem hfh), fun fh i hfh => h.file fh i (hmem hfh)⟩
        rw [hhandles, List.countP_cons_of_neg (by simpa using hq)]
        exact h.single
    · have hhandles : (m.finish (.open q) out).handles = m.handles := by simp [Mount.finish, hrc]
      exact h.step hhandles (fun _ _ => rfl) id fun _ hi => hi
  | _ => exact ⟨h.single, h.upToDate, h.file⟩

/-- The end of an operation. -/
theorem Consistent.finish {op : Operation Path} {out : Outcome} (h : Consistent path none m d g)
    (hpost : RecoveryPost path op out (m, d) g) : Consistent path none (m.finish op out) (d.finish path op out) g := by
  have hhandle := h.handle.finish fun hop hrc => (hpost.opened hop).2 hrc
  cases hwrites : op.writes path with
  | none =>
    have haccounted := h.accounted
    rw [Diary.possible_of_none (Diary.pending_eq_none hpost.current hwrites)] at haccounted
    rw [Diary.finish_other out hwrites]
    refine ⟨haccounted, hhandle, fun _ => rfl, fun hstage => h.returning.atCrash fun hworking => hstage ?_, fun hstage => ?_⟩
    · change d.stage.finish path op out = .working
      rw [hworking]
      rfl
    · rcases Stage.finish_recovered hstage with hold | ⟨fuel, fh, rfl⟩
      · exact h.returning.recovered hold
      · exact hpost.released fuel fh rfl
  | some w =>
    obtain ⟨fh, rfl⟩ := Operation.writes_eq_some hwrites
    have hw := hpost.written w.2 w.1 fh rfl
    obtain ⟨hpossible, hstage⟩ := @Diary.finish_write Path _ path d out w.2 w.1 fh
    refine ⟨Entry.accounted_of_dirty h.accounted.present hw.upToDate hw.cache hw.dirty fun b hb => ?_, hhandle, ?_⟩
    · rw [hpossible]
      have hcontent := hw.content b hb
      split_ifs at hcontent ⊢ <;> exact hcontent
    · apply Diary.returning_of_working
      rw [hstage, show d.stage = .working from hw.working]
      rfl

/-- Between the recorded time and the flag of a download, a crash finds the cache file. -/
def CrashReady (path : Path) (next : Option (Call Path)) (m : Mount Path) : Prop :=
  next = some (.disk (.isDirtySet path false)) → (m.entry path).dirty = true → (m.entry path).cache ≠ none

theorem Consistent.crash {next : Option (Call Path)} (h : Consistent path next m d g) (hready : CrashReady path next m)
    (op : Option (Operation Path)) : Consistent path none (m.crash op) (d.crash path (m.entry path).dirty) g := by
  have hno : (m.crash op).NoHandle path := nofun
  have haccounted := h.accounted.before hready none
  refine ⟨⟨haccounted.present, haccounted.created, haccounted.cached, fun hclean hwrote => ?_, haccounted.dirty⟩,
    hno.right _, ⟨fun _ => rfl, fun _ _ _ hb => hb, nofun⟩⟩
  have hwrote' : d.wrote = true := by
    rw [show (m.entry path).dirty = false from hclean, Diary.crash] at hwrote
    simpa using hwrote
  exact haccounted.clean hclean hwrote'

/-! ### The run -/

/-- Nothing is asked of the other clients. -/
def strangerLogic (path : Path) : Prog.Logic (Call Path) Call.Answer Env (Mount Path × Diary Path) (Remote Path) where
  exec := (diaries path).exec
  rely _ _ _ _ := True
  rely_refl _ _ _ := trivial
  rely_trans _ _ _ _ _ _ _ := trivial
  inv_call _ _ _ := id

lemma stranger_safe {α : Type} (p : Program Path α) (l : Mount Path × Diary Path) :
    p.Safe (strangerLogic path) (fun _ _ _ => True) l g := by
  induction p generalizing l g with
  | ret a => exact fun _ _ _ => trivial
  | call c k ih => exact fun _ _ _ => ⟨trivial, fun _ r l' _ _ _ => ⟨trivial, ih r l'⟩⟩

variable [DecidableEq A] (path) (a : A)

def crashLogic (b : A) : Prog.Logic (Call Path) Call.Answer Env (Mount Path × Diary Path) (Remote Path) :=
  if b = a then recoveryLogic path else strangerLogic path

def CrashPost (b : A) (op : Operation Path) (out : Outcome) (l : Mount Path × Diary Path) (g : Remote Path) : Prop :=
  b = a → RecoveryPost path op out l g

lemma crash_obligations : System.Obligations (diaries path) (crashLogic path a) (CrashPost path a)
    (fun b op l _ => b = a → l.2.current = none ∧ Admitted path l.1 op ∧ Grounded path l.1 op)
    fun b next l _ => b = a → CrashReady path next l.1 where
  exec b := by
    unfold crashLogic
    split_ifs <;> rfl
  stable b next l g g' hinv hrely := by
    by_cases hb : b = a
    · rw [crashLogic, if_pos hb] at hinv hrely ⊢
      exact Consistent.rely hinv hrely
    · rw [crashLogic, if_neg hb]
      trivial
  start b op l l' g hinv hok hbegin := by
    obtain ⟨m', hbegin', rfl⟩ := Option.map_eq_some_iff.mp hbegin
    by_cases hb : b = a
    · obtain ⟨hcurrent, hadmitted, hgrounded⟩ := hok hb
      rw [crashLogic, if_pos hb] at hinv ⊢
      obtain ⟨hinv', hsafe⟩ := recovery_begin hinv hcurrent hadmitted hgrounded hbegin'
      exact ⟨hinv', hsafe.mono fun _ _ _ _ hpost _ => hpost⟩
    · rw [crashLogic, if_neg hb]
      exact ⟨trivial, (stranger_safe op.program _).mono fun _ _ _ _ _ heq => absurd heq hb⟩
  finish b op out l g hinv hpost := by
    by_cases hb : b = a
    · rw [crashLogic, if_pos hb] at hinv ⊢
      exact Consistent.finish hinv (hpost hb)
    · rw [crashLogic, if_neg hb]
      trivial
  crash b next op l g hinv hok := by
    by_cases hb : b = a
    · rw [crashLogic, if_pos hb] at hinv ⊢
      exact Consistent.crash hinv (hok hb) op
    · rw [crashLogic, if_neg hb]
      trivial

lemma DiaryWorld.sound_start (g : Remote Path) : (DiaryWorld.start A g).Sound (crashLogic path a) (CrashPost path a) := by
  refine fun b => ⟨?_, nofun⟩
  by_cases hb : b = a
  · rw [crashLogic, if_pos hb]
    have hno : Mount.NoHandle path {} := nofun
    refine ⟨Entry.accounted_of_none rfl ?_ nofun, hno.right _, Diary.returning_of_working rfl⟩
    rintro (hdirty | hwrote)
    · cases hdirty
    · cases hwrote
  · rw [crashLogic, if_neg hb]
    trivial

/-- The path whose upload ends with the call. -/
def Call.uploads : Call Path → Option Path
  | .rpc (.Write path _ _) => some path
  | _ => none

/-- The client opens the path once at a time and does not unlink it, its calls fail only where the cache file is missing,
and the other clients do not write the path. -/
def Promised (s : DiaryWorld A Path) : WorldEvent A Path → Prop
  | .start b op => b = a → Admitted path (s.locals a).1 op
  | .call b env => ∀ c, s.next b = some c →
      (b = a → Faithful env (s.locals a).1.toLocal c) ∧ (b ≠ a → c.uploads ≠ some path)
  | _ => True

/-- The client changes the path by writes that find the cache file, it does not crash just before it clears the dirty flag
of a file that is missing, and the other clients do not unlink the path. -/
def Recoverable (s : DiaryWorld A Path) : WorldEvent A Path → Prop
  | .start b op => b = a → Grounded path (s.locals a).1 op
  | .call b _ => b ≠ a → s.next b ≠ some (.rpc (.Unlink path))
  | .crash b => b = a → CrashReady path (s.next a) (s.locals a).1
  | .finish _ => True

variable {path a} {s : DiaryWorld A Path} {es : List (WorldEvent A Path)}

instance (path : Path) (m : Mount Path) : Decidable (m.NoHandle path) :=
  decidable_of_iff (∀ h ∈ m.handles, h.1 ≠ path) ⟨fun h fh hfh => h _ hfh rfl, fun h a ha heq => by
    subst heq
    exact h a.2 ha⟩

instance (l : Local Path) (c : LocalCall Path) : Decidable (Absent l c) := by
  induction c using LocalCall.casesOn <;> unfold Absent <;> infer_instance

instance (env : Env) (l : Local Path) (c : Call Path) : Decidable (Faithful env l c) := by
  induction c using Call.casesOn <;> unfold Faithful <;> infer_instance

instance (path : Path) (m : Mount Path) (op : Operation Path) : Decidable (Admitted path m op) := by
  induction op using Operation.casesOn <;> unfold Admitted <;> infer_instance

instance (path : Path) (m : Mount Path) (op : Operation Path) : Decidable (Grounded path m op) := by
  induction op using Operation.casesOn <;> unfold Grounded <;> infer_instance

instance (path : Path) (next : Option (Call Path)) (m : Mount Path) : Decidable (CrashReady path next m) := by
  unfold CrashReady
  infer_instance

instance (path : Path) (a : A) (s : DiaryWorld A Path) (e : WorldEvent A Path) : Decidable (Promised path a s e) := by
  induction e using AgentEvent.casesOn <;> unfold Promised <;> infer_instance

instance (path : Path) (a : A) (s : DiaryWorld A Path) (e : WorldEvent A Path) : Decidable (Recoverable path a s e) := by
  induction e using AgentEvent.casesOn <;> unfold Recoverable <;> infer_instance

/-- The rule for runs applies. -/
lemma crash_allowed {g : Remote Path} (hpromised : (DiaryWorld.start A g).Along (diaries path) (Promised path a) es)
    (hrecoverable : (DiaryWorld.start A g).Along (diaries path) (Recoverable path a) es)
    (hrun : (DiaryWorld.start A g).run (diaries path) es = some s) :
    (DiaryWorld.start A g).Along (diaries path) (System.Allowed (crashLogic path a)
      (fun b op l _ => b = a → l.2.current = none ∧ Admitted path l.1 op ∧ Grounded path l.1 op)
      fun b next l _ => b = a → CrashReady path next l.1) es := by
  refine ((hpromised.and hrecoverable).reached hrun).mono fun t e _ h => ?_
  obtain ⟨⟨hp, hr⟩, ⟨before, hbefore⟩, t', ht'⟩ := h
  cases e with
  | start b op =>
    rintro rfl
    refine ⟨?_, hp rfl, hr rfl⟩
    have hcurrent := (diaryRight_of_run hbefore b).current
    cases hrunning : t.running b with
    | none => simpa [hrunning] using hcurrent
    | some x => simp [System.step, hrunning] at ht'
  | call b env =>
    intro op c k hrunning
    have hnext : t.next b = some c := by simp [System.next, hrunning, Prog.next]
    refine ⟨?_, fun r l g' hexec b' hb' => ?_⟩
    · by_cases hb : b = a
      · subst hb
        have hforget : (World.start A g).run (machine Path) before = some t.forget := by
          have h : ((DiaryWorld.start A g).run (diaries path) before).map System.forget =
              (World.start A g).run (machine Path) before := System.run_forget _ before
          rw [hbefore] at h
          exact h.symm
        obtain ⟨hhandles, hspares⟩ := openHandles_of_run hforget b
        rw [crashLogic, if_pos rfl]
        exact ⟨(hp c hnext).1 rfl, hhandles, hspares c hnext⟩
      · rw [crashLogic, if_neg hb]
        trivial
    · by_cases hb : b' = a
      · subst hb
        rw [crashLogic, if_pos rfl]
        have hexec' : (diaries path).exec env c (t.locals b) t.shared = some (r, l, g') := by
          rw [crashLogic, if_neg (Ne.symm hb')] at hexec
          exact hexec
        obtain ⟨hcall, -⟩ := diaries_exec hexec'
        change g'.files path = t.shared.files path
        cases c with
        | disk c =>
          obtain ⟨l₁, -, -, rfl⟩ := machine_disk hcall
          rfl
        | rpc c =>
          refine RemoteCall.exec_files (machine_rpc hcall).1 (fun chunks broken heq => ?_) fun heq => ?_
          · exact (hp _ hnext).2 (Ne.symm hb') (heq ▸ rfl)
          · exact hr (Ne.symm hb') (heq ▸ hnext)
      · rw [crashLogic, if_neg hb]
        trivial
  | finish b => trivial
  | crash b =>
    rintro rfl
    exact hr rfl

lemma consistent_of_run {g : Remote Path} (hpromised : (DiaryWorld.start A g).Along (diaries path) (Promised path a) es)
    (hrecoverable : (DiaryWorld.start A g).Along (diaries path) (Recoverable path a) es)
    (hrun : (DiaryWorld.start A g).run (diaries path) es = some s) :
    Consistent path (s.next a) (s.locals a).1 (s.locals a).2 s.shared ∧ ∀ op p, s.running a = some (op, p) →
      p.Safe (recoveryLogic path) (RecoveryPost path op) (s.locals a) s.shared := by
  have hsound := (DiaryWorld.sound_start path a g).run (crash_obligations path a)
    (crash_allowed hpromised hrecoverable hrun) hrun a
  rw [crashLogic, if_pos rfl] at hsound
  exact ⟨hsound.1, fun op p hp => (hsound.2 op p hp).mono fun _ _ _ _ hpost => hpost rfl⟩

lemma Consistent.recovered {next : Option (Call Path)} (h : Consistent path next m d g) (hstage : d.stage = .recovered) :
    (m.entry path).dirty = false ∧ (d.wrote = true → Holding (g.files path) d.atCrash) := by
  have hclean := h.returning.recovered hstage
  have hworking : d.stage ≠ .working := by simp [hstage]
  refine ⟨hclean, fun hwrote => (h.accounted.clean hclean hwrote).mono fun b hb => ?_⟩
  rw [Diary.possible_of_none (h.returning.pending hworking)] at hb
  exact h.returning.atCrash hworking hwrote b hb

/-- A file that an open takes as it is and that is dirty is there. -/
lemma Consistent.backed (h : Consistent path none m d g) (hup : (m.entry path).UpToDate (g.files path))
    (hdirty : (m.entry path).dirty = true) : (m.entry path).cache ≠ none := by
  rcases h.accounted.dirty hdirty with ⟨-, hcache⟩ | ⟨hstale, -⟩ | ⟨hnext, -⟩
  · exact hcache
  · exact absurd hup hstale
  · cases hnext

/-- What the diary keeps while calls are answered. -/
def Diary.kept (d : Diary Path) : Stage × Bool × List Bytes := (d.stage, d.wrote, d.atCrash)

lemma diaryBook_kept (c : Call Path) (r : c.Answer) (m : Mount Path) (d : Diary Path) :
    ((diaryBook path).call c r m d).kept = d.kept := by
  change (d.call path c r).kept = d.kept
  simp [Diary.kept]

/-- A complete operation without failures. -/
lemma calm_session {op : Operation Path} {post : Outcome → Mount Path → Remote Path → Prop} {s : DiaryWorld A Path}
    (hidle : s.running a = none) (hbegin : Mount.begin op (s.locals a).1 = some m) (hwrites : op.writes path = none)
    (h : op.program.Safe (calmLogic Path) post m s.shared) : ∃ envs out m' s', (∀ env ∈ envs, Calm env) ∧
      s.run (diaries path) (session a op envs) = some s' ∧ post out m' s'.shared ∧ s'.running a = none ∧
        (s'.locals a).1 = m'.finish op out ∧ (s'.locals a).2.kept =
          ((((s.locals a).2.stage.begin path op).finish path op out), (s.locals a).2.wrote, (s.locals a).2.atCrash) := by
  obtain ⟨envs, out, m', g', henvs, heval, hpost⟩ := calm_eval h
  obtain ⟨d', heval', hd'⟩ := System.eval_track (N := diaryBook path) Diary.kept diaryBook_kept
    ((s.locals a).2.begin path op) heval
  refine ⟨envs, out, m', _, henvs, System.run_session.mpr ⟨hidle, (m, (s.locals a).2.begin path op), out, (m', d'), g', ?_,
    heval', rfl⟩, hpost, ?_, ?_, ?_⟩
  · exact Option.map_eq_some_iff.mpr ⟨m, hbegin, rfl⟩
  · exact Function.update_self ..
  · simp [System.become, Machine.track, machine]
  · simp only [System.become, Function.update_self]
    change (d'.finish path op out).kept = _
    simp only [Diary.kept, Diary.begin, Prod.mk.injEq] at hd'
    simp only [Diary.finish_other out hwrites, Diary.kept, hd']

/-- After a crash the path can be opened and released, with calls that do not fail. -/
lemma reopening_completes {s : DiaryWorld A Path} (h : Consistent path none (s.locals a).1 (s.locals a).2 s.shared)
    (hidle : s.running a = none) (hstage : (s.locals a).2.stage = .crashed) (hspare : (s.locals a).1.toLocal.Spare)
    (hfresh : ∃ now, s.shared.Fresh now) : ∃ envs fuel fh envs' s', (∀ env ∈ envs ++ envs', Calm env) ∧
      s.run (diaries path) (session a (.open path) envs ++ session a (.release fuel path fh) envs') = some s' ∧
        (s'.locals a).2.kept = (.recovered, (s.locals a).2.wrote, (s.locals a).2.atCrash) := by
  obtain ⟨envs, out, m₁, s₁, henvs, hrun₁, ⟨hrc, hshared₁, hbacked⟩, hidle₁, hmount₁, hkept₁⟩ :=
    @calm_session _ _ _ path _ _ a (.open path) _ _ hidle rfl rfl (calm_afsOpen hspare h.accounted.present h.backed)
  have hstage₁ : (s₁.locals a).2.stage = .reopened := by
    have heq := congrArg Prod.fst hkept₁
    simpa [Diary.kept, hstage, Stage.begin, Stage.finish, hrc] using heq
  have hentry₁ : (s₁.locals a).1.entry = m₁.entry := by rw [hmount₁]; rfl
  have hhandles₁ : (path, out.fh) ∈ (s₁.locals a).1.handles := by
    rw [hmount₁]
    simp [Mount.finish, hrc]
  set fuel := (((s₁.locals a).1.entry path).content.getD []).length + 1 with hfuel
  have hbegin : Mount.begin (.release fuel path out.fh) (s₁.locals a).1 =
      some { (s₁.locals a).1 with handles := (s₁.locals a).1.handles.erase (path, out.fh) } := if_pos hhandles₁
  have hrounds : ∀ i, ((s₁.locals a).1.entry path).cache = some i →
      (((s₁.locals a).1.entry path).inode i).length < fuel * BUFSIZE := by
    intro i hi
    have hlength : (((s₁.locals a).1.entry path).inode i).length < fuel := by simp [hfuel, Entry.content, hi]
    exact hlength.trans_le (Nat.le_mul_of_pos_right _ (by decide))
  obtain ⟨envs', out', m₂, s₂, henvs', hrun₂, -, -, -, hkept₂⟩ := calm_session hidle₁ hbegin rfl
    (calm_afsRelease (hentry₁ ▸ hbacked) hrounds (hshared₁ ▸ hfresh))
  refine ⟨envs, fuel, out.fh, envs', s₂, ?_, ?_, ?_⟩
  · simp only [List.mem_append]
    rintro env (henv | henv)
    · exact henvs env henv
    · exact henvs' env henv
  · rw [System.run_append, hrun₁]
    exact hrun₂
  · simp only [Diary.kept, Prod.mk.injEq] at hkept₁
    rw [hkept₂, hstage₁, hkept₁.2.1, hkept₁.2.2]
    simp [Stage.begin, Stage.finish]

/-- Recovery of the path at the client: the first `afs_open` and `afs_release` after a crash can always be completed, the
release does not exit, and when it has returned, the file is clean and the server has what was written. -/
structure Recovers (path : Path) (a : A) (s : DiaryWorld A Path) : Prop where
  recovered : (s.locals a).2.stage = .recovered → ((s.locals a).1.entry path).dirty = false ∧
    ((s.locals a).2.wrote = true → Holding (s.shared.files path) (s.locals a).2.atCrash)
  remains : ∀ fuel fh k, s.running a ≠ some (.release fuel path fh, .call (.disk .exit) k)
  completes : (s.locals a).2.stage = .crashed → s.running a = none → (s.locals a).1.toLocal.Spare →
    (∃ now, s.shared.Fresh now) → ∃ envs fuel fh envs' s', (∀ env ∈ envs ++ envs', Calm env) ∧
      s.run (diaries path) (session a (.open path) envs ++ session a (.release fuel path fh) envs') = some s' ∧
        ((s'.locals a).1.entry path).dirty = false ∧
          ((s.locals a).2.wrote = true → Holding (s'.shared.files path) (s.locals a).2.atCrash)

omit [DecidableEq Path] in
/-- Answers without failures are promised. -/
lemma Calm.faithful {env : Env} (h : Calm env) (l : Local Path) (c : Call Path) : Faithful env l c := by
  cases c with
  | disk c => exact .inl h.1
  | rpc c => exact h.2

lemma promised_session {s : DiaryWorld A Path} {op : Operation Path} {envs : List Env} (henvs : ∀ env ∈ envs, Calm env)
    (hadmitted : Admitted path (s.locals a).1 op) : s.Along (diaries path) (Promised path a) (session a op envs) :=
  System.along_session (fun _ => hadmitted) (fun _ env henv c _ => ⟨fun _ => (henvs env henv).faithful _ c,
    fun hne => absurd rfl hne⟩) fun _ => trivial

lemma recoverable_session {s : DiaryWorld A Path} {op : Operation Path} {envs : List Env}
    (hgrounded : Grounded path (s.locals a).1 op) : s.Along (diaries path) (Recoverable path a) (session a op envs) :=
  System.along_session (fun _ => hgrounded) (fun _ _ _ hne => absurd rfl hne) fun _ => trivial

/-- A run that goes on with an open and a release of the path. -/
lemma along_reopening {P : DiaryWorld A Path → WorldEvent A Path → Prop} {t : DiaryWorld A Path} {fuel fh : ℕ}
    {envs envs' : List Env} (hrun : t.run (diaries path) es = some s) (hbefore : t.Along (diaries path) P es)
    (hopen : s.Along (diaries path) P (session a (.open path) envs))
    (hrelease : ∀ u : DiaryWorld A Path, u.Along (diaries path) P (session a (.release fuel path fh) envs')) :
    t.Along (diaries path) P (es ++ (session a (.open path) envs ++ session a (.release fuel path fh) envs')) := by
  refine hbefore.append fun u hu => ?_
  obtain rfl : s = u := Option.some.inj (hrun.symm.trans hu)
  exact hopen.append fun u _ => hrelease u

lemma completes_of_recoverable {g : Remote Path}
    (hpromised : (DiaryWorld.start A g).Along (diaries path) (Promised path a) es)
    (hrecoverable : (DiaryWorld.start A g).Along (diaries path) (Recoverable path a) es)
    (hrun : (DiaryWorld.start A g).run (diaries path) es = some s) (hstage : (s.locals a).2.stage = .crashed)
    (hidle : s.running a = none) (hspare : (s.locals a).1.toLocal.Spare) (hfresh : ∃ now, s.shared.Fresh now) :
    ∃ envs fuel fh envs' s', (∀ env ∈ envs ++ envs', Calm env) ∧
      s.run (diaries path) (session a (.open path) envs ++ session a (.release fuel path fh) envs') = some s' ∧
        ((s'.locals a).1.entry path).dirty = false ∧
          ((s.locals a).2.wrote = true → Holding (s'.shared.files path) (s.locals a).2.atCrash) := by
  have hconsistent := (consistent_of_run hpromised hrecoverable hrun).1
  rw [show s.next a = none by simp [System.next, hidle]] at hconsistent
  obtain ⟨envs, fuel, fh, envs', s', hcalm, hreopen, hkept⟩ :=
    reopening_completes hconsistent hidle hstage hspare hfresh
  have hopen (env : Env) (henv : env ∈ envs) : Calm env := hcalm env (List.mem_append_left _ henv)
  have hrelease (env : Env) (henv : env ∈ envs') : Calm env := hcalm env (List.mem_append_right _ henv)
  have hadmitted : Admitted path (s.locals a).1 (.open path) := fun _ => (diaryRight_of_run hrun a).closed hstage
  have hrun' : (DiaryWorld.start A g).run (diaries path)
      (es ++ (session a (.open path) envs ++ session a (.release fuel path fh) envs')) = some s' := by
    rw [System.run_append, hrun]
    exact hreopen
  have hpromised' := along_reopening hrun hpromised (promised_session hopen hadmitted) fun u =>
    show u.Along (diaries path) (Promised path a) (session a (.release fuel path fh) envs') from
      promised_session hrelease trivial
  have hend := (consistent_of_run hpromised' (along_reopening hrun hrecoverable (recoverable_session trivial) fun _ =>
    recoverable_session trivial) hrun').1
  simp only [Diary.kept, Prod.mk.injEq] at hkept
  obtain ⟨hclean, hheld⟩ := hend.recovered hkept.1
  rw [hkept.2.1, hkept.2.2] at hheld
  exact ⟨envs, fuel, fh, envs', s', hcalm, hreopen, hclean, hheld⟩

theorem recovers_of_recoverable (g : Remote Path) (es : List (WorldEvent A Path)) (s : DiaryWorld A Path) (a : A)
    (path : Path) (hpromised : (DiaryWorld.start A g).Along (diaries path) (Promised path a) es)
    (hrecoverable : (DiaryWorld.start A g).Along (diaries path) (Recoverable path a) es)
    (hrun : (DiaryWorld.start A g).run (diaries path) es = some s) : Recovers path a s := by
  obtain ⟨hconsistent, hsafe⟩ := consistent_of_run hpromised hrecoverable hrun
  refine ⟨hconsistent.recovered, fun fuel fh k hrunning => ?_, completes_of_recoverable hpromised hrecoverable hrun⟩
  have hcurrent := (diaryRight_of_run hrun a).current
  rw [hrunning] at hcurrent
  rw [show s.next a = some (.disk .exit) by simp [System.next, hrunning, Prog.next]] at hconsistent
  exact (hsafe _ _ hrunning s.shared rfl hconsistent).1 rfl fuel fh hcurrent

/-- The client `true` publishes "x". It overwrites this with "y" and crashes when the server has got it. -/
def cutOff : List (WorldEvent Bool Unit) :=
  session true (.open ()) (quiet 7 1) ++ session true (.write () (Bytes.ascii "x") 0 3) (quiet 2 1) ++
    session true (.release 1 () 3) (quiet 8 1) ++ session true (.open ()) (quiet 5 2) ++
      session true (.write () (Bytes.ascii "y") 0 3) (quiet 2 2) ++
        .start true (.release 1 () 3) :: (quiet 6 2).map (.call true) ++ [.crash true]

/-- It opens the path again and releases it. -/
def comesBack : List (WorldEvent Bool Unit) :=
  cutOff ++ session true (.open ()) (quiet 12 3) ++ session true (.release 1 () 3) (quiet 2 3)

theorem recovers_of_recoverable_comesBack : ∃ s, (DiaryWorld.start Bool .empty).run (diaries ()) comesBack = some s ∧
    (s.locals true).2.kept = (.recovered, true, [Bytes.ascii "y"]) ∧ Recovers () true s := by
  have hrun : ∃ s, (DiaryWorld.start Bool .empty).run (diaries ()) comesBack = some s ∧
      (s.locals true).2.kept = (.recovered, true, [Bytes.ascii "y"]) := by decide +kernel
  obtain ⟨s, hs, hkept⟩ := hrun
  exact ⟨s, hs, hkept, recovers_of_recoverable _ _ s true () (by decide +kernel) (by decide +kernel) hs⟩

/-- It opens the path again, but the cache file cannot be created; it crashes after a write that fails, and opens and
releases the path once more. -/
def staysAway : List (WorldEvent Bool Unit) :=
  cutOff ++ session true (.open ()) (quiet 7 3 ++ [({ fault := some Errno.EIO } : Env)] ++ quiet 3 3) ++
    session true (.write () (Bytes.ascii "z") 0 badHandle) (quiet 2 3) ++ .crash true ::
      session true (.open ()) (quiet 5 3) ++ .start true (.release 1 () badHandle) :: (quiet 3 3).map (.call true)

theorem not_recovers_staysAway : ∃ s, (DiaryWorld.start Bool .empty).run (diaries ()) staysAway = some s ∧
    (DiaryWorld.start Bool .empty).Along (diaries ()) (Promised () true) staysAway ∧ ¬ Recovers () true s ∧
      s.next true = some (.disk .exit) ∧ ((s.locals true).1.entry ()).dirty = true := by
  have hrun : ∃ s, (DiaryWorld.start Bool .empty).run (diaries ()) staysAway = some s ∧
      (s.running true).map Prod.fst = some (.release 1 () badHandle) ∧ s.next true = some (.disk .exit) ∧
        ((s.locals true).1.entry ()).dirty = true := by decide +kernel
  obtain ⟨s, hs, hop, hexit, hdirty⟩ := hrun
  refine ⟨s, hs, by decide +kernel, fun hrecovers => ?_, hexit, hdirty⟩
  obtain ⟨⟨op, p⟩, hrunning, hfst⟩ := Option.map_eq_some_iff.mp hop
  obtain rfl : op = .release 1 () badHandle := hfst
  rw [System.next, hrunning] at hexit
  cases p with
  | ret out => cases hexit
  | call c k =>
    cases hexit
    exact hrecovers.remains 1 badHandle k hrunning

end AFSv1.Client
