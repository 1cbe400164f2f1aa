import AFSv1.Client.Alone

/-! What an open does to data that was not uploaded yet: it keeps them exactly if the server answers its
`Stat`. -/
namespace AFSv1.Client
open Foundations Tables

variable {A Path : Type} [DecidableEq A] [DecidableEq Path] {m m' : Mount Path} {g g' : Remote Path} {path : Path}

/-- Part of what was recorded about the cache file is lost. -/
def Entry.Discarded (e : Entry) : Prop := e.last_modified = none ∨ e.is_dirty = some false

/-- A download that begins without a recorded time discards what the path held. -/
lemma alone_writeChunks {ofile : Option (ℕ × ℕ)} {msgs : List MetaContent} (h : (m.entry path).Discarded) :
    (writeChunks path ofile msgs).Safe (aloneLogic Path) (fun _ m' _ => (m'.entry path).Discarded) m g := by
  induction msgs generalizing m ofile with
  | nil => exact alone_ret h
  | cons msg msgs ih =>
    cases ofile with
    | none => exact ih h
    | some f =>
      refine alone_disk fun env r l' hexec => ih ?_
      have htime := LocalCall.exec_last_modified path hexec nofun nofun
      have hdirty := LocalCall.exec_is_dirty path hexec nofun nofun
      exact h.imp htime.trans hdirty.trans

lemma alone_download (h : (m.entry path).last_modified = none) :
    (download path).Safe (aloneLogic Path) (fun _ m' _ => (m'.entry path).Discarded) m g := by
  have hclean {m : Mount Path} {g : Remote Path} : Prog.Safe (aloneLogic Path) (fun _ m' _ => (m'.entry path).Discarded)
      (.call (.disk (.isDirtySet path false)) fun _ => openHandle path) m g := by
    refine alone_disk fun env r l' hexec => ?_
    cases hexec
    refine (alone_openHandle rfl).mono fun out m' g' _ hopen => ?_
    rw [hopen.2.1]
    exact .inr (by simp)
  refine alone_rpc fun env r g' hget => ?_
  obtain ⟨msgs, ok⟩ := r
  cases msgs with
  | nil => exact alone_ret (.inl h)
  | cons msg msgs =>
    dsimp only [Prog.bind]
    by_cases hexists : msg.file_exists = true
    · rw [if_pos hexists]
      refine alone_disk fun env r l' hexec => ?_
      have htime := LocalCall.exec_last_modified path hexec nofun nofun
      change Prog.Safe _ _ (writeChunks path _ (msg :: msgs) >>= _) _ _
      refine Prog.Safe.bind trivial ?_
      refine (alone_writeChunks (.inl (htime.trans h))).mono fun _ m₁ g₁ _ hdiscarded => ?_
      split_ifs
      · exact alone_disk fun _ _ _ _ => hclean
      · exact alone_ret hdiscarded
    · rw [if_neg hexists]
      exact alone_disk fun _ _ _ _ => alone_disk fun _ _ _ _ => alone_disk fun _ _ _ _ => hclean

/-- An open leaves the cache file of the path and what is recorded about it as they were. -/
structure KeepsUnsent (path : Path) (m m' : Mount Path) (out : Outcome) : Prop where
  last_modified : (m'.entry path).last_modified = (m.entry path).last_modified
  is_dirty : (m'.entry path).is_dirty = (m.entry path).is_dirty
  cache : (m'.entry path).cache = (m.entry path).cache
  content : (m'.entry path).content = (m.entry path).content
  failed : out.rc < 0 → m'.toLocal = m.toLocal

/-- Data that were not sent survive an open exactly if its third call, the `Stat`, is answered. -/
theorem open_keepsUnsent_iff (s s' : World A Path) (a : A) (path : Path) (v : Version) (envs : List Env) (out : Outcome)
    (hdirty : ((s.locals a).entry path).dirty = true) (hfiles : s.shared.files path = some v)
    (htime : ((s.locals a).entry path).last_modified = some (v.mtim : Bytes))
    (hrun : s.run (machine Path) (session a (.open path) envs) = some s')
    (hout : (s'.locals a).calls.getLast? = some (.open path, some out)) :
    KeepsUnsent path (s.locals a) (s'.locals a) out ↔ envs[2]?.map Env.outage = some .none := by
  obtain ⟨m, out', m', g', hbegin, heval, hend, -⟩ := World.run_session hrun
  obtain ⟨hm, -⟩ := Mount.begin_other hbegin (by simp)
  rw [← hm] at hdirty htime ⊢
  obtain rfl : out' = out := by simpa [hend, Mount.finish] using hout
  have hentry : (s'.locals a).entry = m'.entry := by simp [hend, Mount.finish]
  obtain ⟨env₁, envs, r₁, l₁, rfl, hcount, heval⟩ := eval_disk heval
  simp only [LocalCall.exec, htime, Option.isSome_some, if_true, Option.some.injEq, Prod.mk.injEq] at hcount
  obtain ⟨rfl, rfl⟩ := hcount
  dsimp only [Prog.bind] at heval
  rw [if_pos rfl] at heval
  obtain ⟨env₂, envs, r₂, l₂, rfl, hget, heval⟩ := eval_disk heval
  simp only [LocalCall.exec, htime, Option.getD_some, Option.some.injEq, Prod.mk.injEq] at hget
  obtain ⟨rfl, rfl⟩ := hget
  dsimp only [Prog.bind] at heval
  rw [if_neg (Remote.localCreatFile_ne v.mtim)] at heval
  obtain ⟨env₃, envs, stat_content, g₃, rfl, hstat, heval⟩ := eval_rpc heval
  simp only [RemoteCall.exec, Option.some.injEq, Prod.mk.injEq] at hstat
  obtain ⟨rfl, rfl⟩ := hstat
  obtain ⟨env₄, envs, r₄, l₄, rfl, hget, heval⟩ := eval_disk heval
  simp only [LocalCall.exec, htime, Option.getD_some, Option.some.injEq, Prod.mk.injEq] at hget
  obtain ⟨rfl, rfl⟩ := hget
  dsimp only [Prog.bind] at heval
  by_cases houtage : env₃.outage = .none
  · rw [if_pos houtage, if_pos (by simp [Remote.stat, hfiles])] at heval
    have hopen := alone_eval (alone_openHandle rfl) heval
    refine iff_of_true ⟨?_, ?_, ?_, ?_, fun hneg => absurd hopen.1 hneg.ne⟩ (by simp [houtage])
    all_goals rw [hentry, hopen.2.1]
  · have hempty : ([] : Bytes) ≠ v.mtim := fun h => absurd (h ▸ v.mtim.2) (by decide)
    rw [if_neg houtage, if_neg hempty] at heval
    refine iff_of_false (fun hkeeps => ?_) (by simpa using houtage)
    obtain ⟨env₅, envs, r₅, l₅, rfl, herase, heval⟩ := eval_disk heval
    cases herase
    obtain ⟨env₆, envs, r₆, l₆, rfl, hunlink, heval⟩ := eval_disk heval
    have hnone := LocalCall.exec_last_modified path hunlink (by simp) (by simp)
    rw [Local.modify_entry_self] at hnone
    rcases alone_eval (alone_download hnone) heval with htime' | hclean'
    · have := hkeeps.last_modified
      rw [hentry, htime', htime] at this
      cases this
    · have := hkeeps.is_dirty
      rw [hentry, hclean'] at this
      simp [Entry.dirty, ← this] at hdirty

/-- A client publishes a file, opens it again, writes to it and crashes. -/
def unsent : List (WorldEvent Unit Unit) :=
  created ++ session () (.open ()) (quiet 5 2) ++ session () (.write () (Bytes.ascii "y") 0 3) (quiet 2 2) ++ [.crash ()]

/-- What the client and the server hold then. -/
lemma unsent_run : ∃ s, (World.start Unit .empty).run (machine Unit) unsent = some s ∧
    ((s.locals ()).entry ()).dirty = true ∧ s.shared.files () = some ⟨Bytes.ascii "x", .uniform 1⟩ ∧
      ((s.locals ()).entry ()).last_modified = some (Timestamp.uniform 1 : Bytes) ∧
        (∃ s', s.run (machine Unit) (session () (.open ()) (quiet 5 3)) = some s' ∧
          (s'.locals ()).calls.getLast? = some (.open (), some { rc := 0, fh := 3 })) := by
  decide +kernel

theorem open_keepsUnsent_iff_unsent :
    ∃ s s' : World Unit Unit, KeepsUnsent () (s.locals ()) (s'.locals ()) { rc := 0, fh := 3 } := by
  obtain ⟨s, -, hdirty, hfiles, htime, s', hrun, hout⟩ := unsent_run
  exact ⟨s, s', (open_keepsUnsent_iff s s' () () _ _ _ hdirty hfiles htime hrun hout).mpr rfl⟩

/-- The answers to an open while the server is down. -/
def outage : List Env := [{}, {}, { outage := .before }, {}, {}, {}, { delivered := some 0 }]

/-- The reopen fails and has removed the only copy of the write. -/
theorem not_keepsUnsent_outage : ∃ s s', (World.start Unit .empty).run (machine Unit) unsent = some s ∧
    ((s.locals ()).entry ()).dirty = true ∧ s.shared.files () = some ⟨Bytes.ascii "x", .uniform 1⟩ ∧
      ((s.locals ()).entry ()).last_modified = some (Timestamp.uniform 1 : Bytes) ∧
        s.run (machine Unit) (session () (.open ()) outage) = some s' ∧
          (s'.locals ()).calls.getLast? = some (.open (), some { rc := -5 }) ∧
            ¬ KeepsUnsent () (s.locals ()) (s'.locals ()) { rc := -5 } := by
  have hend : ∃ s, (World.start Unit .empty).run (machine Unit) unsent = some s ∧
      ((s.locals ()).entry ()).dirty = true ∧ s.shared.files () = some ⟨Bytes.ascii "x", .uniform 1⟩ ∧
        ((s.locals ()).entry ()).last_modified = some (Timestamp.uniform 1 : Bytes) ∧
          ∃ s', s.run (machine Unit) (session () (.open ()) outage) = some s' ∧
            (s'.locals ()).calls.getLast? = some (.open (), some { rc := -5 }) ∧
              ((s'.locals ()).entry ()).content ≠ ((s.locals ()).entry ()).content := by
    decide +kernel
  obtain ⟨s, hs, hdirty, hfiles, htime, s', hs', hout, hlost⟩ := hend
  exact ⟨s, s', hs, hdirty, hfiles, htime, hs', hout, fun hkeeps => hlost hkeeps.content⟩

end AFSv1.Client
