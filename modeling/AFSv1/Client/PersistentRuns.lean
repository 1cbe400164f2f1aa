import AFSv1.Client.Persistence

/-! Runs of clients with the files of their tables: what they show after any crashes is what clients reach whose table
calls are atomic, so the timestamp check is as sound as it is there. -/
namespace AFSv1.Client
open Foundations Tables

variable {Path : Type} [DecidableEq Path]

/-! ### What the operations record -/

section Programs

variable {α : Type}

/-- The program records only times that the server gave, and the marker. -/
abbrev Records (p : Program Path α) : Prop := p.Makes Call.Answers Call.Recordable

lemma records_disk {c : LocalCall Path} {f : c.Answer → Program Path α} (hc : Call.Recordable (.disk c))
    (hf : ∀ r, Records (f r)) : Records (disk c >>= f) :=
  ⟨hc, fun r _ => hf r⟩

lemma records_rpc {c : RemoteCall Path} {f : c.Answer → Program Path α}
    (hf : ∀ env g r g', c.exec env g = some (r, g') → Records (f r)) : Records (rpc c >>= f) := by
  refine ⟨trivial, fun r hr => ?_⟩
  obtain ⟨env, l, g, l', g', hexec⟩ := hr
  obtain ⟨⟨r', g''⟩, hexec', heq⟩ := Option.map_eq_some_iff.mp hexec
  cases heq
  exact hf env g r' g'' hexec'

lemma records_openHandle (path : Path) : Records (openHandle path) := by
  refine records_disk trivial fun r => ?_
  dsimp only
  split_ifs <;> trivial

lemma records_writeChunks (path : Path) (ofile : Option (ℕ × ℕ)) (msgs : List MetaContent) :
    Records (writeChunks path ofile msgs) := by
  induction msgs generalizing ofile with
  | nil => trivial
  | cons msg msgs ih =>
    rcases ofile with - | ⟨i, pos⟩
    · exact ih none
    · exact records_disk trivial fun good => ih _

lemma records_download (path : Path) : Records (download path) := by
  refine records_rpc fun env g r g' hexec => ?_
  obtain ⟨msgs, ok⟩ := r
  have hmem : ∀ msg ∈ msgs, msg ∈ g.getContent path := by
    simp only [RemoteCall.exec] at hexec
    split at hexec
    · cases hexec
      exact fun _ h => h
    · cases hexec
      exact fun _ h => List.mem_of_mem_take h
  cases msgs with
  | nil => trivial
  | cons msg msgs =>
    dsimp only
    by_cases hexists : msg.file_exists = true
    · rw [if_pos hexists]
      refine records_disk trivial fun ofile => (records_writeChunks path _ _).bind fun _ => ?_
      obtain ⟨v, hv, -⟩ := Remote.mem_getContent (hmem msg (by simp)) hexists
      have hlast := hmem (msgs.getLastD msg) (List.getLastD_mem_cons ..)
      simp only [Remote.getContent, hv] at hlast
      obtain ⟨b, -, hb⟩ := List.mem_map.mp hlast
      split_ifs
      · refine records_disk (.inl ?_) fun _ => records_disk trivial fun _ => records_openHandle path
        rw [← hb]
        exact v.mtim.2
      · trivial
    · rw [if_neg hexists]
      refine records_disk (.inr rfl) fun _ => records_disk trivial fun fd => ?_
      exact records_disk trivial fun _ => records_disk trivial fun _ => records_openHandle path

lemma records_afsOpen (path : Path) : Records (afsOpen path) := by
  refine records_disk trivial fun count => ?_
  split_ifs
  · refine records_disk trivial fun state => ?_
    split_ifs
    · exact records_openHandle path
    · refine records_rpc fun _ _ stat_content _ _ => records_disk trivial fun state' => ?_
      split_ifs
      · exact records_openHandle path
      · exact records_disk trivial fun _ => records_disk trivial fun _ => records_download path
  · exact records_download path

lemma records_upload (path : Path) (i fuel pos : ℕ) (chunks : List Bytes) : Records (upload path i fuel pos chunks) := by
  induction fuel generalizing pos chunks with
  | zero => exact ⟨trivial, fun r => r.elim⟩
  | succ fuel ih =>
    refine records_disk trivial fun r => ?_
    cases r with
    | none => trivial
    | some buf =>
      refine records_rpc fun _ _ sent _ _ => ?_
      split_ifs
      · trivial
      · exact ih _ _
      · trivial

/-- The time that comes with an acknowledgement. -/
lemma storable_reply {env : Env} {g g' : Remote Path} {path : Path} {chunks : List Bytes} {broken : Bool} {reply : Meta}
    (h : (RemoteCall.Write path chunks broken).exec env g = some ((.OK, reply), g')) :
    LastModified.Storable reply.timestamp := by
  simp only [RemoteCall.exec] at h
  split_ifs at h <;> cases h <;> exact .inl env.now.2

lemma records_afsRelease (fuel : ℕ) (path : Path) (fh : ℕ) : Records (afsRelease fuel path fh) := by
  refine records_disk trivial fun _ => records_disk trivial fun dirty => ?_
  dsimp only
  split_ifs
  · refine records_disk trivial fun ifile => ?_
    cases ifile with
    | none => exact ⟨trivial, fun r => r.elim⟩
    | some i =>
      refine (records_upload path i fuel 0 []).bind fun x => records_rpc fun env g r g' hexec => ?_
      obtain ⟨status, reply⟩ := r
      cases status with
      | OK => exact records_disk trivial fun _ => records_disk (storable_reply hexec) fun _ => trivial
      | _ => trivial
  · trivial

lemma records_afsMknod (path : Path) : Records (afsMknod path) := by
  refine records_rpc fun _ _ stat_content _ _ => ?_
  split_ifs
  · trivial
  · refine records_disk trivial fun fd => ?_
    rcases fd with e | fd
    · trivial
    · refine records_disk trivial fun closed => ?_
      rcases closed with e | -
      · trivial
      · refine records_rpc fun _ _ sent _ _ => records_rpc fun env g r g' hexec => ?_
        obtain ⟨status, reply⟩ := r
        cases status with
        | OK => exact records_disk (storable_reply hexec) fun _ => trivial
        | _ => trivial

theorem records_program (op : Operation Path) : Records op.program := by
  cases op with
  | «open» path => exact records_afsOpen path
  | release fuel path fh => exact records_afsRelease fuel path fh
  | mknod path => exact records_afsMknod path
  | read _ fh size offset => exact records_disk trivial fun r => by cases r <;> trivial
  | write path buf offset fh => exact records_disk trivial fun _ => records_disk trivial fun r => by cases r <;> trivial
  | fsync _ fh | ftruncate _ offset fh | truncate path newsize => exact records_disk trivial fun _ => trivial
  | unlink path =>
    refine records_disk trivial fun _ => records_disk trivial fun _ => records_disk trivial fun _ => ?_
    exact records_rpc fun _ _ _ _ _ => trivial

/-- Every call of every run. -/
lemma recordable_run {A : Type} [DecidableEq A] {s s' : World A Path} (hs : ∀ a, s.running a = none)
    {es : List (WorldEvent A Path)} (hrun : s.run (machine Path) es = some s') {a : A} {c : Call Path}
    (hc : s'.next a = some c) : c.Recordable := by
  have hown : ∀ op p, s'.running a = some (op, p) → Records p := by
    refine System.run_own (P := fun _ running => ∀ op p, running = some (op, p) → Records p) ?_ ?_ ?_ ?_ ?_ hrun a
    · intro op l l' _ _ op' p hp
      cases hp
      exact records_program op
    · intro env op c k l g r l' g' hk hexec op' p hp
      cases hp
      refine (hk op (.call c k) rfl).2 r ?_
      obtain ⟨x, hx, heq⟩ := Option.map_eq_some_iff.mp hexec
      cases heq
      exact ⟨env, _, g, _, _, hx⟩
    · intro op r l _ op' p hp
      cases hp
    · intro l running _ op' p hp
      cases hp
    · intro b op p hp
      rw [hs b] at hp
      cases hp
  obtain ⟨⟨op, p⟩, hrunning, hp⟩ := Option.bind_eq_some_iff.mp hc
  have hrecords := hown op p hrunning
  cases p with
  | ret r => cases hp
  | call c' k =>
    obtain rfl : c' = c := Option.some.inj hp
    exact hrecords.1

end Programs

/-! ### Runs -/

section Runs

variable {A : Type} [DecidableEq A] (sha256 : Sha256) (name : Path → Bytes)

omit [DecidableEq Path] in
lemma intact_start (counters : ℤ × ℤ) : (Stored.start counters : Stored Path).Intact where
  stands := LastModified.stands_start counters.1
  decodes := LastModified.decodes_start counters.1
  storable := .start _ counters.1
  recorded := IsDirty.recorded_start

omit [DecidableEq Path] [DecidableEq A] in
lemma shown_start (counters : A → ℤ × ℤ) (g : Remote Path) :
    (StoredWorld.start counters g).shown (Stored.view sha256 name) = World.start A g := by
  simp only [System.shown, StoredWorld.start, World.start, System.mk.injEq, true_and, and_true]
  rfl

variable {sha256 name}

/-- What the run with the files shows. -/
lemma stored_run (hinj : Function.Injective fun p => hashpath sha256 (name p)) {counters : A → ℤ × ℤ} {g : Remote Path}
    {es : List (StoredEvent A Path)} {s : StoredWorld A Path} {P : World A Path → WorldEvent A Path → Prop}
    (hcrash : ∀ t a, P t (.crash a)) (htable : ∀ t a env c, t.next a = some c → c.TableCall → P t (.call a env))
    (hes : (StoredWorld.start counters g).EndureAlong (storedMachine sha256 name) (Stored.restart sha256 name)
      (System.Bears (Stored.view sha256 name) StoredEnv.toEnv (Stored.Recoverable sha256 name) P) es)
    (hrun : (StoredWorld.start counters g).endureRun (storedMachine sha256 name) (Stored.restart sha256 name) es = some s) :
    (∀ a, (s.locals a).Intact) ∧ ∃ es', (World.start A g).run (machine Path) es' = some (s.shown (Stored.view sha256 name)) ∧
      (World.start A g).Along (machine Path) P es' := by
  rw [← shown_start sha256 name counters g]
  refine (stored_simulates hinj).run (fun a => intact_start _) ?_ hcrash htable hes hrun
  intro es' t ht a c hc
  exact recordable_run (fun _ => rfl) ht hc

/-- The timestamp check stays sound when the clients lose their memory at any file effect. -/
theorem stored_timestampSound (hinj : Function.Injective fun p => hashpath sha256 (name p)) (counters : A → ℤ × ℤ)
    (g : Remote Path) (es : List (StoredEvent A Path)) (s : StoredWorld A Path)
    (hes : (StoredWorld.start counters g).EndureAlong (storedMachine sha256 name) (Stored.restart sha256 name)
      (System.Bears (Stored.view sha256 name) StoredEnv.toEnv (Stored.Recoverable sha256 name)
        (System.Faithful (fun _ op _ => ¬ op.Truncates) fun env c m => Noticed env m.toLocal c)) es)
    (hrun : (StoredWorld.start counters g).endureRun (storedMachine sha256 name) (Stored.restart sha256 name) es = some s) :
    TimestampSound (s.shown (Stored.view sha256 name)) := by
  have htable : ∀ (t : World A Path) (a : A) (env : Env) (c : Call Path), t.next a = some c → c.TableCall →
      System.Faithful (fun _ op _ => ¬ op.Truncates) (fun env c m => Noticed env m.toLocal c) t (.call a env) := by
    intro t a env c hc htable op c' k hk
    have hnext : t.next a = some c' := by rw [System.next, hk]; rfl
    obtain rfl : c' = c := Option.some.inj (hnext.symm.trans hc)
    exact noticed_of_tableCall htable
  obtain ⟨-, es', hrun', halong⟩ := stored_run hinj (fun _ _ => trivial) htable hes hrun
  have hallowed := halong.mono (Q := System.Allowed (fun _ => checkLogic Path) (fun _ op _ _ => ¬ op.Truncates)
    fun _ _ _ _ => True) fun s e _ he => by
      cases e with
      | start a op => exact he
      | call a env => exact fun op c k hc => ⟨he op c k hc, fun r l g hexec b _ => machine_evolves hexec⟩
      | finish a => trivial
      | crash a => trivial
  have hsound := (check_start g).run check_obligations hallowed hrun'
  intro a path b v hcontent hfiles htime hclean
  exact (((hsound a).1.entry path).agrees v.mtim b htime hcontent hclean v hfiles rfl).symm

end Runs

/-! ### One client and one path -/

section One

/-- The server has an empty file. -/
def oneFile : Remote Unit := Remote.empty.publish () ⟨[], .uniform 1⟩ fun _ h => by cases h

noncomputable def StoredEnv.plain : StoredEnv where
  modified := LastModified.Env.plain.toSnapshotEnv
  dirty := ⟨true, Classical.choice inferInstance⟩

noncomputable def Restart.plain (effects : ℕ) : Restart := ⟨effects, .plain, ⟨⟨true, Classical.choice inferInstance⟩, 0⟩⟩

/-- The file has been downloaded, and its time is about to be recorded. -/
noncomputable def downloading : List (StoredEvent Unit Unit) :=
  .start () (.open ()) :: List.replicate 4 (.call () StoredEnv.plain)

abbrev oneStart : StoredWorld Unit Unit := StoredWorld.start (fun _ => (0, 0)) oneFile

abbrev oneMachine := storedMachine (fun _ _ => 0) fun _ : Unit => []

abbrev oneRestart := Stored.restart (fun _ _ => 0) fun _ : Unit => []

lemma downloading_run : ∃ t, oneStart.endureRun oneMachine oneRestart downloading = some t ∧
    t.next () = some (.disk (.lastModifiedSet () (Timestamp.uniform 1))) ∧ (t.locals ()).history = .start 0 :=
  ⟨_, rfl, rfl, rfl⟩

/-- A crash after both flushes of the record. -/
lemma recoverable_recorded {k : Stored Unit} (hk : k.history = .start 0) :
    Stored.Recoverable (fun _ _ => 0) (fun _ => []) (.plain 2)
      (some (.disk (.lastModifiedSet () (Timestamp.uniform 1)))) k := by
  have hrotates : (1 : ℤ).tmod snapshotFrequency ≠ 0 := by decide
  have hmark : List.replicate timespecSize (1 : UInt8) ≠ eraseMark := by decide
  have hmarker : List.replicate timespecSize (1 : UInt8) ≠ localCreatFile := by decide
  refine ⟨fun c c' hc hc' => ?_, ?_⟩
  · cases hc
    cases hc'
    rw [hk]
    refine ⟨by simp [Restart.plain], ?_, by simp [LastModified.Call.rotates, LastModified.History.start,
      LastModified.Journalled.start, hrotates]⟩
    simp [LastModified.History.crash, LastModified.History.crashed, LastModified.History.start,
      LastModified.Journalled.start, LastModified.Call.changes, LastModified.Call.rotates, LastModified.Call.update,
      LastModified.nextMasked, Restart.plain, Timestamp.uniform, hrotates, hmark]
  · simp only [Stored.historyAfter, LocalCall.modifies, hk]
    constructor
    all_goals simp [LastModified.History.crash, LastModified.History.crashed, LastModified.History.start,
      LastModified.Journalled.start, LastModified.Call.changes, LastModified.Call.rotates, LastModified.Call.update,
      LastModified.nextMasked, LastModified.recordValue, Restart.plain, Timestamp.uniform, hrotates, hmark, hmarker]

lemma injective_one : Function.Injective fun p : Unit => hashpath (fun _ _ => 0) ((fun _ => []) p) :=
  fun _ _ _ => rfl

abbrev OneBears (P : World Unit Unit → WorldEvent Unit Unit → Prop) : StoredWorld Unit Unit → StoredEvent Unit Unit → Prop :=
  System.Bears (Stored.view (fun _ _ => 0) fun _ => []) StoredEnv.toEnv (Stored.Recoverable (fun _ _ => 0) fun _ => []) P

lemma downloading_along {P : World Unit Unit → WorldEvent Unit Unit → Prop} (hstart : ∀ t, P t (.start () (.open ())))
    (hcall : ∀ t, P t (.call () {})) : oneStart.EndureAlong oneMachine oneRestart (OneBears P) downloading := by
  refine ⟨hstart _, fun _ _ => ⟨hcall _, fun _ _ => ⟨hcall _, fun _ _ => ⟨hcall _, fun _ _ => ⟨hcall _, fun _ _ => ?_⟩⟩⟩⟩⟩
  trivial

/-- The client crashes when the record is out. -/
noncomputable def recorded : List (StoredEvent Unit Unit) := downloading ++ [.crash () (.plain 2)]

lemma recorded_along {P : World Unit Unit → WorldEvent Unit Unit → Prop} (hstart : ∀ t, P t (.start () (.open ())))
    (hcall : ∀ t, P t (.call () {})) : oneStart.EndureAlong oneMachine oneRestart (OneBears P) recorded := by
  obtain ⟨t, ht, hnext, hhistory⟩ := downloading_run
  refine (downloading_along hstart hcall).append fun t' ht' => ?_
  obtain rfl : t = t' := Option.some.inj (ht.symm.trans ht')
  have hrecoverable := recoverable_recorded hhistory
  rw [← hnext] at hrecoverable
  exact ⟨hrecoverable, fun _ _ => trivial⟩

lemma recorded_run : ∃ s, oneStart.endureRun oneMachine oneRestart recorded = some s := by
  obtain ⟨t, ht, hnext, hhistory⟩ := downloading_run
  have hrecoverable := recoverable_recorded hhistory
  rw [← hnext] at hrecoverable
  have halong := downloading_along (P := fun _ _ => True) (fun _ => trivial) fun _ => trivial
  have hintact := (stored_run injective_one (fun _ _ => trivial) (fun _ _ _ _ _ _ => trivial) halong ht).1
  have hcalls (a : Unit) (c : Call Unit) (hc : t.next a = some c) : c.Recordable := by
    obtain rfl := Option.some.inj (hnext.symm.trans hc)
    exact .inl (Timestamp.uniform 1).2
  obtain ⟨s, hs⟩ := (stored_simulates injective_one).survives hintact hcalls hrecoverable
  refine ⟨s, ?_⟩
  rw [recorded, System.endureRun_append ht, System.endureRun, hs]
  rfl

/-- The cache file that the crash left is the server's. -/
theorem stored_timestampSound_recorded : ∃ s, oneStart.endureRun oneMachine oneRestart recorded = some s ∧
    TimestampSound (s.shown (Stored.view (fun _ _ => 0) fun _ => [])) := by
  obtain ⟨s, hs⟩ := recorded_run
  refine ⟨s, hs, stored_timestampSound injective_one _ _ _ _ (recorded_along (fun _ h => h) fun t op c k _ => ?_) hs⟩
  exact noticed_of_quiet rfl _ c

end One

end AFSv1.Client
