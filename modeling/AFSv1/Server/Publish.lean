import AFSv1.Server.Steps

/-! Acknowledged uploads: when the file a `Write` call announces with `Status::OK` is in place under
the timestamp of the reply. -/
namespace AFSv1.Server
open Foundations Tables

variable (cfg : Config)

/-- The event makes the call `id` return OK. -/
def ReturnsOK (id : ℕ) (s s' : State) : Prop :=
  (∀ c, s.writes id = some c → c.pc ≠ .returned .OK) ∧ ∃ c, s'.writes id = some c ∧ c.pc = .returned .OK

/-- The event made the temporary file of the call the file at its path, with the chunks of the
call as content and the timestamp of the reply. -/
def Published (id : ℕ) (s s' : State) : Prop :=
  ∃ c i, s'.writes id = some c ∧ s.fs.node (getServerFilepath cfg c.msg.filepath true) = .ok (.file i) ∧
    s'.fs.node (getServerFilepath cfg c.msg.filepath false) = .ok (.file i) ∧
    s'.fs.file i = ⟨c.content, c.timestamp⟩

/-- Whenever the call `id` returns OK, it has published its file. -/
def AcknowledgesPublished (id : ℕ) (s : State) : List Event → Prop
  | [] => True
  | e :: es => ∀ s', step cfg s e = some s' →
      (ReturnsOK id s s' → Published cfg id s s') ∧ AcknowledgesPublished id s' es

/-- Before the rename the temporary name denotes a file with the call's own chunks and the
modification time `mtim`, and the rename can put it at the path of the call. -/
def Installs (fs : InodeFS) (c : WriteCall) (env : StepEnv) (mtim : Bytes) : Prop :=
  ∃ i, fs.node (getServerFilepath cfg c.msg.filepath true) = .ok (.file i) ∧ fs.file i = ⟨c.content, mtim⟩ ∧
    (fs.node (getServerFilepath cfg c.msg.filepath false) = .ok (.file i) ∨
      (env.fault = none ∧ ∃ b, fs.resolve (getServerFilepath cfg c.msg.filepath false) = .ok (.entry b) ∧
        ∀ d, fs.entries.lookup b ≠ some (.dir d)))

/-- What the `stat` of the call `id` finds, if the event is that step. -/
def statResult (id : ℕ) (s : State) (mtim : Bytes) : Event → Bytes
  | .write id' env => match s.writes id with
    | some c => if id' = id ∧ c.pc = .stat then statMtim s.fs c.filepath env else mtim
    | none => mtim
  | _ => mtim

/-- At its rename the call `id` installs its own file, unmodified since its `stat` found `mtim`. -/
def InstallsAtRename (id : ℕ) (mtim : Bytes) (s : State) : List Event → Prop
  | [] => True
  | e :: es => (∀ c env, s.writes id = some c → c.pc = .rename → e = .write id env → Installs cfg s.fs c env mtim) ∧
      ∀ s', step cfg s e = some s' → InstallsAtRename id (statResult id s mtim e) s' es

/-- The bytes in the reply of the call `id` so far. -/
def replyTimestamp (id : ℕ) (s : State) : Bytes :=
  match s.writes id with
  | some c => c.timestamp
  | none => []

/-- The tree after the rename of a call, whose result is ignored. -/
def afterRename (fs : InodeFS) (c : WriteCall) (env : StepEnv) : InodeFS :=
  match env.syscall (fs.rename (getServerFilepath cfg c.msg.filepath true) (getServerFilepath cfg c.msg.filepath false)) with
  | .ok fs' => fs'
  | .error _ => fs

theorem installs_iff (fs : InodeFS) (c : WriteCall) (env : StepEnv) (mtim : Bytes) :
    Installs cfg fs c env mtim ↔ ∃ i, fs.node (getServerFilepath cfg c.msg.filepath true) = .ok (.file i) ∧
      (afterRename cfg fs c env).node (getServerFilepath cfg c.msg.filepath false) = .ok (.file i) ∧
      (afterRename cfg fs c env).file i = ⟨c.content, mtim⟩ := by
  unfold Installs afterRename
  refine exists_congr fun i => and_congr_right fun hi => ?_
  obtain ⟨a, hr, ha⟩ := InodeFS.resolve_of_node_file hi
  split
  · rename_i fs' hok
    obtain ⟨hfault, hren⟩ := StepEnv.syscall_eq_ok.mp hok
    obtain ⟨hnode, hfile⟩ := InodeFS.node_rename hi hren
    obtain ⟨b, hb, hdir, -⟩ := (InodeFS.rename_file_eq_ok hr ha).mp hren
    simp only [hnode, hfile, true_and]
    exact ⟨fun h => h.1, fun h => ⟨h, .inr ⟨hfault, b, hb, hdir⟩⟩⟩
  · rename_i err herr
    constructor
    · rintro ⟨hdata, hnode | ⟨hfault, b, hb, hdir⟩⟩
      · exact ⟨hnode, hdata⟩
      · have hren := (InodeFS.rename_file_eq_ok hr ha).mpr ⟨b, hb, hdir, rfl⟩
        rw [StepEnv.syscall_eq_ok.mpr ⟨hfault, hren⟩] at herr
        cases herr
    · exact fun ⟨hnode, hdata⟩ => ⟨hdata, .inl hnode⟩

/-- The rename step: the tree changes if the rename succeeds, and the call returns OK either way. -/
lemma rename_step {s : State} {id : ℕ} {c : WriteCall} (env : StepEnv) (hc : s.writes id = some c)
    (hpc : c.pc = .rename) :
    ∃ s', step cfg s (.write id env) = some s' ∧ s'.fs = afterRename cfg s.fs c env ∧
      s'.writes id = some { c with pc := .returned .OK } := by
  have hstep : c.step cfg id env s.toShared =
      some ({ s.toShared with fs := afterRename cfg s.fs c env }, { c with pc := .returned .OK }) := by
    unfold WriteCall.step afterRename
    rw [hpc]
    dsimp only
    split
    · rename_i h
      simp only [h]
    · rename_i h
      simp only [h]
  simp only [step, hc, Option.bind_some, hstep, Option.map_some]
  exact ⟨_, rfl, rfl, Function.update_self ..⟩

lemma returnsOK_of_rename {s s' : State} {id : ℕ} {c : WriteCall} (hc : s.writes id = some c) (hpc : c.pc = .rename)
    (hc' : s'.writes id = some { c with pc := .returned .OK }) : ReturnsOK id s s' := by
  refine ⟨fun c₁ hc₁ => ?_, _, hc', rfl⟩
  obtain rfl : c = c₁ := by rw [hc] at hc₁; simpa using hc₁
  simp [hpc]

/-- A call returns OK by its rename only. -/
theorem rename_of_returnsOK {s s' : State} {e : Event} {id : ℕ} (h : step cfg s e = some s')
    (hok : ReturnsOK id s s') : ∃ c env, s.writes id = some c ∧ c.pc = .rename ∧ e = .write id env := by
  obtain ⟨hbefore, c', hc', hpc'⟩ := hok
  obtain ⟨-, stream, -, rfl⟩ | ⟨c, hc, ⟨rfl, -⟩ | ⟨-, rfl⟩ | ⟨env, rfl, hstep⟩⟩ := writes_step cfg h hc'
  · cases hpc'
  · exact absurd hpc' (hbefore c' hc)
  · exact absurd hpc' (hbefore c hc)
  · generalize s'.toShared = sh at hstep
    cases writeStep_of_step cfg hstep with
    | renamed hpc => exact ⟨c, env, hc, hpc, rfl⟩
    | renameFailed hpc => exact ⟨c, env, hc, hpc, rfl⟩
    | _ => cases hpc'

/-- The timestamp of the reply is what the call's `stat` found. -/
lemma replyTimestamp_step {s s' : State} {e : Event} (id : ℕ) (h : step cfg s e = some s') :
    replyTimestamp id s' = statResult id s (replyTimestamp id s) e := by
  unfold replyTimestamp
  cases hc' : s'.writes id with
  | none =>
    cases hc : s.writes id with
    | none => cases e <;> simp [statResult, hc]
    | some c =>
      obtain ⟨c₁, hc₁⟩ := writes_persist cfg h hc
      rw [hc'] at hc₁
      cases hc₁
  | some c' =>
    obtain ⟨hc, stream, rfl, rfl⟩ | ⟨c, hc, ⟨rfl, hne⟩ | ⟨rfl, rfl⟩ | ⟨env, rfl, hstep⟩⟩ := writes_step cfg h hc'
    · rw [hc]
      rfl
    · rw [hc]
      cases e <;> simp_all [statResult]
    · rw [hc]
      rfl
    · rw [hc]
      generalize s'.toShared = sh at hstep
      cases writeStep_of_step cfg hstep with
      | stat hpc => simp [statResult, hc, hpc]
      | _ => simp_all [statResult]

/-- One step: the call publishes whenever it returns OK iff it installs its file at its rename. -/
theorem published_step_iff {s : State} (e : Event) (id : ℕ) :
    (∀ s', step cfg s e = some s' → ReturnsOK id s s' → Published cfg id s s') ↔
      ∀ c env, s.writes id = some c → c.pc = .rename → e = .write id env →
        Installs cfg s.fs c env (replyTimestamp id s) := by
  constructor
  · rintro h c env hc hpc rfl
    obtain ⟨s', hs', hfs, hc'⟩ := rename_step cfg env hc hpc
    obtain ⟨c₁, i, hc₁, hi, htarget, hdata⟩ := h s' hs' (returnsOK_of_rename hc hpc hc')
    rw [hc', Option.some.injEq] at hc₁
    subst hc₁
    rw [hfs] at htarget hdata
    refine (installs_iff cfg _ _ _ _).mpr ⟨i, hi, htarget, ?_⟩
    rw [hdata, replyTimestamp, hc]
    rfl
  · intro h s' hs' hok
    obtain ⟨c, env, hc, hpc, rfl⟩ := rename_of_returnsOK cfg hs' hok
    obtain ⟨s₁, hs₁, hfs, hc'⟩ := rename_step cfg env hc hpc
    obtain rfl : s₁ = s' := by rw [hs'] at hs₁; simpa using hs₁.symm
    obtain ⟨i, hi, htarget, hdata⟩ := (installs_iff cfg _ _ _ _).mp (h c env hc hpc rfl)
    refine ⟨_, i, hc', hi, by rw [hfs]; exact htarget, ?_⟩
    rw [hfs, hdata, replyTimestamp, hc]
    rfl

/-- An acknowledged upload was published under the timestamp of the reply, in every run from every
state, exactly if the call's rename installs the call's own file as its `stat` saw it. -/
theorem acknowledgesPublished_iff (id : ℕ) (s : State) (es : List Event) :
    AcknowledgesPublished cfg id s es ↔ InstallsAtRename cfg id (replyTimestamp id s) s es := by
  induction es generalizing s with
  | nil => simp [AcknowledgesPublished, InstallsAtRename]
  | cons e es ih =>
    rw [AcknowledgesPublished, InstallsAtRename, ← published_step_iff, ← forall₂_and]
    refine forall₂_congr fun s' hs' => and_congr_right' ?_
    rw [ih, replyTimestamp_step cfg id hs']

lemma AcknowledgesPublished.last {id : ℕ} {s s₁ s₂ : State} {es : List Event} {e : Event}
    (h : AcknowledgesPublished cfg id s (es ++ [e])) (hrun : run cfg s es = some s₁) (hstep : step cfg s₁ e = some s₂)
    (hok : ReturnsOK id s₁ s₂) : Published cfg id s₁ s₂ := by
  induction es generalizing s with
  | nil =>
    cases hrun
    exact (h s₂ hstep).1 hok
  | cons e' es ih =>
    obtain ⟨s', hs', hrun⟩ := Option.bind_eq_some_iff.mp hrun
    exact ih (h s' hs').2 hrun

/-- An upload to `/d/f` although there is no directory `/d`: all steps before the rename. -/
def orphanUpload : List Event :=
  .startWrite 0 [⟨Bytes.ascii "/d/f", Bytes.ascii "x"⟩] :: List.replicate 9 (.write 0 (.quiet 7))

/-- The upload to a missing directory is acknowledged: the failure of `rename` is ignored. -/
theorem not_acknowledgesPublished_noParent :
    ∃ s, boot exampleConfig .empty = some s ∧
      ¬ AcknowledgesPublished exampleConfig 0 s (orphanUpload ++ [.write 0 (.quiet 7)]) := by
  have hrun : ((boot exampleConfig .empty).bind fun s => (run exampleConfig s orphanUpload).bind fun s₁ =>
      (s₁.writes 0).map fun c => (c.pc, (afterRename exampleConfig s₁.fs c (.quiet 7)).node
        (getServerFilepath exampleConfig c.msg.filepath false))) = some (.rename, .error .ENOENT) := by
    decide
  obtain ⟨s, hs, hrun⟩ := Option.bind_eq_some_iff.mp hrun
  obtain ⟨s₁, hs₁, hrun⟩ := Option.bind_eq_some_iff.mp hrun
  obtain ⟨c, hc, hobserved⟩ := Option.map_eq_some_iff.mp hrun
  obtain ⟨hpc, hnode⟩ := Prod.mk.inj hobserved
  obtain ⟨s₂, hs₂, hfs, hc'⟩ := rename_step exampleConfig (.quiet 7) hc hpc
  refine ⟨s, hs, fun h => ?_⟩
  obtain ⟨c₁, i, hc₁, -, htarget, -⟩ := h.last exampleConfig hs₁ hs₂ (returnsOK_of_rename hc hpc hc')
  rw [hc', Option.some.injEq] at hc₁
  subst hc₁
  rw [hfs, hnode] at htarget
  cases htarget

end AFSv1.Server
