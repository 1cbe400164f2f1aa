import AFSv1.Server.Steps

/-! The mutex of `Write`: at most one call is between its lock and its unlock, and the mutex is free again after the
call unless the early return was taken. -/
namespace AFSv1.Server
open Foundations Tables

variable (cfg : Config)

/-- The call is between its lock and its unlock. -/
def WriteCall.Holding (c : WriteCall) : Prop :=
  c.pc = .openTemp ∨ c.pc = .append ∨ c.pc = .read ∨ c.pc = .close ∨ c.pc = .unlock

instance (c : WriteCall) : Decidable c.Holding := by unfold WriteCall.Holding; infer_instance

/-- Only a call between its lock and its unlock holds the mutex. -/
def LockOwned (s : State) : Prop := ∀ id, s.lock = some id → ∃ c, s.writes id = some c ∧ c.Holding

instance (s : State) : Decidable (LockOwned s) := by unfold LockOwned; infer_instance

/-- The mutex is owned in every state of the run. -/
def NeverLeaked (s : State) : List Event → Prop
  | [] => LockOwned s
  | e :: es => LockOwned s ∧ ∀ s', step cfg s e = some s' → NeverLeaked s' es

instance NeverLeaked.decidable : ∀ (s : State) (es : List Event), Decidable (NeverLeaked cfg s es)
  | s, [] => inferInstanceAs (Decidable (LockOwned s))
  | s, e :: es =>
    have (s' : State) := NeverLeaked.decidable s' es
    inferInstanceAs (Decidable (LockOwned s ∧ ∀ s', step cfg s e = some s' → NeverLeaked cfg s' es))

/-- If the event opens a temporary file, the file is opened. -/
def OpensTemp (s : State) : Event → Prop
  | .write id env => ∀ c, s.writes id = some c → c.pc = .openTemp →
      (env.syscall (s.fs.openTrunc c.filepath env.now)).isOk
  | _ => True

def OpensTempRun (s : State) : List Event → Prop
  | [] => True
  | e :: es => ∀ s', step cfg s e = some s' → OpensTemp s e ∧ OpensTempRun s' es

/-- A call between its lock and its unlock holds the mutex. -/
def Exclusive (s : State) : Prop := ∀ id c, s.writes id = some c → c.Holding → s.lock = some id

/-- No two calls are between their lock and their unlock. -/
lemma Exclusive.unique {s : State} (h : Exclusive s) {id id' : ℕ} {c c' : WriteCall} (hc : s.writes id = some c)
    (hc' : s.writes id' = some c') (hheld : c.Holding) (hheld' : c'.Holding) : id = id' :=
  Option.some.inj ((h id c hc hheld).symm.trans (h id' c' hc' hheld'))

/-- What a step of a call does to the mutex. -/
lemma WriteStep.lock_cases {id : ℕ} {env : StepEnv} {sh sh' : Shared} {c c' : WriteCall}
    (h : WriteStep cfg id env sh c sh' c') :
    (sh.lock = none ∧ sh'.lock = some id ∧ c'.Holding) ∨ (c.pc = .unlock ∧ sh'.lock = none ∧ ¬ c'.Holding) ∨
      (sh'.lock = sh.lock ∧ c.pc = .openTemp ∧ c'.pc = .returned .NOT_FOUND) ∨
        (sh'.lock = sh.lock ∧ (c'.Holding ↔ c.Holding)) := by
  cases h with
  | lock hpc hfree => exact .inl ⟨hfree, rfl, .inl rfl⟩
  | unlock hpc => exact .inr (.inl ⟨hpc, rfl, by simp [WriteCall.Holding]⟩)
  | openFailed hpc => exact .inr (.inr (.inl ⟨rfl, hpc, rfl⟩))
  | _ => exact .inr (.inr (.inr ⟨rfl, by simp_all [WriteCall.Holding]⟩))

/-- Only the steps of `Write` calls use the mutex. -/
lemma lock_step {s s' : State} {e : Event} (h : step cfg s e = some s') (he : ∀ id env, e ≠ .write id env) :
    s'.lock = s.lock := by
  cases e with
  | write id env => exact absurd rfl (he id env)
  | startWrite id stream =>
    simp only [step] at h
    split_ifs at h
    cases h
    rfl
  | cancel id =>
    simp only [step, Option.map_eq_some_iff] at h
    obtain ⟨c, -, rfl⟩ := h
    rfl
  | startGetContent id filepath =>
    simp only [step] at h
    split_ifs at h
    cases h
    rfl
  | getContent id env =>
    simp only [step, Option.bind_eq_some_iff, Option.map_eq_some_iff] at h
    obtain ⟨c, -, c', -, rfl⟩ := h
    rfl
  | unlink filepath env | rmdir filepath env | mkdir filepath env => cases h; rfl

/-- The step of a `Write` call, with the call before and after. -/
lemma write_step {s s' : State} {id : ℕ} {env : StepEnv} (h : step cfg s (.write id env) = some s') :
    ∃ c sh c', s.writes id = some c ∧ c.step cfg id env s.toShared = some (sh, c') ∧
      s' = { s with toShared := sh, writes := Function.update s.writes id (some c') } := by
  simp only [step, Option.bind_eq_some_iff, Option.map_eq_some_iff] at h
  obtain ⟨c, hc, ⟨sh, c'⟩, hstep, rfl⟩ := h
  exact ⟨c, sh, c', hc, hstep, rfl⟩

/-- What an event that is no step of a call leaves of the calls. -/
lemma holding_of_step {s s' : State} {e : Event} {id : ℕ} {c' : WriteCall} (h : step cfg s e = some s')
    (he : ∀ id env, e ≠ .write id env) (hc' : s'.writes id = some c') (hheld : c'.Holding) :
    ∃ c, s.writes id = some c ∧ c.Holding := by
  obtain ⟨-, stream, -, rfl⟩ | ⟨c, hc, ⟨rfl, -⟩ | ⟨-, rfl⟩ | ⟨env, rfl, -⟩⟩ := writes_step cfg h hc'
  · simp [WriteCall.Holding, WriteCall.start] at hheld
  · exact ⟨c', hc, hheld⟩
  · exact ⟨c, hc, hheld⟩
  · exact absurd rfl (he id env)

/-- The mutex excludes, whatever happens. -/
theorem Exclusive.step {s s' : State} (h : Exclusive s) {e : Event} (hs : step cfg s e = some s') : Exclusive s' := by
  intro id c' hc' hheld
  by_cases he : ∃ id env, e = .write id env
  · obtain ⟨id', env, rfl⟩ := he
    obtain ⟨c, sh, c₁, hc, hstep, rfl⟩ := write_step cfg hs
    have hlock := (writeStep_of_step cfg hstep).lock_cases
    obtain ⟨rfl, rfl⟩ | ⟨hne, hold⟩ := update_eq_some.mp hc'
    · rcases hlock with ⟨-, hlock, -⟩ | ⟨-, -, hnot⟩ | ⟨-, -, hpc⟩ | ⟨hlock, hiff⟩
      · exact hlock
      · exact absurd hheld hnot
      · simp [WriteCall.Holding, hpc] at hheld
      · exact hlock.trans (h id c hc (hiff.mp hheld))
    · have hid := h id c' hold hheld
      rcases hlock with ⟨hfree, -⟩ | ⟨hpc, -⟩ | ⟨hlock, -⟩ | ⟨hlock, -⟩
      · rw [hfree] at hid
        cases hid
      · have hown := h id' c hc (by simp [WriteCall.Holding, hpc])
        exact absurd (Option.some.inj (hid.symm.trans hown)) hne
      · exact hlock.trans hid
      · exact hlock.trans hid
  · have he : ∀ id env, e ≠ .write id env := fun id env heq => he ⟨id, env, heq⟩
    obtain ⟨c, hc, hheld⟩ := holding_of_step cfg hs he hc' hheld
    exact (lock_step cfg hs he).trans (h id c hc hheld)

/-- One event leaves the mutex to a call that still runs exactly if it does not fail to open a temporary file. -/
theorem lockOwned_step_iff {s s' : State} {e : Event} (h : LockOwned s) (hexcl : Exclusive s)
    (hs : step cfg s e = some s') : LockOwned s' ↔ OpensTemp s e := by
  by_cases he : ∃ id env, e = .write id env
  · obtain ⟨id, env, rfl⟩ := he
    obtain ⟨c, sh, c', hc, hstep, rfl⟩ := write_step cfg hs
    by_cases hopens : OpensTemp s (.write id env)
    · refine iff_of_true (fun id' hid' => ?_) hopens
      have hother (hlock : sh.lock = s.lock) (hne : id' ≠ id) :
          ∃ c₁, Function.update s.writes id (some c') id' = some c₁ ∧ c₁.Holding := by
        rw [Function.update_of_ne hne]
        exact h id' (hlock.symm.trans hid')
      have hw := writeStep_of_step cfg hstep
      rcases hw.lock_cases with ⟨-, hlock, hheld⟩ | ⟨-, hlock, -⟩ | ⟨-, hpc, hpc'⟩ | ⟨hlock, hiff⟩
      · obtain rfl : id' = id := Option.some.inj (hid'.symm.trans hlock)
        exact ⟨c', Function.update_self .., hheld⟩
      · cases hid'.symm.trans hlock
      · cases hopen : env.syscall (s.fs.openTrunc c.filepath env.now) with
        | error e =>
          have hok := hopens c hc hpc
          rw [hopen] at hok
          cases hok
        | ok r =>
          simp only [WriteCall.step, hpc, hopen, Option.some.injEq, Prod.mk.injEq] at hstep
          rw [← hstep.2] at hpc'
          cases hpc'
      · by_cases hne : id' = id
        · subst hne
          obtain ⟨c₀, hc₀, hheld⟩ := h id' (hlock.symm.trans hid')
          obtain rfl : c₀ = c := Option.some.inj (hc₀.symm.trans hc)
          exact ⟨c', Function.update_self .., hiff.mpr hheld⟩
        · exact hother hlock hne
    · refine iff_of_false (fun howned => ?_) hopens
      simp only [OpensTemp, not_forall] at hopens
      obtain ⟨c₀, hc₀, hpc, hfail⟩ := hopens
      obtain ⟨err, hopen⟩ : ∃ err, env.syscall (s.fs.openTrunc c₀.filepath env.now) = .error err := by
        cases hopen : env.syscall (s.fs.openTrunc c₀.filepath env.now) with
        | error err => exact ⟨err, rfl⟩
        | ok r => exact absurd (by rw [hopen]; rfl) hfail
      obtain rfl : c₀ = c := Option.some.inj (hc₀.symm.trans hc)
      simp only [WriteCall.step, hpc, hopen, Option.some.injEq, Prod.mk.injEq] at hstep
      obtain ⟨rfl, rfl⟩ := hstep
      obtain ⟨c₁, hc₁, hheld⟩ := howned id (hexcl id c₀ hc (.inl hpc))
      obtain ⟨-, rfl⟩ | ⟨hne, -⟩ := update_eq_some.mp hc₁
      · simp [WriteCall.Holding] at hheld
      · exact absurd rfl hne
  · have he : ∀ id env, e ≠ .write id env := fun id env heq => he ⟨id, env, heq⟩
    have hlock := lock_step cfg hs he
    refine iff_of_true (fun id hid => ?_) (by cases e <;> first | trivial | exact absurd rfl (he _ _))
    obtain ⟨c, hc, hheld⟩ := h id (hlock.symm.trans hid)
    obtain ⟨c', hc'⟩ := writes_persist cfg hs hc
    obtain ⟨hnone, -⟩ | ⟨c₀, hc₀, ⟨rfl, -⟩ | ⟨-, rfl⟩ | ⟨env, rfl, -⟩⟩ := writes_step cfg hs hc'
    · rw [hc] at hnone
      cases hnone
    · exact ⟨c', hc', by rw [hc] at hc₀; rwa [← Option.some.inj hc₀]⟩
    · exact ⟨_, hc', by rw [hc] at hc₀; rw [← Option.some.inj hc₀]; exact hheld⟩
    · exact absurd rfl (he id env)

lemma NeverLeaked.head {s : State} {es : List Event} (h : NeverLeaked cfg s es) : LockOwned s := by
  cases es with
  | nil => exact h
  | cons e es => exact h.1

/-- The mutex is never left to a call that has returned exactly if every temporary file is opened. -/
theorem neverLeaked_iff (fs : InodeFS) (es : List Event) :
    NeverLeaked cfg (.idle fs) es ↔ OpensTempRun cfg (.idle fs) es := by
  have hgeneral (s : State) (howned : LockOwned s) (hexcl : Exclusive s) :
      NeverLeaked cfg s es ↔ OpensTempRun cfg s es := by
    induction es generalizing s with
    | nil => exact iff_of_true howned trivial
    | cons e es ih =>
      rw [NeverLeaked, OpensTempRun, and_iff_right howned]
      refine forall₂_congr fun s' hs => ?_
      have hiff := lockOwned_step_iff cfg howned hexcl hs
      constructor
      · intro h
        have howned' := h.head
        exact ⟨hiff.mp howned', (ih s' howned' (hexcl.step cfg hs)).mp h⟩
      · rintro ⟨hopens, h⟩
        exact (ih s' (hiff.mpr hopens) (hexcl.step cfg hs)).mpr h
  exact hgeneral _ (by simp [LockOwned, State.idle]) (by simp [Exclusive, State.idle])

/-- An upload whose temporary file cannot be opened, and a second upload. -/
def refusedUpload : List Event :=
  .startWrite 0 [⟨Bytes.ascii "/f", Bytes.ascii "x"⟩] :: .write 0 (.quiet 1) :: .write 0 (.quiet 1) ::
    .write 0 { now := [], fault := some .ENOSPC } :: .startWrite 1 [⟨Bytes.ascii "/g", Bytes.ascii "y"⟩] ::
      [.write 1 (.quiet 2)]

/-- The upload has returned with the mutex, and every later upload waits for it. -/
theorem not_neverLeaked_refusedUpload : ¬ NeverLeaked exampleConfig (.idle exampleState.fs) refusedUpload ∧
    ∃ s, run exampleConfig (.idle exampleState.fs) refusedUpload = some s ∧ s.lock = some 0 ∧
      (∃ c, s.writes 0 = some c ∧ c.pc = .returned .NOT_FOUND) ∧
        (∃ c, s.writes 1 = some c ∧ c.pc = .lock) ∧ step exampleConfig s (.write 1 (.quiet 3)) = none := by
  refine ⟨by decide, ?_⟩
  have hrun : ∃ s, run exampleConfig (.idle exampleState.fs) refusedUpload = some s ∧ s.lock = some 0 ∧
      (∃ c, s.writes 0 = some c ∧ c.pc = .returned .NOT_FOUND) ∧
        (∃ c, s.writes 1 = some c ∧ c.pc = .lock) ∧ (step exampleConfig s (.write 1 (.quiet 3))).isNone := by
    decide
  simpa only [Option.isNone_iff_eq_none] using hrun

end AFSv1.Server
