import AFSv1.Server.Lock
import AFSv1.Server.Mixing

/-! Progress of uploads, whose clients are taken to have sent their streams: a call makes a bounded number of steps,
uploads cannot block one another as long as the mutex is owned, and behind a call that has returned with it all wait. -/
namespace AFSv1.Server
open Foundations Tables

variable (cfg : Config)

def WriteCall.Done (c : WriteCall) : Prop := ∃ status, c.pc = .returned status

/-- The call has not got to the mutex yet. -/
def WriteCall.Waiting (c : WriteCall) : Prop := c.pc = .readFirst ∨ c.pc = .lock

/-- The steps that the call has before it at most. -/
def WriteCall.remaining (c : WriteCall) : ℕ :=
  match c.pc with
  | .readFirst => 2 * c.incoming.length + 10
  | .lock => 2 * c.incoming.length + 9
  | .openTemp => 2 * c.incoming.length + 8
  | .append => 2 * c.incoming.length + 7
  | .read => 2 * c.incoming.length + 6
  | .close => 5
  | .unlock => 4
  | .checkCancelled => 3
  | .stat => 2
  | .rename => 1
  | .returned _ => 0

def Event.isStepOf (id : ℕ) : Event → Bool
  | .write id' _ => id' = id
  | .startWrite _ _ | .cancel _ | .startGetContent _ _ | .getContent _ _ | .unlink _ _ | .rmdir _ _ | .mkdir _ _ => false

/-- A call that has returned holds the mutex. -/
def Leaked (s : State) : Prop :=
  ∃ holder h, s.lock = some holder ∧ s.writes holder = some h ∧ h.pc = .returned .NOT_FOUND

/-- The mutex is held by a call that is between its lock and its unlock or has failed to open its file. -/
def HolderKept (s : State) : Prop :=
  ∀ id, s.lock = some id → ∃ c, s.writes id = some c ∧ (c.Holding ∨ c.pc = .returned .NOT_FOUND)

/-- No upload can make a step. -/
def Stuck (s : State) : Prop := ∀ id env, step cfg s (.write id env) = none

variable {cfg} {s s' : State} {id : ℕ} {c c' : WriteCall} {e : Event}

/-! ### The steps of one call -/

lemma WriteStep.remaining_lt {env : StepEnv} {sh sh' : Shared} (h : WriteStep cfg id env sh c sh' c') :
    c'.remaining < c.remaining := by
  cases h with
  | readFirst hpc msg incoming hnext | read hpc msg incoming hnext =>
    have hincoming := (nextMsg_eq_some hnext).2
    simp only [WriteCall.remaining, hpc, hincoming, List.length_cons]
    omega
  | renamed hpc | renameFailed hpc | stat hpc | proceed hpc | refuse hpc | unlock hpc | close hpc | readEnd hpc
  | append hpc | appendNone hpc | openTemp hpc | openFailed hpc | lock hpc | readNone hpc =>
    simp only [WriteCall.remaining, hpc]
    omega

/-- What a step of the server takes from the steps that the call has before it. -/
lemma remaining_step (hs : step cfg s e = some s') (hc : s.writes id = some c) :
    ∃ c', s'.writes id = some c' ∧ (if e.isStepOf id then 1 else 0) + c'.remaining ≤ c.remaining := by
  obtain ⟨c', hc'⟩ := writes_persist cfg hs hc
  refine ⟨c', hc', ?_⟩
  rcases writes_step cfg hs hc' with ⟨hnone, -⟩ | ⟨c₁, hc₁, hcall⟩
  · rw [hc] at hnone
    cases hnone
  · obtain rfl : c = c₁ := Option.some.inj (hc.symm.trans hc₁)
    rcases hcall with ⟨rfl, hother⟩ | ⟨rfl, rfl⟩ | ⟨env, rfl, hstep⟩
    · have hnot : e.isStepOf id = false := by
        cases e with
        | write id' env =>
          simp only [Event.isStepOf, decide_eq_false_iff_not]
          rintro rfl
          exact hother env rfl
        | _ => rfl
      simp [hnot]
    · simp [Event.isStepOf, WriteCall.remaining]
    · have hlt := (writeStep_of_step cfg hstep).remaining_lt
      simp only [Event.isStepOf, decide_true, if_true]
      omega

/-- A call makes no more steps than it has before it. -/
theorem steps_le {es : List Event} (hrun : run cfg s es = some s') (hc : s.writes id = some c) :
    es.countP (Event.isStepOf id) ≤ c.remaining := by
  induction es generalizing s c with
  | nil => simp
  | cons e es ih =>
    obtain ⟨s₁, hs₁, hrest⟩ := Option.bind_eq_some_iff.mp hrun
    obtain ⟨c₁, hc₁, hle⟩ := remaining_step hs₁ hc
    have hlater := ih hrest hc₁
    rw [List.countP_cons]
    omega

/-- Only the mutex holds a call up. -/
lemma WriteCall.blocked {env : StepEnv} {sh : Shared} (h : c.step cfg id env sh = none) :
    c.Done ∨ c.pc = .lock ∧ sh.lock ≠ none := by
  unfold WriteCall.step at h
  split at h
  case h_1 => cases h
  case h_2 hpc =>
    split_ifs at h with hfree
    exact .inr ⟨hpc, hfree⟩
  case h_3 => split at h <;> cases h
  case h_4 => split at h <;> cases h
  case h_5 => split at h <;> cases h
  case h_6 => cases h
  case h_7 => cases h
  case h_8 => cases h
  case h_9 => cases h
  case h_10 =>
    dsimp only at h
    split at h <;> cases h
  case h_11 status hpc => exact .inl ⟨status, hpc⟩

/-! ### The holder of the mutex -/

lemma HolderKept.step (h : HolderKept s) (hs : step cfg s e = some s') : HolderKept s' := by
  intro id hid
  by_cases he : ∃ id env, e = .write id env
  · obtain ⟨id', env, rfl⟩ := he
    obtain ⟨c, sh, c', hc, hstep, rfl⟩ := write_step cfg hs
    have hw := writeStep_of_step cfg hstep
    by_cases hne : id = id'
    · subst hne
      refine ⟨c', Function.update_self .., ?_⟩
      rcases hw.lock_cases with ⟨-, -, hheld⟩ | ⟨-, hlock, -⟩ | ⟨-, -, hpc'⟩ | ⟨hlock, hiff⟩
      · exact .inl hheld
      · cases hid.symm.trans hlock
      · exact .inr hpc'
      · obtain ⟨c₀, hc₀, hcase⟩ := h id (hlock.symm.trans hid)
        obtain rfl : c₀ = c := Option.some.inj (hc₀.symm.trans hc)
        rcases hcase with hheld | hpc
        · exact .inl (hiff.mpr hheld)
        · have hlt := hw.remaining_lt
          simp [WriteCall.remaining, hpc] at hlt
    · have hold : s.lock = some id := by
        rcases hw.lock_cases with ⟨-, hlock, -⟩ | ⟨-, hlock, -⟩ | ⟨hlock, -⟩ | ⟨hlock, -⟩
        · exact absurd (Option.some.inj (hid.symm.trans hlock)) hne
        · cases hid.symm.trans hlock
        · exact hlock.symm.trans hid
        · exact hlock.symm.trans hid
      obtain ⟨c₀, hc₀, hcase⟩ := h id hold
      exact ⟨c₀, by rw [← hc₀]; exact Function.update_of_ne hne .., hcase⟩
  · have he : ∀ id env, e ≠ .write id env := fun id env heq => he ⟨id, env, heq⟩
    obtain ⟨c, hc, hcase⟩ := h id ((lock_step cfg hs he).symm.trans hid)
    obtain ⟨c', hc'⟩ := writes_persist cfg hs hc
    rcases writes_step cfg hs hc' with ⟨hnone, -⟩ | ⟨c₀, hc₀, hcall⟩
    · rw [hc] at hnone
      cases hnone
    · obtain rfl : c = c₀ := Option.some.inj (hc.symm.trans hc₀)
      rcases hcall with ⟨rfl, -⟩ | ⟨-, rfl⟩ | ⟨env, rfl, -⟩
      · exact ⟨c', hc', hcase⟩
      · exact ⟨_, hc', hcase⟩
      · exact absurd rfl (he id env)

/-- Who can hold the mutex, at every moment of a run. -/
theorem holder_run {es : List Event} (hexcl : Exclusive s) (hkept : HolderKept s) (hrun : run cfg s es = some s') :
    Exclusive s' ∧ HolderKept s' := by
  induction es generalizing s with
  | nil =>
    cases hrun
    exact ⟨hexcl, hkept⟩
  | cons e es ih =>
    obtain ⟨s₁, hs₁, hrest⟩ := Option.bind_eq_some_iff.mp hrun
    exact ih (hexcl.step cfg hs₁) (hkept.step hs₁) hrest

lemma holder_idle {fs : InodeFS} : Exclusive (.idle fs) ∧ HolderKept (.idle fs) := by
  constructor
  · intro id c hc
    cases hc
  · intro id hid
    cases hid

/-- Uploads that cannot go on have returned, or wait for a mutex that is never unlocked. -/
lemma Stuck.done_or_leaked (h : Stuck cfg s) (hkept : HolderKept s) :
    (∀ id c, s.writes id = some c → c.Done) ∨ Leaked s := by
  have hblocked (id : ℕ) (c : WriteCall) (hc : s.writes id = some c) : c.Done ∨ c.pc = .lock ∧ s.lock ≠ none := by
    have hnone := h id { now := [] }
    rw [Server.step, hc, Option.bind_some, Option.map_eq_none_iff] at hnone
    exact WriteCall.blocked hnone
  cases hlock : s.lock with
  | none =>
    refine .inl fun id c hc => (hblocked id c hc).resolve_right ?_
    rintro ⟨-, hheld⟩
    exact hheld hlock
  | some holder =>
    obtain ⟨c, hc, hheld | hpc⟩ := hkept holder hlock
    · rcases hblocked holder c hc with ⟨status, hdone⟩ | ⟨hpc, -⟩
      · simp [WriteCall.Holding, hdone] at hheld
      · simp [WriteCall.Holding, hpc] at hheld
    · exact .inr ⟨holder, c, hlock, hc, hpc⟩

/-- A mutex that a returned call holds keeps every waiting upload waiting. -/
lemma Leaked.step (h : Leaked s) (hexcl : Exclusive s) (hs : step cfg s e = some s') :
    Leaked s' ∧ ∀ id c, s.writes id = some c → c.Waiting → ∃ c', s'.writes id = some c' ∧ c'.Waiting := by
  obtain ⟨holder, hcall, hlock, hholder, hpc⟩ := h
  have hlock' : s'.lock = some holder := by
    by_cases he : ∃ id env, e = .write id env
    · obtain ⟨id, env, rfl⟩ := he
      obtain ⟨c, sh, c', hc, hstep, rfl⟩ := write_step cfg hs
      rcases (writeStep_of_step cfg hstep).lock_cases with ⟨hfree, -⟩ | ⟨hunlock, -⟩ | ⟨hsame, -⟩ | ⟨hsame, -⟩
      · cases hlock.symm.trans hfree
      · have hown := hexcl id c hc (by simp [WriteCall.Holding, hunlock])
        obtain rfl : holder = id := Option.some.inj (hlock.symm.trans hown)
        obtain rfl : hcall = c := Option.some.inj (hholder.symm.trans hc)
        cases hpc.symm.trans hunlock
      · exact hsame.trans hlock
      · exact hsame.trans hlock
    · exact (lock_step cfg hs fun id env heq => he ⟨id, env, heq⟩).trans hlock
  have hcalls (id : ℕ) (c : WriteCall) (hc : s.writes id = some c) (hstays : c.Waiting ∨ c.pc = .returned .NOT_FOUND) :
      ∃ c', s'.writes id = some c' ∧ (c'.pc = c.pc ∨ c.Waiting ∧ c'.Waiting) := by
    obtain ⟨c', hc'⟩ := writes_persist cfg hs hc
    refine ⟨c', hc', ?_⟩
    rcases writes_step cfg hs hc' with ⟨hnone, -⟩ | ⟨c₀, hc₀, hcase⟩
    · rw [hc] at hnone
      cases hnone
    · obtain rfl : c = c₀ := Option.some.inj (hc.symm.trans hc₀)
      rcases hcase with ⟨rfl, -⟩ | ⟨-, rfl⟩ | ⟨env, -, hstep⟩
      · exact .inl rfl
      · exact .inl rfl
      · generalize s'.toShared = sh at hstep
        cases writeStep_of_step cfg hstep with
        | readFirst hread | readNone hread => exact .inr ⟨.inl hread, .inr rfl⟩
        | lock _ hfree => cases hlock.symm.trans hfree
        | _ => simp_all [WriteCall.Waiting]
  refine ⟨?_, fun id c hc hwaiting => ?_⟩
  · obtain ⟨c', hc', hsame | ⟨hwaiting, -⟩⟩ := hcalls holder hcall hholder (.inr hpc)
    · exact ⟨holder, c', hlock', hc', hsame.trans hpc⟩
    · simp [WriteCall.Waiting, hpc] at hwaiting
  · obtain ⟨c', hc', hsame | ⟨-, hwaiting'⟩⟩ := hcalls id c hc (.inl hwaiting)
    · refine ⟨c', hc', ?_⟩
      rw [WriteCall.Waiting, hsame]
      exact hwaiting
    · exact ⟨c', hc', hwaiting'⟩

/-- However the server goes on. -/
lemma Leaked.run {es : List Event} (h : Leaked s) (hexcl : Exclusive s) (hrun : run cfg s es = some s') :
    Leaked s' ∧ ∀ id c, s.writes id = some c → c.Waiting → ∃ c', s'.writes id = some c' ∧ c'.Waiting := by
  induction es generalizing s with
  | nil =>
    cases hrun
    exact ⟨h, fun id c hc hwaiting => ⟨c, hc, hwaiting⟩⟩
  | cons e es ih =>
    obtain ⟨s₁, hs₁, hrest⟩ := Option.bind_eq_some_iff.mp hrun
    obtain ⟨h₁, hwait₁⟩ := h.step hexcl hs₁
    obtain ⟨h', hwait'⟩ := ih h₁ (hexcl.step cfg hs₁) hrest
    refine ⟨h', fun id c hc hwaiting => ?_⟩
    obtain ⟨c₁, hc₁, hwaiting₁⟩ := hwait₁ id c hc hwaiting
    exact hwait' id c₁ hc₁ hwaiting₁

/-- From every reachable state, however the server goes on: no upload makes more steps than its stream allows, when
none can make a step they have all returned or the mutex is leaked, and once it is leaked every upload that has not got
it waits for ever. -/
theorem uploads_progress (fs : InodeFS) (es es' : List Event) (s s' : State) (hrun : run cfg (.idle fs) es = some s)
    (hrun' : run cfg s es' = some s') :
    (∀ id c, s.writes id = some c → es'.countP (Event.isStepOf id) ≤ c.remaining) ∧
      (Stuck cfg s' → (∀ id c, s'.writes id = some c → c.Done) ∨ Leaked s') ∧
        (Leaked s → Leaked s' ∧
          ∀ id c, s.writes id = some c → c.Waiting → ∃ c', s'.writes id = some c' ∧ c'.Waiting) := by
  have ⟨hexcl, hkept⟩ := holder_run holder_idle.1 holder_idle.2 hrun
  have ⟨_, hkept'⟩ := holder_run hexcl hkept hrun'
  refine ⟨fun id c hc => steps_le hrun' hc, fun hstuck => ?_, fun hleaked => ?_⟩
  · exact hstuck.done_or_leaked hkept'
  · exact hleaked.run hexcl hrun'

/-- The second upload waits behind the first, which has returned, also once it is cancelled. -/
theorem uploads_progress_refused : ∃ s s', run exampleConfig (.idle exampleState.fs) refusedUpload = some s ∧
    run exampleConfig s [.cancel 1] = some s' ∧ Leaked s' ∧ ∃ c, s'.writes 1 = some c ∧ c.Waiting := by
  have hrun : ∃ s, run exampleConfig (.idle exampleState.fs) refusedUpload = some s ∧
      (run exampleConfig s [.cancel 1]).isSome ∧ (s.lock = some 0 ∧ ∃ c, s.writes 0 = some c ∧
        c.pc = .returned .NOT_FOUND) ∧ ∃ c, s.writes 1 = some c ∧ c.pc = .lock := by
    decide
  obtain ⟨s, hs, hlater, ⟨hlock, c, hc, hpc⟩, c₁, hc₁, hpc₁⟩ := hrun
  obtain ⟨s', hs'⟩ := Option.isSome_iff_exists.mp hlater
  obtain ⟨-, -, hleaked⟩ := uploads_progress _ _ _ s s' hs hs'
  obtain ⟨hleaked', hwaits⟩ := hleaked ⟨0, c, hlock, hc, hpc⟩
  exact ⟨s, s', hs, hs', hleaked', hwaits 1 c₁ hc₁ (.inr hpc₁)⟩

end AFSv1.Server
