import AFSv1.Foundations.InodeNames
import AFSv1.Server.Handlers

/-! Inversion of the server's steps: what a step of a `Write` call does in each of its states, and
what an event does to one call. -/
namespace AFSv1.Server
open Foundations Tables

variable (cfg : Config)

lemma StepEnv.syscall_eq_ok {α : Type} {env : StepEnv} {result : Except Errno α} {a : α} :
    env.syscall result = .ok a ↔ env.fault = none ∧ result = .ok a := by
  unfold StepEnv.syscall
  cases env.fault <;> simp

lemma update_eq_some {α : Type} {f : ℕ → Option α} {i j : ℕ} {x y : α} :
    Function.update f i (some x) j = some y ↔ (j = i ∧ y = x) ∨ (j ≠ i ∧ f j = some y) := by
  by_cases h : j = i
  · subst h
    simp [eq_comm]
  · simp [h]

/-- The steps of `WriteCall.step`, one constructor for each branch. -/
inductive WriteStep (id : ℕ) (env : StepEnv) (sh : Shared) (c : WriteCall) : Shared → WriteCall → Prop where
  | readFirst (hpc : c.pc = .readFirst) (msg : FilepathContent) (incoming : List FilepathContent)
      (hnext : c.nextMsg env = some (msg, incoming)) :
      WriteStep id env sh c sh
        { c with msg, incoming, filepath := getServerFilepath cfg msg.filepath true, pc := .lock }
  | readNone (hpc : c.pc = .readFirst) (hnext : c.nextMsg env = none) :
      WriteStep id env sh c sh
        { c with filepath := getServerFilepath cfg c.msg.filepath true, ended := true, pc := .lock }
  | lock (hpc : c.pc = .lock) (hfree : sh.lock = none) :
      WriteStep id env sh c { sh with lock := some id } { c with pc := .openTemp }
  | openTemp (hpc : c.pc = .openTemp) (i : ℕ) (fs : InodeFS)
      (hopen : env.syscall (sh.fs.openTrunc c.filepath env.now) = .ok (i, fs)) :
      WriteStep id env sh c { sh with fs } { c with file := some i, pc := .append }
  | openFailed (hpc : c.pc = .openTemp) : WriteStep id env sh c sh { c with pc := .returned .NOT_FOUND }
  | append (hpc : c.pc = .append) (i : ℕ) (hfile : c.file = some i) :
      WriteStep id env sh c { sh with fs := sh.fs.append i c.msg.b env.now } { c with pc := .read }
  | appendNone (hpc : c.pc = .append) (hfile : c.file = none) : WriteStep id env sh c sh { c with pc := .read }
  | read (hpc : c.pc = .read) (msg : FilepathContent) (incoming : List FilepathContent)
      (hnext : c.nextMsg env = some (msg, incoming)) :
      WriteStep id env sh c sh { c with msg, incoming, pc := .append }
  | readEnd (hpc : c.pc = .read) (hnext : c.nextMsg env = none) :
      WriteStep id env sh c sh { c with ended := true, pc := .close }
  | close (hpc : c.pc = .close) : WriteStep id env sh c sh { c with file := none, pc := .unlock }
  | unlock (hpc : c.pc = .unlock) : WriteStep id env sh c { sh with lock := none } { c with pc := .checkCancelled }
  | refuse (hpc : c.pc = .checkCancelled) (hcancelled : c.cancelled = true) :
      WriteStep id env sh c sh { c with pc := .returned .CANCELLED }
  | proceed (hpc : c.pc = .checkCancelled) (hcancelled : c.cancelled = false) :
      WriteStep id env sh c sh { c with pc := .stat }
  | stat (hpc : c.pc = .stat) :
      WriteStep id env sh c sh { c with timestamp := statMtim sh.fs c.filepath env, pc := .rename }
  | renamed (hpc : c.pc = .rename) (fs : InodeFS)
      (hok : env.syscall (sh.fs.rename (getServerFilepath cfg c.msg.filepath true)
        (getServerFilepath cfg c.msg.filepath false)) = .ok fs) :
      WriteStep id env sh c { sh with fs } { c with pc := .returned .OK }
  | renameFailed (hpc : c.pc = .rename)
      (hfail : ∀ fs, env.syscall (sh.fs.rename (getServerFilepath cfg c.msg.filepath true)
        (getServerFilepath cfg c.msg.filepath false)) ≠ .ok fs) :
      WriteStep id env sh c sh { c with pc := .returned .OK }

theorem writeStep_of_step {id : ℕ} {env : StepEnv} {sh sh' : Shared} {c c' : WriteCall}
    (h : c.step cfg id env sh = some (sh', c')) : WriteStep cfg id env sh c sh' c' := by
  unfold WriteCall.step at h
  split at h
  case h_1 hpc =>
    cases hn : c.nextMsg env with
    | none =>
      simp only [hn, Option.some.injEq, Prod.mk.injEq] at h
      obtain ⟨rfl, rfl⟩ := h
      exact .readNone hpc hn
    | some r =>
      simp only [hn, Option.some.injEq, Prod.mk.injEq] at h
      obtain ⟨rfl, rfl⟩ := h
      exact .readFirst hpc r.1 r.2 hn
  case h_2 hpc =>
    split_ifs at h with hfree
    cases h
    exact .lock hpc hfree
  case h_3 hpc =>
    split at h
    · rename_i i fs hopen
      cases h
      exact .openTemp hpc i fs hopen
    · cases h
      exact .openFailed hpc
  case h_4 hpc =>
    split at h
    · rename_i i hf
      cases h
      exact .append hpc i hf
    · rename_i hf
      cases h
      exact .appendNone hpc hf
  case h_5 hpc =>
    split at h
    · rename_i msg incoming hn
      cases h
      exact .read hpc msg incoming hn
    · rename_i hn
      cases h
      exact .readEnd hpc hn
  case h_6 hpc => cases h; exact .close hpc
  case h_7 hpc => cases h; exact .unlock hpc
  case h_8 hpc =>
    by_cases hc : c.cancelled = true
    · rw [if_pos hc] at h
      cases h
      exact .refuse hpc hc
    · rw [if_neg hc] at h
      cases h
      exact .proceed hpc (Bool.eq_false_iff.mpr hc)
  case h_9 hpc => cases h; exact .stat hpc
  case h_10 hpc =>
    dsimp only at h
    split at h
    · rename_i fs hok
      cases h
      exact .renamed hpc fs hok
    · rename_i e herr
      cases h
      exact .renameFailed hpc fun fs hok => by rw [herr] at hok; cases hok
  case h_11 => cases h

/-- What an event does to the `Write` call `id`: it creates it, leaves it alone, cancels it or
makes its next step. -/
theorem writes_step {s s' : State} {e : Event} {id : ℕ} {c' : WriteCall} (h : step cfg s e = some s')
    (hc' : s'.writes id = some c') :
    (s.writes id = none ∧ ∃ stream, e = .startWrite id stream ∧ c' = .start stream) ∨
    ∃ c, s.writes id = some c ∧
      ((c' = c ∧ ∀ env, e ≠ .write id env) ∨ (e = .cancel id ∧ c' = { c with cancelled := true }) ∨
        ∃ env, e = .write id env ∧ c.step cfg id env s.toShared = some (s'.toShared, c')) := by
  cases e with
  | startWrite id' stream =>
    simp only [step] at h
    split_ifs at h with hnone
    cases h
    by_cases he : id = id'
    · subst he
      simp only [Function.update_self, Option.some.injEq] at hc'
      exact .inl ⟨hnone, stream, rfl, hc'.symm⟩
    · simp only [Function.update_of_ne he] at hc'
      exact .inr ⟨c', hc', .inl ⟨rfl, by simp⟩⟩
  | write id' env =>
    simp only [step, Option.bind_eq_some_iff, Option.map_eq_some_iff] at h
    obtain ⟨c, hc, ⟨sh, c₁⟩, hstep, rfl⟩ := h
    by_cases he : id = id'
    · subst he
      simp only [Function.update_self, Option.some.injEq] at hc'
      subst hc'
      exact .inr ⟨c, hc, .inr (.inr ⟨env, rfl, hstep⟩)⟩
    · simp only [Function.update_of_ne he] at hc'
      exact .inr ⟨c', hc', .inl ⟨rfl, by simp [Ne.symm he]⟩⟩
  | cancel id' =>
    simp only [step, Option.map_eq_some_iff] at h
    obtain ⟨c, hc, rfl⟩ := h
    by_cases he : id = id'
    · subst he
      simp only [Function.update_self, Option.some.injEq] at hc'
      exact .inr ⟨c, hc, .inr (.inl ⟨rfl, hc'.symm⟩)⟩
    · simp only [Function.update_of_ne he] at hc'
      exact .inr ⟨c', hc', .inl ⟨rfl, by simp⟩⟩
  | startGetContent id' filepath =>
    simp only [step] at h
    split_ifs at h
    cases h
    exact .inr ⟨c', hc', .inl ⟨rfl, by simp⟩⟩
  | getContent id' env =>
    simp only [step, Option.bind_eq_some_iff, Option.map_eq_some_iff] at h
    obtain ⟨c, -, c₁, -, rfl⟩ := h
    exact .inr ⟨c', hc', .inl ⟨rfl, by simp⟩⟩
  | unlink filepath env => cases h; exact .inr ⟨c', hc', .inl ⟨rfl, by simp⟩⟩
  | rmdir filepath env => cases h; exact .inr ⟨c', hc', .inl ⟨rfl, by simp⟩⟩
  | mkdir filepath env => cases h; exact .inr ⟨c', hc', .inl ⟨rfl, by simp⟩⟩

/-- A call that has arrived never disappears. -/
theorem writes_persist {s s' : State} {e : Event} {id : ℕ} {c : WriteCall} (h : step cfg s e = some s')
    (hc : s.writes id = some c) : ∃ c', s'.writes id = some c' := by
  have hupdate (id' : ℕ) (c₁ : WriteCall) : ∃ c', Function.update s.writes id' (some c₁) id = some c' := by
    by_cases he : id = id'
    · subst he
      exact ⟨c₁, Function.update_self ..⟩
    · exact ⟨c, by rw [Function.update_of_ne he, hc]⟩
  cases e with
  | startWrite id' stream =>
    simp only [step] at h
    split_ifs at h
    cases h
    exact hupdate _ _
  | write id' env =>
    simp only [step, Option.bind_eq_some_iff, Option.map_eq_some_iff] at h
    obtain ⟨c, -, r, -, rfl⟩ := h
    exact hupdate _ _
  | cancel id' =>
    simp only [step, Option.map_eq_some_iff] at h
    obtain ⟨c, -, rfl⟩ := h
    exact hupdate _ _
  | startGetContent id' filepath =>
    simp only [step] at h
    split_ifs at h
    cases h
    exact ⟨c, hc⟩
  | getContent id' env =>
    simp only [step, Option.bind_eq_some_iff, Option.map_eq_some_iff] at h
    obtain ⟨-, -, -, -, rfl⟩ := h
    exact ⟨c, hc⟩
  | unlink filepath env => cases h; exact ⟨c, hc⟩
  | rmdir filepath env => cases h; exact ⟨c, hc⟩
  | mkdir filepath env => cases h; exact ⟨c, hc⟩

/-- Only its own arrival creates a call. -/
theorem writes_run_none {s s' : State} {es : List Event} {id : ℕ} (h : run cfg s es = some s') (hid : s.writes id = none)
    (hes : ∀ stream, .startWrite id stream ∉ es) : s'.writes id = none := by
  induction es generalizing s with
  | nil => cases h; exact hid
  | cons e es ih =>
    obtain ⟨s₁, hs₁, hrun⟩ := Option.bind_eq_some_iff.mp h
    refine ih hrun ?_ fun stream hmem => hes stream (by simp [hmem])
    cases hc : s₁.writes id with
    | none => rfl
    | some c =>
      obtain ⟨-, stream, rfl, -⟩ | ⟨c₀, hc₀, -⟩ := writes_step cfg hs₁ hc
      · exact absurd (by simp) (hes stream)
      · rw [hid] at hc₀
        cases hc₀

/-- A server rooted at `/` with a digest function that is constant. -/
def exampleConfig : Config := ⟨Bytes.ascii "/", fun _ _ => 0⟩

/-- The server started on an empty tree. -/
def exampleState : State := (boot exampleConfig .empty).get (by decide)

/-- An undisturbed step. -/
def StepEnv.quiet (now : UInt8) : StepEnv := { now := List.replicate 16 now }

end AFSv1.Server
