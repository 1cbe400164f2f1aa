import AFSv1.Server.Mixing

/-! Uploads that do not overlap each other. The one that is running was the last to open its
temporary file, so it renames its own data and every step of such a run is harmless. -/
namespace AFSv1.Server
open Foundations Tables

variable (cfg : Config) (path : Bytes)

def WriteCall.Active (c : WriteCall) : Prop := ∀ status, c.pc ≠ .returned status

instance (c : WriteCall) : Decidable c.Active :=
  match hpc : c.pc with
  | .returned status => isFalse fun h => h status hpc
  | .readFirst | .lock | .openTemp | .append | .read | .close | .unlock | .checkCancelled | .stat | .rename =>
    isTrue fun _ h => by simp [hpc] at h

/-- The temporary file is open or waits for its rename. -/
def WriteCall.Pending (c : WriteCall) : Prop :=
  c.pc = .append ∨ c.pc = .read ∨ c.pc = .close ∨ c.pc = .unlock ∨ c.pc = .checkCancelled ∨ c.pc = .stat ∨ c.pc = .rename

/-- The upload an event starts. -/
def Event.starts : Event → Option ℕ
  | .startWrite id _ => some id
  | _ => none

/-- A new upload starts only after the return of all those started before. -/
def NonOverlapping (started : List ℕ) (s : State) : List Event → Prop
  | [] => True
  | e :: es => (∀ id, e.starts = some id → ∀ id' ∈ started, ∀ c, s.writes id' = some c → ¬ c.Active) ∧
      ∀ s', step cfg s e = some s' → NonOverlapping (e.starts.toList ++ started) s' es

instance NonOverlapping.decidable : ∀ (started : List ℕ) (s : State) (es : List Event),
    Decidable (NonOverlapping cfg started s es)
  | _, _, [] => isTrue trivial
  | started, s, e :: es =>
    have (s' : State) := NonOverlapping.decidable (e.starts.toList ++ started) s' es
    inferInstanceAs (Decidable (
      (∀ id, e.starts = some id → ∀ id' ∈ started, ∀ c, s.writes id' = some c → ¬ c.Active) ∧
        ∀ s', step cfg s e = some s' → NonOverlapping cfg (e.starts.toList ++ started) s' es))

/-- The temporary name of a stream on the path, or of an empty one, is not the path itself. -/
def Apart (fs : InodeFS) : Prop :=
  ∀ filepath, filepath = path ∨ filepath = [] → ∀ l, fs.resolve (getServerFilepath cfg filepath true) = .ok l →
    fs.resolve (getServerFilepath cfg path false) ≠ .ok l

/-- Uploads one at a time: the pending call is the last that opened its temporary file. -/
structure Solo (opener : Opener) (s : State) : Prop where
  alone : ∀ id id' c c', s.writes id = some c → s.writes id' = some c' → c.Active → c'.Active → id = id'
  temp : ∀ id c, s.writes id = some c → c.Pending → ∃ a i, s.fs.resolve c.filepath = .ok (.entry a) ∧
    s.fs.entries.lookup a = some (.file i) ∧ opener i = some id
  passed : ∀ i w c, Visible cfg path s i → opener i = some w → s.writes w = some c → c.Passed

lemma WriteCall.Named.filepath {c : WriteCall} (h : c.Named path) : c.msg.filepath = path ∨ c.msg.filepath = [] := by
  rcases h with ⟨-, hmsg, -⟩ | ⟨-, hname⟩
  · exact .inr (by rw [hmsg])
  · exact .inl hname

/-- Uploads one at a time are harmless. -/
theorem harmless_of_solo {initial : Bytes → Prop} {shown : ℕ → Prop} {opener : Opener} {s : State}
    (h : Inv cfg path initial shown opener s) (hsolo : Solo cfg path opener s) (hapart : Apart cfg path s.fs)
    (e : Event) : Harmless cfg path opener s e := by
  cases e with
  | write id env =>
    intro c hc
    have hcinv := (h.calls id c hc).2
    refine ⟨fun hpc l hl => ?_, fun hpc i hi => ?_⟩
    · simp only [WriteCall.Inv, hpc] at hcinv
      obtain ⟨-, hname, hnamed, -⟩ := hcinv
      rw [hname] at hl
      exact hapart _ (hnamed.filepath path) l hl
    · simp only [WriteCall.Inv, hpc] at hcinv
      obtain ⟨⟨hname, -⟩, -⟩ := hcinv
      obtain ⟨a, j, ha, hj, hopener⟩ := hsolo.temp id c hc (by simp [WriteCall.Pending, hpc])
      rw [hname] at ha
      obtain rfl : i = j := by
        have := InodeFS.node_of_resolve ha hj
        rw [hi] at this
        simpa using this
      exact ⟨id, hopener, c, hc, .inr (.inr (.inl (.inr (.inl hpc)))), .inr (.inr (.inl hpc))⟩
  | cancel id => exact fun c hc i hi hopener => hsolo.passed i id c hi hopener hc
  | _ => trivial

lemma WriteCall.Inv.tempApart {opener : Opener} {sh : Shared} {id : ℕ} {c : WriteCall}
    (h : c.Inv cfg path opener sh id) (hp : c.Pending) : c.TempApart cfg path sh.fs := by
  rcases hp with hpc | hpc | hpc | hpc | hpc | hpc | hpc <;> simp only [WriteCall.Inv, hpc] at h <;> exact h.1

lemma WriteStep.active {id : ℕ} {env : StepEnv} {sh sh' : Shared} {c c' : WriteCall}
    (h : WriteStep cfg id env sh c sh' c') : c.Active := by
  cases h <;> simp_all [WriteCall.Active]

lemma WriteStep.passed {id : ℕ} {env : StepEnv} {sh sh' : Shared} {c c' : WriteCall}
    (h : WriteStep cfg id env sh c sh' c') (hp : c.Passed) : c'.Passed := by
  cases h <;> simp_all [WriteCall.Passed]

/-- A pending call just opened its file, or was pending before under the same name. -/
lemma WriteStep.pending {id : ℕ} {env : StepEnv} {sh sh' : Shared} {c c' : WriteCall}
    (h : WriteStep cfg id env sh c sh' c') (hp : c'.Pending) :
    c'.filepath = c.filepath ∧
      (c.Pending ∧ sh'.fs.entries = sh.fs.entries ∧ (c'.file = none ∨ c'.file = c.file) ∨
        ∃ i, c'.file = some i ∧ sh.fs.openTrunc c.filepath env.now = .ok (i, sh'.fs)) := by
  cases h with
  | openTemp hpc i fs hopen => exact ⟨rfl, .inr ⟨i, rfl, (StepEnv.syscall_eq_ok.mp hopen).2⟩⟩
  | _ => simp_all [WriteCall.Pending]

/-- A rename step returns OK. -/
lemma WriteStep.passed_of_rename {id : ℕ} {env : StepEnv} {sh sh' : Shared} {c c' : WriteCall}
    (h : WriteStep cfg id env sh c sh' c') (hpc : c.pc = .rename) : c'.Passed := by
  cases h <;> simp_all [WriteCall.Passed]

/-- Uploads one at a time stay so. -/
theorem Solo.step {initial : Bytes → Prop} {shown : ℕ → Prop} {opener : Opener} {s s' : State}
    (hsolo : Solo cfg path opener s) (h : Inv cfg path initial shown opener s) (hapart : Apart cfg path s.fs) {e : Event}
    (he : OnPath path e) (hone : ∀ id, e.starts = some id → ∀ id' c, s.writes id' = some c → ¬ c.Active)
    (hs : step cfg s e = some s') : Solo cfg path (nextOpener opener s' e) s' := by
  cases e with
  | startWrite id stream =>
    have hidle := hone id rfl
    simp only [Server.step] at hs
    split_ifs at hs with hnone
    cases hs
    refine ⟨fun id₁ id₂ c₁ c₂ hc₁ hc₂ ha₁ ha₂ => ?_, fun id₁ c₁ hc₁ hp => ?_, fun i w c₁ hi hw hc₁ => ?_⟩
    · obtain ⟨rfl, -⟩ | ⟨-, hc₁⟩ := update_eq_some.mp hc₁
      · obtain ⟨rfl, -⟩ | ⟨-, hc₂⟩ := update_eq_some.mp hc₂
        · rfl
        · exact absurd ha₂ (hidle _ _ hc₂)
      · exact absurd ha₁ (hidle _ _ hc₁)
    · obtain ⟨rfl, rfl⟩ | ⟨-, hc₁⟩ := update_eq_some.mp hc₁
      · simp [WriteCall.Pending, WriteCall.start] at hp
      · exact hsolo.temp id₁ c₁ hc₁ hp
    · obtain ⟨rfl, -⟩ | ⟨-, hc₁⟩ := update_eq_some.mp hc₁
      · obtain ⟨c₀, hc₀⟩ := h.arrived i w hw
        rw [hnone] at hc₀
        cases hc₀
      · exact hsolo.passed i w c₁ hi hw hc₁
  | write id env =>
    simp only [Server.step, Option.bind_eq_some_iff, Option.map_eq_some_iff] at hs
    obtain ⟨c, hc, ⟨sh', c'⟩, hstep, rfl⟩ := hs
    have hw := writeStep_of_step cfg hstep
    have hharm := harmless_of_solo cfg path h hsolo hapart (.write id env) c hc
    have heff := effect_of_step cfg path (h.calls id c hc).2 hw fun hpc a => hharm.1 hpc (.entry a)
    set s' : State := { s with toShared := sh', writes := Function.update s.writes id (some c') } with hs'
    have heff' : Effect cfg path opener s.toShared id c s'.toShared c' (opener.next id c'.file) := heff
    have hnext : nextOpener opener s' (.write id env) = opener.next id c'.file := by simp [nextOpener, hs']
    rw [hnext]
    refine ⟨fun id₁ id₂ c₁ c₂ hc₁ hc₂ ha₁ ha₂ => ?_, fun id₁ c₁ hc₁ hp => ?_, fun i w c₁ hi hwi hc₁ => ?_⟩
    · obtain ⟨rfl, -⟩ | ⟨-, hd₁⟩ := update_eq_some.mp hc₁
      · obtain ⟨rfl, -⟩ | ⟨-, hd₂⟩ := update_eq_some.mp hc₂
        · rfl
        · exact hsolo.alone _ _ c c₂ hc hd₂ (hw.active cfg) ha₂
      · obtain ⟨rfl, -⟩ | ⟨-, hd₂⟩ := update_eq_some.mp hc₂
        · exact hsolo.alone _ _ c₁ c hd₁ hc ha₁ (hw.active cfg)
        · exact hsolo.alone _ _ c₁ c₂ hd₁ hd₂ ha₁ ha₂
    · obtain ⟨rfl, rfl⟩ | ⟨hne, hd₁⟩ := update_eq_some.mp hc₁
      · obtain ⟨hname, ⟨hpend, hentries, hfile⟩ | ⟨i, hfile, hopen⟩⟩ := hw.pending cfg hp
        · obtain ⟨a, i, ha, hai, hopener⟩ := hsolo.temp id₁ c hc hpend
          have hkeep : opener.next id₁ c₁.file = opener := by
            rcases hfile with hf | hf <;> rw [hf]
            · rfl
            · rcases (h.calls id₁ c hc).2.file_cases with hnone | ⟨j, hj, -⟩
              · rw [hnone]; rfl
              · rw [hj.2.1]; exact Opener.next_of_writes hj
          refine ⟨a, i, by rw [hname]; exact heff.dirs.resolve ha, ?_, by rw [hkeep]; exact hopener⟩
          exact (congrArg (Finmap.lookup a) hentries).trans hai
        · obtain ⟨a, -, ha, hai, -⟩ := InodeFS.openTrunc_slot hopen
          exact ⟨a, i, by rw [hname]; exact ha, hai, by simp [hfile, Opener.next]⟩
      · have hactive : c₁.Active := by
          intro status hpc
          simp [WriteCall.Pending, hpc] at hp
        exact absurd (hsolo.alone _ _ c₁ c hd₁ hc hactive (hw.active cfg)) hne
    · rcases Effect.visible cfg path heff' hi with hold | ⟨hpc, hopener, hnode⟩
      · obtain ⟨-, -, hopener, -⟩ := h.untouched cfg path hc heff' (.inr hold)
        rw [hopener] at hwi
        obtain ⟨rfl, rfl⟩ | ⟨-, hd₁⟩ := update_eq_some.mp hc₁
        · exact hw.passed cfg (hsolo.passed i w c hold hwi hc)
        · exact hsolo.passed i w c₁ hold hwi hd₁
      · obtain ⟨a, j, ha, hj, hjd⟩ := hsolo.temp id c hc (by simp [WriteCall.Pending, hpc])
        have hname := ((h.calls id c hc).2.tempApart cfg path (by simp [WriteCall.Pending, hpc])).1
        rw [hname] at ha
        obtain rfl : i = j := by
          have := InodeFS.node_of_resolve ha hj
          rw [hnode] at this
          simpa using this
        rw [hopener, hjd, Option.some.injEq] at hwi
        subst hwi
        obtain ⟨-, rfl⟩ | ⟨hne, -⟩ := update_eq_some.mp hc₁
        · exact hw.passed_of_rename cfg hpc
        · exact absurd rfl hne
  | cancel id =>
    simp only [Server.step, Option.map_eq_some_iff] at hs
    obtain ⟨c, hc, rfl⟩ := hs
    refine ⟨fun id₁ id₂ c₁ c₂ hc₁ hc₂ ha₁ ha₂ => ?_, fun id₁ c₁ hc₁ hp => ?_, fun i w c₁ hi hw hc₁ => ?_⟩
    · obtain ⟨rfl, rfl⟩ | ⟨-, hd₁⟩ := update_eq_some.mp hc₁
      · obtain ⟨rfl, -⟩ | ⟨-, hd₂⟩ := update_eq_some.mp hc₂
        · rfl
        · exact hsolo.alone _ _ c c₂ hc hd₂ ha₁ ha₂
      · obtain ⟨rfl, rfl⟩ | ⟨-, hd₂⟩ := update_eq_some.mp hc₂
        · exact hsolo.alone _ _ c₁ c hd₁ hc ha₁ ha₂
        · exact hsolo.alone _ _ c₁ c₂ hd₁ hd₂ ha₁ ha₂
    · obtain ⟨rfl, rfl⟩ | ⟨-, hd₁⟩ := update_eq_some.mp hc₁
      · exact hsolo.temp id₁ c hc hp
      · exact hsolo.temp id₁ c₁ hd₁ hp
    · obtain ⟨rfl, rfl⟩ | ⟨-, hd₁⟩ := update_eq_some.mp hc₁
      · exact hsolo.passed i w c hi hw hc
      · exact hsolo.passed i w c₁ hi hw hd₁
  | startGetContent id filepath =>
    simp only [Server.step] at hs
    split_ifs at hs
    cases hs
    exact ⟨hsolo.alone, hsolo.temp, hsolo.passed⟩
  | getContent id env =>
    simp only [Server.step, Option.bind_eq_some_iff, Option.map_eq_some_iff] at hs
    obtain ⟨c, -, c', -, rfl⟩ := hs
    exact ⟨hsolo.alone, hsolo.temp, hsolo.passed⟩
  | unlink filepath env =>
    cases hs
    obtain rfl : filepath = path := he
    rcases unlink_cases cfg filepath env s.fs with hfs | ⟨p, j, hp, hj, hfs⟩ <;> rw [hfs]
    · exact ⟨hsolo.alone, hsolo.temp, hsolo.passed⟩
    · have hdirs := InodeFS.sameDirs_remove hj
      refine ⟨hsolo.alone, fun id c hc hpend => ?_, fun i w c hi => ?_⟩
      · obtain ⟨a, i, ha, hai, hopener⟩ := hsolo.temp id c hc hpend
        obtain ⟨-, b, hb, -, hne⟩ := (h.calls id c hc).2.tempApart cfg filepath hpend
        obtain rfl : a = b := by rw [ha] at hb; simpa using hb
        refine ⟨a, i, hdirs.resolve ha, ?_, hopener⟩
        rw [InodeFS.lookup_remove, if_neg (by rintro rfl; exact hne hp)]
        exact hai
      · obtain ⟨q, hq, hqi⟩ := hi.slot
        have hqp := hdirs.symm.resolve hq
        rw [hp, Except.ok.injEq, Loc.entry.injEq] at hqp
        rw [InodeFS.lookup_remove, if_pos hqp.symm] at hqi
        cases hqi
  | rmdir filepath env => exact he.elim
  | mkdir filepath env => exact he.elim

/-- The invariant of uploads one at a time. -/
structure OneAtATime (initial : Bytes → Prop) (shown : ℕ → Prop) (opener : Opener) (started : List ℕ) (s : State) :
    Prop where
  inv : Inv cfg path initial shown opener s
  solo : Solo cfg path opener s
  apart : Apart cfg path s.fs
  started : ∀ id c, s.writes id = some c → id ∈ started

lemma Apart.of_sameDirs {fs fs' : InodeFS} (h : Apart cfg path fs) (hdirs : InodeFS.SameDirs fs fs') :
    Apart cfg path fs' := fun filepath hf l hl hp =>
  h filepath hf l (hdirs.symm.resolve hl) (hdirs.symm.resolve hp)

theorem OneAtATime.step {initial : Bytes → Prop} {shown : ℕ → Prop} {opener : Opener} {started : List ℕ} {s s' : State}
    (h : OneAtATime cfg path initial shown opener started s) {e : Event} (he : OnPath path e)
    (hone : ∀ id, e.starts = some id → ∀ id' ∈ started, ∀ c, s.writes id' = some c → ¬ c.Active)
    (hs : step cfg s e = some s') :
    OneAtATime cfg path initial (fun i => shown i ∨ Visible cfg path s i) (nextOpener opener s' e)
        (e.starts.toList ++ started) s' ∧
      ∀ i, shown i ∨ Visible cfg path s i → s'.fs.file i = s.fs.file i := by
  have hkeeps := h.inv.step cfg path he (harmless_of_solo cfg path h.inv h.solo h.apart e) hs
  refine ⟨⟨hkeeps.inv, ?_, h.apart.of_sameDirs cfg path hkeeps.dirs, fun id c hc => ?_⟩, hkeeps.file⟩
  · exact h.solo.step cfg path h.inv h.apart he
      (fun id hid id' c hc => hone id hid id' (h.started id' c hc) c hc) hs
  · obtain ⟨-, stream, rfl, -⟩ | ⟨c₀, hc₀, -⟩ := writes_step cfg hs hc
    · simp [Event.starts]
    · exact List.mem_append_right _ (h.started id c₀ hc₀)

lemma oneAtATime_idle (fs : InodeFS) (hapart : Apart cfg path fs) :
    OneAtATime cfg path (initialContent cfg path fs) (fun _ => False) (fun _ => none) [] (.idle fs) := by
  refine ⟨inv_idle cfg path fs, ⟨?_, ?_, ?_⟩, hapart, ?_⟩ <;> simp [State.idle]

end AFSv1.Server
