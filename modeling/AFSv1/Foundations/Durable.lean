import AFSv1.Foundations.Agents

/-! Agents that keep a part of their state on stable storage: a crash may come while a call has had some of its effects
there, and the agent comes up with what it finds. If that is the state before or after the call, calls might as well be
atomic. -/
namespace AFSv1.Foundations

namespace Prog

variable {C : Type} {R : C → Type} {α β : Type} {ans : ∀ c, R c → Prop} {P Q : C → Prop}

/-- Every call that the program may make, if only answers in `ans` come back, meets the condition. -/
def Makes (ans : ∀ c, R c → Prop) (P : C → Prop) : Prog C R α → Prop
  | .ret _ => True
  | .call c k => P c ∧ ∀ r, ans c r → (k r).Makes ans P

lemma Makes.bind {p : Prog C R α} {f : α → Prog C R β} (h : p.Makes ans P) (hf : ∀ a, (f a).Makes ans P) :
    (p >>= f).Makes ans P := by
  induction p with
  | ret a => exact hf a
  | call c k ih =>
    refine ⟨h.1, fun r hr => ?_⟩
    exact ih r (h.2 r hr)

lemma Calls.makes {p : Prog C R α} (h : p.Calls P) : p.Makes ans P := by
  induction p with
  | ret a => trivial
  | call c k ih =>
    refine ⟨h.1, fun r _ => ?_⟩
    exact ih r (h.2 r)

end Prog

/-- `crash a d` is a crash of `a` in circumstances `d`. -/
inductive DurableEvent (A Op E D : Type) where
  | start (a : A) (op : Op)
  | call (a : A) (env : E)
  | finish (a : A)
  | crash (a : A) (d : D)

namespace System

variable {A Op C : Type} {R : C → Type} {α E E' D L L' G : Type} [DecidableEq A]

section Run

variable (ℳ : Machine Op C R α E L G) (restart : D → Option C → L → Option L)

/-- `restart d c l` is what an agent comes up with that has crashed before or in the call `c`; `none` when it does not
come up. -/
def endure (s : System A Op C R α L G) : DurableEvent A Op E D → Option (System A Op C R α L G)
  | .start a op => s.step ℳ (.start a op)
  | .call a env => s.step ℳ (.call a env)
  | .finish a => s.step ℳ (.finish a)
  | .crash a d => (restart d (s.next a) (s.locals a)).map fun l =>
      s.become a (ℳ.crash ((s.running a).map Prod.fst) l) none

def endureRun (s : System A Op C R α L G) : List (DurableEvent A Op E D) → Option (System A Op C R α L G)
  | [] => some s
  | e :: es => (s.endure ℳ restart e).bind fun s' => endureRun s' es

/-- Every event of the run meets the condition in the state it happens in. -/
def EndureAlong (Q : System A Op C R α L G → DurableEvent A Op E D → Prop) (s : System A Op C R α L G) :
    List (DurableEvent A Op E D) → Prop
  | [] => True
  | e :: es => Q s e ∧ ∀ s', s.endure ℳ restart e = some s' → EndureAlong Q s' es

end Run

/-- The agents as `view` shows them. -/
def shown (view : L' → L) (s : System A Op C R α L' G) : System A Op C R α L G :=
  { s with locals := fun a => view (s.locals a) }

section Shown

variable {A : Type} {view : L' → L}

@[simp] lemma shown_shared (s : System A Op C R α L' G) : (s.shown view).shared = s.shared := rfl

@[simp] lemma shown_running (s : System A Op C R α L' G) : (s.shown view).running = s.running := rfl

@[simp] lemma shown_locals (s : System A Op C R α L' G) (a : A) : (s.shown view).locals a = view (s.locals a) := rfl

@[simp] lemma shown_next (s : System A Op C R α L' G) (a : A) : (s.shown view).next a = s.next a := rfl

end Shown

variable {view : L' → L}

@[simp] lemma shown_become (s : System A Op C R α L' G) (a : A) (l : L') (p : Option (Op × Prog C R α)) :
    (s.become a l p).shown view = (s.shown view).become a (view l) p := by
  simp only [shown, become, System.mk.injEq, true_and, and_true]
  funext b
  by_cases hb : b = a
  · subst hb
    simp
  · simp [hb]

/-- What an agent does between crashes is what the machine `ℳ` does with what `view` shows; after a crash it shows what
was there before or after the call, which then is a `silent` one that concerns nobody else. -/
structure Simulates (ℳ' : Machine Op C R α E' L' G) (restart : D → Option C → L' → Option L')
    (ℳ : Machine Op C R α E L G) (view : L' → L) (toEnv : E' → E) (inv : L' → Prop) (callOk silent : C → Prop)
    (crashOk : D → Option C → L' → Prop) : Prop where
  prog : ℳ'.prog = ℳ.prog
  begin : ∀ op k, inv k → (ℳ'.begin op k).map view = ℳ.begin op (view k)
  begin_inv : ∀ op k k', inv k → ℳ'.begin op k = some k' → inv k'
  exec : ∀ env c k g, inv k →
    (ℳ'.exec env c k g).map (fun r => (r.1, view r.2.1, r.2.2)) = ℳ.exec (toEnv env) c (view k) g
  exec_inv : ∀ env c k g r k' g', inv k → callOk c → ℳ'.exec env c k g = some (r, k', g') → inv k'
  finish : ∀ op r k, inv k → view (ℳ'.finish op r k) = ℳ.finish op r (view k) ∧ inv (ℳ'.finish op r k)
  crash : ∀ d c op k, inv k → (∀ x, c = some x → callOk x) → crashOk d c k → ∃ k', restart d c k = some k' ∧
    inv (ℳ'.crash op k') ∧ (view (ℳ'.crash op k') = ℳ.crash op (view k) ∨ ∃ x env l, c = some x ∧ silent x ∧
      (∀ g, ∃ r, ℳ.exec env x (view k) g = some (r, l, g)) ∧ view (ℳ'.crash op k') = ℳ.crash op l)

/-- What is assumed of the events of a run: `P` of what they show, and of the crashes that one comes up after them. -/
def Bears (view : L' → L) (toEnv : E' → E) (crashOk : D → Option C → L' → Prop)
    (P : System A Op C R α L G → AgentEvent A Op E → Prop) (s : System A Op C R α L' G) : DurableEvent A Op E' D → Prop
  | .start a op => P (s.shown view) (.start a op)
  | .call a env => P (s.shown view) (.call a (toEnv env))
  | .finish a => P (s.shown view) (.finish a)
  | .crash a d => crashOk d (s.next a) (s.locals a)

variable {ℳ' : Machine Op C R α E' L' G} {restart : D → Option C → L' → Option L'} {ℳ : Machine Op C R α E L G}
  {toEnv : E' → E} {inv : L' → Prop} {callOk silent : C → Prop} {crashOk : D → Option C → L' → Prop}
  {P : System A Op C R α L G → AgentEvent A Op E → Prop} {s s' : System A Op C R α L' G}

lemma inv_become (hinv : ∀ a, inv (s.locals a)) {a : A} {l : L'} (hl : inv l)
    (p : Option (Op × Prog C R α)) (g : G) (b : A) : inv (({ s.become a l p with shared := g } : System ..).locals b) := by
  by_cases hb : b = a
  · subst hb
    simpa [become] using hl
  · simpa [become, hb] using hinv b

lemma EndureAlong.append {ℳ : Machine Op C R α E L G} {restart : D → Option C → L → Option L}
    {Q : System A Op C R α L G → DurableEvent A Op E D → Prop} {s : System A Op C R α L G}
    {es es' : List (DurableEvent A Op E D)} (h : s.EndureAlong ℳ restart Q es)
    (h' : ∀ t, s.endureRun ℳ restart es = some t → t.EndureAlong ℳ restart Q es') :
    s.EndureAlong ℳ restart Q (es ++ es') := by
  induction es generalizing s with
  | nil => exact h' s rfl
  | cons e es ih =>
    refine ⟨h.1, fun t ht => ih (h.2 t ht) fun u hu => h' u ?_⟩
    rw [endureRun, ht]
    exact hu

lemma endureRun_append {ℳ : Machine Op C R α E L G} {restart : D → Option C → L → Option L}
    {s t : System A Op C R α L G} {es : List (DurableEvent A Op E D)} (h : s.endureRun ℳ restart es = some t)
    (es' : List (DurableEvent A Op E D)) : s.endureRun ℳ restart (es ++ es') = t.endureRun ℳ restart es' := by
  induction es generalizing s with
  | nil =>
    cases h
    rfl
  | cons e es ih =>
    obtain ⟨s₁, hs₁, hrest⟩ := Option.bind_eq_some_iff.mp h
    rw [List.cons_append, endureRun, hs₁, Option.bind_some]
    exact ih hrest

/-- A crash that is allowed for is survived. -/
theorem Simulates.survives (h : Simulates ℳ' restart ℳ view toEnv inv callOk silent crashOk) (hinv : ∀ a, inv (s.locals a))
    (hcalls : ∀ a c, s.next a = some c → callOk c) {a : A} {d : D} (hd : crashOk d (s.next a) (s.locals a)) :
    ∃ s', s.endure ℳ' restart (.crash a d) = some s' := by
  obtain ⟨k', hk', -⟩ := h.crash d (s.next a) none (s.locals a) (hinv a) (hcalls a) hd
  exact ⟨_, by rw [endure, hk', Option.map_some]⟩

/-- One event is one event of the agents that are shown, or a call and the crash. -/
theorem Simulates.step (h : Simulates ℳ' restart ℳ view toEnv inv callOk silent crashOk) (hinv : ∀ a, inv (s.locals a))
    (hcalls : ∀ a c, s.next a = some c → callOk c) (hcrash : ∀ t a, P t (.crash a))
    (hsilent : ∀ t a env c, t.next a = some c → silent c → P t (.call a env)) {e : DurableEvent A Op E' D}
    (he : s.Bears view toEnv crashOk P e) (hs : s.endure ℳ' restart e = some s') :
    (∀ a, inv (s'.locals a)) ∧ ∃ es, (s.shown view).run ℳ es = some (s'.shown view) ∧ (s.shown view).Along ℳ P es := by
  cases e with
  | start a op =>
    simp only [endure, System.step] at hs
    split at hs
    · rename_i hidle
      obtain ⟨k, hk, rfl⟩ := Option.map_eq_some_iff.mp hs
      refine ⟨inv_become hinv (h.begin_inv op _ k (hinv a) hk) (some (op, ℳ'.prog op)) s.shared, [.start a op], ?_,
        he, fun _ _ => trivial⟩
      have hbegin := h.begin op _ (hinv a)
      rw [hk, Option.map_some] at hbegin
      simp [run, System.step, hidle, ← hbegin, h.prog]
    · cases hs
  | call a env =>
    simp only [endure, System.step] at hs
    split at hs
    · rename_i op c k hrunning
      obtain ⟨⟨r, l, g⟩, hexec, rfl⟩ := Option.map_eq_some_iff.mp hs
      have hnext : s.next a = some c := by simp [System.next, hrunning]
      have hl := h.exec_inv env c _ _ r l g (hinv a) (hcalls a c hnext) hexec
      refine ⟨inv_become hinv hl (some (op, k r)) g, [.call a (toEnv env)], ?_, he, fun _ _ => trivial⟩
      have hview := h.exec env c _ s.shared (hinv a)
      rw [hexec, Option.map_some] at hview
      have hshown : shown view { s.become a l (some (op, k r)) with shared := g } =
          { (s.shown view).become a (view l) (some (op, k r)) with shared := g } :=
        congrArg (fun t : System A Op C R α L G => { t with shared := g }) (s.shown_become a l (some (op, k r)))
      simp [run, System.step, hrunning, ← hview, hshown]
    · cases hs
  | finish a =>
    simp only [endure, System.step] at hs
    split at hs
    · rename_i op r hrunning
      cases hs
      obtain ⟨hview, hl⟩ := h.finish op r _ (hinv a)
      refine ⟨inv_become hinv hl none s.shared, [.finish a], ?_, he, fun _ _ => trivial⟩
      simp [run, System.step, hrunning, hview]
    · cases hs
  | crash a d =>
    obtain ⟨k', hk', hl, hcases⟩ :=
      h.crash d (s.next a) ((s.running a).map Prod.fst) (s.locals a) (hinv a) (hcalls a) he
    rw [endure, hk', Option.map_some, Option.some.injEq] at hs
    subst hs
    refine ⟨inv_become hinv hl none s.shared, ?_⟩
    rcases hcases with hview | ⟨c, env, l, hnext, hc, hexec, hview⟩
    · refine ⟨[.crash a], ?_, hcrash _ a, fun _ _ => trivial⟩
      simp [run, System.step, hview]
    · obtain ⟨r, hr⟩ := hexec s.shared
      refine ⟨[.call a env, .crash a], ?_, hsilent _ a env c hnext hc, fun _ _ => ⟨hcrash _ a, fun _ _ => trivial⟩⟩
      obtain ⟨⟨op, p⟩, hrunning, hp⟩ := Option.bind_eq_some_iff.mp hnext
      cases p with
      | ret r => cases hp
      | call c' k =>
        obtain rfl : c' = c := Option.some.inj hp
        have hstep : (s.shown view).step ℳ (.call a env) = some ((s.shown view).become a l (some (op, k r))) := by
          simp [System.step, hrunning, hr, become]
        have hfst :
            ((((s.shown view).become a l (some (op, k r))).running a).map Prod.fst) = (s.running a).map Prod.fst := by
          simp [become, hrunning]
        rw [run, hstep, Option.bind_some, run, System.step, Option.bind_some, run, hfst, shown_become, hview]
        simp [become]

/-- A run shows a run of the machine, whatever the agents were doing when they crashed. -/
theorem Simulates.run (h : Simulates ℳ' restart ℳ view toEnv inv callOk silent crashOk) (hinv : ∀ a, inv (s.locals a))
    (hcalls : ∀ es t, (s.shown view).run ℳ es = some t → ∀ a c, t.next a = some c → callOk c)
    (hcrash : ∀ t a, P t (.crash a)) (hsilent : ∀ t a env c, t.next a = some c → silent c → P t (.call a env))
    {es : List (DurableEvent A Op E' D)} (hes : s.EndureAlong ℳ' restart (Bears view toEnv crashOk P) es)
    (hs : s.endureRun ℳ' restart es = some s') :
    (∀ a, inv (s'.locals a)) ∧ ∃ es', (s.shown view).run ℳ es' = some (s'.shown view) ∧
      (s.shown view).Along ℳ P es' := by
  induction es generalizing s with
  | nil =>
    cases hs
    exact ⟨hinv, [], rfl, trivial⟩
  | cons e es ih =>
    obtain ⟨s₁, hs₁, hrest⟩ := Option.bind_eq_some_iff.mp hs
    obtain ⟨hinv₁, es₁, hrun₁, halong₁⟩ := h.step hinv (hcalls [] _ rfl) hcrash hsilent hes.1 hs₁
    have hcalls₁ : ∀ es t, (s₁.shown view).run ℳ es = some t → ∀ a c, t.next a = some c → callOk c := by
      intro es₂ t ht
      refine hcalls (es₁ ++ es₂) t ?_
      rw [run_append, hrun₁, Option.bind_some, ht]
    obtain ⟨hinv', es₂, hrun₂, halong₂⟩ := ih hinv₁ hcalls₁ (hes.2 s₁ hs₁) hrest
    refine ⟨hinv', es₁ ++ es₂, ?_, halong₁.append fun t ht => ?_⟩
    · rw [run_append, hrun₁, Option.bind_some, hrun₂]
    · obtain rfl : s₁.shown view = t := Option.some.inj (hrun₁.symm.trans ht)
      exact halong₂

end System
end AFSv1.Foundations
