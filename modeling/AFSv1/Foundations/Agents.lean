import AFSv1.Foundations.Prog

/-! Agents that run one operation at a time on a shared state and may crash at any moment, and the
rule that derives an invariant of all runs from the safety of the single operations. -/
namespace AFSv1.Foundations

/-- What agents are made of: `begin` starts an operation, if the agent can; `finish` takes note of its
result, and `crash` of its loss. -/
structure Machine (Op C : Type) (R : C → Type) (α E L G : Type) where
  exec : E → (c : C) → L → G → Option (R c × L × G)
  prog : Op → Prog C R α
  begin : Op → L → Option L
  finish : Op → α → L → L
  crash : Option Op → L → L

/-- The agents' local states and running operations, and the state they share. -/
structure System (A Op C : Type) (R : C → Type) (α L G : Type) where
  shared : G
  locals : A → L
  running : A → Option (Op × Prog C R α) := fun _ => none

inductive AgentEvent (A Op E : Type) where
  | start (a : A) (op : Op)
  | call (a : A) (env : E)
  | finish (a : A)
  | crash (a : A)

/-- Whose event it is. -/
def AgentEvent.agent {A Op E : Type} : AgentEvent A Op E → A
  | .start a _ | .call a _ | .finish a | .crash a => a

/-- A complete operation of one agent, its calls answered in the given environments. -/
def session {A Op E : Type} (a : A) (op : Op) (envs : List E) : List (AgentEvent A Op E) :=
  .start a op :: envs.map (.call a) ++ [.finish a]

namespace System

variable {A Op C : Type} {R : C → Type} {α E L G : Type} [DecidableEq A]

def become (s : System A Op C R α L G) (a : A) (l : L) (running : Option (Op × Prog C R α)) : System A Op C R α L G :=
  { s with locals := Function.update s.locals a l, running := Function.update s.running a running }

variable (ℳ : Machine Op C R α E L G)

/-- `none` when the event cannot happen. -/
def step (s : System A Op C R α L G) : AgentEvent A Op E → Option (System A Op C R α L G)
  | .start a op =>
    match s.running a with
    | none => (ℳ.begin op (s.locals a)).map fun l => s.become a l (some (op, ℳ.prog op))
    | some _ => none
  | .call a env =>
    match s.running a with
    | some (op, .call c k) => (ℳ.exec env c (s.locals a) s.shared).map fun r =>
        { s.become a r.2.1 (some (op, k r.1)) with shared := r.2.2 }
    | _ => none
  | .finish a =>
    match s.running a with
    | some (op, .ret r) => some (s.become a (ℳ.finish op r (s.locals a)) none)
    | _ => none
  | .crash a => some (s.become a (ℳ.crash ((s.running a).map Prod.fst) (s.locals a)) none)

def run (s : System A Op C R α L G) : List (AgentEvent A Op E) → Option (System A Op C R α L G)
  | [] => some s
  | e :: es => (s.step ℳ e).bind fun s' => run s' es

lemma run_append (s : System A Op C R α L G) (es es' : List (AgentEvent A Op E)) :
    s.run ℳ (es ++ es') = (s.run ℳ es).bind fun s' => s'.run ℳ es' := by
  induction es generalizing s with
  | nil => rfl
  | cons e es ih =>
    simp only [List.cons_append, run, Option.bind_assoc]
    congr 1
    funext s'
    exact ih s'

@[simp] lemma become_become (s : System A Op C R α L G) (a : A) (l l' : L) (p p' : Option (Op × Prog C R α)) (g g' : G) :
    { ({ s.become a l p with shared := g } : System A Op C R α L G).become a l' p' with shared := g' } =
      { s.become a l' p' with shared := g' } := by
  simp [become]

variable {ℳ} in
/-- The calls of one agent run its program. -/
lemma run_calls {s s' : System A Op C R α L G} {a : A} {op : Op} {p : Prog C R α} {l : L} {g : G} {envs : List E} :
    run ℳ { s.become a l (some (op, p)) with shared := g } (envs.map (.call a) ++ [.finish a]) = some s' ↔
      ∃ r l' g', p.eval ℳ.exec envs l g = some (r, l', g') ∧
        s' = { s.become a (ℳ.finish op r l') none with shared := g' } := by
  induction envs generalizing p l g with
  | nil =>
    cases p with
    | ret r => simp [run, step, become, Prog.eval, eq_comm]
    | call c k => simp [run, step, become, Prog.eval]
  | cons env envs ih =>
    cases p with
    | ret r => simp [run, step, become, Prog.eval]
    | call c k =>
      have hstep : step ℳ { s.become a l (some (op, .call c k)) with shared := g } (.call a env) =
          (ℳ.exec env c l g).map fun r => { s.become a r.2.1 (some (op, k r.1)) with shared := r.2.2 } := by
        simp [step, become]
      rw [List.map_cons, List.cons_append, run, hstep]
      cases hexec : ℳ.exec env c l g with
      | none => simp [Prog.eval, hexec]
      | some r => simp [Prog.eval, hexec, ih]

variable {ℳ} in
/-- A complete operation is its program, run alone. -/
theorem run_session {s s' : System A Op C R α L G} {a : A} {op : Op} {envs : List E} :
    s.run ℳ (session a op envs) = some s' ↔ s.running a = none ∧ ∃ l r l' g', ℳ.begin op (s.locals a) = some l ∧
      (ℳ.prog op).eval ℳ.exec envs l s.shared = some (r, l', g') ∧
        s' = { s.become a (ℳ.finish op r l') none with shared := g' } := by
  rw [session, List.cons_append, run]
  cases hrun : s.running a with
  | some x => simp [step, hrun]
  | none =>
    cases hbegin : ℳ.begin op (s.locals a) with
    | none => simp [step, hrun, hbegin]
    | some l =>
      have hstep : s.step ℳ (.start a op) = some { s.become a l (some (op, ℳ.prog op)) with shared := s.shared } := by
        simp [step, hrun, hbegin, become]
      rw [hstep, Option.bind_some, run_calls]
      simp

lemma become_other (s : System A Op C R α L G) {a b : A} (hb : b ≠ a) (l : L) (running : Option (Op × Prog C R α)) (g : G) :
    ({ s.become b l running with shared := g } : System A Op C R α L G).locals a = s.locals a ∧
      ({ s.become b l running with shared := g } : System A Op C R α L G).running a = s.running a :=
  ⟨Function.update_of_ne hb.symm .., Function.update_of_ne hb.symm ..⟩

variable {ℳ} in
/-- What the others do leaves an agent alone. -/
lemma run_others {s s' : System A Op C R α L G} {a : A} {es : List (AgentEvent A Op E)} (hes : ∀ e ∈ es, e.agent ≠ a)
    (hrun : s.run ℳ es = some s') : s'.locals a = s.locals a ∧ s'.running a = s.running a := by
  induction es generalizing s with
  | nil => cases hrun; exact ⟨rfl, rfl⟩
  | cons e es ih =>
    obtain ⟨t, hstep, hrest⟩ := Option.bind_eq_some_iff.mp hrun
    have hother : e.agent ≠ a := hes e (by simp)
    have ht : t.locals a = s.locals a ∧ t.running a = s.running a := by
      cases e with
      | start b op =>
        simp only [step] at hstep
        split at hstep
        · obtain ⟨l, -, rfl⟩ := Option.map_eq_some_iff.mp hstep
          exact s.become_other hother l _ s.shared
        · cases hstep
      | call b env =>
        simp only [step] at hstep
        split at hstep
        · obtain ⟨x, -, rfl⟩ := Option.map_eq_some_iff.mp hstep
          exact s.become_other hother x.2.1 _ x.2.2
        · cases hstep
      | finish b =>
        simp only [step] at hstep
        split at hstep
        · cases hstep
          exact s.become_other hother _ none s.shared
        · cases hstep
      | crash b =>
        cases hstep
        exact s.become_other hother _ none s.shared
    obtain ⟨hlocals, hrunning⟩ := ih (fun e he => hes e (List.mem_cons_of_mem _ he)) hrest
    exact ⟨hlocals.trans ht.1, hrunning.trans ht.2⟩

/-- Every event of the run meets the condition in the state it happens in. -/
def Along (P : System A Op C R α L G → AgentEvent A Op E → Prop) (s : System A Op C R α L G) :
    List (AgentEvent A Op E) → Prop
  | [] => True
  | e :: es => P s e ∧ ∀ s', s.step ℳ e = some s' → Along P s' es

instance decidableAlong (P : System A Op C R α L G → AgentEvent A Op E → Prop) [∀ s e, Decidable (P s e)] :
    (s : System A Op C R α L G) → (es : List (AgentEvent A Op E)) → Decidable (s.Along ℳ P es)
  | _, [] => isTrue trivial
  | s, e :: es =>
    have : Decidable (∀ s', s.step ℳ e = some s' → Along ℳ P s' es) :=
      match s.step ℳ e with
      | none => isTrue nofun
      | some s' => @decidable_of_iff _ (Along ℳ P s' es)
          ⟨fun h _ hs => Option.some.inj hs ▸ h, fun h => h s' rfl⟩ (decidableAlong P s' es)
    inferInstanceAs (Decidable (P s e ∧ ∀ s', s.step ℳ e = some s' → Along ℳ P s' es))

/-- What happens to the agents' calls meets the condition. -/
def CallOk (ok : A → E → C → L → G → Prop) (s : System A Op C R α L G) : AgentEvent A Op E → Prop
  | .call a env => ∀ op c k, s.running a = some (op, .call c k) → ok a env c (s.locals a) s.shared
  | _ => True

variable {ℳ} in
lemma Along.mono {P Q : System A Op C R α L G → AgentEvent A Op E → Prop} {s : System A Op C R α L G}
    {es : List (AgentEvent A Op E)} (h : s.Along ℳ P es) (himp : ∀ s, ∀ e ∈ es, P s e → Q s e) : s.Along ℳ Q es := by
  induction es generalizing s with
  | nil => trivial
  | cons e es ih =>
    exact ⟨himp s e (by simp) h.1, fun s' hs' => ih (h.2 s' hs') fun s e he => himp s e (List.mem_cons_of_mem _ he)⟩

variable {ℳ} in
lemma Along.and {P Q : System A Op C R α L G → AgentEvent A Op E → Prop} {s : System A Op C R α L G}
    {es : List (AgentEvent A Op E)} (h : s.Along ℳ P es) (h' : s.Along ℳ Q es) :
    s.Along ℳ (fun s e => P s e ∧ Q s e) es := by
  induction es generalizing s with
  | nil => trivial
  | cons e es ih => exact ⟨⟨h.1, h'.1⟩, fun s' hs' => ih (h.2 s' hs') (h'.2 s' hs')⟩

variable {ℳ} in
lemma along_of_forall {P : System A Op C R α L G → AgentEvent A Op E → Prop} {es : List (AgentEvent A Op E)}
    (h : ∀ s, ∀ e ∈ es, P s e) (s : System A Op C R α L G) : s.Along ℳ P es := by
  induction es generalizing s with
  | nil => trivial
  | cons e es ih =>
    exact ⟨h s e (by simp), fun s' _ => ih (fun s e he => h s e (List.mem_cons_of_mem _ he)) s'⟩

variable {ℳ} in
lemma Along.append {P : System A Op C R α L G → AgentEvent A Op E → Prop} {s : System A Op C R α L G}
    {es es' : List (AgentEvent A Op E)} (h : s.Along ℳ P es) (h' : ∀ t, s.run ℳ es = some t → t.Along ℳ P es') :
    s.Along ℳ P (es ++ es') := by
  induction es generalizing s with
  | nil => exact h' s rfl
  | cons e es ih =>
    refine ⟨h.1, fun t ht => ih (h.2 t ht) fun u hu => h' u ?_⟩
    rw [run, ht]
    exact hu

variable {ℳ} in
lemma along_session {P : System A Op C R α L G → AgentEvent A Op E → Prop} {s : System A Op C R α L G} {a : A} {op : Op}
    {envs : List E} (hstart : P s (.start a op)) (hcall : ∀ t, ∀ env ∈ envs, P t (.call a env))
    (hfinish : ∀ t, P t (.finish a)) : s.Along ℳ P (session a op envs) := by
  refine ⟨hstart, fun t _ => along_of_forall (fun t e he => ?_) t⟩
  rcases List.mem_append.mp he with hcalls | hlast
  · obtain ⟨env, henv, rfl⟩ := List.mem_map.mp hcalls
    exact hcall t env henv
  · obtain rfl := List.mem_singleton.mp hlast
    exact hfinish t

variable {ℳ} in
/-- A run that gets to its end makes only steps that can happen, from states that it reaches. -/
lemma Along.reached {P : System A Op C R α L G → AgentEvent A Op E → Prop} {s s' : System A Op C R α L G}
    {es : List (AgentEvent A Op E)} (h : s.Along ℳ P es) (hrun : s.run ℳ es = some s') :
    s.Along ℳ (fun t e => P t e ∧ (∃ before, s.run ℳ before = some t) ∧ ∃ t', t.step ℳ e = some t') es := by
  suffices hall : ∀ (t : System A Op C R α L G) (before : List (AgentEvent A Op E)), s.run ℳ before = some t →
      t.Along ℳ P es → t.run ℳ es = some s' →
        t.Along ℳ (fun t e => P t e ∧ (∃ before, s.run ℳ before = some t) ∧ ∃ t', t.step ℳ e = some t') es from
    hall s [] rfl h hrun
  clear h hrun
  induction es with
  | nil => exact fun _ _ _ _ _ => trivial
  | cons e es ih =>
    intro t before hbefore h hrun
    obtain ⟨t', ht', hrest⟩ := Option.bind_eq_some_iff.mp hrun
    refine ⟨⟨h.1, ⟨before, hbefore⟩, t', ht'⟩, fun t'' ht'' => ?_⟩
    obtain rfl : t' = t'' := Option.some.inj (ht'.symm.trans ht'')
    refine ih t' (before ++ [e]) ?_ (h.2 t' ht') hrest
    rw [run_append, hbefore, Option.bind_some, run, ht', Option.bind_some, run]

/-- The call an agent makes next. -/
def next (s : System A Op C R α L G) (a : A) : Option C := (s.running a).bind fun r => r.2.next

variable (ℒ : A → Prog.Logic C R E L G) (post : A → Op → α → L → G → Prop)

/-- Every agent's invariant holds and its running operation is safe. -/
def Sound (s : System A Op C R α L G) : Prop :=
  ∀ a, (ℒ a).inv (s.next a) (s.locals a) s.shared ∧
    ∀ op p, s.running a = some (op, p) → p.Safe (ℒ a) (post a op) (s.locals a) s.shared

/-- The obligations of the invariant rule. -/
structure Obligations (ℳ : Machine Op C R α E L G) (ℒ : A → Prog.Logic C R E L G) (post : A → Op → α → L → G → Prop)
    (startOk : A → Op → L → G → Prop) (crashOk : A → Option C → L → G → Prop) : Prop where
  exec : ∀ a, (ℒ a).exec = ℳ.exec
  stable : ∀ a next l g g', (ℒ a).inv next l g → (ℒ a).rely next l g g' → (ℒ a).inv next l g'
  start : ∀ a op l l' g, (ℒ a).inv none l g → startOk a op l g → ℳ.begin op l = some l' →
    (ℒ a).inv (ℳ.prog op).next l' g ∧ (ℳ.prog op).Safe (ℒ a) (post a op) l' g
  finish : ∀ a op r l g, (ℒ a).inv none l g → post a op r l g → (ℒ a).inv none (ℳ.finish op r l) g
  crash : ∀ a next op l g, (ℒ a).inv next l g → crashOk a next l g → (ℒ a).inv none (ℳ.crash op l) g

/-- The events the rule is about: operations start, calls are answered and agents crash as allowed. -/
def Allowed (ℒ : A → Prog.Logic C R E L G) (startOk : A → Op → L → G → Prop) (crashOk : A → Option C → L → G → Prop)
    (s : System A Op C R α L G) : AgentEvent A Op E → Prop
  | .start a op => startOk a op (s.locals a) s.shared
  | .call a env => ∀ op c k, s.running a = some (op, .call c k) → (ℒ a).ok env c (s.locals a) s.shared ∧
      ∀ r l g, (ℒ a).exec env c (s.locals a) s.shared = some (r, l, g) →
        ∀ b, b ≠ a → (ℒ b).rely (s.next b) (s.locals b) s.shared g
  | .finish _ => True
  | .crash a => crashOk a (s.next a) (s.locals a) s.shared

variable {ℳ ℒ post} {startOk : A → Op → L → G → Prop} {crashOk : A → Option C → L → G → Prop}

lemma Sound.become {s : System A Op C R α L G} (h : s.Sound ℒ post) {a : A} {l : L} {running : Option (Op × Prog C R α)}
    {g : G} (hrely : ∀ b, b ≠ a → (ℒ b).rely (s.next b) (s.locals b) s.shared g)
    (hstable : ∀ b next l g g', (ℒ b).inv next l g → (ℒ b).rely next l g g' → (ℒ b).inv next l g')
    (hinv : (ℒ a).inv (running.bind fun r => r.2.next) l g)
    (hsafe : ∀ op p, running = some (op, p) → p.Safe (ℒ a) (post a op) l g) :
    Sound ℒ post { s.become a l running with shared := g } := by
  intro b
  by_cases hb : b = a
  · subst hb
    simpa [System.become, System.next] using ⟨hinv, hsafe⟩
  · have hrely := hrely b hb
    refine ⟨?_, fun op p hp => ?_⟩
    · simpa [System.become, System.next, hb] using hstable b _ _ _ _ (h b).1 hrely
    · simp only [System.become, ne_eq, hb, not_false_eq_true, Function.update_of_ne] at hp ⊢
      refine ((h b).2 op p hp).rely ?_
      simpa [System.next, hp] using hrely

/-- One event keeps all invariants and all running operations safe. -/
theorem Sound.step {s s' : System A Op C R α L G} (h : s.Sound ℒ post) (hob : Obligations ℳ ℒ post startOk crashOk)
    {e : AgentEvent A Op E} (he : Allowed ℒ startOk crashOk s e) (hs : s.step ℳ e = some s') : s'.Sound ℒ post := by
  have hrefl (b : A) : (ℒ b).rely (s.next b) (s.locals b) s.shared s.shared := (ℒ b).rely_refl _ _ _
  cases e with
  | start a op =>
    simp only [System.step] at hs
    split at hs
    · rename_i hidle
      obtain ⟨l, hl, rfl⟩ := Option.map_eq_some_iff.mp hs
      have hnext : (ℒ a).inv none (s.locals a) s.shared := by simpa [System.next, hidle] using (h a).1
      obtain ⟨hinv, hsafe⟩ := hob.start a op _ l _ hnext he hl
      exact h.become (fun b _ => hrefl b) hob.stable hinv fun op' p hp => by cases hp; exact hsafe
    · cases hs
  | call a env =>
    simp only [System.step] at hs
    split at hs
    · rename_i op c k hrun
      obtain ⟨⟨r, l, g⟩, hexec, rfl⟩ := Option.map_eq_some_iff.mp hs
      obtain ⟨hok, hothers⟩ := he op c k hrun
      rw [← hob.exec a] at hexec
      have hinv : (ℒ a).inv (some c) (s.locals a) s.shared := by simpa [System.next, hrun] using (h a).1
      have hsafe := ((h a).2 op _ hrun s.shared ((ℒ a).rely_refl _ _ _) hinv).2 env r l g hok hexec
      exact h.become (hothers r l g hexec) hob.stable hsafe.1 fun op' p hp => by cases hp; exact hsafe.2
    · cases hs
  | finish a =>
    simp only [System.step] at hs
    split at hs
    · rename_i op r hrun
      cases hs
      have hinv : (ℒ a).inv none (s.locals a) s.shared := by simpa [System.next, hrun] using (h a).1
      have hpost := (h a).2 op _ hrun s.shared ((ℒ a).rely_refl _ _ _) hinv
      exact h.become (fun b _ => hrefl b) hob.stable (hob.finish a op r _ _ hinv hpost) nofun
    · cases hs
  | crash a =>
    cases hs
    exact h.become (fun b _ => hrefl b) hob.stable (hob.crash a _ _ _ _ (h a).1 he) nofun

theorem Sound.run {s s' : System A Op C R α L G} {es : List (AgentEvent A Op E)} (h : s.Sound ℒ post)
    (hob : Obligations ℳ ℒ post startOk crashOk) (hes : s.Along ℳ (Allowed ℒ startOk crashOk) es)
    (hs : s.run ℳ es = some s') : s'.Sound ℒ post := by
  induction es generalizing s with
  | nil => cases hs; exact h
  | cons e es ih =>
    obtain ⟨s₁, hs₁, hrun⟩ := Option.bind_eq_some_iff.mp hs
    exact ih (h.step hob hes.1 hs₁) (hes.2 s₁ hs₁) hrun

/-! ### Bookkeeping -/

end System

/-- Records kept beside the agents' states, which the agents do not see. -/
structure Bookkeeping (Op C : Type) (R : C → Type) (α L X : Type) where
  begin : Op → L → X → X := fun _ _ x => x
  call : (c : C) → R c → L → X → X := fun _ _ _ x => x
  finish : Op → α → L → X → X := fun _ _ _ x => x
  crash : L → X → X := fun _ x => x

variable {A Op C : Type} {R : C → Type} {α E L G X : Type}

/-- The agents with their records. -/
def Machine.track (ℳ : Machine Op C R α E L G) (N : Bookkeeping Op C R α L X) : Machine Op C R α E (L × X) G where
  exec env c l g := (ℳ.exec env c l.1 g).map fun r => (r.1, (r.2.1, N.call c r.1 l.1 l.2), r.2.2)
  prog := ℳ.prog
  begin op l := (ℳ.begin op l.1).map fun l' => (l', N.begin op l.1 l.2)
  finish op r l := (ℳ.finish op r l.1, N.finish op r l.1 l.2)
  crash op l := (ℳ.crash op l.1, N.crash l.1 l.2)

namespace System

section Own

variable [DecidableEq A] {ℳ : Machine Op C R α E L G} {s s' : System A Op C R α L G}

/-- What relates every agent's local state to its running operation stays true if each kind of event keeps it. -/
theorem step_own {P : L → Option (Op × Prog C R α) → Prop}
    (hstart : ∀ op l l', P l none → ℳ.begin op l = some l' → P l' (some (op, ℳ.prog op)))
    (hcall : ∀ env op c k l g r l' g', P l (some (op, .call c k)) → ℳ.exec env c l g = some (r, l', g') →
      P l' (some (op, k r)))
    (hfinish : ∀ op r l, P l (some (op, .ret r)) → P (ℳ.finish op r l) none)
    (hcrash : ∀ l running, P l running → P (ℳ.crash (running.map Prod.fst) l) none)
    (hs : ∀ a, P (s.locals a) (s.running a)) {e : AgentEvent A Op E} (h : s.step ℳ e = some s') (a : A) :
    P (s'.locals a) (s'.running a) := by
  have hbecome (b : A) (l : L) (running : Option (Op × Prog C R α)) (g : G) (hl : P l running) :
      P (({ s.become b l running with shared := g } : System A Op C R α L G).locals a)
        (({ s.become b l running with shared := g } : System A Op C R α L G).running a) := by
    by_cases hb : b = a
    · subst hb
      simpa [become] using hl
    · obtain ⟨hlocals, hrunning⟩ := s.become_other hb l running g
      rw [hlocals, hrunning]
      exact hs a
  cases e with
  | start b op =>
    simp only [step] at h
    split at h
    · rename_i hidle
      obtain ⟨l, hl, rfl⟩ := Option.map_eq_some_iff.mp h
      exact hbecome b l _ s.shared (hstart op _ l (hidle ▸ hs b) hl)
    · cases h
  | call b env =>
    simp only [step] at h
    split at h
    · rename_i op c k hrunning
      obtain ⟨⟨r, l, g⟩, hexec, rfl⟩ := Option.map_eq_some_iff.mp h
      exact hbecome b l _ g (hcall env op c k _ _ r l g (hrunning ▸ hs b) hexec)
    · cases h
  | finish b =>
    simp only [step] at h
    split at h
    · rename_i op r hrunning
      cases h
      exact hbecome b _ none s.shared (hfinish op r _ (hrunning ▸ hs b))
    · cases h
  | crash b =>
    cases h
    exact hbecome b _ none s.shared (hcrash _ _ (hs b))

theorem run_own {P : L → Option (Op × Prog C R α) → Prop}
    (hstart : ∀ op l l', P l none → ℳ.begin op l = some l' → P l' (some (op, ℳ.prog op)))
    (hcall : ∀ env op c k l g r l' g', P l (some (op, .call c k)) → ℳ.exec env c l g = some (r, l', g') →
      P l' (some (op, k r)))
    (hfinish : ∀ op r l, P l (some (op, .ret r)) → P (ℳ.finish op r l) none)
    (hcrash : ∀ l running, P l running → P (ℳ.crash (running.map Prod.fst) l) none)
    (hs : ∀ a, P (s.locals a) (s.running a)) {es : List (AgentEvent A Op E)} (h : s.run ℳ es = some s') (a : A) :
    P (s'.locals a) (s'.running a) := by
  induction es generalizing s with
  | nil => cases h; exact hs a
  | cons e es ih =>
    obtain ⟨t, ht, hrun⟩ := Option.bind_eq_some_iff.mp h
    exact ih (fun b => step_own hstart hcall hfinish hcrash hs ht b) hrun

end Own

/-- The agents without their records. -/
def forget (s : System A Op C R α (L × X) G) : System A Op C R α L G :=
  { s with locals := fun a => (s.locals a).1 }

variable [DecidableEq A] {ℳ : Machine Op C R α E L G} {N : Bookkeeping Op C R α L X}

@[simp] lemma forget_become (s : System A Op C R α (L × X) G) (a : A) (l : L × X) (p : Option (Op × Prog C R α)) (g : G) :
    forget { s.become a l p with shared := g } = { s.forget.become a l.1 p with shared := g } := by
  simp only [forget, become, System.mk.injEq, true_and, and_true]
  funext b
  by_cases hb : b = a
  · subst hb
    simp
  · simp [hb]

@[simp] lemma forget_become' (s : System A Op C R α (L × X) G) (a : A) (l : L × X) (p : Option (Op × Prog C R α)) :
    (s.become a l p).forget = s.forget.become a l.1 p := s.forget_become a l p s.shared

/-- The records change nothing about what happens. -/
theorem step_forget (s : System A Op C R α (L × X) G) (e : AgentEvent A Op E) :
    (s.step (ℳ.track N) e).map forget = s.forget.step ℳ e := by
  have hrunning : s.forget.running = s.running := rfl
  cases e with
  | start a op =>
    cases hrun : s.running a with
    | some x => simp [step, hrunning, hrun]
    | none =>
      simp only [step, hrunning, hrun, Machine.track, Option.map_map]
      congr 1
      funext l
      simp
  | call a env =>
    cases hrun : s.running a with
    | none => simp [step, hrunning, hrun]
    | some x =>
      obtain ⟨op, p⟩ := x
      cases p with
      | ret r => simp [step, hrunning, hrun]
      | call c k =>
        simp only [step, hrunning, hrun, Machine.track, Option.map_map]
        congr 1
        funext r
        simp
  | finish a =>
    cases hrun : s.running a with
    | none => simp [step, hrunning, hrun]
    | some x =>
      obtain ⟨op, p⟩ := x
      cases p with
      | ret r =>
        simp only [step, hrunning, hrun, Machine.track, Option.map_some, forget_become']
        rfl
      | call c k => simp [step, hrunning, hrun]
  | crash a =>
    simp only [step, hrunning, Machine.track, Option.map_some, forget_become']
    rfl

theorem run_forget (s : System A Op C R α (L × X) G) (es : List (AgentEvent A Op E)) :
    (s.run (ℳ.track N) es).map forget = s.forget.run ℳ es := by
  induction es generalizing s with
  | nil => rfl
  | cons e es ih =>
    rw [run, run, ← step_forget (N := N), Option.map_bind, Option.bind_map]
    congr 1
    funext s'
    exact ih s'

/-- A program runs with the records as it does without them, and what its calls do not note stays as it is. -/
lemma eval_track {β : Type} (π : X → β) (hπ : ∀ c r l x, π (N.call c r l x) = π x) {p : Prog C R α} {envs : List E}
    {r : α} {l l' : L} {g g' : G} (x : X) (h : p.eval ℳ.exec envs l g = some (r, l', g')) :
    ∃ x', p.eval (ℳ.track N).exec envs (l, x) g = some (r, (l', x'), g') ∧ π x' = π x := by
  induction p generalizing envs l g x with
  | ret a =>
    obtain ⟨rfl, heq⟩ := Prog.eval_ret.mp h
    cases heq
    exact ⟨x, rfl, rfl⟩
  | call c k ih =>
    obtain ⟨env, rest, r₁, l₁, g₁, rfl, hexec, hrest⟩ := Prog.eval_call.mp h
    obtain ⟨x', heval, hx'⟩ := ih r₁ (N.call c r₁ l x) hrest
    refine ⟨x', Prog.eval_call.mpr ⟨env, rest, r₁, (l₁, N.call c r₁ l x), g₁, rfl, ?_, heval⟩, hx'.trans (hπ c r₁ l x)⟩
    simp [Machine.track, hexec]

lemma Along.track {P : System A Op C R α L G → AgentEvent A Op E → Prop} {s : System A Op C R α (L × X) G}
    {es : List (AgentEvent A Op E)} (h : s.forget.Along ℳ P es) : s.Along (ℳ.track N) (fun s e => P s.forget e) es := by
  induction es generalizing s with
  | nil => trivial
  | cons e es ih =>
    refine ⟨h.1, fun s' hs' => ih (h.2 _ ?_)⟩
    rw [← step_forget (N := N), hs', Option.map_some]

end System
end AFSv1.Foundations
