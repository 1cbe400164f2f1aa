import AFSv1.Foundations.Agents

/-! Agents whose calls take time: a call is handed over to a service that makes steps of its own and answers
later. If each call takes effect at one moment in between, the agents might as well make it at that moment. -/
namespace AFSv1.Foundations

/-- The answers that a program tells apart are those that `same` does; its calls are among `P`. -/
def Prog.Fits {C : Type} {R : C → Type} {α : Type} (P : C → Prop) (same : ∀ c, R c → R c → Prop) : Prog C R α → Prop
  | .ret _ => True
  | .call c k => P c ∧ (∀ r r', same c r r' → k r = k r') ∧ ∀ r, (k r).Fits P same

lemma Prog.Fits.bind {C : Type} {R : C → Type} {α β : Type} {P : C → Prop} {same : ∀ c, R c → R c → Prop} {p : Prog C R α}
    {f : α → Prog C R β} (h : p.Fits P same) (hf : ∀ a, (f a).Fits P same) : (p >>= f).Fits P same := by
  induction p with
  | ret a => exact hf a
  | call c k ih =>
    refine ⟨h.1, fun r r' hr => ?_, fun r => ih r (h.2.2 r)⟩
    simp only [h.2.1 r r' hr]

/-- What agents call: `exec` answers a call at once, `invoke` takes it over and `reply` answers it; `own` are the
steps that the service makes by itself, and `leave` is for an agent that has gone. -/
structure Service (A C : Type) (R : C → Type) (E J U L I : Type) where
  exec : A → E → (c : C) → L → I → Option (R c × L × I)
  invoke : A → J → (c : C) → I → Option I
  reply : A → (c : C) → I → Option (R c × I)
  own : U → I → Option I
  leave : A → I → I

inductive ServiceEvent (A Op E J U : Type) where
  | start (a : A) (op : Op)
  | call (a : A) (env : E)
  | invoke (a : A) (j : J)
  | reply (a : A)
  | finish (a : A)
  | crash (a : A)
  | own (u : U)

/-- What an event is without the service: itself, or the call that takes effect at it. -/
def ServiceEvent.Shows {A Op E E' J U : Type} : ServiceEvent A Op E' J U → AgentEvent A Op E → Prop
  | .start a op, e => e = .start a op
  | .finish a, e => e = .finish a
  | .crash a, e => e = .crash a
  | .call _ _, e | .invoke _ _, e | .reply _, e | .own _, e => ∃ a env, e = .call a env

/-- What is assumed of the events of a run. -/
structure Terms (A Op C E J U L I : Type) where
  start : A → Op → L → Prop := fun _ _ _ => True
  call : E → C → L → I → Prop := fun _ _ _ _ => True
  invoke : A → J → C → I → Prop := fun _ _ _ _ => True
  own : U → I → Prop := fun _ _ => True

namespace System

variable {A Op C : Type} {R : C → Type} {α E E' J U L G I : Type} [DecidableEq A]

variable (𝒮 : Service A C R E' J U L I) (ℳ : Machine Op C R α E L G) (T : Terms A Op C E' J U L I)

/-- A step of the agents with the service; `none` when the event cannot happen. -/
def serve (s : System A Op C R α L I) : ServiceEvent A Op E' J U → Option (System A Op C R α L I)
  | .start a op =>
    match s.running a with
    | none => (ℳ.begin op (s.locals a)).map fun l => s.become a l (some (op, ℳ.prog op))
    | some _ => none
  | .call a env =>
    match s.running a with
    | some (op, .call c k) => (𝒮.exec a env c (s.locals a) s.shared).map fun r =>
        { s.become a r.2.1 (some (op, k r.1)) with shared := r.2.2 }
    | _ => none
  | .invoke a j =>
    match s.running a with
    | some (_, .call c _) => (𝒮.invoke a j c s.shared).map fun i => { s with shared := i }
    | _ => none
  | .reply a =>
    match s.running a with
    | some (op, .call c k) => (𝒮.reply a c s.shared).map fun r =>
        { s.become a (s.locals a) (some (op, k r.1)) with shared := r.2 }
    | _ => none
  | .finish a =>
    match s.running a with
    | some (op, .ret r) => some (s.become a (ℳ.finish op r (s.locals a)) none)
    | _ => none
  | .crash a => some { s.become a (ℳ.crash ((s.running a).map Prod.fst) (s.locals a)) none with
      shared := 𝒮.leave a s.shared }
  | .own u => (𝒮.own u s.shared).map fun i => { s with shared := i }

def serveRun (s : System A Op C R α L I) : List (ServiceEvent A Op E' J U) → Option (System A Op C R α L I)
  | [] => some s
  | e :: es => (s.serve 𝒮 ℳ e).bind fun s' => serveRun s' es

/-- The event meets the assumptions. -/
def Meets (s : System A Op C R α L I) : ServiceEvent A Op E' J U → Prop
  | .start a op => T.start a op (s.locals a)
  | .call a env => ∀ c, s.next a = some c → T.call env c (s.locals a) s.shared
  | .invoke a j => ∀ c, s.next a = some c → T.invoke a j c s.shared
  | .own u => T.own u s.shared
  | .reply _ | .finish _ | .crash _ => True

def MeetsRun (s : System A Op C R α L I) : List (ServiceEvent A Op E' J U) → Prop
  | [] => True
  | e :: es => s.Meets T e ∧ ∀ s', s.serve 𝒮 ℳ e = some s' → MeetsRun s' es

instance decidableMeets [∀ a op l, Decidable (T.start a op l)] [∀ env c l i, Decidable (T.call env c l i)]
    [∀ a j c i, Decidable (T.invoke a j c i)] [∀ u i, Decidable (T.own u i)] (s : System A Op C R α L I) :
    ∀ e : ServiceEvent A Op E' J U, Decidable (s.Meets T e)
  | .start a op => inferInstanceAs (Decidable (T.start a op (s.locals a)))
  | .call a env => inferInstanceAs (Decidable (∀ c, s.next a = some c → T.call env c (s.locals a) s.shared))
  | .invoke a j => inferInstanceAs (Decidable (∀ c, s.next a = some c → T.invoke a j c s.shared))
  | .own u => inferInstanceAs (Decidable (T.own u s.shared))
  | .reply _ | .finish _ | .crash _ => isTrue trivial

instance decidableMeetsRun [∀ a op l, Decidable (T.start a op l)] [∀ env c l i, Decidable (T.call env c l i)]
    [∀ a j c i, Decidable (T.invoke a j c i)] [∀ u i, Decidable (T.own u i)] :
    ∀ (s : System A Op C R α L I) (es : List (ServiceEvent A Op E' J U)), Decidable (s.MeetsRun 𝒮 ℳ T es)
  | _, [] => isTrue trivial
  | s, e :: es =>
    have (s' : System A Op C R α L I) := decidableMeetsRun s' es
    inferInstanceAs (Decidable (s.Meets T e ∧ ∀ s', s.serve 𝒮 ℳ e = some s' → s'.MeetsRun 𝒮 ℳ T es))

/-- What is assumed of the runs without the service. -/
def Faithful (startOk : A → Op → L → Prop) (callOk : E → C → L → Prop) (t : System A Op C R α L G) :
    AgentEvent A Op E → Prop
  | .start a op => startOk a op (t.locals a)
  | .call a env => ∀ op c k, t.running a = some (op, .call c k) → callOk env c (t.locals a)
  | .finish _ | .crash _ => True

/-- For every agent the call that it has handed over, with the answer once the call has taken effect. -/
abbrev Pending (A C : Type) (R : C → Type) := A → Option ((c : C) × Option (R c))

/-- One agent with the service and without: it may have its answer before the service has given it. -/
def Ahead (x y : Option (Op × Prog C R α)) : Option ((c : C) × Option (R c)) → Prop
  | none => y = x
  | some ⟨c, none⟩ => y = x ∧ ∃ op k, x = some (op, .call c k)
  | some ⟨c, some r⟩ => ∃ op k, x = some (op, .call c k) ∧ y = some (op, k r)

variable (P : C → Prop) (same : ∀ c, R c → R c → Prop) (startOk : A → Op → L → Prop) (callOk : E → C → L → Prop)
  (Lin : I → G → Pending A C R → Prop)

/-- The obligations of the linearization rule: every call takes effect while it is handed over, at a step of the
service's own or with the answer. -/
structure Linearizes : Prop where
  start : ∀ a op l, T.start a op l → (ℳ.prog op).Fits P same ∧ startOk a op l
  exec : ∀ a env c l i g φ r l' i', P c → T.call env c l i → Lin i g φ → 𝒮.exec a env c l i = some (r, l', i') →
    φ a = none ∧ ∃ env' r' g', callOk env' c l ∧ ℳ.exec env' c l g = some (r', l', g') ∧ same c r r' ∧ Lin i' g' φ
  invoke : ∀ a j c i g φ i', P c → T.invoke a j c i → Lin i g φ → 𝒮.invoke a j c i = some i' →
    φ a = none ∧ Lin i' g (Function.update φ a (some ⟨c, none⟩))
  taken : ∀ a c i g φ r i', Lin i g φ → 𝒮.reply a c i = some (r, i') → φ a ≠ none
  reply : ∀ a c i g φ r i' o, Lin i g φ → 𝒮.reply a c i = some (r, i') → φ a = some ⟨c, o⟩ →
    (∃ r', o = some r' ∧ same c r r' ∧ Lin i' g (Function.update φ a none)) ∨
    o = none ∧ ∃ env r' g', (∀ l, callOk env c l ∧ ℳ.exec env c l g = some (r', l, g')) ∧ same c r r' ∧
      Lin i' g' (Function.update φ a none)
  own : ∀ u i g φ i', T.own u i → Lin i g φ → 𝒮.own u i = some i' → Lin i' g φ ∨
    ∃ a c env r g', φ a = some ⟨c, none⟩ ∧ (∀ l, callOk env c l ∧ ℳ.exec env c l g = some (r, l, g')) ∧
      Lin i' g' (Function.update φ a (some ⟨c, some r⟩))
  leave : ∀ a i g φ, Lin i g φ → Lin (𝒮.leave a i) g (Function.update φ a none)

/-- The agents with the service and without it. -/
structure Matches (φ : Pending A C R) (s : System A Op C R α L I) (t : System A Op C R α L G) : Prop where
  shared : Lin s.shared t.shared φ
  locals : t.locals = s.locals
  ahead : ∀ a, Ahead (s.running a) (t.running a) (φ a)
  fits : ∀ a op p, s.running a = some (op, p) → p.Fits P same

variable {𝒮 ℳ T P same startOk callOk Lin}

section Ahead

omit [DecidableEq A]

variable {x y : Option (Op × Prog C R α)} {o : Option ((c : C) × Option (R c))}

/-- Without a call handed over there is nothing to be ahead with. -/
lemma Ahead.eq (h : Ahead x y o) (ho : o = none) : y = x := by
  subst ho
  exact h

/-- An agent that is not at a call has none handed over. -/
lemma Ahead.quiet (h : Ahead x y o) (hx : ∀ op c k, x ≠ some (op, .call c k)) : o = none := by
  cases o with
  | none => rfl
  | some o =>
    obtain ⟨c, o⟩ := o
    cases o with
    | none =>
      obtain ⟨-, op, k, heq⟩ := h
      exact absurd heq (hx op c k)
    | some r =>
      obtain ⟨op, k, heq, -⟩ := h
      exact absurd heq (hx op c k)

lemma Ahead.call (h : Ahead x y o) {op : Op} {c : C} {k : R c → Prog C R α} (hx : x = some (op, .call c k))
    (ho : o ≠ none) : (o = some ⟨c, none⟩ ∧ y = x) ∨ ∃ r, o = some ⟨c, some r⟩ ∧ y = some (op, k r) := by
  subst hx
  cases o with
  | none => exact absurd rfl ho
  | some o =>
    obtain ⟨c', o⟩ := o
    cases o with
    | none =>
      obtain ⟨rfl, op', k', heq⟩ := h
      cases heq
      exact .inl ⟨rfl, rfl⟩
    | some r =>
      obtain ⟨op', k', heq, rfl⟩ := h
      cases heq
      exact .inr ⟨r, rfl, rfl⟩

/-- An agent runs the same operation with the service and without. -/
lemma Ahead.operation (h : Ahead x y o) : y.map Prod.fst = x.map Prod.fst := by
  cases o with
  | none => rw [h.eq rfl]
  | some o =>
    obtain ⟨c, o⟩ := o
    cases o with
    | none => rw [h.1]
    | some r =>
      obtain ⟨op, k, rfl, rfl⟩ := h
      rfl

end Ahead

omit [DecidableEq A] in
lemma next_of_running {s : System A Op C R α L I} {a : A} {op : Op} {c : C} {k : R c → Prog C R α}
    (h : s.running a = some (op, .call c k)) : s.next a = some c := by
  rw [next, h]
  rfl

/-- Weaker assumptions will do where an invariant makes up for them. -/
lemma MeetsRun.strengthen {T' : Terms A Op C E' J U L I} {K : System A Op C R α L I → Prop} {s : System A Op C R α L I}
    {es : List (ServiceEvent A Op E' J U)} (h : s.MeetsRun 𝒮 ℳ T es) (hs : K s)
    (hstep : ∀ s s', ∀ e ∈ es, K s → s.Meets T e → s.serve 𝒮 ℳ e = some s' → K s')
    (himp : ∀ s, ∀ e ∈ es, K s → s.Meets T e → s.Meets T' e) : s.MeetsRun 𝒮 ℳ T' es := by
  induction es generalizing s with
  | nil => trivial
  | cons e es ih =>
    refine ⟨himp s e (by simp) hs h.1, fun s' hs' => ?_⟩
    apply ih (h.2 s' hs') (hstep s s' e (by simp) hs h.1 hs')
    · exact fun t t' e he => hstep t t' e (List.mem_cons_of_mem _ he)
    · exact fun t e he => himp t e (List.mem_cons_of_mem _ he)

lemma MeetsRun.left {s : System A Op C R α L I} {es es' : List (ServiceEvent A Op E' J U)}
    (h : s.MeetsRun 𝒮 ℳ T (es ++ es')) : s.MeetsRun 𝒮 ℳ T es := by
  induction es generalizing s with
  | nil => trivial
  | cons e es ih => exact ⟨h.1, fun s' hs' => ih (h.2 s' hs')⟩

lemma MeetsRun.right {s s' : System A Op C R α L I} {es es' : List (ServiceEvent A Op E' J U)}
    (h : s.MeetsRun 𝒮 ℳ T (es ++ es')) (hs : s.serveRun 𝒮 ℳ es = some s') : s'.MeetsRun 𝒮 ℳ T es' := by
  induction es generalizing s with
  | nil =>
    cases hs
    exact h
  | cons e es ih =>
    obtain ⟨s₁, hs₁, hrest⟩ := Option.bind_eq_some_iff.mp hs
    exact ih (h.2 s₁ hs₁) hrest

lemma become_self (s : System A Op C R α L G) (a : A) : s.become a (s.locals a) (s.running a) = s := by
  simp [become]

section Step

variable {φ : Pending A C R} {s : System A Op C R α L I} {t : System A Op C R α L G} {a : A}

/-- One agent goes on, with the service and without. -/
lemma Matches.become (h : Matches P same Lin φ s t) {i : I} {g : G} {o : Option ((c : C) × Option (R c))} {l l' : L}
    {x y : Option (Op × Prog C R α)} (hshared : Lin i g (Function.update φ a o)) (hl : l' = l) (hahead : Ahead x y o)
    (hfits : ∀ op p, x = some (op, p) → p.Fits P same) :
    Matches P same Lin (Function.update φ a o) { s.become a l x with shared := i }
      { t.become a l' y with shared := g } := by
  subst hl
  refine ⟨hshared, ?_, fun b => ?_, fun b op p hp => ?_⟩
  · simp [System.become, h.locals]
  · by_cases hb : b = a
    · subst hb
      simpa [System.become] using hahead
    · simpa [System.become, hb] using h.ahead b
  · by_cases hb : b = a
    · subst hb
      exact hfits op p (by simpa [System.become] using hp)
    · exact h.fits b op p (by simpa [System.become, hb] using hp)

/-- One agent goes on with the service only. -/
lemma Matches.behind (h : Matches P same Lin φ s t) {i : I} {o : Option ((c : C) × Option (R c))}
    {x : Option (Op × Prog C R α)} (hshared : Lin i t.shared (Function.update φ a o)) (hahead : Ahead x (t.running a) o)
    (hfits : ∀ op p, x = some (op, p) → p.Fits P same) :
    Matches P same Lin (Function.update φ a o) { s.become a (s.locals a) x with shared := i } t := by
  have hnext := h.become hshared (congrFun h.locals a) hahead hfits
  rwa [become_self] at hnext

variable (startOk) in
/-- Without the service the call is made at once. -/
lemma faithful_call {env : E} {op : Op} {c : C} {k : R c → Prog C R α} {r : R c} {l : L} {g : G}
    (hrun : t.running a = some (op, .call c k)) (hok : callOk env c (t.locals a))
    (hexec : ℳ.exec env c (t.locals a) t.shared = some (r, l, g)) : t.Faithful startOk callOk (.call a env) ∧
      t.step ℳ (.call a env) = some { t.become a l (some (op, k r)) with shared := g } := by
  refine ⟨fun op' c' k' hrun' => ?_, by simp [step, hrun, hexec]⟩
  rw [hrun] at hrun'
  cases hrun'
  exact hok

/-- An operation starts, with the service and without. -/
theorem Matches.begin (h : Matches P same Lin φ s t) (hlin : Linearizes 𝒮 ℳ T P same startOk callOk Lin) {op : Op}
    {s' : System A Op C R α L I} (he : s.Meets T (.start a op)) (hs : s.serve 𝒮 ℳ (.start a op) = some s') :
    ∃ l t', ℳ.begin op (s.locals a) = some l ∧ t.step ℳ (.start a op) = some t' ∧
      t.Faithful (E := E) startOk callOk (.start a op) ∧ Matches P same Lin φ s' t' ∧
        t'.running a = some (op, ℳ.prog op) ∧ t'.locals a = l := by
  simp only [serve] at hs
  split at hs
  · rename_i hidle
    obtain ⟨l, hl, rfl⟩ := Option.map_eq_some_iff.mp hs
    obtain ⟨hfits, hstart⟩ := hlin.start a op _ he
    have hφ := (h.ahead a).quiet fun op c k => by simp [hidle]
    have hidle' : t.running a = none := ((h.ahead a).eq hφ).trans hidle
    have hlocals : t.locals a = s.locals a := congrFun h.locals a
    have hshared : Lin s.shared t.shared (Function.update φ a none) := by
      rw [← hφ, Function.update_eq_self]
      exact h.shared
    have hnext := h.become (x := some (op, ℳ.prog op)) (y := some (op, ℳ.prog op)) hshared (Eq.refl l) rfl
      fun op' p hp => by cases hp; exact hfits
    rw [← hφ, Function.update_eq_self] at hnext
    refine ⟨l, _, hl, ?_, by rwa [Faithful, hlocals], hnext, by simp [System.become], by simp [System.become]⟩
    simp only [System.step, hidle', hlocals, hl]
    rfl
  · cases hs

/-- Each step with the service is a step without it, or none. -/
theorem Matches.step (h : Matches P same Lin φ s t) (hlin : Linearizes 𝒮 ℳ T P same startOk callOk Lin)
    {e : ServiceEvent A Op E' J U} {s' : System A Op C R α L I} (he : s.Meets T e) (hs : s.serve 𝒮 ℳ e = some s') :
    ∃ φ' t', Matches P same Lin φ' s' t' ∧
      (t' = t ∨ ∃ e', e.Shows e' ∧ t.Faithful startOk callOk e' ∧ t.step ℳ e' = some t') := by
  have hlocals (a : A) : t.locals a = s.locals a := congrFun h.locals a
  have hshared (a : A) : Lin s.shared t.shared (Function.update φ a (φ a)) := by
    rw [Function.update_eq_self]
    exact h.shared
  cases e with
  | start a op =>
    obtain ⟨l, t', -, ht', hfaithful, h', -⟩ := h.begin hlin he hs
    exact ⟨φ, t', h', .inr ⟨.start a op, rfl, hfaithful, ht'⟩⟩
  | call a env =>
    simp only [serve] at hs
    split at hs
    · rename_i op c k hrun
      obtain ⟨⟨r, l, i⟩, hexec, rfl⟩ := Option.map_eq_some_iff.mp hs
      obtain ⟨hP, hblind, hfits⟩ := h.fits a op _ hrun
      obtain ⟨hφ, env', r', g, hok, hexec', hsame, hshared⟩ :=
        hlin.exec a env c _ _ _ _ _ _ _ hP (he c (next_of_running hrun)) h.shared hexec
      rw [← hlocals] at hexec' hok
      rw [← Function.update_eq_self a φ] at hshared
      have hcall := faithful_call startOk (((h.ahead a).eq hφ).trans hrun) hok hexec'
      refine ⟨_, _, h.become hshared rfl (by rw [hφ, hblind r r' hsame]; rfl) fun op' p hp => ?_,
        .inr ⟨_, ⟨_, _, rfl⟩, hcall⟩⟩
      cases hp
      exact hfits r
    · cases hs
  | invoke a j =>
    simp only [serve] at hs
    split at hs
    · rename_i op c k hrun
      obtain ⟨i, hinvoke, rfl⟩ := Option.map_eq_some_iff.mp hs
      have hfits := (h.fits a op _ hrun).1
      obtain ⟨hφ, hshared⟩ := hlin.invoke a j c _ _ _ _ hfits (he c (next_of_running hrun)) h.shared hinvoke
      have hnext := h.behind hshared ⟨(h.ahead a).eq hφ, op, k, hrun⟩ (h.fits a)
      rw [become_self] at hnext
      exact ⟨_, t, hnext, .inl rfl⟩
    · cases hs
  | reply a =>
    simp only [serve] at hs
    split at hs
    · rename_i op c k hrun
      obtain ⟨⟨r, i⟩, hreply, rfl⟩ := Option.map_eq_some_iff.mp hs
      obtain ⟨-, hblind, hfits⟩ := h.fits a op _ hrun
      have hfits' : ∀ op' p, some (op, k r) = some (op', p) → p.Fits P same := fun op' p hp => by cases hp; exact hfits r
      rcases (h.ahead a).call hrun (hlin.taken a c _ _ _ _ _ h.shared hreply) with ⟨hφ, hrun'⟩ | ⟨r', hφ, hrun'⟩
      · -- the call takes effect with its answer
        rcases hlin.reply a c _ _ _ _ _ _ h.shared hreply hφ with ⟨r', hnone, -⟩ | ⟨-, env, r', g, hexec, hsame, hshared⟩
        · cases hnone
        · have hcall := faithful_call startOk (hrun'.trans hrun) (hexec _).1 (hexec _).2
          exact ⟨_, _, h.become hshared (hlocals a) (by rw [hblind r r' hsame]; rfl) hfits', .inr ⟨_, ⟨_, _, rfl⟩, hcall⟩⟩
      · rcases hlin.reply a c _ _ _ _ _ _ h.shared hreply hφ with ⟨r'', heq, hsame, hshared⟩ | ⟨hnone, -⟩
        · cases heq
          exact ⟨_, t, h.behind hshared (by rw [hrun', hblind r r' hsame]; rfl) hfits', .inl rfl⟩
        · cases hnone
    · cases hs
  | finish a =>
    simp only [serve] at hs
    split at hs
    · rename_i op r hrun
      cases hs
      have hφ := (h.ahead a).quiet fun op c k => by simp [hrun]
      have hrun' : t.running a = some (op, .ret r) := ((h.ahead a).eq hφ).trans hrun
      refine ⟨_, _, h.become (x := none) (hshared a) rfl (by rw [hφ]; rfl) (fun op' p hp => by cases hp),
        .inr ⟨.finish a, rfl, trivial, by simp only [System.step, hrun', hlocals]; rfl⟩⟩
    · cases hs
  | crash a =>
    cases hs
    refine ⟨_, _, h.become (x := none) (hlin.leave a _ _ _ h.shared) rfl rfl (fun op' p hp => by cases hp),
      .inr ⟨.crash a, rfl, trivial, by simp only [System.step, (h.ahead a).operation, hlocals]; rfl⟩⟩
  | own u =>
    simp only [serve] at hs
    obtain ⟨i, hown, rfl⟩ := Option.map_eq_some_iff.mp hs
    rcases hlin.own u _ _ _ _ he h.shared hown with hshared | ⟨a, c, env, r, g, hφ, hexec, hshared⟩
    · exact ⟨φ, t, ⟨hshared, h.locals, h.ahead, h.fits⟩, .inl rfl⟩
    · have hahead := h.ahead a
      rw [hφ] at hahead
      obtain ⟨hrun', op, k, hrun⟩ := hahead
      have hcall := faithful_call startOk (hrun'.trans hrun) (hexec _).1 (hexec _).2
      have hnext := h.become (x := s.running a) hshared (hlocals a) ⟨op, k, hrun, rfl⟩ (h.fits a)
      rw [become_self] at hnext
      exact ⟨_, _, hnext, .inr ⟨_, ⟨_, _, rfl⟩, hcall⟩⟩

/-- The run without the service is in no state that the one with the service does not pass through. -/
theorem Matches.moments (h : Matches P same Lin φ s t) (hlin : Linearizes 𝒮 ℳ T P same startOk callOk Lin)
    {es : List (ServiceEvent A Op E' J U)} {s' : System A Op C R α L I} (hes : s.MeetsRun 𝒮 ℳ T es)
    (hs : s.serveRun 𝒮 ℳ es = some s') :
    ∃ es' φ' t', t.run ℳ es' = some t' ∧ t.Along ℳ (Faithful startOk callOk) es' ∧ Matches P same Lin φ' s' t' ∧
      (∀ e' ∈ es', ∃ e ∈ es, e.Shows e') ∧ ∀ x y, es' = x ++ y → ∃ z w u v ψ, es = z ++ w ∧
        s.serveRun 𝒮 ℳ z = some u ∧ t.run ℳ x = some v ∧ Matches P same Lin ψ u v := by
  induction es generalizing s t φ with
  | nil =>
    cases hs
    refine ⟨[], φ, t, rfl, trivial, h, by simp, fun x y hxy => ?_⟩
    obtain ⟨rfl, -⟩ := List.nil_eq_append_iff.mp hxy
    exact ⟨[], [], _, t, φ, rfl, rfl, rfl, h⟩
  | cons e es ih =>
    obtain ⟨s₁, hs₁, hrest⟩ := Option.bind_eq_some_iff.mp hs
    obtain ⟨φ₁, t₁, h₁, hstep⟩ := h.step hlin hes.1 hs₁
    obtain ⟨es', φ', t', hrun, halong, h', hshows, hmoments⟩ := ih h₁ (hes.2 s₁ hs₁) hrest
    have hshows' : ∀ e' ∈ es', ∃ e₁ ∈ e :: es, e₁.Shows e' := by
      intro e' he'
      obtain ⟨e₁, he₁, hshow⟩ := hshows e' he'
      exact ⟨e₁, List.mem_cons_of_mem _ he₁, hshow⟩
    have hlater {z : List (ServiceEvent A Op E' J U)} {u : System A Op C R α L I} (hz : s₁.serveRun 𝒮 ℳ z = some u) :
        s.serveRun 𝒮 ℳ (e :: z) = some u := by
      rw [serveRun, hs₁]
      exact hz
    rcases hstep with rfl | ⟨e', hshow, hfaithful, ht₁⟩
    · refine ⟨es', φ', t', hrun, halong, h', hshows', fun x y hxy => ?_⟩
      obtain ⟨z, w, u, v, ψ, hes', hz, hx, hmatch⟩ := hmoments x y hxy
      exact ⟨e :: z, w, u, v, ψ, by rw [hes', List.cons_append], hlater hz, hx, hmatch⟩
    · have hnext (x : List (AgentEvent A Op E)) : t.run ℳ (e' :: x) = t₁.run ℳ x := by
        rw [System.run, ht₁]
        rfl
      refine ⟨e' :: es', φ', t', by rw [hnext, hrun], ⟨hfaithful, fun t₂ ht₂ => ?_⟩, h', fun f hf => ?_, fun x y hxy => ?_⟩
      · obtain rfl : t₁ = t₂ := Option.some.inj (ht₁.symm.trans ht₂)
        exact halong
      · cases hf with
        | head => exact ⟨e, by simp, hshow⟩
        | tail _ hf => exact hshows' f hf
      · cases x with
        | nil => exact ⟨[], e :: es, s, t, φ, rfl, rfl, rfl, h⟩
        | cons f x =>
          obtain ⟨rfl, hxy'⟩ := List.cons.inj hxy
          obtain ⟨z, w, u, v, ψ, hes', hz, hx, hmatch⟩ := hmoments x y hxy'
          exact ⟨e :: z, w, u, v, ψ, by rw [hes', List.cons_append], hlater hz, by rw [hnext, hx], hmatch⟩

/-- The linearization rule: every run with the service is a run without it. -/
theorem Matches.run (h : Matches P same Lin φ s t) (hlin : Linearizes 𝒮 ℳ T P same startOk callOk Lin)
    {es : List (ServiceEvent A Op E' J U)} {s' : System A Op C R α L I} (hes : s.MeetsRun 𝒮 ℳ T es)
    (hs : s.serveRun 𝒮 ℳ es = some s') :
    ∃ es' φ' t', t.run ℳ es' = some t' ∧ t.Along ℳ (Faithful startOk callOk) es' ∧ Matches P same Lin φ' s' t' := by
  obtain ⟨es', φ', t', hrun, halong, h', -⟩ := h.moments hlin hes hs
  exact ⟨es', φ', t', hrun, halong, h'⟩

end Step

end System
end AFSv1.Foundations
