import AFSv1.Foundations.Service

/-! What one operation of an agent ends in while the others go on: facts about its end can refer to the states that
the system has passed through meanwhile. The invariants are taken from the safety of the programs. -/
namespace AFSv1.Foundations

namespace Prog

variable {C : Type} {R : C → Type} {α β E L G : Type}

/-- If the invariant is kept and the shared state stays in `V`, the program ends in `post`. -/
def Ends (ℒ : Logic C R E L G) (V : G → Prop) (post : α → L → G → Prop) : Prog C R α → L → G → Prop
  | .ret a, l, g => ∀ g', ℒ.rely none l g g' → ℒ.inv none l g' → V g' → post a l g'
  | .call c k, l, g => ∀ g', ℒ.rely (some c) l g g' → ℒ.inv (some c) l g' → V g' →
      ∀ env r l' g'', ℒ.ok env c l g' → ℒ.exec env c l g' = some (r, l', g'') →
        ℒ.inv (k r).next l' g'' → V g'' → Ends ℒ V post (k r) l' g''

variable {ℒ : Logic C R E L G} {V : G → Prop} {post post' : α → L → G → Prop} {l : L} {g g' : G}

lemma Ends.rely {p : Prog C R α} (h : p.Ends ℒ V post l g) (hg : ℒ.rely p.next l g g') : p.Ends ℒ V post l g' := by
  cases p with
  | ret a => exact fun g'' hg' => h g'' (ℒ.rely_trans _ _ _ _ _ hg hg')
  | call c k => exact fun g'' hg' => h g'' (ℒ.rely_trans _ _ _ _ _ hg hg')

lemma Safe.ends {p : Prog C R α} (h : p.Safe ℒ post l g) : p.Ends ℒ V post l g := by
  induction p generalizing l g with
  | ret a => exact fun g' hg hinv _ => h g' hg hinv
  | call c k ih =>
    intro g' hg hinv _ env r l' g'' hok hexec _ _
    exact ih r ((h g' hg hinv).2 env r l' g'' hok hexec).2

lemma Ends.mono {p : Prog C R α} (h : p.Ends ℒ V post l g)
    (himp : ∀ a l g, ℒ.inv none l g → V g → post a l g → post' a l g) : p.Ends ℒ V post' l g := by
  induction p generalizing l g with
  | ret a => exact fun g' hg hinv hV => himp a l g' hinv hV (h g' hg hinv hV)
  | call c k ih =>
    intro g' hg hinv hV env r l' g'' hok hexec hinv' hV'
    exact ih r (h g' hg hinv hV env r l' g'' hok hexec hinv' hV')

/-- Where the invariant is the same before each call. -/
lemma Ends.bind {post : β → L → G → Prop} {p : Prog C R α} {f : α → Prog C R β}
    (hnone : ∀ next l g, ℒ.inv next l g → ℒ.inv none l g) (hinv : ℒ.inv none l g) (hV : V g)
    (h : p.Ends ℒ V (fun a => (f a).Ends ℒ V post) l g) : (p >>= f).Ends ℒ V post l g := by
  induction p generalizing l g with
  | ret a => exact h g (ℒ.rely_refl _ l g) hinv hV
  | call c k ih =>
    intro g' hg hinv' hV' env r l' g'' hok hexec hinv'' hV''
    have hinv₁ := hnone _ _ _ hinv''
    exact ih r hinv₁ hV'' (h g' hg hinv' hV' env r l' g'' hok hexec (ℒ.inv_next hinv₁ _) hV'')

end Prog

namespace System

variable {A Op C : Type} {R : C → Type} {α E L G : Type} [DecidableEq A]

/-- The run passes through a state with this shared state. -/
def Passes (ℳ : Machine Op C R α E L G) (s : System A Op C R α L G) (es : List (AgentEvent A Op E)) (g : G) : Prop :=
  ∃ x y t, es = x ++ y ∧ s.run ℳ x = some t ∧ t.shared = g

variable {ℳ : Machine Op C R α E L G} {ℒ : A → Prog.Logic C R E L G} {post : A → Op → α → L → G → Prop}
  {startOk : A → Op → L → G → Prop} {crashOk : A → Option C → L → G → Prop}

/-- An event of another agent leaves an agent to itself and keeps to what the agent relies on. -/
lemma step_away {s s' : System A Op C R α L G} {e : AgentEvent A Op E} {a : A} (he : Allowed ℒ startOk crashOk s e)
    (hexec : ∀ b, (ℒ b).exec = ℳ.exec) (hs : s.step ℳ e = some s') (ha : e.agent ≠ a) :
    s'.running a = s.running a ∧ s'.locals a = s.locals a ∧
      (ℒ a).rely (s.next a) (s.locals a) s.shared s'.shared := by
  have hrefl : (ℒ a).rely (s.next a) (s.locals a) s.shared s.shared := (ℒ a).rely_refl _ _ _
  cases e with
  | start b op =>
    simp only [System.step] at hs
    split at hs
    · obtain ⟨l, -, rfl⟩ := Option.map_eq_some_iff.mp hs
      obtain ⟨hlocals, hrunning⟩ := s.become_other ha l (some (op, ℳ.prog op)) s.shared
      exact ⟨hrunning, hlocals, hrefl⟩
    · cases hs
  | call b env =>
    simp only [System.step] at hs
    split at hs
    · rename_i op c k hrun
      obtain ⟨⟨r, l, g⟩, hcall, rfl⟩ := Option.map_eq_some_iff.mp hs
      obtain ⟨hlocals, hrunning⟩ := s.become_other ha l (some (op, k r)) g
      exact ⟨hrunning, hlocals, (he op c k hrun).2 r l g (by rw [hexec b, hcall]) a (Ne.symm ha)⟩
    · cases hs
  | finish b =>
    simp only [System.step] at hs
    split at hs
    · rename_i op r hrun
      cases hs
      obtain ⟨hlocals, hrunning⟩ := s.become_other ha (ℳ.finish op r (s.locals b)) none s.shared
      exact ⟨hrunning, hlocals, hrefl⟩
    · cases hs
  | crash b =>
    cases hs
    obtain ⟨hlocals, hrunning⟩ :=
      s.become_other ha (ℳ.crash ((s.running b).map Prod.fst) (s.locals b)) none s.shared
    exact ⟨hrunning, hlocals, hrefl⟩

/-- An agent's program is followed through a run in which the agent makes calls only. -/
theorem Sound.follow {V : G → Prop} {post' : α → L → G → Prop} {s s' : System A Op C R α L G}
    {es : List (AgentEvent A Op E)} (h : s.Sound ℒ post) (hob : Obligations ℳ ℒ post startOk crashOk)
    (hes : s.Along ℳ (Allowed ℒ startOk crashOk) es) (hs : s.run ℳ es = some s')
    (hV : ∀ g, s.Passes ℳ es g → V g) {a : A} {op : Op} {p : Prog C R α} (hrun : s.running a = some (op, p))
    (hbusy : ∀ e ∈ es, e.agent = a → ∃ env, e = .call a env) (hends : p.Ends (ℒ a) V post' (s.locals a) s.shared) :
    s'.Sound ℒ post ∧ V s'.shared ∧
      ∃ p', s'.running a = some (op, p') ∧ p'.Ends (ℒ a) V post' (s'.locals a) s'.shared := by
  induction es generalizing s p with
  | nil =>
    cases hs
    exact ⟨h, hV _ ⟨[], [], _, rfl, rfl, rfl⟩, p, hrun, hends⟩
  | cons e es ih =>
    obtain ⟨s₁, hs₁, hrest⟩ := Option.bind_eq_some_iff.mp hs
    have hlater (g : G) (hg : s₁.Passes ℳ es g) : V g := by
      obtain ⟨x, y, t, hes', hx, rfl⟩ := hg
      refine hV _ ⟨e :: x, y, t, by rw [hes', List.cons_append], ?_, rfl⟩
      rw [System.run, hs₁]
      exact hx
    have hV₀ : V s.shared := hV _ ⟨[], e :: es, s, rfl, rfl, rfl⟩
    have hV₁ : V s₁.shared := hlater _ ⟨[], es, s₁, rfl, rfl, rfl⟩
    have h₁ := h.step hob hes.1 hs₁
    suffices hnext : ∃ p₁, s₁.running a = some (op, p₁) ∧ p₁.Ends (ℒ a) V post' (s₁.locals a) s₁.shared by
      obtain ⟨p₁, hrun₁, hends₁⟩ := hnext
      exact ih h₁ (hes.2 s₁ hs₁) hrest hlater hrun₁ (fun e' he' => hbusy e' (List.mem_cons_of_mem _ he')) hends₁
    by_cases ha : e.agent = a
    · obtain ⟨env, rfl⟩ := hbusy e (by simp) ha
      have hs₁' := hs₁
      simp only [System.step] at hs₁'
      split at hs₁'
      · rename_i op' c k hcall
        obtain ⟨⟨r, l, g⟩, hexec, rfl⟩ := Option.map_eq_some_iff.mp hs₁'
        rw [hrun] at hcall
        cases hcall
        have hinv : (ℒ a).inv (some c) (s.locals a) s.shared := by simpa [System.next, hrun] using (h a).1
        have hinv₁ : (ℒ a).inv (k r).next l g := by simpa [System.next, System.become] using (h₁ a).1
        rw [← hob.exec a] at hexec
        refine ⟨k r, by simp [System.become], ?_⟩
        have hk := hends s.shared ((ℒ a).rely_refl _ _ _) hinv hV₀ env r l g (hes.1 op c k hrun).1 hexec hinv₁ hV₁
        simpa [System.become] using hk
      · cases hs₁'
    · obtain ⟨hrunning, hlocals, hrely⟩ := step_away hes.1 hob.exec hs₁ ha
      refine ⟨p, hrunning.trans hrun, ?_⟩
      rw [hlocals]
      refine hends.rely ?_
      simpa [System.next, hrun] using hrely

/-- What the program has come to when it returns. -/
theorem Sound.returns {V : G → Prop} {post' : α → L → G → Prop} {s s' : System A Op C R α L G}
    {es : List (AgentEvent A Op E)} (h : s.Sound ℒ post) (hob : Obligations ℳ ℒ post startOk crashOk)
    (hes : s.Along ℳ (Allowed ℒ startOk crashOk) es) (hs : s.run ℳ es = some s')
    (hV : ∀ g, s.Passes ℳ es g → V g) {a : A} {op op' : Op} {p : Prog C R α} {r : α} (hrun : s.running a = some (op, p))
    (hbusy : ∀ e ∈ es, e.agent = a → ∃ env, e = .call a env) (hends : p.Ends (ℒ a) V post' (s.locals a) s.shared)
    (hret : s'.running a = some (op', .ret r)) : post' r (s'.locals a) s'.shared := by
  obtain ⟨h', hV', p', hrun', hends'⟩ := h.follow hob hes hs hV hrun hbusy hends
  rw [hrun'] at hret
  cases hret
  have hinv : (ℒ a).inv none (s'.locals a) s'.shared := by simpa [System.next, hrun'] using (h' a).1
  exact hends' s'.shared ((ℒ a).rely_refl _ _ _) hinv hV'

end System
end AFSv1.Foundations
