import Mathlib.Tactic

/-! Programs as trees of calls to an environment, and a program logic for them in which other agents
may change the shared state between any two calls. -/
namespace AFSv1.Foundations

/-- A program that makes calls `c : C`, each answered by a value of `R c`, and returns an `α`. -/
inductive Prog (C : Type) (R : C → Type) (α : Type) where
  | ret (a : α)
  | call (c : C) (k : R c → Prog C R α)

namespace Prog

variable {C : Type} {R : C → Type} {α β : Type}

def bind : Prog C R α → (α → Prog C R β) → Prog C R β
  | .ret a, f => f a
  | .call c k, f => .call c fun r => (k r).bind f

instance : Monad (Prog C R) where
  pure := .ret
  bind := .bind

/-- The program that makes one call and returns its answer. -/
def perform (c : C) : Prog C R (R c) := .call c .ret

@[simp] lemma pure_eq (a : α) : (pure a : Prog C R α) = .ret a := rfl

@[simp] lemma ret_bind (a : α) (f : α → Prog C R β) : (Prog.ret a >>= f) = f a := rfl

@[simp] lemma call_bind (c : C) (k : R c → Prog C R α) (f : α → Prog C R β) :
    (Prog.call c k >>= f) = .call c fun r => k r >>= f := rfl

@[simp] lemma perform_bind (c : C) (f : R c → Prog C R β) : (perform c >>= f) = .call c f := rfl

/-- The call a program makes next. -/
def next : Prog C R α → Option C
  | .ret _ => none
  | .call c _ => some c

@[simp] lemma next_ret (a : α) : (Prog.ret a : Prog C R α).next = none := rfl

@[simp] lemma next_call (c : C) (k : R c → Prog C R α) : (Prog.call c k).next = some c := rfl

variable {E L G : Type}

/-- What the programs of one agent run against: `exec` answers a call in an environment, `ok` are the
environments that occur, `rely` is what the other agents do before the next call, `inv` holds before
it, and `pre` has to hold where a call is made. -/
structure Logic (C : Type) (R : C → Type) (E L G : Type) where
  exec : E → (c : C) → L → G → Option (R c × L × G)
  ok : E → C → L → G → Prop := fun _ _ _ _ => True
  rely : Option C → L → G → G → Prop
  inv : Option C → L → G → Prop := fun _ _ _ => True
  pre : C → L → G → Prop := fun _ _ _ => True
  rely_refl : ∀ next l g, rely next l g g
  rely_trans : ∀ next l g₁ g₂ g₃, rely next l g₁ g₂ → rely next l g₂ g₃ → rely next l g₁ g₃
  inv_call : ∀ c l g, inv none l g → inv (some c) l g

variable (ℒ : Logic C R E L G)

/-- From local state `l` and shared state `g`, the program keeps `inv` after each of its calls and
ends in `post`, whatever the other agents do in between. -/
def Safe (post : α → L → G → Prop) : Prog C R α → L → G → Prop
  | .ret a, l, g => ∀ g', ℒ.rely none l g g' → ℒ.inv none l g' → post a l g'
  | .call c k, l, g => ∀ g', ℒ.rely (some c) l g g' → ℒ.inv (some c) l g' → ℒ.pre c l g' ∧
      ∀ env r l' g'', ℒ.ok env c l g' → ℒ.exec env c l g' = some (r, l', g'') →
        ℒ.inv (k r).next l' g'' ∧ Safe post (k r) l' g''

variable {ℒ} {post post' : α → L → G → Prop}

lemma Logic.inv_next {l : L} {g : G} (h : ℒ.inv none l g) (c : Option C) : ℒ.inv c l g := by
  cases c with
  | none => exact h
  | some c => exact ℒ.inv_call c l g h

lemma Safe.rely {p : Prog C R α} {l : L} {g g' : G} (h : p.Safe ℒ post l g) (hg : ℒ.rely p.next l g g') :
    p.Safe ℒ post l g' := by
  cases p with
  | ret a => exact fun g'' hg' => h g'' (ℒ.rely_trans _ _ _ _ _ hg hg')
  | call c k => exact fun g'' hg' => h g'' (ℒ.rely_trans _ _ _ _ _ hg hg')

lemma Safe.mono {p : Prog C R α} {l : L} {g : G} (h : p.Safe ℒ post l g)
    (himp : ∀ a l g, ℒ.inv none l g → post a l g → post' a l g) : p.Safe ℒ post' l g := by
  induction p generalizing l g with
  | ret a => exact fun g' hg hinv => himp a l g' hinv (h g' hg hinv)
  | call c k ih =>
    refine fun g' hg hinv => ⟨(h g' hg hinv).1, fun env r l' g'' hok hexec => ?_⟩
    obtain ⟨hinv', hsafe⟩ := (h g' hg hinv).2 env r l' g'' hok hexec
    exact ⟨hinv', ih r hsafe⟩

/-- What all calls, the program's own and the others', keep between the shared states holds between
the start and the end. -/
lemma Safe.remember {T : G → G → Prop} (htrans : ∀ g₁ g₂ g₃, T g₁ g₂ → T g₂ g₃ → T g₁ g₃)
    (hothers : ∀ next l g g', ℒ.rely next l g g' → T g g')
    (hown : ∀ env c l g r l' g', ℒ.ok env c l g → ℒ.exec env c l g = some (r, l', g') → T g g')
    {p : Prog C R α} {l : L} {g g₀ : G} (h : p.Safe ℒ post l g) (h₀ : T g₀ g) :
    p.Safe ℒ (fun a l' g' => T g₀ g' ∧ post a l' g') l g := by
  induction p generalizing l g with
  | ret a => exact fun g' hg hinv => ⟨htrans _ _ _ h₀ (hothers _ _ _ _ hg), h g' hg hinv⟩
  | call c k ih =>
    refine fun g' hg hinv => ⟨(h g' hg hinv).1, fun env r l' g'' hok hexec => ?_⟩
    obtain ⟨hinv', hsafe⟩ := (h g' hg hinv).2 env r l' g'' hok hexec
    exact ⟨hinv', ih r hsafe (htrans _ _ _ (htrans _ _ _ h₀ (hothers _ _ _ _ hg)) (hown env c l g' r l' g'' hok hexec))⟩

/-- Where there is nothing to keep, only the end matters. -/
lemma safe_of_trivial (hinv : ∀ next l g, ℒ.inv next l g) (hpre : ∀ c l g, ℒ.pre c l g) (hpost : ∀ a l g, post a l g)
    {p : Prog C R α} {l : L} {g : G} : p.Safe ℒ post l g := by
  induction p generalizing l g with
  | ret a => exact fun g' _ _ => hpost a l g'
  | call c k ih => exact fun g' _ _ => ⟨hpre c l g', fun _ r l' g'' _ _ => ⟨hinv _ l' g'', ih r⟩⟩

lemma next_bind (p : Prog C R α) (f : α → Prog C R β) :
    (∃ a, p = .ret a ∧ (p >>= f).next = (f a).next) ∨ (p >>= f).next = p.next := by
  cases p with
  | ret a => exact .inl ⟨a, rfl, rfl⟩
  | call c k => exact .inr rfl

/-- A sequence is safe if its first part establishes that the rest is. -/
theorem Safe.bind {post : β → L → G → Prop} {p : Prog C R α} {f : α → Prog C R β} {l : L} {g : G}
    (hinv : ℒ.inv p.next l g) (h : p.Safe ℒ (fun a => (f a).Safe ℒ post) l g) : (p >>= f).Safe ℒ post l g := by
  induction p generalizing l g with
  | ret a => exact h g (ℒ.rely_refl _ l g) hinv
  | call c k ih =>
    refine fun g' hg hinv' => ⟨(h g' hg hinv').1, fun env r l' g'' hok hexec => ?_⟩
    obtain ⟨hinv'', hsafe⟩ := (h g' hg hinv').2 env r l' g'' hok hexec
    refine ⟨?_, ih r hinv'' hsafe⟩
    rcases next_bind (k r) f with ⟨a, hret, -⟩ | hnext
    · rw [hret] at hinv''
      exact ℒ.inv_next hinv'' _
    · exact hnext ▸ hinv''

/-- Every call that the program may make, whatever the answers, meets the condition. -/
def Calls (P : C → Prop) : Prog C R α → Prop
  | .ret _ => True
  | .call c k => P c ∧ ∀ r, (k r).Calls P

lemma Calls.bind {P : C → Prop} {p : Prog C R α} {f : α → Prog C R β} (h : p.Calls P) (hf : ∀ a, (f a).Calls P) :
    (p >>= f).Calls P := by
  induction p with
  | ret a => exact hf a
  | call c k ih => exact ⟨h.1, fun r => ih r (h.2 r)⟩

lemma Calls.mono {P Q : C → Prop} {p : Prog C R α} (h : p.Calls P) (himp : ∀ c, P c → Q c) : p.Calls Q := by
  induction p with
  | ret a => trivial
  | call c k ih => exact ⟨himp c h.1, fun r => ih r (h.2 r)⟩

/-- A program is safe if each of its calls keeps a fact that others leave alone. -/
theorem Calls.safe {P : C → Prop} {J : L → G → Prop} (hrely : ∀ next l g g', J l g → ℒ.rely next l g g' → J l g')
    (hinv : ∀ next l g, J l g → ℒ.inv next l g) (hpre : ∀ c l g, P c → J l g → ℒ.pre c l g)
    (hcall : ∀ env c l g r l' g', P c → J l g → ℒ.ok env c l g → ℒ.exec env c l g = some (r, l', g') → J l' g')
    {p : Prog C R α} {l : L} {g : G} (hl : J l g) (h : p.Calls P) : p.Safe ℒ (fun _ => J) l g := by
  induction p generalizing l g with
  | ret a => exact fun g' hg _ => hrely _ _ _ _ hl hg
  | call c k ih =>
    intro g' hg _
    have hl' := hrely _ _ _ _ hl hg
    refine ⟨hpre c l g' h.1 hl', fun env r l' g'' hok hexec => ?_⟩
    have hl'' := hcall env c l g' r l' g'' h.1 hl' hok hexec
    exact ⟨hinv _ _ _ hl'', ih r hl'' (h.2 r)⟩

/-! ### One program alone -/

/-- The result of a program whose calls are answered one after the other in the given environments. -/
def eval (exec : E → (c : C) → L → G → Option (R c × L × G)) : Prog C R α → List E → L → G → Option (α × L × G)
  | .ret a, [], l, g => some (a, l, g)
  | .ret _, _ :: _, _, _ => none
  | .call _ _, [], _, _ => none
  | .call c k, env :: envs, l, g => (exec env c l g).bind fun r => (k r.1).eval exec envs r.2.1 r.2.2

variable {exec : E → (c : C) → L → G → Option (R c × L × G)} {l : L} {g : G} {envs : List E}

lemma eval_ret {a : α} {x : α × L × G} : (Prog.ret a).eval exec envs l g = some x ↔ envs = [] ∧ x = (a, l, g) := by
  cases envs <;> simp [eval, eq_comm]

lemma eval_call {c : C} {k : R c → Prog C R α} {x : α × L × G} :
    (Prog.call c k).eval exec envs l g = some x ↔ ∃ env rest r l' g', envs = env :: rest ∧
      exec env c l g = some (r, l', g') ∧ (k r).eval exec rest l' g' = some x := by
  cases envs with
  | nil => simp [eval]
  | cons env rest => simp [eval, Option.bind_eq_some_iff]

/-- Alone, a sequence is the first part and then the second. -/
lemma eval_bind {p : Prog C R α} {f : α → Prog C R β} {x : β × L × G} :
    (p >>= f).eval exec envs l g = some x ↔ ∃ envs₁ envs₂ a l' g', envs = envs₁ ++ envs₂ ∧
      p.eval exec envs₁ l g = some (a, l', g') ∧ (f a).eval exec envs₂ l' g' = some x := by
  induction p generalizing envs l g with
  | ret a =>
    rw [ret_bind]
    constructor
    · exact fun h => ⟨[], envs, a, l, g, rfl, rfl, h⟩
    · rintro ⟨envs₁, envs₂, a', l', g', rfl, h, hx⟩
      obtain ⟨rfl, heq⟩ := eval_ret.mp h
      cases heq
      exact hx
  | call c k ih =>
    rw [call_bind, eval_call]
    constructor
    · rintro ⟨env, rest, r, l', g', rfl, hexec, h⟩
      obtain ⟨envs₁, envs₂, a, l'', g'', rfl, h₁, h₂⟩ := (ih r).mp h
      exact ⟨env :: envs₁, envs₂, a, l'', g'', rfl, eval_call.mpr ⟨env, envs₁, r, l', g', rfl, hexec, h₁⟩, h₂⟩
    · rintro ⟨envs₁, envs₂, a, l'', g'', rfl, h₁, h₂⟩
      obtain ⟨env, rest, r, l', g', rfl, hexec, h⟩ := eval_call.mp h₁
      exact ⟨env, rest ++ envs₂, r, l', g', rfl, hexec, (ih r).mpr ⟨rest, envs₂, a, l'', g'', rfl, h, h₂⟩⟩

/-- What is safe among others is safe alone. -/
theorem Safe.eval {p : Prog C R α} {a : α} {l l' : L} {g g' : G} {envs : List E} (h : p.Safe ℒ post l g)
    (hinv : ℒ.inv p.next l g) (hok : ∀ env ∈ envs, ∀ c l g, ℒ.ok env c l g)
    (heval : p.eval ℒ.exec envs l g = some (a, l', g')) : ℒ.inv none l' g' ∧ post a l' g' := by
  induction p generalizing envs l g with
  | ret b =>
    obtain ⟨rfl, heq⟩ := eval_ret.mp heval
    cases heq
    exact ⟨hinv, h _ (ℒ.rely_refl _ _ _) hinv⟩
  | call c k ih =>
    obtain ⟨env, rest, r, l₁, g₁, rfl, hexec, hrest⟩ := eval_call.mp heval
    obtain ⟨hinv₁, hsafe⟩ := (h g (ℒ.rely_refl _ l g) hinv).2 env r l₁ g₁ (hok env (by simp) c l g) hexec
    exact ih r hsafe hinv₁ (fun env henv => hok env (List.mem_cons_of_mem _ henv)) hrest

/-- In admissible environments the program can run to its end, and whenever it does, it ends in `post`. -/
def Total (exec : E → (c : C) → L → G → Option (R c × L × G)) (ok : E → Prop) (post : α → L → G → Prop)
    (p : Prog C R α) (l : L) (g : G) : Prop :=
  (∃ envs x, (∀ env ∈ envs, ok env) ∧ p.eval exec envs l g = some x) ∧
    ∀ envs a l' g', (∀ env ∈ envs, ok env) → p.eval exec envs l g = some (a, l', g') → post a l' g'

/-- If each call is answered in some environment, the program can run to its end. -/
theorem Safe.exists_eval {ok : E → Prop} (hpre : ∀ c l g, ℒ.pre c l g →
      ∃ env r l' g', ok env ∧ ℒ.ok env c l g ∧ ℒ.exec env c l g = some (r, l', g'))
    {p : Prog C R α} (h : p.Safe ℒ post l g) (hinv : ℒ.inv p.next l g) :
    ∃ envs x, (∀ env ∈ envs, ok env) ∧ p.eval ℒ.exec envs l g = some x := by
  induction p generalizing l g with
  | ret a => exact ⟨[], (a, l, g), by simp, rfl⟩
  | call c k ih =>
    obtain ⟨hc, hnext⟩ := h g (ℒ.rely_refl _ l g) hinv
    obtain ⟨env, r, l', g', hok, hokc, hexec⟩ := hpre c l g hc
    obtain ⟨hinv', hsafe⟩ := hnext env r l' g' hokc hexec
    obtain ⟨envs, x, henvs, heval⟩ := ih r hsafe hinv'
    refine ⟨env :: envs, x, by simpa [hok] using henvs, ?_⟩
    rw [Prog.eval, hexec]
    exact heval

end Prog
end AFSv1.Foundations
