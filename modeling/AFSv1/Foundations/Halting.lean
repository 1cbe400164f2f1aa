import Mathlib.Tactic

/-! A machine that gets one input at each step. It halts if every run on admissible inputs comes to a
final state, in any number of steps. -/
namespace AFSv1.Foundations

variable {E S : Type}

def steps (next : E → S → Option S) : List E → S → Option S
  | [], s => some s
  | e :: es, s => (next e s).bind (steps next es)

/-- The machine halts in `post`, whatever admissible inputs it gets. -/
inductive Halts (next : E → S → Option S) (ok : E → Prop) (post : S → Prop) : S → Prop
  | final {s : S} (hfinal : ∀ e, next e s = none) (hpost : post s) : Halts next ok post s
  | step {s : S} (hsome : ∀ e, ok e → ∃ s', next e s = some s')
      (hnext : ∀ e s', ok e → next e s = some s' → Halts next ok post s') : Halts next ok post s

namespace Halts

variable {next : E → S → Option S} {ok : E → Prop} {post : S → Prop} {s s' : S}

/-- A step whose result is known. -/
lemma of_eq (f : E → S) (hf : ∀ e, ok e → next e s = some (f e)) (h : ∀ e, ok e → Halts next ok post (f e)) :
    Halts next ok post s := by
  refine .step (fun e he => ⟨f e, hf e he⟩) fun e s' he hs => ?_
  rw [hf e he, Option.some.injEq] at hs
  exact hs ▸ h e he

/-- Every complete run ends in `post`. -/
theorem post_of_steps (h : Halts next ok post s) {es : List E} (hes : ∀ e ∈ es, ok e) (hok : ∃ e, ok e)
    (hsteps : steps next es s = some s') (hfinal : ∀ e, next e s' = none) : post s' := by
  induction h generalizing es with
  | final hend hpost =>
    cases es with
    | nil =>
      cases hsteps
      exact hpost
    | cons e es => simp [steps, hend] at hsteps
  | step hsome hnext ih =>
    cases es with
    | nil =>
      cases hsteps
      obtain ⟨e, he⟩ := hok
      obtain ⟨s₁, hs₁⟩ := hsome e he
      simp [hfinal] at hs₁
    | cons e es =>
      obtain ⟨s₁, hs₁, hsteps⟩ := Option.bind_eq_some_iff.mp hsteps
      exact ih e s₁ (hes e (by simp)) hs₁ (fun e he => hes e (by simp [he])) hsteps

/-- There is a complete run. -/
theorem exists_steps (h : Halts next ok post s) {e : E} (he : ok e) :
    ∃ n s', steps next (List.replicate n e) s = some s' ∧ (∀ e, next e s' = none) ∧ post s' := by
  induction h with
  | @final s hend hpost => exact ⟨0, s, rfl, hend, hpost⟩
  | step hsome hnext ih =>
    obtain ⟨s₁, hs₁⟩ := hsome e he
    obtain ⟨n, s', hsteps, hfinal, hpost⟩ := ih e s₁ he hs₁
    refine ⟨n + 1, s', ?_, hfinal, hpost⟩
    rw [List.replicate_succ, steps, hs₁]
    exact hsteps

end Halts
end AFSv1.Foundations
