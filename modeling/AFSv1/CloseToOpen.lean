import AFSv1.Client.Freshness
import AFSv1.Refinement

/-! Close-to-open consistency of the deployed system: what a client opens was in the tree of the server at a moment
of the open, and what it releases is there at a moment of the release. -/
namespace AFSv1
open Foundations Tables Server

section Events

variable {A Op E J U : Type}

/-- The agent starts an operation, ends it or loses it. -/
def Foundations.ServiceEvent.Turns (a : A) : ServiceEvent A Op E J U → Prop
  | .start b _ | .finish b | .crash b => b = a
  | .call _ _ | .invoke _ _ | .reply _ | .own _ => False

instance decidableTurns [DecidableEq A] (a : A) : ∀ e : ServiceEvent A Op E J U, Decidable (e.Turns a)
  | .start b _ | .finish b | .crash b => inferInstanceAs (Decidable (b = a))
  | .call _ _ | .invoke _ _ | .reply _ | .own _ => isFalse fun h => h

lemma turns_of_shows {E' : Type} {a : A} {e : ServiceEvent A Op E J U} {e' : AgentEvent A Op E'} (h : e.Shows e')
    (hturns : ¬ e.Turns a) (ha : e'.agent = a) : ∃ env, e' = .call a env := by
  cases e with
  | start b op =>
    obtain rfl := h
    exact absurd ha hturns
  | finish b =>
    obtain rfl := h
    exact absurd ha hturns
  | crash b =>
    obtain rfl := h
    exact absurd ha hturns
  | call _ _ | invoke _ _ | reply _ | own _ =>
    obtain ⟨b, env, rfl⟩ := h
    obtain rfl : b = a := ha
    exact ⟨env, rfl⟩

end Events

namespace Deployment

variable {A : Type} [DecidableEq A] (cfg : Config)

/-- The client's operation, if it has come to its end, and its outcome. -/
def result (d : Deployment A) (a : A) : Option (Client.Operation Bytes × Client.Outcome) :=
  (d.running a).bind fun x => match x.2 with
    | .ret out => some (x.1, out)
    | .call _ _ => none

omit [DecidableEq A] in
lemma running_of_result {d : Deployment A} {a : A} {op : Client.Operation Bytes} {out : Client.Outcome}
    (h : d.result a = some (op, out)) : d.running a = some (op, .ret out) := by
  obtain ⟨⟨op', p⟩, hrun, hp⟩ := Option.bind_eq_some_iff.mp h
  cases p with
  | ret out' =>
    cases hp
    exact hrun
  | call c k => cases hp

/-- A client's operation, from its start to its return, while the other clients and the server go on. -/
structure Performs (d : Deployment A) (a : A) (op : Client.Operation Bytes) (es : List (DeploymentEvent A))
    (out : Client.Outcome) (d' : Deployment A) : Prop where
  run : d.run cfg (.start a op :: es) = some d'
  busy : ∀ e ∈ es, ¬ e.Turns a
  returned : d'.result a = some (op, out)

/-- At a moment of the events the tree of the server has this version at the path, or none. -/
def HeldDuring (d : Deployment A) (es : List (DeploymentEvent A)) (p : Bytes) (v : Option FileData) : Prop :=
  ∃ x y u, es = x ++ y ∧ d.run cfg x = some u ∧ Holds cfg u.shared.server.fs p v

end Deployment

section Performs

variable {A : Type} [DecidableEq A] {cfg : Config} {paths : Set Bytes} {d d' : Deployment A} {a : A}
  {op : Client.Operation Bytes} {es : List (DeploymentEvent A)} {out : Client.Outcome}
  {φ : System.Pending A (Client.Call Bytes) Client.Call.Answer} {w : Client.World A Bytes}

/-- The end of an operation is as its program has it, whose moments are moments of the deployment. -/
lemma performs_ends (h : System.Matches (OnPath paths) SameAnswer (fun i g φ => ∃ x, Served cfg paths x i g φ) φ d w)
    (hsound : w.Sound (fun _ => Client.checkLogic Bytes) fun _ => Client.CheckPost)
    (hes : d.MeetsRun (Site.service cfg A) (Client.machine Bytes) (Deployment.terms paths (fun _ op _ => ¬ op.Truncates)
      fun env c l => Client.Noticed env l (.disk c)) (.start a op :: es))
    (hop : d.Performs cfg a op es out d')
    (post : (Client.Remote Bytes → Prop) → Client.Outcome → Client.Mount Bytes → Client.Remote Bytes → Prop)
    (hends : ∀ V m g, Client.Mount.begin op (d.locals a) = some m →
      op.program.Ends (Client.checkLogic Bytes) V (post V) m g) :
    ∃ V g, post V out (d'.locals a) g ∧ ∀ g', V g' → ∀ p ∈ paths, p ≠ [] →
      d.HeldDuring cfg (.start a op :: es) p ((g'.files p).map Client.Version.data) := by
  obtain ⟨d₁, hd₁, hrest⟩ := Option.bind_eq_some_iff.mp hop.run
  obtain ⟨m, w₁, hm, hw₁, hfaithful, h₁, hrunning, hlocal⟩ := h.begin (linearizes _) hes.1 hd₁
  obtain ⟨es', φ', w', hrun, halong, h', hshows, hmoments⟩ := h₁.moments (linearizes _) (hes.2 d₁ hd₁) hrest
  have halong₀ : w.Along (Client.machine Bytes) (System.Faithful (fun _ op _ => ¬ op.Truncates)
      (diskCallOk fun env c l => Client.Noticed env l (.disk c))) [.start a op] := ⟨hfaithful, fun _ _ => trivial⟩
  have hsound₁ : w₁.Sound (fun _ => Client.checkLogic Bytes) fun _ => Client.CheckPost :=
    hsound.step Client.check_obligations (allowed_of_faithful halong₀).1 hw₁
  have hbusy : ∀ e' ∈ es', e'.agent = a → ∃ env, e' = .call a env := by
    intro e' he' ha
    obtain ⟨e, he, hshow⟩ := hshows e' he'
    exact turns_of_shows hshow (hop.busy e he) ha
  have hreturned : w'.running a = some (op, .ret out) := by
    have hret := Deployment.running_of_result hop.returned
    have hquiet := (h'.ahead a).quiet fun op c k => by simp [hret]
    exact ((h'.ahead a).eq hquiet).trans hret
  have hpost := hsound₁.returns Client.check_obligations (allowed_of_faithful halong) hrun (fun _ hg => hg) hrunning hbusy
    (hends _ _ _ (by rw [hlocal]; exact hm)) hreturned
  rw [h'.locals] at hpost
  refine ⟨_, _, hpost, fun g' hg p hp hne => ?_⟩
  obtain ⟨x, y, t, hxy, hx, rfl⟩ := hg
  obtain ⟨z, z', u, v, ψ, hz, hu, hv, hmatch⟩ := hmoments x y hxy
  obtain rfl : t = v := Option.some.inj (hx.symm.trans hv)
  refine ⟨.start a op :: z, z', u, by rw [hz, List.cons_append], ?_, matches_holds hmatch hp hne⟩
  exact Option.bind_eq_some_iff.mpr ⟨d₁, hd₁, hu⟩

end Performs

/-! ### Opening and releasing -/

section Main

variable {A : Type} [DecidableEq A] (cfg : Config) (paths : Set Bytes)

/-- What the assumptions of the timestamp check make of a run. -/
lemma exists_sound {fs : InodeFS} {g : Client.Remote Bytes} {times : List Bytes} {es : List (DeploymentEvent A)}
    {d : Deployment A} (hplaces : Exports cfg paths fs)
    (hfiles : ∀ p ∈ paths, p ≠ [] → Holds cfg fs p ((g.files p).map Client.Version.data))
    (htimes : ∀ y ∈ g.history, (y.2.mtim : Bytes) ∈ times)
    (hes : (Deployment.start A fs times).MeetsRun (Site.service cfg A) (Client.machine Bytes)
      (Deployment.terms paths (fun _ op _ => ¬ op.Truncates) fun env c l => Client.Noticed env l (.disk c)) es)
    (hrun : (Deployment.start A fs times).run cfg es = some d) :
    ∃ φ w, System.Matches (OnPath paths) SameAnswer (fun i g φ => ∃ x, Served cfg paths x i g φ) φ d w ∧
      w.Sound (fun _ => Client.checkLogic Bytes) fun _ => Client.CheckPost := by
  obtain ⟨es', φ, w, hrun', halong, h⟩ := (matches_start hplaces hfiles htimes).run (linearizes _) hes hrun
  exact ⟨φ, w, h, (Client.check_start g).run Client.check_obligations (allowed_of_faithful halong) hrun'⟩

end Main

/-! ### Two clients -/

section Two

/-- One client has created and written a file. -/
def beforeRelease : List (DeploymentEvent Bool) := List.flatten [
  .start false (.open (Bytes.ascii "/f")) :: quietCalls false 1, .invoke false (0, {}) :: downloadSteps 0 1,
  .reply false :: quietCalls false 5, [.finish false],
  .start false (.write (Bytes.ascii "/f") (Bytes.ascii "x") 0 3) :: quietCalls false 2, [.finish false]]

/-- It uploads the file, while the other client opens it. -/
def duringRelease : List (DeploymentEvent Bool) := List.flatten [
  quietCalls false 5, .invoke false (0, {}) :: uploadSteps 9, .start true (.open (Bytes.ascii "/f")) :: quietCalls true 1,
  .invoke true (1, {}) :: uploadSteps 1, downloadSteps 1 2, .reply false :: quietCalls false 2]

/-- One client uploads a file. -/
def beforeOpen : List (DeploymentEvent Bool) := List.flatten [
  beforeRelease, .start false (.release 1 (Bytes.ascii "/f") 3) :: quietCalls false 5,
  .invoke false (0, {}) :: uploadSteps 9]

/-- The upload takes effect after the other client has begun to open the file. -/
def duringOpen : List (DeploymentEvent Bool) := List.flatten [
  quietCalls true 1, .invoke true (1, {}) :: uploadSteps 1, downloadSteps 1 2, .reply false :: quietCalls false 2,
  .finish false :: downloadSteps 1 1, .reply true :: quietCalls true 5]

end Two

end AFSv1
