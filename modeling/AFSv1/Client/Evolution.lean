import AFSv1.Client.Operations

/-! How the server evolves under the clients' calls, and what a client may therefore go on to believe
of it. -/
namespace AFSv1.Client
open Foundations Tables

variable {Path : Type}

/-- Every version that becomes current is new. -/
structure Remote.Evolves (g g' : Remote Path) : Prop where
  history : ∀ x ∈ g.history, x ∈ g'.history
  current : ∀ p v, g'.files p = some v → g.files p = some v ∨ ∀ x ∈ g.history, v.mtim ≠ x.2.mtim

namespace Remote

lemma Evolves.refl (g : Remote Path) : g.Evolves g := ⟨fun _ hx => hx, fun _ _ => .inl⟩

lemma Evolves.trans {g₁ g₂ g₃ : Remote Path} (h : g₁.Evolves g₂) (h' : g₂.Evolves g₃) : g₁.Evolves g₃ := by
  refine ⟨fun x hx => h'.history x (h.history x hx), fun p v hv => ?_⟩
  rcases h'.current p v hv with hold | hnew
  · exact h.current p v hold
  · exact .inr fun x hx => hnew x (h.history x hx)

/-- The value is the marker of a local file or the time of a version that was published. -/
def Known (g : Remote Path) (t : Bytes) : Prop := t = localCreatFile ∨ ∃ x ∈ g.history, t = x.2.mtim

/-- If `t` is the time of the current version, then `b` is its content. -/
def Agrees (g : Remote Path) (path : Path) (t b : Bytes) : Prop :=
  ∀ v, g.files path = some v → (v.mtim : Bytes) = t → v.content = b

lemma Evolves.known {g g' : Remote Path} (h : g.Evolves g') {t : Bytes} (ht : g.Known t) : g'.Known t :=
  ht.imp_right fun ⟨x, hx, heq⟩ => ⟨x, h.history x hx, heq⟩

lemma localCreatFile_ne (t : Timestamp) : (t : Bytes) ≠ localCreatFile := by
  intro h
  have := t.2
  rw [h] at this
  exact absurd this (by decide)

/-- What a client knows of the current version stays true, since no time comes back. -/
lemma Evolves.agrees {g g' : Remote Path} (h : g.Evolves g') {path : Path} {t b : Bytes} (ht : g.Known t)
    (hb : g.Agrees path t b) : g'.Agrees path t b := by
  intro v hv hvt
  rcases h.current path v hv with hold | hnew
  · exact hb v hold hvt
  · rcases ht with rfl | ⟨x, hx, rfl⟩
    · exact absurd hvt (localCreatFile_ne v.mtim)
    · exact absurd (Subtype.ext hvt) (hnew x hx)

lemma agrees_localCreatFile (g : Remote Path) (path : Path) (b : Bytes) : g.Agrees path localCreatFile b :=
  fun v _ hv => absurd hv (localCreatFile_ne v.mtim)

lemma known_of_current {g : Remote Path} {path : Path} {v : Version} (h : g.files path = some v) : g.Known v.mtim :=
  .inr ⟨(path, v), g.published path v h, rfl⟩

lemma agrees_of_current {g : Remote Path} {path : Path} {v : Version} (h : g.files path = some v) :
    g.Agrees path v.mtim v.content := by
  intro w hw _
  rw [h, Option.some.injEq] at hw
  rw [hw]

lemma agrees_of_none {g : Remote Path} {path : Path} (h : g.files path = none) (t b : Bytes) : g.Agrees path t b := by
  intro v hv
  rw [h] at hv
  cases hv

variable [DecidableEq Path]

lemma evolves_publish (g : Remote Path) (path : Path) (v : Version) (hfresh : g.Fresh v.mtim) :
    g.Evolves (g.publish path v hfresh) := by
  refine ⟨fun x hx => List.mem_cons_of_mem _ hx, fun p w hw => ?_⟩
  by_cases hp : p = path
  · subst hp
    simp only [publish, Function.update_self, Option.some.injEq] at hw
    exact .inr (hw ▸ hfresh)
  · exact .inl (by simpa [publish, hp] using hw)

lemma evolves_unlink (g : Remote Path) (path : Path) : g.Evolves (g.unlink path) := by
  refine ⟨fun _ hx => hx, fun p w hw => .inl ?_⟩
  by_cases hp : p = path
  · subst hp
    simp [unlink] at hw
  · simpa [unlink, hp] using hw

lemma agrees_publish (g : Remote Path) (path : Path) (v : Version) (hfresh : g.Fresh v.mtim) :
    (g.publish path v hfresh).Agrees path v.mtim v.content := by
  intro w hw _
  simp only [publish, Function.update_self, Option.some.injEq] at hw
  rw [hw]

lemma known_publish (g : Remote Path) (path : Path) (v : Version) (hfresh : g.Fresh v.mtim) :
    (g.publish path v hfresh).Known v.mtim := .inr ⟨(path, v), by simp [publish], rfl⟩

end Remote

variable [DecidableEq Path]

/-- A call publishes a fresh version, removes a file, or leaves the server alone. -/
theorem RemoteCall.exec_evolves {env : Env} {g g' : Remote Path} {c : RemoteCall Path} {r : c.Answer}
    (h : c.exec env g = some (r, g')) : g.Evolves g' := by
  cases c with
  | Stat path => cases h; exact .refl g
  | GetContent path =>
    simp only [RemoteCall.exec] at h
    split at h <;> cases h <;> exact .refl g
  | writerWrite => cases h; exact .refl g
  | Write path chunks broken =>
    simp only [RemoteCall.exec] at h
    split_ifs at h <;> cases h <;> first | exact .refl g | exact g.evolves_publish path _ _
  | Unlink path =>
    simp only [RemoteCall.exec] at h
    split_ifs at h <;> cases h
    · exact .refl g
    · exact g.evolves_unlink path
    · exact .refl g
    · exact g.evolves_unlink path

end AFSv1.Client
