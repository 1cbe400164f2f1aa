import AFSv1.Client.Alone

/-! What an upload sends of the cache file, and what a release that nothing interrupts does with it. -/
namespace AFSv1.Client
open Foundations Tables

variable {Path : Type} [DecidableEq Path] {m m' : Mount Path} {g g' : Remote Path} {path : Path}

/-- The reads of an upload from position `pos` on succeed until they reach the end of the file; each read
is followed by the sending of a message. -/
def ReadsToEnd (b : Bytes) (pos : ℕ) (envs : List Env) : Prop :=
  ∀ k, pos + k * BUFSIZE = 0 ∨ pos + k * BUFSIZE < b.length → envs[2 * k]?.map Env.fault = some none

/-- The first read to fail, before the end of the file, is the one number `k`. -/
structure CutAt (b : Bytes) (pos : ℕ) (envs : List Env) (k : ℕ) : Prop where
  needed : pos + k * BUFSIZE = 0 ∨ pos + k * BUFSIZE < b.length
  fault : ∃ env, envs[2 * k]? = some env ∧ env.fault ≠ none
  before : ∀ j < k, envs[2 * j]?.map Env.fault = some none

/-- The chunks sent from position `pos` on: all of the rest, or full blocks up to the read that fails. -/
inductive Sent (b : Bytes) (pos : ℕ) (envs : List Env) (new : List Bytes) : Prop
  | all (hreads : ReadsToEnd b pos envs) (hnew : new.flatten = b.drop pos) (hne : pos = 0 → new ≠ [])
  | cut (k : ℕ) (hcut : CutAt b pos envs k) (hnew : new.flatten = (b.drop pos).take (k * BUFSIZE))
      (hne : new = [] ↔ k = 0)

lemma readsToEnd_cons {b : Bytes} {pos : ℕ} {env env' : Env} {envs : List Env} :
    ReadsToEnd b pos (env :: env' :: envs) ↔
      (pos = 0 ∨ pos < b.length → env.fault = none) ∧ ReadsToEnd b (pos + BUFSIZE) envs := by
  have hpos (k : ℕ) : pos + (k + 1) * BUFSIZE = pos + BUFSIZE + k * BUFSIZE := by ring
  constructor
  · intro h
    refine ⟨fun h₀ => by simpa using h 0 (by simpa using h₀), fun k hk => ?_⟩
    simpa [Nat.mul_add] using h (k + 1) (by rwa [hpos])
  · rintro ⟨h₀, h⟩ k hk
    cases k with
    | zero => simpa using h₀ (by simpa using hk)
    | succ k => simpa [Nat.mul_add] using h k (by rwa [← hpos])

/-- A block that was read and sent comes before what the rest of the upload sends. -/
lemma Sent.cons {b : Bytes} {pos : ℕ} {env env' : Env} {envs : List Env} {new : List Bytes} (hfault : env.fault = none)
    (h : Sent b (pos + BUFSIZE) envs new) :
    Sent b pos (env :: env' :: envs) ((b.drop pos).take BUFSIZE :: new) := by
  have hdrop : b.drop (pos + BUFSIZE) = (b.drop pos).drop BUFSIZE := by rw [List.drop_drop]
  cases h with
  | all hreads hnew hne =>
    refine .all (readsToEnd_cons.mpr ⟨fun _ => hfault, hreads⟩) ?_ fun _ => by simp
    rw [List.flatten_cons, hnew, hdrop, List.take_append_drop]
  | cut k hcut hnew hne =>
    refine .cut (k + 1) ⟨?_, by simpa [Nat.mul_add] using hcut.fault, fun j hj => ?_⟩ ?_ (by simp)
    · rw [show pos + (k + 1) * BUFSIZE = pos + BUFSIZE + k * BUFSIZE by ring]
      exact hcut.needed
    · cases j with
      | zero => simpa using hfault
      | succ j => simpa [Nat.mul_add] using hcut.before j (by omega)
    · rw [List.flatten_cons, hnew, hdrop, show (k + 1) * BUFSIZE = BUFSIZE + k * BUFSIZE by ring, List.take_add]

/-- The calls after the upload do not matter. -/
lemma Sent.append {b : Bytes} {pos : ℕ} {envs : List Env} {new : List Bytes} (h : Sent b pos envs new) (rest : List Env) :
    Sent b pos (envs ++ rest) new := by
  have hget {k : ℕ} {env : Env} (hk : envs[k]? = some env) : (envs ++ rest)[k]? = some env := by
    rw [List.getElem?_append_left (List.getElem?_eq_some_iff.mp hk).1, hk]
  cases h with
  | all hreads hnew hne =>
    refine .all (fun k hk => ?_) hnew hne
    obtain ⟨env, henv, hfault⟩ := Option.map_eq_some_iff.mp (hreads k hk)
    rw [hget henv, Option.map_some, hfault]
  | cut k hcut hnew hne =>
    obtain ⟨env, henv, hfault⟩ := hcut.fault
    refine .cut k ⟨hcut.needed, ⟨env, hget henv, hfault⟩, fun j hj => ?_⟩ hnew hne
    obtain ⟨env, henv, hfault⟩ := Option.map_eq_some_iff.mp (hcut.before j hj)
    rw [hget henv, Option.map_some, hfault]

lemma CutAt.not_readsToEnd {b : Bytes} {pos k : ℕ} {envs : List Env} (h : CutAt b pos envs k) :
    ¬ ReadsToEnd b pos envs := by
  intro hreads
  obtain ⟨env, henv, hfault⟩ := h.fault
  exact hfault (by simpa [henv] using hreads k h.needed)

lemma CutAt.eq {b : Bytes} {pos k k' : ℕ} {envs : List Env} (h : CutAt b pos envs k) (h' : CutAt b pos envs k') :
    k' = k := by
  obtain ⟨env, henv, hfault⟩ := h.fault
  obtain ⟨env', henv', hfault'⟩ := h'.fault
  rcases lt_trichotomy k' k with hlt | heq | hlt
  · exact absurd (h.before k' hlt) (by simpa [henv'] using hfault')
  · exact heq
  · exact absurd (h'.before k hlt) (by simpa [henv] using hfault)

/-- What arrives is the file, or the blocks before the read that fails. -/
lemma Sent.flatten_iff {b c : Bytes} {envs : List Env} {new : List Bytes} (h : Sent b 0 envs new) :
    new.flatten = c ↔ ReadsToEnd b 0 envs ∧ b = c ∨ ∃ k, CutAt b 0 envs k ∧ b.take (k * BUFSIZE) = c := by
  cases h with
  | all hreads hnew hne =>
    rw [hnew, List.drop_zero]
    refine ⟨fun heq => .inl ⟨hreads, heq⟩, ?_⟩
    rintro (⟨-, heq⟩ | ⟨k, hcut, -⟩)
    · exact heq
    · exact absurd hreads hcut.not_readsToEnd
  | cut k hcut hnew hne =>
    rw [hnew, List.drop_zero]
    refine ⟨fun heq => .inr ⟨k, hcut, heq⟩, ?_⟩
    rintro (⟨hreads, -⟩ | ⟨k', hcut', heq⟩)
    · exact absurd hreads hcut.not_readsToEnd
    · rwa [hcut.eq hcut'] at heq

/-- A read that fails before the end of the file cuts the upload short. -/
lemma Sent.complete_iff {b : Bytes} {envs : List Env} {new : List Bytes} (h : Sent b 0 envs new) :
    ReadsToEnd b 0 envs ↔ new ≠ [] ∧ new.flatten = b := by
  cases h with
  | all hreads hnew hne => exact iff_of_true hreads ⟨hne rfl, hnew⟩
  | cut k hcut hnew hne =>
    refine iff_of_false hcut.not_readsToEnd fun hwhole => ?_
    have hlength : (new.flatten).length = b.length := by rw [hwhole.2]
    rw [hnew, List.length_take, List.drop_zero] at hlength
    have hpos := mt hne.mpr hwhole.1
    have hneeded := hcut.needed
    simp only [BUFSIZE] at hneeded hlength
    omega

/-- Nothing at all is sent if already the first read fails. -/
lemma Sent.nothing_iff {b : Bytes} {envs : List Env} {new : List Bytes} (h : Sent b 0 envs new) :
    new = [] ↔ envs[0]?.map Env.fault ≠ some none := by
  cases h with
  | all hreads hnew hne => exact iff_of_false (hne rfl) (not_not.mpr (by simpa using hreads 0 (.inl (by simp))))
  | cut k hcut hnew hne =>
    by_cases hk : k = 0
    · subst hk
      obtain ⟨env, henv, hfault⟩ := hcut.fault
      exact iff_of_true (hne.mpr rfl) (by simpa [show envs[0]? = some env from henv] using hfault)
    · exact iff_of_false (mt hne.mp hk) (not_not.mpr (hcut.before 0 (Nat.pos_of_ne_zero hk)))

/-- An upload leaves client and server alone and sends the file, as far as it can be read. -/
theorem eval_upload {i fuel pos : ℕ} {chunks : List Bytes} {envs : List Env} {r : List Bytes × Bool}
    (h : (upload path i fuel pos chunks).eval (machine Path).exec envs m g = some (r, m', g')) :
    m' = m ∧ g' = g ∧ ∃ new, r.1 = chunks ++ new ∧ (r.2 = false → Sent ((m.entry path).inode i) pos envs new) := by
  induction fuel generalizing pos chunks envs with
  | zero =>
    obtain ⟨_, _, r, _, _, _, _⟩ := eval_disk h
    exact r.elim
  | succ fuel ih =>
    obtain ⟨env, envs, r₁, l₁, rfl, hread, h⟩ := eval_disk h
    obtain ⟨rfl, ⟨hfault, rfl⟩ | ⟨hfault, rfl⟩⟩ := LocalCall.exec_ifstreamRead hread
    · obtain ⟨env', envs, sent, g₁, rfl, hwrite, h⟩ := eval_rpc h
      simp only [RemoteCall.exec, Option.some.injEq, Prod.mk.injEq] at hwrite
      obtain ⟨-, rfl⟩ := hwrite
      set b := (m.entry path).inode i
      set buf := (b.drop pos).take BUFSIZE with hbuf
      have hlength : buf.length = min BUFSIZE (b.drop pos).length := List.length_take
      dsimp only [Prog.bind] at h
      split_ifs at h with hsent hshort
      · obtain ⟨rfl, hx⟩ := Prog.eval_ret.mp h
        cases hx
        refine ⟨rfl, rfl, [buf], rfl, fun _ => .all ?_ ?_ fun _ => by simp⟩
        · refine readsToEnd_cons.mpr ⟨fun _ => hfault, fun k hk => ?_⟩
          simp only [List.length_drop, BUFSIZE] at hlength hshort hk
          omega
        · rw [List.flatten_singleton, hbuf, List.take_of_length_le (by omega)]
      · obtain ⟨rfl, rfl, new, hnew, hrest⟩ := ih h
        have hbufsize : buf.length = BUFSIZE := by omega
        refine ⟨rfl, rfl, buf :: new, by simpa using hnew, fun hunbroken => ?_⟩
        exact .cons hfault (by simpa [hbufsize] using hrest hunbroken)
      · obtain ⟨rfl, hx⟩ := Prog.eval_ret.mp h
        cases hx
        exact ⟨rfl, rfl, [], by simp, fun hbroken => by simp at hbroken⟩
    · obtain ⟨rfl, hx⟩ := Prog.eval_ret.mp h
      cases hx
      refine ⟨rfl, rfl, [], by simp, fun _ => ?_⟩
      by_cases hend : pos = 0 ∨ pos < ((m.entry path).inode i).length
      · exact .cut 0 ⟨by simpa using hend, ⟨env, rfl, hfault⟩, by simp⟩ (by simp) (by simp)
      · obtain ⟨hpos, hlength⟩ := not_or.mp hend
        refine .all (fun k hk => absurd hk ?_) (by simpa using hlength) fun h => absurd h hpos
        omega

/-- The client before and after `close(fi->fh)`. -/
structure Closed (fh : ℕ) (m m₁ : Mount Path) : Prop where
  entry : m₁.entry = m.entry
  handles : m₁.handles = m.handles
  calls : m₁.calls = m.calls
  file_none : m.toLocal.file fh = none → m₁.fds = m.fds
  file_lt : fh < 2 ^ 31 → m₁.fds = Function.update m.fds fh none

lemma closed_of_exec {env : Env} {r : Except Errno Unit} {fh : ℕ} {l : Local Path}
    (h : (LocalCall.close fh).exec env m.toLocal = some (r, l)) : Closed fh m { m with toLocal := l } := by
  rcases LocalCall.exec_close h with ⟨hsome, -, rfl⟩ | ⟨hnone, -, rfl⟩
  · refine ⟨rfl, rfl, rfl, fun hnone => ?_, fun hlt => ?_⟩
    · rw [hnone] at hsome
      cases hsome
    · rw [intOf_of_lt hlt, Int.toNat_natCast]
  · refine ⟨rfl, rfl, rfl, fun _ => rfl, fun hlt => ?_⟩
    rw [Local.file_of_lt _ hlt] at hnone
    exact (Function.update_eq_self_iff.mpr hnone.symm).symm

/-- What a release that nothing interrupts does; `m` is the client after the close. -/
inductive Released (path : Path) (envs : List Env) (m : Mount Path) (g : Remote Path) :
    Outcome → Mount Path → Remote Path → Prop
  | clean (hdirty : (m.entry path).dirty = false) : Released path envs m g { rc := 0 } m g
  | stored (hdirty : (m.entry path).dirty = true) (i : ℕ) (hcache : (m.entry path).cache = some i) (chunks : List Bytes)
      (hsent : Sent ((m.entry path).inode i) 0 (envs.drop 3) chunks) (env : Env) (henv : env ∈ envs) (reply : Meta)
      (g' : Remote Path) (hwrite : (RemoteCall.Write path chunks false).exec env g = some ((.OK, reply), g')) :
      Released path envs m g { rc := 0 } (m.modify path fun e =>
        { e with is_dirty := some false, last_modified := some reply.timestamp }) g'
  | failed (hdirty : (m.entry path).dirty = true) (i : ℕ) (hcache : (m.entry path).cache = some i) (chunks : List Bytes)
      (broken : Bool) (hsent : broken = false → Sent ((m.entry path).inode i) 0 (envs.drop 3) chunks) (env : Env)
      (henv : env ∈ envs) (status : Status) (reply : Meta) (hstatus : status ≠ .OK) (g' : Remote Path)
      (hwrite : (RemoteCall.Write path chunks broken).exec env g = some ((status, reply), g')) :
      Released path envs m g { rc := Errno.EIO.number } m g'

theorem eval_afsRelease {fuel fh : ℕ} {envs : List Env} {out : Outcome}
    (h : (afsRelease fuel path fh).eval (machine Path).exec envs m g = some (out, m', g')) :
    ∃ m₁, Closed fh m m₁ ∧ Released path envs m₁ g out m' g' := by
  obtain ⟨env₁, envs, r₁, l₁, rfl, hclose, h⟩ := eval_disk h
  refine ⟨_, closed_of_exec hclose, ?_⟩
  generalize ({ m with toLocal := l₁ } : Mount Path) = m₁ at h
  obtain ⟨env₂, envs, dirty, l₂, rfl, hget, h⟩ := eval_disk h
  simp only [LocalCall.exec, Option.some.injEq, Prod.mk.injEq] at hget
  obtain ⟨hdirty, rfl⟩ := hget
  cases dirty with
  | false =>
    obtain ⟨rfl, hx⟩ := Prog.eval_ret.mp h
    cases hx
    exact .clean hdirty
  | true =>
    obtain ⟨env₃, envs, r₃, l₃, rfl, hopen, h⟩ := eval_disk h
    obtain ⟨rfl, hr₃⟩ := LocalCall.exec_ifstream hopen
    cases r₃ with
    | none =>
      obtain ⟨_, _, r, _, _, _, _⟩ := eval_disk h
      exact r.elim
    | some i =>
      have hcache : (m₁.entry path).cache = some i := by
        rcases hr₃ with ⟨-, h⟩ | ⟨h, -⟩
        · exact h.symm
        · cases h
      change Prog.eval _ (upload path i fuel 0 [] >>= _) _ m₁ _ = _ at h
      obtain ⟨envs₁, envs₂, r₄, m₄, g₄, rfl, hupload, h⟩ := Prog.eval_bind.mp h
      obtain ⟨rfl, rfl, chunks, hr₄, hsent⟩ := eval_upload hupload
      obtain ⟨r₄, broken⟩ := r₄
      obtain rfl : r₄ = chunks := hr₄
      obtain ⟨env₅, envs, r₅, g₅, rfl, hwrite, h⟩ := eval_rpc h
      obtain ⟨status, reply⟩ := r₅
      cases status with
      | OK =>
        obtain rfl := RemoteCall.exec_Write_unbroken hwrite
        obtain ⟨env₆, envs, r₆, l₆, rfl, hclean, h⟩ := eval_disk h
        cases hclean
        obtain ⟨env₇, envs, r₇, l₇, rfl, htime, h⟩ := eval_disk h
        cases htime
        obtain ⟨rfl, hx⟩ := Prog.eval_ret.mp h
        cases hx
        have hsent' : Sent ((m₄.entry path).inode i) 0 (envs₁ ++ [env₅, env₆, env₇]) r₄ := (hsent rfl).append _
        have hresult := @Released.stored _ _ path (env₁ :: env₂ :: env₃ :: (envs₁ ++ [env₅, env₆, env₇])) m₄ _
          hdirty i hcache r₄ hsent' env₅ (by simp) reply g' hwrite
        simpa [Mount.modify, Local.modify] using hresult
      | CANCELLED | NOT_FOUND | UNAVAILABLE =>
        obtain ⟨rfl, hx⟩ := Prog.eval_ret.mp h
        cases hx
        exact .failed hdirty i hcache r₄ broken (fun hunbroken => (hsent hunbroken).append _) env₅ (by simp) _ reply
          (by decide) g' hwrite

end AFSv1.Client
