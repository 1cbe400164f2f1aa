import AFSv1.Client.Upload

/-! What a release uploads: the file at the cache path, which need not be the file behind the released
handle. -/
namespace AFSv1.Client
open Foundations Tables

variable {A Path : Type} [DecidableEq A] [DecidableEq Path]

/-- The bytes that can be read through a handle. -/
def Mount.readable (m : Mount Path) (fh : ℕ) : Option Bytes := (m.toLocal.file fh).map fun f => (m.entry f.1).inode f.2

/-- A release that publishes a version gives it the handle's bytes exactly if the file at the cache path has
them and can be read to its end, or if a read fails just after them. -/
theorem release_uploadsHandle_iff (s s' : World A Path) (a : A) (fuel : ℕ) (path : Path) (fh : ℕ) (envs : List Env)
    (v : Version) (b : Bytes) (hrun : s.run (machine Path) (session a (.release fuel path fh) envs) = some s')
    (hupload : s'.shared.history = (path, v) :: s.shared.history) (hread : (s.locals a).readable fh = some b) :
    (s.locals a).readable fh = some v.content ↔ ∃ c, ((s.locals a).entry path).content = some c ∧
      (ReadsToEnd c 0 (envs.drop 3) ∧ c = b ∨ ∃ k, CutAt c 0 (envs.drop 3) k ∧ c.take (k * BUFSIZE) = b) := by
  obtain ⟨m, out, m', g', hbegin, heval, -, rfl, -⟩ := World.run_session hrun
  obtain ⟨-, rfl⟩ := Mount.begin_release hbegin
  obtain ⟨m₁, hclosed, hreleased⟩ := eval_afsRelease heval
  have hentry : m₁.entry = (s.locals a).entry := hclosed.entry
  have hpublish {i : ℕ} {chunks : List Bytes} {broken : Bool} {env : Env} {r : Status × Meta}
      (hcache : (m₁.entry path).cache = some i)
      (hsent : broken = false → Sent ((m₁.entry path).inode i) 0 (envs.drop 3) chunks)
      (hwrite : (RemoteCall.Write path chunks broken).exec env s.shared = some (r, s'.shared)) :
      ∃ c new, ((s.locals a).entry path).content = some c ∧ Sent c 0 (envs.drop 3) new ∧ v.content = new.flatten := by
    rw [hentry] at hcache hsent
    rcases RemoteCall.exec_Write hwrite with hsame | ⟨hunbroken, -, hfresh, hnew⟩
    · rw [hsame] at hupload
      exact absurd hupload (List.cons_ne_self _ _).symm
    · rw [hnew] at hupload
      simp only [Remote.publish, List.cons.injEq, Prod.mk.injEq, true_and, and_true] at hupload
      exact ⟨_, chunks, by simp [Entry.content, hcache], hsent hunbroken, by rw [← hupload]⟩
  obtain ⟨c, new, hc, hsent, hv⟩ : ∃ c new, ((s.locals a).entry path).content = some c ∧
      Sent c 0 (envs.drop 3) new ∧ v.content = new.flatten := by
    generalize hg : s'.shared = g' at hreleased
    cases hreleased with
    | clean => exact absurd (hg ▸ hupload) (List.cons_ne_self _ _).symm
    | stored hdirty i hcache chunks hsent env henv reply g' hwrite => exact hpublish hcache (fun _ => hsent) (hg ▸ hwrite)
    | failed hdirty i hcache chunks broken hsent env henv status reply hstatus g' hwrite =>
      exact hpublish hcache hsent (hg ▸ hwrite)
  rw [hread, hv, Option.some.injEq, eq_comm, hsent.flatten_iff]
  simp [hc]

/-- A file that is opened and written. -/
def writing : List (WorldEvent Unit Unit) :=
  session () (.open ()) (quiet 7 1) ++ session () (.write () (Bytes.ascii "x") 0 3) (quiet 2 1)

theorem release_uploadsHandle_iff_writing : ∃ s s' : World Unit Unit,
    s.run (machine Unit) (session () (.release 1 () 3) (quiet 8 1)) = some s' ∧
      (s.locals ()).readable 3 = some (Bytes.ascii "x") := by
  have hrun : ∃ s, (World.start Unit .empty).run (machine Unit) writing = some s ∧
      (s.locals ()).readable 3 = some (Bytes.ascii "x") ∧
        ((s.locals ()).entry ()).content = some (Bytes.ascii "x") ∧
          ∃ s', s.run (machine Unit) (session () (.release 1 () 3) (quiet 8 1)) = some s' ∧
            s.shared.history = [] ∧ s'.shared.history = [((), ⟨Bytes.ascii "x", .uniform 1⟩)] := by
    decide +kernel
  obtain ⟨s, -, hread, hcontent, s', hrelease, hbefore, hafter⟩ := hrun
  refine ⟨s, s', hrelease, (release_uploadsHandle_iff s s' () 1 () 3 _ _ _ hrelease (by rw [hafter, hbefore]) hread).mpr
    ⟨_, hcontent, .inl ⟨fun k hk => ?_, rfl⟩⟩⟩
  obtain rfl : k = 0 := by
    simp only [show (Bytes.ascii "x").length = 1 from rfl, BUFSIZE] at hk
    omega
  rfl

/-- One process of the client `true` writes to a file, the client `false` publishes a new version of it, and a
second process of `true` opens the file again and writes to it. -/
def twoProcesses : List (WorldEvent Bool Unit) :=
  session false (.open ()) (quiet 7 1) ++ session false (.write () (Bytes.ascii "x") 0 3) (quiet 2 1) ++
    session false (.release 1 () 3) (quiet 8 1) ++
      session true (.open ()) (quiet 7 1) ++ session true (.write () (Bytes.ascii "1") 0 3) (quiet 2 1) ++
        session false (.open ()) (quiet 5 1) ++ session false (.write () (Bytes.ascii "y") 0 3) (quiet 2 1) ++
          session false (.release 1 () 3) (quiet 8 2) ++
            session true (.open ()) (List.replicate 12 { fd := 4 }) ++
              session true (.write () (Bytes.ascii "2") 1 4) (quiet 2 2)

/-- The release of the first process uploads the file of the second. -/
theorem not_uploadsHandle_twoProcesses : ∃ s s', (World.start Bool .empty).run (machine Unit) twoProcesses = some s ∧
    (.write () (Bytes.ascii "1") 0 3, some { rc := 1 }) ∈ (s.locals true).calls ∧
      s.run (machine Unit) (session true (.release 1 () 3) (quiet 8 3)) = some s' ∧
        s'.shared.history = ((), ⟨Bytes.ascii "y2", .uniform 3⟩) :: s.shared.history ∧
          (s.locals true).readable 3 = some (Bytes.ascii "1") ∧ (s.locals true).readable 3 ≠ some (Bytes.ascii "y2") := by
  have hrun : ∃ s, (World.start Bool .empty).run (machine Unit) twoProcesses = some s ∧
      (.write () (Bytes.ascii "1") 0 3, some { rc := 1 }) ∈ (s.locals true).calls ∧
        (s.locals true).readable 3 = some (Bytes.ascii "1") ∧
          ∃ s', s.run (machine Unit) (session true (.release 1 () 3) (quiet 8 3)) = some s' ∧
            s'.shared.history = ((), ⟨Bytes.ascii "y2", .uniform 3⟩) :: s.shared.history := by
    decide +kernel
  obtain ⟨s, hs, hwrite, hread, s', hrelease, hupload⟩ := hrun
  refine ⟨s, s', hs, hwrite, hrelease, hupload, hread, ?_⟩
  rw [hread]
  decide

end AFSv1.Client
