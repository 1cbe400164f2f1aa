import AFSv1.Reports

/-! Creating a file that the server does not have. The name of the cache file is taken with `O_EXCL`, so what earlier
operations left there decides about the result. -/
namespace AFSv1
open Foundations Tables

variable {cfg : Server.Config} {path : Bytes} {l : Client.Local Bytes} {s : Server.State}

variable (cfg path) in
/-- The new file is empty at the server and in the cache, and the client knows it for clean and current. -/
structure Created (out : Client.Outcome) (l' : Client.Local Bytes) (s' : Server.State) : Prop where
  rc : out.rc = 0
  content : (l'.entry path).content = some []
  dirty : (l'.entry path).dirty = false
  file : ∃ i timestamp, s'.fs.node (Server.getServerFilepath cfg path false) = .ok (.file i) ∧
    s'.fs.file i = ⟨[], timestamp⟩ ∧ (l'.entry path).last_modified = some timestamp

/-- What `afs_mknod` does if nothing fails: all it should, the flag apart, or nothing at all. -/
lemma served_afsMknod (hready : Ready cfg path s)
    (hmissing : ∀ n, s.fs.node (Server.getServerFilepath cfg path false) ≠ .ok n) (hfd : ∃ fd < 2 ^ 31, l.fds fd = none) :
    (Client.afsMknod path).Safe (servedLogic cfg) (fun out l' s' => (l'.entry path).dirty = (l.entry path).dirty ∧
      if (l.entry path).cache = none then out.rc = 0 ∧ (l'.entry path).content = some [] ∧
        ∃ i timestamp, s'.fs.node (Server.getServerFilepath cfg path false) = .ok (.file i) ∧
          s'.fs.file i = ⟨[], timestamp⟩ ∧ (l'.entry path).last_modified = some timestamp
      else out.rc < 0) l s := by
  refine served_rpc ⟨{ handler := [.quiet 0] }, ⟨rfl, by simp [Server.StepEnv.smooth_quiet]⟩, rfl⟩
    fun env stat_content s₁ hsmooth hstat => ?_
  obtain ⟨hs, hcode⟩ : s₁ = s ∧ stat_content.return_code = -1 := by
    simp only [serve] at hstat
    split at hstat
    · rename_i e hhandler
      cases hstat
      refine ⟨rfl, ?_⟩
      have he : e.Smooth := hsmooth.2 e (by simp [hhandler])
      rw [Server.Stat, he.syscall]
      cases hnode : s.fs.node (Server.getServerFilepath cfg path false) with
      | ok n => exact absurd hnode (hmissing n)
      | error e' => rfl
    · cases hstat
  subst hs
  dsimp only [Prog.bind]
  rw [if_neg (by simp [hcode])]
  obtain ⟨fd, hlt, hfree⟩ := hfd
  by_cases hcache : (l.entry path).cache = none
  · refine served_disk ⟨{ fd }, rfl, ?_⟩ fun env r l₁ hfault hopen => ?_
    · simp [Client.LocalCall.exec, Client.onCreate, hcache, Client.Local.allocate, show fd < 2147483648 from hlt, hfree]
    rcases Client.LocalCall.exec_openExcl hopen with ⟨fd, -, -, hlt, -, rfl, rfl⟩ | ⟨e, -, -, hfail⟩
    · refine served_disk ⟨{}, rfl, ?_⟩ fun env r l₂ _ hclose => ?_
      · simp only [Client.LocalCall.exec]
        split_ifs <;> rfl
      rcases Client.LocalCall.exec_close hclose with ⟨-, rfl, rfl⟩ | ⟨hnone, -⟩
      · refine served_rpc ⟨{}, ⟨rfl, by simp⟩, rfl⟩ fun env sent s₂ _ hsent => ?_
        cases hsent
        refine served_Write hready (by simp) fun id c s₃ _ _ _ hstored => ?_
        refine served_disk ⟨{}, rfl, rfl⟩ fun env r l₃ _ hset => ?_
        cases hset
        obtain ⟨i, hnode, hfile⟩ := hstored.file
        refine served_ret ⟨?_, ?_⟩
        · simp [Client.Entry.dirty, Client.Entry.openTrunc, hcache, Client.Entry.setInode]
        · rw [if_pos hcache]
          refine ⟨rfl, ?_, i, c.timestamp, hnode, hfile, by simp⟩
          simp [Client.Entry.content, Client.Entry.openTrunc_cache, Client.Entry.openTrunc_inode]
      · rw [Client.Local.file_of_lt _ hlt] at hnone
        simp at hnone
    · simp [hfault, hcache] at hfail
  · refine served_disk ⟨{}, rfl, ?_⟩ fun env r l₁ hfault hopen => ?_
    · simp [Client.LocalCall.exec, Client.onCreate, Option.isSome_iff_ne_none, hcache]
    rcases Client.LocalCall.exec_openExcl hopen with ⟨fd, -, hnone, -⟩ | ⟨e, rfl, rfl, hfail⟩
    · exact absurd hnone hcache
    · have hpos := e.number_pos
      exact served_ret ⟨rfl, by rw [if_neg hcache]; exact neg_neg_of_pos hpos⟩

/-- A missing file can be created exactly where nothing is left of an earlier one. -/
theorem mknod_creates_iff (hready : Ready cfg path s)
    (hmissing : ∀ n, s.fs.node (Server.getServerFilepath cfg path false) ≠ .ok n) (hfd : ∃ fd < 2 ^ 31, l.fds fd = none) :
    (Client.afsMknod path).Total (served cfg) ServedEnv.Smooth (Created cfg path) l s ↔
      (l.entry path).cache = none ∧ (l.entry path).dirty = false := by
  obtain ⟨⟨envs, ⟨out, l', s'⟩, henvs, heval⟩, hpost⟩ := served_total (served_afsMknod hready hmissing hfd)
  constructor
  · rintro ⟨-, hcreated⟩
    obtain ⟨hrc, -, hclean, -⟩ := hcreated envs out l' s' henvs heval
    obtain ⟨hdirty, hrest⟩ := hpost envs out l' s' henvs heval
    refine ⟨by_contra fun hcache => ?_, hdirty ▸ hclean⟩
    rw [if_neg hcache, hrc] at hrest
    exact lt_irrefl 0 hrest
  · rintro ⟨hcache, hclean⟩
    refine ⟨⟨envs, (out, l', s'), henvs, heval⟩, fun envs out l' s' henvs heval => ?_⟩
    obtain ⟨hdirty, hrest⟩ := hpost envs out l' s' henvs heval
    rw [if_pos hcache] at hrest
    exact ⟨hrest.1, hrest.2.1, hdirty.trans hclean, hrest.2.2⟩

theorem mknod_creates_iff_newClient : ∃ envs out l' s', (Client.afsMknod (Bytes.ascii "/f")).eval
    (served Server.exampleConfig) envs {} Server.exampleState = some (out, l', s') ∧
      Created Server.exampleConfig (Bytes.ascii "/f") out l' s' := by
  have hmissing : ∀ n, Server.exampleState.fs.node (Server.getServerFilepath Server.exampleConfig (Bytes.ascii "/f") false) ≠
      .ok n := by
    intro n hn
    have hfalse : (Server.exampleState.fs.node
        (Server.getServerFilepath Server.exampleConfig (Bytes.ascii "/f") false)).isOk = false := by decide
    rw [hn] at hfalse
    cases hfalse
  have h := (mknod_creates_iff (l := {}) ready_example hmissing ⟨0, by decide, rfl⟩).mpr ⟨rfl, rfl⟩
  obtain ⟨⟨envs, ⟨out, l', s'⟩, henvs, heval⟩, hpost⟩ := h
  exact ⟨envs, out, l', s', heval, hpost envs out l' s' henvs heval⟩

/-- Calls that do not fail, among them one at the server under this number. -/
def quietEnvs (before id steps after : ℕ) : List ServedEnv :=
  List.replicate before { handler := [.quiet 0] } ++
    { id, handler := List.replicate steps (.quiet 1) } :: List.replicate after { handler := [.quiet 0] }

/-- One client creates a file, another opens it, and the first removes it: the second client and the server. -/
def leftover : Option (Client.Local Bytes × Server.State) := do
  let (_, creator, s) ← (Client.afsMknod (Bytes.ascii "/f")).eval (served Server.exampleConfig) (quietEnvs 4 0 10 1) {}
    Server.exampleState
  let (_, reader, s) ← (Client.afsOpen (Bytes.ascii "/f")).eval (served Server.exampleConfig) (quietEnvs 1 0 3 5) {} s
  let (_, _, s) ← (Client.afsUnlink (Bytes.ascii "/f")).eval (served Server.exampleConfig) (quietEnvs 3 0 1 0) creator s
  return (reader, s)

/-- The cache file of the removed file is in the way of a new one. -/
theorem not_mknod_creates_leftover : ∃ l s, leftover = some (l, s) ∧ Ready Server.exampleConfig (Bytes.ascii "/f") s ∧
    (∀ n, s.fs.node (Server.getServerFilepath Server.exampleConfig (Bytes.ascii "/f") false) ≠ .ok n) ∧
    (∃ fd < 2 ^ 31, l.fds fd = none) ∧ (∃ out l' s', (Client.afsMknod (Bytes.ascii "/f")).eval
      (served Server.exampleConfig) (quietEnvs 0 0 1 1) l s = some (out, l', s') ∧ out.rc = - Errno.EEXIST.number) ∧
    ¬ (Client.afsMknod (Bytes.ascii "/f")).Total (served Server.exampleConfig) ServedEnv.Smooth
      (Created Server.exampleConfig (Bytes.ascii "/f")) l s := by
  have hrun : ∃ x, leftover = some x ∧ x.2.lock = none ∧ x.2.writes 1 = none ∧ x.2.reads 1 = none ∧
      x.2.fs.Creatable (Server.getServerFilepath Server.exampleConfig (Bytes.ascii "/f") true) ∧
      x.2.fs.Creatable (Server.getServerFilepath Server.exampleConfig (Bytes.ascii "/f") false) ∧
      (x.2.fs.node (Server.getServerFilepath Server.exampleConfig (Bytes.ascii "/f") false)).isOk = false ∧
      x.1.fds 1 = none ∧ ((Client.afsMknod (Bytes.ascii "/f")).eval (served Server.exampleConfig) (quietEnvs 0 0 1 1)
        x.1 x.2).map (fun y => y.1.rc) = some (- Errno.EEXIST.number) := by
    decide +kernel
  obtain ⟨⟨l, s⟩, hx, hlock, hwrite, hread, htemp, htarget, hmissing, hfd, heval⟩ := hrun
  obtain ⟨⟨out, l', s'⟩, hmknod, hrc⟩ := Option.map_eq_some_iff.mp heval
  refine ⟨l, s, hx, ⟨hlock, ⟨1, hwrite⟩, ⟨1, hread⟩, htemp, htarget⟩, fun n hn => ?_, ⟨1, by decide, hfd⟩,
    ⟨out, l', s', hmknod, hrc⟩, fun htotal => ?_⟩
  · rw [hn] at hmissing
    cases hmissing
  · have hsmooth : ∀ env ∈ quietEnvs 0 0 1 1, env.Smooth := by
      intro env henv
      simp only [quietEnvs, List.replicate, List.nil_append, List.mem_cons, List.not_mem_nil, or_false] at henv
      rcases henv with rfl | rfl <;> exact ⟨rfl, by simp [Server.StepEnv.smooth_quiet]⟩
    have hzero := (htotal.2 _ out l' s' hsmooth hmknod).rc
    rw [show out.rc = _ from hrc] at hzero
    cases hzero

end AFSv1
