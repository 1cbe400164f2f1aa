import AFSv1.Reports

/-! An unlink that fails should change nothing. The client drops its copy and what it knows of it before it asks the
server. -/
namespace AFSv1
open Foundations Tables

variable {cfg : Server.Config} {path : Bytes} {l l' : Client.Local Bytes} {s : Server.State} {g' : Attempted}
  {env₁ env₂ env₃ env : ServedEnv} {e : Server.StepEnv} {out : Client.Outcome}

variable (cfg path) in
/-- The server had a file at the path and has none any more. -/
def Gone (s s' : Server.State) : Prop :=
  (∃ i, s.fs.node (Server.getServerFilepath cfg path false) = .ok (.file i)) ∧
    ∀ n, s'.fs.node (Server.getServerFilepath cfg path false) ≠ .ok n

variable (cfg path) in
/-- The handler runs and removes the file. -/
def Removes (env : ServedEnv) (e : Server.StepEnv) (s : Server.State) : Prop :=
  env.outage ≠ .before ∧ (e.syscall (s.fs.unlink (Server.getServerFilepath cfg path false))).isOk

instance : Decidable (Removes cfg path env e s) := by unfold Removes; infer_instance

variable (path) in
/-- The client has the copy it had, and the same entries in its tables. -/
def Unchanged (l l' : Client.Local Bytes) : Prop :=
  (l'.entry path).content = (l.entry path).content ∧ (l'.entry path).last_modified = (l.entry path).last_modified ∧
    (l'.entry path).is_dirty = (l.entry path).is_dirty

variable (path) in
/-- The client has no copy of the file, and no entries in its tables. -/
def Forgotten (l : Client.Local Bytes) : Prop :=
  (l.entry path).content = none ∧ (l.entry path).last_modified = none ∧ (l.entry path).is_dirty = none

/-- What a run of `afs_unlink` leaves behind. -/
lemma eval_afsUnlink (hhandler : env.handler = [e])
    (h : (Client.afsUnlink path).eval (attempted cfg) [env₁, env₂, env₃, env] l ⟨s, []⟩ = some (out, l', g')) :
    (l'.entry path = { l.entry path with
        cache := if env₁.fault = none then none else (l.entry path).cache, last_modified := none, is_dirty := none }) ∧
      g'.server = (if env.outage = .before then s else { s with fs := (Server.Unlink cfg e path s.fs).1 }) ∧
      out.rc = let res := received env.outage (Server.Unlink cfg e path s.fs).2 {}
        if res.return_code < 0 then -res.error_number else res.return_code := by
  obtain ⟨_, _, r₁, l₁, henvs, hunlink, h⟩ := attempted_disk h
  cases henvs
  obtain ⟨_, _, r₂, l₂, henvs, hlast, h⟩ := attempted_disk h
  cases henvs
  cases hlast
  obtain ⟨_, _, r₃, l₃, henvs, hdirty, h⟩ := attempted_disk h
  cases henvs
  cases hdirty
  obtain ⟨_, _, res, s', a, henvs, hcall, h⟩ := attempted_rpc h
  cases henvs
  obtain ⟨-, hx⟩ := Prog.eval_ret.mp h
  cases hx
  simp only [attempt, hhandler, Option.some.injEq, Prod.mk.injEq] at hcall
  obtain ⟨rfl, rfl, -⟩ := hcall
  refine ⟨?_, rfl, rfl⟩
  rcases Client.LocalCall.exec_unlink hunlink with ⟨hfault, -, rfl⟩ | ⟨_, -, rfl, hfault | hcache⟩
  · simp [hfault]
  · simp [hfault]
  · by_cases hfault : env₁.fault = none <;> simp [hfault, hcache]

/-- The handler's success is what one sees of it in the file tree. -/
lemma gone_iff_removes : Gone cfg path s
      (if env.outage = .before then s else { s with fs := (Server.Unlink cfg e path s.fs).1 }) ↔
    Removes cfg path env e s := by
  by_cases hbefore : env.outage = .before
  · rw [if_pos hbefore]
    refine iff_of_false ?_ fun h => h.1 hbefore
    rintro ⟨⟨i, hi⟩, hnone⟩
    exact hnone _ hi
  · rw [if_neg hbefore, Removes, Server.Unlink]
    cases hresult : e.syscall (s.fs.unlink (Server.getServerFilepath cfg path false)) with
    | error e' =>
      refine iff_of_false ?_ (by simp [Except.isOk, Except.toBool])
      rintro ⟨⟨i, hi⟩, hnone⟩
      exact hnone _ hi
    | ok fs =>
      refine iff_of_true ?_ ⟨hbefore, rfl⟩
      obtain ⟨a, i, ha, hai, rfl⟩ := InodeFS.unlink_eq_ok (Server.StepEnv.syscall_eq_ok.mp hresult).2
      refine ⟨⟨i, InodeFS.node_of_resolve ha hai⟩, fun n hn => ?_⟩
      have hresolve := (InodeFS.sameDirs_remove hai).resolve ha
      simp [Server.respond, InodeFS.node, hresolve, Except.bind, InodeFS.lookup_remove] at hn

/-- When an unlink does all or nothing. -/
theorem unlink_atomic_iff (hhandler : env.handler = [e])
    (h : (Client.afsUnlink path).eval (attempted cfg) [env₁, env₂, env₃, env] l ⟨s, []⟩ = some (out, l', g')) :
    (¬ Gone cfg path s g'.server → out.rc < 0 ∧ Unchanged path l l') ∧ (Gone cfg path s g'.server → Forgotten path l') ↔
      if Removes cfg path env e s then (l.entry path).cache = none ∨ env₁.fault = none
      else env.outage = .none ∧ (l.entry path).last_modified = none ∧ (l.entry path).is_dirty = none ∧
        ((l.entry path).cache = none ∨ env₁.fault ≠ none) := by
  obtain ⟨hentry, hserver, hrc⟩ := eval_afsUnlink hhandler h
  rw [hserver, gone_iff_removes]
  have hcontent : (l'.entry path).content = none ↔ (l.entry path).cache = none ∨ env₁.fault = none := by
    rw [hentry]
    by_cases hfault : env₁.fault = none <;> simp [Client.Entry.content, hfault]
  have hkept : (l'.entry path).content = (l.entry path).content ↔ (l.entry path).cache = none ∨ env₁.fault ≠ none := by
    rw [hentry]
    cases hcache : (l.entry path).cache <;> by_cases hfault : env₁.fault = none <;>
      simp [Client.Entry.content, hfault, hcache]
  have hlast : (l'.entry path).last_modified = none := by rw [hentry]
  have hdirty : (l'.entry path).is_dirty = none := by rw [hentry]
  by_cases hremoves : Removes cfg path env e s
  · simp [hremoves, Forgotten, hcontent, hlast, hdirty]
  · have hneg : out.rc < 0 ↔ env.outage = .none := by
      rw [hrc]
      cases hresult : e.syscall (s.fs.unlink (Server.getServerFilepath cfg path false)) with
      | error e' => cases env.outage <;> simp [received, Server.Unlink, Server.respond, hresult, Errno.number_pos]
      | ok fs =>
        have hbefore : env.outage = .before := by
          by_contra hbefore
          exact hremoves ⟨hbefore, by rw [hresult]; rfl⟩
        simp [hbefore, received]
    simp only [hremoves, not_false_eq_true, true_implies, false_implies, and_true, if_false, Unchanged, hneg, hkept, hlast,
      hdirty, eq_comm (a := none)]
    constructor
    · rintro ⟨houtage, hcache, hlast, hdirty⟩
      exact ⟨houtage, hlast, hdirty, hcache⟩
    · rintro ⟨houtage, hlast, hdirty, hcache⟩
      exact ⟨houtage, hcache, hlast, hdirty⟩

/-- The calls of an unlink, with this outcome of the remote one. -/
def unlinkEnvs (outage : Client.Outage) : List ServedEnv := [{}, {}, {}, { outage, handler := [.quiet 1] }]

theorem unlink_atomic_iff_missing : ∃ out l' g', (Client.afsUnlink (Bytes.ascii "/f")).eval (attempted Server.exampleConfig)
    (unlinkEnvs .none) {} ⟨Server.exampleState, []⟩ = some (out, l', g') ∧
      (¬ Gone Server.exampleConfig (Bytes.ascii "/f") Server.exampleState g'.server →
        out.rc < 0 ∧ Unchanged (Bytes.ascii "/f") {} l') := by
  have heval : ((Client.afsUnlink (Bytes.ascii "/f")).eval (attempted Server.exampleConfig) (unlinkEnvs .none) {}
      ⟨Server.exampleState, []⟩).isSome := by
    decide +kernel
  obtain ⟨⟨out, l', g'⟩, hrun⟩ := Option.isSome_iff_exists.mp heval
  exact ⟨out, l', g', hrun, ((unlink_atomic_iff rfl hrun).mpr (by decide)).1⟩

/-- The server is down; the unsent data are lost, and the unlink returns 0. -/
theorem not_unlink_atomic_serverDown : ∃ out l' g', (Client.afsUnlink (Bytes.ascii "/f")).eval
    (attempted Server.exampleConfig) (unlinkEnvs .before) dirtyClient ⟨Server.exampleState, []⟩ = some (out, l', g') ∧
      out.rc = 0 ∧ (dirtyClient.entry (Bytes.ascii "/f")).content = some [0, 10] ∧
      ¬ ((¬ Gone Server.exampleConfig (Bytes.ascii "/f") Server.exampleState g'.server →
          out.rc < 0 ∧ Unchanged (Bytes.ascii "/f") dirtyClient l') ∧
        (Gone Server.exampleConfig (Bytes.ascii "/f") Server.exampleState g'.server → Forgotten (Bytes.ascii "/f") l')) := by
  have heval : ((Client.afsUnlink (Bytes.ascii "/f")).eval (attempted Server.exampleConfig) (unlinkEnvs .before)
      dirtyClient ⟨Server.exampleState, []⟩).map (fun x => x.1.rc) = some 0 := by
    decide +kernel
  have hmissing : ¬ (Server.exampleState.fs.node (Server.getServerFilepath Server.exampleConfig (Bytes.ascii "/f") false)).isOk := by
    decide
  obtain ⟨⟨out, l', g'⟩, hrun, hrc⟩ := Option.map_eq_some_iff.mp heval
  refine ⟨out, l', g', hrun, hrc, rfl, fun h => ?_⟩
  have hkept : ¬ Gone Server.exampleConfig (Bytes.ascii "/f") Server.exampleState g'.server := by
    rintro ⟨⟨i, hi⟩, -⟩
    exact hmissing (by rw [hi]; rfl)
  have hneg := (h.1 hkept).1
  rw [show out.rc = 0 from hrc] at hneg
  exact lt_irrefl 0 hneg

end AFSv1
