import AFSv1.RoundTrip

/-! What the operations report when remote calls fail or the server's system calls do: 0 for a success, a
negative error number otherwise. -/
namespace AFSv1
open Foundations Tables

/-! ### The operations that only ask the server -/

/-- What a client gets of a reply, at its defaults unless the call returns OK. -/
def received {R : Type} (outage : Client.Outage) (response default : R) : R :=
  match outage with
  | .none => response
  | .before | .after => default

/-- The return value and what is copied to `stbuf`. -/
def afsGetattr (response : StatContent) : ℤ × Option StatContent :=
  if response.return_code < 0 then (-response.error_number, none) else (response.return_code, some response)

def afsMkdir (res : Response) : ℤ := if res.return_code < 0 then -res.error_number else res.return_code

def afsRmdir (res : Response) : ℤ := if res.return_code < 0 then -res.error_number else res.return_code

def ENOMEM : ℤ := 12

/-- The loop of `afs_readdir`: the return value and the names that FUSE has got. -/
def fill (filler : List Bytes → Bytes → Bool) (buf : List Bytes) : List Bytes → ℤ × List Bytes
  | [] => (0, buf)
  | d_name :: d_names => if filler buf d_name then (-ENOMEM, buf) else fill filler (buf ++ [d_name]) d_names

def afsReaddir (filler : List Bytes → Bytes → Bool) (ls_result : LsResult) : ℤ × List Bytes :=
  fill filler [] ls_result.d_name

/-- The claim to be judged: 0 for what succeeded, else the negative of an error number. -/
def Reports (rc : ℤ) (success : Prop) : Prop := rc = 0 ∧ success ∨ rc < 0

instance (rc : ℤ) (success : Prop) [Decidable success] : Decidable (Reports rc success) := by
  unfold Reports
  infer_instance

/-- The handler has run and its system call succeeded. -/
def Completed {α : Type} (outage : Client.Outage) (result : Except Errno α) : Prop :=
  outage ≠ .before ∧ ∃ a, result = .ok a

variable (cfg : Server.Config) (outage : Client.Outage) (env : Server.StepEnv) (path : Bytes) (fs : InodeFS)

/-- A reply of a single system call tells success from failure. -/
lemma reports_respond {default : Response} (hdefault : default.return_code = 0) (rc : Response → ℤ)
    (hrc : ∀ res, rc res = if res.return_code < 0 then -res.error_number else res.return_code)
    (result : Except Errno InodeFS) :
    Reports (rc (received outage (Server.respond fs result).2 default)) (Completed outage result) ↔
      outage = .none ∨ Completed outage result := by
  cases outage <;> cases result <;>
    simp [Reports, Completed, received, Server.respond, hrc, hdefault, Errno.number_pos]

theorem reports_afsMkdir : Reports (afsMkdir (received outage (Server.Mkdir cfg env path fs).2 {}))
      (Completed outage (env.syscall (fs.mkdir (Server.getServerFilepath cfg path false)))) ↔
    outage = .none ∨ Completed outage (env.syscall (fs.mkdir (Server.getServerFilepath cfg path false))) :=
  reports_respond outage fs rfl afsMkdir (fun _ => rfl) _

theorem reports_afsRmdir : Reports (afsRmdir (received outage (Server.Rmdir cfg env path fs).2 {}))
      (Completed outage (env.syscall (fs.rmdir (Server.getServerFilepath cfg path false)))) ↔
    outage = .none ∨ Completed outage (env.syscall (fs.rmdir (Server.getServerFilepath cfg path false))) :=
  reports_respond outage fs rfl afsRmdir (fun _ => rfl) _

theorem reports_afsGetattr (sb : StatContent) : Reports (afsGetattr (received outage (Server.Stat cfg env sb path fs) {})).1
      (Completed outage (env.syscall (fs.node (Server.getServerFilepath cfg path false)))) ↔
    outage = .none ∨ Completed outage (env.syscall (fs.node (Server.getServerFilepath cfg path false))) := by
  cases hresult : env.syscall (fs.node (Server.getServerFilepath cfg path false)) with
  | error e => cases outage <;> simp [Reports, Completed, received, Server.Stat, afsGetattr, hresult, Errno.number_pos]
  | ok n => cases n <;> cases outage <;> simp [Reports, Completed, received, Server.Stat, afsGetattr, hresult]

/-- Every name that arrives fits into the buffer. -/
def Takes (filler : List Bytes → Bytes → Bool) (buf : List Bytes) (d_names : List Bytes) : Prop :=
  ∀ pre d_name post, d_names = pre ++ d_name :: post → filler (buf ++ pre) d_name = false

lemma takes_cons {filler : List Bytes → Bytes → Bool} {buf d_names : List Bytes} {d_name : Bytes} :
    Takes filler buf (d_name :: d_names) ↔ filler buf d_name = false ∧ Takes filler (buf ++ [d_name]) d_names := by
  constructor
  · refine fun h => ⟨by simpa using h [] d_name d_names rfl, fun pre c post heq => ?_⟩
    simpa using h (d_name :: pre) c post (by simp [heq])
  · rintro ⟨hfirst, hrest⟩ pre c post heq
    cases pre with
    | nil =>
      obtain ⟨rfl, -⟩ := List.cons.inj heq
      simpa using hfirst
    | cons c' pre =>
      obtain ⟨rfl, htail⟩ := List.cons.inj heq
      simpa using hrest pre c post htail

lemma fill_cases (filler : List Bytes → Bytes → Bool) (buf d_names : List Bytes) :
    Takes filler buf d_names ∧ fill filler buf d_names = (0, buf ++ d_names) ∨
      ¬ Takes filler buf d_names ∧ (fill filler buf d_names).1 = -ENOMEM := by
  induction d_names generalizing buf with
  | nil => exact .inl ⟨by simp [Takes], by simp [fill]⟩
  | cons d_name d_names ih =>
    rw [takes_cons, fill]
    cases hfull : filler buf d_name with
    | true => exact .inr ⟨by simp, rfl⟩
    | false => simpa using ih (buf ++ [d_name])

/-- The directory was opened and FUSE has all its entries. -/
def Listed (d_names : List Bytes) : Prop :=
  ∃ d, env.syscall (fs.node (Server.getServerFilepath cfg path false)) = .ok (.dir d) ∧ fs.IsListing d d_names

/-- `afs_readdir` on what a client gets of a reply; a server that dies gives none. -/
def readdirAt (filler : List Bytes → Bytes → Bool) (entries : List Bytes) : ℤ × List Bytes :=
  afsReaddir filler (received outage ((Server.Ls cfg env entries path fs).getD {}) {})

theorem reports_afsReaddir (filler : List Bytes → Bytes → Bool) (entries : List Bytes) :
    Reports (readdirAt cfg outage env path fs filler entries).1
        (Listed cfg env path fs (readdirAt cfg outage env path fs filler entries).2) ↔
      outage = .none ∧ (∃ d, env.syscall (fs.node (Server.getServerFilepath cfg path false)) = .ok (.dir d)) ∧
        (Listed cfg env path fs entries ∨ ¬ Takes filler [] entries) := by
  have hnil : ¬ Listed cfg env path fs [] := by
    rintro ⟨d, -, -, hmem⟩
    exact absurd ((hmem InodeFS.dot).mpr (.inl rfl)) (by simp)
  -- without entries there is nothing to deliver, and 0 is returned
  have hempty (h : readdirAt cfg outage env path fs filler entries = (0, [])) :
      ¬ Reports (readdirAt cfg outage env path fs filler entries).1
        (Listed cfg env path fs (readdirAt cfg outage env path fs filler entries).2) := by
    rw [h]
    simp [Reports, hnil]
  by_cases hnone : outage = .none
  · subst hnone
    cases hresult : env.syscall (fs.node (Server.getServerFilepath cfg path false)) with
    | error e => exact iff_of_false (hempty (by simp [readdirAt, received, Server.Ls, hresult, afsReaddir, fill])) (by simp)
    | ok n =>
      cases n with
      | file i => exact iff_of_false (hempty (by simp [readdirAt, received, Server.Ls, hresult, afsReaddir, fill])) (by simp)
      | dir d =>
        have hread : readdirAt cfg .none env path fs filler entries = fill filler [] entries := by
          simp [readdirAt, received, Server.Ls, hresult, afsReaddir]
        rw [hread]
        rcases fill_cases filler [] entries with ⟨htakes, hfill⟩ | ⟨htakes, hfill⟩
        · simp [hfill, Reports, htakes]
        · simp [hfill, Reports, htakes, ENOMEM]
  · refine iff_of_false (hempty ?_) fun h => hnone h.1
    cases outage <;> simp_all [readdirAt, received, afsReaddir, fill]

/-! ### The operations that also work on the client's own files -/

/-- One remote call: whether it returned OK, and whether its handler ran and had all its system calls succeed. -/
structure Attempt where
  ok : Bool
  succeeded : Bool
  deriving DecidableEq

/-- The system call of this step of a `Write` call, if it makes one on a name, succeeds. -/
def syscallOk (env : Server.StepEnv) (sh : Server.Shared) (c : Server.WriteCall) : Bool :=
  match c.pc with
  | .openTemp => (env.syscall (sh.fs.openTrunc c.filepath env.now)).isOk
  | .stat => (env.syscall (sh.fs.node c.filepath)).isOk
  | .rename => (env.syscall (sh.fs.rename (Server.getServerFilepath cfg c.msg.filepath true)
      (Server.getServerFilepath cfg c.msg.filepath false))).isOk
  | _ => true

/-- The `Write` call comes to its end and all its system calls succeed. -/
def writeSucceeds (id : ℕ) : List Server.StepEnv → Server.Shared → Server.WriteCall → Bool
  | [], _, c => c.pc = .returned .OK
  | env :: envs, sh, c => syscallOk cfg env sh c && match c.step cfg id env sh with
    | some (sh', c') => writeSucceeds id envs sh' c'
    | none => false

/-- A remote call that may fail, before its handler runs or after it. Of a stream that broke nothing is put in
place; the operations below do not call `GetContent`. -/
def attempt (env : ServedEnv) (s : Server.State) :
    (c : Client.RemoteCall Bytes) → Option (c.Answer × Server.State × Option Attempt)
  | .Stat path => match env.handler with
    | [e] => some (received env.outage (Server.Stat cfg e env.sb path s.fs) {}, s, some ⟨env.outage = .none,
        env.outage ≠ .before ∧ (e.syscall (s.fs.node (Server.getServerFilepath cfg path false))).isOk⟩)
    | _ => none
  | .GetContent _ => none
  | .writerWrite => some (env.outage = .none, s, none)
  | .Write path chunks broken =>
    if broken ∨ env.outage = .before then some ((.UNAVAILABLE, {}), s, some ⟨false, false⟩)
    else
      let stream : List FilepathContent := chunks.map fun b => ⟨path, b⟩
      (Server.callWrite cfg env.id stream env.handler s).map fun r =>
        (received env.outage r.1 (.UNAVAILABLE, {}), r.2, some ⟨env.outage = .none ∧ r.1.1 = .OK,
          writeSucceeds cfg env.id env.handler s.toShared (.start stream)⟩)
  | .Unlink path => match env.handler with
    | [e] =>
      let result := e.syscall (s.fs.unlink (Server.getServerFilepath cfg path false))
      some (received env.outage (Server.Unlink cfg e path s.fs).2 {},
        if env.outage = .before then s else { s with fs := (Server.Unlink cfg e path s.fs).1 },
        some ⟨env.outage = .none, env.outage ≠ .before ∧ result.isOk⟩)
    | _ => none

/-- A server and the remote calls made to it so far. -/
structure Attempted where
  server : Server.State
  calls : List Attempt := []

def attempted (env : ServedEnv) (c : Client.Call Bytes) (l : Client.Local Bytes) (g : Attempted) :
    Option (c.Answer × Client.Local Bytes × Attempted) :=
  match c with
  | .disk c => (c.exec env.toEnv l).map fun r => (r.1, r.2, g)
  | .rpc c => (attempt cfg env g.server c).map fun r => (r.1, l, ⟨r.2.1, g.calls ++ r.2.2.toList⟩)

/-- The last remote call ran its handler, whose system calls succeeded. -/
def Attempted.Success (g : Attempted) : Prop := g.calls.getLast?.map Attempt.succeeded = some true

section Rules

variable {cfg} {α : Type} {l : Client.Local Bytes} {g : Attempted} {envs : List ServedEnv} {x : α × Client.Local Bytes × Attempted}

lemma attempted_disk {c : Client.LocalCall Bytes} {k : c.Answer → Client.Program Bytes α}
    (h : (Prog.call (.disk c) k).eval (attempted cfg) envs l g = some x) : ∃ env rest r l', envs = env :: rest ∧
      c.exec env.toEnv l = some (r, l') ∧ (k r).eval (attempted cfg) rest l' g = some x := by
  obtain ⟨env, rest, r, l', g', rfl, hexec, hrest⟩ := Prog.eval_call.mp h
  obtain ⟨⟨r', l''⟩, hcall, heq⟩ := Option.map_eq_some_iff.mp hexec
  cases heq
  exact ⟨env, rest, r', l'', rfl, hcall, hrest⟩

lemma attempted_rpc {c : Client.RemoteCall Bytes} {k : c.Answer → Client.Program Bytes α}
    (h : (Prog.call (.rpc c) k).eval (attempted cfg) envs l g = some x) : ∃ env rest r s' a, envs = env :: rest ∧
      attempt cfg env g.server c = some (r, s', a) ∧
        (k r).eval (attempted cfg) rest l ⟨s', g.calls ++ a.toList⟩ = some x := by
  obtain ⟨env, rest, r, l', g', rfl, hexec, hrest⟩ := Prog.eval_call.mp h
  obtain ⟨⟨r', s', a⟩, hcall, heq⟩ := Option.map_eq_some_iff.mp hexec
  cases heq
  exact ⟨env, rest, r', s', a, rfl, hcall, hrest⟩

end Rules

section Operations

variable {cfg path} {l l' : Client.Local Bytes} {s : Server.State} {g' : Attempted} {envs : List ServedEnv}
  {out : Client.Outcome}

theorem reports_afsUnlink (h : (Client.afsUnlink path).eval (attempted cfg) envs l ⟨s, []⟩ = some (out, l', g')) :
    Reports out.rc g'.Success ↔ ∃ a, g'.calls = [a] ∧ (a.ok ∨ a.succeeded) := by
  obtain ⟨env₁, envs, r₁, l₁, rfl, -, h⟩ := attempted_disk h
  obtain ⟨env₂, envs, r₂, l₂, rfl, -, h⟩ := attempted_disk h
  obtain ⟨env₃, envs, r₃, l₃, rfl, -, h⟩ := attempted_disk h
  obtain ⟨env, envs, res, s', a, rfl, hcall, h⟩ := attempted_rpc h
  obtain ⟨rfl, hx⟩ := Prog.eval_ret.mp h
  cases hx
  simp only [attempt] at hcall
  split at hcall
  · rename_i e _
    cases hcall
    cases hresult : e.syscall (s.fs.unlink (Server.getServerFilepath cfg path false)) <;> cases env.outage <;>
      simp [Reports, Attempted.Success, received, Server.Unlink, Server.respond, hresult, Errno.number_pos, Except.isOk,
        Except.toBool]
  · cases hcall

/-- What `Finish` returns and how the handler fared, for a stream that may have broken. -/
lemma attempt_Write {env : ServedEnv} {s' : Server.State} {a : Option Attempt} {chunks : List Bytes} {broken : Bool}
    {r : Status × Meta} (h : attempt cfg env s (.Write path chunks broken) = some (r, s', a)) :
    ∃ w, a = some w ∧ (w.ok = true ↔ r.1 = .OK) := by
  simp only [attempt] at h
  split_ifs at h with hbroken
  · cases h
    exact ⟨_, rfl, by simp⟩
  · obtain ⟨r', -, heq⟩ := Option.map_eq_some_iff.mp h
    cases heq
    refine ⟨_, rfl, ?_⟩
    cases env.outage <;> simp [received]

variable (l path envs) in
/-- The local file of a new path cannot be created. -/
def CreationFails : Prop := (l.entry path).cache.isSome ∨ ∃ env, envs[1]? = some env ∧ env.fault ≠ none

theorem reports_afsMknod (h : (Client.afsMknod path).eval (attempted cfg) envs l ⟨s, []⟩ = some (out, l', g')) :
    Reports out.rc g'.Success ↔ ∃ a as, g'.calls = a :: as ∧ a.ok ∧ ¬ a.succeeded ∧
      (CreationFails path l envs ∨ ∃ w, as = [w] ∧ w.ok ∧ w.succeeded) := by
  obtain ⟨env, envs, stat_content, s', a, rfl, hstat, h⟩ := attempted_rpc h
  obtain ⟨w, rfl, rfl, hcode⟩ : ∃ w, a = some w ∧ s' = s ∧ (stat_content.return_code = 0 ↔ ¬ w.ok ∨ w.succeeded) := by
    simp only [attempt] at hstat
    split at hstat
    · rename_i e _
      cases hstat
      refine ⟨_, rfl, rfl, ?_⟩
      cases hresult : e.syscall (s.fs.node (Server.getServerFilepath cfg path false)) with
      | error _ => cases env.outage <;> simp [received, Server.Stat, hresult, Except.isOk, Except.toBool]
      | ok n => cases n <;> cases env.outage <;> simp [received, Server.Stat, hresult, Except.isOk, Except.toBool]
    · cases hstat
  dsimp only [Prog.bind] at h
  split_ifs at h with hexists
  · obtain ⟨rfl, hx⟩ := Prog.eval_ret.mp h
    cases hx
    -- the file exists, or nobody knows: the result is the positive EEXIST
    refine iff_of_false (by simp [Reports, Errno.number]) ?_
    rintro ⟨a, as, hcalls, hok, hmissing, -⟩
    simp only [Option.toList_some, List.nil_append, List.cons.injEq] at hcalls
    obtain ⟨rfl, -⟩ := hcalls
    exact (hcode.mp hexists).elim (fun h => h hok) hmissing
  · obtain ⟨hok, hmissing⟩ : w.ok = true ∧ ¬ w.succeeded = true := by simpa [hcode] using hexists
    obtain ⟨env₂, envs, r, l₂, rfl, hopen, hrest⟩ := attempted_disk h
    rcases Client.LocalCall.exec_openExcl hopen with ⟨fd, hfault, hcache, hlt, hfree, rfl, rfl⟩ | ⟨e, rfl, rfl, hfail⟩
    · have hcreated : ¬ CreationFails path l (env :: env₂ :: envs) := by simp [CreationFails, hcache, hfault]
      obtain ⟨env₃, envs, r, l₃, rfl, hclose, h⟩ := attempted_disk hrest
      rcases Client.LocalCall.exec_close hclose with ⟨-, rfl, rfl⟩ | ⟨hnone, -⟩
      · obtain ⟨env₄, envs, sent, s₄, a, rfl, hsend, h⟩ := attempted_rpc h
        cases hsend
        obtain ⟨env₅, envs, r, s₅, a, rfl, hwrite, h⟩ := attempted_rpc h
        obtain ⟨w', rfl, hw'⟩ := attempt_Write hwrite
        obtain ⟨status, reply⟩ := r
        have hright : (∃ a as, (⟨s₅, [] ++ [w] ++ [] ++ [w']⟩ : Attempted).calls = a :: as ∧ a.ok ∧ ¬ a.succeeded ∧
            (CreationFails path l (env :: env₂ :: env₃ :: env₄ :: env₅ :: envs) ∨
              ∃ w, as = [w] ∧ w.ok ∧ w.succeeded)) ↔ w'.ok = true ∧ w'.succeeded = true := by
          simp [CreationFails, hcache, hfault, hok, hmissing]
        have hsuccess : (⟨s₅, [] ++ [w] ++ [] ++ [w']⟩ : Attempted).Success ↔ w'.succeeded = true := by
          simp [Attempted.Success]
        cases status with
        | OK =>
          obtain ⟨env₆, envs, r, l₆, rfl, -, h⟩ := attempted_disk h
          obtain ⟨rfl, hx⟩ := Prog.eval_ret.mp h
          cases hx
          refine Iff.trans ?_ hright.symm
          have hreplied : w'.ok = true := hw'.mpr rfl
          refine Iff.trans ?_ (and_iff_right hreplied).symm
          exact (or_iff_left (lt_irrefl 0)).trans ((and_iff_right rfl).trans hsuccess)
        | CANCELLED | NOT_FOUND | UNAVAILABLE =>
          obtain ⟨rfl, hx⟩ := Prog.eval_ret.mp h
          cases hx
          refine Iff.trans ?_ hright.symm
          have hlost : ¬ w'.ok = true := by simp [hw']
          exact iff_of_false (by simp [Reports, Errno.number]) fun h => hlost h.1
      · rw [Client.Local.file_of_lt _ hlt] at hnone
        simp at hnone
    · obtain ⟨rfl, hx⟩ := Prog.eval_ret.mp hrest
      cases hx
      have hpos := Errno.number_pos e
      refine iff_of_true (.inr (by simpa using hpos)) ⟨w, [], by simp, hok, hmissing, .inl ?_⟩
      rcases hfail with hfault | hcache
      · exact .inr ⟨env₂, rfl, by simp [hfault]⟩
      · exact .inl hcache

/-- The upload itself changes nothing and makes no call that counts. -/
lemma attempted_upload {i fuel pos : ℕ} {chunks : List Bytes} {g : Attempted} {x : List Bytes × Bool}
    (h : (Client.upload path i fuel pos chunks).eval (attempted cfg) envs l g = some (x, l', g')) : l' = l ∧ g' = g := by
  induction fuel generalizing pos chunks envs with
  | zero =>
    obtain ⟨-, -, r, -⟩ := attempted_disk h
    exact r.elim
  | succ fuel ih =>
    obtain ⟨env, envs, buf, l₁, rfl, hread, h⟩ := attempted_disk h
    obtain ⟨rfl, -⟩ := Client.LocalCall.exec_ifstreamRead hread
    cases buf with
    | none =>
      obtain ⟨-, hx⟩ := Prog.eval_ret.mp h
      cases hx
      exact ⟨rfl, rfl⟩
    | some buf =>
      obtain ⟨env, envs, sent, s', a, rfl, hsend, h⟩ := attempted_rpc h
      cases hsend
      dsimp only [Prog.bind] at h
      split_ifs at h
      · obtain ⟨-, hx⟩ := Prog.eval_ret.mp h
        cases hx
        exact ⟨rfl, by simp⟩
      · rw [Option.toList_none, List.append_nil] at h
        exact ih h
      · obtain ⟨-, hx⟩ := Prog.eval_ret.mp h
        cases hx
        exact ⟨rfl, by simp⟩

variable (l path envs) in
/-- The cache file cannot be opened for the upload. -/
def OpenFails : Prop := (l.entry path).cache = none ∨ ∃ env, envs[2]? = some env ∧ env.fault ≠ none

/-- A release up to the loop of its upload; if the cache file cannot be opened there is no result. -/
lemma attempted_afsRelease {fuel fh : ℕ} (hdirty : (l.entry path).dirty = true)
    (h : (Client.afsRelease fuel path fh).eval (attempted cfg) envs l ⟨s, []⟩ = some (out, l', g')) :
    ¬ OpenFails path l envs ∧ ∃ w, g'.calls = [w] ∧ out.rc = if w.ok then 0 else Errno.EIO.number := by
  obtain ⟨env₁, envs, r, l₁, rfl, hclose, h⟩ := attempted_disk h
  have hentry : l₁.entry = l.entry := by rcases Client.LocalCall.exec_close hclose with ⟨-, -, rfl⟩ | ⟨-, -, rfl⟩ <;> rfl
  obtain ⟨env₂, envs, r, l₂, rfl, hget, h⟩ := attempted_disk h
  cases hget
  dsimp only [Prog.bind] at h
  rw [if_pos (by rw [hentry, hdirty])] at h
  obtain ⟨env₃, envs, r, l₃, rfl, hopen, h⟩ := attempted_disk h
  obtain ⟨rfl, hr⟩ := Client.LocalCall.exec_ifstream hopen
  cases r with
  | none =>
    obtain ⟨-, -, r, -⟩ := attempted_disk h
    exact r.elim
  | some i =>
    obtain ⟨hfault, hcache⟩ := hr.resolve_right fun h => nomatch h.1
    rw [hentry] at hcache
    refine ⟨by simp [OpenFails, ← hcache, hfault], ?_⟩
    change Prog.eval _ (Client.upload path i fuel 0 [] >>= _) _ _ _ = _ at h
    obtain ⟨envs₁, envs₂, ⟨chunks, broken⟩, l₄, g₄, rfl, hupload, h⟩ := Prog.eval_bind.mp h
    obtain ⟨rfl, rfl⟩ := attempted_upload hupload
    obtain ⟨env₄, envs, reply, s', a, rfl, hwrite, h⟩ := attempted_rpc h
    obtain ⟨w, rfl, hw⟩ := attempt_Write hwrite
    obtain ⟨status, reply⟩ := reply
    cases status with
    | OK =>
      obtain ⟨env₅, envs, r, l₅, rfl, -, h⟩ := attempted_disk h
      obtain ⟨env₆, envs, r, l₆, rfl, -, h⟩ := attempted_disk h
      obtain ⟨rfl, hx⟩ := Prog.eval_ret.mp h
      cases hx
      exact ⟨w, rfl, by simp [hw]⟩
    | CANCELLED | NOT_FOUND | UNAVAILABLE =>
      obtain ⟨rfl, hx⟩ := Prog.eval_ret.mp h
      cases hx
      exact ⟨w, rfl, by simp [hw]⟩

theorem reports_afsRelease {fuel fh : ℕ} (hdirty : (l.entry path).dirty = true)
    (h : (Client.afsRelease fuel path fh).eval (attempted cfg) envs l ⟨s, []⟩ = some (out, l', g')) :
    ¬ OpenFails path l envs ∧ (Reports out.rc g'.Success ↔ ∃ w, g'.calls = [w] ∧ w.ok ∧ w.succeeded) := by
  obtain ⟨hopens, w, hcalls, hrc⟩ := attempted_afsRelease hdirty h
  refine ⟨hopens, ?_⟩
  rw [hrc]
  cases hok : w.ok <;> simp [Reports, Attempted.Success, hcalls, hok, Errno.number]

end Operations

/-- The calls of a release of a short file, with this outcome of the upload. -/
def releaseEnvs (outage : Client.Outage) (rest : List ServedEnv) : List ServedEnv :=
  List.replicate 5 ({} : ServedEnv) ++ { outage, handler := List.replicate 10 (.quiet 1) } :: rest

lemma not_reports_of_pos {rc : ℤ} {success : Prop} (h : 0 < rc) : ¬ Reports rc success := by
  unfold Reports
  omega

end AFSv1
