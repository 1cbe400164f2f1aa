import AFSv1.Foundations.Halting
import AFSv1.Server.Steps

/-! A `Write` call and a `GetContent` call that run to their end without failures while all other calls
stand still. -/
namespace AFSv1.Server
open Foundations Tables

variable (cfg : Config)

/-- No system call fails and the transport loses nothing. -/
def StepEnv.Smooth (env : StepEnv) : Prop := env.fault = none ∧ env.dropped = false

lemma StepEnv.smooth_quiet (now : UInt8) : (StepEnv.quiet now).Smooth := ⟨rfl, rfl⟩

lemma StepEnv.Smooth.syscall {env : StepEnv} (h : env.Smooth) {α : Type} (result : Except Errno α) :
    env.syscall result = result := by
  unfold StepEnv.syscall
  rw [h.1]

/-! ### Write -/

def WriteCall.next (id : ℕ) (env : StepEnv) (x : Shared × WriteCall) : Option (Shared × WriteCall) :=
  x.2.step cfg id env x.1

/-- The call has installed `data` at its path and replied with the modification time. -/
structure WriteCall.Stored (path data : Bytes) (stream : List FilepathContent) (x : Shared × WriteCall) : Prop where
  returned : x.2.pc = .returned .OK
  stream : x.2.stream = stream
  unlocked : x.1.lock = none
  file : ∃ i, x.1.fs.node (getServerFilepath cfg path false) = .ok (.file i) ∧ x.1.fs.file i = ⟨data, x.2.timestamp⟩

/-- The call has its temporary file open, or had it open. -/
structure WriteCall.Filling (path : Bytes) (stream : List FilepathContent) (i : ℕ) (sh : Shared) (c : WriteCall) :
    Prop where
  stream : c.stream = stream
  uncancelled : c.cancelled = false
  filepath : c.filepath = getServerFilepath cfg path true
  name : c.msg.filepath = path
  temp : ∃ a, sh.fs.resolve (getServerFilepath cfg path true) = .ok (.entry a) ∧
    sh.fs.entries.lookup a = some (.file i)
  target : sh.fs.Creatable (getServerFilepath cfg path false)

variable {cfg} {path data : Bytes} {stream : List FilepathContent} {id i : ℕ} {sh : Shared} {c : WriteCall}

/-- From the last chunk to the return. -/
lemma WriteCall.Filling.halts_close (h : c.Filling cfg path stream i sh) (hpc : c.pc = .close)
    (hdata : (sh.fs.file i).content = data) :
    Halts (WriteCall.next cfg id) StepEnv.Smooth (WriteCall.Stored cfg path data stream) (sh, c) := by
  obtain ⟨a, ha, hai⟩ := h.temp
  obtain ⟨b, hb, hdir⟩ := h.target
  have hnode := InodeFS.node_of_resolve ha hai
  set t := (sh.fs.file i).mtim with ht
  have hrename : sh.fs.rename (getServerFilepath cfg path true) (getServerFilepath cfg path false) =
      .ok (sh.fs.move a b (.file i) hai) := (InodeFS.rename_file_eq_ok ha hai).mpr ⟨b, hb, hdir, rfl⟩
  refine .of_eq (fun _ => (sh, { c with file := none, pc := .unlock })) (fun _ _ => by simp [next, step, hpc]) fun _ _ => ?_
  refine .of_eq (fun _ => ({ sh with lock := none }, { c with file := none, pc := .checkCancelled })) (fun _ _ => rfl)
    fun _ _ => ?_
  refine .of_eq (fun _ => ({ sh with lock := none }, { c with file := none, pc := .stat }))
    (fun _ _ => by simp [next, step, h.uncancelled]) fun _ _ => ?_
  refine .of_eq (fun _ => ({ sh with lock := none }, { c with file := none, timestamp := t, pc := .rename }))
    (fun env henv => ?_) fun _ _ => ?_
  · simp [next, step, statMtim, henv.syscall, h.filepath, hnode, ht]
  refine .of_eq (fun _ => ({ lock := none, fs := sh.fs.move a b (.file i) hai },
    { c with file := none, timestamp := t, pc := .returned .OK })) (fun env henv => ?_) fun _ _ => ?_
  · simp [next, step, henv.syscall, h.name, hrename]
  refine .final (fun _ => rfl) ⟨rfl, h.stream, rfl, i, ?_, ?_⟩
  · refine InodeFS.node_of_resolve ((InodeFS.sameDirs_move hai hdir).resolve hb) ?_
    rw [InodeFS.lookup_move, if_pos rfl]
  · exact congrArg (FileData.mk · t) hdata

lemma WriteCall.Filling.append (h : c.Filling cfg path stream i sh) (b now : Bytes) :
    c.Filling cfg path stream i { sh with fs := sh.fs.append i b now } := by
  obtain ⟨a, ha, hai⟩ := h.temp
  have hdirs := InodeFS.sameDirs_append sh.fs i b now
  exact ⟨h.stream, h.uncancelled, h.filepath, h.name, ⟨a, hdirs.resolve ha, by simpa using hai⟩, hdirs.creatable h.target⟩

/-- From any chunk on: the file receives this chunk and all that come after it. -/
lemma WriteCall.Filling.halts_append (h : c.Filling cfg path stream i sh) (hpc : c.pc = .append)
    (hfile : c.file = some i) (hended : c.ended = false) (hnames : ∀ msg ∈ c.incoming, msg.filepath = path)
    (hdata : (sh.fs.file i).content ++ c.msg.b ++ c.incoming.flatMap FilepathContent.b = data) :
    Halts (WriteCall.next cfg id) StepEnv.Smooth (WriteCall.Stored cfg path data stream) (sh, c) := by
  generalize hincoming : c.incoming = incoming at hnames hdata
  induction incoming generalizing sh c with
  | nil =>
    refine .of_eq (fun env => ({ sh with fs := sh.fs.append i c.msg.b env.now }, { c with pc := .read }))
      (fun _ _ => by simp [next, step, hpc, hfile]) fun env henv => ?_
    refine .of_eq (fun _ => ({ sh with fs := sh.fs.append i c.msg.b env.now }, { c with ended := true, pc := .close }))
      (fun env' henv' => ?_) fun _ _ => ?_
    · simp [next, step, nextMsg, hended, henv'.2, hincoming]
    obtain ⟨hstream, huncancelled, hfilepath, hname, htemp, htarget⟩ := h.append c.msg.b env.now
    exact halts_close ⟨hstream, huncancelled, hfilepath, hname, htemp, htarget⟩ rfl (by simpa using hdata)
  | cons msg incoming ih =>
    refine .of_eq (fun env => ({ sh with fs := sh.fs.append i c.msg.b env.now }, { c with pc := .read }))
      (fun _ _ => by simp [next, step, hpc, hfile]) fun env henv => ?_
    refine .of_eq (fun _ => ({ sh with fs := sh.fs.append i c.msg.b env.now }, { c with msg, incoming, pc := .append }))
      (fun env' henv' => ?_) fun _ _ => ?_
    · simp [next, step, nextMsg, hended, henv'.2, hincoming]
    obtain ⟨hstream, huncancelled, hfilepath, -, htemp, htarget⟩ := h.append c.msg.b env.now
    refine ih ⟨hstream, huncancelled, hfilepath, hnames msg (by simp), htemp, htarget⟩ rfl hfile hended rfl
      (fun m hm => hnames m (.tail _ hm)) ?_
    simpa using hdata

/-- A call with one path in all its messages stores their bytes. -/
theorem WriteCall.halts_start (hne : stream ≠ []) (hnames : ∀ msg ∈ stream, msg.filepath = path)
    (hlock : sh.lock = none) (htemp : sh.fs.Creatable (getServerFilepath cfg path true))
    (htarget : sh.fs.Creatable (getServerFilepath cfg path false)) :
    Halts (WriteCall.next cfg id) StepEnv.Smooth
      (WriteCall.Stored cfg path (stream.flatMap FilepathContent.b) stream) (sh, .start stream) := by
  obtain ⟨msg, incoming, rfl⟩ := List.exists_cons_of_ne_nil hne
  have hname := hnames msg (by simp)
  set c₁ : WriteCall := { WriteCall.start (msg :: incoming) with
    msg, incoming, filepath := getServerFilepath cfg path true, pc := .lock } with hc₁
  refine .of_eq (fun _ => (sh, c₁)) (fun env henv => ?_) fun _ _ => ?_
  · simp [next, step, WriteCall.start, nextMsg, henv.2, hc₁, hname]
  refine .of_eq (fun _ => ({ sh with lock := some id }, { c₁ with pc := .openTemp }))
    (fun _ _ => by simp [next, step, hc₁, hlock]) fun _ _ => ?_
  refine .step (fun env henv => ?_) fun env x henv hx => ?_
  · obtain ⟨i, fs, hopen⟩ := htemp.openTrunc env.now
    exact ⟨({ fs, lock := some id }, { c₁ with file := some i, pc := .append }),
      by simp [next, step, hc₁, henv.syscall, hopen]⟩
  · obtain ⟨i, fs, hopen⟩ := htemp.openTrunc env.now
    obtain rfl : x = ({ fs, lock := some id }, { c₁ with file := some i, pc := .append }) := by
      simpa [next, step, hc₁, henv.syscall, hopen, eq_comm] using hx
    obtain ⟨a, -, ha, hai, hempty⟩ := InodeFS.openTrunc_slot hopen
    refine Filling.halts_append (i := i) ⟨rfl, rfl, rfl, hname, ⟨a, ha, hai⟩,
      (InodeFS.sameDirs_openTrunc hopen).creatable htarget⟩ rfl rfl rfl (fun m hm => hnames m (.tail _ hm)) ?_
    simp [hempty, hc₁]

/-! ### GetContent -/

variable (cfg) in
def GetContentCall.next (fs : InodeFS) (env : StepEnv) (c : GetContentCall) : Option GetContentCall := c.step cfg env fs

/-- The call has sent the file in blocks, each with the modification time. -/
structure GetContentCall.Delivered (file : FileData) (c : GetContentCall) : Prop where
  returned : c.pc = .returned .OK
  sent : c.sent = (Bytes.blocks BUFSIZE file.content).map fun b => ⟨true, file.mtim, b⟩

/-- From any position on the call sends the rest of the file. -/
lemma GetContentCall.halts_read {fs : InodeFS} {c : GetContentCall} {file : FileData} (hpc : c.pc = .read)
    (hfile : c.file = some (.file i)) (hdata : fs.file i = file) (hexists : c.msg.file_exists = true)
    (htime : c.msg.timestamp = file.mtim) (hsent : c.sent ++ ((Bytes.blocks BUFSIZE (file.content.drop c.pos)).map
      fun b => ⟨true, file.mtim, b⟩) = (Bytes.blocks BUFSIZE file.content).map fun b => ⟨true, file.mtim, b⟩) :
    Halts (GetContentCall.next cfg fs) StepEnv.Smooth (GetContentCall.Delivered file) c := by
  generalize hrest : (file.content.drop c.pos).length = n at hsent
  induction n using Nat.strong_induction_on generalizing c with
  | _ n ih =>
    set buf := (file.content.drop c.pos).take BUFSIZE with hbuf
    have hlength : buf.length = min BUFSIZE n := by rw [hbuf, List.length_take, hrest]
    set c' : GetContentCall := { c with
      pos := c.pos + buf.length
      eof := buf.length < BUFSIZE
      msg := { c.msg with b := buf }
      sent := c.sent ++ [{ c.msg with b := buf }]
      pc := if buf.length < BUFSIZE then .returned .OK else .read } with hc'
    refine .of_eq (fun _ => c') (fun env henv => ?_) fun _ _ => ?_
    · simp [next, step, hpc, hfile, henv.1, henv.2, write, hdata, ← hbuf, hc']
    have hmsg : ({ c.msg with b := buf } : MetaContent) = ⟨true, file.mtim, buf⟩ := by simp [hexists, htime]
    rw [Bytes.blocks_eq (by decide), hrest] at hsent
    by_cases hshort : n < BUFSIZE
    · have hshort' : buf.length < BUFSIZE := by omega
      rw [if_pos hshort] at hsent
      refine .final (fun env => ?_) ⟨by simp [hc', hshort'], ?_⟩
      · simp [next, step, hc', hshort']
      · rw [← hsent, hc', hmsg, hbuf, List.take_of_length_le (by omega)]
        rfl
    · have hfull : buf.length = BUFSIZE := by omega
      rw [if_neg hshort] at hsent
      refine ih (n - BUFSIZE) ?_ (by simp [hc', hfull]) hfile hexists htime ?_ ?_
      · simp only [BUFSIZE] at hshort ⊢
        omega
      · rw [← hsent, hc', hmsg, hfull]
        simp [hbuf, List.drop_drop]
      · rw [hc', hfull, ← List.drop_drop, List.length_drop, hrest]

/-- A call that finds a file sends the whole of it. -/
theorem GetContentCall.halts_start {fs : InodeFS} (hnode : fs.node (getServerFilepath cfg path false) = .ok (.file i)) :
    Halts (GetContentCall.next cfg fs) StepEnv.Smooth (GetContentCall.Delivered (fs.file i)) { filepath := path } := by
  set c₁ : GetContentCall := { filepath := path, file := some (.file i), msg := { file_exists := true } } with hc₁
  refine .of_eq (fun _ => { c₁ with pc := .stat })
    (fun env henv => by simp [next, step, henv.syscall, hnode, hc₁]) fun _ _ => ?_
  refine .of_eq (fun _ => { c₁ with msg := { c₁.msg with timestamp := (fs.file i).mtim }, pc := .read })
    (fun env henv => by simp [next, step, statMtim, henv.syscall, hnode, hc₁]) fun _ _ => ?_
  exact halts_read (i := i) rfl rfl rfl rfl rfl (by simp [hc₁])

/-! ### As events of the server -/

variable {s s' : State} {envs : List StepEnv}

lemma WriteCall.next_returned {status : Status} (h : c.pc = .returned status) (env : StepEnv) :
    WriteCall.next cfg id env (sh, c) = none := by simp [next, step, h]

lemma GetContentCall.next_returned {fs : InodeFS} {c : GetContentCall} {status : Status} (h : c.pc = .returned status)
    (env : StepEnv) : GetContentCall.next cfg fs env c = none := by simp [next, step, h]

lemma run_write (hc : s.writes id = some c) : run cfg s (envs.map (.write id)) =
    (steps (WriteCall.next cfg id) envs (s.toShared, c)).map fun x =>
      { s with toShared := x.1, writes := Function.update s.writes id (some x.2) } := by
  induction envs generalizing s c with
  | nil => simp [run, steps, ← hc]
  | cons env envs ih =>
    rw [List.map_cons, run, steps, Option.map_bind, WriteCall.next]
    cases hstep : c.step cfg id env s.toShared with
    | none => simp [Server.step, hc, hstep]
    | some x =>
      simp only [Server.step, hc, hstep, Option.bind_some, Option.map_some]
      rw [ih (Function.update_self ..)]
      simp [Function.update_idem]

lemma run_getContent {c : GetContentCall} (hc : s.reads id = some c) : run cfg s (envs.map (.getContent id)) =
    (steps (GetContentCall.next cfg s.fs) envs c).map fun c' => { s with reads := Function.update s.reads id (some c') } := by
  induction envs generalizing s c with
  | nil =>
    have hself : Function.update s.reads id (some c) = s.reads := by simp [← hc]
    simp [run, steps, hself]
  | cons env envs ih =>
    rw [List.map_cons, run, steps, Option.map_bind, GetContentCall.next]
    cases hstep : c.step cfg env s.fs with
    | none => simp [Server.step, hc, hstep]
    | some x =>
      simp only [Server.step, hc, hstep, Option.bind_some, Option.map_some]
      rw [ih (Function.update_self ..)]
      simp [Function.update_idem]

variable (cfg) in
/-- A whole `Write` call: the status and the reply its client gets, and the server after it. -/
def callWrite (id : ℕ) (stream : List FilepathContent) (envs : List StepEnv) (s : State) :
    Option ((Status × Meta) × State) :=
  (run cfg s (.startWrite id stream :: envs.map (.write id))).bind fun s' => (s'.writes id).bind fun c =>
    match c.pc with
    | .returned .OK => some ((.OK, { timestamp := c.timestamp }), s')
    -- a reply comes with the status OK only
    | .returned status => some ((status, {}), s')
    | _ => none

variable (cfg) in
/-- A whole `GetContent` call: the messages its client gets, and the server after it. -/
def callGetContent (id : ℕ) (filepath : Bytes) (envs : List StepEnv) (s : State) :
    Option ((List MetaContent × Bool) × State) :=
  (run cfg s (.startGetContent id filepath :: envs.map (.getContent id))).bind fun s' => (s'.reads id).bind fun c =>
    match c.pc with
    | .returned status => some ((c.sent, status = .OK), s')
    | _ => none

/-- An upload stores its bytes. -/
theorem callWrite_eq_some (hlock : s.lock = none) (hid : s.writes id = none) (hne : stream ≠ [])
    (hnames : ∀ msg ∈ stream, msg.filepath = path) (htemp : s.fs.Creatable (getServerFilepath cfg path true))
    (htarget : s.fs.Creatable (getServerFilepath cfg path false)) :
    (∃ envs : List StepEnv, (∀ env ∈ envs, env.Smooth) ∧ (callWrite cfg id stream envs s).isSome) ∧
      ∀ (envs : List StepEnv) r s', (∀ env ∈ envs, env.Smooth) → callWrite cfg id stream envs s = some (r, s') →
        ∃ c, s'.writes id = some c ∧ r = (.OK, { timestamp := c.timestamp }) ∧ s'.reads = s.reads ∧
          WriteCall.Stored cfg path (stream.flatMap FilepathContent.b) stream (s'.toShared, c) := by
  have hhalts := @WriteCall.halts_start cfg path stream id s.toShared hne hnames hlock htemp htarget
  set s₁ : State := { s with writes := Function.update s.writes id (some (.start stream)) } with hs₁
  have hrun (envs : List StepEnv) : run cfg s (.startWrite id stream :: envs.map (.write id)) =
      (steps (WriteCall.next cfg id) envs (s.toShared, .start stream)).map fun x =>
        { s₁ with toShared := x.1, writes := Function.update s₁.writes id (some x.2) } := by
    rw [run, Server.step, if_pos hid, Option.bind_some]
    exact run_write (Function.update_self ..)
  constructor
  · obtain ⟨n, ⟨sh, c⟩, hsteps, -, hpost⟩ := hhalts.exists_steps (StepEnv.smooth_quiet 0)
    refine ⟨List.replicate n (.quiet 0), fun env henv => ?_, ?_⟩
    · rw [List.eq_of_mem_replicate henv]
      exact StepEnv.smooth_quiet 0
    · rw [callWrite, hrun, hsteps]
      simp [show c.pc = _ from hpost.returned]
  · intro envs r s' henvs hcall
    obtain ⟨s₂, hs₂, hcall⟩ := Option.bind_eq_some_iff.mp hcall
    obtain ⟨c, hc, hcall⟩ := Option.bind_eq_some_iff.mp hcall
    rw [hrun] at hs₂
    obtain ⟨⟨sh, c'⟩, hsteps, rfl⟩ := Option.map_eq_some_iff.mp hs₂
    obtain rfl : c' = c := by simpa using hc
    have hpost (status : Status) (hpc : c'.pc = .returned status) :=
      hhalts.post_of_steps henvs ⟨_, StepEnv.smooth_quiet 0⟩ hsteps (WriteCall.next_returned hpc)
    split at hcall
    · rename_i hpc
      cases hcall
      exact ⟨c', hc, rfl, rfl, hpost _ hpc⟩
    · rename_i status hother hpc
      have hreturned := (hpost _ hpc).returned
      rw [show c'.pc = _ from hpc] at hreturned
      cases hreturned
      exact absurd rfl hother
    · cases hcall

/-- A download of a file sends the file. -/
theorem callGetContent_eq_some (hid : s.reads id = none)
    (hnode : s.fs.node (getServerFilepath cfg path false) = .ok (.file i)) :
    (∃ envs : List StepEnv, (∀ env ∈ envs, env.Smooth) ∧ (callGetContent cfg id path envs s).isSome) ∧
      ∀ (envs : List StepEnv) r s', (∀ env ∈ envs, env.Smooth) → callGetContent cfg id path envs s = some (r, s') →
        ∃ c, s'.reads id = some c ∧ r = (c.sent, true) ∧ GetContentCall.Delivered (s.fs.file i) c := by
  have hhalts := @GetContentCall.halts_start cfg path i s.fs hnode
  set s₁ : State := { s with reads := Function.update s.reads id (some { filepath := path }) } with hs₁
  have hrun (envs : List StepEnv) : run cfg s (.startGetContent id path :: envs.map (.getContent id)) =
      (steps (GetContentCall.next cfg s.fs) envs { filepath := path }).map fun c =>
        { s₁ with reads := Function.update s₁.reads id (some c) } := by
    rw [run, Server.step, if_pos hid, Option.bind_some]
    exact run_getContent (Function.update_self ..)
  constructor
  · obtain ⟨n, c, hsteps, -, hpost⟩ := hhalts.exists_steps (StepEnv.smooth_quiet 0)
    refine ⟨List.replicate n (.quiet 0), fun env henv => ?_, ?_⟩
    · rw [List.eq_of_mem_replicate henv]
      exact StepEnv.smooth_quiet 0
    · rw [callGetContent, hrun, hsteps]
      simp [hpost.returned]
  · intro envs r s' henvs hcall
    obtain ⟨s₂, hs₂, hcall⟩ := Option.bind_eq_some_iff.mp hcall
    obtain ⟨c, hc, hcall⟩ := Option.bind_eq_some_iff.mp hcall
    rw [hrun] at hs₂
    obtain ⟨c', hsteps, rfl⟩ := Option.map_eq_some_iff.mp hs₂
    obtain rfl : c' = c := by simpa using hc
    split at hcall
    · rename_i status hpc
      have hpost := hhalts.post_of_steps henvs ⟨_, StepEnv.smooth_quiet 0⟩ hsteps (GetContentCall.next_returned hpc)
      rw [hpost.returned] at hpc
      cases hpc
      cases hcall
      exact ⟨c', hc, rfl, hpost⟩
    · cases hcall

end AFSv1.Server
