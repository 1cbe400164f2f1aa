import AFSv1.Client.Calls
import AFSv1.Server.Alone

/-! A client and the server together, without failures: the operations of the client run against the
handlers of the server, and a file that is uploaded and downloaded again is the same file. -/
namespace AFSv1
open Foundations Tables

/-- What a client's operation does not decide: for a remote call this is the number under which the
server runs its handler, the environments of the handler's steps, and what `stat` finds beside the
file tree. -/
structure ServedEnv extends Client.Env where
  id : ℕ := 0
  handler : List Server.StepEnv := []
  sb : StatContent := {}

/-- No call and no step of a handler fails. -/
def ServedEnv.Smooth (env : ServedEnv) : Prop := env.fault = none ∧ ∀ e ∈ env.handler, e.Smooth

variable (cfg : Server.Config)

/-- A remote call over a transport that loses nothing, while the other calls at the server stand still. -/
def serve (env : ServedEnv) (s : Server.State) : (c : Client.RemoteCall Bytes) → Option (c.Answer × Server.State)
  | .Stat path => match env.handler with
    | [e] => some (Server.Stat cfg e env.sb path s.fs, s)
    | _ => none
  | .GetContent path => Server.callGetContent cfg env.id path env.handler s
  | .writerWrite => some (true, s)
  | .Write path chunks broken =>
    if broken then none else Server.callWrite cfg env.id (chunks.map fun b => ⟨path, b⟩) env.handler s
  | .Unlink path => match env.handler with
    | [e] => some ((Server.Unlink cfg e path s.fs).2, { s with fs := (Server.Unlink cfg e path s.fs).1 })
    | _ => none

/-- A call of a client, on its own disk or at the server. -/
def served (env : ServedEnv) (c : Client.Call Bytes) (l : Client.Local Bytes) (s : Server.State) :
    Option (c.Answer × Client.Local Bytes × Server.State) :=
  match c with
  | .disk c => (c.exec env.toEnv l).map fun r => (r.1, r.2, s)
  | .rpc c => (serve cfg env s c).map fun r => (r.1, l, r.2)

def servedLogic : Prog.Logic (Client.Call Bytes) Client.Call.Answer ServedEnv (Client.Local Bytes) Server.State where
  exec := served cfg
  ok env _ _ _ := env.Smooth
  rely _ _ := Eq
  pre c l s := ∃ env : ServedEnv, env.Smooth ∧ (served cfg env c l s).isSome
  rely_refl _ _ _ := rfl
  rely_trans _ _ _ _ _ := .trans
  inv_call _ _ _ := id

section Rules

variable {cfg} {α : Type} {post : α → Client.Local Bytes → Server.State → Prop} {l : Client.Local Bytes} {s : Server.State}

lemma served_disk {c : Client.LocalCall Bytes} {k : c.Answer → Client.Program Bytes α}
    (hsome : ∃ env : Client.Env, env.fault = none ∧ (c.exec env l).isSome)
    (h : ∀ env r l', Client.Env.fault env = none → c.exec env l = some (r, l') → (k r).Safe (servedLogic cfg) post l' s) :
    Prog.Safe (servedLogic cfg) post (.call (.disk c) k) l s := by
  rintro s' rfl -
  refine ⟨?_, fun env r l' s' hok hexec => ⟨trivial, ?_⟩⟩
  · obtain ⟨env, hfault, hcall⟩ := hsome
    exact ⟨{ env with }, ⟨hfault, by simp⟩, by simpa [served] using hcall⟩
  · obtain ⟨x, hcall, hx⟩ := Option.map_eq_some_iff.mp hexec
    cases hx
    exact h env.toEnv x.1 x.2 hok.1 hcall

lemma served_rpc {c : Client.RemoteCall Bytes} {k : c.Answer → Client.Program Bytes α}
    (hsome : ∃ env : ServedEnv, env.Smooth ∧ (serve cfg env s c).isSome)
    (h : ∀ env r s', ServedEnv.Smooth env → serve cfg env s c = some (r, s') → (k r).Safe (servedLogic cfg) post l s') :
    Prog.Safe (servedLogic cfg) post (.call (.rpc c) k) l s := by
  rintro s' rfl -
  refine ⟨?_, fun env r l' s' hok hexec => ⟨trivial, ?_⟩⟩
  · obtain ⟨env, hsmooth, hcall⟩ := hsome
    exact ⟨env, hsmooth, by simpa [served] using hcall⟩
  · obtain ⟨x, hcall, hx⟩ := Option.map_eq_some_iff.mp hexec
    cases hx
    exact h env x.1 x.2 hok hcall

lemma served_ret {a : α} (h : post a l s) : Prog.Safe (servedLogic cfg) post (.ret a) l s := fun _ hs _ => hs ▸ h

lemma served_total {p : Client.Program Bytes α} (h : p.Safe (servedLogic cfg) post l s) :
    p.Total (served cfg) ServedEnv.Smooth post l s := by
  refine ⟨h.exists_eval (fun c l s hpre => ?_) trivial, fun envs a l' s' henvs heval => ?_⟩
  · obtain ⟨env, hsmooth, hsome⟩ := hpre
    obtain ⟨⟨r, l', s'⟩, hexec⟩ := Option.isSome_iff_exists.mp hsome
    exact ⟨env, r, l', s', hsmooth, hsmooth, hexec⟩
  · exact (h.eval trivial (fun env henv _ _ _ => henvs env henv) heval).2

end Rules

/-- The server can take another upload and another download of the path. -/
structure Ready (path : Bytes) (s : Server.State) : Prop where
  unlocked : s.lock = none
  write : ∃ id, s.writes id = none
  read : ∃ id, s.reads id = none
  temp : s.fs.Creatable (Server.getServerFilepath cfg path true)
  target : s.fs.Creatable (Server.getServerFilepath cfg path false)

/-- The upload of `data` from the state `s`: its messages, its reply, and the file it leaves at the path. -/
structure Uploaded (path data : Bytes) (s s' : Server.State) (timestamp : Bytes) : Prop where
  call : ∃ id c, s.writes id = none ∧ s'.writes id = some c ∧ c.pc = .returned .OK ∧ c.timestamp = timestamp ∧
    c.stream ≠ [] ∧ (∀ msg ∈ c.stream, msg.filepath = path ∧ msg.b.length ≤ BUFSIZE) ∧ c.content = data
  file : ∃ i, s'.fs.node (Server.getServerFilepath cfg path false) = .ok (.file i) ∧ s'.fs.file i = ⟨data, timestamp⟩

/-- The download of `data` from the state `s`: its messages, and what it leaves at the client. -/
structure Downloaded (path data timestamp : Bytes) (s s' : Server.State) (l' : Client.Local Bytes) : Prop where
  call : ∃ id c, s.reads id = none ∧ s'.reads id = some c ∧ c.pc = .returned .OK ∧ c.sent ≠ [] ∧
    (∀ msg ∈ c.sent, msg.file_exists = true ∧ msg.timestamp = timestamp ∧ msg.b.length ≤ BUFSIZE) ∧
    c.sent.flatMap MetaContent.b = data
  cache : (l'.entry path).content = some data
  last_modified : (l'.entry path).last_modified = some timestamp

section Upload

variable {cfg} {path : Bytes} {l : Client.Local Bytes} {s : Server.State}

/-- The loop of `afs_release` sends the file in blocks. -/
lemma served_upload {i : ℕ} {b : Bytes} (hb : (l.entry path).inode i = b) (fuel pos : ℕ) (chunks : List Bytes)
    (hfuel : b.length - pos < fuel * BUFSIZE) :
    (Client.upload path i fuel pos chunks).Safe (servedLogic cfg) (fun r l' s' => l' = l ∧ s' = s ∧
      r = (chunks ++ Bytes.blocks BUFSIZE (b.drop pos), false)) l s := by
  induction fuel generalizing pos chunks with
  | zero => omega
  | succ fuel ih =>
    set buf := (b.drop pos).take BUFSIZE with hbuf
    have hrest : (b.drop pos).length = b.length - pos := List.length_drop
    have hlength : buf.length = min BUFSIZE (b.drop pos).length := List.length_take
    refine served_disk ⟨{}, rfl, rfl⟩ fun env r l' hfault hread => ?_
    obtain ⟨rfl, hr⟩ := Client.LocalCall.exec_ifstreamRead hread
    obtain ⟨-, hr⟩ := hr.resolve_right fun h => h.1 hfault
    rw [hb, ← hbuf] at hr
    subst hr
    refine served_rpc ⟨{}, ⟨rfl, by simp⟩, rfl⟩ fun env r s' _ hwrite => ?_
    cases hwrite
    rw [Bytes.blocks_eq (by decide)]
    dsimp only [Prog.bind]
    rw [if_pos rfl]
    by_cases hshort : (b.drop pos).length < BUFSIZE
    · rw [if_pos hshort, if_pos (by omega)]
      refine served_ret ⟨rfl, rfl, ?_⟩
      rw [hbuf, List.take_of_length_le (by omega)]
    · have hfull : buf.length = BUFSIZE := by omega
      rw [if_neg hshort, if_neg (by omega), List.append_cons, hfull, List.drop_drop]
      apply ih
      rw [Nat.succ_mul] at hfuel
      omega

/-- The upload of a stream with one path. -/
lemma served_Write {α : Type} {post : α → Client.Local Bytes → Server.State → Prop} {chunks : List Bytes}
    {k : Status × Meta → Client.Program Bytes α} (hready : Ready cfg path s) (hne : chunks ≠ [])
    (h : ∀ id c s', s.writes id = none → s'.writes id = some c → s'.reads = s.reads →
      Server.WriteCall.Stored cfg path chunks.flatten (chunks.map fun b => ⟨path, b⟩) (s'.toShared, c) →
        (k (.OK, { timestamp := c.timestamp })).Safe (servedLogic cfg) post l s') :
    Prog.Safe (servedLogic cfg) post (.call (.rpc (.Write path chunks false)) k) l s := by
  set stream : List FilepathContent := chunks.map fun b => ⟨path, b⟩ with hstream
  have hbytes : stream.flatMap FilepathContent.b = chunks.flatten := by simp [hstream, List.flatMap_map]
  have hstream_ne : stream ≠ [] := by simpa [hstream] using hne
  have hnames : ∀ msg ∈ stream, msg.filepath = path := by simp [hstream]
  have hcall (id : ℕ) (hid : s.writes id = none) :=
    Server.callWrite_eq_some hready.unlocked hid hstream_ne hnames hready.temp hready.target
  refine served_rpc ?_ fun env r s₁ hsmooth hwrite => ?_
  · obtain ⟨id, hid⟩ := hready.write
    obtain ⟨handler, hhandler, hsome⟩ := (hcall id hid).1
    exact ⟨{ id, handler }, ⟨rfl, hhandler⟩, by simpa [serve] using hsome⟩
  simp only [serve, Bool.false_eq_true, if_false] at hwrite
  have hid : s.writes env.id = none := by
    by_contra hid
    simp [Server.callWrite, Server.run, Server.step, hid] at hwrite
  obtain ⟨c, hc, rfl, hreads, hstored⟩ := (hcall env.id hid).2 _ _ _ hsmooth.2 hwrite
  rw [hbytes] at hstored
  exact h env.id c s₁ hid hc hreads hstored

/-- A release of a dirty file uploads the whole of it. -/
theorem served_afsRelease {i fuel : ℕ} {d : Bytes} (fh : ℕ) (hready : Ready cfg path s)
    (hdirty : (l.entry path).dirty = true) (hcache : (l.entry path).cache = some i) (hd : (l.entry path).inode i = d)
    (hfuel : d.length < fuel * BUFSIZE) :
    (Client.afsRelease fuel path fh).Safe (servedLogic cfg) (fun out l' s' => out.rc = 0 ∧ ∃ timestamp,
      Uploaded cfg path d s s' timestamp ∧ s'.reads = s.reads ∧
        l'.entry path = { l.entry path with is_dirty := some false, last_modified := some timestamp }) l s := by
  refine served_disk ⟨{}, rfl, ?_⟩ fun env r l₁ _ hclose => ?_
  · simp only [Client.LocalCall.exec]
    split_ifs <;> rfl
  have hentry : l₁.entry = l.entry := by rcases Client.LocalCall.exec_close hclose with ⟨-, -, rfl⟩ | ⟨-, -, rfl⟩ <;> rfl
  rw [← hentry] at hdirty hcache hd ⊢
  refine served_disk ⟨{}, rfl, rfl⟩ fun env r l₂ _ hget => ?_
  cases hget
  dsimp only [Prog.bind]
  rw [if_pos hdirty]
  refine served_disk ⟨{}, rfl, ?_⟩ fun env r l₂ hfault hopen => ?_
  · simp [Client.LocalCall.exec, Client.onCache, hcache]
  obtain ⟨rfl, hr⟩ := Client.LocalCall.exec_ifstream hopen
  obtain ⟨-, hr⟩ := hr.resolve_right fun h => h.2 hfault
  rw [hcache] at hr
  subst hr
  change Prog.Safe _ _ (Client.upload path i fuel 0 [] >>= _) _ _
  refine Prog.Safe.bind trivial ((served_upload hd fuel 0 [] (by simpa using hfuel)).mono ?_)
  rintro r l₃ s' - ⟨rfl, rfl, rfl⟩
  set stream : List FilepathContent := (Bytes.blocks BUFSIZE d).map fun b => ⟨path, b⟩ with hstream
  have hne : stream ≠ [] := by simp [hstream, Bytes.blocks_ne_nil]
  have hmsgs : ∀ msg ∈ stream, msg.filepath = path ∧ msg.b.length ≤ BUFSIZE := by
    intro msg hmsg
    obtain ⟨b, hb, rfl⟩ := List.mem_map.mp hmsg
    exact ⟨rfl, Bytes.blocks_length_le (by decide) hb⟩
  have hbytes : stream.flatMap FilepathContent.b = d := by simp [hstream, List.flatMap_map]
  refine served_Write hready (by simp [Bytes.blocks_ne_nil]) fun id c s₁ hid hc hreads hstored => ?_
  simp only [List.nil_append, List.drop_zero, Bytes.blocks_flatten, ← hstream] at hstored
  refine served_disk ⟨{}, rfl, rfl⟩ fun env r l₄ _ hset => ?_
  cases hset
  refine served_disk ⟨{}, rfl, rfl⟩ fun env r l₄ _ hset => ?_
  cases hset
  refine served_ret ⟨rfl, c.timestamp, ⟨?_, ?_⟩, hreads, by simp⟩
  · refine ⟨_, c, hid, hc, hstored.returned, rfl, ?_⟩
    rw [Server.WriteCall.content, show c.stream = stream from hstored.stream]
    exact ⟨hne, hmsgs, hbytes⟩
  · exact hstored.file

end Upload

section Download

variable {cfg} {path : Bytes} {l : Client.Local Bytes} {s : Server.State}

lemma served_writeChunks {i : ℕ} {b : Bytes} (msgs : List MetaContent) (hcache : (l.entry path).cache = some i)
    (hb : (l.entry path).inode i = b) :
    (Client.writeChunks path (some (i, b.length)) msgs).Safe (servedLogic cfg) (fun _ l' s' => s' = s ∧ l'.fds = l.fds ∧
      (l'.entry path).content = some (b ++ msgs.flatMap MetaContent.b)) l s := by
  induction msgs generalizing l b with
  | nil => exact served_ret ⟨rfl, rfl, by simp [Client.Entry.content, hcache, hb]⟩
  | cons msg msgs ih =>
    refine served_disk ⟨{}, rfl, rfl⟩ fun env r l' hfault hwrite => ?_
    obtain ⟨rfl, rfl⟩ := (Client.LocalCall.exec_ofstreamWrite hwrite).resolve_right fun h => h.2.2.1 hfault
    have hrest := @ih (l.modify path fun e => e.setInode i ((e.inode i).overlay b.length msg.b)) (b ++ msg.b)
      (by simpa using hcache) (by simp [hb, Bytes.overlay_append])
    rw [List.length_append, List.append_assoc] at hrest
    exact hrest

lemma served_openHandle {i : ℕ} (hcache : (l.entry path).cache = some i) (hfd : ∃ fd < 2 ^ 31, l.fds fd = none) :
    (Client.openHandle path).Safe (servedLogic cfg) (fun out l' s' => out.rc = 0 ∧ l'.entry = l.entry ∧ s' = s) l s := by
  rw [Client.openHandle_eq]
  obtain ⟨fd, hlt, hfree⟩ := hfd
  refine served_disk ⟨{ fd }, rfl, ?_⟩ fun env r l' hfault hopen => ?_
  · simp [Client.LocalCall.exec, Client.onCache, hcache, Client.Local.allocate, show fd < 2147483648 from hlt, hfree]
  · rcases Client.LocalCall.exec_openFile hopen with ⟨j, fd, -, -, -, -, rfl, rfl⟩ | ⟨e, -, -, hfail⟩
    · exact served_ret ⟨rfl, rfl, rfl⟩
    · simp [hfault, hcache] at hfail

/-- The second half of `afs_open` stores the file that the server has. -/
theorem served_download {i : ℕ} {file : FileData} (hread : ∃ id, s.reads id = none)
    (hnode : s.fs.node (Server.getServerFilepath cfg path false) = .ok (.file i)) (hfile : s.fs.file i = file)
    (hfd : ∃ fd < 2 ^ 31, l.fds fd = none) :
    (Client.download path).Safe (servedLogic cfg) (fun out l' s' => out.rc = 0 ∧
      Downloaded path file.content file.mtim s s' l') l s := by
  have hcall (id : ℕ) (hid : s.reads id = none) := Server.callGetContent_eq_some hid hnode
  refine served_rpc ?_ fun env r s₁ hsmooth hget => ?_
  · obtain ⟨id, hid⟩ := hread
    obtain ⟨handler, hhandler, hsome⟩ := (hcall id hid).1
    exact ⟨{ id, handler }, ⟨rfl, hhandler⟩, hsome⟩
  have hid : s.reads env.id = none := by
    by_contra hid
    simp [serve, Server.callGetContent, Server.run, Server.step, hid] at hget
  obtain ⟨c, hc, rfl, hreturned, hsent⟩ := (hcall env.id hid).2 _ _ _ hsmooth.2 hget
  rw [hfile] at hsent
  have hmsgs : ∀ msg ∈ c.sent, msg.file_exists = true ∧ msg.timestamp = file.mtim ∧ msg.b.length ≤ BUFSIZE := by
    rw [hsent]
    intro msg hmsg
    obtain ⟨b, hb, rfl⟩ := List.mem_map.mp hmsg
    exact ⟨rfl, rfl, Bytes.blocks_length_le (by decide) hb⟩
  have hbytes : c.sent.flatMap MetaContent.b = file.content := by simp [hsent, List.flatMap_map]
  have hne : c.sent ≠ [] := by simp [hsent, Bytes.blocks_ne_nil]
  obtain ⟨msg, msgs, hcons⟩ := List.exists_cons_of_ne_nil hne
  have hlast : (msgs.getLastD msg).timestamp = file.mtim := (hmsgs _ (hcons ▸ List.getLastD_mem_cons)).2.1
  have hexists := (hmsgs msg (by simp [hcons])).1
  rw [hcons]
  dsimp only [Prog.bind]
  rw [if_pos hexists]
  refine served_disk ⟨{}, rfl, rfl⟩ fun env r l₁ hfault hopen => ?_
  obtain ⟨-, rfl, rfl⟩ := (Client.LocalCall.exec_ofstream hopen).resolve_right fun h => h.1 hfault
  set l₁ := l.modify path fun e => e.openTrunc.2 with hl₁
  change Prog.Safe _ _ (Client.writeChunks path (some (_, ([] : Bytes).length)) (msg :: msgs) >>= _) _ _
  refine Prog.Safe.bind trivial ((served_writeChunks (l := l₁) (msg :: msgs) (by simp [hl₁, Client.Entry.openTrunc_cache])
    (by simp [hl₁, Client.Entry.openTrunc_inode])).mono ?_)
  rintro - l₂ s' - ⟨rfl, hfds, hcontent⟩
  rw [if_pos rfl]
  rw [← hcons, hbytes, List.nil_append] at hcontent
  refine served_disk ⟨{}, rfl, rfl⟩ fun env r l₃ _ hset => ?_
  cases hset
  refine served_disk ⟨{}, rfl, rfl⟩ fun env r l₃ _ hset => ?_
  cases hset
  obtain ⟨j, hj, hcontent'⟩ := Option.map_eq_some_iff.mp hcontent
  refine (served_openHandle (i := j) (by simpa using hj) (by simpa [hfds, hl₁] using hfd)).mono ?_
  rintro out l' s₂ - ⟨hrc, hentry, rfl⟩
  refine ⟨hrc, ⟨_, c, hid, hc, hreturned, hne, hmsgs, hbytes⟩, ?_, ?_⟩
  · rw [hentry]
    simpa [Client.Entry.content] using hcontent
  · rw [hentry]
    simp only [Client.Local.modify_entry_self, hlast]

/-- An open without a usable cache file downloads the file. -/
theorem served_afsOpen {i : ℕ} {file : FileData} (hread : ∃ id, s.reads id = none)
    (hnode : s.fs.node (Server.getServerFilepath cfg path false) = .ok (.file i)) (hfile : s.fs.file i = file)
    (hfd : ∃ fd < 2 ^ 31, l.fds fd = none)
    (hstale : ∀ t, (l.entry path).last_modified = some t → t ≠ localCreatFile ∧ t ≠ file.mtim) :
    (Client.afsOpen path).Safe (servedLogic cfg) (fun out l' s' => out.rc = 0 ∧
      Downloaded path file.content file.mtim s s' l') l s := by
  refine served_disk ⟨{}, rfl, rfl⟩ fun env count l₁ _ hcount => ?_
  cases hcount
  dsimp only [Prog.bind]
  cases hlast : (l.entry path).last_modified with
  | none =>
    rw [if_neg (by simp)]
    exact served_download hread hnode hfile hfd
  | some t =>
    obtain ⟨hcreated, htime⟩ := hstale t hlast
    rw [if_pos (by simp)]
    refine served_disk ⟨{}, rfl, rfl⟩ fun env t' l₁ _ hget => ?_
    cases hget
    dsimp only [Prog.bind]
    rw [hlast, Option.getD_some, if_neg hcreated]
    refine served_rpc ⟨{ handler := [.quiet 0] }, ⟨rfl, by simp [Server.StepEnv.smooth_quiet]⟩, rfl⟩
      fun env sb s₁ hsmooth hstat => ?_
    simp only [serve] at hstat
    split at hstat
    · rename_i e hhandler
      cases hstat
      have he : e.Smooth := hsmooth.2 e (by simp [hhandler])
      refine served_disk ⟨{}, rfl, rfl⟩ fun env t' l₁ _ hget => ?_
      cases hget
      dsimp only [Prog.bind]
      rw [hlast, Option.getD_some, if_neg (by simpa [Server.Stat, he.syscall, hnode, hfile] using htime.symm)]
      refine served_disk ⟨{}, rfl, rfl⟩ fun env r l₁ _ herase => ?_
      cases herase
      refine served_disk ⟨{}, rfl, ?_⟩ fun env r l₁ _ hunlink => ?_
      · simp only [Client.LocalCall.exec]
        split <;> rfl
      apply served_download hread hnode hfile
      rcases Client.LocalCall.exec_unlink hunlink with ⟨-, -, rfl⟩ | ⟨e, -, rfl, -⟩ <;> simpa using hfd
    · cases hstat

end Download

/-- What is uploaded and then downloaded, by any client that does not have it already, is the same
content under the timestamp of the upload, in messages that fit the buffer. -/
theorem roundTrip_total (path d : Bytes) (fuel fh i : ℕ) (l : Client.Local Bytes) (s : Server.State)
    (hready : Ready cfg path s) (hdirty : (l.entry path).dirty = true) (hcache : (l.entry path).cache = some i)
    (hd : (l.entry path).inode i = d) (hfuel : d.length < fuel * BUFSIZE) :
    (Client.afsRelease fuel path fh).Total (served cfg) ServedEnv.Smooth (fun out l' s' =>
      out.rc = 0 ∧ ∃ timestamp, Uploaded cfg path d s s' timestamp ∧ (l'.entry path).last_modified = some timestamp ∧
        ∀ l₁ : Client.Local Bytes, (∃ fd < 2 ^ 31, l₁.fds fd = none) →
          (∀ t, (l₁.entry path).last_modified = some t → t ≠ localCreatFile ∧ t ≠ timestamp) →
            (Client.afsOpen path).Total (served cfg) ServedEnv.Smooth (fun out₁ l₁' s₁' =>
              out₁.rc = 0 ∧ Downloaded path d timestamp s' s₁' l₁') l₁ s') l s := by
  refine served_total ((served_afsRelease fh hready hdirty hcache hd hfuel).mono ?_)
  rintro out l' s' - ⟨hrc, timestamp, hup, hreads, hentry⟩
  refine ⟨hrc, timestamp, hup, by rw [hentry], fun l₁ hfd hstale => ?_⟩
  obtain ⟨j, hnode, hfile⟩ := hup.file
  exact served_total (served_afsOpen (by rw [hreads]; exact hready.read) hnode hfile hfd hstale)

/-- A client with a file of a zero byte and a newline that the server does not have. -/
def dirtyClient : Client.Local Bytes where
  entry _ := { is_dirty := some true, cache := some 0, inode := fun _ => [0, 10], next := 1 }

lemma ready_example : Ready Server.exampleConfig (Bytes.ascii "/f") Server.exampleState :=
  ⟨by decide, ⟨0, rfl⟩, ⟨0, rfl⟩, by decide, by decide⟩

theorem roundTrip_total_zeroByte : ∃ envs out l' s', (Client.afsRelease 1 (Bytes.ascii "/f") 3).eval
    (served Server.exampleConfig) envs dirtyClient Server.exampleState = some (out, l', s') ∧ out.rc = 0 ∧
      ∃ timestamp, Uploaded Server.exampleConfig (Bytes.ascii "/f") [0, 10] Server.exampleState s' timestamp := by
  have h := roundTrip_total Server.exampleConfig (Bytes.ascii "/f") [0, 10] 1 3 0 dirtyClient Server.exampleState
    ready_example rfl rfl rfl (by decide)
  obtain ⟨⟨envs, ⟨out, l', s'⟩, henvs, heval⟩, hpost⟩ := h
  obtain ⟨hrc, timestamp, hup, -⟩ := hpost envs out l' s' henvs heval
  exact ⟨envs, out, l', s', heval, hrc, timestamp, hup⟩

end AFSv1
