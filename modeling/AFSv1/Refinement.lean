import AFSv1.Deployment

/-! The deployed system refines the one with an atomic server: the clients cannot tell that the handlers run side
by side, and what holds of all runs with the atomic server holds of the files in the tree. -/
namespace AFSv1
open Foundations Tables

/-! ### The streams of the uploads -/

section Streams

open Server

/-- An upload to the path: unless it is cancelled, its stream brings a message before it ends. -/
structure Server.WriteCall.Carries (path : Bytes) (c : WriteCall) : Prop where
  names : ∀ msg ∈ c.incoming, msg.filepath = path
  first : c.pc = .readFirst → c.incoming ≠ [] ∧ c.ended = false
  named : c.pc ≠ .readFirst → c.msg.filepath = path ∨
    c.cancelled = true ∧ c.pc ≠ .stat ∧ c.pc ≠ .rename ∧ c.pc ≠ .returned .OK

variable {cfg : Config} {path : Bytes} {c c' : WriteCall} {s s' : State}

lemma carries_start {chunks : List Bytes} (h : chunks ≠ []) :
    (WriteCall.start (chunks.map fun b => ⟨path, b⟩)).Carries path :=
  ⟨by simp [WriteCall.start], by simp [WriteCall.start, h], by simp [WriteCall.start]⟩

lemma Server.WriteStep.carries {id : ℕ} {env : StepEnv} {sh sh' : Shared} (hw : WriteStep cfg id env sh c sh' c')
    (h : c.Carries path) : c'.Carries path := by
  obtain ⟨hnames, hfirst, hnamed⟩ := h
  cases hw with
  | readFirst hpc msg incoming hnext =>
    obtain ⟨-, hcons⟩ := nextMsg_eq_some hnext
    exact ⟨fun m hm => hnames m (by simp [hcons, hm]), by simp, fun _ => .inl (hnames msg (by simp [hcons]))⟩
  | readNone hpc hnext =>
    obtain ⟨hne, hended⟩ := hfirst hpc
    have hcancelled : c.cancelled = true := by
      by_contra hcancelled
      obtain ⟨msg, incoming, hcons⟩ := List.exists_cons_of_ne_nil hne
      simp [WriteCall.nextMsg, hended, hcancelled, hcons] at hnext
    exact ⟨hnames, by simp, fun _ => .inr ⟨hcancelled, by simp⟩⟩
  | read hpc msg incoming hnext =>
    obtain ⟨-, hcons⟩ := nextMsg_eq_some hnext
    exact ⟨fun m hm => hnames m (by simp [hcons, hm]), by simp, fun _ => .inl (hnames msg (by simp [hcons]))⟩
  | _ =>
    refine ⟨hnames, by simp, fun _ => ?_⟩
    simp_all

/-- What an event does to an upload that is under way. -/
theorem writes_carries {e : Event} {id : ℕ} (hs : step cfg s e = some s') (hc : s.writes id = some c)
    (h : c.Carries path) : ∃ c', s'.writes id = some c' ∧ c'.stream = c.stream ∧ c'.Carries path ∧
      (c.pc = .returned .OK → c'.timestamp = c.timestamp) := by
  obtain ⟨c', hc'⟩ := writes_persist cfg hs hc
  refine ⟨c', hc', ?_⟩
  rcases writes_step cfg hs hc' with ⟨hnone, -⟩ | ⟨c₁, hc₁, hcall⟩
  · rw [hc] at hnone
    cases hnone
  · obtain rfl : c = c₁ := Option.some.inj (hc.symm.trans hc₁)
    rcases hcall with ⟨rfl, -⟩ | ⟨-, rfl⟩ | ⟨env, -, hstep⟩
    · exact ⟨rfl, h, fun _ => rfl⟩
    · exact ⟨rfl, ⟨h.names, h.first, fun hpc => (h.named hpc).imp_right fun hc => ⟨rfl, hc.2⟩⟩, fun _ => rfl⟩
    · have hw := writeStep_of_step cfg hstep
      exact ⟨hw.stream, hw.carries h, fun hpc => absurd hpc (hw.returned.1 .OK)⟩

end Streams

/-! ### The relation -/

section Relation

open Server

/-- What an upload answers once it has taken effect. -/
def writeReply (env : Client.Env) (timestamp : Bytes) : Status × Meta :=
  if env.outage = .none then (.OK, { timestamp }) else (.UNAVAILABLE, {})

/-- What a download answers once it has found a file, or none. -/
def getContentReply (env : Client.Env) (found : Option FileData) : List MetaContent × Bool :=
  match env.delivered with
  | none => (messages found, true)
  | some n => ((messages found).take n, false)

def Client.Version.data (v : Client.Version) : FileData := ⟨v.content, v.mtim⟩

variable (cfg : Config) (paths : Set Bytes)

/-- What a client waits for, and the call it would have made without the waiting, with its answer if it has taken
effect in the store. -/
inductive Waits (x : Atomic) (s : State) : Option Waiting → Option ((c : Client.Call Bytes) × Option c.Answer) → Prop where
  | idle : Waits x s none none
  | write (id : ℕ) (env : Client.Env) (path : Bytes) (chunks : List Bytes) (o : Option (Status × Meta)) (c : WriteCall)
      (hpath : path ∈ paths ∧ path ≠ []) (hchunks : chunks ≠ []) (hc : s.writes id = some c)
      (hstream : c.stream = chunks.map fun b => ⟨path, b⟩) (hcarries : c.Carries path)
      (ho : o = if x.wrote id then some (writeReply env c.timestamp) else none) :
      Waits x s (some (.write id env)) (some ⟨.rpc (.Write path chunks false), o⟩)
  | getContent (id : ℕ) (env : Client.Env) (path : Bytes) (o : Option (List MetaContent × Bool)) (c : GetContentCall)
      (hpath : path ∈ paths ∧ path ≠ []) (hc : s.reads id = some c) (hname : c.filepath = path)
      (ho : o = (x.read id).map (getContentReply env)) :
      Waits x s (some (.getContent id env)) (some ⟨.rpc (.GetContent path), o⟩)
  | lostWrite (sent : List MetaContent) (env : Client.Env) (path : Bytes) (chunks : List Bytes) (o : Option (Status × Meta))
      (ho : env.outage ≠ .none → o = none ∨ o = some (.UNAVAILABLE, {})) :
      Waits x s (some (.lost sent env)) (some ⟨.rpc (.Write path chunks false), o⟩)
  | lostGetContent (sent : List MetaContent) (env : Client.Env) (path : Bytes) (o : Option (List MetaContent × Bool))
      (ho : o = none ∧ sent = [] ∨ ∃ v, o = some (getContentReply env v) ∧ sent <+: messages v) :
      Waits x s (some (.lost sent env)) (some ⟨.rpc (.GetContent path), o⟩)

variable {A : Type}

/-- The call at the server, an upload or a download, by its number. -/
def Waiting.call : Waiting → Option (ℕ ⊕ ℕ)
  | .write id _ => some (.inl id)
  | .getContent id _ => some (.inr id)
  | .lost _ _ => none

/-- The server with its clients and the atomic one, by way of the atomic store. -/
structure Served (x : Atomic) (i : Site A) (g : Client.Remote Bytes)
    (φ : System.Pending A (Client.Call Bytes) Client.Call.Answer) : Prop where
  clean : ∃ known version, Clean cfg paths known version i.server
  linear : Linear cfg paths x i.server
  files : ∀ p ∈ paths, p ≠ [] → x.store p = (g.files p).map Client.Version.data
  times : ∀ y ∈ g.history, (y.2.mtim : Bytes) ∈ i.times
  waits : ∀ a, Waits paths x i.server (i.waiting a) (φ a)
  apart : ∀ a b w w', i.waiting a = some w → i.waiting b = some w' → w.call ≠ none → w.call = w'.call → a = b

/-! ### The assumptions -/

/-- What is assumed of a step of the server: what `linearizable` needs; that removals come from the clients; and
that each version has a modification time of its own and comes from a client that is waiting for it. -/
structure Site.Regular (e : LifeEvent) (i : Site A) : Prop where
  paths : OnPaths paths e
  alone : OpensAlone i.server e
  undisturbed : ∀ r, Undisturbed r i.server e
  smooth : e.Smooth
  removals : ∀ p env, e ≠ .handler (.unlink p env)
  versions : ∀ t, Site.stamp i.server e = some t → t.length = timespecSize ∧ t ∉ i.times ∧
    ∃ a id env env', e = .handler (.write id env) ∧ i.waiting a = some (.write id env')

/-- An upload has a message. Only a read error of the client makes one without. -/
def HasChunks : Client.Call Bytes → Prop
  | .rpc (.Write _ chunks _) => chunks ≠ []
  | .rpc (.Stat _) | .rpc (.GetContent _) | .rpc .writerWrite | .rpc (.Unlink _) | .disk _ => True

variable (startOk : A → Client.Operation Bytes → Client.Mount Bytes → Prop)
  (diskOk : Client.Env → Client.LocalCall Bytes → Client.Local Bytes → Prop)

/-- What is assumed of a deployment. -/
def Deployment.terms : Terms A (Client.Operation Bytes) (Client.Call Bytes) SiteEnv (ℕ × Client.Env) LifeEvent
    (Client.Mount Bytes) (Site A) where
  start a op m := (op.path ∈ paths ∧ op.path ≠ []) ∧ startOk a op m
  call env c m i := match c with
    | .disk c => diskOk env.toEnv c m.toLocal
    | .rpc (.Unlink path) =>
      env.handler.fault = none ∧ ∀ r, Undisturbed r i.server (.handler (.unlink path env.handler))
    | .rpc _ => env.handler.fault = none
  invoke _ _ c _ := HasChunks c
  own := Site.Regular paths

/-- What follows for the calls without the waiting. -/
def diskCallOk (env : Client.Env) (c : Client.Call Bytes) (m : Client.Mount Bytes) : Prop :=
  match c with
  | .disk c => diskOk env c m.toLocal
  | .rpc _ => True

end Relation

/-! ### Calls that wait -/

section Waits

open Server

variable {cfg : Config} {paths : Set Bytes} {x : Atomic} {s s' : State} {w : Option Waiting}
  {o : Option ((c : Client.Call Bytes) × Option c.Answer)}

lemma messages_data (g : Client.Remote Bytes) (path : Bytes) :
    messages ((g.files path).map Client.Version.data) = g.getContent path := by
  unfold Client.Remote.getContent messages
  cases g.files path <;> rfl

/-- A download keeps its path. -/
lemma reads_filepath {e : Event} {r : ℕ} {c : GetContentCall} (hs : step cfg s e = some s') (hc : s.reads r = some c) :
    ∃ c', s'.reads r = some c' ∧ c'.filepath = c.filepath := by
  rcases reads_step cfg (r := r) hs with ⟨heq, -⟩ | ⟨filepath, -, hnone, -⟩ | ⟨env, c₁, c', -, hc₁, hstep, hc', -⟩
  · exact ⟨c, heq.trans hc, rfl⟩
  · rw [hc] at hnone
    cases hnone
  · obtain rfl : c = c₁ := Option.some.inj (hc.symm.trans hc₁)
    exact ⟨c', hc', hstep.filepath⟩

/-- Clients go on waiting while the server makes a step at which their calls do not take effect. -/
lemma Waits.step (h : Waits paths x s w o) (hlin : Linear cfg paths x s) {e : Event} (hs : Server.step cfg s e = some s')
    (hwrote : ∀ id env, w = some (.write id env) → (x.step s (.handler e)).wrote id = x.wrote id)
    (hread : ∀ id env, w = some (.getContent id env) → (x.step s (.handler e)).read id = x.read id) :
    Waits paths (x.step s (.handler e)) s' w o := by
  cases h with
  | idle => exact .idle
  | write id env path chunks o c hpath hchunks hc hstream hcarries ho =>
    obtain ⟨c', hc', hstream', hcarries', htime⟩ := writes_carries hs hc hcarries
    refine .write id env path chunks o c' hpath hchunks hc' (hstream'.trans hstream) hcarries' ?_
    rw [hwrote id env rfl, ho]
    split_ifs with htrue
    · rw [htime ((hlin.wrote id c hc).1 htrue)]
    · rfl
  | getContent id env path o c hpath hc hname ho =>
    obtain ⟨c', hc', hname'⟩ := reads_filepath hs hc
    exact .getContent id env path o c' hpath hc' (hname'.trans hname) (by rw [hread id env rfl, ho])
  | lostWrite sent env path chunks o ho => exact .lostWrite sent env path chunks o ho
  | lostGetContent sent env path o ho => exact .lostGetContent sent env path o ho

/-- The server dies: the calls that have taken effect have, the others never will. -/
lemma Waits.lose (h : Waits paths x s w o) (hlin : Linear cfg paths x s) :
    Waits paths { store := x.store } s' (w.map (Waiting.lose s)) o := by
  cases h with
  | idle => exact .idle
  | write id env path chunks o c hpath hchunks hc hstream hcarries ho =>
    refine .lostWrite _ env path chunks o fun houtage => ?_
    rw [ho]
    split_ifs
    · right
      rw [writeReply, if_neg houtage]
    · exact .inl rfl
  | getContent id env path o c hpath hc hname ho =>
    refine .lostGetContent _ env path o ?_
    obtain ⟨hnone, hsome⟩ := (hlin.reads id c hc (by rw [hname]; exact hpath.2)).sent_initial
    rw [hc, Option.elim_some, ho]
    cases hread : x.read id with
    | none => exact .inl ⟨rfl, hnone hread⟩
    | some v => exact .inr ⟨v, rfl, hsome v hread⟩
  | lostWrite sent env path chunks o ho => exact .lostWrite sent env path chunks o ho
  | lostGetContent sent env path o ho => exact .lostGetContent sent env path o ho

lemma Waits.idle_eq (h : Waits paths x s none o) : o = none := by
  cases h
  rfl

end Waits

/-! ### The steps -/

section Steps

open Server

variable {A : Type} [DecidableEq A] {cfg : Config} {paths : Set Bytes} {x : Atomic} {i : Site A} {g : Client.Remote Bytes}
  {φ : System.Pending A (Client.Call Bytes) Client.Call.Answer}
  {diskOk : Client.Env → Client.LocalCall Bytes → Client.Local Bytes → Prop}

lemma machine_exec_rpc {env : Client.Env} {c : Client.RemoteCall Bytes} {m : Client.Mount Bytes} {r : c.Answer}
    {g' : Client.Remote Bytes} (h : c.exec env g = some (r, g')) :
    (Client.machine Bytes).exec env (.rpc c) m g = some (r, m, g') := by
  simp [Client.machine, Client.Call.exec, h]

omit [DecidableEq A] in
/-- The server's own invariants after an event. -/
lemma Served.next (h : Served cfg paths x i g φ) {e : Event} {s' : State} (he : OnPaths paths (.handler e))
    (halone : OpensAlone i.server (.handler e)) (hun : ∀ r, Undisturbed r i.server (.handler e))
    (hsmooth : LifeEvent.Smooth (.handler e)) (hs : step cfg i.server e = some s') :
    (∃ known version, Clean cfg paths known version s') ∧ Linear cfg paths (x.step i.server (.handler e)) s' := by
  obtain ⟨known, version, hclean⟩ := h.clean
  have hs' : lifeStep cfg i.server (.handler e) = some s' := hs
  exact ⟨⟨_, _, (hclean.step he halone hs').2⟩, h.linear.step hclean he halone hun hsmooth hs'⟩

variable (diskOk) in
/-- The rename of an upload takes effect for the client that waits for it. -/
theorem Served.publish (h : Served cfg paths x i g φ) {id : ℕ} {env : StepEnv} {c : WriteCall} {s' : State}
    (hc : i.server.writes id = some c) (hpoint : c.pc = .rename ∧ c.msg.filepath ≠ [])
    (hreg : i.Regular paths (.handler (.write id env))) (hs : step cfg i.server (.write id env) = some s') :
    ∃ a call env' r g', φ a = some ⟨call, none⟩ ∧
      (∀ m, diskCallOk diskOk env' call m ∧ (Client.machine Bytes).exec env' call m g = some (r, m, g')) ∧
      Served cfg paths (x.step i.server (.handler (.write id env)))
        { server := s', waiting := i.waiting, times := c.timestamp :: i.times } g'
        (Function.update φ a (some ⟨call, some r⟩)) := by
  have hstamp : Site.stamp i.server (.handler (.write id env)) = some c.timestamp := by simp [Site.stamp, hc, hpoint]
  obtain ⟨hlength, hnew, a, id', env₁, env₀, heq, hwait⟩ := hreg.versions _ hstamp
  cases heq
  have hstep : x.step i.server (.handler (.write id env)) = { x with
      store := Function.update x.store c.msg.filepath (some ⟨c.content, c.timestamp⟩)
      wrote := Function.update x.wrote id true } := by
    simp [Atomic.step, hc, hpoint]
  obtain ⟨hclean, hlinear⟩ := h.next hreg.paths hreg.alone hreg.undisturbed hreg.smooth hs
  have hwaits := h.waits a
  rw [hwait] at hwaits
  generalize hφ : φ a = o at hwaits
  cases hwaits with
  | write _ _ path chunks o c₀ hpath hchunks hc₀ hstream hcarries ho =>
    obtain rfl : c = c₀ := Option.some.inj (hc.symm.trans hc₀)
    have hwrote : x.wrote id = false := by
      by_contra htrue
      have hpc := (h.linear.wrote id c hc).1 (by simpa using htrue)
      rw [hpoint.1] at hpc
      cases hpc
    have hname : c.msg.filepath = path :=
      (hcarries.named (by simp [hpoint.1])).resolve_right fun hcancel => hcancel.2.2.1 hpoint.1
    have hcontent : c.content = chunks.flatten := by simp [WriteCall.content, hstream, List.flatMap_map]
    have hfresh : g.Fresh ⟨c.timestamp, hlength⟩ := by
      intro y hy heq
      apply hnew
      rw [show c.timestamp = (y.2.mtim : Bytes) from congrArg Subtype.val heq]
      exact h.times y hy
    set v : Client.Version := ⟨chunks.flatten, ⟨c.timestamp, hlength⟩⟩ with hv
    set env' : Client.Env := { env₀ with
      outage := if env₀.outage = .none then .none else .after
      now := ⟨c.timestamp, hlength⟩ } with henv'
    have hexec : (Client.RemoteCall.Write path chunks false).exec env' g =
        some (writeReply env₀ c.timestamp, g.publish path v hfresh) := by
      by_cases houtage : env₀.outage = .none <;>
        simp [Client.RemoteCall.exec, henv', houtage, hchunks, hfresh, writeReply, hv]
    refine ⟨a, .rpc (.Write path chunks false), env', writeReply env₀ c.timestamp, g.publish path v hfresh,
      by simp [hφ, ho, hwrote],
      fun m => ⟨trivial, machine_exec_rpc hexec⟩, hclean, hlinear, fun p hp hne => ?_, ?_, fun b => ?_, h.apart⟩
    · rw [hstep, hname]
      by_cases hpp : p = path
      · subst hpp
        simp [Client.Remote.publish, hv, Client.Version.data, hcontent]
      · simp [Client.Remote.publish, hpp, h.files p hp hne]
    · intro y hy
      rcases List.mem_cons.mp hy with rfl | hy
      · exact List.mem_cons_self
      · exact List.mem_cons_of_mem _ (h.times y hy)
    · by_cases hb : b = a
      · subst hb
        rw [Function.update_self, hwait]
        obtain ⟨c', hc', hstream', hcarries', -⟩ := writes_carries hs hc hcarries
        refine .write id env₀ path chunks _ c' hpath hchunks hc' (hstream'.trans hstream) hcarries' ?_
        obtain ⟨c₁, sh, c₂, hc₁, hcall, rfl⟩ := write_step cfg hs
        obtain rfl : c = c₁ := Option.some.inj (hc.symm.trans hc₁)
        have htime : c'.timestamp = c.timestamp := by
          simp only [Function.update_self, Option.some.injEq] at hc'
          subst hc'
          have hw := writeStep_of_step cfg hcall
          cases hw <;> simp_all
        simp [hstep, htime]
      · rw [Function.update_of_ne hb]
        refine (h.waits b).step h.linear hs (fun id' env₂ hid => Atomic.step_wrote (fun env₃ heq => ?_) (by simp))
          fun id' env₂ _ => Atomic.step_read (by simp) (by simp)
        cases heq
        exact hb (h.apart b a _ _ hid hwait (by simp [Waiting.call]) rfl)

omit [DecidableEq A] in
/-- A step at which no client's call takes effect. -/
lemma Served.silent (h : Served cfg paths x i g φ) {e : Event} {s' : State} (hreg : i.Regular paths (.handler e))
    (hs : step cfg i.server e = some s')
    (hstore : (x.step i.server (.handler e)).store = x.store)
    (hwrote : ∀ a id env, i.waiting a = some (.write id env) → (x.step i.server (.handler e)).wrote id = x.wrote id)
    (hread : ∀ a id env, i.waiting a = some (.getContent id env) → (x.step i.server (.handler e)).read id = x.read id) :
    Served cfg paths (x.step i.server (.handler e)) { i with server := s' } g φ := by
  obtain ⟨hclean, hlinear⟩ := h.next hreg.paths hreg.alone hreg.undisturbed hreg.smooth hs
  exact ⟨hclean, hlinear, fun p hp hne => by rw [hstore]; exact h.files p hp hne, h.times,
    fun a => (h.waits a).step h.linear hs (fun id env => hwrote a id env) fun id env => hread a id env, h.apart⟩

variable (diskOk) in
/-- The moment of a download is that of the client that waits for it. -/
theorem Served.find (h : Served cfg paths x i g φ) {id : ℕ} {env : StepEnv} {c : GetContentCall} {s' : State} {a : A}
    {env₀ : Client.Env} (hc : i.server.reads id = some c)
    (hpoint : c.pc = .stat ∨ c.pc = .openFile ∧ x.store c.filepath = none)
    (hwait : i.waiting a = some (.getContent id env₀)) (hreg : i.Regular paths (.handler (.getContent id env)))
    (hs : step cfg i.server (.getContent id env) = some s') :
    ∃ call r, φ a = some ⟨call, none⟩ ∧
      (∀ m, diskCallOk diskOk env₀ call m ∧ (Client.machine Bytes).exec env₀ call m g = some (r, m, g)) ∧
      Served cfg paths (x.step i.server (.handler (.getContent id env))) { i with server := s' } g
        (Function.update φ a (some ⟨call, some r⟩)) := by
  have hstep : x.step i.server (.handler (.getContent id env)) = { x with
      read := Function.update x.read id (some (x.store c.filepath)) } := by
    simp only [Atomic.step, hc]
    rw [if_pos hpoint]
  obtain ⟨hclean, hlinear⟩ := h.next hreg.paths hreg.alone hreg.undisturbed hreg.smooth hs
  have hwaits := h.waits a
  rw [hwait] at hwaits
  generalize hφ : φ a = o at hwaits
  cases hwaits with
  | getContent _ _ path o c₀ hpath hc₀ hname ho =>
    obtain rfl : c = c₀ := Option.some.inj (hc.symm.trans hc₀)
    have hunread : x.read id = none := by
      have hreading := h.linear.reads id c hc (by rw [hname]; exact hpath.2)
      rcases hpoint with hpc | ⟨hpc, -⟩ <;> simp only [GetContentCall.Reading, hpc] at hreading <;> exact hreading.1
    have hmessages : messages (x.store c.filepath) = g.getContent path := by
      rw [hname, h.files path hpath.1 hpath.2, messages_data]
    have hexec : (Client.RemoteCall.GetContent path).exec env₀ g = some (getContentReply env₀ (x.store c.filepath), g) := by
      rw [getContentReply, hmessages]
      simp only [Client.RemoteCall.exec]
      cases env₀.delivered <;> rfl
    refine ⟨.rpc (.GetContent path), getContentReply env₀ (x.store c.filepath), by rw [ho, hunread]; rfl,
      fun m => ⟨trivial, machine_exec_rpc hexec⟩, hclean, hlinear, fun p hp hne => ?_, h.times, fun b => ?_, h.apart⟩
    · rw [hstep]
      exact h.files p hp hne
    · by_cases hb : b = a
      · subst hb
        rw [Function.update_self, hwait]
        obtain ⟨c', hc', hname'⟩ := reads_filepath hs hc
        exact .getContent id env₀ path _ c' hpath hc' (hname'.trans hname) (by simp [hstep])
      · rw [Function.update_of_ne hb]
        refine (h.waits b).step h.linear hs (fun id' env₂ _ => Atomic.step_wrote (by simp) (by simp))
          fun id' env₂ hid => Atomic.step_read (fun env₃ heq => ?_) (by simp)
        cases heq
        exact hb (h.apart b a _ _ hid hwait (by simp [Waiting.call]) rfl)

variable (diskOk) in
/-- A step of the server is the moment of one client's call at most. -/
theorem Served.own (h : Served cfg paths x i g φ) {e : LifeEvent} {i' : Site A} (hreg : i.Regular paths e)
    (hown : Site.own cfg e i = some i') :
    (∃ x', Served cfg paths x' i' g φ) ∨ ∃ a call env r g', φ a = some ⟨call, none⟩ ∧
      (∀ m, diskCallOk diskOk env call m ∧ (Client.machine Bytes).exec env call m g = some (r, m, g')) ∧
      ∃ x', Served cfg paths x' i' g' (Function.update φ a (some ⟨call, some r⟩)) := by
  obtain ⟨s', hs, rfl⟩ := Option.map_eq_some_iff.mp hown
  cases e with
  | restart =>
    obtain ⟨known, version, hclean⟩ := h.clean
    have hlinear := h.linear.step hclean hreg.paths hreg.alone hreg.undisturbed hreg.smooth hs
    refine .inl ⟨_, ⟨_, _, (hclean.step hreg.paths hreg.alone hs).2⟩, hlinear, h.files, h.times,
      fun a => (h.waits a).lose h.linear, fun a b w w' hwait _ hcall => ?_⟩
    obtain ⟨w₀, -, rfl⟩ := Option.map_eq_some_iff.mp hwait
    cases w₀ <;> exact absurd rfl hcall
  | handler e =>
    cases e with
    | write id env =>
      obtain ⟨c, sh, c', hc, -, -⟩ := write_step cfg hs
      by_cases hpoint : c.pc = .rename ∧ c.msg.filepath ≠ []
      · obtain ⟨a, call, env', r, g', hφ, hexec, hnext⟩ := h.publish diskOk hc hpoint hreg hs
        refine .inr ⟨a, call, env', r, g', hφ, hexec, x.step i.server (.handler (.write id env)), ?_⟩
        simpa [Site.stamp, hc, hpoint] using hnext
      · have hstamp : Site.stamp i.server (.handler (.write id env)) = none := by simp [Site.stamp, hc, hpoint]
        have hstep : x.step i.server (.handler (.write id env)) = x := by
          simp only [Atomic.step, hc]
          rw [if_neg hpoint]
        refine .inl ⟨x.step i.server (.handler (.write id env)), ?_⟩
        rw [hstamp]
        exact h.silent hreg hs (by rw [hstep]) (fun _ _ _ _ => by rw [hstep]) fun _ _ _ _ => by rw [hstep]
    | getContent id env =>
      have hs' := hs
      simp only [lifeStep, Server.step, Option.bind_eq_some_iff, Option.map_eq_some_iff] at hs'
      obtain ⟨c, hc, -⟩ := hs'
      by_cases hmoment : (c.pc = .stat ∨ c.pc = .openFile ∧ x.store c.filepath = none) ∧
          ∃ a env₀, i.waiting a = some (.getContent id env₀)
      · obtain ⟨hpoint, a, env₀, hwait⟩ := hmoment
        obtain ⟨call, r, hφ, hexec, hnext⟩ := h.find diskOk hc hpoint hwait hreg hs
        exact .inr ⟨a, call, env₀, r, g, hφ, hexec, _, hnext⟩
      · refine .inl ⟨_, h.silent hreg hs ?_ (fun _ _ _ _ => Atomic.step_wrote (by simp) (by simp)) ?_⟩
        · exact Atomic.step_store (by simp) (by simp)
        · intro a id' env₀ hwait
          by_cases hid : id' = id
          · subst hid
            have hpoint : ¬ (c.pc = .stat ∨ c.pc = .openFile ∧ x.store c.filepath = none) :=
              fun hpoint => hmoment ⟨hpoint, a, env₀, hwait⟩
            simp only [Atomic.step, hc]
            rw [if_neg hpoint]
          · exact Atomic.step_read (fun env' heq => hid (by cases heq; rfl)) (by simp)
    | unlink filepath env => exact absurd rfl (hreg.removals filepath env)
    | rmdir filepath env => exact hreg.paths.elim
    | mkdir filepath env => exact hreg.paths.elim
    | startWrite _ _ | startGetContent _ _ | cancel _ =>
      exact .inl ⟨_, h.silent hreg hs rfl (fun _ _ _ _ => rfl) fun _ _ _ _ => rfl⟩

/-- A client that waits no more. -/
lemma Served.leave (h : Served cfg paths x i g φ) (a : A) :
    Served cfg paths x (i.leave a) g (Function.update φ a none) := by
  have hother {b : A} {w : Waiting} (hw : (i.leave a).waiting b = some w) : i.waiting b = some w := by
    by_cases hb : b = a
    · subst hb
      simp [Site.leave] at hw
    · simpa [Site.leave, hb] using hw
  refine ⟨h.clean, h.linear, h.files, h.times, fun b => ?_, fun b b' w w' hb hb' =>
    h.apart b b' w w' (hother hb) (hother hb')⟩
  by_cases hb : b = a
  · subst hb
    simpa [Site.leave] using .idle
  · simpa [Site.leave, hb] using h.waits b

lemma Waits.arrived {s : State} {w : Waiting} {o : Option ((c : Client.Call Bytes) × Option c.Answer)}
    (h : Waits paths x s (some w) o) : (∀ id, w.call = some (.inl id) → s.writes id ≠ none) ∧
      ∀ id, w.call = some (.inr id) → s.reads id ≠ none := by
  cases h with
  | write id env path chunks o c hpath hchunks hc =>
    refine ⟨?_, by simp [Waiting.call]⟩
    rintro _ ⟨⟩
    simp [hc]
  | getContent id env path o c hpath hc =>
    refine ⟨by simp [Waiting.call], ?_⟩
    rintro _ ⟨⟩
    simp [hc]
  | lostWrite | lostGetContent => simp [Waiting.call]

/-- A client begins to wait for a call that has just arrived. -/
lemma Served.arrive (h : Served cfg paths x i g φ) {a : A} {e : Event} {s' : State} {w : Waiting} {c : Client.Call Bytes}
    (hnext : (∃ known version, Clean cfg paths known version s') ∧ Linear cfg paths (x.step i.server (.handler e)) s')
    (hstep : x.step i.server (.handler e) = x) (hs : step cfg i.server e = some s')
    (hwaits : Waits paths x s' (some w) (some ⟨c, none⟩))
    (hwrite : ∀ id, w.call = some (.inl id) → i.server.writes id = none)
    (hread : ∀ id, w.call = some (.inr id) → i.server.reads id = none) :
    Served cfg paths x { i with server := s', waiting := Function.update i.waiting a (some w) } g
      (Function.update φ a (some ⟨c, none⟩)) := by
  have hfresh (b : A) (w' : Waiting) (hb : i.waiting b = some w') (hcall : w.call ≠ none) : w.call ≠ w'.call := by
    intro heq
    have hold := h.waits b
    rw [hb] at hold
    rcases hw : w.call with _ | id | id
    · exact hcall hw
    · exact hold.arrived.1 id (heq ▸ hw) (hwrite id hw)
    · exact hold.arrived.2 id (heq ▸ hw) (hread id hw)
  obtain ⟨hclean, hlinear⟩ := hnext
  rw [hstep] at hlinear
  refine ⟨hclean, hlinear, h.files, h.times, fun b => ?_, fun b b' w₁ w₂ hb hb' hcall heq => ?_⟩
  · by_cases hb : b = a
    · subst hb
      simpa using hwaits
    · have hold := (h.waits b).step h.linear hs (fun _ _ _ => by rw [hstep]) fun _ _ _ => by rw [hstep]
      rw [hstep] at hold
      simpa [hb] using hold
  · dsimp only at hb hb'
    by_cases hba : b = a <;> by_cases hba' : b' = a
    · rw [hba, hba']
    · subst hba
      rw [Function.update_self, Option.some.injEq] at hb
      rw [Function.update_of_ne hba'] at hb'
      subst hb
      exact absurd heq (hfresh b' w₂ hb' hcall)
    · subst hba'
      rw [Function.update_self, Option.some.injEq] at hb'
      rw [Function.update_of_ne hba] at hb
      subst hb'
      exact absurd heq.symm (hfresh b w₁ hb (heq ▸ hcall))
    · rw [Function.update_of_ne hba] at hb
      rw [Function.update_of_ne hba'] at hb'
      exact h.apart b b' w₁ w₂ hb hb' hcall heq

/-- A client hands over a call. -/
theorem Served.invoke (h : Served cfg paths x i g φ) {a : A} {j : ℕ × Client.Env} {c : Client.Call Bytes} {i' : Site A}
    (hpath : OnPath paths c) (hchunks : HasChunks c) (hinvoke : i.invoke cfg a j c = some i') :
    φ a = none ∧ Served cfg paths x i' g (Function.update φ a (some ⟨c, none⟩)) := by
  unfold Site.invoke at hinvoke
  split at hinvoke
  · rename_i path chunks hwait
    obtain ⟨s', hs, rfl⟩ := Option.map_eq_some_iff.mp hinvoke
    have hwaits := h.waits a
    rw [hwait] at hwaits
    refine ⟨hwaits.idle_eq, ?_⟩
    have hid : i.server.writes j.1 = none := by
      by_contra hid
      simp [Server.step, hid] at hs
    have hsome : s'.writes j.1 = some (.start (chunks.map fun b => ⟨path, b⟩)) := by
      have hs := hs
      simp only [Server.step, if_pos hid, Option.some.injEq] at hs
      subst hs
      simp
    have hnext := h.next (e := .startWrite j.1 _) ⟨path, hpath.1, by simp⟩ trivial (by simp [Undisturbed, changes])
      trivial hs
    refine h.arrive hnext rfl hs (.write j.1 j.2 path chunks none _ hpath hchunks hsome rfl (carries_start hchunks)
      (by simp [h.linear.fresh _ hid])) ?_
      (by simp [Waiting.call])
    rintro _ ⟨⟩
    exact hid
  · rename_i path hwait
    obtain ⟨s', hs, rfl⟩ := Option.map_eq_some_iff.mp hinvoke
    have hwaits := h.waits a
    rw [hwait] at hwaits
    refine ⟨hwaits.idle_eq, ?_⟩
    have hid : i.server.reads j.1 = none := by
      by_contra hid
      simp [Server.step, hid] at hs
    have hsome : s'.reads j.1 = some { filepath := path } := by
      have hs := hs
      simp only [Server.step, if_pos hid, Option.some.injEq] at hs
      subst hs
      simp
    have hnext := h.next (e := .startGetContent j.1 path) hpath.1 trivial (by simp [Undisturbed, changes]) trivial hs
    refine h.arrive hnext rfl hs
      (.getContent j.1 j.2 path none _ hpath hsome rfl (by simp [h.linear.unread _ hid])) (by simp [Waiting.call]) ?_
    rintro _ ⟨⟩
    exact hid
  · cases hinvoke

lemma Client.Remote.unlink_of_none (g : Client.Remote Bytes) {path : Bytes} (h : g.files path = none) :
    g.unlink path = g := by
  unfold unlink
  congr 1
  rw [← h, Function.update_eq_self]

omit [DecidableEq A] in
/-- A removal takes effect at once. -/
lemma Served.unlink (h : Served cfg paths x i g φ) {path : Bytes} {env : StepEnv} (hpath : path ∈ paths ∧ path ≠ [])
    (henv : env.fault = none) (hun : ∀ r, Undisturbed r i.server (.handler (.unlink path env))) :
    (Unlink cfg env path i.server.fs).2 = unlinkAnswer ((g.files path).map Client.Version.data) ∧
      Served cfg paths (x.step i.server (.handler (.unlink path env)))
        { i with server := { i.server with fs := (Unlink cfg env path i.server.fs).1 } } (g.unlink path) φ := by
  have hs : step cfg i.server (.unlink path env) =
      some { i.server with fs := (Unlink cfg env path i.server.fs).1 } := rfl
  obtain ⟨hclean, hlinear⟩ := h.next (e := .unlink path env) hpath.1 trivial hun henv hs
  refine ⟨?_, hclean, hlinear, fun p hp hne => ?_, h.times, fun a => ?_, h.apart⟩
  · rw [← h.files path hpath.1 hpath.2]
    exact ((h.linear.holds path hpath.1 hpath.2).unlink henv).1
  · change Function.update x.store path none p = _
    by_cases hpp : p = path
    · subst hpp
      simp [Client.Remote.unlink]
    · simp [Client.Remote.unlink, hpp, h.files p hp hne]
  · exact (h.waits a).step h.linear hs (fun _ _ _ => rfl) fun _ _ _ => rfl

omit [DecidableEq A] in
/-- `Stat` of the tree and of the atomic server. -/
lemma Served.stat (h : Served cfg paths x i g φ) {path : Bytes} {env : StepEnv} (hpath : path ∈ paths ∧ path ≠ [])
    (henv : env.fault = none) (sb : StatContent) :
    SameAnswer (.rpc (.Stat path)) (Stat cfg env sb path i.server.fs) (g.stat path) := by
  rw [(h.linear.holds path hpath.1 hpath.2).stat henv, h.files path hpath.1 hpath.2]
  unfold Client.Remote.stat
  cases g.files path <;> exact ⟨rfl, rfl⟩

omit [DecidableEq A] in
/-- A call that is answered at once is a call of the atomic server. -/
theorem Served.exec {startOk : A → Client.Operation Bytes → Client.Mount Bytes → Prop}
    (h : Served cfg paths x i g φ) {a : A} {env : SiteEnv} {c : Client.Call Bytes} {m m' : Client.Mount Bytes}
    {r : c.Answer} {i' : Site A} (hpath : OnPath paths c)
    (hok : (Deployment.terms paths startOk diskOk).call env c m i) (hexec : i.exec cfg a env c m = some (r, m', i')) :
    φ a = none ∧ ∃ env' r' g', diskCallOk diskOk env' c m ∧
      (Client.machine Bytes).exec env' c m g = some (r', m', g') ∧ SameAnswer c r r' ∧
        ∃ x', Served cfg paths x' i' g' φ := by
  unfold Site.exec at hexec
  split at hexec
  · cases hexec
  · rename_i hwait
    have hwaits := h.waits a
    rw [hwait] at hwaits
    refine ⟨hwaits.idle_eq, ?_⟩
    cases c with
    | disk c =>
      obtain ⟨⟨r, l⟩, hc, heq⟩ := Option.map_eq_some_iff.mp hexec
      cases heq
      exact ⟨env.toEnv, r, g, hok, by simp [Client.machine, Client.Call.exec, hc], rfl, x, h⟩
    | rpc c =>
      cases c with
      | Stat path =>
        cases hexec
        refine ⟨env.toEnv, _, g, trivial, machine_exec_rpc rfl, ?_, x, h⟩
        by_cases houtage : env.outage = .none
        · rw [if_pos houtage, if_pos houtage]
          exact h.stat hpath hok env.sb
        · rw [if_neg houtage, if_neg houtage]
          exact ⟨rfl, rfl⟩
      | GetContent path =>
        dsimp only at hexec
        split_ifs at hexec with hnone
        cases hexec
        refine ⟨env.toEnv, ([], false), g, trivial, machine_exec_rpc ?_, rfl, x, h⟩
        simp [Client.RemoteCall.exec, hnone]
      | writerWrite =>
        cases hexec
        exact ⟨env.toEnv, _, g, trivial, machine_exec_rpc rfl, rfl, x, h⟩
      | Write path chunks broken =>
        dsimp only at hexec
        split_ifs at hexec with hfailed
        cases hexec
        refine ⟨env.toEnv, (.UNAVAILABLE, {}), g, trivial, machine_exec_rpc ?_, rfl, x, h⟩
        simp only [Client.RemoteCall.exec]
        rw [if_pos hfailed]
      | Unlink path =>
        obtain ⟨hreply, hnext⟩ := h.unlink hpath hok.1 hok.2
        dsimp only at hexec
        split_ifs at hexec with hbefore hnone
        · cases hexec
          refine ⟨env.toEnv, {}, g, trivial, machine_exec_rpc ?_, rfl, x, h⟩
          simp [Client.RemoteCall.exec, hbefore]
        · cases hexec
          refine ⟨env.toEnv, _, g.unlink path, trivial, machine_exec_rpc ?_, rfl, _, hnext⟩
          rw [hreply]
          cases hfile : g.files path with
          | none => simp [Client.RemoteCall.exec, hnone, hfile, unlinkAnswer, g.unlink_of_none hfile]
          | some v => simp [Client.RemoteCall.exec, hnone, hfile, unlinkAnswer]
        · cases hexec
          refine ⟨env.toEnv, {}, g.unlink path, trivial, machine_exec_rpc ?_, rfl, _, hnext⟩
          cases houtage : env.outage with
          | before => exact absurd houtage hbefore
          | none => exact absurd houtage hnone
          | after => simp [Client.RemoteCall.exec, houtage]

/-- After a reply the client waits no more. -/
lemma Site.reply_eq {a : A} {c : Client.Call Bytes} {r : c.Answer} {i' : Site A} (h : i.reply a c = some (r, i')) :
    i' = i.leave a := by
  unfold Site.reply at h
  generalize i.waiting a = w at h
  cases w with
  | none => cases h
  | some w =>
    cases c with
    | disk c => cases h
    | rpc c =>
      cases c with
      | Write _ _ _ | GetContent _ =>
        obtain ⟨x, -, heq⟩ := Option.map_eq_some_iff.mp h
        cases heq
        rfl
      | Stat _ | writerWrite | Unlink _ => cases h

/-- A client that does not get the reply to its upload. -/
lemma exec_Write_before (env : Client.Env) (path : Bytes) (chunks : List Bytes) :
    (Client.RemoteCall.Write path chunks false).exec { env with outage := .before } g = some ((.UNAVAILABLE, {}), g) := by
  simp [Client.RemoteCall.exec]

omit [DecidableEq A] in
/-- The part of a download that arrives is the same from both servers. -/
lemma take_of_initial {sent msgs : List MetaContent} {n : ℕ} (h : sent <+: msgs) (hn : n ≤ sent.length) :
    msgs.take n = sent.take n := by
  obtain ⟨rest, rfl⟩ := h
  exact List.take_append_of_le_length hn

variable (diskOk) in
/-- An answer is that of the call, which takes effect with it if it has not before. -/
theorem Served.reply (h : Served cfg paths x i g φ) {a : A} {c : Client.Call Bytes} {r : c.Answer} {i' : Site A}
    {o : Option c.Answer} (hreply : i.reply a c = some (r, i')) (hφ : φ a = some ⟨c, o⟩) :
    o = some r ∨ o = none ∧ ∃ env, ∀ m, diskCallOk diskOk env c m ∧
      (Client.machine Bytes).exec env c m g = some (r, m, g) := by
  have hwaits := h.waits a
  rw [hφ] at hwaits
  generalize hw : i.waiting a = w at hwaits
  cases hwaits with
  | write id env path chunks o c hpath hchunks hc hstream hcarries ho =>
    simp only [Site.reply, hw] at hreply
    obtain ⟨r, hanswer, heq⟩ := Option.map_eq_some_iff.mp hreply
    cases heq
    simp only [Waiting.writeAnswer, hc, Option.bind_some] at hanswer
    split_ifs at hanswer with houtage hpc
    · cases hanswer
      have hname : c.msg.filepath = path :=
        (hcarries.named (by simp [hpc])).resolve_right fun hcancel => hcancel.2.2.2 hpc
      have hwrote := (h.linear.wrote id c hc).2 (by rw [hname]; exact hpath.2) hpc
      left
      rw [ho, if_pos hwrote, writeReply, if_pos houtage]
    · cases hanswer
      by_cases hwrote : x.wrote id = true
      · left
        rw [ho, if_pos hwrote, writeReply, if_neg houtage]
      · right
        refine ⟨by rw [ho, if_neg hwrote], { env with outage := .before }, fun m => ⟨trivial, machine_exec_rpc ?_⟩⟩
        exact exec_Write_before env path chunks
  | getContent id env path o c hpath hc hname ho =>
    simp only [Site.reply, hw] at hreply
    obtain ⟨r, hanswer, heq⟩ := Option.map_eq_some_iff.mp hreply
    cases heq
    have hreading := h.linear.reads id c hc (by rw [hname]; exact hpath.2)
    obtain ⟨hnone, hsome⟩ := hreading.sent_initial
    simp only [Waiting.getContentAnswer, hc, Option.bind_some] at hanswer
    cases hdelivered : env.delivered with
    | none =>
      simp only [hdelivered] at hanswer
      split_ifs at hanswer with hpc
      cases hanswer
      simp only [GetContentCall.Reading, hpc] at hreading
      obtain ⟨v, hv, hsent⟩ := hreading
      left
      rw [ho, hv, Option.map_some, getContentReply, hdelivered, hsent]
    | some n =>
      simp only [hdelivered] at hanswer
      split_ifs at hanswer with hn
      cases hanswer
      cases hread : x.read id with
      | none =>
        obtain rfl : n = 0 := by simpa [hnone hread] using hn
        refine .inr ⟨by simp [ho, hread], env, fun m => ⟨trivial, machine_exec_rpc ?_⟩⟩
        simp [Client.RemoteCall.exec, hdelivered]
      | some v =>
        left
        rw [ho, hread, Option.map_some, getContentReply, hdelivered]
        simp only [take_of_initial (hsome v hread) hn]
  | lostWrite sent env path chunks o ho =>
    simp only [Site.reply, hw] at hreply
    obtain ⟨r, hanswer, heq⟩ := Option.map_eq_some_iff.mp hreply
    cases heq
    simp only [Waiting.writeAnswer] at hanswer
    split_ifs at hanswer with houtage
    cases hanswer
    rcases ho houtage with hnone | hsome
    · exact .inr ⟨hnone, _, fun m => ⟨trivial, machine_exec_rpc (exec_Write_before env path chunks)⟩⟩
    · exact .inl hsome
  | lostGetContent sent env path o ho =>
    simp only [Site.reply, hw] at hreply
    obtain ⟨r, hanswer, heq⟩ := Option.map_eq_some_iff.mp hreply
    cases heq
    cases hdelivered : env.delivered with
    | none => simp [Waiting.getContentAnswer, hdelivered] at hanswer
    | some n =>
      simp only [Waiting.getContentAnswer, hdelivered] at hanswer
      split_ifs at hanswer with hn
      cases hanswer
      rcases ho with ⟨hnone, rfl⟩ | ⟨v, hv, hprefix⟩
      · obtain rfl : n = 0 := by simpa using hn
        refine .inr ⟨hnone, env, fun m => ⟨trivial, machine_exec_rpc ?_⟩⟩
        simp [Client.RemoteCall.exec, hdelivered]
      · left
        rw [hv, getContentReply, hdelivered]
        simp only [take_of_initial hprefix hn]

variable (startOk : A → Client.Operation Bytes → Client.Mount Bytes → Prop)

/-- The server linearizes the calls of the clients. -/
theorem linearizes : System.Linearizes (Site.service cfg A) (Client.machine Bytes) (Deployment.terms paths startOk diskOk)
    (OnPath paths) SameAnswer startOk (diskCallOk diskOk) fun i g φ => ∃ x, Served cfg paths x i g φ where
  start a op m h := ⟨program_fits op h.1, h.2⟩
  exec a env c m i g φ r m' i' hpath hok h hexec := by
    obtain ⟨x, h⟩ := h
    exact h.exec hpath hok hexec
  invoke a j c i g φ i' hpath hok h hinvoke := by
    obtain ⟨x, h⟩ := h
    obtain ⟨hφ, hnext⟩ := h.invoke hpath hok hinvoke
    exact ⟨hφ, x, hnext⟩
  taken a c i g φ r i' h hreply hφ := by
    obtain ⟨x, h⟩ := h
    have hwaits := h.waits a
    rw [hφ] at hwaits
    generalize hw : i.waiting a = w at hwaits
    cases hwaits
    simp [Site.service, Site.reply, hw] at hreply
  reply a c i g φ r i' o h hreply hφ := by
    obtain ⟨x, h⟩ := h
    rw [Site.reply_eq hreply]
    rcases h.reply diskOk hreply hφ with hsome | ⟨hnone, env, hexec⟩
    · exact .inl ⟨r, hsome, SameAnswer.refl c r, x, h.leave a⟩
    · exact .inr ⟨hnone, env, r, g, hexec, SameAnswer.refl c r, x, h.leave a⟩
  own e i g φ i' hreg h hown := by
    obtain ⟨x, h⟩ := h
    rcases h.own diskOk hreg hown with hsilent | ⟨a, c, env, r, g', hφ, hexec, hnext⟩
    · exact .inl hsilent
    · exact .inr ⟨a, c, env, r, g', hφ, hexec, hnext⟩
  leave a i g φ h := by
    obtain ⟨x, h⟩ := h
    exact ⟨x, h.leave a⟩

omit [DecidableEq A] in
/-- Before any call, the tree has the files of the atomic server. -/
lemma matches_start {fs : InodeFS} {times : List Bytes} (hplaces : Exports cfg paths fs)
    (hfiles : ∀ p ∈ paths, p ≠ [] → Holds cfg fs p ((g.files p).map Client.Version.data))
    (htimes : ∀ y ∈ g.history, (y.2.mtim : Bytes) ∈ times) :
    System.Matches (OnPath paths) SameAnswer (fun i g φ => ∃ x, Served cfg paths x i g φ) (fun _ => none)
      (Deployment.start A fs times) (Client.World.start A g) := by
  refine ⟨⟨{ store := fun p => (g.files p).map Client.Version.data }, ?_⟩, rfl, fun _ => rfl, fun a op p hp => by cases hp⟩
  exact ⟨⟨_, _, clean_idle hplaces.toLayout⟩, linear_idle hplaces hfiles, fun _ _ _ => rfl, htimes, fun _ => .idle,
    fun a b w w' hw => by cases hw⟩

omit [DecidableEq A] in
/-- The tree has the files of the atomic server. -/
lemma matches_holds {d : Deployment A} {w : Client.World A Bytes} (h : System.Matches (OnPath paths) SameAnswer
    (fun i g φ => ∃ x, Served cfg paths x i g φ) φ d w) {p : Bytes} (hp : p ∈ paths) (hne : p ≠ []) :
    Holds cfg d.shared.server.fs p ((w.shared.files p).map Client.Version.data) := by
  obtain ⟨x, hserved⟩ := h.shared
  rw [← hserved.files p hp hne]
  exact hserved.linear.holds p hp hne

/-- What the assumptions of the timestamp check come to without the waiting. -/
lemma allowed_of_faithful {w : Client.World A Bytes} {es : List (Client.WorldEvent A Bytes)}
    (h : w.Along (Client.machine Bytes) (System.Faithful (fun _ op _ => ¬ op.Truncates)
      (diskCallOk fun env c l => Client.Noticed env l (.disk c))) es) :
    w.Along (Client.machine Bytes) (System.Allowed (fun _ => Client.checkLogic Bytes) (fun _ op _ _ => ¬ op.Truncates)
      fun _ _ _ _ => True) es := by
  refine h.mono fun s e _ he => ?_
  cases e with
  | start a op => exact he
  | call a env =>
    intro op c k hc
    refine ⟨?_, fun r l g hexec b _ => Client.machine_evolves hexec⟩
    cases c with
    | disk c => exact he op _ k hc
    | rpc c => trivial
  | finish a => trivial
  | crash a => trivial

end Steps

/-! ### Two clients -/

section Two

open Server

/-- A step of the only upload or of a download; only the calls 0 and 1 are looked at. -/
def SoleUpload (i : Site Bool) : LifeEvent → Prop
  | .handler (.write id env) => env.fault = none ∧ (∀ id' < 2, id' ≠ id → i.server.writes id' = none) ∧
      (∀ r < 2, Undisturbed r i.server (.handler (.write id env))) ∧
      ∀ t, Site.stamp i.server (.handler (.write id env)) = some t → t.length = timespecSize ∧ t ∉ i.times ∧
        ∃ a, (i.waiting a).bind Waiting.call = some (.inl id)
  | .handler (.getContent _ env) => env.fault = none ∧ env.dropped = false
  | _ => False

instance decidableSoleUpload (i : Site Bool) : ∀ e, Decidable (SoleUpload i e)
  | .handler (.write id env) => inferInstanceAs (Decidable (env.fault = none ∧
      (∀ id' < 2, id' ≠ id → i.server.writes id' = none) ∧ (∀ r < 2, Undisturbed r i.server (.handler (.write id env))) ∧
        ∀ t, Site.stamp i.server (.handler (.write id env)) = some t → t.length = timespecSize ∧ t ∉ i.times ∧
          ∃ a, (i.waiting a).bind Waiting.call = some (.inl id)))
  | .handler (.getContent _ env) => inferInstanceAs (Decidable (env.fault = none ∧ env.dropped = false))
  | .handler (.startWrite _ _) | .handler (.startGetContent _ _) | .handler (.cancel _) | .handler (.unlink _ _)
  | .handler (.rmdir _ _) | .handler (.mkdir _ _) | .restart => isFalse fun h => h

/-- There are no calls but 0 and 1. -/
def FewCalls (s : State) : Prop := ∀ id, 2 ≤ id → s.writes id = none ∧ s.reads id = none

lemma FewCalls.step {cfg : Config} {s s' : State} {e : Event} (h : FewCalls s) (hs : step cfg s e = some s')
    (hwrite : ∀ id stream, e = .startWrite id stream → id < 2) (hread : ∀ id path, e = .startGetContent id path → id < 2) :
    FewCalls s' := by
  intro id hid
  obtain ⟨hw, hr⟩ := h id hid
  constructor
  · cases hc : s'.writes id with
    | none => rfl
    | some c =>
      rcases writes_step cfg hs hc with ⟨-, stream, rfl, -⟩ | ⟨c₀, hc₀, -⟩
      · have := hwrite id stream rfl
        omega
      · rw [hw] at hc₀
        cases hc₀
  · rcases reads_step cfg (r := id) hs with ⟨heq, -⟩ | ⟨path, rfl, -⟩ | ⟨env, c, c', -, hc, -⟩
    · rw [heq, hr]
    · have := hread id path rfl
      omega
    · rw [hr] at hc
      cases hc

lemma SoleUpload.regular {i : Site Bool} {e : LifeEvent} {paths : Set Bytes} (h : SoleUpload i e)
    (hfew : FewCalls i.server) :
    i.Regular paths e := by
  unfold SoleUpload at h
  split at h
  · rename_i id env
    obtain ⟨hfault, hsole, hun, hversions⟩ := h
    have hnumber {id' : ℕ} {c : WriteCall} (hc : i.server.writes id' = some c) : id' = id := by
      by_contra hne
      by_cases hlt : id' < 2
      · rw [hsole id' hlt hne] at hc
        cases hc
      · rw [(hfew id' (by omega)).1] at hc
        cases hc
    refine ⟨trivial, fun c hc hpc _ id' c' hc' _ hp => ?_, fun r d hd => ?_, hfault, by simp, fun t ht => ?_⟩
    · obtain rfl := hnumber hc'
      obtain rfl : c = c' := Option.some.inj (hc.symm.trans hc')
      simp [WriteCall.Pending, hpc] at hp
    · by_cases hlt : r < 2
      · exact hun r hlt d hd
      · rw [(hfew r (by omega)).2] at hd
        cases hd
    · obtain ⟨hlength, hnew, a, hcall⟩ := hversions t ht
      obtain ⟨w, hw, hcall⟩ := Option.bind_eq_some_iff.mp hcall
      refine ⟨hlength, hnew, a, id, env, ?_⟩
      cases w with
      | write id' env' =>
        cases hcall
        exact ⟨env', rfl, hw⟩
      | getContent id' env' => cases hcall
      | lost sent env' => cases hcall
  · exact ⟨trivial, trivial, by simp [Undisturbed, changes], h, by simp, by simp [Site.stamp]⟩
  · exact h.elim

instance decidableHasChunks : ∀ c, Decidable (HasChunks c)
  | .rpc (.Write _ chunks _) => inferInstanceAs (Decidable (chunks ≠ []))
  | .rpc (.Stat _) | .rpc (.GetContent _) | .rpc .writerWrite | .rpc (.Unlink _) | .disk _ => isTrue trivial

/-- The path that a call removes. -/
def removes : Client.Call Bytes → Option Bytes
  | .rpc (.Unlink path) => some path
  | _ => none

/-- What can be checked of a run by running it. -/
def checkedTerms : Terms Bool (Client.Operation Bytes) (Client.Call Bytes) SiteEnv (ℕ × Client.Env) LifeEvent
    (Client.Mount Bytes) (Site Bool) where
  start _ op _ := op.path = Bytes.ascii "/f" ∧ ¬ op.Truncates
  call env c _ _ := env.fault = none ∧ env.handler.fault = none ∧ removes c = none
  invoke _ j c _ := j.1 < 2 ∧ HasChunks c
  own e i := SoleUpload i e

instance decidableCheckedRun (d : Deployment Bool) (es : List (DeploymentEvent Bool)) :
    Decidable (d.MeetsRun (Site.service livesConfig Bool) (Client.machine Bytes) checkedTerms es) :=
  have (a : Bool) (op : Client.Operation Bytes) (m : Client.Mount Bytes) : Decidable (checkedTerms.start a op m) :=
    inferInstanceAs (Decidable (op.path = Bytes.ascii "/f" ∧ ¬ op.Truncates))
  have (env : SiteEnv) (c : Client.Call Bytes) (m : Client.Mount Bytes) (i : Site Bool) :
      Decidable (checkedTerms.call env c m i) :=
    inferInstanceAs (Decidable (env.fault = none ∧ env.handler.fault = none ∧ removes c = none))
  have (a : Bool) (j : ℕ × Client.Env) (c : Client.Call Bytes) (i : Site Bool) : Decidable (checkedTerms.invoke a j c i) :=
    inferInstanceAs (Decidable (j.1 < 2 ∧ HasChunks c))
  have (e : LifeEvent) (i : Site Bool) : Decidable (checkedTerms.own e i) := decidableSoleUpload i e
  inferInstance

lemma fewCalls_serve {d d' : Deployment Bool} {e : DeploymentEvent Bool} (h : FewCalls d.shared.server)
    (he : d.Meets checkedTerms e) (hs : d.serve (Site.service livesConfig Bool) (Client.machine Bytes) e = some d') :
    FewCalls d'.shared.server := by
  cases e with
  | start a op =>
    simp only [System.serve] at hs
    split at hs
    · obtain ⟨l, -, rfl⟩ := Option.map_eq_some_iff.mp hs
      exact h
    · cases hs
  | call a env =>
    simp only [System.serve] at hs
    split at hs
    · obtain ⟨⟨r, m, i⟩, hexec, rfl⟩ := Option.map_eq_some_iff.mp hs
      have hcalls : i.server.writes = d.shared.server.writes ∧ i.server.reads = d.shared.server.reads := by
        simp only [Site.service, Site.exec] at hexec
        split at hexec
        · cases hexec
        · split at hexec
          · obtain ⟨x, -, heq⟩ := Option.map_eq_some_iff.mp hexec
            cases heq
            exact ⟨rfl, rfl⟩
          all_goals
            first
              | cases hexec; exact ⟨rfl, rfl⟩
              | split_ifs at hexec <;> cases hexec <;> exact ⟨rfl, rfl⟩
      intro id hid
      rw [hcalls.1, hcalls.2]
      exact h id hid
    · cases hs
  | invoke a j =>
    simp only [System.serve] at hs
    split at hs
    · rename_i op c k hrun
      obtain ⟨i, hinvoke, rfl⟩ := Option.map_eq_some_iff.mp hs
      have hlt : j.1 < 2 := (he c (System.next_of_running hrun)).1
      simp only [Site.service, Site.invoke] at hinvoke
      split at hinvoke
      · obtain ⟨s', hs', rfl⟩ := Option.map_eq_some_iff.mp hinvoke
        exact h.step hs' (fun id stream heq => by cases heq; exact hlt) (by simp)
      · obtain ⟨s', hs', rfl⟩ := Option.map_eq_some_iff.mp hinvoke
        exact h.step hs' (by simp) fun id path heq => by cases heq; exact hlt
      · cases hinvoke
    · cases hs
  | reply a =>
    simp only [System.serve] at hs
    split at hs
    · obtain ⟨⟨r, i⟩, hreply, rfl⟩ := Option.map_eq_some_iff.mp hs
      rw [Site.reply_eq hreply]
      exact h
    · cases hs
  | finish a =>
    simp only [System.serve] at hs
    split at hs
    · cases hs
      exact h
    · cases hs
  | crash a =>
    cases hs
    exact h
  | own e =>
    simp only [System.serve] at hs
    obtain ⟨i, hown, rfl⟩ := Option.map_eq_some_iff.mp hs
    obtain ⟨s', hs', rfl⟩ := Option.map_eq_some_iff.mp hown
    have hsole : SoleUpload d.shared e := he
    unfold SoleUpload at hsole
    split at hsole
    · rename_i id env
      exact FewCalls.step (e := .write id env) h hs' (by simp) (by simp)
    · rename_i id env
      exact FewCalls.step (e := .getContent id env) h hs' (by simp) (by simp)
    · exact hsole.elim

/-- A run that passes the check meets the terms. -/
lemma meetsRun_of_checked {d : Deployment Bool} {es : List (DeploymentEvent Bool)} (hd : FewCalls d.shared.server)
    (h : d.MeetsRun (Site.service livesConfig Bool) (Client.machine Bytes) checkedTerms es) :
    d.MeetsRun (Site.service livesConfig Bool) (Client.machine Bytes) (Deployment.terms {[], Bytes.ascii "/f"}
      (fun _ op _ => ¬ op.Truncates) fun env c l => Client.Noticed env l (.disk c)) es := by
  refine h.strengthen hd (fun s s' e _ => fewCalls_serve) fun s e _ hfew he => ?_
  cases e with
  | start a op => exact ⟨by simp [he.1, show Bytes.ascii "/f" ≠ [] by decide], he.2⟩
  | call a env =>
    intro c hc
    obtain ⟨hfault, hhandler, hremoves⟩ := he c hc
    cases c with
    | disk c => exact Client.noticed_of_quiet hfault _ _
    | rpc c =>
      cases c with
      | Unlink path => cases hremoves
      | Stat _ | GetContent _ | writerWrite | Write _ _ _ => exact hhandler
  | invoke a j => exact fun c hc => (he c hc).2
  | reply a | finish a | crash a => trivial
  | own e => exact SoleUpload.regular he hfew

def quietCalls (a : Bool) (n : ℕ) : List (DeploymentEvent Bool) := List.replicate n (.call a { fd := 3 })

def uploadSteps (n : ℕ) : List (DeploymentEvent Bool) := List.replicate n (.own (.handler (.write 0 (.quiet 1))))

def downloadSteps (id n : ℕ) : List (DeploymentEvent Bool) :=
  List.replicate n (.own (.handler (.getContent id (.quiet 2))))

/-- One client creates a file and uploads it; the other opens it while the upload is under way. -/
def overlapping : List (DeploymentEvent Bool) := List.flatten [
  .start false (.open (Bytes.ascii "/f")) :: quietCalls false 1, .invoke false (0, {}) :: downloadSteps 0 1,
  .reply false :: quietCalls false 5, [.finish false],
  .start false (.write (Bytes.ascii "/f") (Bytes.ascii "x") 0 3) :: quietCalls false 2, [.finish false],
  .start false (.release 1 (Bytes.ascii "/f") 3) :: quietCalls false 5, .invoke false (0, {}) :: uploadSteps 9,
  .start true (.open (Bytes.ascii "/f")) :: quietCalls true 1, .invoke true (1, {}) :: uploadSteps 1, downloadSteps 1 2,
  .reply false :: quietCalls false 2, .finish false :: downloadSteps 1 1, .reply true :: quietCalls true 5, [.finish true]]

lemma meetsRun_overlapping : (Deployment.start Bool livesState.fs []).MeetsRun (Site.service livesConfig Bool)
    (Client.machine Bytes) (Deployment.terms {[], Bytes.ascii "/f"} (fun _ op _ => ¬ op.Truncates)
      fun env c l => Client.Noticed env l (.disk c)) overlapping := by
  refine meetsRun_of_checked (fun _ _ => ⟨rfl, rfl⟩) ?_
  decide +kernel

lemma holds_livesState : ∀ p ∈ ({[], Bytes.ascii "/f"} : Set Bytes), p ≠ [] →
    Holds livesConfig livesState.fs p (((Client.Remote.empty : Client.Remote Bytes).files p).map Client.Version.data) := by
  rintro p (rfl | rfl) hne
  · exact absurd rfl hne
  · refine ⟨(2, Bytes.ascii "f"), by decide, ?_⟩
    change livesState.fs.entries.lookup (2, Bytes.ascii "f") = none
    decide

end Two

end AFSv1
