import AFSv1.Client.Diary
import AFSv1.Client.TimestampSound
import AFSv1.Foundations.Service
import AFSv1.Server.Linearization

/-! Clients and their server in one system: remote calls are handed over, the handlers run side by side, and a
reply comes when the handler has returned, or never. -/
namespace AFSv1
open Foundations Tables

variable (cfg : Server.Config)

/-- What a client waits for: its call at the server and how it fares, or what had arrived when the server died. -/
inductive Waiting where
  | write (id : ℕ) (env : Client.Env)
  | getContent (id : ℕ) (env : Client.Env)
  | lost (sent : List MetaContent) (env : Client.Env)

/-- The server, the clients that wait for it, and the modification times of all versions so far, which only the
assumptions look at. -/
structure Site (A : Type) where
  server : Server.State
  waiting : A → Option Waiting := fun _ => none
  times : List Bytes

/-- For a call that is answered at once: also the environment of the handler and what `stat` finds beside the tree. -/
structure SiteEnv extends Client.Env where
  handler : Server.StepEnv := .quiet 0
  sb : StatContent := {}

namespace Site

variable {A : Type} [DecidableEq A]

/-- The calls that are answered at once: those on the client's own disk, the remote calls of one system call, and
those that fail before they reach the server. -/
def exec (a : A) (env : SiteEnv) (c : Client.Call Bytes) (m : Client.Mount Bytes) (i : Site A) :
    Option (c.Answer × Client.Mount Bytes × Site A) :=
  match i.waiting a with
  | some _ => none
  | none => match c with
    | .disk c => (c.exec env.toEnv m.toLocal).map fun r => (r.1, { m with toLocal := r.2 }, i)
    | .rpc (.Stat path) =>
      some (if env.outage = .none then Server.Stat cfg env.handler env.sb path i.server.fs else {}, m, i)
    | .rpc (.GetContent _) => if env.delivered = some 0 then some (([], false), m, i) else none
    | .rpc .writerWrite => some (env.outage = .none, m, i)
    | .rpc (.Write _ _ broken) =>
      if broken ∨ env.outage = .before then some ((.UNAVAILABLE, {}), m, i) else none
    | .rpc (.Unlink path) =>
      if env.outage = .before then some ({}, m, i)
      else
        let r := Server.Unlink cfg env.handler path i.server.fs
        some (if env.outage = .none then r.2 else {}, m, { i with server := { i.server with fs := r.1 } })

/-- A handler begins; the client's environment says beforehand how much of the answer will arrive. -/
def invoke (a : A) (j : ℕ × Client.Env) (c : Client.Call Bytes) (i : Site A) : Option (Site A) :=
  match i.waiting a, c with
  | none, .rpc (.Write path chunks false) =>
    (Server.step cfg i.server (.startWrite j.1 (chunks.map fun b => ⟨path, b⟩))).map fun s =>
      { i with server := s, waiting := Function.update i.waiting a (some (.write j.1 j.2)) }
  | none, .rpc (.GetContent path) =>
    (Server.step cfg i.server (.startGetContent j.1 path)).map fun s =>
      { i with server := s, waiting := Function.update i.waiting a (some (.getContent j.1 j.2)) }
  | _, _ => none

end Site

/-- The answer to an upload: the reply of the handler once it has returned, or a failure at any moment. -/
def Waiting.writeAnswer (s : Server.State) : Waiting → Option (Status × Meta)
  | .write id env =>
    if env.outage = .none then
      (s.writes id).bind fun c => if c.pc = .returned .OK then some (.OK, { timestamp := c.timestamp }) else none
    else some (.UNAVAILABLE, {})
  | .lost _ env => if env.outage = .none then none else some (.UNAVAILABLE, {})
  | .getContent _ _ => none

/-- The answer to a download: all messages once the handler has returned, or the first of them and a failure. -/
def Waiting.getContentAnswer (s : Server.State) : Waiting → Option (List MetaContent × Bool)
  | .getContent id env => (s.reads id).bind fun c => match env.delivered with
    | none => if c.pc = .returned .OK then some (c.sent, true) else none
    | some n => if n ≤ c.sent.length then some (c.sent.take n, false) else none
  | .lost sent env => match env.delivered with
    | none => none
    | some n => if n ≤ sent.length then some (sent.take n, false) else none
  | .write _ _ => none

/-- The server dies under a call. -/
def Waiting.lose (s : Server.State) : Waiting → Waiting
  | .write _ env => .lost [] env
  | .getContent id env => .lost ((s.reads id).elim [] Server.GetContentCall.sent) env
  | .lost sent env => .lost sent env

namespace Site

variable {A : Type} [DecidableEq A]

def reply (a : A) (c : Client.Call Bytes) (i : Site A) : Option (c.Answer × Site A) :=
  match i.waiting a, c with
  | some w, .rpc (.Write _ _ _) =>
    (w.writeAnswer i.server).map fun r => (r, { i with waiting := Function.update i.waiting a none })
  | some w, .rpc (.GetContent _) =>
    (w.getContentAnswer i.server).map fun r => (r, { i with waiting := Function.update i.waiting a none })
  | _, _ => none

/-- The modification time of the version that an event puts in place. -/
def stamp (s : Server.State) : Server.LifeEvent → Option Bytes
  | .handler (.write id _) => (s.writes id).bind fun c =>
    if c.pc = .rename ∧ c.msg.filepath ≠ [] then some c.timestamp else none
  | _ => none

/-- A step of the server. -/
def own (e : Server.LifeEvent) (i : Site A) : Option (Site A) :=
  (Server.lifeStep cfg i.server e).map fun s =>
    { server := s
      waiting := match e with
        | .restart => fun a => (i.waiting a).map (Waiting.lose i.server)
        | .handler _ => i.waiting
      times := (stamp i.server e).toList ++ i.times }

/-- A client that is gone waits no more. -/
def leave (a : A) (i : Site A) : Site A := { i with waiting := Function.update i.waiting a none }

/-- The server as its clients see it. -/
def service (A : Type) [DecidableEq A] : Service A (Client.Call Bytes) Client.Call.Answer SiteEnv (ℕ × Client.Env)
    Server.LifeEvent (Client.Mount Bytes) (Site A) where
  exec := exec cfg
  invoke := invoke cfg
  reply := reply
  own := own cfg
  leave := leave

end Site

/-- Clients and their server. -/
abbrev Deployment (A : Type) := System A (Client.Operation Bytes) (Client.Call Bytes) Client.Call.Answer Client.Outcome
  (Client.Mount Bytes) (Site A)

abbrev DeploymentEvent (A : Type) := ServiceEvent A (Client.Operation Bytes) SiteEnv (ℕ × Client.Env) Server.LifeEvent

namespace Deployment

variable {A : Type} [DecidableEq A]

def run (d : Deployment A) (es : List (DeploymentEvent A)) : Option (Deployment A) :=
  d.serveRun (Site.service cfg A) (Client.machine Bytes) es

/-- Newly mounted clients with empty cache directories, and a server that has just been started. -/
def start (A : Type) (fs : InodeFS) (times : List Bytes) : Deployment A :=
  { shared := { server := .idle fs, times }, locals := fun _ => {} }

end Deployment

/-! ### What the programs see of it -/

section Programs

variable (paths : Set Bytes)

/-- The remote calls are about one of the paths. -/
def OnPath : Client.Call Bytes → Prop
  | .rpc (.Stat path) | .rpc (.GetContent path) | .rpc (.Write path _ _) | .rpc (.Unlink path) => path ∈ paths ∧ path ≠ []
  | .rpc .writerWrite | .disk _ => True

/-- Of the answer to `Stat` the operations read two fields. -/
def SameAnswer : (c : Client.Call Bytes) → c.Answer → c.Answer → Prop
  | .rpc (.Stat _), r, r' => r.st_mtim = r'.st_mtim ∧ r.return_code = r'.return_code
  | .disk _, r, r' | .rpc (.GetContent _), r, r' | .rpc .writerWrite, r, r' | .rpc (.Write _ _ _), r, r'
  | .rpc (.Unlink _), r, r' => r = r'

lemma SameAnswer.refl (c : Client.Call Bytes) (r : c.Answer) : SameAnswer c r r := by
  cases c with
  | disk c => rfl
  | rpc c =>
    cases c with
    | Stat path => exact ⟨rfl, rfl⟩
    | GetContent _ | writerWrite | Write _ _ _ | Unlink _ => rfl

variable {paths} {α : Type} {path : Bytes}

lemma fits_disk {c : Client.LocalCall Bytes} {k : c.Answer → Client.Program Bytes α}
    (h : ∀ r, (k r).Fits (OnPath paths) SameAnswer) : Prog.Fits (OnPath paths) SameAnswer (.call (.disk c) k) :=
  ⟨trivial, fun _ _ hr => congrArg k hr, h⟩

lemma fits_writeChunks (ofile : Option (ℕ × ℕ)) (msgs : List MetaContent) :
    (Client.writeChunks path ofile msgs).Fits (OnPath paths) SameAnswer := by
  induction msgs generalizing ofile with
  | nil => trivial
  | cons msg msgs ih =>
    cases ofile with
    | none => exact ih none
    | some f => exact fits_disk fun good => ih _

lemma fits_openHandle : (Client.openHandle path).Fits (OnPath paths) SameAnswer := by
  rw [Client.openHandle_eq]
  exact fits_disk fun _ => trivial

lemma fits_download (hpath : path ∈ paths ∧ path ≠ []) : (Client.download path).Fits (OnPath paths) SameAnswer := by
  refine ⟨hpath, fun r r' hr => by rw [show r = r' from hr], fun r => ?_⟩
  obtain ⟨msgs, ok⟩ := r
  cases msgs with
  | nil => trivial
  | cons msg msgs =>
    dsimp only [Prog.bind]
    by_cases hexists : msg.file_exists = true
    · rw [if_pos hexists]
      refine fits_disk fun ofile => ?_
      change Prog.Fits _ _ (Client.writeChunks path _ (msg :: msgs) >>= _)
      refine (fits_writeChunks _ _).bind fun _ => ?_
      split_ifs
      · exact fits_disk fun _ => fits_disk fun _ => fits_openHandle
      · trivial
    · rw [if_neg hexists]
      exact fits_disk fun _ => fits_disk fun _ => fits_disk fun _ => fits_disk fun _ => fits_openHandle

lemma fits_afsOpen (hpath : path ∈ paths ∧ path ≠ []) : (Client.afsOpen path).Fits (OnPath paths) SameAnswer := by
  refine fits_disk fun count => ?_
  dsimp only [Prog.bind]
  split_ifs
  · refine fits_disk fun t => ?_
    dsimp only [Prog.bind]
    split_ifs
    · exact fits_openHandle
    · refine ⟨hpath, fun r r' hr => by dsimp only [Prog.bind]; rw [show r.st_mtim = r'.st_mtim from hr.1], fun r => ?_⟩
      refine fits_disk fun t => ?_
      dsimp only [Prog.bind]
      split_ifs
      · exact fits_openHandle
      · exact fits_disk fun _ => fits_disk fun _ => fits_download hpath
  · exact fits_download hpath

lemma fits_upload (i fuel pos : ℕ) (chunks : List Bytes) :
    (Client.upload path i fuel pos chunks).Fits (OnPath paths) SameAnswer := by
  induction fuel generalizing pos chunks with
  | zero => exact fits_disk fun r => r.elim
  | succ fuel ih =>
    refine fits_disk fun r => ?_
    cases r with
    | none => trivial
    | some buf =>
      refine ⟨trivial, fun r r' hr => by rw [show r = r' from hr], fun sent => ?_⟩
      dsimp only [Prog.bind]
      split_ifs
      · trivial
      · exact ih _ _
      · trivial

lemma fits_afsRelease (fuel fh : ℕ) (hpath : path ∈ paths ∧ path ≠ []) :
    (Client.afsRelease fuel path fh).Fits (OnPath paths) SameAnswer := by
  refine fits_disk fun _ => fits_disk fun dirty => ?_
  dsimp only [Prog.bind]
  split_ifs
  · refine fits_disk fun r => ?_
    cases r with
    | none => exact fits_disk fun r => r.elim
    | some i =>
      change Prog.Fits _ _ (Client.upload path i fuel 0 [] >>= _)
      refine (fits_upload i fuel 0 []).bind fun x => ⟨hpath, fun r r' hr => by rw [show r = r' from hr], fun r => ?_⟩
      obtain ⟨status, reply⟩ := r
      cases status with
      | OK => exact fits_disk fun _ => fits_disk fun _ => trivial
      | CANCELLED | NOT_FOUND | UNAVAILABLE => trivial
  · trivial

lemma fits_afsMknod (hpath : path ∈ paths ∧ path ≠ []) : (Client.afsMknod path).Fits (OnPath paths) SameAnswer := by
  refine ⟨hpath, fun r r' hr => by dsimp only [Prog.bind]; rw [show r.return_code = r'.return_code from hr.2], fun r => ?_⟩
  dsimp only [Prog.bind]
  split_ifs
  · trivial
  · refine fits_disk fun r => ?_
    cases r with
    | error e => trivial
    | ok fd =>
      refine fits_disk fun r => ?_
      cases r with
      | error e => trivial
      | ok u =>
        refine ⟨trivial, fun r r' hr => by rw [show r = r' from hr], fun sent => ?_⟩
        refine ⟨hpath, fun r r' hr => by rw [show r = r' from hr], fun r => ?_⟩
        obtain ⟨status, reply⟩ := r
        cases status with
        | OK => exact fits_disk fun _ => trivial
        | CANCELLED | NOT_FOUND | UNAVAILABLE => trivial

/-- The operations tell apart no more of the answers than that. -/
theorem program_fits (op : Client.Operation Bytes) (hpath : op.path ∈ paths ∧ op.path ≠ []) :
    op.program.Fits (OnPath paths) SameAnswer := by
  cases op with
  | «open» path => exact fits_afsOpen hpath
  | release fuel path fh => exact fits_afsRelease fuel fh hpath
  | mknod path => exact fits_afsMknod hpath
  | unlink path =>
    exact fits_disk fun _ => fits_disk fun _ => fits_disk fun _ =>
      ⟨hpath, fun r r' hr => by rw [show r = r' from hr], fun _ => trivial⟩
  | read path fh size offset =>
    refine fits_disk fun r => ?_
    cases r <;> trivial
  | write path buf offset fh =>
    refine fits_disk fun _ => fits_disk fun r => ?_
    cases r <;> trivial
  | fsync path fh | ftruncate path offset fh | truncate path newsize => exact fits_disk fun _ => trivial

end Programs

end AFSv1
