import AFSv1.Foundations.InodeFS
import AFSv1.Tables.Hashpath
import AFSv1.Protocol

/-! The handlers of `AFSServiceImpl`. `Write` and `GetContent` run concurrently and are split into
their steps; the calls that make one system call are atomic. -/
namespace AFSv1.Server
open Foundations Tables

structure Config where
  AFS_ROOT_DIR : Bytes
  sha256 : Sha256

variable (cfg : Config)

/-- Unlike the client's `hashpath`, the digest covers bytes after a zero byte. -/
def hashFilepath (filepath : Bytes) : Bytes := (List.ofFn (cfg.sha256 filepath)).flatMap hexByte

def getServerFilepath (filepath : Bytes) (is_cache_filepath : Bool) : Bytes :=
  if is_cache_filepath then cfg.AFS_ROOT_DIR ++ Bytes.ascii "cache/" ++ hashFilepath cfg filepath
  else cfg.AFS_ROOT_DIR ++ Bytes.ascii "fs_root/" ++ filepath

/-- What the code does not decide about one step: the clock, a system call that fails for a
reason outside the file tree, an unread part of a cancelled stream, the modification time of a
directory and the bytes of an uninitialised `struct stat`. -/
structure StepEnv where
  now : Bytes
  fault : Option Errno := none
  dropped : Bool := false
  dirMtim : Bytes := []
  garbage : Bytes := []

/-- A system call that may also fail for a reason outside the file tree. -/
def StepEnv.syscall {α : Type} (env : StepEnv) (result : Except Errno α) : Except Errno α :=
  match env.fault with
  | some e => .error e
  | none => result

/-- The bytes of `sb.st_mtim` after `stat(path, &sb)` on an uninitialised `sb`. -/
def statMtim (fs : InodeFS) (path : Bytes) (env : StepEnv) : Bytes :=
  match env.syscall (fs.node path) with
  | .ok (.file i) => (fs.file i).mtim
  | .ok (.dir _) => env.dirMtim
  | .error _ => env.garbage

/-! ### Write -/

inductive WritePC where
  | readFirst | lock | openTemp | append | read | close | unlock | checkCancelled | stat | rename
  | returned (status : Status)
  deriving DecidableEq, Repr

/-- A `Write` call: the client's stream, the part of it not yet read, the local variables, and
whether the reader has reported the end of the stream. -/
structure WriteCall where
  stream : List FilepathContent
  incoming : List FilepathContent
  cancelled : Bool := false
  pc : WritePC := .readFirst
  msg : FilepathContent := {}
  filepath : Bytes := []
  file : Option ℕ := none
  timestamp : Bytes := []
  ended : Bool := false
  deriving DecidableEq, Repr

def WriteCall.start (stream : List FilepathContent) : WriteCall := { stream, incoming := stream }

/-- The client's data as one file. -/
def WriteCall.content (c : WriteCall) : Bytes := c.stream.flatMap FilepathContent.b

/-- `reader->Read(&msg)`: the next message, or `none` at the end of the stream. -/
def WriteCall.nextMsg (c : WriteCall) (env : StepEnv) : Option (FilepathContent × List FilepathContent) :=
  if c.ended || c.cancelled && env.dropped then none
  else match c.incoming with
    | [] => none
    | msg :: incoming => some (msg, incoming)

/-- The part of the server a `Write` call works on. -/
structure Shared where
  fs : InodeFS
  lock : Option ℕ

/-- One step of the `Write` call `id`; `none` while it is blocked on the mutex or has returned. -/
def WriteCall.step (id : ℕ) (env : StepEnv) (sh : Shared) (c : WriteCall) : Option (Shared × WriteCall) :=
  match c.pc with
  | .readFirst =>
    let c := match c.nextMsg env with
      | some (msg, incoming) => { c with msg, incoming }
      | none => { c with ended := true }
    some (sh, { c with filepath := getServerFilepath cfg c.msg.filepath true, pc := .lock })
  | .lock =>
    if sh.lock = none then some ({ sh with lock := some id }, { c with pc := .openTemp }) else none
  | .openTemp =>
    match env.syscall (sh.fs.openTrunc c.filepath env.now) with
    | .ok (i, fs) => some ({ sh with fs }, { c with file := some i, pc := .append })
    -- the early return does not unlock the mutex
    | .error _ => some (sh, { c with pc := .returned .NOT_FOUND })
  | .append =>
    match c.file with
    | some i => some ({ sh with fs := sh.fs.append i c.msg.b env.now }, { c with pc := .read })
    | none => some (sh, { c with pc := .read })
  | .read =>
    match c.nextMsg env with
    | some (msg, incoming) => some (sh, { c with msg, incoming, pc := .append })
    | none => some (sh, { c with ended := true, pc := .close })
  | .close => some (sh, { c with file := none, pc := .unlock })
  | .unlock => some ({ sh with lock := none }, { c with pc := .checkCancelled })
  | .checkCancelled => some (sh, { c with pc := if c.cancelled then .returned .CANCELLED else .stat })
  | .stat => some (sh, { c with timestamp := statMtim sh.fs c.filepath env, pc := .rename })
  | .rename =>
    let renamed := env.syscall
      (sh.fs.rename (getServerFilepath cfg c.msg.filepath true) (getServerFilepath cfg c.msg.filepath false))
    -- the result of `rename` is not looked at
    match renamed with
    | .ok fs => some ({ sh with fs }, { c with pc := .returned .OK })
    | .error _ => some (sh, { c with pc := .returned .OK })
  | .returned _ => none

/-! ### GetContent -/

inductive GetContentPC where
  | openFile | stat | read
  | returned (status : Status)
  deriving DecidableEq, Repr

/-- A `GetContent` call; `sent` is what the client's reader receives, in order. -/
structure GetContentCall where
  filepath : Bytes
  pc : GetContentPC := .openFile
  file : Option Node := none
  pos : ℕ := 0
  eof : Bool := false
  msg : MetaContent := {}
  sent : List MetaContent := []
  deriving DecidableEq, Repr

/-- `writer->Write(msg)`; a message the transport refuses does not reach the client. -/
def GetContentCall.write (c : GetContentCall) (env : StepEnv) : GetContentCall :=
  if env.dropped then c else { c with sent := c.sent ++ [c.msg] }

def GetContentCall.step (env : StepEnv) (fs : InodeFS) (c : GetContentCall) : Option GetContentCall :=
  let filepath := getServerFilepath cfg c.filepath false
  match c.pc with
  | .openFile =>
    match env.syscall (fs.node filepath) with
    | .ok node => some { c with file := some node, msg := { c.msg with file_exists := true }, pc := .stat }
    | .error _ =>
      let c := { c with msg := { c.msg with file_exists := false } }
      some { c.write env with pc := .returned .OK }
  | .stat => some { c with msg := { c.msg with timestamp := statMtim fs filepath env }, pc := .read }
  | .read =>
    match c.file, env.fault with
    | some (.file i), none =>
      let buf := ((fs.file i).content.drop c.pos).take BUFSIZE
      let c := { c with pos := c.pos + buf.length, eof := buf.length < BUFSIZE, msg := { c.msg with b := buf } }
      -- the short read and a refused message both end the loop
      some { c.write env with pc := if c.eof || env.dropped then .returned .OK else .read }
    -- a read error, as on a directory, sets `badbit` and not `eofbit`
    | _, _ => some { c with pc := .returned .OK }
  | .returned _ => none

/-! ### Calls with one system call -/

def respond (fs : InodeFS) : Except Errno InodeFS → InodeFS × Response
  | .ok fs' => (fs', { return_code := 0 })
  | .error e => (fs, { return_code := -1, error_number := e.number })

def Unlink (env : StepEnv) (filepath : Bytes) (fs : InodeFS) : InodeFS × Response :=
  respond fs (env.syscall (fs.unlink (getServerFilepath cfg filepath false)))

def Rmdir (env : StepEnv) (filepath : Bytes) (fs : InodeFS) : InodeFS × Response :=
  respond fs (env.syscall (fs.rmdir (getServerFilepath cfg filepath false)))

def Mkdir (env : StepEnv) (filepath : Bytes) (fs : InodeFS) : InodeFS × Response :=
  respond fs (env.syscall (fs.mkdir (getServerFilepath cfg filepath false)))

/-- `sb` are the fields of the `struct stat` that the file tree does not hold. -/
def Stat (env : StepEnv) (sb : StatContent) (filepath : Bytes) (fs : InodeFS) : StatContent :=
  match env.syscall (fs.node (getServerFilepath cfg filepath false)) with
  | .ok (.file i) =>
    { sb with
      return_code := 0
      error_number := 0
      st_size := (fs.file i).content.length
      st_mtim := (fs.file i).mtim }
  | .ok (.dir _) => { sb with return_code := 0, error_number := 0, st_mtim := env.dirMtim }
  | .error e => { return_code := -1, error_number := e.number }

/-- `entries` is what `readdir` returns, one by one, before it returns a null pointer. On the null pointer of
a failed `opendir` it kills the server. -/
def Ls (env : StepEnv) (entries : List Bytes) (filepath : Bytes) (fs : InodeFS) : Option LsResult :=
  match env.syscall (fs.node (getServerFilepath cfg filepath false)) with
  | .ok (.dir _) => some { d_name := entries }
  | .ok (.file _) | .error _ => none

/-! ### The server -/

structure State extends Shared where
  writes : ℕ → Option WriteCall
  reads : ℕ → Option GetContentCall

/-- A server on a file tree, before the first call. -/
def State.idle (fs : InodeFS) : State := ⟨⟨fs, none⟩, fun _ => none, fun _ => none⟩

/-- A `mkdir` of `main`, which exits on any error but `EEXIST`. -/
def mainMkdir (path : Bytes) (fs : InodeFS) : Option InodeFS :=
  match fs.mkdir path with
  | .ok fs' => some fs'
  | .error e => if e = .EEXIST then some fs else none

/-- The server as `main` starts it; `none` when it exits. -/
def boot (fs : InodeFS) : Option State :=
  (mainMkdir (cfg.AFS_ROOT_DIR ++ Bytes.ascii "cache") fs).bind fun fs =>
    (mainMkdir (cfg.AFS_ROOT_DIR ++ Bytes.ascii "fs_root") fs).map State.idle

/-- One event: a call arrives, makes its next step or is cancelled, or an atomic call happens. -/
inductive Event where
  | startWrite (id : ℕ) (stream : List FilepathContent)
  | write (id : ℕ) (env : StepEnv)
  | cancel (id : ℕ)
  | startGetContent (id : ℕ) (filepath : Bytes)
  | getContent (id : ℕ) (env : StepEnv)
  | unlink (filepath : Bytes) (env : StepEnv)
  | rmdir (filepath : Bytes) (env : StepEnv)
  | mkdir (filepath : Bytes) (env : StepEnv)

/-- `none` when the event cannot happen in the state. -/
def step (s : State) : Event → Option State
  | .startWrite id stream =>
    if s.writes id = none then some { s with writes := Function.update s.writes id (some (.start stream)) } else none
  | .write id env =>
    (s.writes id).bind fun c => (c.step cfg id env s.toShared).map fun r =>
      { s with toShared := r.1, writes := Function.update s.writes id (some r.2) }
  | .cancel id =>
    (s.writes id).map fun c => { s with writes := Function.update s.writes id (some { c with cancelled := true }) }
  | .startGetContent id filepath =>
    if s.reads id = none then some { s with reads := Function.update s.reads id (some { filepath }) } else none
  | .getContent id env =>
    (s.reads id).bind fun c => (c.step cfg env s.fs).map fun c' =>
      { s with reads := Function.update s.reads id (some c') }
  | .unlink filepath env => some { s with fs := (Unlink cfg env filepath s.fs).1 }
  | .rmdir filepath env => some { s with fs := (Rmdir cfg env filepath s.fs).1 }
  | .mkdir filepath env => some { s with fs := (Mkdir cfg env filepath s.fs).1 }

def run (s : State) : List Event → Option State
  | [] => some s
  | e :: es => (step cfg s e).bind fun s' => run s' es

end AFSv1.Server
