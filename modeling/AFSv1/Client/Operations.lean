import AFSv1.Client.State
import AFSv1.Foundations.Agents

/-! The FUSE operations of the client as programs, and the clients as agents that run them. -/
namespace AFSv1.Client
open Foundations Tables

variable {Path : Type} [DecidableEq Path]

abbrev Program (Path α : Type) := Prog (Call Path) Call.Answer α

def disk (c : LocalCall Path) : Program Path c.Answer := .call (.disk c) .ret

def rpc (c : RemoteCall Path) : Program Path c.Answer := .call (.rpc c) .ret

/-- What an operation hands back to FUSE: its return value, `fi->fh` and the bytes read. -/
structure Outcome where
  rc : ℤ
  fh : ℕ := 0
  buf : Bytes := []
  deriving DecidableEq, Repr

/-- The value a system call returns, with -1 for an error. -/
def returned : Except Errno ℕ → ℤ
  | .ok n => n
  | .error _ => -1

/-- `-errno` after a failed call. -/
def failed {α : Type} (r : Except Errno α) : ℤ :=
  match r with
  | .ok _ => 0
  | .error e => -e.number

/-- The unsigned 64-bit field `fi->fh`. -/
@[irreducible] def fhOf (rc : ℤ) : ℕ := (rc % 2 ^ 64).toNat

/-- `fi->fh = open(cachepath(path).c_str(), fi->flags)` and the test on it. -/
def openHandle (path : Path) : Program Path Outcome := do
  let r ← disk (.openFile path)
  let fh := fhOf (returned r)
  if fh < 0 then return { rc := failed r, fh }
  return { rc := 0, fh }

/-- `ofile << msg.b()` for every message. `ofile` is the stream's inode and position, or `none` once
the stream has failed. -/
def writeChunks (path : Path) (ofile : Option (ℕ × ℕ)) : List MetaContent → Program Path Unit
  | [] => return ()
  | msg :: msgs => do
    match ofile with
    | none => writeChunks path none msgs
    | some (i, pos) =>
      let good ← disk (.ofstreamWrite path i pos msg.b)
      writeChunks path (if good then some (i, pos + msg.b.length) else none) msgs

/-- The second half of `afs_open`: get the file from the server, or create a new one. -/
def download (path : Path) : Program Path Outcome := do
  let (msgs, ok) ← rpc (.GetContent path)
  match msgs with
  | [] => return { rc := - Errno.EIO.number }
  | msg :: msgs =>
    if msg.file_exists then
      let ofile ← disk (.ofstream path)
      -- neither the open nor the writes are checked
      writeChunks path (ofile.map fun i => (i, 0)) (msg :: msgs)
      if ok then
        disk (.lastModifiedSet path (msgs.getLastD msg).timestamp)
        disk (.isDirtySet path false)
        openHandle path
      else return { rc := - Errno.EIO.number }
    else
      disk (.lastModifiedSet path localCreatFile)
      let fd ← disk (.creat path)
      let _ ← disk (.close (fhOf (returned fd)))
      disk (.isDirtySet path false)
      openHandle path

def afsOpen (path : Path) : Program Path Outcome := do
  if (← disk (.lastModifiedCount path)) = 1 then
    if (← disk (.lastModifiedGet path)) = localCreatFile then openHandle path
    else
      let stat_content ← rpc (.Stat path)
      if stat_content.st_mtim = (← disk (.lastModifiedGet path)) then openHandle path
      else
        disk (.lastModifiedErase path)
        let _ ← disk (.unlink path)
        download path
  else download path

/-- The loop of `afs_release` over the cache file: the chunks that were sent, and whether the stream to
the server broke. The fuel bounds the number of rounds, as the file may grow while it is read. -/
def upload (path : Path) (i : ℕ) : ℕ → ℕ → List Bytes → Program Path (List Bytes × Bool)
  | 0, _, _ => .call (.disk .diverge) nofun
  | fuel + 1, pos, chunks => do
    match ← disk (.ifstreamRead path i pos) with
    -- a read error sets `badbit` and not `eofbit`
    | none => return (chunks, false)
    | some buf =>
      if ← rpc .writerWrite then
        if buf.length < BUFSIZE then return (chunks ++ [buf], false)
        else upload path i fuel (pos + buf.length) (chunks ++ [buf])
      else return (chunks, true)

def afsRelease (fuel : ℕ) (path : Path) (fh : ℕ) : Program Path Outcome := do
  let _ ← disk (.close fh)
  if ← disk (.isDirtyGet path) then
    match ← disk (.ifstream path) with
    | none => .call (.disk .exit) nofun
    | some i =>
      let (chunks, broken) ← upload path i fuel 0 []
      match ← rpc (.Write path chunks broken) with
      | (.OK, reply) =>
        disk (.isDirtySet path false)
        disk (.lastModifiedSet path reply.timestamp)
        return { rc := 0 }
      | _ => return { rc := Errno.EIO.number }
  else return { rc := 0 }

def afsFsync (fh : ℕ) : Program Path Outcome := do
  let r ← disk (.fsync fh)
  return { rc := failed r }

def afsMknod (path : Path) : Program Path Outcome := do
  let stat_content ← rpc (.Stat path)
  if stat_content.return_code = 0 then return { rc := Errno.EEXIST.number }
  match ← disk (.openExcl path) with
  | .error e => return { rc := -e.number }
  | .ok fd =>
    match ← disk (.close fd) with
    | .error e => return { rc := -e.number }
    | .ok () =>
      let sent ← rpc .writerWrite
      match ← rpc (.Write path (if sent then [[]] else []) !sent) with
      | (.OK, reply) =>
        disk (.lastModifiedSet path reply.timestamp)
        return { rc := 0 }
      | _ => return { rc := Errno.EIO.number }

def afsUnlink (path : Path) : Program Path Outcome := do
  let _ ← disk (.unlink path)
  disk (.lastModifiedErase path)
  disk (.isDirtyErase path)
  let res ← rpc (.Unlink path)
  return { rc := if res.return_code < 0 then -res.error_number else res.return_code }

def afsRead (fh size offset : ℕ) : Program Path Outcome := do
  match ← disk (.pread fh size offset) with
  | .ok buf => return { rc := buf.length, buf }
  | .error e => return { rc := -e.number }

def afsWrite (path : Path) (buf : Bytes) (offset fh : ℕ) : Program Path Outcome := do
  disk (.isDirtySet path true)
  match ← disk (.pwrite fh buf offset) with
  | .ok n => return { rc := n }
  | .error e => return { rc := -e.number }

def afsFtruncate (offset fh : ℕ) : Program Path Outcome := do
  let r ← disk (.ftruncate fh offset)
  return { rc := failed r }

def afsTruncate (path : Path) (newsize : ℕ) : Program Path Outcome := do
  let r ← disk (.truncate path newsize)
  return { rc := failed r }

/-! ### Clients as agents -/

inductive Operation (Path : Type) where
  | «open» (path : Path)
  | release (fuel : ℕ) (path : Path) (fh : ℕ)
  | read (path : Path) (fh size offset : ℕ)
  | write (path : Path) (buf : Bytes) (offset fh : ℕ)
  | fsync (path : Path) (fh : ℕ)
  | mknod (path : Path)
  | unlink (path : Path)
  | ftruncate (path : Path) (offset fh : ℕ)
  | truncate (path : Path) (newsize : ℕ)
  deriving DecidableEq

namespace Operation

def program : Operation Path → Program Path Outcome
  | .open path => afsOpen path
  | .release fuel path fh => afsRelease fuel path fh
  | .read _ fh size offset => afsRead fh size offset
  | .write path buf offset fh => afsWrite path buf offset fh
  | .fsync _ fh => afsFsync fh
  | .mknod path => afsMknod path
  | .unlink path => afsUnlink path
  | .ftruncate _ offset fh => afsFtruncate offset fh
  | .truncate path newsize => afsTruncate path newsize

/-- The open handle an operation works on. -/
def handle : Operation Path → Option (Path × ℕ)
  | .release _ path fh | .read path fh _ _ | .write path _ _ fh | .fsync path fh | .ftruncate path _ fh => some (path, fh)
  | .open _ | .mknod _ | .unlink _ | .truncate _ _ => none

end Operation

instance lawfulBEq_handle {Path : Type} [DecidableEq Path] : LawfulBEq (Path × ℕ) := inferInstance

/-- A mounted client: its state, the handles FUSE holds open, and the operations so far with their
outcomes; an operation lost in a crash has none. -/
structure Mount (Path : Type) extends Local Path where
  handles : List (Path × ℕ) := []
  calls : List (Operation Path × Option Outcome) := []

namespace Mount

/-- FUSE passes on an operation only for a handle that is open, and closes one with its release. -/
def begin (op : Operation Path) (m : Mount Path) : Option (Mount Path) :=
  match op, op.handle with
  | .release _ _ _, some h => if h ∈ m.handles then some { m with handles := m.handles.erase h } else none
  | _, some h => if h ∈ m.handles then some m else none
  | _, none => some m

def finish (op : Operation Path) (out : Outcome) (m : Mount Path) : Mount Path :=
  { m with
    calls := m.calls ++ [(op, some out)]
    handles := match op with
      | .open path => if out.rc = 0 then (path, out.fh) :: m.handles else m.handles
      | _ => m.handles }

/-- The tables and the cache files survive a crash. -/
def crash (op : Option (Operation Path)) (m : Mount Path) : Mount Path :=
  { m with fds := fun _ => none, handles := [], calls := m.calls ++ (op.map fun op => (op, none)).toList }

end Mount

/-- Clients that run the operations above. -/
def machine (Path : Type) [DecidableEq Path] :
    Machine (Operation Path) (Call Path) Call.Answer Outcome Env (Mount Path) (Remote Path) where
  exec env c m g := (c.exec env m.toLocal g).map fun r => (r.1, { m with toLocal := r.2.1 }, r.2.2)
  prog := Operation.program
  begin := Mount.begin
  finish := Mount.finish
  crash := Mount.crash

/-- Any number of clients and their server. -/
abbrev World (A Path : Type) := System A (Operation Path) (Call Path) Call.Answer Outcome (Mount Path) (Remote Path)

abbrev WorldEvent (A Path : Type) := AgentEvent A (Operation Path) Env

/-- Newly mounted clients with empty cache directories. -/
def World.start (A : Type) (g : Remote Path) : World A Path := { shared := g, locals := fun _ => {} }

end AFSv1.Client
