import AFSv1.Foundations.InodeFS
import AFSv1.Foundations.Prog
import AFSv1.Tables.LastModified
import AFSv1.Protocol

/-! What the operations of a client work on: its tables, its cache files and descriptors, and the
server as calls that are atomic there show it. Everything the client keeps on disk it keeps under
the hash of a path; paths stand for their hashes here. -/
namespace AFSv1.Client
open Foundations Tables

variable {Path : Type} [DecidableEq Path]

structure Version where
  content : Bytes
  mtim : Timestamp
  deriving DecidableEq

/-- The current versions of the files, and all versions that were ever published. -/
structure Remote (Path : Type) where
  files : Path → Option Version
  history : List (Path × Version)
  published : ∀ p v, files p = some v → (p, v) ∈ history
  distinct : history.Pairwise fun x y => x.2.mtim ≠ y.2.mtim

namespace Remote

def empty : Remote Path := ⟨fun _ => none, [], nofun, .nil⟩

/-- No version has this modification time yet. -/
def Fresh (g : Remote Path) (now : Timestamp) : Prop := ∀ x ∈ g.history, now ≠ x.2.mtim

instance (g : Remote Path) (now : Timestamp) : Decidable (g.Fresh now) := by unfold Fresh; infer_instance

def publish (g : Remote Path) (path : Path) (v : Version) (hfresh : g.Fresh v.mtim) : Remote Path where
  files := Function.update g.files path (some v)
  history := (path, v) :: g.history
  published p w h := by
    by_cases hp : p = path
    · subst hp
      simp only [Function.update_self, Option.some.injEq] at h
      simp [h]
    · rw [Function.update_of_ne hp] at h
      exact List.mem_cons_of_mem _ (g.published p w h)
  distinct := g.distinct.cons hfresh

def unlink (g : Remote Path) (path : Path) : Remote Path where
  files := Function.update g.files path none
  history := g.history
  published p w h := by
    by_cases hp : p = path
    · subst hp
      simp at h
    · rw [Function.update_of_ne hp] at h
      exact g.published p w h
  distinct := g.distinct

/-- `Stat`. -/
def stat (g : Remote Path) (path : Path) : StatContent :=
  match g.files path with
  | some v => { st_size := v.content.length, st_mtim := v.mtim }
  | none => { return_code := -1, error_number := Errno.ENOENT.number }

/-- The messages of `GetContent`. -/
def getContent (g : Remote Path) (path : Path) : List MetaContent :=
  match g.files path with
  | some v => (Bytes.blocks BUFSIZE v.content).map fun b => { file_exists := true, timestamp := v.mtim, b }
  | none => [{ file_exists := false }]

end Remote

/-- What the client keeps under one hash: the entries of the two tables, the inode at the cache
path, and the contents of this and earlier inodes there. -/
structure Entry where
  last_modified : Option Bytes := none
  is_dirty : Option Bool := none
  cache : Option ℕ := none
  inode : ℕ → Bytes := fun _ => []
  next : ℕ := 0

namespace Entry

def content (e : Entry) : Option Bytes := e.cache.map e.inode

/-- `is_dirty.get`. -/
def dirty (e : Entry) : Bool := e.is_dirty.getD false

def setInode (e : Entry) (i : ℕ) (b : Bytes) : Entry := { e with inode := Function.update e.inode i b }

/-- Opening with `O_CREAT | O_TRUNC`: the inode and the new entry. -/
def openTrunc (e : Entry) : ℕ × Entry :=
  match e.cache with
  | some i => (i, e.setInode i [])
  | none => (e.next, { e.setInode e.next [] with cache := some e.next, next := e.next + 1 })

end Entry

/-- The conversion of the unsigned 64-bit field `fi->fh` to an `int`. -/
@[irreducible] def intOf (fh : ℕ) : ℤ := Int.bmod fh (2 ^ 32)

structure Local (Path : Type) where
  entry : Path → Entry := fun _ => {}
  fds : ℕ → Option (Path × ℕ) := fun _ => none

namespace Local

def modify (l : Local Path) (path : Path) (f : Entry → Entry) : Local Path :=
  { l with entry := Function.update l.entry path (f (l.entry path)) }

@[simp] lemma modify_entry_self (l : Local Path) (path : Path) (f : Entry → Entry) :
    (l.modify path f).entry path = f (l.entry path) := by simp [modify]

lemma modify_entry_ne (l : Local Path) {path q : Path} (f : Entry → Entry) (h : q ≠ path) :
    (l.modify path f).entry q = l.entry q := by simp [modify, h]

@[simp] lemma modify_fds (l : Local Path) (path : Path) (f : Entry → Entry) : (l.modify path f).fds = l.fds := rfl

/-- A free descriptor is taken into use. -/
def allocate (l : Local Path) (fd : ℕ) (path : Path) (i : ℕ) : Option (Local Path) :=
  if fd < 2 ^ 31 ∧ l.fds fd = none then some { l with fds := Function.update l.fds fd (some (path, i)) } else none

/-- The file behind `(int) fh`. -/
def file (l : Local Path) (fh : ℕ) : Option (Path × ℕ) := if 0 ≤ intOf fh then l.fds (intOf fh).toNat else none

end Local

/-- How a remote call fares. -/
inductive Outage where
  | none | before | after
  deriving DecidableEq, Repr

/-- What the code does not decide about one call: a local call that fails without effect, a remote
call that fails before or after its effect at the server or after some messages, the number of a new
descriptor, and the modification time of a new version. -/
structure Env where
  fault : Option Errno := none
  outage : Outage := .none
  delivered : Option ℕ := none
  fd : ℕ := 0
  now : Timestamp := .uniform 0

/-- The calls on the tables, the cache files and the descriptors. -/
inductive LocalCall (Path : Type) where
  | lastModifiedCount (path : Path)
  | lastModifiedGet (path : Path)
  | lastModifiedSet (path : Path) (state : Bytes)
  | lastModifiedErase (path : Path)
  | isDirtyGet (path : Path)
  | isDirtySet (path : Path) (state : Bool)
  | isDirtyErase (path : Path)
  | openFile (path : Path)
  | openExcl (path : Path)
  | creat (path : Path)
  | close (fd : ℕ)
  | unlink (path : Path)
  | ofstream (path : Path)
  | ofstreamWrite (path : Path) (i pos : ℕ) (b : Bytes)
  | ifstream (path : Path)
  | ifstreamRead (path : Path) (i pos : ℕ)
  | pread (fh size offset : ℕ)
  | pwrite (fh : ℕ) (buf : Bytes) (offset : ℕ)
  | ftruncate (fh offset : ℕ)
  | truncate (path : Path) (newsize : ℕ)
  | fsync (fh : ℕ)
  | exit
  | diverge
  deriving DecidableEq

/-- The type of a call's answer. Nothing comes back from `exit`, nor from a loop that never ends. -/
abbrev LocalCall.Answer : LocalCall Path → Type
  | .lastModifiedCount _ => ℕ
  | .lastModifiedGet _ => Bytes
  | .lastModifiedSet _ _ | .lastModifiedErase _ => Unit
  | .isDirtyGet _ => Bool
  | .isDirtySet _ _ | .isDirtyErase _ => Unit
  | .openFile _ | .openExcl _ | .creat _ => Except Errno ℕ
  | .close _ | .unlink _ => Except Errno Unit
  | .ofstream _ | .ifstream _ => Option ℕ
  | .ofstreamWrite _ _ _ _ => Bool
  | .ifstreamRead _ _ _ => Option Bytes
  | .pread _ _ _ => Except Errno Bytes
  | .pwrite _ _ _ => Except Errno ℕ
  | .ftruncate _ _ | .truncate _ _ | .fsync _ => Except Errno Unit
  | .exit | .diverge => Empty

/-- A system call on the file behind a descriptor. -/
def onFile (env : Env) (l : Local Path) (fh : ℕ) : Except Errno (Path × ℕ) :=
  match env.fault with
  | some e => .error e
  | none => (l.file fh).elim (.error .EBADF) .ok

/-- A system call on the inode at a cache path. -/
def onCache (env : Env) (l : Local Path) (path : Path) : Except Errno ℕ :=
  match env.fault, (l.entry path).cache with
  | some e, _ => .error e
  | none, some i => .ok i
  | none, none => .error .ENOENT

/-- A system call that creates the cache file if it has to. -/
def onCreate (env : Env) (l : Local Path) (path : Path) (excl : Bool) : Except Errno (ℕ × Local Path) :=
  match env.fault with
  | some e => .error e
  | none =>
    if excl ∧ (l.entry path).cache.isSome then .error .EEXIST
    else .ok ((l.entry path).openTrunc.1, l.modify path fun e => e.openTrunc.2)

/-- The answer to a call and its effect; `none` where the environment does not fit the call. -/
def LocalCall.exec (env : Env) (l : Local Path) : (c : LocalCall Path) → Option (c.Answer × Local Path)
  | .lastModifiedCount path => some (if (l.entry path).last_modified.isSome then 1 else 0, l)
  | .lastModifiedGet path => some ((l.entry path).last_modified.getD (Bytes.ascii "not found"), l)
  | .lastModifiedSet path state => some ((), l.modify path fun e => { e with last_modified := some state })
  | .lastModifiedErase path => some ((), l.modify path fun e => { e with last_modified := none })
  | .isDirtyGet path => some ((l.entry path).dirty, l)
  | .isDirtySet path state => some ((), l.modify path fun e => { e with is_dirty := some state })
  | .isDirtyErase path => some ((), l.modify path fun e => { e with is_dirty := none })
  | .openFile path =>
    match onCache env l path with
    | .ok i => (l.allocate env.fd path i).map fun l => (.ok env.fd, l)
    | .error e => some (.error e, l)
  | .openExcl path =>
    match onCreate env l path true with
    | .ok (i, l) => (l.allocate env.fd path i).map fun l => (.ok env.fd, l)
    | .error e => some (.error e, l)
  | .creat path =>
    match onCreate env l path false with
    | .ok (i, l) => (l.allocate env.fd path i).map fun l => (.ok env.fd, l)
    | .error e => some (.error e, l)
  | .close fd =>
    if (l.file fd).isSome then some (.ok (), { l with fds := Function.update l.fds (intOf fd).toNat none })
    else some (.error .EBADF, l)
  | .unlink path =>
    match onCache env l path with
    | .ok _ => some (.ok (), l.modify path fun e => { e with cache := none })
    | .error e => some (.error e, l)
  | .ofstream path =>
    match onCreate env l path false with
    | .ok (i, l) => some (some i, l)
    | .error _ => some (none, l)
  | .ofstreamWrite path i pos b =>
    -- an empty string reaches no system call
    if env.fault = none ∨ b = [] then some (true, l.modify path fun e => e.setInode i ((e.inode i).overlay pos b))
    else some (false, l)
  | .ifstream path =>
    match onCache env l path with
    | .ok i => some (some i, l)
    | .error _ => some (none, l)
  | .ifstreamRead path i pos =>
    match env.fault with
    | some _ => some (none, l)
    | none => some (some ((((l.entry path).inode i).drop pos).take BUFSIZE), l)
  | .pread fh size offset =>
    match onFile env l fh with
    | .ok f => some (.ok ((((l.entry f.1).inode f.2).drop offset).take size), l)
    | .error e => some (.error e, l)
  | .pwrite fh buf offset =>
    match onFile env l fh with
    | .ok f => some (.ok buf.length, l.modify f.1 fun e => e.setInode f.2 ((e.inode f.2).overlay offset buf))
    | .error e => some (.error e, l)
  | .ftruncate fh offset =>
    match onFile env l fh with
    | .ok f => some (.ok (), l.modify f.1 fun e => e.setInode f.2 ((e.inode f.2).resize offset))
    | .error e => some (.error e, l)
  | .truncate path newsize =>
    match onCache env l path with
    | .ok i => some (.ok (), l.modify path fun e => e.setInode i ((e.inode i).resize newsize))
    | .error e => some (.error e, l)
  | .fsync fh =>
    match onFile env l fh with
    | .ok _ => some (.ok (), l)
    | .error e => some (.error e, l)
  | .exit | .diverge => none

/-- The remote calls. `writerWrite` hands one message of a `Write` stream to the transport, and `Write`
stands for the end of the stream and its reply. -/
inductive RemoteCall (Path : Type) where
  | Stat (path : Path)
  | GetContent (path : Path)
  | writerWrite
  | Write (path : Path) (chunks : List Bytes) (broken : Bool)
  | Unlink (path : Path)
  deriving DecidableEq

abbrev RemoteCall.Answer : RemoteCall Path → Type
  | .Stat _ => StatContent
  | .GetContent _ => List MetaContent × Bool
  | .writerWrite => Bool
  | .Write _ _ _ => Status × Meta
  | .Unlink _ => Response

/-- A call that fails leaves the reply at its defaults. -/
def RemoteCall.exec (env : Env) (g : Remote Path) : (c : RemoteCall Path) → Option (c.Answer × Remote Path)
  | .Stat path => some (if env.outage = .none then g.stat path else {}, g)
  | .GetContent path =>
    match env.delivered with
    | none => some ((g.getContent path, true), g)
    | some n => some (((g.getContent path).take n, false), g)
  | .writerWrite => some (env.outage = .none, g)
  | .Write path chunks broken =>
    if broken ∨ env.outage = .before then some ((.UNAVAILABLE, {}), g)
    else
      let reply : Status × Meta := if env.outage = .none then (.OK, { timestamp := env.now }) else (.UNAVAILABLE, {})
      -- the path comes with the chunks, so a stream without any changes nothing at this path
      if chunks = [] then some (reply, g)
      else if hfresh : g.Fresh env.now then some (reply, g.publish path ⟨chunks.flatten, env.now⟩ hfresh)
      else none
  | .Unlink path =>
    if env.outage = .before then some ({}, g)
    else if env.outage = .after then some ({}, g.unlink path)
    else if g.files path = none then some ({ return_code := -1, error_number := Errno.ENOENT.number }, g)
    else some ({ return_code := 0 }, g.unlink path)

inductive Call (Path : Type) where
  | disk (c : LocalCall Path)
  | rpc (c : RemoteCall Path)
  deriving DecidableEq

abbrev Call.Answer : Call Path → Type
  | .disk c => c.Answer
  | .rpc c => c.Answer

def Call.exec (env : Env) (l : Local Path) (g : Remote Path) :
    (c : Call Path) → Option (c.Answer × Local Path × Remote Path)
  | .disk c => (c.exec env l).map fun r => (r.1, r.2, g)
  | .rpc c => (c.exec env g).map fun r => (r.1, l, r.2)

end AFSv1.Client
