import AFSv1.Client.Truncation
import AFSv1.Reports

/-! What `afs_getattr` says about a file that the same client has open. It asks the server, while reads and writes go
to the cache file. -/
namespace AFSv1
open Foundations Client

variable {A Path : Type} [DecidableEq A] [DecidableEq Path]

/-- `afs_getattr` with its call. -/
def getattr (path : Path) : Program Path (ℤ × Option StatContent) := do
  let response ← rpc (.Stat path)
  return afsGetattr response

/-- The operations of a session on an open file. -/
inductive SessionCall where
  | modify (x : Modification)
  | fsync

namespace SessionCall

def operation (path : Path) (fh : ℕ) : SessionCall → Operation Path
  | .modify x => x.operation path fh
  | .fsync => .fsync path fh

/-- The return value of a call that succeeds. -/
def full : SessionCall → ℤ
  | .modify x => x.full
  | .fsync => 0

/-- What becomes of the length of the file. -/
def resized (n : ℕ) : SessionCall → ℕ
  | .modify (.write buf offset) => if buf = [] then n else max n (offset + buf.length)
  | .modify (.ftruncate m) | .modify (.truncate m) => m
  | .fsync => n

end SessionCall

/-- The session of `a` comes from `s` to a world by these calls, which succeed. The other clients do what they like. -/
inductive InSession (a : A) (path : Path) (fh : ℕ) (s : World A Path) : List SessionCall → World A Path → Prop
  | opened : InSession a path fh s [] s
  | call {xs : List SessionCall} {t t' : World A Path} (x : SessionCall) (envs : List Env) (h : InSession a path fh s xs t)
      (hrun : t.run (machine Path) (session a (x.operation path fh) envs) = some t')
      (hout : (t'.locals a).calls.getLast? = some (x.operation path fh, some { rc := x.full })) :
      InSession a path fh s (xs ++ [x]) t'
  | others {xs : List SessionCall} {t t' : World A Path} (es : List (WorldEvent A Path)) (h : InSession a path fh s xs t)
      (hes : ∀ e ∈ es, e.agent ≠ a) (hrun : t.run (machine Path) es = some t') : InSession a path fh s xs t'

/-- What a read of a file with the bytes `b` returns. -/
def partOf (b : Bytes) (size offset : ℕ) : Outcome :=
  { rc := ((b.drop offset).take size).length, buf := (b.drop offset).take size }

/-- `afs_read` through the handle returns any part of `b`. -/
def Reads (m : Mount Path) (g : Remote Path) (fh : ℕ) (b : Bytes) : Prop :=
  ∀ size offset, (afsRead fh size offset).eval (machine Path).exec [({} : Env)] m g = some (partOf b size offset, m, g)

/-- The bytes behind the handle. -/
def behind (m : Mount Path) (fh : ℕ) : Option Bytes := (m.toLocal.file fh).map fun f => (m.entry f.1).inode f.2

/-- `afs_getattr` succeeds, with the length of what can be read through the handle. -/
def Agrees (path : Path) (fh : ℕ) (env : Env) (m : Mount Path) (g : Remote Path) : Prop :=
  ∃ response, (getattr path).eval (machine Path).exec [env] m g = some ((0, some response), m, g) ∧
    ∃ b, Reads m g fh b ∧ response.st_size = b.length

/-- The size that comes back: the server's, or the default if the reply is lost. -/
def reported (path : Path) (env : Env) (g : Remote Path) : Option ℕ :=
  if env.outage = .none then (g.files path).map fun v => v.content.length else some 0

section Calls

variable {path : Path} {fh : ℕ} {m : Mount Path} {g : Remote Path} {env : Env}

lemma eval_afsRead {b : Bytes} {size offset : ℕ} (hb : behind m fh = some b) (hfault : env.fault = none) :
    (afsRead fh size offset).eval (machine Path).exec [env] m g = some (partOf b size offset, m, g) := by
  obtain ⟨f, hfile, rfl⟩ := Option.map_eq_some_iff.mp hb
  refine Prog.eval_call.mpr ⟨env, [], .ok _, m, g, rfl, ?_, Prog.eval_ret.mpr ⟨rfl, rfl⟩⟩
  simp [machine, Call.exec, LocalCall.exec, onFile, hfile, hfault]

lemma behind_of_eval {out : Outcome} {size offset : ℕ} (hrc : 0 ≤ out.rc)
    (h : (afsRead fh size offset).eval (machine Path).exec [env] m g = some (out, m, g)) : ∃ b, behind m fh = some b := by
  obtain ⟨env, rest, r, l', hnil, hread, h⟩ := eval_disk h
  cases hnil
  simp only [LocalCall.exec] at hread
  split at hread
  · rename_i f hf
    exact ⟨_, Option.map_eq_some_iff.mpr ⟨f, (onFile_ok.mp hf).2, rfl⟩⟩
  · rename_i e _
    cases hread
    obtain ⟨-, hx⟩ := Prog.eval_ret.mp h
    have hout : out = { rc := - e.number } := congrArg Prod.fst hx
    have := Errno.number_pos e
    rw [hout] at hrc
    simp only at hrc
    omega

lemma reads_iff {b : Bytes} : Reads m g fh b ↔ behind m fh = some b := by
  refine ⟨fun h => ?_, fun h size offset => eval_afsRead h rfl⟩
  obtain ⟨b', hb'⟩ := behind_of_eval (by simp [partOf]) (h 0 0)
  have hwhole := h (b'.length + b.length) 0
  rw [eval_afsRead hb' rfl] at hwhole
  have hbuf := congrArg Outcome.buf (congrArg Prod.fst (Option.some.inj hwhole))
  have heq : b' = b := by simpa [partOf, List.take_of_length_le] using hbuf
  rw [hb', heq]

lemma eval_getattr {response : StatContent} :
    (getattr path).eval (machine Path).exec [env] m g = some ((0, some response), m, g) ↔
      afsGetattr (if env.outage = .none then g.stat path else {}) = (0, some response) := by
  simp [getattr, rpc, bind, Prog.bind, Prog.eval, machine, Call.exec, RemoteCall.exec, pure]

omit [DecidableEq Path] in
lemma afsGetattr_iff {n : ℕ} :
    (∃ response, afsGetattr (if env.outage = .none then g.stat path else {}) = (0, some response) ∧
      response.st_size = n) ↔ reported path env g = some n := by
  unfold reported Remote.stat
  split_ifs
  · cases g.files path <;> simp [afsGetattr, Errno.number]
  · simp [afsGetattr]
    omega

lemma agrees_iff : Agrees path fh env m g ↔ ∃ b, behind m fh = some b ∧ reported path env g = some b.length := by
  simp only [Agrees, eval_getattr, reads_iff, ← afsGetattr_iff]
  constructor
  · rintro ⟨response, hresponse, b, hb, hsize⟩
    exact ⟨b, hb, response, hresponse, hsize⟩
  · rintro ⟨b, hb, response, hresponse, hsize⟩
    exact ⟨response, hresponse, b, hb, hsize⟩

omit [DecidableEq Path] in
lemma behind_eq (h : m.Denotes path fh) :
    behind m fh = (m.toLocal.file fh).bind fun _ => (m.entry path).content := by
  rcases h with hnone | ⟨i, hi, hcache⟩
  · simp [behind, hnone]
  · simp [behind, hi, Entry.content, hcache]

end Calls

/-! ### Sessions -/

lemma length_apply (b : Bytes) (x : Modification) : (x.apply b).length = SessionCall.resized b.length (.modify x) := by
  cases x with
  | write buf offset =>
    by_cases hbuf : buf = []
    · simp [Modification.apply, SessionCall.resized, hbuf]
    · simp [Modification.apply, SessionCall.resized, hbuf, Bytes.overlay_length]
  | ftruncate n => exact Bytes.resize_length b n
  | truncate n => exact Bytes.resize_length b n

section Steps

variable {path : Path} {fh : ℕ} {m m' : Mount Path} {g g' : Remote Path} {envs : List Env} {out : Outcome}

/-- The calls of a session open and close no descriptor. -/
lemma alone_fds (x : SessionCall) : (x.operation path fh).program.Safe (aloneLogic Path)
    (fun _ m' _ => m'.fds = m.fds) m g := by
  cases x with
  | modify x =>
    cases x with
    | write buf offset =>
      refine alone_disk fun env r l₁ hdirty => ?_
      cases hdirty
      refine alone_disk fun env r l₂ hwrite => ?_
      rcases LocalCall.exec_pwrite hwrite with ⟨f, -, -, rfl, rfl⟩ | ⟨e, rfl, rfl, -⟩
      · exact alone_ret rfl
      · exact alone_ret rfl
    | ftruncate offset =>
      refine alone_disk fun env r l₁ htrunc => alone_ret ?_
      simp only [LocalCall.exec] at htrunc
      split at htrunc <;> cases htrunc <;> rfl
    | truncate newsize =>
      refine alone_disk fun env r l₁ htrunc => alone_ret ?_
      simp only [LocalCall.exec] at htrunc
      split at htrunc <;> cases htrunc <;> rfl
  | fsync =>
    refine alone_disk fun env r l₁ hsync => alone_ret ?_
    simp only [LocalCall.exec] at hsync
    split at hsync <;> cases hsync <;> rfl

/-- A call that succeeds changes the length behind the handle. -/
lemma behind_call {x : SessionCall} (hden : m.Denotes path fh) (hout : out.rc = x.full)
    (h : (x.operation path fh).program.eval (machine Path).exec envs m g = some (out, m', g')) :
    m'.Denotes path fh ∧ (behind m' fh).map List.length = ((behind m fh).map List.length).map fun n => x.resized n := by
  have hfds : m'.fds = m.fds := alone_eval (alone_fds x) h
  have hfile : m'.toLocal.file fh = m.toLocal.file fh := by rw [Local.file, hfds, Local.file]
  cases x with
  | modify x =>
    obtain ⟨-, hcontent, hden', -⟩ := eval_modification hden hout h
    refine ⟨hden', ?_⟩
    rw [behind_eq hden', behind_eq hden, hfile, hcontent]
    cases m.toLocal.file fh with
    | none => rfl
    | some f =>
      simp only [Option.bind_some, Option.map_map]
      congr 1
      funext b
      exact length_apply b x
  | fsync =>
    obtain ⟨env, rest, r, l', rfl, hsync, h⟩ := eval_disk h
    obtain ⟨rfl, hx⟩ := Prog.eval_ret.mp h
    cases hx
    have hl : l' = m.toLocal := by
      simp only [LocalCall.exec] at hsync
      split at hsync <;> cases hsync <;> rfl
    subst hl
    exact ⟨hden, Option.map_id'.symm⟩

end Steps

variable {a : A} {path : Path} {fh : ℕ} {s t : World A Path} {xs : List SessionCall}

/-- What a session has made of the file it opened. -/
lemma InSession.length_behind (h : InSession a path fh s xs t) (hden : (s.locals a).Denotes path fh) :
    (t.locals a).Denotes path fh ∧ (behind (t.locals a) fh).map List.length =
      ((behind (s.locals a) fh).map List.length).map (xs.foldl SessionCall.resized) := by
  induction h with
  | opened => exact ⟨hden, Option.map_id'.symm⟩
  | call x envs h hrun hout ih =>
    obtain ⟨hden', hlength⟩ := ih
    obtain ⟨m, out, m', g', hbegin, heval, hend, -⟩ := World.run_session hrun
    obtain ⟨rfl, -⟩ := Mount.begin_other hbegin (by rcases x with (_ | _ | _) | _ <;> exact nofun)
    have hrc : out.rc = x.full := by
      have : out = { rc := x.full } := by simpa [hend, Mount.finish] using hout
      rw [this]
    obtain ⟨hden'', hcall⟩ := behind_call hden' hrc heval
    rw [hend]
    refine ⟨hden'', hcall.trans ?_⟩
    rw [hlength, Option.map_map]
    congr 1
    funext n
    simp
  | others es h hes hrun ih =>
    rw [(System.run_others hes hrun).1]
    exact ih

/-- During a session `afs_getattr` agrees with the reads exactly if the handle is one of the cache file and the server's
file, or the size 0 of a lost reply, has the length that the calls of the session give the opened one. -/
theorem attributes_iff (s s₁ s₂ : World A Path) (a : A) (path : Path) (fh : ℕ) (envs : List Env) (env : Env)
    (xs : List SessionCall) (hopen : s.run (machine Path) (session a (.open path) envs) = some s₁)
    (hfh : (s₁.locals a).calls.getLast? = some (.open path, some { rc := 0, fh }))
    (hsession : InSession a path fh s₁ xs s₂) :
    Agrees path fh env (s₂.locals a) s₂.shared ↔
      ∃ b, behind (s₁.locals a) fh = some b ∧ reported path env s₂.shared = some (xs.foldl SessionCall.resized b.length) := by
  obtain ⟨m, out, m', g', hbegin, heval, hend, -⟩ := World.run_session hopen
  obtain rfl : out = { rc := 0, fh } := by simpa [hend, Mount.finish] using hfh
  have hden : (s₁.locals a).Denotes path fh := by
    rw [hend]
    exact alone_eval alone_afsOpen heval rfl
  obtain ⟨-, hlength⟩ := hsession.length_behind hden
  rw [agrees_iff]
  constructor
  · rintro ⟨c, hc, hreported⟩
    rw [hc] at hlength
    obtain ⟨n, hn, hfold⟩ := Option.map_eq_some_iff.mp hlength.symm
    obtain ⟨b, hb, rfl⟩ := Option.map_eq_some_iff.mp hn
    exact ⟨b, hb, by rw [hfold, hreported]⟩
  · rintro ⟨b, hb, hreported⟩
    rw [hb] at hlength
    obtain ⟨c, hc, hn⟩ := Option.map_eq_some_iff.mp hlength
    exact ⟨c, hc, by rw [hn, hreported]⟩

/-- A write that leaves the length as it is. -/
theorem attributes_iff_rewrite : ∃ s₂ : World Unit Unit, Agrees () 3 {} (s₂.locals ()) s₂.shared := by
  have hrun : ∃ s, (World.start Unit .empty).run (machine Unit) created = some s ∧
      ∃ s₁, s.run (machine Unit) (session () (.open ()) (quiet 5 2)) = some s₁ ∧
        (s₁.locals ()).calls.getLast? = some (.open (), some { rc := 0, fh := 3 }) ∧
        behind (s₁.locals ()) 3 = some (Bytes.ascii "x") ∧
        ∃ s₂, s₁.run (machine Unit) (session () (.write () (Bytes.ascii "y") 0 3) (quiet 2 2)) = some s₂ ∧
          (s₂.locals ()).calls.getLast? = some (.write () (Bytes.ascii "y") 0 3, some { rc := 1 }) ∧
          reported () {} s₂.shared = some 1 := by
    decide +kernel
  obtain ⟨s, -, s₁, hopen, hfh, hbehind, s₂, hwrite, hout, hreported⟩ := hrun
  refine ⟨s₂, (attributes_iff s s₁ s₂ () () 3 (quiet 5 2) {} [.modify (.write (Bytes.ascii "y") 0)] hopen hfh
    (.call (.modify (.write (Bytes.ascii "y") 0)) (quiet 2 2) .opened hwrite hout)).mpr ⟨_, hbehind, ?_⟩⟩
  rw [hreported]
  decide

/-- A file that was created by the client has no attributes, and one that it extends keeps its old size. -/
theorem not_attributes_extended :
    (∃ s₁ : World Unit Unit, (World.start Unit .empty).run (machine Unit) (session () (.open ()) (quiet 7 1)) = some s₁ ∧
      (s₁.locals ()).calls.getLast? = some (.open (), some { rc := 0, fh := 3 }) ∧ InSession () () 3 s₁ [] s₁ ∧
        ¬ Agrees () 3 {} (s₁.locals ()) s₁.shared) ∧
    ∃ s s₁ s₂ : World Unit Unit, (World.start Unit .empty).run (machine Unit) created = some s ∧
      s.run (machine Unit) (session () (.open ()) (quiet 5 2)) = some s₁ ∧
        (s₁.locals ()).calls.getLast? = some (.open (), some { rc := 0, fh := 3 }) ∧
          InSession () () 3 s₁ [.modify (.write (Bytes.ascii "yz") 1)] s₂ ∧ ¬ Agrees () 3 {} (s₂.locals ()) s₂.shared := by
  have hcreated : ∃ s₁ : World Unit Unit,
      (World.start Unit .empty).run (machine Unit) (session () (.open ()) (quiet 7 1)) = some s₁ ∧
      (s₁.locals ()).calls.getLast? = some (.open (), some { rc := 0, fh := 3 }) ∧ reported () {} s₁.shared = none := by
    decide +kernel
  have hextended : ∃ s : World Unit Unit, (World.start Unit .empty).run (machine Unit) created = some s ∧
      ∃ s₁, s.run (machine Unit) (session () (.open ()) (quiet 5 2)) = some s₁ ∧
        (s₁.locals ()).calls.getLast? = some (.open (), some { rc := 0, fh := 3 }) ∧
        ∃ s₂, s₁.run (machine Unit) (session () (.write () (Bytes.ascii "yz") 1 3) (quiet 2 2)) = some s₂ ∧
          (s₂.locals ()).calls.getLast? = some (.write () (Bytes.ascii "yz") 1 3, some { rc := 2 }) ∧
          reported () {} s₂.shared = some 1 ∧ behind (s₂.locals ()) 3 = some (Bytes.ascii "xyz") := by
    decide +kernel
  constructor
  · obtain ⟨s₁, hopen, hfh, hmissing⟩ := hcreated
    refine ⟨s₁, hopen, hfh, .opened, ?_⟩
    rw [agrees_iff, hmissing]
    exact nofun
  · obtain ⟨s, hs, s₁, hopen, hfh, s₂, hwrite, hout, hold, hnew⟩ := hextended
    refine ⟨s, s₁, s₂, hs, hopen, hfh, .call (.modify (.write (Bytes.ascii "yz") 1)) (quiet 2 2) .opened hwrite hout, ?_⟩
    rw [agrees_iff, hold, hnew]
    rintro ⟨b, hb, hlength⟩
    cases hb
    exact absurd hlength (by decide)

end AFSv1
