import AFSv1.Foundations.Chunks
import AFSv1.Server.Alone
import AFSv1.Server.TempNames

/-! Single transfers on a disk that fails. A `Write` call may run out of room for its temporary file and never looks
at its stream; a `GetContent` call that cannot read on sends no more, and its status is OK all the same. -/
namespace AFSv1.Server
open Foundations Tables

/-- A step, with the room that a write to the temporary file finds if it is limited. -/
structure DiskEnv extends StepEnv where
  room : Option ℕ := none

variable (cfg : Config)

/-- A write that does not store its whole message breaks the stream, and nothing is written from then on. -/
def WriteCall.stepDisk (id : ℕ) (env : DiskEnv) (sh : Shared) (c : WriteCall) : Option (Shared × WriteCall) :=
  match c.pc, c.file with
  | .append, some i =>
    if Chunks.fits env.room c.msg.b then c.step cfg id env.toStepEnv sh
    else some ({ sh with fs := sh.fs.append i (c.msg.b.take (env.room.getD 0)) env.now }, { c with file := none, pc := .read })
  | _, _ => c.step cfg id env.toStepEnv sh

def WriteCall.nextDisk (id : ℕ) (env : DiskEnv) (x : Shared × WriteCall) : Option (Shared × WriteCall) :=
  x.2.stepDisk cfg id env x.1

/-- A whole `Write` call. -/
def callWriteDisk (id : ℕ) (stream : List FilepathContent) (envs : List DiskEnv) (sh : Shared) :
    Option ((Status × Meta) × Shared) :=
  (steps (WriteCall.nextDisk cfg id) envs (sh, .start stream)).bind fun x =>
    match x.2.pc with
    | .returned .OK => some ((.OK, { timestamp := x.2.timestamp }), x.1)
    | .returned status => some ((status, {}), x.1)
    | _ => none

/-- Where there is room for everything the call is the one of the handler. -/
theorem steps_nextDisk {id : ℕ} {envs : List DiskEnv} {x : Shared × WriteCall} (h : ∀ env ∈ envs, env.room = none) :
    steps (WriteCall.nextDisk cfg id) envs x = steps (WriteCall.next cfg id) (envs.map DiskEnv.toStepEnv) x := by
  induction envs generalizing x with
  | nil => rfl
  | cons env envs ih =>
    have hstep : WriteCall.nextDisk cfg id env x = WriteCall.next cfg id env.toStepEnv x := by
      simp only [WriteCall.nextDisk, WriteCall.stepDisk, WriteCall.next, h env (by simp), Chunks.fits_none, if_true]
      split <;> rfl
    rw [List.map_cons, steps, steps, hstep]
    exact congrArg _ (funext fun x => ih fun env henv => h env (by simp [henv]))

/-- The content of the file at a path. -/
def held (path : Bytes) (fs : InodeFS) : Option Bytes :=
  match fs.node (getServerFilepath cfg path false) with
  | .ok (.file i) => some (fs.file i).content
  | _ => none

/-- The path under which the server files a stream: without any message it is empty. -/
def filed (path : Bytes) (chunks : List Bytes) : Bytes := if chunks = [] then [] else path

/-- The temporary file of the stream can be opened. -/
def TempOpens (path : Bytes) (chunks : List Bytes) (envs : List DiskEnv) (fs : InodeFS) : Prop :=
  ∃ env, envs[2]? = some env ∧
    (env.syscall (fs.openTrunc (getServerFilepath cfg (filed path chunks) true) env.now)).isOk

/-- The temporary file can be renamed to the path. -/
def Placed (path : Bytes) (chunks : List Bytes) (envs : List DiskEnv) (fs : InodeFS) : Prop :=
  chunks ≠ [] ∧ (∃ env, envs.getLast? = some env ∧ env.fault = none) ∧ fs.Creatable (getServerFilepath cfg path false)

/-- The temporary file is the published one itself. -/
def SameFile (path : Bytes) (chunks : List Bytes) (fs : InodeFS) : Prop :=
  ∃ l, fs.resolve (getServerFilepath cfg (filed path chunks) true) = .ok l ∧
    fs.resolve (getServerFilepath cfg path false) = .ok l

/-- The call replaces what is stored at the path. -/
def Replaces (path : Bytes) (chunks : List Bytes) (envs : List DiskEnv) (fs : InodeFS) : Prop :=
  TempOpens cfg path chunks envs fs ∧ (Placed cfg path chunks envs fs ∨ SameFile cfg path chunks fs)

/-- The room for each chunk. -/
def rooms (envs : List DiskEnv) (k : ℕ) : Option ℕ := (envs[3 + 2 * k]?).bind DiskEnv.room

/-! ### The steps of a `Write` call -/

/-- One file has grown by these bytes. -/
structure Grown (i : ℕ) (data : Bytes) (fs fs' : InodeFS) : Prop where
  entries : fs'.entries = fs.entries
  parent : fs'.parent = fs.parent
  content : (fs'.file i).content = (fs.file i).content ++ data
  others : ∀ j, j ≠ i → fs'.file j = fs.file j

lemma Grown.refl (i : ℕ) (fs : InodeFS) : Grown i [] fs fs := ⟨rfl, rfl, by simp, fun _ _ => rfl⟩

lemma grown_append (fs : InodeFS) (i : ℕ) (data now : Bytes) : Grown i data fs (fs.append i data now) :=
  ⟨by simp, by simp, by simp, fun _ hj => InodeFS.append_file_ne fs hj data now⟩

lemma Grown.trans {i : ℕ} {data data' : Bytes} {fs fs' fs'' : InodeFS} (h : Grown i data fs fs')
    (h' : Grown i data' fs' fs'') : Grown i (data ++ data') fs fs'' := by
  refine ⟨h'.entries.trans h.entries, h'.parent.trans h.parent, ?_, fun j hj => (h'.others j hj).trans (h.others j hj)⟩
  rw [h'.content, h.content, List.append_assoc]

/-- The tree after the rename, whose result nobody looks at. -/
def renamed (env : DiskEnv) (filepath : Bytes) (fs : InodeFS) : InodeFS :=
  match env.syscall (fs.rename (getServerFilepath cfg filepath true) (getServerFilepath cfg filepath false)) with
  | .ok fs' => fs'
  | .error _ => fs

section Steps

variable {cfg} {path : Bytes} {id : ℕ} {envs : List DiskEnv} {sh sh' : Shared} {c c' : WriteCall} {status : Status}

/-- A run that is not at its end makes a step. -/
lemma after_step (h : steps (WriteCall.nextDisk cfg id) envs (sh, c) = some (sh', c')) (hend : c'.pc = .returned status)
    (hpc : ∀ status, c.pc ≠ .returned status) {f : DiskEnv → Shared × WriteCall}
    (hf : ∀ env, c.stepDisk cfg id env sh = some (f env)) :
    ∃ env rest, envs = env :: rest ∧ steps (WriteCall.nextDisk cfg id) rest (f env) = some (sh', c') := by
  cases envs with
  | nil =>
    cases h
    exact absurd hend (hpc status)
  | cons env rest =>
    obtain ⟨x, hstep, hrest⟩ := Option.bind_eq_some_iff.mp h
    rw [WriteCall.nextDisk, hf] at hstep
    exact ⟨env, rest, rfl, Option.some.inj hstep ▸ hrest⟩

/-- Nothing follows the return. -/
lemma eq_of_returned (h : steps (WriteCall.nextDisk cfg id) envs (sh, c) = some (sh', c')) (hpc : c.pc = .returned status) :
    envs = [] ∧ sh' = sh ∧ c' = c := by
  cases envs with
  | nil =>
    cases h
    exact ⟨rfl, rfl, rfl⟩
  | cons env rest =>
    obtain ⟨⟨sh₁, c₁⟩, hstep, -⟩ := Option.bind_eq_some_iff.mp h
    simp [WriteCall.nextDisk, WriteCall.stepDisk, WriteCall.step, hpc] at hstep

variable (cfg) in
/-- How a call ends that has got as far as its temporary file. -/
structure Renames (path : Bytes) (envs : List DiskEnv) (fs fs' : InodeFS) (status : Status) : Prop where
  status : status = .OK
  last : ∃ env, envs.getLast? = some env ∧ fs' = renamed cfg env path fs

lemma Renames.cons {fs fs' : InodeFS} {env : DiskEnv} (h : Renames cfg path envs fs fs' status) :
    Renames cfg path (env :: envs) fs fs' status := by
  obtain ⟨hstatus, last, hlast, hfs⟩ := h
  exact ⟨hstatus, last, by rw [List.getLast?_cons, hlast]; rfl, hfs⟩

lemma stepDisk_rename {env : DiskEnv} (hpc : c.pc = .rename) : c.stepDisk cfg id env sh =
    some ({ sh with fs := renamed cfg env c.msg.filepath sh.fs }, { c with pc := .returned .OK }) := by
  cases hresult : env.syscall (sh.fs.rename (getServerFilepath cfg c.msg.filepath true)
    (getServerFilepath cfg c.msg.filepath false)) <;> simp [WriteCall.stepDisk, WriteCall.step, hpc, renamed, hresult]

/-- From the end of the loop to the return. -/
lemma renames_of_close (h : steps (WriteCall.nextDisk cfg id) envs (sh, c) = some (sh', c'))
    (hend : c'.pc = .returned status) (hpc : c.pc = .close) (hcancelled : c.cancelled = false) :
    Renames cfg c.msg.filepath envs sh.fs sh'.fs status := by
  have hclose (env : DiskEnv) : c.stepDisk cfg id env sh = some (sh, { c with file := none, pc := .unlock }) := by
    simp only [WriteCall.stepDisk, WriteCall.step, hpc]
  obtain ⟨env₁, envs₁, rfl, h₁⟩ := after_step h hend (by simp [hpc]) hclose
  obtain ⟨env₂, envs₂, rfl, h₂⟩ := after_step h₁ hend (by simp) fun _ => rfl
  obtain ⟨env₃, envs₃, rfl, h₃⟩ := after_step h₂ hend (by simp) fun _ => rfl
  simp only [hcancelled, Bool.false_eq_true, if_false] at h₃
  obtain ⟨env₄, envs₄, rfl, h₄⟩ := after_step h₃ hend (by simp) fun _ => rfl
  obtain ⟨env₅, envs₅, rfl, h₅⟩ := after_step h₄ hend (by simp) fun _ => stepDisk_rename rfl
  obtain ⟨rfl, rfl, rfl⟩ := eq_of_returned h₅ rfl
  cases hend
  exact ⟨rfl, env₅, rfl, rfl⟩

/-- A call that reads on, with what is left of its stream. -/
lemma stepDisk_read {chunks : List Bytes} {env : DiskEnv} (hpc : c.pc = .read) (hcancelled : c.cancelled = false)
    (hended : c.ended = true → chunks = []) (hincoming : c.incoming = chunks.map fun b => ⟨path, b⟩) :
    c.stepDisk cfg id env sh = some (sh, match chunks with
      | [] => { c with ended := true, pc := .close }
      | b :: rest => { c with msg := ⟨path, b⟩, incoming := rest.map fun b => ⟨path, b⟩, pc := .append }) := by
  simp only [WriteCall.stepDisk, WriteCall.step, hpc, WriteCall.nextMsg]
  cases chunks with
  | nil => simp [hincoming]
  | cons b rest =>
    have hopen : c.ended = false := by
      by_contra hne
      cases hended (by simpa using hne)
    simp [hcancelled, hincoming, hopen]

lemma stepDisk_append {env : DiskEnv} {i : ℕ} (hpc : c.pc = .append) (hfile : c.file = some i) :
    c.stepDisk cfg id env sh = some (if Chunks.fits env.room c.msg.b
      then ({ sh with fs := sh.fs.append i c.msg.b env.now }, { c with pc := .read })
      else ({ sh with fs := sh.fs.append i (c.msg.b.take (env.room.getD 0)) env.now },
        { c with file := none, pc := .read })) := by
  simp only [WriteCall.stepDisk, WriteCall.step, hpc, hfile]
  split_ifs <;> rfl

lemma stepDisk_broken {env : DiskEnv} (hpc : c.pc = .append) (hfile : c.file = none) :
    c.stepDisk cfg id env sh = some (sh, { c with pc := .read }) := by
  simp only [WriteCall.stepDisk, WriteCall.step, hpc, hfile]

/-- Once the stream is broken the rest of the messages is thrown away. -/
lemma renames_of_broken {chunks : List Bytes} (h : steps (WriteCall.nextDisk cfg id) envs (sh, c) = some (sh', c'))
    (hend : c'.pc = .returned status) (hpc : c.pc = .read) (hfile : c.file = none) (hcancelled : c.cancelled = false)
    (hended : c.ended = true → chunks = []) (hname : c.msg.filepath = path)
    (hincoming : c.incoming = chunks.map fun b => ⟨path, b⟩) : Renames cfg path envs sh.fs sh'.fs status := by
  induction chunks generalizing c envs with
  | nil =>
    obtain ⟨env₁, envs₁, rfl, h₁⟩ := after_step h hend (by simp [hpc]) fun _ => stepDisk_read hpc hcancelled hended hincoming
    have hrest := renames_of_close h₁ hend rfl hcancelled
    exact (hname ▸ hrest).cons
  | cons b chunks ih =>
    obtain ⟨env₁, envs₁, rfl, h₁⟩ := after_step h hend (by simp [hpc]) fun _ => stepDisk_read hpc hcancelled hended hincoming
    obtain ⟨env₂, envs₂, rfl, h₂⟩ := after_step h₁ hend nofun fun _ => stepDisk_broken rfl hfile
    have hopen : c.ended = true → chunks = [] := fun he => absurd (hended he) (by simp)
    exact (ih h₂ rfl hfile hcancelled hopen rfl rfl).cons.cons

/-- The loop stores the messages as far as there is room. -/
lemma renames_of_append {i : ℕ} {chunks : List Bytes} (h : steps (WriteCall.nextDisk cfg id) envs (sh, c) = some (sh', c'))
    (hend : c'.pc = .returned status) (hpc : c.pc = .append) (hfile : c.file = some i) (hcancelled : c.cancelled = false)
    (hended : c.ended = true → chunks = []) (hname : c.msg.filepath = path)
    (hincoming : c.incoming = chunks.map fun b => ⟨path, b⟩) :
    ∃ fs, Grown i (Chunks.stored (fun k => (envs[2 * k]?).bind DiskEnv.room) (c.msg.b :: chunks)) sh.fs fs ∧
      Renames cfg path envs fs sh'.fs status := by
  induction chunks generalizing c sh envs with
  | nil =>
    obtain ⟨env₁, envs₁, rfl, h₁⟩ := after_step h hend (by simp [hpc]) fun _ => stepDisk_append hpc hfile
    rw [Chunks.stored]
    simp only [Nat.mul_zero, List.getElem?_cons_zero, Option.bind_some]
    split_ifs at h₁ ⊢ with hfits
    · obtain ⟨env₂, envs₂, rfl, h₂⟩ := after_step h₁ hend (by simp) fun _ => stepDisk_read rfl hcancelled hended hincoming
      have hrest := renames_of_close h₂ hend rfl hcancelled
      refine ⟨_, ?_, (hname ▸ hrest).cons.cons⟩
      rw [Chunks.stored, List.append_nil]
      exact grown_append ..
    · exact ⟨_, grown_append .., (renames_of_broken h₁ hend rfl rfl hcancelled hended hname hincoming).cons⟩
  | cons b chunks ih =>
    obtain ⟨env₁, envs₁, rfl, h₁⟩ := after_step h hend (by simp [hpc]) fun _ => stepDisk_append hpc hfile
    rw [Chunks.stored]
    simp only [Nat.mul_zero, List.getElem?_cons_zero, Option.bind_some]
    split_ifs at h₁ ⊢ with hfits
    · obtain ⟨env₂, envs₂, rfl, h₂⟩ := after_step h₁ hend (by simp) fun _ => stepDisk_read rfl hcancelled hended hincoming
      have hopen : c.ended = true → chunks = [] := fun he => absurd (hended he) (by simp)
      obtain ⟨fs, hgrown, hrest⟩ := ih h₂ rfl hfile hcancelled hopen rfl rfl
      refine ⟨fs, ?_, hrest.cons.cons⟩
      have hrooms : (fun k => ((env₁ :: env₂ :: envs₂)[2 * (k + 1)]?).bind DiskEnv.room) =
          fun k => (envs₂[2 * k]?).bind DiskEnv.room := by
        funext k
        rw [show 2 * (k + 1) = 2 * k + 1 + 1 from rfl, List.getElem?_cons_succ, List.getElem?_cons_succ]
      rw [hrooms]
      exact (grown_append ..).trans hgrown
    · exact ⟨_, grown_append .., (renames_of_broken h₁ hend rfl rfl hcancelled hended hname hincoming).cons⟩

/-- A call that returns got the mutex. -/
lemma free_of_lock (h : steps (WriteCall.nextDisk cfg id) envs (sh, c) = some (sh', c'))
    (hend : c'.pc = .returned status) (hpc : c.pc = .lock) : sh.lock = none := by
  by_contra hlocked
  cases envs with
  | nil =>
    cases h
    rw [hpc] at hend
    cases hend
  | cons env rest =>
    obtain ⟨x, hstep, -⟩ := Option.bind_eq_some_iff.mp h
    simp [WriteCall.nextDisk, WriteCall.stepDisk, WriteCall.step, hpc, hlocked] at hstep

/-- From the lock on: the temporary file does not open, or it receives the chunks and is renamed. -/
lemma write_of_lock {chunks : List Bytes} (h : steps (WriteCall.nextDisk cfg id) envs (sh, c) = some (sh', c'))
    (hend : c'.pc = .returned status) (hpc : c.pc = .lock) (hcancelled : c.cancelled = false)
    (hfilepath : c.filepath = getServerFilepath cfg path true) (hended : c.ended = true → chunks = [])
    (hname : c.msg.filepath = path) (hincoming : c.incoming = chunks.map fun b => ⟨path, b⟩) :
    ∃ env, envs[1]? = some env ∧
      ((∃ e, env.syscall (sh.fs.openTrunc (getServerFilepath cfg path true) env.now) = .error e) ∧ status = .NOT_FOUND ∧
          sh'.fs = sh.fs ∨
        ∃ i fs fs', env.syscall (sh.fs.openTrunc (getServerFilepath cfg path true) env.now) = .ok (i, fs) ∧
          Grown i (Chunks.stored (fun k => (envs[2 + 2 * k]?).bind DiskEnv.room) (c.msg.b :: chunks)) fs fs' ∧
            Renames cfg path envs fs' sh'.fs status) := by
  have hlock := free_of_lock h hend hpc
  have hstep (env : DiskEnv) : c.stepDisk cfg id env sh = some ({ sh with lock := some id }, { c with pc := .openTemp }) := by
    simp only [WriteCall.stepDisk, WriteCall.step, hpc, hlock, if_true]
  obtain ⟨env₁, envs₁, rfl, h₁⟩ := after_step h hend (by simp [hpc]) hstep
  have hrooms (env₂ : DiskEnv) (envs₂ : List DiskEnv) :
      (fun k => ((env₁ :: env₂ :: envs₂)[2 + 2 * k]?).bind DiskEnv.room) = fun k => (envs₂[2 * k]?).bind DiskEnv.room := by
    funext k
    rw [show 2 + 2 * k = 2 * k + 1 + 1 by omega, List.getElem?_cons_succ, List.getElem?_cons_succ]
  cases envs₁ with
  | nil =>
    cases h₁
    cases hend
  | cons env₂ envs₂ =>
    obtain ⟨⟨sh₂, c₂⟩, hopen, h₂⟩ := Option.bind_eq_some_iff.mp h₁
    simp only [WriteCall.nextDisk, WriteCall.stepDisk, WriteCall.step, hfilepath] at hopen
    refine ⟨env₂, rfl, ?_⟩
    cases hresult : env₂.syscall (sh.fs.openTrunc (getServerFilepath cfg path true) env₂.now) with
    | error e =>
      rw [hresult] at hopen
      cases hopen
      obtain ⟨rfl, rfl, rfl⟩ := eq_of_returned h₂ rfl
      cases hend
      exact .inl ⟨⟨e, rfl⟩, rfl, rfl⟩
    | ok x =>
      obtain ⟨i, fs⟩ := x
      rw [hresult] at hopen
      cases hopen
      obtain ⟨fs', hgrown, hrest⟩ := renames_of_append h₂ hend rfl rfl hcancelled hended hname hincoming
      rw [hrooms]
      exact .inr ⟨i, fs, fs', rfl, hgrown, hrest.cons.cons⟩

/-- A whole call. -/
lemma write_cases {chunks : List Bytes}
    (h : steps (WriteCall.nextDisk cfg id) envs (sh, .start (chunks.map fun b => ⟨path, b⟩)) = some (sh', c'))
    (hend : c'.pc = .returned status) : ∃ env, envs[2]? = some env ∧
      ((∃ e, env.syscall (sh.fs.openTrunc (getServerFilepath cfg (filed path chunks) true) env.now) = .error e) ∧
          status = .NOT_FOUND ∧ sh'.fs = sh.fs ∨
        ∃ i fs fs', env.syscall (sh.fs.openTrunc (getServerFilepath cfg (filed path chunks) true) env.now) = .ok (i, fs) ∧
          Grown i (Chunks.stored (rooms envs) chunks) fs fs' ∧ Renames cfg (filed path chunks) envs fs' sh'.fs status) := by
  have hrooms (env₁ : DiskEnv) (envs₁ : List DiskEnv) :
      rooms (env₁ :: envs₁) = fun k => (envs₁[2 + 2 * k]?).bind DiskEnv.room := by
    funext k
    rw [rooms, show 3 + 2 * k = 2 + 2 * k + 1 by omega, List.getElem?_cons_succ]
  obtain ⟨env₁, envs₁, rfl, h₁⟩ := after_step h hend (by rintro _ ⟨⟩) fun _ => rfl
  rw [hrooms]
  cases chunks with
  | nil =>
    obtain ⟨env, henv, hcases⟩ :=
      @write_of_lock cfg [] id envs₁ sh sh' _ c' status [] h₁ hend rfl rfl rfl (fun _ => rfl) rfl rfl
    refine ⟨env, henv, hcases.imp_right ?_⟩
    rintro ⟨i, fs, fs', hopen, hgrown, hrest⟩
    refine ⟨i, fs, fs', hopen, ?_, hrest.cons⟩
    have hnothing : Chunks.stored (fun k => (envs₁[2 + 2 * k]?).bind DiskEnv.room) [([] : Bytes)] = [] := by
      simp [Chunks.stored]
    rw [Chunks.stored, ← hnothing]
    exact hgrown
  | cons b chunks =>
    obtain ⟨env, henv, hcases⟩ :=
      @write_of_lock cfg path id envs₁ sh sh' _ c' status chunks h₁ hend rfl rfl rfl (by rintro ⟨⟩) rfl rfl
    refine ⟨env, henv, hcases.imp_right ?_⟩
    rintro ⟨i, fs, fs', hopen, hgrown, hrest⟩
    exact ⟨i, fs, fs', hopen, hgrown, hrest.cons⟩

end Steps

/-! ### What becomes of the published file -/

section Leaves

variable {cfg} {path : Bytes} {id : ℕ} {envs : List DiskEnv} {fs fs' : InodeFS} {chunks : List Bytes}

lemma held_congr (hdirs : InodeFS.SameDirs fs fs')
    (hentry : ∀ b, fs.resolve (getServerFilepath cfg path false) = .ok (.entry b) → fs'.entries.lookup b = fs.entries.lookup b ∧
      ∀ j, fs.entries.lookup b = some (.file j) → (fs'.file j).content = (fs.file j).content) :
    held cfg path fs' = held cfg path fs := by
  unfold held InodeFS.node
  cases hresolve : fs.resolve (getServerFilepath cfg path false) with
  | error e =>
    cases hresolve' : fs'.resolve (getServerFilepath cfg path false) with
    | error e' => rfl
    | ok l =>
      rw [hdirs.symm.resolve hresolve'] at hresolve
      cases hresolve
  | ok l =>
    rw [hdirs.resolve hresolve]
    cases l with
    | self d => rfl
    | entry b =>
      obtain ⟨hlookup, hcontent⟩ := hentry b hresolve
      simp only [Except.bind]
      rw [hlookup]
      cases hb : fs.entries.lookup b with
      | none => rfl
      | some n =>
        cases n with
        | dir d => rfl
        | file j => exact congrArg some (hcontent j hb)

lemma held_of_node {i : ℕ} (h : fs.node (getServerFilepath cfg path false) = .ok (.file i)) :
    held cfg path fs = some (fs.file i).content := by
  unfold held
  rw [h]

/-- The temporary file is not the published one. -/
lemma held_openTrunc {i : ℕ} {temp now : Bytes} (hopen : fs.openTrunc temp now = .ok (i, fs'))
    (hapart : ∀ l, fs.resolve temp = .ok l → fs.resolve (getServerFilepath cfg path false) ≠ .ok l) :
    held cfg path fs' = held cfg path fs := by
  refine held_congr (InodeFS.sameDirs_openTrunc hopen) fun b hb => ?_
  obtain ⟨a, ha, hcase⟩ := InodeFS.openTrunc_eq_ok hopen
  have hne : b ≠ a := fun hba => hapart _ ha (hba ▸ hb)
  obtain ⟨hai, rfl⟩ | ⟨hnone, rfl, rfl⟩ := hcase
  · refine ⟨rfl, fun j hj => ?_⟩
    have hji : j ≠ i := fun hji => hne (fs.linked_once b a _ hj (hji ▸ hai))
    rw [InodeFS.write_file_ne fs hji]
  · refine ⟨?_, fun j hj => ?_⟩
    · rw [InodeFS.write_entries, InodeFS.lookup_create, if_neg hne]
    · have hlt : j < fs.next := fs.allocated b _ hj
      rw [InodeFS.write_file_ne _ (by omega)]
      rfl

lemma Grown.sameDirs {i : ℕ} {data : Bytes} (h : Grown i data fs fs') : InodeFS.SameDirs fs fs' :=
  ⟨h.parent, fun a d => by rw [h.entries]⟩

lemma Grown.held {i : ℕ} {data : Bytes} {a : Slot} (h : Grown i data fs fs') (hai : fs.entries.lookup a = some (.file i))
    (hapart : fs.resolve (getServerFilepath cfg path false) ≠ .ok (.entry a)) :
    Server.held cfg path fs' = Server.held cfg path fs := by
  refine held_congr h.sameDirs fun b hb => ⟨by rw [h.entries], fun j hj => ?_⟩
  have hji : j ≠ i := fun hji => hapart (fs.linked_once b a _ hj (hji ▸ hai) ▸ hb)
  rw [h.others j hji]

/-- The rename publishes the temporary file, or changes nothing. -/
lemma held_renamed {i : ℕ} {a : Slot} {env : DiskEnv} (hroot : (0 : UInt8) ∉ cfg.AFS_ROOT_DIR)
    (ha : fs.resolve (getServerFilepath cfg (filed path chunks) true) = .ok (.entry a))
    (hai : fs.entries.lookup a = some (.file i)) :
    (chunks ≠ [] ∧ env.fault = none ∧ fs.Creatable (getServerFilepath cfg path false) →
        held cfg path (renamed cfg env (filed path chunks) fs) = some (fs.file i).content) ∧
      (¬ (chunks ≠ [] ∧ env.fault = none ∧ fs.Creatable (getServerFilepath cfg path false)) →
        renamed cfg env (filed path chunks) fs = fs) := by
  constructor
  · rintro ⟨hne, hfault, b, hb, hdir⟩
    rw [filed, if_neg hne] at ha ⊢
    have hrename := (InodeFS.rename_file_eq_ok ha hai).mpr ⟨b, hb, hdir, rfl⟩
    obtain ⟨hnode, hfile⟩ := InodeFS.node_rename (InodeFS.node_of_resolve ha hai) hrename
    rw [renamed, StepEnv.syscall_eq_ok.mpr ⟨hfault, hrename⟩]
    simp only
    rw [held_of_node hnode, hfile]
  · intro hfail
    rw [renamed]
    cases hresult : env.syscall (fs.rename (getServerFilepath cfg (filed path chunks) true)
      (getServerFilepath cfg (filed path chunks) false)) with
    | error e => rfl
    | ok fs' =>
      obtain ⟨hfault, hrename⟩ := StepEnv.syscall_eq_ok.mp hresult
      obtain ⟨b, hb, hdir, -⟩ := (InodeFS.rename_file_eq_ok ha hai).mp hrename
      have hne : chunks ≠ [] := by
        rintro rfl
        exact resolve_target_nil cfg hroot b hb
      rw [filed, if_neg hne] at hb
      exact absurd ⟨hne, hfault, b, hb, hdir⟩ hfail

variable (cfg) in
/-- What a `Write` call makes of the published file. -/
structure Leaves (path : Bytes) (chunks : List Bytes) (envs : List DiskEnv) (fs fs' : InodeFS) (status : Status) : Prop where
  opened : TempOpens cfg path chunks envs fs → status = .OK
  refused : ¬ TempOpens cfg path chunks envs fs → status = .NOT_FOUND
  replaced : Replaces cfg path chunks envs fs → held cfg path fs' = some (Chunks.stored (rooms envs) chunks)
  kept : ¬ Replaces cfg path chunks envs fs → held cfg path fs' = held cfg path fs

/-- A call stores what there was room for, under the path, if it can open and rename its temporary file. -/
theorem leaves_of_steps {sh sh' : Shared} {c' : WriteCall} {status : Status} (hroot : (0 : UInt8) ∉ cfg.AFS_ROOT_DIR)
    (h : steps (WriteCall.nextDisk cfg id) envs (sh, .start (chunks.map fun b => ⟨path, b⟩)) = some (sh', c'))
    (hend : c'.pc = .returned status) : Leaves cfg path chunks envs sh.fs sh'.fs status := by
  obtain ⟨env, henv, ⟨⟨e, he⟩, rfl, hfs⟩ | ⟨i, fs, fs', hopen, hgrown, hstatus, last, hlast, hrenamed⟩⟩ := write_cases h hend
  · have hfail : ¬ TempOpens cfg path chunks envs sh.fs := by
      rintro ⟨env', henv', hok⟩
      obtain rfl : env = env' := Option.some.inj (henv.symm.trans henv')
      rw [he] at hok
      cases hok
    exact ⟨fun h => absurd h hfail, fun _ => rfl, fun h => absurd h.1 hfail, fun _ => by rw [hfs]⟩
  · have hok : TempOpens cfg path chunks envs sh.fs := ⟨env, henv, by rw [hopen]; rfl⟩
    have hopen := (StepEnv.syscall_eq_ok.mp hopen).2
    obtain ⟨a, ha, ha', hai, hempty⟩ := InodeFS.openTrunc_slot hopen
    have hai' : fs'.entries.lookup a = some (.file i) := hgrown.entries ▸ hai
    have hdirs : InodeFS.SameDirs sh.fs fs' := (InodeFS.sameDirs_openTrunc hopen).trans hgrown.sameDirs
    have hcontent : (fs'.file i).content = Chunks.stored (rooms envs) chunks := by rw [hgrown.content, hempty, List.nil_append]
    have hplaced : chunks ≠ [] ∧ last.fault = none ∧ fs'.Creatable (getServerFilepath cfg path false) ↔
        Placed cfg path chunks envs sh.fs := by
      refine and_congr Iff.rfl (and_congr ⟨fun hfault => ⟨last, hlast, hfault⟩, ?_⟩
        ⟨hdirs.symm.creatable, hdirs.creatable⟩)
      rintro ⟨last', hlast', hfault⟩
      rwa [Option.some.inj (hlast.symm.trans hlast')]
    obtain ⟨hpublish, hsame⟩ := @held_renamed cfg path fs' chunks i a last hroot (hgrown.sameDirs.resolve ha') hai'
    rw [← hrenamed, hplaced] at hpublish hsame
    refine ⟨fun _ => hstatus, fun h => absurd hok h, fun hreplaces => ?_, fun hkept => ?_⟩
    · by_cases hrename : Placed cfg path chunks envs sh.fs
      · rw [hpublish hrename, hcontent]
      · -- the published file was emptied and filled in its place
        obtain ⟨l, hl, htarget⟩ := hreplaces.2.resolve_left hrename
        rw [ha] at hl
        cases hl
        rw [hsame hrename, held_of_node (InodeFS.node_of_resolve (hdirs.resolve htarget) hai'), hcontent]
    · have hapart (l : Loc) (hl : sh.fs.resolve (getServerFilepath cfg (filed path chunks) true) = .ok l) :
          sh.fs.resolve (getServerFilepath cfg path false) ≠ .ok l := fun htarget => hkept ⟨hok, .inr ⟨l, hl, htarget⟩⟩
      have htarget : fs.resolve (getServerFilepath cfg path false) ≠ .ok (.entry a) := fun hb =>
        hapart _ ha ((InodeFS.sameDirs_openTrunc hopen).symm.resolve hb)
      rw [hsame fun hrename => hkept ⟨hok, .inl hrename⟩, hgrown.held hai htarget, held_openTrunc hopen hapart]

theorem leaves_of_callWriteDisk {sh sh' : Shared} {r : Status × Meta} (hroot : (0 : UInt8) ∉ cfg.AFS_ROOT_DIR)
    (h : callWriteDisk cfg id (chunks.map fun b => ⟨path, b⟩) envs sh = some (r, sh')) :
    Leaves cfg path chunks envs sh.fs sh'.fs r.1 := by
  obtain ⟨⟨sh₁, c⟩, hsteps, hend⟩ := Option.bind_eq_some_iff.mp h
  split at hend
  · rename_i hpc
    cases hend
    exact leaves_of_steps hroot hsteps hpc
  · rename_i status _ hpc
    cases hend
    exact leaves_of_steps hroot hsteps hpc
  · cases hend

end Leaves

/-! ### What a `GetContent` call sends -/

/-- A whole `GetContent` call. -/
def callGetContentDisk (filepath : Bytes) (envs : List StepEnv) (sh : Shared) : Option (List MetaContent) :=
  (steps (GetContentCall.next cfg sh.fs) envs { filepath }).bind fun c =>
    match c.pc with
    | .returned _ => some c.sent
    | _ => none

/-- The reads of the file at the server. -/
def reads (envs : List StepEnv) (k : ℕ) : Bool := (envs[2 + k]?).any fun env => env.fault.isNone

/-- The file can be opened at the server. -/
def Serves (path : Bytes) (envs : List StepEnv) (fs : InodeFS) : Prop :=
  ∃ env, envs[0]? = some env ∧ (env.syscall (fs.node (getServerFilepath cfg path false))).isOk

/-- The time that goes with the blocks. -/
def sentTime (path : Bytes) (envs : List StepEnv) (fs : InodeFS) : Bytes :=
  (envs[1]?).elim [] (statMtim fs (getServerFilepath cfg path false))

section GetContent

variable {cfg} {path : Bytes} {fs : InodeFS} {envs : List StepEnv} {c c' : GetContentCall} {status : Status}

/-- Nothing follows the return. -/
lemma GetContentCall.eq_of_returned (h : steps (GetContentCall.next cfg fs) envs c = some c') (hpc : c.pc = .returned status) :
    c' = c := by
  cases envs with
  | nil =>
    cases h
    rfl
  | cons env rest =>
    obtain ⟨c₁, hstep, -⟩ := Option.bind_eq_some_iff.mp h
    rw [GetContentCall.next_returned hpc] at hstep
    cases hstep

/-- A round of the loop that finds a block. -/
lemma GetContentCall.step_read {i : ℕ} {env : StepEnv} (hpc : c.pc = .read) (hfile : c.file = some (.file i))
    (hfault : env.fault = none) (hkept : env.dropped = false) {buf : Bytes}
    (hbuf : ((fs.file i).content.drop c.pos).take BUFSIZE = buf) : c.step cfg env fs =
      some { c with pos := c.pos + buf.length, eof := buf.length < BUFSIZE, msg := { c.msg with b := buf },
                    sent := c.sent ++ [{ c.msg with b := buf }],
                    pc := if buf.length < BUFSIZE then .returned .OK else .read } := by
  simp [step, hpc, hfile, hfault, hkept, hbuf, write]

/-- The blocks before the first read that fails. -/
lemma sent_of_read {i : ℕ} {timestamp data : Bytes} (h : steps (GetContentCall.next cfg fs) envs c = some c')
    (hend : c'.pc = .returned status) (hpc : c.pc = .read) (hfile : c.file = some (.file i))
    (hexists : c.msg.file_exists = true) (htime : c.msg.timestamp = timestamp) (hlost : ∀ env ∈ envs, env.dropped = false)
    (hdata : (fs.file i).content.drop c.pos = data) :
    c'.sent = c.sent ++ (Chunks.readWhile (fun k => (envs[k]?).any fun env => env.fault.isNone)
      (Bytes.blocks BUFSIZE data)).map fun b => ⟨true, timestamp, b⟩ := by
  induction envs generalizing c data with
  | nil =>
    cases h
    rw [hpc] at hend
    cases hend
  | cons env envs ih =>
    obtain ⟨c₁, hstep, hrest⟩ := Option.bind_eq_some_iff.mp h
    rw [Chunks.readWhile_blocks (by decide)]
    simp only [List.getElem?_cons_zero, Option.any_some, List.getElem?_cons_succ]
    cases hfault : env.fault with
    | some e =>
      simp only [GetContentCall.next, GetContentCall.step, hpc, hfile, hfault, Option.some.injEq] at hstep
      subst hstep
      rw [GetContentCall.eq_of_returned hrest rfl]
      simp
    | none =>
      rw [GetContentCall.next, GetContentCall.step_read hpc hfile hfault (hlost env (by simp)) (congrArg _ hdata)] at hstep
      cases hstep
      have hlength : (data.take BUFSIZE).length < BUFSIZE ↔ data.length < BUFSIZE := by
        rw [List.length_take]
        omega
      simp only [hlength] at hrest
      simp only [Option.isNone_none, if_true]
      by_cases hshort : data.length < BUFSIZE
      · rw [if_pos hshort] at hrest ⊢
        rw [GetContentCall.eq_of_returned hrest rfl, List.take_of_length_le hshort.le]
        simp [hexists, htime]
      · rw [if_neg hshort] at hrest ⊢
        have hfull : (data.take BUFSIZE).length = BUFSIZE := by
          rw [List.length_take]
          omega
        have hdrop : (fs.file i).content.drop (c.pos + (data.take BUFSIZE).length) = data.drop BUFSIZE := by
          rw [hfull, ← List.drop_drop, hdata]
        rw [ih hrest rfl hfile hexists htime (fun env henv => hlost env (by simp [henv])) hdrop]
        simp [hexists, htime]

/-- A call on a directory sends nothing. -/
lemma sent_of_readDir {d : ℕ} (h : steps (GetContentCall.next cfg fs) envs c = some c') (hend : c'.pc = .returned status)
    (hpc : c.pc = .read) (hfile : c.file = some (.dir d)) : c'.sent = c.sent := by
  cases envs with
  | nil =>
    cases h
    rfl
  | cons env envs =>
    obtain ⟨c₁, hstep, hrest⟩ := Option.bind_eq_some_iff.mp h
    simp only [GetContentCall.next, GetContentCall.step, hpc, hfile, Option.some.injEq] at hstep
    subst hstep
    rw [GetContentCall.eq_of_returned hrest rfl]

/-- What a call sends: that there is no file, or the file up to the first read that fails. -/
theorem sent_of_callGetContentDisk {sh : Shared} {msgs : List MetaContent} (hlost : ∀ env ∈ envs, env.dropped = false)
    (h : callGetContentDisk cfg path envs sh = some msgs) :
    (¬ Serves cfg path envs sh.fs → msgs = [{ file_exists := false }]) ∧
      (Serves cfg path envs sh.fs → msgs = ((held cfg path sh.fs).elim [] fun data =>
        Chunks.readWhile (reads envs) (Bytes.blocks BUFSIZE data)).map fun b => ⟨true, sentTime cfg path envs sh.fs, b⟩) := by
  obtain ⟨c', hsteps, hend⟩ := Option.bind_eq_some_iff.mp h
  split at hend
  case h_2 => cases hend
  rename_i status hpc
  cases hend
  cases envs with
  | nil =>
    cases hsteps
    cases hpc
  | cons env₀ envs =>
    obtain ⟨c₁, hopen, hsteps₁⟩ := Option.bind_eq_some_iff.mp hsteps
    have hserves : Serves cfg path (env₀ :: envs) sh.fs ↔
        (env₀.syscall (sh.fs.node (getServerFilepath cfg path false))).isOk := by simp [Serves]
    rw [hserves]
    simp only [GetContentCall.next, GetContentCall.step] at hopen
    cases hnode : env₀.syscall (sh.fs.node (getServerFilepath cfg path false)) with
    | error e =>
      rw [hnode] at hopen
      simp only [GetContentCall.write, hlost env₀ (by simp), Option.some.injEq] at hopen
      subst hopen
      rw [GetContentCall.eq_of_returned hsteps₁ rfl]
      simp [Except.isOk, Except.toBool]
    | ok n =>
      rw [hnode] at hopen
      cases hopen
      refine ⟨fun hfail => absurd rfl hfail, fun _ => ?_⟩
      have hn := (StepEnv.syscall_eq_ok.mp hnode).2
      cases envs with
      | nil =>
        cases hsteps₁
        cases hpc
      | cons env₁ envs =>
        obtain ⟨c₂, hstat, hsteps₂⟩ := Option.bind_eq_some_iff.mp hsteps₁
        cases hstat
        cases n with
        | dir d =>
          rw [sent_of_readDir hsteps₂ hpc rfl rfl, held, hn]
          rfl
        | file i =>
          have hsent := sent_of_read hsteps₂ hpc rfl rfl rfl rfl (fun env henv => hlost env (by simp [henv])) rfl
          have hreads : reads (env₀ :: env₁ :: envs) = fun k => (envs[k]?).any fun env => env.fault.isNone := by
            funext k
            rw [reads, show 2 + k = k + 1 + 1 by omega, List.getElem?_cons_succ, List.getElem?_cons_succ]
          rw [hsent, held, hn, hreads]
          rfl

end GetContent
end AFSv1.Server
