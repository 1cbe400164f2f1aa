import AFSv1.Client.Transfer
import AFSv1.Client.OpenHandles

/-! A diary of one path beside each client's state: what its file should hold after the download or creation of the
cache file and the writes since then, and how far the client is on its way back from a crash. -/
namespace AFSv1.Client
open Foundations Tables

variable {A Path : Type} [DecidableEq A] [DecidableEq Path]

namespace Operation

/-- The path that an operation works on. -/
def path : Operation Path → Path
  | .open path | .release _ path _ | .read path _ _ _ | .write path _ _ _ | .fsync path _ | .mknod path | .unlink path
  | .ftruncate path _ _ | .truncate path _ => path

/-- The offset and the data that an operation writes to the path. -/
def writes (path : Path) : Operation Path → Option (ℕ × Bytes)
  | .write q buf offset _ => if q = path then some (offset, buf) else none
  | _ => none

lemma writes_eq_some {path : Path} {op : Operation Path} {w : ℕ × Bytes} (h : op.writes path = some w) :
    ∃ fh, op = .write path w.2 w.1 fh := by
  cases op with
  | write q buf offset fh =>
    simp only [writes, Option.ite_none_right_eq_some, Option.some.injEq] at h
    obtain ⟨rfl, rfl⟩ := h
    exact ⟨fh, rfl⟩
  | _ => cases h

end Operation

/-- After a crash the path is opened and released again. -/
inductive Stage where
  | working | crashed | reopened | recovered
  deriving DecidableEq

namespace Stage

/-- Any other operation on the path is ordinary work. -/
def begin (path : Path) (op : Operation Path) : Stage → Stage
  | .crashed => match op with
    | .open _ => .crashed
    | op => if op.path = path then .working else .crashed
  | .reopened => match op with
    | .release _ _ _ => .reopened
    | op => if op.path = path then .working else .reopened
  | stage => if op.path = path then .working else stage

def finish (path : Path) (op : Operation Path) (out : Outcome) : Stage → Stage
  | .crashed => match op with
    | .open q => if q = path ∧ out.rc = 0 then .reopened else .crashed
    | _ => .crashed
  | .reopened => match op with
    | .release _ q _ => if q = path then .recovered else .reopened
    | _ => .reopened
  | stage => stage

variable {path : Path}

lemma begin_cases (path : Path) (op : Operation Path) (stage : Stage) :
    stage.begin path op = .working ∨ stage.begin path op = stage := by
  cases stage with
  | crashed => cases op <;> simp only [begin] <;> (try split_ifs) <;> simp
  | reopened => cases op <;> simp only [begin] <;> (try split_ifs) <;> simp
  | working | recovered => simp only [begin]; split_ifs <;> simp

lemma begin_write (stage : Stage) (buf : Bytes) (offset fh : ℕ) :
    stage.begin path (.write path buf offset fh) = .working := by
  cases stage <;> exact if_pos rfl

lemma begin_mknod (stage : Stage) : stage.begin path (.mknod path) = .working := by cases stage <;> exact if_pos rfl

lemma finish_recovered {op : Operation Path} {out : Outcome} {stage : Stage} (h : stage.finish path op out = .recovered) :
    stage = .recovered ∨ ∃ fuel fh, op = .release fuel path fh := by
  cases stage with
  | crashed => cases op <;> simp only [finish] at h <;> first | cases h | (split_ifs at h)
  | reopened =>
    cases op with
    | release fuel q fh =>
      simp only [finish] at h
      split_ifs at h with hq
      exact .inr ⟨fuel, fh, hq ▸ rfl⟩
    | _ => cases h
  | working => cases h
  | recovered => exact .inl rfl

lemma finish_crashed {op : Operation Path} {out : Outcome} {stage : Stage} (h : stage.finish path op out = .crashed) :
    stage = .crashed ∧ ¬ (op = .open path ∧ out.rc = 0) := by
  cases stage with
  | crashed =>
    refine ⟨rfl, ?_⟩
    rintro ⟨rfl, hrc⟩
    simp [finish, hrc] at h
  | reopened =>
    cases op <;> simp only [finish] at h <;> first | cases h | (split_ifs at h)
  | working | recovered => cases h

end Stage

/-- `contents` are the contents that the returned writes allow, more than one after a crash inside a write; `atCrash`
are those allowed when the client crashed last. `wrote` says that a write has returned, or was under way in a crash that
left the file dirty. -/
structure Diary (Path : Type) where
  contents : List Bytes := []
  current : Option (Operation Path) := none
  wrote : Bool := false
  atCrash : List Bytes := []
  stage : Stage := .working

namespace Diary

/-- The write of the path in progress. -/
def pending (path : Path) (d : Diary Path) : Option (ℕ × Bytes) := d.current.bind (Operation.writes path)

/-- The contents without the write in progress, and with it. -/
def possible (path : Path) (d : Diary Path) : List Bytes :=
  match d.pending path with
  | some w => d.contents ++ d.contents.map fun b => b.overlay w.1 w.2
  | none => d.contents

def begin (path : Path) (op : Operation Path) (d : Diary Path) : Diary Path :=
  { d with current := some op, stage := d.stage.begin path op }

/-- A download gives the cache file the server's content, and a creation empties it. -/
def call (path : Path) : (c : Call Path) → c.Answer → Diary Path → Diary Path
  | .rpc (.GetContent q), (msgs, true), d =>
    if q = path then { d with contents := [((received msgs).map Prod.fst).getD []] } else d
  | .disk (.openExcl q), .ok _, d => if q = path then { d with contents := [[]] } else d
  | _, _, d => d

def finish (path : Path) (op : Operation Path) (out : Outcome) (d : Diary Path) : Diary Path :=
  let stage := d.stage.finish path op out
  match op.writes path with
  | some w =>
    if 0 ≤ out.rc then
      { d with contents := d.contents.map (fun b => b.overlay w.1 w.2), current := none, wrote := true, stage }
    else { d with current := none, stage }
  | none => { d with current := none, stage }

def crash (path : Path) (dirty : Bool) (d : Diary Path) : Diary Path :=
  { d with
    contents := d.possible path, current := none, wrote := d.wrote || dirty, atCrash := d.possible path, stage := .crashed }

variable {path : Path} {d : Diary Path}

lemma possible_of_none (h : d.pending path = none) : d.possible path = d.contents := by simp [possible, h]

lemma mem_possible {b : Bytes} (h : b ∈ d.contents) : b ∈ d.possible path := by
  unfold possible
  split
  · exact List.mem_append_left _ h
  · exact h

@[simp] lemma call_current (c : Call Path) (r : c.Answer) : (d.call path c r).current = d.current := by
  unfold call
  split <;> first | rfl | (split_ifs <;> rfl)

@[simp] lemma call_wrote (c : Call Path) (r : c.Answer) : (d.call path c r).wrote = d.wrote := by
  unfold call
  split <;> first | rfl | (split_ifs <;> rfl)

@[simp] lemma call_atCrash (c : Call Path) (r : c.Answer) : (d.call path c r).atCrash = d.atCrash := by
  unfold call
  split <;> first | rfl | (split_ifs <;> rfl)

@[simp] lemma call_stage (c : Call Path) (r : c.Answer) : (d.call path c r).stage = d.stage := by
  unfold call
  split <;> first | rfl | (split_ifs <;> rfl)

lemma finish_current (op : Operation Path) (out : Outcome) :
    (d.finish path op out).current = none ∧ (d.finish path op out).stage = d.stage.finish path op out := by
  unfold finish
  split
  · split_ifs <;> exact ⟨rfl, rfl⟩
  · exact ⟨rfl, rfl⟩

end Diary

def diaryBook (path : Path) : Bookkeeping (Operation Path) (Call Path) Call.Answer Outcome (Mount Path) (Diary Path) where
  begin op _ d := d.begin path op
  call c r _ d := d.call path c r
  finish op out _ d := d.finish path op out
  crash m d := d.crash path (m.entry path).dirty

/-- The clients, each with its diary of the path. -/
abbrev diaries (path : Path) := (machine Path).track (diaryBook path)

abbrev DiaryWorld (A Path : Type) :=
  System A (Operation Path) (Call Path) Call.Answer Outcome (Mount Path × Diary Path) (Remote Path)

def DiaryWorld.start (A : Type) (g : Remote Path) : DiaryWorld A Path := { shared := g, locals := fun _ => ({}, {}) }

variable {path : Path}

lemma diaries_exec {env : Env} {c : Call Path} {m : Mount Path} {d : Diary Path} {g g' : Remote Path} {r : c.Answer}
    {l' : Mount Path × Diary Path} (h : (diaries path).exec env c (m, d) g = some (r, l', g')) :
    (machine Path).exec env c m g = some (r, l'.1, g') ∧ l'.2 = d.call path c r := by
  obtain ⟨⟨r₁, m₁, g₁⟩, hexec, hx⟩ := Option.map_eq_some_iff.mp h
  cases hx
  exact ⟨hexec, rfl⟩

/-- The path is not open. -/
def Mount.NoHandle (path : Path) (m : Mount Path) : Prop := ∀ fh, (path, fh) ∉ m.handles

/-- A diary knows the running operation, and after a crash the path is not open. -/
structure Diary.Right (path : Path) (l : Mount Path × Diary Path) (running : Option (Operation Path × Program Path Outcome)) :
    Prop where
  current : l.2.current = running.map Prod.fst
  closed : l.2.stage = .crashed → l.1.NoHandle path

lemma Mount.begin_handles {m m' : Mount Path} {op : Operation Path} (h : Mount.begin op m = some m') {a : Path × ℕ}
    (ha : a ∈ m'.handles) : a ∈ m.handles := by
  by_cases hop : ∃ fuel q fh, op = .release fuel q fh
  · obtain ⟨fuel, q, fh, rfl⟩ := hop
    obtain ⟨-, rfl⟩ := Mount.begin_release h
    exact List.mem_of_mem_erase ha
  · rwa [(Mount.begin_other h fun fuel q fh heq => hop ⟨fuel, q, fh, heq⟩).1] at ha

lemma machine_handles {env : Env} {c : Call Path} {m m' : Mount Path} {g g' : Remote Path} {r : c.Answer}
    (h : (machine Path).exec env c m g = some (r, m', g')) : m'.handles = m.handles := by
  cases c with
  | disk c =>
    obtain ⟨l', -, rfl, -⟩ := machine_disk h
    rfl
  | rpc c => rw [(machine_rpc h).2]

omit [DecidableEq Path] in
/-- Only a finished open adds a handle. -/
lemma Mount.finish_handles {m : Mount Path} {op : Operation Path} {out : Outcome} {a : Path × ℕ}
    (ha : a ∈ (m.finish op out).handles) : a ∈ m.handles ∨ op = .open a.1 ∧ out.rc = 0 := by
  cases op with
  | «open» q =>
    by_cases hrc : out.rc = 0
    · have hhandles : (m.finish (.open q) out).handles = (q, out.fh) :: m.handles := by simp [Mount.finish, hrc]
      rw [hhandles] at ha
      rcases List.mem_cons.mp ha with rfl | hold
      · exact .inr ⟨rfl, hrc⟩
      · exact .inl hold
    · have hhandles : (m.finish (.open q) out).handles = m.handles := by simp [Mount.finish, hrc]
      exact .inl (hhandles ▸ ha)
  | _ => exact .inl ha

theorem diaryRight_of_run {g : Remote Path} {es : List (WorldEvent A Path)} {s : DiaryWorld A Path}
    (hrun : (DiaryWorld.start A g).run (diaries path) es = some s) (a : A) : Diary.Right path (s.locals a) (s.running a) := by
  refine System.run_own (P := Diary.Right path) (fun op l l' hl h => ?_) (fun env op c k l g r l' g' hl h => ?_)
    (fun op out l hl => ?_) (fun l running _ => ?_) (fun _ => ?_) hrun a
  · obtain ⟨m, hbegin, rfl⟩ := Option.map_eq_some_iff.mp h
    refine ⟨rfl, fun hstage fh hfh => hl.closed ?_ fh (Mount.begin_handles hbegin hfh)⟩
    rcases l.2.stage.begin_cases path op with heq | heq
    · cases heq.symm.trans hstage
    · exact heq.symm.trans hstage
  · obtain ⟨hcall, hd⟩ := diaries_exec h
    refine ⟨?_, fun hstage fh hfh => ?_⟩
    · rw [hd, Diary.call_current]
      exact hl.current
    · rw [hd, Diary.call_stage] at hstage
      rw [machine_handles hcall] at hfh
      exact hl.closed hstage fh hfh
  · obtain ⟨hcurrent, hfinish⟩ := @Diary.finish_current Path _ path l.2 op out
    refine ⟨hcurrent, fun hstage fh hfh => ?_⟩
    obtain ⟨hcrashed, hother⟩ := Stage.finish_crashed (hfinish.symm.trans hstage)
    rcases Mount.finish_handles hfh with hold | hopened
    · exact hl.closed hcrashed fh hold
    · exact hother hopened
  · exact ⟨rfl, fun _ _ hfh => by cases hfh⟩
  · exact ⟨rfl, fun hstage => by cases hstage⟩

end AFSv1.Client
