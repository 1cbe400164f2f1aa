import AFSv1.Foundations.TreePaths
import AFSv1.Server.Steps

/-! The files that a request names. Every path is put behind `fs_root`, but nothing looks at the `..` in it: a request
stays in the exported tree if reading its names one by one does not take back more than it has taken up. -/
namespace AFSv1.Server
open Foundations Tables

variable (cfg : Config)

/-- The requests that name a file or a directory. -/
inductive Request where
  | GetContent (filepath : Bytes)
  | Ls (filepath : Bytes)
  | Write (filepath : Bytes)
  | Stat (filepath : Bytes)
  | Unlink (filepath : Bytes)
  | Rmdir (filepath : Bytes)
  | Mkdir (filepath : Bytes)

def Request.filepath : Request → Bytes
  | .GetContent filepath | .Ls filepath | .Write filepath | .Stat filepath | .Unlink filepath | .Rmdir filepath
  | .Mkdir filepath => filepath

/-- Where the path of the request leads; slashes at its end do not matter to `rmdir` and `mkdir`. -/
def Request.place (fs : InodeFS) (req : Request) : Except Errno Loc :=
  match req with
  | .GetContent filepath | .Ls filepath | .Write filepath | .Stat filepath | .Unlink filepath =>
    fs.resolve (getServerFilepath cfg filepath false)
  | .Rmdir filepath | .Mkdir filepath => fs.resolve (InodeFS.stripSlashes (getServerFilepath cfg filepath false))

/-- `AFS_ROOT_DIR/fs_root` -/
def exportRoot : Bytes := cfg.AFS_ROOT_DIR ++ Bytes.ascii "fs_root"

/-- The names that lead to the exported tree. -/
def exportNames : List Bytes := InodeFS.walk [] (InodeFS.components (exportRoot cfg))

/-- From the exported tree on, the path takes back no name that leads to it, or puts it there again. -/
def StaysInside (filepath : Bytes) : Prop :=
  exportNames cfg <:+ InodeFS.walk (exportNames cfg) (InodeFS.components filepath)

instance (filepath : Bytes) : Decidable (StaysInside cfg filepath) := by unfold StaysInside; infer_instance

variable {cfg} {fs : InodeFS} {r : ℕ}

lemma walk_getServerFilepath (hzero : (0 : UInt8) ∉ cfg.AFS_ROOT_DIR) (filepath : Bytes) :
    InodeFS.walk [] (InodeFS.components (getServerFilepath cfg filepath false)) =
      InodeFS.walk (exportNames cfg) (InodeFS.components filepath) := by
  have hname : getServerFilepath cfg filepath false = exportRoot cfg ++ 47 :: filepath := by
    simp [getServerFilepath, exportRoot, Bytes.ascii]
  have hzero' : (0 : UInt8) ∉ exportRoot cfg := by
    rw [exportRoot, List.mem_append, not_or]
    exact ⟨hzero, by decide⟩
  rw [hname, InodeFS.components_append_slash hzero', InodeFS.walk_append, exportNames]

lemma Request.leadsTo (htree : fs.IsTree) (hzero : (0 : UInt8) ∉ cfg.AFS_ROOT_DIR) {req : Request} {l : Loc}
    (h : req.place cfg fs = .ok l) :
    fs.LeadsTo (InodeFS.walk (exportNames cfg) (InodeFS.components req.filepath)) l := by
  rw [← walk_getServerFilepath hzero]
  cases req with
  | Rmdir filepath | Mkdir filepath =>
    have hleads := InodeFS.leadsTo_of_resolve htree h
    rwa [InodeFS.walk_stripSlashes] at hleads
  | GetContent filepath | Ls filepath | Write filepath | Stat filepath | Unlink filepath =>
    exact InodeFS.leadsTo_of_resolve htree h

/-- A request stays in the exported tree exactly if its path does, read by its names, or leads nowhere. -/
theorem inside_iff_staysInside (req : Request) (htree : fs.IsTree) (hzero : (0 : UInt8) ∉ cfg.AFS_ROOT_DIR)
    (hroot : fs.node (exportRoot cfg) = .ok (.dir r)) :
    (∀ l, req.place cfg fs = .ok l → fs.Inside r l) ↔
      (∀ l, req.place cfg fs ≠ .ok l) ∨ StaysInside cfg req.filepath := by
  have hexport : fs.Leads (exportNames cfg) r := InodeFS.leads_of_node htree hroot
  cases hplace : req.place cfg fs with
  | error e => simp
  | ok l =>
    rw [StaysInside, ← (req.leadsTo htree hzero hplace).inside_iff htree hexport]
    simp

/-! ### The server keeps a tree -/

lemma isTree_mainMkdir {path : Bytes} {fs' : InodeFS} (h : mainMkdir path fs = some fs') (htree : fs.IsTree) : fs'.IsTree := by
  unfold mainMkdir at h
  split at h
  · rename_i fs₁ hmkdir
    cases h
    exact htree.mkdir hmkdir
  · split_ifs at h
    cases h
    exact htree

theorem isTree_boot {s : State} (h : boot cfg fs = some s) (htree : fs.IsTree) : s.fs.IsTree := by
  obtain ⟨fs₁, h₁, h⟩ := Option.bind_eq_some_iff.mp h
  obtain ⟨fs₂, h₂, rfl⟩ := Option.map_eq_some_iff.mp h
  exact isTree_mainMkdir h₂ (isTree_mainMkdir h₁ htree)

lemma WriteStep.isTree {id : ℕ} {env : StepEnv} {sh sh' : Shared} {c c' : WriteCall} (h : WriteStep cfg id env sh c sh' c')
    (htree : sh.fs.IsTree) : sh'.fs.IsTree := by
  cases h with
  | openTemp hpc i fs hopen =>
    have hopen := (StepEnv.syscall_eq_ok.mp hopen).2
    refine htree.sameDirs (InodeFS.sameDirs_openTrunc hopen) ?_
    obtain ⟨a, -, ⟨-, rfl⟩ | ⟨-, -, rfl⟩⟩ := InodeFS.openTrunc_eq_ok hopen
    · exact le_rfl
    · exact Nat.le_succ _
  | append hpc i hfile =>
    refine htree.sameDirs (InodeFS.sameDirs_append ..) ?_
    unfold InodeFS.append
    split_ifs <;> exact le_rfl
  | renamed hpc fs hok => exact htree.rename (StepEnv.syscall_eq_ok.mp hok).2
  | _ => exact htree

lemma isTree_respond {result : Except Errno InodeFS} (htree : fs.IsTree) (h : ∀ fs', result = .ok fs' → fs'.IsTree) :
    (respond fs result).1.IsTree := by
  cases result with
  | error e => exact htree
  | ok fs' => exact h fs' rfl

theorem isTree_step {s s' : State} {e : Event} (h : step cfg s e = some s') (htree : s.fs.IsTree) : s'.fs.IsTree := by
  cases e with
  | startWrite id stream =>
    simp only [step] at h
    split_ifs at h
    cases h
    exact htree
  | startGetContent id filepath =>
    simp only [step] at h
    split_ifs at h
    cases h
    exact htree
  | write id env =>
    obtain ⟨c, -, h⟩ := Option.bind_eq_some_iff.mp h
    obtain ⟨x, hx, rfl⟩ := Option.map_eq_some_iff.mp h
    exact (writeStep_of_step cfg hx).isTree htree
  | cancel id =>
    obtain ⟨c, -, rfl⟩ := Option.map_eq_some_iff.mp h
    exact htree
  | getContent id env =>
    obtain ⟨c, -, h⟩ := Option.bind_eq_some_iff.mp h
    obtain ⟨c', -, rfl⟩ := Option.map_eq_some_iff.mp h
    exact htree
  | unlink filepath env =>
    cases h
    refine isTree_respond htree fun fs' hunlink => ?_
    obtain ⟨a, i, -, -, rfl⟩ := InodeFS.unlink_eq_ok (StepEnv.syscall_eq_ok.mp hunlink).2
    exact htree.remove a
  | rmdir filepath env =>
    cases h
    exact isTree_respond htree fun fs' hrmdir => htree.rmdir (StepEnv.syscall_eq_ok.mp hrmdir).2
  | mkdir filepath env =>
    cases h
    exact isTree_respond htree fun fs' hmkdir => htree.mkdir (StepEnv.syscall_eq_ok.mp hmkdir).2

theorem isTree_run {s s' : State} {es : List Event} (h : run cfg s es = some s') (htree : s.fs.IsTree) : s'.fs.IsTree := by
  induction es generalizing s with
  | nil =>
    cases h
    exact htree
  | cons e es ih =>
    obtain ⟨s₁, hs₁, h⟩ := Option.bind_eq_some_iff.mp h
    exact ih h (isTree_step hs₁ htree)

/-! ### Requests of a client -/

lemma isTree_exampleState : exampleState.fs.IsTree :=
  @isTree_boot exampleConfig _ _ (Option.some_get _).symm InodeFS.isTree_empty

theorem inside_iff_staysInside_dot : ∃ l, (Request.Stat (Bytes.ascii "/.//f")).place exampleConfig exampleState.fs = .ok l ∧
    exampleState.fs.Inside 2 l := by
  have hplace : (Request.Stat (Bytes.ascii "/.//f")).place exampleConfig exampleState.fs = .ok (.entry (2, Bytes.ascii "f")) := by
    change exampleState.fs.resolve (getServerFilepath exampleConfig (Bytes.ascii "/.//f") false) = _
    decide
  exact ⟨_, hplace, (inside_iff_staysInside _ isTree_exampleState (by decide) (by decide)).mpr (.inr (by decide)) _ hplace⟩

/-- The temporary file of an upload to `/f`, as a path below `fs_root`. -/
def tempPath : Bytes := Bytes.ascii "../cache/" ++ hashFilepath exampleConfig (Bytes.ascii "/f")

/-- An upload has opened its temporary file, and anybody can remove it. -/
theorem not_inside_tempPath :
    ∃ s, run exampleConfig exampleState (.startWrite 0 [⟨Bytes.ascii "/f", Bytes.ascii "a"⟩] ::
        List.replicate 3 (.write 0 (.quiet 1))) = some s ∧
      s.fs.node (exportRoot exampleConfig) = .ok (.dir 2) ∧
      (∃ l, (Request.Unlink tempPath).place exampleConfig s.fs = .ok l ∧ ¬ s.fs.Inside 2 l) ∧
      (s.fs.node (getServerFilepath exampleConfig (Bytes.ascii "/f") true)).isOk ∧
      (Unlink exampleConfig (.quiet 2) tempPath s.fs).2.return_code = 0 ∧
      ¬ ((Unlink exampleConfig (.quiet 2) tempPath s.fs).1.node
        (getServerFilepath exampleConfig (Bytes.ascii "/f") true)).isOk := by
  have hrun : ∃ s, run exampleConfig exampleState (.startWrite 0 [⟨Bytes.ascii "/f", Bytes.ascii "a"⟩] ::
        List.replicate 3 (.write 0 (.quiet 1))) = some s ∧
      s.fs.node (exportRoot exampleConfig) = .ok (.dir 2) ∧
      (s.fs.resolve (getServerFilepath exampleConfig tempPath false) =
        .ok (.entry (1, hashFilepath exampleConfig (Bytes.ascii "/f"))) ∧ s.fs.parent 1 = 0 ∧ s.fs.parent 0 = 0 ∧
        s.fs.entries.lookup (1, hashFilepath exampleConfig (Bytes.ascii "/f")) ≠ some (.dir 2)) ∧
      (s.fs.node (getServerFilepath exampleConfig (Bytes.ascii "/f") true)).isOk ∧
      (Unlink exampleConfig (.quiet 2) tempPath s.fs).2.return_code = 0 ∧
      ¬ ((Unlink exampleConfig (.quiet 2) tempPath s.fs).1.node
        (getServerFilepath exampleConfig (Bytes.ascii "/f") true)).isOk := by
    decide +kernel
  obtain ⟨s, hs, hroot, ⟨hplace, hparent, hparent₀, hlookup⟩, hrest⟩ := hrun
  refine ⟨s, hs, hroot, ⟨_, hplace, ?_⟩, hrest⟩
  rintro (⟨n, hn⟩ | hdir)
  · cases n with
    | zero => cases hn
    | succ n =>
      rw [Function.iterate_succ_apply, show (1, _).1 = 1 from rfl, hparent, Function.iterate_fixed hparent₀] at hn
      cases hn
  · exact hlookup hdir

end AFSv1.Server
