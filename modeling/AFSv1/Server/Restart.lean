import AFSv1.Foundations.StandingDirs
import AFSv1.Server.Exported
import AFSv1.Server.Lives

/-! A server can be started again on whatever tree it leaves. Requests can go up to its root directory and remove
`cache` and `fs_root`, but never the root directory itself. -/
namespace AFSv1.Server
open Foundations Tables

variable (cfg : Config)

/-- The directories that `main` makes. -/
def mainNames : List Bytes := [Bytes.ascii "cache", Bytes.ascii "fs_root"]

/-- The names that lead to `AFS_ROOT_DIR`. -/
def rootNames : List Bytes := InodeFS.walk [] (InodeFS.components cfg.AFS_ROOT_DIR)

/-- What `main` makes of its argument, a path that does not go back. -/
structure Config.Rooted : Prop where
  slash : ∃ dir, cfg.AFS_ROOT_DIR = dir ++ [47]
  zero : (0 : UInt8) ∉ cfg.AFS_ROOT_DIR
  up : InodeFS.dotdot ∉ InodeFS.components cfg.AFS_ROOT_DIR

/-- The root directory `d` is in its place, and where `main` makes its directories there are no files. -/
structure Standing (d : ℕ) (fs : InodeFS) : Prop where
  tree : fs.IsTree
  root : fs.Leads (rootNames cfg) d
  names : ∀ name ∈ mainNames, ∀ i, fs.entries.lookup (d, name) ≠ some (.file i)

variable {cfg} {fs fs' : InodeFS} {d : ℕ} {p q name : Bytes} {a : Slot} {l : Loc}

lemma mem_mainNames : name ∈ mainNames ↔ name = Bytes.ascii "cache" ∨ name = Bytes.ascii "fs_root" := by
  simp [mainNames]

lemma plain_of_mainNames (hname : name ∈ mainNames) :
    InodeFS.components name = [name] ∧ InodeFS.stripSlashes name = name ∧
      ¬ (name = [] ∨ name = InodeFS.dot ∨ name = InodeFS.dotdot) ∧ name.length < 64 := by
  revert name
  decide

/-! ### Paths below the root directory -/

/-- The path of the root directory before its last slash. -/
lemma Config.Rooted.dir (hcfg : cfg.Rooted) : ∃ dir, cfg.AFS_ROOT_DIR = dir ++ [47] ∧ (0 : UInt8) ∉ dir ∧
    InodeFS.dotdot ∉ InodeFS.components dir ∧ rootNames cfg = InodeFS.walk [] (InodeFS.components dir) := by
  obtain ⟨dir, hdir⟩ := hcfg.slash
  have hzero : (0 : UInt8) ∉ dir := fun hmem => hcfg.zero (by simp [hdir, hmem])
  have hcomponents : InodeFS.components cfg.AFS_ROOT_DIR = InodeFS.components dir ++ [[]] := by
    rw [hdir, InodeFS.components_append_slash hzero]
    rfl
  have hup := hcfg.up
  rw [hcomponents, List.mem_append, not_or] at hup
  refine ⟨dir, hdir, hzero, hup.1, ?_⟩
  rw [rootNames, hcomponents, InodeFS.walk_append]
  rfl

lemma resolve_root (hcfg : cfg.Rooted) (hroot : fs.Leads (rootNames cfg) d) (q : Bytes) :
    fs.resolve (cfg.AFS_ROOT_DIR ++ q) = fs.locate d (InodeFS.components q) := by
  obtain ⟨dir, hdir, hzero, hup, hnames⟩ := hcfg.dir
  rw [hnames] at hroot
  rw [hdir, List.append_assoc]
  exact InodeFS.resolve_below hzero hup hroot

lemma enter_mainName {x : ℕ} (hname : name ∈ mainNames) (h : fs.enter d name = .ok x) :
    fs.entries.lookup (d, name) = some (.dir x) := by
  obtain ⟨-, -, hplain, -⟩ := plain_of_mainNames hname
  rcases InodeFS.enter_eq_ok.mp h with ⟨hstay, -⟩ | ⟨-, hup, -⟩ | ⟨-, -, hdir⟩
  · exact absurd (hstay.imp_right .inl) hplain
  · exact absurd (.inr (.inr hup)) hplain
  · exact hdir

/-- What is below one of the directories of `main` is found only if the directory is there. -/
lemma locate_mainName (hname : name ∈ mainNames) {cs : List Bytes} (hcs : cs ≠ [])
    (h : fs.locate d (name :: cs) = .ok l) :
    ∃ x, fs.entries.lookup (d, name) = some (.dir x) ∧ fs.locate x cs = .ok l := by
  rw [InodeFS.locate_cons name hcs] at h
  cases he : fs.enter d name with
  | error e => rw [he] at h; cases h
  | ok x =>
    rw [he] at h
    exact ⟨x, enter_mainName hname he, h⟩

lemma components_mainName (hname : name ∈ mainNames) (q : Bytes) :
    InodeFS.components (name ++ 47 :: q) = name :: InodeFS.components q := by
  have hzero : (0 : UInt8) ∉ name := by
    revert name
    decide
  rw [InodeFS.components_append_slash hzero, (plain_of_mainNames hname).1]
  rfl

lemma Standing.exported (hcfg : cfg.Rooted) (h : Standing cfg d fs)
    (hl : fs.resolve (getServerFilepath cfg p false) = .ok l) :
    ∃ x, fs.entries.lookup (d, Bytes.ascii "fs_root") = some (.dir x) := by
  have hpath : getServerFilepath cfg p false = cfg.AFS_ROOT_DIR ++ (Bytes.ascii "fs_root" ++ 47 :: p) := by
    simp [getServerFilepath, Bytes.ascii]
  rw [hpath, resolve_root hcfg h.root, components_mainName (by decide)] at hl
  obtain ⟨x, hx, -⟩ := locate_mainName (by decide) (InodeFS.components_ne_nil p) hl
  exact ⟨x, hx⟩

/-- A temporary file is one in `cache`. -/
lemma Standing.temp (hcfg : cfg.Rooted) (h : Standing cfg d fs)
    (hl : fs.resolve (getServerFilepath cfg p true) = .ok l) :
    ∃ x, fs.entries.lookup (d, Bytes.ascii "cache") = some (.dir x) ∧ l = .entry (x, hashFilepath cfg p) := by
  have hpath : getServerFilepath cfg p true =
      cfg.AFS_ROOT_DIR ++ (Bytes.ascii "cache" ++ 47 :: hashFilepath cfg p) := by
    simp [getServerFilepath, Bytes.ascii]
  have hhash : InodeFS.components (hashFilepath cfg p) = [hashFilepath cfg p] := by
    rw [InodeFS.components, InodeFS.cString_eq_self (notMem_hashFilepath cfg (by decide) p)]
    exact List.splitOn_eq_singleton (notMem_hashFilepath cfg (by decide) p)
  obtain ⟨y, rfl⟩ := resolve_temp cfg hcfg.zero hl
  rw [hpath, resolve_root hcfg h.root, components_mainName (by decide), hhash] at hl
  obtain ⟨x, hx, hl⟩ := locate_mainName (by decide) (by simp) hl
  rw [InodeFS.locate] at hl
  split_ifs at hl with hspecial
  · cases he : fs.enter x (hashFilepath cfg p) <;> rw [he] at hl <;> cases hl
  · exact ⟨x, hx, (Except.ok.inj hl).symm⟩

/-- With slashes taken off its end, a path of a request still is one in `fs_root`, or that of `fs_root` itself. -/
lemma Standing.stripped (hcfg : cfg.Rooted) (h : Standing cfg d fs) {n : Node}
    (ha : fs.resolve (InodeFS.stripSlashes (getServerFilepath cfg p false)) = .ok (.entry a))
    (hn : fs.entries.lookup a = some n) : ∃ m, fs.entries.lookup (d, Bytes.ascii "fs_root") = some m := by
  obtain ⟨dir, hdir, hzero, -, -⟩ := hcfg.dir
  have hmem : Bytes.ascii "fs_root" ∈ mainNames := by decide
  obtain ⟨hcomponents, hstrip, hplain, -⟩ := plain_of_mainNames hmem
  have hpath : getServerFilepath cfg p false = (dir ++ 47 :: Bytes.ascii "fs_root") ++ 47 :: p := by
    simp [getServerFilepath, hdir, Bytes.ascii]
  have hbelow (q : Bytes) : dir ++ 47 :: q = cfg.AFS_ROOT_DIR ++ q := by simp [hdir]
  have hzero' : (0 : UInt8) ∉ dir ++ 47 :: Bytes.ascii "fs_root" := by
    rw [List.mem_append, not_or]
    exact ⟨hzero, by decide⟩
  rw [hpath, InodeFS.stripSlashes_append hzero', InodeFS.stripSlashes_append hzero, hstrip] at ha
  by_cases hall : InodeFS.stripSlashes p = []
  · rw [if_pos hall, if_neg (by decide), hbelow, resolve_root hcfg h.root, hcomponents, InodeFS.locate,
      if_neg hplain] at ha
    cases ha
    exact ⟨n, hn⟩
  · rw [if_neg hall, List.append_assoc, List.cons_append, hbelow, resolve_root hcfg h.root,
      components_mainName hmem] at ha
    obtain ⟨x, hx, -⟩ := locate_mainName hmem (InodeFS.components_ne_nil _) ha
    exact ⟨_, hx⟩

/-! ### The calls keep the root directory -/

lemma Standing.sameDirs (h : Standing cfg d fs) (htree : fs'.IsTree) (hdirs : InodeFS.SameDirs fs fs')
    (hnames : ∀ name ∈ mainNames, ∀ i, fs'.entries.lookup (d, name) = some (.file i) →
      fs.entries.lookup (d, name) = some (.file i)) : Standing cfg d fs' :=
  ⟨htree, h.root.mono fun _ _ => (hdirs.dirs _ _).mpr,
    fun name hname i hi => h.names name hname i (hnames name hname i hi)⟩

lemma Standing.remove (h : Standing cfg d fs) {i : ℕ} (ha : fs.entries.lookup a = some (.file i)) :
    Standing cfg d (fs.remove a) := by
  refine h.sameDirs (h.tree.remove a) (InodeFS.sameDirs_remove ha) fun name _ j hj => ?_
  rw [InodeFS.lookup_remove] at hj
  split_ifs at hj
  exact hj

lemma Standing.mkdir (h : Standing cfg d fs) (hmkdir : fs.mkdir p = .ok fs') : Standing cfg d fs' := by
  obtain ⟨b, -, -, hlookup⟩ := InodeFS.mkdir_eq_ok hmkdir
  refine ⟨h.tree.mkdir hmkdir, h.root.mono fun _ _ => InodeFS.lookup_of_mkdir hmkdir, fun name hname i hi => ?_⟩
  rw [hlookup] at hi
  split_ifs at hi
  · cases hi
  · exact h.names name hname i hi

/-- A request can only remove a directory while `fs_root` is there, and then the root directory is not empty. -/
lemma Standing.rmdir (hcfg : cfg.Rooted) (h : Standing cfg d fs)
    (hrmdir : fs.rmdir (getServerFilepath cfg p false) = .ok fs') : Standing cfg d fs' := by
  obtain ⟨a, k, hresolve, ha, hempty, rfl⟩ := InodeFS.rmdir_eq_ok hrmdir
  obtain ⟨m, hm⟩ := h.stripped hcfg hresolve ha
  refine ⟨h.tree.remove a, ?_, fun name hname i hi => ?_⟩
  · refine h.root.survives (InodeFS.not_isEmptyDir hm) fun before e c k' _ _ hentry hfull => ?_
    have hne : (e, c) ≠ a := by
      rintro rfl
      rw [ha] at hentry
      cases hentry
      exact hfull hempty
    rw [InodeFS.lookup_remove, if_neg hne, hentry]
  · rw [InodeFS.lookup_remove] at hi
    split_ifs at hi
    exact h.names name hname i hi

lemma hashFilepath_ne (hname : name ∈ mainNames) : name ≠ hashFilepath cfg p := by
  rintro rfl
  have hlength := (plain_of_mainNames hname).2.2.2
  rw [hashFilepath_length] at hlength
  omega

lemma Standing.openTrunc (hcfg : cfg.Rooted) (h : Standing cfg d fs) {now : Bytes} {i : ℕ} (htree : fs'.IsTree)
    (hopen : fs.openTrunc (getServerFilepath cfg p true) now = .ok (i, fs')) : Standing cfg d fs' := by
  refine h.sameDirs htree (InodeFS.sameDirs_openTrunc hopen) fun name hname j hj => ?_
  obtain ⟨a, hresolve, ⟨-, rfl⟩ | ⟨-, -, rfl⟩⟩ := InodeFS.openTrunc_eq_ok hopen
  · exact hj
  · obtain ⟨x, -, ha⟩ := h.temp hcfg hresolve
    obtain rfl := Loc.entry.inj ha
    rw [InodeFS.write_entries, InodeFS.lookup_create, if_neg fun heq => hashFilepath_ne hname (Prod.mk.inj heq).2] at hj
    exact hj

/-- What is moved into its place comes from `cache`, also when it is a directory that somebody has put there. -/
lemma Standing.rename (hcfg : cfg.Rooted) (h : Standing cfg d fs)
    (hrename : fs.rename (getServerFilepath cfg p true) (getServerFilepath cfg p false) = .ok fs') :
    Standing cfg d fs' := by
  have htree := h.tree.rename hrename
  have hresolve : ∃ l, fs.resolve (getServerFilepath cfg p true) = .ok l := by
    cases hr : fs.resolve (getServerFilepath cfg p true) with
    | ok l => exact ⟨l, rfl⟩
    | error e =>
      rw [InodeFS.rename, hr] at hrename
      cases hrename
  obtain ⟨l, hr⟩ := hresolve
  obtain ⟨x, hx, rfl⟩ := h.temp hcfg hr
  by_cases hdir : ∃ k, fs.entries.lookup (x, hashFilepath cfg p) = some (.dir k)
  · obtain ⟨k, hk⟩ := hdir
    rcases InodeFS.rename_dir_eq_ok hr hk hrename with rfl | ⟨b, hb, hlookup⟩
    · exact h
    · refine ⟨htree, ?_, fun name hname i hi => ?_⟩
      · refine h.root.survives (InodeFS.not_isEmptyDir hx) fun before e c k' hsuffix hbefore hentry hfull => ?_
        have hover : (e, c) ≠ b := by
          rintro rfl
          obtain ⟨t, heq, hempty⟩ := hb _ hentry
          cases heq
          exact hfull hempty
        -- the names that lead to it are too many
        have hmoved : (e, c) ≠ (x, hashFilepath cfg p) := by
          intro heq
          rw [(Prod.mk.inj heq).1] at hbefore
          have hcache : fs.Leads (Bytes.ascii "cache" :: rootNames cfg) x := ⟨d, h.root, hx⟩
          rw [hbefore.names_unique h.tree hcache] at hsuffix
          have hlength := hsuffix.length_le
          simp only [List.length_cons] at hlength
          omega
        rw [hlookup, if_neg hover, if_neg hmoved, hentry]
      · rw [hlookup] at hi
        split_ifs at hi
        · cases hi
        · exact h.names name hname i hi
  · have hfile : ∀ k, fs.entries.lookup (x, hashFilepath cfg p) ≠ some (.dir k) := fun k hk => hdir ⟨k, hk⟩
    obtain ⟨b, i, ha, hnew, hb, rfl⟩ := InodeFS.rename_eq_ok_of_notDir hr hfile hrename
    refine h.sameDirs htree (InodeFS.sameDirs_move ha hb) fun name hname j hj => ?_
    have hne : (d, name) ≠ b := by
      rintro rfl
      obtain ⟨y, hy⟩ := h.exported hcfg hnew
      rcases mem_mainNames.mp hname with rfl | rfl
      · exact hb x hx
      · exact hb y hy
    rw [InodeFS.lookup_move, if_neg hne] at hj
    split_ifs at hj
    exact hj

/-! ### Every run -/

/-- A `Write` call writes to a temporary file only. -/
def WriteCall.ToTemp (cfg : Config) (c : WriteCall) : Prop :=
  c.pc = .readFirst ∨ ∃ p, c.filepath = getServerFilepath cfg p true

section Steps

variable {id : ℕ} {env : StepEnv} {sh sh' : Shared} {c c' : WriteCall} {s s' : State}

lemma WriteStep.toTemp (hstep : WriteStep cfg id env sh c sh' c') (h : c.ToTemp cfg) : c'.ToTemp cfg := by
  cases hstep with
  | readFirst hpc msg incoming hnext => exact .inr ⟨msg.filepath, rfl⟩
  | readNone hpc hnext => exact .inr ⟨c.msg.filepath, rfl⟩
  | _ hpc => exact .inr (h.resolve_left (by simp [hpc]))

lemma WriteStep.standing (hcfg : cfg.Rooted) (hstep : WriteStep cfg id env sh c sh' c') (htemp : c.ToTemp cfg)
    (h : Standing cfg d sh.fs) : Standing cfg d sh'.fs := by
  have htree := hstep.isTree h.tree
  cases hstep with
  | openTemp hpc i fs hopen =>
    obtain ⟨p, hp⟩ := htemp.resolve_left (by simp [hpc])
    rw [hp] at hopen
    exact h.openTrunc hcfg htree (StepEnv.syscall_eq_ok.mp hopen).2
  | append hpc i hfile => exact h.sameDirs htree (InodeFS.sameDirs_append ..) fun name _ j hj => by simpa using hj
  | renamed hpc fs hok => exact h.rename hcfg (StepEnv.syscall_eq_ok.mp hok).2
  | _ => exact h

lemma standing_respond {result : Except Errno InodeFS} (h : Standing cfg d fs)
    (hresult : ∀ fs', result = .ok fs' → Standing cfg d fs') : Standing cfg d (respond fs result).1 := by
  cases result with
  | error e => exact h
  | ok fs' => exact hresult fs' rfl

/-- A server that can be started again. -/
structure Lasting (cfg : Config) (d : ℕ) (s : State) : Prop where
  fs : Standing cfg d s.fs
  temps : ∀ id c, s.writes id = some c → c.ToTemp cfg

theorem Lasting.step (hcfg : cfg.Rooted) (h : Lasting cfg d s) {e : Event} (hs : Server.step cfg s e = some s') :
    Lasting cfg d s' := by
  cases e with
  | startWrite id stream =>
    simp only [Server.step] at hs
    split_ifs at hs
    cases hs
    refine ⟨h.fs, fun id' c hc => ?_⟩
    rcases update_eq_some.mp hc with ⟨-, rfl⟩ | ⟨-, hc⟩
    · exact .inl rfl
    · exact h.temps id' c hc
  | write id env =>
    obtain ⟨c, hc, hs⟩ := Option.bind_eq_some_iff.mp hs
    obtain ⟨x, hx, rfl⟩ := Option.map_eq_some_iff.mp hs
    have hstep := writeStep_of_step cfg hx
    refine ⟨hstep.standing hcfg (h.temps id c hc) h.fs, fun id' c' hc' => ?_⟩
    rcases update_eq_some.mp hc' with ⟨-, rfl⟩ | ⟨-, hc'⟩
    · exact hstep.toTemp (h.temps id c hc)
    · exact h.temps id' c' hc'
  | cancel id =>
    obtain ⟨c, hc, rfl⟩ := Option.map_eq_some_iff.mp hs
    refine ⟨h.fs, fun id' c' hc' => ?_⟩
    rcases update_eq_some.mp hc' with ⟨-, rfl⟩ | ⟨-, hc'⟩
    · exact h.temps id c hc
    · exact h.temps id' c' hc'
  | startGetContent id filepath =>
    simp only [Server.step] at hs
    split_ifs at hs
    cases hs
    exact ⟨h.fs, h.temps⟩
  | getContent id env =>
    obtain ⟨c, -, hs⟩ := Option.bind_eq_some_iff.mp hs
    obtain ⟨c', -, rfl⟩ := Option.map_eq_some_iff.mp hs
    exact ⟨h.fs, h.temps⟩
  | unlink filepath env =>
    cases hs
    refine ⟨standing_respond h.fs fun fs' hunlink => ?_, h.temps⟩
    obtain ⟨a, i, -, ha, rfl⟩ := InodeFS.unlink_eq_ok (StepEnv.syscall_eq_ok.mp hunlink).2
    exact h.fs.remove ha
  | rmdir filepath env =>
    cases hs
    exact ⟨standing_respond h.fs fun fs' hrmdir => h.fs.rmdir hcfg (StepEnv.syscall_eq_ok.mp hrmdir).2, h.temps⟩
  | mkdir filepath env =>
    cases hs
    exact ⟨standing_respond h.fs fun fs' hmkdir => h.fs.mkdir (StepEnv.syscall_eq_ok.mp hmkdir).2, h.temps⟩

/-! ### Starting -/

lemma node_mainName (hcfg : cfg.Rooted) (hroot : fs.Leads (rootNames cfg) d) (hname : name ∈ mainNames) {n : Node}
    (hn : fs.entries.lookup (d, name) = some n) : fs.node (cfg.AFS_ROOT_DIR ++ name) = .ok n := by
  obtain ⟨hcomponents, -, hplain, -⟩ := plain_of_mainNames hname
  refine InodeFS.node_of_resolve ?_ hn
  rw [resolve_root hcfg hroot, hcomponents, InodeFS.locate, if_neg hplain]

/-- A directory of `main` is there afterwards, if it was not before. -/
lemma Standing.mainMkdir (hcfg : cfg.Rooted) (h : Standing cfg d fs) (hname : name ∈ mainNames) :
    ∃ fs', Server.mainMkdir (cfg.AFS_ROOT_DIR ++ name) fs = some fs' ∧ Standing cfg d fs' ∧
      (∃ k, fs'.entries.lookup (d, name) = some (.dir k)) ∧
        ∀ a k, fs.entries.lookup a = some (.dir k) → fs'.entries.lookup a = some (.dir k) := by
  obtain ⟨hcomponents, hstrip, hplain, -⟩ := plain_of_mainNames hname
  obtain ⟨dir, hdir, hzero, -, -⟩ := hcfg.dir
  have hstripped : InodeFS.stripSlashes (cfg.AFS_ROOT_DIR ++ name) = cfg.AFS_ROOT_DIR ++ name := by
    rw [hdir, List.append_assoc, List.singleton_append, InodeFS.stripSlashes_append hzero, hstrip,
      if_neg fun hnil => hplain (.inl hnil)]
  have hresolve : fs.resolve (InodeFS.stripSlashes (cfg.AFS_ROOT_DIR ++ name)) = .ok (.entry (d, name)) := by
    rw [hstripped, resolve_root hcfg h.root, hcomponents, InodeFS.locate, if_neg hplain]
  cases hn : fs.entries.lookup (d, name) with
  | none =>
    have hok : ∃ fs', fs.mkdir (cfg.AFS_ROOT_DIR ++ name) = .ok fs' := by
      cases hmkdir : fs.mkdir (cfg.AFS_ROOT_DIR ++ name) with
      | ok fs' => exact ⟨fs', rfl⟩
      | error e =>
        rw [InodeFS.mkdir, hresolve] at hmkdir
        simp [Except.bind, hn] at hmkdir
    obtain ⟨fs', hmkdir⟩ := hok
    obtain ⟨b, hb, -, hlookup⟩ := InodeFS.mkdir_eq_ok hmkdir
    obtain rfl : (d, name) = b := Loc.entry.inj (Except.ok.inj (hresolve.symm.trans hb))
    exact ⟨fs', by rw [Server.mainMkdir, hmkdir], h.mkdir hmkdir, ⟨fs.next, by rw [hlookup, if_pos rfl]⟩,
      fun _ _ => InodeFS.lookup_of_mkdir hmkdir⟩
  | some n =>
    have hexists : fs.mkdir (cfg.AFS_ROOT_DIR ++ name) = .error .EEXIST := by
      rw [InodeFS.mkdir, hresolve]
      simp [Except.bind, hn]
    refine ⟨fs, by rw [Server.mainMkdir, hexists]; rfl, h, ?_, fun _ _ => id⟩
    cases n with
    | dir k => exact ⟨k, hn⟩
    | file i => exact absurd hn (h.names name hname i)

theorem Standing.boot (hcfg : cfg.Rooted) (h : Standing cfg d fs) : ∃ s, Server.boot cfg fs = some s ∧
    Lasting cfg d s ∧ ∀ name ∈ mainNames, ∃ k, s.fs.node (cfg.AFS_ROOT_DIR ++ name) = .ok (.dir k) := by
  obtain ⟨fs₁, hfs₁, h₁, ⟨k₁, hk₁⟩, -⟩ := h.mainMkdir hcfg (show Bytes.ascii "cache" ∈ mainNames by decide)
  obtain ⟨fs₂, hfs₂, h₂, ⟨k₂, hk₂⟩, hkeep⟩ := h₁.mainMkdir hcfg (show Bytes.ascii "fs_root" ∈ mainNames by decide)
  refine ⟨.idle fs₂, ?_, ⟨h₂, fun id c hc => by cases hc⟩, fun name hname => ?_⟩
  · rw [Server.boot, hfs₁, Option.bind_some, hfs₂]
    rfl
  · rcases mem_mainNames.mp hname with rfl | rfl
    · exact ⟨k₁, node_mainName hcfg h₂.root hname (hkeep _ _ hk₁)⟩
    · exact ⟨k₂, node_mainName hcfg h₂.root hname hk₂⟩

theorem Lasting.lifeRun (hcfg : cfg.Rooted) (h : Lasting cfg d s) {es : List LifeEvent}
    (hs : Server.lifeRun cfg s es = some s') : Lasting cfg d s' := by
  induction es generalizing s with
  | nil =>
    cases hs
    exact h
  | cons e es ih =>
    obtain ⟨s₁, hs₁, hs⟩ := Option.bind_eq_some_iff.mp hs
    refine ih ?_ hs
    cases e with
    | handler e => exact h.step hcfg hs₁
    | restart =>
      obtain ⟨s₂, hs₂, hlasting, -⟩ := h.fs.boot hcfg
      obtain rfl : s₁ = s₂ := Option.some.inj (hs₁.symm.trans hs₂)
      exact hlasting

end Steps

/-- Whatever is asked of the server and however its handlers interleave, its root directory stays in its place, and
it can be started again with both of its directories. -/
theorem restartable (fs : InodeFS) (d : ℕ) (es : List LifeEvent) (s : State) (hcfg : cfg.Rooted) (htree : fs.IsTree)
    (hroot : fs.node cfg.AFS_ROOT_DIR = .ok (.dir d))
    (hnames : ∀ name ∈ mainNames, ∀ i, fs.node (cfg.AFS_ROOT_DIR ++ name) ≠ .ok (.file i))
    (hrun : lifeRun cfg (.idle fs) es = some s) :
    s.fs.node cfg.AFS_ROOT_DIR = .ok (.dir d) ∧ ∃ s', boot cfg s.fs = some s' ∧
      ∀ name ∈ mainNames, ∃ k, s'.fs.node (cfg.AFS_ROOT_DIR ++ name) = .ok (.dir k) := by
  have hleads : fs.Leads (rootNames cfg) d := InodeFS.leads_of_node htree hroot
  have hstanding : Standing cfg d fs :=
    ⟨htree, hleads, fun name hname i hi => hnames name hname i (node_mainName hcfg hleads hname hi)⟩
  have hlasting : Lasting cfg d s := Lasting.lifeRun hcfg ⟨hstanding, fun id c hc => by cases hc⟩ hrun
  obtain ⟨s', hboot, -, hdirs⟩ := hlasting.fs.boot hcfg
  refine ⟨?_, s', hboot, hdirs⟩
  have hself := resolve_root hcfg hlasting.fs.root []
  rw [List.append_nil] at hself
  rw [InodeFS.node, hself]
  rfl

/-! ### Everything below the root directory is removed -/

def srvConfig : Config := ⟨Bytes.ascii "/srv/", fun _ _ => 0⟩

/-- A tree with the directory `/srv`. -/
def srvTree : InodeFS := (InodeFS.empty.mkdir (Bytes.ascii "/srv")).toOption.getD .empty

/-- The server is started, and clients remove its directories, as far as they can. -/
def emptied : List LifeEvent :=
  .restart :: [Bytes.ascii "../../srv", Bytes.ascii "../cache", [], Bytes.ascii "../../srv"].map
    fun filepath => .handler (.rmdir filepath (.quiet 1))

theorem restartable_emptied : ∃ s, lifeRun srvConfig (.idle srvTree) emptied = some s ∧
    (∀ name ∈ mainNames, s.fs.node (srvConfig.AFS_ROOT_DIR ++ name) = .error .ENOENT) ∧
      ∃ s', boot srvConfig s.fs = some s' ∧
        ∀ name ∈ mainNames, ∃ k, s'.fs.node (srvConfig.AFS_ROOT_DIR ++ name) = .ok (.dir k) := by
  have hmkdir : InodeFS.empty.mkdir (Bytes.ascii "/srv") = .ok srvTree := by
    unfold srvTree
    rfl
  have hrun : ∃ s, lifeRun srvConfig (.idle srvTree) emptied = some s ∧
      (∀ name ∈ mainNames, s.fs.node (srvConfig.AFS_ROOT_DIR ++ name) = .error .ENOENT) := by
    decide +kernel
  obtain ⟨s, hs, hgone⟩ := hrun
  have hcfg : srvConfig.Rooted := ⟨⟨Bytes.ascii "/srv", by decide⟩, by decide, by decide⟩
  obtain ⟨-, hboot⟩ := restartable srvTree 1 emptied s hcfg (InodeFS.isTree_empty.mkdir hmkdir) (by decide +kernel)
    (by decide +kernel) hs
  exact ⟨s, hs, hgone, hboot⟩

end AFSv1.Server
