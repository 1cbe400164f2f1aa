import AFSv1.Server.Sequential
import AFSv1.Server.TempNames

/-! Several lives of the server on one file tree, with calls on any number of paths, and what their steps
do to the temporary files and to the files at the paths. -/
namespace AFSv1.Server
open Foundations Tables

variable (cfg : Config) (paths : Set Bytes)

/-! ### Lives of a server -/

/-- A step of a running server, or its end and the start of another one on the file tree it left. -/
inductive LifeEvent where
  | handler (e : Event)
  | restart

def lifeStep (s : State) : LifeEvent → Option State
  | .handler e => step cfg s e
  | .restart => boot cfg s.fs

def lifeRun (s : State) : List LifeEvent → Option State
  | [] => some s
  | e :: es => (lifeStep cfg s e).bind fun s' => lifeRun s' es

/-- Calls of `Write`, `GetContent` and `Unlink` on some of the paths; all messages of a stream carry one path. -/
def OnPaths : LifeEvent → Prop
  | .handler (.startWrite _ stream) => ∃ p ∈ paths, ∀ msg ∈ stream, msg.filepath = p
  | .handler (.startGetContent _ filepath) | .handler (.unlink filepath _) => filepath ∈ paths
  | .handler (.rmdir _ _) | .handler (.mkdir _ _) => False
  | .handler (.write _ _) | .handler (.cancel _) | .handler (.getContent _ _) | .restart => True

/-- If the event opens a temporary file, no other call on its path is between its own opening and its return. -/
def OpensAlone (s : State) : LifeEvent → Prop
  | .handler (.write id _) => ∀ c, s.writes id = some c → c.pc = .openTemp → c.msg.filepath ≠ [] →
      ∀ id' c', s.writes id' = some c' → c'.msg.filepath = c.msg.filepath → ¬ c'.Pending
  | _ => True

def OpensAloneRun (s : State) : List LifeEvent → Prop
  | [] => True
  | e :: es => OpensAlone s e ∧ ∀ s', lifeStep cfg s e = some s' → OpensAloneRun s' es

/-- The version that an event puts in place: the path and the data of the call whose rename it is. -/
def publishes (s : State) : LifeEvent → Option (Bytes × Bytes)
  | .handler (.write id env) => (s.writes id).bind fun c =>
      match c.pc, env.syscall (s.fs.rename (getServerFilepath cfg c.msg.filepath true)
        (getServerFilepath cfg c.msg.filepath false)) with
      | .rename, .ok _ => some (c.msg.filepath, c.content)
      | _, _ => none
  | _ => none

/-- All versions that a run puts in place. -/
def history (s : State) : List LifeEvent → List (Bytes × Bytes)
  | [] => []
  | e :: es => (publishes cfg s e).toList ++ match lifeStep cfg s e with
    | some s' => history s' es
    | none => []

/-- The two paths denote one place in the tree. -/
def SamePlace (fs : InodeFS) (p q : Bytes) : Prop :=
  ∃ b, fs.resolve (getServerFilepath cfg p false) = .ok (.entry b) ∧
    fs.resolve (getServerFilepath cfg q false) = .ok (.entry b)

/-- The content is that of a file at the path before the run, or of a version the run has put there. -/
def IsVersion (fs : InodeFS) (published : List (Bytes × Bytes)) (path b : Bytes) : Prop :=
  initialContent cfg path fs b ∨ ∃ q, (q, b) ∈ published ∧ SamePlace cfg fs q path

/-- The download came to the end of its file and the client got all that was read. -/
def GetContentCall.SentToEnd (c : GetContentCall) : Prop :=
  c.eof = true ∧ (c.sent.flatMap MetaContent.b).length = c.pos

/-! ### The names in use -/

/-- The paths have temporary files of their own: their digests do not collide, and none of them leads out of
`fs_root` into the cache. A call that no message reaches has the empty path. -/
structure Layout (fs : InodeFS) : Prop where
  empty : [] ∈ paths
  root : (0 : UInt8) ∉ cfg.AFS_ROOT_DIR
  digest : Set.InjOn cfg.sha256 paths
  apart : ∀ p ∈ paths, ∀ q ∈ paths, ∀ l, fs.resolve (getServerFilepath cfg p true) = .ok l →
    fs.resolve (getServerFilepath cfg q false) ≠ .ok l
  cache : ∃ d, fs.node (InodeFS.stripSlashes (cfg.AFS_ROOT_DIR ++ Bytes.ascii "cache")) = .ok (.dir d)
  fs_root : ∃ d, fs.node (InodeFS.stripSlashes (cfg.AFS_ROOT_DIR ++ Bytes.ascii "fs_root")) = .ok (.dir d)

variable {cfg paths}

lemma node_dir_of_sameDirs {fs fs' : InodeFS} (h : InodeFS.SameDirs fs fs') {path : Bytes} {d : ℕ}
    (hn : fs.node path = .ok (.dir d)) : fs'.node path = .ok (.dir d) := by
  unfold InodeFS.node at hn ⊢
  cases hr : fs.resolve path with
  | error e => rw [hr] at hn; cases hn
  | ok l =>
    rw [hr] at hn
    rw [h.resolve hr]
    cases l with
    | self d' => exact hn
    | entry a =>
      have hl : fs.entries.lookup a = some (.dir d) := by
        cases hl : fs.entries.lookup a with
        | none => simp [Except.bind, hl] at hn
        | some n => simpa [Except.bind, hl] using hn
      simp [Except.bind, (h.dirs a d).mpr hl]

lemma Layout.of_sameDirs {fs fs' : InodeFS} (h : Layout cfg paths fs) (hdirs : InodeFS.SameDirs fs fs') :
    Layout cfg paths fs' where
  empty := h.empty
  root := h.root
  digest := h.digest
  apart p hp q hq l hl hl' := h.apart p hp q hq l (hdirs.symm.resolve hl) (hdirs.symm.resolve hl')
  cache := h.cache.imp fun _ => node_dir_of_sameDirs hdirs
  fs_root := h.fs_root.imp fun _ => node_dir_of_sameDirs hdirs

lemma mainMkdir_of_dir {fs : InodeFS} {path : Bytes} {d : ℕ} (h : fs.node (InodeFS.stripSlashes path) = .ok (.dir d)) :
    mainMkdir path fs = some fs := by
  have hmkdir : fs.mkdir path = .error .EEXIST := by
    unfold InodeFS.node at h
    unfold InodeFS.mkdir
    cases hr : fs.resolve (InodeFS.stripSlashes path) with
    | error e => rw [hr] at h; cases h
    | ok l =>
      rw [hr] at h
      cases l with
      | self d' => rfl
      | entry a =>
        cases hl : fs.entries.lookup a with
        | none => simp [Except.bind, hl] at h
        | some n => simp [Except.bind, hl]
  rw [mainMkdir, hmkdir]
  rfl

/-- A restart finds its directories and changes nothing on disk. -/
lemma Layout.boot {fs : InodeFS} (h : Layout cfg paths fs) : boot cfg fs = some (.idle fs) := by
  obtain ⟨d, hcache⟩ := h.cache
  obtain ⟨d', hroot⟩ := h.fs_root
  simp [Server.boot, mainMkdir_of_dir hcache, mainMkdir_of_dir hroot]

lemma Layout.temp_inj {fs : InodeFS} (h : Layout cfg paths fs) {p q : Bytes} (hp : p ∈ paths) (hq : q ∈ paths) {l : Loc}
    (hlp : fs.resolve (getServerFilepath cfg p true) = .ok l) (hlq : fs.resolve (getServerFilepath cfg q true) = .ok l) :
    p = q := temp_injOn cfg h.root h.digest hp hq hlp hlq

/-! ### What a step does to the tree -/

variable (cfg paths) in
/-- The step leaves alone the files that are known; what is new at a path is a version and the temporary file of
no path. -/
structure TreeStep (known : ℕ → Prop) (version : Bytes → Bytes → Prop) (fs fs' : InodeFS) : Prop where
  dirs : InodeFS.SameDirs fs fs'
  next : fs.next ≤ fs'.next
  file : ∀ i, known i → fs'.file i = fs.file i
  temp : ∀ i, known i → ∀ q ∈ paths, ∀ a, fs.resolve (getServerFilepath cfg q true) = .ok (.entry a) →
    fs'.entries.lookup a ≠ some (.file i)
  shown : ∀ p ∈ paths, ∀ b i, fs.resolve (getServerFilepath cfg p false) = .ok (.entry b) →
    fs'.entries.lookup b = some (.file i) → fs.entries.lookup b = some (.file i) ∨
      version p (fs'.file i).content ∧ ∀ q ∈ paths, ∀ a, fs.resolve (getServerFilepath cfg q true) = .ok (.entry a) →
        fs'.entries.lookup a ≠ some (.file i)

variable (cfg paths) in
/-- The step touches the temporary file of no path but `p`, and keeps the file with the empty path in place. -/
structure Elsewhere (p : Bytes) (fs fs' : InodeFS) : Prop where
  dirs : InodeFS.SameDirs fs fs'
  kept : ∀ q ∈ paths, ∀ a i, fs.resolve (getServerFilepath cfg q true) = .ok (.entry a) →
    fs.entries.lookup a = some (.file i) →
      (q ≠ p → fs'.entries.lookup a = some (.file i) ∧ fs'.file i = fs.file i) ∧
      (q = [] → fs'.entries.lookup a = some (.file i))

variable {known : ℕ → Prop} {version : Bytes → Bytes → Prop} {fs fs' : InodeFS} {p : Bytes}

variable (cfg paths) in
/-- No known file is a temporary one. -/
def Sealed (known : ℕ → Prop) (fs : InodeFS) : Prop :=
  ∀ i, known i → i < fs.next ∧ ∀ q ∈ paths, ∀ a, fs.resolve (getServerFilepath cfg q true) = .ok (.entry a) →
    fs.entries.lookup a ≠ some (.file i)

lemma Sealed.refl (h : Sealed cfg paths known fs) : TreeStep cfg paths known version fs fs :=
  ⟨.refl fs, le_rfl, fun _ _ => rfl, fun i hi => (h i hi).2, fun _ _ _ _ _ hb => .inl hb⟩

lemma Elsewhere.refl (p : Bytes) (fs : InodeFS) : Elsewhere cfg paths p fs fs :=
  ⟨.refl fs, fun _ _ _ _ _ hai => ⟨fun _ => ⟨hai, rfl⟩, fun _ => hai⟩⟩

/-- A temporary file gets other content. -/
lemma treeStep_content (h : Sealed cfg paths known fs) (hp : p ∈ paths) {a : Slot} {i : ℕ}
    (ha : fs.resolve (getServerFilepath cfg p true) = .ok (.entry a)) (hai : fs.entries.lookup a = some (.file i))
    (hdirs : InodeFS.SameDirs fs fs') (hnext : fs'.next = fs.next) (hentries : fs'.entries = fs.entries)
    (hfile : ∀ j, j ≠ i → fs'.file j = fs.file j) : TreeStep cfg paths known version fs fs' := by
  refine ⟨hdirs, hnext.ge, fun j hj => hfile j ?_, fun j hj => ?_, fun q _ b j _ hbj => ?_⟩
  · rintro rfl
    exact (h j hj).2 p hp a ha hai
  · rw [hentries]
    exact (h j hj).2
  · rw [hentries] at hbj
    exact .inl hbj

lemma elsewhere_content (hlayout : Layout cfg paths fs) (hp : p ∈ paths) {a : Slot} {i : ℕ}
    (ha : fs.resolve (getServerFilepath cfg p true) = .ok (.entry a)) (hai : fs.entries.lookup a = some (.file i))
    (hdirs : InodeFS.SameDirs fs fs') (hentries : fs'.entries = fs.entries)
    (hfile : ∀ j, j ≠ i → fs'.file j = fs.file j) : Elsewhere cfg paths p fs fs' := by
  refine ⟨hdirs, fun q hq b j hb hbj => ?_⟩
  rw [hentries]
  refine ⟨fun hne => ⟨hbj, hfile j ?_⟩, fun _ => hbj⟩
  rintro rfl
  obtain rfl := fs.linked_once a b _ hai hbj
  exact hne (hlayout.temp_inj hq hp hb ha)

/-- A temporary file is created. -/
lemma treeStep_create (h : Sealed cfg paths known fs) (hlayout : Layout cfg paths fs) (hp : p ∈ paths) {a : Slot}
    (ha : fs.resolve (getServerFilepath cfg p true) = .ok (.entry a)) (hvacant : fs.entries.lookup a = none)
    (data : FileData) :
    TreeStep cfg paths known version fs ((fs.create a .file Node.ino_file).write fs.next data) := by
  refine ⟨(InodeFS.sameDirs_create hvacant).trans (InodeFS.sameDirs_write ..), Nat.le_succ _, fun j hj => ?_,
    fun j hj q hq b hb => ?_, fun q hq b j hb hbj => ?_⟩
  · exact InodeFS.write_file_ne _ (by have := (h j hj).1; omega) data
  · have hlt := (h j hj).1
    rw [InodeFS.write_entries, InodeFS.lookup_create]
    split_ifs
    · simp only [ne_eq, Option.some.injEq, Node.file.injEq]
      omega
    · exact (h j hj).2 q hq b hb
  · rw [InodeFS.write_entries, InodeFS.lookup_create, if_neg] at hbj
    · exact .inl hbj
    · rintro rfl
      exact hlayout.apart p hp q hq _ ha hb

lemma elsewhere_create {a : Slot} (hvacant : fs.entries.lookup a = none) (data : FileData) :
    Elsewhere cfg paths p fs ((fs.create a .file Node.ino_file).write fs.next data) := by
  refine ⟨(InodeFS.sameDirs_create hvacant).trans (InodeFS.sameDirs_write ..), fun q hq b j hb hbj => ?_⟩
  have hne : b ≠ a := by
    rintro rfl
    rw [hvacant] at hbj
    cases hbj
  have hlt : j < fs.next := fs.allocated b _ hbj
  rw [InodeFS.write_entries, InodeFS.lookup_create, if_neg hne]
  exact ⟨fun _ => ⟨hbj, InodeFS.write_file_ne _ (by omega) data⟩, fun _ => hbj⟩

/-- A temporary file is put in place. -/
lemma treeStep_move (h : Sealed cfg paths known fs) (hlayout : Layout cfg paths fs) (hp : p ∈ paths) {a b : Slot} {i : ℕ}
    (hai : fs.entries.lookup a = some (.file i)) (hb : fs.resolve (getServerFilepath cfg p false) = .ok (.entry b))
    (hdir : ∀ d, fs.entries.lookup b ≠ some (.dir d))
    (hversion : ∀ q, SamePlace cfg fs p q → version q (fs.file i).content) :
    TreeStep cfg paths known version fs (fs.move a b (.file i) hai) := by
  have htemp (q : Bytes) (hq : q ∈ paths) (c : Slot) (hc : fs.resolve (getServerFilepath cfg q true) = .ok (.entry c)) :
      c ≠ b := by
    rintro rfl
    exact hlayout.apart q hq p hp _ hc hb
  refine ⟨InodeFS.sameDirs_move hai hdir, le_rfl, fun _ _ => rfl, fun j hj q hq c hc => ?_, fun q hq c j hc hcj => ?_⟩
  · rw [InodeFS.lookup_move, if_neg (htemp q hq c hc)]
    split_ifs
    · simp
    · exact (h j hj).2 q hq c hc
  · rw [InodeFS.lookup_move] at hcj
    split_ifs at hcj with hcb hca
    · obtain rfl : i = j := by simpa using hcj
      refine .inr ⟨hversion q ⟨b, hb, hcb ▸ hc⟩, fun q' hq' a' ha' => ?_⟩
      rw [InodeFS.lookup_move, if_neg (htemp q' hq' a' ha')]
      split_ifs with haa
      · simp
      · exact fun hlookup => haa (fs.linked_once a' a _ hlookup hai)
    · exact .inl hcj

lemma elsewhere_move (hlayout : Layout cfg paths fs) (hp : p ∈ paths) {a b : Slot} {i : ℕ}
    (ha : fs.resolve (getServerFilepath cfg p true) = .ok (.entry a)) (hai : fs.entries.lookup a = some (.file i))
    (hb : fs.resolve (getServerFilepath cfg p false) = .ok (.entry b)) (hdir : ∀ d, fs.entries.lookup b ≠ some (.dir d)) :
    Elsewhere cfg paths p fs (fs.move a b (.file i) hai) := by
  refine ⟨InodeFS.sameDirs_move hai hdir, fun q hq c j hc hcj => ?_⟩
  have hcb : c ≠ b := by
    rintro rfl
    exact hlayout.apart q hq p hp _ hc hb
  have hkept (hne : q ≠ p) : (fs.move a b (.file i) hai).entries.lookup c = some (.file j) := by
    rw [InodeFS.lookup_move, if_neg hcb, if_neg]
    · exact hcj
    · rintro rfl
      exact hne (hlayout.temp_inj hq hp hc ha)
  refine ⟨fun hne => ⟨hkept hne, rfl⟩, ?_⟩
  -- the empty path has no place to move a file to
  rintro rfl
  apply hkept
  rintro rfl
  exact resolve_target_nil cfg hlayout.root b hb

/-- A file is removed from its path. -/
lemma treeStep_remove (h : Sealed cfg paths known fs) {b : Slot} {i : ℕ} (hbi : fs.entries.lookup b = some (.file i)) :
    TreeStep cfg paths known version fs (fs.remove b) := by
  refine ⟨InodeFS.sameDirs_remove hbi, le_rfl, fun _ _ => rfl, fun j hj q hq c hc => ?_, fun q hq c j hc hcj => ?_⟩
  · rw [InodeFS.lookup_remove]
    split_ifs
    · simp
    · exact (h j hj).2 q hq c hc
  · rw [InodeFS.lookup_remove] at hcj
    split_ifs at hcj
    exact .inl hcj

lemma elsewhere_remove (hlayout : Layout cfg paths fs) (hp : p ∈ paths) {b : Slot} {i : ℕ}
    (hb : fs.resolve (getServerFilepath cfg p false) = .ok (.entry b)) (hbi : fs.entries.lookup b = some (.file i))
    (q : Bytes) : Elsewhere cfg paths q fs (fs.remove b) := by
  refine ⟨InodeFS.sameDirs_remove hbi, fun q' hq' c j hc hcj => ?_⟩
  have hcb : c ≠ b := by
    rintro rfl
    exact hlayout.apart q' hq' p hp _ hc hb
  rw [InodeFS.lookup_remove, if_neg hcb]
  exact ⟨fun _ => ⟨hcj, rfl⟩, fun _ => hcj⟩

end AFSv1.Server
