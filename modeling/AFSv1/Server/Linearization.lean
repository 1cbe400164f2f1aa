import AFSv1.Server.Alone
import AFSv1.Server.Download
import AFSv1.Server.Lock
import AFSv1.Server.WholeVersions

/-! The server as an atomic store: calls run side by side, and yet each takes effect at one moment
between its arrival and its return. -/
namespace AFSv1.Server
open Foundations Tables

variable (cfg : Config) (paths : Set Bytes)

/-! ### The atomic store -/

/-- The file at each path. -/
abbrev Store := Bytes → Option FileData

/-- What `GetContent` sends. -/
def messages : Option FileData → List MetaContent
  | none => [{ file_exists := false }]
  | some file => (Bytes.blocks BUFSIZE file.content).map fun b => ⟨true, file.mtim, b⟩

/-- What `Stat` answers, apart from the fields that the file tree does not hold. -/
def statAnswer (sb : StatContent) : Option FileData → StatContent
  | none => { return_code := -1, error_number := Errno.ENOENT.number }
  | some file => { sb with return_code := 0, error_number := 0, st_size := file.content.length, st_mtim := file.mtim }

/-- What `Unlink` answers. -/
def unlinkAnswer : Option FileData → Response
  | none => { return_code := -1, error_number := Errno.ENOENT.number }
  | some _ => { return_code := 0 }

/-- The store, the uploads that have taken effect, and what each download found. -/
structure Atomic where
  store : Store
  wrote : ℕ → Bool := fun _ => false
  read : ℕ → Option (Option FileData) := fun _ => none

/-- The moments at which calls take effect: the rename of an upload, a removal, and for a download its
`stat`, or its open if there is no file. A restart forgets the calls. -/
def Atomic.step (s : State) (x : Atomic) : LifeEvent → Atomic
  | .handler (.write id _) => match s.writes id with
    | some c =>
      if c.pc = .rename ∧ c.msg.filepath ≠ [] then
        { x with
          store := Function.update x.store c.msg.filepath (some ⟨c.content, c.timestamp⟩)
          wrote := Function.update x.wrote id true }
      else x
    | none => x
  | .handler (.getContent id _) => match s.reads id with
    | some c =>
      if c.pc = .stat ∨ c.pc = .openFile ∧ x.store c.filepath = none then
        { x with read := Function.update x.read id (some (x.store c.filepath)) }
      else x
    | none => x
  | .handler (.unlink filepath _) => { x with store := Function.update x.store filepath none }
  | .restart => { store := x.store }
  | .handler _ => x

def Atomic.run (s : State) (x : Atomic) : List LifeEvent → Atomic
  | [] => x
  | e :: es => match lifeStep cfg s e with
    | some s' => Atomic.run s' (x.step s e) es
    | none => x

/-! ### The runs -/

/-- The paths are those of different files, and temporary files can be opened. -/
structure Exports (fs : InodeFS) : Prop extends Layout cfg paths fs where
  temp : ∀ p ∈ paths, fs.Creatable (getServerFilepath cfg p true)
  places : ∀ p ∈ paths, ∀ q ∈ paths, SamePlace cfg fs p q → p = q

/-- The store has at the path what is there in the tree. -/
def Holds (fs : InodeFS) (p : Bytes) (v : Option FileData) : Prop :=
  ∃ b, fs.resolve (getServerFilepath cfg p false) = .ok (.entry b) ∧ match v with
    | none => fs.entries.lookup b = none
    | some file => ∃ i, fs.entries.lookup b = some (.file i) ∧ fs.file i = file

/-- The path whose version comes or goes with the event. -/
def changes (s : State) : LifeEvent → Option Bytes
  | .handler (.write id _) => (s.writes id).bind fun c => if c.pc = .rename then some c.msg.filepath else none
  | .handler (.unlink filepath _) => some filepath
  | _ => none

/-- The version of its path stays while the download `r` is between its open and its `stat`. -/
def Undisturbed (r : ℕ) (s : State) (e : LifeEvent) : Prop :=
  ∀ d, s.reads r = some d → d.pc = .stat → changes s e ≠ some d.filepath

instance decidableUndisturbed (r : ℕ) (s : State) (e : LifeEvent) : Decidable (Undisturbed r s e) :=
  inferInstanceAs (Decidable (∀ d, s.reads r = some d → d.pc = .stat → changes s e ≠ some d.filepath))

def UndisturbedRun (r : ℕ) (s : State) : List LifeEvent → Prop
  | [] => True
  | e :: es => Undisturbed r s e ∧ ∀ s', lifeStep cfg s e = some s' → UndisturbedRun r s' es

instance UndisturbedRun.decidable (r : ℕ) : ∀ (s : State) (es : List LifeEvent), Decidable (UndisturbedRun cfg r s es)
  | _, [] => isTrue trivial
  | s, e :: es =>
    have (s' : State) := UndisturbedRun.decidable r s' es
    inferInstanceAs (Decidable (Undisturbed r s e ∧ ∀ s', lifeStep cfg s e = some s' → UndisturbedRun cfg r s' es))

/-- No system call of the step fails, and what a download sends arrives. -/
def LifeEvent.Smooth : LifeEvent → Prop
  | .handler (.write _ env) | .handler (.unlink _ env) => env.fault = none
  | .handler (.getContent _ env) => env.Smooth
  | _ => True

/-! ### The invariant -/

/-- How far a download has come; `found` is what it found at its moment. -/
def GetContentCall.Reading (fs : InodeFS) (found : Option (Option FileData)) (c : GetContentCall) : Prop :=
  match c.pc with
  | .openFile => found = none ∧ c.sent = [] ∧ c.pos = 0 ∧ c.msg = {}
  | .stat => found = none ∧ c.sent = [] ∧ c.pos = 0 ∧ c.msg.file_exists = true ∧ ∃ b i, c.file = some (.file i) ∧
      fs.resolve (getServerFilepath cfg c.filepath false) = .ok (.entry b) ∧ fs.entries.lookup b = some (.file i)
  | .read => ∃ i, c.file = some (.file i) ∧ found = some (some (fs.file i)) ∧ c.msg.file_exists = true ∧
      c.msg.timestamp = (fs.file i).mtim ∧
        c.sent ++ messages (some ⟨(fs.file i).content.drop c.pos, (fs.file i).mtim⟩) = messages (some (fs.file i))
  | .returned _ => ∃ v, found = some v ∧ c.sent = messages v

/-- The tree and the calls stand where the atomic store stands. -/
structure Linear (x : Atomic) (s : State) : Prop where
  places : Exports cfg paths s.fs
  holds : ∀ p ∈ paths, p ≠ [] → Holds cfg s.fs p (x.store p)
  named : ∀ id c, s.writes id = some c → c.Pending → c.filepath = getServerFilepath cfg c.msg.filepath true
  timed : ∀ id c, s.writes id = some c → c.pc = .rename →
    c.IfNamed (∃ i, c.Temp cfg s.fs i ∧ (s.fs.file i).mtim = c.timestamp)
  wrote : ∀ id c, s.writes id = some c → (x.wrote id = true → c.pc = .returned .OK) ∧
    c.IfNamed (c.pc = .returned .OK → x.wrote id = true)
  fresh : ∀ id, s.writes id = none → x.wrote id = false
  unread : ∀ r, s.reads r = none → x.read r = none
  reads : ∀ r c, s.reads r = some c → c.filepath ≠ [] → c.Reading cfg s.fs (x.read r)

variable {cfg paths}

lemma StepEnv.syscall_eq {env : StepEnv} (h : env.fault = none) {α : Type} (result : Except Errno α) :
    env.syscall result = result := by
  unfold StepEnv.syscall
  rw [h]

lemma Exports.of_sameDirs {fs fs' : InodeFS} (h : Exports cfg paths fs) (hdirs : InodeFS.SameDirs fs fs') :
    Exports cfg paths fs' where
  toLayout := h.toLayout.of_sameDirs hdirs
  temp p hp := hdirs.creatable (h.temp p hp)
  places p hp q hq hsame := by
    obtain ⟨b, hpb, hqb⟩ := hsame
    exact h.places p hp q hq ⟨b, hdirs.symm.resolve hpb, hdirs.symm.resolve hqb⟩

section Holds

variable {fs fs' : InodeFS} {p : Bytes} {v : Option FileData} {env : StepEnv}

lemma Holds.creatable (h : Holds cfg fs p v) : fs.Creatable (getServerFilepath cfg p false) := by
  obtain ⟨b, hb, hv⟩ := h
  refine ⟨b, hb, fun d hd => ?_⟩
  cases v with
  | none => simp [hd] at hv
  | some file =>
    obtain ⟨i, hi, -⟩ := hv
    simp [hd] at hi

/-- A path whose place is left alone holds what it held. -/
lemma Holds.keep (h : Holds cfg fs p v) (hdirs : InodeFS.SameDirs fs fs')
    (hkeep : ∀ b, fs.resolve (getServerFilepath cfg p false) = .ok (.entry b) → fs.KeepsSlot fs' b) :
    Holds cfg fs' p v := by
  obtain ⟨b, hb, hv⟩ := h
  have hslot := hkeep b hb
  refine ⟨b, hdirs.resolve hb, ?_⟩
  cases v with
  | none => exact hslot.entry.trans hv
  | some file =>
    obtain ⟨i, hi, hfile⟩ := hv
    exact ⟨i, hslot.entry.trans hi, (hslot.file i hi).trans hfile⟩

lemma Holds.node_none (h : Holds cfg fs p none) : fs.node (getServerFilepath cfg p false) = .error .ENOENT := by
  obtain ⟨b, hb, hv⟩ := h
  simp [InodeFS.node, hb, Except.bind, show fs.entries.lookup b = none from hv]

lemma Holds.node_some {file : FileData} (h : Holds cfg fs p (some file)) :
    ∃ i, fs.node (getServerFilepath cfg p false) = .ok (.file i) ∧ fs.file i = file := by
  obtain ⟨b, hb, i, hi, hfile⟩ := h
  exact ⟨i, InodeFS.node_of_resolve hb hi, hfile⟩

/-- `Stat` shows what is held. -/
theorem Holds.stat (h : Holds cfg fs p v) (henv : env.fault = none) (sb : StatContent) :
    Stat cfg env sb p fs = statAnswer sb v := by
  unfold Stat
  rw [StepEnv.syscall_eq henv]
  cases v with
  | none =>
    rw [h.node_none]
    rfl
  | some file =>
    obtain ⟨i, hi, rfl⟩ := h.node_some
    rw [hi]
    rfl

/-- `Unlink` answers by what is held, and then nothing is. -/
theorem Holds.unlink (h : Holds cfg fs p v) (henv : env.fault = none) : (Unlink cfg env p fs).2 = unlinkAnswer v ∧
    ((Unlink cfg env p fs).1 = fs ∧ v = none ∨ ∃ b i, fs.resolve (getServerFilepath cfg p false) = .ok (.entry b) ∧
      fs.entries.lookup b = some (.file i) ∧ (Unlink cfg env p fs).1 = fs.remove b) := by
  obtain ⟨b, hb, hv⟩ := h
  unfold Unlink
  rw [StepEnv.syscall_eq henv]
  cases v with
  | none =>
    have hlookup : fs.entries.lookup b = none := hv
    simp [InodeFS.unlink, hb, Except.bind, hlookup, respond, unlinkAnswer]
  | some file =>
    obtain ⟨i, hi, -⟩ := hv
    refine ⟨by simp [InodeFS.unlink, hb, Except.bind, hi, respond, unlinkAnswer], .inr ⟨b, i, hb, hi, ?_⟩⟩
    simp [InodeFS.unlink, hb, Except.bind, hi, respond]

end Holds

/-! ### Uploads -/

section Write

variable {id : ℕ} {env : StepEnv} {sh sh' : Shared} {c c' : WriteCall}

/-- The step of an upload leaves every slot alone but that of its temporary file and, by the rename, that of
its path. -/
lemma WriteStep.keepsSlot (hw : WriteStep cfg id env sh c sh' c') (ht : c.Tidy cfg paths sh.fs) {b : Slot}
    (htemp : ∀ a, sh.fs.resolve (getServerFilepath cfg c.msg.filepath true) = .ok (.entry a) → b ≠ a)
    (htarget : c.pc = .rename → ∀ a, sh.fs.resolve (getServerFilepath cfg c.msg.filepath false) = .ok (.entry a) →
      b ≠ a) : sh.fs.KeepsSlot sh'.fs b := by
  have hinv := ht.2
  cases hw with
  | openTemp hpc i fs hopen =>
    simp only [hpc] at hinv
    rw [hinv.1] at hopen
    exact InodeFS.keepsSlot_openTrunc (StepEnv.syscall_eq_ok.mp hopen).2 htemp
  | append hpc i hfile =>
    simp only [hpc] at hinv
    obtain ⟨j, hj, ⟨a, ha, hai⟩, -⟩ := hinv
    obtain rfl : i = j := by simpa [hfile] using hj
    exact InodeFS.keepsSlot_append hai (htemp a ha) _ _
  | renamed hpc fs hok =>
    simp only [hpc] at hinv
    obtain ⟨i, ⟨a, ha, hai⟩, -⟩ := hinv
    obtain ⟨a', ha', -, rfl⟩ := (InodeFS.rename_file_eq_ok ha hai).mp (StepEnv.syscall_eq_ok.mp hok).2
    exact InodeFS.keepsSlot_move hai (htemp a ha) (htarget hpc a' ha')
  | _ => exact .refl _ _

lemma WriteStep.filepath (hw : WriteStep cfg id env sh c sh' c') (hp : c'.Pending) : c'.filepath = c.filepath := by
  cases hw with
  | readFirst | readNone => simp [WriteCall.Pending] at hp
  | _ => rfl

/-- An upload is acknowledged by its rename only, and a call that has returned makes no step. -/
lemma WriteStep.returned (hw : WriteStep cfg id env sh c sh' c') : (∀ status, c.pc ≠ .returned status) ∧
    (c'.pc = .returned .OK → c.pc = .rename ∧ c'.msg = c.msg) ∧ (c.pc = .rename → c'.pc = .returned .OK ∧ c'.msg = c.msg) ∧
      (c'.pc = .rename → c.pc = .stat) := by
  cases hw <;> simp_all

/-- The rename of an upload with a path puts its file in place. -/
lemma WriteStep.installs (hw : WriteStep cfg id env sh c sh' c') (hpc : c.pc = .rename) (henv : env.fault = none) {i : ℕ}
    (ht : c.Temp cfg sh.fs i) (hcreatable : sh.fs.Creatable (getServerFilepath cfg c.msg.filepath false)) :
    Holds cfg sh'.fs c.msg.filepath (some (sh.fs.file i)) := by
  obtain ⟨a, ha, hai⟩ := ht
  obtain ⟨b, hb, hdir⟩ := hcreatable
  have hrename : env.syscall (sh.fs.rename (getServerFilepath cfg c.msg.filepath true)
      (getServerFilepath cfg c.msg.filepath false)) = .ok (sh.fs.move a b (.file i) hai) := by
    rw [StepEnv.syscall_eq henv]
    exact (InodeFS.rename_file_eq_ok ha hai).mpr ⟨b, hb, hdir, rfl⟩
  cases hw with
  | renamed _ fs hok =>
    rw [hrename] at hok
    cases hok
    refine ⟨b, (InodeFS.sameDirs_move hai hdir).resolve hb, i, ?_, rfl⟩
    rw [InodeFS.lookup_move, if_pos rfl]
  | renameFailed _ hfail => exact absurd hrename (hfail _)
  | _ => simp_all

end Write

/-- A download goes on where its file and the name it was opened by are left alone. -/
lemma GetContentCall.Reading.frame {fs fs' : InodeFS} {found : Option (Option FileData)} {c : GetContentCall}
    (h : c.Reading cfg fs found) (hdirs : InodeFS.SameDirs fs fs')
    (hslot : c.pc = .stat → ∀ b, fs.resolve (getServerFilepath cfg c.filepath false) = .ok (.entry b) → fs.KeepsSlot fs' b)
    (hfile : c.pc = .read → ∀ i, c.file = some (.file i) → fs'.file i = fs.file i) : c.Reading cfg fs' found := by
  unfold Reading at h ⊢
  cases hpc : c.pc with
  | openFile | returned status => simpa only [hpc] using h
  | stat =>
    simp only [hpc] at h ⊢
    obtain ⟨hfound, hsent, hpos, hexists, b, i, hi, hb, hbi⟩ := h
    exact ⟨hfound, hsent, hpos, hexists, b, i, hi, hdirs.resolve hb, (hslot hpc b hb).entry.trans hbi⟩
  | read =>
    simp only [hpc] at h ⊢
    obtain ⟨i, hi, h⟩ := h
    rw [← hfile hpc i hi] at h
    exact ⟨i, hi, h⟩

/-- What a download has sent so far. -/
lemma GetContentCall.Reading.sent_initial {fs : InodeFS} {found : Option (Option FileData)} {c : GetContentCall}
    (h : c.Reading cfg fs found) : (found = none → c.sent = []) ∧ ∀ v, found = some v → c.sent <+: messages v := by
  unfold Reading at h
  cases hpc : c.pc with
  | openFile | stat =>
    simp only [hpc] at h
    simp [h.1, h.2.1]
  | read =>
    simp only [hpc] at h
    obtain ⟨i, -, rfl, -, -, hsent⟩ := h
    refine ⟨by simp, ?_⟩
    rintro v ⟨⟩
    rw [← hsent]
    exact List.prefix_append _ _
  | returned status =>
    simp only [hpc] at h
    obtain ⟨v, rfl, hsent⟩ := h
    refine ⟨by simp, ?_⟩
    rintro v ⟨⟩
    rw [hsent]

/-! ### Steps of the store -/

section Atomic

variable {x : Atomic} {s : State} {e : LifeEvent}

lemma Atomic.step_wrote {id : ℕ} (h : ∀ env, e ≠ .handler (.write id env)) (he : e ≠ .restart) :
    (x.step s e).wrote id = x.wrote id := by
  unfold step
  split
  · rename_i id' env
    have hid : id ≠ id' := by
      rintro rfl
      exact h env rfl
    split
    · split_ifs
      · exact Function.update_of_ne hid ..
      · rfl
    · rfl
  · split
    · split_ifs <;> rfl
    · rfl
  · rfl
  · exact absurd rfl he
  · rfl

lemma Atomic.step_read {r : ℕ} (h : ∀ env, e ≠ .handler (.getContent r env)) (he : e ≠ .restart) :
    (x.step s e).read r = x.read r := by
  unfold step
  split
  · split
    · split_ifs <;> rfl
    · rfl
  · rename_i id' env
    have hid : r ≠ id' := by
      rintro rfl
      exact h env rfl
    split
    · split_ifs
      · exact Function.update_of_ne hid ..
      · rfl
    · rfl
  · rfl
  · exact absurd rfl he
  · rfl

lemma Atomic.step_store (hw : ∀ id env c, e = .handler (.write id env) → s.writes id = some c →
    ¬ (c.pc = .rename ∧ c.msg.filepath ≠ [])) (hu : ∀ p env, e ≠ .handler (.unlink p env)) :
    (x.step s e).store = x.store := by
  unfold step
  split
  · rename_i id env
    split
    · rename_i c hc
      rw [if_neg (hw id env c rfl hc)]
    · rfl
  · split
    · split_ifs <;> rfl
    · rfl
  · rename_i p env
    exact absurd rfl (hu p env)
  · rfl
  · rfl

end Atomic

section Steps

variable {known : Bytes → ℕ → Prop} {version : Bytes → Bytes → Prop} {x : Atomic} {s s' : State}

section Write

variable {id : ℕ} {env : StepEnv} {sh : Shared} {c c' : WriteCall} (h : Linear cfg paths x s)
  (hclean : Clean cfg paths known version s) (hc : s.writes id = some c) (hw : WriteStep cfg id env s.toShared c sh c')
  (henv : env.fault = none)

include hclean hc hw in
/-- What the step does to the tree, apart from the place of the path. -/
lemma Clean.write_tree : TreeStep cfg paths (fun i => ∃ p, known p i) (fun _ _ => True) s.fs sh.fs ∧
    Elsewhere cfg paths c.msg.filepath s.fs sh.fs := by
  obtain ⟨htree, helse, -⟩ := @WriteStep.tidy cfg paths c c' _ (fun _ _ => True) id env s.toShared sh hw
    (hclean.calls id c hc) hclean.tree.layout hclean.tree.isSealed fun _ _ _ _ => trivial
  exact ⟨htree, helse⟩

include hclean hc hw in
/-- If another pending call has the path of this one, this one does not touch the tree. -/
lemma Clean.write_others (halone : OpensAlone s (.handler (.write id env))) {id₁ : ℕ} {c₁ : WriteCall} (hid : id₁ ≠ id)
    (hc₁ : s.writes id₁ = some c₁) (hp : c₁.Pending) (hpath : c₁.msg.filepath = c.msg.filepath)
    (hnamed : c.msg.filepath ≠ []) : sh.fs = s.fs :=
  hw.fs_eq (fun hpend => hid (hclean.alone id id₁ c c₁ hc hc₁ hpend hp hpath hnamed))
    fun hpc => halone c hc hpc hnamed id₁ c₁ hc₁ hpath hp

include h hclean hc hw in
/-- The place of a path is left alone unless this is the rename of an upload of the path. -/
lemma Linear.write_keeps {p : Bytes} (hp : p ∈ paths) (hne : c.pc = .rename → p ≠ c.msg.filepath) (b : Slot)
    (hb : s.fs.resolve (getServerFilepath cfg p false) = .ok (.entry b)) : s.fs.KeepsSlot sh.fs b := by
  have htidy := hclean.calls id c hc
  have hmem := htidy.1.mem hclean.tree.layout.empty
  apply hw.keepsSlot htidy
  · rintro a ha rfl
    exact hclean.tree.layout.apart _ hmem p hp _ ha hb
  · rintro hpc a ha rfl
    exact hne hpc (h.places.places p hp _ hmem ⟨b, hb, ha⟩)

include h hclean hc hw henv in
lemma Linear.write_holds {p : Bytes} (hp : p ∈ paths) (hne : p ≠ []) :
    Holds cfg sh.fs p ((x.step s (.handler (.write id env))).store p) := by
  have hdirs := (hclean.write_tree hc hw).1.dirs
  simp only [Atomic.step, hc]
  split_ifs with hpoint
  · dsimp only
    by_cases hpath : p = c.msg.filepath
    · subst hpath
      obtain ⟨i, ⟨a, ha, hai⟩, htime⟩ := h.timed id c hc hpoint.1 hne
      have hinv := (hclean.calls id c hc).2
      simp only [hpoint.1] at hinv
      obtain ⟨j, ⟨a', ha', haj⟩, hcontent⟩ := hinv
      obtain rfl : a = a' := by simpa [ha] using ha'
      obtain rfl : i = j := by simpa [hai] using haj
      rw [Function.update_self, ← hcontent hne, ← htime]
      exact hw.installs hpoint.1 henv ⟨a, ha, hai⟩ (h.holds _ hp hne).creatable
    · rw [Function.update_of_ne hpath]
      exact (h.holds p hp hne).keep hdirs (h.write_keeps hclean hc hw hp fun _ => hpath)
  · refine (h.holds p hp hne).keep hdirs (h.write_keeps hclean hc hw hp fun hpc hpath => hpoint ⟨hpc, ?_⟩)
    rwa [← hpath]

include h hclean hc hw in
lemma Linear.write_named (hp : c'.Pending) : c'.filepath = getServerFilepath cfg c'.msg.filepath true := by
  have htidy := hclean.calls id c hc
  obtain ⟨hbefore, hname⟩ := hw.pending_path htidy.1 hp
  rw [hw.filepath hp, hname]
  rcases hbefore with hbefore | hpc
  · exact h.named id c hc hbefore
  · have hinv := htidy.2
    simp only [hpc] at hinv
    exact hinv.1

include h hclean hc hw henv in
/-- The `stat` of an upload finds the modification time of its own file. -/
lemma Linear.write_timed (hpc : c'.pc = .rename) :
    c'.IfNamed (∃ i, c'.Temp cfg sh.fs i ∧ (sh.fs.file i).mtim = c'.timestamp) := by
  intro _
  have hstat := hw.returned.2.2.2 hpc
  have hinv := (hclean.calls id c hc).2
  simp only [hstat] at hinv
  obtain ⟨i, ⟨a, ha, hai⟩, -⟩ := hinv
  have hfilepath := h.named id c hc (by simp [WriteCall.Pending, hstat])
  cases hw with
  | stat =>
    refine ⟨i, ⟨a, ha, hai⟩, ?_⟩
    simp only [statMtim, StepEnv.syscall_eq henv, hfilepath]
    rw [InodeFS.node_of_resolve ha hai]
  | _ => simp_all

include h hclean hc hw in
lemma Linear.write_timed_other (halone : OpensAlone s (.handler (.write id env))) {id₁ : ℕ} {c₁ : WriteCall}
    (hid : id₁ ≠ id)
    (hc₁ : s.writes id₁ = some c₁) (hpc : c₁.pc = .rename) :
    c₁.IfNamed (∃ i, c₁.Temp cfg sh.fs i ∧ (sh.fs.file i).mtim = c₁.timestamp) := by
  intro hnamed
  obtain ⟨i, ht, htime⟩ := h.timed id₁ c₁ hc₁ hpc hnamed
  by_cases hpath : c₁.msg.filepath = c.msg.filepath
  · rw [hclean.write_others hc hw halone hid hc₁ (by simp [WriteCall.Pending, hpc]) hpath (hpath ▸ hnamed)]
    exact ⟨i, ht, htime⟩
  · obtain ⟨ht', hfile⟩ := ht.frame (hclean.write_tree hc hw).2 ((hclean.calls id₁ c₁ hc₁).1.mem hclean.tree.layout.empty)
      fun heq => absurd heq hpath
    exact ⟨i, ht', by rw [hfile hnamed, htime]⟩

include h hc hw in
lemma Linear.write_wrote : ((x.step s (.handler (.write id env))).wrote id = true → c'.pc = .returned .OK) ∧
    c'.IfNamed (c'.pc = .returned .OK → (x.step s (.handler (.write id env))).wrote id = true) := by
  obtain ⟨hactive, hacknowledged, hrenamed, -⟩ := hw.returned
  simp only [Atomic.step, hc]
  split_ifs with hpoint
  · exact ⟨fun _ => (hrenamed hpoint.1).1, fun _ _ => Function.update_self ..⟩
  · refine ⟨fun htrue => absurd ((h.wrote id c hc).1 htrue) (hactive .OK), fun hnamed hpc => ?_⟩
    obtain ⟨hpc, hmsg⟩ := hacknowledged hpc
    exact absurd ⟨hpc, hmsg ▸ hnamed⟩ hpoint

end Write

/-- A step of an upload is a step of the store. -/
theorem Linear.write {id : ℕ} {env : StepEnv} (h : Linear cfg paths x s) (hclean : Clean cfg paths known version s)
    (halone : OpensAlone s (.handler (.write id env))) (hun : ∀ r, Undisturbed r s (.handler (.write id env)))
    (henv : env.fault = none) (hs : step cfg s (.write id env) = some s') :
    Linear cfg paths (x.step s (.handler (.write id env))) s' := by
  obtain ⟨c, sh, c', hc, hstep, rfl⟩ := write_step cfg hs
  have hw := writeStep_of_step cfg hstep
  have htree := (hclean.write_tree hc hw).1
  have hothers (id₁ : ℕ) (hid : id₁ ≠ id) : (x.step s (.handler (.write id env))).wrote id₁ = x.wrote id₁ := by
    simp only [Atomic.step, hc]
    split_ifs
    · exact Function.update_of_ne hid ..
    · rfl
  have hread : (x.step s (.handler (.write id env))).read = x.read := by
    simp only [Atomic.step, hc]
    split_ifs <;> rfl
  refine ⟨h.places.of_sameDirs htree.dirs, fun p hp hne => h.write_holds hclean hc hw henv hp hne,
    fun id₁ c₁ hc₁ hp => ?_, fun id₁ c₁ hc₁ hpc => ?_, fun id₁ c₁ hc₁ => ?_, fun id₁ hid₁ => ?_,
    by rw [hread]; exact h.unread,
    fun r d hd hne => ?_⟩
  · obtain ⟨rfl, rfl⟩ | ⟨-, hc₁⟩ := update_eq_some.mp hc₁
    · exact h.write_named hclean hc hw hp
    · exact h.named id₁ c₁ hc₁ hp
  · obtain ⟨rfl, rfl⟩ | ⟨hid, hc₁⟩ := update_eq_some.mp hc₁
    · exact h.write_timed hclean hc hw henv hpc
    · exact h.write_timed_other hclean hc hw halone hid hc₁ hpc
  · obtain ⟨rfl, rfl⟩ | ⟨hid, hc₁⟩ := update_eq_some.mp hc₁
    · exact h.write_wrote hc hw
    · rw [hothers id₁ hid]
      exact h.wrote id₁ c₁ hc₁
  · by_cases hid : id₁ = id
    · subst hid
      simp at hid₁
    · rw [hothers id₁ hid]
      exact h.fresh id₁ (by simpa [hid] using hid₁)
  · obtain ⟨hpaths, hwhole⟩ := hclean.reads r d hd
    rw [hread]
    refine (h.reads r d hd hne).frame htree.dirs
      (fun hpc => h.write_keeps hclean hc hw hpaths fun hpc' heq => hun r d hd hpc (by simp [changes, hc, hpc', heq]))
      fun hpc i hi => htree.file i ?_
    simp only [GetContentCall.Whole, hpc] at hwhole
    exact ⟨_, (hwhole.2 i hi).1⟩

end Steps

/-! ### Downloads -/

/-- One round of the read loop sends the next block. -/
lemma messages_drop (file : FileData) (pos : ℕ) : messages (some ⟨file.content.drop pos, file.mtim⟩) =
    ⟨true, file.mtim, (file.content.drop pos).take BUFSIZE⟩ :: if (file.content.drop pos).length < BUFSIZE then []
      else messages (some ⟨file.content.drop (pos + BUFSIZE), file.mtim⟩) := by
  simp only [messages]
  rw [Bytes.blocks_eq (by decide)]
  split_ifs with hshort
  · rw [List.take_of_length_le (by omega)]
    rfl
  · rw [List.map_cons, List.drop_drop]

/-- A step of a download, which takes effect at its `stat` or at the failing open. -/
theorem GetContentCall.Reading.step {fs : InodeFS} {found : Option (Option FileData)} {c c' : GetContentCall}
    {env : StepEnv}
    {v : Option FileData} (h : c.Reading cfg fs found) (hv : Holds cfg fs c.filepath v) (henv : env.Smooth)
    (hs : c.step cfg env fs = some c') : c'.filepath = c.filepath ∧
      c'.Reading cfg fs (if c.pc = .stat ∨ c.pc = .openFile ∧ v = none then some v else found) := by
  have hfault := henv.1
  have hdropped := henv.2
  unfold Reading at h
  cases hpc : c.pc with
  | openFile =>
    simp only [hpc] at h
    obtain ⟨hfound, hsent, hpos, hmsg⟩ := h
    simp only [GetContentCall.step, hpc, henv.syscall] at hs
    cases v with
    | none =>
      rw [hv.node_none] at hs
      cases hs
      refine ⟨by simp, ?_⟩
      simp [Reading, write, hdropped, hsent, hmsg, messages]
    | some file =>
      obtain ⟨b, hb, i, hi, -⟩ := hv
      rw [InodeFS.node_of_resolve hb hi] at hs
      cases hs
      exact ⟨rfl, by simpa using hfound, hsent, hpos, rfl, b, i, rfl, hb, hi⟩
  | stat =>
    simp only [hpc] at h
    obtain ⟨-, hsent, hpos, hexists, b, i, hi, hb, hbi⟩ := h
    simp only [GetContentCall.step, hpc, Option.some.injEq] at hs
    subst hs
    have hfile : v = some (fs.file i) := by
      obtain ⟨b', hb', hv⟩ := hv
      obtain rfl : b = b' := by simpa [hb] using hb'
      cases v with
      | none => simp [hbi] at hv
      | some file =>
        obtain ⟨j, hj, rfl⟩ := hv
        obtain rfl : i = j := by simpa [hbi] using hj
        rfl
    refine ⟨rfl, i, hi, by simp [hfile], hexists, ?_, ?_⟩
    · simp only [statMtim, henv.syscall]
      rw [InodeFS.node_of_resolve hb hbi]
    · simp [hsent, hpos]
  | read =>
    simp only [hpc] at h
    obtain ⟨i, hi, hfound, hexists, htime, hsent⟩ := h
    simp only [GetContentCall.step, hpc, hi, hfault, write, hdropped, Bool.or_false, Bool.false_eq_true, if_false,
      decide_eq_true_eq, Option.some.injEq] at hs
    subst hs
    set buf := ((fs.file i).content.drop c.pos).take BUFSIZE with hbuf
    have hlength : buf.length = min BUFSIZE ((fs.file i).content.drop c.pos).length := List.length_take
    rw [messages_drop, ← hbuf] at hsent
    have hmsg : ({ c.msg with b := buf } : MetaContent) = ⟨true, (fs.file i).mtim, buf⟩ := by simp [hexists, htime]
    refine ⟨rfl, ?_⟩
    by_cases hshort : ((fs.file i).content.drop c.pos).length < BUFSIZE
    · rw [if_pos hshort] at hsent
      have hend : buf.length < BUFSIZE := by omega
      simp only [Reading, hend, if_true]
      refine ⟨some (fs.file i), by simpa using hfound, ?_⟩
      rw [← hsent, hmsg]
    · rw [if_neg hshort] at hsent
      have hfull : buf.length = BUFSIZE := by omega
      simp only [Reading, hfull, lt_irrefl, if_false]
      refine ⟨i, rfl, by simpa using hfound, hexists, htime, ?_⟩
      rw [← hsent, hmsg, List.append_assoc]
      rfl
  | returned status => simp [GetContentCall.step, hpc] at hs

section Steps

variable {known : Bytes → ℕ → Prop} {version : Bytes → Bytes → Prop} {x : Atomic} {s s' : State}

/-- An event that leaves the tree and the uploads alone. -/
lemma Linear.of_reads (h : Linear cfg paths x s) {reads : ℕ → Option GetContentCall} {read : ℕ → Option (Option FileData)}
    (hunread : ∀ r, reads r = none → read r = none)
    (hreads : ∀ r c, reads r = some c → c.filepath ≠ [] → c.Reading cfg s.fs (read r)) :
    Linear cfg paths { x with read } { s with reads } :=
  ⟨h.places, h.holds, h.named, h.timed, h.wrote, h.fresh, hunread, hreads⟩

theorem Linear.getContent {id : ℕ} {env : StepEnv} (h : Linear cfg paths x s) (hclean : Clean cfg paths known version s)
    (henv : env.Smooth) (hs : step cfg s (.getContent id env) = some s') :
    Linear cfg paths (x.step s (.handler (.getContent id env))) s' := by
  simp only [Server.step, Option.bind_eq_some_iff, Option.map_eq_some_iff] at hs
  obtain ⟨c, hc, c', hstep, rfl⟩ := hs
  have hx : x.step s (.handler (.getContent id env)) = { x with
      read := Function.update x.read id
        (if c.pc = .stat ∨ c.pc = .openFile ∧ x.store c.filepath = none then some (x.store c.filepath)
          else x.read id) } := by
    simp only [Atomic.step, hc]
    split_ifs
    · rfl
    · rw [Function.update_eq_self]
  rw [hx]
  refine h.of_reads (fun r hr => ?_) fun r d hd hne => ?_
  · have hne : r ≠ id := by
      rintro rfl
      simp at hr
    rw [Function.update_of_ne hne] at hr ⊢
    exact h.unread r hr
  obtain ⟨rfl, rfl⟩ | ⟨hr, hd⟩ := update_eq_some.mp hd
  · have hname : d.filepath = c.filepath := (readStep_of_step cfg hstep).filepath
    rw [hname] at hne
    have hholds := h.holds _ (hclean.reads r c hc).1 hne
    rw [Function.update_self]
    exact ((h.reads r c hc hne).step hholds henv hstep).2
  · rw [Function.update_of_ne hr]
    exact h.reads r d hd hne

/-- A removal is a removal from the store. -/
theorem Linear.unlink {filepath : Bytes} {env : StepEnv} (h : Linear cfg paths x s)
    (hclean : Clean cfg paths known version s)
    (hpath : filepath ∈ paths) (hun : ∀ r, Undisturbed r s (.handler (.unlink filepath env))) (henv : env.fault = none) :
    Linear cfg paths (x.step s (.handler (.unlink filepath env))) { s with fs := (Unlink cfg env filepath s.fs).1 } := by
  have hstore {p : Bytes} (hp : p ∈ paths) (hne : p ≠ []) (hfs : (Unlink cfg env filepath s.fs).1 = s.fs) :
      Holds cfg s.fs p (Function.update x.store filepath none p) := by
    by_cases heq : p = filepath
    · subst heq
      rcases (h.holds p hp hne).unlink henv with ⟨-, ⟨-, hnone⟩ | ⟨b, i, hb, hbi, hremoved⟩⟩
      · rw [Function.update_self, ← hnone]
        exact h.holds p hp hne
      · rw [hfs] at hremoved
        have hlookup := congrArg (fun fs => fs.entries.lookup b) hremoved
        simp [InodeFS.lookup_remove, hbi] at hlookup
    · rw [Function.update_of_ne heq]
      exact h.holds p hp hne
  rcases unlink_cases cfg filepath env s.fs with hfs | ⟨b, i, hb, hbi, hfs⟩
  · rw [hfs]
    exact ⟨h.places, fun p hp hne => hstore hp hne hfs, h.named, h.timed, h.wrote, h.fresh, h.unread, h.reads⟩
  · rw [hfs]
    have hdirs := InodeFS.sameDirs_remove hbi
    have hkeep {p : Bytes} (hp : p ∈ paths) (hne : p ≠ filepath) (b' : Slot)
        (hb' : s.fs.resolve (getServerFilepath cfg p false) = .ok (.entry b')) : s.fs.KeepsSlot (s.fs.remove b) b' := by
      apply InodeFS.keepsSlot_remove
      rintro rfl
      exact hne (h.places.places p hp filepath hpath ⟨b', hb', hb⟩)
    refine ⟨h.places.of_sameDirs hdirs, fun p hp hne => ?_, h.named, fun id c hc hpc hnamed => ?_, h.wrote, h.fresh,
      h.unread, fun r d hd hne => ?_⟩
    · change Holds cfg _ p (Function.update x.store filepath none p)
      by_cases heq : p = filepath
      · subst heq
        rw [Function.update_self]
        exact ⟨b, hdirs.resolve hb, by simp [InodeFS.lookup_remove]⟩
      · rw [Function.update_of_ne heq]
        exact (h.holds p hp hne).keep hdirs (hkeep hp heq)
    · obtain ⟨j, ht, htime⟩ := h.timed id c hc hpc hnamed
      obtain ⟨ht', -⟩ := ht.frame (elsewhere_remove hclean.tree.layout hpath hb hbi [])
        ((hclean.calls id c hc).1.mem hclean.tree.layout.empty) fun _ => rfl
      exact ⟨j, ht', htime⟩
    · have hstill (hpc : d.pc = .stat) : d.filepath ≠ filepath := fun heq => hun r d hd hpc (by simp [changes, heq])
      exact (h.reads r d hd hne).frame hdirs (fun hpc => hkeep (hclean.reads r d hd).1 (hstill hpc)) fun _ _ _ => rfl

/-- Every event is a step of the store. -/
theorem Linear.step {e : LifeEvent} (h : Linear cfg paths x s) (hclean : Clean cfg paths known version s)
    (he : OnPaths paths e) (halone : OpensAlone s e) (hun : ∀ r, Undisturbed r s e) (hsmooth : e.Smooth)
    (hs : lifeStep cfg s e = some s') : Linear cfg paths (x.step s e) s' := by
  cases e with
  | restart =>
    rw [lifeStep, hclean.tree.layout.boot, Option.some.injEq] at hs
    subst hs
    exact ⟨h.places, h.holds, by simp [State.idle], by simp [State.idle], by simp [State.idle], fun _ _ => rfl,
      fun _ _ => rfl, by simp [State.idle]⟩
  | handler e =>
    cases e with
    | write id env => exact h.write hclean halone hun hsmooth hs
    | getContent id env => exact h.getContent hclean hsmooth hs
    | unlink filepath env =>
      cases hs
      exact h.unlink hclean he hun hsmooth
    | rmdir filepath env => exact he.elim
    | mkdir filepath env => exact he.elim
    | startGetContent id filepath =>
      simp only [lifeStep, Server.step] at hs
      split_ifs at hs with hid
      cases hs
      refine h.of_reads (fun r hr => ?_) fun r d hd hne => ?_
      · apply h.unread r
        by_cases hne : r = id
        · rw [hne]
          exact hid
        · simpa [hne] using hr
      · obtain ⟨rfl, rfl⟩ | ⟨-, hd⟩ := update_eq_some.mp hd
        · exact ⟨h.unread _ hid, rfl, rfl, rfl⟩
        · exact h.reads r d hd hne
    | startWrite id stream =>
      simp only [lifeStep, Server.step] at hs
      split_ifs at hs with hid
      cases hs
      refine ⟨h.places, h.holds, fun id₁ c₁ hc₁ hp => ?_, fun id₁ c₁ hc₁ hpc => ?_, fun id₁ c₁ hc₁ => ?_,
        fun id₁ hid₁ => ?_, h.unread, h.reads⟩
      · obtain ⟨rfl, rfl⟩ | ⟨-, hc₁⟩ := update_eq_some.mp hc₁
        · simp [WriteCall.Pending, WriteCall.start] at hp
        · exact h.named id₁ c₁ hc₁ hp
      · obtain ⟨rfl, rfl⟩ | ⟨-, hc₁⟩ := update_eq_some.mp hc₁
        · simp [WriteCall.start] at hpc
        · exact h.timed id₁ c₁ hc₁ hpc
      · obtain ⟨rfl, rfl⟩ | ⟨-, hc₁⟩ := update_eq_some.mp hc₁
        · exact ⟨fun htrue => by simp [Atomic.step, h.fresh _ hid] at htrue, fun _ hpc => by simp [WriteCall.start] at hpc⟩
        · exact h.wrote id₁ c₁ hc₁
      · apply h.fresh id₁
        by_cases hne : id₁ = id
        · rw [hne]
          exact hid
        · simpa [hne] using hid₁
    | cancel id =>
      simp only [lifeStep, Server.step, Option.map_eq_some_iff] at hs
      obtain ⟨c, hc, rfl⟩ := hs
      refine ⟨h.places, h.holds, fun id₁ c₁ hc₁ hp => ?_, fun id₁ c₁ hc₁ hpc => ?_, fun id₁ c₁ hc₁ => ?_,
        fun id₁ hid₁ => ?_, h.unread, h.reads⟩
      · obtain ⟨rfl, rfl⟩ | ⟨-, hc₁⟩ := update_eq_some.mp hc₁
        · exact h.named _ c hc hp
        · exact h.named id₁ c₁ hc₁ hp
      · obtain ⟨rfl, rfl⟩ | ⟨-, hc₁⟩ := update_eq_some.mp hc₁
        · exact h.timed _ c hc hpc
        · exact h.timed id₁ c₁ hc₁ hpc
      · obtain ⟨rfl, rfl⟩ | ⟨-, hc₁⟩ := update_eq_some.mp hc₁
        · exact h.wrote _ c hc
        · exact h.wrote id₁ c₁ hc₁
      · apply h.fresh id₁
        by_cases hne : id₁ = id
        · subst hne
          simp at hid₁
        · simpa [hne] using hid₁

/-- A whole run is a run of the store. -/
theorem Linear.run {es : List LifeEvent} (h : Linear cfg paths x s) (hclean : Clean cfg paths known version s)
    (hpaths : ∀ e ∈ es, OnPaths paths e) (halone : OpensAloneRun cfg s es) (hun : ∀ r, UndisturbedRun cfg r s es)
    (hsmooth : ∀ e ∈ es, e.Smooth) (hrun : lifeRun cfg s es = some s') :
    Linear cfg paths (x.run cfg s es) s' ∧ ∃ known' version', Clean cfg paths known' version' s' := by
  induction es generalizing s x known version with
  | nil =>
    cases hrun
    exact ⟨h, known, version, hclean⟩
  | cons e es ih =>
    obtain ⟨s₁, hs₁, hrun⟩ := Option.bind_eq_some_iff.mp hrun
    have hclean₁ := (hclean.step (hpaths e (by simp)) halone.1 hs₁).2
    have h₁ := h.step hclean (hpaths e (by simp)) halone.1 (fun r => (hun r).1) (hsmooth e (by simp)) hs₁
    rw [Atomic.run, hs₁]
    exact ih h₁ hclean₁ (fun e he => hpaths e (by simp [he])) (halone.2 s₁ hs₁) (fun r => (hun r).2 s₁ hs₁)
      (fun e he => hsmooth e (by simp [he])) hrun

end Steps

lemma linear_idle {fs : InodeFS} {store : Store} (hplaces : Exports cfg paths fs)
    (hholds : ∀ p ∈ paths, p ≠ [] → Holds cfg fs p (store p)) : Linear cfg paths { store } (.idle fs) :=
  ⟨hplaces, hholds, by simp [State.idle], by simp [State.idle], by simp [State.idle], fun _ _ => rfl, fun _ _ => rfl,
    by simp [State.idle]⟩

variable (cfg paths) in
/-- Side by side with other calls, each call does what it would do alone at one moment of its own: an upload is
in the store exactly if it is acknowledged, a download delivers what the store held, with its time, and the
calls that make one system call answer from the store. -/
theorem linearizable (fs : InodeFS) (store : Store) (es : List LifeEvent) (s : State) (hplaces : Exports cfg paths fs)
    (hholds : ∀ p ∈ paths, p ≠ [] → Holds cfg fs p (store p)) (hpaths : ∀ e ∈ es, OnPaths paths e)
    (halone : OpensAloneRun cfg (.idle fs) es) (hun : ∀ r, UndisturbedRun cfg r (.idle fs) es)
    (hsmooth : ∀ e ∈ es, e.Smooth) (hrun : lifeRun cfg (.idle fs) es = some s) :
    (∀ p ∈ paths, p ≠ [] → Holds cfg s.fs p ((Atomic.run cfg (.idle fs) { store } es).store p)) ∧
    (∀ id c, s.writes id = some c → c.msg.filepath ≠ [] →
      ((Atomic.run cfg (.idle fs) { store } es).wrote id = true ↔ c.pc = .returned .OK)) ∧
    (∀ r c status, s.reads r = some c → c.filepath ≠ [] → c.pc = .returned status →
      ∃ v, (Atomic.run cfg (.idle fs) { store } es).read r = some v ∧ c.sent = messages v) ∧
    ∀ p ∈ paths, p ≠ [] → ∀ env sb, StepEnv.fault env = none →
      Stat cfg env sb p s.fs = statAnswer sb ((Atomic.run cfg (.idle fs) { store } es).store p) ∧
      (Unlink cfg env p s.fs).2 = unlinkAnswer ((Atomic.run cfg (.idle fs) { store } es).store p) := by
  obtain ⟨h, -⟩ := (linear_idle hplaces hholds).run (clean_idle hplaces.toLayout) hpaths halone hun hsmooth hrun
  refine ⟨h.holds, fun id c hc hne => ⟨(h.wrote id c hc).1, (h.wrote id c hc).2 hne⟩, fun r c status hc hne hpc => ?_,
    fun p hp hne env sb henv => ⟨(h.holds p hp hne).stat henv sb, ((h.holds p hp hne).unlink henv).1⟩⟩
  have hread := h.reads r c hc hne
  simp only [GetContentCall.Reading, hpc] at hread
  exact hread

/-- A download that does not arrive is not disturbed. -/
lemma undisturbedRun_of_absent {r : ℕ} {s : State} {es : List LifeEvent} (hr : s.reads r = none)
    (hes : ∀ filepath, .handler (.startGetContent r filepath) ∉ es) : UndisturbedRun cfg r s es := by
  induction es generalizing s with
  | nil => trivial
  | cons e es ih =>
    refine ⟨fun d hd => by simp [hr] at hd, fun s' hs' => ih ?_ fun filepath hmem => hes filepath (by simp [hmem])⟩
    cases e with
    | restart =>
      simp only [lifeStep, boot, Option.bind_eq_some_iff, Option.map_eq_some_iff] at hs'
      obtain ⟨-, -, -, -, rfl⟩ := hs'
      rfl
    | handler e =>
      rcases reads_step cfg (r := r) hs' with ⟨heq, -⟩ | ⟨filepath, rfl, -⟩ | ⟨env, c, c', -, hc, -⟩
      · rw [heq]
        exact hr
      · exact absurd (by simp) (hes filepath)
      · rw [hr] at hc
        cases hc

/-- A file is uploaded; after a restart another upload replaces it while a download is under way. -/
def overtaken : List LifeEvent :=
  .handler (.startWrite 0 [⟨Bytes.ascii "/f", Bytes.ascii "a"⟩]) :: List.replicate 10 (.handler (.write 0 (.quiet 1))) ++
    .restart :: .handler (.startWrite 0 [⟨Bytes.ascii "/f", Bytes.ascii "b"⟩]) ::
    List.replicate 9 (.handler (.write 0 (.quiet 2))) ++
    .handler (.startGetContent 0 (Bytes.ascii "/f")) :: List.replicate 2 (.handler (.getContent 0 (.quiet 3))) ++
    [.handler (.write 0 (.quiet 4)), .handler (.getContent 0 (.quiet 5))]

lemma exports_example : Exports livesConfig {[], Bytes.ascii "/f"} livesState.fs where
  toLayout := layout_example
  temp := by rintro p (rfl | rfl) <;> decide
  places := by
    rintro p (rfl | rfl) q (rfl | rfl) ⟨b, hp, hq⟩
    · rfl
    · exact absurd hp (resolve_target_nil _ (by decide) b)
    · exact absurd hq (resolve_target_nil _ (by decide) b)
    · rfl

/-- The download gets the first version and its time, the path has the second. -/
theorem linearizable_overtaken : ∃ s c, lifeRun livesConfig (.idle livesState.fs) overtaken = some s ∧ s.reads 0 = some c ∧
    c.sent = messages (some ⟨Bytes.ascii "a", List.replicate 16 1⟩) ∧
      Holds livesConfig s.fs (Bytes.ascii "/f") (some ⟨Bytes.ascii "b", List.replicate 16 2⟩) := by
  have hrun : ∃ s, lifeRun livesConfig (.idle livesState.fs) overtaken = some s ∧
      ∃ c, s.reads 0 = some c ∧ c.filepath = Bytes.ascii "/f" ∧ c.pc = .returned .OK := by
    decide +kernel
  obtain ⟨s, hs, c, hc, hpath, hpc⟩ := hrun
  have hatomic :
      (Atomic.run livesConfig (.idle livesState.fs) { store := fun _ => none } overtaken).store (Bytes.ascii "/f") =
      some ⟨Bytes.ascii "b", List.replicate 16 2⟩ ∧
      (Atomic.run livesConfig (.idle livesState.fs) { store := fun _ => none } overtaken).read 0 =
        some (some ⟨Bytes.ascii "a", List.replicate 16 1⟩) := by
    decide +kernel
  have hholds : ∀ p ∈ ({[], Bytes.ascii "/f"} : Set Bytes), p ≠ [] → Holds livesConfig livesState.fs p none := by
    rintro p (rfl | rfl) hne
    · exact absurd rfl hne
    · exact ⟨(2, Bytes.ascii "f"), by decide, by decide⟩
  have hun (r : ℕ) : UndisturbedRun livesConfig r (.idle livesState.fs) overtaken := by
    by_cases hr : r = 0
    · subst hr
      decide +kernel
    · exact undisturbedRun_of_absent rfl fun filepath => by simp [overtaken, hr]
  have hid : ∀ id stream, .handler (.startWrite id stream) ∈ overtaken → id = 0 := by
    intro id stream h
    simp [overtaken] at h
    omega
  obtain ⟨htree, -, hreads, -⟩ := linearizable livesConfig {[], Bytes.ascii "/f"} livesState.fs (fun _ => none) overtaken s
    exports_example hholds (by simp [overtaken, OnPaths]) (opensAloneRun_of_id hid (by simp [State.idle])) hun
    (by simp [overtaken, LifeEvent.Smooth, StepEnv.smooth_quiet, (StepEnv.smooth_quiet _).1]) hs
  obtain ⟨v, hv, hsent⟩ := hreads 0 c .OK hc (by rw [hpath]; decide) hpc
  rw [hatomic.2, Option.some.injEq] at hv
  refine ⟨s, c, hs, hc, by rw [hsent, ← hv], ?_⟩
  rw [← hatomic.1]
  exact htree _ (by simp) (by decide)

end AFSv1.Server
