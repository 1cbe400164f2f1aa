import AFSv1.Server.Lives

/-! Readers see whole versions: no file that ever was at a path is written to again, so each is one published
version from the first byte to the last, whatever is cancelled, removed, killed or started again. -/
namespace AFSv1.Server
open Foundations Tables

variable {cfg : Config} {paths : Set Bytes}

/-! ### One upload -/

variable (cfg) in
/-- The temporary name of the call denotes the file `i`. -/
def WriteCall.Temp (fs : InodeFS) (c : WriteCall) (i : ℕ) : Prop :=
  ∃ a, fs.resolve (getServerFilepath cfg c.msg.filepath true) = .ok (.entry a) ∧ fs.entries.lookup a = some (.file i)

variable (paths) in
/-- The stream is about one path, which the message read last has unless there was none. -/
def WriteCall.About (c : WriteCall) : Prop :=
  ∃ p ∈ paths, (∀ msg ∈ c.incoming, msg.filepath = p) ∧
    (c.msg.filepath = p ∨ c.msg.filepath = [] ∧ (c.ended = true ∨ c.pc = .readFirst))

/-- Calls without a path have nothing to publish. -/
def WriteCall.IfNamed (c : WriteCall) (P : Prop) : Prop := c.msg.filepath ≠ [] → P

variable (cfg paths) in
/-- What holds of a call in each state of its program, if no other call on its path has come in between. -/
def WriteCall.Tidy (fs : InodeFS) (c : WriteCall) : Prop :=
  c.About paths ∧ match c.pc with
  | .readFirst => c.incoming = c.stream ∧ c.msg = {}
  | .lock | .openTemp => c.filepath = getServerFilepath cfg c.msg.filepath true ∧
      c.IfNamed (c.ended = false ∧ c.msg.b ++ c.incoming.flatMap FilepathContent.b = c.content)
  | .append => ∃ i, c.file = some i ∧ c.Temp cfg fs i ∧
      c.IfNamed (c.ended = false ∧ (fs.file i).content ++ c.msg.b ++ c.incoming.flatMap FilepathContent.b = c.content)
  | .read => ∃ i, c.file = some i ∧ c.Temp cfg fs i ∧
      c.IfNamed (c.ended = false ∧ (fs.file i).content ++ c.incoming.flatMap FilepathContent.b = c.content)
  | .close => ∃ i, c.file = some i ∧ c.Temp cfg fs i ∧
      c.IfNamed (c.cancelled = true ∨ (fs.file i).content = c.content)
  | .unlock | .checkCancelled => ∃ i, c.Temp cfg fs i ∧
      c.IfNamed (c.cancelled = true ∨ (fs.file i).content = c.content)
  | .stat | .rename => ∃ i, c.Temp cfg fs i ∧ c.IfNamed ((fs.file i).content = c.content)
  | .returned _ => True

variable {fs fs' : InodeFS} {c c' : WriteCall} {p : Bytes}

lemma WriteCall.About.mem (h : c.About paths) (hempty : [] ∈ paths) : c.msg.filepath ∈ paths := by
  obtain ⟨p, hp, -, hname | ⟨hname, -⟩⟩ := h <;> rw [hname] <;> assumption

lemma WriteCall.About.moved (h : c.About paths) (hpc : c.pc ≠ .readFirst) (hincoming : c'.incoming = c.incoming)
    (hmsg : c'.msg = c.msg) (hended : c.ended = true → c'.ended = true) : c'.About paths := by
  obtain ⟨p, hp, hnames, hname⟩ := h
  refine ⟨p, hp, by rwa [hincoming], ?_⟩
  rw [hmsg]
  exact hname.imp_right fun h => ⟨h.1, .inl (hended (h.2.resolve_right hpc))⟩

/-- Steps elsewhere leave a call's file alone, or at least in place if the call has no path. -/
lemma WriteCall.Temp.frame {i : ℕ} (h : c.Temp cfg fs i) (he : Elsewhere cfg paths p fs fs') (hmem : c.msg.filepath ∈ paths)
    (hne : c.msg.filepath = p → p = []) : c.Temp cfg fs' i ∧ c.IfNamed (fs'.file i = fs.file i) := by
  obtain ⟨a, ha, hai⟩ := h
  obtain ⟨hkept, hempty⟩ := he.kept _ hmem a i ha hai
  by_cases hp : c.msg.filepath = p
  · have hnil : c.msg.filepath = [] := hp.trans (hne hp)
    exact ⟨⟨a, he.dirs.resolve ha, hempty hnil⟩, fun hnamed => absurd hnil hnamed⟩
  · exact ⟨⟨a, he.dirs.resolve ha, (hkept hp).1⟩, fun _ => (hkept hp).2⟩

/-- A call is not disturbed by steps elsewhere. -/
theorem WriteCall.Tidy.frame (h : c.Tidy cfg paths fs) (he : Elsewhere cfg paths p fs fs') (hempty : [] ∈ paths)
    (hne : c.Pending → c.msg.filepath = p → p = []) : c.Tidy cfg paths fs' := by
  have hmem := h.1.mem hempty
  have hframe {i : ℕ} (Q : Bytes → Prop) (hp : c.Pending) (ht : c.Temp cfg fs i) (hc : c.IfNamed (Q (fs.file i).content)) :
      c.Temp cfg fs' i ∧ c.IfNamed (Q (fs'.file i).content) := by
    obtain ⟨ht', hfile⟩ := ht.frame he hmem (hne hp)
    exact ⟨ht', fun hnamed => by rw [hfile hnamed]; exact hc hnamed⟩
  refine ⟨h.1, ?_⟩
  have h := h.2
  split at h
  · exact h
  · exact h
  · exact h
  · rename_i hpc
    obtain ⟨i, hi, ht, hc⟩ := h
    exact ⟨i, hi, hframe (fun b => c.ended = false ∧ b ++ c.msg.b ++ _ = c.content) (by simp [Pending, hpc]) ht hc⟩
  · rename_i hpc
    obtain ⟨i, hi, ht, hc⟩ := h
    exact ⟨i, hi, hframe (fun b => c.ended = false ∧ b ++ _ = c.content) (by simp [Pending, hpc]) ht hc⟩
  · rename_i hpc
    obtain ⟨i, hi, ht, hc⟩ := h
    exact ⟨i, hi, hframe (fun b => _ ∨ b = c.content) (by simp [Pending, hpc]) ht hc⟩
  all_goals first
    | trivial
    | rename_i hpc
      obtain ⟨i, ht, hc⟩ := h
      first
        | exact ⟨i, hframe (fun b => _ ∨ b = c.content) (by simp [Pending, hpc]) ht hc⟩
        | exact ⟨i, hframe (fun b => b = c.content) (by simp [Pending, hpc]) ht hc⟩

/-- A cancellation sets a flag only. -/
lemma WriteCall.Tidy.cancel (h : c.Tidy cfg paths fs) : ({ c with cancelled := true } : WriteCall).Tidy cfg paths fs := by
  refine ⟨h.1, ?_⟩
  have h := h.2
  cases hpc : c.pc with
  | close =>
    simp only [hpc] at h ⊢
    obtain ⟨i, hi, ht, -⟩ := h
    exact ⟨i, hi, ht, fun _ => .inl trivial⟩
  | unlock | checkCancelled =>
    simp only [hpc] at h ⊢
    obtain ⟨i, ht, -⟩ := h
    exact ⟨i, ht, fun _ => .inl trivial⟩
  | _ => simp only [hpc] at h ⊢ <;> exact h

/-- A step leaves the known files and the other calls' files alone and keeps its call tidy. -/
theorem WriteStep.tidy {known : ℕ → Prop} {version : Bytes → Bytes → Prop} {id : ℕ} {env : StepEnv} {sh sh' : Shared}
    (hw : WriteStep cfg id env sh c sh' c') (h : c.Tidy cfg paths sh.fs) (hlayout : Layout cfg paths sh.fs)
    (hsealed : Sealed cfg paths known sh.fs) (hversion : c.pc = .rename →
      (∃ fs, env.syscall (sh.fs.rename (getServerFilepath cfg c.msg.filepath true)
        (getServerFilepath cfg c.msg.filepath false)) = .ok fs) →
      ∀ q, SamePlace cfg sh.fs c.msg.filepath q → version q c.content) :
    TreeStep cfg paths known version sh.fs sh'.fs ∧ Elsewhere cfg paths c.msg.filepath sh.fs sh'.fs ∧
      c'.Tidy cfg paths sh'.fs := by
  have hmem := h.1.mem hlayout.empty
  obtain ⟨p, hp, hincoming, hname⟩ := h.1
  have hinv := h.2
  have hsame (ht : c'.Tidy cfg paths sh.fs) : TreeStep cfg paths known version sh.fs sh.fs ∧
      Elsewhere cfg paths c.msg.filepath sh.fs sh.fs ∧ c'.Tidy cfg paths sh.fs := ⟨hsealed.refl, .refl _ _, ht⟩
  cases hw with
  | readFirst hpc msg incoming hnext =>
    simp only [hpc] at hinv
    obtain ⟨-, hcons⟩ := nextMsg_eq_some hnext
    have hmsg := hincoming msg (by simp [hcons])
    refine hsame ⟨⟨p, hp, fun m hm => hincoming m (by simp [hcons, hm]), .inl hmsg⟩, by simp [hmsg], fun _ => ?_⟩
    obtain ⟨hended, -⟩ := nextMsg_eq_some hnext
    refine ⟨hended, ?_⟩
    rw [WriteCall.content, ← hinv.1, hcons, List.flatMap_cons]
  | readNone hpc hnext =>
    simp only [hpc] at hinv
    have hnil : c.msg.filepath = [] := by rw [hinv.2]
    exact hsame ⟨⟨p, hp, hincoming, .inr ⟨hnil, .inl rfl⟩⟩, rfl, fun hne => absurd hnil hne⟩
  | lock hpc hfree =>
    simp only [hpc] at hinv
    exact hsame ⟨h.1.moved (by simp [hpc]) rfl rfl fun h => h, hinv⟩
  | openTemp hpc i fs hopen =>
    simp only [hpc] at hinv
    obtain ⟨hfilepath, hrest⟩ := hinv
    obtain ⟨-, hopen⟩ := StepEnv.syscall_eq_ok.mp hopen
    rw [hfilepath] at hopen
    obtain ⟨a, -, ha, hai, hempty⟩ := InodeFS.openTrunc_slot hopen
    have hdirs := InodeFS.sameDirs_openTrunc hopen
    have ht : ({ c with file := some i, pc := .append } : WriteCall).Tidy cfg paths fs := by
      refine ⟨h.1.moved (by simp [hpc]) rfl rfl fun h => h, i, rfl, ⟨a, ha, hai⟩, ?_⟩
      intro hne
      rw [hempty]
      exact hrest hne
    obtain ⟨b, hb, ⟨hbi, rfl⟩ | ⟨hvacant, rfl, rfl⟩⟩ := InodeFS.openTrunc_eq_ok hopen
    · have hfile (j : ℕ) (hj : j ≠ i) := sh.fs.write_file_ne hj ⟨[], env.now⟩
      exact ⟨treeStep_content hsealed hmem hb hbi hdirs rfl rfl hfile,
        elsewhere_content hlayout hmem hb hbi hdirs rfl hfile, ht⟩
    · exact ⟨treeStep_create hsealed hlayout hmem hb hvacant _, elsewhere_create hvacant _, ht⟩
  | openFailed hpc => exact hsame ⟨h.1.moved (by simp [hpc]) rfl rfl fun h => h, trivial⟩
  | append hpc i hfile =>
    simp only [hpc] at hinv
    obtain ⟨j, hj, ⟨a, ha, hai⟩, hrest⟩ := hinv
    obtain rfl : i = j := by simpa [hfile] using hj
    have hdirs := InodeFS.sameDirs_append sh.fs i c.msg.b env.now
    have hentries := sh.fs.append_entries i c.msg.b env.now
    have hothers (j : ℕ) (hj : j ≠ i) := sh.fs.append_file_ne hj c.msg.b env.now
    have hnext : (sh.fs.append i c.msg.b env.now).next = sh.fs.next := by
      unfold InodeFS.append
      split_ifs <;> rfl
    refine ⟨treeStep_content hsealed hmem ha hai hdirs hnext hentries hothers,
      elsewhere_content hlayout hmem ha hai hdirs hentries hothers,
      h.1.moved (by simp [hpc]) rfl rfl fun h => h, i, hfile,
      ⟨a, hdirs.resolve ha, by rw [hentries]; exact hai⟩, fun hne => ?_⟩
    rw [InodeFS.append_content]
    exact hrest hne
  | appendNone hpc hfile =>
    simp only [hpc] at hinv
    obtain ⟨i, hi, -⟩ := hinv
    rw [hfile] at hi
    cases hi
  | read hpc msg incoming hnext =>
    simp only [hpc] at hinv
    obtain ⟨i, hi, ⟨a, ha, hai⟩, hrest⟩ := hinv
    obtain ⟨hended, hcons⟩ := nextMsg_eq_some hnext
    have hmsg : msg.filepath = p := hincoming msg (by simp [hcons])
    have hpath : c.msg.filepath = p := hname.resolve_right (by simp [hended, hpc])
    refine hsame ⟨⟨p, hp, fun m hm => hincoming m (by simp [hcons, hm]), .inl hmsg⟩, i, hi, ⟨a, ?_, hai⟩, fun hne => ?_⟩
    · rw [hmsg, ← hpath]
      exact ha
    · obtain ⟨-, hcontent⟩ := hrest (by rw [hpath, ← hmsg]; exact hne)
      rw [hcons, List.flatMap_cons, ← List.append_assoc] at hcontent
      exact ⟨hended, hcontent⟩
  | readEnd hpc hnext =>
    simp only [hpc] at hinv
    obtain ⟨i, hi, ht, hrest⟩ := hinv
    refine hsame ⟨h.1.moved (by simp [hpc]) rfl rfl fun _ => rfl, i, hi, ht, fun hne => ?_⟩
    obtain ⟨hended, hcontent⟩ := hrest hne
    rcases (nextMsg_eq_none hnext).resolve_left (by simp [hended]) with hnil | hcancelled
    · rw [hnil, List.flatMap_nil, List.append_nil] at hcontent
      exact .inr hcontent
    · exact .inl hcancelled
  | close hpc =>
    simp only [hpc] at hinv
    obtain ⟨i, -, ht, hrest⟩ := hinv
    exact hsame ⟨h.1.moved (by simp [hpc]) rfl rfl fun h => h, i, ht, hrest⟩
  | unlock hpc =>
    simp only [hpc] at hinv
    exact hsame ⟨h.1.moved (by simp [hpc]) rfl rfl fun h => h, hinv⟩
  | refuse hpc hcancelled =>
    exact hsame ⟨h.1.moved (by simp [hpc]) rfl rfl fun h => h, trivial⟩
  | proceed hpc hcancelled =>
    simp only [hpc] at hinv
    obtain ⟨i, ht, hrest⟩ := hinv
    refine hsame ⟨h.1.moved (by simp [hpc]) rfl rfl fun h => h, i, ht, fun hne => ?_⟩
    exact (hrest hne).resolve_left (by simp [hcancelled])
  | stat hpc =>
    simp only [hpc] at hinv
    exact hsame ⟨h.1.moved (by simp [hpc]) rfl rfl fun h => h, hinv⟩
  | renamed hpc fs hok =>
    simp only [hpc] at hinv
    obtain ⟨i, ⟨a, ha, hai⟩, hrest⟩ := hinv
    have hversion' := hversion hpc ⟨fs, hok⟩
    obtain ⟨-, hren⟩ := StepEnv.syscall_eq_ok.mp hok
    obtain ⟨b, hb, hdir, rfl⟩ := (InodeFS.rename_file_eq_ok ha hai).mp hren
    have hnamed : c.msg.filepath ≠ [] := by
      intro hnil
      rw [hnil] at hb
      exact resolve_target_nil cfg hlayout.root b hb
    rw [← hrest hnamed] at hversion'
    exact ⟨treeStep_move hsealed hlayout hmem hai hb hdir hversion', elsewhere_move hlayout hmem ha hai hb hdir,
      h.1.moved (by simp [hpc]) rfl rfl fun h => h, trivial⟩
  | renameFailed hpc hfail =>
    exact hsame ⟨h.1.moved (by simp [hpc]) rfl rfl fun h => h, trivial⟩

/-! ### One download -/

/-- The client has received the file that is open up to the position, or to where a message was lost. -/
def GetContentCall.Whole (known : ℕ → Prop) (fs : InodeFS) (c : GetContentCall) : Prop :=
  match c.pc with
  | .openFile => c.eof = false ∧ c.sent = [] ∧ c.pos = 0
  | .stat | .read => c.eof = false ∧ ∀ i, c.file = some (.file i) →
      known i ∧ c.sent.flatMap MetaContent.b = (fs.file i).content.take c.pos
  | .returned _ => c.eof = true → ∃ i, known i ∧
      ((c.sent.flatMap MetaContent.b).length = c.pos → c.sent.flatMap MetaContent.b = (fs.file i).content)

@[simp] lemma GetContentCall.write_filepath (c : GetContentCall) (env : StepEnv) :
    (c.write env).filepath = c.filepath := by
  unfold write
  split <;> rfl

@[simp] lemma GetContentCall.write_eof (c : GetContentCall) (env : StepEnv) : (c.write env).eof = c.eof := by
  unfold write
  split <;> rfl

lemma GetContentCall.Whole.frame {known known' : ℕ → Prop} {c : GetContentCall} (h : c.Whole known fs)
    (hknown : ∀ i, known i → known' i) (hfile : ∀ i, known i → fs'.file i = fs.file i) : c.Whole known' fs' := by
  unfold Whole at h ⊢
  split at h
  · exact h
  · refine ⟨h.1, fun i hi => ?_⟩
    obtain ⟨hk, hsent⟩ := h.2 i hi
    exact ⟨hknown i hk, by rw [hfile i hk]; exact hsent⟩
  · refine ⟨h.1, fun i hi => ?_⟩
    obtain ⟨hk, hsent⟩ := h.2 i hi
    exact ⟨hknown i hk, by rw [hfile i hk]; exact hsent⟩
  · intro heof
    obtain ⟨i, hk, hsent⟩ := h heof
    exact ⟨i, hknown i hk, by rw [hfile i hk]; exact hsent⟩

lemma GetContentCall.Whole.step {known : ℕ → Prop} {c c' : GetContentCall} {env : StepEnv} (h : c.Whole known fs)
    (hknown : ∀ i, fs.node (getServerFilepath cfg c.filepath false) = .ok (.file i) → known i)
    (hs : c.step cfg env fs = some c') : c'.filepath = c.filepath ∧ c'.Whole known fs := by
  unfold GetContentCall.step at hs
  unfold Whole at h
  split at hs
  · rename_i hpc
    simp only [hpc] at h
    obtain ⟨heof, hsent, hpos⟩ := h
    dsimp only at hs
    split at hs
    · rename_i node hnode
      cases hs
      refine ⟨rfl, heof, fun i hi => ?_⟩
      cases hi
      exact ⟨hknown i (StepEnv.syscall_eq_ok.mp hnode).2, by simp [hsent, hpos]⟩
    · cases hs
      exact ⟨by simp, fun h => by simp [heof] at h⟩
  · rename_i hpc
    simp only [hpc] at h
    cases hs
    exact ⟨rfl, h⟩
  · rename_i hpc
    simp only [hpc] at h
    obtain ⟨heof, h⟩ := h
    split at hs
    · rename_i i hfile _
      obtain ⟨hk, hsent⟩ := h i hfile
      set content := (fs.file i).content with hcontent
      set buf := (content.drop c.pos).take BUFSIZE with hbuf
      have htake : content.take c.pos ++ buf = content.take (c.pos + buf.length) := by
        rw [List.take_add, hbuf]
        simp
      have hend (hshort : buf.length < BUFSIZE) : content.take (c.pos + buf.length) = content := by
        apply List.take_of_length_le
        rw [hbuf, List.length_take, List.length_drop] at hshort ⊢
        omega
      dsimp only at hs
      cases hd : env.dropped with
      | false =>
        simp only [write, hd, Bool.or_false, Bool.false_eq_true, if_false, decide_eq_true_eq, Option.some.injEq] at hs
        subst hs
        refine ⟨rfl, ?_⟩
        by_cases hshort : buf.length < BUFSIZE
        · simp only [Whole, hshort, if_true]
          refine fun _ => ⟨i, hk, fun _ => ?_⟩
          rw [List.flatMap_append, hsent, List.flatMap_singleton]
          exact htake.trans (hend hshort)
        · simp only [Whole, hshort, if_false]
          refine ⟨rfl, fun j hj => ?_⟩
          obtain rfl : i = j := by simpa [hfile] using hj
          exact ⟨hk, by simpa [hsent] using htake⟩
      | true =>
        simp only [write, hd, Bool.or_true, if_true, Option.some.injEq] at hs
        subst hs
        refine ⟨rfl, fun hshort => ⟨i, hk, fun hlength => ?_⟩⟩
        -- nothing is lost with the last message if it is empty
        have hnil : buf = [] := by
          apply List.eq_nil_of_length_eq_zero
          rw [hsent, List.length_take] at hlength
          simp only at hlength
          omega
        rw [hnil, List.append_nil] at htake
        have hwhole := hend (by simpa using hshort)
        rw [hnil] at hwhole
        exact hsent.trans hwhole
    · cases hs
      exact ⟨rfl, fun h => by simp [heof] at h⟩
  · cases hs

/-! ### The server -/

variable (cfg paths) in
/-- The file is at the path. -/
def ShownAt (fs : InodeFS) (p : Bytes) (i : ℕ) : Prop :=
  p ∈ paths ∧ ∃ b, fs.resolve (getServerFilepath cfg p false) = .ok (.entry b) ∧ fs.entries.lookup b = some (.file i)

variable (cfg paths) in
/-- The files that are or were at a path are versions, and temporary files no more. -/
structure CleanTree (known : Bytes → ℕ → Prop) (version : Bytes → Bytes → Prop) (fs : InodeFS) : Prop where
  layout : Layout cfg paths fs
  shown : ∀ p i, ShownAt cfg paths fs p i → known p i
  version : ∀ p i, known p i → version p (fs.file i).content
  isSealed : Sealed cfg paths (fun i => ∃ p, known p i) fs

theorem CleanTree.step {known : Bytes → ℕ → Prop} {version new : Bytes → Bytes → Prop}
    (h : CleanTree cfg paths known version fs) (hstep : TreeStep cfg paths (fun i => ∃ p, known p i) new fs fs') :
    CleanTree cfg paths (fun p i => known p i ∨ ShownAt cfg paths fs' p i) (fun p b => version p b ∨ new p b) fs' := by
  have hshown (p : Bytes) (i : ℕ) (hi : ShownAt cfg paths fs' p i) : known p i ∨ new p (fs'.file i).content ∧
      ∀ q ∈ paths, ∀ a, fs.resolve (getServerFilepath cfg q true) = .ok (.entry a) →
        fs'.entries.lookup a ≠ some (.file i) := by
    obtain ⟨hp, b, hb, hbi⟩ := hi
    have hb' := hstep.dirs.symm.resolve hb
    exact (hstep.shown p hp b i hb' hbi).imp_left fun hold => h.shown p i ⟨hp, b, hb', hold⟩
  have hversion (p : Bytes) (i : ℕ) (hi : known p i) : version p (fs'.file i).content := by
    rw [hstep.file i ⟨p, hi⟩]
    exact h.version p i hi
  have hsealed (p : Bytes) (i : ℕ) (hi : known p i) (q : Bytes) (hq : q ∈ paths) (a : Slot)
      (ha : fs'.resolve (getServerFilepath cfg q true) = .ok (.entry a)) : fs'.entries.lookup a ≠ some (.file i) :=
    hstep.temp i ⟨p, hi⟩ q hq a (hstep.dirs.symm.resolve ha)
  refine ⟨h.layout.of_sameDirs hstep.dirs, fun p i => .inr, fun p i hi => ?_, ?_⟩
  · rcases hi with hi | hi
    · exact .inl (hversion p i hi)
    · exact (hshown p i hi).imp (hversion p i) And.left
  · rintro i ⟨p, hi | hi⟩
    · exact ⟨(h.isSealed i ⟨p, hi⟩).1.trans_le hstep.next, hsealed p i hi⟩
    · obtain ⟨-, b, -, hbi⟩ := id hi
      refine ⟨fs'.allocated b _ hbi, fun q hq a ha => ?_⟩
      rcases hshown p i hi with hknown | ⟨-, hnew⟩
      · exact hsealed p i hknown q hq a ha
      · exact hnew q hq a (hstep.dirs.symm.resolve ha)

variable (cfg paths) in
structure Clean (known : Bytes → ℕ → Prop) (version : Bytes → Bytes → Prop) (s : State) : Prop where
  tree : CleanTree cfg paths known version s.fs
  calls : ∀ id c, s.writes id = some c → c.Tidy cfg paths s.fs
  alone : ∀ id id' c c', s.writes id = some c → s.writes id' = some c' → c.Pending → c'.Pending →
    c'.msg.filepath = c.msg.filepath → c.msg.filepath ≠ [] → id' = id
  reads : ∀ r c, s.reads r = some c → c.filepath ∈ paths ∧ c.Whole (known c.filepath) s.fs

/-- Before it opens its file, and after it has returned, a call does not touch the tree. -/
lemma WriteStep.fs_eq {id : ℕ} {env : StepEnv} {sh sh' : Shared} (h : WriteStep cfg id env sh c sh' c')
    (hp : ¬ c.Pending) (hpc : c.pc ≠ .openTemp) : sh'.fs = sh.fs := by
  cases h <;> simp_all [WriteCall.Pending]

/-- A call gets its file by opening it, and keeps its path from then on. -/
lemma WriteStep.pending_path {id : ℕ} {env : StepEnv} {sh sh' : Shared} (h : WriteStep cfg id env sh c sh' c')
    (ht : c.About paths) (hp : c'.Pending) : (c.Pending ∨ c.pc = .openTemp) ∧ c'.msg.filepath = c.msg.filepath := by
  cases h with
  | read hpc msg incoming hnext =>
    obtain ⟨p, -, hincoming, hname⟩ := ht
    obtain ⟨hended, hcons⟩ := nextMsg_eq_some hnext
    refine ⟨.inl (by simp [WriteCall.Pending, hpc]), ?_⟩
    rw [hname.resolve_right (by simp [hended, hpc])]
    exact hincoming msg (by simp [hcons])
  | _ => simp_all [WriteCall.Pending]

variable {known : Bytes → ℕ → Prop} {version : Bytes → Bytes → Prop} {s s' : State}

variable (cfg) in
/-- The event puts the version at the path. -/
def Adds (s : State) (e : LifeEvent) (p b : Bytes) : Prop := ∃ q, publishes cfg s e = some (q, b) ∧ SamePlace cfg s.fs q p

/-- What holds after an event: more files and more versions are known. -/
abbrev CleanAfter (cfg : Config) (paths : Set Bytes) (known : Bytes → ℕ → Prop) (version : Bytes → Bytes → Prop)
    (s s' : State) (e : LifeEvent) : Prop :=
  InodeFS.SameDirs s.fs s'.fs ∧ Clean cfg paths (fun p i => known p i ∨ ShownAt cfg paths s'.fs p i)
    (fun p b => version p b ∨ Adds cfg s e p b) s'

/-- A step of an upload keeps the server clean. -/
theorem Clean.write {id : ℕ} {env : StepEnv} (h : Clean cfg paths known version s)
    (halone : OpensAlone s (.handler (.write id env))) (hs : step cfg s (.write id env) = some s') :
    CleanAfter cfg paths known version s s' (.handler (.write id env)) := by
  simp only [Server.step, Option.bind_eq_some_iff, Option.map_eq_some_iff] at hs
  obtain ⟨c, hc, ⟨sh', c'⟩, hstep, rfl⟩ := hs
  have hw := writeStep_of_step cfg hstep
  have hversion (hpc : c.pc = .rename) (hfs : ∃ fs, env.syscall (s.fs.rename (getServerFilepath cfg c.msg.filepath true)
      (getServerFilepath cfg c.msg.filepath false)) = .ok fs) (q : Bytes) (hq : SamePlace cfg s.fs c.msg.filepath q) :
      Adds cfg s (.handler (.write id env)) q c.content := by
    obtain ⟨fs, hfs⟩ := hfs
    exact ⟨c.msg.filepath, by simp [publishes, hc, hpc, hfs], hq⟩
  obtain ⟨htree, helse, htidy⟩ := hw.tidy (h.calls id c hc) h.tree.layout h.tree.isSealed hversion
  have hempty := h.tree.layout.empty
  -- no other pending call has the path
  have hothers {id₁ : ℕ} {c₁ : WriteCall} (hid : id₁ ≠ id) (hc₁ : s.writes id₁ = some c₁) (hp : c₁.Pending)
      (hpath : c₁.msg.filepath = c.msg.filepath) (hne : c.msg.filepath ≠ []) : ¬ c.Pending ∧ c.pc ≠ .openTemp :=
    ⟨fun hpend => hid (h.alone id id₁ c c₁ hc hc₁ hpend hp hpath hne),
      fun hpc => halone c hc hpc hne id₁ c₁ hc₁ hpath hp⟩
  refine ⟨htree.dirs, h.tree.step htree, fun id₁ c₁ hc₁ => ?_, fun id₁ id₂ c₁ c₂ hc₁ hc₂ hp₁ hp₂ hpath hne => ?_,
    fun r c₁ hc₁ => ?_⟩
  · obtain ⟨rfl, rfl⟩ | ⟨hid, hc₁⟩ := update_eq_some.mp hc₁
    · exact htidy
    by_cases hclash : c₁.Pending ∧ c₁.msg.filepath = c.msg.filepath ∧ c.msg.filepath ≠ []
    · obtain ⟨hp, hpath, hne⟩ := hclash
      obtain ⟨hidle, hpc⟩ := hothers hid hc₁ hp hpath hne
      have hsame : sh'.fs = s.fs := hw.fs_eq hidle hpc
      change c₁.Tidy cfg paths sh'.fs
      rw [hsame]
      exact h.calls id₁ c₁ hc₁
    · refine (h.calls id₁ c₁ hc₁).frame helse hempty fun hp hpath => ?_
      by_contra hne
      exact hclash ⟨hp, hpath, hne⟩
  · obtain ⟨rfl, rfl⟩ | ⟨hid₁, hd₁⟩ := update_eq_some.mp hc₁ <;> obtain ⟨rfl, rfl⟩ | ⟨hid₂, hd₂⟩ := update_eq_some.mp hc₂
    · rfl
    · obtain ⟨hbefore, hname⟩ := hw.pending_path (h.calls id₁ c hc).1 hp₁
      rw [hname] at hpath hne
      obtain ⟨hidle, hpc⟩ := hothers hid₂ hd₂ hp₂ hpath hne
      exact absurd hbefore (not_or.mpr ⟨hidle, hpc⟩)
    · obtain ⟨hbefore, hname⟩ := hw.pending_path (h.calls id₂ c hc).1 hp₂
      rw [hname] at hpath
      obtain ⟨hidle, hpc⟩ := hothers hid₁ hd₁ hp₁ hpath.symm (hpath ▸ hne)
      exact absurd hbefore (not_or.mpr ⟨hidle, hpc⟩)
    · exact h.alone id₁ id₂ c₁ c₂ hd₁ hd₂ hp₁ hp₂ hpath hne
  · obtain ⟨hmem, hwhole⟩ := h.reads r c₁ hc₁
    exact ⟨hmem, hwhole.frame (fun _ => .inl) fun i hi => htree.file i ⟨_, hi⟩⟩

/-- An event that changes no file keeps the server clean if it keeps the calls so. -/
lemma Clean.of_fs_eq (h : Clean cfg paths known version s) (e : LifeEvent) (hfs : s'.fs = s.fs)
    (hcalls : ∀ id c, s'.writes id = some c → c.Tidy cfg paths s.fs)
    (halone : ∀ id id' c c', s'.writes id = some c → s'.writes id' = some c' → c.Pending → c'.Pending →
      c'.msg.filepath = c.msg.filepath → c.msg.filepath ≠ [] → id' = id)
    (hreads : ∀ r c, s'.reads r = some c → c.filepath ∈ paths ∧ c.Whole (known c.filepath) s.fs) :
    CleanAfter cfg paths known version s s' e := by
  have htree : TreeStep cfg paths (fun i => ∃ p, known p i) (Adds cfg s e) s.fs s.fs := h.tree.isSealed.refl
  rw [CleanAfter, hfs]
  refine ⟨.refl _, by rw [hfs]; exact h.tree.step htree, by rw [hfs]; exact hcalls, halone, fun r c hc => ?_⟩
  obtain ⟨hmem, hwhole⟩ := hreads r c hc
  rw [hfs]
  exact ⟨hmem, hwhole.frame (fun _ => .inl) fun _ _ => rfl⟩

theorem Clean.step {e : LifeEvent} (h : Clean cfg paths known version s) (he : OnPaths paths e) (halone : OpensAlone s e)
    (hs : lifeStep cfg s e = some s') : CleanAfter cfg paths known version s s' e := by
  cases e with
  | restart =>
    rw [lifeStep, h.tree.layout.boot, Option.some.injEq] at hs
    subst hs
    exact h.of_fs_eq _ rfl (by simp [State.idle]) (by simp [State.idle]) (by simp [State.idle])
  | handler e =>
    cases e with
    | startWrite id stream =>
      obtain ⟨p, hp, hstream⟩ := he
      simp only [lifeStep, Server.step] at hs
      split_ifs at hs
      cases hs
      refine h.of_fs_eq _ rfl (fun id₁ c₁ hc₁ => ?_) (fun id₁ id₂ c₁ c₂ hc₁ hc₂ hp₁ hp₂ hpath hne => ?_) h.reads
      · obtain ⟨rfl, rfl⟩ | ⟨-, hc₁⟩ := update_eq_some.mp hc₁
        · exact ⟨⟨p, hp, hstream, .inr ⟨rfl, .inr rfl⟩⟩, rfl, rfl⟩
        · exact h.calls id₁ c₁ hc₁
      · obtain ⟨rfl, rfl⟩ | ⟨-, hd₁⟩ := update_eq_some.mp hc₁
        · simp [WriteCall.Pending, WriteCall.start] at hp₁
        · obtain ⟨rfl, rfl⟩ | ⟨-, hd₂⟩ := update_eq_some.mp hc₂
          · simp [WriteCall.Pending, WriteCall.start] at hp₂
          · exact h.alone id₁ id₂ c₁ c₂ hd₁ hd₂ hp₁ hp₂ hpath hne
    | write id env => exact h.write halone hs
    | cancel id =>
      simp only [lifeStep, Server.step, Option.map_eq_some_iff] at hs
      obtain ⟨c, hc, rfl⟩ := hs
      have hold {id₁ : ℕ} {c₁ : WriteCall} (hc₁ : Function.update s.writes id (some { c with cancelled := true }) id₁ =
          some c₁) : ∃ c₀, s.writes id₁ = some c₀ ∧ (c₁.Pending → c₀.Pending) ∧ c₁.msg = c₀.msg ∧
            (c₀.Tidy cfg paths s.fs → c₁.Tidy cfg paths s.fs) := by
        obtain ⟨rfl, rfl⟩ | ⟨-, hc₁⟩ := update_eq_some.mp hc₁
        · exact ⟨c, hc, fun hp => hp, rfl, WriteCall.Tidy.cancel⟩
        · exact ⟨c₁, hc₁, fun hp => hp, rfl, fun ht => ht⟩
      refine h.of_fs_eq _ rfl (fun id₁ c₁ hc₁ => ?_) (fun id₁ id₂ c₁ c₂ hc₁ hc₂ hp₁ hp₂ hpath hne => ?_) h.reads
      · obtain ⟨c₀, hc₀, -, -, htidy⟩ := hold hc₁
        exact htidy (h.calls id₁ c₀ hc₀)
      · obtain ⟨d₁, hd₁, hp₁', hmsg₁, -⟩ := hold hc₁
        obtain ⟨d₂, hd₂, hp₂', hmsg₂, -⟩ := hold hc₂
        rw [hmsg₁] at hpath hne
        rw [hmsg₂] at hpath
        exact h.alone id₁ id₂ d₁ d₂ hd₁ hd₂ (hp₁' hp₁) (hp₂' hp₂) hpath hne
    | startGetContent id filepath =>
      simp only [lifeStep, Server.step] at hs
      split_ifs at hs
      cases hs
      refine h.of_fs_eq _ rfl h.calls h.alone fun r c hc => ?_
      obtain ⟨rfl, rfl⟩ | ⟨-, hc⟩ := update_eq_some.mp hc
      · exact ⟨he, rfl, rfl, rfl⟩
      · exact h.reads r c hc
    | getContent id env =>
      simp only [lifeStep, Server.step, Option.bind_eq_some_iff, Option.map_eq_some_iff] at hs
      obtain ⟨c, hc, c', hstep, rfl⟩ := hs
      refine h.of_fs_eq _ rfl h.calls h.alone fun r c₁ hc₁ => ?_
      obtain ⟨rfl, rfl⟩ | ⟨-, hc₁⟩ := update_eq_some.mp hc₁
      · obtain ⟨hmem, hwhole⟩ := h.reads r c hc
        obtain ⟨hname, hwhole'⟩ := hwhole.step (fun i hi => by
          obtain ⟨b, hb, hbi⟩ := InodeFS.resolve_of_node_file hi
          exact h.tree.shown _ i ⟨hmem, b, hb, hbi⟩) hstep
        rw [hname]
        exact ⟨hmem, hwhole'⟩
      · exact h.reads r c₁ hc₁
    | unlink filepath env =>
      cases hs
      rcases unlink_cases cfg filepath env s.fs with hfs | ⟨b, i, hb, hbi, hfs⟩
      · exact h.of_fs_eq _ hfs h.calls h.alone h.reads
      · have htree : TreeStep cfg paths (fun i => ∃ p, known p i) (Adds cfg s (.handler (.unlink filepath env))) s.fs
            (s.fs.remove b) := treeStep_remove h.tree.isSealed hbi
        rw [CleanAfter, hfs]
        refine ⟨htree.dirs, h.tree.step htree, fun id c hc => ?_, h.alone, fun r c hc => ?_⟩
        · exact (h.calls id c hc).frame (elsewhere_remove h.tree.layout he hb hbi []) h.tree.layout.empty fun _ _ => rfl
        · obtain ⟨hmem, hwhole⟩ := h.reads r c hc
          exact ⟨hmem, hwhole.frame (fun _ => .inl) fun _ _ => rfl⟩
    | rmdir filepath env => exact he.elim
    | mkdir filepath env => exact he.elim

/-- A whole run adds its versions. -/
theorem Clean.run {es : List LifeEvent} (h : Clean cfg paths known version s) (hpaths : ∀ e ∈ es, OnPaths paths e)
    (halone : OpensAloneRun cfg s es) (hrun : lifeRun cfg s es = some s') : InodeFS.SameDirs s.fs s'.fs ∧
      ∃ known', Clean cfg paths known'
        (fun p b => version p b ∨ ∃ q, (q, b) ∈ history cfg s es ∧ SamePlace cfg s.fs q p) s' := by
  induction es generalizing s known version with
  | nil =>
    cases hrun
    refine ⟨.refl _, known, ?_⟩
    simpa [history] using h
  | cons e es ih =>
    obtain ⟨s₁, hs₁, hrun⟩ := Option.bind_eq_some_iff.mp hrun
    obtain ⟨hdirs, hclean⟩ := h.step (hpaths e (by simp)) halone.1 hs₁
    obtain ⟨hdirs', known', hend⟩ := ih hclean (fun e he => hpaths e (by simp [he])) (halone.2 s₁ hs₁) hrun
    refine ⟨hdirs.trans hdirs', known', ?_⟩
    have hversion : (fun p b => (version p b ∨ Adds cfg s e p b) ∨
          ∃ q, (q, b) ∈ history cfg s₁ es ∧ SamePlace cfg s₁.fs q p) =
        fun p b => version p b ∨ ∃ q, (q, b) ∈ history cfg s (e :: es) ∧ SamePlace cfg s.fs q p := by
      funext p b
      have hplace (q : Bytes) : SamePlace cfg s₁.fs q p ↔ SamePlace cfg s.fs q p :=
        exists_congr fun b => and_congr ⟨hdirs.symm.resolve, hdirs.resolve⟩ ⟨hdirs.symm.resolve, hdirs.resolve⟩
      simp only [Adds, history, hs₁, List.mem_append, Option.mem_toList, hplace, or_and_right, exists_or, or_assoc]
    rw [← hversion]
    exact hend

lemma clean_idle (h : Layout cfg paths fs) :
    Clean cfg paths (ShownAt cfg paths fs) (initialContent cfg · fs) (.idle fs) := by
  refine ⟨⟨h, fun _ _ hi => hi, ?_, ?_⟩, by simp [State.idle], by simp [State.idle], by simp [State.idle]⟩
  · rintro p i ⟨-, b, hb, hbi⟩
    exact ⟨i, InodeFS.node_of_resolve hb hbi, rfl⟩
  · rintro i ⟨p, hp, b, hb, hbi⟩
    refine ⟨fs.allocated b _ hbi, fun q hq a ha hai => h.apart q hq p hp _ ha ?_⟩
    rw [fs.linked_once a b _ hai hbi]
    exact hb

/-- If all uploads have one number, none is pending when another opens its file. -/
lemma opensAloneRun_of_id {id : ℕ} {es : List LifeEvent} (hes : ∀ id' stream, .handler (.startWrite id' stream) ∈ es → id' = id)
    (hs : ∀ id', id' ≠ id → s.writes id' = none) : OpensAloneRun cfg s es := by
  induction es generalizing s with
  | nil => trivial
  | cons e es ih =>
    refine ⟨?_, fun s' hs' => ih (fun id' stream hmem => hes id' stream (by simp [hmem])) fun id' hid => ?_⟩
    · cases e with
      | restart => trivial
      | handler e =>
        cases e with
        | write id₁ env =>
          intro c hc hpc _ id₂ c' hc' _ hp
          have hnumber {id' : ℕ} {c : WriteCall} (hc : s.writes id' = some c) : id' = id := by
            by_contra hid
            simp [hs id' hid] at hc
          obtain rfl := (hnumber hc).trans (hnumber hc').symm
          obtain rfl : c = c' := by simpa [hc] using hc'
          simp [WriteCall.Pending, hpc] at hp
        | _ => trivial
    · cases e with
      | restart =>
        simp only [lifeStep, boot, Option.bind_eq_some_iff, Option.map_eq_some_iff] at hs'
        obtain ⟨-, -, -, -, rfl⟩ := hs'
        rfl
      | handler e =>
        cases hc : s'.writes id' with
        | none => rfl
        | some c =>
          obtain ⟨-, stream, rfl, -⟩ | ⟨c₀, hc₀, -⟩ := writes_step cfg (show step cfg s e = some s' from hs') hc
          · exact absurd (hes id' stream (by simp)) hid
          · simp [hs id' hid] at hc₀

/-- A server whose digests tell paths of different lengths apart, started on an empty tree. -/
def livesConfig : Config := ⟨Bytes.ascii "/", fun p _ => UInt8.ofNat p.length⟩

def livesState : State := (boot livesConfig .empty).get (by decide)

/-- An upload is cut off by the end of the server; the next server gets the file, and a download. -/
def interruptedUpload : List LifeEvent :=
  .handler (.startWrite 0 [⟨Bytes.ascii "/f", Bytes.ascii "a"⟩, ⟨Bytes.ascii "/f", Bytes.ascii "b"⟩]) ::
    List.replicate 4 (.handler (.write 0 (.quiet 1))) ++ .restart ::
    .handler (.startWrite 0 [⟨Bytes.ascii "/f", Bytes.ascii "c"⟩]) :: List.replicate 10 (.handler (.write 0 (.quiet 2))) ++
    .handler (.startGetContent 0 (Bytes.ascii "/f")) :: List.replicate 3 (.handler (.getContent 0 (.quiet 3)))

lemma layout_example : Layout livesConfig {[], Bytes.ascii "/f"} livesState.fs where
  empty := by simp
  root := by decide
  digest := by
    rintro p (rfl | rfl) q (rfl | rfl) heq
    · rfl
    · exact absurd (congrFun heq 0) (by decide)
    · exact absurd (congrFun heq 0) (by decide)
    · rfl
  apart := by rintro p (rfl | rfl) q (rfl | rfl) <;> decide
  cache := ⟨1, by decide⟩
  fs_root := ⟨2, by decide⟩

end AFSv1.Server
