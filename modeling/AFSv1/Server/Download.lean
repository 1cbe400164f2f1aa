import AFSv1.Client.Transfer
import AFSv1.Server.Sequential

/-! A download among uploads and removals that do not overlap each other: the bytes always are those
of the file that was opened, the timestamp is that of the file the path denotes at the `stat`. -/
namespace AFSv1.Server
open Foundations Tables

variable (cfg : Config) (path : Bytes)

/-- The modification time of the version at the path. -/
def published (s : State) : List Bytes :=
  match s.fs.node (getServerFilepath cfg path false) with
  | .ok (.file i) => [(s.fs.file i).mtim]
  | _ => []

/-- Every file that becomes visible has a modification time that no version had before. -/
def FreshVersions (used : List Bytes) (s : State) : List Event → Prop
  | [] => True
  | e :: es => ∀ s', step cfg s e = some s' →
      (∀ j, s'.fs.node (getServerFilepath cfg path false) = .ok (.file j) →
        ¬ Visible cfg path s j → (s'.fs.file j).mtim ∉ used) ∧
      FreshVersions (published cfg path s' ++ used) s' es

instance FreshVersions.decidable : ∀ (used : List Bytes) (s : State) (es : List Event),
    Decidable (FreshVersions cfg path used s es)
  | _, _, [] => isTrue trivial
  | used, s, e :: es =>
    have (s' : State) := FreshVersions.decidable (published cfg path s' ++ used) s' es
    have (j : ℕ) : Decidable (Visible cfg path s j) := by unfold Visible; infer_instance
    inferInstanceAs (Decidable (∀ s', step cfg s e = some s' →
      (∀ j, s'.fs.node (getServerFilepath cfg path false) = .ok (.file j) →
        ¬ Visible cfg path s j → (s'.fs.file j).mtim ∉ used) ∧
      FreshVersions cfg path (published cfg path s' ++ used) s' es))

/-- What the `stat` of a download sees: the file that was opened, or nothing while the bytes in the
unset `struct stat` happen to be that file's. -/
def StatSees (env : StepEnv) (fs : InodeFS) (i : ℕ) : Prop :=
  match env.syscall (fs.node (getServerFilepath cfg path false)) with
  | .ok (.file j) => j = i
  | .ok (.dir _) => env.dirMtim = (fs.file i).mtim
  | .error _ => env.garbage = (fs.file i).mtim

instance (env : StepEnv) (fs : InodeFS) (i : ℕ) : Decidable (StatSees cfg path env fs i) := by
  unfold StatSees
  split <;> infer_instance

instance (o : Option Node) (p : ℕ → Prop) [DecidablePred p] : Decidable (∀ i, o = some (.file i) → p i) :=
  match o with
  | none => isTrue nofun
  | some (.dir _) => isTrue nofun
  | some (.file i) => decidable_of_iff (p i) ⟨fun h _ hb => Node.file.inj (Option.some.inj hb) ▸ h, fun h => h i rfl⟩

/-- If the event is the `stat` of the download `r`, it sees the file that `r` has opened. -/
def SeesOwn (r : ℕ) (s : State) : Event → Prop
  | .getContent id env => id = r → ∀ c, s.reads r = some c → c.pc = .stat →
      ∀ i, c.file = some (.file i) → StatSees cfg path env s.fs i
  | _ => True

def SeesOwnRun (r : ℕ) (s : State) : List Event → Prop
  | [] => True
  | e :: es => SeesOwn cfg path r s e ∧ ∀ s', step cfg s e = some s' → SeesOwnRun r s' es

instance (r : ℕ) (s : State) (e : Event) : Decidable (SeesOwn cfg path r s e) := by
  induction e using Event.casesOn <;> unfold SeesOwn <;> infer_instance

instance SeesOwnRun.decidable : ∀ (r : ℕ) (s : State) (es : List Event), Decidable (SeesOwnRun cfg path r s es)
  | _, _, [] => isTrue trivial
  | r, s, e :: es =>
    have (s' : State) := SeesOwnRun.decidable r s' es
    inferInstanceAs (Decidable (SeesOwn cfg path r s e ∧ ∀ s', step cfg s e = some s' → SeesOwnRun cfg path r s' es))

/-- What the client has received of the file that is open. `known` are the files that are or were
visible at the path. -/
def GetContentCall.Streams (known : ℕ → Prop) (fs : InodeFS) (c : GetContentCall) : Prop :=
  match c.pc with
  | .openFile => c.file = none ∧ c.eof = false ∧ c.sent = [] ∧ c.pos = 0
  | .stat => ∀ i, c.file = some (.file i) →
      known i ∧ c.eof = false ∧ c.msg.file_exists = true ∧ c.sent = [] ∧ c.pos = 0
  | .read => ∀ i, c.file = some (.file i) → known i ∧ c.eof = false ∧ c.msg.file_exists = true ∧
      (∀ msg ∈ c.sent, msg.file_exists = true ∧ msg.timestamp = c.msg.timestamp) ∧
      c.sent.flatMap MetaContent.b = (fs.file i).content.take c.pos
  | .returned _ => ∀ i, c.file = some (.file i) → known i ∧ (c.eof = true → c.sent ≠ [] ∧
      (∀ msg ∈ c.sent, msg.file_exists = true ∧ msg.timestamp = c.msg.timestamp) ∧
      c.sent.flatMap MetaContent.b = (fs.file i).content)

/-- Other events leave a download alone, since they do not change the file it reads. -/
lemma GetContentCall.Streams.frame {known known' : ℕ → Prop} {fs fs' : InodeFS} {c : GetContentCall}
    (h : c.Streams known fs) (hknown : ∀ i, known i → known' i) (hfile : ∀ i, known i → fs'.file i = fs.file i) :
    c.Streams known' fs' := by
  cases hpc : c.pc <;> simp only [Streams, hpc] at h ⊢
  case openFile => exact h
  all_goals
    intro i hi
    obtain ⟨hk, h⟩ := h i hi
    refine ⟨hknown i hk, ?_⟩
    first | exact h | (rw [hfile i hk]; exact h)

/-- The steps of `GetContentCall.step`, with the download's next chunk as a definition. -/
def GetContentCall.chunk (c : GetContentCall) (fs : InodeFS) (i : ℕ) : Bytes := ((fs.file i).content.drop c.pos).take BUFSIZE

inductive ReadStep (env : StepEnv) (fs : InodeFS) (c : GetContentCall) : GetContentCall → Prop where
  | opened (hpc : c.pc = .openFile) (node : Node)
      (hnode : env.syscall (fs.node (getServerFilepath cfg c.filepath false)) = .ok node) :
      ReadStep env fs c { c with file := some node, msg := { c.msg with file_exists := true }, pc := .stat }
  | missing (hpc : c.pc = .openFile) (c' : GetContentCall) (hpc' : c'.pc = .returned .OK) (hfile' : c'.file = c.file)
      (hname' : c'.filepath = c.filepath) : ReadStep env fs c c'
  | stat (hpc : c.pc = .stat) :
      ReadStep env fs c { c with
        msg := { c.msg with timestamp := statMtim fs (getServerFilepath cfg c.filepath false) env }, pc := .read }
  | read (hpc : c.pc = .read) (i : ℕ) (hfile : c.file = some (.file i)) (c' : GetContentCall)
      (hc' : c' = { c with
        pos := c.pos + (c.chunk fs i).length
        eof := (c.chunk fs i).length < BUFSIZE
        msg := { c.msg with b := c.chunk fs i }
        sent := if env.dropped then c.sent else c.sent ++ [{ c.msg with b := c.chunk fs i }]
        pc := if (c.chunk fs i).length < BUFSIZE ∨ env.dropped then .returned .OK else .read }) :
      ReadStep env fs c c'
  | failed (hpc : c.pc = .read) : ReadStep env fs c { c with pc := .returned .OK }

theorem readStep_of_step {env : StepEnv} {fs : InodeFS} {c c' : GetContentCall} (h : c.step cfg env fs = some c') :
    ReadStep cfg env fs c c' := by
  unfold GetContentCall.step at h
  split at h
  case h_1 hpc =>
    dsimp only at h
    split at h
    · rename_i node hnode
      cases h
      exact .opened hpc node hnode
    · cases h
      unfold GetContentCall.write
      cases env.dropped <;> exact .missing hpc _ rfl rfl rfl
  case h_2 hpc => cases h; exact .stat hpc
  case h_3 hpc =>
    split at h
    · rename_i i hfile hfault
      cases h
      refine .read hpc i hfile _ ?_
      unfold GetContentCall.write GetContentCall.chunk
      cases env.dropped <;> simp
    · cases h
      exact .failed hpc
  case h_4 => cases h

lemma GetContentCall.Streams.step {known : ℕ → Prop} {fs : InodeFS} {c c' : GetContentCall} {env : StepEnv}
    (h : c.Streams known fs) (hname : c.filepath = path) (hdropped : env.dropped = false)
    (hknown : ∀ i, fs.node (getServerFilepath cfg path false) = .ok (.file i) → known i)
    (hs : ReadStep cfg env fs c c') : c'.Streams known fs := by
  cases hs with
  | opened hpc node hnode =>
    simp only [Streams, hpc] at h ⊢
    rintro i hi
    cases hi
    rw [hname] at hnode
    exact ⟨hknown i (StepEnv.syscall_eq_ok.mp hnode).2, h.2.1, trivial, h.2.2⟩
  | missing hpc _ hpc' hfile' hname' =>
    simp only [Streams, hpc, hpc'] at h ⊢
    rw [hfile', h.1]
    nofun
  | stat hpc =>
    simp only [Streams, hpc] at h ⊢
    intro i hi
    obtain ⟨hk, heof, hexists, hsent, hpos⟩ := h i hi
    simp [hk, heof, hexists, hsent, hpos]
  | read hpc i hfile c' hc' =>
    simp only [Streams, hpc] at h
    obtain ⟨hk, heof, hexists, hsent, hbytes⟩ := h i hfile
    have hsent' : ∀ msg ∈ c.sent ++ [{ c.msg with b := c.chunk fs i }],
        msg.file_exists = true ∧ msg.timestamp = c.msg.timestamp := by
      simpa [or_imp, forall_and, hexists] using hsent
    have hbytes' : (c.sent ++ [{ c.msg with b := c.chunk fs i }]).flatMap MetaContent.b =
        (fs.file i).content.take (c.pos + (c.chunk fs i).length) := by
      rw [List.flatMap_append, hbytes, List.take_add]
      simp [chunk]
    simp only [hdropped, Bool.false_eq_true, or_false, if_false] at hc'
    by_cases hshort : (c.chunk fs i).length < BUFSIZE
    · rw [if_pos hshort] at hc'
      simp only [hc', Streams]
      intro j hj
      obtain rfl : i = j := by simpa [hfile] using hj
      refine ⟨hk, fun _ => ⟨by simp, hsent', ?_⟩⟩
      rw [hbytes', List.take_of_length_le]
      simp only [chunk, List.length_take, List.length_drop] at hshort ⊢
      omega
    · rw [if_neg hshort] at hc'
      simp only [hc', Streams]
      intro j hj
      obtain rfl : i = j := by simpa [hfile] using hj
      exact ⟨hk, by simpa using hshort, hexists, hsent', hbytes'⟩
  | failed hpc =>
    simp only [Streams, hpc] at h ⊢
    intro i hi
    obtain ⟨hk, heof, -⟩ := h i hi
    exact ⟨hk, by simp [heof]⟩

lemma ReadStep.filepath {env : StepEnv} {fs : InodeFS} {c c' : GetContentCall} (h : ReadStep cfg env fs c c') :
    c'.filepath = c.filepath := by
  cases h with
  | missing hpc _ hpc' hfile' hname' => exact hname'
  | read hpc i hfile _ hc' => rw [hc']
  | _ => rfl

/-- Only its arrival and its own steps change a download. -/
lemma reads_step {s s' : State} {e : Event} {r : ℕ} (h : step cfg s e = some s') :
    (s'.reads r = s.reads r ∧ ∀ env, e ≠ .getContent r env) ∨
    (∃ filepath, e = .startGetContent r filepath ∧ s.reads r = none ∧ s'.reads r = some { filepath }) ∨
    ∃ env c c', e = .getContent r env ∧ s.reads r = some c ∧ ReadStep cfg env s.fs c c' ∧
      s'.reads r = some c' ∧ s'.toShared = s.toShared := by
  cases e with
  | startGetContent id filepath =>
    simp only [step] at h
    split_ifs at h with hnone
    cases h
    by_cases hid : r = id
    · subst hid
      exact .inr (.inl ⟨filepath, rfl, hnone, by simp⟩)
    · exact .inl ⟨by simp [hid], (by simp)⟩
  | getContent id env =>
    simp only [step, Option.bind_eq_some_iff, Option.map_eq_some_iff] at h
    obtain ⟨c, hc, c', hstep, rfl⟩ := h
    by_cases hid : r = id
    · subst hid
      exact .inr (.inr ⟨env, c, c', rfl, hc, readStep_of_step cfg hstep, by simp, rfl⟩)
    · exact .inl ⟨by simp [hid], by simp [Ne.symm hid]⟩
  | startWrite id stream =>
    simp only [step] at h
    split_ifs at h
    cases h
    exact .inl ⟨rfl, (by simp)⟩
  | write id env =>
    simp only [step, Option.bind_eq_some_iff, Option.map_eq_some_iff] at h
    obtain ⟨c, -, x, -, rfl⟩ := h
    exact .inl ⟨rfl, (by simp)⟩
  | cancel id =>
    simp only [step, Option.map_eq_some_iff] at h
    obtain ⟨c, -, rfl⟩ := h
    exact .inl ⟨rfl, (by simp)⟩
  | unlink filepath env => cases h; exact .inl ⟨rfl, (by simp)⟩
  | rmdir filepath env => cases h; exact .inl ⟨rfl, (by simp)⟩
  | mkdir filepath env => cases h; exact .inl ⟨rfl, (by simp)⟩

/-- The invariant of a download `r` among uploads one at a time; `used` are the modification times of
the versions so far. -/
structure Downloading (initial : Bytes → Prop) (shown : ℕ → Prop) (opener : Opener) (started : List ℕ)
    (used : List Bytes) (r : ℕ) (s : State) : Prop where
  uploads : OneAtATime cfg path initial shown opener started s
  named : ∀ c, s.reads r = some c → c.filepath = path
  streams : ∀ c, s.reads r = some c → c.Streams (fun i => shown i ∨ Visible cfg path s i) s.fs
  used : ∀ i, shown i ∨ Visible cfg path s i → (s.fs.file i).mtim ∈ used
  distinct : ∀ i j, shown i ∨ Visible cfg path s i → shown j ∨ Visible cfg path s j →
    (s.fs.file i).mtim = (s.fs.file j).mtim → i = j

/-- Past its `stat`, the download has the timestamp of the file it has opened. -/
def Judged (r : ℕ) (s : State) : Prop :=
  ∀ c, s.reads r = some c → (c.pc = .read ∨ ∃ status, c.pc = .returned status) →
    ∀ i, c.file = some (.file i) → c.msg.timestamp = (s.fs.file i).mtim

theorem Downloading.step {initial : Bytes → Prop} {shown : ℕ → Prop} {opener : Opener} {started : List ℕ}
    {used : List Bytes} {r : ℕ} {s s' : State} (h : Downloading cfg path initial shown opener started used r s)
    {e : Event} (he : OnPath path e) (hread : ∀ filepath, e = .startGetContent r filepath → filepath = path)
    (hdeliver : ∀ env, e = .getContent r env → env.dropped = false)
    (hone : ∀ id, e.starts = some id → ∀ id' ∈ started, ∀ c, s.writes id' = some c → ¬ c.Active)
    (hs : step cfg s e = some s')
    (hfresh : ∀ j, Visible cfg path s' j → ¬ Visible cfg path s j → (s'.fs.file j).mtim ∉ used) :
    Downloading cfg path initial (fun i => shown i ∨ Visible cfg path s i) (nextOpener opener s' e)
      (e.starts.toList ++ started) (published cfg path s' ++ used) r s' := by
  obtain ⟨huploads, hfile⟩ := h.uploads.step cfg path he hone hs
  have hnew {i : ℕ} (hi : Visible cfg path s' i) (hold : ¬ (shown i ∨ Visible cfg path s i)) {j : ℕ}
      (hj : shown j ∨ Visible cfg path s j) : (s'.fs.file i).mtim ≠ (s'.fs.file j).mtim := by
    intro heq
    rw [hfile j hj] at heq
    exact hfresh i hi (fun hv => hold (.inr hv)) (heq ▸ h.used j hj)
  refine ⟨huploads, fun c hc => ?_, fun c hc => ?_, fun i hi => ?_, fun i j hi hj heq => ?_⟩
  · obtain ⟨hkeep, -⟩ | ⟨filepath, rfl, -, hnew⟩ | ⟨env, c₀, c₁, -, hc₀, hstep, hc₁, -⟩ := reads_step cfg (r := r) hs
    · exact h.named c (hkeep ▸ hc)
    · rw [hnew, Option.some.injEq] at hc
      exact hc ▸ hread filepath rfl
    · obtain rfl : c₁ = c := by simpa [hc₁] using hc
      rw [hstep.filepath]
      exact h.named c₀ hc₀
  · obtain ⟨hkeep, -⟩ | ⟨filepath, rfl, -, hnew⟩ | ⟨env, c₀, c₁, rfl, hc₀, hstep, hc₁, hshared⟩ :=
      reads_step cfg (r := r) hs
    · exact (h.streams c (hkeep ▸ hc)).frame (fun _ => .inl) hfile
    · rw [hnew, Option.some.injEq] at hc
      subst hc
      exact ⟨rfl, rfl, rfl, rfl⟩
    · obtain rfl : c₁ = c := by simpa [hc₁] using hc
      refine GetContentCall.Streams.frame ?_ (fun _ => .inl) hfile
      exact (h.streams c₀ hc₀).step cfg path (h.named c₀ hc₀) (hdeliver env rfl) (fun i hi => .inr hi) hstep
  · rcases hi with hi | hi
    · rw [hfile i hi]
      exact List.mem_append_right _ (h.used i hi)
    · exact List.mem_append_left _ (by simp [published, show s'.fs.node _ = _ from hi])
  · by_cases hi' : shown i ∨ Visible cfg path s i
    · by_cases hj' : shown j ∨ Visible cfg path s j
      · exact h.distinct i j hi' hj' (by rw [← hfile i hi', heq, hfile j hj'])
      · exact absurd heq.symm (hnew (hj.resolve_left hj') hj' hi')
    · by_cases hj' : shown j ∨ Visible cfg path s j
      · exact absurd heq (hnew (hi.resolve_left hi') hi' hj')
      · have hvi := hi.resolve_left hi'
        have hvj := hj.resolve_left hj'
        rw [Visible] at hvi hvj
        simpa [hvi] using hvj

lemma GetContentCall.Streams.known {known : ℕ → Prop} {fs : InodeFS} {c : GetContentCall} (h : c.Streams known fs)
    {i : ℕ} (hi : c.file = some (.file i)) : known i := by
  cases hpc : c.pc <;> simp only [Streams, hpc] at h
  case openFile =>
    rw [h.1] at hi
    cases hi
  all_goals exact (h i hi).1

/-- The versions being distinct, `stat` returns the time of the opened file exactly if it sees that file. -/
lemma Downloading.statMtim_eq_iff {initial : Bytes → Prop} {shown : ℕ → Prop} {opener : Opener} {started : List ℕ}
    {used : List Bytes} {r : ℕ} {s : State} (h : Downloading cfg path initial shown opener started used r s)
    {i : ℕ} (hi : shown i ∨ Visible cfg path s i) (env : StepEnv) :
    statMtim s.fs (getServerFilepath cfg path false) env = (s.fs.file i).mtim ↔ StatSees cfg path env s.fs i := by
  unfold statMtim StatSees
  cases hnode : env.syscall (s.fs.node (getServerFilepath cfg path false)) with
  | error e => rfl
  | ok node =>
    cases node with
    | dir d => rfl
    | file j =>
      have hj : Visible cfg path s j := (StepEnv.syscall_eq_ok.mp hnode).2
      exact ⟨fun heq => h.distinct j i (.inr hj) hi heq, fun heq => by rw [heq]⟩

/-- Only the `stat` decides whether the timestamp is that of the opened file. -/
theorem Downloading.judged_iff {initial : Bytes → Prop} {shown : ℕ → Prop} {opener : Opener} {started : List ℕ}
    {used : List Bytes} {r : ℕ} {s s' : State} (h : Downloading cfg path initial shown opener started used r s)
    {e : Event} (hs : Server.step cfg s e = some s')
    (hfile : ∀ i, shown i ∨ Visible cfg path s i → s'.fs.file i = s.fs.file i) :
    Judged r s ∧ SeesOwn cfg path r s e ↔ Judged r s' := by
  obtain ⟨hkeep, hother⟩ | ⟨filepath, rfl, hnone, hnew⟩ | ⟨env, c, c', rfl, hc, hstep, hc', hshared⟩ :=
    reads_step cfg (r := r) hs
  · have hsees : SeesOwn cfg path r s e := by
      cases e with
      | getContent id env => exact fun hid => absurd (by rw [hid]) (hother env)
      | _ => trivial
    have hmtim {c : GetContentCall} {i : ℕ} (hc : s.reads r = some c) (hi : c.file = some (.file i)) :
        (s'.fs.file i).mtim = (s.fs.file i).mtim := by rw [hfile i ((h.streams c hc).known hi)]
    constructor
    · rintro ⟨hj, -⟩ c hc hpc i hi
      rw [hkeep] at hc
      rw [hmtim hc hi]
      exact hj c hc hpc i hi
    · refine fun hj => ⟨fun c hc hpc i hi => ?_, hsees⟩
      rw [← hmtim hc hi]
      exact hj c (by rw [hkeep, hc]) hpc i hi
  · refine ⟨fun _ c hc hpc => ?_, fun _ => ⟨fun c hc => ?_, trivial⟩⟩
    · rw [hnew, Option.some.injEq] at hc
      subst hc
      simp at hpc
    · rw [hnone] at hc
      cases hc
  · have hjudged {s : State} {c : GetContentCall} (hc : s.reads r = some c) :
        Judged r s ↔ ((c.pc = .read ∨ ∃ status, c.pc = .returned status) →
          ∀ i, c.file = some (.file i) → c.msg.timestamp = (s.fs.file i).mtim) := by
      simp [Judged, hc]
    have hsees : SeesOwn cfg path r s (.getContent r env) ↔
        (c.pc = .stat → ∀ i, c.file = some (.file i) → StatSees cfg path env s.fs i) := by
      simp [SeesOwn, hc]
    rw [hjudged hc, hjudged hc', hsees, hshared]
    have hstreams := h.streams c hc
    have hname := h.named c hc
    cases hstep with
    | opened hpc node hnode => simp [hpc]
    | missing hpc _ hpc' hfile' hname' =>
      simp only [GetContentCall.Streams, hpc] at hstreams
      simp [hpc, hfile', hstreams.1]
    | stat hpc =>
      simp only [hpc, true_or, forall_const, reduceCtorEq, exists_false, or_self, false_implies, true_and, hname]
      exact forall₂_congr fun i hi => (h.statMtim_eq_iff cfg path (hstreams.known hi) env).symm
    | read hpc i hi _ hc₁ =>
      subst hc₁
      by_cases hshort : (c.chunk s.fs i).length < BUFSIZE ∨ env.dropped <;> simp [hpc, hshort]
    | failed hpc => simp [hpc]

theorem Downloading.run {initial : Bytes → Prop} {shown : ℕ → Prop} {opener : Opener} {started : List ℕ}
    {used : List Bytes} {r : ℕ} {s s' : State} {es : List Event}
    (h : Downloading cfg path initial shown opener started used r s)
    (hpath : ∀ e ∈ es, OnPath path e) (hone : NonOverlapping cfg started s es) (hfresh : FreshVersions cfg path used s es)
    (hread : ∀ filepath, .startGetContent r filepath ∈ es → filepath = path)
    (hdeliver : ∀ env, .getContent r env ∈ es → env.dropped = false) (hrun : Server.run cfg s es = some s') :
    (Judged r s ∧ SeesOwnRun cfg path r s es ↔ Judged r s') ∧
      ∃ shown opener started used, Downloading cfg path initial shown opener started used r s' := by
  induction es generalizing shown opener started used s with
  | nil =>
    cases hrun
    exact ⟨and_iff_left trivial, shown, opener, started, used, h⟩
  | cons e es ih =>
    obtain ⟨s₁, hs₁, hrun⟩ := Option.bind_eq_some_iff.mp hrun
    have hstep := h.step cfg path (hpath e (by simp)) (fun filepath he => hread filepath (by simp [he]))
      (fun env he => hdeliver env (by simp [he])) hone.1 hs₁ (hfresh s₁ hs₁).1
    have hfile := (h.uploads.step cfg path (hpath e (by simp)) hone.1 hs₁).2
    obtain ⟨hjudged, hinv⟩ := ih hstep (fun e he => hpath e (by simp [he])) (hone.2 s₁ hs₁) (hfresh s₁ hs₁).2
      (fun filepath he => hread filepath (by simp [he])) (fun env he => hdeliver env (by simp [he])) hrun
    refine ⟨?_, hinv⟩
    rw [← hjudged, ← h.judged_iff cfg path hs₁ hfile, SeesOwnRun, and_assoc]
    simp [hs₁]

/-- The download's own bytes and time arrive exactly if its `stat` saw the file it had opened. -/
theorem download_ownTimestamp_iff (fs : InodeFS) (es : List Event) (r i : ℕ) (s : State) (c : GetContentCall)
    (hpath : ∀ e ∈ es, OnPath path e) (hapart : Apart cfg path fs) (hone : NonOverlapping cfg [] (.idle fs) es)
    (hfresh : FreshVersions cfg path (published cfg path (.idle fs)) (.idle fs) es)
    (hread : ∀ filepath, .startGetContent r filepath ∈ es → filepath = path)
    (hdeliver : ∀ env, .getContent r env ∈ es → env.dropped = false)
    (hrun : run cfg (.idle fs) es = some s) (hc : s.reads r = some c) (hpc : c.pc = .returned .OK)
    (hfile : c.file = some (.file i)) (heof : c.eof = true) :
    Client.received c.sent = some ((s.fs.file i).content, (s.fs.file i).mtim) ↔
      SeesOwnRun cfg path r (.idle fs) es := by
  have hstart : Downloading cfg path (initialContent cfg path fs) (fun _ => False) (fun _ => none) []
      (published cfg path (.idle fs)) r (.idle fs) := by
    refine ⟨oneAtATime_idle cfg path fs hapart, ?_, ?_, fun i hi => ?_, fun i j hi hj _ => ?_⟩
    · simp [State.idle]
    · simp [State.idle]
    · have hi := hi.resolve_left not_false
      simp [published, show (State.idle fs).fs.node _ = _ from hi]
    · have hi := hi.resolve_left not_false
      have hj := hj.resolve_left not_false
      rw [Visible] at hi hj
      simpa [hi] using hj
  obtain ⟨hjudged, _, _, _, _, hend⟩ := hstart.run cfg path hpath hone hfresh hread hdeliver hrun
  have hidle : Judged r (.idle fs) := by simp [Judged, State.idle]
  have hstreams := hend.streams c hc
  simp only [GetContentCall.Streams, hpc] at hstreams
  obtain ⟨hne, hmsgs, hbytes⟩ := (hstreams i hfile).2 heof
  rw [Client.received_eq hne hmsgs, hbytes, ← and_iff_right (b := SeesOwnRun cfg path r (.idle fs) es) hidle, hjudged]
  simp [Judged, hc, hpc, hfile]

/-- An upload of `/f`, then a download of it. -/
def quietDownload : List Event :=
  .startWrite 0 [⟨Bytes.ascii "/f", Bytes.ascii "a"⟩] :: List.replicate 10 (.write 0 (.quiet 1)) ++
    .startGetContent 0 (Bytes.ascii "/f") :: List.replicate 3 (.getContent 0 (.quiet 2))

lemma apart_example : Apart exampleConfig (Bytes.ascii "/f") exampleState.fs := by
  rintro filepath (rfl | rfl) <;> decide

theorem download_ownTimestamp_iff_quietDownload :
    ∃ s c, run exampleConfig (.idle exampleState.fs) quietDownload = some s ∧ s.reads 0 = some c ∧
      Client.received c.sent = some ((s.fs.file 3).content, (s.fs.file 3).mtim) := by
  have hrun : ((run exampleConfig (.idle exampleState.fs) quietDownload).bind fun s => s.reads 0).map (fun c =>
      (c.pc, c.file, c.eof)) = some (.returned .OK, some (.file 3), true) := by
    decide
  obtain ⟨c, hbind, hobserved⟩ := Option.map_eq_some_iff.mp hrun
  obtain ⟨s, hs, hc⟩ := Option.bind_eq_some_iff.mp hbind
  simp only [Prod.mk.injEq] at hobserved
  exact ⟨s, c, hs, hc, (download_ownTimestamp_iff exampleConfig (Bytes.ascii "/f") exampleState.fs quietDownload 0 3 s c
    (by decide) apart_example (by decide) (by decide) (by simp [quietDownload])
    (by simp [quietDownload, StepEnv.quiet]) hs hc hobserved.1 hobserved.2.1 hobserved.2.2).mpr (by decide)⟩

/-- A second upload falls between the open and the `stat` of the download. -/
def overtakenDownload : List Event :=
  .startWrite 0 [⟨Bytes.ascii "/f", Bytes.ascii "a"⟩] :: List.replicate 10 (.write 0 (.quiet 1)) ++
    .startGetContent 0 (Bytes.ascii "/f") :: .getContent 0 (.quiet 2) ::
      .startWrite 1 [⟨Bytes.ascii "/f", Bytes.ascii "b"⟩] :: List.replicate 10 (.write 1 (.quiet 3)) ++
        List.replicate 2 (.getContent 0 (.quiet 4))

/-- The old bytes arrive with the time of the new version. -/
theorem not_ownTimestamp_overtakenDownload :
    (∀ e ∈ overtakenDownload, OnPath (Bytes.ascii "/f") e) ∧
      Apart exampleConfig (Bytes.ascii "/f") exampleState.fs ∧
      NonOverlapping exampleConfig [] (.idle exampleState.fs) overtakenDownload ∧
      FreshVersions exampleConfig (Bytes.ascii "/f") (published exampleConfig (Bytes.ascii "/f") (.idle exampleState.fs))
        (.idle exampleState.fs) overtakenDownload ∧
      ∃ s, run exampleConfig (.idle exampleState.fs) overtakenDownload = some s ∧ ∃ c, s.reads 0 = some c ∧
        c.pc = .returned .OK ∧ c.file = some (.file 3) ∧ c.eof = true ∧
        Client.received c.sent = some ((s.fs.file 3).content, List.replicate 16 3) ∧
        Client.received c.sent ≠ some ((s.fs.file 3).content, (s.fs.file 3).mtim) :=
  ⟨by decide, apart_example, by decide, by decide, by decide⟩

end AFSv1.Server
