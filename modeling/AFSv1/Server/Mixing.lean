import AFSv1.Server.SharedTemp

/-! Concurrent uploads of one path. All of them write through one temporary name, so the file at
the path stays whole as long as nobody renames another call's unfinished file into place. -/
namespace AFSv1.Server
open Foundations Tables

variable (cfg : Config) (path : Bytes)

/-- The events of `Write` calls whose messages carry the path, of downloads, and of removals of
the path. -/
def OnPath : Event → Prop
  | .startWrite _ stream => ∀ msg ∈ stream, msg.filepath = path
  | .unlink filepath _ => filepath = path
  | .rmdir _ _ => False
  | .mkdir _ _ => False
  | _ => True

instance (e : Event) : Decidable (OnPath path e) := by
  induction e using Event.casesOn <;> unfold OnPath <;> infer_instance

/-- The file at `fs_root/<path>`. -/
def Visible (s : State) (i : ℕ) : Prop := s.fs.node (getServerFilepath cfg path false) = .ok (.file i)

/-- The file at the path has its initial content or that of one `Write` that was not cancelled. -/
def WholeVersion (initial : Bytes → Prop) (s : State) : Prop :=
  ∀ i, Visible cfg path s i → initial (s.fs.file i).content ∨
    ∃ id c, s.writes id = some c ∧ c.NotCancelled ∧ (s.fs.file i).content = c.content

/-- In every state of the run the path holds a whole version, and no event changes a file that
is or was visible there. -/
def NoMixing (initial : Bytes → Prop) (shown : ℕ → Prop) (s : State) : List Event → Prop
  | [] => WholeVersion cfg path initial s
  | e :: es => WholeVersion cfg path initial s ∧ ∀ s', step cfg s e = some s' →
      (∀ i, shown i ∨ Visible cfg path s i → s'.fs.file i = s.fs.file i) ∧
      NoMixing initial (fun i => shown i ∨ Visible cfg path s i) s' es

def nextOpener (opener : Opener) (s' : State) : Event → Opener
  | .write id _ => opener.next id ((s'.writes id).bind WriteCall.file)
  | _ => opener

/-- The event starts none of the harmful interleavings: a call truncates a file only under a name
other than the path, renames only a file that a call which is not cancelled wrote and closed, and
is not cancelled before its check while its file is already visible. -/
def Harmless (opener : Opener) (s : State) : Event → Prop
  | .write id _ => ∀ c, s.writes id = some c →
      (c.pc = .openTemp → ∀ l, s.fs.resolve c.filepath = .ok l →
        s.fs.resolve (getServerFilepath cfg path false) ≠ .ok l) ∧
      (c.pc = .rename → ∀ i, s.fs.node (getServerFilepath cfg c.msg.filepath true) = .ok (.file i) →
        ∃ w, opener i = some w ∧ ∃ cw, s.writes w = some cw ∧ cw.Closed ∧ cw.NotCancelled)
  | .cancel id => ∀ c, s.writes id = some c → ∀ i, Visible cfg path s i → opener i = some id → c.Passed
  | _ => True

instance (opener : Opener) (s : State) (e : Event) : Decidable (Harmless cfg path opener s e) := by
  cases e <;> unfold Harmless <;> unfold Visible <;> infer_instance

def HarmlessRun (opener : Opener) (s : State) : List Event → Prop
  | [] => True
  | e :: es => Harmless cfg path opener s e ∧
      ∀ s', step cfg s e = some s' → HarmlessRun (nextOpener opener s' e) s' es

instance HarmlessRun.decidable : ∀ (opener : Opener) (s : State) (es : List Event),
    Decidable (HarmlessRun cfg path opener s es)
  | _, _, [] => isTrue trivial
  | opener, s, e :: es =>
    have (s' : State) := HarmlessRun.decidable (nextOpener opener s' e) s' es
    inferInstanceAs (Decidable (Harmless cfg path opener s e ∧
      ∀ s', step cfg s e = some s' → HarmlessRun cfg path (nextOpener opener s' e) s' es))

/-- The invariant of a run. `shown` are the files that were visible in earlier states. -/
structure Inv (initial : Bytes → Prop) (shown : ℕ → Prop) (opener : Opener) (s : State) : Prop where
  calls : ∀ id c, s.writes id = some c →
    (∀ msg ∈ c.stream, msg.filepath = path) ∧ c.Inv cfg path opener s.toShared id
  arrived : ∀ i w, opener i = some w → ∃ c, s.writes w = some c
  bound : ∀ i, opener i ≠ none ∨ shown i → i < s.fs.next
  slot : ∀ i a, shown i → s.fs.entries.lookup a = some (.file i) →
    s.fs.resolve (getServerFilepath cfg path false) = .ok (.entry a)
  unopened : ∀ i id c, shown i ∨ Visible cfg path s i → s.writes id = some c → c.file ≠ some i
  whole : ∀ i, Visible cfg path s i → (opener i = none ∧ initial (s.fs.file i).content) ∨
    ∃ w c, opener i = some w ∧ s.writes w = some c ∧ c.Closed ∧ c.NotCancelled

lemma Visible.slot {s : State} {i : ℕ} (h : Visible cfg path s i) :
    ∃ a, s.fs.resolve (getServerFilepath cfg path false) = .ok (.entry a) ∧ s.fs.entries.lookup a = some (.file i) :=
  InodeFS.resolve_of_node_file h

lemma Visible.slot_of_lookup {s : State} {i : ℕ} {a : Slot} (h : Visible cfg path s i)
    (ha : s.fs.entries.lookup a = some (.file i)) :
    s.fs.resolve (getServerFilepath cfg path false) = .ok (.entry a) := by
  obtain ⟨b, hb, hbi⟩ := h.slot
  rwa [s.fs.linked_once a b _ ha hbi]

/-- A closed call that was not cancelled stored its whole stream. -/
lemma WriteCall.Inv.content_of_closed {opener : Opener} {sh : Shared} {id i : ℕ} {c : WriteCall}
    (h : c.Inv cfg path opener sh id) (hi : opener i = some id) (hclosed : c.Closed) (hnot : c.NotCancelled) :
    (sh.fs.file i).content = c.content := by
  have hcomplete (hc : c.Complete) (hp : ¬ c.Passed) : c.incoming = [] := by
    refine hc.resolve_right ?_
    rw [hnot.resolve_right hp]
    simp
  rcases hclosed with hpc | hpc | (hpc | hpc | hpc) | hpc
  · have hp : ¬ c.Passed := by simp [WriteCall.Passed, hpc]
    simp only [WriteCall.Inv, hpc] at h
    exact h.2.2.1.2 i hi (hcomplete h.2.1 hp)
  · have hp : ¬ c.Passed := by simp [WriteCall.Passed, hpc]
    simp only [WriteCall.Inv, hpc] at h
    exact h.2.2.2 i hi (hcomplete h.2.1 hp)
  · simp only [WriteCall.Inv, hpc] at h
    exact h.2.2.2 i hi h.2.1
  · simp only [WriteCall.Inv, hpc] at h
    exact h.2.2.2 i hi h.2.1
  · simp only [WriteCall.Inv, hpc] at h
    exact h.2.2 i hi h.1
  · have hp : ¬ c.Passed := by simp [WriteCall.Passed, hpc]
    simp only [WriteCall.Inv, hpc] at h
    have := hnot.resolve_right hp
    rw [h.1] at this
    cases this

theorem Inv.wholeVersion {initial : Bytes → Prop} {shown : ℕ → Prop} {opener : Opener} {s : State}
    (h : Inv cfg path initial shown opener s) : WholeVersion cfg path initial s := by
  intro i hi
  rcases h.whole i hi with ⟨-, hinit⟩ | ⟨w, c, hw, hc, hclosed, hnot⟩
  · exact .inl hinit
  · exact .inr ⟨w, c, hc, hnot, (h.calls w c hc).2.content_of_closed cfg path hw hclosed hnot⟩

lemma WriteStep.stream {id : ℕ} {env : StepEnv} {sh sh' : Shared} {c c' : WriteCall}
    (h : WriteStep cfg id env sh c sh' c') : c'.stream = c.stream := by
  cases h <;> rfl

/-- Once closed and not cancelled, a call stays so by its own steps. -/
lemma WriteStep.closed {id : ℕ} {env : StepEnv} {sh sh' : Shared} {c c' : WriteCall}
    (h : WriteStep cfg id env sh c sh' c') (hclosed : c.Closed) (hnot : c.NotCancelled) :
    c'.Closed ∧ c'.NotCancelled := by
  cases h <;> simp_all [WriteCall.Closed, WriteCall.NotCancelled, WriteCall.Passed]

/-- A cancellation touches nothing but the flag. -/
lemma WriteCall.Inv.cancel {opener : Opener} {sh : Shared} {id : ℕ} {c : WriteCall}
    (h : c.Inv cfg path opener sh id) : ({ c with cancelled := true } : WriteCall).Inv cfg path opener sh id := by
  have hcomplete : ({ c with cancelled := true } : WriteCall).Complete := .inr rfl
  have hnamed (hn : c.Named path) : ({ c with cancelled := true } : WriteCall).Named path :=
    hn.imp (fun he => ⟨he.1, he.2.1, hcomplete⟩) fun hp => hp
  cases hpc : c.pc with
  | readFirst => simp only [WriteCall.Inv, hpc] at h ⊢; exact h
  | lock => simp only [WriteCall.Inv, hpc] at h ⊢; exact ⟨h.1, h.2.1, hnamed h.2.2.1, h.2.2.2⟩
  | openTemp => simp only [WriteCall.Inv, hpc] at h ⊢; exact ⟨h.1, h.2.1, hnamed h.2.2.1, h.2.2.2⟩
  | append => simp only [WriteCall.Inv, hpc] at h ⊢; exact ⟨h.1, hnamed h.2.1, h.2.2⟩
  | read => simp only [WriteCall.Inv, hpc] at h ⊢; exact ⟨h.1, hnamed h.2.1, h.2.2⟩
  | close => simp only [WriteCall.Inv, hpc] at h ⊢; exact ⟨h.1, hcomplete, h.2.2⟩
  | unlock => simp only [WriteCall.Inv, hpc] at h ⊢; exact ⟨h.1, hcomplete, h.2.2⟩
  | checkCancelled => simp only [WriteCall.Inv, hpc] at h ⊢; exact ⟨h.1, hcomplete, h.2.2⟩
  | stat => simp only [WriteCall.Inv, hpc] at h ⊢; exact h
  | rename => simp only [WriteCall.Inv, hpc] at h ⊢; exact h
  | returned status =>
    cases status with
    | OK => simp only [WriteCall.Inv, hpc] at h ⊢; exact h
    | CANCELLED => simp only [WriteCall.Inv, hpc] at h ⊢; exact ⟨trivial, h.2⟩
    | NOT_FOUND => simp only [WriteCall.Inv, hpc] at h ⊢; exact h
    | UNAVAILABLE => simp only [WriteCall.Inv, hpc] at h ⊢; exact h

/-- What the next state has to keep, and what it must leave alone. -/
structure Keeps (initial : Bytes → Prop) (shown : ℕ → Prop) (opener' : Opener) (s s' : State) : Prop where
  inv : Inv cfg path initial (fun i => shown i ∨ Visible cfg path s i) opener' s'
  file : ∀ i, shown i ∨ Visible cfg path s i → s'.fs.file i = s.fs.file i
  dirs : InodeFS.SameDirs s.fs s'.fs

/-- While the tree stays as it is, the files once visible go on to be where they may be. -/
lemma Inv.slot_visible {initial : Bytes → Prop} {shown : ℕ → Prop} {opener : Opener} {s : State}
    (h : Inv cfg path initial shown opener s) (i : ℕ) (a : Slot) (hi : shown i ∨ Visible cfg path s i)
    (ha : s.fs.entries.lookup a = some (.file i)) :
    s.fs.resolve (getServerFilepath cfg path false) = .ok (.entry a) := by
  rcases hi with hi | hi
  · exact h.slot i a hi ha
  · exact hi.slot_of_lookup cfg path ha

lemma Inv.bound_visible {initial : Bytes → Prop} {shown : ℕ → Prop} {opener : Opener} {s : State}
    (h : Inv cfg path initial shown opener s) (i : ℕ) (hi : opener i ≠ none ∨ shown i ∨ Visible cfg path s i) :
    i < s.fs.next := by
  rcases hi with hi | hi | hi
  · exact h.bound i (.inl hi)
  · exact h.bound i (.inr hi)
  · obtain ⟨a, -, ha⟩ := hi.slot
    exact s.fs.allocated a _ ha

/-- Events of downloads change nothing that the invariant is about. -/
lemma Inv.refl {initial : Bytes → Prop} {shown : ℕ → Prop} {opener : Opener} {s : State}
    (h : Inv cfg path initial shown opener s) {reads : ℕ → Option GetContentCall} :
    Keeps cfg path initial shown opener s { s with reads } :=
  ⟨⟨h.calls, h.arrived, h.bound_visible cfg path, h.slot_visible cfg path,
    fun i id c hi hc => h.unopened i id c (hi.elim (fun hi => hi) .inr) hc, h.whole⟩, fun _ _ => rfl, .refl _⟩

theorem Inv.startWrite {initial : Bytes → Prop} {shown : ℕ → Prop} {opener : Opener} {s : State}
    (h : Inv cfg path initial shown opener s) {id : ℕ} {stream : List FilepathContent} (hnone : s.writes id = none)
    (hstream : ∀ msg ∈ stream, msg.filepath = path) :
    Keeps cfg path initial shown opener s
      { s with writes := Function.update s.writes id (some (.start stream)) } := by
  have hne {w : ℕ} {c : WriteCall} (hc : s.writes w = some c) : w ≠ id := by
    rintro rfl
    rw [hnone] at hc
    cases hc
  refine ⟨⟨?_, ?_, h.bound_visible cfg path, h.slot_visible cfg path, ?_, ?_⟩, fun _ _ => rfl, .refl _⟩
  · intro id' c hc
    obtain ⟨rfl, rfl⟩ | ⟨-, hc⟩ := update_eq_some.mp hc
    · have hfresh (i : ℕ) : opener i ≠ some id' := fun hi =>
        have ⟨c, hc⟩ := h.arrived i id' hi
        hne hc rfl
      exact ⟨hstream, ⟨rfl, hfresh⟩, rfl, rfl, rfl⟩
    · exact h.calls id' c hc
  · intro i w hw
    obtain ⟨c, hc⟩ := h.arrived i w hw
    exact ⟨c, update_eq_some.mpr (.inr ⟨hne hc, hc⟩)⟩
  · intro i id' c hi hc
    obtain ⟨rfl, rfl⟩ | ⟨-, hc⟩ := update_eq_some.mp hc
    · simp [WriteCall.start]
    · exact h.unopened i id' c (hi.elim (fun hi => hi) .inr) hc
  · intro i hi
    rcases h.whole i hi with hinit | ⟨w, c, hw, hc, hcn⟩
    · exact .inl hinit
    · exact .inr ⟨w, c, hw, update_eq_some.mpr (.inr ⟨hne hc, hc⟩), hcn⟩

theorem Inv.cancel {initial : Bytes → Prop} {shown : ℕ → Prop} {opener : Opener} {s : State}
    (h : Inv cfg path initial shown opener s) {id : ℕ} {c : WriteCall} (hc : s.writes id = some c)
    (hharm : Harmless cfg path opener s (.cancel id)) :
    Keeps cfg path initial shown opener s
      { s with writes := Function.update s.writes id (some { c with cancelled := true }) } := by
  refine ⟨⟨?_, ?_, h.bound_visible cfg path, h.slot_visible cfg path, ?_, ?_⟩, fun _ _ => rfl, .refl _⟩
  · intro id' c' hc'
    obtain ⟨rfl, rfl⟩ | ⟨-, hc'⟩ := update_eq_some.mp hc'
    · exact ⟨(h.calls id' c hc).1, (h.calls id' c hc).2.cancel cfg path⟩
    · exact h.calls id' c' hc'
  · intro i w hw
    by_cases he : w = id
    · exact ⟨_, update_eq_some.mpr (.inl ⟨he, rfl⟩)⟩
    · obtain ⟨c', hc'⟩ := h.arrived i w hw
      exact ⟨c', update_eq_some.mpr (.inr ⟨he, hc'⟩)⟩
  · intro i id' c' hi hc'
    obtain ⟨rfl, rfl⟩ | ⟨-, hc'⟩ := update_eq_some.mp hc'
    · exact h.unopened i id' c (hi.elim (fun hi => hi) .inr) hc
    · exact h.unopened i id' c' (hi.elim (fun hi => hi) .inr) hc'
  · intro i hi
    rcases h.whole i hi with hinit | ⟨w, c', hw, hc', hclosed, hnot⟩
    · exact .inl hinit
    · right
      by_cases he : w = id
      · subst he
        obtain rfl : c = c' := by rw [hc] at hc'; simpa using hc'
        exact ⟨w, _, hw, update_eq_some.mpr (.inl ⟨rfl, rfl⟩), hclosed, .inr (hharm c hc i hi hw)⟩
      · exact ⟨w, c', hw, update_eq_some.mpr (.inr ⟨he, hc'⟩), hclosed, hnot⟩

/-- A step of a call moves no visible file and changes none, except that a rename may put the file
of a closed call in place. -/
lemma Effect.visible {opener opener' : Opener} {s s' : State} {id : ℕ} {c c' : WriteCall}
    (heff : Effect cfg path opener s.toShared id c s'.toShared c' opener') {i : ℕ} (hi : Visible cfg path s' i) :
    Visible cfg path s i ∨ (c.pc = .rename ∧ opener' = opener ∧
      s.fs.node (getServerFilepath cfg c.msg.filepath true) = .ok (.file i)) := by
  have hdirs := heff.dirs
  obtain ⟨p, hp', hpi'⟩ := hi.slot
  have hp := hdirs.symm.resolve hp'
  cases heff with
  | quiet hfs => exact .inl (by rwa [Visible, hfs] at hi)
  | opens j a data hheld hopener hfile' hapart hfs =>
    left
    have hpa : p ≠ a := by rintro rfl; exact hapart hp
    refine InodeFS.node_of_resolve hp ?_
    obtain ⟨-, hfs⟩ | ⟨-, -, hfs⟩ := hfs
    · rwa [hfs] at hpi'
    · rwa [hfs, InodeFS.write_entries, InodeFS.lookup_create, if_neg hpa] at hpi'
  | appends j data now hheld hopener hfile hfile' hfs =>
    rw [hfs, InodeFS.append_entries] at hpi'
    exact .inl (InodeFS.node_of_resolve hp hpi')
  | renames hpc hopener hlock hfile' a b j hold ha hb hapart hfs =>
    rw [hfs, InodeFS.lookup_move] at hpi'
    split_ifs at hpi' with hpb hpa
    · simp only [Option.some.injEq, Node.file.injEq] at hpi'
      subst hpi'
      exact .inr ⟨hpc, hopener, InodeFS.node_of_resolve hold ha⟩
    · exact .inl (InodeFS.node_of_resolve hp hpi')

/-- A file that is or was visible is not opened, written or renamed by a step. -/
lemma Inv.untouched {initial : Bytes → Prop} {shown : ℕ → Prop} {opener opener' : Opener} {s s' : State}
    (h : Inv cfg path initial shown opener s) {id : ℕ} {c c' : WriteCall} (hc : s.writes id = some c)
    (heff : Effect cfg path opener s.toShared id c s'.toShared c' opener') {j : ℕ}
    (hj : shown j ∨ Visible cfg path s j) :
    s'.fs.file j = s.fs.file j ∧ (∀ x, s'.fs.entries.lookup x = some (.file j) → s.fs.entries.lookup x = some (.file j)) ∧
      opener' j = opener j ∧ c'.file ≠ some j := by
  have hslot := h.slot_visible cfg path j
  have hclosed := h.unopened j id c hj hc
  cases heff with
  | quiet hfs hopener hfile' =>
    rw [hfs, hopener]
    refine ⟨rfl, fun _ hx => hx, rfl, ?_⟩
    rcases hfile' with hf | hf <;> rw [hf]
    · simp
    · exact hclosed
  | opens i a data hheld hopener hfile' hapart hfs =>
    have hji : j ≠ i := by
      rintro rfl
      obtain ⟨ha, -⟩ | ⟨-, hnext, -⟩ := hfs
      · exact hapart (hslot a hj ha)
      · have := h.bound_visible cfg path j (.inr hj)
        omega
    rw [hopener, hfile', Function.update_of_ne hji]
    obtain ⟨-, hfs⟩ | ⟨-, rfl, hfs⟩ := hfs <;> rw [hfs, InodeFS.write_file_ne _ hji]
    · exact ⟨rfl, fun _ hx => hx, rfl, by simpa using hji.symm⟩
    · refine ⟨rfl, fun x hx => ?_, rfl, by simpa using hji.symm⟩
      rw [InodeFS.write_entries, InodeFS.lookup_create] at hx
      split_ifs at hx
      · simp only [Option.some.injEq, Node.file.injEq] at hx
        exact absurd hx.symm hji
      · exact hx
  | appends i data now hheld hopener hfile hfile' hfs =>
    have hji : j ≠ i := by rintro rfl; exact hclosed hfile
    rw [hfs, hopener, hfile', InodeFS.append_file_ne _ hji, InodeFS.append_entries]
    exact ⟨rfl, fun _ hx => hx, rfl, hclosed⟩
  | renames hpc hopener hlock hfile' a b i hold ha hb hapart hfs =>
    rw [hfs, hopener, hfile']
    refine ⟨rfl, fun x hx => ?_, rfl, hclosed⟩
    rw [InodeFS.lookup_move] at hx
    split_ifs at hx
    · simp only [Option.some.injEq, Node.file.injEq] at hx
      subst hx
      exact absurd (hslot a hj ha) hapart
    · exact hx

lemma Effect.bound {opener opener' : Opener} {sh sh' : Shared} {id : ℕ} {c c' : WriteCall}
    (h : Effect cfg path opener sh id c sh' c' opener') (hbound : ∀ i, opener i ≠ none → i < sh.fs.next) :
    sh.fs.next ≤ sh'.fs.next ∧ ∀ i, opener' i ≠ none → i < sh'.fs.next := by
  cases h with
  | quiet hfs hopener => rw [hfs, hopener]; exact ⟨le_rfl, hbound⟩
  | opens i a data hheld hopener hfile' hapart hfs =>
    have hnext : sh.fs.next ≤ sh'.fs.next ∧ i < sh'.fs.next := by
      obtain ⟨ha, hfs⟩ | ⟨-, rfl, hfs⟩ := hfs <;> rw [hfs, InodeFS.write_next]
      · exact ⟨le_rfl, sh.fs.allocated a _ ha⟩
      · exact ⟨Nat.le_succ _, Nat.lt_succ_self _⟩
    refine ⟨hnext.1, fun j hj => ?_⟩
    by_cases hji : j = i
    · rw [hji]; exact hnext.2
    · rw [hopener, Function.update_of_ne hji] at hj
      exact (hbound j hj).trans_le hnext.1
  | appends i data now hheld hopener hfile hfile' hfs =>
    have hnext : sh'.fs.next = sh.fs.next := by
      rw [hfs, InodeFS.append]
      split_ifs <;> rfl
    rw [hnext, hopener]
    exact ⟨le_rfl, hbound⟩
  | renames hpc hopener hlock hfile' a b i hold ha hb hapart hfs =>
    rw [hfs, hopener]
    exact ⟨le_rfl, hbound⟩

theorem Inv.write {initial : Bytes → Prop} {shown : ℕ → Prop} {opener : Opener} {s : State}
    (h : Inv cfg path initial shown opener s) {id : ℕ} {env : StepEnv} {c c' : WriteCall} {sh' : Shared}
    (hc : s.writes id = some c) (hw : WriteStep cfg id env s.toShared c sh' c')
    (hharm : Harmless cfg path opener s (.write id env)) :
    Keeps cfg path initial shown (opener.next id c'.file) s
      { s with toShared := sh', writes := Function.update s.writes id (some c') } := by
  obtain ⟨hstream, hcinv⟩ := h.calls id c hc
  obtain ⟨hopen, hrename⟩ := hharm c hc
  have hopen (hpc : c.pc = .openTemp) (a : Slot) := hopen hpc (.entry a)
  have heff := effect_of_step cfg path hcinv hw hopen
  have hdirs := heff.dirs
  set s' : State := { s with toShared := sh', writes := Function.update s.writes id (some c') } with hs'
  have heff' : Effect cfg path opener s.toShared id c s'.toShared c' (opener.next id c'.file) := heff
  have huntouched {j : ℕ} (hj : shown j ∨ Visible cfg path s j) := h.untouched cfg path hc heff' hj
  have hfile (i : ℕ) (hi : c.file = some i) : opener i = some id := (hcinv.opener_of_file cfg path hi).1
  refine ⟨⟨?_, ?_, ?_, ?_, ?_, ?_⟩, fun i hi => (huntouched hi).1, hdirs⟩
  · intro id' c₁ hc₁
    obtain ⟨rfl, rfl⟩ | ⟨hne, hc₁⟩ := update_eq_some.mp hc₁
    · exact ⟨by rw [hw.stream]; exact hstream, hcinv.step cfg path hstream hw hopen⟩
    · exact ⟨(h.calls id' c₁ hc₁).1, (h.calls id' c₁ hc₁).2.frame cfg path (heff.frame cfg path hne hfile)⟩
  · intro i w hwi
    by_cases he : w = id
    · exact ⟨_, update_eq_some.mpr (.inl ⟨he, rfl⟩)⟩
    · have hwi' := ((heff.frame cfg path he hfile).opened i hwi).1
      obtain ⟨c₁, hc₁⟩ := h.arrived i w hwi'
      exact ⟨c₁, update_eq_some.mpr (.inr ⟨he, hc₁⟩)⟩
  · intro i hi
    have hbound := heff.bound cfg path fun i hi => h.bound i (.inl hi)
    rcases hi with hi | hi
    · exact hbound.2 i hi
    · exact (h.bound_visible cfg path i (.inr hi)).trans_le hbound.1
  · intro i a hi ha
    obtain ⟨-, hnames, -⟩ := huntouched hi
    exact hdirs.resolve (h.slot_visible cfg path i a hi (hnames a ha))
  · intro i id' c₁ hi hc₁ hopened
    have hi : (shown i ∨ Visible cfg path s i) ∨ (c.pc = .rename ∧ opener.next id c'.file = opener ∧
        s.fs.node (getServerFilepath cfg c.msg.filepath true) = .ok (.file i)) := by
      rcases hi with hi | hi
      · exact .inl hi
      · exact (Effect.visible cfg path heff' hi).imp .inr fun hr => hr
    obtain ⟨rfl, rfl⟩ | ⟨hne, hc₁⟩ := update_eq_some.mp hc₁
    · rcases hi with hi | ⟨hpc, hopener, hnode⟩
      · exact (huntouched hi).2.2.2 hopened
      · obtain ⟨w, hw', cw, hcw, hclosed, hnot⟩ := hrename hpc i hnode
        obtain ⟨hid, hnclosed⟩ := (hcinv.step cfg path hstream hw hopen).opener_of_file cfg path hopened
        rw [hopener, hw', Option.some.injEq] at hid
        subst hid
        obtain rfl : c = cw := by rw [hc] at hcw; simpa using hcw
        exact hnclosed (hw.closed cfg hclosed hnot).1
    · rcases hi with hi | ⟨hpc, hopener, hnode⟩
      · exact h.unopened i id' c₁ hi hc₁ hopened
      · obtain ⟨w, hw', cw, hcw, hclosed, hnot⟩ := hrename hpc i hnode
        obtain ⟨hid, hnclosed⟩ := (h.calls id' c₁ hc₁).2.opener_of_file cfg path hopened
        rw [hw', Option.some.injEq] at hid
        subst hid
        obtain rfl : c₁ = cw := by rw [hc₁] at hcw; simpa using hcw
        exact hnclosed hclosed
  · intro i hi
    -- the call that wrote the file stays closed and not cancelled
    have hstays {w : ℕ} {cw : WriteCall} (hcw : s.writes w = some cw) (hclosed : cw.Closed) (hnot : cw.NotCancelled) :
        ∃ cw', s'.writes w = some cw' ∧ cw'.Closed ∧ cw'.NotCancelled := by
      by_cases he : w = id
      · subst he
        obtain rfl : c = cw := by rw [hc] at hcw; simpa using hcw
        exact ⟨c', update_eq_some.mpr (.inl ⟨rfl, rfl⟩), hw.closed cfg hclosed hnot⟩
      · exact ⟨cw, update_eq_some.mpr (.inr ⟨he, hcw⟩), hclosed, hnot⟩
    rcases Effect.visible cfg path heff' hi with hold | ⟨hpc, hopener, hnode⟩
    · obtain ⟨hdata, -, hopener, -⟩ := huntouched (.inr hold)
      rcases h.whole i hold with ⟨hnone, hinit⟩ | ⟨w, cw, hwi, hcw, hclosed, hnot⟩
      · exact .inl ⟨by rw [hopener, hnone], by rwa [hdata]⟩
      · obtain ⟨cw', hcw', hstay⟩ := hstays hcw hclosed hnot
        exact .inr ⟨w, cw', by rw [hopener, hwi], hcw', hstay⟩
    · obtain ⟨w, hwi, cw, hcw, hclosed, hnot⟩ := hrename hpc i hnode
      obtain ⟨cw', hcw', hstay⟩ := hstays hcw hclosed hnot
      exact .inr ⟨w, cw', by rw [hopener, hwi], hcw', hstay⟩

lemma unlink_cases (env : StepEnv) (fs : InodeFS) :
    (Unlink cfg env path fs).1 = fs ∨ ∃ a j, fs.resolve (getServerFilepath cfg path false) = .ok (.entry a) ∧
      fs.entries.lookup a = some (.file j) ∧ (Unlink cfg env path fs).1 = fs.remove a := by
  unfold Unlink
  cases hu : env.syscall (fs.unlink (getServerFilepath cfg path false)) with
  | error e => exact .inl rfl
  | ok fs' =>
    obtain ⟨a, j, ha, haj, rfl⟩ := InodeFS.unlink_eq_ok (StepEnv.syscall_eq_ok.mp hu).2
    exact .inr ⟨a, j, ha, haj, rfl⟩

/-- Removing the file at the path takes nothing away from the calls. -/
theorem Inv.unlink {initial : Bytes → Prop} {shown : ℕ → Prop} {opener : Opener} {s : State}
    (h : Inv cfg path initial shown opener s) (env : StepEnv) :
    Keeps cfg path initial shown opener s { s with fs := (Unlink cfg env path s.fs).1 } := by
  rcases unlink_cases cfg path env s.fs with hfs | ⟨a, j, ha, haj, hfs⟩ <;> rw [hfs]
  · have hrefl := @Inv.refl cfg path initial shown opener s h s.reads
    exact hrefl
  · have hdirs := InodeFS.sameDirs_remove haj
    have hnone (i : ℕ) : ¬ Visible cfg path { s with fs := s.fs.remove a } i := by
      intro hi
      obtain ⟨p, hp, hpi⟩ := hi.slot
      have hpa := hdirs.symm.resolve hp
      rw [ha, Except.ok.injEq, Loc.entry.injEq] at hpa
      rw [InodeFS.lookup_remove, if_pos hpa.symm] at hpi
      cases hpi
    refine ⟨⟨fun id c hc => ⟨(h.calls id c hc).1, ?_⟩, h.arrived, h.bound_visible cfg path, fun i b hi hb => ?_,
      fun i id c hi hc => ?_, fun i hi => absurd hi (hnone i)⟩, fun _ _ => rfl, hdirs⟩
    · exact (h.calls id c hc).2.frame cfg path ⟨hdirs, fun hl => ⟨hl, rfl, rfl⟩, fun i hi => ⟨hi, rfl⟩⟩
    · rw [InodeFS.lookup_remove] at hb
      split_ifs at hb
      exact hdirs.resolve (h.slot_visible cfg path i b hi hb)
    · exact h.unopened i id c (hi.elim (fun hi => hi) fun hi => absurd hi (hnone i)) hc

/-- Every harmless event on the path keeps the invariant. -/
theorem Inv.step {initial : Bytes → Prop} {shown : ℕ → Prop} {opener : Opener} {s s' : State}
    (h : Inv cfg path initial shown opener s) {e : Event} (he : OnPath path e) (hharm : Harmless cfg path opener s e)
    (hs : step cfg s e = some s') : Keeps cfg path initial shown (nextOpener opener s' e) s s' := by
  cases e with
  | startWrite id stream =>
    simp only [Server.step] at hs
    split_ifs at hs with hnone
    cases hs
    exact h.startWrite cfg path hnone he
  | write id env =>
    simp only [Server.step, Option.bind_eq_some_iff, Option.map_eq_some_iff] at hs
    obtain ⟨c, hc, ⟨sh', c'⟩, hstep, rfl⟩ := hs
    have hnext : nextOpener opener { s with toShared := sh', writes := Function.update s.writes id (some c') }
        (.write id env) = opener.next id c'.file := by simp [nextOpener]
    rw [hnext]
    exact h.write cfg path hc (writeStep_of_step cfg hstep) hharm
  | cancel id =>
    simp only [Server.step, Option.map_eq_some_iff] at hs
    obtain ⟨c, hc, rfl⟩ := hs
    exact h.cancel cfg path hc hharm
  | startGetContent id filepath =>
    simp only [Server.step] at hs
    split_ifs at hs
    cases hs
    exact h.refl cfg path
  | getContent id env =>
    simp only [Server.step, Option.bind_eq_some_iff, Option.map_eq_some_iff] at hs
    obtain ⟨c, -, c', -, rfl⟩ := hs
    exact h.refl cfg path
  | unlink filepath env =>
    cases hs
    obtain rfl : filepath = path := he
    exact h.unlink cfg filepath env
  | rmdir filepath env => exact he.elim
  | mkdir filepath env => exact he.elim

theorem noMixing_of_inv {initial : Bytes → Prop} {shown : ℕ → Prop} {opener : Opener} {s : State}
    (h : Inv cfg path initial shown opener s) (es : List Event) (hpath : ∀ e ∈ es, OnPath path e)
    (hharm : HarmlessRun cfg path opener s es) : NoMixing cfg path initial shown s es := by
  induction es generalizing shown opener s with
  | nil => exact h.wholeVersion cfg path
  | cons e es ih =>
    refine ⟨h.wholeVersion cfg path, fun s' hs' => ?_⟩
    have hkeeps := h.step cfg path (hpath e (by simp)) hharm.1 hs'
    exact ⟨hkeeps.file, ih hkeeps.inv (fun e he => hpath e (by simp [he])) (hharm.2 s' hs')⟩

/-- What the path holds before the first call. -/
def initialContent (fs : InodeFS) (content : Bytes) : Prop :=
  ∃ i, fs.node (getServerFilepath cfg path false) = .ok (.file i) ∧ content = (fs.file i).content

lemma inv_idle (fs : InodeFS) :
    Inv cfg path (initialContent cfg path fs) (fun _ => False) (fun _ => none) (.idle fs) := by
  constructor
  · simp [State.idle]
  · simp
  · simp
  · simp
  · simp [State.idle]
  · exact fun i hi => .inl ⟨rfl, i, hi, rfl⟩

/-- Any number of concurrent uploads of one path never mix: in every run of harmless steps the path
always holds a whole version, and no file once visible there is modified. -/
theorem noMixing_of_harmlessRun (fs : InodeFS) (es : List Event) (hpath : ∀ e ∈ es, OnPath path e)
    (hharm : HarmlessRun cfg path (fun _ => none) (.idle fs) es) :
    NoMixing cfg path (initialContent cfg path fs) (fun _ => False) (.idle fs) es :=
  noMixing_of_inv cfg path (inv_idle cfg path fs) es hpath hharm

/-- Two uploads of `/f`, the second starting while the first waits at its rename. -/
def orderlyUploads : List Event :=
  .startWrite 0 [⟨Bytes.ascii "/f", Bytes.ascii "aa"⟩] :: List.replicate 9 (.write 0 (.quiet 1)) ++
    .startWrite 1 [⟨Bytes.ascii "/f", Bytes.ascii "b"⟩] ::
      .write 1 (.quiet 2) :: .write 0 (.quiet 1) :: List.replicate 9 (.write 1 (.quiet 2))

theorem noMixing_of_harmlessRun_orderlyUploads :
    NoMixing exampleConfig (Bytes.ascii "/f") (initialContent exampleConfig (Bytes.ascii "/f") exampleState.fs)
      (fun _ => False) (.idle exampleState.fs) orderlyUploads :=
  noMixing_of_harmlessRun _ _ _ _ (by decide) (by decide)

lemma NoMixing.wholeVersion {initial : Bytes → Prop} {shown : ℕ → Prop} {s s' : State} {es : List Event}
    (h : NoMixing cfg path initial shown s es) (hrun : run cfg s es = some s') : WholeVersion cfg path initial s' := by
  induction es generalizing shown s with
  | nil => cases hrun; exact h
  | cons e es ih =>
    obtain ⟨s₁, hs₁, hrun⟩ := Option.bind_eq_some_iff.mp hrun
    exact ih (h.2 s₁ hs₁).2 hrun

/-- The first upload of `/f` passes its checks, the second truncates the shared temporary file and
writes its first chunk, the first renames that file into place. -/
def mixedUploads : List Event :=
  .startWrite 0 [⟨Bytes.ascii "/f", Bytes.ascii "aa"⟩] :: List.replicate 9 (.write 0 (.quiet 1)) ++
    .startWrite 1 [⟨Bytes.ascii "/f", Bytes.ascii "b"⟩, ⟨Bytes.ascii "/f", Bytes.ascii "c"⟩] ::
      List.replicate 4 (.write 1 (.quiet 2)) ++ [.write 0 (.quiet 1)]

/-- Half of the second upload becomes visible. -/
theorem not_noMixing_mixedUploads :
    (∀ e ∈ mixedUploads, OnPath (Bytes.ascii "/f") e) ∧
      ¬ NoMixing exampleConfig (Bytes.ascii "/f") (initialContent exampleConfig (Bytes.ascii "/f") exampleState.fs)
        (fun _ => False) exampleState mixedUploads := by
  refine ⟨by decide, fun h => ?_⟩
  have hinit : exampleState.fs.node (getServerFilepath exampleConfig (Bytes.ascii "/f") false) = .error .ENOENT := by
    decide
  have hrun : (run exampleConfig exampleState mixedUploads).map (fun s =>
      (s.fs.node (getServerFilepath exampleConfig (Bytes.ascii "/f") false), (s.fs.file 3).content,
        [(s.writes 0).map WriteCall.content, (s.writes 1).map WriteCall.content])) =
      some (.ok (.file 3), Bytes.ascii "b", [some (Bytes.ascii "aa"), some (Bytes.ascii "bc")]) := by
    decide
  obtain ⟨s, hs, hobserved⟩ := Option.map_eq_some_iff.mp hrun
  simp only [Prod.mk.injEq, List.cons.injEq, and_true] at hobserved
  obtain ⟨hvisible, hcontent, h0, h1⟩ := hobserved
  rcases h.wholeVersion exampleConfig _ hs 3 hvisible with ⟨i, hi, -⟩ | ⟨id, c, hc, -, hcid⟩
  · rw [hinit] at hi
    cases hi
  · rw [hcontent] at hcid
    by_cases hid0 : id = 0
    · subst hid0
      rw [hc, Option.map_some, ← hcid] at h0
      exact absurd h0 (by decide)
    · by_cases hid1 : id = 1
      · subst hid1
        rw [hc, Option.map_some, ← hcid] at h1
        exact absurd h1 (by decide)
      · have hnone : s.writes id = none := writes_run_none exampleConfig hs rfl (by simp [mixedUploads, hid0, hid1])
        rw [hnone] at hc
        cases hc

end AFSv1.Server
