import AFSv1.Server.Steps

/-! One `Write` call among others on its path: who opened the shared temporary file last, what the
call has written to it, and which steps of other calls leave that alone. -/
namespace AFSv1.Server
open Foundations Tables

variable (cfg : Config) (path : Bytes)

/-- The cancellation check has let the call pass. -/
def WriteCall.Passed (c : WriteCall) : Prop := c.pc = .stat ∨ c.pc = .rename ∨ c.pc = .returned .OK

/-- The stream of the call is closed. -/
def WriteCall.Closed (c : WriteCall) : Prop :=
  c.pc = .unlock ∨ c.pc = .checkCancelled ∨ c.Passed ∨ c.pc = .returned .CANCELLED

/-- The call is not cancelled, or was so too late to be noticed. -/
def WriteCall.NotCancelled (c : WriteCall) : Prop := c.cancelled = false ∨ c.Passed

instance (c : WriteCall) : Decidable c.Passed := by unfold WriteCall.Passed; infer_instance
instance (c : WriteCall) : Decidable c.Closed := by unfold WriteCall.Closed; infer_instance
instance (c : WriteCall) : Decidable c.NotCancelled := by unfold WriteCall.NotCancelled; infer_instance

/-- The call that opened each file last. -/
abbrev Opener := ℕ → Option ℕ

def Opener.next (opener : Opener) (id : ℕ) : Option ℕ → Opener
  | some i => Function.update opener i (some id)
  | none => opener

/-! ### The invariant of one call -/

/-- `data` is the part of the stream read so far. -/
def WriteCall.Received (c : WriteCall) (data : Bytes) : Prop :=
  ∃ got, c.stream = got ++ c.incoming ∧ data = got.flatMap FilepathContent.b

/-- The stream was read to its end, unless the call is cancelled. -/
def WriteCall.Complete (c : WriteCall) : Prop := c.incoming = [] ∨ c.cancelled = true

/-- The message read last carries the path, unless there was none. -/
def WriteCall.Named (c : WriteCall) : Prop :=
  c.ended = true ∧ c.msg = {} ∧ c.Complete ∨ c.ended = false ∧ c.msg.filepath = path

/-- The temporary name is a slot for files, apart from the path. -/
def WriteCall.TempApart (fs : InodeFS) (c : WriteCall) : Prop :=
  c.filepath = getServerFilepath cfg c.msg.filepath true ∧
  ∃ a, fs.resolve c.filepath = .ok (.entry a) ∧ (∀ d, fs.entries.lookup a ≠ some (.dir d)) ∧
    fs.resolve (getServerFilepath cfg path false) ≠ .ok (.entry a)

/-- The call holds the mutex and has `i` open, as the only file it ever opened. -/
def WriteCall.Writes (opener : Opener) (lock : Option ℕ) (id : ℕ) (c : WriteCall) (i : ℕ) : Prop :=
  lock = some id ∧ c.file = some i ∧ opener i = some id ∧ ∀ j, opener j = some id → j = i

/-- The call has no file open and opened none so far. -/
def WriteCall.Fresh (opener : Opener) (id : ℕ) (c : WriteCall) : Prop := c.file = none ∧ ∀ i, opener i ≠ some id

/-- The file of a closed call, unless another call has opened it since. -/
def WriteCall.Wrote (opener : Opener) (fs : InodeFS) (id : ℕ) (c : WriteCall) : Prop :=
  c.file = none ∧ ∀ i, opener i = some id → c.incoming = [] → (fs.file i).content = c.content

/-- What holds of a call in each state of its program. -/
def WriteCall.Inv (opener : Opener) (sh : Shared) (id : ℕ) (c : WriteCall) : Prop :=
  match c.pc with
  | .readFirst => c.Fresh opener id ∧ c.incoming = c.stream ∧ c.msg = {} ∧ c.ended = false
  | .lock => c.Fresh opener id ∧ c.filepath = getServerFilepath cfg c.msg.filepath true ∧ c.Named path ∧
      c.Received c.msg.b
  | .openTemp => c.Fresh opener id ∧ c.filepath = getServerFilepath cfg c.msg.filepath true ∧ c.Named path ∧
      c.Received c.msg.b ∧ sh.lock = some id
  | .append => c.TempApart cfg path sh.fs ∧ c.Named path ∧
      ∃ i, c.Writes opener sh.lock id i ∧ c.Received ((sh.fs.file i).content ++ c.msg.b)
  | .read => c.TempApart cfg path sh.fs ∧ c.Named path ∧
      ∃ i, c.Writes opener sh.lock id i ∧ c.Received (sh.fs.file i).content
  | .close => c.TempApart cfg path sh.fs ∧ c.Complete ∧
      ∃ i, c.Writes opener sh.lock id i ∧ c.Received (sh.fs.file i).content
  | .unlock => c.TempApart cfg path sh.fs ∧ c.Complete ∧ c.Wrote opener sh.fs id ∧ sh.lock = some id
  | .checkCancelled => c.TempApart cfg path sh.fs ∧ c.Complete ∧ c.Wrote opener sh.fs id
  | .stat | .rename => c.TempApart cfg path sh.fs ∧ c.incoming = [] ∧ c.Wrote opener sh.fs id
  | .returned .OK => c.incoming = [] ∧ c.Wrote opener sh.fs id
  | .returned .CANCELLED => c.cancelled = true ∧ c.file = none
  | .returned _ => c.file = none

/-- What a step of another call may change under a call. -/
structure Frame (opener opener' : Opener) (sh sh' : Shared) (id : ℕ) : Prop where
  dirs : InodeFS.SameDirs sh.fs sh'.fs
  lock : sh.lock = some id → sh'.lock = some id ∧ opener' = opener ∧ sh'.fs.file = sh.fs.file
  opened : ∀ i, opener' i = some id → opener i = some id ∧ sh'.fs.file i = sh.fs.file i

lemma WriteCall.TempApart.frame {fs fs' : InodeFS} (hdirs : InodeFS.SameDirs fs fs') {c : WriteCall}
    (h : c.TempApart cfg path fs) : c.TempApart cfg path fs' := by
  obtain ⟨hname, a, ha, hdir, hne⟩ := h
  refine ⟨hname, a, hdirs.resolve ha, fun d hd => hdir d ((hdirs.dirs a d).mp hd), fun he => hne ?_⟩
  exact hdirs.symm.resolve he

lemma WriteCall.Fresh.frame {opener opener' : Opener} {sh sh' : Shared} {id : ℕ} {c : WriteCall}
    (hf : Frame opener opener' sh sh' id) (h : c.Fresh opener id) : c.Fresh opener' id :=
  ⟨h.1, fun i hi => h.2 i (hf.opened i hi).1⟩

lemma WriteCall.Wrote.frame {opener opener' : Opener} {sh sh' : Shared} {id : ℕ} {c : WriteCall}
    (hf : Frame opener opener' sh sh' id) (h : c.Wrote opener sh.fs id) : c.Wrote opener' sh'.fs id := by
  refine ⟨h.1, fun i hi hin => ?_⟩
  obtain ⟨hi', hfile⟩ := hf.opened i hi
  rw [hfile]
  exact h.2 i hi' hin

/-- A call whose step it is not keeps its invariant. -/
theorem WriteCall.Inv.frame {opener opener' : Opener} {sh sh' : Shared} {id : ℕ} {c : WriteCall}
    (hf : Frame opener opener' sh sh' id) (h : c.Inv cfg path opener sh id) : c.Inv cfg path opener' sh' id := by
  have hwrites {i : ℕ} (data : Bytes → Bytes) (hw : c.Writes opener sh.lock id i)
      (hr : c.Received (data (sh.fs.file i).content)) :
      c.Writes opener' sh'.lock id i ∧ c.Received (data (sh'.fs.file i).content) := by
    obtain ⟨hlock, hopener, hfile⟩ := hf.lock hw.1
    rw [hopener, hfile]
    exact ⟨⟨hlock, hw.2⟩, hr⟩
  unfold WriteCall.Inv at h ⊢
  split at h
  · exact ⟨h.1.frame hf, h.2⟩
  · exact ⟨h.1.frame hf, h.2⟩
  · obtain ⟨hfresh, hname, hnamed, hr, hlock⟩ := h
    exact ⟨hfresh.frame hf, hname, hnamed, hr, (hf.lock hlock).1⟩
  · obtain ⟨hapart, hnamed, i, hw, hr⟩ := h
    exact ⟨hapart.frame cfg path hf.dirs, hnamed, i, hwrites (· ++ c.msg.b) hw hr⟩
  · obtain ⟨hapart, hnamed, i, hw, hr⟩ := h
    exact ⟨hapart.frame cfg path hf.dirs, hnamed, i, hwrites (fun b => b) hw hr⟩
  · obtain ⟨hapart, hcomplete, i, hw, hr⟩ := h
    exact ⟨hapart.frame cfg path hf.dirs, hcomplete, i, hwrites (fun b => b) hw hr⟩
  · obtain ⟨hapart, hcomplete, hw, hlock⟩ := h
    exact ⟨hapart.frame cfg path hf.dirs, hcomplete, hw.frame hf, (hf.lock hlock).1⟩
  · exact ⟨h.1.frame cfg path hf.dirs, h.2.1, h.2.2.frame hf⟩
  · exact ⟨h.1.frame cfg path hf.dirs, h.2.1, h.2.2.frame hf⟩
  · exact ⟨h.1.frame cfg path hf.dirs, h.2.1, h.2.2.frame hf⟩
  · exact ⟨h.1, h.2.frame hf⟩
  · exact h
  · exact h

/-- What a step of a call changes outside the call: nothing, the file it opens or appends to, or
the names of the files. -/
inductive Effect (opener : Opener) (sh : Shared) (id : ℕ) (c : WriteCall) (sh' : Shared) (c' : WriteCall)
    (opener' : Opener) : Prop where
  | quiet (hfs : sh'.fs = sh.fs) (hopener : opener' = opener) (hfile' : c'.file = none ∨ c'.file = c.file)
      (hlock : ∀ id', id' ≠ id → sh.lock = some id' → sh'.lock = some id')
  | opens (i : ℕ) (a : Slot) (data : FileData) (hheld : sh.lock = some id)
      (hopener : opener' = Function.update opener i (some id)) (hfile' : c'.file = some i)
      (hapart : sh.fs.resolve (getServerFilepath cfg path false) ≠ .ok (.entry a))
      (hfs : (sh.fs.entries.lookup a = some (.file i) ∧ sh'.fs = sh.fs.write i data) ∨
        (sh.fs.entries.lookup a = none ∧ i = sh.fs.next ∧
          sh'.fs = (sh.fs.create a .file Node.ino_file).write sh.fs.next data))
  | appends (i : ℕ) (data now : Bytes) (hheld : sh.lock = some id) (hopener : opener' = opener)
      (hfile : c.file = some i) (hfile' : c'.file = c.file) (hfs : sh'.fs = sh.fs.append i data now)
  | renames (hpc : c.pc = .rename) (hopener : opener' = opener) (hlock : sh'.lock = sh.lock)
      (hfile' : c'.file = c.file) (a b : Slot) (i : ℕ)
      (hold : sh.fs.resolve (getServerFilepath cfg c.msg.filepath true) = .ok (.entry a))
      (ha : sh.fs.entries.lookup a = some (.file i))
      (hb : ∀ d, sh.fs.entries.lookup b ≠ some (.dir d))
      (hapart : sh.fs.resolve (getServerFilepath cfg path false) ≠ .ok (.entry a))
      (hfs : sh'.fs = sh.fs.move a b (.file i) ha)

lemma nextMsg_eq_some {c : WriteCall} {env : StepEnv} {msg : FilepathContent} {incoming : List FilepathContent}
    (h : c.nextMsg env = some (msg, incoming)) : c.ended = false ∧ c.incoming = msg :: incoming := by
  unfold WriteCall.nextMsg at h
  split_ifs at h with hend
  simp only [Bool.or_eq_true, not_or, Bool.not_eq_true] at hend
  split at h
  · cases h
  · rename_i hin
    cases h
    exact ⟨hend.1, hin⟩

lemma nextMsg_eq_none {c : WriteCall} {env : StepEnv} (h : c.nextMsg env = none) : c.ended = true ∨ c.Complete := by
  unfold WriteCall.nextMsg at h
  split_ifs at h with hend
  · simp only [Bool.or_eq_true, Bool.and_eq_true] at hend
    exact hend.imp id fun hc => .inr hc.1
  · split at h
    · rename_i hin
      exact .inr (.inl hin)
    · cases h

lemma Opener.next_of_writes {opener : Opener} {lock : Option ℕ} {id i : ℕ} {c : WriteCall}
    (h : c.Writes opener lock id i) : Opener.next opener id (some i) = opener := by
  funext j
  by_cases hj : j = i
  · subst hj
    simp [Opener.next, h.2.2.1]
  · simp [Opener.next, hj]

theorem effect_of_step {opener : Opener} {sh sh' : Shared} {id : ℕ} {env : StepEnv} {c c' : WriteCall}
    (h : c.Inv cfg path opener sh id) (hw : WriteStep cfg id env sh c sh' c')
    (hopen : c.pc = .openTemp → ∀ a, sh.fs.resolve c.filepath = .ok (.entry a) →
      sh.fs.resolve (getServerFilepath cfg path false) ≠ .ok (.entry a)) :
    Effect cfg path opener sh id c sh' c' (Opener.next opener id c'.file) := by
  have hquiet (hnone : c.file = none) : Opener.next opener id c.file = opener := by rw [hnone]; rfl
  cases hw with
  | readFirst hpc msg incoming hnext =>
    simp only [WriteCall.Inv, hpc] at h
    exact .quiet rfl (hquiet h.1.1) (.inr rfl) fun _ _ hl => hl
  | readNone hpc hnext =>
    simp only [WriteCall.Inv, hpc] at h
    exact .quiet rfl (hquiet h.1.1) (.inr rfl) fun _ _ hl => hl
  | lock hpc hfree =>
    simp only [WriteCall.Inv, hpc] at h
    refine .quiet rfl (hquiet h.1.1) (.inr rfl) fun id' _ hl => ?_
    rw [hfree] at hl
    cases hl
  | openTemp hpc i fs hok =>
    simp only [WriteCall.Inv, hpc] at h
    obtain ⟨a, ha, hcase⟩ := InodeFS.openTrunc_eq_ok (StepEnv.syscall_eq_ok.mp hok).2
    exact .opens i a ⟨[], env.now⟩ h.2.2.2.2 rfl rfl (hopen hpc a ha) hcase
  | openFailed hpc =>
    simp only [WriteCall.Inv, hpc] at h
    exact .quiet rfl (hquiet h.1.1) (.inr rfl) fun _ _ hl => hl
  | append hpc i hfile =>
    simp only [WriteCall.Inv, hpc] at h
    obtain ⟨-, -, j, hj, -⟩ := h
    obtain rfl : i = j := by have := hj.2.1; rw [hfile] at this; simpa using this
    exact .appends i c.msg.b env.now hj.1 (by rw [hfile]; exact Opener.next_of_writes hj) hfile rfl rfl
  | appendNone hpc hfile =>
    exact .quiet rfl (hquiet hfile) (.inr rfl) fun _ _ hl => hl
  | read hpc msg incoming hnext =>
    simp only [WriteCall.Inv, hpc] at h
    obtain ⟨-, -, j, hj, -⟩ := h
    exact .quiet rfl (by rw [hj.2.1]; exact Opener.next_of_writes hj) (.inr rfl) fun _ _ hl => hl
  | readEnd hpc hnext =>
    simp only [WriteCall.Inv, hpc] at h
    obtain ⟨-, -, j, hj, -⟩ := h
    exact .quiet rfl (by rw [hj.2.1]; exact Opener.next_of_writes hj) (.inr rfl) fun _ _ hl => hl
  | close hpc => exact .quiet rfl rfl (.inl rfl) fun _ _ hl => hl
  | unlock hpc =>
    simp only [WriteCall.Inv, hpc] at h
    refine .quiet rfl (hquiet h.2.2.1.1) (.inr rfl) fun id' hne hl => ?_
    rw [h.2.2.2, Option.some.injEq] at hl
    exact absurd hl.symm hne
  | refuse hpc hcancelled =>
    simp only [WriteCall.Inv, hpc] at h
    exact .quiet rfl (hquiet h.2.2.1) (.inr rfl) fun _ _ hl => hl
  | proceed hpc hcancelled =>
    simp only [WriteCall.Inv, hpc] at h
    exact .quiet rfl (hquiet h.2.2.1) (.inr rfl) fun _ _ hl => hl
  | stat hpc =>
    simp only [WriteCall.Inv, hpc] at h
    exact .quiet rfl (hquiet h.2.2.1) (.inr rfl) fun _ _ hl => hl
  | renamed hpc fs hok =>
    simp only [WriteCall.Inv, hpc] at h
    obtain ⟨⟨hname, a, ha, hdir, hapart⟩, -, hwrote⟩ := h
    rw [hname] at ha
    obtain ⟨b, i, hai, hb, hbdir, rfl⟩ := InodeFS.rename_eq_ok_of_notDir ha hdir (StepEnv.syscall_eq_ok.mp hok).2
    exact .renames hpc (hquiet hwrote.1) rfl rfl a b i ha hai hbdir hapart rfl
  | renameFailed hpc hfail =>
    simp only [WriteCall.Inv, hpc] at h
    exact .quiet rfl (hquiet h.2.2.1) (.inr rfl) fun _ _ hl => hl

lemma Effect.dirs {opener opener' : Opener} {sh sh' : Shared} {id : ℕ} {c c' : WriteCall}
    (h : Effect cfg path opener sh id c sh' c' opener') : InodeFS.SameDirs sh.fs sh'.fs := by
  cases h with
  | quiet hfs => rw [hfs]; exact .refl _
  | opens i a data hheld hopener hfile' hapart hfs =>
    obtain ⟨-, hfs⟩ | ⟨ha, -, hfs⟩ := hfs <;> rw [hfs]
    · exact InodeFS.sameDirs_write ..
    · exact (InodeFS.sameDirs_create ha).trans (InodeFS.sameDirs_write ..)
  | appends i data now hheld hopener hfile hfile' hfs => rw [hfs]; exact InodeFS.sameDirs_append ..
  | renames hpc hopener hlock hfile' a b i hold ha hb hapart hfs => rw [hfs]; exact InodeFS.sameDirs_move ha hb

/-- Only the opened or appended file changes its contents. -/
lemma Effect.file {opener opener' : Opener} {sh sh' : Shared} {id : ℕ} {c c' : WriteCall}
    (h : Effect cfg path opener sh id c sh' c' opener') {j : ℕ} (hj : opener' j ≠ some id ∨ sh.lock ≠ some id)
    (hc : ∀ i, c.file = some i → opener i = some id) : sh'.fs.file j = sh.fs.file j := by
  cases h with
  | quiet hfs => rw [hfs]
  | opens i a data hheld hopener hfile' hapart hfs =>
    have hne : j ≠ i := by
      rintro rfl
      rcases hj with hj | hj
      · exact hj (by rw [hopener, Function.update_self])
      · exact hj hheld
    obtain ⟨-, hfs⟩ | ⟨-, rfl, hfs⟩ := hfs <;> rw [hfs, InodeFS.write_file_ne _ hne]
    rfl
  | appends i data now hheld hopener hfile hfile' hfs =>
    have hne : j ≠ i := by
      rintro rfl
      rcases hj with hj | hj
      · exact hj (by rw [hopener]; exact hc j hfile)
      · exact hj hheld
    rw [hfs, InodeFS.append_file_ne _ hne]
  | renames hpc hopener hlock hfile' a b i hold ha hb hapart hfs => rw [hfs]; rfl

/-- No step changes anything under another call. -/
theorem Effect.frame {opener opener' : Opener} {sh sh' : Shared} {id id' : ℕ} {c c' : WriteCall}
    (h : Effect cfg path opener sh id c sh' c' opener') (hne : id' ≠ id) (hc : ∀ i, c.file = some i → opener i = some id) :
    Frame opener opener' sh sh' id' := by
  refine ⟨h.dirs, fun hlock => ?_, fun i hi => ⟨?_, ?_⟩⟩
  · have hnot : sh.lock ≠ some id := by rw [hlock]; simpa using hne
    refine ⟨?_, ?_, funext fun j => h.file cfg path (.inr hnot) hc⟩
    · cases h with
      | quiet hfs hopener hfile' hl => exact hl id' hne hlock
      | opens i a data hheld => exact absurd hheld hnot
      | appends i data now hheld => exact absurd hheld hnot
      | renames hpc hopener hl => rw [hl, hlock]
    · cases h with
      | quiet hfs hopener => exact hopener
      | opens i a data hheld => exact absurd hheld hnot
      | appends i data now hheld => exact absurd hheld hnot
      | renames hpc hopener => exact hopener
  · cases h with
    | quiet hfs hopener => rwa [hopener] at hi
    | opens j a data hheld hopener =>
      rw [hopener] at hi
      by_cases hij : i = j
      · subst hij
        rw [Function.update_self, Option.some.injEq] at hi
        exact absurd hi.symm hne
      · rwa [Function.update_of_ne hij] at hi
    | appends j data now hheld hopener => rwa [hopener] at hi
    | renames hpc hopener => rwa [hopener] at hi
  · refine h.file cfg path (.inl ?_) hc
    rw [hi]
    simpa using hne

/-- A call has a file open only between its open and its close, holding the mutex. -/
theorem WriteCall.Inv.file_cases {opener : Opener} {sh : Shared} {id : ℕ} {c : WriteCall}
    (h : c.Inv cfg path opener sh id) : c.file = none ∨ ∃ i, c.Writes opener sh.lock id i ∧ ¬ c.Closed := by
  unfold WriteCall.Inv at h
  split at h
  case h_1 => exact .inl h.1.1
  case h_2 => exact .inl h.1.1
  case h_3 => exact .inl h.1.1
  case h_4 hpc =>
    obtain ⟨-, -, i, hw, -⟩ := h
    exact .inr ⟨i, hw, by simp [WriteCall.Closed, WriteCall.Passed, hpc]⟩
  case h_5 hpc =>
    obtain ⟨-, -, i, hw, -⟩ := h
    exact .inr ⟨i, hw, by simp [WriteCall.Closed, WriteCall.Passed, hpc]⟩
  case h_6 hpc =>
    obtain ⟨-, -, i, hw, -⟩ := h
    exact .inr ⟨i, hw, by simp [WriteCall.Closed, WriteCall.Passed, hpc]⟩
  case h_7 => exact .inl h.2.2.1.1
  case h_8 => exact .inl h.2.2.1
  case h_9 => exact .inl h.2.2.1
  case h_10 => exact .inl h.2.2.1
  case h_11 => exact .inl h.2.1
  case h_12 => exact .inl h.2
  case h_13 => exact .inl h

lemma WriteCall.Inv.opener_of_file {opener : Opener} {sh : Shared} {id i : ℕ} {c : WriteCall}
    (h : c.Inv cfg path opener sh id) (hi : c.file = some i) : opener i = some id ∧ ¬ c.Closed := by
  rcases h.file_cases with hnone | ⟨j, hw, hclosed⟩
  · rw [hnone] at hi
    cases hi
  · obtain rfl : i = j := by have := hw.2.1; rw [hi] at this; simpa using this
    exact ⟨hw.2.2.1, hclosed⟩

/-- A call's own step keeps its invariant. -/
theorem WriteCall.Inv.step {opener : Opener} {sh sh' : Shared} {id : ℕ} {env : StepEnv} {c c' : WriteCall}
    (hstream : ∀ msg ∈ c.stream, msg.filepath = path) (h : c.Inv cfg path opener sh id)
    (hw : WriteStep cfg id env sh c sh' c')
    (hopen : c.pc = .openTemp → ∀ a, sh.fs.resolve c.filepath = .ok (.entry a) →
      sh.fs.resolve (getServerFilepath cfg path false) ≠ .ok (.entry a)) :
    c'.Inv cfg path (Opener.next opener id c'.file) sh' id := by
  have hquiet (hnone : c.file = none) : Opener.next opener id c.file = opener := by rw [hnone]; rfl
  have hkeep {i : ℕ} (hi : c.Writes opener sh.lock id i) : Opener.next opener id c.file = opener := by
    rw [hi.2.1]
    exact Opener.next_of_writes hi
  cases hw with
  | readFirst hpc msg incoming hnext =>
    simp only [WriteCall.Inv, hpc] at h ⊢
    obtain ⟨hfresh, hin, -, -⟩ := h
    obtain ⟨hended, hin'⟩ := nextMsg_eq_some hnext
    rw [hquiet hfresh.1]
    have hstreameq : c.stream = msg :: incoming := by rw [← hin, hin']
    refine ⟨hfresh, trivial, .inr ⟨hended, ?_⟩, [msg], hstreameq, by simp⟩
    exact hstream msg (by rw [hstreameq]; simp)
  | readNone hpc hnext =>
    simp only [WriteCall.Inv, hpc] at h ⊢
    obtain ⟨hfresh, hin, hmsg, hended⟩ := h
    rw [hquiet hfresh.1]
    refine ⟨hfresh, trivial, .inl ⟨rfl, hmsg, ?_⟩, [], by simp [hin], by simp [hmsg]⟩
    rcases nextMsg_eq_none hnext with he | hcomplete
    · rw [hended] at he; cases he
    · exact hcomplete
  | lock hpc hfree =>
    simp only [WriteCall.Inv, hpc] at h ⊢
    rw [hquiet h.1.1]
    exact ⟨h.1, h.2.1, h.2.2.1, h.2.2.2, trivial⟩
  | openTemp hpc i fs hok =>
    simp only [WriteCall.Inv, hpc] at h ⊢
    obtain ⟨hfresh, hname, hnamed, hr, hlock⟩ := h
    have hok' := (StepEnv.syscall_eq_ok.mp hok).2
    obtain ⟨a, ha, ha', hai, hempty⟩ := InodeFS.openTrunc_slot hok'
    have hdirs := InodeFS.sameDirs_openTrunc hok'
    refine ⟨⟨hname, a, ha', ?_, fun he => hopen hpc a ha (hdirs.symm.resolve he)⟩, hnamed, i, ⟨hlock, rfl, ?_, ?_⟩, ?_⟩
    · intro d hd
      rw [hai] at hd
      cases hd
    · simp [Opener.next]
    · intro j hj
      by_contra hne
      rw [Opener.next, Function.update_of_ne hne] at hj
      exact hfresh.2 j hj
    · rw [hempty]
      exact hr
  | openFailed hpc =>
    simp only [WriteCall.Inv, hpc] at h ⊢
    exact h.1.1
  | append hpc i hfile =>
    simp only [WriteCall.Inv, hpc] at h ⊢
    obtain ⟨hapart, hnamed, j, hj, hr⟩ := h
    obtain rfl : i = j := by have := hj.2.1; rw [hfile] at this; simpa using this
    rw [hkeep hj]
    refine ⟨hapart.frame cfg path (InodeFS.sameDirs_append ..), hnamed, i, hj, ?_⟩
    rw [InodeFS.append_content]
    exact hr
  | appendNone hpc hfile =>
    simp only [WriteCall.Inv, hpc] at h
    obtain ⟨-, -, j, hj, -⟩ := h
    rw [hj.2.1] at hfile
    cases hfile
  | read hpc msg incoming hnext =>
    simp only [WriteCall.Inv, hpc] at h ⊢
    obtain ⟨⟨hname, hslot⟩, hnamed, j, hj, got, hgot, hdata⟩ := h
    obtain ⟨hended, hin⟩ := nextMsg_eq_some hnext
    have hmsg : msg.filepath = path := hstream msg (by rw [hgot, hin]; simp)
    have hold : c.msg.filepath = path := by
      rcases hnamed with ⟨he, -⟩ | ⟨-, hp⟩
      · rw [hended] at he; cases he
      · exact hp
    rw [hkeep hj]
    refine ⟨⟨by rw [hname, hold, hmsg], hslot⟩, .inr ⟨hended, hmsg⟩, j, hj, got ++ [msg], by simp [hgot, hin], ?_⟩
    simp [hdata]
  | readEnd hpc hnext =>
    simp only [WriteCall.Inv, hpc] at h ⊢
    obtain ⟨hapart, hnamed, j, hj, hr⟩ := h
    rw [hkeep hj]
    refine ⟨hapart, ?_, j, hj, hr⟩
    rcases nextMsg_eq_none hnext with he | hcomplete
    · rcases hnamed with ⟨-, -, hcomplete⟩ | ⟨hne, -⟩
      · exact hcomplete
      · rw [hne] at he; cases he
    · exact hcomplete
  | close hpc =>
    simp only [WriteCall.Inv, hpc] at h ⊢
    obtain ⟨hapart, hcomplete, j, hj, got, hgot, hdata⟩ := h
    refine ⟨hapart, hcomplete, ⟨rfl, fun i hi hin => ?_⟩, hj.1⟩
    rw [hj.2.2.2 i hi, hdata, WriteCall.content, hgot, hin, List.append_nil]
  | unlock hpc =>
    simp only [WriteCall.Inv, hpc] at h ⊢
    rw [hquiet h.2.2.1.1]
    exact ⟨h.1, h.2.1, h.2.2.1⟩
  | refuse hpc hcancelled =>
    simp only [WriteCall.Inv, hpc] at h ⊢
    exact ⟨hcancelled, h.2.2.1⟩
  | proceed hpc hcancelled =>
    simp only [WriteCall.Inv, hpc] at h ⊢
    rw [hquiet h.2.2.1]
    refine ⟨h.1, h.2.1.resolve_right ?_, h.2.2⟩
    simp [hcancelled]
  | stat hpc =>
    simp only [WriteCall.Inv, hpc] at h ⊢
    rw [hquiet h.2.2.1]
    exact h
  | renamed hpc fs hok =>
    simp only [WriteCall.Inv, hpc] at h ⊢
    obtain ⟨⟨hname, a, ha, hdir, hapart⟩, hin, hwrote⟩ := h
    rw [hname] at ha
    obtain ⟨b, i, hai, hb, hbdir, rfl⟩ := InodeFS.rename_eq_ok_of_notDir ha hdir (StepEnv.syscall_eq_ok.mp hok).2
    rw [hquiet hwrote.1]
    exact ⟨hin, hwrote⟩
  | renameFailed hpc hfail =>
    simp only [WriteCall.Inv, hpc] at h ⊢
    rw [hquiet h.2.2.1]
    exact h.2

end AFSv1.Server
