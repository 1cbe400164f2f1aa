import AFSv1.Client.Upload

/-! Which release publishes. Beside the clients' states it is recorded which open handles were written
through, which of these writes were not uploaded yet, and which paths have such writes from closed handles or
from before a crash. -/
namespace AFSv1.Client
open Foundations Tables

variable {A Path : Type} [DecidableEq A] [DecidableEq Path]

/-- `written` and `unsent` are handles, `left` are paths; `current` is the handle of the running operation. -/
structure Writers (Path : Type) where
  written : List (Path × ℕ) := []
  unsent : List (Path × ℕ) := []
  left : List Path := []
  current : Option (Path × ℕ) := none

namespace Writers

/-- The writes of the path were uploaded, or their file was replaced. -/
def clear (w : Writers Path) (path : Path) : Writers Path :=
  { w with unsent := w.unsent.filter (·.1 ≠ path), left := w.left.filter (· ≠ path) }

def call : (c : Call Path) → c.Answer → Mount Path → Writers Path → Writers Path
  | .disk (.isDirtySet path false), _, _, w => w.clear path
  | .disk (.isDirtyErase path), _, _, w => w.clear path
  | .disk (.pwrite _ _ _), .ok _, _, w =>
    { w with written := w.current.toList ++ w.written, unsent := w.current.toList ++ w.unsent }
  | _, _, _, w => w

/-- A handle that is closed leaves its unsent writes to the path. -/
def close (w : Writers Path) (h : Path × ℕ) : Writers Path :=
  { w with
    written := w.written.filter (· ≠ h)
    unsent := w.unsent.filter (· ≠ h)
    left := (w.unsent.filter (· = h)).map Prod.fst ++ w.left }

def finish (op : Operation Path) (w : Writers Path) : Writers Path :=
  match op with
  | .release _ path fh => w.close (path, fh)
  | _ => w

def crash (w : Writers Path) : Writers Path := { left := w.unsent.map Prod.fst ++ w.left }

/-- An open handle stands for unsent writes of the path. -/
def Unsent (w : Writers Path) (path : Path) : Prop := ∃ fh, (path, fh) ∈ w.unsent

instance (w : Writers Path) (path : Path) : Decidable (w.Unsent path) :=
  decidable_of_iff (path ∈ w.unsent.map Prod.fst) (by simp [Unsent])

/-- The path has unsent writes. -/
def Has (w : Writers Path) (path : Path) : Prop := w.Unsent path ∨ path ∈ w.left

instance (w : Writers Path) (path : Path) : Decidable (w.Has path) := by unfold Has; infer_instance

/-- The handle was written through, or its path has unsent writes that no open handle stands for. -/
def Owns (w : Writers Path) (h : Path × ℕ) : Prop := h ∈ w.written ∨ h.1 ∈ w.left

instance (w : Writers Path) (h : Path × ℕ) : Decidable (w.Owns h) := by unfold Owns; infer_instance

end Writers

def writersBook (Path : Type) [DecidableEq Path] :
    Bookkeeping (Operation Path) (Call Path) Call.Answer Outcome (Mount Path) (Writers Path) where
  begin op _ w := { w with current := op.handle }
  call := Writers.call
  finish op _ _ := Writers.finish op
  crash _ := Writers.crash

/-- The clients with the record of their writes. -/
abbrev writers (Path : Type) [DecidableEq Path] := (machine Path).track (writersBook Path)

abbrev TrackedWorld (A Path : Type) :=
  System A (Operation Path) (Call Path) Call.Answer Outcome (Mount Path × Writers Path) (Remote Path)

def TrackedWorld.start (A : Type) (g : Remote Path) : TrackedWorld A Path := { shared := g, locals := fun _ => ({}, {}) }

/-- The handle whose release sends the file next. -/
def uploading : Option (Operation Path × Program Path Outcome) → Option (Path × ℕ)
  | some (.release _ path fh, .call (.rpc (.Write _ _ _)) _) => some (path, fh)
  | _ => none

/-- A release sends the file only if its handle was written through, or if the path has unsent writes from
closed handles or from before a crash. -/
def WritersPublish (s : TrackedWorld A Path) : Prop :=
  ∀ a h, uploading (s.running a) = some h → (s.locals a).2.Owns h

instance [Fintype A] (s : TrackedWorld A Path) : Decidable (WritersPublish s) := by
  unfold WritersPublish
  infer_instance

/-! ### The invariant -/

section Invariant

/-- Every dirty path has unsent writes. -/
def Justified (m : Mount Path) (w : Writers Path) : Prop := ∀ p, (m.entry p).dirty = true → w.Has p

instance [Fintype Path] (m : Mount Path) (w : Writers Path) : Decidable (Justified m w) := by
  unfold Justified
  infer_instance

/-- Between the flag and the data of a write, its own path may be dirty without reason. -/
def Writing (next : Option (Call Path)) (m : Mount Path) (w : Writers Path) : Prop :=
  (∃ fh buf offset, next = some (.disk (.pwrite fh buf offset))) ∧
    ∀ p, (m.entry p).dirty = true → w.Has p ∨ ∃ fh, w.current = some (p, fh)

/-- A write that marked its path fails only if all dirty paths have unsent writes anyway. -/
def WriteSucceeds (env : Env) (m : Mount Path) (w : Writers Path) : Call Path → Prop
  | .disk (.pwrite fh _ _) => (env.fault = none ∧ (m.toLocal.file fh).isSome) ∨ Justified m w
  | _ => True

def writersLogic (Path : Type) [DecidableEq Path] :
    Prog.Logic (Call Path) Call.Answer Env (Mount Path × Writers Path) (Remote Path) where
  exec := (writers Path).exec
  ok env c l _ := WriteSucceeds env l.1 l.2 c
  rely _ _ _ _ := True
  inv next l _ := Justified l.1 l.2 ∨ Writing next l.1 l.2
  pre c l _ := (∃ path chunks broken, c = .rpc (.Write path chunks broken)) → ∀ h, l.2.current = some h → l.2.Owns h
  rely_refl _ _ _ := trivial
  rely_trans _ _ _ _ _ _ _ := trivial
  inv_call _ _ _ h := h.imp_right fun h => by simp [Writing] at h

variable {m : Mount Path} {w : Writers Path} {g : Remote Path}

lemma Writers.has_clear {path p : Path} (hp : p ≠ path) : (w.clear path).Has p ↔ w.Has p := by
  simp [Writers.clear, Writers.Has, Writers.Unsent, hp]

lemma Writers.Has.close {p : Path} {h : Path × ℕ} (hp : w.Has p) : (w.close h).Has p := by
  rcases hp with ⟨fh, hfh⟩ | hleft
  · by_cases heq : (p, fh) = h
    · exact .inr (List.mem_append_left _ (List.mem_map.mpr ⟨(p, fh), by simpa [heq] using heq ▸ hfh, rfl⟩))
    · exact .inl ⟨fh, by simp [Writers.close, hfh, heq]⟩
  · exact .inr (List.mem_append_right _ hleft)

omit [DecidableEq Path] in
lemma Writers.Has.crash {p : Path} (hp : w.Has p) : w.crash.Has p := by
  rcases hp with ⟨fh, hfh⟩ | hleft
  · exact .inr (List.mem_append_left _ (List.mem_map.mpr ⟨(p, fh), hfh, rfl⟩))
  · exact .inr (List.mem_append_right _ hleft)

/-- The calls that do not set the flag keep it justified. -/
def Unmarking (c : Call Path) : Prop := ∀ p, c ≠ .disk (.isDirtySet p true)

/-- What the tracked clients answer is what the clients answer. -/
lemma writers_exec {env : Env} {c : Call Path} {r : c.Answer} {l' : Mount Path × Writers Path} {g' : Remote Path}
    (h : (writers Path).exec env c (m, w) g = some (r, l', g')) :
    (machine Path).exec env c m g = some (r, l'.1, g') ∧ l'.2 = w.call c r m := by
  obtain ⟨⟨r₁, m₁, g₁⟩, hexec, hx⟩ := Option.map_eq_some_iff.mp h
  cases hx
  exact ⟨hexec, rfl⟩

lemma Writers.Has.call {p : Path} (hp : w.Has p) {c : Call Path} {r : c.Answer} (hset : c ≠ .disk (.isDirtySet p false))
    (herase : c ≠ .disk (.isDirtyErase p)) : (w.call c r m).Has p := by
  unfold Writers.call
  split
  · exact (has_clear (by rintro rfl; exact hset rfl)).mpr hp
  · exact (has_clear (by rintro rfl; exact herase rfl)).mpr hp
  · exact hp.imp_left fun ⟨fh, hfh⟩ => ⟨fh, List.mem_append_right _ hfh⟩
  · exact hp

lemma Writers.call_current (w : Writers Path) (c : Call Path) (r : c.Answer) : (w.call c r m).current = w.current := by
  unfold Writers.call
  split <;> rfl

/-- What a call does to the flags. -/
lemma exec_dirty {env : Env} {c : Call Path} {r : c.Answer} {m' : Mount Path} {g' : Remote Path}
    (h : (machine Path).exec env c m g = some (r, m', g')) (hc : Unmarking c) {p : Path}
    (hdirty : (m'.entry p).dirty = true) :
    (m.entry p).dirty = true ∧ c ≠ .disk (.isDirtySet p false) ∧ c ≠ .disk (.isDirtyErase p) := by
  cases c with
  | rpc c =>
    obtain ⟨-, rfl⟩ := machine_rpc h
    exact ⟨hdirty, nofun, nofun⟩
  | disk c =>
    obtain ⟨l', hexec, rfl, -⟩ := machine_disk h
    have hset : c ≠ .isDirtySet p false := by
      rintro rfl
      cases hexec
      simp [Entry.dirty] at hdirty
    have herase : c ≠ .isDirtyErase p := by
      rintro rfl
      cases hexec
      simp [Entry.dirty] at hdirty
    have hsame := LocalCall.exec_is_dirty p hexec (fun d => by
      cases d with
      | false => exact hset
      | true => exact fun heq => hc p (heq ▸ rfl)) herase
    exact ⟨by simpa [Entry.dirty, hsame] using hdirty, by simpa using hset, by simpa using herase⟩

lemma Justified.call (hw : Justified m w) {env : Env} {c : Call Path} {r : c.Answer} {m' : Mount Path} {g' : Remote Path}
    (h : (machine Path).exec env c m g = some (r, m', g')) (hc : Unmarking c) : Justified m' (w.call c r m) := by
  intro p hp
  obtain ⟨hdirty, hset, herase⟩ := exec_dirty h hc hp
  exact (hw p hdirty).call hset herase

section Rules

variable {α : Type} {post : α → Mount Path × Writers Path → Remote Path → Prop}

/-- A call that does not set the flag. -/
lemma writers_call {c : Call Path} {k : c.Answer → Program Path α} (hw : Justified m w) (hc : Unmarking c)
    (hpre : (∃ path chunks broken, c = .rpc (.Write path chunks broken)) → ∀ h, w.current = some h → w.Owns h)
    (h : ∀ env r m' g g', (machine Path).exec env c m g = some (r, m', g') → Justified m' (w.call c r m) →
      (k r).Safe (writersLogic Path) post (m', w.call c r m) g') :
    Prog.Safe (writersLogic Path) post (.call c k) (m, w) g := by
  refine fun g' _ _ => ⟨hpre, fun env r l' g'' _ hexec' => ?_⟩
  obtain ⟨hcall, hl'⟩ := writers_exec hexec'
  obtain ⟨m', w'⟩ := l'
  obtain rfl : w' = w.call c r m := hl'
  have hw' := hw.call hcall hc
  exact ⟨.inl hw', h env r m' _ _ hcall hw'⟩

/-- The end of an operation. -/
def Ends (_ : Outcome) (l : Mount Path × Writers Path) (_ : Remote Path) : Prop := Justified l.1 l.2

/-- An operation that neither sets the flag nor uploads, or that works on no handle. -/
lemma writers_calls {p : Program Path Outcome} (h : p.Calls Unmarking) (hw : Justified m w) (hcurrent : w.current = none) :
    p.Safe (writersLogic Path) Ends (m, w) g := by
  have hsafe : p.Safe (writersLogic Path) (fun _ l _ => Justified l.1 l.2 ∧ l.2.current = none) (m, w) g := by
    refine h.safe (fun _ _ _ _ hl _ => hl) (fun _ _ _ hl => Or.inl hl.1) (fun c l g _ hl _ h hh => ?_)
      (fun env c l g r l' g' hc hl _ hexec => ?_) ⟨hw, hcurrent⟩
    · rw [hl.2] at hh
      cases hh
    · obtain ⟨hexec, hl'⟩ := writers_exec (m := l.1) (w := l.2) hexec
      rw [hl']
      exact ⟨hl.1.call hexec hc, by rw [Writers.call_current, hl.2]⟩
  exact hsafe.mono fun _ _ _ _ hl => hl.1

end Rules

/-! The calls that an operation makes. -/

lemma openHandle_unmarking (path : Path) : (openHandle path).Calls Unmarking :=
  (openHandle_calls path).mono fun _ h => h ▸ nofun

omit [DecidableEq Path] in
lemma writeChunks_unmarking (path : Path) (ofile : Option (ℕ × ℕ)) (msgs : List MetaContent) :
    (writeChunks path ofile msgs).Calls Unmarking :=
  (writeChunks_calls path ofile msgs).mono fun _ ⟨_, _, _, h⟩ => h ▸ nofun

lemma download_unmarking (path : Path) : (download path).Calls Unmarking := by
  have hopen := openHandle_unmarking path
  have hclean : ∀ p, Call.disk (LocalCall.isDirtySet path false) ≠ .disk (.isDirtySet p true) := by simp
  refine calls_rpc nofun fun r => ?_
  obtain ⟨msgs, ok⟩ := r
  cases msgs with
  | nil => trivial
  | cons msg msgs =>
    dsimp only
    by_cases hexists : msg.file_exists = true
    · rw [if_pos hexists]
      refine calls_disk nofun fun ofile => (writeChunks_unmarking path _ _).bind fun _ => ?_
      split_ifs
      · exact calls_disk nofun fun _ => calls_disk hclean fun _ => hopen
      · trivial
    · rw [if_neg hexists]
      exact calls_disk nofun fun _ => calls_disk nofun fun _ => calls_disk nofun fun _ => calls_disk hclean fun _ => hopen

lemma afsOpen_unmarking (path : Path) : (afsOpen path).Calls Unmarking := by
  have hopen := openHandle_unmarking path
  have hdownload := download_unmarking path
  refine calls_disk nofun fun count => ?_
  split_ifs
  · refine calls_disk nofun fun t => ?_
    split_ifs
    · exact hopen
    · refine calls_rpc nofun fun stat_content => calls_disk nofun fun t => ?_
      split_ifs
      · exact hopen
      · exact calls_disk nofun fun _ => calls_disk nofun fun _ => hdownload
  · exact hdownload

omit [DecidableEq Path] in
lemma afsMknod_unmarking (path : Path) : (afsMknod path).Calls Unmarking := by
  refine calls_rpc nofun fun stat_content => ?_
  split_ifs
  · trivial
  · refine calls_disk nofun fun r => ?_
    cases r with
    | error e => trivial
    | ok fd =>
      refine calls_disk nofun fun r => ?_
      cases r with
      | error e => trivial
      | ok u =>
        refine calls_rpc nofun fun sent => calls_rpc nofun fun r => ?_
        obtain ⟨status, reply⟩ := r
        cases status with
        | OK => exact calls_disk nofun fun _ => trivial
        | CANCELLED | NOT_FOUND | UNAVAILABLE => trivial

omit [DecidableEq Path] in
lemma afsUnlink_unmarking (path : Path) : (afsUnlink path).Calls Unmarking :=
  calls_disk nofun fun _ => calls_disk nofun fun _ => calls_disk nofun fun _ => calls_rpc nofun fun _ => trivial

/-! The operations on a handle. -/

/-- An operation of one call on a handle, other than a write. -/
lemma writers_one {c : LocalCall Path} {f : c.Answer → Outcome} (hw : Justified m w)
    (hc : Unmarking (.disk c)) : Prog.Safe (writersLogic Path) Ends (.call (.disk c) fun r => .ret (f r)) (m, w) g :=
  writers_call hw hc nofun fun _ _ _ _ _ _ hw' => fun _ _ _ => hw'

lemma writers_afsRead (fh size offset : ℕ) (hw : Justified m w) :
    (afsRead fh size offset).Safe (writersLogic Path) Ends (m, w) g := by
  refine writers_call hw nofun nofun fun _ r _ _ _ _ hw' => ?_
  cases r <;> exact fun _ _ _ => hw'

lemma writers_afsWrite (path : Path) (buf : Bytes) (offset fh : ℕ) (hw : Justified m w)
    (hcurrent : w.current = some (path, fh)) : (afsWrite path buf offset fh).Safe (writersLogic Path) Ends (m, w) g := by
  refine fun g₁ _ _ => ⟨nofun, fun env₁ r₁ l₁ g₁' _ hexec₁ => ?_⟩
  change (writers Path).exec env₁ (.disk (.isDirtySet path true)) (m, w) g₁ = some (r₁, l₁, g₁') at hexec₁
  obtain ⟨hcall₁, hl₁⟩ := writers_exec hexec₁
  obtain ⟨m₁, w₁⟩ := l₁
  obtain rfl : w₁ = w := hl₁
  have hm₁ : m₁ = m.modify path fun e => { e with is_dirty := some true } := by
    obtain ⟨l, hset, rfl, -⟩ := machine_disk hcall₁
    cases hset
    rfl
  have hwriting : ∀ p, (m₁.entry p).dirty = true → w₁.Has p ∨ ∃ fh, w₁.current = some (p, fh) := by
    intro p hp
    by_cases hpath : p = path
    · exact .inr ⟨fh, hpath ▸ hcurrent⟩
    · rw [hm₁, Local.modify_entry_ne _ _ hpath] at hp
      exact .inl (hw p hp)
  refine ⟨.inr ⟨⟨fh, buf, offset, rfl⟩, hwriting⟩, fun g₂ _ _ => ⟨nofun, fun env₂ r₂ l₂ g₂' hok₂ hexec₂ => ?_⟩⟩
  change (writers Path).exec env₂ (.disk (.pwrite fh buf offset)) (m₁, w₁) g₂ = some (r₂, l₂, g₂') at hexec₂
  obtain ⟨hcall₂, hl₂⟩ := writers_exec hexec₂
  obtain ⟨m₂, w₂⟩ := l₂
  have hw₂ : Justified m₂ w₂ := by
    rcases hok₂ with ⟨hfault, hfile⟩ | hjustified
    · obtain ⟨l, hwrite, -, -⟩ := machine_disk hcall₂
      rcases LocalCall.exec_pwrite hwrite with ⟨f, -, -, rfl, -⟩ | ⟨e, -, -, hfail⟩
      · obtain rfl : w₂ = _ := hl₂
        intro p hp
        rcases hwriting p (exec_dirty hcall₂ nofun hp).1 with hhas | ⟨fh', hfh'⟩
        · exact hhas.call nofun nofun
        · exact .inl ⟨fh', List.mem_append_left _ (by simp [hfh'])⟩
      · rcases hfail with hfail | hfail
        · rw [hfault] at hfail
          cases hfail
        · rw [show m₁.toLocal.file fh = none from hfail] at hfile
          cases hfile
    · obtain rfl : w₂ = _ := hl₂
      exact hjustified.call hcall₂ nofun
  cases r₂ <;> exact ⟨.inl hw₂, fun _ _ _ => hw₂⟩

/-- The release of a handle that has something to publish, if anything is to be published. -/
lemma writers_afsRelease (fuel : ℕ) (path : Path) (fh : ℕ) (hw : Justified m w) (hcurrent : w.current = some (path, fh))
    (howns : (m.entry path).dirty = true → w.Owns (path, fh)) :
    (afsRelease fuel path fh).Safe (writersLogic Path) Ends (m, w) g := by
  refine writers_call hw nofun nofun fun env₁ r₁ m₁ g₁ g₁' hclose hw₁ => ?_
  have hentry₁ : m₁.entry = m.entry := by
    obtain ⟨l, hcall, rfl, -⟩ := machine_disk hclose
    exact (closed_of_exec hcall).entry
  refine writers_call hw₁ nofun nofun fun env₂ dirty m₂ g₂ g₂' hget hw₂ => ?_
  obtain ⟨l, hcall, rfl, -⟩ := machine_disk hget
  cases hcall
  cases hdirty : (m₁.entry path).dirty with
  | false => exact fun _ _ _ => hw₂
  | true =>
    have howns' := howns (hentry₁ ▸ hdirty)
    refine writers_call hw₂ nofun nofun fun env₃ i m₃ g₃ g₃' hopen hw₃ => ?_
    cases i with
    | none => exact fun _ _ _ => ⟨nofun, fun _ r => r.elim⟩
    | some i =>
      change Prog.Safe _ _ (upload path i fuel 0 [] >>= _) (m₃, w) _
      have hupload : (upload path i fuel 0 []).Safe (writersLogic Path) (fun _ l _ => l = (m₃, w)) (m₃, w) g₃' := by
        refine (upload_calls path i fuel 0 []).safe (fun _ _ _ _ hl _ => hl) (fun _ _ _ hl => Or.inl (hl ▸ hw₃))
          (fun c l g hc _ hwrite => ?_) (fun env c l g r l' g' hc hl _ hexec => ?_) rfl
        · obtain ⟨q, chunks, broken, rfl⟩ := hwrite
          simp at hc
        · subst hl
          obtain ⟨hcall, hl'⟩ := writers_exec hexec
          obtain ⟨m', w'⟩ := l'
          rcases hc with rfl | ⟨pos, rfl⟩ | rfl
          · exact r.elim
          · obtain ⟨l, hread, rfl, -⟩ := machine_disk hcall
            rw [(LocalCall.exec_ifstreamRead hread).1]
            exact Prod.ext rfl hl'
          · obtain ⟨-, rfl⟩ := machine_rpc hcall
            exact Prod.ext rfl hl'
      refine Prog.Safe.bind (.inl hw₃) (hupload.mono fun r l₄ g₄ _ hl₄ => ?_)
      subst hl₄
      obtain ⟨chunks, broken⟩ := r
      refine writers_call hw₃ nofun (fun _ h hh => ?_) fun env₅ r₅ m₅ g₅ g₅' hwrite hw₅ => ?_
      · obtain rfl : (path, fh) = h := Option.some.inj (hcurrent.symm.trans hh)
        exact howns'
      · obtain ⟨status, reply⟩ := r₅
        cases status with
        | OK =>
          have hclean : ∀ p, Call.disk (LocalCall.isDirtySet path false) ≠ .disk (.isDirtySet p true) := by simp
          refine writers_call hw₅ hclean nofun fun env₆ r₆ m₆ g₆ g₆' _ hw₆ => ?_
          exact writers_call hw₆ nofun nofun fun env₇ r₇ m₇ g₇ g₇' _ hw₇ => fun _ _ _ => hw₇
        | CANCELLED | NOT_FOUND | UNAVAILABLE => exact fun _ _ _ => hw₅

lemma writers_begin {op : Operation Path} {m m' : Mount Path} {w : Writers Path} (hw : Justified m w)
    (hrelease : ∀ fuel path fh, op = .release fuel path fh → (m.entry path).dirty = true →
      w.Owns (path, fh) ∨ ¬ w.Unsent path)
    (h : Mount.begin op m = some m') :
    op.program.Safe (writersLogic Path) Ends (m', { w with current := op.handle }) g ∧
      Justified m' { w with current := op.handle } := by
  cases op with
  | release fuel path fh =>
    obtain ⟨-, rfl⟩ := Mount.begin_release h
    refine ⟨writers_afsRelease fuel path fh hw rfl fun hdirty => ?_, hw⟩
    rcases hrelease fuel path fh rfl hdirty with howns | hnone
    · exact howns
    · exact .inr ((hw path hdirty).resolve_left hnone)
  | «open» path =>
    obtain ⟨rfl, -⟩ := Mount.begin_other h nofun
    exact ⟨writers_calls (afsOpen_unmarking path) hw rfl, hw⟩
  | read path fh size offset =>
    obtain ⟨rfl, -⟩ := Mount.begin_other h nofun
    exact ⟨writers_afsRead fh size offset hw, hw⟩
  | write path buf offset fh =>
    obtain ⟨rfl, -⟩ := Mount.begin_other h nofun
    exact ⟨writers_afsWrite path buf offset fh hw rfl, hw⟩
  | fsync path fh =>
    obtain ⟨rfl, -⟩ := Mount.begin_other h nofun
    exact ⟨writers_one hw nofun, hw⟩
  | mknod path =>
    obtain ⟨rfl, -⟩ := Mount.begin_other h nofun
    exact ⟨writers_calls (afsMknod_unmarking path) hw rfl, hw⟩
  | unlink path =>
    obtain ⟨rfl, -⟩ := Mount.begin_other h nofun
    exact ⟨writers_calls (afsUnlink_unmarking path) hw rfl, hw⟩
  | ftruncate path offset fh =>
    obtain ⟨rfl, -⟩ := Mount.begin_other h nofun
    exact ⟨writers_one hw nofun, hw⟩
  | truncate path newsize =>
    obtain ⟨rfl, -⟩ := Mount.begin_other h nofun
    exact ⟨writers_calls ⟨nofun, fun _ => trivial⟩ hw rfl, hw⟩

end Invariant

/-! ### Orderly runs -/

/-- A release finds its path dirty because of its own handle, of closed handles or of a crash, and not only because of
other open handles. -/
def ReleaseOk (m : Mount Path) (w : Writers Path) : Operation Path → Prop
  | .release _ path fh => (m.entry path).dirty = true → w.Owns (path, fh) ∨ ¬ w.Unsent path
  | _ => True

/-- No crash comes between the flag and the data of a write, unless all dirty paths have unsent writes anyway. -/
def CrashOk (m : Mount Path) (w : Writers Path) : Call Path → Prop
  | .disk (.pwrite _ _ _) => Justified m w
  | _ => True

def Orderly (s : TrackedWorld A Path) : AgentEvent A (Operation Path) Env → Prop
  | .start a op => ReleaseOk (s.locals a).1 (s.locals a).2 op
  | .call a env => ∀ c, s.next a = some c → WriteSucceeds env (s.locals a).1 (s.locals a).2 c
  | .finish _ => True
  | .crash a => ∀ c, s.next a = some c → CrashOk (s.locals a).1 (s.locals a).2 c

instance [Fintype Path] (env : Env) (m : Mount Path) (w : Writers Path) (c : Call Path) :
    Decidable (WriteSucceeds env m w c) := by
  induction c using Call.casesOn with
  | rpc c => exact isTrue trivial
  | disk c => induction c using LocalCall.casesOn <;> unfold WriteSucceeds <;> infer_instance

instance (m : Mount Path) (w : Writers Path) (op : Operation Path) : Decidable (ReleaseOk m w op) := by
  induction op using Operation.casesOn <;> unfold ReleaseOk <;> infer_instance

instance [Fintype Path] (m : Mount Path) (w : Writers Path) (c : Call Path) : Decidable (CrashOk m w c) := by
  induction c using Call.casesOn with
  | rpc c => exact isTrue trivial
  | disk c => induction c using LocalCall.casesOn <;> unfold CrashOk <;> infer_instance

instance [Fintype Path] (s : TrackedWorld A Path) (e : AgentEvent A (Operation Path) Env) : Decidable (Orderly s e) := by
  induction e using AgentEvent.casesOn <;> unfold Orderly <;> infer_instance

omit [DecidableEq A] in
lemma writers_obligations : System.Obligations (writers Path) (fun _ : A => writersLogic Path) (fun _ _ => Ends)
    (fun _ op l _ => ReleaseOk l.1 l.2 op) (fun _ next l _ => ∀ c, next = some c → CrashOk l.1 l.2 c) where
  exec _ := rfl
  stable _ _ _ _ _ hinv _ := hinv
  start _ op l l' g hinv hrelease h := by
    obtain ⟨m', hbegin, rfl⟩ := Option.map_eq_some_iff.mp h
    have hw : Justified l.1 l.2 := hinv.resolve_right fun h => by simp [Writing] at h
    obtain ⟨hsafe, hw'⟩ := writers_begin hw (fun fuel path fh hop => by subst hop; exact hrelease) hbegin
    exact ⟨.inl hw', hsafe⟩
  finish _ op out l g _ hw := by
    refine .inl fun p hp => ?_
    have hhas : l.2.Has p := hw p hp
    change (Writers.finish op l.2).Has p
    cases op with
    | release fuel path fh => exact hhas.close
    | _ => exact hhas
  crash _ next op l g hinv hcrash := by
    have hw : Justified l.1 l.2 := by
      rcases hinv with hw | ⟨⟨fh, buf, offset, hnext⟩, -⟩
      · exact hw
      · exact hcrash _ hnext
    exact .inl fun p hp => (hw p hp).crash

/-- The record knows the running operation. -/
def CurrentOk (s : TrackedWorld A Path) : Prop :=
  ∀ a op p, s.running a = some (op, p) → (s.locals a).2.current = op.handle

omit [DecidableEq Path] in
lemma CurrentOk.become {s : TrackedWorld A Path} (h : CurrentOk s) {a : A} {l : Mount Path × Writers Path} {g : Remote Path}
    {running : Option (Operation Path × Program Path Outcome)}
    (ha : ∀ op p, running = some (op, p) → l.2.current = op.handle) :
    CurrentOk { s.become a l running with shared := g } := by
  intro b op p hp
  by_cases hb : b = a
  · subst hb
    simp only [System.become, Function.update_self] at hp ⊢
    exact ha op p hp
  · simp only [System.become, ne_eq, hb, not_false_eq_true, Function.update_of_ne] at hp ⊢
    exact h b op p hp

lemma CurrentOk.step {s s' : TrackedWorld A Path} (h : CurrentOk s) {e : WorldEvent A Path}
    (hs : s.step (writers Path) e = some s') : CurrentOk s' := by
  cases e with
  | start a op =>
    simp only [System.step] at hs
    split at hs
    · obtain ⟨l, hl, rfl⟩ := Option.map_eq_some_iff.mp hs
      obtain ⟨m, -, rfl⟩ := Option.map_eq_some_iff.mp hl
      exact h.become (g := s.shared) fun op' p hp => by cases hp; rfl
    · cases hs
  | call a env =>
    simp only [System.step] at hs
    split at hs
    · rename_i op c k hrunning
      obtain ⟨⟨r, l, g⟩, hexec, rfl⟩ := Option.map_eq_some_iff.mp hs
      obtain ⟨-, hl⟩ := writers_exec (m := (s.locals a).1) (w := (s.locals a).2) hexec
      refine h.become fun op' p hp => ?_
      cases hp
      rw [hl, Writers.call_current]
      exact h a op _ hrunning
    · cases hs
  | finish a =>
    simp only [System.step] at hs
    split at hs
    · cases hs
      exact h.become (g := s.shared) (by simp)
    · cases hs
  | crash a =>
    cases hs
    exact h.become (g := s.shared) (by simp)

lemma CurrentOk.run {s s' : TrackedWorld A Path} (h : CurrentOk s) {es : List (WorldEvent A Path)}
    (hs : s.run (writers Path) es = some s') : CurrentOk s' := by
  induction es generalizing s with
  | nil => cases hs; exact h
  | cons e es ih =>
    obtain ⟨s₁, hs₁, hrun⟩ := Option.bind_eq_some_iff.mp hs
    exact ih (h.step hs₁) hrun

/-- One process writes to a file, another one opens the same file for reading. -/
def readerOpens : List (WorldEvent Unit Unit) :=
  created ++ session () (.open ()) (quiet 5 2) ++ session () (.write () (Bytes.ascii "y") 0 3) (quiet 2 2) ++
    session () (.open ()) (List.replicate 5 { fd := 4 })

/-- The steps of a release up to its upload. -/
def releaseStarts (fh : ℕ) : List (WorldEvent Unit Unit) := .start () (.release 1 () fh) :: (quiet 5 2).map (.call ())

/-- A write of the only process fails, and its handle is released. -/
def writeFails : List (WorldEvent Unit Unit) :=
  created ++ session () (.open ()) (quiet 5 2) ++
    session () (.write () (Bytes.ascii "y") 0 3) [({} : Env), { fault := some Errno.EIO }] ++ releaseStarts 3

end AFSv1.Client
