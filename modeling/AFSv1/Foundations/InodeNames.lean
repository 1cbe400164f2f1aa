import Mathlib.Data.List.TakeWhile
import AFSv1.Foundations.InodeFS

/-! What the system calls do to names: calls on regular files leave the resolution of every path
alone, and a successful rename makes the new path denote the old inode. -/
namespace AFSv1.Foundations.InodeFS

/-- Two trees with the same directories. -/
structure SameDirs (fs fs' : InodeFS) : Prop where
  parent : fs'.parent = fs.parent
  dirs : ∀ a d, fs'.entries.lookup a = some (.dir d) ↔ fs.entries.lookup a = some (.dir d)

theorem SameDirs.refl (fs : InodeFS) : SameDirs fs fs := ⟨rfl, fun _ _ => Iff.rfl⟩

theorem SameDirs.symm {fs fs' : InodeFS} (h : SameDirs fs fs') : SameDirs fs' fs :=
  ⟨h.parent.symm, fun a d => (h.dirs a d).symm⟩

theorem SameDirs.trans {fs fs' fs'' : InodeFS} (h : SameDirs fs fs') (h' : SameDirs fs' fs'') : SameDirs fs fs'' :=
  ⟨h'.parent.trans h.parent, fun a d => (h'.dirs a d).trans (h.dirs a d)⟩

lemma enter_eq_ok {fs : InodeFS} {d d' : ℕ} {c : Bytes} :
    fs.enter d c = .ok d' ↔ ((c = [] ∨ c = dot) ∧ d = d') ∨ (¬ (c = [] ∨ c = dot) ∧ c = dotdot ∧ fs.parent d = d') ∨
      (¬ (c = [] ∨ c = dot) ∧ c ≠ dotdot ∧ fs.entries.lookup (d, c) = some (.dir d')) := by
  unfold enter
  split_ifs with h1 h2
  · simp [h1]
  · subst h2
    simp only [h1, not_false_eq_true, true_and, false_and, false_or, ne_eq, not_true, or_false, Except.ok.injEq]
  · cases hl : fs.entries.lookup (d, c) with
    | none => simp [h1, h2]
    | some n => cases n <;> simp [h1, h2]

lemma SameDirs.enter {fs fs' : InodeFS} (h : SameDirs fs fs') {d d' : ℕ} {c : Bytes} (he : fs.enter d c = .ok d') :
    fs'.enter d c = .ok d' := by
  rw [enter_eq_ok] at he ⊢
  rwa [h.parent, h.dirs]

lemma SameDirs.locate {fs fs' : InodeFS} (h : SameDirs fs fs') {d : ℕ} {cs : List Bytes} {l : Loc}
    (hl : fs.locate d cs = .ok l) : fs'.locate d cs = .ok l := by
  fun_induction fs.locate d cs with
  | case1 d => exact hl
  | case2 d c hc =>
    rw [InodeFS.locate, if_pos hc]
    cases he : fs.enter d c with
    | error e => rw [he] at hl; cases hl
    | ok d' => rw [h.enter he]; rw [he] at hl; exact hl
  | case3 d c hc => rw [InodeFS.locate, if_neg hc]; exact hl
  | case4 d c cs hcs ih =>
    rw [InodeFS.locate]
    · cases he : fs.enter d c with
      | error e => rw [he] at hl; cases hl
      | ok d' => rw [h.enter he]; rw [he] at hl; exact ih d' hl
    · exact hcs

theorem SameDirs.resolve {fs fs' : InodeFS} (h : SameDirs fs fs') {path : Bytes} {l : Loc}
    (hl : fs.resolve path = .ok l) : fs'.resolve path = .ok l := by
  unfold InodeFS.resolve at hl ⊢
  split_ifs with hp
  · rw [if_pos hp] at hl; cases hl
  · rw [if_neg hp] at hl; exact h.locate hl

lemma node_of_resolve {fs : InodeFS} {path : Bytes} {a : Slot} {n : Node} (hr : fs.resolve path = .ok (.entry a))
    (hn : fs.entries.lookup a = some n) : fs.node path = .ok n := by
  simp [node, hr, Except.bind, hn]

/-- A path that denotes a file resolves to the slot of the file. -/
lemma resolve_of_node_file {fs : InodeFS} {path : Bytes} {i : ℕ} (h : fs.node path = .ok (.file i)) :
    ∃ a, fs.resolve path = .ok (.entry a) ∧ fs.entries.lookup a = some (.file i) := by
  unfold node at h
  cases hr : fs.resolve path with
  | error e => rw [hr] at h; cases h
  | ok l =>
    rw [hr] at h
    cases l with
    | self d => cases h
    | entry a =>
      refine ⟨a, rfl, ?_⟩
      cases hn : fs.entries.lookup a with
      | none => simp [Except.bind, hn] at h
      | some n => simpa [Except.bind, hn] using h

/-- The last component decides whether a path denotes a slot. -/
theorem locate_append_singleton {fs : InodeFS} {d : ℕ} {cs : List Bytes} {c : Bytes} {l : Loc}
    (h : fs.locate d (cs ++ [c]) = .ok l) :
    if c = [] ∨ c = dot ∨ c = dotdot then ∃ d', l = .self d' else ∃ d', l = .entry (d', c) := by
  induction cs generalizing d with
  | nil =>
    rw [List.nil_append, locate] at h
    split_ifs at h ⊢
    · cases he : fs.enter d c with
      | error e => rw [he] at h; cases h
      | ok d' => rw [he] at h; cases h; exact ⟨d', rfl⟩
    · cases h
      exact ⟨d, rfl⟩
  | cons c' cs ih =>
    rw [List.cons_append, locate] at h
    · cases he : fs.enter d c' with
      | error e => rw [he] at h; cases h
      | ok d' => rw [he] at h; exact ih h
    · simp

theorem cString_eq_self {path : Bytes} (h : (0 : UInt8) ∉ path) : path.cString = path :=
  List.takeWhile_eq_self_iff.mpr fun b hb => by
    rw [decide_eq_true_eq]
    rintro rfl
    exact h hb

/-- A path ending in a slash and a name. -/
theorem resolve_append_name {fs : InodeFS} {dir name : Bytes} {l : Loc} (hdir : (0 : UInt8) ∉ dir)
    (hzero : (0 : UInt8) ∉ name) (hslash : (47 : UInt8) ∉ name) (h : fs.resolve (dir ++ 47 :: name) = .ok l) :
    if name = [] ∨ name = dot ∨ name = dotdot then ∃ d, l = .self d else ∃ d, l = .entry (d, name) := by
  have hstring : (dir ++ 47 :: name).cString = dir ++ 47 :: name := by
    apply cString_eq_self
    simp [hdir, hzero]
  rw [resolve, hstring, if_neg (by simp), components, hstring, List.splitOn_eq_splitOnP,
    List.splitOnP_append_cons _ _ (by simp), ← List.splitOn_eq_splitOnP, ← List.splitOn_eq_splitOnP,
    List.splitOn_eq_singleton hslash] at h
  exact locate_append_singleton h

/-! ### Lookups after the primitive changes -/

lemma lookup_create (fs : InodeFS) (a b : Slot) (node : ℕ → Node) (hnode : ∀ i, (node i).ino = i) :
    (fs.create a node hnode).entries.lookup b = if b = a then some (node fs.next) else fs.entries.lookup b := by
  unfold create
  split_ifs with h
  · rw [h, Finmap.lookup_insert]
  · exact Finmap.lookup_insert_of_ne _ h

lemma lookup_remove (fs : InodeFS) (a b : Slot) :
    (fs.remove a).entries.lookup b = if b = a then none else fs.entries.lookup b := by
  unfold remove
  split_ifs with h
  · rw [h, Finmap.lookup_erase]
  · exact Finmap.lookup_erase_ne h

lemma lookup_move (fs : InodeFS) (a b c : Slot) (n : Node) (h : fs.entries.lookup a = some n) :
    (fs.move a b n h).entries.lookup c =
      if c = b then some n else if c = a then none else fs.entries.lookup c := by
  unfold move
  split_ifs with hb ha
  · rw [hb, Finmap.lookup_insert]
  · rw [Finmap.lookup_insert_of_ne _ hb, ha, Finmap.lookup_erase]
  · rw [Finmap.lookup_insert_of_ne _ hb, Finmap.lookup_erase_ne ha]

theorem sameDirs_write (fs : InodeFS) (i : ℕ) (data : FileData) : SameDirs fs (fs.write i data) :=
  ⟨rfl, fun _ _ => Iff.rfl⟩

theorem sameDirs_append (fs : InodeFS) (i : ℕ) (data now : Bytes) : SameDirs fs (fs.append i data now) :=
  ⟨by simp, by simp⟩

theorem sameDirs_create {fs : InodeFS} {a : Slot} (ha : fs.entries.lookup a = none) :
    SameDirs fs (fs.create a .file Node.ino_file) := by
  refine ⟨rfl, fun b d => ?_⟩
  rw [lookup_create]
  split_ifs with h
  · subst h
    simp [ha]
  · rfl

theorem sameDirs_remove {fs : InodeFS} {a : Slot} {i : ℕ} (ha : fs.entries.lookup a = some (.file i)) :
    SameDirs fs (fs.remove a) := by
  refine ⟨rfl, fun b d => ?_⟩
  rw [lookup_remove]
  split_ifs with h
  · subst h
    simp [ha]
  · rfl

theorem sameDirs_move {fs : InodeFS} {a b : Slot} {i : ℕ} (ha : fs.entries.lookup a = some (.file i))
    (hb : ∀ d, fs.entries.lookup b ≠ some (.dir d)) : SameDirs fs (fs.move a b (.file i) ha) := by
  refine ⟨rfl, fun c d => ?_⟩
  rw [lookup_move]
  split_ifs with h h'
  · subst h
    simp [hb]
  · subst h'
    simp [ha]
  · rfl

/-! ### Inversion of the system calls -/

theorem openTrunc_eq_ok {fs fs' : InodeFS} {path now : Bytes} {i : ℕ} (h : fs.openTrunc path now = .ok (i, fs')) :
    ∃ a, fs.resolve path = .ok (.entry a) ∧
      ((fs.entries.lookup a = some (.file i) ∧ fs' = fs.write i ⟨[], now⟩) ∨
       (fs.entries.lookup a = none ∧ i = fs.next ∧
        fs' = (fs.create a .file Node.ino_file).write fs.next ⟨[], now⟩)) := by
  unfold openTrunc at h
  cases hr : fs.resolve path with
  | error e => rw [hr] at h; cases h
  | ok l =>
    rw [hr] at h
    cases l with
    | self d => cases h
    | entry a =>
      refine ⟨a, rfl, ?_⟩
      cases hn : fs.entries.lookup a with
      | none =>
        simp only [Except.bind, hn, Except.ok.injEq, Prod.mk.injEq] at h
        exact .inr ⟨rfl, h.1.symm, h.2.symm⟩
      | some n =>
        cases n with
        | dir d => simp [Except.bind, hn] at h
        | file j =>
          simp only [Except.bind, hn, Except.ok.injEq, Prod.mk.injEq] at h
          obtain ⟨rfl, rfl⟩ := h
          exact .inl ⟨rfl, rfl⟩

theorem unlink_eq_ok {fs fs' : InodeFS} {path : Bytes} (h : fs.unlink path = .ok fs') :
    ∃ a i, fs.resolve path = .ok (.entry a) ∧ fs.entries.lookup a = some (.file i) ∧ fs' = fs.remove a := by
  unfold unlink at h
  cases hr : fs.resolve path with
  | error e => rw [hr] at h; cases h
  | ok l =>
    rw [hr] at h
    cases l with
    | self d => cases h
    | entry a =>
      cases hn : fs.entries.lookup a with
      | none => simp [Except.bind, hn] at h
      | some n =>
        cases n with
        | dir d => simp [Except.bind, hn] at h
        | file j =>
          simp only [Except.bind, hn, Except.ok.injEq] at h
          exact ⟨a, j, rfl, hn, h.symm⟩

/-- Renaming a file succeeds exactly onto a slot that holds no directory. -/
theorem rename_file_eq_ok {fs fs' : InodeFS} {old new : Bytes} {a : Slot} {i : ℕ}
    (hr : fs.resolve old = .ok (.entry a)) (ha : fs.entries.lookup a = some (.file i)) :
    fs.rename old new = .ok fs' ↔
      ∃ b, fs.resolve new = .ok (.entry b) ∧ (∀ d, fs.entries.lookup b ≠ some (.dir d)) ∧
        fs' = fs.move a b (.file i) ha := by
  unfold rename
  rw [hr]
  simp only [Except.bind]
  split
  · rename_i hn; rw [ha] at hn; cases hn
  · rename_i j hj
    obtain rfl : i = j := by rw [ha] at hj; simpa using hj
    cases hnew : fs.resolve new with
    | error e => simp
    | ok l =>
      cases l with
      | self d => simp
      | entry b =>
        cases hb : fs.entries.lookup b with
        | none => simp [hb, eq_comm]
        | some n => cases n <;> simp [hb, eq_comm]
  · rename_i k hk; rw [ha] at hk; cases hk

/-- A rename whose source is not a directory moves a file. -/
theorem rename_eq_ok_of_notDir {fs fs' : InodeFS} {old new : Bytes} {a : Slot} (hr : fs.resolve old = .ok (.entry a))
    (hdir : ∀ d, fs.entries.lookup a ≠ some (.dir d)) (h : fs.rename old new = .ok fs') :
    ∃ b i, ∃ ha : fs.entries.lookup a = some (.file i), fs.resolve new = .ok (.entry b) ∧
      (∀ d, fs.entries.lookup b ≠ some (.dir d)) ∧ fs' = fs.move a b (.file i) ha := by
  have hfile : ∃ i, fs.entries.lookup a = some (.file i) := by
    unfold rename at h
    rw [hr] at h
    simp only [Except.bind] at h
    split at h
    · cases h
    · rename_i i hi
      exact ⟨i, hi⟩
    · rename_i k hk
      exact absurd hk (hdir k)
  obtain ⟨i, ha⟩ := hfile
  obtain ⟨b, hb, hbdir, hfs⟩ := (rename_file_eq_ok hr ha).mp h
  exact ⟨b, i, ha, hb, hbdir, hfs⟩

theorem sameDirs_openTrunc {fs fs' : InodeFS} {path now : Bytes} {i : ℕ} (h : fs.openTrunc path now = .ok (i, fs')) :
    SameDirs fs fs' := by
  obtain ⟨a, -, ⟨-, rfl⟩ | ⟨ha, -, rfl⟩⟩ := openTrunc_eq_ok h
  · exact sameDirs_write ..
  · exact (sameDirs_create ha).trans (sameDirs_write ..)

/-- After the open the path denotes the opened file, which is empty. -/
theorem openTrunc_slot {fs fs' : InodeFS} {path now : Bytes} {i : ℕ} (h : fs.openTrunc path now = .ok (i, fs')) :
    ∃ a, fs.resolve path = .ok (.entry a) ∧ fs'.resolve path = .ok (.entry a) ∧
      fs'.entries.lookup a = some (.file i) ∧ fs'.file i = ⟨[], now⟩ := by
  have hdirs := sameDirs_openTrunc h
  obtain ⟨a, ha, hcase⟩ := openTrunc_eq_ok h
  refine ⟨a, ha, hdirs.resolve ha, ?_⟩
  obtain ⟨hai, rfl⟩ | ⟨-, rfl, rfl⟩ := hcase
  · exact ⟨hai, by simp⟩
  · exact ⟨by simp [lookup_create], by simp⟩

/-- After the rename of a file the new path denotes it. -/
theorem node_rename {fs fs' : InodeFS} {old new : Bytes} {i : ℕ} (hi : fs.node old = .ok (.file i))
    (h : fs.rename old new = .ok fs') : fs'.node new = .ok (.file i) ∧ fs'.file = fs.file := by
  obtain ⟨a, hr, ha⟩ := resolve_of_node_file hi
  obtain ⟨b, hb, hdir, rfl⟩ := (rename_file_eq_ok hr ha).mp h
  refine ⟨node_of_resolve ((sameDirs_move ha hdir).resolve hb) ?_, rfl⟩
  rw [lookup_move, if_pos rfl]

/-- A file can be created at the path, or one that is there replaced. -/
def Creatable (fs : InodeFS) (path : Bytes) : Prop :=
  ∃ a, fs.resolve path = .ok (.entry a) ∧ ∀ d, fs.entries.lookup a ≠ some (.dir d)

instance (fs : InodeFS) (path : Bytes) : Decidable (fs.Creatable path) :=
  match h : fs.resolve path with
  | .error _ => isFalse fun ⟨a, ha, _⟩ => by rw [h] at ha; cases ha
  | .ok (.self _) => isFalse fun ⟨a, ha, _⟩ => by rw [h] at ha; cases ha
  | .ok (.entry a) => match hn : fs.entries.lookup a with
    | none => isTrue ⟨a, h, by simp [hn]⟩
    | some (.file _) => isTrue ⟨a, h, by simp [hn]⟩
    | some (.dir d) => isFalse fun ⟨b, hb, hdir⟩ => by
      obtain rfl : a = b := by simpa [h] using hb
      exact hdir d hn

lemma SameDirs.creatable {fs fs' : InodeFS} (h : SameDirs fs fs') {path : Bytes} (hp : fs.Creatable path) :
    fs'.Creatable path := by
  obtain ⟨a, ha, hdir⟩ := hp
  exact ⟨a, h.resolve ha, fun d hd => hdir d ((h.dirs a d).mp hd)⟩

theorem Creatable.openTrunc {fs : InodeFS} {path : Bytes} (h : fs.Creatable path) (now : Bytes) :
    ∃ i fs', fs.openTrunc path now = .ok (i, fs') := by
  obtain ⟨a, ha, hdir⟩ := h
  unfold InodeFS.openTrunc
  rw [ha]
  cases hn : fs.entries.lookup a with
  | none => simp [Except.bind, hn]
  | some n =>
    cases n with
    | dir d => exact absurd hn (hdir d)
    | file i => simp [Except.bind, hn]

/-- Two paths that denote one file resolve to one slot. -/
theorem resolve_unique {fs : InodeFS} {p q : Bytes} {i : ℕ} (hp : fs.node p = .ok (.file i))
    (hq : fs.node q = .ok (.file i)) : ∃ a, fs.resolve p = .ok (.entry a) ∧ fs.resolve q = .ok (.entry a) := by
  obtain ⟨a, ha, hai⟩ := resolve_of_node_file hp
  obtain ⟨b, hb, hbi⟩ := resolve_of_node_file hq
  exact ⟨a, ha, by rw [hb, fs.linked_once a b _ hai hbi]⟩

/-! ### One slot -/

/-- The slot names what it named before, and a file there is unchanged. -/
structure KeepsSlot (fs fs' : InodeFS) (b : Slot) : Prop where
  entry : fs'.entries.lookup b = fs.entries.lookup b
  file : ∀ i, fs.entries.lookup b = some (.file i) → fs'.file i = fs.file i

lemma KeepsSlot.refl (fs : InodeFS) (b : Slot) : KeepsSlot fs fs b := ⟨rfl, fun _ _ => rfl⟩

section KeepsSlot

variable {fs : InodeFS} {a b c : Slot} {i : ℕ}

/-- A change of a file is a change at its own slot. -/
lemma keepsSlot_of_file {fs' : InodeFS} (hentries : fs'.entries = fs.entries) (hfile : ∀ j, j ≠ i → fs'.file j = fs.file j)
    (hai : fs.entries.lookup a = some (.file i)) (hne : b ≠ a) : KeepsSlot fs fs' b := by
  refine ⟨by rw [hentries], fun j hj => hfile j ?_⟩
  rintro rfl
  exact hne (fs.linked_once b a _ hj hai)

lemma keepsSlot_create (data : FileData) (hne : b ≠ a) :
    KeepsSlot fs ((fs.create a .file Node.ino_file).write fs.next data) b := by
  refine ⟨by rw [write_entries, lookup_create, if_neg hne], fun j hj => write_file_ne _ ?_ data⟩
  have hlt : j < fs.next := fs.allocated b _ hj
  omega

lemma keepsSlot_openTrunc {fs' : InodeFS} {path now : Bytes} (h : fs.openTrunc path now = .ok (i, fs'))
    (hne : ∀ a, fs.resolve path = .ok (.entry a) → b ≠ a) : KeepsSlot fs fs' b := by
  obtain ⟨a, ha, ⟨hai, rfl⟩ | ⟨-, rfl, rfl⟩⟩ := openTrunc_eq_ok h
  · exact keepsSlot_of_file rfl (fun j hj => fs.write_file_ne hj _) hai (hne a ha)
  · exact keepsSlot_create _ (hne a ha)

lemma keepsSlot_append (hai : fs.entries.lookup a = some (.file i)) (hne : b ≠ a) (data now : Bytes) :
    KeepsSlot fs (fs.append i data now) b :=
  keepsSlot_of_file (fs.append_entries i data now) (fun _ hj => fs.append_file_ne hj data now) hai hne

lemma keepsSlot_move (hai : fs.entries.lookup a = some (.file i)) (hba : b ≠ a) (hbc : b ≠ c) :
    KeepsSlot fs (fs.move a c (.file i) hai) b :=
  ⟨by rw [lookup_move, if_neg hbc, if_neg hba], fun _ _ => rfl⟩

lemma keepsSlot_remove (hne : b ≠ a) : KeepsSlot fs (fs.remove a) b :=
  ⟨by rw [lookup_remove, if_neg hne], fun _ _ => rfl⟩

end KeepsSlot

end AFSv1.Foundations.InodeFS
