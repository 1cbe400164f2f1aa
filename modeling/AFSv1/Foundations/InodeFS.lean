import Mathlib.Data.Finmap
import AFSv1.Foundations.Bytes

/-! A POSIX directory tree. Entries name inodes, contents belong to inodes, and paths are
resolved component by component; there are no hard links and no symbolic links. -/
namespace AFSv1.Foundations

inductive Errno where
  | ENOENT | EIO | EBADF | EACCES | EBUSY | EEXIST | ENOTDIR | EISDIR | EINVAL | ENOSPC | ENOTEMPTY
  deriving DecidableEq, Repr

/-- The values of `errno.h` on Linux. -/
def Errno.number : Errno → ℤ
  | .ENOENT => 2
  | Errno.EIO => 5
  | .EBADF => 9
  | .EACCES => 13
  | .EBUSY => 16
  | .EEXIST => 17
  | .ENOTDIR => 20
  | .EISDIR => 21
  | .EINVAL => 22
  | .ENOSPC => 28
  | .ENOTEMPTY => 39

lemma Errno.number_pos (e : Errno) : 0 < e.number := by cases e <;> decide

inductive Node where
  | dir (d : ℕ)
  | file (i : ℕ)
  deriving DecidableEq, Repr

def Node.ino : Node → ℕ
  | .dir d => d
  | .file i => i

lemma Node.ino_dir (d : ℕ) : (Node.dir d).ino = d := rfl
lemma Node.ino_file (i : ℕ) : (Node.file i).ino = i := rfl

structure FileData where
  content : Bytes
  mtim : Bytes
  deriving DecidableEq, Repr

/-- A directory and a name in it. -/
abbrev Slot := ℕ × Bytes

/-! Conditions on what a lookup or a system call returns can be evaluated. -/

instance decidableForallSome {α : Type} (o : Option α) (p : α → Prop) [DecidablePred p] : Decidable (∀ a, o = some a → p a) :=
  match o with
  | none => isTrue nofun
  | some a => decidable_of_iff (p a) ⟨fun h _ hb => Option.some.inj hb ▸ h, fun h => h a rfl⟩

instance decidableExistsSome {α : Type} (o : Option α) (p : α → Prop) [DecidablePred p] : Decidable (∃ a, o = some a ∧ p a) :=
  match o with
  | none => isFalse nofun
  | some a => decidable_of_iff (p a) ⟨fun h => ⟨a, rfl, h⟩, fun ⟨_, hb, h⟩ => Option.some.inj hb ▸ h⟩

instance decidableForallOk {α : Type} (r : Except Errno α) (p : α → Prop) [DecidablePred p] : Decidable (∀ a, r = .ok a → p a) :=
  match r with
  | .error _ => isTrue nofun
  | .ok a => decidable_of_iff (p a) ⟨fun h _ hb => Except.ok.inj hb ▸ h, fun h => h a rfl⟩

instance decidableForallFile (r : Except Errno Node) (p : ℕ → Prop) [DecidablePred p] : Decidable (∀ i, r = .ok (.file i) → p i) :=
  match r with
  | .error _ => isTrue nofun
  | .ok (.dir _) => isTrue nofun
  | .ok (.file i) => decidable_of_iff (p i) ⟨fun h _ hb => Node.file.inj (Except.ok.inj hb) ▸ h, fun h => h i rfl⟩

/-- Directory 0 is the root, which is also the working directory. -/
structure InodeFS where
  entries : Finmap fun _ : Slot => Node
  parent : ℕ → ℕ
  file : ℕ → FileData
  next : ℕ
  linked_once : ∀ a b n, entries.lookup a = some n → entries.lookup b = some n → a = b
  allocated : ∀ a n, entries.lookup a = some n → n.ino < next

/-- What a path denotes: a directory reached through `.`, `..` or a final slash, or a slot,
which may be vacant. -/
inductive Loc where
  | self (d : ℕ)
  | entry (a : Slot)
  deriving DecidableEq, Repr

namespace InodeFS

/-- Only the root directory. -/
def empty : InodeFS := ⟨∅, fun _ => 0, fun _ => ⟨[], []⟩, 1, by simp, by simp⟩

/-! ### Entries and contents -/

/-- Fill a slot with a fresh inode. -/
def create (fs : InodeFS) (a : Slot) (node : ℕ → Node) (hnode : ∀ i, (node i).ino = i) : InodeFS where
  entries := fs.entries.insert a (node fs.next)
  parent := fs.parent
  file := fs.file
  next := fs.next + 1
  linked_once b c n hb hc := by
    have hfresh (x : Slot) : fs.entries.lookup x ≠ some (node fs.next) := by
      intro hx
      have := fs.allocated x _ hx
      rw [hnode] at this
      omega
    by_cases hba : b = a <;> by_cases hca : c = a
    · rw [hba, hca]
    · subst hba
      rw [Finmap.lookup_insert, Option.some.injEq] at hb
      rw [Finmap.lookup_insert_of_ne _ hca, ← hb] at hc
      exact absurd hc (hfresh c)
    · subst hca
      rw [Finmap.lookup_insert, Option.some.injEq] at hc
      rw [Finmap.lookup_insert_of_ne _ hba, ← hc] at hb
      exact absurd hb (hfresh b)
    · rw [Finmap.lookup_insert_of_ne _ hba] at hb
      rw [Finmap.lookup_insert_of_ne _ hca] at hc
      exact fs.linked_once b c n hb hc
  allocated b n hb := by
    by_cases hba : b = a
    · subst hba
      rw [Finmap.lookup_insert, Option.some.injEq] at hb
      rw [← hb, hnode]
      omega
    · rw [Finmap.lookup_insert_of_ne _ hba] at hb
      have := fs.allocated b n hb
      omega

lemma lookup_of_erase {fs : InodeFS} {a b : Slot} {n : Node} (h : (fs.entries.erase a).lookup b = some n) :
    b ≠ a ∧ fs.entries.lookup b = some n := by
  by_cases hba : b = a
  · subst hba
    rw [Finmap.lookup_erase] at h
    cases h
  · rw [Finmap.lookup_erase_ne hba] at h
    exact ⟨hba, h⟩

def remove (fs : InodeFS) (a : Slot) : InodeFS where
  entries := fs.entries.erase a
  parent := fs.parent
  file := fs.file
  next := fs.next
  linked_once b c n hb hc := fs.linked_once b c n (lookup_of_erase hb).2 (lookup_of_erase hc).2
  allocated b n hb := fs.allocated b n (lookup_of_erase hb).2

/-- Move the inode of an occupied slot to another slot, over what is there. -/
def move (fs : InodeFS) (a b : Slot) (node : Node) (h : fs.entries.lookup a = some node) : InodeFS where
  entries := (fs.entries.erase a).insert b node
  parent := fs.parent
  file := fs.file
  next := fs.next
  linked_once c d n hc hd := by
    have hmoved (x : Slot) : (fs.entries.erase a).lookup x ≠ some node := fun hx =>
      (lookup_of_erase hx).1 (fs.linked_once x a node (lookup_of_erase hx).2 h)
    by_cases hcb : c = b <;> by_cases hdb : d = b
    · rw [hcb, hdb]
    · subst hcb
      rw [Finmap.lookup_insert, Option.some.injEq] at hc
      rw [Finmap.lookup_insert_of_ne _ hdb, ← hc] at hd
      exact absurd hd (hmoved d)
    · subst hdb
      rw [Finmap.lookup_insert, Option.some.injEq] at hd
      rw [Finmap.lookup_insert_of_ne _ hcb, ← hd] at hc
      exact absurd hc (hmoved c)
    · rw [Finmap.lookup_insert_of_ne _ hcb] at hc
      rw [Finmap.lookup_insert_of_ne _ hdb] at hd
      exact fs.linked_once c d n (lookup_of_erase hc).2 (lookup_of_erase hd).2
  allocated c n hc := by
    by_cases hcb : c = b
    · subst hcb
      rw [Finmap.lookup_insert, Option.some.injEq] at hc
      exact fs.allocated a n (hc ▸ h)
    · rw [Finmap.lookup_insert_of_ne _ hcb] at hc
      exact fs.allocated c n (lookup_of_erase hc).2

def write (fs : InodeFS) (i : ℕ) (data : FileData) : InodeFS := { fs with file := Function.update fs.file i data }

@[simp] lemma write_entries (fs : InodeFS) (i : ℕ) (data : FileData) : (fs.write i data).entries = fs.entries := rfl
@[simp] lemma write_parent (fs : InodeFS) (i : ℕ) (data : FileData) : (fs.write i data).parent = fs.parent := rfl
@[simp] lemma write_next (fs : InodeFS) (i : ℕ) (data : FileData) : (fs.write i data).next = fs.next := rfl
@[simp] lemma write_file (fs : InodeFS) (i : ℕ) (data : FileData) : (fs.write i data).file i = data := by
  simp [write]
lemma write_file_ne (fs : InodeFS) {i j : ℕ} (h : j ≠ i) (data : FileData) : (fs.write i data).file j = fs.file j := by
  simp [write, h]

/-- `file << data` on a stream that stands at the end of its file. -/
def append (fs : InodeFS) (i : ℕ) (data now : Bytes) : InodeFS :=
  if data = [] then fs else fs.write i ⟨(fs.file i).content ++ data, now⟩

@[simp] lemma append_entries (fs : InodeFS) (i : ℕ) (data now : Bytes) :
    (fs.append i data now).entries = fs.entries := by
  unfold append
  split_ifs <;> rfl

@[simp] lemma append_parent (fs : InodeFS) (i : ℕ) (data now : Bytes) :
    (fs.append i data now).parent = fs.parent := by
  unfold append
  split_ifs <;> rfl

@[simp] lemma append_content (fs : InodeFS) (i : ℕ) (data now : Bytes) :
    ((fs.append i data now).file i).content = (fs.file i).content ++ data := by
  unfold append
  split_ifs with h
  · simp [h]
  · simp

lemma append_file_ne (fs : InodeFS) {i j : ℕ} (h : j ≠ i) (data now : Bytes) :
    (fs.append i data now).file j = fs.file j := by
  unfold append
  split_ifs
  · rfl
  · exact fs.write_file_ne h _

/-! ### Resolution -/

def dot : Bytes := Bytes.ascii "."
def dotdot : Bytes := Bytes.ascii ".."

/-- Enter a component that has to be a directory. -/
def enter (fs : InodeFS) (d : ℕ) (c : Bytes) : Except Errno ℕ :=
  if c = [] ∨ c = dot then .ok d
  else if c = dotdot then .ok (fs.parent d)
  else match fs.entries.lookup (d, c) with
    | some (.dir d') => .ok d'
    | some (.file _) => .error .ENOTDIR
    | none => .error .ENOENT

def locate (fs : InodeFS) (d : ℕ) : List Bytes → Except Errno Loc
  | [] => .ok (.self d)
  | [c] => if c = [] ∨ c = dot ∨ c = dotdot then (fs.enter d c).map .self else .ok (.entry (d, c))
  | c :: cs => (fs.enter d c).bind fun d' => locate fs d' cs

def components (path : Bytes) : List Bytes := path.cString.splitOn 47

def resolve (fs : InodeFS) (path : Bytes) : Except Errno Loc :=
  if path.cString = [] then .error .ENOENT else fs.locate 0 (components path)

/-- The inode at a path. -/
def node (fs : InodeFS) (path : Bytes) : Except Errno Node :=
  (fs.resolve path).bind fun
    | .self d => .ok (.dir d)
    | .entry a => match fs.entries.lookup a with
      | some n => .ok n
      | none => .error .ENOENT

/-! ### System calls -/

/-- `open` with `O_WRONLY | O_CREAT | O_TRUNC`. -/
def openTrunc (fs : InodeFS) (path now : Bytes) : Except Errno (ℕ × InodeFS) :=
  (fs.resolve path).bind fun
    | .self _ => .error .EISDIR
    | .entry a => match fs.entries.lookup a with
      | some (.dir _) => .error .EISDIR
      | some (.file i) => .ok (i, fs.write i ⟨[], now⟩)
      | none => .ok (fs.next, (fs.create a .file Node.ino_file).write fs.next ⟨[], now⟩)

def unlink (fs : InodeFS) (path : Bytes) : Except Errno InodeFS :=
  (fs.resolve path).bind fun
    | .self _ => .error .EISDIR
    | .entry a => match fs.entries.lookup a with
      | some (.dir _) => .error .EISDIR
      | some (.file _) => .ok (fs.remove a)
      | none => .error .ENOENT

/-- `mkdir` and `rmdir` accept slashes after the last component. -/
def stripSlashes (path : Bytes) : Bytes := (path.cString.reverse.dropWhile (· = 47)).reverse

def mkdir (fs : InodeFS) (path : Bytes) : Except Errno InodeFS :=
  (fs.resolve (stripSlashes path)).bind fun
    | .self _ => .error .EEXIST
    | .entry a => match fs.entries.lookup a with
      | some _ => .error .EEXIST
      | none => .ok { fs.create a .dir Node.ino_dir with parent := Function.update fs.parent fs.next a.1 }

def IsEmptyDir (fs : InodeFS) (d : ℕ) : Prop := ∀ a ∈ fs.entries.keys, a.1 ≠ d

instance (fs : InodeFS) (d : ℕ) : Decidable (fs.IsEmptyDir d) := by unfold IsEmptyDir; infer_instance

def rmdir (fs : InodeFS) (path : Bytes) : Except Errno InodeFS :=
  (fs.resolve (stripSlashes path)).bind fun
    | .self _ => .error .EINVAL
    | .entry a => match fs.entries.lookup a with
      | some (.dir d) => if fs.IsEmptyDir d then .ok (fs.remove a) else .error .ENOTEMPTY
      | some (.file _) => .error .ENOTDIR
      | none => .error .ENOENT

/-- The entries are those of the directory, in some order. -/
def IsListing (fs : InodeFS) (d : ℕ) (entries : List Bytes) : Prop :=
  entries.Nodup ∧ ∀ c, c ∈ entries ↔ c = dot ∨ c = dotdot ∨ (d, c) ∈ fs.entries

/-- Whether `d` is `k` or lies below it, following at most `fuel` parents. -/
def below (fs : InodeFS) (k : ℕ) : ℕ → ℕ → Bool
  | 0, d => d = k
  | fuel+1, d => d = k || (d ≠ 0 && below fs k fuel (fs.parent d))

def rename (fs : InodeFS) (old new : Bytes) : Except Errno InodeFS :=
  (fs.resolve old).bind fun
    | .self _ => .error .EBUSY
    | .entry a => match h : fs.entries.lookup a with
      | none => .error .ENOENT
      | some (.file i) => (fs.resolve new).bind fun
        | .self _ => .error .EISDIR
        | .entry b => match fs.entries.lookup b with
          | some (.dir _) => .error .EISDIR
          | _ => .ok (fs.move a b (.file i) h)
      | some (.dir k) => (fs.resolve (stripSlashes new)).bind fun
        | .self _ => .error .EBUSY
        | .entry b =>
          let moved : InodeFS := { fs.move a b (.dir k) h with parent := Function.update fs.parent k b.1 }
          if a = b then .ok fs
          else if fs.below k fs.next b.1 then .error .EINVAL
          else match fs.entries.lookup b with
            | some (.file _) => .error .ENOTDIR
            | some (.dir t) => if fs.IsEmptyDir t then .ok moved else .error .ENOTEMPTY
            | none => .ok moved

end InodeFS
end AFSv1.Foundations
