import AFSv1.Client.Evolution

/-! Descriptors and handles: a handle that FUSE holds open denotes an inode of its own path, unless
its open failed and left it with the descriptor -1. -/
namespace AFSv1.Client
open Foundations Tables

variable {Path : Type}

/-- `fi->fh` after a failed `open`. -/
def badHandle : ℕ := fhOf (-1)

lemma badHandle_large : ¬ badHandle < 2 ^ 31 := by decide +kernel

lemma intOf_of_lt {fd : ℕ} (h : fd < 2 ^ 31) : intOf fd = fd := by
  unfold intOf
  norm_num at h
  rw [Int.bmod_eq_of_le] <;> norm_num
  omega

lemma Local.file_of_lt (l : Local Path) {fd : ℕ} (h : fd < 2 ^ 31) : l.file fd = l.fds fd := by
  rw [file, intOf_of_lt h, if_pos (Int.natCast_nonneg fd), Int.toNat_natCast]

@[simp] lemma Local.file_badHandle (l : Local Path) : l.file badHandle = none := by
  rw [file, if_neg (by decide +kernel)]

lemma fhOf_natCast {fd : ℕ} (h : fd < 2 ^ 31) : fhOf fd = fd := by
  unfold fhOf
  norm_num at h
  rw [Int.emod_eq_of_lt (by omega)]
  · simp
  · norm_num
    omega

/-- The test on the unsigned field never fires. -/
lemma openHandle_eq [DecidableEq Path] (path : Path) :
    openHandle path = .call (.disk (.openFile path)) fun r => .ret { rc := 0, fh := fhOf (returned r) } := by
  simp only [openHandle, Nat.not_lt_zero, if_false]
  rfl

/-- The handles denote files of their paths, each through a descriptor of its own. -/
structure Mount.HandlesOk (m : Mount Path) : Prop where
  valid : ∀ h ∈ m.handles, h.2 = badHandle ∨ h.2 < 2 ^ 31 ∧ ∃ i, m.fds h.2 = some (h.1, i)
  nodup : ((m.handles.map Prod.snd).filter (· < 2 ^ 31)).Nodup

namespace Mount

lemma HandlesOk.file {m : Mount Path} (h : m.HandlesOk) {path q : Path} {fh i : ℕ} (hmem : (path, fh) ∈ m.handles)
    (hfile : m.toLocal.file fh = some (q, i)) : q = path := by
  rcases h.valid _ hmem with hbad | ⟨hlt, j, hj⟩
  · rw [show fh = badHandle from hbad] at hfile
    simp at hfile
  · rw [Local.file_of_lt _ hlt, hj] at hfile
    simp only [Option.some.injEq, Prod.mk.injEq] at hfile
    exact hfile.1.symm

/-- No handle uses the descriptor. -/
def Unused (m : Mount Path) (fd : ℕ) : Prop := ∀ h ∈ m.handles, h.2 < 2 ^ 31 → h.2 ≠ fd

lemma HandlesOk.unused {m : Mount Path} (h : m.HandlesOk) {fd : ℕ} (hfd : m.fds fd = none) : m.Unused fd := by
  rintro a ha hlt rfl
  rcases h.valid a ha with hbad | ⟨-, i, hi⟩
  · rw [hbad] at hlt
    exact absurd hlt badHandle_large
  · rw [hfd] at hi
    cases hi

/-- Descriptors that no handle uses come and go. -/
lemma HandlesOk.update {m : Mount Path} (h : m.HandlesOk) {fd : ℕ} (hfd : m.Unused fd) (f : Option (Path × ℕ)) :
    ({ m with fds := Function.update m.fds fd f } : Mount Path).HandlesOk := by
  refine ⟨fun a ha => (h.valid a ha).imp_right fun ⟨hlt, i, hi⟩ => ⟨hlt, i, ?_⟩, h.nodup⟩
  rw [show ({ m with fds := Function.update m.fds fd f } : Mount Path).fds = Function.update m.fds fd f from rfl,
    Function.update_of_ne (hfd a ha hlt), hi]

/-- What a successful `afs_open` has to leave behind. -/
def Opened (m : Mount Path) (path : Path) (fh : ℕ) : Prop :=
  fh = badHandle ∨ fh < 2 ^ 31 ∧ (∃ i, m.fds fh = some (path, i)) ∧ m.Unused fh

lemma HandlesOk.cons {m : Mount Path} (h : m.HandlesOk) {path : Path} {fh : ℕ} (hopened : m.Opened path fh) :
    ({ m with handles := (path, fh) :: m.handles } : Mount Path).HandlesOk := by
  constructor
  · rintro a (_ | ⟨_, ha⟩)
    · exact hopened.imp_right fun ⟨hlt, hfds, _⟩ => ⟨hlt, hfds⟩
    · exact h.valid a ha
  · rw [List.map_cons]
    rcases hopened with hbad | ⟨hlt, -, hunused⟩
    · rw [List.filter_cons_of_neg (by simpa [hbad] using badHandle_large)]
      exact h.nodup
    · rw [List.filter_cons_of_pos (by simpa using hlt), List.nodup_cons]
      refine ⟨fun hmem => ?_, h.nodup⟩
      obtain ⟨a, ha, hafh⟩ := List.mem_map.mp (List.mem_filter.mp hmem).1
      exact hunused a ha (by rw [hafh]; exact hlt) hafh

variable [DecidableEq Path]

abbrev modify (m : Mount Path) (path : Path) (f : Entry → Entry) : Mount Path :=
  { m with toLocal := m.toLocal.modify path f }

/-- The contents of the entries do not matter. -/
lemma HandlesOk.modify {m : Mount Path} (h : m.HandlesOk) (path : Path) (f : Entry → Entry) :
    (m.modify path f).HandlesOk := ⟨h.valid, h.nodup⟩

lemma HandlesOk.erase {m : Mount Path} (h : m.HandlesOk) (a : Path × ℕ) :
    ({ m with handles := m.handles.erase a } : Mount Path).HandlesOk := by
  refine ⟨fun b hb => h.valid b (List.mem_of_mem_erase hb), ?_⟩
  exact h.nodup.sublist ((List.erase_sublist.map _).filter _)

lemma HandlesOk.unused_erase {m : Mount Path} (h : m.HandlesOk) {a : Path × ℕ} (ha : a ∈ m.handles) :
    ({ m with handles := m.handles.erase a } : Mount Path).Unused a.2 := by
  intro b hb hlt heq
  have hperm := ((List.perm_cons_erase ha).map Prod.snd).filter (· < 2 ^ 31)
  have hnodup := hperm.nodup_iff.mp h.nodup
  rw [List.map_cons, List.filter_cons_of_pos (by simpa [← heq] using hlt), List.nodup_cons] at hnodup
  refine hnodup.1 (List.mem_filter.mpr ⟨?_, by simpa [← heq] using hlt⟩)
  exact heq ▸ List.mem_map_of_mem hb

/-! ### Begin and end of an operation -/

lemma begin_release {m m' : Mount Path} {fuel fh : ℕ} {path : Path} (h : begin (.release fuel path fh) m = some m') :
    (path, fh) ∈ m.handles ∧ m' = { m with handles := m.handles.erase (path, fh) } := by
  simp only [begin, Operation.handle, Option.ite_none_right_eq_some, Option.some.injEq] at h
  exact ⟨h.1, h.2.symm⟩

lemma begin_other {m m' : Mount Path} {op : Operation Path} (h : begin op m = some m')
    (hop : ∀ fuel path fh, op ≠ .release fuel path fh) : m' = m ∧ ∀ a, op.handle = some a → a ∈ m.handles := by
  cases op with
  | release fuel path fh => exact absurd rfl (hop fuel path fh)
  | «open» _ | mknod _ | unlink _ | truncate _ _ =>
    cases h
    exact ⟨rfl, nofun⟩
  | read _ _ _ _ | write _ _ _ _ | fsync _ _ | ftruncate _ _ _ =>
    simp only [begin, Operation.handle, Option.ite_none_right_eq_some, Option.some.injEq] at h
    refine ⟨h.2.symm, fun a ha => ?_⟩
    cases ha
    exact h.1

/-- The start of an operation leaves the files and tables alone. -/
lemma begin_toLocal {m m' : Mount Path} {op : Operation Path} (h : begin op m = some m') : m'.toLocal = m.toLocal := by
  by_cases hop : ∃ fuel path fh, op = .release fuel path fh
  · obtain ⟨fuel, path, fh, rfl⟩ := hop
    obtain ⟨-, rfl⟩ := begin_release h
    rfl
  · rw [(begin_other h fun fuel path fh heq => hop ⟨fuel, path, fh, heq⟩).1]

omit [DecidableEq Path] in
lemma HandlesOk.finish {m : Mount Path} (h : m.HandlesOk) {op : Operation Path} {out : Outcome}
    (hopened : ∀ path, op = .open path → out.rc = 0 → m.Opened path out.fh) : (m.finish op out).HandlesOk := by
  cases op with
  | «open» path =>
    by_cases hrc : out.rc = 0
    · have hcons := h.cons (hopened path rfl hrc)
      exact ⟨by simpa [Mount.finish, hrc] using hcons.valid, by simpa [Mount.finish, hrc] using hcons.nodup⟩
    · exact ⟨by simpa [Mount.finish, hrc] using h.valid, by simpa [Mount.finish, hrc] using h.nodup⟩
  | _ => exact ⟨h.valid, h.nodup⟩

omit [DecidableEq Path] in
lemma handlesOk_crash (m : Mount Path) (op : Option (Operation Path)) : (m.crash op).HandlesOk := ⟨nofun, .nil⟩

end Mount
end AFSv1.Client
