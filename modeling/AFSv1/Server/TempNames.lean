import AFSv1.Server.Steps

/-! The temporary file names: distinct paths have distinct ones unless their digests collide, and a path
that is empty names a directory. -/
namespace AFSv1.Server
open Foundations Tables

lemma hexDigit_injective {m n : ℕ} (hm : m < 16) (hn : n < 16) (h : hexDigit m = hexDigit n) : m = n := by
  revert h
  interval_cases m <;> interval_cases n <;> decide

lemma hexByte_injective {a b : UInt8} (h : hexByte a = hexByte b) : a = b := by
  have ha := a.toNat_lt
  have hb := b.toNat_lt
  simp only [hexByte, List.cons.injEq, and_true] at h
  have hhigh := hexDigit_injective (by omega) (by omega) h.1
  have hlow := hexDigit_injective (by omega) (by omega) h.2
  apply UInt8.toNat_inj.mp
  omega

lemma flatMap_hexByte_injective {as bs : List UInt8} (h : as.flatMap hexByte = bs.flatMap hexByte) : as = bs := by
  induction as generalizing bs with
  | nil =>
    cases bs with
    | nil => rfl
    | cons b bs => simp [hexByte] at h
  | cons a as ih =>
    cases bs with
    | nil => simp [hexByte] at h
    | cons b bs =>
      rw [List.flatMap_cons, List.flatMap_cons] at h
      obtain ⟨hbyte, hrest⟩ := List.append_inj h rfl
      rw [hexByte_injective hbyte, ih hrest]

lemma notMem_hexByte {a b : UInt8} (ha : a < 48) : a ∉ hexByte b := by
  have hdigit (n : ℕ) (hn : n < 16) : a ≠ hexDigit n := by
    rintro rfl
    revert ha
    interval_cases n <;> decide
  have hb := b.toNat_lt
  simp only [hexByte, List.mem_cons, List.not_mem_nil, or_false, not_or]
  exact ⟨hdigit _ (by omega), hdigit _ (by omega)⟩

variable (cfg : Config)

lemma hashFilepath_length (filepath : Bytes) : (hashFilepath cfg filepath).length = 64 := by
  simp [hashFilepath, hexByte]

lemma notMem_hashFilepath {a : UInt8} (ha : a < 48) (filepath : Bytes) : a ∉ hashFilepath cfg filepath := by
  intro h
  obtain ⟨b, -, hb⟩ := List.mem_flatMap.mp h
  exact notMem_hexByte ha hb

theorem hashFilepath_injOn {paths : Set Bytes} (h : Set.InjOn cfg.sha256 paths) :
    Set.InjOn (hashFilepath cfg) paths := by
  intro p hp q hq heq
  apply h hp hq
  exact List.ofFn_injective (flatMap_hexByte_injective heq)

/-- A temporary name is a name in some directory. -/
theorem resolve_temp {fs : InodeFS} {filepath : Bytes} {l : Loc} (hroot : (0 : UInt8) ∉ cfg.AFS_ROOT_DIR)
    (h : fs.resolve (getServerFilepath cfg filepath true) = .ok l) :
    ∃ d, l = .entry (d, hashFilepath cfg filepath) := by
  have hname : getServerFilepath cfg filepath true =
      (cfg.AFS_ROOT_DIR ++ Bytes.ascii "cache") ++ 47 :: hashFilepath cfg filepath := by
    simp [getServerFilepath, Bytes.ascii]
  have hlength := hashFilepath_length cfg filepath
  rw [hname] at h
  have hloc := InodeFS.resolve_append_name (by simp [hroot]; decide) (notMem_hashFilepath cfg (by decide) filepath)
    (notMem_hashFilepath cfg (by decide) filepath) h
  rwa [if_neg] at hloc
  rintro (heq | heq | heq) <;> rw [heq] at hlength <;> revert hlength <;> decide

/-- Distinct paths have distinct temporary files. -/
theorem temp_injOn {paths : Set Bytes} (hroot : (0 : UInt8) ∉ cfg.AFS_ROOT_DIR) (hsha : Set.InjOn cfg.sha256 paths)
    {fs : InodeFS} {p q : Bytes} (hp : p ∈ paths) (hq : q ∈ paths) {l : Loc}
    (hlp : fs.resolve (getServerFilepath cfg p true) = .ok l)
    (hlq : fs.resolve (getServerFilepath cfg q true) = .ok l) : p = q := by
  obtain ⟨d, rfl⟩ := resolve_temp cfg hroot hlp
  obtain ⟨d', heq⟩ := resolve_temp cfg hroot hlq
  simp only [Loc.entry.injEq, Prod.mk.injEq] at heq
  exact hashFilepath_injOn cfg hsha hp hq heq.2

/-- The file tree below `fs_root` itself is no place for a file. -/
theorem resolve_target_nil {fs : InodeFS} (hroot : (0 : UInt8) ∉ cfg.AFS_ROOT_DIR) (a : Slot) :
    fs.resolve (getServerFilepath cfg [] false) ≠ .ok (.entry a) := by
  intro h
  have hname : getServerFilepath cfg [] false = (cfg.AFS_ROOT_DIR ++ Bytes.ascii "fs_root") ++ 47 :: [] := by
    simp [getServerFilepath, Bytes.ascii]
  rw [hname] at h
  have hloc := InodeFS.resolve_append_name (by simp [hroot]; decide) (by simp) (by simp) h
  simp at hloc

end AFSv1.Server
