import AFSv1.Foundations.TreePaths

/-! Directories that stay where they are. A directory with an entry is not removed, and neither are those on the way
to it, so that it is found under its path after any system call. -/
namespace AFSv1.Foundations.InodeFS

variable {fs fs' : InodeFS} {names names' cs cs' : List Bytes} {d d' : ℕ} {path : Bytes}

/-! ### The way to a directory -/

/-- Enter the components one after the other. -/
def follow (fs : InodeFS) (d : ℕ) : List Bytes → Except Errno ℕ
  | [] => .ok d
  | c :: cs => (fs.enter d c).bind fun d' => follow fs d' cs

lemma locate_cons (c : Bytes) (hcs : cs ≠ []) :
    fs.locate d (c :: cs) = (fs.enter d c).bind fun d' => fs.locate d' cs := by
  cases cs with
  | nil => exact absurd rfl hcs
  | cons c' cs => rfl

lemma locate_append (hcs' : cs' ≠ []) :
    fs.locate d (cs ++ cs') = (fs.follow d cs).bind fun d' => fs.locate d' cs' := by
  induction cs generalizing d with
  | nil => rfl
  | cons c cs ih =>
    rw [List.cons_append, locate_cons c (by simp [hcs']), follow]
    cases fs.enter d c with
    | error e => rfl
    | ok d' => exact ih

lemma suffix_walk (hup : dotdot ∉ cs) : names <:+ walk names cs := by
  induction cs generalizing names with
  | nil => exact List.suffix_rfl
  | cons c cs ih =>
    rw [List.mem_cons, not_or] at hup
    rw [walk, if_neg (Ne.symm hup.1)]
    split_ifs
    · exact ih hup.2
    · exact (List.suffix_cons c names).trans (ih hup.2)

lemma Leads.of_suffix (h : fs.Leads names d) (hsuffix : names' <:+ names) : ∃ d', fs.Leads names' d' := by
  induction names generalizing d with
  | nil =>
    rw [List.suffix_nil.mp hsuffix]
    exact ⟨d, h⟩
  | cons c names ih =>
    rcases List.suffix_cons_iff.mp hsuffix with rfl | hsuffix
    · exact ⟨d, h⟩
    · obtain ⟨e, he, -⟩ := h
      exact ih he hsuffix

/-- A path without a way back can be followed to where its names lead. -/
theorem follow_of_leads (hup : dotdot ∉ cs) (h : fs.Leads names d) (hwalk : fs.Leads (walk names cs) d') :
    fs.follow d cs = .ok d' := by
  induction cs generalizing names d with
  | nil => rw [follow, h.dir_unique hwalk]
  | cons c cs ih =>
    rw [List.mem_cons, not_or] at hup
    rw [walk, if_neg (Ne.symm hup.1)] at hwalk
    by_cases hstay : c = [] ∨ c = dot
    · rw [if_pos hstay] at hwalk
      have hc : fs.enter d c = .ok d := enter_eq_ok.mpr (.inl ⟨hstay, rfl⟩)
      rw [follow, hc]
      exact ih hup.2 h hwalk
    · rw [if_neg hstay] at hwalk
      obtain ⟨e, hleads⟩ := hwalk.of_suffix (suffix_walk hup.2)
      have hc : fs.enter d c = .ok e := by
        obtain ⟨d₁, hd₁, hentry⟩ := hleads
        rw [hd₁.dir_unique h] at hentry
        exact enter_eq_ok.mpr (.inr (.inr ⟨hstay, Ne.symm hup.1, hentry⟩))
      rw [follow, hc]
      exact ih hup.2 hleads hwalk

lemma components_ne_nil (path : Bytes) : components path ≠ [] := by
  rw [components, List.splitOn_eq_splitOnP]
  exact List.splitOnP_ne_nil _ _

/-- What is below a directory is looked for from there. -/
theorem resolve_below {p q : Bytes} (hzero : (0 : UInt8) ∉ p) (hup : dotdot ∉ components p)
    (h : fs.Leads (walk [] (components p)) d) : fs.resolve (p ++ 47 :: q) = fs.locate d (components q) := by
  have hnonempty : (p ++ 47 :: q).cString ≠ [] := by
    rw [cString_append hzero]
    simp [Bytes.cString]
  have hfollow : fs.follow 0 (components p) = .ok d := follow_of_leads hup (show fs.Leads [] 0 from rfl) h
  rw [resolve, if_neg hnonempty, components_append_slash hzero, locate_append (components_ne_nil q), hfollow]
  rfl

/-! ### Slashes at the end -/

theorem stripSlashes_append {p : Bytes} (hzero : (0 : UInt8) ∉ p) (q : Bytes) :
    stripSlashes (p ++ 47 :: q) = if stripSlashes q = [] then stripSlashes p else p ++ 47 :: stripSlashes q := by
  have hslash : Bytes.cString (47 :: q) = 47 :: q.cString := by simp [Bytes.cString]
  have hlast : List.dropWhile (fun b : UInt8 => decide (b = 47)) [47] = [] := by decide
  simp only [stripSlashes, cString_append hzero, hslash, cString_eq_self hzero, List.reverse_append, List.reverse_cons,
    List.append_assoc, List.dropWhile_append, hlast, List.isEmpty_iff, List.reverse_eq_nil_iff]
  split_ifs <;> simp

/-! ### What stays -/

lemma not_isEmptyDir {a : Slot} {n : Node} (h : fs.entries.lookup a = some n) : ¬ fs.IsEmptyDir a.1 := by
  intro hempty
  exact hempty a (Finmap.mem_keys.mpr (Finmap.mem_of_lookup_eq_some h)) rfl

theorem Leads.mono (h : fs.Leads names d)
    (hkeep : ∀ a k, fs.entries.lookup a = some (.dir k) → fs'.entries.lookup a = some (.dir k)) :
    fs'.Leads names d := by
  induction names generalizing d with
  | nil => exact h
  | cons c names ih =>
    obtain ⟨e, he, hentry⟩ := h
    exact ⟨e, ih he, hkeep _ _ hentry⟩

/-- A directory with an entry stays in its place if all those on the way to it do that have entries themselves. -/
theorem Leads.survives (h : fs.Leads names d) (hd : ¬ fs.IsEmptyDir d)
    (hkeep : ∀ before e c k, c :: before <:+ names → fs.Leads before e → fs.entries.lookup (e, c) = some (.dir k) →
      ¬ fs.IsEmptyDir k → fs'.entries.lookup (e, c) = some (.dir k)) : fs'.Leads names d := by
  induction names generalizing d with
  | nil => exact h
  | cons c names ih =>
    obtain ⟨e, he, hentry⟩ := h
    have hway : fs'.Leads names e := ih he (not_isEmptyDir hentry) fun before e' c' k hsuffix =>
      hkeep before e' c' k (hsuffix.trans (List.suffix_cons c names))
    exact ⟨e, hway, hkeep names e c d List.suffix_rfl he hentry hd⟩

/-! ### System calls on directories -/

theorem mkdir_eq_ok (h : fs.mkdir path = .ok fs') : ∃ a, fs.resolve (stripSlashes path) = .ok (.entry a) ∧
    fs.entries.lookup a = none ∧
      ∀ b, fs'.entries.lookup b = if b = a then some (.dir fs.next) else fs.entries.lookup b := by
  unfold mkdir at h
  cases hr : fs.resolve (stripSlashes path) with
  | error e => rw [hr] at h; cases h
  | ok l =>
    rw [hr] at h
    cases l with
    | self d => cases h
    | entry a =>
      cases hn : fs.entries.lookup a with
      | some n => simp [Except.bind, hn] at h
      | none =>
        simp only [Except.bind, hn, Except.ok.injEq] at h
        subst h
        exact ⟨a, rfl, hn, fun b => lookup_create fs a b .dir Node.ino_dir⟩

/-- A new directory takes the place of nothing. -/
lemma lookup_of_mkdir (h : fs.mkdir path = .ok fs') {a : Slot} {n : Node} (ha : fs.entries.lookup a = some n) :
    fs'.entries.lookup a = some n := by
  obtain ⟨b, -, hvacant, hlookup⟩ := mkdir_eq_ok h
  have hne : a ≠ b := by
    rintro rfl
    rw [hvacant] at ha
    cases ha
  rw [hlookup, if_neg hne, ha]

theorem rmdir_eq_ok (h : fs.rmdir path = .ok fs') : ∃ a k, fs.resolve (stripSlashes path) = .ok (.entry a) ∧
    fs.entries.lookup a = some (.dir k) ∧ fs.IsEmptyDir k ∧ fs' = fs.remove a := by
  unfold rmdir at h
  cases hr : fs.resolve (stripSlashes path) with
  | error e => rw [hr] at h; cases h
  | ok l =>
    rw [hr] at h
    cases l with
    | self d => cases h
    | entry a =>
      cases hn : fs.entries.lookup a with
      | none => simp [Except.bind, hn] at h
      | some n =>
        cases n with
        | file i => simp [Except.bind, hn] at h
        | dir k =>
          simp only [Except.bind, hn] at h
          split_ifs at h with hempty
          cases h
          exact ⟨a, k, rfl, hn, hempty, rfl⟩

/-- A directory is moved to a vacant place or over an empty directory. -/
theorem rename_dir_eq_ok {old new : Bytes} {a : Slot} {k : ℕ} (hr : fs.resolve old = .ok (.entry a))
    (ha : fs.entries.lookup a = some (.dir k)) (h : fs.rename old new = .ok fs') :
    fs' = fs ∨ ∃ b, (∀ n, fs.entries.lookup b = some n → ∃ t, n = .dir t ∧ fs.IsEmptyDir t) ∧
      ∀ c, fs'.entries.lookup c = if c = b then some (.dir k) else if c = a then none else fs.entries.lookup c := by
  unfold rename at h
  rw [hr] at h
  simp only [Except.bind] at h
  split at h
  · cases h
  · rename_i i hi
    rw [ha] at hi
    cases hi
  · rename_i k' hk'
    obtain rfl : k = k' := by rw [ha] at hk'; simpa using hk'
    cases hnew : fs.resolve (stripSlashes new) with
    | error e => rw [hnew] at h; cases h
    | ok l =>
      rw [hnew] at h
      cases l with
      | self d => cases h
      | entry b =>
        simp only at h
        split_ifs at h
        · cases h
          exact .inl rfl
        · split at h
          · cases h
          · rename_i t ht
            split_ifs at h with hempty
            cases h
            refine .inr ⟨b, fun n hn => ⟨t, ?_, hempty⟩, fun c => lookup_move fs a b c (.dir k) ha⟩
            rw [ht] at hn
            exact (Option.some.inj hn).symm
          · rename_i hnone
            cases h
            refine .inr ⟨b, fun n hn => ?_, fun c => lookup_move fs a b c (.dir k) ha⟩
            rw [hnone] at hn
            cases hn

end AFSv1.Foundations.InodeFS
