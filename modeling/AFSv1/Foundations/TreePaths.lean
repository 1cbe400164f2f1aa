import AFSv1.Foundations.InodeNames

/-! Where paths lead in a tree of directories. The names on the way from the root determine a directory and are
determined by it, and a path is resolved by taking up one name after the other and dropping one at each `..`. -/
namespace AFSv1.Foundations.InodeFS

/-- The parents are those of a tree with the root 0. -/
structure IsTree (fs : InodeFS) : Prop where
  root_parent : fs.parent 0 = 0
  parent : ∀ d c d', fs.entries.lookup (d, c) = some (.dir d') → fs.parent d' = d
  root : ∀ a, fs.entries.lookup a ≠ some (.dir 0)
  next_pos : 0 < fs.next

/-- The names, with the last one first, lead from the root to the directory. -/
def Leads (fs : InodeFS) : List Bytes → ℕ → Prop
  | [], d => d = 0
  | c :: names, d => ∃ d', fs.Leads names d' ∧ fs.entries.lookup (d', c) = some (.dir d)

/-- The names after the components of a path. -/
def walk (names : List Bytes) : List Bytes → List Bytes
  | [] => names
  | c :: cs =>
    if c = [] ∨ c = dot then walk names cs
    else if c = dotdot then walk names.tail cs
    else walk (c :: names) cs

/-- The directory `d` is `k` or lies below it. -/
def Within (fs : InodeFS) (k d : ℕ) : Prop := ∃ n, fs.parent^[n] d = k

/-- What is at the location is the directory `k` or lies below it. -/
def Inside (fs : InodeFS) (k : ℕ) : Loc → Prop
  | .self d => fs.Within k d
  | .entry a => fs.Within k a.1 ∨ fs.entries.lookup a = some (.dir k)

variable {fs : InodeFS} {names names' top : List Bytes} {d d' k : ℕ}

lemma walk_append (names cs cs' : List Bytes) : walk names (cs ++ cs') = walk (walk names cs) cs' := by
  induction cs generalizing names with
  | nil => rfl
  | cons c cs ih =>
    rw [List.cons_append, walk, walk]
    split_ifs <;> exact ih _

lemma Leads.dir_unique (h : fs.Leads names d) (h' : fs.Leads names d') : d = d' := by
  induction names generalizing d d' with
  | nil => exact h.trans h'.symm
  | cons c names ih =>
    obtain ⟨e, he, hd⟩ := h
    obtain ⟨e', he', hd'⟩ := h'
    rw [ih he he', hd'] at hd
    simpa [eq_comm] using hd

lemma Leads.names_unique (htree : fs.IsTree) (h : fs.Leads names d) (h' : fs.Leads names' d) : names = names' := by
  induction names generalizing names' d with
  | nil =>
    cases names' with
    | nil => rfl
    | cons c names' =>
      obtain ⟨e, -, hd⟩ := h'
      rw [show d = 0 from h] at hd
      exact absurd hd (htree.root _)
  | cons c names ih =>
    obtain ⟨e, he, hd⟩ := h
    cases names' with
    | nil =>
      rw [show d = 0 from h'] at hd
      exact absurd hd (htree.root _)
    | cons c' names' =>
      obtain ⟨e', he', hd'⟩ := h'
      have hslot := fs.linked_once _ _ _ hd hd'
      simp only [Prod.mk.injEq] at hslot
      obtain ⟨rfl, rfl⟩ := hslot
      rw [ih he he']

/-- One directory up is one name less. -/
lemma Leads.parent (htree : fs.IsTree) (h : fs.Leads names d) : fs.Leads names.tail (fs.parent d) := by
  cases names with
  | nil =>
    rw [show d = 0 from h, htree.root_parent]
    rfl
  | cons c names =>
    obtain ⟨e, he, hd⟩ := h
    rwa [htree.parent e c d hd]

lemma Leads.iterate (htree : fs.IsTree) (n : ℕ) (h : fs.Leads names d) : fs.Leads (names.drop n) (fs.parent^[n] d) := by
  induction n generalizing names d with
  | zero => exact h
  | succ n ih =>
    rw [Function.iterate_succ_apply, ← List.drop_tail]
    exact ih (h.parent htree)

/-- A directory lies below another if the names that lead to it begin with those that lead to the other. -/
theorem Leads.within_iff (htree : fs.IsTree) (h : fs.Leads names d) (htop : fs.Leads top k) :
    fs.Within k d ↔ top <:+ names := by
  constructor
  · rintro ⟨n, hn⟩
    have hdrop := h.iterate htree n
    rw [hn] at hdrop
    rw [htop.names_unique htree hdrop]
    exact List.drop_suffix n names
  · rintro ⟨below, rfl⟩
    refine ⟨below.length, ?_⟩
    have hdrop := h.iterate htree below.length
    rw [List.drop_left] at hdrop
    exact hdrop.dir_unique htop

lemma Leads.enter (htree : fs.IsTree) (h : fs.Leads names d) {c : Bytes} (he : fs.enter d c = .ok d') :
    fs.Leads (walk names [c]) d' := by
  rw [walk, walk, walk, walk]
  rcases enter_eq_ok.mp he with ⟨hstay, rfl⟩ | ⟨hstay, rfl, rfl⟩ | ⟨hstay, hup, hdir⟩
  · rwa [if_pos hstay]
  · rw [if_neg hstay, if_pos rfl]
    exact h.parent htree
  · rw [if_neg hstay, if_neg hup]
    exact ⟨d, h, hdir⟩

variable (fs) in
/-- The names lead to the location. -/
def LeadsTo (names : List Bytes) : Loc → Prop
  | .self d => fs.Leads names d
  | .entry a => ∃ before, names = a.2 :: before ∧ fs.Leads before a.1

/-- Resolution follows the names. -/
theorem Leads.locate (htree : fs.IsTree) (h : fs.Leads names d) {cs : List Bytes} {l : Loc} (hl : fs.locate d cs = .ok l) :
    fs.LeadsTo (walk names cs) l := by
  fun_induction fs.locate d cs generalizing names with
  | case1 d =>
    cases hl
    exact h
  | case2 d c hc =>
    cases he : fs.enter d c with
    | error e => rw [he] at hl; cases hl
    | ok d' =>
      rw [he] at hl
      cases hl
      exact h.enter htree he
  | case3 d c hc =>
    cases hl
    rw [not_or, not_or] at hc
    refine ⟨names, ?_, h⟩
    rw [walk, if_neg (by simp [hc]), if_neg hc.2.2]
    rfl
  | case4 d c cs hcs ih =>
    cases he : fs.enter d c with
    | error e => rw [he] at hl; cases hl
    | ok d' =>
      rw [he] at hl
      have hrest := ih d' (h.enter htree he) hl
      rwa [← walk_append] at hrest

/-- Whether a location lies below a directory can be read off the names. -/
theorem LeadsTo.inside_iff (htree : fs.IsTree) {l : Loc} (h : fs.LeadsTo names l) (htop : fs.Leads top k) :
    fs.Inside k l ↔ top <:+ names := by
  cases l with
  | self d => exact Leads.within_iff htree h htop
  | entry a =>
    obtain ⟨before, rfl, hbefore⟩ := h
    rw [Inside, hbefore.within_iff htree htop, List.suffix_cons_iff, or_comm]
    refine or_congr_left ⟨fun hdir => ?_, ?_⟩
    · exact htop.names_unique htree ⟨a.1, hbefore, hdir⟩
    · rintro rfl
      obtain ⟨d, hd, hdir⟩ := htop
      rwa [hd.dir_unique hbefore] at hdir

theorem leadsTo_of_resolve (htree : fs.IsTree) {path : Bytes} {l : Loc} (h : fs.resolve path = .ok l) :
    fs.LeadsTo (walk [] (components path)) l := by
  unfold resolve at h
  split_ifs at h
  exact Leads.locate htree (show fs.Leads [] 0 from rfl) h

theorem leads_of_node (htree : fs.IsTree) {path : Bytes} (h : fs.node path = .ok (.dir d)) :
    fs.Leads (walk [] (components path)) d := by
  unfold node at h
  cases hr : fs.resolve path with
  | error e => rw [hr] at h; cases h
  | ok l =>
    rw [hr] at h
    have hleads := leadsTo_of_resolve htree hr
    cases l with
    | self d' =>
      cases h
      exact hleads
    | entry a =>
      obtain ⟨before, hnames, hbefore⟩ := hleads
      rw [hnames]
      refine ⟨a.1, hbefore, ?_⟩
      cases hn : fs.entries.lookup a with
      | none => simp [Except.bind, hn] at h
      | some n => simpa [Except.bind, hn] using h

/-! ### Components -/

lemma splitOn_append_slash (p q : Bytes) : (p ++ 47 :: q).splitOn 47 = p.splitOn 47 ++ q.splitOn 47 := by
  rw [List.splitOn_eq_splitOnP, List.splitOnP_append_cons _ _ (by simp), ← List.splitOn_eq_splitOnP,
    ← List.splitOn_eq_splitOnP]

lemma cString_append {p : Bytes} (h : (0 : UInt8) ∉ p) (q : Bytes) : (p ++ q).cString = p ++ q.cString := by
  unfold Bytes.cString
  rw [List.takeWhile_append_of_pos]
  intro b hb
  rw [decide_eq_true_eq]
  rintro rfl
  exact h hb

theorem components_append_slash {p : Bytes} (h : (0 : UInt8) ∉ p) (q : Bytes) :
    components (p ++ 47 :: q) = components p ++ components q := by
  have hslash : Bytes.cString (47 :: q) = 47 :: q.cString := by simp [Bytes.cString]
  rw [components, components, components, cString_append h, hslash, splitOn_append_slash, cString_eq_self h]

/-- Slashes at the end make no difference. -/
theorem walk_stripSlashes (names : List Bytes) (path : Bytes) :
    walk names (components (stripSlashes path)) = walk names (components path) := by
  have hzero : (0 : UInt8) ∉ stripSlashes path := by
    intro hmem
    have hmem := List.dropWhile_subset _ (List.mem_reverse.mp hmem)
    simpa using List.mem_takeWhile_imp (List.mem_reverse.mp hmem)
  rw [components, cString_eq_self hzero, components, stripSlashes]
  generalize path.cString = s
  induction s using List.reverseRecOn with
  | nil => rfl
  | append_singleton s b ih =>
    rw [List.reverse_append, List.reverse_singleton, List.singleton_append, List.dropWhile_cons]
    split_ifs with hb
    · obtain rfl : b = 47 := by simpa using hb
      rw [ih, splitOn_append_slash, walk_append]
      rfl
    · simp

/-! ### Calls keep the tree -/

theorem isTree_empty : empty.IsTree := ⟨rfl, by simp [empty], by simp [empty], by simp [empty]⟩

/-- New directories apart, what is a directory was one before, in the same place. -/
lemma IsTree.of_dirs (h : fs.IsTree) {fs' : InodeFS} (hparent : fs'.parent = fs.parent) (hnext : fs.next ≤ fs'.next)
    (hdirs : ∀ a d, fs'.entries.lookup a = some (.dir d) → fs.entries.lookup a = some (.dir d)) : fs'.IsTree := by
  refine ⟨?_, fun d c d' hd => ?_, fun a ha => h.root a (hdirs a 0 ha), h.next_pos.trans_le hnext⟩
  · rw [hparent]
    exact h.root_parent
  · rw [hparent]
    exact h.parent d c d' (hdirs _ _ hd)

theorem IsTree.sameDirs (h : fs.IsTree) {fs' : InodeFS} (hdirs : SameDirs fs fs') (hnext : fs.next ≤ fs'.next) :
    fs'.IsTree := h.of_dirs hdirs.parent hnext fun a d => (hdirs.dirs a d).mp

/-- A directory is put into a slot. -/
lemma IsTree.place (h : fs.IsTree) {fs' : InodeFS} {b : Slot} (hk : k ≠ 0)
    (hparent : fs'.parent = Function.update fs.parent k b.1) (hnext : fs.next ≤ fs'.next)
    (hdirs : ∀ c d, fs'.entries.lookup c = some (.dir d) →
      c = b ∧ d = k ∨ d ≠ k ∧ fs.entries.lookup c = some (.dir d)) : fs'.IsTree := by
  refine ⟨?_, fun d c d' hd => ?_, fun c hc => ?_, h.next_pos.trans_le hnext⟩
  · rw [hparent, Function.update_of_ne hk.symm]
    exact h.root_parent
  · rw [hparent]
    rcases hdirs _ _ hd with ⟨hb, rfl⟩ | ⟨hne, hd⟩
    · rw [Function.update_self, ← hb]
    · rw [Function.update_of_ne hne]
      exact h.parent d c d' hd
  · rcases hdirs _ _ hc with ⟨-, hk₀⟩ | ⟨-, hc⟩
    · exact hk hk₀.symm
    · exact h.root c hc

/-- A new directory is below the one it is made in. -/
theorem IsTree.mkdir (h : fs.IsTree) {fs' : InodeFS} {path : Bytes} (hmkdir : fs.mkdir path = .ok fs') : fs'.IsTree := by
  unfold InodeFS.mkdir at hmkdir
  cases hr : fs.resolve (stripSlashes path) with
  | error e => rw [hr] at hmkdir; cases hmkdir
  | ok l =>
    rw [hr] at hmkdir
    cases l with
    | self d => cases hmkdir
    | entry a =>
      cases hn : fs.entries.lookup a with
      | some n => simp [Except.bind, hn] at hmkdir
      | none =>
        simp only [Except.bind, hn, Except.ok.injEq] at hmkdir
        subst hmkdir
        refine h.place h.next_pos.ne' rfl (Nat.le_succ _) fun c d hc => ?_
        change (fs.create a .dir Node.ino_dir).entries.lookup c = _ at hc
        rw [lookup_create] at hc
        split_ifs at hc with hca
        · exact .inl ⟨hca, by simpa [eq_comm] using hc⟩
        · have hlt : d < fs.next := fs.allocated _ _ hc
          exact .inr ⟨hlt.ne, hc⟩

/-- A removed entry takes no other directory with it. -/
lemma IsTree.remove (h : fs.IsTree) (a : Slot) : (fs.remove a).IsTree := by
  refine h.of_dirs rfl le_rfl fun b d hb => ?_
  rw [lookup_remove] at hb
  split_ifs at hb
  exact hb

theorem IsTree.rmdir (h : fs.IsTree) {fs' : InodeFS} {path : Bytes} (hrmdir : fs.rmdir path = .ok fs') : fs'.IsTree := by
  unfold InodeFS.rmdir at hrmdir
  cases hr : fs.resolve (stripSlashes path) with
  | error e => rw [hr] at hrmdir; cases hrmdir
  | ok l =>
    rw [hr] at hrmdir
    cases l with
    | self d => cases hrmdir
    | entry a =>
      cases hn : fs.entries.lookup a with
      | none => simp [Except.bind, hn] at hrmdir
      | some n =>
        cases n with
        | file i => simp [Except.bind, hn] at hrmdir
        | dir d =>
          simp only [Except.bind, hn] at hrmdir
          split_ifs at hrmdir
          cases hrmdir
          exact h.remove a

lemma IsTree.move_file (h : fs.IsTree) {a b : Slot} {i : ℕ} (ha : fs.entries.lookup a = some (.file i)) :
    (fs.move a b (.file i) ha).IsTree := by
  refine h.of_dirs rfl le_rfl fun c d hc => ?_
  rw [lookup_move] at hc
  split_ifs at hc
  · cases hc
  · exact hc

/-- A directory that moves gets a new parent. -/
theorem IsTree.rename (h : fs.IsTree) {fs' : InodeFS} {old new : Bytes} (hrename : fs.rename old new = .ok fs') :
    fs'.IsTree := by
  have hmoved {a b : Slot} {k : ℕ} (ha : fs.entries.lookup a = some (.dir k)) :
      ({ fs.move a b (.dir k) ha with parent := Function.update fs.parent k b.1 } : InodeFS).IsTree := by
    have hk : k ≠ 0 := by
      rintro rfl
      exact h.root a ha
    refine h.place hk rfl le_rfl fun c d hc => ?_
    change (fs.move a b (.dir k) ha).entries.lookup c = _ at hc
    rw [lookup_move] at hc
    split_ifs at hc with hcb hca
    · exact .inl ⟨hcb, by simpa [eq_comm] using hc⟩
    · refine .inr ⟨?_, hc⟩
      rintro rfl
      exact hca (fs.linked_once _ _ _ hc ha)
  have hok := hrename
  unfold InodeFS.rename at hrename
  cases hr : fs.resolve old with
  | error e => rw [hr] at hrename; cases hrename
  | ok l =>
    rw [hr] at hrename
    cases l with
    | self d => cases hrename
    | entry a =>
      simp only [Except.bind] at hrename
      split at hrename
      · cases hrename
      · rename_i i ha
        obtain ⟨b, -, -, rfl⟩ := (rename_file_eq_ok hr ha).mp hok
        exact h.move_file ha
      · rename_i k ha
        cases hnew : fs.resolve (stripSlashes new) with
        | error e => rw [hnew] at hrename; cases hrename
        | ok l =>
          rw [hnew] at hrename
          cases l with
          | self d => cases hrename
          | entry b =>
            simp only at hrename
            split_ifs at hrename
            · cases hrename
              exact h
            · split at hrename
              · cases hrename
              · split_ifs at hrename
                cases hrename
                exact hmoved ha
              · cases hrename
                exact hmoved ha

end AFSv1.Foundations.InodeFS
