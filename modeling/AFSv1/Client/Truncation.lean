import AFSv1.Client.Upload

/-! Sessions that change a file by writes and truncations. Only writes mark the file as dirty, so what a
truncation did reaches the server in some sessions and not in others. -/
namespace AFSv1.Client
open Foundations Tables

variable {A Path : Type} [DecidableEq A] [DecidableEq Path]

/-- The operations of a session that change the file. -/
inductive Modification where
  | write (buf : Bytes) (offset : ℕ)
  | ftruncate (offset : ℕ)
  | truncate (newsize : ℕ)
  deriving DecidableEq

namespace Modification

def operation (path : Path) (fh : ℕ) : Modification → Operation Path
  | .write buf offset => .write path buf offset fh
  | .ftruncate offset => .ftruncate path offset fh
  | .truncate newsize => .truncate path newsize

def isWrite : Modification → Bool
  | .write _ _ => true
  | _ => false

/-- The effect on the file's bytes. -/
def apply (b : Bytes) : Modification → Bytes
  | .write buf offset => b.overlay offset buf
  | .ftruncate n | .truncate n => b.resize n

/-- The return value of a modification that succeeds. -/
def full : Modification → ℤ
  | .write buf _ => buf.length
  | _ => 0

/-- Each truncation that changes the bytes `b` comes when the file is marked, at first or by a write. -/
def Marked : Bool → Option Bytes → List Modification → Prop
  | _, _, [] => True
  | d, b, x :: xs =>
    (x.isWrite = false → b.map x.apply ≠ b → d = true) ∧ Marked (d || x.isWrite) (b.map x.apply) xs

instance decidableMarked : (d : Bool) → (b : Option Bytes) → (xs : List Modification) → Decidable (Marked d b xs)
  | _, _, [] => isTrue trivial
  | d, b, x :: xs => @instDecidableAnd _ _ inferInstance (decidableMarked (d || x.isWrite) (b.map x.apply) xs)

end Modification

/-- The modifications run one after the other on the client `a`, and all succeed. -/
def Modified (a : A) (path : Path) (fh : ℕ) : List (Modification × List Env) → World A Path → World A Path → Prop
  | [], s, s' => s' = s
  | (x, envs) :: xs, s, s' => ∃ t, s.run (machine Path) (session a (x.operation path fh) envs) = some t ∧
      (t.locals a).calls.getLast? = some (x.operation path fh, some { rc := x.full }) ∧ Modified a path fh xs t s'

/-- After each truncation that changed the cached bytes the file is dirty. -/
def MarksTruncations (a : A) (path : Path) (fh : ℕ) : List (Modification × List Env) → World A Path → Prop
  | [], _ => True
  | (x, envs) :: xs, s => ∀ t, s.run (machine Path) (session a (x.operation path fh) envs) = some t →
      (x.isWrite = false → ((t.locals a).entry path).content ≠ ((s.locals a).entry path).content →
        ((t.locals a).entry path).dirty = true) ∧ MarksTruncations a path fh xs t

section Steps

variable {m m' : Mount Path} {g g' : Remote Path} {path : Path} {fh : ℕ} {envs : List Env} {out : Outcome}

lemma Mount.Denotes.modify (h : m.Denotes path fh) (f : Entry → Entry)
    (hf : (f (m.entry path)).cache = (m.entry path).cache) : (m.modify path f).Denotes path fh := by
  refine h.imp_right fun ⟨i, hi, hcache⟩ => ⟨i, hi, ?_⟩
  rw [Local.modify_entry_self, hf, hcache]

omit [DecidableEq Path] in
/-- A handle that a call worked on denotes the cache file. -/
lemma Mount.Denotes.file (h : m.Denotes path fh) {f : Path × ℕ} (hf : m.toLocal.file fh = some f) :
    ∃ i, f = (path, i) ∧ (m.entry path).cache = some i := by
  rcases h with hnone | ⟨i, hi, hcache⟩
  · rw [hf] at hnone
    cases hnone
  · exact ⟨i, Option.some.inj (hf.symm.trans hi), hcache⟩

lemma eval_modification {x : Modification} (hden : m.Denotes path fh) (hout : out.rc = x.full)
    (h : (x.operation path fh).program.eval (machine Path).exec envs m g = some (out, m', g')) :
    (m'.entry path).dirty = ((m.entry path).dirty || x.isWrite) ∧
      (m'.entry path).content = (m.entry path).content.map x.apply ∧ m'.Denotes path fh ∧ g' = g := by
  cases x with
  | write buf offset =>
    obtain ⟨env₁, envs, r₁, l₁, rfl, hdirty, h⟩ := eval_disk h
    cases hdirty
    obtain ⟨env₂, envs, r₂, l₂, rfl, hwrite, h⟩ := eval_disk h
    rcases LocalCall.exec_pwrite hwrite with ⟨f, -, hfile, rfl, rfl⟩ | ⟨e, rfl, -, -⟩
    · obtain ⟨rfl, hx⟩ := Prog.eval_ret.mp h
      cases hx
      obtain ⟨i, rfl, hcache⟩ := hden.file hfile
      refine ⟨by simp [Entry.dirty, Modification.isWrite], ?_, (hden.modify _ rfl).modify _ rfl, rfl⟩
      simp [Entry.content, hcache, Modification.apply]
    · obtain ⟨rfl, hx⟩ := Prog.eval_ret.mp h
      cases hx
      have := Errno.number_pos e
      simp only [Modification.full] at hout
      omega
  | ftruncate offset =>
    obtain ⟨env₁, envs, r₁, l₁, rfl, htrunc, h⟩ := eval_disk h
    simp only [LocalCall.exec] at htrunc
    split at htrunc
    · rename_i f hf
      cases htrunc
      obtain ⟨rfl, hx⟩ := Prog.eval_ret.mp h
      cases hx
      obtain ⟨i, rfl, hcache⟩ := hden.file (onFile_ok.mp hf).2
      refine ⟨by simp [Modification.isWrite], ?_, hden.modify _ rfl, rfl⟩
      simp [Entry.content, hcache, Modification.apply]
    · rename_i e _
      cases htrunc
      obtain ⟨rfl, hx⟩ := Prog.eval_ret.mp h
      cases hx
      have := Errno.number_pos e
      simp only [failed, Modification.full] at hout
      omega
  | truncate newsize =>
    obtain ⟨env₁, envs, r₁, l₁, rfl, htrunc, h⟩ := eval_disk h
    simp only [LocalCall.exec] at htrunc
    split at htrunc
    · rename_i i hi
      cases htrunc
      obtain ⟨rfl, hx⟩ := Prog.eval_ret.mp h
      cases hx
      have hcache := (onCache_ok.mp hi).2
      refine ⟨by simp [Modification.isWrite], ?_, hden.modify _ rfl, rfl⟩
      simp [Entry.content, hcache, Modification.apply]
    · rename_i e _
      cases htrunc
      obtain ⟨rfl, hx⟩ := Prog.eval_ret.mp h
      cases hx
      have := Errno.number_pos e
      simp only [failed, Modification.full] at hout
      omega

end Steps

variable {s s' : World A Path} {a : A} {path : Path} {fh : ℕ}

lemma run_modification {t : World A Path} {x : Modification} {envs : List Env} (hden : (s.locals a).Denotes path fh)
    (hrun : s.run (machine Path) (session a (x.operation path fh) envs) = some t)
    (hout : (t.locals a).calls.getLast? = some (x.operation path fh, some { rc := x.full })) :
    ((t.locals a).entry path).dirty = (((s.locals a).entry path).dirty || x.isWrite) ∧
      ((t.locals a).entry path).content = ((s.locals a).entry path).content.map x.apply ∧
        (t.locals a).Denotes path fh ∧ t.shared = s.shared := by
  obtain ⟨m, out, m', g', hbegin, heval, hend, hshared, -⟩ := World.run_session hrun
  obtain ⟨rfl, -⟩ := Mount.begin_other hbegin (by cases x <;> exact nofun)
  have hrc : out.rc = x.full := by
    have : out = { rc := x.full } := by simpa [hend, Mount.finish] using hout
    rw [this]
  obtain ⟨hdirty, hcontent, hden', rfl⟩ := eval_modification hden hrc heval
  rw [hend]
  exact ⟨hdirty, hcontent, hden', hshared⟩

/-- What a sequence of modifications leaves behind, and when it marks what its truncations change. -/
lemma Modified.end {mods : List (Modification × List Env)} (h : Modified a path fh mods s s')
    (hden : (s.locals a).Denotes path fh) :
    ((s'.locals a).entry path).dirty = (((s.locals a).entry path).dirty || (mods.map Prod.fst).any Modification.isWrite) ∧
      ((s'.locals a).entry path).content =
        ((s.locals a).entry path).content.map ((mods.map Prod.fst).foldl Modification.apply) ∧
      s'.shared = s.shared ∧ (MarksTruncations a path fh mods s ↔ Modification.Marked ((s.locals a).entry path).dirty
        ((s.locals a).entry path).content (mods.map Prod.fst)) := by
  induction mods generalizing s with
  | nil =>
    obtain rfl : s' = s := h
    simp [MarksTruncations, Modification.Marked]
  | cons y mods ih =>
    obtain ⟨x, envs⟩ := y
    obtain ⟨t, hrun, hout, hrest⟩ := h
    obtain ⟨hdirty, hcontent, hden', hshared⟩ := run_modification hden hrun hout
    obtain ⟨hdirty', hcontent', hshared', hmarks⟩ := ih hrest hden'
    refine ⟨?_, ?_, hshared'.trans hshared, ?_⟩
    · rw [hdirty', hdirty, List.map_cons, List.any_cons, Bool.or_assoc]
    · rw [hcontent', hcontent, Option.map_map]
      rfl
    · have hstep : MarksTruncations a path fh ((x, envs) :: mods) s ↔
          (x.isWrite = false → ((t.locals a).entry path).content ≠ ((s.locals a).entry path).content →
            ((t.locals a).entry path).dirty = true) ∧ MarksTruncations a path fh mods t := by
        simp only [MarksTruncations, hrun, Option.some.injEq]
        exact ⟨fun h => h t rfl, fun h t' ht' => ht' ▸ h⟩
      rw [hstep, hmarks, hdirty, hcontent, List.map_cons, Modification.Marked]
      refine and_congr_left fun _ => forall_congr' fun hx => ?_
      rw [hx, Bool.or_false]

/-- When a release brings the cached bytes `b` to the server, which holds `held`. -/
def Reaches (dirty : Bool) (b held : Option Bytes) (envs : List Env) : Prop :=
  (dirty = true ∧ ∀ c, b = some c → ReadsToEnd c 0 (envs.drop 3)) ∨
    held = b ∧ (dirty = true → envs[3]?.map Env.fault ≠ some none)

lemma Released.reaches {m m' : Mount Path} {g g' : Remote Path} {envs : List Env} {out : Outcome}
    (h : Released path envs m g out m' g') (hrc : out.rc = 0) (hanswered : ∀ env ∈ envs, env.outage = .none) :
    (g'.files path).map Version.content = (m'.entry path).content ↔
      Reaches (m.entry path).dirty (m.entry path).content ((g.files path).map Version.content) envs := by
  cases h with
  | clean hdirty => simp [Reaches, hdirty]
  | stored hdirty i hcache chunks hsent env henv reply g' hwrite =>
    have hb : (m.entry path).content = some ((m.entry path).inode i) := by simp [Entry.content, hcache]
    have hb' : ((m.modify path fun e =>
        { e with is_dirty := some false, last_modified := some reply.timestamp }).entry path).content =
          some ((m.entry path).inode i) := by simp [Entry.content, hcache]
    have hfirst : (envs.drop 3)[0]? = envs[3]? := by simp
    have hreads := hsent.complete_iff
    have hnothing := hsent.nothing_iff
    rw [hfirst] at hnothing
    rw [hb', hb, Reaches]
    by_cases hchunks : chunks = []
    · have hg : g' = g := by
        simp only [RemoteCall.exec, hchunks, hanswered env henv, if_true] at hwrite
        simp only [Bool.false_eq_true, reduceCtorEq, or_self, if_false, Option.some.injEq, Prod.mk.injEq] at hwrite
        exact hwrite.2.symm
      have hfailed := hnothing.mp hchunks
      simp [hdirty, hreads, hchunks, hg, hfailed]
    · obtain ⟨-, -, hfresh, rfl, -⟩ := RemoteCall.exec_Write_ok hwrite hchunks
      have hread : envs[3]?.map Env.fault = some none := not_not.mp (mt hnothing.mpr hchunks)
      simp [hdirty, hreads, hchunks, Remote.publish, hread]
  | failed => simp [Errno.number] at hrc

lemma run_release {fuel : ℕ} {envs : List Env}
    (hrun : s.run (machine Path) (session a (.release fuel path fh) envs) = some s')
    (hout : (s'.locals a).calls.getLast? = some (.release fuel path fh, some { rc := 0 }))
    (hanswered : ∀ env ∈ envs, env.outage = .none) :
    (s'.shared.files path).map Version.content = ((s'.locals a).entry path).content ↔
      Reaches ((s.locals a).entry path).dirty ((s.locals a).entry path).content
        ((s.shared.files path).map Version.content) envs := by
  obtain ⟨m, out, m', g', hbegin, heval, hend, rfl, -⟩ := World.run_session hrun
  obtain ⟨-, rfl⟩ := Mount.begin_release hbegin
  obtain rfl : out = { rc := 0 } := by simpa [hend, Mount.finish] using hout
  obtain ⟨m₁, hclosed, hreleased⟩ := eval_afsRelease heval
  have hreaches := hreleased.reaches rfl hanswered
  rw [hclosed.entry] at hreaches
  rw [← hreaches, hend]
  rfl

/-- A session of modifications keeps what the truncations did exactly if these come while the file is marked
and the release has something to upload, and can read it, unless the server has the same bytes already. -/
theorem truncation_iff (s s₁ s₂ s₃ : World A Path) (a : A) (path : Path) (fh fuel : ℕ) (envs₀ envs₃ : List Env)
    (mods : List (Modification × List Env))
    (hopen : s.run (machine Path) (session a (.open path) envs₀) = some s₁)
    (hfh : (s₁.locals a).calls.getLast? = some (.open path, some { rc := 0, fh }))
    (hmods : Modified a path fh mods s₁ s₂)
    (hrelease : s₂.run (machine Path) (session a (.release fuel path fh) envs₃) = some s₃)
    (hout : (s₃.locals a).calls.getLast? = some (.release fuel path fh, some { rc := 0 }))
    (hanswered : ∀ env ∈ envs₃, env.outage = .none) :
    (MarksTruncations a path fh mods s₁ ∧
        (s₃.shared.files path).map Version.content = ((s₃.locals a).entry path).content) ↔
      Modification.Marked ((s₁.locals a).entry path).dirty ((s₁.locals a).entry path).content (mods.map Prod.fst) ∧
        Reaches (((s₁.locals a).entry path).dirty || (mods.map Prod.fst).any Modification.isWrite)
          (((s₁.locals a).entry path).content.map ((mods.map Prod.fst).foldl Modification.apply))
          ((s₁.shared.files path).map Version.content) envs₃ := by
  obtain ⟨m, out, m', g', hbegin, heval, hend, -⟩ := World.run_session hopen
  obtain rfl : out = { rc := 0, fh } := by simpa [hend, Mount.finish] using hfh
  have hden : (s₁.locals a).Denotes path fh := by
    rw [hend]
    exact alone_eval alone_afsOpen heval rfl
  obtain ⟨hdirty, hcontent, hshared, hmarks⟩ := hmods.end hden
  rw [hmarks, run_release hrelease hout hanswered, hdirty, hcontent, hshared]

/-- A write and a truncation. -/
def rewritten : List (Modification × List Env) :=
  [(.write (Bytes.ascii "ab") 0, quiet 2 2), (.truncate 1, quiet 1 2)]

set_option synthInstance.maxSize 1024 in
theorem truncation_iff_rewritten : ∃ s₁ s₃ : World Unit Unit, MarksTruncations () () 3 rewritten s₁ ∧
    (s₃.shared.files ()).map Version.content = ((s₃.locals ()).entry ()).content := by
  have hrun : ∃ s, (World.start Unit .empty).run (machine Unit) created = some s ∧
      ∃ s₁, s.run (machine Unit) (session () (.open ()) (quiet 5 2)) = some s₁ ∧
        (s₁.locals ()).calls.getLast? = some (.open (), some { rc := 0, fh := 3 }) ∧
        ((s₁.locals ()).entry ()).dirty = false ∧ ((s₁.locals ()).entry ()).content = some (Bytes.ascii "x") ∧
        ∃ t, s₁.run (machine Unit) (session () (.write () (Bytes.ascii "ab") 0 3) (quiet 2 2)) = some t ∧
          (t.locals ()).calls.getLast? = some (.write () (Bytes.ascii "ab") 0 3, some { rc := 2 }) ∧
          ∃ s₂, t.run (machine Unit) (session () (.truncate () 1) (quiet 1 2)) = some s₂ ∧
            (s₂.locals ()).calls.getLast? = some (.truncate () 1, some { rc := 0 }) ∧
            ∃ s₃, s₂.run (machine Unit) (session () (.release 1 () 3) (quiet 8 3)) = some s₃ ∧
              (s₃.locals ()).calls.getLast? = some (.release 1 () 3, some { rc := 0 }) := by
    decide +kernel
  obtain ⟨s, -, s₁, hopen, hfh, hdirty, hcontent, t, hwrite, hwrite', s₂, htrunc, htrunc', s₃, hrelease, hout⟩ := hrun
  refine ⟨s₁, s₃, (truncation_iff s s₁ s₂ s₃ () () 3 1 (quiet 5 2) (quiet 8 3) rewritten hopen hfh
    ⟨t, hwrite, hwrite', s₂, htrunc, htrunc', rfl⟩ hrelease hout (by simp [quiet])).mpr ?_⟩
  rw [hdirty, hcontent]
  refine ⟨by decide, .inl ⟨by decide, ?_⟩⟩
  rintro _ ⟨⟩ k hk
  obtain rfl : k = 0 := by
    have hlength : (List.foldl Modification.apply (Bytes.ascii "x") (rewritten.map Prod.fst)).length = 1 := by decide
    rw [hlength] at hk
    simp only [BUFSIZE] at hk
    omega
  rfl

set_option synthInstance.maxSize 1024 in
/-- The file is cut to nothing and released: the server keeps its byte, and the client takes the empty file for
the server's version. -/
theorem not_truncation_cut : ∃ s s₁ s₂ s₃ : World Unit Unit, (World.start Unit .empty).run (machine Unit) created = some s ∧
    s.run (machine Unit) (session () (.open ()) (quiet 5 2)) = some s₁ ∧
      (s₁.locals ()).calls.getLast? = some (.open (), some { rc := 0, fh := 3 }) ∧
        Modified () () 3 [(.ftruncate 0, quiet 1 2)] s₁ s₂ ∧
          s₂.run (machine Unit) (session () (.release 1 () 3) (quiet 2 2)) = some s₃ ∧
            (s₃.locals ()).calls.getLast? = some (.release 1 () 3, some { rc := 0 }) ∧
              ¬ MarksTruncations () () 3 [(.ftruncate 0, quiet 1 2)] s₁ ∧
                (s₃.shared.files ()).map Version.content = some (Bytes.ascii "x") ∧
                  ((s₃.locals ()).entry ()).content = some [] ∧ ((s₃.locals ()).entry ()).dirty = false ∧
                    ((s₃.locals ()).entry ()).last_modified = (s₃.shared.files ()).map fun v => (v.mtim : Bytes) := by
  have hrun : ∃ s, (World.start Unit .empty).run (machine Unit) created = some s ∧
      ∃ s₁, s.run (machine Unit) (session () (.open ()) (quiet 5 2)) = some s₁ ∧
        (s₁.locals ()).calls.getLast? = some (.open (), some { rc := 0, fh := 3 }) ∧
        ∃ s₂, s₁.run (machine Unit) (session () (.ftruncate () 0 3) (quiet 1 2)) = some s₂ ∧
          (s₂.locals ()).calls.getLast? = some (.ftruncate () 0 3, some { rc := 0 }) ∧
          ((s₂.locals ()).entry ()).content ≠ ((s₁.locals ()).entry ()).content ∧
          ((s₂.locals ()).entry ()).dirty = false ∧
          ∃ s₃, s₂.run (machine Unit) (session () (.release 1 () 3) (quiet 2 2)) = some s₃ ∧
            (s₃.locals ()).calls.getLast? = some (.release 1 () 3, some { rc := 0 }) ∧
              (s₃.shared.files ()).map Version.content = some (Bytes.ascii "x") ∧
                ((s₃.locals ()).entry ()).content = some [] ∧ ((s₃.locals ()).entry ()).dirty = false ∧
                  ((s₃.locals ()).entry ()).last_modified = (s₃.shared.files ()).map fun v => (v.mtim : Bytes) := by
    decide +kernel
  obtain ⟨s, hs, s₁, hopen, hfh, s₂, htrunc, hcut, hchanged, hclean, s₃, hrelease, hout, hend⟩ := hrun
  refine ⟨s, s₁, s₂, s₃, hs, hopen, hfh, ⟨s₂, htrunc, hcut, rfl⟩, hrelease, hout, fun hmarks => ?_, hend⟩
  have := (hmarks s₂ htrunc).1 rfl hchanged
  rw [hclean] at this
  cases this

end AFSv1.Client
