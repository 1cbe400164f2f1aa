import AFSv1.Client.Calls

/-! What `afs_open` reports of its local open. `fi->fh` is unsigned, so the test for a negative descriptor never fires
at any of the three places where the cache file is opened. -/
namespace AFSv1.Client
open Foundations Tables

variable {Path : Type} [DecidableEq Path]

/-- The results of the local opens among the calls. -/
def localOpens : (c : Call Path) → c.Answer → List (Except Errno ℕ)
  | .disk (.openFile _), r => [r]
  | _, _ => []

/-- The calls of a client, with a record of its local opens beside the server. -/
def recordOpens (env : Env) (c : Call Path) (l : Local Path) (G : Remote Path × List (Except Errno ℕ)) :
    Option (c.Answer × Local Path × Remote Path × List (Except Errno ℕ)) :=
  (c.exec env l G.1).map fun r => (r.1, r.2.1, r.2.2, G.2 ++ localOpens c r.1)

/-- The handle is a descriptor of the cache file. -/
def Usable (path : Path) (fh : ℕ) (l : Local Path) : Prop :=
  ∃ i, l.file fh = some (path, i) ∧ (l.entry path).cache = some i

/-- How an `afs_open` ends, with its local opens. -/
inductive OpenEnds (path : Path) (out : Outcome) (l : Local Path) : List (Except Errno ℕ) → Prop
  | refused (hrc : out.rc < 0) : OpenEnds path out l []
  | opened (fd : ℕ) (hrc : out.rc = 0) (husable : Usable path out.fh l) : OpenEnds path out l [.ok fd]
  | unnoticed (e : Errno) (hrc : out.rc = 0) (hbad : out.fh = badHandle) : OpenEnds path out l [.error e]

def openLogic (Path : Type) [DecidableEq Path] : Prog.Logic (Call Path) Call.Answer Env (Local Path)
    (Remote Path × List (Except Errno ℕ)) where
  exec := recordOpens
  rely _ _ := Eq
  rely_refl _ _ _ := rfl
  rely_trans _ _ _ _ _ := .trans
  inv_call _ _ _ := id

section Rules

variable {α : Type} {post : α → Local Path → Remote Path × List (Except Errno ℕ) → Prop} {path : Path} {l : Local Path}
  {g : Remote Path}

lemma open_ret {a : α} {G : Remote Path × List (Except Errno ℕ)} (h : post a l G) :
    Prog.Safe (openLogic Path) post (.ret a) l G := fun _ hG _ => hG ▸ h

/-- A call that opens no cache file. -/
lemma open_call {c : Call Path} {k : c.Answer → Program Path α} (hplain : ∀ r, localOpens c r = [])
    (h : ∀ env r l' g', c.exec env l g = some (r, l', g') → (k r).Safe (openLogic Path) post l' (g', [])) :
    Prog.Safe (openLogic Path) post (.call c k) l (g, []) := by
  rintro _ rfl -
  refine ⟨trivial, fun env r l' G' _ hexec => ⟨trivial, ?_⟩⟩
  obtain ⟨x, hcall, hx⟩ := Option.map_eq_some_iff.mp hexec
  cases hx
  rw [hplain]
  exact h env x.1 x.2.1 x.2.2 hcall

lemma open_openHandle : (openHandle path).Safe (openLogic Path) (fun out l' G => OpenEnds path out l' G.2) l (g, []) := by
  rw [openHandle_eq]
  rintro _ rfl -
  refine ⟨trivial, fun env r l' G' _ hexec => ⟨trivial, ?_⟩⟩
  obtain ⟨x, hcall, hx⟩ := Option.map_eq_some_iff.mp hexec
  cases hx
  obtain ⟨⟨r, l'⟩, hopen, rfl⟩ := Option.map_eq_some_iff.mp hcall
  apply open_ret
  rcases LocalCall.exec_openFile hopen with ⟨i, fd, -, hcache, hlt, -, rfl, rfl⟩ | ⟨e, rfl, rfl, -⟩
  · refine .opened fd rfl ⟨i, ?_, hcache⟩
    simp only [returned, fhOf_natCast hlt]
    rw [Local.file_of_lt _ hlt]
    exact Function.update_self ..
  · exact .unnoticed e rfl rfl

lemma open_writeChunks (ofile : Option (ℕ × ℕ)) (msgs : List MetaContent) :
    (writeChunks path ofile msgs).Safe (openLogic Path) (fun _ _ G => G.2 = []) l (g, []) := by
  induction msgs generalizing ofile l g with
  | nil => exact open_ret rfl
  | cons msg msgs ih =>
    cases ofile with
    | none => exact ih none
    | some f => exact open_call (fun _ => rfl) fun env r l' g' _ => ih _

lemma open_download : (download path).Safe (openLogic Path) (fun out l' G => OpenEnds path out l' G.2) l (g, []) := by
  refine open_call (fun _ => rfl) fun env r l₁ g₁ _ => ?_
  obtain ⟨msgs, ok⟩ := r
  cases msgs with
  | nil => exact open_ret (.refused (by decide))
  | cons msg msgs =>
    dsimp only [Prog.bind]
    by_cases hexists : msg.file_exists = true
    · rw [if_pos hexists]
      refine open_call (fun _ => rfl) fun env ofile l₂ g₂ _ => ?_
      change Prog.Safe _ _ (writeChunks path _ (msg :: msgs) >>= _) _ _
      refine Prog.Safe.bind trivial ((open_writeChunks _ _).mono ?_)
      rintro - l₃ ⟨g₃, opens⟩ - rfl
      cases ok with
      | false => exact open_ret (.refused (by decide))
      | true =>
        refine open_call (fun _ => rfl) fun env _ l₄ g₄ _ => ?_
        exact open_call (fun _ => rfl) fun env _ l₅ g₅ _ => open_openHandle
    · rw [if_neg hexists]
      refine open_call (fun _ => rfl) fun env _ l₂ g₂ _ => ?_
      refine open_call (fun _ => rfl) fun env fd l₃ g₃ _ => ?_
      refine open_call (fun _ => rfl) fun env _ l₄ g₄ _ => ?_
      exact open_call (fun _ => rfl) fun env _ l₅ g₅ _ => open_openHandle

theorem open_afsOpen : (afsOpen path).Safe (openLogic Path) (fun out l' G => OpenEnds path out l' G.2) l (g, []) := by
  refine open_call (fun _ => rfl) fun env count l₁ g₁ _ => ?_
  dsimp only [Prog.bind]
  split_ifs
  · refine open_call (fun _ => rfl) fun env last l₂ g₂ _ => ?_
    dsimp only [Prog.bind]
    split_ifs
    · exact open_openHandle
    · refine open_call (fun _ => rfl) fun env stat_content l₃ g₃ _ => ?_
      refine open_call (fun _ => rfl) fun env last l₄ g₄ _ => ?_
      dsimp only [Prog.bind]
      split_ifs
      · exact open_openHandle
      · refine open_call (fun _ => rfl) fun env _ l₅ g₅ _ => ?_
        exact open_call (fun _ => rfl) fun env _ l₆ g₆ _ => open_download
  · exact open_download

end Rules

/-- A usable handle for 0, and `-errno` for every local open that fails. -/
def OpenReports (path : Path) (out : Outcome) (l : Local Path) (opens : List (Except Errno ℕ)) : Prop :=
  (out.rc = 0 → Usable path out.fh l) ∧ ∀ e, .error e ∈ opens → out.rc = -e.number

/-- An open reports what happened exactly if its local open, where it comes to one, succeeds. -/
theorem openReports_iff {path : Path} {envs : List Env} {l l' : Local Path} {g g' : Remote Path} {out : Outcome}
    {opens : List (Except Errno ℕ)}
    (h : (afsOpen path).eval recordOpens envs l (g, []) = some (out, l', g', opens)) :
    OpenReports path out l' opens ↔ ∀ e, .error e ∉ opens := by
  have hends : OpenEnds path out l' opens := (open_afsOpen.eval trivial (fun _ _ _ _ _ => trivial) h).2
  cases hends with
  | refused hrc =>
    refine iff_of_true ⟨fun hzero => ?_, by simp⟩ (by simp)
    omega
  | opened fd hrc husable => exact iff_of_true ⟨fun _ => husable, by simp⟩ (by simp)
  | unnoticed e hrc hbad =>
    refine iff_of_false (fun hreports => ?_) (by simp)
    obtain ⟨i, hfile, -⟩ := hreports.1 hrc
    rw [hbad, Local.file_badHandle] at hfile
    cases hfile

/-- The first open of a file that the server does not have. -/
def firstOpen (fault : Option Errno) : List Env := List.replicate 6 ({} : Env) ++ [({ fault } : Env)]

theorem openReports_iff_created : ∃ out l' g' opens, (afsOpen ()).eval recordOpens (firstOpen none) {} (Remote.empty, []) =
    some (out, l', g', opens) ∧ OpenReports () out l' opens := by
  have heval : ((afsOpen ()).eval recordOpens (firstOpen none) {} (Remote.empty, [])).map
      (fun x => x.2.2.2.map Except.isOk) = some [true] := by
    decide +kernel
  obtain ⟨⟨out, l', g', opens⟩, hrun, hopens⟩ := Option.map_eq_some_iff.mp heval
  refine ⟨out, l', g', opens, hrun, (openReports_iff hrun).mpr fun e he => ?_⟩
  have hfalse : Except.isOk (.error e : Except Errno ℕ) ∈ opens.map Except.isOk := List.mem_map_of_mem he
  rw [show opens.map Except.isOk = [true] from hopens] at hfalse
  simp [Except.isOk, Except.toBool] at hfalse

/-- The open of the new cache file fails, and `afs_open` returns 0 with the handle -1. -/
theorem not_openReports_denied : ∃ out l' g' opens, (afsOpen ()).eval recordOpens (firstOpen (some .EACCES)) {}
    (Remote.empty, []) = some (out, l', g', opens) ∧ out.rc = 0 ∧ l'.file out.fh = none ∧ ¬ OpenReports () out l' opens := by
  have heval : ((afsOpen ()).eval recordOpens (firstOpen (some .EACCES)) {} (Remote.empty, [])).map
      (fun x => (x.1.rc, x.2.1.file x.1.fh)) = some (0, none) := by
    decide +kernel
  obtain ⟨⟨out, l', g', opens⟩, hrun, hresult⟩ := Option.map_eq_some_iff.mp heval
  obtain ⟨hrc, hfile⟩ := Prod.mk.inj hresult
  refine ⟨out, l', g', opens, hrun, hrc, hfile, fun hreports => ?_⟩
  obtain ⟨i, hi, -⟩ := hreports.1 hrc
  rw [show l'.file out.fh = none from hfile] at hi
  cases hi

end AFSv1.Client
