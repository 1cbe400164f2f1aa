import AFSv1.Client.Threads

/-! When a release ends the client. It exits if its path is flagged and there is no cache file to upload; `afs_open`
removes the cache file before it knows whether it will get another one. -/
namespace AFSv1.Client
open Foundations Tables

variable {A Path : Type} [DecidableEq A] [DecidableEq Path]

/-- A flagged path has a cache file. -/
def Backed (l : Local Path) : Prop := ∀ path, (l.entry path).dirty = true → (l.entry path).cache ≠ none

/-- A release that has found the flag finds the cache file too, and is not about to exit. -/
def Uploadable (l : Local Path) : Call Path → Prop
  | .disk .exit => False
  | .disk (.ifstream path) => (l.entry path).cache ≠ none
  | _ => True

/-- Flags are set where there is a cache file, unflagged files are removed, and the cache file opens if it is there. -/
def Mindful (env : Env) (l : Local Path) : Call Path → Prop
  | .disk (.isDirtySet path true) => (l.entry path).cache ≠ none
  | .disk (.unlink path) => env.fault = none → (l.entry path).dirty = false
  | .disk (.ifstream _) => env.fault = none
  | _ => True

/-! ### One process among others -/

/-- Between its finding the flag and its opening the file, no other process takes the file from a release. -/
def exitLogic (Path : Type) [DecidableEq Path] : Prog.Logic (Call Path) Call.Answer Env (Process Path) (Shelf Path) where
  exec := (processes Path).exec
  ok env c _ G := Mindful env G.1 c
  rely next _ G G' := (Backed G.1 → Backed G'.1) ∧ ∀ c, next = some c → Uploadable G.1 c → Uploadable G'.1 c
  inv _ _ G := Backed G.1
  pre c _ G := Uploadable G.1 c
  rely_refl _ _ _ := ⟨id, fun _ _ => id⟩
  rely_trans _ _ _ _ _ h h' := ⟨h'.1 ∘ h.1, fun c hc => h'.2 c hc ∘ h.2 c hc⟩
  inv_call _ _ _ := id

section Rules

variable {path : Path} {t t' : Process Path} {G G' : Shelf Path} {env : Env}

lemma processes_exec {c : Call Path} {r : c.Answer} (h : (processes Path).exec env c t G = some (r, t', G')) :
    c.exec env G.1 G.2 = some (r, G'.1, G'.2) ∧ t' = t := by
  obtain ⟨⟨r₁, G₁⟩, hexec, hx⟩ := Option.map_eq_some_iff.mp h
  cases hx
  exact ⟨hexec, rfl⟩

lemma Backed.exec_local {c : LocalCall Path} {l l' : Local Path} {r : c.Answer} (h : Backed l)
    (hmindful : Mindful env l (.disk c)) (hexec : c.exec env l = some (r, l')) : Backed l' := by
  by_cases hunlink : ∃ q, c = .unlink q
  · obtain ⟨q, rfl⟩ := hunlink
    rcases LocalCall.exec_unlink hexec with ⟨hfault, -, rfl⟩ | ⟨e, -, rfl, -⟩
    · intro path hdirty
      by_cases hq : path = q
      · subst hq
        rw [Local.modify_entry_self] at hdirty
        have hclean : (l.entry path).dirty = false := hmindful hfault
        have hflagged : (l.entry path).dirty = true := hdirty
        rw [hclean] at hflagged
        cases hflagged
      · rw [Local.modify_entry_ne _ _ hq] at hdirty ⊢
        exact h path hdirty
    · exact h
  · intro path hdirty
    rcases LocalCall.exec_changes hexec with hentry | ⟨q, f, hf, hentry⟩
    · rw [hentry] at hdirty ⊢
      exact h path hdirty
    · rw [hentry] at hdirty ⊢
      by_cases hq : path = q
      · subst hq
        rw [Local.modify_entry_self] at hdirty ⊢
        cases hf with
        | setDirty _ d =>
          cases d with
          | false => simp [Entry.dirty] at hdirty
          | true => exact hmindful
        | eraseDirty => simp [Entry.dirty] at hdirty
        | create c hc =>
          rw [Entry.openTrunc_cache]
          simp
        | remove => exact absurd ⟨_, rfl⟩ hunlink
        | _ => exact h path hdirty
      · rw [Local.modify_entry_ne _ _ hq] at hdirty ⊢
        exact h path hdirty

/-- A cache file that is there stays there unless it is unlinked. -/
lemma cache_ne_none_of_exec {c : LocalCall Path} {l l' : Local Path} {r : c.Answer} (h : (l.entry path).cache ≠ none)
    (hexec : c.exec env l = some (r, l')) (hkeep : c = .unlink path → env.fault ≠ none) :
    (l'.entry path).cache ≠ none := by
  by_cases hunlink : c = .unlink path
  · subst hunlink
    rcases LocalCall.exec_unlink hexec with ⟨hfault, -, -⟩ | ⟨e, -, rfl, -⟩
    · exact absurd hfault (hkeep rfl)
    · exact h
  · rcases LocalCall.exec_changes hexec with hentry | ⟨q, f, hf, hentry⟩
    · rwa [hentry]
    · rw [hentry]
      by_cases hq : path = q
      · subst hq
        rw [Local.modify_entry_self]
        cases hf with
        | create c hc =>
          rw [Entry.openTrunc_cache]
          nofun
        | remove => exact absurd rfl hunlink
        | _ => exact h
      · rwa [Local.modify_entry_ne _ _ hq]

lemma Backed.exec {c : Call Path} {r : c.Answer} (h : Backed G.1) (hmindful : Mindful env G.1 c)
    (hexec : (processes Path).exec env c t G = some (r, t', G')) : Backed G'.1 := by
  obtain ⟨hcall, -⟩ := processes_exec hexec
  cases c with
  | disk c =>
    obtain ⟨⟨r₁, l⟩, hlocal, hx⟩ := Option.map_eq_some_iff.mp hcall
    have hl : l = G'.1 := congrArg (fun x => x.2.1) hx
    exact hl ▸ h.exec_local hmindful hlocal
  | rpc c =>
    obtain ⟨⟨r₁, g⟩, -, hx⟩ := Option.map_eq_some_iff.mp hcall
    have hl : G.1 = G'.1 := congrArg (fun x => x.2.1) hx
    exact hl ▸ h

/-- What a release needs is still there after the call of another process. -/
lemma Uploadable.exec {c c' : Call Path} {r : c.Answer} (h : Uploadable G.1 c')
    (hexec : (processes Path).exec env c t G = some (r, t', G'))
    (hkeep : ∀ path, c = .disk (.unlink path) → env.fault = none → c' ≠ .disk (.ifstream path)) : Uploadable G'.1 c' := by
  obtain ⟨hcall, -⟩ := processes_exec hexec
  cases c' with
  | rpc c' => trivial
  | disk c' =>
    cases c' with
    | exit => exact h
    | ifstream path =>
      cases c with
      | disk c =>
        obtain ⟨⟨r₁, l⟩, hlocal, hx⟩ := Option.map_eq_some_iff.mp hcall
        have hl : l = G'.1 := congrArg (fun x => x.2.1) hx
        refine hl ▸ cache_ne_none_of_exec h hlocal fun hc hfault => hkeep path ?_ hfault rfl
        rw [hc]
      | rpc c =>
        obtain ⟨⟨r₁, g⟩, -, hx⟩ := Option.map_eq_some_iff.mp hcall
        have hl : G.1 = G'.1 := congrArg (fun x => x.2.1) hx
        exact hl ▸ h
    | _ => trivial

end Rules

/-! ### The operations -/

/-- All calls but the two that matter. -/
def Quiet : Call Path → Prop
  | .disk .exit | .disk (.ifstream _) => False
  | _ => True

section Programs

variable {α : Type} {path : Path} {t : Process Path} {G : Shelf Path}

omit [DecidableEq Path] in
lemma Quiet.uploadable {c : Call Path} {l : Local Path} (h : Quiet c) : Uploadable l c := by
  unfold Quiet at h
  unfold Uploadable
  split <;> simp_all

lemma exit_calls {p : Program Path α} (h : p.Calls Quiet) (hbacked : Backed G.1) :
    p.Safe (exitLogic Path) (fun _ _ G' => Backed G'.1) t G := by
  refine h.safe ?_ (fun _ _ _ => id) (fun _ _ _ hc _ => hc.uploadable) ?_ hbacked
  · exact fun _ _ _ _ hbacked hrely => hrely.1 hbacked
  · exact fun _ _ _ _ _ _ _ _ hbacked hok hexec => hbacked.exec hok hexec

omit [DecidableEq Path] in
lemma quiet_upload (i fuel pos : ℕ) (chunks : List Bytes) : (upload path i fuel pos chunks).Calls Quiet := by
  refine (upload_calls path i fuel pos chunks).mono fun c hc => ?_
  obtain rfl | ⟨pos, rfl⟩ | rfl := hc <;> trivial

lemma quiet_openHandle : (openHandle path).Calls Quiet :=
  (openHandle_calls path).mono fun _ hc => hc ▸ trivial

lemma quiet_download : (download path).Calls Quiet := by
  refine calls_rpc trivial fun r => ?_
  obtain ⟨msgs, ok⟩ := r
  cases msgs with
  | nil => trivial
  | cons msg msgs =>
    dsimp only
    by_cases hexists : msg.file_exists = true
    · rw [if_pos hexists]
      refine calls_disk trivial fun ofile => ?_
      refine Prog.Calls.bind ((writeChunks_calls path _ _).mono fun c hc => ?_) fun _ => ?_
      · obtain ⟨i, pos, b, rfl⟩ := hc
        trivial
      · cases ok with
        | true => exact calls_disk trivial fun _ => calls_disk trivial fun _ => quiet_openHandle
        | false => trivial
    · rw [if_neg hexists]
      exact calls_disk trivial fun _ => calls_disk trivial fun _ => calls_disk trivial fun _ => calls_disk trivial fun _ =>
        quiet_openHandle

lemma quiet_afsOpen : (afsOpen path).Calls Quiet := by
  refine calls_disk trivial fun count => ?_
  split_ifs
  · refine calls_disk trivial fun last => ?_
    split_ifs
    · exact quiet_openHandle
    · refine calls_rpc trivial fun stat_content => calls_disk trivial fun last => ?_
      split_ifs
      · exact quiet_openHandle
      · exact calls_disk trivial fun _ => calls_disk trivial fun _ => quiet_download
  · exact quiet_download

omit [DecidableEq Path] in
lemma quiet_afsMknod : (afsMknod path).Calls Quiet := by
  refine calls_rpc trivial fun stat_content => ?_
  split_ifs
  · trivial
  · refine calls_disk trivial fun r => ?_
    cases r with
    | error e => trivial
    | ok fd =>
      refine calls_disk trivial fun r => ?_
      cases r with
      | error e => trivial
      | ok _ =>
        refine calls_rpc trivial fun sent => calls_rpc trivial fun r => ?_
        obtain ⟨status, reply⟩ := r
        cases status with
        | OK => exact calls_disk trivial fun _ => trivial
        | _ => trivial

/-- A call at the head of a program. -/
lemma exit_call {c : Call Path} {k : c.Answer → Program Path α} {post : α → Process Path → Shelf Path → Prop}
    (hpre : ∀ G₁ : Shelf Path, (Uploadable G.1 c → Uploadable G₁.1 c) → Uploadable G₁.1 c)
    (h : ∀ env r t' (G₁ G' : Shelf Path), Uploadable G₁.1 c → Mindful env G₁.1 c → c.exec env G₁.1 G₁.2 = some (r, G'.1, G'.2) →
      Backed G'.1 → (k r).Safe (exitLogic Path) post t' G') : Prog.Safe (exitLogic Path) post (.call c k) t G := by
  intro G₁ hrely hbacked
  have hready : Uploadable G₁.1 c := hpre G₁ (hrely.2 c rfl)
  refine ⟨hready, fun env r t' G' hmindful hexec => ?_⟩
  have hbacked' : Backed G'.1 := hbacked.exec hmindful hexec
  exact ⟨hbacked', h env r t' G₁ G' hready hmindful (processes_exec hexec).1 hbacked'⟩

/-- A release that finds the flag finds the file behind it. -/
lemma exit_afsRelease (fuel fh : ℕ) :
    (afsRelease fuel path fh).Safe (exitLogic Path) (fun _ _ G' => Backed G'.1) t G := by
  refine exit_call (fun _ _ => trivial) fun env₁ r₁ t₁ _ G₁ _ _ _ _ => ?_
  refine exit_call (fun _ _ => trivial) fun env₂ dirty t₂ G₀ G₂ _ _ hget hbacked₂ => ?_
  have hdirty : dirty = (G₂.1.entry path).dirty := by
    have hx := Option.some.inj hget
    have hl : G₀.1 = G₂.1 := congrArg (fun x => x.2.1) hx
    rw [← hl]
    exact (congrArg Prod.fst hx).symm
  cases hd : dirty with
  | false => exact fun _ hrely _ => hrely.1 hbacked₂
  | true =>
    have hcached : (G₂.1.entry path).cache ≠ none := hbacked₂ path (by rw [← hdirty, hd])
    refine exit_call (fun G₃ hkeep => hkeep hcached) fun env₃ i t₃ G₃ G₄ hready hfault hopen hbacked₄ => ?_
    obtain ⟨⟨r, l⟩, hlocal, hx⟩ := Option.map_eq_some_iff.mp hopen
    have hr : r = i := congrArg Prod.fst hx
    obtain ⟨-, ⟨-, hcache⟩ | ⟨-, hfault'⟩⟩ := LocalCall.exec_ifstream hlocal
    · obtain ⟨j, hj⟩ := Option.ne_none_iff_exists'.mp hready
      obtain rfl : some j = i := by rw [← hj, ← hcache, hr]
      change Prog.Safe _ _ (upload path j fuel 0 [] >>= _) _ _
      refine exit_calls (Prog.Calls.bind (quiet_upload _ _ _ _) fun x => ?_) hbacked₄
      obtain ⟨chunks, broken⟩ := x
      refine calls_rpc trivial fun reply => ?_
      obtain ⟨status, reply⟩ := reply
      cases status with
      | OK => exact calls_disk trivial fun _ => calls_disk trivial fun _ => trivial
      | _ => trivial
    · exact absurd hfault hfault'

lemma exit_operation (op : Operation Path) (hbacked : Backed G.1) :
    op.program.Safe (exitLogic Path) (fun _ _ G' => Backed G'.1) t G := by
  cases op with
  | «open» path => exact exit_calls quiet_afsOpen hbacked
  | release fuel path fh => exact exit_afsRelease fuel fh
  | read path fh size offset => exact exit_calls (calls_disk trivial fun r => by cases r <;> trivial) hbacked
  | write path buf offset fh =>
    exact exit_calls (calls_disk trivial fun _ => calls_disk trivial fun r => by cases r <;> trivial) hbacked
  | fsync path fh => exact exit_calls (calls_disk trivial fun _ => trivial) hbacked
  | mknod path => exact exit_calls quiet_afsMknod hbacked
  | unlink path =>
    exact exit_calls (calls_disk trivial fun _ => calls_disk trivial fun _ => calls_disk trivial fun _ =>
      calls_rpc trivial fun _ => trivial) hbacked
  | ftruncate path offset fh => exact exit_calls (calls_disk trivial fun _ => trivial) hbacked
  | truncate path newsize => exact exit_calls (calls_disk trivial fun _ => trivial) hbacked

end Programs

/-! ### Runs -/

omit [DecidableEq A] in
lemma exit_obligations : System.Obligations (processes Path) (fun _ : A => exitLogic Path) (fun _ _ _ _ G => Backed G.1)
    (fun _ _ _ _ => True) fun _ _ _ _ => True where
  exec _ := rfl
  stable _ _ _ _ _ hbacked hrely := hrely.1 hbacked
  start _ op _ _ _ hbacked _ _ := ⟨hbacked, exit_operation op hbacked⟩
  finish _ _ _ _ _ hbacked _ := hbacked
  crash _ _ _ _ _ hbacked _ := hbacked

/-- The call removes no cache file that a release is about to open. -/
def Spares (env : Env) (s : Desk A Path) : Call Path → Prop
  | .disk (.unlink path) => env.fault = none → ∀ b, s.next b ≠ some (.disk (.ifstream path))
  | _ => True

def Guarded (s : Desk A Path) : AgentEvent A (Operation Path) Env → Prop
  | .call a env => ∀ c, s.next a = some c → Mindful env s.shared.1 c ∧ Spares env s c
  | _ => True

/-- What a run of the processes reaches, all its steps meeting a condition, while the server may change at any time. -/
inductive Desk.Reaches (P : Desk A Path → AgentEvent A (Operation Path) Env → Prop) (s : Desk A Path) : Desk A Path → Prop
  | start : Desk.Reaches P s s
  | step {t t' : Desk A Path} (e : AgentEvent A (Operation Path) Env) (h : Desk.Reaches P s t) (he : P t e)
      (hstep : t.step (processes Path) e = some t') : Desk.Reaches P s t'
  | server {t : Desk A Path} (g : Remote Path) (h : Desk.Reaches P s t) : Desk.Reaches P s { t with shared := (t.shared.1, g) }

/-- Whenever a release has found its path flagged, the cache file is there and opens. -/
def NeverExits (s : Desk A Path) : Prop := ∀ a c, s.next a = some c → Uploadable s.shared.1 c

variable {s t : Desk A Path}

/-- The invariant of a run. -/
def Safeguarded (s : Desk A Path) : Prop := s.Sound (fun _ => exitLogic Path) fun _ _ _ _ G => Backed G.1

omit [DecidableEq A] in
lemma Safeguarded.neverExits (h : Safeguarded s) : NeverExits s := by
  intro a c hnext
  obtain ⟨hbacked, hsafe⟩ := h a
  obtain ⟨⟨op, p⟩, hrun, hp⟩ := Option.bind_eq_some_iff.mp hnext
  cases p with
  | ret r => cases hp
  | call c' k =>
    cases hp
    exact (hsafe op _ hrun s.shared ((exitLogic Path).rely_refl _ _ _) hbacked).1

lemma Safeguarded.step (h : Safeguarded s) {e : AgentEvent A (Operation Path) Env} (he : Guarded s e)
    (hs : s.step (processes Path) e = some t) : Safeguarded t := by
  refine System.Sound.step h exit_obligations ?_ hs
  cases e with
  | call a env =>
    intro op c k hrun
    obtain ⟨hmindful, hspares⟩ := he c (by simp [System.next, hrun])
    refine ⟨hmindful, fun r l G hexec b hb => ⟨fun hbacked => hbacked.exec hmindful hexec, fun c' hc' hready => ?_⟩⟩
    refine hready.exec hexec fun path hpath hfault heq => ?_
    subst hpath
    exact hspares hfault b (hc'.trans (congrArg some heq))
  | _ => trivial

omit [DecidableEq A] in
lemma Safeguarded.server (h : Safeguarded s) (g : Remote Path) : Safeguarded { s with shared := (s.shared.1, g) } := by
  intro a
  obtain ⟨hbacked, hsafe⟩ := h a
  exact ⟨hbacked, fun op p hrun => (hsafe op p hrun).rely ⟨id, fun _ _ => id⟩⟩

/-- If every step of a run is guarded, no release exits. -/
theorem release_neverExits (s : Desk A Path) (hidle : s.Idle) (hbacked : Backed s.shared.1) :
    ∀ t, Desk.Reaches Guarded s t → NeverExits t := by
  have hstart : Safeguarded s := fun a => ⟨hbacked, fun op p hrun => by simp [hidle a] at hrun⟩
  intro t hrun
  have ht : Safeguarded t := by
    induction hrun with
    | start => exact hstart
    | step e h he hstep ih => exact ih.step he hstep
    | server g h ih => exact ih.server g
  exact ht.neverExits

lemma Desk.Reaches.run {P : Desk A Path → AgentEvent A (Operation Path) Env → Prop}
    {es : List (AgentEvent A (Operation Path) Env)} (h : Desk.Reaches P s t) {t' : Desk A Path}
    (hes : t.Along (processes Path) P es) (hrun : t.run (processes Path) es = some t') : Desk.Reaches P s t' := by
  induction es generalizing t with
  | nil =>
    cases hrun
    exact h
  | cons e es ih =>
    obtain ⟨t₁, hstep, hrest⟩ := Option.bind_eq_some_iff.mp hrun
    exact ih (.step e h hes.1 hstep) (hes.2 t₁ hstep) hrest

instance (env : Env) (l : Local Path) (c : Call Path) : Decidable (Mindful env l c) := by
  induction c using Call.casesOn with
  | rpc c => exact isTrue trivial
  | disk c =>
    induction c using LocalCall.casesOn with
    | isDirtySet path state => induction state using Bool.casesOn <;> unfold Mindful <;> infer_instance
    | _ => unfold Mindful; infer_instance

instance [Fintype A] (env : Env) (s : Desk A Path) (c : Call Path) : Decidable (Spares env s c) := by
  induction c using Call.casesOn with
  | rpc c => exact isTrue trivial
  | disk c => induction c using LocalCall.casesOn <;> unfold Spares <;> infer_instance

instance [Fintype A] (s : Desk A Path) (e : AgentEvent A (Operation Path) Env) : Decidable (Guarded s e) := by
  induction e using AgentEvent.casesOn <;> unfold Guarded <;> infer_instance

/-- The newly mounted client. -/
def mounted : Desk Bool Unit := .start ({}, .empty) fun _ => []

/-- A process publishes a file and opens it again. -/
def published : List (AgentEvent Bool (Operation Unit) Env) :=
  session true (.open ()) (quiet 7 1) ++ session true (.write () (Bytes.ascii "x") 0 3) (quiet 2 1) ++
    session true (.release 1 () 3) (quiet 8 1) ++ session true (.open ()) (quiet 5 2)

/-- It writes to the file and begins to release it. -/
def rewriting : List (AgentEvent Bool (Operation Unit) Env) :=
  session true (.write () (Bytes.ascii "y") 0 3) (quiet 2 2) ++ .start true (.release 1 () 3) :: (quiet 3 2).map (.call true)

theorem release_neverExits_alone : ∃ t, mounted.run (processes Unit) (published ++ rewriting) = some t ∧ NeverExits t := by
  have hrun : ∃ t : Desk Bool Unit, mounted.run (processes Unit) (published ++ rewriting) = some t ∧
      t.next true = some (.disk (.ifstreamRead () 0 0)) := by
    decide +kernel
  obtain ⟨t, ht, -⟩ := hrun
  exact ⟨t, ht, release_neverExits mounted (fun _ => rfl) (fun _ hdirty => nomatch hdirty) t
    (Desk.Reaches.run .start (by decide +kernel) ht)⟩

/-- Processes that open, write and release files. No local call fails. -/
def Ordinary (_ : Desk A Path) : AgentEvent A (Operation Path) Env → Prop
  | .start _ (.open _) | .start _ (.write _ _ _ _) | .start _ (.release _ _ _) => True
  | .call _ env => env.fault = none
  | .finish _ => True
  | _ => False

instance (s : Desk A Path) (e : AgentEvent A (Operation Path) Env) : Decidable (Ordinary s e) := by
  induction e using AgentEvent.casesOn with
  | start a op => induction op using Operation.casesOn <;> unfold Ordinary <;> infer_instance
  | _ => unfold Ordinary; infer_instance

/-- A process that makes its next call. -/
lemma Desk.Reaches.disk {a : A} {op : Operation Path} {c : LocalCall Path} {k : c.Answer → Program Path Outcome}
    {r : c.Answer} {l : Local Path} (h : s.Reaches Ordinary t) (hrun : t.running a = some (op, .call (.disk c) k))
    (hexec : c.exec {} t.shared.1 = some (r, l)) :
    ∃ t', s.Reaches Ordinary t' ∧ t'.running a = some (op, k r) ∧ t'.shared.1 = l := by
  have hcall : (processes Path).exec {} (.disk c) (t.locals a) t.shared = some (r, t.locals a, l, t.shared.2) := by
    simp only [processes, Call.exec, hexec, Option.map_some]
  have hstep : t.step (processes Path) (.call a {}) =
      some { t.become a (t.locals a) (some (op, k r)) with shared := (l, t.shared.2) } := by
    simp only [System.step, hrun, hcall, Option.map_some]
  have hfault : Ordinary t (.call a {}) := rfl
  exact ⟨_, .step _ h hfault hstep, Function.update_self .., rfl⟩

/-- A release of a flagged path without a cache file takes down the client. -/
theorem exits_of_missing {a : A} {path : Path} {fh : ℕ} (hidle : t.running a = none)
    (hhandle : (path, fh) ∈ (t.locals a).handles) (hflag : (t.shared.1.entry path).dirty = true)
    (hmissing : (t.shared.1.entry path).cache = none) :
    ∃ t', t.Reaches Ordinary t' ∧ t'.next a = some (.disk .exit) := by
  obtain ⟨p, hbegin⟩ : ∃ p, Process.begin (.release 0 path fh) (t.locals a) = some p := ⟨_, if_pos hhandle⟩
  have hstart : t.step (processes Path) (.start a (.release 0 path fh)) =
      some (t.become a p (some (.release 0 path fh, afsRelease 0 path fh))) := by
    simp only [System.step, hidle, processes, hbegin, Option.map_some, Operation.program]
  have hrun : (t.become a p (some (.release 0 path fh, afsRelease 0 path fh))).running a =
      some (.release 0 path fh, afsRelease 0 path fh) := Function.update_self ..
  have hclose : ∃ r l, (LocalCall.close fh).exec {} t.shared.1 = some (r, l) ∧ l.entry = t.shared.1.entry := by
    simp only [LocalCall.exec]
    split_ifs <;> exact ⟨_, _, rfl, rfl⟩
  obtain ⟨r, l, hclose, hentry⟩ := hclose
  have hget : (LocalCall.isDirtyGet path).exec {} l = some (true, l) := by simp [LocalCall.exec, hentry, hflag]
  have hopen : (LocalCall.ifstream path).exec {} l = some (none, l) := by
    simp [LocalCall.exec, onCache, hentry, hmissing]
  obtain ⟨t₁, hreach₁, hrun₁, hl₁⟩ := (Desk.Reaches.start.step _ trivial hstart).disk hrun hclose
  obtain ⟨t₂, hreach₂, hrun₂, hl₂⟩ := hreach₁.disk hrun₁ (hl₁ ▸ hget)
  obtain ⟨t₃, hreach₃, hrun₃, -⟩ := hreach₂.disk hrun₂ (hl₂.trans hl₁ ▸ hopen)
  refine ⟨t₃, hreach₃, ?_⟩
  rw [System.next, hrun₃]
  rfl

/-- Another process opens the file while the server does not answer: the cache file is gone, and the open fails. -/
def refused : List (AgentEvent Bool (Operation Unit) Env) :=
  session false (.open ()) (quiet 2 2 ++ ({ outage := .before } : Env) :: quiet 3 2 ++ [({ delivered := some 0 } : Env)])

/-- The first process has written to the file through its handle, and its release takes down the client. -/
theorem not_neverExits_refused : ∃ t, mounted.Reaches Ordinary t ∧
    (.open (), ({ rc := - Errno.EIO.number } : Outcome)) ∈ (t.locals false).calls ∧ t.next true = some (.disk .exit) ∧
      ¬ NeverExits t := by
  have hrun : ∃ t : Desk Bool Unit, mounted.run (processes Unit) (published ++ refused ++ rewriting) = some t ∧
      (.open (), ({ rc := - Errno.EIO.number } : Outcome)) ∈ (t.locals false).calls ∧ t.next true = some (.disk .exit) := by
    decide +kernel
  obtain ⟨t, ht, hopen, hexit⟩ := hrun
  exact ⟨t, Desk.Reaches.run .start (by decide +kernel) ht, hopen, hexit, fun hnever => hnever true _ hexit⟩

end AFSv1.Client
