import AFSv1.Client.Alone

/-! The marker of files that were created locally. A client trusts it without asking the server, so it is right only
as long as no other client publishes the file. -/
namespace AFSv1.Client
open Foundations Tables

variable {A Path : Type} [DecidableEq A] [DecidableEq Path]

/-- The server has none of the files that are marked as created locally. -/
def Trusted (l : Local Path) (g : Remote Path) : Prop :=
  ∀ p, (l.entry p).last_modified = some localCreatFile → g.files p = none

/-- The client holds the marker for the path or is about to set it. -/
def Marked (next : Option (Call Path)) (l : Local Path) (p : Path) : Prop :=
  (l.entry p).last_modified = some localCreatFile ∨ next = some (.disk (.lastModifiedSet p localCreatFile))

/-- The client's own upload is done and not recorded yet. -/
def Recording (next : Option (Call Path)) (p : Path) : Prop :=
  next = some (.disk (.isDirtySet p false)) ∨ ∃ t, next = some (.disk (.lastModifiedSet p t))

/-- The remote calls succeed. -/
def Successful (env : Env) : Prop := env.outage = .none ∧ env.delivered = none

def markerLogic (Path : Type) [DecidableEq Path] : Prog.Logic (Call Path) Call.Answer Env (Mount Path) (Remote Path) where
  exec := (machine Path).exec
  ok env _ _ _ := Successful env
  rely next m g g' := ∀ p, Marked next m.toLocal p → g.files p = none → g'.files p = none
  inv next m g := ∀ p, (m.entry p).last_modified = some localCreatFile → g.files p = none ∨ Recording next p
  rely_refl _ _ _ _ _ h := h
  rely_trans _ _ _ _ _ h h' p hp hg := h' p hp (h p hp hg)
  inv_call _ _ _ h p hp := (h p hp).imp_right fun h => by simp [Recording] at h

variable {m m' : Mount Path} {g g' : Remote Path} {path : Path} {α : Type} {post : α → Mount Path → Remote Path → Prop}

lemma Trusted.rely {next : Option (Call Path)} (hm : Trusted m.toLocal g) (h : (markerLogic Path).rely next m g g') :
    Trusted m.toLocal g' := fun p hp => h p (.inl hp) (hm p hp)

lemma marker_inv {next : Option (Call Path)} (hm : Trusted m.toLocal g) : (markerLogic Path).inv next m g :=
  fun p hp => .inl (hm p hp)

/-- Only `afs_open` sets the marker. -/
lemma exec_marker {env : Env} {l l' : Local Path} {c : LocalCall Path} {r : c.Answer} (h : c.exec env l = some (r, l'))
    (hc : ∀ p, c ≠ .lastModifiedSet p localCreatFile) {p : Path} (hp : (l'.entry p).last_modified = some localCreatFile) :
    (l.entry p).last_modified = some localCreatFile := by
  rcases LocalCall.exec_changes h with heq | ⟨q, f, hf, heq⟩
  · rwa [heq] at hp
  · rw [heq] at hp
    by_cases hpq : p = q
    · subst hpq
      rw [Local.modify_entry_self] at hp
      cases hf with
      | setTime _ t => exact absurd (by rw [Option.some.inj hp]) (hc p)
      | eraseTime => cases hp
      | create => rwa [Entry.openTrunc_last_modified] at hp
      | _ => exact hp
    · rwa [Local.modify_entry_ne _ _ hpq] at hp

/-- Only an upload makes a file appear. -/
lemma exec_appears {env : Env} {c : RemoteCall Path} {r : c.Answer} (h : c.exec env g = some (r, g')) {p : Path}
    (hc : ∀ chunks, chunks ≠ [] → c ≠ .Write p chunks false) (hp : g.files p = none) : g'.files p = none := by
  cases c with
  | Stat q => cases h; exact hp
  | GetContent q => rwa [(RemoteCall.exec_GetContent h).1]
  | writerWrite => cases h; exact hp
  | Write q chunks broken =>
    rcases RemoteCall.exec_Write h with rfl | ⟨rfl, hne, hfresh, rfl⟩
    · exact hp
    · have hpq : p ≠ q := by rintro rfl; exact hc chunks hne rfl
      simpa [Remote.publish, hpq] using hp
  | Unlink q =>
    have hunlink : (g.unlink q).files p = none := by
      by_cases hpq : p = q
      · subst hpq
        simp [Remote.unlink]
      · simpa [Remote.unlink, hpq] using hp
    simp only [RemoteCall.exec] at h
    split_ifs at h <;> cases h <;> assumption

/-! ### The operations -/

lemma marker_disk {c : LocalCall Path} {k : c.Answer → Program Path α} (hm : Trusted m.toLocal g)
    (hc : ∀ p, c ≠ .lastModifiedSet p localCreatFile)
    (h : ∀ env r l' g', c.exec env m.toLocal = some (r, l') → Trusted l' g' →
      (k r).Safe (markerLogic Path) post { m with toLocal := l' } g') :
    Prog.Safe (markerLogic Path) post (.call (.disk c) k) m g := by
  refine safe_disk rfl fun g' hg _ => ⟨trivial, fun env r l' _ hexec => ?_⟩
  have hl' : Trusted l' g' := fun p hp => hm.rely hg p (exec_marker hexec hc hp)
  exact ⟨marker_inv hl', h env r l' g' hexec hl'⟩

lemma marker_rpc {c : RemoteCall Path} {k : c.Answer → Program Path α} (hm : Trusted m.toLocal g)
    (hc : ∀ p chunks, chunks ≠ [] → c ≠ .Write p chunks false)
    (h : ∀ env r g g', Successful env → c.exec env g = some (r, g') → Trusted m.toLocal g' →
      (k r).Safe (markerLogic Path) post m g') :
    Prog.Safe (markerLogic Path) post (.call (.rpc c) k) m g := by
  refine safe_rpc rfl fun g₁ hg _ => ⟨trivial, fun env r g₂ hok hexec => ?_⟩
  have hm₂ : Trusted m.toLocal g₂ := fun p hp => exec_appears hexec (hc p) (hm.rely hg p hp)
  exact ⟨marker_inv hm₂, h env r g₁ g₂ hok hexec hm₂⟩

/-- The markers are right at the end. -/
def Ended (_ : Outcome) (m : Mount Path) (g : Remote Path) : Prop := Trusted m.toLocal g

lemma marker_ret {out : Outcome} (hm : Trusted m.toLocal g) : Prog.Safe (markerLogic Path) Ended (.ret out) m g :=
  fun _ hg _ => hm.rely hg

/-- The calls that neither set the marker nor upload. -/
def Unmarked (c : Call Path) : Prop := ∀ p, c ≠ .disk (.lastModifiedSet p localCreatFile) ∧
  ∀ chunks broken, c ≠ .rpc (.Write p chunks broken)

lemma marker_calls {p : Program Path α} (h : p.Calls Unmarked) (hm : Trusted m.toLocal g) :
    p.Safe (markerLogic Path) (fun _ m g => Trusted m.toLocal g) m g := by
  induction p generalizing m g with
  | ret a => exact fun _ hg _ => hm.rely hg
  | call c k ih =>
    cases c with
    | disk c =>
      refine marker_disk hm (fun p hc => (h.1 p).1 (hc ▸ rfl)) fun _ r _ _ _ hl' => ih r (h.2 r) hl'
    | rpc c =>
      refine marker_rpc hm (fun p chunks _ hc => (h.1 p).2 chunks false (hc ▸ rfl)) fun _ r _ _ _ _ hm' => ih r (h.2 r) hm'

lemma marker_openHandle (hm : Trusted m.toLocal g) : (openHandle path).Safe (markerLogic Path) Ended m g :=
  marker_calls ((openHandle_calls path).mono fun _ h => h ▸ by simp [Unmarked]) hm

lemma marker_clean {path : Path} (hm : Trusted m.toLocal g) : Prog.Safe (markerLogic Path) Ended
    (.call (.disk (.isDirtySet path false)) fun _ => openHandle path) m g :=
  marker_disk hm nofun fun _ _ _ _ _ hl' => marker_openHandle hl'

/-- A new file is marked only after the server was seen to have none. -/
lemma marker_download (path : Path) (hm : Trusted m.toLocal g) :
    (download path).Safe (markerLogic Path) Ended m g := by
  refine marker_rpc hm (by simp) fun env r g₁ g₁' hok hget hm₁ => ?_
  obtain ⟨rfl, hr⟩ := RemoteCall.exec_GetContent hget
  obtain rfl : r = (g₁'.getContent path, true) := by
    simp only [RemoteCall.exec, hok.2, Option.some.injEq, Prod.mk.injEq] at hget
    exact hget.1.symm
  dsimp only [Prog.bind]
  cases hmsgs : g₁'.getContent path with
  | nil => exact marker_ret hm₁
  | cons msg msgs =>
    dsimp only
    by_cases hexists : msg.file_exists = true
    · rw [if_pos hexists]
      refine marker_disk hm₁ (by simp) fun env r l₂ g₂ _ hl₂ => ?_
      change Prog.Safe _ _ (writeChunks path _ (msg :: msgs) >>= _) _ _
      have hchunks := (writeChunks_calls path (r.map fun i => (i, 0)) (msg :: msgs)).mono (Q := Unmarked) (by
        rintro c ⟨i, pos, b, rfl⟩
        simp [Unmarked])
      refine Prog.Safe.bind (marker_inv hl₂) ((marker_calls hchunks hl₂).mono ?_)
      intro _ m₃ g₃ _ hm₃
      have htime : (msgs.getLastD msg).timestamp ≠ localCreatFile := by
        obtain ⟨v, hv⟩ := Option.ne_none_iff_exists'.mp ((Remote.getContent_exists hmsgs).mp hexists)
        rw [Remote.getContent_timestamp hv hmsgs]
        exact Remote.localCreatFile_ne v.mtim
      refine marker_disk hm₃ (by simpa using htime) fun _ _ _ _ _ hl₄ => marker_clean hl₄
    · rw [if_neg hexists]
      have hnone : g₁'.files path = none := by
        by_contra hsome
        exact hexists ((Remote.getContent_exists hmsgs).mpr hsome)
      refine safe_disk rfl fun g₂ hg₂ _ => ⟨trivial, fun env₂ r₂ l₂ _ hset => ?_⟩
      have hnone₂ : g₂.files path = none := hg₂ path (.inr rfl) hnone
      cases hset
      have hm₂ : Trusted (m.toLocal.modify path fun e => { e with last_modified := some localCreatFile }) g₂ := by
        intro p hp
        by_cases hpath : p = path
        · rw [hpath]
          exact hnone₂
        · rw [Local.modify_entry_ne _ _ hpath] at hp
          exact hm₁.rely hg₂ p hp
      refine ⟨marker_inv hm₂, marker_disk hm₂ (by simp) fun _ _ _ _ _ hl₃ => ?_⟩
      exact marker_disk hl₃ (by simp) fun _ _ _ _ _ hl₄ => marker_clean hl₄

lemma marker_afsOpen (path : Path) (hm : Trusted m.toLocal g) : (afsOpen path).Safe (markerLogic Path) Ended m g := by
  refine marker_disk hm nofun fun env₁ count l₁ g₁ _ hl₁ => ?_
  dsimp only [Prog.bind]
  split_ifs
  · refine marker_disk hl₁ nofun fun env₂ t l₂ g₂ _ hl₂ => ?_
    dsimp only [Prog.bind]
    split_ifs
    · exact marker_openHandle hl₂
    · refine marker_rpc hl₂ nofun fun env₃ stat_content g₃ g₃' _ _ hm₃ => ?_
      refine marker_disk hm₃ nofun fun env₄ t l₄ g₄ _ hl₄ => ?_
      dsimp only [Prog.bind]
      split_ifs
      · exact marker_openHandle hl₄
      · refine marker_disk hl₄ nofun fun env₅ r₅ l₅ g₅ _ hl₅ => ?_
        exact marker_disk hl₅ nofun fun env₆ r₆ l₆ g₆ _ hl₆ => marker_download path hl₆
  · exact marker_download path hl₁

/-- The client's own upload replaces the marker by the time of the new version. -/
lemma marker_recorded {path : Path} {t : Bytes} {out : Outcome} (ht : t ≠ localCreatFile)
    (hm : ∀ p, p ≠ path → (m.entry p).last_modified = some localCreatFile → g.files p = none) :
    Prog.Safe (markerLogic Path) Ended (.call (.disk (.lastModifiedSet path t)) fun _ => .ret out) m g := by
  refine safe_disk rfl fun g' hg _ => ⟨trivial, fun env r l' _ hset => ?_⟩
  cases hset
  have hm' : Trusted (m.toLocal.modify path fun e => { e with last_modified := some t }) g' := by
    intro p hp
    by_cases hpath : p = path
    · subst hpath
      exact absurd (Option.some.inj (by simpa using hp)) ht
    · rw [Local.modify_entry_ne _ _ hpath] at hp
      exact hg p (.inl hp) (hm p hpath hp)
  exact ⟨marker_inv hm', marker_ret hm'⟩

/-- An upload that does not fail is acknowledged with the time of the new version, unless its stream broke. -/
lemma exec_Write_successful {env : Env} (hsuccess : Successful env) {path : Path} {chunks : List Bytes} {broken : Bool}
    {r : Status × Meta} (h : (RemoteCall.Write path chunks broken).exec env g = some (r, g')) :
    (r.1 = .OK ∧ r.2.timestamp = env.now ∨ r.1 ≠ .OK ∧ g' = g) ∧ ∀ p, p ≠ path → g.files p = none → g'.files p = none := by
  refine ⟨?_, fun p hp => exec_appears h (by simp [Ne.symm hp])⟩
  simp only [RemoteCall.exec, hsuccess.1, reduceCtorEq, or_false, if_true] at h
  split_ifs at h <;> cases h
  · exact .inr ⟨by simp, rfl⟩
  · exact .inl ⟨rfl, rfl⟩
  · exact .inl ⟨rfl, rfl⟩

lemma marker_Write {path : Path} {chunks : List Bytes} {broken : Bool} {k : Status × Meta → Program Path Outcome}
    (hm : Trusted m.toLocal g)
    (hok : ∀ g reply, reply.timestamp ≠ localCreatFile →
      (∀ p, p ≠ path → (m.entry p).last_modified = some localCreatFile → g.files p = none) →
        Recording (k (.OK, reply)).next path ∧ (k (.OK, reply)).Safe (markerLogic Path) Ended m g)
    (hfailed : ∀ g status reply, status ≠ .OK → Trusted m.toLocal g → (k (status, reply)).Safe (markerLogic Path) Ended m g) :
    Prog.Safe (markerLogic Path) Ended (.call (.rpc (.Write path chunks broken)) k) m g := by
  refine safe_rpc rfl fun g₁ hg₁ _ => ⟨trivial, fun env r g₂ hsuccess hexec => ?_⟩
  have hm₁ := hm.rely hg₁
  obtain ⟨hstatus, hothers⟩ := exec_Write_successful hsuccess hexec
  obtain ⟨status, reply⟩ := r
  rcases hstatus with ⟨rfl, htime⟩ | ⟨hne, rfl⟩
  · have hothers₂ (p : Path) (hp : p ≠ path) (hmark : (m.entry p).last_modified = some localCreatFile) :
        g₂.files p = none := hothers p hp (hm₁ p hmark)
    have htime : reply.timestamp ≠ localCreatFile := by
      rw [show reply.timestamp = env.now from htime]
      exact Remote.localCreatFile_ne env.now
    obtain ⟨hrecording, hsafe⟩ := hok g₂ reply htime hothers₂
    refine ⟨fun p hp => ?_, hsafe⟩
    by_cases hpath : p = path
    · exact .inr (hpath ▸ hrecording)
    · exact .inl (hothers₂ p hpath hp)
  · exact ⟨marker_inv hm₁, hfailed g₂ status reply hne hm₁⟩

lemma marker_afsRelease (fuel : ℕ) (path : Path) (fh : ℕ) (hm : Trusted m.toLocal g) :
    (afsRelease fuel path fh).Safe (markerLogic Path) Ended m g := by
  refine marker_disk hm nofun fun env₁ r₁ l₁ g₁ _ hl₁ => ?_
  refine marker_disk hl₁ nofun fun env₂ dirty l₂ g₂ _ hl₂ => ?_
  cases dirty with
  | false => exact marker_ret hl₂
  | true =>
    refine marker_disk hl₂ nofun fun env₃ i l₃ g₃ _ hl₃ => ?_
    cases i with
    | none => exact marker_disk hl₃ nofun fun _ r => r.elim
    | some i =>
      change Prog.Safe _ _ (upload path i fuel 0 [] >>= _) _ _
      have hupload := (upload_calls path i fuel 0 []).mono (Q := Unmarked) fun c hc => by
        rcases hc with rfl | ⟨pos, rfl⟩ | rfl <;> simp [Unmarked]
      refine Prog.Safe.bind (marker_inv hl₃) ((marker_calls hupload hl₃).mono ?_)
      intro sent m₄ g₄ _ hm₄
      obtain ⟨chunks, broken⟩ := sent
      refine marker_Write hm₄ (fun g₅ reply htime hothers => ⟨.inl rfl, ?_⟩) fun g₅ status reply hne hm₅ => ?_
      · refine safe_disk rfl fun g₆ hg₆ _ => ⟨trivial, fun env₆ r₆ l₆ _ hclean => ?_⟩
        have hothers₆ (p : Path) (hp : p ≠ path) (hmark : (l₆.entry p).last_modified = some localCreatFile) :
            g₆.files p = none := by
          have hmark := exec_marker hclean nofun hmark
          exact hg₆ p (.inl hmark) (hothers p hp hmark)
        refine ⟨fun p hp => ?_, marker_recorded htime hothers₆⟩
        by_cases hpath : p = path
        · exact .inr (.inr ⟨_, by rw [hpath]; rfl⟩)
        · exact .inl (hothers₆ p hpath hp)
      · cases status with
        | OK => exact absurd rfl hne
        | CANCELLED | NOT_FOUND | UNAVAILABLE => exact marker_ret hm₅

lemma marker_afsMknod (path : Path) (hm : Trusted m.toLocal g) : (afsMknod path).Safe (markerLogic Path) Ended m g := by
  refine marker_rpc hm nofun fun env₁ stat_content g₁ g₁' _ _ hm₁ => ?_
  dsimp only [Prog.bind]
  split_ifs
  · exact marker_ret hm₁
  · refine marker_disk hm₁ nofun fun env₂ r₂ l₂ g₂ _ hl₂ => ?_
    cases r₂ with
    | error e => exact marker_ret hl₂
    | ok fd =>
      refine marker_disk hl₂ nofun fun env₃ r₃ l₃ g₃ _ hl₃ => ?_
      cases r₃ with
      | error e => exact marker_ret hl₃
      | ok u =>
        refine marker_rpc hl₃ nofun fun env₄ sent g₄ g₄' _ _ hm₄ => ?_
        refine marker_Write hm₄ (fun g₅ reply htime hothers => ⟨.inr ⟨_, rfl⟩, marker_recorded htime hothers⟩)
          fun g₅ status reply hne hm₅ => ?_
        cases status with
        | OK => exact absurd rfl hne
        | CANCELLED | NOT_FOUND | UNAVAILABLE => exact marker_ret hm₅

lemma marker_plain {p : Program Path Outcome} (h : p.Calls Unmarked) (hm : Trusted m.toLocal g) :
    p.Safe (markerLogic Path) Ended m g := marker_calls h hm

lemma marker_program (op : Operation Path) (hm : Trusted m.toLocal g) : op.program.Safe (markerLogic Path) Ended m g := by
  cases op with
  | «open» path => exact marker_afsOpen path hm
  | release fuel path fh => exact marker_afsRelease fuel path fh hm
  | mknod path => exact marker_afsMknod path hm
  | unlink path =>
    refine marker_plain ⟨by simp [Unmarked], fun _ => ⟨by simp [Unmarked], fun _ => ?_⟩⟩ hm
    exact ⟨by simp [Unmarked], fun _ => ⟨by simp [Unmarked], fun _ => trivial⟩⟩
  | read path fh size offset =>
    refine marker_plain ⟨by simp [Unmarked], fun r => ?_⟩ hm
    cases r <;> trivial
  | write path buf offset fh =>
    refine marker_plain ⟨by simp [Unmarked], fun _ => ⟨by simp [Unmarked], fun r => ?_⟩⟩ hm
    cases r <;> trivial
  | fsync path fh => exact marker_plain ⟨by simp [Unmarked], fun _ => trivial⟩ hm
  | ftruncate path offset fh => exact marker_plain ⟨by simp [Unmarked], fun _ => trivial⟩ hm
  | truncate path newsize => exact marker_plain ⟨by simp [Unmarked], fun _ => trivial⟩ hm

omit [DecidableEq A] in
lemma marker_obligations : System.Obligations (machine Path) (fun _ : A => markerLogic Path) (fun _ _ => Ended)
    (fun _ _ _ _ => True) fun _ _ _ _ => False where
  exec _ := rfl
  stable _ _ _ _ _ hinv hrely p hp := (hinv p hp).imp_left (hrely p (.inl hp))
  start _ op m m' g hinv _ hbegin := by
    have hm : Trusted m.toLocal g := fun p hp => (hinv p hp).resolve_right (by simp [Recording])
    have hm' : Trusted m'.toLocal g := Mount.begin_toLocal hbegin ▸ hm
    exact ⟨marker_inv hm', marker_program op hm'⟩
  finish _ op out m g hinv _ p hp := hinv p hp
  crash _ next op m g hinv hcrash := hcrash.elim

/-! ### Runs -/

/-- The path that a call publishes a version of. -/
def Call.publishes : Call Path → Option Path
  | .rpc (.Write path (_ :: _) false) => some path
  | _ => none

/-- All remote calls succeed, no client crashes, and no client publishes a file that another client holds the marker
for or is about to mark. -/
def Respects (s : World A Path) : AgentEvent A (Operation Path) Env → Prop
  | .call a env => Successful env ∧ ∀ path, (s.next a).bind Call.publishes = some path →
      ∀ b, b ≠ a → ¬ Marked (s.next b) (s.locals b).toLocal path
  | .crash _ => False
  | _ => True

/-- Between two operations a client only trusts the marker while the server has no such file. -/
def MarkersRight (s : World A Path) : Prop := ∀ a, s.running a = none → Trusted (s.locals a).toLocal s.shared

instance (next : Option (Call Path)) (l : Local Path) (p : Path) : Decidable (Marked next l p) := by
  unfold Marked
  infer_instance

instance (env : Env) : Decidable (Successful env) := by unfold Successful; infer_instance

instance [Fintype A] (s : World A Path) (e : AgentEvent A (Operation Path) Env) : Decidable (Respects s e) := by
  induction e using AgentEvent.casesOn <;> unfold Respects <;> infer_instance

instance [Fintype Path] (l : Local Path) (g : Remote Path) : Decidable (Trusted l g) := by
  unfold Trusted
  infer_instance

instance [Fintype A] [Fintype Path] (s : World A Path) : Decidable (MarkersRight s) := by
  unfold MarkersRight
  infer_instance

/-- As long as no client publishes under the marker of another, all markers are right. -/
theorem markersRight_of_respects (g : Remote Path) (es : List (WorldEvent A Path)) (s : World A Path)
    (hrespects : (World.start A g).Along (machine Path) Respects es)
    (hrun : (World.start A g).run (machine Path) es = some s) : MarkersRight s := by
  have hallowed := hrespects.mono (Q := System.Allowed (fun _ => markerLogic Path) (fun _ _ _ _ => True)
    fun _ _ _ _ => False) fun s e _ h => by
      cases e with
      | call a env =>
        refine fun op c k hc => ⟨h.1, fun r m g hexec b hb p hp hnone => ?_⟩
        have hnext : s.next a = some c := by simp [System.next, hc]
        cases c with
        | disk c =>
          obtain ⟨l', -, -, rfl⟩ := machine_disk hexec
          exact hnone
        | rpc c =>
          refine exec_appears (machine_rpc hexec).1 (fun chunks hchunks heq => ?_) hnone
          obtain ⟨chunk, rest, rfl⟩ := List.exists_cons_of_ne_nil hchunks
          exact h.2 p (by rw [hnext, heq]; rfl) b hb hp
      | crash a => exact h
      | _ => trivial
  have hstart : (World.start A g).Sound (fun _ => markerLogic Path) fun _ _ => Ended :=
    fun a => ⟨fun p hp => by simp [World.start] at hp, fun _ _ hp => by cases hp⟩
  intro a hidle p hp
  have hinv := ((hstart.run marker_obligations hallowed hrun) a).1 p hp
  exact hinv.resolve_right (by simp [System.next, hidle, Recording])

/-- The client `true` creates a file and publishes it; the client `false` opens it then, or before. -/
def handedOn : List (WorldEvent Bool Unit) :=
  session true (.open ()) (quiet 7 1) ++ session true (.write () (Bytes.ascii "x") 0 3) (quiet 2 1) ++
    session true (.release 1 () 3) (quiet 8 1) ++ session false (.open ()) (quiet 7 2)

def openedBefore : List (WorldEvent Bool Unit) :=
  session false (.open ()) (quiet 7 1) ++ session true (.open ()) (quiet 7 1) ++
    session true (.write () (Bytes.ascii "x") 0 3) (quiet 2 1) ++ session true (.release 1 () 3) (quiet 8 1)

theorem markersRight_of_respects_handedOn : ∃ s : World Bool Unit,
    (World.start Bool .empty).run (machine Unit) handedOn = some s ∧ MarkersRight s := by
  have hrun : ∃ s, (World.start Bool .empty).run (machine Unit) handedOn = some s ∧ True := by decide +kernel
  obtain ⟨s, hs, -⟩ := hrun
  exact ⟨s, hs, markersRight_of_respects _ _ s (by decide +kernel) hs⟩

/-- The client `false` has opened the missing file and closes it without a write; it goes on to ignore the version
of `true`. -/
theorem not_markersRight_openedBefore : ∃ s, (World.start Bool .empty).run (machine Unit)
    (openedBefore ++ session false (.release 1 () 3) (quiet 2 1)) = some s ∧ ¬ MarkersRight s ∧
      s.shared.files () = some ⟨Bytes.ascii "x", .uniform 1⟩ ∧
        ∃ s', s.run (machine Unit) (session false (.open ()) (quiet 3 2)) = some s' ∧
          (s'.locals false).calls.getLast? = some (.open (), some { rc := 0, fh := 3 }) ∧
            ((s'.locals false).entry ()).content = some [] := by
  decide +kernel

end AFSv1.Client
