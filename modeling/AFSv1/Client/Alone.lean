import AFSv1.Client.Calls

/-! Operations that no other client interrupts: rules for a call at the head, and what the common parts
of the operations do. -/
namespace AFSv1.Client
open Foundations Tables

variable {Path : Type} [DecidableEq Path]

def aloneLogic (Path : Type) [DecidableEq Path] : Prog.Logic (Call Path) Call.Answer Env (Mount Path) (Remote Path) where
  exec := (machine Path).exec
  rely _ _ := Eq
  rely_refl _ _ _ := rfl
  rely_trans _ _ _ _ _ := .trans
  inv_call _ _ _ := id

variable {α : Type} {post : α → Mount Path → Remote Path → Prop} {m m' : Mount Path} {g g' : Remote Path} {path : Path}

lemma alone_disk {c : LocalCall Path} {k : c.Answer → Program Path α} (h : ∀ env r l', c.exec env m.toLocal = some (r, l') →
    (k r).Safe (aloneLogic Path) post { m with toLocal := l' } g) :
    Prog.Safe (aloneLogic Path) post (.call (.disk c) k) m g := by
  refine safe_disk rfl fun g' hg _ => ⟨trivial, fun env r l' _ hexec => ⟨trivial, ?_⟩⟩
  exact hg ▸ h env r l' hexec

lemma alone_rpc {c : RemoteCall Path} {k : c.Answer → Program Path α} (h : ∀ env r g', c.exec env g = some (r, g') →
    (k r).Safe (aloneLogic Path) post m g') : Prog.Safe (aloneLogic Path) post (.call (.rpc c) k) m g := by
  refine safe_rpc rfl fun g' hg _ => ⟨trivial, fun env r g'' _ hexec => ⟨trivial, ?_⟩⟩
  subst hg
  exact h env r g'' hexec

lemma alone_ret {a : α} (h : post a m g) : Prog.Safe (aloneLogic Path) post (.ret a) m g := fun _ hg _ => hg ▸ h

lemma alone_eval {p : Program Path α} {envs : List Env} {a : α} (h : p.Safe (aloneLogic Path) post m g)
    (heval : p.eval (machine Path).exec envs m g = some (a, m', g')) : post a m' g' :=
  (h.eval trivial (fun _ _ _ _ _ => trivial) heval).2

lemma eval_disk {c : LocalCall Path} {k : c.Answer → Program Path α} {envs : List Env} {x : α × Mount Path × Remote Path}
    (h : (Prog.call (.disk c) k).eval (machine Path).exec envs m g = some x) : ∃ env rest r l', envs = env :: rest ∧
      c.exec env m.toLocal = some (r, l') ∧ (k r).eval (machine Path).exec rest { m with toLocal := l' } g = some x := by
  obtain ⟨env, rest, r, m', g', rfl, hexec, hrest⟩ := Prog.eval_call.mp h
  obtain ⟨l', hcall, rfl, rfl⟩ := machine_disk hexec
  exact ⟨env, rest, r, l', rfl, hcall, hrest⟩

lemma eval_rpc {c : RemoteCall Path} {k : c.Answer → Program Path α} {envs : List Env} {x : α × Mount Path × Remote Path}
    (h : (Prog.call (.rpc c) k).eval (machine Path).exec envs m g = some x) : ∃ env rest r g', envs = env :: rest ∧
      c.exec env g = some (r, g') ∧ (k r).eval (machine Path).exec rest m g' = some x := by
  obtain ⟨env, rest, r, m', g', rfl, hexec, hrest⟩ := Prog.eval_call.mp h
  obtain ⟨hcall, rfl⟩ := machine_rpc hexec
  exact ⟨env, rest, r, g', rfl, hcall, hrest⟩

/-- The handle denotes the cache file of the path, or nothing. -/
def Mount.Denotes (m : Mount Path) (path : Path) (fh : ℕ) : Prop :=
  m.toLocal.file fh = none ∨ ∃ i, m.toLocal.file fh = some (path, i) ∧ (m.entry path).cache = some i

/-- Opening the cache file leaves the entries alone. -/
lemma alone_openHandle {e : Entry} (h : m.entry path = e) : (openHandle path).Safe (aloneLogic Path)
    (fun out m' _ => out.rc = 0 ∧ m'.entry path = e ∧ m'.Denotes path out.fh) m g := by
  rw [openHandle_eq]
  refine alone_disk fun env r l' hexec => ?_
  rcases LocalCall.exec_openFile hexec with ⟨i, fd, -, hcache, hlt, -, rfl, rfl⟩ | ⟨e, rfl, rfl, -⟩
  · refine alone_ret ⟨rfl, h, .inr ⟨i, ?_, hcache⟩⟩
    rw [show fhOf (returned (.ok fd)) = fd from fhOf_natCast hlt, Local.file_of_lt _ hlt]
    simp
  · exact alone_ret ⟨rfl, h, .inl (Local.file_badHandle _)⟩

/-- What an open that returns 0 leaves behind. -/
def OpensCache (path : Path) (out : Outcome) (m : Mount Path) (_ : Remote Path) : Prop :=
  out.rc = 0 → m.Denotes path out.fh

lemma alone_openHandle' : (openHandle path).Safe (aloneLogic Path) (OpensCache path) m g :=
  (alone_openHandle rfl).mono fun _ _ _ _ h _ => h.2.2

lemma alone_ret_error : Prog.Safe (aloneLogic Path) (OpensCache path) (.ret { rc := - Errno.EIO.number }) m g :=
  alone_ret fun h => absurd h (by decide)

lemma alone_download_denotes : (download path).Safe (aloneLogic Path) (OpensCache path) m g := by
  refine alone_rpc fun env r g' _ => ?_
  obtain ⟨msgs, ok⟩ := r
  cases msgs with
  | nil => exact alone_ret_error
  | cons msg msgs =>
    dsimp only [Prog.bind]
    by_cases hexists : msg.file_exists = true
    · rw [if_pos hexists]
      refine alone_disk fun env r l' _ => ?_
      change Prog.Safe _ _ (writeChunks path _ (msg :: msgs) >>= _) _ _
      refine Prog.Safe.bind trivial (Prog.safe_of_trivial (fun _ _ _ => trivial) (fun _ _ _ => trivial) fun _ m₁ g₁ => ?_)
      split_ifs
      · exact alone_disk fun _ _ _ _ => alone_disk fun _ _ _ _ => alone_openHandle'
      · exact alone_ret_error
    · rw [if_neg hexists]
      exact alone_disk fun _ _ _ _ => alone_disk fun _ _ _ _ => alone_disk fun _ _ _ _ => alone_disk fun _ _ _ _ =>
        alone_openHandle'

theorem alone_afsOpen : (afsOpen path).Safe (aloneLogic Path) (OpensCache path) m g := by
  refine alone_disk fun env count l' _ => ?_
  dsimp only [Prog.bind]
  split_ifs
  · refine alone_disk fun env t l' _ => ?_
    dsimp only [Prog.bind]
    split_ifs
    · exact alone_openHandle'
    · refine alone_rpc fun env stat_content g' _ => alone_disk fun env t l' _ => ?_
      dsimp only [Prog.bind]
      split_ifs
      · exact alone_openHandle'
      · exact alone_disk fun _ _ _ _ => alone_disk fun _ _ _ _ => alone_download_denotes
  · exact alone_download_denotes

/-- What a complete operation does. -/
theorem World.run_session {A : Type} [DecidableEq A] {s s' : World A Path} {a : A} {op : Operation Path} {envs : List Env}
    (h : s.run (machine Path) (session a op envs) = some s') : ∃ m out m' g', Mount.begin op (s.locals a) = some m ∧
      op.program.eval (machine Path).exec envs m s.shared = some (out, m', g') ∧ s'.locals a = m'.finish op out ∧
        s'.shared = g' ∧ s'.running a = none ∧ ∀ b, b ≠ a → s'.locals b = s.locals b ∧ s'.running b = s.running b := by
  obtain ⟨-, m, out, m', g', hbegin, heval, rfl⟩ := System.run_session.mp h
  refine ⟨m, out, m', g', hbegin, heval, ?_, rfl, ?_, fun b hb => ⟨?_, ?_⟩⟩
  · simp [System.become, machine]
  · simp [System.become]
  · simp [System.become, hb]
  · simp [System.become, hb]

/-- `n` calls without failures, under the descriptor 3. -/
def quiet (n now : ℕ) : List Env := List.replicate n { fd := 3, now := .uniform now.toUInt8 }

/-- A client creates a file with the content "x". -/
def created : List (WorldEvent Unit Unit) :=
  session () (.open ()) (quiet 7 1) ++ session () (.write () (Bytes.ascii "x") 0 3) (quiet 2 1) ++
    session () (.release 1 () 3) (quiet 8 1)

end AFSv1.Client
