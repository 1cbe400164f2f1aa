import AFSv1.Reports
import AFSv1.Server.DiskErrors

/-! The four transfer loops over disks that fail: the cache file or the file at the server may be unreadable from some
block on, and either disk may run out of room. -/
namespace AFSv1
open Foundations Tables

/-- What a call on the client meets, with the room that a write to the cache file finds if it is limited. -/
structure TransferEnv extends Client.Env where
  room : Option ℕ := none

/-- What an operation meets at the server: the number and the steps of its upload, the steps of its download, the
system call behind its other calls, and how the transport treats them. -/
structure Transfer where
  id : ℕ := 0
  writing : List Server.DiskEnv := []
  outage : Client.Outage := .none
  reading : List Server.StepEnv := []
  delivered : Option ℕ := none
  single : Server.StepEnv := { now := [] }
  sb : StatContent := {}
  stat_outage : Client.Outage := .none

/-- The part of the server that the transfers work on, and the timestamps that the client stored meanwhile. -/
structure Exchange extends Server.Shared where
  stored : List Bytes := []

variable (cfg : Server.Config) (w : Transfer)

/-- A remote call. Where the transport breaks off a download the client gets its first messages only. -/
def serveTransfer (env : TransferEnv) (sh : Server.Shared) : (c : Client.RemoteCall Bytes) → Option (c.Answer × Server.Shared)
  | .Stat path => some (received w.stat_outage (Server.Stat cfg w.single w.sb path sh.fs) {}, sh)
  | .GetContent path =>
    if w.reading.all fun e => !e.dropped then
      (Server.callGetContentDisk cfg path w.reading sh).map fun msgs =>
        (w.delivered.elim (msgs, true) fun n => (msgs.take n, false), sh)
    else none
  | .writerWrite => some (env.outage = .none, sh)
  | .Write path chunks broken =>
    if broken ∨ w.outage = .before then some ((.UNAVAILABLE, {}), sh)
    else (Server.callWriteDisk cfg w.id (chunks.map fun b => ⟨path, b⟩) w.writing sh).map fun r =>
      (received w.outage r.1 (.UNAVAILABLE, {}), r.2)
  | .Unlink path =>
    let r := Server.Unlink cfg w.single path sh.fs
    some (r.2, { sh with fs := r.1 })

/-- A write to the cache file that does not store its whole chunk breaks the stream. -/
def execDisk (env : TransferEnv) (l : Client.Local Bytes) : (c : Client.LocalCall Bytes) → Option (c.Answer × Client.Local Bytes)
  | .ofstreamWrite path i pos b =>
    let data := if Chunks.fits env.room b then b else b.take (env.room.getD 0)
    some (Chunks.fits env.room b, l.modify path fun e => e.setInode i ((e.inode i).overlay pos data))
  | c => c.exec env.toEnv l

lemma execDisk_close {env : TransferEnv} {l l' : Client.Local Bytes} {fd : ℕ} {r : Except Errno Unit}
    (h : execDisk env l (.close fd) = some (r, l')) : l'.entry = l.entry := by
  have hexec : (Client.LocalCall.close fd).exec env.toEnv l = some (r, l') := h
  rcases Client.LocalCall.exec_close hexec with ⟨-, -, rfl⟩ | ⟨-, -, rfl⟩ <;> rfl

/-- The timestamp that a call stores. -/
def storedBy : Client.LocalCall Bytes → List Bytes
  | .lastModifiedSet _ timestamp => [timestamp]
  | _ => []

def transfer (env : TransferEnv) (c : Client.Call Bytes) (l : Client.Local Bytes) (x : Exchange) :
    Option (c.Answer × Client.Local Bytes × Exchange) :=
  match c with
  | .disk c => (execDisk env l c).map fun r => (r.1, r.2, { x with stored := x.stored ++ storedBy c })
  | .rpc c => (serveTransfer cfg w env x.toShared c).map fun r => (r.1, l, { x with toShared := r.2 })

section Eval

variable {cfg w} {α : Type} {envs : List TransferEnv} {l : Client.Local Bytes} {x : Exchange}
  {y : α × Client.Local Bytes × Exchange}

lemma transfer_disk {c : Client.LocalCall Bytes} {k : c.Answer → Client.Program Bytes α}
    (h : (Prog.call (.disk c) k).eval (transfer cfg w) envs l x = some y) : ∃ env rest r l', envs = env :: rest ∧
      execDisk env l c = some (r, l') ∧
        (k r).eval (transfer cfg w) rest l' { x with stored := x.stored ++ storedBy c } = some y := by
  obtain ⟨env, rest, r, l', x', rfl, hexec, hrest⟩ := Prog.eval_call.mp h
  obtain ⟨⟨r', l''⟩, hcall, heq⟩ := Option.map_eq_some_iff.mp hexec
  cases heq
  exact ⟨env, rest, r', l'', rfl, hcall, hrest⟩

lemma transfer_plain {c : Client.LocalCall Bytes} {k : c.Answer → Client.Program Bytes α}
    (h : (Prog.call (.disk c) k).eval (transfer cfg w) envs l x = some y) (hc : storedBy c = []) :
    ∃ env rest r l', envs = env :: rest ∧ execDisk env l c = some (r, l') ∧ (k r).eval (transfer cfg w) rest l' x = some y := by
  obtain ⟨env, rest, r, l', rfl, hcall, hrest⟩ := transfer_disk h
  rw [hc, List.append_nil] at hrest
  exact ⟨env, rest, r, l', rfl, hcall, hrest⟩

lemma transfer_rpc {c : Client.RemoteCall Bytes} {k : c.Answer → Client.Program Bytes α}
    (h : (Prog.call (.rpc c) k).eval (transfer cfg w) envs l x = some y) : ∃ env rest r sh, envs = env :: rest ∧
      serveTransfer cfg w env x.toShared c = some (r, sh) ∧
        (k r).eval (transfer cfg w) rest l { x with toShared := sh } = some y := by
  obtain ⟨env, rest, r, l', x', rfl, hexec, hrest⟩ := Prog.eval_call.mp h
  obtain ⟨⟨r', sh⟩, hcall, heq⟩ := Option.map_eq_some_iff.mp hexec
  cases heq
  exact ⟨env, rest, r', sh, rfl, hcall, hrest⟩

end Eval

/-! ### Uploads -/

/-- The reads of the cache file, each followed by the sending of a message. -/
def cacheReads (envs : List TransferEnv) (k : ℕ) : Bool := (envs[2 * k]?).any fun env => env.fault.isNone

/-- The transport refuses one of the first `n` messages. -/
def Refused (envs : List TransferEnv) (n : ℕ) : Prop := ∃ k < n, ∃ env, envs[2 * k + 1]? = some env ∧ env.outage ≠ .none

lemma cacheReads_succ (env env' : TransferEnv) (envs : List TransferEnv) :
    (fun k => cacheReads (env :: env' :: envs) (k + 1)) = cacheReads envs := by
  funext k
  rw [cacheReads, show 2 * (k + 1) = 2 * k + 1 + 1 from rfl, List.getElem?_cons_succ, List.getElem?_cons_succ, cacheReads]

lemma refused_succ {env env' : TransferEnv} {envs : List TransferEnv} {n : ℕ} :
    Refused (env :: env' :: envs) (n + 1) ↔ env'.outage ≠ .none ∨ Refused envs n := by
  constructor
  · rintro ⟨k, hk, e, he, houtage⟩
    cases k with
    | zero =>
      obtain rfl : env' = e := by simpa using he
      exact .inl houtage
    | succ k => exact .inr ⟨k, by omega, e, by simpa [Nat.mul_add] using he, houtage⟩
  · rintro (houtage | ⟨k, hk, e, he, houtage⟩)
    · exact ⟨0, by omega, env', by simp, houtage⟩
    · exact ⟨k + 1, by omega, e, by simpa [Nat.mul_add] using he, houtage⟩

section Upload

variable {cfg w} {α : Type} {path data : Bytes} {l l' : Client.Local Bytes} {x x' : Exchange}

/-- The loop of `afs_release` sends the blocks before the first read that fails. -/
lemma transfer_upload {i fuel pos : ℕ} {chunks : List Bytes} {f : List Bytes × Bool → Client.Program Bytes α}
    {envs : List TransferEnv} {y : α × Client.Local Bytes × Exchange}
    (h : (Client.upload path i fuel pos chunks >>= f).eval (transfer cfg w) envs l x = some y)
    (hdata : ((l.entry path).inode i).drop pos = data) : ∃ rest new broken,
      (f (chunks ++ new, broken)).eval (transfer cfg w) rest l x = some y ∧
        (broken = true ↔ Refused envs (Chunks.readWhile (cacheReads envs) (Bytes.blocks BUFSIZE data)).length) ∧
          (broken = false → new = Chunks.readWhile (cacheReads envs) (Bytes.blocks BUFSIZE data)) := by
  induction fuel generalizing pos chunks envs data with
  | zero =>
    obtain ⟨_, _, r, _, _, _, _⟩ := transfer_disk h
    exact r.elim
  | succ fuel ih =>
    obtain ⟨env, envs, r, l₁, rfl, hread, h₁⟩ := transfer_plain h rfl
    obtain ⟨rfl, hr⟩ := Client.LocalCall.exec_ifstreamRead hread
    rw [Chunks.readWhile_blocks (by decide)]
    rcases hr with ⟨hfault, rfl⟩ | ⟨hfault, rfl⟩
    · have hok : cacheReads (env :: envs) 0 = true := by simp [cacheReads, hfault]
      obtain ⟨env', envs, sent, sh, rfl, hwrite, h₂⟩ := transfer_rpc h₁
      cases hwrite
      have hlength : (data.take BUFSIZE).length < BUFSIZE ↔ data.length < BUFSIZE := by
        rw [List.length_take]
        omega
      rw [hok, if_pos rfl, cacheReads_succ]
      simp only [hdata] at h₂
      by_cases hsent : env'.outage = .none
      · simp only [hsent, decide_true] at h₂
        dsimp only [Prog.bind] at h₂
        simp only [if_true, hlength] at h₂
        by_cases hshort : data.length < BUFSIZE
        · rw [if_pos hshort] at h₂ ⊢
          rw [List.take_of_length_le hshort.le] at h₂
          refine ⟨envs, [data], false, h₂, ?_, fun _ => rfl⟩
          rw [List.length_singleton, refused_succ]
          simp [hsent, Refused]
        · rw [if_neg hshort] at h₂ ⊢
          have hfull : (data.take BUFSIZE).length = BUFSIZE := by
            rw [List.length_take]
            omega
          have hdrop : ((l₁.entry path).inode i).drop (pos + (data.take BUFSIZE).length) = data.drop BUFSIZE := by
            rw [hfull, ← List.drop_drop, hdata]
          obtain ⟨rest, new, broken, hrest, hbroken, hnew⟩ := ih h₂ hdrop
          refine ⟨rest, data.take BUFSIZE :: new, broken, by simpa using hrest, ?_, fun hb => by rw [hnew hb]⟩
          rw [List.length_cons, refused_succ, hbroken]
          simp [hsent]
      · simp only [hsent, decide_false] at h₂
        dsimp only [Prog.bind] at h₂
        have hfirst (n : ℕ) : Refused (env :: env' :: envs) (n + 1) := refused_succ.mpr (.inl hsent)
        rw [if_neg Bool.false_ne_true] at h₂
        refine ⟨envs, [], true, ?_, ?_, nofun⟩
        · rw [List.append_nil]
          exact h₂
        split_ifs
        · simpa using hfirst 0
        · simpa using hfirst _
    · have hfail : cacheReads (env :: envs) 0 = false := by
        rw [cacheReads]
        simpa using Option.isSome_iff_ne_none.mpr hfault
      rw [hfail, if_neg (by simp)]
      refine ⟨envs, [], false, ?_, ?_, fun _ => rfl⟩
      · rw [List.append_nil]
        exact h₁
      · simp [Refused]

end Upload

/-- 0 only when the server holds the whole file; after a failure the file stays dirty and the server has what it had. -/
def ReleaseHonest (path data : Bytes) (out : Client.Outcome) (l' : Client.Local Bytes) (sh sh' : Server.Shared) : Prop :=
  (out.rc = 0 → Server.held cfg path sh'.fs = some data) ∧
    (out.rc ≠ 0 → (l'.entry path).dirty = true ∧ Server.held cfg path sh'.fs = Server.held cfg path sh.fs)

/-- The chunks of the cache file that are sent unless the transport refuses one; three calls come before the loop. -/
def sentChunks (data : Bytes) (envs : List TransferEnv) : List Bytes :=
  Chunks.readWhile (cacheReads (envs.drop 3)) (Bytes.blocks BUFSIZE data)

/-- No read of a byte fails, and every chunk finds room. -/
def Lossless (data : Bytes) (ok : ℕ → Bool) (room : ℕ → Option ℕ) : Prop :=
  (∀ k b, (Bytes.blocks BUFSIZE data)[k]? = some b → b ≠ [] → ok k) ∧
    ∀ k b, (Bytes.blocks BUFSIZE data)[k]? = some b → Chunks.fits (room k) b

lemma stored_eq_iff_lossless {data : Bytes} {ok : ℕ → Bool} {room : ℕ → Option ℕ} :
    Chunks.stored room (Chunks.readWhile ok (Bytes.blocks BUFSIZE data)) = data ↔ Lossless data ok room :=
  Chunks.stored_blocks_eq_iff (by decide)

/-- The upload fails before the server does anything, or it is whole, or it changes nothing. -/
def ReleaseSound (path data : Bytes) (envs : List TransferEnv) (fs : InodeFS) : Prop :=
  Refused (envs.drop 3) (sentChunks data envs).length ∨ w.outage = .before ∨
    ¬ Server.TempOpens cfg path (sentChunks data envs) w.writing fs ∨
      (Server.Replaces cfg path (sentChunks data envs) w.writing fs →
        (w.outage = .none → Lossless data (cacheReads (envs.drop 3)) (Server.rooms w.writing)) ∧
          (w.outage = .after →
            Server.held cfg path fs = some (Chunks.stored (Server.rooms w.writing) (sentChunks data envs)))) ∧
        (¬ Server.Replaces cfg path (sentChunks data envs) w.writing fs → w.outage = .none → Server.held cfg path fs = some data)

section Release

variable {cfg w} {path data : Bytes} {l l' : Client.Local Bytes} {x x' : Exchange} {envs : List TransferEnv}

/-- A release of a dirty file uploads it and reports the status. -/
lemma transfer_release {fuel fh : ℕ} {out : Client.Outcome} (hdirty : (l.entry path).dirty = true)
    (hcontent : (l.entry path).content = some data)
    (h : (Client.afsRelease fuel path fh).eval (transfer cfg w) envs l x = some (out, l', x')) : ∃ env new broken r,
      serveTransfer cfg w env x.toShared (.Write path new broken) = some (r, x'.toShared) ∧
        (broken = true ↔ Refused (envs.drop 3) (sentChunks data envs).length) ∧
          (broken = false → new = sentChunks data envs) ∧ (r.1 = .OK → out.rc = 0) ∧
            (r.1 ≠ .OK → out.rc ≠ 0 ∧ (l'.entry path).dirty = true) := by
  obtain ⟨i, hcache, hinode⟩ := Option.map_eq_some_iff.mp hcontent
  obtain ⟨env₁, envs, r₁, l₁, rfl, hclose, h₁⟩ := transfer_plain h rfl
  have hentry := execDisk_close hclose
  obtain ⟨env₂, envs, dirty, l₂, rfl, hget, h₂⟩ := transfer_plain h₁ rfl
  cases hget
  rw [hentry, hdirty] at h₂
  obtain ⟨env₃, envs, r₃, l₃, rfl, hopen, h₃⟩ := transfer_plain h₂ rfl
  obtain ⟨rfl, hr₃⟩ := Client.LocalCall.exec_ifstream hopen
  cases r₃ with
  | none =>
    obtain ⟨_, _, r, _, _, _, _⟩ := transfer_plain h₃ rfl
    exact r.elim
  | some j =>
    obtain rfl : i = j := by
      rw [hentry, hcache] at hr₃
      simpa using (hr₃.resolve_right nofun).2.symm
    change Prog.eval _ (Client.upload path i fuel 0 [] >>= _) _ l₃ _ = _ at h₃
    obtain ⟨rest, new, broken, h₄, hbroken, hnew⟩ := transfer_upload h₃ (by rw [hentry, hinode, List.drop_zero])
    obtain ⟨env₅, envs₅, r₅, sh, rfl, hwrite, h₅⟩ := transfer_rpc h₄
    obtain ⟨status, reply⟩ := r₅
    cases status with
    | OK =>
      obtain ⟨env₆, envs₆, r₆, l₆, rfl, hclean, h₆⟩ := transfer_disk h₅
      obtain ⟨env₇, envs₇, r₇, l₇, rfl, htime, h₇⟩ := transfer_disk h₆
      obtain ⟨rfl, hx⟩ := Prog.eval_ret.mp h₇
      cases hx
      exact ⟨env₅, new, broken, _, hwrite, hbroken, hnew, fun _ => rfl, fun hne => absurd rfl hne⟩
    | CANCELLED | NOT_FOUND | UNAVAILABLE =>
      obtain ⟨rfl, hx⟩ := Prog.eval_ret.mp h₅
      cases hx
      refine ⟨env₅, new, broken, _, hwrite, hbroken, hnew, nofun, fun _ => ⟨by decide, ?_⟩⟩
      rw [hentry, hdirty]

/-- A release is honest exactly if its upload is sound. -/
theorem releaseHonest_iff {fuel fh : ℕ} {out : Client.Outcome} (hroot : (0 : UInt8) ∉ cfg.AFS_ROOT_DIR)
    (hdirty : (l.entry path).dirty = true) (hcontent : (l.entry path).content = some data)
    (h : (Client.afsRelease fuel path fh).eval (transfer cfg w) envs l x = some (out, l', x')) :
    ReleaseHonest cfg path data out l' x.toShared x'.toShared ↔ ReleaseSound cfg w path data envs x.fs := by
  obtain ⟨env, new, broken, r, hwrite, hbroken, hnew, hok, hfail⟩ := transfer_release hdirty hcontent h
  simp only [serveTransfer] at hwrite
  by_cases hlost : broken = true ∨ w.outage = .before
  · rw [if_pos hlost] at hwrite
    obtain ⟨rfl, hsame⟩ := Prod.mk.inj (Option.some.inj hwrite)
    obtain ⟨hrc, hdirty'⟩ := hfail (by decide)
    refine iff_of_true ⟨fun h => absurd h hrc, fun _ => ⟨hdirty', by rw [hsame]⟩⟩ ?_
    rcases hlost with hb | hbefore
    · exact .inl (hbroken.mp hb)
    · exact .inr (.inl hbefore)
  · rw [if_neg hlost] at hwrite
    obtain ⟨hb, hbefore⟩ := not_or.mp hlost
    have hsent : new = sentChunks data envs := hnew (by simpa using hb)
    obtain ⟨⟨r', sh⟩, hcall, heq⟩ := Option.map_eq_some_iff.mp hwrite
    obtain ⟨rfl, rfl⟩ := Prod.mk.inj heq
    subst hsent
    obtain ⟨hopened, hrefused, hreplaced, hkept⟩ := Server.leaves_of_callWriteDisk hroot hcall
    rw [ReleaseSound, ← hbroken, or_iff_right hb, or_iff_right hbefore]
    by_cases hopens : Server.TempOpens cfg path (sentChunks data envs) w.writing x.fs
    · rw [or_iff_right (not_not_intro hopens)]
      have hstatus := hopened hopens
      cases houtage : w.outage with
      | before => exact absurd houtage hbefore
      | none =>
        have hrc : out.rc = 0 := hok (by rw [houtage]; exact hstatus)
        have hhonest : ReleaseHonest cfg path data out l' x.toShared x'.toShared ↔
            Server.held cfg path x'.fs = some data := ⟨fun h => h.1 hrc, fun h => ⟨fun _ => h, fun hne => absurd hrc hne⟩⟩
        rw [hhonest]
        by_cases hreplaces : Server.Replaces cfg path (sentChunks data envs) w.writing x.fs
        · rw [hreplaced hreplaces, Option.some.injEq, sentChunks, stored_eq_iff_lossless, ← sentChunks]
          simp [hreplaces]
        · simp [hkept hreplaces, hreplaces]
      | after =>
        obtain ⟨hrc, hdirty'⟩ := hfail (by rw [houtage]; nofun)
        have hhonest : ReleaseHonest cfg path data out l' x.toShared x'.toShared ↔
            Server.held cfg path x'.fs = Server.held cfg path x.fs :=
          ⟨fun h => (h.2 hrc).2, fun h => ⟨fun h₀ => absurd h₀ hrc, fun _ => ⟨hdirty', h⟩⟩⟩
        rw [hhonest]
        by_cases hreplaces : Server.Replaces cfg path (sentChunks data envs) w.writing x.fs
        · simp [hreplaced hreplaces, hreplaces, eq_comm]
        · simp [hkept hreplaces, hreplaces]
    · have hstatus : (received w.outage r' (.UNAVAILABLE, {})).1 ≠ .OK := by
        cases houtage : w.outage with
        | none => simp [received, hrefused hopens]
        | before | after => simp [received]
      obtain ⟨hrc, hdirty'⟩ := hfail hstatus
      exact iff_of_true ⟨fun h => absurd h hrc, fun _ => ⟨hdirty', hkept fun h => hopens h.1⟩⟩ (.inl hopens)

end Release

/-! ### Downloads -/

section Download

variable {cfg w} {α : Type} {path data : Bytes} {l l' : Client.Local Bytes} {x x' : Exchange} {envs : List TransferEnv}

/-- The room for each chunk of a download. -/
def cacheRooms (envs : List TransferEnv) (k : ℕ) : Option ℕ := (envs[k]?).bind TransferEnv.room

lemma writeChunks_none (msgs : List MetaContent) : Client.writeChunks path none msgs = .ret () := by
  induction msgs with
  | nil => rfl
  | cons msg msgs ih => exact ih

/-- The cache file receives the chunks as far as there is room. -/
lemma transfer_writeChunks {i : ℕ} {msgs : List MetaContent} {file : Bytes} {f : Unit → Client.Program Bytes α}
    {y : α × Client.Local Bytes × Exchange}
    (h : (Client.writeChunks path (some (i, file.length)) msgs >>= f).eval (transfer cfg w) envs l x = some y)
    (hcache : (l.entry path).cache = some i) (hfile : (l.entry path).inode i = file) : ∃ rest l₁,
      (f ()).eval (transfer cfg w) rest l₁ x = some y ∧
        (l₁.entry path).content = some (file ++ Chunks.stored (cacheRooms envs) (msgs.map MetaContent.b)) := by
  induction msgs generalizing envs l file with
  | nil => exact ⟨envs, l, h, by simp [Client.Entry.content, hcache, hfile, Chunks.stored]⟩
  | cons msg msgs ih =>
    obtain ⟨env, rest, good, l₁, rfl, hwrite, h₁⟩ := transfer_plain h rfl
    cases hwrite
    dsimp only [Prog.bind] at h₁
    have hrooms : (fun k => cacheRooms (env :: rest) (k + 1)) = cacheRooms rest := rfl
    have hroom : cacheRooms (env :: rest) 0 = env.room := rfl
    rw [List.map_cons, Chunks.stored, hrooms, hroom]
    by_cases hfits : Chunks.fits env.room msg.b = true
    · simp only [hfits, if_true] at h₁ ⊢
      rw [← List.length_append] at h₁
      obtain ⟨rest', l₂, hrest, hcontent⟩ := ih h₁ (by simpa using hcache) (by simp [hfile, Bytes.overlay_append])
      exact ⟨rest', l₂, hrest, by rw [hcontent, List.append_assoc]⟩
    · simp only [hfits] at h₁ ⊢
      rw [if_neg Bool.false_ne_true, if_neg Bool.false_ne_true, writeChunks_none] at h₁
      rw [if_neg Bool.false_ne_true]
      refine ⟨rest, _, h₁, ?_⟩
      rw [Client.Local.modify_entry_self, Client.Entry.setInode_content _ _ _ hcache, hfile, Bytes.overlay_append]

end Download

/-- The entry is the marker of a file that the server does not have, or comes with the whole file of that time. -/
def Recorded (path timestamp : Bytes) (content : Option Bytes) (fs : InodeFS) : Prop :=
  timestamp = localCreatFile ∧ Server.held cfg path fs = none ∨
    ∃ i, fs.node (Server.getServerFilepath cfg path false) = .ok (.file i) ∧ (fs.file i).mtim = timestamp ∧
      content = some (fs.file i).content

/-- Nothing is entered into `last_modified` that the cache file does not bear out. -/
def OpenHonest (path : Bytes) (stored : List Bytes) (content : Option Bytes) (fs : InodeFS) : Prop :=
  ∀ timestamp ∈ stored, Recorded cfg path timestamp content fs

/-- A local call succeeds. -/
def Succeeds (envs : List TransferEnv) (k : ℕ) : Prop := ∃ env, envs[k]? = some env ∧ env.fault = none

instance (envs : List TransferEnv) (k : ℕ) : Decidable (Succeeds envs k) :=
  match h : envs[k]? with
  | none => isFalse (by simp [Succeeds, h])
  | some env => decidable_of_iff (env.fault = none) (by simp [Succeeds, h])

/-- A download over the cache content `old` that answers at all says rightly that there is no file, or delivers the
whole of it, or breaks off. -/
def DownloadSound (path : Bytes) (old : Option Bytes) (envs : List TransferEnv) (fs : InodeFS) : Prop :=
  w.delivered ≠ some 0 →
    (¬ Server.Serves cfg path w.reading fs →
      Recorded cfg path localCreatFile (if Succeeds envs 2 then some [] else old) fs) ∧
    ∀ i, Server.Serves cfg path w.reading fs → fs.node (Server.getServerFilepath cfg path false) = .ok (.file i) →
      w.delivered = none → Server.reads w.reading 0 →
        Server.sentTime cfg path w.reading fs = (fs.file i).mtim ∧
          if Succeeds envs 1 then Lossless (fs.file i).content (Server.reads w.reading) (cacheRooms (envs.drop 2))
          else old = some (fs.file i).content

/-- The entry is good, or what replaces it is. Where an old entry is thrown away, six calls come before the download,
the last of them an `unlink` of the cache file. -/
def OpenSound (path : Bytes) (l : Client.Local Bytes) (envs : List TransferEnv) (fs : InodeFS) : Prop :=
  match (l.entry path).last_modified with
  | none => DownloadSound cfg w path (l.entry path).content (envs.drop 1) fs
  | some timestamp =>
    timestamp = localCreatFile ∨ (received w.stat_outage (Server.Stat cfg w.single w.sb path fs) {}).st_mtim = timestamp ∨
      DownloadSound cfg w path (if Succeeds envs 5 then none else (l.entry path).content) (envs.drop 6) fs

section Open

variable {cfg w} {α : Type} {path : Bytes} {l l' : Client.Local Bytes} {x x' : Exchange} {envs : List TransferEnv}
  {out : Client.Outcome}

lemma transfer_openHandle (h : (Client.openHandle path).eval (transfer cfg w) envs l x = some (out, l', x')) :
    x' = x ∧ l'.entry = l.entry := by
  rw [Client.openHandle_eq] at h
  obtain ⟨env, rest, r, l₁, rfl, hcall, h₁⟩ := transfer_plain h rfl
  obtain ⟨rfl, hx⟩ := Prog.eval_ret.mp h₁
  cases hx
  refine ⟨rfl, ?_⟩
  have hopen : (Client.LocalCall.openFile path).exec env.toEnv l = some (r, l') := hcall
  rcases Client.LocalCall.exec_openFile hopen with ⟨i, fd, -, -, -, -, -, rfl⟩ | ⟨e, -, rfl, -⟩ <;> rfl

/-- The local half of a download: the stream is opened, or not, and takes what it can. -/
lemma transfer_ofstream {msgs : List MetaContent} {f : Unit → Client.Program Bytes α} {env₀ : TransferEnv}
    {y : α × Client.Local Bytes × Exchange}
    (h : (Client.disk (.ofstream path) >>= fun ofile =>
      Client.writeChunks path (Option.map (fun i => (i, 0)) ofile) msgs >>= f).eval (transfer cfg w) envs l x = some y) :
    ∃ rest l₁, (f ()).eval (transfer cfg w) rest l₁ x = some y ∧
      (l₁.entry path).content = if Succeeds (env₀ :: envs) 1 then
        some (Chunks.stored (cacheRooms ((env₀ :: envs).drop 2)) (msgs.map MetaContent.b)) else (l.entry path).content := by
  obtain ⟨env, envs, ofile, l₁, rfl, hcall, h₁⟩ := transfer_plain h rfl
  have hofile : (Client.LocalCall.ofstream path).exec env.toEnv l = some (ofile, l₁) := hcall
  rcases Client.LocalCall.exec_ofstream hofile with ⟨hfault, rfl, rfl⟩ | ⟨hfault, rfl, rfl⟩
  · obtain ⟨rest, l₂, hrest, hcontent⟩ := @transfer_writeChunks cfg w α path _ x envs _ msgs [] f y h₁
      (by rw [Client.Local.modify_entry_self]; exact Client.Entry.openTrunc_cache _)
      (by rw [Client.Local.modify_entry_self]; exact Client.Entry.openTrunc_inode _)
    refine ⟨rest, l₂, hrest, ?_⟩
    rw [hcontent, if_pos ⟨env, rfl, hfault⟩]
    rfl
  · have hnone : (Client.writeChunks path none msgs >>= f).eval (transfer cfg w) envs l₁ x = some y := h₁
    rw [writeChunks_none] at hnone
    refine ⟨envs, l₁, hnone, ?_⟩
    rw [if_neg (by simp [Succeeds, hfault])]

/-- How a download ends: the messages and the status that arrive, the entries that are stored, and the cache content. -/
inductive DownloadEnds (old : Option Bytes) (envs : List TransferEnv) :
    List MetaContent → Bool → List Bytes → Option Bytes → Prop
  | nothing (ok : Bool) (content : Option Bytes) : DownloadEnds old envs [] ok [] content
  | broken (msg : MetaContent) (msgs : List MetaContent) (hexists : msg.file_exists = true) (content : Option Bytes) :
      DownloadEnds old envs (msg :: msgs) false [] content
  | whole (msg : MetaContent) (msgs : List MetaContent) (hexists : msg.file_exists = true) :
      DownloadEnds old envs (msg :: msgs) true [(msgs.getLastD msg).timestamp]
        (if Succeeds envs 1 then
          some (Chunks.stored (cacheRooms (envs.drop 2)) ((msg :: msgs).map MetaContent.b)) else old)
  | missing (msg : MetaContent) (msgs : List MetaContent) (hmissing : msg.file_exists = false) (ok : Bool) :
      DownloadEnds old envs (msg :: msgs) ok [localCreatFile] (if Succeeds envs 2 then some [] else old)

/-- A download, after its first call. -/
lemma transfer_download (h : (Client.download path).eval (transfer cfg w) envs l x = some (out, l', x')) :
    ∃ env msgs ok new, serveTransfer cfg w env x.toShared (.GetContent path) = some ((msgs, ok), x'.toShared) ∧
      x'.stored = x.stored ++ new ∧
        DownloadEnds (l.entry path).content envs msgs ok new (l'.entry path).content := by
  obtain ⟨env₀, envs, r, sh, rfl, hget, h₁⟩ := transfer_rpc h
  obtain ⟨msgs, ok⟩ := r
  cases msgs with
  | nil =>
    obtain ⟨rfl, hx⟩ := Prog.eval_ret.mp h₁
    cases hx
    exact ⟨env₀, [], ok, [], hget, (List.append_nil _).symm, .nothing ok _⟩
  | cons msg msgs =>
    dsimp only [Prog.bind] at h₁
    by_cases hexists : msg.file_exists = true
    · rw [if_pos hexists] at h₁
      obtain ⟨rest, l₁, h₂, hcontent⟩ := @transfer_ofstream cfg w _ path l _ envs _ _ env₀ _ h₁
      cases ok with
      | false =>
        obtain ⟨rfl, hx⟩ := Prog.eval_ret.mp h₂
        cases hx
        exact ⟨env₀, _, false, [], hget, (List.append_nil _).symm, .broken msg msgs hexists _⟩
      | true =>
        obtain ⟨env₂, rest, _, l₂, rfl, hset, h₃⟩ := transfer_disk h₂
        cases hset
        obtain ⟨env₃, rest, _, l₃, rfl, hclean, h₄⟩ := transfer_plain h₃ rfl
        cases hclean
        obtain ⟨rfl, hentry⟩ := transfer_openHandle h₄
        refine ⟨env₀, msg :: msgs, true, [(msgs.getLastD msg).timestamp], hget, rfl, ?_⟩
        have hcontent' : (l'.entry path).content = (l₁.entry path).content := by
          rw [hentry, Client.Local.modify_entry_self, Client.Local.modify_entry_self]
          rfl
        rw [hcontent', hcontent]
        exact .whole msg msgs hexists
    · rw [if_neg hexists] at h₁
      obtain ⟨env₁, envs, _, l₁, rfl, hset, h₂⟩ := transfer_disk h₁
      cases hset
      obtain ⟨env₂, envs, fd, l₂, rfl, hcall, h₃⟩ := transfer_plain h₂ rfl
      obtain ⟨env₃, envs, _, l₃, rfl, hclose, h₄⟩ := transfer_plain h₃ rfl
      obtain ⟨env₄, envs, _, l₄, rfl, hclean, h₅⟩ := transfer_plain h₄ rfl
      cases hclean
      obtain ⟨rfl, hentry⟩ := transfer_openHandle h₅
      refine ⟨env₀, msg :: msgs, ok, [localCreatFile], hget, rfl, ?_⟩
      have hcontent : (l'.entry path).content = (l₂.entry path).content := by
        rw [hentry, Client.Local.modify_entry_self, execDisk_close hclose]
        rfl
      have hcreat : (Client.LocalCall.creat path).exec env₂.toEnv (l.modify path fun e =>
        { e with last_modified := some localCreatFile }) = some (fd, l₂) := hcall
      have hends := @DownloadEnds.missing (l.entry path).content (env₀ :: env₁ :: env₂ :: env₃ :: env₄ :: envs) msg msgs
        (by simpa using hexists) ok
      rw [hcontent]
      rcases Client.LocalCall.exec_creat hcreat with ⟨_, hfault, -, -, -, rfl⟩ | ⟨e, -, rfl, hfault⟩
      · have hok : Succeeds (env₀ :: env₁ :: env₂ :: env₃ :: env₄ :: envs) 2 := ⟨env₂, rfl, hfault⟩
        rw [if_pos hok] at hends
        simpa using hends
      · have hfail : ¬ Succeeds (env₀ :: env₁ :: env₂ :: env₃ :: env₄ :: envs) 2 := by simp [Succeeds, hfault]
        rw [if_neg hfail] at hends
        simpa [Client.Entry.content] using hends

/-- What arrives of the messages that the server sends. -/
lemma serve_getContent {env : TransferEnv} {sh sh' : Server.Shared} {r : List MetaContent × Bool}
    (h : serveTransfer cfg w env sh (.GetContent path) = some (r, sh')) : ∃ msgs,
      (¬ Server.Serves cfg path w.reading sh.fs → msgs = [{ file_exists := false }]) ∧
        (Server.Serves cfg path w.reading sh.fs → msgs = ((Server.held cfg path sh.fs).elim [] fun data =>
          Chunks.readWhile (Server.reads w.reading) (Bytes.blocks BUFSIZE data)).map
            fun b => ⟨true, Server.sentTime cfg path w.reading sh.fs, b⟩) ∧
          r = w.delivered.elim (msgs, true) fun n => (msgs.take n, false) := by
  simp only [serveTransfer] at h
  split_ifs at h with hlost
  obtain ⟨msgs, hcall, heq⟩ := Option.map_eq_some_iff.mp h
  obtain ⟨hmissing, hserved⟩ := Server.sent_of_callGetContentDisk (by simpa using hlost) hcall
  exact ⟨msgs, hmissing, hserved, (Prod.mk.inj heq).1.symm⟩

section Honest

variable {old content : Option Bytes} {ok : Bool} {new : List Bytes} {fs : InodeFS}

/-- Without messages nothing is entered. -/
lemma openHonest_of_nothing (h : DownloadEnds old envs [] ok new content) : OpenHonest cfg path new content fs := by
  cases h
  exact nofun

/-- Nor is anything when the transfer breaks off. -/
lemma openHonest_of_broken {msg : MetaContent} {msgs : List MetaContent}
    (h : DownloadEnds old envs (msg :: msgs) false new content) (hexists : msg.file_exists = true) :
    OpenHonest cfg path new content fs := by
  cases h with
  | broken => exact nofun
  | missing _ _ hmissing =>
    rw [hexists] at hmissing
    cases hmissing

lemma openHonest_of_missing (h : DownloadEnds old envs [{ file_exists := false }] ok new content) :
    OpenHonest cfg path new content fs ↔
      Recorded cfg path localCreatFile (if Succeeds envs 2 then some [] else old) fs := by
  cases h with
  | broken _ _ hexists => cases hexists
  | whole _ _ hexists => cases hexists
  | missing => simp [OpenHonest]

/-- A file is entered rightly if its time is right and it has arrived whole. -/
lemma openHonest_of_whole {timestamp : Bytes} {reads : ℕ → Bool} {i : ℕ} {msgs : List MetaContent}
    (hnode : fs.node (Server.getServerFilepath cfg path false) = .ok (.file i))
    (hmsgs : msgs = (Chunks.readWhile reads (Bytes.blocks BUFSIZE (fs.file i).content)).map fun b => ⟨true, timestamp, b⟩)
    (hne : msgs ≠ []) (h : DownloadEnds old envs msgs true new content) :
    OpenHonest cfg path new content fs ↔ timestamp = (fs.file i).mtim ∧
      if Succeeds envs 1 then Lossless (fs.file i).content reads (cacheRooms (envs.drop 2))
      else old = some (fs.file i).content := by
  have hheld : Server.held cfg path fs = some (fs.file i).content := Server.held_of_node hnode
  have hall : ∀ msg ∈ msgs, msg.file_exists = true ∧ msg.timestamp = timestamp := by
    intro msg hmsg
    rw [hmsgs] at hmsg
    obtain ⟨b, -, rfl⟩ := List.mem_map.mp hmsg
    exact ⟨rfl, rfl⟩
  have hchunks : msgs.map MetaContent.b = Chunks.readWhile reads (Bytes.blocks BUFSIZE (fs.file i).content) := by
    rw [hmsgs, List.map_map]
    exact List.map_id _
  cases h with
  | nothing => exact absurd rfl hne
  | missing msg msgs hfalse =>
    rw [(hall msg (by simp)).1] at hfalse
    cases hfalse
  | whole msg msgs =>
    have htime : (msgs.getLastD msg).timestamp = timestamp := (hall _ List.getLastD_mem_cons).2
    rw [htime, hchunks]
    have hrecorded (content : Option Bytes) : OpenHonest cfg path [timestamp] content fs ↔
        timestamp = (fs.file i).mtim ∧ content = some (fs.file i).content := by
      simp [OpenHonest, Recorded, hheld, hnode, eq_comm]
    rw [hrecorded]
    refine and_congr Iff.rfl ?_
    split_ifs
    · rw [Option.some.injEq, stored_eq_iff_lossless]
    · exact Iff.rfl

end Honest

/-- A download enters nothing false into the table exactly if it is sound. -/
theorem openHonest_download (hstored : x.stored = [])
    (h : (Client.download path).eval (transfer cfg w) envs l x = some (out, l', x')) :
    OpenHonest cfg path x'.stored (l'.entry path).content x.fs ↔
      DownloadSound cfg w path (l.entry path).content envs x.fs := by
  obtain ⟨env, msgs', ok, new, hget, hnew, hends⟩ := transfer_download h
  rw [hnew, hstored, List.nil_append]
  obtain ⟨msgs, hmissing, hserved, hreply⟩ := serve_getContent hget
  have hnothing (hnil : msgs' = []) : OpenHonest cfg path new (l'.entry path).content x.fs :=
    openHonest_of_nothing (hnil ▸ hends)
  have harrived (hnil : msgs = []) : msgs' = [] := by
    rw [hnil] at hreply
    cases hdelivered : w.delivered with
    | none =>
      rw [hdelivered] at hreply
      exact (Prod.mk.inj hreply).1
    | some n =>
      rw [hdelivered] at hreply
      simpa using (Prod.mk.inj hreply).1
  by_cases hzero : w.delivered = some 0
  · rw [hzero] at hreply
    exact iff_of_true (hnothing (Prod.mk.inj hreply).1) fun hne => absurd hzero hne
  rw [DownloadSound, imp_iff_right hzero]
  by_cases hserves : Server.Serves cfg path w.reading x.fs
  · have hmsgs := hserved hserves
    by_cases hfile : ∃ i, x.fs.node (Server.getServerFilepath cfg path false) = .ok (.file i)
    · obtain ⟨i, hnode⟩ := hfile
      have hothers : (¬ Server.Serves cfg path w.reading x.fs →
          Recorded cfg path localCreatFile (if Succeeds envs 2 then some [] else (l.entry path).content) x.fs) ↔ True :=
        iff_true_intro fun h => absurd hserves h
      have honly {P : ℕ → Prop} : (∀ j, Server.Serves cfg path w.reading x.fs →
          x.fs.node (Server.getServerFilepath cfg path false) = .ok (.file j) → P j) ↔ P i := by
        refine ⟨fun h => h i hserves hnode, fun h j _ hj => ?_⟩
        rw [hnode] at hj
        cases hj
        exact h
      rw [hothers, true_and, honly]
      rw [Server.held_of_node hnode] at hmsgs
      have hempty : Chunks.readWhile (Server.reads w.reading) (Bytes.blocks BUFSIZE (x.fs.file i).content) = [] ↔
          Server.reads w.reading 0 = false := Chunks.readWhile_eq_nil_iff (Bytes.blocks_ne_nil _ _)
      by_cases hread : Server.reads w.reading 0 = true
      · have hne : msgs ≠ [] := by
          rw [hmsgs]
          simpa [hempty] using hread
        rw [imp_iff_right hread]
        cases hdelivered : w.delivered with
        | none =>
          rw [hdelivered] at hreply
          cases hreply
          rw [imp_iff_right rfl]
          exact openHonest_of_whole hnode hmsgs hne hends
        | some n =>
          refine iff_of_true ?_ nofun
          rw [hdelivered] at hreply
          obtain ⟨rfl, rfl⟩ := Prod.mk.inj hreply
          cases hsome : msgs.take n with
          | nil => exact hnothing hsome
          | cons msg rest =>
            have hmem : msg ∈ msgs := List.mem_of_mem_take (by rw [hsome]; simp)
            rw [hsome] at hends
            refine openHonest_of_broken hends ?_
            rw [hmsgs] at hmem
            obtain ⟨b, -, rfl⟩ := List.mem_map.mp hmem
            rfl
      · refine iff_of_true (hnothing ?_) fun _ h => absurd h hread
        apply harrived
        rw [hmsgs]
        simpa [hempty] using hread
    · have hheld : Server.held cfg path x.fs = none := by
        unfold Server.held
        split
        · rename_i i hnode
          exact absurd ⟨i, hnode⟩ hfile
        · rfl
      rw [hheld] at hmsgs
      exact iff_of_true (hnothing (harrived hmsgs)) ⟨fun h => absurd hserves h, fun i _ hnode => absurd ⟨i, hnode⟩ hfile⟩
  · obtain rfl := hmissing hserves
    have hfirst : msgs' = [{ file_exists := false }] := by
      cases hdelivered : w.delivered with
      | none =>
        rw [hdelivered] at hreply
        exact (Prod.mk.inj hreply).1
      | some n =>
        rw [hdelivered] at hreply hzero
        cases n with
        | zero => exact absurd rfl hzero
        | succ n => simpa using (Prod.mk.inj hreply).1
    rw [hfirst] at hends
    rw [openHonest_of_missing hends]
    exact ⟨fun h => ⟨fun _ => h, fun i h => absurd h hserves⟩, fun h => h.1 hserves⟩

/-- An open enters nothing false into the table exactly if its download, where it makes one, is sound. -/
theorem openHonest_iff (hstored : x.stored = [])
    (h : (Client.afsOpen path).eval (transfer cfg w) envs l x = some (out, l', x')) :
    OpenHonest cfg path x'.stored (l'.entry path).content x.fs ↔ OpenSound cfg w path l envs x.fs := by
  have hopened {l₁ : Client.Local Bytes} {rest : List TransferEnv}
      (h : (Client.openHandle path).eval (transfer cfg w) rest l₁ x = some (out, l', x')) :
      OpenHonest cfg path x'.stored (l'.entry path).content x.fs := by
    rw [(transfer_openHandle h).1, hstored]
    exact nofun
  obtain ⟨env₀, envs, count, l₁, rfl, hcount, h₁⟩ := transfer_plain h rfl
  cases hcount
  cases hlast : (l.entry path).last_modified with
  | none =>
    simp only [hlast] at h₁
    have hdownload : (Client.download path).eval (transfer cfg w) envs l x = some (out, l', x') := h₁
    rw [OpenSound, hlast]
    exact openHonest_download hstored hdownload
  | some timestamp =>
    simp only [hlast] at h₁
    rw [OpenSound, hlast]
    dsimp only
    obtain ⟨env₁, envs, last, l₂, rfl, hget, h₂⟩ := transfer_plain h₁ rfl
    cases hget
    rw [hlast, Option.getD_some] at h₂
    dsimp only [Prog.bind] at h₂
    by_cases hmarker : timestamp = localCreatFile
    · rw [if_pos hmarker] at h₂
      exact iff_of_true (hopened h₂) (.inl hmarker)
    rw [if_neg hmarker] at h₂
    rw [or_iff_right hmarker]
    obtain ⟨env₂, envs, stat_content, sh, rfl, hstat, h₃⟩ := transfer_rpc h₂
    cases hstat
    obtain ⟨env₃, envs, _, l₃, rfl, hget, h₄⟩ := transfer_plain h₃ rfl
    cases hget
    rw [hlast, Option.getD_some] at h₄
    dsimp only [Prog.bind] at h₄
    by_cases hstat : (received w.stat_outage (Server.Stat cfg w.single w.sb path x.fs) {}).st_mtim = timestamp
    · rw [if_pos hstat] at h₄
      exact iff_of_true (hopened h₄) (.inl hstat)
    rw [if_neg hstat] at h₄
    rw [or_iff_right hstat]
    obtain ⟨env₄, envs, _, l₄, rfl, herase, h₅⟩ := transfer_plain h₄ rfl
    cases herase
    obtain ⟨env₅, envs, _, l₅, rfl, hcall, h₆⟩ := transfer_plain h₅ rfl
    have hunlink : (Client.LocalCall.unlink path).exec env₅.toEnv
      (l.modify path fun e => { e with last_modified := none }) = some (_, l₅) := hcall
    have hdownload : (Client.download path).eval (transfer cfg w) envs l₅ x = some (out, l', x') := h₆
    rw [openHonest_download hstored hdownload]
    have hcontent : (l₅.entry path).content = if Succeeds (env₀ :: env₁ :: env₂ :: env₃ :: env₄ :: env₅ :: envs) 5
        then none else (l.entry path).content := by
      rcases Client.LocalCall.exec_unlink hunlink with ⟨hfault, -, rfl⟩ | ⟨e, -, rfl, hfault | hnone⟩
      · rw [if_pos ⟨env₅, rfl, hfault⟩, Client.Local.modify_entry_self]
        rfl
      · rw [if_neg (by simp [Succeeds, hfault]), Client.Local.modify_entry_self]
        rfl
      · have hnone : (l.entry path).cache = none := by simpa using hnone
        simp [Client.Entry.content, hnone]
    rw [hcontent]
    rfl

end Open

/-- Broken transfers are told from whole ones exactly in the transfers that are sound. -/
theorem transfers_iff (hroot : (0 : UInt8) ∉ cfg.AFS_ROOT_DIR) :
    (∀ w fuel path fh data envs l sh out l' x', (l.entry path).dirty = true → (l.entry path).content = some data →
      (Client.afsRelease fuel path fh).eval (transfer cfg w) envs l ⟨sh, []⟩ = some (out, l', x') →
        (ReleaseHonest cfg path data out l' sh x'.toShared ↔ ReleaseSound cfg w path data envs sh.fs)) ∧
    ∀ w path envs l sh out l' x',
      (Client.afsOpen path).eval (transfer cfg w) envs l ⟨sh, []⟩ = some (out, l', x') →
        (OpenHonest cfg path x'.stored (l'.entry path).content sh.fs ↔ OpenSound cfg w path l envs sh.fs) :=
  ⟨fun _ _ _ _ _ _ _ _ _ _ _ hdirty hcontent h => releaseHonest_iff hroot hdirty hcontent h,
    fun _ _ _ _ _ _ _ _ h => openHonest_iff rfl h⟩

/-- A client with three bytes to upload. -/
def unsentClient : Client.Local Bytes :=
  { entry := fun _ => { is_dirty := some true, cache := some 0, inode := fun _ => Bytes.ascii "abc", next := 1 } }

/-- A short upload to a server whose disk has this much room, and a short download from it. -/
def shortTransfer (room : Option ℕ) : Transfer :=
  { writing := List.replicate 10 { Server.StepEnv.quiet 1 with room }, reading := List.replicate 3 (.quiet 1) }

/-- The server with the three bytes at `/f`. -/
def servingState : Server.Shared :=
  ((Server.callWriteDisk Server.exampleConfig 0 [⟨Bytes.ascii "/f", Bytes.ascii "abc"⟩] (shortTransfer none).writing
    Server.exampleState.toShared).map Prod.snd).getD Server.exampleState.toShared

theorem transfers_iff_whole :
    (∃ out l' x', (Client.afsRelease 1 (Bytes.ascii "/f") 3).eval (transfer Server.exampleConfig (shortTransfer none))
        (List.replicate 8 ({} : TransferEnv)) unsentClient ⟨Server.exampleState.toShared, []⟩ = some (out, l', x') ∧
      ReleaseSound Server.exampleConfig (shortTransfer none) (Bytes.ascii "/f") (Bytes.ascii "abc")
        (List.replicate 8 ({} : TransferEnv)) Server.exampleState.fs) ∧
    ∃ out l' x', (Client.afsOpen (Bytes.ascii "/f")).eval (transfer Server.exampleConfig (shortTransfer none))
        (List.replicate 7 ({} : TransferEnv)) {} ⟨servingState, []⟩ = some (out, l', x') ∧
      OpenSound Server.exampleConfig (shortTransfer none) (Bytes.ascii "/f") {} (List.replicate 7 ({} : TransferEnv))
        servingState.fs := by
  have hrelease : ((Client.afsRelease 1 (Bytes.ascii "/f") 3).eval (transfer Server.exampleConfig (shortTransfer none))
      (List.replicate 8 ({} : TransferEnv)) unsentClient ⟨Server.exampleState.toShared, []⟩).map
        (fun x => (x.1.rc, Server.held Server.exampleConfig (Bytes.ascii "/f") x.2.2.fs)) =
          some (0, some (Bytes.ascii "abc")) := by
    decide +kernel
  have hopen : ((Client.afsOpen (Bytes.ascii "/f")).eval (transfer Server.exampleConfig (shortTransfer none))
      (List.replicate 7 ({} : TransferEnv)) {} ⟨servingState, []⟩).map
        (fun x => (x.2.2.stored, (x.2.1.entry (Bytes.ascii "/f")).content)) =
          some ([List.replicate 16 1], some (Bytes.ascii "abc")) := by
    decide +kernel
  obtain ⟨hreleases, hopens⟩ := @transfers_iff Server.exampleConfig (by decide)
  constructor
  · obtain ⟨⟨out, l', x'⟩, hrun, hresult⟩ := Option.map_eq_some_iff.mp hrelease
    obtain ⟨hrc, hheld⟩ := Prod.mk.inj hresult
    refine ⟨out, l', x', hrun, (hreleases _ _ _ _ _ _ _ _ _ _ _ rfl rfl hrun).mp ⟨fun _ => hheld, fun hne => absurd hrc hne⟩⟩
  · obtain ⟨⟨out, l', x'⟩, hrun, hresult⟩ := Option.map_eq_some_iff.mp hopen
    obtain ⟨hstored, hcontent⟩ := Prod.mk.inj hresult
    refine ⟨out, l', x', hrun, (hopens _ _ _ _ _ _ _ _ hrun).mp ?_⟩
    rw [OpenHonest, show x'.stored = _ from hstored, show (l'.entry (Bytes.ascii "/f")).content = _ from hcontent]
    intro timestamp hmem
    obtain rfl := List.mem_singleton.mp hmem
    exact .inr ⟨3, rfl, by decide +kernel, by decide +kernel⟩

/-- A release whose first read fails, one of a file that the server's disk has no room for, and an open on a full disk
all return 0, and none of the copies is whole. -/
theorem not_transfers_short :
    (∃ out l' x', (Client.afsRelease 1 (Bytes.ascii "/f") 3).eval (transfer Server.exampleConfig (shortTransfer none))
        (List.replicate 3 ({} : TransferEnv) ++ ({ fault := some Errno.EIO } : TransferEnv) :: List.replicate 3 ({} : TransferEnv))
        unsentClient ⟨Server.exampleState.toShared, []⟩ = some (out, l', x') ∧ out.rc = 0 ∧
      ¬ ReleaseHonest Server.exampleConfig (Bytes.ascii "/f") (Bytes.ascii "abc") out l' Server.exampleState.toShared
        x'.toShared) ∧
    (∃ out l' x', (Client.afsRelease 1 (Bytes.ascii "/f") 3).eval (transfer Server.exampleConfig (shortTransfer (some 1)))
        (List.replicate 8 ({} : TransferEnv)) unsentClient ⟨Server.exampleState.toShared, []⟩ = some (out, l', x') ∧
          out.rc = 0 ∧
      ¬ ReleaseHonest Server.exampleConfig (Bytes.ascii "/f") (Bytes.ascii "abc") out l' Server.exampleState.toShared
        x'.toShared) ∧
    ∃ out l' x', (Client.afsOpen (Bytes.ascii "/f")).eval (transfer Server.exampleConfig (shortTransfer none))
        (List.replicate 3 ({} : TransferEnv) ++ ({ room := some 1 } : TransferEnv) :: List.replicate 3 ({} : TransferEnv))
        {} ⟨servingState, []⟩ = some (out, l', x') ∧ out.rc = 0 ∧
      ¬ OpenHonest Server.exampleConfig (Bytes.ascii "/f") x'.stored (l'.entry (Bytes.ascii "/f")).content
        servingState.fs := by
  have hunread : ((Client.afsRelease 1 (Bytes.ascii "/f") 3).eval (transfer Server.exampleConfig (shortTransfer none))
      (List.replicate 3 ({} : TransferEnv) ++ ({ fault := some Errno.EIO } : TransferEnv) :: List.replicate 3 ({} : TransferEnv))
      unsentClient ⟨Server.exampleState.toShared, []⟩).map
        (fun x => (x.1.rc, Server.held Server.exampleConfig (Bytes.ascii "/f") x.2.2.fs)) = some (0, none) := by
    decide +kernel
  have hfull : ((Client.afsRelease 1 (Bytes.ascii "/f") 3).eval (transfer Server.exampleConfig (shortTransfer (some 1)))
      (List.replicate 8 ({} : TransferEnv)) unsentClient ⟨Server.exampleState.toShared, []⟩).map
        (fun x => (x.1.rc, Server.held Server.exampleConfig (Bytes.ascii "/f") x.2.2.fs)) =
          some (0, some (Bytes.ascii "a")) := by
    decide +kernel
  have hopen : ((Client.afsOpen (Bytes.ascii "/f")).eval (transfer Server.exampleConfig (shortTransfer none))
      (List.replicate 3 ({} : TransferEnv) ++ ({ room := some 1 } : TransferEnv) :: List.replicate 3 ({} : TransferEnv))
      {} ⟨servingState, []⟩).map
        (fun x => (x.1.rc, x.2.2.stored, (x.2.1.entry (Bytes.ascii "/f")).content)) =
          some (0, [List.replicate 16 1], some (Bytes.ascii "a")) := by
    decide +kernel
  refine ⟨?_, ?_, ?_⟩
  · obtain ⟨⟨out, l', x'⟩, hrun, hresult⟩ := Option.map_eq_some_iff.mp hunread
    obtain ⟨hrc, hheld⟩ := Prod.mk.inj hresult
    refine ⟨out, l', x', hrun, hrc, fun h => ?_⟩
    exact absurd ((h.1 hrc).symm.trans hheld) (by decide)
  · obtain ⟨⟨out, l', x'⟩, hrun, hresult⟩ := Option.map_eq_some_iff.mp hfull
    obtain ⟨hrc, hheld⟩ := Prod.mk.inj hresult
    refine ⟨out, l', x', hrun, hrc, fun h => ?_⟩
    exact absurd ((h.1 hrc).symm.trans hheld) (by decide)
  · obtain ⟨⟨out, l', x'⟩, hrun, hresult⟩ := Option.map_eq_some_iff.mp hopen
    obtain ⟨hrc, hresult⟩ := Prod.mk.inj hresult
    obtain ⟨hstored, hcontent⟩ := Prod.mk.inj hresult
    refine ⟨out, l', x', hrun, hrc, fun h => ?_⟩
    have hheld : Server.held Server.exampleConfig (Bytes.ascii "/f") servingState.fs = some (Bytes.ascii "abc") := by
      decide +kernel
    have hmem : List.replicate 16 1 ∈ x'.stored := by
      rw [show x'.stored = _ from hstored]
      simp
    obtain ⟨-, hnone⟩ | ⟨i, hnode, -, hcopy⟩ := h _ hmem
    · rw [hheld] at hnone
      cases hnone
    · rw [show (l'.entry (Bytes.ascii "/f")).content = _ from hcontent, ← Server.held_of_node hnode, hheld] at hcopy
      exact absurd hcopy (by decide)

end AFSv1
