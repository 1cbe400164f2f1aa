import AFSv1.Client.Alone

/-! Several processes on one client. They share its tables, its cache files and its descriptors, and their operations
interleave at every call. The question is whether an upload in flight can clear the flag of a later write. -/
namespace AFSv1.Client
open Foundations Tables

variable {A Path : Type} [DecidableEq A] [DecidableEq Path]

/-- A process: the handles it holds open, and its operations so far with their outcomes. -/
structure Process (Path : Type) where
  handles : List (Path × ℕ) := []
  calls : List (Operation Path × Outcome) := []

namespace Process

/-- FUSE passes on an operation only for a handle that is open, and closes one with its release. -/
def begin (op : Operation Path) (t : Process Path) : Option (Process Path) :=
  match op, op.handle with
  | .release _ _ _, some h => if h ∈ t.handles then some { t with handles := t.handles.erase h } else none
  | _, some h => if h ∈ t.handles then some t else none
  | _, none => some t

def finish (op : Operation Path) (out : Outcome) (t : Process Path) : Process Path :=
  { t with
    calls := t.calls ++ [(op, out)]
    handles := match op with
      | .open path => if out.rc = 0 then (path, out.fh) :: t.handles else t.handles
      | _ => t.handles }

end Process

/-- What the processes share: the client's tables and files, and the server. -/
abbrev Shelf (Path : Type) := Local Path × Remote Path

/-- The processes on one client. -/
def processes (Path : Type) [DecidableEq Path] :
    Machine (Operation Path) (Call Path) Call.Answer Outcome Env (Process Path) (Shelf Path) where
  exec env c t G := (c.exec env G.1 G.2).map fun r => (r.1, t, r.2)
  prog := Operation.program
  begin := Process.begin
  finish := Process.finish
  crash _ _ := {}

abbrev Desk (A Path : Type) := System A (Operation Path) (Call Path) Call.Answer Outcome (Process Path) (Shelf Path)

variable (path : Path) (i : ℕ)

/-- The cached content, in the inode `i`. -/
def text (G : Shelf Path) : Bytes := (G.1.entry path).inode i

/-- The server's content. -/
def stored (G : Shelf Path) : Option Bytes := (G.2.files path).map Version.content

def flagged (G : Shelf Path) : Bool := (G.1.entry path).dirty

/-- An `afs_write` has set the flag and not yet written its data. -/
def InGap : Option (Call Path) → Prop
  | some (.disk (.pwrite _ _ _)) => True
  | _ => False

/-- An `afs_release` has read a part of the cache file and not yet cleared the flag. -/
def InWindow : Option (Call Path) → Prop
  | some (.disk (.ifstreamRead q _ pos)) => q = path ∧ 0 < pos
  | some (.rpc .writerWrite) => True
  | some (.rpc (.Write q _ _)) => q = path
  | some (.disk (.isDirtySet q false)) => q = path
  | _ => False

/-! ### One process among others -/

/-- The cache file is in place, and the server has its content unless the flag is set. -/
structure Ready (G : Shelf Path) : Prop where
  cache : (G.1.entry path).cache = some i
  saved : flagged path G = true ∨ stored path G = some (text path i G)

/-- Whether a release still has to find the flag cleared or to clear it. -/
def duty (Path : Type) : Bookkeeping (Operation Path) (Call Path) Call.Answer Outcome (Process Path) Bool where
  begin op _ owes := match op with
    | .release _ _ _ => true
    | _ => owes
  call c r _ owes := match c, r with
    | .disk (.isDirtyGet _), false => false
    | .disk (.isDirtySet _ false), _ => false
    | _, _ => owes

/-- What a process asks for: the calls of writes and releases of the path, and only whole uploads. -/
def Asks (t : Process Path) (G : Shelf Path) : Call Path → Prop
  | .rpc (.Write q chunks broken) => q = path ∧ broken = false ∧ chunks ≠ [] ∧ chunks.flatten = text path i G
  | .rpc .writerWrite => True
  | .rpc _ => False
  | .disk (.isDirtySet q d) => q = path ∧ (d = true → ∃ fh, (path, fh) ∈ t.handles)
  | .disk (.isDirtyGet q) => q = path
  | .disk (.lastModifiedSet _ _) | .disk (.close _) | .disk (.ifstream _) | .disk (.ifstreamRead _ _ _)
  | .disk (.pwrite _ _ _) | .disk .diverge => True
  | .disk _ => False

/-- No fault and no outage. -/
def Env.Smooth (env : Env) : Prop := env.fault = none ∧ env.outage = .none

def deskLogic : Prog.Logic (Call Path) Call.Answer Env (Process Path × Bool) (Shelf Path) where
  exec := ((processes Path).track (duty Path)).exec
  ok env _ _ _ := env.Smooth
  rely next _ G G' := (Ready path i G → Ready path i G') ∧ (InGap next → flagged path G = true → flagged path G' = true) ∧
    (InWindow path next → text path i G' = text path i G ∧
      (stored path G = some (text path i G) → stored path G' = some (text path i G')))
  inv next l G := Ready path i G ∧ (next = none → l.2 = false)
  pre c l G := Asks path i l.1 G c
  rely_refl _ _ _ := ⟨id, fun _ => id, fun _ => ⟨rfl, id⟩⟩
  rely_trans _ _ _ _ _ h h' := ⟨h'.1 ∘ h.1, fun hgap => h'.2.1 hgap ∘ h.2.1 hgap, fun hwin =>
    ⟨(h'.2.2 hwin).1.trans (h.2.2 hwin).1, (h'.2.2 hwin).2 ∘ (h.2.2 hwin).2⟩⟩
  inv_call _ _ _ h := ⟨h.1, nofun⟩

variable {path i} {l l' : Process Path × Bool} {G G' : Shelf Path} {α : Type}
  {post : α → Process Path × Bool → Shelf Path → Prop}

lemma desk_exec {env : Env} {c : Call Path} {r : c.Answer}
    (h : (deskLogic path i).exec env c l G = some (r, l', G')) :
    c.exec env G.1 G.2 = some (r, G'.1, G'.2) ∧ l' = (l.1, (duty Path).call c r l.1 l.2) := by
  obtain ⟨⟨r₁, t, G₁⟩, hexec, hx⟩ := Option.map_eq_some_iff.mp h
  cases hx
  obtain ⟨⟨r₂, G₂⟩, hcall, hx⟩ := Option.map_eq_some_iff.mp hexec
  cases hx
  exact ⟨hcall, rfl⟩

/-- A call on the shared files. -/
lemma desk_disk {c : LocalCall Path} {k : c.Answer → Program Path α}
    (h : ∀ G₁, (deskLogic path i).rely (some (.disk c)) l G G₁ → Ready path i G₁ → Asks path i l.1 G₁ (.disk c) ∧
      ∀ env r l₁, env.Smooth → c.exec env G₁.1 = some (r, l₁) →
        Ready path i (l₁, G₁.2) ∧ ((k r).next = none → (duty Path).call (.disk c) r l.1 l.2 = false) ∧
          (k r).Safe (deskLogic path i) post (l.1, (duty Path).call (.disk c) r l.1 l.2) (l₁, G₁.2)) :
    Prog.Safe (deskLogic path i) post (.call (.disk c) k) l G := by
  refine fun G₁ hrely hinv => ⟨(h G₁ hrely hinv.1).1, fun env r l' G' hsmooth hexec => ?_⟩
  obtain ⟨hcall, rfl⟩ := desk_exec hexec
  obtain ⟨⟨r₁, l₁⟩, hlocal, hx⟩ := Option.map_eq_some_iff.mp hcall
  obtain ⟨rfl, hG'⟩ := Prod.mk.inj hx
  obtain rfl : (l₁, G₁.2) = G' := hG'
  obtain ⟨hready, howes, hsafe⟩ := (h G₁ hrely hinv.1).2 env r₁ l₁ hsmooth hlocal
  exact ⟨⟨hready, howes⟩, hsafe⟩

/-- A remote call. -/
lemma desk_rpc {c : RemoteCall Path} {k : c.Answer → Program Path α}
    (h : ∀ G₁, (deskLogic path i).rely (some (.rpc c)) l G G₁ → Ready path i G₁ → Asks path i l.1 G₁ (.rpc c) ∧
      ∀ env r g, env.Smooth → c.exec env G₁.2 = some (r, g) →
        Ready path i (G₁.1, g) ∧ (k r).next ≠ none ∧ (k r).Safe (deskLogic path i) post l (G₁.1, g)) :
    Prog.Safe (deskLogic path i) post (.call (.rpc c) k) l G := by
  refine fun G₁ hrely hinv => ⟨(h G₁ hrely hinv.1).1, fun env r l' G' hsmooth hexec => ?_⟩
  obtain ⟨hcall, rfl⟩ := desk_exec hexec
  obtain ⟨⟨r₁, g⟩, hremote, hx⟩ := Option.map_eq_some_iff.mp hcall
  obtain ⟨rfl, hG'⟩ := Prod.mk.inj hx
  obtain rfl : (G₁.1, g) = G' := hG'
  obtain ⟨hready, hnext, hsafe⟩ := (h G₁ hrely hinv.1).2 env r₁ g hsmooth hremote
  exact ⟨⟨hready, fun hnone => absurd hnone hnext⟩, hsafe⟩

omit [DecidableEq Path] in
/-- Only the entry of the path matters. -/
lemma Ready.congr {loc : Local Path} (h : Ready path i G) (hentry : loc.entry path = G.1.entry path) :
    Ready path i (loc, G.2) := by
  refine ⟨by rw [hentry]; exact h.cache, ?_⟩
  simpa only [flagged, text, stored, hentry] using h.saved

/-- The end of an operation. -/
def Over (_ : Outcome) (_ : Process Path × Bool) (_ : Shelf Path) : Prop := True

/-- The file does not change while it is read, so the chunks are the file. -/
lemma desk_upload {fuel pos : ℕ} {chunks : List Bytes} {k : List Bytes × Bool → Program Path Outcome}
    (hchunks : chunks.flatten = (text path i G).take pos) (hpos : chunks = [] ↔ pos = 0)
    (hk : ∀ chunks G, chunks ≠ [] → chunks.flatten = text path i G →
      (k (chunks, false)).Safe (deskLogic path i) Over l G)
    (hnext : ∀ chunks, InWindow path (k (chunks, false)).next) :
    Prog.Safe (deskLogic path i) Over (upload path i fuel pos chunks >>= k) l G := by
  induction fuel generalizing G pos chunks with
  | zero => exact desk_disk fun G₁ _ _ => ⟨trivial, fun _ r => r.elim⟩
  | succ fuel ih =>
    refine desk_disk fun G₁ hrely₁ hready₁ => ⟨trivial, fun env₁ r₁ l₁ hsmooth hread => ?_⟩
    obtain ⟨rfl, hr⟩ := LocalCall.exec_ifstreamRead hread
    obtain rfl : r₁ = some (((text path i G₁).drop pos).take BUFSIZE) := by
      rcases hr with ⟨-, hr⟩ | ⟨hfault, -⟩
      · exact hr
      · exact absurd hsmooth.1 hfault
    have hchunks₁ : chunks.flatten = (text path i G₁).take pos := by
      by_cases hzero : pos = 0
      · subst hzero
        simp [hpos.mpr rfl]
      · rw [(hrely₁.2.2 ⟨rfl, Nat.pos_of_ne_zero hzero⟩).1, hchunks]
    refine ⟨hready₁, (fun h => by cases h), desk_rpc fun G₂ hrely₂ hready₂ => ⟨trivial, fun env₂ sent g₂ hsmooth₂ hsend => ?_⟩⟩
    have htext₂ : text path i G₂ = text path i G₁ := (hrely₂.2.2 trivial).1
    obtain ⟨rfl, rfl⟩ : sent = true ∧ g₂ = G₂.2 := by
      simp only [RemoteCall.exec, hsmooth₂.2, decide_true, Option.some.injEq, Prod.mk.injEq] at hsend
      exact ⟨hsend.1.symm, hsend.2.symm⟩
    set buf := ((text path i G₁).drop pos).take BUFSIZE with hbuf
    have hnew : (chunks ++ [buf]).flatten = (text path i G₁).take (pos + buf.length) := by
      rw [List.flatten_append, hchunks₁, List.take_add]
      simp [hbuf]
    dsimp only [Prog.bind]
    by_cases hshort : buf.length < BUFSIZE
    · rw [if_pos rfl, if_pos hshort]
      refine ⟨hready₂, fun hnone => ?_, hk _ _ (by simp) ?_⟩
      · have hwindow := hnext (chunks ++ [buf])
        rw [show (k (chunks ++ [buf], false)).next = none from hnone] at hwindow
        exact hwindow
      · rw [hnew, List.take_of_length_le, ← htext₂]
        simp only [hbuf, List.length_take, List.length_drop] at hshort ⊢
        omega
    · rw [if_pos rfl, if_neg hshort]
      have hlong : 0 < buf.length := by
        simp only [BUFSIZE] at hshort
        omega
      have hnext₂ : (upload path i fuel (pos + buf.length) (chunks ++ [buf]) >>= k).next ≠ none := by
        intro h
        cases fuel <;> cases h
      refine ⟨hready₂, hnext₂, ih ?_ ?_⟩
      · rw [hnew, ← htext₂]
      · simp only [List.append_eq_nil_iff, List.cons_ne_self, and_false, false_iff]
        omega

/-- A release sends the file as it is when the server gets it, and clears the flag. -/
lemma desk_afsRelease (fuel fh : ℕ) (t : Process Path) :
    (afsRelease fuel path fh).Safe (deskLogic path i) Over (t, true) G := by
  refine desk_disk fun G₁ _ hready₁ => ⟨trivial, fun env₁ r₁ l₁ _ hclose => ?_⟩
  have hready₁' : Ready path i (l₁, G₁.2) := by
    refine hready₁.congr ?_
    rcases LocalCall.exec_close hclose with ⟨-, -, rfl⟩ | ⟨-, -, rfl⟩ <;> rfl
  refine ⟨hready₁', (fun h => by cases h), desk_disk fun G₂ _ hready₂ => ⟨rfl, fun env₂ dirty l₂ _ hget => ?_⟩⟩
  cases hget
  cases hdirty : (G₂.1.entry path).dirty with
  | false => exact ⟨hready₂, fun _ => rfl, fun _ _ _ => trivial⟩
  | true =>
    refine ⟨hready₂, (fun h => by cases h), desk_disk fun G₃ _ hready₃ => ⟨trivial, fun env₃ j l₃ hsmooth₃ hopen => ?_⟩⟩
    obtain ⟨rfl, hj⟩ := LocalCall.exec_ifstream hopen
    obtain rfl : j = some i := by
      rcases hj with ⟨-, hj⟩ | ⟨-, hfault⟩
      · rw [hj, hready₃.cache]
      · exact absurd hsmooth₃.1 hfault
    refine ⟨hready₃, (fun h => by cases fuel <;> cases h), ?_⟩
    refine desk_upload (by simp) (by simp) (fun chunks G₄ hne hflat => ?_) fun _ => rfl
    refine desk_rpc fun G₅ hrely₅ hready₅ => ?_
    have htext₅ : text path i G₅ = text path i G₄ := (hrely₅.2.2 rfl).1
    refine ⟨⟨rfl, rfl, hne, by rw [hflat, htext₅]⟩, fun env₅ r₅ g₅ hsmooth₅ hwrite => ?_⟩
    obtain ⟨status, reply⟩ := r₅
    have hok : status = .OK := by
      simp only [RemoteCall.exec, hsmooth₅.2, reduceCtorEq, Bool.false_eq_true, or_self, if_false, if_true, if_neg hne] at hwrite
      split_ifs at hwrite
      cases hwrite
      rfl
    subst hok
    obtain ⟨-, -, hfresh, rfl, -⟩ := RemoteCall.exec_Write_ok hwrite hne
    have hstored : stored path (G₅.1, G₅.2.publish path ⟨chunks.flatten, env₅.now⟩ hfresh) = some (text path i G₅) := by
      simp [stored, Remote.publish, hflat, htext₅]
    refine ⟨⟨hready₅.cache, .inr hstored⟩, (fun h => by cases h), desk_disk fun G₆ hrely₆ hready₆ => ?_⟩
    have hstored₆ : stored path G₆ = some (text path i G₆) := (hrely₆.2.2 rfl).2 hstored
    refine ⟨⟨rfl, fun h => by cases h⟩, fun env₆ r₆ l₆ _ hclear => ?_⟩
    cases hclear
    refine ⟨⟨by simpa using hready₆.cache, .inr (by simpa [stored, text] using hstored₆)⟩, (fun h => by cases h), ?_⟩
    refine desk_disk fun G₇ _ hready₇ => ⟨trivial, fun env₇ r₇ l₇ _ hset => ?_⟩
    cases hset
    exact ⟨⟨by simpa using hready₇.cache, by simpa [flagged, stored, text, Entry.dirty] using hready₇.saved⟩,
      fun _ => rfl, fun _ _ _ => trivial⟩

/-- A write sets the flag first, so its data are covered unless the flag is cleared before they are written. -/
lemma desk_afsWrite (buf : Bytes) (offset fh : ℕ) (t : Process Path) (hhandle : (path, fh) ∈ t.handles) :
    (afsWrite path buf offset fh).Safe (deskLogic path i) Over (t, false) G := by
  refine desk_disk fun G₁ _ hready₁ => ⟨⟨rfl, fun _ => ⟨fh, hhandle⟩⟩, fun env₁ r₁ l₁ _ hset => ?_⟩
  cases hset
  refine ⟨⟨by simpa using hready₁.cache, .inl (by simp [flagged, Entry.dirty])⟩, nofun, ?_⟩
  refine desk_disk fun G₂ hrely₂ hready₂ => ⟨trivial, fun env₂ r₂ l₂ _ hwrite => ?_⟩
  have hflag₂ : flagged path G₂ = true := hrely₂.2.1 trivial (by simp [flagged, Entry.dirty])
  have hready₂' : Ready path i (l₂, G₂.2) := by
    rcases LocalCall.exec_pwrite hwrite with ⟨f, -, -, -, rfl⟩ | ⟨e, -, rfl, -⟩
    · by_cases hf : path = f.1
      · subst hf
        exact ⟨by simpa using hready₂.cache, .inl (by simpa [flagged] using hflag₂)⟩
      · exact hready₂.congr (Local.modify_entry_ne _ _ hf)
    · exact hready₂
  cases r₂ <;> exact ⟨hready₂', fun _ => rfl, fun _ _ _ => trivial⟩

/-- The operations of the run. -/
def Shares (path : Path) : Operation Path → Prop
  | .write q _ _ _ | .release _ q _ => q = path
  | _ => False

lemma desk_begin {op : Operation Path} {l' : Process Path × Bool} (howes : l.2 = false)
    (hop : Shares path op) (hbegin : ((processes Path).track (duty Path)).begin op l = some l') :
    op.program.next ≠ none ∧ op.program.Safe (deskLogic path i) Over l' G := by
  obtain ⟨t, owes⟩ := l
  obtain rfl : owes = false := howes
  obtain ⟨t', ht', rfl⟩ := Option.map_eq_some_iff.mp hbegin
  have ht' : Process.begin op t = some t' := ht'
  cases op with
  | release fuel q fh => exact ⟨(fun h => by cases h), by cases hop; exact desk_afsRelease fuel fh t'⟩
  | write q buf offset fh =>
    simp only [Process.begin, Operation.handle, Option.ite_none_right_eq_some, Option.some.injEq] at ht'
    obtain ⟨hhandle, rfl⟩ := ht'
    exact ⟨(fun h => by cases h), by cases hop; exact desk_afsWrite buf offset fh t hhandle⟩
  | _ => exact hop.elim

omit [DecidableEq A] in
lemma desk_obligations : System.Obligations ((processes Path).track (duty Path)) (fun _ : A => deskLogic path i)
    (fun _ _ => Over) (fun _ op _ _ => Shares path op) fun _ _ _ _ => False where
  exec _ := rfl
  stable _ _ _ _ _ hinv hrely := ⟨hrely.1 hinv.1, hinv.2⟩
  start _ op l l' G hinv hop hbegin := by
    obtain ⟨hnext, hsafe⟩ := desk_begin (hinv.2 rfl) hop hbegin
    exact ⟨⟨hinv.1, fun hnone => absurd hnone hnext⟩, hsafe⟩
  finish _ _ _ _ _ hinv _ := hinv
  crash _ _ _ _ _ _ h := h.elim

/-! ### Runs -/

abbrev TrackedDesk (A Path : Type) :=
  System A (Operation Path) (Call Path) Call.Answer Outcome (Process Path × Bool) (Shelf Path)

/-- Writes and releases of the path, without failures. -/
def Smooth (path : Path) (_ : Desk A Path) : AgentEvent A (Operation Path) Env → Prop
  | .start _ op => Shares path op
  | .call _ env => env.Smooth
  | .finish _ => True
  | .crash _ => False

/-- No write puts its data into a file that is being uploaded, and no upload clears the flag that a write has set for
data it has not yet written. -/
def Apart (path : Path) (s : Desk A Path) : AgentEvent A (Operation Path) Env → Prop
  | .call a _ => ∀ c, s.next a = some c → ∀ b, b ≠ a → (InGap (some c) → ¬ InWindow path (s.next b)) ∧
      (c = .disk (.isDirtySet path false) → ¬ InGap (s.next b))
  | _ => True

variable {s s' : TrackedDesk A Path}

/-- What a process does to the shared files is what the others rely on. -/
lemma rely_of_exec {env : Env} {c : Call Path} {r : c.Answer} (hask : Asks path i l.1 G c)
    (hexec : (deskLogic path i).exec env c l G = some (r, l', G')) (hready : Ready path i G') {next : Option (Call Path)}
    {t : Process Path × Bool} (hgap : InGap (some c) → ¬ InWindow path next)
    (hclear : c = .disk (.isDirtySet path false) → ¬ InGap next) : (deskLogic path i).rely next t G G' := by
  obtain ⟨hcall, -⟩ := desk_exec hexec
  cases c with
  | rpc c =>
    obtain ⟨⟨r₁, g⟩, hremote, hx⟩ := Option.map_eq_some_iff.mp hcall
    have hlocal : G'.1 = G.1 := (Prod.mk.inj (Prod.mk.inj hx).2).1.symm
    have hg : g = G'.2 := (Prod.mk.inj (Prod.mk.inj hx).2).2
    have htext : text path i G' = text path i G := by rw [text, hlocal]; rfl
    refine ⟨fun _ => hready, fun _ hflag => by rwa [flagged, hlocal], fun _ => ⟨htext, fun hstored => ?_⟩⟩
    rw [htext]
    cases c with
    | writerWrite =>
      cases hremote
      rwa [stored, ← hg]
    | Write q chunks broken =>
      obtain ⟨rfl, -, -, hflat⟩ := hask
      rcases RemoteCall.exec_Write hremote with rfl | ⟨-, -, hfresh, rfl⟩
      · rwa [stored, ← hg]
      · simp [stored, ← hg, Remote.publish, hflat]
    | _ => exact hask.elim
  | disk c =>
    obtain ⟨⟨r₁, loc⟩, hdisk, hx⟩ := Option.map_eq_some_iff.mp hcall
    have hlocal : G'.1 = loc := (Prod.mk.inj (Prod.mk.inj hx).2).1.symm
    have hg : G'.2 = G.2 := (Prod.mk.inj (Prod.mk.inj hx).2).2.symm
    refine ⟨fun _ => hready, fun hnext hflag => ?_, fun hnext => ?_⟩
    · rw [flagged, hlocal]
      by_cases hset : ∃ d, c = .isDirtySet path d
      · obtain ⟨d, rfl⟩ := hset
        cases d with
        | false => exact absurd hnext (hclear rfl)
        | true =>
          cases hdisk
          simp [Entry.dirty]
      · have hkeep := LocalCall.exec_is_dirty path hdisk (fun d hc => hset ⟨d, hc⟩) (by rintro rfl; exact hask)
        rw [Entry.dirty, hkeep]
        exact hflag
    · have htext : (loc.entry path).inode i = (G.1.entry path).inode i := by
        refine LocalCall.exec_keeps (fun e => e.inode i) hdisk fun f hf => ?_
        cases hf with
        | setTime | setDirty => rfl
        | pwrite => exact absurd hnext (hgap trivial)
        | create _ _ hc => rcases hc with rfl | rfl | rfl <;> exact hask.elim
        | _ => exact hask.elim
      have htext' : text path i G' = text path i G := by rw [text, hlocal, htext]; rfl
      refine ⟨htext', fun hstored => ?_⟩
      rwa [htext', stored, hg]

/-- A dirty path has a process that will find it so: one that holds a handle, or one whose release has not yet
cleared the flag. -/
def Owed (path : Path) (s : TrackedDesk A Path) : Prop :=
  flagged path s.shared = true → ∃ a, (∃ fh, (path, fh) ∈ (s.locals a).1.handles) ∨ (s.locals a).2 = true

omit [DecidableEq A] in
/-- Only a write sets the flag, and through a handle that is open. -/
lemma flagged_of_exec {env : Env} {c : Call Path} {r : c.Answer} (hask : Asks path i l.1 G c)
    (hexec : (deskLogic path i).exec env c l G = some (r, l', G')) (hflag : flagged path G' = true) :
    (∃ fh, (path, fh) ∈ l'.1.handles) ∨ flagged path G = true ∧ l' = l := by
  obtain ⟨hcall, rfl⟩ := desk_exec hexec
  cases c with
  | rpc c =>
    obtain ⟨⟨r₁, g⟩, -, hx⟩ := Option.map_eq_some_iff.mp hcall
    have hlocal : G'.1 = G.1 := (Prod.mk.inj (Prod.mk.inj hx).2).1.symm
    exact .inr ⟨by rwa [flagged, hlocal] at hflag, rfl⟩
  | disk c =>
    obtain ⟨⟨r₁, loc⟩, hdisk, hx⟩ := Option.map_eq_some_iff.mp hcall
    obtain ⟨rfl, hG'⟩ := Prod.mk.inj hx
    have hlocal : G'.1 = loc := (Prod.mk.inj hG').1.symm
    rw [flagged, hlocal] at hflag
    cases c with
    | isDirtySet q d =>
      obtain ⟨rfl, hhandle⟩ := hask
      cases hdisk
      cases d with
      | false => simp [Entry.dirty] at hflag
      | true => exact .inl (hhandle rfl)
    | isDirtyGet q =>
      obtain rfl : q = path := hask
      cases hdisk
      refine .inr ⟨hflag, ?_⟩
      simp [duty, hflag]
    | lastModifiedSet q t =>
      cases hdisk
      by_cases hq : path = q
      · subst hq
        exact .inr ⟨by simpa [flagged, Entry.dirty] using hflag, rfl⟩
      · rw [Local.modify_entry_ne _ _ hq] at hflag
        exact .inr ⟨hflag, rfl⟩
    | close _ | ifstream _ | ifstreamRead _ _ _ | pwrite _ _ _ | diverge =>
      have hkeep := LocalCall.exec_is_dirty path hdisk (fun _ h => by cases h) (fun h => by cases h)
      rw [Entry.dirty, hkeep] at hflag
      exact .inr ⟨hflag, rfl⟩
    | _ => exact hask.elim

/-- The invariant of a run: every process is safe, and a dirty path is owed an upload. -/
structure Served (path : Path) (i : ℕ) (s : TrackedDesk A Path) : Prop where
  sound : s.Sound (fun _ => deskLogic path i) fun _ _ => Over
  owed : Owed path s

omit [DecidableEq A] in
/-- What is known of the next call of a process. -/
lemma Served.call (h : Served path i s) {a : A} {op : Operation Path} {c : Call Path} {k : c.Answer → Program Path Outcome}
    (hrun : s.running a = some (op, .call c k)) : Asks path i (s.locals a).1 s.shared c ∧
      ∀ env r l G, env.Smooth → (deskLogic path i).exec env c (s.locals a) s.shared = some (r, l, G) → Ready path i G := by
  obtain ⟨hinv, hsafe⟩ := h.sound a
  rw [System.next, hrun, Option.bind_some, Prog.next_call] at hinv
  have hcall := hsafe op _ hrun s.shared ((deskLogic path i).rely_refl _ _ _) hinv
  exact ⟨hcall.1, fun env r l G hsmooth hexec => (hcall.2 env r l G hsmooth hexec).1.1⟩

omit [DecidableEq Path] in
lemma Owed.become {l : Process Path × Bool} {running : Option (Operation Path × Program Path Outcome)} {a : A}
    {G : Shelf Path} (h : flagged path G = true → ((∃ fh, (path, fh) ∈ l.1.handles) ∨ l.2 = true) ∨
      ∃ b, b ≠ a ∧ ((∃ fh, (path, fh) ∈ (s.locals b).1.handles) ∨ (s.locals b).2 = true)) :
    Owed path { s.become a l running with shared := G } := by
  intro hflag
  rcases h hflag with hl | ⟨b, hb, hl⟩
  · exact ⟨a, by simpa [System.become] using hl⟩
  · exact ⟨b, by simpa [System.become, hb] using hl⟩

omit [DecidableEq Path] in
/-- Either the process itself owes the upload, or another one does. -/
lemma Owed.split (h : Owed path s) (a : A) (hflag : flagged path s.shared = true) :
    ((∃ fh, (path, fh) ∈ (s.locals a).1.handles) ∨ (s.locals a).2 = true) ∨
      ∃ b, b ≠ a ∧ ((∃ fh, (path, fh) ∈ (s.locals b).1.handles) ∨ (s.locals b).2 = true) := by
  obtain ⟨b, hb⟩ := h hflag
  by_cases hba : b = a
  · exact .inl (hba ▸ hb)
  · exact .inr ⟨b, hba, hb⟩

lemma duty_begin {op : Operation Path} {l l' : Process Path × Bool} (hop : Shares path op)
    (h : ((processes Path).track (duty Path)).begin op l = some l')
    (hl : (∃ fh, (path, fh) ∈ l.1.handles) ∨ l.2 = true) : (∃ fh, (path, fh) ∈ l'.1.handles) ∨ l'.2 = true := by
  obtain ⟨t, ht, rfl⟩ := Option.map_eq_some_iff.mp h
  cases op with
  | release fuel q fh => exact .inr rfl
  | write q buf offset fh =>
    have ht : Process.begin (.write q buf offset fh) l.1 = some t := ht
    simp only [Process.begin, Operation.handle, Option.ite_none_right_eq_some, Option.some.injEq] at ht
    obtain ⟨-, rfl⟩ := ht
    exact hl
  | _ => exact hop.elim

omit [DecidableEq Path] in
lemma duty_finish {op : Operation Path} {out : Outcome} {t : Process Path} {fh : ℕ} (h : (path, fh) ∈ t.handles) :
    (path, fh) ∈ (t.finish op out).handles := by
  cases op with
  | «open» q =>
    simp only [Process.finish]
    split_ifs
    · exact List.mem_cons_of_mem _ h
    · exact h
  | _ => exact h

theorem Served.step (h : Served path i s) {e : AgentEvent A (Operation Path) Env}
    (he : Smooth path s.forget e ∧ Apart path s.forget e)
    (hs : s.step ((processes Path).track (duty Path)) e = some s') : Served path i s' := by
  have hallowed : System.Allowed (fun _ => deskLogic path i) (fun _ op _ _ => Shares path op) (fun _ _ _ _ => False) s e := by
    cases e with
    | start a op => exact he.1
    | call a env =>
      refine fun op c k hrun => ⟨he.1, fun r l' G' hexec b hb => ?_⟩
      obtain ⟨hask, hready⟩ := h.call hrun
      obtain ⟨hgap, hclear⟩ := he.2 c (by simp [System.next, System.forget, hrun]) b hb
      exact rely_of_exec hask hexec (hready env r l' G' he.1 hexec) hgap hclear
    | finish a => trivial
    | crash a => exact he.1
  refine ⟨h.sound.step desk_obligations hallowed hs, ?_⟩
  cases e with
  | start a op =>
    simp only [System.step] at hs
    split at hs
    · obtain ⟨l, hl, rfl⟩ := Option.map_eq_some_iff.mp hs
      exact Owed.become (G := s.shared) fun hflag => (h.owed.split a hflag).imp_left (duty_begin he.1 hl)
    · cases hs
  | call a env =>
    simp only [System.step] at hs
    split at hs
    · rename_i op c k hrun
      obtain ⟨⟨r, l, G⟩, hexec, rfl⟩ := Option.map_eq_some_iff.mp hs
      refine Owed.become fun hflag => ?_
      rcases flagged_of_exec (h.call hrun).1 hexec hflag with hhandle | ⟨hold, rfl⟩
      · exact .inl (.inl hhandle)
      · exact h.owed.split a hold
    · cases hs
  | finish a =>
    simp only [System.step] at hs
    split at hs
    · cases hs
      refine Owed.become (G := s.shared) fun hflag => (h.owed.split a hflag).imp_left fun hl => ?_
      refine hl.imp_left ?_
      rintro ⟨fh, hfh⟩
      exact ⟨fh, duty_finish hfh⟩
    · cases hs
  | crash a => exact he.1.elim

theorem Served.run {es : List (AgentEvent A (Operation Path) Env)} (h : Served path i s)
    (hes : s.Along ((processes Path).track (duty Path)) (fun s e => Smooth path s.forget e ∧ Apart path s.forget e) es)
    (hs : s.run ((processes Path).track (duty Path)) es = some s') : Served path i s' := by
  induction es generalizing s with
  | nil => cases hs; exact h
  | cons e es ih =>
    obtain ⟨s₁, hs₁, hrun⟩ := Option.bind_eq_some_iff.mp hs
    exact ih (h.step hes.1 hs₁) (hes.2 s₁ hs₁) hrun

/-- The processes before their first operation, with the handles that are open. -/
def Desk.start (G : Shelf Path) (handles : A → List (Path × ℕ)) : Desk A Path :=
  { shared := G, locals := fun a => { handles := handles a } }

/-- The file is cached. It is what the server has, or else it is flagged and a handle is open. -/
structure OpenOn (path : Path) (G : Shelf Path) (handles : A → List (Path × ℕ)) : Prop where
  cached : (G.1.entry path).cache ≠ none
  saved : flagged path G = true ∨ stored path G = (G.1.entry path).content
  owed : flagged path G = true → ∃ a fh, (path, fh) ∈ handles a

instance (path : Path) (op : Operation Path) : Decidable (Shares path op) := by
  induction op using Operation.casesOn <;> unfold Shares <;> infer_instance

instance (next : Option (Call Path)) : Decidable (InGap next) := by
  unfold InGap
  split <;> infer_instance

instance (path : Path) (next : Option (Call Path)) : Decidable (InWindow path next) := by
  unfold InWindow
  split <;> infer_instance

instance (env : Env) : Decidable env.Smooth := by unfold Env.Smooth; infer_instance

instance (path : Path) (s : Desk A Path) (e : AgentEvent A (Operation Path) Env) : Decidable (Smooth path s e) := by
  induction e using AgentEvent.casesOn <;> unfold Smooth <;> infer_instance

instance [Fintype A] (path : Path) (s : Desk A Path) (e : AgentEvent A (Operation Path) Env) :
    Decidable (Apart path s e) := by
  induction e using AgentEvent.casesOn <;> unfold Apart <;> infer_instance

/-- No operation is running. -/
def Desk.Idle (s : Desk A Path) : Prop := ∀ a, s.running a = none

instance [Fintype A] (s : Desk A Path) : Decidable s.Idle :=
  decidable_of_iff (∀ a, (s.running a).isNone) (by simp [Desk.Idle])

/-- No handle of the path is open. -/
def Desk.Released (path : Path) (s : Desk A Path) : Prop := ∀ a, ∀ h ∈ (s.locals a).handles, h.1 ≠ path

instance [Fintype A] (path : Path) (s : Desk A Path) : Decidable (s.Released path) := by
  unfold Desk.Released
  infer_instance

instance (path : Path) (G : Shelf Path) (handles : A → List (Path × ℕ)) [Fintype A] : Decidable (OpenOn path G handles) :=
  decidable_of_iff ((G.1.entry path).cache ≠ none ∧ (flagged path G = true ∨ stored path G = (G.1.entry path).content) ∧
    (flagged path G = true → ∃ a, ∃ h ∈ handles a, h.1 = path))
    ⟨fun h => ⟨h.1, h.2.1, fun hf => have ⟨a, ⟨_, _⟩, hmem, rfl⟩ := h.2.2 hf; ⟨a, _, hmem⟩⟩,
      fun h => ⟨h.cached, h.saved, fun hf => have ⟨a, _, hmem⟩ := h.owed hf; ⟨a, _, hmem, rfl⟩⟩⟩

/-- Once all handles are released, the server has the cached content, if no write met an upload in flight. -/
theorem stored_of_apart (path : Path) (G : Shelf Path) (handles : A → List (Path × ℕ))
    (es : List (AgentEvent A (Operation Path) Env)) (s : Desk A Path) (hopen : OpenOn path G handles)
    (hsmooth : (Desk.start G handles).Along (processes Path) (Smooth path) es)
    (hapart : (Desk.start G handles).Along (processes Path) (Apart path) es)
    (hrun : (Desk.start G handles).run (processes Path) es = some s) (hidle : s.Idle) (hreleased : s.Released path) :
    stored path s.shared = (s.shared.1.entry path).content := by
  obtain ⟨i, hi⟩ := Option.ne_none_iff_exists'.mp hopen.cached
  let start : TrackedDesk A Path := { shared := G, locals := fun a => ({ handles := handles a }, false) }
  have hready : Ready path i G := ⟨hi, by simpa [text, Entry.content, hi] using hopen.saved⟩
  have hserved : Served path i start := by
    refine ⟨fun a => ⟨⟨hready, fun _ => rfl⟩, fun _ _ hp => by cases hp⟩, fun hflag => ?_⟩
    obtain ⟨a, fh, hfh⟩ := hopen.owed hflag
    exact ⟨a, .inl ⟨fh, hfh⟩⟩
  have hforget : (start.run ((processes Path).track (duty Path)) es).map System.forget = some s :=
    (System.run_forget start es).trans hrun
  obtain ⟨s', hs', rfl⟩ := Option.map_eq_some_iff.mp hforget
  have hend := hserved.run (System.Along.track (N := duty Path) (s := start) (hsmooth.and hapart)) hs'
  have hnone (a : A) : s'.next a = none := by
    rw [System.next, show s'.running a = none from hidle a]
    rfl
  have hclean : flagged path s'.shared = false := by
    by_contra hflag
    obtain ⟨a, ⟨fh, hfh⟩ | howes⟩ := hend.owed (by simpa using hflag)
    · exact hreleased a _ hfh rfl
    · have := (hend.sound a).1.2 (hnone a)
      rw [howes] at this
      cases this
  have hready' : Ready path i s'.shared := by
    cases es with
    | nil => cases hs'; exact hready
    | cons e es =>
      exact (hend.sound e.agent).1.1
  have hstored := hready'.saved.resolve_left (by simp [hclean])
  rw [show s'.forget.shared = s'.shared from rfl, hstored, Entry.content, hready'.cache]
  rfl

/-- A client that has published a file and opened it twice. -/
def openedTwice : List (WorldEvent Unit Unit) :=
  created ++ session () (.open ()) (quiet 5 2) ++ session () (.open ()) (List.replicate 5 { fd := 4 })

def shelf : Shelf Unit :=
  match (World.start Unit .empty).run (machine Unit) openedTwice with
  | some s => ((s.locals ()).toLocal, s.shared)
  | none => ({}, .empty)

/-- Two processes with one handle each. -/
def twoHandles (a : Bool) : List (Unit × ℕ) := [((), if a then 3 else 4)]

/-- Both write and release their handles, one after the other. -/
def inTurn : List (AgentEvent Bool (Operation Unit) Env) :=
  session true (.write () (Bytes.ascii "a") 0 3) (quiet 2 2) ++ session false (.write () (Bytes.ascii "b") 1 4) (quiet 2 2) ++
    session true (.release 1 () 3) (quiet 8 2) ++ session false (.release 1 () 4) (quiet 2 3)

theorem stored_of_apart_inTurn : ∃ s, (Desk.start shelf twoHandles).run (processes Unit) inTurn = some s ∧
    stored () s.shared = (s.shared.1.entry ()).content := by
  have hrun : ∃ s : Desk Bool Unit, (Desk.start shelf twoHandles).run (processes Unit) inTurn = some s ∧ s.Idle ∧ s.Released () := by
    decide +kernel
  obtain ⟨s, hs, hidle, hreleased⟩ := hrun
  exact ⟨s, hs, stored_of_apart () shelf twoHandles inTurn s (by decide +kernel) (by decide +kernel) (by decide +kernel) hs
    hidle hreleased⟩

/-- The second write comes after the upload of the first and before its flag is cleared. -/
def inFlight : List (AgentEvent Bool (Operation Unit) Env) :=
  session true (.write () (Bytes.ascii "a") 0 3) (quiet 2 2) ++ .start true (.release 1 () 3) :: (quiet 6 2).map (.call true) ++
    session false (.write () (Bytes.ascii "b") 0 4) (quiet 2 2) ++ (quiet 2 2).map (.call true) ++ .finish true ::
      session false (.release 1 () 4) (quiet 2 3)

/-- Both releases succeed, and the second write never reaches the server. -/
theorem not_stored_inFlight : OpenOn () shelf twoHandles ∧
    (Desk.start shelf twoHandles).Along (processes Unit) (Smooth ()) inFlight ∧
      ∃ s : Desk Bool Unit, (Desk.start shelf twoHandles).run (processes Unit) inFlight = some s ∧ s.Idle ∧ s.Released () ∧
        (.release 1 () 3, { rc := 0 }) ∈ (s.locals true).calls ∧ (.release 1 () 4, { rc := 0 }) ∈ (s.locals false).calls ∧
          stored () s.shared = some (Bytes.ascii "a") ∧ (s.shared.1.entry ()).content = some (Bytes.ascii "b") :=
  ⟨by decide +kernel, by decide +kernel, by decide +kernel⟩

end AFSv1.Client
