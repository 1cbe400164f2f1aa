import AFSv1.Foundations.Durable
import AFSv1.Foundations.Service
import AFSv1.Tables.IsDirtyRecovery
import AFSv1.Tables.LastModifiedCrash
import AFSv1.Client.TimestampSound

/-! Clients with the objects of the classes `is_dirty_t` and `last_modified_t` and their files. A crash may come after
any file effect of a call; the constructors then read the files back. Seen through the tables, a step of such a client
is a step of one whose table calls are atomic. -/
namespace AFSv1.Client
open Foundations Tables

variable {Path : Type} [DecidableEq Path]

/-- The values that an answer of the server can make the client record. -/
def Call.Recordable : Call Path → Prop
  | .disk (.lastModifiedSet _ state) => LastModified.Storable state
  | _ => True

/-- The answers that a client can get. -/
def Call.Answers (c : Call Path) (r : c.Answer) : Prop := ∃ env l g l' g', c.exec env l g = some (r, l', g')

/-! ### The client -/

/-- A client with its tables; the entries of `mount` say nothing about them. `history` is not part of the client: it
tells what the files of `last_modified` have been through. -/
structure Stored (Path : Type) where
  mount : Mount Path := {}
  modified : LastModified.Session
  dirty : IsDirty.Session
  history : LastModified.History

/-- What the code does not decide about a call, the snapshots included. -/
structure StoredEnv extends Env where
  modified : SnapshotEnv Bytes
  dirty : SnapshotEnv Bool

/-- A crash after `effects` file effects of the call that was under way, and the restart. -/
structure Restart where
  effects : ℕ
  modified : LastModified.Env
  dirty : IsDirty.Env

section Exec

variable (sha256 : Sha256) (name : Path → Bytes)

/-- The call of `last_modified` that changes the table. -/
def LocalCall.modifies : LocalCall Path → Option (LastModified.Call Bytes)
  | .lastModifiedSet path state => some (.set (name path) state)
  | .lastModifiedErase path => some (.erase (name path))
  | _ => none

/-- The call of `is_dirty` that changes the table. -/
def LocalCall.dirties : LocalCall Path → Option IsDirty.Call
  | .isDirtySet path state => some (.set (name path) state)
  | .isDirtyErase path => some (.erase (name path))
  | _ => none

def Stored.modify (k : Stored Path) (env : StoredEnv) (c : LastModified.Call Bytes) : Stored Path :=
  { k with
    modified := k.modified.call sha256 env.modified c
    history := k.history.call sha256 env.modified c }

def Stored.mark (k : Stored Path) (env : StoredEnv) (c : IsDirty.Call) : Stored Path :=
  let r := c.run sha256 k.dirty.mem env.dirty
  { k with dirty := ⟨r.1, DiskEffect.applyAll r.2 k.dirty.disk⟩ }

def LocalCall.execStored (env : StoredEnv) (k : Stored Path) : (c : LocalCall Path) → Option (c.Answer × Stored Path)
  | .lastModifiedCount path => some (k.modified.mem.count sha256 (name path), k)
  | .lastModifiedGet path => some (k.modified.mem.get sha256 (name path), k)
  | .lastModifiedSet path state => some ((), k.modify sha256 env (.set (name path) state))
  | .lastModifiedErase path => some ((), k.modify sha256 env (.erase (name path)))
  | .isDirtyGet path => some (k.dirty.mem.get sha256 (name path), k)
  | .isDirtySet path state => some ((), k.mark sha256 env (.set (name path) state))
  | .isDirtyErase path => some ((), k.mark sha256 env (.erase (name path)))
  | c => (c.exec env.toEnv k.mount.toLocal).map fun r => (r.1, { k with mount := { k.mount with toLocal := r.2 } })

def Call.execStored (env : StoredEnv) (k : Stored Path) (g : Remote Path) :
    (c : Call Path) → Option (c.Answer × Stored Path × Remote Path)
  | .disk c => (c.execStored sha256 name env k).map fun r => (r.1, r.2, g)
  | .rpc c => (c.exec env.toEnv g).map fun r => (r.1, k, r.2)

/-- What the crash leaves of the files of `last_modified`. -/
def Stored.modifiedDisk (d : Restart) (next : Option (Call Path)) (k : Stored Path) : JournalDisk :=
  match next with
  | some (.disk c) => match c.modifies name with
    | some c => LastModified.crashDisk sha256 k.modified d.modified.toSnapshotEnv c d.effects
    | none => k.modified.disk
  | _ => k.modified.disk

def Stored.dirtyDisk (d : Restart) (next : Option (Call Path)) (k : Stored Path) : JournalDisk :=
  match next with
  | some (.disk c) => match c.dirties name with
    | some c => IsDirty.crashDisk sha256 k.dirty d.dirty.toSnapshotEnv c d.effects
    | none => k.dirty.disk
  | _ => k.dirty.disk

def Stored.historyAfter (d : Restart) (next : Option (Call Path)) (k : Stored Path) : LastModified.History :=
  match next with
  | some (.disk c) => match c.modifies name with
    | some c => k.history.crash sha256 d.modified c d.effects
    | none => { k.history with counter := d.modified.counter }
  | _ => { k.history with counter := d.modified.counter }

/-- The client started again; `none` when a constructor fails an assertion. -/
def Stored.restart (d : Restart) (next : Option (Call Path)) (k : Stored Path) : Option (Stored Path) :=
  (LastModified.load (k.modifiedDisk sha256 name d next)).bind fun table =>
    (IsDirty.load (k.dirtyDisk sha256 name d next)).map fun flags =>
      { k with
        modified := ⟨⟨table, d.modified.counter⟩, LastModified.openLog (k.modifiedDisk sha256 name d next)⟩
        dirty := ⟨⟨flags, d.dirty.counter⟩, IsDirty.openLog (k.dirtyDisk sha256 name d next)⟩
        history := k.historyAfter sha256 name d next }

/-- Clients that run the operations on their tables and files. -/
def storedMachine : Machine (Operation Path) (Call Path) Call.Answer Outcome StoredEnv (Stored Path) (Remote Path) where
  exec env c k g := c.execStored sha256 name env k g
  prog := Operation.program
  begin op k := (Mount.begin op k.mount).map fun m => { k with mount := m }
  finish op out k := { k with mount := Mount.finish op out k.mount }
  crash op k := { k with mount := Mount.crash op k.mount }

/-- A newly mounted client with an empty cache directory; the counters are not initialised. -/
def Stored.start (counters : ℤ × ℤ) : Stored Path where
  modified := .start counters.1
  dirty := .start counters.2
  history := .start counters.1

abbrev StoredWorld (A Path : Type) := System A (Operation Path) (Call Path) Call.Answer Outcome (Stored Path) (Remote Path)

abbrev StoredEvent (A Path : Type) := DurableEvent A (Operation Path) StoredEnv Restart

def StoredWorld.start {A : Type} (counters : A → ℤ × ℤ) (g : Remote Path) : StoredWorld A Path :=
  { shared := g, locals := fun a => .start (counters a) }

/-- The crash tears no record of `last_modified`, and the files that it leaves can be read back. -/
def Stored.Recoverable (d : Restart) (next : Option (Call Path)) (k : Stored Path) : Prop :=
  (∀ c c', next = some (.disk c) → c.modifies name = some c' →
    LastModified.CrashGuard sha256 k.history d.modified c' d.effects) ∧ (k.historyAfter sha256 name d next).Readable

/-! ### What it shows -/

/-- Entries with other table entries. -/
def Local.withTables (modified : Path → Option Bytes) (dirty : Path → Option Bool) (l : Local Path) : Local Path :=
  { l with entry := fun p => { l.entry p with last_modified := modified p, is_dirty := dirty p } }

def Mount.withTables (table : Table Bytes Bytes) (flags : Table Bytes Bool) (m : Mount Path) : Mount Path :=
  { m with toLocal := m.toLocal.withTables (fun p => table.lookup (hashpath sha256 (name p))) fun p =>
      flags.lookup (hashpath sha256 (name p)) }

/-- The client with the tables of its objects. -/
def Stored.view (k : Stored Path) : Mount Path := k.mount.withTables sha256 name k.modified.mem.table k.dirty.mem.table

end Exec

/-- The tables' files stand for the tables. -/
structure Stored.Intact (k : Stored Path) : Prop where
  stands : LastModified.Stands k.modified k.history.toJournalled
  decodes : LastModified.Decodes k.history
  storable : k.history.Holds LastModified.Storable
  recorded : IsDirty.Recorded k.dirty.disk k.dirty.mem.table

/-! ### Calls -/

section View

variable {modified : Path → Option Bytes} {dirty : Path → Option Bool} {l : Local Path}

omit [DecidableEq Path] in
@[simp] lemma withTables_entry (path : Path) : (l.withTables modified dirty).entry path =
    { l.entry path with last_modified := modified path, is_dirty := dirty path } := rfl

omit [DecidableEq Path] in
@[simp] lemma withTables_fds : (l.withTables modified dirty).fds = l.fds := rfl

omit [DecidableEq Path] in
@[simp] lemma withTables_file (fh : ℕ) : (l.withTables modified dirty).file fh = l.file fh := rfl

variable (modified dirty l) in
/-- A change of the cache file is none of the tables. -/
lemma withTables_modify (path : Path) (f : Entry → Entry)
    (hf : ∀ e t d, f { e with last_modified := t, is_dirty := d } = { f e with last_modified := t, is_dirty := d }) :
    (l.withTables modified dirty).modify path f = (l.modify path f).withTables modified dirty := by
  simp only [Local.modify, Local.withTables, Local.mk.injEq, and_true]
  funext p
  by_cases hp : p = path
  · subst hp
    rw [Function.update_self, Function.update_self, hf]
  · simp [hp]

omit [DecidableEq Path] in
lemma withTables_allocate (fd : ℕ) (path : Path) (i : ℕ) :
    (l.withTables modified dirty).allocate fd path i = (l.allocate fd path i).map (Local.withTables modified dirty) := by
  unfold Local.allocate
  split_ifs with hfree hfree' hfree' <;> first | rfl | exact absurd hfree hfree' | exact absurd hfree' hfree

variable (modified dirty l) in
lemma withTables_setInode (path : Path) (i : ℕ) (b : Entry → Bytes)
    (hb : ∀ e t d, b { e with last_modified := t, is_dirty := d } = b e) :
    (l.withTables modified dirty).modify path (fun e => e.setInode i (b e)) =
      (l.modify path fun e => e.setInode i (b e)).withTables modified dirty := by
  refine withTables_modify modified dirty l path _ fun e t d => ?_
  simp only [Entry.setInode, hb]

omit [DecidableEq Path] in
lemma withTables_onFile (env : Env) (fh : ℕ) : onFile env (l.withTables modified dirty) fh = onFile env l fh := rfl

omit [DecidableEq Path] in
lemma withTables_onCache (env : Env) (path : Path) :
    onCache env (l.withTables modified dirty) path = onCache env l path := rfl

lemma openTrunc_withTables (e : Entry) (t : Option Bytes) (d : Option Bool) :
    ({ e with last_modified := t, is_dirty := d } : Entry).openTrunc =
      (e.openTrunc.1, { e.openTrunc.2 with last_modified := t, is_dirty := d }) := by
  obtain ⟨-, -, cache, inode, next⟩ := e
  cases cache <;> rfl

lemma withTables_onCreate (env : Env) (path : Path) (excl : Bool) :
    onCreate env (l.withTables modified dirty) path excl =
      (onCreate env l path excl).map fun r => (r.1, r.2.withTables modified dirty) := by
  have hopen : (l.withTables modified dirty).modify path (fun e => e.openTrunc.2) =
      (l.modify path fun e => e.openTrunc.2).withTables modified dirty :=
    withTables_modify modified dirty l path _ fun e t d => by rw [openTrunc_withTables]
  unfold onCreate
  cases env.fault with
  | some e => rfl
  | none =>
    simp only [withTables_entry, openTrunc_withTables, hopen]
    split_ifs <;> rfl

/-- The calls that read or change a table. -/
def LocalCall.OnTables : LocalCall Path → Prop
  | .lastModifiedCount _ | .lastModifiedGet _ | .lastModifiedSet _ _ | .lastModifiedErase _ | .isDirtyGet _
  | .isDirtySet _ _ | .isDirtyErase _ => True
  | _ => False

/-- The other calls do with any tables what they do with these. -/
lemma exec_withTables (env : Env) (c : LocalCall Path) (hc : ¬ c.OnTables) :
    c.exec env (l.withTables modified dirty) = (c.exec env l).map fun r => (r.1, r.2.withTables modified dirty) := by
  cases c with
  | lastModifiedCount _ | lastModifiedGet _ | lastModifiedSet _ _ | lastModifiedErase _ | isDirtyGet _ | isDirtySet _ _
  | isDirtyErase _ => exact absurd trivial hc
  | openFile path =>
    simp only [LocalCall.exec, withTables_onCache]
    cases onCache env l path with
    | ok i => simp [withTables_allocate, Function.comp_def]
    | error e => rfl
  | openExcl path | creat path =>
    simp only [LocalCall.exec, withTables_onCreate]
    cases onCreate env l path _ with
    | ok r => simp [Except.map, withTables_allocate, Function.comp_def]
    | error e => rfl
  | close fd =>
    rw [LocalCall.exec, LocalCall.exec, withTables_file]
    split_ifs <;> rfl
  | unlink path =>
    have hunlink := withTables_modify modified dirty l path (fun e => { e with cache := none })
      fun _ _ _ => rfl
    simp only [LocalCall.exec, withTables_onCache, hunlink]
    cases onCache env l path <;> rfl
  | ofstream path =>
    simp only [LocalCall.exec, withTables_onCreate]
    cases onCreate env l path false <;> rfl
  | ofstreamWrite path i pos b =>
    have hwrite := withTables_setInode modified dirty l path i
      (fun e => (e.inode i).overlay pos b) fun _ _ _ => rfl
    simp only [LocalCall.exec, hwrite]
    split_ifs <;> rfl
  | ifstream path =>
    simp only [LocalCall.exec, withTables_onCache]
    cases onCache env l path <;> rfl
  | ifstreamRead path i pos =>
    simp only [LocalCall.exec, withTables_entry]
    cases env.fault <;> rfl
  | pread fh size offset =>
    simp only [LocalCall.exec, withTables_onFile, withTables_entry]
    cases onFile env l fh <;> rfl
  | pwrite fh buf offset =>
    simp only [LocalCall.exec, withTables_onFile]
    cases onFile env l fh with
    | ok f =>
      have hwrite := withTables_setInode modified dirty l f.1 f.2
        (fun e => (e.inode f.2).overlay offset buf) fun _ _ _ => rfl
      simp only [hwrite]
      rfl
    | error e => rfl
  | ftruncate fh offset =>
    simp only [LocalCall.exec, withTables_onFile]
    cases onFile env l fh with
    | ok f =>
      have hresize := withTables_setInode modified dirty l f.1 f.2
        (fun e => (e.inode f.2).resize offset) fun _ _ _ => rfl
      simp only [hresize]
      rfl
    | error e => rfl
  | truncate path newsize =>
    simp only [LocalCall.exec, withTables_onCache]
    cases onCache env l path with
    | ok i =>
      have hresize := withTables_setInode modified dirty l path i
        (fun e => (e.inode i).resize newsize) fun _ _ _ => rfl
      simp only [hresize]
      rfl
    | error e => rfl
  | fsync fh =>
    simp only [LocalCall.exec, withTables_onFile]
    cases onFile env l fh <;> rfl
  | exit | diverge => rfl

lemma withTables_record (path : Path) (state : Option Bytes) :
    l.withTables (Function.update modified path state) dirty =
      (l.withTables modified dirty).modify path fun e => { e with last_modified := state } := by
  simp only [Local.modify, Local.withTables, Local.mk.injEq, and_true]
  funext p
  by_cases hp : p = path
  · subst hp
    simp
  · simp [hp]

lemma withTables_mark (path : Path) (state : Option Bool) :
    l.withTables modified (Function.update dirty path state) =
      (l.withTables modified dirty).modify path fun e => { e with is_dirty := state } := by
  simp only [Local.modify, Local.withTables, Local.mk.injEq, and_true]
  funext p
  by_cases hp : p = path
  · subst hp
    simp
  · simp [hp]

end View

section Tables

variable {sha256 : Sha256} {name : Path → Bytes}

/-- Paths whose hashes differ have entries of their own. -/
lemma lookup_apply_hashpath {V : Type} (hinj : Function.Injective fun p => hashpath sha256 (name p)) (u : Update Bytes V)
    (t : Table Bytes V) {path : Path} (hu : u.key = hashpath sha256 (name path)) :
    (fun p => (u.apply t).lookup (hashpath sha256 (name p))) =
      Function.update (fun p => t.lookup (hashpath sha256 (name p))) path u.value := by
  funext p
  rw [Update.lookup_apply, hu]
  by_cases hp : p = path
  · subst hp
    simp
  · rw [Function.update_of_ne hp, if_neg fun heq => hp (hinj heq)]

/-- What a call of `last_modified` does to the table, it does to what is shown. -/
lemma exec_modifies (hinj : Function.Injective fun p => hashpath sha256 (name p)) {c : LocalCall Path}
    {c' : LastModified.Call Bytes} (hc : c.modifies name = some c') (env : Env) (m : Mount Path)
    (table : Table Bytes Bytes) (flags : Table Bytes Bool) :
    ∃ r, c.exec env (m.withTables sha256 name table flags).toLocal =
      some (r, (m.withTables sha256 name (c'.atomic sha256 table) flags).toLocal) := by
  cases c with
  | lastModifiedSet path state =>
    obtain rfl := Option.some.inj hc
    refine ⟨(), ?_⟩
    simp only [Mount.withTables, LastModified.Call.atomic, LocalCall.exec,
      lookup_apply_hashpath hinj ((LastModified.Call.set (name path) state).update sha256) table rfl, withTables_record]
    rfl
  | lastModifiedErase path =>
    obtain rfl := Option.some.inj hc
    refine ⟨(), ?_⟩
    simp only [Mount.withTables, LastModified.Call.atomic, LocalCall.exec,
      lookup_apply_hashpath hinj ((LastModified.Call.erase (name path)).update sha256) table rfl, withTables_record]
    rfl
  | _ => cases hc

lemma exec_dirties (hinj : Function.Injective fun p => hashpath sha256 (name p)) {c : LocalCall Path}
    {c' : IsDirty.Call} (hc : c.dirties name = some c') (env : Env) (m : Mount Path)
    (table : Table Bytes Bytes) (flags : Table Bytes Bool) :
    ∃ r, c.exec env (m.withTables sha256 name table flags).toLocal =
      some (r, (m.withTables sha256 name table (c'.atomic sha256 flags)).toLocal) := by
  cases c with
  | isDirtySet path state =>
    obtain rfl := Option.some.inj hc
    refine ⟨(), ?_⟩
    simp only [Mount.withTables, IsDirty.Call.atomic, LocalCall.exec,
      lookup_apply_hashpath hinj ((IsDirty.Call.set (name path) state).update sha256) flags rfl, withTables_mark]
    rfl
  | isDirtyErase path =>
    obtain rfl := Option.some.inj hc
    refine ⟨(), ?_⟩
    simp only [Mount.withTables, IsDirty.Call.atomic, LocalCall.exec,
      lookup_apply_hashpath hinj ((IsDirty.Call.erase (name path)).update sha256) flags rfl, withTables_mark]
    rfl
  | _ => cases hc

omit [DecidableEq Path] in
lemma view_modify (k : Stored Path) (env : StoredEnv) (c : LastModified.Call Bytes) :
    (k.modify sha256 env c).view sha256 name =
    k.mount.withTables sha256 name (c.atomic sha256 k.modified.mem.table) k.dirty.mem.table := by
  rw [← c.run_table sha256 k.modified.mem env.modified]
  rfl

omit [DecidableEq Path] in
lemma view_mark (k : Stored Path) (env : StoredEnv) (c : IsDirty.Call) : (k.mark sha256 env c).view sha256 name =
    k.mount.withTables sha256 name k.modified.mem.table (c.atomic sha256 k.dirty.mem.table) := by
  rw [← c.run_table sha256 k.dirty.mem env.dirty]
  rfl

/-- A call does to the client what it does to the client that is shown. -/
lemma exec_view (hinj : Function.Injective fun p => hashpath sha256 (name p)) (env : StoredEnv) (c : LocalCall Path)
    (k : Stored Path) : (c.execStored sha256 name env k).map (fun r => (r.1, r.2.view sha256 name)) =
      (c.exec env.toEnv (k.view sha256 name).toLocal).map fun r =>
        (r.1, { k.view sha256 name with toLocal := r.2 }) := by
  have hmodify {c : LocalCall Path} {c' : LastModified.Call Bytes} (hc : c.modifies name = some c') :
      ∃ r, c.exec env.toEnv (k.view sha256 name).toLocal =
        some (r, ((k.modify sha256 env c').view sha256 name).toLocal) := by
    rw [view_modify]
    exact exec_modifies hinj hc env.toEnv k.mount _ _
  have hmark {c : LocalCall Path} {c' : IsDirty.Call} (hc : c.dirties name = some c') :
      ∃ r, c.exec env.toEnv (k.view sha256 name).toLocal =
        some (r, ((k.mark sha256 env c').view sha256 name).toLocal) := by
    rw [view_mark]
    exact exec_dirties hinj hc env.toEnv k.mount _ _
  cases c with
  | lastModifiedCount path => rfl
  | lastModifiedGet path => rfl
  | isDirtyGet path =>
    have hget : k.dirty.mem.get sha256 (name path) = ((k.view sha256 name).entry path).dirty := by
      simp only [IsDirty.get, Entry.dirty, Stored.view, Mount.withTables, withTables_entry]
      rcases k.dirty.mem.table.lookup (hashpath sha256 (name path)) with - | - | - <;> rfl
    simp only [LocalCall.execStored, LocalCall.exec, Option.map_some, hget]
  | lastModifiedSet path state =>
    obtain ⟨r, hr⟩ := hmodify (c := .lastModifiedSet path state) rfl
    rw [hr]
    rfl
  | lastModifiedErase path =>
    obtain ⟨r, hr⟩ := hmodify (c := .lastModifiedErase path) rfl
    rw [hr]
    rfl
  | isDirtySet path state =>
    obtain ⟨r, hr⟩ := hmark (c := .isDirtySet path state) rfl
    rw [hr]
    rfl
  | isDirtyErase path =>
    obtain ⟨r, hr⟩ := hmark (c := .isDirtyErase path) rfl
    rw [hr]
    rfl
  | _ =>
    rw [Stored.view, Mount.withTables, exec_withTables env.toEnv _ (by simp [LocalCall.OnTables])]
    simp only [LocalCall.execStored, Option.map_map]
    rfl

/-! ### Crashes -/

variable {k : Stored Path}

omit [DecidableEq Path] in
variable (name) in
lemma storable_of_recordable {c : LocalCall Path} (h : Call.Recordable (.disk c)) {c' : LastModified.Call Bytes}
    (hc : c.modifies name = some c') : LastModified.Storable (LastModified.recordValue (c'.update sha256)) := by
  cases c with
  | lastModifiedSet path state =>
    obtain rfl := Option.some.inj hc
    exact h
  | lastModifiedErase path =>
    obtain rfl := Option.some.inj hc
    exact .inl List.length_replicate
  | _ => cases hc

omit [DecidableEq Path] in
lemma Stored.Intact.modify (h : k.Intact) (env : StoredEnv) {c : LastModified.Call Bytes}
    (hc : LastModified.Storable (LastModified.recordValue (c.update sha256))) : (k.modify sha256 env c).Intact where
  stands := h.stands.call sha256 env.modified c
  decodes := h.decodes.call sha256 env.modified c
  storable := h.storable.call sha256 env.modified c hc
  recorded := h.recorded

omit [DecidableEq Path] in
lemma Stored.Intact.mark (h : k.Intact) (env : StoredEnv) (c : IsDirty.Call) : (k.mark sha256 env c).Intact where
  stands := h.stands
  decodes := h.decodes
  storable := h.storable
  recorded := by
    obtain ⟨s', hs', hrecorded, -⟩ := IsDirty.recorded_step sha256 h.recorded ⟨env.dirty, 0⟩ (.call c)
    cases hs'
    exact hrecorded

lemma Stored.Intact.exec (h : k.Intact) {env : StoredEnv} {c : LocalCall Path} (hc : Call.Recordable (.disk c))
    {r : c.Answer} {k' : Stored Path} (hexec : c.execStored sha256 name env k = some (r, k')) : k'.Intact := by
  cases c with
  | lastModifiedCount path | lastModifiedGet path | isDirtyGet path =>
    cases hexec
    exact h
  | lastModifiedSet path state | lastModifiedErase path =>
    cases hexec
    exact h.modify env (storable_of_recordable name hc rfl)
  | isDirtySet path state | isDirtyErase path =>
    cases hexec
    exact h.mark env _
  | exit | diverge => cases hexec
  | _ =>
    obtain ⟨x, -, hx⟩ := Option.map_eq_some_iff.mp hexec
    cases hx
    exact ⟨h.stands, h.decodes, h.storable, h.recorded⟩

/-- The flags that the files of `is_dirty` stand for after the crash. -/
def Stored.flagsAfter (sha256 : Sha256) (name : Path → Bytes) (d : Restart) (next : Option (Call Path)) (k : Stored Path) :
    Table Bytes Bool :=
  match next with
  | some (.disk c) => match c.dirties name with
    | some c => if d.effects = 0 then k.dirty.mem.table else c.atomic sha256 k.dirty.mem.table
    | none => k.dirty.mem.table
  | _ => k.dirty.mem.table

variable {d : Restart} {next : Option (Call Path)}

omit [DecidableEq Path] in
lemma Stored.Intact.flags (h : k.Intact) :
    IsDirty.Recorded (k.dirtyDisk sha256 name d next) (k.flagsAfter sha256 name d next) := by
  unfold Stored.dirtyDisk Stored.flagsAfter
  split
  · split
    · exact IsDirty.recorded_crashDisk sha256 h.recorded _ _ _
    · exact h.recorded
  · exact h.recorded

omit [DecidableEq Path] in
lemma Stored.Intact.recovered (h : k.Intact) (hd : k.Recoverable sha256 name d next)
    (hnext : ∀ x, next = some x → x.Recordable) :
    LastModified.Recovered (k.modifiedDisk sha256 name d next) d.modified.counter (k.historyAfter sha256 name d next) := by
  obtain ⟨hguard, hreadable⟩ := hd
  have hclean (hr : LastModified.History.Readable { k.history with counter := d.modified.counter }) :
      LastModified.Recovered k.modified.disk d.modified.counter { k.history with counter := d.modified.counter } :=
    LastModified.recovered_restart h.stands h.decodes h.storable d.modified.counter ⟨hr.base, hr.log, hr.unmasked⟩
  rcases next with - | ⟨c | c⟩
  · exact hclean hreadable
  · simp only [Stored.modifiedDisk, Stored.historyAfter] at hreadable ⊢
    cases hc : c.modifies name with
    | some c' =>
      simp only [hc] at hreadable ⊢
      exact LastModified.recovered_crash sha256 h.stands h.decodes h.storable d.modified c'
        (storable_of_recordable name (hnext _ rfl) hc) d.effects (hguard c c' rfl hc) hreadable
    | none =>
      simp only [hc] at hreadable ⊢
      exact hclean hreadable
  · exact hclean hreadable

omit [DecidableEq Path] in
/-- A client that can be recovered comes up with tables that are intact. -/
theorem Stored.Intact.restart (h : k.Intact) (hd : k.Recoverable sha256 name d next)
    (hnext : ∀ x, next = some x → x.Recordable) : ∃ k', k.restart sha256 name d next = some k' ∧ k'.Intact ∧
      k'.mount = k.mount ∧ k'.modified.mem.table = (k.historyAfter sha256 name d next).table ∧
        k'.dirty.mem.table = k.flagsAfter sha256 name d next := by
  have hrecovered := h.recovered hd hnext
  have hflags : IsDirty.Recorded (k.dirtyDisk sha256 name d next) (k.flagsAfter sha256 name d next) := h.flags
  refine ⟨⟨k.mount,
    ⟨⟨(k.historyAfter sha256 name d next).table, d.modified.counter⟩,
      LastModified.openLog (k.modifiedDisk sha256 name d next)⟩,
    ⟨⟨k.flagsAfter sha256 name d next, d.dirty.counter⟩, IsDirty.openLog (k.dirtyDisk sha256 name d next)⟩,
    k.historyAfter sha256 name d next⟩, ?_,
    ⟨hrecovered.stands, hrecovered.decodes, hrecovered.storable, hflags.openLog⟩, rfl, rfl, rfl⟩
  rw [Stored.restart, hrecovered.load, Option.bind_some, IsDirty.load_of_recorded hflags, Option.map_some]

omit [DecidableEq Path] in
/-- The tables after the crash are those before or after the call. -/
lemma Stored.tables_after (d : Restart) (next : Option (Call Path)) (k : Stored Path)
    (hstands : k.modified.mem.table = k.history.table) :
    ((k.historyAfter sha256 name d next).table = k.modified.mem.table ∧
      k.flagsAfter sha256 name d next = k.dirty.mem.table) ∨
    ∃ c, next = some (.disk c) ∧
      ((∃ c', c.modifies name = some c' ∧
          (k.historyAfter sha256 name d next).table = c'.atomic sha256 k.modified.mem.table ∧
        k.flagsAfter sha256 name d next = k.dirty.mem.table) ∨
      ∃ c', c.dirties name = some c' ∧ (k.historyAfter sha256 name d next).table = k.modified.mem.table ∧
        k.flagsAfter sha256 name d next = c'.atomic sha256 k.dirty.mem.table) := by
  unfold Stored.historyAfter Stored.flagsAfter
  rcases next with - | ⟨c | c⟩
  · exact .inl ⟨hstands.symm, rfl⟩
  · cases hm : c.modifies name with
    | some c' =>
      have hdirties : c.dirties name = none := by
        cases c with
        | lastModifiedSet _ _ | lastModifiedErase _ => rfl
        | _ => cases hm
      simp only [hm, hdirties, hstands]
      rcases k.history.crash_table sha256 d.modified c' d.effects with hbefore | hafter
      · exact .inl ⟨hbefore, trivial⟩
      · exact .inr ⟨c, rfl, .inl ⟨c', hm, hafter, trivial⟩⟩
    | none =>
      cases hdirties : c.dirties name with
      | some c' =>
        simp only [hm, hdirties, hstands]
        split_ifs
        · exact .inl ⟨trivial, rfl⟩
        · exact .inr ⟨c, rfl, .inr ⟨c', hdirties, trivial, rfl⟩⟩
      | none =>
        simp only [hm, hdirties]
        exact .inl ⟨hstands.symm, trivial⟩
  · exact .inl ⟨hstands.symm, rfl⟩

/-- The call only concerns the tables. -/
def Call.TableCall : Call Path → Prop
  | .disk c => c.OnTables
  | .rpc _ => False

omit [DecidableEq Path] in
lemma tableCall_of_modifies {c : LocalCall Path} {c' : LastModified.Call Bytes} (hc : c.modifies name = some c') :
    Call.TableCall (.disk c) := by
  cases c with
  | lastModifiedSet _ _ | lastModifiedErase _ => trivial
  | _ => cases hc

omit [DecidableEq Path] in
lemma tableCall_of_dirties {c : LocalCall Path} {c' : IsDirty.Call} (hc : c.dirties name = some c') :
    Call.TableCall (.disk c) := by
  cases c with
  | isDirtySet _ _ | isDirtyErase _ => trivial
  | _ => cases hc

omit [DecidableEq Path] in
lemma noticed_of_tableCall {c : Call Path} (hc : c.TableCall) {env : Env} {l : Local Path} : Noticed env l c := by
  cases c with
  | rpc c => exact hc.elim
  | disk c =>
    cases c with
    | ofstream _ | ofstreamWrite _ _ _ _ | ifstreamRead _ _ _ => exact hc.elim
    | _ => trivial

/-- Clients with the objects and files of the tables, against clients whose table calls are atomic. -/
theorem stored_simulates (hinj : Function.Injective fun p => hashpath sha256 (name p)) :
    System.Simulates (storedMachine sha256 name) (fun d next k => Stored.restart sha256 name d next k) (machine Path)
      (Stored.view sha256 name) StoredEnv.toEnv Stored.Intact Call.Recordable Call.TableCall
      (fun d next k => Stored.Recoverable sha256 name d next k) where
  prog := rfl
  begin op k _ := by
    cases op with
    | release fuel path fh =>
      by_cases hh : (path, fh) ∈ k.mount.handles
      · simp [storedMachine, machine, Mount.begin, Operation.handle, hh, Stored.view, Mount.withTables]
      · simp [storedMachine, machine, Mount.begin, Operation.handle, hh, Stored.view, Mount.withTables]
    | read path fh _ _ | write path _ _ fh | fsync path fh | ftruncate path _ fh =>
      by_cases hh : (path, fh) ∈ k.mount.handles
      · simp [storedMachine, machine, Mount.begin, Operation.handle, hh, Stored.view, Mount.withTables]
      · simp [storedMachine, machine, Mount.begin, Operation.handle, hh, Stored.view, Mount.withTables]
    | «open» _ | mknod _ | unlink _ | truncate _ _ => rfl
  begin_inv op k k' h hbegin := by
    obtain ⟨m, -, rfl⟩ := Option.map_eq_some_iff.mp hbegin
    exact ⟨h.stands, h.decodes, h.storable, h.recorded⟩
  exec env c k g _ := by
    cases c with
    | disk c =>
      have hview := congrArg (Option.map fun r => (r.1, r.2, g)) (exec_view hinj env c k)
      simpa only [storedMachine, machine, Call.execStored, Call.exec, Option.map_map, Function.comp_def] using hview
    | rpc c =>
      simp only [storedMachine, machine, Call.execStored, Call.exec, Option.map_map, Function.comp_def]
  exec_inv env c k g r k' g' h hc hexec := by
    cases c with
    | disk c =>
      obtain ⟨⟨r₁, k₁⟩, hexec₁, heq⟩ := Option.map_eq_some_iff.mp hexec
      cases heq
      exact h.exec hc hexec₁
    | rpc c =>
      obtain ⟨x, -, heq⟩ := Option.map_eq_some_iff.mp hexec
      cases heq
      exact h
  finish op r k h := ⟨rfl, ⟨h.stands, h.decodes, h.storable, h.recorded⟩⟩
  crash d next op k h hnext hd := by
    obtain ⟨k', hk', hintact, hmount, htable, hflags⟩ := h.restart hd hnext
    refine ⟨k', hk', ⟨hintact.stands, hintact.decodes, hintact.storable, hintact.recorded⟩, ?_⟩
    have hview : Stored.view sha256 name ((storedMachine sha256 name).crash op k') =
        Mount.crash op (k.mount.withTables sha256 name (k.historyAfter sha256 name d next).table
          (k.flagsAfter sha256 name d next)) := by
      rw [← htable, ← hflags, ← hmount]
      rfl
    rcases Stored.tables_after d next k h.stands.table with ⟨ht, hf⟩ | ⟨c, rfl, ⟨c', hc, ht, hf⟩ | ⟨c', hc, ht, hf⟩⟩
    · left
      rw [hview, ht, hf]
      rfl
    · obtain ⟨r, hr⟩ := exec_modifies hinj hc {} k.mount k.modified.mem.table k.dirty.mem.table
      refine .inr ⟨.disk c, {}, k.mount.withTables sha256 name (k.historyAfter sha256 name d (some (.disk c))).table
        (k.flagsAfter sha256 name d (some (.disk c))), rfl, tableCall_of_modifies hc, fun g => ⟨r, ?_⟩, hview⟩
      simp only [machine, Call.exec, Stored.view, hr, ht, hf]
      rfl
    · obtain ⟨r, hr⟩ := exec_dirties hinj hc {} k.mount k.modified.mem.table k.dirty.mem.table
      refine .inr ⟨.disk c, {}, k.mount.withTables sha256 name (k.historyAfter sha256 name d (some (.disk c))).table
        (k.flagsAfter sha256 name d (some (.disk c))), rfl, tableCall_of_dirties hc, fun g => ⟨r, ?_⟩, hview⟩
      simp only [machine, Call.exec, Stored.view, hr, ht, hf]
      rfl

end Tables

end AFSv1.Client
