import AFSv1.Client.Alone
import AFSv1.Client.TimestampCheck

/-! Runs of many clients: the timestamp check stays sound in every state they reach, as long as no failed
transfer goes unnoticed, and one that does breaks it. -/
namespace AFSv1.Client
open Foundations Tables

variable {A Path : Type} [DecidableEq A] [DecidableEq Path]

/-- A clean cache file with the time of the server's version has its content. -/
def TimestampSound (s : World A Path) : Prop :=
  ∀ a path b v, ((s.locals a).entry path).content = some b → s.shared.files path = some v →
    ((s.locals a).entry path).last_modified = some (v.mtim : Bytes) → ((s.locals a).entry path).dirty = false → b = v.content

/-- `afs_truncate` and `afs_ftruncate` change the cache file and mark nothing. -/
def Operation.Truncates : Operation Path → Prop
  | .ftruncate _ _ _ | .truncate _ _ => True
  | _ => False

instance (op : Operation Path) : Decidable op.Truncates := by
  induction op using Operation.casesOn <;> unfold Operation.Truncates <;> infer_instance

/-- What an operation has to leave behind. -/
def CheckPost : Operation Path → Outcome → Mount Path → Remote Path → Prop
  | .open path => OpensHandle path
  | _ => Anything

lemma check_begin {op : Operation Path} {m m' : Mount Path} {g : Remote Path} (hinv : m.Checked g) (hop : ¬ op.Truncates)
    (h : Mount.begin op m = some m') : m'.Checked g ∧ op.program.Safe (checkLogic Path) (CheckPost op) m' g := by
  cases op with
  | release fuel path fh =>
    obtain ⟨hmem, rfl⟩ := Mount.begin_release h
    have hfd : m.toLocal.file fh = none ∨ fh < 2 ^ 31 :=
      (hinv.handles.valid _ hmem).imp (fun hbad => by rw [show fh = badHandle from hbad, Local.file_badHandle]) And.left
    exact ⟨⟨hinv.entry, hinv.handles.erase _⟩,
      check_afsRelease fuel path fh (hfd.imp_right fun hlt => ⟨hlt, hinv.handles.unused_erase hmem⟩)⟩
  | «open» path =>
    obtain ⟨rfl, -⟩ := Mount.begin_other h nofun
    exact ⟨hinv, check_afsOpen path⟩
  | read path fh size offset =>
    obtain ⟨rfl, -⟩ := Mount.begin_other h nofun
    exact ⟨hinv, check_afsRead fh size offset⟩
  | write path buf offset fh =>
    obtain ⟨rfl, hmem⟩ := Mount.begin_other h nofun
    exact ⟨hinv, check_afsWrite path buf offset fh (hmem _ rfl)⟩
  | fsync path fh =>
    obtain ⟨rfl, -⟩ := Mount.begin_other h nofun
    exact ⟨hinv, check_afsFsync fh⟩
  | mknod path =>
    obtain ⟨rfl, -⟩ := Mount.begin_other h nofun
    exact ⟨hinv, check_afsMknod path⟩
  | unlink path =>
    obtain ⟨rfl, -⟩ := Mount.begin_other h nofun
    exact ⟨hinv, check_afsUnlink path⟩
  | ftruncate _ _ _ | truncate _ _ => exact absurd trivial hop

omit [DecidableEq A] in
lemma check_obligations : System.Obligations (machine Path) (fun _ : A => checkLogic Path) (fun _ => CheckPost)
    (fun _ op _ _ => ¬ op.Truncates) fun _ _ _ _ => True where
  exec _ := rfl
  stable _ _ _ _ _ := Mount.Checked.evolves
  start _ _ _ _ _ hinv hop h := check_begin hinv hop h
  finish _ op out m g hinv hpost := by
    refine ⟨fun path => ?_, hinv.handles.finish fun path hop hrc => ?_⟩
    · exact hinv.entry path
    · subst hop
      exact hpost hrc
  crash _ _ op m g hinv _ := ⟨fun path => hinv.entry path, m.handlesOk_crash op⟩

omit [DecidableEq A] in
lemma check_start (g : Remote Path) : (World.start A g).Sound (fun _ => checkLogic Path) fun _ => CheckPost :=
  fun _ => ⟨⟨fun _ => Entry.sound_of_none rfl, ⟨nofun, .nil⟩⟩, nofun⟩

/-- As long as every failed transfer is noticed, no cache file looks current that is not. -/
theorem timestampSound_of_noticed (g : Remote Path) (es : List (WorldEvent A Path)) (s : World A Path)
    (hops : ∀ a op, .start a op ∈ es → ¬ op.Truncates)
    (hnoticed : (World.start A g).Along (machine Path) (System.CallOk fun _ env c m _ => Noticed env m.toLocal c) es)
    (hrun : (World.start A g).run (machine Path) es = some s) : TimestampSound s := by
  have hallowed := hnoticed.mono (Q := System.Allowed (fun _ => checkLogic Path) (fun _ op _ _ => ¬ op.Truncates)
    fun _ _ _ _ => True) fun s e he hcall => by
      cases e with
      | start a op => exact hops a op he
      | call a env => exact fun op c k hc => ⟨hcall op c k hc, fun r l g hexec b _ => machine_evolves hexec⟩
      | finish a => trivial
      | crash a => trivial
  have hsound := (check_start g).run check_obligations hallowed hrun
  intro a path b v hcontent hfiles htime hclean
  exact (((hsound a).1.entry path).agrees v.mtim b htime hcontent hclean v hfiles rfl).symm

/-! ### Two clients and one path -/

/-- One client creates a file, the other downloads it. -/
def handedOver : List (WorldEvent Bool Unit) :=
  session false (.open ()) (quiet 7 1) ++ session false (.write () (Bytes.ascii "x") 0 3) (quiet 2 1) ++
    session false (.release 1 () 3) (quiet 8 1) ++ session true (.open ()) (quiet 7 2)

theorem timestampSound_of_noticed_handedOver :
    ∃ s, (World.start Bool .empty).run (machine Unit) handedOver = some s ∧ TimestampSound s := by
  have hops : ∀ a op, .start a op ∈ handedOver → ¬ op.Truncates := by
    simp [handedOver, session, quiet, Operation.Truncates]
  have hquiet : ∀ e ∈ handedOver, ∀ a env, e = .call a env → env.fault = none := by
    simp [handedOver, session, quiet]
  have hnoticed : (World.start Bool .empty).Along (machine Unit)
      (System.CallOk fun _ env c m _ => Noticed env m.toLocal c) handedOver := by
    refine System.along_of_forall (fun s e he => ?_) _
    cases e with
    | call a env => exact fun _ c _ _ => noticed_of_quiet (hquiet _ he a env rfl) _ c
    | _ => trivial
  have hsome : ((World.start Bool .empty).run (machine Unit) handedOver).isSome := by decide +kernel
  obtain ⟨s, hs⟩ := Option.isSome_iff_exists.mp hsome
  exact ⟨s, hs, timestampSound_of_noticed .empty handedOver s hops hnoticed hs⟩

/-- The disk is full when the second client stores what it downloads. -/
def fullDisk : List (WorldEvent Bool Unit) :=
  session false (.open ()) (quiet 7 1) ++ session false (.write () (Bytes.ascii "x") 0 3) (quiet 2 1) ++
    session false (.release 1 () 3) (quiet 8 1) ++
      session true (.open ()) (quiet 3 2 ++ { fault := some .ENOSPC } :: quiet 3 2)

/-- The empty cache file is clean and carries the time of the server's version. -/
theorem not_timestampSound_fullDisk :
    (∀ a op, .start a op ∈ fullDisk → ¬ op.Truncates) ∧
      ∃ s, (World.start Bool .empty).run (machine Unit) fullDisk = some s ∧ ¬ TimestampSound s := by
  refine ⟨by simp [fullDisk, session, quiet, Operation.Truncates], ?_⟩
  have hend : ∃ s, (World.start Bool .empty).run (machine Unit) fullDisk = some s ∧
      ((s.locals true).entry ()).content = some [] ∧ s.shared.files () = some ⟨Bytes.ascii "x", .uniform 1⟩ ∧
        ((s.locals true).entry ()).last_modified = some (Timestamp.uniform 1 : Bytes) ∧
          ((s.locals true).entry ()).dirty = false := by
    decide +kernel
  obtain ⟨s, hs, hcontent, hfiles, htime, hclean⟩ := hend
  refine ⟨s, hs, fun hsound => ?_⟩
  exact absurd (hsound true () [] _ hcontent hfiles htime hclean) (by decide)

end AFSv1.Client
