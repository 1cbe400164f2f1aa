import AFSv1.Protocol

/-! The two transfer loops of the client. -/
namespace AFSv1.Client
open Foundations

/-- The reader loop of `afs_open`: the bytes written to the cache file, and the timestamp of the
message read last; `none` unless the first message says that the file exists. -/
def received : List MetaContent → Option (Bytes × Bytes)
  | [] => none
  | msg :: msgs =>
    if msg.file_exists then some ((msg :: msgs).flatMap MetaContent.b, (msgs.getLastD msg).timestamp) else none

/-- The messages `afs_release` makes of a cache file. -/
def uploadStream (path file : Bytes) : List FilepathContent := (Bytes.blocks BUFSIZE file).map fun b => ⟨path, b⟩

theorem received_eq {msgs : List MetaContent} {timestamp : Bytes} (hne : msgs ≠ [])
    (h : ∀ msg ∈ msgs, msg.file_exists = true ∧ msg.timestamp = timestamp) :
    received msgs = some (msgs.flatMap MetaContent.b, timestamp) := by
  cases msgs with
  | nil => exact absurd rfl hne
  | cons msg msgs =>
    have hlast : (msgs.getLastD msg).timestamp = timestamp := by
      refine (h _ ?_).2
      rw [List.getLastD_eq_getLast?]
      cases hl : msgs.getLast? with
      | none => simp
      | some m => exact List.mem_cons_of_mem _ (List.mem_of_getLast? hl)
    rw [received, if_pos (h msg (by simp)).1, hlast]

end AFSv1.Client
