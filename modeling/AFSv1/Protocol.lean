import AFSv1.Foundations.Bytes

/-! The messages of `protos/afs.proto` that the modelled calls read or fill; every field has its
protobuf default. -/
namespace AFSv1
open Foundations

/-- Status codes the handlers return, and the failures the gRPC library reports. -/
inductive Status where
  | OK | CANCELLED | NOT_FOUND | UNAVAILABLE
  deriving DecidableEq, Repr

structure Meta where
  file_exists : Bool := false
  timestamp : Bytes := []
  deriving DecidableEq, Repr

structure FilepathContent where
  filepath : Bytes := []
  b : Bytes := []
  deriving DecidableEq, Repr

structure MetaContent where
  file_exists : Bool := false
  timestamp : Bytes := []
  b : Bytes := []
  deriving DecidableEq, Repr

structure StatContent where
  return_code : ℤ := 0
  error_number : ℤ := 0
  st_dev : ℕ := 0
  st_ino : ℕ := 0
  st_mode : ℕ := 0
  st_nlink : ℕ := 0
  st_uid : ℕ := 0
  st_gid : ℕ := 0
  st_rdev : ℕ := 0
  st_size : ℤ := 0
  st_blksize : ℤ := 0
  st_blocks : ℤ := 0
  st_atim : Bytes := []
  st_mtim : Bytes := []
  st_ctim : Bytes := []
  deriving DecidableEq, Repr

structure LsResult where
  d_name : List Bytes := []
  deriving DecidableEq, Repr

structure Response where
  return_code : ℤ := 0
  error_number : ℤ := 0
  deriving DecidableEq, Repr

/-- `BUFSIZE`, the chunk size of both transfer directions. -/
def BUFSIZE : ℕ := 65500

end AFSv1
