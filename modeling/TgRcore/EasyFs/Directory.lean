/-
  TgRcore.EasyFs.Directory — the root directory, in memory and on disk.

  `DirOk dir k` is what the entries of a directory satisfy that only `create`, `link` and
  `unlink` write to: names that fit and inode numbers below `k`. `NamesApart` says that no
  name is there twice, which holds when new names are absent.
  `RootDir` says that the disk has the entries `dir`.
  - `RootDir.append`, `RootDir.erase`: what appending an entry and overwriting one with
    zeros do to the entries.
  - `find_run`, `readdir_run`: `find` on the root directory is the search in `dir`, `readdir`
    its names; both always return.
-/

import TgRcore.EasyFs.Dirent
import TgRcore.EasyFs.FileContents

namespace TgRcore.EasyFs

open TgRcore.Bytes TgRcore.BlockProg TgRcore.BlockProg.Prog

/-! ## The entries -/

/-- Names fit, inodes are below `k`, and no entry with a name is of the root. -/
structure DirOk (dir : List Entry) (k : Nat) : Prop where
  fits : ∀ p ∈ dir, NameFits p.1
  lt : ∀ p ∈ dir, p.2 < k
  noRoot : ∀ p ∈ dir, p.2 = 0 → p.1 = ""

/-- Only dead entries have no name, and no name is there twice. -/
structure NamesApart (dir : List Entry) : Prop where
  noName : ∀ p ∈ dir, p.1 = "" → p.2 = 0
  distinct : ∀ (i j : Nat) (p q : Entry), dir[i]? = some p → dir[j]? = some q → p.1 = q.1 → p.1 ≠ "" → i = j

/-- The number of names of inode `id`. -/
def names (dir : List Entry) (id : Nat) : Nat := dir.countP fun p => p.2 == id

section Lists

variable {dir : List Entry} {k id i j : Nat} {name : String} {p : Entry}

theorem mem_of_lookup (h : dir.lookup name = some id) : (name, id) ∈ dir := by
  obtain ⟨l₁, l₂, e, -⟩ := List.lookup_eq_some_iff.mp h
  rw [e]
  simp

/-- The entries that are left when entry `j` dies. -/
theorem getElem?_erase (h : (dir.set j dead)[i]? = some p) : p = dead ∨ (i ≠ j ∧ dir[i]? = some p) := by
  rw [List.getElem?_set] at h
  split at h
  · split at h
    · exact .inl (Option.some.inj h).symm
    · cases h
  · rename_i hne
    exact .inr ⟨fun e => hne e.symm, h⟩

theorem mem_erase (h : p ∈ dir.set j dead) : p = dead ∨ p ∈ dir := by
  obtain ⟨i, hi⟩ := List.mem_iff_getElem?.mp h
  rcases getElem?_erase hi with e | ⟨-, hi⟩
  · exact .inl e
  · exact .inr (List.mem_of_getElem? hi)

/-- The other names stay when an entry dies. -/
theorem lookup_erase_of_ne {name' : String} (hj : dir[j]? = some (name, id)) (hne : name' ≠ name) (hn : name' ≠ "") :
    (dir.set j dead).lookup name' = dir.lookup name' := by
  induction dir generalizing j with
  | nil => rfl
  | cons p dir ih =>
    cases j with
    | zero =>
      rw [List.getElem?_cons_zero, Option.some.injEq] at hj
      rw [List.set_cons_zero, List.lookup_cons, List.lookup_cons, hj, beq_false_of_ne hne,
        show (name' == dead.1) = false from beq_false_of_ne hn]
    | succ j =>
      rw [List.getElem?_cons_succ] at hj
      rw [List.set_cons_succ, List.lookup_cons, List.lookup_cons, ih hj]

end Lists

namespace DirOk

variable {dir : List Entry} {k id j : Nat} {name : String} {p : Entry}

theorem nil (k : Nat) : DirOk [] k := ⟨by simp, by simp, by simp⟩

theorem lookup_lt (h : DirOk dir k) (hl : dir.lookup name = some id) : id < k := h.lt _ (mem_of_lookup hl)

theorem lookup_pos (h : DirOk dir k) (hl : dir.lookup name = some id) (hn : name ≠ "") : 0 < id := by
  rcases Nat.eq_zero_or_pos id with h0 | h0
  · exact absurd (h.noRoot _ (mem_of_lookup hl) h0) hn
  · exact h0

/-- A name is appended. -/
theorem append {k' : Nat} (h : DirOk dir k) (hk : k ≤ k') (hv : NameFits p.1) (h0 : 0 < p.2) (hlt : p.2 < k') :
    DirOk (dir ++ [p]) k' := by
  refine ⟨fun q hq => ?_, fun q hq => ?_, fun q hq => ?_⟩
  · rcases List.mem_append.mp hq with hq | hq
    · exact h.fits q hq
    · rw [List.mem_singleton.mp hq]
      exact hv
  · rcases List.mem_append.mp hq with hq | hq
    · exact Nat.lt_of_lt_of_le (h.lt q hq) hk
    · rw [List.mem_singleton.mp hq]
      exact hlt
  · rcases List.mem_append.mp hq with hq | hq
    · exact h.noRoot q hq
    · rw [List.mem_singleton.mp hq]
      exact fun e => absurd e (Nat.ne_of_gt h0)

theorem erase (h : DirOk dir k) (hk : 0 < k) (j : Nat) : DirOk (dir.set j dead) k := by
  refine ⟨fun p hp => ?_, fun p hp => ?_, fun p hp => ?_⟩
  · rcases mem_erase hp with rfl | hp
    · exact nameFits_empty
    · exact h.fits p hp
  · rcases mem_erase hp with rfl | hp
    · exact hk
    · exact h.lt p hp
  · rcases mem_erase hp with rfl | hp
    · exact fun _ => rfl
    · exact h.noRoot p hp

end DirOk

namespace NamesApart

variable {dir : List Entry} {id j : Nat} {name : String} {p : Entry}

theorem nil : NamesApart [] := ⟨by simp, by simp⟩

/-- The search finds the only entry with the name. -/
theorem lookup_iff (h : NamesApart dir) (hn : name ≠ "") : dir.lookup name = some id ↔ (name, id) ∈ dir := by
  constructor
  · exact mem_of_lookup
  · intro hm
    cases hl : dir.lookup name with
    | none =>
      have := List.lookup_eq_none_iff.mp hl _ hm
      simp at this
    | some id' =>
      obtain ⟨i, hi⟩ := List.mem_iff_getElem?.mp hm
      obtain ⟨i', hi'⟩ := List.mem_iff_getElem?.mp (mem_of_lookup hl)
      obtain rfl := h.distinct i i' _ _ hi hi' rfl hn
      rw [hi] at hi'
      cases hi'
      rfl

/-- A new name is appended. -/
theorem append (h : NamesApart dir) (hn : p.1 ≠ "") (hnew : dir.lookup p.1 = none) : NamesApart (dir ++ [p]) := by
  have hfresh : ∀ q ∈ dir, q.1 ≠ p.1 := by
    intro q hq e
    have := List.lookup_eq_none_iff.mp hnew q hq
    simp [e] at this
  refine ⟨fun q hq => ?_, fun i j q r hi hj e hne => ?_⟩
  · rcases List.mem_append.mp hq with hq | hq
    · exact h.noName q hq
    · rw [List.mem_singleton.mp hq]
      exact fun e => absurd e hn
  · -- an index past the old entries is that of the new one
    have hlast : ∀ {m : Nat} {x : Entry}, (dir ++ [p])[m]? = some x → dir.length ≤ m → m = dir.length ∧ x = p := by
      intro m x hm hge
      rw [List.getElem?_append_right hge] at hm
      have hz : m - dir.length = 0 := by
        by_contra hc
        rw [List.getElem?_singleton, if_neg hc] at hm
        cases hm
      rw [hz] at hm
      cases hm
      exact ⟨by omega, rfl⟩
    by_cases hi' : i < dir.length
    · rw [List.getElem?_append_left hi'] at hi
      by_cases hj' : j < dir.length
      · rw [List.getElem?_append_left hj'] at hj
        exact h.distinct i j q r hi hj e hne
      · obtain ⟨-, rfl⟩ := hlast hj (by omega)
        exact absurd e (hfresh q (List.mem_of_getElem? hi))
    · obtain ⟨h1, rfl⟩ := hlast hi (by omega)
      by_cases hj' : j < dir.length
      · rw [List.getElem?_append_left hj'] at hj
        exact absurd e.symm (hfresh r (List.mem_of_getElem? hj))
      · obtain ⟨h2, -⟩ := hlast hj (by omega)
        omega

theorem erase (h : NamesApart dir) (j : Nat) : NamesApart (dir.set j dead) := by
  refine ⟨fun p hp => ?_, fun i i' p q hi hi' e hne => ?_⟩
  · rcases mem_erase hp with rfl | hp
    · exact fun _ => rfl
    · exact h.noName p hp
  · rcases getElem?_erase hi with rfl | ⟨-, hi⟩
    · exact absurd rfl hne
    · rcases getElem?_erase hi' with rfl | ⟨-, hi'⟩
      · exact absurd e hne
      · exact h.distinct i i' p q hi hi' e hne

/-- The name of the dead entry is gone. -/
theorem lookup_erase_self (h : NamesApart dir) (hj : dir[j]? = some (name, id)) (hn : name ≠ "") :
    (dir.set j dead).lookup name = none := by
  cases hl : (dir.set j dead).lookup name with
  | none => rfl
  | some id' =>
    obtain ⟨i, hi⟩ := List.mem_iff_getElem?.mp (mem_of_lookup hl)
    rcases getElem?_erase hi with e | ⟨hne, hi⟩
    · exact absurd (congrArg Prod.fst e) hn
    · exact absurd (h.distinct i j _ _ hi hj rfl hn) hne

end NamesApart

theorem lookup_append_of_ne {dir : List Entry} {p : Entry} {name : String} (h : name ≠ p.1) :
    (dir ++ [p]).lookup name = dir.lookup name := by
  rw [List.lookup_append, List.lookup_cons, beq_false_of_ne h]
  simp

theorem lookup_append_self {dir : List Entry} {p : Entry} (h : dir.lookup p.1 = none) :
    (dir ++ [p]).lookup p.1 = some p.2 := by
  rw [List.lookup_append, h, List.lookup_cons, beq_self_eq_true]
  rfl

/-! ### Counting names -/

section Names

variable {dir : List Entry} {p : Entry} {id j : Nat}

theorem names_append (dir : List Entry) (p : Entry) (id : Nat) :
    names (dir ++ [p]) id = names dir id + if p.2 = id then 1 else 0 := by
  unfold names
  rw [List.countP_append, List.countP_singleton]
  simp

theorem names_erase (hj : dir[j]? = some p) (h0 : 0 < id) :
    names (dir.set j dead) id + (if p.2 = id then 1 else 0) = names dir id := by
  obtain ⟨hlt, e⟩ := List.getElem?_eq_some_iff.mp hj
  have hpos : p.2 = id → 0 < names dir id := by
    intro e'
    refine List.countP_pos_iff.mpr ⟨p, List.mem_of_getElem? hj, ?_⟩
    simpa using e'
  unfold names at hpos ⊢
  rw [List.countP_set hlt, e]
  have hd : (dead.2 == id) = false := by
    refine beq_false_of_ne fun e => ?_
    rw [← e] at h0
    cases h0
  rw [hd]
  by_cases e' : p.2 = id
  · have := hpos e'
    simp only [e', beq_self_eq_true, if_true]
    simp
    omega
  · simp [e']

theorem names_le (dir : List Entry) (id : Nat) : names dir id ≤ dir.length := List.countP_le_length

theorem names_pos_iff : 0 < names dir id ↔ ∃ name, (name, id) ∈ dir := by
  unfold names
  rw [List.countP_pos_iff]
  constructor
  · rintro ⟨p, hp, e⟩
    rw [beq_iff_eq] at e
    exact ⟨p.1, e ▸ hp⟩
  · rintro ⟨name, hm⟩
    exact ⟨_, hm, beq_self_eq_true id⟩

/-- Two names, two entries. -/
theorem one_lt_names {name name' : String} (h : (name, id) ∈ dir) (h' : (name', id) ∈ dir) (hne : name' ≠ name) (h0 : 0 < id) :
    1 < names dir id := by
  obtain ⟨i, hi⟩ := List.mem_iff_getElem?.mp h
  obtain ⟨i', hi'⟩ := List.mem_iff_getElem?.mp h'
  have hii : i ≠ i' := by
    rintro rfl
    rw [hi] at hi'
    exact hne (congrArg Prod.fst (Option.some.inj hi')).symm
  have hcnt := names_erase hi h0
  rw [if_pos rfl] at hcnt
  have hmem : (name', id) ∈ dir.set i dead := List.mem_iff_getElem?.mpr ⟨i', by rw [List.getElem?_set_ne hii, hi']⟩
  have := names_pos_iff.mpr ⟨name', hmem⟩
  omega

end Names

/-! ## The root directory on disk -/

/-- Inode 0 is a directory with the entries `dir`, all of its blocks on the device. -/
structure RootDir (efs : EasyFileSystem) (size : Nat) (blk : Nat → Block) (dir : List Entry) : Prop where
  isDir : (efs.inodeAt blk 0).isDir = true
  content : contentAt efs blk (efs.handle 0) = dirBytes dir
  device : ∀ b ∈ efs.treeAt blk 0, b < size

namespace RootDir

variable {efs : EasyFileSystem} {size k id : Nat} {blk blk' blk₁ blkg : Nat → Block} {dir : List Entry} {d' : DiskInode}

theorem size_eq (h : RootDir efs size blk dir) : (efs.inodeAt blk 0).size = 32 * dir.length := by
  rw [← length_dirBytes dir, ← h.content]
  exact (length_content _ _).symm

/-- A directory is full before inode numbers run out. -/
theorem length_lt (h : RootDir efs size blk dir) (hw : Wf efs blk k) (h0 : 0 < k) : dir.length < 2 ^ 20 := by
  have h1 := hw.small 0 h0
  rw [DiskInode.dataBlocks, h.size_eq] at h1
  unfold DiskInode.dataBlocksOf at h1
  omega

/-- A call on another inode. -/
theorem other (h : RootDir efs size blk dir) (hw : Wf efs blk k) (h0 : 0 < k) (hst : InodeStep efs blk blk' k id)
    (hne : id ≠ 0) : RootDir efs size blk' dir := by
  refine ⟨?_, ?_, ?_⟩
  · rw [hst.others 0 (Nat.lt_of_lt_of_le h0 hw.slots) (Ne.symm hne)]
    exact h.isDir
  · rw [hst.content_eq hw h0 (Ne.symm hne)]
    exact h.content
  · rw [hst.treeAt hw h0 (Ne.symm hne)]
    exact h.device

theorem newInode {i : Nat} (h : RootDir efs size blk dir) (hw : Wf efs blk k) (h0 : 0 < k)
    (hi : i < efs.inodeBitmap.maximum) (hs : asU32 i < efs.slots) (hne : asU32 i ≠ 0) :
    RootDir efs size (newInode efs blk i) dir := by
  have hino : efs.inodeAt (EasyFs.newInode efs blk i) 0 = efs.inodeAt blk 0 :=
    inodeAt_newInode_of_ne hw.geo hi (Ne.symm hne)
  refine ⟨?_, ?_, ?_⟩
  · rw [hino]
    exact h.isDir
  · rw [contentAt_newInode hw hi hs h0 (Ne.symm hne)]
    exact h.content
  · unfold EasyFileSystem.treeAt
    rw [hino, tree_congr (hw.small 0 h0) (newInode_tree hw hi hs h0)]
    exact h.device

/-- What appending an entry wrote. -/
theorem append (h : RootDir efs size blk dir) (hw : Wf efs blk k) (h0 : 0 < k) {p : Entry}
    (hgw : GrowWrite efs size (efs.inodeAt blk 0) blk (((efs.inodeAt blk 0).size / 32 + 1) * 32)
      ((efs.inodeAt blk 0).size / 32 * 32) (direntBytes p.1 p.2) d' blkg blk₁) :
    RootDir efs size (storeInode efs blk blk₁ 0 d') (dir ++ [p]) := by
  have hsize := h.size_eq
  have ht := hw.treeOk h0
  have hgw' := hgw.of_dirent
  have hoff : (efs.inodeAt blk 0).size / 32 * 32 = (efs.inodeAt blk 0).size := by omega
  have hcontent : EasyFs.content d' blk₁ = dirBytes (dir ++ [p]) := by
    have hone : dirBytes [p] = direntBytes p.1 p.2 := dirBytes_singleton p
    have hold : EasyFs.content (efs.inodeAt blk 0) blk = dirBytes dir := h.content
    have hgw₂ := hgw'
    rw [hoff] at hgw₂
    rw [hgw₂.content_append ht, hold, dirBytes_append, hone]
  refine ⟨?_, ?_, ?_⟩
  · rw [inodeAt_storeInode_self hgw.step.fits, DiskInode.isDir, hgw.type_eq]
    exact h.isDir
  · rw [hgw.step.content_self hw h0]
    exact hcontent
  · rw [hgw.step.treeAt_self hw h0]
    exact hgw'.tree_lt (direntBytes_ne_nil _ _) ht h.device

/-- Entry `i` is overwritten with zeros. -/
theorem erase (h : RootDir efs size blk dir) (hw : Wf efs blk k) (h0 : 0 < k) {i : Nat} (hi : i < dir.length)
    (hwr : Written (efs.inodeAt blk 0) blk blk' (32 * i) dead.bytes) :
    RootDir efs size (storeInode efs blk blk' 0 (efs.inodeAt blk 0)) (dir.set i dead) := by
  have hsize := h.size_eq
  have ht := hw.treeOk h0
  have hst := hwr.treeStep ht hw.geo
  refine ⟨?_, ?_, ?_⟩
  · rw [inodeAt_storeInode_self hst.fits]
    exact h.isDir
  · have hold : EasyFs.content (efs.inodeAt blk 0) blk = dirBytes dir := h.content
    rw [hst.content_self hw h0, hwr.content_eq (by rw [length_bytes]; omega), hold, overwrite_dirBytes dead hi]
  · rw [hst.treeAt_self hw h0, hwr.tree_eq ht.small ht.nodup]
    exact h.device

end RootDir

/-! ### Looking a name up -/

section Lookup

variable {efs : EasyFileSystem} {s : Store Block} {k : Nat} {dir : List Entry}

/-- In the closure of an access to the root directory its blocks can be locked. -/
theorem RootDir.free (h : RootDir efs s.size s.blk dir) (hl : Locked efs s) (hw : Wf efs s.blk k) (h0 : 0 < k) :
    ∀ b ∈ tree (efs.inodeAt s.blk 0) (s.pin (efs.inodeBlock 0)).blk, (s.pin (efs.inodeBlock 0)).Free b := fun b hb =>
  (hl.open_inode (Nat.lt_of_lt_of_le h0 hw.slots)).dataFree (hw.inData 0 h0 b hb) (h.device b hb)

theorem RootDir.findLoop_run (h : RootDir efs s.size s.blk dir) (hd : DirOk dir k) (hl : Locked efs s)
    (hw : Wf efs s.blk k) (h0 : 0 < k) (hk : k ≤ 2 ^ 32) (name : String) :
    (Inode.findLoop (efs.inodeAt s.blk 0) name ((efs.inodeAt s.blk 0).size / 32) 0).run (s.pin (efs.inodeBlock 0)) =
      .ok ((firstAt name dir 0).map fun x => (x.1, dirent x.2), s.pin (efs.inodeBlock 0)) := by
  have hlen : (efs.inodeAt s.blk 0).size / 32 = dir.length := by
    rw [h.size_eq]
    omega
  rw [hlen]
  exact EasyFs.findLoop_run (s := s.pin (efs.inodeBlock 0)) (hw.small 0 h0) (h.free hl hw h0) h.content hd.fits
    (fun p hp => Nat.lt_of_lt_of_le (hd.lt p hp) hk) name dir.length 0 (Nat.zero_add _)

theorem RootDir.findInodeId_run (h : RootDir efs s.size s.blk dir) (hd : DirOk dir k) (hl : Locked efs s)
    (hw : Wf efs s.blk k) (h0 : 0 < k) (hk : k ≤ 2 ^ 32) (name : String) :
    (Inode.findInodeId name (efs.inodeAt s.blk 0)).run (s.pin (efs.inodeBlock 0)) =
      .ok (dir.lookup name, s.pin (efs.inodeBlock 0)) := by
  rw [Inode.findInodeId, assert_true h.isDir, ret_bind, run_bind_of (h.findLoop_run hd hl hw h0 hk name),
    ← firstAt_lookup name dir 0]
  cases firstAt name dir 0 <;> rfl

theorem find_run (h : RootDir efs s.size s.blk dir) (hd : DirOk dir k) (hi : Idle efs s) (hw : Wf efs s.blk k)
    (h0 : 0 < k) (hk : k ≤ 2 ^ 32) (name : String) :
    (Inode.find efs (efs.handle 0) name).run s = .ok ((dir.lookup name).map efs.handle, s) := by
  have hslot := Nat.lt_of_lt_of_le h0 hw.slots
  have hfind := RootDir.findInodeId_run (s := { s with busy := true }) h hd hi.lock hw h0 hk name
  refine run_withMutex (g := s.blk) hi.busy (readDiskInode_run (hi.lock.inodeFree hslot) ?_)
  refine (run_bind_of hfind).trans ?_
  cases hl : dir.lookup name with
  | none => rfl
  | some id =>
    have hid := Nat.lt_of_lt_of_le (hd.lookup_lt hl) hw.slots
    exact run_bind_of (inode_run hi.geo (hi.geo.inodeBlock_lt_area hid) _)

/-- `readdir` lists the names of all entries, dead ones included. -/
theorem readdir_run (h : RootDir efs s.size s.blk dir) (hd : DirOk dir k) (hi : Idle efs s) (hw : Wf efs s.blk k)
    (h0 : 0 < k) (hk : k ≤ 2 ^ 32) : (Inode.readdir efs (efs.handle 0)).run s = .ok (dir.map Prod.fst, s) := by
  have hslot := Nat.lt_of_lt_of_le h0 hw.slots
  have hlen : (efs.inodeAt s.blk 0).size / 32 = dir.length := by
    rw [h.size_eq]
    omega
  have hfree := RootDir.free (s := { s with busy := true }) h hi.lock hw h0
  have hloop := readdirLoop_run (s := ({ s with busy := true } : Store Block).pin (efs.inodeBlock 0)) (hw.small 0 h0) hfree
    h.content hd.fits (fun p hp => Nat.lt_of_lt_of_le (hd.lt p hp) hk) dir.length 0 (Nat.zero_add _)
  refine run_withMutex (g := s.blk) hi.busy (readDiskInode_run (hi.lock.inodeFree hslot) ?_)
  rw [hlen]
  exact hloop

end Lookup

end TgRcore.EasyFs
