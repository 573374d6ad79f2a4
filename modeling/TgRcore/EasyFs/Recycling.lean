/-
  TgRcore.EasyFs.Recycling — whether inode numbers come back (`unlink`, `alloc_inode`).

  `unlink` gives back the blocks of an inode whose last name goes, but not its bit of the
  inode bitmap: the bitmap has every inode ever made.
  - `inodes_recycled`: where no call takes an inode's last name, the bitmap has the root
    and the inodes with a name, and `alloc_inode` returns as long as these leave one free.
  - `inode_leaked`: after `create` and `unlink` of one name, the bit is still set.
-/

import TgRcore.EasyFs.Namespace

namespace TgRcore.EasyFs

open TgRcore.Bytes TgRcore.BlockProg TgRcore.BlockProg.Prog

/-- The inodes that have a name in the root directory. -/
def namedInodes (efs : EasyFileSystem) (blk : Nat → Block) : Set Nat := {id | ∃ name, name ≠ "" ∧ Named efs blk name id}

/-- The bitmap has the root and the inodes with a name, no others. -/
def BitmapFollowsNames (efs : EasyFileSystem) (blk : Nat → Block) : Prop :=
  ∀ i < efs.inodeBitmap.maximum, efs.inodeBitmap.bit blk i = true ↔ i = 0 ∨ i ∈ namedInodes efs blk

/-- `create`, `link` and `unlink` in the root directory, of valid names, the new ones absent. -/
def DirCall (efs : EasyFileSystem) (blk : Nat → Block) : Call → Prop
  | .root => True
  | .create i name => i = efs.handle 0 ∧ ValidName name ∧ Absent efs blk name
  | .link i old new => i = efs.handle 0 ∧ ValidName old ∧ ValidName new ∧ Absent efs blk new
  | .unlink i name => i = efs.handle 0 ∧ ValidName name
  | _ => False

/-- `unlink` leaves the inode another name. -/
def LeavesName (efs : EasyFileSystem) (blk : Nat → Block) : Call → Prop
  | .unlink _ name => ∀ id, Named efs blk name id → ∃ name', name' ≠ name ∧ name' ≠ "" ∧ Named efs blk name' id
  | _ => True

theorem DirCall.nameCall {efs : EasyFileSystem} {blk : Nat → Block} {call : Call} (h : DirCall efs blk call) :
    NameCall efs blk call := by
  cases call with
  | root => exact h
  | create i name => exact h
  | link i old new => exact h
  | unlink i name => exact h
  | _ => exact h.elim

/-! ## As long as no last name goes -/

section Names

variable {dir : List Entry} {k id j : Nat} {name name' : String}

/-- Every inode but the root has a name. -/
def AllNamed (dir : List Entry) (k : Nat) : Prop := ∀ id, 0 < id → id < k → 0 < names dir id

theorem AllNamed.append {p : Entry} (h : AllNamed dir k) : AllNamed (dir ++ [p]) k := by
  intro id h0 hid
  rw [names_append]
  have := h id h0 hid
  omega

theorem AllNamed.create (h : AllNamed dir k) : AllNamed (dir ++ [(name, k)]) (k + 1) := by
  intro id h0 hid
  rw [names_append]
  by_cases e : k = id
  · rw [if_pos e]
    omega
  · have := h id h0 (by omega)
    omega

theorem AllNamed.erase (h : AllNamed dir k) (hj : dir[j]? = some (name, id)) (hmore : 1 < names dir id) :
    AllNamed (dir.set j dead) k := by
  intro id' h0 hid'
  have hcnt := names_erase hj h0
  by_cases e : id = id'
  · rw [if_pos e] at hcnt
    rw [e] at hmore
    omega
  · rw [if_neg e] at hcnt
    have := h id' h0 hid'
    omega

end Names

section Runs

variable {efs : EasyFileSystem} {dev : BlockDevice Block} {m m' : Cached Block} {hs : List Inode} {s : Store Block}
  {k total ibb : Nat} {dir : List Entry}

theorem NamesAt.allNamed {blk' : Nat → Block} {k' : Nat} {dir' : List Entry} {call : Call} {r : Ret}
    (h : NamesAt efs dev m hs s k dir) (ha : AllNamed dir k) (hc : DirCall efs s.blk call) (hl : LeavesName efs s.blk call)
    (hstep : NameStep efs s.blk blk' k k' dir dir' call r) : AllNamed dir' k' := by
  cases call with
  | root =>
    obtain ⟨-, rfl, rfl, -⟩ := hstep
    exact ha
  | create i name =>
    obtain ⟨-, rfl, rfl, -⟩ := hstep
    exact ha.create
  | link i old new =>
    obtain ⟨rfl, ⟨-, -, rfl, -⟩ | ⟨id, -, -, rfl, -⟩⟩ := hstep
    · exact ha
    · exact ha.append
  | unlink i name =>
    obtain ⟨rfl, ⟨-, -, rfl, -⟩ | ⟨id, j, hlook, hj, -, rfl, -⟩⟩ := hstep
    · exact ha
    · have hm := List.mem_of_getElem? hj
      have hok := h.ns.ok
      have h0 : 0 < id := hok.lookup_pos hlook hc.2.ne
      obtain ⟨name', hne, -, hnamed⟩ := hl id (h.ns.named_iff.mpr hm)
      exact ha.erase hj (one_lt_names hm (h.ns.named_iff.mp hnamed) hne h0)
  | _ => exact hc.elim

theorem NamesAt.namedInodes_eq (h : NamesAt efs dev m hs s k dir) (ha : AllNamed dir k) :
    namedInodes efs s.blk = {id | 0 < id ∧ id < k} := by
  ext id
  constructor
  · intro hid
    obtain ⟨name, hne, hn⟩ := hid
    have hm := h.ns.named_iff.mp hn
    refine ⟨Nat.pos_of_ne_zero fun e => hne (h.ns.ok.noRoot _ hm e), h.ns.ok.lt _ hm⟩
  · intro hid
    obtain ⟨name, hm⟩ := names_pos_iff.mp (ha id hid.1 hid.2)
    refine ⟨name, fun e => ?_, h.ns.named_iff.mpr hm⟩
    have := h.apart.noName _ hm e
    exact absurd this (Nat.ne_of_gt hid.1)

theorem NamesAt.bitmapFollowsNames (h : NamesAt efs dev m hs s k dir) (ha : AllNamed dir k) :
    BitmapFollowsNames efs s.blk := by
  intro i hi
  have hpos := h.ns.pos
  rw [h.ns.bits i hi, decide_eq_true_eq, h.namedInodes_eq ha]
  show i < k ↔ i = 0 ∨ (0 < i ∧ i < k)
  omega

/-- `alloc_inode` returns when the root and the inodes with a name are not all there are. -/
theorem NamesAt.allocInode_returns (h : NamesAt efs dev m hs s k dir) (ha : AllNamed dir k)
    (hfree : (insert 0 (namedInodes efs s.blk)).ncard < efs.inodeBitmap.maximum) :
    ∃ n m', runCached efs.allocInode m = .ok (n, m') := by
  have hset : insert 0 (namedInodes efs s.blk) = (Finset.range k : Set Nat) := by
    rw [h.namedInodes_eq ha]
    ext id
    have hpos := h.ns.pos
    simp only [Set.mem_insert_iff, Set.mem_ofPred_eq, Finset.coe_range, Set.mem_Iio]
    omega
  rw [hset, Set.ncard_coe_finset, Finset.card_range] at hfree
  have hrun := allocInode_run h.here.idle.locked (h.ns.next hfree)
  obtain ⟨m', hm', -⟩ := runCached_of_run h.here.quiet.sim hrun
  exact ⟨_, m', hm'⟩

theorem allNamed_run (ht : total < 2 ^ 32) (hslot : 0 < (layout .ch6 total ibb).slots)
    (h : FsRun .ch6 total ibb dev
      (fun efs blk call => DirCall efs blk call ∧ LeavesName efs blk call ∧ InSlots efs blk call) efs m hs) :
    ∃ s k dir, NamesAt efs dev m hs s k dir ∧ AllNamed dir k := by
  induction h with
  | start h0 =>
    obtain ⟨-, hn⟩ := namesAt_start ht hslot h0
    exact ⟨_, _, _, hn, fun id h1 h2 => by omega⟩
  | step _ hself hg hr ih =>
    obtain ⟨s, k, dir, hn, ha⟩ := ih
    rw [hn.here.dev_eq] at hg
    obtain ⟨s', k', dir', hn', hstep⟩ := hn.call hg.1.nameCall hg.2.2 hself hr
    exact ⟨s', k', dir', hn', hn.allNamed ha hg.1 hg.2.1 hstep⟩

/-- Where no inode loses its last name, the inode bitmap follows the names, and `alloc_inode` runs out only
    when the files that exist are as many as there are inodes. -/
theorem inodes_recycled (ht : total < 2 ^ 32) (hslot : 0 < (layout .ch6 total ibb).slots)
    (h : FsRun .ch6 total ibb dev
      (fun efs blk call => DirCall efs blk call ∧ LeavesName efs blk call ∧ InSlots efs blk call) efs m hs) :
    BitmapFollowsNames efs m.w.dev.data ∧
      ((insert 0 (namedInodes efs m.w.dev.data)).ncard < efs.inodeBitmap.maximum →
        ∃ n m', runCached efs.allocInode m = .ok (n, m')) := by
  obtain ⟨s, k, dir, hn, ha⟩ := allNamed_run ht hslot h
  rw [hn.here.dev_eq]
  exact ⟨hn.bitmapFollowsNames ha, hn.allocInode_returns ha⟩

end Runs

/-- After a file was made and linked and its first name taken, with the two conditions. -/
theorem inodes_recycled_small : ∃ efs m hs,
    FsRun .ch6 1200 1 ⟨1200, fun _ => Blk.zero 512⟩
        (fun efs blk call => DirCall efs blk call ∧ LeavesName efs blk call ∧ InSlots efs blk call) efs m hs ∧
      hs.length = 2 ∧ namedInodes efs m.w.dev.data = {1} ∧ BitmapFollowsNames efs m.w.dev.data := by
  obtain ⟨-, hslots, -⟩ := small_names
  -- the inode of `f` is also called `g`
  have hleaves : ∀ {dev m hs s}, NamesAt (layout .ch6 1200 1) dev m hs s 2 [("f", 1), ("g", 1)] →
      LeavesName (layout .ch6 1200 1) s.blk (.unlink ((layout .ch6 1200 1).handle 0) "f") := fun hn id hid => by
    have hm := hn.ns.named_iff.mp hid
    obtain rfl : id = 1 := by simpa using hm
    exact ⟨"g", by decide, by decide, hn.ns.named_iff.mpr (by decide)⟩
  obtain ⟨m, hs, s, hrun, hlen, -, hn, -⟩ := renamed_file
    (G := fun efs blk call => DirCall efs blk call ∧ LeavesName efs blk call ∧ InSlots efs blk call)
    (fun _ => ⟨trivial, trivial, trivial⟩)
    (fun _ habs hnext => ⟨⟨rfl, validName_f, habs⟩, trivial, fun id hid => by rw [hslots]; exact hnext id hid⟩)
    (fun _ habs => ⟨⟨rfl, validName_f, validName_g, habs⟩, trivial, trivial⟩)
    (fun hn => ⟨⟨rfl, validName_f⟩, hleaves hn, trivial⟩)
  have hall : AllNamed [dead, ("g", 1)] 2 := fun id h0 hid => by
    obtain rfl : id = 1 := by omega
    decide
  refine ⟨_, m, hs, hrun, hlen, ?_, (inodes_recycled (by norm_num) (by omega) hrun).1⟩
  rw [hn.here.dev_eq, hn.namedInodes_eq hall]
  ext id
  simp only [Set.mem_ofPred_eq, Set.mem_singleton_iff]
  omega

/-! ## The bit that stays -/

/-- `create` and `unlink` of one file: no name is left, and the bit of its inode is still set. -/
theorem leaked_run : ∃ m hs,
    FsRun .ch6 1200 1 ⟨1200, fun _ => Blk.zero 512⟩ DirCall (layout .ch6 1200 1) m hs ∧
      (layout .ch6 1200 1).inodeBitmap.bit m.w.dev.data 1 = true ∧ 1 ∉ namedInodes (layout .ch6 1200 1) m.w.dev.data := by
  obtain ⟨m, hs, s, hrun, hlen, hroot, hn, hempty⟩ := first_file (G := DirCall) (fun _ => trivial)
    (fun _ habs _ => ⟨rfl, validName_f, habs⟩)
  have hz : ((layout .ch6 1200 1).inodeAt s.blk 1).size = 0 := by
    rw [← length_content _ s.blk]
    exact congrArg List.length hempty
  obtain ⟨m', s', j, hm', hj, hn', -⟩ := hn.take validName_f (show List.lookup "f" [("f", 1)] = some 1 from rfl) hroot
    fun _ b hb => by
      rw [show (layout .ch6 1200 1).treeAt s.blk 1 = [] from tree_of_size_zero hz _] at hb
      cases hb
  obtain rfl := hn.apart.distinct j 0 _ _ hj rfl rfl (by decide)
  have hself : ∀ i, (Call.unlink ((layout .ch6 1200 1).handle 0) "f").self? = some i → i ∈ hs := fun i hi => by
    cases hi
    exact hroot
  refine ⟨m', _, hrun.step hself ⟨rfl, validName_f⟩ hm', ?_, ?_⟩
  · rw [hn'.here.dev_eq, hn'.ns.bits 1 (by decide)]
    decide
  · rw [hn'.here.dev_eq]
    rintro ⟨name, hne, hnamed⟩
    have hmem : (name, 1) ∈ [dead] := hn'.ns.named_iff.mp hnamed
    exact hne (congrArg Prod.fst (List.mem_singleton.mp hmem))

theorem inode_leaked : ¬ ∀ (total ibb : Nat) (dev : BlockDevice Block) (efs : EasyFileSystem) (m : Cached Block)
    (hs : List Inode), total < 2 ^ 32 → FsRun .ch6 total ibb dev DirCall efs m hs → BitmapFollowsNames efs m.w.dev.data := by
  intro h
  obtain ⟨m, hs, hrun, hbit, hnot⟩ := leaked_run
  rcases (h 1200 1 _ _ m hs (by norm_num) hrun 1 (by decide)).mp hbit with h0 | h1
  · cases h0
  · exact hnot h1

end TgRcore.EasyFs
