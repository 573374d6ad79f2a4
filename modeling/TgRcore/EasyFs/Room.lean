/-
  TgRcore.EasyFs.Room — whether there is room for one more entry (`increase_size`,
  `create`, `link` of `vfs.rs`).

  An entry needs a block when the last one of the directory is full, and at some sizes
  index blocks with it. `alloc_data` hands out the free blocks in ascending order and
  panics when there is none; the blocks a directory grows by are all written to, so they
  have to be on the device.
  - `allocBlocks_returns`, `length_le_freeOn`: how many blocks `alloc_data` hands out.
  - `GrowWrite.entryRoom`, `appendDirent_of_room`: an entry is appended exactly when its name
    has at most 28 bytes and there is room for it (`EntryRoom`).
  - `Namespace.create_iff`, `Namespace.link_iff`: the calls that return.
-/

import TgRcore.EasyFs.Namespace

namespace TgRcore.EasyFs

open TgRcore.Bytes TgRcore.BlockProg TgRcore.BlockProg.Prog

/-! ## Free blocks -/

/-- The free blocks on a device of `size` blocks that `alloc_data` can hand out. -/
def EasyFileSystem.freeOn (efs : EasyFileSystem) (size : Nat) (blk : Nat → Block) : Finset Nat :=
  (Finset.Ico efs.dataAreaStartBlock (efs.dataAreaStartBlock + efs.dataBitmap.maximum)).filter fun b =>
    b < size ∧ b < 2 ^ 32 ∧ efs.dataBit blk b = false

section Free

variable {efs : EasyFileSystem} {s : Store Block} {size n b : Nat} {blk blk' : Nat → Block} {v : List Nat}

theorem mem_freeOn : b ∈ efs.freeOn size blk ↔ efs.InData b ∧ b < size ∧ b < 2 ^ 32 ∧ efs.dataBit blk b = false := by
  unfold EasyFileSystem.freeOn
  rw [Finset.mem_filter, Finset.mem_Ico]
  exact and_congr_left fun _ => ⟨fun h => ⟨h.1, h.2⟩, fun h => ⟨h.le, h.lt⟩⟩

theorem freeOn_congr (h : ∀ b, efs.InData b → efs.dataBit blk' b = efs.dataBit blk b) :
    efs.freeOn size blk' = efs.freeOn size blk := by
  ext b
  rw [mem_freeOn, mem_freeOn]
  exact and_congr_right fun hin => by rw [h b hin]

/-- A block that is taken is one less. -/
theorem freeOn_setBit (hb : b ∈ efs.freeOn size blk) :
    efs.freeOn size (efs.dataBitmap.setBit blk (b - efs.dataAreaStartBlock)) = (efs.freeOn size blk).erase b := by
  ext c
  rw [Finset.mem_erase, mem_freeOn, mem_freeOn]
  have hin := (mem_freeOn.mp hb).1
  constructor
  · rintro ⟨h1, h2, h3, h4⟩
    rw [dataBit_setBit blk hin.le h1.le, Bool.or_eq_false_iff, beq_eq_false_iff_ne] at h4
    exact ⟨h4.1, h1, h2, h3, h4.2⟩
  · rintro ⟨hne, h1, h2, h3, h4⟩
    refine ⟨h1, h2, h3, ?_⟩
    rw [dataBit_setBit blk hin.le h1.le, beq_false_of_ne hne, h4]
    rfl

/-- The least free block is handed out, as long as there is one. -/
theorem allocBlocks_returns (ho : Open efs s) (hn : n ≤ (efs.freeOn size s.blk).card) :
    ∃ v blk', (efs.allocBlocks n).run s = .ok (v, s.withBlk blk') ∧ ∀ b ∈ v, b < size := by
  induction n generalizing s with
  | zero => exact ⟨[], s.blk, rfl, by simp⟩
  | succ n ih =>
    have hne : (efs.freeOn size s.blk).Nonempty := Finset.card_pos.mp (by omega)
    obtain ⟨b, hb, hleast⟩ := (efs.freeOn size s.blk).exists_minimal hne
    obtain ⟨hin, hsz, h32, hfree⟩ := mem_freeOn.mp hb
    have hrun := allocData_run ho hin h32 hfree fun c hc hlt => by
      by_contra hbit
      have hcb := hleast (mem_freeOn.mpr ⟨hc, by omega, by omega, by simpa using hbit⟩) (Nat.le_of_lt hlt)
      omega
    obtain ⟨v, blk', hrest, hv⟩ := ih (ho.withBlk (efs.dataBitmap.setBit s.blk (b - efs.dataAreaStartBlock))) (by
      rw [Store.withBlk_blk, freeOn_setBit hb, Finset.card_erase_of_mem hb]
      omega)
    refine ⟨b :: v, blk', ?_, List.forall_mem_cons.mpr ⟨hsz, hv⟩⟩
    rw [EasyFileSystem.allocBlocks, run_bind_of hrun, run_bind_of hrest]
    rfl

/-- Blocks that were free and are different from each other. -/
theorem length_le_freeOn (hfresh : ∀ b ∈ v, efs.InData b ∧ b < 2 ^ 32 ∧ efs.dataBit blk b = false)
    (hs : v.Pairwise (· < ·)) (hdev : ∀ b ∈ v, b < size) : v.length ≤ (efs.freeOn size blk).card := by
  rw [← List.toFinset_card_of_nodup (hs.imp Nat.ne_of_lt)]
  refine Finset.card_le_card fun b hb => ?_
  have hv := List.mem_toFinset.mp hb
  obtain ⟨hin, h32, hfree⟩ := hfresh b hv
  exact mem_freeOn.mpr ⟨hin, hdev b hv, h32, hfree⟩

end Free

/-! ## Appending an entry -/

/-- The directory `d` can grow by an entry. -/
structure EntryRoom (efs : EasyFileSystem) (size : Nat) (blk : Nat → Block) (d : DiskInode) : Prop where
  max : DiskInode.dataBlocksOf ((d.size / 32 + 1) * 32) ≤ 16540
  blocks : DiskInode.totalBlocks ((d.size / 32 + 1) * 32) - DiskInode.totalBlocks d.size ≤ (efs.freeOn size blk).card

section Append

variable {efs : EasyFileSystem} {s s' : Store Block} {d d' : DiskInode} {name : String}

theorem Grown.length_eq {blk blkg : Nat → Block} {newSize : Nat} {v : List Nat} (h : Grown efs d blk newSize v d' blkg) :
    v.length = DiskInode.totalBlocks newSize - DiskInode.totalBlocks d.size := by
  rw [← h.ptrs.2, List.length_map, ← length_slotsFrom h.le, ← h.size]
  rfl

/-- An entry that was appended had room. -/
theorem GrowWrite.entryRoom {size id : Nat} {blk blkg blk₁ : Nat → Block} (hdev : ∀ b ∈ tree d blk, b < size)
    (h : GrowWrite efs size d blk ((d.size / 32 + 1) * 32) (d.size / 32 * 32) (direntBytes name id) d' blkg blk₁) :
    EntryRoom efs size blk d := by
  rcases h.grow with ⟨hlt, -, -⟩ | ⟨v, hg⟩
  · omega
  · have hall := h.of_dirent.grown_lt (direntBytes_ne_nil _ _) hdev
    have hv : ∀ b ∈ v, b < size := fun b hb => hall b (by rw [hg.tree]; exact List.mem_append_right _ hb)
    have hmax := hg.small
    rw [DiskInode.dataBlocks, hg.size] at hmax
    exact ⟨hmax, by rw [← hg.length_eq]; exact length_le_freeOn hg.fresh hg.sorted hv⟩

/-- Where there is room, an entry is appended. -/
theorem appendDirent_of_room (id : Nat) (ho : Open efs s) (ht : TreeOk efs d s.blk) (hdev : ∀ b ∈ tree d s.blk, b < s.size)
    (hlen : (strBytes name).length ≤ 28) (hroom : EntryRoom efs s.size s.blk d) :
    ∃ d' blk₁, (Inode.appendDirent efs name id d).run s = .ok (d', s.withBlk blk₁) := by
  have hle : d.size ≤ (d.size / 32 + 1) * 32 := by omega
  have hsmall := hroom.max
  unfold DiskInode.dataBlocksOf at hsmall
  obtain ⟨v, blk₁, halloc, hv⟩ := allocBlocks_returns ho hroom.blocks
  have hcount := (allocBlocks_ok ho halloc).1
  rw [← hcount] at halloc
  obtain ⟨d', blkg, hinc, hg⟩ := increaseSize_returns ho ht hdev hle (by omega) hroom.max
    (by rw [hcount, length_slotsFrom hle]) halloc hv
  obtain ⟨blk', hrun, -⟩ := appendDirent_of_grown id ho ht hdev hinc hg hv hlen
  exact ⟨d', blk', hrun⟩

end Append

/-! ## `create` and `link` in the root directory -/

section Calls

variable {efs : EasyFileSystem} {s s' : Store Block} {k id : Nat} {dir : List Entry} {name old new : String}

theorem room_newInode {size : Nat} {blk : Nat → Block} (h : Listing efs size blk k dir)
    (hi : k < efs.inodeBitmap.maximum) (hs : k < efs.slots) :
    EntryRoom efs size (newInode efs blk k) (efs.inodeAt (newInode efs blk k) 0) ↔
      EntryRoom efs size blk (efs.inodeAt blk 0) := by
  have hu : asU32 k = k := Nat.mod_eq_of_lt h.below
  have hpos := h.pos
  have hino : efs.inodeAt (newInode efs blk k) 0 = efs.inodeAt blk 0 := inodeAt_newInode_of_ne h.geo hi (by omega)
  have hfree : efs.freeOn size (newInode efs blk k) = efs.freeOn size blk := freeOn_congr fun b hb =>
    Bitmap.bit_congr (by have := hb.le; have := hb.lt; omega) fun c h1 _ =>
      newInode_data h.geo hi (by rw [hu]; exact hs) (.inr h1)
  rw [hino]
  exact ⟨fun hr => ⟨hr.max, by rw [← hfree]; exact hr.blocks⟩, fun hr => ⟨hr.max, by rw [hfree]; exact hr.blocks⟩⟩

/-- What `create` needs to return: a free inode, a name of 28 bytes at most, and room for the entry. -/
theorem Namespace.create_iff (h : Namespace efs s.size s.blk k dir) (hi : Idle efs s)
    (hslot : ∀ i, NextInode efs s.blk i → i < efs.slots) :
    (∃ r, (Inode.create efs (efs.handle 0) name).run s = .ok r) ↔
      (∃ i, NextInode efs s.blk i) ∧ (strBytes name).length ≤ 28 ∧ EntryRoom efs s.size s.blk (efs.inodeAt s.blk 0) := by
  have hu : asU32 k = k := Nat.mod_eq_of_lt h.below
  have hbelow := h.below_of_bound
  have hnew : ∀ i, NextInode efs s.blk i → i = k ∧ Listing efs s.size (newInode efs s.blk k) (k + 1) dir := by
    intro i hn
    obtain rfl := h.next_eq hn
    exact ⟨rfl, h.toListing.newInode hn.lt (hslot i hn) hbelow⟩
  constructor
  · rintro ⟨⟨ino, s'⟩, hr⟩
    obtain ⟨i, hn, -, hlen, d', blkg, blk₁, -, hgw⟩ := create_step hi (k + 1) (fun i hn => by
      obtain ⟨rfl, hl⟩ := hnew i hn
      exact ⟨by rw [hu]; exact hslot i hn, hl.toWf⟩) (Nat.succ_pos k) hr
    obtain ⟨rfl, hl⟩ := hnew i hn
    exact ⟨⟨i, hn⟩, hlen, (room_newInode h.toListing hn.lt (hslot i hn)).mp
      (hgw.entryRoom hl.toRootDir.device)⟩
  · rintro ⟨⟨i, hn⟩, hlen, hroom⟩
    obtain ⟨rfl, hl⟩ := hnew i hn
    have hs := hslot i hn
    have hslot0 := Nat.lt_of_lt_of_le h.pos h.slots
    have hlk : Locked efs (({ s with busy := true } : Store Block).withBlk (newInode efs s.blk i)) := hi.lock.withBlk _
    obtain ⟨d', blk₁, happ⟩ := appendDirent_of_room (asU32 i) (hlk.open_inode hslot0) (hl.toWf.treeOk hl.pos)
      hl.toRootDir.device hlen ((room_newInode h.toListing hn.lt hs).mpr hroom)
    exact ⟨_, create_of_append hi hn (by rw [hu]; exact h.geo.inodeBlock_lt_area hs) hslot0 happ⟩

end Calls

end TgRcore.EasyFs
