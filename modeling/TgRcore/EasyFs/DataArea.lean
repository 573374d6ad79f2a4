/-
  TgRcore.EasyFs.DataArea — the numbers that `alloc_data` hands out (`efs.rs`).

  `create` makes the data bitmap of whole blocks of 4096 bits, and the data area of the
  blocks that remain. Unless `4097` divides the number of blocks that the two have
  together, the bitmap has more bits than the area has blocks, and `alloc_data` asks the
  bitmap only.
  - `AllocRun`: the runs of `alloc_data` and `dealloc_data` on a new file system, with the
    blocks handed out and not given back.
  - `AllocAt`: the bits are those of these blocks.
  - `alloc_data_in_area_iff`: a call stays inside the area exactly when a block of the
    area is free, and the geometries for which that is always so.
-/

import TgRcore.EasyFs.BlockOwners

namespace TgRcore.EasyFs

open TgRcore.Bytes TgRcore.BlockProg TgRcore.BlockProg.Prog

/-! ## Runs -/

/-- The runs of `alloc_data` and `dealloc_data`, with any arguments, on a file system made
    with `create` on `dev`; `live` are the blocks handed out and not given back since. -/
inductive AllocRun (total ibb : Nat) (dev : BlockDevice Block) : EasyFileSystem → Cached Block → List Nat → Prop
  | start {efs : EasyFileSystem} {m : Cached Block} :
      runCached (EasyFileSystem.create .base total ibb) (boot dev) = .ok (efs, m) → AllocRun total ibb dev efs m []
  | alloc {efs : EasyFileSystem} {m m' : Cached Block} {live : List Nat} {b : Nat} :
      AllocRun total ibb dev efs m live → runCached efs.allocData m = .ok (b, m') →
        AllocRun total ibb dev efs m' (b :: live)
  | dealloc {efs : EasyFileSystem} {m m' : Cached Block} {live : List Nat} {b : Nat} :
      AllocRun total ibb dev efs m live → runCached (efs.deallocData b) m = .ok ((), m') →
        AllocRun total ibb dev efs m' (live.erase b)

/-- Where a run is: the bits of the data bitmap are those of the blocks in `live`. -/
structure AllocAt (efs : EasyFileSystem) (m : Cached Block) (s : Store Block) (live : List Nat) : Prop where
  sim : Sim m s
  opens : Open efs s
  nodup : live.Nodup
  inData : ∀ b ∈ live, efs.InData b
  bits : ∀ b, efs.InData b → efs.dataBit s.blk b = decide (b ∈ live)

section Steps

variable {efs : EasyFileSystem} {m m' : Cached Block} {s s' : Store Block} {live : List Nat} {b : Nat}

theorem AllocAt.alloc (h : AllocAt efs m s live) (hr : runCached efs.allocData m = .ok (b, m')) :
    (efs.InData b ∧ b ∉ live ∧ ∀ c, efs.InData c → c < b → c ∈ live) ∧ ∃ s', AllocAt efs m' s' (b :: live) := by
  obtain ⟨s', hrun, hsim⟩ := runCached_ok h.sim hr
  obtain ⟨hin, -, hfree, hleast, rfl⟩ := allocData_ok h.opens hrun
  have hnew : b ∉ live := by
    rw [h.bits b hin] at hfree
    simpa using hfree
  refine ⟨⟨hin, hnew, fun c hc hlt => ?_⟩, _, hsim, h.opens.withBlk _, List.nodup_cons.mpr ⟨hnew, h.nodup⟩,
    List.forall_mem_cons.mpr ⟨hin, h.inData⟩, fun c hc => ?_⟩
  · have := hleast c hc hlt
    rw [h.bits c hc] at this
    simpa using this
  · rw [Store.withBlk_blk, dataBit_setBit s.blk hin.le hc.le, h.bits c hc, Bool.eq_iff_iff]
    simp

/-- What `dealloc_data` does when it returns: block `b` is zero, and the bit is clear that
    was set. -/
theorem deallocData_ok {r : Unit × Store Block} (h : (efs.deallocData b).run s = .ok r) :
    efs.dataAreaStartBlock ≤ b ∧ efs.dataBit (Function.update s.blk b (Blk.zero 512)) b = true ∧
      r.2 = s.withBlk (efs.dataBitmap.clearBit (Function.update s.blk b (Blk.zero 512)) (b - efs.dataAreaStartBlock)) := by
  obtain ⟨u, s₁, h1, h⟩ := run_bind_ok.mp h
  obtain ⟨-, hs₁⟩ := modifyRet_ok h1
  simp only at hs₁
  obtain ⟨bit, s₂, h2, h⟩ := run_bind_ok.mp h
  rw [subU32] at h2
  split at h2
  · rename_i hle
    cases h2
    obtain ⟨hfree, hbit⟩ := Bitmap.dealloc_ok h
    rw [Bitmap.dealloc_run hfree hbit] at h
    cases h
    rw [hs₁] at hbit ⊢
    exact ⟨hle, hbit, rfl⟩
  · cases h2

/-- Writing to a block of the data area, or past it, changes no bit. -/
theorem dataBit_update (hg : efs.Geometry) (blk : Nat → Block) {c : Nat} (x : Block) (hb : efs.dataAreaStartBlock ≤ b)
    (hc : efs.InData c) : efs.dataBit (Function.update blk b x) c = efs.dataBit blk c := by
  have h1 := hc.le
  have h2 := hc.lt
  have h3 := hg.dataArea
  exact Bitmap.bit_congr (by omega) fun a _ h5 => Function.update_of_ne (by omega) _ _

theorem AllocAt.dealloc (h : AllocAt efs m s live) (hr : runCached (efs.deallocData b) m = .ok ((), m')) :
    ∃ s', AllocAt efs m' s' (live.erase b) := by
  obtain ⟨s', hrun, hsim⟩ := runCached_ok h.sim hr
  obtain ⟨hle, hbit, rfl⟩ := deallocData_ok hrun
  have hg := h.opens.geo
  refine ⟨_, hsim, h.opens.withBlk _, h.nodup.erase b, fun c hc => h.inData c (List.mem_of_mem_erase hc), fun c hc => ?_⟩
  rw [Store.withBlk_blk]
  by_cases hin : efs.InData b
  · rw [dataBit_clearBit hbit hle hc.le, dataBit_update hg _ _ hle hc, h.bits c hc, Bool.eq_iff_iff]
    simp [h.nodup.mem_erase_iff]
  · -- the bit lies behind the bitmap, in the data area
    have hout : efs.dataAreaStartBlock + efs.dataBitmap.maximum ≤ b := by
      by_contra hlt
      exact hin ⟨hle, by omega⟩
    have hfar : efs.dataBit (efs.dataBitmap.clearBit (Function.update s.blk b (Blk.zero 512)) (b - efs.dataAreaStartBlock)) c =
        efs.dataBit (Function.update s.blk b (Blk.zero 512)) c := by
      have h1 := hc.lt
      have h2 := hc.le
      refine Bitmap.bit_congr (by omega) fun a _ h4 => Bitmap.updWord_frame ?_
      unfold Bitmap.maximum at hout
      omega
    rw [hfar, dataBit_update hg _ _ hle hc, h.bits c hc, List.erase_of_not_mem fun hm => hin (h.inData b hm)]

end Steps

/-! ## The area and the bitmap -/

section Area

variable {total ibb : Nat} {dev : BlockDevice Block} {efs : EasyFileSystem} {m m' : Cached Block} {live : List Nat}

/-- The data area of a file system made by `create`. -/
theorem data_area (hgeo : 1 + 1025 * ibb < total) (ht : total < 2 ^ 32) :
    (layout .base total ibb).dataAreaStartBlock = 1 + 1025 * ibb + (total - 1 - 1025 * ibb + 4096) / 4097 ∧
      (layout .base total ibb).dataBitmap.maximum = (total - 1 - 1025 * ibb + 4096) / 4097 * 4096 := by
  have harea : areaBlocks .base ibb = 1024 * ibb := areaBlocks_base (by omega)
  have hbits : bitmapBlocks .base total ibb = (total - 1 - 1025 * ibb + 4096) / 4097 := by
    rw [bitmapBlocks, harea]
    omega
  constructor
  · show 1 + (ibb + areaBlocks .base ibb) + bitmapBlocks .base total ibb = _
    rw [hbits, harea]
    omega
  · show bitmapBlocks .base total ibb * 4096 = _
    rw [hbits]

/-- Every block of the area has a bit; there are no more bits exactly when `4097` divides
    the blocks of the two. -/
theorem area_le_bits (hgeo : 1 + 1025 * ibb < total) (ht : total < 2 ^ 32) :
    (layout .base total ibb).dataAreaStartBlock ≤ total ∧
      total ≤ (layout .base total ibb).dataAreaStartBlock + (layout .base total ibb).dataBitmap.maximum ∧
      (total = (layout .base total ibb).dataAreaStartBlock + (layout .base total ibb).dataBitmap.maximum ↔
        4097 ∣ total - 1 - 1025 * ibb) := by
  obtain ⟨h1, h2⟩ := data_area hgeo ht
  rw [h1, h2, Nat.dvd_iff_mod_eq_zero]
  omega

theorem allocAt_start (hgeo : 1 + 1025 * ibb < total) (ht : total < 2 ^ 32)
    (h : runCached (EasyFileSystem.create .base total ibb) (boot dev) = .ok (efs, m)) :
    efs = layout .base total ibb ∧ 0 < ibb ∧ AllocAt efs m ((flat dev).withBlk (formatted .base total ibb dev.data)) [] := by
  obtain ⟨ha, hi, -, -, rfl, hat⟩ := At.start ht h
  have hslots := slots_base total (show 1025 * ibb < 2 ^ 32 by omega)
  have hmax : (layout .base total ibb).inodeBitmap.maximum = ibb * 4096 := rfl
  refine ⟨rfl, hi, hat.quiet.sim, ⟨hat.idle.geo, by rw [hat.idle.held]; simp,
    by rw [hat.idle.held, hat.idle.cap]; decide, hat.idle.device⟩, List.nodup_nil, by simp, fun b hb => ?_⟩
  rw [Store.withBlk_blk, dataBit_formatted ha (by omega) hi hb]
  rfl

theorem allocAt_run (hgeo : 1 + 1025 * ibb < total) (ht : total < 2 ^ 32) (h : AllocRun total ibb dev efs m live) :
    efs = layout .base total ibb ∧ 0 < ibb ∧ ∃ s, AllocAt efs m s live := by
  induction h with
  | start h0 =>
    obtain ⟨e, hi, ha⟩ := allocAt_start hgeo ht h0
    exact ⟨e, hi, _, ha⟩
  | alloc _ hr ih =>
    obtain ⟨e, hi, s, ha⟩ := ih
    exact ⟨e, hi, (ha.alloc hr).2⟩
  | dealloc _ hr ih =>
    obtain ⟨e, hi, s, ha⟩ := ih
    exact ⟨e, hi, ha.dealloc hr⟩

/-- With the first `n` blocks taken, block `n` is handed out next. -/
theorem next_of_filled (hgeo : 1 + 1025 * ibb < total) (ht : total < 2 ^ 32) {n : Nat}
    (h : AllocRun total ibb dev (layout .base total ibb) m live)
    (hlive : ∀ b, b ∈ live ↔ (layout .base total ibb).dataAreaStartBlock ≤ b ∧ b < (layout .base total ibb).dataAreaStartBlock + n)
    (hn : n < (layout .base total ibb).dataBitmap.maximum) (hu : (layout .base total ibb).dataAreaStartBlock + n < 2 ^ 32) :
    ∃ m', runCached (layout .base total ibb).allocData m = .ok ((layout .base total ibb).dataAreaStartBlock + n, m') := by
  obtain ⟨-, -, s, hs⟩ := allocAt_run hgeo ht h
  have hin : (layout .base total ibb).InData ((layout .base total ibb).dataAreaStartBlock + n) := inData_add hn
  have hbit : ∀ c, (layout .base total ibb).InData c → ((layout .base total ibb).dataBit s.blk c = true ↔
      c < (layout .base total ibb).dataAreaStartBlock + n) := by
    intro c hc
    rw [hs.bits c hc, decide_eq_true_eq, hlive]
    exact ⟨fun h => h.2, fun h => ⟨hc.le, h⟩⟩
  obtain ⟨m', hm', -⟩ := runCached_of_run hs.sim (allocData_run hs.opens hin hu
    (Bool.eq_false_iff.mpr fun h => Nat.lt_irrefl _ ((hbit _ hin).mp h)) fun c hc hlt => (hbit c hc).mpr hlt)
  exact ⟨m', hm'⟩

/-- A run that takes the first `n` blocks. -/
theorem fill_area (hgeo : 1 + 1025 * ibb < total) (ht : total < 2 ^ 32) (hi : 0 < ibb) (dev : BlockDevice Block)
    (hdev : dev.size = total) (n : Nat) (hn : n ≤ (layout .base total ibb).dataBitmap.maximum)
    (hu : (layout .base total ibb).dataAreaStartBlock + n ≤ 2 ^ 32) :
    ∃ m live, AllocRun total ibb dev (layout .base total ibb) m live ∧
      ∀ b, b ∈ live ↔ (layout .base total ibb).dataAreaStartBlock ≤ b ∧ b < (layout .base total ibb).dataAreaStartBlock + n := by
  induction n with
  | zero =>
    have harea : areaBlocks .base ibb = 1024 * ibb := areaBlocks_base (by omega)
    have ha : Accepts .base total ibb := ⟨ht, by rw [harea]; omega, by rw [harea]; omega⟩
    obtain ⟨m, h0⟩ : ∃ m, runCached (EasyFileSystem.create .base total ibb) (boot dev) = .ok (layout .base total ibb, m) :=
      start_returns ha hi (Nat.le_of_eq hdev.symm) (by omega)
    exact ⟨m, [], .start h0, fun b => by simp⟩
  | succ n ih =>
    obtain ⟨m, live, hrun, hlive⟩ := ih (by omega) (by omega)
    obtain ⟨m', hm'⟩ := next_of_filled hgeo ht hrun hlive (by omega) (by omega)
    refine ⟨m', _, hrun.alloc hm', fun b => ?_⟩
    rw [List.mem_cons, hlive]
    omega

/-- In every run, a block that `alloc_data` hands out is not in front of the data area,
    and it is on the disk exactly when a block of the area was free; and all blocks of all
    runs are on the disk exactly when bitmap and area are of one size (or there is no run:
    `create` fails without an inode bitmap). -/
theorem alloc_data_in_area_iff (hgeo : 1 + 1025 * ibb < total) (ht : total < 2 ^ 32) :
    (∀ (dev : BlockDevice Block) (efs : EasyFileSystem) (m m' : Cached Block) (live : List Nat) (b : Nat),
      AllocRun total ibb dev efs m live → runCached efs.allocData m = .ok (b, m') →
        efs.dataAreaStartBlock ≤ b ∧ (b < total ↔ ∃ c, efs.dataAreaStartBlock ≤ c ∧ c < total ∧ c ∉ live)) ∧
    ((∀ (dev : BlockDevice Block) (efs : EasyFileSystem) (m m' : Cached Block) (live : List Nat) (b : Nat),
      AllocRun total ibb dev efs m live → runCached efs.allocData m = .ok (b, m') → b < total) ↔
        ibb = 0 ∨ 4097 ∣ total - 1 - 1025 * ibb) := by
  obtain ⟨hstart, hle, hiff⟩ := area_le_bits hgeo ht
  refine ⟨fun dev efs m m' live b h hr => ?_, ?_, fun hdvd dev efs m m' live b h hr => ?_⟩
  · obtain ⟨rfl, hi, s, hs⟩ := allocAt_run hgeo ht h
    obtain ⟨⟨hin, hnew, hleast⟩, -⟩ := hs.alloc hr
    refine ⟨hin.le, fun hlt => ⟨b, hin.le, hlt, hnew⟩, ?_⟩
    rintro ⟨c, h1, h2, h3⟩
    by_contra hge
    exact h3 (hleast c ⟨h1, by omega⟩ (by omega))
  · intro hall
    by_contra hno
    have hi : 0 < ibb := Nat.pos_of_ne_zero fun e => hno (.inl e)
    have hdvd : ¬ 4097 ∣ total - 1 - 1025 * ibb := fun e => hno (.inr e)
    -- fill the area, then take one more
    have hlt : total < (layout .base total ibb).dataAreaStartBlock + (layout .base total ibb).dataBitmap.maximum := by
      have := mt hiff.mp hdvd
      omega
    obtain ⟨m, live, hrun, hlive⟩ := fill_area hgeo ht hi ⟨total, fun _ => Blk.zero 512⟩ rfl
      (total - (layout .base total ibb).dataAreaStartBlock) (by omega) (by omega)
    obtain ⟨m', hm'⟩ := next_of_filled hgeo ht hrun hlive (by omega) (by omega)
    have := hall _ _ m m' live _ hrun hm'
    omega
  · obtain ⟨rfl, hi, s, hs⟩ := allocAt_run hgeo ht h
    obtain ⟨⟨hin, -⟩, -⟩ := hs.alloc hr
    have := hin.lt
    have := hiff.mpr (hdvd.resolve_left (Nat.ne_of_gt hi))
    omega

/-- A device of 1100 blocks: one inode bitmap block, 73 blocks of data, 4096 bits. -/
theorem alloc_data_in_area_1100 :
    (∀ (dev : BlockDevice Block) (efs : EasyFileSystem) (m m' : Cached Block) (live : List Nat) (b : Nat),
      AllocRun 1100 1 dev efs m live → runCached efs.allocData m = .ok (b, m') →
        efs.dataAreaStartBlock ≤ b ∧ (b < 1100 ↔ ∃ c, efs.dataAreaStartBlock ≤ c ∧ c < 1100 ∧ c ∉ live)) ∧
    ((∀ (dev : BlockDevice Block) (efs : EasyFileSystem) (m m' : Cached Block) (live : List Nat) (b : Nat),
      AllocRun 1100 1 dev efs m live → runCached efs.allocData m = .ok (b, m') → b < 1100) ↔
        1 = 0 ∨ 4097 ∣ 1100 - 1 - 1025 * 1) :=
  alloc_data_in_area_iff (by norm_num) (by norm_num)

/-- On that device the 74th block handed out is block 1100, the first one past the end. -/
theorem alloc_data_past_end : ¬ ∀ (total ibb : Nat) (dev : BlockDevice Block) (efs : EasyFileSystem) (m m' : Cached Block)
    (live : List Nat) (b : Nat), 1 + 1025 * ibb < total → total < 2 ^ 32 → dev.size = total →
      AllocRun total ibb dev efs m live → runCached efs.allocData m = .ok (b, m') →
        efs.dataAreaStartBlock ≤ b ∧ b < total := by
  intro hall
  obtain ⟨h1, h2⟩ := @data_area 1100 1 (by norm_num) (by norm_num)
  norm_num at h1 h2
  obtain ⟨m, live, hrun, hlive⟩ := @fill_area 1100 1 (by norm_num) (by norm_num) (by norm_num)
    ⟨1100, fun _ => Blk.zero 512⟩ rfl 73 (by omega) (by omega)
  obtain ⟨m', hm'⟩ := next_of_filled (by norm_num) (by norm_num) hrun hlive (by omega) (by omega)
  have := (hall 1100 1 _ _ m m' live _ (by norm_num) (by norm_num) rfl hrun hm').2
  omega

end Area

end TgRcore.EasyFs
