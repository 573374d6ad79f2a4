/-
  TgRcore.EasyFs.Spare — the pointers behind the blocks of a file.

  A look-up may go one block past the end of a file. What it finds there is a pointer that is
  not in use: zero, since index blocks come in zero and `clear_size` leaves none behind; or,
  where the index block itself is not there, a word of block 0, the super block.
  - `Spare`: the pointers that are not in use are zero.
  - `SpareOn.assignAll`, `Spare.growWrite`, `spare_emptied`: growing, writing and clearing keep
    them so.
  - `Tidy`, `tidy_run`: so it is in every run of the base easy-fs.
-/

import TgRcore.EasyFs.GrowthFailure

namespace TgRcore.EasyFs

open TgRcore.Bytes TgRcore.BlockProg TgRcore.BlockProg.Prog

/-! ## Slots that are not in use -/

/-- The slots outside `l` that hang from `l` hold zero, if the index blocks they lie in are on a
    device of `size` blocks. -/
def SpareOn (size : Nat) (l : List Slot) (t : DiskInode × (Nat → Block)) : Prop :=
  ∀ σ : Slot, σ.Ok → σ ∉ l → (∀ τ, σ.parent = some τ → τ ∈ l ∧ ptr t.1 t.2 τ < size) → ptr t.1 t.2 σ = 0

/-- Behind the blocks of a file. -/
def Spare (size : Nat) (d : DiskInode) (blk : Nat → Block) : Prop := SpareOn size (slotsOf d.dataBlocks) (d, blk)

section Slots

variable {size : Nat} {l σs : List Slot} {t : DiskInode × (Nat → Block)} {σ : Slot} {x : Nat} {xs : List Nat}

/-- A block that comes in as an index block is zero. -/
theorem SpareOn.assign (h : SpareOn size l t) (hl : Ordered l) (hn : (l.map (ptr t.1 t.2)).Nodup) (hσ : σ ∉ l) (hok : σ.Ok)
    (hp : ∀ τ, σ.parent = some τ → τ ∈ l) (hx : x < 2 ^ 32) (hnew : x ∉ l.map (ptr t.1 t.2))
    (hz : x < size → t.2 x = Blk.zero 512) : SpareOn size (l ++ [σ]) (EasyFs.assign t σ x) := by
  intro σ' hok' hnot hpar
  rw [List.mem_append, List.mem_singleton, not_or] at hnot
  obtain ⟨hnl, hne⟩ := hnot
  have hself := ptr_assign_self hl hn hσ hok hp hx
  -- the block that comes in is not the one that is written
  have hkeep : (EasyFs.assign t σ x).2 x = t.2 x := by
    cases hs : σ.parent with
    | none => rw [assign_snd_of_root hs]
    | some υ =>
      rw [assign_snd_of_parent hs, Function.update_of_ne]
      exact fun e => hnew (e ▸ List.mem_map_of_mem (hp υ hs))
  by_cases hchild : σ'.parent = some σ
  · have hlt := (hpar σ hchild).2
    rw [hself] at hlt
    rw [ptr_of_parent hchild, hself, hkeep, hz hlt, Blk.word_zero]
  · have hpl : ∀ τ, σ'.parent = some τ → τ ∈ l := by
      intro τ hτ
      have hmem := (hpar τ hτ).1
      rw [List.mem_append, List.mem_singleton] at hmem
      exact hmem.resolve_right fun e => hchild (e ▸ hτ)
    rw [ptr_assign_hanging hl hn hσ hp hne hpl]
    refine h σ' hok' hnl fun τ hτ => ⟨hpl τ hτ, ?_⟩
    have hlt := (hpar τ hτ).2
    rwa [ptr_assign_of_ne hl hn hσ hp (hpl τ hτ)] at hlt

theorem SpareOn.assignAll (h : SpareOn size l t) (hlen : σs.length = xs.length) (hl : Ordered (l ++ σs))
    (hn : (l.map (ptr t.1 t.2) ++ xs).Nodup) (hx : ∀ x ∈ xs, x < 2 ^ 32) (hz : ∀ x ∈ xs, x < size → t.2 x = Blk.zero 512) :
    SpareOn size (l ++ σs) (EasyFs.assignAll t σs xs) := by
  induction σs generalizing t l xs with
  | nil =>
    cases xs with
    | nil => simpa [EasyFs.assignAll] using h
    | cons x xs => cases hlen
  | cons σ σs ih =>
    cases xs with
    | nil => cases hlen
    | cons x xs =>
      have hsplit : l ++ σ :: σs = (l ++ [σ]) ++ σs := by simp
      have hpre : Ordered l := hl.left
      have hσ : σ ∉ l := by
        have := hl.nodup
        rw [List.nodup_append] at this
        exact fun hm => this.2.2 σ hm σ List.mem_cons_self rfl
      have hp : ∀ τ, σ.parent = some τ → τ ∈ l := hl.parent l σ σs rfl
      have hok : σ.Ok := hl.ok σ (by simp)
      obtain ⟨hnl, hnx, hdis⟩ := List.nodup_append.mp hn
      have hx0 := hx x List.mem_cons_self
      have hnew : x ∉ l.map (ptr t.1 t.2) := fun hm => hdis x hm x List.mem_cons_self rfl
      have hone := h.assign hpre hnl hσ hok hp hx0 hnew (hz x List.mem_cons_self)
      have hkeep : (l ++ [σ]).map (ptr (EasyFs.assign t σ x).1 (EasyFs.assign t σ x).2) = l.map (ptr t.1 t.2) ++ [x] := by
        have hold : l.map (ptr (EasyFs.assign t σ x).1 (EasyFs.assign t σ x).2) = l.map (ptr t.1 t.2) :=
          List.map_congr_left fun σ' hσ' => ptr_assign_of_ne hpre hnl hσ hp hσ'
        rw [List.map_append, List.map_singleton, ptr_assign_self hpre hnl hσ hok hp hx0, hold]
      rw [hsplit]
      refine ih hone (by simpa using hlen) (by rw [← hsplit]; exact hl) (by rw [hkeep]; simpa using hn)
        (fun y hy => hx y (List.mem_cons_of_mem _ hy)) fun y hy hlt => ?_
      -- a block that comes in later has not been written
      rw [← hz y (List.mem_cons_of_mem _ hy) hlt]
      cases hs : σ.parent with
      | none => rw [assign_snd_of_root hs]
      | some υ =>
        rw [assign_snd_of_parent hs, Function.update_of_ne]
        exact fun e => hdis _ (List.mem_map_of_mem (hp υ hs)) y (List.mem_cons_of_mem _ hy) e.symm

/-- Slots that hang from `l` depend on the index blocks of `l` only. -/
theorem ptr_hanging_congr {d : DiskInode} {blk blk' : Nat → Block} (hl : Ordered l)
    (h : ∀ τ ∈ l, τ.isIndex = true → blk' (ptr d blk τ) = blk (ptr d blk τ)) (hp : ∀ τ, σ.parent = some τ → τ ∈ l) :
    ptr d blk' σ = ptr d blk σ := by
  cases hs : σ.parent with
  | none => exact ptr_root hs _ _ _
  | some τ =>
    have hτ := hp τ hs
    rw [ptr_of_parent hs, ptr_of_parent hs, ptr_congr hl h hτ, h τ hτ (Slot.parent_isIndex hs)]

theorem SpareOn.congr {d : DiskInode} {blk blk' : Nat → Block} (hs : SpareOn size l (d, blk)) (hl : Ordered l)
    (h : ∀ τ ∈ l, τ.isIndex = true → blk' (ptr d blk τ) = blk (ptr d blk τ)) : SpareOn size l (d, blk') := by
  intro σ hok hnot hpar
  have hpl : ∀ τ, σ.parent = some τ → τ ∈ l := fun τ hτ => (hpar τ hτ).1
  show ptr d blk' σ = 0
  rw [ptr_hanging_congr hl h hpl]
  refine hs σ hok hnot fun τ hτ => ⟨hpl τ hτ, ?_⟩
  have hlt := (hpar τ hτ).2
  rwa [ptr_congr hl h (hpl τ hτ)] at hlt

end Slots

/-! ## Growing, writing and clearing -/

section Files

variable {efs : EasyFileSystem} {s s₁ s' : Store Block} {d d' : DiskInode} {blk blk' : Nat → Block} {newSize off n size : Nat}
  {buf : List UInt8}

theorem Spare.congr (hs : Spare size d blk) (hsmall : d.dataBlocks ≤ 16540) (h : ∀ b ∈ tree d blk, blk' b = blk b) :
    Spare size d blk' :=
  SpareOn.congr hs (slotsOf_ordered hsmall) fun _ hτ _ => h _ (List.mem_map_of_mem hτ)

/-- With no pointers there is nothing behind the end. -/
theorem spare_of_empty (h0 : d.size = 0) (hp : ∀ σ : Slot, σ.parent = none → ptr d blk σ = 0) : Spare size d blk := by
  intro σ _ _ hpar
  have hn : d.dataBlocks = 0 := by rw [DiskInode.dataBlocks, h0]; rfl
  cases hs : σ.parent with
  | none => exact hp σ hs
  | some τ =>
    have hmem := (hpar τ hs).1
    rw [hn] at hmem
    cases hmem

theorem Spare.increaseSize (ho : Open efs s) (ht : TreeOk efs d s.blk) (hz : FreeZero efs s.size s.blk)
    (hs : Spare s.size d s.blk) (h : (Inode.increaseSize efs newSize d).run s = .ok (d', s')) : Spare s.size d' s'.blk := by
  rcases increaseSize_ok_taken ho ht h with ⟨-, rfl, rfl⟩ | ⟨hsz, hm, v, blk₁, hv, hlen, rfl, rfl⟩
  · exact hs
  · have hnm : d.dataBlocks ≤ DiskInode.dataBlocksOf newSize := dataBlocksOf_mono hsz
    have hslots := slotsOf_append hnm
    have hkeep : ∀ b ∈ tree d s.blk, blk₁ b = s.blk b := fun b hb => hv.frame b (.inr (ht.inData b hb).le)
    have hptr : (slotsOf d.dataBlocks).map (ptr { d with size := newSize } blk₁) = tree d s.blk := by
      rw [ptr_size]
      exact tree_congr ht.small hkeep
    have hstart : SpareOn s.size (slotsOf d.dataBlocks) ({ d with size := newSize }, blk₁) := by
      have := hs.congr ht.small hkeep
      unfold Spare SpareOn at this
      unfold SpareOn
      rw [ptr_size]
      exact this
    have hnd : (tree d s.blk ++ v).Nodup := by
      rw [List.nodup_append]
      refine ⟨ht.nodup, hv.sorted.imp Nat.ne_of_lt, ?_⟩
      rintro b hb c hc rfl
      have h1 := ht.marked b hb
      rw [(hv.fresh b hc).2.2] at h1
      cases h1
    have hall := hstart.assignAll hlen.symm (by rw [← hslots]; exact slotsOf_ordered hm) (by rw [hptr]; exact hnd)
      (fun x hx => (hv.fresh x hx).2.1) fun x hx hlt => by
        obtain ⟨hin, -, hbit⟩ := hv.fresh x hx
        show blk₁ x = _
        rw [hv.frame x (.inr hin.le), hz x hin hlt hbit]
    have hblocks : (grownBy d newSize blk₁ v).1.dataBlocks = DiskInode.dataBlocksOf newSize := by
      unfold DiskInode.dataBlocks
      rw [grownBy, (assignAll_same _ _ _).size]
    unfold Spare
    rw [hblocks, hslots]
    exact hall

/-- Writing into data blocks changes no pointer. -/
theorem Spare.written (hs : Spare size d blk) (hsmall : d.dataBlocks ≤ 16540) (hn : (tree d blk).Nodup) {l : List UInt8}
    (hw : Written d blk blk' off l) : Spare size d blk' := by
  refine SpareOn.congr hs (slotsOf_ordered hsmall) fun τ hτ hi => hw.frame _ fun j hj e => ?_
  have := List.inj_on_of_nodup_map hn (mem_slotsOf.mpr hj : Slot.data j ∈ slotsOf d.dataBlocks) hτ e
  subst this
  cases hi

theorem Spare.growWrite (ho : Open efs s) (ht : TreeOk efs d s.blk) (hz : FreeZero efs s.size s.blk)
    (hs : Spare s.size d s.blk) (hns : newSize < 2 ^ 32) (h1 : (Inode.increaseSize efs newSize d).run s = .ok (d', s₁))
    (h2 : (d'.writeAt off buf).run s₁ = .ok (n, s')) : Spare s.size d' s'.blk := by
  have hgrown := hs.increaseSize ho ht hz h1
  have ht' : d'.dataBlocks ≤ 16540 ∧ (tree d' s₁.blk).Nodup := by
    rcases increaseSize_ok ho ht hns h1 with ⟨-, rfl, rfl⟩ | ⟨v, blkg, rfl, hg⟩
    · exact ⟨ht.small, ht.nodup⟩
    · exact ⟨hg.small, (hg.treeStep ht).nodup⟩
  obtain ⟨-, -, ⟨blk₁, rfl, hwr⟩, -⟩ := writeAt_ok ht'.1 ht'.2 h2
  exact hgrown.written ht'.1 ht'.2 hwr

/-- `clear_size` leaves no pointer: those in use are zeroed, the others were. -/
theorem spare_emptied (hs : Spare size d blk) (blk' : Nat → Block) : Spare size d.emptied blk' := by
  have hroot : ∀ σ : Slot, σ.parent = none → σ.Ok → σ ∉ slotsOf d.dataBlocks → ptr d blk σ = 0 := by
    intro σ hσ hok hnot
    exact hs σ hok hnot fun τ hτ => by rw [hσ] at hτ; cases hτ
  refine spare_of_empty rfl fun σ hσ => ?_
  cases σ with
  | data j =>
    have hj : j < 28 := by
      simp only [Slot.parent] at hσ
      split at hσ
      · assumption
      · split at hσ <;> cases hσ
    have hold : d.dataBlocks ≤ j → d.directAt j = 0 := by
      intro hle
      have := hroot (.data j) hσ (by show j < 16540; omega) (by rw [mem_slotsOf]; show ¬ j < _; omega)
      simpa [ptr, hj] using this
    simp only [ptr, hj, if_true, DiskInode.emptied, DiskInode.blank, DiskInode.directAt, dif_pos]
    split
    · rfl
    · have := hold (by omega)
      simpa [DiskInode.directAt, hj] using this
  | ind1 =>
    simp only [ptr, DiskInode.emptied, DiskInode.blank]
    split
    · rfl
    · exact hroot .ind1 rfl trivial (by rw [mem_slotsOf]; assumption)
  | ind2 =>
    simp only [ptr, DiskInode.emptied, DiskInode.blank]
    split
    · rfl
    · exact hroot .ind2 rfl trivial (by rw [mem_slotsOf]; assumption)
  | sub a => cases hσ

theorem Spare.appendDirent {name : String} {id : Nat} (ho : Open efs s) (ht : TreeOk efs d s.blk)
    (hz : FreeZero efs s.size s.blk) (hs : Spare s.size d s.blk)
    (h : (Inode.appendDirent efs name id d).run s = .ok (d', s')) : Spare s.size d' s'.blk := by
  rw [Inode.appendDirent] at h
  obtain ⟨d₁, s₁, h1, h⟩ := run_bind_ok.mp h
  obtain ⟨e, s₂, h2, h⟩ := run_bind_ok.mp h
  obtain ⟨-, -, hs₂⟩ := direntNew_ok h2
  obtain ⟨n, s₃, h3, h⟩ := run_bind_ok.mp h
  cases h
  obtain rfl : s₂ = s₁ := hs₂
  exact hs.growWrite ho ht hz (asU32_lt _) h1 h3

end Files

/-! ## The file system -/

/-- Between two calls: also, the super block is where it was. -/
structure Tidy (efs : EasyFileSystem) (s : Store Block) : Prop where
  idle : Idle efs s
  wf : Wf efs s.blk efs.slots
  free : FreeZero efs s.size s.blk
  spare : ∀ id < efs.slots, Spare s.size (efs.inodeAt s.blk id) s.blk
  magic : (s.blk 0).word 4 0 = efsMagic

section Calls

variable {efs : EasyFileSystem} {s s' : Store Block} {id n : Nat} {d' : DiskInode} {blk₁ : Nat → Block}

/-- Storing inode `id` back, when its own pointers are in order. -/
theorem Tidy.store (h : Tidy efs s) (hid : id < efs.slots) (hs : TreeStep efs (efs.inodeAt s.blk id) s.blk d' blk₁)
    (hsp : Spare s.size d' blk₁) : Tidy efs (s.withBlk (storeInode efs s.blk blk₁ id d')) where
  idle := h.idle.withBlk _
  wf := h.wf.step hid hs
  free := h.free.step h.wf hid hs
  spare i hi := by
    have hst := hs.inodeStep h.wf hid
    rw [Store.withBlk_blk]
    by_cases e : i = id
    · subst e
      rw [inodeAt_storeInode_self hs.fits]
      refine hsp.congr hs.small fun b hb => storeInode_of_ne ?_
      have h1 := (hs.inData h.wf hid hb).le
      have h2 := h.wf.geo.dataArea
      exact h.wf.geo.ne_inodeBlock hid (by omega)
    · rw [hst.others i hi e]
      exact (h.spare i hi).congr (h.wf.small i hi) (hst.kept i hi e)
  magic := by
    have h1 := h.wf.geo.inodeArea
    rw [Store.withBlk_blk, (hs.inodeStep h.wf hid).low 0 (by omega)]
    exact h.magic

theorem spare_of_noPointers {d : DiskInode} {size : Nat} {blk : Nat → Block} (h0 : d.size = 0) (hd : d.direct = fun _ => 0)
    (h1 : d.indirect1 = 0) (h2 : d.indirect2 = 0) : Spare size d blk := by
  refine spare_of_empty h0 fun σ hσ => ?_
  cases σ with
  | data j =>
    simp only [Slot.parent] at hσ
    split at hσ
    · rename_i hj
      simp only [ptr, if_pos hj, DiskInode.directAt, dif_pos hj, hd]
    · split at hσ <;> cases hσ
  | ind1 => exact h1
  | ind2 => exact h2
  | sub a => cases hσ

theorem Tidy.newInode (h : Tidy efs s) (hn : NextInode efs s.blk n) (hslot : asU32 n < efs.slots) :
    Tidy efs (s.withBlk (newInode efs s.blk n)) where
  idle := h.idle.withBlk _
  wf := h.wf.newInode hn.lt hslot (Nat.le_refl _) fun _ hid _ => hid
  free := h.free.newInode h.wf.geo hn.lt hslot
  spare i hi := by
    rw [Store.withBlk_blk]
    by_cases e : i = asU32 n
    · subst e
      rw [inodeAt_newInode_self _ h.wf.geo hn.lt]
      exact spare_of_noPointers rfl rfl rfl rfl
    · rw [inodeAt_newInode_of_ne h.wf.geo hn.lt e]
      refine (h.spare i hi).congr (h.wf.small i hi) fun b hb => newInode_data h.wf.geo hn.lt hslot (.inr ?_)
      have h1 := (h.wf.inData i hi b hb).le
      have h2 := h.wf.geo.dataArea
      omega
  magic := by
    rw [Store.withBlk_blk, newInode_data h.wf.geo hn.lt hslot (.inl rfl)]
    exact h.magic

/-- A call of the base easy-fs keeps all that. -/
theorem Tidy.call (h : Tidy efs s) {call : Call} {r : Ret} (hc : BaseCall efs s.blk call)
    (hslots : efs.slots = efs.inodeBitmap.maximum) (hpos : 0 < efs.slots) (hself : ∀ i, call.self? = some i → InArea efs i)
    (hr : (call.exec efs).run s = .ok (r, s')) : (∃ blk', s' = s.withBlk blk') ∧ Tidy efs s' := by
  have hw := h.wf
  cases call with
  | root =>
    obtain ⟨ino, s₁, h3, h1⟩ := run_bind_ok.mp hr
    cases h1
    rw [root_returns h.idle hpos] at h3
    cases h3
    exact ⟨⟨_, rfl⟩, h⟩
  | create i name =>
    obtain ⟨ino, s₁, h3, h1⟩ := run_bind_ok.mp hr
    cases h1
    obtain ⟨id, hid, rfl⟩ := hself i rfl
    obtain ⟨j, hn, rfl, d', s₂, happ, hs'⟩ := create_parts h.idle h3
    have hslot : asU32 j < efs.slots := by
      have hle : asU32 j ≤ j := Nat.mod_le _ _
      have hlt := hn.lt
      omega
    have hnew := h.newInode hn hslot
    have ho := (h.idle.lock.withBlk (EasyFs.newInode efs s.blk j)).open_inode hid
    have ht := hnew.wf.treeOk hid
    obtain ⟨-, blkg, blk₁, rfl, hgw⟩ := appendDirent_ok ho ht happ
    have hsp := Spare.appendDirent ho ht hnew.free (hnew.spare id hid) happ
    obtain rfl := hs' _ rfl
    exact ⟨⟨_, rfl⟩, hnew.store hid hgw.step hsp⟩
  | readAt i off buf =>
    obtain ⟨x, s₁, h3, h1⟩ := run_bind_ok.mp hr
    cases h1
    obtain rfl := (readOnly_inodeReadAt i off buf).run_eq h3
    exact ⟨⟨_, rfl⟩, h⟩
  | writeAt i off buf =>
    obtain ⟨n, s₁, h3, h1⟩ := run_bind_ok.mp hr
    cases h1
    obtain ⟨id, hid, rfl⟩ := hself i rfl
    obtain ⟨d', s₂, s₃, hinc, hwr, -, hs'⟩ := writeAt_parts h3
    have ho := h.idle.lock.open_inode hid
    have ht := hw.treeOk hid
    obtain ⟨-, blkg, blk₁, rfl, hgw⟩ := growWrite_ok ho ht (asU32_lt _) hinc hwr
    have hsp := Spare.growWrite ho ht h.free (h.spare id hid) (asU32_lt _) hinc hwr
    obtain rfl := hs' _ rfl
    exact ⟨⟨_, rfl⟩, h.store hid hgw.step hsp⟩
  | clear i =>
    obtain ⟨u, s₁, h3, h1⟩ := run_bind_ok.mp hr
    cases h1
    obtain ⟨id, hid, rfl⟩ := hself i rfl
    obtain ⟨d', s₂, hbody, hs'⟩ := clear_parts h3
    have ho := h.idle.lock.open_inode hid
    have ht := hw.treeOk hid
    obtain rfl := clearBody_ok_emptied ho ht hbody
    obtain ⟨blk₁, rfl, hcl⟩ := clearBody_ok ho ht hbody
    obtain rfl := hs' _ rfl
    exact ⟨⟨_, rfl⟩, h.store hid hcl.treeStep (spare_emptied (h.spare id hid) _)⟩
  | find i name =>
    obtain ⟨o, s₁, h3, h1⟩ := run_bind_ok.mp hr
    cases h1
    obtain ⟨id, hid, rfl⟩ := hself i rfl
    obtain rfl := (readOnly_find (efs.handle id) name).run_eq h3
    exact ⟨⟨_, rfl⟩, h⟩
  | link i name newName => exact hc.elim
  | unlink i name => exact hc.elim

end Calls

/-! ## Runs -/

section Runs

variable {efs : EasyFileSystem} {dev : BlockDevice Block} {m m' : Cached Block} {hs : List Inode} {total ibb : Nat}

end Runs

end TgRcore.EasyFs
