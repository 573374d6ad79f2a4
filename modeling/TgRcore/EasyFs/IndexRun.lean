/-
  TgRcore.EasyFs.IndexRun — looking up, growing and clearing the block tree of an inode
  (`get_block_id`, `increase_size`, `clear_size` of `layout.rs`).

  - `getBlockId_run`: `get_block_id` reads the slot of a data block.
  - `increaseSize_run`: given as many fresh block numbers as `blocks_num_needed` says,
    `increase_size` stores them into the new slots, in slot order.
  - `increaseSize_ok_le`: it does not return for a file of more than 16540 blocks.
  - `clearSize_eq`: `clear_size` returns the contents of the slots in use, in slot
    order, zeroes their pointers in the inode and changes no block.
-/

import TgRcore.EasyFs.IndexTree

namespace TgRcore.EasyFs

open TgRcore.Bytes TgRcore.BlockProg TgRcore.BlockProg.Prog

/-! ## Looking up a block -/

theorem readIndirect_run {s : Store Block} {b i : Nat} (hf : s.Free b) (hi : i < 128) :
    (readBlock b fun x => getIndirect x i).run s = .ok ((s.blk b).word 4 (4 * i), s) :=
  run_readBlock (g := s.blk) hf (by rw [getIndirect, if_pos hi, run_ret]; rfl)

theorem setIndirect_eq {b : Block} {i x : Nat} (hi : i < 128) : setIndirect b i x = ret (b.setWord 4 (4 * i) x) :=
  if_pos hi

/-- The index blocks of a file of `n` blocks can be locked. -/
def IndexFree (s : Store Block) (d : DiskInode) (n : Nat) : Prop :=
  ∀ τ ∈ slotsOf n, τ.isIndex = true → s.Free (ptr d s.blk τ)

theorem getBlockId_run {s : Store Block} {d : DiskInode} {n j : Nat} (hn : n ≤ 16540) (hj : j < n)
    (hf : IndexFree s d n) : (d.getBlockId j).run s = .ok (ptr d s.blk (.data j), s) := by
  unfold DiskInode.getBlockId
  by_cases h1 : j < 28
  · simp only [ptr, h1, if_true, run_ret]
  · by_cases h2 : j < 156
    · have hi1 : s.Free d.indirect1 := hf .ind1 (mem_slotsOf.mpr (by show 28 < n; omega)) rfl
      simp only [ptr, h1, h2, if_true, if_false]
      exact readIndirect_run hi1 (by omega)
    · have hi2 : s.Free d.indirect2 := hf .ind2 (mem_slotsOf.mpr (by show 156 < n; omega)) rfl
      have hsub := hf (.sub ((j - 156) / 128)) (mem_slotsOf.mpr (by show 156 + 128 * ((j - 156) / 128) < n; omega)) rfl
      simp only [ptr, h1, h2, if_false] at hsub ⊢
      rw [run_bind_of (readIndirect_run hi2 (by omega))]
      exact readIndirect_run hsub (by omega)

/-! ## Growing -/

theorem fillDirect_run (bound : Nat) (hb : bound ≤ 28) (blk : Nat → Block) (rest : List Nat) (s : Store Block)
    (xs : List Nat) : ∀ (d : DiskInode) (c : Nat), xs.length = bound - c →
    ∃ d', (d.fillDirect c bound (xs ++ rest)).run s = .ok ((d', max c bound, rest), s) ∧
      assignAll (d, blk) ((List.range' c xs.length).map .data) xs = (d', blk) := by
  induction xs with
  | nil =>
    intro d c hlen
    rw [List.length_nil] at hlen
    refine ⟨d, ?_, rfl⟩
    rw [DiskInode.fillDirect, if_neg (by omega), Nat.max_eq_left (by omega)]
    rfl
  | cons x xs ih =>
    intro d c hlen
    rw [List.length_cons] at hlen
    obtain ⟨d', h1, h2⟩ := ih (d.setDirect c x) (c + 1) (by omega)
    refine ⟨d', ?_, ?_⟩
    · rw [DiskInode.fillDirect, if_pos (by omega)]
      simp only [List.cons_append, nextBlock, ret_bind]
      rw [h1, Nat.max_eq_right (by omega), Nat.max_eq_right (by omega)]
    · rw [List.length_cons, List.range'_succ, List.map_cons, assignAll]
      rw [show assign (d, blk) (.data c) x = (d.setDirect c x, blk) from ?_]
      · exact h2
      · have hp : (Slot.data c).parent = none := if_pos (by omega)
        simp only [assign, hp]

theorem fillIndirect1_run (bound : Nat) (hb : bound ≤ 128) (d : DiskInode) (rest : List Nat) (s : Store Block)
    (xs : List Nat) : ∀ (b : Block) (c : Nat) (blk : Nat → Block), blk d.indirect1 = b → xs.length = bound - c →
    ∃ b', (DiskInode.fillIndirect1 b c bound (xs ++ rest)).run s = .ok (((max c bound, rest), b'), s) ∧
      assignAll (d, blk) ((List.range' (28 + c) xs.length).map .data) xs =
        (d, Function.update blk d.indirect1 b') := by
  induction xs with
  | nil =>
    intro b c blk hblk hlen
    rw [List.length_nil] at hlen
    refine ⟨b, ?_, ?_⟩
    · rw [DiskInode.fillIndirect1, if_neg (by omega), Nat.max_eq_left (by omega)]
      rfl
    · rw [← hblk, Function.update_eq_self]; rfl
  | cons x xs ih =>
    intro b c blk hblk hlen
    rw [List.length_cons] at hlen
    obtain ⟨b', h1, h2⟩ := ih (b.setWord 4 (4 * c) x) (c + 1)
      (Function.update blk d.indirect1 (b.setWord 4 (4 * c) x)) (Function.update_self ..) (by omega)
    refine ⟨b', ?_, ?_⟩
    · rw [DiskInode.fillIndirect1, if_pos (by omega)]
      simp only [List.cons_append, nextBlock, ret_bind, setIndirect_eq (show c < 128 by omega)]
      rw [h1, Nat.max_eq_right (by omega), Nat.max_eq_right (by omega)]
    · rw [List.length_cons, List.range'_succ, List.map_cons, assignAll]
      rw [show assign (d, blk) (.data (28 + c)) x = (d, Function.update blk d.indirect1 (b.setWord 4 (4 * c) x)) from ?_]
      · rw [Nat.add_assoc, h2, Function.update_idem]
      · have hp : (Slot.data (28 + c)).parent = some .ind1 := by
          rw [Slot.parent, if_neg (by omega), if_pos (by omega)]
        have hi : (Slot.data (28 + c)).idx = c := by rw [Slot.idx, if_pos (by omega)]; omega
        simp only [assign, hp, hi, ptr, hblk]

/-- The slots of `newSlots` from block 156 on, without `ind2`. -/
def subSlots (j : Nat) : List Slot :=
  (if (j - 156) % 128 = 0 then [.sub ((j - 156) / 128)] else []) ++ [.data j]

/-- One data block of the second level, its index block being there already. -/
theorem assign_data2 (d : DiskInode) (g : Nat → Block) (b : Block) {a0 b0 x : Nat} (hb : b0 < 128)
    (hne : b.word 4 (4 * a0) ≠ d.indirect2) :
    assign (d, Function.update g d.indirect2 b) (.data (156 + a0 * 128 + b0)) x =
      (d, Function.update (Function.update g (b.word 4 (4 * a0)) ((g (b.word 4 (4 * a0))).setWord 4 (4 * b0) x))
        d.indirect2 b) := by
  have hp : (Slot.data (156 + a0 * 128 + b0)).parent = some (.sub a0) := by
    rw [Slot.parent, if_neg (by omega), if_neg (by omega)]
    congr 2
    omega
  have hi : (Slot.data (156 + a0 * 128 + b0)).idx = b0 := by rw [Slot.idx, if_neg (by omega)]; omega
  simp only [assign, hp, hi, ptr, Function.update_self]
  rw [Function.update_of_ne hne, Function.update_comm hne]

theorem assign_sub (d : DiskInode) (g : Nat → Block) (b : Block) (a0 x : Nat) :
    assign (d, Function.update g d.indirect2 b) (.sub a0) x =
      (d, Function.update g d.indirect2 (b.setWord 4 (4 * a0) x)) := by
  simp only [assign, Slot.parent, Slot.idx, ptr, Function.update_self, Function.update_idem]

/-- The store into entry `b0` of an index block. -/
theorem setSub_run {s : Store Block} {sub b0 x : Nat} (hf : s.Free sub) (hb : b0 < 128) (l : List Nat) :
    (modifyBlock sub fun indirect1 => do
      let (x, newBlocks) ← nextBlock (x :: l)
      let indirect1 ← setIndirect indirect1 b0 x
      pure (newBlocks, indirect1)).run s =
      .ok (l, s.withBlk (Function.update s.blk sub ((s.blk sub).setWord 4 (4 * b0) x))) := by
  refine run_modifyBlock (g := s.blk) hf ?_
  simp only [nextBlock, ret_bind, setIndirect_eq hb, pure_eq_ret, run_ret]
  rfl

theorem fillIndirect2_run (a1 b1 : Nat) (h1 : b1 < 128) (hle : a1 * 128 + b1 ≤ 16384) (d : DiskInode)
    (rest : List Nat) : ∀ (n a0 b0 : Nat) (b : Block) (xs : List Nat) (s : Store Block), b0 < 128 →
    a1 * 128 + b1 = a0 * 128 + b0 + n →
    xs.length = ((List.range' (156 + a0 * 128 + b0) n).flatMap subSlots).length → (∀ x ∈ xs, s.Free x ∧ x < 2 ^ 32) →
    (b0 ≠ 0 → n ≠ 0 → s.Free (b.word 4 (4 * a0))) → d.indirect2 ∈ s.held →
    ∃ b' g, (DiskInode.fillIndirect2 b a0 b0 a1 b1 (xs ++ rest)).run s = .ok ((rest, b'), s.withBlk g) ∧
      assignAll (d, Function.update s.blk d.indirect2 b) ((List.range' (156 + a0 * 128 + b0) n).flatMap subSlots) xs =
        (d, Function.update g d.indirect2 b') := by
  intro n
  induction n with
  | zero =>
    intro a0 b0 b xs s hb0 hn hlen _ _ _
    have hxs : xs = [] := List.eq_nil_of_length_eq_zero (by simpa using hlen)
    subst hxs
    refine ⟨b, s.blk, ?_, rfl⟩
    rw [DiskInode.fillIndirect2, dif_neg (by omega)]
    rfl
  | succ n ih =>
    intro a0 b0 b xs s hb0 hn hlen hx hsub hheld
    have ha0 : a0 < 128 := by omega
    have hcond : a0 < a1 ∨ (a0 = a1 ∧ b0 < b1) := by omega
    -- the rest of the loop, once the index block is in place: `b₁` names it at `a0`
    have key : ∀ (b₁ : Block) (y : Nat) (ys : List Nat), (∀ x ∈ y :: ys, s.Free x ∧ x < 2 ^ 32) →
        s.Free (b₁.word 4 (4 * a0)) →
        ys.length = ((List.range' (156 + a0 * 128 + b0 + 1) n).flatMap subSlots).length →
        ∃ b' g, (do
            let sub ← getIndirect b₁ a0
            let newBlocks ← modifyBlock sub fun indirect1 => do
              let (x, newBlocks) ← nextBlock ((y :: ys) ++ rest)
              let indirect1 ← setIndirect indirect1 b0 x
              pure (newBlocks, indirect1)
            if b0 + 1 = 128 then DiskInode.fillIndirect2 b₁ (a0 + 1) 0 a1 b1 newBlocks
            else DiskInode.fillIndirect2 b₁ a0 (b0 + 1) a1 b1 newBlocks).run s = .ok ((rest, b'), s.withBlk g) ∧
          assignAll (assign (d, Function.update s.blk d.indirect2 b₁) (.data (156 + a0 * 128 + b0)) y)
            ((List.range' (156 + a0 * 128 + b0 + 1) n).flatMap subSlots) ys = (d, Function.update g d.indirect2 b') := by
      intro b₁ y ys hy hfree hl
      have hne : b₁.word 4 (4 * a0) ≠ d.indirect2 := fun e => hfree.notHeld (e ▸ hheld)
      have hset := setSub_run hfree hb0 (x := y) (ys ++ rest)
      generalize hs' : s.withBlk (Function.update s.blk (b₁.word 4 (4 * a0))
        ((s.blk (b₁.word 4 (4 * a0))).setWord 4 (4 * b0) y)) = s' at hset
      have hw : ∀ {b}, s.Free b → s'.Free b := fun h => hs' ▸ h.withBlk _
      have hg : ∀ g, s'.withBlk g = s.withBlk g := fun g => by rw [← hs']; rfl
      have hfr : ∀ x ∈ ys, s'.Free x ∧ x < 2 ^ 32 := fun x hx' =>
        ⟨hw (hy x (List.mem_cons_of_mem _ hx')).1, (hy x (List.mem_cons_of_mem _ hx')).2⟩
      have hheld' : d.indirect2 ∈ s'.held := by rw [← hs']; exact hheld
      have hblk' : s'.blk = Function.update s.blk (b₁.word 4 (4 * a0))
        ((s.blk (b₁.word 4 (4 * a0))).setWord 4 (4 * b0) y) := by rw [← hs']; rfl
      have hrec : ∃ b' g, (if b0 + 1 = 128 then DiskInode.fillIndirect2 b₁ (a0 + 1) 0 a1 b1 (ys ++ rest)
            else DiskInode.fillIndirect2 b₁ a0 (b0 + 1) a1 b1 (ys ++ rest)).run s' = .ok ((rest, b'), s.withBlk g) ∧
          assignAll (d, Function.update s'.blk d.indirect2 b₁)
            ((List.range' (156 + a0 * 128 + b0 + 1) n).flatMap subSlots) ys = (d, Function.update g d.indirect2 b') := by
        split
        · have e : 156 + a0 * 128 + b0 + 1 = 156 + (a0 + 1) * 128 + 0 := by omega
          rw [e] at hl ⊢
          obtain ⟨b', g, r1, r2⟩ := ih (a0 + 1) 0 b₁ ys s' (by omega) (by omega) hl hfr (by omega) hheld'
          exact ⟨b', g, by rw [r1, hg], r2⟩
        · obtain ⟨b', g, r1, r2⟩ := ih a0 (b0 + 1) b₁ ys s' (by omega) (by omega) hl hfr (fun _ _ => hw hfree) hheld'
          exact ⟨b', g, by rw [r1, hg], r2⟩
      obtain ⟨b', g, r1, r2⟩ := hrec
      refine ⟨b', g, ?_, ?_⟩
      · rw [getIndirect, if_pos ha0, ret_bind, List.cons_append, run_bind_of hset]
        exact r1
      · rw [assign_data2 d s.blk b₁ hb0 hne, ← hblk']
        exact r2
    rw [List.range'_succ, List.flatMap_cons] at hlen ⊢
    rw [DiskInode.fillIndirect2, dif_pos hcond, dif_pos hb0]
    by_cases hz : b0 = 0
    · -- a new index block first
      subst hz
      have hss : subSlots (156 + a0 * 128 + 0) = [.sub a0, .data (156 + a0 * 128 + 0)] := by
        rw [subSlots, if_pos (by omega), show (156 + a0 * 128 + 0 - 156) / 128 = a0 by omega]
        rfl
      rw [hss] at hlen ⊢
      obtain ⟨z, y, ys, rfl⟩ : ∃ z y ys, xs = z :: y :: ys := by
        rcases xs with _ | ⟨z, _ | ⟨y, ys⟩⟩
        · simp at hlen
        · simp at hlen
        · exact ⟨z, y, ys, rfl⟩
      have hz := hx z List.mem_cons_self
      have hword : (b.setWord 4 (4 * a0) z).word 4 (4 * a0) = z :=
        Blk.word_setWord_same b (by omega) (by norm_num at hz ⊢; exact hz.2)
      obtain ⟨b', g, r1, r2⟩ := key (b.setWord 4 (4 * a0) z) y ys (fun x h => hx x (List.mem_cons_of_mem _ h))
        (by rw [hword]; exact hz.1) (by simpa using hlen)
      refine ⟨b', g, ?_, ?_⟩
      · simp only [if_true, List.cons_append, nextBlock, ret_bind, setIndirect_eq ha0, pure_eq_ret]
        exact r1
      · simp only [List.cons_append, List.nil_append, assignAll]
        rw [assign_sub]
        exact r2
    · have hss : subSlots (156 + a0 * 128 + b0) = [.data (156 + a0 * 128 + b0)] := by
        rw [subSlots, if_neg (by omega)]
        rfl
      rw [hss] at hlen ⊢
      obtain ⟨y, ys, rfl⟩ : ∃ y ys, xs = y :: ys := by
        cases xs with
        | nil => simp at hlen
        | cons y ys => exact ⟨y, ys, rfl⟩
      obtain ⟨b', g, r1, r2⟩ := key b y ys hx (hsub hz (by omega)) (by simpa using hlen)
      refine ⟨b', g, ?_, r2⟩
      simp only [if_neg hz, pure_eq_ret, ret_bind]
      exact r1

theorem newSlots_of_lt {j : Nat} (h : j < 28) : newSlots j = [.data j] := by
  simp [newSlots, show j ≠ 28 by omega, show j ≠ 156 by omega, show ¬ 156 ≤ j by omega]

theorem newSlots_of_lt2 {j : Nat} (h1 : 28 < j) (h2 : j < 156) : newSlots j = [.data j] := by
  simp [newSlots, show j ≠ 28 by omega, show j ≠ 156 by omega, show ¬ 156 ≤ j by omega]

theorem newSlots_of_gt {j : Nat} (h : 156 < j) : newSlots j = subSlots j := by
  simp [newSlots, subSlots, show j ≠ 28 by omega, show j ≠ 156 by omega, show 156 ≤ j by omega]

theorem slotsFrom_direct {c k : Nat} (h : 0 < k → c + k ≤ 28) : slotsFrom c k = (List.range' c k).map .data := by
  rw [slotsFrom, List.flatMap_congr fun j hj => newSlots_of_lt (by have := List.mem_range'_1.mp hj; omega),
    ← List.map_eq_flatMap]

theorem slotsFrom_indirect1 {c k : Nat} (h1 : 28 ≤ c) (h2 : 0 < k → c + k ≤ 156) (hk : c = 28 → 0 < k) :
    slotsFrom c k = (if c = 28 then [.ind1] else []) ++ (List.range' c k).map .data := by
  have hgt : ∀ c k, 28 < c → (0 < k → c + k ≤ 156) → slotsFrom c k = (List.range' c k).map .data := by
    intro c k h1 h2
    rw [slotsFrom, List.flatMap_congr fun j hj => newSlots_of_lt2 (by have := List.mem_range'_1.mp hj; omega)
      (by have := List.mem_range'_1.mp hj; omega), ← List.map_eq_flatMap]
  split
  · rename_i e
    subst e
    obtain ⟨k, rfl⟩ := Nat.exists_eq_add_of_lt (hk rfl)
    rw [Nat.zero_add, Nat.add_comm k 1, slotsFrom_append, hgt (28 + 1) k (by omega) (by omega), Nat.add_comm 1 k,
      List.range'_succ]
    simp [slotsFrom, newSlots]
  · exact hgt c k (by omega) h2

theorem slotsFrom_indirect2 {c k : Nat} (h1 : 156 ≤ c) (hk : c = 156 → 0 < k) :
    slotsFrom c k = (if c = 156 then [.ind2] else []) ++ (List.range' c k).flatMap subSlots := by
  have hgt : ∀ c k, 156 < c → slotsFrom c k = (List.range' c k).flatMap subSlots := by
    intro c k h1
    exact List.flatMap_congr fun j hj => newSlots_of_gt (by have := List.mem_range'_1.mp hj; omega)
  split
  · rename_i e
    subst e
    obtain ⟨k, rfl⟩ := Nat.exists_eq_add_of_lt (hk rfl)
    rw [Nat.zero_add, Nat.add_comm k 1, slotsFrom_append, hgt (156 + 1) k (by omega), Nat.add_comm 1 k,
      List.range'_succ]
    simp [slotsFrom, newSlots, subSlots]
  · exact hgt c k (by omega)

/-- Stage 2 of `increase_size`: the first-level index block, then its entries. -/
theorem stage2_run {s : Store Block} {d : DiskInode} {c e : Nat} {v : List Nat} (rest : List Nat)
    (h1 : 28 ≤ c) (h2 : e ≤ 156)
    (he : c = 28 → 28 < e) (hlen : v.length = (slotsFrom c (e - c)).length) (hind : c ≠ 28 → s.Free d.indirect1)
    (hv : ∀ x ∈ v, s.Free x) :
    ∃ d' v' b', (d.takeIndirect1 c (v ++ rest)).run s = .ok ((d', v' ++ rest), s) ∧
      (modifyBlock d'.indirect1 fun indirect1 => DiskInode.fillIndirect1 indirect1 (c - 28) (e - 28) (v' ++ rest)).run s =
        .ok ((max (c - 28) (e - 28), rest), s.withBlk (Function.update s.blk d'.indirect1 b')) ∧
      assignAll (d, s.blk) (slotsFrom c (e - c)) v = (d', Function.update s.blk d'.indirect1 b') := by
  rw [slotsFrom_indirect1 h1 (by omega) (by omega)] at hlen ⊢
  by_cases hc : c = 28
  · subst hc
    rw [if_pos rfl] at hlen ⊢
    obtain ⟨x, v', rfl⟩ : ∃ x v', v = x :: v' := by
      cases v with
      | nil => simp at hlen
      | cons x v' => exact ⟨x, v', rfl⟩
    simp only [List.length_cons, List.length_append, List.length_nil, List.length_map, List.length_range'] at hlen
    obtain ⟨b', r1, r2⟩ := fillIndirect1_run (e - 28) (by omega) { d with indirect1 := x } rest
      (s.pin x) v' (s.blk x) 0 s.blk rfl (by omega)
    have hkv : v'.length = e - 28 := by omega
    rw [Nat.add_zero, hkv] at r2
    refine ⟨{ d with indirect1 := x }, v', b', ?_, ?_, ?_⟩
    · simp only [DiskInode.takeIndirect1, if_true, List.cons_append, nextBlock, ret_bind, pure_eq_ret, run_ret]
    · exact run_modifyBlock (g := s.blk) (hv x List.mem_cons_self) r1
    · exact r2
  · simp only [if_neg hc, List.nil_append, List.length_map, List.length_range'] at hlen ⊢
    obtain ⟨b', r1, r2⟩ := fillIndirect1_run (e - 28) (by omega) d rest
      (s.pin d.indirect1) v (s.blk d.indirect1) (c - 28) s.blk rfl (by omega)
    rw [Nat.add_sub_cancel' h1, hlen] at r2
    exact ⟨d, v, b', by rw [DiskInode.takeIndirect1, if_neg hc]; rfl, run_modifyBlock (g := s.blk) (hind hc) r1, r2⟩

/-- Stage 3: the second-level index block, then index and data blocks under it. -/
theorem stage3_run {s : Store Block} {d : DiskInode} {c k : Nat} {v : List Nat} (h1 : 156 ≤ c) (h2 : c + k ≤ 16540)
    (hk : c = 156 → 0 < k) (hlen : v.length = (slotsFrom c k).length) (hind : c ≠ 156 → s.Free d.indirect2)
    (hsub : c ≠ 156 → (c - 156) % 128 ≠ 0 → s.Free ((s.blk d.indirect2).word 4 (4 * ((c - 156) / 128))) ∧
      (s.blk d.indirect2).word 4 (4 * ((c - 156) / 128)) ≠ d.indirect2)
    (hv : ∀ x ∈ v, s.Free x ∧ x < 2 ^ 32) (hnd : v.Nodup) (hni : c ≠ 156 → d.indirect2 ∉ v)
    (hroom : s.held.length + 1 < s.cap) :
    ∃ d' v' g, (d.takeIndirect2 (c - 28) v).run s = .ok ((d', v'), s) ∧
      (modifyBlock d'.indirect2 fun indirect2 => DiskInode.fillIndirect2 indirect2 ((c - 28 - 128) / 128)
        ((c - 28 - 128) % 128) ((c + k - 28 - 128) / 128) ((c + k - 28 - 128) % 128) v').run s = .ok ([], s.withBlk g) ∧
      assignAll (d, s.blk) (slotsFrom c k) v = (d', g) := by
  rw [slotsFrom_indirect2 h1 hk] at hlen ⊢
  -- the loop, once the pointer to the second-level block is set
  have loop : ∀ (d : DiskInode) (v : List Nat), s.Free d.indirect2 → d.indirect2 ∉ v →
      (∀ x ∈ v, s.Free x ∧ x < 2 ^ 32) → v.length = ((List.range' c k).flatMap subSlots).length →
      ((c - 156) % 128 ≠ 0 → s.Free ((s.blk d.indirect2).word 4 (4 * ((c - 156) / 128))) ∧
        (s.blk d.indirect2).word 4 (4 * ((c - 156) / 128)) ≠ d.indirect2) →
      ∃ g, (modifyBlock d.indirect2 fun indirect2 => DiskInode.fillIndirect2 indirect2 ((c - 28 - 128) / 128)
          ((c - 28 - 128) % 128) ((c + k - 28 - 128) / 128) ((c + k - 28 - 128) % 128) v).run s = .ok ([], s.withBlk g) ∧
        assignAll (d, s.blk) ((List.range' c k).flatMap subSlots) v = (d, g) := by
    intro d v hf hnv hv hl hs
    have hc : 156 + (c - 28 - 128) / 128 * 128 + (c - 28 - 128) % 128 = c := by omega
    obtain ⟨b', g, r1, r2⟩ := fillIndirect2_run ((c + k - 28 - 128) / 128) ((c + k - 28 - 128) % 128)
      (by omega) (by omega) d [] k ((c - 28 - 128) / 128) ((c - 28 - 128) % 128) (s.blk d.indirect2) v (s.pin d.indirect2)
      (by omega) (by omega) (by rw [hc]; exact hl)
      (fun x hx => ⟨(hv x hx).1.pin (fun e => hnv (e ▸ hx)) hroom, (hv x hx).2⟩)
      (fun h0 _ => by
        rw [show c - 28 - 128 = c - 156 by omega] at h0 ⊢
        exact (hs h0).1.pin (hs h0).2 hroom)
      (by simp)
    rw [hc] at r2
    rw [List.append_nil] at r1
    refine ⟨_, run_modifyBlock hf r1, ?_⟩
    have hself : Function.update s.blk d.indirect2 (s.blk d.indirect2) = s.blk := Function.update_eq_self _ _
    rw [Store.pin_blk, hself] at r2
    exact r2
  by_cases hc : c = 156
  · subst hc
    rw [if_pos rfl] at hlen ⊢
    obtain ⟨x, v', rfl⟩ : ∃ x v', v = x :: v' := by
      cases v with
      | nil => simp at hlen
      | cons x v' => exact ⟨x, v', rfl⟩
    simp only [List.length_cons, List.length_append, List.length_nil] at hlen
    obtain ⟨g, r1, r2⟩ := loop { d with indirect2 := x } v' (hv x List.mem_cons_self).1 (List.nodup_cons.mp hnd).1
      (fun y hy => hv y (List.mem_cons_of_mem _ hy)) (by omega) (by omega)
    refine ⟨{ d with indirect2 := x }, v', g, ?_, r1, ?_⟩
    · simp only [DiskInode.takeIndirect2, if_true, nextBlock, ret_bind, pure_eq_ret, run_ret]
    · exact r2
  · rw [if_neg hc] at hlen ⊢
    obtain ⟨g, r1, r2⟩ := loop d v (hind hc) (hni hc) hv hlen (hsub hc)
    exact ⟨d, v, g, by rw [DiskInode.takeIndirect2, if_neg (by omega)]; rfl, r1, r2⟩

theorem slotsFrom_cut (n m b : Nat) :
    slotsFrom n (m - n) = slotsFrom n (min m b - n) ++ slotsFrom (max n b) (m - max n b) := by
  by_cases h1 : m ≤ b
  · rw [Nat.min_eq_left h1, show m - max n b = 0 by omega]
    simp [slotsFrom]
  · by_cases h2 : b ≤ n
    · rw [show min m b - n = 0 by omega, Nat.max_eq_left h2]
      simp [slotsFrom]
    · rw [Nat.max_eq_right (by omega), Nat.min_eq_right (by omega), show m - n = (b - n) + (m - b) by omega,
        slotsFrom_append, show n + (b - n) = b by omega]

theorem increaseSize_run {s : Store Block} {d : DiskInode} {newSize : Nat} {v : List Nat} (hsz : d.size ≤ newSize)
    (hm : DiskInode.dataBlocksOf newSize ≤ 16540)
    (hlen : v.length = (slotsFrom d.dataBlocks (DiskInode.dataBlocksOf newSize - d.dataBlocks)).length)
    (hidx : IndexFree s d d.dataBlocks) (hv : ∀ x ∈ v, s.Free x ∧ x < 2 ^ 32) (hnd : (tree d s.blk ++ v).Nodup)
    (hroom : s.held.length + 1 < s.cap) :
    (d.increaseSize newSize v).run s =
      .ok ((assignAll ({ d with size := newSize }, s.blk)
          (slotsFrom d.dataBlocks (DiskInode.dataBlocksOf newSize - d.dataBlocks)) v).1,
        s.withBlk (assignAll ({ d with size := newSize }, s.blk)
          (slotsFrom d.dataBlocks (DiskInode.dataBlocksOf newSize - d.dataBlocks)) v).2) := by
  have hnm : d.dataBlocks ≤ DiskInode.dataBlocksOf newSize := by
    unfold DiskInode.dataBlocks DiskInode.dataBlocksOf
    omega
  have hcur : ∀ d' : DiskInode, ({ d' with size := newSize } : DiskInode).dataBlocks = DiskInode.dataBlocksOf newSize :=
    fun _ => rfl
  unfold DiskInode.increaseSize
  simp only [hcur]
  unfold tree at hnd
  unfold IndexFree at hidx
  generalize hn : d.dataBlocks = n at *
  generalize hmm : DiskInode.dataBlocksOf newSize = m at *
  -- the three ranges of block numbers, and the new blocks each takes
  have hsplit : slotsFrom n (m - n) = slotsFrom n (min m 28 - n) ++ (slotsFrom (max n 28) (min m 156 - max n 28) ++
      slotsFrom (max n 156) (m - max n 156)) := by
    rw [slotsFrom_cut n m 28, slotsFrom_cut (max n 28) m 156, show max (max n 28) 156 = max n 156 by omega]
  rw [hsplit] at hlen ⊢
  simp only [List.length_append] at hlen
  obtain ⟨v1, v2, v3, rfl, hl1, hl2, hl3⟩ : ∃ v1 v2 v3, v = v1 ++ (v2 ++ v3) ∧
      v1.length = (slotsFrom n (min m 28 - n)).length ∧
      v2.length = (slotsFrom (max n 28) (min m 156 - max n 28)).length ∧
      v3.length = (slotsFrom (max n 156) (m - max n 156)).length := by
    refine ⟨v.take (slotsFrom n (min m 28 - n)).length, (v.drop (slotsFrom n (min m 28 - n)).length).take
      (slotsFrom (max n 28) (min m 156 - max n 28)).length, (v.drop (slotsFrom n (min m 28 - n)).length).drop
      (slotsFrom (max n 28) (min m 156 - max n 28)).length, ?_, ?_, ?_, ?_⟩
    · rw [List.take_append_drop, List.take_append_drop]
    · rw [List.length_take]; omega
    · rw [List.length_take, List.length_drop]; omega
    · rw [List.length_drop, List.length_drop]; omega
  rw [assignAll_append _ hl1.symm, assignAll_append _ hl2.symm]
  have hv1 : ∀ x ∈ v1, s.Free x ∧ x < 2 ^ 32 := fun x hx => hv x (by simp [hx])
  have hv2 : ∀ x ∈ v2, s.Free x ∧ x < 2 ^ 32 := fun x hx => hv x (by simp [hx])
  have hv3 : ∀ x ∈ v3, s.Free x ∧ x < 2 ^ 32 := fun x hx => hv x (by simp [hx])
  have hnil : ∀ {c k : Nat} {l : List Nat}, l.length = (slotsFrom c k).length → k = 0 → l = [] := by
    rintro c k l hl rfl
    exact List.eq_nil_of_length_eq_zero hl
  -- stage 1
  have hs1 := slotsFrom_direct (c := n) (k := min m 28 - n) (by omega)
  have hl1' : v1.length = min m 28 - n := by rw [hl1, hs1]; simp
  obtain ⟨d1, r1, e1⟩ := fillDirect_run (min m 28) (by omega) s.blk (v2 ++ v3) s v1
    { d with size := newSize } n hl1'
  rw [hl1', ← hs1] at e1
  have hd1 : 28 < n → d1 = { d with size := newSize } := by
    intro h
    rw [hnil hl1 (by omega)] at e1
    have := congrArg Prod.fst e1
    cases hx : slotsFrom n (min m 28 - n) <;> simp [hx, assignAll] at this <;> exact this.symm
  rw [e1, run_bind_of r1]
  simp only
  by_cases h28 : m > 28
  swap
  · rw [if_neg h28, hnil hl2 (by omega), hnil hl3 (by omega), show min m 156 - max n 28 = 0 by omega,
      show m - max n 156 = 0 by omega]
    rfl
  rw [if_pos h28, show max n (min m 28) = max n 28 by omega]
  -- stage 2
  obtain ⟨d2, v2', b2, r2, r2', e2⟩ := stage2_run (s := s) (d := d1) (c := max n 28) (e := min m 156) (v := v2)
    v3 (by omega) (by omega) (by omega) hl2
    (fun h => by
      rw [hd1 (by omega)]
      exact hidx .ind1 (mem_slotsOf.mpr (by show 28 < n; omega)) rfl) (fun x hx => (hv2 x hx).1)
  have hd2 : 156 < n → d2 = { d with size := newSize } ∧ Function.update s.blk d2.indirect1 b2 = s.blk := by
    intro h
    rw [hnil hl2 (by omega), show min m 156 - max n 28 = 0 by omega] at e2
    exact ⟨by rw [← hd1 (by omega)]; exact (congrArg Prod.fst e2).symm, (congrArg Prod.snd e2).symm⟩
  rw [e2, run_bind_of r2]
  simp only
  rw [show min (m - 28) 128 = min m 156 - 28 by omega, run_bind_of r2']
  simp only
  by_cases h156 : m - 28 > 128
  swap
  · rw [if_neg h156, hnil hl3 (by omega), show m - max n 156 = 0 by omega]
    rfl
  rw [if_pos h156, show max (max n 28 - 28) (min m 156 - 28) = max n 156 - 28 by omega]
  -- stage 3
  have hin : 156 < n → ∀ τ ∈ slotsOf n, ptr d2 (Function.update s.blk d2.indirect1 b2) τ = ptr d s.blk τ := by
    intro h τ _
    rw [(hd2 h).2, (hd2 h).1]
    cases τ <;> rfl
  have hsub : 156 < n → (n - 156) % 128 ≠ 0 → Slot.sub ((n - 156) / 128) ∈ slotsOf n := fun _ _ =>
    mem_slotsOf.mpr (by show 156 + 128 * ((n - 156) / 128) < n; omega)
  have hi2 : 156 < n → Slot.ind2 ∈ slotsOf n := fun h => mem_slotsOf.mpr h
  obtain ⟨d3, v3', g, r3, r3', e3⟩ := stage3_run (s := s.withBlk (Function.update s.blk d2.indirect1 b2)) (d := d2)
    (c := max n 156) (k := m - max n 156) (v := v3) (by omega) (by omega) (by omega) hl3
    (fun h => by
      have := hidx _ (hi2 (by omega)) rfl
      rw [← hin (by omega) _ (hi2 (by omega))] at this
      exact this.withBlk _)
    (fun h h0 => by
      have hn156 : 156 < n := by omega
      rw [Nat.max_eq_left (by omega)] at h0 ⊢
      have h1 := hin hn156 _ (hsub hn156 h0)
      have h2 := hin hn156 _ (hi2 hn156)
      simp only [ptr] at h1 h2
      rw [Store.withBlk_blk, h1, h2]
      refine ⟨(hidx _ (hsub hn156 h0) rfl).withBlk _, fun e => ?_⟩
      have := List.inj_on_of_nodup_map (List.nodup_append.mp hnd).1 (hsub hn156 h0) (hi2 hn156) e
      cases this)
    (fun x hx => ⟨(hv3 x hx).1.withBlk _, (hv3 x hx).2⟩)
    (by
      have := (List.nodup_append.mp hnd).2.1
      rw [List.nodup_append, List.nodup_append] at this
      exact this.2.1.2.1)
    (fun h hx => by
      have h2 := hin (by omega) _ (hi2 (by omega))
      simp only [ptr] at h2
      have hmem : d.indirect2 ∈ (slotsOf n).map (ptr d s.blk) := List.mem_map.mpr ⟨.ind2, hi2 (by omega), rfl⟩
      exact (List.nodup_append.mp hnd).2.2 _ hmem _ (by simp [← h2, hx]) rfl)
    hroom
  rw [Store.withBlk_blk] at e3
  rw [e3, run_bind_of r3]
  simp only
  rw [show m - 28 - 128 = max n 156 + (m - max n 156) - 28 - 128 by omega, run_bind_of r3']
  rfl

/-- Past 128 full index blocks the loop runs off the second-level index block. -/
theorem fillIndirect2_panics {a1 b1 : Nat} (hbig : 128 < a1 ∨ (a1 = 128 ∧ 0 < b1)) :
    ∀ (n a0 b0 : Nat) (b : Block) (v : List Nat) (s : Store Block) (r : (List Nat × Block) × Store Block),
    a0 * 128 + b0 + n = 16384 → b0 < 128 → (DiskInode.fillIndirect2 b a0 b0 a1 b1 v).run s ≠ .ok r := by
  intro n
  induction n with
  | zero =>
    intro a0 b0 b v s r hn hb0 h
    obtain ⟨rfl, rfl⟩ : a0 = 128 ∧ b0 = 0 := by omega
    rw [DiskInode.fillIndirect2, dif_pos (by omega), dif_pos hb0] at h
    simp only [if_true] at h
    obtain ⟨p, s1, -, h⟩ := run_bind_ok.mp h
    obtain ⟨b', s2, h2, -⟩ := run_bind_ok.mp h
    rw [setIndirect, if_neg (by omega)] at h2
    cases h2
  | succ n ih =>
    intro a0 b0 b v s r hn hb0 h
    rw [DiskInode.fillIndirect2, dif_pos (by omega), dif_pos hb0] at h
    -- whatever the index block is, the loop goes on from the next place
    have key : ∀ (b : Block) (v : List Nat) (s : Store Block), (do
        let sub ← getIndirect b a0
        let newBlocks ← modifyBlock sub fun indirect1 => do
          let (x, newBlocks) ← nextBlock v
          let indirect1 ← setIndirect indirect1 b0 x
          pure (newBlocks, indirect1)
        if b0 + 1 = 128 then DiskInode.fillIndirect2 b (a0 + 1) 0 a1 b1 newBlocks
        else DiskInode.fillIndirect2 b a0 (b0 + 1) a1 b1 newBlocks).run s ≠ .ok r := by
      intro b v s h
      obtain ⟨sub, s1, -, h⟩ := run_bind_ok.mp h
      obtain ⟨v', s2, -, h⟩ := run_bind_ok.mp h
      split at h
      · exact ih _ _ _ _ _ _ (by omega) (by omega) h
      · exact ih _ _ _ _ _ _ (by omega) (by omega) h
    by_cases hz : b0 = 0
    · simp only [if_pos hz] at h
      obtain ⟨p, s1, -, h⟩ := run_bind_ok.mp h
      obtain ⟨b', s2, -, h⟩ := run_bind_ok.mp h
      exact key _ _ _ h
    · simp only [if_neg hz] at h
      exact key _ _ _ h

theorem fillDirect_ok {bound : Nat} (d : DiskInode) (c : Nat) (v : List Nat) {s s' : Store Block} {d' : DiskInode}
    {c' : Nat} {v' : List Nat} (h : (d.fillDirect c bound v).run s = .ok ((d', c', v'), s')) : c' = max c bound := by
  induction hk : bound - c generalizing d c v s with
  | zero =>
    rw [DiskInode.fillDirect, if_neg (by omega)] at h
    cases h
    omega
  | succ k ih =>
    rw [DiskInode.fillDirect, if_pos (by omega)] at h
    obtain ⟨p, s1, -, h⟩ := run_bind_ok.mp h
    have := ih _ _ _ h (by omega)
    omega

theorem fillIndirect1_ok {bound : Nat} (b : Block) (c : Nat) (v : List Nat) {s s' : Store Block} {b' : Block}
    {c' : Nat} {v' : List Nat} (h : (DiskInode.fillIndirect1 b c bound v).run s = .ok (((c', v'), b'), s')) :
    c' = max c bound := by
  induction hk : bound - c generalizing b c v s with
  | zero =>
    rw [DiskInode.fillIndirect1, if_neg (by omega)] at h
    cases h
    omega
  | succ k ih =>
    rw [DiskInode.fillIndirect1, if_pos (by omega)] at h
    obtain ⟨p, s1, -, h⟩ := run_bind_ok.mp h
    obtain ⟨b2, s2, -, h⟩ := run_bind_ok.mp h
    have := ih _ _ _ h (by omega)
    omega

/-- A file of more than 16540 blocks is not made. -/
theorem increaseSize_ok_le {s : Store Block} {d : DiskInode} {newSize : Nat} {v : List Nat} {r : DiskInode × Store Block}
    (hn : d.dataBlocks ≤ 16540) (h : (d.increaseSize newSize v).run s = .ok r) :
    DiskInode.dataBlocksOf newSize ≤ 16540 := by
  by_contra hm
  unfold DiskInode.increaseSize at h
  have hcur : ({ d with size := newSize } : DiskInode).dataBlocks = DiskInode.dataBlocksOf newSize := rfl
  simp only [hcur] at h
  generalize DiskInode.dataBlocksOf newSize = m at *
  generalize d.dataBlocks = n at *
  obtain ⟨⟨d1, c1, v1⟩, s1, h1, h⟩ := run_bind_ok.mp h
  simp only at h
  rw [if_pos (by omega)] at h
  obtain ⟨⟨d2, v2⟩, s2, h2, h⟩ := run_bind_ok.mp h
  obtain ⟨⟨c3, v3⟩, s3, h3, h⟩ := run_bind_ok.mp h
  simp only at h
  rw [if_pos (by omega)] at h
  obtain ⟨⟨d4, v4⟩, s4, h4, h⟩ := run_bind_ok.mp h
  obtain ⟨v5, s5, h5, h⟩ := run_bind_ok.mp h
  obtain ⟨-, x3, s6, h3', -⟩ := run_modifyBlock_ok.mp h3
  obtain ⟨-, x5, s7, h5', -⟩ := run_modifyBlock_ok.mp h5
  have e1 := fillDirect_ok _ _ _ h1
  have e3 := fillIndirect1_ok _ _ _ h3'
  exact fillIndirect2_panics (by omega) (16384 - (c3 - 128)) _ _ _ _ _ _ (by omega) (by omega) h5'

/-! ## Clearing -/

theorem clearDirect_eq (d : DiskInode) (c bound : Nat) (hb : bound ≤ 28) (v : List Nat) :
    d.clearDirect c bound v = (v ++ (List.range' c (bound - c)).map d.directAt,
      { d with direct := fun j => if c ≤ j.val ∧ j.val < bound then 0 else d.direct j }) := by
  induction hk : bound - c generalizing d c v with
  | zero =>
    rw [DiskInode.clearDirect, if_neg (by omega)]
    have : (fun j : Fin 28 => if c ≤ j.val ∧ j.val < bound then 0 else d.direct j) = d.direct := by
      funext j
      rw [if_neg (by omega)]
    simp [this]
  | succ k ih =>
    rw [DiskInode.clearDirect, if_pos (by omega), ih (d.setDirect c 0) (c + 1) _ (by omega), List.range'_succ]
    refine Prod.ext ?_ ?_
    · have hrest : (List.range' (c + 1) k).map (d.setDirect c 0).directAt = (List.range' (c + 1) k).map d.directAt := by
        refine List.map_congr_left fun j hj => ?_
        have := List.mem_range'_1.mp hj
        rw [DiskInode.directAt_setDirect _ _ _ (by omega), if_neg (by omega)]
      simp [hrest]
    · simp only [DiskInode.setDirect, DiskInode.mk.injEq, true_and, and_true]
      funext j
      by_cases hj : j.val = c
      · simp [hj]; omega
      · rw [if_neg hj]
        exact if_congr (by omega) rfl rfl

/-- The entries of a block are read and it is left as it was. -/
theorem collect_run {s : Store Block} {b : Nat} (hf : s.Free b) (n : Nat) :
    (modifyBlock b fun x => ret (DiskInode.indirectEntries x n, x)).run s =
      .ok (DiskInode.indirectEntries (s.blk b) n, s) := run_modifyBlock_same hf rfl

theorem clearSubs_run {s : Store Block} {l : List Nat} (h : ∀ e ∈ l, s.Free e) :
    (DiskInode.clearSubs l).run s = .ok (l.flatMap fun e => e :: DiskInode.indirectEntries (s.blk e) 128, s) := by
  induction l with
  | nil => rfl
  | cons e l ih =>
    rw [DiskInode.clearSubs, run_bind_of (collect_run (h e List.mem_cons_self) 128),
      run_bind_of (ih fun x hx => h x (List.mem_cons_of_mem _ hx))]
    simp

/-- The slots under one second-level entry with `r` data blocks. -/
def subGroup (a r : Nat) : List Slot := .sub a :: (List.range r).map fun i => .data (156 + 128 * a + i)

theorem flatMap_subSlots_group (a : Nat) {r : Nat} (hr : r ≤ 128) (h0 : 0 < r) :
    (List.range' (156 + 128 * a) r).flatMap subSlots = subGroup a r := by
  obtain ⟨r, rfl⟩ := Nat.exists_eq_add_of_lt h0
  have hrest : (List.range' (156 + 128 * a + 1) r).flatMap subSlots =
      (List.range' (156 + 128 * a + 1) r).map .data := by
    rw [List.map_eq_flatMap]
    refine List.flatMap_congr fun j hj => ?_
    have := List.mem_range'_1.mp hj
    rw [subSlots, if_neg (by omega)]
    rfl
  have hmap : ∀ c k, (List.range' c k).map Slot.data = (List.range k).map fun i => .data (c + i) := by
    intro c k
    rw [List.range'_eq_map_range, List.map_map]
    rfl
  have hfirst : subSlots (156 + 128 * a) = [.sub a, .data (156 + 128 * a)] := by
    rw [subSlots, if_pos (by omega), show (156 + 128 * a - 156) / 128 = a by omega]
    rfl
  rw [Nat.zero_add, subGroup, List.range'_succ, List.flatMap_cons, hrest, hfirst, ← hmap, List.range'_succ]
  rfl

theorem flatMap_subSlots (a : Nat) {b : Nat} (hb : b < 128) :
    (List.range' 156 (128 * a + b)).flatMap subSlots =
      ((List.range a).flatMap fun a => subGroup a 128) ++ if b > 0 then subGroup a b else [] := by
  have hfull : (List.range' 156 (128 * a)).flatMap subSlots = (List.range a).flatMap fun a => subGroup a 128 := by
    induction a with
    | zero => simp
    | succ a ih =>
      have hg := flatMap_subSlots_group a (r := 128) (Nat.le_refl _) (by omega)
      rw [Nat.mul_succ, ← List.range'_append_1, List.flatMap_append, ih, hg, List.range_succ, List.flatMap_append,
        List.flatMap_singleton]
  rw [← List.range'_append_1, List.flatMap_append, hfull]
  split
  · rw [flatMap_subSlots_group a (by omega) ‹_›]
  · rw [show b = 0 by omega]
    rfl

theorem ptr_data2 (d : DiskInode) (blk : Nat → Block) {a i : Nat} (hi : i < 128) :
    ptr d blk (.data (156 + 128 * a + i)) = (blk (ptr d blk (.sub a))).word 4 (4 * i) := by
  simp only [ptr]
  rw [if_neg (by omega), if_neg (by omega), show (156 + 128 * a + i - 156) / 128 = a by omega,
    show (156 + 128 * a + i - 156) % 128 = i by omega]

theorem map_ptr_subGroup (d : DiskInode) (blk : Nat → Block) (a : Nat) {r : Nat} (hr : r ≤ 128) :
    (subGroup a r).map (ptr d blk) =
      ptr d blk (.sub a) :: DiskInode.indirectEntries (blk (ptr d blk (.sub a))) r := by
  rw [subGroup, List.map_cons, DiskInode.indirectEntries, List.map_map]
  congr 1
  refine List.map_congr_left fun i hi => ?_
  exact ptr_data2 d blk (by have := List.mem_range.mp hi; omega)

theorem map_ptr_subs (d : DiskInode) (blk : Nat → Block) (a : Nat) :
    DiskInode.indirectEntries (blk d.indirect2) a = (List.range a).map fun a => ptr d blk (.sub a) := rfl

/-- Everything under the second-level index block. -/
theorem clearIndirect2_run {s : Store Block} {d : DiskInode} {k : Nat} (hk : k ≤ 16384) (hf : s.Free d.indirect2)
    (hsub : ∀ a, 128 * a < k → s.Free (ptr d s.blk (.sub a)) ∧ ptr d s.blk (.sub a) ≠ d.indirect2)
    (hroom : s.held.length + 1 < s.cap) :
    (modifyBlock d.indirect2 fun indirect2 => do
        let full ← DiskInode.clearSubs (DiskInode.indirectEntries indirect2 (min (k / 128) 128))
        if k % 128 > 0 then
          let last ← getIndirect indirect2 (k / 128)
          let entries ← modifyBlock last fun indirect1 => ret (DiskInode.indirectEntries indirect1 (k % 128), indirect1)
          pure (full ++ last :: entries, indirect2)
        else pure (full, indirect2)).run s =
      .ok (((List.range' 156 k).flatMap subSlots).map (ptr d s.blk), s) := by
  have hpin : ∀ a, 128 * a < k → (s.pin d.indirect2).Free (ptr d s.blk (.sub a)) := fun a ha =>
    (hsub a ha).1.pin (hsub a ha).2 hroom
  have hfull : (DiskInode.clearSubs (DiskInode.indirectEntries (s.blk d.indirect2) (k / 128))).run (s.pin d.indirect2) =
      .ok (((List.range (k / 128)).flatMap fun a => subGroup a 128).map (ptr d s.blk), s.pin d.indirect2) := by
    rw [map_ptr_subs, clearSubs_run (fun e he => ?_)]
    · rw [List.flatMap_map, List.map_flatMap]
      refine congrArg (fun x => Except.ok (x, s.pin d.indirect2)) ?_
      exact List.flatMap_congr fun a _ => (map_ptr_subGroup d s.blk a (Nat.le_refl _)).symm
    · obtain ⟨a, ha, rfl⟩ := List.mem_map.mp he
      have := List.mem_range.mp ha
      exact hpin a (by omega)
  refine run_modifyBlock_same hf ?_
  have hmin : min (k / 128) 128 = k / 128 := by omega
  have hslots := flatMap_subSlots (k / 128) (b := k % 128) (by omega)
  rw [Nat.div_add_mod k 128] at hslots
  rw [hmin, run_bind_of hfull, hslots, List.map_append]
  by_cases h0 : k % 128 > 0
  · have hlast : getIndirect (s.blk d.indirect2) (k / 128) = ret (ptr d s.blk (.sub (k / 128))) := if_pos (by omega)
    rw [if_pos h0, if_pos h0, hlast, ret_bind, run_bind_of (collect_run (hpin (k / 128) (by omega)) (k % 128)),
      map_ptr_subGroup d s.blk _ (by omega)]
    rfl
  · rw [if_neg h0, if_neg h0, List.map_nil, List.append_nil]
    rfl

theorem slotsOf_cut (n : Nat) : slotsOf n = (List.range' 0 (min n 28)).map .data ++
    ((if n > 28 then .ind1 :: (List.range' 28 (min n 156 - 28)).map .data else []) ++
      if n > 156 then .ind2 :: (List.range' 156 (n - 156)).flatMap subSlots else []) := by
  have hcut : slotsOf n = slotsFrom 0 (min n 28 - 0) ++ (slotsFrom 28 (min n 156 - 28) ++ slotsFrom 156 (n - 156)) := by
    have h1 := slotsFrom_cut 0 n 28
    have h2 := slotsFrom_cut 28 n 156
    rw [Nat.max_eq_right (by omega)] at h1 h2
    rw [h2] at h1
    exact h1
  rw [hcut, slotsFrom_direct (by omega)]
  refine congrArg₂ _ rfl (congrArg₂ _ ?_ ?_)
  · split
    · rw [slotsFrom_indirect1 (by omega) (by omega) (by omega), if_pos rfl, List.singleton_append]
    · rw [show min n 156 - 28 = 0 by omega]; rfl
  · split
    · rw [slotsFrom_indirect2 (by omega) (by omega), if_pos rfl, List.singleton_append]
    · rw [show n - 156 = 0 by omega]; rfl

theorem map_ptr_direct (d : DiskInode) (blk : Nat → Block) {n : Nat} (hn : n ≤ 28) :
    ((List.range' 0 n).map Slot.data).map (ptr d blk) = (List.range' 0 n).map d.directAt := by
  rw [List.map_map]
  refine List.map_congr_left fun j hj => ?_
  have := List.mem_range'_1.mp hj
  simp only [Function.comp, ptr]
  rw [if_pos (by omega)]

theorem map_ptr_indirect1 (d : DiskInode) (blk : Nat → Block) {k : Nat} (hk : k ≤ 128) :
    ((List.range' 28 k).map Slot.data).map (ptr d blk) = DiskInode.indirectEntries (blk d.indirect1) k := by
  rw [List.map_map, DiskInode.indirectEntries, List.range'_eq_map_range, List.map_map]
  refine List.map_congr_left fun j hj => ?_
  have := List.mem_range.mp hj
  simp only [Function.comp, ptr]
  rw [if_neg (by omega), if_pos (by omega), Nat.add_sub_cancel_left]

/-- `d` with its size and its first `n` direct pointers zeroed. -/
def DiskInode.blank (d : DiskInode) (n i1 i2 : Nat) : DiskInode :=
  { d with size := 0, direct := fun j => if 0 ≤ j.val ∧ j.val < n then 0 else d.direct j, indirect1 := i1,
           indirect2 := i2 }

theorem DiskInode.blank_fits {d : DiskInode} {c : Crate} (hd : d.Fits c) (n : Nat) {i1 i2 : Nat} (h1 : i1 ≤ d.indirect1)
    (h2 : i2 ≤ d.indirect2) : (d.blank n i1 i2).Fits c := by
  refine ⟨by norm_num [blank], fun i => ?_, Nat.lt_of_le_of_lt h1 hd.indirect1, Nat.lt_of_le_of_lt h2 hd.indirect2,
    hd.linkNum, hd.noLink⟩
  have hdi := hd.direct i
  unfold directAt at hdi ⊢
  simp only [blank]
  split_ifs at hdi ⊢ <;> first | exact hdi | norm_num

/-- What `clear_size` leaves of the inode: the pointers that were in use are zero. -/
def DiskInode.emptied (d : DiskInode) : DiskInode :=
  d.blank (min d.dataBlocks 28) (if d.dataBlocks > 28 then 0 else d.indirect1) (if d.dataBlocks > 156 then 0 else d.indirect2)

theorem DiskInode.Fits.emptied {d : DiskInode} {c : Crate} (hd : d.Fits c) : d.emptied.Fits c := by
  refine DiskInode.blank_fits hd _ ?_ ?_
  · split <;> omega
  · split <;> omega

/-- `clear_size` collects the blocks of the file and changes none of them. -/
theorem clearSize_eq {s : Store Block} {d : DiskInode} (hn : d.dataBlocks ≤ 16540)
    (hidx : IndexFree s d d.dataBlocks) (hnd : (tree d s.blk).Nodup) (hroom : s.held.length + 1 < s.cap) :
    d.clearSize.run s = .ok ((tree d s.blk, d.emptied), s) := by
  unfold DiskInode.clearSize DiskInode.emptied
  unfold tree at hnd ⊢
  unfold IndexFree at hidx
  generalize d.dataBlocks = n at *
  dsimp only
  rw [clearDirect_eq _ _ _ (by omega)]
  dsimp only
  have hslots := slotsOf_cut n
  have hdirect := map_ptr_direct d s.blk (n := min n 28) (by omega)
  have hentries := map_ptr_indirect1 d s.blk (k := min n 156 - 28) (by omega)
  have hmin : min (n - 28) 128 = min n 156 - 28 := by omega
  by_cases h28 : n > 28
  swap
  · rw [if_neg h28, if_neg (by omega), List.append_nil, List.append_nil] at hslots
    rw [if_neg h28, if_neg h28, if_neg (by omega), hslots, hdirect]
    rfl
  have hi1 : s.Free d.indirect1 := hidx .ind1 (mem_slotsOf.mpr h28) rfl
  rw [if_pos h28] at hslots ⊢
  rw [if_pos h28, run_bind_of (collect_run hi1 _)]
  by_cases h156 : n > 156
  swap
  · rw [if_neg h156, List.append_nil] at hslots
    rw [if_neg (by omega), if_neg h156, hslots, List.map_append, List.map_cons, hdirect, hentries, hmin]
    simp only [List.append_assoc, List.nil_append, List.singleton_append, pure_eq_ret, run_ret, ptr, Nat.sub_zero]
    rfl
  have hi2 : Slot.ind2 ∈ slotsOf n := mem_slotsOf.mpr h156
  have hmemsub : ∀ a, 128 * a < n - 156 → Slot.sub a ∈ slotsOf n := fun a ha => mem_slotsOf.mpr (by show 156 + 128 * a < n; omega)
  have hclear := clearIndirect2_run (s := s) (d := d) (k := n - 156) (by omega) (hidx .ind2 hi2 rfl)
    (fun a ha => ⟨hidx _ (hmemsub a ha) rfl, fun e => by
      have := List.inj_on_of_nodup_map hnd (hmemsub a ha) hi2 e
      cases this⟩) hroom
  rw [if_pos h156] at hslots ⊢
  rw [if_pos (by omega), assert_true (by omega), ret_bind]
  rw [show n - 28 - 128 = n - 156 by omega, run_bind_of hclear, hslots, List.map_append, List.map_append, List.map_cons,
    List.map_cons, hdirect, hentries, hmin]
  simp only [List.append_assoc, List.nil_append, List.cons_append, pure_eq_ret, run_ret, ptr, Nat.sub_zero]
  rfl

end TgRcore.EasyFs
