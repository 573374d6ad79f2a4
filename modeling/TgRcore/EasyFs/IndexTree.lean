/-
  TgRcore.EasyFs.IndexTree — the block pointers of an inode as a tree of slots
  (`layout.rs`).

  A slot is a place that holds a block number: a direct pointer, the first- and
  second-level index pointers of the inode, or an entry of an index block. `slotsOf n`
  lists the slots in use by a file of `n` data blocks in the order in which
  `increase_size` fills them and `clear_size` collects them; `ptr` is what a slot holds.

  - `length_slotsOf`: `total_blocks` counts the slots.
  - `ptr_assign_of_ne`, `ptr_assign_self`: while all block numbers in use differ, storing
    into one slot changes no other slot.
  - `assignAll_spec`: so filling new slots in order keeps those in use, and writes only
    index blocks.
  - `ptr_congr`: the slots in use depend on the index blocks only.
-/

import TgRcore.EasyFs.Layout

namespace TgRcore.EasyFs

open TgRcore.Bytes TgRcore.BlockProg TgRcore.BlockProg.Prog

/-! ## Slots -/

inductive Slot where
  /-- The pointer to data block `j` of the file. -/
  | data (j : Nat)
  | ind1
  | ind2
  /-- Entry `a` of the second-level index block. -/
  | sub (a : Nat)
  deriving DecidableEq, Repr

namespace Slot

/-- The slot that points to the block this slot lies in, if not in the inode. -/
def parent : Slot → Option Slot
  | data j => if j < 28 then none else if j < 156 then some ind1 else some (sub ((j - 156) / 128))
  | ind1 => none
  | ind2 => none
  | sub _ => some ind2

/-- The place of a slot in its index block. -/
def idx : Slot → Nat
  | data j => if j < 156 then j - 28 else (j - 156) % 128
  | sub a => a
  | _ => 0

/-- The slots a file can use: 28 + 128 + 128 * 128 data blocks. -/
def Ok : Slot → Prop
  | data j => j < 16540
  | sub a => a < 128
  | _ => True

def isIndex : Slot → Bool
  | data _ => false
  | _ => true

theorem idx_lt {σ τ : Slot} (hp : σ.parent = some τ) (hok : σ.Ok) : σ.idx < 128 := by
  cases σ with
  | data j =>
    simp only [idx]
    split
    · simp only [parent] at hp
      split at hp
      · cases hp
      · omega
    · omega
  | sub a => exact hok
  | ind1 => cases hp
  | ind2 => cases hp

/-- A slot is where it is: two slots of one index block have different places. -/
theorem eq_of_idx {σ σ' τ : Slot} (h : σ.parent = some τ) (h' : σ'.parent = some τ) (e : σ.idx = σ'.idx) : σ = σ' := by
  cases σ with
  | data j =>
    cases σ' with
    | data j' =>
      simp only [parent] at h h'
      simp only [idx] at e
      congr 1
      split at h
      · cases h
      · split at h <;> split at h'
        · cases h'
        · split at h'
          · rw [if_pos ‹_›, if_pos ‹_›] at e; omega
          · rw [← h] at h'; cases h'
        · cases h'
        · split at h'
          · rw [← h] at h'; cases h'
          · rw [← h] at h'
            rw [if_neg ‹_›, if_neg ‹_›] at e
            simp only [Option.some.injEq, Slot.sub.injEq] at h'
            omega
    | sub a' =>
      simp only [parent] at h h'
      cases h'
      split at h
      · cases h
      · split at h <;> cases h
    | ind1 => cases h'
    | ind2 => cases h'
  | sub a =>
    cases σ' with
    | data j' =>
      simp only [parent] at h h'
      cases h
      split at h'
      · cases h'
      · split at h' <;> cases h'
    | sub a' => simp only [idx] at e; rw [e]
    | ind1 => cases h'
    | ind2 => cases h'
  | ind1 => cases h
  | ind2 => cases h

theorem parent_isIndex {σ τ : Slot} (h : σ.parent = some τ) : τ.isIndex = true := by
  cases σ with
  | data j =>
    simp only [parent] at h
    split at h
    · cases h
    · split at h <;> cases h <;> rfl
  | sub a => cases h; rfl
  | ind1 => cases h
  | ind2 => cases h

end Slot

/-- The block number in a slot. -/
def ptr (d : DiskInode) (blk : Nat → Block) : Slot → Nat
  | .data j =>
    if j < 28 then d.directAt j
    else if j < 156 then (blk d.indirect1).word 4 (4 * (j - 28))
    else (blk ((blk d.indirect2).word 4 (4 * ((j - 156) / 128)))).word 4 (4 * ((j - 156) % 128))
  | .ind1 => d.indirect1
  | .ind2 => d.indirect2
  | .sub a => (blk d.indirect2).word 4 (4 * a)

theorem ptr_of_parent {d : DiskInode} {blk : Nat → Block} {σ τ : Slot} (h : σ.parent = some τ) :
    ptr d blk σ = (blk (ptr d blk τ)).word 4 (4 * σ.idx) := by
  cases σ with
  | data j =>
    simp only [Slot.parent] at h
    split at h
    · cases h
    · rename_i h1
      split at h
      · rename_i h2
        cases h
        simp only [ptr, Slot.idx, h1, h2, if_true, if_false]
      · rename_i h2
        cases h
        simp only [ptr, Slot.idx, h1, h2, if_false]
  | sub a => cases h; rfl
  | ind1 => cases h
  | ind2 => cases h

/-- Store `x` into a slot. -/
def assign (t : DiskInode × (Nat → Block)) (σ : Slot) (x : Nat) : DiskInode × (Nat → Block) :=
  match σ.parent with
  | some τ =>
    let b := ptr t.1 t.2 τ
    (t.1, Function.update t.2 b ((t.2 b).setWord 4 (4 * σ.idx) x))
  | none =>
    match σ with
    | .data j => (t.1.setDirect j x, t.2)
    | .ind1 => ({ t.1 with indirect1 := x }, t.2)
    | .ind2 => ({ t.1 with indirect2 := x }, t.2)
    | .sub _ => t

def assignAll (t : DiskInode × (Nat → Block)) : List Slot → List Nat → DiskInode × (Nat → Block)
  | σ :: σs, x :: xs => assignAll (assign t σ x) σs xs
  | _, _ => t

theorem assignAll_append (t : DiskInode × (Nat → Block)) {σs : List Slot} {xs : List Nat} (h : σs.length = xs.length)
    (σs' : List Slot) (xs' : List Nat) :
    assignAll t (σs ++ σs') (xs ++ xs') = assignAll (assignAll t σs xs) σs' xs' := by
  induction σs generalizing t xs with
  | nil =>
    cases xs with
    | nil => rfl
    | cons x xs => cases h
  | cons σ σs ih =>
    cases xs with
    | nil => cases h
    | cons x xs => exact ih _ (by simpa using h)

/-- Storing into slots keeps the rest of the inode. -/
structure SameFile (d d' : DiskInode) : Prop where
  size : d'.size = d.size
  type_ : d'.type_ = d.type_
  linkNum : d'.linkNum = d.linkNum

theorem assign_same (t : DiskInode × (Nat → Block)) (σ : Slot) (x : Nat) : SameFile t.1 (assign t σ x).1 := by
  unfold assign
  split
  · exact ⟨rfl, rfl, rfl⟩
  · cases σ <;> exact ⟨rfl, rfl, rfl⟩

theorem assignAll_same (t : DiskInode × (Nat → Block)) (σs : List Slot) (xs : List Nat) :
    SameFile t.1 (assignAll t σs xs).1 := by
  induction σs generalizing t xs with
  | nil => exact ⟨rfl, rfl, rfl⟩
  | cons σ σs ih =>
    cases xs with
    | nil => exact ⟨rfl, rfl, rfl⟩
    | cons x xs =>
      have h1 := assign_same t σ x
      have h2 := ih (assign t σ x) xs
      exact ⟨h2.1.trans h1.1, h2.2.trans h1.2, h2.3.trans h1.3⟩

theorem assign_fits {c : Crate} {t : DiskInode × (Nat → Block)} (h : t.1.Fits c) (σ : Slot) {x : Nat} (hx : x < 2 ^ 32) :
    (assign t σ x).1.Fits c := by
  unfold assign
  split
  · exact h
  · cases σ with
    | data j =>
      refine ⟨h.size, fun i => ?_, h.indirect1, h.indirect2, h.linkNum, h.noLink⟩
      by_cases hi : i < 28
      · rw [DiskInode.directAt_setDirect _ _ _ hi]
        split
        · exact hx
        · exact h.direct i
      · rw [DiskInode.directAt_of_le _ (by omega)]
        norm_num
    | ind1 => exact ⟨h.size, h.direct, hx, h.indirect2, h.linkNum, h.noLink⟩
    | ind2 => exact ⟨h.size, h.direct, h.indirect1, hx, h.linkNum, h.noLink⟩
    | sub a => exact h

theorem assignAll_fits {c : Crate} {t : DiskInode × (Nat → Block)} (h : t.1.Fits c) (σs : List Slot) {xs : List Nat}
    (hx : ∀ x ∈ xs, x < 2 ^ 32) : (assignAll t σs xs).1.Fits c := by
  induction σs generalizing t xs with
  | nil => exact h
  | cons σ σs ih =>
    cases xs with
    | nil => exact h
    | cons x xs => exact ih (assign_fits h σ (hx x List.mem_cons_self)) fun y hy => hx y (List.mem_cons_of_mem _ hy)

/-! ## Storing into one slot -/

/-- A list of slots in which every slot comes after the one it hangs from. -/
structure Ordered (l : List Slot) : Prop where
  nodup : l.Nodup
  ok : ∀ σ ∈ l, σ.Ok
  parent : ∀ l₁ σ l₂, l = l₁ ++ σ :: l₂ → ∀ τ, σ.parent = some τ → τ ∈ l₁

theorem Ordered.closed {l : List Slot} (h : Ordered l) {σ τ : Slot} (hσ : σ ∈ l) (hp : σ.parent = some τ) : τ ∈ l := by
  obtain ⟨l₁, l₂, rfl⟩ := List.append_of_mem hσ
  exact List.mem_append_left _ (h.parent l₁ σ l₂ rfl τ hp)

theorem Ordered.left {l₁ l₂ : List Slot} (h : Ordered (l₁ ++ l₂)) : Ordered l₁ where
  nodup := (List.nodup_append.mp h.nodup).1
  ok σ hσ := h.ok σ (List.mem_append_left _ hσ)
  parent k₁ σ k₂ e τ hp := h.parent k₁ σ (k₂ ++ l₂) (by rw [e]; simp) τ hp

/-- A slot outside the inode keeps the inode; one inside keeps the blocks. -/
theorem assign_fst_of_parent {t : DiskInode × (Nat → Block)} {σ τ : Slot} (h : σ.parent = some τ) (x : Nat) :
    (assign t σ x).1 = t.1 := by
  simp only [assign, h]

theorem assign_snd_of_parent {t : DiskInode × (Nat → Block)} {σ τ : Slot} (h : σ.parent = some τ) (x : Nat) :
    (assign t σ x).2 = Function.update t.2 (ptr t.1 t.2 τ) ((t.2 (ptr t.1 t.2 τ)).setWord 4 (4 * σ.idx) x) := by
  simp only [assign, h]

theorem assign_snd_of_root {t : DiskInode × (Nat → Block)} {σ : Slot} (h : σ.parent = none) (x : Nat) :
    (assign t σ x).2 = t.2 := by
  unfold assign
  rw [h]
  cases σ <;> rfl

/-- A slot of the inode: nothing but its own field changes. -/
theorem ptr_assign_root {t : DiskInode × (Nat → Block)} {σ σ' : Slot} (h : σ.parent = none) (h' : σ'.parent = none)
    (x : Nat) (blk : Nat → Block) : ptr (assign t σ x).1 blk σ' = if σ' = σ then x else ptr t.1 blk σ' := by
  have hdata : ∀ j, (Slot.data j).parent = none → j < 28 := by
    intro j hj
    simp only [Slot.parent] at hj
    split at hj
    · assumption
    · split at hj <;> cases hj
  cases σ' with
  | data j' =>
    have hj' := hdata j' h'
    cases σ with
    | data j =>
      simp only [assign, h, ptr, hj', if_true]
      rw [DiskInode.directAt_setDirect _ _ _ hj']
      simp
    | ind1 => simp [assign, h, ptr, hj', DiskInode.directAt]
    | ind2 => simp [assign, h, ptr, hj', DiskInode.directAt]
    | sub a => cases h
  | ind1 =>
    cases σ with
    | sub a => cases h
    | _ => simp [assign, h, ptr, DiskInode.setDirect]
  | ind2 =>
    cases σ with
    | sub a => cases h
    | _ => simp [assign, h, ptr, DiskInode.setDirect]
  | sub a => cases h'

theorem parent_parent_parent {σ τ υ : Slot} (h : σ.parent = some τ) (h' : τ.parent = some υ) : υ.parent = none := by
  cases σ with
  | data j =>
    simp only [Slot.parent] at h
    split at h
    · cases h
    · split at h <;> cases h
      · cases h'
      · cases h'; rfl
  | sub a => cases h; cases h'
  | ind1 => cases h
  | ind2 => cases h

/-- A slot of the inode does not depend on the blocks. -/
theorem ptr_root {σ : Slot} (h : σ.parent = none) (d : DiskInode) (blk blk' : Nat → Block) :
    ptr d blk σ = ptr d blk' σ := by
  cases σ with
  | data j =>
    simp only [Slot.parent] at h
    split at h
    · rename_i hj; simp only [ptr, hj, if_true]
    · split at h <;> cases h
  | ind1 => rfl
  | ind2 => rfl
  | sub a => cases h

section Frame

variable {t : DiskInode × (Nat → Block)} {l : List Slot} {σ : Slot} {x : Nat}

theorem ptr_inj (hl : (l.map (ptr t.1 t.2)).Nodup) {τ τ' : Slot} (hτ : τ ∈ l) (hτ' : τ' ∈ l)
    (e : ptr t.1 t.2 τ = ptr t.1 t.2 τ') : τ = τ' :=
  List.inj_on_of_nodup_map hl hτ hτ' e

/-- Storing into a slot outside `l` that hangs from `l` changes no other slot that hangs from `l`. -/
theorem ptr_assign_hanging (hl : Ordered l) (hn : (l.map (ptr t.1 t.2)).Nodup) (hσ : σ ∉ l)
    (hp : ∀ τ, σ.parent = some τ → τ ∈ l) {σ' : Slot} (hne : σ' ≠ σ) (hp' : ∀ τ, σ'.parent = some τ → τ ∈ l) :
    ptr (assign t σ x).1 (assign t σ x).2 σ' = ptr t.1 t.2 σ' := by
  -- by the depth of `σ'`: first the slots of the inode, then what hangs from them
  have root : ∀ τ, τ ≠ σ → τ.parent = none → ptr (assign t σ x).1 (assign t σ x).2 τ = ptr t.1 t.2 τ := by
    intro τ hτ hτn
    cases hs : σ.parent with
    | none =>
      rw [ptr_assign_root hs hτn x, if_neg hτ]
      exact ptr_root hτn _ _ _
    | some υ =>
      rw [assign_fst_of_parent hs]
      exact ptr_root hτn _ _ _
  have hang : ∀ τ, τ ≠ σ → ∀ υ ∈ l, τ.parent = some υ → ptr (assign t σ x).1 (assign t σ x).2 υ = ptr t.1 t.2 υ →
      ptr (assign t σ x).1 (assign t σ x).2 τ = ptr t.1 t.2 τ := by
    intro τ hτ υ hυl hυ heq
    rw [ptr_of_parent hυ, ptr_of_parent hυ, heq]
    cases hs : σ.parent with
    | none => rw [assign_snd_of_root hs]
    | some ρ =>
      rw [assign_snd_of_parent hs]
      by_cases e : ptr t.1 t.2 υ = ptr t.1 t.2 ρ
      · -- one index block: another place in it
        have : υ = ρ := ptr_inj hn hυl (hp ρ hs) e
        subst this
        rw [Function.update_self, Blk.word_setWord_of_disjoint]
        have hne : τ.idx ≠ σ.idx := fun (i : τ.idx = σ.idx) => hτ (Slot.eq_of_idx hυ hs i)
        omega
      · rw [Function.update_of_ne e]
  have inside : ∀ τ ∈ l, τ ≠ σ := fun τ hτ e => hσ (e ▸ hτ)
  cases h1 : σ'.parent with
  | none => exact root σ' hne h1
  | some τ =>
    have hτ := hp' τ h1
    refine hang σ' hne τ hτ h1 ?_
    cases h2 : τ.parent with
    | none => exact root τ (inside τ hτ) h2
    | some υ =>
      have hυ := hl.closed hτ h2
      exact hang τ (inside τ hτ) υ hυ h2 (root υ (inside υ hυ) (parent_parent_parent h1 h2))

/-- Storing into a slot outside `l` that hangs from `l` changes no slot of `l`. -/
theorem ptr_assign_of_ne (hl : Ordered l) (hn : (l.map (ptr t.1 t.2)).Nodup) (hσ : σ ∉ l)
    (hp : ∀ τ, σ.parent = some τ → τ ∈ l) {σ' : Slot} (hσ' : σ' ∈ l) :
    ptr (assign t σ x).1 (assign t σ x).2 σ' = ptr t.1 t.2 σ' :=
  ptr_assign_hanging hl hn hσ hp (fun e => hσ (e ▸ hσ')) fun _ h => hl.closed hσ' h

theorem ptr_assign_self (hl : Ordered l) (hn : (l.map (ptr t.1 t.2)).Nodup) (hσ : σ ∉ l) (hok : σ.Ok)
    (hp : ∀ τ, σ.parent = some τ → τ ∈ l) (hx : x < 2 ^ 32) : ptr (assign t σ x).1 (assign t σ x).2 σ = x := by
  cases hs : σ.parent with
  | none => rw [ptr_assign_root hs hs, if_pos rfl]
  | some τ =>
    rw [ptr_of_parent hs, ptr_assign_of_ne hl hn hσ hp (hp τ hs), assign_snd_of_parent hs, Function.update_self]
    have := Slot.idx_lt hs hok
    exact Blk.word_setWord_same _ (by omega) (by norm_num at hx ⊢; exact hx)

end Frame

/-- Storing into the slots that follow `l`, in order: `l` keeps its numbers, the new
    slots get the new ones, and only the index blocks of the tree are written. -/
theorem assignAll_spec {t : DiskInode × (Nat → Block)} {l σs : List Slot} {xs : List Nat} (hlen : σs.length = xs.length)
    (hl : Ordered (l ++ σs)) (hn : (l.map (ptr t.1 t.2) ++ xs).Nodup) (hx : ∀ x ∈ xs, x < 2 ^ 32) :
    (l ++ σs).map (ptr (assignAll t σs xs).1 (assignAll t σs xs).2) = l.map (ptr t.1 t.2) ++ xs ∧
      ∀ b, (∀ τ ∈ l ++ σs, τ.isIndex = true → ptr (assignAll t σs xs).1 (assignAll t σs xs).2 τ ≠ b) →
        (assignAll t σs xs).2 b = t.2 b := by
  induction σs generalizing t l xs with
  | nil =>
    cases xs with
    | nil => exact ⟨by simp [assignAll], fun _ _ => rfl⟩
    | cons x xs => cases hlen
  | cons σ σs ih =>
    cases xs with
    | nil => cases hlen
    | cons x xs =>
      have hsplit : l ++ σ :: σs = (l ++ [σ]) ++ σs := by simp
      have hpre : Ordered l := hl.left
      have hσ : σ ∉ l := by
        have := hl.nodup
        rw [List.nodup_append] at this
        exact fun hm => this.2.2 σ hm σ List.mem_cons_self rfl
      have hp : ∀ τ, σ.parent = some τ → τ ∈ l := hl.parent l σ σs rfl
      have hok : σ.Ok := hl.ok σ (by simp)
      have hnl : (l.map (ptr t.1 t.2)).Nodup := (List.nodup_append.mp hn).1
      have hself := ptr_assign_self (x := x) hpre hnl hσ hok hp (hx x List.mem_cons_self)
      have hkeep : (l ++ [σ]).map (ptr (assign t σ x).1 (assign t σ x).2) = l.map (ptr t.1 t.2) ++ [x] := by
        have hold : l.map (ptr (assign t σ x).1 (assign t σ x).2) = l.map (ptr t.1 t.2) :=
          List.map_congr_left fun σ' hσ' => ptr_assign_of_ne hpre hnl hσ hp hσ'
        rw [List.map_append, List.map_singleton, hself, hold]
      obtain ⟨h1, h2⟩ := ih (t := assign t σ x) (l := l ++ [σ]) (by simpa using hlen)
        (by rw [← hsplit]; exact hl) (by rw [hkeep]; simpa using hn) fun y hy => hx y (List.mem_cons_of_mem _ hy)
      refine ⟨?_, fun b hb => ?_⟩
      · rw [hkeep, List.append_assoc (l.map _), List.singleton_append] at h1
        rw [hsplit]
        exact h1
      · simp only [assignAll] at hb ⊢
        rw [hsplit] at hb
        rw [h2 b hb]
        cases hs : σ.parent with
        | none => rw [assign_snd_of_root hs]
        | some τ =>
          rw [assign_snd_of_parent hs, Function.update_of_ne]
          -- the block written is the index block `τ` points to
          have hτ := hp τ hs
          have hb' := hb τ (by simp [hτ]) (Slot.parent_isIndex hs)
          have hval : ptr (assignAll (assign t σ x) σs xs).1 (assignAll (assign t σ x) σs xs).2 τ = ptr t.1 t.2 τ := by
            rw [hkeep, List.map_append] at h1
            have h3 := List.append_inj_left h1 (by simp only [List.length_map, List.length_append, List.length_singleton])
            rw [List.map_append] at h3
            have h4 := List.append_inj_left h3 (by simp)
            exact List.map_inj_left.mp h4 τ hτ
          rw [hval] at hb'
          exact fun e => hb' e.symm

/-! ## The slots of a file -/

/-- The slots that data block `j` brings into use, in the order they are filled. -/
def newSlots (j : Nat) : List Slot :=
  (if j = 28 then [.ind1] else []) ++ (if j = 156 then [.ind2] else []) ++
    (if 156 ≤ j ∧ (j - 156) % 128 = 0 then [.sub ((j - 156) / 128)] else []) ++ [.data j]

/-- The slots that data blocks `n`, ..., `n + k - 1` bring into use. -/
def slotsFrom (n k : Nat) : List Slot := (List.range' n k).flatMap newSlots

/-- The slots in use by a file of `n` data blocks. -/
def slotsOf (n : Nat) : List Slot := slotsFrom 0 n

theorem slotsFrom_append (n k k' : Nat) : slotsFrom n (k + k') = slotsFrom n k ++ slotsFrom (n + k) k' := by
  unfold slotsFrom
  rw [← List.flatMap_append, ← List.range'_append_1]

theorem slotsOf_append {n m : Nat} (h : n ≤ m) : slotsOf m = slotsOf n ++ slotsFrom n (m - n) := by
  obtain ⟨k, rfl⟩ := Nat.exists_eq_add_of_le h
  rw [slotsOf, slotsFrom_append, Nat.zero_add, Nat.add_sub_cancel_left]
  rfl

theorem slotsOf_succ (n : Nat) : slotsOf (n + 1) = slotsOf n ++ newSlots n := by
  rw [slotsOf, slotsFrom_append, Nat.zero_add]
  simp [slotsFrom, slotsOf]

theorem mem_newSlots {σ : Slot} {j : Nat} : σ ∈ newSlots j ↔
    (σ = .ind1 ∧ j = 28) ∨ (σ = .ind2 ∧ j = 156) ∨ (∃ a, σ = .sub a ∧ j = 156 + 128 * a) ∨ σ = .data j := by
  unfold newSlots
  simp only [List.mem_append, List.mem_singleton]
  constructor
  · rintro (((h | h) | h) | h)
    · split at h
      · left; exact ⟨List.mem_singleton.mp h, ‹_›⟩
      · cases h
    · split at h
      · right; left; exact ⟨List.mem_singleton.mp h, ‹_›⟩
      · cases h
    · split at h
      · right; right; left; exact ⟨_, List.mem_singleton.mp h, by omega⟩
      · cases h
    · right; right; right; exact h
  · rintro (⟨rfl, rfl⟩ | ⟨rfl, rfl⟩ | ⟨a, rfl, rfl⟩ | rfl)
    · left; left; left; simp
    · left; left; right; simp
    · left; right
      rw [if_pos ⟨by omega, by omega⟩, show 156 + 128 * a - 156 = 128 * a by omega]
      simp
    · right; rfl

theorem mem_slotsOf {σ : Slot} {n : Nat} : σ ∈ slotsOf n ↔ match σ with
    | .data j => j < n
    | .ind1 => 28 < n
    | .ind2 => 156 < n
    | .sub a => 156 + 128 * a < n := by
  unfold slotsOf slotsFrom
  simp only [List.mem_flatMap, List.mem_range'_1, mem_newSlots]
  cases σ with
  | data j => simp
  | ind1 => simp
  | ind2 => simp
  | sub a => simp

theorem newSlots_nodup (j : Nat) : (newSlots j).Nodup := by
  unfold newSlots
  split <;> split <;> split <;> simp

theorem slotsOf_nodup (n : Nat) : (slotsOf n).Nodup := by
  induction n with
  | zero => exact List.nodup_nil
  | succ n ih =>
    rw [slotsOf_succ, List.nodup_append]
    refine ⟨ih, newSlots_nodup n, ?_⟩
    rintro σ h1 τ h2 rfl
    rw [mem_slotsOf] at h1
    rcases mem_newSlots.mp h2 with ⟨rfl, rfl⟩ | ⟨rfl, rfl⟩ | ⟨a, rfl, rfl⟩ | rfl <;> simp at h1

/-- What one more data block brings into use hangs from slots in use already. -/
theorem newSlots_parent {j : Nat} {l₁ l₂ : List Slot} {σ τ : Slot} (e : newSlots j = l₁ ++ σ :: l₂)
    (hp : σ.parent = some τ) : τ ∈ slotsOf j ++ l₁ := by
  have hσ : σ ∈ newSlots j := by rw [e]; simp
  rw [List.mem_append, mem_slotsOf]
  rcases mem_newSlots.mp hσ with ⟨rfl, rfl⟩ | ⟨rfl, rfl⟩ | ⟨a, rfl, rfl⟩ | rfl
  · cases hp
  · cases hp
  · cases hp
    by_cases ha : a = 0
    · subst ha
      right
      -- `newSlots 156 = [ind2, sub 0, data 156]`
      rcases l₁ with _ | ⟨x, l₁⟩ <;> simp [newSlots] at e
      simp [e.1]
    · left; show 156 < 156 + 128 * a; omega
  · simp only [Slot.parent] at hp
    split at hp
    · cases hp
    · split at hp <;> cases hp
      · by_cases hj : j = 28
        · subst hj
          right
          rcases l₁ with _ | ⟨x, l₁⟩ <;> simp [newSlots] at e
          simp [e.1]
        · left; show 28 < j; omega
      · by_cases hj : (j - 156) % 128 = 0
        · right
          have hlast : newSlots j = (newSlots j).dropLast ++ [.data j] := by simp [newSlots]
          have hl : l₁ = (newSlots j).dropLast := by
            have hn := newSlots_nodup j
            rcases List.eq_nil_or_concat' l₂ with rfl | ⟨l₂, x, rfl⟩
            · rw [e]; simp
            · rw [hlast, show l₁ ++ Slot.data j :: (l₂ ++ [x]) = (l₁ ++ Slot.data j :: l₂) ++ [x] by simp] at e
              obtain ⟨h1, h2⟩ := List.append_inj' e rfl
              rw [hlast, h1] at hn
              simp [List.nodup_append] at hn
          rw [hl]
          unfold newSlots
          rw [if_pos (by omega : 156 ≤ j ∧ (j - 156) % 128 = 0)]
          simp
        · left; show 156 + 128 * ((j - 156) / 128) < j; omega

theorem slotsOf_ordered {n : Nat} (hn : n ≤ 16540) : Ordered (slotsOf n) := by
  refine ⟨slotsOf_nodup n, fun σ hσ => ?_, ?_⟩
  · rw [mem_slotsOf] at hσ
    cases σ with
    | data j => exact Nat.lt_of_lt_of_le hσ hn
    | ind1 => trivial
    | ind2 => trivial
    | sub a =>
      simp only at hσ
      show a < 128
      omega
  · induction n with
    | zero => intro l₁ σ l₂ e; simp [slotsOf, slotsFrom] at e
    | succ n ih =>
      intro l₁ σ l₂ e τ hp
      rw [slotsOf_succ, List.append_eq_append_iff] at e
      rcases e with ⟨c, rfl, hc⟩ | ⟨c, hc, hc'⟩
      · exact newSlots_parent hc hp
      · cases c with
        | nil =>
          rw [List.append_nil] at hc
          subst hc
          have hin : _ ∈ slotsOf _ ++ [] := newSlots_parent hc'.symm hp
          simpa using hin
        | cons x c =>
          cases hc'
          exact ih (by omega) _ _ _ hc _ hp

/-- `total_blocks` counts the slots. -/
theorem length_slotsOf (n : Nat) : (slotsOf n).length =
    n + (if n > 28 then 1 else 0) + (if n > 156 then 1 + (n - 156 + 127) / 128 else 0) := by
  induction n with
  | zero => rfl
  | succ n ih =>
    rw [slotsOf_succ, List.length_append, ih]
    unfold newSlots
    simp only [List.length_append, List.length_singleton]
    by_cases h1 : n = 28
    · subst h1; simp
    · by_cases h2 : n = 156
      · subst h2; simp
      · rw [if_neg h1, if_neg h2]
        simp only [List.length_nil]
        by_cases h3 : 156 ≤ n
        · have e1 : n > 28 := by omega
          have e2 : n > 156 := by omega
          have e3 : n + 1 > 28 := by omega
          have e4 : n + 1 > 156 := by omega
          by_cases h4 : (n - 156) % 128 = 0
          · simp only [e1, e2, e3, e4, h3, h4, and_self, if_true, List.length_singleton]
            omega
          · simp only [e1, e2, e3, e4, h3, h4, and_false, if_true, if_false, List.length_nil]
            omega
        · have e2 : ¬ n > 156 := by omega
          have e4 : ¬ n + 1 > 156 := by omega
          simp only [e2, e4, h3, false_and, if_false, List.length_nil]
          split <;> split <;> omega

theorem length_slotsOf_dataBlocksOf (size : Nat) :
    (slotsOf (DiskInode.dataBlocksOf size)).length = DiskInode.totalBlocks size := length_slotsOf _

/-- Slots in use keep their numbers while the index blocks they lie in do. -/
theorem ptr_congr {d : DiskInode} {blk blk' : Nat → Block} {l : List Slot} (hl : Ordered l)
    (h : ∀ τ ∈ l, τ.isIndex = true → blk' (ptr d blk τ) = blk (ptr d blk τ)) {σ : Slot} (hσ : σ ∈ l) :
    ptr d blk' σ = ptr d blk σ := by
  have root : ∀ τ : Slot, τ.parent = none → ptr d blk' τ = ptr d blk τ := fun τ hτ => ptr_root hτ _ _ _
  have hang : ∀ τ ∈ l, ∀ υ, τ.parent = some υ → ptr d blk' υ = ptr d blk υ → ptr d blk' τ = ptr d blk τ := by
    intro τ hτ υ hυ heq
    rw [ptr_of_parent hυ, ptr_of_parent hυ, heq, h υ (hl.closed hτ hυ) (Slot.parent_isIndex hυ)]
  cases h1 : σ.parent with
  | none => exact root σ h1
  | some τ =>
    have hτ := hl.closed hσ h1
    refine hang σ hσ τ h1 ?_
    cases h2 : τ.parent with
    | none => exact root τ h2
    | some υ => exact hang τ hτ υ h2 (root υ (parent_parent_parent h1 h2))

/-- The blocks of a file of `d`'s size, index blocks included, in slot order. -/
def tree (d : DiskInode) (blk : Nat → Block) : List Nat := (slotsOf d.dataBlocks).map (ptr d blk)

end TgRcore.EasyFs
