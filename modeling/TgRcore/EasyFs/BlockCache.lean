/-
  TgRcore.EasyFs.BlockCache — the block cache (`block_cache.rs`).

  `BlockCache` objects live on a heap; the manager's queue and every handle outside it
  are `Arc`s to them. A miss on a full queue evicts the first entry whose object only
  the queue refers to (`Arc::strong_count == 1`); dropping the last `Arc` of an object
  writes its bytes back when they are dirty (`Drop`). The contents type is a parameter:
  nothing here looks inside a block.

  Proved, over every run of `get_block_cache`, modifications through held handles,
  drops of handles and `block_cache_sync_all` on one device:
  - `Inv`: the invariant of cache and device against the logical contents; each
    operation keeps it (`get_spec`, `modify_spec`, `dropHandle_spec`, `syncAll_spec`).
  - `block_cache_transparent`: the bytes behind a handle are the logical contents, at most 16
    distinct blocks are cached, a held block stays cached, and the device has the
    logical contents after a sync.
-/

import TgRcore.Lib.BlockProg
import Mathlib.Data.List.Nodup

namespace TgRcore.EasyFs

open TgRcore.BlockProg

/-! ## The device and the cache -/

/-- A block device of `size` blocks; accesses past its end panic. -/
structure BlockDevice (B : Type) where
  size : Nat
  data : Nat → B

structure BlockCache (B : Type) where
  cache : B
  blockId : Nat
  modified : Bool

def blockCacheSize : Nat := 16

/-- The device, the live `BlockCache` objects by address, the manager's queue of
    `(block id, address)` and the addresses of the `Arc`s held outside the queue. -/
structure CacheSt (B : Type) where
  dev : BlockDevice B
  heap : Nat → Option (BlockCache B)
  next : Nat
  queue : List (Nat × Nat)
  handles : List Nat

namespace CacheSt

variable {B : Type}

/-- The cache before its first use. -/
def empty (dev : BlockDevice B) : CacheSt B := ⟨dev, fun _ => none, 0, [], []⟩

/-- `Arc::strong_count` -/
def strongCount (w : CacheSt B) (a : Nat) : Nat := (w.queue.map Prod.snd).count a + w.handles.count a

/-- `BlockCache::sync` of the object at `a`. -/
def syncAt (w : CacheSt B) (a : Nat) : CacheSt B :=
  match w.heap a with
  | some c =>
    if c.modified then
      { w with
        dev := { w.dev with data := Function.update w.dev.data c.blockId c.cache }
        heap := Function.update w.heap a (some { c with modified := false }) }
    else w
  | none => w

/-- An `Arc` to `a` is gone: with the last one the object is dropped, after a sync. -/
def release (w : CacheSt B) (a : Nat) : CacheSt B :=
  if w.strongCount a = 0 then
    { w.syncAt a with heap := Function.update (w.syncAt a).heap a none }
  else w

/-- `self.queue.drain(idx..=idx)` -/
def drain (w : CacheSt B) (idx : Nat) : CacheSt B :=
  match w.queue[idx]? with
  | some p => { w with queue := w.queue.eraseIdx idx }.release p.2
  | none => w

/-- `BlockCache::new` and its insertion at the end of the queue. -/
def load (w : CacheSt B) (blockId : Nat) : Except Halt (Nat × CacheSt B) :=
  if w.dev.size ≤ blockId then .error .panic
  else .ok (w.next,
    { w with
      heap := Function.update w.heap w.next (some ⟨w.dev.data blockId, blockId, false⟩)
      next := w.next + 1
      queue := w.queue ++ [(blockId, w.next)]
      handles := w.next :: w.handles })

def getBlockCache (w : CacheSt B) (blockId : Nat) : Except Halt (Nat × CacheSt B) :=
  match w.queue.find? fun p => p.1 == blockId with
  | some p => .ok (p.2, { w with handles := p.2 :: w.handles })
  | none =>
    if w.queue.length = blockCacheSize then
      match w.queue.findIdx? fun p => w.strongCount p.2 == 1 with
      | some idx => (w.drain idx).load blockId
      -- "Run out of BlockCache!"
      | none => .error .panic
    else w.load blockId

/-- `modify` through the handle `a`: `get_mut` marks the block dirty. -/
def modify (w : CacheSt B) (a : Nat) (f : B → B) : CacheSt B :=
  match w.heap a with
  | some c => { w with heap := Function.update w.heap a (some { c with cache := f c.cache, modified := true }) }
  | none => w

/-- A handle goes out of scope. -/
def dropHandle (w : CacheSt B) (a : Nat) : CacheSt B := { w with handles := w.handles.erase a }.release a

/-- `block_cache_sync_all` -/
def syncAll (w : CacheSt B) : CacheSt B := w.queue.foldl (fun w p => w.syncAt p.2) w

end CacheSt

/-! ## The invariant -/

open CacheSt

variable {B : Type}

/-- The object at `a` caches block `b`, with the logical contents of `b`, and is dirty
    if the device is behind. -/
def Caches (w : CacheSt B) (log : Nat → B) (b a : Nat) : Prop :=
  ∃ c, w.heap a = some c ∧ c.blockId = b ∧ c.cache = log b ∧ (c.modified = false → w.dev.data b = log b)

/-- The cache and the device hold the logical contents `log`. -/
structure Inv (w : CacheSt B) (log : Nat → B) : Prop where
  cap : w.queue.length ≤ blockCacheSize
  ids : (w.queue.map Prod.fst).Nodup
  addrs : (w.queue.map Prod.snd).Nodup
  cached : ∀ p ∈ w.queue, Caches w log p.1 p.2
  onDevice : ∀ p ∈ w.queue, p.1 < w.dev.size
  fresh : ∀ p ∈ w.queue, p.2 < w.next
  live : ∀ a, w.heap a ≠ none → a ∈ w.queue.map Prod.snd
  held : ∀ a ∈ w.handles, a ∈ w.queue.map Prod.snd
  uncached : ∀ b, b ∉ w.queue.map Prod.fst → w.dev.data b = log b

theorem inv_empty (dev : BlockDevice B) : Inv (CacheSt.empty dev) dev.data := by
  constructor <;> simp [CacheSt.empty]

theorem addr_inj {w : CacheSt B} {log : Nat → B} (h : Inv w log) {p q : Nat × Nat} (hp : p ∈ w.queue)
    (hq : q ∈ w.queue) (e : p.2 = q.2) : p = q :=
  List.inj_on_of_nodup_map h.addrs hp hq e

theorem id_inj {w : CacheSt B} {log : Nat → B} (h : Inv w log) {p q : Nat × Nat} (hp : p ∈ w.queue)
    (hq : q ∈ w.queue) (e : p.1 = q.1) : p = q :=
  List.inj_on_of_nodup_map h.ids hp hq e

/-! ## Sync -/

@[simp] theorem syncAt_queue (w : CacheSt B) (a : Nat) : (w.syncAt a).queue = w.queue := by
  unfold syncAt; repeat' split
  all_goals rfl

@[simp] theorem syncAt_handles (w : CacheSt B) (a : Nat) : (w.syncAt a).handles = w.handles := by
  unfold syncAt; repeat' split
  all_goals rfl

@[simp] theorem syncAt_next (w : CacheSt B) (a : Nat) : (w.syncAt a).next = w.next := by
  unfold syncAt; repeat' split
  all_goals rfl

@[simp] theorem syncAt_size (w : CacheSt B) (a : Nat) : (w.syncAt a).dev.size = w.dev.size := by
  unfold syncAt; repeat' split
  all_goals rfl

theorem syncAt_heap_ne (w : CacheSt B) {a a' : Nat} (h : a' ≠ a) : (w.syncAt a).heap a' = w.heap a' := by
  unfold syncAt; repeat' split
  · exact Function.update_of_ne h _ _
  all_goals rfl

/-- A sync of the object that caches `b` brings the device up to date for `b`, marks
    the object clean and touches no other block. -/
theorem syncAt_cached {w : CacheSt B} {log : Nat → B} {b a : Nat} (h : Caches w log b a) :
    (∃ c, (w.syncAt a).heap a = some c ∧ c.blockId = b ∧ c.cache = log b ∧ c.modified = false) ∧
      (w.syncAt a).dev.data b = log b ∧ ∀ b', b' ≠ b → (w.syncAt a).dev.data b' = w.dev.data b' := by
  obtain ⟨c, hc, hb, hl, hm⟩ := h
  unfold syncAt
  rw [hc]
  simp only
  cases hcm : c.modified with
  | true =>
    simp only [if_true]
    refine ⟨⟨_, Function.update_self .., hb, hl, rfl⟩, by rw [hb, Function.update_self, hl], fun b' hb' => ?_⟩
    rw [hb]
    exact Function.update_of_ne hb' _ _
  | false =>
    simp only [Bool.false_eq_true, if_false]
    exact ⟨⟨c, hc, hb, hl, hcm⟩, hm hcm, fun _ _ => trivial⟩

theorem inv_syncAt {w : CacheSt B} {log : Nat → B} (h : Inv w log) {p : Nat × Nat} (hp : p ∈ w.queue) :
    Inv (w.syncAt p.2) log := by
  obtain ⟨⟨c, hc, hb, hl, hm⟩, hd, hne⟩ := syncAt_cached (h.cached p hp)
  refine ⟨by simpa using h.cap, by simpa using h.ids, by simpa using h.addrs, ?_, by simpa using h.onDevice,
    by simpa using h.fresh, ?_, by simpa using h.held, ?_⟩
  · intro q hq
    rw [syncAt_queue] at hq
    by_cases e : q = p
    · subst e
      exact ⟨c, hc, hb, hl, fun _ => hd⟩
    · have hqa : q.2 ≠ p.2 := fun e2 => e (addr_inj h hq hp e2)
      have hqb : q.1 ≠ p.1 := fun e1 => e (id_inj h hq hp e1)
      obtain ⟨d, hd1, hd2, hd3, hd4⟩ := h.cached q hq
      refine ⟨d, by rw [syncAt_heap_ne _ hqa, hd1], hd2, hd3, fun hmod => ?_⟩
      rw [hne _ hqb]
      exact hd4 hmod
  · intro a ha
    rw [syncAt_queue]
    by_cases e : a = p.2
    · subst e; exact List.mem_map_of_mem hp
    · exact h.live a (by rwa [syncAt_heap_ne _ e] at ha)
  · intro b' hb'
    rw [syncAt_queue] at hb'
    have : b' ≠ p.1 := fun e => hb' (e ▸ List.mem_map_of_mem hp)
    rw [hne _ this]
    exact h.uncached b' hb'

/-- No queued object of `l` is dirty. -/
def CleanOn (w : CacheSt B) (l : List (Nat × Nat)) : Prop :=
  ∀ p ∈ l, ∀ c, w.heap p.2 = some c → c.modified = false

/-- No cached block is dirty. -/
def Clean (w : CacheSt B) : Prop := ∀ a c, w.heap a = some c → c.modified = false

theorem syncAt_keeps_clean {w : CacheSt B} {a a' : Nat} {c : BlockCache B}
    (h : ∀ c, w.heap a' = some c → c.modified = false) (hc : (w.syncAt a).heap a' = some c) : c.modified = false := by
  by_cases e : a' = a
  · subst e
    unfold syncAt at hc
    split at hc
    · rename_i d hd
      rw [if_neg (by simp [h d hd])] at hc
      exact h c hc
    · exact h c hc
  · rw [syncAt_heap_ne _ e] at hc
    exact h c hc

theorem foldl_syncAt {log : Nat → B} : ∀ (l done : List (Nat × Nat)) (w : CacheSt B), Inv w log →
    (∀ p ∈ l, p ∈ w.queue) → CleanOn w done →
    let w' := l.foldl (fun w p => w.syncAt p.2) w
    Inv w' log ∧ w'.queue = w.queue ∧ w'.handles = w.handles ∧ w'.dev.size = w.dev.size ∧
      CleanOn w' (done ++ l) := by
  intro l
  induction l with
  | nil => intro done w h _ hc; exact ⟨h, rfl, rfl, rfl, by simpa using hc⟩
  | cons p l ih =>
    intro done w h hl hc
    have hp := hl p List.mem_cons_self
    have hclean : CleanOn (w.syncAt p.2) (done ++ [p]) := by
      intro q hq c hqc
      rcases List.mem_append.mp hq with hq | hq
      · exact syncAt_keeps_clean (hc q hq) hqc
      · obtain rfl := List.mem_singleton.mp hq
        obtain ⟨⟨d, hd, -, -, hm⟩, -⟩ := syncAt_cached (h.cached q hp)
        rw [hd] at hqc
        cases hqc
        exact hm
    obtain ⟨h1, h2, h3, h4, h5⟩ := ih (done ++ [p]) (w.syncAt p.2) (inv_syncAt h hp)
      (fun q hq => by rw [syncAt_queue]; exact hl q (List.mem_cons_of_mem _ hq)) hclean
    exact ⟨h1, by rw [List.foldl_cons, h2, syncAt_queue], by rw [List.foldl_cons, h3, syncAt_handles],
      by rw [List.foldl_cons, h4, syncAt_size], by simpa using h5⟩

theorem syncAll_spec {w : CacheSt B} {log : Nat → B} (h : Inv w log) :
    Inv w.syncAll log ∧ w.syncAll.queue = w.queue ∧ w.syncAll.handles = w.handles ∧
      w.syncAll.dev.size = w.dev.size ∧ Clean w.syncAll := by
  obtain ⟨h1, h2, h3, h4, h5⟩ := foldl_syncAt w.queue [] w h (fun _ hp => hp) (by intro p hp; cases hp)
  refine ⟨h1, h2, h3, h4, fun a c hc => ?_⟩
  -- every live object is queued
  obtain ⟨p, hp, rfl⟩ := List.mem_map.mp (h1.live a (by rw [syncAll] at hc; rw [hc]; simp))
  rw [h2] at hp
  exact h5 p (by simpa using hp) c hc

/-- With nothing dirty the device alone has the logical contents. -/
theorem dev_eq_of_clean {w : CacheSt B} {log : Nat → B} (h : Inv w log) (hc : Clean w) : w.dev.data = log := by
  funext b
  by_cases hb : b ∈ w.queue.map Prod.fst
  · obtain ⟨p, hp, rfl⟩ := List.mem_map.mp hb
    obtain ⟨c, h1, -, -, h4⟩ := h.cached p hp
    exact h4 (hc _ c h1)
  · exact h.uncached b hb

/-! ## Handles -/

theorem count_addr {w : CacheSt B} {log : Nat → B} (h : Inv w log) {p : Nat × Nat} (hp : p ∈ w.queue) :
    (w.queue.map Prod.snd).count p.2 = 1 :=
  List.count_eq_one_of_mem h.addrs (List.mem_map_of_mem hp)

/-- An object only the queue refers to has no handle. -/
theorem not_held_of_count {w : CacheSt B} {log : Nat → B} (h : Inv w log) {p : Nat × Nat} (hp : p ∈ w.queue) :
    w.strongCount p.2 = 1 ↔ p.2 ∉ w.handles := by
  rw [strongCount, count_addr h hp, ← List.count_eq_zero]
  omega

theorem syncAt_with_queue (w : CacheSt B) (q : List (Nat × Nat)) (a : Nat) :
    { w with queue := q }.syncAt a = { w.syncAt a with queue := q } := by
  unfold syncAt
  simp only
  split
  · split <;> rfl
  · rfl

/-- A clean entry without handles leaves the cache with nothing lost. -/
theorem inv_remove {w : CacheSt B} {log : Nat → B} (h : Inv w log) {p : Nat × Nat} {l₁ l₂ : List (Nat × Nat)}
    (hq : w.queue = l₁ ++ p :: l₂) (hd : w.dev.data p.1 = log p.1) (hh : p.2 ∉ w.handles) :
    Inv { w with queue := l₁ ++ l₂, heap := Function.update w.heap p.2 none } log := by
  have hsub : (l₁ ++ l₂).Sublist w.queue := by rw [hq]; simp
  have hp : p ∈ w.queue := by rw [hq]; simp
  have hids := h.ids
  have haddrs := h.addrs
  have hnot : ∀ q ∈ l₁ ++ l₂, q.1 ≠ p.1 ∧ q.2 ≠ p.2 := by
    intro q hq'
    rw [hq, List.map_append, List.map_cons] at hids haddrs
    have h1 := (List.nodup_middle.mp hids)
    have h2 := (List.nodup_middle.mp haddrs)
    rw [List.nodup_cons, ← List.map_append] at h1 h2
    exact ⟨fun e => h1.1 (e ▸ List.mem_map_of_mem hq'), fun e => h2.1 (e ▸ List.mem_map_of_mem hq')⟩
  refine ⟨?_, h.ids.sublist (hsub.map _), h.addrs.sublist (hsub.map _), ?_, fun q hq' => h.onDevice q (hsub.subset hq'),
    fun q hq' => h.fresh q (hsub.subset hq'), ?_, ?_, ?_⟩
  · have := h.cap
    have := hsub.length_le
    simp only at *
    omega
  · intro q hq'
    obtain ⟨c, h1, h2, h3, h4⟩ := h.cached q (hsub.subset hq')
    exact ⟨c, by simp only [Function.update_of_ne (hnot q hq').2, h1], h2, h3, h4⟩
  · intro a ha
    simp only at ha ⊢
    by_cases e : a = p.2
    · subst e; simp at ha
    · rw [Function.update_of_ne e] at ha
      have := h.live a ha
      rw [hq, List.map_append, List.map_cons] at this
      simp only [List.map_append, List.mem_append, List.mem_cons] at this ⊢
      tauto
  · intro a ha
    have := h.held a ha
    have hne : a ≠ p.2 := fun e => hh (e ▸ ha)
    rw [hq, List.map_append, List.map_cons] at this
    simp only [List.map_append, List.mem_append, List.mem_cons] at this ⊢
    tauto
  · intro b hb
    by_cases e : b = p.1
    · subst e; exact hd
    · apply h.uncached
      rw [hq, List.map_append, List.map_cons]
      simp only [List.map_append, List.mem_append, List.mem_cons] at hb ⊢
      tauto

theorem drain_spec {w : CacheSt B} {log : Nat → B} (h : Inv w log) {idx : Nat} {p : Nat × Nat}
    (hi : w.queue[idx]? = some p) (hc : w.strongCount p.2 = 1) :
    Inv (w.drain idx) log ∧ (w.drain idx).handles = w.handles ∧ (w.drain idx).dev.size = w.dev.size ∧
      (w.drain idx).queue = w.queue.eraseIdx idx ∧ (w.drain idx).next = w.next := by
  obtain ⟨hlt, hget⟩ := List.getElem?_eq_some_iff.mp hi
  have hsplit : w.queue = w.queue.take idx ++ p :: w.queue.drop (idx + 1) := by
    rw [← hget, List.cons_getElem_drop_succ, List.take_append_drop]
  have herase : w.queue.eraseIdx idx = w.queue.take idx ++ w.queue.drop (idx + 1) := List.eraseIdx_eq_take_drop_succ ..
  have hp : p ∈ w.queue := List.mem_of_getElem? hi
  have hh := (not_held_of_count h hp).mp hc
  -- nothing else refers to the object
  have hzero : { w with queue := w.queue.eraseIdx idx }.strongCount p.2 = 0 := by
    have h1 := count_addr h hp
    rw [hsplit, List.map_append, List.map_cons, List.count_append, List.count_cons_self] at h1
    have h2 : w.handles.count p.2 = 0 := List.count_eq_zero.mpr hh
    simp only [strongCount, herase, List.map_append, List.count_append, h2]
    omega
  have hdrain : w.drain idx = { w.syncAt p.2 with
      queue := w.queue.eraseIdx idx, heap := Function.update (w.syncAt p.2).heap p.2 none } := by
    simp only [drain, hi, release, hzero, if_true, syncAt_with_queue]
  have hinv := inv_syncAt h hp
  have hdev := (syncAt_cached (h.cached p hp)).2.1
  rw [hdrain]
  refine ⟨?_, syncAt_handles w p.2, syncAt_size w p.2, rfl, syncAt_next w p.2⟩
  rw [herase]
  exact inv_remove hinv (by rw [syncAt_queue]; exact hsplit) hdev (by rw [syncAt_handles]; exact hh)

theorem nodup_map_snoc {α β : Type} {f : α → β} {l : List α} {x : α} (h : (l.map f).Nodup) (hx : f x ∉ l.map f) :
    ((l ++ [x]).map f).Nodup := by
  rw [List.map_append, List.map_singleton, List.nodup_append]
  refine ⟨h, List.nodup_singleton _, fun a ha b hb e => ?_⟩
  rw [List.mem_singleton] at hb
  exact hx (hb ▸ e ▸ ha)

/-- Erasing commutes with a map that tells the erased element apart. -/
theorem map_erase_of_inj {α β : Type} [BEq α] [LawfulBEq α] [BEq β] [LawfulBEq β] {f : α → β} {p : α} {l : List α}
    (hp : p ∈ l) (hinj : ∀ q ∈ l, f q = f p → q = p) : (l.erase p).map f = (l.map f).erase (f p) := by
  induction l with
  | nil => rfl
  | cons q l ih =>
    rw [List.map_cons, List.erase_cons, List.erase_cons]
    by_cases e : q = p
    · simp [e]
    · have e2 : f q ≠ f p := fun e2 => e (hinj q List.mem_cons_self e2)
      have hp' : p ∈ l := (List.mem_cons.mp hp).resolve_left (Ne.symm e)
      simp only [beq_iff_eq, e, e2, if_false, List.map_cons]
      rw [ih hp' fun r hr => hinj r (List.mem_cons_of_mem _ hr)]

theorem load_spec {w : CacheSt B} {log : Nat → B} (h : Inv w log) {id : Nat} (hroom : w.queue.length < blockCacheSize)
    (hid : id ∉ w.queue.map Prod.fst) {a : Nat} {w' : CacheSt B} (hl : w.load id = .ok (a, w')) :
    Inv w' log ∧ w'.queue = w.queue ++ [(id, a)] ∧ w'.handles = a :: w.handles ∧ w'.dev.size = w.dev.size ∧
      id < w.dev.size := by
  unfold load at hl
  split at hl
  · cases hl
  rename_i hsz
  cases hl
  have hnew : w.next ∉ w.queue.map Prod.snd := by
    intro hm
    obtain ⟨q, hq, e⟩ := List.mem_map.mp hm
    have := h.fresh q hq
    omega
  refine ⟨⟨?_, ?_, ?_, ?_, ?_, ?_, ?_, ?_, ?_⟩, rfl, rfl, rfl, by omega⟩
  · simp only [List.length_append, List.length_singleton]; omega
  · exact nodup_map_snoc h.ids hid
  · exact nodup_map_snoc h.addrs hnew
  · intro q hq
    rcases List.mem_append.mp hq with hq | hq
    · obtain ⟨c, h1, h2, h3, h4⟩ := h.cached q hq
      have hne : q.2 ≠ w.next := fun e => hnew (e ▸ List.mem_map_of_mem hq)
      exact ⟨c, by simp only [Function.update_of_ne hne, h1], h2, h3, h4⟩
    · obtain rfl := List.mem_singleton.mp hq
      exact ⟨_, Function.update_self .., rfl, h.uncached id hid, fun _ => h.uncached id hid⟩
  · intro q hq
    rcases List.mem_append.mp hq with hq | hq
    · exact h.onDevice q hq
    · obtain rfl := List.mem_singleton.mp hq
      simp only; omega
  · intro q hq
    rcases List.mem_append.mp hq with hq | hq
    · have := h.fresh q hq; simp only; omega
    · obtain rfl := List.mem_singleton.mp hq
      simp only; omega
  · intro a ha
    simp only [List.map_append, List.mem_append] at ha ⊢
    by_cases e : a = w.next
    · right; simp [e]
    · left; exact h.live a (by rwa [Function.update_of_ne e] at ha)
  · intro a ha
    simp only [List.map_append, List.mem_append] at ha ⊢
    rcases List.mem_cons.mp ha with rfl | ha
    · right; simp
    · left; exact h.held a ha
  · intro b hb
    exact h.uncached b fun hm => hb (by simp only [List.map_append, List.mem_append]; exact Or.inl hm)

/-- `get_block_cache` returns the address of the object that caches the block asked
    for, with one more handle to it; every entry with a handle is still queued. -/
theorem get_spec {w : CacheSt B} {log : Nat → B} (h : Inv w log) {id a : Nat} {w' : CacheSt B}
    (hg : w.getBlockCache id = .ok (a, w')) :
    Inv w' log ∧ (id, a) ∈ w'.queue ∧ w'.handles = a :: w.handles ∧ w'.dev.size = w.dev.size ∧
      ∀ p ∈ w.queue, p.2 ∈ w.handles → p ∈ w'.queue := by
  unfold getBlockCache at hg
  split at hg
  · rename_i p hf
    have hp := List.mem_of_find?_eq_some hf
    have hid : p.1 = id := by simpa using List.find?_some hf
    cases hg
    refine ⟨⟨h.1, h.2, h.3, h.4, h.5, h.6, h.7, ?_, h.9⟩, by rw [← hid]; exact hp, rfl, rfl, fun _ hq _ => hq⟩
    intro a ha
    rcases List.mem_cons.mp ha with rfl | ha
    · exact List.mem_map_of_mem hp
    · exact h.held a ha
  · rename_i hf
    have hid : id ∉ w.queue.map Prod.fst := by
      intro hm
      obtain ⟨q, hq, e⟩ := List.mem_map.mp hm
      have := List.find?_eq_none.mp hf q hq
      simp [e] at this
    split at hg
    · rename_i hfull
      split at hg
      · rename_i idx hidx
        obtain ⟨hlt, hcount, -⟩ := List.findIdx?_eq_some_iff_getElem.mp hidx
        have hi : w.queue[idx]? = some w.queue[idx] := List.getElem?_eq_getElem hlt
        have hc : w.strongCount (w.queue[idx]).2 = 1 := by simpa using hcount
        obtain ⟨d1, d2, d3, d4, -⟩ := drain_spec h hi hc
        have hlen : (w.drain idx).queue.length < blockCacheSize := by
          rw [d4, List.length_eraseIdx_of_lt hlt, hfull]; decide
        have hid' : id ∉ (w.drain idx).queue.map Prod.fst := by
          rw [d4]
          exact fun hm => hid ((List.eraseIdx_sublist _ _).map _ |>.subset hm)
        obtain ⟨e1, e2, e3, e4, -⟩ := load_spec d1 hlen hid' hg
        refine ⟨e1, by rw [e2]; simp, by rw [e3, d2], by rw [e4, d3], fun p hp hh => ?_⟩
        rw [e2, d4, List.mem_append]
        left
        -- the evicted entry has no handle
        have hne : p ≠ w.queue[idx] := by
          rintro rfl
          exact (not_held_of_count h hp).mp hc hh
        obtain ⟨j, hj, rfl⟩ := List.getElem_of_mem hp
        rw [List.mem_eraseIdx_iff_getElem]
        exact ⟨j, hj, fun e => hne (by simp [e]), rfl⟩
      · cases hg
    · rename_i hnf
      have hlen : w.queue.length < blockCacheSize := Nat.lt_of_le_of_ne h.cap hnf
      obtain ⟨e1, e2, e3, e4, -⟩ := load_spec h hlen hid hg
      exact ⟨e1, by rw [e2]; simp, e3, e4, fun p hp _ => by rw [e2]; exact List.mem_append_left _ hp⟩

theorem modify_spec {w : CacheSt B} {log : Nat → B} (h : Inv w log) {b a : Nat} (hp : (b, a) ∈ w.queue)
    (f : B → B) : Inv (w.modify a f) (Function.update log b (f (log b))) ∧ (w.modify a f).queue = w.queue ∧
      (w.modify a f).handles = w.handles ∧ (w.modify a f).dev = w.dev := by
  obtain ⟨c, hc, hb, hl, hm⟩ := h.cached _ hp
  have hmod : w.modify a f =
      { w with heap := Function.update w.heap a (some { c with cache := f c.cache, modified := true }) } := by
    simp only at hc
    simp only [CacheSt.modify, hc]
  rw [hmod]
  refine ⟨⟨h.1, h.2, h.3, ?_, h.5, h.6, ?_, h.8, ?_⟩, rfl, rfl, rfl⟩
  · intro q hq
    by_cases e : q = (b, a)
    · subst e
      refine ⟨_, Function.update_self .., hb, ?_, fun hf => by simp at hf⟩
      simp only [Function.update_self]
      rw [hl]
    · have hqa : q.2 ≠ a := fun e2 => e (addr_inj h hq hp e2)
      have hqb : q.1 ≠ b := fun e1 => e (id_inj h hq hp e1)
      obtain ⟨d, h1, h2, h3, h4⟩ := h.cached q hq
      refine ⟨d, by simp only [Function.update_of_ne hqa, h1], h2, ?_, ?_⟩
      · rw [Function.update_of_ne hqb]; exact h3
      · rw [Function.update_of_ne hqb]; exact h4
  · intro a' ha'
    by_cases e : a' = a
    · subst e; exact List.mem_map_of_mem hp
    · exact h.live a' (by simpa only [Function.update_of_ne e] using ha')
  · intro b' hb'
    have : b' ≠ b := fun e => hb' (e ▸ List.mem_map_of_mem hp)
    rw [Function.update_of_ne this]
    exact h.uncached b' hb'

theorem dropHandle_spec {w : CacheSt B} {log : Nat → B} (h : Inv w log) {a : Nat} (ha : a ∈ w.handles) :
    Inv (w.dropHandle a) log ∧ (w.dropHandle a).queue = w.queue ∧ (w.dropHandle a).handles = w.handles.erase a ∧
      (w.dropHandle a).dev = w.dev ∧ (w.dropHandle a).heap = w.heap := by
  -- the queue still refers to the object
  obtain ⟨p, hp, rfl⟩ := List.mem_map.mp (h.held a ha)
  have hne : { w with handles := w.handles.erase p.2 }.strongCount p.2 ≠ 0 := by
    have := count_addr h hp
    simp only [strongCount, this]
    omega
  rw [dropHandle, release, if_neg hne]
  exact ⟨⟨h.1, h.2, h.3, h.4, h.5, h.6, h.7, fun a ha => h.held a (List.mem_of_mem_erase ha), h.9⟩, rfl, rfl, rfl, rfl⟩

/-! ## Runs -/

/-- Runs on one device from the empty cache. `hs` are the handles held, as the block
    asked for and the address returned; `mods` the modifications made so far, each with
    the block whose handle it went through. -/
inductive Run (dev : BlockDevice B) : CacheSt B → List (Nat × Nat) → List (Nat × (B → B)) → Prop
  | init : Run dev (CacheSt.empty dev) [] []
  | get {w w' : CacheSt B} {hs mods} {id a : Nat} : Run dev w hs mods → w.getBlockCache id = .ok (a, w') →
      Run dev w' ((id, a) :: hs) mods
  | modify {w : CacheSt B} {hs mods} {h : Nat × Nat} (f : B → B) : Run dev w hs mods → h ∈ hs →
      Run dev (w.modify h.2 f) hs (mods ++ [(h.1, f)])
  | drop {w : CacheSt B} {hs mods} {h : Nat × Nat} : Run dev w hs mods → h ∈ hs →
      Run dev (w.dropHandle h.2) (hs.erase h) mods
  | sync {w : CacheSt B} {hs mods} : Run dev w hs mods → Run dev w.syncAll hs mods

/-- The modifications of block `b` among `mods`, applied in order. -/
def applyMods (mods : List (Nat × (B → B))) (b : Nat) (x : B) : B :=
  (mods.filter fun m => m.1 == b).foldl (fun x m => m.2 x) x

/-- The logical contents: the device's initial contents with all modifications applied. -/
def logical (dev : BlockDevice B) (mods : List (Nat × (B → B))) : Nat → B := fun b => applyMods mods b (dev.data b)

theorem logical_snoc (dev : BlockDevice B) (mods : List (Nat × (B → B))) (b : Nat) (f : B → B) :
    logical dev (mods ++ [(b, f)]) = Function.update (logical dev mods) b (f (logical dev mods b)) := by
  funext b'
  by_cases e : b' = b
  · subst e
    simp [logical, applyMods, List.filter_append]
  · rw [Function.update_of_ne e]
    simp [logical, applyMods, List.filter_append, Ne.symm e]

/-- The run invariant: the cache holds the logical contents, and a held handle is an
    `Arc` to the queued object of the block it was asked for. -/
structure RunInv (dev : BlockDevice B) (w : CacheSt B) (hs : List (Nat × Nat)) (mods : List (Nat × (B → B))) : Prop where
  inv : Inv w (logical dev mods)
  handles : w.handles = hs.map Prod.snd
  queued : ∀ h ∈ hs, h ∈ w.queue

theorem run_inv {dev : BlockDevice B} {w : CacheSt B} {hs mods} (h : Run dev w hs mods) : RunInv dev w hs mods := by
  induction h with
  | init => exact ⟨inv_empty dev, rfl, fun h hh => by cases hh⟩
  | get _ hg ih =>
    obtain ⟨h1, h2, h3, -, h5⟩ := get_spec ih.inv hg
    refine ⟨h1, by rw [h3, ih.handles]; rfl, fun p hp => ?_⟩
    rcases List.mem_cons.mp hp with rfl | hp
    · exact h2
    · exact h5 p (ih.queued p hp) (by rw [ih.handles]; exact List.mem_map_of_mem hp)
  | modify f _ hh ih =>
    obtain ⟨h1, h2, h3, -⟩ := modify_spec ih.inv (ih.queued _ hh) f
    exact ⟨by rw [logical_snoc]; exact h1, by rw [h3, ih.handles], fun p hp => by rw [h2]; exact ih.queued p hp⟩
  | @drop w hs mods p _ hh ih =>
    have ha : p.2 ∈ w.handles := by rw [ih.handles]; exact List.mem_map_of_mem hh
    obtain ⟨h1, h2, h3, -⟩ := dropHandle_spec ih.inv ha
    refine ⟨h1, ?_, fun q hq => by rw [h2]; exact ih.queued q (List.mem_of_mem_erase hq)⟩
    -- two handles with one address are handles of one block
    rw [h3, ih.handles]
    exact (map_erase_of_inj hh fun q hq e => addr_inj ih.inv (ih.queued q hq) (ih.queued p hh) e).symm
  | sync _ ih =>
    obtain ⟨h1, h2, h3, -⟩ := syncAll_spec ih.inv
    exact ⟨h1, by rw [h3, ih.handles], fun p hp => by rw [h2]; exact ih.queued p hp⟩

/-- The cache is transparent: in every run in which no call panics, the bytes behind a
    handle for `b` are `b`'s logical contents; at most 16 blocks are cached, none twice;
    a block with a handle is cached; and after `block_cache_sync_all` the device has the
    logical contents of every block. -/
theorem block_cache_transparent {dev : BlockDevice B} {w : CacheSt B} {hs : List (Nat × Nat)}
    {mods : List (Nat × (B → B))} (h : Run dev w hs mods) :
    (∀ p ∈ hs, ∃ c, w.heap p.2 = some c ∧ c.blockId = p.1 ∧ c.cache = applyMods mods p.1 (dev.data p.1)) ∧
      w.queue.length ≤ 16 ∧ (w.queue.map Prod.fst).Nodup ∧ (∀ p ∈ hs, p ∈ w.queue) ∧
      ∀ b, w.syncAll.dev.data b = applyMods mods b (dev.data b) := by
  have hi := run_inv h
  refine ⟨fun p hp => ?_, hi.inv.cap, hi.inv.ids, hi.queued, fun b => ?_⟩
  · obtain ⟨c, h1, h2, h3, -⟩ := hi.inv.cached p (hi.queued p hp)
    exact ⟨c, h1, h2, h3⟩
  · obtain ⟨h1, -, -, -, h5⟩ := syncAll_spec hi.inv
    exact congrFun (dev_eq_of_clean h1 h5) b

/-- Block 1 of a device of four numbers is fetched, increased, dropped, fetched again and
    increased again: the second handle sees both, and so does the device after a sync. -/
theorem block_cache_transparent_two : ∃ w : CacheSt Nat,
    Run ⟨4, fun b => b⟩ w [(1, 0)] [(1, (· + 10)), (1, (· + 10))] ∧ (∃ c, w.heap 0 = some c ∧ c.cache = 21) ∧
      w.syncAll.dev.data 1 = 21 := by
  have h0 : Run (B := Nat) ⟨4, fun b => b⟩ _ [] [] := .init
  have h1 := (h0.get (show getBlockCache _ 1 = _ from rfl)).modify (· + 10) (List.mem_singleton_self _)
  have h2 := h1.drop (List.mem_singleton_self _)
  have h3 := (h2.get (show getBlockCache _ 1 = _ from rfl)).modify (· + 10) (List.mem_singleton_self _)
  obtain ⟨hseen, -, -, -, hdev⟩ := block_cache_transparent h3
  obtain ⟨c, hc, -, hv⟩ := hseen _ (List.mem_singleton_self _)
  exact ⟨_, h3, ⟨c, hc, hv⟩, hdev 1⟩

end TgRcore.EasyFs
