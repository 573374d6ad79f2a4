/-
  TgRcore.EasyFs.CachedRun — block programs run through the block cache, and that the
  cache does not show.

  `runCached` is what the file system's code does: every access takes a handle from the
  cache manager, locks it, and drops it again, with loads, evictions and write-backs
  underneath. `Sim` relates such a state to a flat store: the cache holds the store's
  contents and the handles outside the queue are those of the locks held.

  - `runCached_sim`: from related states the cached and the flat run of any program end
    the same way, with the same result and related states, or stop for the same reason.
    So a fact about `run` is a fact about the code with its cache.
  - `runCached_clean`: a program whose last store is followed by a write-back leaves
    nothing dirty.
-/

import TgRcore.EasyFs.BlockCache

namespace TgRcore.EasyFs

open TgRcore.BlockProg

variable {B α β : Type}

/-- The cache, the locks the caller holds (block and address of its object) and
    whether it holds the file-system mutex. -/
structure Cached (B : Type) where
  w : CacheSt B
  locks : List (Nat × Nat)
  busy : Bool

namespace Cached

/-- Drop the guard and the handle of block `b`. -/
def unpin (c : Cached B) (b : Nat) (v : Option B) : Cached B :=
  match c.locks.find? fun p => p.1 == b with
  | some p =>
    let w := match v with
      | some x => c.w.modify p.2 fun _ => x
      | none => c.w
    { c with w := w.dropHandle p.2, locks := c.locks.erase p }
  | none => c

end Cached

def runCached : Prog B α → Cached B → Except Halt (α × Cached B)
  | .ret a, c => .ok (a, c)
  | .panic, _ => .error .panic
  | .lock b k, c =>
    match c.w.getBlockCache b with
    | .error e => .error e
    | .ok (a, w) =>
      if a ∈ c.locks.map Prod.snd then .error .deadlock
      else match w.heap a with
        | some o => runCached (k o.cache) { c with w := w, locks := (b, a) :: c.locks }
        | none => .error .panic
  | .unlock b v k, c => runCached k (c.unpin b v)
  | .enter k, c => if c.busy then .error .deadlock else runCached k { c with busy := true }
  | .leave k, c => runCached k { c with busy := false }
  | .syncAll k, c => if c.locks = [] then runCached k { c with w := c.w.syncAll } else .error .deadlock

/-- The cached state stands for the flat store `s`. -/
structure Sim (c : Cached B) (s : Store B) : Prop where
  inv : Inv c.w s.blk
  size : s.size = c.w.dev.size
  cap : s.cap = blockCacheSize
  busy : s.busy = c.busy
  held : s.held = c.locks.map Prod.fst
  handles : c.w.handles = c.locks.map Prod.snd
  queued : ∀ p ∈ c.locks, p ∈ c.w.queue
  nodup : c.locks.Nodup

/-- Both runs ended alike. -/
def SimResult : Except Halt (α × Cached B) → Except Halt (α × Store B) → Prop
  | .ok (a, c), .ok (a', s) => a = a' ∧ Sim c s
  | .error e, .error e' => e = e'
  | _, _ => False

theorem Sim.locked_iff {c : Cached B} {s : Store B} (h : Sim c s) {b a : Nat} (hq : (b, a) ∈ c.w.queue) :
    a ∈ c.locks.map Prod.snd ↔ b ∈ s.held := by
  rw [h.held]
  constructor
  · intro hm
    obtain ⟨p, hp, e⟩ := List.mem_map.mp hm
    have := addr_inj h.inv (h.queued p hp) hq e
    exact List.mem_map.mpr ⟨p, hp, by rw [this]⟩
  · intro hm
    obtain ⟨p, hp, e⟩ := List.mem_map.mp hm
    have := id_inj h.inv (h.queued p hp) hq e
    exact List.mem_map.mpr ⟨p, hp, by rw [this]⟩

theorem Sim.find_none {c : Cached B} {s : Store B} (h : Sim c s) {b : Nat}
    (hf : (c.w.queue.find? fun p => p.1 == b) = none) : b ∉ s.held := by
  rw [h.held]
  intro hm
  obtain ⟨p, hp, e⟩ := List.mem_map.mp hm
  have := List.find?_eq_none.mp hf p (h.queued p hp)
  simp [e] at this

/-- With a full queue there is an entry to evict exactly when fewer locks than entries
    are held. -/
theorem Sim.evictable_iff {c : Cached B} {s : Store B} (h : Sim c s) (hfull : c.w.queue.length = blockCacheSize) :
    (∃ p ∈ c.w.queue, c.w.strongCount p.2 = 1) ↔ s.held.length < blockCacheSize := by
  rw [h.held, List.length_map]
  have hsub : c.locks.Subset c.w.queue := fun p hp => h.queued p hp
  have hcount : ∀ p ∈ c.w.queue, c.w.strongCount p.2 = 1 ↔ p ∉ c.locks := by
    intro p hp
    rw [not_held_of_count h.inv hp, h.handles, not_iff_not]
    constructor
    · intro hm
      obtain ⟨q, hq, e⟩ := List.mem_map.mp hm
      rwa [← addr_inj h.inv (h.queued q hq) hp e]
    · exact fun hm => List.mem_map_of_mem hm
  constructor
  · rintro ⟨p, hp, hc⟩
    by_contra hle
    -- sixteen distinct locks among sixteen entries are all of them
    have hperm : c.w.queue.Subperm c.locks := by
      have hsp : c.locks.Subperm c.w.queue := List.subperm_of_subset h.nodup hsub
      exact (hsp.perm_of_length_le (by omega)).symm.subperm
    exact (hcount p hp).mp hc (hperm.subset hp)
  · intro hlt
    by_contra hno
    have hall : c.w.queue.Subset c.locks := by
      intro p hp
      by_contra hnp
      exact hno ⟨p, hp, (hcount p hp).mpr hnp⟩
    have := (List.subperm_of_subset h.inv.ids.of_map hall).length_le
    omega

theorem load_error {w : CacheSt B} {b : Nat} (h : w.dev.size ≤ b) : w.load b = .error .panic := if_pos h

theorem load_ok {w : CacheSt B} {b : Nat} (h : b < w.dev.size) : ∃ a w', w.load b = .ok (a, w') :=
  ⟨_, _, if_neg (Nat.not_le.mpr h)⟩

/-- `get_block_cache` fails exactly on a block past the end of the device or when all
    sixteen entries are locked. -/
theorem Sim.get_cases {c : Cached B} {s : Store B} (h : Sim c s) (b : Nat) :
    (b ∉ s.held ∧ (blockCacheSize ≤ s.held.length ∨ s.size ≤ b) ∧ c.w.getBlockCache b = .error .panic) ∨
      ((b ∈ s.held ∨ (s.held.length < blockCacheSize ∧ b < s.size)) ∧
        ∃ a w', c.w.getBlockCache b = .ok (a, w')) := by
  have hlen : s.held.length ≤ c.w.queue.length := by
    rw [h.held, List.length_map]
    exact (List.subperm_of_subset h.nodup fun p hp => h.queued p hp).length_le
  unfold CacheSt.getBlockCache
  cases hf : c.w.queue.find? fun p => p.1 == b with
  | some p =>
    right
    have hp := List.mem_of_find?_eq_some hf
    have hid : p.1 = b := by simpa using List.find?_some hf
    refine ⟨?_, _, _, rfl⟩
    by_cases hb : b ∈ s.held
    · exact Or.inl hb
    right
    refine ⟨?_, by rw [h.size, ← hid]; exact h.inv.onDevice p hp⟩
    -- an entry that is not locked leaves fewer than sixteen locks
    by_contra hge
    have hq := h.inv.cap
    have hfull : c.w.queue.length = blockCacheSize := by omega
    refine (mt (h.evictable_iff hfull).mp (by omega)) ⟨p, hp, ?_⟩
    rw [not_held_of_count h.inv hp, h.handles, h.locked_iff (b := p.1) hp, hid]
    exact hb
  | none =>
    have hnb := h.find_none hf
    simp only
    by_cases hfull : c.w.queue.length = blockCacheSize
    · rw [if_pos hfull]
      cases hi : c.w.queue.findIdx? fun p => c.w.strongCount p.2 == 1 with
      | none =>
        left
        refine ⟨hnb, Or.inl ?_, rfl⟩
        by_contra hlt
        obtain ⟨p, hp, hc⟩ := (h.evictable_iff hfull).mpr (by omega)
        have := List.findIdx?_eq_none_iff.mp hi p hp
        simp [hc] at this
      | some idx =>
        obtain ⟨hlt, hcount, -⟩ := List.findIdx?_eq_some_iff_getElem.mp hi
        have hc : c.w.strongCount (c.w.queue[idx]).2 = 1 := by simpa using hcount
        have hroom := (h.evictable_iff hfull).mp ⟨_, List.getElem_mem hlt, hc⟩
        obtain ⟨-, -, d3, -, -⟩ := drain_spec h.inv (List.getElem?_eq_getElem hlt) hc
        by_cases hb : s.size ≤ b
        · left
          exact ⟨hnb, Or.inr hb, load_error (by rw [d3, ← h.size]; exact hb)⟩
        · right
          exact ⟨Or.inr ⟨hroom, by omega⟩, load_ok (by rw [d3, ← h.size]; omega)⟩
    · rw [if_neg hfull]
      have hq := h.inv.cap
      by_cases hb : s.size ≤ b
      · left
        exact ⟨hnb, Or.inr hb, load_error (by rw [← h.size]; exact hb)⟩
      · right
        exact ⟨Or.inr ⟨by omega, by omega⟩, load_ok (by rw [← h.size]; omega)⟩

theorem Sim.lock {c : Cached B} {s : Store B} (h : Sim c s) {b a : Nat} {w' : CacheSt B} (hb : b ∉ s.held)
    (hg : c.w.getBlockCache b = .ok (a, w')) :
    a ∉ c.locks.map Prod.snd ∧ (∃ o, w'.heap a = some o ∧ o.cache = s.blk b) ∧
      Sim { c with w := w', locks := (b, a) :: c.locks } (s.pin b) := by
  obtain ⟨h1, h2, h3, h4, h5⟩ := get_spec h.inv hg
  have hkeep : ∀ p ∈ c.locks, p ∈ w'.queue := fun p hp =>
    h5 p (h.queued p hp) (by rw [h.handles]; exact List.mem_map_of_mem hp)
  have hna : a ∉ c.locks.map Prod.snd := by
    intro hm
    obtain ⟨p, hp, e⟩ := List.mem_map.mp hm
    have := addr_inj h1 (hkeep p hp) h2 e
    exact hb (by rw [h.held]; exact List.mem_map.mpr ⟨p, hp, by rw [this]⟩)
  refine ⟨hna, ?_, h1, by rw [h4]; exact h.size, h.cap, h.busy, by simp [h.held], by simp [h3, h.handles], ?_, ?_⟩
  · obtain ⟨o, ho, -, hl, -⟩ := h1.cached _ h2
    exact ⟨o, ho, hl⟩
  · intro p hp
    rcases List.mem_cons.mp hp with rfl | hp
    · exact h2
    · exact hkeep p hp
  · exact List.nodup_cons.mpr ⟨fun hm => hna (List.mem_map.mpr ⟨_, hm, rfl⟩), h.nodup⟩

theorem Sim.unpin {c : Cached B} {s : Store B} (h : Sim c s) (b : Nat) (v : Option B) :
    Sim (c.unpin b v) (s.unpin b v) := by
  unfold Cached.unpin Store.unpin
  cases hf : c.locks.find? fun p => p.1 == b with
  | none =>
    have hnb : b ∉ s.held := by
      rw [h.held]
      intro hm
      obtain ⟨p, hp, e⟩ := List.mem_map.mp hm
      have := List.find?_eq_none.mp hf p hp
      simp [e] at this
    rw [if_neg hnb]
    exact h
  | some p =>
    have hp := List.mem_of_find?_eq_some hf
    have hid : p.1 = b := by simpa using List.find?_some hf
    have hb : b ∈ s.held := by rw [h.held, ← hid]; exact List.mem_map_of_mem hp
    rw [if_pos hb]
    have hq := h.queued p hp
    -- the modification, if any
    have hw : ∀ (w : CacheSt B) (log : Nat → B), Inv w log → w.queue = c.w.queue → w.handles = c.w.handles → w.dev.size = c.w.dev.size →
        Sim { c with w := w.dropHandle p.2, locks := c.locks.erase p }
          { s with held := s.held.erase b, blk := log } := by
      intro w log hi hqu hha hsz
      have hmem : p.2 ∈ w.handles := by rw [hha, h.handles]; exact List.mem_map_of_mem hp
      obtain ⟨e1, e2, e3, e4, -⟩ := dropHandle_spec hi hmem
      have hinj2 : ∀ q ∈ c.locks, q.2 = p.2 → q = p := fun q hq' e => addr_inj h.inv (h.queued q hq') hq e
      have hinj1 : ∀ q ∈ c.locks, q.1 = p.1 → q = p := fun q hq' e => id_inj h.inv (h.queued q hq') hq e
      refine ⟨e1, by simp only [e4, hsz]; exact h.size, h.cap, h.busy, ?_, ?_, ?_, h.nodup.erase p⟩
      · simp only [h.held, ← hid]
        exact (map_erase_of_inj hp hinj1).symm
      · simp only [e3, hha, h.handles]
        exact (map_erase_of_inj hp hinj2).symm
      · intro q hq'
        simp only [e2, hqu]
        exact h.queued q (List.mem_of_mem_erase hq')
    cases v with
    | none => exact hw c.w s.blk h.inv rfl rfl rfl
    | some x =>
      obtain ⟨e1, e2, e3, e4⟩ := modify_spec (a := p.2) h.inv hq fun _ => x
      rw [hid] at e1
      exact hw _ _ e1 e2 e3 (by rw [e4])

/-- The cache does not show: from related states a program ends the same way with and
    without it. -/
theorem runCached_sim (p : Prog B α) {c : Cached B} {s : Store B} (h : Sim c s) :
    SimResult (runCached p c) (p.run s) := by
  induction p generalizing c s with
  | ret a => exact ⟨rfl, h⟩
  | panic => rfl
  | lock b k ih =>
    rw [runCached, Prog.run]
    rcases h.get_cases b with ⟨hnb, hbad, hg⟩ | ⟨hok, a, w', hg⟩
    · rw [hg, if_neg hnb]
      simp only
      rcases hbad with hr | hs
      · rw [if_pos (by rw [h.cap]; exact hr)]; rfl
      · rw [if_pos hs]
        split <;> rfl
    · rw [hg]
      simp only
      by_cases hb : b ∈ s.held
      · -- the object is found, and its lock is taken
        obtain ⟨-, h2, -, -, h5⟩ := get_spec h.inv hg
        obtain ⟨q, hq, e⟩ := List.mem_map.mp (h.held ▸ hb)
        have hqk := h5 q (h.queued q hq) (by rw [h.handles]; exact List.mem_map_of_mem hq)
        have : q = (b, a) := id_inj (get_spec h.inv hg).1 hqk h2 e
        rw [if_pos hb, if_pos (List.mem_map.mpr ⟨q, hq, by rw [this]⟩)]
        rfl
      · obtain ⟨hroom, hsz⟩ := hok.resolve_left hb
        obtain ⟨hna, ⟨o, ho, hl⟩, hs⟩ := h.lock hb hg
        rw [if_neg hb, if_neg hna, if_neg (by rw [h.cap]; omega), if_neg (by omega), ho]
        simp only
        rw [hl]
        exact ih _ hs
  | unlock b v k ih => exact ih (h.unpin b v)
  | enter k ih =>
    rw [runCached, Prog.run, h.busy]
    split
    · rfl
    · exact ih (c := { c with busy := true }) ⟨h.inv, h.size, h.cap, rfl, h.held, h.handles, h.queued, h.nodup⟩
  | leave k ih =>
    exact ih (c := { c with busy := false }) ⟨h.inv, h.size, h.cap, rfl, h.held, h.handles, h.queued, h.nodup⟩
  | syncAll k ih =>
    rw [runCached, Prog.run]
    by_cases hl : c.locks = []
    · obtain ⟨h1, h2, h3, h4, -⟩ := syncAll_spec h.inv
      rw [if_pos hl, if_pos (by rw [h.held, hl]; rfl)]
      exact ih ⟨h1, by rw [h4]; exact h.size, h.cap, h.busy, h.held, by rw [h3]; exact h.handles,
        fun p hp => by rw [h2]; exact h.queued p hp, h.nodup⟩
    · rw [if_neg hl, if_neg (by rw [h.held]; simpa using hl)]
      rfl

/-- What a cached run that returned says about the flat run. -/
theorem runCached_ok {p : Prog B α} {c c' : Cached B} {s : Store B} {a : α} (h : Sim c s)
    (hr : runCached p c = .ok (a, c')) : ∃ s', p.run s = .ok (a, s') ∧ Sim c' s' := by
  have := runCached_sim p h
  rw [hr] at this
  cases hf : p.run s with
  | error e => rw [hf] at this; exact this.elim
  | ok r =>
    rw [hf] at this
    exact ⟨r.2, by rw [this.1], this.2⟩

/-- A flat run that returned is what the cached run does. -/
theorem runCached_of_run {p : Prog B α} {c : Cached B} {s s' : Store B} {a : α} (h : Sim c s)
    (hr : p.run s = .ok (a, s')) : ∃ c', runCached p c = .ok (a, c') ∧ Sim c' s' := by
  have := runCached_sim p h
  rw [hr] at this
  cases hf : runCached p c with
  | error e => rw [hf] at this; exact this.elim
  | ok r =>
    rw [hf] at this
    exact ⟨r.2, by rw [← this.1], this.2⟩

/-! ## Clean caches -/

theorem clean_release {w : CacheSt B} {a : Nat} (h : Clean w) : Clean (w.release a) := by
  intro a' c hc
  unfold CacheSt.release at hc
  split at hc
  · simp only at hc
    by_cases e : a' = a
    · subst e; simp at hc
    · rw [Function.update_of_ne e] at hc
      exact syncAt_keeps_clean (fun c => h a' c) hc
  · exact h a' c hc

theorem clean_load {w w' : CacheSt B} {id a : Nat} (h : Clean w) (hl : w.load id = .ok (a, w')) : Clean w' := by
  unfold CacheSt.load at hl
  split at hl
  · cases hl
  cases hl
  intro a' c hc
  simp only at hc
  by_cases e : a' = w.next
  · subst e
    rw [Function.update_self] at hc
    cases hc
    rfl
  · rw [Function.update_of_ne e] at hc
    exact h a' c hc

theorem clean_get {w w' : CacheSt B} {id a : Nat} (h : Clean w) (hg : w.getBlockCache id = .ok (a, w')) : Clean w' := by
  unfold CacheSt.getBlockCache at hg
  split at hg
  · cases hg; exact h
  · split at hg
    · split at hg
      · refine clean_load ?_ hg
        unfold CacheSt.drain
        split
        · exact clean_release h
        · exact h
      · cases hg
    · exact clean_load h hg

/-- A settled program leaves nothing dirty. -/
theorem runCached_clean {p : Prog B α} {f f' : Bool} (hp : Prog.Settles f f' p) {c c' : Cached B} {a : α} {s : Store B}
    (hs : Sim c s) (hc : f = true → Clean c.w) (hr : runCached p c = .ok (a, c')) (hf : f' = true) : Clean c'.w := by
  induction hp generalizing c s with
  | ret x h => cases hr; exact hc (h hf)
  | panic => cases hr
  | lock b _ ih =>
    rw [runCached] at hr
    split at hr
    · cases hr
    · rename_i a' w' hg
      split at hr
      · cases hr
      · rename_i hna
        split at hr
        · rename_i o ho
          have hnb : b ∉ s.held := by
            intro hb
            obtain ⟨-, h2, -, -, h5⟩ := get_spec hs.inv hg
            obtain ⟨q, hq, e⟩ := List.mem_map.mp (hs.held ▸ hb)
            have hqk := h5 q (hs.queued q hq) (by rw [hs.handles]; exact List.mem_map_of_mem hq)
            have : q = (b, a') := id_inj (get_spec hs.inv hg).1 hqk h2 e
            exact hna (List.mem_map.mpr ⟨q, hq, by rw [this]⟩)
          exact ih _ (hs.lock hnb hg).2.2 (fun h => clean_get (hc h) hg) hr hf
        · cases hr
  | unlock b _ ih =>
    refine ih (hs.unpin b none) (fun h => ?_) hr hf
    unfold Cached.unpin
    split
    · exact clean_release (hc h)
    · exact hc h
  | store b x _ ih => exact ih (hs.unpin b (some x)) (by simp) hr hf
  | enter _ ih =>
    rw [runCached] at hr
    split at hr
    · cases hr
    · exact ih (c := { c with busy := true }) (s := { s with busy := true })
        ⟨hs.inv, hs.size, hs.cap, rfl, hs.held, hs.handles, hs.queued, hs.nodup⟩ hc hr hf
  | leave _ ih =>
    exact ih (c := { c with busy := false }) (s := { s with busy := false })
      ⟨hs.inv, hs.size, hs.cap, rfl, hs.held, hs.handles, hs.queued, hs.nodup⟩ hc hr hf
  | syncAll _ ih =>
    rw [runCached] at hr
    split at hr
    · obtain ⟨h1, h2, h3, h4, h5⟩ := syncAll_spec hs.inv
      exact ih (c := { c with w := c.w.syncAll }) ⟨h1, by rw [h4]; exact hs.size, hs.cap, hs.busy, hs.held,
        by rw [h3]; exact hs.handles, fun p hp => by rw [h2]; exact hs.queued p hp, hs.nodup⟩ (fun _ => h5) hr hf
    · cases hr

/-! ## Between calls -/

/-- A state of the machine in which no call is in progress, with nothing left to write
    back; `s` is what the device holds. -/
structure Quiet (c : Cached B) (s : Store B) : Prop where
  sim : Sim c s
  clean : Clean c.w
  held : s.held = []
  busy : s.busy = false

/-- The machine with an empty cache on the device `dev`. -/
def boot (dev : BlockDevice B) : Cached B := ⟨CacheSt.empty dev, [], false⟩

/-- The flat store of a device. -/
def flat (dev : BlockDevice B) : Store B := ⟨dev.size, blockCacheSize, dev.data, [], false⟩

theorem quiet_boot (dev : BlockDevice B) : Quiet (boot dev) (flat dev) :=
  ⟨⟨inv_empty dev, rfl, rfl, rfl, rfl, rfl, by simp [boot], List.nodup_nil⟩, fun a c hc => by simp [boot, CacheSt.empty] at hc,
    rfl, rfl⟩

theorem Quiet.dev_eq {c : Cached B} {s : Store B} (h : Quiet c s) : c.w.dev.data = s.blk :=
  dev_eq_of_clean h.sim.inv h.clean

/-- A settled call that returns with nothing locked leaves the machine quiet. -/
theorem Quiet.run {c c' : Cached B} {s : Store B} {p : Prog B α} {a : α} (h : Quiet c s) (hp : Prog.Settles true true p)
    (hr : runCached p c = .ok (a, c')) :
    ∃ s', p.run s = .ok (a, s') ∧ (s'.held = [] → s'.busy = false → Quiet c' s') := by
  obtain ⟨s', h1, h2⟩ := runCached_ok h.sim hr
  exact ⟨s', h1, fun h3 h4 => ⟨h2, runCached_clean hp h.sim (fun _ => h.clean) hr rfl, h3, h4⟩⟩

end TgRcore.EasyFs
