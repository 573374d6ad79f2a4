/-
  TgRcore.EasyFs.HardLinks — the names of chapter 6's easy-fs as a finite map.

  `namesAfter` is the meaning of the calls: a map from names to inodes (their handles),
  changed by `create`, `link` and `unlink` only. `NamedRun` keeps the map next to a run.
  - `hard_links`: at every point of a run `find` returns what the map has, the link count
    of an inode with a name is the number of its names, and every call returns what the map
    says and leaves the files it should leave (`NameLaw`); with the last name of an inode
    all of its blocks are free again.
-/

import TgRcore.EasyFs.Namespace

namespace TgRcore.EasyFs

open TgRcore.Bytes TgRcore.BlockProg TgRcore.BlockProg.Prog

/-! ## The map -/

/-- The names, each with the handle of its inode. -/
abbrev NameMap := String → Option Inode

/-- What a call that returned does to the names. -/
def namesAfter (N : NameMap) : Call → Ret → NameMap
  | .create _ name, .inode h => Function.update N name (some h)
  | .link _ old new, _ => Function.update N new (N old)
  | .unlink _ name, _ => Function.update N name none
  | _, _ => N

/-- The names of inode `h`. -/
def namesOf (N : NameMap) (h : Inode) : Set String := {name | N name = some h}

/-- A run with the map of names next to it. -/
inductive NamedRun (total ibb : Nat) (dev : BlockDevice Block) : EasyFileSystem → Cached Block → List Inode → NameMap → Prop
  | start {efs : EasyFileSystem} {m : Cached Block} :
      runCached (EasyFileSystem.create .ch6 total ibb) (boot dev) = .ok (efs, m) → NamedRun total ibb dev efs m [] fun _ => none
  | step {efs : EasyFileSystem} {m m' : Cached Block} {hs : List Inode} {N : NameMap} {call : Call} {r : Ret} :
      NamedRun total ibb dev efs m hs N → (∀ i, call.self? = some i → i ∈ hs) → NameCall efs m.w.dev.data call →
      InSlots efs m.w.dev.data call → runCached (call.exec efs) m = .ok (r, m') →
      NamedRun total ibb dev efs m' (r.handles ++ hs) (namesAfter N call r)

/-- The machine agrees with the map. -/
structure Agrees (efs : EasyFileSystem) (m : Cached Block) (N : NameMap) : Prop where
  finite : {name | N name ≠ none}.Finite
  valid : ∀ name, N name ≠ none → ValidName name
  find : ∀ name, name ≠ "" → ∃ m', runCached ((Call.find (efs.handle 0) name).exec efs) m = .ok (.found (N name), m')
  linkNum : ∀ id, (namesOf N (efs.handle id)).Nonempty →
    (efs.inodeAt m.w.dev.data id).linkNum = (namesOf N (efs.handle id)).ncard

/-- What a call returns, and what it does to the files that have a name: `blk` and `blk'` are
    the disk before and after it, `hs` the handles handed out before it. -/
def NameLaw (efs : EasyFileSystem) (blk blk' : Nat → Block) (hs : List Inode) (N : NameMap) : Call → Ret → Prop
  | .create _ _, r => (∃ h, r = .inode h ∧ h ∉ hs ∧ namesOf N h = ∅ ∧ contentAt efs blk' h = []) ∧
      ∀ name h, N name = some h → contentAt efs blk' h = contentAt efs blk h
  | .link _ old _, r => r = .flag (N old).isSome ∧ ∀ name h, N name = some h → contentAt efs blk' h = contentAt efs blk h
  | .unlink _ name, r => r = .flag (N name).isSome ∧
      (∀ name' h, name' ≠ name → N name' = some h → contentAt efs blk' h = contentAt efs blk h) ∧
      ∀ id, namesOf N (efs.handle id) = {name} → ∀ b ∈ efs.treeAt blk id, efs.dataBit blk' b = false
  | .readAt i off buf, r =>
      (∀ name, N name = some i → r = .bytes (min (off + buf.length) (contentAt efs blk i).length - off)
        (((contentAt efs blk i).drop off).take buf.length ++ buf.drop (min (off + buf.length) (contentAt efs blk i).length - off))) ∧
      blk' = blk
  | .writeAt i _ _, _ => ∀ name h, h ≠ i → N name = some h → contentAt efs blk' h = contentAt efs blk h
  | .clear i, _ => ∀ name h, h ≠ i → N name = some h → contentAt efs blk' h = contentAt efs blk h
  | .root, r => r = .inode (efs.handle 0) ∧ blk' = blk
  | .find _ name, r => (name ≠ "" → r = .found (N name)) ∧ blk' = blk

/-! ## The map of a list of entries -/

def mapOf (efs : EasyFileSystem) (dir : List Entry) : NameMap := fun name =>
  if name = "" then none else (dir.lookup name).map efs.handle

section MapOf

variable {efs : EasyFileSystem} {dir : List Entry} {k id j : Nat} {name : String}

theorem mapOf_of_ne (h : name ≠ "") : mapOf efs dir name = (dir.lookup name).map efs.handle := if_neg h

theorem mapOf_eq_some {h : Inode} (hm : mapOf efs dir name = some h) :
    name ≠ "" ∧ ∃ id, dir.lookup name = some id ∧ h = efs.handle id := by
  unfold mapOf at hm
  split at hm
  · cases hm
  · rename_i hne
    obtain ⟨id, hl, e⟩ := Option.map_eq_some_iff.mp hm
    exact ⟨hne, id, hl, e.symm⟩

theorem mapOf_handle (hn : name ≠ "") : mapOf efs dir name = some (efs.handle id) ↔ dir.lookup name = some id := by
  rw [mapOf_of_ne hn, Option.map_eq_some_iff]
  constructor
  · intro h
    obtain ⟨id', hl, e⟩ := h
    rw [hl, handle_inj e]
  · intro h
    exact ⟨id, h, rfl⟩

theorem mapOf_append {p : Entry} (hn : p.1 ≠ "") (hnew : dir.lookup p.1 = none) :
    mapOf efs (dir ++ [p]) = Function.update (mapOf efs dir) p.1 (some (efs.handle p.2)) := by
  funext name
  by_cases e : name = p.1
  · rw [e, Function.update_self, mapOf_of_ne hn, lookup_append_self hnew]
    rfl
  · rw [Function.update_of_ne e]
    unfold mapOf
    rw [lookup_append_of_ne e]

theorem mapOf_erase (ha : NamesApart dir) (hj : dir[j]? = some (name, id)) (hn : name ≠ "") :
    mapOf efs (dir.set j dead) = Function.update (mapOf efs dir) name none := by
  funext name'
  by_cases e : name' = name
  · rw [e, Function.update_self, mapOf_of_ne hn, ha.lookup_erase_self hj hn]
    rfl
  · rw [Function.update_of_ne e]
    by_cases h0 : name' = ""
    · rw [mapOf, mapOf, if_pos h0, if_pos h0]
    · rw [mapOf_of_ne h0, mapOf_of_ne h0, lookup_erase_of_ne hj e h0]

/-- The names of an inode, as often as it has entries. -/
theorem ncard_namesOf (ha : NamesApart dir) (h0 : 0 < id) : (namesOf (mapOf efs dir) (efs.handle id)).ncard = names dir id := by
  have hlive : ∀ p ∈ dir.filter (fun p => p.2 == id), p ∈ dir ∧ p.1 ≠ "" ∧ p.2 = id := by
    intro p hp
    obtain ⟨hm, e⟩ := List.mem_filter.mp hp
    rw [beq_iff_eq] at e
    refine ⟨hm, fun h => ?_, e⟩
    have := ha.noName p hm h
    omega
  have hpair : dir.Pairwise fun p q => p.1 = q.1 → p.1 = "" := by
    rw [List.pairwise_iff_getElem]
    intro i j hi hj hij e
    by_contra hne
    have := ha.distinct i j _ _ (List.getElem?_eq_getElem hi) (List.getElem?_eq_getElem hj) e hne
    omega
  have hnodup : ((dir.filter fun p => p.2 == id).map Prod.fst).Nodup := by
    rw [List.Nodup, List.pairwise_map]
    refine List.Pairwise.imp_of_mem (fun hp _ himp e => ?_) (hpair.filter _)
    exact (hlive _ hp).2.1 (himp e)
  have hset : namesOf (mapOf efs dir) (efs.handle id) = (((dir.filter fun p => p.2 == id).map Prod.fst).toFinset : Set String) := by
    ext name
    simp only [List.coe_toFinset, List.mem_map, Set.mem_ofPred_eq]
    constructor
    · intro hm
      obtain ⟨hne, id', hl, e⟩ := mapOf_eq_some hm
      rw [← handle_inj e] at hl
      exact ⟨(name, id), List.mem_filter.mpr ⟨(ha.lookup_iff hne).mp hl, beq_self_eq_true id⟩, rfl⟩
    · intro hm
      obtain ⟨p, hp, rfl⟩ := hm
      obtain ⟨hmem, hne, rfl⟩ := hlive p hp
      exact (mapOf_handle hne).mpr ((ha.lookup_iff hne).mpr hmem)
  rw [hset, Set.ncard_coe_finset, List.toFinset_card_of_nodup hnodup, List.length_map, names, List.countP_eq_length_filter]

end MapOf

/-! ## Runs -/

section Runs

variable {efs : EasyFileSystem} {dev : BlockDevice Block} {m m' : Cached Block} {hs : List Inode} {s s' : Store Block}
  {k id total ibb : Nat} {dir : List Entry}

/-- The names on the disk are those of the map, and what a call did is what it means. -/
theorem NamesAt.law {k' : Nat} {dir' : List Entry} {call : Call} {r : Ret} (h : NamesAt efs dev m hs s k dir)
    (hc : NameCall efs s.blk call) (hstep : NameStep efs s.blk s'.blk k k' dir dir' call r) :
    mapOf efs dir' = namesAfter (mapOf efs dir) call r ∧ NameLaw efs s.blk s'.blk hs (mapOf efs dir) call r := by
  have hok := h.ns.ok
  have hpos := h.ns.pos
  -- files with a name are inodes other than the root
  have hnamed : ∀ name h, mapOf efs dir name = some h → ∃ id, 0 < id ∧ id < k ∧ dir.lookup name = some id ∧ h = efs.handle id := by
    intro name i hm
    obtain ⟨hne, id, hl, e⟩ := mapOf_eq_some hm
    exact ⟨id, hok.lookup_pos hl hne, hok.lookup_lt hl, hl, e⟩
  cases call with
  | root =>
    obtain ⟨rfl, -, hdir, hblk⟩ := hstep
    exact ⟨by rw [hdir]; rfl, rfl, hblk⟩
  | find i name =>
    obtain ⟨rfl, -, hdir, hblk⟩ := hstep
    exact ⟨by rw [hdir]; rfl, fun hne => by rw [mapOf_of_ne hne], hblk⟩
  | create i name =>
    obtain ⟨rfl, -, rfl, hempty, hkept⟩ := hstep
    have hnew := h.ns.absent_iff.mp hc.2.2
    refine ⟨mapOf_append hc.2.1.ne hnew, ⟨_, rfl, fun hmem => ?_, ?_, hempty⟩, fun n i' hm => ?_⟩
    · obtain ⟨id, hid, e⟩ := h.handles _ hmem
      exact absurd (handle_inj e) (Nat.ne_of_gt hid)
    · refine Set.eq_empty_of_forall_notMem fun n hm => ?_
      obtain ⟨id, -, hid, -, e⟩ := hnamed n _ hm
      exact absurd (handle_inj e) (Nat.ne_of_gt hid)
    · obtain ⟨id, h0, hid, -, rfl⟩ := hnamed n i' hm
      exact (hkept id hid (Nat.ne_of_gt h0)).content
  | link i old new =>
    have hnew := h.ns.absent_iff.mp hc.2.2.2
    have hold : mapOf efs dir old = (dir.lookup old).map efs.handle := mapOf_of_ne hc.2.1.ne
    obtain ⟨-, ⟨hl, rfl, hdir, hblk⟩ | ⟨id, hl, rfl, rfl, hkept⟩⟩ := hstep
    · have hnone : mapOf efs dir new = none := by
        rw [mapOf_of_ne hc.2.2.1.ne, hnew]
        rfl
      refine ⟨?_, ?_, fun n i' _ => by rw [hblk]⟩
      · rw [hdir, namesAfter, hold, hl, Option.map_none, ← hnone, Function.update_eq_self]
      · rw [hold, hl]
        rfl
    · refine ⟨?_, ?_, fun n i' hm => ?_⟩
      · rw [mapOf_append hc.2.2.1.ne hnew, namesAfter, hold, hl]
        rfl
      · rw [hold, hl]
        rfl
      · obtain ⟨id', h0, hid', -, rfl⟩ := hnamed n i' hm
        exact (hkept id' hid' (Nat.ne_of_gt h0)).content
  | unlink i name =>
    have hname : mapOf efs dir name = (dir.lookup name).map efs.handle := mapOf_of_ne hc.2.ne
    obtain ⟨-, ⟨hl, rfl, hdir, hblk⟩ | ⟨id, j, hl, hj, rfl, rfl, hkept, hlast⟩⟩ := hstep
    · have hnone : mapOf efs dir name = none := by
        rw [hname, hl]
        rfl
      refine ⟨?_, ?_, fun n i' _ _ => by rw [hblk], fun id hset => ?_⟩
      · rw [hdir, namesAfter, ← hnone, Function.update_eq_self]
      · rw [hnone]
        rfl
      · have hm : name ∈ namesOf (mapOf efs dir) (efs.handle id) := by rw [hset]; exact Set.mem_singleton name
        rw [show mapOf efs dir name = some (efs.handle id) from hm] at hnone
        cases hnone
    · have hself' : mapOf efs dir name = some (efs.handle id) := by
        rw [hname, hl]
        rfl
      have h0 := hok.lookup_pos hl hc.2.ne
      have hcount : (namesOf (mapOf efs dir) (efs.handle id)).ncard = names dir id := ncard_namesOf h.apart h0
      refine ⟨mapOf_erase h.apart hj hc.2.ne, ?_, fun n i' hne hm => ?_, fun id' hset => ?_⟩
      · rw [hself']
        rfl
      · obtain ⟨id', h0', hid', hl', rfl⟩ := hnamed n i' hm
        refine (hkept id' hid' (Nat.ne_of_gt h0') fun e hone => hne ?_).content
        -- two names of one inode
        rw [e] at hm
        rw [hone, Set.ncard_eq_one] at hcount
        obtain ⟨a, ha⟩ := hcount
        have hn : n ∈ namesOf (mapOf efs dir) (efs.handle id) := hm
        have hn' : name ∈ namesOf (mapOf efs dir) (efs.handle id) := hself'
        rw [ha] at hn hn'
        exact (Set.mem_singleton_iff.mp hn).trans (Set.mem_singleton_iff.mp hn').symm
      · have hm : name ∈ namesOf (mapOf efs dir) (efs.handle id') := by rw [hset]; exact Set.mem_singleton name
        have hid : id' = id := handle_inj (Option.some.inj ((show mapOf efs dir name = some (efs.handle id') from hm).symm.trans hself'))
        rw [hid] at hset ⊢
        rw [hset, Set.ncard_singleton] at hcount
        exact (hlast hcount.symm).2
  | readAt i off buf =>
    obtain ⟨hr, -, hdir, hblk⟩ := hstep
    exact ⟨by rw [hdir]; rfl, fun _ _ => hr, hblk⟩
  | writeAt i off buf =>
    obtain ⟨-, hdir, hkept⟩ := hstep
    refine ⟨by rw [hdir]; rfl, fun n i' hne hm => ?_⟩
    obtain ⟨id, h0, hid, -, rfl⟩ := hnamed n i' hm
    exact (hkept id hid (Nat.ne_of_gt h0) hne).content
  | clear i =>
    obtain ⟨-, hdir, hkept⟩ := hstep
    refine ⟨by rw [hdir]; rfl, fun n i' hne hm => ?_⟩
    obtain ⟨id, h0, hid, -, rfl⟩ := hnamed n i' hm
    exact (hkept id hid (Nat.ne_of_gt h0) hne).content

theorem NamesAt.agrees (h : NamesAt efs dev m hs s k dir) : Agrees efs m (mapOf efs dir) := by
  have hns := h.ns
  rw [← h.here.size] at hns
  refine ⟨?_, fun name hm => ?_, fun name hne => ?_, fun id hne => ?_⟩
  · refine (dir.map Prod.fst).toFinset.finite_toSet.subset fun name hm => ?_
    obtain ⟨i, hi⟩ := Option.ne_none_iff_exists'.mp hm
    obtain ⟨hne, id, hl, -⟩ := mapOf_eq_some hi
    rw [List.coe_toFinset]
    exact List.mem_map_of_mem (f := Prod.fst) (mem_of_lookup hl)
  · obtain ⟨i, hi⟩ := Option.ne_none_iff_exists'.mp hm
    obtain ⟨hne, id, hl, -⟩ := mapOf_eq_some hi
    exact ⟨hns.ok.fits _ (mem_of_lookup hl), hne⟩
  · have hfind := find_run hns.toRootDir hns.ok h.here.idle hns.toWf hns.pos (Nat.le_of_lt hns.below) name
    rw [← mapOf_of_ne hne] at hfind
    obtain ⟨m', hm', -⟩ := h.here.returns (.find (efs.handle 0) name) (r := .found (mapOf efs dir name))
      ((run_bind_of hfind).trans rfl)
    exact ⟨m', hm'⟩
  · obtain ⟨name, hm⟩ := hne
    obtain ⟨hn, id', hl, e⟩ := mapOf_eq_some hm
    obtain rfl := handle_inj e
    have h0 := hns.ok.lookup_pos hl hn
    rw [ncard_namesOf h.apart h0, h.here.dev_eq]
    exact hns.links id h0 (hns.ok.lookup_lt hl)

/-- The map that is kept next to a run is that of the entries on the disk. -/
theorem namedRun_map {N : NameMap} (ht : total < 2 ^ 32) (hslot : 0 < (layout .ch6 total ibb).slots)
    (h : NamedRun total ibb dev efs m hs N) : ∃ s k dir, NamesAt efs dev m hs s k dir ∧ N = mapOf efs dir := by
  induction h with
  | start h0 =>
    refine ⟨_, _, _, (namesAt_start ht hslot h0).2, ?_⟩
    funext name
    simp [mapOf]
  | step _ hself hc hs hr ih =>
    obtain ⟨s, k, dir, hn, rfl⟩ := ih
    rw [hn.here.dev_eq] at hc hs
    obtain ⟨s', k', dir', hn', hstep⟩ := hn.call hc hs hself hr
    exact ⟨s', k', dir', hn', (hn.law hc hstep).1.symm⟩

/-- Names, link counts and files are at every point of a run what the calls so far have made them. -/
theorem hard_links {N : NameMap} (ht : total < 2 ^ 32) (hslot : 0 < (layout .ch6 total ibb).slots)
    (h : NamedRun total ibb dev efs m hs N) :
    Agrees efs m N ∧ ∀ call r m', (∀ i, call.self? = some i → i ∈ hs) → NameCall efs m.w.dev.data call →
      InSlots efs m.w.dev.data call → runCached (call.exec efs) m = .ok (r, m') →
      NameLaw efs m.w.dev.data m'.w.dev.data hs N call r := by
  obtain ⟨s, k, dir, hn, rfl⟩ := namedRun_map ht hslot h
  refine ⟨hn.agrees, fun call r m' hself hc hs hr => ?_⟩
  rw [hn.here.dev_eq] at hc hs ⊢
  obtain ⟨s', k', dir', hn', hstep⟩ := hn.call hc hs hself hr
  rw [hn'.here.dev_eq]
  exact (hn.law hc hstep).2

/-- Every run of such calls has its map. -/
theorem FsRun.named (h : FsRun .ch6 total ibb dev (fun efs blk call => NameCall efs blk call ∧ InSlots efs blk call) efs m hs) :
    ∃ N, NamedRun total ibb dev efs m hs N := by
  induction h with
  | start h0 => exact ⟨_, .start h0⟩
  | step _ hself hg hr ih =>
    obtain ⟨N, hN⟩ := ih
    exact ⟨_, hN.step hself hg.1 hg.2 hr⟩

/-- A run that made a file `f`, linked it as `g` and took `f` again. -/
theorem hard_links_small : ∃ m hs N, NamedRun 1200 1 ⟨1200, fun _ => Blk.zero 512⟩ (layout .ch6 1200 1) m hs N ∧
    hs.length = 2 ∧ N "f" = none ∧ N "g" = some ((layout .ch6 1200 1).handle 1) ∧ Agrees (layout .ch6 1200 1) m N := by
  obtain ⟨-, hslots, -⟩ := small_names
  obtain ⟨m, hs, s, hrun, hlen, -, hn, -⟩ := renamed_file
    (G := fun efs blk call => NameCall efs blk call ∧ InSlots efs blk call) (fun _ => ⟨trivial, trivial⟩)
    (fun _ habs hnext => ⟨⟨rfl, validName_f, habs⟩, fun id hid => by rw [hslots]; exact hnext id hid⟩)
    (fun _ habs => ⟨⟨rfl, validName_f, validName_g, habs⟩, trivial⟩) (fun _ => ⟨⟨rfl, validName_f⟩, trivial⟩)
  obtain ⟨N, hN⟩ := hrun.named
  have hagree := (hard_links (by norm_num) (by omega) hN).1
  obtain ⟨s', k', dir', hn', rfl⟩ := namedRun_map (by norm_num) (by omega) hN
  -- both directories are the one on the disk
  have hlook : ∀ name, dir'.lookup name = List.lookup name [dead, ("g", 1)] := by
    intro name
    have hblk : s'.blk = s.blk := hn'.here.dev_eq.symm.trans hn.here.dev_eq
    refine Option.ext fun id => ?_
    rw [← hn'.ns.resolves_iff, hblk, hn.ns.resolves_iff]
  refine ⟨m, hs, _, hN, hlen, ?_, ?_, hagree⟩
  · rw [mapOf_of_ne (by decide), hlook]
    rfl
  · rw [mapOf_handle (by decide), hlook]
    rfl

end Runs

end TgRcore.EasyFs
