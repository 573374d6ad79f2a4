/-
  TgRcore.EasyFs.Readdir — the list of names that `readdir` returns (`vfs.rs`).

  `unlink` overwrites an entry with zeros and the directory keeps its length, `create` and
  `link` only append. `readdir` lists every entry, the dead ones by the empty name.
  - `dead_run`: the directory has a dead entry when a call of the run took a name, and from
    then on.
  - `lists_names_iff`: `readdir` returns the names there are, each once, exactly as long as
    no call of the run took a name.
  - `dead_names_listed`: a run after which no name is left and two are listed.
-/

import TgRcore.EasyFs.Recycling
import TgRcore.EasyFs.NameSafety

namespace TgRcore.EasyFs

open TgRcore.Bytes TgRcore.BlockProg TgRcore.BlockProg.Prog

/-! ## Runs -/

/-- The call was an `unlink` and has taken a name. -/
def takesName : Call → Ret → Bool
  | .unlink _ _, .flag b => b
  | _, _ => false

/-- Runs of `create`, `link` and `unlink` of valid names, new names absent; the flag is set
    once a name was taken. -/
inductive DirRun (total ibb : Nat) (dev : BlockDevice Block) : EasyFileSystem → Cached Block → List Inode → Bool → Prop
  | start {efs : EasyFileSystem} {m : Cached Block} :
      runCached (EasyFileSystem.create .ch6 total ibb) (boot dev) = .ok (efs, m) → DirRun total ibb dev efs m [] false
  | step {efs : EasyFileSystem} {m m' : Cached Block} {hs : List Inode} {taken : Bool} {call : Call} {r : Ret} :
      DirRun total ibb dev efs m hs taken → (∀ i, call.self? = some i → i ∈ hs) → DirCall efs m.w.dev.data call →
      InSlots efs m.w.dev.data call → runCached (call.exec efs) m = .ok (r, m') →
      DirRun total ibb dev efs m' (r.handles ++ hs) (taken || takesName call r)

/-- `readdir` returns the valid names that `find` finds, each once, and nothing else. -/
def ListsNames (efs : EasyFileSystem) (m : Cached Block) : Prop :=
  ∃ l, Lists efs m l ∧ l.Nodup ∧ ∀ x, x ∈ l ↔ ValidName x ∧ ∃ i, Finds efs m x (some i)

/-! ## Dead entries -/

section Entries

variable {efs : EasyFileSystem} {dir dir' : List Entry} {k k' j : Nat} {blk blk' : Nat → Block} {name : String}

theorem dead_mem_iff_empty (ha : NamesApart dir) : dead ∈ dir ↔ "" ∈ dir.map Prod.fst := by
  rw [List.mem_map]
  constructor
  · intro h
    exact ⟨dead, h, rfl⟩
  · rintro ⟨p, hp, e⟩
    have hp0 : p = dead := Prod.ext e (ha.noName p hp e)
    rw [← hp0]
    exact hp

/-- An entry that lives has a valid name. -/
theorem validName_of_mem (hd : DirOk dir k) (ha : NamesApart dir) (hdead : dead ∉ dir) {p : Entry} (hp : p ∈ dir) :
    ValidName p.1 := by
  exact ⟨hd.fits p hp, fun e => hdead ((dead_mem_iff_empty ha).mpr (List.mem_map.mpr ⟨p, hp, e⟩))⟩

theorem nodup_names (hd : DirOk dir k) (ha : NamesApart dir) (hdead : dead ∉ dir) : (dir.map Prod.fst).Nodup := by
  rw [List.Nodup, List.pairwise_map, List.pairwise_iff_getElem]
  intro i j hi hj hij e
  have hne := (validName_of_mem hd ha hdead (List.getElem_mem hi)).ne
  have := ha.distinct i j _ _ (List.getElem?_eq_getElem hi) (List.getElem?_eq_getElem hj) e hne
  omega

theorem dead_mem_append {p : Entry} (hn : p.1 ≠ "") : dead ∈ dir ++ [p] ↔ dead ∈ dir := by
  rw [List.mem_append, List.mem_singleton]
  exact or_iff_left fun e => hn (congrArg Prod.fst e).symm

/-- A dead entry stays dead, and one comes in when a name is taken. -/
theorem dead_mem_iff {call : Call} {r : Ret} (hc : DirCall efs blk call)
    (h : NameStep efs blk blk' k k' dir dir' call r) : dead ∈ dir' ↔ dead ∈ dir ∨ takesName call r = true := by
  cases call with
  | root =>
    obtain ⟨rfl, -, rfl, -⟩ := h
    simp [takesName]
  | create i name =>
    obtain ⟨rfl, -, rfl, -⟩ := h
    rw [dead_mem_append hc.2.1.ne]
    simp [takesName]
  | link i old new =>
    obtain ⟨-, ⟨-, rfl, rfl, -⟩ | ⟨id, -, rfl, rfl, -⟩⟩ := h
    · simp [takesName]
    · rw [dead_mem_append hc.2.2.1.ne]
      simp [takesName]
  | unlink i name =>
    obtain ⟨-, ⟨-, rfl, rfl, -⟩ | ⟨id, j, -, hj, rfl, rfl, -⟩⟩ := h
    · simp [takesName]
    · have hlt := (List.getElem?_eq_some_iff.mp hj).1
      exact iff_of_true (List.mem_set hlt dead) (.inr rfl)
  | _ => exact hc.elim

end Entries

/-! ## What is listed -/

section Runs

variable {dev : BlockDevice Block} {efs : EasyFileSystem} {m : Cached Block} {hs : List Inode} {s : Store Block} {k : Nat}
  {dir : List Entry} {total ibb : Nat} {taken : Bool}

/-- The names are listed when no entry is dead. -/
theorem NamesAt.listsNames_iff (h : NamesAt efs dev m hs s k dir) : ListsNames efs m ↔ dead ∉ dir := by
  have hf := h.fitAt
  constructor
  · rintro ⟨l, ⟨m₁, hl⟩, -, hmem⟩ hdead
    obtain ⟨m₂, hl₂⟩ := hf.lists
    rw [hl] at hl₂
    cases hl₂
    -- the dead entry is listed by the empty name
    exact ((hmem "").mp (List.mem_map.mpr ⟨dead, hdead, rfl⟩)).1.ne rfl
  · intro hdead
    refine ⟨_, hf.lists, nodup_names h.ns.ok h.apart hdead, fun x => ?_⟩
    constructor
    · intro hx
      obtain ⟨p, hp, rfl⟩ := List.mem_map.mp hx
      have hv := validName_of_mem h.ns.ok h.apart hdead hp
      have hl : dir.lookup p.1 = some p.2 := (h.apart.lookup_iff hv.ne).mpr hp
      exact ⟨hv, _, hf.finds_iff.mpr (by rw [hl]; rfl)⟩
    · rintro ⟨hv, i, hi⟩
      have hfound := hf.finds_iff.mp hi
      cases hl : dir.lookup x with
      | none =>
        rw [hl] at hfound
        cases hfound
      | some id => exact List.mem_map.mpr ⟨_, mem_of_lookup hl, rfl⟩

theorem dead_run (ht : total < 2 ^ 32) (hslot : 0 < (layout .ch6 total ibb).slots)
    (h : DirRun total ibb dev efs m hs taken) :
    ∃ s k dir, NamesAt efs dev m hs s k dir ∧ (dead ∈ dir ↔ taken = true) := by
  induction h with
  | start h0 => exact ⟨_, _, _, (namesAt_start ht hslot h0).2, by simp⟩
  | step _ hself hc hs hr ih =>
    obtain ⟨s, k, dir, hn, hdead⟩ := ih
    rw [hn.here.dev_eq] at hc hs
    obtain ⟨s', k', dir', hn', hstep⟩ := hn.call hc.nameCall hs hself hr
    exact ⟨s', k', dir', hn', by rw [dead_mem_iff hc hstep, hdead, Bool.or_eq_true]⟩

/-- `readdir` lists the names there are exactly as long as none was taken. -/
theorem lists_names_iff (ht : total < 2 ^ 32) (hslot : 0 < (layout .ch6 total ibb).slots)
    (h : DirRun total ibb dev efs m hs taken) : ListsNames efs m ↔ taken = false := by
  obtain ⟨s, k, dir, hn, hdead⟩ := dead_run ht hslot h
  rw [hn.listsNames_iff, hdead, Bool.not_eq_true]

/-- The flag of a run, from the entries on the disk. -/
theorem DirRun.taken_iff (ht : total < 2 ^ 32) (hslot : 0 < (layout .ch6 total ibb).slots)
    (h : DirRun total ibb dev efs m hs taken) (hn : NamesAt efs dev m hs s k dir) : taken = true ↔ dead ∈ dir := by
  obtain ⟨s', k', dir', hn', hdead⟩ := dead_run ht hslot h
  obtain ⟨m₁, hl⟩ := hn.fitAt.lists
  obtain ⟨m₂, hl'⟩ := hn'.fitAt.lists
  have hnames : dir.map Prod.fst = dir'.map Prod.fst := by
    rw [hl] at hl'
    exact (Prod.mk.inj (Except.ok.inj hl')).1
  rw [← hdead, dead_mem_iff_empty hn'.apart, dead_mem_iff_empty hn.apart, hnames]

/-- Every run of such calls has its flag. -/
theorem FsRun.dirRun (h : FsRun .ch6 total ibb dev (fun efs blk call => DirCall efs blk call ∧ InSlots efs blk call) efs m hs) :
    ∃ taken, DirRun total ibb dev efs m hs taken := by
  induction h with
  | start h0 => exact ⟨_, .start h0⟩
  | step _ hself hg hr ih =>
    obtain ⟨taken, hd⟩ := ih
    exact ⟨_, hd.step hself hg.1 hg.2 hr⟩

/-! ## On a small device -/

/-- After `create` of the file `f`, the file is listed. -/
theorem lists_names_one : ∃ m hs, DirRun 1200 1 ⟨1200, fun _ => Blk.zero 512⟩ (layout .ch6 1200 1) m hs false ∧
    hs.length = 2 ∧ ListsNames (layout .ch6 1200 1) m := by
  obtain ⟨-, hslots, -⟩ := small_names
  obtain ⟨m, hs, s, hrun, hlen, -, hn, -⟩ := first_file (G := fun efs blk call => DirCall efs blk call ∧ InSlots efs blk call)
    (fun _ => ⟨trivial, trivial⟩)
    (fun _ habs hnext => ⟨⟨rfl, validName_f, habs⟩, fun id hid => by rw [hslots]; exact hnext id hid⟩)
  obtain ⟨taken, hd⟩ := hrun.dirRun
  have hflag := hd.taken_iff (by norm_num) (by omega) hn
  obtain rfl : taken = false := by
    rw [← Bool.not_eq_true, hflag]
    decide
  exact ⟨m, hs, hd, hlen, (lists_names_iff (by norm_num) (by omega) hd).mpr rfl⟩

/-- A file `f` is made, linked as `g`, and both names are taken again: no name is left, and
    the empty name is listed twice. -/
theorem dead_names_listed : ∃ m hs, FsRun .ch6 1200 1 ⟨1200, fun _ => Blk.zero 512⟩
      (fun efs blk call => DirCall efs blk call ∧ InSlots efs blk call) (layout .ch6 1200 1) m hs ∧
    Lists (layout .ch6 1200 1) m ["", ""] ∧ ¬ ListsNames (layout .ch6 1200 1) m := by
  obtain ⟨-, hslots, -⟩ := small_names
  obtain ⟨m, hs, s, hrun, -, hroot, hn, hempty⟩ := renamed_file
    (G := fun efs blk call => DirCall efs blk call ∧ InSlots efs blk call) (fun _ => ⟨trivial, trivial⟩)
    (fun _ habs hnext => ⟨⟨rfl, validName_f, habs⟩, fun id hid => by rw [hslots]; exact hnext id hid⟩)
    (fun _ habs => ⟨⟨rfl, validName_f, validName_g, habs⟩, trivial⟩) (fun _ => ⟨⟨rfl, validName_f⟩, trivial⟩)
  have hz : ((layout .ch6 1200 1).inodeAt s.blk 1).size = 0 := by
    rw [← length_content _ s.blk]
    exact congrArg List.length hempty
  -- the second name goes too
  obtain ⟨m', s', j, hm', hj, hn', -⟩ := hn.take validName_g
    (show List.lookup "g" [dead, ("g", 1)] = some 1 from rfl) hroot fun _ b hb => by
      rw [show (layout .ch6 1200 1).treeAt s.blk 1 = [] from tree_of_size_zero hz _] at hb
      cases hb
  obtain rfl := hn.apart.distinct j 1 _ _ hj rfl rfl (by decide)
  have hself : ∀ i, (Call.unlink ((layout .ch6 1200 1).handle 0) "g").self? = some i → i ∈ hs := fun i hi => by
    cases hi
    exact hroot
  exact ⟨m', _, hrun.step hself ⟨⟨rfl, validName_g⟩, trivial⟩ hm', hn'.fitAt.lists,
    fun h => hn'.listsNames_iff.mp h (by decide)⟩

end Runs

end TgRcore.EasyFs
