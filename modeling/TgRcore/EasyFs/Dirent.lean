/-
  TgRcore.EasyFs.Dirent — directories as lists of entries (`DirEntry` of `layout.rs`, the
  search of `vfs.rs`).

  An entry is a name and an inode number. A removed entry is `dead`: its 32 bytes are zero,
  so it decodes as the empty name and inode 0.
  - `getName_dirent`, `ofBytes_bytes`: an entry whose name fits is read back as it was
    written.
  - `findLoop_run`: the search over the entries on disk is the search over the list.
  - `findLoop_ok`: in a directory with any contents, a search that returned an entry
    returned the first one with the name.
-/

import TgRcore.EasyFs.Growth

namespace TgRcore.EasyFs

open TgRcore.Bytes TgRcore.BlockProg TgRcore.BlockProg.Prog

/-- A name and an inode number. -/
abbrev Entry := String × Nat

/-- A name that a directory entry can hold: at most 27 bytes, none of them NUL. -/
structure NameFits (name : String) : Prop where
  len : (strBytes name).length ≤ 27
  noNul : ∀ b ∈ strBytes name, b ≠ 0

/-- The names the calls are made with. -/
structure ValidName (name : String) : Prop extends NameFits name where
  ne : name ≠ ""

/-- The entry that `unlink` leaves behind. -/
def dead : Entry := ("", 0)

def Entry.bytes (p : Entry) : List UInt8 := direntBytes p.1 p.2

def dirBytes (dir : List Entry) : List UInt8 := dir.flatMap Entry.bytes

/-! ## One entry -/

section Dirent

/-- The `DirEntry` of an entry. -/
def dirent (p : Entry) : DirEntry := ⟨Blk.tab 28 fun i => (strBytes p.1).getD i 0, p.2⟩

theorem length_bytes (p : Entry) : p.bytes.length = 32 := length_asBytes _

theorem nameFits_empty : NameFits "" := by
  have hb : strBytes "" = [] := rfl
  refine ⟨?_, ?_⟩
  · rw [hb]
    simp
  · rw [hb]
    simp

theorem dead_bytes : dead.bytes = DirEntry.empty.asBytes := rfl

theorem strBytes_toByteArray (name : String) : (strBytes name).toByteArray = name.toByteArray := by
  apply ByteArray.ext
  rw [List.data_toByteArray]
  exact Array.toArray_toList

theorem fromUTF8_strBytes (name : String) : String.fromUTF8? (strBytes name).toByteArray = some name := by
  rw [strBytes_toByteArray, String.fromUTF8?, dif_pos name.isValidUTF8]
  rfl

theorem byte_dirent (p : Entry) {i : Nat} (h : i < 28) : (dirent p).name.byte i = (strBytes p.1).getD i 0 := by
  rw [dirent, Blk.byte_tab _ h]

/-- The name ends at the first NUL. -/
theorem find_nul {p : Entry} (h : NameFits p.1) :
    ((List.range 28).find? fun i => (dirent p).name.byte i == 0) = some (strBytes p.1).length := by
  have hlen := h.len
  rw [List.find?_range_eq_some]
  refine ⟨?_, List.mem_range.mpr (by omega), fun j hj => ?_⟩
  · rw [byte_dirent p (by omega), List.getD_eq_default _ _ (Nat.le_refl _)]
    rfl
  · rw [byte_dirent p (by omega), List.getD_eq_getElem _ _ hj]
    have := h.noNul _ (List.getElem_mem hj)
    simpa using this

theorem getName_dirent {p : Entry} (h : NameFits p.1) : (dirent p).getName = ret p.1 := by
  have hbytes : (List.range (strBytes p.1).length).map (dirent p).name.byte = strBytes p.1 := by
    refine List.ext_getElem (by simp) fun i h1 h2 => ?_
    have hlen := h.len
    rw [List.getElem_map, List.getElem_range, byte_dirent p (by omega), List.getD_eq_getElem _ _ h2]
  rw [DirEntry.getName, find_nul h]
  show unwrap (String.fromUTF8? ((List.range (strBytes p.1).length).map (dirent p).name.byte).toByteArray) = ret p.1
  rw [hbytes, fromUTF8_strBytes]
  rfl

/-- An entry is read back from its bytes. -/
theorem ofBytes_asBytes {e : DirEntry} (h : e.inodeNumber < 2 ^ 32) : DirEntry.ofBytes e.asBytes = e := by
  have hname : ∀ i < 28, e.asBytes.getD i 0 = e.name.byte i := by
    intro i hi
    rw [DirEntry.asBytes, List.getD_append _ _ _ _ (by simpa using hi), List.getD_eq_getElem _ _ (by simpa using hi),
      List.getElem_map, List.getElem_range]
  have hnum : ∀ k < 4, e.asBytes.getD (28 + k) 0 = leByte e.inodeNumber k := by
    intro k hk
    have hlen : ((List.range 28).map e.name.byte).length = 28 := by simp
    rw [DirEntry.asBytes, List.getD_append_right _ _ _ _ (by omega), hlen, Nat.add_sub_cancel_left,
      List.getD_eq_getElem _ _ (by simpa using hk), List.getElem_map, List.getElem_range]
  have h1 : Blk.tab 28 (fun i => e.asBytes.getD i 0) = e.name := by
    refine Blk.ext_byte fun i hi => ?_
    rw [Blk.byte_tab _ hi, hname i hi]
  have h2 : le (fun k => e.asBytes.getD (28 + k) 0) 4 = e.inodeNumber := by
    rw [le_congr hnum, le_leByte4 h]
  rw [DirEntry.ofBytes, h1, h2]

theorem ofBytes_bytes {p : Entry} (h : p.2 < 2 ^ 32) : DirEntry.ofBytes p.bytes = dirent p :=
  ofBytes_asBytes (e := dirent p) h

end Dirent

/-! ## A list of entries -/

section Entries

variable {dir : List Entry} {i : Nat}

theorem dirBytes_cons (p : Entry) (dir : List Entry) : dirBytes (p :: dir) = p.bytes ++ dirBytes dir := List.flatMap_cons

theorem dirBytes_singleton (p : Entry) : dirBytes [p] = p.bytes := List.flatMap_singleton _ _

theorem length_dirBytes (dir : List Entry) : (dirBytes dir).length = 32 * dir.length := by
  induction dir with
  | nil => rfl
  | cons p dir ih =>
    rw [dirBytes_cons, List.length_append, length_bytes, ih, List.length_cons]
    omega

theorem dirBytes_append (dir dir' : List Entry) : dirBytes (dir ++ dir') = dirBytes dir ++ dirBytes dir' :=
  List.flatMap_append

theorem take_dirBytes (dir : List Entry) (i : Nat) : (dirBytes dir).take (32 * i) = dirBytes (dir.take i) := by
  induction i generalizing dir with
  | zero => rfl
  | succ i ih =>
    cases dir with
    | nil => rfl
    | cons p dir =>
      rw [dirBytes_cons, List.take_append, length_bytes, List.take_of_length_le (by rw [length_bytes]; omega),
        show 32 * (i + 1) - 32 = 32 * i by omega, ih]
      rfl

theorem drop_dirBytes (dir : List Entry) (i : Nat) : (dirBytes dir).drop (32 * i) = dirBytes (dir.drop i) := by
  induction i generalizing dir with
  | zero => rfl
  | succ i ih =>
    cases dir with
    | nil => rfl
    | cons p dir =>
      rw [dirBytes_cons, List.drop_append, length_bytes, List.drop_of_length_le (by rw [length_bytes]; omega),
        show 32 * (i + 1) - 32 = 32 * i by omega, ih]
      rfl

/-- The bytes of entry `i`. -/
theorem window_dirBytes (h : i < dir.length) : ((dirBytes dir).drop (32 * i)).take 32 = dir[i].bytes := by
  rw [drop_dirBytes, List.drop_eq_getElem_cons h, dirBytes_cons, List.take_append, length_bytes, List.take_of_length_le (by rw [length_bytes])]
  simp

/-- Writing an entry over another one. -/
theorem overwrite_dirBytes (p : Entry) (h : i < dir.length) :
    overwrite (dirBytes dir) (32 * i) p.bytes = dirBytes (dir.set i p) := by
  have hlen := length_dirBytes dir
  rw [overwrite, length_bytes, show 32 * i + 32 = 32 * (i + 1) by omega, take_dirBytes, drop_dirBytes,
    show 32 * i - (dirBytes dir).length = 0 by omega, List.replicate_zero, List.append_nil,
    List.set_eq_take_append_cons_drop, if_pos h, dirBytes_append, dirBytes_cons, List.append_assoc]

end Entries

/-! ## The search -/

/-- The first entry called `name`, with its index, of the entries from `i` on. -/
def firstAt (name : String) : List Entry → Nat → Option (Nat × Entry)
  | [], _ => none
  | p :: dir, i => if p.1 = name then some (i, p) else firstAt name dir (i + 1)

section Search

variable {name : String} {dir : List Entry} {i j : Nat} {p : Entry}

theorem firstAt_lookup (name : String) (dir : List Entry) (i : Nat) :
    (firstAt name dir i).map (fun x => x.2.2) = dir.lookup name := by
  induction dir generalizing i with
  | nil => rfl
  | cons p dir ih =>
    rw [firstAt, List.lookup_cons]
    by_cases h : p.1 = name
    · rw [if_pos h, beq_iff_eq.mpr h.symm]
      rfl
    · rw [if_neg h, ih, beq_false_of_ne fun e => h e.symm]

/-- What the search finds: an entry with the name, and none with the name before it. -/
theorem firstAt_some (h : firstAt name dir i = some (j, p)) :
    ∃ n, j = i + n ∧ dir[n]? = some p ∧ p.1 = name := by
  induction dir generalizing i with
  | nil => cases h
  | cons q dir ih =>
    rw [firstAt] at h
    split at h
    · rename_i he
      cases h
      exact ⟨0, rfl, rfl, he⟩
    · obtain ⟨n, h1, h2, h3⟩ := ih h
      exact ⟨n + 1, by omega, h2, h3⟩

variable {s : Store Block} {d : DiskInode}

/-- Entry `i` of a directory whose bytes are those of `dir`. -/
theorem readDirent_run (hs : d.dataBlocks ≤ 16540) (hf : ∀ b ∈ tree d s.blk, s.Free b) (hc : content d s.blk = dirBytes dir)
    (hi : i < dir.length) (hp : dir[i].2 < 2 ^ 32) : (Inode.readDirent d i).run s = .ok (dirent dir[i], s) := by
  have hlen : d.size = 32 * dir.length := by rw [← length_content d s.blk, hc, length_dirBytes]
  have h32 : DirEntry.empty.asBytes.length = 32 := length_asBytes _
  have hsmall := hs
  unfold DiskInode.dataBlocks DiskInode.dataBlocksOf at hsmall
  have h64 : 32 * i + DirEntry.empty.asBytes.length < 2 ^ 64 := by
    rw [h32]
    omega
  have hrd := readAt_run hs hf h64
  rw [h32, hc, window_dirBytes hi, show min (32 * i + 32) d.size - 32 * i = 32 by omega,
    List.drop_of_length_le (Nat.le_of_eq h32), List.append_nil] at hrd
  rw [Inode.readDirent, run_bind_of hrd]
  dsimp only
  rw [assert_true (show (32 : Nat) = 32 from rfl), ret_bind, ofBytes_bytes hp]
  rfl

theorem findLoop_run (hs : d.dataBlocks ≤ 16540) (hf : ∀ b ∈ tree d s.blk, s.Free b) (hc : content d s.blk = dirBytes dir)
    (hn : ∀ p ∈ dir, NameFits p.1) (hp : ∀ p ∈ dir, p.2 < 2 ^ 32) (name : String) (n i : Nat) (hi : i + n = dir.length) :
    (Inode.findLoop d name n i).run s =
      .ok ((firstAt name (dir.drop i) i).map fun x => (x.1, dirent x.2), s) := by
  induction n generalizing i with
  | zero =>
    rw [List.drop_of_length_le (by omega)]
    rfl
  | succ n ih =>
    have hlt : i < dir.length := by omega
    have hmem : dir[i] ∈ dir := List.getElem_mem hlt
    rw [Inode.findLoop, run_bind_of (readDirent_run hs hf hc hlt (hp _ hmem)), getName_dirent (hn _ hmem), ret_bind,
      List.drop_eq_getElem_cons hlt, firstAt]
    split
    · rfl
    · exact ih (i + 1) (by omega)

/-- Every entry is listed, in order. -/
theorem readdirLoop_run (hs : d.dataBlocks ≤ 16540) (hf : ∀ b ∈ tree d s.blk, s.Free b) (hc : content d s.blk = dirBytes dir)
    (hn : ∀ p ∈ dir, NameFits p.1) (hp : ∀ p ∈ dir, p.2 < 2 ^ 32) (n i : Nat) (hi : i + n = dir.length) :
    (Inode.readdirLoop d n i).run s = .ok ((dir.drop i).map Prod.fst, s) := by
  induction n generalizing i with
  | zero =>
    rw [List.drop_of_length_le (by omega)]
    rfl
  | succ n ih =>
    have hlt : i < dir.length := by omega
    have hmem : dir[i] ∈ dir := List.getElem_mem hlt
    rw [Inode.readdirLoop, run_bind_of (readDirent_run hs hf hc hlt (hp _ hmem)), getName_dirent (hn _ hmem), ret_bind,
      run_bind_of (ih (i + 1) (by omega)), List.drop_eq_getElem_cons hlt]
    rfl

end Search

/-! ## Any directory -/

/-- Entry `j` of a directory with the contents `c`. -/
def entryAt (c : List UInt8) (j : Nat) : DirEntry := DirEntry.ofBytes ((c.drop (32 * j)).take 32)

theorem entryAt_dirBytes {dir : List Entry} {j : Nat} {p : Entry} (hj : dir[j]? = some p) (hp : p.2 < 2 ^ 32) :
    entryAt (dirBytes dir) j = dirent p := by
  obtain ⟨hlt, e⟩ := List.getElem?_eq_some_iff.mp hj
  rw [entryAt, window_dirBytes hlt, e, ofBytes_bytes hp]

/-- Entry `j` is the first one called `name`. -/
structure FirstNamed (c : List UInt8) (name : String) (j : Nat) : Prop where
  lt : j < c.length / 32
  called : (entryAt c j).getName = ret name
  first : ∀ i < j, (entryAt c i).getName ≠ ret name

section Contents

variable {s s' : Store Block} {d : DiskInode} {size i j : Nat} {e : DirEntry} {name : String}

theorem getName_ok (h : e.getName.run s = .ok (name, s')) : e.getName = ret name ∧ s' = s := by
  have key : ∀ p : Fs String, (∃ x, p = ret x) ∨ p = .panic → p.run s = .ok (name, s') → p = ret name ∧ s' = s := by
    intro p hp hr
    rcases hp with ⟨x, rfl⟩ | rfl
    · cases hr
      exact ⟨rfl, rfl⟩
    · cases hr
  refine key _ ?_ h
  unfold DirEntry.getName
  cases (List.range 28).find? fun i => e.name.byte i == 0 with
  | none => exact .inr rfl
  | some len =>
    rw [unwrap, ret_bind]
    cases String.fromUTF8? ((List.range len).map e.name.byte).toByteArray with
    | none => exact .inr rfl
    | some x => exact .inl ⟨x, rfl⟩

/-- Blocks past the end of the device do not come into what a read that returned got. -/
theorem readDirent_ok (hs : d.dataBlocks ≤ 16540) (hn : s.size ≤ size)
    (hf : ∀ b ∈ tree d s.blk, ({ s with size := size } : Store Block).Free b) (h : (Inode.readDirent d i).run s = .ok (e, s')) :
    e = entryAt (content d s.blk) i ∧ s' = s := by
  obtain ⟨⟨n, bytes⟩, s₁, h1, h⟩ := run_bind_ok.mp h
  have h32 : DirEntry.empty.asBytes.length = 32 := length_asBytes _
  have h64 : 32 * i + DirEntry.empty.asBytes.length < 2 ^ 64 := by
    have h2 := h1
    rw [DiskInode.readAt] at h2
    exact (run_assert_bind_ok.mp h2).1
  obtain ⟨he, rfl⟩ := run_of_grow (g := s.blk) h1 hn (readAt_run hs hf h64)
  obtain ⟨hall, h⟩ := run_assert_bind_ok.mp h
  rw [pure_eq_ret, run_ret, Except.ok.injEq, Prod.mk.injEq] at h
  obtain ⟨rfl, rfl⟩ := h
  obtain ⟨he₁, he₂⟩ := Prod.mk.inj he
  rw [← he₁, hall, h32, List.drop_of_length_le (Nat.le_of_eq h32), List.append_nil] at he₂
  rw [he₂, entryAt]
  exact ⟨rfl, rfl⟩

theorem findLoop_ok (hs : d.dataBlocks ≤ 16540) (hn : s.size ≤ size)
    (hf : ∀ b ∈ tree d s.blk, ({ s with size := size } : Store Block).Free b) {n : Nat} (hi : i + n = d.size / 32)
    (hbefore : ∀ l < i, (entryAt (content d s.blk) l).getName ≠ ret name)
    (h : (Inode.findLoop d name n i).run s = .ok (some (j, e), s')) :
    FirstNamed (content d s.blk) name j ∧ e = entryAt (content d s.blk) j := by
  induction n generalizing i with
  | zero => cases h
  | succ n ih =>
    obtain ⟨e₁, s₁, h1, h⟩ := run_bind_ok.mp h
    obtain ⟨rfl, rfl⟩ := readDirent_ok hs hn hf h1
    obtain ⟨en, s₂, h2, h⟩ := run_bind_ok.mp h
    obtain ⟨hname, rfl⟩ := getName_ok h2
    split at h
    · rename_i e
      cases h
      rw [e] at hname
      exact ⟨⟨by rw [length_content]; omega, hname, hbefore⟩, rfl⟩
    · rename_i hne
      refine ih (by omega) (fun l hl => ?_) h
      rcases Nat.lt_succ_iff_lt_or_eq.mp hl with h3 | rfl
      · exact hbefore l h3
      · rw [hname]
        intro e
        cases e
        exact hne rfl

theorem findInodeId_ok (hs : d.dataBlocks ≤ 16540) (hn : s.size ≤ size)
    (hf : ∀ b ∈ tree d s.blk, ({ s with size := size } : Store Block).Free b) {id : Nat}
    (h : (Inode.findInodeId name d).run s = .ok (some id, s')) :
    ∃ j, FirstNamed (content d s.blk) name j ∧ (entryAt (content d s.blk) j).inodeNumber = id := by
  obtain ⟨-, h⟩ := run_assert_bind_ok.mp h
  obtain ⟨o, s₁, h1, h⟩ := run_bind_ok.mp h
  cases o with
  | none => cases h
  | some p =>
    cases h
    obtain ⟨hfirst, he⟩ := findLoop_ok hs hn hf (Nat.zero_add _) (by simp) h1
    exact ⟨_, hfirst, by rw [← he]⟩

end Contents

end TgRcore.EasyFs
