import Mathlib.Data.Fintype.Card
import Alphabox.Storage.PlainDisk

/-!
# The overlay file

`Image base file map used d`: `file` is an overlay file over `base` with the cluster map `map` and
`used` slots, and what it stands for is the disk `d`. Each of the three kinds of file write takes
an image to an image (`Image.copySlot`, `Image.setEntry`, `Image.writePiece`), and opening one
gives back its map (`Image.load`).
-/

namespace Alphabox.Storage

open Lib DiskOverlay

/-! ## Byte order -/

theorem get32_take (p : List UInt8) : get32 (p.take 4) = get32 p := by
  simp [get32, List.getD]

/-- Bits above those of `a` are added to it. -/
theorem or_shiftLeft_eq_add {a k : Nat} (b : Nat) (ha : a < 2 ^ k) :
    a ||| b <<< k = a + b * 2 ^ k := by
  rw [Nat.or_comm, ← Nat.shiftLeft_add_eq_or_of_lt ha, Nat.shiftLeft_eq, Nat.add_comm]

theorem get32_put32 (v : Nat) : get32 (put32 v) = v % 2 ^ 32 := by
  have hb (i : Nat) (hi : i < 4) : ((put32 v).getD i 0).toNat = v / 2 ^ (8 * i) % 2 ^ 8 := by
    simp [put32, List.getD, hi, Nat.shiftRight_eq_div_pow]
  rw [get32, hb 0 (by decide), hb 1 (by decide), hb 2 (by decide), hb 3 (by decide),
    or_shiftLeft_eq_add (k := 8) _ (by omega), or_shiftLeft_eq_add (k := 16) _ (by omega),
    or_shiftLeft_eq_add (k := 24) _ (by omega)]
  omega

theorem get32_of_take {p : List UInt8} {v : Nat} (h : p.take 4 = put32 v) (hv : v < 2 ^ 32) :
    get32 p = v := by
  rw [← get32_take, h, get32_put32, Nat.mod_eq_of_lt hv]

theorem get64_of_take {p : List UInt8} {v : Nat} (h : p.take 8 = put64 v) (hv : v < 2 ^ 64) :
    get64 p = v := by
  have hl : p.take 4 = put32 v := by
    have h4 : p.take 4 = (p.take 8).take 4 := by simp [List.take_take]
    rw [h4, h]
    rfl
  have hh : (p.drop 4).take 4 = put32 (v >>> 32) := by
    have h4 : (p.drop 4).take 4 = (p.take 8).drop 4 := by simp [List.drop_take]
    rw [h4, h]
    simp only [put64, put32, List.range, List.range.loop, List.map, List.drop]
    simp only [← Nat.shiftRight_add]
  have hlo : get32 p = v % 2 ^ 32 := by rw [← get32_take, hl, get32_put32]
  have hhi : get32 (p.drop 4) = v / 2 ^ 32 := by
    rw [get32_of_take hh] <;> rw [Nat.shiftRight_eq_div_pow]
    omega
  rw [get64, hlo, hhi, or_shiftLeft_eq_add _ (by omega)]
  omega

@[simp] theorem length_put32 (v : Nat) : (put32 v).length = 4 := by simp [put32]

@[simp] theorem length_put64 (v : Nat) : (put64 v).length = 8 := by simp [put64]

/-! ## Geometry -/

/-- The largest base whose clusters a `u32` can count. -/
def maxBase : Nat := (2 ^ 32 - 1) * kCluster

theorem clusterCount_eq {S : Nat} (h : S ≤ maxBase) :
    clusterCount S = (S + kCluster - 1) / kCluster := by
  simp only [maxBase, clusterCount, u32, kCluster] at *
  omega

theorem clusterCount_lt (S : Nat) : clusterCount S < 2 ^ 32 := Nat.mod_lt _ (by decide)

theorem le_dataStartOf (C : Nat) : kMapStart + C * 4 ≤ dataStartOf C := by
  simp only [dataStartOf, kMapStart, kCluster]
  omega

theorem slotOf_succ {m : Nat} (h : m + 1 < 2 ^ 32) : slotOf (m + 1) = m := by
  simp only [slotOf, u32]
  omega

theorem tagCluster_isSome (base : File) {pos : Nat} (hp : pos ≤ base.size) (h : UInt64) :
    ∃ tag, tagCluster base base.size h pos = some tag := by
  rw [tagCluster, File.readAt_eq (by omega)]
  exact ⟨_, rfl⟩

/-- A base of the size given can be hashed. -/
theorem baseTag_isSome (base : File) : ∃ tag, baseTag base base.size = some tag := by
  obtain ⟨h, hh⟩ := tagCluster_isSome base (Nat.zero_le _) 0xcbf29ce484222325
  rw [baseTag, hh]
  refine tagCluster_isSome base ?_ h
  split <;> omega

/-! ## Images -/

structure Image (base file : File) (map : Array Nat) (used : Nat) (d : File) : Prop where
  size_map : map.size = clusterCount base.size
  header : ∃ tag, baseTag base base.size = some tag ∧
    file.slice 0 36 = header base.size tag.toNat
  room : dataStartOf (clusterCount base.size) + used * kCluster ≤ file.size
  entry : ∀ (c m : Nat), map[c]? = some m → file.slice (kMapStart + c * 4) 4 = put32 m
  le_used : ∀ (c m : Nat), map[c]? = some m → m ≤ used
  inj : ∀ (c c' m : Nat), map[c]? = some (m + 1) → map[c']? = some (m + 1) → c = c'
  onto : ∀ s < used, ∃ c : Nat, map[c]? = some (s + 1)
  size_disk : d.size = base.size
  /-- A cluster without a slot is the base's. -/
  unmapped : ∀ i < base.size, map[i / kCluster]? = some 0 → d.byte i = base.byte i
  /-- A cluster with a slot is there. -/
  mapped : ∀ i < base.size, ∀ m, map[i / kCluster]? = some (m + 1) →
    d.byte i = file.byte (dataStartOf (clusterCount base.size) + m * kCluster + i % kCluster)

variable {base file d : File} {map : Array Nat} {used c m : Nat}

namespace Image

theorem lt_size (h : Image base file map used d) (hc : map[c]? = some m) :
    c < clusterCount base.size :=
  h.size_map ▸ (Array.getElem?_eq_some_iff.mp hc).1

/-- Each slot has a cluster of its own. -/
theorem owner (h : Image base file map used d) :
    ∃ f : Fin used → Fin (clusterCount base.size), Function.Injective f ∧
      ∀ s, map[(f s).val]? = some (s.val + 1) := by
  choose g hg using h.onto
  refine ⟨fun s => ⟨g s s.2, h.lt_size (hg s s.2)⟩, ?_, fun s => hg s s.2⟩
  intro s t hst
  have hs := hg s s.2
  have he : g s s.2 = g t t.2 := congrArg Fin.val hst
  rw [he, hg t t.2] at hs
  exact Fin.ext (Nat.add_right_cancel (Option.some.inj hs)).symm

theorem used_le (h : Image base file map used d) : used ≤ clusterCount base.size := by
  obtain ⟨f, hf, -⟩ := h.owner
  simpa using Fintype.card_le_of_injective f hf

/-- A cluster without a slot leaves one for it. -/
theorem used_lt (h : Image base file map used d) (hc : map[c]? = some 0) :
    used < clusterCount base.size := by
  obtain ⟨f, hf, hm⟩ := h.owner
  have hn : (⟨c, h.lt_size hc⟩ : Fin (clusterCount base.size)) ∉ Set.range f := by
    rintro ⟨s, hs⟩
    have hs' := hm s
    simp only [hs, hc, Option.some.injEq] at hs'
    omega
  simpa using Fintype.card_lt_of_injective_of_notMem f hf hn

theorem entry_lt (h : Image base file map used d) (hc : map[c]? = some m) : m < 2 ^ 32 :=
  Nat.lt_of_le_of_lt ((h.le_used c m hc).trans h.used_le) (clusterCount_lt _)

/-! ### File writes -/

/-- The copy of a cluster goes to the next free slot, which no cluster has. -/
theorem copySlot (h : Image base file map used d) {buf : List UInt8} (hb : buf.length = kCluster) :
    Image base (file.writeAt (dataStartOf (clusterCount base.size) + used * kCluster) buf) map used
      d := by
  have hD := le_dataStartOf (clusterCount base.size)
  have hK : kMapStart = 4096 := rfl
  refine ⟨h.size_map, ?_, h.room.trans File.size_le_writeAt, ?_, h.le_used, h.inj, h.onto,
    h.size_disk, h.unmapped, ?_⟩
  · obtain ⟨tag, ht, hh⟩ := h.header
    exact ⟨tag, ht, by rw [File.slice_writeAt (by omega), hh]⟩
  · intro c m hc
    have := h.lt_size hc
    rw [File.slice_writeAt (by omega), h.entry c m hc]
  · intro i hi m hm
    have hu := h.le_used _ _ hm
    have hmod : i % kCluster < kCluster := Nat.mod_lt _ (by decide)
    rw [File.byte_writeAt_of_not_mem, h.mapped i hi m hm]
    simp only [kCluster] at *
    omega

/-- The map entry of a cluster that has no slot, once the copy is in the next free one. -/
theorem setEntry (h : Image base file map used d) (hc : map[c]? = some 0)
    (hroom : dataStartOf (clusterCount base.size) + (used + 1) * kCluster ≤ file.size)
    (hcopy : ∀ i < base.size, i / kCluster = c → base.byte i =
      file.byte (dataStartOf (clusterCount base.size) + used * kCluster + i % kCluster)) :
    Image base (file.writeAt (kMapStart + c * 4) (put32 (used + 1)))
      (map.setIfInBounds c (used + 1)) (used + 1) d := by
  have hD := le_dataStartOf (clusterCount base.size)
  have hK : kMapStart = 4096 := rfl
  have hcs := h.lt_size hc
  have hsz : c < map.size := h.size_map ▸ hcs
  have hset (c' m : Nat) (hm : (map.setIfInBounds c (used + 1))[c']? = some m) :
      c' = c ∧ m = used + 1 ∨ c' ≠ c ∧ map[c']? = some m := by
    rw [Array.getElem?_setIfInBounds] at hm
    split at hm
    · rename_i he
      exact Or.inl ⟨he.symm, (Option.some.inj hm).symm⟩
    · rename_i he
      exact Or.inr ⟨fun h => he h.symm, hm⟩
  refine ⟨by rw [Array.size_setIfInBounds, h.size_map], ?_, hroom.trans File.size_le_writeAt, ?_,
    ?_, ?_, ?_, h.size_disk, ?_, ?_⟩
  · obtain ⟨tag, ht, hh⟩ := h.header
    exact ⟨tag, ht, by rw [File.slice_writeAt (by omega), hh]⟩
  · intro c' m hm
    rcases hset c' m hm with ⟨rfl, rfl⟩ | ⟨hne, hm⟩
    · exact File.slice_writeAt_self (length_put32 _)
    · rw [File.slice_writeAt (by simp; omega), h.entry c' m hm]
  · intro c' m hm
    rcases hset c' m hm with ⟨-, rfl⟩ | ⟨-, hm⟩
    · exact Nat.le_refl _
    · exact (h.le_used c' m hm).trans (Nat.le_succ _)
  · intro c₁ c₂ m h₁ h₂
    rcases hset _ _ h₁ with ⟨e₁, h₁'⟩ | ⟨-, h₁'⟩ <;>
      rcases hset _ _ h₂ with ⟨e₂, h₂'⟩ | ⟨-, h₂'⟩
    · rw [e₁, e₂]
    · have := h.le_used _ _ h₂'
      omega
    · have := h.le_used _ _ h₁'
      omega
    · exact h.inj _ _ _ h₁' h₂'
  · intro s hs
    rcases Nat.lt_succ_iff_lt_or_eq.mp hs with hs | rfl
    · obtain ⟨c', hc'⟩ := h.onto s hs
      refine ⟨c', ?_⟩
      have hne : c ≠ c' := by
        rintro rfl
        simp [hc] at hc'
      rw [Array.getElem?_setIfInBounds_ne hne, hc']
    · exact ⟨c, by rw [Array.getElem?_setIfInBounds_self_of_lt hsz]⟩
  · intro i hi hm
    rcases hset _ _ hm with ⟨-, h0⟩ | ⟨-, hm⟩
    · omega
    · exact h.unmapped i hi hm
  · intro i hi m hm
    rw [File.byte_writeAt_of_not_mem (by simp; omega)]
    rcases hset _ _ hm with ⟨hi', hm'⟩ | ⟨-, hm⟩
    · obtain rfl : m = used := by omega
      rw [← hcopy i hi hi', h.unmapped i hi (hi' ▸ hc)]
    · exact h.mapped i hi m hm

/-- A piece within one cluster, written to the cluster's slot. -/
theorem writePiece (h : Image base file map used d) {pos : Nat} {bs : List UInt8}
    (hc : map[pos / kCluster]? = some (m + 1)) (hoff : pos % kCluster + bs.length ≤ kCluster)
    (hend : pos + bs.length ≤ base.size) :
    Image base (file.writeAt
      (dataStartOf (clusterCount base.size) + m * kCluster + pos % kCluster) bs) map used
      (d.writeAt pos bs) := by
  have hD := le_dataStartOf (clusterCount base.size)
  have hK : kMapStart = 4096 := rfl
  refine ⟨h.size_map, ?_, h.room.trans File.size_le_writeAt, ?_, h.le_used, h.inj, h.onto,
    ?_, ?_, ?_⟩
  · obtain ⟨tag, ht, hh⟩ := h.header
    exact ⟨tag, ht, by rw [File.slice_writeAt (by omega), hh]⟩
  · intro c' m' hc'
    have := h.lt_size hc'
    rw [File.slice_writeAt (by omega), h.entry c' m' hc']
  · rw [File.size_writeAt (by rw [h.size_disk]; exact hend), h.size_disk]
  · intro i hi hm
    have hne : i / kCluster ≠ pos / kCluster := by
      intro he
      simp [he, hc] at hm
    rw [File.byte_writeAt_of_not_mem, h.unmapped i hi hm]
    simp only [kCluster] at *
    omega
  · intro i hi m' hm
    by_cases hin : pos ≤ i ∧ i < pos + bs.length
    · have hd : i / kCluster = pos / kCluster := by
        simp only [kCluster] at *
        omega
      obtain rfl : m' = m := by simpa [hd, hc] using hm.symm
      have ho : i % kCluster = pos % kCluster + (i - pos) := by
        simp only [kCluster] at *
        omega
      rw [File.byte_writeAt_of_mem hin.1 hin.2, File.byte_writeAt_of_mem (by omega) (by omega)]
      congr 1
      omega
    · rw [File.byte_writeAt_of_not_mem (by omega), h.mapped i hi m' hm,
        File.byte_writeAt_of_not_mem]
      have hmm : m' = m → i / kCluster = pos / kCluster := by
        rintro rfl
        exact h.inj _ _ _ hm hc
      simp only [kCluster] at *
      by_cases he : m' = m
      · have := hmm he
        subst he
        omega
      · omega

/-! ### Opening -/

theorem length_header (S tag : Nat) : (DiskOverlay.header S tag).length = 36 := by
  simp [DiskOverlay.header, kMagic]

/-- The fields of the header, by their offsets. -/
theorem header_fields (S tag : Nat) :
    (DiskOverlay.header S tag).take 8 = kMagic ∧
      ((DiskOverlay.header S tag).drop 8).take 4 = put32 kVersion ∧
      ((DiskOverlay.header S tag).drop 12).take 4 = put32 kCluster ∧
      ((DiskOverlay.header S tag).drop 16).take 8 = put64 S ∧
      ((DiskOverlay.header S tag).drop 24).take 8 = put64 tag ∧
      ((DiskOverlay.header S tag).drop 32).take 4 = put32 (clusterCount S) := by
  have hlast {p x : List UInt8} {k n : Nat} (hk : p.length = k) (hn : x.length = n) :
      ((p ++ x).drop k).take n = x := by
    subst hk hn
    simp
  have hinit {p q : List UInt8} {k n : Nat} (h : k + n ≤ p.length) :
      ((p ++ q).drop k).take n = (p.drop k).take n := by
    rw [List.drop_append_of_le_length (by omega), List.take_append_of_le_length (by simp; omega)]
  have hm : kMagic.length = 8 := rfl
  refine ⟨?_, ?_, ?_, ?_, ?_, ?_⟩
  · rw [← List.drop_zero (l := DiskOverlay.header S tag), DiskOverlay.header]
    repeat rw [hinit (by simp [hm])]
    rfl
  · rw [DiskOverlay.header, hinit (by simp [hm]), hinit (by simp [hm]),
      hinit (by simp [hm]), hinit (by simp [hm])]
    exact hlast hm (length_put32 _)
  · rw [DiskOverlay.header, hinit (by simp [hm]), hinit (by simp [hm]),
      hinit (by simp [hm])]
    exact hlast (by simp [hm]) (length_put32 _)
  · rw [DiskOverlay.header, hinit (by simp [hm]), hinit (by simp [hm])]
    exact hlast (by simp [hm]) (length_put64 _)
  · rw [DiskOverlay.header, hinit (by simp [hm])]
    exact hlast (by simp [hm]) (length_put64 _)
  · exact hlast (by simp [hm]) (length_put32 _)

theorem length_head (S tag : Nat) : (head S tag).length = dataStartOf (clusterCount S) := by
  have hD := le_dataStartOf (clusterCount S)
  simp only [head, List.length_append, List.length_replicate, length_header]
  simp only [kMapStart] at hD
  omega

/-- A file just created stands for the base. -/
theorem create {tag : UInt64} (ht : baseTag base base.size = some tag) :
    Image base (File.empty.writeAt 0 (head base.size tag.toNat))
      (Array.replicate (clusterCount base.size) 0) 0 base := by
  have hD := le_dataStartOf (clusterCount base.size)
  have hl := length_head base.size tag.toNat
  have hK : kMapStart = 4096 := rfl
  have hz {c m : Nat} (hm : (Array.replicate (clusterCount base.size) 0)[c]? = some m) :
      c < clusterCount base.size ∧ m = 0 := by
    rw [Array.getElem?_replicate] at hm
    split at hm
    · exact ⟨by assumption, (Option.some.inj hm).symm⟩
    · cases hm
  refine ⟨by simp, ⟨tag, ht, ?_⟩, ?_, ?_, ?_, ?_, ?_, rfl, fun i _ _ => rfl, ?_⟩
  · refine File.slice_eq (length_header _ _) fun i hi => ?_
    rw [File.byte_writeAt_of_mem (by omega) (by omega)]
    simp only [Nat.zero_add, Nat.sub_zero, head]
    rw [List.getD_append _ _ _ _ (by rw [length_header]; omega)]
  · have hpos : 0 < (head base.size tag.toNat).length := by omega
    have := @File.le_size_writeAt File.empty 0 _ hpos
    omega
  · rintro c m hm
    obtain ⟨hc, rfl⟩ := hz hm
    refine File.slice_eq (length_put32 0) fun i hi => ?_
    have h0 : (put32 0).getD i 0 = 0 := List.getElem?_getD_replicate_default_eq 0 4 i
    rw [File.byte_writeAt_of_mem (by omega) (by omega), h0, head,
      List.getD_append_right _ _ _ _ (by rw [length_header]; omega)]
    exact List.getElem?_getD_replicate_default_eq _ _ _
  · intro c m hm
    exact (hz hm).2.le
  · intro c c' m hm
    cases (hz hm).2
  · intro s hs
    omega
  · intro i _ m hm
    cases (hz hm).2

theorem foldl_max_eq {l : List Nat} {a u : Nat} (hle : ∀ m ∈ l, m ≤ u) (ha : a ≤ u)
    (hu : a = u ∨ u ∈ l) : l.foldl max a = u := by
  induction l generalizing a with
  | nil =>
    simpa using hu
  | cons m l ih =>
    have hm := hle m List.mem_cons_self
    refine ih (fun x hx => hle x (List.mem_cons_of_mem _ hx)) (by omega) ?_
    rcases hu with rfl | hu
    · exact Or.inl (by omega)
    · rcases List.mem_cons.mp hu with rfl | hu
      · exact Or.inl (by omega)
      · exact Or.inr hu

/-- The next free slot, as it is found on opening. -/
theorem foldl_map (h : Image base file map used d) : map.foldl max 0 = used := by
  rw [← Array.foldl_toList]
  refine foldl_max_eq (fun m hm => ?_) (Nat.zero_le _) ?_
  · obtain ⟨c, hc⟩ := List.mem_iff_getElem?.mp hm
    exact h.le_used c m (by simpa using hc)
  · rcases Nat.eq_zero_or_pos used with rfl | hpos
    · exact Or.inl rfl
    · obtain ⟨c, hc⟩ := h.onto (used - 1) (by omega)
      rw [Nat.sub_add_cancel hpos] at hc
      exact Or.inr (List.mem_iff_getElem?.mpr ⟨c, by simpa using hc⟩)

/-- Opening an image gives back its map and its slots in use. -/
theorem load (h : Image base file map used d) (hS : base.size < 2 ^ 64) {tag : UInt64}
    (ht : baseTag base base.size = some tag) (path : String) :
    DiskOverlay.load base.size tag.toNat path file = .ok (map, used) := by
  have hD := le_dataStartOf (clusterCount base.size)
  have hK : kMapStart = 4096 := rfl
  have hroom := h.room
  have hsize : 0 + 40 ≤ file.size := by
    simp only [dataStartOf, kMapStart, kCluster] at hroom
    omega
  obtain ⟨tag', ht', hh⟩ := h.header
  obtain rfl : tag = tag' := Option.some.inj (ht.symm.trans ht')
  -- a field of the header, read from the file
  have hfld {k n : Nat} {x : List UInt8} (hn : k + n ≤ 36)
      (hx : ((DiskOverlay.header base.size tag.toNat).drop k).take n = x) :
      ((file.slice 0 40).drop k).take n = x := by
    rw [← hx, ← hh, File.drop_slice, File.drop_slice, File.take_slice (by omega),
      File.take_slice (by omega)]
  obtain ⟨hmagic, hver, hclu, hbase, htag, hcnt⟩ := header_fields base.size tag.toNat
  replace hmagic : (file.slice 0 40).take 8 = kMagic := hfld (k := 0) (by decide) hmagic
  replace hver := get32_of_take (hfld (by decide) hver) (by decide)
  replace hclu := get32_of_take (hfld (by decide) hclu) (by decide)
  replace hbase := get64_of_take (hfld (by decide) hbase) hS
  replace htag := get64_of_take (hfld (by decide) htag) tag.toNat_lt
  replace hcnt := get32_of_take (hfld (by decide) hcnt) (clusterCount_lt base.size)
  have hraw : file.readAt kMapStart (clusterCount base.size * 4) =
      some (file.slice kMapStart (clusterCount base.size * 4)) :=
    File.readAt_eq (by omega)
  have hmap : (Array.ofFn fun c : Fin (clusterCount base.size) =>
      get32 ((file.slice kMapStart (clusterCount base.size * 4)).drop (c * 4))) = map := by
    refine Array.ext (by simp [h.size_map]) fun c h1 h2 => ?_
    have hc : map[c]? = some map[c] := Array.getElem?_eq_getElem h2
    have hcl := h.lt_size hc
    rw [Array.getElem_ofFn]
    refine get32_of_take ?_ (h.entry_lt hc)
    rw [File.drop_slice, File.take_slice (by omega), h.entry c _ hc]
  simp only [DiskOverlay.load, File.readAt_eq hsize, hmagic, hver, hclu, hbase, htag, hcnt, hraw,
    hmap, h.foldl_map, ne_eq, not_true_eq_false, or_self, if_false]

end Image

end Alphabox.Storage
