import Libcando.ArenaBlocks

namespace Libcando.Mm

open ByteMemory Tiling Transition

structure FreeRanges where
  pData : ℕ
  dataSz : ℕ
  mvData : ℕ
  copySz : ℕ
  clearSz : ℕ

def freeRanges (mm : UdoMm) (m : Mem) (data : ℕ) : FreeRanges :=
  let pData := data - sizeofSizeT
  let dataSz := load m pData sizeofSizeT
  ⟨pData, dataSz, pData + dataSz, (mm.offset + sizeMax - pData) % sizeMax,
    (mm.dataSz + sizeMax - (mm.abSz + dataSz) % sizeMax) % sizeMax⟩

theorem udoMmFree_eq (mm : UdoMm) (m : Mem) (data : ℕ) :
    (udoMmFree mm m data).2 = fill (move (fill m (freeRanges mm m data).pData 0 (freeRanges mm m data).dataSz)
      (freeRanges mm m data).pData (freeRanges mm m data).mvData (freeRanges mm m data).copySz)
      (freeRanges mm m data).mvData 0 (freeRanges mm m data).clearSz := by
  simp only [udoMmFree, freeRanges]

theorem free_bytes {mm : UdoMm} {m : Mem} {b : Block} (hlow : sizeofMm ≤ b.pos) (hstop : b.stop ≤ mm.offset)
    (hused : mm.offset + mm.abSz = mm.buffSz) (hwhole : sizeofMm + mm.dataSz = mm.buffSz)
    (hsmall : mm.buffSz < sizeMax) (hheader : load m b.pos sizeofSizeT = b.size) (a : ℕ) :
    (udoMmFree mm m (Arena.payload b)).2 a = if a < b.pos then m a else if a < b.stop then m (a + b.size)
      else if a < mm.offset + (b.pos - sizeofMm) then 0 else m a := by
  have hpos : Arena.payload b - sizeofSizeT = b.pos := Nat.add_sub_cancel _ _
  have hcopy : (mm.offset + sizeMax - b.pos) % sizeMax = mm.offset - b.pos := by
    rw [Block.stop] at hstop
    exact unsigned_sub (by omega) (by omega)
  have hclear : (mm.dataSz + sizeMax - (mm.abSz + b.size) % sizeMax) % sizeMax =
      mm.offset - sizeofMm - b.size := by
    rw [Block.stop] at hstop
    rw [Nat.mod_eq_of_lt (show mm.abSz + b.size < sizeMax by omega), unsigned_sub (by omega) (by omega)]
    omega
  rw [udoMmFree_eq]
  simp only [freeRanges, hpos, hheader, hcopy, hclear, fill, move]
  rw [Block.stop] at *
  split_ifs <;> first | rfl | omega | exact congrArg m (by omega)

namespace Arena

structure FreeKeeps (s : Arena) (b : Block) (m : Mem) (mm' : UdoMm) (m' : Mem) : Prop where
  before : ∀ c ∈ s.live, c.pos < b.pos → ∀ a, c.pos ≤ a → a < c.stop → m' a = m a
  behind : ∀ c ∈ s.live, b.pos < c.pos → load m' (c.pos - b.size) sizeofSizeT = load m c.pos sizeofSizeT ∧
    ∀ i < c.size, m' (c.pos - b.size + i) = m (c.pos + i)
  offset : mm'.offset + b.size = s.mm.offset
  abSz : mm'.abSz = s.mm.abSz + b.size
  cleared : ∀ a, mm'.offset ≤ a → a < s.mm.buffSz → m' a = 0

def built (l : Act) (s : Arena) : Prop :=
  match l with
  | .free _ => False
  | _ => careful l s

instance : ∀ (l : Act) (s : Arena), Decidable (built l s)
  | .free _, _ => inferInstanceAs (Decidable False)
  | .alloc mapped size, s => inferInstanceAs (Decidable (careful (.alloc mapped size) s))
  | .subAlloc size, s => inferInstanceAs (Decidable (careful (.subAlloc size) s))
  | .write b i v, s => inferInstanceAs (Decidable (careful (.write b i v) s))

structure Built (s : Arena) : Prop extends s.Packed where
  whole : sizeofMm + s.mm.dataSz = s.mm.buffSz
  headed : ∀ b ∈ s.live, sizeofSizeT ≤ b.size ∧ load s.mem b.pos sizeofSizeT = b.size
  blank : ∀ a, s.mm.offset ≤ a → a < s.mm.buffSz → s.mem a = 0

variable {s t : Arena} {b : Block} {m : Mem} {l : Act}

theorem mapping_blank {mapped : Bool} (mm : Option (UdoMm × Mem)) {size : ℕ} {r : UdoMm × Mem}
    (h : privNewVirtualMemoryMapping mapped mm size = some r) {a : ℕ} (ha : ∀ x ∈ mm, x.1.buffSz ≤ a) :
    r.2 a = 0 := by
  unfold privNewVirtualMemoryMapping at h
  rcases mm with _ | ⟨mm, m⟩
  · dsimp only at h
    split at h
    · cases h
    · cases h; rfl
  · dsimp only at h
    split at h
    · cases h
    · cases h
      exact if_neg (Nat.not_lt_of_le (ha _ rfl))

theorem Built.alloc (hs : s.Built) {mapped : Bool} {size : ℕ} (hok : careful (.alloc mapped size) s)
    (h : step (.alloc mapped size) s = some t) : t.Built := by
  have hpacked := hs.toPacked.alloc hok h
  rcases alloc_cases h with rfl | ⟨hmapped, hsize, hlive, hmap⟩
  · exact hs
  · obtain ⟨hempty, hfit⟩ := hok hmapped hsize
    obtain ⟨hoffset, htotal, -, hdata, hbytes⟩ := mapping_eq _ hmap hfit (by rintro x ⟨⟩; exact hs.min)
    dsimp only at hoffset htotal hdata
    refine ⟨hpacked, by omega, by simp [hlive, hempty], ?_⟩
    intro a ha _
    rcases Nat.lt_or_ge a s.mm.buffSz with hlt | hge
    · have hstart : s.mm.offset = sizeofMm := by
        have htiles := hs.tiles
        rw [hempty] at htiles
        exact htiles.symm
      exact (hbytes _ rfl a hlt).trans (hs.blank a (by omega) hlt)
    · exact mapping_blank _ hmap (by rintro x ⟨⟩; exact hge)

theorem Built.subAlloc (hs : s.Built) {size : ℕ} (hok : careful (.subAlloc size) s)
    (h : step (.subAlloc size) s = some t) : t.Built := by
  have hpacked := hs.toPacked.subAlloc hok h
  have htotal := hs.total
  have hsmall := hs.small
  rcases subAlloc_fits htotal hsmall hok h with ⟨err, rfl⟩ | ⟨hroom, rfl⟩
  · exact ⟨hpacked, hs.whole, hs.headed, hs.blank⟩
  · refine ⟨hpacked, hs.whole, ?_, ?_⟩
    · intro c hc
      rcases List.mem_append.mp hc with hc | hc
      · have hstop := (hs.tiles.mem hc).2.2
        have hhead := (hs.headed c hc).1
        rw [Block.stop] at hstop
        rw [load_store_disjoint (by omega)]
        exact hs.headed c hc
      · obtain rfl := List.mem_singleton.mp hc
        have hfit : size + sizeofSizeT < sizeMax := by omega
        exact ⟨Nat.le_add_left _ _, load_store_of_lt (by simpa [sizeofSizeT, sizeMax] using hfit)⟩
    · intro a ha hlt
      dsimp only at ha
      exact (store_outside (by omega)).trans (hs.blank a (by omega) hlt)

theorem Built.write (hs : s.Built) {i : ℕ} {v : UInt8} (hb : b ∈ s.live) (hi : payload b + i < b.stop) :
    Built { s with mem := Function.update s.mem (payload b + i) v } := by
  have hstop := (hs.tiles.mem hb).2.2
  refine ⟨⟨hs.tiles, hs.total, hs.small⟩, hs.whole, ?_, ?_⟩
  · intro c hc
    obtain ⟨hhead, hload⟩ := hs.headed c hc
    refine ⟨hhead, ?_⟩
    rw [← hload]
    apply load_congr
    intro x hx hlt
    apply Function.update_of_ne
    by_cases hbc : b = c
    · subst hbc
      simp only [payload] at *
      omega
    · have hapart := hs.tiles.apart_of_ne hb hc hbc
      simp only [payload, Block.Apart, Block.stop] at *
      omega
  · intro a ha hlt
    have hne : a ≠ payload b + i := by
      dsimp only at ha
      omega
    exact (Function.update_of_ne hne _ _).trans (hs.blank a ha hlt)

section Free

variable (hs : s.Built) (hb : b ∈ s.live) (hm : ∀ a < s.mm.buffSz, m a = s.mem a)

include hs hb hm

theorem free_header : load m (payload b - sizeofSizeT) sizeofSizeT = b.size := by
  obtain ⟨hhead, hload⟩ := hs.headed b hb
  have hstop := (hs.tiles.mem hb).2.2
  have htotal := hs.total
  rw [payload, Nat.add_sub_cancel, ← hload]
  apply load_congr
  intro x _ hx
  rw [Block.stop] at hstop
  exact hm x (by omega)

theorem freed_bytes (a : ℕ) : (udoMmFree s.mm m (payload b)).2 a = if a < b.pos then m a
    else if a < b.stop then m (a + b.size)
    else if a < s.mm.offset + (b.pos - sizeofMm) then 0 else m a := by
  obtain ⟨hpos, -, hstop⟩ := hs.tiles.mem hb
  have hheader := free_header hs hb hm
  rw [payload, Nat.add_sub_cancel] at hheader
  exact free_bytes hpos hstop hs.total hs.whole hs.small hheader a

theorem freed_fields : (udoMmFree s.mm m (payload b)).1 = { s.mm with
    abSz := s.mm.abSz + b.size, offset := s.mm.offset - b.size } := by
  obtain ⟨hpos, -, hstop⟩ := hs.tiles.mem hb
  have htotal := hs.total
  have hsmall := hs.small
  rw [Block.stop] at hstop
  have hoffset : (s.mm.offset + sizeMax - b.size) % sizeMax = s.mm.offset - b.size :=
    unsigned_sub (by omega) (by omega)
  rw [udoMmFree_fields (free_header hs hb hm), hoffset, Nat.mod_eq_of_lt (by omega)]

theorem free_keeps (hbehind : ∀ a, s.mm.buffSz ≤ a → a < b.pos + 2 * b.size → m a = 0)
    (htail : ∀ a, b.pos + 2 * b.size ≤ a → a < s.mm.offset → m a = 0) :
    FreeKeeps s b m (udoMmFree s.mm m (payload b)).1 (udoMmFree s.mm m (payload b)).2 := by
  obtain ⟨hpos, hsize, hstop⟩ := hs.tiles.mem hb
  have htotal := hs.total
  have hmoved : ∀ c ∈ s.live, b.pos < c.pos → ∀ i < c.size,
      (udoMmFree s.mm m (payload b)).2 (c.pos - b.size + i) = m (c.pos + i) := by
    intro c hc hlt i hi
    have hapart := hs.tiles.apart_of_ne hb hc (by rintro rfl; omega)
    have hcstop := (hs.tiles.mem hc).2.2
    have hbehind : b.stop ≤ c.pos := by
      rcases hapart with h | h
      · exact h
      · rw [Block.stop] at h; omega
    rw [Block.stop] at hbehind hcstop hstop
    have hat : c.pos - b.size + i + b.size = c.pos + i := by omega
    rw [freed_bytes hs hb hm, if_neg (by omega), Block.stop]
    split_ifs with hin
    · rw [hat]
    · rw [htail _ (by omega) (by omega)]
    · omega
  constructor
  · intro c hc hlt a _ ha
    have hapart := hs.tiles.apart_of_ne hb hc (by rintro rfl; omega)
    have hbelow : c.stop ≤ b.pos := by
      rcases hapart with h | h
      · rw [Block.stop] at h; omega
      · exact h
    rw [freed_bytes hs hb hm, if_pos (by omega)]
  · intro c hc hlt
    refine ⟨?_, hmoved c hc hlt⟩
    have hhead := (hs.headed c hc).1
    apply load_shift
    intro i hi
    exact hmoved c hc hlt i (by omega)
  · rw [freed_fields hs hb hm]
    rw [Block.stop] at hstop
    exact Nat.sub_add_cancel (by omega)
  · rw [freed_fields hs hb hm]
  · intro a ha hlt
    rw [freed_fields hs hb hm] at ha
    dsimp only at ha
    rw [Block.stop] at hstop
    rw [freed_bytes hs hb hm, if_neg (by omega), Block.stop]
    split_ifs with hin hclear
    · rcases Nat.lt_or_ge (a + b.size) s.mm.buffSz with hinside | hout
      · rw [hm _ hinside]
        exact hs.blank _ (by omega) hinside
      · exact hbehind _ hout (by omega)
    · rfl
    · rw [hm _ hlt]
      exact hs.blank _ (by omega) hlt

end Free

end Arena

end Libcando.Mm
