import Libcando.Mm

namespace Libcando.Mm.Arena

open ByteMemory Tiling Transition

structure Separate (s : Arena) : Prop where
  apart : s.live.Pairwise Block.Apart
  inside : ∀ b ∈ s.live, sizeofMm ≤ b.pos ∧ b.stop ≤ s.mm.offset
  fits : s.mm.offset ≤ s.mm.buffSz
  total : s.mm.offset + s.mm.abSz = s.mm.buffSz

/-- No size wraps around, the arena grows only while it is empty, and a block is freed only while its
header still says how large it is. -/
def careful : Act → Arena → Prop
  | .alloc mapped size, s => mapped = true → s.mm.dataSz ≤ size → s.live = [] ∧ s.mm.buffSz + size < sizeMax
  | .subAlloc size, s => s.mm.abSz ≤ (size + sizeofSizeT) % sizeMax ∨ size + sizeofSizeT < sizeMax
  | .free data, s => ∀ b ∈ s.live, payload b = data → load s.mem b.pos sizeofSizeT = b.size
  | .write _ _ _, _ => True

instance : ∀ (l : Act) (s : Arena), Decidable (careful l s)
  | .alloc _ _, _ => inferInstanceAs (Decidable (_ → _ → _ ∧ _))
  | .subAlloc _, _ => inferInstanceAs (Decidable (_ ∨ _))
  | .free _, s => inferInstanceAs (Decidable (∀ b ∈ s.live, _ → _))
  | .write _ _ _, _ => inferInstanceAs (Decidable True)

structure Packed (s : Arena) : Prop where
  tiles : Tiles sizeofMm s.live s.mm.offset
  total : s.mm.offset + s.mm.abSz = s.mm.buffSz
  small : s.mm.buffSz < sizeMax

theorem Packed.separate {s : Arena} (h : s.Packed) : s.Separate := by
  have htotal := h.total
  constructor
  · exact h.tiles.apart
  · intro b hb
    obtain ⟨hpos, -, hstop⟩ := h.tiles.mem hb
    exact ⟨hpos, hstop⟩
  · omega
  · exact htotal

theorem mapping_eq {mapped : Bool} (mm : Option (UdoMm × Mem)) {size : ℕ} {r : UdoMm × Mem}
    (h : privNewVirtualMemoryMapping mapped mm size = some r)
    (hfit : (match mm with | some (mm, _) => mm.buffSz | none => sizeofMm) + size < sizeMax)
    (hmin : ∀ x ∈ mm, sizeofMm ≤ x.1.buffSz) :
    r.1.offset = sizeofMm ∧ r.1.offset + r.1.abSz = r.1.buffSz ∧ r.1.buffSz < sizeMax ∧
      r.1.dataSz = r.1.abSz ∧ ∀ x ∈ mm, ∀ a < x.1.buffSz, r.2 a = x.2 a := by
  unfold privNewVirtualMemoryMapping at h
  cases mm with
  | none =>
    simp only [Nat.mod_eq_of_lt hfit] at h
    split_ifs at h
    cases h
    refine ⟨rfl, ?_, hfit, rfl, nofun⟩
    simp only [sizeMax, sizeofMm, sizeofSizeT] at *
    omega
  | some x =>
    obtain ⟨mm, m⟩ := x
    have hle := hmin _ rfl
    simp only [Nat.mod_eq_of_lt hfit] at h
    split_ifs at h
    cases h
    refine ⟨rfl, ?_, hfit, rfl, ?_⟩
    · simp only [sizeMax, sizeofMm, sizeofSizeT] at *
      omega
    · intro x hx a ha
      cases hx
      exact if_pos ha

theorem Packed.min {s : Arena} (h : s.Packed) : sizeofMm ≤ s.mm.buffSz := by
  have := h.tiles.le
  have := h.total
  omega

theorem alloc_cases {s t : Arena} {mapped : Bool} {size : ℕ} (h : step (.alloc mapped size) s = some t) :
    t = s ∨ (mapped = true ∧ s.mm.dataSz ≤ size ∧ t.live = s.live ∧
      privNewVirtualMemoryMapping mapped (some (s.mm, s.mem)) size = some (t.mm, t.mem)) := by
  simp only [step, udoMmAlloc] at h
  split_ifs at h with hsize
  · split at h
    · rename_i mm mem hmap
      cases h
      have hmapped : mapped = true := by
        by_contra hm
        simp [privNewVirtualMemoryMapping, hm] at hmap
      exact .inr ⟨hmapped, hsize, rfl, hmap⟩
    · cases h; exact .inl rfl
  · cases h; exact .inl rfl

theorem Packed.alloc {s t : Arena} (hs : s.Packed) {mapped : Bool} {size : ℕ}
    (hok : careful (.alloc mapped size) s) (h : step (.alloc mapped size) s = some t) : t.Packed := by
  rcases alloc_cases h with rfl | ⟨hmapped, hsize, hlive, hmap⟩
  · exact hs
  · obtain ⟨hempty, hfit⟩ := hok hmapped hsize
    obtain ⟨hoffset, htotal, hsmall, -⟩ := mapping_eq _ hmap hfit (by rintro x ⟨⟩; exact hs.min)
    refine ⟨?_, htotal, hsmall⟩
    rw [hlive, hempty]
    exact hoffset.symm

theorem subAlloc_cases {s t : Arena} {size : ℕ} (h : step (.subAlloc size) s = some t) :
    (s.mm.abSz ≤ (size + sizeofSizeT) % sizeMax ∧ ∃ err, t = { s with mm := { s.mm with err } }) ∨
      ((size + sizeofSizeT) % sizeMax < s.mm.abSz ∧
        t = ⟨{ s.mm with
            abSz := s.mm.abSz - (size + sizeofSizeT) % sizeMax
            offset := (s.mm.offset + (size + sizeofSizeT) % sizeMax) % sizeMax },
          store s.mem s.mm.offset sizeofSizeT ((size + sizeofSizeT) % sizeMax),
          s.live ++ [⟨s.mm.offset, size + sizeofSizeT⟩]⟩) := by
  simp only [step, udoMmSubAlloc] at h
  split_ifs at h with hroom
  · cases h
    exact .inl ⟨hroom, _, rfl⟩
  · cases h
    refine .inr ⟨Nat.lt_of_not_le hroom, ?_⟩
    rw [Nat.add_sub_cancel]

theorem subAlloc_fits {s t : Arena} {size : ℕ} (hused : s.mm.offset + s.mm.abSz = s.mm.buffSz)
    (hsmall : s.mm.buffSz < sizeMax) (hok : careful (.subAlloc size) s) (h : step (.subAlloc size) s = some t) :
    (∃ err, t = { s with mm := { s.mm with err } }) ∨ (size + sizeofSizeT < s.mm.abSz ∧
      t = ⟨{ s.mm with
          abSz := s.mm.abSz - (size + sizeofSizeT)
          offset := s.mm.offset + (size + sizeofSizeT) },
        store s.mem s.mm.offset sizeofSizeT (size + sizeofSizeT),
        s.live ++ [⟨s.mm.offset, size + sizeofSizeT⟩]⟩) := by
  rcases subAlloc_cases h with ⟨-, herr⟩ | ⟨hroom, ht⟩
  · exact .inl herr
  · have hfit := hok.resolve_left (Nat.not_le_of_lt hroom)
    rw [Nat.mod_eq_of_lt hfit] at hroom ht
    rw [Nat.mod_eq_of_lt (show s.mm.offset + (size + sizeofSizeT) < sizeMax by omega)] at ht
    exact .inr ⟨hroom, ht⟩

theorem Packed.subAlloc {s t : Arena} (hs : s.Packed) {size : ℕ}
    (hok : careful (.subAlloc size) s) (h : step (.subAlloc size) s = some t) : t.Packed := by
  have htotal := hs.total
  rcases subAlloc_fits htotal hs.small hok h with ⟨err, rfl⟩ | ⟨hroom, rfl⟩
  · exact ⟨hs.tiles, htotal, hs.small⟩
  · constructor
    · exact hs.tiles.append rfl (Nat.add_pos_right size (by decide))
    · dsimp only
      omega
    · exact hs.small

theorem Packed.free {s : Arena} (hs : s.Packed) {b : Block} (hb : b ∈ s.live)
    (hheader : load s.mem b.pos sizeofSizeT = b.size) (mem : Mem) :
    Packed ⟨(udoMmFree s.mm s.mem (payload b)).1, mem, release b.pos b.size s.live⟩ := by
  have hpos : payload b - sizeofSizeT = b.pos := Nat.add_sub_cancel _ _
  obtain ⟨hlo, hsize, hstop⟩ := hs.tiles.mem hb
  have htotal := hs.total
  have hsmall := hs.small
  have hle : b.size ≤ s.mm.offset := by simp only [Block.stop] at hstop; omega
  have hoffset : (s.mm.offset + sizeMax - b.size) % sizeMax = s.mm.offset - b.size :=
    unsigned_sub hle (by omega)
  have hab : (s.mm.abSz + b.size) % sizeMax = s.mm.abSz + b.size := Nat.mod_eq_of_lt (by omega)
  rw [udoMmFree_fields (hpos ▸ hheader), hoffset, hab]
  exact ⟨hs.tiles.release hb, by dsimp only; omega, hsmall⟩

theorem packed_step {s t : Arena} {l : Act} (hs : s.Packed) (hok : careful l s) (h : step l s = some t) :
    t.Packed := by
  cases l with
  | alloc mapped size => exact hs.alloc hok h
  | subAlloc size => exact hs.subAlloc hok h
  | free data =>
    obtain ⟨b, hfind, ht⟩ := Option.map_eq_some_iff.mp h
    have hdata : payload b = data := by simpa using List.find?_some hfind
    have hb : b ∈ s.live := List.mem_of_find?_eq_some hfind
    subst ht hdata
    exact hs.free hb (hok b hb rfl) _
  | write b i v =>
    simp only [step] at h
    split_ifs at h
    cases h
    exact ⟨hs.tiles, hs.total, hs.small⟩

theorem packed_init {n : ℕ} (hn : sizeofMm + n < sizeMax) {s : Arena} (h : (system n).init s) : s.Packed := by
  obtain ⟨halloc, hlive⟩ := h
  obtain ⟨hoffset, htotal, hsmall, -⟩ := mapping_eq none halloc hn (by simp)
  exact ⟨by rw [hlive]; exact hoffset.symm, htotal, hsmall⟩

theorem Packed.alloc_bytes {s t : Arena} (hs : s.Packed) {mapped : Bool} {size : ℕ}
    (h : step (.alloc mapped size) s = some t) (hfit : s.mm.buffSz + size < sizeMax) {b : Block}
    (hb : b ∈ s.live) : b ∈ t.live ∧ ∀ a, b.pos ≤ a → a < b.stop → t.mem a = s.mem a := by
  rcases alloc_cases h with rfl | ⟨-, -, hlive, hmap⟩
  · exact ⟨hb, fun _ _ _ => rfl⟩
  · obtain ⟨-, -, -, -, hbytes⟩ := mapping_eq _ hmap hfit (by rintro x ⟨⟩; exact hs.min)
    have hstop := (hs.tiles.mem hb).2.2
    have htotal := hs.total
    constructor
    · rw [hlive]
      exact hb
    · intro a _ ha
      apply hbytes _ rfl
      show a < s.mm.buffSz
      omega

theorem packed_reach {n : ℕ} (hn : sizeofMm + n < sizeMax) {s : Arena} (h : Reach (system n) careful s) :
    s.Packed := by
  apply h.invariant
  · intro s hs
    exact packed_init hn hs
  · intro s t l hs hok hstep
    exact packed_step hs hok hstep

theorem arena_separate {n : ℕ} (hn : sizeofMm + n < sizeMax) {s : Arena} (h : Reach (system n) careful s) :
    s.Separate ∧ ∀ mapped size t, step (.alloc mapped size) s = some t → s.mm.buffSz + size < sizeMax →
      ∀ b ∈ s.live, b ∈ t.live ∧ ∀ a, b.pos ≤ a → a < b.stop → t.mem a = s.mem a := by
  have hpacked := packed_reach hn h
  constructor
  · exact hpacked.separate
  · intro mapped size t hs hfit b hb
    exact hpacked.alloc_bytes hs hfit hb

def fresh (n : ℕ) : Arena :=
  ⟨⟨none, sizeofMm + n, n, n, sizeofMm⟩, fun _ => 0, []⟩

theorem fresh_init : (system 100).init (fresh 100) := ⟨rfl, rfl⟩

theorem arena_separate_freed : ∃ s : Arena, s.live = [⟨552, 24⟩, ⟨576, 16⟩] ∧ s.Separate := by
  obtain ⟨s, hs, hq⟩ := exists_of_run (system 100) careful (.init fresh_init)
    [.subAlloc 8, .subAlloc 16, .write ⟨568, 24⟩ 3 7, .free 560, .subAlloc 8, .alloc true 50]
    (fun s => s.live = [⟨552, 24⟩, ⟨576, 16⟩]) (by decide +kernel)
  exact ⟨s, hq, (arena_separate (by decide) hs).1⟩

theorem arena_overlap : ¬ ∀ (n : ℕ) (s : Arena), sizeofMm + n < sizeMax →
    Reach (system n) (fun _ _ => True) s → s.Separate := by
  intro separate
  obtain ⟨s, hs, hq⟩ := exists_of_run (system 100) (fun _ _ => True) (.init fresh_init)
    [.subAlloc 16, .alloc true 200, .subAlloc 16] (fun s => s.live = [⟨552, 24⟩, ⟨552, 24⟩])
    (by decide +kernel)
  have hapart := (separate 100 s (by decide) hs).apart
  rw [hq] at hapart
  exact absurd hapart (by decide)

end Libcando.Mm.Arena
