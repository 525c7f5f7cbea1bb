import Libcando.ArenaBlocks

namespace Libcando.Mm

open ByteMemory Tiling Transition

/-- With `mmap` granting every length but 0. -/
def AllocExact (mm : Option (UdoMm × Mem)) (size : ℕ) : Prop :=
  ∀ r, udoMmAlloc true mm size = some r → sizeofMm + size ≤ r.1.buffSz ∧
    ((∀ x ∈ mm, x.1.dataSz ≤ size) →
      r.1.dataSz = r.1.buffSz - sizeofMm ∧ r.1.abSz = r.1.buffSz - sizeofMm)

structure Granted (mm : UdoMm) (size data : ℕ) (mm' : UdoMm) (m' : Mem) : Prop where
  header : mm.offset ≤ data - sizeofSizeT
  inside : data + size ≤ mm.buffSz
  past : data + size ≤ mm'.offset
  taken : mm'.abSz + (size + sizeofSizeT) = mm.abSz
  recorded : udoMmSubAllocGetSize m' (some data) = size

structure Refused (mm : UdoMm) (m : Mem) (mm' : UdoMm) (m' : Mem) : Prop where
  offset : mm'.offset = mm.offset
  abSz : mm'.abSz = mm.abSz
  stored : m' = m

def SubAllocExact (mm : UdoMm) (m : Mem) (size : ℕ) : Prop :=
  match udoMmSubAlloc mm m size with
  | (some data, mm', m') => Granted mm size data mm' m'
  | (none, mm', m') => Refused mm m mm' m'

namespace Arena

/-- No sum of sizes passes 64 bits, and what is freed is no more than what is in use. A sum of exactly
`2 ^ 64` asks for a mapping of no bytes, and is refused. -/
def sized : Act → Arena → Prop
  | .alloc mapped size, s => mapped = true → s.mm.dataSz ≤ size → s.mm.buffSz + size ≤ sizeMax
  | .subAlloc size, s => s.mm.abSz ≤ (size + sizeofSizeT) % sizeMax ∨ size + sizeofSizeT < sizeMax
  | .free data, s => load s.mem (data - sizeofSizeT) sizeofSizeT ≤ s.mm.offset - sizeofMm
  | .write _ _ _, _ => True

instance : ∀ (l : Act) (s : Arena), Decidable (sized l s)
  | .alloc _ _, _ => inferInstanceAs (Decidable (_ → _ → _))
  | .subAlloc _, _ => inferInstanceAs (Decidable (_ ∨ _))
  | .free _, _ => inferInstanceAs (Decidable (_ ≤ _))
  | .write _ _ _, _ => inferInstanceAs (Decidable True)

def held : Option (UdoMm × Mem) → ℕ
  | none => sizeofMm
  | some (mm, _) => mm.buffSz

structure Sized (mm : UdoMm) : Prop where
  used : mm.offset + mm.abSz = mm.buffSz
  whole : sizeofMm + mm.dataSz = mm.buffSz
  low : sizeofMm ≤ mm.offset
  small : mm.buffSz < sizeMax

variable {mm : UdoMm} {m : Mem} {size : ℕ} {r : UdoMm × Mem} {s t : Arena} {l : Act}

theorem mapping_sized {x : Option (UdoMm × Mem)} (hmin : sizeofMm ≤ held x) (hsmall : held x < sizeMax)
    (hsize : size < sizeMax) (h : privNewVirtualMemoryMapping true x size = some r) :
    (held x + size < sizeMax ∧ r.1.buffSz = held x + size ∧ Sized r.1 ∧ r.1.abSz = r.1.dataSz) ∨
      (sizeMax < held x + size ∧ r.1.buffSz < size) := by
  have hr : (held x + size) % sizeMax ≠ 0 ∧ r.1.buffSz = (held x + size) % sizeMax ∧ r.1.offset = sizeofMm ∧
      r.1.dataSz = ((held x + size) % sizeMax + sizeMax - sizeofMm) % sizeMax ∧ r.1.abSz = r.1.dataSz := by
    unfold privNewVirtualMemoryMapping at h
    rcases x with _ | ⟨mm, m⟩
    · dsimp only at h
      by_cases hzero : true = false ∨ (sizeofMm + size) % sizeMax = 0
      · rw [if_pos hzero] at h; cases h
      · rw [if_neg hzero] at h
        cases h
        exact ⟨fun h => hzero (.inr h), rfl, rfl, rfl, rfl⟩
    · dsimp only at h
      by_cases hzero : true = false ∨ (mm.buffSz + size) % sizeMax = 0
      · rw [if_pos hzero] at h; cases h
      · rw [if_neg hzero] at h
        cases h
        exact ⟨fun h => hzero (.inr h), rfl, rfl, rfl, rfl⟩
  obtain ⟨hzero, hbuff, hoffset, hdata, hab⟩ := hr
  rcases Nat.lt_or_ge (held x + size) sizeMax with hfit | hwrap
  · left
    rw [Nat.mod_eq_of_lt hfit] at hbuff hdata
    have havail : (held x + size + sizeMax - sizeofMm) % sizeMax = held x + size - sizeofMm := by
      simp only [sizeofMm, sizeofSizeT, sizeMax] at *
      omega
    rw [havail] at hdata
    exact ⟨hfit, hbuff, ⟨by omega, by omega, by omega, by omega⟩, hab⟩
  · right
    simp only [sizeMax] at *
    omega

theorem mapping_exact {x : Option (UdoMm × Mem)} (hmin : sizeofMm ≤ held x) (hsmall : held x < sizeMax)
    (hsize : size < sizeMax) : (∀ r, privNewVirtualMemoryMapping true x size = some r →
      sizeofMm + size ≤ r.1.buffSz ∧ r.1.dataSz = r.1.buffSz - sizeofMm ∧ r.1.abSz = r.1.buffSz - sizeofMm) ↔
      held x + size ≤ sizeMax := by
  constructor
  · intro hexact
    by_contra hwrap
    obtain ⟨r, hr⟩ : ∃ r, privNewVirtualMemoryMapping true x size = some r := by
      have hzero : (held x + size) % sizeMax ≠ 0 := by
        simp only [sizeMax] at *
        omega
      rcases x with _ | ⟨mm, m⟩
      · exact ⟨_, if_neg (by simpa [held] using hzero)⟩
      · exact ⟨_, if_neg (by simpa [held] using hzero)⟩
    have hroom := (hexact r hr).1
    rcases mapping_sized hmin hsmall hsize hr with ⟨hfit, -⟩ | ⟨-, hlt⟩
    · omega
    · omega
  · intro hle r hr
    rcases mapping_sized hmin hsmall hsize hr with ⟨-, hbuff, hs, hab⟩ | ⟨hwrap, -⟩
    · have hwhole := hs.whole
      refine ⟨by omega, by omega, by omega⟩
    · omega

theorem subAlloc_exact (hs : Sized mm) (hsize : size < sizeMax) :
    SubAllocExact mm m size ↔ mm.abSz ≤ (size + sizeofSizeT) % sizeMax ∨ size + sizeofSizeT < sizeMax := by
  have hused := hs.used
  have hsmall := hs.small
  unfold SubAllocExact udoMmSubAlloc
  by_cases hroom : mm.abSz ≤ (size + sizeofSizeT) % sizeMax
  · simp only [if_pos hroom]
    exact iff_of_true ⟨rfl, rfl, rfl⟩ (.inl hroom)
  · simp only [if_neg hroom]
    constructor
    · intro hgranted
      right
      have hinside := hgranted.inside
      simp only [sizeofSizeT, sizeMax] at *
      omega
    · intro hfit
      have hfit := hfit.resolve_left hroom
      rw [Nat.mod_eq_of_lt hfit] at hroom ⊢
      have hoffset : (mm.offset + (size + sizeofSizeT)) % sizeMax = mm.offset + (size + sizeofSizeT) :=
        Nat.mod_eq_of_lt (by omega)
      constructor
      · exact Nat.le_of_eq (Nat.add_sub_cancel _ _).symm
      · simp only [sizeofSizeT] at *
        omega
      · simp only [hoffset]
        omega
      · exact Nat.sub_add_cancel (by omega)
      · rw [udoMmSubAllocGetSize, Nat.add_sub_cancel, load_store_of_lt (by simpa [sizeofSizeT, sizeMax] using hfit)]
        simp only [sizeofSizeT, sizeMax] at *
        omega

theorem alloc_exact (hs : Sized mm) (hsize : size < sizeMax) :
    AllocExact (some (mm, m)) size ↔ (mm.dataSz ≤ size → mm.buffSz + size ≤ sizeMax) := by
  have hwhole := hs.whole
  by_cases hgrow : mm.dataSz ≤ size
  · have hexact := mapping_exact (x := some (mm, m)) (show sizeofMm ≤ mm.buffSz by omega) hs.small hsize
    unfold AllocExact
    simp only [udoMmAlloc, if_pos hgrow]
    simpa [hgrow, held] using hexact
  · refine iff_of_true ?_ fun h => absurd h hgrow
    intro r hr
    simp only [udoMmAlloc, if_neg hgrow] at hr
    cases hr
    refine ⟨by dsimp only; omega, fun h => absurd (h _ rfl) hgrow⟩

theorem sized_step (hs : Sized s.mm) (hok : sized l s) (h : step l s = some t) : Sized t.mm := by
  have hused := hs.used
  have hwhole := hs.whole
  have hlow := hs.low
  have hsmall := hs.small
  cases l with
  | alloc mapped size =>
    rcases alloc_cases h with rfl | ⟨rfl, hgrow, -, hmap⟩
    · exact hs
    · have hfit := hok rfl hgrow
      have hsize : size < sizeMax := by
        simp only [sizeofMm, sizeofSizeT] at *
        omega
      rcases mapping_sized (x := some (s.mm, s.mem)) (show sizeofMm ≤ s.mm.buffSz by omega) hsmall hsize hmap with
        ⟨-, -, hsized, -⟩ | ⟨hwrap, -⟩
      · exact hsized
      · exact absurd hfit (Nat.not_le_of_lt hwrap)
  | subAlloc size =>
    rcases subAlloc_fits hused hsmall hok h with ⟨err, rfl⟩ | ⟨hroom, rfl⟩
    · exact ⟨hused, hwhole, hlow, hsmall⟩
    · exact ⟨by dsimp only; omega, hwhole, by dsimp only; omega, hsmall⟩
  | free data =>
    obtain ⟨b, -, rfl⟩ := Option.map_eq_some_iff.mp h
    have hle : load s.mem (data - sizeofSizeT) sizeofSizeT ≤ s.mm.offset - sizeofMm := hok
    have hoffset : (s.mm.offset + sizeMax - load s.mem (data - sizeofSizeT) sizeofSizeT) % sizeMax =
        s.mm.offset - load s.mem (data - sizeofSizeT) sizeofSizeT := unsigned_sub (by omega) (by omega)
    have hab : (s.mm.abSz + load s.mem (data - sizeofSizeT) sizeofSizeT) % sizeMax =
        s.mm.abSz + load s.mem (data - sizeofSizeT) sizeofSizeT := Nat.mod_eq_of_lt (by omega)
    rw [udoMmFree_fields rfl, hoffset, hab]
    exact ⟨by dsimp only; omega, hwhole, by dsimp only; omega, hsmall⟩
  | write b i v =>
    simp only [step] at h
    split_ifs at h
    cases h
    exact hs

theorem sized_reach {n : ℕ} (hn : sizeofMm + n ≤ sizeMax) (h : Reach (system n) sized s) : Sized s.mm := by
  apply h.invariant
  · rintro s ⟨halloc, -⟩
    rcases mapping_sized (x := none) le_rfl (by decide) (by simp only [sizeofMm, sizeofSizeT] at hn; omega) halloc with
      ⟨-, -, hsized, -⟩ | ⟨hwrap, -⟩
    · exact hsized
    · exact absurd hn (Nat.not_le_of_lt hwrap)
  · intro s t l hs hok hstep
    exact sized_step hs hok hstep

theorem sizes_exact_iff (hsize : size < sizeMax) : (AllocExact none size ↔ sizeofMm + size ≤ sizeMax) ∧
    ∀ n s, sizeofMm + n ≤ sizeMax → Reach (system n) sized s →
      (AllocExact (some (s.mm, s.mem)) size ↔ (s.mm.dataSz ≤ size → s.mm.buffSz + size ≤ sizeMax)) ∧
      (SubAllocExact s.mm s.mem size ↔
        s.mm.abSz ≤ (size + sizeofSizeT) % sizeMax ∨ size + sizeofSizeT < sizeMax) := by
  constructor
  · have hexact := mapping_exact (x := none) le_rfl (by decide) hsize
    unfold AllocExact
    simpa [udoMmAlloc, held] using hexact
  · intro n s hn hs
    have hsized := sized_reach hn hs
    exact ⟨alloc_exact hsized hsize, subAlloc_exact hsized hsize⟩

theorem sizes_exact_grown : ∃ s : Arena, s.live = [⟨552, 16⟩] ∧ s.mm.abSz = 300 ∧
    SubAllocExact s.mm s.mem 291 := by
  obtain ⟨s, hs, hlive, hab⟩ := exists_of_run (system 100) sized (.init fresh_init) [.subAlloc 8, .alloc true 200]
    (fun s => s.live = [⟨552, 16⟩] ∧ s.mm.abSz = 300) (by decide +kernel)
  have hexact := (sizes_exact_iff (show 291 < sizeMax by decide)).2 100 s (by decide) hs
  exact ⟨s, hlive, hab, hexact.2.mpr (.inr (by decide))⟩

theorem size_wraps : ¬ ∀ (n : ℕ) (s : Arena) (size : ℕ), Reach (system n) (fun _ _ => True) s → size < sizeMax →
    AllocExact (some (s.mm, s.mem)) size ∧ SubAllocExact s.mm s.mem size := by
  intro sized
  have hgranted := (sized 100 (fresh 100) (2 ^ 64 - 1) (.init fresh_init) (by decide)).2
  have hinside : Granted (fresh 100).mm (2 ^ 64 - 1) _ _ _ := hgranted
  exact absurd hinside.inside (by decide)

end Arena

end Libcando.Mm
