import Libcando.ArenaFree

namespace Libcando.Mm.Arena

open ByteMemory Tiling Transition

structure FreeInside (s : Arena) (r : FreeRanges) : Prop where
  freed : r.pData + r.dataSz ≤ s.mm.buffSz
  source : r.mvData + r.copySz ≤ s.mm.buffSz
  target : r.pData + r.copySz ≤ s.mm.buffSz
  cleared : r.mvData + r.clearSz ≤ s.mm.buffSz

def reserving (l : Act) (_ : Arena) : Prop :=
  match l with
  | .subAlloc _ | .write _ _ _ => True
  | _ => False

instance : ∀ (l : Act) (s : Arena), Decidable (reserving l s)
  | .subAlloc _, _ | .write _ _ _, _ => inferInstanceAs (Decidable True)
  | .alloc _ _, _ | .free _, _ => inferInstanceAs (Decidable False)

/-- `used` counts what was handed out, without the wrapping of the offset. -/
structure Reserved (n used : ℕ) (s : Arena) : Prop where
  buffSz : s.mm.buffSz = (sizeofMm + n) % sizeMax
  dataSz : s.mm.dataSz = (s.mm.buffSz + sizeMax - sizeofMm) % sizeMax
  rest : s.mm.abSz + used = s.mm.dataSz
  offset : s.mm.offset = (sizeofMm + used) % sizeMax
  live : ∀ b ∈ s.live, ∃ u ≤ used, b.pos = (sizeofMm + u) % sizeMax

variable {n used : ℕ} {s t : Arena} {b : Block} {l : Act}

theorem reserved_step (hs : s.Reserved n used) (hok : reserving l s) (h : step l s = some t) :
    ∃ used', t.Reserved n used' := by
  cases l with
  | alloc mapped size => exact hok.elim
  | free data => exact hok.elim
  | subAlloc size =>
    rcases subAlloc_cases h with ⟨-, err, rfl⟩ | ⟨hroom, rfl⟩
    · exact ⟨used, hs.buffSz, hs.dataSz, hs.rest, hs.offset, hs.live⟩
    · have hrest := hs.rest
      refine ⟨used + (size + sizeofSizeT) % sizeMax, hs.buffSz, hs.dataSz, by dsimp only; omega, ?_, ?_⟩
      · simp only [hs.offset, Nat.mod_add_mod, Nat.add_assoc]
      · intro c hc
        rcases List.mem_append.mp hc with hc | hc
        · obtain ⟨u, hu, hpos⟩ := hs.live c hc
          exact ⟨u, by omega, hpos⟩
        · obtain rfl := List.mem_singleton.mp hc
          exact ⟨used, by omega, hs.offset⟩
  | write b i v =>
    simp only [step] at h
    split_ifs at h
    cases h
    exact ⟨used, hs.buffSz, hs.dataSz, hs.rest, hs.offset, hs.live⟩

theorem reserved_reach (h : Reach (system n) reserving s) : ∃ used, s.Reserved n used := by
  apply h.invariant (I := fun s => ∃ used, s.Reserved n used)
  · rintro ⟨mm, mem, live⟩ ⟨halloc, rfl⟩
    simp only [udoMmAlloc, privNewVirtualMemoryMapping] at halloc
    by_cases hzero : true = false ∨ (sizeofMm + n) % sizeMax = 0
    · rw [if_pos hzero] at halloc
      cases halloc
    · rw [if_neg hzero] at halloc
      cases halloc
      have hstart : sizeofMm = (sizeofMm + 0) % sizeMax := by decide
      exact ⟨0, rfl, rfl, Nat.add_zero _, hstart, by simp⟩
  · rintro s t l ⟨used, hs⟩ hok hstep
    exact reserved_step hs hok hstep

theorem Reserved.wrapped (hs : s.Reserved n used) (hn : n < sizeMax) (hwrap : sizeMax ≤ sizeofMm + n)
    (hb : b ∈ s.live) : ¬s.FreeInside (freeRanges s.mm s.mem (payload b)) := by
  rintro ⟨hfreed, -, -, hcleared⟩
  obtain ⟨u, hu, hpos⟩ := hs.live b hb
  have hbuff := hs.buffSz
  have hdata := hs.dataSz
  have hrest := hs.rest
  simp only [freeRanges, payload, Nat.add_sub_cancel, sizeofMm, sizeofSizeT, sizeMax] at *
  omega

theorem Reserved.inside_iff (hs : s.Reserved n used) (hn : sizeofMm + n < sizeMax) (hb : b ∈ s.live) :
    s.FreeInside (freeRanges s.mm s.mem (payload b)) ↔ load s.mem b.pos sizeofSizeT ≤ s.mm.abSz ∧
      load s.mem b.pos sizeofSizeT ≤ s.mm.offset - sizeofMm ∧ b.pos - sizeofMm ≤ s.mm.abSz := by
  obtain ⟨u, hu, hpos⟩ := hs.live b hb
  have hbuff := hs.buffSz
  have hdata := hs.dataSz
  have hrest := hs.rest
  have hoffset := hs.offset
  have hsize := load_lt s.mem b.pos sizeofSizeT
  constructor
  · rintro ⟨hfreed, hsource, -, hcleared⟩
    simp only [freeRanges, payload, Nat.add_sub_cancel, sizeofMm, sizeofSizeT, sizeMax] at *
    omega
  · rintro ⟨hab, hle, hlow⟩
    constructor
    all_goals
      simp only [freeRanges, payload, Nat.add_sub_cancel, sizeofMm, sizeofSizeT, sizeMax] at *
      omega

theorem free_inside_iff (hn : n < sizeMax) (h : Reach (system n) reserving s) (hb : b ∈ s.live) :
    s.FreeInside (freeRanges s.mm s.mem (payload b)) ↔ sizeofMm + n < sizeMax ∧
      load s.mem b.pos sizeofSizeT ≤ s.mm.abSz ∧ load s.mem b.pos sizeofSizeT ≤ s.mm.offset - sizeofMm ∧
      b.pos - sizeofMm ≤ s.mm.abSz := by
  obtain ⟨used, hs⟩ := reserved_reach h
  rcases Nat.lt_or_ge (sizeofMm + n) sizeMax with hfit | hwrap
  · rw [hs.inside_iff hfit hb]
    simp only [hfit, true_and]
  · apply iff_of_false (hs.wrapped hn hwrap hb)
    rintro ⟨hfit, -⟩
    omega

theorem free_inside_half_full : ∃ s : Arena, s.live = [⟨552, 24⟩, ⟨576, 16⟩] ∧
    s.FreeInside (freeRanges s.mm s.mem 584) := by
  obtain ⟨s, hs, hlive, hcond⟩ := exists_of_run (system 100) reserving (.init fresh_init)
    [.subAlloc 16, .subAlloc 8, .write ⟨576, 16⟩ 0 7] (fun s => s.live = [⟨552, 24⟩, ⟨576, 16⟩] ∧
      load s.mem 576 8 ≤ s.mm.abSz ∧ load s.mem 576 8 ≤ s.mm.offset - sizeofMm ∧ 576 - sizeofMm ≤ s.mm.abSz)
    (by decide +kernel)
  exact ⟨s, hlive, (free_inside_iff (b := ⟨576, 16⟩) (by decide) hs (by simp [hlive])).mpr ⟨by decide, hcond⟩⟩

theorem free_outside : ¬ ∀ (n : ℕ) (s : Arena) (b : Block), n < sizeMax → Reach (system n) reserving s →
    b ∈ s.live → s.FreeInside (freeRanges s.mm s.mem (payload b)) := by
  intro inside
  obtain ⟨s, hs, hlive, hbuff, hstop⟩ := exists_of_run (system 100) reserving (.init fresh_init) [.subAlloc 60]
    (fun s => s.live = [⟨552, 68⟩] ∧ s.mm.buffSz = 652 ∧
      (freeRanges s.mm s.mem 560).mvData + (freeRanges s.mm s.mem 560).copySz = 688) (by decide +kernel)
  have hsource := (inside 100 s ⟨552, 68⟩ (by decide) hs (by simp [hlive])).source
  rw [hbuff] at hsource
  exact absurd (hstop.symm.le.trans hsource) (by decide)

end Libcando.Mm.Arena
