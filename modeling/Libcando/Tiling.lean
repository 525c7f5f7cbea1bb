import Mathlib.Data.List.Pairwise
import Mathlib.Data.Nat.Basic

/-!
Blocks laid end to end. Taking one out and closing the gap moves everything behind it down.
-/

namespace Tiling

structure Block where
  pos : ℕ
  size : ℕ
  deriving DecidableEq

def Block.stop (b : Block) : ℕ := b.pos + b.size

def Block.Apart (b c : Block) : Prop := b.stop ≤ c.pos ∨ c.stop ≤ b.pos

def Block.Has (b : Block) (a : ℕ) : Prop := b.pos ≤ a ∧ a < b.stop

instance (b c : Block) : Decidable (b.Apart c) := inferInstanceAs (Decidable (_ ∨ _))

instance (b : Block) (a : ℕ) : Decidable (b.Has a) := inferInstanceAs (Decidable (_ ∧ _))

instance : Std.Symm Block.Apart := ⟨fun _ _ h => h.symm⟩

theorem Block.Apart.not_has {b c : Block} (h : b.Apart c) {a : ℕ} (hb : b.Has a) : ¬c.Has a := by
  rintro ⟨hpos, hstop⟩
  obtain ⟨hpos', hstop'⟩ := hb
  rcases h with h | h
  · exact absurd (Nat.lt_of_lt_of_le hstop' (Nat.le_trans h hpos)) (Nat.lt_irrefl a)
  · exact absurd (Nat.lt_of_lt_of_le hstop (Nat.le_trans h hpos')) (Nat.lt_irrefl a)

def Tiles : ℕ → List Block → ℕ → Prop
  | a, [], e => a = e
  | a, b :: l, e => b.pos = a ∧ 0 < b.size ∧ Tiles b.stop l e

variable {a e : ℕ} {b c : Block} {l l' : List Block}

theorem Tiles.le (h : Tiles a l e) : a ≤ e := by
  induction l generalizing a with
  | nil => exact Nat.le_of_eq h
  | cons b l ih =>
    obtain ⟨rfl, -, h⟩ := h
    exact Nat.le_trans (Nat.le_add_right _ _) (ih h)

theorem Tiles.append (h : Tiles a l e) (hb : b.pos = e) (hs : 0 < b.size) : Tiles a (l ++ [b]) b.stop := by
  induction l generalizing a with
  | nil => exact ⟨hb.trans h.symm, hs, rfl⟩
  | cons c l ih => exact ⟨h.1, h.2.1, ih h.2.2⟩

theorem Tiles.mem (h : Tiles a l e) (hb : b ∈ l) : a ≤ b.pos ∧ 0 < b.size ∧ b.stop ≤ e := by
  induction l generalizing a with
  | nil => cases hb
  | cons c l ih =>
    obtain ⟨rfl, hs, h⟩ := h
    rcases List.mem_cons.mp hb with rfl | hb
    · exact ⟨le_rfl, hs, h.le⟩
    · obtain ⟨hpos, hrest⟩ := ih h hb
      exact ⟨Nat.le_trans (Nat.le_add_right _ _) hpos, hrest⟩

theorem Tiles.apart (h : Tiles a l e) : l.Pairwise Block.Apart := by
  induction l generalizing a with
  | nil => exact .nil
  | cons b l ih =>
    obtain ⟨-, -, h⟩ := h
    constructor
    · intro c hc
      exact .inl (h.mem hc).1
    · exact ih h

theorem Tiles.apart_of_ne (h : Tiles a l e) (hb : b ∈ l) (hc : c ∈ l) (hne : b ≠ c) : b.Apart c :=
  h.apart.forall hb hc hne

theorem Tiles.ordered (h : Tiles a l e) : l.Pairwise fun b c => b.pos < c.pos := by
  induction l generalizing a with
  | nil => exact .nil
  | cons b l ih =>
    obtain ⟨-, hs, h⟩ := h
    refine .cons (fun c hc => ?_) (ih h)
    have := (h.mem hc).1
    simp only [Block.stop] at this
    omega

structure Laid (a : ℕ) (l : List Block) (e : ℕ) : Prop where
  le : a ≤ e
  apart : l.Pairwise Block.Apart
  bounds : ∀ b ∈ l, a ≤ b.pos ∧ b.stop ≤ e

theorem laid_single (b : Block) : Laid b.pos [b] b.stop := by
  refine ⟨Nat.le_add_right _ _, List.pairwise_singleton _ _, ?_⟩
  intro c hc
  obtain rfl := List.mem_singleton.mp hc
  exact ⟨le_rfl, le_rfl⟩

theorem Laid.append {f : ℕ} (h : Laid a l e) (h' : Laid e l' f) : Laid a (l ++ l') f := by
  refine ⟨Nat.le_trans h.le h'.le, ?_, ?_⟩
  · apply List.pairwise_append.mpr
    refine ⟨h.apart, h'.apart, ?_⟩
    intro b hb c hc
    exact .inl (Nat.le_trans (h.bounds b hb).2 (h'.bounds c hc).1)
  · intro b hb
    rcases List.mem_append.mp hb with hb | hb
    · exact ⟨(h.bounds b hb).1, Nat.le_trans (h.bounds b hb).2 h'.le⟩
    · exact ⟨Nat.le_trans h.le (h'.bounds b hb).1, (h'.bounds b hb).2⟩

theorem laid_flatMap {f : ℕ → List Block} {g : ℕ → ℕ} {n : ℕ}
    (h : ∀ i < n, Laid (g i) (f i) (g (i + 1))) : Laid (g 0) ((List.range n).flatMap f) (g n) := by
  induction n with
  | zero => exact ⟨le_rfl, .nil, by simp⟩
  | succ n ih =>
    rw [List.range_succ, List.flatMap_append, List.flatMap_singleton]
    exact (ih fun i hi => h i (by omega)).append (h n (by omega))

theorem laid_map {f : ℕ → Block} {g : ℕ → ℕ} {n : ℕ} (hpos : ∀ i < n, (f i).pos = g i)
    (hstop : ∀ i < n, (f i).stop = g (i + 1)) : Laid (g 0) ((List.range n).map f) (g n) := by
  rw [List.map_eq_flatMap]
  apply laid_flatMap
  intro i hi
  rw [← hpos i hi, ← hstop i hi]
  exact laid_single (f i)

theorem laid_equal (base size n : ℕ) :
    Laid base ((List.range n).map fun i => ⟨base + i * size, size⟩) (base + n * size) := by
  have h : Laid (base + 0 * size) ((List.range n).map fun i => ⟨base + i * size, size⟩) (base + n * size) := by
    apply laid_map (g := fun i => base + i * size)
    · intro i _
      rfl
    · intro i _
      rw [Block.stop, Nat.succ_mul, Nat.add_assoc]
  rwa [Nat.zero_mul, Nat.add_zero] at h

theorem equal_apart {base size i j : ℕ} (h : i ≠ j) :
    (⟨base + i * size, size⟩ : Block).Apart ⟨base + j * size, size⟩ := by
  have before {i j : ℕ} (hlt : i < j) : base + i * size + size ≤ base + j * size := by
    have hmul := Nat.mul_le_mul_right size (Nat.succ_le_of_lt hlt)
    rw [Nat.succ_mul] at hmul
    omega
  rcases Nat.lt_or_gt_of_ne h with hlt | hlt
  · exact .inl (before hlt)
  · exact .inr (before hlt)

def Block.down (k : ℕ) (c : Block) : Block := { c with pos := c.pos - k }

def release (p k : ℕ) (l : List Block) : List Block :=
  (l.filter fun c => c.pos ≠ p).map fun c => if p < c.pos then c.down k else c

theorem release_behind {p k : ℕ} (h : ∀ c ∈ l, p < c.pos) : release p k l = l.map (Block.down k) := by
  have hkeep : (l.filter fun c => c.pos ≠ p) = l := by
    apply List.filter_eq_self.mpr
    intro c hc
    simpa using Nat.ne_of_gt (h c hc)
  rw [release, hkeep]
  apply List.map_congr_left
  intro c hc
  exact if_pos (h c hc)

theorem Tiles.down {k : ℕ} (h : Tiles a l e) (hk : k ≤ a) : Tiles (a - k) (l.map (Block.down k)) (e - k) := by
  induction l generalizing a with
  | nil => exact congrArg (· - k) h
  | cons b l ih =>
    obtain ⟨rfl, hs, h⟩ := h
    refine ⟨rfl, hs, ?_⟩
    have hstop : (b.down k).stop = b.stop - k := by
      simp only [Block.down, Block.stop]
      omega
    rw [hstop]
    exact ih h (Nat.le_trans hk (Nat.le_add_right _ _))

theorem Tiles.release (h : Tiles a l e) (hb : b ∈ l) : Tiles a (release b.pos b.size l) (e - b.size) := by
  induction l generalizing a with
  | nil => cases hb
  | cons c l ih =>
    obtain ⟨rfl, hs, h⟩ := h
    rcases List.mem_cons.mp hb with rfl | hb
    · have hbehind : ∀ c ∈ l, b.pos < c.pos := by
        intro c hc
        have := (h.mem hc).1
        simp only [Block.stop] at this
        omega
      have hdown := h.down (Nat.le_add_left b.size b.pos)
      rw [Block.stop, Nat.add_sub_cancel] at hdown
      rw [show Tiling.release b.pos b.size (b :: l) = Tiling.release b.pos b.size l by
        simp [Tiling.release], release_behind hbehind]
      exact hdown
    · have hpos := (h.mem hb).1
      have hlt : c.pos < b.pos := by simp only [Block.stop] at hpos; omega
      rw [show Tiling.release b.pos b.size (c :: l) = c :: Tiling.release b.pos b.size l by
        simp [Tiling.release, Nat.ne_of_lt hlt, Nat.not_lt.mpr (Nat.le_of_lt hlt)]]
      exact ⟨rfl, hs, ih h hb⟩

theorem Tiles.release_eq (h : Tiles a l e) {k : ℕ} (hb : l[k]? = some b) :
    Tiling.release b.pos b.size l = l.take k ++ (l.drop (k + 1)).map (Block.down b.size) := by
  induction l generalizing a k with
  | nil => cases hb
  | cons c l ih =>
    obtain ⟨rfl, hs, h⟩ := h
    cases k with
    | zero =>
      cases hb
      have hself : Tiling.release b.pos b.size (b :: l) = Tiling.release b.pos b.size l := by
        simp [Tiling.release]
      rw [hself, release_behind]
      · rfl
      · intro d hd
        have := (h.mem hd).1
        simp only [Block.stop] at *
        omega
    | succ k =>
      have hmem : b ∈ l := List.mem_of_getElem? hb
      have hlt : c.pos < b.pos := by
        have := (h.mem hmem).1
        simp only [Block.stop] at this
        omega
      have hkeep : Tiling.release b.pos b.size (c :: l) = c :: Tiling.release b.pos b.size l := by
        simp [Tiling.release, Nat.ne_of_lt hlt, Nat.not_lt.mpr (Nat.le_of_lt hlt)]
      rw [hkeep, ih h hb]
      rfl

end Tiling
