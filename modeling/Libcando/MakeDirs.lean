import Libcando.Mkdir
import Libcando.PathBuffer

namespace Libcando.FileOps

open CStrings FileTree

variable {fs : FileTree} {cwd : Path} {dir : List UInt8} {k : ℕ}

def made (cwd : Path) (dir : List UInt8) (fs : FileTree) (k : ℕ) : FileTree :=
  (pCreateDirectories dir k).2.foldl (mkdir cwd) fs

theorem made_succ (hk : k + 1 ≤ (cString dir).length) :
    made cwd dir fs (k + 1) =
      if dir[k]? = some slash then (made cwd dir fs k).mkdir cwd (dir.take k) else made cwd dir fs k := by
  rw [made, made, pCreateDirectories_eq hk, pCreateDirectories_eq (by omega), prefixes_succ]
  split_ifs
  · rw [List.foldl_append, List.foldl_cons, List.foldl_nil]
  · rw [List.append_nil]

theorem zero_notMem_take (hk : k ≤ (cString dir).length) : 0 ∉ dir.take k := by
  have hpre : dir.take k <+: cString dir :=
    List.prefix_of_prefix_length_le (List.take_prefix k dir) (cString_isPrefix dir)
      ((List.length_take_le k dir).trans hk)
  intro h
  exact zero_notMem_cString dir (hpre.subset h)

structure Split (cwd : Path) (dir : List UInt8) (k : ℕ) (ns : List Name) (n : Name) : Prop where
  components : components (dir.take k) = ns ++ if n = [] then [] else [n]
  no_slash : slash ∉ n
  no_nul : 0 ∉ n
  parent : ns = [] ∧ start cwd (dir.take k) ∈ [[], cwd] ∨
    ∃ i < k, 0 < i ∧ dir[i]? = some slash ∧ ns = FileTree.components (dir.take i) ∧
      start cwd (dir.take k) = start cwd (dir.take i)

theorem split_take (hk : k ≤ (cString dir).length) (cwd : Path) : ∃ ns n, Split cwd dir k ns n := by
  have hnul := zero_notMem_take hk
  by_cases hslash : slash ∈ dir.take k
  · have hpath := beforeSlash_append hslash
    have hn := slash_notMem_afterSlash (dir.take k)
    have hz : 0 ∉ afterSlash (dir.take k) := fun hm => hnul (hpath ▸ by simp [hm])
    generalize beforeSlash (dir.take k) = u at hpath
    generalize afterSlash (dir.take k) = n at hpath hn hz
    have hcomps : components (dir.take k) = components u ++ if n = [] then [] else [n] := by
      rw [← hpath, components_concat hn]
    by_cases hu : u = []
    · subst hu
      exact ⟨components [], n, hcomps, hn, hz, .inl ⟨rfl, by simp [← hpath, start]⟩⟩
    · have hlen : u.length < k := by
        have hle := List.length_take_le k dir
        rw [← hpath, List.length_append, List.length_cons] at hle
        omega
      have hsplit : u ++ slash :: (n ++ dir.drop k) = dir := by
        rw [← List.cons_append, ← List.append_assoc, hpath, List.take_append_drop]
      have htake : dir.take u.length = u := by
        rw [← hsplit, List.take_left]
      have hget : dir[u.length]? = some slash := by
        rw [← hsplit, List.getElem?_append_right le_rfl, Nat.sub_self, List.getElem?_cons_zero]
      refine ⟨components u, n, hcomps, hn, hz, .inr ⟨u.length, hlen, List.length_pos_iff.mpr hu, hget, ?_, ?_⟩⟩
      · rw [htake]
      · rw [htake, ← hpath, ← child, start_child hu]
  · refine ⟨[], dir.take k, by rw [components_single hslash, List.nil_append], hslash, hnul, .inl ⟨rfl, ?_⟩⟩
    have hstart : start cwd (dir.take k) = cwd := by
      rw [start, if_neg]
      exact fun hhead => hslash (List.mem_of_head? hhead)
    simp [hstart]

theorem Split.reached {fs' : FileTree} {ns : List Name} {n : Name} (h : Split cwd dir k ns n) (hfs' : fs'.Proper)
    (hcwd : fs'.get cwd = some .dir) (hbefore : ∀ i < k, 0 < i → dir[i]? = some slash →
      ∃ d, Reached fs fs' (start cwd (dir.take i)) (FileTree.components (dir.take i)) d) :
    ∃ d, Reached fs fs' (start cwd (dir.take k)) ns d := by
  obtain ⟨rfl, hstart⟩ | ⟨i, hi, hpos, hslash, rfl, hstart⟩ := h.parent
  · rw [List.mem_pair] at hstart
    rcases hstart with hstart | hstart
    · refine ⟨[], ?_⟩
      rw [hstart]
      exact .nil hfs'.root
    · refine ⟨cwd, ?_⟩
      rw [hstart]
      exact .nil hcwd
  · rw [hstart]
    exact hbefore i hi hpos hslash

theorem Split.below {fs' : FileTree} {ns : List Name} {n : Name} {d : Path} (h : Split cwd dir k ns n)
    (hr : Reached fs fs' (start cwd (dir.take k)) ns d) : fs'.Below cwd (dir.take k) ns n d :=
  ⟨h.components, h.no_slash, h.no_nul, hr.walk, hr.dir⟩

structure Grown (fs : FileTree) (cwd : Path) (dir : List UInt8) (k : ℕ) (fs' : FileTree) : Prop where
  grows : fs.Grows fs'
  ancestors : ∀ i < k, 0 < i → dir[i]? = some slash → fs'.IsDir cwd (dir.take i)

theorem Grown.below {fs' : FileTree} (h : Grown fs cwd dir k fs') (hcwd : fs.get cwd = some .dir)
    (hk : k ≤ (cString dir).length) : ∃ ns n d, fs'.Below cwd (dir.take k) ns n d := by
  obtain ⟨ns, n, hsplit⟩ := split_take hk cwd
  obtain ⟨d, hr⟩ : ∃ d, Reached fs' fs' (start cwd (dir.take k)) ns d := by
    apply hsplit.reached h.grows.proper (h.grows.part _ _ hcwd)
    intro i hi hpos hslash
    obtain ⟨d, hd, hdir⟩ := h.ancestors i hi hpos hslash
    exact ⟨d, hd, hdir, fun _ => hd⟩
  exact ⟨ns, n, d, hsplit.below hr⟩

theorem grown_made (hfs : fs.Proper) (hcwd : fs.get cwd = some .dir) (hk : k ≤ (cString dir).length)
    (hclear : ∀ i < k, dir[i]? = some slash → (made cwd dir fs i).Clear cwd (dir.take i)) :
    Grown fs cwd dir k (made cwd dir fs k) := by
  induction k with
  | zero => exact ⟨.refl hfs, fun i hi => absurd hi (Nat.not_lt_zero i)⟩
  | succ k ih =>
    have hgrown := ih (by omega) fun i hi => hclear i (by omega)
    rw [made_succ hk]
    split_ifs with hslash
    · obtain ⟨ns, n, d, hbelow⟩ := hgrown.below hcwd (by omega)
      obtain ⟨hgrows, hdir⟩ := hbelow.mkdir hgrown.grows.proper
      refine ⟨hgrown.grows.trans hgrows, Nat.forall_lt_succ_right.mpr ⟨?_, ?_⟩⟩
      · intro i hi hpos hget
        exact (hgrown.ancestors i hi hpos hget).mono hgrows.part
      · intro _ _
        exact hdir (hclear k (by omega) hslash)
    · refine ⟨hgrown.grows, Nat.forall_lt_succ_right.mpr ⟨hgrown.ancestors, ?_⟩⟩
      intro _ hget
      exact absurd hget hslash

theorem clear_made (hfs : fs.Proper) (hcwd : fs.get cwd = some .dir) (hk : k ≤ (cString dir).length)
    (hclear : ∀ i < k, dir[i]? = some slash → fs.Clear cwd (dir.take i) ∧ dotdot ∉ components (dir.take i)) :
    (∀ i < k, dir[i]? = some slash → (made cwd dir fs i).Clear cwd (dir.take i)) ∧
      ∀ i < k, 0 < i → dir[i]? = some slash →
        ∃ d, Reached fs (made cwd dir fs k) (start cwd (dir.take i)) (components (dir.take i)) d := by
  induction k with
  | zero => exact ⟨fun i hi => absurd hi (Nat.not_lt_zero i), fun i hi => absurd hi (Nat.not_lt_zero i)⟩
  | succ k ih =>
    obtain ⟨hbefore, hreached⟩ := ih (by omega) fun i hi => hclear i (by omega)
    have hgrows := (grown_made hfs hcwd (by omega) hbefore).grows
    by_cases hslash : dir[k]? = some slash
    · obtain ⟨hk0, hup⟩ := hclear k (by omega) hslash
      obtain ⟨ns, n, hsplit⟩ := split_take (show k ≤ (cString dir).length by omega) cwd
      obtain ⟨d, hr⟩ := hsplit.reached hgrows.proper (hgrows.part _ _ hcwd) hreached
      have hbelow := hsplit.below hr
      have hnow := hbelow.clear hfs hr hgrows hk0
      have hn : n ≠ dotdot := by
        rintro rfl
        rw [hsplit.components] at hup
        exact hup (by simp [dotdot])
      obtain ⟨hmade, hdir⟩ := hbelow.mkdir hgrows.proper
      rw [made_succ hk, if_pos hslash]
      have hr' := hr.mono hmade.part
      refine ⟨Nat.forall_lt_succ_right.mpr ⟨hbefore, fun _ => hnow⟩, Nat.forall_lt_succ_right.mpr ⟨?_, ?_⟩⟩
      · intro i hi hpos hget
        obtain ⟨e, he⟩ := hreached i hi hpos hget
        exact ⟨e, he.mono hmade.part⟩
      · intro _ _
        exact (hsplit.below hr').reached hfs hr' hn (hgrows.trans hmade) hk0 (hdir hnow)
    · rw [made_succ hk, if_neg hslash]
      refine ⟨Nat.forall_lt_succ_right.mpr ⟨hbefore, ?_⟩, Nat.forall_lt_succ_right.mpr ⟨hreached, ?_⟩⟩
      · intro hget
        exact absurd hget hslash
      · intro _ hget
        exact absurd hget hslash

structure MakesDirectories (dir : List UInt8) (k : ℕ) : Prop where
  buffer : (pCreateDirectories dir k).1 = dir
  calls : (pCreateDirectories dir k).2 = prefixes dir k
  increasing : ((prefixes dir k).map List.length).Pairwise (· < ·)
  ancestors : ∀ fs cwd, fs.Proper → fs.get cwd = some .dir →
    (∀ i < k, dir[i]? = some slash → (made cwd dir fs i).Clear cwd (dir.take i)) →
      ∀ i < k, 0 < i → dir[i]? = some slash → (made cwd dir fs k).IsDir cwd (dir.take i)
  ancestors_at_first : ∀ fs cwd, fs.Proper → fs.get cwd = some .dir →
    (∀ i < k, dir[i]? = some slash → fs.Clear cwd (dir.take i) ∧ dotdot ∉ components (dir.take i)) →
      ∀ i < k, 0 < i → dir[i]? = some slash → (made cwd dir fs k).IsDir cwd (dir.take i)

theorem length_prefixes (dir : List UInt8) (k : ℕ) :
    (prefixes dir k).map List.length = (List.range k).filter fun i => dir[i]? = some slash := by
  rw [prefixes, List.map_map]
  conv_rhs => rw [← List.map_id (List.filter _ _)]
  apply List.map_congr_left
  intro i hi
  obtain ⟨hlt, -⟩ := List.getElem?_eq_some_iff.mp (of_decide_eq_true (List.mem_filter.mp hi).2)
  simp [Nat.min_eq_left hlt.le]

theorem directories_made (hk : k ≤ (cString dir).length) : MakesDirectories dir k where
  buffer := by rw [pCreateDirectories_eq hk]
  calls := by rw [pCreateDirectories_eq hk]
  increasing := by
    rw [length_prefixes]
    exact List.pairwise_lt_range.filter _
  ancestors := by
    intro fs cwd hfs hcwd hclear
    exact (grown_made hfs hcwd hk hclear).ancestors
  ancestors_at_first := by
    intro fs cwd hfs hcwd hclear
    exact (grown_made hfs hcwd hk (clear_made hfs hcwd hk hclear).1).ancestors

theorem directories_made_twice : MakesDirectories [47, 97, 47, 47, 98, 47, 99, 0] 7 := directories_made (by decide)

/-- The path is `a/../b/x`, with a file `b` and no `a`: its prefix `a/../b` leads nowhere before the loop, and to
the file once `a` is made. -/
theorem directory_not_made : ¬ ∀ (fs : FileTree) (cwd : Path) (dir : List UInt8) (k : ℕ), fs.Proper →
    fs.get cwd = some .dir → k ≤ (cString dir).length →
    (∀ i < k, dir[i]? = some slash → fs.Clear cwd (dir.take i)) →
      ∀ i < k, 0 < i → dir[i]? = some slash → (made cwd dir fs k).IsDir cwd (dir.take i) := by
  intro ancestors
  have hclear : ∀ i < 8, ([97, 47, 46, 46, 47, 98, 47, 120, 0] : List UInt8)[i]? = some slash →
      Clear [([], .dir), ([[98]], .file)] [] ([97, 47, 46, 46, 47, 98, 47, 120, 0].take i) := by decide
  have hdir := ancestors [([], .dir), ([[98]], .file)] [] [97, 47, 46, 46, 47, 98, 47, 120, 0] 8 (by decide)
    (by decide) (by decide) hclear 6 (by decide) (by decide) (by decide)
  revert hdir
  decide

example : made [] [47, 97, 47, 47, 98, 47, 99, 0] [([], .dir)] 7 =
    [([], .dir), ([[97]], .dir), ([[97], [98]], .dir)] := by decide

end Libcando.FileOps
