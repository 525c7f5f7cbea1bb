import Libcando.MakeDirs
import Libcando.RemoveWhole
import Mathlib.Algebra.GroupWithZero.Nat

namespace FileTree

variable {fs fs' : FileTree} {cwd cur d p top : Path} {s t : List UInt8} {n : Name} {ns : List Name}

def steps (ns : List Name) : Path := ns.filter (· ≠ dot)

theorem walk_steps {follow : Bool} {b : ℕ} (hup : dotdot ∉ ns)
    (hdirs : ∀ r, r <+: steps ns → fs.get (cur ++ r) = some .dir) :
    fs.walk follow b cur ns = some (cur ++ steps ns) := by
  obtain ⟨leap, hleap⟩ := exists_leap fs follow b
  rw [hleap]
  induction ns generalizing cur with
  | nil => simp [walkWith, steps]
  | cons n ns ih =>
    rw [List.mem_cons, not_or] at hup
    obtain rfl | rfl | hn := name_cases n
    · rw [walkWith_dot]
      exact ih hup.2 hdirs
    · exact absurd rfl hup.1
    · have hsteps : steps (n :: ns) = n :: steps ns := by simp [steps, hn.ne_dot]
      rw [hsteps] at hdirs ⊢
      rw [walkWith_cons hn, hdirs [n] ⟨steps ns, rfl⟩]
      have hrest : fs.walkWith leap follow (cur ++ [n]) ns = some (cur ++ [n] ++ steps ns) := by
        apply ih hup.2
        intro r hr
        simpa using hdirs (n :: r) ((List.prefix_cons_inj n).mpr hr)
      simpa using hrest

theorem components_append (s t : List UInt8) : components (s ++ slash :: t) = components s ++ components t := by
  rw [components, List.splitOn_append_cons_self, List.filter_append]
  rfl

theorem sum_components_le (s : List UInt8) : ((components s).map fun n => n.length + 1).sum ≤ s.length + 1 := by
  induction hlen : s.length using Nat.strong_induction_on generalizing s with
  | _ l ih =>
    by_cases hslash : slash ∈ s
    · obtain ⟨u, t, rfl⟩ := List.append_of_mem hslash
      simp only [List.length_append, List.length_cons] at hlen
      have hu := ih u.length (by omega) u rfl
      have ht := ih t.length (by omega) t rfl
      rw [components_append, List.map_append, List.sum_append]
      omega
    · rw [components_single hslash]
      split_ifs <;> simp [hlen]

theorem sum_steps_le (ns : List Name) :
    ((steps ns).map fun n => n.length + 1).sum ≤ (ns.map fun n => n.length + 1).sum := by
  induction ns with
  | nil => exact le_rfl
  | cons n ns ih =>
    by_cases hn : n = dot
    · simp only [steps, List.filter_cons_of_neg, hn, ne_eq, not_true_eq_false, decide_false, Bool.false_eq_true,
        not_false_eq_true, List.map_cons, List.sum_cons] at ih ⊢
      omega
    · simp only [steps, List.filter_cons_of_pos, hn, ne_eq, not_false_eq_true, decide_true, List.map_cons,
        List.sum_cons] at ih ⊢
      omega

theorem length_foldl_child (s : List UInt8) (ns : List Name) :
    (ns.foldl child s).length = s.length + (ns.map fun n => n.length + 1).sum := by
  induction ns generalizing s with
  | nil => rfl
  | cons n ns ih =>
    rw [List.foldl_cons, ih, length_child, List.map_cons, List.sum_cons]
    omega

structure Vacant (fs : FileTree) (cwd : Path) (s : List UInt8) (top : Path) : Prop where
  absent : fs.get top = none
  parent : ∃ ns d n, components s = ns ++ [n] ∧ ValidName n ∧ top = d ++ [n] ∧
    fs.walk true maxLinks (start cwd s) ns = some d ∧ fs.get d = some .dir

theorem Below.vacant (h : fs.Below cwd s ns n d) (hfs : fs.Proper) (hclear : fs.Clear cwd s)
    (hmissing : ¬fs.IsDir cwd s) : fs.Vacant cwd s (d ++ [n]) := by
  have hord : Ordinary n ∧ n ≠ [] := by
    by_contra hn
    exact hmissing (h.isDir_special hfs hn)
  constructor
  · by_contra hold
    exact hmissing (hclear (h.entry hfs hord.1 hord.2 hold))
  · exact ⟨ns, d, n, by rw [h.components, if_neg hord.2], ⟨hord.1, hord.2, h.no_slash, h.no_nul⟩, rfl, h.walk, h.dir⟩

namespace Vacant

variable (h : fs.Vacant cwd s top)
include h

theorem mkdir : fs.mkdir cwd s = fs ++ [(top, .dir)] := by
  obtain ⟨ns, d, n, hs, hn, rfl, hw, hd⟩ := h.parent
  rw [mkdir_of_components hs hn.toOrdinary hw, if_pos ⟨hd, h.absent⟩]

theorem proper (hfs : fs.Proper) : Proper (fs ++ [(top, .dir)]) := by
  obtain ⟨ns, d, n, hs, hn, rfl, hw, hd⟩ := h.parent
  exact hfs.append_dir hd hn h.absent

theorem below (hfs : fs.Proper) (r : Path) : fs.get (top ++ r) = none := by
  by_contra hr
  by_cases hnil : r = []
  · exact hr (by rw [hnil, List.append_nil, h.absent])
  · have hdir := hfs.dir_of_prefix hr (List.prefix_append top r) (by simpa using hnil)
    rw [h.absent] at hdir
    cases hdir

theorem walks (hfs' : fs'.Proper) (hpart : Part fs fs') (htop : fs'.get top = some .dir) (follow : Bool) :
    fs'.walk follow maxLinks (start cwd s) (components s) = some top := by
  obtain ⟨ns, d, n, hs, hn, rfl, hw, -⟩ := h.parent
  obtain ⟨b, -, hwalk⟩ := walk_concat hfs' hn.toOrdinary follow maxLinks (start cwd s) ns
  rw [hs, hwalk, walk_mono hpart le_rfl hw, Option.bind_some, walk_single hn.toOrdinary htop (.inr (by simp))]

theorem ne_nil : s ≠ [] := by
  rintro rfl
  obtain ⟨ns, d, n, hs, -⟩ := h.parent
  have hnil : components [] = [] := by decide
  rw [hnil] at hs
  exact absurd hs (by simp)

theorem resolves (hlen : s.length < pathMax) (hfs' : fs'.Proper) (hpart : Part fs fs') (htop : fs'.get top = some .dir)
    (follow : Bool) : fs'.resolve follow cwd s = some top := by
  rw [resolve, if_neg (not_or.mpr ⟨h.ne_nil, by omega⟩), h.walks hfs' hpart htop]

end Vacant

end FileTree

namespace Libcando.FileOps

open CStrings FileTree

variable {fs fs' : FileTree} {cwd top p : Path} {dir : List UInt8} {i j k m : ℕ}

section Between

def between (dir : List UInt8) (j i : ℕ) : List Name := components ((dir.take i).drop (j + 1))

theorem between_self (dir : List UInt8) (j : ℕ) : between dir j j = [] := by
  have hle : (dir.take j).length ≤ j + 1 := (List.length_take_le j dir).trans (Nat.le_succ j)
  rw [between, List.drop_eq_nil_of_le hle]
  decide

theorem components_between (hslash : dir[j]? = some slash) (hji : j ≤ i) :
    components (dir.take i) = components (dir.take j) ++ between dir j i := by
  obtain rfl | hlt := hji.eq_or_lt
  · rw [between_self, List.append_nil]
  · have hget : (dir.take i)[j]? = some slash := by rw [List.getElem?_take_of_lt hlt, hslash]
    obtain ⟨hlen, hget⟩ := List.getElem?_eq_some_iff.mp hget
    have hsplit : dir.take i = dir.take j ++ slash :: (dir.take i).drop (j + 1) := by
      rw [← hget, ← List.drop_eq_getElem_cons hlen]
      conv_lhs => rw [← List.take_append_drop j (dir.take i), List.take_take, Nat.min_eq_left hji]
    conv_lhs => rw [hsplit, components_append, ← between]

theorem sum_between_le (dir : List UInt8) (hji : j ≤ i) :
    ((steps (between dir j i)).map fun n => n.length + 1).sum ≤ i - j := by
  have hsteps := sum_steps_le (between dir j i)
  obtain rfl | hlt := hji.eq_or_lt
  · rw [between_self, Nat.sub_self]
    exact le_rfl
  · have hle := sum_components_le ((dir.take i).drop (j + 1))
    have hlen : ((dir.take i).drop (j + 1)).length ≤ i - (j + 1) := by
      rw [List.length_drop]
      exact Nat.sub_le_sub_right (List.length_take_le i dir) _
    rw [← between] at hle
    omega

theorem exists_last (hslash : dir[j]? = some slash) (hji : j < i) :
    ∃ m n, j ≤ m ∧ m < i ∧ dir[m]? = some slash ∧ slash ∉ n ∧ dir.take i = dir.take m ++ slash :: n := by
  have hget : (dir.take i)[j]? = some slash := by rw [List.getElem?_take_of_lt hji, hslash]
  have hpath := beforeSlash_append (List.mem_of_getElem? hget)
  have hn := slash_notMem_afterSlash (dir.take i)
  generalize beforeSlash (dir.take i) = u at hpath
  generalize afterSlash (dir.take i) = n at hpath hn
  have hu : u.length < i := by
    have hle := List.length_take_le i dir
    rw [← hpath, List.length_append, List.length_cons] at hle
    omega
  have hsplit : u ++ slash :: (n ++ dir.drop i) = dir := by
    rw [← List.cons_append, ← List.append_assoc, hpath, List.take_append_drop]
  have htake : dir.take u.length = u := by
    rw [← hsplit, List.take_left]
  refine ⟨u.length, n, ?_, hu, ?_, hn, by rw [htake, hpath]⟩
  · by_contra hlt
    rw [← hpath, List.getElem?_append_right (by omega), List.getElem?_cons, if_neg (by omega)] at hget
    exact hn (List.mem_of_getElem? hget)
  · rw [← hsplit, List.getElem?_append_right le_rfl, Nat.sub_self, List.getElem?_cons_zero]

theorem start_take (hj : 0 < j) (hi : 0 < i) : start cwd (dir.take i) = start cwd (dir.take j) := by
  rw [start, start, List.head?_take, List.head?_take, if_neg hi.ne', if_neg hj.ne']

end Between

structure FirstMissing (fs : FileTree) (cwd : Path) (dir : List UInt8) (j : ℕ) : Prop where
  slash : dir[j]? = some slash
  before : ∀ i < j, 0 < i → dir[i]? = some FileTree.slash → fs.IsDir cwd (dir.take i)
  clear : fs.Clear cwd (dir.take j)
  missing : ¬fs.IsDir cwd (dir.take j)

section FirstMissing

variable (h : FirstMissing fs cwd dir j) (hfs : fs.Proper) (hcwd : fs.get cwd = some .dir)
include h hfs hcwd

theorem FirstMissing.made_eq (hj : j ≤ (cString dir).length) (hi : i ≤ j) : made cwd dir fs i = fs := by
  induction i with
  | zero => simp [made, pCreateDirectories]
  | succ i ih =>
    rw [made_succ (by omega), ih (by omega)]
    split_ifs with hslash
    · apply mkdir_exists hfs
      obtain rfl | hpos := Nat.eq_zero_or_pos i
      · exact ⟨cwd, walk_nil, hcwd⟩
      · exact h.before i hi hpos hslash
    · rfl

theorem FirstMissing.vacant (hj : j ≤ (cString dir).length) : ∃ top, fs.Vacant cwd (dir.take j) top := by
  obtain ⟨ns, n, hsplit⟩ := split_take hj cwd
  obtain ⟨d, hr⟩ : ∃ d, Reached fs fs (start cwd (dir.take j)) ns d := by
    apply hsplit.reached hfs hcwd
    intro i hi hpos hslash
    obtain ⟨d, hd, hdir⟩ := h.before i hi hpos hslash
    exact ⟨d, hd, hdir, fun _ => hd⟩
  exact ⟨d ++ [n], (hsplit.below hr).vacant hfs h.clear h.missing⟩

end FirstMissing

structure Chain (fs : FileTree) (dir : List UInt8) (j : ℕ) (top : Path) (i : ℕ) (fs' : FileTree) : Prop where
  proper : fs'.Proper
  made : ∀ m, j ≤ m → m < i → dir[m]? = some slash → fs'.get (top ++ steps (between dir j m)) = some .dir
  others : ∀ p, (∀ m, j ≤ m → m < i → dir[m]? = some slash → p ≠ top ++ steps (between dir j m)) →
    fs'.get p = fs.get p

namespace Chain

variable (hfs : fs.Proper) (hvacant : fs.Vacant cwd (dir.take j) top) (hslash : dir[j]? = some slash)
include hfs hvacant hslash

theorem start : Chain fs dir j top (j + 1) (fs ++ [(top, .dir)]) := by
  have hself : top ++ steps (between dir j j) = top := by rw [between_self]; exact List.append_nil top
  constructor
  · exact hvacant.proper hfs
  · intro m hjm hm _
    obtain rfl : m = j := by omega
    rw [hself, get_append_dir hvacant.absent, if_pos rfl]
  · intro p hp
    rw [get_append_dir hvacant.absent, if_neg]
    have hne := hp j le_rfl (Nat.lt_succ_self j) hslash
    rwa [hself] at hne

variable (h : Chain fs dir j top i fs')
include h

omit hfs hvacant in
theorem top_dir (hji : j < i) : fs'.get top = some .dir := by
  have hmade := h.made j le_rfl hji hslash
  rw [between_self] at hmade
  simpa [steps] using hmade

omit hslash in
theorem part : Part fs fs' := by
  intro p x hx
  rw [h.others p, hx]
  rintro m - - - rfl
  rw [hvacant.below hfs] at hx
  cases hx

omit hslash in
theorem dir_of_below {r : Path} (hr : fs'.get (top ++ r) ≠ none) :
    ∃ m, j ≤ m ∧ m < i ∧ dir[m]? = some slash ∧ r = steps (between dir j m) := by
  by_contra hnone
  push Not at hnone
  apply hr
  rw [h.others, hvacant.below hfs]
  intro m hjm hmi hm heq
  exact hnone m hjm hmi hm (List.append_cancel_left heq)

theorem walks (hjm : j ≤ m) (hmi : m < i) (hm : dir[m]? = some slash) (hup : dotdot ∉ between dir j m) :
    fs'.walk true maxLinks (FileTree.start cwd (dir.take j)) (components (dir.take m)) =
      some (top ++ steps (between dir j m)) := by
  have htop := h.top_dir hslash (by omega)
  have hmade := h.made m hjm hmi hm
  obtain ⟨b, -, hw⟩ := walk_append htop
    (hvacant.walks h.proper (h.part hfs hvacant) htop true) (between dir j m)
  rw [components_between hslash hjm, hw]
  apply walk_steps hup
  intro r hr
  by_cases heq : r = steps (between dir j m)
  · rw [heq, hmade]
  · apply h.proper.dir_of_prefix (q := top ++ steps (between dir j m)) (by simp [hmade])
    · exact (List.prefix_append_right_inj top).mpr hr
    · simpa using heq

theorem mkdir (hi : i ≤ (cString dir).length) (hji : j < i) (hsep : dir[i]? = some slash)
    (hup : dotdot ∉ between dir j i) : Chain fs dir j top (i + 1) (fs'.mkdir cwd (dir.take i)) := by
  obtain ⟨m, n, hjm, hmi, hm, hn, htake⟩ := exists_last hslash hji
  have hcomps : components (dir.take i) = components (dir.take m) ++ if n = [] then [] else [n] := by
    rw [htake, components_concat hn]
  have hbetween : between dir j i = between dir j m ++ if n = [] then [] else [n] := by
    rw [components_between hslash hji.le, components_between hslash hjm, List.append_assoc] at hcomps
    exact List.append_cancel_left hcomps
  have hup' : dotdot ∉ between dir j m := fun hmem => hup (by rw [hbetween]; exact List.mem_append_left _ hmem)
  have hwalk := h.walks hfs hvacant hslash hjm hmi hm hup'
  have hmade := h.made m hjm hmi hm
  have hpos : 0 < j := by
    by_contra hzero
    exact hvacant.ne_nil (by simp [Nat.eq_zero_of_not_pos hzero])
  rw [← start_take (i := i) hpos (by omega)] at hwalk
  have hnul : 0 ∉ n := by
    have hz := zero_notMem_take hi
    rw [htake] at hz
    exact fun hmem => hz (by simp [hmem])
  -- the separator adds nothing to the chain
  have same (hdir : fs'.get (top ++ steps (between dir j i)) = some .dir) : Chain fs dir j top (i + 1) fs' := by
    refine ⟨h.proper, ?_, ?_⟩
    · intro l hjl hl hsl
      obtain hlt | rfl := Nat.lt_succ_iff_lt_or_eq.mp hl
      · exact h.made l hjl hlt hsl
      · exact hdir
    · intro p hp
      exact h.others p fun l hjl hl => hp l hjl (by omega)
  by_cases hnil : n = []
  · rw [if_pos hnil, List.append_nil] at hcomps hbetween
    rw [mkdir_exists h.proper ⟨_, by rw [hcomps, hwalk], hmade⟩]
    exact same (by rw [hbetween, hmade])
  rw [if_neg hnil] at hcomps hbetween
  obtain rfl | rfl | hord := name_cases n
  · obtain ⟨b, -, hw⟩ := walk_append hmade hwalk [dot]
    rw [mkdir_exists h.proper ⟨_, by rw [hcomps, hw, walk_dot], hmade⟩]
    apply same
    rw [hbetween]
    simpa [steps] using hmade
  · exact absurd (by simp [hbetween]) hup
  · have hend : top ++ steps (between dir j i) = top ++ steps (between dir j m) ++ [n] := by
      simp [hbetween, steps, hord.ne_dot]
    rw [mkdir_of_components hcomps hord hwalk]
    by_cases hnew : fs'.get (top ++ steps (between dir j m) ++ [n]) = none
    · rw [if_pos ⟨hmade, hnew⟩]
      have hslash' : FileTree.slash ∉ n := hn
      refine ⟨h.proper.append_dir hmade ⟨hord, hnil, hslash', hnul⟩ hnew, ?_, ?_⟩
      · intro l hjl hl hsl
        obtain hlt | rfl := Nat.lt_succ_iff_lt_or_eq.mp hl
        · exact part_append_dir hnew _ _ (h.made l hjl hlt hsl)
        · rw [hend, get_append_dir hnew, if_pos rfl]
      · intro p hp
        rw [get_append_dir hnew, if_neg (hend ▸ hp i hji.le (Nat.lt_succ_self i) hsep)]
        exact h.others p fun l hjl hl => hp l hjl (by omega)
    · rw [if_neg fun hc => hnew hc.2]
      rw [List.append_assoc] at hnew
      obtain ⟨l, hjl, hli, hl, heq⟩ := h.dir_of_below hfs hvacant hnew
      apply same
      rw [hend, List.append_assoc, heq, h.made l hjl hli hl]

omit hfs hvacant hslash in
theorem skip (hsep : dir[i]? ≠ some slash) : Chain fs dir j top (i + 1) fs' := by
  have before {l : ℕ} (hl : l < i + 1) (hsl : dir[l]? = some slash) : l < i := by
    obtain hlt | rfl := Nat.lt_succ_iff_lt_or_eq.mp hl
    · exact hlt
    · exact absurd hsl hsep
  refine ⟨h.proper, fun l hjl hl hsl => h.made l hjl (before hl hsl) hsl, ?_⟩
  intro p hp
  exact h.others p fun l hjl hl => hp l hjl (by omega)

end Chain

theorem FirstMissing.chain (h : FirstMissing fs cwd dir j) (hfs : fs.Proper) (hcwd : fs.get cwd = some .dir)
    (hvacant : fs.Vacant cwd (dir.take j) top) (hjk : j < k) (hk : k ≤ (cString dir).length)
    (hup : ∀ i, j < i → i < k → dir[i]? = some FileTree.slash → dotdot ∉ between dir j i) :
    Chain fs dir j top k (made cwd dir fs k) := by
  induction k, hjk using Nat.le_induction with
  | base =>
    rw [made_succ hk, if_pos h.slash, h.made_eq hfs hcwd (by omega) le_rfl, hvacant.mkdir]
    exact .start hfs hvacant h.slash
  | succ k hjk ih =>
    have hchain := ih (by omega) fun i hji hik => hup i hji (by omega)
    rw [made_succ hk]
    split_ifs with hsep
    · exact hchain.mkdir hfs hvacant h.slash (by omega) hjk hsep (hup k hjk (by omega) hsep)
    · exact hchain.skip hsep

namespace Chain

variable (hfs : fs.Proper) (hvacant : fs.Vacant cwd (dir.take j) top) (h : Chain fs dir j top k fs')
include hfs hvacant h

theorem plain (p : Path) (t : List UInt8) (hp : top <+: p) : fs'.get p ≠ some (.link t) := by
  obtain ⟨r, rfl⟩ := hp
  intro hlink
  have hthere : fs'.get (top ++ r) ≠ none := by simp [hlink]
  obtain ⟨m, hjm, hmk, hm, rfl⟩ := h.dir_of_below hfs hvacant hthere
  rw [h.made m hjm hmk hm] at hlink
  cases hlink

theorem skipped_stays {o : ReadOrder} {depth : ℕ} {r : ℤ × FileTree} {n : Name}
    (hopen : fs'.opendir cwd (dir.take j) = some top)
    (hrun : udoFileOpsRemoveDir o cwd depth fs' (dir.take j) = some r) (hji : j ≤ i) (hik : i < k)
    (hsep : dir[i]? = some slash) (hn : n ∈ steps (between dir j i)) (hskip : Skipped n) :
    ∃ p, fs.get p = none ∧ r.2.get p = some .dir := by
  obtain ⟨above, rest, hsplit⟩ := List.append_of_mem hn
  have hmade := h.made i hji hik hsep
  have hdir : fs'.get (top ++ above ++ [n]) = some .dir := by
    by_cases hrest : rest = []
    · rw [← hmade, hsplit, hrest, List.append_assoc]
    · apply h.proper.dir_of_prefix (q := top ++ steps (between dir j i)) (by simp [hmade])
      · exact ⟨rest, by simp [hsplit]⟩
      · simpa [hsplit] using hrest
  have hremains := (removeDir_remains h.proper hopen (h.plain hfs hvacant) hrun).2
  refine ⟨top ++ above ++ [n], ?_, ?_⟩
  · rw [List.append_assoc, hvacant.below hfs]
  · rw [hremains.skipped _ n (List.prefix_append top above) hskip, hdir]

variable (hmax : k ≤ pathMax)
include hmax

theorem fits (ns : List Name) (hns : fs'.get (top ++ ns) ≠ none) :
    (ns.foldl child (dir.take j)).length < pathMax := by
  obtain ⟨m, hjm, hmk, -, rfl⟩ := h.dir_of_below hfs hvacant hns
  have hsum := sum_between_le dir hjm
  have hlen := List.length_take_le j dir
  rw [length_foldl_child]
  omega

variable (hslash : dir[j]? = some slash) (hjk : j < k)
include hslash hjk

theorem opendir : fs'.opendir cwd (dir.take j) = some top := by
  have htop := h.top_dir hslash hjk
  have hlen := List.length_take_le j dir
  rw [opendir_eq_some]
  exact ⟨hvacant.resolves (by omega) h.proper (h.part hfs hvacant) htop true, htop⟩

theorem rmdir : ((fs'.without (Below top)).rmdir cwd (dir.take j)).isSome := by
  obtain ⟨ns, d, n, hs, hn, -⟩ := hvacant.parent
  have htop : (fs'.without (Below top)).get top = some .dir := by
    rw [get_without, if_neg (fun hb => hb.2 rfl), h.top_dir hslash hjk]
  have hpart : Part fs (fs'.without (Below top)) := by
    intro p x hx
    rw [get_without, if_neg, h.part hfs hvacant p x hx]
    rintro ⟨⟨r, rfl⟩, -⟩
    rw [hvacant.below hfs] at hx
    cases hx
  have hlen := List.length_take_le j dir
  refine rmdir_isSome_iff.mpr ⟨top, n, ?_, by rw [hs, List.getLast?_concat], hn.toOrdinary, htop, ?_⟩
  · exact hvacant.resolves (by omega) (proper_without_below h.proper top) hpart htop false
  · intro m
    rw [get_without, if_pos below_child]

end Chain

theorem directories_unmade_iff (o : ReadOrder) (hfs : fs.Proper) (hcwd : fs.get cwd = some .dir)
    (hk : k ≤ (cString dir).length) (hmax : k ≤ pathMax) (hjk : j < k) (hfirst : FirstMissing fs cwd dir j)
    (hup : ∀ i, j < i → i < k → dir[i]? = some slash → dotdot ∉ between dir j i) :
    ∃ fs', (∀ depth > pathMax,
        udoFileOpsRemoveDir o cwd depth (made cwd dir fs k) (dir.take j) = some (0, fs')) ∧
      ((∀ p, fs'.get p = fs.get p) ↔
        ∀ i, j < i → i < k → dir[i]? = some slash → ∀ n ∈ between dir j i, Skipped n → n = dot) := by
  obtain ⟨top, hvacant⟩ := hfirst.vacant hfs hcwd (by omega)
  have hchain := hfirst.chain hfs hcwd hvacant hjk hk hup
  have hopen := hchain.opendir hfs hvacant hmax hfirst.slash hjk
  have hplain := hchain.plain hfs hvacant
  obtain ⟨fs', hrun⟩ := removeDir_returns (o := o) hopen
  have hrun' := hrun (pathMax + 1) (Nat.lt_succ_self _)
  refine ⟨fs', hrun, ?_⟩
  constructor
  · intro hsame i hji hik hsep n hn hskip
    by_contra hdot
    have hstep : n ∈ steps (between dir j i) := List.mem_filter.mpr ⟨hn, by simpa using hdot⟩
    obtain ⟨p, hnone, hstays⟩ := hchain.skipped_stays hfs hvacant hopen hrun' hji.le hik hsep hstep hskip
    rw [hsame, hnone] at hstays
    cases hstays
  · intro hnames p
    have hnamed (q : Path) (n : Name) (hq : top <+: q) (hn : (made cwd dir fs k).get (q ++ [n]) ≠ none) :
        ¬Skipped n := by
      obtain ⟨r, rfl⟩ := hq
      rw [List.append_assoc] at hn
      obtain ⟨m, hjm, hmk, hm, heq⟩ := hchain.dir_of_below hfs hvacant hn
      have hmem : n ∈ steps (between dir j m) := by rw [← heq]; simp
      obtain ⟨hmem, hdot⟩ := List.mem_filter.mp hmem
      obtain rfl | hlt := hjm.eq_or_lt
      · rw [between_self] at hmem
        cases hmem
      · intro hskip
        simp [hnames m hlt hmk hm n hmem hskip] at hdot
    have hrmdir := hchain.rmdir hfs hvacant hmax hfirst.slash hjk
    have hready := Ready.of_rmdir hchain.proper hopen hplain (hchain.fits hfs hvacant hmax) hnamed hrmdir
    have hcleared := hready.removes hrmdir hrun'
    by_cases hp : top <+: p
    · obtain ⟨r, rfl⟩ := hp
      rw [hcleared.gone _ (List.prefix_append top r), hvacant.below hfs]
    · rw [hcleared.kept p hp, hchain.others]
      rintro m - - - rfl
      exact hp (List.prefix_append top _)

theorem directories_unmade_two : ∃ fs', (∀ depth > pathMax,
    udoFileOpsRemoveDir .stored [] depth (made [] [47, 97, 47, 98, 47, 99, 0] [([], .dir)] 6) [47, 97] =
      some (0, fs')) ∧ ∀ p, fs'.get p = FileTree.get [([], .dir)] p := by
  have hnone (follow : Bool) :
      FileTree.walk [([], .dir)] follow maxLinks (FileTree.start [] [47, 97]) (components [47, 97]) = none := by
    cases follow <;> decide +kernel
  have hsep : ∀ i < 6, [47, 97, 47, 98, 47, 99, 0][i]? = some slash → i = 0 ∨ i = 2 ∨ i = 4 := by decide
  have hfirst : FirstMissing [([], .dir)] [] [47, 97, 47, 98, 47, 99, 0] 2 := by
    refine ⟨rfl, ?_, fun hentry => absurd (hnone false) hentry, ?_⟩
    · intro i hi hpos hslash
      have := hsep i (by omega) hslash
      omega
    · rintro ⟨p, hp, -⟩
      cases (hnone true).symm.trans hp
  have hlast (i : ℕ) (hji : 2 < i) (hik : i < 6) (hslash : [47, 97, 47, 98, 47, 99, 0][i]? = some slash) : i = 4 := by
    have := hsep i hik hslash
    omega
  obtain ⟨fs', hrun, hiff⟩ := directories_unmade_iff .stored (by decide +kernel) rfl (by decide) (by decide)
    (by decide) hfirst (k := 6) (fun i hji hik hslash => by
      obtain rfl := hlast i hji hik hslash
      decide)
  refine ⟨fs', hrun, hiff.mpr ?_⟩
  intro i hji hik hslash
  obtain rfl := hlast i hji hik hslash
  decide

end Libcando.FileOps
