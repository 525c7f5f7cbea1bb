import Libcando.PathWalk
import Mathlib.Data.Int.Notation
import Mathlib.Data.List.Perm.Basic

namespace Libcando.FileOps

open FileTree

/-- `UDO_STRTOU`, which adds up characters that are signed. -/
def udoStrtou (n : Name) : UInt32 := n.foldl (fun hash c => hash + c.toInt8.toInt32.toUInt32) 0

def udoFilePathMax : ℕ := 1 <<< 12 + 1 <<< 8

def Skipped (n : Name) : Prop := udoStrtou n = 46 ∨ udoStrtou n = 92

instance (n : Name) : Decidable (Skipped n) := inferInstanceAs (Decidable (_ ∨ _))

/-- The order in which the system hands out the entries of a directory, chosen anew at each opening. -/
structure ReadOrder where
  order : List UInt8 → List Name → List Name
  perm : ∀ dir ns, (order dir ns).Perm ns

def ReadOrder.stored : ReadOrder := ⟨fun _ ns => ns, fun _ ns => .refl ns⟩

def entryPath (dir : List UInt8) (n : Name) : List UInt8 := (child dir n).take (udoFilePathMax - 1)

def removeEntry (rec : FileTree → List UInt8 → Option (ℤ × FileTree)) (cwd : Path) (dir : List UInt8)
    (fs : FileTree) (n : Name) : Option FileTree :=
  if Skipped n then some fs
  else
    match fs.stat cwd (entryPath dir n) with
    | none => some fs
    | some .dir => (rec fs (entryPath dir n)).map Prod.snd
    | some _ => some ((fs.remove cwd (entryPath dir n)).getD fs)

/-- No value stands for a recursion that has not come to its end at the given depth. -/
def udoFileOpsRemoveDir (o : ReadOrder) (cwd : Path) : ℕ → FileTree → List UInt8 → Option (ℤ × FileTree)
  | 0, _, _ => none
  | depth + 1, fs, dir =>
    match fs.opendir cwd dir with
    | none => some (-1, fs)
    | some d =>
      -- an entry that goes while the others are read is no longer found by `stat`
      ((o.order dir (fs.readdir d)).foldlM (removeEntry (udoFileOpsRemoveDir o cwd depth) cwd dir) fs).map
        fun fs => (0, (fs.rmdir cwd dir).getD fs)

section Fold

variable {α β : Type*} {f f' : β → α → Option β} {l : List α} {b c : β}

theorem foldlM_total (h : ∀ b a, ∃ c, f b a = some c) (l : List α) (b : β) : ∃ c, l.foldlM f b = some c := by
  induction l generalizing b with
  | nil => exact ⟨b, rfl⟩
  | cons a l ih =>
    obtain ⟨c, hc⟩ := h b a
    obtain ⟨d, hd⟩ := ih c
    exact ⟨d, by simp [hc, hd]⟩

theorem foldlM_mono (h : ∀ b a c, f b a = some c → f' b a = some c) (hl : l.foldlM f b = some c) :
    l.foldlM f' b = some c := by
  induction l generalizing b with
  | nil => exact hl
  | cons a l ih =>
    rw [List.foldlM_cons, Option.bind_eq_bind, Option.bind_eq_some_iff] at hl ⊢
    obtain ⟨d, hd, hl⟩ := hl
    exact ⟨d, h b a d hd, ih hl⟩

theorem foldlM_invariant {I : β → Prop} (h : ∀ b, ∀ a ∈ l, ∀ c, I b → f b a = some c → I c) (hb : I b)
    (hl : l.foldlM f b = some c) : I c := by
  induction l generalizing b with
  | nil =>
    cases hl
    exact hb
  | cons a l ih =>
    rw [List.foldlM_cons, Option.bind_eq_bind, Option.bind_eq_some_iff] at hl
    obtain ⟨d, hd, hl⟩ := hl
    exact ih (fun b a' ha' => h b a' (by simp [ha'])) (h b a (by simp) d hb hd) hl

end Fold

variable {o : ReadOrder} {cwd p : Path} {dir : List UInt8} {fs fs' : FileTree} {n : Name} {depth : ℕ}

section Depth

theorem entryPath_length (dir : List UInt8) (n : Name) :
    pathMax ≤ (entryPath dir n).length ∨ dir.length < (entryPath dir n).length := by
  have hmax : udoFilePathMax = 4352 := rfl
  simp only [entryPath, List.length_take, length_child, hmax, pathMax]
  omega

theorem opendir_long (h : pathMax ≤ dir.length) : fs.opendir cwd dir = none := by
  simp [opendir, resolve, h]

theorem removeEntry_total {rec : FileTree → List UInt8 → Option (ℤ × FileTree)}
    (hrec : ∀ fs, ∃ r, rec fs (entryPath dir n) = some r) : ∃ fs', removeEntry rec cwd dir fs n = some fs' := by
  obtain ⟨r, hr⟩ := hrec fs
  rw [removeEntry]
  split_ifs
  · exact ⟨_, rfl⟩
  · split
    · exact ⟨_, rfl⟩
    · exact ⟨_, by rw [hr, Option.map_some]⟩
    · exact ⟨_, rfl⟩

/-- The recursion ends, because every call has a longer path and long paths are refused. -/
theorem removeDir_total (hpos : 0 < depth) (hdepth : pathMax < depth + dir.length) :
    ∃ r, udoFileOpsRemoveDir o cwd depth fs dir = some r := by
  induction depth generalizing fs dir with
  | zero => omega
  | succ depth ih =>
    rw [udoFileOpsRemoveDir]
    cases hd : fs.opendir cwd dir with
    | none => exact ⟨_, rfl⟩
    | some d =>
      have hlen : dir.length < pathMax := by
        by_contra hlen
        rw [opendir_long (by omega)] at hd
        cases hd
      have hpos : 0 < depth := by omega
      have htotal (fs : FileTree) (n : Name) :
          ∃ fs', removeEntry (udoFileOpsRemoveDir o cwd depth) cwd dir fs n = some fs' := by
        apply removeEntry_total
        intro fs
        have hentry := entryPath_length dir n
        exact ih hpos (by omega)
      obtain ⟨fs', hfs'⟩ := foldlM_total htotal (o.order dir (fs.readdir d)) fs
      exact ⟨(0, (fs'.rmdir cwd dir).getD fs'), by simp only [hfs', Option.map_some]⟩

theorem removeDir_succ {r : ℤ × FileTree} (h : udoFileOpsRemoveDir o cwd depth fs dir = some r) :
    udoFileOpsRemoveDir o cwd (depth + 1) fs dir = some r := by
  induction depth generalizing fs dir r with
  | zero => cases h
  | succ depth ih =>
    rw [udoFileOpsRemoveDir] at h ⊢
    cases hd : fs.opendir cwd dir with
    | none => simpa [hd] using h
    | some d =>
      simp only [hd, Option.map_eq_some_iff] at h ⊢
      obtain ⟨fs', hfs', rfl⟩ := h
      refine ⟨fs', foldlM_mono ?_ hfs', rfl⟩
      intro fs n fs' hn
      rw [removeEntry] at hn ⊢
      split_ifs at hn ⊢
      · exact hn
      · split at hn
        · simpa using hn
        · obtain ⟨r, hr, rfl⟩ := Option.map_eq_some_iff.mp hn
          simp [ih hr]
        · simpa using hn

theorem removeDir_deeper {depth' : ℕ} (hle : depth ≤ depth') {r : ℤ × FileTree}
    (h : udoFileOpsRemoveDir o cwd depth fs dir = some r) : udoFileOpsRemoveDir o cwd depth' fs dir = some r := by
  induction depth', hle using Nat.le_induction with
  | base => exact h
  | succ depth' _ ih => exact removeDir_succ ih

theorem removeDir_opened {r : ℤ × FileTree} (hdir : fs.opendir cwd dir = some p)
    (h : udoFileOpsRemoveDir o cwd depth fs dir = some r) :
    ∃ k fs', (o.order dir (fs.readdir p)).foldlM (removeEntry (udoFileOpsRemoveDir o cwd k) cwd dir) fs = some fs' ∧
      r = (0, (fs'.rmdir cwd dir).getD fs') := by
  cases depth with
  | zero => cases h
  | succ k =>
    rw [udoFileOpsRemoveDir, hdir] at h
    obtain ⟨fs', hloop, rfl⟩ := Option.map_eq_some_iff.mp h
    exact ⟨k, fs', hloop, rfl⟩

theorem removeDir_returns (hdir : fs.opendir cwd dir = some p) :
    ∃ fs', ∀ depth > pathMax, udoFileOpsRemoveDir o cwd depth fs dir = some (0, fs') := by
  have htotal : ∃ r, udoFileOpsRemoveDir o cwd (pathMax + 1) fs dir = some r :=
    removeDir_total (by omega) (by omega)
  obtain ⟨r, hr⟩ := htotal
  have hrun (depth : ℕ) (hdepth : depth > pathMax) := removeDir_deeper hdepth hr
  obtain ⟨_, fs', _, rfl⟩ := removeDir_opened hdir hr
  exact ⟨_, hrun⟩

end Depth

section Entered

theorem skipped_dot : Skipped dot := .inl rfl

theorem skipped_dotdot : Skipped dotdot := .inr rfl

inductive Entered (fs : FileTree) (cwd : Path) (dir : List UInt8) : List UInt8 → Prop
  | top : Entered fs cwd dir dir
  | entry {s : List UInt8} {n : Name} : Entered fs cwd dir s → s ≠ [] → ValidName n → ¬Skipped n →
      fs.stat cwd (child s n) = some .dir → Entered fs cwd dir (child s n)

inductive Taken (fs₀ : FileTree) (cwd : Path) (dir : List UInt8) (fs : FileTree) : Path → Prop
  | plain {s : List UInt8} {d : Path} {n : Name} {x : Node} : Entered fs₀ cwd dir s → s ≠ [] → ValidName n →
      ¬Skipped n → fs.resolve true cwd s = some d → fs.get (d ++ [n]) ≠ none → fs.stat cwd (child s n) = some x →
      x ≠ .dir → Taken fs₀ cwd dir fs (d ++ [n])
  | sub {s : List UInt8} {d : Path} {n : Name} : Entered fs₀ cwd dir s → s ≠ [] → ValidName n →
      ¬Skipped n → fs.resolve true cwd s = some d → fs.get (d ++ [n]) = some .dir →
      (∀ m, fs.get (d ++ [n] ++ [m]) = none) → (child s n).length < pathMax → Taken fs₀ cwd dir fs (d ++ [n])
  | top {p : Path} : fs.resolve false cwd dir = some p → fs.get p = some .dir → (∀ m, fs.get (p ++ [m]) = none) →
      p ≠ [] → (fs.rmdir cwd dir).isSome → Taken fs₀ cwd dir fs p

def DirLink (fs : FileTree) (c : Path) (m : Name) : Prop :=
  ∃ t q, fs.get (c ++ [m]) = some (.link t) ∧ fs.walk true maxLinks c [m] = some q ∧ fs.get q = some .dir

variable {fs₀ : FileTree} {s : List UInt8}

theorem entryPath_of_lt (h : (child s n).length < pathMax) : entryPath s n = child s n := by
  have hmax : udoFilePathMax = 4352 := rfl
  rw [pathMax] at h
  exact List.take_of_length_le (by omega)

theorem stat_entryPath {x : Node} (h : fs.stat cwd (entryPath s n) = some x) : entryPath s n = child s n := by
  obtain ⟨q, hq, -⟩ := stat_eq_some.mp h
  have hlen := (resolve_bounds hq).2
  have hmax : udoFilePathMax = 4352 := rfl
  rw [entryPath, List.length_take, pathMax, hmax] at hlen
  exact List.take_of_length_le (by omega)

theorem Taken.empty (hfs : fs.Proper) (h : Taken fs₀ cwd dir fs p) : p ≠ [] ∧ ∀ m, fs.get (p ++ [m]) = none := by
  cases h with
  | @plain s d n x _ hs hn _ hd _ hx hxd =>
    refine ⟨by simp, hfs.no_entry ?_⟩
    intro hdir
    obtain ⟨d', q, hd', -, -, -, -, hplain⟩ := stat_child hfs hn hs hx
    rw [hd] at hd'
    cases hd'
    exact hxd (hplain .dir hdir (by simp)).2
  | sub _ _ _ _ _ _ hempty _ => exact ⟨by simp, hempty⟩
  | top _ _ hempty hne _ => exact ⟨hne, hempty⟩

theorem Entered.taken_rmdir (hfs : fs.Proper) (hs : Entered fs₀ cwd dir s) (h : fs.rmdir cwd s = some fs') :
    ∃ p, Taken fs₀ cwd dir fs p ∧ fs' = fs.without (· = p) := by
  obtain ⟨p, hp, hdir, hempty, hne, rfl⟩ := rmdir_eq_some hfs h
  refine ⟨p, ?_, rfl⟩
  cases hs with
  | top => exact .top hp hdir hempty hne (by simp [h])
  | entry hs hs0 hn hskip _ =>
    obtain ⟨d, hd, rfl, -⟩ := resolve_child_nofollow hfs hn hs0 hp
    exact .sub hs hs0 hn hskip hd hdir hempty (resolve_bounds hp).2

theorem Entered.taken_remove (hfs : fs.Proper) (hs : Entered fs₀ cwd dir s) (hs0 : s ≠ []) (hn : ValidName n)
    (hskip : ¬Skipped n) {x : Node} (hx : fs.stat cwd (child s n) = some x) (hxd : x ≠ .dir)
    (h : fs.remove cwd (child s n) = some fs') : ∃ p, Taken fs₀ cwd dir fs p ∧ fs' = fs.without (· = p) := by
  obtain ⟨p, hp, -, -, rfl⟩ := remove_eq_some hfs h
  obtain ⟨d, hd, rfl, hg⟩ := resolve_child_nofollow hfs hn hs0 hp
  exact ⟨d ++ [n], .plain hs hs0 hn hskip hd hg hx hxd, rfl⟩

theorem valid_of_mem_order {d : Path} (hfs : fs.Proper) (hmem : n ∈ o.order s (fs.readdir d)) (hskip : ¬Skipped n) :
    ValidName n := by
  have hn := (o.perm s _).mem_iff.mp hmem
  rw [mem_readdir] at hn
  · exact hfs.name d n hn
  · rintro rfl
    exact hskip skipped_dot
  · rintro rfl
    exact hskip skipped_dotdot

theorem Entered.within (hfs : fs.Proper) {top : Path} (htop : fs.opendir cwd dir = some top)
    (hs : Entered fs cwd dir s) {d : Path} (hd : fs.opendir cwd s = some d) :
    top <+: d ∨ ∃ c m, top <+: c ∧ DirLink fs c m := by
  induction hs generalizing d with
  | top =>
    rw [hd] at htop
    cases htop
    exact .inl List.prefix_rfl
  | @entry s n hs hs0 hn hskip hstat ih =>
    obtain ⟨c, q, hc, hg, hw, hq, hlen, hplain⟩ := stat_child hfs hn hs0 hstat
    obtain hin | hout := ih (opendir_eq_some.mpr ⟨hc, hfs.parent c n hg⟩)
    · obtain ⟨x, hx⟩ := Option.ne_none_iff_exists'.mp hg
      by_cases hlink : ∃ t, x = .link t
      · obtain ⟨t, rfl⟩ := hlink
        exact .inr ⟨c, n, hin, t, q, hx, hw, hq⟩
      · push Not at hlink
        have hres : fs.resolve true cwd (child s n) = _ := resolve_child_plain hfs hc hlen hx (.inr hlink)
        rw [(opendir_eq_some.mp hd).1] at hres
        cases hres
        exact .inl (hin.trans (List.prefix_append c [n]))
    · exact .inr hout

end Entered

structure Lasting (fs₀ : FileTree) (cwd : Path) (dir : List UInt8) (J : FileTree → Prop) : Prop where
  proper : ∀ fs, J fs → fs.Proper ∧ Part fs fs₀
  taken : ∀ fs p, J fs → Taken fs₀ cwd dir fs p → J (fs.without (· = p))

section Invariant

variable {fs₀ : FileTree} {s : List UInt8} {J : FileTree → Prop}
  {rec : FileTree → List UInt8 → Option (ℤ × FileTree)}

theorem Lasting.remove (hlast : Lasting fs₀ cwd dir J) (hs : Entered fs₀ cwd dir s) (hs0 : s ≠ []) (hn : ValidName n)
    (hskip : ¬Skipped n) {x : Node} (hx : fs.stat cwd (child s n) = some x) (hxd : x ≠ .dir) (hJ : J fs) :
    J ((fs.remove cwd (child s n)).getD fs) := by
  cases hremove : fs.remove cwd (child s n) with
  | none => exact hJ
  | some fs₁ =>
    obtain ⟨p, hp, rfl⟩ := hs.taken_remove (hlast.proper fs hJ).1 hs0 hn hskip hx hxd hremove
    exact hlast.taken fs p hJ hp

theorem Lasting.rmdir (hlast : Lasting fs₀ cwd dir J) (hs : Entered fs₀ cwd dir s) (hJ : J fs) :
    J ((fs.rmdir cwd s).getD fs) := by
  cases hrmdir : fs.rmdir cwd s with
  | none => exact hJ
  | some fs₁ =>
    obtain ⟨p, hp, rfl⟩ := hs.taken_rmdir (hlast.proper fs hJ).1 hrmdir
    exact hlast.taken fs p hJ hp

theorem Lasting.removeEntry (hlast : Lasting fs₀ cwd dir J)
    (hrec : ∀ fs r, J fs → Entered fs₀ cwd dir (child s n) → rec fs (child s n) = some r → J r.2)
    (hs : Entered fs₀ cwd dir s) (hs0 : s ≠ []) (hn : ¬Skipped n → ValidName n) (hJ : J fs)
    (h : removeEntry rec cwd s fs n = some fs') : J fs' := by
  rw [FileOps.removeEntry] at h
  split_ifs at h with hskip
  · cases h
    exact hJ
  · split at h
    · cases h
      exact hJ
    · rename_i hstat
      rw [stat_entryPath hstat] at h hstat
      obtain ⟨r, hr, rfl⟩ := Option.map_eq_some_iff.mp h
      exact hrec fs r hJ (.entry hs hs0 (hn hskip) hskip (stat_mono (hlast.proper fs hJ).2 hstat)) hr
    · rename_i x hx hstat
      rw [stat_entryPath hstat] at h hstat
      cases h
      exact hlast.remove hs hs0 (hn hskip) hskip hstat (by simpa using hx) hJ

theorem Lasting.removeEntries (hlast : Lasting fs₀ cwd dir J)
    (hrec : ∀ fs s r, J fs → Entered fs₀ cwd dir s → rec fs s = some r → J r.2)
    (hs : Entered fs₀ cwd dir s) (hs0 : s ≠ []) {ns : List Name} (hns : ∀ n ∈ ns, ¬Skipped n → ValidName n) (hJ : J fs)
    (h : ns.foldlM (FileOps.removeEntry rec cwd s) fs = some fs') : J fs' := by
  refine foldlM_invariant ?_ hJ h
  intro fs n hn fs₁ hJ hstep
  exact hlast.removeEntry (fun fs r => hrec fs _ r) hs hs0 (hns n hn) hJ hstep

theorem Lasting.removeDir (hlast : Lasting fs₀ cwd dir J) (hs : Entered fs₀ cwd dir s) (hJ : J fs) {r : ℤ × FileTree}
    (h : udoFileOpsRemoveDir o cwd depth fs s = some r) : J r.2 := by
  induction depth generalizing fs s r with
  | zero => cases h
  | succ depth ih =>
    rw [udoFileOpsRemoveDir] at h
    cases hd : fs.opendir cwd s with
    | none =>
      rw [hd] at h
      cases h
      exact hJ
    | some d =>
      rw [hd] at h
      obtain ⟨fs₁, hloop, rfl⟩ := Option.map_eq_some_iff.mp h
      apply hlast.rmdir hs
      refine hlast.removeEntries ?_ hs (opendir_ne_nil hd) ?_ hJ hloop
      · intro fs s r hJ hs hr
        exact ih hs hJ hr
      · intro n hn
        exact valid_of_mem_order (hlast.proper fs hJ).1 hn

theorem removeDir_invariant {I : FileTree → Prop} (hfs₀ : fs₀.Proper) (hI₀ : I fs₀)
    (hI : ∀ fs p, fs.Proper → Part fs fs₀ → I fs → Taken fs₀ cwd dir fs p → I (fs.without (· = p)))
    {r : ℤ × FileTree} (h : udoFileOpsRemoveDir o cwd depth fs₀ dir = some r) :
    r.2.Proper ∧ Part r.2 fs₀ ∧ I r.2 := by
  have hlast : Lasting fs₀ cwd dir (fun fs => fs.Proper ∧ Part fs fs₀ ∧ I fs) := by
    constructor
    · rintro fs ⟨hfs, hpart, -⟩
      exact ⟨hfs, hpart⟩
    · rintro fs p ⟨hfs, hpart, hIfs⟩ hp
      obtain ⟨hne, hempty⟩ := hp.empty hfs
      exact ⟨hfs.delete hne hempty, (part_without _).trans hpart, hI fs p hfs hpart hIfs hp⟩
  exact hlast.removeDir .top ⟨hfs₀, .refl fs₀, hI₀⟩ h

end Invariant

end Libcando.FileOps
