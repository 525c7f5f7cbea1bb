import Libcando.RemoveDir
import Mathlib.Logic.Function.Basic

namespace Libcando.FileOps

open FileTree

def Guarded (fs : FileTree) (cwd : Path) (dir : List UInt8) (top : Path) : Prop :=
  ∀ s d n, Entered fs cwd dir s → fs.opendir cwd s = some d → ¬Skipped n → fs.get (d ++ [n]) ≠ none →
    ¬top <+: d ++ [n] →
      (∀ x, fs.stat cwd (child s n) = some x → x = .dir) ∧ fs.rmdir cwd (child s n) = none

def ReadOrder.prefer (first : List UInt8 → Option Name) : ReadOrder where
  order dir ns :=
    match first dir with
    | some n => if n ∈ ns then n :: ns.erase n else ns
    | none => ns
  perm := by
    intro dir ns
    split
    · split_ifs with hn
      · exact (List.perm_cons_erase hn).symm
      · rfl
    · rfl

variable {o : ReadOrder} {cwd top p : Path} {dir s : List UInt8} {fs fs₀ fs' : FileTree} {n : Name} {depth : ℕ}

section Confined

structure Kept (fs₀ : FileTree) (top : Path) (fs : FileTree) : Prop where
  outside : ∀ p, ¬top <+: p → fs.get p = fs₀.get p
  link : ∀ c m, DirLink fs₀ c m → fs.get (c ++ [m]) = fs₀.get (c ++ [m])

theorem Taken.not_dirLink (hfs : fs.Proper) (hpart : Part fs fs₀) (h : Taken fs₀ cwd dir fs p) {c : Path} {m : Name}
    (hlink : DirLink fs₀ c m) : c ++ [m] ≠ p := by
  obtain ⟨t, q, ht, hq, hqdir⟩ := hlink
  rintro rfl
  have hnodir : fs.get (c ++ [m]) ≠ some .dir := by
    intro hdir
    rw [hpart _ _ hdir] at ht
    cases ht
  generalize hp : c ++ [m] = p at h
  cases h with
  | plain _ hs0 hn _ hd _ hstat hx =>
    obtain ⟨rfl, hm⟩ := List.append_inj' hp rfl
    cases hm
    obtain ⟨d', q', hd', -, hw, hq', -, -⟩ := stat_child hfs hn hs0 hstat
    rw [hd] at hd'
    cases hd'
    rw [walk_mono hpart le_rfl hw] at hq
    cases hq
    rw [hpart _ _ hq'] at hqdir
    exact hx (by simpa using hqdir)
  | sub _ _ _ _ _ hdir _ _ => exact hnodir (hp ▸ hdir)
  | top _ hdir _ _ _ => exact hnodir (hp ▸ hdir)

theorem Taken.within (hfs₀ : fs₀.Proper) (htop : fs₀.resolve false cwd dir = some top)
    (hdir : fs₀.get top = some .dir) (hguard : Guarded fs₀ cwd dir top) (hfs : fs.Proper) (hpart : Part fs fs₀)
    (hkept : Kept fs₀ top fs) (h : Taken fs₀ cwd dir fs p) : top <+: p := by
  have hopen {s : List UInt8} {d : Path} {n : Name} (hd : fs.resolve true cwd s = some d)
      (hg : fs.get (d ++ [n]) ≠ none) : fs₀.opendir cwd s = some d :=
    opendir_eq_some.mpr ⟨resolve_mono hpart hd, hfs₀.parent d n (hpart.ne_none hg)⟩
  cases h with
  | plain hs hs0 hn hskip hd hg hstat hx =>
    by_contra hout
    have hfile := (hguard _ _ _ hs (hopen hd hg) hskip (hpart.ne_none hg) hout).1
    exact hx (hfile _ (stat_mono hpart hstat))
  | @sub s d n hs hs0 hn hskip hd hg hempty hlen =>
    by_contra hout
    have hg' : fs.get (d ++ [n]) ≠ none := by simp [hg]
    have hrmdir := (hguard _ _ _ hs (hopen hd hg') hskip (hpart.ne_none hg') hout).2
    -- the directory had an entry at first, which can only have been the whole tree
    have hentry : ∃ m, fs₀.get (d ++ [n] ++ [m]) ≠ none := by
      by_contra hnone
      push Not at hnone
      rw [rmdir_child hfs₀ (resolve_mono hpart hd) hlen (hpart _ _ hg) hnone] at hrmdir
      cases hrmdir
    obtain ⟨m, hm⟩ := hentry
    have hin : top <+: d ++ [n] ++ [m] := by
      by_contra hnot
      rw [← hkept.outside _ hnot, hempty m] at hm
      exact hm rfl
    have heq := (List.prefix_concat_iff.mp hin).resolve_right hout
    obtain hd' | ⟨c, k, hc, hlink⟩ := hs.within hfs₀ (opendir_of_nofollow htop hdir) (hopen hd hg')
    · exact hout (hd'.trans (List.prefix_append d [n]))
    · have hk : fs.get (c ++ [k]) ≠ none := by
        obtain ⟨t, q, ht, -⟩ := id hlink
        simp [hkept.link c k hlink, ht]
      have htopdir := hfs.dir_of_prefix hk (hc.trans (List.prefix_append c [k])) (by
        rintro rfl
        have hlen := hc.length_le
        rw [List.length_append, List.length_singleton] at hlen
        omega)
      rw [heq, hempty m] at htopdir
      cases htopdir
  | top hp _ _ _ _ =>
    rw [resolve_mono hpart hp] at htop
    cases htop
    exact List.prefix_rfl

theorem Kept.delete (hkept : Kept fs₀ top fs) (hin : top <+: p) (hlink : ∀ c m, DirLink fs₀ c m → c ++ [m] ≠ p) :
    Kept fs₀ top (fs.without (· = p)) where
  outside := by
    intro q hq
    rw [get_without, if_neg, hkept.outside q hq]
    rintro rfl
    exact hq hin
  link := by
    intro c m hcm
    rw [get_without, if_neg (hlink c m hcm), hkept.link c m hcm]

theorem removeDir_kept (hfs₀ : fs₀.Proper) (htop : fs₀.resolve false cwd dir = some top)
    (hdir : fs₀.get top = some .dir) (hguard : Guarded fs₀ cwd dir top) {r : ℤ × FileTree}
    (h : udoFileOpsRemoveDir o cwd depth fs₀ dir = some r) : Kept fs₀ top r.2 := by
  have hkept₀ : Kept fs₀ top fs₀ := ⟨fun _ _ => rfl, fun _ _ _ => rfl⟩
  refine (removeDir_invariant hfs₀ hkept₀ ?_ h).2.2
  intro fs p hfs hpart hkept hp
  apply hkept.delete
  · exact hp.within hfs₀ htop hdir hguard hfs hpart hkept
  · intro c m hlink
    exact hp.not_dirLink hfs hpart hlink

end Confined

section Order

structure Gone (fs₀ : FileTree) (p : Path) (fs : FileTree) : Prop where
  proper : fs.Proper
  part : Part fs fs₀
  gone : fs.get p = none

theorem lasting_gone (fs₀ : FileTree) (cwd : Path) (dir : List UInt8) (p : Path) :
    Lasting fs₀ cwd dir (Gone fs₀ p) where
  proper := fun fs h => ⟨h.proper, h.part⟩
  taken := by
    intro fs q h hq
    obtain ⟨hne, hempty⟩ := hq.empty h.proper
    refine ⟨h.proper.delete hne hempty, (part_without _).trans h.part, ?_⟩
    rw [get_without, h.gone, ite_self]

def Loses (o : ReadOrder) (cwd : Path) (fs₀ : FileTree) (p : Path) (s : List UInt8) : Prop :=
  ∀ depth r, udoFileOpsRemoveDir o cwd depth fs₀ s = some r → Gone fs₀ p r.2

theorem loses_of_first (hfs₀ : fs₀.Proper) (hs : Entered fs₀ cwd dir s) {d : Path} (hd : fs₀.opendir cwd s = some d)
    {ns : List Name} (hfirst : o.order s (fs₀.readdir d) = n :: ns)
    (hentry : ∀ depth fs, removeEntry (udoFileOpsRemoveDir o cwd depth) cwd s fs₀ n = some fs → Gone fs₀ p fs) :
    Loses o cwd fs₀ p s := by
  intro depth r h
  obtain ⟨k, fs₁, hloop, rfl⟩ := removeDir_opened hd h
  have hlast := lasting_gone fs₀ cwd dir p
  have hns (m : Name) (hm : m ∈ n :: ns) : ¬Skipped m → ValidName m :=
    valid_of_mem_order hfs₀ (hfirst ▸ hm)
  rw [hfirst, List.foldlM_cons, Option.bind_eq_bind, Option.bind_eq_some_iff] at hloop
  obtain ⟨fs₂, hn, hloop⟩ := hloop
  apply hlast.rmdir hs
  refine hlast.removeEntries ?_ hs (opendir_ne_nil hd) ?_ (hentry k fs₂ hn) hloop
  · intro fs s r hgone hs hr
    exact hlast.removeDir hs hgone hr
  · intro m hm
    exact hns m (by simp [hm])

theorem order_prefer {first : List UInt8 → Option Name} {d : Path} (hfirst : first s = some n)
    (hn : fs.get (d ++ [n]) ≠ none) :
    (ReadOrder.prefer first).order s (fs.readdir d) = n :: (fs.readdir d).erase n := by
  have hmem : n ∈ fs.readdir d := by simp [readdir, mem_names.mpr hn]
  simp [ReadOrder.prefer, hfirst, hmem]

theorem Entered.exists_loses (hfs₀ : fs₀.Proper) (hs : Entered fs₀ cwd dir s) (first : List UInt8 → Option Name)
    (h : ∀ f, (∀ s', s.length ≤ s'.length → f s' = first s') → Loses (.prefer f) cwd fs₀ p s) :
    ∃ f, Loses (.prefer f) cwd fs₀ p dir := by
  induction hs generalizing first with
  | top => exact ⟨first, h first fun _ _ => rfl⟩
  | @entry s n hs hs0 hn hskip hstat ih =>
    apply ih (Function.update first s (some n))
    intro f hf
    obtain ⟨d, -, hd, hg, -, -, hlen, -⟩ := stat_child hfs₀ hn hs0 hstat
    have hfn : f s = some n := by rw [hf s le_rfl, Function.update_self]
    apply loses_of_first hfs₀ hs (opendir_eq_some.mpr ⟨hd, hfs₀.parent d n hg⟩) (order_prefer hfn hg)
    intro depth fs hentry
    rw [removeEntry, if_neg hskip, entryPath_of_lt hlen, hstat] at hentry
    obtain ⟨r, hr, rfl⟩ := Option.map_eq_some_iff.mp hentry
    refine h f ?_ depth r hr
    intro s' hlen
    rw [length_child] at hlen
    rw [hf s' (by omega), Function.update_of_ne]
    rintro rfl
    omega

theorem removeDir_empty (hfs : fs.Proper) {fs' : FileTree} (hp : fs.opendir cwd s = some p)
    (hempty : ∀ m, fs.get (p ++ [m]) = none) (hrmdir : fs.rmdir cwd s = some fs') {r : ℤ × FileTree}
    (h : udoFileOpsRemoveDir o cwd depth fs s = some r) : r.2 = fs' := by
  obtain ⟨k, fs₁, hloop, rfl⟩ := removeDir_opened hp h
  have hsame : fs₁ = fs := by
    refine foldlM_invariant (I := fun fs' => fs' = fs) ?_ rfl hloop
    intro fs₂ n hn fs₃ hfs₂ hstep
    have hskip : Skipped n := by
      by_contra hskip
      have hvalid := valid_of_mem_order hfs hn hskip
      have hmem := (o.perm s _).mem_iff.mp hn
      rw [mem_readdir hvalid.ne_dot hvalid.ne_dotdot] at hmem
      exact hmem (hempty n)
    rw [removeEntry, if_pos hskip] at hstep
    cases hstep
    exact hfs₂
  rw [hsame, hrmdir, Option.getD_some]

theorem removeEntry_gone (hfs₀ : fs₀.Proper) {d : Path} (hd : fs₀.opendir cwd s = some d) (hskip : ¬Skipped n)
    (hg : fs₀.get (d ++ [n]) ≠ none)
    (hopen : ¬((∀ x, fs₀.stat cwd (child s n) = some x → x = .dir) ∧ fs₀.rmdir cwd (child s n) = none))
    (h : removeEntry (udoFileOpsRemoveDir o cwd depth) cwd s fs₀ n = some fs) : Gone fs₀ (d ++ [n]) fs := by
  have hn := hfs₀.name d n hg
  have hres := (opendir_eq_some.mp hd).1
  have hs0 := opendir_ne_nil hd
  have hgone (hempty : ∀ m, fs₀.get (d ++ [n] ++ [m]) = none) : Gone fs₀ (d ++ [n]) (fs₀.without (· = d ++ [n])) :=
    ⟨hfs₀.delete (by simp) hempty, part_without _, by rw [get_without, if_pos rfl]⟩
  rw [not_and_or] at hopen
  obtain hplain | hsub := hopen
  · push Not at hplain
    obtain ⟨x, hx, hxd⟩ := hplain
    obtain ⟨d', q, hd', -, -, -, hlen, hplain⟩ := stat_child hfs₀ hn hs0 hx
    rw [hres] at hd'
    cases hd'
    obtain ⟨y, hy⟩ := Option.ne_none_iff_exists'.mp hg
    have hyd : y ≠ .dir := by
      rintro rfl
      exact hxd (hplain .dir hy (by simp)).2
    have hunlink : fs₀.unlink cwd (child s n) = _ := unlink_child hfs₀ hres hlen hy hyd
    rw [removeEntry, if_neg hskip, entryPath_of_lt hlen, hx] at h
    have hfs : fs = fs₀.without (· = d ++ [n]) := by
      cases x with
      | dir => exact absurd rfl hxd
      | file => simpa [remove, hunlink] using h.symm
      | link t => simpa [remove, hunlink] using h.symm
    rw [hfs]
    exact hgone (hfs₀.no_entry (by simp [hy, hyd]))
  · obtain ⟨fs₁, hfs₁⟩ := Option.ne_none_iff_exists'.mp hsub
    obtain ⟨p, hp, hdir, hempty, -, rfl⟩ := rmdir_eq_some hfs₀ hfs₁
    have hsub := opendir_of_nofollow hp hdir
    obtain ⟨d', hd', rfl, -⟩ := resolve_child_nofollow hfs₀ hn hs0 hp
    rw [hres] at hd'
    cases hd'
    rw [removeEntry, if_neg hskip, entryPath_of_lt (resolve_bounds hp).2,
      stat_eq_some.mpr ⟨d ++ [n], opendir_eq_some.mp hsub⟩] at h
    obtain ⟨r, hr, rfl⟩ := Option.map_eq_some_iff.mp h
    rw [removeDir_empty hfs₀ hsub hempty hfs₁ hr]
    exact hgone hempty

end Order

theorem removal_confined_iff (hfs : fs.Proper) (htop : fs.resolve false cwd dir = some top)
    (hdir : fs.get top = some .dir) :
    (∀ o, ∃ fs', (∀ depth > pathMax, udoFileOpsRemoveDir o cwd depth fs dir = some (0, fs')) ∧
        ∀ p, ¬top <+: p → fs'.get p = fs.get p) ↔
      Guarded fs cwd dir top := by
  have hopen := opendir_of_nofollow htop hdir
  constructor
  · intro hconf s d n hs hd hskip hg hout
    by_contra hlost
    obtain ⟨f, hf⟩ := hs.exists_loses (p := d ++ [n]) hfs (fun _ => some n) (by
      intro f hf
      apply loses_of_first hfs hs hd (order_prefer (hf s le_rfl) hg)
      intro depth fs' hentry
      exact removeEntry_gone hfs hd hskip hg hlost hentry)
    obtain ⟨fs', hrun, hsame⟩ := hconf (.prefer f)
    have hgone := (hf _ _ (hrun (pathMax + 1) (by omega))).gone
    rw [hsame _ hout] at hgone
    exact hg hgone
  · intro hguard o
    obtain ⟨fs', hrun⟩ := removeDir_returns (o := o) hopen
    have hkept := removeDir_kept hfs htop hdir hguard (hrun (pathMax + 1) (by omega))
    exact ⟨fs', hrun, hkept.outside⟩

theorem guarded_of_no_dirLink (hfs : fs.Proper) (hopen : fs.opendir cwd dir = some top)
    (hlink : ∀ c m, top <+: c → ¬DirLink fs c m) : Guarded fs cwd dir top := by
  intro s d n hs hd _ _ hout
  obtain hin | ⟨c, m, hc, hdl⟩ := hs.within hfs hopen hd
  · exact absurd (hin.trans (List.prefix_append d [n])) hout
  · exact absurd hdl (hlink c m hc)

def fileLinkTree : FileTree :=
  [([], .dir), ([[100]], .dir), ([[100], [108]], .link [47, 102]), ([[102]], .file)]

theorem removal_confined_file_link : ∃ fs', (∀ depth > pathMax,
    udoFileOpsRemoveDir .stored [] depth fileLinkTree [47, 100] = some (0, fs')) ∧
      ∀ p, ¬[[100]] <+: p → fs'.get p = fileLinkTree.get p := by
  have hfs : fileLinkTree.Proper := by decide +kernel
  refine (removal_confined_iff hfs (by decide +kernel) (by decide +kernel)).mpr ?_ .stored
  refine guarded_of_no_dirLink hfs (by decide +kernel) ?_
  rintro c m - ⟨t, q, ht, hq, hdir⟩
  have hmem := mem_of_get ht
  simp only [fileLinkTree, List.mem_cons, Prod.mk.injEq, reduceCtorEq, and_false, false_or, or_false,
    List.not_mem_nil] at hmem
  have hcm : c ++ [m] = [[100]] ++ [[108]] := hmem.1
  obtain ⟨rfl, hm⟩ := List.append_inj' hcm rfl
  cases hm
  have hwalk : fileLinkTree.walk true maxLinks [[100]] [[108]] = some [[102]] := by decide +kernel
  rw [hwalk] at hq
  cases hq
  cases hdir

theorem outside_file_removed : ¬ ∀ (o : ReadOrder) (cwd top : Path) (dir : List UInt8) (fs fs' : FileTree)
    (depth : ℕ), fs.Proper → fs.resolve false cwd dir = some top → fs.get top = some .dir →
      udoFileOpsRemoveDir o cwd depth fs dir = some (0, fs') → ∀ p, ¬top <+: p → fs'.get p = fs.get p := by
  intro confined
  let fs : FileTree :=
    [([], .dir), ([[100]], .dir), ([[100], [108]], .link [47, 101]), ([[101]], .dir), ([[101], [102]], .file)]
  have hrun : udoFileOpsRemoveDir .stored [] 2 fs [47, 100] = some (0, fs.without (· = [[101], [102]])) := by
    decide +kernel
  have hsame := confined .stored [] [[100]] [47, 100] fs _ 2 (by decide +kernel) (by decide +kernel) (by decide +kernel)
    hrun [[101], [102]] (by decide)
  rw [get_without, if_pos rfl] at hsame
  exact absurd hsame (by decide)

end Libcando.FileOps
