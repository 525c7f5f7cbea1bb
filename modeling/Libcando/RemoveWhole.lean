import Libcando.RemoveDir

namespace Libcando.FileOps

open FileTree

def Below (q p : Path) : Prop := q <+: p ∧ q ≠ p

instance (q p : Path) : Decidable (Below q p) := inferInstanceAs (Decidable (_ ∧ _))

structure Cleared (fs : FileTree) (lost : Path → Prop) (fs' : FileTree) : Prop where
  proper : fs'.Proper
  gone : ∀ p, lost p → fs'.get p = none
  kept : ∀ p, ¬lost p → fs'.get p = fs.get p

structure Ready (cwd : Path) (fs : FileTree) (s : List UInt8) (q : Path) : Prop where
  proper : fs.Proper
  steady : (fs.without (Below q)).resolve false cwd s = some q
  dir : fs.get q = some .dir
  plain : ∀ p t, q <+: p → fs.get p ≠ some (.link t)
  fits : ∀ ns, fs.get (q ++ ns) ≠ none → (ns.foldl child s).length < pathMax
  named : ∀ p n, q <+: p → fs.get (p ++ [n]) ≠ none → ¬Skipped n

variable {o : ReadOrder} {cwd top p q : Path} {dir s : List UInt8} {fs fs₀ fs' : FileTree} {n : Name} {depth : ℕ}

section Below

theorem below_iff : Below q p ↔ ∃ n, q ++ [n] <+: p := by
  constructor
  · rintro ⟨⟨r, rfl⟩, hne⟩
    cases r with
    | nil => simp at hne
    | cons n r => exact ⟨n, r, by simp⟩
  · rintro ⟨n, hn⟩
    refine ⟨(List.prefix_append q [n]).trans hn, ?_⟩
    rintro rfl
    have hlen := hn.length_le
    rw [List.length_append, List.length_singleton] at hlen
    omega

theorem below_child : Below q (q ++ [n]) := below_iff.mpr ⟨n, List.prefix_rfl⟩

theorem Below.of_child (h : Below (q ++ [n]) p) : Below q p := below_iff.mpr ⟨n, h.1⟩

theorem Below.concat (h : Below q p) (n : Name) : Below q (p ++ [n]) := by
  obtain ⟨m, hm⟩ := below_iff.mp h
  exact below_iff.mpr ⟨m, hm.trans (List.prefix_append p [n])⟩

theorem proper_without_below (hfs : fs.Proper) (q : Path) : (fs.without (Below q)).Proper where
  root := by
    rw [get_without, if_neg, hfs.root]
    rintro ⟨hq, hne⟩
    exact hne (List.prefix_nil.mp hq)
  parent := by
    intro p n hp
    rw [get_without] at hp ⊢
    split_ifs at hp with hb
    · exact absurd rfl hp
    · rw [if_neg (fun hb' => hb (hb'.concat n)), hfs.parent p n hp]
  name := fun p n hp => hfs.name p n ((part_without _).ne_none hp)

theorem get_below_of_empty (hfs : fs.Proper) (hempty : ∀ m, fs.get (q ++ [m]) = none) (h : Below q p) :
    fs.get p = none := by
  obtain ⟨m, hm⟩ := below_iff.mp h
  by_contra hp
  by_cases heq : q ++ [m] = p
  · exact hp (heq ▸ hempty m)
  · have hdir := hfs.dir_of_prefix hp hm heq
    rw [hempty m] at hdir
    cases hdir

end Below

section Cleared

variable {lost lost' : Path → Prop}

theorem Cleared.refl (hfs : fs.Proper) (h : ∀ p, lost p → fs.get p = none) : Cleared fs lost fs :=
  ⟨hfs, h, fun _ _ => rfl⟩

theorem Cleared.part (h : Cleared fs lost fs') : Part fs' fs := by
  intro p x hx
  by_cases hp : lost p
  · rw [h.gone p hp] at hx
    cases hx
  · rw [← h.kept p hp, hx]

theorem Cleared.trans {fs₁ fs₂ : FileTree} (h : Cleared fs lost fs₁) (h' : Cleared fs₁ lost' fs₂) :
    Cleared fs (fun p => lost p ∨ lost' p) fs₂ where
  proper := h'.proper
  gone := by
    intro p hp
    by_cases hp' : lost' p
    · exact h'.gone p hp'
    · rw [h'.kept p hp', h.gone p (hp.resolve_right hp')]
  kept := by
    intro p hp
    rw [not_or] at hp
    rw [h'.kept p hp.2, h.kept p hp.1]

theorem Cleared.congr (h : Cleared fs lost fs') (hiff : ∀ p, lost' p ↔ lost p) : Cleared fs lost' fs' where
  proper := h.proper
  gone := fun p hp => h.gone p ((hiff p).mp hp)
  kept := fun p hp => h.kept p (fun hp' => hp ((hiff p).mpr hp'))

theorem cleared_delete (hfs : fs.Proper) (hp : p ≠ []) (hempty : ∀ m, fs.get (p ++ [m]) = none) :
    Cleared fs (p <+: ·) (fs.without (· = p)) where
  proper := hfs.delete hp hempty
  gone := by
    intro q hq
    rw [get_without]
    split_ifs with heq
    · rfl
    · exact get_below_of_empty hfs hempty ⟨hq, Ne.symm heq⟩
  kept := by
    intro q hq
    rw [get_without, if_neg]
    rintro rfl
    exact hq List.prefix_rfl

theorem Cleared.same (h : Cleared fs (Below q) fs') (p : Path) : fs'.get p = (fs.without (Below q)).get p := by
  rw [get_without]
  split_ifs with hb
  · exact h.gone p hb
  · exact h.kept p hb

theorem Cleared.delete (h : Cleared fs (Below q) fs') (hq : q ≠ []) : Cleared fs (q <+: ·) (fs'.without (· = q)) := by
  have hempty (m : Name) : fs'.get (q ++ [m]) = none := h.gone _ below_child
  refine (h.trans (cleared_delete h.proper hq hempty)).congr fun p => ⟨.inr, ?_⟩
  rintro (hb | hp)
  · exact hb.1
  · exact hp

end Cleared

section Ready

theorem Ready.resolves (h : Ready cwd fs s q) : fs.resolve true cwd s = some q :=
  resolve_follow (by simp [h.dir]) (resolve_mono (part_without _) h.steady)

theorem Ready.opendir (h : Ready cwd fs s q) : fs.opendir cwd s = some q :=
  opendir_eq_some.mpr ⟨h.resolves, h.dir⟩

theorem Ready.length_child (h : Ready cwd fs s q) (hn : fs.get (q ++ [n]) ≠ none) : (child s n).length < pathMax := by
  simpa using h.fits [n] hn

theorem Ready.child (h : Ready cwd fs s q) (hdir : fs.get (q ++ [n]) = some .dir) :
    Ready cwd fs (child s n) (q ++ [n]) where
  proper := h.proper
  steady := by
    have hpart : Part (fs.without (Below q)) (fs.without (Below (q ++ [n]))) := by
      intro p x hx
      rw [get_without] at hx ⊢
      split_ifs at hx with hb
      rw [if_neg (fun hb' => hb hb'.of_child), hx]
    have hkeep {p : Path} (hp : p <+: q ++ [n]) : (fs.without (Below (q ++ [n]))).get p = fs.get p := by
      rw [get_without, if_neg]
      rintro ⟨hle, hne⟩
      exact hne (hle.eq_of_length_le hp.length_le)
    have hq : (fs.without (Below (q ++ [n]))).resolve true cwd s = some q := by
      apply resolve_follow
      · simp [hkeep (List.prefix_append q [n]), h.dir]
      · exact resolve_mono hpart h.steady
    have hn : (fs.without (Below (q ++ [n]))).get (q ++ [n]) = some .dir := by rw [hkeep List.prefix_rfl, hdir]
    exact resolve_child_plain (proper_without_below h.proper _) hq (h.length_child (by simp [hdir])) hn (.inl rfl)
  dir := hdir
  plain := fun p t hp => h.plain p t ((List.prefix_append q [n]).trans hp)
  fits := by
    intro ns hns
    rw [List.append_assoc] at hns
    exact h.fits (n :: ns) hns
  named := fun p m hp => h.named p m ((List.prefix_append q [n]).trans hp)

theorem Ready.cleared {lost : Path → Prop} (h : Ready cwd fs s q) (hc : Cleared fs lost fs')
    (hlost : ∀ p, lost p → Below q p) : Ready cwd fs' s q where
  proper := hc.proper
  steady := by
    refine resolve_mono ?_ h.steady
    intro p x hx
    rw [get_without] at hx ⊢
    split_ifs at hx with hb
    rw [if_neg hb, hc.kept p (fun hp => hb (hlost p hp)), hx]
  dir := by rw [hc.kept q (fun hq => (hlost q hq).2 rfl), h.dir]
  plain := fun p t hp ht => h.plain p t hp (hc.part p _ ht)
  fits := fun ns hns => h.fits ns (hc.part.ne_none hns)
  named := fun p n hp hn => h.named p n hp (hc.part.ne_none hn)

theorem Ready.removeEntry {rec : FileTree → List UInt8 → Option (ℤ × FileTree)} (h : Ready cwd fs s q)
    (hrec : ∀ r, Ready cwd fs (FileTree.child s n) (q ++ [n]) → rec fs (FileTree.child s n) = some r →
      Cleared fs (q ++ [n] <+: ·) r.2)
    (hn : ¬Skipped n → ValidName n) (hstep : removeEntry rec cwd s fs n = some fs') :
    Cleared fs (fun p => ¬Skipped n ∧ q ++ [n] <+: p) fs' := by
  rw [FileOps.removeEntry] at hstep
  by_cases hskip : Skipped n
  · rw [if_pos hskip] at hstep
    cases hstep
    exact .refl h.proper fun p hp => absurd hskip hp.1
  rw [if_neg hskip] at hstep
  suffices hc : Cleared fs (q ++ [n] <+: ·) fs' by exact hc.congr (by simp [hskip])
  cases hg : fs.get (q ++ [n]) with
  | none =>
    have hstat : fs.stat cwd (entryPath s n) = none := by
      by_contra hstat
      obtain ⟨x, hx⟩ := Option.ne_none_iff_exists'.mp hstat
      rw [stat_entryPath hx] at hx
      obtain ⟨d, -, hd, hdn, -⟩ := stat_child h.proper (hn hskip) (opendir_ne_nil h.opendir) hx
      rw [h.resolves] at hd
      cases hd
      exact hdn hg
    rw [hstat] at hstep
    cases hstep
    refine .refl h.proper fun p hp => ?_
    by_contra hne
    by_cases heq : q ++ [n] = p
    · exact hne (heq ▸ hg)
    · have hdir := h.proper.dir_of_prefix hne hp heq
      rw [hg] at hdir
      cases hdir
  | some x =>
    have hlen := h.length_child (n := n) (by simp [hg])
    have hplain (t : List UInt8) : x ≠ .link t := by
      rintro rfl
      exact h.plain _ t (List.prefix_append q [n]) hg
    have hstat : fs.stat cwd (FileTree.child s n) = some x :=
      stat_eq_some.mpr ⟨_, resolve_child_plain h.proper h.resolves hlen hg (.inr hplain), hg⟩
    rw [entryPath_of_lt hlen, hstat] at hstep
    cases x with
    | link t => exact absurd rfl (hplain t)
    | dir =>
      obtain ⟨r, hr, rfl⟩ := Option.map_eq_some_iff.mp hstep
      exact hrec r (h.child hg) hr
    | file =>
      have hunlink : fs.unlink cwd (FileTree.child s n) = _ := unlink_child h.proper h.resolves hlen hg (by simp)
      simp only [remove, hunlink, Option.some_or, Option.getD_some, Option.some.injEq] at hstep
      subst hstep
      exact cleared_delete h.proper (by simp) (h.proper.no_entry (by simp [hg]))

theorem Ready.removeEntries {rec : FileTree → List UInt8 → Option (ℤ × FileTree)}
    (hrec : ∀ fs n r, Ready cwd fs (FileTree.child s n) (q ++ [n]) → rec fs (FileTree.child s n) = some r →
      Ready cwd fs s q → Cleared fs (q ++ [n] <+: ·) r.2)
    {ns : List Name} (hns : ∀ n ∈ ns, ¬Skipped n → ValidName n) (h : Ready cwd fs s q)
    (hloop : ns.foldlM (FileOps.removeEntry rec cwd s) fs = some fs') :
    Cleared fs (fun p => ∃ n ∈ ns, ¬Skipped n ∧ q ++ [n] <+: p) fs' := by
  induction ns generalizing fs with
  | nil =>
    cases hloop
    exact .refl h.proper (by simp)
  | cons n ns ih =>
    rw [List.foldlM_cons, Option.bind_eq_bind, Option.bind_eq_some_iff] at hloop
    obtain ⟨fs₁, hstep, hloop⟩ := hloop
    have hc := h.removeEntry (fun r hr hrun => hrec fs n r hr hrun h) (hns n (by simp)) hstep
    have hready := h.cleared hc (fun p hp => below_iff.mpr ⟨n, hp.2⟩)
    refine (hc.trans (ih (fun m hm => hns m (by simp [hm])) hready hloop)).congr ?_
    simp

theorem Ready.loop_of_rec {rec : FileTree → List UInt8 → Option (ℤ × FileTree)}
    (hrec : ∀ fs n r, Ready cwd fs (FileTree.child s n) (q ++ [n]) → rec fs (FileTree.child s n) = some r →
      Ready cwd fs s q → Cleared fs (q ++ [n] <+: ·) r.2) (h : Ready cwd fs s q)
    (hloop : (o.order s (fs.readdir q)).foldlM (FileOps.removeEntry rec cwd s) fs = some fs') :
    Cleared fs (Below q) fs' := by
  have hc := h.removeEntries hrec (fun n hn hskip => valid_of_mem_order h.proper hn hskip) hloop
  refine ⟨hc.proper, ?_, ?_⟩
  · intro p hp
    obtain ⟨n, hn⟩ := below_iff.mp hp
    by_contra hne
    have hp₀ := hc.part.ne_none hne
    have hg : fs.get (q ++ [n]) ≠ none := by
      by_cases heq : q ++ [n] = p
      · rw [heq]
        exact hp₀
      · simp [h.proper.dir_of_prefix hp₀ hn heq]
    have hmem : n ∈ fs.readdir q := by simp [readdir, mem_names.mpr hg]
    exact hne (hc.gone p ⟨n, (o.perm s _).mem_iff.mpr hmem, h.named q n List.prefix_rfl hg, hn⟩)
  · intro p hp
    apply hc.kept
    rintro ⟨n, -, -, hn⟩
    exact hp (below_iff.mpr ⟨n, hn⟩)

theorem Ready.loop (h : Ready cwd fs s q)
    (hloop : (o.order s (fs.readdir q)).foldlM (FileOps.removeEntry (udoFileOpsRemoveDir o cwd depth) cwd s) fs =
      some fs') : Cleared fs (Below q) fs' := by
  induction depth generalizing fs s q fs' with
  | zero =>
    apply h.loop_of_rec _ hloop
    intro fs n r _ hr
    cases hr
  | succ depth ih =>
    apply h.loop_of_rec _ hloop
    intro fs n r hchild hr hs
    rw [udoFileOpsRemoveDir, hchild.opendir] at hr
    obtain ⟨fs₁, hloop₁, rfl⟩ := Option.map_eq_some_iff.mp hr
    have hc := ih hchild hloop₁
    have hs₁ := hs.cleared hc (fun p hp => hp.of_child)
    have hdir : fs₁.get (q ++ [n]) = some .dir := by rw [hc.kept _ (fun hb => hb.2 rfl), hchild.dir]
    have hempty (m : Name) : fs₁.get (q ++ [n] ++ [m]) = none := hc.gone _ below_child
    have hlen := hs.length_child (n := n) (by simp [hchild.dir])
    rw [rmdir_child hc.proper hs₁.resolves hlen hdir hempty, Option.getD_some]
    exact hc.delete (by simp)

end Ready

section Whole

theorem Taken.location (hfs₀ : fs₀.Proper) (hopen : fs₀.opendir cwd dir = some top)
    (hplain : ∀ p t, top <+: p → fs₀.get p ≠ some (.link t)) (hpart : Part fs fs₀) (h : Taken fs₀ cwd dir fs p) :
    (∃ d n, p = d ++ [n] ∧ top <+: d ∧ ¬Skipped n) ∨
      p = top ∧ fs.get top = some .dir ∧ (∀ m, fs.get (top ++ [m]) = none) ∧ (fs.rmdir cwd dir).isSome := by
  have hin {s : List UInt8} {d : Path} {n : Name} (hs : Entered fs₀ cwd dir s) (hd : fs.resolve true cwd s = some d)
      (hg : fs.get (d ++ [n]) ≠ none) : top <+: d := by
    have hd₀ := opendir_eq_some.mpr ⟨resolve_mono hpart hd, hfs₀.parent d n (hpart.ne_none hg)⟩
    obtain hin | ⟨c, m, hc, t, q, ht, -⟩ := hs.within hfs₀ hopen hd₀
    · exact hin
    · exact absurd ht (hplain _ t (hc.trans (List.prefix_append c [m])))
  cases h with
  | @plain s d n x hs hs0 hn hskip hd hg _ _ => exact .inl ⟨d, n, rfl, hin hs hd hg, hskip⟩
  | @sub s d n hs hs0 hn hskip hd hg _ _ =>
    have hg' : fs.get (d ++ [n]) ≠ none := by simp [hg]
    exact .inl ⟨d, n, rfl, hin hs hd hg', hskip⟩
  | top hp hdir hempty _ hsome =>
    have hres := resolve_mono hpart (resolve_follow (by simp [hdir]) hp)
    rw [(opendir_eq_some.mp hopen).1] at hres
    cases hres
    exact .inr ⟨rfl, hdir, hempty, hsome⟩

structure Remains (fs₀ : FileTree) (cwd : Path) (dir : List UInt8) (top : Path) (fs : FileTree) : Prop where
  outside : ∀ p, ¬top <+: p → fs.get p = fs₀.get p
  skipped : ∀ p n, top <+: p → Skipped n → fs.get (p ++ [n]) = fs₀.get (p ++ [n])
  top_gone : fs.get top = none → ((fs₀.without (Below top)).rmdir cwd dir).isSome

theorem prefix_ne_concat (h : top <+: p) (n : Name) : top ≠ p ++ [n] := by
  rintro rfl
  have hlen := h.length_le
  rw [List.length_append, List.length_singleton] at hlen
  omega

theorem Remains.delete (hfs₀ : fs₀.Proper) (hopen : fs₀.opendir cwd dir = some top)
    (hplain : ∀ p t, top <+: p → fs₀.get p ≠ some (.link t)) (hfs : fs.Proper) (hpart : Part fs fs₀)
    (h : Remains fs₀ cwd dir top fs) (hp : Taken fs₀ cwd dir fs p) : Remains fs₀ cwd dir top (fs.without (· = p)) := by
  obtain ⟨d, n, rfl, hd, hskip⟩ | ⟨rfl, htop, hempty, hsome⟩ := hp.location hfs₀ hopen hplain hpart
  · constructor
    · intro q hq
      rw [get_without, if_neg, h.outside q hq]
      rintro rfl
      exact hq (hd.trans (List.prefix_append d [n]))
    · intro q m hq hm
      rw [get_without, if_neg, h.skipped q m hq hm]
      intro heq
      obtain ⟨-, hmn⟩ := List.append_inj' heq rfl
      cases hmn
      exact hskip hm
    · rw [get_without, if_neg (prefix_ne_concat hd n)]
      exact h.top_gone
  · constructor
    · intro q hq
      rw [get_without, if_neg, h.outside q hq]
      rintro rfl
      exact hq List.prefix_rfl
    · intro q m hq hm
      rw [get_without, if_neg (prefix_ne_concat hq m).symm, h.skipped q m hq hm]
    · intro _
      -- with nothing left below it, the tree is the one it was at first with all of that gone
      have hsame (q : Path) : fs.get q = (fs₀.without (Below p)).get q := by
        rw [get_without]
        split_ifs with hb
        · exact get_below_of_empty hfs hempty hb
        · by_cases hq : p <+: q
          · have heq : p = q := by
              by_contra hne
              exact hb ⟨hq, hne⟩
            rw [← heq, hpart _ _ htop, htop]
          · exact h.outside q hq
      exact rmdir_congr (fun q => (hsame q).symm) hsome

theorem removeDir_remains (hfs₀ : fs₀.Proper) (hopen : fs₀.opendir cwd dir = some top)
    (hplain : ∀ p t, top <+: p → fs₀.get p ≠ some (.link t)) {r : ℤ × FileTree}
    (h : udoFileOpsRemoveDir o cwd depth fs₀ dir = some r) : Part r.2 fs₀ ∧ Remains fs₀ cwd dir top r.2 := by
  have hremains₀ : Remains fs₀ cwd dir top fs₀ := by
    refine ⟨fun _ _ => rfl, fun _ _ _ _ => rfl, fun hnone => ?_⟩
    rw [(opendir_eq_some.mp hopen).2] at hnone
    cases hnone
  refine (removeDir_invariant hfs₀ hremains₀ ?_ h).2
  intro fs p hfs hpart hremains hp
  exact hremains.delete hfs₀ hopen hplain hfs hpart hp

theorem Ready.of_rmdir (hfs : fs.Proper) (hopen : fs.opendir cwd dir = some top)
    (hplain : ∀ p t, top <+: p → fs.get p ≠ some (.link t))
    (hfits : ∀ ns, fs.get (top ++ ns) ≠ none → (ns.foldl FileTree.child dir).length < pathMax)
    (hnamed : ∀ p n, top <+: p → fs.get (p ++ [n]) ≠ none → ¬Skipped n)
    (hsome : ((fs.without (Below top)).rmdir cwd dir).isSome) : Ready cwd fs dir top where
  proper := hfs
  steady := by
    obtain ⟨p, -, hp, -, -, hdir, -⟩ := rmdir_isSome_iff.mp hsome
    have hres := resolve_follow (by simp [part_without _ _ _ hdir]) (resolve_mono (part_without _) hp)
    rw [(opendir_eq_some.mp hopen).1] at hres
    cases hres
    exact hp
  dir := (opendir_eq_some.mp hopen).2
  plain := hplain
  fits := hfits
  named := hnamed

theorem Ready.removes (h : Ready cwd fs dir top) (hsome : ((fs.without (Below top)).rmdir cwd dir).isSome)
    {r : ℤ × FileTree} (hrun : udoFileOpsRemoveDir o cwd depth fs dir = some r) : Cleared fs (top <+: ·) r.2 := by
  obtain ⟨k, fs₁, hloop, rfl⟩ := removeDir_opened h.opendir hrun
  have hc := h.loop hloop
  have hsome₁ := rmdir_congr hc.same hsome
  obtain ⟨fs₂, hrmdir⟩ := Option.isSome_iff_exists.mp hsome₁
  obtain ⟨p, hp, hdir, hempty, hne, rfl⟩ := rmdir_eq_some hc.proper hrmdir
  have hopen := opendir_of_nofollow hp hdir
  rw [(h.cleared hc fun _ hb => hb).opendir] at hopen
  cases hopen
  simp only [hrmdir, Option.getD_some]
  exact hc.delete hne

end Whole

theorem removal_whole_iff (o : ReadOrder) (hfs : fs.Proper) (hopen : fs.opendir cwd dir = some top)
    (hplain : ∀ p t, top <+: p → fs.get p ≠ some (.link t))
    (hfits : ∀ ns, fs.get (top ++ ns) ≠ none → (ns.foldl child dir).length < pathMax) :
    ∃ fs', (∀ depth > pathMax, udoFileOpsRemoveDir o cwd depth fs dir = some (0, fs')) ∧
      (((∀ p, top <+: p → fs'.get p = none) ∧
          ∀ d, top <+: d → fs.get d = some .dir → ∀ n ∈ fs.readdir d, Skipped n ↔ n = dot ∨ n = dotdot) ↔
        (∀ p n, top <+: p → fs.get (p ++ [n]) ≠ none → ¬Skipped n) ∧
          ((fs.without (Below top)).rmdir cwd dir).isSome) := by
  obtain ⟨fs', hrun⟩ := removeDir_returns (o := o) hopen
  have hrun' := hrun (pathMax + 1) (by omega)
  refine ⟨fs', hrun, ?_⟩
  constructor
  · rintro ⟨hgone, -⟩
    have hremains := (removeDir_remains hfs hopen hplain hrun').2
    refine ⟨?_, hremains.top_gone (hgone top List.prefix_rfl)⟩
    intro p n hp hn hskip
    rw [← hremains.skipped p n hp hskip, hgone _ (hp.trans (List.prefix_append p [n]))] at hn
    exact hn rfl
  · rintro ⟨hnamed, hsome⟩
    have hready := Ready.of_rmdir hfs hopen hplain hfits hnamed hsome
    refine ⟨(hready.removes hsome hrun').gone, ?_⟩
    intro d hd hdir n hn
    constructor
    · intro hskip
      by_contra hne
      rw [not_or] at hne
      rw [mem_readdir hne.1 hne.2] at hn
      exact hnamed d n hd hn hskip
    · rintro (rfl | rfl)
      · exact skipped_dot
      · exact skipped_dotdot

def nestedTree : FileTree :=
  [([], .dir), ([[100]], .dir), ([[100], [97]], .file), ([[100], [98]], .dir), ([[100], [98], [99]], .file)]

theorem removal_whole_nested : ∃ fs', (∀ depth > pathMax,
    udoFileOpsRemoveDir .stored [] depth nestedTree [47, 100] = some (0, fs')) ∧
      ∀ p, [[100]] <+: p → fs'.get p = none := by
  have hplain (p : Path) (t : List UInt8) (_ : [[100]] <+: p) : nestedTree.get p ≠ some (.link t) := by
    intro h
    simpa [nestedTree] using mem_of_get h
  have hfits (ns : List Name) (hns : nestedTree.get ([[100]] ++ ns) ≠ none) :
      (ns.foldl child [47, 100]).length < pathMax := by
    obtain ⟨e, he, hp⟩ := get_ne_none.mp hns
    have hlen : ∀ e ∈ nestedTree, ((e.1.drop 1).foldl child [47, 100]).length < pathMax := by decide +kernel
    simpa [hp] using hlen e he
  have hnamed (p : Path) (n : Name) (_ : [[100]] <+: p) (hn : nestedTree.get (p ++ [n]) ≠ none) : ¬Skipped n := by
    obtain ⟨e, he, hp⟩ := get_ne_none.mp hn
    have hname : ∀ e ∈ nestedTree, ∀ n ∈ e.1.getLast?, ¬Skipped n := by decide +kernel
    exact hname e he n (by simp [hp])
  have hopen : nestedTree.opendir [] [47, 100] = some [[100]] := by decide +kernel
  obtain ⟨fs', hrun, hiff⟩ := removal_whole_iff .stored (by decide +kernel) hopen hplain hfits
  exact ⟨fs', hrun, (hiff.mpr ⟨hnamed, by decide +kernel⟩).1⟩

/-- A file named by a backslash, whose character is the sum of those of `..`, stays with its directory. -/
theorem backslash_stays : ¬ ∀ (o : ReadOrder) (cwd top : Path) (dir : List UInt8) (fs fs' : FileTree) (depth : ℕ),
    fs.Proper → fs.opendir cwd dir = some top → (∀ p t, top <+: p → fs.get p ≠ some (.link t)) →
      (∀ ns, fs.get (top ++ ns) ≠ none → (ns.foldl child dir).length < pathMax) →
        ((fs.without (Below top)).rmdir cwd dir).isSome → udoFileOpsRemoveDir o cwd depth fs dir = some (0, fs') →
          ∀ p, top <+: p → fs'.get p = none := by
  intro removed
  let fs : FileTree := [([], .dir), ([[100]], .dir), ([[100], [92]], .file)]
  have hplain (p : Path) (t : List UInt8) (_ : [[100]] <+: p) : fs.get p ≠ some (.link t) := by
    intro h
    simpa [fs] using mem_of_get h
  have hfits (ns : List Name) (hns : fs.get ([[100]] ++ ns) ≠ none) :
      (ns.foldl child [47, 100]).length < pathMax := by
    obtain ⟨e, he, hp⟩ := get_ne_none.mp hns
    have hlen : ∀ e ∈ fs, ((e.1.drop 1).foldl child [47, 100]).length < pathMax := by decide +kernel
    simpa [hp] using hlen e he
  have hrun : udoFileOpsRemoveDir .stored [] 1 fs [47, 100] = some (0, fs) := by decide +kernel
  have hgone := removed .stored [] [[100]] [47, 100] fs fs 1 (by decide +kernel) (by decide +kernel) hplain hfits
    (by decide +kernel) hrun [[100], [92]] (by decide)
  exact absurd hgone (by decide)

end Libcando.FileOps
