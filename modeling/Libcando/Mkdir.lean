import Libcando.PathWalk

namespace FileTree

variable {fs : FileTree} {cwd cur d : Path} {s : List UInt8} {n : Name} {ns ms : List Name} {b : ℕ}

def mkdir (cwd : Path) (fs : FileTree) (s : List UInt8) : FileTree :=
  match (components s).getLast? with
  | none => fs
  | some n =>
    if n = dot ∨ n = dotdot then fs
    else match fs.walk true maxLinks (start cwd s) (components s).dropLast with
      | none => fs
      | some d => if fs.get d = some .dir ∧ fs.get (d ++ [n]) = none then fs ++ [(d ++ [n], .dir)] else fs

def IsDir (fs : FileTree) (cwd : Path) (s : List UInt8) : Prop :=
  ∃ p, fs.walk true maxLinks (start cwd s) (components s) = some p ∧ fs.get p = some .dir

def Clear (fs : FileTree) (cwd : Path) (s : List UInt8) : Prop :=
  fs.walk false maxLinks (start cwd s) (components s) ≠ none → fs.IsDir cwd s

instance (fs : FileTree) (cwd : Path) (s : List UInt8) : Decidable (fs.IsDir cwd s) :=
  decidable_of_iff ((fs.walk true maxLinks (start cwd s) (components s)).any fun p => fs.get p = some .dir)
    (by simp [IsDir, Option.any_eq_true])

instance (fs : FileTree) (cwd : Path) (s : List UInt8) : Decidable (fs.Clear cwd s) :=
  inferInstanceAs (Decidable (_ → _))

theorem walkWith_append {leap : Path → List UInt8 → List Name → Option Path} (hdir : fs.get d = some .dir)
    (hb : fs.walk true b = fs.walkWith leap true)
    (hleap : ∀ c t ns, leap c t ns = some d → ∃ b' ≤ b, leap c t (ns ++ ms) = fs.walk true b' d ms)
    (h : fs.walkWith leap true cur ns = some d) :
    ∃ b' ≤ b, fs.walkWith leap true cur (ns ++ ms) = fs.walk true b' d ms := by
  induction ns generalizing cur with
  | nil =>
    cases h
    exact ⟨b, le_rfl, by rw [hb, List.nil_append]⟩
  | cons n ns ih =>
    rw [List.cons_append]
    obtain rfl | rfl | hn := name_cases n
    · rw [walkWith_dot] at h ⊢
      exact ih h
    · rw [walkWith_dotdot] at h ⊢
      exact ih h
    · rw [walkWith_cons hn] at h ⊢
      cases hg : fs.get (cur ++ [n]) with
      | none => simp [hg] at h
      | some x =>
        rw [hg] at h
        cases x with
        | file =>
          -- the walk went on from a directory
          dsimp only at h
          split_ifs at h
          cases h
          rw [hdir] at hg
          cases hg
        | dir => exact ih h
        | link t => simpa using hleap cur t ns (by simpa using h)

theorem walk_append (hdir : fs.get d = some .dir) (h : fs.walk true b cur ns = some d) (ms : List Name) :
    ∃ b' ≤ b, fs.walk true b cur (ns ++ ms) = fs.walk true b' d ms := by
  induction b generalizing cur ns with
  | zero => exact walkWith_append hdir rfl (by simp) h
  | succ b ih =>
    apply walkWith_append hdir rfl ?_ h
    intro c t ns hc
    obtain ⟨b', hb', hw⟩ := ih hc
    exact ⟨b', by omega, by rw [← List.append_assoc, hw]⟩

theorem walk_dot : fs.walk true b d [dot] = some d := by
  obtain ⟨leap, hleap⟩ := exists_leap fs true b
  rw [hleap, walkWith_dot, walkWith]

theorem walk_dotdot : fs.walk true b d [dotdot] = some d.dropLast := by
  obtain ⟨leap, hleap⟩ := exists_leap fs true b
  rw [hleap, walkWith_dotdot, walkWith]

theorem walk_nil {follow : Bool} : fs.walk follow b d [] = some d := by
  obtain ⟨leap, hleap⟩ := exists_leap fs follow b
  rw [hleap, walkWith]

theorem get_append_dir {p q : Path} (hp : fs.get p = none) :
    (fs ++ [(p, .dir)] : FileTree).get q = if q = p then some .dir else fs.get q := by
  rw [get, List.lookup_append]
  by_cases hq : q = p
  · subst hq
    rw [if_pos rfl, show List.lookup q fs = none from hp, Option.none_or, List.lookup_cons_self]
  · rw [if_neg hq, List.lookup_cons, beq_eq_false_iff_ne.mpr hq, List.lookup_nil, Option.or_none]
    rfl

theorem part_append_dir {p : Path} (hp : fs.get p = none) : Part fs (fs ++ [(p, .dir)]) := by
  intro q x hx
  rw [get_append_dir hp, if_neg, hx]
  rintro rfl
  rw [hp] at hx
  cases hx

theorem Proper.append_dir (hfs : fs.Proper) (hd : fs.get d = some .dir) (hn : ValidName n)
    (hnone : fs.get (d ++ [n]) = none) : Proper (fs ++ [(d ++ [n], .dir)]) := by
  have concat (q : Path) (m : Name) (hq : (fs ++ [(d ++ [n], .dir)] : FileTree).get (q ++ [m]) ≠ none) :
      fs.get q = some .dir ∧ ValidName m := by
    rw [get_append_dir hnone] at hq
    split_ifs at hq with heq
    · obtain ⟨rfl, hm⟩ := List.append_inj' heq rfl
      cases hm
      exact ⟨hd, hn⟩
    · exact ⟨hfs.parent q m hq, hfs.name q m hq⟩
  exact ⟨part_append_dir hnone _ _ hfs.root, fun q m hq => part_append_dir hnone _ _ (concat q m hq).1,
    fun q m hq => (concat q m hq).2⟩

structure Grows (fs fs' : FileTree) : Prop where
  part : Part fs fs'
  proper : fs'.Proper
  dirs : ∀ p, fs.get p = none → fs'.get p ≠ none → fs'.get p = some .dir

theorem Grows.refl (h : fs.Proper) : fs.Grows fs := ⟨.refl fs, h, fun _ hnone hsome => absurd hnone hsome⟩

theorem Grows.trans {fs' fs'' : FileTree} (h : fs.Grows fs') (h' : fs'.Grows fs'') : fs.Grows fs'' where
  part := h.part.trans h'.part
  proper := h'.proper
  dirs := by
    intro p hnone hsome
    by_cases hp : fs'.get p = none
    · exact h'.dirs p hp hsome
    · exact h'.part p _ (h.dirs p hnone hp)

theorem Grows.append_dir (hfs : fs.Proper) (hd : fs.get d = some .dir) (hn : ValidName n)
    (hnone : fs.get (d ++ [n]) = none) : fs.Grows (fs ++ [(d ++ [n], .dir)]) where
  part := part_append_dir hnone
  proper := hfs.append_dir hd hn hnone
  dirs := by
    intro p hp hsome
    rw [get_append_dir hnone] at hsome ⊢
    split_ifs at hsome ⊢
    · rfl
    · exact absurd hp hsome

theorem IsDir.mono {fs' : FileTree} (hpart : Part fs fs') (h : fs.IsDir cwd s) : fs'.IsDir cwd s := by
  obtain ⟨p, hp, hdir⟩ := h
  exact ⟨p, walk_mono hpart le_rfl hp, hpart p _ hdir⟩

theorem components_concat (hn : slash ∉ n) (s : List UInt8) :
    components (s ++ slash :: n) = components s ++ if n = [] then [] else [n] := by
  rw [components, List.splitOn_append_cons_self, List.splitOn_eq_singleton hn, List.filter_append, ← components]
  by_cases hnil : n = [] <;> simp [hnil]

theorem components_single (hn : slash ∉ n) : components n = if n = [] then [] else [n] := by
  rw [components, List.splitOn_eq_singleton hn]
  by_cases hnil : n = [] <;> simp [hnil]

structure Below (fs : FileTree) (cwd : Path) (s : List UInt8) (ns : List Name) (n : Name) (d : Path) : Prop where
  components : components s = ns ++ if n = [] then [] else [n]
  no_slash : slash ∉ n
  no_nul : 0 ∉ n
  walk : fs.walk true maxLinks (start cwd s) ns = some d
  dir : fs.get d = some .dir

theorem mkdir_of_components (hs : FileTree.components s = ns ++ [n]) (hn : Ordinary n)
    (hw : fs.walk true maxLinks (start cwd s) ns = some d) :
    fs.mkdir cwd s =
      if fs.get d = some .dir ∧ fs.get (d ++ [n]) = none then fs ++ [(d ++ [n], .dir)] else fs := by
  simp only [mkdir, hs, List.getLast?_concat, List.dropLast_concat, hw, hn.ne_dot, hn.ne_dotdot, or_self, if_false]

theorem mkdir_exists (hfs : fs.Proper) (h : fs.IsDir cwd s) : fs.mkdir cwd s = fs := by
  obtain ⟨p, hp, hdir⟩ := h
  rcases List.eq_nil_or_concat (FileTree.components s) with hs | ⟨ns, n, hs⟩
  · simp [mkdir, hs]
  · rw [List.concat_eq_append] at hs
    obtain rfl | rfl | hn := name_cases n
    · simp [mkdir, hs]
    · simp [mkdir, hs]
    · obtain ⟨b, -, hw⟩ := walk_concat hfs hn true maxLinks (start cwd s) ns
      rw [hs, hw, Option.bind_eq_some_iff] at hp
      obtain ⟨d, hd, hp⟩ := hp
      rw [mkdir_of_components hs hn hd, if_neg]
      rintro ⟨-, hnone⟩
      rw [walk_single_none hn hnone] at hp
      cases hp

section Below

variable (h : fs.Below cwd s ns n d)
include h

theorem Below.isDir_special (hfs : fs.Proper) (hn : ¬(Ordinary n ∧ n ≠ [])) : fs.IsDir cwd s := by
  have reached {m : Name} {q : Path} (hs : FileTree.components s = ns ++ [m])
      (hm : ∀ b, fs.walk true b d [m] = some q) (hq : fs.get q = some .dir) : fs.IsDir cwd s := by
    obtain ⟨b, -, hw⟩ := walk_append h.dir h.walk [m]
    exact ⟨q, by rw [hs, hw, hm], hq⟩
  by_cases hnil : n = []
  · refine ⟨d, ?_, h.dir⟩
    rw [h.components, if_pos hnil, List.append_nil, h.walk]
  have hs := h.components
  rw [if_neg hnil] at hs
  obtain rfl | rfl | hord := name_cases n
  · exact reached hs (fun _ => walk_dot) h.dir
  · apply reached hs (fun _ => walk_dotdot)
    by_cases hd : d = []
    · rw [hd, List.dropLast_nil]
      exact hfs.root
    · exact hfs.dir_of_prefix (by simp [h.dir]) (List.dropLast_prefix d) (by
        intro heq
        have hlen := congrArg List.length heq
        have hpos := List.length_pos_iff.mpr hd
        rw [List.length_dropLast] at hlen
        omega)
  · exact absurd ⟨hord, hnil⟩ hn

theorem Below.isDir_made (hn : Ordinary n) (hnil : n ≠ [])
    (hnew : fs.get (d ++ [n]) = none) : IsDir (fs ++ [(d ++ [n], .dir)]) cwd s := by
  have hpart := part_append_dir hnew
  obtain ⟨b, -, hw⟩ := walk_append (hpart _ _ h.dir) (walk_mono hpart le_rfl h.walk) [n]
  have hget : (fs ++ [(d ++ [n], .dir)] : FileTree).get (d ++ [n]) = some .dir := by
    rw [get_append_dir hnew, if_pos rfl]
  refine ⟨d ++ [n], ?_, hget⟩
  rw [h.components, if_neg hnil, hw, walk_single hn hget (.inr (by simp))]

theorem Below.entry (hfs : fs.Proper) (hn : Ordinary n) (hnil : n ≠ []) (hold : fs.get (d ++ [n]) ≠ none) :
    fs.walk false maxLinks (start cwd s) (FileTree.components s) ≠ none := by
  obtain ⟨b, -, hw⟩ := walk_concat hfs hn false maxLinks (start cwd s) ns
  obtain ⟨x, hx⟩ := Option.ne_none_iff_exists'.mp hold
  rw [h.components, if_neg hnil, hw, h.walk, Option.bind_some, walk_single hn hx (.inl rfl)]
  simp

theorem Below.mkdir (hfs : fs.Proper) :
    fs.Grows (fs.mkdir cwd s) ∧ (fs.Clear cwd s → (fs.mkdir cwd s).IsDir cwd s) := by
  by_cases hn : Ordinary n ∧ n ≠ []
  · have hs := h.components
    rw [if_neg hn.2] at hs
    rw [mkdir_of_components hs hn.1 h.walk]
    by_cases hnew : fs.get (d ++ [n]) = none
    · rw [if_pos ⟨h.dir, hnew⟩]
      exact ⟨.append_dir hfs h.dir ⟨hn.1, hn.2, h.no_slash, h.no_nul⟩ hnew, fun _ => h.isDir_made hn.1 hn.2 hnew⟩
    · rw [if_neg fun hc => hnew hc.2]
      exact ⟨.refl hfs, fun hclear => hclear (h.entry hfs hn.1 hn.2 hnew)⟩
  · have hdir := h.isDir_special hfs hn
    rw [mkdir_exists hfs hdir]
    exact ⟨.refl hfs, fun _ => hdir⟩

end Below

structure Reached (fs fs' : FileTree) (cur : Path) (ns : List Name) (d : Path) : Prop where
  walk : fs'.walk true maxLinks cur ns = some d
  dir : fs'.get d = some .dir
  kept : fs.get d ≠ none → fs.walk true maxLinks cur ns = some d

section Reached

variable {fs' fs'' : FileTree}

theorem Reached.mono (h : Reached fs fs' cur ns d) (hpart : Part fs' fs'') : Reached fs fs'' cur ns d :=
  ⟨walk_mono hpart le_rfl h.walk, hpart _ _ h.dir, h.kept⟩

theorem Reached.nil (hd : fs'.get d = some .dir) : Reached fs fs' d [] d := ⟨walk_nil, hd, fun _ => walk_nil⟩

variable (hfs : fs.Proper) (h : fs'.Below cwd s ns n d) (hr : Reached fs fs' (start cwd s) ns d)
include hfs h hr

theorem Below.isDir_old (hn : Ordinary n) (hnil : n ≠ []) (hold : fs.get (d ++ [n]) ≠ none)
    (hclear : fs.Clear cwd s) : fs.IsDir cwd s := by
  have hdir := hfs.parent d n hold
  have hbelow : fs.Below cwd s ns n d := { h with walk := hr.kept (by simp [hdir]), dir := hdir }
  exact hclear (hbelow.entry hfs hn hnil hold)

theorem Below.clear (hgrows : fs.Grows fs') (hclear : fs.Clear cwd s) : fs'.Clear cwd s := by
  intro hentry
  by_cases hn : Ordinary n ∧ n ≠ []
  · by_cases hold : fs.get (d ++ [n]) = none
    · have hs := h.components
      rw [if_neg hn.2] at hs
      have hnew : fs'.get (d ++ [n]) ≠ none := by
        intro hnone
        obtain ⟨b, -, hw⟩ := walk_concat hgrows.proper hn.1 false maxLinks (start cwd s) ns
        rw [hs, hw, h.walk, Option.bind_some, walk_single_none hn.1 hnone] at hentry
        exact hentry rfl
      have hdir := hgrows.dirs _ hold hnew
      obtain ⟨b, -, hw⟩ := walk_append h.dir h.walk [n]
      exact ⟨d ++ [n], by rw [hs, hw, walk_single hn.1 hdir (.inr (by simp))], hdir⟩
    · exact (h.isDir_old hfs hr hn.1 hn.2 hold hclear).mono hgrows.part
  · exact h.isDir_special hgrows.proper hn

theorem Below.reached (hn : n ≠ dotdot) (hgrows : fs.Grows fs') (hclear : fs.Clear cwd s) (hdir : fs'.IsDir cwd s) :
    ∃ e, Reached fs fs' (start cwd s) (FileTree.components s) e := by
  obtain ⟨e, he, hdir⟩ := hdir
  refine ⟨e, he, hdir, fun hold => ?_⟩
  by_cases hnil : n = []
  · have hs := h.components
    rw [if_pos hnil, List.append_nil] at hs
    rw [hs, h.walk] at he
    rw [hs, hr.kept]
    · exact he
    · cases he
      exact hold
  have hs := h.components
  rw [if_neg hnil] at hs
  obtain ⟨b, -, hw⟩ := walk_append h.dir h.walk [n]
  rw [hs, hw] at he
  obtain rfl | rfl | hord := name_cases n
  · rw [walk_dot] at he
    cases he
    have hd : fs.get d = some .dir := by
      obtain ⟨x, hx⟩ := Option.ne_none_iff_exists'.mp hold
      rw [hx, ← hgrows.part d x hx, h.dir]
    obtain ⟨b, -, hw⟩ := walk_append hd (hr.kept hold) [dot]
    rw [hs, hw, walk_dot]
  · exact absurd rfl hn
  · by_cases hnew : fs.get (d ++ [n]) = none
    · -- the walk ends in the new directory
      have hsome : fs'.get (d ++ [n]) ≠ none := by
        intro hnone
        rw [walk_single_none hord hnone] at he
        cases he
      rw [walk_single hord (hgrows.dirs _ hnew hsome) (.inr (by simp))] at he
      cases he
      exact absurd hnew hold
    · obtain ⟨q, hq, -⟩ := h.isDir_old hfs hr hord hnil hnew hclear
      have hq' := walk_mono hgrows.part le_rfl hq
      rw [hs, hw, he] at hq'
      cases hq'
      exact hq

end Reached

end FileTree
