import Libcando.FileTree

namespace FileTree

variable {fs fs' : FileTree} {p q c cur cwd : Path} {n : Name} {ns : List Name} {s : List UInt8}
  {follow : Bool} {b b' : ℕ}

section Walk

variable {leap leap' : Path → List UInt8 → List Name → Option Path}

theorem name_cases (n : Name) : n = dot ∨ n = dotdot ∨ Ordinary n := by
  by_cases hd : n = dot
  · exact .inl hd
  · by_cases hdd : n = dotdot
    · exact .inr (.inl hdd)
    · exact .inr (.inr ⟨hd, hdd⟩)

theorem walkWith_dot : fs.walkWith leap follow cur (dot :: ns) = fs.walkWith leap follow cur ns := by
  simp [walkWith]

theorem walkWith_dotdot : fs.walkWith leap follow cur (dotdot :: ns) = fs.walkWith leap follow cur.dropLast ns := by
  simp [walkWith, dot, dotdot]

theorem walkWith_cons (hn : Ordinary n) :
    fs.walkWith leap follow cur (n :: ns) =
      match fs.get (cur ++ [n]) with
      | none => none
      | some .file => if ns = [] then some (cur ++ [n]) else none
      | some .dir => fs.walkWith leap follow (cur ++ [n]) ns
      | some (.link t) => if ns = [] ∧ follow = false then some (cur ++ [n]) else leap cur t ns := by
  exact (if_neg hn.ne_dot).trans (if_neg hn.ne_dotdot)

theorem walkWith_mono (hpart : Part fs' fs)
    (hleap : ∀ c t ns p, leap' c t ns = some p → leap c t ns = some p)
    (h : fs'.walkWith leap' follow cur ns = some p) : fs.walkWith leap follow cur ns = some p := by
  induction ns generalizing cur with
  | nil => exact h
  | cons n ns ih =>
    obtain rfl | rfl | hn := name_cases n
    · rw [walkWith_dot] at h ⊢
      exact ih h
    · rw [walkWith_dotdot] at h ⊢
      exact ih h
    · rw [walkWith_cons hn] at h ⊢
      cases hg : fs'.get (cur ++ [n]) with
      | none => simp [hg] at h
      | some x =>
        rw [hg] at h
        rw [hpart _ _ hg]
        cases x with
        | file => exact h
        | dir => exact ih h
        | link t =>
          dsimp only at h ⊢
          split_ifs at h ⊢ with hend
          · exact h
          · exact hleap _ _ _ _ h

theorem walk_mono (hpart : Part fs' fs) (hb : b' ≤ b) (h : fs'.walk follow b' cur ns = some p) :
    fs.walk follow b cur ns = some p := by
  induction b' generalizing b cur ns p with
  | zero =>
    cases b with
    | zero => exact walkWith_mono hpart (by simp) h
    | succ b => exact walkWith_mono hpart (by simp) h
  | succ b' ih =>
    cases b with
    | zero => omega
    | succ b => exact walkWith_mono hpart (fun c t ns p hp => ih (by omega) hp) h

theorem exists_leap (fs : FileTree) (follow : Bool) (b : ℕ) :
    ∃ leap, fs.walk follow b = fs.walkWith leap follow := by
  cases b with
  | zero => exact ⟨_, rfl⟩
  | succ b => exact ⟨_, rfl⟩

theorem walk_single_none (hn : Ordinary n) (hg : fs.get (c ++ [n]) = none) : fs.walk follow b c [n] = none := by
  obtain ⟨leap, hleap⟩ := exists_leap fs follow b
  simp [hleap, walkWith_cons hn, hg]

theorem walk_single (hn : Ordinary n) {x : Node} (hg : fs.get (c ++ [n]) = some x)
    (hx : follow = false ∨ ∀ t, x ≠ .link t) : fs.walk follow b c [n] = some (c ++ [n]) := by
  obtain ⟨leap, hleap⟩ := exists_leap fs follow b
  rw [hleap, walkWith_cons hn, hg]
  cases x with
  | file => rfl
  | dir => rfl
  | link t => simp_all

theorem walkWith_concat (hfs : fs.Proper) (hn : Ordinary n)
    (hleap : ∀ c t ns, ∃ b' ≤ b, leap' c t (ns ++ [n]) = (leap c t ns).bind fun d => fs.walk follow b' d [n])
    (hb : fs.walk follow b = fs.walkWith leap' follow) (cur : Path) (ns : List Name) :
    ∃ b' ≤ b, fs.walkWith leap' follow cur (ns ++ [n]) =
      (fs.walkWith leap true cur ns).bind fun d => fs.walk follow b' d [n] := by
  induction ns generalizing cur with
  | nil => exact ⟨b, le_rfl, by simp [walkWith, hb]⟩
  | cons m ns ih =>
    rw [List.cons_append]
    obtain rfl | rfl | hm := name_cases m
    · simp only [walkWith_dot]
      exact ih cur
    · simp only [walkWith_dotdot]
      exact ih cur.dropLast
    · simp only [walkWith_cons hm]
      cases hg : fs.get (cur ++ [m]) with
      | none => exact ⟨b, le_rfl, rfl⟩
      | some x =>
        cases x with
        | file =>
          have hnone : fs.walk follow b (cur ++ [m]) [n] = none := walk_single_none hn (hfs.no_entry (by simp [hg]) n)
          refine ⟨b, le_rfl, ?_⟩
          by_cases hns : ns = []
          · simp [hns, hnone]
          · simp [hns]
        | dir => exact ih (cur ++ [m])
        | link t => simpa using hleap cur t ns

theorem walk_concat (hfs : fs.Proper) (hn : Ordinary n) (follow : Bool) (b : ℕ) (cur : Path) (ns : List Name) :
    ∃ b' ≤ b, fs.walk follow b cur (ns ++ [n]) = (fs.walk true b cur ns).bind fun d => fs.walk follow b' d [n] := by
  induction b generalizing cur ns with
  | zero =>
    apply walkWith_concat hfs hn
    · intro c t ns
      exact ⟨0, le_rfl, rfl⟩
    · rfl
  | succ b ih =>
    apply walkWith_concat hfs hn
    · intro c t ns
      obtain ⟨b', hb', h⟩ := ih (start c t) (targetComponents t ++ ns)
      exact ⟨b', by omega, by rw [← List.append_assoc, h]⟩
    · rfl

theorem walk_nofollow_concat (hfs : fs.Proper) (hn : Ordinary n) (h : fs.walk false b cur (ns ++ [n]) = some p) :
    ∃ d, fs.walk true b cur ns = some d ∧ p = d ++ [n] ∧ fs.get (d ++ [n]) ≠ none := by
  obtain ⟨b', -, hw⟩ := walk_concat hfs hn false b cur ns
  rw [hw, Option.bind_eq_some_iff] at h
  obtain ⟨d, hd, hp⟩ := h
  have hg : fs.get (d ++ [n]) ≠ none := by
    intro hg
    rw [walk_single_none hn hg] at hp
    cases hp
  obtain ⟨x, hx⟩ := Option.ne_none_iff_exists'.mp hg
  rw [walk_single hn hx (.inl rfl)] at hp
  exact ⟨d, hd, by simpa using hp.symm, hg⟩

theorem walkWith_follow (hleap : ∀ c t ns p, (∀ t, fs.get p ≠ some (.link t)) →
      leap' c t ns = some p → leap c t ns = some p) (hp : ∀ t, fs.get p ≠ some (.link t))
    (h : fs.walkWith leap' false cur ns = some p) : fs.walkWith leap true cur ns = some p := by
  induction ns generalizing cur with
  | nil => exact h
  | cons n ns ih =>
    obtain rfl | rfl | hn := name_cases n
    · rw [walkWith_dot] at h ⊢
      exact ih h
    · rw [walkWith_dotdot] at h ⊢
      exact ih h
    · rw [walkWith_cons hn] at h ⊢
      cases hg : fs.get (cur ++ [n]) with
      | none => simp [hg] at h
      | some x =>
        rw [hg] at h
        cases x with
        | file => exact h
        | dir => exact ih h
        | link t =>
          by_cases hns : ns = []
          · have hpe : cur ++ [n] = p := by simpa [hns] using h
            exact absurd (hpe ▸ hg) (hp t)
          · simp only [hns, false_and, ↓reduceIte] at h
            simpa using hleap _ _ _ _ hp h

theorem walk_follow (hp : ∀ t, fs.get p ≠ some (.link t)) (h : fs.walk false b cur ns = some p) :
    fs.walk true b cur ns = some p := by
  induction b generalizing cur ns p with
  | zero => exact walkWith_follow (by simp) hp h
  | succ b ih => exact walkWith_follow (fun c t ns p hp h => ih hp h) hp h

end Walk

section Resolve

def child (s : List UInt8) (n : Name) : List UInt8 := s ++ slash :: n

theorem components_child (hn : ValidName n) : components (child s n) = components s ++ [n] := by
  rw [components, child, List.splitOn_append_cons_self, List.splitOn_eq_singleton hn.no_slash, List.filter_append]
  simp [components, hn.nonempty]

theorem start_child (hs : s ≠ []) : start cwd (child s n) = start cwd s := by
  cases s with
  | nil => exact absurd rfl hs
  | cons c s => rfl

theorem length_child : (child s n).length = s.length + n.length + 1 := by
  simp only [child, List.length_append, List.length_cons]
  omega

theorem resolve_bounds (h : fs.resolve follow cwd s = some p) : s ≠ [] ∧ s.length < pathMax := by
  rw [resolve] at h
  split_ifs at h with hs
  push Not at hs
  exact hs

theorem resolve_eq_walk (h : fs.resolve follow cwd s = some p) :
    fs.walk follow maxLinks (start cwd s) (components s) = some p := by
  rw [resolve] at h
  split_ifs at h
  exact h

theorem resolve_mono (hpart : Part fs' fs) (h : fs'.resolve follow cwd s = some p) :
    fs.resolve follow cwd s = some p := by
  obtain ⟨hs, hlen⟩ := resolve_bounds h
  rw [resolve, if_neg (by simp [hs, hlen])]
  exact walk_mono hpart le_rfl (resolve_eq_walk h)

theorem resolve_follow (hp : ∀ t, fs.get p ≠ some (.link t)) (h : fs.resolve false cwd s = some p) :
    fs.resolve true cwd s = some p := by
  obtain ⟨hs, hlen⟩ := resolve_bounds h
  rw [resolve, if_neg (by simp [hs, hlen])]
  exact walk_follow hp (resolve_eq_walk h)

theorem resolve_child (hfs : fs.Proper) (hn : ValidName n) (hs : s ≠ []) (hlen : (child s n).length < pathMax)
    (follow : Bool) (cwd : Path) :
    ∃ b ≤ maxLinks, fs.resolve follow cwd (child s n) =
      (fs.resolve true cwd s).bind fun d => fs.walk follow b d [n] := by
  obtain ⟨b, hb, h⟩ := walk_concat hfs hn.toOrdinary follow maxLinks (start cwd s) (components s)
  refine ⟨b, hb, ?_⟩
  have hlen' : s.length < pathMax := by
    rw [length_child] at hlen
    omega
  have hne : child s n ≠ [] := by simp [child]
  rw [resolve, if_neg (by simp [hne, hlen]), resolve, if_neg (by simp [hs, hlen']), components_child hn,
    start_child hs, h]

theorem resolve_child_nofollow (hfs : fs.Proper) (hn : ValidName n) (hs : s ≠ [])
    (h : fs.resolve false cwd (child s n) = some p) :
    ∃ d, fs.resolve true cwd s = some d ∧ p = d ++ [n] ∧ fs.get (d ++ [n]) ≠ none := by
  have hlen := (resolve_bounds h).2
  have hw := resolve_eq_walk h
  rw [components_child hn, start_child hs] at hw
  obtain ⟨d, hd, hp⟩ := walk_nofollow_concat hfs hn.toOrdinary hw
  refine ⟨d, ?_, hp⟩
  have hlen' : s.length < pathMax := by
    rw [length_child] at hlen
    omega
  rw [resolve, if_neg (by simp [hs, hlen']), hd]

theorem resolve_child_follow (hfs : fs.Proper) (hn : ValidName n) (hs : s ≠ [])
    (h : fs.resolve true cwd (child s n) = some p) :
    ∃ d, fs.resolve true cwd s = some d ∧ fs.walk true maxLinks d [n] = some p := by
  obtain ⟨b, hb, hw⟩ := resolve_child hfs hn hs (resolve_bounds h).2 true cwd
  rw [hw, Option.bind_eq_some_iff] at h
  obtain ⟨d, hd, hp⟩ := h
  exact ⟨d, hd, walk_mono (.refl fs) hb hp⟩

theorem resolve_child_plain (hfs : fs.Proper) {d : Path} {x : Node} (hd : fs.resolve true cwd s = some d)
    (hlen : (child s n).length < pathMax) (hx : fs.get (d ++ [n]) = some x)
    (hplain : follow = false ∨ ∀ t, x ≠ .link t) : fs.resolve follow cwd (child s n) = some (d ++ [n]) := by
  have hn := hfs.name d n (by simp [hx])
  obtain ⟨b, -, hw⟩ := resolve_child hfs hn (resolve_bounds hd).1 hlen follow cwd
  rw [hw, hd, Option.bind_some, walk_single hn.toOrdinary hx hplain]

end Resolve

section Calls

theorem stat_eq_some {x : Node} :
    fs.stat cwd s = some x ↔ ∃ p, fs.resolve true cwd s = some p ∧ fs.get p = some x :=
  Option.bind_eq_some_iff

theorem stat_mono (hpart : Part fs' fs) {x : Node} (h : fs'.stat cwd s = some x) : fs.stat cwd s = some x := by
  obtain ⟨p, hp, hx⟩ := stat_eq_some.mp h
  exact stat_eq_some.mpr ⟨p, resolve_mono hpart hp, hpart p x hx⟩

theorem stat_child (hfs : fs.Proper) (hn : ValidName n) (hs : s ≠ []) {x : Node}
    (h : fs.stat cwd (child s n) = some x) :
    ∃ d q, fs.resolve true cwd s = some d ∧ fs.get (d ++ [n]) ≠ none ∧ fs.walk true maxLinks d [n] = some q ∧
      fs.get q = some x ∧ (child s n).length < pathMax ∧
        ∀ y, fs.get (d ++ [n]) = some y → (∀ t, y ≠ .link t) → q = d ++ [n] ∧ x = y := by
  obtain ⟨q, hq, hx⟩ := stat_eq_some.mp h
  obtain ⟨d, hd, hw⟩ := resolve_child_follow hfs hn hs hq
  refine ⟨d, q, hd, ?_, hw, hx, (resolve_bounds hq).2, ?_⟩
  · intro hnone
    rw [walk_single_none hn.toOrdinary hnone] at hw
    cases hw
  · intro y hy hplain
    rw [walk_single hn.toOrdinary hy (.inr hplain)] at hw
    cases hw
    rw [hy] at hx
    cases hx
    exact ⟨rfl, rfl⟩

theorem opendir_eq_some : fs.opendir cwd s = some p ↔ fs.resolve true cwd s = some p ∧ fs.get p = some .dir := by
  simp [opendir, Option.filter_eq_some_iff]

theorem opendir_ne_nil (h : fs.opendir cwd s = some p) : s ≠ [] := (resolve_bounds (opendir_eq_some.mp h).1).1

theorem opendir_of_nofollow (h : fs.resolve false cwd s = some p) (hdir : fs.get p = some .dir) :
    fs.opendir cwd s = some p := opendir_eq_some.mpr ⟨resolve_follow (by simp [hdir]) h, hdir⟩

theorem mem_readdir (hn : n ≠ dot) (hn' : n ≠ dotdot) : n ∈ fs.readdir p ↔ fs.get (p ++ [n]) ≠ none := by
  simp [readdir, hn, hn', mem_names]

theorem resolve_last (hfs : fs.Proper) {m : Name} (hm : Ordinary m) (hlast : (components s).getLast? = some m)
    (h : fs.resolve false cwd s = some p) : p ≠ [] ∧ fs.get p ≠ none := by
  obtain ⟨ns, hns⟩ := List.getLast?_eq_some_iff.mp hlast
  have hw := resolve_eq_walk h
  rw [hns] at hw
  obtain ⟨d, -, rfl, hg⟩ := walk_nofollow_concat hfs hm hw
  exact ⟨by simp, hg⟩

theorem rmdir_eq_some (hfs : fs.Proper) (h : fs.rmdir cwd s = some fs') :
    ∃ p, fs.resolve false cwd s = some p ∧ fs.get p = some .dir ∧ (∀ n, fs.get (p ++ [n]) = none) ∧ p ≠ [] ∧
      fs' = fs.without (· = p) := by
  rw [rmdir] at h
  split at h
  · rename_i p m hp hm
    split_ifs at h with hc
    obtain ⟨hdot, hdotdot, hdir, hempty⟩ := hc
    have hne := (resolve_last hfs ⟨hdot, hdotdot⟩ hm hp).1
    exact ⟨p, hp, hdir, names_eq_nil.mp hempty, hne, by simpa using h.symm⟩
  · cases h

theorem rmdir_child (hfs : fs.Proper) {d : Path} (hd : fs.resolve true cwd s = some d)
    (hlen : (child s n).length < pathMax) (hdir : fs.get (d ++ [n]) = some .dir)
    (hempty : ∀ m, fs.get (d ++ [n] ++ [m]) = none) :
    fs.rmdir cwd (child s n) = some (fs.without (· = d ++ [n])) := by
  have hn := hfs.name d n (by simp [hdir])
  have hres : fs.resolve false cwd (child s n) = some (d ++ [n]) := resolve_child_plain hfs hd hlen hdir (.inl rfl)
  simp [rmdir, hres, components_child hn, hn.ne_dot, hn.ne_dotdot, hdir, names_eq_nil.mpr hempty]

theorem rmdir_isSome_iff :
    (fs.rmdir cwd s).isSome ↔ ∃ p n, fs.resolve false cwd s = some p ∧ (components s).getLast? = some n ∧
      Ordinary n ∧ fs.get p = some .dir ∧ ∀ m, fs.get (p ++ [m]) = none := by
  rw [rmdir]
  constructor
  · intro h
    split at h
    · rename_i p n hp hn
      split_ifs at h with hc
      · obtain ⟨hdot, hdotdot, hdir, hempty⟩ := hc
        exact ⟨p, n, hp, hn, ⟨hdot, hdotdot⟩, hdir, names_eq_nil.mp hempty⟩
      · cases h
    · cases h
  · rintro ⟨p, n, hp, hn, hord, hdir, hempty⟩
    simp [hp, hn, hord.ne_dot, hord.ne_dotdot, hdir, names_eq_nil.mpr hempty]

theorem rmdir_congr (hsame : ∀ p, fs.get p = fs'.get p) (hsome : (fs'.rmdir cwd s).isSome) :
    (fs.rmdir cwd s).isSome := by
  have hpart : Part fs' fs := by
    intro p x hx
    rw [hsame, hx]
  obtain ⟨p, n, hp, hn, hord, hdir, hempty⟩ := rmdir_isSome_iff.mp hsome
  refine rmdir_isSome_iff.mpr ⟨p, n, resolve_mono hpart hp, hn, hord, hpart p _ hdir, fun m => ?_⟩
  rw [hsame, hempty]

theorem unlink_eq_some (h : fs.unlink cwd s = some fs') :
    ∃ p, fs.resolve false cwd s = some p ∧ fs.get p ≠ none ∧ fs.get p ≠ some .dir ∧ fs' = fs.without (· = p) := by
  rw [unlink] at h
  split at h
  · rename_i p hp
    cases hg : fs.get p with
    | none => simp [hg] at h
    | some x =>
      rw [hg] at h
      refine ⟨p, hp, by simp [hg], ?_⟩
      cases x with
      | dir => cases h
      | file => exact ⟨by simp [hg], by simpa using h.symm⟩
      | link t => exact ⟨by simp [hg], by simpa using h.symm⟩
  · cases h

theorem unlink_child (hfs : fs.Proper) {d : Path} (hd : fs.resolve true cwd s = some d)
    (hlen : (child s n).length < pathMax) {x : Node} (hx : fs.get (d ++ [n]) = some x) (hdir : x ≠ .dir) :
    fs.unlink cwd (child s n) = some (fs.without (· = d ++ [n])) := by
  have hres : fs.resolve false cwd (child s n) = some (d ++ [n]) := resolve_child_plain hfs hd hlen hx (.inl rfl)
  cases x with
  | dir => exact absurd rfl hdir
  | file => simp [unlink, hres, hx]
  | link t => simp [unlink, hres, hx]

theorem remove_eq_some (hfs : fs.Proper) (h : fs.remove cwd s = some fs') :
    ∃ p, fs.resolve false cwd s = some p ∧ p ≠ [] ∧ (∀ n, fs.get (p ++ [n]) = none) ∧ fs' = fs.without (· = p) := by
  rw [remove, Option.or_eq_some_iff] at h
  obtain h | ⟨-, h⟩ := h
  · obtain ⟨p, hp, hg, hdir, rfl⟩ := unlink_eq_some h
    refine ⟨p, hp, ?_, hfs.no_entry hdir, rfl⟩
    rintro rfl
    exact hdir hfs.root
  · obtain ⟨p, hp, -, hempty, hne, rfl⟩ := rmdir_eq_some hfs h
    exact ⟨p, hp, hne, hempty, rfl⟩

end Calls

end FileTree
