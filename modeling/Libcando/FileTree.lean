import Mathlib.Data.List.Basic
import Mathlib.Data.List.Infix
import Mathlib.Data.Nat.Notation
import Mathlib.Tactic.SplitIfs

namespace FileTree

abbrev Name := List UInt8

abbrev Path := List Name

inductive Node
  | file
  | dir
  | link (target : List UInt8)
  deriving DecidableEq

end FileTree

abbrev FileTree := List (FileTree.Path × FileTree.Node)

namespace FileTree

variable {fs fs' : FileTree} {p q cwd : Path} {n : Name} {s : List UInt8}

def get (fs : FileTree) (p : Path) : Option Node := fs.lookup p

def names (fs : FileTree) (d : Path) : List Name :=
  (fs.filter fun e => e.1 ≠ [] ∧ e.1.dropLast = d).filterMap fun e => e.1.getLast?

def without (gone : Path → Prop) [DecidablePred gone] (fs : FileTree) : FileTree :=
  fs.filter fun e => ¬gone e.1

def slash : UInt8 := 47

def dot : Name := [46]

def dotdot : Name := [46, 46]

structure Ordinary (n : Name) : Prop where
  ne_dot : n ≠ dot
  ne_dotdot : n ≠ dotdot

structure ValidName (n : Name) : Prop extends Ordinary n where
  nonempty : n ≠ []
  no_slash : slash ∉ n
  no_nul : 0 ∉ n

instance (n : Name) : Decidable (Ordinary n) :=
  decidable_of_iff (n ≠ dot ∧ n ≠ dotdot) ⟨fun h => ⟨h.1, h.2⟩, fun h => ⟨h.ne_dot, h.ne_dotdot⟩⟩

instance (n : Name) : Decidable (ValidName n) :=
  decidable_of_iff (Ordinary n ∧ n ≠ [] ∧ slash ∉ n ∧ 0 ∉ n)
    ⟨fun h => ⟨h.1, h.2.1, h.2.2.1, h.2.2.2⟩, fun h => ⟨h.toOrdinary, h.nonempty, h.no_slash, h.no_nul⟩⟩

structure Proper (fs : FileTree) : Prop where
  root : fs.get [] = some .dir
  parent : ∀ p n, fs.get (p ++ [n]) ≠ none → fs.get p = some .dir
  name : ∀ p n, fs.get (p ++ [n]) ≠ none → ValidName n

def Part (fs' fs : FileTree) : Prop := ∀ p x, fs'.get p = some x → fs.get p = some x

section Get

variable {gone : Path → Prop} [DecidablePred gone]

theorem get_without : (fs.without gone).get p = if gone p then none else fs.get p := by
  induction fs with
  | nil => simp [without, get]
  | cons e fs ih =>
    simp only [without, get] at ih ⊢
    by_cases he : gone e.1
    · rw [List.filter_cons_of_neg (by simpa using he), List.lookup_cons, ih]
      by_cases hp : p = e.1
      · simp [hp, he]
      · simp [beq_eq_false_iff_ne.mpr hp]
    · rw [List.filter_cons_of_pos (by simpa using he), List.lookup_cons, List.lookup_cons, ih]
      by_cases hp : p = e.1
      · simp [hp, he]
      · simp [beq_eq_false_iff_ne.mpr hp]

theorem get_ne_none : fs.get p ≠ none ↔ ∃ e ∈ fs, e.1 = p := by
  simp only [get, ne_eq, List.lookup_eq_none_iff, bne_iff_ne, not_forall, exists_prop, not_not]
  constructor
  · rintro ⟨e, he, rfl⟩
    exact ⟨e, he, rfl⟩
  · rintro ⟨e, he, rfl⟩
    exact ⟨e, he, rfl⟩

theorem mem_of_get {x : Node} (h : fs.get p = some x) : (p, x) ∈ fs := by
  obtain ⟨l, r, rfl, -⟩ := List.lookup_eq_some_iff.mp h
  simp

theorem mem_names {d : Path} : n ∈ fs.names d ↔ fs.get (d ++ [n]) ≠ none := by
  rw [get_ne_none]
  simp only [names, List.mem_filterMap, List.mem_filter, decide_eq_true_eq]
  constructor
  · rintro ⟨e, ⟨he, hne, rfl⟩, hn⟩
    obtain ⟨y, hy⟩ := List.getLast?_eq_some_iff.mp hn
    exact ⟨e, he, by simp [hy]⟩
  · rintro ⟨e, he, h⟩
    exact ⟨e, ⟨he, by simp [h]⟩, by simp [h]⟩

theorem names_eq_nil {d : Path} : fs.names d = [] ↔ ∀ n, fs.get (d ++ [n]) = none := by
  rw [List.eq_nil_iff_forall_not_mem]
  simp only [mem_names, not_not]

end Get

section Part

theorem Part.refl (fs : FileTree) : Part fs fs := fun _ _ h => h

theorem Part.trans {fs'' : FileTree} (h' : Part fs'' fs') (h : Part fs' fs) : Part fs'' fs :=
  fun p x hx => h p x (h' p x hx)

theorem Part.ne_none (h : Part fs' fs) (hp : fs'.get p ≠ none) : fs.get p ≠ none := by
  obtain ⟨x, hx⟩ := Option.ne_none_iff_exists'.mp hp
  simp [h p x hx]

theorem part_without (gone : Path → Prop) [DecidablePred gone] : Part (fs.without gone) fs := by
  intro p x hx
  rw [get_without] at hx
  split_ifs at hx
  exact hx

end Part

section Proper

theorem proper_iff : fs.Proper ↔ fs.get [] = some .dir ∧
    ∀ e ∈ fs, ∀ n ∈ e.1.getLast?, fs.get e.1.dropLast = some .dir ∧ ValidName n := by
  constructor
  · intro h
    refine ⟨h.root, fun e he n hn => ?_⟩
    obtain ⟨p, hp⟩ := List.getLast?_eq_some_iff.mp hn
    have hg : fs.get (p ++ [n]) ≠ none := get_ne_none.mpr ⟨e, he, hp⟩
    rw [hp, List.dropLast_concat]
    exact ⟨h.parent p n hg, h.name p n hg⟩
  · rintro ⟨hroot, hentry⟩
    have hconcat (p : Path) (n : Name) (hg : fs.get (p ++ [n]) ≠ none) : fs.get p = some .dir ∧ ValidName n := by
      obtain ⟨e, he, hp⟩ := get_ne_none.mp hg
      simpa [hp] using hentry e he n (by simp [hp])
    exact ⟨hroot, fun p n hg => (hconcat p n hg).1, fun p n hg => (hconcat p n hg).2⟩

instance (fs : FileTree) : Decidable fs.Proper := decidable_of_iff' _ proper_iff

theorem Proper.dir_of_prefix (h : fs.Proper) (hq : fs.get q ≠ none) (hpq : p <+: q) (hne : p ≠ q) :
    fs.get p = some .dir := by
  obtain ⟨r, rfl⟩ := hpq
  induction r using List.reverseRecOn with
  | nil => simp at hne
  | append_singleton r n ih =>
    rw [← List.append_assoc] at hq
    have hr := h.parent _ _ hq
    by_cases hr0 : r = []
    · simpa [hr0] using hr
    · exact ih (by simp [hr]) (by simpa using hr0)

theorem Proper.no_entry (h : fs.Proper) (hp : fs.get p ≠ some .dir) (n : Name) : fs.get (p ++ [n]) = none := by
  by_contra hn
  exact hp (h.parent p n hn)

theorem Proper.delete (h : fs.Proper) (hp : p ≠ []) (hempty : ∀ n, fs.get (p ++ [n]) = none) :
    (fs.without (· = p)).Proper where
  root := by rw [get_without, if_neg (Ne.symm hp), h.root]
  parent := by
    intro q n hq
    have hq' := (part_without _).ne_none hq
    rw [get_without, if_neg, h.parent q n hq']
    rintro rfl
    exact hq' (hempty n)
  name := by
    intro q n hq
    exact h.name q n ((part_without _).ne_none hq)

end Proper

section Walk

def components (s : List UInt8) : List Name := (s.splitOn slash).filter (· ≠ [])

/-- A link that ends in a slash stands for a directory. -/
def targetComponents (t : List UInt8) : List Name :=
  components t ++ if t.getLast? = some slash then [dot] else []

def start (cwd : Path) (s : List UInt8) : Path := if s.head? = some slash then [] else cwd

def walkWith (fs : FileTree) (leap : Path → List UInt8 → List Name → Option Path) (follow : Bool) :
    Path → List Name → Option Path
  | cur, [] => some cur
  | cur, n :: ns =>
    if n = dot then walkWith fs leap follow cur ns
    else if n = dotdot then walkWith fs leap follow cur.dropLast ns
    else match fs.get (cur ++ [n]) with
      | none => none
      | some .file => if ns = [] then some (cur ++ [n]) else none
      | some .dir => walkWith fs leap follow (cur ++ [n]) ns
      | some (.link t) => if ns = [] ∧ follow = false then some (cur ++ [n]) else leap cur t ns

def walk (fs : FileTree) (follow : Bool) : ℕ → Path → List Name → Option Path
  | 0 => fs.walkWith (fun _ _ _ => none) follow
  | b + 1 => fs.walkWith (fun cur t ns => walk fs follow b (start cur t) (targetComponents t ++ ns)) follow

def pathMax : ℕ := 4096

def maxLinks : ℕ := 40

def resolve (fs : FileTree) (follow : Bool) (cwd : Path) (s : List UInt8) : Option Path :=
  if s = [] ∨ pathMax ≤ s.length then none else fs.walk follow maxLinks (start cwd s) (components s)

def stat (fs : FileTree) (cwd : Path) (s : List UInt8) : Option Node :=
  (fs.resolve true cwd s).bind fs.get

def opendir (fs : FileTree) (cwd : Path) (s : List UInt8) : Option Path :=
  (fs.resolve true cwd s).filter fun p => fs.get p = some .dir

def rmdir (fs : FileTree) (cwd : Path) (s : List UInt8) : Option FileTree :=
  match fs.resolve false cwd s, (components s).getLast? with
  | some p, some n =>
    if n ≠ dot ∧ n ≠ dotdot ∧ fs.get p = some .dir ∧ fs.names p = [] then some (fs.without (· = p)) else none
  | _, _ => none

def unlink (fs : FileTree) (cwd : Path) (s : List UInt8) : Option FileTree :=
  match fs.resolve false cwd s with
  | some p =>
    match fs.get p with
    | none | some .dir => none
    | some _ => some (fs.without (· = p))
  | none => none

def remove (fs : FileTree) (cwd : Path) (s : List UInt8) : Option FileTree := (fs.unlink cwd s).or (fs.rmdir cwd s)

def readdir (fs : FileTree) (d : Path) : List Name := dot :: dotdot :: fs.names d

end Walk

end FileTree
