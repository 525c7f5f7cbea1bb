import Libcando.CStrings
import Libcando.FileLines
import Libcando.RemoveDir
import Mathlib.Data.List.DropRight

namespace Libcando.FileOps

open CStrings FileTree

def createDirectory (s : List UInt8 × List (List UInt8)) (i : ℕ) : List UInt8 × List (List UInt8) :=
  if s.1[i]? = some slash then ((s.1.set i 0).set i slash, s.2 ++ [cString (s.1.set i 0)]) else s

def pCreateDirectories (dir : List UInt8) (length : ℕ) : List UInt8 × List (List UInt8) :=
  (List.range length).foldl createDirectory (dir, [])

structure PathBuffer where
  fullPath : List UInt8
  fnameOff : ℕ

def fnameScan (fullPath : List UInt8) : ℕ → ℕ
  | 0 => 0
  | i + 1 => if fullPath[i + 1]? = some slash then i + 1 else fnameScan fullPath i

def pSetFnameOff (fullPath : List UInt8) (length : ℕ) : PathBuffer :=
  ⟨fullPath.set (fnameScan fullPath length) 0, fnameScan fullPath length + 1⟩

/-- The buffer that create opens the file by. memccpy does not stop at the end of the name and copies what lies
after it as well. -/
def copyName (fname after : List UInt8) : List UInt8 :=
  memccpy (List.replicate udoFilePathMax 0) (fname ++ 0 :: after) newline udoFilePathMax

def openBuffer (fname after : List UInt8) (createDir : Bool) : List UInt8 :=
  let fullPath := copyName fname after
  if createDir then (pCreateDirectories fullPath (strnlen fullPath udoFilePathMax)).1 else fullPath

def PathBuffer.create (fname after : List UInt8) (createDir : Bool) : PathBuffer :=
  pSetFnameOff (openBuffer fname after createDir) (strnlen (copyName fname after) udoFilePathMax)

def udoFileOpsGetFilename (flops : PathBuffer) : Option (List UInt8) :=
  if flops.fnameOff = 0 then none else some (cString (flops.fullPath.drop flops.fnameOff))

def udoFileOpsGetDirname (flops : PathBuffer) : Option (List UInt8) :=
  if flops.fullPath.headD 0 = 0 then none else some (cString flops.fullPath)

def udoFileOpsGetFullPath (flops : PathBuffer) : PathBuffer × Option (List UInt8) :=
  if flops.fullPath.headD 0 = 0 ∨ flops.fnameOff = 0 then (flops, none)
  else
    let flops := { flops with fullPath := flops.fullPath.set (flops.fnameOff - 1) slash }
    (flops, some (cString flops.fullPath))

def udoFileOpsResetFullPath (flops : PathBuffer) : PathBuffer :=
  if flops.fullPath.headD 0 = 0 ∨ flops.fnameOff = 0 then flops
  else { flops with fullPath := flops.fullPath.set (flops.fnameOff - 1) 0 }

inductive PathCall
  | getFullPath
  | resetFullPath
  | getFilename
  | getDirname
  deriving DecidableEq

def PathBuffer.call (flops : PathBuffer) : PathCall → PathBuffer
  | .getFullPath => (udoFileOpsGetFullPath flops).1
  | .resetFullPath => udoFileOpsResetFullPath flops
  | .getFilename | .getDirname => flops

def PathCall.joined (calls : List PathCall) : Bool :=
  calls.foldl (fun joined call =>
    match call with
    | .getFullPath => true
    | .resetFullPath => false
    | .getFilename | .getDirname => joined) false

variable {s t d n fname after dir : List UInt8} {c : UInt8} {f : PathBuffer} {createDir : Bool}

theorem copyName_eq (hline : newline ∉ fname) (hfit : fname.length < udoFilePathMax) (after : List UInt8) :
    ∃ t, copyName fname after = fname ++ 0 :: t := by
  obtain ⟨k, hk⟩ : ∃ k, udoFilePathMax = fname.length + (k + 1) := ⟨udoFilePathMax - fname.length - 1, by omega⟩
  refine ⟨upTo newline (after.take k) ++ (List.replicate udoFilePathMax 0).drop
    (fname ++ 0 :: upTo newline (after.take k)).length, ?_⟩
  have hcopied : upTo newline ((fname ++ 0 :: after).take udoFilePathMax) =
      fname ++ 0 :: upTo newline (after.take k) := by
    rw [hk, List.take_length_add_append, List.take_succ_cons, upTo_append hline, upTo, if_neg (by decide)]
  rw [copyName, memccpy, overwrite, hcopied, List.append_assoc, List.cons_append]

def prefixes (dir : List UInt8) (length : ℕ) : List (List UInt8) :=
  ((List.range length).filter fun i => dir[i]? = some slash).map (dir.take ·)

theorem prefixes_succ (dir : List UInt8) (k : ℕ) :
    prefixes dir (k + 1) = prefixes dir k ++ if dir[k]? = some slash then [dir.take k] else [] := by
  rw [prefixes, List.range_succ, List.filter_append, List.map_append, ← prefixes]
  by_cases hslash : dir[k]? = some slash <;> simp [hslash]

theorem pCreateDirectories_succ (dir : List UInt8) (k : ℕ) :
    pCreateDirectories dir (k + 1) = createDirectory (pCreateDirectories dir k) k := by
  rw [pCreateDirectories, List.range_succ, List.foldl_append, ← pCreateDirectories, List.foldl_cons, List.foldl_nil]

theorem pCreateDirectories_eq {k : ℕ} (hk : k ≤ (cString dir).length) :
    pCreateDirectories dir k = (dir, prefixes dir k) := by
  induction k with
  | zero => rfl
  | succ k ih =>
    rw [pCreateDirectories_succ, ih (by omega), createDirectory, prefixes_succ]
    by_cases hslash : dir[k]? = some slash
    · have hset : (dir.set k 0).set k slash = dir := by
        obtain ⟨hlt, hget⟩ := List.getElem?_eq_some_iff.mp hslash
        rw [List.set_set, ← hget, List.set_getElem_self]
      simp only [hslash, if_true, hset, cString_set (show k < (cString dir).length by omega)]
    · simp only [hslash, if_false, List.append_nil]

theorem openBuffer_eq (fname after : List UInt8) (createDir : Bool) :
    openBuffer fname after createDir = copyName fname after := by
  rw [openBuffer, pCreateDirectories_eq (strnlen_le _ _), ite_self]

theorem fnameScan_stop {i k : ℕ} (hi : s[i + 1]? = some slash)
    (hk : ∀ j, i + 1 < j → j ≤ i + 1 + k → s[j]? ≠ some slash) : fnameScan s (i + 1 + k) = i + 1 := by
  induction k with
  | zero => simp [fnameScan, hi]
  | succ k ih =>
    rw [← Nat.add_assoc, fnameScan, if_neg (hk _ (by omega) (by omega)), ih fun j hj hjk => hk j hj (by omega)]

theorem fnameScan_zero {k : ℕ} (hk : ∀ j, 0 < j → j ≤ k → s[j]? ≠ some slash) : fnameScan s k = 0 := by
  induction k with
  | zero => rfl
  | succ k ih => rw [fnameScan, if_neg (hk _ (by omega) le_rfl), ih fun j hj hjk => hk j hj (by omega)]

def afterSlash (fname : List UInt8) : List UInt8 := fname.rtakeWhile (· ≠ slash)

def beforeSlash (fname : List UInt8) : List UInt8 := (fname.rdropWhile (· ≠ slash)).dropLast

theorem slash_notMem_afterSlash (fname : List UInt8) : slash ∉ afterSlash fname := by
  intro h
  rw [afterSlash, List.rtakeWhile, List.mem_reverse] at h
  simpa using List.mem_takeWhile_imp h

theorem beforeSlash_append (h : slash ∈ fname) : beforeSlash fname ++ slash :: afterSlash fname = fname := by
  have hne : fname.rdropWhile (· ≠ slash) ≠ [] := by
    intro hnil
    rw [List.rdropWhile_eq_nil_iff] at hnil
    simpa using hnil slash h
  have hlast : (fname.rdropWhile (· ≠ slash)).getLast hne = slash := by
    simpa using List.rdropWhile_last_not _ _ hne
  have hdrop : beforeSlash fname ++ [slash] = fname.rdropWhile (· ≠ slash) := by
    have := List.dropLast_append_getLast hne
    rwa [hlast] at this
  calc beforeSlash fname ++ slash :: afterSlash fname
      = beforeSlash fname ++ [slash] ++ afterSlash fname := by simp
    _ = fname.rdropWhile (· ≠ slash) ++ afterSlash fname := by rw [hdrop]
    _ = fname := List.rdropWhile_append_rtakeWhile ..

theorem slash_notMem_getElem (hs : slash ∉ s) {k : ℕ} (hk : k ≤ s.length) : (s ++ 0 :: t)[k]? ≠ some slash := by
  intro h
  rcases Nat.lt_or_eq_of_le hk with hlt | heq
  · rw [List.getElem?_append_left hlt] at h
    exact hs (List.mem_of_getElem? h)
  · rw [List.getElem?_append_right (by omega), heq, Nat.sub_self] at h
    cases h

structure PathBuffer.Parted (d n : List UInt8) (sep : UInt8) (f : PathBuffer) : Prop where
  fullPath : ∃ t, f.fullPath = d ++ sep :: (n ++ 0 :: t)
  fnameOff : f.fnameOff = d.length + 1

namespace PathBuffer

variable {sep : UInt8}

theorem Parted.set (h : f.Parted d n sep) (c : UInt8) :
    Parted d n c { f with fullPath := f.fullPath.set (f.fnameOff - 1) c } where
  fullPath := by
    obtain ⟨t, ht⟩ := h.fullPath
    refine ⟨t, ?_⟩
    simp [ht, h.fnameOff]
  fnameOff := h.fnameOff

theorem Parted.open (h : f.Parted d n sep) (hd : d.headD 0 ≠ 0) :
    ¬(f.fullPath.headD 0 = 0 ∨ f.fnameOff = 0) := by
  obtain ⟨t, ht⟩ := h.fullPath
  cases d with
  | nil => exact absurd rfl hd
  | cons b d => simpa [ht, h.fnameOff] using hd

theorem Parted.filename (h : f.Parted d n sep) (hn : 0 ∉ n) : udoFileOpsGetFilename f = some n := by
  obtain ⟨t, ht⟩ := h.fullPath
  rw [udoFileOpsGetFilename, if_neg (by rw [h.fnameOff]; omega), ht, h.fnameOff]
  rw [List.drop_length_add_append, List.drop_succ_cons, List.drop_zero, cString_append_zero hn]

theorem Parted.getFullPath (h : f.Parted d n sep) (hd : d.headD 0 ≠ 0) (hz : 0 ∉ d ++ slash :: n) :
    (udoFileOpsGetFullPath f).1.Parted d n slash ∧ (udoFileOpsGetFullPath f).2 = some (d ++ slash :: n) := by
  have hset := h.set slash
  rw [udoFileOpsGetFullPath, if_neg (h.open hd)]
  refine ⟨hset, ?_⟩
  obtain ⟨t, ht⟩ := hset.fullPath
  dsimp only at ht ⊢
  rw [ht, ← List.cons_append, ← List.append_assoc, cString_append_zero hz]

theorem Parted.reset (h : f.Parted d n sep) (hd : d.headD 0 ≠ 0) : (udoFileOpsResetFullPath f).Parted d n 0 := by
  rw [udoFileOpsResetFullPath, if_neg (h.open hd)]
  exact h.set 0

theorem Parted.dirname (h : f.Parted d n 0) (hd : d.headD 0 ≠ 0) (hz : 0 ∉ d) : udoFileOpsGetDirname f = some d := by
  have hopen := h.open hd
  rw [not_or] at hopen
  obtain ⟨t, ht⟩ := h.fullPath
  rw [udoFileOpsGetDirname, if_neg hopen.1, ht, cString_append_zero hz]

theorem create_eq (hz : 0 ∉ fname) (hline : newline ∉ fname) (hfit : fname.length < udoFilePathMax)
    (after : List UInt8) (createDir : Bool) :
    ∃ t, create fname after createDir = pSetFnameOff (fname ++ 0 :: t) fname.length := by
  obtain ⟨t, ht⟩ := copyName_eq hline hfit after
  refine ⟨t, ?_⟩
  rw [create, openBuffer_eq, ht, strnlen_append hz hfit]

theorem create_parted (hz : 0 ∉ d ++ slash :: n) (hline : newline ∉ d ++ slash :: n) (hd : d ≠ []) (hn : slash ∉ n)
    (hfit : (d ++ slash :: n).length < udoFilePathMax) : (create (d ++ slash :: n) after createDir).Parted d n 0 := by
  obtain ⟨t, ht⟩ := create_eq hz hline hfit after createDir
  obtain ⟨i, hi⟩ : ∃ i, d.length = i + 1 := ⟨d.length - 1, by have := List.length_pos_iff.mpr hd; omega⟩
  have hscan : fnameScan ((d ++ slash :: n) ++ 0 :: t) (d ++ slash :: n).length = d.length := by
    have hlen : (d ++ slash :: n).length = i + 1 + (n.length + 1) := by simp [hi]
    rw [hlen, hi]
    apply fnameScan_stop
    · simp [← hi]
    · intro j hj hjk
      obtain ⟨k, rfl⟩ : ∃ k, j = d.length + (k + 1) := ⟨j - (i + 1) - 1, by omega⟩
      rw [List.append_assoc, List.getElem?_append_right (by omega), Nat.add_sub_cancel_left, List.cons_append,
        List.getElem?_cons_succ]
      exact slash_notMem_getElem hn (by omega)
  rw [ht, pSetFnameOff, hscan]
  exact ⟨⟨t, by simp⟩, rfl⟩

theorem parted_calls (h : f.Parted d n 0) (hd : d.headD 0 ≠ 0) (hz : 0 ∉ d ++ slash :: n) (calls : List PathCall) :
    (calls.foldl call f).Parted d n (if PathCall.joined calls then slash else 0) := by
  induction calls using List.reverseRecOn with
  | nil => exact h
  | append_singleton calls c ih =>
    rw [List.foldl_append, PathCall.joined, List.foldl_append, ← PathCall.joined]
    cases c with
    | getFullPath => exact (ih.getFullPath hd hz).1
    | resetFullPath => exact ih.reset hd
    | getFilename | getDirname => exact ih

structure Splits (fname : List UInt8) (joined : Bool) (f : PathBuffer) : Prop where
  filename : udoFileOpsGetFilename f = some (afterSlash fname)
  fullPath : (udoFileOpsGetFullPath f).2 = some fname
  dirname : joined = false → beforeSlash fname ≠ [] → udoFileOpsGetDirname f = some (beforeSlash fname)

theorem Parted.splits {joined : Bool} (h : f.Parted d n (if joined then slash else 0)) (hd : d.headD 0 ≠ 0)
    (hz : 0 ∉ d ++ slash :: n) (hdirname : d = beforeSlash fname) (hname : n = afterSlash fname)
    (hpath : d ++ slash :: n = fname) : f.Splits fname joined where
  filename := hname ▸ h.filename (by simp at hz; exact hz.2.2)
  fullPath := hpath ▸ (h.getFullPath hd hz).2
  dirname := by
    intro hj _
    rw [hj] at h
    exact hdirname ▸ h.dirname hd (by simp at hz; exact hz.1)

theorem unsplit_fullPath (hz : 0 ∉ fname) (hline : newline ∉ fname) (hfit : fname.length < udoFilePathMax)
    (hslash : slash ∉ fname.tail) : (udoFileOpsGetFullPath (create fname after createDir)).2 = none := by
  obtain ⟨t, ht⟩ := create_eq hz hline hfit after createDir
  have hscan : fnameScan (fname ++ 0 :: t) fname.length = 0 := by
    apply fnameScan_zero
    intro j hj hjk
    cases fname with
    | nil => simp at hjk; omega
    | cons b fname =>
      obtain ⟨k, rfl⟩ : ∃ k, j = k + 1 := ⟨j - 1, by omega⟩
      exact slash_notMem_getElem hslash (by simpa using hjk)
  rw [ht, pSetFnameOff, hscan, udoFileOpsGetFullPath, if_pos]
  cases fname <;> exact .inl rfl

theorem create_splits (hz : 0 ∉ fname) (hline : newline ∉ fname) (hfit : fname.length < udoFilePathMax)
    (hslash : slash ∈ fname.tail) (calls : List PathCall) :
    (calls.foldl call (create fname after createDir)).Splits fname (PathCall.joined calls) := by
  have hpath := beforeSlash_append (List.mem_of_mem_tail hslash)
  have hnot := slash_notMem_afterSlash fname
  generalize hdir : beforeSlash fname = d at hpath
  generalize hname : afterSlash fname = n at hpath hnot
  subst hpath
  cases d with
  | nil => exact absurd hslash hnot
  | cons b d =>
    have hhead : (b :: d).headD 0 ≠ 0 := by
      rintro rfl
      simp at hz
    exact (parted_calls (create_parted hz hline (by simp) hnot hfit) hhead hz calls).splits hhead hz hdir.symm
      hname.symm rfl

theorem path_split_iff (hz : 0 ∉ fname) (hline : newline ∉ fname) (hfit : fname.length < udoFilePathMax) :
    (∀ (after : List UInt8) (createDir : Bool) (calls : List PathCall),
      (calls.foldl call (create fname after createDir)).Splits fname (PathCall.joined calls)) ↔
        slash ∈ fname.tail := by
  constructor
  · intro hsplit
    by_contra hslash
    have := (hsplit [] false []).fullPath
    rw [List.foldl_nil, unsplit_fullPath hz hline hfit hslash] at this
    cases this
  · intro hslash after createDir calls
    exact create_splits hz hline hfit hslash calls

theorem path_split_iff_relative :
    (∀ (after : List UInt8) (createDir : Bool) (calls : List PathCall),
      (calls.foldl call (create [97, 47, 98] after createDir)).Splits [97, 47, 98] (PathCall.joined calls)) ↔
        slash ∈ [97, 47, 98].tail :=
  path_split_iff (by decide) (by decide) (by decide)

theorem bare_name_cut : ¬∀ (fname after : List UInt8) (createDir : Bool) (calls : List PathCall),
    0 ∉ fname → newline ∉ fname → fname ≠ [] → fname.length < udoFilePathMax →
      (calls.foldl call (create fname after createDir)).Splits fname (PathCall.joined calls) := by
  intro split
  have := (split [97, 98] [] false [] (by decide) (by decide) (by decide) (by decide)).filename
  revert this
  decide +kernel

end PathBuffer

end Libcando.FileOps
