import Libcando.Continuation
import Libcando.FileMapping

namespace Libcando.FileOps

open CStrings Jpool Transition

theorem Contents.ext {c d : Contents} (h : c.bytes = d.bytes) : c = d := by
  cases c
  cases d
  cases h
  rfl

def overwrite (pos : ℕ) (bytes l : List UInt8) : List UInt8 :=
  l.take pos ++ List.replicate (pos - l.length) 0 ++ bytes ++ l.drop (pos + bytes.length)

theorem length_overwrite (pos : ℕ) (bytes l : List UInt8) :
    (overwrite pos bytes l).length = max l.length (pos + bytes.length) := by
  simp only [overwrite, List.length_append, List.length_take, List.length_replicate, List.length_drop]
  omega

theorem prefix_overwrite {text bytes l : List UInt8} (h : text <+: l) :
    text ++ bytes <+: overwrite text.length bytes l := by
  obtain ⟨rest, rfl⟩ := h
  have hzeros : text.length - (text ++ rest).length = 0 := by simp
  rw [overwrite, List.take_left, hzeros, List.replicate_zero, List.append_nil]
  exact List.prefix_append _ _

def Contents.write (c : Contents) (pos : ℕ) (bytes : List UInt8) (h : pos + bytes.length < offMax) : Contents :=
  ⟨overwrite pos bytes c.bytes, by rw [length_overwrite]; exact max_lt c.bounded h⟩

def OpenInfo.writes (info : OpenInfo) : Bool := !info.createPipe && decide (info.size ≠ 0)

structure Session where
  flops : Mapping
  writer : Bool
  written : List UInt8 := []

/-- What a file is left with when a writer's context is destroyed with this size. Without a size the zeros up to
the page stay, and beyond what was written the file is not known. -/
def Session.saves (x : Session) (dataSz : ℕ) : Option (List UInt8) :=
  if dataSz = 0 ∨ x.written.length < dataSz then none else some (x.written.take dataSz)

/-- `saved` is history: what the files hold, as far as it was there from the start or was saved. -/
structure Store (K : Type) where
  disk : Disk
  sessions : K → Option Session
  saved : List UInt8 → Option (List UInt8)

inductive StoreAct (K : Type)
  | create (k : K) (info : OpenInfo) (v : Verdicts)
  | write (k : K) (bytes : List UInt8)
  | destroy (k : K) (dataSz : ℕ)

namespace Store

section Step

variable {K : Type} [DecidableEq K]

def forget (saved : List UInt8 → Option (List UInt8)) (info : OpenInfo) : List UInt8 → Option (List UInt8) :=
  match info.fname with
  | none => saved
  | some n => if info.writes then Function.update saved (info.path n) none else saved

def step : StoreAct K → Store K → Option (Store K)
  | .create k info v, s =>
    match s.disk.udoFileOpsCreate (some info) v with
    | (none, disk) => some { s with disk, saved := forget s.saved info }
    | (some flops, disk) => some
      { disk, sessions := Function.update s.sessions k (some { flops, writer := info.writes })
        saved := forget s.saved info }
  | .write k bytes, s => do
    let x ← s.sessions k
    let f ← x.flops.file
    let c ← s.disk.files f
    if h : x.written.length + bytes.length < offMax then
      some { s with
        disk := { s.disk with files := Function.update s.disk.files f (some (c.write x.written.length bytes h)) }
        sessions := Function.update s.sessions k (some { x with written := x.written ++ bytes }) }
    else none
  | .destroy k dataSz, s => do
    let x ← s.sessions k
    let f ← x.flops.file
    some { disk := s.disk.udoFileOpsDestroy x.flops dataSz
           sessions := Function.update s.sessions k none
           saved := if x.writer then Function.update s.saved f (x.saves dataSz) else s.saved }

def system (K : Type) [DecidableEq K] : System (Store K) (StoreAct K) where
  init s := (∀ k, s.sessions k = none) ∧ ∀ f, s.saved f = (s.disk.files f).map (·.bytes)
  step := step

/-- Each context has its own memory and a name without a newline. A file has one writer or any number of readers,
and readers map it from its beginning and leave it as it is. -/
def Proper : StoreAct K → Store K → Prop
  | .create k info _, s => s.sessions k = none ∧ (info.writes = false → info.offset = 0) ∧
    ∃ n, info.fname = some n ∧ newline ∉ n.bytes ∧ ∀ j x, s.sessions j = some x → x.flops.file = some n.bytes →
      x.writer = false ∧ info.writes = false
  | .write k _, s => ∀ x, s.sessions k = some x → x.writer = true
  | .destroy k dataSz, s => ∀ x, s.sessions k = some x → x.writer = false → dataSz = 0

end Step

end Store

namespace Disk

variable {info : OpenInfo} {v : Verdicts} {disk disk' : Disk} {flops : Mapping} {n : FileName} {c : Contents}

theorem ftruncate_other {f g : List UInt8} {size : ℕ} {truncated : Bool} (hne : g ≠ f) :
    ((disk.ftruncate (some f) size truncated).getD disk).files g = disk.files g := by
  rw [ftruncate]
  split_ifs
  · simp [Function.update_of_ne hne]
  · rfl

theorem ftruncate_exact {f : List UInt8} {truncated : Bool} (hc : disk.files f = some c) :
    ((disk.ftruncate (some f) c.bytes.length truncated).getD disk).files f = some c := by
  rw [ftruncate]
  split_ifs with h
  · rw [Option.getD_some]
    change Function.update disk.files f ((disk.files f).map fun c' => c'.resize c.bytes.length h.2) f = some c
    rw [Function.update_self, hc, Option.map_some]
    congr 1
    apply Contents.ext
    simp [Contents.resize]
  · rw [Option.getD_none, hc]

theorem ftruncate_there {f : List UInt8} {size : ℕ} {truncated : Bool} (hc : (disk.files f).isSome = true) :
    (((disk.ftruncate (some f) size truncated).getD disk).files f).isSome = true := by
  rw [ftruncate]
  split_ifs
  · simpa using hc
  · exact hc

structure Touched (info : OpenInfo) (n : FileName) (disk disk' : Disk) : Prop where
  others : ∀ g, g ≠ n.bytes → disk'.files g = disk.files g
  kept : info.writes = false → ∀ c, disk.files n.bytes = some c → disk'.files n.bytes = some c

structure Made (info : OpenInfo) (n : FileName) (disk disk' : Disk) (m : Mapping) : Prop where
  file : m.file = some n.bytes
  there : (disk'.files n.bytes).isSome = true
  mapped : info.createPipe = false → m.mapped = true
  offset : m.mapped = true → m.offset = info.offset
  dataSz : m.mapped = true → info.writes = false → ∀ c, disk.files n.bytes = some c → m.dataSz = c.bytes.length

theorem Opened.there (hline : newline ∉ n.bytes) (h : Opened info n disk flops disk') :
    (disk'.files n.bytes).isSome = true := by
  rw [h.files, path_eq hline, Function.update_self]
  rfl

theorem Opened.touched (hline : newline ∉ n.bytes) (h : Opened info n disk flops disk') :
    Touched info n disk disk' := by
  refine ⟨fun g hg => ?_, fun _ c hc => h.keeps hc⟩
  rw [h.files, path_eq hline, Function.update_of_ne hg]

theorem Opened.sizes_reader (h : Opened info n disk flops disk') (hsize : info.size = 0)
    (hc : disk.files n.bytes = some c) :
    flops.dataSz = c.bytes.length ∧ flops.allocSz = udoByteAlign c.bytes.length udoPageSize := by
  rw [h.dataSz, h.allocSz, hc, sizes_existing hsize]
  exact ⟨rfl, rfl⟩

theorem size_of_reader (hpipe : info.createPipe = false) (hreader : info.writes = false) : info.size = 0 := by
  simpa [OpenInfo.writes, hpipe] using hreader

theorem Opened.mapFile_touched (hline : newline ∉ n.bytes) (hpipe : info.createPipe = false)
    (h : Opened info n disk flops disk') : Touched info n disk (disk'.mapFile info v flops).2 := by
  have hfile : flops.file = some n.bytes := by rw [h.file, path_eq hline]
  have htouched := h.touched hline
  rw [mapFile_disk, hfile]
  constructor
  · intro g hg
    split_ifs
    · rw [ftruncate_other hg, htouched.others g hg]
    · exact htouched.others g hg
  · intro hreader c hc
    have hc' := htouched.kept hreader c hc
    obtain ⟨hdata, halloc⟩ := h.sizes_reader (size_of_reader hpipe hreader) hc
    split_ifs with hzero
    · -- an empty file is truncated to the size that it has
      have hempty : c.bytes.length = 0 := by omega
      have hsame : flops.allocSz = c.bytes.length := by
        rw [halloc, hempty]
        rfl
      rw [hsame, ftruncate_exact hc']
    · exact hc'

theorem Opened.mapFile_made (hline : newline ∉ n.bytes) (hpipe : info.createPipe = false)
    (h : Opened info n disk flops disk') {m : Mapping} {disk₂ : Disk}
    (hmap : disk'.mapFile info v flops = (some m, disk₂)) : Made info n disk disk₂ m := by
  have hfile : flops.file = some n.bytes := by rw [h.file, path_eq hline]
  obtain ⟨hmade, -⟩ := mapFile_some hmap
  refine ⟨hmade.file.trans hfile, ?_, fun _ => hmade.mapped, fun _ => hmade.offset, fun _ hreader c hc => ?_⟩
  · have hdisk : disk₂ = (disk'.mapFile info v flops).2 := by rw [hmap]
    rw [hdisk, mapFile_disk, hfile]
    split_ifs
    · exact ftruncate_there (h.there hline)
    · exact h.there hline
  · rw [hmade.dataSz]
    exact (h.sizes_reader (size_of_reader hpipe hreader) hc).1

theorem create_spec (hname : info.fname = some n) (hline : newline ∉ n.bytes) {r : Option Mapping}
    (h : disk.udoFileOpsCreate (some info) v = (r, disk')) :
    Touched info n disk disk' ∧ ∀ m, r = some m → Made info n disk disk' m := by
  have same : Touched info n disk disk := ⟨fun _ _ => rfl, fun _ _ hc => hc⟩
  simp only [udoFileOpsCreate] at h
  by_cases hcalloc : v.calloc = false
  · rw [if_pos hcalloc] at h
    cases h
    exact ⟨same, by simp⟩
  rw [if_neg hcalloc] at h
  cases hopen : v.opened with
  | false =>
    have hnone : disk.openFile info false = none := by simp [openFile, hname]
    rw [hopen, hnone] at h
    cases h
    exact ⟨same, by simp⟩
  | true =>
    obtain ⟨flops, disk₁, hsome, hopened⟩ := openFile_named disk hname
    rw [hopen, hsome] at h
    dsimp only at h
    cases hpipe : info.createPipe with
    | true =>
      rw [hpipe, if_pos rfl] at h
      split_ifs at h
      · cases h
        refine ⟨hopened.touched hline, fun m hm => ?_⟩
        cases hm
        have hunmapped : flops.mapped = false := by
          simp only [openFile, hname, if_true, Option.some.injEq, Prod.mk.injEq] at hsome
          rw [← hsome.1]
        refine ⟨by rw [hopened.file, path_eq hline], hopened.there hline, ?_, ?_, ?_⟩
        · simp [hpipe]
        · rw [hunmapped]
          simp
        · rw [hunmapped]
          simp
      · cases h
        exact ⟨hopened.touched hline, by simp⟩
    | false =>
      rw [hpipe, if_neg (by simp)] at h
      have htouched := hopened.mapFile_touched (v := v) hline hpipe
      rw [h] at htouched
      refine ⟨htouched, fun m hm => ?_⟩
      subst hm
      exact hopened.mapFile_made hline hpipe h

theorem create_isSome (hname : info.fname = some n) (hpipe : info.createPipe = false)
    (halign : udoByteAlign info.size udoPageSize < offMax) :
    (disk.udoFileOpsCreate (some info) {}).1.isSome = true := by
  obtain ⟨flops, disk₁, hopen, hopened⟩ := openFile_named disk hname
  simp only [udoFileOpsCreate, Bool.true_eq_false, if_false, hopen, hpipe, Bool.false_eq_true]
  refine mapFile_isSome.mpr ⟨fun hzero => ⟨rfl, ?_⟩, .inl rfl⟩
  rw [hopened.allocSz, allocSz_of_unreported _ (hopened.dataSz ▸ hzero)]
  exact halign

end Disk

namespace Store

variable {K : Type} {s t : Store K} {f : List UInt8}

structure KeptAt (s : Store K) (f : List UInt8) : Prop where
  there : ∀ k x, s.sessions k = some x → x.flops.file = some f → (s.disk.files f).isSome = true
  alone : ∀ j k x y, j ≠ k → s.sessions j = some x → s.sessions k = some y → x.flops.file = some f →
    y.flops.file = some f → x.writer = false
  saved : ∀ b, s.saved f = some b → ∃ c, s.disk.files f = some c ∧ c.bytes = b
  writer : ∀ k x c, s.sessions k = some x → x.flops.file = some f → x.writer = true → s.disk.files f = some c →
    x.written <+: c.bytes ∧ s.saved f = none
  reader : ∀ k x b, s.sessions k = some x → x.flops.file = some f → x.writer = false → x.flops.mapped = true →
    s.saved f = some b → x.flops.offset = 0 ∧ x.flops.dataSz = b.length

namespace KeptAt

theorem frame (h : KeptAt s f) (hfiles : t.disk.files f = s.disk.files f) (hsaved : t.saved f = s.saved f)
    (hsessions : ∀ k x, t.sessions k = some x → x.flops.file = some f → s.sessions k = some x) : KeptAt t f where
  there k x hx hf := by
    rw [hfiles]
    exact h.there k x (hsessions k x hx hf) hf
  alone j k x y hjk hx hy hfx hfy := h.alone j k x y hjk (hsessions j x hx hfx) (hsessions k y hy hfy) hfx hfy
  saved b hb := by
    rw [hfiles]
    exact h.saved b (hsaved ▸ hb)
  writer k x c hx hf hwriter hc := by
    rw [hsaved]
    exact h.writer k x c (hsessions k x hx hf) hf hwriter (hfiles ▸ hc)
  reader k x b hx hf hreader hmapped hb :=
    h.reader k x b (hsessions k x hx hf) hf hreader hmapped (hsaved ▸ hb)

theorem unopened (hnone : ∀ k x, t.sessions k = some x → x.flops.file ≠ some f)
    (hsaved : ∀ b, t.saved f = some b → ∃ c, t.disk.files f = some c ∧ c.bytes = b) : KeptAt t f where
  there k x hx hf := absurd hf (hnone k x hx)
  alone j _ x _ _ hx _ hf _ := absurd hf (hnone j x hx)
  saved := hsaved
  writer k x _ hx hf := absurd hf (hnone k x hx)
  reader k x _ hx hf := absurd hf (hnone k x hx)

variable {info : OpenInfo} {n : FileName} {disk' : Disk}

theorem touched (h : KeptAt s n.bytes) (htouched : Disk.Touched info n s.disk disk')
    (hfree : ∀ k x, s.sessions k = some x → x.flops.file = some n.bytes → x.writer = false ∧ info.writes = false)
    (ht : t.disk = disk') (hsessions : t.sessions = s.sessions)
    (hsaved : t.saved n.bytes = if info.writes = true then none else s.saved n.bytes) : KeptAt t n.bytes := by
  by_cases hwrites : info.writes = true
  · apply unopened
    · intro k x hx hf
      rw [hsessions] at hx
      have := (hfree k x hx hf).2
      rw [hwrites] at this
      cases this
    · intro b hb
      rw [hsaved, if_pos hwrites] at hb
      cases hb
  · rw [if_neg hwrites] at hsaved
    rw [Bool.not_eq_true] at hwrites
    cases hc : s.disk.files n.bytes with
    | none =>
      apply unopened
      · intro k x hx hf
        rw [hsessions] at hx
        have := h.there k x hx hf
        rw [hc] at this
        cases this
      · intro b hb
        obtain ⟨c, hc', -⟩ := h.saved b (hsaved ▸ hb)
        rw [hc] at hc'
        cases hc'
    | some c =>
      apply h.frame
      · rw [ht, htouched.kept hwrites c hc, hc]
      · exact hsaved
      · intro k x hx _
        rwa [hsessions] at hx

theorem saves (h : KeptAt s f) {k : K} {x : Session} (hx : s.sessions k = some x) (hf : x.flops.file = some f)
    (hwriter : x.writer = true) {dataSz : ℕ} {b : List UInt8} (hb : x.saves dataSz = some b) :
    ∃ c, (s.disk.udoFileOpsDestroy x.flops dataSz).files f = some c ∧ c.bytes = b := by
  rw [Session.saves] at hb
  split_ifs at hb with hknown
  cases hb
  obtain ⟨hpos, hle⟩ := not_or.mp hknown
  obtain ⟨c, hc⟩ := Option.isSome_iff_exists.mp (h.there k x hx hf)
  obtain ⟨⟨rest, hrest⟩, -⟩ := h.writer k x c hx hf hwriter hc
  have hlength : dataSz ≤ c.bytes.length := by
    rw [← hrest, List.length_append]
    omega
  have hsize : dataSz < offMax := lt_of_le_of_lt hlength c.bounded
  refine ⟨c.resize dataSz hsize, ?_, ?_⟩
  · rw [Disk.udoFileOpsDestroy, if_neg hpos, Disk.ftruncate, dif_pos ⟨rfl, hsize⟩, hf, Option.getD_some]
    change Function.update s.disk.files f ((s.disk.files f).map fun c' => c'.resize dataSz hsize) f = _
    rw [Function.update_self, hc, Option.map_some]
  · have hzeros : dataSz - c.bytes.length = 0 := Nat.sub_eq_zero_of_le hlength
    change c.bytes.take dataSz ++ List.replicate (dataSz - c.bytes.length) 0 = x.written.take dataSz
    rw [hzeros, List.replicate_zero, List.append_nil, ← hrest, List.take_append_of_le_length (by omega)]

variable [DecidableEq K]

theorem made (h : KeptAt s n.bytes) {k : K} (hk : s.sessions k = none)
    (hoffset : info.writes = false → info.offset = 0) {disk : Disk} {m : Mapping}
    (hmade : Disk.Made info n disk s.disk m)
    (hfree : ∀ j x, s.sessions j = some x → x.flops.file = some n.bytes → x.writer = false ∧ info.writes = false)
    (hsaved : s.saved n.bytes ≠ none → info.writes = false ∧ s.disk.files n.bytes = disk.files n.bytes) :
    KeptAt { s with sessions := Function.update s.sessions k (some { flops := m, writer := info.writes }) }
      n.bytes := by
  have old {j : K} {x : Session} (hj : j ≠ k)
      (hx : Function.update s.sessions k (some { flops := m, writer := info.writes }) j = some x) :
      s.sessions j = some x := by
    rwa [Function.update_of_ne hj] at hx
  have new {x : Session}
      (hx : Function.update s.sessions k (some { flops := m, writer := info.writes }) k = some x) :
      x = { flops := m, writer := info.writes } := by
    rw [Function.update_self] at hx
    exact (Option.some.inj hx).symm
  constructor
  case there =>
    intro _ _ _ _
    exact hmade.there
  case alone =>
    intro i j x y hij hx hy hfx hfy
    by_cases hi : i = k
    · subst hi
      rw [new hx]
      exact (hfree j y (old (Ne.symm hij) hy) hfy).2
    · exact (hfree i x (old hi hx) hfx).1
  case saved => exact h.saved
  case writer =>
    intro j x c hx hf hwriter hc
    by_cases hj : j = k
    · subst hj
      rw [new hx] at hwriter ⊢
      refine ⟨List.nil_prefix, ?_⟩
      by_contra hne
      rw [(hsaved hne).1] at hwriter
      cases hwriter
    · exact h.writer j x c (old hj hx) hf hwriter hc
  case reader =>
    intro j x b hx hf hreader hmapped hb
    by_cases hj : j = k
    · subst hj
      rw [new hx] at hreader hmapped ⊢
      have hb' : s.saved n.bytes = some b := hb
      obtain ⟨c, hc, rfl⟩ := h.saved b hb'
      have hsame := (hsaved (by simp [hb'])).2
      exact ⟨(hmade.offset hmapped).trans (hoffset hreader), hmade.dataSz hmapped hreader c (hsame ▸ hc)⟩
    · exact h.reader j x b (old hj hx) hf hreader hmapped hb

theorem written (h : KeptAt s f) {k : K} {x : Session} (hx : s.sessions k = some x) (hf : x.flops.file = some f)
    (hwriter : x.writer = true) {c : Contents} (hc : s.disk.files f = some c) {bytes : List UInt8}
    (hsize : x.written.length + bytes.length < offMax)
    (hfiles : t.disk.files f = some (c.write x.written.length bytes hsize)) (hsaved : t.saved = s.saved)
    (hsessions : t.sessions = Function.update s.sessions k (some { x with written := x.written ++ bytes })) :
    KeptAt t f := by
  obtain ⟨ hprefix, hunsaved⟩ := h.writer k x c hx hf hwriter hc
  have only {j : K} {y : Session} (hy : t.sessions j = some y) (hfy : y.flops.file = some f) :
      j = k ∧ y = { x with written := x.written ++ bytes } := by
    rw [hsessions] at hy
    by_cases hj : j = k
    · subst hj
      rw [Function.update_self] at hy
      exact ⟨rfl, (Option.some.inj hy).symm⟩
    · rw [Function.update_of_ne hj] at hy
      have hreader := h.alone k j x y (Ne.symm hj) hx hy hf hfy
      rw [hwriter] at hreader
      cases hreader
  constructor
  case there =>
    intro _ _ _ _
    rw [hfiles]
    rfl
  case alone =>
    intro i j y z hij hy hz hfy hfz
    exact absurd ((only hy hfy).1.trans (only hz hfz).1.symm) hij
  case saved =>
    intro b hb
    rw [hsaved, hunsaved] at hb
    cases hb
  case writer =>
    intro j y c' hy hfy _ hc'
    obtain ⟨rfl, rfl⟩ := only hy hfy
    cases hfiles.symm.trans hc'
    exact ⟨prefix_overwrite hprefix, hsaved ▸ hunsaved⟩
  case reader =>
    intro j y b hy hfy hreader
    obtain ⟨rfl, rfl⟩ := only hy hfy
    cases hwriter.symm.trans hreader

end KeptAt

variable [DecidableEq K]

theorem forget_other {info : OpenInfo} {n : FileName} (hname : info.fname = some n) (hline : newline ∉ n.bytes)
    (hf : f ≠ n.bytes) (saved : List UInt8 → Option (List UInt8)) : forget saved info f = saved f := by
  rw [forget, hname]
  dsimp only
  split_ifs
  · rw [Function.update_of_ne (path_eq hline info ▸ hf)]
  · rfl

theorem forget_same {info : OpenInfo} {n : FileName} (hname : info.fname = some n) (hline : newline ∉ n.bytes)
    (saved : List UInt8 → Option (List UInt8)) :
    forget saved info n.bytes = if info.writes = true then none else saved n.bytes := by
  rw [forget, hname]
  dsimp only
  split_ifs
  · rw [path_eq hline, Function.update_self]
  · rfl

theorem kept_create {k : K} {info : OpenInfo} {v : Verdicts} (h : ∀ f, KeptAt s f)
    (hok : Proper (.create k info v) s) (hs : step (.create k info v) s = some t) (f : List UInt8) : KeptAt t f := by
  obtain ⟨hk, hoffset, n, hname, hline, hfree⟩ := hok
  rw [step] at hs
  cases hcreate : s.disk.udoFileOpsCreate (some info) v with
  | mk r disk =>
    rw [hcreate] at hs
    obtain ⟨htouched, hmade⟩ := Disk.create_spec hname hline hcreate
    -- the store once the create has failed, and before its context is added if it has not
    let u : Store K := { s with disk, saved := forget s.saved info }
    have hu (g : List UInt8) : KeptAt u g := by
      by_cases hg : g = n.bytes
      · subst hg
        exact (h n.bytes).touched htouched hfree rfl rfl (forget_same hname hline s.saved)
      · exact (h g).frame (htouched.others g hg) (forget_other hname hline hg s.saved) fun _ _ hx _ => hx
    cases r with
    | none =>
      cases hs
      exact hu f
    | some m =>
      cases hs
      have hm := hmade m rfl
      by_cases hf : f = n.bytes
      · subst hf
        apply (hu n.bytes).made hk hoffset hm hfree
        intro hsaved
        have hforget := forget_same hname hline s.saved
        change forget s.saved info n.bytes ≠ none at hsaved
        by_cases hwrites : info.writes = true
        · rw [hforget, if_pos hwrites] at hsaved
          exact absurd rfl hsaved
        · rw [hforget, if_neg hwrites] at hsaved
          rw [Bool.not_eq_true] at hwrites
          obtain ⟨b, hb⟩ := Option.ne_none_iff_exists'.mp hsaved
          obtain ⟨c, hc, -⟩ := (h n.bytes).saved b hb
          exact ⟨hwrites, (htouched.kept hwrites c hc).trans hc.symm⟩
      · refine (hu f).frame rfl rfl fun j x hx hfile => ?_
        by_cases hj : j = k
        · subst hj
          change Function.update s.sessions j _ j = some x at hx
          rw [Function.update_self] at hx
          cases hx
          rw [hm.file] at hfile
          exact absurd (Option.some.inj hfile).symm hf
        · change Function.update s.sessions k _ j = some x at hx
          rwa [Function.update_of_ne hj] at hx

theorem kept_write {k : K} {bytes : List UInt8} (h : ∀ f, KeptAt s f) (hok : Proper (.write k bytes) s)
    (hs : step (.write k bytes) s = some t) (f : List UInt8) : KeptAt t f := by
  simp only [step, Option.bind_eq_bind, Option.bind_eq_some_iff] at hs
  obtain ⟨x, hx, g, hg, c, hc, hs⟩ := hs
  split_ifs at hs with hsize
  cases hs
  by_cases hf : f = g
  · subst hf
    exact (h f).written hx hg (hok x hx) hc hsize (Function.update_self ..) rfl rfl
  · refine (h f).frame (Function.update_of_ne hf _ _) rfl fun j y hy hfy => ?_
    by_cases hj : j = k
    · subst hj
      change Function.update s.sessions j _ j = some y at hy
      rw [Function.update_self] at hy
      cases hy
      exact absurd (Option.some.inj (hfy.symm.trans hg)) hf
    · change Function.update s.sessions k _ j = some y at hy
      rwa [Function.update_of_ne hj] at hy

theorem kept_destroy {k : K} {dataSz : ℕ} (h : ∀ f, KeptAt s f) (hok : Proper (.destroy k dataSz) s)
    (hs : step (.destroy k dataSz) s = some t) (f : List UInt8) : KeptAt t f := by
  simp only [step, Option.bind_eq_bind, Option.bind_eq_some_iff] at hs
  obtain ⟨x, hx, g, hg, hs⟩ := hs
  cases hs
  have rest {j : K} {y : Session} (hy : Function.update s.sessions k none j = some y) :
      j ≠ k ∧ s.sessions j = some y := update_none_some hy
  by_cases hwriter : x.writer = true
  · by_cases hf : f = g
    · subst hf
      apply KeptAt.unopened
      · intro j y hy hfy
        obtain ⟨hj, hold⟩ := rest hy
        have hreader := (h f).alone k j x y (Ne.symm hj) hx hold hg hfy
        rw [hwriter] at hreader
        cases hreader
      · intro b hb
        change (if x.writer = true then _ else _ : List UInt8 → Option (List UInt8)) f = some b at hb
        rw [if_pos hwriter, Function.update_self] at hb
        exact (h f).saves hx hg hwriter hb
    · apply (h f).frame
      · change (s.disk.udoFileOpsDestroy x.flops dataSz).files f = s.disk.files f
        rw [Disk.udoFileOpsDestroy]
        split_ifs
        · rfl
        · rw [hg, Disk.ftruncate_other hf]
      · change (if x.writer = true then _ else _ : List UInt8 → Option (List UInt8)) f = _
        rw [if_pos hwriter, Function.update_of_ne hf]
      · exact fun _ _ hy _ => (rest hy).2
  · rw [Bool.not_eq_true] at hwriter
    have hzero := hok x hx hwriter
    apply (h f).frame
    · change (s.disk.udoFileOpsDestroy x.flops dataSz).files f = s.disk.files f
      rw [Disk.udoFileOpsDestroy, if_pos hzero]
    · change (if x.writer = true then _ else _ : List UInt8 → Option (List UInt8)) f = _
      rw [hwriter, if_neg (by simp)]
    · exact fun _ _ hy _ => (rest hy).2

theorem kept {s : Store K} (h : Reach (system K) Proper s) (f : List UInt8) : KeptAt s f := by
  induction h generalizing f with
  | init h =>
    obtain ⟨hsessions, hsaved⟩ := h
    apply KeptAt.unopened
    · intro k x hx
      rw [hsessions] at hx
      cases hx
    · intro b hb
      rw [hsaved] at hb
      exact Option.map_eq_some_iff.mp hb
  | @step s t l _ hok hs ih =>
    cases l with
    | create k info v => exact kept_create ih hok hs f
    | write k bytes => exact kept_write ih hok hs f
    | destroy k dataSz => exact kept_destroy ih hok hs f

theorem opens (k : K) (info : OpenInfo) {n : FileName} (hname : info.fname = some n) (hline : newline ∉ n.bytes)
    (hpipe : info.createPipe = false) (halign : udoByteAlign info.size udoPageSize < offMax) (s : Store K) :
    ∃ m disk, step (.create k info {}) s = some
        ⟨disk, Function.update s.sessions k (some { flops := m, writer := info.writes }), forget s.saved info⟩ ∧
      Disk.Touched info n s.disk disk ∧ Disk.Made info n s.disk disk m := by
  cases hcreate : s.disk.udoFileOpsCreate (some info) {} with
  | mk r disk =>
    obtain ⟨htouched, hmade⟩ := Disk.create_spec hname hline hcreate
    have hsome : r.isSome = true := by
      have hpasses : (s.disk.udoFileOpsCreate (some info) {}).1.isSome = true := Disk.create_isSome hname hpipe halign
      rwa [hcreate] at hpasses
    obtain ⟨m, rfl⟩ := Option.isSome_iff_exists.mp hsome
    exact ⟨m, disk, by rw [step, hcreate], htouched, hmade m rfl⟩

end Store

end Libcando.FileOps
