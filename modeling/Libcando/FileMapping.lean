import Libcando.FileOps
import Libcando.PathBuffer

namespace Libcando.FileOps

open CStrings Jpool

def offMax : ℕ := 2 ^ 63

structure Contents where
  bytes : List UInt8
  bounded : bytes.length < offMax

def Contents.empty : Contents := ⟨[], by decide⟩

def Contents.resize (c : Contents) (size : ℕ) (h : size < offMax) : Contents :=
  ⟨c.bytes.take size ++ List.replicate (size - c.bytes.length) 0, by simp; omega⟩

structure FileName where
  bytes : List UInt8
  after : List UInt8 := []
  no_nul : 0 ∉ bytes
  fits : bytes.length < udoFilePathMax

structure OpenInfo where
  fname : Option FileName
  size : ℕ
  offset : ℕ
  createPipe : Bool := false
  createDir : Bool := false
  protect : Bool := false

/-- The name that the file is opened by. A newline ends it. -/
def OpenInfo.path (info : OpenInfo) (n : FileName) : List UInt8 :=
  cString (openBuffer n.bytes n.after info.createDir)

structure Verdicts where
  calloc : Bool := true
  opened : Bool := true
  piped : Bool := true
  truncated : Bool := true
  mapped : Bool := true

structure Disk where
  files : List UInt8 → Option Contents
  stdin : Option (List UInt8) := none

structure Mapping where
  file : Option (List UInt8)
  allocSz : ℕ := 0
  dataSz : ℕ := 0
  offset : ℕ := 0
  mapped : Bool := false
  writable : Bool := false

namespace Disk

def ftruncate (file : Option (List UInt8)) (size : ℕ) (truncated : Bool) (disk : Disk) : Option Disk :=
  if h : truncated = true ∧ size < offMax then
    match file with
    | none => some disk
    | some f =>
      some { disk with files := Function.update disk.files f ((disk.files f).map fun c => c.resize size h.2) }
  else none

def udoFileOpsDestroy (flops : Mapping) (dataSz : ℕ) (disk : Disk) : Disk :=
  if dataSz = 0 then disk else (disk.ftruncate flops.file dataSz true).getD disk

def sizes (info : OpenInfo) (st : Option Contents) : ℕ × ℕ :=
  match st with
  | some c => if info.size = 0 then (c.bytes.length, c.bytes.length) else (info.size, 0)
  | none => (info.size, 0)

def openFile (info : OpenInfo) (opened : Bool) (disk : Disk) : Option (Mapping × Disk) :=
  match info.fname with
  | none => some ({ file := disk.stdin }, disk)
  | some n =>
    if opened then
      let (allocSz, dataSz) := sizes info (disk.files n.bytes)
      let found := (disk.files (info.path n)).getD .empty
      some ({ file := some (info.path n), allocSz := udoByteAlign allocSz udoPageSize, dataSz },
        { disk with files := Function.update disk.files (info.path n) (some found) })
    else none

def mmap (info : OpenInfo) (mapped : Bool) (flops : Mapping) (disk : Disk) : Option Mapping × Disk :=
  if mapped = false ∧ flops.allocSz ≠ 0 then (none, disk.udoFileOpsDestroy flops 0)
  else (some { flops with offset := info.offset, mapped := true, writable := !info.protect }, disk)

def mapFile (info : OpenInfo) (v : Verdicts) (flops : Mapping) (disk : Disk) : Option Mapping × Disk :=
  match (if flops.dataSz = 0 then disk.ftruncate flops.file flops.allocSz v.truncated else some disk) with
  | none => (none, disk.udoFileOpsDestroy flops 0)
  | some disk => disk.mmap info v.mapped flops

def udoFileOpsCreate (info : Option OpenInfo) (v : Verdicts) (disk : Disk) : Option Mapping × Disk :=
  match info with
  | none => (none, disk)
  | some info =>
    if v.calloc = false then (none, disk)
    else match disk.openFile info v.opened with
      | none => (none, disk.udoFileOpsDestroy { file := none } 0)
      | some (flops, disk) =>
        if info.createPipe then
          if v.piped then (some flops, disk) else (none, disk.udoFileOpsDestroy flops 0)
        else disk.mapFile info v flops

end Disk

def udoFileOpsGetData (flops : Mapping) (offset : ℕ) : Option ℕ :=
  if flops.mapped = false ∨ flops.dataSz ≤ offset then none else some offset

def Mapping.Backed (flops : Mapping) (disk : Disk) (o : ℕ) : Prop :=
  o < flops.allocSz ∧ ∃ f c, flops.file = some f ∧ disk.files f = some c ∧ flops.offset + o < c.bytes.length

structure Mapping.InFile (flops : Mapping) (disk : Disk) : Prop where
  data : ∀ offset o, udoFileOpsGetData flops offset = some o → flops.Backed disk o
  lines : flops.mapped = true → ∀ o < flops.dataSz, flops.Backed disk o

def OpenInfo.Reports (info : OpenInfo) (disk : Disk) : Prop :=
  ∀ n c, info.fname = some n → disk.files n.bytes = some c → info.size = 0 → c.bytes ≠ [] →
    ∃ c', disk.files (info.path n) = some c' ∧ info.offset + c.bytes.length ≤ c'.bytes.length

def OpenInfo.Spares (info : OpenInfo) (v : Verdicts) (n : FileName) (c : Contents) : Prop :=
  v.calloc = true → v.opened = true → info.createPipe = false → v.truncated = true → info.size ≠ 0 →
    info.path n = n.bytes → c.bytes.length ≤ udoByteAlign info.size udoPageSize

def OpenInfo.descriptorView (info : OpenInfo) : CreateInfo where
  fname := info.fname.map fun n => String.ofList (n.bytes.map fun b => Char.ofNat b.toNat)
  size := info.size
  createPipe := info.createPipe

def Verdicts.answers (v : Verdicts) (info : OpenInfo) (disk : Disk) : Answers where
  calloc := v.calloc
  stat := info.fname.bind fun n => (disk.files n.bytes).map (·.bytes.length)
  opened := v.opened
  piped := v.piped
  truncated := v.truncated ∧ (info.fname = none ∨ udoByteAlign info.size udoPageSize < offMax)
  mapped := v.mapped

section

variable {info : OpenInfo} {v : Verdicts} {disk disk' : Disk} {flops : Mapping} {n : FileName} {c : Contents}

theorem udoFileOpsGetData_some {offset o : ℕ} (h : udoFileOpsGetData flops offset = some o) :
    flops.mapped = true ∧ o < flops.dataSz := by
  rw [udoFileOpsGetData] at h
  split_ifs at h with hbad
  cases h
  rw [not_or, Bool.not_eq_false, not_le] at hbad
  exact hbad

theorem inFile_iff : flops.InFile disk ↔ (flops.mapped = true → ∀ o < flops.dataSz, flops.Backed disk o) := by
  refine ⟨fun h => h.lines, fun h => ⟨?_, h⟩⟩
  intro offset o hdata
  obtain ⟨hmapped, ho⟩ := udoFileOpsGetData_some hdata
  exact h hmapped o ho

theorem le_udoByteAlign {k : ℕ} (hk : k < offMax) : k ≤ udoByteAlign k udoPageSize := by
  rw [offMax] at hk
  rw [udoByteAlign, sizeMax, show udoPageSize = 4096 from rfl]
  omega

theorem path_eq (hline : newline ∉ n.bytes) (info : OpenInfo) : info.path n = n.bytes := by
  obtain ⟨t, ht⟩ := copyName_eq hline n.fits n.after
  rw [OpenInfo.path, openBuffer_eq, ht, cString_append_zero n.no_nul]

theorem reports_iff (hline : newline ∉ n.bytes) (hname : info.fname = some n) (hc : disk.files n.bytes = some c) :
    info.Reports disk ↔ info.size ≠ 0 ∨ c.bytes = [] ∨ info.offset = 0 := by
  constructor
  · intro h
    by_cases hsize : info.size = 0
    · by_cases hempty : c.bytes = []
      · exact .inr (.inl hempty)
      · obtain ⟨c', hc', hle⟩ := h n c hname hc hsize hempty
        rw [path_eq hline, hc] at hc'
        cases hc'
        exact .inr (.inr (by omega))
    · exact .inl hsize
  · intro h m d hm hd hsize hempty
    rw [hname] at hm
    cases hm
    rw [hc] at hd
    cases hd
    refine ⟨c, by rw [path_eq hline, hc], ?_⟩
    rcases h with h | h | h
    · exact absurd hsize h
    · exact absurd h hempty
    · omega

theorem dataSz_ne_zero_iff {st : Option Contents} :
    (Disk.sizes info st).2 ≠ 0 ↔ ∃ c, st = some c ∧ info.size = 0 ∧ c.bytes ≠ [] := by
  cases st with
  | none => simp [Disk.sizes]
  | some c => by_cases hsize : info.size = 0 <;> simp [Disk.sizes, hsize]

theorem sizes_existing (hsize : info.size = 0) (c : Contents) :
    Disk.sizes info (some c) = (c.bytes.length, c.bytes.length) := by
  simp [Disk.sizes, hsize]

namespace Disk

structure Opened (info : OpenInfo) (n : FileName) (disk : Disk) (flops : Mapping) (disk' : Disk) : Prop where
  file : flops.file = some (info.path n)
  allocSz : flops.allocSz = udoByteAlign (sizes info (disk.files n.bytes)).1 udoPageSize
  dataSz : flops.dataSz = (sizes info (disk.files n.bytes)).2
  files : disk'.files = Function.update disk.files (info.path n) (some ((disk.files (info.path n)).getD .empty))

theorem openFile_cases {opened : Bool} (h : disk.openFile info opened = some (flops, disk')) :
    info.fname = none ∧ flops.dataSz = 0 ∨
      ∃ n, info.fname = some n ∧ opened = true ∧ Opened info n disk flops disk' := by
  unfold openFile at h
  cases hname : info.fname with
  | none =>
    rw [hname] at h
    cases h
    exact .inl ⟨rfl, rfl⟩
  | some n =>
    rw [hname] at h
    cases opened with
    | false => cases h
    | true =>
      cases h
      exact .inr ⟨n, rfl, rfl, rfl, rfl, rfl, rfl⟩

structure MadeMapping (info : OpenInfo) (flops m : Mapping) : Prop where
  file : m.file = flops.file
  allocSz : m.allocSz = flops.allocSz
  dataSz : m.dataSz = flops.dataSz
  offset : m.offset = info.offset
  mapped : m.mapped = true

theorem mmap_some {m : Mapping} {mapped : Bool} (h : disk.mmap info mapped flops = (some m, disk')) :
    MadeMapping info flops m ∧ disk' = disk := by
  rw [mmap] at h
  split_ifs at h
  · cases h
  · cases h
    exact ⟨⟨rfl, rfl, rfl, rfl, rfl⟩, rfl⟩

theorem mmap_disk {mapped : Bool} : (disk.mmap info mapped flops).2 = disk := by
  rw [mmap]
  split_ifs <;> rfl

theorem mapFile_some {m : Mapping} (h : disk.mapFile info v flops = (some m, disk')) :
    MadeMapping info flops m ∧ (flops.dataSz ≠ 0 → disk' = disk) := by
  rw [mapFile] at h
  by_cases hzero : flops.dataSz = 0
  · rw [if_pos hzero] at h
    cases hcut : disk.ftruncate flops.file flops.allocSz v.truncated with
    | none =>
      rw [hcut] at h
      cases h
    | some disk₁ =>
      rw [hcut] at h
      exact ⟨(mmap_some h).1, fun hne => absurd hzero hne⟩
  · rw [if_neg hzero] at h
    exact ⟨(mmap_some h).1, fun _ => (mmap_some h).2⟩

theorem udoFileOpsCreate_some {m : Mapping} (hpipe : info.createPipe = false)
    (h : disk.udoFileOpsCreate (some info) v = (some m, disk')) :
    ∃ flops disk₁, disk.openFile info v.opened = some (flops, disk₁) ∧
      disk₁.mapFile info v flops = (some m, disk') := by
  simp only [udoFileOpsCreate, hpipe, Bool.false_eq_true, if_false] at h
  by_cases hcalloc : v.calloc = false
  · rw [if_pos hcalloc] at h
    cases h
  · rw [if_neg hcalloc] at h
    cases hopen : disk.openFile info v.opened with
    | none =>
      rw [hopen] at h
      cases h
    | some p =>
      rw [hopen] at h
      exact ⟨p.1, p.2, rfl, h⟩

theorem reports_of_unreported (h : ∀ n, info.fname = some n → (sizes info (disk.files n.bytes)).2 = 0) :
    info.Reports disk := by
  intro n c hn hc hsize hempty
  exact absurd (h n hn) (dataSz_ne_zero_iff.mpr ⟨c, hc, hsize, hempty⟩)

theorem reported_in_file_iff {m : Mapping} (hpipe : info.createPipe = false)
    (h : disk.udoFileOpsCreate (some info) v = (some m, disk')) : m.InFile disk' ↔ info.Reports disk := by
  obtain ⟨flops, disk₁, hopen, hmap⟩ := udoFileOpsCreate_some hpipe h
  obtain ⟨hmade, hsame⟩ := mapFile_some hmap
  by_cases hzero : flops.dataSz = 0
  · have hnone : m.InFile disk' := by
      rw [inFile_iff]
      intro _ o ho
      rw [hmade.dataSz, hzero] at ho
      exact absurd ho (Nat.not_lt_zero o)
    have hreports : info.Reports disk := by
      apply reports_of_unreported
      intro n hn
      obtain ⟨hname, -⟩ | ⟨n', hname, -, hopened⟩ := openFile_cases hopen
      · rw [hn] at hname
        cases hname
      · rw [hn] at hname
        cases hname
        rw [← hopened.dataSz, hzero]
    exact iff_of_true hnone hreports
  · obtain ⟨-, hz⟩ | ⟨n, hname, -, hopened⟩ := openFile_cases hopen
    · exact absurd hz hzero
    have hdata := hopened.dataSz
    obtain ⟨c, hc, hsize, hempty⟩ := dataSz_ne_zero_iff.mp (hdata ▸ hzero)
    have hfile : m.file = some (info.path n) := hmade.file.trans hopened.file
    have hfound : disk₁.files (info.path n) = some ((disk.files (info.path n)).getD .empty) := by
      rw [hopened.files, Function.update_self]
    have halloc : m.allocSz = udoByteAlign c.bytes.length udoPageSize := by
      rw [hmade.allocSz, hopened.allocSz, hc, sizes_existing hsize]
    have hreported : m.dataSz = c.bytes.length := by
      rw [hmade.dataSz, hdata, hc, sizes_existing hsize]
    have hpos := List.length_pos_iff.mpr hempty
    rw [hsame hzero, inFile_iff]
    constructor
    · intro hin n' c' hn' hc' _ _
      rw [hname] at hn'
      cases hn'
      rw [hc] at hc'
      cases hc'
      obtain ⟨-, f, g, hf, hg, hlt⟩ := hin hmade.mapped (c.bytes.length - 1) (by omega)
      rw [hfile] at hf
      cases hf
      rw [hfound] at hg
      cases hg
      cases hold : disk.files (info.path n) with
      | none =>
        rw [hold] at hlt
        exact absurd hlt (Nat.not_lt_zero _)
      | some g =>
        rw [hold, hmade.offset] at hlt
        exact ⟨g, rfl, by dsimp only [Option.getD_some] at hlt; omega⟩
    · intro hreports _ o ho
      obtain ⟨g, hg, hle⟩ := hreports n c hname hc hsize hempty
      have halign := le_udoByteAlign c.bounded
      rw [hg] at hfound
      exact ⟨by omega, info.path n, g, hfile, hfound, by rw [hmade.offset]; omega⟩

theorem reported_in_file_iff_plain : ∃ (info : OpenInfo) (disk disk' : Disk) (m : Mapping),
    disk.udoFileOpsCreate (some info) {} = (some m, disk') ∧ m.dataSz = 1 ∧
      (m.InFile disk' ↔ info.Reports disk) :=
  ⟨⟨some ⟨[97], [], by decide, by decide⟩, 0, 0, false, false, false⟩, ⟨fun _ => some ⟨[65], by decide⟩, none⟩, _, _,
    rfl, rfl, reported_in_file_iff (v := {}) rfl rfl⟩

theorem reported_past_file : ¬∀ (info : OpenInfo) (v : Verdicts) (disk disk' : Disk) (m : Mapping),
    info.createPipe = false → disk.udoFileOpsCreate (some info) v = (some m, disk') → m.InFile disk' := by
  intro reported
  have hin := reported ⟨some ⟨[97], [], by decide, by decide⟩, 0, 4096, false, false, false⟩ {}
    ⟨fun _ => some ⟨[65], by decide⟩, none⟩ _ _ rfl rfl
  obtain ⟨-, f, c, hf, hc, hlt⟩ := hin.data 0 0 rfl
  cases hf
  dsimp only at hc
  rw [Function.update_self] at hc
  cases hc
  exact absurd hlt (by decide)

def openClose (info : Option OpenInfo) (v : Verdicts) (disk : Disk) : Disk :=
  match disk.udoFileOpsCreate info v with
  | (some flops, disk) => disk.udoFileOpsDestroy flops 0
  | (none, disk) => disk

def Keeps (n : FileName) (c : Contents) (disk : Disk) : Prop :=
  ∃ c' k, disk.files n.bytes = some c' ∧ c'.bytes = c.bytes ++ List.replicate k 0

theorem keeps_of_same (hc : disk.files n.bytes = some c) : Keeps n c disk := ⟨c, 0, hc, by simp⟩

theorem openClose_eq (info : Option OpenInfo) (v : Verdicts) (disk : Disk) :
    disk.openClose info v = (disk.udoFileOpsCreate info v).2 := by
  rw [openClose]
  cases disk.udoFileOpsCreate info v with
  | mk flops disk' => cases flops <;> rfl

theorem mapFile_disk : (disk.mapFile info v flops).2 =
    if flops.dataSz = 0 then (disk.ftruncate flops.file flops.allocSz v.truncated).getD disk else disk := by
  rw [mapFile]
  by_cases hzero : flops.dataSz = 0
  · rw [if_pos hzero, if_pos hzero]
    cases disk.ftruncate flops.file flops.allocSz v.truncated with
    | none => rfl
    | some disk₁ => exact mmap_disk
  · rw [if_neg hzero, if_neg hzero]
    exact mmap_disk

theorem keeps_resize {size : ℕ} (h : size < offMax) :
    (∃ k, (c.resize size h).bytes = c.bytes ++ List.replicate k 0) ↔ c.bytes.length ≤ size := by
  constructor
  · rintro ⟨k, hk⟩
    have hlen := congrArg List.length hk
    simp [Contents.resize] at hlen
    omega
  · intro hle
    refine ⟨size - c.bytes.length, ?_⟩
    change c.bytes.take size ++ _ = _
    rw [List.take_of_length_le hle]

theorem Opened.keeps (h : Opened info n disk flops disk') (hc : disk.files n.bytes = some c) :
    disk'.files n.bytes = some c := by
  rw [h.files]
  by_cases hpath : n.bytes = info.path n
  · rw [← hpath, Function.update_self, hc, Option.getD_some]
  · rw [Function.update_of_ne hpath, hc]

theorem ftruncate_spares {size : ℕ} {truncated : Bool} {f : List UInt8} (hc : disk.files n.bytes = some c) :
    Keeps n c ((disk.ftruncate (some f) size truncated).getD disk) ↔
      (truncated = true → f = n.bytes → c.bytes.length ≤ size) := by
  rw [ftruncate]
  by_cases h : truncated = true ∧ size < offMax
  · rw [dif_pos h, Option.getD_some]
    by_cases hf : f = n.bytes
    · subst hf
      simp only [Keeps, Function.update_self, hc, Option.map_some, Option.some.injEq, exists_and_left,
        exists_eq_left', h.1, true_imp_iff, keeps_resize h.2]
    · refine iff_of_true (keeps_of_same ?_) fun _ heq => absurd heq hf
      simp only [Function.update_of_ne (Ne.symm hf), hc]
  · rw [dif_neg h, Option.getD_none]
    refine iff_of_true (keeps_of_same hc) fun ht _ => ?_
    have hbounded := c.bounded
    have hsize : ¬size < offMax := fun hlt => h ⟨ht, hlt⟩
    omega

theorem openFile_named (disk : Disk) (hname : info.fname = some n) :
    ∃ flops disk', disk.openFile info true = some (flops, disk') ∧ Opened info n disk flops disk' := by
  cases hopen : disk.openFile info true with
  | none =>
    rw [openFile, hname] at hopen
    cases hopen
  | some p =>
    obtain ⟨hnone, -⟩ | ⟨m, hm, -, hmade⟩ := openFile_cases hopen
    · rw [hname] at hnone
      cases hnone
    · rw [hname] at hm
      cases hm
      exact ⟨p.1, p.2, rfl, hmade⟩

theorem mapFile_spares (h : Opened info n disk flops disk') (hc : disk.files n.bytes = some c) :
    Keeps n c (disk'.mapFile info v flops).2 ↔
      (v.truncated = true → info.size ≠ 0 → info.path n = n.bytes →
        c.bytes.length ≤ udoByteAlign info.size udoPageSize) := by
  have hc' := h.keeps hc
  have hdata := h.dataSz
  have halloc := h.allocSz
  rw [hc] at hdata halloc
  rw [mapFile_disk]
  by_cases hsize : info.size = 0
  · rw [sizes_existing hsize] at hdata halloc
    refine iff_of_true ?_ fun _ hne => absurd hsize hne
    split_ifs with hzero
    · rw [h.file]
      refine (ftruncate_spares hc').mpr fun _ _ => ?_
      omega
    · exact keeps_of_same hc'
  · have hsizes : sizes info (some c) = (info.size, 0) := by simp [sizes, hsize]
    rw [hsizes] at hdata halloc
    rw [if_pos hdata, h.file, ftruncate_spares hc', halloc]
    exact ⟨fun hk ht _ => hk ht, fun hk ht => hk ht hsize⟩

theorem openClose_mapped (disk : Disk) (hname : info.fname = some n) (hcalloc : v.calloc = true)
    (hopened : v.opened = true) (hpipe : info.createPipe = false) :
    ∃ flops disk', Opened info n disk flops disk' ∧
      disk.openClose (some info) v = (disk'.mapFile info v flops).2 := by
  obtain ⟨flops, disk', hopen, hmade⟩ := openFile_named disk hname
  refine ⟨flops, disk', hmade, ?_⟩
  rw [openClose_eq]
  simp only [udoFileOpsCreate, hcalloc, hopened, hpipe, hopen, Bool.true_eq_false, Bool.false_eq_true, if_false]

theorem openClose_unmapped (hname : info.fname = some n) (hc : disk.files n.bytes = some c)
    (h : v.calloc = false ∨ v.opened = false ∨ info.createPipe = true) :
    Keeps n c (disk.openClose (some info) v) := by
  rw [openClose_eq]
  simp only [udoFileOpsCreate]
  by_cases hcalloc : v.calloc = false
  · rw [if_pos hcalloc]
    exact keeps_of_same hc
  rw [if_neg hcalloc]
  cases hopen : disk.openFile info v.opened with
  | none => exact keeps_of_same hc
  | some p =>
    obtain ⟨hnone, -⟩ | ⟨m, hm, hopened, hmade⟩ := openFile_cases hopen
    · rw [hname] at hnone
      cases hnone
    rw [hname] at hm
    cases hm
    have hpipe : info.createPipe = true := by
      rcases h with h | h | h
      · exact absurd h hcalloc
      · rw [hopened] at h
        cases h
      · exact h
    dsimp only
    rw [if_pos hpipe]
    split_ifs <;> exact keeps_of_same (hmade.keeps hc)

theorem contents_kept_iff (hname : info.fname = some n) (hc : disk.files n.bytes = some c) :
    Keeps n c (disk.openClose (some info) v) ↔ info.Spares v n c := by
  by_cases h : v.calloc = false ∨ v.opened = false ∨ info.createPipe = true
  · refine iff_of_true (openClose_unmapped hname hc h) fun hcalloc hopened hpipe => ?_
    simp [hcalloc, hopened, hpipe] at h
  · simp only [not_or, Bool.not_eq_true, Bool.not_eq_false] at h
    obtain ⟨flops, disk', hmade, hsame⟩ := openClose_mapped disk hname h.1 h.2.1 h.2.2
    rw [hsame, mapFile_spares hmade hc]
    exact ⟨fun hk _ _ _ => hk, fun hk => hk h.1 h.2.1 h.2.2⟩

theorem contents_kept_iff_whole : ∃ (info : OpenInfo) (n : FileName) (c : Contents) (disk : Disk),
    info.size = 1 ∧ (Keeps n c (disk.openClose (some info) {}) ↔ info.Spares {} n c) :=
  ⟨⟨some ⟨[97], [], by decide, by decide⟩, 1, 0, false, false, false⟩, ⟨[97], [], by decide, by decide⟩,
    ⟨[65], by decide⟩, ⟨fun _ => some ⟨[65], by decide⟩, none⟩, rfl, contents_kept_iff rfl rfl⟩

theorem contents_cut : ¬∀ (info : OpenInfo) (v : Verdicts) (disk : Disk) (n : FileName) (c : Contents),
    info.fname = some n → disk.files n.bytes = some c → Keeps n c (disk.openClose (some info) v) := by
  intro kept
  let n : FileName := ⟨[97], [], by decide, by decide⟩
  let info : OpenInfo := ⟨some n, 1, 0, false, false, false⟩
  let c : Contents := ⟨List.replicate 4097 65, by rw [List.length_replicate]; decide⟩
  let disk : Disk := ⟨fun _ => some c, none⟩
  have hkept := kept info {} disk n c rfl rfl
  obtain ⟨flops, disk', hmade, hsame⟩ := openClose_mapped (v := {}) disk (show info.fname = some n from rfl)
    rfl rfl rfl
  rw [hsame, mapFile_spares hmade (c := c) rfl] at hkept
  have hle := hkept rfl (by decide) (path_eq (n := n) (by decide) info)
  rw [List.length_replicate] at hle
  revert hle
  decide

theorem sizes_descriptorView (disk : Disk) (v : Verdicts) (hname : info.fname = some n) :
    info.descriptorView.sizes (v.answers info disk) =
      (udoByteAlign (sizes info (disk.files n.bytes)).1 udoPageSize, (sizes info (disk.files n.bytes)).2) := by
  cases hst : disk.files n.bytes with
  | none => simp [CreateInfo.sizes, OpenInfo.descriptorView, Verdicts.answers, sizes, hname, hst]
  | some c =>
    by_cases hsize : info.size = 0 <;>
      simp [CreateInfo.sizes, OpenInfo.descriptorView, Verdicts.answers, sizes, hname, hst, hsize]

theorem allocSz_of_unreported (st : Option Contents) (h : (sizes info st).2 = 0) :
    udoByteAlign (sizes info st).1 udoPageSize = udoByteAlign info.size udoPageSize := by
  cases st with
  | none => rfl
  | some c =>
    by_cases hsize : info.size = 0
    · rw [sizes_existing hsize] at h ⊢
      dsimp only at h ⊢
      rw [hsize, h]
    · simp [sizes, hsize]

theorem ftruncate_isSome (disk : Disk) (file : Option (List UInt8)) (size : ℕ) (truncated : Bool) :
    (disk.ftruncate file size truncated).isSome = true ↔ truncated = true ∧ size < offMax := by
  rw [ftruncate]
  split_ifs with h
  · cases file <;> simpa using h
  · simpa using h

theorem mapFile_isSome : (disk.mapFile info v flops).1.isSome = true ↔
    (flops.dataSz = 0 → v.truncated = true ∧ flops.allocSz < offMax) ∧ (v.mapped = true ∨ flops.allocSz = 0) := by
  have hmap (disk : Disk) : (disk.mmap info v.mapped flops).1.isSome = true ↔ v.mapped = true ∨ flops.allocSz = 0 := by
    rw [mmap]
    split_ifs with h
    · simp [h]
    · cases hv : v.mapped <;> simp_all
  rw [mapFile]
  by_cases hzero : flops.dataSz = 0
  · rw [if_pos hzero, ← ftruncate_isSome disk flops.file]
    cases disk.ftruncate flops.file flops.allocSz v.truncated with
    | none => simp [hzero]
    | some disk => simp [hzero, hmap]
  · rw [if_neg hzero]
    simp [hzero, hmap]

theorem creates_iff_passes (hcalloc : v.calloc = true) :
    (disk.udoFileOpsCreate (some info) v).1.isSome = true ↔ info.descriptorView.Passes (v.answers info disk) := by
  simp only [udoFileOpsCreate, hcalloc, Bool.true_eq_false, if_false]
  cases hname : info.fname with
  | none =>
    have hopen : disk.openFile info v.opened = some ({ file := disk.stdin }, disk) := by rw [openFile, hname]
    have hview : info.descriptorView.sizes (v.answers info disk) = (0, 0) := by
      simp [CreateInfo.sizes, OpenInfo.descriptorView, hname]
    rw [hopen, CreateInfo.Passes, hview]
    cases hpipe : info.createPipe with
    | true => cases hp : v.piped <;> simp [OpenInfo.descriptorView, Verdicts.answers, hname, hpipe, hp]
    | false => simp [OpenInfo.descriptorView, Verdicts.answers, hname, hpipe, mapFile_isSome, offMax]
  | some n =>
    cases hopened : v.opened with
    | false =>
      have hopen : disk.openFile info false = none := by simp [openFile, hname]
      rw [hopen]
      simp [CreateInfo.Passes, OpenInfo.descriptorView, Verdicts.answers, hname, hopened]
    | true =>
      obtain ⟨flops, disk', hopen, hmade⟩ := openFile_named disk hname
      have hview := sizes_descriptorView disk v hname
      rw [← hmade.allocSz, ← hmade.dataSz] at hview
      rw [hopen, CreateInfo.Passes, hview]
      cases hpipe : info.createPipe with
      | true => cases hp : v.piped <;> simp [OpenInfo.descriptorView, Verdicts.answers, hname, hopened, hpipe, hp]
      | false =>
        have hcut : (flops.dataSz = 0 → v.truncated = true ∧ flops.allocSz < offMax) ↔
            (flops.dataSz = 0 → v.truncated = true ∧ udoByteAlign info.size udoPageSize < offMax) := by
          apply forall_congr'
          intro hzero
          rw [hmade.allocSz, allocSz_of_unreported]
          rw [← hmade.dataSz, hzero]
        simp [OpenInfo.descriptorView, Verdicts.answers, hname, hopened, hpipe, mapFile_isSome, hcut]

end Disk

end

end Libcando.FileOps
