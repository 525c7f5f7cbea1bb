import Libcando.ByteMemory
import Libcando.Log
import Libcando.Tiling
import Libcando.Transition

namespace Libcando.Mm

open ByteMemory Tiling Transition

def sizeofSizeT : ℕ := 8

/-- `sizeof(struct udo_mm)`: the error context, then four `size_t`. -/
def sizeofMm : ℕ := 520 + 4 * sizeofSizeT

structure UdoMm where
  err : Option LogError
  buffSz : ℕ
  dataSz : ℕ
  abSz : ℕ
  offset : ℕ
  deriving DecidableEq

/-- Addresses are relative to the context; its own first `sizeofMm` bytes are the fields above. -/
def privNewVirtualMemoryMapping (mapped : Bool) (mm : Option (UdoMm × Mem)) (size : ℕ) : Option (UdoMm × Mem) :=
  let newDataSz := match mm with
    | some (mm, _) => (mm.buffSz + size) % sizeMax
    | none => (sizeofMm + size) % sizeMax
  if mapped = false ∨ newDataSz = 0 then none
  else
    let avail := (newDataSz + sizeMax - sizeofMm) % sizeMax
    match mm with
    | some (mm, m) =>
      some (⟨mm.err, newDataSz, avail, avail, sizeofMm⟩, fun a => if a < mm.buffSz then m a else 0)
    | none => some (⟨none, newDataSz, avail, avail, sizeofMm⟩, fun _ => 0)

def udoMmAlloc (mapped : Bool) (mm : Option (UdoMm × Mem)) (size : ℕ) : Option (UdoMm × Mem) :=
  match mm with
  | none => privNewVirtualMemoryMapping mapped none size
  | some (mm, m) =>
    if mm.dataSz ≤ size then privNewVirtualMemoryMapping mapped (some (mm, m)) size else some (mm, m)

def udoMmSubAlloc (mm : UdoMm) (m : Mem) (size : ℕ) : Option ℕ × UdoMm × Mem :=
  let size := (size + sizeofSizeT) % sizeMax
  if mm.abSz ≤ size then
    (none, { mm with err := some ⟨udoLogErrUncommon,
      s!"Cannot allocate {size} bytes only {mm.abSz} bytes left."⟩ }, m)
  else
    (some (mm.offset + sizeofSizeT),
      { mm with abSz := mm.abSz - size, offset := (mm.offset + size) % sizeMax },
      store m mm.offset sizeofSizeT size)

def udoMmSubAllocGetSize (m : Mem) (data : Option ℕ) : ℕ :=
  match data with
  | none => sizeMax - 1
  | some data => (load m (data - sizeofSizeT) sizeofSizeT + sizeMax - sizeofSizeT) % sizeMax

def udoMmFree (mm : UdoMm) (m : Mem) (data : ℕ) : UdoMm × Mem :=
  let pData := data - sizeofSizeT
  let dataSz := load m pData sizeofSizeT
  let m := fill m pData 0 dataSz
  let mvData := pData + dataSz
  -- measured from the freed block, not from what lies behind it
  let copySz := (mm.offset + sizeMax - pData) % sizeMax
  let m := move m pData mvData copySz
  let mm := { mm with
    abSz := (mm.abSz + dataSz) % sizeMax
    offset := (mm.offset + sizeMax - dataSz) % sizeMax }
  (mm, fill m mvData 0 ((mm.dataSz + sizeMax - mm.abSz) % sizeMax))

theorem udoMmFree_fields {mm : UdoMm} {m : Mem} {data size : ℕ}
    (h : load m (data - sizeofSizeT) sizeofSizeT = size) :
    (udoMmFree mm m data).1 = { mm with
      abSz := (mm.abSz + size) % sizeMax, offset := (mm.offset + sizeMax - size) % sizeMax } := by
  simp only [udoMmFree, h]

/-- `live` is history: the blocks handed out and not freed, with their headers. -/
structure Arena where
  mm : UdoMm
  mem : Mem
  live : List Block

inductive Act
  | alloc (mapped : Bool) (size : ℕ)
  | subAlloc (size : ℕ)
  | free (data : ℕ)
  | write (b : Block) (i : ℕ) (v : UInt8)

namespace Arena

def payload (b : Block) : ℕ := b.pos + sizeofSizeT

def step (l : Act) (s : Arena) : Option Arena :=
  match l with
  | .alloc mapped size =>
    match udoMmAlloc mapped (some (s.mm, s.mem)) size with
    | some (mm, mem) => some { s with mm, mem }
    | none => some s
  | .subAlloc size =>
    match udoMmSubAlloc s.mm s.mem size with
    | (some data, mm, mem) =>
      some ⟨mm, mem, s.live ++ [⟨data - sizeofSizeT, size + sizeofSizeT⟩]⟩
    | (none, mm, mem) => some { s with mm, mem }
  | .free data =>
    (s.live.find? fun b => payload b = data).map fun b =>
      ⟨(udoMmFree s.mm s.mem data).1, (udoMmFree s.mm s.mem data).2, release b.pos b.size s.live⟩
  | .write b i v =>
    if b ∈ s.live ∧ payload b + i < b.stop then
      some { s with mem := Function.update s.mem (payload b + i) v }
    else none

def system (n : ℕ) : System Arena Act where
  init s := udoMmAlloc true none n = some (s.mm, s.mem) ∧ s.live = []
  step := step

end Arena

end Libcando.Mm
