import Libcando.DescriptorTable
import Libcando.JobPoolLayout
import Libcando.Transition

namespace Libcando.FileOps

open Transition Jpool

inductive Owner
  | caller
  | ctx (id : ℕ)
  deriving DecidableEq

structure Flops where
  fd : ℤ := 0
  pipeFds : ℤ × ℤ := (0, 0)
  allocSz : ℕ := 0
  dataSz : ℕ := 0
  deriving DecidableEq

structure CreateInfo where
  fname : Option String
  size : ℕ
  createPipe : Bool
  deriving DecidableEq

/-- What the system answers to the calls of one create; `stat` gives the size of a file that exists. -/
structure Answers where
  calloc : Bool := true
  stat : Option ℕ := none
  opened : Bool := true
  piped : Bool := true
  truncated : Bool := true
  mapped : Bool := true
  deriving DecidableEq

structure Context where
  info : CreateInfo
  flops : Flops
  deriving DecidableEq

structure Close where
  id : ℕ
  fd : ℤ
  owner : Option Owner
  deriving DecidableEq

structure World where
  table : DescriptorTable Owner
  next : ℕ := 0
  contexts : ℕ → Option Context := fun _ => none
  closes : List Close := []

def CreateInfo.sizes (info : CreateInfo) (a : Answers) : ℕ × ℕ :=
  match info.fname, a.stat with
  | none, _ => (0, 0)
  | some _, some size =>
    if info.size = 0 then (udoByteAlign size udoPageSize, size) else (udoByteAlign info.size udoPageSize, 0)
  | some _, none => (udoByteAlign info.size udoPageSize, 0)

namespace World

def take (i : ℕ) (w : World) : World := { w with table := w.table.acquire (.ctx i) }

def close (i : ℕ) (fd : ℤ) (w : World) : World :=
  { w with table := w.table.release fd, closes := w.closes ++ [⟨i, fd, w.table.owner fd⟩] }

def udoFileOpsDestroy (i : ℕ) (flops : Flops) (w : World) : World :=
  ((w.close i flops.pipeFds.1).close i flops.pipeFds.2).close i flops.fd

def openFile (info : CreateInfo) (a : Answers) (i : ℕ) (w : World) : Except (Flops × World) (Flops × World) :=
  if info.fname = none then .ok ({}, w)
  else if !a.opened then .error ({ fd := -1 }, w)
  else .ok ({ fd := w.table.lowest, allocSz := (info.sizes a).1, dataSz := (info.sizes a).2 }, w.take i)

def openPipe (a : Answers) (i : ℕ) (flops : Flops) (w : World) : Except (Flops × World) (Flops × World) :=
  if !a.piped then .error (flops, w)
  else .ok ({ flops with pipeFds := (w.table.lowest, (w.take i).table.lowest) }, (w.take i).take i)

def mapFile (a : Answers) (flops : Flops) (w : World) : Except (Flops × World) (Flops × World) :=
  if flops.dataSz = 0 ∧ !a.truncated then .error (flops, w)
  else if !a.mapped ∧ flops.allocSz ≠ 0 then .error (flops, w)
  else .ok (flops, w)

def udoFileOpsCreate (info : Option CreateInfo) (a : Answers) (w : World) : World :=
  match info with
  | none => w
  | some info =>
    if !a.calloc then w
    else
      let i := w.next
      let made := (openFile info a i { w with next := i + 1 }).bind fun (flops, w) =>
        if info.createPipe then openPipe a i flops w else mapFile a flops w
      match made with
      | .error (flops, w) => udoFileOpsDestroy i flops w
      | .ok (flops, w) => { w with contexts := Function.update w.contexts i (some ⟨info, flops⟩) }

end World

inductive Act
  | create (info : Option CreateInfo) (a : Answers)
  | destroy (id : ℕ)
  | callerOpen
  | callerClose (fd : ℤ)
  deriving DecidableEq

def World.step (l : Act) (w : World) : Option World :=
  match l with
  | .create info a => some (w.udoFileOpsCreate info a)
  | .destroy i =>
    (w.contexts i).map fun c =>
      { w.udoFileOpsDestroy i c.flops with contexts := Function.update w.contexts i none }
  | .callerOpen => some { w with table := w.table.acquire .caller }
  | .callerClose fd =>
    if w.table.owner fd = some .caller then some { w with table := w.table.release fd } else none

def World.system : System World Act where
  init w := (∀ o ∈ w.table, o = none ∨ o = some .caller) ∧ w.contexts = (fun _ => none) ∧ w.closes = []
  step := World.step

def CreateInfo.Passes (info : CreateInfo) (a : Answers) : Prop :=
  (info.fname.isSome = true → a.opened = true) ∧
    if info.createPipe then a.piped = true
    else ((info.sizes a).2 = 0 → a.truncated = true) ∧ (a.mapped = true ∨ (info.sizes a).1 = 0)

/-- The context has a file and a pipe, so that no descriptor of it is left at the zero it was allocated with. -/
def CreateInfo.Full (info : CreateInfo) : Prop := info.fname.isSome = true ∧ info.createPipe = true

instance (info : CreateInfo) (a : Answers) : Decidable (info.Passes a) :=
  inferInstanceAs (Decidable (_ ∧ if info.createPipe then a.piped = true else _))

instance (info : CreateInfo) : Decidable info.Full := inferInstanceAs (Decidable (_ ∧ _))

def World.filled (l : Act) (w : World) : Prop :=
  match l with
  | .create (some info) a => a.calloc = true → info.Passes a
  | .destroy i => ∀ c ∈ w.contexts i, c.info.Full
  | _ => True

instance (l : Act) (w : World) : Decidable (w.filled l) :=
  match l with
  | .create (some info) a => inferInstanceAs (Decidable (a.calloc = true → info.Passes a))
  | .destroy i =>
    match h : w.contexts i with
    | none => isTrue (by simp [World.filled, h])
    | some c => decidable_of_iff c.info.Full (by simp [World.filled, h])
  | .create none _ | .callerOpen | .callerClose _ => isTrue trivial

structure Flops.Held (f : Flops) (i : ℕ) (t : DescriptorTable Owner) : Prop where
  fd : t.owner f.fd = some (.ctx i)
  read : t.owner f.pipeFds.1 = some (.ctx i)
  write : t.owner f.pipeFds.2 = some (.ctx i)
  fd_read : f.fd ≠ f.pipeFds.1
  fd_write : f.fd ≠ f.pipeFds.2
  read_write : f.pipeFds.1 ≠ f.pipeFds.2

def Flops.Opened (f : Flops) (info : CreateInfo) (n : ℤ) : Prop :=
  info.fname.isSome = true ∧ n = f.fd ∨ info.createPipe = true ∧ (n = f.pipeFds.1 ∨ n = f.pipeFds.2)

structure Flops.Unset (f : Flops) (info : CreateInfo) : Prop where
  fd : info.fname = none → f.fd = 0
  pipeFds : info.createPipe = false → f.pipeFds = (0, 0)

def World.OwnCloses (w : World) : Prop := ∀ c ∈ w.closes, c.owner = some (.ctx c.id)

structure World.Kept (w : World) : Prop where
  closes : w.OwnCloses
  held : ∀ i c, w.contexts i = some c → c.info.Full → c.flops.Held i w.table
  unset : ∀ i c, w.contexts i = some c → c.flops.Unset c.info
  only : ∀ n i, w.table.owner n = some (.ctx i) →
    i < w.next ∧ ∀ c, w.contexts i = some c → c.flops.Opened c.info n
  below : ∀ i c, w.contexts i = some c → i < w.next

structure World.Opens (info : CreateInfo) (i : ℕ) (f : Flops) (w w' : World) : Prop where
  contexts : w'.contexts = w.contexts
  closes : w'.closes = w.closes
  next : w'.next = w.next
  keep : ∀ n o, w.table.owner n = some o → w'.table.owner n = some o
  only : ∀ n j, w'.table.owner n = some (.ctx j) →
    w.table.owner n = some (.ctx j) ∨ j = i ∧ info.fname.isSome = true ∧ n = f.fd
  fd : info.fname.isSome = true → w'.table.owner f.fd = some (.ctx i)
  fd_unset : info.fname = none → f.fd = 0
  pipeFds : f.pipeFds = (0, 0)

structure World.Made (info : CreateInfo) (f : Flops) (w w' : World) : Prop where
  contexts : w'.contexts = Function.update w.contexts w.next (some ⟨info, f⟩)
  closes : w'.closes = w.closes
  next : w'.next = w.next + 1
  keep : ∀ n o, w.table.owner n = some o → w'.table.owner n = some o
  only : ∀ n i, w'.table.owner n = some (.ctx i) →
    w.table.owner n = some (.ctx i) ∨ i = w.next ∧ f.Opened info n
  held : info.Full → f.Held w.next w'.table
  unset : f.Unset info

section

variable {w w' : World} {l : Act} {i j : ℕ} {f : Flops} {info : CreateInfo} {a : Answers}
  {t : DescriptorTable Owner} {o : Owner} {n : ℤ}

theorem Flops.Held.mono {t' : DescriptorTable Owner} (h : f.Held i t)
    (ht : ∀ n o, t.owner n = some o → t'.owner n = some o) : f.Held i t' where
  fd := ht _ _ h.fd
  read := ht _ _ h.read
  write := ht _ _ h.write
  fd_read := h.fd_read
  fd_write := h.fd_write
  read_write := h.read_write

theorem Flops.Held.acquire (h : f.Held i t) : f.Held i (t.acquire o) :=
  h.mono fun _ _ => DescriptorTable.owner_acquire_of_some

theorem Flops.Held.release (h : f.Held i t) (hn : t.owner n ≠ some (.ctx i)) : f.Held i (t.release n) where
  fd := by
    rw [DescriptorTable.owner_release_of_ne]
    · exact h.fd
    · rintro rfl
      exact hn h.fd
  read := by
    rw [DescriptorTable.owner_release_of_ne]
    · exact h.read
    · rintro rfl
      exact hn h.read
  write := by
    rw [DescriptorTable.owner_release_of_ne]
    · exact h.write
    · rintro rfl
      exact hn h.write
  fd_read := h.fd_read
  fd_write := h.fd_write
  read_write := h.read_write

namespace World

theorem owner_close_of_ne {m : ℤ} (h : m ≠ n) : (w.close i n).table.owner m = w.table.owner m :=
  DescriptorTable.owner_release_of_ne h

theorem udoFileOpsDestroy_closes (h : f.Held i w.table) : (w.udoFileOpsDestroy i f).closes =
    w.closes ++ [⟨i, f.pipeFds.1, some (.ctx i)⟩, ⟨i, f.pipeFds.2, some (.ctx i)⟩, ⟨i, f.fd, some (.ctx i)⟩] := by
  have hwrite : (w.close i f.pipeFds.1).table.owner f.pipeFds.2 = some (.ctx i) := by
    rw [owner_close_of_ne h.read_write.symm, h.write]
  have hfd : ((w.close i f.pipeFds.1).close i f.pipeFds.2).table.owner f.fd = some (.ctx i) := by
    rw [owner_close_of_ne h.fd_write, owner_close_of_ne h.fd_read, h.fd]
  simp only [close] at hwrite hfd
  simp only [udoFileOpsDestroy, close, h.read, hwrite, hfd, List.append_assoc, List.cons_append, List.nil_append]

theorem udoFileOpsDestroy_held {g : Flops} (h : f.Held i w.table) (hij : j ≠ i) (hg : g.Held j w.table) :
    g.Held j (w.udoFileOpsDestroy i f).table := by
  have hne {n : ℤ} (hn : w.table.owner n = some (.ctx i)) : w.table.owner n ≠ some (.ctx j) := by
    rw [hn]
    intro heq
    cases heq
    exact hij rfl
  have hread : g.Held j (w.close i f.pipeFds.1).table := hg.release (hne h.read)
  have hwrite : g.Held j ((w.close i f.pipeFds.1).close i f.pipeFds.2).table := by
    apply hread.release
    rw [owner_close_of_ne h.read_write.symm]
    exact hne h.write
  apply hwrite.release
  rw [owner_close_of_ne h.fd_write, owner_close_of_ne h.fd_read]
  exact hne h.fd

theorem owner_take {m : ℤ} (h : (w.take i).table.owner m = some o) :
    w.table.owner m = some o ∨ o = .ctx i ∧ m = w.table.lowest := by
  simp only [take, DescriptorTable.owner_acquire] at h
  split_ifs at h with hm
  · cases h
    exact .inr ⟨rfl, hm⟩
  · exact .inl h

theorem openFile_ok (hopened : info.fname.isSome = true → a.opened = true) (i : ℕ) (w : World) :
    ∃ f w', openFile info a i w = .ok (f, w') ∧ f.allocSz = (info.sizes a).1 ∧ f.dataSz = (info.sizes a).2 ∧
      Opens info i f w w' := by
  cases hname : info.fname with
  | none =>
    refine ⟨{}, w, by simp [openFile, hname], by simp [CreateInfo.sizes, hname], by simp [CreateInfo.sizes, hname], ?_⟩
    exact ⟨rfl, rfl, rfl, fun _ _ h => h, fun _ _ h => .inl h, by simp [hname], fun _ => rfl, rfl⟩
  | some name =>
    have ho : a.opened = true := hopened (by simp [hname])
    refine ⟨⟨w.table.lowest, (0, 0), (info.sizes a).1, (info.sizes a).2⟩, w.take i, by simp [openFile, hname, ho],
      rfl, rfl, rfl, rfl, rfl, ?_, ?_, ?_, by simp [hname], rfl⟩
    · intro n o h
      exact DescriptorTable.owner_acquire_of_some h
    · intro n j h
      obtain hold | ⟨hj, hn⟩ := owner_take h
      · exact .inl hold
      · cases hj
        exact .inr ⟨rfl, by simp [hname], hn⟩
    · intro _
      exact DescriptorTable.owner_acquire_lowest

theorem mapFile_ok (hrest : (f.dataSz = 0 → a.truncated = true) ∧ (a.mapped = true ∨ f.allocSz = 0)) :
    mapFile a f w = .ok (f, w) := by
  have htruncate : ¬(f.dataSz = 0 ∧ (!a.truncated) = true) := by
    rintro ⟨hzero, hfail⟩
    simp [hrest.1 hzero] at hfail
  have hmap : ¬((!a.mapped) = true ∧ f.allocSz ≠ 0) := by
    rintro ⟨hfail, hne⟩
    rcases hrest.2 with hm | hz
    · simp [hm] at hfail
    · exact hne hz
  rw [mapFile, if_neg htruncate, if_neg hmap]

theorem mapFile_fails (hrest : ¬((f.dataSz = 0 → a.truncated = true) ∧ (a.mapped = true ∨ f.allocSz = 0))) :
    mapFile a f w = .error (f, w) := by
  rw [mapFile]
  split_ifs with htruncate hmap
  · rfl
  · rfl
  · exfalso
    apply hrest
    constructor
    · intro hzero
      by_contra hfail
      exact htruncate ⟨hzero, by simpa using hfail⟩
    · by_contra hfail
      rw [not_or] at hfail
      exact hmap ⟨by simpa using hfail.1, hfail.2⟩

theorem Opens.made_piped (h : Opens info w.next f { w with next := w.next + 1 } w') (hpipe : info.createPipe = true) :
    Made info { f with pipeFds := (w'.table.lowest, (w'.take w.next).table.lowest) } w
      { (w'.take w.next).take w.next with
        contexts := Function.update w'.contexts w.next
          (some ⟨info, { f with pipeFds := (w'.table.lowest, (w'.take w.next).table.lowest) }⟩) } where
  contexts := by rw [h.contexts]
  closes := h.closes
  next := h.next
  keep := by
    intro n o hn
    exact DescriptorTable.owner_acquire_of_some (DescriptorTable.owner_acquire_of_some (h.keep n o hn))
  only := by
    intro n i hn
    obtain htake | ⟨hi, hwrite⟩ := owner_take (w := w'.take w.next) hn
    · obtain hopen | ⟨hi, hread⟩ := owner_take htake
      · obtain hold | ⟨hi, hopened⟩ := h.only n i hopen
        · exact .inl hold
        · exact .inr ⟨hi, .inl hopened⟩
      · cases hi
        exact .inr ⟨rfl, .inr ⟨hpipe, .inl hread⟩⟩
    · cases hi
      exact .inr ⟨rfl, .inr ⟨hpipe, .inr hwrite⟩⟩
  held := by
    intro hfull
    have hfd := h.fd hfull.1
    have hread : (w'.take w.next).table.owner w'.table.lowest = some (.ctx w.next) :=
      DescriptorTable.owner_acquire_lowest
    have hfd' : (w'.take w.next).table.owner f.fd = some (.ctx w.next) := DescriptorTable.owner_acquire_of_some hfd
    exact ⟨DescriptorTable.owner_acquire_of_some hfd', DescriptorTable.owner_acquire_of_some hread,
      DescriptorTable.owner_acquire_lowest, DescriptorTable.ne_lowest hfd, DescriptorTable.ne_lowest hfd',
      DescriptorTable.ne_lowest hread⟩
  unset := by
    refine ⟨h.fd_unset, ?_⟩
    intro hp
    rw [hpipe] at hp
    cases hp

theorem Opens.made_mapped (h : Opens info w.next f { w with next := w.next + 1 } w') (hpipe : ¬info.createPipe = true) :
    Made info f w { w' with contexts := Function.update w'.contexts w.next (some ⟨info, f⟩) } where
  contexts := by rw [h.contexts]
  closes := h.closes
  next := h.next
  keep := h.keep
  only := by
    intro n i hn
    obtain hn | ⟨hi, hopened⟩ := h.only n i hn
    · exact .inl hn
    · exact .inr ⟨hi, .inl hopened⟩
  held := fun hfull => absurd hfull.2 hpipe
  unset := ⟨h.fd_unset, fun _ => h.pipeFds⟩

theorem udoFileOpsCreate_made (hcalloc : a.calloc = true) (hpass : info.Passes a) :
    ∃ f, Made info f w (w.udoFileOpsCreate (some info) a) := by
  obtain ⟨f, w', hopen, halloc, hdata, hopens⟩ := openFile_ok hpass.1 w.next { w with next := w.next + 1 }
  have hrest := hpass.2
  by_cases hpipe : info.createPipe = true
  · rw [if_pos hpipe] at hrest
    have hcreate : w.udoFileOpsCreate (some info) a = { (w'.take w.next).take w.next with
        contexts := Function.update w'.contexts w.next (some ⟨info, { f with
          pipeFds := (w'.table.lowest, (w'.take w.next).table.lowest) }⟩) } := by
      simp [udoFileOpsCreate, hcalloc, hopen, hpipe, Except.bind, openPipe, hrest, take]
    rw [hcreate]
    exact ⟨_, hopens.made_piped hpipe⟩
  · rw [if_neg hpipe, ← halloc, ← hdata] at hrest
    have hcreate : w.udoFileOpsCreate (some info) a = { w' with
        contexts := Function.update w'.contexts w.next (some ⟨info, f⟩) } := by
      simp [udoFileOpsCreate, hcalloc, hopen, hpipe, Except.bind, mapFile_ok hrest]
    rw [hcreate]
    exact ⟨f, hopens.made_mapped hpipe⟩

theorem Kept.made (h : w.Kept) (hm : Made info f w w') : w'.Kept := by
  constructor
  · rw [OwnCloses, hm.closes]
    exact h.closes
  · intro i c hc hfull
    rw [hm.contexts] at hc
    obtain ⟨rfl, rfl⟩ | ⟨-, hc⟩ := update_some_cases hc
    · exact hm.held hfull
    · exact (h.held i c hc hfull).mono hm.keep
  · intro i c hc
    rw [hm.contexts] at hc
    obtain ⟨rfl, rfl⟩ | ⟨-, hc⟩ := update_some_cases hc
    · exact hm.unset
    · exact h.unset i c hc
  · intro n i hn
    rw [hm.next, hm.contexts]
    obtain hold | ⟨rfl, hopened⟩ := hm.only n i hn
    · have hlt := (h.only n i hold).1
      refine ⟨Nat.lt_succ_of_lt hlt, ?_⟩
      intro c hc
      obtain ⟨rfl, -⟩ | ⟨-, hc⟩ := update_some_cases hc
      · exact absurd hlt (lt_irrefl _)
      · exact (h.only n i hold).2 c hc
    · refine ⟨Nat.lt_succ_self _, ?_⟩
      intro c hc
      obtain ⟨-, rfl⟩ | ⟨hne, -⟩ := update_some_cases hc
      · exact hopened
      · exact absurd rfl hne
  · intro i c hc
    rw [hm.next]
    rw [hm.contexts] at hc
    obtain ⟨rfl, -⟩ | ⟨-, hc⟩ := update_some_cases hc
    · exact Nat.lt_succ_self _
    · exact Nat.lt_succ_of_lt (h.below i c hc)

theorem Kept.table (h : w.Kept) {t : DescriptorTable Owner}
    (hheld : ∀ i c, w.contexts i = some c → c.info.Full → c.flops.Held i t)
    (hold : ∀ n i, t.owner n = some (.ctx i) → w.table.owner n = some (.ctx i)) : Kept { w with table := t } :=
  ⟨h.closes, hheld, h.unset, fun n i hn => h.only n i (hold n i hn), h.below⟩

theorem owner_destroy {m : ℤ} (h : (w.udoFileOpsDestroy i f).table.owner m = some o) :
    w.table.owner m = some o :=
  DescriptorTable.owner_of_release (DescriptorTable.owner_of_release (DescriptorTable.owner_of_release h))

theorem Kept.destroy (h : w.Kept) {c : Context} (hc : w.contexts i = some c) (hfull : c.info.Full) :
    Kept { w.udoFileOpsDestroy i c.flops with contexts := Function.update w.contexts i none } := by
  have hheld := h.held i c hc hfull
  constructor
  · intro e he
    dsimp only at he
    rw [udoFileOpsDestroy_closes hheld, List.mem_append] at he
    rcases he with he | he
    · exact h.closes e he
    · simp only [List.mem_cons, List.not_mem_nil, or_false] at he
      rcases he with rfl | rfl | rfl <;> rfl
  · intro j c' hj hfull'
    obtain ⟨hij, hj⟩ := update_none_some hj
    exact udoFileOpsDestroy_held hheld hij (h.held j c' hj hfull')
  · intro j c' hj
    exact h.unset j c' (update_none_some hj).2
  · intro n j hn
    have hold := h.only n j (owner_destroy hn)
    exact ⟨hold.1, fun c' hj => hold.2 c' (update_none_some hj).2⟩
  · intro j c' hj
    exact h.below j c' (update_none_some hj).2

theorem Kept.step (h : w.Kept) (hok : w.filled l) (hs : w.step l = some w') : w'.Kept := by
  cases l with
  | create info a =>
    cases hs
    cases info with
    | none => exact h
    | some info =>
      by_cases hcalloc : a.calloc = true
      · obtain ⟨f, hm⟩ := udoFileOpsCreate_made (w := w) hcalloc (hok hcalloc)
        exact h.made hm
      · have hsame : w.udoFileOpsCreate (some info) a = w := by simp [udoFileOpsCreate, hcalloc]
        rw [hsame]
        exact h
  | destroy i =>
    obtain ⟨c, hc, rfl⟩ := Option.map_eq_some_iff.mp hs
    exact h.destroy hc (hok c hc)
  | callerOpen =>
    cases hs
    apply h.table
    · intro i c hc hfull
      exact (h.held i c hc hfull).acquire
    · intro n i hn
      rw [DescriptorTable.owner_acquire] at hn
      split_ifs at hn
      · cases hn
      · exact hn
  | callerClose fd =>
    simp only [World.step] at hs
    split_ifs at hs with hcaller
    cases hs
    apply h.table
    · intro i c hc hfull
      apply (h.held i c hc hfull).release
      rw [hcaller]
      intro heq
      cases heq
    · intro n i hn
      exact DescriptorTable.owner_of_release hn

theorem udoFileOpsDestroy_unpiped (h : f.pipeFds = (0, 0)) : ⟨i, 0, none⟩ ∈ (w.udoFileOpsDestroy i f).closes := by
  simp [udoFileOpsDestroy, close, h, DescriptorTable.owner_release]

theorem udoFileOpsDestroy_unnamed (hfd : f.fd = 0)
    (h : w.table.owner 0 = some (.ctx i) → 0 = f.pipeFds.1 ∨ 0 = f.pipeFds.2) :
    ∃ c ∈ (w.udoFileOpsDestroy i f).closes, c.owner ≠ some (.ctx c.id) := by
  refine ⟨⟨i, 0, ((w.close i f.pipeFds.1).close i f.pipeFds.2).table.owner 0⟩, ?_, ?_⟩
  · simp [udoFileOpsDestroy, close, hfd]
  · simp only [close, DescriptorTable.owner_release]
    split_ifs with hwrite hread
    · simp
    · simp
    · intro heq
      rcases h heq with h | h
      · exact hread h
      · exact hwrite h

theorem udoFileOpsCreate_fails (hcalloc : a.calloc = true) (hpass : ¬info.Passes a) :
    ⟨w.next, 0, none⟩ ∈ (w.udoFileOpsCreate (some info) a).closes := by
  have hfailed (f : Flops) (w' : World) (hf : f.pipeFds = (0, 0))
      (hmade : ((openFile info a w.next { w with next := w.next + 1 }).bind fun (flops, w') =>
        if info.createPipe then openPipe a w.next flops w' else mapFile a flops w') = .error (f, w')) :
      ⟨w.next, 0, none⟩ ∈ (w.udoFileOpsCreate (some info) a).closes := by
    simp only [udoFileOpsCreate, hcalloc, Bool.not_true, Bool.false_eq_true, if_false, hmade]
    exact udoFileOpsDestroy_unpiped hf
  by_cases hopened : info.fname.isSome = true → a.opened = true
  · obtain ⟨f, w', hopen, halloc, hdata, hopens⟩ := openFile_ok hopened w.next { w with next := w.next + 1 }
    by_cases hpipe : info.createPipe = true
    · have hfail : a.piped = false := by
        cases hp : a.piped with
        | false => rfl
        | true => exact absurd ⟨hopened, by rw [if_pos hpipe, hp]⟩ hpass
      exact hfailed f w' hopens.pipeFds (by simp [hopen, Except.bind, hpipe, openPipe, hfail])
    · have hfail : ¬((f.dataSz = 0 → a.truncated = true) ∧ (a.mapped = true ∨ f.allocSz = 0)) := by
        intro hrest
        rw [hdata, halloc] at hrest
        exact hpass ⟨hopened, by rw [if_neg hpipe]; exact hrest⟩
      exact hfailed f w' hopens.pipeFds (by simp [hopen, Except.bind, hpipe, mapFile_fails hfail])
  · obtain ⟨hnamed, hfail⟩ := Classical.not_imp.mp hopened
    have hname : info.fname ≠ none := by
      intro h
      rw [h] at hnamed
      cases hnamed
    exact hfailed { fd := -1 } { w with next := w.next + 1 } rfl (by simp [openFile, hname, hfail, Except.bind])

theorem unfilled_closes (h : w.Kept) (hok : ¬w.filled l) (hs : w.step l = some w') :
    ∃ c ∈ w'.closes, c.owner ≠ some (.ctx c.id) := by
  cases l with
  | create info a =>
    cases hs
    cases info with
    | none => exact absurd trivial hok
    | some info =>
      obtain ⟨hcalloc, hpass⟩ := Classical.not_imp.mp hok
      exact ⟨_, udoFileOpsCreate_fails hcalloc hpass, by simp⟩
  | destroy i =>
    obtain ⟨c, hc, rfl⟩ := Option.map_eq_some_iff.mp hs
    have hfull : ¬c.info.Full := fun hfull => hok fun c' hc' => by
      rw [hc] at hc'
      cases hc'
      exact hfull
    have hunset := h.unset i c hc
    cases hpipe : c.info.createPipe with
    | false => exact ⟨_, udoFileOpsDestroy_unpiped (hunset.pipeFds hpipe), by simp⟩
    | true =>
      have hname : c.info.fname = none := by
        cases hn : c.info.fname with
        | none => rfl
        | some name => exact absurd ⟨by rw [hn]; rfl, hpipe⟩ hfull
      apply udoFileOpsDestroy_unnamed (hunset.fd hname)
      intro howner
      rcases (h.only 0 i howner).2 c hc with ⟨hnamed, -⟩ | ⟨-, hopened⟩
      · rw [hname] at hnamed
        cases hnamed
      · exact hopened
  | callerOpen => exact absurd trivial hok
  | callerClose fd => exact absurd trivial hok

theorem closes_own (h : Reach system filled w) :
    w.OwnCloses ∧ ∀ l w', w.step l = some w' → (w'.OwnCloses ↔ w.filled l) := by
  have hkept : w.Kept := by
    apply h.invariant
    · rintro w ⟨htable, hcontexts, hcloses⟩
      constructor
      · rw [OwnCloses, hcloses]
        intro c hc
        cases hc
      · rw [hcontexts]
        intro i c hc
        cases hc
      · rw [hcontexts]
        intro i c hc
        cases hc
      · intro n i hn
        rcases htable _ (DescriptorTable.mem_of_owner hn) with hnone | hcaller
        · cases hnone
        · cases hcaller
      · rw [hcontexts]
        intro i c hc
        cases hc
    · intro w w' l hw hok hs
      exact hw.step hok hs
  constructor
  · exact hkept.closes
  · intro l w' hs
    constructor
    · intro hown
      by_contra hok
      obtain ⟨c, hc, hne⟩ := unfilled_closes hkept hok hs
      exact hne (hown c hc)
    · intro hok
      exact (hkept.step hok hs).closes

theorem closes_own_copy : ∃ w, Reach system filled w ∧ w.closes.map Close.fd = [4, 5, 3] ∧
    w.OwnCloses := by
  obtain ⟨w, hw, hfds⟩ := exists_of_run system filled
    (.init (s := { table := [some .caller, some .caller, some .caller] }) ⟨by decide, rfl, rfl⟩)
    [.create (some ⟨some "/tmp/a", 4096, true⟩) {}, .destroy 0] (fun w => w.closes.map Close.fd = [4, 5, 3])
    (by decide +kernel)
  exact ⟨w, hw, hfds, (closes_own hw).1⟩

/-- A context without a pipe keeps the zeros it was allocated with, and its destroy closes the caller's
descriptor 0. -/
theorem caller_descriptor_closed : ¬ ∀ w, Reach system (fun _ _ => True) w → w.OwnCloses := by
  intro closes
  obtain ⟨w, hw, hclose⟩ := exists_of_run system (fun _ _ => True)
    (.init (s := { table := [some .caller, some .caller, some .caller] }) ⟨by decide, rfl, rfl⟩)
    [.create (some ⟨some "/tmp/a", 4096, false⟩) {}, .destroy 0] (fun w => ⟨0, 0, some .caller⟩ ∈ w.closes)
    (by decide +kernel)
  have := closes w hw _ hclose
  cases this

end World

end

end Libcando.FileOps
