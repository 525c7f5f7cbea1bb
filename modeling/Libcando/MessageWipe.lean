import Libcando.TransferMotion
import Libcando.TransferOutcome
import Mathlib.Data.List.Chain

namespace Libcando.Shm

open ByteMemory Futex

inductive SegmentRun (procs : ℕ → ShmProc) (proc : ShmProc) (x₀ : Transfer) (m₀ : Mem) : Transfer → Mem → Prop
  | entry : SegmentRun procs proc x₀ m₀ x₀ m₀
  | own {x x' : Transfer} {m m' : Mem} {turn : Turn} (h : SegmentRun procs proc x₀ m₀ x m)
    (hs : x.step turn procs m = some (x', m')) : SegmentRun procs proc x₀ m₀ x' m'
  | others {x : Transfer} {m : Mem} (m' : Mem) (h : SegmentRun procs proc x₀ m₀ x m)
    (hout : ∀ o < proc.dataSz, m' (proc.data + o) = m (proc.data + o)) : SegmentRun procs proc x₀ m₀ x m'

def ShmProc.segment (proc : ShmProc) (m : Mem) : Mem := fun o => m (proc.data + o)

/-- `got` is the caller's buffer after the call, `left` the segment. -/
structure Message where
  dir : Dir
  size : ℕ
  buf : Mem
  got : Mem
  left : Mem

def Session (info : ShmCreateInfo) (p : ℕ) : Mem → List Message → Mem → Prop
  | m, [], m' => m' = m
  | m, r :: rs, m' => ∃ errno x m₁,
    SegmentRun info.procs (info.procs p) { dir := r.dir, info := ⟨false, r.size, p⟩, pc := .check, buf := r.buf, errno }
      m x m₁ ∧ x.pc = .done 0 ∧ r.got = x.buf ∧ r.left = (info.procs p).segment m₁ ∧ Session info p m₁ rs m'

def Alternate (rs : List Message) : Prop := rs.IsChain fun r s => r.dir ≠ s.dir

structure Wiped (rs : List Message) : Prop where
  zero : ∀ r ∈ rs, r.dir = .read → ∀ o < r.size, r.left o = 0
  written : ∀ pre w r post, rs = pre ++ w :: r :: post → r.dir = .read → ∀ o < w.size, o < r.size → r.got o = w.buf o
  rest : ∀ pre r mid r' post, rs = pre ++ r :: (mid ++ r' :: post) → r.dir = .read → r'.dir = .read →
    ∀ o < r.size, o < r'.size → (∀ c ∈ mid, c.dir = .write → c.size ≤ o) → r'.got o = 0

def Message.record (seg : Mem) (r : Message) (o : ℕ) : UInt8 :=
  match r.dir with
  | .read => seg o
  | .write => if o < r.size then r.buf o else seg o

def lastWritten (seg : Mem) (rs : List Message) : Mem := rs.foldl Message.record seg

def Dir.got (dir : Dir) (buf seg : Mem) (k i : ℕ) : UInt8 :=
  match dir with
  | .read => if i < k then seg i else buf i
  | .write => buf i

/-- The bytes of the segment once `k` have been dealt with: of a word read only the first byte is cleared. -/
def Dir.left (dir : Dir) (buf seg : Mem) (k o : ℕ) : UInt8 :=
  match dir with
  | .read => if o < k ∧ 4 ∣ o then 0 else seg o
  | .write => if o < k then buf o else seg o

def Message.leave (seg : Mem) (r : Message) : Mem := r.dir.left r.buf seg r.size

def content (seg : Mem) (rs : List Message) : Mem := rs.foldl Message.leave seg

def TransferPc.At (dir : Dir) (size : ℕ) (k j : ℕ) : TransferPc → Prop
  | .check | .lock _ | .errnoCheck => k = 0 ∧ j = 0
  | .copy s => 4 ∣ s ∧ s ≤ size ∧ k = s ∧ j = s
  | .clear s => 4 ∣ s ∧ s + 4 ≤ size ∧ dir = .read ∧ k = s + 4 ∧ j = s
  | .unlock _ => k = size ∧ j = size
  | .done ret => ret = 0 → k = size ∧ j = size

structure Copying (proc : ShmProc) (x₀ : Transfer) (seg : Mem) (x : Transfer) (m : Mem) : Prop where
  dir : x.dir = x₀.dir
  info : x.info = x₀.info
  stage : ∃ k j, x.pc.At x₀.dir x₀.info.size k j ∧ x.buf = x₀.dir.got x₀.buf seg k ∧
    ∀ o < proc.dataSz, m (proc.data + o) = x₀.dir.left x₀.buf seg j o

section Call

variable {procs : ℕ → ShmProc} {x₀ x x' : Transfer} {seg m m' : Mem}

theorem readWord_got {data s : ℕ} {buf : Mem} (h : ∀ i, s ≤ i → i < s + 4 → m (data + i) = seg i) :
    readWord data s (Dir.got .read buf seg s) m = Dir.got .read buf seg (s + 4) := by
  funext i
  by_cases hin : s ≤ i ∧ i < s + 4
  · rw [readWord_at data _ m hin.1 hin.2, h i hin.1 hin.2, Dir.got, if_pos hin.2]
  · rw [readWord, store_outside (by omega), Dir.got, Dir.got]
    split_ifs <;> first | rfl | omega

theorem writeWord_left {data s o : ℕ} {buf : Mem} (h : m (data + o) = Dir.left .write buf seg s o) :
    writeWord data s buf m (data + o) = Dir.left .write buf seg (s + 4) o := by
  by_cases hin : s ≤ o ∧ o < s + 4
  · rw [writeWord_at data buf m hin.1 hin.2, Dir.left, if_pos hin.2]
  · rw [writeWord, store_outside (by omega), h, Dir.left, Dir.left]
    split_ifs <;> first | rfl | omega

theorem atomicClear_left {data s o : ℕ} {buf : Mem} (hs : 4 ∣ s) (h : m (data + o) = Dir.left .read buf seg s o) :
    atomicClear m (data + s) (data + o) = Dir.left .read buf seg (s + 4) o := by
  by_cases hin : o = s
  · subst hin
    rw [Dir.left, if_pos ⟨by omega, hs⟩]
    simp [atomicClear, store]
  · rw [atomicClear, store_outside (by omega), h, Dir.left, Dir.left]
    split_ifs <;> first | rfl | omega

section Step

variable (h : Copying (procs x₀.info.procIndex) x₀ seg x m)

include h

theorem Copying.same (hdir : x'.dir = x.dir) (hinfo : x'.info = x.info) (hbuf : x'.buf = x.buf)
    (hat : ∀ k j, x.pc.At x₀.dir x₀.info.size k j → x'.pc.At x₀.dir x₀.info.size k j)
    (hm : ∀ o, m' ((procs x₀.info.procIndex).data + o) = m ((procs x₀.info.procIndex).data + o)) :
    Copying (procs x₀.info.procIndex) x₀ seg x' m' := by
  obtain ⟨k, j, hat', hbuf', hleft⟩ := h.stage
  exact ⟨hdir.trans h.dir, hinfo.trans h.info, k, j, hat k j hat', hbuf.trans hbuf',
    fun o ho => (hm o).trans (hleft o ho)⟩

theorem Copying.read {s : ℕ} (hpc : x.pc = .copy s) (hread : x.dir = .read) (hlt : s < x.info.size)
    (hfits : x₀.info.size ≤ (procs x₀.info.procIndex).dataSz) (hdvd : 4 ∣ x₀.info.size) :
    Copying (procs x₀.info.procIndex) x₀ seg
      { x with pc := .clear s, buf := readWord (x.data procs) s x.buf m } m := by
  obtain ⟨hdir, hinfo, k, j, hat, hbuf, hleft⟩ := h
  rw [hpc] at hat
  rw [hinfo] at hlt
  obtain ⟨hs4, -, rfl, rfl⟩ := hat
  have hdir₀ : x₀.dir = .read := hdir.symm.trans hread
  refine ⟨hdir, hinfo, _, _, ⟨hs4, by omega, hdir₀, rfl, rfl⟩, ?_, hleft⟩
  rw [hdir₀] at hbuf hleft ⊢
  dsimp only
  rw [hbuf, Transfer.data, hinfo]
  apply readWord_got
  intro i hi hlt'
  exact (hleft i (by omega)).trans (if_neg (by omega))

theorem Copying.write {s : ℕ} (hpc : x.pc = .copy s) (hwrite : x.dir = .write) (hlt : s < x.info.size)
    (hdvd : 4 ∣ x₀.info.size) :
    Copying (procs x₀.info.procIndex) x₀ seg { x with pc := .copy (s + 4) } (writeWord (x.data procs) s x.buf m) := by
  obtain ⟨hdir, hinfo, k, j, hat, hbuf, hleft⟩ := h
  rw [hpc] at hat
  rw [hinfo] at hlt
  obtain ⟨hs4, -, rfl, rfl⟩ := hat
  have hdir₀ : x₀.dir = .write := hdir.symm.trans hwrite
  refine ⟨hdir, hinfo, _, _, ⟨Nat.dvd_add_self_right.mpr hs4, by omega, rfl, rfl⟩, ?_, ?_⟩
  · rw [hdir₀] at hbuf ⊢
    exact hbuf
  · rw [hdir₀] at hbuf hleft ⊢
    intro o ho
    rw [hbuf, Transfer.data, hinfo]
    exact writeWord_left (hleft o ho)

theorem Copying.clear {s : ℕ} (hpc : x.pc = .clear s) :
    Copying (procs x₀.info.procIndex) x₀ seg { x with pc := .copy (s + 4) } (atomicClear m (x.data procs + s)) := by
  obtain ⟨hdir, hinfo, k, j, hat, hbuf, hleft⟩ := h
  rw [hpc] at hat
  obtain ⟨hs4, hle, hdir₀, rfl, rfl⟩ := hat
  refine ⟨hdir, hinfo, _, _, ⟨Nat.dvd_add_self_right.mpr hs4, hle, rfl, rfl⟩, hbuf, ?_⟩
  rw [hdir₀] at hleft ⊢
  intro o ho
  rw [Transfer.data, hinfo]
  exact atomicClear_left hs4 (hleft o ho)

theorem Copying.step (hs : x.Step procs m x' m') (hplaced : (procs x₀.info.procIndex).Placed)
    (hdvd : 4 ∣ x₀.info.size) (hfits : x₀.info.size ≤ (procs x₀.info.procIndex).dataSz) :
    Copying (procs x₀.info.procIndex) x₀ seg x' m' := by
  have below {a : ℕ} (ha : a + 4 ≤ (procs x₀.info.procIndex).data) (v o : ℕ) :
      store m a 4 v ((procs x₀.info.procIndex).data + o) = m ((procs x₀.info.procIndex).data + o) :=
    store_outside (by omega)
  have hown : x.ownFux procs + 4 ≤ (procs x₀.info.procIndex).data := by
    rw [x.ownFux_eq, h.info]
    exact (hplaced.fux _).1
  have hother : x.otherFux procs + 4 ≤ (procs x₀.info.procIndex).data := by
    rw [x.otherFux_eq, h.info]
    exact (hplaced.fux _).1
  cases hs with
  | reject hpc => exact h.same rfl rfl rfl (fun _ _ _ hret => absurd hret (by decide)) fun _ => rfl
  | fail hpc he => exact h.same rfl rfl rfl (fun _ _ _ hret => absurd hret (by rw [he]; decide)) fun _ => rfl
  | accept hpc | interrupt pc hpc hw | spin pc pc' errno hpc =>
    exact h.same rfl rfl rfl (fun k j hat => by rwa [hpc] at hat) fun _ => rfl
  | acquire pc hpc hw =>
    exact h.same rfl rfl rfl (fun k j hat => by rwa [hpc] at hat) (below hown _)
  | enter hpc he =>
    refine h.same rfl rfl rfl ?_ fun _ => rfl
    intro k j hat
    rw [hpc] at hat
    obtain ⟨rfl, rfl⟩ := hat
    exact ⟨Nat.dvd_zero 4, Nat.zero_le _, rfl, rfl⟩
  | read s hpc hread hlt => exact h.read hpc hread hlt hfits hdvd
  | write s hpc hwrite hlt => exact h.write hpc hwrite hlt hdvd
  | finish s hpc hge =>
    refine h.same rfl rfl rfl ?_ fun _ => rfl
    intro k j hat
    rw [hpc] at hat
    rw [h.info] at hge
    obtain ⟨-, hle, rfl, rfl⟩ := hat
    exact ⟨Nat.le_antisymm hle hge, Nat.le_antisymm hle hge⟩
  | clear s hpc => exact h.clear hpc
  | release value hpc =>
    exact h.same rfl rfl rfl (fun k j hat => by rwa [hpc] at hat) (below hother _)
  | wake hpc =>
    refine h.same rfl rfl rfl ?_ fun _ => rfl
    intro k j hat
    rw [hpc] at hat
    exact fun _ => hat

end Step

theorem segmentRun_copying {proc : ShmProc} {m₀ : Mem} (hproc : procs x₀.info.procIndex = proc)
    (h : SegmentRun procs proc x₀ m₀ x m) (hplaced : proc.Placed) (hdvd : 4 ∣ x₀.info.size)
    (hfits : x₀.info.size ≤ proc.dataSz) (h₀ : x₀.pc = .check) : Copying proc x₀ (proc.segment m₀) x m := by
  subst hproc
  induction h with
  | entry =>
    refine ⟨rfl, rfl, 0, 0, ?_, ?_, ?_⟩
    · rw [h₀]
      exact ⟨rfl, rfl⟩
    · funext i
      cases hdir : x₀.dir <;> simp [Dir.got]
    · intro o _
      cases hdir : x₀.dir <;> simp [Dir.left, ShmProc.segment]
  | own _ hs ih => exact ih.step (Transfer.step_cases hs) hplaced hdvd hfits
  | others m' _ hout ih =>
    obtain ⟨k, j, hat, hbuf, hleft⟩ := ih.stage
    exact ⟨ih.dir, ih.info, k, j, hat, hbuf, fun o ho => (hout o ho).trans (hleft o ho)⟩

end Call

section Sequence

variable {info : ShmCreateInfo} {p o : ℕ} {m m' : Mem} {seg seg' : Mem} {r : Message} {rs pre post : List Message}

theorem left_congr {dir : Dir} {buf : Mem} {k : ℕ} (h : seg o = seg' o) :
    dir.left buf seg k o = dir.left buf seg' k o := by
  cases dir <;> simp only [Dir.left, h]

theorem content_congr (h : seg o = seg' o) : content seg rs o = content seg' rs o := by
  induction rs generalizing seg seg' with
  | nil => exact h
  | cons r rs ih => exact ih (left_congr h)

theorem content_append : content seg (pre ++ rs) = content (content seg pre) rs := List.foldl_append

theorem content_lastWritten (ho : ¬4 ∣ o) : content seg rs o = lastWritten seg rs o := by
  induction rs generalizing seg with
  | nil => rfl
  | cons r rs ih =>
    have hstep : r.leave seg o = r.record seg o := by
      unfold Message.leave Message.record Dir.left
      cases r.dir <;> simp [ho]
    calc content (r.leave seg) rs o = content (r.record seg) rs o := content_congr hstep
      _ = lastWritten (r.record seg) rs o := ih

theorem content_zero (h : seg o = 0) (hrs : ∀ r ∈ rs, r.dir = .write → r.size ≤ o) : content seg rs o = 0 := by
  induction rs generalizing seg with
  | nil => exact h
  | cons r rs ih =>
    refine ih ?_ fun r' hr' => hrs r' (List.mem_cons_of_mem _ hr')
    unfold Message.leave Dir.left
    cases hdir : r.dir with
    | read => simp [h]
    | write => simp [Nat.not_lt_of_le (hrs r List.mem_cons_self hdir), h]

theorem session_append (h : Session info p m (pre ++ rs) m') :
    ∃ m₁, Session info p m pre m₁ ∧ Session info p m₁ rs m' := by
  induction pre generalizing m with
  | nil => exact ⟨m, rfl, h⟩
  | cons r pre ih =>
    obtain ⟨errno, x, m₁, hrun, hdone, hgot, hleft, hrest⟩ := h
    obtain ⟨m₂, hpre, hrs⟩ := ih hrest
    exact ⟨m₂, ⟨errno, x, m₁, hrun, hdone, hgot, hleft, hpre⟩, hrs⟩

variable (hinfo : info.Accepted) (hp : p < info.procCount)

include hinfo hp

theorem session_cons (h : Session info p m (r :: rs) m') (hdvd : 4 ∣ r.size) (hfits : r.size ≤ (info.procs p).dataSz) :
    ∃ m₁, r.got = r.dir.got r.buf ((info.procs p).segment m) r.size ∧ r.left = (info.procs p).segment m₁ ∧
      (∀ o < (info.procs p).dataSz, (info.procs p).segment m₁ o = r.leave ((info.procs p).segment m) o) ∧
      Session info p m₁ rs m' := by
  obtain ⟨errno, x, m₁, hrun, hdone, hgot, hleft, hrest⟩ := h
  have hplaced : (info.procs p).Placed := by
    have hprocs := ShmCreateInfo.procs_placed hinfo hp
    rw [ShmProc.Placed]
    omega
  have hcopying : Copying (info.procs p)
      { dir := r.dir, info := ⟨false, r.size, p⟩, pc := .check, buf := r.buf, errno } ((info.procs p).segment m) x m₁ :=
    segmentRun_copying rfl hrun hplaced hdvd hfits rfl
  obtain ⟨k, j, hat, hbuf, hseg⟩ := hcopying.stage
  rw [hdone] at hat
  obtain ⟨rfl, rfl⟩ := hat rfl
  exact ⟨m₁, hgot.trans hbuf, hleft, hseg, hrest⟩

theorem session_content (h : Session info p m rs m')
    (hfits : ∀ r ∈ rs, 4 ∣ r.size ∧ r.size ≤ (info.procs p).dataSz) (ho : o < (info.procs p).dataSz) :
    (info.procs p).segment m' o = content ((info.procs p).segment m) rs o := by
  induction rs generalizing m with
  | nil => rw [h]; rfl
  | cons r rs ih =>
    obtain ⟨hdvd, hsize⟩ := hfits r List.mem_cons_self
    obtain ⟨m₁, -, -, hleave, hrest⟩ := session_cons hinfo hp h hdvd hsize
    rw [ih hrest fun r' hr' => hfits r' (List.mem_cons_of_mem _ hr')]
    exact content_congr (hleave o ho)

theorem session_call (h : Session info p m (pre ++ r :: post) m')
    (hfits : ∀ r' ∈ pre ++ r :: post, 4 ∣ r'.size ∧ r'.size ≤ (info.procs p).dataSz)
    (ho : o < (info.procs p).dataSz) :
    (r.dir = .read → o < r.size → r.got o = content ((info.procs p).segment m) pre o) ∧
      r.left o = content ((info.procs p).segment m) (pre ++ [r]) o := by
  obtain ⟨m₁, hpre, hpost⟩ := session_append h
  obtain ⟨hdvd, hsize⟩ := hfits r (List.mem_append_right _ List.mem_cons_self)
  obtain ⟨m₂, hgot, hleft, hleave, -⟩ := session_cons hinfo hp hpost hdvd hsize
  have hcontent := session_content hinfo hp hpre (fun r' hr' => hfits r' (List.mem_append_left _ hr')) ho
  constructor
  · intro hdir hlt
    rw [hgot, hdir, Dir.got, if_pos hlt, hcontent]
  · rw [hleft, hleave o ho, content_append]
    exact left_congr hcontent

theorem left_zero_iff (h : Session info p m (pre ++ r :: post) m')
    (hfits : ∀ r' ∈ pre ++ r :: post, 4 ∣ r'.size ∧ r'.size ≤ (info.procs p).dataSz) (hdir : r.dir = .read)
    (ho : o < r.size) : r.left o = 0 ↔ 4 ∣ o ∨ lastWritten ((info.procs p).segment m) pre o = 0 := by
  have hsize := (hfits r (List.mem_append_right _ List.mem_cons_self)).2
  have hleft := (session_call hinfo hp h hfits (Nat.lt_of_lt_of_le ho hsize)).2
  rw [hleft, content_append]
  change r.leave (content _ pre) o = 0 ↔ _
  rw [Message.leave, hdir, Dir.left]
  by_cases hword : 4 ∣ o
  · rw [if_pos ⟨ho, hword⟩]
    exact iff_of_true rfl (.inl hword)
  · rw [if_neg fun hboth => hword hboth.2, content_lastWritten hword]
    exact (or_iff_right hword).symm

theorem wiped_of_zero (h : Session info p m rs m') (halt : Alternate rs)
    (hfits : ∀ r ∈ rs, 4 ∣ r.size ∧ r.size ≤ (info.procs p).dataSz)
    (hzero : ∀ r ∈ rs, r.dir = .read → ∀ o < r.size, r.left o = 0) : Wiped rs := by
  have hroom {r : Message} (hr : r ∈ rs) {o : ℕ} (ho : o < r.size) : o < (info.procs p).dataSz :=
    Nat.lt_of_lt_of_le ho (hfits r hr).2
  constructor
  · exact hzero
  · intro pre w r post hrs hdir o how hor
    have hsplit : rs = (pre ++ [w]) ++ r :: post := by rw [hrs, List.append_assoc]; rfl
    have hr : r ∈ rs := hsplit ▸ List.mem_append_right _ List.mem_cons_self
    have hw : w.dir = .write := by
      have hne := List.isChain_iff_forall_rel_of_append_cons_cons.mp halt hrs
      cases hwdir : w.dir with
      | write => rfl
      | read => exact absurd (hwdir.trans hdir.symm) hne
    subst hsplit
    rw [(session_call hinfo hp h hfits (hroom hr hor)).1 hdir hor, content_append]
    change w.leave (content _ pre) o = _
    rw [Message.leave, hw, Dir.left, if_pos how]
  · intro pre r mid r' post hrs hdir hdir' o hor hor' hmid
    have hsplit : rs = (pre ++ r :: mid) ++ r' :: post := by rw [hrs, List.append_assoc]; rfl
    have hr : r ∈ rs := hrs ▸ List.mem_append_right _ List.mem_cons_self
    have hr' : r' ∈ rs := hsplit ▸ List.mem_append_right _ List.mem_cons_self
    have hleft := hzero r hr hdir o hor
    have hafter := (session_call hinfo hp (hrs ▸ h) (hrs ▸ hfits) (hroom hr hor)).2
    subst hsplit
    rw [(session_call hinfo hp h hfits (hroom hr' hor')).1 hdir' hor', List.append_cons, content_append]
    exact content_zero (hafter.symm.trans hleft) hmid

end Sequence

theorem messages_wiped_iff {i : Option ShmCreateInfo} {info : ShmCreateInfo} (hi : pShmCreateCheck i = .ok info)
    {p : ℕ} (hp : p < info.procCount) {m m' : Mem} {rs : List Message} (h : Session info p m rs m')
    (halt : Alternate rs) (hfits : ∀ r ∈ rs, 4 ∣ r.size ∧ r.size ≤ (info.procs p).dataSz) :
    Wiped rs ↔ ∀ pre r post, rs = pre ++ r :: post → r.dir = .read → ∀ o < r.size, ¬4 ∣ o →
      lastWritten ((info.procs p).segment m) pre o = 0 := by
  have hinfo := (pShmCreateCheck_ok hi).2
  constructor
  · rintro hwiped pre r post rfl hdir o ho hword
    have hleft := hwiped.zero r (List.mem_append_right _ List.mem_cons_self) hdir o ho
    exact ((left_zero_iff hinfo hp h hfits hdir ho).mp hleft).resolve_left hword
  · intro hlast
    apply wiped_of_zero hinfo hp h halt hfits
    intro r hr hdir o ho
    obtain ⟨pre, post, rfl⟩ := List.append_of_mem hr
    rw [left_zero_iff hinfo hp h hfits hdir ho]
    by_cases hword : 4 ∣ o
    · exact .inl hword
    · exact .inr (hlast pre r post rfl hdir o ho hword)

def singleSegment : ShmCreateInfo := ⟨[0x2F], 16, 1, by decide⟩

theorem solo_segment {procs : ℕ → ShmProc} {proc : ShmProc} {x₀ : Transfer} {m₀ : Mem} {turns : List Turn}
    {r r' : List Move × Transfer × Mem} (h : SegmentRun procs proc x₀ m₀ r.2.1 r.2.2)
    (hr : solo procs turns r = some r') : SegmentRun procs proc x₀ m₀ r'.2.1 r'.2.2 := by
  induction turns generalizing r with
  | nil => cases hr; exact h
  | cons turn turns ih =>
    obtain ⟨⟨x', m'⟩, hstep, hrest⟩ := Option.bind_eq_some_iff.mp hr
    exact ih (h.own hstep) hrest

theorem word_session (buf : Mem) {q : Mem → Prop} [DecidablePred q]
    (hrun : (solo singleSegment.procs (List.replicate 7 .plain)
      ([], udoShmDataWrite ⟨false, 4, 0⟩ buf 0, fresh)).any (fun r => r.2.1.pc = .done 0 ∧
        (solo singleSegment.procs (List.replicate 8 .plain)
          ([], udoShmDataRead ⟨false, 4, 0⟩ (fun _ => 0) 0, r.2.2)).any fun r' => r'.2.1.pc = .done 0 ∧
            q ((singleSegment.procs 0).segment r'.2.2)) = true) :
    ∃ m w r, w.dir = .write ∧ w.size = 4 ∧ w.buf = buf ∧ r.dir = .read ∧ r.size = 4 ∧ q r.left ∧
      Session singleSegment 0 fresh [w, r] m := by
  obtain ⟨⟨vs, x, m⟩, hw, hq⟩ := (Option.any_eq_true _ _).mp hrun
  obtain ⟨hdone, hread⟩ := of_decide_eq_true hq
  obtain ⟨⟨vs', x', m'⟩, hr, hq'⟩ := (Option.any_eq_true _ _).mp hread
  obtain ⟨hdone', hleft⟩ := of_decide_eq_true hq'
  exact ⟨m', ⟨.write, 4, buf, x.buf, (singleSegment.procs 0).segment m⟩,
    ⟨.read, 4, fun _ => 0, x'.buf, (singleSegment.procs 0).segment m'⟩, rfl, rfl, rfl, rfl, rfl, hleft,
    0, x, m, solo_segment .entry hw, hdone, rfl, rfl, 0, x', m', solo_segment .entry hr, hdone', rfl, rfl, rfl⟩

theorem messages_wiped_flag : ∃ w r : Message, w.dir = .write ∧ w.buf 0 = 7 ∧ r.dir = .read ∧ Wiped [w, r] := by
  obtain ⟨m, w, r, hw, hwsize, hbuf, hr, hrsize, -, hsession⟩ :=
    word_session (fun o => if o = 0 then 7 else 0) (q := fun _ => True) (by decide)
  refine ⟨w, r, hw, by rw [hbuf]; rfl, hr, (messages_wiped_iff (i := some singleSegment) rfl (by decide) hsession
    (by simp [Alternate, hw, hr]) (by simp [hwsize, hrsize]; decide)).mpr ?_⟩
  intro pre r' post hsplit hdir o ho hword
  rcases pre with _ | ⟨a, _ | ⟨b, pre⟩⟩
  · obtain ⟨rfl, -⟩ := List.cons.inj hsplit
    cases hw.symm.trans hdir
  · simp only [List.cons_append, List.nil_append, List.cons.injEq] at hsplit
    obtain ⟨rfl, rfl, -⟩ := hsplit
    have hne : o ≠ 0 := by
      rintro rfl
      exact hword (Nat.dvd_zero 4)
    change w.record _ o = 0
    simp [Message.record, hw, hbuf, hwsize, hrsize ▸ ho, hne]
  · simp at hsplit

theorem messages_unwiped : ¬ ∀ (i : Option ShmCreateInfo) (info : ShmCreateInfo) (p : ℕ) (m m' : Mem)
    (rs : List Message), pShmCreateCheck i = .ok info → p < info.procCount → Session info p m rs m' → Alternate rs →
    (∀ r ∈ rs, 4 ∣ r.size ∧ r.size ≤ (info.procs p).dataSz) → Wiped rs := by
  intro wiped
  obtain ⟨m, w, r, hw, hwsize, -, hr, hrsize, hleft, hsession⟩ :=
    word_session (fun _ => 7) (q := fun seg => seg 1 = 7) (by decide)
  have hwiped := wiped (some singleSegment) _ 0 _ _ _ rfl (by decide) hsession (by simp [Alternate, hw, hr])
    (by simp [hwsize, hrsize]; decide)
  have hzero := hwiped.zero r (by simp) hr 1 (by rw [hrsize]; decide)
  exact absurd (hleft.symm.trans hzero) (by decide)

end Libcando.Shm
