import Libcando.JobQueue
import Mathlib.Data.List.Infix

namespace Libcando.Jpool

open ByteMemory Futex

theorem prefix_next {α : Type*} {l₁ l₂ : List α} {a : α} (h : l₁ <+: l₂) (ha : l₂[l₁.length]? = some a) :
    l₁ ++ [a] <+: l₂ := by
  obtain ⟨hlt, rfl⟩ := List.getElem?_eq_some_iff.mp ha
  exact List.concat_get_prefix h hlt

namespace Thread.Live

variable {strict : Prop} {cap k off : ℕ} {x : Thread} {st : Stage} {slot : ℕ → Slot}

theorem found (h : x.Live strict cap st slot k) (ho : x.pc.outside = true) (hlt : x.front < x.rear)
    (hst : st ≠ .cleared) : Live strict cap { x with pc := .addFront, extra := false } st slot k := by
  obtain ⟨hu, hc, hr, hl, hf, hg⟩ := WorkerPc.outside_lags ho
  have hfront := h.front
  have hrear := h.rear
  rw [if_neg hst] at hfront
  refine h.move false hu.symm hc.symm hr.symm hl.symm hf.symm hg.symm ⟨rfl, ?_⟩
  show k < x.cur.length
  omega

theorem getElem_placed (h : x.Live strict cap st slot k) (hk : k < x.cur.length) :
    (x.old ++ x.cur)[x.taken.length]? = some x.cur[k] ∧ x.cur[k].off = 16 * k := by
  have hcur : x.cur[k]? = some x.cur[k] := List.getElem?_eq_getElem hk
  refine ⟨?_, (h.offs k _ hcur).1⟩
  rw [List.getElem?_append_right (by rw [h.took]; omega), h.took, Nat.add_sub_cancel_left, hcur]

theorem addFront (h : x.Live strict cap st slot k) (hcap : cap < wordMax) (hpc : x.pc = .addFront) :
    Live strict cap { x with
      pc := .loadFunc x.front
      front := (x.front + sizeofJob) % wordMax
      taken := if x.extra then x.taken else x.taken ++ [x.front] } st slot (k + 1) := by
  have hst := h.uncleared (by rw [hpc]; rfl)
  have hfront := h.front
  rw [if_neg hst] at hfront
  obtain ⟨hext, hlt⟩ : x.extra = false ∧ k < x.cur.length := by simpa only [Round, hpc] using h.round
  have hplaced := h.getElem_placed hlt
  have hroom := h.room
  have htook := h.took
  obtain ⟨-, -, hcalls, hreturns, hfinishes, hslots⟩ := h.lags hpc
  have htaken : (if x.extra then x.taken else x.taken ++ [x.front]) = x.taken ++ [x.front] :=
    if_neg (by rw [hext]; exact Bool.false_ne_true)
  rw [htaken]
  have hlen : (x.taken ++ [x.front]).length = x.taken.length + 1 := List.length_append
  refine { h with
    took := ?_, le := hlt, front := ?_, func := ?_, arg := ?_, slots := ?_, taken := ?_, calls := ?_,
    returns := ?_, finishes := ?_, round := ⟨hext, ?_, ?_⟩ }
  · rw [hlen, htook, Nat.add_assoc]
  · rw [if_neg hst]
    dsimp only [sizeofJob]
    rw [Nat.mod_eq_of_lt (by omega)]
    omega
  · exact fun _ => Nat.succ_lt_succ hlt
  · exact fun _ => Nat.succ_lt_succ hlt
  · rw [hslots]
    funext j
    simp only [content, WorkerPc.clearLag, WorkerPc.clearing, Nat.add_lt_add_iff_right, Nat.add_zero,
      Bool.false_eq_true, false_and]
  · apply prefix_next h.taken
    show ((x.old ++ x.cur).map Placement.off)[x.taken.length]? = some x.front
    rw [List.getElem?_map, hplaced.1, Option.map_some, hplaced.2, hfront]
  · rw [hlen, ← hcalls]; rfl
  · rw [hlen, ← hreturns]; rfl
  · rw [hlen, ← hfinishes]; rfl
  · show k + 1 = x.front / 16 + 1
    omega
  · show x.front % 16 = 0
    omega

theorem slot_taken (h : x.Live strict cap st slot k) (hk : k = off / 16 + 1) (hoff : off % 16 = 0)
    (hl : x.pc.clearLag = 1) (hg : x.pc.clearing = false) :
    ∃ job, x.cur[off / 16]? = some ⟨off, job⟩ ∧ job.func ≠ 0 ∧
      ((st.blankFunc = true → k < x.cur.length) → (slot (off / 16)).1 = job.func) ∧
      ((st.blankArg = true → k < x.cur.length) → (slot (off / 16)).2 = job.arg) := by
  have hle := h.le
  obtain ⟨⟨off', job⟩, hp⟩ : ∃ p, x.cur[off / 16]? = some p :=
    ⟨_, List.getElem?_eq_getElem (by omega)⟩
  obtain ⟨hpoff, hfunc⟩ := h.offs _ _ hp
  obtain rfl : off' = off := by
    dsimp only at hpoff
    omega
  have hlast {b : Bool} (hb : b = true → k < x.cur.length) : ¬(b = true ∧ off' / 16 + 1 = x.cur.length) :=
    fun ⟨hbt, he⟩ => absurd (hb hbt) (by omega)
  refine ⟨job, hp, hfunc, fun hb => ?_, fun hb => ?_⟩
  · rw [h.slots]
    simp only [content, hp, hl, hg, hk, Nat.lt_irrefl, if_false, hlast hb, Bool.false_eq_true, false_and,
      or_false]
  · rw [h.slots]
    simp only [content, hp, hl, hk, Nat.lt_irrefl, if_false, hlast hb]

theorem unreserved (h : x.Live strict cap st slot k) (hk : k = off / 16 + 1) (hoff : off % 16 = 0)
    (hst : st.slot ≠ some off) : st.uncounted = 0 ∨ st.uncounted = 1 ∧ k < x.cur.length := by
  have hle := h.le
  cases st with
  | reserved off' job | half off' job | stored off' =>
    have hlast := h.last off' rfl
    have hne : off' ≠ off := by
      rintro rfl
      exact hst rfl
    exact .inr ⟨rfl, by omega⟩
  | _ => exact .inl rfl

theorem loadFunc (h : x.Live strict cap st slot k) (hpc : x.pc = .loadFunc off)
    (hst : st.blankFunc = true → st.slot ≠ some off) : (slot (off / 16)).1 ≠ 0 ∧
      Live strict cap { x with pc := .loadArg off (slot (off / 16)).1 } st slot k := by
  obtain ⟨hext, hk, hoff⟩ : x.extra = false ∧ k = off / 16 + 1 ∧ off % 16 = 0 := by
    simpa only [Round, hpc] using h.round
  have hfunc : st.blankFunc = true → k < x.cur.length := by
    intro hb
    exact ((h.unreserved hk hoff (hst hb)).resolve_left (Stage.blank_uncounted (.inl hb))).2
  obtain ⟨⟨func, arg⟩, hp, hne, hf, -⟩ := h.slot_taken hk hoff (by rw [hpc]; rfl) (by rw [hpc]; rfl)
  have hslot := hf hfunc
  obtain ⟨-, harg, hcalls, hreturns, hfinishes, hslots⟩ := h.lags hpc
  rw [hslot]
  refine ⟨hne, { h with
    func := hfunc, arg := harg, slots := hslots, calls := hcalls, returns := hreturns, finishes := hfinishes,
    round := ⟨hext, hk, hoff, arg, hp⟩ }⟩

theorem loadArg {func : UInt64} (h : x.Live strict cap st slot k) (hpc : x.pc = .loadArg off func)
    (hst : st.blankArg = true → st.slot ≠ some off) : Live strict cap { x with
      pc := .running off ⟨func, (slot (off / 16)).2⟩
      called := x.called ++ [⟨off, func, (slot (off / 16)).2⟩] } st slot k := by
  obtain ⟨hext, hk, hoff, arg, hp⟩ : x.extra = false ∧ k = off / 16 + 1 ∧ off % 16 = 0 ∧
      ∃ arg, x.cur[off / 16]? = some ⟨off, func, arg⟩ := by simpa only [Round, hpc] using h.round
  obtain ⟨hfunc, -, hcalls, hreturns, hfinishes, hslots⟩ := h.lags hpc
  have harg : st.blankArg = true → k < x.cur.length := by
    intro hb
    exact ((h.unreserved hk hoff (hst hb)).resolve_left (Stage.blank_uncounted (.inr hb))).2
  obtain ⟨job, hp', -, -, ha⟩ := h.slot_taken hk hoff (by rw [hpc]; rfl) (by rw [hpc]; rfl)
  obtain rfl : (⟨func, arg⟩ : Job) = job := by
    rw [hp] at hp'
    injection hp' with hp'
    injection hp'
  have hplaced : (x.old ++ x.cur)[x.called.length]? = some ⟨off, func, arg⟩ := by
    have htook := h.took
    have hlen : x.called.length = x.old.length + off / 16 := by
      simp only [WorkerPc.callLag] at hcalls
      omega
    rw [hlen, List.getElem?_append_right (by omega), Nat.add_sub_cancel_left, hp]
  rw [ha harg]
  refine { h with
    func := hfunc, arg := harg, slots := hslots, called := prefix_next h.called hplaced, calls := ?_,
    returns := hreturns, finishes := hfinishes, round := ⟨hext, hk, hoff, hp⟩ }
  rw [← hcalls, List.length_append]
  rfl

theorem ran {job : Job} (h : x.Live strict cap st slot k) (hpc : x.pc = .running off job) :
    Live strict cap { x with pc := .resetFunc off, returned := x.returned + 1 } st slot k := by
  obtain ⟨hext, hk, hoff, -⟩ : x.extra = false ∧ k = off / 16 + 1 ∧ off % 16 = 0 ∧
      x.cur[off / 16]? = some ⟨off, job⟩ := by simpa only [Round, hpc] using h.round
  obtain ⟨hfunc, harg, hcalls, hreturns, hfinishes, hslots⟩ := h.lags hpc
  exact { h with
    func := hfunc, arg := harg, slots := hslots, calls := hcalls, returns := hreturns, finishes := hfinishes,
    round := ⟨hext, hk, hoff⟩ }

theorem resetFunc (h : x.Live strict cap st slot k) (hpc : x.pc = .resetFunc off) :
    Live strict cap { x with pc := .resetArg off } st
      (Function.update slot (off / 16) (0, (slot (off / 16)).2)) k := by
  obtain ⟨hext, hk, hoff⟩ : x.extra = false ∧ k = off / 16 + 1 ∧ off % 16 = 0 := by
    simpa only [Round, hpc] using h.round
  obtain ⟨hfunc, harg, hcalls, hreturns, hfinishes, hslots⟩ := h.lags hpc
  exact { h with
    func := hfunc
    arg := harg
    slots := by
      rw [hslots, hk]
      exact (content_clearFunc x.cur st (off / 16)).symm
    calls := hcalls
    returns := hreturns
    finishes := hfinishes
    round := ⟨hext, hk, hoff⟩ }

theorem resetArg (h : x.Live strict cap st slot k) (hpc : x.pc = .resetArg off) :
    Live strict cap { x with pc := .subCount off } st
      (Function.update slot (off / 16) ((slot (off / 16)).1, 0)) k := by
  obtain ⟨hext, hk, hoff⟩ : x.extra = false ∧ k = off / 16 + 1 ∧ off % 16 = 0 := by
    simpa only [Round, hpc] using h.round
  obtain ⟨hfunc, harg, hcalls, hreturns, hfinishes, hslots⟩ := h.lags hpc
  exact { h with
    func := hfunc
    arg := harg
    slots := by
      rw [hslots, hk]
      exact (content_clearArg x.cur st (off / 16)).symm
    calls := hcalls
    returns := hreturns
    finishes := hfinishes
    round := ⟨hext, hk, hoff⟩ }

theorem subCount_pos (h : x.Live strict cap st slot k) (hpc : x.pc = .subCount off) (hs : strict)
    (hst : st.slot ≠ some off) : 0 < x.jobCount := by
  obtain ⟨-, hk, hoff⟩ : x.extra = false ∧ k = off / 16 + 1 ∧ off % 16 = 0 := by
    simpa only [Round, hpc] using h.round
  have hexact := h.exact hs
  have hle := h.le
  have htook := h.took
  have hlast := h.unreserved hk hoff hst
  have hfinishes := h.finishes
  simp only [hpc, WorkerPc.finishLag] at hfinishes
  omega

theorem subCount (h : x.Live strict cap st slot k) (hpc : x.pc = .subCount off)
    (hst : strict → st.slot ≠ some off) : Live strict cap { x with
      pc := .canLoop
      jobCount := (x.jobCount + wordMax - 1) % wordMax
      finished := if x.extra then x.finished else x.finished + 1 } st slot k := by
  obtain ⟨hext, hk, hoff⟩ : x.extra = false ∧ k = off / 16 + 1 ∧ off % 16 = 0 := by
    simpa only [Round, hpc] using h.round
  obtain ⟨hfunc, harg, hcalls, hreturns, hfinishes, hslots⟩ := h.lags hpc
  obtain ⟨hlt, hcount⟩ := h.count
  obtain ⟨c, hc⟩ : ∃ c, (x.jobCount + wordMax - 1) % wordMax = c := ⟨_, rfl⟩
  have hfinished : (if x.extra then x.finished else x.finished + 1) = x.finished + 1 :=
    if_neg (by rw [hext]; exact Bool.false_ne_true)
  rw [hc, hfinished]
  refine { h with
    func := hfunc, arg := harg, slots := hslots, calls := hcalls, returns := hreturns, finishes := hfinishes,
    round := trivial, count := ?_, exact := fun hs => ?_, still := fun hs => ?_ }
  · simp only [wordMax] at hlt hcount hc ⊢
    omega
  · have hpos := h.subCount_pos hpc hs (hst hs)
    have hexact := h.exact hs
    simp only [wordMax] at hlt hc
    dsimp only
    omega
  · have hrest := (h.at_rest (h.still hs)).2
    rw [hpc] at hrest
    cases hrest

end Thread.Live

end Libcando.Jpool
