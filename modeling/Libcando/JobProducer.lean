import Libcando.JobQueue

namespace Libcando.Jpool

open ByteMemory Futex

section Content

variable {cur : List Placement} {lag k i off : ℕ} {clearing : Bool} {job : Job}

theorem content_reserve (cur : List Placement) (p : Placement) (off : ℕ) (job : Job) (lag : ℕ)
    (clearing : Bool) (k : ℕ) :
    content (cur ++ [p]) (.reserved off job) lag clearing k = content cur .ready lag clearing k := by
  funext j
  rcases Nat.lt_trichotomy j cur.length with hj | rfl | hj
  · have hlen : ¬j + 1 = (cur ++ [p]).length := by rw [List.length_append, List.length_singleton]; omega
    simp only [content, List.getElem?_append_left hj, hlen, and_false, Stage.blankFunc, Stage.blankArg,
      Bool.false_eq_true, false_and]
  · simp [content, Stage.blankFunc, Stage.blankArg]
  · have hnone : (cur ++ [p])[j]? = none :=
      List.getElem?_eq_none (by rw [List.length_append, List.length_singleton]; omega)
    simp only [content, hnone, List.getElem?_eq_none hj.le]

theorem content_storeFunc (hlast : cur[i]? = some ⟨off, job⟩) (hi : i + 1 = cur.length) (hk : k ≤ i + lag)
    (hc : clearing = true → k ≤ i) : content cur (.half off job) lag clearing k =
      Function.update (content cur (.reserved off job) lag clearing k) i
        (job.func, (content cur (.reserved off job) lag clearing k i).2) := by
  funext j
  by_cases hj : j = i
  · subst hj
    have hne : ¬(clearing = true ∧ j + 1 = k) := fun ⟨h, he⟩ => absurd (hc h) (by omega)
    rw [Function.update_self]
    simp only [content, hlast, Nat.not_lt.mpr hk, hi ▸ hne, if_false, Stage.blankFunc, Stage.blankArg,
      Bool.false_eq_true, false_and, or_false, hi, and_self, if_true]
  · have hlen : ¬j + 1 = cur.length := by omega
    rw [Function.update_of_ne hj]
    simp only [content, hlen, and_false]

theorem content_storeArg (hlast : cur[i]? = some ⟨off, job⟩) (hi : i + 1 = cur.length) (hk : k ≤ i + lag) :
    content cur (.stored off) lag clearing k =
      Function.update (content cur (.half off job) lag clearing k) i
        ((content cur (.half off job) lag clearing k i).1, job.arg) := by
  funext j
  by_cases hj : j = i
  · subst hj
    rw [Function.update_self]
    simp only [content, hlast, Nat.not_lt.mpr hk, if_false, Stage.blankFunc, Stage.blankArg,
      Bool.false_eq_true, false_and]
  · have hlen : ¬j + 1 = cur.length := by omega
    rw [Function.update_of_ne hj]
    simp only [content, hlen, and_false, Stage.blankFunc, Bool.false_eq_true]

theorem content_blank (cur : List Placement) (st : Stage) (clearing : Bool) :
    content cur st 0 clearing cur.length = fun _ => (0, 0) := by
  funext j
  rcases Nat.lt_or_ge j cur.length with hj | hj
  · simp only [content, List.getElem?_eq_getElem hj, Nat.add_zero, if_pos hj]
  · simp only [content, List.getElem?_eq_none hj]

end Content

namespace Thread.Live

variable {strict : Prop} {cap k off : ℕ} {x : Thread} {st : Stage} {slot : ℕ → Slot} {job : Job}

theorem restage (h : x.Live strict cap st slot k) (hp : st.plain = true) {st' : Stage}
    (hp' : st'.plain = true) (hroom : 16 * x.cur.length + (if st' = .ready then 16 else 0) ≤ cap)
    (hstill : st'.still = true → x.finished = x.old.length + x.cur.length)
    (hclosed : st' = .closing → x.cur = []) : x.Live strict cap st' slot k := by
  obtain ⟨hf, ha, -, hu, hc, -⟩ := Stage.plain_facts hp
  obtain ⟨hf', ha', hs', hu', hc', hj'⟩ := Stage.plain_facts hp'
  refine { h with
    front := ?_, room := hroom, last := ?_, job := fun off job he => absurd he (hj' off job), func := ?_,
    arg := ?_, slots := ?_, count := hu' ▸ hu ▸ h.count, exact := hu' ▸ hu ▸ h.exact, still := hstill,
    closed := hclosed }
  · rw [h.front, if_neg hc, if_neg hc']
  · rw [hs']; exact nofun
  · rw [hf']; exact nofun
  · rw [ha']; exact nofun
  · rw [h.slots]
    funext j
    simp only [content, hf, ha, hf', ha']

theorem drained (h : x.Live strict cap .away slot k) (hcap : cap < wordMax) (hzero : x.jobCount = 0) :
    x.Live strict cap .drained slot k := by
  have hdone : x.finished = x.old.length + x.cur.length := by
    have hcount := h.count.2
    have htook := h.took
    have hle := h.le
    have hroom := h.room
    have hfin := h.finishes
    have hlag : x.pc.finishLag ≤ 1 := by cases x.pc <;> simp [WorkerPc.finishLag]
    rw [hzero] at hcount
    simp only [wordMax, Stage.uncounted] at hcap hcount
    omega
  refine h.restage rfl rfl h.room (fun _ => hdone) ?_
  intro hst
  cases hst

theorem resetFree (h : x.Live strict cap .drained slot k) :
    Live strict cap { x with jobFree := 0 } .drained slot k :=
  { h with free := show 0 ≠ futexUnlockForce by decide }

theorem resetCount (h : x.Live strict cap .drained slot k) :
    Live strict cap { x with jobCount := 0 } .drained slot k := by
  have hdone := h.still rfl
  refine { h with count := ⟨Nat.two_pow_pos 32, ?_⟩, exact := fun _ => ?_ }
  · rw [← hdone]; simp [Stage.uncounted]
  · rw [← hdone]; simp [Stage.uncounted]

theorem resetFront (h : x.Live strict cap .drained slot k) :
    Live strict cap { x with front := 0 } .cleared slot k :=
  { h with
    front := rfl
    room := h.room
    last := nofun
    job := nofun
    func := nofun
    arg := nofun
    closed := nofun }

theorem resetRear (h : x.Live strict cap .cleared slot k) (hcap : 16 ≤ cap) {st' : Stage}
    (hp' : st'.plain = true) :
    Live strict cap { x with rear := 0, old := x.old ++ x.cur, cur := [] } st' slot 0 := by
  obtain ⟨hf', ha', hs', hu', hc', hj'⟩ := Stage.plain_facts hp'
  have hdone := h.still rfl
  obtain ⟨hk, ho⟩ := h.at_rest hdone
  obtain ⟨hu, hc, hr, hl, hf, hg⟩ := WorkerPc.outside_lags ho
  have htook := h.took
  have hlen : (x.old ++ x.cur).length = x.old.length + x.cur.length := List.length_append
  refine { h with
    took := ?_, le := le_rfl, rear := rfl, front := ?_, room := ?_, offs := nofun, last := ?_,
    job := fun off job he => absurd he (hj' off job), func := ?_, arg := ?_, slots := ?_, taken := ?_,
    called := ?_, round := ?_, count := ?_, exact := fun hs => ?_, still := fun _ => ?_, closed := fun _ => rfl }
  · rw [hlen, htook, hk, Nat.add_zero]
  · rw [h.front, if_pos rfl, if_neg hc', Nat.mul_zero]
  · show 16 * 0 + _ ≤ cap
    split_ifs <;> omega
  · rw [hs']; exact nofun
  · rw [hf']; exact nofun
  · rw [ha']; exact nofun
  · rw [h.slots, hl, hg, hk, content_blank]
    exact (content_blank [] st' false).symm
  · simpa only [List.append_nil] using h.taken
  · simpa only [List.append_nil] using h.called
  · cases hpc : x.pc <;> first | trivial | (rw [hpc] at ho; cases ho)
  · rw [hlen, hu']; exact h.count
  · rw [hlen, hu']; exact h.exact hs
  · rw [hlen]; exact hdone

theorem offs_concat (h : x.Live strict cap .ready slot k) (hjob : job.func ≠ 0) (j : ℕ) (p : Placement)
    (hp : (x.cur ++ [⟨x.rear, job⟩])[j]? = some p) : p.off = 16 * j ∧ p.job.func ≠ 0 := by
  rcases Nat.lt_trichotomy j x.cur.length with hj | rfl | hj
  · rw [List.getElem?_append_left hj] at hp
    exact h.offs j p hp
  · rw [List.getElem?_concat_length] at hp
    cases hp
    exact ⟨h.rear, hjob⟩
  · rw [List.getElem?_eq_none (by rw [List.length_append, List.length_singleton]; omega)] at hp
    cases hp

theorem round_concat (h : x.Round k) (p : Placement) (rear : ℕ) : Round { x with rear, cur := x.cur ++ [p] } k := by
  have hsub {j : ℕ} {q : Placement} (hq : x.cur[j]? = some q) : (x.cur ++ [p])[j]? = some q := by
    rw [List.getElem?_append_left (List.getElem?_eq_some_iff.mp hq).1, hq]
  cases hpc : x.pc with
  | addFront =>
    simp only [Round, hpc] at h ⊢
    refine ⟨h.1, ?_⟩
    rw [List.length_append]
    exact Nat.lt_add_right _ h.2
  | loadArg off func =>
    simp only [Round, hpc] at h ⊢
    obtain ⟨hext, hk, hoff, arg, hq⟩ := h
    exact ⟨hext, hk, hoff, arg, hsub hq⟩
  | running off job =>
    simp only [Round, hpc] at h ⊢
    obtain ⟨hext, hk, hoff, hq⟩ := h
    exact ⟨hext, hk, hoff, hsub hq⟩
  | _ => simp only [Round, hpc] at h ⊢ <;> exact h

theorem addRear (h : x.Live strict cap .ready slot k) (hcap : cap < wordMax) (hjob : job.func ≠ 0) :
    Live strict cap { x with
      rear := (x.rear + sizeofJob) % wordMax
      cur := x.cur ++ [⟨x.rear, job⟩] } (.reserved x.rear job) slot k := by
  have hrear := h.rear
  have hroom := h.room
  have hle := h.le
  rw [if_pos rfl] at hroom
  have hlen : (x.cur ++ [Placement.mk x.rear job]).length = x.cur.length + 1 := List.length_append
  refine { h with
    le := ?_, rear := ?_, room := ?_, offs := h.offs_concat hjob, last := ?_, job := ?_, func := fun _ => ?_,
    arg := fun _ => ?_, slots := ?_, taken := ?_, called := ?_, round := round_concat h.round _ _, count := ?_,
    exact := fun hs => ?_, still := nofun, closed := nofun }
  · rw [hlen]; omega
  · rw [hlen]
    dsimp only [sizeofJob]
    rw [Nat.mod_eq_of_lt (by omega)]
    omega
  · rw [hlen, if_neg nofun]
    omega
  · intro off hoff
    cases hoff
    rw [hlen]
    omega
  · rintro off job (he | he)
    · cases he
      exact List.getLast?_concat
    · cases he
  · dsimp only
    rw [hlen]
    omega
  · dsimp only
    rw [hlen]
    omega
  · rw [h.slots]
    exact (content_reserve ..).symm
  · apply h.taken.trans
    simp only [← List.append_assoc, List.map_append]
    exact List.prefix_append _ _
  · apply h.called.trans
    simp only [← List.append_assoc]
    exact List.prefix_append _ _
  · refine ⟨h.count.1, ?_⟩
    have hcount := h.count.2
    simp only [Stage.uncounted, Nat.add_zero] at hcount ⊢
    rw [hlen, ← Nat.add_assoc, Nat.add_mod, hcount, ← Nat.add_mod]
  · have hexact := h.exact hs
    simp only [Stage.uncounted, Nat.add_zero] at hexact ⊢
    rw [hlen, hexact, Nat.add_assoc]

theorem getElem_reserved (h : x.Live strict cap st slot k) (hst : st = .reserved off job ∨ st = .half off job) :
    x.cur[off / 16]? = some ⟨off, job⟩ ∧ off / 16 + 1 = x.cur.length := by
  have hlast : 16 * x.cur.length = off + 16 := by
    rcases hst with rfl | rfl <;> exact h.last off rfl
  have hi : x.cur.length - 1 = off / 16 := by omega
  refine ⟨?_, by omega⟩
  rw [← hi, ← List.getLast?_eq_getElem?]
  exact h.job off job hst

theorem storeFunc (h : x.Live strict cap (.reserved off job) slot k) :
    x.Live strict cap (.half off job) (Function.update slot (off / 16) (job.func, (slot (off / 16)).2)) k := by
  obtain ⟨hp, hi⟩ := h.getElem_reserved (.inl rfl)
  obtain ⟨hfc, hcc, hclear⟩ := x.pc.lags_le
  have hk := h.func rfl
  refine { h with
    front := h.front, room := h.room, last := h.last, func := nofun, job := ?_, slots := ?_, still := nofun,
    closed := nofun }
  · rintro off' job' (he | he)
    · cases he
    · cases he
      exact h.job off job (.inl rfl)
  · rw [h.slots]
    refine (content_storeFunc hp hi (by omega) fun hg => ?_).symm
    have := hclear hg
    omega

theorem storeArg (h : x.Live strict cap (.half off job) slot k) :
    x.Live strict cap (.stored off) (Function.update slot (off / 16) ((slot (off / 16)).1, job.arg)) k := by
  obtain ⟨hp, hi⟩ := h.getElem_reserved (.inr rfl)
  obtain ⟨-, hcc, -⟩ := x.pc.lags_le
  have hk := h.arg rfl
  refine { h with
    front := h.front, room := h.room, last := h.last, func := nofun, arg := nofun, job := nofun, slots := ?_,
    still := nofun, closed := nofun }
  rw [h.slots]
  exact (content_storeArg hp hi (by omega)).symm

theorem addCount (h : x.Live strict cap (.stored off) slot k) (hcap : cap < wordMax) :
    Live strict cap { x with jobCount := (x.jobCount + 1) % wordMax } .away slot k := by
  obtain ⟨hlt, hcount⟩ := h.count
  obtain ⟨c, hc⟩ : ∃ c, (x.jobCount + 1) % wordMax = c := ⟨_, rfl⟩
  rw [hc]
  refine { h with
    front := h.front, room := h.room, last := nofun, func := nofun, arg := nofun, job := nofun,
    count := ?_, exact := fun hs => ?_, still := nofun, closed := nofun }
  · simp only [wordMax, Stage.uncounted] at hlt hcount hc ⊢
    omega
  · have hexact := h.exact hs
    have htook := h.took
    have hle := h.le
    have hroom := h.room
    have hfin := h.finishes
    have hlag : x.pc.finishLag ≤ 1 := by cases x.pc <;> simp [WorkerPc.finishLag]
    simp only [wordMax, Stage.uncounted] at hcap hexact hc ⊢
    omega

end Thread.Live

end Libcando.Jpool
