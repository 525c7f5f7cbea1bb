import Libcando.SocketCreates
import Libcando.Transition

namespace Libcando.SocketLife

open DescriptorTable Fds Transition

inductive Holder (K : Type)
  | app
  | context (k : K)
  deriving DecidableEq

structure Context where
  fd : ℤ
  free : Bool
  deriving DecidableEq

structure World (K : Type) where
  table : DescriptorTable (Holder K)
  contexts : K → Option Context
  ended : List (Option K × Holder K)

inductive Act (K : Type)
  | create (k : K) (heap : Bool) (c : SockCreate)
  | destroy (k : K)
  | accept (k : K) (c : SockAccept)
  | localVcid (a : UdpAnswers)
  | appOpen
  | appClose (fd : ℤ)

section Step

variable {K : Type} [DecidableEq K]

namespace World

def fds (s : World K) : Fds := start s.table.shape

def after (s : World K) (who : Option K) (a : Holder K) (w : Fds) : World K :=
  { s with
    table := s.table.retag a w.table
    ended := s.ended ++ w.closed.filterMap fun fd => (s.table.owner fd).map (who, ·) }

def place (s : World K) (k : K) (c : Option Context) : World K :=
  { s with contexts := Function.update s.contexts k c }

end World

def step : Act K → World K → Option (World K)
  | .create k heap c, s =>
    if heap = false ∧ c.calloc = false then none
    else match c.run s.fds with
      | .error w => some (s.after k (.context k) w)
      | .ok (fd, w) => some ((s.after k (.context k) w).place k (some ⟨fd, heap && c.marksFree⟩))
  | .destroy k, s =>
    match s.contexts k with
    | none => some s
    | some c =>
      some ((s.after k (.context k) (udoUdpDestroy c.fd s.fds)).place k (if c.free then none else some ⟨-1, false⟩))
  | .accept k c, s =>
    match s.contexts k with
    | none => some s
    | some _ => some (s.after k .app (c.run s.fds).2)
  | .localVcid a, s => some (s.after none .app (VsockUdp.udoVsockUdpGetLocalVcid a s.fds))
  | .appOpen, s => some { s with table := s.table.acquire .app }
  | .appClose fd, s => some { s with table := s.table.release fd }

def system (K : Type) [DecidableEq K] : System (World K) (Act K) where
  init s := (∀ k, s.contexts k = none) ∧ (∀ n k, s.table.owner n ≠ some (.context k)) ∧ s.ended = []
  step := step

/-- The application creates over no context that is in use, and closes its own descriptors only. -/
def Proper : Act K → World K → Prop
  | .create k _ _, s => ∀ c, s.contexts k = some c → c.fd = -1
  | .appClose fd, s => s.table.owner fd = some .app
  | _, _ => True

instance (l : Act K) (s : World K) : Decidable (Proper l s) :=
  match l with
  | .create k _ _ =>
    decidable_of_iff ((s.contexts k).all fun c => c.fd = -1) (by simp [Proper, Option.all_eq_true])
  | .appClose fd => inferInstanceAs (Decidable (s.table.owner fd = some .app))
  | .destroy _ | .accept _ _ | .localVcid _ | .appOpen => .isTrue trivial

end Step

structure Owned {K : Type} (s : World K) : Prop where
  own : ∀ k n, s.table.owner n = some (.context k) ↔ ∃ c, s.contexts k = some c ∧ c.fd = n ∧ c.fd ≠ -1
  ended : ∀ who whose, (who, whose) ∈ s.ended → ∃ k, who = some k ∧ whose = .context k

section After

variable {K : Type} {s : World K} {who : Option K} {a : Holder K} {w : Fds} {fd : ℤ}

theorem owner_fds (n : ℤ) : s.fds.table.owner n = (s.table.owner n).map fun _ => () := owner_shape n

theorem owner_eq_none (h : s.fds.table.owner fd = none) : s.table.owner fd = none := by
  rw [owner_fds] at h
  exact Option.map_eq_none_iff.mp h

theorem after_ended (h : Spared s.fds w) : (s.after who a w).ended = s.ended := by
  obtain ⟨calls, hcalls, hnone⟩ := h
  have hnil : (w.closed.filterMap fun fd => (s.table.owner fd).map (who, ·)) = [] := by
    apply List.filterMap_eq_nil_iff.mpr
    intro fd hfd
    obtain ⟨⟨fd', done⟩, hmem, rfl⟩ := List.mem_map.mp hfd
    obtain ⟨hcall, rfl⟩ := List.mem_filter.mp hmem
    rw [hcalls] at hcall
    rw [owner_eq_none (hnone _ hcall)]
    rfl
  rw [World.after, hnil, List.append_nil]

theorem after_restored (h : Restored s.fds w) (n : ℤ) : (s.after who a w).table.owner n = s.table.owner n :=
  owner_retag_same (h.owner n)

theorem after_opened (h : Opened s.fds fd w) (n : ℤ) :
    (s.after who a w).table.owner n = if n = fd then some a else s.table.owner n := by
  by_cases hn : n = fd
  · subst hn
    rw [World.after, owner_retag, h.owner, if_pos rfl, if_pos rfl, owner_eq_none h.unused]
    rfl
  · rw [if_neg hn]
    exact owner_retag_same ((h.owner n).trans (if_neg hn))

theorem after_destroyed (n : ℤ) :
    (s.after who a (udoUdpDestroy fd s.fds)).table.owner n = if n = fd then none else s.table.owner n := by
  have hclose : (udoUdpDestroy fd s.fds).table.owner n = if n = fd then none else s.fds.table.owner n := owner_close n
  by_cases hn : n = fd
  · rw [World.after, owner_retag, hclose, if_pos hn, if_pos hn]
    rfl
  · rw [if_neg hn]
    exact owner_retag_same (hclose.trans (if_neg hn))

theorem destroyed_ended : (s.after who a (udoUdpDestroy fd s.fds)).ended =
    s.ended ++ ((s.table.owner fd).map (who, ·)).toList := by
  have hcloses : (udoUdpDestroy fd s.fds).closes = [(fd, (s.fds.table.owner fd).isSome)] := rfl
  rw [World.after, closed, hcloses, owner_fds]
  cases howner : s.table.owner fd <;> simp [howner]

end After

namespace Owned

variable {K : Type} {s t : World K}

theorem of_same (h : Owned s) (howner : ∀ n, t.table.owner n = s.table.owner n)
    (hcontexts : t.contexts = s.contexts) (hended : t.ended = s.ended) : Owned t := by
  refine ⟨fun k n => ?_, hended ▸ h.ended⟩
  rw [howner, hcontexts]
  exact h.own k n

theorem of_app (h : Owned s) {fd : ℤ} {a : Option (Holder K)} (ha : ∀ k, a ≠ some (.context k))
    (hfd : ∀ k, s.table.owner fd ≠ some (.context k))
    (howner : ∀ n, t.table.owner n = if n = fd then a else s.table.owner n) (hcontexts : t.contexts = s.contexts)
    (hended : t.ended = s.ended) : Owned t := by
  refine ⟨fun k n => ?_, hended ▸ h.ended⟩
  rw [howner, hcontexts, ← h.own k n]
  by_cases hn : n = fd
  · rw [if_pos hn, hn]
    exact iff_of_false (ha k) (hfd k)
  · rw [if_neg hn]

variable [DecidableEq K]

theorem created (h : Owned s) {k : K} (hk : ∀ c, s.contexts k = some c → c.fd = -1) {fd : ℤ} {free : Bool}
    (hnonneg : 0 ≤ fd) (hunused : s.table.owner fd = none)
    (howner : ∀ n, t.table.owner n = if n = fd then some (.context k) else s.table.owner n)
    (hcontexts : t.contexts = s.contexts) (hended : t.ended = s.ended) : Owned (t.place k (some ⟨fd, free⟩)) := by
  refine ⟨fun j n => ?_, fun who whose hmem => h.ended who whose (hended ▸ hmem)⟩
  change t.table.owner n = _ ↔
    ∃ c, Function.update t.contexts k (some ⟨fd, free⟩) j = some c ∧ c.fd = n ∧ c.fd ≠ -1
  rw [howner, hcontexts]
  by_cases hj : j = k
  · subst hj
    rw [Function.update_self]
    constructor
    · intro hn
      split_ifs at hn with hfd
      · exact ⟨_, rfl, hfd.symm, by change fd ≠ -1; omega⟩
      · obtain ⟨c, hc, -, hne⟩ := (h.own j n).mp hn
        exact absurd (hk c hc) hne
    · rintro ⟨c, hc, hn, -⟩
      cases hc
      rw [if_pos hn.symm]
  · rw [Function.update_of_ne hj, ← h.own j n]
    by_cases hn : n = fd
    · subst hn
      rw [if_pos rfl, hunused]
      simp [Ne.symm hj]
    · rw [if_neg hn]

theorem destroyed (h : Owned s) {k : K} {c : Context} (hc : s.contexts k = some c) :
    Owned ((s.after k (.context k) (udoUdpDestroy c.fd s.fds)).place k
      (if c.free then none else some ⟨-1, false⟩)) := by
  have hown {b : Holder K} (hb : s.table.owner c.fd = some b) : b = .context k := by
    by_cases hfd : c.fd = -1
    · rw [hfd] at hb
      cases hb
    · have hk := (h.own k c.fd).mpr ⟨c, hc, rfl, hfd⟩
      exact Option.some.inj (hb.symm.trans hk)
  constructor
  · intro j n
    change (s.after k (.context k) (udoUdpDestroy c.fd s.fds)).table.owner n = _ ↔
      ∃ c', Function.update s.contexts k (if c.free then none else some ⟨-1, false⟩) j = some c' ∧
        c'.fd = n ∧ c'.fd ≠ -1
    rw [after_destroyed]
    by_cases hj : j = k
    · subst hj
      rw [Function.update_self]
      apply iff_of_false
      · intro hn
        split_ifs at hn with hfd
        obtain ⟨c', hc', hn', -⟩ := (h.own j n).mp hn
        cases hc.symm.trans hc'
        exact hfd hn'.symm
      · rintro ⟨c', hc', -, hne⟩
        split_ifs at hc'
        cases hc'
        exact hne rfl
    · rw [Function.update_of_ne hj, ← h.own j n]
      by_cases hn : n = c.fd
      · subst hn
        rw [if_pos rfl]
        apply iff_of_false (by simp)
        intro howner
        exact hj (Holder.context.inj (hown howner))
      · rw [if_neg hn]
  · intro who whose hmem
    change _ ∈ (s.after k (.context k) (udoUdpDestroy c.fd s.fds)).ended at hmem
    rw [destroyed_ended] at hmem
    rcases List.mem_append.mp hmem with hold | hnew
    · exact h.ended who whose hold
    · obtain ⟨b, hb, hpair⟩ := Option.map_eq_some_iff.mp (Option.mem_toList.mp hnew)
      cases hpair
      exact ⟨k, rfl, hown hb⟩

theorem step (h : Owned s) {l : Act K} (hok : Proper l s) (hs : SocketLife.step l s = some t) : Owned t := by
  cases l with
  | create k heap c =>
    rw [SocketLife.step] at hs
    split_ifs at hs
    have hsound := c.run_sound s.fds
    cases hrun : c.run s.fds with
    | error w =>
      rw [hrun] at hs hsound
      cases hs
      exact h.of_same (after_restored hsound) rfl (after_ended hsound.spared)
    | ok p =>
      rw [hrun] at hs hsound
      cases hs
      exact h.created hok hsound.nonneg (owner_eq_none hsound.unused) (after_opened hsound) rfl
        (after_ended hsound.spared)
  | destroy k =>
    rw [SocketLife.step] at hs
    cases hc : s.contexts k with
    | none =>
      rw [hc] at hs
      cases hs
      exact h
    | some c =>
      rw [hc] at hs
      cases hs
      exact h.destroyed hc
  | accept k c =>
    rw [SocketLife.step] at hs
    cases hc : s.contexts k with
    | none =>
      rw [hc] at hs
      cases hs
      exact h
    | some _ =>
      rw [hc] at hs
      cases hs
      rcases c.run_handed s.fds with ⟨-, hrestored⟩ | ⟨-, hopened⟩
      · exact h.of_same (after_restored hrestored) rfl (after_ended hrestored.spared)
      · have hfree := owner_eq_none hopened.unused
        exact h.of_app (by simp) (by simp [hfree]) (after_opened hopened) rfl (after_ended hopened.spared)
  | localVcid a =>
    cases hs
    have hrestored : Restored s.fds (VsockUdp.udoVsockUdpGetLocalVcid a s.fds) := by
      rw [VsockUdp.udoVsockUdpGetLocalVcid, VsockUdp.pVsockGetLocalVcid]
      split_ifs
      · exact (Restored.refl _).acquire.close
      · exact .refl _
    exact h.of_same (after_restored hrestored) rfl (after_ended hrestored.spared)
  | appOpen =>
    cases hs
    have hfree := owner_lowest s.table
    exact h.of_app (by simp) (by simp [hfree]) (fun n => owner_acquire n) rfl rfl
  | appClose fd =>
    cases hs
    have hfd : s.table.owner fd = some .app := hok
    exact h.of_app (by simp) (by simp [hfd]) (fun n => owner_release fd n) rfl rfl

end Owned

variable {K : Type} [DecidableEq K]

theorem owned {s : World K} (h : Reach (system K) Proper s) : Owned s := by
  induction h with
  | init h =>
    obtain ⟨hcontexts, howner, hended⟩ := h
    constructor
    · intro k n
      apply iff_of_false (howner n k)
      rintro ⟨c, hc, -⟩
      rw [hcontexts] at hc
      cases hc
    · simp [hended]
  | step _ hok hs ih => exact ih.step hok hs

theorem sockets_close_own {s : World K} (h : Reach (system K) Proper s) :
    (∀ who whose, (who, whose) ∈ s.ended → ∃ k, who = some k ∧ whose = .context k) ∧
      ∀ k n, s.table.owner n = some (.context k) ↔ ∃ c, s.contexts k = some c ∧ c.fd = n ∧ c.fd ≠ -1 :=
  ⟨(owned h).ended, (owned h).own⟩

theorem sockets_close_own_again : ∃ s : World Bool,
    Reach (system Bool) Proper s ∧ s.contexts false = some ⟨-1, false⟩ ∧ s.table.owner 0 = some .app ∧
      ∀ who whose, (who, whose) ∈ s.ended → ∃ k, who = some k ∧ whose = .context k := by
  have hinit : Reach (system Bool) Proper ⟨[], fun _ => none, []⟩ := .init ⟨fun _ => rfl, by simp [owner], rfl⟩
  obtain ⟨s, hs, hq⟩ := exists_of_run (system Bool) Proper hinit
    [.create false false (.sockTcpServer {}), .destroy false, .appOpen, .destroy false,
      .create true true (.vsockUdpServer (some 3) {}), .create false false (.sockUdpServer true { bind := false })]
    (fun s => s.contexts false = some ⟨-1, false⟩ ∧ s.table.owner 0 = some .app) (by decide)
  exact ⟨s, hs, hq.1, hq.2, (sockets_close_own hs).1⟩

end Libcando.SocketLife
