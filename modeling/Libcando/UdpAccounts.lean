import Libcando.Continuation
import Libcando.UdpPeers

namespace Libcando.SockUdp.Peers

open Futex SocketResults Syscall Transition

/-- What a step adds to what may pass at peer `p` for the word that confirms: a copy the network makes, or data of
the other peer whose first four bytes are that word. -/
def stray (p : Peer) : Act → ℕ
  | .duplicate q _ => if q = p then 1 else 0
  | .send q data => if q = p.other ∧ reads data then 1 else 0
  | .recv _ _ | .call _ _ | .drop _ _ | .errno _ _ => 0

def pending : PeerPc → ℕ
  | .recv _ (.sendto _) => 1
  | .send data _ .sendto => if reads data then 1 else 0
  | .idle | .recv _ .recvfrom | .send _ _ (.recvfrom _) => 0

def words (f : List Datagram) : ℕ := f.countP fun d => reads d.bytes

def due (p : Peer) (s : Peers) : ℕ :=
  (s.confirmed p).length + words (s.flight p) + pending (s.procs p.other).pc

structure Turn (p : Peer) (s s' : Peers) (n : ℕ) : Prop where
  procs : s'.procs p.other = s.procs p.other
  confirmed : s'.confirmed p.other = s.confirmed p.other
  taken : s'.taken p.other = s.taken p.other
  consumes : (s'.confirmed p).length + words (s'.flight p) ≤ (s.confirmed p).length + words (s.flight p)
  produces : words (s'.flight p.other) + pending (s'.procs p).pc + (s.taken p).length ≤
    words (s.flight p.other) + pending (s.procs p).pc + (s'.taken p).length + n

variable {s s' u : Peers} {p : Peer} {l : Act} {ls : List Act} {id k n size : ℕ} {data : List UInt8} {e errno : Errno}

theorem words_append (f g : List Datagram) : words (f ++ g) = words f + words g := List.countP_append

theorem words_eraseIdx {f : List Datagram} {d : Datagram} (h : f[k]? = some d) :
    words (f.eraseIdx k) + (if reads d.bytes then 1 else 0) = words f := by
  obtain ⟨hk, rfl⟩ := List.getElem?_eq_some_iff.mp h
  have hperm := (List.getElem_cons_eraseIdx_perm hk).countP_eq (fun d => decide (reads d.bytes))
  rw [List.countP_cons] at hperm
  simpa [words] using hperm

theorem words_eraseIdx_le (f : List Datagram) (k : ℕ) : words (f.eraseIdx k) ≤ words f :=
  (List.eraseIdx_sublist f k).countP_le

theorem Turn.balanced {q : Peer} (h : Turn q s s' (stray q.other l)) (p : Peer) :
    s'.due p + (s.taken p.other).length ≤ s.due p + (s'.taken p.other).length + stray p l := by
  have hconsumes := h.consumes
  have hproduces := h.produces
  rcases p.eq_or_eq_other q with rfl | rfl
  · rw [due, due, h.procs, h.taken]
    omega
  · rw [due, due, h.confirmed, q.other_other]
    omega

theorem pending_sendOut {out : CallOut SendPc} (hrun : ∀ pc, out = .running pc → pc ≠ .sendto) :
    pending ((s.sendOut p data id errno out).procs p).pc = 0 := by
  cases out with
  | returned m => simp [sendOut, setProc, pending]
  | running pc =>
    cases pc with
    | sendto => exact absurd rfl (hrun _ rfl)
    | recvfrom ret => simp [sendOut, pending]

theorem length_confirmed_sendOut {out : CallOut SendPc} (hret : ∀ m, 0 ≤ m → out = .returned m → 1 ≤ n) :
    ((s.sendOut p data id errno out).confirmed p).length ≤ (s.confirmed p).length + n := by
  cases out with
  | running pc => exact Nat.le_add_right _ _
  | returned m =>
    simp only [sendOut]
    split_ifs with hm
    · have := hret m hm rfl
      rw [Function.update_self, List.length_append, List.length_singleton]
      omega
    · exact Nat.le_add_right _ _

theorem confirmed_sendOut_of_ne {q : Peer} {out : CallOut SendPc} (hq : q ≠ p) :
    (s.sendOut p data id errno out).confirmed q = s.confirmed q := by
  cases out with
  | running pc => rfl
  | returned m =>
    simp only [sendOut]
    split_ifs
    · rw [Function.update_of_ne hq]
    · rfl

theorem Turn.sendOut {out : CallOut SendPc} (hprocs : u.procs = s.procs) (htaken : u.taken = s.taken)
    (hconfirmed : u.confirmed = s.confirmed) (hrun : ∀ pc, out = .running pc → pc ≠ .sendto)
    (hret : ∀ m, 0 ≤ m → out = .returned m → 1 ≤ n) (hin : words (u.flight p) + n ≤ words (s.flight p))
    (hout : words (u.flight p.other) ≤ words (s.flight p.other) + pending (s.procs p).pc) :
    Turn p s (u.sendOut p data id errno out) 0 where
  procs := by rw [sendOut_procs_of_ne errno out p.other_ne, hprocs]
  confirmed := by rw [confirmed_sendOut_of_ne p.other_ne, hconfirmed]
  taken := by rw [sendOut_taken, htaken]
  consumes := by
    have hlength : ((u.sendOut p data id errno out).confirmed p).length ≤ (u.confirmed p).length + n :=
      length_confirmed_sendOut hret
    rw [hconfirmed] at hlength
    rw [sendOut_flight]
    omega
  produces := by
    rw [sendOut_flight, sendOut_taken, htaken, pending_sendOut hrun]
    omega

theorem Turn.recvOut {out : CallOut RecvPc} (hprocs : u.procs = s.procs)
    (htaken : u.taken p.other = s.taken p.other) (hconfirmed : u.confirmed = s.confirmed)
    (hrun : ∀ pc, out = .running pc → 1 ≤ n) (hin : words (u.flight p) ≤ words (s.flight p))
    (hout : words (u.flight p.other) + n + (s.taken p).length ≤
      words (s.flight p.other) + pending (s.procs p).pc + (u.taken p).length) :
    Turn p s (u.recvOut p size errno out) 0 := by
  have hsame : (u.recvOut p size errno out).flight = u.flight ∧ (u.recvOut p size errno out).taken = u.taken ∧
      (u.recvOut p size errno out).confirmed = u.confirmed := by
    cases out <;> exact ⟨rfl, rfl, rfl⟩
  obtain ⟨hflight, htaken', hconfirmed'⟩ := hsame
  have hpending : pending ((u.recvOut p size errno out).procs p).pc ≤ n := by
    cases out with
    | returned m => simp [Peers.recvOut, pending]
    | running pc =>
      have := hrun pc rfl
      rw [Peers.recvOut, setProc_self]
      cases pc <;> simp only [pending] <;> omega
  constructor
  · rw [← hprocs]
    cases out <;> exact setProc_of_ne u _ p.other_ne
  · rw [hconfirmed', hconfirmed]
  · rw [htaken', htaken]
  · rw [hconfirmed', hconfirmed, hflight]
    omega
  · rw [hflight, htaken']
    omega

theorem Turn.setProc {x : Proc} (hx : pending x.pc ≤ pending (s.procs p).pc + n) : Turn p s (s.setProc p x) n where
  procs := setProc_of_ne s x p.other_ne
  confirmed := rfl
  taken := rfl
  consumes := le_rfl
  produces := by
    rw [setProc_self]
    change words (s.flight p.other) + pending x.pc + (s.taken p).length ≤
      words (s.flight p.other) + pending (s.procs p).pc + (s.taken p).length + n
    omega

theorem Turn.refl (s : Peers) (p : Peer) : Turn p s s n := ⟨rfl, rfl, rfl, le_rfl, Nat.le_add_right _ _⟩

theorem take_self (s : Peers) (p : Peer) (k : ℕ) : (s.take p k).flight p = (s.flight p).eraseIdx k :=
  Function.update_self ..

theorem take_other (s : Peers) (p : Peer) (k : ℕ) : (s.take p k).flight p.other = s.flight p.other :=
  Function.update_of_ne p.other_ne ..

theorem words_take_le (s : Peers) (p : Peer) (k : ℕ) : words ((s.take p k).flight p) ≤ words (s.flight p) := by
  rw [take_self]
  exact words_eraseIdx_le _ _

theorem words_launch (s : Peers) (p : Peer) (bytes : List UInt8) :
    words ((s.launch p bytes).flight p.other) = words (s.flight p.other) + if reads bytes then 1 else 0 := by
  rw [launch_other, words_append]
  simp [words, List.countP_cons]

theorem Turn.sendCall {pc : SendPc} {answer : Answer} (hpc : (s.procs p).pc = .send data id pc)
    (hs : s.sendCall p data id pc answer = some s') : Turn p s s' 0 := by
  cases answer with
  | fails e =>
    have hs' : s' = s.sendOut p data id e (udoSockUdpSendData pc (s.procs p).errno (.failed e) []) := by
      cases pc <;> (cases hs; rfl)
    rw [hs']
    apply Turn.sendOut (n := 0) rfl rfl rfl
    · intro pc' hout
      exact absurd (udoSockUdpSendData_running hout).2.2.1 (Outcome.not_succeeds_failed e)
    · intro m hm hout
      obtain ⟨ret, -, hsucc, -⟩ := udoSockUdpSendData_returned hout hm
      exact absurd hsucc (Outcome.not_succeeds_failed e)
    · exact le_rfl
    · exact Nat.le_add_right _ _
  | ok k =>
    cases pc with
    | sendto =>
      cases hs
      apply Turn.sendOut (s := s) (u := s.launch p data) (n := 0) rfl rfl rfl
      · intro pc' hout
        rw [(udoSockUdpSendData_running hout).2.1]
        intro hpc'
        cases hpc'
      · intro m hm hout
        obtain ⟨ret, hspc, -⟩ := udoSockUdpSendData_returned hout hm
        cases hspc
      · rw [launch_self, Nat.add_zero]
      · rw [words_launch, hpc]
        exact le_rfl
    | recvfrom ret =>
      obtain ⟨d, hd, rfl⟩ := Option.map_eq_some_iff.mp hs
      apply Turn.sendOut (s := s) (u := s.take p k) (n := if reads d.bytes then 1 else 0) rfl rfl rfl
      · intro pc' hout
        cases (udoSockUdpSendData_running hout).1
      · intro m hm hout
        obtain ⟨-, -, -, hreads⟩ := udoSockUdpSendData_returned hout hm
        have hword : reads d.bytes := hreads
        rw [if_pos hword]
      · rw [take_self, words_eraseIdx hd]
      · rw [take_other]
        exact Nat.le_add_right _ _

theorem Turn.recvCall {pc : RecvPc} {answer : Answer} (hpc : (s.procs p).pc = .recv size pc)
    (hs : s.recvCall p size pc answer = some s') : Turn p s s' 0 := by
  cases answer with
  | fails e =>
    have hs' : s' = s.recvOut p size e (udoSockUdpRecvData pc (s.procs p).errno (.failed e)) := by
      cases pc <;> (cases hs; rfl)
    rw [hs']
    apply Turn.recvOut (n := 0) rfl rfl rfl
    · intro pc' hout
      exact absurd (udoSockUdpRecvData_running hout).2 (Outcome.not_succeeds_failed e)
    · exact le_rfl
    · omega
  | ok k =>
    cases pc with
    | recvfrom =>
      obtain ⟨d, hd, rfl⟩ := Option.map_eq_some_iff.mp hs
      apply Turn.recvOut (s := s) (n := 1)
        (u := { s.take p k with taken := Function.update s.taken p (s.taken p ++ [d.id]) }) rfl
      · exact Function.update_of_ne p.other_ne ..
      · rfl
      · exact fun _ _ => le_rfl
      · exact words_take_le s p k
      · dsimp only
        rw [take_other, Function.update_self, List.length_append, List.length_singleton]
        omega
    | sendto ret =>
      cases hs
      apply Turn.recvOut (s := s) (u := s.launch p verifierBytes) (n := 0) rfl rfl rfl
      · intro pc' hout
        cases (udoSockUdpRecvData_running hout).1
      · rw [launch_self]
      · have hword : (if reads verifierBytes then 1 else 0) = 1 := if_pos (by decide)
        rw [words_launch, hword, hpc]
        exact le_rfl

end Libcando.SockUdp.Peers
