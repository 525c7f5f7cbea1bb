import Libcando.SockUdp
import Libcando.Transition

namespace Libcando.SockUdp

open Futex SocketResults Syscall Transition

inductive Peer
  | left
  | right
  deriving DecidableEq

def Peer.other : Peer → Peer
  | left => right
  | right => left

@[simp] theorem Peer.other_other (p : Peer) : p.other.other = p := by cases p <;> rfl

@[simp] theorem Peer.other_ne (p : Peer) : p.other ≠ p := by cases p <;> decide

theorem Peer.eq_or_eq_other (p q : Peer) : p = q ∨ p = q.other := by cases p <;> cases q <;> simp [other]

/-- The number tells one `sendto` from another; no peer sees it. -/
structure Datagram where
  id : ℕ
  bytes : List UInt8
  deriving DecidableEq

inductive PeerPc
  | idle
  | send (data : List UInt8) (id : ℕ) (pc : SendPc)
  | recv (size : ℕ) (pc : RecvPc)
  deriving DecidableEq

structure Proc where
  errno : Errno := 0
  pc : PeerPc := .idle
  deriving DecidableEq

/-- What the kernel answers to a system call; of the datagrams in flight to a peer `recvfrom` may return any. -/
inductive Answer
  | ok (pick : ℕ)
  | fails (e : Errno)
  deriving DecidableEq

/-- `flight` holds what is under way to a peer or waits at its socket. The rest is history: the datagrams a
peer's `udo_sock_udp_recv_data` has taken and those its `udo_sock_udp_send_data` has reported as sent. -/
structure Peers where
  procs : Peer → Proc := fun _ => {}
  flight : Peer → List Datagram := fun _ => []
  next : ℕ := 0
  taken : Peer → List ℕ := fun _ => []
  confirmed : Peer → List ℕ := fun _ => []

inductive Act
  | send (p : Peer) (data : List UInt8)
  | recv (p : Peer) (size : ℕ)
  | call (p : Peer) (answer : Answer)
  | drop (p : Peer) (k : ℕ)
  | duplicate (p : Peer) (k : ℕ)
  | errno (p : Peer) (e : Errno)
  deriving DecidableEq

namespace Peers

def setProc (s : Peers) (p : Peer) (x : Proc) : Peers := { s with procs := Function.update s.procs p x }

def launch (s : Peers) (p : Peer) (bytes : List UInt8) : Peers :=
  { s with
    flight := Function.update s.flight p.other (s.flight p.other ++ [⟨s.next, bytes⟩])
    next := s.next + 1 }

def take (s : Peers) (p : Peer) (k : ℕ) : Peers :=
  { s with flight := Function.update s.flight p ((s.flight p).eraseIdx k) }

def sendOut (s : Peers) (p : Peer) (data : List UInt8) (id : ℕ) (errno : Errno) (out : CallOut SendPc) : Peers :=
  match out with
  | .running pc => s.setProc p ⟨errno, .send data id pc⟩
  | .returned n =>
    { s.setProc p ⟨errno, .idle⟩ with
      confirmed := if 0 ≤ n then Function.update s.confirmed p (s.confirmed p ++ [id]) else s.confirmed }

def recvOut (s : Peers) (p : Peer) (size : ℕ) (errno : Errno) (out : CallOut RecvPc) : Peers :=
  match out with
  | .running pc => s.setProc p ⟨errno, .recv size pc⟩
  | .returned _ => s.setProc p ⟨errno, .idle⟩

def sendCall (s : Peers) (p : Peer) (data : List UInt8) (id : ℕ) (pc : SendPc) (answer : Answer) : Option Peers :=
  let errno := (s.procs p).errno
  match pc, answer with
  | .sendto, .ok _ =>
    some ((s.launch p data).sendOut p data s.next errno (udoSockUdpSendData .sendto errno (.done data.length) []))
  | .recvfrom ret, .ok k =>
    ((s.flight p)[k]?).map fun d =>
      (s.take p k).sendOut p data id errno
        (udoSockUdpSendData (.recvfrom ret) errno (.done (min d.bytes.length 4)) d.bytes)
  | pc, .fails e => some (s.sendOut p data id e (udoSockUdpSendData pc errno (.failed e) []))

def recvCall (s : Peers) (p : Peer) (size : ℕ) (pc : RecvPc) (answer : Answer) : Option Peers :=
  let errno := (s.procs p).errno
  match pc, answer with
  | .recvfrom, .ok k =>
    ((s.flight p)[k]?).map fun d =>
      { s.take p k with taken := Function.update s.taken p (s.taken p ++ [d.id]) }.recvOut p size errno
        (udoSockUdpRecvData .recvfrom errno (.done (min d.bytes.length size)))
  | .sendto ret, .ok _ =>
    some ((s.launch p verifierBytes).recvOut p size errno (udoSockUdpRecvData (.sendto ret) errno (.done 4)))
  | pc, .fails e => some (s.recvOut p size e (udoSockUdpRecvData pc errno (.failed e)))

def step (l : Act) (s : Peers) : Option Peers :=
  match l with
  | .send p data =>
    if (s.procs p).pc ≠ .idle then none
    else if data = [] then some s
    else some (s.setProc p { s.procs p with pc := .send data 0 .sendto })
  | .recv p size =>
    if (s.procs p).pc ≠ .idle then none
    else if size = 0 then some s
    else some (s.setProc p { s.procs p with pc := .recv size .recvfrom })
  | .call p answer =>
    match (s.procs p).pc with
    | .idle => none
    | .send data id pc => s.sendCall p data id pc answer
    | .recv size pc => s.recvCall p size pc answer
  | .drop p k => some (s.take p k)
  | .duplicate p k =>
    ((s.flight p)[k]?).map fun d => { s with flight := Function.update s.flight p (s.flight p ++ [d]) }
  | .errno p e =>
    -- what other calls of the process leave behind
    if (s.procs p).pc = .idle then some (s.setProc p ⟨e, .idle⟩) else none

def system : System Peers Act where
  init s := s = {}
  step := step

def reads (bytes : List UInt8) : Prop := receivedData bytes = verifier

instance : DecidablePred reads := fun bytes => inferInstanceAs (Decidable (receivedData bytes = verifier))

def waits (s : Peers) (p : Peer) : Bool :=
  match (s.procs p).pc with
  | .send _ _ (.recvfrom _) => true
  | _ => false

def replies (s : Peers) (p : Peer) : Bool :=
  match (s.procs p).pc with
  | .recv _ (.sendto _) => true
  | _ => false

def quiet (s : Peers) (p : Peer) : Prop :=
  s.flight p.other = [] ∧ s.replies p.other = false ∧ ∀ d ∈ s.flight p, ¬reads d.bytes

instance (s : Peers) (p : Peer) : Decidable (s.quiet p) := inferInstanceAs (Decidable (_ ∧ _ ∧ _))

def unambiguous (l : Act) (s : Peers) : Prop :=
  match l with
  | .call p (.ok _) =>
    match (s.procs p).pc with
    | .send data _ .sendto =>
      (¬Retryable (s.procs p).errno → s.quiet p) ∧ (reads data → s.waits p.other = false)
    | _ => True
  | _ => True

instance (l : Act) (s : Peers) : Decidable (unambiguous l s) :=
  match l with
  | .call p (.ok k) =>
    match h : (s.procs p).pc with
    | .send data id .sendto =>
      decidable_of_iff ((¬Retryable (s.procs p).errno → s.quiet p) ∧ (reads data → s.waits p.other = false))
        (by simp only [unambiguous, h])
    | .send data id (.recvfrom ret) => isTrue (by simp only [unambiguous, h])
    | .idle | .recv _ _ => isTrue (by simp only [unambiguous, h])
  | .call _ (.fails _) | .send _ _ | .recv _ _ | .drop _ _ | .duplicate _ _ | .errno _ _ => isTrue trivial

def Sound (s : Peers) : Prop := ∀ p, ∀ id ∈ s.confirmed p, id ∈ s.taken p.other

structure Answered (s : Peers) (p : Peer) (id : ℕ) : Prop where
  flight : ∀ d ∈ s.flight p.other, d.id = id
  reply : s.replies p.other = true → id ∈ s.taken p.other
  verifier : ∀ d ∈ s.flight p, reads d.bytes → id ∈ s.taken p.other

structure Kept (s : Peers) : Prop where
  sound : s.Sound
  waiting : ∀ p data id ret, (s.procs p).pc = .send data id (.recvfrom ret) → s.Answered p id

variable {s s' : Peers} {p q : Peer} {l : Act} {id k size : ℕ} {data : List UInt8} {e : Errno}

theorem waits_eq {ret : ℤ} (h : (s.procs p).pc = .send data id (.recvfrom ret)) : s.waits p = true := by
  rw [waits, h]

theorem Answered.mono (h : s.Answered p id) (hto : ∀ d ∈ s'.flight p.other, d ∈ s.flight p.other)
    (hfrom : ∀ d ∈ s'.flight p, d ∈ s.flight p) (htaken : ∀ i ∈ s.taken p.other, i ∈ s'.taken p.other)
    (hreply : s'.replies p.other = true → s.replies p.other = true) : s'.Answered p id where
  flight d hd := h.flight d (hto d hd)
  reply hr := htaken id (h.reply (hreply hr))
  verifier d hd hv := htaken id (h.verifier d (hfrom d hd) hv)

theorem flight_take (s : Peers) (p : Peer) (k : ℕ) (q : Peer) : ∀ d ∈ (s.take p k).flight q, d ∈ s.flight q := by
  intro d hd
  by_cases hq : q = p
  · subst hq
    simp only [take, Function.update_self] at hd
    exact List.mem_of_mem_eraseIdx hd
  · simpa only [take, Function.update_of_ne hq] using hd

@[simp] theorem setProc_self (s : Peers) (p : Peer) (x : Proc) : (s.setProc p x).procs p = x :=
  Function.update_self ..

theorem setProc_of_ne (s : Peers) (x : Proc) (h : q ≠ p) : (s.setProc p x).procs q = s.procs q :=
  Function.update_of_ne h ..

theorem launch_other (s : Peers) (p : Peer) (bytes : List UInt8) :
    (s.launch p bytes).flight p.other = s.flight p.other ++ [⟨s.next, bytes⟩] := Function.update_self ..

theorem launch_self (s : Peers) (p : Peer) (bytes : List UInt8) : (s.launch p bytes).flight p = s.flight p :=
  Function.update_of_ne p.other_ne.symm ..

theorem Kept.of_step (h : s.Kept) (p : Peer) (hprocs : s'.procs p.other = s.procs p.other)
    (htaken : ∀ q, ∀ i ∈ s.taken q, i ∈ s'.taken q)
    (hconfirmed : ∀ q, ∀ i ∈ s'.confirmed q, i ∈ s.confirmed q ∨ i ∈ s'.taken q.other)
    (hself : ∀ data id ret, (s'.procs p).pc = .send data id (.recvfrom ret) → s'.Answered p id)
    (hother : ∀ id, s.waits p.other = true → s.Answered p.other id → s'.Answered p.other id) : s'.Kept where
  sound := by
    intro q i hi
    rcases hconfirmed q i hi with hi | hi
    · exact htaken _ i (h.sound q i hi)
    · exact hi
  waiting := by
    intro q data id ret hq
    rcases q.eq_or_eq_other p with rfl | rfl
    · exact hself data id ret hq
    · rw [hprocs] at hq
      exact hother id (waits_eq hq) (h.waiting _ data id ret hq)

theorem sendOut_procs_of_ne (errno : Errno) (out : CallOut SendPc) (h : q ≠ p) :
    (s.sendOut p data id errno out).procs q = s.procs q := by
  cases out <;> exact setProc_of_ne s _ h

theorem sendOut_flight (errno : Errno) (out : CallOut SendPc) :
    (s.sendOut p data id errno out).flight = s.flight := by
  cases out <;> rfl

theorem sendOut_taken (errno : Errno) (out : CallOut SendPc) :
    (s.sendOut p data id errno out).taken = s.taken := by
  cases out <;> rfl

theorem sendOut_replies (errno : Errno) (out : CallOut SendPc) :
    (s.sendOut p data id errno out).replies p = false := by
  cases out <;> simp [sendOut, replies, setProc]

theorem sendOut_confirmed {errno : Errno} {out : CallOut SendPc} {i : ℕ}
    (h : i ∈ (s.sendOut p data id errno out).confirmed q) :
    i ∈ s.confirmed q ∨ q = p ∧ i = id ∧ ∃ n, 0 ≤ n ∧ out = .returned n := by
  cases out with
  | running pc => exact .inl h
  | returned n =>
    simp only [sendOut] at h
    split_ifs at h with hn
    · by_cases hq : q = p
      · subst hq
        rw [Function.update_self, List.mem_append, List.mem_singleton] at h
        rcases h with h | h
        · exact .inl h
        · exact .inr ⟨rfl, h, n, hn, rfl⟩
      · rw [Function.update_of_ne hq] at h
        exact .inl h
    · exact .inl h

theorem replies_congr (h : s'.procs p = s.procs p) : s'.replies p = s.replies p := by
  rw [replies, replies, h]

theorem Kept.sendOut {u : Peers} (h : s.Kept) (hprocs : u.procs = s.procs) (htaken : u.taken = s.taken)
    (hconfirmed : u.confirmed = s.confirmed) (errno : Errno) (out : CallOut SendPc)
    (hself : ∀ pc, out = .running pc → u.Answered p id)
    (hreturned : ∀ n, 0 ≤ n → out = .returned n → id ∈ s.taken p.other)
    (hother : ∀ j, s.waits p.other = true → s.Answered p.other j →
      (∀ d ∈ u.flight p, d.id = j) ∧ ∀ d ∈ u.flight p.other, reads d.bytes → j ∈ s.taken p) :
    (u.sendOut p data id errno out).Kept := by
  have hproc : (u.sendOut p data id errno out).procs p.other = s.procs p.other := by
    rw [sendOut_procs_of_ne errno out p.other_ne, hprocs]
  have htaken' : (u.sendOut p data id errno out).taken = s.taken := by
    rw [sendOut_taken, htaken]
  apply h.of_step p hproc
  · intro q i hi
    rwa [htaken']
  · intro q i hi
    rcases sendOut_confirmed hi with hi | ⟨rfl, rfl, n, hn, hout⟩
    · rw [hconfirmed] at hi
      exact .inl hi
    · rw [htaken']
      exact .inr (hreturned n hn hout)
  · intro data' id' ret hpc
    cases out with
    | returned n => simp [Peers.sendOut, setProc] at hpc
    | running pc =>
      have hid : id' = id := by
        simp only [Peers.sendOut, setProc_self, PeerPc.send.injEq] at hpc
        exact hpc.2.1.symm
      rw [hid]
      apply (hself pc rfl).mono
      · intro d hd
        rwa [sendOut_flight] at hd
      · intro d hd
        rwa [sendOut_flight] at hd
      · intro i hi
        rwa [sendOut_taken]
      · intro hr
        rwa [replies_congr (hproc.trans (congrFun hprocs _).symm)] at hr
  · intro j hwaits hj
    obtain ⟨hflight, hverifier⟩ := hother j hwaits hj
    constructor
    · rw [p.other_other, sendOut_flight]
      exact hflight
    · rw [p.other_other, sendOut_replies]
      intro hr
      cases hr
    · rw [p.other_other, sendOut_flight, htaken']
      exact hverifier

theorem Kept.recvOut {u : Peers} (h : s.Kept) (hprocs : u.procs = s.procs)
    (htaken : ∀ q, ∀ i ∈ s.taken q, i ∈ u.taken q) (hconfirmed : u.confirmed = s.confirmed) (errno : Errno)
    (out : CallOut RecvPc) (hflight : ∀ d ∈ u.flight p, d ∈ s.flight p)
    (hother : ∀ j, s.waits p.other = true → s.Answered p.other j →
      (∀ pc, out = .running pc → j ∈ u.taken p) ∧ ∀ d ∈ u.flight p.other, reads d.bytes → j ∈ u.taken p) :
    (u.recvOut p size errno out).Kept := by
  have hsame : (u.recvOut p size errno out).flight = u.flight ∧ (u.recvOut p size errno out).taken = u.taken ∧
      (u.recvOut p size errno out).confirmed = u.confirmed := by
    cases out <;> exact ⟨rfl, rfl, rfl⟩
  obtain ⟨hflight', htaken', hconfirmed'⟩ := hsame
  apply h.of_step p
  · cases out <;> exact (setProc_of_ne u _ p.other_ne).trans (congrFun hprocs _)
  · rw [htaken']
    exact htaken
  · rw [hconfirmed', hconfirmed]
    intro q i hi
    exact .inl hi
  · intro data id ret hpc
    cases out <;> simp [Peers.recvOut, setProc] at hpc
  · intro j hwaits hj
    obtain ⟨hreply, hverifier⟩ := hother j hwaits hj
    constructor
    · rw [p.other_other, hflight']
      intro d hd
      have := hj.flight d
      rw [p.other_other] at this
      exact this (hflight d hd)
    · rw [p.other_other, htaken']
      intro hr
      cases out with
      | running pc => exact hreply pc rfl
      | returned n => simp [Peers.recvOut, replies, setProc] at hr
    · rw [p.other_other, hflight', htaken']
      exact hverifier

theorem Kept.sendCall (h : s.Kept) {pc : SendPc} {answer : Answer} (hpc : (s.procs p).pc = .send data id pc)
    (hok : unambiguous (.call p answer) s) (hs : s.sendCall p data id pc answer = some s') : s'.Kept := by
  cases answer with
  | fails e =>
    have hs' : s' = s.sendOut p data id e (udoSockUdpSendData pc (s.procs p).errno (.failed e) []) := by
      cases pc <;> (cases hs; rfl)
    rw [hs']
    apply h.sendOut rfl rfl rfl
    · intro pc' hout
      exact absurd (udoSockUdpSendData_running hout).2.2.1 (Outcome.not_succeeds_failed e)
    · intro n hn hout
      obtain ⟨ret, -, hsucc, -⟩ := udoSockUdpSendData_returned hout hn
      exact absurd hsucc (Outcome.not_succeeds_failed e)
    · intro j _ hj
      refine ⟨fun d hd => hj.flight d (by rwa [p.other_other]), fun d hd hv => ?_⟩
      simpa using hj.verifier d hd hv
  | ok k =>
    cases pc with
    | sendto =>
      cases hs
      simp only [unambiguous, hpc] at hok
      apply h.sendOut (u := s.launch p data) rfl rfl rfl
      · intro pc' hout
        obtain ⟨-, -, -, herrno⟩ := udoSockUdpSendData_running hout
        obtain ⟨hempty, hreply, hverifier⟩ := hok.1 herrno
        constructor
        · rw [launch_other, hempty]
          intro d hd
          rw [List.nil_append, List.mem_singleton] at hd
          rw [hd]
        · intro hr
          have hsame : (s.launch p data).replies p.other = s.replies p.other := replies_congr rfl
          rw [hsame, hreply] at hr
          cases hr
        · rw [launch_self]
          intro d hd hv
          exact absurd hv (hverifier d hd)
      · intro n hn hout
        obtain ⟨ret, hspc, -⟩ := udoSockUdpSendData_returned hout hn
        cases hspc
      · intro j hwaits hj
        constructor
        · rw [launch_self]
          intro d hd
          exact hj.flight d (by rwa [p.other_other])
        · rw [launch_other]
          intro d hd hv
          rw [List.mem_append, List.mem_singleton] at hd
          rcases hd with hd | rfl
          · simpa using hj.verifier d hd hv
          · rw [hok.2 hv] at hwaits
            cases hwaits
    | recvfrom ret =>
      obtain ⟨d, hd, rfl⟩ := Option.map_eq_some_iff.mp hs
      have hmem : d ∈ s.flight p := List.mem_of_getElem? hd
      apply h.sendOut (u := s.take p k) rfl rfl rfl
      · intro pc' hout
        have hspc := (udoSockUdpSendData_running hout).1
        cases hspc
      · intro n hn hout
        obtain ⟨-, -, -, hreads⟩ := udoSockUdpSendData_returned hout hn
        exact (h.waiting p data id ret hpc).verifier d hmem hreads
      · intro j _ hj
        constructor
        · intro d hd
          exact hj.flight d (by rw [p.other_other]; exact flight_take s p k p d hd)
        · intro d hd hv
          simpa using hj.verifier d (flight_take s p k p.other d hd) hv

theorem Kept.recvCall (h : s.Kept) {pc : RecvPc} {answer : Answer} (hpc : (s.procs p).pc = .recv size pc)
    (hs : s.recvCall p size pc answer = some s') : s'.Kept := by
  cases answer with
  | fails e =>
    have hs' : s' = s.recvOut p size e (udoSockUdpRecvData pc (s.procs p).errno (.failed e)) := by
      cases pc <;> (cases hs; rfl)
    rw [hs']
    apply h.recvOut rfl (fun _ _ hi => hi) rfl _ _ (fun _ hd => hd)
    intro j _ hj
    constructor
    · intro pc' hout
      exact absurd (udoSockUdpRecvData_running hout).2 (Outcome.not_succeeds_failed e)
    · intro d hd hv
      simpa using hj.verifier d hd hv
  | ok k =>
    cases pc with
    | recvfrom =>
      obtain ⟨d, hd, rfl⟩ := Option.map_eq_some_iff.mp hs
      have hmem : d ∈ s.flight p := List.mem_of_getElem? hd
      have hself : Function.update s.taken p (s.taken p ++ [d.id]) p = s.taken p ++ [d.id] :=
        Function.update_self ..
      apply h.recvOut (u := { s.take p k with taken := Function.update s.taken p (s.taken p ++ [d.id]) }) rfl
      · intro q i hi
        dsimp only
        by_cases hq : q = p
        · subst hq
          rw [hself]
          exact List.mem_append_left _ hi
        · rwa [Function.update_of_ne hq]
      · rfl
      · exact flight_take s p k p
      · intro j _ hj
        have hjd : j ∈ Function.update s.taken p (s.taken p ++ [d.id]) p := by
          rw [hself, ← hj.flight d (by rwa [p.other_other])]
          exact List.mem_append_right _ (List.mem_singleton_self _)
        exact ⟨fun _ _ => hjd, fun _ _ _ => hjd⟩
    | sendto ret =>
      cases hs
      apply h.recvOut (u := s.launch p verifierBytes) rfl (fun _ _ hi => hi) rfl
      · intro d hd
        rwa [launch_self] at hd
      · intro j _ hj
        have hj' : j ∈ s.taken p := by
          have hreplies : s.replies p.other.other = true := by rw [p.other_other, replies, hpc]
          simpa using hj.reply hreplies
        exact ⟨fun _ _ => hj', fun _ _ _ => hj'⟩

theorem Kept.lose (h : s.Kept) {f : Peer → List Datagram} (hf : ∀ q, ∀ d ∈ f q, d ∈ s.flight q) :
    Kept { s with flight := f } where
  sound := h.sound
  waiting p data id ret hpc := (h.waiting p data id ret hpc).mono (hf p.other) (hf p) (fun _ hi => hi) (fun hr => hr)

theorem Kept.setProc (h : s.Kept) {x : Proc} (hwait : ∀ data id ret, x.pc ≠ .send data id (.recvfrom ret))
    (hreply : ∀ size ret, x.pc ≠ .recv size (.sendto ret)) : (s.setProc p x).Kept := by
  apply h.of_step p (setProc_of_ne s x p.other_ne) (fun _ _ hi => hi) (fun _ _ hi => .inl hi)
  · intro data id ret hpc
    rw [setProc_self] at hpc
    exact absurd hpc (hwait data id ret)
  · intro j _ hj
    refine ⟨hj.flight, ?_, hj.verifier⟩
    rw [p.other_other]
    intro hr
    rw [replies, setProc_self] at hr
    split at hr
    · next size ret hx => exact absurd hx (hreply size ret)
    · cases hr

theorem Kept.step (h : s.Kept) (hok : unambiguous l s) (hs : s.step l = some s') : s'.Kept := by
  cases l with
  | send p data =>
    simp only [Peers.step] at hs
    split_ifs at hs
    · cases hs; exact h
    · cases hs; exact h.setProc (by simp) (by simp)
  | recv p size =>
    simp only [Peers.step] at hs
    split_ifs at hs
    · cases hs; exact h
    · cases hs; exact h.setProc (by simp) (by simp)
  | errno p e =>
    simp only [Peers.step] at hs
    split_ifs at hs
    cases hs
    exact h.setProc (by simp) (by simp)
  | drop p k =>
    cases hs
    exact h.lose (flight_take s p k)
  | duplicate p k =>
    obtain ⟨d, hd, rfl⟩ := Option.map_eq_some_iff.mp hs
    apply h.lose
    intro q d' hd'
    by_cases hq : q = p
    · subst hq
      rw [Function.update_self, List.mem_append, List.mem_singleton] at hd'
      rcases hd' with hd' | rfl
      · exact hd'
      · exact List.mem_of_getElem? hd
    · rwa [Function.update_of_ne hq] at hd'
  | call p answer =>
    simp only [Peers.step] at hs
    cases hpc : (s.procs p).pc with
    | idle =>
      rw [hpc] at hs
      cases hs
    | send data id pc =>
      rw [hpc] at hs
      exact h.sendCall hpc hok hs
    | recv size pc =>
      rw [hpc] at hs
      exact h.recvCall hpc hs

theorem sent_data_taken (h : Reach system unambiguous s) : s.Sound := by
  have hkept : s.Kept := by
    apply h.invariant
    · rintro s rfl
      constructor
      · intro p id hid
        cases hid
      · intro p data id ret hpc
        cases hpc
    · intro s s' l hs hok hstep
      exact hs.step hok hstep
  exact hkept.sound

theorem sent_data_taken_retried : ∃ s, Reach system unambiguous s ∧ s.confirmed .left = [1] ∧ s.Sound := by
  obtain ⟨s, hs, hconfirmed⟩ := exists_of_run system unambiguous (.init rfl)
    [.send .left [7], .call .left (.ok 0), .call .left (.fails eintr), .drop .right 0, .errno .left 0,
      .send .left [7], .call .left (.ok 0), .recv .right 16, .call .right (.ok 0), .call .right (.ok 0),
      .call .left (.ok 0)]
    (fun s => s.confirmed .left = [1]) (by decide +kernel)
  exact ⟨s, hs, hconfirmed, sent_data_taken hs⟩

/-- The verifier of an abandoned call comes late and answers the next call, whose datagram is lost. -/
theorem sent_data_lost : ¬ ∀ s, Reach system (fun _ _ => True) s → s.Sound := by
  intro sound
  obtain ⟨s, hs, hconfirmed, htaken⟩ := exists_of_run system (fun _ _ => True) (.init rfl)
    [.send .left [7], .call .left (.ok 0), .call .left (.fails eintr), .errno .left 0, .recv .right 16,
      .call .right (.ok 0), .call .right (.ok 0), .send .left [8], .call .left (.ok 0), .drop .right 0,
      .call .left (.ok 0)]
    (fun s => s.confirmed .left = [2] ∧ s.taken .right = [0]) (by decide +kernel)
  have := sound s hs .left 2 (by rw [hconfirmed]; decide)
  rw [Peer.other, htaken] at this
  cases this with
  | tail _ h => cases h

end Peers

end Libcando.SockUdp
