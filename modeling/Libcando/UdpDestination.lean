import Libcando.SockUdp
import Libcando.Transition

namespace Libcando.SockUdp

open Futex SocketResults Syscall Transition

structure SockAddr where
  port : ℕ
  ip : List UInt8
  deriving DecidableEq

structure CreateInfo where
  ipv6 : Bool
  ipAddr : Option String
  port : ℕ

structure Sock where
  fd : ℤ
  ipAddr : String
  port : ℕ
  addr : SockAddr
  deriving DecidableEq

def inet6AddrStrLen : ℕ := 46

def pCreateSock (inetPton : String → Option (List UInt8)) (socket : Option ℕ) (info : Option CreateInfo) :
    Option Sock := do
  let info ← info
  let ipAddr ← info.ipAddr
  let fd ← socket
  let text := String.ofList (((if info.ipv6 then "" else "::ffff:") ++ ipAddr).toList.take (inet6AddrStrLen - 1))
  let ip ← inetPton text
  pure { fd := fd, ipAddr := text, port := info.port, addr := ⟨info.port % 2 ^ 16, ip⟩ }

def udoSockUdpClientCreate (inetPton : String → Option (List UInt8)) (socket : Option ℕ)
    (info : Option CreateInfo) : Option Sock := pCreateSock inetPton socket info

structure Arrival where
  source : SockAddr
  bytes : List UInt8
  deriving DecidableEq

inductive ClientPc
  | idle
  | send (data : List UInt8) (pc : SendPc)
  deriving DecidableEq

/-- A client context, its socket in the kernel and the call it is in. The rest is history: the address stored at
creation, where the datagrams went and where those came from that the calls took. -/
structure Client where
  sock : Sock
  configured : SockAddr
  connected : Option SockAddr := none
  queue : List Arrival := []
  errno : Errno := 0
  pc : ClientPc := .idle
  sent : List SockAddr := []
  taken : List SockAddr := []
  deriving DecidableEq

inductive ClientAct
  | connect (o : Outcome)
  | send (data : List UInt8)
  | call (o : Outcome)
  | arrive (d : Arrival)
  | errno (e : Errno)
  deriving DecidableEq

namespace Client

def resume (s : Client) (data : List UInt8) (errno : Errno) (out : CallOut SendPc) : Client :=
  match out with
  | .running pc => { s with errno := errno, pc := .send data pc }
  | .returned _ => { s with errno := errno, pc := .idle }

def udoSockUdpClientConnect (s : Client) (o : Outcome) : Client :=
  if s.sock.fd ≤ 0 then s
  else
    match o with
    | .done _ => { s with connected := some s.sock.addr }
    | .failed e => { s with errno := e }

/-- The address goes to `sendto` as the destination and to `recvfrom` as the place for the source. -/
def sendCall (s : Client) (data : List UInt8) (pc : SendPc) (o : Outcome) : Option Client :=
  match pc, o with
  | .sendto, .done _ =>
    some ({ s with sent := s.sent ++ [s.sock.addr] }.resume data s.errno
      (udoSockUdpSendData .sendto s.errno (.done data.length) []))
  | .recvfrom ret, .done _ =>
    match s.queue with
    | [] => none
    | d :: queue =>
      some ({ s with
        queue := queue
        sock := { s.sock with addr := d.source }
        taken := s.taken ++ [d.source] }.resume data s.errno
          (udoSockUdpSendData (.recvfrom ret) s.errno (.done (min d.bytes.length 4)) d.bytes))
  | pc, .failed e => some (s.resume data e (udoSockUdpSendData pc s.errno (.failed e) []))

def step (l : ClientAct) (s : Client) : Option Client :=
  match l with
  | .connect o => if s.pc = .idle then some (s.udoSockUdpClientConnect o) else none
  | .send data =>
    if s.pc ≠ .idle then none
    else if s.sock.fd < 0 ∨ data = [] then some s
    else some { s with pc := .send data .sendto }
  | .call o =>
    match s.pc with
    | .idle => none
    | .send data pc => s.sendCall data pc o
  | .arrive d =>
    -- a connected socket takes its peer's datagrams only
    if ∀ peer ∈ s.connected, d.source = peer then some { s with queue := s.queue ++ [d] } else none
  | .errno e => if s.pc = .idle then some { s with errno := e } else none

def system (inetPton : String → Option (List UInt8)) : System Client ClientAct where
  init s := ∃ socket info sock, udoSockUdpClientCreate inetPton socket info = some sock ∧
    s = { sock := sock, configured := sock.addr }
  step := step

def Fixed (s : Client) : Prop := s.sock.addr = s.configured ∧ ∀ a ∈ s.sent, a = s.configured

structure Kept (s : Client) : Prop where
  waiting : ∀ data ret, s.pc = .send data (.recvfrom ret) → s.sock.addr ∈ s.sent
  fixed : s.Fixed ↔ ∀ a ∈ s.taken, a = s.configured

variable {inetPton : String → Option (List UInt8)} {s s' : Client} {l : ClientAct} {data : List UInt8} {e : Errno}
  {o : Outcome}

theorem Kept.resume {u : Client} (h : s.Kept) (hsock : u.sock = s.sock) (hconfigured : u.configured = s.configured)
    (hsent : u.sent = s.sent ∨ u.sent = s.sent ++ [s.sock.addr]) (htaken : u.taken = s.taken)
    {out : CallOut SendPc} (hout : ∀ ret, out = .running (.recvfrom ret) → u.sent = s.sent ++ [s.sock.addr])
    (e : Errno) : (u.resume data e out).Kept := by
  have hsame : (u.resume data e out).sock = s.sock ∧ (u.resume data e out).configured = s.configured ∧
      (u.resume data e out).sent = u.sent ∧ (u.resume data e out).taken = s.taken := by
    cases out <;> exact ⟨hsock, hconfigured, rfl, htaken⟩
  obtain ⟨hsock', hconfigured', hsent', htaken'⟩ := hsame
  constructor
  · intro data' ret hpc
    rw [hsock', hsent']
    cases out with
    | returned n => cases hpc
    | running pc =>
      simp only [Client.resume, ClientPc.send.injEq] at hpc
      rw [hout ret (by rw [hpc.2])]
      exact List.mem_append_right _ (List.mem_singleton_self _)
  · rw [hconfigured', htaken', ← h.fixed]
    constructor
    · intro hf
      constructor
      · rw [← hsock', ← hconfigured']
        exact hf.1
      · intro a ha
        rw [← hconfigured']
        apply hf.2
        rw [hsent']
        rcases hsent with heq | heq
        · rwa [heq]
        · rw [heq]
          exact List.mem_append_left _ ha
    · intro hf
      constructor
      · rw [hsock', hconfigured']
        exact hf.1
      · intro a ha
        rw [hconfigured']
        rw [hsent'] at ha
        rcases hsent with heq | heq
        · rw [heq] at ha
          exact hf.2 a ha
        · rw [heq, List.mem_append, List.mem_singleton] at ha
          rcases ha with ha | rfl
          · exact hf.2 a ha
          · exact hf.1

theorem Kept.take (h : s.Kept) (hwaiting : s.sock.addr ∈ s.sent) (d : Arrival) (queue : List Arrival) (e : Errno) :
    Kept { s with
      queue := queue
      sock := { s.sock with addr := d.source }
      taken := s.taken ++ [d.source]
      errno := e
      pc := .idle } where
  waiting := by
    intro data ret hpc
    cases hpc
  fixed := by
    constructor
    · intro hf a ha
      rw [List.mem_append, List.mem_singleton] at ha
      have hold : s.Fixed := ⟨hf.2 _ hwaiting, hf.2⟩
      rcases ha with ha | rfl
      · exact h.fixed.mp hold a ha
      · exact hf.1
    · intro hall
      have hold : s.Fixed := h.fixed.mpr fun a ha => hall a (List.mem_append_left _ ha)
      exact ⟨hall _ (List.mem_append_right _ (List.mem_singleton_self _)), hold.2⟩

theorem Kept.sendCall (h : s.Kept) {pc : SendPc} (hpc : s.pc = .send data pc)
    (hs : s.sendCall data pc o = some s') : s'.Kept := by
  cases o with
  | failed e =>
    have hs' : s' = s.resume data e (udoSockUdpSendData pc s.errno (.failed e) []) := by
      cases pc <;> (cases hs; rfl)
    rw [hs']
    apply h.resume rfl rfl (.inl rfl) rfl
    intro ret hout
    exact absurd (udoSockUdpSendData_running hout).2.2.1 (Outcome.not_succeeds_failed e)
  | done n =>
    cases pc with
    | sendto =>
      cases hs
      exact h.resume (u := { s with sent := s.sent ++ [s.sock.addr] }) rfl rfl (.inr rfl) rfl (fun _ _ => rfl) _
    | recvfrom ret =>
      simp only [Client.sendCall] at hs
      cases hqueue : s.queue with
      | nil =>
        rw [hqueue] at hs
        cases hs
      | cons d queue =>
        rw [hqueue] at hs
        cases hs
        cases hout : udoSockUdpSendData (.recvfrom ret) s.errno (.done (min d.bytes.length 4)) d.bytes with
        | running pc' => cases (udoSockUdpSendData_running hout).1
        | returned n => exact h.take (h.waiting data ret hpc) d queue s.errno

theorem Kept.step (h : s.Kept) (hs : s.step l = some s') : s'.Kept := by
  cases l with
  | connect o =>
    simp only [Client.step] at hs
    split_ifs at hs
    cases hs
    simp only [udoSockUdpClientConnect]
    split_ifs
    · exact h
    · cases o <;> exact ⟨h.waiting, h.fixed⟩
  | send data =>
    simp only [Client.step] at hs
    split_ifs at hs
    · cases hs; exact h
    · cases hs
      constructor
      · intro data' ret hpc
        cases hpc
      · exact h.fixed
  | arrive d =>
    simp only [Client.step] at hs
    split_ifs at hs
    cases hs
    exact ⟨h.waiting, h.fixed⟩
  | errno e =>
    simp only [Client.step] at hs
    split_ifs at hs
    cases hs
    exact ⟨h.waiting, h.fixed⟩
  | call o =>
    simp only [Client.step] at hs
    cases hpc : s.pc with
    | idle =>
      rw [hpc] at hs
      cases hs
    | send data pc =>
      rw [hpc] at hs
      exact h.sendCall hpc hs

theorem destination_fixed_iff (h : Reach (system inetPton) (fun _ _ => True) s) :
    s.Fixed ↔ ∀ a ∈ s.taken, a = s.configured := by
  have hkept : s.Kept := by
    apply h.invariant
    · rintro s ⟨socket, info, sock, -, rfl⟩
      constructor
      · intro data ret hpc
        cases hpc
      · constructor
        · intro _ a ha
          cases ha
        · intro _
          exact ⟨rfl, by intro a ha; cases ha⟩
    · intro s s' l hs _ hstep
      exact hs.step hstep
  exact hkept.fixed

def filtered (l : ClientAct) (s : Client) : Prop :=
  match l with
  | .arrive d => s.connected = none → d.source = s.configured
  | _ => True

instance (l : ClientAct) (s : Client) : Decidable (s.filtered l) :=
  match l with
  | .arrive d => inferInstanceAs (Decidable (s.connected = none → d.source = s.configured))
  | .connect _ | .send _ | .call _ | .errno _ => isTrue trivial

structure Filtered (s : Client) : Prop where
  stored : s.sock.addr = s.configured
  connected : ∀ a ∈ s.connected, a = s.configured
  queue : ∀ d ∈ s.queue, d.source = s.configured
  taken : ∀ a ∈ s.taken, a = s.configured

theorem Filtered.resume (h : s.Filtered) (e : Errno) (out : CallOut SendPc) : (s.resume data e out).Filtered := by
  cases out <;> exact ⟨h.stored, h.connected, h.queue, h.taken⟩

theorem Filtered.step (h : s.Filtered) (hok : s.filtered l) (hs : s.step l = some s') : s'.Filtered := by
  cases l with
  | connect o =>
    simp only [Client.step] at hs
    split_ifs at hs
    cases hs
    simp only [udoSockUdpClientConnect]
    split_ifs
    · exact h
    · cases o with
      | failed e => exact ⟨h.stored, h.connected, h.queue, h.taken⟩
      | done n =>
        refine ⟨h.stored, ?_, h.queue, h.taken⟩
        intro a ha
        cases ha
        exact h.stored
  | send data =>
    simp only [Client.step] at hs
    split_ifs at hs
    · cases hs; exact h
    · cases hs; exact ⟨h.stored, h.connected, h.queue, h.taken⟩
  | errno e =>
    simp only [Client.step] at hs
    split_ifs at hs
    cases hs
    exact ⟨h.stored, h.connected, h.queue, h.taken⟩
  | arrive d =>
    simp only [Client.step] at hs
    split_ifs at hs with hpeer
    cases hs
    refine ⟨h.stored, h.connected, ?_, h.taken⟩
    intro d' hd
    rw [List.mem_append, List.mem_singleton] at hd
    rcases hd with hd | rfl
    · exact h.queue d' hd
    · cases hc : s.connected with
      | none => exact hok hc
      | some peer => exact (hpeer peer hc).trans (h.connected peer hc)
  | call o =>
    simp only [Client.step] at hs
    cases hpc : s.pc with
    | idle =>
      rw [hpc] at hs
      cases hs
    | send data pc =>
      rw [hpc] at hs
      cases o with
      | failed e => cases pc <;> (cases hs; exact h.resume _ _)
      | done n =>
        cases pc with
        | sendto =>
          cases hs
          exact Filtered.resume (s := { s with sent := s.sent ++ [s.sock.addr] })
            ⟨h.stored, h.connected, h.queue, h.taken⟩ _ _
        | recvfrom ret =>
          simp only [Client.sendCall] at hs
          cases hqueue : s.queue with
          | nil =>
            rw [hqueue] at hs
            cases hs
          | cons d queue =>
            rw [hqueue] at hs
            cases hs
            have hd := h.queue d (by rw [hqueue]; exact List.mem_cons_self)
            apply Filtered.resume
            refine ⟨hd, h.connected, ?_, ?_⟩
            · intro d' hd'
              exact h.queue d' (by rw [hqueue]; exact List.mem_cons_of_mem _ hd')
            · intro a ha
              rw [List.mem_append, List.mem_singleton] at ha
              rcases ha with ha | rfl
              · exact h.taken a ha
              · exact hd

theorem taken_configured (h : Reach (system inetPton) (fun l s => s.filtered l) s) :
    ∀ a ∈ s.taken, a = s.configured := by
  have hfiltered : s.Filtered := by
    apply h.invariant
    · rintro s ⟨socket, info, sock, -, rfl⟩
      constructor
      · rfl
      · intro a ha
        cases ha
      · intro d hd
        cases hd
      · intro a ha
        cases ha
    · intro s s' l hs hok hstep
      exact hs.step hok hstep
  exact hfiltered.taken

def loopback (text : String) : Option (List UInt8) :=
  if text = "::1" then some [0, 0, 0, 0, 0, 0, 0, 0, 0, 0, 0, 0, 0, 0, 0, 1] else none

def created : Client :=
  let addr : SockAddr := ⟨7777, [0, 0, 0, 0, 0, 0, 0, 0, 0, 0, 0, 0, 0, 0, 0, 1]⟩
  { sock := ⟨3, "::1", 7777, addr⟩, configured := addr }

theorem created_init : (system loopback).init created :=
  ⟨some 3, some ⟨true, some "::1", 7777⟩, created.sock, by decide, rfl⟩

theorem destination_fixed_connected : ∃ s, Reach (system loopback) (fun _ _ => True) s ∧
    s.taken = [s.configured] ∧ s.Fixed := by
  obtain ⟨s, hs, htaken⟩ := exists_of_run (system loopback) (fun _ _ => True) (.init created_init)
    [.connect (.done 0), .send [68], .call (.done 1), .arrive ⟨created.configured, verifierBytes⟩, .call (.done 4)]
    (fun s => s.taken = [s.configured]) (by decide +kernel)
  refine ⟨s, hs, htaken, (destination_fixed_iff hs).mpr ?_⟩
  rw [htaken]
  simp

theorem destination_taken_over : ¬ ∀ (inetPton : String → Option (List UInt8)) (s : Client),
    Reach (system inetPton) (fun _ _ => True) s → s.Fixed := by
  intro fixed
  obtain ⟨s, hs, hsent, hconfigured⟩ := exists_of_run (system loopback) (fun _ _ => True) (.init created_init)
    [.send [68], .call (.done 1), .arrive ⟨⟨9, []⟩, [1]⟩, .call (.done 1), .send [69], .call (.done 1)]
    (fun s => ⟨9, []⟩ ∈ s.sent ∧ s.configured.port = 7777) (by decide +kernel)
  have := (fixed loopback s hs).2 _ hsent
  rw [← this] at hconfigured
  cases hconfigured

end Client

end Libcando.SockUdp
