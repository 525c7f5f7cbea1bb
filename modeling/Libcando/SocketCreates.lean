import Libcando.FailedCreates

namespace Libcando

open Fds

structure UdpAnswers where
  calloc : Bool := true
  socket : Bool := true
  reuseAddr : Bool := true
  reusePort : Bool := true
  v6Only : Bool := true
  pton : Bool := true
  vsock : Bool := true
  bind : Bool := true
  connect : Bool := true

-- udo_sock_udp_destroy, udo_usock_udp_destroy, udo_vsock_udp_destroy and udo_csock_raw_destroy
def udoUdpDestroy (fd : ℤ) (w : Fds) : Fds := w.close fd

/-- A socket that was not opened is closed all the same. -/
def pCreateSockFd (socket : Bool) (opts : List Bool) (w : Fds) : ℤ × Fds :=
  if socket = false then (-1, w.close (-1))
  else if opts.all id then (w.fresh, w.acquire)
  else (-1, w.acquire.close w.fresh)

def openSockFd (calloc socket : Bool) (opts : List Bool) : Create := fun w =>
  if calloc = false then .error w
  else
    let (fd, w) := pCreateSockFd socket opts w
    if fd = -1 then .error (udoUdpDestroy fd w) else .ok (fd, w)

def orClose (calls : List Bool) : ℤ × Fds → ℤ × Fds
  | (fd, w) => if fd = -1 then (-1, w) else if calls.all id then (fd, w) else (-1, w.close fd)

-- what the creates of UDP sockets do to the descriptors, whatever address they store
namespace SockUdp.Descriptors

def createSockFd (a : UdpAnswers) (w : Fds) : ℤ × Fds :=
  pCreateSockFd a.socket [a.reuseAddr, a.reusePort, a.v6Only] w

def pCreateSock (given : Bool) (a : UdpAnswers) : Create := fun w =>
  if given = false then .error w
  else (openSockFd a.calloc a.socket [a.reuseAddr, a.reusePort, a.v6Only] w).bind (orDestroy [a.pton])

def udoSockUdpServerCreate (given : Bool) (a : UdpAnswers) : Create := fun w =>
  (pCreateSock given a w).bind (orDestroy [a.bind])

def udoSockUdpClientCreate (given : Bool) (a : UdpAnswers) : Create := pCreateSock given a

def udoSockUdpServerAccept (addr : Bool) (a : UdpAnswers) (w : Fds) : ℤ × Fds :=
  if addr = false then (-1, w) else orClose [a.bind, a.connect] (createSockFd a w)

end SockUdp.Descriptors

namespace UsockUdp

def pCreateUsock (a : UdpAnswers) : Create := openSockFd a.calloc a.socket [a.reuseAddr]

def udoUsockUdpServerCreate (unixPath : Option (List UInt8)) (a : UdpAnswers) : Create := fun w =>
  if unixPath = none then .error w else (pCreateUsock a w).bind (orDestroy [a.bind])

def udoUsockUdpClientCreate (unixPath cliUnixPath : Option (List UInt8)) (a : UdpAnswers) : Create := fun w =>
  if unixPath = none ∨ cliUnixPath = none then .error w
  else (pCreateUsock a w).bind (orDestroy [a.bind, a.connect])

end UsockUdp

namespace VsockUdp

def pVsockGetLocalVcid (a : UdpAnswers) (w : Fds) : Fds := if a.vsock then w.acquire.close w.fresh else w

def udoVsockUdpGetLocalVcid (a : UdpAnswers) (w : Fds) : Fds := pVsockGetLocalVcid a w

def pCreateVsock (server : Bool) (vcid : Option ℕ) (a : UdpAnswers) : Create := fun w =>
  match vcid with
  | none => .error w
  | some vcid => (openSockFd a.calloc a.socket [a.reuseAddr] w).map fun (fd, w) =>
    (fd, if server ∧ vcid ≠ 1 then pVsockGetLocalVcid a w else w)

def udoVsockUdpServerCreate (vcid : Option ℕ) (a : UdpAnswers) : Create := fun w =>
  (pCreateVsock true vcid a w).bind (orDestroy [a.bind])

def udoVsockUdpClientCreate (vcid : Option ℕ) (a : UdpAnswers) : Create := pCreateVsock false vcid a

def udoVsockUdpServerAccept (addr : Bool) (a : UdpAnswers) (w : Fds) : ℤ × Fds :=
  if addr = false then (-1, w) else orClose [a.bind, a.connect] (pCreateSockFd a.socket [a.reuseAddr] w)

end VsockUdp

namespace CsockRaw

def udoCsockRawCreate (given ioctl : Bool) (a : UdpAnswers) : Create := fun w =>
  if given = false ∨ a.calloc = false then .error w
  else if a.socket = false then .error (udoUdpDestroy (-1) w)
  else orDestroy [ioctl, a.bind] (w.fresh, w.acquire)

end CsockRaw

-- udo_sock_tcp_server_accept and udo_usock_tcp_server_accept
def udoTcpServerAccept (accept keepAlive : Bool) (w : Fds) : ℤ × Fds :=
  if accept = false then (-1, w) else orClose [keepAlive] (w.fresh, w.acquire)

namespace VsockTcp

def udoVsockTcpServerAccept (accept : Bool) (w : Fds) : ℤ × Fds :=
  if accept = false then (-1, w) else (w.fresh, w.acquire)

end VsockTcp

inductive SockCreate
  | sockTcpServer (a : TcpAnswers)
  | sockTcpClient (a : TcpAnswers)
  | usockTcpServer (unixPath : Option (List UInt8)) (a : TcpAnswers)
  | usockTcpClient (unixPath : Option (List UInt8)) (a : TcpAnswers)
  | vsockTcpServer (vcid : ℕ) (a : TcpAnswers)
  | vsockTcpClient (vcid : ℕ) (a : TcpAnswers)
  | sockUdpServer (given : Bool) (a : UdpAnswers)
  | sockUdpClient (given : Bool) (a : UdpAnswers)
  | usockUdpServer (unixPath : Option (List UInt8)) (a : UdpAnswers)
  | usockUdpClient (unixPath cliUnixPath : Option (List UInt8)) (a : UdpAnswers)
  | vsockUdpServer (vcid : Option ℕ) (a : UdpAnswers)
  | vsockUdpClient (vcid : Option ℕ) (a : UdpAnswers)
  | csockRaw (given ioctl : Bool) (a : UdpAnswers)

namespace SockCreate

def run : SockCreate → Create
  | sockTcpServer a => SockTcp.udoSockTcpServerCreate a
  | sockTcpClient a => SockTcp.udoSockTcpClientCreate a
  | usockTcpServer unixPath a => UsockTcp.udoUsockTcpServerCreate unixPath a
  | usockTcpClient unixPath a => UsockTcp.udoUsockTcpClientCreate unixPath a
  | vsockTcpServer vcid a => VsockTcp.udoVsockTcpServerCreate vcid a
  | vsockTcpClient vcid a => VsockTcp.udoVsockTcpClientCreate vcid a
  | sockUdpServer given a => SockUdp.Descriptors.udoSockUdpServerCreate given a
  | sockUdpClient given a => SockUdp.Descriptors.udoSockUdpClientCreate given a
  | usockUdpServer unixPath a => UsockUdp.udoUsockUdpServerCreate unixPath a
  | usockUdpClient unixPath cliUnixPath a => UsockUdp.udoUsockUdpClientCreate unixPath cliUnixPath a
  | vsockUdpServer vcid a => VsockUdp.udoVsockUdpServerCreate vcid a
  | vsockUdpClient vcid a => VsockUdp.udoVsockUdpClientCreate vcid a
  | csockRaw given ioctl a => CsockRaw.udoCsockRawCreate given ioctl a

def calloc : SockCreate → Bool
  | sockTcpServer a | sockTcpClient a | usockTcpServer _ a | usockTcpClient _ a => a.calloc
  | vsockTcpServer _ a | vsockTcpClient _ a => a.calloc
  | sockUdpServer _ a | sockUdpClient _ a | usockUdpServer _ a | usockUdpClient _ _ a => a.calloc
  | vsockUdpServer _ a | vsockUdpClient _ a | csockRaw _ _ a => a.calloc

/-- The raw CAN socket never marks the memory it allocates as its own to free. -/
def marksFree : SockCreate → Bool
  | csockRaw .. => false
  | _ => true

end SockCreate

inductive SockAccept
  | tcp (accept keepAlive : Bool)
  | vsockTcp (accept : Bool)
  | sockUdp (addr : Bool) (a : UdpAnswers)
  | vsockUdp (addr : Bool) (a : UdpAnswers)

def SockAccept.run : SockAccept → Fds → ℤ × Fds
  | tcp accept keepAlive => udoTcpServerAccept accept keepAlive
  | vsockTcp accept => VsockTcp.udoVsockTcpServerAccept accept
  | sockUdp addr a => SockUdp.Descriptors.udoSockUdpServerAccept addr a
  | vsockUdp addr a => VsockUdp.udoVsockUdpServerAccept addr a

namespace Fds

def Spared (w w' : Fds) : Prop :=
  ∃ calls, w'.closes = w.closes ++ calls ∧ ∀ fd, (fd, true) ∈ calls → w.table.owner fd = none

structure Restored (w w' : Fds) : Prop where
  owner : ∀ n, w'.table.owner n = w.table.owner n
  spared : Spared w w'

structure Opened (w : Fds) (fd : ℤ) (w' : Fds) : Prop where
  unused : w.table.owner fd = none
  nonneg : 0 ≤ fd
  owner : ∀ n, w'.table.owner n = if n = fd then some () else w.table.owner n
  spared : Spared w w'

variable {w w' w'' : Fds} {fd : ℤ}

theorem Restored.refl (w : Fds) : Restored w w :=
  ⟨fun _ => rfl, [], by simp, by simp⟩

theorem owner_close (n : ℤ) : (w.close fd).table.owner n = if n = fd then none else w.table.owner n :=
  DescriptorTable.owner_release fd n

theorem Spared.close (h : Spared w w') (hfd : w.table.owner fd = none) : Spared w (w'.close fd) := by
  obtain ⟨calls, hcalls, hnone⟩ := h
  refine ⟨calls ++ [(fd, (w'.table.owner fd).isSome)], ?_, ?_⟩
  · rw [Fds.close, hcalls, List.append_assoc]
  · intro n hn
    rcases List.mem_append.mp hn with hold | hnew
    · exact hnone n hold
    · obtain ⟨rfl, -⟩ := Prod.mk.inj (List.mem_singleton.mp hnew)
      exact hfd

theorem Restored.close (h : Restored w w') (hfd : w.table.owner fd = none) : Restored w (w'.close fd) := by
  refine ⟨fun n => ?_, h.spared.close hfd⟩
  rw [owner_close, h.owner]
  split_ifs with hn
  · rw [hn, hfd]
  · rfl

theorem Restored.acquire (h : Restored w w') : Opened w w'.fresh w'.acquire where
  unused := by
    rw [← h.owner]
    exact DescriptorTable.owner_lowest w'.table
  nonneg := Int.natCast_nonneg _
  owner n := by
    rw [Fds.acquire, DescriptorTable.owner_acquire, h.owner]
    rfl
  spared := h.spared

theorem Opened.close (h : Opened w fd w') : Restored w (w'.close fd) := by
  refine ⟨fun n => ?_, h.spared.close h.unused⟩
  rw [owner_close, h.owner]
  split_ifs with hn
  · rw [hn, h.unused]
  · rfl

theorem Opened.device (h : Opened w fd w') : Opened w fd (w'.acquire.close w'.fresh) := by
  have hback := (Restored.refl w').acquire.close
  have hspared : Spared w w'.acquire := h.spared
  refine ⟨h.unused, h.nonneg, fun n => (hback.owner n).trans (h.owner n), hspared.close ?_⟩
  have hfree : w'.table.owner w'.fresh = none := DescriptorTable.owner_lowest w'.table
  rw [h.owner] at hfree
  split_ifs at hfree
  exact hfree

def Sound (w : Fds) : Except Fds (ℤ × Fds) → Prop
  | .error w' => Restored w w'
  | .ok (fd, w') => Opened w fd w'

def Handed (w : Fds) (p : ℤ × Fds) : Prop :=
  p.1 = -1 ∧ Restored w p.2 ∨ p.1 ≠ -1 ∧ Opened w p.1 p.2

end Fds

variable {w : Fds} {calloc socket : Bool} {opts calls : List Bool}

theorem Fds.Opened.ne {fd : ℤ} {w' : Fds} (h : Opened w fd w') : fd ≠ -1 := by
  have := h.nonneg
  omega

theorem Fds.Sound.bind {x : Except Fds (ℤ × Fds)} (h : Sound w x) {f : ℤ × Fds → Except Fds (ℤ × Fds)}
    (hf : ∀ fd w', Opened w fd w' → Sound w (f (fd, w'))) : Sound w (x.bind f) := by
  cases x with
  | error w' => exact h
  | ok p => exact hf p.1 p.2 h

theorem Fds.Opened.orDestroy {fd : ℤ} {w' : Fds} (h : Opened w fd w') : Sound w (orDestroy calls (fd, w')) := by
  rw [Libcando.orDestroy]
  split_ifs
  · exact h
  · exact h.close

theorem Fds.Handed.orClose {p : ℤ × Fds} (h : Handed w p) : Handed w (orClose calls p) := by
  obtain ⟨fd, w'⟩ := p
  rw [Libcando.orClose]
  rcases h with ⟨hfd, hrestored⟩ | ⟨hfd, hopened⟩
  · rw [if_pos hfd]
    exact .inl ⟨rfl, hrestored⟩
  · rw [if_neg hfd]
    split_ifs
    · exact .inr ⟨hfd, hopened⟩
    · exact .inl ⟨rfl, hopened.close⟩

theorem openSock_sound : Sound w (openSock calloc socket opts w) := by
  have hw := Restored.refl w
  rw [openSock]
  split_ifs
  · exact hw
  · exact hw.close (by simp)
  · rw [pSetSockOpts]
    split_ifs
    · exact hw.acquire
    · exact hw.acquire.close.close hw.acquire.unused

theorem pCreateSockFd_handed : Handed w (pCreateSockFd socket opts w) := by
  have hw := Restored.refl w
  rw [pCreateSockFd]
  split_ifs
  · exact .inl ⟨rfl, hw.close (by simp)⟩
  · exact .inr ⟨hw.acquire.ne, hw.acquire⟩
  · exact .inl ⟨rfl, hw.acquire.close⟩

theorem openSockFd_sound : Sound w (openSockFd calloc socket opts w) := by
  rw [openSockFd]
  split_ifs with hcalloc
  · exact .refl w
  · rcases (pCreateSockFd_handed : Handed w (pCreateSockFd socket opts w)) with ⟨hfd, hrestored⟩ | ⟨hfd, hopened⟩
    · simp only [hfd, if_true]
      exact hrestored.close (by simp)
    · simp only [hfd, if_false]
      exact hopened

theorem Fds.Sound.map_device {x : Except Fds (ℤ × Fds)} (h : Sound w x) {f : ℤ × Fds → ℤ × Fds}
    (hf : ∀ fd w', f (fd, w') = (fd, w') ∨ f (fd, w') = (fd, w'.acquire.close w'.fresh)) : Sound w (x.map f) := by
  cases x with
  | error w' => exact h
  | ok p =>
    obtain ⟨fd, w'⟩ := p
    change Sound w (.ok (f (fd, w')))
    rcases hf fd w' with hsame | hdevice
    · rw [hsame]
      exact h
    · rw [hdevice]
      exact Opened.device h

theorem SockCreate.run_sound (c : SockCreate) (w : Fds) : Sound w (c.run w) := by
  have tcp (a : TcpAnswers) : Sound w (SockTcp.pCreateSock a w) :=
    openSock_sound.bind fun _ _ h => h.orDestroy
  have usockTcp (unixPath : Option (List UInt8)) (a : TcpAnswers) : Sound w (UsockTcp.pCreateSock unixPath a w) := by
    rw [UsockTcp.pCreateSock]
    split_ifs
    · exact .refl w
    · exact openSock_sound
  have vsockTcp (server : Bool) (vcid : ℕ) (a : TcpAnswers) : Sound w (VsockTcp.pCreateVsock server vcid a w) := by
    apply openSock_sound.map_device
    intro fd w'
    simp only [VsockTcp.pVsockGetLocalVcid]
    split_ifs <;> simp
  have udp (given : Bool) (a : UdpAnswers) : Sound w (SockUdp.Descriptors.pCreateSock given a w) := by
    rw [SockUdp.Descriptors.pCreateSock]
    split_ifs
    · exact .refl w
    · exact openSockFd_sound.bind fun _ _ h => h.orDestroy
  have vsockUdp (server : Bool) (vcid : Option ℕ) (a : UdpAnswers) :
      Sound w (VsockUdp.pCreateVsock server vcid a w) := by
    cases vcid with
    | none => exact .refl w
    | some vcid =>
      apply openSockFd_sound.map_device
      intro fd w'
      simp only [VsockUdp.pVsockGetLocalVcid]
      split_ifs <;> simp
  cases c with
  | sockTcpServer a => exact (tcp a).bind fun _ _ h => h.orDestroy
  | sockTcpClient a => exact tcp a
  | usockTcpServer unixPath a => exact (usockTcp unixPath a).bind fun _ _ h => h.orDestroy
  | usockTcpClient unixPath a => exact usockTcp unixPath a
  | vsockTcpServer vcid a => exact (vsockTcp true vcid a).bind fun _ _ h => h.orDestroy
  | vsockTcpClient vcid a => exact vsockTcp false vcid a
  | sockUdpServer given a => exact (udp given a).bind fun _ _ h => h.orDestroy
  | sockUdpClient given a => exact udp given a
  | usockUdpServer unixPath a =>
    change Sound w (UsockUdp.udoUsockUdpServerCreate unixPath a w)
    rw [UsockUdp.udoUsockUdpServerCreate]
    split_ifs
    · exact .refl w
    · exact openSockFd_sound.bind fun _ _ h => h.orDestroy
  | usockUdpClient unixPath cliUnixPath a =>
    change Sound w (UsockUdp.udoUsockUdpClientCreate unixPath cliUnixPath a w)
    rw [UsockUdp.udoUsockUdpClientCreate]
    split_ifs
    · exact .refl w
    · exact openSockFd_sound.bind fun _ _ h => h.orDestroy
  | vsockUdpServer vcid a => exact (vsockUdp true vcid a).bind fun _ _ h => h.orDestroy
  | vsockUdpClient vcid a => exact vsockUdp false vcid a
  | csockRaw given ioctl a =>
    change Sound w (CsockRaw.udoCsockRawCreate given ioctl a w)
    have hw := Restored.refl w
    rw [CsockRaw.udoCsockRawCreate]
    split_ifs
    · exact hw
    · exact hw.close (by simp)
    · exact hw.acquire.orDestroy

theorem SockAccept.run_handed (c : SockAccept) (w : Fds) : Handed w (c.run w) := by
  have hw := Restored.refl w
  have hopened : Handed w (w.fresh, w.acquire) := .inr ⟨hw.acquire.ne, hw.acquire⟩
  cases c with
  | tcp accept keepAlive =>
    change Handed w (udoTcpServerAccept accept keepAlive w)
    rw [udoTcpServerAccept]
    split_ifs
    · exact .inl ⟨rfl, hw⟩
    · exact hopened.orClose
  | vsockTcp accept =>
    change Handed w (VsockTcp.udoVsockTcpServerAccept accept w)
    rw [VsockTcp.udoVsockTcpServerAccept]
    split_ifs
    · exact .inl ⟨rfl, hw⟩
    · exact hopened
  | sockUdp addr a =>
    change Handed w (SockUdp.Descriptors.udoSockUdpServerAccept addr a w)
    rw [SockUdp.Descriptors.udoSockUdpServerAccept]
    split_ifs
    · exact .inl ⟨rfl, hw⟩
    · exact pCreateSockFd_handed.orClose
  | vsockUdp addr a =>
    change Handed w (VsockUdp.udoVsockUdpServerAccept addr a w)
    rw [VsockUdp.udoVsockUdpServerAccept]
    split_ifs
    · exact .inl ⟨rfl, hw⟩
    · exact pCreateSockFd_handed.orClose

end Libcando
