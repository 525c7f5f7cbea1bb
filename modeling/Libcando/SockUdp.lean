import Libcando.SocketResults

namespace Libcando.SockUdp

open Futex SocketResults Syscall

def verifier : ℕ := 0xFA4C62B5

def verifierBytes : List UInt8 := [0xB5, 0x62, 0x4C, 0xFA]

def receivedData (bytes : List UInt8) : ℕ := (bytes.take 4).foldr (fun byte word => byte.toNat + 256 * word) 0

theorem receivedData_verifierBytes : receivedData verifierBytes = verifier := by
  decide

inductive CallOut (Pc : Type)
  | running (pc : Pc)
  | returned (value : ℤ)
  deriving DecidableEq

/-- The tests that follow every system call: the error number is looked at before the result. -/
def tested {Pc : Type} (errno : Errno) (o : Outcome) (out : CallOut Pc) : CallOut Pc :=
  if Retryable (o.errno errno) then .returned (-(o.errno errno))
  else if o.ret = -1 then .returned (-1)
  else out

inductive SendPc
  | sendto
  | recvfrom (ret : ℤ)
  deriving DecidableEq

inductive RecvPc
  | recvfrom
  | sendto (ret : ℤ)
  deriving DecidableEq

def udoSockUdpSendData (pc : SendPc) (errno : Errno) (o : Outcome) (received : List UInt8) : CallOut SendPc :=
  match pc with
  | .sendto => tested errno o (.running (.recvfrom o.ret))
  | .recvfrom ret => tested errno o (.returned (if receivedData received ≠ verifier then -1 else ret))

def udoSockUdpRecvData (pc : RecvPc) (errno : Errno) (o : Outcome) : CallOut RecvPc :=
  match pc with
  | .recvfrom => tested errno o (.running (.sendto o.ret))
  | .sendto ret => tested errno o (.returned ret)

section

variable {Pc : Type} {errno : Errno} {o : Outcome} {out : CallOut Pc} {pc : Pc} {n : ℤ}

theorem tested_running (h : tested errno o out = .running pc) : out = .running pc ∧ o.Succeeds ∧ ¬Retryable errno := by
  rw [tested] at h
  split_ifs at h with hretry hret
  refine ⟨h, ?_⟩
  cases o with
  | done n => exact ⟨⟨n, rfl⟩, hretry⟩
  | failed e => exact absurd rfl hret

theorem tested_returned (h : tested errno o out = .returned n) (hn : 0 ≤ n) :
    out = .returned n ∧ o.Succeeds ∧ ¬Retryable errno := by
  rw [tested] at h
  split_ifs at h with hretry hret
  · have hpos : (0 : ℕ) < o.errno errno := hretry.pos
    simp only [CallOut.returned.injEq] at h
    omega
  · simp only [CallOut.returned.injEq] at h
    omega
  · refine ⟨h, ?_⟩
    cases o with
    | done n => exact ⟨⟨n, rfl⟩, hretry⟩
    | failed e => exact absurd rfl hret

theorem udoSockUdpSendData_running {pc : SendPc} {received : List UInt8} {spc : SendPc}
    (h : udoSockUdpSendData spc errno o received = .running pc) :
    spc = .sendto ∧ pc = .recvfrom o.ret ∧ o.Succeeds ∧ ¬Retryable errno := by
  cases spc with
  | sendto =>
    obtain ⟨hpc, hsucc, herr⟩ := tested_running h
    cases hpc
    exact ⟨rfl, rfl, hsucc, herr⟩
  | recvfrom ret =>
    obtain ⟨hpc, -⟩ := tested_running h
    cases hpc

theorem udoSockUdpSendData_returned {received : List UInt8} {spc : SendPc}
    (h : udoSockUdpSendData spc errno o received = .returned n) (hn : 0 ≤ n) :
    ∃ ret, spc = .recvfrom ret ∧ o.Succeeds ∧ receivedData received = verifier := by
  cases spc with
  | sendto =>
    obtain ⟨hout, -⟩ := tested_returned h hn
    cases hout
  | recvfrom ret =>
    obtain ⟨hout, hsucc, -⟩ := tested_returned h hn
    refine ⟨ret, rfl, hsucc, ?_⟩
    by_contra hne
    rw [if_pos hne] at hout
    simp only [CallOut.returned.injEq] at hout
    omega

theorem udoSockUdpRecvData_running {pc rpc : RecvPc} (h : udoSockUdpRecvData rpc errno o = .running pc) :
    rpc = .recvfrom ∧ o.Succeeds := by
  cases rpc with
  | recvfrom => exact ⟨rfl, (tested_running h).2.1⟩
  | sendto ret =>
    obtain ⟨hpc, -⟩ := tested_running h
    cases hpc

end

end Libcando.SockUdp
