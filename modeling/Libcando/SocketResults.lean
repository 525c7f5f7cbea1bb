import Libcando.Futex
import Libcando.Log
import Libcando.Syscall

namespace Libcando.SocketResults

open Futex Syscall

def Retryable (e : Errno) : Prop := e = eintr ∨ e = eagain

instance : DecidablePred Retryable := fun e => inferInstanceAs (Decidable (e = eintr ∨ e = eagain))

theorem Retryable.pos {e : Errno} (h : Retryable e) : 0 < e := by
  rcases h with rfl | rfl <;> simp

abbrev Kernel := ℤ → ℕ → ℕ → ℤ → Outcome

structure Request where
  sockFd : ℤ
  data : ℕ
  size : ℕ
  sockInfo : Option ℤ
  deriving DecidableEq

structure Returned where
  value : ℤ
  errno : Errno
  logged : Option String
  deriving DecidableEq

def flags (info : Option ℤ) : ℤ := info.getD 0

def Request.Valid (r : Request) : Prop := ¬(r.sockFd < 0 ∨ r.data = 0 ∨ r.size = 0)

instance : DecidablePred Request.Valid := fun r =>
  inferInstanceAs (Decidable ¬(r.sockFd < 0 ∨ r.data = 0 ∨ r.size = 0))

def Request.outcome (r : Request) (kernel : Kernel) : Outcome :=
  kernel r.sockFd r.data r.size (flags r.sockInfo)

def Fresh (errno : Errno) (o : Outcome) : Prop := o.Succeeds → ¬Retryable errno

section Stream

variable (kernel : Kernel) (strerror : Errno → String) (r : Request) (errno : Errno)

def transferData (call : String) : Returned :=
  if r.sockFd < 0 ∨ r.data = 0 ∨ r.size = 0 then ⟨-1, errno, none⟩
  else
    let o := kernel r.sockFd r.data r.size (flags r.sockInfo)
    let errno' := o.errno errno
    if Retryable errno' then ⟨-errno', errno', none⟩
    else if o.ret = -1 then ⟨-1, errno', some (call ++ ": " ++ strerror errno' ++ "\n")⟩
    else ⟨o.ret, errno', none⟩

def udoSockTcpRecvData : Returned := transferData kernel strerror r errno "recv"
def udoSockTcpSendData : Returned := transferData kernel strerror r errno "send"
def udoUsockTcpRecvData : Returned := transferData kernel strerror r errno "recv"
def udoUsockTcpSendData : Returned := transferData kernel strerror r errno "send"
def udoVsockTcpRecvData : Returned := transferData kernel strerror r errno "recv"
def udoVsockTcpSendData : Returned := transferData kernel strerror r errno "send"

inductive StreamCall
  | sockRecv
  | sockSend
  | usockRecv
  | usockSend
  | vsockRecv
  | vsockSend
  deriving DecidableEq

def StreamCall.run : StreamCall → Returned
  | sockRecv => udoSockTcpRecvData kernel strerror r errno
  | sockSend => udoSockTcpSendData kernel strerror r errno
  | usockRecv => udoUsockTcpRecvData kernel strerror r errno
  | usockSend => udoUsockTcpSendData kernel strerror r errno
  | vsockRecv => udoVsockTcpRecvData kernel strerror r errno
  | vsockSend => udoVsockTcpSendData kernel strerror r errno

variable {kernel strerror r errno}

theorem transferData_value (call : String) (hr : r.Valid) :
    (transferData kernel strerror r errno call).value =
      errnoFirst Retryable errno (r.outcome kernel) := by
  rw [transferData, if_neg hr, errnoFirst]
  simp only [apply_ite Returned.value, Request.outcome]
  rfl

theorem StreamCall.run_value (c : StreamCall) (hr : r.Valid) :
    (c.run kernel strerror r errno).value = errnoFirst Retryable errno (r.outcome kernel) := by
  cases c <;> exact transferData_value _ hr

theorem transferData_logged (call : String) (hr : r.Valid)
    (h : (transferData kernel strerror r errno call).logged = none) :
    0 ≤ (transferData kernel strerror r errno call).value ∨
      Retryable ((r.outcome kernel).errno errno) := by
  rw [transferData, if_neg hr] at h ⊢
  simp only [Request.outcome] at h ⊢
  split_ifs at h ⊢ with hR hret
  · exact .inr hR
  · left
    cases ho : kernel r.sockFd r.data r.size (flags r.sockInfo) with
    | done n => simp
    | failed e => simp [ho] at hret

end Stream

section Frame

def canFrameSize : ℕ := 16

structure CsockRaw where
  err : LogError
  fd : ℤ
  deriving DecidableEq

variable (kernel : Kernel) (strerror : Errno → String) (csock : Option CsockRaw) (frame : ℕ)
  (csockInfo : Option ℤ) (errno : Errno)

def transferFrame (call : String) : ℤ × Option CsockRaw :=
  match csock with
  | none => (-1, none)
  | some csock =>
    if csock.fd < 0 ∨ frame = 0 then (-1, some { csock with err := ⟨udoLogErrIncorrectData, ""⟩ })
    else
      let o := kernel csock.fd frame canFrameSize (flags csockInfo)
      let errno' := o.errno errno
      if o.ret ≠ canFrameSize then
        (-1, some { csock with err := ⟨udoLogErrUncommon, call ++ ": incomplete CAN frame"⟩ })
      else if Retryable errno' then (-errno', some csock)
      else if o.ret = -1 then (-1, some { csock with err := ⟨errno', call ++ ": " ++ strerror errno'⟩ })
      else (o.ret, some csock)

def udoCsockRawSendData : ℤ × Option CsockRaw :=
  transferFrame kernel strerror csock frame csockInfo errno "send"

def udoCsockRawRecvData : ℤ × Option CsockRaw :=
  transferFrame kernel strerror csock frame csockInfo errno "recv"

inductive FrameCall
  | send
  | recv
  deriving DecidableEq

def FrameCall.run : FrameCall → ℤ × Option CsockRaw
  | send => udoCsockRawSendData kernel strerror csock frame csockInfo errno
  | recv => udoCsockRawRecvData kernel strerror csock frame csockInfo errno

/-- What a frame's outcome says by itself: a part of a frame is a failure. -/
def frameResult : Outcome → ℤ
  | .done n => if n = canFrameSize then n else -1
  | .failed e => ownResult Retryable (.failed e)

def FreshFrame (errno : Errno) (o : Outcome) : Prop := o = .done canFrameSize → ¬Retryable errno

def NoRetry (o : Outcome) : Prop := ∀ e, o = .failed e → ¬Retryable e

variable {kernel strerror frame csockInfo errno}

theorem transferFrame_done (call : String) {csock : CsockRaw} (hc : ¬(csock.fd < 0 ∨ frame = 0)) {n : ℕ}
    (ho : kernel csock.fd frame canFrameSize (flags csockInfo) = .done n) :
    (transferFrame kernel strerror (some csock) frame csockInfo errno call).1 =
      if n = canFrameSize then (if Retryable errno then -(errno : ℤ) else n) else -1 := by
  simp only [transferFrame, if_neg hc, ho, Outcome.ret, Outcome.errno]
  by_cases hn : n = canFrameSize
  · by_cases he : Retryable errno
    · simp [hn, he]
    · simp [hn, he]
  · have hn' : (n : ℤ) ≠ (canFrameSize : ℕ) := by exact_mod_cast hn
    rw [if_pos hn', if_neg hn]

theorem transferFrame_failed (call : String) {csock : CsockRaw} (hc : ¬(csock.fd < 0 ∨ frame = 0)) {e : Errno}
    (ho : kernel csock.fd frame canFrameSize (flags csockInfo) = .failed e) :
    (transferFrame kernel strerror (some csock) frame csockInfo errno call).1 = -1 := by
  simp only [transferFrame, if_neg hc, ho, Outcome.ret, Outcome.errno]
  rw [if_pos (by decide)]

theorem FrameCall.run_done (c : FrameCall) {csock : CsockRaw} (hc : ¬(csock.fd < 0 ∨ frame = 0)) {n : ℕ}
    (ho : kernel csock.fd frame canFrameSize (flags csockInfo) = .done n) :
    (c.run kernel strerror (some csock) frame csockInfo errno).1 =
      if n = canFrameSize then (if Retryable errno then -(errno : ℤ) else n) else -1 := by
  cases c <;> exact transferFrame_done _ hc ho

theorem FrameCall.run_failed (c : FrameCall) {csock : CsockRaw} (hc : ¬(csock.fd < 0 ∨ frame = 0)) {e : Errno}
    (ho : kernel csock.fd frame canFrameSize (flags csockInfo) = .failed e) :
    (c.run kernel strerror (some csock) frame csockInfo errno).1 = -1 := by
  cases c <;> exact transferFrame_failed _ hc ho

theorem FrameCall.run_eq_frameResult_iff (c : FrameCall) {csock : CsockRaw} (hc : ¬(csock.fd < 0 ∨ frame = 0))
    {o : Outcome} (ho : kernel csock.fd frame canFrameSize (flags csockInfo) = o) :
    (c.run kernel strerror (some csock) frame csockInfo errno).1 = frameResult o ↔
      FreshFrame errno o ∧ NoRetry o := by
  simp only [FreshFrame, NoRetry]
  cases o with
  | done n =>
    rw [c.run_done hc ho, frameResult]
    by_cases hn : n = canFrameSize
    · subst hn
      by_cases he : Retryable errno
      · have := he.pos
        simp only [he, if_true, not_true_eq_false, imp_false, reduceCtorEq, false_implies, implies_true, and_true,
          iff_false, canFrameSize]
        omega
      · simp [he]
    · simp [hn]
  | failed e =>
    rw [c.run_failed hc ho, frameResult, ownResult]
    by_cases he : Retryable e
    · simp only [he, if_true, reduceCtorEq, false_implies, true_and, Outcome.failed.injEq, forall_eq',
        not_true_eq_false, iff_false]
      rcases he with rfl | rfl <;> simp
    · simp [he]

theorem FrameCall.run_agree_iff (c : FrameCall) {csock : CsockRaw} (hc : ¬(csock.fd < 0 ∨ frame = 0))
    {a b : Errno} (hab : a ≠ b) {o : Outcome} (ho : kernel csock.fd frame canFrameSize (flags csockInfo) = o) :
    (c.run kernel strerror (some csock) frame csockInfo a).1 =
        (c.run kernel strerror (some csock) frame csockInfo b).1 ↔
      FreshFrame a o ∧ FreshFrame b o := by
  simp only [FreshFrame]
  cases o with
  | done n =>
    rw [c.run_done hc ho, c.run_done hc ho]
    by_cases hn : n = canFrameSize
    · subst hn
      have := errnoFirst_agree_iff (R := Retryable) (fun e h => h.pos) hab (.done canFrameSize)
      simpa [errnoFirst_done] using this
    · simp [hn]
  | failed e => simp [c.run_failed hc ho]

end Frame

theorem results_classified_iff (kernel : Kernel) (strerror : Errno → String) (errno errno' : Errno)
    (hne : errno ≠ errno') :
    (∀ (c : StreamCall) (r : Request), r.Valid →
      ((c.run kernel strerror r errno).value = ownResult Retryable (r.outcome kernel) ↔
          Fresh errno (r.outcome kernel)) ∧
        ((c.run kernel strerror r errno).value = (c.run kernel strerror r errno').value ↔
          Fresh errno (r.outcome kernel) ∧ Fresh errno' (r.outcome kernel))) ∧
      ∀ (c : FrameCall) (csock : CsockRaw) (frame : ℕ) (csockInfo : Option ℤ) (o : Outcome),
        ¬(csock.fd < 0 ∨ frame = 0) → kernel csock.fd frame canFrameSize (flags csockInfo) = o →
          ((c.run kernel strerror (some csock) frame csockInfo errno).1 = frameResult o ↔
              FreshFrame errno o ∧ NoRetry o) ∧
            ((c.run kernel strerror (some csock) frame csockInfo errno).1 =
                (c.run kernel strerror (some csock) frame csockInfo errno').1 ↔
              FreshFrame errno o ∧ FreshFrame errno' o) := by
  constructor
  · intro c r hr
    constructor
    · rw [c.run_value hr]
      exact errnoFirst_eq_ownResult_iff (fun e h => h.pos) errno _
    · rw [c.run_value hr, c.run_value hr, errnoFirst_agree_iff (fun e h => h.pos) hne]
      exact imp_and
  · intro c csock frame csockInfo o hc ho
    constructor
    · exact c.run_eq_frameResult_iff hc ho
    · exact c.run_agree_iff hc hne ho

theorem results_classified_send :
    (udoSockTcpSendData (fun _ _ _ _ => .done 5) (fun _ => "") ⟨3, 4096, 5, none⟩ 0).value = 5 := by
  have h := (results_classified_iff (fun _ _ _ _ => .done 5) (fun _ => "") 0 eintr (by decide)).1 .sockSend
    ⟨3, 4096, 5, none⟩ (by decide)
  apply h.1.mpr
  intro _
  decide

theorem stale_errno_reported :
    (udoSockTcpSendData (fun _ _ _ _ => .done 5) (fun _ => "") ⟨3, 4096, 5, none⟩ eintr).value ≠
        ownResult Retryable (.done 5) ∧
      (udoSockTcpSendData (fun _ _ _ _ => .done 5) (fun _ => "") ⟨3, 4096, 5, none⟩ eintr).value ≠
        (udoSockTcpSendData (fun _ _ _ _ => .done 5) (fun _ => "") ⟨3, 4096, 5, none⟩ 0).value ∧
      (udoCsockRawSendData (fun _ _ _ _ => .failed eintr) (fun _ => "") (some ⟨⟨0, ""⟩, 3⟩) 4096 none 0).1 ≠
        frameResult (.failed eintr) := by
  decide

end Libcando.SocketResults
