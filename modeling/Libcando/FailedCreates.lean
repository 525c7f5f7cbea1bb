import Libcando.DescriptorTable
import Libcando.ShmLayout

namespace Libcando

open Shm

structure Fds where
  table : DescriptorTable Unit
  opens : List ℤ := []
  closes : List (ℤ × Bool) := []

abbrev Create := Fds → Except Fds (ℤ × Fds)

namespace Fds

def fresh (w : Fds) : ℤ := w.table.lowest

def acquire (w : Fds) : Fds := { w with table := w.table.acquire (), opens := w.opens ++ [w.fresh] }

def close (fd : ℤ) (w : Fds) : Fds :=
  { w with table := w.table.release fd, closes := w.closes ++ [(fd, (w.table.owner fd).isSome)] }

end Fds

structure ShmAnswers where
  calloc : Bool := true
  opened : Bool := true
  truncated : Bool := true
  mapped : Bool := true
  attached : ℕ := 0

/-- Nothing is returned when mmap fails: the failure is not seen, and the count is loaded from address -1. -/
def pShmCreate (info : Option ShmCreateInfo) (a : ShmAnswers) (w : Fds) : Option (Bool × ℤ × Fds) :=
  match pShmCreateCheck info with
  | .error _ => some (false, 0, w)
  | .ok info =>
    if a.opened = false then some (false, -1, w)
    else if a.truncated = false then some (false, w.fresh, w.acquire)
    else if a.mapped = false then none
    else some (decide (a.attached < info.procCount), w.fresh, w.acquire)

def udoShmDestroy (fd : ℤ) (w : Fds) : Fds := w.close fd

def udoShmCreate (info : Option ShmCreateInfo) (a : ShmAnswers) (w : Fds) : Option (Except Fds (ℤ × Fds)) :=
  if a.calloc = false then some (.error w)
  else (pShmCreate info a w).map fun
    | (true, fd, w) => .ok (fd, w)
    | (false, fd, w) => .error (udoShmDestroy fd w)

structure TcpAnswers where
  calloc : Bool := true
  socket : Bool := true
  reuseAddr : Bool := true
  reusePort : Bool := true
  v6Only : Bool := true
  pton : Bool := true
  vsock : Bool := true
  keepCnt : Bool := true
  keepIdle : Bool := true
  keepIntvl : Bool := true
  bind : Bool := true
  listen : Bool := true

-- udo_sock_tcp_destroy, udo_usock_tcp_destroy and udo_vsock_tcp_destroy
def udoTcpDestroy (fd : ℤ) (w : Fds) : Fds := w.close fd

def pSetSockOpts (opts : List Bool) (sockFd : ℤ) (w : Fds) : Except Fds Fds :=
  if opts.all id then .ok w else .error (w.close sockFd)

def openSock (calloc socket : Bool) (opts : List Bool) : Create := fun w =>
  if calloc = false then .error w
  else if socket = false then .error (udoTcpDestroy (-1) w)
  else match pSetSockOpts opts w.fresh w.acquire with
    | .error w' => .error (udoTcpDestroy w.fresh w')
    | .ok w' => .ok (w.fresh, w')

def orDestroy (calls : List Bool) : ℤ × Fds → Except Fds (ℤ × Fds)
  | (fd, w) => if calls.all id then .ok (fd, w) else .error (udoTcpDestroy fd w)

namespace SockTcp

def pCreateSock (a : TcpAnswers) : Create := fun w =>
  (openSock a.calloc a.socket [a.reuseAddr, a.reusePort, a.v6Only] w).bind (orDestroy [a.pton])

def udoSockTcpServerCreate (a : TcpAnswers) : Create := fun w =>
  (pCreateSock a w).bind (orDestroy [a.keepCnt, a.keepIdle, a.keepIntvl, a.bind, a.listen])

def udoSockTcpClientCreate (a : TcpAnswers) : Create := pCreateSock a

end SockTcp

namespace UsockTcp

def pCreateSock (unixPath : Option (List UInt8)) (a : TcpAnswers) : Create := fun w =>
  if unixPath = none then .error w else openSock a.calloc a.socket [a.reuseAddr] w

def udoUsockTcpServerCreate (unixPath : Option (List UInt8)) (a : TcpAnswers) : Create := fun w =>
  (pCreateSock unixPath a w).bind (orDestroy [a.bind, a.listen])

def udoUsockTcpClientCreate (unixPath : Option (List UInt8)) (a : TcpAnswers) : Create := pCreateSock unixPath a

end UsockTcp

namespace VsockTcp

def pVsockGetLocalVcid (a : TcpAnswers) (w : Fds) : Fds := if a.vsock then w.acquire.close w.fresh else w

def pCreateVsock (server : Bool) (vcid : ℕ) (a : TcpAnswers) : Create := fun w =>
  (openSock a.calloc a.socket [a.reuseAddr] w).map fun (fd, w) =>
    (fd, if server ∧ vcid ≠ 1 then pVsockGetLocalVcid a w else w)

def udoVsockTcpServerCreate (vcid : ℕ) (a : TcpAnswers) : Create := fun w =>
  (pCreateVsock true vcid a w).bind (orDestroy [a.bind, a.listen])

def udoVsockTcpClientCreate (vcid : ℕ) (a : TcpAnswers) : Create := pCreateVsock false vcid a

end VsockTcp

inductive CreateCall
  | shm (info : Option ShmCreateInfo) (a : ShmAnswers)
  | sockServer (a : TcpAnswers)
  | sockClient (a : TcpAnswers)
  | usockServer (unixPath : Option (List UInt8)) (a : TcpAnswers)
  | usockClient (unixPath : Option (List UInt8)) (a : TcpAnswers)
  | vsockServer (vcid : ℕ) (a : TcpAnswers)
  | vsockClient (vcid : ℕ) (a : TcpAnswers)

def CreateCall.run : CreateCall → Fds → Option (Except Fds (ℤ × Fds))
  | .shm info a, w => udoShmCreate info a w
  | .sockServer a, w => some (SockTcp.udoSockTcpServerCreate a w)
  | .sockClient a, w => some (SockTcp.udoSockTcpClientCreate a w)
  | .usockServer unixPath a, w => some (UsockTcp.udoUsockTcpServerCreate unixPath a w)
  | .usockClient unixPath a, w => some (UsockTcp.udoUsockTcpClientCreate unixPath a w)
  | .vsockServer vcid a, w => some (VsockTcp.udoVsockTcpServerCreate vcid a w)
  | .vsockClient vcid a, w => some (VsockTcp.udoVsockTcpClientCreate vcid a w)

namespace Fds

def closeCalls (w : Fds) : List ℤ := w.closes.map Prod.fst

def closed (w : Fds) : List ℤ := (w.closes.filter Prod.snd).map Prod.fst

structure Released (w : Fds) : Prop where
  once : ∀ fd ∈ w.opens, w.closeCalls.count fd = 1
  only : ∀ fd ∈ w.closed, fd ∈ w.opens

structure Settled (w : Fds) : Prop where
  once : ∀ fd ∈ w.opens, w.closed.count fd = 1
  only : ∀ fd ∈ w.closed, fd ∈ w.opens

inductive Ending
  | even
  | unset
  | twice
  deriving DecidableEq

inductive Failed (w : Fds) : Ending → Fds → Prop
  | untouched : Failed w .even w
  | unopened : Failed w .even (w.close (-1))
  | given : Failed w .even (w.acquire.close w.fresh)
  | device : Failed w .even ((w.acquire.acquire.close w.acquire.fresh).close w.fresh)
  | unset : Failed w .unset (w.close 0)
  | twice : Failed w .twice ((w.acquire.close w.fresh).close w.fresh)

def start (table : DescriptorTable Unit) : Fds := ⟨table, [], []⟩

end Fds

namespace CreateCall

def OptsFail : CreateCall → Prop
  | .shm _ _ => False
  | .sockServer a | .sockClient a =>
    a.calloc = true ∧ a.socket = true ∧ ¬(a.reuseAddr = true ∧ a.reusePort = true ∧ a.v6Only = true)
  | .usockServer unixPath a | .usockClient unixPath a =>
    unixPath ≠ none ∧ a.calloc = true ∧ a.socket = true ∧ a.reuseAddr = false
  | .vsockServer _ a | .vsockClient _ a => a.calloc = true ∧ a.socket = true ∧ a.reuseAddr = false

def ArgsFail : CreateCall → Prop
  | .shm info a => a.calloc = true ∧ ∃ e, pShmCreateCheck info = .error e
  | _ => False

end CreateCall

open Fds

variable {w w' : Fds} {table : DescriptorTable Unit} {c : CreateCall} {calloc socket : Bool} {opts calls : List Bool}

theorem openSock_error (h : openSock calloc socket opts w = .error w') :
    (calloc = true ∧ socket = true ∧ opts.all id = false) ∧ Failed w .twice w' ∨
      ¬(calloc = true ∧ socket = true ∧ opts.all id = false) ∧ Failed w .even w' := by
  rw [openSock] at h
  cases calloc with
  | false =>
    cases h
    exact .inr ⟨by simp, .untouched⟩
  | true =>
    cases socket with
    | false =>
      cases h
      exact .inr ⟨by simp, .unopened⟩
    | true =>
      simp only [Bool.true_eq_false, if_false, pSetSockOpts] at h
      by_cases hopts : opts.all id = true
      · rw [if_pos hopts] at h
        cases h
      · rw [if_neg hopts] at h
        cases h
        exact .inl ⟨⟨rfl, rfl, by simpa using hopts⟩, .twice⟩

theorem openSock_ok {p : ℤ × Fds} (h : openSock calloc socket opts w = .ok p) :
    opts.all id = true ∧ p = (w.fresh, w.acquire) := by
  rw [openSock] at h
  cases calloc with
  | false => cases h
  | true =>
    cases socket with
    | false => cases h
    | true =>
      simp only [Bool.true_eq_false, if_false, pSetSockOpts] at h
      by_cases hopts : opts.all id = true
      · rw [if_pos hopts] at h
        cases h
        exact ⟨hopts, rfl⟩
      · rw [if_neg hopts] at h
        cases h

theorem bind_error {x : Except Fds (ℤ × Fds)} {f : ℤ × Fds → Except Fds (ℤ × Fds)} (h : x.bind f = .error w') :
    x = .error w' ∨ ∃ p, x = .ok p ∧ f p = .error w' := by
  cases x with
  | error v => exact .inl h
  | ok p => exact .inr ⟨p, rfl, h⟩

theorem bind_ok {x : Except Fds (ℤ × Fds)} {f : ℤ × Fds → Except Fds (ℤ × Fds)} {q : ℤ × Fds}
    (h : x.bind f = .ok q) : ∃ p, x = .ok p ∧ f p = .ok q := by
  cases x with
  | error v => cases h
  | ok p => exact ⟨p, rfl, h⟩

theorem orDestroy_error {p : ℤ × Fds} (h : orDestroy calls p = .error w') : w' = p.2.close p.1 := by
  obtain ⟨fd, v⟩ := p
  rw [orDestroy] at h
  split_ifs at h
  cases h
  rfl

theorem orDestroy_ok {p q : ℤ × Fds} (h : orDestroy calls p = .ok q) : q = p := by
  obtain ⟨fd, v⟩ := p
  rw [orDestroy] at h
  split_ifs at h
  cases h
  rfl

def SockEnds (optsFail : Prop) (w w' : Fds) : Prop :=
  optsFail ∧ Failed w .twice w' ∨ ¬optsFail ∧ Failed w .even w'

theorem SockEnds.of_iff {p q : Prop} (hpq : p ↔ q) (h : SockEnds p w w') : SockEnds q w w' := by
  rwa [← propext hpq]

theorem openSock_bind_error {f : ℤ × Fds → Except Fds (ℤ × Fds)}
    (hf : f (w.fresh, w.acquire) = .error w' → Failed w .even w')
    (h : (openSock calloc socket opts w).bind f = .error w') :
    SockEnds (calloc = true ∧ socket = true ∧ opts.all id = false) w w' := by
  rcases bind_error h with herr | ⟨p, hok, herr⟩
  · exact openSock_error herr
  · obtain ⟨hopts, rfl⟩ := openSock_ok hok
    exact .inr ⟨by simp [hopts], hf herr⟩

theorem orDestroy_given (h : orDestroy calls (w.fresh, w.acquire) = .error w') : Failed w .even w' :=
  orDestroy_error h ▸ .given

theorem sockClient_ends {a : TcpAnswers} (h : SockTcp.pCreateSock a w = .error w') :
    SockEnds ((CreateCall.sockClient a).OptsFail) w w' := by
  apply (openSock_bind_error orDestroy_given h).of_iff
  simp [CreateCall.OptsFail]

theorem sockServer_ends {a : TcpAnswers} (h : SockTcp.udoSockTcpServerCreate a w = .error w') :
    SockEnds ((CreateCall.sockServer a).OptsFail) w w' := by
  rcases bind_error h with herr | ⟨p, hok, herr⟩
  · exact sockClient_ends herr
  · obtain ⟨q, hsock, hpton⟩ := bind_ok hok
    obtain ⟨hopts, rfl⟩ := openSock_ok hsock
    cases orDestroy_ok hpton
    exact .inr ⟨by simp at hopts; simp [CreateCall.OptsFail, hopts], orDestroy_given herr⟩

theorem usockClient_ends {unixPath : Option (List UInt8)} {a : TcpAnswers}
    (h : UsockTcp.pCreateSock unixPath a w = .error w') :
    SockEnds ((CreateCall.usockClient unixPath a).OptsFail) w w' := by
  rw [UsockTcp.pCreateSock] at h
  split_ifs at h with hpath
  · cases h
    exact .inr ⟨by simp [CreateCall.OptsFail, hpath], .untouched⟩
  · apply SockEnds.of_iff ?_ (openSock_error h)
    simp [CreateCall.OptsFail, hpath]

theorem usockServer_ends {unixPath : Option (List UInt8)} {a : TcpAnswers}
    (h : UsockTcp.udoUsockTcpServerCreate unixPath a w = .error w') :
    SockEnds ((CreateCall.usockServer unixPath a).OptsFail) w w' := by
  rcases bind_error h with herr | ⟨p, hok, herr⟩
  · exact usockClient_ends herr
  · rw [UsockTcp.pCreateSock] at hok
    split_ifs at hok
    obtain ⟨hopts, rfl⟩ := openSock_ok hok
    exact .inr ⟨by simp at hopts; simp [CreateCall.OptsFail, hopts], orDestroy_given herr⟩

theorem vsockClient_ends {server : Bool} {vcid : ℕ} {a : TcpAnswers}
    (h : VsockTcp.pCreateVsock server vcid a w = .error w') :
    SockEnds ((CreateCall.vsockClient vcid a).OptsFail) w w' := by
  rw [VsockTcp.pCreateVsock] at h
  cases hsock : openSock a.calloc a.socket [a.reuseAddr] w with
  | error v =>
    rw [hsock] at h
    cases h
    apply SockEnds.of_iff ?_ (openSock_error hsock)
    simp [CreateCall.OptsFail]
  | ok p =>
    rw [hsock] at h
    cases h

theorem vsockServer_ends {vcid : ℕ} {a : TcpAnswers} (h : VsockTcp.udoVsockTcpServerCreate vcid a w = .error w') :
    SockEnds ((CreateCall.vsockServer vcid a).OptsFail) w w' := by
  rcases bind_error h with herr | ⟨p, hok, herr⟩
  · exact vsockClient_ends herr
  · rw [VsockTcp.pCreateVsock] at hok
    cases hsock : openSock a.calloc a.socket [a.reuseAddr] w with
    | error v =>
      rw [hsock] at hok
      cases hok
    | ok q =>
      obtain ⟨hopts, rfl⟩ := openSock_ok hsock
      rw [hsock] at hok
      cases hok
      refine .inr ⟨by simp at hopts; simp [CreateCall.OptsFail, hopts], ?_⟩
      rw [orDestroy_error herr]
      dsimp only [VsockTcp.pVsockGetLocalVcid]
      split_ifs
      · exact .device
      · exact .given
      · exact .given

theorem shm_ends {info : Option ShmCreateInfo} {a : ShmAnswers} (h : udoShmCreate info a w = some (.error w')) :
    (CreateCall.shm info a).ArgsFail ∧ Failed w .unset w' ∨ ¬(CreateCall.shm info a).ArgsFail ∧ Failed w .even w' := by
  rw [udoShmCreate] at h
  by_cases hcalloc : a.calloc = false
  · rw [if_pos hcalloc] at h
    cases h
    exact .inr ⟨by simp [CreateCall.ArgsFail, hcalloc], .untouched⟩
  rw [if_neg hcalloc, pShmCreate] at h
  cases hcheck : pShmCreateCheck info with
  | error e =>
    rw [hcheck] at h
    cases h
    exact .inl ⟨⟨by simpa using hcalloc, e, hcheck⟩, .unset⟩
  | ok info' =>
    rw [hcheck] at h
    refine .inr ⟨fun hargs => ?_, ?_⟩
    · obtain ⟨-, e, he⟩ := hargs
      rw [hcheck] at he
      cases he
    · dsimp only at h
      split_ifs at h with hopened htruncated hmapped
      · cases h
        exact .unopened
      · cases h
        exact .given
      · cases h
      · by_cases hcount : a.attached < info'.procCount
        · simp [hcount] at h
        · simp only [hcount, decide_false, Option.map_some, Option.some.injEq, Except.error.injEq] at h
          exact h ▸ .given

theorem run_failed (h : c.run w = some (.error w')) :
    ∃ e, Failed w e w' ∧ (e = .twice ↔ c.OptsFail) ∧ (e = .unset ↔ c.ArgsFail) := by
  have sock {p : Prop} (hends : SockEnds p w w') (hp : p ↔ c.OptsFail) (hargs : ¬c.ArgsFail) :
      ∃ e, Failed w e w' ∧ (e = .twice ↔ c.OptsFail) ∧ (e = .unset ↔ c.ArgsFail) := by
    rcases hends with ⟨hopts, hf⟩ | ⟨hopts, hf⟩
    · exact ⟨.twice, hf, by simp [hp.mp hopts], by simp [hargs]⟩
    · exact ⟨.even, hf, by simp [← hp, hopts], by simp [hargs]⟩
  cases c with
  | shm info a =>
    rcases shm_ends h with ⟨hargs, hf⟩ | ⟨hargs, hf⟩
    · exact ⟨.unset, hf, by simp [CreateCall.OptsFail], by simp [hargs]⟩
    · exact ⟨.even, hf, by simp [CreateCall.OptsFail], by simp [hargs]⟩
  | sockServer a => exact sock (sockServer_ends (Option.some.inj h)) .rfl id
  | sockClient a => exact sock (sockClient_ends (Option.some.inj h)) .rfl id
  | usockServer unixPath a => exact sock (usockServer_ends (Option.some.inj h)) .rfl id
  | usockClient unixPath a => exact sock (usockClient_ends (Option.some.inj h)) .rfl id
  | vsockServer vcid a => exact sock (vsockServer_ends (Option.some.inj h)) .rfl id
  | vsockClient vcid a => exact sock (vsockClient_ends (Option.some.inj h)) .rfl id

namespace Fds

theorem owner_fresh (w : Fds) : w.acquire.table.owner w.fresh = some () := DescriptorTable.owner_acquire_lowest

theorem fresh_ne (w : Fds) : w.acquire.fresh ≠ w.fresh :=
  (DescriptorTable.ne_lowest w.owner_fresh).symm

theorem released_iff : w.Released ↔
    (∀ fd ∈ w.opens, (w.closes.map Prod.fst).count fd = 1) ∧
      ∀ fd ∈ (w.closes.filter Prod.snd).map Prod.fst, fd ∈ w.opens :=
  ⟨fun h => ⟨h.once, h.only⟩, fun h => ⟨h.1, h.2⟩⟩

theorem settled_iff : w.Settled ↔
    (∀ fd ∈ w.opens, ((w.closes.filter Prod.snd).map Prod.fst).count fd = 1) ∧
      ∀ fd ∈ (w.closes.filter Prod.snd).map Prod.fst, fd ∈ w.opens :=
  ⟨fun h => ⟨h.once, h.only⟩, fun h => ⟨h.1, h.2⟩⟩

theorem closes_given : (w.acquire.close w.fresh).closes = w.closes ++ [(w.fresh, true)] := by
  rw [close, owner_fresh]
  rfl

theorem closes_twice :
    ((w.acquire.close w.fresh).close w.fresh).closes = w.closes ++ [(w.fresh, true), (w.fresh, false)] := by
  have hgone : (w.acquire.close w.fresh).table.owner w.fresh = none := by
    rw [close, DescriptorTable.owner_release, if_pos rfl]
  rw [close, hgone, closes_given, List.append_assoc]
  rfl

theorem closes_device : ((w.acquire.acquire.close w.acquire.fresh).close w.fresh).closes =
    w.closes ++ [(w.acquire.fresh, true), (w.fresh, true)] := by
  have hkept : (w.acquire.acquire.close w.acquire.fresh).table.owner w.fresh = some () := by
    rw [close, DescriptorTable.owner_release_of_ne w.fresh_ne.symm]
    exact DescriptorTable.owner_acquire_of_some w.owner_fresh
  rw [close, hkept, closes_given, acquire, List.append_assoc]
  rfl

theorem Failed.released_iff {e : Ending} (h : Failed (start table) e w') :
    (w'.Released ↔ e ≠ .twice ∧ (e = .unset → table.owner 0 = none)) ∧
      (w'.Settled ↔ (e = .unset → table.owner 0 = none)) := by
  rw [Fds.released_iff, settled_iff]
  cases h with
  | untouched => simp [start]
  | unopened => simp [start, close]
  | unset => cases hzero : table.owner 0 <;> simp [start, close, hzero]
  | given =>
    rw [closes_given]
    simp [start, acquire, close]
  | twice =>
    rw [closes_twice]
    simp [start, acquire, close]
  | device =>
    have hopens : ((start table).acquire.acquire.close (start table).acquire.fresh).opens =
        [(start table).fresh, (start table).acquire.fresh] := rfl
    have hcloses : (start table).closes = [] := rfl
    rw [closes_device, hcloses, close, hopens]
    simp [fresh_ne, (fresh_ne _).symm]

end Fds

theorem failed_create_releases_iff (h : c.run (start table) = some (.error w')) :
    (w'.Released ↔ ¬c.OptsFail ∧ (c.ArgsFail → table.owner 0 = none)) ∧
      (w'.Settled ↔ (c.ArgsFail → table.owner 0 = none)) := by
  obtain ⟨e, hf, htwice, hunset⟩ := run_failed h
  rw [← htwice, ← hunset]
  exact hf.released_iff

theorem failed_create_releases_iff_reuse_addr :
    ∃ w', CreateCall.run (.usockClient (some [47, 97]) { reuseAddr := false }) (start [some (), none, some ()]) =
      some (.error w') ∧ ¬w'.Released := by
  have hrun : CreateCall.run (.usockClient (some [47, 97]) { reuseAddr := false }) (start [some (), none, some ()]) =
      some (.error (((start [some (), none, some ()]).acquire.close 1).close 1)) := rfl
  refine ⟨_, hrun, fun hreleased => ?_⟩
  obtain ⟨hopts, -⟩ := (failed_create_releases_iff hrun).1.mp hreleased
  exact hopts ⟨by simp, rfl, rfl, rfl⟩

theorem standard_input_closed : ¬∀ c table w', CreateCall.run c (start table) = some (.error w') → w'.Released := by
  intro h
  have hreleased := h (.shm none {}) [some ()] _ rfl
  have hopened : (0 : ℤ) ∈ ([] : List ℤ) := hreleased.only 0 (by decide)
  cases hopened

end Libcando
