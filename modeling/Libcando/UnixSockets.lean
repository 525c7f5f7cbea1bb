import Libcando.Transition

namespace Libcando.UnixSockets

open Transition

abbrev Path := List UInt8

def unixPathSize : ℕ := 108

/-- What of a path fits `sun_path` with its terminator. -/
def sunPath (unixPath : Path) : Path := unixPath.take (unixPathSize - 1)

inductive Kind
  | tcpServer
  | tcpClient
  | udpServer
  | udpClient
  deriving DecidableEq

/-- The directory entry that a path leads to, if its directories are there; two paths may lead to
the same one. -/
structure Directories (E : Type*) where
  resolve : Path → Option E
  empty : resolve [] = none

/-- Which context's `bind` created an entry; the entries that were there before belong to none. -/
inductive Creator
  | other
  | ctx (id : ℕ)
  deriving DecidableEq

structure Usock where
  kind : Kind
  addr : Path
  saddr : Path := []
  connected : Bool := false
  deriving DecidableEq

structure Answers where
  calloc : Bool := true
  socket : Bool := true
  setsockopt : Bool := true
  bind : Bool := true
  listen : Bool := true
  connect : Bool := true
  remove : Bool := true
  deriving DecidableEq

structure Removal (E : Type*) where
  id : ℕ
  entry : E
  creator : Creator
  deriving DecidableEq

structure World (E : Type*) where
  entries : E → Option Creator
  next : ℕ := 0
  contexts : ℕ → Option Usock := fun _ => none
  removals : List (Removal E) := []

variable {E : Type*} (d : Directories E)

namespace World

def find (path : Path) (w : World E) : Option Creator := (d.resolve path).bind w.entries

def add (i : ℕ) (usock : Usock) (w : World E) : World E :=
  { w with contexts := Function.update w.contexts i (some usock) }

def begin (w : World E) : World E := { w with next := w.next + 1 }

def udoUsockTcpClientConnect (i : ℕ) (a : Answers) (w : World E) : World E :=
  match w.contexts i with
  | none => w
  | some usock => if a.connect then w.add i { usock with connected := true } else w

section Calls

variable [DecidableEq E]

def remove (i : ℕ) (path : Path) (a : Answers) (w : World E) : World E :=
  match d.resolve path with
  | none => w
  | some e =>
    match w.entries e with
    | none => w
    | some creator =>
      if a.remove then
        { w with entries := Function.update w.entries e none, removals := w.removals ++ [⟨i, e, creator⟩] }
      else w

def destroy (i : ℕ) (addr : Path) (a : Answers) (w : World E) : World E := w.remove d i addr a

/-- `bind` fails when the entry exists or has no directory. The empty path is no path of the file
system. -/
def bind (i : ℕ) (path : Path) (a : Answers) (w : World E) : Option (World E) :=
  if !a.bind then none
  else if path = [] then some w
  else match d.resolve path with
    | none => none
    | some e =>
      if (w.entries e).isSome then none
      else some { w with entries := Function.update w.entries e (some (.ctx i)) }

/-- The socket and its option; a failure destroys a context whose `sun_path` is still empty. -/
def openSock (i : ℕ) (a : Answers) (w : World E) : World E × Bool :=
  if !a.calloc then (w, false)
  else if !a.socket ∨ !a.setsockopt then (w.destroy d i [] a, false)
  else (w, true)

def bindThen (i : ℕ) (usock : Usock) (second : Bool) (a : Answers) (w : World E) : World E :=
  match w.bind d i usock.addr a with
  | none => w.destroy d i usock.addr a
  | some w => if !second then w.destroy d i usock.addr a else w.add i usock

def createBound (usock : Usock) (second : Bool) (a : Answers) (w : World E) : World E :=
  match w.begin.openSock d w.next a with
  | (w', false) => w'
  | (w', true) => w'.bindThen d w.next usock second a

def udoUsockTcpServerCreate (unixPath : Option Path) (a : Answers) (w : World E) : World E :=
  match unixPath with
  | none => w
  | some path => w.createBound d { kind := .tcpServer, addr := sunPath path } a.listen a

def udoUsockTcpClientCreate (unixPath : Option Path) (a : Answers) (w : World E) : World E :=
  match unixPath with
  | none => w
  | some path =>
    match w.begin.openSock d w.next a with
    | (w', false) => w'
    | (w', true) => w'.add w.next { kind := .tcpClient, addr := sunPath path }

def udoUsockUdpServerCreate (unixPath : Option Path) (a : Answers) (w : World E) : World E :=
  match unixPath with
  | none => w
  | some path => w.createBound d { kind := .udpServer, addr := sunPath path } true a

def udoUsockUdpClientCreate (unixPath cliUnixPath : Option Path) (a : Answers) (w : World E) : World E :=
  match unixPath, cliUnixPath with
  | some path, some cliPath =>
    w.createBound d
      { kind := .udpClient, addr := sunPath cliPath, saddr := sunPath path, connected := true } a.connect a
  | _, _ => w

def udoUsockDestroy (i : ℕ) (a : Answers) (w : World E) : World E :=
  match w.contexts i with
  | none => w
  | some usock => { w.destroy d i usock.addr a with contexts := Function.update w.contexts i none }

end Calls

end World

inductive Act
  | tcpServerCreate (unixPath : Option Path) (a : Answers)
  | tcpClientCreate (unixPath : Option Path) (a : Answers)
  | tcpClientConnect (id : ℕ) (a : Answers)
  | udpServerCreate (unixPath : Option Path) (a : Answers)
  | udpClientCreate (unixPath cliUnixPath : Option Path) (a : Answers)
  | destroy (id : ℕ) (a : Answers)
  deriving DecidableEq

def Kind.binds : Kind → Bool
  | tcpServer | udpServer | udpClient => true
  | tcpClient => false

def Kind.serves : Kind → Bool
  | tcpServer | udpServer => true
  | tcpClient | udpClient => false

structure World.Owned (w : World E) : Prop where
  removals : ∀ r ∈ w.removals, r.creator = .ctx r.id
  live : ∀ i usock, w.contexts i = some usock → usock.kind.serves = true → usock.addr ≠ [] →
    w.find d usock.addr = some (.ctx i)

def Act.bindsTo : Act → Option Path
  | tcpServerCreate (some path) a | udpServerCreate (some path) a | udpClientCreate (some _) (some path) a =>
    if a.calloc ∧ a.socket ∧ a.setsockopt then some (sunPath path) else none
  | _ => none

def Act.answers : Act → Answers
  | tcpServerCreate _ a | tcpClientCreate _ a | tcpClientConnect _ a | udpServerCreate _ a
  | udpClientCreate _ _ a | destroy _ a => a

def World.stray (l : Act) (w : World E) : Option Path :=
  match l with
  | .destroy i _ =>
    match w.contexts i with
    | none => none
    | some usock => if usock.kind.binds then none else some usock.addr
  | l => l.bindsTo

def World.apart (l : Act) (w : World E) : Prop :=
  ∀ path ∈ w.stray l, l.answers.remove = true → w.find d path = none

instance (l : Act) (w : World E) : Decidable (w.apart d l) := by
  unfold World.apart
  infer_instance

section Runs

variable [DecidableEq E]

def World.step (l : Act) (w : World E) : Option (World E) :=
  match l with
  | .tcpServerCreate path a => some (w.udoUsockTcpServerCreate d path a)
  | .tcpClientCreate path a => some (w.udoUsockTcpClientCreate d path a)
  | .tcpClientConnect i a => some (w.udoUsockTcpClientConnect i a)
  | .udpServerCreate path a => some (w.udoUsockUdpServerCreate d path a)
  | .udpClientCreate path cliPath a => some (w.udoUsockUdpClientCreate d path cliPath a)
  | .destroy i a => some (w.udoUsockDestroy d i a)

def World.system : System (World E) Act where
  init w := (∀ e, w.entries e = none ∨ w.entries e = some .other) ∧
    w.contexts = (fun _ => none) ∧ w.removals = []
  step := World.step d

end Runs

namespace World

variable {d} {w w' : World E} {l : Act} {i : ℕ} {path : Path} {usock : Usock} {a : Answers} {second : Bool} {e : E}

structure Kept (d : Directories E) (w : World E) : Prop where
  removals : ∀ r ∈ w.removals, r.creator = .ctx r.id
  bound : ∀ i usock, w.contexts i = some usock → usock.kind.binds = true → usock.addr ≠ [] →
    w.find d usock.addr = some (.ctx i)
  creator : ∀ e i, w.entries e = some (.ctx i) → i < w.next ∧
    ∀ usock, w.contexts i = some usock → usock.kind.binds = true
  below : ∀ i usock, w.contexts i = some usock → i < w.next

theorem find_some {c : Creator} (h : w.find d path = some c) : ∃ e, d.resolve path = some e ∧ w.entries e = some c :=
  Option.bind_eq_some_iff.mp h

theorem find_of_resolve (h : d.resolve path = some e) : w.find d path = w.entries e := by
  rw [find, h, Option.bind_some]

theorem find_empty : w.find d [] = none := by
  rw [find, d.empty, Option.bind_none]

theorem ne_nil_of_resolve (h : d.resolve path = some e) : path ≠ [] := by
  rintro rfl
  cases d.empty.symm.trans h

namespace Kept

theorem owned (h : w.Kept d) : w.Owned d where
  removals := h.removals
  live := by
    intro i usock hc hserves
    apply h.bound i usock hc
    cases hk : usock.kind <;> rw [hk] at hserves <;> first | rfl | cases hserves

theorem begin (h : w.Kept d) : w.begin.Kept d where
  removals := h.removals
  bound := h.bound
  creator e i he := ⟨Nat.lt_succ_of_lt (h.creator e i he).1, (h.creator e i he).2⟩
  below i usock hc := Nat.lt_succ_of_lt (h.below i usock hc)

theorem add (h : w.Kept d) (hp : usock.kind.binds = true → usock.addr ≠ [] → w.find d usock.addr = some (.ctx i))
    (hi : i < w.next) (hnew : usock.kind.binds = false → ∀ e, w.entries e ≠ some (.ctx i)) :
    (w.add i usock).Kept d where
  removals := h.removals
  bound := by
    intro j usock' hc hbinds hne
    obtain ⟨rfl, rfl⟩ | ⟨-, hc⟩ := update_some_cases hc
    · exact hp hbinds hne
    · exact h.bound j usock' hc hbinds hne
  creator := by
    intro e j he
    refine ⟨(h.creator e j he).1, ?_⟩
    intro usock' hc
    obtain ⟨rfl, rfl⟩ | ⟨-, hc⟩ := update_some_cases hc
    · cases hb : usock'.kind.binds with
      | true => rfl
      | false => exact absurd he (hnew hb e)
    · exact (h.creator e j he).2 usock' hc
  below := by
    intro j usock' hc
    obtain ⟨rfl, -⟩ | ⟨-, hc⟩ := update_some_cases hc
    · exact hi
    · exact h.below j usock' hc

theorem drop (h : w.Kept d) (i : ℕ) : Kept d { w with contexts := Function.update w.contexts i none } := by
  constructor
  · exact h.removals
  · intro j usock hj
    exact h.bound j usock (update_none_some hj).2
  · intro e j he
    exact ⟨(h.creator e j he).1, fun usock hj => (h.creator e j he).2 usock (update_none_some hj).2⟩
  · intro j usock hj
    exact h.below j usock (update_none_some hj).2

theorem fresh (h : w.Kept d) : w.contexts w.next = none := by
  cases hc : w.contexts w.next with
  | none => rfl
  | some usock => exact absurd (h.below _ _ hc) (lt_irrefl _)

end Kept

variable [DecidableEq E]

theorem remove_of_none (h : w.find d path = none) (i : ℕ) (a : Answers) : w.remove d i path a = w := by
  rw [remove]
  cases he : d.resolve path with
  | none => rfl
  | some e =>
    rw [find_of_resolve he] at h
    simp only [h]

theorem remove_of_failed (h : a.remove = false) (i : ℕ) (path : Path) : w.remove d i path a = w := by
  rw [remove]
  cases d.resolve path with
  | none => rfl
  | some e =>
    dsimp only
    cases w.entries e with
    | none => rfl
    | some creator => simp [h]

theorem openSock_eq (i : ℕ) (a : Answers) : w.openSock d i a = (w, a.calloc && a.socket && a.setsockopt) := by
  rw [openSock, destroy, remove_of_none find_empty]
  cases a.calloc <;> cases a.socket <;> cases a.setsockopt <;> rfl

theorem bind_cases (h : w.bind d i path a = some w') : (w' = w ∧ path = []) ∨
    ∃ e, d.resolve path = some e ∧ w.entries e = none ∧
      w' = { w with entries := Function.update w.entries e (some (.ctx i)) } := by
  rw [bind] at h
  split_ifs at h with hfail hempty
  · cases h
    exact .inl ⟨rfl, hempty⟩
  · split at h
    · cases h
    · rename_i e he
      split_ifs at h with hsome
      cases h
      exact .inr ⟨e, he, by simpa using hsome, rfl⟩

namespace Kept

theorem bound_update (h : w.Kept d) {c c' : Option Creator} (he : w.entries e = c)
    (hc : ∀ j usock, w.contexts j = some usock → usock.kind.binds = true → c ≠ some (.ctx j)) (j : ℕ)
    (usock : Usock) (hj : w.contexts j = some usock) (hbinds : usock.kind.binds = true) (hne : usock.addr ≠ []) :
    find d usock.addr { w with entries := Function.update w.entries e c' } = some (.ctx j) := by
  obtain ⟨e', he', hentry⟩ := find_some (h.bound j usock hj hbinds hne)
  rw [find_of_resolve he']
  dsimp only
  rw [Function.update_of_ne]
  · exact hentry
  · rintro rfl
    exact hc j usock hj hbinds (he.symm.trans hentry)

theorem bind (h : w.Kept d) (he : w.entries e = none) (hi : i < w.next) (hc : w.contexts i = none) :
    Kept d { w with entries := Function.update w.entries e (some (.ctx i)) } where
  removals := h.removals
  bound := h.bound_update he fun _ _ _ _ => by simp
  creator := by
    intro e' j he'
    obtain ⟨rfl, hcreator⟩ | ⟨-, he'⟩ := update_some_cases he'
    · cases hcreator
      refine ⟨hi, fun usock hj => ?_⟩
      rw [hc] at hj
      cases hj
    · exact h.creator e' j he'
  below := h.below

theorem remove (h : w.Kept d) (hc : w.contexts i = none) (hpath : path ≠ [] → w.find d path = some (.ctx i)) :
    (w.remove d i path a).Kept d := by
  by_cases hne : path = []
  · rw [hne, remove_of_none find_empty]
    exact h
  obtain ⟨e, he, hcreator⟩ := find_some (hpath hne)
  cases hr : a.remove with
  | false =>
    rw [remove_of_failed hr]
    exact h
  | true =>
    simp only [World.remove, he, hcreator, hr, if_true]
    constructor
    · intro r hrem
      rw [List.mem_append, List.mem_singleton] at hrem
      rcases hrem with hrem | rfl
      · exact h.removals r hrem
      · rfl
    · apply h.bound_update hcreator
      intro j usock hj _ heq
      cases heq
      rw [hc] at hj
      cases hj
    · intro e' j he'
      exact h.creator e' j (update_none_some he').2
    · exact h.below

theorem bindThen (h : w.Kept d) (hi : i < w.next) (hc : w.contexts i = none) (hbinds : usock.kind.binds = true)
    (hapart : a.remove = true → w.find d usock.addr = none) : (w.bindThen d i usock second a).Kept d := by
  have hsame : w.destroy d i usock.addr a = w := by
    rw [destroy]
    cases hr : a.remove with
    | true => exact remove_of_none (hapart hr) i a
    | false => exact remove_of_failed hr i usock.addr
  have hbinds' : ¬ usock.kind.binds = false := by simp [hbinds]
  rw [World.bindThen]
  cases hbind : w.bind d i usock.addr a with
  | none =>
    dsimp only
    rw [hsame]
    exact h
  | some w' =>
    obtain ⟨rfl, hne⟩ | ⟨e, he, hnone, rfl⟩ := bind_cases hbind
    · cases second with
      | true => exact h.add (fun _ haddr => absurd hne haddr) hi (fun hb => absurd hb hbinds')
      | false => exact h.remove hc (fun haddr => absurd hne haddr)
    · have hbound := h.bind hnone hi hc
      have hself : find d usock.addr { w with entries := Function.update w.entries e (some (.ctx i)) } =
          some (.ctx i) := by
        rw [find_of_resolve he]
        exact Function.update_self ..
      cases second with
      | true => exact hbound.add (fun _ _ => hself) hi (fun hb => absurd hb hbinds')
      | false => exact hbound.remove hc (fun _ => hself)

theorem destroy (h : w.Kept d) (hok : w.apart d (.destroy i a)) : (w.udoUsockDestroy d i a).Kept d := by
  rw [udoUsockDestroy]
  cases hc : w.contexts i with
  | none => exact h
  | some usock =>
    have hcommute : { w.destroy d i usock.addr a with contexts := Function.update w.contexts i none } =
        World.remove d i usock.addr a { w with contexts := Function.update w.contexts i none } := by
      rw [World.destroy, World.remove, World.remove]
      cases d.resolve usock.addr with
      | none => rfl
      | some e =>
        dsimp only
        cases w.entries e with
        | none => rfl
        | some creator => cases a.remove <;> rfl
    dsimp only
    rw [hcommute]
    cases hbinds : usock.kind.binds with
    | true => exact (h.drop i).remove (Function.update_self ..) (h.bound i usock hc hbinds)
    | false =>
      have hnone : a.remove = true → w.find d usock.addr = none :=
        hok usock.addr (by simp [stray, hc, hbinds])
      cases hr : a.remove with
      | true =>
        rw [remove_of_none (w := { w with contexts := Function.update w.contexts i none }) (hnone hr)]
        exact h.drop i
      | false =>
        rw [remove_of_failed hr]
        exact h.drop i

theorem createBound (h : w.Kept d) (hbinds : usock.kind.binds = true)
    (hapart : a.calloc ∧ a.socket ∧ a.setsockopt → a.remove = true → w.find d usock.addr = none) :
    (w.createBound d usock second a).Kept d := by
  simp only [World.createBound, openSock_eq]
  cases hup : a.calloc && a.socket && a.setsockopt with
  | false => exact h.begin
  | true =>
    simp only [Bool.and_eq_true, and_assoc] at hup
    exact h.begin.bindThen (Nat.lt_succ_self _) h.fresh hbinds (hapart hup)

theorem step (h : w.Kept d) (hok : w.apart d l) (hs : w.step d l = some w') : w'.Kept d := by
  cases l with
  | tcpServerCreate path a | udpServerCreate path a =>
    cases hs
    cases path with
    | none => exact h
    | some path => exact h.createBound rfl fun hup => hok _ (by simp [stray, Act.bindsTo, hup])
  | udpClientCreate path cliPath a =>
    cases hs
    cases path with
    | none => exact h
    | some path =>
      cases cliPath with
      | none => exact h
      | some cliPath => exact h.createBound rfl fun hup => hok _ (by simp [stray, Act.bindsTo, hup])
  | tcpClientCreate path a =>
    cases hs
    cases path with
    | none => exact h
    | some path =>
      simp only [udoUsockTcpClientCreate, openSock_eq]
      cases hup : a.calloc && a.socket && a.setsockopt with
      | false => exact h.begin
      | true =>
        apply h.begin.add
        · intro hb
          cases hb
        · exact Nat.lt_succ_self _
        · intro _ e he
          exact lt_irrefl _ (h.creator e _ he).1
  | tcpClientConnect i a =>
    cases hs
    rw [udoUsockTcpClientConnect]
    cases hc : w.contexts i with
    | none => exact h
    | some usock =>
      cases ha : a.connect with
      | false => exact h
      | true =>
        simp only [if_true]
        apply h.add
        · exact h.bound i usock hc
        · exact h.below i usock hc
        · intro hb e he
          have := (h.creator e i he).2 usock hc
          simp [hb] at this
  | destroy i a =>
    cases hs
    exact h.destroy hok

end Kept

theorem remove_of_some {creator : Creator} (h : w.find d path = some creator) (hr : a.remove = true) (i : ℕ) :
    ∃ e, w.entries e = some creator ∧ ⟨i, e, creator⟩ ∈ (w.remove d i path a).removals := by
  obtain ⟨e, he, hentry⟩ := find_some h
  exact ⟨e, hentry, by simp [remove, he, hentry, hr]⟩

theorem createBound_stray (h : w.Kept d) {creator : Creator} (hup : a.calloc ∧ a.socket ∧ a.setsockopt)
    (hpath : w.find d usock.addr = some creator) (hr : a.remove = true) :
    ∃ r ∈ (w.createBound d usock second a).removals, r.creator ≠ .ctx r.id := by
  have hbind : w.begin.bind d w.next usock.addr a = none := by
    obtain ⟨e, he, hentry⟩ := find_some hpath
    have hne := ne_nil_of_resolve he
    have hexists : w.begin.entries e = some creator := hentry
    simp [World.bind, he, hexists, hne]
  simp only [createBound, openSock_eq, hup.1, hup.2.1, hup.2.2, Bool.and_self, bindThen, hbind, destroy]
  obtain ⟨e, hentry, hmem⟩ := remove_of_some (w := w.begin) hpath hr w.next
  refine ⟨_, hmem, ?_⟩
  intro heq
  exact lt_irrefl _ (h.creator e w.next (hentry.trans (congrArg some heq))).1

theorem stray_removed (h : w.Kept d) (hok : ¬w.apart d l) (hs : w.step d l = some w') :
    ∃ r ∈ w'.removals, r.creator ≠ .ctx r.id := by
  simp only [apart, not_forall] at hok
  obtain ⟨path, hstray, hr, hpath⟩ := hok
  obtain ⟨creator, hcreator⟩ := Option.ne_none_iff_exists'.mp hpath
  cases l with
  | tcpServerCreate unixPath a | udpServerCreate unixPath a =>
    cases hs
    cases unixPath with
    | none => cases hstray
    | some unixPath =>
      simp only [stray, Act.bindsTo, Option.mem_def] at hstray
      split_ifs at hstray with hup
      cases hstray
      exact createBound_stray h hup hcreator hr
  | udpClientCreate unixPath cliPath a =>
    cases hs
    cases unixPath with
    | none => cases hstray
    | some unixPath =>
      cases cliPath with
      | none => cases hstray
      | some cliPath =>
        simp only [stray, Act.bindsTo, Option.mem_def] at hstray
        split_ifs at hstray with hup
        cases hstray
        exact createBound_stray h hup hcreator hr
  | tcpClientCreate unixPath a => cases hstray
  | tcpClientConnect i a => cases hstray
  | destroy i a =>
    cases hs
    cases hc : w.contexts i with
    | none => simp [stray, hc] at hstray
    | some usock =>
      simp only [stray, hc, Option.mem_def] at hstray
      split_ifs at hstray with hbinds
      cases hstray
      obtain ⟨e, hentry, hmem⟩ := remove_of_some hcreator hr i
      refine ⟨⟨i, e, creator⟩, ?_, ?_⟩
      · rw [udoUsockDestroy, hc]
        exact hmem
      · intro heq
        exact hbinds ((h.creator e i (hentry.trans (congrArg some heq))).2 usock hc)

theorem Kept.of_init (h : (system d).init w) : w.Kept d := by
  obtain ⟨hentries, hcontexts, hremovals⟩ := h
  constructor
  · simp [hremovals]
  · simp [hcontexts]
  · intro e i he
    rcases hentries e with hnone | hother
    · cases hnone.symm.trans he
    · cases hother.symm.trans he
  · simp [hcontexts]

theorem paths_owned (h : Reach (system d) (apart d) w) :
    w.Owned d ∧ ∀ l w', w.step d l = some w' → (w'.Owned d ↔ w.apart d l) := by
  have hkept : w.Kept d := by
    apply h.invariant
    · intro w hw
      exact .of_init hw
    · intro w w' l hw hok hs
      exact hw.step hok hs
  constructor
  · exact hkept.owned
  · intro l w' hs
    constructor
    · intro howned
      by_contra hok
      obtain ⟨r, hr, hne⟩ := stray_removed hkept hok hs
      exact hne (howned.removals r hr)
    · intro hok
      exact (hkept.step hok hs).owned

def plain : Directories Path where
  resolve path := if path = [] then none
    else some (path.foldr (fun b p => if b = 47 ∧ p.head? = some 47 then p else b :: p) [])
  empty := rfl

theorem paths_owned_server : ∃ w, Reach (system plain) (apart plain) w ∧
    w.find plain [47, 97] = some (.ctx 0) ∧ w.Owned plain := by
  obtain ⟨w, hw, hpath⟩ := exists_of_run (system plain) (apart plain)
    (.init (s := { entries := fun _ => none }) ⟨fun _ => .inl rfl, rfl, rfl⟩)
    [.tcpServerCreate (some [47, 97]) {}, .udpClientCreate (some [47, 97]) (some [47, 98]) {}, .destroy 1 {}]
    (fun w => w.find plain [47, 97] = some (.ctx 0)) (by decide +kernel)
  exact ⟨w, hw, hpath, (paths_owned hw).1⟩

/-- The path of a live server goes with a client that connected to it by another name of the path. -/
theorem path_of_another_removed : ¬ ∀ w : World Path, Reach (system plain) (fun _ _ => True) w → w.Owned plain := by
  intro owned
  obtain ⟨w, hw, hremoved⟩ := exists_of_run (system plain) (fun _ _ => True)
    (.init (s := { entries := fun _ => none }) ⟨fun _ => .inl rfl, rfl, rfl⟩)
    [.tcpServerCreate (some [47, 97]) {}, .tcpClientCreate (some [47, 47, 97]) {}, .tcpClientConnect 1 {},
      .destroy 1 {}]
    (fun w => ⟨1, [47, 97], .ctx 0⟩ ∈ w.removals) (by decide +kernel)
  have hcreator := (owned w hw).removals _ hremoved
  cases hcreator

end World

end Libcando.UnixSockets
