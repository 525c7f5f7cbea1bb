import Libcando.UnixSockets

namespace Libcando.UnixSockets

open Transition

namespace World

variable {E : Type*} {d : Directories E} {w₀ w w' : World E} {l : Act} {i : ℕ} {e : E} {usock : Usock}
variable {a : Answers} {second : Bool}

def Holds (d : Directories E) (w : World E) (i : ℕ) (e : E) : Prop :=
  ∃ usock, w.contexts i = some usock ∧ usock.kind.binds = true ∧ d.resolve usock.addr = some e

theorem Holds.update (h : w.Holds d i e) {j : ℕ} (hj : i ≠ j) {c : Option Usock}
    (hc : w'.contexts = Function.update w.contexts j c) : w'.Holds d i e := by
  obtain ⟨usock, hi, hbinds, haddr⟩ := h
  refine ⟨usock, ?_, hbinds, haddr⟩
  rw [hc, Function.update_of_ne hj, hi]

theorem Kept.unbound (h : w.Kept d) (e : E) : w.entries e ≠ some (.ctx w.next) := by
  intro he
  exact lt_irrefl _ (h.creator e w.next he).1

structure Matched (d : Directories E) (w₀ w : World E) : Prop where
  live : ∀ e i, w.entries e = some (.ctx i) → w.Holds d i e
  other : ∀ e, w.entries e = some .other ↔ w₀.entries e = some .other

theorem Matched.of_entries (h : Matched d w₀ w) (w' : World E) (hentries : w'.entries = w.entries)
    (hholds : ∀ e i, w.entries e = some (.ctx i) → w.Holds d i e → w'.Holds d i e) : Matched d w₀ w' := by
  constructor
  · intro e i he
    rw [hentries] at he
    exact hholds e i he (h.live e i he)
  · intro e
    rw [hentries]
    exact h.other e

theorem Matched.begin (h : Matched d w₀ w) : Matched d w₀ w.begin := h.of_entries _ rfl fun _ _ _ hi => hi

theorem Matched.add (h : Matched d w₀ w) (hnone : ∀ e, w.entries e ≠ some (.ctx i)) :
    Matched d w₀ (w.add i usock) := by
  apply h.of_entries (w.add i usock) rfl
  intro e j he hj
  apply hj.update _ rfl
  rintro rfl
  exact hnone e he

theorem Matched.connect (h : Matched d w₀ w) : Matched d w₀ (w.udoUsockTcpClientConnect i a) := by
  rw [udoUsockTcpClientConnect]
  cases hc : w.contexts i with
  | none => exact h
  | some usock =>
    cases a.connect with
    | false => exact h
    | true =>
      apply h.of_entries (w.add i { usock with connected := true }) rfl
      rintro e j - ⟨usock', hj, hbinds, haddr⟩
      by_cases hne : j = i
      · subst hne
        cases hc.symm.trans hj
        exact ⟨_, Function.update_self .., hbinds, haddr⟩
      · exact ⟨usock', (Function.update_of_ne hne ..).trans hj, hbinds, haddr⟩

variable [DecidableEq E]

def systemFrom (d : Directories E) (w₀ : World E) : System (World E) Act where
  init w := w = w₀ ∧ (system d).init w
  step := step d

def cleared (d : Directories E) (l : Act) (w : World E) : Prop := w.apart d l ∧ l.answers.remove = true

instance (l : Act) (w : World E) : Decidable (cleared d l w) := by
  unfold cleared
  infer_instance

theorem remove_contexts {path : Path} : (w.remove d i path a).contexts = w.contexts := by
  rw [remove]
  cases d.resolve path with
  | none => rfl
  | some e =>
    dsimp only
    cases w.entries e with
    | none => rfl
    | some creator => cases a.remove <;> rfl

theorem remove_entries {path : Path} (hr : a.remove = true) (he : d.resolve path = some e) :
    (w.remove d i path a).entries = Function.update w.entries e none := by
  rw [remove, he]
  dsimp only
  cases hentry : w.entries e with
  | none =>
    dsimp only
    rw [← hentry, Function.update_eq_self]
  | some creator => simp [hr]

namespace Matched

theorem of_update (h : Matched d w₀ w) (e : E) (hw : w.entries e ≠ some .other) (c : Option Creator)
    (hc : c ≠ some .other) (hentries : w'.entries = Function.update w.entries e c) (usock : Option Usock)
    (hcontexts : w'.contexts = Function.update w.contexts i usock)
    (hnone : ∀ q ≠ e, w.entries q ≠ some (.ctx i)) (hlive : ∀ j, c = some (.ctx j) → w'.Holds d j e) :
    Matched d w₀ w' := by
  constructor
  · intro q j hq
    rw [hentries] at hq
    by_cases hne : q = e
    · subst hne
      rw [Function.update_self] at hq
      exact hlive j hq
    · rw [Function.update_of_ne hne] at hq
      apply (h.live q j hq).update _ hcontexts
      rintro rfl
      exact hnone q hne hq
  · intro q
    rw [hentries, ← h.other]
    by_cases hne : q = e
    · subst hne
      rw [Function.update_self]
      exact iff_of_false hc hw
    · rw [Function.update_of_ne hne]

theorem bindThen (h : Matched d w₀ w) (hnone : ∀ e, w.entries e ≠ some (.ctx i))
    (hbinds : usock.kind.binds = true) (hpath : w.find d usock.addr = none) (hr : a.remove = true) :
    Matched d w₀ (w.bindThen d i usock second a) := by
  have hsame : w.destroy d i usock.addr a = w := remove_of_none hpath i a
  rw [World.bindThen]
  cases hbind : w.bind d i usock.addr a with
  | none =>
    dsimp only
    rw [hsame]
    exact h
  | some w' =>
    obtain ⟨rfl, hempty⟩ | ⟨e, he, hfree, rfl⟩ := bind_cases hbind
    · cases second with
      | true => exact h.add hnone
      | false =>
        simp only [Bool.not_false, if_true, hsame]
        exact h
    · cases second with
      | true =>
        apply h.of_update e (by simp [hfree]) (some (.ctx i)) (by simp) rfl (some usock) rfl
        · exact fun q _ => hnone q
        · intro j hj
          cases hj
          exact ⟨usock, Function.update_self .., hbinds, he⟩
      | false =>
        apply h.of_entries (World.destroy d i usock.addr a _)
        · rw [destroy, remove_entries hr he, Function.update_idem, ← hfree, Function.update_eq_self]
        · rintro q j hq ⟨usock, hj⟩
          exact ⟨usock, by rw [destroy, remove_contexts]; exact hj⟩

theorem createBound (h : Matched d w₀ w) (hkept : w.Kept d) (hbinds : usock.kind.binds = true)
    (hr : a.remove = true) (hpath : a.calloc ∧ a.socket ∧ a.setsockopt → w.find d usock.addr = none) :
    Matched d w₀ (w.createBound d usock second a) := by
  simp only [World.createBound, openSock_eq]
  cases hup : a.calloc && a.socket && a.setsockopt with
  | false => exact h.begin
  | true =>
    simp only [Bool.and_eq_true, and_assoc] at hup
    exact h.begin.bindThen hkept.unbound hbinds (hpath hup) hr

theorem destroy (h : Matched d w₀ w) (hkept : w.Kept d) (hok : cleared d (.destroy i a) w) :
    Matched d w₀ (w.udoUsockDestroy d i a) := by
  obtain ⟨hapart, hr⟩ := hok
  rw [udoUsockDestroy]
  cases hc : w.contexts i with
  | none => exact h
  | some usock =>
    have hgone (q : E) (hne : d.resolve usock.addr ≠ some q) : w.entries q ≠ some (.ctx i) := by
      intro hq
      obtain ⟨usock', hi, -, haddr⟩ := h.live q i hq
      rw [hc] at hi
      cases hi
      exact hne haddr
    cases he : d.resolve usock.addr with
    | none =>
      have hsame : w.destroy d i usock.addr a = w := by simp [World.destroy, World.remove, he]
      dsimp only
      rw [hsame]
      apply h.of_entries { w with contexts := Function.update w.contexts i none } rfl
      intro q j hq hj
      apply hj.update _ rfl
      rintro rfl
      exact hgone q (by simp [he]) hq
    | some e =>
      refine h.of_update e ?_ none (by simp) (remove_entries hr he) none rfl ?_ ?_
      · intro hother
        cases hbinds : usock.kind.binds with
        | true =>
          have hfind := hkept.bound i usock hc hbinds (ne_nil_of_resolve he)
          rw [find_of_resolve he, hother] at hfind
          cases hfind
        | false =>
          have hfind := hapart usock.addr (by simp [stray, hc, hbinds]) hr
          rw [find_of_resolve he, hother] at hfind
          cases hfind
      · intro q hne
        exact hgone q fun hq => hne (Option.some.inj (hq.symm.trans he))
      · intro j hj
        cases hj

theorem step (h : Matched d w₀ w) (hkept : w.Kept d) (hok : cleared d l w) (hs : w.step d l = some w') :
    Matched d w₀ w' := by
  cases l with
  | tcpServerCreate path a | udpServerCreate path a =>
    cases hs
    cases path with
    | none => exact h
    | some path => exact h.createBound hkept rfl hok.2 fun hup => hok.1 _ (by simp [stray, Act.bindsTo, hup]) hok.2
  | udpClientCreate path cliPath a =>
    cases hs
    cases path with
    | none => exact h
    | some path =>
      cases cliPath with
      | none => exact h
      | some cliPath => exact h.createBound hkept rfl hok.2 fun hup => hok.1 _ (by simp [stray, Act.bindsTo, hup]) hok.2
  | tcpClientCreate path a =>
    cases hs
    cases path with
    | none => exact h
    | some path =>
      simp only [udoUsockTcpClientCreate, openSock_eq]
      cases a.calloc && a.socket && a.setsockopt with
      | false => exact h.begin
      | true => exact h.begin.add hkept.unbound
  | tcpClientConnect i a =>
    cases hs
    exact h.connect
  | destroy i a =>
    cases hs
    exact h.destroy hkept hok

end Matched

theorem matched (h : Reach (systemFrom d w₀) (cleared d) w) :
    (system d).init w₀ ∧ w.Kept d ∧ Matched d w₀ w := by
  apply h.invariant
  · rintro w ⟨rfl, hinit⟩
    refine ⟨hinit, .of_init hinit, ?_, fun e => Iff.rfl⟩
    intro e i he
    rcases hinit.1 e with hnone | hother
    · cases hnone.symm.trans he
    · cases hother.symm.trans he
  · rintro w w' l ⟨hinit, hkept, hmatched⟩ hok hs
    exact ⟨hinit, hkept.step hok.1 hs, hmatched.step hkept hok hs⟩

theorem socket_files_live (h : Reach (systemFrom d w₀) (cleared d) w) :
    (∀ e i, w.entries e = some (.ctx i) ↔ w.Holds d i e) ∧
      ∀ e, (∀ i, ¬w.Holds d i e) → w.entries e = w₀.entries e := by
  obtain ⟨hinit, hkept, hmatched⟩ := matched h
  constructor
  · intro e i
    constructor
    · exact hmatched.live e i
    · rintro ⟨usock, hc, hbinds, haddr⟩
      rw [← find_of_resolve haddr]
      exact hkept.bound i usock hc hbinds (ne_nil_of_resolve haddr)
  · intro e hfree
    cases he : w.entries e with
    | none =>
      rcases hinit.1 e with hnone | hother
      · exact hnone.symm
      · cases ((hmatched.other e).mpr hother).symm.trans he
    | some creator =>
      cases creator with
      | other => exact ((hmatched.other e).mp he).symm
      | ctx i => exact absurd (hmatched.live e i he) (hfree i)

theorem socket_files_live_server : ∃ w,
    Reach (systemFrom plain { entries := fun e => if e = [47] then some .other else none }) (cleared plain) w ∧
      w.Holds plain 0 [47, 97] ∧ (∀ i, ¬w.Holds plain i [47, 98]) ∧ w.entries [47, 98] = none := by
  obtain ⟨w, hw, hserver, hclient⟩ := exists_of_run
    (systemFrom plain { entries := fun e => if e = [47] then some .other else none }) (cleared plain)
    (.init ⟨rfl, fun e => by by_cases he : e = [47] <;> simp [he], rfl, rfl⟩)
    [.tcpServerCreate (some [47, 97]) {}, .udpClientCreate (some [47, 97]) (some [47, 47, 98]) {}, .destroy 1 {}]
    (fun w => w.entries [47, 97] = some (.ctx 0) ∧ w.entries [47, 98] = none) (by decide +kernel)
  obtain ⟨hlive, hrest⟩ := socket_files_live hw
  have hgone (i : ℕ) : ¬w.Holds plain i [47, 98] := by
    intro hi
    cases hclient.symm.trans ((hlive _ i).mpr hi)
  exact ⟨w, hw, (hlive _ 0).mp hserver, hgone, hrest _ hgone⟩

end World

end Libcando.UnixSockets
