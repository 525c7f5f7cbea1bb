import Libcando.Transition
import Mathlib.Algebra.GroupWithZero.Nat
import Mathlib.Logic.Relation

namespace Transition

variable {σ ι : Type*} {S : System σ ι} {ok ok' : ι → σ → Prop}

def Leads (S : System σ ι) (ok : ι → σ → Prop) : σ → σ → Prop :=
  Relation.ReflTransGen fun s t => ∃ l, ok l s ∧ S.step l s = some t

theorem Leads.refl (s : σ) : Leads S ok s s := Relation.ReflTransGen.refl

theorem Leads.trans {s t u : σ} (h : Leads S ok s t) (h' : Leads S ok t u) : Leads S ok s u :=
  Relation.ReflTransGen.trans h h'

theorem Leads.single {s t : σ} (l : ι) (hok : ok l s) (hs : S.step l s = some t) : Leads S ok s t :=
  Relation.ReflTransGen.single ⟨l, hok, hs⟩

theorem Leads.mono (hsub : ∀ l s, ok' l s → ok l s) {s t : σ} (h : Leads S ok' s t) : Leads S ok s t := by
  induction h with
  | refl => exact .refl _
  | tail _ hlast ih =>
    obtain ⟨l, hok, hl⟩ := hlast
    exact ih.trans (.single l (hsub _ _ hok) hl)

theorem Leads.invariant {I : σ → Prop} (hstep : ∀ s t l, I s → ok l s → S.step l s = some t → I t) {s t : σ}
    (h : Leads S ok s t) (hs : I s) : I t := by
  induction h with
  | refl => exact hs
  | tail _ hlast ih =>
    obtain ⟨l, hok, hl⟩ := hlast
    exact hstep _ _ l ih hok hl

theorem Reach.leads (hsub : ∀ l s, ok' l s → ok l s) {s t : σ} (h : Reach S ok s) (hl : Leads S ok' s t) :
    Reach S ok t := by
  apply hl.invariant _ h
  intro s t l hs hok hstep
  exact hs.step (hsub l s hok) hstep

theorem leads_of_progress {I Q : σ → Prop} (m : σ → ℕ)
    (hnext : ∀ s, I s → ∃ t, Leads S ok s t ∧ (Q t ∨ I t ∧ m t < m s)) {s : σ} (hs : I s) :
    ∃ t, Leads S ok s t ∧ Q t := by
  induction hm : m s using Nat.strong_induction_on generalizing s with
  | _ n ih =>
    obtain ⟨t, hst, hQ | ⟨hI, hlt⟩⟩ := hnext s hs
    · exact ⟨t, hst, hQ⟩
    · obtain ⟨u, htu, hu⟩ := ih (m t) (hm ▸ hlt) hI rfl
      exact ⟨u, hst.trans htu, hu⟩

theorem leads_of_measure {I Q : σ → Prop} (m : σ → ℕ)
    (hstep : ∀ s, I s → ∃ l t, ok l s ∧ S.step l s = some t ∧ (Q t ∨ I t ∧ m t < m s)) {s : σ} (hs : I s) :
    ∃ t, Leads S ok s t ∧ Q t := by
  apply leads_of_progress m _ hs
  intro s hs
  obtain ⟨l, t, hok, hl, ht⟩ := hstep s hs
  exact ⟨t, .single l hok hl, ht⟩

inductive InTurn {κ : Type*} (S : System σ ι) (ok : ι → σ → Prop) (Q : κ → σ → Prop) : List κ → σ → Prop
  | nil (s : σ) : InTurn S ok Q [] s
  | cons {k : κ} {ks : List κ} {s t : σ} (h : Leads S ok s t) (hk : Q k t) (hks : InTurn S ok Q ks t) :
    InTurn S ok Q (k :: ks) s

theorem inTurn_of_next {κ : Type*} {Q : κ → σ → Prop} {I : List κ → σ → Prop}
    (hnext : ∀ k ks s, I (k :: ks) s → ∃ t, Leads S ok s t ∧ Q k t ∧ I ks t) {ks : List κ} {s : σ}
    (hs : I ks s) : InTurn S ok Q ks s := by
  induction ks generalizing s with
  | nil => exact .nil s
  | cons k ks ih =>
    obtain ⟨t, hst, hk, ht⟩ := hnext k ks s hs
    exact .cons hst hk (ih ht)

inductive Trace (S : System σ ι) (ok : ι → σ → Prop) : List ι → σ → Prop
  | init {s : σ} (h : S.init s) : Trace S ok [] s
  | step {ls : List ι} {l : ι} {s t : σ} (h : Trace S ok ls s) (hok : ok l s) (hs : S.step l s = some t) :
    Trace S ok (ls ++ [l]) t

theorem Trace.reach {ls : List ι} {s : σ} (h : Trace S ok ls s) : Reach S ok s := by
  induction h with
  | init h => exact .init h
  | step _ hok hs ih => exact ih.step hok hs

theorem Trace.mono (hsub : ∀ l s, ok' l s → ok l s) {ls : List ι} {s : σ} (h : Trace S ok' ls s) : Trace S ok ls s := by
  induction h with
  | init h => exact .init h
  | step _ hok hs ih => exact ih.step (hsub _ _ hok) hs

theorem Trace.leads (hsub : ∀ l s, ok' l s → ok l s) {ls : List ι} {s t : σ} (h : Trace S ok ls s)
    (hl : Leads S ok' s t) : ∃ ls', Trace S ok (ls ++ ls') t ∧ ∀ l ∈ ls', ∃ u, ok' l u := by
  induction hl with
  | refl => exact ⟨[], by rwa [List.append_nil], by simp⟩
  | tail _ hlast ih =>
    obtain ⟨ls', htrace, hall⟩ := ih
    obtain ⟨l, hok, hs⟩ := hlast
    refine ⟨ls' ++ [l], ?_, ?_⟩
    · rw [← List.append_assoc]
      exact htrace.step (hsub l _ hok) hs
    · intro l' hl'
      rcases List.mem_append.mp hl' with hold | hnew
      · exact hall l' hold
      · rw [List.mem_singleton.mp hnew]
        exact ⟨_, hok⟩

theorem Trace.invariant {I : List ι → σ → Prop} (hinit : ∀ s, S.init s → I [] s)
    (hstep : ∀ ls l s t, I ls s → ok l s → S.step l s = some t → I (ls ++ [l]) t) {ls : List ι} {s : σ}
    (h : Trace S ok ls s) : I ls s := by
  induction h with
  | init h => exact hinit _ h
  | step _ hok hs ih => exact hstep _ _ _ _ ih hok hs

theorem run_trace [∀ l s, Decidable (ok l s)] {ls ls' : List ι} {s t : σ} (hs : Trace S ok ls s)
    (h : run S ok ls' s = some t) : Trace S ok (ls ++ ls') t := by
  induction ls' generalizing ls s with
  | nil => cases h; rwa [List.append_nil]
  | cons l ls' ih =>
    rw [run] at h
    split_ifs at h with hok
    obtain ⟨u, hu, hrun⟩ := Option.bind_eq_some_iff.mp h
    rw [List.append_cons]
    exact ih (hs.step hok hu) hrun

end Transition
