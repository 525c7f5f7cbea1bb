import Libcando.Log
import Libcando.Relay
import Libcando.Syscall
import Mathlib.Algebra.Ring.Int.Defs

namespace Libcando.FileOps

open Syscall

def pipeMaxBuffSize : ℕ := 1 <<< 16

structure ZeroCopyInfo where
  size : ℕ

structure Channel where
  err : LogError := ⟨0, ""⟩
  files : Relay UInt8

namespace Channel

def spliceIn (size : ℕ) (o : Outcome) (s : Channel) : Option Channel :=
  match o with
  | .failed _ => some s
  | .done 0 => if s.files.source.length ≤ s.files.got then some s else none
  | .done n =>
    if n ≤ size ∧ s.files.got + n ≤ s.files.source.length ∧ s.files.queue.length + n ≤ pipeMaxBuffSize then
      some { s with files := s.files.moveIn n }
    else none

def spliceOut (size : ℕ) (o : Outcome) (s : Channel) : Option Channel :=
  match o with
  | .failed _ => some s
  | .done 0 => if s.files.queue = [] then some s else none
  | .done n => if n ≤ size ∧ n ≤ s.files.queue.length then some { s with files := s.files.moveOut n } else none

end Channel

/-- The kernel decides the outcomes of the two calls of `splice`; `none` is an outcome it cannot have. -/
def udoFileOpsZeroCopy (strerror : ℕ → String) (fileInfo : Option ZeroCopyInfo) (o₁ o₂ : Outcome) (s : Channel) :
    Option (ℤ × Channel) :=
  match fileInfo with
  | none => some (-1, { s with err := ⟨udoLogErrIncorrectData, ""⟩ })
  | some info =>
    if info.size = 0 then some (-1, { s with err := ⟨udoLogErrIncorrectData, ""⟩ })
    else
      (s.spliceIn (min info.size pipeMaxBuffSize) o₁).bind fun s =>
        match o₁ with
        | .done 0 => some (0, s)
        | .failed e => some (-1, { s with err := ⟨e, "splice: " ++ strerror e⟩ })
        | .done _ =>
          (s.spliceOut (min info.size pipeMaxBuffSize) o₂).map fun s =>
            match o₂ with
            | .failed e => (-1, { s with err := ⟨e, "splice: " ++ strerror e⟩ })
            | .done n => (n, s)

/-- A caller that calls again until the call returns 0, with the outcomes of the two calls of `splice` and the
value returned for every call but the last. -/
inductive Copied (strerror : ℕ → String) (info : ZeroCopyInfo) :
    Channel → List (Outcome × Outcome) → List ℤ → Channel → Prop
  | last {s s' : Channel} (o₁ o₂ : Outcome) (h : udoFileOpsZeroCopy strerror (some info) o₁ o₂ s = some (0, s')) :
    Copied strerror info s [] [] s'
  | more {s s' t : Channel} {n : ℤ} {os : List (Outcome × Outcome)} {ns : List ℤ} (o₁ o₂ : Outcome)
    (h : udoFileOpsZeroCopy strerror (some info) o₁ o₂ s = some (n, s')) (hn : n ≠ 0) (hn' : n ≠ -1)
    (hrest : Copied strerror info s' os ns t) : Copied strerror info s ((o₁, o₂) :: os) (n :: ns) t

def LastDrains : ℤ → List (Outcome × Outcome) → Prop
  | _, [] => True
  | held, [(o₁, o₂)] => o₂.ret = held + o₁.ret
  | held, (o₁, o₂) :: os => LastDrains (held + o₁.ret - o₂.ret) os

instance decidableLastDrains : (held : ℤ) → (os : List (Outcome × Outcome)) → Decidable (LastDrains held os)
  | _, [] => isTrue trivial
  | held, [(o₁, o₂)] => inferInstanceAs (Decidable (o₂.ret = held + o₁.ret))
  | held, (o₁, o₂) :: o :: os => decidableLastDrains (held + o₁.ret - o₂.ret) (o :: os)

section

variable {strerror : ℕ → String} {info : ZeroCopyInfo} {s s' t : Channel} {n : ℤ} {o₁ o₂ : Outcome}

theorem Channel.spliceIn_cases {size a : ℕ} (h : s.spliceIn size (.done a) = some s') :
    a = 0 ∧ s.files.source.length ≤ s.files.got ∧ s' = s ∨
      a ≠ 0 ∧ s.files.got + a ≤ s.files.source.length ∧ s' = { s with files := s.files.moveIn a } := by
  cases a with
  | zero =>
    simp only [spliceIn] at h
    split_ifs at h with hend
    cases h
    exact .inl ⟨rfl, hend, rfl⟩
  | succ a =>
    simp only [spliceIn] at h
    split_ifs at h with hroom
    cases h
    exact .inr ⟨by simp, hroom.2.1, rfl⟩

theorem Channel.spliceOut_cases {size b : ℕ} (h : s.spliceOut size (.done b) = some s') :
    b = 0 ∧ s.files.queue = [] ∧ s' = s ∨
      b ≠ 0 ∧ b ≤ s.files.queue.length ∧ s' = { s with files := s.files.moveOut b } := by
  cases b with
  | zero =>
    simp only [spliceOut] at h
    split_ifs at h with hempty
    cases h
    exact .inl ⟨rfl, hempty, rfl⟩
  | succ b =>
    simp only [spliceOut] at h
    split_ifs at h with hroom
    cases h
    exact .inr ⟨by simp, hroom.2, rfl⟩

theorem udoFileOpsZeroCopy_cases (h : udoFileOpsZeroCopy strerror (some info) o₁ o₂ s = some (n, s')) (hn : n ≠ -1) :
    n = 0 ∧ s' = s ∧ s.files.source.length ≤ s.files.got ∨
      ∃ a b, o₁ = .done a ∧ o₂ = .done b ∧ n = b ∧ a ≠ 0 ∧ b ≠ 0 ∧ s.files.got + a ≤ s.files.source.length ∧
        b ≤ (s.files.moveIn a).queue.length ∧ s'.files = (s.files.moveIn a).moveOut b := by
  simp only [udoFileOpsZeroCopy] at h
  split_ifs at h with hsize
  · cases h
    exact absurd rfl hn
  obtain ⟨s₁, hin, hrest⟩ := Option.bind_eq_some_iff.mp h
  cases o₁ with
  | failed e =>
    cases hrest
    exact absurd rfl hn
  | done a =>
    rcases Channel.spliceIn_cases hin with ⟨rfl, hend, rfl⟩ | ⟨ha, hroom, rfl⟩
    · cases hrest
      exact .inl ⟨rfl, rfl, hend⟩
    · obtain ⟨a, rfl⟩ := Nat.exists_eq_succ_of_ne_zero ha
      obtain ⟨s₂, hout, hret⟩ := Option.map_eq_some_iff.mp hrest
      cases o₂ with
      | failed e =>
        cases hret
        exact absurd rfl hn
      | done b =>
        cases hret
        rcases Channel.spliceOut_cases hout with ⟨-, hempty, -⟩ | ⟨hb, hle, rfl⟩
        · have hlen := congrArg List.length hempty
          simp only [Relay.moveIn, List.length_append, List.length_take, List.length_drop, List.length_nil] at hlen
          omega
        · exact .inr ⟨_, _, rfl, rfl, rfl, ha, hb, hroom, hle, rfl⟩

variable {os : List (Outcome × Outcome)} {ns : List ℤ}

namespace Copied

theorem balanced (h : Copied strerror info s os ns t) (hs : s.files.Balanced) :
    t.files.Balanced ∧ t.files.source = s.files.source ∧ t.files.source.length ≤ t.files.got ∧
      (t.files.put : ℤ) = s.files.put + ns.sum := by
  induction h with
  | last o₁ o₂ h =>
    rcases udoFileOpsZeroCopy_cases h (by decide) with ⟨-, rfl, hend⟩ | ⟨a, b, -, -, hn, -, hb, -⟩
    · exact ⟨hs, rfl, hend, by simp⟩
    · omega
  | more o₁ o₂ h hn hn' hrest ih =>
    rcases udoFileOpsZeroCopy_cases h hn' with ⟨hzero, -⟩ | ⟨a, b, -, -, hb, -, -, hroom, hle, hfiles⟩
    · exact absurd hzero hn
    · rw [hfiles] at ih
      obtain ⟨hbal, hsource, hend, hput⟩ := ih ((hs.moveIn hroom).moveOut hle)
      refine ⟨hbal, hsource, hend, ?_⟩
      simp only [Relay.moveOut, Relay.moveIn, List.sum_cons] at hput ⊢
      omega

theorem drained (h : Copied strerror info s os ns t) :
    (os = [] → t = s) ∧ (os ≠ [] → (LastDrains s.files.queue.length os ↔ t.files.queue = [])) := by
  induction h with
  | last o₁ o₂ h =>
    rcases udoFileOpsZeroCopy_cases h (by decide) with ⟨-, rfl, -⟩ | ⟨a, b, -, -, hn, -, hb, -⟩
    · simp
    · omega
  | @more s s' t n os ns o₁ o₂ h hn hn' hrest ih =>
    rcases udoFileOpsZeroCopy_cases h hn' with ⟨hzero, -⟩ | ⟨a, b, rfl, rfl, -, -, -, hroom, hle, hfiles⟩
    · exact absurd hzero hn
    · have hlen := Relay.moveOut_moveIn_queue_length (b := b) hroom
      rw [← hfiles] at hlen
      have hle' : b ≤ s.files.queue.length + a := by
        simp only [Relay.moveIn, List.length_append, List.length_take, List.length_drop] at hle
        omega
      refine ⟨by simp, fun _ => ?_⟩
      cases os with
      | nil =>
        rw [ih.1 rfl, ← List.length_eq_zero_iff, hlen]
        simp only [LastDrains, Outcome.ret]
        omega
      | cons o os =>
        rw [← ih.2 (by simp), hlen, LastDrains, Outcome.ret, Outcome.ret]
        · rw [Int.ofNat_sub hle', Int.natCast_add]
        · simp

theorem calls_le (h : Copied strerror info s os ns t) (hs : s.files.Balanced) :
    ns.length + s.files.got ≤ s.files.source.length := by
  induction h with
  | last o₁ o₂ h => simpa using hs.got_le
  | more o₁ o₂ h hn hn' hrest ih =>
    rcases udoFileOpsZeroCopy_cases h hn' with ⟨hzero, -⟩ | ⟨a, b, -, -, -, ha, -, hroom, hle, hfiles⟩
    · exact absurd hzero hn
    · rw [hfiles] at ih
      have := ih ((hs.moveIn hroom).moveOut hle)
      simp only [Relay.moveOut, Relay.moveIn, List.length_cons] at this ⊢
      omega

end Copied

theorem copied_whole_iff {input : List UInt8} (h : Copied strerror info { files := .start input } os ns t) :
    (t.files.sink = input ∧ ns.sum = input.length ∧ t.files.queue = []) ↔ LastDrains 0 os := by
  obtain ⟨hbal, hsource, hend, hput⟩ := h.balanced (Relay.balanced_start input)
  have hcount := hbal.queue_length
  have hgot := hbal.got_le
  have hwhole := hbal.sink_eq_iff hend
  rw [hsource] at hend hgot hwhole
  simp only [Relay.start] at hput hend hgot hwhole
  have hdrained : LastDrains 0 os ↔ t.files.queue = [] := by
    cases os with
    | nil => simp [h.drained.1 rfl, LastDrains, Relay.start]
    | cons o os => exact h.drained.2 (by simp)
  rw [hdrained]
  constructor
  · rintro ⟨-, -, hqueue⟩
    exact hqueue
  · intro hqueue
    refine ⟨hwhole.mpr hqueue, ?_, hqueue⟩
    rw [hqueue] at hcount
    simp only [List.length_nil] at hcount
    omega

end

theorem copied_whole_short : ∃ t, Copied (fun _ => "") ⟨64⟩ { files := .start [1, 2, 3] }
    [(.done 2, .done 1), (.done 1, .done 2)] [1, 2] t ∧ t.files.sink = [1, 2, 3] := by
  have h : Copied (fun _ => "") ⟨64⟩ { files := .start [1, 2, 3] } [(.done 2, .done 1), (.done 1, .done 2)] [1, 2]
      { files := ⟨[1, 2, 3], 3, [], [1, 2, 3], 3⟩ } :=
    .more _ _ rfl (by decide) (by decide) (.more _ _ rfl (by decide) (by decide) (.last (.done 0) (.done 0) rfl))
  exact ⟨_, h, ((copied_whole_iff h).mpr (by decide)).1⟩

theorem copied_part : ¬ ∀ (info : ZeroCopyInfo) (input : List UInt8) (os : List (Outcome × Outcome)) (ns : List ℤ)
    (t : Channel), 0 < info.size → Copied (fun _ => "") info { files := .start input } os ns t →
      t.files.sink = input ∧ ns.sum = input.length ∧ t.files.queue = [] := by
  intro copied
  have h : Copied (fun _ => "") ⟨64⟩ { files := .start [1, 2, 3] } [(.done 3, .done 2)] [2]
      { files := ⟨[1, 2, 3], 3, [3], [1, 2], 2⟩ } :=
    .more _ _ rfl (by decide) (by decide) (.last (.done 0) (.done 0) rfl)
  have := (copied _ _ _ _ _ (by decide) h).2.2
  cases this

end Libcando.FileOps
