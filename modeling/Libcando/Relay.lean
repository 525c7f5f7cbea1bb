import Mathlib.Data.List.Basic
import Mathlib.Data.Nat.Notation
import Mathlib.Tactic.SplitIfs

structure Relay (α : Type*) where
  source : List α
  got : ℕ
  queue : List α
  sink : List α
  put : ℕ

namespace Relay

variable {α : Type*}

def start (source : List α) : Relay α := ⟨source, 0, [], [], 0⟩

def moveIn (n : ℕ) (r : Relay α) : Relay α :=
  { r with got := r.got + n, queue := r.queue ++ (r.source.drop r.got).take n }

def writeAt (sink : List α) (put : ℕ) (xs : List α) : List α :=
  sink.take put ++ xs ++ sink.drop (put + xs.length)

def moveOut (n : ℕ) (r : Relay α) : Relay α :=
  { r with queue := r.queue.drop n, sink := writeAt r.sink r.put (r.queue.take n), put := r.put + n }

structure Balanced (r : Relay α) : Prop where
  whole : r.sink ++ r.queue = r.source.take r.got
  put_eq : r.put = r.sink.length
  got_le : r.got ≤ r.source.length

@[simp] theorem writeAt_length (sink xs : List α) : writeAt sink sink.length xs = sink ++ xs := by
  simp [writeAt]

theorem balanced_start (source : List α) : (start source).Balanced :=
  ⟨by simp [start], rfl, Nat.zero_le _⟩

theorem Balanced.moveIn {r : Relay α} (h : r.Balanced) {n : ℕ} (hn : r.got + n ≤ r.source.length) :
    (r.moveIn n).Balanced where
  whole := by
    simp only [Relay.moveIn]
    rw [← List.append_assoc, h.whole, List.take_add]
  put_eq := h.put_eq
  got_le := hn

theorem Balanced.moveOut {r : Relay α} (h : r.Balanced) {n : ℕ} (hn : n ≤ r.queue.length) :
    (r.moveOut n).Balanced where
  whole := by
    simp only [Relay.moveOut, h.put_eq, writeAt_length]
    rw [List.append_assoc, List.take_append_drop, h.whole]
  put_eq := by
    simp only [Relay.moveOut, h.put_eq, writeAt_length, List.length_append, List.length_take]
    omega
  got_le := h.got_le

theorem Balanced.queue_length {r : Relay α} (h : r.Balanced) : r.put + r.queue.length = r.got := by
  have hlen := congrArg List.length h.whole
  have hle := h.got_le
  rw [List.length_append, List.length_take, ← h.put_eq] at hlen
  omega

theorem moveOut_moveIn_queue_length {r : Relay α} {a b : ℕ} (ha : r.got + a ≤ r.source.length) :
    ((r.moveIn a).moveOut b).queue.length = r.queue.length + a - b := by
  simp only [moveIn, moveOut, List.length_drop, List.length_append, List.length_take]
  omega

theorem Balanced.sink_eq_iff {r : Relay α} (h : r.Balanced) (hend : r.source.length ≤ r.got) :
    r.sink = r.source ↔ r.queue = [] := by
  have hwhole := h.whole
  rw [List.take_of_length_le hend] at hwhole
  constructor
  · intro hs
    rw [hs] at hwhole
    exact List.append_right_eq_self.mp hwhole
  · intro hq
    rw [hq, List.append_nil] at hwhole
    exact hwhole

end Relay
