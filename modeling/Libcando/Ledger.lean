import Mathlib.Data.List.Basic
import Mathlib.Data.List.Forall2
import Mathlib.Data.Nat.Notation

structure Ledger (κ β : Type*) where
  closed : List (κ × List β) := []
  opened : Option (κ × List β) := none
  deriving DecidableEq

namespace Ledger

variable {κ β : Type*}

def text (l : Ledger κ β) : List β := l.closed.flatMap Prod.snd ++ (l.opened.map Prod.snd).getD []

def begin (k : κ) (l : Ledger κ β) : Ledger κ β := { l with opened := some (k, []) }

def add (bytes : List β) (l : Ledger κ β) : Ledger κ β :=
  { l with opened := l.opened.map fun e => (e.1, e.2 ++ bytes) }

def close (l : Ledger κ β) : Ledger κ β := ⟨l.closed ++ l.opened.toList, none⟩

@[simp] theorem text_empty : ({} : Ledger κ β).text = [] := rfl

theorem text_begin {l : Ledger κ β} (h : l.opened = none) (k : κ) : (l.begin k).text = l.text := by
  simp [text, begin, h]

theorem text_add {l : Ledger κ β} {e : κ × List β} (h : l.opened = some e) (bytes : List β) :
    (l.add bytes).text = l.text ++ bytes := by
  simp [text, add, h]

@[simp] theorem text_close (l : Ledger κ β) : l.close.text = l.text := by
  cases h : l.opened <;> simp [text, close, h]

@[simp] theorem add_nil (l : Ledger κ β) : l.add [] = l := by
  obtain ⟨closed, opened⟩ := l
  cases opened <;> simp [add]

def keys (l : Ledger κ β) : List κ := l.closed.map Prod.fst ++ (l.opened.map Prod.fst).toList

theorem keys_begin {l : Ledger κ β} (h : l.opened = none) (k : κ) : (l.begin k).keys = l.keys ++ [k] := by
  simp [keys, begin, h]

@[simp] theorem keys_add (l : Ledger κ β) (bytes : List β) : (l.add bytes).keys = l.keys := by
  cases h : l.opened <;> simp [keys, add, h]

@[simp] theorem keys_close (l : Ledger κ β) : l.close.keys = l.keys := by
  cases h : l.opened <;> simp [keys, close, h]

end Ledger

/-- What was written of a list of texts, and what is left of it. A loss drops the rest of a text. -/
inductive Passed {β : Type*} (lossy : Prop) (texts : List (List β)) : List β → List (List β) → Prop
  | start : Passed lossy texts [] texts
  | write {wrote a b : List β} {rest : List (List β)} (h : Passed lossy texts wrote ((a ++ b) :: rest)) :
    Passed lossy texts (wrote ++ a) (b :: rest)
  | next {wrote : List β} {rest : List (List β)} (h : Passed lossy texts wrote ([] :: rest)) :
    Passed lossy texts wrote rest
  | lose {wrote t : List β} {rest : List (List β)} (hl : lossy) (h : Passed lossy texts wrote (t :: rest)) :
    Passed lossy texts wrote rest

def Cut {β : Type*} (texts : List (List β)) (wrote : List β) : Prop :=
  ∃ parts, List.Forall₂ (fun a b : List β => a <+: b) parts texts ∧ wrote = parts.flatten

theorem Cut.cons {β : Type*} {ts : List (List β)} {wrote : List β} (h : Cut ts wrote) (t : List β) :
    Cut (t :: ts) wrote := by
  obtain ⟨parts, hparts, rfl⟩ := h
  exact ⟨[] :: parts, .cons List.nil_prefix hparts, rfl⟩

namespace Passed

variable {β : Type*} {lossy : Prop} {texts rest : List (List β)} {wrote : List β}

theorem whole (hl : ¬lossy) (h : Passed lossy texts wrote rest) : wrote ++ rest.flatten = texts.flatten := by
  induction h with
  | start => rfl
  | write _ ih => rw [← ih]; simp
  | next _ ih => rw [← ih]; simp
  | lose hlossy => exact absurd hlossy hl

theorem cut_append (h : Passed lossy texts wrote rest) {more : List β} (hmore : Cut rest more) :
    Cut texts (wrote ++ more) := by
  induction h generalizing more with
  | start => exact hmore
  | @write wrote a b rest _ ih =>
    obtain ⟨parts, hparts, rfl⟩ := hmore
    cases hparts with
    | @cons p _ ps _ hp hps =>
      rw [List.append_assoc]
      apply ih
      exact ⟨(a ++ p) :: ps, .cons ((List.prefix_append_right_inj a).mpr hp) hps, by simp⟩
  | next _ ih => exact ih (hmore.cons _)
  | lose _ _ ih => exact ih (hmore.cons _)

theorem cut (h : Passed lossy texts wrote []) : Cut texts wrote := by
  simpa using h.cut_append (⟨[], .nil, rfl⟩ : Cut [] [])

end Passed
