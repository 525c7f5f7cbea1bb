import Libcando.Transition

/-!
Blocks of bytes in a bounded room, known by their places in the order of their making.
-/

namespace BlockList

open Transition

structure Blocks where
  room : ℕ
  blocks : List (List UInt8)

inductive Act
  | add (size : ℕ)
  | put (k i : ℕ) (v : UInt8)
  | drop (k : ℕ)
  | grow (granted : Bool) (size : ℕ)

/-- Each block takes `head` bytes more than it holds, and the room is never filled to the last byte. It grows while
there is no block, by no less than it has. -/
def step (head : ℕ) : Act → Blocks → Option Blocks
  | .add size, s =>
    if size + head < s.room then some ⟨s.room - (size + head), s.blocks ++ [List.replicate size 0]⟩ else some s
  | .put k i v, s => do
    let b ← s.blocks[k]?
    if i < b.length then some { s with blocks := s.blocks.set k (b.set i v) } else none
  | .drop k, s => (s.blocks[k]?).map fun b => ⟨s.room + (b.length + head), s.blocks.eraseIdx k⟩
  | .grow granted size, s =>
    if granted = true ∧ s.blocks = [] ∧ s.room ≤ size then some { s with room := s.room + size } else some s

def system (head n : ℕ) : System Blocks Act where
  init s := s = ⟨n, []⟩
  step := step head

end BlockList
