import Libcando.ArenaFree
import Libcando.BlockList
import Libcando.Continuation

namespace Libcando.Mm.Arena

open BlockList (Blocks)
open ByteMemory Tiling Transition

inductive Call
  | alloc (mapped : Bool) (size : ℕ)
  | subAlloc (size : ℕ)
  | write (k i : ℕ) (v : UInt8)
  | free (k : ℕ)

namespace Call

def act (s : Arena) : Call → Option Act
  | alloc mapped size => some (.alloc mapped size)
  | subAlloc size => some (.subAlloc size)
  | write k i v => (s.live[k]?).map fun b => .write b i v
  | free k => (s.live[k]?).map fun b => .free (payload b)

end Call

def calls (n : ℕ) : System Arena Call where
  init := (system n).init
  step c s := (c.act s).bind fun l => step l s

/-- No size wraps around, the arena grows only while it is empty, and a block is freed only while nothing but zeroes
lies further behind it than it is long, with as much of the buffer there. -/
def tidy : Call → Arena → Prop
  | .alloc mapped size, s => careful (.alloc mapped size) s
  | .subAlloc size, s => careful (.subAlloc size) s
  | .write _ _ _, _ => True
  | .free k, s => ∀ b ∈ s.live[k]?, b.pos + 2 * b.size ≤ s.mm.buffSz ∧
    ∀ a < s.mm.offset, b.pos + 2 * b.size ≤ a → s.mem a = 0

instance : ∀ (c : Call) (s : Arena), Decidable (tidy c s)
  | .alloc mapped size, s => inferInstanceAs (Decidable (careful (.alloc mapped size) s))
  | .subAlloc size, s => inferInstanceAs (Decidable (careful (.subAlloc size) s))
  | .write _ _ _, _ => inferInstanceAs (Decidable True)
  | .free _, _ => inferInstanceAs (Decidable (∀ b ∈ _, _ ∧ ∀ a < _, _ → _))

def bytes (m : Mem) (b : Block) : List UInt8 := (List.range (b.size - sizeofSizeT)).map fun i => m (payload b + i)

def contents (s : Arena) : Blocks := ⟨s.mm.abSz, s.live.map (bytes s.mem)⟩

variable {s t : Arena} {b c : Block} {m m' : Mem}

theorem Built.empty (hs : s.Built) (h : s.live = []) : s.mm.abSz = s.mm.dataSz ∧ s.mm.offset = sizeofMm := by
  have htiles := hs.tiles
  have htotal := hs.total
  have hwhole := hs.whole
  rw [h] at htiles
  have hstart : sizeofMm = s.mm.offset := htiles
  omega

theorem find_payload (hs : s.Built) (hb : b ∈ s.live) :
    s.live.find? (fun c => payload c = payload b) = some b := by
  cases hfind : s.live.find? fun c => payload c = payload b with
  | none =>
    have := List.find?_eq_none.mp hfind b hb
    simp at this
  | some c =>
    have hpayload : payload c = payload b := by simpa using List.find?_some hfind
    have hc : c ∈ s.live := List.mem_of_find?_eq_some hfind
    by_contra hne
    have hapart := hs.tiles.apart_of_ne hb hc fun h => hne (h ▸ rfl)
    have := (hs.tiles.mem hb).2.1
    have := (hs.tiles.mem hc).2.1
    simp only [payload, Block.Apart, Block.stop] at *
    omega

theorem live_free (hs : s.Built) {k : ℕ} (hb : s.live[k]? = some b) (h : step (.free (payload b)) s = some t) :
    t.mm = (udoMmFree s.mm s.mem (payload b)).1 ∧ t.mem = (udoMmFree s.mm s.mem (payload b)).2 ∧
      t.live = s.live.take k ++ (s.live.drop (k + 1)).map (Block.down b.size) := by
  rw [step, find_payload hs (List.mem_of_getElem? hb), Option.map_some] at h
  rw [← Option.some.inj h]
  refine ⟨?_, ?_, hs.tiles.release_eq hb⟩
  · dsimp only
  · dsimp only

theorem sides (hs : s.Built) {k : ℕ} (hb : s.live[k]? = some b) :
    (∀ c ∈ s.live.take k, c ∈ s.live ∧ c.pos < b.pos) ∧ ∀ c ∈ s.live.drop (k + 1), c ∈ s.live ∧ b.pos < c.pos := by
  have hmem := List.mem_of_getElem? hb
  have hsplit : s.live = s.live.take k ++ b :: s.live.drop (k + 1) := by
    have hdrop : b :: s.live.drop (k + 1) = s.live.drop k := by
      obtain ⟨hk, rfl⟩ := List.getElem?_eq_some_iff.mp hb
      exact (List.drop_eq_getElem_cons hk).symm
    rw [hdrop, List.take_append_drop]
  have hordered : s.live.Pairwise fun c d => c.pos < d.pos := hs.tiles.ordered
  rw [hsplit] at hordered
  obtain ⟨-, hright, hcross⟩ := List.pairwise_append.mp hordered
  constructor
  · intro c hc
    exact ⟨List.mem_of_mem_take hc, hcross c hc b List.mem_cons_self⟩
  · intro c hc
    exact ⟨List.mem_of_mem_drop hc, (List.pairwise_cons.mp hright).1 c hc⟩

theorem Built.free (hs : s.Built) {k : ℕ} (hb : s.live[k]? = some b) (hok : tidy (.free k) s)
    (h : step (.free (payload b)) s = some t) : t.Built ∧ FreeKeeps s b s.mem t.mm t.mem := by
  have hmem := List.mem_of_getElem? hb
  have hsame : ∀ a < s.mm.buffSz, s.mem a = s.mem a := fun _ _ => rfl
  obtain ⟨hroom, htail⟩ := hok b hb
  obtain ⟨hmm, hbytes, hlive⟩ := live_free hs hb h
  have hfields := freed_fields hs hmem hsame
  have hbehind : ∀ a, s.mm.buffSz ≤ a → a < b.pos + 2 * b.size → s.mem a = 0 := by
    intro a ha hlt
    omega
  have hkeeps := free_keeps hs hmem hsame hbehind fun a ha hlt => htail a hlt ha
  rw [← hmm, ← hbytes] at hkeeps
  have hheader := (hs.headed b hmem).2
  have hpacked : t.Packed := by
    have hfreed := hs.toPacked.free hmem hheader t.mem
    rwa [← hmm, hs.tiles.release_eq hb, ← hlive] at hfreed
  refine ⟨⟨hpacked, ?_, ?_, ?_⟩, hkeeps⟩
  · rw [hmm, hfields]
    exact hs.whole
  · intro c hc
    rw [hlive] at hc
    rcases List.mem_append.mp hc with hbefore | hbehind
    · obtain ⟨hold, hlt⟩ := (sides hs hb).1 c hbefore
      obtain ⟨hhead, hload⟩ := hs.headed c hold
      refine ⟨hhead, ?_⟩
      rw [← hload]
      apply load_congr
      intro x hx hstop
      exact hkeeps.before c hold hlt x hx (by rw [Block.stop]; omega)
    · obtain ⟨d, hd, rfl⟩ := List.mem_map.mp hbehind
      obtain ⟨hold, hlt⟩ := (sides hs hb).2 d hd
      exact ⟨(hs.headed d hold).1, (hkeeps.behind d hold hlt).1.trans (hs.headed d hold).2⟩
  · intro a ha hlt
    have hbuff : t.mm.buffSz = s.mm.buffSz := by rw [hmm, hfields]
    exact hkeeps.cleared a ha (hbuff ▸ hlt)

end Libcando.Mm.Arena
