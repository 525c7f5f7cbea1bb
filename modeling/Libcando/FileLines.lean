import Libcando.Log
import Libcando.Pieces

namespace Libcando.FileOps

open Pieces

def newline : UInt8 := 10

abbrev endsLine (b : UInt8) : Bool := b == newline

/-- What mmap gives on failure; create takes it when there is nothing to map. -/
def mapFailed : ℕ := sizeMax - 1

structure FileData where
  data : ℕ
  bytes : List UInt8
  fits : data + bytes.length < sizeMax

def lineScan (pLine : ℕ) : List UInt8 → ℕ → ℕ → ℕ → ℕ × ℕ
  | [], offset, c, _ => (offset, c)
  | b :: bytes, offset, c, line =>
    if b = newline then
      -- the loop header counts `c` up again after the reset
      if line + 1 = pLine then (offset, c) else lineScan pLine bytes (offset + 1) (0 + 1) (line + 1)
    else lineScan pLine bytes (offset + 1) (c + 1) line

def udoFileOpsGetLine (flops : Option FileData) (pLine : ℕ) : ℕ × Option LogError :=
  match flops with
  | none => (0, none)
  | some flops =>
    if flops.data = 0 ∨ pLine = 0 then (0, some ⟨udoLogErrIncorrectData, ""⟩)
    else
      let (offset, c) := lineScan pLine flops.bytes 0 0 0
      let c := (c + sizeMax - if pLine = 1 then 0 else 1) % sizeMax
      ((flops.data + (offset + sizeMax - c) % sizeMax) % sizeMax, none)

def udoFileOpsGetLineCount (flops : Option FileData) : ℕ × Option LogError :=
  match flops with
  | none => (sizeMax - 1, none)
  | some flops =>
    if flops.data = 0 then (sizeMax - 1, some ⟨udoLogErrIncorrectData, ""⟩)
    else (flops.bytes.foldl (fun line b => if b = newline then line + 1 else line) 0, none)

def lineOffset (pLine : ℕ) (bytes : List UInt8) : ℕ :=
  if 2 ≤ pLine ∧ bytes.countP endsLine = 0 then 1
  else start endsLine (min (pLine - 1) (bytes.countP endsLine)) bytes

variable {n o c m : ℕ} {l : List UInt8} {f : FileData}

theorem lineScan_fst_le : (lineScan n l o c m).1 ≤ o + l.length := by
  induction l generalizing o c m with
  | nil => simp [lineScan]
  | cons b l ih =>
    rw [lineScan, List.length_cons]
    split_ifs
    · omega
    · have := ih (o := o + 1) (c := 0 + 1) (m := m + 1)
      omega
    · have := ih (o := o + 1) (c := c + 1) (m := m)
      omega

theorem lineScan_spec {s : ℕ} (hline : m < n) (hs : o + (if m = 0 then 0 else 1) = s + c)
    {k : ℕ} (hk : k = min (n - 1 - m) (l.countP endsLine)) :
    (lineScan n l o c m).1 + (if m + k = 0 then 0 else 1) =
      (if k = 0 then s else o + start endsLine k l) + (lineScan n l o c m).2 := by
  induction l generalizing o c m s k with
  | nil => simpa [lineScan, hk] using hs
  | cons b l ih =>
    rw [lineScan]
    by_cases hb : b = newline
    · have hstop : endsLine b = true := beq_iff_eq.mpr hb
      rw [List.countP_cons_of_pos hstop] at hk
      rw [if_pos hb]
      by_cases hlast : m + 1 = n
      · rw [if_pos hlast]
        obtain rfl : k = 0 := by omega
        simpa using hs
      · rw [if_neg hlast]
        obtain ⟨k, rfl⟩ : ∃ j, k = j + 1 := ⟨k - 1, by omega⟩
        have hrest := ih (s := o + 1) (o := o + 1) (c := 0 + 1) (m := m + 1) (by omega) (by simp) (k := k) (by omega)
        rw [if_neg (by omega)] at hrest
        rw [if_neg (by omega), if_neg (by omega), hrest, start, if_pos hstop]
        by_cases hk0 : k = 0
        · simp [hk0]
        · rw [if_neg hk0]
          omega
    · have hstop : endsLine b = false := beq_eq_false_iff_ne.mpr hb
      rw [List.countP_cons_of_neg (by simp [hstop])] at hk
      have hrest := ih (s := s) (c := c + 1) (o := o + 1) hline (by omega) hk
      rw [if_neg hb, hrest]
      cases k with
      | zero => rfl
      | succ k =>
        rw [if_neg (by omega), if_neg (by omega), start, if_neg (by simp [hstop])]
        omega

theorem lineScan_offset (hn : 1 ≤ n) :
    (lineScan n l 0 0 0).1 + (if n = 1 then 0 else 1) = lineOffset n l + (lineScan n l 0 0 0).2 := by
  have hscan := lineScan_spec (n := n) (l := l) (o := 0) (c := 0) (m := 0) (s := 0) (by omega) rfl rfl
  rw [lineOffset]
  simp only [Nat.sub_zero, Nat.zero_add] at hscan
  by_cases hk : min (n - 1) (l.countP endsLine) = 0
  · rw [if_pos hk, if_pos hk] at hscan
    rw [hk, start_zero]
    split_ifs <;> omega
  · rw [if_neg hk, if_neg hk] at hscan
    rw [if_neg (by omega), if_neg (by omega)]
    exact hscan

theorem lineOffset_le : lineOffset n l ≤ l.length + 1 := by
  rw [lineOffset]
  split_ifs
  · omega
  · exact Nat.le_succ_of_le (start_le _ _ _)

theorem wrapped_sub {d a x : ℕ} (h : o + a = x + c) (ho : o < sizeMax) (ha : a ≤ 1) :
    (d + (o + sizeMax - (c + sizeMax - a) % sizeMax) % sizeMax) % sizeMax = (d + x) % sizeMax := by
  unfold sizeMax at *
  omega

theorem udoFileOpsGetLine_eq (hdata : f.data ≠ 0) (hn : 1 ≤ n) :
    udoFileOpsGetLine (some f) n = ((f.data + lineOffset n f.bytes) % sizeMax, none) := by
  have hscan := lineScan_offset (l := f.bytes) hn
  have hle := lineScan_fst_le (n := n) (l := f.bytes) (o := 0) (c := 0) (m := 0)
  have hoff := lineOffset_le (n := n) (l := f.bytes)
  have hfits := f.fits
  rw [udoFileOpsGetLine, if_neg (by omega)]
  generalize lineScan n f.bytes 0 0 0 = r at hscan hle
  obtain ⟨o, c⟩ := r
  dsimp only at hscan hle ⊢
  rw [wrapped_sub hscan (by omega) (by split_ifs <;> omega)]

theorem lineOffset_eq (hn : 1 ≤ n) (hL : n ≤ (pieces endsLine l).length) :
    lineOffset n l = start endsLine (n - 1) l ∧ n - 1 ≤ l.countP endsLine := by
  have hle := length_pieces_le endsLine l
  rw [lineOffset, if_neg (by omega), Nat.min_eq_left (by omega)]
  exact ⟨rfl, by omega⟩

theorem udoFileOpsGetLine_found (hdata : f.data ≠ 0) (hn : 1 ≤ n) (hL : n ≤ (pieces endsLine f.bytes).length) :
    udoFileOpsGetLine (some f) n = (f.data + start endsLine (n - 1) f.bytes, none) := by
  have hle := start_le endsLine (n - 1) f.bytes
  rw [udoFileOpsGetLine_eq hdata hn, (lineOffset_eq hn hL).1,
    Nat.mod_eq_of_lt (Nat.lt_of_le_of_lt (Nat.add_le_add_left hle _) f.fits)]

theorem udoFileOpsGetLineCount_eq (hdata : f.data ≠ 0) :
    udoFileOpsGetLineCount (some f) = (f.bytes.countP endsLine, none) := by
  have counted (m : ℕ) (l : List UInt8) :
      l.foldl (fun line b => if b = newline then line + 1 else line) m = m + l.countP endsLine := by
    induction l generalizing m with
    | nil => rfl
    | cons b l ih =>
      rw [List.foldl_cons, ih, List.countP_cons]
      by_cases hb : b = newline <;> simp [hb, endsLine]
      omega
  rw [udoFileOpsGetLineCount, if_neg hdata, counted, Nat.zero_add]

structure FileData.LinesExact (f : FileData) : Prop where
  line : ∀ n, 1 ≤ n → n ≤ (pieces endsLine f.bytes).length →
    ∃ i, udoFileOpsGetLine (some f) n = (f.data + i, none) ∧ i < f.bytes.length ∧
      (f.bytes.take i).countP endsLine = n - 1 ∧
        (n = 1 ∧ i = 0 ∨ ∃ j, i = j + 1 ∧ f.bytes[j]? = some newline)
  count : udoFileOpsGetLineCount (some f) = (f.bytes.countP endsLine, none)
  cut : cut f.bytes ((List.range (pieces endsLine f.bytes).length).map fun k =>
    (udoFileOpsGetLine (some f) (k + 1)).1 - f.data) = pieces endsLine f.bytes
  whole : (pieces endsLine f.bytes).flatten = f.bytes

theorem line_lookup_exact (hdata : f.data ≠ 0) : f.LinesExact where
  line := by
    intro n hn hL
    refine ⟨start endsLine (n - 1) f.bytes, udoFileOpsGetLine_found hdata hn hL, start_lt_iff.mpr (by omega),
      countP_take_start (lineOffset_eq hn hL).2, ?_⟩
    obtain ⟨k, rfl⟩ : ∃ k, n = k + 1 := ⟨n - 1, by omega⟩
    cases k with
    | zero => exact .inl ⟨rfl, start_zero _⟩
    | succ k =>
      obtain ⟨j, b, hj, hb, hstop⟩ := stop_before_start (lineOffset_eq hn hL).2
      exact .inr ⟨j, hj, by rw [hb, beq_iff_eq.mp hstop]⟩
  count := udoFileOpsGetLineCount_eq hdata
  cut := by
    have addresses : ((List.range (pieces endsLine f.bytes).length).map fun k =>
        (udoFileOpsGetLine (some f) (k + 1)).1 - f.data) = starts endsLine f.bytes := by
      rw [starts_eq]
      apply List.map_congr_left
      intro k hk
      rw [udoFileOpsGetLine_found hdata (by omega) (List.mem_range.mp hk), Nat.add_sub_cancel_left,
        Nat.succ_sub_one]
    rw [addresses, cut_starts]
  whole := flatten_pieces _ _

theorem line_lookup_exact_unterminated :
    (⟨4096, [10, 97, 10, 10, 98], by decide⟩ : FileData).LinesExact := line_lookup_exact (by decide)

example : (List.range 4).map (fun k => (udoFileOpsGetLine (some ⟨4096, [10, 97, 10, 10, 98], by decide⟩) (k + 1)).1) =
    [4096, 4097, 4099, 4100] := by decide

theorem line_past_end_iff (hL : (pieces endsLine f.bytes).length < n) :
    (udoFileOpsGetLine (some f) n).1 = 0 ↔ f.data = 0 ∨ f.data = mapFailed ∧ 2 ≤ n := by
  by_cases hdata : f.data = 0
  · simp [udoFileOpsGetLine, hdata]
  have hfits := f.fits
  rw [udoFileOpsGetLine_eq hdata (by omega)]
  by_cases hone : 2 ≤ n ∧ f.bytes.countP endsLine = 0
  · rw [lineOffset, if_pos hone]
    unfold mapFailed sizeMax at *
    omega
  · have hle := start_le endsLine (min (n - 1) (f.bytes.countP endsLine)) f.bytes
    have hempty (h : f.bytes.length = 0) : f.bytes.countP endsLine = 0 := by
      simp [List.length_eq_zero_iff.mp h]
    rw [lineOffset, if_neg hone, Nat.mod_eq_of_lt (by omega)]
    unfold mapFailed sizeMax at *
    omega

theorem line_past_end_iff_empty :
    (udoFileOpsGetLine (some ⟨mapFailed, [], by decide⟩) 2).1 = 0 ↔
      mapFailed = 0 ∨ mapFailed = mapFailed ∧ 2 ≤ 2 :=
  line_past_end_iff (f := ⟨mapFailed, [], by decide⟩) (n := 2) (by decide)

theorem line_past_end_found : ¬∀ (f : FileData) (n : ℕ), (pieces endsLine f.bytes).length < n →
    (udoFileOpsGetLine (some f) n).1 = 0 := by
  intro refused
  have := refused ⟨4096, [97, 98], by decide⟩ 2 (by decide)
  revert this
  decide

end Libcando.FileOps
