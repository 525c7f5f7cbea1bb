import Libcando.CStrings
import Libcando.Log

namespace Libcando

open CStrings

structure LogErrorStruct where
  code : UInt32
  buffer : List UInt8
  length_buffer : buffer.length = 1 <<< 9
  deriving DecidableEq

def pGetError (code : UInt32) : Option (List UInt8) :=
  if code.toNat = udoLogErrIncorrectData then some "Incorrect data passed".toUTF8.data.toList else none

def appendCommon (code : UInt32) (buffer : List UInt8) : List UInt8 :=
  match pGetError code with
  | none => buffer
  | some string =>
    let offset := strnlen buffer (1 <<< 9)
    buffer.take offset ++ strncpy (buffer.drop offset) string (1 <<< 9 - offset)

theorem length_appendCommon {code : UInt32} {buffer : List UInt8} (h : buffer.length = 1 <<< 9) :
    (appendCommon code buffer).length = 1 <<< 9 := by
  rw [appendCommon]
  cases pGetError code with
  | none => exact h
  | some string =>
    have hoff : strnlen buffer (1 <<< 9) ≤ 1 <<< 9 := by
      rw [← h]
      exact Nat.le_trans (strnlen_le buffer _) (cString_isPrefix buffer).length_le
    dsimp only
    rw [List.length_append, length_strncpy, List.length_take, List.length_drop, h]
    · omega
    · rw [List.length_drop, h]

def LogErrorStruct.set (error : LogErrorStruct) (code : UInt32) (message : List UInt8) : LogErrorStruct where
  code := code
  buffer := appendCommon code (vsnprintf error.buffer (1 <<< 9) message)
  length_buffer := by
    apply length_appendCommon
    rw [length_vsnprintf (Nat.le_of_eq error.length_buffer.symm), error.length_buffer]

def udoLogSetErrorStruct (context : Option LogErrorStruct) (code : UInt32) (message : List UInt8) :
    Option LogErrorStruct :=
  context.map (·.set code message)

def udoLogGetError (context : Option LogErrorStruct) : Option (List UInt8) := context.map (·.buffer)

def udoLogGetErrorCode : Option LogErrorStruct → UInt32
  | none => 0xffffffff
  | some error => error.code

def errorText (code : UInt32) (message : List UInt8) : List UInt8 :=
  let text := (cString message).take (1 <<< 9 - 1)
  text ++ ((pGetError code).getD []).take (1 <<< 9 - 1 - text.length)

structure LogErrorStruct.HasText (error : LogErrorStruct) (code : UInt32) (message : List UInt8) : Prop where
  sets_code : udoLogGetErrorCode (some error) = code
  terminated : 0 ∈ error.buffer
  text : cString error.buffer = errorText code message
  inside : ∃ s n, udoLogGetError (some error) = some s ∧ strlen s = some n ∧ n < 1 <<< 9

variable {error : LogErrorStruct} {code : UInt32} {buffer message : List UInt8}

theorem strnlen_whole (h : buffer.length = 1 <<< 9) : strnlen buffer (1 <<< 9) = (cString buffer).length := by
  rw [strnlen, ← h, List.take_length]

theorem appendCommon_some {string : List UInt8} (h : buffer.length = 1 <<< 9) (hs : pGetError code = some string) :
    appendCommon code buffer = cString buffer ++ ((cString string).take (1 <<< 9 - (cString buffer).length) ++
      List.replicate (1 <<< 9 - (cString buffer).length - (cString string).length) 0) := by
  simp only [appendCommon, hs, strnlen_whole h]
  rw [strncpy_whole (by rw [List.length_drop, h]), ← List.prefix_iff_eq_take.mp (cString_isPrefix buffer)]

theorem pGetError_common (h : code.toNat = udoLogErrIncorrectData) :
    ∃ string, pGetError code = some string ∧ 0 ∉ string ∧ string.length = 21 :=
  ⟨_, if_pos h, by decide, by decide⟩

theorem pGetError_uncommon (h : code.toNat ≠ udoLogErrIncorrectData) : pGetError code = none := if_neg h

namespace LogErrorStruct

theorem buffer_set : (error.set code message).buffer = appendCommon code (vsnprintf error.buffer (1 <<< 9) message) :=
  rfl

theorem hasText_of (code : UInt32) (hcode : error.code = code) (hz : 0 ∈ error.buffer)
    (htext : cString error.buffer = errorText code message) : error.HasText code message where
  sets_code := hcode
  terminated := hz
  text := htext
  inside := by
    refine ⟨error.buffer, _, rfl, if_pos hz, ?_⟩
    rw [← error.length_buffer]
    exact length_cString_lt hz

theorem set_uncommon (h : code.toNat ≠ udoLogErrIncorrectData) : (error.set code message).HasText code message := by
  have hbuffer : (error.set code message).buffer = vsnprintf error.buffer (511 + 1) message := by
    rw [buffer_set, appendCommon, pGetError_uncommon h]
    rfl
  apply hasText_of code rfl
  · rw [hbuffer]
    exact zero_mem_vsnprintf _ _ _
  · rw [hbuffer, cString_vsnprintf]
    simp [errorText, pGetError_uncommon h]

theorem set_common {string : List UInt8} (hs : pGetError code = some string) (hz : 0 ∉ string) :
    (error.set code message).buffer = (cString message).take 511 ++
      (string.take (512 - ((cString message).take 511).length) ++
        List.replicate (512 - ((cString message).take 511).length - string.length) 0) := by
  have hlength : (vsnprintf error.buffer (1 <<< 9) message).length = 1 <<< 9 := by
    rw [length_vsnprintf (Nat.le_of_eq error.length_buffer.symm), error.length_buffer]
  have htext : cString (vsnprintf error.buffer (1 <<< 9) message) = (cString message).take 511 :=
    cString_vsnprintf error.buffer 511 message
  rw [buffer_set, appendCommon_some hlength hs, htext, cString_eq_self hz]
  rfl

theorem set_fits (h : code.toNat = udoLogErrIncorrectData) (hlen : (cString message).length ≤ 490) :
    (error.set code message).HasText code message := by
  obtain ⟨string, hs, hz, hstring⟩ := pGetError_common h
  have htext : (cString message).take 511 = cString message := List.take_of_length_le (by omega)
  obtain ⟨k, hk⟩ : ∃ k, 512 - (cString message).length - string.length = k + 1 :=
    ⟨490 - (cString message).length, by omega⟩
  have hbuffer : (error.set code message).buffer =
      (cString message ++ string) ++ 0 :: List.replicate k 0 := by
    rw [set_common hs hz, htext, hk, List.take_of_length_le (by omega), List.append_assoc, List.replicate_succ]
  apply hasText_of code rfl
  · simp [hbuffer]
  · rw [hbuffer, cString_append_zero]
    · simp only [errorText, hs, Option.getD_some]
      rw [List.take_of_length_le (by omega), List.take_of_length_le (by omega)]
    · simp [zero_notMem_cString, hz]

theorem set_unterminated (h : code.toNat = udoLogErrIncorrectData) (hlen : 490 < (cString message).length) :
    0 ∉ (error.set code message).buffer := by
  obtain ⟨string, hs, hz, hstring⟩ := pGetError_common h
  have hfull : 512 - ((cString message).take 511).length - string.length = 0 := by
    rw [List.length_take]
    omega
  rw [set_common hs hz, hfull, List.replicate_zero, List.append_nil, List.mem_append, not_or]
  exact ⟨fun hm => zero_notMem_cString message (List.mem_of_mem_take hm), fun hm => hz (List.mem_of_mem_take hm)⟩

end LogErrorStruct

theorem error_text_iff (error : LogErrorStruct) (code : UInt32) (message : List UInt8) :
    (∃ error', udoLogSetErrorStruct (some error) code message = some error' ∧ error'.HasText code message) ↔
      code.toNat ≠ udoLogErrIncorrectData ∨ (cString message).length ≤ 490 := by
  constructor
  · rintro ⟨error', hset, htext⟩
    cases hset
    by_contra hlong
    rw [not_or, not_not, not_le] at hlong
    exact LogErrorStruct.set_unterminated hlong.1 hlong.2 htext.terminated
  · intro h
    refine ⟨_, rfl, ?_⟩
    by_cases hcode : code.toNat = udoLogErrIncorrectData
    · exact LogErrorStruct.set_fits hcode (h.resolve_left fun hne => hne hcode)
    · exact LogErrorStruct.set_uncommon hcode

theorem error_text_runs_on : ¬∀ error code message, ∃ error',
    udoLogSetErrorStruct (some error) code message = some error' ∧ error'.HasText code message := by
  intro h
  obtain ⟨error', hset, htext⟩ := h ⟨0, List.replicate 512 0, List.length_replicate⟩ 0x1001 (List.replicate 491 97)
  cases hset
  have hz : (0 : UInt8) ∉ List.replicate 491 97 := by
    intro hm
    cases List.eq_of_mem_replicate hm
  refine LogErrorStruct.set_unterminated (by decide) ?_ htext.terminated
  rw [cString_eq_self hz, List.length_replicate]
  omega

end Libcando
