import MutualBackup.Framework.FixedWidth

/-!
# Length-prefixed frames

A record is framed by its length, in a fixed number of big-endian bytes, and a sequence of records
is the concatenation of their frames.  Records are not empty and have a largest length.

`nextFrame` takes the first frame off a byte string.  It succeeds exactly on strings that begin with
the frame of a record (`nextFrame_eq_some`).
-/

namespace Framework

open List

/-- A frame format: the width of the length and the largest length. -/
structure Framing where
  width : ℕ
  limit : ℕ
  limit_lt : limit < 256 ^ width

namespace Framing

variable (F : Framing)

/-- A record that can be framed. -/
def Fits (record : List UInt8) : Prop := record ≠ [] ∧ record.length ≤ F.limit

def frame (record : List UInt8) : List UInt8 := beBytes F.width record.length ++ record

def frames (records : List (List UInt8)) : List UInt8 := records.flatMap F.frame

/-- The record of the first frame, and what follows the frame. -/
def nextFrame (bytes : List UInt8) : Option (List UInt8 × List UInt8) :=
  let length := beValue (bytes.take F.width)
  if bytes.length < F.width ∨ length = 0 ∨ F.limit < length ∨
      bytes.length < F.width + length then none
  else some ((bytes.drop F.width).take length, bytes.drop (F.width + length))

variable {F}

@[simp] lemma length_frame (record : List UInt8) :
    (F.frame record).length = F.width + record.length := by
  rw [frame, length_append, length_beBytes]

@[simp] lemma frames_nil : F.frames [] = [] := rfl

@[simp] lemma frames_cons (record : List UInt8) (records : List (List UInt8)) :
    F.frames (record :: records) = F.frame record ++ F.frames records := rfl

lemma frames_singleton (record : List UInt8) : F.frames [record] = F.frame record := by
  rw [frames_cons, frames_nil, append_nil]

@[simp] lemma frames_append (xs ys : List (List UInt8)) :
    F.frames (xs ++ ys) = F.frames xs ++ F.frames ys := flatMap_append

/-- The first frame is taken off exactly where there is one. -/
lemma nextFrame_eq_some {bytes record rest : List UInt8} :
    F.nextFrame bytes = some (record, rest) ↔ F.Fits record ∧ bytes = F.frame record ++ rest := by
  constructor
  · intro h
    simp only [nextFrame] at h
    split at h
    · cases h
    · rename_i hguard
      push Not at hguard
      obtain ⟨hwidth, hne, hlimit, hlength⟩ := hguard
      cases h
      have htake : (bytes.take F.width).length = F.width := by
        rw [length_take, Nat.min_eq_left hwidth]
      have hrecord : ((bytes.drop F.width).take (beValue (bytes.take F.width))).length =
          beValue (bytes.take F.width) := by
        rw [length_take, length_drop]
        omega
      refine ⟨⟨?_, hrecord.trans_le hlimit⟩, ?_⟩
      · rw [← length_pos_iff, hrecord]
        exact Nat.pos_of_ne_zero hne
      · have hhead := beBytes_beValue (bytes.take F.width)
        rw [htake] at hhead
        rw [frame, hrecord, hhead, ← drop_drop, append_assoc, take_append_drop, take_append_drop]
  · rintro ⟨⟨hne, hlimit⟩, rfl⟩
    have hlt : record.length < 256 ^ F.width := hlimit.trans_lt F.limit_lt
    have htake : (F.frame record ++ rest).take F.width = beBytes F.width record.length := by
      rw [frame, append_assoc, take_left' (length_beBytes _ _)]
    have hdrop : (F.frame record ++ rest).drop F.width = record ++ rest := by
      rw [frame, append_assoc, drop_left' (length_beBytes _ _)]
    have hpos := length_pos_iff.mpr hne
    simp only [nextFrame, htake, beValue_beBytes hlt, hdrop]
    rw [if_neg, take_left, ← length_frame, drop_left]
    rw [length_append, length_frame]
    omega

end Framing

end Framework
