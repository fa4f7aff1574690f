import ClassLang.Token.Scanner
import Mathlib.Tactic.Common

namespace ClassLang

open List

structure Span.InText (span : Span) (text : String) : Prop where
  ordered : span.start ≤ span.stop
  bounded : span.stop ≤ text.utf8ByteSize
  start : String.Pos.Raw.IsValid text ⟨span.start⟩
  stop : String.Pos.Raw.IsValid text ⟨span.stop⟩

namespace Span.InText

variable {text : String} {a b : Span}

theorem of_valid (hle : a.start ≤ a.stop) (hstart : String.Pos.Raw.IsValid text ⟨a.start⟩)
    (hstop : String.Pos.Raw.IsValid text ⟨a.stop⟩) : a.InText text :=
  ⟨hle, String.Pos.Raw.le_iff.1 hstop.le_rawEndPos, hstart, hstop⟩

theorem zero (text : String) : InText ⟨0, 0⟩ text := by
  have hvalid : String.Pos.Raw.IsValid text ⟨0⟩ :=
    String.Pos.Raw.isValid_iff_exists_append.2 ⟨"", text, by simp, rfl⟩
  exact of_valid (Nat.le_refl 0) hvalid hvalid

theorem cover (ha : a.InText text) (hb : b.InText text) : (a.cover b).InText text := by
  refine of_valid ?_ ?_ ?_
  · exact Nat.le_trans (Nat.min_le_left _ _) (Nat.le_trans ha.ordered (Nat.le_max_left _ _))
  · show String.Pos.Raw.IsValid text ⟨min a.start b.start⟩
    rw [Nat.min_def]
    split
    · exact ha.start
    · exact hb.start
  · show String.Pos.Raw.IsValid text ⟨max a.stop b.stop⟩
    rw [Nat.max_def]
    split
    · exact hb.stop
    · exact ha.stop

end Span.InText

namespace Scanner

theorem foldl_utf8Size (cs : List Char) (n : Nat) :
    cs.foldl (fun n c => n + c.utf8Size) n = n + byteSize cs := by
  unfold byteSize
  induction cs generalizing n with
  | nil => rfl
  | cons c cs ih => rw [foldl_cons, foldl_cons, ih, ih (0 + _), Nat.zero_add, Nat.add_assoc]

theorem byteSize_cons (c : Char) (cs : List Char) :
    byteSize (c :: cs) = c.utf8Size + byteSize cs := by
  rw [byteSize, foldl_cons, foldl_utf8Size, Nat.zero_add]

theorem byteSize_append (cs ds : List Char) : byteSize (cs ++ ds) = byteSize cs + byteSize ds := by
  unfold byteSize
  rw [foldl_append, foldl_utf8Size, byteSize]

theorem utf8ByteSize_ofList (cs : List Char) : (String.ofList cs).utf8ByteSize = byteSize cs := by
  induction cs with
  | nil => rfl
  | cons c cs ih =>
    rw [String.ofList_cons, String.utf8ByteSize_append, String.utf8ByteSize_singleton, ih,
      byteSize_cons]

theorem byteSize_toList (text : String) : byteSize text.toList = text.utf8ByteSize := by
  rw [← utf8ByteSize_ofList, String.ofList_toList]

theorem length_le_byteSize (cs : List Char) : cs.length ≤ byteSize cs := by
  induction cs with
  | nil => exact Nat.le_refl 0
  | cons c cs ih =>
    have hc := c.utf8Size_pos
    rw [length_cons, byteSize_cons]
    omega

theorem valid_byteSize {text : String} {before rest : List Char}
    (h : text.toList = before ++ rest) : String.Pos.Raw.IsValid text ⟨byteSize before⟩ := by
  refine String.Pos.Raw.isValid_iff_exists_append.2
    ⟨String.ofList before, String.ofList rest, ?_, ?_⟩
  · rw [← String.ofList_append, ← h, String.ofList_toList]
  · rw [← utf8ByteSize_ofList]
    rfl

end Scanner

end ClassLang
