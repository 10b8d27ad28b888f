import Metamodel.Text.Span

set_option autoImplicit false

/-! # Offsets count bytes

The lengths of characters add up to offsets into the bytes of a text (`byteLength_toList`). So where
a text is cut between two characters, the number of bytes in front of the cut is an offset that
stands between characters; a span between two such offsets lies in the text (`Span.Within`), and the
bytes there are those of the characters between the cuts (`Span.Holds`). -/

namespace Metamodel

/-! ## Byte lengths -/

theorem size_utf8Encode (cs : List Char) : cs.utf8Encode.size = byteLength cs := by
  induction cs with
  | nil => simp
  | cons c cs ih =>
    rw [List.utf8Encode_cons, ByteArray.size_append, ih, byteLength_cons,
      List.utf8Encode_singleton]
    simp [String.length_utf8EncodeChar]

/-- Offsets count the bytes of the text. -/
theorem byteLength_toList (text : String) : byteLength text.toList = text.utf8ByteSize := by
  rw [← size_utf8Encode, ← String.toByteArray_ofList, String.ofList_toList,
    String.size_toByteArray]

theorem utf8ByteSize_ofList (cs : List Char) : (String.ofList cs).utf8ByteSize = byteLength cs := by
  rw [← byteLength_toList, String.toList_ofList]

theorem byteLength_pos {cs : List Char} (h : cs ≠ []) : 0 < byteLength cs := by
  obtain ⟨c, cs, rfl⟩ := List.exists_cons_of_ne_nil h
  rw [byteLength_cons]
  exact Nat.add_pos_left c.utf8Size_pos _

/-! ## Spans of a text -/

namespace Span

/-- The span lies in the text, and its ends stand between characters. -/
structure Within (span : Span) (text : String) : Prop where
  ordered : span.start ≤ span.stop
  inBounds : span.stop ≤ text.utf8ByteSize
  startsBetween : String.Pos.Raw.IsValid text ⟨span.start⟩
  stopsBetween : String.Pos.Raw.IsValid text ⟨span.stop⟩

/-- The characters of the text at the span are those of `s`. -/
def Holds (span : Span) (text s : String) : Prop :=
  ∃ front back, text = front ++ s ++ back ∧ span.start = front.utf8ByteSize ∧
    span.stop = span.start + s.utf8ByteSize

variable {span : Span} {text s : String}

theorem Holds.within (h : span.Holds text s) : span.Within text := by
  obtain ⟨front, back, rfl, hstart, hstop⟩ := h
  refine ⟨?_, ?_, ?_, ?_⟩
  · omega
  · simp only [String.utf8ByteSize_append]
    omega
  · refine String.Pos.Raw.isValid_iff_exists_append.2 ⟨front, s ++ back, String.append_assoc, ?_⟩
    rw [hstart]
    rfl
  · refine String.Pos.Raw.isValid_iff_exists_append.2 ⟨front ++ s, back, rfl, ?_⟩
    rw [hstop, hstart]
    simp [String.Pos.Raw.ext_iff]

/-- The bytes at the span are those of the characters there. -/
theorem Holds.extract_eq (h : span.Holds text s) :
    text.toUTF8.extract span.start span.stop = s.toUTF8 := by
  obtain ⟨front, back, rfl, hstart, hstop⟩ := h
  rw [hstop, hstart, ← String.size_toByteArray, ← String.size_toByteArray]
  simp only [String.toUTF8_eq_toByteArray, String.toByteArray_append]
  rw [← ByteArray.size_append, ByteArray.extract_append_size_left,
    ByteArray.extract_append_eq_right rfl ByteArray.size_append]

/-- Where the characters of a text are cut twice, the span between the cuts holds what stands there. -/
theorem holds_of_toList {front cs back : List Char} (h : text.toList = front ++ cs ++ back)
    (hstart : span.start = byteLength front) (hstop : span.stop = byteLength (front ++ cs)) :
    span.Holds text (String.ofList cs) := by
  refine ⟨String.ofList front, String.ofList back, ?_, ?_, ?_⟩
  · rw [← String.ofList_append, ← String.ofList_append, ← h, String.ofList_toList]
  · rw [hstart, utf8ByteSize_ofList]
  · rw [hstop, hstart, byteLength_append, utf8ByteSize_ofList]

end Span

end Metamodel
