import Mathlib.Data.List.Basic

/-! UTF-8 as a pair of functions on all byte lists: malformed input is replaced by U+FFFD,
so decoding always succeeds. -/
namespace Utf8

def encode (cs : List Char) : List UInt8 := cs.flatMap String.utf8EncodeChar

/-- The character whose encoding the bytes start with. -/
def decodeChar (bs : List UInt8) : Option Char := bs.toByteArray.utf8DecodeChar? 0

def isContinuation (b : UInt8) : Bool := b &&& 0xc0 == 0x80

/-- The second bytes that can follow the first byte of a three or four byte encoding. -/
def secondByteAllowed (b₁ b₂ : UInt8) : Bool :=
  isContinuation b₂ && !(b₁ == 0xe0 && b₂ < 0xa0) && !(b₁ == 0xf0 && b₂ < 0x90) &&
    !(b₁ == 0xf4 && 0x90 ≤ b₂)

/-- How many bytes one U+FFFD stands for when no encoding starts here. -/
def malformedLength : List UInt8 → ℕ
  | b₁::b₂::bs =>
    if 0xe0 ≤ b₁ ∧ b₁ ≤ 0xf4 ∧ secondByteAllowed b₁ b₂ then
      match bs with
      | b₃::_ => if isContinuation b₃ then 3 else 2
      | [] => 2
    else 1
  | _ => 1

theorem malformedLength_pos (bs : List UInt8) : 0 < malformedLength bs := by
  unfold malformedLength
  (repeat' split) <;> decide

/-- The next character and the number of bytes it stands for. -/
def next (bs : List UInt8) : Char × ℕ :=
  match decodeChar bs with
  | some c => (c,c.utf8Size)
  | none => ('\uFFFD',malformedLength bs)

theorem next_pos (bs : List UInt8) : 0 < (next bs).2 := by
  unfold next
  split
  · exact Char.utf8Size_pos _
  · exact malformedLength_pos bs

def decode (bs : List UInt8) : List Char :=
  if bs = [] then [] else (next bs).1 :: decode (bs.drop (next bs).2)
termination_by bs.length
decreasing_by
  have := next_pos bs
  have := List.length_pos_of_ne_nil ‹bs ≠ []›
  simp only [List.length_drop]
  omega

theorem decodeChar_append (c : Char) (bs : List UInt8) :
    decodeChar (String.utf8EncodeChar c ++ bs) = some c := by
  simp [decodeChar,ByteArray.utf8DecodeChar?_utf8EncodeChar_append]

theorem eq_of_decodeChar {bs : List UInt8} {c : Char} (h : decodeChar bs = some c) :
    ∃ rest, bs = String.utf8EncodeChar c ++ rest := by
  obtain ⟨b,hb⟩ := ByteArray.exists_of_utf8DecodeChar?_eq_some h
  have hdata := congrArg (fun b : ByteArray => b.data.toList) hb
  exact ⟨b.data.toList,by simpa using hdata⟩

theorem decode_encode (cs : List Char) : decode (encode cs) = cs := by
  induction cs with
  | nil => simp [encode,decode]
  | cons c cs ih =>
    have hcons : encode (c::cs) = String.utf8EncodeChar c ++ encode cs := rfl
    have hnext : next (String.utf8EncodeChar c ++ encode cs) = (c,c.utf8Size) := by
      simp [next,decodeChar_append]
    have hdrop : (String.utf8EncodeChar c ++ encode cs).drop c.utf8Size = encode cs := by
      rw [← String.length_utf8EncodeChar,List.drop_left]
    rw [decode,if_neg (by simp [encode]),hcons,hnext,hdrop,ih]

/-- Exactly the encodings come back from decoding and encoding again. -/
theorem encode_decode_iff {bs : List UInt8} : encode (decode bs) = bs ↔ ∃ cs, bs = encode cs := by
  constructor
  · intro h
    exact ⟨decode bs,h.symm⟩
  · rintro ⟨cs,rfl⟩
    rw [decode_encode]

theorem isUTF8FirstByte_of_utf8EncodeChar {c : Char} {b : UInt8} {bs rest : List UInt8}
    (h : b::bs = String.utf8EncodeChar c ++ rest) : b.IsUTF8FirstByte := by
  have hpos : 0 < (String.utf8EncodeChar c).length := by
    rw [String.length_utf8EncodeChar]
    exact Char.utf8Size_pos c
  have hb : b = (String.utf8EncodeChar c)[0] := by
    have hhead := congrArg (fun l => l[0]?) h
    simpa [List.getElem?_append_left hpos,List.getElem?_eq_getElem hpos] using hhead
  rw [hb]
  exact UInt8.isUTF8FirstByte_getElem_zero_utf8EncodeChar

theorem isUTF8FirstByte_of_encode {cs : List Char} {b : UInt8} {bs : List UInt8}
    (h : encode cs = b::bs) : b.IsUTF8FirstByte := by
  cases cs with
  | nil => simp [encode] at h
  | cons c cs => exact isUTF8FirstByte_of_utf8EncodeChar h.symm

theorem encode_decode_ne {b : UInt8} {bs : List UInt8} (hb : ¬b.IsUTF8FirstByte) :
    encode (decode (b::bs)) ≠ b::bs := by
  intro h
  obtain ⟨cs,hcs⟩ := encode_decode_iff.mp h
  exact hb (isUTF8FirstByte_of_encode hcs.symm)

theorem decode_cons {b : UInt8} {bs : List UInt8} (hb : ¬b.IsUTF8FirstByte) (hlt : b < 0xe0) :
    decode (b::bs) = '\uFFFD' :: decode bs := by
  have hnone : decodeChar (b::bs) = none := by
    by_contra h
    obtain ⟨c,hc⟩ := Option.ne_none_iff_exists'.mp h
    obtain ⟨rest,hrest⟩ := eq_of_decodeChar hc
    exact hb (isUTF8FirstByte_of_utf8EncodeChar hrest)
  have hlength : malformedLength (b::bs) = 1 := by
    cases bs with
    | nil => rfl
    | cons b₂ bs =>
      have hle : ¬0xe0 ≤ b := UInt8.not_le.mpr hlt
      simp [malformedLength,hle]
  rw [decode,if_neg (by simp)]
  simp [next,hnone,hlength]

end Utf8
