import Mathlib.Data.List.Basic
import ModuleLookup.Text.ByteLength
import ModuleLookup.Text.Utf8

/-!
# Bytes of a text

A text is written in UTF-8 character by character. So a cut between two characters is a cut
between two bytes, at the offset that `byteLength` gives, and the pieces of the text are written
as the pieces of its bytes. A character below 128 is one byte of the same number, and no byte of
any other character is below 128.

* `bytesOf` — the bytes of some characters; `encode_eq_bytesOf`.
* `isValid_of_toList_eq` and `bytesBetween_of_toList_eq` — cuts in a text, and what lies between
  two of them.
* `bytesOf_singleton` and `le_of_mem_bytesOf_singleton` — single characters;
  `count_bytesOf` — how often a character below 128 occurs.
-/

namespace ModuleLookup

/-- The bytes of some characters in UTF-8. -/
def bytesOf (cs : List Char) : List UInt8 :=
  cs.flatMap String.utf8EncodeChar

@[simp] theorem bytesOf_nil : bytesOf [] = [] := rfl

@[simp] theorem bytesOf_append (cs ds : List Char) :
    bytesOf (cs ++ ds) = bytesOf cs ++ bytesOf ds :=
  List.flatMap_append

theorem bytesOf_cons (c : Char) (cs : List Char) : bytesOf (c :: cs) = bytesOf [c] ++ bytesOf cs :=
  bytesOf_append [c] cs

@[simp] theorem length_bytesOf (cs : List Char) : (bytesOf cs).length = byteLength cs := by
  induction cs with
  | nil => rfl
  | cons c cs ih =>
    rw [bytesOf, List.flatMap_cons, List.length_append, String.length_utf8EncodeChar,
      byteLength_cons, ← ih, bytesOf]

/-! ## Whole texts -/

theorem loop_toList_eq_append_drop (bytes : ByteArray) (i : Nat) (read : List UInt8) :
    ByteArray.toList.loop bytes i read = read.reverse ++ bytes.data.toList.drop i := by
  fun_induction ByteArray.toList.loop bytes i read with
  | case1 i read h ih =>
    have hget : bytes.get! i = bytes.data.toList.get ⟨i, h⟩ := by
      rw [ByteArray.get!, getElem!_pos bytes.data i h, List.get_eq_getElem,
        Array.getElem_toList]
    have hdrop : bytes.data.toList.drop i = bytes.get! i :: bytes.data.toList.drop (i + 1) := by
      rw [hget]
      exact List.drop_eq_getElem_cons h
    rw [ih, hdrop, List.reverse_cons, List.append_assoc, List.singleton_append]
  | case2 i read h =>
    have hlen : bytes.data.toList.length ≤ i := Nat.le_of_not_lt h
    rw [List.drop_eq_nil_of_le hlen, List.append_nil]

theorem encode_eq_data (s : String) : encode s = s.toByteArray.data.toList := by
  rw [encode, String.toUTF8, ByteArray.toList, loop_toList_eq_append_drop]
  rfl

/-- A text is written character by character. -/
theorem encode_eq_bytesOf (s : String) : encode s = bytesOf s.toList := by
  rw [encode_eq_data, ← String.ofList_toList (s := s), String.toByteArray_ofList,
    List.utf8Encode, List.data_toByteArray, String.toList_ofList]
  rfl

/-- The bytes determine the text. -/
theorem encode_injective {s t : String} (h : encode s = encode t) : s = t := by
  rw [encode_eq_data, encode_eq_data] at h
  exact String.toByteArray_inj.1 (ByteArray.ext (Array.toList_inj.1 h))

theorem byteLength_toList (s : String) : byteLength s.toList = s.utf8ByteSize := by
  rw [← length_bytesOf, ← encode_eq_bytesOf, encode_eq_data]
  rfl

/-! ## Cuts -/

/-- A cut between two characters is a place in the text. -/
theorem isValid_of_toList_eq {s : String} {cs ds : List Char} (h : s.toList = cs ++ ds) :
    String.Pos.Raw.IsValid s ⟨byteLength cs⟩ := by
  refine String.Pos.Raw.isValid_iff_exists_append.2 ⟨String.ofList cs, String.ofList ds, ?_, ?_⟩
  · rw [← String.ofList_append, ← h, String.ofList_toList]
  · rw [String.rawEndPos, ← byteLength_toList, String.toList_ofList]

/-- The bytes from one offset up to another. -/
def bytesBetween (bytes : List UInt8) (start stop : Nat) : List UInt8 :=
  (bytes.take stop).drop start

/-- Between two cuts lie the bytes of the characters in between. -/
theorem bytesBetween_of_toList_eq {s : String} {cs ds es : List Char}
    (h : s.toList = cs ++ ds ++ es) :
    bytesBetween (encode s) (byteLength cs) (byteLength cs + byteLength ds) = bytesOf ds := by
  rw [bytesBetween, encode_eq_bytesOf, h, bytesOf_append, bytesOf_append,
    List.take_left' (by simp), List.drop_left' (by simp)]

/-! ## Characters -/

/-- A character below 128 is one byte of the same number. -/
theorem bytesOf_singleton {c : Char} (h : c.toNat < 128) : bytesOf [c] = [c.toNat.toUInt8] := by
  have hc : c.val.toNat ≤ 127 := Nat.le_of_lt_succ h
  rw [bytesOf, List.flatMap_singleton, String.utf8EncodeChar, if_pos hc]
  rfl

/-- The bytes of any other character are not below 128. -/
theorem le_of_mem_bytesOf_singleton {c : Char} (h : 128 ≤ c.toNat) {b : UInt8}
    (hb : b ∈ bytesOf [c]) : 128 ≤ b.toNat := by
  have hc : ¬c.val.toNat ≤ 127 := Nat.not_le_of_lt h
  rw [bytesOf, List.flatMap_singleton, String.utf8EncodeChar, if_neg hc] at hb
  split at hb
  · simp only [List.mem_cons, List.not_mem_nil, or_false] at hb
    rcases hb with rfl | rfl <;> simp only [UInt8.toNat_ofNat'] <;> omega
  · split at hb
    · simp only [List.mem_cons, List.not_mem_nil, or_false] at hb
      rcases hb with rfl | rfl | rfl <;> simp only [UInt8.toNat_ofNat'] <;> omega
    · simp only [List.mem_cons, List.not_mem_nil, or_false] at hb
      rcases hb with rfl | rfl | rfl | rfl <;> simp only [UInt8.toNat_ofNat'] <;> omega

theorem toNat_toUInt8_of_lt {n : Nat} (h : n < 128) : n.toUInt8.toNat = n := by
  rw [Nat.toUInt8, UInt8.toNat_ofNat']
  omega

/-- A character below 128 occurs as often as its byte. -/
theorem count_bytesOf {c : Char} (h : c.toNat < 128) (cs : List Char) :
    (bytesOf cs).count c.toNat.toUInt8 = cs.count c := by
  induction cs with
  | nil => rfl
  | cons d cs ih =>
    rw [bytesOf_cons, List.count_append, ih, List.count_cons, Nat.add_comm]
    congr 1
    by_cases hd : d.toNat < 128
    · rw [bytesOf_singleton hd, List.count_singleton]
      have hiff : d.toNat.toUInt8 = c.toNat.toUInt8 ↔ d = c := by
        constructor
        · intro heq
          have hnat := congrArg UInt8.toNat heq
          rw [toNat_toUInt8_of_lt hd, toNat_toUInt8_of_lt h] at hnat
          exact Char.toNat_inj.1 hnat
        · rintro rfl
          rfl
      simp only [beq_iff_eq, hiff]
    · have hne : d ≠ c := by
        rintro rfl
        exact hd h
      have hmem : c.toNat.toUInt8 ∉ bytesOf [d] := by
        intro hmem
        have hle := le_of_mem_bytesOf_singleton (Nat.le_of_not_lt hd) hmem
        rw [toNat_toUInt8_of_lt h] at hle
        omega
      rw [List.count_eq_zero_of_not_mem hmem, if_neg (by simpa using hne)]

end ModuleLookup
