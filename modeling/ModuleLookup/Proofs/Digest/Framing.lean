import ModuleLookup.Digest.Parts
import ModuleLookup.Proofs.Text.Bytes

/-!
# Framed texts

A list of texts can be read back from the bytes it is written as: every text stands
behind its length, and lengths fit into 64 bits, which eight bytes can tell apart. So
the digest of a list of texts tells lists apart as far as the hash tells bytes apart.

* `framedParts_injective` — the bytes determine the texts.
* `hash_eq_of_digest_eq` — equal digests come from equal hashes of those bytes.
-/

namespace ModuleLookup

/-! ## Lengths -/

theorem length_lengthBytes (n : Nat) : (lengthBytes n).length = 8 := by
  rw [lengthBytes, List.length_map, List.length_range]

/-- Numbers with the same digits in base 256 leave the same remainder. -/
theorem mod_pow_eq_of_digits {m n : Nat} (k : Nat)
    (h : ∀ i < k, m / Nat.pow 256 i % 256 = n / Nat.pow 256 i % 256) :
    m % Nat.pow 256 k = n % Nat.pow 256 k := by
  induction k with
  | zero => exact (Nat.mod_one m).trans (Nat.mod_one n).symm
  | succ k ih =>
    have hk := ih fun i hi => h i (Nat.lt_succ_of_lt hi)
    calc m % Nat.pow 256 (k + 1)
        = m % Nat.pow 256 k + Nat.pow 256 k * (m / Nat.pow 256 k % 256) := Nat.mod_pow_succ
      _ = n % Nat.pow 256 k + Nat.pow 256 k * (n / Nat.pow 256 k % 256) := by
        rw [hk, h k (Nat.lt_succ_self k)]
      _ = n % Nat.pow 256 (k + 1) := Nat.mod_pow_succ.symm

/-- Eight bytes are enough for a length that fits into 64 bits. -/
theorem lengthBytes_injective {m n : Nat} (hm : m < UInt64.size) (hn : n < UInt64.size)
    (h : lengthBytes m = lengthBytes n) : m = n := by
  have hdigits : ∀ i < 8, m / Nat.pow 256 i % 256 = n / Nat.pow 256 i % 256 := by
    intro i hi
    have hbyte := congrArg UInt8.toNat (List.map_inj_left.1 h i (List.mem_range.2 hi))
    rwa [Nat.toUInt8_eq, Nat.toUInt8_eq, UInt8.toNat_ofNat', UInt8.toNat_ofNat'] at hbyte
  have hmod := mod_pow_eq_of_digits 8 hdigits
  have hsize : Nat.pow 256 8 = UInt64.size := rfl
  rwa [hsize, Nat.mod_eq_of_lt hm, Nat.mod_eq_of_lt hn] at hmod

/-! ## Frames -/

/-- A text whose length eight bytes can hold. No text in memory is longer. -/
def Framable (part : String) : Prop :=
  (encode part).length < UInt64.size

instance (part : String) : Decidable (Framable part) :=
  inferInstanceAs (Decidable (_ < _))

/-- A framed text ends where its length says, whatever follows. -/
theorem framed_append_injective {s t : String} {bytes more : List UInt8} (hs : Framable s)
    (ht : Framable t) (h : framed s ++ bytes = framed t ++ more) : s = t ∧ bytes = more := by
  rw [framed, framed, List.append_assoc, List.append_assoc] at h
  obtain ⟨hlen, hrest⟩ := List.append_inj h (by rw [length_lengthBytes, length_lengthBytes])
  obtain ⟨htext, hmore⟩ := List.append_inj hrest (lengthBytes_injective hs ht hlen)
  exact ⟨encode_injective htext, hmore⟩

theorem framed_append_ne_nil (s : String) (bytes : List UInt8) : framed s ++ bytes ≠ [] := by
  intro h
  have hlen := congrArg List.length h
  rw [framed, List.length_append, List.length_append, length_lengthBytes,
    List.length_nil] at hlen
  omega

/-- **Framing is unambiguous**: the bytes determine the texts. -/
theorem framedParts_injective {ps qs : List String} (hp : ∀ p ∈ ps, Framable p)
    (hq : ∀ q ∈ qs, Framable q) (h : framedParts ps = framedParts qs) : ps = qs := by
  induction ps generalizing qs with
  | nil =>
    cases qs with
    | nil => rfl
    | cons q qs => exact absurd h.symm (framed_append_ne_nil q _)
  | cons p ps ih =>
    cases qs with
    | nil => exact absurd h (framed_append_ne_nil p _)
    | cons q qs =>
      obtain ⟨rfl, hrest⟩ :=
        framed_append_injective (hp p List.mem_cons_self) (hq q List.mem_cons_self) h
      rw [ih (fun r hr => hp r (List.mem_cons_of_mem _ hr))
        (fun r hr => hq r (List.mem_cons_of_mem _ hr)) hrest]

/-! ## Digests -/

theorem digitChar_injective :
    ∀ m < 16, ∀ n < 16, Nat.digitChar m = Nat.digitChar n → m = n := by
  decide

theorem hexByte_injective {a b : UInt8} (h : hexByte a = hexByte b) : a = b := by
  rw [hexByte, hexByte] at h
  have ha := a.toNat_lt
  have hb := b.toNat_lt
  have hhigh := digitChar_injective (a.toNat / 16) (by omega) (b.toNat / 16) (by omega)
    (List.cons.inj h).1
  have hlow := digitChar_injective (a.toNat % 16) (by omega) (b.toNat % 16) (by omega)
    (List.cons.inj (List.cons.inj h).2).1
  exact UInt8.toNat_inj.1 (by omega)

/-- Digits determine the bytes. -/
theorem flatMap_hexByte_injective {as bs : List UInt8}
    (h : as.flatMap hexByte = bs.flatMap hexByte) : as = bs := by
  induction as generalizing bs with
  | nil =>
    cases bs with
    | nil => rfl
    | cons b bs => cases h
  | cons a as ih =>
    cases bs with
    | nil => cases h
    | cons b bs =>
      rw [List.flatMap_cons, List.flatMap_cons] at h
      obtain ⟨hbyte, hrest⟩ := List.append_inj h rfl
      rw [hexByte_injective hbyte, ih hrest]

/-- A digest tells texts apart as far as the hash does. -/
theorem hash_eq_of_digest_eq {ps qs : List String} (h : digest ps = digest qs) :
    Blake3.hash (framedParts ps) = Blake3.hash (framedParts qs) :=
  flatMap_hexByte_injective (String.ofList_injective h)

end ModuleLookup
