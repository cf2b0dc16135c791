import Mathlib.Data.Nat.Digits.Defs
import Mathlib.Data.UInt

/-! The distinguished encoding of a value behind its tag and its length, for lengths of any size. -/

namespace XmppProxy.Lib.Der

def octets (n : Nat) : List UInt8 := ((Nat.digits 256 n).map UInt8.ofNat).reverse

def value (w : List UInt8) : Nat := Nat.ofDigits 256 (w.reverse.map UInt8.toNat)

/-- Up to 127 in one octet, else behind the number of octets that follow. -/
def lengthOctets (n : Nat) : List UInt8 :=
  if n < 128 then [UInt8.ofNat n] else UInt8.ofNat (128 + (octets n).length) :: octets n

def encode (tag : UInt8) (content : List UInt8) : List UInt8 :=
  tag :: lengthOctets content.length ++ content

theorem value_octets (n : Nat) : value (octets n) = n := by
  have hbytes : ((Nat.digits 256 n).map UInt8.ofNat).map UInt8.toNat = Nat.digits 256 n := by
    rw [List.map_map]
    refine (List.map_congr_left fun d hd => ?_).trans (List.map_id _)
    exact UInt8.toNat_ofNat_of_lt' (Nat.digits_lt_base (by decide) hd)
  unfold value octets
  rw [List.reverse_reverse, hbytes, Nat.ofDigits_digits]

theorem octets_injective : Function.Injective octets := Function.LeftInverse.injective value_octets

theorem octets_ne_nil {n : Nat} (hn : n ≠ 0) : octets n ≠ [] := by
  intro h
  have hvalue := value_octets n
  rw [h] at hvalue
  exact hn hvalue.symm

theorem lengthOctets_injective : Function.Injective lengthOctets := by
  intro m n h
  unfold lengthOctets at h
  split_ifs at h with hm hn hn
  · have hsize : UInt8.size = 256 := rfl
    have hnat := congrArg UInt8.toNat (List.head_eq_of_cons_eq h)
    rwa [UInt8.toNat_ofNat_of_lt' (by omega), UInt8.toNat_ofNat_of_lt' (by omega)] at hnat
  · exact absurd (List.tail_eq_of_cons_eq h).symm (octets_ne_nil (by omega))
  · exact absurd (List.tail_eq_of_cons_eq h) (octets_ne_nil (by omega))
  · exact octets_injective (List.tail_eq_of_cons_eq h)

/-- A fixed tag and length stand for those of the content only if the length is the content's. -/
theorem header_eq_encode_iff {tag : UInt8} {n : Nat} {content : List UInt8} :
    tag :: lengthOctets n ++ content = encode tag content ↔ content.length = n := by
  constructor
  · intro h
    have hlength := List.append_cancel_right h
    exact (lengthOctets_injective (List.tail_eq_of_cons_eq hlength)).symm
  · rintro rfl
    rfl

end XmppProxy.Lib.Der
