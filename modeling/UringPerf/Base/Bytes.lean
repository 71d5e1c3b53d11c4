import Mathlib

/-!
# Words in memory

A 32-bit word as the four bytes a host stores for it, and the conversion to the order of the network.

* `Endian.bytes, Endian.word`  what a host writes and reads;
* `Endian.htonl`               the conversion, which is its own inverse;
* `bytes_htonl`                a converted word has the same bytes in memory on every host;
* `ntohl_word`                 and every host reads the word back from them.
-/

namespace Bytes

inductive Endian where
  | little
  | big
  deriving DecidableEq, Repr

/-- the `i`-th byte of a word, the lowest one first -/
def byteAt (v : UInt32) (i : Nat) : UInt8 := UInt8.ofNat (v.toNat / 256 ^ i)

def Endian.bytes : Endian → UInt32 → List UInt8
  | .little, v => [byteAt v 0, byteAt v 1, byteAt v 2, byteAt v 3]
  | .big, v => [byteAt v 3, byteAt v 2, byteAt v 1, byteAt v 0]

/-- the number with these digits, the lowest one first -/
def digits (l : List UInt8) : Nat := l.foldr (fun b n => b.toNat + 256 * n) 0

def Endian.word : Endian → List UInt8 → UInt32
  | .little, l => UInt32.ofNat (digits l)
  | .big, l => UInt32.ofNat (digits l.reverse)

theorem word_bytes (e : Endian) (v : UInt32) : e.word (e.bytes v) = v := by
  have hv := v.toNat_lt
  have hd : digits [byteAt v 0, byteAt v 1, byteAt v 2, byteAt v 3] = v.toNat := by
    simp only [digits, byteAt, List.foldr_cons, List.foldr_nil, UInt8.toNat_ofNat']
    omega
  have h : UInt32.ofNat (digits [byteAt v 0, byteAt v 1, byteAt v 2, byteAt v 3]) = v := by
    rw [hd, UInt32.ofNat_toNat]
  cases e with
  | little => exact h
  | big => exact h

theorem bytes_reverse (v : UInt32) : (Endian.little.bytes v).reverse = Endian.big.bytes v := rfl

/-- the word with the bytes of `v` in the other order -/
def swap (v : UInt32) : UInt32 := Endian.little.word (Endian.big.bytes v)

theorem byteAt_eq {v : UInt32} {i : Nat} {x : UInt8} (h : v.toNat / 256 ^ i % 256 = x.toNat) :
    byteAt v i = x := by
  apply UInt8.toNat.inj
  rw [byteAt, UInt8.toNat_ofNat']
  exact h

/-- the bytes of the word that is made of four digits -/
theorem bytes_digits (a b c d : UInt8) :
    Endian.little.bytes (Endian.little.word [a, b, c, d]) = [a, b, c, d] := by
  have hlt := And.intro (And.intro a.toNat_lt b.toNat_lt) (And.intro c.toNat_lt d.toNat_lt)
  have hn : (Endian.little.word [a, b, c, d]).toNat =
      a.toNat + 256 * (b.toNat + 256 * (c.toNat + 256 * d.toNat)) := by
    show (a.toNat + 256 * (b.toNat + 256 * (c.toNat + 256 * (d.toNat + 256 * 0)))) % 2 ^ 32 = _
    omega
  have h0 : byteAt (Endian.little.word [a, b, c, d]) 0 = a := byteAt_eq (by rw [hn]; omega)
  have h1 : byteAt (Endian.little.word [a, b, c, d]) 1 = b := byteAt_eq (by rw [hn]; omega)
  have h2 : byteAt (Endian.little.word [a, b, c, d]) 2 = c := byteAt_eq (by rw [hn]; omega)
  have h3 : byteAt (Endian.little.word [a, b, c, d]) 3 = d := byteAt_eq (by rw [hn]; omega)
  show [byteAt _ 0, byteAt _ 1, byteAt _ 2, byteAt _ 3] = _
  rw [h0, h1, h2, h3]

/-- `htonl`, and `ntohl` -/
def Endian.htonl : Endian → UInt32 → UInt32
  | .little, v => swap v
  | .big, v => v

theorem bytes_htonl (e : Endian) (v : UInt32) : e.bytes (e.htonl v) = Endian.big.bytes v := by
  cases e with
  | little => exact bytes_digits _ _ _ _
  | big => rfl

theorem htonl_htonl (e : Endian) (v : UInt32) : e.htonl (e.htonl v) = v := by
  cases e with
  | little =>
    show Endian.little.word (Endian.big.bytes (swap v)) = v
    rw [← bytes_reverse, show Endian.little.bytes (swap v) = _ from bytes_digits _ _ _ _]
    exact word_bytes .little v
  | big => rfl

/-- a host reads back what any host has sent in network order -/
theorem ntohl_word (e : Endian) (v : UInt32) : e.htonl (e.word (Endian.big.bytes v)) = v := by
  rw [← bytes_htonl e v, word_bytes, htonl_htonl]

end Bytes
