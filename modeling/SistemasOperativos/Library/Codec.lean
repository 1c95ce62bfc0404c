import Mathlib.Algebra.Group.Nat.Defs
import Mathlib.Tactic.Common

/-!
# Fixed-size binary codecs

A codec writes the values of a type as byte strings of one length and reads them back. Codecs for
machine words, padding and sequences are enough to describe the layout of a C structure, and the
round trip of the structure follows from theirs.
-/

namespace SistemasOperativos.Library

/-- The `n` low bytes of a number, least significant first. -/
def leBytes : ℕ → ℕ → List UInt8
  | 0, _ => []
  | n + 1, x => UInt8.ofNat x :: leBytes n (x / 256)

/-- The number whose bytes these are, least significant first. -/
def ofLeBytes : List UInt8 → ℕ
  | [] => 0
  | b :: bs => b.toNat + 256 * ofLeBytes bs

@[simp] theorem length_leBytes (n x : ℕ) : (leBytes n x).length = n := by
  induction n generalizing x with
  | zero => rfl
  | succ n ih => simp [leBytes, ih]

theorem ofLeBytes_leBytes {n x : ℕ} (h : x < 256 ^ n) : ofLeBytes (leBytes n x) = x := by
  induction n generalizing x with
  | zero =>
    have hx : x = 0 := by simpa using h
    subst hx
    rfl
  | succ n ih =>
    have hdiv : x / 256 < 256 ^ n := by
      rw [Nat.pow_succ] at h
      exact Nat.div_lt_of_lt_mul (by omega)
    simp only [leBytes, ofLeBytes, ih hdiv, UInt8.toNat_ofNat']
    omega

/-- A binary format with records of one size. Reading is total: any bytes of that size are some
value, as they are in C. -/
structure Codec (α : Type) where
  size : ℕ
  encode : α → List UInt8
  decode : List UInt8 → α
  length_encode : ∀ a, (encode a).length = size
  decode_encode : ∀ a, decode (encode a) = a

namespace Codec

variable {α β : Type}

attribute [simp] length_encode decode_encode

/-- Consecutive fields. -/
def prod (c : Codec α) (d : Codec β) : Codec (α × β) where
  size := c.size + d.size
  encode p := c.encode p.1 ++ d.encode p.2
  decode bs := (c.decode (bs.take c.size), d.decode (bs.drop c.size))
  length_encode p := by simp
  decode_encode p := by
    rw [List.take_left' (c.length_encode p.1), List.drop_left' (c.length_encode p.1),
      decode_encode, decode_encode]

/-- The same bytes for another type, of which `f` recovers the value from its fields `g`. -/
def map (c : Codec α) (f : α → β) (g : β → α) (h : ∀ b, f (g b) = b) : Codec β where
  size := c.size
  encode b := c.encode (g b)
  decode bs := f (c.decode bs)
  length_encode b := c.length_encode (g b)
  decode_encode b := by rw [c.decode_encode, h]

/-- A field after `n` bytes of padding. -/
def skip (n : ℕ) (c : Codec α) : Codec α where
  size := n + c.size
  encode a := List.replicate n 0 ++ c.encode a
  decode bs := c.decode (bs.drop n)
  length_encode a := by simp
  decode_encode a := by rw [List.drop_left' (by simp), decode_encode]

/-- A field before `n` bytes of padding. -/
def pad (n : ℕ) (c : Codec α) : Codec α where
  size := c.size + n
  encode a := c.encode a ++ List.replicate n 0
  decode bs := c.decode (bs.take c.size)
  length_encode a := by simp
  decode_encode a := by rw [List.take_left' (c.length_encode a), decode_encode]

def u8 : Codec UInt8 where
  size := 1
  encode b := [b]
  decode bs := bs.headD 0
  length_encode _ := rfl
  decode_encode _ := rfl

def u32 : Codec UInt32 where
  size := 4
  encode w := leBytes 4 w.toNat
  decode bs := UInt32.ofNat (ofLeBytes bs)
  length_encode w := length_leBytes 4 _
  decode_encode w := by
    rw [ofLeBytes_leBytes (by simpa using w.toNat_lt), UInt32.ofNat_toNat]

def u64 : Codec UInt64 where
  size := 8
  encode w := leBytes 8 w.toNat
  decode bs := UInt64.ofNat (ofLeBytes bs)
  length_encode w := length_leBytes 8 _
  decode_encode w := by
    rw [ofLeBytes_leBytes (by simpa using w.toNat_lt), UInt64.ofNat_toNat]

@[simp] theorem size_prod (c : Codec α) (d : Codec β) : (c.prod d).size = c.size + d.size := rfl

@[simp] theorem size_map (c : Codec α) (f : α → β) (g : β → α) (h : ∀ b, f (g b) = b) :
    (c.map f g h).size = c.size := rfl

@[simp] theorem size_skip (n : ℕ) (c : Codec α) : (c.skip n).size = n + c.size := rfl

@[simp] theorem size_pad (n : ℕ) (c : Codec α) : (c.pad n).size = c.size + n := rfl

@[simp] theorem size_u8 : u8.size = 1 := rfl

@[simp] theorem size_u32 : u32.size = 4 := rfl

@[simp] theorem size_u64 : u64.size = 8 := rfl

/-- The first field of a record can be read from a prefix of the record. -/
theorem decode_take_prod (c : Codec α) (d : Codec β) (p : α × β) (rest : List UInt8) :
    c.decode (((c.prod d).encode p ++ rest).take c.size) = p.1 := by
  have htake : ((c.prod d).encode p ++ rest).take c.size = c.encode p.1 := by
    simp only [prod, List.append_assoc]
    exact List.take_left' (c.length_encode p.1)
  rw [htake, decode_encode]

end Codec

end SistemasOperativos.Library
