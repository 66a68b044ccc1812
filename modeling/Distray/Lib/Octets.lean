/-
Numbers as octets, and memory that is written a piece at a time.

A machine word has two readings: the number, and the octets it occupies in memory.
A program that receives a word in pieces writes some of its octets and leaves the
others alone, so both readings are needed at once.  `little` lays a number out with
its least significant octet first, `big` the other way round, and `ofLittle` reads
a layout back; `overwrite` is what storing a run of octets at an offset does.

Which layout a machine uses is not decided here, and neither is how wide a word is.  The
number of octets is an argument, and a number that is too large for them is not written
back whole.
-/
import Mathlib.Data.List.Basic
import Mathlib.Tactic.Ring

namespace Octets

/-! ### Storing a run at an offset -/

variable {α : Type}

/-- `l` after `bs` has been stored from position `off` on. -/
def overwrite (l : List α) (off : Nat) (bs : List α) : List α :=
  l.take off ++ bs ++ l.drop (off + bs.length)

theorem length_overwrite {l bs : List α} {off : Nat} (h : off + bs.length ≤ l.length) :
    (overwrite l off bs).length = l.length := by
  simp only [overwrite, List.length_append, List.length_take, List.length_drop]
  omega

/-- Up to the end of what was stored, memory is the old start and then the run. -/
theorem take_overwrite {l bs : List α} {off : Nat} (h : off ≤ l.length) :
    (overwrite l off bs).take (off + bs.length) = l.take off ++ bs := by
  have hlen : (l.take off ++ bs).length = off + bs.length := by
    rw [List.length_append, List.length_take, Nat.min_eq_left h]
  unfold overwrite
  rw [← hlen, List.take_left]

/-! ### Layouts of a number -/

/-- The `w` low octets of `n`, the least significant first. -/
def little : Nat → Nat → List UInt8
  | 0, _ => []
  | w + 1, n => UInt8.ofNat (n % 256) :: little w (n / 256)

/-- The number a layout stands for, the least significant octet first. -/
def ofLittle : List UInt8 → Nat
  | [] => 0
  | b :: rest => b.toNat + 256 * ofLittle rest

/-- The `w` low octets of `n`, the most significant first. -/
def big (w n : Nat) : List UInt8 := (little w n).reverse

@[simp] theorem length_little (w n : Nat) : (little w n).length = w := by
  induction w generalizing n with
  | zero => rfl
  | succ w ih => simp [little, ih]

@[simp] theorem length_big (w n : Nat) : (big w n).length = w := by simp [big]

theorem ofLittle_little (w n : Nat) : ofLittle (little w n) = n % 256 ^ w := by
  induction w generalizing n with
  | zero => simp [little, ofLittle, Nat.mod_one]
  | succ w ih =>
      have hlow : (UInt8.ofNat (n % 256)).toNat = n % 256 := by
        rw [UInt8.toNat_ofNat']
        omega
      rw [little, ofLittle, hlow, ih, Nat.pow_succ, Nat.mul_comm (256 ^ w) 256, Nat.mod_mul]

theorem little_ofLittle (bs : List UInt8) : little bs.length (ofLittle bs) = bs := by
  induction bs with
  | nil => rfl
  | cons b rest ih =>
      have hb : b.toNat < 256 := b.toNat_lt
      have hmod : (b.toNat + 256 * ofLittle rest) % 256 = b.toNat := by omega
      have hdiv : (b.toNat + 256 * ofLittle rest) / 256 = ofLittle rest := by omega
      rw [List.length_cons, little, ofLittle, hmod, hdiv, ih]
      congr 1
      exact UInt8.ofNat_toNat

theorem ofLittle_lt (bs : List UInt8) : ofLittle bs < 256 ^ bs.length := by
  induction bs with
  | nil => simp [ofLittle]
  | cons b rest ih =>
      have hb : b.toNat < 256 := b.toNat_lt
      rw [ofLittle, List.length_cons, Nat.pow_succ]
      omega

end Octets
