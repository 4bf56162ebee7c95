import Mathlib.Data.List.Basic
import Mathlib.Tactic.Ring

/-! Pieces of a byte buffer, and numbers stored with their lowest byte first. -/
namespace MyEtcd.Library

/-- The lowest `w` bytes of a number, the lowest one first. -/
def toLittleEndian : Nat → Nat → List UInt8
  | 0, _ => []
  | w + 1, n => UInt8.ofNat n :: toLittleEndian w (n / 256)

def ofLittleEndian : List UInt8 → Nat
  | [] => 0
  | b :: rest => b.toNat + 256 * ofLittleEndian rest

@[simp] theorem length_toLittleEndian (w n : Nat) : (toLittleEndian w n).length = w := by
  induction w generalizing n with
  | zero => rfl
  | succ w ih => simp [toLittleEndian, ih]

/-- Only the lowest `w` bytes of a number are kept. -/
theorem ofLittleEndian_toLittleEndian_mod (w n : Nat) :
    ofLittleEndian (toLittleEndian w n) = n % 256 ^ w := by
  induction w generalizing n with
  | zero => simp [toLittleEndian, ofLittleEndian, Nat.mod_one]
  | succ w ih =>
    have hlow : (UInt8.ofNat n).toNat = n % 256 := by simp
    rw [toLittleEndian, ofLittleEndian, ih, hlow, pow_succ', Nat.mod_mul]

/-- A number that fits in `w` bytes is read back from them. -/
theorem ofLittleEndian_toLittleEndian {w n : Nat} (h : n < 256 ^ w) :
    ofLittleEndian (toLittleEndian w n) = n := by
  rw [ofLittleEndian_toLittleEndian_mod, Nat.mod_eq_of_lt h]

theorem ofLittleEndian_lt (bytes : List UInt8) : ofLittleEndian bytes < 256 ^ bytes.length := by
  induction bytes with
  | nil => exact Nat.one_pos
  | cons b rest ih =>
    have hb := b.toNat_lt
    rw [ofLittleEndian, List.length_cons, pow_succ']
    omega

/-- Bytes are those of the number that they store. -/
theorem toLittleEndian_ofLittleEndian (bytes : List UInt8) :
    toLittleEndian bytes.length (ofLittleEndian bytes) = bytes := by
  induction bytes with
  | nil => rfl
  | cons b rest ih =>
    have hb := b.toNat_lt
    have hlow : UInt8.ofNat (b.toNat + 256 * ofLittleEndian rest) = b := by
      rw [← UInt8.toNat_inj, UInt8.toNat_ofNat']
      omega
    have hhigh : (b.toNat + 256 * ofLittleEndian rest) / 256 = ofLittleEndian rest := by omega
    rw [List.length_cons, toLittleEndian, ofLittleEndian, hlow, hhigh, ih]

/-- The `n` bytes of a buffer from `offset` on, unless some of them are past its end. -/
def bytesAt (data : List UInt8) (offset n : Nat) : Option (List UInt8) :=
  if offset + n ≤ data.length then some ((data.drop offset).take n) else none

def lengthAt (data : List UInt8) (offset : Nat) : Nat := ofLittleEndian ((data.drop offset).take 4)

/-- `piece` stands in the buffer at `offset`. -/
def StandsAt (data : List UInt8) (offset : Nat) (piece : List UInt8) : Prop :=
  ∃ before after, data = before ++ (piece ++ after) ∧ before.length = offset

namespace StandsAt
variable {data piece : List UInt8} {offset : Nat}

theorem fits (h : StandsAt data offset piece) : offset + piece.length ≤ data.length := by
  obtain ⟨before, after, rfl, rfl⟩ := h
  simp only [List.length_append]
  omega

theorem bytesAt (h : StandsAt data offset piece) :
    bytesAt data offset piece.length = some piece := by
  have hfits := h.fits
  obtain ⟨before, after, rfl, rfl⟩ := h
  rw [Library.bytesAt, if_pos hfits, List.drop_left, List.take_left]

theorem of_bytesAt {n : Nat} (h : Library.bytesAt data offset n = some piece) :
    StandsAt data offset piece ∧ piece.length = n := by
  unfold Library.bytesAt at h
  split_ifs at h with hfits
  obtain rfl := Option.some.inj h
  refine ⟨⟨data.take offset, (data.drop offset).drop n, ?_, ?_⟩, ?_⟩
  · rw [List.take_append_drop, List.take_append_drop]
  · rw [List.length_take]
    omega
  · rw [List.length_take, List.length_drop]
    omega

theorem append {a b : List UInt8} :
    StandsAt data offset (a ++ b) ↔
      StandsAt data offset a ∧ StandsAt data (offset + a.length) b := by
  constructor
  · rintro ⟨before, after, rfl, rfl⟩
    exact ⟨⟨before, b ++ after, by simp, rfl⟩, before ++ a, after, by simp, by simp⟩
  · rintro ⟨⟨before, after, hdata, hlen⟩, before', after', hdata', hlen'⟩
    refine ⟨before, after', ?_, hlen⟩
    have hsplit : before ++ a = before' ∧ after = b ++ after' := by
      have heq : (before ++ a) ++ after = before' ++ (b ++ after') := by
        rw [List.append_assoc, ← hdata, hdata']
      exact List.append_inj heq (by simp [hlen, hlen'])
    rw [hdata, hsplit.2, List.append_assoc]

theorem cons {b : UInt8} :
    StandsAt data offset (b :: piece) ↔
      StandsAt data offset [b] ∧ StandsAt data (offset + 1) piece :=
  append (a := [b])

theorem take (h : StandsAt data offset piece) (n : Nat) : StandsAt data offset (piece.take n) := by
  rw [← List.take_append_drop n piece] at h
  exact (append.mp h).1

end StandsAt

end MyEtcd.Library
