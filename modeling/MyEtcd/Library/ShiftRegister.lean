import Mathlib.Data.List.Basic
import Mathlib.Logic.Function.Iterate

/-! A linear feedback shift register, as checksums are computed with it. Symbols of a fixed number of
bits are fed into the register one after the other; a change inside as many bits as the register has
always changes it. -/
namespace MyEtcd.Library
variable {w : Nat}

/-- One bit leaves the register; if it is set, the feedback is added. -/
def shift (p x : BitVec w) : BitVec w := if x.getLsbD 0 then (x >>> 1) ^^^ p else x >>> 1

variable {p : BitVec w}

theorem shift_xor (x y : BitVec w) : shift p (x ^^^ y) = shift p x ^^^ shift p y := by
  have hcancel (a b : BitVec w) : a ^^^ p ^^^ (b ^^^ p) = a ^^^ b := by
    rw [BitVec.xor_assoc, BitVec.xor_comm b p, ← BitVec.xor_assoc p, BitVec.xor_self,
      BitVec.zero_xor]
  unfold shift
  rw [BitVec.getLsbD_xor, BitVec.ushiftRight_xor_distrib]
  cases x.getLsbD 0 <;> cases y.getLsbD 0
  · simp
  · simp [BitVec.xor_assoc]
  · simp only [Bool.xor_false, if_true, Bool.false_eq_true, if_false]
    rw [BitVec.xor_assoc, BitVec.xor_assoc, BitVec.xor_comm p]
  · simp [hcancel]

theorem iterate_shift_xor (n : Nat) (x y : BitVec w) :
    (shift p)^[n] (x ^^^ y) = (shift p)^[n] x ^^^ (shift p)^[n] y := by
  induction n generalizing x y with
  | zero => rfl
  | succ n ih => rw [Function.iterate_succ_apply, shift_xor, ih]; rfl

/-- Bits that are not set leave without feedback. -/
theorem iterate_shift_of_low {n : Nat} {y : BitVec w} (h : ∀ i < n, y.getLsbD i = false) :
    (shift p)^[n] y = y >>> n := by
  induction n with
  | zero => simp
  | succ n ih =>
    rw [Function.iterate_succ_apply', ih fun i hi => h i (Nat.lt_succ_of_lt hi)]
    have hlow : (y >>> n).getLsbD 0 = false := by
      rw [BitVec.getLsbD_ushiftRight]
      exact h n (Nat.lt_succ_self n)
    rw [shift, hlow, if_neg Bool.false_ne_true, ← BitVec.shiftRight_add]

theorem iterate_shift_mask {n : Nat} {mask : BitVec w}
    (hmask : ∀ i < w, mask.getLsbD i = decide (i < n)) (x : BitVec w) :
    (shift p)^[n] (x &&& mask) ^^^ (x >>> n) = (shift p)^[n] x := by
  have hsplit : x = (x &&& mask) ^^^ (x &&& ~~~mask) := by
    refine BitVec.eq_of_getLsbD_eq fun i hi => ?_
    rw [BitVec.getLsbD_xor, BitVec.getLsbD_and, BitVec.getLsbD_and, BitVec.getLsbD_not]
    cases x.getLsbD i <;> cases mask.getLsbD i <;> simp [hi]
  have hhigh : (shift p)^[n] (x &&& ~~~mask) = x >>> n := by
    rw [iterate_shift_of_low fun i hi => ?_]
    · refine BitVec.eq_of_getLsbD_eq fun i _ => ?_
      rw [BitVec.getLsbD_ushiftRight, BitVec.getLsbD_ushiftRight, BitVec.getLsbD_and,
        BitVec.getLsbD_not]
      by_cases hin : n + i < w
      · have hbit : mask.getLsbD (n + i) = false :=
          (hmask _ hin).trans (decide_eq_false (by omega))
        rw [hbit]
        simp [hin]
      · rw [BitVec.getLsbD_of_ge x _ (by omega), Bool.false_and]
    · rw [BitVec.getLsbD_and, BitVec.getLsbD_not]
      by_cases hin : i < w
      · simp [hmask i hin, hi]
      · simp [hin]
  conv_rhs => rw [hsplit, iterate_shift_xor, hhigh]

/-- A register whose feedback sets the highest bit forgets nothing. -/
theorem shift_injective (hp : p.msb = true) : Function.Injective (shift p) := by
  have hzero {x : BitVec w} (h : shift p x = 0#w) : x = 0#w := by
    have hmsb : (x >>> 1).msb = false := by
      rw [BitVec.msb_ushiftRight]
      simp
    unfold shift at h
    split_ifs at h with hlow
    · obtain rfl : x >>> 1 = p := BitVec.xor_eq_zero_iff.mp h
      rw [hmsb] at hp
      cases hp
    · refine BitVec.eq_of_getLsbD_eq fun i hi => ?_
      cases i with
      | zero => simpa using hlow
      | succ i =>
        have hbit := congrArg (BitVec.getLsbD · i) h
        rw [BitVec.getLsbD_ushiftRight, Nat.add_comm] at hbit
        simpa using hbit
  intro x y h
  refine BitVec.xor_eq_zero_iff.mp (hzero ?_)
  rw [shift_xor, h, BitVec.xor_self]

variable {α : Type} (symbol : α → BitVec w) (n : Nat)

/-- The register after one more symbol of `n` bits. -/
def feed (p x : BitVec w) (a : α) : BitVec w := (shift p)^[n] (x ^^^ symbol a)

/-- The symbols beside each other, the first one lowest. -/
def packed : List α → BitVec w
  | [] => 0
  | a :: rest => symbol a ^^^ (packed rest <<< n)

variable {symbol n}

theorem foldl_feed_injective (hp : p.msb = true) (l : List α) :
    Function.Injective fun x => l.foldl (feed symbol n p) x := by
  induction l with
  | nil => exact fun x y h => h
  | cons a l ih =>
    intro x y h
    have hfed := (shift_injective hp).iterate n (ih h)
    exact (BitVec.xor_left_inj _).mp hfed

section Packed
variable (hsymbol : ∀ a i, n ≤ i → (symbol a).getLsbD i = false)
include hsymbol

theorem packed_high (l : List α) {i : Nat} (hi : n * l.length ≤ i) :
    (packed symbol n l).getLsbD i = false := by
  induction l generalizing i with
  | nil => exact BitVec.getLsbD_zero
  | cons a l ih =>
    rw [List.length_cons, Nat.mul_succ] at hi
    rw [packed, BitVec.getLsbD_xor, hsymbol a i (by omega), BitVec.getLsbD_shiftLeft,
      ih (by omega)]
    simp

theorem packed_shiftLeft {a : α} {l : List α} (hfits : n * (a :: l).length ≤ w) :
    packed symbol n l <<< n >>> n = packed symbol n l := by
  rw [List.length_cons, Nat.mul_succ] at hfits
  refine BitVec.eq_of_getLsbD_eq fun i hi => ?_
  rw [BitVec.getLsbD_ushiftRight, BitVec.getLsbD_shiftLeft]
  by_cases hin : n + i < w
  · simp [hin]
  · have hhigh : (packed symbol n l).getLsbD i = false := packed_high hsymbol l (by omega)
    simp [hin, hhigh]

/-- Feeding symbols that fit into the register is adding them and shifting. -/
theorem foldl_feed (l : List α) (hfits : n * l.length ≤ w) (x : BitVec w) :
    l.foldl (feed symbol n p) x = (shift p)^[n * l.length] (x ^^^ packed symbol n l) := by
  induction l generalizing x with
  | nil => simp [packed]
  | cons a l ih =>
    have hlow : ∀ i < n, (packed symbol n l <<< n).getLsbD i = false := by
      intro i hi
      rw [BitVec.getLsbD_shiftLeft]
      simp [hi]
    have hmoved : (shift p)^[n] (packed symbol n l <<< n) = packed symbol n l := by
      rw [iterate_shift_of_low hlow, packed_shiftLeft hsymbol hfits]
    rw [List.length_cons, Nat.mul_succ] at hfits ⊢
    rw [List.foldl_cons, ih (by omega), feed, packed, Function.iterate_add_apply,
      ← BitVec.xor_assoc, iterate_shift_xor n (x ^^^ symbol a), hmoved]

theorem packed_injective (hinj : Function.Injective symbol) {l l' : List α}
    (hfits : n * l.length ≤ w) (hlength : l.length = l'.length)
    (h : packed symbol n l = packed symbol n l') : l = l' := by
  induction l generalizing l' with
  | nil => exact (List.length_eq_zero_iff.mp hlength.symm).symm
  | cons a l ih =>
    obtain ⟨a', l', rfl⟩ := List.exists_cons_of_length_eq_add_one hlength.symm
    have hlength' : l.length = l'.length := by simpa using hlength
    have hsmall (a : α) : symbol a >>> n = 0#w := by
      refine BitVec.eq_of_getLsbD_eq fun i _ => ?_
      rw [BitVec.getLsbD_ushiftRight, hsymbol a _ (by omega)]
      simp
    rw [packed, packed] at h
    have hrest : packed symbol n l = packed symbol n l' := by
      have hmoved := congrArg (fun x : BitVec w => x >>> n) h
      rw [BitVec.ushiftRight_xor_distrib, BitVec.ushiftRight_xor_distrib, hsmall, hsmall,
        packed_shiftLeft hsymbol hfits,
        packed_shiftLeft hsymbol (a := a') (by rwa [List.length_cons, ← hlength'] )] at hmoved
      simpa using hmoved
    rw [hrest, BitVec.xor_left_inj] at h
    rw [hinj h, ih (by rw [List.length_cons, Nat.mul_succ] at hfits; omega) hlength' hrest]

/-- A change inside as many bits as the register has is not lost. -/
theorem burst_detected (hp : p.msb = true) (hinj : Function.Injective symbol)
    {front l l' back : List α} (hfits : n * l.length ≤ w) (hlength : l.length = l'.length)
    (hne : l ≠ l') (x : BitVec w) : (front ++ l ++ back).foldl (feed symbol n p) x ≠
      (front ++ l' ++ back).foldl (feed symbol n p) x := by
  intro h
  simp only [List.foldl_append] at h
  have hsame := foldl_feed_injective hp back h
  rw [foldl_feed hsymbol l hfits, foldl_feed hsymbol l' (hlength ▸ hfits), hlength] at hsame
  have hpacked := (shift_injective hp).iterate _ hsame
  exact hne (packed_injective hsymbol hinj hfits hlength ((BitVec.xor_right_inj _).mp hpacked))

end Packed
end MyEtcd.Library
