import MyEtcd.Library.ShiftRegister
import MyEtcd.Wal.Record

/-! What the checksum of the log's records detects. `CRC32` is a shift register of 32 bits that is fed
a byte at a time, with the eight shifts of a byte read off its table. -/
namespace MyEtcd
open Library

namespace CRC32

/-- The feedback of the register. -/
def polynomial : BitVec 32 := 0xEDB88320#32

def symbol (b : UInt8) : BitVec 32 := b.toBitVec.setWidth 32

theorem toBitVec_round (crc : UInt32) : (round crc).toBitVec = shift polynomial crc.toBitVec := by
  have hlow : crc &&& 1 = 1 ↔ crc.toBitVec.getLsbD 0 = true := by
    rw [← UInt32.toBitVec_inj, UInt32.toBitVec_and, UInt32.toBitVec_one,
      BitVec.and_one_eq_setWidth_ofBool_getLsbD]
    cases crc.toBitVec.getLsbD 0 <;> decide
  unfold round shift
  simp only [hlow]
  split_ifs <;> rfl

theorem toBitVec_iterate_round (n : Nat) (crc : UInt32) :
    (round^[n] crc).toBitVec = (shift polynomial)^[n] crc.toBitVec := by
  induction n generalizing crc with
  | zero => rfl
  | succ n ih => rw [Function.iterate_succ_apply, ih, toBitVec_round]; rfl

theorem symbol_high (b : UInt8) {i : Nat} (hi : 8 ≤ i) : (symbol b).getLsbD i = false := by
  rw [symbol, BitVec.getLsbD_setWidth, BitVec.getLsbD_of_ge _ i hi, Bool.and_false]

theorem symbol_injective : Function.Injective symbol := by
  intro a b h
  refine UInt8.toBitVec_inj.mp (BitVec.eq_of_getLsbD_eq fun i hi => ?_)
  have hbit := congrArg (fun x : BitVec 32 => x.getLsbD i) h
  simpa [symbol, show i < 32 by omega] using hbit

/-- The table stands for the eight shifts of a byte. -/
theorem toBitVec_step (crc : UInt32) (b : UInt8) :
    (table ((crc ^^^ b.toUInt32) &&& 0xFF) ^^^ (crc >>> 8)).toBitVec =
      feed symbol 8 polynomial crc.toBitVec b := by
  have hmask : ∀ i < 32, (0xFF#32).getLsbD i = decide (i < 8) := by decide
  have hsymbol : symbol b >>> 8 = 0#32 := by
    refine BitVec.eq_of_getLsbD_eq fun i _ => ?_
    rw [BitVec.getLsbD_ushiftRight, symbol_high b (Nat.le_add_right 8 i), BitVec.getLsbD_zero]
  have hdown : (crc >>> 8).toBitVec = (crc.toBitVec ^^^ symbol b) >>> 8 := by
    rw [BitVec.ushiftRight_xor_distrib, hsymbol, BitVec.xor_zero]
    rfl
  rw [UInt32.toBitVec_xor, table, toBitVec_iterate_round, hdown]
  exact iterate_shift_mask hmask (crc.toBitVec ^^^ symbol b)

theorem toBitVec_update (crc : UInt32) (data : Bytes) :
    (update crc data).toBitVec = data.foldl (feed symbol 8 polynomial) crc.toBitVec := by
  induction data generalizing crc with
  | nil => rfl
  | cons b data ih =>
    rw [List.foldl_cons, ← toBitVec_step]
    exact ih _

/-- The strings differ, but only inside four bytes in a row. -/
structure Burst (sent received : Bytes) : Prop where
  length : sent.length = received.length
  differ : sent ≠ received
  inside : ∃ start, ∀ i, sent[i]? ≠ received[i]? → start ≤ i ∧ i < start + 4

/-- Damage of at most four bytes in a row changes the checksum. -/
theorem compute_detects_burst {sent received : Bytes} (h : Burst sent received) :
    compute sent ≠ compute received := by
  obtain ⟨start, hinside⟩ := h.inside
  have hsame {i : Nat} (hi : i < start ∨ start + 4 ≤ i) : sent[i]? = received[i]? := by
    by_contra hne
    have := hinside i hne
    omega
  have hfront : sent.take start = received.take start := by
    refine List.ext_getElem? fun i => ?_
    rw [List.getElem?_take, List.getElem?_take]
    split_ifs with hi
    · exact hsame (.inl hi)
    · rfl
  have hback : sent.drop (start + 4) = received.drop (start + 4) := by
    refine List.ext_getElem? fun i => ?_
    rw [List.getElem?_drop, List.getElem?_drop]
    exact hsame (.inr (Nat.le_add_right _ _))
  have hparts (s : Bytes) : s = s.take start ++ (s.drop start).take 4 ++ s.drop (start + 4) := by
    rw [← List.drop_drop, List.append_assoc, List.take_append_drop, List.take_append_drop]
  have hwindow : (sent.drop start).take 4 ≠ (received.drop start).take 4 := by
    intro heq
    apply h.differ
    rw [hparts sent, hfront, heq, hback, ← hparts]
  have hlength : ((sent.drop start).take 4).length = ((received.drop start).take 4).length := by
    rw [List.length_take, List.length_take, List.length_drop, List.length_drop, h.length]
  have hfits : 8 * ((sent.drop start).take 4).length ≤ 32 := by
    rw [List.length_take]
    omega
  have hdetected :
      (sent.take start ++ (sent.drop start).take 4 ++ sent.drop (start + 4)).foldl
        (feed symbol 8 polynomial) (0xFFFFFFFF : UInt32).toBitVec ≠
      (sent.take start ++ (received.drop start).take 4 ++ sent.drop (start + 4)).foldl
        (feed symbol 8 polynomial) (0xFFFFFFFF : UInt32).toBitVec :=
    burst_detected (fun b i hi => symbol_high b hi) (by decide) symbol_injective hfits hlength
      hwindow _
  intro heq
  rw [compute, compute, UInt32.xor_left_inj, ← UInt32.toBitVec_inj, toBitVec_update, toBitVec_update,
    hparts sent, hparts received, ← hfront, ← hback] at heq
  exact hdetected heq

theorem compute_detects_burst_flipped : compute [49, 50, 51, 52, 53] ≠ compute [49, 50, 52, 51, 53] :=
  compute_detects_burst
    { length := rfl
      differ := by decide
      inside := ⟨1, fun i hi => by
        rcases i with _ | _ | _ | _ | _ | i <;> simp_all⟩ }

end CRC32
end MyEtcd
