import MyEtcd.Library.ByteBuffer

/-! Readers that take values off the front of a list.
A reader undoes a writer when, in front of any rest, it takes exactly what was written. -/
namespace MyEtcd.Library
variable {β α γ : Type}

/-- In front of any rest, `r` takes exactly `piece` and yields `a`. -/
def Reads (r : StateM (List β) α) (piece : List β) (a : α) : Prop :=
  ∀ rest, r.run (piece ++ rest) = (a, rest)

/-- `n` values one after the other. -/
def readTimes (r : StateM (List β) α) : Nat → StateM (List β) (List α)
  | 0 => pure []
  | n + 1 => do
    let a ← r
    let others ← readTimes r n
    pure (a :: others)

namespace Reads
variable {r : StateM (List β) α} {f : α → StateM (List β) γ} {p q : List β} {a : α} {c : γ}

theorem pure (a : α) : Reads (Pure.pure a) ([] : List β) a := fun _ => rfl

/-- What is written one after the other is read one after the other. -/
theorem bind (h : Reads r p a) (h' : Reads (f a) q c) : Reads (r >>= f) (p ++ q) c := by
  intro rest
  have hfirst := h (q ++ rest)
  rw [← List.append_assoc] at hfirst
  rw [StateT.run_bind, hfirst]
  exact h' rest

theorem bind_pure {g : α → γ} (h : Reads r p a) :
    Reads (r >>= fun a => Pure.pure (g a)) p (g a) := by
  simpa using h.bind (f := fun a => Pure.pure (g a)) (.pure (g a))

theorem whole (h : Reads r p a) : r.run p = (a, []) := by
  simpa using h []

theorem times {write : α → List β} {l : List α} (h : ∀ a ∈ l, Reads r (write a) a) :
    Reads (readTimes r l.length) (l.flatMap write) l := by
  induction l with
  | nil => exact .pure []
  | cons a rest ih =>
    rw [List.flatMap_cons]
    have hrest := ih fun a ha => h a (List.mem_cons_of_mem _ ha)
    exact (h a List.mem_cons_self).bind hrest.bind_pure

end Reads

/-- The lowest `w` bytes of a number, the highest one first. -/
def toBigEndian : Nat → Nat → List UInt8
  | 0, _ => []
  | w + 1, n => UInt8.ofNat (n / 256 ^ w) :: toBigEndian w n

/-- Shift up to `w` bytes into `v`; the end of the list ends the loop. -/
def readBigEndian : Nat → Nat → StateM (List UInt8) Nat
  | 0, v => pure v
  | w + 1, v => do
    match ← get with
    | [] => pure v
    | b :: rest =>
      set rest
      readBigEndian w (v * 256 + b.toNat)

private theorem readBigEndian_cons (w v : Nat) (b : UInt8) (rest : List UInt8) :
    (readBigEndian (w + 1) v).run (b :: rest) = (readBigEndian w (v * 256 + b.toNat)).run rest := rfl

theorem readBigEndian_shifts (w v n : Nat) :
    Reads (readBigEndian w v) (toBigEndian w n) (v * 256 ^ w + n % 256 ^ w) := by
  induction w generalizing v with
  | zero =>
    have hzero : v * 256 ^ 0 + n % 256 ^ 0 = v := by simp [Nat.mod_one]
    rw [hzero]
    exact .pure v
  | succ w ih =>
    intro rest
    have hbyte : (UInt8.ofNat (n / 256 ^ w)).toNat = n / 256 ^ w % 256 := by simp
    have hmod : n % 256 ^ (w + 1) = n % 256 ^ w + 256 ^ w * (n / 256 ^ w % 256) := by
      rw [pow_succ, Nat.mod_mul]
    rw [toBigEndian, List.cons_append, readBigEndian_cons, ih, hbyte, hmod, pow_succ]
    congr 1
    ring

/-- A number that fits in `w` bytes is read back from them. -/
theorem readBigEndian_toBigEndian {w n : Nat} (h : n < 256 ^ w) :
    Reads (readBigEndian w 0) (toBigEndian w n) n := by
  have hread := readBigEndian_shifts w 0 n
  rwa [Nat.zero_mul, Nat.zero_add, Nat.mod_eq_of_lt h] at hread

private theorem toBigEndian_mul_add (w m n : Nat) :
    toBigEndian w (m * 256 ^ w + n) = toBigEndian w n := by
  induction w generalizing m with
  | zero => rfl
  | succ w ih =>
    have hpos : 0 < 256 ^ w := Nat.pow_pos (by decide)
    have hshift : m * 256 ^ (w + 1) + n = m * 256 * 256 ^ w + n := by ring
    have hdiv : (m * 256 * 256 ^ w + n) / 256 ^ w = m * 256 + n / 256 ^ w := by
      rw [Nat.mul_comm (m * 256), Nat.mul_add_div hpos]
    have hbyte : UInt8.ofNat (m * 256 + n / 256 ^ w) = UInt8.ofNat (n / 256 ^ w) :=
      UInt8.toNat_inj.mp (by simp)
    rw [toBigEndian, toBigEndian, hshift, ih, hdiv, hbyte]

theorem exists_toBigEndian (bytes : List UInt8) :
    ∃ n, n < 256 ^ bytes.length ∧ toBigEndian bytes.length n = bytes := by
  induction bytes with
  | nil => exact ⟨0, by simp, rfl⟩
  | cons b rest ih =>
    obtain ⟨n, hlt, hbytes⟩ := ih
    have hpos : 0 < 256 ^ rest.length := Nat.pow_pos (by decide)
    have hb : b.toNat + 1 ≤ 256 := b.toNat_lt
    refine ⟨b.toNat * 256 ^ rest.length + n, ?_, ?_⟩
    · calc b.toNat * 256 ^ rest.length + n
          < b.toNat * 256 ^ rest.length + 256 ^ rest.length := by omega
        _ = (b.toNat + 1) * 256 ^ rest.length := by ring
        _ ≤ 256 * 256 ^ rest.length := Nat.mul_le_mul_right _ hb
        _ = 256 ^ (b :: rest).length := by rw [List.length_cons, pow_succ, Nat.mul_comm]
    · have hdiv : (b.toNat * 256 ^ rest.length + n) / 256 ^ rest.length = b.toNat := by
        rw [Nat.mul_comm, Nat.mul_add_div hpos, Nat.div_eq_of_lt hlt, Nat.add_zero]
      rw [List.length_cons, toBigEndian, toBigEndian_mul_add, hbytes, hdiv, UInt8.ofNat_toNat]

def skip (n : Nat) (data : List β) : Option (List β) :=
  if n ≤ data.length then some (data.drop n) else none

def skipTimes (s : List β → Option (List β)) : Nat → List β → Option (List β)
  | 0, data => some data
  | n + 1, data => (s data).bind (skipTimes s n)

/-- `s` steps over what has been written for a value that fits, and fails in front of anything
else. -/
def Delimits (s : List β → Option (List β)) (fits : α → Prop) (write : α → List β) : Prop :=
  ∀ data rest, s data = some rest ↔ ∃ a, fits a ∧ data = write a ++ rest

theorem skip_eq_some {n : Nat} {data rest : List β} :
    skip n data = some rest ↔ ∃ piece, piece.length = n ∧ data = piece ++ rest := by
  unfold skip
  constructor
  · intro h
    obtain ⟨hle, heq⟩ := Option.ite_none_right_eq_some.mp h
    refine ⟨data.take n, List.length_take_of_le hle, ?_⟩
    rw [← Option.some.inj heq, List.take_append_drop]
  · rintro ⟨piece, rfl, rfl⟩
    simp

namespace Delimits
variable {s : List β → Option (List β)} {fits : α → Prop} {write : α → List β} {a : α}
  {r : StateM (List β) α} {data rest : List β}

theorem written (h : Delimits s fits write) (ha : fits a) (rest : List β) :
    s (write a ++ rest) = some rest :=
  (h _ _).mpr ⟨a, ha, rfl⟩

theorem times (h : Delimits s fits write) (n : Nat) :
    Delimits (skipTimes s n) (fun l => l.length = n ∧ ∀ a ∈ l, fits a) (List.flatMap write) := by
  induction n with
  | zero =>
    intro data rest
    constructor
    · intro heq
      exact ⟨[], ⟨rfl, by simp⟩, Option.some.inj heq⟩
    · rintro ⟨l, ⟨hlength, _⟩, rfl⟩
      rw [List.eq_nil_of_length_eq_zero hlength]
      rfl
  | succ n ih =>
    intro data rest
    rw [skipTimes, Option.bind_eq_some_iff]
    constructor
    · rintro ⟨mid, hfirst, hothers⟩
      obtain ⟨a, ha, rfl⟩ := (h _ _).mp hfirst
      obtain ⟨l, ⟨hlength, hl⟩, rfl⟩ := (ih _ _).mp hothers
      refine ⟨a :: l, ⟨by rw [List.length_cons, hlength], List.forall_mem_cons.mpr ⟨ha, hl⟩⟩, ?_⟩
      rw [List.flatMap_cons, List.append_assoc]
    · rintro ⟨l, ⟨hlength, hl⟩, rfl⟩
      cases l with
      | nil => cases hlength
      | cons a l =>
        obtain ⟨ha, hl⟩ := List.forall_mem_cons.mp hl
        refine ⟨l.flatMap write ++ rest, ?_, (ih _ _).mpr ⟨l, ⟨Nat.succ.inj hlength, hl⟩, rfl⟩⟩
        rw [List.flatMap_cons, List.append_assoc]
        exact h.written ha _

/-- A reader, even one that does not look where its data end, has read what was written just where
the data are delimited and nothing is left over. -/
theorem whole_iff (h : Delimits s fits write) (hr : ∀ a, fits a → Reads r (write a) a)
    (data : List β) :
    s data = some [] ↔ fits (r.run data).1 ∧ data = write (r.run data).1 := by
  rw [h]
  constructor
  · rintro ⟨a, ha, heq⟩
    rw [List.append_nil] at heq
    have hread : (r.run data).1 = a := by rw [heq, (hr a ha).whole]
    rw [hread]
    exact ⟨ha, heq⟩
  · rintro ⟨ha, heq⟩
    exact ⟨_, ha, by rw [List.append_nil]; exact heq⟩

end Delimits

end MyEtcd.Library
