import Mathlib.Data.List.Basic
import Mathlib.Data.List.Induction

/-! A queue with room for so many items, which gives up its oldest ones when it is full.
Without readers it holds the newest items of everything that has been put in. -/
namespace MyEtcd.Library.BoundedQueue
variable {α : Type} {capacity : Nat}

def makeRoom (capacity : Nat) : List α → List α
  | [] => []
  | x :: rest => if capacity ≤ (x :: rest).length then makeRoom capacity rest else x :: rest

def push (capacity : Nat) (queue : List α) (x : α) : List α := makeRoom capacity queue ++ [x]

/-- What happens to a queue: its reader takes the oldest item out, if there is one. -/
inductive Op (α : Type) where
  | push (x : α)
  | pop

def after (capacity : Nat) (queue : List α) : Op α → List α
  | .push x => push capacity queue x
  | .pop => queue.tail

def Op.pushed : Op α → Option α
  | .push x => some x
  | .pop => none

def newest (capacity : Nat) (l : List α) : List α := l.drop (l.length - capacity)

theorem newest_of_le {l : List α} (h : l.length ≤ capacity) : newest capacity l = l := by
  rw [newest, Nat.sub_eq_zero_of_le h, List.drop_zero]

theorem makeRoom_eq (queue : List α) :
    makeRoom capacity queue = queue.drop (queue.length + 1 - capacity) := by
  induction queue with
  | nil => simp [makeRoom]
  | cons x rest ih =>
    rw [makeRoom]
    split_ifs with hfull
    · have hmore : (x :: rest).length + 1 - capacity = rest.length + 1 - capacity + 1 := by
        rw [List.length_cons] at hfull ⊢
        omega
      rw [hmore, List.drop_succ_cons, ih]
    · rw [Nat.sub_eq_zero_of_le (by omega), List.drop_zero]

theorem push_eq_newest (h : 0 < capacity) (queue : List α) (x : α) :
    push capacity queue x = newest capacity (queue ++ [x]) := by
  rw [push, makeRoom_eq, newest, List.length_append, List.length_singleton,
    List.drop_append_of_le_length (by omega)]

/-- What has been given up once is not missed later. -/
theorem newest_append (l l' : List α) :
    newest capacity (newest capacity l ++ l') = newest capacity (l ++ l') := by
  have hdrop : newest capacity l ++ l' = (l ++ l').drop (l.length - capacity) :=
    (List.drop_append_of_le_length (Nat.sub_le _ _)).symm
  rw [hdrop, newest, newest, List.drop_drop, List.length_drop, List.length_append]
  congr 1
  omega

theorem length_push_le (h : 0 < capacity) (queue : List α) (x : α) :
    (push capacity queue x).length ≤ capacity := by
  rw [push_eq_newest h, newest, List.length_drop]
  omega

theorem foldl_after (h : 0 < capacity) {queue : List α} (hqueue : queue.length ≤ capacity)
    {ops : List (Op α)} (hunread : .pop ∉ ops) :
    ops.foldl (after capacity) queue = newest capacity (queue ++ ops.filterMap Op.pushed) := by
  induction ops generalizing queue with
  | nil => rw [List.foldl_nil, List.filterMap_nil, List.append_nil, newest_of_le hqueue]
  | cons op rest ih =>
    rw [List.mem_cons, not_or] at hunread
    obtain ⟨hop, hrest⟩ := hunread
    cases op with
    | push x =>
      rw [List.foldl_cons, after, ih (length_push_le h queue x) hrest, push_eq_newest h,
        newest_append, List.append_assoc, List.singleton_append]
      rfl
    | pop => exact absurd rfl hop

/-- The items that the reader takes out of a queue. -/
def readFrom (capacity : Nat) (queue : List α) : List (Op α) → List α
  | [] => []
  | .push x :: rest => readFrom capacity (push capacity queue x) rest
  | .pop :: rest => queue.head?.toList ++ readFrom capacity queue.tail rest

/-- What has been read of a queue that was empty to begin with. -/
def read (capacity : Nat) (ops : List (Op α)) : List α := readFrom capacity [] ops

def waiting (capacity : Nat) (ops : List (Op α)) : List α := ops.foldl (after capacity) []

def input (ops : List (Op α)) : List α := ops.filterMap Op.pushed

theorem readFrom_append (queue : List α) (ops ops' : List (Op α)) :
    readFrom capacity queue (ops ++ ops') = readFrom capacity queue ops ++
      readFrom capacity (ops.foldl (after capacity) queue) ops' := by
  induction ops generalizing queue with
  | nil => rfl
  | cons op rest ih =>
    cases op with
    | push x => exact ih _
    | pop =>
      rw [List.cons_append, readFrom, readFrom, ih, List.append_assoc]
      rfl

theorem waiting_push (ops : List (Op α)) (x : α) :
    waiting capacity (ops ++ [.push x]) = push capacity (waiting capacity ops) x := by
  rw [waiting, List.foldl_append]
  rfl

theorem waiting_pop (ops : List (Op α)) :
    waiting capacity (ops ++ [.pop]) = (waiting capacity ops).tail := by
  rw [waiting, List.foldl_append]
  rfl

theorem read_push (ops : List (Op α)) (x : α) :
    read capacity (ops ++ [.push x]) = read capacity ops := by
  rw [read, readFrom_append]
  exact List.append_nil _

theorem read_pop (ops : List (Op α)) :
    read capacity (ops ++ [.pop]) = read capacity ops ++ (waiting capacity ops).head?.toList := by
  rw [read, readFrom_append, readFrom, readFrom, List.append_nil]
  rfl

theorem input_push (ops : List (Op α)) (x : α) : input (ops ++ [.push x]) = input ops ++ [x] := by
  rw [input, List.filterMap_append]
  rfl

theorem input_pop (ops : List (Op α)) : input (ops ++ [.pop]) = input ops := by
  rw [input, List.filterMap_append]
  exact List.append_nil _

theorem head?_append_tail (queue : List α) : queue.head?.toList ++ queue.tail = queue := by
  cases queue <;> rfl

/-- Items are read in the order in which they were put in, and none of them twice. -/
theorem read_append_waiting_sublist (ops : List (Op α)) :
    (read capacity ops ++ waiting capacity ops).Sublist (input ops) := by
  induction ops using List.reverseRecOn with
  | nil => exact .refl []
  | append_singleton rest op ih =>
    cases op with
    | push x =>
      rw [read_push, waiting_push, push, makeRoom_eq, input_push, ← List.append_assoc]
      refine .append (.trans ?_ ih) (.refl [x])
      exact .append (.refl _) (List.drop_sublist _ _)
    | pop =>
      rw [read_pop, waiting_pop, input_pop, List.append_assoc, head?_append_tail]
      exact ih

/-- As long as everything would have had room, nothing is lost. -/
theorem read_append_waiting_of_le {ops : List (Op α)} (h : (input ops).length ≤ capacity) :
    read capacity ops ++ waiting capacity ops = input ops := by
  induction ops using List.reverseRecOn with
  | nil => rfl
  | append_singleton rest op ih =>
    cases op with
    | push x =>
      rw [input_push, List.length_append, List.length_singleton] at h
      have hrest := ih (by omega)
      have hroom : (waiting capacity rest).length ≤ (input rest).length := by
        rw [← hrest, List.length_append]
        exact Nat.le_add_left _ _
      have hnone : (waiting capacity rest).length + 1 - capacity = 0 := by omega
      rw [read_push, waiting_push, push, makeRoom_eq, hnone, List.drop_zero, input_push,
        ← List.append_assoc, hrest]
    | pop =>
      rw [input_pop] at h
      rw [read_pop, waiting_pop, input_pop, List.append_assoc, head?_append_tail, ih h]

/-- What had happened when the item at `p` was given up: later ones had filled up the queue, and the
reader had not got as far. -/
def GivenUp (capacity : Nat) (ops : List (Op α)) (positions : List Nat) (p : Nat) : Prop :=
  ∃ before rest, ops = before ++ rest ∧ p + capacity < (input before).length ∧
    ∀ q ∈ positions.take (read capacity before).length, q < p

theorem GivenUp.append {ops : List (Op α)} {positions : List Nat} {p : Nat}
    (h : GivenUp capacity ops positions p) (op : Op α) : GivenUp capacity (ops ++ [op]) positions p := by
  obtain ⟨before, rest, hsplit, hfull, hbehind⟩ := h
  exact ⟨before, rest ++ [op], by rw [hsplit, List.append_assoc], hfull, hbehind⟩

/-- Where the items that were read stood in the input, and where those in the queue begin. -/
structure Accounted (capacity : Nat) (ops : List (Op α)) (taken : List Nat) (first : Nat) :
    Prop where
  rising : taken.Pairwise (· < ·)
  passed : ∀ p ∈ taken, p < first
  items : (read capacity ops).map some = taken.map fun p => (input ops)[p]?
  queue : waiting capacity ops = (input ops).drop first
  start : first ≤ (input ops).length
  bounded : (input ops).length ≤ first + capacity
  missing : ∀ p < first, p ∉ taken → GivenUp capacity ops taken p

namespace Accounted
variable {ops : List (Op α)} {taken : List Nat} {first : Nat}

theorem nothing : Accounted capacity ([] : List (Op α)) [] 0 where
  rising := .nil
  passed := nofun
  items := rfl
  queue := rfl
  start := Nat.le_refl _
  bounded := Nat.zero_le _
  missing := nofun

theorem length_read (h : Accounted capacity ops taken first) :
    (read capacity ops).length = taken.length := by
  simpa using congrArg List.length h.items

/-- What had been read by then stands at the front of what is read later. -/
theorem givenUp_more (h : Accounted capacity ops taken first) {p : Nat}
    (hp : GivenUp capacity ops taken p) (more : List Nat) : GivenUp capacity ops (taken ++ more) p := by
  obtain ⟨before, rest, hsplit, hfull, hbehind⟩ := hp
  have hle : (read capacity before).length ≤ taken.length := by
    rw [← h.length_read, hsplit, read, read, readFrom_append, List.length_append]
    exact Nat.le_add_right _ _
  refine ⟨before, rest, hsplit, hfull, ?_⟩
  rwa [List.take_append_of_le_length hle]

/-- A push to a full queue gives up the item that stands first in it. -/
theorem push (h : Accounted capacity ops taken first) (hcapacity : 0 < capacity) (x : α) :
    Accounted capacity (ops ++ [.push x]) taken
      (if (input ops).length < first + capacity then first else first + 1) := by
  have hstart := h.start
  have hbounded := h.bounded
  have hlength : (input (ops ++ [.push x])).length = (input ops).length + 1 := by
    rw [input_push, List.length_append, List.length_singleton]
  have hitems : (read capacity (ops ++ [.push x])).map some =
      taken.map fun p => (input (ops ++ [.push x]))[p]? := by
    rw [read_push, h.items]
    refine List.map_congr_left fun p hp => ?_
    have := h.passed p hp
    rw [input_push, List.getElem?_append_left (by omega)]
  have hqueue : waiting capacity (ops ++ [.push x]) =
      (input (ops ++ [.push x])).drop (first + ((input ops).length - first + 1 - capacity)) := by
    rw [waiting_push, h.queue, push_eq_newest hcapacity, newest, input_push, ← List.drop_drop,
      List.drop_append_of_le_length hstart, List.length_append, List.length_drop,
      List.length_singleton]
  have hmissing : ∀ p < first, p ∉ taken → GivenUp capacity (ops ++ [.push x]) taken p := by
    exact fun p hp hgone => (h.missing p hp hgone).append _
  split_ifs with hroom
  · have hskip : (input ops).length - first + 1 - capacity = 0 := by omega
    rw [hskip, Nat.add_zero] at hqueue
    exact ⟨h.rising, h.passed, hitems, hqueue, by omega, by omega, hmissing⟩
  · have hskip : (input ops).length - first + 1 - capacity = 1 := by omega
    rw [hskip] at hqueue
    refine ⟨h.rising, fun p hp => Nat.lt_succ_of_lt (h.passed p hp), hitems, hqueue,
      by omega, by omega, fun p hp hgone => ?_⟩
    rcases Nat.lt_succ_iff_lt_or_eq.mp hp with hlt | rfl
    · exact hmissing p hlt hgone
    · refine ⟨ops ++ [.push x], [], (List.append_nil _).symm, by omega, fun q hq => ?_⟩
      exact h.passed q (List.mem_of_mem_take hq)

theorem pop (h : Accounted capacity ops taken first) :
    ∃ taken' first', Accounted capacity (ops ++ [.pop]) taken' first' := by
  have hstart := h.start
  have hbounded := h.bounded
  rcases Nat.lt_or_ge first (input ops).length with hmore | hnone
  · have hhead : (waiting capacity ops).head? = some ((input ops)[first]) := by
      rw [h.queue, List.head?_drop, List.getElem?_eq_getElem hmore]
    refine ⟨taken ++ [first], first + 1, ?_, ?_, ?_, ?_, ?_, ?_, ?_⟩
    · rw [List.pairwise_append]
      refine ⟨h.rising, List.pairwise_singleton _ _, fun p hp q hq => ?_⟩
      rw [List.mem_singleton.mp hq]
      exact h.passed p hp
    · intro p hp
      rcases List.mem_append.mp hp with hp | hp
      · exact Nat.lt_succ_of_lt (h.passed p hp)
      · rw [List.mem_singleton.mp hp]
        exact Nat.lt_succ_self _
    · rw [read_pop, hhead, input_pop, List.map_append, List.map_append, h.items, List.map_singleton,
        List.getElem?_eq_getElem hmore]
      rfl
    · rw [waiting_pop, h.queue, input_pop, List.tail_drop]
    · rw [input_pop]
      exact hmore
    · rw [input_pop]
      omega
    · intro p hp hgone
      rw [List.mem_append, List.mem_singleton, not_or] at hgone
      exact h.givenUp_more (h.missing p (by omega) hgone.1) _ |>.append _
  · have hempty : waiting capacity ops = [] := by rw [h.queue, List.drop_eq_nil_of_le hnone]
    refine ⟨taken, first, h.rising, h.passed, ?_, ?_, ?_, ?_, fun p hp hgone => ?_⟩
    · rw [read_pop, hempty, input_pop, ← h.items]
      exact congrArg _ (List.append_nil _)
    · rw [waiting_pop, hempty, input_pop, ← h.queue, hempty]
      rfl
    · rw [input_pop]
      exact hstart
    · rw [input_pop]
      exact hbounded
    · exact (h.missing p hp hgone).append _

end Accounted

/-- Every queue that was empty to begin with is accounted for. -/
theorem exists_accounted (hcapacity : 0 < capacity) (ops : List (Op α)) :
    ∃ taken first, Accounted capacity ops taken first := by
  induction ops using List.reverseRecOn with
  | nil => exact ⟨[], 0, .nothing⟩
  | append_singleton rest op ih =>
    obtain ⟨taken, first, h⟩ := ih
    cases op with
    | push x => exact ⟨_, _, h.push hcapacity x⟩
    | pop => exact h.pop

/-- What has been read and what is waiting are the items at rising positions of the input, and a
position is left out only if that item has been given up. -/
theorem read_append_waiting (hcapacity : 0 < capacity) (ops : List (Op α)) :
    (waiting capacity ops).length ≤ capacity ∧
    ∃ positions : List Nat, positions.Pairwise (· < ·) ∧ (∀ p ∈ positions, p < (input ops).length) ∧
      (read capacity ops ++ waiting capacity ops).map some =
        (positions.map fun p => (input ops)[p]?) ∧
      ∀ p < (input ops).length, p ∉ positions → GivenUp capacity ops positions p := by
  obtain ⟨taken, first, h⟩ := exists_accounted hcapacity ops
  have hstart := h.start
  have hbounded := h.bounded
  refine ⟨?_, taken ++ List.range' first ((input ops).length - first), ?_, ?_, ?_, ?_⟩
  · rw [h.queue, List.length_drop]
    omega
  · rw [List.pairwise_append]
    refine ⟨h.rising, List.pairwise_lt_range', fun p hp q hq => ?_⟩
    have := h.passed p hp
    have := (List.mem_range'_1.mp hq).1
    omega
  · intro p hp
    rcases List.mem_append.mp hp with hp | hp
    · exact Nat.lt_of_lt_of_le (h.passed p hp) hstart
    · have := (List.mem_range'_1.mp hp).2
      omega
  · have hqueue : ((input ops).drop first).map some =
        (List.range' first ((input ops).length - first)).map fun p => (input ops)[p]? := by
      apply List.ext_getElem
      · rw [List.length_map, List.length_map, List.length_drop, List.length_range']
      · intro i hi _
        rw [List.length_map, List.length_drop] at hi
        rw [List.getElem_map, List.getElem_map, List.getElem_drop, List.getElem_range', Nat.one_mul,
          List.getElem?_eq_getElem (by omega)]
    rw [List.map_append, List.map_append, h.items, h.queue, hqueue]
  · intro p hp hgone
    rw [List.mem_append, List.mem_range'_1, not_or] at hgone
    exact h.givenUp_more (h.missing p (by omega) hgone.1) _

end MyEtcd.Library.BoundedQueue
