import Mathlib.Order.Basic
import Mathlib.Data.Finset.Card
import Mathlib.Data.List.Pairwise

/-! Finite maps kept as key-sorted association lists, in the manner of an ordered tree map.
Iteration is in ascending key order and every key occurs once. -/
namespace MyEtcd.Library
variable {K V : Type} [LinearOrder K]

/-- A finite map whose entries are listed by strictly ascending key. -/
structure OrderedMap (K V : Type) [LinearOrder K] where
  entries : List (K × V)
  sorted : entries.Pairwise (fun a b => a.1 < b.1)

namespace OrderedMap

def lookup (k : K) : List (K × V) → Option V
  | [] => none
  | (k', v) :: rest => if k = k' then some v else lookup k rest

/-- Put `v` under `k`, replacing an older value and keeping the order. -/
def place (k : K) (v : V) : List (K × V) → List (K × V)
  | [] => [(k, v)]
  | (k', v') :: rest =>
    if k < k' then (k, v) :: (k', v') :: rest
    else if k = k' then (k, v) :: rest
    else (k', v') :: place k v rest

private theorem mem_place {k : K} {v : V} {l : List (K × V)} {e : K × V}
    (h : e ∈ place k v l) : e = (k, v) ∨ e ∈ l := by
  induction l with
  | nil => exact .inl (List.mem_singleton.mp h)
  | cons a rest ih =>
    unfold place at h
    split_ifs at h
    · exact List.mem_cons.mp h
    · exact (List.mem_cons.mp h).imp id (List.mem_cons_of_mem _)
    · rcases List.mem_cons.mp h with rfl | h
      · exact .inr List.mem_cons_self
      · exact (ih h).imp id (List.mem_cons_of_mem _)

private theorem place_sorted (k : K) (v : V) (l : List (K × V))
    (h : l.Pairwise (fun a b => a.1 < b.1)) :
    (place k v l).Pairwise (fun a b => a.1 < b.1) := by
  induction l with
  | nil => simp [place]
  | cons a rest ih =>
    obtain ⟨hhead, htail⟩ := List.pairwise_cons.mp h
    unfold place
    split_ifs with hlt heq
    · refine List.pairwise_cons.mpr ⟨fun b hb => ?_, h⟩
      rcases List.mem_cons.mp hb with rfl | hb
      · exact hlt
      · exact hlt.trans (hhead b hb)
    · exact List.pairwise_cons.mpr ⟨fun b hb => heq ▸ hhead b hb, htail⟩
    · refine List.pairwise_cons.mpr ⟨fun b hb => ?_, ih htail⟩
      rcases mem_place hb with rfl | hb
      · exact lt_of_le_of_ne (not_lt.mp hlt) (Ne.symm heq)
      · exact hhead b hb

def empty : OrderedMap K V := ⟨[], List.Pairwise.nil⟩

instance : EmptyCollection (OrderedMap K V) := ⟨empty⟩
instance : Inhabited (OrderedMap K V) := ⟨empty⟩

def get? (m : OrderedMap K V) (k : K) : Option V := lookup k m.entries

def getD (m : OrderedMap K V) (k : K) (d : V) : V := (m.get? k).getD d

def contains (m : OrderedMap K V) (k : K) : Bool := (m.get? k).isSome

def insert (m : OrderedMap K V) (k : K) (v : V) : OrderedMap K V :=
  ⟨place k v m.entries, place_sorted k v m.entries m.sorted⟩

def erase (m : OrderedMap K V) (k : K) : OrderedMap K V :=
  ⟨m.entries.filter (fun e => e.1 ≠ k), m.sorted.filter _⟩

def keys (m : OrderedMap K V) : List K := m.entries.map Prod.fst
def values (m : OrderedMap K V) : List V := m.entries.map Prod.snd
def size (m : OrderedMap K V) : Nat := m.entries.length

private theorem lookup_place_self (k : K) (v : V) (l : List (K × V)) :
    lookup k (place k v l) = some v := by
  induction l with
  | nil => simp [place, lookup]
  | cons a rest ih =>
    unfold place
    split_ifs with _ heq
    · simp [lookup]
    · simp [lookup]
    · simp only [lookup, if_neg heq, ih]

private theorem lookup_place_ne {k j : K} (v : V) (l : List (K × V)) (h : j ≠ k) :
    lookup j (place k v l) = lookup j l := by
  induction l with
  | nil => simp [place, lookup, h]
  | cons a rest ih =>
    unfold place
    split_ifs with _ heq
    · simp [lookup, h]
    · subst heq
      simp [lookup, h]
    · simp only [lookup, ih]

private theorem lookup_filter_ne {k j : K} (l : List (K × V)) (h : j ≠ k) :
    lookup j (l.filter (fun e => e.1 ≠ k)) = lookup j l := by
  induction l with
  | nil => rfl
  | cons a rest ih =>
    by_cases ha : a.1 = k
    · rw [List.filter_cons_of_neg (by simpa using ha), ih, lookup, if_neg (ha ▸ h)]
    · rw [List.filter_cons_of_pos (by simpa using ha), lookup, lookup, ih]

private theorem lookup_eq_none {k : K} {l : List (K × V)} (h : ∀ e ∈ l, e.1 ≠ k) :
    lookup k l = none := by
  induction l with
  | nil => rfl
  | cons a rest ih =>
    rw [lookup, if_neg (h a List.mem_cons_self).symm]
    exact ih fun e he => h e (List.mem_cons_of_mem _ he)

private theorem lookup_isSome_iff (k : K) (l : List (K × V)) :
    (lookup k l).isSome ↔ k ∈ l.map Prod.fst := by
  induction l with
  | nil => simp [lookup]
  | cons a rest ih =>
    by_cases h : k = a.1
    · simp [lookup, h]
    · simp [lookup, h, ih]

@[simp] theorem get?_empty (k : K) : (∅ : OrderedMap K V).get? k = none := rfl

@[simp] theorem get?_insert_self (m : OrderedMap K V) (k : K) (v : V) :
    (m.insert k v).get? k = some v := lookup_place_self k v m.entries

theorem get?_insert_ne (m : OrderedMap K V) {k j : K} (v : V) (h : j ≠ k) :
    (m.insert k v).get? j = m.get? j := lookup_place_ne v m.entries h

theorem get?_insert (m : OrderedMap K V) (k j : K) (v : V) :
    (m.insert k v).get? j = if j = k then some v else m.get? j := by
  split_ifs with h
  · rw [h, get?_insert_self]
  · exact get?_insert_ne m v h

@[simp] theorem get?_erase_self (m : OrderedMap K V) (k : K) : (m.erase k).get? k = none :=
  lookup_eq_none fun e he => by simpa using (List.mem_filter.mp he).2

theorem get?_erase_ne (m : OrderedMap K V) {k j : K} (h : j ≠ k) :
    (m.erase k).get? j = m.get? j := lookup_filter_ne m.entries h

theorem get?_erase (m : OrderedMap K V) (k j : K) :
    (m.erase k).get? j = if j = k then none else m.get? j := by
  split_ifs with h
  · rw [h, get?_erase_self]
  · exact get?_erase_ne m h

@[simp] theorem getD_insert_self (m : OrderedMap K V) (k : K) (v d : V) :
    (m.insert k v).getD k d = v := by simp [getD]

theorem getD_insert_ne (m : OrderedMap K V) {k j : K} (v d : V) (h : j ≠ k) :
    (m.insert k v).getD j d = m.getD j d := by simp [getD, get?_insert_ne m v h]

theorem getD_insert (m : OrderedMap K V) (k j : K) (v d : V) :
    (m.insert k v).getD j d = if j = k then v else m.getD j d := by
  split_ifs with h
  · rw [h, getD_insert_self]
  · exact getD_insert_ne m v d h

theorem mem_keys_iff (m : OrderedMap K V) (k : K) : k ∈ m.keys ↔ (m.get? k).isSome :=
  (lookup_isSome_iff k m.entries).symm

theorem contains_iff (m : OrderedMap K V) (k : K) : m.contains k = true ↔ k ∈ m.keys :=
  (mem_keys_iff m k).symm

theorem mem_keys_insert (m : OrderedMap K V) (k j : K) (v : V) :
    j ∈ (m.insert k v).keys ↔ j = k ∨ j ∈ m.keys := by
  rw [mem_keys_iff, mem_keys_iff, get?_insert]
  by_cases h : j = k <;> simp [h]

theorem mem_keys_erase (m : OrderedMap K V) (k j : K) :
    j ∈ (m.erase k).keys ↔ j ≠ k ∧ j ∈ m.keys := by
  rw [mem_keys_iff, mem_keys_iff, get?_erase]
  by_cases h : j = k <;> simp [h]

theorem get?_foldl_insert (l : List K) (v : V) (m : OrderedMap K V) (j : K) :
    (l.foldl (fun m k => m.insert k v) m).get? j = if j ∈ l then some v else m.get? j := by
  induction l generalizing m with
  | nil => simp
  | cons k rest ih =>
    rw [List.foldl_cons, ih, get?_insert]
    by_cases hrest : j ∈ rest <;> by_cases hk : j = k <;> simp [hrest, hk]

theorem get?_foldl_erase (l : List K) (m : OrderedMap K V) (j : K) :
    (l.foldl erase m).get? j = if j ∈ l then none else m.get? j := by
  induction l generalizing m with
  | nil => simp
  | cons k rest ih =>
    rw [List.foldl_cons, ih, get?_erase]
    by_cases hrest : j ∈ rest <;> by_cases hk : j = k <;> simp [hrest, hk]

theorem getD_foldl_insert (l : List K) (v d : V) (j : K) :
    (l.foldl (fun m k => m.insert k v) (∅ : OrderedMap K V)).getD j d = if j ∈ l then v else d := by
  simp only [getD, get?_foldl_insert, get?_empty]
  split_ifs <;> rfl

theorem mem_keys_foldl_insert (l : List K) (v : V) (j : K) :
    j ∈ (l.foldl (fun m k => m.insert k v) (∅ : OrderedMap K V)).keys ↔ j ∈ l := by
  rw [mem_keys_iff, get?_foldl_insert]
  by_cases h : j ∈ l <;> simp [h]

theorem foldl_max_le_iff {l : List Nat} {m b : Nat} :
    l.foldl max m ≤ b ↔ m ≤ b ∧ ∀ k ∈ l, k ≤ b := by
  induction l generalizing m with
  | nil => simp
  | cons k rest ih => simp [ih, and_assoc]

theorem keys_nodup (m : OrderedMap K V) : m.keys.Nodup :=
  List.pairwise_map.mpr (m.sorted.imp fun h => h.ne)

@[simp] theorem length_keys (m : OrderedMap K V) : m.keys.length = m.size := List.length_map _

theorem size_insert (m : OrderedMap K V) (k : K) (v : V) :
    (m.insert k v).size = if (m.get? k).isSome then m.size else m.size + 1 := by
  have hcard (m : OrderedMap K V) : m.size = m.keys.toFinset.card := by
    rw [List.toFinset_card_of_nodup m.keys_nodup, length_keys]
  have hkeys : (m.insert k v).keys.toFinset = Insert.insert k m.keys.toFinset := by
    ext j
    simp [mem_keys_insert]
  have hmem : k ∈ m.keys.toFinset ↔ (m.get? k).isSome := by
    rw [List.mem_toFinset, mem_keys_iff]
  rw [hcard, hkeys]
  split_ifs with hthere
  · rw [Finset.card_insert_of_mem (hmem.mpr hthere), ← hcard]
  · rw [Finset.card_insert_of_notMem (mt hmem.mp hthere), ← hcard]

private theorem lookup_of_mem {l : List (K × V)} (hs : l.Pairwise (fun a b => a.1 < b.1))
    {e : K × V} (he : e ∈ l) : lookup e.1 l = some e.2 := by
  induction l with
  | nil => exact absurd he List.not_mem_nil
  | cons a rest ih =>
    obtain ⟨hhead, htail⟩ := List.pairwise_cons.mp hs
    rcases List.mem_cons.mp he with rfl | he
    · simp [lookup]
    · rw [lookup, if_neg (hhead e he).ne', ih htail he]

theorem mem_entries_iff (m : OrderedMap K V) (k : K) (v : V) :
    (k, v) ∈ m.entries ↔ m.get? k = some v := by
  constructor
  · exact fun h => lookup_of_mem m.sorted h
  · intro h
    have hkey : k ∈ m.keys := (mem_keys_iff m k).mpr (by rw [h]; rfl)
    obtain ⟨⟨k', v'⟩, he, rfl⟩ := List.mem_map.mp hkey
    have hv : m.get? k' = some v' := lookup_of_mem m.sorted he
    rwa [← Option.some.inj (hv.symm.trans h)]

/-- A map is what it holds under each key. -/
theorem ext_get? {a b : OrderedMap K V} (h : ∀ k, a.get? k = b.get? k) : a = b := by
  have hperm : a.entries.Perm b.entries := by
    have hnodup (m : OrderedMap K V) : m.entries.Nodup :=
      m.sorted.imp fun hlt heq => hlt.ne (congrArg Prod.fst heq)
    refine (List.perm_ext_iff_of_nodup (hnodup a) (hnodup b)).mpr fun e => ?_
    rw [mem_entries_iff a e.1 e.2, mem_entries_iff b e.1 e.2, h]
  have hlt {x y : K × V} (hxy : x.1 < y.1) (hyx : y.1 < x.1) : x = y := absurd hyx (lt_asymm hxy)
  have hentries := hperm.eq_of_pairwise (fun x y _ _ => hlt) a.sorted b.sorted
  cases a
  cases b
  congr

theorem insert_insert_self (m : OrderedMap K V) (k : K) (v w : V) :
    (m.insert k v).insert k w = m.insert k w := by
  apply ext_get?
  intro j
  rw [get?_insert, get?_insert, get?_insert]
  split_ifs <;> rfl

theorem insert_erase_self (m : OrderedMap K V) (k : K) (v : V) :
    (m.erase k).insert k v = m.insert k v := by
  apply ext_get?
  intro j
  rw [get?_insert, get?_insert, get?_erase]
  split_ifs <;> rfl

theorem erase_insert_self (m : OrderedMap K V) (k : K) (v : V) :
    (m.insert k v).erase k = m.erase k := by
  apply ext_get?
  intro j
  rw [get?_erase, get?_erase, get?_insert]
  split_ifs <;> rfl

theorem erase_of_not_mem {m : OrderedMap K V} {k : K} (h : k ∉ m.keys) : m.erase k = m := by
  apply ext_get?
  intro j
  rw [get?_erase]
  split_ifs with hj
  · rw [hj, Option.not_isSome_iff_eq_none.mp (mt (mem_keys_iff m k).mpr h)]
  · rfl

theorem erase_erase_self (m : OrderedMap K V) (k : K) : (m.erase k).erase k = m.erase k :=
  erase_of_not_mem fun h => ((mem_keys_erase m k k).mp h).1 rfl

theorem get?_foldl_insert_entries (m base : OrderedMap K V) (k : K) :
    (m.entries.foldl (fun b e => b.insert e.1 e.2) base).get? k = (m.get? k).or (base.get? k) := by
  obtain ⟨l, hsorted⟩ := m
  change _ = (lookup k l).or (base.get? k)
  dsimp only
  induction l generalizing base with
  | nil => rfl
  | cons e rest ih =>
    obtain ⟨hhead, hrest⟩ := List.pairwise_cons.mp hsorted
    rw [List.foldl_cons, ih _ hrest, lookup, get?_insert]
    by_cases hk : k = e.1
    · have hnone : lookup k rest = none := lookup_eq_none fun a ha heq =>
        (hhead a ha).ne (hk.symm.trans heq.symm)
      rw [hnone, if_pos hk, if_pos hk, Option.none_or, Option.some_or]
    · rw [if_neg hk, if_neg hk]

/-- What a function makes of the entries, which it may drop. -/
def filterMap {W : Type} (f : K → V → Option W) (m : OrderedMap K V) : OrderedMap K W where
  entries := m.entries.filterMap fun e => (f e.1 e.2).map fun w => (e.1, w)
  sorted := by
    refine m.sorted.filterMap _ fun a b hab x hx y hy => ?_
    obtain ⟨_, _, rfl⟩ := Option.map_eq_some_iff.mp hx
    obtain ⟨_, _, rfl⟩ := Option.map_eq_some_iff.mp hy
    exact hab

theorem get?_filterMap {W : Type} (f : K → V → Option W) (m : OrderedMap K V) (k : K) :
    (m.filterMap f).get? k = (m.get? k).bind (f k) := by
  have hiff (w : W) : (m.filterMap f).get? k = some w ↔ (m.get? k).bind (f k) = some w := by
    rw [← mem_entries_iff, Option.bind_eq_some_iff]
    constructor
    · intro h
      obtain ⟨⟨k', v⟩, he, hf⟩ := List.mem_filterMap.mp h
      obtain ⟨w', hw, heq⟩ := Option.map_eq_some_iff.mp hf
      obtain ⟨rfl, rfl⟩ := Prod.mk.inj heq
      exact ⟨v, (mem_entries_iff m _ v).mp he, hw⟩
    · rintro ⟨v, hv, hw⟩
      exact List.mem_filterMap.mpr ⟨(k, v), (mem_entries_iff m k v).mpr hv, by simp [hw]⟩
  exact Option.ext hiff

theorem entries_inj {a b : OrderedMap K V} : a.entries = b.entries ↔ ∀ k, a.get? k = b.get? k := by
  constructor
  · intro h k
    rw [get?, get?, h]
  · exact fun h => congrArg entries (ext_get? h)

def map {W : Type} (f : V → W) (m : OrderedMap K V) : OrderedMap K W :=
  m.filterMap fun _ v => some (f v)

@[simp] theorem get?_map {W : Type} (f : V → W) (m : OrderedMap K V) (k : K) :
    (m.map f).get? k = (m.get? k).map f := by
  rw [map, get?_filterMap]
  cases m.get? k <;> rfl

theorem entries_map {W : Type} (f : V → W) (m : OrderedMap K V) :
    (m.map f).entries = m.entries.map fun e => (e.1, f e.2) := by
  simp [map, filterMap]

theorem keys_map {W : Type} (f : V → W) (m : OrderedMap K V) : (m.map f).keys = m.keys := by
  rw [keys, entries_map, List.map_map]
  rfl

theorem keys_congr {W : Type} {a : OrderedMap K V} {b : OrderedMap K W}
    (h : ∀ k, (a.get? k).isSome = (b.get? k).isSome) : a.keys = b.keys := by
  have hunits : a.map (fun _ => ()) = b.map (fun _ => ()) := by
    refine ext_get? fun k => ?_
    have hk := h k
    rw [get?_map, get?_map]
    cases ha : a.get? k <;> cases hb : b.get? k <;> simp [ha, hb] at hk ⊢
  rw [← keys_map (fun _ => ()) a, hunits, keys_map]

/-- The part of a map inside a range of keys. -/
def within (m : OrderedMap K V) (inside : K → Bool) : OrderedMap K V :=
  m.filterMap fun k v => if inside k then some v else none

theorem get?_within (m : OrderedMap K V) (inside : K → Bool) (k : K) :
    (m.within inside).get? k = if inside k then m.get? k else none := by
  rw [within, get?_filterMap]
  cases inside k <;> cases m.get? k <;> rfl

theorem values_filterMap {W : Type} (f : K → V → Option W) (m : OrderedMap K V) :
    (m.filterMap f).values = m.entries.filterMap fun e => f e.1 e.2 := by
  simp only [values, filterMap, List.map_filterMap]
  congr 1
  funext e
  cases f e.1 e.2 <;> rfl

/-- The entries from the first key on that is not below `start`. -/
def lowerBound (m : OrderedMap K V) (start : K) : List (K × V) :=
  m.entries.dropWhile fun e => e.1 < start

/-- The keys before an excluded end. -/
def below (stop key : K) : Bool := key < stop

theorem below_of_lt {stop a b : K} (hab : a < b) (h : below stop b = true) :
    below stop a = true :=
  decide_eq_true (hab.trans (of_decide_eq_true h))

private theorem takeWhile_eq_filter {l : List (K × V)} (hs : l.Pairwise (fun a b => a.1 < b.1))
    {start : K} {inside : K → Bool} (hstart : ∀ e ∈ l, start ≤ e.1)
    (hconvex : ∀ a b, start ≤ a → a < b → inside b = true → inside a = true) :
    l.takeWhile (fun e => inside e.1) = l.filter (fun e => start ≤ e.1 ∧ inside e.1) := by
  induction l with
  | nil => rfl
  | cons e rest ih =>
    obtain ⟨hhead, htail⟩ := List.pairwise_cons.mp hs
    have he := hstart e List.mem_cons_self
    have hrest := ih htail fun x hx => hstart x (List.mem_cons_of_mem _ hx)
    cases hin : inside e.1 with
    | true => simp [hin, he, hrest]
    | false =>
      have hnone : ∀ x ∈ rest, ¬ (start ≤ x.1 ∧ inside x.1 = true) := by
        intro x hx hand
        rw [hconvex e.1 x.1 he (hhead x hx) hand.2] at hin
        cases hin
      simpa [List.takeWhile_cons, List.filter_cons, hin] using hnone

/-- Going through the entries from a lower bound on, as long as they are inside a convex range, is
taking those in the range. -/
theorem takeWhile_lowerBound (m : OrderedMap K V) {start : K} {inside : K → Bool}
    (hconvex : ∀ a b, start ≤ a → a < b → inside b = true → inside a = true) :
    (m.lowerBound start).takeWhile (fun e => inside e.1) =
      m.entries.filter (fun e => start ≤ e.1 ∧ inside e.1) := by
  obtain ⟨l, hs⟩ := m
  dsimp only [lowerBound]
  induction l with
  | nil => rfl
  | cons e rest ih =>
    obtain ⟨hhead, htail⟩ := List.pairwise_cons.mp hs
    by_cases hbefore : e.1 < start
    · simp [hbefore, not_le.mpr hbefore, ih htail]
    · rw [List.dropWhile_cons_of_neg (by simpa using hbefore)]
      refine takeWhile_eq_filter hs (fun x hx => ?_) hconvex
      rcases List.mem_cons.mp hx with rfl | hx
      · exact not_lt.mp hbefore
      · exact (not_lt.mp hbefore).trans (hhead x hx).le

/-- Counting the values that pass a test counts the keys whose value passes it. -/
theorem countP_values (m : OrderedMap K V) (q : V → Bool) (d : V) :
    m.values.countP q = (m.keys.toFinset.filter (fun k => q (m.getD k d) = true)).card := by
  have hvalues : m.values = m.keys.map (fun k => m.getD k d) := by
    unfold values keys
    rw [List.map_map]
    refine List.map_congr_left fun e he => ?_
    simp [getD, get?, lookup_of_mem m.sorted he]
  rw [hvalues, List.countP_map, List.countP_eq_length_filter,
    ← List.toFinset_card_of_nodup (m.keys_nodup.filter _), List.toFinset_filter]
  rfl

end OrderedMap
end MyEtcd.Library
