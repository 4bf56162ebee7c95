import Mathlib.Data.List.TakeWhile
import MyEtcd.Http.HttpServer

/-! Which request bodies arrive as they were sent.
The text is put together from C strings, so a zero is lost with what stands behind it in its chunk;
everything else arrives, however the text is cut into chunks. -/
namespace MyEtcd
open Library SimpleHttpServer

/-- A request with one content length. The target has the version behind it. -/
structure SentRequest where
  method : Bytes
  target : Bytes
  before : List (Bytes × Bytes)
  lengthName : Bytes
  blanks : Bytes
  digits : Bytes
  behind : Bytes
  after : List (Bytes × Bytes)
  body : Bytes
  method_wf : ∀ b ∈ method, b ≠ 0 ∧ b ≠ 10 ∧ b ≠ 13 ∧ b ≠ 58
  target_wf : ∀ b ∈ target, b ≠ 0 ∧ b ≠ 10 ∧ b ≠ 13
  headers_wf : ∀ h ∈ before ++ after, (∀ b ∈ h.1, b ≠ 0 ∧ b ≠ 10 ∧ b ≠ 13 ∧ b ≠ 58) ∧
    (∀ b ∈ h.2, b ≠ 0 ∧ b ≠ 10 ∧ b ≠ 13) ∧ isContentLength h.1 = false
  lengthName_wf : isContentLength lengthName = true
  blanks_wf : ∀ b ∈ blanks ++ behind, b = 32 ∨ b = 9
  digits_wf : digits ≠ [] ∧ (∀ b ∈ digits, isDigit b = true) ∧ digitsValue digits = body.length

namespace SentRequest

def headers (r : SentRequest) : List (Bytes × Bytes) :=
  r.before ++ (r.lengthName, r.blanks ++ r.digits ++ r.behind) :: r.after

def lines (r : SentRequest) : List Bytes :=
  (r.method ++ 32 :: r.target) :: r.headers.map fun h => h.1 ++ 58 :: h.2

def ended (lines : List Bytes) : Bytes := lines.flatMap fun line => line ++ [13, 10]

def head (r : SentRequest) : Bytes := ended r.lines ++ [13, 10]

def text (r : SentRequest) : Bytes := r.head ++ r.body

end SentRequest

/-- A request of at most 64 KiB, and how `recv` cuts it. -/
structure Transmission where
  request : SentRequest
  chunks : List Bytes
  whole : chunks.flatten = request.text
  sizes : ∀ chunk ∈ chunks, 1 ≤ chunk.length ∧ chunk.length ≤ 4095
  total : request.text.length ≤ 64 * 1024

namespace SimpleHttpServer

def IsLine (line : Bytes) : Prop := line ≠ [] ∧ ∀ b ∈ line, b ≠ 0 ∧ b ≠ 10 ∧ b ≠ 13

theorem getlines_append {delim : UInt8} {line : Bytes} (h : delim ∉ line) (rest : Bytes) :
    getlines delim (line ++ delim :: rest) = line :: getlines delim rest := by
  induction line with
  | nil => rw [List.nil_append, getlines, if_pos rfl]
  | cons b line ih =>
    have hb : b ≠ delim := fun heq => h (heq ▸ List.mem_cons_self)
    rw [List.cons_append, getlines, if_neg hb, ih fun hmem => h (List.mem_cons_of_mem _ hmem)]

theorem getlines_ended {lines : List Bytes} (h : ∀ line ∈ lines, IsLine line) (rest : Bytes) :
    getlines 10 (SentRequest.ended lines ++ rest) =
      (lines.map fun line => line ++ [13]) ++ getlines 10 rest := by
  induction lines with
  | nil => rfl
  | cons line lines ih =>
    have hline : 10 ∉ line ++ [13] := by
      intro hmem
      rcases List.mem_append.mp hmem with hmem | hmem
      · exact ((h line List.mem_cons_self).2 10 hmem).2.1 rfl
      · revert hmem
        decide
    have htext : SentRequest.ended (line :: lines) ++ rest =
        (line ++ [13]) ++ 10 :: (SentRequest.ended lines ++ rest) := by
      simp [SentRequest.ended]
    rw [htext, getlines_append hline, ih fun line hline => h line (List.mem_cons_of_mem _ hline)]
    rfl

/-- The header ends where the first line without anything in it is. -/
theorem cut_ended {lines : List Bytes} (hne : lines ≠ []) (h : ∀ line ∈ lines, IsLine line)
    (rest : Bytes) : ∃ front, cut crlf2 (SentRequest.ended lines ++ [13, 10] ++ rest) =
      some (front, rest) := by
  induction lines with
  | nil => exact absurd rfl hne
  | cons line lines ih =>
    have hline : 13 ∉ line := fun hmem => ((h line List.mem_cons_self).2 13 hmem).2.2 rfl
    have hskips (rest : Bytes) : Skips crlf2 line rest := skips_of_not_mem hline
    cases lines with
    | nil =>
      have htext : SentRequest.ended [line] ++ [13, 10] ++ rest = line ++ (crlf2 ++ rest) := by
        simp [SentRequest.ended, crlf2]
      have hself : cut crlf2 (crlf2 ++ rest) = some ([], rest) := cut_self (by decide) rest
      rw [htext, cut_skips (hskips _), hself]
      exact ⟨_, rfl⟩
    | cons next lines =>
      have hlines := fun line hline => h line (List.mem_cons_of_mem _ hline)
      obtain ⟨front, hfront⟩ := ih (List.cons_ne_nil _ _) hlines
      have htext : SentRequest.ended (line :: next :: lines) ++ [13, 10] ++ rest =
          line ++ ([13, 10] ++ (SentRequest.ended (next :: lines) ++ [13, 10] ++ rest)) := by
        simp [SentRequest.ended]
      have hend : Skips crlf2 [13, 10]
          (SentRequest.ended (next :: lines) ++ [13, 10] ++ rest) := by
        obtain ⟨b, tail, rfl⟩ := List.exists_cons_of_ne_nil (hlines next List.mem_cons_self).1
        have hb := ((hlines _ List.mem_cons_self).2 b List.mem_cons_self).2.2
        refine skips_cons.mpr ⟨fun hpat => hb ?_, skips_of_not_mem (by decide)⟩
        have hpat := (List.cons_prefix_cons.mp (List.cons_prefix_cons.mp hpat).2).2
        exact (List.cons_prefix_cons.mp hpat).1.symm
      rw [htext, cut_skips (hskips _), cut_skips hend, hfront]
      exact ⟨_, rfl⟩

theorem headerLine_ended {name value : Bytes} (hname : ∀ b ∈ name, b ≠ 58) :
    headerLine (name ++ 58 :: value ++ [13]) =
      some (name, value.dropWhile fun b => b = 32 ∨ b = 9) := by
  have hnot : 58 ∉ name := fun hmem => hname 58 hmem rfl
  rw [headerLine, chomp, if_pos List.getLast?_concat, List.dropLast_concat, cut_singleton hnot]
  rfl

/-- The text has no zero in it, so nothing is lost. -/
theorem cString_eq {chunk : Bytes} (h : 0 ∉ chunk) : cString chunk = chunk := by
  refine List.takeWhile_eq_self_iff.mpr fun b hb => ?_
  exact decide_eq_true fun heq => h (heq ▸ hb)

theorem not_mem_cString (chunk : Bytes) : 0 ∉ cString chunk := by
  intro hmem
  have hne := List.mem_takeWhile_imp (p := fun b : UInt8 => decide (b ≠ 0)) hmem
  revert hne
  decide

/-- What has been received never has a zero in it. -/
theorem not_mem_receiveHeader {acc : Bytes} (hacc : 0 ∉ acc) (total : Nat) (chunks : List Bytes) :
    0 ∉ (receiveHeader acc total chunks).1 := by
  induction chunks generalizing acc total with
  | nil => exact hacc
  | cons chunk rest ih =>
    have hnext : 0 ∉ acc ++ cString chunk := fun hmem =>
      (List.mem_append.mp hmem).elim hacc (not_mem_cString chunk)
    rw [receiveHeader]
    split_ifs
    · exact hacc
    · exact hnext
    · exact ih hnext _
    · exact hacc

theorem not_mem_receiveBody {acc : Bytes} (hacc : 0 ∉ acc) (headerEnd contentLength total : Nat)
    (chunks : List Bytes) : 0 ∉ receiveBody headerEnd contentLength acc total chunks := by
  induction chunks generalizing acc total with
  | nil => exact hacc
  | cons chunk rest ih =>
    rw [receiveBody]
    split_ifs
    · exact hacc
    · exact ih (fun hmem => (List.mem_append.mp hmem).elim hacc (not_mem_cString chunk)) _
    · exact hacc

theorem not_mem_body {raw : Bytes} (h : 0 ∉ raw) : 0 ∉ (parseRequest raw).body := by
  have hrest : 0 ∉ ((cut crlf2 raw).map Prod.snd).getD (raw.drop 3) := by
    cases hcut : cut crlf2 raw with
    | none => exact fun hmem => h (List.mem_of_mem_drop hmem)
    | some sides =>
      refine fun hmem => h ?_
      rw [cut_some hcut]
      exact List.mem_append_right _ hmem
  dsimp only [parseRequest]
  split_ifs
  · exact fun hmem => hrest (List.mem_of_mem_take hmem)
  · exact List.not_mem_nil

/-- No body that the handlers get has a zero in it. -/
theorem not_mem_handleClient {chunks : List Bytes} {request : HttpRequest}
    (h : handleClient chunks = some request) : 0 ∉ request.body := by
  obtain ⟨sides, -, rfl⟩ := Option.map_eq_some_iff.mp h
  exact not_mem_body (not_mem_receiveBody (not_mem_receiveHeader List.not_mem_nil _ _) _ _ _ _)

theorem cString_append {front : Bytes} (h : 0 ∉ front) (back : Bytes) :
    cString (front ++ back) = front ++ cString back :=
  List.takeWhile_append_of_pos fun _ hb => decide_eq_true fun heq => h (heq ▸ hb)

/-- Reading goes on until the head is complete. What has been read with its end may have lost zeros. -/
theorem receiveHeader_head {head body acc : Bytes} {total : Nat} {chunks : List Bytes}
    (htext : acc ++ chunks.flatten = head ++ body) (hzero : 0 ∉ head)
    (hfound : ∀ rest, ∃ front, cut crlf2 (head ++ rest) = some (front, rest))
    (hmissed : cut crlf2 acc = none) (hchunks : ∀ chunk ∈ chunks, chunk ≠ [])
    (htotal : total + chunks.flatten.length ≤ 64 * 1024) :
    ∃ more total' rest, receiveHeader acc total chunks = (head ++ more, total', rest) ∧
      (0 ∉ body → more ++ rest.flatten = body) ∧ (∀ chunk ∈ rest, chunk ≠ []) ∧
      total' + rest.flatten.length ≤ 64 * 1024 := by
  induction chunks generalizing acc total with
  | nil =>
    obtain ⟨front, hcut⟩ := hfound body
    rw [List.flatten_nil, List.append_nil] at htext
    rw [htext, hcut] at hmissed
    cases hmissed
  | cons chunk rest ih =>
    have hne := hchunks chunk List.mem_cons_self
    have hlength : 0 < chunk.length := List.length_pos_iff.mpr hne
    rw [List.flatten_cons, List.length_append] at htotal
    rw [List.flatten_cons, ← List.append_assoc] at htext
    have hrest := fun chunk hchunk => hchunks chunk (List.mem_cons_of_mem _ hchunk)
    rw [receiveHeader, if_pos (by omega), if_neg hne]
    obtain ⟨missing, hhead, hflat⟩ | ⟨more, hmore, hbody⟩ := List.append_eq_append_iff.mp htext
    · have hkept : cString chunk = chunk := by
        refine cString_eq fun hmem => hzero ?_
        rw [hhead]
        exact List.mem_append_left _ (List.mem_append_right _ hmem)
      rw [hkept]
      split_ifs with hcut
      · -- The end of the header is found at the end of the head, and nowhere else.
        obtain ⟨⟨front, back⟩, hcut⟩ := Option.isSome_iff_exists.mp hcut
        obtain ⟨front', hwhole⟩ := hfound []
        have hnone := cut_append hcut missing
        rw [← hhead, ← List.append_nil head, hwhole] at hnone
        have hnil := (Prod.mk.inj (Option.some.inj hnone)).2
        obtain rfl : missing = [] := (List.append_eq_nil_iff.mp hnil.symm).2
        refine ⟨[], total + chunk.length, rest, ?_, fun _ => hflat, hrest, by omega⟩
        rw [hhead, List.append_nil, List.append_nil]
      · exact ih htext (Option.not_isSome_iff_eq_none.mp hcut) hrest (by omega)
    · obtain ⟨front, hhead, hchunk⟩ | ⟨front, hacc, -⟩ := List.append_eq_append_iff.mp hmore
      · have hfront : 0 ∉ front := fun hmem => hzero (hhead ▸ List.mem_append_right _ hmem)
        obtain ⟨_, hcut⟩ := hfound (cString more)
        rw [hchunk, cString_append hfront, ← List.append_assoc, ← hhead, if_pos (hcut ▸ rfl)]
        refine ⟨_, _, rest, rfl, fun hnone => ?_, hrest, ?_⟩
        · rw [cString_eq fun hmem => hnone (hbody ▸ List.mem_append_left _ hmem), hbody]
        · rw [← hchunk]
          omega
      · obtain ⟨_, hcut⟩ := hfound front
        rw [hacc, hcut] at hmissed
        cases hmissed

theorem receiveBody_append (headerEnd contentLength : Nat) (str : Bytes) (total : Nat)
    (chunks : List Bytes) :
    ∃ more, receiveBody headerEnd contentLength str total chunks = str ++ more := by
  induction chunks generalizing str total with
  | nil => exact ⟨[], (List.append_nil _).symm⟩
  | cons chunk rest ih =>
    rw [receiveBody]
    split_ifs
    · exact ⟨[], (List.append_nil _).symm⟩
    · obtain ⟨more, hmore⟩ := ih (str ++ cString chunk) (total + chunk.length)
      exact ⟨cString chunk ++ more, by rw [hmore, List.append_assoc]⟩
    · exact ⟨[], (List.append_nil _).symm⟩

theorem receiveBody_whole {str : Bytes} {headerEnd contentLength total : Nat} {rest : List Bytes}
    (hzero : 0 ∉ rest.flatten) (hstr : headerEnd ≤ str.length)
    (hlength : (str ++ rest.flatten).length = headerEnd + contentLength)
    (hrest : ∀ chunk ∈ rest, chunk ≠ [])
    (htotal : total + rest.flatten.length ≤ 64 * 1024) :
    receiveBody headerEnd contentLength str total rest = str ++ rest.flatten := by
  induction rest generalizing str total with
  | nil => exact (List.append_nil _).symm
  | cons chunk rest ih =>
    have hne := hrest chunk List.mem_cons_self
    have hpos : 0 < chunk.length := List.length_pos_iff.mpr hne
    rw [List.flatten_cons] at hzero hlength htotal ⊢
    rw [← List.append_assoc] at hlength ⊢
    have hkept : cString chunk = chunk :=
      cString_eq fun hmem => hzero (List.mem_append_left _ hmem)
    simp only [List.length_append] at hlength htotal
    rw [receiveBody, if_pos (by omega), if_neg hne, hkept]
    refine ih (fun hmem => hzero (List.mem_append_right _ hmem)) ?_ ?_
      (fun chunk hchunk => hrest chunk (List.mem_cons_of_mem _ hchunk)) (by omega)
    · rw [List.length_append]
      omega
    · simp only [List.length_append]
      omega

theorem get?_foldl_headers {headers : List (Bytes × Bytes)} {name : Bytes}
    (h : ∀ e ∈ headers, e.1 ≠ name) (m : OrderedMap Bytes Bytes) :
    (headers.foldl (fun m e => m.insert e.1 e.2) m).get? name = m.get? name := by
  induction headers generalizing m with
  | nil => rfl
  | cons e headers ih =>
    rw [List.foldl_cons, ih fun e he => h e (List.mem_cons_of_mem _ he),
      OrderedMap.get?_insert_ne _ _ (Ne.symm (h e List.mem_cons_self))]

/-- With one content length among the headers, the order of their names does not matter. -/
theorem find?_headers {before after : List (Bytes × Bytes)} {name value : Bytes}
    (hname : isContentLength name = true)
    (h : ∀ e ∈ before ++ after, isContentLength e.1 = false) :
    ((before ++ (name, value) :: after).foldl (fun m e => m.insert e.1 e.2)
      (∅ : OrderedMap Bytes Bytes)).entries.find? (fun e => isContentLength e.1) =
      some (name, value) := by
  have hother {other : Bytes} (hother : isContentLength other = true) :
      ∀ e ∈ before ++ after, e.1 ≠ other := by
    rintro e he rfl
    rw [h e he] at hother
    cases hother
  have hget (other : Bytes) (hlength : isContentLength other = true) :
      ((before ++ (name, value) :: after).foldl (fun m e => m.insert e.1 e.2)
        (∅ : OrderedMap Bytes Bytes)).get? other = if other = name then some value else none := by
    rw [List.foldl_append, List.foldl_cons, get?_foldl_headers fun e he =>
      hother hlength e (List.mem_append_right _ he), OrderedMap.get?_insert]
    split_ifs
    · rfl
    · rw [get?_foldl_headers fun e he => hother hlength e (List.mem_append_left _ he)]
      rfl
  have hmem := (OrderedMap.mem_entries_iff _ name value).mpr ((hget name hname).trans (if_pos rfl))
  have hsome : (((before ++ (name, value) :: after).foldl (fun m e => m.insert e.1 e.2)
      (∅ : OrderedMap Bytes Bytes)).entries.find? fun e => isContentLength e.1).isSome :=
    List.find?_isSome.mpr ⟨(name, value), hmem, hname⟩
  obtain ⟨⟨other, found⟩, hfound⟩ := Option.isSome_iff_exists.mp hsome
  have hother := (OrderedMap.mem_entries_iff _ other found).mp (List.mem_of_find?_eq_some hfound)
  have hlength := List.find?_some (p := fun e : Bytes × Bytes => isContentLength e.1) hfound
  rw [hget other hlength] at hother
  obtain ⟨rfl, hvalue⟩ := Option.ite_none_right_eq_some.mp hother
  obtain rfl := Option.some.inj hvalue
  exact hfound

variable {r : SentRequest}

theorem wf_of_mem_headers {e : Bytes × Bytes} (h : e ∈ r.headers) :
    (∀ b ∈ e.1, b ≠ 0 ∧ b ≠ 10 ∧ b ≠ 13 ∧ b ≠ 58) ∧ ∀ b ∈ e.2, b ≠ 0 ∧ b ≠ 10 ∧ b ≠ 13 := by
  have hblank : ∀ b ∈ r.blanks ++ r.behind, b ≠ 0 ∧ b ≠ 10 ∧ b ≠ 13 := by
    intro b hb
    rcases r.blanks_wf b hb with rfl | rfl <;> decide
  rcases List.mem_append.mp h with h | h
  · have hwf := r.headers_wf e (List.mem_append_left _ h)
    exact ⟨hwf.1, hwf.2.1⟩
  · rcases List.mem_cons.mp h with rfl | h
    · refine ⟨fun b hb => ?_, fun b hb => ?_⟩
      · have hlower : tolower b ∈ ascii "content-length" := by
          rw [← of_decide_eq_true r.lengthName_wf]
          exact List.mem_map_of_mem hb
        refine ⟨?_, ?_, ?_, ?_⟩ <;> rintro rfl <;> revert hlower <;> decide
      · rcases List.mem_append.mp hb with hb | hb
        · rcases List.mem_append.mp hb with hb | hb
          · exact hblank b (List.mem_append_left _ hb)
          · have hdigit := r.digits_wf.2.1 b hb
            refine ⟨?_, ?_, ?_⟩ <;> rintro rfl <;> revert hdigit <;> decide
        · exact hblank b (List.mem_append_right _ hb)
    · have hwf := r.headers_wf e (List.mem_append_right _ h)
      exact ⟨hwf.1, hwf.2.1⟩

theorem isLine_of_mem_lines {line : Bytes} (h : line ∈ r.lines) : IsLine line := by
  rcases List.mem_cons.mp h with rfl | h
  · refine ⟨by simp, fun b hb => ?_⟩
    rcases List.mem_append.mp hb with hb | hb
    · have := r.method_wf b hb
      tauto
    · rcases List.mem_cons.mp hb with rfl | hb
      · decide
      · exact r.target_wf b hb
  · obtain ⟨e, he, rfl⟩ := List.mem_map.mp h
    obtain ⟨hname, hvalue⟩ := wf_of_mem_headers he
    refine ⟨by simp, fun b hb => ?_⟩
    rcases List.mem_append.mp hb with hb | hb
    · have := hname b hb
      tauto
    · rcases List.mem_cons.mp hb with rfl | hb
      · decide
      · exact hvalue b hb

theorem not_mem_head (r : SentRequest) : 0 ∉ r.head := by
  intro hmem
  rcases List.mem_append.mp hmem with hmem | hmem
  · obtain ⟨line, hline, hmem⟩ := List.mem_flatMap.mp hmem
    rcases List.mem_append.mp hmem with hmem | hmem
    · exact ((isLine_of_mem_lines hline).2 0 hmem).1 rfl
    · revert hmem
      decide
  · revert hmem
    decide

theorem cut_head (r : SentRequest) (rest : Bytes) :
    ∃ front, cut crlf2 (r.head ++ rest) = some (front, rest) :=
  cut_ended (List.cons_ne_nil _ _) (fun _ hline => isLine_of_mem_lines (r := r) hline) rest

theorem getlines_head (r : SentRequest) (rest : Bytes) : getlines 10 (r.head ++ rest) =
    (r.lines.map fun line => line ++ [13]) ++ [13] :: getlines 10 rest := by
  have hnot : (10 : UInt8) ∉ [13] := by decide
  rw [SentRequest.head, List.append_assoc,
    getlines_ended (fun line hline => isLine_of_mem_lines (r := r) hline)]
  exact congrArg _ (getlines_append hnot rest)

theorem value_digits (r : SentRequest) :
    ((r.blanks ++ r.digits ++ r.behind).dropWhile fun b => b = 32 ∨ b = 9) =
      r.digits ++ r.behind := by
  obtain ⟨b, more, hb⟩ := List.exists_cons_of_ne_nil r.digits_wf.1
  have hdigit : ¬ (b = 32 ∨ b = 9) := by
    have hb := r.digits_wf.2.1 b (hb ▸ List.mem_cons_self)
    rintro (rfl | rfl) <;> revert hb <;> decide
  rw [List.append_assoc, List.dropWhile_append_of_pos fun b hb =>
    decide_eq_true (r.blanks_wf b (List.mem_append_left _ hb)), hb, List.cons_append,
    List.dropWhile_cons_of_neg (by simpa using hdigit)]

theorem parseInt_length (r : SentRequest) :
    parseInt (r.digits ++ r.behind) = some (r.body.length : Int) := by
  obtain ⟨hne, hdigits, hvalue⟩ := r.digits_wf
  rw [parseInt_digits hdigits hne, hvalue]
  intro b hb
  rcases r.blanks_wf b (List.mem_append_right _ (List.mem_of_mem_head? hb)) with rfl | rfl <;> rfl

def trimmed (headers : List (Bytes × Bytes)) : List (Bytes × Bytes) :=
  headers.map fun h => (h.1, h.2.dropWhile fun b => b = 32 ∨ b = 9)

theorem filterMap_headers {headers : List (Bytes × Bytes)}
    (h : ∀ e ∈ headers, ∀ b ∈ e.1, b ≠ 58) :
    ((headers.map fun h => h.1 ++ 58 :: h.2).map fun line => line ++ [13]).filterMap headerLine =
      trimmed headers := by
  rw [List.map_map, List.filterMap_map, trimmed, ← List.filterMap_eq_map]
  exact List.filterMap_congr fun e he => headerLine_ended (h e he)

theorem trimmed_headers (r : SentRequest) : trimmed r.headers =
    trimmed r.before ++ (r.lengthName, r.digits ++ r.behind) :: trimmed r.after := by
  rw [SentRequest.headers, trimmed, List.map_append, List.map_cons, value_digits]
  rfl

theorem not_contentLength {e : Bytes × Bytes} (h : e ∈ trimmed r.before ++ trimmed r.after) :
    isContentLength e.1 = false := by
  rw [trimmed, trimmed, ← List.map_append] at h
  obtain ⟨e, he, rfl⟩ := List.mem_map.mp h
  exact (r.headers_wf e he).2.2

theorem requestLine_not_contentLength (r : SentRequest) {h : Bytes × Bytes}
    (hline : headerLine (r.method ++ 32 :: r.target ++ [13]) = some h) :
    isContentLength h.1 = false := by
  have hmethod : 58 ∉ r.method := fun hmem => (r.method_wf 58 hmem).2.2.2 rfl
  rw [headerLine, chomp, if_pos List.getLast?_concat, List.dropLast_concat] at hline
  obtain ⟨⟨u, v⟩, hcut, rfl⟩ := Option.map_eq_some_iff.mp hline
  obtain ⟨hnone, -⟩ | ⟨u', v', hsome, hsplit, -⟩ :=
    cut_singleton_cases 58 (r.method ++ 32 :: r.target)
  · rw [hnone] at hcut
    cases hcut
  · obtain ⟨rfl, rfl⟩ := Prod.mk.inj (Option.some.inj (hsome.symm.trans hcut))
    -- The colon stands behind the blank, which is in no content length.
    have hblank : 32 ∈ u' := by
      obtain ⟨more, hu, hmore⟩ | ⟨more, hu, hmore⟩ := List.append_eq_append_iff.mp hsplit
      · rw [hu]
        refine List.mem_append_right _ ?_
        cases more with
        | nil => exact absurd (List.cons.inj hmore).1 (by decide)
        | cons b more =>
          rw [← (List.cons.inj hmore).1]
          exact List.mem_cons_self
      · cases more with
        | nil => exact absurd (List.cons.inj hmore).1 (by decide)
        | cons b more =>
          rw [hu, ← (List.cons.inj hmore).1] at hmethod
          exact absurd (List.mem_append_right _ List.mem_cons_self) hmethod
    refine decide_eq_false fun heq => ?_
    have hlower : tolower 32 ∈ ascii "content-length" := by
      rw [← heq]
      exact List.mem_map_of_mem hblank
    revert hlower
    decide

theorem declaredLength_request (r : SentRequest) (h : r.body.length ≤ 64 * 1024) :
    declaredLength r.head = r.body.length := by
  have hlines := getlines_ended (fun line hline => isLine_of_mem_lines (r := r) hline) [13, 10]
  have hheaders := filterMap_headers fun e he b hb => ((wf_of_mem_headers (r := r) he).1 b hb).2.2.2
  have hlast : (getlines 10 [13, 10]).filterMap headerLine = [] := by decide
  have hfind : (trimmed r.headers).find? (fun h => isContentLength h.1) =
      some (r.lengthName, r.digits ++ r.behind) := by
    have hbefore : (trimmed r.before).find? (fun h => isContentLength h.1) = none :=
      List.find?_eq_none.mpr fun e he => by
        simpa using not_contentLength (r := r) (List.mem_append_left _ he)
    rw [trimmed_headers, List.find?_append, hbefore, Option.none_or,
      List.find?_cons_of_pos (p := fun h : Bytes × Bytes => isContentLength h.1) r.lengthName_wf]
  have hfound : (((getlines 10 r.head).filterMap headerLine).find?
      fun h => isContentLength h.1) = some (r.lengthName, r.digits ++ r.behind) := by
    rw [SentRequest.head, hlines, List.filterMap_append, hlast, List.append_nil, SentRequest.lines,
      List.map_cons]
    cases hline : headerLine (r.method ++ 32 :: r.target ++ [13]) with
    | none => rw [List.filterMap_cons_none hline, hheaders, hfind]
    | some first =>
      rw [List.filterMap_cons_some hline, hheaders, List.find?_cons_of_neg
        (by simp [requestLine_not_contentLength r hline]), hfind]
  have hvalue : stol (r.digits ++ r.behind) = some (r.body.length : Int) := by
    rw [stol, stoll, parseInt_length, Option.filter_some, if_pos (decide_eq_true ⟨by omega, by omega⟩)]
  rw [declaredLength, hfound]
  dsimp only
  rw [hvalue]
  dsimp only
  rw [if_neg (by omega), Int.toNat_natCast]

theorem parseHeaders_request (r : SentRequest) (rest : Bytes) :
    parseHeaders ((getlines 10 (r.head ++ rest)).drop 1) =
      (trimmed r.headers).foldl (fun headers h => headers.insert h.1 h.2) ∅ := by
  have hdrop : (getlines 10 (r.head ++ rest)).drop 1 =
      ((r.headers.map fun h => h.1 ++ 58 :: h.2).map fun line => line ++ [13]) ++
        [13] :: getlines 10 rest := by
    rw [getlines_head]
    rfl
  have htake : ((getlines 10 (r.head ++ rest)).drop 1).takeWhile
      (fun line => line ≠ [13] ∧ line ≠ []) =
      (r.headers.map fun h => h.1 ++ 58 :: h.2).map fun line => line ++ [13] := by
    rw [hdrop, List.takeWhile_append_of_pos, List.takeWhile_cons_of_neg (by decide),
      List.append_nil]
    intro line hline
    simp only [List.mem_map] at hline
    obtain ⟨-, ⟨e, -, rfl⟩, rfl⟩ := hline
    refine decide_eq_true ⟨fun heq => ?_, by simp⟩
    have hlength := congrArg List.length heq
    simp only [List.length_append, List.length_cons] at hlength
    omega
  have hheaders := filterMap_headers fun e he b hb => ((wf_of_mem_headers (r := r) he).1 b hb).2.2.2
  rw [parseHeaders, htake, hheaders]

theorem headerLength_request (r : SentRequest) (rest : Bytes) (h : r.body.length ≤ 64 * 1024) :
    headerLength (parseHeaders ((getlines 10 (r.head ++ rest)).drop 1)) = r.body.length := by
  have hvalue : stoi (r.digits ++ r.behind) = some (r.body.length : Int) := by
    rw [stoi, parseInt_length, Option.filter_some, if_pos (decide_eq_true ⟨by omega, by omega⟩)]
  rw [headerLength, parseHeaders_request, trimmed_headers,
    find?_headers r.lengthName_wf fun e he => not_contentLength he]
  dsimp only
  rw [hvalue, Option.getD_some]

theorem body_parseRequest (r : SentRequest) (h : r.body.length ≤ 64 * 1024) :
    (parseRequest r.text).body = r.body := by
  obtain ⟨front, hcut⟩ := cut_head r r.body
  dsimp only [parseRequest, SentRequest.text]
  rw [headerLength_request r _ h, hcut]
  split_ifs with hpos
  · exact List.take_of_length_le (by simp)
  · exact (List.length_eq_zero_iff.mp (by omega)).symm

end SimpleHttpServer

namespace Transmission

theorem length_body (t : Transmission) : t.request.body.length ≤ 64 * 1024 := by
  refine le_trans ?_ t.total
  rw [SentRequest.text, List.length_append]
  omega

/-- The parser gets the head as it was sent, and a body without zeros too. -/
theorem handleClient_head (t : Transmission) :
    ∃ rest, handleClient t.chunks = some (parseRequest (t.request.head ++ rest)) ∧
      (0 ∉ t.request.body → rest = t.request.body) := by
  have htotal : 0 + t.chunks.flatten.length ≤ 64 * 1024 := by
    rw [t.whole, Nat.zero_add]
    exact t.total
  have hwhole : [] ++ t.chunks.flatten = t.request.head ++ t.request.body := t.whole
  obtain ⟨more, total, chunks, hheader, hmore, hchunks, hlimit⟩ :=
    receiveHeader_head hwhole (not_mem_head _) (cut_head _) rfl
      (fun chunk hchunk => List.length_pos_iff.mp (t.sizes chunk hchunk).1) htotal
  obtain ⟨front, hcut⟩ := cut_head t.request more
  have hhead : front ++ crlf2 = t.request.head := List.append_cancel_right (cut_some hcut).symm
  have hlength : t.request.head.length = front.length + 4 := by rw [← hhead]; simp [crlf2]
  obtain ⟨rest, hbody⟩ := receiveBody_append t.request.head.length t.request.body.length
    (t.request.head ++ more) total chunks
  refine ⟨more ++ rest, ?_, fun hzero => ?_⟩
  · rw [handleClient, hheader]
    dsimp only
    rw [hcut, Option.map_some]
    dsimp only
    rw [← hlength, List.take_left, declaredLength_request _ t.length_body, hbody, List.append_assoc]
  · have hall := hmore hzero
    have hkept : receiveBody t.request.head.length t.request.body.length (t.request.head ++ more)
        total chunks = t.request.head ++ more ++ chunks.flatten := by
      refine receiveBody_whole ?_ ?_ ?_ hchunks hlimit
      · exact fun hmem => hzero (hall ▸ List.mem_append_right _ hmem)
      · rw [List.length_append]
        omega
      · rw [List.append_assoc, hall, List.length_append]
    rw [hkept] at hbody
    rw [← List.append_cancel_left hbody, hall]

/-- The body arrives as it was sent if and only if there is no zero in it, whatever the chunks. -/
theorem body_intact_iff (t : Transmission) :
    (handleClient t.chunks).map HttpRequest.body = some t.request.body ↔ 0 ∉ t.request.body := by
  constructor
  · intro h
    obtain ⟨request, hrequest, hbody⟩ := Option.map_eq_some_iff.mp h
    rw [← hbody]
    exact not_mem_handleClient hrequest
  · intro h
    obtain ⟨rest, hrequest, hrest⟩ := t.handleClient_head
    rw [hrequest, hrest h, Option.map_some]
    exact congrArg some (body_parseRequest _ t.length_body)

theorem forall_of_all {p : UInt8 → Prop} [DecidablePred p] {bytes : Bytes}
    (h : bytes.all (fun b => p b) = true) : ∀ b ∈ bytes, p b :=
  fun b hb => of_decide_eq_true (List.all_eq_true.mp h b hb)

/-- A value of three bytes, the second of them a zero. -/
def zeroRequest : SentRequest where
  method := ascii "PUT"
  target := ascii "/v3/kv/put?key=k HTTP/1.1"
  before := []
  lengthName := ascii "Content-Length"
  blanks := [32]
  digits := [51]
  behind := []
  after := []
  body := [97, 0, 98]
  method_wf := forall_of_all (by decide)
  target_wf := forall_of_all (by decide)
  headers_wf := by decide
  lengthName_wf := by decide
  blanks_wf := forall_of_all (by decide)
  digits_wf := ⟨by decide, forall_of_all (by decide), by decide⟩

/-- All of it in one chunk. -/
def zeroSent : Transmission where
  request := zeroRequest
  chunks := [zeroRequest.text]
  whole := rfl
  sizes := by decide
  total := by decide

/-- The value is not what the handler gets. -/
theorem zeroSent_cut_short :
    (handleClient zeroSent.chunks).map HttpRequest.body ≠ some zeroSent.request.body := by
  intro h
  obtain ⟨request, hrequest, hbody⟩ := Option.map_eq_some_iff.mp h
  refine not_mem_handleClient hrequest ?_
  rw [hbody]
  decide

end Transmission
end MyEtcd
