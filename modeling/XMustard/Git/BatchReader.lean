import Mathlib.Data.List.TakeWhile
import XMustard.Text.Bytes

/-!
# Reading objects in batches

The objects of a commit are read from one stream of responses, each a header line and, unless the
object is missing, its content and a newline. The stream comes in chunks that end anywhere.
-/

namespace Git

open List Text

/-- A reader with what it has of the current response: the header so far, or the number of bytes to
come and the content so far unless the object is skipped. -/
structure BatchReader where
  head : Bytes := []
  bodyLeft : Nat := 0
  body : Option Bytes := none
  done : List (Option Bytes) := []

/-- A decimal number with an optional plus sign that fits in 64 bits. -/
def parseUsize (s : Bytes) : Option Nat :=
  let s := if s.head? = some 43 then s.tail else s
  let n := s.foldl (fun n c => 10 * n + (c.toNat - 48)) 0
  if s ≠ [] ∧ s.all (fun c => 48 ≤ c ∧ c ≤ 57) ∧ n < 1 <<< 64 then some n else none

variable (cap : Nat)

namespace BatchReader

/-- Start on the response with this header. Only blobs of at most `cap` bytes are kept. -/
def start (header : Bytes) (r : BatchReader) : BatchReader :=
  match (header.splitOn 32).reverse with
  | size :: kind :: _ =>
    match parseUsize size with
    | some size =>
      { r with
        head := []
        bodyLeft := (size + 1) % (1 <<< 64)
        body := if kind = ascii "blob" ∧ size ≤ cap then some [] else none }
    | none => { r with head := [], done := r.done ++ [none] }
  | _ => { r with head := [], done := r.done ++ [none] }

/-- Take bytes of the content; the last of them is the newline after it. -/
def take (bytes : Bytes) (r : BatchReader) : BatchReader :=
  let body := r.body.map (· ++ bytes)
  if bytes.length < r.bodyLeft then { r with bodyLeft := r.bodyLeft - bytes.length, body := body }
  else { r with bodyLeft := 0, body := none, done := r.done ++ [body.map dropLast] }

/-- Read a chunk. An error comes with the objects read before it. -/
def feed (chunk : Bytes) (r : BatchReader) : Except (List (Option Bytes)) BatchReader :=
  if chunk = [] then .ok r
  else if 0 < r.bodyLeft then
    feed (chunk.drop (min r.bodyLeft chunk.length))
      (r.take (chunk.take (min r.bodyLeft chunk.length)))
  else
    match _hrest : chunk.dropWhile (· ≠ 10) with
    | [] =>
      if 4096 < r.head.length + chunk.length then .error r.done
      else .ok { r with head := r.head ++ chunk }
    | _ :: rest => feed rest (r.start cap (r.head ++ chunk.takeWhile (· ≠ 10)))
termination_by chunk.length
decreasing_by
  · have := length_pos_iff.2 ‹chunk ≠ []›
    rw [length_drop]
    omega
  · have := (dropWhile_suffix (· ≠ 10) (l := chunk)).length_le
    rwa [_hrest] at this

/-- Read a stream in chunks. -/
def read (chunks : List Bytes) : Except (List (Option Bytes)) (List (Option Bytes)) :=
  (chunks.foldlM (fun r chunk => feed cap chunk r) {}).map done

/-! ### Byte by byte -/

/-- Read one byte, without a bound for the header. -/
def step (r : BatchReader) (c : UInt8) : BatchReader :=
  if 0 < r.bodyLeft then r.take [c]
  else if c = 10 then r.start cap r.head
  else { r with head := r.head ++ [c] }

/-- No header so far is too long. -/
def settle (r : BatchReader) : Except (List (Option Bytes)) BatchReader :=
  if r.head.length ≤ 4096 then .ok r else .error r.done

variable {cap} {r : BatchReader} {l : Bytes}

lemma foldl_step_head (hr : r.bodyLeft = 0) (hl : 10 ∉ l) :
    l.foldl (step cap) r = { r with head := r.head ++ l } := by
  induction l generalizing r with
  | nil => simp
  | cons c l ih =>
    rw [mem_cons, not_or] at hl
    obtain ⟨hc, hl⟩ := hl
    rw [foldl_cons, step, if_neg hr.not_gt, if_neg (Ne.symm hc)]
    rw [ih (r := { r with head := r.head ++ [c] }) hr hl, append_assoc, singleton_append]

lemma foldl_step_body (hl : l ≠ []) (hr : l.length ≤ r.bodyLeft) :
    l.foldl (step cap) r = r.take l := by
  induction l generalizing r with
  | nil => exact absurd rfl hl
  | cons c l ih =>
    rw [length_cons] at hr
    rw [foldl_cons, step, if_pos (by omega)]
    rcases eq_or_ne l [] with rfl | hne
    · rfl
    · have := length_pos_iff.2 hne
      have htake : r.take [c]
          = { r with bodyLeft := r.bodyLeft - 1, body := r.body.map (· ++ [c]) } := by
        rw [BatchReader.take, length_singleton, if_pos (by omega)]
      rw [htake, ih hne (Nat.le_sub_of_add_le hr)]
      simp only [BatchReader.take, length_cons, Option.map_map]
      split_ifs <;> first | omega | simp [Function.comp_def, Nat.sub_sub, Nat.add_comm]

/-- A header is not too long, and empty while there is content to come. -/
structure Ready (r : BatchReader) : Prop where
  length : r.head.length ≤ 4096
  head : 0 < r.bodyLeft → r.head = []

lemma ready_new : Ready {} := ⟨Nat.zero_le _, fun _ => rfl⟩

lemma head_start (h : Bytes) : (r.start cap h).head = [] := by
  unfold start
  split <;> [split; skip] <;> rfl

lemma head_take : (r.take l).head = r.head := by
  unfold BatchReader.take
  split <;> rfl

/-- A chunk is read like its bytes, and the length of the last header is checked at its end. -/
lemma feed_eq (hr : r.Ready) : r.feed cap l = settle (l.foldl (step cap) r) := by
  fun_induction feed cap l r with
  | case1 r => exact (if_pos hr.length).symm
  | case2 chunk r hne hleft ih =>
    have hpos := length_pos_iff.2 hne
    conv_rhs => rw [← take_append_drop (min r.bodyLeft chunk.length) chunk, foldl_append]
    rw [foldl_step_body (r := r) (l := chunk.take _)
      (by rw [ne_eq, take_eq_nil_iff, not_or]; exact ⟨by omega, hne⟩)
      (by rw [length_take]; omega)]
    exact ih ⟨(congrArg length head_take).trans_le hr.length,
      fun _ => head_take.trans (hr.head hleft)⟩
  | case3 chunk r hne hleft hnone hlong =>
    have hline : 10 ∉ chunk := fun h => by simpa using dropWhile_eq_nil_iff.1 hnone 10 h
    rw [foldl_step_head (by omega) hline, settle, if_neg (by simpa using hlong)]
  | case4 chunk r hne hleft hnone hlong =>
    have hline : 10 ∉ chunk := fun h => by simpa using dropWhile_eq_nil_iff.1 hnone 10 h
    rw [foldl_step_head (by omega) hline, settle, if_pos (by simpa using hlong)]
  | case5 chunk r hne hleft c rest hrest ih =>
    have hc := head?_dropWhile_not (· ≠ 10) chunk
    rw [hrest] at hc
    obtain rfl : c = 10 := by simpa using hc
    have hline : 10 ∉ chunk.takeWhile (· ≠ 10) := fun h => by simpa using mem_takeWhile_imp h
    conv_rhs => rw [← takeWhile_append_dropWhile (p := (· ≠ 10)) (l := chunk), hrest,
      foldl_append, foldl_step_head (by omega) hline, foldl_cons, step, if_neg hleft, if_pos rfl]
    exact ih ⟨head_start _ ▸ Nat.zero_le _, fun _ => head_start _⟩

variable (cap l) in
/-- There is no header while there is content to come. -/
lemma head_foldl_step (hr : 0 < r.bodyLeft → r.head = [])
    (h : 0 < (l.foldl (step cap) r).bodyLeft) : (l.foldl (step cap) r).head = [] := by
  induction l generalizing r with
  | nil => exact hr h
  | cons c l ih =>
    refine ih (fun hleft => ?_) h
    unfold step at hleft ⊢
    split_ifs at hleft ⊢ with hbody hc
    · exact head_take.trans (hr hbody)
    · exact head_start _
    · exact absurd hleft hbody

/-- Chunks are read like their bytes if no header that is too long is ever completed. -/
lemma foldlM_feed {chunks : List Bytes} (hr : r.Ready) (h : ∀ p q, chunks.flatten = p ++ 10 :: q →
      (p.foldl (step cap) r).head.length ≤ 4096) :
    chunks.foldlM (fun r chunk => feed cap chunk r) r
      = settle (chunks.flatten.foldl (step cap) r) := by
  induction chunks generalizing r with
  | nil => exact (if_pos hr.length).symm
  | cons c chunks ih =>
    rw [foldlM_cons, feed_eq hr, flatten_cons, foldl_append]
    have hnext (p q) (hpq : chunks.flatten = p ++ 10 :: q) :=
      h (c ++ p) q (by rw [flatten_cons, hpq, append_assoc])
    simp only [foldl_append] at hnext
    have hhead := head_foldl_step cap c hr.head
    generalize c.foldl (step cap) r = t at *
    by_cases ht : t.head.length ≤ 4096
    · rw [settle, if_pos ht]
      exact ih ⟨ht, hhead⟩ hnext
    · -- the header stays too long: a newline in what follows would complete it
      have hleft : t.bodyLeft = 0 := by
        by_contra hne
        exact ht (hhead (Nat.pos_of_ne_zero hne) ▸ Nat.zero_le _)
      have hline : 10 ∉ chunks.flatten := fun hmem => by
        obtain ⟨p, q, hpq, hp⟩ := eq_append_cons_of_mem hmem
        have hle := hnext p q hpq
        rw [foldl_step_head hleft hp, length_append] at hle
        omega
      rw [foldl_step_head hleft hline, settle, settle, if_neg ht,
        if_neg fun hle => ht (by rw [length_append] at hle; omega)]
      rfl

/-- A header that is too long is noticed if a chunk ends before its newline, and not otherwise. -/
lemma read_cut {p : Bytes} (hlong : ¬(p.foldl (step cap) {}).head.length ≤ 4096) :
    read cap [p, [10]] ≠ read cap [p ++ [10]] := by
  have hleft : ¬0 < (p.foldl (step cap) {}).bodyLeft := fun hleft =>
    hlong ((congrArg length (head_foldl_step cap p (fun _ => rfl) hleft)).trans_le (Nat.zero_le _))
  rw [read, read, foldlM_cons, foldlM_cons, feed_eq ready_new, feed_eq ready_new, settle,
    if_neg hlong, foldl_concat, step, if_neg hleft, if_pos rfl, settle,
    if_pos ((congrArg length (head_start _)).trans_le (Nat.zero_le _))]
  rintro ⟨⟩

/-- The objects and the errors do not depend on the chunks exactly if no newline completes a header
that is too long. -/
theorem batches_read_alike_iff (cap : Nat) (s : Bytes) :
    (∀ t, t <+: s → ∀ chunks, chunks.flatten = t → read cap chunks = read cap [t])
      ↔ ∀ p, p ++ [10] <+: s → (p.foldl (step cap) {}).head.length ≤ 4096 := by
  constructor
  · intro h p hp
    by_contra hlong
    exact read_cut hlong (h _ hp [p, [10]] (by simp))
  · rintro h t ht chunks rfl
    have hwhole {cs : List Bytes} (hcs : cs.flatten = chunks.flatten) :
        cs.foldlM (fun r chunk => feed cap chunk r) {}
          = settle (chunks.flatten.foldl (step cap) {}) := by
      rw [← hcs] at ht ⊢
      exact foldlM_feed ready_new fun p q hpq =>
        h p (IsPrefix.trans ⟨q, by rw [hpq, append_assoc, singleton_append]⟩ ht)
    rw [read, read, hwhole rfl, hwhole (flatten_singleton ..)]

theorem batches_read_differently : ∃ header, read 0 [header, [10]] ≠ read 0 [header ++ [10]] := by
  refine ⟨replicate 4097 97, read_cut ?_⟩
  rw [foldl_step_head rfl fun h => absurd (eq_of_mem_replicate h) (by decide), length_append,
    length_replicate]
  decide

end BatchReader

end Git
