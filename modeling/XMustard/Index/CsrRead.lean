import XMustard.Index.Csr
import XMustard.Machine.Runs

/-! # What a read returns

Every block in the cache is the block of its file, whatever was read, evicted and purged before,
so a read through the cache returns what a read of the file returns. -/

namespace Index

open List

namespace Csr

open Program

variable {disk : Nat → List UInt8} {c : BlockCache} {file : List UInt8} {uid pos n : Nat}
  {map : List ((Nat × Nat) × CacheEntry)}

/-- Block `b` of a file; the last one may be short. -/
def blockOf (file : List UInt8) (b : Nat) : List UInt8 := (file.drop (b * BLOCK)).take BLOCK

/-- The cached blocks are those of the files; `disk` gives the bytes of each open file. -/
def Honest (disk : Nat → List UInt8) (c : BlockCache) : Prop :=
  ∀ e ∈ c.map, e.2.data = blockOf (disk e.1.1) e.1.2

lemma pread_block (file : List UInt8) (b : Nat) :
    pread file (b * BLOCK) (min BLOCK (file.length - b * BLOCK)) = .ok (blockOf file b) := by
  have hbound : min BLOCK (file.length - b * BLOCK) = 0 ∨
      b * BLOCK + min BLOCK (file.length - b * BLOCK) ≤ file.length := by omega
  rw [pread, if_pos hbound, blockOf]
  congr 1
  rcases Nat.le_total BLOCK (file.length - b * BLOCK) with hle | hle
  · rw [Nat.min_eq_left hle]
  · rw [Nat.min_eq_right hle, take_of_length_le (by simp),
      take_of_length_le (by rwa [length_drop])]

/-! ## The cache -/

lemma mem_evict {cap : Nat} {e : (Nat × Nat) × CacheEntry}
    (h : e ∈ BlockCache.evict cap map) : e ∈ map := by
  unfold BlockCache.evict at h
  split at h
  · split at h
    · exact (mem_filter.1 h).1
    · exact h
  · exact h

lemma Honest.insert {key : Nat × Nat} {used : Nat}
    (h : ∀ e ∈ map, e.2.data = blockOf (disk e.1.1) e.1.2) :
    ∀ e ∈ BlockCache.insert key ⟨blockOf (disk key.1) key.2, used⟩ map,
      e.2.data = blockOf (disk e.1.1) e.1.2 := by
  intro e he
  rcases mem_cons.1 he with rfl | he
  · rfl
  · exact h e (mem_filter.1 he).1

lemma get_spec (h : Honest disk c) (uid b : Nat) :
    ∃ c', BlockCache.get (uid, b)
        (pread (disk uid) (b * BLOCK) (min BLOCK ((disk uid).length - b * BLOCK))) c
      = (.ok (blockOf (disk uid) b), c') ∧ Honest disk c' := by
  rw [pread_block]
  unfold BlockCache.get
  cases hfind : c.map.find? (·.1 = (uid, b)) with
  | some e =>
    have hkey : e.1 = (uid, b) := by simpa using List.find?_some hfind
    have hdata : e.2.data = blockOf (disk uid) b := by
      rw [h e (mem_of_find?_eq_some hfind), hkey]
    simp only [hfind, hdata]
    exact ⟨_, rfl, Honest.insert h⟩
  | none =>
    simp only [hfind]
    exact ⟨_, rfl, Honest.insert fun e he => h e (mem_evict he)⟩

lemma Honest.purge (h : Honest disk c) (segment : Nat) : Honest disk (c.purge segment) :=
  fun e he => h e (mem_filter.1 he).1

/-! ## Reading through the cache -/

/-- The part of a block from `pos` on is the part of the file from there to the block's end. -/
lemma drop_blockOf (file : List UInt8) (pos : Nat) :
    (blockOf file (pos / BLOCK)).drop (pos % BLOCK)
      = (file.drop pos).take (BLOCK - pos % BLOCK) := by
  have hstart : pos / BLOCK * BLOCK + pos % BLOCK = pos := by
    rw [Nat.mul_comm]
    exact Nat.div_add_mod pos BLOCK
  rw [blockOf, drop_take, drop_drop, hstart]

lemma readBlocks_spec (h : Honest disk c) :
    ∃ c', readBlocks (disk uid) uid pos n c
      = (if n = 0 ∨ pos + n ≤ (disk uid).length then .ok (((disk uid).drop pos).take n)
        else .error "unexpected end of file", c') ∧ Honest disk c' := by
  induction n using Nat.strong_induction_on generalizing pos c with
  | _ n ih =>
    rw [readBlocks]
    by_cases hn : n = 0
    · refine ⟨c, ?_, h⟩
      simp [hn]
    rw [dif_neg hn]
    obtain ⟨c₁, hget, h₁⟩ := get_spec h uid (pos / BLOCK)
    rw [bind_apply_ok hget]
    have hskip : pos - pos / BLOCK * BLOCK = pos % BLOCK := by
      have := Nat.div_add_mod pos BLOCK
      rw [Nat.mul_comm] at this
      omega
    have hlt : pos % BLOCK < BLOCK := Nat.mod_lt _ (by decide)
    have hlen : (blockOf (disk uid) (pos / BLOCK)).length - pos % BLOCK
        = min (BLOCK - pos % BLOCK) ((disk uid).length - pos) := by
      rw [← length_drop, drop_blockOf, length_take, length_drop]
    simp only [hskip, hlen, drop_blockOf, take_take]
    generalize htake : min (min (BLOCK - pos % BLOCK) ((disk uid).length - pos)) n = take
    by_cases hzero : take = 0
    · -- the file ends here
      rw [dif_pos hzero]
      refine ⟨c₁, ?_, h₁⟩
      rw [throw_apply, if_neg]
      omega
    · rw [dif_neg hzero]
      obtain ⟨c₂, hrest, h₂⟩ := @ih (n - take) (by omega) c₁ (pos + take) h₁
      by_cases hend : n - take = 0 ∨ pos + take + (n - take) ≤ (disk uid).length
      · rw [if_pos hend] at hrest
        refine ⟨c₂, ?_, h₂⟩
        rw [bind_apply_ok hrest, pure_apply, if_pos (by omega), Nat.min_eq_left (by omega),
          ← drop_drop, ← take_add, Nat.add_sub_cancel' (by omega)]
      · rw [if_neg hend] at hrest
        refine ⟨c₂, ?_, h₂⟩
        rw [bind_apply_error hrest, if_neg (by omega)]

/-- The bytes that a storage holds. -/
def Bytes.contents : Bytes → List UInt8
  | .mem v => v
  | .file f _ => f

/-- A file-backed storage reads the file that its number names. -/
def Bytes.OnDisk (disk : Nat → List UInt8) : Bytes → Prop
  | .mem _ => True
  | .file f uid => disk uid = f

variable {b : Bytes} {off : Nat}

/-- A read leaves the cache honest. -/
lemma read_honest (hb : b.OnDisk disk) (h : Honest disk c) : Honest disk (b.read off n c).2 := by
  cases b with
  | mem v =>
    rw [Bytes.read]
    split <;> exact h
  | file f uid =>
    obtain rfl : disk uid = f := hb
    rw [Bytes.read]
    split
    · exact h
    · obtain ⟨c', hread, h'⟩ := @readBlocks_spec disk c uid off n h
      rw [hread]
      exact h'

/-- A read within the contents returns them. -/
lemma read_spec (hb : b.OnDisk disk) (h : Honest disk c) (hle : off + n ≤ b.contents.length) :
    ∃ c', b.read off n c = (.ok ((b.contents.drop off).take n), c') ∧ Honest disk c' := by
  cases b with
  | mem v =>
    refine ⟨c, ?_, h⟩
    rw [Bytes.read, if_pos (show off + n ≤ v.length from hle)]
    rfl
  | file f uid =>
    obtain rfl : disk uid = f := hb
    rw [Bytes.read]
    split
    · refine ⟨c, ?_, h⟩
      rw [pread, if_pos (.inr hle)]
      rfl
    · obtain ⟨c', hread, h'⟩ := readBlocks_spec h
      rw [if_pos (.inr hle)] at hread
      exact ⟨c', hread, h'⟩

/-! ## Any sequence of accesses -/

/-- What is done to the cache: a read of some segment, or a segment is dropped. -/
inductive Access
  | read (uid off n : Nat)
  | drop (uid : Nat)

def access (disk : Nat → List UInt8) (c : BlockCache) :
    Access → Except String (List UInt8) × BlockCache
  | .read uid off n => (Bytes.file (disk uid) uid).read off n c
  | .drop uid => (.ok [], c.purge uid)

/-- From an empty cache of any capacity, any sequence of accesses leaves an honest cache. -/
lemma honest_run (capBytes : Nat) (accesses : List Access) :
    Honest disk (Machine.run (access disk) (BlockCache.new capBytes) accesses) := by
  refine Machine.run_preserves ?_ (fun e he => ?_) accesses
  · intro c a h
    cases a with
    | read uid off n => exact read_honest rfl h
    | drop uid => exact h.purge uid
  · cases he

end Csr

end Index
