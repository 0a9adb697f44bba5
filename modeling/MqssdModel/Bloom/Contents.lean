import MqssdModel.Bloom.Bounds
import MqssdModel.Data.PackedBits

namespace MqssdModel.Bloom.Contents

open Filter Bounds Data.PackedBits

variable {f : BloomFilter} {i : UInt64}

theorem toNat_shift (hi : i ≤ 4294967295) :
    7 - (mod8 i.toUInt32).toUInt8 = 7 - UInt8.ofNat (i.toNat % 8) := by
  have h : (mod8 i.toUInt32).toUInt8 = UInt8.ofNat (i.toNat % 8) := by
    rw [← UInt8.toNat_inj, UInt32.toNat_toUInt8, toNat_mod8, toNat_toUInt32 hi,
      UInt8.toNat_ofNat']
  rw [h]

theorem byte_eq (hi : i ≤ 4294967295) :
    (div8 i.toUInt32).toNat + f.mdlen = (8 * f.mdlen + i.toNat) / 8 := by
  rw [toNat_div8, toNat_toUInt32 hi]
  omega

/-- The filter's bit `i` is a bit of the file, counted from the end of the metadata. -/
theorem get_eq_bit (hi : i ≤ 4294967295) : f.get i = bit f.data (8 * f.mdlen + i.toNat) := by
  have hmod : i.toNat % 8 < 8 := Nat.mod_lt _ (by omega)
  have hs := toNat_seven_sub hmod
  rw [BloomFilter.get, byte_eq hi, toNat_shift hi, bit,
    show 7 - (8 * f.mdlen + i.toNat) % 8 = 7 - i.toNat % 8 by omega, ← hs]
  cases f.data[(8 * f.mdlen + i.toNat) / 8]? with
  | none => rfl
  | some b =>
    have h := testBit_shiftRight_and_one b (7 - UInt8.ofNat (i.toNat % 8)) (by omega)
    simp only [bind, Option.bind, pure, Option.map_some, Option.some.injEq]
    rw [Bool.eq_iff_iff, decide_eq_true_iff]
    exact h

theorem set_true (hi : i ≤ 4294967295) (hlt : 8 * f.mdlen + i.toNat < 8 * f.data.length) :
    f.set i true = some { f with data := raise f.data (8 * f.mdlen + i.toNat) } := by
  unfold BloomFilter.set raise
  rw [get_eq_bit hi, byte_eq hi, toNat_shift hi]
  cases hb : bit f.data (8 * f.mdlen + i.toNat) with
  | none =>
    have := bit_eq_none.mp hb
    omega
  | some b =>
    cases b with
    | false =>
      simp only [bind, Option.bind, pure, flipBit, if_true]
      rw [show (8 * f.mdlen + i.toNat) % 8 = i.toNat % 8 by omega]
      rfl
    | true => rfl

variable {murmur : UInt64 → UInt32 → UInt32}

/-- The bit of the file that `key` and `seed` are hashed to. -/
def position (murmur : UInt64 → UInt32 → UInt32) (f : BloomFilter) (key : UInt64)
    (seed : UInt32) : ℕ :=
  8 * f.mdlen + ((murmur key seed).toUInt64 % f.nmod).toNat

def positions (murmur : UInt64 → UInt32 → UInt32) (f : BloomFilter) (keys : List UInt64) :
    List ℕ :=
  keys.flatMap fun k ↦ f.seeds.map (position murmur f k)

def refill (f : BloomFilter) (bytes : List UInt8) : BloomFilter := { f with data := bytes }

/-- The filter has a byte for each of its bits. -/
structure Sized (f : BloomFilter) : Prop where
  pos : 0 < f.nmod
  room : 8 * f.mdlen + f.nmod.toNat ≤ 8 * f.data.length

theorem Sized.refill (h : Sized f) {bytes : List UInt8} (hb : bytes.length = f.data.length) :
    Sized (refill f bytes) :=
  ⟨h.pos, Nat.le_trans h.room (Nat.le_of_eq (by rw [← hb]; rfl))⟩

theorem Sized.insertLoop {key : UInt64} {seeds : List UInt32} (h : Sized f) :
    BloomFilter.insertLoop murmur key seeds f =
      some (Contents.refill f ((seeds.map (position murmur f key)).foldl raise f.data)) := by
  induction seeds generalizing f with
  | nil => rfl
  | cons s seeds ih =>
    have hh : f.hash murmur key s = _ := hash_of_pos h.pos key s
    have hlt := hash_lt hh
    have hlt' := UInt64.lt_iff_toNat_lt.mp hlt
    have hroom := h.room
    have hset := set_true (UInt64.le_of_lt (UInt64.lt_of_lt_of_le hlt f.nmod_le))
      (show 8 * f.mdlen + _ < 8 * f.data.length by omega)
    rw [BloomFilter.insertLoop, hh]
    simp only [bind, Option.bind, hset]
    exact ih (h.refill (length_raise (position murmur f key s)))

/-- All insertions together raise the bits at the positions of the keys. -/
theorem Sized.insertAll {keys : List UInt64} (h : Sized f) : f.insertAll murmur keys =
    some (Contents.refill f ((positions murmur f keys).foldl raise f.data)) := by
  induction keys generalizing f with
  | nil => rfl
  | cons k keys ih =>
    rw [BloomFilter.insertAll, List.foldlM_cons, BloomFilter.insert, h.insertLoop]
    refine (ih (h.refill (length_foldl_raise _))).trans ?_
    simp only [positions, List.flatMap_cons, List.foldl_append]
    rfl

theorem sized_written {nmod : UInt64} {seeds : List UInt32} {hn : nmod ≤ 4294967295}
    {hs : seeds.length < 2 ^ 32} (hpos : 0 < nmod) (hdvd : 8 ∣ nmod.toNat) :
    Sized (written nmod seeds hn hs) := by
  refine ⟨hpos, ?_⟩
  simp only [written, List.length_append, List.length_replicate, toNat_div8, toNat_toUInt32 hn]
  omega

theorem bit_written {nmod : UInt64} {seeds : List UInt32} {hn : nmod ≤ 4294967295}
    {hs : seeds.length < 2 ^ 32} (hdvd : 8 ∣ nmod.toNat) (hi : i < nmod) :
    bit (written nmod seeds hn hs).data (8 * (written nmod seeds hn hs).mdlen + i.toNat) =
      some false := by
  have hlt := UInt64.lt_iff_toNat_lt.mp hi
  unfold bit
  rw [show (8 * (written nmod seeds hn hs).mdlen + i.toNat) / 8 =
    (metadata nmod seeds).length + i.toNat / 8 by simp only [written]; omega]
  simp only [written]
  rw [List.getElem?_append_right (by omega), Nat.add_sub_cancel_left, List.getElem?_replicate,
    toNat_div8, toNat_toUInt32 hn, if_pos (by omega), Option.map_some]
  exact congrArg some (Nat.zero_testBit _)

/-- A bit is reported set as soon as one of the keys was hashed to it. -/
def Inserted (murmur : UInt64 → UInt32 → UInt32) (f : BloomFilter) (keys : List UInt64)
    (i : UInt64) : Prop :=
  ∃ k ∈ keys, ∃ s ∈ f.seeds, f.hash murmur k s = some i

instance (keys : List UInt64) : Decidable (Inserted murmur f keys i) :=
  inferInstanceAs (Decidable (∃ k ∈ keys, ∃ s ∈ f.seeds, f.hash murmur k s = some i))

theorem mem_positions {keys : List UInt64} (hpos : 0 < f.nmod) :
    8 * f.mdlen + i.toNat ∈ positions murmur f keys ↔ Inserted murmur f keys i := by
  simp only [positions, position, Inserted, List.mem_flatMap, List.mem_map, hash_of_pos hpos,
    Option.some.injEq]
  refine exists_congr fun k ↦ and_congr_right fun _ ↦ exists_congr fun s ↦
    and_congr_right fun _ ↦ ?_
  rw [Nat.add_left_cancel_iff, UInt64.toNat_inj]

theorem mdlen_le_of_mem {keys : List UInt64} {n : ℕ} (h : n ∈ positions murmur f keys) :
    8 * f.mdlen ≤ n := by
  simp only [positions, position, List.mem_flatMap, List.mem_map] at h
  obtain ⟨k, -, s, -, rfl⟩ := h
  omega

variable {f' : BloomFilter}

theorem queryLoop_eq {key : UInt64} {P : UInt64 → Bool} (hpos : 0 < f.nmod)
    (hget : ∀ i < f.nmod, f.get i = some (P i)) (seeds : List UInt32) (out : Bool) :
    f.queryLoop murmur key seeds out =
      some (out && seeds.all fun s ↦ P ((murmur key s).toUInt64 % f.nmod)) := by
  induction seeds generalizing out with
  | nil => simp [BloomFilter.queryLoop]
  | cons s seeds ih =>
    have hh : f.hash murmur key s = _ := hash_of_pos hpos key s
    rw [BloomFilter.queryLoop, hh]
    cases out with
    | false => rfl
    | true =>
      simp only [if_true, bind, Option.bind, hget _ (hash_lt hh), ih, List.all_cons,
        Bool.true_and]

section Written

variable {nmod : UInt64} {seeds : List UInt32} {hn : nmod ≤ 4294967295}
  {hs : seeds.length < 2 ^ 32}

theorem get_inserted (hpos : 0 < nmod) (hdvd : 8 ∣ nmod.toNat) (keys : List UInt64)
    (hi : i < nmod) :
    (refill (written nmod seeds hn hs) ((positions murmur (written nmod seeds hn hs) keys).foldl
      raise (written nmod seeds hn hs).data)).get i =
        some (decide (Inserted murmur (written nmod seeds hn hs) keys i)) := by
  have hsized : Sized (written nmod seeds hn hs) := sized_written hpos hdvd
  have hroom := hsized.room
  have hlt : i.toNat < (written nmod seeds hn hs).nmod.toNat := UInt64.lt_iff_toNat_lt.mp hi
  rw [get_eq_bit (UInt64.le_of_lt (UInt64.lt_of_lt_of_le hi hn))]
  change bit ((positions murmur (written nmod seeds hn hs) keys).foldl raise _)
    (8 * (written nmod seeds hn hs).mdlen + i.toNat) = _
  rw [bit_foldl_raise, bit_written hdvd hi]
  by_cases h : Inserted murmur (written nmod seeds hn hs) keys i
  · rw [if_pos ⟨(mem_positions hpos).mpr h, by omega⟩, decide_eq_true h]
  · rw [if_neg fun hc ↦ h ((mem_positions hpos).mp hc.1), decide_eq_false h]

theorem query_inserted (hpos : 0 < nmod) (hdvd : 8 ∣ nmod.toNat) (keys : List UInt64)
    (x : UInt64) :
    (refill (written nmod seeds hn hs) ((positions murmur (written nmod seeds hn hs) keys).foldl
      raise (written nmod seeds hn hs).data)).query murmur x =
        some (decide (∀ s ∈ seeds, ∃ i, (written nmod seeds hn hs).hash murmur x s = some i ∧
          Inserted murmur (written nmod seeds hn hs) keys i)) := by
  rw [BloomFilter.query, queryLoop_eq hpos fun i hi ↦ get_inserted hpos hdvd keys hi]
  rw [Bool.true_and, Option.some.injEq, Bool.eq_iff_iff, List.all_eq_true, decide_eq_true_iff]
  refine forall₂_congr fun s _ ↦ ?_
  rw [decide_eq_true_iff, hash_of_pos hpos]
  simp only [Option.some.injEq, exists_eq_left']
  rfl

end Written

/-- On a freshly written filter with a whole number of bytes, whatever the hash function does:
every sequence of insertions succeeds, a bit is set exactly if one of the keys was hashed to it,
a query tells whether all bits of its key are set, the bytes depend only on the set of keys and
those of the metadata stay. -/
theorem contents_exact (murmur : UInt64 → UInt32 → UInt32) (nmod : UInt64) (seeds : List UInt32)
    (hn : nmod ≤ 4294967295) (hs : seeds.length < 2 ^ 32) (hpos : 0 < nmod)
    (hdvd : 8 ∣ nmod.toNat) (keys : List UInt64) :
    ∃ f, (written nmod seeds hn hs).insertAll murmur keys = some f ∧
      (∀ i < nmod, f.get i = some (decide (Inserted murmur (written nmod seeds hn hs) keys i))) ∧
      (∀ x, f.query murmur x = some (decide
        (∀ s ∈ seeds, ∃ i, (written nmod seeds hn hs).hash murmur x s = some i ∧
          Inserted murmur (written nmod seeds hn hs) keys i))) ∧
      (∀ x ∈ keys, f.query murmur x = some true) ∧
      (∀ keys' : List UInt64, (∀ k, k ∈ keys' ↔ k ∈ keys) →
        (written nmod seeds hn hs).insertAll murmur keys' = some f) ∧
      f.data.take f.mdlen = metadata nmod seeds := by
  have hsized : Sized (written nmod seeds hn hs) := sized_written hpos hdvd
  refine ⟨_, hsized.insertAll, fun i hi ↦ get_inserted hpos hdvd keys hi,
    query_inserted hpos hdvd keys, ?_, ?_, ?_⟩
  · intro x hx
    rw [query_inserted hpos hdvd, decide_eq_true fun s hs' ↦ ?_]
    exact ⟨_, hash_of_pos hpos x s, x, hx, s, hs', hash_of_pos hpos x s⟩
  · intro keys' hkeys
    rw [hsized.insertAll]
    refine congrArg (fun bytes ↦ some (refill _ bytes)) (bit_ext fun n ↦ ?_)
    rw [bit_foldl_raise, bit_foldl_raise]
    simp only [positions, List.mem_flatMap, hkeys]
  · change List.take (written nmod seeds hn hs).mdlen
      ((positions murmur (written nmod seeds hn hs) keys).foldl raise _) = _
    rw [take_foldl_raise fun _ h ↦ mdlen_le_of_mem h]
    exact List.take_left

theorem contents_exact_collision :
    ∃ f, (written 8 [0, 1] (by decide) (by decide)).insertAll (fun k s ↦ k.toUInt32 + s) [3, 4] =
        some f ∧ f.query (fun k s ↦ k.toUInt32 + s) 3 = some true := by
  obtain ⟨f, hf, -, -, hq, -⟩ := contents_exact (fun k s ↦ k.toUInt32 + s) 8 [0, 1] (by decide)
    (by decide) (by decide) (by decide) [3, 4]
  exact ⟨f, hf, hq 3 (by decide)⟩

end MqssdModel.Bloom.Contents
