import MqssdModel.Bloom.Filter

namespace MqssdModel.Bloom.Bounds

open Filter

theorem toNat_div8 (a : UInt32) : (div8 a).toNat = a.toNat / 8 := by
  rw [div8, UInt32.toNat_shiftRight]
  exact Nat.shiftRight_eq_div_pow a.toNat 3

theorem toNat_mod8 (a : UInt32) : (mod8 a).toNat = a.toNat % 8 := by
  rw [mod8, UInt32.toNat_and]
  exact Nat.and_two_pow_sub_one_eq_mod a.toNat 3

theorem toNat_toUInt32 {i : UInt64} (hi : i ≤ 4294967295) : i.toUInt32.toNat = i.toNat := by
  rw [UInt64.toNat_toUInt32]
  refine Nat.mod_eq_of_lt ?_
  have h := UInt64.le_iff_toNat_le.mp hi
  change i.toNat ≤ 4294967295 at h
  omega

theorem toNat_filterBits (nbits : UInt64) :
    (filterBits nbits).toNat = min 4294967295 ((nbits.toNat + 7) % 2 ^ 64 / 8 * 8) := by
  have hn := nbits.toNat_lt
  have hround : ((nbits + 7) / 8 * 8).toNat = (nbits.toNat + 7) % 2 ^ 64 / 8 * 8 := by
    rw [UInt64.toNat_mul, UInt64.toNat_div, UInt64.toNat_add]
    change (nbits.toNat + 7) % 2 ^ 64 / 8 * 8 % 2 ^ 64 = _
    omega
  rw [← hround, Nat.min_def]
  change (if 4294967295 ≤ (nbits + 7) / 8 * 8 then _ else _ : UInt64).toNat = _
  by_cases h : 4294967295 ≤ (nbits + 7) / 8 * 8
  · rw [if_pos h]
    exact (if_pos (UInt64.le_iff_toNat_le.mp h)).symm
  · rw [if_neg h]
    exact (if_neg fun hc ↦ h (UInt64.le_iff_toNat_le.mpr hc)).symm

/-- The filter has a positive number of bits and every position lies in the written file. -/
def InBounds (murmur : UInt64 → UInt32 → UInt32) (f : BloomFilter) : Prop :=
  0 < f.nmod ∧ ∀ key seed, ∃ h, f.hash murmur key seed = some h ∧
    f.mdlen + (div8 h.toUInt32).toNat < f.len ∧ h.toNat < 8 * (div8 f.nmod.toUInt32).toNat

variable {murmur : UInt64 → UInt32 → UInt32} {nmod : UInt64} {seeds : List UInt32}
  {hn : nmod ≤ 4294967295} {hs : seeds.length < 2 ^ 32}

theorem len_written :
    (written nmod seeds hn hs).len = (written nmod seeds hn hs).mdlen + nmod.toNat / 8 := by
  simp only [written, List.length_append, List.length_replicate, toNat_div8, toNat_toUInt32 hn]

theorem hash_lt {f : BloomFilter} {key h : UInt64} {seed : UInt32}
    (hh : f.hash murmur key seed = some h) : h < f.nmod := by
  unfold BloomFilter.hash at hh
  split_ifs at hh with h0
  cases hh
  rw [UInt64.lt_iff_toNat_lt, UInt64.toNat_mod]
  refine Nat.mod_lt _ (Nat.pos_of_ne_zero fun hc ↦ h0 ?_)
  exact UInt64.toNat_inj.mp hc

theorem hash_of_pos {f : BloomFilter} (h : 0 < f.nmod) (key : UInt64) (seed : UInt32) :
    f.hash murmur key seed = some ((murmur key seed).toUInt64 % f.nmod) := by
  unfold BloomFilter.hash
  refine if_neg fun h0 ↦ ?_
  rw [h0] at h
  exact absurd h (by decide)

/-- Rounding up to whole bytes makes every position below `nmod` one of a written byte. -/
theorem inBounds_written (hpos : 0 < nmod) (hdvd : 8 ∣ nmod.toNat) :
    InBounds murmur (written nmod seeds hn hs) := by
  refine ⟨hpos, fun key seed ↦ ⟨_, hash_of_pos hpos key seed, ?_⟩⟩
  have hash : (written nmod seeds hn hs).hash murmur key seed = _ := hash_of_pos hpos key seed
  have hlt := hash_lt hash
  generalize (murmur key seed).toUInt64 % (written nmod seeds hn hs).nmod = h at hlt ⊢
  have hle : h ≤ 4294967295 := UInt64.le_of_lt (UInt64.lt_of_lt_of_le hlt hn)
  have hlt' : h.toNat < nmod.toNat := UInt64.lt_iff_toNat_lt.mp hlt
  change _ ∧ h.toNat < 8 * (div8 nmod.toUInt32).toNat
  rw [len_written, toNat_div8, toNat_div8, toNat_toUInt32 hle, toNat_toUInt32 hn]
  omega

variable {optimal : UInt64 → UInt64 → UInt32} {gen : ℕ → UInt32} {nbits nkeys : UInt64}

theorem construct_ok (hb : 0 < nbits) (hk : 0 < nkeys) :
    construct optimal gen nbits nkeys = .ok (written (filterBits nbits)
      (hashSeeds optimal gen (filterBits nbits) nkeys) (filterBits_le nbits)
      (length_hashSeeds optimal gen (filterBits nbits) nkeys)) := by
  unfold construct
  refine if_neg ?_
  have hb' : nbits ≠ 0 := fun h ↦ absurd (h ▸ hb) (by decide)
  have hk' : nkeys ≠ 0 := fun h ↦ absurd (h ▸ hk) (by decide)
  simp [hb', hk']

theorem murmurHash3_high : murmurHash3 0x56de0c0a00000000 0 = 0xfffffff8 := by decide

/-- `UINT32_MAX` bits fill whole bytes but for the last seven, and one of these is hashed to. -/
theorem not_inBounds_max {f : BloomFilter} (hmax : f.nmod = 4294967295) :
    ¬ InBounds murmurHash3 f := by
  rintro ⟨hpos, hall⟩
  obtain ⟨h, hh, -, hlt⟩ := hall 0x56de0c0a00000000 0
  rw [hash_of_pos hpos, murmurHash3_high, hmax] at hh
  cases hh
  rw [hmax] at hlt
  exact absurd hlt (by decide)

/-- Of the filters that the constructor accepts, those of at most `2 ^ 32 - 8` bits have all
their positions inside the file, for any hash function. A larger one has no bits at all, or
one of the positions that its hash function takes lies behind the end of the file. -/
theorem inBounds_iff {f : BloomFilter} (hb : 0 < nbits) (hk : 0 < nkeys)
    (hf : construct optimal gen nbits nkeys = .ok f) :
    (nbits.toNat ≤ 2 ^ 32 - 8 → ∀ murmur, InBounds murmur f) ∧
      (InBounds murmurHash3 f → nbits.toNat ≤ 2 ^ 32 - 8) := by
  rw [construct_ok hb hk] at hf
  cases hf
  have hlt := nbits.toNat_lt
  have hb' : 0 < nbits.toNat := UInt64.lt_iff_toNat_lt.mp hb
  have hbits := toNat_filterBits nbits
  constructor
  · intro h murmur
    have hsmall : (filterBits nbits).toNat = (nbits.toNat + 7) / 8 * 8 := by omega
    refine inBounds_written (UInt64.lt_iff_toNat_lt.mpr ?_) ?_
    · change 0 < (filterBits nbits).toNat
      omega
    · exact ⟨(nbits.toNat + 7) / 8, by omega⟩
  · intro hin
    by_contra hc
    have hpos : 0 < (filterBits nbits).toNat := UInt64.lt_iff_toNat_lt.mp hin.1
    refine not_inBounds_max (UInt64.toNat_inj.mp ?_) hin
    change (filterBits nbits).toNat = 4294967295
    omega

theorem inBounds_experiment : ∃ f, construct (fun _ _ ↦ 7) (fun _ ↦ 1337) 10000 1000 = .ok f ∧
    InBounds murmurHash3 f :=
  ⟨_, construct_ok (by decide) (by decide), (inBounds_iff (by decide) (by decide)
    (construct_ok (by decide) (by decide))).1 (by decide) murmurHash3⟩

/-- The sum `nbits + 7` wraps and leaves no bits; a count that is cut down to `UINT32_MAX` has
positions in a byte that is not written. -/
theorem not_inBounds_wrapped :
    (∀ optimal gen, ∃ f, construct optimal gen 18446744073709551615 1 = .ok f ∧ f.nmod = 0 ∧
      (∀ key seed, f.hash murmurHash3 key seed = none) ∧ ¬ InBounds murmurHash3 f) ∧
    ∀ optimal gen, ∃ f, construct optimal gen 4294967296 1 = .ok f ∧ f.nmod = 4294967295 ∧
      ¬ InBounds murmurHash3 f := by
  have hzero : filterBits 18446744073709551615 = 0 := by decide
  have hmax : filterBits 4294967296 = 4294967295 := by decide
  refine ⟨fun optimal gen ↦ ⟨_, construct_ok (by decide) (by decide), hzero,
    fun key seed ↦ if_pos hzero, ?_⟩,
    fun optimal gen ↦ ⟨_, construct_ok (by decide) (by decide), hmax, not_inBounds_max hmax⟩⟩
  rintro ⟨hpos, -⟩
  change 0 < filterBits 18446744073709551615 at hpos
  rw [hzero] at hpos
  exact absurd hpos (by decide)

end MqssdModel.Bloom.Bounds
