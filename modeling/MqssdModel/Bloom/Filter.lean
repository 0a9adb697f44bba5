import Mathlib

namespace MqssdModel.Bloom.Filter

def mod8 (a : UInt32) : UInt32 := a &&& 7

def div8 (a : UInt32) : UInt32 := a >>> 3

def rotl32 (x r : UInt32) : UInt32 := x <<< r ||| x >>> (32 - r)

def fmix32 (h : UInt32) : UInt32 :=
  let h := h ^^^ h >>> 16
  let h := h * 0x85ebca6b
  let h := h ^^^ h >>> 13
  let h := h * 0xc2b2ae35
  h ^^^ h >>> 16

def mixBlock (h₁ k₁ : UInt32) : UInt32 :=
  let k₁ := k₁ * 0xcc9e2d51
  let k₁ := rotl32 k₁ 15
  let k₁ := k₁ * 0x1b873593
  let h₁ := h₁ ^^^ k₁
  let h₁ := rotl32 h₁ 13
  h₁ * 5 + 0xe6546b64

/-- `MurmurHash3_x86_32` on the eight bytes of a key: two blocks and no tail. -/
def murmurHash3 (k : UInt64) (seed : UInt32) : UInt32 :=
  let h₁ := [k.toUInt32, (k >>> 32).toUInt32].foldl mixBlock seed
  fmix32 (h₁ ^^^ 8)

/-- The bytes of `n` in a field of `w` bytes, least significant byte first. -/
def littleEndian : ℕ → ℕ → List UInt8
  | 0, _ => []
  | w + 1, n => UInt8.ofNat n :: littleEndian w (n / 256)

/-- The members that the constructor sets once; `data` is the mapped file. -/
structure BloomFilter where
  data : List UInt8
  nmod : UInt64
  seeds : List UInt32
  mdlen : ℕ
  len : ℕ
  nmod_le : nmod ≤ 4294967295
  seeds_lt : seeds.length < 2 ^ 32

def metadata (nmod : UInt64) (seeds : List UInt32) : List UInt8 :=
  littleEndian 4 seeds.length ++ seeds.flatMap (fun s ↦ littleEndian 4 s.toNat) ++
    littleEndian 8 nmod.toNat

/-- The filter over a file that holds the metadata and then zeros. -/
def written (nmod : UInt64) (seeds : List UInt32) (hn : nmod ≤ 4294967295)
    (hs : seeds.length < 2 ^ 32) : BloomFilter where
  data := metadata nmod seeds ++ List.replicate (div8 nmod.toUInt32).toNat 0
  nmod := nmod
  seeds := seeds
  mdlen := (metadata nmod seeds).length
  len := (metadata nmod seeds ++ List.replicate (div8 nmod.toUInt32).toNat 0).length
  nmod_le := hn
  seeds_lt := hs

def filterBits (nbits : UInt64) : UInt64 := min 4294967295 ((nbits + 7) / 8 * 8)

theorem filterBits_le (nbits : UInt64) : filterBits nbits ≤ 4294967295 := by
  unfold filterBits
  exact Std.min_le_left

section Construction

-- `round(M_LN2 * nmod_ / nkeys)` and the output of the generator seeded with 1337
variable (optimal : UInt64 → UInt64 → UInt32) (gen : ℕ → UInt32)

def hashSeeds (nmod nkeys : UInt64) : List UInt32 :=
  let nhf := optimal nmod nkeys
  let nhf := if nhf = 0 then 1 else nhf
  (List.range nhf.toNat).map gen

theorem length_hashSeeds (nmod nkeys : UInt64) :
    (hashSeeds optimal gen nmod nkeys).length < 2 ^ 32 := by
  unfold hashSeeds
  rw [List.length_map, List.length_range]
  exact UInt32.toNat_lt _

def construct (nbits nkeys : UInt64) : Except String BloomFilter :=
  if nbits = 0 || nkeys = 0 then .error "nbits and nkeys must be positive"
  else .ok (written (filterBits nbits) (hashSeeds optimal gen (filterBits nbits) nkeys)
    (filterBits_le nbits) (length_hashSeeds optimal gen (filterBits nbits) nkeys))

end Construction

namespace BloomFilter

/-- A read outside the mapped file has no result. -/
def get (f : BloomFilter) (i : UInt64) : Option Bool := do
  let byte ← f.data[(div8 i.toUInt32).toNat + f.mdlen]?
  return byte >>> (7 - (mod8 i.toUInt32).toUInt8) &&& 1 = 1

def set (f : BloomFilter) (i : UInt64) (v : Bool) : Option BloomFilter := do
  let b ← f.get i
  if b != v then
    return { f with
      data := f.data.modify ((div8 i.toUInt32).toNat + f.mdlen)
        (· ^^^ 1 <<< (7 - (mod8 i.toUInt32).toUInt8)) }
  else return f

variable (murmur : UInt64 → UInt32 → UInt32)

/-- The remainder by a zero `nmod` has no result. -/
def hash (f : BloomFilter) (k : UInt64) (seed : UInt32) : Option UInt64 :=
  if f.nmod = 0 then none else some ((murmur k seed).toUInt64 % f.nmod)

def queryLoop (f : BloomFilter) (key : UInt64) : List UInt32 → Bool → Option Bool
  | [], out => some out
  | seed :: seeds, out =>
    if out then do
      let h ← f.hash murmur key seed
      let b ← f.get h
      queryLoop f key seeds (out && b)
    else some out

def query (f : BloomFilter) (key : UInt64) : Option Bool := f.queryLoop murmur key f.seeds true

def insertLoop (key : UInt64) : List UInt32 → BloomFilter → Option BloomFilter
  | [], f => some f
  | seed :: seeds, f => do
    let h ← f.hash murmur key seed
    let f ← f.set h true
    insertLoop key seeds f

def insert (f : BloomFilter) (key : UInt64) : Option BloomFilter :=
  insertLoop murmur key f.seeds f

def insertAll (f : BloomFilter) (keys : List UInt64) : Option BloomFilter :=
  keys.foldlM (insert murmur) f

end BloomFilter

end MqssdModel.Bloom.Filter
