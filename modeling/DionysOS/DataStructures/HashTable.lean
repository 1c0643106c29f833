import DionysOS.DataStructures.SinglyLinkedListFamily

/-!
# The static hash table

The table of `hash_table.c` is an array of `HASH_TABLE_STATIC_POOL_SIZE` lists that share the node
pool. `Holds` says that its buckets form a family of lists with given contents, and the
operations are specified against those contents.

`hash` leaves a mixed key that equals the modulus as it is, so the index can be one past the end of
the table. The mixing is a bijection, so this happens for exactly one key, and
`hash_lt_of_pageAligned` shows that no page address is that key.
-/

namespace DionysOS.DataStructures.HashTable

open Foundation.LinkedChain Foundation.PartialMachine Function SinglyLinkedList Option

def HASH_TABLE_STATIC_POOL_SIZE : ℕ := 1500

/-- `struct static_hash_table`. Only the indices below `HASH_TABLE_STATIC_POOL_SIZE` belong to the
array `table`. -/
structure StaticHashTable where
  table : ℕ → SinglyLinkedList
  size : ℕ

/-- `key ^ (key >> shift)`. -/
def xorShift (shift : ℕ) (key : BitVec 64) : BitVec 64 := key ^^^ key >>> shift

/-- The mixing steps of `hash`. -/
def mix (key : BitVec 64) : BitVec 64 :=
  let key := xorShift 4 key
  let key := key * 0xBF58476D1CE4E5B9#64
  let key := xorShift 31 key
  let key := key * 0x94D049BB133111EB#64
  let key := xorShift 30 key
  let key := key * 0x9E3779B97F4A7C15#64
  xorShift 26 key

def hash (key modulus : ℕ) : ℕ :=
  let mixed := (mix (BitVec.ofNat 64 key)).toNat
  if mixed > modulus then mixed % modulus else mixed

/-- The first `rounds` terms of the inverse of `xorShift shift`. -/
def unshift (shift : ℕ) (mixed : BitVec 64) : ℕ → BitVec 64
  | 0 => 0
  | rounds + 1 => mixed ^^^ unshift shift mixed rounds >>> shift

theorem xor_unshift (shift : ℕ) (key : BitVec 64) (rounds : ℕ) :
    key ^^^ unshift shift (xorShift shift key) rounds = key >>> (rounds * shift) := by
  induction rounds with
  | zero => simp [unshift]
  | succ rounds ih =>
    calc key ^^^ unshift shift (xorShift shift key) (rounds + 1)
        = (key ^^^ unshift shift (xorShift shift key) rounds) >>> shift := by
          rw [unshift, BitVec.ushiftRight_xor_distrib, xorShift, ← BitVec.xor_assoc,
            ← BitVec.xor_assoc, BitVec.xor_self, BitVec.zero_xor]
      _ = key >>> ((rounds + 1) * shift) := by
          rw [ih, ← BitVec.shiftRight_add, Nat.succ_mul]

variable {key mixed factor inverse : BitVec 64}

theorem eq_unshift {shift : ℕ} (hmixed : xorShift shift key = mixed)
    (rounds : ℕ) (hrounds : 64 ≤ rounds * shift) : key = unshift shift mixed rounds := by
  have hxor := xor_unshift shift key rounds
  rw [hmixed, BitVec.ushiftRight_eq_zero hrounds] at hxor
  exact BitVec.xor_eq_zero_iff.mp hxor

theorem unshift_succ_xor_unshift (shift : ℕ) (mixed : BitVec 64) (rounds : ℕ) :
    unshift shift mixed (rounds + 1) ^^^ unshift shift mixed rounds =
      mixed >>> (rounds * shift) := by
  induction rounds with
  | zero => simp [unshift]
  | succ rounds ih =>
    calc unshift shift mixed (rounds + 1 + 1) ^^^ unshift shift mixed (rounds + 1)
        = (unshift shift mixed (rounds + 1) ^^^ unshift shift mixed rounds) >>> shift := by
          rw [unshift, unshift.eq_2 shift mixed rounds, BitVec.ushiftRight_xor_distrib]
          ext idx
          simp
          grind
      _ = mixed >>> ((rounds + 1) * shift) := by
          rw [ih, ← BitVec.shiftRight_add, Nat.succ_mul]

theorem xorShift_unshift (shift : ℕ) (mixed : BitVec 64) (rounds : ℕ)
    (hrounds : 64 ≤ rounds * shift) : xorShift shift (unshift shift mixed rounds) = mixed := by
  have hstable := unshift_succ_xor_unshift shift mixed rounds
  rw [BitVec.ushiftRight_eq_zero hrounds, BitVec.xor_eq_zero_iff, unshift] at hstable
  calc xorShift shift (unshift shift mixed rounds)
      = (mixed ^^^ unshift shift mixed rounds >>> shift) ^^^
          unshift shift mixed rounds >>> shift := by
        rw [hstable, xorShift]
    _ = mixed := by rw [BitVec.xor_assoc, BitVec.xor_self, BitVec.xor_zero]

theorem mul_mul_cancel (hinverse : factor * inverse = 1#64)
    (key : BitVec 64) : key * factor * inverse = key := by
  rw [BitVec.mul_assoc, hinverse, BitVec.mul_one]

theorem eq_mul_of_mul_eq {product : BitVec 64} (hproduct : key * factor = product)
    (hinverse : factor * inverse = 1#64) : key = product * inverse := by
  rw [← hproduct, mul_mul_cancel hinverse]

def unmix (mixed : BitVec 64) : BitVec 64 :=
  let key := unshift 26 mixed 3
  let key := key * 0xF1DE83E19937733D#64
  let key := unshift 30 key 3
  let key := key * 0x319642B2D24D8EC3#64
  let key := unshift 31 key 3
  let key := key * 0x96DE1B173F119089#64
  unshift 4 key 16

theorem eq_unmix (hmix : mix key = mixed) : key = unmix mixed := by
  have hmix := eq_unshift hmix 3 (by decide)
  have hmix := eq_mul_of_mul_eq hmix (show _ * 0xF1DE83E19937733D#64 = 1#64 by decide)
  have hmix := eq_unshift hmix 3 (by decide)
  have hmix := eq_mul_of_mul_eq hmix (show _ * 0x319642B2D24D8EC3#64 = 1#64 by decide)
  have hmix := eq_unshift hmix 3 (by decide)
  have hmix := eq_mul_of_mul_eq hmix (show _ * 0x96DE1B173F119089#64 = 1#64 by decide)
  exact eq_unshift hmix 16 (by decide)

theorem mix_unmix (mixed : BitVec 64) : mix (unmix mixed) = mixed := by
  rw [mix, unmix]
  simp only [xorShift_unshift _ _ 16 (show 64 ≤ 16 * 4 by decide),
    mul_mul_cancel (show 0x96DE1B173F119089#64 * 0xBF58476D1CE4E5B9#64 = 1#64 by decide),
    xorShift_unshift _ _ 3 (show 64 ≤ 3 * 31 by decide),
    mul_mul_cancel (show 0x319642B2D24D8EC3#64 * 0x94D049BB133111EB#64 = 1#64 by decide),
    xorShift_unshift _ _ 3 (show 64 ≤ 3 * 30 by decide),
    mul_mul_cancel (show 0xF1DE83E19937733D#64 * 0x9E3779B97F4A7C15#64 = 1#64 by decide),
    xorShift_unshift _ _ 3 (show 64 ≤ 3 * 26 by decide)]

theorem mix_eq_iff (key mixed : BitVec 64) : mix key = mixed ↔ key = unmix mixed :=
  ⟨eq_unmix, fun hkey ↦ hkey ▸ mix_unmix mixed⟩

/-- The index is in range for every key but one: the reduction is skipped for a mixed key that is
equal to the modulus. -/
theorem hash_lt_iff {modulus : BitVec 64} (hmodulus : 0 < modulus.toNat) :
    hash key.toNat modulus.toNat < modulus.toNat ↔ key ≠ unmix modulus := by
  rw [← not_iff_not, not_not, ← mix_eq_iff, hash, BitVec.ofNat_toNat, BitVec.setWidth_eq,
    ← BitVec.toNat_inj]
  split
  · have hlt := Nat.mod_lt (mix key).toNat hmodulus
    omega
  · omega

theorem hash_lt_of_pageAligned {addr : ℕ} (haligned : 4096 ∣ addr) :
    hash addr HASH_TABLE_STATIC_POOL_SIZE < HASH_TABLE_STATIC_POOL_SIZE := by
  have hbad : unmix 1500#64 = 0x216CA8846DBB3C70#64 := by decide +kernel
  have hne : BitVec.ofNat 64 addr ≠ unmix 1500#64 := by
    -- The bad key is no multiple of the page size.
    intro hkey
    have hmod : addr % 2 ^ 64 = 0x216CA8846DBB3C70 := by
      simpa [hbad] using congrArg BitVec.toNat hkey
    omega
  have hlt := (hash_lt_iff (by decide)).mpr hne
  rwa [hash, BitVec.ofNat_toNat, BitVec.setWidth_eq] at hlt

/-- `static_hash_table_init`. Whether the buckets are first copied from `hash_bucket_static_pool`
makes no difference, as each is initialised. -/
def staticHashTableInit (pool : List Ptr) (store : NodeStore) (table : StaticHashTable)
    (size : ℕ) : Option (NodeStore × StaticHashTable) :=
  (List.range size).foldlM (fun (store, table) index ↦ do
      let (store, list) ← SinglyLinkedList.init pool store false
      pure (store, { table with table := update table.table index list }))
    (store, { table with size := size })

/-- `static_hash_table_retrieve`: the bucket at `hashKey`, if there is one. -/
def staticHashTableRetrieve (table : StaticHashTable) (hashKey : ℕ) : Option SinglyLinkedList :=
  if hashKey < HASH_TABLE_STATIC_POOL_SIZE then some (table.table hashKey) else none

/-- Write back the bucket at `hashKey`. -/
def StaticHashTable.set (table : StaticHashTable) (hashKey : ℕ) (bucket : SinglyLinkedList) :
    StaticHashTable :=
  { table with table := update table.table hashKey bucket }

def staticHashTableInsert (store : NodeStore) (table : StaticHashTable) (key : ℕ)
    (data fresh : Ptr) : Option (NodeStore × StaticHashTable) := do
  let hashKey := hash key table.size
  let bucket ← staticHashTableRetrieve table hashKey
  let (store, bucket) ← insertHead store bucket data fresh
  pure (store, table.set hashKey bucket)

/-- The walk over a bucket, from `node` on, to the first data that passes `test`; `NULL` if there is
none. -/
def findData (nodes : NodeMemory) (test : Ptr → Bool) : ℕ → Ptr → Option Ptr
  | 0, _ => none
  | fuel + 1, node =>
      if node = NULL then some NULL
      else if test (nodes node).data then some (nodes node).data
      else findData nodes test fuel (nodes node).next

/-- `singly_linked_list_remove_node_by_address` on the bucket at `hashKey`. The loop over the
bucket visits at most `node_count` nodes. -/
def removeFromBucket (store : NodeStore) (table : StaticHashTable) (hashKey : ℕ) (data : Ptr) :
    Option (NodeStore × StaticHashTable × ℕ) := do
  let bucket ← staticHashTableRetrieve table hashKey
  let (store, bucket, status) ←
    removeNodeByAddress (bucket.nodeCount + 1) store bucket data
  pure (store, table.set hashKey bucket, status)

structure Holds (pool : List Ptr) (store : NodeStore) (table : StaticHashTable)
    (entries : ℕ → List Ptr) : Prop where
  size : table.size = HASH_TABLE_STATIC_POOL_SIZE
  buckets : ∃ cells free,
    Family pool store (· < HASH_TABLE_STATIC_POOL_SIZE) table.table cells free ∧
      ∀ index < HASH_TABLE_STATIC_POOL_SIZE, contents store.nodes (cells index) = entries index
  setup : store.staticPoolSetup = true

variable {pool : List Ptr} {store : NodeStore} {table : StaticHashTable} {entries : ℕ → List Ptr}
  {index idx : ℕ} {data fresh : Ptr}

theorem Holds.update (hholds : Holds pool store table entries)
    (hidx : idx < HASH_TABLE_STATIC_POOL_SIZE) (hfresh : fresh = NULL ∨ Fresh pool store fresh)
    (call : NodeStore → SinglyLinkedList → Option (NodeStore × SinglyLinkedList × ℕ))
    (status : ℕ) {expected : List Ptr}
    (hcall : ∀ cells free, Coherent pool store (table.table idx) cells free →
      contents store.nodes cells = entries idx →
      ∃ after list', call store (table.table idx) = some (after, list', status) ∧
        Becomes pool store cells free fresh after list' expected) :
    ∃ after list', call store (table.table idx) = some (after, list', status) ∧
      Holds pool after (table.set idx list') (Function.update entries idx expected) := by
  obtain ⟨cells, free, hfamily, hcontents⟩ := hholds.buckets
  obtain ⟨after, list', hres, cells', free', hcoh, hexpected, hconfined, -⟩ :=
    hcall (cells idx) free (hfamily.coherent idx hidx) (hcontents idx hidx)
  have hnew : ∀ other < HASH_TABLE_STATIC_POOL_SIZE, fresh ∉ cells other := by
    intro other hother
    have hcoh := hfamily.coherent other hother
    rcases hfresh with rfl | hfresh
    · exact hcoh.represents.nonnull
    · exact hcoh.fresh_notMem hfresh
  obtain ⟨hfamily', hothers⟩ := hfamily.update hidx hnew hcoh hconfined
    (Function.update table.table idx list') (update_self ..)
    (fun other hne ↦ update_of_ne hne ..)
  refine ⟨after, list', hres, hholds.size, ⟨_, free', hfamily', ?_⟩,
    hconfined.setup.trans hholds.setup⟩
  intro other hother
  by_cases hne : other = idx
  · subst hne
    simpa using hexpected
  · rw [update_of_ne hne, update_of_ne hne, hothers other hother hne]
    exact hcontents other hother

theorem staticHashTableInsert_spec (hholds : Holds pool store table entries) {key : ℕ}
    (hidx : hash key HASH_TABLE_STATIC_POOL_SIZE < HASH_TABLE_STATIC_POOL_SIZE)
    (hfresh : Fresh pool store fresh) (data : Ptr) :
    ∃ after table', staticHashTableInsert store table key data fresh = some (after, table') ∧
      Holds pool after table' (update entries (hash key HASH_TABLE_STATIC_POOL_SIZE)
        (data :: entries (hash key HASH_TABLE_STATIC_POOL_SIZE))) := by
  obtain ⟨after, list', hinsert, hafter⟩ := hholds.update hidx (.inr hfresh)
    (fun store list ↦ (insertHead store list data fresh).map
      fun (store, list) ↦ (store, list, 0)) 0 (fun cells free hcoh hcontents ↦ by
      obtain ⟨after, list', hinsert, hbecomes⟩ :=
        insertHead_spec hcoh hfresh data
      rw [hcontents] at hbecomes
      exact ⟨after, list', by simp [hinsert], hbecomes.mono fun _ _ _ ↦ trivial⟩)
  refine ⟨after, _, ?_, hafter⟩
  obtain ⟨⟨store', bucket'⟩, hinsert, heq⟩ := map_eq_some_iff.mp hinsert
  cases heq
  simp [staticHashTableInsert, hholds.size, staticHashTableRetrieve, hidx, hinsert]

theorem findData_of_segment {nodes : NodeMemory} (test : Ptr → Bool) {cells : List Ptr} :
    ∀ {node : Ptr} (fuel : ℕ), Segment (nextOf nodes) node cells NULL → NULL ∉ cells →
      cells.length < fuel →
      findData nodes test fuel node = some (((contents nodes cells).find? test).getD NULL) := by
  induction cells with
  | nil =>
    intro node fuel hseg _ hfuel
    obtain ⟨fuel, rfl⟩ : ∃ k, fuel = k + 1 := ⟨fuel - 1, by omega⟩
    simp [findData, show node = NULL from hseg, contents]
  | cons cell rest ih =>
    intro node fuel hseg hne hfuel
    obtain ⟨fuel, rfl⟩ : ∃ k, fuel = k + 1 := ⟨fuel - 1, by omega⟩
    obtain ⟨rfl, hrest⟩ := hseg
    simp only [List.mem_cons, not_or] at hne
    simp only [List.length_cons] at hfuel
    rw [findData, if_neg (Ne.symm hne.1)]
    by_cases htest : test (nodes node).data = true
    · simp [htest, contents]
    · have hloop := ih fuel hrest hne.2 (by omega)
      rw [if_neg htest, show (nodes node).next = nextOf nodes node from rfl, hloop]
      simp [contents, htest]

theorem Holds.findData (hholds : Holds pool store table entries)
    (hidx : idx < HASH_TABLE_STATIC_POOL_SIZE) (test : Ptr → Bool) :
    HashTable.findData store.nodes test ((table.table idx).nodeCount + 1)
      (table.table idx).head = some (((entries idx).find? test).getD NULL) := by
  obtain ⟨cells, free, hfamily, hcontents⟩ := hholds.buckets
  have hrep := (hfamily.coherent idx hidx).represents
  rw [findData_of_segment test _ hrep.segment hrep.nonnull
    (by rw [hrep.count]; exact Nat.lt_succ_self _), hcontents idx hidx]

/-- The removal looks at no stale tail: a bucket of two nodes whose first holds `data` has its
second node as tail. -/
def BucketTailUsable (store : NodeStore) (table : StaticHashTable) (hashKey : ℕ) (data : Ptr) :
    Prop :=
  (table.table hashKey).nodeCount = 2 → (store.nodes (table.table hashKey).head).data = data →
    (table.table hashKey).tail = (store.nodes (table.table hashKey).head).next

instance (store : NodeStore) (table : StaticHashTable) (hashKey : ℕ) (data : Ptr) :
    Decidable (BucketTailUsable store table hashKey data) :=
  inferInstanceAs (Decidable (_ → _ → _))

theorem removeFromBucket_spec (hholds : Holds pool store table entries)
    (hidx : idx < HASH_TABLE_STATIC_POOL_SIZE) (hpresent : data ∈ entries idx)
    (htail : BucketTailUsable store table idx data) :
    ∃ after table', removeFromBucket store table idx data = some (after, table', KERN_SUCCESS) ∧
      Holds pool after table' (update entries idx ((entries idx).erase data)) := by
  obtain ⟨after, list', hremove, hafter⟩ := hholds.update hidx (.inl rfl)
    (fun store list ↦ removeNodeByAddress
      ((table.table idx).nodeCount + 1) store list data) KERN_SUCCESS
    (fun cells free hcoh hcontents ↦ by
      have hcount := hcoh.represents.count
      have hnonempty : cells ≠ [] := by
        rintro rfl
        rw [← hcontents] at hpresent
        cases hpresent
      have hlast : cells.length = 2 → (contents store.nodes cells).head? = some data →
          TailLast (table.table idx) cells := by
        intro htwo hhead
        obtain ⟨first, second, rfl⟩ := List.length_eq_two.mp htwo
        obtain ⟨hfirst, hsecond, -⟩ := hcoh.represents.segment
        have hdata : (store.nodes first).data = data := by simpa [contents] using hhead
        rw [← hfirst] at hdata
        have husable := htail (hcount.trans htwo) hdata
        rw [hfirst, show (store.nodes first).next = second from hsecond] at husable
        exact .inr (by simp [husable])
      obtain ⟨after, list', hremove, hbecomes⟩ := removeNodeByAddress_spec
        hcoh hnonempty data hlast
        (show cells.length < (table.table idx).nodeCount + 1 by omega) NULL
      rw [hcontents] at hremove hbecomes
      rw [if_pos hpresent] at hremove
      exact ⟨after, list', hremove, hbecomes⟩)
  refine ⟨after, _, ?_, hafter⟩
  simp [removeFromBucket, staticHashTableRetrieve, hidx, hremove]

theorem staticHashTableInit_eq (hsetup : store.staticPoolSetup = true) (size : ℕ) :
    staticHashTableInit pool store table size =
      some (store, ⟨fun idx ↦ if idx < size then ⟨NULL, NULL, 0, false⟩ else table.table idx,
        size⟩) := by
  -- Induction on the number of buckets done, for any size written beforehand.
  have hloop : ∀ done, (List.range done).foldlM (fun (store, table) idx ↦ do
        let (store, list) ← init pool store false
        pure (store, { table with table := update table.table idx list }))
      (store, { table with size := size }) =
      some (store, (⟨fun idx ↦ if idx < done then ⟨NULL, NULL, 0, false⟩
        else table.table idx, size⟩ : StaticHashTable)) := by
    intro done
    induction done with
    | zero => rfl
    | succ done ih =>
      rw [List.range_succ, List.foldlM_append, ih]
      simp only [List.foldlM_cons, List.foldlM_nil, bind_eq_bind, bind_some,
        init_of_setup hsetup, pure_def, some.injEq, Prod.mk.injEq,
        true_and, StaticHashTable.mk.injEq, and_true]
      funext idx
      by_cases hidx : idx = done
      · simp [hidx]
      · simp only [update_of_ne hidx, show idx < done + 1 ↔ idx < done by omega]
  exact hloop size

theorem staticHashTableInit_spec {free : List Ptr} (hpooled : Pooled pool store free)
    (hsetup : store.staticPoolSetup = true) (table : StaticHashTable) :
    ∃ table', staticHashTableInit pool store table HASH_TABLE_STATIC_POOL_SIZE =
        some (store, table') ∧ Holds pool store table' (fun _ ↦ []) := by
  refine ⟨_, staticHashTableInit_eq hsetup _, rfl, ⟨fun _ ↦ [], free, ⟨hpooled, ?_, ?_⟩, ?_⟩,
    hsetup⟩
  · intro idx hidx
    simp only [if_pos hidx]
    exact ⟨hpooled, ⟨rfl, by simp, rfl⟩, rfl, by simp, by simp⟩
  · simp
  · intro idx hidx
    rfl

section Runs

/-- Data that know their keys are inserted, found and taken out, as `pmm.c` does with blocks. -/
inductive Operation where
  | insert (data fresh : Ptr)
  | find (key : ℕ)
  | remove (key : ℕ)

abbrev bucketOf (key : ℕ) : ℕ := hash key HASH_TABLE_STATIC_POOL_SIZE

/-- The walk over the bucket of a key. -/
def lookup (keyOf : Ptr → ℕ) (state : NodeStore × StaticHashTable) (key : ℕ) : Option Ptr := do
  let bucket ← staticHashTableRetrieve state.2 (bucketOf key)
  findData state.1.nodes (keyOf · == key) (bucket.nodeCount + 1) bucket.head

def step (keyOf : Ptr → ℕ) (state : NodeStore × StaticHashTable) :
    Operation → Option ((NodeStore × StaticHashTable) × Ptr)
  | .insert data fresh =>
      (staticHashTableInsert state.1 state.2 (keyOf data) data fresh).map (·, NULL)
  | .find key => (lookup keyOf state key).map (state, ·)
  | .remove key => do
      let data ← lookup keyOf state key
      if data = NULL then pure (state, NULL)
      else
        let (store, table, _) ← removeFromBucket state.1 state.2 (bucketOf key) data
        pure ((store, table), data)

def found (keyOf : Ptr → ℕ) (held : List Ptr) (key : ℕ) : Ptr :=
  (held.find? (keyOf · == key)).getD NULL

/-- The same calls on a list of data. -/
def listStep (keyOf : Ptr → ℕ) (held : List Ptr) : Operation → List Ptr × Ptr
  | .insert data _ => (data :: held, NULL)
  | .find key => (held, found keyOf held key)
  | .remove key => (held.erase (found keyOf held key), found keyOf held key)

/-- The index is in range, and a call of the list looks at no stale tail. -/
def Admissible (keyOf : Ptr → ℕ) (pool : List Ptr) (state : NodeStore × StaticHashTable) :
    Operation → Prop
  | .insert data fresh => bucketOf (keyOf data) < HASH_TABLE_STATIC_POOL_SIZE ∧ data ≠ NULL ∧
      Fresh pool state.1 fresh
  | .find key => bucketOf key < HASH_TABLE_STATIC_POOL_SIZE
  | .remove key => bucketOf key < HASH_TABLE_STATIC_POOL_SIZE ∧
      ∀ data ∈ lookup keyOf state key, BucketTailUsable state.1 state.2 (bucketOf key) data

instance (keyOf : Ptr → ℕ) (pool : List Ptr) (state : NodeStore × StaticHashTable) :
    DecidablePred (Admissible keyOf pool state)
  | .insert .. => instDecidableAnd
  | .find _ => Nat.decLt ..
  | .remove _ => instDecidableAnd

/-- Each bucket has the data whose keys are hashed to it. -/
def bucketed (keyOf : Ptr → ℕ) (held : List Ptr) (index : ℕ) : List Ptr :=
  held.filter fun data ↦ bucketOf (keyOf data) == index

def Related (keyOf : Ptr → ℕ) (pool : List Ptr) (state : NodeStore × StaticHashTable)
    (held : List Ptr) : Prop :=
  NULL ∉ held ∧ Holds pool state.1 state.2 (bucketed keyOf held)

variable {keyOf : Ptr → ℕ} {held : List Ptr} {key : ℕ} {state : NodeStore × StaticHashTable}

theorem Related.lookup_eq (hrelated : Related keyOf pool state held)
    (hidx : bucketOf key < HASH_TABLE_STATIC_POOL_SIZE) :
    lookup keyOf state key = some (found keyOf held key) := by
  simp only [lookup, staticHashTableRetrieve, if_pos hidx, bind_eq_bind, bind_some,
    hrelated.2.findData hidx, bucketed, List.find?_filter, found]
  congr 3
  funext data
  by_cases hkey : keyOf data = key
  · simp [hkey]
  · simp [hkey]

theorem bucketed_cons (keyOf : Ptr → ℕ) (held : List Ptr) (data : Ptr) :
    bucketed keyOf (data :: held) = update (bucketed keyOf held) (bucketOf (keyOf data))
      (data :: bucketed keyOf held (bucketOf (keyOf data))) := by
  funext idx
  by_cases hidx : idx = bucketOf (keyOf data)
  · simp [hidx, bucketed]
  · simp [hidx, bucketed, Ne.symm hidx]

theorem bucketed_erase (keyOf : Ptr → ℕ) (held : List Ptr) (data : Ptr) :
    bucketed keyOf (held.erase data) = update (bucketed keyOf held) (bucketOf (keyOf data))
      ((bucketed keyOf held (bucketOf (keyOf data))).erase data) := by
  funext idx
  rw [bucketed, ← List.erase_filter]
  by_cases hidx : idx = bucketOf (keyOf data)
  · simp [hidx, bucketed]
  · rw [update_of_ne hidx]
    exact List.erase_of_not_mem (by simp [Ne.symm hidx])

theorem Related.step {operation : Operation} (hrelated : Related keyOf pool state held)
    (hadmissible : Admissible keyOf pool state operation) :
    ∃ next, step keyOf state operation = some (next, (listStep keyOf held operation).2) ∧
      Related keyOf pool next (listStep keyOf held operation).1 := by
  obtain ⟨hnull, hholds⟩ := hrelated
  cases operation with
  | insert data fresh =>
    obtain ⟨hidx, hne, hfresh⟩ := hadmissible
    obtain ⟨after, table', hinsert, hafter⟩ := staticHashTableInsert_spec hholds hidx hfresh data
    refine ⟨(after, table'), by simp [HashTable.step, hinsert, listStep], ?_, ?_⟩
    · simp [listStep, hnull, hne.symm]
    · rwa [listStep, bucketed_cons]
  | find key =>
    have hlookup := Related.lookup_eq ⟨hnull, hholds⟩ hadmissible
    exact ⟨state, by simp [HashTable.step, hlookup, listStep], hnull, hholds⟩
  | remove key =>
    obtain ⟨hidx, htail⟩ := hadmissible
    have hlookup := Related.lookup_eq ⟨hnull, hholds⟩ hidx
    have husable := htail _ hlookup
    cases hfind : held.find? (keyOf · == key) with
    | none =>
      have hfound : found keyOf held key = NULL := by simp [found, hfind]
      refine ⟨state, by simp [HashTable.step, hlookup, listStep, hfound], ?_⟩
      rw [listStep, hfound, List.erase_of_not_mem hnull]
      exact ⟨hnull, hholds⟩
    | some data =>
      have hfound : found keyOf held key = data := by simp [found, hfind]
      have hmem := List.mem_of_find?_eq_some hfind
      have hkey : keyOf data = key := by simpa using List.find?_some hfind
      have hne : data ≠ NULL := fun h ↦ hnull (h ▸ hmem)
      rw [hfound] at hlookup husable
      obtain ⟨after, table', hremove, hafter⟩ := removeFromBucket_spec hholds hidx
        (List.mem_filter.mpr ⟨hmem, by simp [hkey]⟩) husable
      refine ⟨(after, table'), by simp [HashTable.step, hlookup, hne, hremove, listStep, hfound],
        fun h ↦ hnull (List.mem_of_mem_erase h), ?_⟩
      rw [listStep, hfound, bucketed_erase, hkey]
      exact hafter

/-- **The static hash table is a map.** From its initialisation on, every run of insertions, lookups
and removals of keys whose index is in range returns what the list of the data in the table says. -/
theorem run_refines_list {free : List Ptr} (hpooled : Pooled pool store free)
    (hsetup : store.staticPoolSetup = true) {table' : StaticHashTable}
    (hinit : staticHashTableInit pool store table HASH_TABLE_STATIC_POOL_SIZE =
      some (store, table')) {operations : List Operation}
    (hguarded : Guarded (step keyOf) (Admissible keyOf pool) (store, table') operations) :
    ∃ final, run (step keyOf) (store, table') operations =
        some (final, (runPure (listStep keyOf) [] operations).2) ∧
      Related keyOf pool final (runPure (listStep keyOf) [] operations).1 := by
  obtain ⟨table'', hinit', hholds⟩ := staticHashTableInit_spec hpooled hsetup table
  obtain ⟨-, rfl⟩ := Prod.mk.inj (some.inj (hinit.symm.trans hinit'))
  exact run_simulates (fun _ _ _ hrelated hadmissible ↦ hrelated.step hadmissible) operations
    ⟨List.not_mem_nil, hholds⟩ hguarded

/-- Two blocks of one page are entered, and taken out by their addresses. -/
def twoBlocks : List Operation :=
  [.insert 1 100, .insert 2 101, .find 4096, .remove 4096, .find 4096, .remove 8192]

def emptyStore : NodeStore := ⟨fun _ ↦ Node.zero, true, ⟨NULL, NULL, 0, false⟩, []⟩

theorem run_refines_list_twoBlocks : ∃ table', staticHashTableInit [] emptyStore
      ⟨fun _ ↦ emptyStore.freeNodes, 0⟩ HASH_TABLE_STATIC_POOL_SIZE = some (emptyStore, table') ∧
    ∃ final, run (step (4096 * ·)) (emptyStore, table') twoBlocks =
      some (final, [0, 0, 1, 1, 0, 2]) ∧ Related (4096 * ·) [] final [] := by
  have hpooled : Pooled [] emptyStore [] := ⟨⟨rfl, by simp, rfl⟩, by simp, by simp, by simp⟩
  exact ⟨_, staticHashTableInit_eq rfl _,
    run_refines_list hpooled rfl (staticHashTableInit_eq rfl _) (by decide +kernel)⟩

end Runs

end DionysOS.DataStructures.HashTable
