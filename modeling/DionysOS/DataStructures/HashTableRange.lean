import DionysOS.DataStructures.HashTable

/-!
# The buckets that an insertion touches

A table of `hash_table.c` is used with the number of its buckets as the modulus of `hash`. Here the
allocated table, `struct hash_table`, joins the static one, and both insertions are shown to go to a
bucket of the table for every key except one: the key that `unmix` gives for the number of buckets.
That key is inserted one bucket past the end.
-/

namespace DionysOS.DataStructures.HashTable

open Option SinglyLinkedList List

/-- `struct hash_table`. The array `table` is `none` while it is `NULL`. -/
structure AllocatedHashTable where
  table : Option (List SinglyLinkedList)
  size : ℕ

/-- `hash_table_init`. `kmalloc` returns an array with arbitrary contents, all of which are
overwritten. -/
def hashTableInit (pool : List Ptr) (store : NodeStore) (size : ℕ) :
    Option (NodeStore × AllocatedHashTable) := do
  let (store, table) ← (range size).foldlM (fun (store, table) _ ↦ do
      let (store, list) ← SinglyLinkedList.init pool store false
      pure (store, table ++ [list])) (store, ([] : List SinglyLinkedList))
  pure (store, ⟨some table, size⟩)

/-- `hash_table_insert`. It does not compare the index with the size. -/
def hashTableInsert (store : NodeStore) (table : AllocatedHashTable) (key : ℕ) (data fresh : Ptr) :
    Option (NodeStore × AllocatedHashTable) := do
  let buckets ← table.table
  let hashKey := hash key table.size
  let bucket ← buckets[hashKey]?
  let (store, bucket) ← insertHead store bucket data fresh
  pure (store, { table with table := some (buckets.set hashKey bucket) })

/-- A key is hashed to a bucket of a table with `modulus` buckets, and the insertions of it are
insertions into one of these buckets. -/
structure InRange (key modulus : BitVec 64) : Prop where
  lt : hash key.toNat modulus.toNat < modulus.toNat
  static : ∀ (store : NodeStore) (table : StaticHashTable) (data fresh : Ptr),
    table.size = modulus.toNat → table.size ≤ HASH_TABLE_STATIC_POOL_SIZE →
      ∃ index < table.size, staticHashTableInsert store table key.toNat data fresh =
        (insertHead store (table.table index) data fresh).map
          fun (store, bucket) ↦ (store, table.set index bucket)
  allocated : ∀ (store : NodeStore) (buckets : List SinglyLinkedList) (data fresh : Ptr),
    buckets.length = modulus.toNat →
      ∃ (index : ℕ) (hindex : index < buckets.length),
        hashTableInsert store ⟨some buckets, buckets.length⟩ key.toNat data fresh =
          (insertHead store buckets[index] data fresh).map
            fun (store, bucket) ↦ (store, ⟨some (buckets.set index bucket), buckets.length⟩)

variable {store : NodeStore} {key : ℕ} {data fresh : Ptr}

theorem staticHashTableInsert_of_lt {table : StaticHashTable}
    (hidx : hash key table.size < HASH_TABLE_STATIC_POOL_SIZE) :
    staticHashTableInsert store table key data fresh =
      (insertHead store (table.table (hash key table.size)) data fresh).map
        fun (store, bucket) ↦ (store, table.set (hash key table.size) bucket) := by
  rw [staticHashTableInsert, staticHashTableRetrieve, if_pos hidx, bind_eq_bind,
    bind_some, map_eq_bind]
  rfl

theorem hashTableInsert_of_lt {buckets : List SinglyLinkedList}
    (hidx : hash key buckets.length < buckets.length) :
    hashTableInsert store ⟨some buckets, buckets.length⟩ key data fresh =
      (insertHead store buckets[hash key buckets.length] data fresh).map
        fun (store, bucket) ↦
          (store, ⟨some (buckets.set (hash key buckets.length) bucket), buckets.length⟩) := by
  simp only [hashTableInsert, bind_eq_bind, bind_some, getElem?_eq_getElem hidx, map_eq_bind]
  rfl

/-- **Every key but one is hashed into the table**, whatever the number of its buckets. -/
theorem inRange_iff (key modulus : BitVec 64) (hmodulus : 0 < modulus.toNat) :
    InRange key modulus ↔ key ≠ unmix modulus := by
  constructor
  · intro hrange
    exact (hash_lt_iff hmodulus).mp hrange.lt
  · intro hkey
    have hlt := (hash_lt_iff hmodulus).mpr hkey
    constructor
    case lt => exact hlt
    case static =>
      intro store table data fresh hsize hpool
      rw [← hsize] at hlt
      exact ⟨_, hlt, staticHashTableInsert_of_lt (by omega)⟩
    case allocated =>
      intro store buckets data fresh hsize
      rw [← hsize] at hlt
      exact ⟨_, hlt, hashTableInsert_of_lt hlt⟩

theorem inRange_pageOfStaticTable : InRange 4096#64 1500#64 :=
  (inRange_iff 4096#64 1500#64 (by decide)).mpr (by decide +kernel)

/-- A key goes past the end of the static table, which has 1500 buckets. -/
theorem hash_eq_staticPoolSize :
    hash 0x216CA8846DBB3C70 HASH_TABLE_STATIC_POOL_SIZE = HASH_TABLE_STATIC_POOL_SIZE ∧
      ¬InRange 0x216CA8846DBB3C70#64 1500#64 := by
  have hhash : hash 0x216CA8846DBB3C70 HASH_TABLE_STATIC_POOL_SIZE =
      HASH_TABLE_STATIC_POOL_SIZE := by
    decide +kernel
  constructor
  · exact hhash
  · intro hrange
    exact absurd hrange.lt (by decide +kernel)

end DionysOS.DataStructures.HashTable
