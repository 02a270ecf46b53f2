/-
# Core.Hash -- the chained hash table of a segment

`mix_hash.c`.  A table has `hash_size` buckets; a bucket is a chain of
key/value nodes, newest first, and a separate counter `len`.  Keys and values
are `uint32_t`; `mix_hash_get` hands a value back as an `int`, with -1 for
"absent" in band.

`Hash.entries` lists all nodes of all chains.  `Hash.Sound` is what `mix_hash_put`
establishes, while `len` has room for the chain, and `mix_hash_delete` of a present
key keeps: every node hangs in the bucket its key hashes to and `len` counts the chain.
-/
import Mixdk.Core.Task
import Mixdk.Lib.ChainTable

namespace Mixdk

set_option autoImplicit false

open ChainTable

/-! ## The bucket of a key -/

def crc32Tab : List Nat := [
  0x00000000, 0x77073096, 0xee0e612c, 0x990951ba, 0x076dc419, 0x706af48f, 0xe963a535, 0x9e6495a3,
  0x0edb8832, 0x79dcb8a4, 0xe0d5e91e, 0x97d2d988, 0x09b64c2b, 0x7eb17cbd, 0xe7b82d07, 0x90bf1d91,
  0x1db71064, 0x6ab020f2, 0xf3b97148, 0x84be41de, 0x1adad47d, 0x6ddde4eb, 0xf4d4b551, 0x83d385c7,
  0x136c9856, 0x646ba8c0, 0xfd62f97a, 0x8a65c9ec, 0x14015c4f, 0x63066cd9, 0xfa0f3d63, 0x8d080df5,
  0x3b6e20c8, 0x4c69105e, 0xd56041e4, 0xa2677172, 0x3c03e4d1, 0x4b04d447, 0xd20d85fd, 0xa50ab56b,
  0x35b5a8fa, 0x42b2986c, 0xdbbbc9d6, 0xacbcf940, 0x32d86ce3, 0x45df5c75, 0xdcd60dcf, 0xabd13d59,
  0x26d930ac, 0x51de003a, 0xc8d75180, 0xbfd06116, 0x21b4f4b5, 0x56b3c423, 0xcfba9599, 0xb8bda50f,
  0x2802b89e, 0x5f058808, 0xc60cd9b2, 0xb10be924, 0x2f6f7c87, 0x58684c11, 0xc1611dab, 0xb6662d3d,
  0x76dc4190, 0x01db7106, 0x98d220bc, 0xefd5102a, 0x71b18589, 0x06b6b51f, 0x9fbfe4a5, 0xe8b8d433,
  0x7807c9a2, 0x0f00f934, 0x9609a88e, 0xe10e9818, 0x7f6a0dbb, 0x086d3d2d, 0x91646c97, 0xe6635c01,
  0x6b6b51f4, 0x1c6c6162, 0x856530d8, 0xf262004e, 0x6c0695ed, 0x1b01a57b, 0x8208f4c1, 0xf50fc457,
  0x65b0d9c6, 0x12b7e950, 0x8bbeb8ea, 0xfcb9887c, 0x62dd1ddf, 0x15da2d49, 0x8cd37cf3, 0xfbd44c65,
  0x4db26158, 0x3ab551ce, 0xa3bc0074, 0xd4bb30e2, 0x4adfa541, 0x3dd895d7, 0xa4d1c46d, 0xd3d6f4fb,
  0x4369e96a, 0x346ed9fc, 0xad678846, 0xda60b8d0, 0x44042d73, 0x33031de5, 0xaa0a4c5f, 0xdd0d7cc9,
  0x5005713c, 0x270241aa, 0xbe0b1010, 0xc90c2086, 0x5768b525, 0x206f85b3, 0xb966d409, 0xce61e49f,
  0x5edef90e, 0x29d9c998, 0xb0d09822, 0xc7d7a8b4, 0x59b33d17, 0x2eb40d81, 0xb7bd5c3b, 0xc0ba6cad,
  0xedb88320, 0x9abfb3b6, 0x03b6e20c, 0x74b1d29a, 0xead54739, 0x9dd277af, 0x04db2615, 0x73dc1683,
  0xe3630b12, 0x94643b84, 0x0d6d6a3e, 0x7a6a5aa8, 0xe40ecf0b, 0x9309ff9d, 0x0a00ae27, 0x7d079eb1,
  0xf00f9344, 0x8708a3d2, 0x1e01f268, 0x6906c2fe, 0xf762575d, 0x806567cb, 0x196c3671, 0x6e6b06e7,
  0xfed41b76, 0x89d32be0, 0x10da7a5a, 0x67dd4acc, 0xf9b9df6f, 0x8ebeeff9, 0x17b7be43, 0x60b08ed5,
  0xd6d6a3e8, 0xa1d1937e, 0x38d8c2c4, 0x4fdff252, 0xd1bb67f1, 0xa6bc5767, 0x3fb506dd, 0x48b2364b,
  0xd80d2bda, 0xaf0a1b4c, 0x36034af6, 0x41047a60, 0xdf60efc3, 0xa867df55, 0x316e8eef, 0x4669be79,
  0xcb61b38c, 0xbc66831a, 0x256fd2a0, 0x5268e236, 0xcc0c7795, 0xbb0b4703, 0x220216b9, 0x5505262f,
  0xc5ba3bbe, 0xb2bd0b28, 0x2bb45a92, 0x5cb36a04, 0xc2d7ffa7, 0xb5d0cf31, 0x2cd99e8b, 0x5bdeae1d,
  0x9b64c2b0, 0xec63f226, 0x756aa39c, 0x026d930a, 0x9c0906a9, 0xeb0e363f, 0x72076785, 0x05005713,
  0x95bf4a82, 0xe2b87a14, 0x7bb12bae, 0x0cb61b38, 0x92d28e9b, 0xe5d5be0d, 0x7cdcefb7, 0x0bdbdf21,
  0x86d3d2d4, 0xf1d4e242, 0x68ddb3f8, 0x1fda836e, 0x81be16cd, 0xf6b9265b, 0x6fb077e1, 0x18b74777,
  0x88085ae6, 0xff0f6a70, 0x66063bca, 0x11010b5c, 0x8f659eff, 0xf862ae69, 0x616bffd3, 0x166ccf45,
  0xa00ae278, 0xd70dd2ee, 0x4e048354, 0x3903b3c2, 0xa7672661, 0xd06016f7, 0x4969474d, 0x3e6e77db,
  0xaed16a4a, 0xd9d65adc, 0x40df0b66, 0x37d83bf0, 0xa9bcae53, 0xdebb9ec5, 0x47b2cf7f, 0x30b5ffe9,
  0xbdbdf21c, 0xcabac28a, 0x53b39330, 0x24b4a3a6, 0xbad03605, 0xcdd70693, 0x54de5729, 0x23d967bf,
  0xb3667a2e, 0xc4614ab8, 0x5d681b02, 0x2a6f2b94, 0xb40bbe37, 0xc30c8ea1, 0x5a05df1b, 0x2d02ef8d]

def crc32 (s : List Nat) : Nat :=
  s.foldl (fun val c => crc32Tab.getD ((val ^^^ c) &&& 0xff) 0 ^^^ (val >>> 8)) 0

/-- The characters `sprintf("%d", key)` writes: the key is printed as an `int`. -/
def keyString (key : Nat) : List Nat :=
  let z := toInt32 key
  let digits := (Nat.toDigits 10 z.natAbs).map Char.toNat
  if z < 0 then '-'.toNat :: digits else digits

/-- Addition and multiplication of `unsigned long`. -/
def u64 (n : Nat) : Nat := n % 2 ^ 64

def mixHashHash (key hashSize : Nat) : Nat :=
  let key := crc32 (keyString key)
  let key := u64 (key + (key <<< 12))
  let key := key ^^^ (key >>> 22)
  let key := u64 (key + (key <<< 4))
  let key := key ^^^ (key >>> 9)
  let key := u64 (key + (key <<< 10))
  let key := key ^^^ (key >>> 2)
  let key := u64 (key + (key <<< 7))
  let key := key ^^^ (key >>> 12)
  let key := u64 ((key >>> 3) * 2654435761)
  key % hashSize

theorem mixHashHash_lt (key : Nat) {hashSize : Nat} (size : 0 < hashSize) :
    mixHashHash key hashSize < hashSize := Nat.mod_lt _ size

/-! ## Tables -/

/-- `mix_kv_t`: key and value. -/
abbrev MixKv := Nat × Nat

/-- `hash_node_t`: the bucket's counter, an `int`, and its chain. -/
structure HashNode where
  len : Int32
  list : List MixKv
deriving DecidableEq

/-- `mix_hash_t`. -/
structure Hash where
  hashSize : Nat
  hashNodes : Nat → HashNode
  hashNodeEntryIdx : Int

def mixHashInit (size : Nat) : Hash :=
  { hashSize := size, hashNodes := fun _ => { len := 0, list := [] }, hashNodeEntryIdx := -1 }

namespace Hash

def setNode (h : Hash) (i : Nat) (node : HashNode) : Hash :=
  { h with hashNodes := Function.update h.hashNodes i node }

def chain (h : Hash) (i : Nat) : List MixKv := (h.hashNodes i).list

/-- All nodes of the table, bucket by bucket. -/
def entries (h : Hash) : List MixKv := pairs h.hashSize h.chain

/-- The node a key's chain is searched for. -/
def find? (h : Hash) (key : Nat) : Option Nat :=
  (h.chain (mixHashHash key h.hashSize)).lookup key

end Hash

def mixHashPut (h : Hash) (key value : Nat) : Hash :=
  let hashKey := mixHashHash key h.hashSize
  let node := h.hashNodes hashKey
  h.setNode hashKey { len := node.len + 1, list := (key, value) :: node.list }

/-- The walk along the chain returns the value of the first node with the key. -/
def mixHashGet (h : Hash) (key : Nat) : Int :=
  match (h.hashNodes (mixHashHash key h.hashSize)).list.lookup key with
  | some value => toInt32 value
  | none => -1

/-- Unlinks the first node with the key; `len` goes down whether or not there is one. -/
def mixHashDelete (h : Hash) (key : Nat) : Hash :=
  let hashKey := mixHashHash key h.hashSize
  let node := h.hashNodes hashKey
  h.setNode hashKey { len := node.len - 1, list := node.list.eraseP fun kv => kv.1 == key }

/-- `(uint32_t)-1`, the end marker of a drain. -/
def NO_ENTRY : Nat := 2 ^ 32 - 1

/-- Pops the first node of bucket `idx`, or returns the marker `(-1, -1)`.  A
positive `len` over an empty chain dereferences NULL: `none`. -/
def mixHashGetEntryByIdx (h : Hash) (idx : Nat) : Option (MixKv × Hash) :=
  let node := h.hashNodes idx
  if 0 < node.len then
    match node.list with
    | kv :: rest => some (kv, h.setNode idx { len := node.len - 1, list := rest })
    | [] => none
  else some ((NO_ENTRY, NO_ENTRY), h)

/-! ## Chains, entries and lookups -/

/-- The counters of the buckets count the chains and every node hangs in the
bucket its key hashes to. -/
structure Hash.Sound (h : Hash) : Prop where
  size : 0 < h.hashSize
  placed : Placed (fun key => mixHashHash key h.hashSize) h.hashSize h.chain
  lens : ∀ i < h.hashSize, (h.hashNodes i).len.toInt = (h.chain i).length

theorem mixHashGet_eq (h : Hash) (key : Nat) :
    mixHashGet h key = match h.find? key with
      | some value => toInt32 value
      | none => -1 := rfl

@[simp] theorem setNode_hashSize (h : Hash) (i : Nat) (node : HashNode) :
    (h.setNode i node).hashSize = h.hashSize := rfl

@[simp] theorem setNode_self (h : Hash) (i : Nat) (node : HashNode) :
    (h.setNode i node).hashNodes i = node := by simp [Hash.setNode]

theorem setNode_of_ne (h : Hash) {i j : Nat} (node : HashNode) (ne : j ≠ i) :
    (h.setNode i node).hashNodes j = h.hashNodes j := by
  simp [Hash.setNode, Function.update_of_ne ne]

@[simp] theorem setNode_same (h : Hash) (i : Nat) : h.setNode i (h.hashNodes i) = h := by
  simp [Hash.setNode]

@[simp] theorem setNode_setNode (h : Hash) (i : Nat) (node node' : HashNode) :
    (h.setNode i node).setNode i node' = h.setNode i node' := by simp [Hash.setNode]

/-- A bucket that counts no node gives the marker. -/
theorem getEntryByIdx_of_empty {h : Hash} {idx : Nat} (empty : ¬ 0 < (h.hashNodes idx).len) :
    mixHashGetEntryByIdx h idx = some ((NO_ENTRY, NO_ENTRY), h) := by
  rw [mixHashGetEntryByIdx, if_neg empty]

/-- A bucket that counts a node gives its first one. -/
theorem getEntryByIdx_of_cons {h : Hash} {idx : Nat} {kv : MixKv} {rest : List MixKv}
    (more : 0 < (h.hashNodes idx).len) (chain : h.chain idx = kv :: rest) :
    mixHashGetEntryByIdx h idx =
      some (kv, h.setNode idx { len := (h.hashNodes idx).len - 1, list := rest }) := by
  have list : (h.hashNodes idx).list = kv :: rest := chain
  simp only [mixHashGetEntryByIdx, more, if_true, list]

/-- What a pop that returns has done. -/
theorem getEntryByIdx_eq_some {h h' : Hash} {idx : Nat} {kv : MixKv}
    (popped : mixHashGetEntryByIdx h idx = some (kv, h')) :
    (¬ 0 < (h.hashNodes idx).len ∧ kv = (NO_ENTRY, NO_ENTRY) ∧ h' = h) ∨
      0 < (h.hashNodes idx).len ∧ ∃ rest, h.chain idx = kv :: rest ∧
        h' = h.setNode idx { len := (h.hashNodes idx).len - 1, list := rest } := by
  by_cases more : 0 < (h.hashNodes idx).len
  · cases chain : h.chain idx with
    | nil =>
        have list : (h.hashNodes idx).list = [] := chain
        simp only [mixHashGetEntryByIdx, more, if_true, list, reduceCtorEq] at popped
    | cons head rest =>
        rw [getEntryByIdx_of_cons more chain, Option.some.injEq, Prod.mk.injEq] at popped
        obtain ⟨rfl, rfl⟩ := popped
        exact .inr ⟨more, rest, rfl, rfl⟩
  · rw [getEntryByIdx_of_empty more, Option.some.injEq, Prod.mk.injEq] at popped
    exact .inl ⟨more, popped.1.symm, popped.2.symm⟩

/-- Writing a bucket whose counter counts its chain keeps the counters right. -/
theorem lens_setNode {h : Hash} {i : Nat} {node : HashNode}
    (counted : node.len.toInt = node.list.length)
    (lens : ∀ j < h.hashSize, (h.hashNodes j).len.toInt = (h.chain j).length) :
    ∀ j < (h.setNode i node).hashSize,
      ((h.setNode i node).hashNodes j).len.toInt = ((h.setNode i node).chain j).length := by
  intro j below
  rw [setNode_hashSize] at below
  by_cases at_ : j = i
  · subst at_
    simpa [Hash.chain] using counted
  · simpa [Hash.chain, setNode_of_ne h node at_] using lens j below

theorem chain_setNode (h : Hash) (i : Nat) (node : HashNode) :
    (h.setNode i node).chain = Function.update h.chain i node.list := by
  funext j
  by_cases at_ : j = i
  · subst at_; simp [Hash.chain, Hash.setNode]
  · simp [Hash.chain, Hash.setNode, Function.update_of_ne at_]

theorem chain_put (h : Hash) (key value : Nat) :
    (mixHashPut h key value).chain =
      Function.update h.chain (mixHashHash key h.hashSize)
        ((key, value) :: h.chain (mixHashHash key h.hashSize)) :=
  chain_setNode h _ _

theorem chain_delete (h : Hash) (key : Nat) :
    (mixHashDelete h key).chain =
      Function.update h.chain (mixHashHash key h.hashSize)
        ((h.chain (mixHashHash key h.hashSize)).eraseP fun kv => kv.1 == key) :=
  chain_setNode h _ _

@[simp] theorem put_hashSize (h : Hash) (key value : Nat) :
    (mixHashPut h key value).hashSize = h.hashSize := rfl

@[simp] theorem delete_hashSize (h : Hash) (key : Nat) :
    (mixHashDelete h key).hashSize = h.hashSize := rfl

theorem chain_length_le (h : Hash) {i : Nat} (below : i < h.hashSize) :
    (h.chain i).length ≤ h.entries.length := (chain_sublist_pairs h.chain below).length_le

/-! A put adds its entry and a delete of a present key takes one out, whatever the counters say. -/

theorem entries_put_perm {h : Hash} (size : 0 < h.hashSize) (key value : Nat) :
    (mixHashPut h key value).entries.Perm ((key, value) :: h.entries) := by
  unfold Hash.entries
  rw [chain_put]
  exact pairs_push_perm h.chain (key, value) (mixHashHash_lt key size)

theorem entries_delete_perm {h : Hash} (size : 0 < h.hashSize) {key value : Nat}
    (present : h.find? key = some value) :
    h.entries.Perm ((key, value) :: (mixHashDelete h key).entries) := by
  unfold Hash.entries
  rw [chain_delete]
  exact pairs_take_perm h.chain (key, value) (mixHashHash_lt key size) (perm_cons_eraseP present)

/-- A delete of an absent key leaves the chains as they are. -/
theorem chain_delete_absent {h : Hash} {key : Nat} (absent : h.find? key = none) :
    (mixHashDelete h key).chain = h.chain := by
  have none_ : ∀ kv ∈ h.chain (mixHashHash key h.hashSize), ¬ (kv.1 == key) = true := by
    intro kv member same
    have named := List.lookup_eq_none_iff.1 absent kv member
    rw [beq_iff_eq] at same
    simp [same] at named
  rw [chain_delete, List.eraseP_of_forall_not none_, Function.update_eq_self]

/-! A node hangs where its key puts it. -/

theorem placed_put {h : Hash} (size : 0 < h.hashSize)
    (placed : Placed (fun key => mixHashHash key h.hashSize) h.hashSize h.chain) (key value : Nat) :
    Placed (fun key => mixHashHash key h.hashSize) h.hashSize (mixHashPut h key value).chain := by
  rw [chain_put]
  refine placed.update fun kv member => ?_
  rcases List.mem_cons.1 member with new | old
  · rw [new]
  · exact placed _ (mixHashHash_lt key size) kv old

theorem placed_delete {h : Hash} (size : 0 < h.hashSize)
    (placed : Placed (fun key => mixHashHash key h.hashSize) h.hashSize h.chain) (key : Nat) :
    Placed (fun key => mixHashHash key h.hashSize) h.hashSize (mixHashDelete h key).chain := by
  rw [chain_delete]
  exact placed.update fun kv member =>
    placed _ (mixHashHash_lt key size) kv (List.mem_of_mem_eraseP member)

namespace Hash.Sound

variable {h : Hash}

theorem bucket_lt (sound : h.Sound) (key : Nat) : mixHashHash key h.hashSize < h.hashSize :=
  mixHashHash_lt key sound.size

theorem init {size : Nat} (pos : 0 < size) : (mixHashInit size).Sound where
  size := pos
  placed := by intro i _ kv member; simp [mixHashInit, chain] at member
  lens := by intro i _; simp [mixHashInit, chain]

theorem put (sound : h.Sound) {key : Nat} (value : Nat)
    (room : (h.chain (mixHashHash key h.hashSize)).length + 1 < 2 ^ 31) :
    (mixHashPut h key value).Sound where
  size := by simpa only [put_hashSize] using sound.size
  placed := placed_put sound.size sound.placed key value
  lens := by
    have counted := sound.lens _ (sound.bucket_lt key)
    refine lens_setNode ?_ sound.lens
    rw [toInt_add_one (by omega), counted, List.length_cons, Hash.chain]
    exact (Int.natCast_succ _).symm

/-- A table with one entry. -/
theorem one {size : Nat} (pos : 0 < size) (key value : Nat) :
    (mixHashPut (mixHashInit size) key value).Sound :=
  (init pos).put value (show 0 + 1 < 2 ^ 31 by decide)

/-- Deleting a present key keeps the counters right. -/
theorem delete (sound : h.Sound) {key value : Nat} (present : h.find? key = some value) :
    (mixHashDelete h key).Sound where
  size := by simpa only [delete_hashSize] using sound.size
  placed := placed_delete sound.size sound.placed key
  lens := by
    have counted := sound.lens _ (sound.bucket_lt key)
    have count := (perm_cons_eraseP present).length_eq
    rw [List.length_cons] at count
    refine lens_setNode ?_ sound.lens
    rw [toInt_sub_one (by omega), counted, count]
    simp [Hash.chain]

theorem entries_put (sound : h.Sound) (key value : Nat) :
    (mixHashPut h key value).entries.Perm ((key, value) :: h.entries) :=
  entries_put_perm sound.size key value

theorem entries_delete (sound : h.Sound) {key value : Nat}
    (present : h.find? key = some value) :
    h.entries.Perm ((key, value) :: (mixHashDelete h key).entries) :=
  entries_delete_perm sound.size present

/-- With distinct keys, the chain walk finds exactly the entries. -/
theorem find?_eq_some_iff (sound : h.Sound) (distinct : (h.entries.map Prod.fst).Nodup)
    {key value : Nat} : h.find? key = some value ↔ (key, value) ∈ h.entries :=
  lookup_eq_some_iff_mem sound.placed distinct
    (sound.bucket_lt key)

theorem find?_eq_none_iff (sound : h.Sound) (distinct : (h.entries.map Prod.fst).Nodup)
    {key : Nat} : h.find? key = none ↔ ∀ value, (key, value) ∉ h.entries := by
  rw [Option.eq_none_iff_forall_not_mem]
  simp only [Option.mem_def, sound.find?_eq_some_iff distinct]

end Hash.Sound

@[simp] theorem entries_init (size : Nat) : (mixHashInit size).entries = [] := by
  simp [Hash.entries, pairs, mixHashInit, Hash.chain]

end Mixdk
