import DionysOS.Filesystem.Diosfs

/-!
# Inodes in bytes

The layout of `struct diosfs_inode`, which the kernel and the image builder share. An inode is copied
to the disk and back as the bytes of its fields, and comes back as it was if its numbers fit into
their fields.
-/

namespace DionysOS.Filesystem.Diosfs

open Foundation.ByteRecords List Inode
open Vfs (NUM_BLOCKS_DIRECT)

/-- `sizeof(struct diosfs_inode)`. -/
def DIOSFS_INODE_SIZE : ℕ := 256

namespace Inode

/-- The fields of an inode, in the order of their offsets. -/
def fields (inode : Inode) : List Foundation.ByteRecords.Field :=
  [⟨0, 2, inode.uid⟩, ⟨2, 2, inode.inodeNumber⟩, ⟨4, 2, inode.parentInodeNumber⟩,
    ⟨6, 2, inode.type.toNat⟩, ⟨8, 2, inode.refcount⟩] ++
  (finRange MAX_FILENAME_LENGTH).map (fun index ↦ ⟨10 + index, 1, (inode.name index).toNat⟩) ++
  [⟨140, 4, inode.size⟩, ⟨144, 4, inode.blockCount⟩] ++
  (finRange NUM_BLOCKS_DIRECT).map (fun index ↦ ⟨152 + 8 * index, 8, inode.blocks[index]⟩) ++
  [⟨232, 8, inode.singleIndirect⟩, ⟨240, 8, inode.doubleIndirect⟩, ⟨248, 8, inode.tripleIndirect⟩]

def toBytes (inode : Inode) : Bytes := encode inode.fields

def ofBytes (bytes : Bytes) : Inode where
  uid := load bytes 2 0
  inodeNumber := load bytes 2 2
  parentInodeNumber := load bytes 2 4
  type := BitVec.ofNat 16 (load bytes 2 6)
  refcount := load bytes 2 8
  name := fun index ↦ bytes (10 + index)
  size := load bytes 4 140
  blockCount := load bytes 4 144
  blocks := Vector.ofFn fun index ↦ load bytes 8 (152 + 8 * index)
  singleIndirect := load bytes 8 232
  doubleIndirect := load bytes 8 240
  tripleIndirect := load bytes 8 248

structure Fits (inode : Inode) : Prop where
  uid : inode.uid < 2 ^ 16
  inodeNumber : inode.inodeNumber < 2 ^ 16
  parentInodeNumber : inode.parentInodeNumber < 2 ^ 16
  refcount : inode.refcount < 2 ^ 16
  size : inode.size < 2 ^ 32
  blockCount : inode.blockCount < 2 ^ 32
  blocks : ∀ index : Fin NUM_BLOCKS_DIRECT, inode.blocks[index] < 2 ^ 64
  singleIndirect : inode.singleIndirect < 2 ^ 64
  doubleIndirect : inode.doubleIndirect < 2 ^ 64
  tripleIndirect : inode.tripleIndirect < 2 ^ 64

theorem fits_zero : zero.Fits := by
  refine ⟨by decide, by decide, by decide, by decide, by decide, by decide, fun idx ↦ ?_, by decide,
    by decide, by decide⟩
  simp [zero]

theorem pairwise_fields (inode : Inode) : inode.fields.Pairwise fun field other ↦
    field.offset + field.width ≤ other.offset := by
  have hplaces : inode.fields.map (fun field ↦ (field.offset, field.width)) =
      (zero.fields).map (fun field ↦ (field.offset, field.width)) := rfl
  have hzero : ((zero.fields).map fun field ↦ (field.offset, field.width)).Pairwise
      fun place other ↦ place.1 + place.2 ≤ other.1 := by
    decide +kernel
  rw [← hplaces] at hzero
  exact pairwise_map.mp hzero

theorem load_toBytes {inode : Inode} {off width value : ℕ}
    (hmem : ⟨off, width, value⟩ ∈ inode.fields) (hvalue : value < 256 ^ width) :
    load inode.toBytes width off = value := by
  have hload := load_encode inode.pairwise_fields hmem
  rwa [Nat.mod_eq_of_lt hvalue] at hload

theorem toBytes_name (inode : Inode) (index : Fin MAX_FILENAME_LENGTH) :
    inode.toBytes (10 + index) = inode.name index := by
  have hmem : ⟨10 + index, 1, (inode.name index).toNat⟩ ∈ inode.fields := by
    simp only [fields, mem_append, mem_map, mem_finRange, true_and]
    exact .inl (.inl (.inl (.inr ⟨index, rfl⟩)))
  have hload := load_toBytes hmem (inode.name index).isLt
  exact BitVec.eq_of_toNat_eq (by simpa [load] using hload)

theorem ofBytes_toBytes {inode : Inode} (hfits : inode.Fits) : ofBytes inode.toBytes = inode := by
  obtain ⟨huid, hnum, hpar, hrefcount, hsize, hcount, hblocks, hsingle, hdouble, htriple⟩ := hfits
  have htype : BitVec.ofNat 16 (load inode.toBytes 2 6) = inode.type := by
    rw [load_toBytes (by simp [fields]) inode.type.isLt, BitVec.ofNat_toNat, BitVec.setWidth_eq]
  have hvector : (Vector.ofFn fun idx : Fin NUM_BLOCKS_DIRECT ↦
      load inode.toBytes 8 (152 + 8 * idx)) = inode.blocks := by
    refine Vector.ext fun idx hidx ↦ ?_
    rw [Vector.getElem_ofFn]
    refine load_toBytes ?_ (hblocks ⟨idx, hidx⟩)
    simp only [fields, mem_append, mem_map, mem_finRange, true_and]
    exact .inl (.inr ⟨⟨idx, hidx⟩, rfl⟩)
  rw [ofBytes, htype, hvector, load_toBytes (by simp [fields]) huid,
    load_toBytes (by simp [fields]) hnum, load_toBytes (by simp [fields]) hpar,
    load_toBytes (by simp [fields]) hrefcount, load_toBytes (by simp [fields]) hsize,
    load_toBytes (by simp [fields]) hcount, load_toBytes (by simp [fields]) hsingle,
    load_toBytes (by simp [fields]) hdouble, load_toBytes (by simp [fields]) htriple,
    funext (toBytes_name inode)]

theorem fits_ofBytes (bytes : Bytes) : (ofBytes bytes).Fits where
  uid := load_lt bytes 2 0
  inodeNumber := load_lt bytes 2 2
  parentInodeNumber := load_lt bytes 2 4
  refcount := load_lt bytes 2 8
  size := load_lt bytes 4 140
  blockCount := load_lt bytes 4 144
  blocks index := by
    simp only [ofBytes, Fin.getElem_fin, Vector.getElem_ofFn]
    exact load_lt bytes 8 _
  singleIndirect := load_lt bytes 8 232
  doubleIndirect := load_lt bytes 8 240
  tripleIndirect := load_lt bytes 8 248

theorem ofBytes_congr {bytes others : Bytes}
    (hsame : ∀ pos < DIOSFS_INODE_SIZE, bytes pos = others pos) :
    ofBytes bytes = ofBytes others := by
  have hload : ∀ width offset, offset + width ≤ 256 →
      load bytes width offset = load others width offset := fun width offset hfits ↦
    load_congr fun idx hidx ↦ hsame _ (by simp only [DIOSFS_INODE_SIZE]; omega)
  have hname : (fun idx : Fin MAX_FILENAME_LENGTH ↦ bytes (10 + idx)) =
      fun idx : Fin MAX_FILENAME_LENGTH ↦ others (10 + idx) := by
    funext idx
    have hidx := idx.isLt
    simp only [MAX_FILENAME_LENGTH] at hidx
    exact hsame _ (by simp only [DIOSFS_INODE_SIZE]; omega)
  have hvector : (Vector.ofFn fun idx : Fin NUM_BLOCKS_DIRECT ↦ load bytes 8 (152 + 8 * idx)) =
      Vector.ofFn fun idx ↦ load others 8 (152 + 8 * idx) := by
    refine Vector.ext fun idx hidx ↦ ?_
    rw [Vector.getElem_ofFn, Vector.getElem_ofFn]
    simp only [NUM_BLOCKS_DIRECT] at hidx
    exact hload 8 _ (by simp only; omega)
  rw [ofBytes, ofBytes, hname, hvector, hload 2 0 (by omega), hload 2 2 (by omega),
    hload 2 4 (by omega), hload 2 6 (by omega), hload 2 8 (by omega), hload 4 140 (by omega),
    hload 4 144 (by omega), hload 8 232 (by omega), hload 8 240 (by omega), hload 8 248 (by omega)]

end Inode

/-- `diosfs_read_inode`, from the blocks of a device. -/
def readInode (inodeStartPointer : ℕ) (device : ℕ → Bytes) (inodeNumber : ℕ) : Inode :=
  let block := device (inodeStartPointer + inodeNumber / NUM_INODES_PER_BLOCK)
  Inode.ofBytes (slot DIOSFS_INODE_SIZE (inodeNumber % NUM_INODES_PER_BLOCK) block)

end DionysOS.Filesystem.Diosfs
