import Ccmchain.Common.Types
import Ccmchain.Lib.File
import Ccmchain.Lib.Except

/-!
# `core/rawdb/freezer_table.go`: the freezer table

A freezer table is an append-only array of blobs kept in numbered data files, with an index file
of six-byte entries. Entry `i + 1` holds the data file of item `i` and the offset of its end
there; entry 0 holds the item offset and the tail file. An item whose start entry lies in an
earlier file starts at offset 0 of its own file (`getBounds`). `Append` rolls over to a new data
file when the head file would pass `maxFileSize`; `truncate` cuts the index and goes back to the
data file of the last item it keeps. `repair`, run when a table is opened, cuts the index to
whole entries, then cuts the index and the head file in turn until they agree, and counts the
items as `itemOffset + offsetsSize / 6 - 1` in `uint64`.

A torn index of one to five bytes is cut to nothing, and that count wraps:
`newCustomTable_torn_index` opens any such disk as a table of `2 ^ 64 - 1` items, none of which
can be read.

Tables are uncompressed (`noCompression`). Paths, the size counter, the meters and `Close` are
left out, and a data file is written at its end. Errors the source ignores (the `ReadAt`s of
`repair`, the cut to whole entries, the read-only reopen in `Append`) are ignored here.
-/

namespace Ccmchain.RawDb

open Common

/-- `errOutOfBounds`. -/
def errOutOfBounds : String := "out of bounds"

/-- `indexEntrySize`. -/
def indexEntrySize : Nat := 6

/-- `indexEntry`: the data file of an item and the offset of its end there. -/
structure IndexEntry where
  filenum : UInt32
  offset : UInt32
  deriving DecidableEq, Repr

/-- `indexEntry.unmarshalBinary`. -/
def IndexEntry.unmarshalBinary (b : Bytes) : IndexEntry :=
  { filenum := (BigEndian.toNat (b.take 2)).toUInt32
    offset := (BigEndian.toNat ((b.drop 2).take 4)).toUInt32 }

/-- `indexEntry.marshallBinary`: the file number is stored in two bytes. -/
def IndexEntry.marshallBinary (i : IndexEntry) : Bytes :=
  bytesOf 2 i.filenum.toNat ++ bytesOf 4 i.offset.toNat

/-! ### Files -/

/-- The files of a table: the index file, and the data files by number. -/
structure Disk where
  index : Bytes
  data : UInt32 → Option Bytes

/-- The contents of a data file; a missing one reads as empty. -/
def Disk.dataOf (d : Disk) (num : UInt32) : Bytes := (d.data num).getD []

/-- Data file `num` now holds `f`. -/
def Disk.setData (d : Disk) (num : UInt32) (f : Bytes) : Disk :=
  { d with data := Function.update d.data num (some f) }

/-- How a data file is opened: `openFreezerFileForAppend` creates a missing file,
`openFreezerFileForReadOnly` fails on one, `openFreezerFileTruncated` empties the file. -/
inductive Opener where
  | forAppend
  | readOnly
  | truncated

/-- The disk after opening data file `num`. -/
def Disk.openData (d : Disk) (num : UInt32) : Opener → Except String Disk
  | .forAppend => pure (d.setData num (d.dataOf num))
  | .readOnly => if (d.data num).isSome then pure d else throw "open: no such file or directory"
  | .truncated => pure (d.setData num [])

namespace Disk

@[simp] theorem index_setData (d : Disk) (num : UInt32) (f : Bytes) : (d.setData num f).index = d.index :=
  rfl

@[simp] theorem data_setData (d : Disk) (num m : UInt32) (f : Bytes) :
    (d.setData num f).data m = if m = num then some f else d.data m := by
  simp [setData, Function.update_apply]

@[simp] theorem dataOf_setData (d : Disk) (num m : UInt32) (f : Bytes) :
    (d.setData num f).dataOf m = if m = num then f else d.dataOf m := by
  by_cases h : m = num <;> simp [dataOf, h]

@[simp] theorem setData_setData (d : Disk) (num : UInt32) (f g : Bytes) :
    (d.setData num f).setData num g = d.setData num g := by
  simp [setData]

/-- Writing back the contents of a file that exists changes nothing. -/
theorem setData_dataOf {d : Disk} {num : UInt32} (h : (d.data num).isSome) :
    d.setData num (d.dataOf num) = d := by
  obtain ⟨index, data⟩ := d
  obtain ⟨f, hf⟩ : ∃ f, data num = some f := Option.isSome_iff_exists.1 h
  simp only [setData, dataOf, Disk.mk.injEq, true_and]
  funext m
  by_cases hm : m = num
  · subst hm
    simp [hf]
  · simp [hm]

theorem openData_forAppend (d : Disk) (num : UInt32) :
    d.openData num .forAppend = .ok (d.setData num (d.dataOf num)) := rfl

theorem openData_truncated (d : Disk) (num : UInt32) :
    d.openData num .truncated = .ok (d.setData num []) := rfl

theorem openData_readOnly {d : Disk} {num : UInt32} (h : (d.data num).isSome) :
    d.openData num .readOnly = .ok d := by
  rw [openData, if_pos h]
  rfl

end Disk

/-- `freezerTable`, uncompressed; `files` are the numbers of the open data files and the head
file is data file `headId`. -/
structure FreezerTable where
  items : UInt64
  maxFileSize : UInt32
  files : List UInt32
  headId : UInt32
  tailId : UInt32
  itemOffset : UInt32
  headBytes : UInt32
  disk : Disk

namespace FreezerTable

/-- `freezerTable.openFile`: a file that is already open is used as it is. -/
def openFile (t : FreezerTable) (num : UInt32) (opener : Opener) : Except String FreezerTable :=
  if num ∈ t.files then pure t
  else do
    let disk ← t.disk.openData num opener
    pure { t with disk, files := num :: t.files }

/-- `freezerTable.releaseFile`. -/
def releaseFile (t : FreezerTable) (num : UInt32) : FreezerTable :=
  { t with files := t.files.filter (· != num) }

/-- `freezerTable.releaseFilesAfter`: closes the open files numbered above `num`, and with
`remove` deletes them. -/
def releaseFilesAfter (t : FreezerTable) (num : UInt32) (remove : Bool) : FreezerTable :=
  { t with
    files := t.files.filter (· ≤ num)
    disk :=
      if remove then { t.disk with data := fun f => if num < f ∧ f ∈ t.files then none else t.disk.data f }
      else t.disk }

/-- `freezerTable.preopen`: the files from the tail up to the head read-only, the head for
append. -/
def preopen (t : FreezerTable) : Except String FreezerTable := do
  let t := t.releaseFilesAfter 0 false
  let t ← (List.range' t.tailId.toNat (t.headId.toNat - t.tailId.toNat)).foldlM
    (fun t i => t.openFile i.toUInt32 .readOnly) t
  t.openFile t.headId .forAppend

/-- The index file now holds `index`. -/
def setIndex (t : FreezerTable) (index : Bytes) : FreezerTable :=
  { t with disk := { t.disk with index } }

theorem openFile_of_mem {t : FreezerTable} {num : UInt32} (h : num ∈ t.files) (opener : Opener) :
    t.openFile num opener = .ok t := by
  rw [openFile, if_pos h]
  rfl

theorem openFile_of_not_mem {t : FreezerTable} {num : UInt32} (h : num ∉ t.files) {disk : Disk}
    {opener : Opener} (hopen : t.disk.openData num opener = .ok disk) :
    t.openFile num opener = .ok { t with disk, files := num :: t.files } := by
  simp [openFile, h, hopen]

theorem truncate_ok_nonneg {f g : Bytes} {size : Int} (h : File.truncate f size = .ok g) :
    0 ≤ size := by
  unfold File.truncate at h
  split at h
  · cases h
  · omega

/-- The loop of `repair`: while the last entry's offset and the head file's size differ, a longer
head file is cut to the offset, and a shorter one drops the last entry, going back to the data
file of the entry before it when that is another file. -/
def repairLoop (t : FreezerTable) (buffer : Bytes) (offsetsSize : Int) (lastIndex : IndexEntry)
    (contentSize : Int) : Except String (FreezerTable × Int × IndexEntry × Int) :=
  let contentExp : Int := lastIndex.offset.toNat
  if contentExp = contentSize then pure (t, offsetsSize, lastIndex, contentSize)
  else if contentExp < contentSize then do
    -- "Truncating dangling head"
    let head ← File.truncate (t.disk.dataOf lastIndex.filenum) contentExp
    pure ({ t with disk := t.disk.setData lastIndex.filenum head }, offsetsSize, lastIndex, contentExp)
  else
    -- "Truncating dangling indexes"
    match _h : File.truncate t.disk.index (offsetsSize - indexEntrySize) with
    | .error e => .error e
    | .ok index =>
      let offsetsSize' := offsetsSize - indexEntrySize
      let buffer := (File.readAt index buffer (offsetsSize' - indexEntrySize)).1
      let newLastIndex := IndexEntry.unmarshalBinary buffer
      let t := t.setIndex index
      if newLastIndex.filenum ≠ lastIndex.filenum then
        -- slipped back into an earlier head file
        match (t.releaseFile lastIndex.filenum).openFile newLastIndex.filenum .forAppend with
        | .error e => .error e
        | .ok t => repairLoop t buffer offsetsSize' newLastIndex (t.disk.dataOf newLastIndex.filenum).length
      else repairLoop t buffer offsetsSize' newLastIndex contentSize
termination_by offsetsSize.toNat
decreasing_by
  all_goals
    have := truncate_ok_nonneg _h
    simp only [indexEntrySize] at this ⊢
    omega

/-- `freezerTable.repair`. -/
def repair (t : FreezerTable) : Except String FreezerTable := do
  let buffer : Bytes := List.replicate indexEntrySize 0
  let size := t.disk.index.length
  -- a new index starts with the zero entry
  let t := if size = 0 then t.setIndex (t.disk.index ++ buffer) else t
  -- the index is cut to whole entries; the error is not checked
  let overflow := size % indexEntrySize
  let t :=
    if overflow ≠ 0 then
      match File.truncate t.disk.index (size - overflow : Nat) with
      | .ok index => t.setIndex index
      | .error _ => t
    else t
  let offsetsSize : Int := t.disk.index.length
  let buffer := (File.readAt t.disk.index buffer 0).1
  let firstIndex := IndexEntry.unmarshalBinary buffer
  let t := { t with tailId := firstIndex.offset, itemOffset := firstIndex.filenum }
  let buffer := (File.readAt t.disk.index buffer (offsetsSize - indexEntrySize)).1
  let lastIndex := IndexEntry.unmarshalBinary buffer
  let t ← t.openFile lastIndex.filenum .forAppend
  let (t, offsetsSize, lastIndex, contentSize) ←
    repairLoop t buffer offsetsSize lastIndex (t.disk.dataOf lastIndex.filenum).length
  let t := { t with
    items := t.itemOffset.toUInt64 + UInt64.ofInt (offsetsSize / indexEntrySize - 1)
    headBytes := UInt32.ofInt contentSize
    headId := lastIndex.filenum }
  t.preopen

/-- A head file at least as long as the last entry's offset is cut to it, and the loop ends. -/
theorem repairLoop_of_le {t : FreezerTable} {lastIndex : IndexEntry}
    (hopen : (t.disk.data lastIndex.filenum).isSome)
    (h : lastIndex.offset.toNat ≤ (t.disk.dataOf lastIndex.filenum).length) (buffer : Bytes)
    (offsetsSize : Int) :
    repairLoop t buffer offsetsSize lastIndex (t.disk.dataOf lastIndex.filenum).length =
      .ok ({ t with
          disk := t.disk.setData lastIndex.filenum
            ((t.disk.dataOf lastIndex.filenum).take lastIndex.offset.toNat) },
        offsetsSize, lastIndex, lastIndex.offset.toNat) := by
  rw [repairLoop]
  rcases Nat.lt_or_eq_of_le h with hlt | heq
  · -- a dangling head: cut to the offset
    have hne : ((lastIndex.offset.toNat : Nat) : Int) ≠ (t.disk.dataOf lastIndex.filenum).length := by
      omega
    have hlt' : ((lastIndex.offset.toNat : Nat) : Int) < (t.disk.dataOf lastIndex.filenum).length := by
      omega
    simp only [hne, hlt', if_false, if_true]
    rw [File.truncate_of_le _ (by omega) (by simpa using h)]
    simp
  · simp only [if_true, heq, List.take_length, Disk.setData_dataOf hopen]
    rfl

end FreezerTable

/-- `newCustomTable` on the files of `disk`; a missing index file is created empty. -/
def newCustomTable (disk : Disk) (maxFilesize : UInt32) : Except String FreezerTable :=
  FreezerTable.repair
    { items := 0, maxFileSize := maxFilesize, files := [], headId := 0, tailId := 0,
      itemOffset := 0, headBytes := 0, disk }

namespace FreezerTable

/-- The part of `truncate` that goes back to the older head file `num`: it is reopened for
append, and the open files after it are closed and deleted. -/
def rewindHead (t : FreezerTable) (num : UInt32) : Except String FreezerTable := do
  let t ← (t.releaseFile num).openFile num .forAppend
  pure { t.releaseFilesAfter num true with headId := num }

/-- `freezerTable.truncate`: keeps the first `items` items. -/
def truncate (t : FreezerTable) (items : UInt64) : Except String FreezerTable := do
  if t.items ≤ items then return t
  let index ← File.truncate t.disk.index ((items + 1).toInt64 * 6).toInt
  let t := t.setIndex index
  let (buffer, err) := File.readAt index (List.replicate indexEntrySize 0) (items * 6).toInt64.toInt
  if let some e := err then throw e
  let expected := IndexEntry.unmarshalBinary buffer
  let t ← if expected.filenum ≠ t.headId then t.rewindHead expected.filenum else pure t
  let head ← File.truncate (t.disk.dataOf t.headId) expected.offset.toNat
  pure { t with disk := t.disk.setData t.headId head, items, headBytes := expected.offset }

/-- The part of `Append` that opens a new head file: data file `headId + 1` truncated, and the
old head reopened read-only, an error there ignored. -/
def newHead (t : FreezerTable) : Except String FreezerTable := do
  let nextID := t.headId + 1
  let t' ← t.openFile nextID .truncated
  let t' := t'.releaseFile t.headId
  let t' := match t'.openFile t.headId .readOnly with
    | .ok t' => t'
    | .error _ => t'
  pure { t' with headBytes := 0, headId := nextID }

/-- The part of `Append` that writes the blob to the head file and its entry to the index. -/
def writeHead (t : FreezerTable) (blob : Bytes) : FreezerTable :=
  let bLen : UInt32 := blob.length.toUInt32
  let newOffset := t.headBytes + bLen
  let idx : IndexEntry := ⟨t.headId, newOffset⟩
  { t with
    disk := { t.disk.setData t.headId (t.disk.dataOf t.headId ++ blob) with
      index := t.disk.index ++ idx.marshallBinary }
    headBytes := newOffset
    items := t.items + 1 }

/-- `freezerTable.Append`, with the blob written as it is. -/
def Append (t : FreezerTable) (item : UInt64) (blob : Bytes) : Except String FreezerTable := do
  if t.items ≠ item then
    throw ("appending unexpected item: want " ++ toString t.items ++ ", have " ++ toString item)
  let bLen : UInt32 := blob.length.toUInt32
  -- a new file when writing would wrap `headBytes` or pass `maxFileSize`
  let t ← if t.headBytes + bLen < bLen ∨ t.headBytes + bLen > t.maxFileSize then t.newHead
    else pure t
  pure (t.writeHead blob)

/-- The bounds `getBounds` takes from the start and end entries of an item: an item that crosses
into a new data file lies at its start. -/
def entryBounds (startIdx endIdx : IndexEntry) : UInt32 × UInt32 × UInt32 :=
  if startIdx.filenum ≠ endIdx.filenum then (0, endIdx.offset, endIdx.filenum)
  else (startIdx.offset, endIdx.offset, endIdx.filenum)

/-- `freezerTable.getBounds`: the start, the end and the data file of an item. -/
def getBounds (t : FreezerTable) (item : UInt64) : Except String (UInt32 × UInt32 × UInt32) := do
  let (buffer, err) :=
    File.readAt t.disk.index (List.replicate indexEntrySize 0) (item * 6).toInt64.toInt
  if let some e := err then throw e
  let startIdx := IndexEntry.unmarshalBinary buffer
  let (buffer, err) := File.readAt t.disk.index buffer ((item + 1) * 6).toInt64.toInt
  if let some e := err then throw e
  let endIdx := IndexEntry.unmarshalBinary buffer
  pure (entryBounds startIdx endIdx)

/-- `freezerTable.Retrieve`. -/
def Retrieve (t : FreezerTable) (item : UInt64) : Except String Bytes := do
  if t.items ≤ item then throw errOutOfBounds
  let offset := t.itemOffset
  if offset.toUInt64 > item then throw errOutOfBounds
  let (startOffset, endOffset, filenum) ← t.getBounds (item - offset.toUInt64)
  if filenum ∉ t.files then throw ("missing data file " ++ toString filenum)
  let (blob, err) :=
    File.readAt (t.disk.dataOf filenum) (List.replicate (endOffset - startOffset).toNat 0)
      startOffset.toNat
  if let some e := err then throw e
  pure blob

end FreezerTable

/-! ### Opening a table -/

theorem unmarshalBinary_zero : IndexEntry.unmarshalBinary (List.replicate indexEntrySize 0) = ⟨0, 0⟩ := by
  decide

/-- A new table: the index holds the zero entry, and data file 0 is empty, open and the head. -/
theorem newCustomTable_empty (maxFilesize : UInt32) :
    newCustomTable ⟨[], fun _ => none⟩ maxFilesize =
      .ok
        { items := 0, maxFileSize := maxFilesize, files := [0], headId := 0, tailId := 0,
          itemOffset := 0, headBytes := 0,
          disk := ⟨List.replicate indexEntrySize 0, Function.update (fun _ => none) 0 (some [])⟩ } := by
  have hread : File.readAt (List.replicate indexEntrySize 0) (List.replicate indexEntrySize 0) 0 =
      (List.replicate indexEntrySize 0, none) := by
    decide
  unfold newCustomTable FreezerTable.repair
  simp only [List.length_nil, if_true, Nat.zero_mod, ne_eq, not_true_eq_false, if_false,
    FreezerTable.setIndex, List.nil_append, List.length_replicate, sub_self, hread, unmarshalBinary_zero]
  rw [FreezerTable.openFile_of_not_mem List.not_mem_nil (Disk.openData_forAppend _ _),
    Except.ok_bind, FreezerTable.repairLoop_of_le (by simp) (by simp), Except.ok_bind]
  simp only [FreezerTable.preopen, FreezerTable.releaseFilesAfter, Nat.sub_self, List.range'_zero,
    List.foldlM_nil, Except.pure_eq_ok, Except.ok_bind, Bool.false_eq_true, if_false]
  rw [FreezerTable.openFile_of_mem (by simp)]
  have hzero : UInt64.ofInt 0 = 0 ∧ UInt32.ofInt 0 = 0 := ⟨rfl, rfl⟩
  simp [indexEntrySize, Disk.setData, hzero]

/-- An empty index answers the first item in bounds with the end of the file. -/
theorem FreezerTable.retrieve_zero_of_index_nil {t : FreezerTable} (hidx : t.disk.index = [])
    (hoff : t.itemOffset = 0) (hitems : 0 < t.items) : t.Retrieve 0 = .error "EOF" := by
  have hin : ¬ t.items ≤ 0 := UInt64.not_le.2 hitems
  have hpos : ¬ UInt32.toUInt64 0 > 0 := by decide
  have hread : File.readAt [] (List.replicate indexEntrySize 0) ((0 - UInt32.toUInt64 0) * 6).toInt64.toInt =
      (List.replicate indexEntrySize 0, some "EOF") :=
    File.readAt_of_length_le _ _ (by decide) (by simp) (by simp [indexEntrySize])
  simp only [Retrieve, getBounds, hidx, hoff, hin, hpos, if_false, hread, Except.throw_eq_error,
    Except.error_bind]

/-- An index of one to five bytes is cut to nothing. No entry is read, so the first and the last
entry are both the zero buffer, the head is data file 0 cut to nothing, and the count
`0 / 6 - 1` wraps to `2 ^ 64 - 1` items; the first of them cannot be read. -/
theorem newCustomTable_torn_index (disk : Disk) (maxFilesize : UInt32) (h0 : 0 < disk.index.length)
    (h6 : disk.index.length < indexEntrySize) :
    ∃ t, newCustomTable disk maxFilesize = .ok t ∧ t.items.toNat = 2 ^ 64 - 1 ∧ t.disk.index = [] ∧
      t.Retrieve 0 = .error "EOF" := by
  have hsize : disk.index.length ≠ 0 := by omega
  have hover : disk.index.length % indexEntrySize ≠ 0 := by
    rw [Nat.mod_eq_of_lt h6]
    exact hsize
  have hcut : File.truncate disk.index
      ((disk.index.length - disk.index.length % indexEntrySize : Nat) : Int) = .ok [] := by
    rw [Nat.mod_eq_of_lt h6, Nat.sub_self, Nat.cast_zero, File.truncate_of_le _ le_rfl (by simp)]
    simp
  -- both reads of the empty index leave the zero buffer
  have hzeros : List.replicate indexEntrySize (0 : UInt8) ≠ [] := by simp [indexEntrySize]
  have hfirst : File.readAt [] (List.replicate indexEntrySize 0) 0 =
      (List.replicate indexEntrySize 0, some "EOF") :=
    File.readAt_of_length_le _ _ le_rfl (by simp) hzeros
  have hlast : File.readAt [] (List.replicate indexEntrySize 0) (0 - (indexEntrySize : Int)) =
      (List.replicate indexEntrySize 0, some "readat: negative offset") :=
    File.readAt_neg _ _ (by simp [indexEntrySize])
  unfold newCustomTable FreezerTable.repair
  simp only [hsize, if_false, hover, ne_eq, not_false_eq_true, if_true, hcut, FreezerTable.setIndex,
    List.length_nil, Nat.cast_zero, hfirst, hlast, unmarshalBinary_zero]
  rw [FreezerTable.openFile_of_not_mem List.not_mem_nil (Disk.openData_forAppend _ _),
    Except.ok_bind, FreezerTable.repairLoop_of_le (by simp) (by simp), Except.ok_bind]
  simp only [FreezerTable.preopen, FreezerTable.releaseFilesAfter, Nat.sub_self, List.range'_zero,
    List.foldlM_nil, Except.pure_eq_ok, Except.ok_bind, Bool.false_eq_true, if_false]
  rw [FreezerTable.openFile_of_mem (by simp)]
  have hwrap : (0 : UInt64) < -1 := by decide
  exact ⟨_, rfl, by simp [indexEntrySize], rfl,
    FreezerTable.retrieve_zero_of_index_nil rfl rfl (by simpa [indexEntrySize] using hwrap)⟩

/-- A new table holding the one item `[7]`, whose index a crash cuts to its first 3 bytes, the
data file left as it is: it opens with `2 ^ 64 - 1` items, more than the one it held, and that
item can no longer be read. -/
theorem repair_overcounts_torn_index :
    ∃ t, (newCustomTable ⟨[], fun _ => none⟩ 2000000000 >>= fun t => t.Append 0 [7]) = .ok t ∧
      t.items = 1 ∧ t.Retrieve 0 = .ok [7] ∧
      ∃ t', newCustomTable ⟨t.disk.index.take 3, t.disk.data⟩ 2000000000 = .ok t' ∧
        t'.items.toNat = 2 ^ 64 - 1 ∧ t'.Retrieve 0 = .error "EOF" := by
  rw [newCustomTable_empty, Except.ok_bind]
  refine ⟨_, rfl, rfl, rfl, ?_⟩
  refine (newCustomTable_torn_index _ _ ?_ ?_).imp fun t' h => ⟨h.1, h.2.1, h.2.2.2⟩
  · decide
  · decide

end Ccmchain.RawDb
