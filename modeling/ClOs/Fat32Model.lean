import ClOs.Disk
import ClOs.Paths

/-!
# The FAT32 driver

The functions of `fat32.c` over a mounted volume.  A volume is what `init_fat32`
leaves behind, so the tests of `fat32_initialized` are part of its type.  Every
access to a sector or cluster buffer is checked, and following a chain halts as
endless when it has visited more clusters than there are cluster numbers.
What `fat32_list_directory` prints is a matter of its own.
-/

namespace ClOs.Fat32

open ByteStore

/-! ## The volume -/

/-- The bytes of a `FAT32_BPB_T`. -/
abbrev Bpb := ByteStore

namespace Bpb

def bytesPerSector (bpb : Bpb) : ℕ := bpb.le16 11
def sectorsPerCluster (bpb : Bpb) : ℕ := (bpb 13).toNat
def reservedSectorCount (bpb : Bpb) : ℕ := bpb.le16 14
def fatCount (bpb : Bpb) : ℕ := (bpb 16).toNat
def totalSectors (bpb : Bpb) : ℕ := bpb.le16 19
def largeSectorCount (bpb : Bpb) : ℕ := bpb.le32 32
def sectorsPerFat (bpb : Bpb) : ℕ := bpb.le32 36
def rootCluster (bpb : Bpb) : ℕ := bpb.le32 44

end Bpb

/-- A mounted volume.  `garbage` is what uninitialised memory holds. -/
structure Volume where
  bpb : Bpb
  disk : ByteStore
  lastFreeCluster : ℕ
  garbage : ByteStore

/-- `init_fat32`, with the initial value of `last_free_cluster`. -/
def initFat32 (disk garbage : ByteStore) : Volume where
  bpb := readSectors disk 0
  disk := disk
  lastFreeCluster := 2
  garbage := garbage

namespace Volume

def rootCluster (v : Volume) : ℕ := v.bpb.rootCluster

def bytesPerCluster (v : Volume) : ℕ :=
  v.bpb.sectorsPerCluster * v.bpb.bytesPerSector

def entriesPerCluster (v : Volume) : ℕ := v.bytesPerCluster / 32

def dataStart (v : Volume) : ℕ :=
  u32 (v.bpb.reservedSectorCount + u32 (v.bpb.fatCount * v.bpb.sectorsPerFat))

def clusterLba (v : Volume) (cluster : ℕ) : ℕ :=
  u32 (v.dataStart + u32 (sub32 cluster 2 * v.bpb.sectorsPerCluster))

end Volume

/-- `kmalloc(size)` filled by `read_sectors`. -/
def loadSectors (v : Volume) (size lba count : ℕ) : Outcome Buffer :=
  Buffer.load { size := size, bytes := v.garbage } 0 (readSectors v.disk lba)
    (512 * sectorsMoved count)

def readCluster (v : Volume) (cluster : ℕ) : Outcome Buffer :=
  loadSectors v v.bytesPerCluster (v.clusterLba cluster)
    v.bpb.sectorsPerCluster

def writeCluster (v : Volume) (cluster : ℕ) (bytes : ByteStore) : Volume :=
  { v with
    disk := writeSectors v.disk (v.clusterLba cluster)
      v.bpb.sectorsPerCluster bytes }

/-! ## The file allocation table -/

/-- The sector and the offset of a cluster's entry in one copy of the FAT.
Dividing by `bytes_per_sector = 0` is a CPU exception. -/
def fatPlace (v : Volume) (copy cluster : ℕ) : Outcome (ℕ × ℕ) :=
  if v.bpb.bytesPerSector = 0 then .error .kernelPanic
  else
    .ok (u32 (u32 (v.bpb.reservedSectorCount +
        u32 (copy * v.bpb.sectorsPerFat)) +
          u32 (cluster * 4) / v.bpb.bytesPerSector),
      u32 (cluster * 4) % v.bpb.bytesPerSector)

def getNextCluster (v : Volume) (cluster : ℕ) : Outcome ℕ := do
  let (sector, offset) ← fatPlace v 0 cluster
  let buffer ← loadSectors v v.bpb.bytesPerSector sector 1
  let entry ← buffer.get32 offset
  return entry &&& 0x0FFFFFFF

/-- One round of the loop of `set_next_cluster`. -/
def setNextInCopy (cluster next : ℕ) (v : Volume) (copy : ℕ) :
    Outcome Volume := do
  let (sector, offset) ← fatPlace v copy cluster
  let buffer ← loadSectors v v.bpb.bytesPerSector sector 1
  let current ← buffer.get32 offset
  let value := current &&& 0xF0000000 ||| next &&& 0x0FFFFFFF
  return { v with
    disk := writeSectors v.disk sector 1 (buffer.bytes.put32 offset value) }

def setNextCluster (v : Volume) (cluster next : ℕ) : Outcome Volume :=
  (List.range v.bpb.fatCount).foldlM (setNextInCopy cluster next) v

/-- `total_clusters` as `find_free_cluster` computes it. -/
def totalClusters (v : Volume) : Outcome ℕ :=
  let sectors :=
    if v.bpb.totalSectors ≠ 0 then v.bpb.totalSectors
    else v.bpb.largeSectorCount
  if v.bpb.sectorsPerCluster = 0 then .error .kernelPanic
  else
    .ok (sub32 (sub32 sectors v.bpb.reservedSectorCount)
      (u32 (v.bpb.fatCount * v.bpb.sectorsPerFat)) / v.bpb.sectorsPerCluster)

/-- The step of `last_free_cluster`. -/
def advance (total cursor : ℕ) : ℕ :=
  if u32 (total + 2) ≤ u32 (cursor + 1) then 2 else u32 (cursor + 1)

/-- The loop of `find_free_cluster`: the cluster found, or 0, and the cursor. -/
def searchFree (v : Volume) (total : ℕ) : ℕ → ℕ → Outcome (ℕ × ℕ)
  | 0, cursor => return (0, cursor)
  | count + 1, cursor => do
      if (← getNextCluster v cursor) = 0 then
        return (cursor, advance total cursor)
      else searchFree v total count (advance total cursor)

def findFreeCluster (v : Volume) : Outcome (ℕ × Volume) := do
  let total ← totalClusters v
  let (cluster, cursor) ← searchFree v total total v.lastFreeCluster
  return (cluster, { v with lastFreeCluster := cursor })

/-- The loops over a chain go on at these values. -/
def IsCluster (cluster : ℕ) : Prop := 2 ≤ cluster ∧ cluster < 0x0FFFFFF8

instance (cluster : ℕ) : Decidable (IsCluster cluster) :=
  inferInstanceAs (Decidable (_ ∧ _))

/-- No chain has more clusters without coming back to one of them. -/
@[irreducible] def chainFuel : ℕ := 0x0FFFFFF8

/-- Follow a chain and show each cluster to `visit`.  The result is the first
answer of `visit`, or else the last cluster of the chain. -/
def walkChain {α : Type} (v : Volume)
    (visit : ℕ → Buffer → Outcome (Option α)) :
    ℕ → ℕ → ℕ → Outcome (α ⊕ ℕ)
  | 0, _, _ => .error .endless
  | fuel + 1, last, current =>
      if IsCluster current then do
        let buffer ← readCluster v current
        match ← visit current buffer with
        | some answer => return .inl answer
        | none =>
            let next ← getNextCluster v current
            walkChain v visit fuel current next
      else return .inr last

/-! ## Directory entries -/

/-- The bytes of a `DIR_ENTRY_T`. -/
abbrev Entry := ByteStore

/-- `entries[i]` of a cluster buffer. -/
def entryAt (bytes : ByteStore) (i : ℕ) : Entry := fun k =>
  if k < 32 then bytes (32 * i + k) else 0

namespace Entry

def name (entry : Entry) : List UInt8 := (List.range 11).map entry
def attributes (entry : Entry) : ℕ := (entry 11).toNat
def firstCluster (entry : Entry) : ℕ := entry.le16 26 ||| entry.le16 20 <<< 16
def size (entry : Entry) : ℕ := entry.le32 28

def isEnd (entry : Entry) : Bool := entry 0 = 0
def isDeleted (entry : Entry) : Bool := entry 0 = 0xE5
def isLongName (entry : Entry) : Bool := entry.attributes &&& 0x0F = 0x0F
def isDirectory (entry : Entry) : Bool := entry.attributes &&& 0x10 ≠ 0

/-- The entry that `find_file` makes up for the root directory. -/
def root (cluster : ℕ) : Entry :=
  ((put8 (fun _ => 0) 11 0x10).put16 26 (cluster &&& 0xFFFF)).put16 20
    (cluster >>> 16 &&& 0xFFFF)

end Entry

def firstEntry (v : Volume) (bytes : ByteStore) (accept : Entry → Bool) :
    Option ℕ :=
  (List.range v.entriesPerCluster).find? (fun i => accept (entryAt bytes i))

/-! ## Names -/

/-- The character `'.'`. -/
def dot : UInt8 := 46

def upper (c : UInt8) : UInt8 := if 97 ≤ c ∧ c ≤ 122 then c - 32 else c

/-- The first `count` characters, filled up with blanks. -/
def pad (count : ℕ) (text : CString) : List UInt8 :=
  ((text.map upper) ++ List.replicate count 32).take count

def filenameToFat32 (normal : CString) : List UInt8 :=
  pad 8 (normal.takeWhile (· ≠ dot)) ++
    pad 3 (normal.dropWhile (· ≠ dot)).tail

def dotNames : List (List UInt8) :=
  [dot :: List.replicate 10 32, dot :: dot :: List.replicate 9 32]

/-! ## Lookup -/

/-- `find_entry_in_cluster`.  `out_cluster` is ignored by its caller. -/
def findEntryInCluster (v : Volume) (cluster : ℕ) (name : List UInt8) :
    Outcome (Option Entry) := do
  let visit := fun (_ : ℕ) (buffer : Buffer) =>
    match firstEntry v buffer.bytes (fun entry => entry.isEnd ||
        (!entry.isDeleted && !entry.isLongName && entry.name = name)) with
    | none => (.ok none : Outcome (Option (Option Entry)))
    | some i =>
        let entry := entryAt buffer.bytes i
        if entry.isEnd then .ok (some none) else .ok (some (some entry))
  match ← walkChain v visit chainFuel cluster cluster with
  | .inl answer => return answer
  | .inr _ => return none

/-- The lookup of one token of a path. -/
def findToken (v : Volume) (cluster : ℕ) (token : CString) :
    Outcome (Option Entry) :=
  findEntryInCluster v cluster (filenameToFat32 token)

def enterEntry (entry : Entry) : Outcome (Option ℕ) :=
  .ok (if entry.isDirectory then some entry.firstCluster else none)

def findFile (v : Volume) (path : CString) : Outcome (Option (Entry × ℕ)) := do
  let copy ← copyPath path
  let stripped := stripSlashes copy
  if stripped = [] then
    return some (Entry.root v.rootCluster, v.rootCluster)
  else
    match ← scanPath (findToken v) enterEntry (stripped.length + 1)
        v.rootCluster stripped with
    | none => return none
    | some (cluster, entry) => return some (entry, cluster)

/-- `resolve_parent_directory`: the first cluster of the directory, 0 if there
is none, and the file name. -/
def resolveParentDirectory (v : Volume) (path : CString) :
    Outcome (ℕ × CString) := do
  let copy ← copyPath path
  let stripped := stripSlash copy
  match lastSlash stripped with
  | none => return (v.rootCluster, stripped)
  | some i =>
      match ← findFile v (stripped.take i) with
      | none => return (0, stripped.drop (i + 1))
      | some (entry, _) =>
          return (if entry.isDirectory then entry.firstCluster else 0,
            stripped.drop (i + 1))

/-! ## Insertion -/

/-- The 32 bytes of a new entry.  Every field that is not given is 0. -/
def newEntry (name : CString) (attrs first size : ℕ) : Entry :=
  ((((blit (fun _ => 0) 0 (fun k => (filenameToFat32 name).getD k 0)
    11).put8 11 attrs).put16 20 (first >>> 16 &&& 0xFFFF)).put16 26
      (first &&& 0xFFFF)).put32 28 size

/-- `memset` to 0, a list of entries from the start on, and the bytes that
`write_sectors` takes from the buffer. -/
def clusterOf (v : Volume) (entries : List Entry) : Outcome ByteStore := do
  let filled ← entries.zipIdx.foldlM (fun (buffer : Buffer) entry =>
      buffer.load (32 * entry.2) entry.1 32)
    { size := v.bytesPerCluster, bytes := fun _ => 0 }
  filled.slice 0 (512 * sectorsMoved v.bpb.sectorsPerCluster)

def createDirEntry (v : Volume) (cluster : ℕ) (name : CString)
    (attrs first size : ℕ) : Outcome (Bool × Volume) := do
  let start := if cluster = 0 then v.rootCluster else cluster
  let visit := fun (current : ℕ) (buffer : Buffer) =>
    match firstEntry v buffer.bytes (fun entry =>
        entry.isEnd || entry.isDeleted) with
    | none => (.ok none : Outcome (Option Volume))
    | some i => .ok (some (writeCluster v current
        (buffer.bytes.blit (32 * i) (newEntry name attrs first size) 32)))
  match ← walkChain v visit chainFuel start start with
  | .inl next => return (true, next)
  | .inr last =>
      let (newCluster, found) ← findFreeCluster v
      if newCluster = 0 then return (false, found)
      else
        let linked ← setNextCluster found last newCluster
        let ended ← setNextCluster linked newCluster 0x0FFFFFF8
        let bytes ← clusterOf ended [newEntry name attrs first size]
        return (true, writeCluster ended newCluster bytes)

/-! ## Files -/

/-- The loop of `fat32_read_file`. -/
def readClusters (v : Volume) (size : ℕ) :
    ℕ → ℕ → ℕ → ByteStore → Outcome (ℕ × ByteStore)
  | 0, _, _, _ => .error .endless
  | fuel + 1, cluster, totalRead, buffer =>
      if IsCluster cluster ∧ totalRead < size then do
        let clusterBuf ← readCluster v cluster
        let chunk := min (size - totalRead) v.bytesPerCluster
        let bytes ← clusterBuf.slice 0 chunk
        let next ← getNextCluster v cluster
        readClusters v size fuel next (totalRead + chunk)
          (buffer.blit totalRead bytes chunk)
      else return (totalRead, buffer)

def fat32ReadFile (v : Volume) (path : CString) (buffer : ByteStore) :
    Outcome (ℕ × ByteStore) := do
  match ← findFile v path with
  | none => return (0, buffer)
  | some (entry, _) =>
      readClusters v entry.size (entry.size + chainFuel + 1)
        entry.firstCluster 0 buffer

def fat32FileSize (v : Volume) (path : CString) : Outcome ℕ := do
  match ← findFile v path with
  | none => return 0
  | some (entry, _) => return entry.size

def fat32FileExists (v : Volume) (path : CString) : Outcome Bool := do
  return (← findFile v path).isSome

/-! ## Deletion -/

/-- The test by which `fat32_delete` keeps a directory: an entry other than
`.` and `..`.  The end marker ends the look at one cluster only. -/
def hasEntries (v : Volume) (cluster : ℕ) : Outcome Bool := do
  let visit := fun (_ : ℕ) (buffer : Buffer) =>
    match firstEntry v buffer.bytes (fun entry => entry.isEnd ||
        (!entry.isDeleted && decide (entry.name ∉ dotNames))) with
    | none => (.ok none : Outcome (Option Unit))
    | some i =>
        if (entryAt buffer.bytes i).isEnd then .ok none else .ok (some ())
  match ← walkChain v visit chainFuel cluster cluster with
  | .inl _ => return true
  | .inr _ => return false

/-- The loop of `fat32_delete` that frees a chain.  A cluster that has been
freed ends it. -/
def freeChain : ℕ → ℕ → Volume → Outcome Volume
  | 0, _, _ => .error .endless
  | fuel + 1, cluster, v =>
      if IsCluster cluster then do
        let next ← getNextCluster v cluster
        let freed ← setNextCluster v cluster 0
        freeChain fuel next freed
      else return v

/-- The last part of `fat32_delete`: mark the entry by `0xE5`. -/
def removeEntry (v : Volume) (parentCluster : ℕ) (name : List UInt8) :
    Outcome Volume := do
  let start := if parentCluster = 0 then v.rootCluster else parentCluster
  let visit := fun (current : ℕ) (buffer : Buffer) =>
    match firstEntry v buffer.bytes (fun entry =>
        entry.isEnd || entry.name = name) with
    | none => (.ok none : Outcome (Option Volume))
    | some i =>
        if (entryAt buffer.bytes i).isEnd then .ok none
        else .ok (some (writeCluster v current
          (buffer.bytes.put8 (32 * i) 0xE5)))
  match ← walkChain v visit chainFuel start start with
  | .inl next => return next
  | .inr _ => return v

/-- The test of `fat32_delete` on the entry it found. -/
def isOccupied (v : Volume) (entry : Entry) : Outcome Bool :=
  if entry.isDirectory then hasEntries v entry.firstCluster
  else return false

def fat32Delete (v : Volume) (path : CString) : Outcome (Bool × Volume) := do
  match ← findFile v path with
  | none => return (false, v)
  | some (entry, parentCluster) =>
      if ← isOccupied v entry then return (false, v)
      else
        let freed ← freeChain (2 * chainFuel) entry.firstCluster v
        let (_, targetName) ← resolveParentDirectory freed path
        let removed ← removeEntry freed parentCluster
          (filenameToFat32 targetName)
        return (true, removed)

/-! ## Creation -/

def linkCluster (v : Volume) (prev next : ℕ) : Outcome Volume :=
  if prev = 0 then return v else setNextCluster v prev next

/-- The loop of `fat32_write_file` that builds the chain: its first and its
last cluster, unless no cluster is found. -/
def takeClusters : ℕ → ℕ → ℕ → Volume → Outcome (Option (ℕ × ℕ) × Volume)
  | 0, first, prev, v => return (some (first, prev), v)
  | count + 1, first, prev, v => do
      let (cluster, found) ← findFreeCluster v
      if cluster = 0 then return (none, found)
      else
        let linked ← linkCluster found prev cluster
        takeClusters count (if prev = 0 then cluster else first) cluster linked

/-- The loop of `fat32_write_file` that stores the data. -/
def writeClusters (buffer : ByteStore) (size : ℕ) :
    ℕ → ℕ → ℕ → Volume → Outcome (ℕ × Volume)
  | 0, _, _, _ => .error .endless
  | fuel + 1, cluster, written, v =>
      if IsCluster cluster ∧ written < size then do
        let chunk := min (size - written) v.bytesPerCluster
        let clusterBuf : Buffer := {
          size := v.bytesPerCluster
          bytes := blit (fun _ => 0) 0 (buffer.drop written) chunk }
        let bytes ← clusterBuf.slice 0
          (512 * sectorsMoved v.bpb.sectorsPerCluster)
        let stored := writeCluster v cluster bytes
        let next ← getNextCluster stored cluster
        writeClusters buffer size fuel next (written + chunk) stored
      else return (written, v)

def clustersNeeded (v : Volume) (size : ℕ) : Outcome ℕ :=
  if v.bytesPerCluster = 0 then .error .kernelPanic
  else .ok (max 1 (ceilDiv size v.bytesPerCluster))

def fat32WriteFile (v : Volume) (path : CString) (buffer : ByteStore)
    (size : ℕ) : Outcome (ℕ × Volume) := do
  let (parentCluster, filename) ← resolveParentDirectory v path
  if parentCluster = 0 then return (0, v)
  else
    let (_, deleted) ← fat32Delete v path
    let count ← clustersNeeded deleted size
    match ← takeClusters count 0 0 deleted with
    | (none, failed) => return (0, failed)
    | (some (first, last), taken) =>
        let ended ← linkCluster taken last 0x0FFFFFF8
        let (written, stored) ← writeClusters buffer size
          (size + chainFuel + 1) first 0 ended
        let (_, next) ← createDirEntry stored parentCluster filename 0x20
          first size
        return (written, next)

/-- The entries `.` and `..` of a new directory. -/
def dotEntry (name : List UInt8) (cluster : ℕ) : Entry :=
  (((blit (fun _ => 0) 0 (fun k => name.getD k 0) 11).put8 11 0x10).put16 26
    (cluster &&& 0xFFFF)).put16 20 (cluster >>> 16 &&& 0xFFFF)

def fat32CreateDirectory (v : Volume) (path : CString) :
    Outcome (Bool × Volume) := do
  match ← findFile v path with
  | some _ => return (false, v)
  | none =>
      let (parentCluster, dirname) ← resolveParentDirectory v path
      if parentCluster = 0 then return (false, v)
      else
        let (cluster, found) ← findFreeCluster v
        if cluster = 0 then return (false, found)
        else
          let ended ← setNextCluster found cluster 0x0FFFFFF8
          let bytes ← clusterOf ended
            [dotEntry (dot :: List.replicate 10 32) cluster,
              dotEntry (dot :: dot :: List.replicate 9 32) parentCluster]
          let stored := writeCluster ended cluster bytes
          let (_, next) ← createDirEntry stored parentCluster dirname 0x10
            cluster 0
          return (true, next)

end ClOs.Fat32
