import RacOS.Block.Device
import RacOS.Lib.Vec

/-!
# The block cache

The model of `drivers/cache.rs`, a write-back cache of at most 256 sectors
between a filesystem and a block device.  While a recording is active, the
sectors written since it began are pinned: neither eviction nor `flush` may
put a dirty one of them on the device.

The access counter is a natural number, so the `u64::MAX` from which the
least-recently-used scan starts is the absence of a candidate.
-/

namespace RacOS.Block

open Program

/-- Maximum number of cached sectors. -/
abbrev maxCachedSectors : ℕ := 256

/-- A cached sector. -/
structure CacheEntry where
  lba : ℕ
  data : Sector
  dirty : Bool
  accessSeq : ℕ

/-- The cache in front of a block device.  `recording` lists the sectors
written since `beginRecording`, in write order. -/
structure BlockCache where
  device : BlockDevice
  entries : List CacheEntry
  seq : ℕ
  hits : ℕ
  misses : ℕ
  recording : Option (List ℕ)

abbrev CacheM := EStateM BlockError BlockCache

namespace BlockCache

/-- A new cache wrapping the given device. -/
def new (device : BlockDevice) : BlockCache :=
  { device, entries := [], seq := 0, hits := 0, misses := 0, recording := none }

/-- Run a device operation. -/
def onDevice {α : Type} (x : DeviceM α) : CacheM α :=
  focus (·.device) (fun c d => { c with device := d }) id x

/-- Whether `lba` was written in the open recording. -/
def isRecorded (c : BlockCache) (lba : ℕ) : Bool :=
  match c.recording with
  | some list => list.contains lba
  | none => false

/-- The scan of `evict_one`: the least recently used entry that is not pinned,
with its position. -/
def lruScan (pinned : CacheEntry → Bool) :
    List CacheEntry → ℕ → Option (ℕ × CacheEntry) → Option (ℕ × CacheEntry)
  | [], _, lru => lru
  | e :: es, i, lru =>
    if pinned e then lruScan pinned es (i + 1) lru
    else
      match lru with
      | none => lruScan pinned es (i + 1) (some (i, e))
      | some (j, f) =>
        if e.accessSeq < f.accessSeq then
          lruScan pinned es (i + 1) (some (i, e))
        else lruScan pinned es (i + 1) (some (j, f))

/-- Drop the entry at position `i`. -/
def dropAt (c : BlockCache) (i : ℕ) : BlockCache :=
  { c with entries := Vec.swapRemove c.entries i }

/-- Evict the least recently used entry, writing it back if dirty.  Dirty
entries of the open recording are skipped; if nothing else is cached, the
eviction is refused. -/
def evictOne : CacheM Unit := do
  let c ← get
  if c.entries.isEmpty then pure ()
  else
    match lruScan (fun e => e.dirty && c.isRecorded e.lba) c.entries 0 none with
    | none => throw .outOfRange
    | some (i, e) => do
      if e.dirty then onDevice (BlockDevice.writeSector e.lba e.data)
      modify fun c => c.dropAt i

/-- Make room for one more entry if the cache is full. -/
def makeRoom : CacheM Unit := do
  let c ← get
  if maxCachedSectors ≤ c.entries.length then evictOne else pure ()

/-- Append an entry. -/
def push (c : BlockCache) (e : CacheEntry) : BlockCache :=
  { c with entries := c.entries ++ [e] }

/-- Apply `f` to the entry of sector `lba`. -/
def updateEntry (c : BlockCache) (lba : ℕ) (f : CacheEntry → CacheEntry) : BlockCache :=
  { c with entries := Vec.updateFirst (fun e => e.lba == lba) f c.entries }

/-- The entry caching sector `lba`, if any. -/
def lookup (c : BlockCache) (lba : ℕ) : Option CacheEntry :=
  c.entries.find? fun e => e.lba == lba

/-- The body of `read_sector`, for a buffer of one sector. -/
def fetchSector (lba : ℕ) : CacheM Sector := do
  let c ← get
  require (lba < c.device.sectorCount) .outOfRange
  let seq := c.seq + 1
  match c.lookup lba with
  | some e => do
    modify fun c => { c.updateEntry lba fun e => { e with accessSeq := seq } with
      seq := seq, hits := c.hits + 1 }
    pure e.data
  | none => do
    modify fun c => { c with seq := seq, misses := c.misses + 1 }
    let buf ← onDevice (BlockDevice.readSector lba)
    makeRoom
    modify fun c => c.push { lba, data := buf, dirty := false, accessSeq := seq }
    pure buf

/-- Read a sector through the cache into a buffer of `outLen` bytes. -/
def readSector (lba outLen : ℕ) : CacheM Sector := do
  require (outLen = sectorSize) .invalidBuffer
  fetchSector lba

/-- Add `lba` to the recording, if there is one and it is not listed yet. -/
def noteWrite (c : BlockCache) (lba : ℕ) : BlockCache :=
  { c with
    recording := c.recording.map fun list =>
      if list.contains lba then list else list ++ [lba] }

/-- The body of `write_sector`, for a buffer of one sector. -/
def storeSector (lba : ℕ) (data : Sector) : CacheM Unit := do
  let c ← get
  require (lba < c.device.sectorCount) .outOfRange
  let seq := c.seq + 1
  modify fun c => { c with seq := seq }.noteWrite lba
  match c.lookup lba with
  | some _ =>
    modify fun c => c.updateEntry lba fun e =>
      { e with data, dirty := true, accessSeq := seq }
  | none => do
    makeRoom
    modify fun c => c.push { lba, data, dirty := true, accessSeq := seq }

/-- Write a sector through the cache; the data is buffered. -/
def writeSector (lba : ℕ) (input : List UInt8) : CacheM Unit := do
  require (input.length = sectorSize) .invalidBuffer
  storeSector lba (Sector.ofFn fun i => input.getD i 0)

/-- The loop of `flush`: write back the dirty entries that are not pinned,
stopping at the first device error. -/
def flushLoop (pinned : ℕ → Bool) :
    List CacheEntry → BlockDevice → Except BlockError Unit × List CacheEntry × BlockDevice
  | [], d => (.ok (), [], d)
  | e :: es, d =>
    if e.dirty && !pinned e.lba then
      match BlockDevice.writeSector e.lba e.data d with
      | .ok _ d' =>
        let (r, es', d'') := flushLoop pinned es d'
        (r, { e with dirty := false } :: es', d'')
      | .error err d' => (.error err, e :: es, d')
    else
      let (r, es', d') := flushLoop pinned es d
      (r, e :: es', d')

/-- Flush all dirty entries to the device, except those of an open recording. -/
def flush : CacheM Unit := fun c =>
  match flushLoop c.isRecorded c.entries c.device with
  | (.ok _, es, d) => .ok () { c with entries := es, device := d }
  | (.error e, es, d) => .error e { c with entries := es, device := d }

/-- Drop the cached copies of an aborted recording without writing them. -/
def discardRecorded (c : BlockCache) : BlockCache :=
  match c.recording with
  | some list =>
    { c with
      entries := c.entries.filter fun e => !(e.dirty && list.contains e.lba)
      recording := none }
  | none => c

/-- Flush and invalidate all entries. -/
def flushAndInvalidate : CacheM Unit := do
  flush
  modify fun c => { c with entries := [] }

/-- Start recording which sectors get written. -/
def beginRecording (c : BlockCache) : BlockCache :=
  { c with recording := some [] }

/-- Sectors written since `beginRecording`, in write order. -/
def recorded (c : BlockCache) : List ℕ :=
  match c.recording with
  | some list => list
  | none => []

/-- Stop recording; cached data is untouched. -/
def endRecording (c : BlockCache) : BlockCache :=
  { c with recording := none }

/-- Read a sector as the cache sees it, without touching the access order. -/
def peekSector (lba : ℕ) : CacheM Sector := do
  let c ← get
  match c.lookup lba with
  | some e => pure e.data
  | none => onDevice (BlockDevice.readSector lba)

/-- Forget the cached copies of sector `lba`. -/
def forget (c : BlockCache) (lba : ℕ) : BlockCache :=
  { c with entries := c.entries.filter fun e => e.lba != lba }

/-- Write straight to the device, dropping any cached copy first. -/
def writeThrough (lba : ℕ) (data : Sector) : CacheM Unit := do
  modify fun c => c.forget lba
  onDevice (BlockDevice.writeSector lba data)

/-- Read straight from the device. -/
def readThrough (lba : ℕ) : CacheM Sector :=
  onDevice (BlockDevice.readSector lba)

end BlockCache

end RacOS.Block
