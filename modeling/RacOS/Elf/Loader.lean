import RacOS.Lib.Bytes
import RacOS.Mm.AddressSpace

/-!
# The program loader

The model of `elf.rs`.  The loader reads the headers of an image, allocates and fills
memory for its segments, applies the relocations of a position-independent image and
allocates a stack.  Sums that the source does not check are taken modulo the word size.

The machine is what the loader works on: the free frames, in the order in which they
are given out, and the physical memory.  It keeps a record of the frames the loader has
got and of the bytes it has touched.
-/

namespace RacOS.Elf

open Program
open Mm (pageSize Segment LoadedElf userStackSize)

inductive ElfError
  | tooSmall
  | badMagic
  | notElf64
  | notLittleEndian
  | notExecutable
  | notX86
  | noEntry
  | tooManySegments
  | segmentOutOfBounds
  | segmentNotInUserSpace
  | outOfMemory
  | relocationFailed
  deriving DecidableEq

/-- The size of the word. -/
abbrev word : ℕ := 2 ^ 64

/-- The data of a program file: its length and the memory from its first byte on.  No
object is larger than half of the address space. -/
structure Image where
  len : ℕ
  bytes : Bytes
  fits : len < 2 ^ 63

/-! ## Headers -/

/-- The fields of the file header that are used. -/
structure Header where
  magic : List UInt8
  elfClass : UInt8
  encoding : UInt8
  type : ℕ
  machine : ℕ
  entry : ℕ
  phoff : ℕ
  phentsize : ℕ
  phnum : ℕ

/-- The fields of a program header that are used. -/
structure Phdr where
  type : ℕ
  flags : UInt32
  offset : ℕ
  vaddr : ℕ
  filesz : ℕ
  memsz : ℕ

abbrev elf64HeaderSize : ℕ := 64
abbrev elf64PhdrSize : ℕ := 56
abbrev elf64DynSize : ℕ := 16
abbrev elf64RelaSize : ℕ := 24

namespace Image

def header (image : Image) : Header where
  magic := (List.range 4).map image.bytes
  elfClass := image.bytes 4
  encoding := image.bytes 5
  type := image.bytes.readLe 2 16
  machine := image.bytes.readLe 2 18
  entry := image.bytes.readLe 8 24
  phoff := image.bytes.readLe 8 32
  phentsize := image.bytes.readLe 2 54
  phnum := image.bytes.readLe 2 56

def phdrAt (image : Image) (off : ℕ) : Phdr where
  type := image.bytes.readLe 4 off
  flags := UInt32.ofNat (image.bytes.readLe 4 (off + 4))
  offset := image.bytes.readLe 8 (off + 8)
  vaddr := image.bytes.readLe 8 (off + 16)
  filesz := image.bytes.readLe 8 (off + 32)
  memsz := image.bytes.readLe 8 (off + 40)

end Image

abbrev elfMagic : List UInt8 := [0x7F, 0x45, 0x4C, 0x46]
abbrev etExec : ℕ := 2
abbrev etDyn : ℕ := 3
abbrev emX86 : ℕ := 62
abbrev ptLoad : ℕ := 1
abbrev ptDynamic : ℕ := 2

/-- The highest user-space address. -/
abbrev userSpaceMax : ℕ := 0x00007FFFFFFFFFFF

/-- The fixed load bias of position-independent images. -/
abbrev etDynLoadBias : ℕ := 0x100000000

def checkedAdd (a b : ℕ) (e : ElfError) : Except ElfError ℕ :=
  if a + b < word then .ok (a + b) else .error e

def Header.loadBias (h : Header) : ℕ := if h.type = etDyn then etDynLoadBias else 0

/-- The checks of the file header; the result is the entry point. -/
def Header.check (h : Header) : Except ElfError ℕ :=
  if h.magic ≠ elfMagic then .error .badMagic
  else if h.elfClass ≠ 2 then .error .notElf64
  else if h.encoding ≠ 1 then .error .notLittleEndian
  else if h.type ≠ etExec ∧ h.type ≠ etDyn then .error .notExecutable
  else if h.machine ≠ emX86 then .error .notX86
  else if h.entry = 0 then .error .noEntry
  else if ¬h.entry + h.loadBias < word then .error .segmentOutOfBounds
  else if userSpaceMax < h.entry + h.loadBias then .error .segmentNotInUserSpace
  else .ok (h.entry + h.loadBias)

/-- Where a segment begins, and how much memory it takes from the beginning of its first
page on. -/
structure Extent where
  effVaddr : ℕ
  totalMem : ℕ

namespace Extent

def pageOffset (x : Extent) : ℕ := x.effVaddr % pageSize

def pages (x : Extent) : ℕ := (x.totalMem + pageSize - 1) / pageSize

end Extent

/-- The checks of a segment that is to be loaded. -/
def Phdr.check (image : Image) (loadBias : ℕ) (ph : Phdr) : Except ElfError Extent :=
  if ph.memsz < ph.filesz then .error .segmentOutOfBounds
  else if ¬ph.vaddr + loadBias < word then .error .segmentOutOfBounds
  else if ¬ph.vaddr + loadBias + ph.memsz < word then .error .segmentOutOfBounds
  else if userSpaceMax < ph.vaddr + loadBias + ph.memsz then .error .segmentNotInUserSpace
  else if ¬ph.offset + ph.filesz < word then .error .segmentOutOfBounds
  else if image.len < ph.offset + ph.filesz then .error .segmentOutOfBounds
  else if ¬(ph.vaddr + loadBias) % pageSize + ph.memsz < word then .error .segmentOutOfBounds
  else .ok ⟨ph.vaddr + loadBias, (ph.vaddr + loadBias) % pageSize + ph.memsz⟩

/-! ## The machine -/

/-- What frames are got for when a program is started. -/
inductive Owner
  | segment
  | stack
  | kernelStack
  deriving DecidableEq

/-- Bytes that the loader touches. -/
inductive Access
  /-- A part of the image is read. -/
  | image (off len : ℕ)
  /-- Memory is cleared or filled with data of the image. -/
  | fill (addr len : ℕ)
  /-- A table of the loaded program is read. -/
  | fetch (addr len : ℕ)
  /-- A relocation is applied. -/
  | relocate (addr len : ℕ)
  deriving DecidableEq

structure Machine where
  free : List ℕ
  memory : Bytes
  /-- The runs of frames that were allocated: the owner, the first frame and the number. -/
  runs : List (Owner × ℕ × ℕ) := []
  accesses : List Access := []

abbrev LoadM := EStateM ElfError Machine

/-- The first of a number of consecutive free frames. -/
def freeRun (free : List ℕ) (count : ℕ) : Option ℕ :=
  if count = 0 then none
  else free.find? fun first => (List.range' first count).all (· ∈ free)

/-- The free frames without those of a run. -/
def withoutRun (free : List ℕ) (first count : ℕ) : List ℕ :=
  free.filter (· ∉ List.range' first count)

/-- Allocate contiguous frames. -/
def allocContiguous (owner : Owner) (count : ℕ) : LoadM ℕ := fun m =>
  match freeRun m.free count with
  | none => .error .outOfMemory m
  | some first => .ok first { m with
      free := withoutRun m.free first count, runs := (owner, first, count) :: m.runs }

variable {owner : Owner} {m : Machine}

theorem allocContiguous_of_none {count : ℕ} (h : freeRun m.free count = none) :
    allocContiguous owner count m = .error .outOfMemory m := by
  simp only [allocContiguous, h]

theorem allocContiguous_of_some {count first : ℕ} (h : freeRun m.free count = some first) :
    allocContiguous owner count m = .ok first { m with
      free := withoutRun m.free first count, runs := (owner, first, count) :: m.runs } := by
  simp only [allocContiguous, h]

def touch (a : Access) : LoadM Unit := modify fun m => { m with accesses := a :: m.accesses }

/-- Fill memory with the first bytes of a buffer. -/
def fill (addr len : ℕ) (src : Bytes) : LoadM Unit := do
  touch (.fill addr len)
  modify fun m => { m with memory := m.memory.patch addr len src }

/-! ## Segments -/

/-- Clear the memory of a segment and copy the data of the file. -/
def fillSegment (image : Image) (ph : Phdr) (x : Extent) (first : ℕ) : LoadM Unit := do
  fill (first * pageSize) (x.pages * pageSize) Bytes.zero
  if 0 < ph.filesz then
    touch (.image ph.offset ph.filesz)
    fill (first * pageSize + x.pageOffset) ph.filesz (image.bytes.slice ph.offset)

/-- Load one segment: check it, allocate memory and fill it. -/
def loadSegment (image : Image) (loadBias : ℕ) (ph : Phdr) : LoadM Segment := do
  let x ← MonadExcept.ofExcept (ph.check image loadBias)
  let first ← allocContiguous .segment x.pages
  fillSegment image ph x first
  return ⟨x.effVaddr - x.pageOffset, x.totalMem, ph.flags, first⟩

/-- What the loop over the program headers has found. -/
structure Progress where
  segments : List Segment := []
  dynamicVaddr : Option ℕ := none
  dynamicSize : ℕ := 0

/-- Remember where the dynamic section is. -/
def noteDynamic (loadBias : ℕ) (ph : Phdr) (p : Progress) : Except ElfError Progress :=
  if ph.type = ptDynamic then
    (checkedAdd ph.vaddr loadBias .segmentOutOfBounds).map fun dynVaddr =>
      { p with dynamicVaddr := some dynVaddr, dynamicSize := ph.memsz }
  else .ok p

theorem segments_of_noteDynamic {loadBias : ℕ} {ph : Phdr} {p p' : Progress}
    (h : noteDynamic loadBias ph p = .ok p') : p'.segments = p.segments := by
  unfold noteDynamic checkedAdd at h
  split_ifs at h <;> cases h <;> rfl

/-- Take up one program header. -/
def loadHeader (image : Image) (loadBias : ℕ) (ph : Phdr) (p : Progress) : LoadM Progress := do
  let p ← MonadExcept.ofExcept (noteDynamic loadBias ph p)
  if ph.type ≠ ptLoad then return p
  else do
    require (p.segments.length < 8) .tooManySegments
    let seg ← loadSegment image loadBias ph
    return { p with segments := p.segments ++ [seg] }

/-- The offset of a program header, as the source computes it. -/
def Header.phdrOffset (h : Header) (i : ℕ) : ℕ := (h.phoff + i * h.phentsize) % word

/-- Read a program header, if the source finds it inside the data. -/
def readPhdr (image : Image) (off : ℕ) : LoadM Phdr := do
  require ((off + elf64PhdrSize) % word ≤ image.len) .segmentOutOfBounds
  touch (.image off elf64PhdrSize)
  return image.phdrAt off

variable {image : Image} {off : ℕ}

theorem readPhdr_of_le (m : Machine) (h : (off + elf64PhdrSize) % word ≤ image.len) :
    readPhdr image off m = .ok (image.phdrAt off)
      { m with accesses := .image off elf64PhdrSize :: m.accesses } := by
  rw [readPhdr, require_bind_run, if_pos h]
  rfl

theorem readPhdr_of_not_le (m : Machine) (h : ¬(off + elf64PhdrSize) % word ≤ image.len) :
    readPhdr image off m = .error .segmentOutOfBounds m := by
  rw [readPhdr, require_bind_run, if_neg h]

/-- The loop over the program headers, with the number of those that are left. -/
def loadHeaders (image : Image) (h : Header) : (left i : ℕ) → Progress → LoadM Progress
  | 0, _, p => return p
  | left + 1, i, p => do
      let ph ← readPhdr image (h.phdrOffset i)
      let p ← loadHeader image h.loadBias ph p
      loadHeaders image h left (i + 1) p

/-! ## Relocations -/

/-- Where the bytes at a virtual address are in memory. -/
def resolveLoadedPtr : List Segment → (vaddr size : ℕ) → Except ElfError ℕ
  | [], _, _ => .error .relocationFailed
  | seg :: rest, vaddr, size =>
    if ¬seg.vaddr + seg.memsz < word then .error .relocationFailed
    else if ¬vaddr + size < word then .error .relocationFailed
    else if seg.vaddr ≤ vaddr ∧ vaddr + size ≤ seg.vaddr + seg.memsz then
      .ok (seg.first * pageSize + (vaddr - seg.vaddr))
    else resolveLoadedPtr rest vaddr size

def runtimeVaddr (addr loadBias : ℕ) : Except ElfError ℕ :=
  if loadBias ≤ addr then .ok addr else checkedAdd addr loadBias .relocationFailed

/-- The little-endian words at an address of memory. -/
def fetchWords (addr count : ℕ) : LoadM (List ℕ) := fun m =>
  .ok ((List.range count).map fun k => m.memory.readLe 8 (addr + k * 8))
    { m with accesses := .fetch addr (count * 8) :: m.accesses }

/-- What the dynamic section says about the relocations. -/
structure DynInfo where
  relaVaddr : Option ℕ := none
  relaSize : ℕ := 0
  relaEntSize : ℕ := elf64RelaSize

abbrev dtNull : ℕ := 0
abbrev dtRela : ℕ := 7
abbrev dtRelasz : ℕ := 8
abbrev dtRelaent : ℕ := 9

/-- The loop over the dynamic section. -/
def scanDynamic (ptr loadBias : ℕ) : (left i : ℕ) → DynInfo → LoadM DynInfo
  | 0, _, info => return info
  | left + 1, i, info => do
      let ent ← fetchWords (ptr + i * elf64DynSize) 2
      let tag := ent.getD 0 0
      let val := ent.getD 1 0
      if tag = dtNull then return info
      else if tag = dtRela then do
        let relaVaddr ← MonadExcept.ofExcept (runtimeVaddr val loadBias)
        scanDynamic ptr loadBias left (i + 1) { info with relaVaddr := some relaVaddr }
      else if tag = dtRelasz then
        scanDynamic ptr loadBias left (i + 1) { info with relaSize := val }
      else if tag = dtRelaent then
        scanDynamic ptr loadBias left (i + 1) { info with relaEntSize := val }
      else scanDynamic ptr loadBias left (i + 1) info

abbrev rX86Relative : ℕ := 8

/-- Apply one relocation. -/
def applyRela (segments : List Segment) (loadBias : ℕ) (rela : List ℕ) : LoadM Unit :=
  if rela.getD 1 0 % 2 ^ 32 = rX86Relative then do
    let placeVaddr ← MonadExcept.ofExcept (runtimeVaddr (rela.getD 0 0) loadBias)
    let place ← MonadExcept.ofExcept (resolveLoadedPtr segments placeVaddr 8)
    touch (.relocate place 8)
    modify fun m => { m with
      memory := m.memory.writeLe 8 place ((loadBias + rela.getD 2 0) % word) }
  else return ()

/-- The loop over the relocations. -/
def applyRelas (segments : List Segment) (loadBias ptr entSize : ℕ) : (left i : ℕ) → LoadM Unit
  | 0, _ => return ()
  | left + 1, i => do
      let rela ← fetchWords (ptr + i * entSize) 3
      applyRela segments loadBias rela
      applyRelas segments loadBias ptr entSize left (i + 1)

/-- The relocations that the dynamic section names. -/
def applyTable (segments : List Segment) (loadBias : ℕ) (info : DynInfo) : LoadM Unit :=
  match info.relaVaddr with
  | none => return ()
  | some relaBase =>
    if info.relaSize = 0 then return ()
    else do
      require (elf64RelaSize ≤ info.relaEntSize) .relocationFailed
      let ptr ← MonadExcept.ofExcept (resolveLoadedPtr segments relaBase info.relaSize)
      applyRelas segments loadBias ptr info.relaEntSize (info.relaSize / info.relaEntSize) 0

def applyRelocations (segments : List Segment) (dynamicVaddr dynamicSize loadBias : ℕ) :
    LoadM Unit :=
  if dynamicSize < elf64DynSize then return ()
  else do
    let ptr ← MonadExcept.ofExcept (resolveLoadedPtr segments dynamicVaddr dynamicSize)
    let info ← scanDynamic ptr loadBias (dynamicSize / elf64DynSize) 0 {}
    applyTable segments loadBias info

/-- Relocate the segments of a position-independent image. -/
def relocate (h : Header) (p : Progress) : LoadM Unit :=
  if h.type = etDyn then
    match p.dynamicVaddr with
    | none => return ()
    | some dynVaddr => applyRelocations p.segments dynVaddr p.dynamicSize h.loadBias
  else return ()

/-! ## Loading -/

/-- Allocate and clear the user stack. -/
def allocStack : LoadM ℕ := do
  let first ← allocContiguous .stack (userStackSize / pageSize)
  fill (first * pageSize) userStackSize Bytes.zero
  return first

/-- A program in memory: its entry point and what is mapped for it. -/
structure Loaded where
  entryPoint : ℕ
  program : LoadedElf

/-- Load the segments and the stack of a program whose header is in order. -/
def loadProgram (image : Image) (h : Header) (entryPoint : ℕ) : LoadM Loaded := do
  let p ← loadHeaders image h h.phnum 0 {}
  relocate h p
  let stackFirst ← allocStack
  return ⟨entryPoint, p.segments, stackFirst⟩

/-- Load a program from its image into physical memory. -/
def loadElf (image : Image) : LoadM Loaded := do
  require (elf64HeaderSize ≤ image.len) .tooSmall
  touch (.image 0 elf64HeaderSize)
  let entryPoint ← MonadExcept.ofExcept image.header.check
  loadProgram image image.header entryPoint

end RacOS.Elf
