import RacOS.Lib.Ring
import RacOS.Lib.Runs
import RacOS.Vfs.Inode

/-!
# Pipes

The anonymous pipes of `vfs/pipe.rs`: a ring buffer that two ends share.  Any number of descriptors
may stand for an end; the end is dropped, and the pipe told so, with the last of them.  A read of an
empty pipe waits while there is a write end.  Beside the pipe two histories are kept: the bytes that
its writes took and the bytes that its reads returned.
-/

namespace RacOS.Vfs

/-! ## The model -/

def pipeCapacity : ℕ := 4096

structure PipeBuffer where
  buf : List UInt8
  readPos : ℕ
  writePos : ℕ
  len : ℕ
  writeClosed : Bool
  readClosed : Bool
  size : buf.length = pipeCapacity

namespace PipeBuffer

def new : PipeBuffer where
  buf := List.replicate pipeCapacity 0
  readPos := 0
  writePos := 0
  len := 0
  writeClosed := false
  readClosed := false
  size := List.length_replicate

def readable (pb : PipeBuffer) : ℕ := pb.len

def writable (pb : PipeBuffer) : ℕ := pipeCapacity - pb.len

/-- Write as many bytes as there is room for, and say how many. -/
def writeBytes (data : List UInt8) (pb : PipeBuffer) : ℕ × PipeBuffer :=
  let n := min data.length pb.writable
  let written := Ring.write (data.take n) pb.buf pb.writePos
  (n, { pb with
    buf := written.1
    writePos := written.2
    len := pb.len + n
    size := (Ring.length_write _ _ _).trans pb.size })

/-- Read as many bytes as there are, up to the size of the caller's buffer. -/
def readBytes (size : ℕ) (pb : PipeBuffer) : List UInt8 × PipeBuffer :=
  let n := min size pb.readable
  let taken := Ring.read pb.buf n pb.readPos
  (taken.1, { pb with readPos := taken.2, len := pb.len - n })

end PipeBuffer

inductive PipeEnd
  | readEnd
  | writeEnd
  deriving DecidableEq

/-- A read through an end.  There is no result while the caller has to yield. -/
def PipeEnd.read (size : ℕ) (pb : PipeBuffer) :
    PipeEnd → Option (Except VfsError (List UInt8) × PipeBuffer)
  | .writeEnd => some (.error .permissionDenied, pb)
  | .readEnd =>
    if size = 0 then some (.ok [], pb)
    else if 0 < pb.readable then
      let taken := pb.readBytes size
      some (.ok taken.1, taken.2)
    else if pb.writeClosed then some (.ok [], pb)
    else none

/-- A write through an end. -/
def PipeEnd.write (data : List UInt8) (pb : PipeBuffer) : PipeEnd → Except VfsError ℕ × PipeBuffer
  | .readEnd => (.error .permissionDenied, pb)
  | .writeEnd =>
    if data = [] then (.ok 0, pb)
    else if pb.readClosed then (.error .brokenPipe, pb)
    else if pb.writable = 0 then (.error .wouldBlock, pb)
    else
      let written := pb.writeBytes data
      (.ok written.1, written.2)

/-! ## Histories -/

/-- A pipe, the numbers of descriptors of its ends, and what went through it. -/
structure Pipe where
  buffer : PipeBuffer
  readers : ℕ
  writers : ℕ
  accepted : List UInt8
  delivered : List UInt8

/-- What a process does with an end that it has a descriptor of. -/
inductive PipeEvent
  | read (e : PipeEnd) (size : ℕ)
  | write (e : PipeEnd) (data : List UInt8)
  | share (e : PipeEnd)
  | close (e : PipeEnd)

namespace Pipe

def create : Pipe where
  buffer := .new
  readers := 1
  writers := 1
  accepted := []
  delivered := []

/-- The bytes in the buffer, the next one to be read first. -/
def contents (p : Pipe) : List UInt8 :=
  Ring.contents p.buffer.buf p.buffer.readPos p.buffer.len

/-- The number of descriptors of an end. -/
def holders (p : Pipe) : PipeEnd → ℕ
  | .readEnd => p.readers
  | .writeEnd => p.writers

/-- The bytes that a read returns. -/
def bytesOf : Except VfsError (List UInt8) → List UInt8
  | .ok bytes => bytes
  | .error _ => []

/-- The number of bytes that a write reports. -/
def countOf : Except VfsError ℕ → ℕ
  | .ok n => n
  | .error _ => 0

/-- Drop a descriptor of an end; the last one drops the end. -/
def drop (p : Pipe) : PipeEnd → Pipe
  | .readEnd =>
    { p with
      readers := p.readers - 1
      buffer := { p.buffer with readClosed := p.buffer.readClosed || p.readers == 1 } }
  | .writeEnd =>
    { p with
      writers := p.writers - 1
      buffer := { p.buffer with writeClosed := p.buffer.writeClosed || p.writers == 1 } }

/-- One event.  An end without descriptors cannot be used. -/
def step (event : PipeEvent) (p : Pipe) : Pipe :=
  match event with
  | .read e size =>
    if p.holders e = 0 then p
    else
      match e.read size p.buffer with
      | some (result, buffer) =>
        { p with buffer := buffer, delivered := p.delivered ++ bytesOf result }
      | none => p
  | .write e data =>
    if p.holders e = 0 then p
    else
      let result := e.write data p.buffer
      { p with
        buffer := result.2
        accepted := p.accepted ++ data.take (countOf result.1) }
  | .share e =>
    if p.holders e = 0 then p
    else
      match e with
      | .readEnd => { p with readers := p.readers + 1 }
      | .writeEnd => { p with writers := p.writers + 1 }
  | .close e => if p.holders e = 0 then p else p.drop e

/-- What an event has to do.  A read that returns nothing into a buffer of positive size found no
write end and nothing undelivered.  A write adds the bytes that it reports, nothing if it fails,
and nothing if there is no read end. -/
def Regular : PipeEvent → Pipe → Prop
  | .read e size, p =>
    0 < size → (∃ buffer, e.read size p.buffer = some (.ok [], buffer)) →
      p.writers = 0 ∧ p.delivered = p.accepted
  | .write e data, p =>
    p.holders e ≠ 0 → countOf (e.write data p.buffer).1 ≤ data.length ∧
      (step (.write e data) p).contents =
        p.contents ++ data.take (countOf (e.write data p.buffer).1) ∧
      (p.readers = 0 → (step (.write e data) p).contents = p.contents)
  | _, _ => True

/-! ## The buffer is a queue -/

/-- The buffer holds what was accepted and not yet delivered, and knows which ends are left. -/
structure Sound (p : Pipe) (queue : List UInt8) : Prop where
  holds : Ring.Holds p.buffer.buf p.buffer.readPos p.buffer.writePos queue
  len : p.buffer.len = queue.length
  flow : p.accepted = p.delivered ++ queue
  writeClosed : p.buffer.writeClosed = true ↔ p.writers = 0
  readClosed : p.buffer.readClosed = true ↔ p.readers = 0

variable {p : Pipe} {queue : List UInt8}

theorem create_sound : create.Sound [] where
  holds := Ring.holds_nil (by rw [create, PipeBuffer.new, List.length_replicate]; decide)
  len := rfl
  flow := rfl
  writeClosed := by decide
  readClosed := by decide

/-- A write either changes nothing and reports no byte, or it is a write into a pipe that has a
read end. -/
theorem write_cases (e : PipeEnd) (data : List UInt8) (pb : PipeBuffer) :
    (countOf (e.write data pb).1 = 0 ∧ (e.write data pb).2 = pb) ∨
    (pb.readClosed = false ∧
      e.write data pb = (.ok (pb.writeBytes data).1, (pb.writeBytes data).2)) := by
  cases e with
  | readEnd => exact .inl ⟨rfl, rfl⟩
  | writeEnd =>
    by_cases hdata : data = []
    · exact .inl (by simp [PipeEnd.write, hdata, countOf])
    · by_cases hclosed : pb.readClosed = true
      · exact .inl (by simp [PipeEnd.write, hdata, hclosed, countOf])
      · by_cases hfull : pb.writable = 0
        · exact .inl (by simp [PipeEnd.write, hdata, hclosed, hfull, countOf])
        · exact .inr (by simp [PipeEnd.write, hdata, hclosed, hfull])

/-- A read that returns either changes nothing and returns no byte, or it takes bytes from a pipe
that has some. -/
theorem read_cases {e : PipeEnd} {size : ℕ} {pb pb' : PipeBuffer}
    {result : Except VfsError (List UInt8)} (h : e.read size pb = some (result, pb')) :
    (bytesOf result = [] ∧ pb' = pb ∧
      (0 < size → result = .ok [] → pb.len = 0 ∧ pb.writeClosed = true)) ∨
    (0 < size ∧ 0 < pb.len ∧ result = .ok (pb.readBytes size).1 ∧ pb' = (pb.readBytes size).2) := by
  cases e with
  | writeEnd =>
    simp only [PipeEnd.read, Option.some.injEq, Prod.mk.injEq] at h
    obtain ⟨rfl, rfl⟩ := h
    exact .inl ⟨rfl, rfl, by simp⟩
  | readEnd =>
    rw [PipeEnd.read] at h
    by_cases hsize : size = 0
    · rw [if_pos hsize, Option.some.injEq, Prod.mk.injEq] at h
      obtain ⟨rfl, rfl⟩ := h
      exact .inl ⟨rfl, rfl, by omega⟩
    · rw [if_neg hsize] at h
      by_cases hlen : 0 < pb.readable
      · rw [if_pos hlen, Option.some.injEq, Prod.mk.injEq] at h
        obtain ⟨rfl, rfl⟩ := h
        exact .inr ⟨Nat.pos_of_ne_zero hsize, hlen, rfl, rfl⟩
      · rw [if_neg hlen] at h
        by_cases hclosed : pb.writeClosed = true
        · rw [if_pos hclosed, Option.some.injEq, Prod.mk.injEq] at h
          obtain ⟨rfl, rfl⟩ := h
          exact .inl ⟨rfl, rfl, fun _ _ => ⟨Nat.eq_zero_of_not_pos hlen, hclosed⟩⟩
        · rw [if_neg hclosed] at h
          cases h

section Sound

variable (h : p.Sound queue)

include h

theorem Sound.contents_eq : p.contents = queue := by
  rw [contents, h.len]
  exact h.holds.contents_eq

theorem Sound.length_le : queue.length ≤ pipeCapacity := by
  rw [← p.buffer.size]
  exact h.holds.fits

theorem writeBytes_sound (data : List UInt8) :
    Ring.Holds (p.buffer.writeBytes data).2.buf p.buffer.readPos
      (p.buffer.writeBytes data).2.writePos
      (queue ++ data.take (p.buffer.writeBytes data).1) := by
  refine h.holds.write _ ?_
  have hfits := h.length_le
  have hlen := h.len
  rw [p.buffer.size, List.length_take]
  simp only [PipeBuffer.writable]
  omega

/-- Reading takes the bytes in front. -/
theorem readBytes_sound (size : ℕ) :
    (p.buffer.readBytes size).1 = queue.take (min size queue.length) ∧
      Ring.Holds p.buffer.buf (p.buffer.readBytes size).2.readPos p.buffer.writePos
        (queue.drop (min size queue.length)) := by
  simp only [PipeBuffer.readBytes, PipeBuffer.readable, h.len]
  exact h.holds.read _ (Nat.min_le_right _ _)

theorem write_step (e : PipeEnd) (data : List UInt8) (he : p.holders e ≠ 0) :
    (step (.write e data) p).Sound
      (queue ++ data.take (countOf (e.write data p.buffer).1)) := by
  rw [step, if_neg he]
  dsimp only
  rcases write_cases e data p.buffer with ⟨hcount, hsame⟩ | ⟨hopen, hwrite⟩
  · rw [hcount, hsame, List.take_zero, List.append_nil, List.append_nil]
    exact h
  · rw [hwrite]
    refine ⟨writeBytes_sound h data, ?_, ?_, h.writeClosed, h.readClosed⟩
    · have hlen := h.len
      simp only [PipeBuffer.writeBytes, countOf, List.length_append, List.length_take]
      omega
    · change p.accepted ++ _ = p.delivered ++ (queue ++ _)
      rw [h.flow, List.append_assoc]

theorem read_sound (size : ℕ) :
    Sound
      { p with
        buffer := (p.buffer.readBytes size).2
        delivered := p.delivered ++ (p.buffer.readBytes size).1 }
      (queue.drop (min size queue.length)) := by
  obtain ⟨htaken, hholds⟩ := readBytes_sound h size
  refine ⟨hholds, ?_, ?_, h.writeClosed, h.readClosed⟩
  · have hlen := h.len
    simp only [PipeBuffer.readBytes, PipeBuffer.readable, List.length_drop]
    omega
  · dsimp only
    rw [htaken, List.append_assoc, List.take_append_drop]
    exact h.flow

theorem read_step (e : PipeEnd) (size : ℕ) : ∃ queue', (step (.read e size) p).Sound queue' := by
  rw [step]
  split_ifs
  · exact ⟨queue, h⟩
  · cases hread : e.read size p.buffer with
    | none => exact ⟨queue, h⟩
    | some out =>
      obtain ⟨result, buffer⟩ := out
      rcases read_cases hread with ⟨hbytes, rfl, -⟩ | ⟨-, -, rfl, rfl⟩
      · refine ⟨queue, h.holds, h.len, ?_, h.writeClosed, h.readClosed⟩
        change p.accepted = p.delivered ++ _ ++ queue
        rw [hbytes, List.append_nil]
        exact h.flow
      · exact ⟨_, read_sound h size⟩

theorem drop_sound (e : PipeEnd) (he : p.holders e ≠ 0) : (p.drop e).Sound queue := by
  have hw := h.writeClosed
  have hr := h.readClosed
  cases e with
  | readEnd =>
    refine ⟨h.holds, h.len, h.flow, hw, ?_⟩
    simp only [holders] at he
    simp only [drop, Bool.or_eq_true, beq_iff_eq, hr]
    omega
  | writeEnd =>
    refine ⟨h.holds, h.len, h.flow, ?_, hr⟩
    simp only [holders] at he
    simp only [drop, Bool.or_eq_true, beq_iff_eq, hw]
    omega

theorem share_sound (e : PipeEnd) : (step (.share e) p).Sound queue := by
  have hw := h.writeClosed
  have hr := h.readClosed
  by_cases he : p.holders e = 0
  · simpa [step, he] using h
  · cases e with
    | readEnd =>
      simp only [step, he, if_false]
      refine ⟨h.holds, h.len, h.flow, hw, hr.trans ?_⟩
      simpa [holders] using he
    | writeEnd =>
      simp only [step, he, if_false]
      refine ⟨h.holds, h.len, h.flow, hw.trans ?_, hr⟩
      simpa [holders] using he

/-- Only a pipe that has no write end and nothing left returns no byte. -/
theorem read_regular (e : PipeEnd) (size : ℕ) : Regular (.read e size) p := by
  rintro hsize ⟨buffer, hread⟩
  rcases read_cases hread with ⟨-, -, hend⟩ | ⟨-, hlen, hbytes, -⟩
  · obtain ⟨hempty, hclosed⟩ := hend hsize rfl
    have hqueue : queue = [] := List.eq_nil_of_length_eq_zero (h.len.symm.trans hempty)
    exact ⟨h.writeClosed.mp hclosed, by rw [h.flow, hqueue, List.append_nil]⟩
  · -- a pipe with bytes returns some of them
    rw [Except.ok.injEq, (readBytes_sound h size).1, eq_comm, List.take_eq_nil_iff] at hbytes
    have hqueue := h.len
    rcases hbytes with hmin | rfl
    · omega
    · simp [hqueue] at hlen

theorem write_regular (e : PipeEnd) (data : List UInt8) : Regular (.write e data) p := by
  intro he
  rw [(write_step h e data he).contents_eq, h.contents_eq]
  rcases write_cases e data p.buffer with ⟨hcount, -⟩ | ⟨hopen, hwrite⟩
  · rw [hcount]
    exact ⟨Nat.zero_le _, rfl, fun _ => by simp⟩
  · refine ⟨?_, rfl, fun hnone => ?_⟩
    · rw [hwrite]
      exact Nat.min_le_left _ _
    · rw [h.readClosed.mpr hnone] at hopen
      cases hopen

end Sound

/-- Every event keeps the buffer a queue of what was accepted and not yet delivered. -/
theorem step_sound (event : PipeEvent) (p : Pipe) (h : ∃ queue, p.Sound queue) :
    ∃ queue, (step event p).Sound queue := by
  obtain ⟨queue, h⟩ := h
  cases event with
  | read e size => exact read_step h e size
  | write e data =>
    by_cases he : p.holders e = 0
    · rw [step, if_pos he]
      exact ⟨queue, h⟩
    · exact ⟨_, write_step h e data he⟩
  | share e => exact ⟨queue, share_sound h e⟩
  | close e =>
    rw [step]
    split_ifs with he
    · exact ⟨queue, h⟩
    · exact ⟨queue, drop_sound h e he⟩

theorem step_regular (event : PipeEvent) (p : Pipe) (h : ∃ queue, p.Sound queue) :
    Regular event p := by
  obtain ⟨queue, h⟩ := h
  cases event with
  | read e size => exact read_regular h e size
  | write e data => exact write_regular h e data
  | share e => trivial
  | close e => trivial

/-- In every history of reads, writes and closes of the ends, what was read is the first part of
what was accepted and the rest is in the buffer, which never holds more than its capacity.  Every
read and every write of the history is regular. -/
theorem pipe_is_fifo_queue (events : List PipeEvent) :
    (Runs.run step events create).delivered <+: (Runs.run step events create).accepted ∧
    (Runs.run step events create).accepted =
      (Runs.run step events create).delivered ++ (Runs.run step events create).contents ∧
    (Runs.run step events create).contents.length ≤ pipeCapacity ∧
    Runs.Along step Regular events create := by
  have hcreate : ∃ queue, create.Sound queue := ⟨[], create_sound⟩
  obtain ⟨queue, h⟩ := Runs.invariant step_sound events hcreate
  rw [h.contents_eq]
  refine ⟨⟨queue, h.flow.symm⟩, h.flow, h.length_le, ?_⟩
  exact Runs.along_of_invariant step_sound step_regular events hcreate

/-! ## Writes without reads, and reads -/

/-- A write into a pipe with a reader takes as much as there is room for. -/
theorem write_takes (h : p.Sound queue) (hreaders : p.readers ≠ 0) (data : List UInt8) :
    queue ++ data.take (countOf (PipeEnd.writeEnd.write data p.buffer).1) =
      (queue ++ data).take pipeCapacity := by
  have hopen : p.buffer.readClosed ≠ true := fun hclosed => hreaders (h.readClosed.mp hclosed)
  have hroom : p.buffer.writable = pipeCapacity - queue.length := by
    rw [PipeBuffer.writable, h.len]
  rw [List.take_append, List.take_of_length_le h.length_le, ← hroom, PipeEnd.write, if_neg hopen]
  congr 1
  split_ifs with hdata hfull
  · rw [hdata, List.take_nil, List.take_nil]
  · rw [hfull]
    rfl
  · exact List.take_eq_take_iff.mpr (by simp [countOf, PipeBuffer.writeBytes]; omega)

theorem run_writes (h : p.Sound queue) (hreaders : p.readers ≠ 0) (hwriters : p.writers ≠ 0)
    (writes : List (List UInt8)) :
    Sound (Runs.run step (writes.map (.write .writeEnd)) p)
        ((queue ++ writes.flatten).take pipeCapacity) ∧
      (Runs.run step (writes.map (.write .writeEnd)) p).readers = p.readers ∧
      (Runs.run step (writes.map (.write .writeEnd)) p).writers = p.writers ∧
      (Runs.run step (writes.map (.write .writeEnd)) p).delivered = p.delivered := by
  induction writes generalizing p queue with
  | nil =>
    rw [List.flatten_nil, List.append_nil, List.take_of_length_le h.length_le]
    exact ⟨h, rfl, rfl, rfl⟩
  | cons data writes ih =>
    have hheld : p.holders .writeEnd ≠ 0 := hwriters
    have hstep := write_step h .writeEnd data hheld
    rw [write_takes h hreaders] at hstep
    have hsame : (step (.write .writeEnd data) p).readers = p.readers ∧
        (step (.write .writeEnd data) p).writers = p.writers ∧
        (step (.write .writeEnd data) p).delivered = p.delivered := by
      rw [step, if_neg hheld]
      exact ⟨rfl, rfl, rfl⟩
    obtain ⟨hr, hw, hd⟩ := hsame
    have hrest := ih hstep (hr ▸ hreaders) (hw ▸ hwriters)
    rw [hr, hw, hd, Ring.take_take_append] at hrest
    rw [List.map_cons, Runs.run, List.flatten_cons, ← List.append_assoc]
    exact hrest

theorem read_piece (h : p.Sound queue) (hreaders : p.readers ≠ 0) (hqueue : queue ≠ [])
    {size : ℕ} (hsize : 0 < size) :
    (∃ buffer, PipeEnd.readEnd.read size p.buffer = some (.ok (queue.take size), buffer)) ∧
      (step (.read .readEnd size) p).Sound (queue.drop size) ∧
      (step (.read .readEnd size) p).readers = p.readers := by
  have hpos : 0 < p.buffer.readable := by
    rw [PipeBuffer.readable, h.len]
    exact List.length_pos_iff.mpr hqueue
  have hread : PipeEnd.readEnd.read size p.buffer =
      some (.ok (p.buffer.readBytes size).1, (p.buffer.readBytes size).2) := by
    rw [PipeEnd.read, if_neg hsize.ne', if_pos hpos]
  have htake : (p.buffer.readBytes size).1 = queue.take size := by
    rw [(readBytes_sound h size).1, List.take_eq_take_iff]
    omega
  have hheld : p.holders .readEnd ≠ 0 := hreaders
  have hsound := read_sound h size
  have hdrop : queue.drop (min size queue.length) = queue.drop size :=
    List.drop_eq_drop_min.symm
  refine ⟨⟨_, htake ▸ hread⟩, ?_, ?_⟩
  · rw [step, if_neg hheld, hread]
    exact hdrop ▸ hsound
  · rw [step, if_neg hheld, hread]

end Pipe

end RacOS.Vfs
