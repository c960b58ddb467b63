import Mathlib.Tactic.SplitIfs
import RacOS.Lib.Ring
import RacOS.Lib.Runs
import RacOS.Tty.Pty

/-!
# Input of a pseudo-terminal

The line discipline of `kernel/src/tty/line_discipline.rs` and the input side of
`kernel/src/tty/pty.rs`, with the devices of `kernel/src/vfs/devfs.rs` over them.  What the master
writes is edited line by line; submitted bytes are queued for the slave up to a limit, and those
that find the queue full are dropped.  The master is told in any case that all of its bytes were
written.
-/

namespace RacOS.Tty

/-! ## The line discipline -/

inductive LineMode
  | canonical
  | raw
  deriving DecidableEq

inductive TtySignal
  | interrupt
  | quit
  | suspend
  | eof

inductive LdiscOutput
  | echo (b : UInt8)
  | echoSeq (seq : List UInt8)
  | lineReady
  | signal (sig : TtySignal)
  | passthrough (b : UInt8)
  | none

structure LineDiscipline where
  mode : LineMode := .canonical
  inputBuf : List UInt8 := []
  cookedBuf : List UInt8 := []
  echo : Bool := true
  eraseChar : UInt8 := 0x7F
  intrChar : UInt8 := 0x03
  quitChar : UInt8 := 0x1C
  suspChar : UInt8 := 0x1A
  eofChar : UInt8 := 0x04

namespace LineDiscipline

def processCanonical (byte : UInt8) (l : LineDiscipline) : LdiscOutput × LineDiscipline :=
  if byte = l.intrChar then (.signal .interrupt, { l with inputBuf := [] })
  else if byte = l.quitChar then (.signal .quit, { l with inputBuf := [] })
  else if byte = l.suspChar then (.signal .suspend, l)
  else if byte = l.eofChar then
    (.signal .eof, { l with inputBuf := [], cookedBuf := l.cookedBuf ++ l.inputBuf })
  else if byte = l.eraseChar ∨ byte = 0x08 then
    (if l.inputBuf ≠ [] ∧ l.echo then .echoSeq [0x08, 0x20, 0x08] else .none,
      { l with inputBuf := l.inputBuf.dropLast })
  else if byte = 0x0A ∨ byte = 0x0D then
    (if l.echo then .echo 0x0A else .lineReady,
      { l with inputBuf := [], cookedBuf := l.cookedBuf ++ l.inputBuf ++ [0x0A] })
  else (if l.echo then .echo byte else .none, { l with inputBuf := l.inputBuf ++ [byte] })

def processInput (byte : UInt8) (l : LineDiscipline) : LdiscOutput × LineDiscipline :=
  match l.mode with
  | .raw => (.passthrough byte, l)
  | .canonical => l.processCanonical byte

/-- Read cooked bytes into a buffer of the given size; in canonical mode a line feed ends it. -/
def read : ℕ → LineDiscipline → List UInt8 × LineDiscipline
  | 0, l => ([], l)
  | size + 1, l =>
    match l.cookedBuf with
    | [] => ([], l)
    | b :: rest =>
      let l := { l with cookedBuf := rest }
      if l.mode = .canonical ∧ b = 0x0A then ([b], l)
      else
        let more := read size l
        (b :: more.1, more.2)

end LineDiscipline

/-! ## The terminal -/

/-- A pseudo-terminal with both directions: the bytes that wait for the slave, and the line
discipline in front of them. -/
structure PtyPair extends PtyMaster where
  slaveBuf : List UInt8
  ldisc : LineDiscipline

def allocPty : PtyPair where
  masterBuf := []
  slaveBuf := []
  ldisc := {}

/-- A byte that finds the queue full is dropped. -/
def queueByte (buf : List UInt8) (b : UInt8) : List UInt8 :=
  if buf.length < ptyBufSize then buf ++ [b] else buf

namespace PtyPair

/-- The loop of `flush_ldisc_to_slave`; every round but the last takes a byte. -/
def flushRounds : ℕ → PtyPair → PtyPair
  | 0, pty => pty
  | rounds + 1, pty =>
    let (bytes, ldisc) := pty.ldisc.read 256
    if bytes = [] then pty
    else flushRounds rounds { pty with ldisc, slaveBuf := bytes.foldl queueByte pty.slaveBuf }

def flushLdiscToSlave (pty : PtyPair) : PtyPair := pty.flushRounds (pty.ldisc.cookedBuf.length + 1)

/-- One round of the loop of `write_input`: the bytes to echo, and the terminal. -/
def inputByte (byte : UInt8) (pty : PtyPair) : List UInt8 × PtyPair :=
  let (output, ldisc) := pty.ldisc.processInput byte
  let pty := { pty with ldisc }
  match output with
  | .echo b => ([b], pty)
  | .echoSeq seq => (seq, pty)
  | .lineReady => ([], pty.flushLdiscToSlave)
  | .passthrough b => ([], { pty with slaveBuf := queueByte pty.slaveBuf b })
  | .signal _ => ([], pty.flushLdiscToSlave)
  | .none => ([], pty)

def inputBytes : List UInt8 → PtyPair → List UInt8 × PtyPair
  | [], pty => ([], pty)
  | byte :: data, pty =>
    let first := pty.inputByte byte
    let more := inputBytes data first.2
    (first.1 ++ more.1, more.2)

def writeInput (data : List UInt8) (pty : PtyPair) : List UInt8 × PtyPair :=
  let result := pty.inputBytes data
  (result.1, result.2.flushLdiscToSlave)

def slaveRead (size : ℕ) (pty : PtyPair) : List UInt8 × PtyPair :=
  (pty.slaveBuf.take size, { pty with slaveBuf := pty.slaveBuf.drop size })

/-- The write of `PtmxDevice`, with the count it reports. -/
def ptmxWrite (buf : List UInt8) (pty : PtyPair) : ℕ × PtyPair :=
  let (echo, pty) := pty.writeInput buf
  let pty :=
    if echo = [] then pty
    else { pty with toPtyMaster := (pty.toPtyMaster.slaveWrite echo).2 }
  (buf.length, pty)

end PtyPair

/-! ## The line editor -/

/-- A line editor: the line that is typed, and all bytes that were submitted. -/
structure Editor where
  pending : List UInt8
  submitted : List UInt8

namespace Editor

/-- Suspend leaves the line as it is. -/
def type (e : Editor) (byte : UInt8) : Editor :=
  if byte = 0x03 ∨ byte = 0x1C then { e with pending := [] }
  else if byte = 0x1A then e
  else if byte = 0x04 then ⟨[], e.submitted ++ e.pending⟩
  else if byte = 0x7F ∨ byte = 0x08 then { e with pending := e.pending.dropLast }
  else if byte = 0x0A ∨ byte = 0x0D then ⟨[], e.submitted ++ e.pending ++ [0x0A]⟩
  else { e with pending := e.pending ++ [byte] }

/-- The bytes that are submitted when the data is typed after a pending line. -/
def submits (pending data : List UInt8) : List UInt8 :=
  (data.foldl type ⟨pending, []⟩).submitted

end Editor

/-! ## Sessions -/

inductive Event
  | write (data : List UInt8)
  | read (size : ℕ)

/-- A terminal, and what the slave has read from it. -/
structure Session where
  pty : PtyPair
  received : List UInt8

namespace Session

/-- A read that finds nothing waits, and changes nothing. -/
def step : Event → Session → Session
  | .write data, s => { s with pty := (s.pty.ptmxWrite data).2 }
  | .read size, s =>
    let (bytes, pty) := s.pty.slaveRead size
    ⟨pty, s.received ++ bytes⟩

def start : Session := ⟨allocPty, []⟩

/-- What was received and what still waits for the slave. -/
def delivered (s : Session) : List UInt8 := s.received ++ s.pty.slaveBuf

/-- The bytes that an event submits find room. -/
def Fits : Event → Session → Prop
  | .write data, s =>
    s.pty.slaveBuf.length + (Editor.submits s.pty.ldisc.inputBuf data).length ≤ ptyBufSize
  | .read _, _ => True

end Session

/-- All bytes that a sequence of events types. -/
def typed : List Event → List UInt8
  | [] => []
  | .write data :: events => data ++ typed events
  | .read _ :: events => typed events

/-! ## One flush -/

theorem foldl_queueByte {buf : List UInt8} (hbuf : buf.length ≤ ptyBufSize) (bytes : List UInt8) :
    bytes.foldl queueByte buf = (buf ++ bytes).take ptyBufSize := by
  induction bytes generalizing buf with
  | nil => rw [List.foldl_nil, List.append_nil, List.take_of_length_le hbuf]
  | cons b bytes ih =>
    rw [List.foldl_cons, queueByte]
    split
    · rename_i hroom
      rw [ih (by rw [List.length_append, List.length_singleton]; exact hroom),
        List.append_assoc, List.singleton_append]
    · rename_i hfull
      have hlength : buf.length = ptyBufSize := by omega
      rw [ih hbuf, List.take_append_of_le_length (by omega),
        List.take_append_of_le_length (by omega)]

namespace LineDiscipline

/-- A read takes bytes from the front of the cooked ones, and nothing else changes. -/
theorem read_spec (size : ℕ) (l : LineDiscipline) :
    ∃ rest, (l.read size).2 = { l with cookedBuf := rest } ∧
      (l.read size).1 ++ rest = l.cookedBuf := by
  induction size generalizing l with
  | zero => exact ⟨l.cookedBuf, rfl, rfl⟩
  | succ size ih =>
    rw [read]
    split
    · rename_i hempty
      exact ⟨[], by rw [← hempty], hempty.symm⟩
    · rename_i b rest hcooked
      dsimp only
      split
      · exact ⟨rest, rfl, hcooked.symm⟩
      · obtain ⟨rest', hl, hbytes⟩ := ih { l with cookedBuf := rest }
        exact ⟨rest', hl, by rw [List.cons_append, hbytes, hcooked]⟩

theorem read_eq_nil {size : ℕ} {l : LineDiscipline} (h : (l.read (size + 1)).1 = []) :
    l.cookedBuf = [] := by
  rw [read] at h
  split at h
  · assumption
  · dsimp only at h
    split at h <;> simp at h

end LineDiscipline

namespace PtyPair

variable {pty : PtyPair}

theorem flushRounds_eq {rounds : ℕ} (hrounds : pty.ldisc.cookedBuf.length < rounds)
    (hbuf : pty.slaveBuf.length ≤ ptyBufSize) :
    pty.flushRounds rounds =
      { pty with
        ldisc := { pty.ldisc with cookedBuf := [] }
        slaveBuf := (pty.slaveBuf ++ pty.ldisc.cookedBuf).take ptyBufSize } := by
  induction rounds generalizing pty with
  | zero => omega
  | succ rounds ih =>
    obtain ⟨rest, hldisc, hbytes⟩ := pty.ldisc.read_spec 256
    rw [flushRounds]
    dsimp only
    split
    · rename_i hempty
      have hcooked := LineDiscipline.read_eq_nil hempty
      rw [hcooked, List.append_nil, List.take_of_length_le hbuf, ← hcooked]
    · rename_i hne
      have hpos := List.length_pos_iff.mpr hne
      have hlength := congrArg List.length hbytes
      rw [List.length_append] at hlength
      rw [ih, hldisc, foldl_queueByte hbuf, ← hbytes]
      · rw [Ring.take_take_append, List.append_assoc]
      · rw [hldisc]
        dsimp only
        omega
      · rw [foldl_queueByte hbuf]
        exact List.length_take_le _ _

theorem flushLdiscToSlave_eq (hbuf : pty.slaveBuf.length ≤ ptyBufSize) :
    pty.flushLdiscToSlave =
      { pty with
        ldisc := { pty.ldisc with cookedBuf := [] }
        slaveBuf := (pty.slaveBuf ++ pty.ldisc.cookedBuf).take ptyBufSize } :=
  flushRounds_eq (Nat.lt_succ_self _) hbuf

end PtyPair

/-! ## One write -/

/-- Canonical mode with the characters of a new terminal. -/
def LineDiscipline.Standard (l : LineDiscipline) : Prop :=
  l = { inputBuf := l.inputBuf, cookedBuf := l.cookedBuf, echo := l.echo }

namespace LineDiscipline

variable {l : LineDiscipline}

theorem processInput_ne_passthrough (hl : l.Standard) (b byte : UInt8) :
    (l.processInput b).1 ≠ .passthrough byte := by
  rw [hl, processInput]
  dsimp only [processCanonical]
  split_ifs <;> simp

/-- The line discipline edits the line as the editor does. -/
theorem processInput_spec (hl : l.Standard) {e : Editor} (hpending : l.inputBuf = e.pending)
    (b : UInt8) :
    ∃ more, (e.type b).submitted = e.submitted ++ more ∧
      (l.processInput b).2 =
        { l with inputBuf := (e.type b).pending, cookedBuf := l.cookedBuf ++ more } := by
  rw [hl, processInput, hpending]
  dsimp only [processCanonical, Editor.type]
  by_cases hintr : b = 0x03
  · exact ⟨[], by simp [hintr]⟩
  by_cases hquit : b = 0x1C
  · exact ⟨[], by simp [hquit]⟩
  by_cases hsusp : b = 0x1A
  · exact ⟨[], by simp [hsusp]⟩
  by_cases heof : b = 0x04
  · exact ⟨e.pending, by simp [heof]⟩
  by_cases herase : b = 0x7F ∨ b = 0x08
  · exact ⟨[], by simp [hintr, hquit, hsusp, heof, herase]⟩
  by_cases hline : b = 0x0A ∨ b = 0x0D
  · exact ⟨e.pending ++ [0x0A], by simp [hintr, hquit, hsusp, heof, herase, hline]⟩
  · exact ⟨[], by simp [hintr, hquit, hsusp, heof, herase, hline]⟩

end LineDiscipline

/-- The terminal has edited the bytes that the editor was given, after those that waited for the
slave before. -/
structure Carries (pty : PtyPair) (waiting : List UInt8) (e : Editor) : Prop where
  standard : pty.ldisc.Standard
  pending : pty.ldisc.inputBuf = e.pending
  bounded : pty.slaveBuf.length ≤ ptyBufSize
  queued : (pty.slaveBuf ++ pty.ldisc.cookedBuf).take ptyBufSize =
    (waiting ++ e.submitted).take ptyBufSize

namespace Carries

variable {pty : PtyPair} {waiting : List UInt8} {e : Editor}

theorem flush (h : Carries pty waiting e) : Carries pty.flushLdiscToSlave waiting e := by
  rw [PtyPair.flushLdiscToSlave_eq h.bounded]
  refine ⟨?_, h.pending, List.length_take_le _ _, ?_⟩
  · rw [h.standard]
    rfl
  · rw [Ring.take_take_append, List.append_nil, h.queued]

theorem process (h : Carries pty waiting e) (b : UInt8) :
    Carries { pty with ldisc := (pty.ldisc.processInput b).2 } waiting (e.type b) := by
  obtain ⟨more, hsubmitted, hldisc⟩ := LineDiscipline.processInput_spec h.standard h.pending b
  rw [hldisc]
  refine ⟨?_, rfl, h.bounded, ?_⟩
  · rw [h.standard]
    rfl
  · rw [← List.append_assoc, ← Ring.take_take_append, h.queued, Ring.take_take_append, hsubmitted,
      List.append_assoc]

theorem inputByte (h : Carries pty waiting e) (b : UInt8) :
    Carries (pty.inputByte b).2 waiting (e.type b) := by
  have hprocess := h.process b
  rw [PtyPair.inputByte]
  dsimp only
  split
  · exact hprocess
  · exact hprocess
  · exact hprocess.flush
  · rename_i byte hbyte
    exact absurd hbyte (LineDiscipline.processInput_ne_passthrough h.standard b byte)
  · exact hprocess.flush
  · exact hprocess

theorem inputBytes (h : Carries pty waiting e) (data : List UInt8) :
    Carries (pty.inputBytes data).2 waiting (data.foldl Editor.type e) := by
  induction data generalizing pty e with
  | nil => exact h
  | cons b data ih => exact ih (h.inputByte b)

/-- After a write, all that the slave can get is in its queue. -/
theorem writeInput (h : Carries pty waiting e) (data : List UInt8) :
    Carries (pty.writeInput data).2 waiting (data.foldl Editor.type e) ∧
      (pty.writeInput data).2.ldisc.cookedBuf = [] ∧
      (pty.writeInput data).2.slaveBuf =
        (waiting ++ (data.foldl Editor.type e).submitted).take ptyBufSize := by
  have hinput := h.inputBytes data
  rw [PtyPair.writeInput]
  refine ⟨hinput.flush, ?_, ?_⟩
  · rw [PtyPair.flushLdiscToSlave_eq hinput.bounded]
  · rw [PtyPair.flushLdiscToSlave_eq hinput.bounded]
    exact hinput.queued

end Carries

namespace Editor

/-- What was submitted before stays in front. -/
theorem type_eq (pending submitted : List UInt8) (b : UInt8) :
    type ⟨pending, submitted⟩ b =
      ⟨(type ⟨pending, []⟩ b).pending, submitted ++ (type ⟨pending, []⟩ b).submitted⟩ := by
  unfold type
  split_ifs <;> simp

theorem foldl_type (pending submitted data : List UInt8) :
    data.foldl type ⟨pending, submitted⟩ =
      ⟨(data.foldl type ⟨pending, []⟩).pending, submitted ++ submits pending data⟩ := by
  induction data generalizing pending submitted with
  | nil => rw [submits, List.foldl_nil, List.foldl_nil, List.append_nil]
  | cons b data ih =>
    rw [submits, List.foldl_cons, List.foldl_cons, type_eq pending submitted, ih]
    generalize type ⟨pending, []⟩ b = e
    rw [ih e.pending e.submitted, List.append_assoc]

end Editor

/-! ## Runs -/

namespace Session

/-- Between two events the terminal is as the editor is, and no more was delivered than was
submitted. -/
structure Tracks (s : Session) (e : Editor) : Prop where
  standard : s.pty.ldisc.Standard
  pending : s.pty.ldisc.inputBuf = e.pending
  cooked : s.pty.ldisc.cookedBuf = []
  bounded : s.pty.slaveBuf.length ≤ ptyBufSize
  delivered_le : s.delivered.length ≤ e.submitted.length

variable {s : Session} {e : Editor}

/-- A write queues what it submits as far as there is room. -/
theorem Tracks.step_write (h : Tracks s e) (data : List UInt8) :
    Carries (step (.write data) s).pty s.pty.slaveBuf (data.foldl Editor.type ⟨e.pending, []⟩) ∧
      (step (.write data) s).pty.ldisc.cookedBuf = [] ∧
      (step (.write data) s).delivered =
        s.received ++ (s.pty.slaveBuf ++ Editor.submits e.pending data).take ptyBufSize := by
  have hcarries : Carries s.pty s.pty.slaveBuf ⟨e.pending, []⟩ :=
    ⟨h.standard, h.pending, h.bounded, by rw [h.cooked]⟩
  obtain ⟨hafter, hcooked, hbuf⟩ := hcarries.writeInput data
  -- the echo goes the other way
  have hpty : (step (.write data) s).pty.slaveBuf = (s.pty.writeInput data).2.slaveBuf ∧
      (step (.write data) s).pty.ldisc = (s.pty.writeInput data).2.ldisc := by
    rw [step, PtyPair.ptmxWrite]
    dsimp only
    split <;> exact ⟨rfl, rfl⟩
  obtain ⟨hslave, hldisc⟩ := hpty
  refine ⟨⟨?_, ?_, ?_, ?_⟩, ?_, ?_⟩
  · rw [hldisc]
    exact hafter.standard
  · rw [hldisc]
    exact hafter.pending
  · rw [hslave]
    exact hafter.bounded
  · rw [hslave, hldisc]
    exact hafter.queued
  · rw [hldisc]
    exact hcooked
  · rw [delivered, hslave, hbuf]
    rfl

theorem Tracks.write (h : Tracks s e) (data : List UInt8) :
    Tracks (step (.write data) s) (data.foldl Editor.type e) ∧
      ((step (.write data) s).delivered = (data.foldl Editor.type e).submitted ↔
        s.delivered = e.submitted ∧ Fits (.write data) s) := by
  obtain ⟨hafter, hcooked, hdelivered⟩ := h.step_write data
  have hle := h.delivered_le
  have hpending := h.pending
  have hedit := Editor.foldl_type e.pending e.submitted data
  rw [hedit, hdelivered, Fits, hpending]
  rw [delivered, List.length_append] at hle
  refine ⟨⟨hafter.standard, hafter.pending, hcooked, hafter.bounded, ?_⟩, ?_, ?_⟩
  · rw [hdelivered, List.length_append, List.length_append, List.length_take, List.length_append]
    omega
  · -- the lengths leave no room for a cut
    intro heq
    have hlength := congrArg List.length heq
    rw [List.length_append, List.length_append, List.length_take, List.length_append] at hlength
    have hfits : s.pty.slaveBuf.length + (Editor.submits e.pending data).length ≤ ptyBufSize := by
      omega
    rw [List.take_of_length_le (by rwa [List.length_append]), ← List.append_assoc] at heq
    exact ⟨List.append_cancel_right heq, hfits⟩
  · rintro ⟨heq, hfits⟩
    rw [List.take_of_length_le (by rwa [List.length_append]), ← List.append_assoc, ← heq, delivered]

theorem Tracks.read (h : Tracks s e) (size : ℕ) :
    Tracks (step (.read size) s) e ∧
      ((step (.read size) s).delivered = e.submitted ↔ s.delivered = e.submitted) := by
  have hdelivered : (step (.read size) s).delivered = s.delivered := by
    simp [step, delivered, PtyPair.slaveRead]
  refine ⟨⟨h.standard, h.pending, h.cooked, ?_, ?_⟩, ?_⟩
  · exact Nat.le_trans (List.drop_sublist _ _).length_le h.bounded
  · rw [hdelivered]
    exact h.delivered_le
  · rw [hdelivered]

/-- Over a run nothing is lost exactly if nothing was lost before and every write fits. -/
theorem delivered_run_iff (h : Tracks s e) (events : List Event) :
    (Runs.run step events s).delivered = ((typed events).foldl Editor.type e).submitted ↔
      s.delivered = e.submitted ∧ Runs.Along step Fits events s := by
  induction events generalizing s e with
  | nil => exact (and_iff_left trivial).symm
  | cons event events ih =>
    cases event with
    | write data =>
      obtain ⟨htracks, hstep⟩ := h.write data
      rw [typed, List.foldl_append, Runs.run, ih htracks, hstep, and_assoc]
      rfl
    | read size =>
      obtain ⟨htracks, hstep⟩ := h.read size
      rw [typed, Runs.run, ih htracks, hstep]
      exact and_congr_right fun _ => (and_iff_right trivial).symm

theorem tracks_start : Tracks start ⟨[], []⟩ :=
  ⟨rfl, rfl, rfl, Nat.zero_le _, Nat.le_refl _⟩

end Session

/-- The slave gets all that was submitted, in order, exactly if every write finds room for what it
submits. -/
theorem delivered_eq_submitted_iff (events : List Event) :
    (Runs.run Session.step events Session.start).delivered = Editor.submits [] (typed events) ↔
      Runs.Along Session.step Session.Fits events Session.start :=
  (Session.delivered_run_iff Session.tracks_start events).trans (and_iff_right rfl)

theorem Editor.submits_replicate (n : ℕ) :
    Editor.submits [] (List.replicate n 0x0A) = List.replicate n 0x0A := by
  induction n with
  | zero => rfl
  | succ n ih =>
    rw [List.replicate_succ, submits, List.foldl_cons]
    have hline : type ⟨[], []⟩ 0x0A = ⟨[], [0x0A]⟩ := rfl
    rw [hline, foldl_type, ih, List.singleton_append]

theorem delivered_ne_of_lines {n : ℕ} (hn : ptyBufSize < n) :
    (Runs.run Session.step [.write (List.replicate n 0x0A)] Session.start).delivered ≠
      Editor.submits [] (typed [.write (List.replicate n 0x0A)]) := by
  intro h
  obtain ⟨-, hfits, -⟩ := (Session.delivered_run_iff Session.tracks_start _).mp h
  have hlength : (Editor.submits [] (List.replicate n 0x0A)).length ≤ ptyBufSize :=
    Nat.le_trans (Nat.le_add_left _ _) hfits
  rw [Editor.submits_replicate, List.length_replicate] at hlength
  omega

/-- A write of five thousand empty lines is reported as written, and not all of them arrive. -/
theorem delivered_ne_of_long_write :
    (allocPty.ptmxWrite (List.replicate 5000 0x0A)).1 = 5000 ∧
      (Runs.run Session.step [.write (List.replicate 5000 0x0A)] Session.start).delivered ≠
        Editor.submits [] (typed [.write (List.replicate 5000 0x0A)]) :=
  ⟨List.length_replicate, delivered_ne_of_lines (by decide)⟩

end RacOS.Tty
