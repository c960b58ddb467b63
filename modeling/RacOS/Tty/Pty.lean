import Mathlib.Data.Nat.Notation
import RacOS.Lib.Runs

/-!
# Output of a pseudo-terminal

The output side of `kernel/src/tty/pty.rs`, with the output processing of
`kernel/src/tty/line_discipline.rs`.  What a process writes to the slave is translated, a
line feed becoming carriage return and line feed, and queued for the master up to a limit.  A run
that does not fit is cut; a translated line feed that does not fit is left out.
-/

namespace RacOS.Tty

/-! ## The model -/

/-- The runs that a line feed is translated in.  Every run takes at least one byte. -/
def onlcrLoop : (fuel : ℕ) → (rest : List UInt8) → List (ℕ × List UInt8)
  | 0, _ => []
  | _ + 1, [] => []
  | fuel + 1, first :: rest =>
    if first = 0x0A then (1, [0x0D, 0x0A]) :: onlcrLoop fuel rest
    else
      let data := first :: rest
      let run := data.findIdx (· = 0x0A)
      (run, data.take run) :: onlcrLoop fuel (data.drop run)

/-- The chunks that go to the terminal, with the numbers of bytes that they stand for. -/
def onlcr (data : List UInt8) : List (ℕ × List UInt8) := onlcrLoop data.length data

def ptyBufSize : ℕ := 4096

/-- A pseudo-terminal, with the bytes that wait for the master. -/
structure PtyMaster where
  masterBuf : List UInt8

namespace PtyMaster

/-- The loop of `slave_write`, with the number of input bytes taken so far. -/
def queueChunks : List (ℕ × List UInt8) → ℕ → List UInt8 → ℕ × List UInt8
  | [], count, buf => (count, buf)
  | (consumed, chunk) :: chunks, count, buf =>
    let free := ptyBufSize - buf.length
    if free < chunk.length then
      -- the translated line feed is queued whole or not at all
      if consumed = 1 ∧ 1 < chunk.length then (count, buf)
      else (count + free, buf ++ chunk.take free)
    else queueChunks chunks (count + consumed) (buf ++ chunk)

def slaveWrite (data : List UInt8) (pty : PtyMaster) : ℕ × PtyMaster :=
  let queued := queueChunks (onlcr data) 0 pty.masterBuf
  (queued.1, { pty with masterBuf := queued.2 })

/-- Read into a buffer of the given size. -/
def readOutput (size : ℕ) (pty : PtyMaster) : List UInt8 × PtyMaster :=
  (pty.masterBuf.take size, { pty with masterBuf := pty.masterBuf.drop size })

end PtyMaster

/-! ## The translation -/

/-- What a byte becomes on the way to the terminal. -/
def expandByte (b : UInt8) : List UInt8 := if b = 0x0A then [0x0D, 0x0A] else [b]

/-- The text with a carriage return before every line feed. -/
def expand (data : List UInt8) : List UInt8 := data.flatMap expandByte

theorem expand_append (data data' : List UInt8) :
    expand (data ++ data') = expand data ++ expand data' :=
  List.flatMap_append

variable {data : List UInt8}

theorem expand_of_notMem (h : (0x0A : UInt8) ∉ data) : expand data = data := by
  induction data with
  | nil => rfl
  | cons b data ih =>
    rw [List.mem_cons, not_or] at h
    rw [expand, List.flatMap_cons, expandByte, if_neg (Ne.symm h.1)]
    exact congrArg (b :: ·) (ih h.2)

/-- Chunks that stand for a text: line feeds, translated, and runs without a line feed. -/
inductive Chunks : List (ℕ × List UInt8) → List UInt8 → Prop
  | nil : Chunks [] []
  | lineFeed {chunks : List (ℕ × List UInt8)} {rest : List UInt8} (h : Chunks chunks rest) :
      Chunks ((1, [0x0D, 0x0A]) :: chunks) (0x0A :: rest)
  | run {run : List UInt8} {chunks : List (ℕ × List UInt8)} {rest : List UInt8}
      (hrun : run ≠ []) (hplain : (0x0A : UInt8) ∉ run) (h : Chunks chunks rest) :
      Chunks ((run.length, run) :: chunks) (run ++ rest)

theorem onlcrLoop_chunks (fuel : ℕ) (data : List UInt8) (h : data.length ≤ fuel) :
    Chunks (onlcrLoop fuel data) data := by
  induction fuel generalizing data with
  | zero =>
    rw [List.eq_nil_of_length_eq_zero (Nat.le_zero.mp h)]
    exact .nil
  | succ fuel ih =>
    cases data with
    | nil => exact .nil
    | cons first rest =>
      rw [onlcrLoop]
      by_cases hfirst : first = 0x0A
      · rw [if_pos hfirst, hfirst]
        exact .lineFeed (ih rest (Nat.le_of_succ_le_succ h))
      · rw [if_neg hfirst]
        dsimp only
        generalize hdata : first :: rest = data at h
        -- the run ends before the first line feed, and it is not empty
        have hle : data.findIdx (· = 0x0A) ≤ data.length := List.findIdx_le_length
        have hpos : 0 < data.findIdx (· = 0x0A) := by
          subst hdata
          simp [List.findIdx_cons, hfirst]
        have hplain : (0x0A : UInt8) ∉ data.take (data.findIdx (· = 0x0A)) := by
          intro hmem
          obtain ⟨i, hi, hbyte⟩ := List.mem_take_iff_getElem.mp hmem
          have := List.not_of_lt_findIdx (Nat.lt_of_lt_of_le hi (Nat.min_le_left _ _))
          simp [hbyte] at this
        have hrun : data.take (data.findIdx (· = 0x0A)) ≠ [] := by
          intro hempty
          have := congrArg List.length hempty
          rw [List.length_take, List.length_nil] at this
          omega
        have hrest := ih (data.drop (data.findIdx (· = 0x0A)))
          (by rw [List.length_drop]; omega)
        have hchunks := Chunks.run hrun hplain hrest
        rwa [List.length_take, Nat.min_eq_left hle, List.take_append_drop] at hchunks

theorem onlcr_chunks (data : List UInt8) : Chunks (onlcr data) data :=
  onlcrLoop_chunks data.length data (Nat.le_refl _)

namespace PtyMaster

/-! ## One write -/

variable {chunks : List (ℕ × List UInt8)}

/-- The loop appends the image of as many bytes as it counts. -/
theorem queueChunks_spec (h : Chunks chunks data) (count : ℕ) (buf : List UInt8) :
    ∃ n ≤ data.length, (queueChunks chunks count buf).1 = count + n ∧
      (queueChunks chunks count buf).2 = buf ++ expand (data.take n) := by
  induction h generalizing count buf with
  | nil => exact ⟨0, (Nat.le_refl _), rfl, (List.append_nil buf).symm⟩
  | @lineFeed chunks rest _ ih =>
    by_cases hfull : ptyBufSize - buf.length < 2
    · refine ⟨0, Nat.zero_le _, ?_, ?_⟩ <;> simp [queueChunks, hfull, expand]
    · obtain ⟨n, hn, hcount, hbuf⟩ := ih (count + 1) (buf ++ [0x0D, 0x0A])
      refine ⟨n + 1, Nat.succ_le_succ hn, ?_, ?_⟩
      · simp only [queueChunks, List.length_cons, List.length_nil, hfull, if_false, hcount]
        omega
      · simp only [queueChunks, List.length_cons, List.length_nil, hfull, if_false, hbuf]
        simp [expand, expandByte]
  | @run run chunks rest hrun hplain _ ih =>
    by_cases hfull : ptyBufSize - buf.length < run.length
    · -- a run of one byte is never longer than its count
      have hcut : ¬(run.length = 1 ∧ 1 < run.length) := by omega
      refine ⟨ptyBufSize - buf.length, ?_, ?_, ?_⟩
      · rw [List.length_append]
        omega
      · simp only [queueChunks, hfull, hcut, if_true, if_false]
      · simp only [queueChunks, hfull, hcut, if_true, if_false]
        rw [List.take_append_of_le_length (Nat.le_of_lt hfull),
          expand_of_notMem fun hmem => hplain (List.mem_of_mem_take hmem)]
    · obtain ⟨n, hn, hcount, hbuf⟩ := ih (count + run.length) (buf ++ run)
      refine ⟨run.length + n, ?_, ?_, ?_⟩
      · rw [List.length_append]
        omega
      · simp only [queueChunks, hfull, if_false, hcount]
        omega
      · simp only [queueChunks, hfull, if_false, hbuf]
        rw [List.take_length_add_append, expand_append, expand_of_notMem hplain, List.append_assoc]

theorem queueChunks_length_le (chunks : List (ℕ × List UInt8)) (count : ℕ) (buf : List UInt8)
    (h : buf.length ≤ ptyBufSize) : (queueChunks chunks count buf).2.length ≤ ptyBufSize := by
  fun_induction queueChunks chunks count buf with
  | case1 => exact h
  | case2 => exact h
  | case3 =>
    rw [List.length_append, List.length_take]
    omega
  | case4 _ _ _ _ _ _ _ ih =>
    apply ih
    rw [List.length_append]
    omega

/-- Two free bytes are enough for the first byte of a text, whatever it is. -/
theorem queueChunks_pos (h : Chunks chunks data) (hdata : data ≠ []) (buf : List UInt8)
    (hroom : buf.length + 2 ≤ ptyBufSize) : 1 ≤ (queueChunks chunks 0 buf).1 := by
  cases h with
  | nil => exact absurd rfl hdata
  | @lineFeed chunks rest hrest =>
    have hfull : ¬ptyBufSize - buf.length < 2 := by omega
    obtain ⟨n, -, hcount, -⟩ := queueChunks_spec hrest (0 + 1) (buf ++ [0x0D, 0x0A])
    simp only [queueChunks, List.length_cons, List.length_nil, hfull, if_false, hcount]
    omega
  | @run run chunks rest hrun hplain hrest =>
    have hlen : 0 < run.length := List.length_pos_iff.mpr hrun
    by_cases hfull : ptyBufSize - buf.length < run.length
    · have hcut : ¬(run.length = 1 ∧ 1 < run.length) := by omega
      simp only [queueChunks, hfull, hcut, if_true, if_false]
      omega
    · obtain ⟨n, -, hcount, -⟩ := queueChunks_spec hrest (0 + run.length) (buf ++ run)
      simp only [queueChunks, hfull, if_false, hcount]
      omega

end PtyMaster

/-! ## Histories -/

/-- A pseudo-terminal with what its writes took and what its reads returned. -/
structure PtyTrace where
  pty : PtyMaster
  accepted : List UInt8
  output : List UInt8

inductive PtyEvent
  | slaveWrite (data : List UInt8)
  | readOutput (size : ℕ)

namespace PtyTrace

def fresh : PtyTrace := ⟨⟨[]⟩, [], []⟩

def step (event : PtyEvent) (s : PtyTrace) : PtyTrace :=
  match event with
  | .slaveWrite data =>
    let written := s.pty.slaveWrite data
    { s with pty := written.2, accepted := s.accepted ++ data.take written.1 }
  | .readOutput size =>
    let taken := s.pty.readOutput size
    { s with pty := taken.2, output := s.output ++ taken.1 }

/-- What was read and what is queued are together the image of what was accepted. -/
structure Faithful (s : PtyTrace) : Prop where
  flow : s.output ++ s.pty.masterBuf = expand s.accepted
  bounded : s.pty.masterBuf.length ≤ ptyBufSize

theorem step_faithful (event : PtyEvent) (s : PtyTrace) (h : s.Faithful) :
    (step event s).Faithful := by
  cases event with
  | slaveWrite data =>
    obtain ⟨n, -, hcount, hbuf⟩ :=
      PtyMaster.queueChunks_spec (onlcr_chunks data) 0 s.pty.masterBuf
    refine ⟨?_, PtyMaster.queueChunks_length_le _ _ _ h.bounded⟩
    simp only [step, PtyMaster.slaveWrite, hcount, hbuf, Nat.zero_add]
    rw [expand_append, ← h.flow, List.append_assoc]
  | readOutput size =>
    refine ⟨?_, ?_⟩
    · simp only [step, PtyMaster.readOutput]
      rw [List.append_assoc, List.take_append_drop]
      exact h.flow
    · simp only [step, PtyMaster.readOutput]
      rw [List.length_drop]
      exact Nat.le_trans (Nat.sub_le _ _) h.bounded

/-- In every history of writes to the slave and reads of the master, the bytes read are the first
part of the image of the accepted input and the queue is all the rest of it, so that no translated
line feed is split; the queue stays within its limit, and as long as two bytes of it are free a
write takes at least its first byte. -/
theorem output_is_translated_input (events : List PtyEvent) :
    (Runs.run step events fresh).output <+: expand (Runs.run step events fresh).accepted ∧
    (Runs.run step events fresh).output ++ (Runs.run step events fresh).pty.masterBuf =
      expand (Runs.run step events fresh).accepted ∧
    (Runs.run step events fresh).pty.masterBuf.length ≤ ptyBufSize ∧
    ∀ data : List UInt8, data ≠ [] →
      (Runs.run step events fresh).pty.masterBuf.length + 2 ≤ ptyBufSize →
      1 ≤ ((Runs.run step events fresh).pty.slaveWrite data).1 := by
  have h : (Runs.run step events fresh).Faithful :=
    Runs.invariant step_faithful events ⟨rfl, Nat.zero_le _⟩
  refine ⟨⟨_, h.flow⟩, h.flow, h.bounded, ?_⟩
  intro data hdata hroom
  exact PtyMaster.queueChunks_pos (onlcr_chunks data) hdata _ hroom

end PtyTrace

end RacOS.Tty
