import RacOS.Shell.Expand

/-!
# Command substitution

The output of a command goes through a pipe that is read only after the command has ended.  What
does not fit into the pipe is not taken, a piece of 256 bytes that cuts a character is left out, and
the newlines that are stripped may be those of the text before.  Nothing else can go wrong.
-/

namespace RacOS.Shell

open RacOS.Vfs (Pipe PipeEnd pipeCapacity)

/-! ## Pieces -/

/-- No character is cut where a piece of 256 bytes ends. -/
def Whole (bytes : List UInt8) : Prop :=
  ∀ k, (Utf8.decode ((bytes.drop (256 * k)).take 256)).isSome

theorem whole_iff {bytes : List UInt8} :
    Whole bytes ↔ (Utf8.decode (bytes.take 256)).isSome ∧ Whole (bytes.drop 256) := by
  constructor
  · intro h
    refine ⟨h 0, fun k => ?_⟩
    rw [List.drop_drop, Nat.add_comm, ← Nat.mul_succ]
    exact h (k + 1)
  · rintro ⟨hfirst, hrest⟩ k
    cases k with
    | zero => exact hfirst
    | succ k =>
      have hk := hrest k
      rwa [List.drop_drop, Nat.add_comm, ← Nat.mul_succ] at hk

/-- The number of bytes that are no newlines. -/
def solid (bytes : List UInt8) : ℕ := bytes.countP (· ≠ 10)

theorem solid_append (a b : List UInt8) : solid (a ++ b) = solid a + solid b :=
  List.countP_append

theorem encode_newlines (n : ℕ) : Utf8.encode (List.replicate n '\n') = List.replicate n 10 := by
  induction n with
  | zero => rfl
  | succ n ih =>
    rw [List.replicate_succ, List.replicate_succ, ← ih]
    rfl

theorem solid_newlines (n : ℕ) : solid (List.replicate n 10) = 0 := by
  simp [solid, List.countP_replicate]

/-- Newlines alone are valid. -/
theorem solid_pos {bytes : List UInt8} (h : Utf8.decode bytes = none) : 0 < solid bytes := by
  rw [Nat.pos_iff_ne_zero]
  intro hzero
  have hall : ∀ b ∈ bytes, b = 10 := by simpa [solid, List.countP_eq_zero] using hzero
  rw [List.eq_replicate_of_mem hall, ← encode_newlines, Utf8.decode_encode] at h
  cases h

/-- Stripping newlines leaves everything else. -/
theorem solid_rdropWhile (text : Text) :
    solid (Utf8.encode (text.rdropWhile (· = '\n'))) = solid (Utf8.encode text) := by
  have hall : ∀ c ∈ text.rtakeWhile (· = '\n'), c = '\n' := fun c hc => by
    simpa using List.mem_rtakeWhile_imp hc
  have hend := List.eq_replicate_of_mem hall
  calc solid (Utf8.encode (text.rdropWhile (· = '\n')))
      = solid (Utf8.encode (text.rdropWhile (· = '\n'))) +
          solid (Utf8.encode (text.rtakeWhile (· = '\n'))) := by
        rw [hend, encode_newlines, solid_newlines, Nat.add_zero]
    _ = solid (Utf8.encode text) := by
        rw [← solid_append, ← Utf8.encode_append, List.rdropWhile_append_rtakeWhile]

theorem whole_nil : Whole [] := fun k => by
  rw [List.drop_nil, List.take_nil]
  exact Option.isSome_iff_exists.mpr ⟨[], Utf8.decode_encode []⟩

theorem read_text_append (piece : List UInt8) {rest : List UInt8} {text : Text}
    (hwhole : Whole rest → Utf8.encode text = rest)
    (hcut : ¬ Whole rest → solid (Utf8.encode text) < solid rest) :
    ((Utf8.decode piece).isSome ∧ Whole rest →
        Utf8.encode ((Utf8.decode piece).getD [] ++ text) = piece ++ rest) ∧
      (¬ ((Utf8.decode piece).isSome ∧ Whole rest) →
        solid (Utf8.encode ((Utf8.decode piece).getD [] ++ text)) < solid (piece ++ rest)) := by
  rw [Utf8.encode_append, solid_append, solid_append]
  cases hpiece : Utf8.decode piece with
  | none =>
    have hpos := solid_pos hpiece
    refine ⟨nofun, fun _ => ?_⟩
    have hle : solid (Utf8.encode text) ≤ solid rest := by
      by_cases hrest : Whole rest
      · rw [hwhole hrest]
      · exact (hcut hrest).le
    rw [Option.getD_none]
    change 0 + _ < _
    omega
  | some first =>
    have hfirst := Utf8.decode_eq_some_iff.mp hpiece
    rw [Option.getD_some, ← hfirst]
    refine ⟨fun h => by rw [hwhole h.2], fun h => ?_⟩
    exact Nat.add_lt_add_left (hcut fun hrest => h ⟨rfl, hrest⟩) _

variable {pipe : Pipe} {queue : List UInt8}

/-- What is read from a pipe with no writer is all of it if no character is cut, and otherwise
lacks something else than newlines. -/
theorem drainPipe_spec (h : pipe.Sound queue) (hreaders : pipe.readers ≠ 0) {rounds : ℕ}
    (hrounds : queue.length < rounds) (out : Text) :
    ∃ text, drainPipe rounds pipe out = out ++ text ∧ (Whole queue → Utf8.encode text = queue) ∧
      (¬ Whole queue → solid (Utf8.encode text) < solid queue) := by
  induction rounds generalizing pipe queue out with
  | zero => omega
  | succ rounds ih =>
    by_cases hqueue : queue = []
    · subst hqueue
      refine ⟨[], ?_, fun _ => rfl, fun hcut => absurd whole_nil hcut⟩
      have hempty : ¬ 0 < pipe.buffer.readable := by
        rw [Vfs.PipeBuffer.readable, h.len]
        exact Nat.not_lt_zero 0
      rw [drainPipe, PipeEnd.read, if_neg (by decide), if_neg hempty, List.append_nil]
      split_ifs <;> rfl
    · obtain ⟨⟨buffer, hread⟩, hsound, hsame⟩ :=
        Pipe.read_piece h hreaders hqueue (by decide : 0 < 256)
      have hpos := List.length_pos_iff.mpr hqueue
      have hpiece : queue.take 256 ≠ [] := by simp [hqueue]
      obtain ⟨text, htext, hwhole, hcut⟩ := ih hsound (hsame ▸ hreaders)
        (by rw [List.length_drop]; omega) (out ++ (Utf8.decode (queue.take 256)).getD [])
      have hadd := read_text_append (queue.take 256) hwhole hcut
      rw [← whole_iff, List.take_append_drop] at hadd
      rw [drainPipe, hread]
      dsimp only
      rw [if_neg hpiece, htext]
      exact ⟨_, List.append_assoc _ _ _, hadd⟩

/-! ## The output of a command -/

variable (world : World) (cmd : Text) (env : Env)

/-- The pipe takes the output as far as there is room. -/
theorem commandPipe_sound :
    (commandPipe world cmd env).Sound ((world.writes cmd env).flatten.take pipeCapacity) ∧
      (commandPipe world cmd env).readers ≠ 0 ∧
      (commandPipe world cmd env).accepted = (world.writes cmd env).flatten.take pipeCapacity := by
  obtain ⟨hsound, hreaders, hwriters, hdelivered⟩ :=
    Pipe.run_writes Pipe.create_sound (by decide) (by decide) (world.writes cmd env)
  rw [List.nil_append] at hsound
  have hheld : Pipe.holders (Runs.run Pipe.step
      ((world.writes cmd env).map (.write .writeEnd)) Pipe.create) .writeEnd ≠ 0 := by
    rw [Pipe.holders, hwriters]
    decide
  refine ⟨Pipe.drop_sound hsound .writeEnd hheld, ?_, ?_⟩
  · rw [commandPipe, Pipe.drop, hreaders]
    decide
  · have hflow := hsound.flow
    rw [hdelivered] at hflow
    exact hflow

/-- Stripping a text in two parts strips the second one alone if something is left of it, or if
there is nothing to strip from the first one. -/
theorem rdropWhile_append_eq_iff (out text : Text) :
    (out ++ text).rdropWhile (· = '\n') = out ++ text.rdropWhile (· = '\n') ↔
      text.rdropWhile (· = '\n') ≠ [] ∨ out.getLast? ≠ some '\n' := by
  have hparts : (out ++ text).rdropWhile (· = '\n') =
      if text.rdropWhile (· = '\n') = [] then out.rdropWhile (· = '\n')
      else out ++ text.rdropWhile (· = '\n') := by
    simp only [List.rdropWhile, List.reverse_append, List.dropWhile_append, List.isEmpty_iff,
      List.reverse_eq_nil_iff]
    split_ifs <;> simp
  rw [hparts]
  by_cases h : text.rdropWhile (· = '\n') = []
  · rw [if_pos h, h, List.append_nil, List.rdropWhile_eq_self_iff]
    cases hout : out.getLast? with
    | none => simp [List.getLast?_eq_none_iff.mp hout]
    | some c =>
      obtain ⟨front, rfl⟩ := List.getLast?_eq_some_iff.mp hout
      simp
  · rw [if_neg h]
    exact iff_of_true rfl (.inl h)

/-- A system without directories, in which a command writes the given bytes. -/
def printing (output : List UInt8) : World := ⟨fun _ => none, fun _ _ => [output]⟩

end RacOS.Shell
