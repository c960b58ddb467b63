import Mathlib.Logic.Function.Basic
import RacOS.Lib.Bytes

/-!
# Registers and a stack

A machine of 64-bit registers, one of them the stack pointer, over a memory of
bytes: pushing and popping, and what a run of pushes leaves in memory and a run of
pops in the registers.
-/

namespace StackMachine

/-- The word at an address. -/
def wordAt (mem : Bytes) (addr : ℕ) : BitVec 64 := .ofNat 64 (mem.readLe 8 addr)

theorem wordAt_congr {mem mem' : Bytes} {addr addr' : ℕ}
    (h : ∀ i < 8, mem (addr + i) = mem' (addr' + i)) : wordAt mem addr = wordAt mem' addr' := by
  unfold wordAt
  rw [Bytes.readLe_congr h]

theorem wordAt_writeLe_same (mem : Bytes) (addr : ℕ) (v : BitVec 64) :
    wordAt (mem.writeLe 8 addr v.toNat) addr = v := by
  unfold wordAt
  rw [Bytes.readLe_writeLe_same, Nat.mod_eq_of_lt (by exact v.isLt)]
  exact BitVec.ofNat_toNat 64 v |>.trans (BitVec.setWidth_eq v)

theorem wordAt_writeLe_of_disjoint {mem : Bytes} {addr addr' v : ℕ}
    (h : addr' + 8 ≤ addr ∨ addr + 8 ≤ addr') :
    wordAt (mem.writeLe 8 addr v) addr' = wordAt mem addr' := by
  unfold wordAt
  rw [Bytes.readLe_writeLe_of_disjoint h]

variable {ρ : Type} [DecidableEq ρ]

structure State (ρ : Type) where
  regs : ρ → BitVec 64
  mem : Bytes

namespace State

def set (r : ρ) (v : BitVec 64) (s : State ρ) : State ρ :=
  { s with regs := Function.update s.regs r v }

variable (sp : ρ)

/-- Push a word. -/
def push (v : BitVec 64) (s : State ρ) : State ρ :=
  let addr := s.regs sp - 8
  { regs := Function.update s.regs sp addr
    mem := s.mem.writeLe 8 addr.toNat v.toNat }

/-- Pop a word into a register, which may be the stack pointer. -/
def pop (dst : ρ) (s : State ρ) : State ρ :=
  let v := wordAt s.mem (s.regs sp).toNat
  (s.set sp (s.regs sp + 8)).set dst v

/-- Push words, one after the other. -/
def pushAll (values : List (BitVec 64)) (s : State ρ) : State ρ :=
  values.foldl (fun s v => s.push sp v) s

/-- Pop words into registers, one after the other. -/
def popAll (dsts : List ρ) (s : State ρ) : State ρ :=
  dsts.foldl (fun s r => s.pop sp r) s

variable {sp}

@[simp] theorem set_self (r : ρ) (v : BitVec 64) (s : State ρ) : (s.set r v).regs r = v :=
  Function.update_self _ _ _

theorem set_of_ne {r r' : ρ} (hne : r' ≠ r) (v : BitVec 64) (s : State ρ) :
    (s.set r v).regs r' = s.regs r' :=
  Function.update_of_ne hne _ _

@[simp] theorem set_mem (r : ρ) (v : BitVec 64) (s : State ρ) : (s.set r v).mem = s.mem := rfl

@[simp] theorem pop_mem (dst : ρ) (s : State ρ) : (s.pop sp dst).mem = s.mem := rfl

theorem pushAll_cons (v : BitVec 64) (values : List (BitVec 64)) (s : State ρ) :
    s.pushAll sp (v :: values) = (s.push sp v).pushAll sp values := rfl

theorem push_regs_of_ne {r : ρ} (hr : r ≠ sp) (v : BitVec 64) (s : State ρ) :
    (s.push sp v).regs r = s.regs r :=
  Function.update_of_ne hr _ _

theorem push_sp (v : BitVec 64) (s : State ρ) {top : ℕ} (htop : (s.regs sp).toNat = top)
    (hroom : 8 ≤ top) : ((s.push sp v).regs sp).toNat = top - 8 := by
  have hlt : (s.regs sp).toNat < 2 ^ 64 := (s.regs sp).isLt
  simp only [push, Function.update_self, BitVec.toNat_sub, BitVec.reduceToNat]
  omega

/-- Pushed words stand below the top, the last one at the stack pointer, and the
rest of the memory and of the registers stays. -/
theorem pushAll_spec (values : List (BitVec 64)) (s : State ρ) {top : ℕ}
    (htop : (s.regs sp).toNat = top) (hroom : 8 * values.length ≤ top) :
    ((s.pushAll sp values).regs sp).toNat = top - 8 * values.length ∧
      (∀ r ≠ sp, (s.pushAll sp values).regs r = s.regs r) ∧
      (∀ k v, values[k]? = some v → wordAt (s.pushAll sp values).mem (top - 8 * (k + 1)) = v) ∧
      ∀ i, i < top - 8 * values.length ∨ top ≤ i → (s.pushAll sp values).mem i = s.mem i := by
  induction values generalizing s top with
  | nil => exact ⟨htop, fun _ _ => rfl, fun k v h => absurd h (by simp), fun _ _ => rfl⟩
  | cons v values ih =>
    rw [List.length_cons] at hroom ⊢
    have hsp := push_sp v s htop (by omega)
    have haddr : (s.regs sp - 8).toNat = top - 8 := by
      have hself : (s.push sp v).regs sp = s.regs sp - 8 := Function.update_self _ _ _
      rw [← hself, hsp]
    obtain ⟨hend, hregs, hwords, hframe⟩ := ih (s.push sp v) hsp (by omega)
    have hmem : (s.push sp v).mem = s.mem.writeLe 8 (top - 8) v.toNat := by
      rw [← haddr]
      rfl
    refine ⟨by rw [pushAll, List.foldl_cons, ← pushAll, hend]; omega, ?_, ?_, ?_⟩
    · intro r hr
      exact (hregs r hr).trans (push_regs_of_ne hr v s)
    · intro k w hk
      cases k with
      | zero =>
        cases hk
        have hkeep : wordAt (pushAll sp values (s.push sp v)).mem (top - 8) =
            wordAt (s.push sp v).mem (top - 8) :=
          wordAt_congr fun i hi => hframe _ (by omega)
        exact hkeep.trans (by rw [hmem, wordAt_writeLe_same])
      | succ k =>
        have hlt : k < values.length := by
          obtain ⟨h, -⟩ := List.getElem?_eq_some_iff.mp hk
          rw [List.length_cons] at h
          omega
        have hword := hwords k w hk
        rwa [show top - 8 - 8 * (k + 1) = top - 8 * (k + 1 + 1) by omega] at hword
    · intro i hi
      refine (hframe i (by omega)).trans ?_
      rw [hmem]
      exact Bytes.writeLe_of_disjoint (by omega)

/-- Popped registers hold the words from the stack pointer on. -/
theorem popAll_spec (dsts : List ρ) (s : State ρ) {base : ℕ} (hbase : (s.regs sp).toNat = base)
    (hroom : base + 8 * dsts.length < 2 ^ 64) (hnodup : dsts.Nodup) (hsp : sp ∉ dsts) :
    ((s.popAll sp dsts).regs sp).toNat = base + 8 * dsts.length ∧ (s.popAll sp dsts).mem = s.mem ∧
      (∀ r, r ≠ sp → r ∉ dsts → (s.popAll sp dsts).regs r = s.regs r) ∧
      ∀ k r, dsts[k]? = some r → (s.popAll sp dsts).regs r = wordAt s.mem (base + 8 * k) := by
  induction dsts generalizing s base with
  | nil => exact ⟨hbase, rfl, fun _ _ _ => rfl, fun k r h => absurd h (by simp)⟩
  | cons dst dsts ih =>
    rw [List.length_cons] at hroom ⊢
    obtain ⟨hdst, hnodup⟩ := List.nodup_cons.mp hnodup
    rw [List.mem_cons, not_or] at hsp
    have hnext : ((s.pop sp dst).regs sp).toNat = base + 8 := by
      have hself : (s.pop sp dst).regs sp = s.regs sp + 8 := by
        simp only [pop, set, Function.update_of_ne hsp.1, Function.update_self]
      rw [hself, BitVec.toNat_add, hbase]
      exact Nat.mod_eq_of_lt (by simp; omega)
    obtain ⟨hend, hmem, hregs, hwords⟩ := ih (s.pop sp dst) hnext (by omega) hnodup hsp.2
    have hfirst : (s.pop sp dst).regs dst = wordAt s.mem base := by
      rw [← hbase]
      exact Function.update_self _ _ _
    refine ⟨by rw [popAll, List.foldl_cons, ← popAll, hend]; omega, hmem, ?_, ?_⟩
    · intro r hr hnot
      rw [List.mem_cons, not_or] at hnot
      refine (hregs r hr hnot.2).trans ?_
      simp only [pop, set, Function.update_of_ne hnot.1, Function.update_of_ne hr]
    · intro k r hk
      cases k with
      | zero =>
        cases hk
        exact (hregs dst (Ne.symm hsp.1) hdst).trans hfirst
      | succ k =>
        have hword := hwords k r hk
        rwa [show base + 8 + 8 * k = base + 8 * (k + 1) by omega] at hword

end State

end StackMachine
