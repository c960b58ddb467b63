import RacOS.Elf.Loader
import RacOS.Syscall.UserStrings

/-!
# The stack that a program starts with

The model of the part of `UserProcess::from_elf` that writes the arguments and the
environment to the user stack.  The strings go to the top of the stack, one below the
other, and the block with their number and addresses goes below them.

The memory is the physical memory, in which the stack lies from `physBase` on.  A record
is kept of what is written.  Stack pointers are words.
-/

namespace RacOS.Tasks

open CStrings Program
open Mm (userStackSize userStackTop)
open Elf (word)

/-- The lowest address of the user stack. -/
def stackVirtBase : ℕ := userStackTop - userStackSize

/-- The difference of two words. -/
@[irreducible]
def wrappingSub (a b : ℕ) : ℕ := (a + word - b) % word

theorem wrappingSub_of_le {a b : ℕ} (h : b ≤ a) (ha : a < word) : wrappingSub a b = a - b := by
  have hsum : a + word - b = a - b + word := by omega
  rw [wrappingSub, hsum, Nat.add_mod_right, Nat.mod_eq_of_lt (by omega)]

/-- Where an address of the stack is in physical memory. -/
@[irreducible]
def virtToPhys (physBase vaddr : ℕ) : ℕ := (physBase + wrappingSub vaddr stackVirtBase) % word

structure StackWriter where
  memory : Bytes
  sp : ℕ
  /-- What was written: the physical address and the length. -/
  writes : List (ℕ × ℕ) := []

namespace StackWriter

/-- Lower the stack pointer. -/
def lower (w : StackWriter) (n : ℕ) : StackWriter :=
  { w with sp := wrappingSub w.sp n }

/-- Write bytes to an address of the stack. -/
def store (w : StackWriter) (physBase vaddr : ℕ) (data : List UInt8) : StackWriter :=
  { w with
    memory := w.memory.store (virtToPhys physBase vaddr) data
    writes := (virtToPhys physBase vaddr, data.length) :: w.writes }

/-- Write a word to an address of the stack. -/
def storeWord (w : StackWriter) (physBase vaddr v : ℕ) : StackWriter :=
  { w with
    memory := w.memory.writeLe 8 (virtToPhys physBase vaddr) v
    writes := (virtToPhys physBase vaddr, 8) :: w.writes }

section

variable (w : StackWriter) (physBase vaddr n : ℕ) (data : List UInt8)

@[simp] theorem lower_memory : (w.lower n).memory = w.memory := by
  cases w
  rfl

@[simp] theorem lower_writes : (w.lower n).writes = w.writes := by
  cases w
  rfl

@[simp] theorem store_sp : (w.store physBase vaddr data).sp = w.sp := by
  cases w
  rfl

@[simp] theorem store_memory : (w.store physBase vaddr data).memory =
    w.memory.store (virtToPhys physBase vaddr) data := by
  cases w
  rfl

@[simp] theorem store_writes : (w.store physBase vaddr data).writes =
    (virtToPhys physBase vaddr, data.length) :: w.writes := by
  cases w
  rfl

@[simp] theorem storeWord_sp : (w.storeWord physBase vaddr n).sp = w.sp := by
  cases w
  rfl

@[simp] theorem storeWord_memory : (w.storeWord physBase vaddr n).memory =
    w.memory.writeLe 8 (virtToPhys physBase vaddr) n := by
  cases w
  rfl

@[simp] theorem storeWord_writes : (w.storeWord physBase vaddr n).writes =
    (virtToPhys physBase vaddr, 8) :: w.writes := by
  cases w
  rfl

@[simp] theorem lower_sp : (w.lower n).sp = wrappingSub w.sp n := by
  rw [lower]

end

/-- Write a string below the stack pointer, with a NUL after it. -/
def pushString (w : StackWriter) (physBase : ℕ) (s : List UInt8) : StackWriter :=
  let w := w.lower 1
  let w := w.store physBase w.sp [0]
  let w := w.lower s.length
  w.store physBase w.sp s

/-- The loop over the strings, which collects their addresses. -/
def pushStrings (physBase : ℕ) : List (List UInt8) → StackWriter → List ℕ → StackWriter × List ℕ
  | [], w, vaddrs => (w, vaddrs)
  | s :: rest, w, vaddrs =>
    let w := w.pushString physBase s
    pushStrings physBase rest w (vaddrs ++ [w.sp])

/-- The loop over addresses of strings, which writes them to the slots of the block from
`first` on. -/
def storePtrs (w : StackWriter) (physBase rsp first : ℕ) (vaddrs : List ℕ) : StackWriter :=
  vaddrs.zipIdx.foldl (fun w x => w.storeWord physBase (rsp + 8 + 8 * (first + x.2)) x.1) w

end StackWriter

/-- Populate the block. -/
def StackWriter.storeWords (w : StackWriter) (physBase userRsp : ℕ)
    (argvVaddrs envpVaddrs : List ℕ) : StackWriter :=
  let argc := argvVaddrs.length
  let envc := envpVaddrs.length
  let w := w.storeWord physBase userRsp argc
  let w := w.storePtrs physBase userRsp 0 argvVaddrs
  let w := w.storeWord physBase (userRsp + 8 + 8 * argc) 0
  let w := w.storePtrs physBase userRsp (argc + 1) envpVaddrs
  w.storeWord physBase (userRsp + 8 + 8 * (argc + 1 + envc)) 0

/-- The size of the block for so many arguments and variables. -/
def blockBytes (argc envc : ℕ) : ℕ := 8 + 8 * (argc + 1) + 8 * (envc + 1)

/-- Reserve the block below the stack pointer and populate it. -/
def storeBlock (physBase : ℕ) (argvVaddrs envpVaddrs : List ℕ) (w : StackWriter) : StackWriter :=
  let w := { w with sp := w.sp / 16 * 16 }
  let w := w.lower ((blockBytes argvVaddrs.length envpVaddrs.length + 15) / 16 * 16)
  w.storeWords physBase w.sp argvVaddrs envpVaddrs

/-- Write the arguments and the environment to the stack; the stack pointer of the result
is the one that the program starts with. -/
def prepareStack (physBase : ℕ) (argv envp : List (List UInt8)) (memory : Bytes) : StackWriter :=
  let args := StackWriter.pushStrings physBase argv.reverse ⟨memory, userStackTop, []⟩ []
  let vars := args.1.pushStrings physBase envp.reverse []
  storeBlock physBase args.2.reverse vars.2.reverse vars.1

/-! ## The stack in memory -/

/-- The stack, as the program sees it. -/
def stackView (physBase : ℕ) (memory : Bytes) : Bytes :=
  fun vaddr => memory (physBase + (vaddr - stackVirtBase))

/-- The written bytes lie in the physical memory of the stack. -/
def Inside (physBase : ℕ) (x : ℕ × ℕ) : Prop :=
  physBase ≤ x.1 ∧ x.1 + x.2 ≤ physBase + userStackSize

/-- What was written since lies in the stack. -/
def WritesInside (physBase : ℕ) (w w' : StackWriter) : Prop :=
  ∀ x ∈ w'.writes, x ∈ w.writes ∨ Inside physBase x

theorem WritesInside.refl (physBase : ℕ) (w : StackWriter) : WritesInside physBase w w :=
  fun _ hx => .inl hx

variable {w₁ w₂ w₃ : StackWriter}

theorem WritesInside.trans {physBase : ℕ} (h₁ : WritesInside physBase w₁ w₂)
    (h₂ : WritesInside physBase w₂ w₃) : WritesInside physBase w₁ w₃ := by
  intro x hx
  rcases h₂ x hx with hx | hx
  · exact h₁ x hx
  · exact .inr hx

variable {rsp : ℕ}

section Writing

variable {physBase : ℕ}

theorem userStackTop_lt : userStackTop < word := by decide

theorem stackVirtBase_add : stackVirtBase + userStackSize = userStackTop := by decide

theorem inside_of_mem {vaddr len : ℕ} (hlo : stackVirtBase ≤ vaddr)
    (hhi : vaddr + len ≤ userStackTop) :
    Inside physBase (physBase + (vaddr - stackVirtBase), len) := by
  have hsize := stackVirtBase_add
  constructor
  · exact Nat.le_add_right _ _
  · change physBase + (vaddr - stackVirtBase) + len ≤ physBase + userStackSize
    omega

/-! ## The strings -/

/-- Bytes were written below the stack pointer, which is now at the first of them. -/
structure Pushed (physBase : ℕ) (w w' : StackWriter) (data : List UInt8) : Prop where
  sp : w'.sp + data.length = w.sp
  memory : w'.memory = w.memory.store (physBase + (w'.sp - stackVirtBase)) data
  writes : WritesInside physBase w w'

theorem Pushed.nil (w : StackWriter) : Pushed physBase w w [] :=
  ⟨rfl, (Bytes.store_nil _ _).symm, .refl physBase w⟩

theorem Pushed.trans {s t : List UInt8} (h₁ : Pushed physBase w₁ w₂ t)
    (h₂ : Pushed physBase w₂ w₃ s) (hbase : stackVirtBase ≤ w₃.sp) :
    Pushed physBase w₁ w₃ (s ++ t) := by
  refine ⟨?_, ?_, h₁.writes.trans h₂.writes⟩
  · rw [List.length_append, ← h₁.sp, ← h₂.sp, Nat.add_assoc]
  · have hplace : physBase + (w₂.sp - stackVirtBase) =
        physBase + (w₃.sp - stackVirtBase) + s.length := by
      rw [← h₂.sp]
      omega
    rw [h₂.memory, h₁.memory, hplace, Bytes.store_append]

theorem pushStrings_append (l l' : List (List UInt8)) (w : StackWriter) (vaddrs : List ℕ) :
    StackWriter.pushStrings physBase (l ++ l') w vaddrs =
      StackWriter.pushStrings physBase l' (StackWriter.pushStrings physBase l w vaddrs).1
        (StackWriter.pushStrings physBase l w vaddrs).2 := by
  induction l generalizing w vaddrs with
  | nil => rfl
  | cons s l ih => exact ih _ _

/-! ## The block -/

/-- Words were written to the slots of the block from `k` on. -/
structure Stored (physBase rsp k : ℕ) (w w' : StackWriter) (words : List ℕ) : Prop where
  sp : w'.sp = w.sp
  memory : w'.memory = Bytes.writeArray 8 w.memory (physBase + (rsp - stackVirtBase) + 8 * k) words
  writes : WritesInside physBase w w'

theorem Stored.trans {rsp k k' : ℕ} {us vs : List ℕ} (h₁ : Stored physBase rsp k w₁ w₂ us)
    (h₂ : Stored physBase rsp k' w₂ w₃ vs) (hk : k' = k + us.length) :
    Stored physBase rsp k w₁ w₃ (us ++ vs) := by
  refine ⟨h₂.sp.trans h₁.sp, ?_, h₁.writes.trans h₂.writes⟩
  rw [h₂.memory, h₁.memory, Bytes.writeArray_append, hk, Nat.mul_add, ← Nat.add_assoc]

theorem Stored.nil (rsp k : ℕ) (w : StackWriter) : Stored physBase rsp k w w [] :=
  ⟨rfl, by rw [Bytes.writeArray], .refl physBase w⟩

/-- The words of the block. -/
def blockWords (argvVaddrs envpVaddrs : List ℕ) : List ℕ :=
  [argvVaddrs.length] ++ argvVaddrs ++ [0] ++ envpVaddrs ++ [0]

section Words

variable (a e : List ℕ) {i v : ℕ}

theorem length_blockWords : 8 * (blockWords a e).length = blockBytes a.length e.length := by
  simp only [blockWords, blockBytes, List.length_append, List.length_singleton]
  omega

theorem blockWords_eq : blockWords a e = a.length :: (a ++ 0 :: (e ++ [0])) := by
  simp only [blockWords, List.append_assoc, List.cons_append, List.nil_append]

theorem blockWords_argc : (blockWords a e)[0]? = some a.length := by
  rw [blockWords_eq, List.getElem?_cons_zero]

theorem blockWords_argv (h : a[i]? = some v) : (blockWords a e)[1 + i]? = some v := by
  rw [blockWords_eq, Nat.add_comm, List.getElem?_cons_succ,
    List.getElem?_append_left (List.getElem?_eq_some_iff.mp h).1, h]

theorem blockWords_argvNull : (blockWords a e)[1 + a.length]? = some 0 := by
  rw [blockWords_eq, Nat.add_comm, List.getElem?_cons_succ, List.getElem?_append_right le_rfl,
    Nat.sub_self, List.getElem?_cons_zero]

theorem blockWords_rest (i : ℕ) : (blockWords a e)[2 + a.length + i]? = (e ++ [0])[i]? := by
  have hindex : 2 + a.length + i = a.length + (i + 1) + 1 := by omega
  rw [blockWords_eq, hindex, List.getElem?_cons_succ,
    List.getElem?_append_right (Nat.le_add_right _ _), Nat.add_sub_cancel_left,
    List.getElem?_cons_succ]

theorem blockWords_envp (h : e[i]? = some v) : (blockWords a e)[2 + a.length + i]? = some v := by
  rw [blockWords_rest, List.getElem?_append_left (List.getElem?_eq_some_iff.mp h).1, h]

theorem blockWords_envpNull : (blockWords a e)[2 + a.length + e.length]? = some 0 := by
  rw [blockWords_rest, List.getElem?_append_right le_rfl, Nat.sub_self, List.getElem?_cons_zero]

end Words

/-! ## Writing -/

variable (hphys : physBase + userStackSize ≤ word)

include hphys

/-- An address of the stack does not wrap around. -/
theorem virtToPhys_of_mem {vaddr : ℕ} (hlo : stackVirtBase ≤ vaddr) (hhi : vaddr < userStackTop) :
    virtToPhys physBase vaddr = physBase + (vaddr - stackVirtBase) := by
  have htop := userStackTop_lt
  have hsize := stackVirtBase_add
  rw [virtToPhys, wrappingSub_of_le hlo (hhi.trans htop)]
  exact Nat.mod_eq_of_lt (by omega)

theorem pushed_store (w : StackWriter) (data : List UInt8)
    (hroom : stackVirtBase + data.length ≤ w.sp) (htop : w.sp ≤ userStackTop)
    (hlt : w.sp - data.length < userStackTop) :
    Pushed physBase w ((w.lower data.length).store physBase (w.lower data.length).sp data)
      data := by
  have hsp : (w.lower data.length).sp = w.sp - data.length :=
    (w.lower_sp _).trans (wrappingSub_of_le (by omega) (htop.trans_lt userStackTop_lt))
  have hplace : virtToPhys physBase (w.lower data.length).sp =
      physBase + ((w.lower data.length).sp - stackVirtBase) :=
    virtToPhys_of_mem hphys (by omega) (by omega)
  refine ⟨?_, ?_, fun x hx => ?_⟩
  · rw [StackWriter.store_sp, hsp]
    omega
  · rw [StackWriter.store_memory, StackWriter.store_sp, hplace, StackWriter.lower_memory]
  · rw [StackWriter.store_writes, StackWriter.lower_writes] at hx
    rcases List.mem_cons.mp hx with rfl | hx
    · rw [hplace]
      exact .inr (inside_of_mem (by omega) (by omega))
    · exact .inl hx

theorem pushed_pushString {w : StackWriter} (s : List UInt8)
    (hroom : stackVirtBase + (s.length + 1) ≤ w.sp) (htop : w.sp ≤ userStackTop) :
    Pushed physBase w (w.pushString physBase s) (terminated s) := by
  have hnul := pushed_store hphys w [0] (by rw [List.length_singleton]; omega) htop
    (by rw [List.length_singleton]; omega)
  rw [List.length_singleton] at hnul
  have hsp := hnul.sp
  rw [List.length_singleton] at hsp
  rw [StackWriter.pushString]
  generalize (w.lower 1).store physBase (w.lower 1).sp [0] = w₁ at hnul hsp ⊢
  have hbytes := pushed_store hphys w₁ s (by omega) (by omega) (by omega)
  have hsp' := hbytes.sp
  exact hnul.trans hbytes (by omega)

/-- The strings are pushed from the last to the first, so that they lie in memory one after
the other. -/
theorem pushed_pushStrings (l : List (List UInt8)) {w : StackWriter}
    (hroom : stackVirtBase + (joined l).length ≤ w.sp) (htop : w.sp ≤ userStackTop) :
    Pushed physBase w (w.pushStrings physBase l.reverse []).1 (joined l) ∧
      (w.pushStrings physBase l.reverse []).2.reverse =
        starts (w.pushStrings physBase l.reverse []).1.sp l := by
  induction l with
  | nil => exact ⟨.nil w, rfl⟩
  | cons s l ih =>
    rw [joined_cons, List.length_append, length_terminated] at hroom
    obtain ⟨hrest, hstarts⟩ := ih (by omega)
    have hsp := hrest.sp
    rw [List.reverse_cons, pushStrings_append]
    generalize w.pushStrings physBase l.reverse [] = r at hrest hstarts hsp
    have hpush : Pushed physBase r.1 (r.1.pushString physBase s) (terminated s) :=
      pushed_pushString hphys s (by omega) (by omega)
    have hsp' := hpush.sp
    rw [length_terminated] at hsp'
    have hbase : stackVirtBase ≤ (r.1.pushString physBase s).sp := by omega
    constructor
    · exact hrest.trans hpush hbase
    · change (r.2 ++ [(r.1.pushString physBase s).sp]).reverse =
        (r.1.pushString physBase s).sp :: starts ((r.1.pushString physBase s).sp + _) l
      rw [List.reverse_append, hstarts, hsp']
      rfl

theorem stored_storeWord {rsp slot : ℕ} (k : ℕ) (hslot : slot = rsp + 8 * k)
    (hlo : stackVirtBase ≤ rsp) (hhi : rsp + 8 * (k + 1) ≤ userStackTop) (w : StackWriter) (v : ℕ) :
    Stored physBase rsp k w (w.storeWord physBase slot v) [v] := by
  subst hslot
  have hplace : virtToPhys physBase (rsp + 8 * k) = physBase + (rsp - stackVirtBase) + 8 * k := by
    rw [virtToPhys_of_mem hphys (by omega) (by omega)]
    omega
  refine ⟨w.storeWord_sp _ _ _, ?_, fun x hx => ?_⟩
  · rw [StackWriter.storeWord_memory, hplace, Bytes.writeArray, Bytes.writeArray]
  rw [StackWriter.storeWord_writes] at hx
  rcases List.mem_cons.mp hx with rfl | hx
  · rw [virtToPhys_of_mem hphys (by omega) (by omega)]
    exact .inr (inside_of_mem (by omega) (by omega))
  · exact .inl hx

theorem stored_storePtrs (first : ℕ) (hlo : stackVirtBase ≤ rsp) (vaddrs : List ℕ)
    (hhi : rsp + 8 * (1 + first + vaddrs.length) ≤ userStackTop) (w : StackWriter) :
    Stored physBase rsp (1 + first) w (w.storePtrs physBase rsp first vaddrs) vaddrs := by
  rw [StackWriter.storePtrs]
  -- the induction carries the index of the first address that is left
  suffices hgen : ∀ (i : ℕ) (w : StackWriter),
      rsp + 8 * (1 + first + i + vaddrs.length) ≤ userStackTop →
      Stored physBase rsp (1 + first + i) w ((vaddrs.zipIdx i).foldl
        (fun w x => w.storeWord physBase (rsp + 8 + 8 * (first + x.2)) x.1) w) vaddrs by
    exact hgen 0 w hhi
  clear hhi
  induction vaddrs with
  | nil => exact fun i w _ => .nil rsp _ w
  | cons vaddr rest ih =>
    intro i w hhi
    rw [List.length_cons] at hhi
    have hword : Stored physBase rsp (1 + first + i) w
        (w.storeWord physBase (rsp + 8 + 8 * (first + i)) vaddr) [vaddr] :=
      stored_storeWord hphys _ (by omega) hlo (by omega) w vaddr
    rw [List.zipIdx_cons, List.foldl_cons]
    exact hword.trans (ih (i + 1) _ (by omega)) (by rw [List.length_singleton]; omega)

theorem stored_storeWords (hlo : stackVirtBase ≤ rsp) {argvVaddrs envpVaddrs : List ℕ}
    (hhi : rsp + blockBytes argvVaddrs.length envpVaddrs.length ≤ userStackTop) (w : StackWriter) :
    Stored physBase rsp 0 w (w.storeWords physBase rsp argvVaddrs envpVaddrs)
      (blockWords argvVaddrs envpVaddrs) := by
  rw [blockBytes] at hhi
  -- the five stores, in the order of the slots
  refine Stored.trans (.trans (.trans (.trans
    (stored_storeWord hphys 0 (by omega) hlo (by omega) _ _)
    (stored_storePtrs hphys 0 hlo _ (by omega) _) rfl)
    (stored_storeWord hphys (argvVaddrs.length + 1) (by omega) hlo (by omega) _ _) ?_)
    (stored_storePtrs hphys (argvVaddrs.length + 1) hlo _ (by omega) _) ?_)
    (stored_storeWord hphys (argvVaddrs.length + envpVaddrs.length + 2) (by omega) hlo
      (by omega) _ _) ?_
  all_goals simp only [List.length_append, List.length_singleton]
  all_goals omega

theorem storeBlock_spec {a e : List ℕ} {w : StackWriter}
    (hroom : stackVirtBase + (blockBytes a.length e.length + 30) ≤ w.sp)
    (htop : w.sp ≤ userStackTop) :
    ∃ rsp, stackVirtBase ≤ rsp ∧ rsp % 16 = 0 ∧ rsp + blockBytes a.length e.length ≤ w.sp ∧
      Stored physBase rsp 0 { w with sp := rsp } (storeBlock physBase a e w)
        (blockWords a e) := by
  have hlt := userStackTop_lt
  have hbase : stackVirtBase % 16 = 0 := by decide
  generalize hsize : blockBytes a.length e.length = size at hroom
  have hsp : wrappingSub (w.sp / 16 * 16) ((size + 15) / 16 * 16) =
      w.sp / 16 * 16 - (size + 15) / 16 * 16 := wrappingSub_of_le (by omega) (by omega)
  refine ⟨w.sp / 16 * 16 - (size + 15) / 16 * 16, by omega, by omega, by omega, ?_⟩
  rw [storeBlock, hsize, ← hsp]
  exact stored_storeWords hphys (by rw [hsp]; omega) (by rw [hsp, hsize]; omega) _

end Writing

/-! ## The layout -/

/-- The areas of the stack that are in use: the block and the strings with their NUL. -/
def areas (rsp : ℕ) (argv envp : List (ℕ × List UInt8)) : List (ℕ × ℕ) :=
  (rsp, blockBytes argv.length envp.length) :: (argv ++ envp).map fun x => (x.1, x.2.length + 1)

/-- What a program finds on its stack.  The strings come with their addresses. -/
structure Layout (view : Bytes) (rsp : ℕ) (argv envp : List (ℕ × List UInt8)) : Prop where
  aligned : rsp % 16 = 0
  argc : view.readLe 8 rsp = argv.length
  argvWords : ∀ i x, argv[i]? = some x → view.readLe 8 (rsp + 8 * (1 + i)) = x.1
  argvNull : view.readLe 8 (rsp + 8 * (1 + argv.length)) = 0
  envpWords : ∀ i x, envp[i]? = some x → view.readLe 8 (rsp + 8 * (2 + argv.length + i)) = x.1
  envpNull : view.readLe 8 (rsp + 8 * (2 + argv.length + envp.length)) = 0
  strings : ∀ x ∈ argv ++ envp, 0 ∉ x.2 ∧ view.Holds x.1 (terminated x.2)
  separate : (areas rsp argv envp).Pairwise fun x y => x.1 + x.2 ≤ y.1 ∨ y.1 + y.2 ≤ x.1
  inStack : ∀ x ∈ areas rsp argv envp, stackVirtBase ≤ x.1 ∧ x.1 + x.2 ≤ userStackTop

section Layout

variable {physBase : ℕ} {memory : Bytes}

theorem readLe_stackView {rsp k : ℕ} (h : stackVirtBase ≤ rsp) :
    (stackView physBase memory).readLe 8 (rsp + 8 * k) =
      memory.readLe 8 (physBase + (rsp - stackVirtBase) + 8 * k) := by
  refine Bytes.readLe_congr fun i _ => ?_
  have hplace : physBase + (rsp + 8 * k + i - stackVirtBase) =
      physBase + (rsp - stackVirtBase) + 8 * k + i := by omega
  rw [stackView, hplace]

variable {p : ℕ}

theorem holds_stackView {data : List UInt8} (h : stackVirtBase ≤ p)
    (hholds : memory.Holds (physBase + (p - stackVirtBase)) data) :
    (stackView physBase memory).Holds p data := by
  refine hholds.congr fun i _ => ?_
  have hplace : physBase + (p + i - stackVirtBase) = physBase + (p - stackVirtBase) + i := by omega
  rw [stackView, hplace]

theorem readLe_of_stored {rsp k v : ℕ} {w w' : StackWriter} {words : List ℕ}
    (h : Stored physBase rsp 0 w w' words) (hlo : stackVirtBase ≤ rsp) (hk : words[k]? = some v)
    (hv : v < word) : (stackView physBase w'.memory).readLe 8 (rsp + 8 * k) = v := by
  rw [readLe_stackView hlo, h.memory, Nat.mul_zero, Nat.add_zero,
    Bytes.readLe_writeArray_of_le le_rfl hk]
  exact Nat.mod_eq_of_lt hv

/-- Arguments and variables as they are collected from user memory. -/
structure Collected (argv envp : List (List UInt8)) : Prop where
  argv_length : argv.length ≤ UserCopy.maxArgs
  envp_length : envp.length ≤ UserCopy.maxEnvVars
  texts : ∀ s ∈ argv ++ envp, UserCopy.Text s

variable {argv envp : List (List UInt8)}

/-- The strings and the block take less than the stack. -/
theorem Collected.room (h : Collected argv envp) :
    stackVirtBase + (blockBytes argv.length envp.length + 30) + (joined envp).length +
      (joined argv).length ≤ userStackTop := by
  have hargv : (joined argv).length ≤ argv.length * UserCopy.maxString :=
    length_joined_le fun s hs => (h.texts s (List.mem_append_left _ hs)).short
  have henvp : (joined envp).length ≤ envp.length * UserCopy.maxString :=
    length_joined_le fun s hs => (h.texts s (List.mem_append_right _ hs)).short
  have hargc : argv.length ≤ 64 := h.argv_length
  have henvc : envp.length ≤ 256 := h.envp_length
  have hsize : stackVirtBase + 2097152 = userStackTop := by decide
  rw [blockBytes]
  simp only [UserCopy.maxString] at hargv henvp
  omega

variable {q : ℕ}

theorem le_of_mem_placed (henvp : p + (joined envp).length = q) {x : ℕ × List UInt8}
    (hx : x ∈ placed q argv ++ placed p envp) : p ≤ x.1 := by
  rcases List.mem_append.mp hx with hx | hx
  · have hbounds := bounds_of_placed hx
    omega
  · exact (bounds_of_placed hx).1

/-- The strings of the arguments lie above those of the environment, and the block below
both. -/
theorem separate_areas (hblock : rsp + blockBytes argv.length envp.length ≤ p)
    (henvp : p + (joined envp).length = q) :
    (areas rsp (placed q argv) (placed p envp)).Pairwise
      fun x y => x.1 + x.2 ≤ y.1 ∨ y.1 + y.2 ≤ x.1 := by
  rw [areas, List.pairwise_cons, List.pairwise_map, List.pairwise_append]
  refine ⟨?_, ?_, ?_, ?_⟩
  · intro y hy
    obtain ⟨x, hx, rfl⟩ := List.mem_map.mp hy
    left
    change rsp + blockBytes (placed q argv).length (placed p envp).length ≤ x.1
    rw [length_placed, length_placed]
    exact hblock.trans (le_of_mem_placed henvp hx)
  · exact (pairwise_placed q argv).imp .inl
  · exact (pairwise_placed p envp).imp .inl
  · intro x hx y hy
    have hx' := bounds_of_placed hx
    have hy' := bounds_of_placed hy
    right
    change y.1 + (y.2.length + 1) ≤ x.1
    omega

/-- The strings are below the top of the stack, and the block is in the stack. -/
theorem inStack_areas (hbase : stackVirtBase ≤ rsp)
    (hblock : rsp + blockBytes argv.length envp.length ≤ p) (henvp : p + (joined envp).length = q)
    (hargv : q + (joined argv).length = userStackTop) :
    ∀ x ∈ areas rsp (placed q argv) (placed p envp),
      stackVirtBase ≤ x.1 ∧ x.1 + x.2 ≤ userStackTop := by
  intro y hy
  rcases List.mem_cons.mp hy with rfl | hy
  · rw [length_placed, length_placed]
    exact ⟨hbase, by omega⟩
  · obtain ⟨x, hx, rfl⟩ := List.mem_map.mp hy
    have hle := le_of_mem_placed henvp hx
    refine ⟨by omega, ?_⟩
    rcases List.mem_append.mp hx with hx | hx
    · exact (bounds_of_placed hx).2.trans hargv.le
    · have hbounds := (bounds_of_placed hx).2
      omega

/-- The block and the strings above it make the layout. -/
theorem layout_of_stored {w w' : StackWriter} (haligned : rsp % 16 = 0)
    (hbase : stackVirtBase ≤ rsp) (hblock : rsp + blockBytes argv.length envp.length ≤ p)
    (henvp : p + (joined envp).length = q) (hargv : q + (joined argv).length = userStackTop)
    (htexts : ∀ s ∈ argv ++ envp, UserCopy.Text s)
    (hholds : w.memory.Holds (physBase + (p - stackVirtBase)) (joined envp ++ joined argv))
    (hstored : Stored physBase rsp 0 w w' (blockWords (starts q argv) (starts p envp))) :
    Layout (stackView physBase w'.memory) rsp (placed q argv) (placed p envp) := by
  have hargc : (starts q argv).length = argv.length := length_starts q argv
  have henvc : (starts p envp).length = envp.length := length_starts p envp
  have htop := userStackTop_lt
  have hin := inStack_areas hbase hblock henvp hargv
  have hplaced (x : ℕ × List UInt8) (hx : x ∈ placed q argv ++ placed p envp) : x.1 < word := by
    have hx' := hin _ (List.mem_cons_of_mem _ (List.mem_map_of_mem hx))
    exact (Nat.le_of_add_right_le hx'.2).trans_lt htop
  have hword {k v : ℕ} (hk : (blockWords (starts q argv) (starts p envp))[k]? = some v)
      (hv : v < word) := readLe_of_stored hstored hbase hk hv
  refine ⟨haligned, ?_, ?_, ?_, ?_, ?_, ?_, separate_areas hblock henvp, hin⟩
  · have hsmall : argv.length ≤ blockBytes argv.length envp.length := by
      rw [blockBytes]
      omega
    have hargc' := hword (blockWords_argc _ _) (by omega)
    rwa [Nat.mul_zero, Nat.add_zero, hargc, ← length_placed q] at hargc'
  · intro i x hx
    exact hword (blockWords_argv _ _ (start_of_placed hx))
      (hplaced x (List.mem_append_left _ (List.mem_of_getElem? hx)))
  · have hnull := hword (blockWords_argvNull _ _) (by omega)
    rwa [hargc, ← length_placed q] at hnull
  · intro i x hx
    have henv := hword (blockWords_envp _ _ (start_of_placed hx))
      (hplaced x (List.mem_append_right _ (List.mem_of_getElem? hx)))
    rwa [hargc, ← length_placed q] at henv
  · have hnull := hword (blockWords_envpNull _ _) (by omega)
    rwa [hargc, henvc, ← length_placed q, ← length_placed p] at hnull
  · intro x hx
    have hlo := le_of_mem_placed henvp hx
    have hmem : x.2 ∈ argv ++ envp := by
      rw [← map_snd_placed q argv, ← map_snd_placed p envp, ← List.map_append]
      exact List.mem_map_of_mem hx
    refine ⟨(htexts _ hmem).ne_nul, ?_⟩
    have hold : (stackView physBase w.memory).Holds x.1 (terminated x.2) := by
      have hall := holds_stackView (by omega) hholds
      rcases List.mem_append.mp hx with hx | hx
      · exact holds_of_placed (henvp ▸ hall.right) hx
      · exact holds_of_placed hall.left hx
    refine hold.congr fun i _ => ?_
    rw [stackView, hstored.memory, stackView, Bytes.writeArray_of_disjoint]
    rw [length_blockWords, hargc, henvc]
    omega

/-- The stack that is prepared. -/
structure Prepared (physBase : ℕ) (argv envp : List (List UInt8)) (w : StackWriter) : Prop where
  layout : ∃ argvPlaced envpPlaced : List (ℕ × List UInt8),
    argvPlaced.map Prod.snd = argv ∧ envpPlaced.map Prod.snd = envp ∧
      Layout (stackView physBase w.memory) w.sp argvPlaced envpPlaced
  writes : ∀ x ∈ w.writes, Inside physBase x

theorem prepared_prepareStack (hphys : physBase + userStackSize ≤ word) (h : Collected argv envp)
    (memory : Bytes) : Prepared physBase argv envp (prepareStack physBase argv envp memory) := by
  have hroom := h.room
  obtain ⟨hpush, hstarts⟩ := pushed_pushStrings hphys argv
    (w := ⟨memory, userStackTop, []⟩) (show _ ≤ userStackTop by omega) le_rfl
  rw [prepareStack]
  generalize StackWriter.pushStrings physBase argv.reverse ⟨memory, userStackTop, []⟩ [] = r
    at hpush hstarts ⊢
  have hsp : r.1.sp + (joined argv).length = userStackTop := hpush.sp
  obtain ⟨hpush', hstarts'⟩ := pushed_pushStrings hphys envp (w := r.1) (by omega) (by omega)
  generalize r.1.pushStrings physBase envp.reverse [] = r' at hpush' hstarts' ⊢
  have hsp' := hpush'.sp
  have hstrings := hpush.trans hpush' (by omega)
  rw [hstarts, hstarts']
  have hargc := length_starts r.1.sp argv
  have henvc := length_starts r'.1.sp envp
  have hspec := storeBlock_spec hphys (w := r'.1) (a := starts r.1.sp argv)
    (e := starts r'.1.sp envp) (by rw [hargc, henvc]; omega) (by omega)
  obtain ⟨rsp, hbase, haligned, hblock, hstored⟩ := hspec
  rw [hargc, henvc] at hblock
  generalize storeBlock physBase _ _ r'.1 = w at hstored ⊢
  have hlayout := layout_of_stored haligned hbase hblock hsp' hsp h.texts
    (w := { r'.1 with sp := rsp }) (by rw [hstrings.memory]; exact Bytes.holds_store _ _ _) hstored
  refine ⟨⟨placed r.1.sp argv, placed r'.1.sp envp, map_snd_placed _ _, map_snd_placed _ _, ?_⟩,
    fun x hx => ?_⟩
  · rwa [hstored.sp]
  · rcases hstored.writes x hx with hx | hx
    · rcases hstrings.writes x hx with hx | hx
      · exact nomatch hx
      · exact hx
    · exact hx

end Layout

open UserCopy in
/-- Whatever path, arguments and environment a process has in its memory, the program that
is started with them finds them on its stack, and nothing but the stack was written. -/
theorem initialStack_of_collected {pathPtr argvPtr envpPtr physBase : ℕ} {path : List UInt8}
    {argv envp : List (List UInt8)} {m₁ m₁' m₂ m₂' m₃ m₃' : UserMemory}
    (hpath : readUserString pathPtr maxString m₁ = .ok path m₁')
    (hargv : collectUserArgv path argvPtr m₂ = .ok argv m₂')
    (henvp : collectUserEnvp envpPtr m₃ = .ok envp m₃')
    (hphys : physBase + userStackSize ≤ word) (memory : Bytes) :
    Prepared physBase argv envp (prepareStack physBase argv envp memory) := by
  obtain ⟨hargc, hargs⟩ := collectUserArgv_ok (text_of_readUserString hpath) hargv
  obtain ⟨henvc, hvars⟩ := collectUserEnvp_ok henvp
  refine prepared_prepareStack hphys ⟨hargc, henvc, fun s hs => ?_⟩ memory
  rcases List.mem_append.mp hs with hs | hs
  · exact hargs s hs
  · exact hvars s hs

/-- A process that has a path, an array with one argument and an array with one variable
in its memory. -/
def commandMemory : UserCopy.UserMemory :=
  { UserCopy.wholeLowerHalf with
    phys := fun addr =>
      if 0x1000 ≤ addr ∧ addr < 0x1004 then [0x2F, 0x6C, 0x73].getD (addr - 0x1000) 0
      else if addr = 0x2001 then 0x30
      else if addr = 0x2011 then 0x31
      else if 0x3000 ≤ addr ∧ addr < 0x3003 then [0x6C, 0x73].getD (addr - 0x3000) 0
      else if 0x3100 ≤ addr ∧ addr < 0x3104 then [0x41, 0x3D, 0x31].getD (addr - 0x3100) 0
      else 0 }

open UserCopy in
theorem initialStack_of_collected_ls :
    Prepared 0x400000 [[0x6C, 0x73]] [[0x41, 0x3D, 0x31]]
      (prepareStack 0x400000 [[0x6C, 0x73]] [[0x41, 0x3D, 0x31]] Bytes.zero) := by
  have hbytes : outcome (readUserBytes 0x1000 maxString) commandMemory =
      .ok [0x2F, 0x6C, 0x73] := by decide +kernel
  have hargv : outcome (collectUserArgv [0x2F, 0x6C, 0x73] 0x2000) commandMemory =
      .ok [[0x6C, 0x73]] := by decide +kernel
  have henvp : outcome (collectUserEnvp 0x2010) commandMemory = .ok [[0x41, 0x3D, 0x31]] := by
    decide +kernel
  have hpath : readUserString 0x1000 maxString commandMemory = .ok [0x2F, 0x6C, 0x73]
      (final (readUserBytes 0x1000 maxString) commandMemory) := by
    have hencode : [0x2F, 0x6C, 0x73] = Utf8.encode ['/', 'l', 's'] := by decide
    have hutf8 : (Utf8.decode [0x2F, 0x6C, 0x73]).isSome = true := by
      rw [hencode, Utf8.decode_encode]
      rfl
    rw [readUserString, bind_of_ok (run_of_outcome hbytes), require_bind_run, if_pos hutf8]
    rfl
  exact initialStack_of_collected hpath (run_of_outcome hargv) (run_of_outcome henvp)
    (by decide) Bytes.zero

end RacOS.Tasks
