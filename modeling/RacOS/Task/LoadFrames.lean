import RacOS.Elf.Frames
import RacOS.Mm.FrameUse
import RacOS.Task.Process

/-!
# The frames of a program that cannot be started

Nothing on the way from an image to a process gives a frame back when a later step fails.
The loader and the building of a process leave the free frames as they were only if they
fail before they have got the first one; a call that has loaded the image and then fails
never does.
-/

namespace RacOS.Process

open Program
open Mm (pageSize Pml4)
open Elf (Machine Loaded SameFrames After freeRun)

variable {free : List ℕ} {m : Machine}

theorem lostFrom_of_subset (h : m.LostFrom free) {free' : List ℕ} (hsub : free' ⊆ m.free) :
    Machine.LostFrom free { m with free := free' } := by
  obtain ⟨f, hf, hlost⟩ := h
  exact ⟨f, hf, fun hmem => hlost (hsub hmem)⟩

/-! ## Building a process -/

theorem writeMemory_keeps (f : Bytes → Bytes) : Maintains (Machine.LostFrom free) (writeMemory f) :=
  fun _ h => h

theorem writeStack_keeps (loaded : Loaded) (argv envp : List (List UInt8)) :
    Maintains (Machine.LostFrom free) (writeStack loaded argv envp) := by
  refine Triple.get_bind fun m _ => ?_
  refine Triple.bind (Q := fun _ => Machine.LostFrom free) ?_ fun _ => .pure fun _ h => h
  exact (writeMemory_keeps _).weaken fun _ h => h.1

theorem writeIretFrame_keeps (entryPoint userRsp kernelStackBase : ℕ) :
    Maintains (Machine.LostFrom free) (writeIretFrame entryPoint userRsp kernelStackBase) :=
  Triple.bind (writeMemory_keeps _) fun _ => .pure fun _ h => h

theorem buildPageTable_keeps (kernel : Pml4) (loaded : Mm.LoadedElf) :
    Maintains (Machine.LostFrom free)
      (focus Machine.free (fun m free => { m with free }) id (Mm.buildPageTable kernel loaded) :
        ProcessM (ℕ × Pml4)) := by
  intro m hm
  have htakes := Mm.buildPageTable_takes kernel loaded m.free m.free (List.Subset.refl _)
  unfold focus
  cases hrun : Mm.buildPageTable kernel loaded m.free with
  | ok a free' =>
    rw [hrun] at htakes
    exact lostFrom_of_subset hm htakes
  | error e free' =>
    rw [hrun] at htakes
    exact lostFrom_of_subset hm htakes

variable (kernel : Pml4) (loaded : Loaded) (argv envp : List (List UInt8))

theorem fromElf_rest_keeps (kernelStackBase : ℕ) :
    Maintains (Machine.LostFrom free)
      (do let userRsp ← writeStack loaded argv envp
          let contextRsp ← writeIretFrame loaded.entryPoint userRsp kernelStackBase
          let (root, _) ← focus Machine.free (fun m free => { m with free }) id
            (Mm.buildPageTable kernel loaded.program)
          return ⟨kernelStackBase, root * pageSize, contextRsp⟩ : ProcessM UserProcess) := by
  refine Triple.bind (writeStack_keeps loaded argv envp) fun userRsp => ?_
  refine Triple.bind (writeIretFrame_keeps _ _ _) fun contextRsp => ?_
  exact Triple.bind (buildPageTable_keeps kernel loaded.program) fun x => .pure fun _ h => h

theorem allocKernelStack_of_none
    (hrun : freeRun m.free (kernelStackPages + kernelStackGuardPages) = none) :
    allocKernelStack m = .error "Failed to allocate kernel stack + guard" m := by
  rw [allocKernelStack, bind_run, focus, id_eq, Elf.allocContiguous_of_none hrun]

theorem allocKernelStack_of_some {first : ℕ}
    (hrun : freeRun m.free (kernelStackPages + kernelStackGuardPages) = some first) :
    ∃ base m', allocKernelStack m = .ok base m' ∧
      m'.free = Elf.withoutRun m.free first (kernelStackPages + kernelStackGuardPages) := by
  rw [allocKernelStack, bind_run, focus, id_eq, Elf.allocContiguous_of_some hrun]
  exact ⟨_, _, rfl, rfl⟩

theorem fromElf_after :
    Triple (fun m => m.free = free) (fromElf kernel loaded argv envp)
      (fun _ => Machine.LostFrom free)
      (After free (freeRun free (kernelStackPages + kernelStackGuardPages))) := by
  rintro m rfl
  cases hrun : freeRun m.free (kernelStackPages + kernelStackGuardPages) with
  | none =>
    rw [fromElf, bind_of_error (allocKernelStack_of_none hrun)]
    rfl
  | some first =>
    obtain ⟨base, m', hbase, hfree⟩ := allocKernelStack_of_some hrun
    rw [fromElf, bind_of_ok hbase]
    refine fromElf_rest_keeps kernel loaded argv envp base m' ⟨first, ?_⟩
    rw [hfree]
    exact Elf.mem_of_freeRun hrun

theorem fromElf_keeps :
    Maintains (Machine.LostFrom free) (fromElf kernel loaded argv envp) := by
  intro m hm
  cases hrun : freeRun m.free (kernelStackPages + kernelStackGuardPages) with
  | none =>
    rw [fromElf, bind_of_error (allocKernelStack_of_none hrun)]
    exact hm
  | some first =>
    obtain ⟨base, m', hbase, hfree⟩ := allocKernelStack_of_some hrun
    obtain ⟨f, hf, hlost⟩ := hm
    rw [fromElf, bind_of_ok hbase]
    refine fromElf_rest_keeps kernel loaded argv envp base m' ⟨f, hf, fun hmem => ?_⟩
    rw [hfree] at hmem
    exact hlost (List.mem_of_mem_filter hmem)

/-! ## The calls -/

/-- A frame that was free is not free any more. -/
def Lost (free : List ℕ) (s : System) : Prop := s.machine.LostFrom free

variable {α : Type}

theorem onUser_keeps (x : UserCopy.UserM α) : Maintains (Lost free) (onUser x) := by
  intro s hs
  unfold onUser focus
  cases x s.user with
  | ok a user => exact hs
  | error e user => exact hs

theorem onTasks_keeps (x : Tasks.TaskTable.Call α) : Maintains (Lost free) (onTasks x) := by
  intro s hs
  unfold onTasks focus
  cases x s.tasks with
  | ok a tasks => exact hs
  | error e tasks => exact hs

theorem buildProcess_keeps (kernel : Pml4) (path : List UInt8) (argvPtr envpPtr : ℕ)
    (loaded : Loaded) :
    Maintains (Lost free) (buildProcess kernel path argvPtr envpPtr loaded) := by
  refine Triple.bind (onUser_keeps _) fun argv => Triple.bind (onUser_keeps _) fun envp => ?_
  refine Triple.bind (onTasks_keeps _) fun pid => ?_
  refine Triple.bind (Q := fun _ => Lost free) ?_ fun process => .pure fun _ h => h
  exact (fromElf_keeps kernel loaded argv envp).focus (fun _ h => h) fun _ _ _ h => h

variable {image : Elf.Image} {loaded : Loaded} {s : System}

theorem loadImage_of_ok (h : Elf.loadElf image s.machine = .ok loaded m) :
    loadImage image s = .ok loaded { s with machine := m } ∧
      Lost s.machine.free { s with machine := m } := by
  constructor
  · unfold loadImage focus
    rw [h]
  · exact (Elf.loadElf_after image).of_ok rfl h

variable {kernel : Pml4} {path : List UInt8} {argvPtr envpPtr : ℕ} {s' : System} {e : SyscallError}

theorem sysExec_loses (hload : Elf.loadElf image s.machine = .ok loaded m)
    (h : sysExec kernel image path argvPtr envpPtr s = .error e s') :
    ¬SameFrames s.machine.free s'.machine.free := by
  obtain ⟨himage, hlost⟩ := loadImage_of_ok hload
  rw [sysExec, bind_of_ok himage] at h
  have hrest : Maintains (Lost s.machine.free)
      (buildProcess kernel path argvPtr envpPtr loaded >>= fun x => pure x.2) :=
    Triple.bind (buildProcess_keeps kernel path argvPtr envpPtr loaded)
      fun _ => .pure fun _ h => h
  exact (hrest.of_error hlost h).not_sameFrames

theorem sysSpawn_loses (hload : Elf.loadElf image s.machine = .ok loaded m)
    (h : sysSpawn kernel image path argvPtr envpPtr s = .error e s') :
    ¬SameFrames s.machine.free s'.machine.free := by
  obtain ⟨himage, hlost⟩ := loadImage_of_ok hload
  rw [sysSpawn, bind_of_ok himage] at h
  have hrest : Maintains (Lost s.machine.free)
      (buildProcess kernel path argvPtr envpPtr loaded >>= fun x =>
        onTasks (installTask x.1 x.2)) :=
    Triple.bind (buildProcess_keeps kernel path argvPtr envpPtr loaded)
      fun _ => onTasks_keeps _
  exact (hrest.of_error hlost h).not_sameFrames

/-! ## What is lost -/

theorem sameFrames_iff_of_after {run : Option ℕ} (h : After free run m) :
    SameFrames free m.free ↔ run = none := by
  cases run with
  | none =>
    have hfree : m.free = free := h
    rw [hfree]
    exact ⟨fun _ => rfl, fun _ f => Iff.rfl⟩
  | some first => exact ⟨fun hsame => absurd hsame (Elf.Machine.LostFrom.not_sameFrames h), nofun⟩

/-- When a program cannot be started, the free frames are the same as before exactly if
nothing had been allocated: the loader found no memory for the first segment, if there is
one; the building of a process found none for the kernel stack; and never if the loader had
already succeeded. -/
theorem failed_start_frames (kernel : Pml4) (image : Elf.Image) (loaded : Loaded)
    (argv envp : List (List UInt8)) (path : List UInt8) (argvPtr envpPtr : ℕ) (m : Machine)
    (s : System) :
    (∀ e m', Elf.loadElf image m = .error e m' →
      (SameFrames m.free m'.free ↔
        ∀ x, image.firstExtent = some x → freeRun m.free x.pages = none)) ∧
    (∀ e m', fromElf kernel loaded argv envp m = .error e m' →
      (SameFrames m.free m'.free ↔
        freeRun m.free (kernelStackPages + kernelStackGuardPages) = none)) ∧
    (∀ loaded' m', Elf.loadElf image s.machine = .ok loaded' m' →
      (∀ e s', sysExec kernel image path argvPtr envpPtr s = .error e s' →
        ¬SameFrames s.machine.free s'.machine.free) ∧
      (∀ e s', sysSpawn kernel image path argvPtr envpPtr s = .error e s' →
        ¬SameFrames s.machine.free s'.machine.free)) := by
  refine ⟨fun e m' h => ?_, fun e m' h => ?_, fun loaded' m' hload => ⟨?_, ?_⟩⟩
  · rw [sameFrames_iff_of_after ((Elf.loadElf_after image).of_error rfl h), Elf.firstRun,
      Option.bind_eq_none_iff]
  · exact sameFrames_iff_of_after ((fromElf_after kernel loaded argv envp).of_error rfl h)
  · exact fun e s' h => sysExec_loses hload h
  · exact fun e s' h => sysSpawn_loses hload h

/-- A program with one segment of one page. -/
def onePage : Elf.Image where
  len := 120
  bytes := fun i =>
    [0x7F, 0x45, 0x4C, 0x46, 2, 1, 1, 0, 0, 0, 0, 0, 0, 0, 0, 0,
      2, 0, 62, 0, 1, 0, 0, 0, 0, 0, 0x40, 0, 0, 0, 0, 0,
      64, 0, 0, 0, 0, 0, 0, 0, 0, 0, 0, 0, 0, 0, 0, 0,
      0, 0, 0, 0, 64, 0, 56, 0, 1, 0, 0, 0, 0, 0, 0, 0,
      1, 0, 0, 0, 5, 0, 0, 0, 0, 0, 0, 0, 0, 0, 0, 0,
      0, 0, 0x40, 0, 0, 0, 0, 0, 0, 0, 0x40, 0, 0, 0, 0, 0,
      120, 0, 0, 0, 0, 0, 0, 0, 120, 0, 0, 0, 0, 0, 0, 0,
      0, 0x10, 0, 0, 0, 0, 0, 0].getD i 0
  fits := by decide

/-- With a single free frame the segment gets it, and there is none for the stack. -/
theorem loadElf_keeps_segment_frame :
    outcome (Elf.loadElf onePage) { free := [5], memory := Bytes.zero } = .error .outOfMemory ∧
      ¬SameFrames [5] (final (Elf.loadElf onePage) { free := [5], memory := Bytes.zero }).free := by
  have hfinal : (final (Elf.loadElf onePage) { free := [5], memory := Bytes.zero }).free = [] := by
    decide +kernel
  refine ⟨by rfl, fun hsame => ?_⟩
  rw [hfinal] at hsame
  exact absurd ((hsame 5).mpr List.mem_cons_self) List.not_mem_nil

theorem freeRun_range' (first count : ℕ) :
    freeRun (List.range' first (count + 1)) (count + 1) = some first := by
  rw [freeRun, if_neg (Nat.succ_ne_zero count)]
  exact List.find?_cons_of_pos (by simp)

/-- The image without its program header. -/
def noSegment : Elf.Image :=
  { onePage with bytes := fun i => if i = 56 then 0 else onePage.bytes i }

theorem allocStack_of_some {first : ℕ}
    (h : freeRun m.free (Mm.userStackSize / pageSize) = some first) :
    ∃ first' m', Elf.allocStack m = .ok first' m' := by
  rw [Elf.allocStack, bind_of_ok (Elf.allocContiguous_of_some h)]
  exact ⟨_, _, rfl⟩

theorem loadElf_noSegment {first : ℕ}
    (h : freeRun m.free (Mm.userStackSize / pageSize) = some first) :
    ∃ loaded m', Elf.loadElf noSegment m = .ok loaded m' := by
  obtain ⟨first', m', hstack⟩ :=
    allocStack_of_some (m := { m with accesses := .image 0 64 :: m.accesses }) h
  exact ⟨⟨0x400000, [], first'⟩, m', bind_of_ok hstack⟩

/-- Seventeen free frames are enough for the kernel stack and not for the address space; and
the arguments of a call are refused after the program was loaded. -/
theorem failed_start_frames_late :
    let pml4 := UserCopy.wholeLowerHalf.pml4
    let m : Machine := { free := List.range' 0 17, memory := Bytes.zero }
    let s : System := ⟨{ m with free := List.range' 0 512 }, UserCopy.wholeLowerHalf, Tasks.boot⟩
    (∃ e m', fromElf pml4 ⟨0, [], 0⟩ [] [] m = .error e m' ∧ ¬SameFrames m.free m'.free) ∧
      ∃ e s', sysExec pml4 noSegment [] (2 ^ 47) 0 s = .error e s' ∧
        ¬SameFrames s.machine.free s'.machine.free := by
  intro pml4 m s
  have hrun : freeRun (List.range' 0 512) 512 = some 0 := freeRun_range' 0 511
  obtain ⟨loaded, m', hload⟩ := @loadElf_noSegment s.machine 0 hrun
  obtain ⟨-, hbuild, hcalls⟩ :=
    failed_start_frames pml4 noSegment ⟨0, [], 0⟩ [] [] [] (2 ^ 47) 0 m s
  obtain ⟨s', hexec⟩ : ∃ s', sysExec pml4 noSegment [] (2 ^ 47) 0 s = .error .EFAULT s' := by
    rw [sysExec, bind_of_ok (loadImage_of_ok hload).1]
    exact ⟨_, rfl⟩
  refine ⟨⟨_, _, rfl, fun hsame => ?_⟩, _, s', hexec, (hcalls loaded m' hload).1 _ s' hexec⟩
  exact absurd ((hbuild _ _ rfl).mp hsame) (by decide)

end RacOS.Process
