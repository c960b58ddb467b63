import RacOS.Elf.Growth
import RacOS.Lib.Triples

/-!
# What the loader touches

The loader reads the image inside its data only, and fills, reads and relocates memory
inside the frames it has got for the program.  There is one exception: the offset of the
program headers is added to their size without a check, so that an offset close to the
largest word passes the comparison with the length of the data.
-/

namespace RacOS.Elf

open Program
open Mm (pageSize Segment LoadedElf userStackSize)

/-- The bytes lie in a run of frames that was allocated for the owner. -/
def Machine.Within (m : Machine) (owner : Owner) (addr len : ℕ) : Prop :=
  ∃ first count, (owner, first, count) ∈ m.runs ∧ first * pageSize ≤ addr ∧
    addr + len ≤ (first + count) * pageSize

/-- The image is touched inside its data, memory inside what was allocated, and the tables
and places of relocations inside what was allocated for a segment. -/
def Access.Allowed (image : Image) (m : Machine) : Access → Prop
  | .image off len => off + len ≤ image.len
  | .fill addr len => ∃ owner, m.Within owner addr len
  | .fetch addr len => m.Within .segment addr len
  | .relocate addr len => m.Within .segment addr len

/-- Everything that was touched was allowed. -/
def Machine.Safe (image : Image) (m : Machine) : Prop :=
  ∀ a ∈ m.accesses, a.Allowed image m

/-- The memory of a segment was allocated for it. -/
def Machine.Holds (m : Machine) (seg : Segment) : Prop :=
  (.segment, seg.first, seg.pages) ∈ m.runs

/-- Everything that was touched was allowed, and the segments have their memory. -/
structure Machine.Sound (image : Image) (segments : List Segment) (m : Machine) : Prop where
  safe : m.Safe image
  holds : ∀ seg ∈ segments, m.Holds seg

section Steps

variable {image : Image} {segments : List Segment} {m m' : Machine} {owner : Owner}

theorem Machine.Within.mono (hruns : m.runs ⊆ m'.runs) {addr len : ℕ}
    (h : m.Within owner addr len) : m'.Within owner addr len := by
  obtain ⟨first, count, hmem, hrange⟩ := h
  exact ⟨first, count, hruns hmem, hrange⟩

theorem Machine.Within.part {addr len addr' len' : ℕ} (h : m.Within owner addr len)
    (hlo : addr ≤ addr') (hhi : addr' + len' ≤ addr + len) : m.Within owner addr' len' := by
  obtain ⟨first, count, hmem, hfirst, hlast⟩ := h
  exact ⟨first, count, hmem, hfirst.trans hlo, hhi.trans hlast⟩

theorem Access.Allowed.mono (hruns : m.runs ⊆ m'.runs) {a : Access}
    (h : a.Allowed image m) : a.Allowed image m' := by
  cases a with
  | image off len => exact h
  | fill addr len =>
    obtain ⟨owner, h⟩ := h
    exact ⟨owner, h.mono hruns⟩
  | fetch addr len => exact Machine.Within.mono hruns h
  | relocate addr len => exact Machine.Within.mono hruns h

namespace Machine.Sound

theorem of_runs (h : m.Sound image segments) (hruns : m.runs ⊆ m'.runs)
    (haccesses : m'.accesses = m.accesses) : m'.Sound image segments := by
  refine ⟨fun a ha => ?_, fun seg hseg => hruns (h.holds seg hseg)⟩
  rw [haccesses] at ha
  exact (h.safe a ha).mono hruns

theorem of_access (h : m.Sound image segments) {a : Access} (ha : a.Allowed image m)
    (hruns : m'.runs = m.runs) (haccesses : m'.accesses = a :: m.accesses) :
    m'.Sound image segments := by
  refine ⟨fun b hb => ?_, fun seg hseg => ?_⟩
  · have hallowed : b.Allowed image m := by
      rw [haccesses] at hb
      rcases List.mem_cons.mp hb with rfl | hb
      · exact ha
      · exact h.safe b hb
    exact hallowed.mono (fun x hx => hruns ▸ hx)
  · have := h.holds seg hseg
    rwa [Holds, hruns]

theorem append (h : m.Sound image segments) {seg : Segment} (hseg : m.Holds seg) :
    m.Sound image (segments ++ [seg]) := by
  refine ⟨h.safe, fun seg' hmem => ?_⟩
  rcases List.mem_append.mp hmem with hmem | hmem
  · exact h.holds seg' hmem
  · rwa [List.mem_singleton.mp hmem]

end Machine.Sound

/-- The state is sound and the run is allocated. -/
def Machine.Has (image : Image) (segments : List Segment) (owner : Owner) (first count : ℕ)
    (m : Machine) : Prop :=
  m.Sound image segments ∧ (owner, first, count) ∈ m.runs

theorem allocContiguous_triple (owner : Owner) (count : ℕ) :
    Triple (Machine.Sound image segments) (allocContiguous owner count)
      (fun first => Machine.Has image segments owner first count) (Machine.Safe image) := by
  intro m hm
  cases hrun : freeRun m.free count with
  | none =>
    rw [allocContiguous_of_none hrun]
    exact hm.safe
  | some first =>
    rw [allocContiguous_of_some hrun]
    exact ⟨hm.of_runs (List.subset_cons_self _ _) rfl, List.mem_cons_self⟩

theorem fill_triple {first count addr len : ℕ} (src : Bytes) (hlo : first * pageSize ≤ addr)
    (hhi : addr + len ≤ (first + count) * pageSize) :
    Triple (Machine.Has image segments owner first count) (fill addr len src)
      (fun _ => Machine.Has image segments owner first count) (Machine.Safe image) :=
  fun _ hm =>
    ⟨hm.1.of_access (a := .fill addr len) ⟨owner, first, count, hm.2, hlo, hhi⟩ rfl rfl, hm.2⟩

theorem touch_image_triple {first count off len : ℕ} (h : off + len ≤ image.len) :
    Triple (Machine.Has image segments owner first count) (touch (.image off len))
      (fun _ => Machine.Has image segments owner first count) (Machine.Safe image) :=
  fun _ hm => ⟨hm.1.of_access (a := .image off len) h rfl rfl, hm.2⟩

/-! ## Segments -/

theorem Phdr.check_ok {loadBias : ℕ} {ph : Phdr} {x : Extent}
    (h : ph.check image loadBias = .ok x) :
    ph.offset + ph.filesz ≤ image.len ∧ x.pageOffset + ph.filesz ≤ x.totalMem := by
  unfold Phdr.check at h
  split_ifs at h
  cases h
  simp only [Extent.pageOffset]
  omega

theorem Extent.totalMem_le (x : Extent) : x.totalMem ≤ x.pages * pageSize := by
  simp only [Extent.pages, pageSize]
  omega

theorem fillSegment_triple {ph : Phdr} {x : Extent} {first : ℕ}
    (hfile : ph.offset + ph.filesz ≤ image.len)
    (hmem : x.pageOffset + ph.filesz ≤ x.pages * pageSize) :
    Triple (Machine.Has image segments .segment first x.pages) (fillSegment image ph x first)
      (fun _ => Machine.Has image segments .segment first x.pages) (Machine.Safe image) := by
  refine .bind (fill_triple _ (le_refl _) (by rw [Nat.add_mul])) fun _ => ?_
  refine .ite (fun _ => ?_) fun _ => .pure fun _ hm => hm
  refine .bind (touch_image_triple hfile) fun _ => ?_
  exact fill_triple _ (Nat.le_add_right _ _) (by rw [Nat.add_mul]; omega)

/-- A segment is filled from the data of the image, inside the memory it gets. -/
theorem loadSegment_triple (loadBias : ℕ) (ph : Phdr) :
    Triple (Machine.Sound image segments) (loadSegment image loadBias ph)
      (fun seg => Machine.Sound image (segments ++ [seg])) (Machine.Safe image) := by
  refine .ofExcept_bind (fun _ h => h.safe) fun x hx => ?_
  obtain ⟨hfile, hmem⟩ := Phdr.check_ok hx
  refine .bind (allocContiguous_triple _ _) fun first => ?_
  refine .bind (fillSegment_triple hfile (hmem.trans x.totalMem_le)) fun _ => ?_
  exact .pure fun _ hm => hm.1.append hm.2

theorem loadHeader_triple (loadBias : ℕ) (ph : Phdr) (p : Progress) :
    Triple (Machine.Sound image p.segments) (loadHeader image loadBias ph p)
      (fun p' => Machine.Sound image p'.segments) (Machine.Safe image) := by
  refine .ofExcept_bind (fun _ h => h.safe) fun p' hp' => ?_
  rw [← segments_of_noteDynamic hp']
  refine .ite (fun _ => .pure fun _ h => h) fun _ => ?_
  refine .require_bind (fun _ h => h.safe) fun _ => ?_
  exact .bind (loadSegment_triple loadBias ph) fun seg => .pure fun _ h => h

/-! ## The loop over the program headers -/

/-- The end of the program header is a word. -/
def Header.Reaches (h : Header) (i : ℕ) : Prop := h.phdrOffset i + elf64PhdrSize < word

/-- After a header that ends inside the data, the end of the next one is a word. -/
theorem Header.Reaches.succ {h : Header} {i : ℕ} (hsize : h.phentsize < 2 ^ 16)
    (hread : h.phdrOffset i + elf64PhdrSize ≤ image.len) : h.Reaches (i + 1) := by
  have hfits := image.fits
  have hnext : h.phdrOffset (i + 1) = (h.phdrOffset i + h.phentsize) % word := by
    rw [phdrOffset, phdrOffset, Nat.mod_add_mod, Nat.succ_mul, Nat.add_assoc]
  rw [Reaches, hnext]
  simp only [elf64PhdrSize, word] at hread ⊢
  omega

theorem readPhdr_bind {off : ℕ} {f : Phdr → LoadM Progress} {Q : Progress → Machine → Prop}
    (hoff : off + elf64PhdrSize < word) (hf : off + elf64PhdrSize ≤ image.len →
      Triple (Machine.Sound image segments) (f (image.phdrAt off)) Q (Machine.Safe image)) :
    Triple (Machine.Sound image segments) (readPhdr image off >>= f) Q
      (Machine.Safe image) := by
  intro m hm
  by_cases hlen : off + elf64PhdrSize ≤ image.len
  · rw [bind_of_ok (readPhdr_of_le m (by rwa [Nat.mod_eq_of_lt hoff]))]
    exact hf hlen _ (hm.of_access (a := .image off elf64PhdrSize) hlen rfl rfl)
  · rw [bind_of_error (readPhdr_of_not_le m (by rwa [Nat.mod_eq_of_lt hoff]))]
    exact hm.safe

theorem loadHeaders_triple {h : Header} (hsize : h.phentsize < 2 ^ 16) (left i : ℕ)
    (p : Progress) (hreach : 0 < left → h.Reaches i) :
    Triple (Machine.Sound image p.segments) (loadHeaders image h left i p)
      (fun p' => Machine.Sound image p'.segments) (Machine.Safe image) := by
  induction left generalizing i p with
  | zero => exact .pure fun _ hm => hm
  | succ left ih =>
    refine readPhdr_bind (hreach (Nat.succ_pos left)) fun hread => ?_
    refine .bind (loadHeader_triple _ _ p) fun p' => ?_
    exact ih (i + 1) p' fun _ => .succ hsize hread

/-! ## Relocations -/

/-- What is resolved lies in the memory of a segment. -/
theorem resolveLoadedPtr_within (hholds : ∀ seg ∈ segments, m.Holds seg) {vaddr size ptr : ℕ}
    (h : resolveLoadedPtr segments vaddr size = .ok ptr) : m.Within .segment ptr size := by
  induction segments with
  | nil => exact nomatch h
  | cons seg rest ih =>
    unfold resolveLoadedPtr at h
    split_ifs at h with _ _ hin
    · refine ⟨seg.first, seg.pages, hholds seg List.mem_cons_self, ?_⟩
      obtain rfl : _ = ptr := Except.ok.inj h
      have hpages : seg.memsz ≤ seg.pages * pageSize := by
        simp only [Segment.pages, pageSize]
        omega
      rw [Nat.add_mul]
      omega
    · exact ih (fun seg' hmem => hholds seg' (List.mem_cons_of_mem _ hmem)) h

/-- The state is sound and the bytes lie in the memory of a segment. -/
def Machine.Maps (image : Image) (segments : List Segment) (ptr size : ℕ) (m : Machine) : Prop :=
  m.Sound image segments ∧ m.Within .segment ptr size

/-- The program ends safely, and with the property if it succeeds. -/
abbrev Stays (image : Image) (P : Machine → Prop) {α : Type} (x : LoadM α) : Prop :=
  Triple P x (fun _ => P) (Machine.Safe image)

variable {ptr size : ℕ}

theorem resolveLoadedPtr_bind {α : Type} {vaddr : ℕ} {f : ℕ → LoadM α} {P : Machine → Prop}
    {Q : α → Machine → Prop} (hP : ∀ m, P m → m.Sound image segments)
    (hf : ∀ ptr, Triple (fun m => P m ∧ m.Within .segment ptr size) (f ptr) Q
      (Machine.Safe image)) :
    Triple P (MonadExcept.ofExcept (resolveLoadedPtr segments vaddr size) >>= f) Q
      (Machine.Safe image) := by
  refine .ofExcept_bind (fun m hm => (hP m hm).safe) fun ptr hptr m hm => ?_
  exact hf ptr m ⟨hm, resolveLoadedPtr_within (hP m hm).holds hptr⟩

theorem fetchWords_triple {addr count : ℕ} (hlo : ptr ≤ addr)
    (hhi : addr + count * 8 ≤ ptr + size) :
    Stays image (Machine.Maps image segments ptr size) (fetchWords addr count) :=
  fun _ hm =>
    ⟨hm.1.of_access (a := .fetch addr (count * 8)) (hm.2.part hlo hhi) rfl rfl, hm.2⟩

theorem scanDynamic_triple (loadBias left i : ℕ) (info : DynInfo)
    (hsize : (i + left) * elf64DynSize ≤ size) :
    Stays image (Machine.Maps image segments ptr size) (scanDynamic ptr loadBias left i info) := by
  induction left generalizing i info with
  | zero => exact .pure fun _ hm => hm
  | succ left ih =>
    have hlast : i * elf64DynSize + 2 * 8 ≤ size := by
      simp only [elf64DynSize] at hsize ⊢
      omega
    have hnext (info : DynInfo) := ih (i + 1) info (by rwa [Nat.add_right_comm])
    have hfetch : Stays image (Machine.Maps image segments ptr size)
        (fetchWords (ptr + i * elf64DynSize) 2) :=
      fetchWords_triple (Nat.le_add_right _ _) (by omega)
    rw [scanDynamic]
    -- With the program unknown, the rule for `bind` does not try to run it.
    generalize fetchWords (ptr + i * elf64DynSize) 2 = fetch at hfetch ⊢
    refine .bind hfetch fun ent => ?_
    refine .ite (fun _ => .pure fun _ hm => hm) fun _ => ?_
    refine .ite (fun _ => ?_) fun _ => ?_
    · exact .ofExcept_bind (fun _ hm => hm.1.safe) fun relaVaddr _ => hnext _
    refine .ite (fun _ => hnext _) fun _ => ?_
    exact .ite (fun _ => hnext _) fun _ => hnext _

theorem applyRela_triple (loadBias : ℕ) (rela : List ℕ) :
    Stays image (Machine.Maps image segments ptr size) (applyRela segments loadBias rela) := by
  refine .ite (fun _ => ?_) fun _ => .pure fun _ hm => hm
  refine .ofExcept_bind (fun _ hm => hm.1.safe) fun placeVaddr _ => ?_
  refine resolveLoadedPtr_bind (fun _ hm => hm.1) fun place m hm => ?_
  exact ⟨hm.1.1.of_access (a := .relocate place 8) hm.2 rfl rfl, hm.1.2⟩

theorem applyRelas_triple (loadBias : ℕ) {entSize : ℕ} (hent : elf64RelaSize ≤ entSize)
    (left i : ℕ) (hsize : (i + left) * entSize ≤ size) :
    Stays image (Machine.Maps image segments ptr size)
      (applyRelas segments loadBias ptr entSize left i) := by
  induction left generalizing i with
  | zero => exact .pure fun _ hm => hm
  | succ left ih =>
    have hlast : i * entSize + elf64RelaSize ≤ size := by
      calc
        i * entSize + elf64RelaSize ≤ i * entSize + entSize := Nat.add_le_add_left hent _
        _ = (i + 1) * entSize := (Nat.succ_mul i entSize).symm
        _ ≤ (i + (left + 1)) * entSize := Nat.mul_le_mul_right _ (by omega)
        _ ≤ size := hsize
    have hfetch : Stays image (Machine.Maps image segments ptr size)
        (fetchWords (ptr + i * entSize) 3) :=
      fetchWords_triple (Nat.le_add_right _ _) (by
        rw [Nat.add_assoc]
        exact Nat.add_le_add_left hlast _)
    rw [applyRelas]
    generalize fetchWords (ptr + i * entSize) 3 = fetch at hfetch ⊢
    refine .bind hfetch fun rela => ?_
    refine .bind (applyRela_triple loadBias rela) fun _ => ?_
    exact ih (i + 1) (by rwa [Nat.add_right_comm, Nat.add_assoc])

theorem applyTable_triple (loadBias : ℕ) (info : DynInfo) :
    Stays image (Machine.Sound image segments) (applyTable segments loadBias info) := by
  unfold applyTable
  cases info.relaVaddr with
  | none => exact .pure fun _ hm => hm
  | some relaBase =>
    refine .ite (fun _ => .pure fun _ hm => hm) fun _ => ?_
    refine .require_bind (fun _ hm => hm.safe) fun hent => ?_
    refine resolveLoadedPtr_bind (fun _ hm => hm) fun ptr => ?_
    refine (applyRelas_triple loadBias hent _ 0 ?_).mono (fun _ hm => hm)
      fun _ _ hm => hm.1
    rw [Nat.zero_add]
    exact Nat.div_mul_le_self _ _

theorem relocate_triple (h : Header) (p : Progress) :
    Stays image (Machine.Sound image p.segments) (relocate h p) := by
  refine .ite (fun _ => ?_) fun _ => .pure fun _ hm => hm
  cases p.dynamicVaddr with
  | none => exact .pure fun _ hm => hm
  | some dynVaddr =>
    refine .ite (fun _ => .pure fun _ hm => hm) fun _ => ?_
    refine resolveLoadedPtr_bind (fun _ hm => hm) fun ptr => ?_
    have hsize : (0 + p.dynamicSize / elf64DynSize) * elf64DynSize ≤ p.dynamicSize := by
      rw [Nat.zero_add]
      exact Nat.div_mul_le_self _ _
    refine .bind (scanDynamic_triple _ _ 0 {} hsize) fun info => ?_
    exact (applyTable_triple _ info).mono (fun _ hm => hm.1) fun _ _ hm => hm

theorem allocStack_triple :
    Triple (Machine.Sound image segments) allocStack (fun _ => Machine.Safe image)
      (Machine.Safe image) := by
  refine .bind (allocContiguous_triple _ _) fun first => ?_
  refine .bind (fill_triple _ (le_refl _) ?_) fun _ => .pure fun _ hm => hm.1.safe
  rw [Nat.add_mul]
  exact Nat.add_le_add_left (by decide) _

end Steps

/-! ## Loading -/

/-- After the checks of the header the loader goes on to the program. -/
theorem loadElf_of_check {image : Image} {entryPoint : ℕ} (hlen : elf64HeaderSize ≤ image.len)
    (hcheck : image.header.check = .ok entryPoint) (m : Machine) :
    loadElf image m = loadProgram image image.header entryPoint
      { m with accesses := .image 0 elf64HeaderSize :: m.accesses } := by
  rw [loadElf, require_bind_run, if_pos hlen, hcheck]
  rfl

/-- The image is rejected before its program headers are read, or has none, or their
offset leaves room for one below the largest word. -/
def Image.HeadersFit (image : Image) : Prop :=
  elf64HeaderSize ≤ image.len → (∃ entryPoint, image.header.check = .ok entryPoint) →
    0 < image.header.phnum → image.header.phoff + elf64PhdrSize < word

variable {image : Image}

theorem header_phoff_lt : image.header.phoff < word := Bytes.readLe_lt 8 _ _

theorem header_phentsize_lt : image.header.phentsize < 2 ^ 16 := Bytes.readLe_lt 2 _ _

theorem phdrOffset_zero : image.header.phdrOffset 0 = image.header.phoff := by
  rw [Header.phdrOffset, Nat.zero_mul, Nat.add_zero, Nat.mod_eq_of_lt header_phoff_lt]

theorem safe_of_headersFit (hfit : image.HeadersFit) (free : List ℕ) (memory : Bytes) :
    (final (loadElf image) { free, memory }).Safe image := by
  have hstart : Machine.Sound image [] { free, memory } := ⟨nofun, nofun⟩
  refine Triple.final (P := Machine.Sound image []) ?_ hstart
  refine .require_bind (fun _ hm => hm.safe) fun hlen => ?_
  have htouch : Triple (Machine.Sound image []) (touch (.image 0 elf64HeaderSize))
      (fun _ => Machine.Sound image []) (Machine.Safe image) :=
    fun _ hm => hm.of_access (a := .image 0 elf64HeaderSize)
      (by rwa [Access.Allowed, Nat.zero_add]) rfl rfl
  refine .bind htouch fun _ => ?_
  refine .ofExcept_bind (fun _ hm => hm.safe) fun entryPoint hcheck => ?_
  refine .bind (loadHeaders_triple header_phentsize_lt _ 0 {} fun hpos => ?_) fun p => ?_
  · rw [Header.Reaches, phdrOffset_zero]
    exact hfit hlen ⟨entryPoint, hcheck⟩ hpos
  refine .bind (relocate_triple _ p) fun _ => ?_
  exact .bind allocStack_triple fun _ => .pure fun _ hm => hm

/-- With an offset too close to the largest word, the program header passes the comparison
with the length and is read past the end of the data. -/
theorem not_safe_of_not_headersFit (hfit : ¬image.HeadersFit) (m : Machine) :
    ¬(final (loadElf image) m).Safe image := by
  simp only [Image.HeadersFit, not_forall] at hfit
  obtain ⟨hlen, ⟨entryPoint, hcheck⟩, hpos, hoff⟩ := hfit
  obtain ⟨left, hleft⟩ : ∃ left, image.header.phnum = left + 1 :=
    Nat.exists_eq_succ_of_ne_zero hpos.ne'
  have hlt : image.header.phoff < word := header_phoff_lt
  have hpass : (image.header.phoff + elf64PhdrSize) % word ≤ image.len := by
    simp only [elf64PhdrSize, elf64HeaderSize, word] at hoff hlt hlen ⊢
    omega
  intro hsafe
  have hread : Access.image image.header.phoff elf64PhdrSize ∈
      (final (loadElf image) m).accesses := by
    rw [final_congr (loadElf_of_check hlen hcheck m), loadProgram]
    refine (Built.bind_grows (fun p => ?_) _).accesses ?_
    · exact .bind (Still.relocate _ _).built fun _ => .bind Built.allocStack fun _ => .pure _
    rw [hleft, loadHeaders, phdrOffset_zero, final_bind, readPhdr_of_le _ hpass]
    refine (Built.grows ?_ _).accesses List.mem_cons_self
    exact .bind (Built.loadHeader _ _ _ _) fun p => Built.loadHeaders _ _ _ _ _
  have hallowed : image.header.phoff + elf64PhdrSize ≤ image.len := hsafe _ hread
  have hfits : image.len < word := image.fits.trans (by decide)
  exact hoff (hallowed.trans_lt hfits)

/-- The loader touches only what it may, exactly if the offset of the program headers of
an image it accepts leaves room for one. -/
theorem loadElf_safe_iff (image : Image) (free : List ℕ) (memory : Bytes) :
    (final (loadElf image) { free, memory }).Safe image ↔ image.HeadersFit := by
  constructor
  · intro hsafe
    by_contra hfit
    exact not_safe_of_not_headersFit hfit _ hsafe
  · intro hfit
    exact safe_of_headersFit hfit free memory

/-- The header of a program whose only program header is at the largest offset that the
comparison with the length accepts. -/
def distantHeaders : Image where
  len := 64
  bytes := fun i =>
    [0x7F, 0x45, 0x4C, 0x46, 2, 1, 1, 0, 0, 0, 0, 0, 0, 0, 0, 0,
      2, 0, 62, 0, 1, 0, 0, 0, 0, 0, 0x40, 0, 0, 0, 0, 0,
      0xC8, 0xFF, 0xFF, 0xFF, 0xFF, 0xFF, 0xFF, 0xFF, 0, 0, 0, 0, 0, 0, 0, 0,
      0, 0, 0, 0, 64, 0, 56, 0, 1, 0, 0, 0, 0, 0, 0, 0].getD i 0
  fits := by decide

theorem loadElf_reads_past_end :
    ¬(final (loadElf distantHeaders) { free := [], memory := Bytes.zero }).Safe
      distantHeaders := by
  refine not_safe_of_not_headersFit (fun hfit => ?_) _
  have hoff := hfit (by decide) ⟨0x400000, by decide⟩ (by decide)
  exact absurd hoff (by decide)

end RacOS.Elf
