import RacOS.Block.CacheFlush
import RacOS.Block.CacheWrite
import RacOS.Racfs.Format

/-!
# What successful programs do to the logical contents

A successful cached read returns the logical contents of its sector, and a
successful cached write replaces them; the rest of the filesystem state stays.
`Puts s ws s'` collects this for programs, and formatting is the first
instance.
-/

namespace RacOS.Racfs

open Program Block Vfs Bytes

/-- `s'` is `s` with the writes `ws` carried out on its logical contents. -/
structure Puts (s : Racfs) (ws : List (ℕ × Sector)) (s' : Racfs) : Prop where
  inv : s'.cache.Inv
  view : s'.cache.view = WriteLog.apply s.cache.view ws
  sectorCount : s'.cache.device.sectorCount = s.cache.device.sectorCount
  faults : s'.cache.device.faults = s.cache.device.faults
  recording : s'.cache.recording.isSome = s.cache.recording.isSome
  rest : s' = { s with cache := s'.cache }

variable {s s' : Racfs}

namespace Puts

theorem refl (hs : s.cache.Inv) : Puts s [] s :=
  ⟨hs, rfl, rfl, rfl, rfl, rfl⟩

theorem sb_eq {ws : List (ℕ × Sector)} (h : Puts s ws s') : s'.sb = s.sb := by
  rw [h.rest]

theorem trans {s₁ s₂ s₃ : Racfs} {ws vs : List (ℕ × Sector)}
    (h : Puts s₁ ws s₂) (h' : Puts s₂ vs s₃) : Puts s₁ (ws ++ vs) s₃ := by
  refine ⟨h'.inv, ?_, h'.sectorCount.trans h.sectorCount,
    h'.faults.trans h.faults, h'.recording.trans h.recording, ?_⟩
  · rw [h'.view, h.view, WriteLog.apply_append]
  · rw [h'.rest, h.rest]

theorem of_keeps {c : BlockCache} (hk : BlockCache.Keeps s.cache c) :
    Puts s [] { s with cache := c } :=
  ⟨hk.inv, hk.view, hk.sectorCount, hk.faults, by rw [hk.recording], rfl⟩

end Puts

theorem fetchSector_puts {lba : ℕ} {buf : Sector} (hs : s.cache.Inv)
    (h : onCache (BlockCache.fetchSector lba) s = .ok buf s') :
    buf = s.cache.view lba ∧ Puts s [] s' := by
  obtain ⟨c, hfetch, rfl⟩ := onCache_ok_iff.mp h
  obtain ⟨-, hbuf, hk⟩ := BlockCache.fetchSector_ok hs hfetch
  exact ⟨hbuf, .of_keeps hk⟩

variable {u : Unit}

theorem storeSector_puts {lba : ℕ} {data : Sector} (hs : s.cache.Inv)
    (h : onCache (BlockCache.storeSector lba data) s = .ok u s') :
    lba < s.cache.device.sectorCount ∧ Puts s [(lba, data)] s' := by
  obtain ⟨c, hstore, rfl⟩ := onCache_ok_iff.mp h
  have hst := BlockCache.storeSector_ok hs hstore
  refine ⟨hst.range, hst.inv, hst.view, hst.sectorCount, hst.faults, ?_, rfl⟩
  simp [hst.recording, BlockCache.noteWrite]

theorem flush_puts (hs : s.cache.Inv) (h : onCache BlockCache.flush s = .ok u s') :
    Puts s [] s' := by
  obtain ⟨c, hflush, rfl⟩ := onCache_ok_iff.mp h
  obtain ⟨hk, -⟩ := BlockCache.flush_final hs
  rw [final_of_ok hflush] at hk
  exact .of_keeps hk

theorem writeInode_puts {ino : ℕ} {inode : DiskInode} (hs : s.cache.Inv)
    (h : writeInode ino inode s = .ok u s') : ∃ data, Puts s [(inodeSector s.sb ino, data)] s' := by
  unfold writeInode at h
  rw [get_bind_run] at h
  obtain ⟨buf, s₁, hfetch, hstore⟩ := bind_ok_iff.mp h
  obtain ⟨-, hp₁⟩ := fetchSector_puts hs hfetch
  obtain ⟨-, hp₂⟩ := storeSector_puts hp₁.inv hstore
  exact ⟨_, hp₁.trans hp₂⟩

/-! ## Formatting -/

theorem zeroSectors_puts {start count : ℕ} (hs : s.cache.Inv)
    (h : zeroSectors start count s = .ok u s') :
    (count = 0 ∨ start + count ≤ s.cache.device.sectorCount) ∧
      Puts s ((List.range' start count).map fun lba => (lba, Sector.zero)) s' := by
  unfold zeroSectors at h
  induction count generalizing s start with
  | zero =>
    obtain ⟨-, rfl⟩ := pure_ok_iff.mp h
    exact ⟨.inl rfl, .refl hs⟩
  | succ count ih =>
    rw [List.range'_succ, List.forM_cons] at h
    obtain ⟨_, s₁, hstore, hrest⟩ := bind_ok_iff.mp h
    obtain ⟨hlt, hp₁⟩ := storeSector_puts hs hstore
    obtain ⟨hle, hp₂⟩ := ih hp₁.inv hrest
    rw [hp₁.sectorCount] at hle
    rw [List.range'_succ, List.map_cons]
    exact ⟨.inr (by omega), hp₁.trans hp₂⟩

theorem formatDevice_puts (hs : s.cache.Inv) (h : formatDevice s = .ok u s') :
    s.sb.inodeStart.toNat + inodeSectors ≤ s.cache.device.sectorCount ∧ ∃ ws, Puts s ws s' := by
  unfold formatDevice at h
  obtain ⟨_, s₁, hsb, h⟩ := bind_ok_iff.mp h
  unfold flushSb at hsb
  rw [get_bind_run] at hsb
  obtain ⟨-, hp₁⟩ := storeSector_puts hs hsb
  obtain ⟨_, s₂, hheader, h⟩ := bind_ok_iff.mp h
  obtain ⟨-, hp₂⟩ := storeSector_puts hp₁.inv hheader
  rw [get_bind_run] at h
  obtain ⟨_, s₃, hbitmap, h⟩ := bind_ok_iff.mp h
  obtain ⟨-, hp₃⟩ := zeroSectors_puts hp₂.inv hbitmap
  obtain ⟨_, s₄, hinodes, h⟩ := bind_ok_iff.mp h
  obtain ⟨hle, hp₄⟩ := zeroSectors_puts hp₃.inv hinodes
  obtain ⟨_, s₅, hroot, hflush⟩ := bind_ok_iff.mp h
  obtain ⟨data, hp₅⟩ := writeInode_puts hp₄.inv hroot
  have hp₆ := flush_puts hp₅.inv hflush
  have hsectors := hp₃.sectorCount.trans (hp₂.sectorCount.trans hp₁.sectorCount)
  rw [hsectors, (hp₁.trans hp₂).sb_eq] at hle
  refine ⟨hle.resolve_left (by decide), ?_⟩
  exact ⟨_, hp₁.trans (hp₂.trans (hp₃.trans (hp₄.trans (hp₅.trans hp₆))))⟩

/-- Formatting only writes sectors, and those of the inode table are among them. -/
theorem formatAndNew_puts {device : BlockDevice} (h : formatAndNew device = .ok s) :
    (freshSuperblock device.sectorCount).inodeStart.toNat + inodeSectors ≤ device.sectorCount ∧
      ∃ ws, Puts (mounted device (freshSuperblock device.sectorCount)) ws s := by
  unfold formatAndNew at h
  split at h
  · next hrun =>
    cases h
    exact formatDevice_puts (BlockCache.inv_new device) hrun
  · cases h

end RacOS.Racfs
