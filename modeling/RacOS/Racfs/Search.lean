import RacOS.Block.CacheRoom
import RacOS.Lib.Outcomes
import RacOS.Racfs.Bitmap

/-!
# The search for a free block

`allocBlock` looks for a clear bit from its hint to the end of the tracked
range and then from the start to the hint.  The two passes cover the range, the
step over full bytes passes only set bits, and a pass never claims a bit outside
its range: the search finds a block exactly when there is one, for every
bitmap, every hint and every tracked range.
-/

namespace RacOS.Racfs

open Program Block Vfs

/-- The bits of the allocation bitmap, as the filesystem reads them. -/
def bits (s : Racfs) : ℕ → Bool := bitOn s.sb s.cache.view

/-- How many tracked bits are clear. -/
def clearBits (s : Racfs) : ℕ :=
  (List.range s.sb.managed).countP fun i => !bits s i

variable {s : Racfs}

theorem clearBits_eq_zero_iff : clearBits s = 0 ↔ ∀ i < s.sb.managed, bits s i = true := by
  simp [clearBits, List.countP_eq_zero]

/-- The tracked part of the bitmap can be read: the device works and has its
sectors, and the cache is not full of pinned sectors. -/
structure Serving (s : Racfs) : Prop where
  faultFree : s.cache.device.FaultFree
  bitmap : ∀ i < s.sb.managed,
    s.sb.bitmapStart.toNat + i / blocksPerBitmapSector < s.cache.device.sectorCount
  room : s.cache.Room

/-- Between transactions, a filesystem of the layout that formatting chooses is
served by a device without faults. -/
theorem serving_of_formatted (hsb : s.sb.Formatted) (hff : s.cache.device.FaultFree)
    (hsize : s.sb.totalSectors.toNat ≤ s.cache.device.sectorCount)
    (hrecording : s.cache.recording = none) : Serving s := by
  refine ⟨hff, fun i hi => ?_, BlockCache.room_of_not_recording hrecording⟩
  have haddr : i < s.sb.addressableBlocks := lt_of_lt_of_le hi (Nat.min_le_right _ _)
  have hcount : i < s.sb.dataBlockCount.toNat := lt_of_lt_of_le hi (Nat.min_le_left _ _)
  have hsector := bitmapSector_lt hsb haddr
  have hdata := hsb.dataStart
  have hblocks := hsb.dataBlockCount
  omega

theorem formatAndNew_serving {device : BlockDevice} (hff : device.FaultFree)
    (h : formatAndNew device = .ok s) : s.cache.Inv ∧ Serving s := by
  obtain ⟨-, ws, hp⟩ := formatAndNew_puts h
  have hsb : s.sb = freshSuperblock device.sectorCount := hp.sb_eq
  have hcount : s.cache.device.sectorCount = device.sectorCount := hp.sectorCount
  have hrecording : s.cache.recording = none := by
    have hnone := hp.recording
    rwa [show (mounted device _).cache.recording = none from rfl, Option.isSome_none,
      Option.isSome_eq_false_iff, Option.isNone_iff_eq_none] at hnone
  refine ⟨hp.inv, serving_of_formatted ?_ ?_ ?_ hrecording⟩
  · rw [hsb]
    exact freshSuperblock_formatted _
  · intro n
    rw [hp.faults]
    exact hff n
  · rw [hsb, hcount]
    exact freshSuperblock_totalSectors_le _

/-- The only error of an access to the bitmap, and when it occurs. -/
def Unserved (s : Racfs) (e : VfsError) : Prop :=
  e = .ioError ∧ ¬Serving s

theorem Unserved.of_imp {s s' : Racfs} {e : VfsError} (h : Unserved s' e)
    (himp : Serving s → Serving s') : Unserved s e :=
  ⟨h.1, fun hs => h.2 (himp hs)⟩

/-! ## Access to the bitmap -/

theorem bits_of_puts_nil {s s' : Racfs} (h : Puts s [] s') : bits s' = bits s := by
  unfold bits
  rw [h.sb_eq, h.view]
  rfl

variable {i : ℕ}

/-- A bit is read from the sector it lies in. -/
theorem bits_eq (hi : i < s.sb.managed) :
    bits s i = bitmapBit
      (s.cache.view (s.sb.bitmapStart.toNat + i / blocksPerBitmapSector))
      (i % blocksPerBitmapSector) := by
  have haddr : i < s.sb.addressableBlocks := lt_of_lt_of_le hi (Nat.min_le_right _ _)
  simp [bits, bitOn, haddr]

theorem fetchBitmap_ends (hinv : s.cache.Inv) (hi : i < s.sb.managed) :
    let sector := s.sb.bitmapStart.toNat + i / blocksPerBitmapSector
    Ends (onCache (BlockCache.fetchSector sector)) s
      (fun bitmap s' => bitmap = s.cache.view sector ∧ Puts s [] s' ∧
        s'.cache.lookup sector ≠ none ∧ (Serving s → Serving s'))
      (Unserved s) := by
  intro sector
  cases h : onCache (BlockCache.fetchSector sector) s with
  | ok bitmap s' =>
    obtain ⟨hbitmap, hp⟩ := fetchSector_puts hinv h
    obtain ⟨c, hfetch, rfl⟩ := onCache_ok_iff.mp h
    obtain ⟨hcached, hroom⟩ := BlockCache.fetchSector_room hfetch
    refine .of_ok h ⟨hbitmap, hp, hcached, fun hs => ⟨?_, ?_, hroom hs.room⟩⟩
    · exact fun n => by rw [hp.faults]; exact hs.faultFree n
    · exact fun j hj => by rw [hp.sectorCount]; exact hs.bitmap j hj
  | error e s' =>
    obtain ⟨err, c, hfetch, rfl, rfl⟩ := onCache_error_iff.mp h
    refine .of_error h ⟨rfl, fun hs => ?_⟩
    obtain ⟨c', hok⟩ :=
      BlockCache.fetchSector_of_room hinv hs.faultFree hs.room (hs.bitmap i hi)
    rw [hok] at hfetch
    cases hfetch

theorem storeBitmap_ends (hinv : s.cache.Inv) (hi : i < s.sb.managed) (data : Sector) :
    let sector := s.sb.bitmapStart.toNat + i / blocksPerBitmapSector
    s.cache.lookup sector ≠ none →
    Ends (onCache (BlockCache.storeSector sector data)) s
      (fun _ s' => Puts s [(sector, data)] s') (Unserved s) := by
  intro sector hcached
  cases h : onCache (BlockCache.storeSector sector data) s with
  | ok u s' => exact .of_ok h (storeSector_puts hinv h).2
  | error e s' =>
    obtain ⟨err, c, hstore, rfl, rfl⟩ := onCache_error_iff.mp h
    refine .of_error h ⟨rfl, fun hs => ?_⟩
    obtain ⟨c', hok⟩ :=
      BlockCache.storeSector_of_cached hinv hs.faultFree (hs.bitmap i hi) hcached data
    rw [hok] at hstore
    cases hstore

/-! ## One sector of the bitmap -/

/-- Every bit of a full byte is set. -/
theorem bitmapBit_of_full {bitmap : Sector} (h : bitmap.get (i / 8) = 0xFF) :
    bitmapBit bitmap i = true := by
  unfold bitmapBit
  rw [h]
  have hlt : i % 8 < 8 := Nat.mod_lt _ (by decide)
  revert hlt
  generalize i % 8 = k
  revert k
  decide

/-- A scan that finds nothing has passed set bits only.  It stops inside the
sector it scans or at its end, since a byte does not cross sectors. -/
theorem scanBitmapSector_inr {bitmap : Sector} {n sectorEnd fuel idx next : ℕ}
    (hlow : n * blocksPerBitmapSector ≤ idx) (hhigh : idx ≤ (n + 1) * blocksPerBitmapSector)
    (hend : sectorEnd ≤ (n + 1) * blocksPerBitmapSector) (hfuel : sectorEnd ≤ idx + fuel)
    (h : scanBitmapSector bitmap sectorEnd fuel idx = .inr next) :
    idx ≤ next ∧ sectorEnd ≤ next ∧ next ≤ (n + 1) * blocksPerBitmapSector ∧
      ∀ i, idx ≤ i → i < next → bitmapBit bitmap (i % blocksPerBitmapSector) = true := by
  induction fuel generalizing idx with
  | zero =>
    cases h
    exact ⟨le_rfl, hfuel, hhigh, fun i hle hlt => by omega⟩
  | succ fuel ih =>
    unfold scanBitmapSector at h
    split at h
    · next hlt =>
      dsimp only at h
      split at h
      · next hfull =>
        -- The bits from here to the end of the byte are all set.
        obtain ⟨hle, hstop, hnext, hset⟩ :=
          ih (by omega) (by unfold blocksPerBitmapSector at *; omega) (by omega) h
        refine ⟨by omega, hstop, hnext, fun i hi hlt' => ?_⟩
        by_cases hskip : idx + (8 - idx % blocksPerBitmapSector % 8) ≤ i
        · exact hset i hskip hlt'
        · apply bitmapBit_of_full
          have hbyte : i % blocksPerBitmapSector / 8 = idx % blocksPerBitmapSector / 8 := by
            unfold blocksPerBitmapSector at *
            omega
          rw [hbyte]
          exact hfull
      · split at h
        · next hbit =>
          obtain ⟨hle, hstop, hnext, hset⟩ := ih (by omega) (by omega) (by omega) h
          refine ⟨by omega, hstop, hnext, fun i hi hlt' => ?_⟩
          by_cases hhere : i = idx
          · rw [hhere]
            exact hbit
          · exact hset i (by omega) hlt'
        · cases h
    · cases h
      exact ⟨le_rfl, by omega, hhigh, fun i hle hlt => by omega⟩

/-! ## A pass over a range -/

/-- What a pass over `[idx, stop)` finds and writes. -/
def Claimed (s : Racfs) (idx stop : ℕ) : Option ℕ → Racfs → Prop
  | none, s' => Puts s [] s' ∧ (Serving s → Serving s') ∧ ∀ i, idx ≤ i → i < stop → bits s i = true
  | some i, s' => idx ≤ i ∧ i < stop ∧ bits s i = false ∧
      Puts s [(s.sb.bitmapStart.toNat + i / blocksPerBitmapSector,
        setBitmapBit
          (s.cache.view (s.sb.bitmapStart.toNat + i / blocksPerBitmapSector))
          (i % blocksPerBitmapSector))] s'

/-- A pass that found only set bits up to `next` goes on from there. -/
theorem Claimed.from_next {s s₁ s' : Racfs} {idx next stop : ℕ} {found : Option ℕ}
    (hp : Puts s [] s₁) (hserving : Serving s → Serving s₁) (hle : idx ≤ next)
    (hset : ∀ i, idx ≤ i → i < next → i < stop → bits s i = true)
    (h : Claimed s₁ next stop found s') : Claimed s idx stop found s' := by
  have hbits := bits_of_puts_nil hp
  have hview : s₁.cache.view = s.cache.view := hp.view
  cases found with
  | none =>
    obtain ⟨hp', hserving', hrest⟩ := h
    refine ⟨hp.trans hp', fun hs => hserving' (hserving hs), fun i hi hlt => ?_⟩
    by_cases hnext : next ≤ i
    · rw [← hbits]
      exact hrest i hnext hlt
    · exact hset i hi (by omega) hlt
  | some i =>
    obtain ⟨hi, hlt, hclear, hp'⟩ := h
    rw [hp.sb_eq, hview] at hp'
    refine ⟨by omega, hlt, by rw [← hbits]; exact hclear, hp.trans hp'⟩

theorem claimLoop_ends {stop fuel idx : ℕ} (hinv : s.cache.Inv) (hstop : stop ≤ s.sb.managed)
    (hfuel : stop ≤ idx + fuel) :
    Ends (claimLoop stop fuel idx) s (Claimed s idx stop) (Unserved s) := by
  have hdone : ∀ {s : Racfs} {idx : ℕ}, s.cache.Inv → stop ≤ idx →
      Claimed s idx stop none s := fun hinv hle =>
    ⟨.refl hinv, fun hs => hs, fun i hi hlt => by omega⟩
  induction fuel generalizing s idx with
  | zero => exact .pure (hdone hinv hfuel)
  | succ fuel ih =>
    unfold claimLoop
    by_cases hidx : idx < stop
    · rw [if_pos hidx]
      refine .get_bind (.bind (fetchBitmap_ends hinv (by omega)) ?_)
      rintro bitmap s₁ ⟨rfl, hp, hcached, hserving⟩
      have hlow : idx / blocksPerBitmapSector * blocksPerBitmapSector ≤ idx :=
        Nat.div_mul_le_self _ _
      have hhigh : idx < (idx / blocksPerBitmapSector + 1) * blocksPerBitmapSector := by
        unfold blocksPerBitmapSector
        omega
      generalize hn : idx / blocksPerBitmapSector = n at *
      have hend : min ((n + 1) * blocksPerBitmapSector) stop ≤
          (n + 1) * blocksPerBitmapSector := Nat.min_le_left _ _
      have hsame : ∀ i, n * blocksPerBitmapSector ≤ i →
          i < (n + 1) * blocksPerBitmapSector → i / blocksPerBitmapSector = n :=
        fun i hi hlt => Nat.div_eq_of_lt_le hi hlt
      dsimp only
      generalize hscan : scanBitmapSector _ _ _ idx = scanned
      cases scanned with
      | inl i =>
        obtain ⟨hle, hlt, hclear⟩ := scanBitmapSector_inl hscan
        have hi := hsame i (by omega) (by omega)
        have hmanaged : i < s₁.sb.managed := by rw [hp.sb_eq]; omega
        have hstore := storeBitmap_ends hp.inv hmanaged
          (setBitmapBit (s.cache.view (s.sb.bitmapStart.toNat + n))
            (i % blocksPerBitmapSector))
        rw [hi, hp.sb_eq] at hstore
        refine .bind ((hstore hcached).mono (fun _ _ h => h)
          fun e he => he.of_imp hserving) fun _ s₂ hp₂ => .pure ?_
        refine ⟨hle, by omega, ?_, ?_⟩
        · rw [bits_eq (by omega), hi]
          exact hclear
        · rw [hi]
          exact hp.trans hp₂
      | inr next =>
        obtain ⟨hle, hge, hnext, hset⟩ :=
          scanBitmapSector_inr hlow hhigh.le hend (by omega) hscan
        have hmore : stop ≤ next + fuel := by omega
        refine (ih hp.inv (by rw [hp.sb_eq]; exact hstop) hmore).mono
          (fun found s' h => h.from_next hp hserving hle fun i hi hlt hlt' => ?_)
          fun e he => he.of_imp hserving
        rw [bits_eq (by omega), hsame i (by omega) (by omega)]
        exact hset i hi hlt
    · rw [if_neg hidx]
      exact .pure (hdone hinv (by omega))

theorem claimFirstFree_ends {start stop : ℕ} (hinv : s.cache.Inv) (hstop : stop ≤ s.sb.managed) :
    Ends (claimFirstFree start stop) s (Claimed s start stop) (Unserved s) :=
  claimLoop_ends hinv hstop (by omega)

/-! ## The allocation -/

/-- Exactly one tracked bit of the disk goes from clear to set, and the block it
stands for is taken. -/
structure TakesClear (s : Racfs) (block : UInt32) (s' : Racfs) : Prop where
  tracked : block.toNat - 1 < s.sb.managed
  positive : 0 < block.toNat
  clear : bits s (block.toNat - 1) = false
  bits_eq : bits s' = Function.update (bits s) (block.toNat - 1) true
  others : ∀ lba, lba ≠ s.sb.bitmapStart.toNat +
    (block.toNat - 1) / blocksPerBitmapSector → s'.cache.view lba = s.cache.view lba
  freeBlocks : s'.sb = { s.sb with freeBlocks := s.sb.freeBlocks - 1 }

theorem takeBlock_ends {s s₁ : Racfs} {start stop i : ℕ} {E : VfsError → Prop}
    (hstop : stop ≤ s.sb.managed) (h : Claimed s start stop (some i) s₁) :
    Ends (takeBlock i) s₁ (TakesClear s) E := by
  obtain ⟨-, hlt, hclear, hp⟩ := h
  have hi : i < s.sb.managed := by omega
  have haddr : i < s.sb.addressableBlocks := lt_of_lt_of_le hi (Nat.min_le_right _ _)
  have hblock := managed_lt s.sb hi
  have hsub : (UInt32.ofNat (i + 1)).toNat - 1 = i := by omega
  have hput := hp.view
  rw [WriteLog.apply_cons, WriteLog.apply_nil] at hput
  refine .of_ok rfl ⟨by rw [hsub]; exact hi, by omega, by rw [hsub]; exact hclear, ?_, ?_, ?_⟩
  · rw [hsub]
    change bitOn s₁.sb s₁.cache.view = _
    rw [hp.sb_eq, hput]
    exact bitOn_put_self haddr fun j => bitmapBit_set _ j (Nat.mod_lt _ (by decide))
  · intro lba hlba
    rw [hsub] at hlba
    change s₁.cache.view lba = _
    rw [hput, WriteLog.put_of_ne _ _ hlba]
  · change { s₁.sb with freeBlocks := s₁.sb.freeBlocks - 1 } = _
    rw [hp.sb_eq]

/-- The error of an allocation that fails: no tracked bit is clear, or the
bitmap could not be read. -/
def NoneClear (s : Racfs) (e : VfsError) : Prop :=
  e = .noSpace ∧ (∀ i < s.sb.managed, bits s i = true) ∨ Unserved s e

theorem allocBlock_ends (hinv : s.cache.Inv) (hfree : s.sb.freeBlocks.toNat = clearBits s) :
    Ends allocBlock s (TakesClear s) (NoneClear s) := by
  have hserved : ∀ e, Unserved s e → NoneClear s e := fun e he => Or.inr he
  unfold allocBlock
  refine .get_bind (.require_bind ?_ fun _ => .require_bind ?_ fun _ => ?_)
  · intro hzero
    rw [not_not.mp hzero] at hfree
    exact Or.inl ⟨rfl, clearBits_eq_zero_iff.mp hfree.symm⟩
  · intro hzero
    have hmanaged : s.sb.managed = 0 := not_not.mp hzero
    exact Or.inl ⟨rfl, fun i hi => by omega⟩
  rw [show min s.sb.dataBlockCount.toNat s.sb.addressableBlocks = s.sb.managed from rfl]
  have hstart : min s.allocHint (s.sb.managed - 1) ≤ s.sb.managed := by omega
  generalize min s.allocHint (s.sb.managed - 1) = start at *
  refine .bind ((claimFirstFree_ends hinv le_rfl).mono (fun _ _ h => h) hserved) ?_
  intro found s₁ hfirst
  cases found with
  | some i => exact takeBlock_ends le_rfl hfirst
  | none =>
    obtain ⟨hp, hserving, hhigh⟩ := hfirst
    have hsecond : Ends (claimFirstFree 0 start) s₁ (Claimed s₁ 0 start) (Unserved s₁) :=
      claimFirstFree_ends hp.inv (by rw [hp.sb_eq]; exact hstart)
    refine .bind (Q := Claimed s 0 start) (hsecond.mono (fun found s₂ h => ?_)
      fun e he => hserved e (he.of_imp hserving)) ?_
    · exact h.from_next hp hserving le_rfl fun i hi hlt => by omega
    · intro found s₂ h
      cases found with
      | some i => exact takeBlock_ends hstart h
      | none =>
        -- The passes over `[start, managed)` and `[0, start)` cover the range.
        refine .throw (Or.inl ⟨rfl, fun i hi => ?_⟩)
        by_cases hle : start ≤ i
        · exact hhigh i hle hi
        · exact h.2.2 i (Nat.zero_le i) (by omega)

/-- The search is complete whatever the hint: with a free count that agrees with
the bitmap, `allocBlock` succeeds exactly when some tracked bit is clear, and
then sets one such bit and returns its block. -/
theorem allocBlock_iff_clear {s : Racfs} (hinv : s.cache.Inv)
    (hfree : s.sb.freeBlocks.toNat = clearBits s) (hint : ℕ) :
    (Serving s → ((∃ block s', allocBlock { s with allocHint := hint } = .ok block s') ↔
      ∃ i < s.sb.managed, bits s i = false)) ∧
    (∀ block s', allocBlock { s with allocHint := hint } = .ok block s' → TakesClear s block s') ∧
    (∀ e s', allocBlock { s with allocHint := hint } = .error e s' →
      e = .noSpace ∧ (∀ i < s.sb.managed, bits s i = true) ∨ e = .ioError ∧ ¬Serving s) := by
  have hends : Ends allocBlock { s with allocHint := hint } (TakesClear s) (NoneClear s) := by
    refine (allocBlock_ends (s := { s with allocHint := hint }) hinv hfree).mono ?_ ?_
    · exact fun block s' h => ⟨h.tracked, h.positive, h.clear, h.bits_eq, h.others, h.freeBlocks⟩
    · rintro e (h | ⟨he, h⟩)
      · exact Or.inl h
      · exact Or.inr ⟨he, fun hs => h ⟨hs.faultFree, hs.bitmap, hs.room⟩⟩
  unfold Ends at hends
  cases hrun : allocBlock { s with allocHint := hint } with
  | ok block s' =>
    rw [hrun] at hends
    refine ⟨fun _ => ⟨fun _ => ⟨_, hends.tracked, hends.clear⟩, fun _ => ⟨block, s', rfl⟩⟩,
      ?_, fun e s'' h => by cases h⟩
    rintro _ _ ⟨⟩
    exact hends
  | error e s' =>
    rw [hrun] at hends
    refine ⟨fun hs => ⟨?_, ?_⟩, ?_, ?_⟩
    · rintro ⟨block, s'', h⟩
      cases h
    · rintro ⟨i, hi, hclear⟩
      rcases hends with ⟨-, hset⟩ | ⟨-, hns⟩
      · rw [hset i hi] at hclear
        cases hclear
      · exact absurd hs hns
    · rintro block s'' ⟨⟩
    · rintro _ _ ⟨⟩
      exact hends

theorem allocBlock_iff_clear_smallFs :
    Serving smallFs ∧ smallFs.sb.freeBlocks.toNat = clearBits smallFs ∧
      ((∃ block s', allocBlock { smallFs with allocHint := 7 } = .ok block s') ↔
        ∃ i < smallFs.sb.managed, bits smallFs i = false) := by
  obtain ⟨hinv, hserving⟩ := formatAndNew_serving (fun _ => rfl) formatAndNew_smallDevice
  have hfree : smallFs.sb.freeBlocks.toNat = clearBits smallFs := by decide +kernel
  exact ⟨hserving, hfree, (allocBlock_iff_clear hinv hfree 7).1 hserving⟩

end RacOS.Racfs
