import RacOS.Block.CacheFlush

/-!
# Bypassing the cache

The operations that go straight to the device, and the two that drop cached
copies: `flushAndInvalidate` after a flush, `discardRecorded` to abandon what
an open recording has written.
-/

namespace RacOS.Block.BlockCache

open Program

/-! ## Dropping entries -/

/-- The cache whose entries are those that satisfy `p`. -/
def restrict (c : BlockCache) (p : CacheEntry → Bool) : BlockCache :=
  { c with entries := c.entries.filter p }

variable {c : BlockCache}

theorem Inv.restrict (hc : c.Inv) (p : CacheEntry → Bool) : (c.restrict p).Inv := by
  refine ⟨?_, ?_, ?_, ?_⟩
  · exact hc.nodup.sublist (List.filter_sublist.map _)
  · exact Nat.le_trans (List.length_filter_le _ _) hc.size
  · intro e he
    exact hc.range e (List.mem_of_mem_filter he)
  · intro e he
    exact hc.clean e (List.mem_of_mem_filter he)

/-- After dropping entries, a sector reads as before if its entry was kept, and
as the device has it otherwise. -/
theorem Inv.view_restrict (hc : c.Inv) (p : CacheEntry → Bool) (lba : ℕ) :
    (c.restrict p).view lba =
      match c.lookup lba with
      | some e => if p e then e.data else c.device.storage lba
      | none => c.device.storage lba := by
  have hinv := hc.restrict p
  cases hl : c.lookup lba with
  | none =>
    apply view_of_lookup_none
    apply lookup_eq_none_iff.mpr
    intro e he
    exact lookup_eq_none_iff.mp hl e (List.mem_of_mem_filter he)
  | some e =>
    obtain ⟨he, rfl⟩ := mem_of_lookup hl
    by_cases hp : p e = true
    · have hmem : e ∈ (c.restrict p).entries := List.mem_filter.mpr ⟨he, hp⟩
      simp only [hp, if_true]
      exact hinv.view_of_mem hmem
    · simp only [hp, if_false, Bool.false_eq_true]
      apply view_of_lookup_none
      apply lookup_eq_none_iff.mpr
      intro f hf hlba
      obtain ⟨hf, hpf⟩ := List.mem_filter.mp hf
      have := eq_of_lba_eq hc.nodup hf he hlba
      subst this
      exact hp hpf

/-! ## Straight to the device -/

variable {c' : BlockCache} {lba : ℕ}

theorem readThrough_ok {out : Sector} (h : readThrough lba c = .ok out c') :
    lba < c.device.sectorCount ∧ out = c.device.storage lba ∧
      c' = { c with device := c.device.tick } := by
  unfold readThrough onDevice at h
  obtain ⟨d, hd, rfl⟩ := focus_ok_iff.mp h
  obtain ⟨hlba, rfl, rfl⟩ := BlockDevice.readSector_ok hd
  exact ⟨hlba, rfl, rfl⟩

theorem readThrough_error {err : BlockError} (h : readThrough lba c = .error err c') :
    (c' = c ∨ c' = { c with device := c.device.tick }) ∧
      (c.device.FaultFree → c.device.sectorCount ≤ lba) := by
  unfold readThrough onDevice at h
  obtain ⟨e, d, hd, rfl, rfl⟩ := focus_error_iff.mp h
  obtain ⟨hdev, hff⟩ := BlockDevice.readSector_error hd
  refine ⟨?_, hff⟩
  rcases hdev with rfl | rfl
  · exact Or.inl rfl
  · exact Or.inr rfl

/-- A successful write-through leaves no cached copy and the device with the
new contents. -/
theorem writeThrough_ok {data : Sector} {u : Unit} (h : writeThrough lba data c = .ok u c') :
    lba < c.device.sectorCount ∧
      c' = { c.forget lba with device := (c.device.store lba data).tick } := by
  obtain ⟨d, hd, rfl⟩ := focus_ok_iff.mp (show onDevice _ (c.forget lba) = _ from h)
  obtain ⟨hlba, rfl⟩ := BlockDevice.writeSector_ok hd
  exact ⟨hlba, rfl⟩

theorem writeThrough_error {data : Sector} {err : BlockError}
    (h : writeThrough lba data c = .error err c') :
    (c' = c.forget lba ∨ c' = { c.forget lba with device := c.device.tick }) ∧
      (c.device.FaultFree → c.device.sectorCount ≤ lba) := by
  obtain ⟨e, d, hd, rfl, rfl⟩ :=
    focus_error_iff.mp (show onDevice _ (c.forget lba) = _ from h)
  obtain ⟨hdev, hff⟩ := BlockDevice.writeSector_error hd
  refine ⟨?_, hff⟩
  rcases hdev with rfl | rfl
  · exact Or.inl rfl
  · exact Or.inr rfl

theorem Inv.writeThrough (hc : c.Inv) (lba : ℕ) (data : Sector) {d : BlockDevice}
    (hd : d = (c.device.store lba data).tick) :
    ({ c.forget lba with device := d } : BlockCache).Inv ∧
      ({ c.forget lba with device := d } : BlockCache).view = WriteLog.put c.view lba data := by
  subst hd
  have hf := hc.restrict fun e => e.lba != lba
  have hne : ∀ e ∈ (c.forget lba).entries, e.lba ≠ lba := by
    intro e he
    simpa using (List.mem_filter.mp he).2
  have hinv : ({ c.forget lba with
      device := (c.device.store lba data).tick } : BlockCache).Inv := by
    refine ⟨hf.nodup, hf.size, hf.range, ?_⟩
    intro e he hcl
    have hclean : e.data = c.device.storage e.lba := hf.clean e he hcl
    simp [hclean, WriteLog.put_of_ne _ _ (hne e he)]
  refine ⟨hinv, ?_⟩
  apply hinv.view_eq
  · intro e he
    rw [WriteLog.put_of_ne _ _ (hne e he), hc.view_of_mem (List.mem_of_mem_filter he)]
  · intro l hnone
    by_cases hl : l = lba
    · subst hl
      simp
    · rw [WriteLog.put_of_ne _ _ hl, view_of_lookup_none]
      · simp [WriteLog.put_of_ne _ _ hl]
      · apply lookup_eq_none_iff.mpr
        intro e he hel
        exact hnone e (List.mem_filter.mpr ⟨he, by simp [hel, hl]⟩) hel

theorem forget_of_out_of_range (hc : c.Inv) (h : c.device.sectorCount ≤ lba) :
    c.forget lba = c := by
  have : c.entries.filter (fun e => e.lba != lba) = c.entries := by
    rw [List.filter_eq_self]
    intro e he
    have := hc.range e he
    simp
    omega
  simp [forget, this]

theorem peekSector_run (lba : ℕ) (c : BlockCache) :
    peekSector lba c = (match c.lookup lba with
      | some e => pure e.data
      | none => onDevice (BlockDevice.readSector lba) : CacheM Sector) c := rfl

theorem peekSector_ok {out : Sector} (h : peekSector lba c = .ok out c') :
    out = c.view lba ∧ (c' = c ∨ c' = { c with device := c.device.tick }) := by
  rw [peekSector_run] at h
  cases hl : c.lookup lba with
  | some e =>
    rw [hl] at h
    obtain ⟨rfl, rfl⟩ := pure_ok_iff.mp h
    exact ⟨by simp [view, hl], Or.inl rfl⟩
  | none =>
    rw [hl] at h
    obtain ⟨-, rfl, rfl⟩ := readThrough_ok h
    exact ⟨(view_of_lookup_none hl).symm, Or.inr rfl⟩

theorem peekSector_error {err : BlockError} (h : peekSector lba c = .error err c') :
    (c' = c ∨ c' = { c with device := c.device.tick }) ∧
      (c.device.FaultFree → c.device.sectorCount ≤ lba) := by
  rw [peekSector_run] at h
  cases hl : c.lookup lba with
  | some e =>
    rw [hl] at h
    cases h
  | none =>
    rw [hl] at h
    exact readThrough_error h

theorem peekSector_keeps (hc : c.Inv) (lba : ℕ) : Keeps c (final (peekSector lba) c) := by
  cases h : peekSector lba c with
  | ok out c' =>
    rw [final_of_ok h]
    rcases (peekSector_ok h).2 with rfl | rfl
    · exact .refl hc
    · exact .of_entries_eq hc rfl rfl (Or.inr rfl)
  | error e c' =>
    rw [final_of_error h]
    rcases (peekSector_error h).1 with rfl | rfl
    · exact .refl hc
    · exact .of_entries_eq hc rfl rfl (Or.inr rfl)

theorem readThrough_keeps (hc : c.Inv) (lba : ℕ) : Keeps c (final (readThrough lba) c) := by
  cases h : readThrough lba c with
  | ok out c' =>
    obtain ⟨-, -, rfl⟩ := readThrough_ok h
    rw [final_of_ok h]
    exact .of_entries_eq hc rfl rfl (Or.inr rfl)
  | error e c' =>
    rw [final_of_error h]
    rcases (readThrough_error h).1 with rfl | rfl
    · exact .refl hc
    · exact .of_entries_eq hc rfl rfl (Or.inr rfl)

/-- A write-through keeps the invariant even when the device refuses it and
the dropped copy was dirty. -/
theorem Inv.final_writeThrough (hc : c.Inv) (lba : ℕ) (data : Sector) :
    (final (BlockCache.writeThrough lba data) c).Inv := by
  cases h : BlockCache.writeThrough lba data c with
  | ok u c' =>
    obtain ⟨-, rfl⟩ := writeThrough_ok h
    rw [final_of_ok h]
    exact (hc.writeThrough lba data rfl).1
  | error e c' =>
    have hf : (c.forget lba).Inv := hc.restrict _
    rw [final_of_error h]
    rcases (writeThrough_error h).1 with rfl | rfl
    · exact hf
    · have hk : Keeps (c.forget lba)
          { c.forget lba with device := c.device.tick } :=
        .of_entries_eq hf rfl rfl (Or.inr rfl)
      exact hk.inv

/-! ## Abandoning a recording -/

theorem discardRecorded_eq {list : List ℕ} (h : c.recording = some list) :
    c.discardRecorded =
      { c.restrict fun e => !(e.dirty && c.isRecorded e.lba) with
        recording := none } := by
  unfold discardRecorded isRecorded restrict
  rw [h]

theorem Inv.discardRecorded (hc : c.Inv) : c.discardRecorded.Inv := by
  cases h : c.recording with
  | none =>
    unfold BlockCache.discardRecorded
    rw [h]
    exact hc
  | some list =>
    rw [discardRecorded_eq h]
    have := hc.restrict fun e => !(e.dirty && c.isRecorded e.lba)
    exact ⟨this.nodup, this.size, this.range, this.clean⟩

/-- Abandoning a recording reverts the dirty recorded sectors to what the device
holds and leaves the others alone. -/
theorem Inv.view_discardRecorded (hc : c.Inv) (lba : ℕ) :
    (c.isRecorded lba = true → c.discardRecorded.view lba = c.device.storage lba) ∧
    (c.isRecorded lba = false → c.discardRecorded.view lba = c.view lba) := by
  cases h : c.recording with
  | none =>
    have hd : c.discardRecorded = c := by
      unfold BlockCache.discardRecorded
      rw [h]
    simp [hd, isRecorded, h]
  | some list =>
    have hv : c.discardRecorded.view lba =
        (c.restrict fun e => !(e.dirty && c.isRecorded e.lba)).view lba := by
      rw [discardRecorded_eq h]
      rfl
    rw [hv, hc.view_restrict]
    cases hl : c.lookup lba with
    | none => simp [view, hl]
    | some e =>
      obtain ⟨he, rfl⟩ := mem_of_lookup hl
      refine ⟨fun hr => ?_, fun hr => ?_⟩
      · cases hd : e.dirty with
        | true => simp [hr, hd]
        | false => simpa [hr, hd] using hc.clean e he hd
      · simp [hr, view, hl]

end RacOS.Block.BlockCache
