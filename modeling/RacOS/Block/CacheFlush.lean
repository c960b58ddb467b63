import RacOS.Block.CacheView

/-!
# Flushing the cache

`flush` writes the dirty entries that are not pinned, in the order of the
entries, and keeps the logical contents even when the device fails halfway.
-/

namespace RacOS.Block.BlockCache

open Program

/-- How `flush` treats one entry, `ws` being the writes it makes. -/
def FlushedTo (pinned : ℕ → Bool) (ws : List (ℕ × Sector)) (e e' : CacheEntry) : Prop :=
  e' = e ∨ (e.dirty = true ∧ pinned e.lba = false ∧
    e' = { e with dirty := false } ∧ (e.lba, e.data) ∈ ws)

variable {pinned : ℕ → Bool} {e e' : CacheEntry}

theorem FlushedTo.mono {ws vs : List (ℕ × Sector)} (h : FlushedTo pinned ws e e')
    (hsub : ∀ w ∈ ws, w ∈ vs) : FlushedTo pinned vs e e' := by
  rcases h with h | ⟨hd, hp, he, hw⟩
  · exact Or.inl h
  · exact Or.inr ⟨hd, hp, he, hsub _ hw⟩

variable {es es' : List CacheEntry}

/-- The loop of `flush` writes dirty unpinned entries and marks them clean. -/
theorem flushLoop_spec {d d' : BlockDevice} {r : Except BlockError Unit}
    (h : flushLoop pinned es d = (r, es', d')) :
    ∃ ws, d'.writes = d.writes ++ ws ∧ d'.storage = WriteLog.apply d.storage ws ∧
      d'.sectorCount = d.sectorCount ∧ d'.faults = d.faults ∧
      (∀ w ∈ ws, ∃ e ∈ es, e.dirty = true ∧ pinned e.lba = false ∧ w = (e.lba, e.data)) ∧
      List.Forall₂ (FlushedTo pinned ws) es es' ∧
      (r = .ok () → ∀ e' ∈ es', e'.dirty = true → pinned e'.lba = true) ∧
      (d.FaultFree → (∀ e ∈ es, e.lba < d.sectorCount) → r = .ok ()) := by
  induction es generalizing d es' d' r with
  | nil =>
    cases h
    exact ⟨[], by simp⟩
  | cons e es ih =>
    unfold flushLoop at h
    split at h
    next hflush =>
      obtain ⟨hd, hp⟩ : e.dirty = true ∧ pinned e.lba = false := by
        simpa using hflush
      cases hw : BlockDevice.writeSector e.lba e.data d with
      | error err d₁ =>
        simp only [hw, Prod.mk.injEq] at h
        obtain ⟨rfl, rfl, rfl⟩ := h
        obtain ⟨hdev, hff⟩ := BlockDevice.writeSector_error hw
        refine ⟨[], ?_, ?_, ?_, ?_, by simp, ?_, by simp, ?_⟩
        · rcases hdev with h | h <;> simp [h]
        · rcases hdev with h | h <;> simp [h]
        · rcases hdev with h | h <;> simp [h]
        · rcases hdev with h | h <;> simp [h]
        · exact List.forall₂_same.mpr fun _ _ => Or.inl rfl
        · intro hfault hrange
          have := hrange e List.mem_cons_self
          exact absurd (hff hfault) (by omega)
      | ok u d₁ =>
        obtain ⟨-, rfl⟩ := BlockDevice.writeSector_ok hw
        simp only [hw] at h
        generalize hrest : flushLoop pinned es (d.store e.lba e.data).tick = q at h
        obtain ⟨r₁, es₁, d₁⟩ := q
        simp only [Prod.mk.injEq] at h
        obtain ⟨rfl, rfl, rfl⟩ := h
        obtain ⟨ws, h1, h2, h3, h4, h5, h6, h7, h8⟩ := ih hrest
        refine ⟨(e.lba, e.data) :: ws, by simp [h1], by simp [h2],
          by simpa using h3, by simpa using h4, ?_, ?_, ?_, ?_⟩
        · intro w hw
          rcases List.mem_cons.mp hw with rfl | hw
          · exact ⟨e, List.mem_cons_self, hd, hp, rfl⟩
          · obtain ⟨f, hf, hrest⟩ := h5 w hw
            exact ⟨f, List.mem_cons_of_mem _ hf, hrest⟩
        · refine List.Forall₂.cons ?_ (h6.imp fun f f' hf =>
            hf.mono fun w hw => List.mem_cons_of_mem _ hw)
          exact Or.inr ⟨hd, hp, rfl, List.mem_cons_self⟩
        · intro hr e' he' hd'
          rcases List.mem_cons.mp he' with rfl | he'
          · simp at hd'
          · exact h7 hr e' he' hd'
        · intro hff hrange
          exact h8 (fun n => hff n)
            fun f hf => hrange f (List.mem_cons_of_mem _ hf)
    next hkeep =>
      generalize hrest : flushLoop pinned es d = q at h
      obtain ⟨r₁, es₁, d₁⟩ := q
      simp only [Prod.mk.injEq] at h
      obtain ⟨rfl, rfl, rfl⟩ := h
      obtain ⟨ws, h1, h2, h3, h4, h5, h6, h7, h8⟩ := ih hrest
      refine ⟨ws, h1, h2, h3, h4, ?_, List.Forall₂.cons (Or.inl rfl) h6, ?_, ?_⟩
      · intro w hw
        obtain ⟨f, hf, hrest⟩ := h5 w hw
        exact ⟨f, List.mem_cons_of_mem _ hf, hrest⟩
      · intro hr e' he' hd'
        rcases List.mem_cons.mp he' with rfl | he'
        · simpa [hd'] using hkeep
        · exact h7 hr e' he' hd'
      · intro hff hrange
        exact h8 hff fun f hf => hrange f (List.mem_cons_of_mem _ hf)

variable {ws : List (ℕ × Sector)}

theorem FlushedTo.lba_eq (h : FlushedTo pinned ws e e') : e'.lba = e.lba := by
  rcases h with rfl | ⟨-, -, rfl, -⟩ <;> rfl

theorem FlushedTo.data_eq (h : FlushedTo pinned ws e e') : e'.data = e.data := by
  rcases h with rfl | ⟨-, -, rfl, -⟩ <;> rfl

variable {α β : Type} {R : α → β → Prop} {as : List α} {bs : List β}

theorem exists_of_forall₂_right (h : List.Forall₂ R as bs) {b : β} (hb : b ∈ bs) :
    ∃ a ∈ as, R a b := by
  induction h with
  | nil => simp at hb
  | cons hab _ ih =>
    rcases List.mem_cons.mp hb with rfl | hb
    · exact ⟨_, List.mem_cons_self, hab⟩
    · obtain ⟨a, ha, hr⟩ := ih hb
      exact ⟨a, List.mem_cons_of_mem _ ha, hr⟩

theorem exists_of_forall₂_left (h : List.Forall₂ R as bs) {a : α} (ha : a ∈ as) : ∃ b ∈ bs, R a b :=
  exists_of_forall₂_right (R := flip R) h.flip ha

theorem map_lba_of_flushedTo (h : List.Forall₂ (FlushedTo pinned ws) es es') :
    es'.map (·.lba) = es.map (·.lba) := by
  induction h with
  | nil => rfl
  | cons hab _ ih => simp [hab.lba_eq, ih]

section Flushed

variable {c : BlockCache} {r : Except BlockError Unit} {d' : BlockDevice}

theorem Inv.flushed (hc : c.Inv) (hq : flushLoop c.isRecorded c.entries c.device = (r, es', d')) :
    { c with entries := es', device := d' }.Inv := by
  obtain ⟨ws, -, hst, hsc, -, hws, hfl, -⟩ := flushLoop_spec hq
  refine ⟨?_, ?_, fun e' he' => ?_, fun e' he' hcl => ?_⟩
  · change (es'.map _).Nodup
    rw [map_lba_of_flushedTo hfl]
    exact hc.nodup
  · change es'.length ≤ _
    rw [← hfl.length_eq]
    exact hc.size
  · obtain ⟨e, he, hr⟩ := exists_of_forall₂_right hfl he'
    change e'.lba < d'.sectorCount
    rw [hr.lba_eq, hsc]
    exact hc.range e he
  · change e'.data = d'.storage e'.lba
    obtain ⟨e, he, hr⟩ := exists_of_forall₂_right hfl he'
    rw [hst]
    rcases hr with rfl | ⟨-, -, rfl, hw⟩
    · rw [WriteLog.apply_of_notMem]
      · exact hc.clean e' he hcl
      · intro w hw heq
        obtain ⟨f, hf, hfd, -, rfl⟩ := hws w hw
        obtain rfl := eq_of_lba_eq hc.nodup hf he heq
        simp [hcl] at hfd
    · -- every write agrees with the logical contents
      have hval : ∀ w ∈ ws, w.2 = c.view w.1 := by
        intro w hw
        obtain ⟨e, he, -, -, rfl⟩ := hws w hw
        exact (hc.view_of_mem he).symm
      rw [WriteLog.apply_of_mem hval ⟨_, hw, rfl⟩]
      exact (hc.view_of_mem he).symm

theorem Inv.view_flushed (hc : c.Inv)
    (hq : flushLoop c.isRecorded c.entries c.device = (r, es', d')) :
    { c with entries := es', device := d' }.view = c.view := by
  obtain ⟨ws, -, hst, -, -, hws, hfl, -⟩ := flushLoop_spec hq
  apply (hc.flushed hq).view_eq
  · intro e' he'
    obtain ⟨e, he, hr⟩ := exists_of_forall₂_right hfl he'
    rw [hr.lba_eq, hr.data_eq, hc.view_of_mem he]
  · intro lba hnone
    have hl : c.lookup lba = none := by
      apply lookup_eq_none_iff.mpr
      intro e he hel
      obtain ⟨e', he', hr⟩ := exists_of_forall₂_left hfl he
      exact hnone e' he' (hr.lba_eq.trans hel)
    rw [view_of_lookup_none hl]
    change d'.storage lba = _
    rw [hst]
    apply WriteLog.apply_of_notMem
    rintro w hw rfl
    obtain ⟨e, he, -, -, rfl⟩ := hws w hw
    exact lookup_eq_none_iff.mp hl e he rfl

theorem Inv.keeps_flushed (hc : c.Inv)
    (hq : flushLoop c.isRecorded c.entries c.device = (r, es', d')) :
    Keeps c { c with entries := es', device := d' } := by
  obtain ⟨ws, hwr, hst, hsc, hfa, hws, hfl, -⟩ := flushLoop_spec hq
  refine
    { inv := hc.flushed hq
      view := hc.view_flushed hq
      recording := rfl
      sectorCount := hsc
      faults := hfa
      dirty := ?_
      pinned := ?_
      writes := ⟨ws, hwr, hst, ?_⟩ }
  · rintro lba ⟨e', he', hl, hd⟩
    obtain ⟨e, he, hr⟩ := exists_of_forall₂_right hfl he'
    refine ⟨e, he, hr.lba_eq ▸ hl, ?_⟩
    rcases hr with rfl | ⟨-, -, rfl, -⟩
    · exact hd
    · simp at hd
  · rintro lba ⟨e, he, rfl, hd⟩ hrec
    obtain ⟨e', he', hr⟩ := exists_of_forall₂_left hfl he
    refine ⟨e', he', hr.lba_eq, ?_⟩
    rcases hr with rfl | ⟨-, hp, -, -⟩
    · exact hd
    · simp [hrec] at hp
  · intro w hw
    obtain ⟨e, he, hd, hp, rfl⟩ := hws w hw
    exact ⟨⟨e, he, rfl, hd⟩, hp, (hc.view_of_mem he).symm⟩

end Flushed

/-- The state a run of `flush` ends in, and what its success means. -/
theorem flush_final {c : BlockCache} (hc : c.Inv) :
    Keeps c (final flush c) ∧ ((final flush c).entries.length = c.entries.length) ∧
      (∀ c' u, flush c = .ok u c' → ∀ lba, c'.DirtyAt lba → c.isRecorded lba = true) ∧
      (c.device.FaultFree → ∃ c', flush c = .ok () c') := by
  generalize hq : flushLoop c.isRecorded c.entries c.device = q
  obtain ⟨r, es', d'⟩ := q
  obtain ⟨ws, -, -, -, -, -, hfl, hok, hff⟩ := flushLoop_spec hq
  have hfinal : final flush c = { c with entries := es', device := d' } := by
    unfold final flush
    rw [hq]
    cases r <;> rfl
  refine ⟨?_, ?_, fun c' u h => ?_, fun hfault => ?_⟩
  · rw [hfinal]
    exact hc.keeps_flushed hq
  · rw [hfinal]
    exact hfl.length_eq.symm
  · unfold flush at h
    rw [hq] at h
    cases r with
    | error e => cases h
    | ok v =>
      cases h
      rintro lba ⟨e', he', rfl, hd⟩
      exact hok rfl e' he' hd
  · refine ⟨{ c with entries := es', device := d' }, ?_⟩
    unfold flush
    rw [hq, hff hfault hc.range]

end RacOS.Block.BlockCache
