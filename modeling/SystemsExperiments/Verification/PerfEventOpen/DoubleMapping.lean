import Mathlib.Tactic.NormNum
import SystemsExperiments.Model.PerfEventOpen.Buffers

/-! # Events lie in one piece

The second half of a buffer shows the ring once more, so that an event that starts anywhere in
the ring is found byte after byte from its address on. -/

namespace SystemsExperiments.PerfEventOpen

open Paging

variable {φ : Type*}

/-! ## The mapping -/

section Mapping

variable {answers : Mmap} {space space' : Space φ} {fd : φ} {base : ℕ}

/-- The pages of a buffer: the metadata, the ring and the ring again. The first mapping goes over
the page that the second one has for the metadata. -/
theorem fdToBuf_some (h : fdToBuf answers space fd = (some base, space')) :
    (∀ i < rbSize, space' (base + i) = some (.file fd i)) ∧
      (∀ i < rbData, space' (base + rbSize + i) = some (.file fd (1 + i))) ∧
      ∀ p, ¬(base ≤ p ∧ p < base + (rbSize + rbData)) → space' p = space p := by
  cases hbase : answers.base with
  | none => simp [fdToBuf, hbase] at h
  | some b =>
      simp only [fdToBuf, hbase] at h
      split at h
      · split at h
        · rw [Prod.mk.injEq, Option.some.injEq] at h
          obtain ⟨rfl, rfl⟩ := h
          simp only [rbSize, rbData]
          refine ⟨fun i hi => ?_, fun i hi => ?_, fun p hp => ?_⟩
          · rw [mapFile, place_inside _ _ (by omega), Nat.add_sub_cancel_left]
          · rw [mapFile, place_outside _ _ (by omega), mapFile, place_inside _ _ (by omega)]
            congr 2
            omega
          · rw [mapFile, place_outside _ _ (by omega), mapFile, place_outside _ _ (by omega),
              reserve, place_outside _ _ (by omega)]
        · cases h
      · cases h

/-- A buffer that cannot be mapped leaves no pages behind. -/
theorem fdToBuf_none (h : (fdToBuf answers space fd).1 = none)
    (hfree : ∀ base ∈ answers.base, ∀ p, base ≤ p → p < base + (rbSize + rbData) →
      space p = none) : (fdToBuf answers space fd).2 = space := by
  cases hbase : answers.base with
  | none => simp [fdToBuf, hbase]
  | some b =>
      have hb := hfree b (by simp [hbase])
      simp only [fdToBuf, hbase] at h ⊢
      split at h
      · split at h
        · cases h
        · rename_i hsecond hfirst
          rw [if_pos hsecond, if_neg hfirst]
          refine unmap_eq space hb fun p hp => ?_
          simp only [rbSize, rbData] at hp ⊢
          rw [mapFile, place_outside _ _ (by omega), reserve, place_outside _ _ (by omega)]
      · rename_i hsecond
        rw [if_neg hsecond]
        exact unmap_eq space hb fun p hp => by rw [reserve, place_outside _ _ hp]

/-- From every byte of the ring on, as many bytes as the ring has are found in order. -/
theorem load_ring (h : fdToBuf answers space fd = (some base, space')) (content : φ → ℕ → UInt8)
    {offset i : ℕ} (hoffset : offset < rbData * pageSize) (hi : i ≤ rbData * pageSize) :
    load space' content (base * pageSize + pageSize + offset + i) =
      some (content fd (pageSize + (offset + i) % (rbData * pageSize))) := by
  obtain ⟨hfront, hback, -⟩ := fdToBuf_some h
  by_cases hhalf : offset + i < rbData * pageSize
  · have hpages : ∀ j < rbSize, space' (base + j) = some (.file fd (0 + j)) := by
      intro j hj
      rw [Nat.zero_add]
      exact hfront j hj
    have hpos : 0 * pageSize + (base * pageSize + pageSize + offset + i - base * pageSize) =
        pageSize + (offset + i) := by omega
    rw [load_file hpages (by omega) (by simp only [rbSize, rbData, pageSize] at *; omega),
      Nat.mod_eq_of_lt hhalf, hpos]
  · have hmod : (offset + i) % (rbData * pageSize) = offset + i - rbData * pageSize := by
      rw [Nat.mod_eq_sub_mod (by omega), Nat.mod_eq_of_lt (by omega)]
    have hpos : 1 * pageSize + (base * pageSize + pageSize + offset + i -
        (base + rbSize) * pageSize) = pageSize + (offset + i - rbData * pageSize) := by
      simp only [rbSize, rbData, pageSize] at *
      omega
    rw [load_file hback (by simp only [rbSize, rbData, pageSize] at *; omega)
      (by simp only [rbSize, rbData, pageSize] at *; omega), hmod, hpos]

end Mapping

/-! ## Events -/

/-- An event is announced once its header is there, and from the address on the bytes of the
stream follow one another, wherever in the ring they begin and however the counters wrap. -/
theorem events_contiguous {answers : Mmap} {space space' : Space φ} {fd : φ} {base : ℕ}
    (hbuf : fdToBuf answers space fd = (some base, space')) {metadata : Metadata}
    (hsize : metadata.dataSize.toNat = rbData * pageSize)
    (hroom : (metadata.dataHead - metadata.dataTail).toNat ≤ rbData * pageSize)
    {content : φ → ℕ → UInt8} {stream : ℕ → UInt8}
    (hwritten : ∀ i < (metadata.dataHead - metadata.dataTail).toNat,
      content fd (pageSize + (metadata.dataTail.toNat + i) % (rbData * pageSize)) = stream i) :
    (headerFromBuf base metadata = none ↔
        (metadata.dataHead - metadata.dataTail).toNat < headerSize.toNat) ∧
      ∀ addr ∈ headerFromBuf base metadata,
        ∀ i < (metadata.dataHead - metadata.dataTail).toNat,
          load space' content (addr + i) = some (stream i) := by
  have hzero : metadata.dataHead = metadata.dataTail →
      (metadata.dataHead - metadata.dataTail).toNat < headerSize.toNat := by
    intro heq
    rw [heq, UInt64.sub_self]
    decide
  have hoffset : (metadata.dataTail % metadata.dataSize).toNat =
      metadata.dataTail.toNat % (rbData * pageSize) := by
    rw [UInt64.toNat_mod, hsize]
  simp only [headerFromBuf]
  split
  · exact ⟨iff_of_true rfl (hzero ‹_›), by simp⟩
  · split
    · rename_i hlt
      exact ⟨iff_of_true rfl (UInt64.lt_iff_toNat_lt.mp hlt), by simp⟩
    · rename_i hle
      refine ⟨iff_of_false (by simp) fun hlt => hle (UInt64.lt_iff_toNat_lt.mpr hlt), ?_⟩
      intro addr haddr i hi
      cases haddr
      have hload := load_ring hbuf content
        (Nat.mod_lt metadata.dataTail.toNat (show 0 < rbData * pageSize by decide))
        (hi.le.trans hroom)
      rw [hoffset, ← hwritten i hi, ← Nat.mod_add_mod]
      exact hload

/-- The sixth byte of an event that begins in the last four bytes of the ring. -/
theorem events_contiguous_wrapped :
    headerFromBuf 100 ⟨16400, 16380, 16384⟩ = some 430076 ∧
      load (fdToBuf ⟨some 100, true, true⟩ (fun _ => none) ()).2
        (fun _ pos => UInt8.ofNat ((pos - 4096 + 4) % 16384)) (430076 + 5) = some 5 :=
  ⟨by decide, (@events_contiguous Unit ⟨some 100, true, true⟩ (fun _ => none) _ () 100 rfl
    ⟨16400, 16380, 16384⟩ (by decide) (by decide) _ UInt8.ofNat (by decide +kernel)).2 _ rfl 5
    (by decide)⟩

end SystemsExperiments.PerfEventOpen
