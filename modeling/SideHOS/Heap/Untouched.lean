import SideHOS.Heap.Isolation

/-!
# Payloads that calls leave alone

The bookkeeping of the heap stands between the blocks.  Over every run of `kmalloc` and `kfree`
whose frame requests are granted, no call changes a payload byte of a block that was live before
the call and is not the one being freed.
-/

namespace SideHOS.Heap

open Kernel Machine Machine.ByteMemory Sharing Sharing.Program Transition

/-- A call leaves the payloads of the blocks alone that it is not about. -/
def Spares (t : Taken HeapConfig HeapEvent) : Prop :=
  match t.label with
  | .kmalloc _ _ => ∀ block ∈ t.before.live, ∀ x, block.payload.Holds x →
      t.after.state.bytes x = t.before.state.bytes x
  | .kfree freed _ => ∀ block ∈ t.before.live, block ≠ freed → ∀ x, block.payload.Holds x →
      t.after.state.bytes x = t.before.state.bytes x
  | _ => True

section Untouched

variable {mapping : Mapping} {config after : HeapConfig} {heap : Layout} {event : HeapEvent}
  {maximum : ℕ}

/-- A call of a served heap spares payloads. -/
theorem Serves.spares (h : Serves mapping maximum config heap) (hmaximum : maximum + 4135 < 2 ^ 64)
    (hcursor : config.freelist.cursor < 255)
    (hstep : HeapStep mapping.hhdmOffset config event after)
    (hserved : Served maximum ⟨config, event, after⟩) :
    Spares ⟨config, event, after⟩ := by
  cases hstep with
  | kmalloc hrun =>
    obtain ⟨hpos, hle, hgranted⟩ := hserved
    obtain ⟨pointer, state, next, hrun', hgiven⟩ := h.represents.kmalloc_given h.lock_eq
      (Or.inl hpos) (fun _ ↦ (frameCounts_bounds (by omega)).1) hgranted
    obtain ⟨rfl, rfl⟩ := Prod.mk.inj (Option.some.inj (hrun'.symm.trans hrun))
    intro block hblock x hx
    exact hgiven.untouched (h.represents.withLock 1) ((h.live_iff block).mp hblock)
      ((h.payload_within hmaximum hblock).holds hx)
  | kfree hlive hrun =>
    have haligned := h.represents.pointer_not_aligned ((h.live_iff _).mp hlive) (h.sizes _ hlive).1
    obtain ⟨state, next, hrun', hreclaimed, -⟩ := h.represents.kfree_reclaimed h.lock_eq
      ((h.live_iff _).mp hlive) haligned fun _ ↦ hcursor
    obtain ⟨-, rfl⟩ := Prod.mk.inj (Option.some.inj (hrun'.symm.trans hrun))
    intro block hblock hne x hx
    exact hreclaimed.untouched h.represents ((h.live_iff block).mp hblock) hne
      ((h.payload_within hmaximum hblock).holds hx)
  | _ => trivial

/-- No call of a run changes a live payload, except that of the block it frees. -/
theorem live_payloads_untouched {hhdmOffset : ℕ} {start final : HeapConfig}
    {taken : List (Taken HeapConfig HeapEvent)} (hboot : Booted hhdmOffset start)
    (hentries : start.freelist.cursor ≤ 127) (hrun : Run (HeapStep hhdmOffset) start taken final)
    (hserved : ∀ t ∈ taken, Served (2 ^ 63) t)
    (hcursor : ∀ t ∈ taken, t.after.freelist.cursor ≤ 127) : ∀ t ∈ taken, Spares t := by
  intro t ht
  obtain ⟨earlier, hearlier, hstep, hsubset⟩ := hrun.of_mem ht
  obtain ⟨⟨heap, hheap⟩, hle⟩ := serves_of_run hboot (by norm_num) hentries hearlier
    (fun prior hprior ↦ hserved prior (hsubset prior hprior))
    fun prior hprior ↦ hcursor prior (hsubset prior hprior)
  exact hheap.spares (by norm_num) (by omega) hstep (hserved t ht)

/-- The second `kmalloc` after boot leaves the first block alone. -/
theorem live_payloads_untouched_twoBlocks : ∃ calls : TwoCalls,
    ∀ x, (givenBlock 64 calls.first calls.before.state).payload.Holds x →
      calls.config.state.bytes x = calls.before.state.bytes x := by
  obtain ⟨calls⟩ := exists_twoCalls
  have hspares := live_payloads_untouched booted_bootedHeap (by decide) calls.run_taken
    (fun t ht ↦ (calls.served_taken t ht).mono (by norm_num))
    (fun t ht ↦ (calls.cursor_taken t ht).trans_le (by norm_num))
    ⟨calls.before, .kmalloc 64 calls.second, calls.config⟩
    (List.mem_cons_of_mem _ (List.mem_singleton_self _))
  refine ⟨calls, hspares _ ?_⟩
  rw [calls.before_live]
  exact List.mem_singleton_self _

end Untouched

end SideHOS.Heap
