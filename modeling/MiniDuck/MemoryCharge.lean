import MiniDuck.EvictionQueue

/-!
# The memory of the buffer pool

`Charged` says what the counter of the used memory stands for: the charges of
the blocks and the reservations the threads hold. An eviction succeeds when
the shared part of the counter is within the limit, so the charges and the
granted reservations are within the limit and what the caches can hide.
-/

namespace MiniDuck

open MemoryUsage Reservation

/-- What a reservation adds to the used memory. -/
def Reservation.held (r : Reservation) : Int :=
  if r.stage = .required then 0 else r.size

def Reservation.granted (r : Reservation) : Int :=
  if r.stage = .granted then r.size else 0

def chargeSum (blocks : List BlockMemory) : Int :=
  (blocks.map fun m => (m.memoryCharge : Int)).sum

def heldSum (rs : Multiset Reservation) : Int := (rs.map Reservation.held).sum

def grantedSum (rs : Multiset Reservation) : Int := (rs.map Reservation.granted).sum

/-- A tiny buffer is charged for its size, any other for what is allocated. -/
structure BlockMemory.ChargeOk (m : BlockMemory) : Prop where
  unloaded : m.buffer = none → m.memoryCharge = 0 ∧ (m.phase = .destroyed ∨ m.readers = 0)
  loaded : ∀ alloc, m.buffer = some alloc → m.bufferType ≠ .tinyBuffer → alloc ≤ m.memoryCharge

/-- A reservation for a block is large enough for it. -/
def Reservation.Fits (blocks : List BlockMemory) (r : Reservation) : Prop :=
  ∀ b, r.memory = some b → ∃ m, blocks[b]? = some m ∧ m.memoryUsage ≤ r.size

structure Charged (limit : Int) (u : MemoryUsage) (blocks : List BlockMemory)
    (rs : Multiset Reservation) : Prop where
  bounded : u.Bounded cacheThreshold
  value : u.value = chargeSum blocks + heldSum rs
  limit : chargeSum blocks + grantedSum rs ≤ limit
  block : ∀ m ∈ blocks, m.ChargeOk
  fits : ∀ r ∈ rs, r.Fits blocks

/-- The limit and what the caches can hide. -/
def chargeLimit (maximumMemory : Nat) : Int :=
  maximumMemory + 64 * ((cacheThreshold : Int) - 1)

@[simp] theorem heldSum_cons (r : Reservation) (rs : Multiset Reservation) :
    heldSum (r ::ₘ rs) = r.held + heldSum rs := by
  simp [heldSum]

@[simp] theorem grantedSum_cons (r : Reservation) (rs : Multiset Reservation) :
    grantedSum (r ::ₘ rs) = r.granted + grantedSum rs := by
  simp [grantedSum]

theorem grantedSum_le (rs : Multiset Reservation) : grantedSum rs ≤ heldSum rs := by
  refine Multiset.sum_map_le_sum_map _ _ fun r _ => ?_
  cases hr : r.stage <;> simp [granted, held, hr]

theorem chargeSum_set {blocks : List BlockMemory} {b : Nat} {m : BlockMemory} (m' : BlockMemory)
    (hm : blocks[b]? = some m) :
    chargeSum (blocks.set b m') = chargeSum blocks - m.memoryCharge + m'.memoryCharge :=
  sum_map_set _ m' hm

namespace MemoryUsage

variable {u : MemoryUsage}

@[simp] theorem value_updateUsedMemory (size : Int) (cpu : Fin 64) :
    (updateUsedMemory u size cpu).value = u.value + size := by
  rw [updateUsedMemory]
  split_ifs <;> simp_all

theorem bounded_updateUsedMemory (h : u.Bounded cacheThreshold) (size : Int) (cpu : Fin 64) :
    (updateUsedMemory u size cpu).Bounded cacheThreshold := by
  rw [updateUsedMemory]
  split_ifs
  · exact h
  · exact h
  · exact h.addCached cpu size

end MemoryUsage

namespace Charged

variable {limit : Int} {u u' : MemoryUsage} {blocks : List BlockMemory}
  {rs rs' : Multiset Reservation} {b : Nat} {m m' : BlockMemory} {r : Reservation}

theorem set (h : Charged limit u blocks rs) (hm : blocks[b]? = some m) (hok : m'.ChargeOk)
    (husage : m'.memoryUsage ≤ m.memoryUsage) (hu : u'.Bounded cacheThreshold)
    (hrs : ∀ r ∈ rs', r ∈ rs)
    (hvalue : u'.value - m'.memoryCharge - heldSum rs' = u.value - m.memoryCharge - heldSum rs)
    (hlimit : m'.memoryCharge + grantedSum rs' ≤ m.memoryCharge + grantedSum rs) :
    Charged limit u' (blocks.set b m') rs' := by
  refine ⟨hu, ?_, ?_, ?_, ?_⟩
  · have := h.value
    rw [chargeSum_set m' hm]
    omega
  · have := h.limit
    rw [chargeSum_set m' hm]
    omega
  · intro k hk
    rcases List.mem_or_eq_of_mem_set hk with hk | rfl
    · exact h.block k hk
    · exact hok
  · intro r hr c hc
    obtain ⟨k, hk, hle⟩ := h.fits r (hrs r hr) c hc
    by_cases hcb : c = b
    · subst hcb
      rw [hm] at hk
      cases hk
      refine ⟨m', ?_, husage.trans hle⟩
      rw [List.getElem?_set_self (List.getElem?_eq_some_iff.1 hm).1]
    · exact ⟨k, by rw [List.getElem?_set_ne (Ne.symm hcb), hk], hle⟩

/-- A change of a block that costs nothing. -/
theorem keep (h : Charged limit u blocks rs) (hm : blocks[b]? = some m) (hok : m'.ChargeOk)
    (husage : m'.memoryUsage = m.memoryUsage) (hcharge : m'.memoryCharge = m.memoryCharge) :
    Charged limit u (blocks.set b m') rs := by
  refine h.set hm hok husage.le h.bounded (fun _ hr => hr) ?_ ?_ <;> rw [hcharge]

theorem unload (h : Charged limit u blocks rs) (hm : blocks[b]? = some m) (cpu : Fin 64)
    (husage : m'.memoryUsage = m.memoryUsage) (hcharge : m'.memoryCharge = m.memoryCharge)
    (hreaders : m'.phase = .destroyed ∨ m'.readers = 0) :
    Charged limit (updateUsedMemory u (-m'.memoryCharge) cpu) (blocks.set b m'.unload) rs := by
  refine h.set hm ⟨fun _ => ⟨rfl, hreaders⟩, fun _ hb => by cases hb⟩ husage.le
    (bounded_updateUsedMemory h.bounded _ _) (fun _ hr => hr) ?_ ?_
  · simp only [value_updateUsedMemory, BlockMemory.unload, hcharge]
    omega
  · simp [BlockMemory.unload]

/-- A new block is paid for by the reservations that go. -/
theorem append (h : Charged limit u blocks rs) (hok : m.ChargeOk) (hrs : ∀ r ∈ rs', r ∈ rs)
    (hvalue : heldSum rs = m.memoryCharge + heldSum rs')
    (hlimit : m.memoryCharge + grantedSum rs' ≤ grantedSum rs) :
    Charged limit u (blocks ++ [m]) rs' := by
  have hsum : chargeSum (blocks ++ [m]) = chargeSum blocks + m.memoryCharge := by
    simp [chargeSum]
  have hold := h.value
  have hle := h.limit
  refine ⟨h.bounded, by omega, by omega, ?_, ?_⟩
  · intro k hk
    rcases List.mem_append.1 hk with hk | hk
    · exact h.block k hk
    · rw [List.mem_singleton.1 hk]
      exact hok
  · intro r hr c hc
    obtain ⟨k, hk, hrest⟩ := h.fits r (hrs r hr) c hc
    exact ⟨k, by rw [List.getElem?_append_left (List.getElem?_eq_some_iff.1 hk).1, hk], hrest⟩

/-- A reservation that is not held yet. -/
theorem cons (h : Charged limit u blocks rs) (hstage : r.stage = .required)
    (hfits : r.Fits blocks) : Charged limit u blocks (r ::ₘ rs) := by
  refine ⟨h.bounded, ?_, ?_, h.block, ?_⟩
  · simpa [held, hstage] using h.value
  · simpa [granted, hstage] using h.limit
  · intro q hq
    rcases Multiset.mem_cons.1 hq with rfl | hq
    · exact hfits
    · exact h.fits q hq

/-- A reservation goes to another stage, and a granted one leaves room. -/
theorem setStage {stage : EvictionStage} (h : Charged limit u blocks (r ::ₘ rs))
    (hu : u'.Bounded cacheThreshold)
    (hvalue : u'.value - { r with stage := stage }.held = u.value - r.held)
    (hlimit : chargeSum blocks + { r with stage := stage }.granted + grantedSum rs ≤ limit) :
    Charged limit u' blocks ({ r with stage := stage } ::ₘ rs) := by
  have hold := h.value
  rw [heldSum_cons] at hold
  refine ⟨hu, ?_, ?_, h.block, ?_⟩
  · rw [heldSum_cons]
    omega
  · rw [grantedSum_cons]
    omega
  · intro q hq
    rcases Multiset.mem_cons.1 hq with rfl | hq
    · exact h.fits r (Multiset.mem_cons_self _ _)
    · exact h.fits q (Multiset.mem_cons_of_mem hq)

theorem blockStep {s t : PoolState} {op : MemoryOp} (hm : s.blocks[b]? = some m)
    (h : Charged limit s.memoryUsage s.blocks s.reservations)
    (hstep : s.blockStep b m op = some t) :
    Charged limit t.memoryUsage t.blocks t.reservations := by
  have hok := h.block m (List.mem_of_getElem? hm)
  cases op with
  | require =>
      cases (Option.ite_none_right_eq_some.1 hstep).2
      refine h.cons rfl fun c hc => ?_
      cases hc
      exact ⟨m, hm, le_rfl⟩
  | pin =>
      obtain ⟨⟨-, hbuf⟩, heq⟩ := Option.ite_none_right_eq_some.1 hstep
      cases heq
      exact h.keep hm ⟨fun hb => absurd hb hbuf, hok.loaded⟩ rfl rfl
  | load r alloc cpu =>
      obtain ⟨⟨⟨-, hbuf, -, halloc⟩, hr, hstage, hmem⟩, heq⟩ :=
        Option.ite_none_right_eq_some.1 hstep
      obtain ⟨k, hk, hle⟩ := h.fits r hr b hmem
      rw [hm] at hk
      cases hk
      cases heq
      have hzero := (hok.unloaded hbuf).1
      have hrs := Multiset.cons_erase hr
      refine h.set hm ⟨by simp, ?_⟩ halloc (bounded_updateUsedMemory h.bounded _ _)
        (fun q hq => Multiset.mem_of_mem_erase hq) ?_ ?_
      · rintro a ⟨⟩ -
        dsimp only
        split
        · exact halloc.trans hle
        · exact le_rfl
      · rw [← hrs]
        simp [PoolState.updateUsedMemory, PoolState.setBlock, hzero, held, hstage]
        omega
      · rw [← hrs]
        simp [PoolState.updateUsedMemory, hzero, granted, hstage]
        grind
  | unpin cpu =>
      obtain ⟨⟨-, hbuf, -⟩, heq⟩ := Option.ite_none_right_eq_some.1 hstep
      dsimp only at heq
      split at heq
      · cases heq
        exact h.keep hm ⟨fun hb => absurd hb hbuf, hok.loaded⟩ rfl rfl
      · rename_i hpos
        split at heq
        · cases heq
          exact h.keep hm ⟨fun hb => absurd hb hbuf, hok.loaded⟩ rfl rfl
        · cases heq
          exact h.unload hm cpu rfl rfl (Or.inr (Nat.eq_zero_of_not_pos hpos))
  | addToEvictionQueue | expire | setDestroyBufferUpon =>
      obtain ⟨hphase, heq⟩ := Option.ite_none_right_eq_some.1 hstep
      cases heq
      refine h.keep hm ⟨fun hb => ⟨(hok.unloaded hb).1, (hok.unloaded hb).2.imp_left ?_⟩,
        hok.loaded⟩ rfl rfl
      intro hd
      simp [hd, BlockMemory.isExpired] at hphase
  | destroy cpu =>
      cases (Option.ite_none_right_eq_some.1 hstep).2
      exact h.unload hm cpu rfl rfl (Or.inl rfl)

theorem evictBlock {s t : PoolState} {node : BufferEvictionNode} {reuse : Option Reservation}
    {written : Bool} {cpu : Fin 64} (hm : s.blocks[node.memory]? = some m)
    (h : Charged limit s.memoryUsage s.blocks s.reservations) (htiny : m.bufferType ≠ .tinyBuffer)
    (ht : t = s.evictBlock node m reuse written cpu) :
    Charged limit t.memoryUsage t.blocks t.reservations := by
  have hok := h.block m (List.mem_of_getElem? hm)
  rw [ht, PoolState.evictBlock]
  split
  · exact h.keep hm ⟨hok.unloaded, hok.loaded⟩ rfl rfl
  · exact h.keep hm ⟨hok.unloaded, hok.loaded⟩ rfl rfl
  · exact h.keep hm ⟨hok.unloaded, hok.loaded⟩ rfl rfl
  · have hnew : Charged limit _
        (s.blocks.set node.memory { m with hasQueueEntry := false }.unload) s.reservations :=
      h.unload hm cpu rfl rfl
        (Or.inr (by grind [BlockMemory.canUnload]))
    split
    · exact h.keep hm ⟨hok.unloaded, hok.loaded⟩ rfl rfl
    · dsimp only
      split
      · exact hnew
      · next r =>
          split
          · next hreuse =>
              -- the buffer is as large as the reservation, and was charged for
              obtain ⟨hmem, hstage, hsize⟩ := hreuse
              have hle := hok.loaded _ hsize htiny
              have hlimit := h.limit
              rw [← Multiset.cons_erase hmem] at hnew hlimit
              refine hnew.setStage hnew.bounded ?_ ?_
              · simp [held, hstage, PoolState.setStage, PoolState.unload,
                  PoolState.setBlock, PoolState.updateUsedMemory]
              · rw [chargeSum_set _ hm]
                simp [BlockMemory.unload, granted, hstage] at hlimit ⊢
                omega
          · exact hnew

theorem step {maximumMemory : Nat} {s t : PoolState} {op : PoolOp}
    (h : Charged (chargeLimit maximumMemory) s.memoryUsage s.blocks s.reservations)
    (hq : Queued s.blocks s.nodes s.totalDeadNodes)
    (hstep : poolStep maximumMemory s op = some t) :
    Charged (chargeLimit maximumMemory) t.memoryUsage t.blocks t.reservations := by
  cases op with
  | registerBlock blockAllocSize =>
      cases hstep
      exact h.append ⟨fun _ => ⟨rfl, Or.inr rfl⟩, fun _ ha => by cases ha⟩ (fun _ hr => hr)
        (by simp [BlockMemory.ofBlock]) (by simp [BlockMemory.ofBlock])
  | requireBuffer size =>
      cases hstep
      exact h.cons rfl fun _ hc => by cases hc
  | reserve r cpu | release r cpu =>
      obtain ⟨⟨hr, hstage⟩, heq⟩ := Option.ite_none_right_eq_some.1 hstep
      cases heq
      have hlimit := h.limit
      rw [← Multiset.cons_erase hr] at h hlimit
      refine h.setStage (bounded_updateUsedMemory h.bounded _ _) ?_ ?_
      · simp only [PoolState.setStage, PoolState.updateUsedMemory, value_updateUsedMemory,
          held, hstage]
        grind
      · simp [granted] at hlimit ⊢
        grind
  | grant r =>
      obtain ⟨⟨hr, hstage, hused⟩, heq⟩ := Option.ite_none_right_eq_some.1 hstep
      cases heq
      have hnear := abs_le.1 h.bounded.shared_near
      have hvalue := h.value
      have hle := grantedSum_le (s.reservations.erase r)
      rw [← Multiset.cons_erase hr] at h hvalue
      refine h.setStage h.bounded ?_ ?_
      · simp [held, hstage, PoolState.setStage]
      · simp [getUsedMemory, held, granted, hstage, chargeLimit] at *
        omega
  | giveUp r =>
      obtain ⟨⟨hr, hstage⟩, heq⟩ := Option.ite_none_right_eq_some.1 hstep
      cases heq
      have hvalue := h.value
      have hlimit := h.limit
      rw [← Multiset.cons_erase hr] at hvalue hlimit
      refine ⟨h.bounded, ?_, ?_, h.block, fun q hq => h.fits q (Multiset.mem_of_mem_erase hq)⟩
      · simpa [held, hstage] using hvalue
      · simpa [granted, hstage] using hlimit
  | registerMemory r external canDestroy | registerSmallMemory r alloc =>
      obtain ⟨⟨hr, hstage, -⟩, heq⟩ := Option.ite_none_right_eq_some.1 hstep
      cases heq
      refine h.append ⟨by simp [BlockMemory.ofBuffer], by simp [BlockMemory.ofBuffer]⟩
        (fun q hq => Multiset.mem_of_mem_erase hq) ?_ ?_
      all_goals
        rw [← Multiset.cons_erase hr]
        simp [BlockMemory.ofBuffer, held, granted, hstage]
  | block b op =>
      obtain ⟨m, hm, hstep⟩ := Option.bind_eq_some_iff.1 hstep
      exact h.blockStep hm hstep
  | setTemporaryDirectory path =>
      cases hstep
      exact h
  | dequeue node =>
      cases (Option.ite_none_right_eq_some.1 hstep).2
      exact h
  | purge node wasAlive =>
      have heq := (Option.ite_none_right_eq_some.1 hstep).2
      split at heq
      all_goals
        cases heq
        exact h
  | evict node reuse written cpu =>
      obtain ⟨m, hm, hstep⟩ := Option.bind_eq_some_iff.1 hstep
      obtain ⟨⟨hn, -⟩, heq⟩ := Option.ite_none_right_eq_some.1 hstep
      dsimp only at heq
      split at heq
      · cases heq
        exact h
      · obtain ⟨k, hk, htiny, -⟩ := hq.node node (Multiset.mem_add.2 (Or.inr hn))
        rw [hm] at hk
        cases hk
        exact Charged.evictBlock (s := { s with dequeued := s.dequeued.erase node }) hm h htiny
          (Option.some.inj heq).symm
  | flush =>
      cases hstep
      exact ⟨h.bounded.flush, CachedCounter.value_flush.trans h.value, h.limit, h.block, h.fits⟩

theorem of_reachable {maximumMemory : Nat} {s : PoolState}
    (h : (bufferPoolLts maximumMemory).Reachable s) :
    Charged (chargeLimit maximumMemory) s.memoryUsage s.blocks s.reservations := by
  refine h.invariant (I := fun s => Charged (chargeLimit maximumMemory) s.memoryUsage s.blocks
    s.reservations) ?_ fun _ _ _ hr hinv hstep => hinv.step (Queued.of_reachable hr) hstep
  rintro s rfl
  constructor
  all_goals simp [PoolState.start, chargeLimit, CachedCounter.Bounded, CachedCounter.zero,
    CachedCounter.value, chargeSum, heldSum, grantedSum, cacheThreshold]
  omega

end Charged

/-! ## Runs -/

end MiniDuck
