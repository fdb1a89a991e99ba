import MiniDuck.BufferPool

/-!
# The entries of the eviction queue

`Queued` ties the nodes in the queue, and those a thread has taken from it,
to the blocks: a block that has not expired has one node with its sequence
number if its flag is set and none otherwise, and the dead nodes are the
nodes less these.
-/

namespace MiniDuck

/-- The entry of a block that is not counted as dead. -/
def BlockMemory.liveEntry (m : BlockMemory) : Int :=
  match m.phase with
  | .idle | .expired => m.hasQueueEntry.toNat
  | .enqueuing | .destroyed => 0

/-- A block that was pinned once and is not in use has an entry; a tiny buffer
never gets one. -/
structure BlockMemory.EntryOk (m : BlockMemory) : Prop where
  found : m.phase = .idle → m.buffer ≠ none → m.readers = 0 → 0 < m.evictionSeqNum →
    m.hasQueueEntry = true
  tiny : m.bufferType = .tinyBuffer → m.hasQueueEntry = false ∧ m.phase ≠ .enqueuing

structure Queued (blocks : List BlockMemory) (nodes : Multiset BufferEvictionNode)
    (totalDeadNodes : Int) : Prop where
  node : ∀ n ∈ nodes, ∃ m, blocks[n.memory]? = some m ∧ m.bufferType ≠ .tinyBuffer ∧
    n.handleSequenceNumber ≤ m.evictionSeqNum
  entry : ∀ b m, blocks[b]? = some m → m.isExpired = false →
    nodes.count ⟨b, m.evictionSeqNum⟩ = m.hasQueueEntry.toNat
  block : ∀ m ∈ blocks, m.EntryOk
  dead : totalDeadNodes = nodes.card - (blocks.map BlockMemory.liveEntry).sum

def PoolState.nodes (s : PoolState) : Multiset BufferEvictionNode := s.queue + s.dequeued

theorem sum_map_set {α : Type} (f : α → Int) {l : List α} {b : Nat} {a : α} (a' : α)
    (h : l[b]? = some a) : ((l.set b a').map f).sum = (l.map f).sum - f a + f a' := by
  obtain ⟨hb, rfl⟩ := List.getElem?_eq_some_iff.1 h
  rw [List.map_set, List.sum_set', dif_pos (by simpa using hb), List.getElem_map]
  omega

open BlockMemory BufferEvictionNode

namespace Queued

variable {blocks : List BlockMemory} {nodes nodes' : Multiset BufferEvictionNode} {d d' : Int}
  {b : Nat} {m m' : BlockMemory}

theorem set (h : Queued blocks nodes d) (hm : blocks[b]? = some m) (hok : m'.EntryOk)
    (htype : m'.bufferType = m.bufferType) (hseq : m.evictionSeqNum ≤ m'.evictionSeqNum)
    (hnode : ∀ n ∈ nodes', n ∈ nodes ∨
      n = ⟨b, m'.evictionSeqNum⟩ ∧ m'.bufferType ≠ .tinyBuffer)
    (hentry : m'.isExpired = false →
      nodes'.count ⟨b, m'.evictionSeqNum⟩ = m'.hasQueueEntry.toNat)
    (hother : ∀ n, n.memory ≠ b → nodes'.count n = nodes.count n)
    (hdead : d' - nodes'.card + m'.liveEntry = d - nodes.card + m.liveEntry) :
    Queued (blocks.set b m') nodes' d' := by
  have hb : b < blocks.length := (List.getElem?_eq_some_iff.1 hm).1
  have hself : (blocks.set b m')[b]? = some m' := by rw [List.getElem?_set_self hb]
  refine ⟨?_, ?_, ?_, ?_⟩
  · intro n hn
    rcases hnode n hn with hn | ⟨rfl, htiny⟩
    · obtain ⟨k, hk, htiny, hle⟩ := h.node n hn
      by_cases hnb : n.memory = b
      · rw [hnb, hm] at hk
        cases hk
        exact ⟨m', hnb ▸ hself, htype ▸ htiny, hle.trans hseq⟩
      · exact ⟨k, by rw [List.getElem?_set_ne (Ne.symm hnb), hk], htiny, hle⟩
    · exact ⟨m', hself, htiny, le_rfl⟩
  · intro c k hk hlive
    by_cases hc : c = b
    · subst hc
      rw [hself] at hk
      cases hk
      exact hentry hlive
    · rw [List.getElem?_set_ne (Ne.symm hc)] at hk
      rw [hother _ hc, h.entry c k hk hlive]
  · intro k hk
    rcases List.mem_or_eq_of_mem_set hk with hk | rfl
    · exact h.block k hk
    · exact hok
  · rw [sum_map_set _ _ hm]
    have := h.dead
    omega

/-- A change that the queue does not see. -/
theorem keep (h : Queued blocks nodes d) (hm : blocks[b]? = some m) (hok : m'.EntryOk)
    (htype : m'.bufferType = m.bufferType) (hseq : m'.evictionSeqNum = m.evictionSeqNum)
    (hflag : m'.hasQueueEntry = m.hasQueueEntry)
    (hlive : m'.isExpired = false → m.isExpired = false)
    (hdead : d' + m'.liveEntry = d + m.liveEntry) : Queued (blocks.set b m') nodes d' := by
  refine h.set hm hok htype hseq.ge (fun n hn => Or.inl hn) ?_ (fun _ _ => rfl) (by omega)
  intro hl
  rw [hseq, hflag, h.entry b m hm (hlive hl)]

theorem append (h : Queued blocks nodes d) (hidle : m.phase = .idle)
    (hflag : m.hasQueueEntry = false) (hseq : m.evictionSeqNum = 0) :
    Queued (blocks ++ [m]) nodes d := by
  have hold : ∀ {c : Nat} {k : BlockMemory}, blocks[c]? = some k → (blocks ++ [m])[c]? = some k := by
    intro c k hk
    rw [List.getElem?_append_left (List.getElem?_eq_some_iff.1 hk).1, hk]
  refine ⟨?_, ?_, ?_, ?_⟩
  · intro n hn
    obtain ⟨k, hk, hrest⟩ := h.node n hn
    exact ⟨k, hold hk, hrest⟩
  · intro c k hk hlive
    rw [List.getElem?_append] at hk
    split at hk
    · exact h.entry c k hk hlive
    · have hkm : k = m := by simpa using List.mem_of_getElem? hk
      subst hkm
      rw [hflag, Bool.toNat_false, Multiset.count_eq_zero]
      intro hn
      obtain ⟨k', hk', -⟩ := h.node _ hn
      have hlt : c < blocks.length := (List.getElem?_eq_some_iff.1 hk').1
      omega
  · intro k hk
    rcases List.mem_append.1 hk with hk | hk
    · exact h.block k hk
    · rw [List.mem_singleton.1 hk]
      exact ⟨fun _ _ _ hpos => absurd hpos (by omega), fun _ => ⟨hflag, by simp [hidle]⟩⟩
  · simp [h.dead, liveEntry, hidle, hflag]

/-- A dead node is taken out and counted off. -/
theorem drop {n : BufferEvictionNode} (h : Queued blocks (n ::ₘ nodes) d)
    (hn : n.isDead blocks = true) : Queued blocks nodes (d - 1) := by
  refine ⟨fun k hk => h.node k (Multiset.mem_cons_of_mem hk), ?_, h.block, ?_⟩
  · intro b m hm hlive
    rw [← h.entry b m hm hlive, Multiset.count_cons_of_ne]
    rintro rfl
    simp [isDead, hm, hlive] at hn
  · have := h.dead
    rw [Multiset.card_cons] at this
    push_cast at this
    omega

/-- A block gets a new node, which makes an earlier one stale. -/
theorem put (h : Queued blocks nodes d) (hm : blocks[b]? = some m) (hphase : m.phase = .enqueuing)
    (hphase' : m'.phase = .idle) (htype : m'.bufferType = m.bufferType)
    (hseq : m'.evictionSeqNum = m.evictionSeqNum + 1) (hflag : m'.hasQueueEntry = true) :
    Queued (blocks.set b m') (⟨b, m'.evictionSeqNum⟩ ::ₘ nodes) d := by
  have htiny : m'.bufferType ≠ .tinyBuffer :=
    fun ht => ((h.block m (List.mem_of_getElem? hm)).tiny (htype ▸ ht)).2 hphase
  refine h.set hm ⟨fun _ _ _ _ => hflag, fun ht => absurd ht htiny⟩ htype (by omega) ?_ ?_ ?_ ?_
  · intro n hn
    rcases Multiset.mem_cons.1 hn with rfl | hn
    · exact Or.inr ⟨rfl, htiny⟩
    · exact Or.inl hn
  · intro _
    rw [Multiset.count_cons_self, hflag, Multiset.count_eq_zero.2]
    · rfl
    · intro hn
      obtain ⟨k, hk, -, hle⟩ := h.node _ hn
      rw [hm] at hk
      cases hk
      rw [hseq] at hle
      exact Nat.not_succ_le_self _ hle
  · intro n hn
    refine Multiset.count_cons_of_ne ?_ _
    rintro rfl
    exact hn rfl
  · simp only [liveEntry, hphase, hphase', hflag, Multiset.card_cons, Bool.toNat_true]
    omega

theorem only_entry (h : Queued blocks (⟨b, m.evictionSeqNum⟩ ::ₘ nodes) d)
    (hm : blocks[b]? = some m) (hidle : m.phase = .idle) :
    m.hasQueueEntry = true ∧ nodes.count ⟨b, m.evictionSeqNum⟩ = 0 := by
  have hentry := h.entry b m hm (by simp [isExpired, hidle])
  rw [Multiset.count_cons_self] at hentry
  cases hf : m.hasQueueEntry with
  | true =>
      rw [hf] at hentry
      exact ⟨rfl, Nat.succ.inj hentry⟩
  | false =>
      rw [hf] at hentry
      cases hentry

/-- The live node of a block is taken out. -/
theorem take (h : Queued blocks (⟨b, m.evictionSeqNum⟩ ::ₘ nodes) d) (hm : blocks[b]? = some m)
    (hidle : m.phase = .idle) (hok : m'.EntryOk) (htype : m'.bufferType = m.bufferType)
    (hseq : m'.evictionSeqNum = m.evictionSeqNum) (hflag : m'.hasQueueEntry = false)
    (hphase : m'.phase = .idle) : Queued (blocks.set b m') nodes d := by
  obtain ⟨hentry, hcount⟩ := h.only_entry hm hidle
  refine h.set hm hok htype hseq.ge (fun n hn => Or.inl (Multiset.mem_cons_of_mem hn)) ?_ ?_ ?_
  · intro _
    rw [hseq, hflag, hcount]
    rfl
  · intro n hn
    rw [Multiset.count_cons_of_ne]
    rintro rfl
    exact hn rfl
  · simp only [liveEntry, hidle, hphase, hflag, hentry, Multiset.card_cons, Bool.toNat_false,
      Bool.toNat_true]
    omega

theorem live_of_not_dead {n : BufferEvictionNode} (hm : blocks[n.memory]? = some m)
    (hphase : m.phase ≠ .enqueuing) (hn : ¬n.isDead blocks = true) :
    m.phase = .idle ∧ n.handleSequenceNumber = m.evictionSeqNum := by
  simp only [isDead, hm, isExpired, Bool.or_eq_true, beq_iff_eq,
    bne_iff_ne, not_or, not_not] at hn
  refine ⟨?_, hn.2⟩
  cases hp : m.phase <;> simp_all

theorem evictBlock {s t : PoolState} {reuse : Option Reservation} {written : Bool} {cpu : Fin 64}
    (hm : s.blocks[b]? = some m) (hidle : m.phase = .idle)
    (h : Queued s.blocks (⟨b, m.evictionSeqNum⟩ ::ₘ s.nodes) s.totalDeadNodes)
    (ht : t = s.evictBlock ⟨b, m.evictionSeqNum⟩ m reuse written cpu) :
    Queued t.blocks t.nodes t.totalDeadNodes := by
  have hok := h.block m (List.mem_of_getElem? hm)
  have hflag := (h.only_entry hm hidle).1
  have hrequeued : Queued (s.blocks.set b { m with hasQueueEntry := true })
      (⟨b, m.evictionSeqNum⟩ ::ₘ s.queue + s.dequeued) s.totalDeadNodes := by
    rw [Multiset.cons_add]
    exact h.keep hm ⟨fun _ _ _ _ => rfl, fun ht => absurd (hok.tiny ht).1 (by simp [hflag])⟩
      rfl rfl hflag.symm id (by simp [liveEntry, hflag])
  have hbusy (hb : ¬(m.buffer ≠ none ∧ m.readers = 0)) :
      Queued (s.blocks.set b { m with hasQueueEntry := false }) s.nodes s.totalDeadNodes :=
    h.take hm hidle ⟨fun _ hl hr _ => absurd ⟨hl, hr⟩ hb, fun _ => ⟨rfl, by simp [hidle]⟩⟩
      rfl rfl rfl hidle
  have hunloaded :
      Queued (s.blocks.set b { m.unload with hasQueueEntry := false }) s.nodes s.totalDeadNodes :=
    h.take hm hidle ⟨fun _ hb => absurd rfl hb, fun _ => ⟨rfl, by simp [BlockMemory.unload, hidle]⟩⟩
      rfl rfl rfl hidle
  rw [ht, PoolState.evictBlock]
  split
  · exact hbusy (by grind [BlockMemory.canUnload])
  · exact hbusy (by grind [BlockMemory.canUnload])
  · exact hrequeued
  · split
    · exact hrequeued
    · dsimp only
      split
      · exact hunloaded
      · split <;> exact hunloaded

theorem blockStep {s t : PoolState} {op : MemoryOp} (hm : s.blocks[b]? = some m)
    (h : Queued s.blocks s.nodes s.totalDeadNodes) (hstep : s.blockStep b m op = some t) :
    Queued t.blocks t.nodes t.totalDeadNodes := by
  have hok := h.block m (List.mem_of_getElem? hm)
  cases op with
  | require =>
      cases (Option.ite_none_right_eq_some.1 hstep).2
      exact h
  | pin | load =>
      cases (Option.ite_none_right_eq_some.1 hstep).2
      exact h.keep hm ⟨fun _ _ hr => absurd hr (by simp), hok.tiny⟩ rfl rfl rfl id rfl
  | unpin cpu =>
      obtain ⟨⟨hidle, -, htiny, -⟩, heq⟩ := Option.ite_none_right_eq_some.1 hstep
      dsimp only at heq
      split at heq
      · rename_i hpos
        cases heq
        exact h.keep hm ⟨fun _ _ hr => absurd hr hpos.ne', hok.tiny⟩ rfl rfl rfl id rfl
      · split at heq
        · cases heq
          refine h.keep hm ⟨by simp, fun ht => absurd ht htiny⟩ rfl rfl rfl ?_ ?_
          · simp [isExpired, hidle]
          · simp [liveEntry, hidle]
        · cases heq
          exact h.keep hm ⟨fun _ hb => absurd rfl hb, hok.tiny⟩ rfl rfl rfl id rfl
  | addToEvictionQueue =>
      obtain ⟨hphase, heq⟩ := Option.ite_none_right_eq_some.1 hstep
      cases heq
      rw [PoolState.nodes, Multiset.cons_add]
      exact h.put hm hphase rfl rfl rfl rfl
  | expire =>
      obtain ⟨⟨hidle, -⟩, heq⟩ := Option.ite_none_right_eq_some.1 hstep
      cases heq
      refine h.keep hm ⟨by simp, fun ht => ⟨(hok.tiny ht).1, by simp⟩⟩ rfl rfl rfl ?_ ?_
      · simp [isExpired]
      · simp [liveEntry, hidle, PoolState.setBlock]
  | destroy cpu =>
      obtain ⟨hphase, heq⟩ := Option.ite_none_right_eq_some.1 hstep
      cases heq
      have hflag : (m.hasQueueEntry && m.bufferType != .tinyBuffer) = m.hasQueueEntry := by
        by_cases ht : m.bufferType = .tinyBuffer
        · simp [(hok.tiny ht).1]
        · simp [ht]
      refine h.keep hm ⟨fun _ hb => absurd rfl hb, fun ht => ⟨(hok.tiny ht).1, ?_⟩⟩ rfl rfl rfl ?_ ?_
      · simp [BlockMemory.unload]
      · simp [isExpired, BlockMemory.unload]
      · simp [liveEntry, BlockMemory.unload, hphase, hflag]
  | setDestroyBufferUpon upon =>
      cases (Option.ite_none_right_eq_some.1 hstep).2
      exact h.keep hm ⟨hok.found, hok.tiny⟩ rfl rfl rfl id rfl

theorem step {limit : Nat} {s t : PoolState} {op : PoolOp}
    (h : Queued s.blocks s.nodes s.totalDeadNodes)
    (hstep : poolStep limit s op = some t) : Queued t.blocks t.nodes t.totalDeadNodes := by
  cases op with
  | registerBlock blockAllocSize =>
      cases hstep
      exact h.append rfl rfl rfl
  | requireBuffer | setTemporaryDirectory | flush =>
      cases hstep
      exact h
  | reserve | grant | release | giveUp =>
      cases (Option.ite_none_right_eq_some.1 hstep).2
      exact h
  | registerMemory | registerSmallMemory =>
      cases (Option.ite_none_right_eq_some.1 hstep).2
      exact h.append rfl rfl rfl
  | block b op =>
      obtain ⟨m, hm, hstep⟩ := Option.bind_eq_some_iff.1 hstep
      exact h.blockStep hm hstep
  | dequeue node =>
      obtain ⟨hn, heq⟩ := Option.ite_none_right_eq_some.1 hstep
      cases heq
      rw [PoolState.nodes, Multiset.add_cons, ← Multiset.cons_add, Multiset.cons_erase hn]
      exact h
  | evict node reuse written cpu =>
      obtain ⟨m, hm, hstep⟩ := Option.bind_eq_some_iff.1 hstep
      obtain ⟨⟨hn, hphase⟩, heq⟩ := Option.ite_none_right_eq_some.1 hstep
      rw [PoolState.nodes, ← Multiset.cons_erase hn, Multiset.add_cons] at h
      dsimp only at heq
      by_cases hdead : node.isDead s.blocks = true
      · rw [if_pos hdead] at heq
        cases heq
        exact h.drop hdead
      · rw [if_neg hdead] at heq
        obtain ⟨hidle, hseq⟩ := live_of_not_dead hm hphase hdead
        obtain ⟨b, q⟩ := node
        cases hseq
        exact Queued.evictBlock (s := { s with dequeued := s.dequeued.erase _ }) hm hidle h
          (Option.some.inj heq).symm
  | purge node wasAlive =>
      obtain ⟨⟨hn, hdead⟩, heq⟩ := Option.ite_none_right_eq_some.1 hstep
      rw [PoolState.nodes, ← Multiset.cons_erase hn, Multiset.add_cons] at h
      cases wasAlive with
      | true =>
          cases heq
          rw [PoolState.nodes, Multiset.cons_add]
          exact h
      | false =>
          cases heq
          exact h.drop (hdead.resolve_left Bool.false_ne_true)

theorem of_reachable {maximumMemory : Nat} {s : PoolState}
    (h : (bufferPoolLts maximumMemory).Reachable s) :
    Queued s.blocks s.nodes s.totalDeadNodes := by
  refine h.invariant (I := fun s => Queued s.blocks s.nodes s.totalDeadNodes) ?_
    fun _ _ _ _ hinv hstep => hinv.step hstep
  rintro s rfl
  constructor <;> simp [PoolState.start, PoolState.nodes]

end Queued

end MiniDuck
