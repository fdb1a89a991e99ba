import MiniDuck.MetadataStream

/-!
# What a metadata writer leaves behind

Seen as bytes, a chain of sub-blocks is one stream: byte `j` is in the
`j / room`-th sub-block, where `room` is the size without the pointer to
the next one (`streamByte`). `Stored` says that the chain is linked and
holds what was written, `WriterAt` where its writer stands.

Every call keeps both (`nextBlock_spec`, `writeData_spec`,
`getMetaBlockPointer_spec`, `flush_spec`), and only touches sub-blocks
that are its own or were not occupied (`Grows`). A write can fail where
an allocation fails, and on a writer without a sub-block
(`writeData_error`).
-/

namespace MiniDuck

open MetadataManager

theorem BlockSize.pointerSize_lt (b : BlockSize) : pointerSize < b.metadataBlockSize := by
  have hlarge := b.large
  unfold minBlockSize at hlarge
  unfold BlockSize.metadataBlockSize metadataBlockCount pointerSize
  omega

/-! ## Pointers and bytes -/

variable {p : MetadataPointer}

theorem getDiskPointer_eq (hp : p.blockIndex < 2 ^ 56) :
    p.getDiskPointer = p.index * 2 ^ 56 + p.blockIndex := by
  unfold MetadataPointer.getDiskPointer
  rw [Nat.or_comm, ← Nat.shiftLeft_add_eq_or_of_lt hp, Nat.shiftLeft_eq]

def MetadataPointer.InFile (p : MetadataPointer) : Prop :=
  p.blockIndex < 2 ^ 56 ∧ p.index < metadataBlockCount

theorem getDiskPointer_lt (hp : p.InFile) : p.getDiskPointer < noNextBlock := by
  have hi := hp.2
  have hb := hp.1
  unfold metadataBlockCount at hi
  rw [getDiskPointer_eq hp.1, noNextBlock]
  omega

theorem getBlockId_getDiskPointer (hp : p.InFile) (offset : Nat) :
    MetaBlockPointer.getBlockId ⟨p.getDiskPointer, offset⟩ = p.blockIndex := by
  have hb := hp.1
  show p.getDiskPointer % 2 ^ 56 = p.blockIndex
  rw [getDiskPointer_eq hb]
  omega

theorem getBlockIndex_getDiskPointer (hp : p.InFile) (offset : Nat) :
    MetaBlockPointer.getBlockIndex ⟨p.getDiskPointer, offset⟩ = p.index := by
  have hb := hp.1
  show p.getDiskPointer >>> 56 = p.index
  rw [getDiskPointer_eq hb, Nat.shiftRight_eq_div_pow]
  omega

theorem fromDiskPointer_getDiskPointer {m : MetadataManager} (hp : p.InFile)
    (hm : m.blocks p.blockIndex ≠ none) (offset : Nat) :
    m.fromDiskPointer ⟨p.getDiskPointer, offset⟩ = .ok p := by
  obtain ⟨block, hblock⟩ := Option.ne_none_iff_exists'.1 hm
  rw [MetadataManager.fromDiskPointer, getBlockId_getDiskPointer hp,
    getBlockIndex_getDiskPointer hp, if_neg (Nat.not_le_of_lt hp.2), hblock]

theorem registerDiskPointer_getDiskPointer {m : MetadataManager} (hp : p.InFile)
    (hm : m.blocks p.blockIndex ≠ none) (offset : Nat) :
    m.registerDiskPointer ⟨p.getDiskPointer, offset⟩ = .ok (m, p) := by
  obtain ⟨block, hblock⟩ := Option.ne_none_iff_exists'.1 hm
  rw [MetadataManager.registerDiskPointer, getBlockId_getDiskPointer hp, hblock]
  simp only
  rw [fromDiskPointer_getDiskPointer hp hm]
  rfl

variable {bytes : List UInt8} {offset : Nat}

theorem poke_of_lt {j : Nat} (memory : Nat → UInt8) (h : j < offset) :
    poke bytes offset memory j = memory j :=
  if_neg fun hc => absurd hc.1 (Nat.not_le_of_lt h)

theorem poke_of_ge {j : Nat} (memory : Nat → UInt8) (h : offset + bytes.length ≤ j) :
    poke bytes offset memory j = memory j :=
  if_neg fun hc => absurd hc.2 (Nat.not_lt_of_le h)

variable {i : Nat}

theorem poke_inside (memory : Nat → UInt8) (h : i < bytes.length) :
    poke bytes offset memory (offset + i) = bytes.getD i 0 := by
  rw [poke, if_pos ⟨Nat.le_add_right _ _, Nat.add_lt_add_left h _⟩, Nat.add_sub_cancel_left]

@[simp] theorem length_peek (memory : Nat → UInt8) (offset n : Nat) :
    (peek memory offset n).length = n := by
  simp [peek]

theorem peek_congr {f g : Nat → UInt8} {n : Nat} (h : ∀ j < n, f (offset + j) = g (offset + j)) :
    peek f offset n = peek g offset n :=
  List.map_congr_left fun j hj => h j (List.mem_range.1 hj)

theorem peek_poke (bytes : List UInt8) (offset : Nat) (memory : Nat → UInt8) :
    peek (poke bytes offset memory) offset bytes.length = bytes := by
  apply List.ext_getElem (length_peek _ _ _)
  intro j _ hj
  simp only [peek, List.getElem_map, List.getElem_range]
  rw [poke_inside memory hj, List.getD_eq_getElem?_getD, List.getElem?_eq_getElem hj,
    Option.getD_some]

namespace MetadataSpace

variable {s : MetadataSpace} {p q : MetadataPointer}

theorem copyTo_other (h : q ≠ p) (offset : Nat) (bytes : List UInt8) :
    (s.copyTo p offset bytes).data q = s.data q :=
  Function.update_of_ne h _ _

theorem copyTo_self (offset : Nat) (bytes : List UInt8) :
    (s.copyTo p offset bytes).data p = poke bytes offset (s.data p) :=
  Function.update_self _ _ _

theorem copyTo_before {offset j : Nat} (bytes : List UInt8) (hj : j < offset) :
    (s.copyTo p offset bytes).data q j = s.data q j := by
  by_cases h : q = p
  · rw [h, copyTo_self, poke_of_lt _ hj]
  · rw [copyTo_other h]

/-- The bytes of the stream are not those of the pointer. -/
theorem storeNext_content {next j : Nat} (hj : pointerSize ≤ j) :
    (s.storeNext p next).data q j = s.data q j := by
  by_cases h : q = p
  · rw [h, storeNext, copyTo_self, poke_of_ge]
    rw [length_storeBytes]
    omega
  · rw [storeNext, copyTo_other h]

theorem loadNext_congr {s' : MetadataSpace}
    (h : ∀ j < pointerSize, s'.data q j = s.data q j) : s'.loadNext q = s.loadNext q := by
  rw [loadNext, loadNext, peek_congr (g := s.data q)]
  intro j hj
  rw [Nat.zero_add]
  exact h j hj

theorem loadNext_copyTo {offset : Nat} (bytes : List UInt8) (h : pointerSize ≤ offset) :
    (s.copyTo p offset bytes).loadNext q = s.loadNext q :=
  loadNext_congr fun _ hj => copyTo_before bytes (Nat.lt_of_lt_of_le hj h)

theorem loadNext_storeNext_self {next : Nat} (h : next < 2 ^ 64) :
    (s.storeNext p next).loadNext p = next := by
  have hlen : (storeBytes pointerSize next).length = pointerSize := length_storeBytes _ _
  have hpeek := peek_poke (storeBytes pointerSize next) 0 (s.data p)
  rw [hlen] at hpeek
  rw [loadNext, storeNext, copyTo_self, hpeek]
  rw [loadWord_storeBytes]
  exact Nat.mod_eq_of_lt h

theorem loadNext_storeNext_other {next : Nat} (h : q ≠ p) :
    (s.storeNext p next).loadNext q = s.loadNext q :=
  loadNext_congr fun _ _ => by rw [storeNext, copyTo_other h]

end MetadataSpace

/-! ## The stream in a chain -/

def room (size : Nat) : Nat := size - pointerSize

def chainAt (chain : List MetadataPointer) (i : Nat) : MetadataPointer := chain.getD i ⟨0, 0⟩

/-- Byte `j` of the stream in the chain. -/
def streamByte (size : Nat) (s : MetadataSpace) (chain : List MetadataPointer) (j : Nat) : UInt8 :=
  s.data (chainAt chain (j / room size)) (pointerSize + j % room size)

/-- The sub-blocks are linked in their order, and the stream starts with what
was written. -/
structure Stored (size : Nat) (s : MetadataSpace) (chain : List MetadataPointer)
    (written : List UInt8) : Prop where
  nodup : chain.Nodup
  links : ∀ i < chain.length, s.loadNext (chainAt chain i) =
    if i + 1 < chain.length then (chainAt chain (i + 1)).getDiskPointer else noNextBlock
  content : ∀ j < written.length, streamByte size s chain j = written.getD j 0

/-- Where a writer stands: it has not begun, or it is within the last sub-block
of its chain, with so many bytes behind it. -/
inductive WriterAt (size : Nat) (w : MetadataWriter) (chain : List MetadataPointer)
    (n : Nat) : Prop
  | fresh (hchain : chain = []) (hn : n = 0) (hpin : w.pinned = false) (hcap : w.capacity = 0)
      (hoff : w.offset = 0)
  | within (init : List MetadataPointer) (hchain : chain = init ++ [w.currentPointer])
      (hn : n = init.length * room size + (w.offset - pointerSize)) (hcap : w.capacity = size)
      (hlow : pointerSize ≤ w.offset) (hhigh : w.offset ≤ size)

theorem div_mod_within {r n : Nat} (h : r < n) : (i * n + r) / n = i ∧ (i * n + r) % n = r := by
  have hn : 0 < n := by omega
  constructor
  · rw [Nat.add_comm, Nat.add_mul_div_right _ _ hn, Nat.div_eq_of_lt h, Nat.zero_add]
  · rw [Nat.add_comm, Nat.add_mul_mod_self_right, Nat.mod_eq_of_lt h]

variable {init : List MetadataPointer}

theorem chainAt_append_left {rest : List MetadataPointer} (h : i < init.length) :
    chainAt (init ++ rest) i = chainAt init i := by
  rw [chainAt, chainAt, List.getD_eq_getElem?_getD, List.getD_eq_getElem?_getD,
    List.getElem?_append_left h]

theorem chainAt_concat (init : List MetadataPointer) (p : MetadataPointer) :
    chainAt (init ++ [p]) init.length = p := by
  rw [chainAt, List.getD_eq_getElem?_getD, List.getElem?_concat_length, Option.getD_some]

variable {chain : List MetadataPointer}

theorem chainAt_mem (h : i < chain.length) : chainAt chain i ∈ chain := by
  rw [chainAt, List.getD_eq_getElem?_getD, List.getElem?_eq_getElem h, Option.getD_some]
  exact List.getElem_mem h

theorem chainAt_ne_last (hnd : (init ++ [p]).Nodup) (hi : i < init.length) :
    chainAt (init ++ [p]) i ≠ p := by
  rw [chainAt_append_left hi]
  intro he
  have hdisj := (List.nodup_append.1 hnd).2.2
  exact hdisj _ (chainAt_mem hi) p (List.mem_singleton_self p) he

variable {size : Nat}

/-- A byte before position `i * room + r` is in an earlier sub-block than the
`i`-th, or in the `i`-th before offset `r`. -/
theorem div_room_cases {r j : Nat} (h : j < i * room size + r) (hr : r ≤ room size) :
    j / room size < i ∨ j / room size = i ∧ j % room size < r := by
  have hdiv := Nat.div_add_mod j (room size)
  by_cases hlt : j / room size < i
  · exact Or.inl hlt
  · have hmul : i * room size ≤ j / room size * room size :=
      Nat.mul_le_mul_right _ (Nat.le_of_not_lt hlt)
    have hpos : 0 < room size := by
      by_contra hzero
      have hr0 : r = 0 := by omega
      have hroom : room size = 0 := by omega
      rw [hroom, hr0] at h
      omega
    have hsmall := Nat.mod_lt j hpos
    rw [Nat.mul_comm] at hdiv
    have heq : j / room size = i := by
      by_contra hne
      have hge : i + 1 ≤ j / room size := by omega
      have := Nat.mul_le_mul_right (room size) hge
      rw [Nat.succ_mul] at this
      omega
    rw [heq] at hdiv
    exact Or.inr ⟨heq, by omega⟩

theorem div_room_lt {j : Nat} (h : j < i * room size) : j / room size < i := by
  rcases div_room_cases (r := 0) h (Nat.zero_le _) with hdiv | ⟨-, hmod⟩
  · exact hdiv
  · exact absurd hmod (Nat.not_lt_zero _)

theorem getD_append_left {more : List UInt8} {j : Nat} (h : j < bytes.length) :
    (bytes ++ more).getD j 0 = bytes.getD j 0 := by
  rw [List.getD_eq_getElem?_getD, List.getD_eq_getElem?_getD, List.getElem?_append_left h]

theorem getD_append_add (bytes more : List UInt8) (j : Nat) :
    (bytes ++ more).getD (bytes.length + j) 0 = more.getD j 0 := by
  rw [List.getD_eq_getElem?_getD, List.getD_eq_getElem?_getD,
    List.getElem?_append_right (Nat.le_add_right _ _), Nat.add_sub_cancel_left]

variable {s : MetadataSpace} {written : List UInt8}

theorem Stored.copyTo (h : Stored size s (init ++ [p]) written) (hlow : pointerSize ≤ offset)
    (hlen : written.length = init.length * room size + (offset - pointerSize))
    (hfit : offset + bytes.length ≤ size) :
    Stored size (s.copyTo p offset bytes) (init ++ [p]) (written ++ bytes) := by
  have hroom : offset - pointerSize + bytes.length ≤ room size := by
    unfold room
    omega
  refine ⟨h.nodup, fun i hi => ?_, fun j hj => ?_⟩
  · rw [MetadataSpace.loadNext_copyTo bytes hlow]
    exact h.links i hi
  · by_cases hold : j < written.length
    · rw [getD_append_left hold, ← h.content j hold, streamByte, streamByte]
      rw [hlen] at hold
      rcases div_room_cases hold (by omega) with hdiv | ⟨-, hmod⟩
      · rw [MetadataSpace.copyTo_other (chainAt_ne_last h.nodup hdiv)]
      · exact MetadataSpace.copyTo_before bytes (by omega)
    · obtain ⟨k, rfl⟩ := Nat.exists_eq_add_of_le (Nat.le_of_not_lt hold)
      rw [List.length_append] at hj
      have hk : k < bytes.length := by omega
      have hpos := div_mod_within (i := init.length) (r := offset - pointerSize + k)
        (n := room size) (by omega)
      rw [← Nat.add_assoc, ← hlen] at hpos
      rw [getD_append_add, streamByte, hpos.1, hpos.2, chainAt_concat,
        MetadataSpace.copyTo_self, ← Nat.add_assoc, Nat.add_sub_cancel' hlow,
        poke_inside _ hk]

theorem Stored.congr {s' : MetadataSpace} (h : Stored size s chain written)
    (hlen : written.length ≤ chain.length * room size) (hdata : ∀ p ∈ chain, s'.data p = s.data p) :
    Stored size s' chain written := by
  refine ⟨h.nodup, fun i hi => ?_, fun j hj => ?_⟩
  · rw [← h.links i hi]
    exact MetadataSpace.loadNext_congr fun k _ => by rw [hdata _ (chainAt_mem hi)]
  · rw [← h.content j hj, streamByte, streamByte,
      hdata _ (chainAt_mem (div_room_lt (Nat.lt_of_lt_of_le hj hlen)))]

theorem Stored.of_append {more : List UInt8} (h : Stored size s chain (written ++ more)) :
    Stored size s chain written := by
  refine ⟨h.nodup, h.links, fun j hj => ?_⟩
  rw [h.content j (by rw [List.length_append]; omega), getD_append_left hj]

theorem Stored.first (s : MetadataSpace) (p : MetadataPointer) :
    Stored size (s.storeNext p noNextBlock) [p] [] := by
  refine ⟨List.nodup_singleton p, fun i hi => ?_, fun j hj => absurd hj (Nat.not_lt_zero j)⟩
  have hzero : i = 0 := by
    rw [List.length_singleton] at hi
    omega
  rw [hzero]
  exact MetadataSpace.loadNext_storeNext_self (by decide)

theorem Stored.link {cur : MetadataPointer} (h : Stored size s (init ++ [cur]) written)
    (hlen : written.length ≤ (init ++ [cur]).length * room size) (hfresh : p ∉ init ++ [cur])
    (hp : p.InFile) : Stored size ((s.storeNext cur p.getDiskPointer).storeNext p noNextBlock)
      (init ++ [cur] ++ [p]) written := by
  have hlength : (init ++ [cur] ++ [p]).length = init.length + 2 := by simp
  have hcur : cur ≠ p := by
    intro he
    exact hfresh (he ▸ List.mem_append_right _ (List.mem_singleton_self _))
  refine ⟨?_, fun i hi => ?_, fun j hj => ?_⟩
  · refine List.nodup_append.2 ⟨h.nodup, List.nodup_singleton p, ?_⟩
    intro a ha b hb he
    rw [List.mem_singleton.1 hb] at he
    exact hfresh (he ▸ ha)
  · rw [hlength] at hi ⊢
    by_cases hlast : i = (init ++ [cur]).length
    · have hend : ¬ i + 1 < init.length + 2 := by
        rw [hlast, List.length_append, List.length_singleton]
        omega
      rw [if_neg hend, hlast, chainAt_concat]
      exact MetadataSpace.loadNext_storeNext_self (by decide)
    · have hold : i < (init ++ [cur]).length := by
        rw [List.length_append, List.length_singleton] at hlast ⊢
        omega
      have hsucc : i + 1 < init.length + 2 := by
        rw [List.length_append, List.length_singleton] at hold
        omega
      have hne : chainAt (init ++ [cur]) i ≠ p := by
        intro he
        exact hfresh (he ▸ chainAt_mem hold)
      rw [if_pos hsucc, chainAt_append_left hold, MetadataSpace.loadNext_storeNext_other hne]
      by_cases hcase : i < init.length
      · have hnext : i + 1 < (init ++ [cur]).length := by
          rw [List.length_append, List.length_singleton]
          omega
        rw [MetadataSpace.loadNext_storeNext_other (chainAt_ne_last h.nodup hcase),
          h.links i hold, if_pos hnext, chainAt_append_left hnext]
      · have heq : i = init.length := by
          rw [List.length_append, List.length_singleton] at hold
          omega
        have hlast' : i + 1 = (init ++ [cur]).length := by
          rw [heq, List.length_append, List.length_singleton]
        rw [hlast', chainAt_concat, heq, chainAt_concat]
        exact MetadataSpace.loadNext_storeNext_self
          (Nat.lt_trans (getDiskPointer_lt hp) (by decide))
  · have hdiv := div_room_lt (Nat.lt_of_lt_of_le hj hlen)
    rw [← h.content j hj, streamByte, streamByte, chainAt_append_left hdiv,
      MetadataSpace.storeNext_content (Nat.le_add_right _ _),
      MetadataSpace.storeNext_content (Nat.le_add_right _ _)]

/-! ## Calls on a writer -/

/-- A sound free list and block ids that fit into a pointer. -/
structure SpaceOk (s : MetadataSpace) : Prop where
  lists : s.manager.FreeListsOk
  ids : ∀ b, s.manager.blocks b ≠ none → b < 2 ^ 56

/-- What a call on the writer of a chain does to the space: the chain grows by
sub-blocks that were not occupied, and no other occupied one changes. -/
structure Grows (s s' : MetadataSpace) (chain chain' : List MetadataPointer) : Prop where
  ok : SpaceOk s'
  longer : ∃ new, chain' = chain ++ new
  keep : ∀ q, s.manager.IsOccupied q → s'.manager.IsOccupied q
  fresh : ∀ q ∈ chain', q ∈ chain ∨ ¬s.manager.IsOccupied q
  taken : ∀ q ∈ chain', q ∈ chain ∨ s'.manager.IsOccupied q
  frame : ∀ q, s.manager.IsOccupied q → q ∉ chain → s'.data q = s.data q

theorem Grows.refl (hs : SpaceOk s) (chain : List MetadataPointer) : Grows s s chain chain :=
  ⟨hs, ⟨[], (List.append_nil _).symm⟩, fun _ h => h, fun _ h => Or.inl h, fun _ h => Or.inl h,
    fun _ _ _ => rfl⟩

theorem Grows.trans {s₁ s₂ s₃ : MetadataSpace} {c₁ c₂ c₃ : List MetadataPointer}
    (h : Grows s₁ s₂ c₁ c₂) (h' : Grows s₂ s₃ c₂ c₃) : Grows s₁ s₃ c₁ c₃ := by
  obtain ⟨new, hnew⟩ := h.longer
  obtain ⟨new', hnew'⟩ := h'.longer
  refine ⟨h'.ok, ⟨new ++ new', ?_⟩, fun q hq => h'.keep q (h.keep q hq), fun q hq => ?_,
    fun q hq => ?_, fun q hq hnot => ?_⟩
  · rw [hnew', hnew, List.append_assoc]
  · rcases h'.fresh q hq with hq | hq
    · exact h.fresh q hq
    · exact Or.inr fun hocc => hq (h.keep q hocc)
  · rcases h'.taken q hq with hq | hq
    · exact (h.taken q hq).imp_right (h'.keep q)
    · exact Or.inr hq
  · rw [h'.frame q (h.keep q hq), h.frame q hq hnot]
    intro hmem
    rcases h.fresh q hmem with hmem | hfree
    · exact hnot hmem
    · exact hfree hq

/-- Everything about one writer: its place, and its stream in the chain. -/
structure WriterOk (size : Nat) (s : MetadataSpace) (w : MetadataWriter)
    (chain : List MetadataPointer) (written : List UInt8) : Prop where
  place : WriterAt size w chain written.length
  stored : Stored size s chain written
  occupied : ∀ q ∈ chain, s.manager.IsOccupied q

theorem WriterAt.length_le {n : Nat} {w : MetadataWriter} (h : WriterAt size w chain n) :
    n ≤ chain.length * room size := by
  cases h with
  | fresh hchain hn => exact hn ▸ Nat.zero_le _
  | within init hchain hn hcap hlow hhigh =>
      rw [hchain, hn, List.length_append, List.length_singleton, Nat.succ_mul]
      unfold room
      omega

theorem MetadataManager.IsOccupied.inFile (hs : SpaceOk s) (h : s.manager.IsOccupied p) :
    p.InFile := by
  obtain ⟨hi, block, hb, -⟩ := h
  exact ⟨hs.ids _ (by simp [hb]), hi⟩

theorem allocateHandle_space {s' : MetadataSpace} {choice : Option Nat × Nat} (hs : SpaceOk s)
    (hnext : choice.2 < 2 ^ 56) (h : s.allocateHandle choice = .ok (s', p)) :
    SpaceOk s' ∧ ¬s.manager.IsOccupied p ∧ s'.manager.IsOccupied p ∧
    (∀ q, s.manager.IsOccupied q → s'.manager.IsOccupied q ∧ s'.data q = s.data q) := by
  unfold MetadataSpace.allocateHandle at h
  cases hm : s.manager.allocateHandle choice.1 choice.2 with
  | error e =>
      rw [hm] at h
      cases h
  | ok res =>
      cases res with
      | none =>
          rw [hm] at h
          cases h
      | some res =>
          obtain ⟨m, q⟩ := res
          have ha := allocateHandle_spec hm
          have htaken := ha.taken hs.lists
          obtain ⟨hi, block, hb, hnot⟩ := htaken
          have hpin : m.pin q = .ok q := by
            rw [MetadataManager.pin, hb]
          rw [hm] at h
          simp only [hpin] at h
          cases h
          refine ⟨⟨ha.lists hs.lists, fun b hb => ?_⟩, ha.fresh, ⟨hi, block, hb, hnot⟩,
            fun q' hq' => ⟨ha.occupied q' hq', if_neg ?_⟩⟩
          · rcases ha.ids b hb with hb | rfl
            · exact hs.ids b hb
            · exact hnext
          · rintro ⟨heq, hnone⟩
            obtain ⟨-, block', hb', -⟩ := hq'
            rw [heq, hnone] at hb'
            cases hb'

namespace MetadataWriter

variable {size : Nat} {env : MetadataManager → Option Nat × Nat} {s s' : MetadataSpace}
  {w w' : MetadataWriter} {chain : List MetadataPointer} {written bytes : List UInt8}

theorem basePtr_ok {p : MetadataPointer} (h : w.basePtr = .ok p) :
    w.pinned = true ∧ p = w.currentPointer := by
  unfold basePtr at h
  split_ifs at h with hpin
  cases h
  exact ⟨hpin, rfl⟩

/-- A writer at the end of its sub-block goes on in a new one. -/
theorem nextBlock_spec (henv : Respects env) (hs : SpaceOk s)
    (hsize : pointerSize < size) (hw : WriterOk size s w chain written)
    (hfull : w.capacity ≤ w.offset) (h : w.nextBlock size env s = .ok (s', w')) :
    ∃ chain', Grows s s' chain chain' ∧ WriterOk size s' w' chain' written ∧
      w'.capacity = size ∧ w'.offset = pointerSize ∧ w'.pinned = true := by
  unfold nextBlock at h
  cases ha : s.allocateHandle (env s.manager) with
  | error e =>
      rw [ha] at h
      cases h
  | ok res =>
      obtain ⟨s₁, p⟩ := res
      obtain ⟨hs₁, hfree, htaken, hkeep⟩ := allocateHandle_space hs (henv s.manager).2 ha
      have hfile := htaken.inFile hs₁
      have hnot : p ∉ chain := fun hm => hfree (hw.occupied p hm)
      have hst₁ := hw.stored.congr hw.place.length_le
        (fun q hq => (hkeep q (hw.occupied q hq)).2)
      have hpast : ∀ q, s.manager.IsOccupied q → q ≠ p := fun q hq he => hfree (he ▸ hq)
      rw [ha] at h
      have hgrows : ∀ s₂ : MetadataSpace, s₂.manager = s₁.manager →
          (∀ q, q ∉ chain → q ≠ p → s₂.data q = s₁.data q) →
          Grows s s₂ chain (chain ++ [p]) := by
        intro s₂ hm hd
        refine ⟨⟨hm ▸ hs₁.lists, hm ▸ hs₁.ids⟩, ⟨[p], rfl⟩, fun q hq => hm ▸ (hkeep q hq).1,
          fun q hq => ?_, fun q hq => ?_, fun q hq hout => ?_⟩
        · rcases List.mem_append.1 hq with hq | hq
          · exact Or.inl hq
          · exact Or.inr (List.mem_singleton.1 hq ▸ hfree)
        · rcases List.mem_append.1 hq with hq | hq
          · exact Or.inl hq
          · exact Or.inr (List.mem_singleton.1 hq ▸ hm ▸ htaken)
        · rw [hd q hout (hpast q hq), (hkeep q hq).2]
      have hocc : ∀ s₂ : MetadataSpace, s₂.manager = s₁.manager →
          ∀ q ∈ chain ++ [p], s₂.manager.IsOccupied q := by
        intro s₂ hm q hq
        rw [hm]
        rcases List.mem_append.1 hq with hq | hq
        · exact (hkeep q (hw.occupied q hq)).1
        · exact List.mem_singleton.1 hq ▸ htaken
      cases hw.place with
      | fresh hchain hn hpin hcap hoff =>
          simp only [bind, Except.bind, pure, Except.pure, hcap, Nat.lt_irrefl, gt_iff_lt,
            if_false] at h
          cases h
          have hnil : written = [] := List.eq_nil_of_length_eq_zero hn
          refine ⟨chain ++ [p], hgrows _ rfl fun q _ hq => MetadataSpace.copyTo_other hq _ _,
            ⟨?_, ?_, hocc _ rfl⟩, rfl, rfl, rfl⟩
          · refine .within chain rfl ?_ rfl (Nat.le_refl _) (Nat.le_of_lt hsize)
            rw [hn, hchain, List.length_nil, Nat.zero_mul, Nat.sub_self]
          · rw [hchain, hnil]
            exact Stored.first s₁ p
      | within init hchain hn hcap hlow hhigh =>
          have hpos : 0 < size := Nat.lt_of_le_of_lt (Nat.zero_le _) hsize
          cases hb : w.basePtr with
          | error e =>
              simp only [bind, Except.bind, pure, Except.pure, hcap, gt_iff_lt, hpos, if_true,
                hb] at h
              cases h
          | ok base =>
              obtain ⟨-, rfl⟩ := basePtr_ok hb
              simp only [bind, Except.bind, pure, Except.pure, hcap, gt_iff_lt, hpos, if_true,
                hb] at h
              cases h
              have hoff : w.offset = size := by omega
              have hcur : w.currentPointer ∈ chain := by
                rw [hchain]
                exact List.mem_append_right _ (List.mem_singleton_self _)
              refine ⟨chain ++ [p], hgrows _ rfl fun q hq hne => ?_,
                ⟨?_, ?_, hocc _ rfl⟩, rfl, rfl, rfl⟩
              · have hne' : q ≠ w.currentPointer := fun he => hq (he ▸ hcur)
                rw [MetadataSpace.storeNext, MetadataSpace.copyTo_other hne,
                  MetadataSpace.storeNext, MetadataSpace.copyTo_other hne']
              · refine .within chain rfl ?_ rfl (Nat.le_refl _) (Nat.le_of_lt hsize)
                rw [hn, hchain, hoff, List.length_append, List.length_singleton, Nat.succ_mul,
                  Nat.sub_self]
                rfl
              · have hlen := hw.place.length_le
                subst hchain
                exact hst₁.link hlen hnot hfile

/-- Bytes that fit into the sub-block are appended to the stream. -/
theorem copyData_spec (hs : SpaceOk s) (hw : WriterOk size s w chain written)
    (hfit : w.offset + bytes.length ≤ w.capacity)
    (h : w.copyData s bytes = .ok (s', w')) :
    Grows s s' chain chain ∧ WriterOk size s' w' chain (written ++ bytes) ∧
      w'.capacity = w.capacity ∧ w'.offset = w.offset + bytes.length := by
  unfold copyData at h
  cases hb : w.basePtr with
  | error e =>
      rw [hb] at h
      cases h
  | ok base =>
      obtain ⟨hpin, rfl⟩ := basePtr_ok hb
      rw [hb] at h
      cases h
      cases hw.place with
      | fresh hchain hn hunpinned =>
          rw [hpin] at hunpinned
          cases hunpinned
      | within init hchain hn hcap hlow hhigh =>
          subst hchain
          rw [hcap] at hfit
          refine ⟨⟨⟨hs.lists, hs.ids⟩, ⟨[], (List.append_nil _).symm⟩, fun q hq => hq, fun q hq => Or.inl hq,
            fun q hq => Or.inl hq, fun q _ hout => ?_⟩, ⟨?_, ?_, hw.occupied⟩, rfl, rfl⟩
          · refine MetadataSpace.copyTo_other ?_ _ _
            rintro rfl
            exact hout (List.mem_append_right _ (List.mem_singleton_self _))
          · refine .within init rfl ?_ hcap (Nat.le_trans hlow (Nat.le_add_right _ _)) hfit
            rw [List.length_append, hn]
            simp only
            omega
          · exact hw.stored.copyTo hlow hn hfit

theorem WriterAt.offset_le {n : Nat} (h : WriterAt size w chain n) : w.offset ≤ w.capacity := by
  cases h with
  | fresh hchain hn hpin hcap hoff => rw [hcap, hoff]
  | within init hchain hn hcap hlow hhigh => exact hcap ▸ hhigh

theorem fill_spec (hs : SpaceOk s) (hw : WriterOk size s w chain written)
    (hover : w.offset + bytes.length > w.capacity)
    (h : w.fill s bytes = .ok (s', w')) :
    Grows s s' chain chain ∧
      WriterOk size s' w' chain (written ++ bytes.take (w.capacity - w.offset)) ∧
      w'.capacity ≤ w'.offset := by
  have hle := WriterAt.offset_le hw.place
  have hlen : (bytes.take (w.capacity - w.offset)).length = w.capacity - w.offset := by
    rw [List.length_take]
    omega
  unfold fill at h
  by_cases hc : w.capacity - w.offset > 0
  · rw [if_pos hc] at h
    obtain ⟨hgrows, hw', hcap, hoff⟩ := copyData_spec hs hw (by omega) h
    exact ⟨hgrows, hw', by omega⟩
  · rw [if_neg hc] at h
    cases h
    have hzero : w.capacity - w.offset = 0 := by omega
    rw [hzero, List.take_zero, List.append_nil]
    exact ⟨Grows.refl hs chain, hw, by omega⟩

/-- The loop of `WriteData` appends all its bytes. -/
theorem writeLoop_spec (henv : Respects env) (hsize : pointerSize < size) :
    (fuel : Nat) → {s s' : MetadataSpace} → {w w' : MetadataWriter} →
    {chain : List MetadataPointer} → {written bytes : List UInt8} → SpaceOk s →
    WriterOk size s w chain written →
    writeLoop size env fuel s w bytes = .ok (s', w') →
    ∃ chain', Grows s s' chain chain' ∧ WriterOk size s' w' chain' (written ++ bytes)
  | 0, _, _, _, _, _, _, _, _, _, h => by
      cases h
  | fuel + 1, s, s', w, w', chain, written, bytes, hs, hw, h => by
      rw [writeLoop] at h
      by_cases hover : w.offset + bytes.length > w.capacity
      · rw [if_pos hover] at h
        cases hfill : w.fill s bytes with
        | error e =>
            rw [hfill] at h
            cases h
        | ok res =>
            obtain ⟨s₁, w₁⟩ := res
            obtain ⟨hgrows, hw₁, hfull⟩ := fill_spec hs hw hover hfill
            simp only [bind, Except.bind, hfill] at h
            cases hnext : w₁.nextBlock size env s₁ with
            | error e =>
                rw [hnext] at h
                cases h
            | ok res =>
                obtain ⟨s₂, w₂⟩ := res
                obtain ⟨chain₂, hgrows₂, hw₂, -⟩ :=
                  nextBlock_spec henv hgrows.ok hsize hw₁ hfull hnext
                rw [hnext] at h
                obtain ⟨chain₃, hgrows₃, hw₃⟩ := writeLoop_spec henv hsize fuel hgrows₂.ok hw₂ h
                rw [List.append_assoc, List.take_append_drop] at hw₃
                exact ⟨chain₃, (hgrows.trans hgrows₂).trans hgrows₃, hw₃⟩
      · rw [if_neg hover] at h
        obtain ⟨hgrows, hw', -⟩ := copyData_spec hs hw (Nat.le_of_not_lt hover) h
        exact ⟨chain, hgrows, hw'⟩

theorem writeData_spec (henv : Respects env) (hsize : pointerSize < size) (hs : SpaceOk s)
    (hw : WriterOk size s w chain written) (h : w.writeData size env s bytes = .ok (s', w')) :
    ∃ chain', Grows s s' chain chain' ∧ WriterOk size s' w' chain' (written ++ bytes) :=
  writeLoop_spec henv hsize _ hs hw h

/-- The pointer that `GetMetaBlockPointer` returns is the place of the next byte. -/
theorem getMetaBlockPointer_spec {pointer : MetaBlockPointer} (henv : Respects env)
    (hsize : pointerSize < size) (hs : SpaceOk s) (hw : WriterOk size s w chain written)
    (h : w.getMetaBlockPointer size env s = .ok (pointer, s', w')) :
    ∃ chain', Grows s s' chain chain' ∧ WriterOk size s' w' chain' written ∧
      written.length / room size < chain'.length ∧
      pointer = ⟨(chainAt chain' (written.length / room size)).getDiskPointer,
        pointerSize + written.length % room size⟩ := by
  have hplace : ∀ {v : MetadataWriter} {s₁ : MetadataSpace} {c : List MetadataPointer},
      WriterOk size s₁ v c written → v.offset < v.capacity →
      written.length / room size < c.length ∧
      (⟨v.currentPointer.getDiskPointer, v.offset⟩ : MetaBlockPointer) =
        ⟨(chainAt c (written.length / room size)).getDiskPointer,
          pointerSize + written.length % room size⟩ := by
    intro v s₁ c hv hlt
    cases hv.place with
    | fresh hchain hn hpin hcap hoff =>
        rw [hcap] at hlt
        exact absurd hlt (Nat.not_lt_zero _)
    | within init hchain hn hcap hlow hhigh =>
        have hroom : v.offset - pointerSize < room size := by
          unfold room
          omega
        have hpos := div_mod_within (i := init.length) hroom
        rw [hn, hpos.1, hpos.2, hchain, chainAt_concat, Nat.add_sub_cancel' hlow,
          List.length_append, List.length_singleton]
        exact ⟨Nat.lt_succ_self _, rfl⟩
  unfold getMetaBlockPointer at h
  by_cases hfull : w.offset ≥ w.capacity
  · simp only [bind, Except.bind, if_pos hfull] at h
    cases hnext : w.nextBlock size env s with
    | error e =>
        rw [hnext] at h
        cases h
    | ok res =>
        obtain ⟨s₁, w₁⟩ := res
        obtain ⟨chain₁, hgrows, hw₁, hcap, hoff, -⟩ := nextBlock_spec henv hs hsize hw hfull hnext
        rw [hnext] at h
        cases h
        have hlt : w₁.offset < w₁.capacity := by
          rw [hcap, hoff]
          exact hsize
        exact ⟨chain₁, hgrows, hw₁, hplace hw₁ hlt⟩
  · simp only [bind, Except.bind, if_neg hfull] at h
    cases h
    exact ⟨chain, Grows.refl hs chain, hw, hplace hw (Nat.lt_of_not_le hfull)⟩

theorem flush_spec (hs : SpaceOk s) (hw : WriterOk size s w chain written)
    (h : w.flush s = .ok (s', w')) :
    Grows s s' chain chain ∧ WriterOk size s' w' chain written := by
  have hrelease : ∀ s₁ : MetadataSpace, WriterOk size s₁ w chain written →
      WriterOk size s₁ { w with pinned := false } chain written := by
    intro s₁ hw₁
    refine ⟨?_, hw₁.stored, hw₁.occupied⟩
    cases hw₁.place with
    | fresh hchain hn hpin hcap hoff => exact .fresh hchain hn rfl hcap hoff
    | within init hchain hn hcap hlow hhigh => exact .within init hchain hn hcap hlow hhigh
  unfold flush at h
  by_cases hroom : w.offset < w.capacity
  · simp only [bind, Except.bind, if_pos hroom] at h
    cases hb : w.basePtr with
    | error e =>
        rw [hb] at h
        cases h
    | ok base =>
        rw [hb] at h
        cases h
        have hcopy : w.copyData s (List.replicate (w.capacity - w.offset) 0) =
            .ok (s.copyTo base w.offset (List.replicate (w.capacity - w.offset) 0),
              { w with offset := w.offset +
                (List.replicate (w.capacity - w.offset) (0 : UInt8)).length }) := by
          rw [copyData, hb]
          rfl
        have hfit : w.offset + (List.replicate (w.capacity - w.offset) (0 : UInt8)).length ≤
            w.capacity := by
          rw [List.length_replicate]
          omega
        obtain ⟨hgrows, hw', -, -⟩ := copyData_spec hs hw hfit hcopy
        exact ⟨hgrows, hrelease _ ⟨hw.place, hw'.stored.of_append, hw'.occupied⟩⟩
  · simp only [bind, Except.bind, if_neg hroom] at h
    cases h
    exact ⟨Grows.refl hs chain, hrelease s hw⟩

/-! ### What can go wrong -/

variable {e : StreamError}

theorem allocateHandle_error {choice : Option Nat × Nat} (hs : SpaceOk s)
    (h : s.allocateHandle choice = .error e) : ∃ text, e = .allocation text := by
  unfold MetadataSpace.allocateHandle at h
  cases hm : s.manager.allocateHandle choice.1 choice.2 with
  | error text =>
      rw [hm] at h
      cases h
      exact ⟨_, rfl⟩
  | ok res =>
      cases res with
      | none =>
          rw [hm] at h
          cases h
          exact ⟨_, rfl⟩
      | some res =>
          obtain ⟨m, q⟩ := res
          obtain ⟨-, block, hb, -⟩ := (allocateHandle_spec hm).taken hs.lists
          have hpin : m.pin q = .ok q := by
            rw [MetadataManager.pin, hb]
          rw [hm] at h
          simp only [hpin] at h
          cases h

theorem nextBlock_error (hs : SpaceOk s) (hpin : w.capacity = 0 ∨ w.pinned = true)
    (h : w.nextBlock size env s = .error e) : ∃ text, e = .allocation text := by
  unfold nextBlock at h
  cases ha : s.allocateHandle (env s.manager) with
  | error e' =>
      rw [ha] at h
      cases h
      exact allocateHandle_error hs ha
  | ok res =>
      rw [ha] at h
      rcases hpin with hcap | hpin
      · simp only [bind, Except.bind, pure, Except.pure, hcap, Nat.lt_irrefl, gt_iff_lt,
          if_false] at h
        cases h
      · have hb : w.basePtr = .ok w.currentPointer := if_pos hpin
        by_cases hcap : w.capacity > 0
        · simp only [bind, Except.bind, pure, Except.pure, hcap, if_true, hb] at h
          cases h
        · simp only [bind, Except.bind, pure, Except.pure, hcap, if_false] at h
          cases h

theorem copyData_pinned (hpin : w.pinned = true) :
    w.copyData s bytes = .ok (s.copyTo w.currentPointer w.offset bytes,
      { w with offset := w.offset + bytes.length }) := by
  have hb : w.basePtr = .ok w.currentPointer := if_pos hpin
  rw [copyData, hb]
  rfl

theorem writeLoop_error (henv : Respects env) (hsize : pointerSize < size) :
    (fuel : Nat) → {s : MetadataSpace} → {w : MetadataWriter} →
    {chain : List MetadataPointer} → {written bytes : List UInt8} → SpaceOk s →
    WriterOk size s w chain written →
    w.pinned = true ∨ (chain = [] ∧ bytes ≠ []) →
    bytes.length + (if w.offset < w.capacity then 1 else 2) ≤ fuel →
    writeLoop size env fuel s w bytes = .error e → ∃ text, e = .allocation text
  | 0, s, w, chain, written, bytes, _, _, _, hfuel, _ => by
      split_ifs at hfuel <;> omega
  | fuel + 1, s, w, chain, written, bytes, hs, hw, hpin, hfuel, h => by
      rw [writeLoop] at h
      have hfresh : w.pinned = true ∨ w.capacity = 0 ∧ w.offset = 0 ∧ bytes ≠ [] := by
        rcases hpin with hpin | ⟨hchain, hne⟩
        · exact Or.inl hpin
        · cases hw.place with
          | fresh _ _ _ hcap hoff => exact Or.inr ⟨hcap, hoff, hne⟩
          | within init hinit =>
              rw [hchain] at hinit
              exact absurd hinit.symm (by simp)
      by_cases hover : w.offset + bytes.length > w.capacity
      · rw [if_pos hover] at h
        have hpin₁ : ∃ s₁ w₁, w.fill s bytes = .ok (s₁, w₁) ∧
            (w₁.capacity = 0 ∨ w₁.pinned = true) := by
          unfold fill
          by_cases hc : w.capacity - w.offset > 0
          · rcases hfresh with hp | ⟨hcap, -, -⟩
            · rw [if_pos hc, copyData_pinned hp]
              exact ⟨_, _, rfl, Or.inr hp⟩
            · omega
          · rw [if_neg hc]
            exact ⟨s, w, rfl, hfresh.symm.imp_left And.left⟩
        obtain ⟨s₁, w₁, hfill, hp₁⟩ := hpin₁
        obtain ⟨hgrows, hw₁, hfull⟩ := fill_spec hs hw hover hfill
        simp only [bind, Except.bind, hfill] at h
        cases hnext : w₁.nextBlock size env s₁ with
        | error e' =>
            rw [hnext] at h
            cases h
            exact nextBlock_error hgrows.ok hp₁ hnext
        | ok res =>
            obtain ⟨s₂, w₂⟩ := res
            obtain ⟨chain₂, hgrows₂, hw₂, hcap₂, hoff₂, hpin₂⟩ :=
              nextBlock_spec henv hgrows.ok hsize hw₁ hfull hnext
            rw [hnext] at h
            refine writeLoop_error henv hsize fuel hgrows₂.ok hw₂ (Or.inl hpin₂) ?_ h
            rw [hcap₂, hoff₂, if_pos hsize, List.length_drop]
            split_ifs at hfuel <;> omega
      · rw [if_neg hover] at h
        rcases hfresh with hp | ⟨hcap, hoff, hne⟩
        · rw [copyData_pinned hp] at h
          cases h
        · have hlen : bytes.length ≠ 0 := fun hz => hne (List.eq_nil_of_length_eq_zero hz)
          omega

/-- A write to a writer that has begun and is not flushed, or a first write of
at least one byte, only fails where an allocation does. -/
theorem writeData_error (henv : Respects env) (hsize : pointerSize < size) (hs : SpaceOk s)
    (hw : WriterOk size s w chain written) (hpin : w.pinned = true ∨ (chain = [] ∧ bytes ≠ []))
    (h : w.writeData size env s bytes = .error e) : ∃ text, e = .allocation text := by
  refine writeLoop_error henv hsize _ hs hw hpin ?_ h
  split_ifs <;> omega

end MetadataWriter

end MiniDuck
