import MiniDuck.MetadataWriting

/-!
# What a metadata reader finds

A reader that starts at a pointer into a stored chain is at a position of
its stream (`ReaderAt`) after every call. `readLoop_spec` gives the bytes
of a read and says when it runs out of data, `readAll_spec` the same for
any way to split the reads. With the invariant of the writers
(`StreamInv`) this is `metadata_round_trip`: a reader at a pointer of a
writer reads what the writer wrote after it.
-/

namespace MiniDuck

open MetadataManager

/-- Bytes `q` to `q + n` of the stream. -/
def streamBytes (size : Nat) (s : MetadataSpace) (chain : List MetadataPointer) (q n : Nat) :
    List UInt8 :=
  (List.range n).map fun j => streamByte size s chain (q + j)

@[simp] theorem length_streamBytes (size : Nat) (s : MetadataSpace)
    (chain : List MetadataPointer) (q n : Nat) :
    (streamBytes size s chain q n).length = n := by
  simp [streamBytes]

theorem streamBytes_add (size : Nat) (s : MetadataSpace) (chain : List MetadataPointer)
    (q a b : Nat) : streamBytes size s chain q (a + b) =
      streamBytes size s chain q a ++ streamBytes size s chain (q + a) b := by
  rw [streamBytes, List.range_add, List.map_append, List.map_map]
  congr 1
  apply List.map_congr_left
  intro j _
  exact congrArg (streamByte size s chain) (Nat.add_assoc _ _ _).symm

variable {size : Nat} {chain : List MetadataPointer}

theorem peek_eq_streamBytes {s : MetadataSpace} {i offset n : Nat} (hlow : pointerSize ≤ offset)
    (hfit : offset + n ≤ size) : peek (s.data (chainAt chain i)) offset n =
      streamBytes size s chain (i * room size + (offset - pointerSize)) n := by
  apply List.map_congr_left
  intro j hj
  rw [List.mem_range] at hj
  have hroom : offset - pointerSize + j < room size := by
    unfold room
    omega
  have hpos := div_mod_within (i := i) hroom
  have hoffset : pointerSize + (offset - pointerSize + j) = offset + j := by omega
  rw [streamByte, Nat.add_assoc, hpos.1, hpos.2, hoffset]

/-- Where a reader stands in the stream of a chain: before its first read, or
within a sub-block. -/
inductive ReaderAt (size : Nat) (chain : List MetadataPointer) (r : MetadataReader)
    (q : Nat) : Prop
  | fresh (hblock : r.block = none) (hnext : r.hasNextBlock = true) (hcap : r.capacity = 0)
      (hoff : r.offset = 0) (hi : q / room size < chain.length)
      (hptr : r.nextPointer = ⟨(chainAt chain (q / room size)).getDiskPointer,
        pointerSize + q % room size⟩)
      (hnoff : r.nextOffset = pointerSize + q % room size)
  | within (i : Nat) (hi : i < chain.length) (hblock : r.block = some (chainAt chain i))
      (hnext : r.hasNextBlock = decide (i + 1 < chain.length))
      (hptr : i + 1 < chain.length →
        r.nextPointer = ⟨(chainAt chain (i + 1)).getDiskPointer, 0⟩)
      (hcap : r.capacity = size) (hlow : pointerSize ≤ r.offset) (hhigh : r.offset ≤ size)
      (hnoff : r.nextOffset = pointerSize)
      (hq : q = i * room size + (r.offset - pointerSize))

structure Readable (size : Nat) (s : MetadataSpace) (chain : List MetadataPointer) : Prop where
  ok : SpaceOk s
  occupied : ∀ p ∈ chain, s.manager.IsOccupied p
  links : ∀ i < chain.length, s.loadNext (chainAt chain i) =
    if i + 1 < chain.length then (chainAt chain (i + 1)).getDiskPointer else noNextBlock
  room_pos : pointerSize < size

namespace MetadataReader

variable {size : Nat} {s : MetadataSpace} {chain : List MetadataPointer} {r : MetadataReader}
  {q : Nat}

theorem fromDiskPointer_chain {p : MetadataPointer} {offset : Nat} (hs : SpaceOk s)
    (hp : s.manager.IsOccupied p) (hptr : r.nextPointer = ⟨p.getDiskPointer, offset⟩) :
    r.fromDiskPointer s = .ok (s, p) := by
  have hfile := hp.inFile hs
  have hblock : s.manager.blocks p.blockIndex ≠ none := by
    obtain ⟨-, block, hb, -⟩ := hp
    simp [hb]
  unfold fromDiskPointer
  rw [hptr]
  cases r.type with
  | existingBlocks =>
      simp only [fromDiskPointer_getDiskPointer hfile hblock]
      rfl
  | registerBlocks =>
      simp only [registerDiskPointer_getDiskPointer hfile hblock]
      rfl

theorem readNextBlock_chain (h : Readable size s chain) {i offset : Nat} (hi : i < chain.length)
    (hnext : r.hasNextBlock = true)
    (hptr : r.nextPointer = ⟨(chainAt chain i).getDiskPointer, offset⟩)
    (hlow : pointerSize ≤ r.nextOffset) (hhigh : r.nextOffset ≤ size) :
    ∃ r', r.readNextBlock size s = .ok (s, r') ∧ r'.offset = r.nextOffset ∧
      r'.capacity = size ∧ r'.block ≠ none ∧
      ReaderAt size chain r' (i * room size + (r.nextOffset - pointerSize)) := by
  have hocc := h.occupied _ (chainAt_mem hi)
  obtain ⟨-, block, hb, -⟩ := id hocc
  have hpin : s.manager.pin (chainAt chain i) = .ok (chainAt chain i) := by
    rw [MetadataManager.pin, hb]
  unfold readNextBlock
  simp only [hnext, Bool.not_true, Bool.false_eq_true, if_false, bind, Except.bind,
    fromDiskPointer_chain h.ok hocc hptr, hpin, Nat.not_lt_of_le hlow, gt_iff_lt,
    Nat.not_lt_of_le hhigh]
  refine ⟨_, rfl, rfl, rfl, by simp, .within i hi rfl ?_ ?_ rfl hlow hhigh rfl rfl⟩
  · rw [h.links i hi]
    by_cases hlast : i + 1 < chain.length
    · have hne := Nat.ne_of_lt
        (getDiskPointer_lt ((h.occupied _ (chainAt_mem hlast)).inFile h.ok))
      rw [if_pos hlast, decide_eq_true hlast]
      exact bne_iff_ne.2 hne
    · rw [if_neg hlast, decide_eq_false hlast]
      rfl
  · intro hlast
    have hne := Nat.ne_of_lt
      (getDiskPointer_lt ((h.occupied _ (chainAt_mem hlast)).inFile h.ok))
    simp only [h.links i hi, if_pos hlast, if_neg hne]

theorem copyData_chain {i n : Nat} (hi : i < chain.length)
    (hblock : r.block = some (chainAt chain i))
    (hnext : r.hasNextBlock = decide (i + 1 < chain.length))
    (hptr : i + 1 < chain.length →
      r.nextPointer = ⟨(chainAt chain (i + 1)).getDiskPointer, 0⟩)
    (hcap : r.capacity = size) (hlow : pointerSize ≤ r.offset)
    (hnoff : r.nextOffset = pointerSize) (hfit : r.offset + n ≤ size)
    (hq : q = i * room size + (r.offset - pointerSize)) :
    r.copyData s n = .ok (streamBytes size s chain q n, { r with offset := r.offset + n }) ∧
      ReaderAt size chain { r with offset := r.offset + n } (q + n) := by
  constructor
  · rw [copyData, hblock, hq]
    simp only
    rw [peek_eq_streamBytes hlow hfit]
  · refine .within i hi hblock hnext hptr hcap (Nat.le_trans hlow (Nat.le_add_right _ _)) hfit
      hnoff ?_
    rw [hq]
    simp only
    omega

/-- A read gives the next bytes of the stream, or runs out of data behind the
last sub-block. -/
theorem readLoop_spec (h : Readable size s chain) :
    (fuel : Nat) → {r : MetadataReader} → {q n : Nat} → ReaderAt size chain r q →
    r.block ≠ none ∨ n ≠ 0 → n + (if r.offset < r.capacity then 1 else 2) ≤ fuel →
    (q + n ≤ chain.length * room size → ∃ r',
      readLoop size fuel s r n = .ok (streamBytes size s chain q n, s, r') ∧
      ReaderAt size chain r' (q + n) ∧ r'.block ≠ none) ∧
    (chain.length * room size < q + n → readLoop size fuel s r n = .error noMoreData)
  | 0, r, q, n, _, _, hfuel => by
      split_ifs at hfuel <;> omega
  | fuel + 1, r, q, n, hr, hne, hfuel => by
      have hsize := h.room_pos
      have hroom : room size = size - pointerSize := rfl
      rw [readLoop]
      cases hr with
      | fresh hblock hnext hcap hoff hi hptr hnoff =>
          have hn : n ≠ 0 := hne.resolve_left (not_not.2 hblock)
          have hover : r.offset + n > r.capacity := by omega
          have hmod : q % room size < room size := Nat.mod_lt _ (by omega)
          have hdrain : r.drain s = .ok ([], r) := by
            unfold drain
            exact if_neg (by omega)
          obtain ⟨r₂, hread, hoff₂, hcap₂, hsome, hr₂⟩ := readNextBlock_chain h hi hnext hptr
            (by omega) (by omega)
          have hq : q / room size * room size + (r.nextOffset - pointerSize) = q := by
            rw [hnoff, Nat.add_sub_cancel_left, Nat.mul_comm]
            exact Nat.div_add_mod q _
          rw [hq] at hr₂
          have hlt : r₂.offset < r₂.capacity := by
            rw [hoff₂, hcap₂]
            omega
          have hfuel₂ : n + (if r₂.offset < r₂.capacity then 1 else 2) ≤ fuel := by
            rw [if_pos hlt]
            rw [if_neg (by omega)] at hfuel
            omega
          obtain ⟨hok, herr⟩ := readLoop_spec h fuel hr₂ (Or.inl hsome) hfuel₂
          have hzero : r.capacity - r.offset = 0 := by omega
          rw [if_pos hover, hdrain]
          simp only [bind, Except.bind, hread, hzero, Nat.sub_zero]
          constructor
          · intro hle
            obtain ⟨r', hres, hr', hsome'⟩ := hok hle
            refine ⟨r', ?_, hr', hsome'⟩
            rw [hres]
            rfl
          · intro hgt
            rw [herr hgt]
      | within i hi hblock hnext hptr hcap hlow hhigh hnoff hq =>
          by_cases hover : r.offset + n > r.capacity
          · rw [if_pos hover]
            have hdrain : ∃ r₁, r.drain s = .ok (streamBytes size s chain q (size - r.offset), r₁) ∧
                r₁.hasNextBlock = r.hasNextBlock ∧ r₁.nextPointer = r.nextPointer ∧
                r₁.nextOffset = r.nextOffset := by
              unfold drain
              rw [hcap]
              by_cases hc : size - r.offset > 0
              · rw [if_pos hc, (copyData_chain (s := s) hi hblock hnext hptr hcap hlow hnoff
                  (by omega) hq).1]
                exact ⟨_, rfl, rfl, rfl, rfl⟩
              · have hzero : size - r.offset = 0 := by omega
                rw [if_neg hc, hzero]
                exact ⟨r, rfl, rfl, rfl, rfl⟩
            obtain ⟨r₁, hdrain, hnext₁, hptr₁, hnoff₁⟩ := hdrain
            have hend : q + (size - r.offset) = (i + 1) * room size := by
              rw [Nat.succ_mul, hq]
              omega
            by_cases hlast : i + 1 < chain.length
            · obtain ⟨r₂, hread, hoff₂, hcap₂, hsome, hr₂⟩ := readNextBlock_chain h hlast
                (by rw [hnext₁, hnext, decide_eq_true hlast]) (hptr₁.trans (hptr hlast))
                (by omega) (by omega)
              have hq₂ : (i + 1) * room size + (r₁.nextOffset - pointerSize) =
                  q + (size - r.offset) := by
                rw [hend, hnoff₁, hnoff, Nat.sub_self, Nat.add_zero]
              rw [hq₂] at hr₂
              have hfuel₂ : n - (size - r.offset) +
                  (if r₂.offset < r₂.capacity then 1 else 2) ≤ fuel := by
                rw [if_pos (by omega)]
                split_ifs at hfuel <;> omega
              obtain ⟨hok, herr⟩ := readLoop_spec h fuel hr₂ (Or.inl hsome) hfuel₂
              have hsum : q + (size - r.offset) + (n - (size - r.offset)) = q + n := by omega
              have hn : size - r.offset + (n - (size - r.offset)) = n := by omega
              simp only [bind, Except.bind, hdrain, hread, hcap]
              rw [hsum] at hok herr
              constructor
              · intro hle
                obtain ⟨r', hres, hr', hsome'⟩ := hok hle
                refine ⟨r', ?_, hr', hsome'⟩
                rw [hres, ← hn, streamBytes_add, hn]
                rfl
              · intro hgt
                rw [herr hgt]
            · have hread : r₁.readNextBlock size s = .error noMoreData := by
                unfold readNextBlock
                rw [hnext₁, hnext, decide_eq_false hlast]
                rfl
              have hlen : chain.length = i + 1 := by omega
              simp only [bind, Except.bind, hdrain, hread]
              refine ⟨fun hle => ?_, fun _ => trivial⟩
              rw [hlen] at hle
              omega
          · rw [if_neg hover]
            obtain ⟨hcopy, hr'⟩ := copyData_chain (s := s) (n := n) hi hblock hnext hptr hcap hlow
              hnoff (by omega) hq
            constructor
            · intro _
              simp only [bind, Except.bind, hcopy]
              exact ⟨_, rfl, hr', by simp [hblock]⟩
            · intro hgt
              have hend : (i + 1) * room size ≤ chain.length * room size :=
                Nat.mul_le_mul_right _ hi
              rw [Nat.succ_mul] at hend
              omega

theorem readAll_spec (h : Readable size s chain) :
    (sizes : List Nat) → {r : MetadataReader} → {q : Nat} → ReaderAt size chain r q →
    r.block ≠ none ∨ sizes.head? ≠ some 0 →
    (q + sizes.sum ≤ chain.length * room size → ∃ reads,
      readAll size s r sizes = .ok reads ∧ reads.map List.length = sizes ∧
      reads.flatten = streamBytes size s chain q sizes.sum) ∧
    (chain.length * room size < q + sizes.sum → q ≤ chain.length * room size →
      readAll size s r sizes = .error noMoreData)
  | [], r, q, _, _ => by
      refine ⟨fun _ => ⟨[], rfl, rfl, rfl⟩, fun hgt hle => ?_⟩
      rw [List.sum_nil] at hgt
      omega
  | n :: sizes, r, q, hr, hne => by
      have hne' : r.block ≠ none ∨ n ≠ 0 := by
        refine hne.imp_right fun hhead hzero => hhead ?_
        rw [hzero]
        rfl
      have hfuel : n + (if r.offset < r.capacity then 1 else 2) ≤ n + 2 := by
        split_ifs <;> omega
      obtain ⟨hok, herr⟩ := readLoop_spec h (n + 2) hr hne' hfuel
      rw [List.sum_cons, ← Nat.add_assoc, readAll]
      by_cases hfits : q + n ≤ chain.length * room size
      · obtain ⟨r', hres, hr', hsome⟩ := hok hfits
        obtain ⟨hoks, herrs⟩ := readAll_spec h sizes hr' (Or.inl hsome)
        simp only [bind, Except.bind, readData, hres]
        constructor
        · intro hle
          obtain ⟨reads, hreads, hlens, hflat⟩ := hoks hle
          refine ⟨streamBytes size s chain q n :: reads, ?_, ?_, ?_⟩
          · rw [hreads]
            rfl
          · rw [List.map_cons, length_streamBytes, hlens]
          · rw [List.flatten_cons, hflat, streamBytes_add]
        · intro hgt _
          rw [herrs hgt hfits]
      · simp only [bind, Except.bind, readData, herr (Nat.lt_of_not_le hfits)]
        exact ⟨fun hle => absurd hle (by omega), fun _ _ => trivial⟩

end MetadataReader

/-! ## The writers of a run -/

/-- The writers have disjoint chains, and every pointer handed out is the place
of the byte that was to come. -/
structure StreamInv {W : Type} (size : Nat) (s : StreamRun W)
    (chain : W → List MetadataPointer) : Prop where
  ok : SpaceOk s.space
  writers : ∀ w, WriterOk size s.space (s.writers w) (chain w) (s.written w)
  disjoint : ∀ v w p, p ∈ chain v → p ∈ chain w → v = w
  pointers : ∀ w pointer n, (pointer, n) ∈ s.pointers w →
    n ≤ (s.written w).length ∧ n / room size < (chain w).length ∧
    pointer = ⟨(chainAt (chain w) (n / room size)).getDiskPointer,
      pointerSize + n % room size⟩

theorem chainAt_of_longer {c c' : List MetadataPointer} {i : Nat} (h : ∃ new, c' = c ++ new)
    (hi : i < c.length) : i < c'.length ∧ chainAt c' i = chainAt c i := by
  obtain ⟨new, rfl⟩ := h
  rw [List.length_append]
  exact ⟨by omega, chainAt_append_left hi⟩

theorem WriterOk.frame {s s' : MetadataSpace} {w : MetadataWriter} {c c' : List MetadataPointer}
    {written : List UInt8} (h : WriterOk size s w chain written) (hg : Grows s s' c c')
    (hdisj : ∀ p ∈ chain, p ∉ c) : WriterOk size s' w chain written :=
  ⟨h.place,
    h.stored.congr h.place.length_le fun p hp => hg.frame p (h.occupied p hp) (hdisj p hp),
    fun p hp => hg.keep p (h.occupied p hp)⟩

theorem StreamInv.initial {W : Type} {s : StreamRun W} (h : s.Initial) :
    StreamInv size s fun _ => [] := by
  refine ⟨⟨h.lists, h.ids⟩, fun w => ?_, fun v w p hp => absurd hp (by simp), ?_⟩
  · rw [h.writers, h.written]
    refine ⟨.fresh rfl rfl rfl rfl rfl, ⟨List.nodup_nil, ?_, ?_⟩, ?_⟩
    · intro i hi
      exact absurd hi (Nat.not_lt_zero i)
    · intro j hj
      exact absurd hj (Nat.not_lt_zero j)
    · intro q hq
      exact absurd hq (by simp)
  · intro w pointer n hp
    rw [h.pointers] at hp
    exact absurd hp (by simp)

namespace StreamInv

variable {W : Type} [DecidableEq W] {size : Nat} {s : StreamRun W}
  {chain : W → List MetadataPointer}

/-- One writer goes on, from `c` to `c'` and with more written. -/
theorem advance (h : StreamInv size s chain) {w : W} {space : MetadataSpace}
    {writer : MetadataWriter} {c' : List MetadataPointer} {more : List UInt8}
    (hg : Grows s.space space (chain w) c')
    (hw : WriterOk size space writer c' (s.written w ++ more)) :
    StreamInv size ⟨space, Function.update s.writers w writer,
      Function.update s.written w (s.written w ++ more), s.pointers⟩
      (Function.update chain w c') := by
  refine ⟨hg.ok, fun v => ?_, fun u v p hu hv => ?_, fun v pointer n hp => ?_⟩
  · by_cases hv : v = w
    · subst hv
      simp only [Function.update_self]
      exact hw
    · simp only [Function.update_of_ne hv]
      refine (h.writers v).frame hg fun p hp hpw => hv (h.disjoint v w p hp hpw)
  · have hnew : ∀ x, x ≠ w → p ∈ chain x → p ∉ c' := by
      intro x hx hpx hpc
      rcases hg.fresh p hpc with hpw | hfree
      · exact hx (h.disjoint x w p hpx hpw)
      · exact hfree ((h.writers x).occupied p hpx)
    by_cases huw : u = w
    · by_cases hvw : v = w
      · rw [huw, hvw]
      · rw [Function.update_of_ne hvw] at hv
        rw [huw, Function.update_self] at hu
        exact absurd hu (hnew v hvw hv)
    · rw [Function.update_of_ne huw] at hu
      by_cases hvw : v = w
      · rw [hvw, Function.update_self] at hv
        exact absurd hv (hnew u huw hu)
      · rw [Function.update_of_ne hvw] at hv
        exact h.disjoint u v p hu hv
  · obtain ⟨hn, hi, hptr⟩ := h.pointers v pointer n hp
    by_cases hv : v = w
    · subst hv
      obtain ⟨hi', hat⟩ := chainAt_of_longer hg.longer hi
      simp only [Function.update_self, hat, List.length_append]
      exact ⟨by omega, hi', hptr⟩
    · simp only [Function.update_of_ne hv]
      exact ⟨hn, hi, hptr⟩

theorem step (h : StreamInv size s chain) (hsize : pointerSize < size) {op : StreamOp W}
    {t : StreamRun W} (hstep : StreamStep size s op t) : ∃ chain', StreamInv size t chain' := by
  cases hstep with
  | writeData henv hcall =>
      obtain ⟨c', hg, hw⟩ := MetadataWriter.writeData_spec henv hsize h.ok (h.writers _) hcall
      exact ⟨_, h.advance hg hw⟩
  | @getMetaBlockPointer w env pointer space writer henv hcall =>
      obtain ⟨c', hg, hw, hi, hptr⟩ :=
        MetadataWriter.getMetaBlockPointer_spec henv hsize h.ok (h.writers w) hcall
      rw [← List.append_nil (s.written w)] at hw
      have hinv := h.advance hg hw
      rw [List.append_nil, Function.update_eq_self] at hinv
      refine ⟨_, hinv.ok, hinv.writers, hinv.disjoint, fun v ptr n hp => ?_⟩
      by_cases hv : v = w
      · subst hv
        simp only [Function.update_self, List.mem_append, List.mem_singleton] at hp
        rcases hp with hp | hp
        · exact hinv.pointers v ptr n hp
        · cases hp
          simp only [Function.update_self]
          exact ⟨Nat.le_refl _, hi, hptr⟩
      · simp only [Function.update_of_ne hv] at hp
        exact hinv.pointers v ptr n hp
  | @flush w space writer hcall =>
      obtain ⟨hg, hw⟩ := MetadataWriter.flush_spec h.ok (h.writers w) hcall
      rw [← List.append_nil (s.written w)] at hw
      have hinv := h.advance hg hw
      rw [List.append_nil, Function.update_eq_self] at hinv
      exact ⟨_, hinv⟩

theorem of_reachable (hsize : pointerSize < size) (h : (streamLts W size).Reachable s) :
    ∃ chain, StreamInv size s chain := by
  refine h.invariant (I := fun s => ∃ chain, StreamInv size s chain) ?_ ?_
  · intro s hinit
    exact ⟨_, initial hinit⟩
  · intro s op t _ hinv hstep
    obtain ⟨chain, hinv⟩ := hinv
    exact hinv.step hsize hstep

end StreamInv

/-! ## The round trip -/

/-- The bytes that a chain still takes are those behind its writer. -/
theorem WriterAt.room_left {n : Nat} {w : MetadataWriter} (h : WriterAt size w chain n) :
    chain.length * room size = n + (w.capacity - w.offset) := by
  cases h with
  | fresh hchain hn hpin hcap hoff => simp [hchain, hn, hcap]
  | within init hchain hn hcap hlow hhigh =>
      rw [hchain, hn, hcap, List.length_append, List.length_singleton, Nat.succ_mul]
      unfold room
      omega

theorem Stored.streamBytes_take {n m : Nat} {s : MetadataSpace} {written : List UInt8}
    (h : Stored size s chain written) :
    (streamBytes size s chain n m).take (written.drop n).length = (written.drop n).take m := by
  apply List.ext_getElem
  · rw [List.length_take, List.length_take, length_streamBytes, Nat.min_comm]
  · intro j hj hj'
    rw [List.length_take, List.length_drop] at hj'
    have hlt : n + j < written.length := by omega
    rw [List.getElem_take, List.getElem_take, List.getElem_drop]
    simp only [streamBytes, List.getElem_map, List.getElem_range]
    rw [h.content _ hlt, List.getD_eq_getElem?_getD, List.getElem?_eq_getElem hlt,
      Option.getD_some]

/-- A reader at a pointer that a writer has handed out reads what the writer
wrote after it, however the reads are split, and fails behind the last
sub-block only. No read before the first may be empty: there is nothing to
copy from. A writer that has begun, or begins with some bytes, only fails
where an allocation does. -/
theorem metadata_round_trip {W : Type} [DecidableEq W] (b : BlockSize) {s : StreamRun W}
    (h : (streamLts W b.metadataBlockSize).Reachable s) :
    (∀ w pointer n, (pointer, n) ∈ s.pointers w → ∀ type sizes, sizes.head? ≠ some 0 →
      let after := (s.written w).drop n
      let left := after.length + ((s.writers w).capacity - (s.writers w).offset)
      let reader := MetadataReader.start pointer type
      (sizes.sum ≤ left → ∃ reads,
        reader.readAll b.metadataBlockSize s.space sizes = .ok reads ∧
        reads.map List.length = sizes ∧
        reads.flatten.take after.length = after.take sizes.sum) ∧
      (left < sizes.sum →
        reader.readAll b.metadataBlockSize s.space sizes = .error noMoreData)) ∧
    (∀ w bytes env e, Respects env →
      (s.writers w).pinned = true ∨ s.writers w = .start ∧ bytes ≠ [] →
      (s.writers w).writeData b.metadataBlockSize env s.space bytes = .error e →
      ∃ text, e = .allocation text) := by
  have hsize := b.pointerSize_lt
  obtain ⟨chain, hinv⟩ := StreamInv.of_reachable hsize h
  refine ⟨fun w pointer n hp type sizes hfirst => ?_, fun w bytes env e henv hready herr => ?_⟩
  · obtain ⟨hn, hi, hptr⟩ := hinv.pointers w pointer n hp
    have hw := hinv.writers w
    have hread : Readable b.metadataBlockSize s.space (chain w) :=
      ⟨hinv.ok, hw.occupied, hw.stored.links, hsize⟩
    have hstart : ReaderAt b.metadataBlockSize (chain w) (.start pointer type) n :=
      .fresh rfl rfl rfl rfl hi hptr (by rw [hptr]; rfl)
    have hleft := hw.place.room_left
    obtain ⟨hok, herr⟩ := MetadataReader.readAll_spec hread sizes hstart (Or.inr hfirst)
    intro after left reader
    have hlen : after.length = (s.written w).length - n := List.length_drop
    constructor
    · intro hle
      obtain ⟨reads, hreads, hlens, hflat⟩ := hok (by omega)
      refine ⟨reads, hreads, hlens, ?_⟩
      rw [hflat]
      exact hw.stored.streamBytes_take
    · intro hgt
      exact herr (by omega) (by omega)
  · refine MetadataWriter.writeData_error henv hsize hinv.ok (hinv.writers w) ?_ herr
    refine hready.imp_right fun ⟨hstart, hne⟩ => ⟨?_, hne⟩
    cases (hinv.writers w).place with
    | fresh hchain => exact hchain
    | within init hchain hn hcap hlow hhigh =>
        rw [hstart] at hlow
        exact absurd hlow (by decide)

/-! ### A stream of one byte -/

/-- A search for free space, with a fixed id for a new block. -/
noncomputable def searchEnv (next : Nat) (m : MetadataManager) : Option Nat × Nat :=
  open Classical in
  (if h : ∃ b block, m.blocks b = some block ∧ block.freeBlocks ≠ [] then some h.choose else none,
    next)

theorem searchEnv_respects {next : Nat} (h : next < 2 ^ 56) : Respects (searchEnv next) := by
  intro m
  refine ⟨?_, h⟩
  unfold searchEnv
  by_cases hfree : ∃ b block, m.blocks b = some block ∧ block.freeBlocks ≠ []
  · rw [dif_pos hfree]
    exact hfree.choose_spec
  · rw [dif_neg hfree]
    intro b block hb
    by_contra hne
    exact hfree ⟨b, block, hb, hne⟩

theorem searchEnv_empty (next : Nat) :
    searchEnv next ⟨fun _ => none, fun _ => none⟩ = (none, next) := by
  unfold searchEnv
  rw [dif_neg]
  rintro ⟨b, block, hb, -⟩
  cases hb

def smallBlocks : BlockSize := ⟨minBlockSize, Nat.le_refl _⟩

def emptyRun : StreamRun Nat :=
  ⟨⟨⟨fun _ => none, fun _ => none⟩, fun _ _ => 0⟩, fun _ => .start, fun _ => [], fun _ => []⟩

theorem oneByte_reachable : ∃ s : StreamRun Nat,
    (streamLts Nat smallBlocks.metadataBlockSize).Reachable s ∧
    (⟨0, 8⟩, 0) ∈ s.pointers 0 ∧ s.written 0 = [7] := by
  have henv : Respects (searchEnv 0) := searchEnv_respects (by decide)
  have h0 : (streamLts Nat smallBlocks.metadataBlockSize).Reachable emptyRun := by
    refine .init ⟨?_, ?_, fun _ => rfl, fun _ => rfl, fun _ => rfl⟩
    · intro b block hb
      cases hb
    · intro b hb
      exact absurd rfl hb
  have hpointer : ∃ space writer, MetadataWriter.start.getMetaBlockPointer
      smallBlocks.metadataBlockSize (searchEnv 0) emptyRun.space = .ok (⟨0, 8⟩, space, writer) ∧
      writer.pinned = true ∧ writer.capacity = 248 ∧ writer.offset = 8 := by
    unfold MetadataWriter.getMetaBlockPointer MetadataWriter.nextBlock
    have hchoice : searchEnv 0 emptyRun.space.manager = (none, 0) := searchEnv_empty 0
    rw [hchoice]
    exact ⟨_, _, rfl, rfl, rfl, rfl⟩
  obtain ⟨space, writer, hcall, hpin, hcap, hoff⟩ := hpointer
  have h1 := h0.step (StreamStep.getMetaBlockPointer (w := 0) henv hcall)
  have hwrite : writer.writeData smallBlocks.metadataBlockSize (searchEnv 0) space [7] =
      .ok (space.copyTo writer.currentPointer writer.offset [7],
        { writer with offset := writer.offset + 1 }) := by
    have hfits : ¬ writer.offset + [(7 : UInt8)].length > writer.capacity := by
      rw [hcap, hoff]
      decide
    rw [MetadataWriter.writeData, MetadataWriter.writeLoop, if_neg hfits,
      MetadataWriter.copyData_pinned hpin]
    rfl
  have h2 := h1.step (StreamStep.writeData (w := 0) henv
    (by simp only [Function.update_self]; exact hwrite))
  exact ⟨_, h2, by simp [emptyRun], by simp [emptyRun]⟩

theorem metadata_round_trip_one : ∃ s : StreamRun Nat, ∃ reads,
    (MetadataReader.start ⟨0, 8⟩ .existingBlocks).readAll smallBlocks.metadataBlockSize s.space
      [1] = .ok reads ∧ reads.flatten.take 1 = [7] := by
  obtain ⟨s, hs, hp, hw⟩ := oneByte_reachable
  have h := (metadata_round_trip smallBlocks hs).1 0 ⟨0, 8⟩ 0 hp .existingBlocks [1] (by decide)
  simp only [hw] at h
  obtain ⟨reads, hreads, -, hbytes⟩ := h.1 (by simp)
  exact ⟨s, reads, hreads, hbytes⟩

/-- A reader that first reads nothing has no sub-block to read it from. -/
theorem metadata_empty_read_fails :
    ¬ ∀ (b : BlockSize) (s : StreamRun Nat), (streamLts Nat b.metadataBlockSize).Reachable s →
      ∀ w pointer n, (pointer, n) ∈ s.pointers w → ∀ type sizes,
        sizes.sum ≤ ((s.written w).drop n).length →
        ∃ reads, (MetadataReader.start pointer type).readAll b.metadataBlockSize s.space sizes =
          .ok reads := by
  intro h
  obtain ⟨s, hs, hp, hw⟩ := oneByte_reachable
  obtain ⟨reads, hreads⟩ := h smallBlocks s hs 0 ⟨0, 8⟩ 0 hp .existingBlocks [0, 1]
    (by simp [hw])
  cases hreads

end MiniDuck
