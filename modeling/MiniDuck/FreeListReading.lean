import MiniDuck.FreeListWriting

/-!
# Loading the free list

`LoadFreeList` reads with a reader that registers every block it comes
to, while it changes the metadata manager itself. Neither changes what
the reader finds: its bytes and its place are those of a reader over a
manager that knows the blocks of the chain (`SimReader`,
`readLoop_register`). So the loops get the values that were written
(`readFreeBlocks_ok` and its neighbours), whatever the manager has become
in between, and `free_list_round_trip` puts writing and loading together.
-/

namespace MiniDuck

open MetadataManager

/-- The registering reader stands where the other one does. Before its first
read it may have been given the offset zero, which means the first byte. -/
structure SimReader (r r' : MetadataReader) : Prop where
  type : r.type = .registerBlocks
  type' : r'.type = .existingBlocks
  block : r.block = r'.block
  nextPointer : r.nextPointer.blockPointer = r'.nextPointer.blockPointer
  hasNext : r.hasNextBlock = r'.hasNextBlock
  offset : r.offset = r'.offset
  nextOffset : max r.nextOffset pointerSize = max r'.nextOffset pointerSize
  capacity : r.capacity = r'.capacity

/-- Only blocks of the other manager have been registered, with no free
sub-block. -/
structure Registered (m m' known : MetadataManager) : Prop where
  blocks : ∀ b, m'.blocks b = m.blocks b ∨
    m.blocks b = none ∧ m'.blocks b = some ⟨[], false⟩ ∧ known.blocks b ≠ none
  modified : m'.modifiedBlocks = m.modifiedBlocks

theorem Registered.refl (m known : MetadataManager) : Registered m m known :=
  ⟨fun _ => Or.inl rfl, rfl⟩

theorem Registered.trans {m₁ m₂ m₃ known : MetadataManager} (h : Registered m₁ m₂ known)
    (h' : Registered m₂ m₃ known) : Registered m₁ m₃ known := by
  refine ⟨fun b => ?_, h'.modified.trans h.modified⟩
  rcases h'.blocks b with hb' | ⟨hnone, hsome, hknown⟩
  · rw [hb']
    exact h.blocks b
  · rcases h.blocks b with hb | ⟨hnone', -⟩
    · exact Or.inr ⟨hb ▸ hnone, hsome, hknown⟩
    · exact Or.inr ⟨hnone', hsome, hknown⟩

namespace MetadataReader

variable {size : Nat} {s known : MetadataSpace} {r r' : MetadataReader}

theorem fromDiskPointer_register {p : MetadataPointer} {t : MetadataSpace}
    (hsim : SimReader r r') (h : r'.fromDiskPointer known = .ok (t, p)) :
    t = known ∧ ∃ m, r.fromDiskPointer s = .ok ({ s with manager := m }, p) ∧
      m.blocks p.blockIndex ≠ none ∧ known.manager.blocks p.blockIndex ≠ none ∧
      Registered s.manager m known.manager := by
  unfold fromDiskPointer at h ⊢
  rw [hsim.type'] at h
  rw [hsim.type]
  have hid : r.nextPointer.getBlockId = r'.nextPointer.getBlockId := by
    rw [MetaBlockPointer.getBlockId, MetaBlockPointer.getBlockId, hsim.nextPointer]
  have hindex : r.nextPointer.getBlockIndex = r'.nextPointer.getBlockIndex := by
    rw [MetaBlockPointer.getBlockIndex, MetaBlockPointer.getBlockIndex, hsim.nextPointer]
  simp only [MetadataManager.fromDiskPointer, MetadataManager.registerDiskPointer, bind,
    Except.bind, hid, hindex] at h ⊢
  by_cases hbig : r'.nextPointer.getBlockIndex ≥ metadataBlockCount
  · rw [if_pos hbig] at h
    cases h
  · rw [if_neg hbig] at h
    cases hknown : known.manager.blocks r'.nextPointer.getBlockId with
    | none =>
        rw [hknown] at h
        cases h
    | some block =>
        rw [hknown] at h
        cases h
        cases hs : s.manager.blocks r'.nextPointer.getBlockId with
        | some own =>
            simp only [if_neg hbig, hs]
            refine ⟨trivial, s.manager, rfl, ?_, ?_, Registered.refl _ _⟩
            · simp [hs]
            · simp [hknown]
        | none =>
            simp only [if_neg hbig, Function.update_self]
            refine ⟨trivial, _, rfl, ?_, ?_, fun b => ?_, rfl⟩
            · simp
            · simp [hknown]
            · by_cases hb : b = r'.nextPointer.getBlockId
              · subst hb
                exact Or.inr ⟨hs, Function.update_self _ _ _, by simp [hknown]⟩
              · exact Or.inl (Function.update_of_ne hb _ _)

theorem readNextBlock_register {t : MetadataSpace} {r₁' : MetadataReader}
    (hdata : s.data = known.data) (hsim : SimReader r r')
    (h : r'.readNextBlock size known = .ok (t, r₁')) :
    t = known ∧ ∃ m r₁, r.readNextBlock size s = .ok ({ s with manager := m }, r₁) ∧
      SimReader r₁ r₁' ∧ Registered s.manager m known.manager := by
  unfold readNextBlock at h ⊢
  rw [hsim.hasNext]
  by_cases hnext : r'.hasNextBlock = true
  · simp only [hnext, Bool.not_true, Bool.false_eq_true, if_false, bind, Except.bind] at h ⊢
    cases hptr : r'.fromDiskPointer known with
    | error e =>
        rw [hptr] at h
        cases h
    | ok res =>
        obtain ⟨t', p⟩ := res
        obtain ⟨rfl, m, hreg, hown, hother, hm⟩ := fromDiskPointer_register (s := s) hsim hptr
        obtain ⟨block, hblock⟩ := Option.ne_none_iff_exists'.1 hown
        obtain ⟨block', hblock'⟩ := Option.ne_none_iff_exists'.1 hother
        have hpin : m.pin p = .ok p := by
          rw [pin, hblock]
        have hpin' : t'.manager.pin p = .ok p := by
          rw [pin, hblock']
        have hload : ({ s with manager := m } : MetadataSpace).loadNext p = t'.loadNext p := by
          rw [MetadataSpace.loadNext, MetadataSpace.loadNext, hdata]
        have hoffset : (if r.nextOffset < pointerSize then pointerSize else r.nextOffset) =
            if r'.nextOffset < pointerSize then pointerSize else r'.nextOffset := by
          have := hsim.nextOffset
          split_ifs <;> omega
        simp only [hptr, hpin'] at h
        simp only [hreg, hpin, hload, hoffset]
        by_cases hbig : (if r'.nextOffset < pointerSize then pointerSize else r'.nextOffset) > size
        · rw [if_pos hbig] at h
          cases h
        · rw [if_neg hbig] at h
          rw [if_neg hbig]
          cases h
          refine ⟨rfl, m, _, rfl, ⟨hsim.type, hsim.type', rfl, ?_, rfl, rfl, rfl, rfl⟩, hm⟩
          simp only
          split_ifs
          · exact hsim.nextPointer
          · rfl
  · rw [Bool.not_eq_true] at hnext
    simp only [hnext, Bool.not_false, if_true] at h
    cases h

theorem copyData_register {n : Nat} {bytes : List UInt8} {r₁' : MetadataReader}
    (hdata : s.data = known.data) (hsim : SimReader r r')
    (h : r'.copyData known n = .ok (bytes, r₁')) :
    ∃ r₁, r.copyData s n = .ok (bytes, r₁) ∧ SimReader r₁ r₁' := by
  unfold copyData at h ⊢
  rw [hsim.block, hdata, hsim.offset]
  cases hb : r'.block with
  | none =>
      rw [hb] at h
      cases h
  | some block =>
      simp only [hb] at h
      cases h
      exact ⟨_, rfl, hsim.type, hsim.type', rfl, hsim.nextPointer, hsim.hasNext,
        rfl, hsim.nextOffset, hsim.capacity⟩

/-- A read of the registering reader gives the bytes of the other one. -/
theorem readLoop_register : (fuel : Nat) → {s : MetadataSpace} → {r r' : MetadataReader} →
    {n : Nat} → {bytes : List UInt8} → {t : MetadataSpace} → {r₁' : MetadataReader} →
    s.data = known.data → SimReader r r' →
    readLoop size fuel known r' n = .ok (bytes, t, r₁') →
    t = known ∧ ∃ m r₁, readLoop size fuel s r n = .ok (bytes, { s with manager := m }, r₁) ∧
      SimReader r₁ r₁' ∧ Registered s.manager m known.manager
  | 0, _, _, _, _, _, _, _, _, _, h => by
      cases h
  | fuel + 1, s, r, r', n, bytes, t, r₁', hdata, hsim, h => by
      rw [readLoop] at h ⊢
      rw [hsim.offset, hsim.capacity]
      by_cases hover : r'.offset + n > r'.capacity
      · rw [if_pos hover] at h ⊢
        simp only [bind, Except.bind] at h ⊢
        cases hdrain : r'.drain known with
        | error e =>
            rw [hdrain] at h
            cases h
        | ok res =>
            obtain ⟨front, r₂'⟩ := res
            obtain ⟨r₂, hdrain₂, hsim₂⟩ : ∃ r₂, r.drain s = .ok (front, r₂) ∧
                SimReader r₂ r₂' := by
              unfold drain at hdrain ⊢
              rw [hsim.offset, hsim.capacity]
              by_cases hc : r'.capacity - r'.offset > 0
              · simp only [if_pos hc] at hdrain ⊢
                exact copyData_register hdata hsim hdrain
              · simp only [if_neg hc] at hdrain ⊢
                cases hdrain
                exact ⟨r, rfl, hsim⟩
            simp only [hdrain] at h
            simp only [hdrain₂]
            cases hnext : r₂'.readNextBlock size known with
            | error e =>
                rw [hnext] at h
                cases h
            | ok res =>
                obtain ⟨t₃, r₃'⟩ := res
                obtain ⟨ht₃, m₃, r₃, hnext₃, hsim₃, hreg₃⟩ :=
                  readNextBlock_register hdata hsim₂ hnext
                simp only [hnext, ht₃] at h
                simp only [hnext₃]
                cases hloop : readLoop size fuel known r₃' (n - (r'.capacity - r'.offset)) with
                | error e =>
                    rw [hloop] at h
                    cases h
                | ok res =>
                    obtain ⟨rest, t₄, r₄'⟩ := res
                    obtain ⟨ht₄, m₄, r₄, hloop₄, hsim₄, hreg₄⟩ := readLoop_register fuel
                      (s := { s with manager := m₃ }) hdata hsim₃ hloop
                    simp only [hloop] at h
                    cases h
                    simp only [hloop₄]
                    exact ⟨ht₄, m₄, r₄, rfl, hsim₄, hreg₃.trans hreg₄⟩
      · rw [if_neg hover] at h ⊢
        simp only [bind, Except.bind] at h ⊢
        cases hcopy : r'.copyData known n with
        | error e =>
            rw [hcopy] at h
            cases h
        | ok res =>
            obtain ⟨front, r₂'⟩ := res
            obtain ⟨r₂, hcopy₂, hsim₂⟩ := copyData_register hdata hsim hcopy
            simp only [hcopy] at h
            cases h
            simp only [hcopy₂]
            exact ⟨trivial, s.manager, r₂, rfl, hsim₂, Registered.refl _ _⟩

end MetadataReader

/-! ## Values of the list -/

def Feeds (size : Nat) (known : MetadataSpace) (chain : List MetadataPointer)
    (r : MetadataReader) (bytes : List UInt8) : Prop :=
  ∃ r' q, SimReader r r' ∧ ReaderAt size chain r' q ∧
    q + bytes.length ≤ chain.length * room size ∧
    streamBytes size known chain q bytes.length = bytes

/-- Reading has changed no byte, and registered blocks of the chain at most. -/
structure Touches (known s s' : MetadataSpace) : Prop where
  data : s'.data = s.data
  manager : Registered s.manager s'.manager known.manager

theorem Touches.refl (known s : MetadataSpace) : Touches known s s :=
  ⟨rfl, Registered.refl _ _⟩

variable {known : MetadataSpace}

theorem Touches.trans {s₁ s₂ s₃ : MetadataSpace} (h : Touches known s₁ s₂)
    (h' : Touches known s₂ s₃) : Touches known s₁ s₃ :=
  ⟨h'.data.trans h.data, h.manager.trans h'.manager⟩

section Loops

variable {size : Nat} {known : MetadataSpace} {chain : List MetadataPointer}

variable {rest : List UInt8}

theorem readWord_ok (hk : Readable size known chain) {n x : Nat} {s : MetadataSpace}
    {r : MetadataReader} (hn : n ≠ 0) (hx : x < 256 ^ n) (hdata : s.data = known.data)
    (h : Feeds size known chain r (storeBytes n x ++ rest)) :
    ∃ s' r', r.readWord size n s = .ok (x, s', r') ∧ Feeds size known chain r' rest ∧
      Touches known s s' := by
  obtain ⟨r₀, q, hsim, hat, hfit, hbytes⟩ := h
  rw [List.length_append, length_storeBytes] at hfit hbytes
  rw [streamBytes_add] at hbytes
  obtain ⟨hfirst, hrest⟩ := List.append_inj hbytes (by simp)
  have hfuel : n + (if r₀.offset < r₀.capacity then 1 else 2) ≤ n + 2 := by
    split_ifs <;> omega
  obtain ⟨r₁, hread, hat₁, -⟩ :=
    (MetadataReader.readLoop_spec hk (n + 2) hat (Or.inr hn) hfuel).1 (by omega)
  obtain ⟨-, m, r₂, hread₂, hsim₂, hreg⟩ := MetadataReader.readLoop_register (n + 2) hdata hsim hread
  refine ⟨{ s with manager := m }, r₂, ?_, ⟨r₁, q + n, hsim₂, hat₁, by omega, hrest⟩, rfl, hreg⟩
  unfold MetadataReader.readWord MetadataReader.readData
  simp only [hread₂, bind, Except.bind]
  rw [hfirst, loadWord_storeBytes, Nat.mod_eq_of_lt hx]
  rfl

theorem readFreeBlocks_ok (hk : Readable size known chain) :
    (ids : List Nat) → (∀ b ∈ ids, b < 256 ^ 8) → (acc : Finset Nat) → {s : MetadataSpace} →
    {r : MetadataReader} → s.data = known.data →
    Feeds size known chain r (idBytes ids ++ rest) →
    ∃ s' r', StorageManager.readFreeBlocks size ids.length acc s r =
        .ok (acc ∪ ids.toFinset, s', r') ∧
      Feeds size known chain r' rest ∧ Touches known s s'
  | [], _, acc, s, r, _, h => by
      rw [List.toFinset_nil, Finset.union_empty]
      exact ⟨s, r, rfl, h, Touches.refl _ _⟩
  | b :: ids, hids, acc, s, r, hdata, h => by
      have hcons : idBytes (b :: ids) ++ rest = storeBytes 8 b ++ (idBytes ids ++ rest) := by
        simp [idBytes]
      rw [hcons] at h
      obtain ⟨s₁, r₁, hread, hfeed, ht⟩ :=
        readWord_ok hk (by decide) (hids b List.mem_cons_self) hdata h
      obtain ⟨s₂, r₂, hloop, hfeed₂, ht₂⟩ := readFreeBlocks_ok hk ids
        (fun c hc => hids c (List.mem_cons_of_mem b hc)) (insert b acc) (ht.data.trans hdata) hfeed
      refine ⟨s₂, r₂, ?_, hfeed₂, ht.trans ht₂⟩
      have hunion : insert b acc ∪ ids.toFinset = acc ∪ (b :: ids).toFinset := by
        ext x
        simp only [Finset.mem_union, Finset.mem_insert, List.toFinset_cons]
        tauto
      rw [List.length_cons, StorageManager.readFreeBlocks, hread]
      simp only [bind, Except.bind]
      rw [hloop, hunion]

theorem rowBytes_cons (b : Nat) (ids : List Nat) (width : Nat) (value : Nat → Nat)
    (rest : List UInt8) : rowBytes (b :: ids) width value ++ rest =
      storeBytes 8 b ++ (storeBytes width (value b) ++ (rowBytes ids width value ++ rest)) := by
  simp [rowBytes]

/-- A row of a table gives its id and its value. -/
theorem readRow_ok (hk : Readable size known chain) {b width : Nat} {ids : List Nat}
    {value : Nat → Nat} {s : MetadataSpace} {r : MetadataReader} (hwidth : width ≠ 0)
    (hb : b < 256 ^ 8) (hv : value b < 256 ^ width) (hdata : s.data = known.data)
    (h : Feeds size known chain r (rowBytes (b :: ids) width value ++ rest)) :
    ∃ s₁ r₁ s₂ r₂, r.readWord size 8 s = .ok (b, s₁, r₁) ∧
      r₁.readWord size width s₁ = .ok (value b, s₂, r₂) ∧
      Feeds size known chain r₂ (rowBytes ids width value ++ rest) ∧ Touches known s s₂ := by
  rw [rowBytes_cons] at h
  obtain ⟨s₁, r₁, hread₁, hfeed₁, ht₁⟩ := readWord_ok hk (by decide) hb hdata h
  obtain ⟨s₂, r₂, hread₂, hfeed₂, ht₂⟩ :=
    readWord_ok hk hwidth hv (ht₁.data.trans hdata) hfeed₁
  exact ⟨s₁, r₁, s₂, r₂, hread₁, hread₂, hfeed₂, ht₁.trans ht₂⟩

theorem readMultiUseBlocks_ok (hk : Readable size known chain) {value : Nat → Nat} :
    (ids : List Nat) →
    (∀ b ∈ ids, b < 256 ^ 8 ∧ value b < 256 ^ 4) → (acc : Nat → Option Nat) →
    {s : MetadataSpace} → {r : MetadataReader} → s.data = known.data →
    Feeds size known chain r (rowBytes ids 4 value ++ rest) →
    ∃ s' r', StorageManager.readMultiUseBlocks size ids.length acc s r =
        .ok (fun b => if b ∈ ids then some (value b) else acc b, s', r') ∧
      Feeds size known chain r' rest ∧ Touches known s s'
  | [], _, acc, s, r, _, h => ⟨s, r, by simp [StorageManager.readMultiUseBlocks], h,
      Touches.refl _ _⟩
  | b :: ids, hids, acc, s, r, hdata, h => by
      obtain ⟨hb, hv⟩ := hids b List.mem_cons_self
      obtain ⟨s₁, r₁, s₂, r₂, hread₁, hread₂, hfeed, ht⟩ :=
        readRow_ok hk (by decide) hb hv hdata h
      obtain ⟨s₃, r₃, hloop, hfeed₃, ht₃⟩ := readMultiUseBlocks_ok hk ids
        (fun c hc => hids c (List.mem_cons_of_mem b hc))
        (Function.update acc b (some (value b))) (ht.data.trans hdata) hfeed
      refine ⟨s₃, r₃, ?_, hfeed₃, ht.trans ht₃⟩
      have hmap : (fun c => if c ∈ ids then some (value c)
          else Function.update acc b (some (value b)) c) =
          fun c => if c ∈ b :: ids then some (value c) else acc c := by
        funext c
        by_cases hc : c = b
        · simp [hc]
        · simp [hc]
      rw [List.length_cons, StorageManager.readMultiUseBlocks, hread₁]
      simp only [bind, Except.bind, hread₂]
      rw [hloop, hmap]

/-- The metadata blocks read so far have their free lists, and the others are not
there or have been registered by the reader. -/
structure Loaded (m : MetadataManager) (done : Finset Nat) (mask : Nat → BitVec 64)
    (known : MetadataManager) : Prop where
  listed : ∀ b ∈ done, m.blocks b = some ⟨blocksFromInteger (mask b), false⟩
  other : ∀ b, b ∉ done →
    m.blocks b = none ∨ m.blocks b = some ⟨[], false⟩ ∧ known.blocks b ≠ none
  modified : ∀ b, m.modifiedBlocks b = none

variable {mask : Nat → BitVec 64}

theorem Loaded.touch {s s' : MetadataSpace} {done : Finset Nat}
    (h : Loaded s.manager done mask known.manager) (ht : Touches known s s') :
    Loaded s'.manager done mask known.manager := by
  refine ⟨fun b hb => ?_, fun b hb => ?_, fun b => by rw [ht.manager.modified, h.modified]⟩
  · rcases ht.manager.blocks b with hsame | ⟨hnone, -⟩
    · rw [hsame, h.listed b hb]
    · rw [h.listed b hb] at hnone
      cases hnone
  · rcases ht.manager.blocks b with hsame | ⟨-, hsome, hknown⟩
    · rw [hsame]
      exact h.other b hb
    · exact Or.inr ⟨hsome, hknown⟩

theorem Loaded.read {m : MetadataManager} {done : Finset Nat} (h : Loaded m done mask known.manager)
    (b : Nat) : Loaded (m.readBlock b (mask b)) (insert b done) mask known.manager := by
  have hblock : (m.readBlock b (mask b)).blocks b =
      some ⟨blocksFromInteger (mask b), false⟩ := by
    unfold readBlock
    simp only [Function.update_self]
    by_cases hb : b ∈ done
    · rw [h.listed b hb]
    · rcases h.other b hb with hnone | ⟨hsome, -⟩
      · rw [hnone]
      · rw [hsome]
  have hother : ∀ c, c ≠ b → (m.readBlock b (mask b)).blocks c = m.blocks c := fun c hc =>
    Function.update_of_ne hc _ _
  refine ⟨fun c hc => ?_, fun c hc => ?_, h.modified⟩
  · by_cases hcb : c = b
    · rw [hcb]
      exact hblock
    · rw [hother c hcb]
      exact h.listed c ((Finset.mem_insert.1 hc).resolve_left hcb)
  · rw [Finset.mem_insert, not_or] at hc
    rw [hother c hc.1]
    exact h.other c hc.2

theorem readMetadataBlocks_ok (hk : Readable size known chain) :
    (ids : List Nat) → (∀ b ∈ ids, b < 256 ^ 8) → {done : Finset Nat} → {s : MetadataSpace} →
    {r : MetadataReader} → s.data = known.data → Loaded s.manager done mask known.manager →
    Feeds size known chain r (rowBytes ids 8 fun b => (mask b).toNat) →
    ∃ s' r', StorageManager.readMetadataBlocks size ids.length s r = .ok (s', r') ∧
      Loaded s'.manager (done ∪ ids.toFinset) mask known.manager
  | [], _, done, s, r, _, hl, _ => by
      rw [List.toFinset_nil, Finset.union_empty]
      exact ⟨s, r, rfl, hl⟩
  | b :: ids, hids, done, s, r, hdata, hl, h => by
      have hv : (mask b).toNat < 256 ^ 8 := (mask b).isLt
      rw [← List.append_nil (rowBytes _ _ _)] at h
      obtain ⟨s₁, r₁, s₂, r₂, hread₁, hread₂, hfeed, ht⟩ :=
        readRow_ok hk (by decide) (hids b List.mem_cons_self) hv hdata h
      rw [List.append_nil] at hfeed
      have hl₂ := (hl.touch ht).read b
      obtain ⟨s₃, r₃, hloop, hl₃⟩ := readMetadataBlocks_ok hk ids
        (fun c hc => hids c (List.mem_cons_of_mem b hc))
        (s := { s₂ with manager := s₂.manager.readBlock b (mask b) })
        (ht.data.trans hdata) hl₂ hfeed
      refine ⟨s₃, r₃, ?_, ?_⟩
      · rw [List.length_cons, StorageManager.readMetadataBlocks, hread₁]
        simp only [bind, Except.bind, hread₂, BitVec.ofNat_toNat, BitVec.setWidth_eq]
        exact hloop
      · have hunion : insert b done ∪ ids.toFinset = done ∪ (b :: ids).toFinset := by
          ext x
          simp only [Finset.mem_union, Finset.mem_insert, List.toFinset_cons]
          tauto
        exact hunion ▸ hl₃

end Loops

/-! ## The round trip -/

/-- The numbers that the file has to hold: blocks have at least `2 ^ 14` bytes
and their offsets are 64-bit words, and the counts are `uint32_t`. -/
structure StorageRun.InRange (s : StorageRun) : Prop where
  blocks : s.run.manager.maxBlock ≤ 2 ^ 50
  counts : ∀ b k, s.run.manager.multiUseBlocks b = some k → k < 2 ^ 32

variable {chain : List MetadataPointer}

/-- The first read starts behind the pointer to the next sub-block. -/
theorem feeds_start {size : Nat} {bytes : List UInt8} (hsize : pointerSize < size)
    (hpos : 0 < chain.length) (hfit : bytes.length ≤ chain.length * room size)
    (hbytes : streamBytes size known chain 0 bytes.length = bytes) :
    Feeds size known chain (.start ⟨(chainAt chain 0).getDiskPointer, 0⟩ .registerBlocks) bytes := by
  have hroom : 0 < room size := Nat.sub_pos_of_lt hsize
  have hdiv : 0 / room size = 0 := Nat.zero_div _
  have hmod : 0 % room size = 0 := Nat.zero_mod _
  refine ⟨.start ⟨(chainAt chain 0).getDiskPointer, pointerSize⟩ .existingBlocks, 0,
    ⟨rfl, rfl, rfl, rfl, rfl, rfl, rfl, rfl⟩,
    .fresh rfl rfl rfl rfl ?_ ?_ ?_, by simpa using hfit, hbytes⟩
  · rw [hdiv]
    exact hpos
  · rw [hdiv, hmod]
    rfl
  · rw [hmod]
    rfl

def chainManager (chain : List MetadataPointer) : MetadataManager where
  blocks b := if b ∈ chain.map MetadataPointer.blockIndex then some ⟨[], false⟩ else none
  modifiedBlocks _ := none

theorem readable_chain {size : Nat} {s : MetadataSpace} {written : List UInt8}
    {data : MetadataPointer → Nat → UInt8} (hsize : pointerSize < size)
    (hfile : ∀ p ∈ chain, p.InFile) (hstored : Stored size s chain written)
    (hdata : ∀ p ∈ chain, data p = s.data p) : Readable size ⟨chainManager chain, data⟩ chain := by
  have hblock : ∀ {b block}, (chainManager chain).blocks b = some block →
      block = ⟨[], false⟩ ∧ ∃ p ∈ chain, p.blockIndex = b := by
    intro b block hb
    unfold chainManager at hb
    simp only [Option.ite_none_right_eq_some, List.mem_map] at hb
    exact ⟨(Option.some.inj hb.2).symm, hb.1⟩
  refine ⟨⟨fun b block hb => ?_, fun b hb => ?_⟩, fun p hp => ?_, fun i hi => ?_, hsize⟩
  · rw [(hblock hb).1]
    simp
  · obtain ⟨block, hb⟩ := Option.ne_none_iff_exists'.1 hb
    obtain ⟨-, p, hp, rfl⟩ := hblock hb
    exact (hfile p hp).1
  · refine ⟨(hfile p hp).2, ⟨[], false⟩, ?_, List.not_mem_nil⟩
    unfold chainManager
    simp only
    rw [if_pos (List.mem_map_of_mem hp)]
  · rw [← hstored.links i hi]
    exact MetadataSpace.loadNext_congr fun j _ => congrFun (hdata _ (chainAt_mem hi)) j

/-- The stream of the chain on disk starts with what was written. -/
theorem streamBytes_stored {size : Nat} {s : MetadataSpace} {written : List UInt8}
    (hstored : Stored size s chain written) (hlen : written.length ≤ chain.length * room size)
    (hdata : ∀ p ∈ chain, known.data p = s.data p) :
    streamBytes size known chain 0 written.length = written := by
  have hknown := hstored.congr hlen hdata
  apply List.ext_getElem (length_streamBytes _ _ _ _ _)
  intro j hj hj'
  simp only [streamBytes, List.getElem_map, List.getElem_range, Nat.zero_add]
  rw [hknown.content j hj', List.getD_eq_getElem?_getD, List.getElem?_eq_getElem hj',
    Option.getD_some]

/-- `MarkBlocksAsModified` of a manager without masks changes no block. -/
theorem markBlocksAsModified_fresh (order : WalkOrder) {s : StorageManager}
    (h : ∀ b, s.space.manager.modifiedBlocks b = none) :
    ∃ t, s.markBlocksAsModified order = .ok t ∧ t.blockManager = s.blockManager ∧
      t.space.manager.blocks = s.space.manager.blocks := by
  have hids : s.ids s.space.manager.modifiedBlocks = ∅ := by
    ext b
    simp [StorageManager.ids, h]
  have hnil : s.erasedBlocks order = [] := by
    have hempty : order.order ∅ = [] := by
      rw [List.eq_nil_iff_forall_not_mem]
      intro b hb
      exact absurd ((order.mem ∅ b).1 hb) (Finset.notMem_empty b)
    rw [StorageManager.erasedBlocks, hids, hempty, List.filter_nil]
  have hmerge : s.space.manager.mergeModified = s.space.manager.blocks := by
    funext b
    unfold mergeModified
    rw [h b]
  unfold StorageManager.markBlocksAsModified
  rw [hnil]
  exact ⟨_, rfl, rfl, hmerge⟩

/-- What `LoadFreeList` restores of the managers whose list was written. -/
structure Restores (u w : StorageManager) : Prop where
  freeList : w.blockManager.freeList =
    u.blockManager.freeList ∪ u.blockManager.freeBlocksInUse ∪ u.blockManager.modifiedBlocks ∪
      u.blockManager.newlyUsedBlocks
  multiUse : ∀ b, w.blockManager.multiUseBlocks b =
    if b ∈ u.blockManager.newlyUsedBlocks then none else u.blockManager.multiUseBlocks b
  blocks : ∀ b, w.space.manager.blocks b = none ↔ u.space.manager.blocks b = none
  freeBlocks : ∀ p, w.space.manager.IsFree p ↔ u.space.manager.IsFree p

section Load

variable {u : StorageRun}

theorem StorageInv.header_lt (h : StorageInv u) {b : Nat}
    (hb : b ∈ u.storage.blockManager.snapshotHeader.2.freeBlocks) :
    b < u.run.manager.maxBlock := by
  have hat := h.run.refs.block b
  unfold SingleFileBlockManager.snapshotHeader at hb
  simp only [Finset.mem_union] at hb
  rcases hb with ((hb | hb) | hb) | hb
  · exact (hat.free hb).1
  · exact (hat.inUse hb).1
  · exact hat.modified hb
  · exact (hat.held (h.run.newly b hb)).1

theorem snapshot_multiUse (m : SingleFileBlockManager) (b : Nat) :
    m.snapshotHeader.2.multiUseBlocks b =
      if b ∈ m.newlyUsedBlocks then none else m.multiUseBlocks b := rfl

theorem mem_idsOfHeader (h : StorageInv u) (order : WalkOrder) {b : Nat} :
    b ∈ order.order (u.storage.ids u.storage.blockManager.snapshotHeader.2.multiUseBlocks) ↔
      u.storage.blockManager.snapshotHeader.2.multiUseBlocks b ≠ none := by
  rw [order.mem]
  refine StorageInv.mem_ids fun hb => StorageInv.multi_lt h.run ?_
  rw [snapshot_multiUse] at hb
  split_ifs at hb
  · exact absurd rfl hb
  · exact hb

theorem Loaded.restores (h : StorageInv u) {chain : List MetadataPointer}
    {m : MetadataManager} {order : WalkOrder}
    (hl : Loaded m (order.order u.storage.blockIds).toFinset
      (fun b => (u.space.manager.write b).getD 0) (chainManager chain))
    (hchain : ∀ p ∈ chain, u.space.manager.IsOccupied p) :
    (∀ b, m.blocks b = none ↔ u.space.manager.blocks b = none) ∧
      ∀ p, m.IsFree p ↔ u.space.manager.IsFree p := by
  have hmem : ∀ b, b ∈ (order.order u.storage.blockIds).toFinset ↔
      u.space.manager.blocks b ≠ none := by
    intro b
    rw [List.mem_toFinset, order.mem, h.mem_blockIds]
  have hnone : ∀ b, u.space.manager.blocks b = none → m.blocks b = none := by
    intro b hb
    refine (hl.other b fun hm => (hmem b).1 hm hb).resolve_right fun hr => hr.2 ?_
    unfold chainManager
    simp only [ite_eq_right_iff, reduceCtorEq, imp_false, List.mem_map]
    rintro ⟨p, hp, rfl⟩
    obtain ⟨-, block, hblock, -⟩ := hchain p hp
    rw [hb] at hblock
    cases hblock
  have hsome : ∀ b block, u.space.manager.blocks b = some block →
      m.blocks b = some ⟨blocksFromInteger (freeBlocksToInteger block.freeBlocks), false⟩ := by
    intro b block hb
    rw [hl.listed b ((hmem b).2 (by simp [hb])), write, hb]
    rfl
  constructor
  · intro b
    refine ⟨fun hb => ?_, hnone b⟩
    cases hblock : u.space.manager.blocks b with
    | none => rfl
    | some block =>
        rw [hsome b block hblock] at hb
        cases hb
  · intro p
    unfold IsFree
    cases hblock : u.space.manager.blocks p.blockIndex with
    | none => simp [hnone _ hblock]
    | some block =>
        have hlt := (h.lists _ block hblock).2 p.index
        simp only [hsome _ block hblock, Option.some.injEq, exists_eq_left', mem_blocksFromInteger]
        constructor
        · rintro ⟨hi, hbit⟩
          rw [getLsbD_freeBlocksToInteger hi] at hbit
          exact of_decide_eq_true hbit
        · intro hi
          exact ⟨hlt hi, by rw [getLsbD_freeBlocksToInteger (hlt hi)]; exact decide_eq_true hi⟩

theorem loadFreeList_ok (h : StorageInv u) {size : Nat} (hsize : pointerSize < size)
    (hmax : u.run.manager.maxBlock ≤ 2 ^ 56)
    (hcounts : ∀ b k, u.run.manager.multiUseBlocks b = some k → k < 2 ^ 32)
    (order order' : WalkOrder) {space : MetadataSpace} {chain : List MetadataPointer}
    (hpos : 0 < chain.length) (hchain : ∀ p ∈ chain, u.space.manager.IsOccupied p)
    (hlen : (freeListBytes order u.storage u.storage.blockManager.snapshotHeader.2).length ≤
      chain.length * room size)
    (hstored : Stored size space chain
      (freeListBytes order u.storage u.storage.blockManager.snapshotHeader.2))
    {disk : MetadataPointer → Nat → UInt8} (hdisk : ∀ p ∈ chain, disk p = space.data p)
    (m : SingleFileBlockManager) :
    ∃ w, StorageManager.loadFreeList order' size ⟨m, ⟨⟨fun _ => none, fun _ => none⟩, disk⟩⟩
      (chainAt chain 0).getDiskPointer = .ok w ∧ Restores u.storage w := by
  have hspace : SpaceOk u.space := ⟨h.lists, fun b hb => (h.blocks_lt hb).trans_le hmax⟩
  have hfile : ∀ p ∈ chain, p.InFile := fun p hp => (hchain p hp).inFile hspace
  have hk := readable_chain hsize hfile hstored hdisk
  have hfeed : Feeds size ⟨chainManager chain, disk⟩ chain _ _ := feeds_start hsize hpos hlen
    (streamBytes_stored hstored hlen hdisk)
  have htotal := h.totalSize_le
  have hbytes := length_freeListBytes_le order u.storage
  rw [length_freeListBytes] at hbytes
  have hid : ∀ b, b < u.run.manager.maxBlock → b < 256 ^ 8 := fun b hb => by omega
  have hheader : ∀ b k, u.storage.blockManager.snapshotHeader.2.multiUseBlocks b = some k →
      b < u.run.manager.maxBlock ∧ k < 256 ^ 4 := by
    intro b k hb
    rw [snapshot_multiUse] at hb
    split_ifs at hb
    have hmulti : u.run.manager.multiUseBlocks b = some k := hb
    exact ⟨StorageInv.multi_lt h.run (by simp [hmulti]), hcounts b k hmulti⟩
  obtain ⟨s₁, r₁, hread₁, hfeed₁, ht₁⟩ := readWord_ok hk
    (s := ⟨⟨fun _ => none, fun _ => none⟩, disk⟩) (by decide) (by omega) rfl hfeed
  obtain ⟨s₂, r₂, hread₂, hfeed₂, ht₂⟩ := readFreeBlocks_ok hk _
    (fun b hb => hid b (h.header_lt ((Finset.mem_sort _).1 hb))) ∅ ht₁.data hfeed₁
  have hdata₂ := ht₂.data.trans ht₁.data
  obtain ⟨s₃, r₃, hread₃, hfeed₃, ht₃⟩ := readWord_ok hk (by decide) (by omega) hdata₂ hfeed₂
  have hdata₃ := ht₃.data.trans hdata₂
  obtain ⟨s₄, r₄, hread₄, hfeed₄, ht₄⟩ := readMultiUseBlocks_ok hk _
    (fun b hb => by
      obtain ⟨k, hk'⟩ := Option.ne_none_iff_exists'.1 ((mem_idsOfHeader h order).1 hb)
      obtain ⟨hlt, hcount⟩ := hheader b k hk'
      rw [hk']
      exact ⟨hid b hlt, hcount⟩) (fun _ => none) hdata₃ hfeed₃
  have hdata₄ := ht₄.data.trans hdata₃
  obtain ⟨s₅, r₅, hread₅, hfeed₅, ht₅⟩ := readWord_ok hk (by decide) (by omega) hdata₄ hfeed₄
  have hempty : Loaded (⟨fun _ => none, fun _ => none⟩ : MetadataManager) ∅
      (fun b => (u.space.manager.write b).getD 0) (chainManager chain) :=
    ⟨fun b hb => absurd hb (Finset.notMem_empty b), fun b _ => Or.inl rfl, fun b => rfl⟩
  have ht := (((ht₁.trans ht₂).trans ht₃).trans ht₄).trans ht₅
  obtain ⟨s₆, r₆, hread₆, hl⟩ := readMetadataBlocks_ok hk _
    (fun b hb => hid b (h.blocks_lt (h.mem_blockIds.1 ((order.mem _ b).1 hb))))
    ht.data (hempty.touch ht) hfeed₅
  rw [Finset.empty_union] at hl
  obtain ⟨hblocks, hfree⟩ := hl.restores h hchain
  rw [order.length_order] at hread₄ hread₆
  rw [Finset.length_sort, Finset.empty_union, Finset.sort_toFinset] at hread₂
  obtain ⟨w, hmark, hmanager, hsame⟩ := markBlocksAsModified_fresh order'
    (s := ⟨{ m with
      freeList := u.storage.blockManager.snapshotHeader.2.freeBlocks
      multiUseBlocks := fun b => if b ∈ order.order
          (u.storage.ids u.storage.blockManager.snapshotHeader.2.multiUseBlocks)
        then some ((u.storage.blockManager.snapshotHeader.2.multiUseBlocks b).getD 0)
        else none }, s₆⟩) hl.modified
  refine ⟨w, ?_, by rw [hmanager]; rfl, fun b => ?_, fun b => by rw [hsame]; exact hblocks b,
    fun p => ?_⟩
  · have hvalid : (chainAt chain 0).getDiskPointer ≠ invalidIndex :=
      Nat.ne_of_lt (getDiskPointer_lt (hfile _ (chainAt_mem hpos)))
    unfold StorageManager.loadFreeList
    rw [if_neg hvalid]
    simp only [bind, Except.bind, hread₁, hread₂, hread₃, hread₄, hread₅, hread₆]
    exact hmark
  · rw [hmanager, ← snapshot_multiUse]
    simp only [mem_idsOfHeader h order]
    cases hb : u.storage.blockManager.snapshotHeader.2.multiUseBlocks b with
    | none => simp
    | some k => simp
  · refine Iff.trans ?_ (hfree p)
    unfold IsFree
    rw [hsame]

end Load

/-- From every reachable state `GetFreeListBlocks` ends, the writer of
`WriteHeader` finds a sub-block whenever it needs one, and `LoadFreeList` on the
file restores what `Restores` lists: the blocks that were free, in use, modified
or newly used when the list was written, the counts of those that were not newly
used, and the free sub-blocks of every metadata block. -/
theorem free_list_round_trip (b : BlockSize) (order : WalkOrder) {s : StorageRun}
    (h : storageLts.Reachable s) (hrange : s.InRange) :
    ∃ handles t u id v,
      s.storage.getFreeListBlocks order b.metadataBlockSize = .ok (handles, t) ∧
      t.markBlocksAsModified order = .ok u ∧
      u.writeFreeList order b.metadataBlockSize handles = .ok (id, v) ∧
      s.storage.writeHeader order b.metadataBlockSize = .ok (id, v) ∧
      ∀ order' m disk, (∀ p, u.space.manager.IsOccupied p → disk p = v.space.data p) →
        ∃ w, StorageManager.loadFreeList order' b.metadataBlockSize
          ⟨m, ⟨⟨fun _ => none, fun _ => none⟩, disk⟩⟩ id = .ok w ∧ Restores u w := by
  have hinv := StorageInv.of_reachable h
  have hsize := b.pointerSize_lt
  obtain ⟨t, handles, hget, hres⟩ := hinv.getFreeListBlocks_ok order b.room_large
  obtain ⟨u, hmark, hdone⟩ := hres.inv.markBlocksAsModified_ok order
  have hmax : (t.afterMark u).run.manager.maxBlock ≤ 2 ^ 56 := by
    have htotal := hinv.totalSize_le
    have hlast := hres.last
    have hblocks := hrange.blocks
    have hsame := hdone.last
    omega
  have hcounts : ∀ x k, (t.afterMark u).run.manager.multiUseBlocks x = some k → k < 2 ^ 32 := by
    intro x k hk
    obtain ⟨k', hk', hle⟩ := hdone.multi x k hk
    rw [hres.multi] at hk'
    exact hle.trans_lt (hrange.counts x k' hk')
  have hhandles : HandlesOk u.space handles :=
    ⟨⟨hdone.inv.lists, fun x hx => (hdone.inv.blocks_lt hx).trans_le hmax⟩, hres.held.nodup,
      hres.held.mark hdone⟩
  obtain ⟨v, chain, hwrite, hmanager, hpos, hchain, hlen, hstored⟩ :=
    writeFreeList_ok order hsize hhandles (hdone.size.trans_lt hres.enough)
  refine ⟨handles, t.storage, u, _, v, hget, hmark, hwrite, ?_, fun order' m disk hdisk => ?_⟩
  · unfold StorageManager.writeHeader
    simp only [hget, hmark, bind, Except.bind]
    exact hwrite
  · exact loadFreeList_ok hdone.inv hsize hmax hcounts order order' hpos hchain hlen hstored
      (fun p hp => hdisk p (hchain p hp)) m

/-! ### A new file -/

def ascendingOrder : WalkOrder where
  order u := u.sort (· ≤ ·)
  nodup u := u.sort_nodup _
  mem u _ := u.mem_sort _

def newFile : StorageRun where
  run :=
    { manager := ⟨∅, ∅, ∅, ∅, fun _ => none, 0, 0, ∅⟩
      written := ⟨0, ∅, fun _ => none, 0⟩
      pending := none
      refs := fun _ => 0 }
  space := ⟨⟨fun _ => none, fun _ => none⟩, fun _ _ => 0⟩

theorem newFile_reachable : storageLts.Reachable newFile := by
  refine .init ⟨⟨rfl, rfl, rfl, rfl, rfl, rfl, rfl, ?_, fun _ _ => rfl, fun _ => Nat.zero_le 1⟩,
    ?_, ?_, ?_, fun _ => rfl⟩
  · exact fun b hb => absurd hb (Finset.notMem_empty b)
  · exact fun b hb => absurd hb (Finset.notMem_empty b)
  · intro b block hb
    cases hb
  · exact fun b hb => absurd rfl hb

theorem free_list_round_trip_newFile : ∃ id v, newFile.storage.writeHeader ascendingOrder
    smallBlocks.metadataBlockSize = .ok (id, v) := by
  obtain ⟨_, _, _, id, v, _, _, _, hwrite, _⟩ := free_list_round_trip smallBlocks ascendingOrder
    newFile_reachable ⟨Nat.zero_le _, fun b k hk => by cases hk⟩
  exact ⟨id, v, hwrite⟩

end MiniDuck
